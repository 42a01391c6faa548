/-
The scans for a candidate with interval timestamps (`HardwareIntervalTimestamp` in
`datastructures/ts_timestamp.h`; `try_remove_right` and `try_remove_left` in
`datastructures/ts_stack_buffer.h`, `ts_queue_buffer.h` and `ts_deque_buffer.h`).

A scan is the loop over the buffers, restricted to those where it finds an item, in the order
in which it meets them; an attempt to take an item at once that fails has no influence on what
it remembers.  The two timestamps `tmp_timestamp` in local memory are modelled as such: one
holds the timestamp of the candidate, the next item's is loaded into the other one.

* `hardwareInterval` — the class of timestamps, for the machines of the three structures;
* `scan_spec` — a scan keeps the candidate of `better`, with its timestamp;
* `stack_compare`, `queue_compare`, `deque_step` — the machines compare in the same way;
* `scans_maximal` — the candidate that remains is maximal.
-/
import Scal.IntervalOrder
import Scal.TSDeque
import Scal.TSQueue
import Scal.TSStack

/-! ### The timestamps -/

/-- `set_timestamp` of `HardwareIntervalTimestamp`: the first store, the two loops that read the
clock, and the second store. -/
inductive IntervalSetting where
  | storeLo
  | readWait
  | spin (wait : ℕ)
  | storeHi

/-- `load_timestamp`: the two words, one after the other. -/
inductive IntervalLoading where
  | loadLo
  | loadHi (lo : ℕ)

/-- `HardwareIntervalTimestamp`; the choice is what the clock shows. -/
@[reducible] def hardwareInterval (delay : ℕ) : TimeStamp where
  Clock := Unit
  Stamp := TimeInterval ℕ
  Time := TimeInterval ℕ
  Setting := IntervalSetting
  Reading := Unit
  Loading := IntervalLoading
  Choice := ℕ
  clock := ()
  initSentinelAtomic := ⟨0, 0⟩
  initTopAtomic := ⟨uint64Max, uint64Max⟩
  initSentinel := ⟨0, 0⟩
  initTop := ⟨uint64Max, uint64Max⟩
  setTimestamp _ := .storeLo
  setStep time _ result
    | .storeLo => ((), { result with lo := time }, some .readWait)
    | .readWait => ((), result, some (.spin ((time + delay) % wordSize)))
    | .spin wait => ((), result, if time < wait then some (.spin wait) else some .storeHi)
    | .storeHi => ((), { result with hi := time }, none)
  readTime := ()
  readStep time _ _ := .inr ⟨time, time⟩
  loadTimestamp := .loadLo
  loadStep source
    | .loadLo => .inl (.loadHi source.lo)
    | .loadHi lo => .inr ⟨lo, source.hi⟩
  isLater timestamp1 timestamp2 := timestamp2.hi < timestamp1.lo

namespace IntervalScan

/-! ### The loops -/

/-- An item that the scan meets: where it is, its index, the pointer of its buffer that was read
before, and its timestamp. -/
structure Found where
  item : ℕ
  index : ℤ
  bufferIndex : ℕ
  tmp : TaggedPointer
  timestamp : TimeInterval ℕ
  deriving DecidableEq

/-- The local variables; `timestamp` is a pointer to one of the two `tmp_timestamp`. -/
structure Scan where
  tmpTimestamp : Bool → TimeInterval ℕ
  tmpIndex : Bool
  timestamp : Bool
  result : Option Found

/-- Before the loop; the second timestamp in memory is not initialized. -/
def Scan.init (first memory : TimeInterval ℕ) : Scan :=
  ⟨Function.update (fun _ => memory) false first, true, false, none⟩

/-- `load_timestamp`, and the new candidate if the test succeeds. -/
def Scan.meet (test : Found → TimeInterval ℕ → Option Found → TimeInterval ℕ → Bool) (s : Scan)
    (x : Found) : Scan :=
  let tmpTimestamp := Function.update s.tmpTimestamp s.tmpIndex x.timestamp
  let itemTimestamp := s.tmpIndex
  if test x (tmpTimestamp itemTimestamp) s.result (tmpTimestamp s.timestamp) then
    ⟨tmpTimestamp, !s.tmpIndex, itemTimestamp, some x⟩
  else { s with tmpTimestamp := tmpTimestamp }

section

variable (delay : ℕ)

/-- The test of the loop in `TSStackBuffer::try_remove_right`. -/
def stackTest (_ : Found) (itemTimestamp : TimeInterval ℕ) (_ : Option Found)
    (timestamp : TimeInterval ℕ) : Bool :=
  (hardwareInterval delay).isLater itemTimestamp timestamp

/-- The test of the loop in `TSQueueBuffer::try_remove_right`. -/
def queueTest (_ : Found) (itemTimestamp : TimeInterval ℕ) (_ : Option Found)
    (timestamp : TimeInterval ℕ) : Bool :=
  (hardwareInterval delay).isLater timestamp itemTimestamp

/-- The tests of the loops in `TSDequeBuffer::try_remove_left` and `try_remove_right`. -/
def dequeTest (side : Side) (item : Found) (itemTimestamp : TimeInterval ℕ) (result : Option Found)
    (timestamp : TimeInterval ℕ) : Bool :=
  match result with
  | none => true
  | some result =>
    TSDeque.isMore (hardwareInterval delay) side item.index itemTimestamp result.index timestamp

/-- The loops; `memory` is what is in the local memory before. -/
def stackScan (memory : TimeInterval ℕ) (items : List Found) : Scan :=
  items.foldl (Scan.meet (stackTest delay)) (.init (hardwareInterval delay).initSentinel memory)

def queueScan (memory : TimeInterval ℕ) (items : List Found) : Scan :=
  items.foldl (Scan.meet (queueTest delay)) (.init (hardwareInterval delay).initTop memory)

def dequeScan (side : Side) (memory : TimeInterval ℕ) (items : List Found) : Scan :=
  items.foldl (Scan.meet (dequeTest delay side))
    (.init (hardwareInterval delay).initSentinel memory)

end

/-! ### What is remembered -/

section Spec

variable {test : Found → TimeInterval ℕ → Option Found → TimeInterval ℕ → Bool}
  {r : Found → Found → Prop} [DecidableRel r] {s : Scan} {c x : Found}

/-- The candidate `c` with its timestamp; the other place in memory is free. -/
structure Remembers (s : Scan) (c : Found) : Prop where
  result : s.result = some c
  stored : s.tmpTimestamp s.timestamp = c.timestamp
  free : s.tmpIndex ≠ s.timestamp

/-- The first item becomes the candidate. -/
theorem meet_first {first memory : TimeInterval ℕ} (hx : test x x.timestamp none first = true) :
    Remembers ((Scan.init first memory).meet test x) x := by
  have htest : test x
      (Function.update (Scan.init first memory).tmpTimestamp true x.timestamp true) none
      (Function.update (Scan.init first memory).tmpTimestamp true x.timestamp false) = true := by
    rw [Function.update_self, Function.update_of_ne Bool.false_ne_true]
    exact hx
  have hmeet : (Scan.init first memory).meet test x =
      ⟨Function.update (Scan.init first memory).tmpTimestamp true x.timestamp, false, true,
        some x⟩ := if_pos htest
  rw [hmeet]
  refine ⟨rfl, ?_, Bool.false_ne_true⟩
  show Function.update (Scan.init first memory).tmpTimestamp true x.timestamp true = x.timestamp
  rw [Function.update_self]

/-- A later item does if it is above the candidate. -/
theorem meet_next (hs : Remembers s c)
    (htest : test x x.timestamp (some c) c.timestamp = decide (r x c)) :
    Remembers (s.meet test x) (better r c x) := by
  have hload : test x (Function.update s.tmpTimestamp s.tmpIndex x.timestamp s.tmpIndex) s.result
      (Function.update s.tmpTimestamp s.tmpIndex x.timestamp s.timestamp) = decide (r x c) := by
    rw [Function.update_self, Function.update_of_ne (Ne.symm hs.free), hs.stored, hs.result, htest]
  by_cases hr : r x c
  · have hmeet : s.meet test x = ⟨Function.update s.tmpTimestamp s.tmpIndex x.timestamp,
        !s.tmpIndex, s.tmpIndex, some x⟩ := if_pos (hload.trans (decide_eq_true hr))
    rw [hmeet, better, if_pos hr]
    refine ⟨rfl, ?_, Bool.not_ne_self _⟩
    show Function.update s.tmpTimestamp s.tmpIndex x.timestamp s.tmpIndex = x.timestamp
    rw [Function.update_self]
  · have hmeet : s.meet test x =
        { s with tmpTimestamp := Function.update s.tmpTimestamp s.tmpIndex x.timestamp } :=
      if_neg (by rw [hload]; simpa using hr)
    rw [hmeet, better, if_neg hr]
    refine ⟨hs.result, ?_, hs.free⟩
    show Function.update s.tmpTimestamp s.tmpIndex x.timestamp s.timestamp = c.timestamp
    rw [Function.update_of_ne (Ne.symm hs.free), hs.stored]

theorem foldl_meet (htest : ∀ x y, test x x.timestamp (some y) y.timestamp = decide (r x y)) :
    ∀ (l : List Found) {s : Scan} {c : Found}, Remembers s c →
      Remembers (l.foldl (Scan.meet test) s) (l.foldl (better r) c) := by
  intro l
  induction l with
  | nil =>
    intro s c hs
    exact hs
  | cons x l ih =>
    intro s c hs
    exact ih (meet_next hs (htest x c))

/-- **A scan remembers a maximal item**, if its test is that of a strict partial order. -/
theorem scan_spec {p : Found → Prop}
    (htest : ∀ x y, test x x.timestamp (some y) y.timestamp = decide (r x y))
    (htrans : ∀ a b c, p b → r a b → r b c → r a c) (hirr : ∀ a, p a → ¬ r a a)
    {first memory : TimeInterval ℕ} {items : List Found} (hne : items ≠ []) (hp : ∀ x ∈ items, p x)
    (hfirst : ∀ x ∈ items, test x x.timestamp none first = true) :
    ∃ c ∈ items, Remembers (items.foldl (Scan.meet test) (.init first memory)) c ∧
      ∀ x ∈ items, ¬ r x c := by
  obtain ⟨y, l, rfl⟩ := List.exists_cons_of_ne_nil hne
  have hmax := foldl_better htrans hirr l y hp
  exact ⟨l.foldl (better r) y, hmax.1,
    foldl_meet htest l (meet_first (hfirst y List.mem_cons_self)), hmax.2⟩

end Spec

/-! ### The orders of the three structures -/

section Orders

variable {delay : ℕ} {side : Side} {a b c : Found}

/-- The interval of an item is not empty. -/
def Found.Proper (x : Found) : Prop := x.timestamp.lo ≤ x.timestamp.hi

/-- `is_more_left` and `is_more_right`. -/
def Found.More (delay : ℕ) (side : Side) (x y : Found) : Prop :=
  TSDeque.isMore (hardwareInterval delay) side x.index x.timestamp y.index y.timestamp = true

instance (x y : Found) : Decidable (x.More delay side y) := inferInstanceAs (Decidable (_ = _))

/-- What `is_more_left` and `is_more_right` say of the sides where the items were inserted. -/
theorem Found.more_iff : a.More delay side b ↔
    (TSDeque.inserted side a.index = true ∧
      (TSDeque.inserted side b.index = true → a.timestamp.Later b.timestamp)) ∨
    (TSDeque.inserted side a.index = false ∧ TSDeque.inserted side b.index = false ∧
      b.timestamp.Later a.timestamp) := by
  rw [More, TSDeque.isMore]
  cases TSDeque.inserted side a.index with
  | true =>
    cases TSDeque.inserted side b.index with
    | true => simp [TimeInterval.Later]
    | false => simp
  | false =>
    cases TSDeque.inserted side b.index with
    | true => simp
    | false => simp [TimeInterval.Later]

theorem Found.More.trans (hb : b.Proper) (hab : a.More delay side b) (hbc : b.More delay side c) :
    a.More delay side c := by
  rw [more_iff] at hab hbc ⊢
  rcases hab with ⟨ha, hab⟩ | ⟨ha, hb', hab⟩
  · refine Or.inl ⟨ha, fun hc => ?_⟩
    -- `c` was inserted at this side, so `b` was
    rcases hbc with ⟨hb', hbc⟩ | ⟨-, hc', -⟩
    · exact (hab hb').trans hb (hbc hc)
    · rw [hc'] at hc
      cases hc
  · rcases hbc with ⟨hb'', -⟩ | ⟨-, hc, hbc⟩
    · rw [hb'] at hb''
      cases hb''
    · exact Or.inr ⟨ha, hc, hbc.trans hb hab⟩

theorem Found.not_more_self (ha : a.Proper) : ¬ a.More delay side a := by
  rw [more_iff]
  rintro (⟨hs, h⟩ | ⟨-, -, h⟩)
  · exact TimeInterval.not_later_self ha (h hs)
  · exact TimeInterval.not_later_self ha h

end Orders

/-! ### The machines -/

/-- The machine of the stack compares timestamps in the same way. -/
theorem stack_compare {delay : ℕ} {s : Scan} {c : Found} (hs : Remembers s c)
    {m : TSStack.Scan (hardwareInterval delay)} (hm : m.timestamp = c.timestamp)
    (hr : m.result = c.item) (x : Found) :
    ∃ c', Remembers (s.meet (stackTest delay) x) c' ∧
      (m.compare x.item x.timestamp x.tmp).timestamp = c'.timestamp ∧
      (m.compare x.item x.timestamp x.tmp).result = c'.item := by
  refine ⟨_, meet_next (r := fun x y => x.timestamp.Later y.timestamp) hs rfl, ?_⟩
  rw [TSStack.Scan.compare, better, hm]
  by_cases h : x.timestamp.Later c.timestamp
  · have hlater : (hardwareInterval delay).isLater x.timestamp c.timestamp = true :=
      decide_eq_true h
    rw [if_pos h, if_pos hlater]
    exact ⟨rfl, rfl⟩
  · have hlater : (hardwareInterval delay).isLater x.timestamp c.timestamp = false :=
      decide_eq_false h
    rw [if_neg h, hlater]
    exact ⟨hm, hr⟩

/-- Likewise that of the queue. -/
theorem queue_compare {delay : ℕ} {s : Scan} {c : Found} (hs : Remembers s c)
    {m : TSQueue.Scan (hardwareInterval delay)} (hm : m.timestamp = c.timestamp)
    (hr : m.result = c.item) (x : Found) :
    ∃ c', Remembers (s.meet (queueTest delay) x) c' ∧
      (m.compare x.bufferIndex x.item x.timestamp x.tmp).timestamp = c'.timestamp ∧
      (m.compare x.bufferIndex x.item x.timestamp x.tmp).result = c'.item := by
  refine ⟨_, meet_next (r := fun x y => y.timestamp.Later x.timestamp) hs rfl, ?_⟩
  rw [TSQueue.Scan.compare, better, hm]
  by_cases h : c.timestamp.Later x.timestamp
  · have hlater : (hardwareInterval delay).isLater c.timestamp x.timestamp = true :=
      decide_eq_true h
    rw [if_pos h, if_pos hlater]
    exact ⟨rfl, rfl⟩
  · have hlater : (hardwareInterval delay).isLater c.timestamp x.timestamp = false :=
      decide_eq_false h
    rw [if_neg h, hlater]
    exact ⟨hm, hr⟩

/-- In the deque the comparison is part of the step that loads the timestamp. -/
theorem deque_step {delay numThreads t : ℕ} {α : Type} {ch : TSDeque.Choice (hardwareInterval delay)}
    {σ : TSDeque.Shared α (hardwareInterval delay)} {s : Scan} {c x : Found}
    {m : TSDeque.Scan (hardwareInterval delay)} {lo : ℕ} (hs : Remembers s c)
    (hm : m.timestamp = c.timestamp) (hr : m.result = c.item) (hc : c.item ≠ 0)
    (hci : (σ.item c.item).index = c.index) (hxi : (σ.item x.item).index = x.index)
    (hload : ⟨lo, (σ.item x.item).timestamp.hi⟩ = x.timestamp) :
    ∃ c' m', Remembers (s.meet (dequeTest delay m.side) x) c' ∧
      m'.timestamp = c'.timestamp ∧ m'.result = c'.item ∧
      (TSDeque.step numThreads t ch σ (.loadTimestamp m x.tmp x.item (.loadHi lo)) =
          (σ, .inl (.checkItem m')) ∨
        TSDeque.step numThreads t ch σ (.loadTimestamp m x.tmp x.item (.loadHi lo)) =
          (σ, TSDeque.nextBuffer numThreads m')) := by
  have hstep : TSDeque.step numThreads t ch σ (.loadTimestamp m x.tmp x.item (.loadHi lo)) =
      if m.result = 0 ∨ x.More delay m.side c then
        let m' : TSDeque.Scan (hardwareInterval delay) := { m with
          result := x.item, bufferIndex := m.tmpBufferIndex numThreads
          timestamp := x.timestamp, old := x.tmp }
        if TSDeque.inserted m.side (σ.item x.item).index = true ∧
            (hardwareInterval delay).isLater m.invocationTime x.timestamp = false then
          (σ, .inl (.checkItem m'))
        else (σ, TSDeque.nextBuffer numThreads m')
      else (σ, TSDeque.nextBuffer numThreads m) := by
    simp only [Found.More, ← hxi, ← hci, ← hr, ← hm, ← hload]
    rfl
  have htest : dequeTest delay m.side x x.timestamp (some c) c.timestamp =
      decide (x.More delay m.side c) := (Bool.decide_coe _).symm
  have hmeet := meet_next hs htest
  rw [hstep]
  by_cases h : x.More delay m.side c
  · rw [better, if_pos h] at hmeet
    refine ⟨x, { m with
      result := x.item, bufferIndex := m.tmpBufferIndex numThreads
      timestamp := x.timestamp, old := x.tmp }, hmeet, rfl, rfl, ?_⟩
    rw [if_pos (Or.inr h)]
    exact ite_eq_or_eq ..
  · rw [better, if_neg h] at hmeet
    rw [if_neg (not_or.mpr ⟨hr ▸ hc, h⟩)]
    exact ⟨c, m, hmeet, hm, hr, Or.inr rfl⟩

/-! ### The result -/

/-- **The item that is remembered is extremal**: the youngest one in the stack, the oldest one in
the queue, and the one furthest on its side in the deque, as far as the items are comparable. -/
theorem scans_maximal (delay : ℕ) (memory : TimeInterval ℕ) (items : List Found)
    (hne : items ≠ []) (hle : ∀ x ∈ items, x.timestamp.lo ≤ x.timestamp.hi) :
    ((∀ x ∈ items, 0 < x.timestamp.lo) →
      ∃ c ∈ items, Remembers (stackScan delay memory items) c ∧
        ∀ x ∈ items, (hardwareInterval delay).isLater x.timestamp c.timestamp = false) ∧
    ((∀ x ∈ items, x.timestamp.hi < uint64Max) →
      ∃ c ∈ items, Remembers (queueScan delay memory items) c ∧
        ∀ x ∈ items, (hardwareInterval delay).isLater c.timestamp x.timestamp = false) ∧
    ∀ side, ∃ c ∈ items, Remembers (dequeScan delay side memory items) c ∧
      ∀ x ∈ items, TSDeque.isMore (hardwareInterval delay) side x.index x.timestamp
        c.index c.timestamp = false := by
  refine ⟨fun hlo => ?_, fun hhi => ?_, fun side => ?_⟩
  · have htest : ∀ x y : Found, stackTest delay x x.timestamp (some y) y.timestamp =
        decide (x.timestamp.Later y.timestamp) := fun _ _ => rfl
    have htrans : ∀ a b c : Found, b.Proper → a.timestamp.Later b.timestamp →
        b.timestamp.Later c.timestamp → a.timestamp.Later c.timestamp :=
      fun a b c hb hab hbc => hab.trans hb hbc
    have hfirst : ∀ x ∈ items, stackTest delay x x.timestamp none
        (hardwareInterval delay).initSentinel = true := fun x hx => decide_eq_true (hlo x hx)
    obtain ⟨c, hc, hrem, hmax⟩ := scan_spec htest htrans
      (fun a ha => TimeInterval.not_later_self ha) hne hle hfirst
    exact ⟨c, hc, hrem, fun x hx => decide_eq_false (hmax x hx)⟩
  · have htest : ∀ x y : Found, queueTest delay x x.timestamp (some y) y.timestamp =
        decide (y.timestamp.Later x.timestamp) := fun _ _ => rfl
    have htrans : ∀ a b c : Found, b.Proper → b.timestamp.Later a.timestamp →
        c.timestamp.Later b.timestamp → c.timestamp.Later a.timestamp :=
      fun a b c hb hab hbc => hbc.trans hb hab
    have hfirst : ∀ x ∈ items, queueTest delay x x.timestamp none
        (hardwareInterval delay).initTop = true := fun x hx => decide_eq_true (hhi x hx)
    obtain ⟨c, hc, hrem, hmax⟩ := scan_spec htest htrans
      (fun a ha => TimeInterval.not_later_self ha) hne hle hfirst
    exact ⟨c, hc, hrem, fun x hx => decide_eq_false (hmax x hx)⟩
  · have htest : ∀ x y : Found, dequeTest delay side x x.timestamp (some y) y.timestamp =
        decide (x.More delay side y) := fun x y => (Bool.decide_coe _).symm
    obtain ⟨c, hc, hrem, hmax⟩ := scan_spec htest
      (fun a b c hb hab hbc => hab.trans hb hbc) (fun a ha => Found.not_more_self ha) hne hle
      fun x _ => rfl
    exact ⟨c, hc, hrem, fun x hx => Bool.eq_false_iff.mpr (hmax x hx)⟩

/-- Two items of which neither is later, and then one that is later than the first one only. -/
def threeFound : List Found :=
  [⟨1, -1, 0, ⟨0, 0⟩, ⟨10, 20⟩⟩, ⟨2, 1, 1, ⟨0, 0⟩, ⟨15, 30⟩⟩, ⟨3, 2, 2, ⟨0, 0⟩, ⟨25, 40⟩⟩]

theorem scans_maximal_three :
    (∃ c ∈ threeFound, Remembers (stackScan 5 ⟨0, 0⟩ threeFound) c ∧
      ∀ x ∈ threeFound, (hardwareInterval 5).isLater x.timestamp c.timestamp = false) ∧
    (∃ c ∈ threeFound, Remembers (queueScan 5 ⟨0, 0⟩ threeFound) c ∧
      ∀ x ∈ threeFound, (hardwareInterval 5).isLater c.timestamp x.timestamp = false) ∧
    ∀ side, ∃ c ∈ threeFound, Remembers (dequeScan 5 side ⟨0, 0⟩ threeFound) c ∧
      ∀ x ∈ threeFound, TSDeque.isMore (hardwareInterval 5) side x.index x.timestamp
        c.index c.timestamp = false :=
  have h := scans_maximal 5 ⟨0, 0⟩ threeFound (by decide) (by decide)
  ⟨h.1 (by decide), h.2.1 (by decide), h.2.2⟩

end IntervalScan

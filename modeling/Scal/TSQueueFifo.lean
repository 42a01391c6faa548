/-
The timestamped queue never reverses two enqueues that do not overlap.

A dequeue reads the time and then scans the buffers.  An item whose enqueue returned before
the time was read is removed, or not earlier than the item that the scan has found; and an
item that is not later than the time read was not enqueued after that.

* `access_timed` — every access keeps the invariant of `TSQueueOrder`;
* `fifo_stuttering` — the order of removals with `StutteringTimestamp`;
* `fifo_of_notStart` — and with `AtomicCounterTimestamp`, where an item may get the very
  number that `read_time` returned, in runs in which no such item is removed;
* `not_fifo_counter` — in others the order may be reversed.
-/
import Scal.TSQueueOrder

open Interleave Linearizability

namespace TSQueue

variable {α : Type} {T : TimeStamp} {n addresses : ℕ}

/-- The item of an enqueue. -/
def Local.item : Local α T → Option ℕ
  | .loadOldInsert _ p | .storeNext _ p _ | .storeInsert _ p | .setTimestamp _ p _ => some p
  | _ => none

/-- The item that a dequeue removed. -/
def Local.took : Local α T → Option ℕ
  | .loadData p => some p
  | _ => none

/-- The clock did not advance for the enqueue yet. -/
def Local.unticked (C : Counting T n) : Local α T → Bool
  | .setTimestamp _ _ s => C.fresh s
  | _ => true

/-- The item that an access removes. -/
def removal : Local α T → Local α T ⊕ BagRet α → Option ℕ
  | .swapRemove s, .inl (.loadData _) => some s.result
  | _, _ => none

abbrev buffers (σ : (machine α T n addresses).Shared) : Shared α T := σ

abbrev QueueState (α : Type) (T : TimeStamp) (n addresses : ℕ) := State (machine α T n addresses)

/-! ### What a call knows about timestamps -/

/-- The scan began at time `j`, and has found the item `s.result` in the buffers `visited`. -/
structure Scanning (C : Counting T n) (j : ℕ) (s : Scan T) (visited : ℕ → Prop)
    (w : QueueState α T n addresses) : Prop where
  began : ∃ m, w.trace[j]? = some m ∧ C.time s.startTime + C.gap ≤ C.low m.before.clock
  bound : C.time s.timestamp ≤ uint64Max
  result : s.result ≠ 0 → s.result < w.shared.alloc ∧ C.time s.timestamp ≠ uint64Max ∧
    valueOf C w.shared s.result = C.time s.timestamp
  covered : Covered buffers C j (C.time s.timestamp) visited w

/-- Facts about the call `i` that stay true once they are true. -/
inductive TimeFact (T : TimeStamp) where
  | setting (p : ℕ) (s : T.Setting)
  | reading (r : T.Reading)
  | scanning (s : Scan T)
  /-- All buffers are visited, and the item found is not later than the start time. -/
  | scanned (s : Scan T)
  | upTo (b p : ℕ)
  /-- The items of the buffer up to `p` are removed. -/
  | passed (b p : ℕ)

def TimeFact.Holds (C : Counting T n) (t i j : ℕ) (w : QueueState α T n addresses) :
    TimeFact T → Prop
  | .setting p s => (p < w.shared.alloc ∧ w.ghost.1.owner p = t ∧
      valueOf C w.shared p = uint64Max) ∧ C.SetOk t w.shared.clock s ∧
    (∀ q, Before buffers w i q → valueOf C w.shared q < C.setLow w.shared.clock s) ∧
    ∀ k m, k ≤ i → w.trace[k]? = some m → C.low m.before.clock ≤ C.setLow w.shared.clock s
  | .reading r => C.ReadOk w.shared.clock r
  | .scanning s => Scanning C j s (Visited n s.start s.i) w
  | .scanned s => Scanning C j s (· < n) w ∧ C.time s.timestamp ≤ C.time s.startTime
  | .upTo b p => UpTo buffers j b p w
  | .passed b p => ∃ k ≤ w.ghost.1.removed b, (w.ghost.1.items b)[k]? = some p

def Local.timeFacts (n : ℕ) : Local α T → List (TimeFact T)
  | .setTimestamp _ p s => [.setting p s]
  | .readTime r => [.reading r]
  | .loadRemove s => [.scanning s]
  | .loadInsert s _ => [.scanning s]
  | .loadNext s _ p => [.scanning s, .upTo (s.tmpBufferIndex n) p]
  | .loadTimestamp s w _ _ => [.scanning s, .passed (s.tmpBufferIndex n) w.pointer]
  | .checkRemove s => [.scanned s]
  | .swapRemove s => [.scanned s]
  | _ => []

variable {C : Counting T n} {w : QueueState α T n addresses} {t u i j : ℕ} {op : BagOp α}
  {e : Event (BagOp α) (BagRet α)} {σ : Shared α T} {g : Ghost × Finset ℕ} {l : Local α T}
  {o : Local α T ⊕ BagRet α} {s : Scan T} {visited : ℕ → Prop}

theorem Scanning.record (hS : Scanning C j s visited w) (hI : TimeInv buffers C w)
    (hH : HeapInv n σ g.1) (hr : Rely u w.shared w.ghost.1 σ g.1)
    (hs : Stamped C w.shared σ) (hj : j ≤ w.trace.length) :
    Scanning C j s visited (w.record e σ g) where
  began := by
    obtain ⟨m, hm, hle⟩ := hS.began
    exact ⟨m, (getElem?_record (List.getElem?_eq_some_iff.mp hm).1).mpr hm, hle⟩
  bound := hS.bound
  result h := by
    obtain ⟨hlt, hne, hv⟩ := hS.result h
    exact ⟨hlt.trans_le hr.alloc, hne, (hs _ hlt (hv ▸ hne)).trans hv⟩
  covered := hS.covered.record hI hH hr hs hj

/-- The fact does not depend on the clock. -/
def TimeFact.lasting : TimeFact T → Bool
  | .setting _ _ | .reading _ => false
  | _ => true

theorem TimeFact.Holds.record {F : TimeFact T} (hF : F.Holds C t i j w)
    (hl : F.lasting = true) (hI : TimeInv buffers C w) (hH : HeapInv n σ g.1)
    (hr : Rely u w.shared w.ghost.1 σ g.1) (hs : Stamped C w.shared σ)
    (hj : j ≤ w.trace.length) : F.Holds C t i j (w.record e σ g) := by
  cases F with
  | setting p s => cases hl
  | reading r => cases hl
  | scanning s => exact Scanning.record hF hI hH hr hs hj
  | scanned s => exact ⟨hF.1.record hI hH hr hs hj, hF.2⟩
  | upTo b p => exact UpTo.record hF hI hH hr hj
  | passed b p =>
    obtain ⟨k, hk, hp⟩ := hF
    exact ⟨k, hk.trans (hr.removed b), Chain.getElem?_mono (hr.items b) hp⟩

theorem TimeFact.Holds.rely {F : TimeFact T} (hF : F.Holds C t i j w)
    (hI : TimeInv buffers C w) (hH : HeapInv n σ g.1)
    (hr : TimeRely buffers C t w (w.record e σ g)) (hi : i < w.trace.length)
    (hj : j ≤ w.trace.length) : F.Holds C t i j (w.record e σ g) := by
  cases F with
  | setting p s =>
    obtain ⟨⟨hlt, ho, hv⟩, hs, hlow, hpast⟩ := hF
    obtain ⟨ho', htime, -⟩ := hr.heap.own p hlt ho
    have hle := C.setLow_le s hr.clock
    refine ⟨⟨hlt.trans_le hr.heap.alloc, ho', (congrArg C.value htime).trans hv⟩,
      C.setOk hs hr.clock, fun q hq => ?_, fun k m hk hm => ?_⟩
    · have hq := (before_record hi.le).mp hq
      exact (hr.stamped.valueOf_eq hI hi.le hq).trans_lt ((hlow q hq).trans_le hle)
    · exact (hpast k m hk ((getElem?_record (hk.trans_lt hi)).mp hm)).trans hle
  | reading r => exact C.readOk hF hr.clock
  | _ => exact hF.record rfl hI hH hr.heap hr.stamped hj

/-- What is known about the call `i` of thread `t` that is at `l`. -/
structure Timed (C : Counting T n) (t i : ℕ) (op : BagOp α) (w : QueueState α T n addresses)
    (l : Local α T) : Prop where
  heap : Knows n t w.shared w.ghost.1 l
  doing : Doing buffers n t i op w l.item l.took
  op : ∀ x, l = .newItem x → op = .put x
  unticked : ∀ p, l.item = some p → l.unticked C = true → p ∉ w.ghost.2
  facts : ∃ j ≤ w.trace.length, AllOf (TimeFact.Holds C t i j w) (l.timeFacts n)

theorem Timed.rely (hT : Timed C t i op w l) (hI : TimeInv buffers C w)
    (hH : HeapInv n σ g.1) (he : e.thread ≠ t)
    (hr : TimeRely buffers C t w (w.record e σ g)) :
    Timed C t i op (w.record e σ g) l := by
  refine ⟨hT.heap.rely hr.heap, hT.doing.rely he hr, hT.op, fun p hp hu => ?_, ?_⟩
  · obtain ⟨hlt, ho⟩ := hT.doing.owner p hp
    exact hr.ticked p hlt ho (hT.unticked p hp hu)
  · obtain ⟨j, hj, hF⟩ := hT.facts
    refine ⟨j, ?_, hF.imp fun F h => h.rely hI hH hr hT.doing.lt_length hj⟩
    rw [World.record_trace, List.length_append]
    exact hj.trans (Nat.le_add_right ..)

/-- An enqueue owns its item. -/
theorem Knows.owner {g : Ghost} (hk : Knows n t σ g l) {p : ℕ} (hp : l.item = some p) :
    p < σ.alloc ∧ g.owner p = t := by
  have hmem : (∃ x, Fact.own p x ∈ l.facts n) ∨ Fact.linked p ∈ l.facts n := by
    cases l <;> simp_all [Local.item, Local.facts]
  rcases hmem with ⟨x, hm⟩ | hm
  · have ho : Own t p x σ g := hk.2.mem hm
    exact ⟨ho.lt, ho.owner⟩
  · obtain ⟨hlt, ho, -⟩ := hk.2.mem hm
    exact ⟨hlt, ho⟩

/-! ### One access -/

/-- What `access_ok` says of an access. -/
structure HeapStep (t : ℕ) (w : QueueState α T n addresses) (l : Local α T) (σ : Shared α T)
    (o : Local α T ⊕ BagRet α) (g : Ghost) : Prop where
  buffer : BufferStep buffers n t w σ g l.item (removal l o)
  knows : ∀ l', o = .inl l' → Knows n t σ g l'

theorem removal_of_phase {l l' : Local α T} (h : l'.phase = l.phase) :
    removal l (.inl l') = none := by
  cases l with
  | swapRemove s =>
    cases l' with
    | loadData p => cases h
    | _ => rfl
  | _ => rfl

theorem removal_inr (l : Local α T) (r : BagRet α) : removal l (.inr r) = none := by
  cases l <;> rfl

theorem StepOk.heapStep (hst : StepOk n t w.shared w.ghost.1 l (σ, o)) :
    ∃ g, HeapStep t w l σ o g := by
  obtain ⟨g, hH, hr, hk, heff⟩ := hst
  refine ⟨g, ?_, hk⟩
  have hr' : ∀ u, u ≠ t → Rely u w.shared w.ghost.1 σ g := hr
  -- the access links nothing and removes nothing
  have hsame : g.items = w.ghost.1.items → g.removed = w.ghost.1.removed →
      removal l o = none → BufferStep buffers n t w σ g l.item (removal l o) := by
    intro hitems hremoved hnone
    refine ⟨hH, hr', fun h => Or.inl (hitems ▸ h), fun b => Or.inl (hremoved ▸ rfl),
      fun h => ?_⟩
    rw [hnone] at h
    cases h
  cases heff with
  | go hphase hitems hremoved _ => exact hsame hitems hremoved (removal_of_phase hphase)
  | @link x p hlt hx => exact .link hH hr' rfl rfl
  | @take s hget => exact .take hH hr' rfl rfl hget
  | putDone => exact hsame rfl rfl rfl
  | gotDone => exact hsame rfl rfl rfl
  | gotNone => exact hsame rfl rfl (removal_inr ..)

/-- The invariant: no item was removed before one of an earlier enqueue. -/
structure QueueInv (C : Counting T n) (w : QueueState α T n addresses) : Prop where
  time : TimeInv buffers C w
  fifo : Fifo (Makes buffers) (Removes buffers n) w.trace

/-- What is to be shown of the access. -/
def TimeOk (C : Counting T n) (t i : ℕ) (op : BagOp α) (w : QueueState α T n addresses)
    (σ : Shared α T) (o : Local α T ⊕ BagRet α) : Prop :=
  ∃ g, QueueInv C (w.record (.ofStep (M := machine α T n addresses) t o) σ g) ∧
    (∀ l', o = .inl l' → Timed C t i op (w.record (.tau t) σ g) l') ∧
    (∀ r, o = .inr r → ∀ k q : ℕ, (g.1.items t)[k]? = some q → 1 ≤ k →
      Before buffers (w.record (.res t r) σ g) (w.trace.length + 1) q) ∧
    ∀ u, u ≠ t → TimeRely buffers C u w
      (w.record (.ofStep (M := machine α T n addresses) t o) σ g)

theorem access_quiet (hI : QueueInv C w) (hT : Timed C t i op w l) {g : Ghost}
    (hs : HeapStep t w l σ o g) (hq : Quiet w.shared σ)
    (hgo : ∀ l', o = .inl l' → l'.item = l.item ∧
      (∀ q, l.took = some q ∨ removal l o = some q ↔ l'.took = some q) ∧
      (∀ x, l' ≠ .newItem x) ∧ (l'.unticked C = true → l.unticked C = true) ∧
      ∃ j ≤ w.trace.length,
        AllOf (TimeFact.Holds C t i j (w.record (.tau t) σ (g, w.ghost.2))) (l'.timeFacts n))
    (hstop : ∀ r, o = .inr r → l.item = none ∧ (∀ b, r ≠ .put b) ∧ ∀ x, r = .got (some x) →
      ∃ p, l.took = some p ∧ (w.shared.item p).data = some x)
    (hfifo : ∀ b, removal l o = some b → ∀ ia ib a, Did (Makes buffers) w.trace ia a →
      Did (Makes buffers) w.trace ib b → Precedes (history w.trace) ia ib →
        ∃ j, Did (Removes buffers n) w.trace j a) : TimeOk C t i op w σ o := by
  have he := Event.ofStep_cases (M := machine α T n addresses) t o
  refine ⟨(g, w.ghost.2), ⟨?_, ?_⟩, fun l' ho => ?_, fun r ho k q hk hpos => ?_,
    fun u hu => ⟨hs.buffer.rely u hu, ?_, fun p _ _ hp => hp, fun q _ _ => hq.valueOf q⟩⟩
  · refine hI.time.record_quiet hT.doing he hs.buffer hq (fun r hr => ?_) (fun r p hr hp => ?_)
      fun x hr => ?_
    · cases o with
      | inl l' => cases hr
      | inr r' =>
        obtain rfl : r' = .put r := by simpa [Event.ofStep] using hr
        exact absurd rfl ((hstop _ rfl).2.1 r)
    · cases o with
      | inl l' => cases hr
      | inr r' =>
        rw [(hstop r' rfl).1] at hp
        cases hp
    · cases o with
      | inl l' => cases hr
      | inr r' =>
        obtain rfl : r' = .got (some x) := by simpa [Event.ofStep] using hr
        exact ⟨removal_inr .., (hstop _ rfl).2.2 x rfl⟩
  · exact hI.time.fifo_record hT.doing he hs.buffer hI.fifo (fun _ _ _ _ _ _ _ => trivial)
      fun b hb ia ib a ha hib hab _ => hfifo b hb ia ib a ha hib hab
  · subst ho
    obtain ⟨hitem, htook, hne, hun, j, hj, hf⟩ := hgo l' rfl
    refine ⟨hs.knows l' rfl, ?_, fun x hx => absurd hx (hne x), fun p hp hu => ?_, j, ?_, hf⟩
    · refine hT.doing.next hI.time hs.buffer (fun q => ?_) htook fun p hp => ?_
      · rw [hitem]
        exact or_iff_left (hq.not_makes q)
      · exact (hs.knows l' rfl).owner hp
    · exact hT.unticked p (hitem ▸ hp) (hun hu)
    · rw [World.record_trace, List.length_append]
      exact hj.trans (Nat.le_add_right ..)
  · subst ho
    exact hT.doing.own_return hs.buffer hk hpos
  · show C.Advance u w.shared.clock σ.clock
    rw [hq.clock]
    exact C.refl u _

/-- An access of a call that goes on, which removes nothing. -/
theorem access_go {l' : Local α T} (hI : QueueInv C w) (hT : Timed C t i op w l) {g : Ghost}
    (hs : HeapStep t w l σ (.inl l') g) (hq : Quiet w.shared σ) (hitem : l'.item = l.item)
    (htook : l'.took = l.took) (hrem : removal l (.inl l') = none) (hne : ∀ x, l' ≠ .newItem x)
    (hu : l'.unticked C = true → l.unticked C = true)
    (hf : ∃ j ≤ w.trace.length,
      AllOf (TimeFact.Holds C t i j (w.record (.tau t) σ (g, w.ghost.2))) (l'.timeFacts n)) :
    TimeOk C t i op w σ (.inl l') := by
  refine access_quiet hI hT hs hq (fun m hm => ?_) (fun r hr => by cases hr) fun b hb => ?_
  · obtain rfl := Sum.inl.inj hm
    refine ⟨hitem, fun q => ?_, hne, hu, hf⟩
    rw [htook, hrem]
    exact or_iff_left (by simp)
  · rw [hrem] at hb
    cases hb

/-! ### Enqueue -/

theorem newItem_timed {x : α} (hI : QueueInv C w) (hT : Timed C t i op w (.newItem x))
    (haddr : addresses ≤ addressSpace) (halloc : w.shared.alloc < addresses) {g : Ghost}
    (hs : HeapStep t w (.newItem x) (w.shared.newItem x)
      (.inl (.loadOldInsert x w.shared.alloc)) g) :
    TimeOk C t i op w (w.shared.newItem x) (.inl (.loadOldInsert x w.shared.alloc)) := by
  have hold : ∀ q, q ≠ w.shared.alloc → (w.shared.newItem x).item q = w.shared.item q :=
    fun q hq => Function.update_of_ne hq ..
  have hself : (w.shared.newItem x).item w.shared.alloc = ⟨0, some x, T.initTopAtomic⟩ :=
    Function.update_self ..
  have hvalue : ∀ q, q ≠ w.shared.alloc →
      valueOf C (w.shared.newItem x) q = valueOf C w.shared q := fun q hq => by
    rw [valueOf, valueOf, hold q hq]
  have hmakes : ∀ q, Makes buffers q
      (⟨.tau t, w.shared, w.shared.newItem x⟩ : Moment (machine α T n addresses)) ↔
        w.shared.alloc = q := by
    intro q
    refine ⟨fun h => h.1, fun h => ⟨h, ?_⟩⟩
    show w.shared.alloc + 1 = q + 1
    rw [h]
  have hmade : ∀ {j q}, Did (Makes buffers) w.trace j q → q ≠ w.shared.alloc := fun hj =>
    Nat.ne_of_lt (hI.time.made hj).1
  refine ⟨(g, w.ghost.2), ⟨?_, ?_⟩, fun l' hl' => ?_, fun r hr => (by cases hr),
    fun u hu => ⟨hs.buffer.rely u hu, C.refl u _, fun p _ _ hp => hp, fun q hq _ => ?_⟩⟩
  · refine hI.time.record hT.doing (Or.inl rfl) hs.buffer ?_
      (fun p hp => ⟨(hI.time.ticked p hp).1, Nat.lt_succ_of_lt (hI.time.ticked p hp).2⟩)
      hI.time.clock le_rfl
      (fun j q hj => Or.inl (hvalue q (hmade hj))) (fun p hm => ?_) (fun r hr => by cases hr)
      (fun r p hr => by cases hr) fun y hr => by cases hr
    · show w.shared.alloc + 1 ≤ n + 1 + addressSpace
      omega
    · obtain rfl := (hmakes p).mp hm
      refine ⟨rfl, ⟨x, hT.op x rfl, congrArg Item.data hself⟩, hI.time.low_lt.le.trans ?_⟩
      show uint64Max ≤ C.value ((w.shared.newItem x).item w.shared.alloc).timestamp
      rw [hself, C.top]
  · exact hI.time.fifo_record hT.doing (Or.inl rfl) hs.buffer hI.fifo
      (fun _ _ _ _ _ _ _ => trivial) fun b hb => by cases hb
  · obtain rfl := Sum.inl.inj hl'
    refine ⟨hs.knows _ rfl, ?_, fun y hy => (by cases hy), fun p hp _ => ?_, 0, Nat.zero_le _,
      trivial⟩
    · refine hT.doing.next hI.time hs.buffer (fun q => ?_) (fun q => by simp [Local.took, removal])
        fun p hp => (hs.knows _ rfl).owner hp
      rw [hmakes q]
      simp [Local.item]
    · obtain rfl := Option.some.inj hp
      exact fun h => Nat.lt_irrefl _ (hI.time.ticked _ h).2
  · exact hvalue q (Nat.ne_of_lt hq)

theorem setTimestamp_timed {x : α} {p : ℕ} {s : T.Setting} {ch : T.Choice} {c' : T.Clock}
    {st : T.Stamp} {next : Option T.Setting} {g : Ghost} (hI : QueueInv C w)
    (hT : Timed C t i op w (.setTimestamp x p s))
    (hset : T.setStep ch w.shared.clock (w.shared.item p).timestamp s = (c', st, next))
    (hs : HeapStep t w (.setTimestamp x p s) (w.shared.setStamp p c' st)
      (next.elim (.inr (.put true)) fun s' => .inl (.setTimestamp x p s')) g) :
    TimeOk C t i op w (w.shared.setStamp p c' st)
      (next.elim (.inr (.put true)) fun s' => .inl (.setTimestamp x p s')) := by
  obtain ⟨j, -, hF⟩ := hT.facts
  obtain ⟨⟨hlt, howner, htop⟩, hok, hlow, hpast⟩ :
    (TimeFact.setting p s : TimeFact T).Holds C t i j w := hF
  obtain ⟨hadv, hle, htick, hsome, hnone⟩ := C.setStep hok hI.time.low_lt hset
  have hp : Did (Makes buffers) w.trace i p := (hT.doing.makes p).mpr rfl
  obtain ⟨-, -, -, hmem⟩ := hT.heap
  obtain ⟨k, hk⟩ := List.mem_iff_getElem?.mp hmem
  have hself : (w.shared.setStamp p c' st).item p = { w.shared.item p with timestamp := st } :=
    Function.update_self ..
  have hvalue : ∀ q, q ≠ p → valueOf C (w.shared.setStamp p c' st) q = valueOf C w.shared q := by
    intro q hq
    rw [valueOf, valueOf, show (w.shared.setStamp p c' st).item q = w.shared.item q from
      Function.update_of_ne hq ..]
  have hvalue' : valueOf C (w.shared.setStamp p c' st) p = C.value st := by rw [valueOf, hself]
  -- the timestamp changes only at the last step
  have hkept : ∀ s', next = some s' → C.value st = valueOf C w.shared p := fun s' hs' => by
    rw [(hsome s' hs').1, valueOf]
  have hmakes : ∀ (e : Event (BagOp α) (BagRet α)) q, ¬ Makes buffers q
      (⟨e, w.shared, w.shared.setStamp p c' st⟩ : Moment (machine α T n addresses)) := by
    rintro e q ⟨h1, h2⟩
    exact Nat.succ_ne_self q (h2.symm.trans h1)
  have hstamped : Stamped C w.shared (w.shared.setStamp p c' st) := by
    intro q _ hq
    refine hvalue q ?_
    rintro rfl
    exact hq htop
  obtain ⟨tk, htk, hcard, hun⟩ := C.tick htick (fun s' hs' => (hsome s' hs').2.2.2)
    (hT.unticked p rfl) hI.time.clock
  have hinv : ∀ (e : Event (BagOp α) (BagRet α)), (e = .tau t ∨ ∃ r, e = .res t r) →
      (∀ r, e = .res t r → next = none ∧ r = .put true) →
      QueueInv C (w.record e (w.shared.setStamp p c' st) (g, tk)) := by
    intro e he hr
    refine ⟨?_, hI.time.fifo_record hT.doing he hs.buffer hI.fifo (fun _ _ _ _ _ _ _ => trivial)
      fun b hb => by cases hb⟩
    refine hI.time.record hT.doing he hs.buffer hI.time.space (fun q hq => ?_) hcard hle
      (fun j q hj => ?_) (fun q hm => absurd hm (hmakes e q)) (fun r _ => ⟨p, rfl⟩)
      (fun r q he' hq => ?_) fun y he' => ?_
    · rcases htk q hq with hq | rfl
      · exact hI.time.ticked q hq
      · exact ⟨(hI.time.made hp).2.1, hlt⟩
    · by_cases hq : q = p
      · subst hq
        obtain rfl := hI.time.order.once hj hp
        cases hn : next with
        | some s' => exact Or.inl (hvalue'.trans (hkept s' hn))
        | none =>
          refine Or.inr ⟨rfl, fun y hy => ?_, fun k m hk hm => ?_⟩
          · exact ((hlow y hy).trans_le (hnone hn).1).trans_eq hvalue'.symm
          · exact ((hpast k m hk hm).trans (hnone hn).1).trans_eq hvalue'.symm
      · exact Or.inl (hvalue q hq)
    · obtain rfl := Option.some.inj hq
      exact ⟨⟨k, Chain.getElem?_mono (hs.buffer.any.items t) hk⟩,
        hvalue'.trans_lt (hnone (hr r he').1).2⟩
    · cases (hr _ he').2
  have hrely : ∀ (e : Event (BagOp α) (BagRet α)) u, u ≠ t →
      TimeRely buffers C u w (w.record e (w.shared.setStamp p c' st) (g, tk)) := by
    refine fun e u hu => ⟨hs.buffer.rely u hu, hadv u hu, fun q _ ho hq hq' => ?_, hstamped⟩
    rcases htk q hq' with h | rfl
    · exact hq h
    · exact hu (ho.symm.trans howner)
  cases next with
  | none =>
    refine ⟨(g, tk), hinv _ (Or.inr ⟨_, rfl⟩) (fun r hr => ⟨rfl, by cases hr; rfl⟩),
      fun l' hl' => (by cases hl'), fun r hr k q hq hpos => ?_, hrely _⟩
    obtain rfl := Sum.inr.inj hr
    exact hT.doing.own_return hs.buffer hq hpos
  | some s' =>
    obtain ⟨-, hok', hlow', -⟩ := hsome s' rfl
    refine ⟨(g, tk), hinv _ (Or.inl rfl) (fun r hr => by cases hr), fun l' hl' => ?_,
      fun r hr => (by cases hr), hrely _⟩
    obtain rfl := Sum.inl.inj hl'
    have hi := hT.doing.lt_length
    have hknows := hs.knows _ rfl
    refine ⟨hknows, ?_, fun y hy => (by cases hy), fun q hq hf => ?_, 0, Nat.zero_le _,
      ⟨(hknows.owner rfl).1, (hknows.owner rfl).2, (hvalue'.trans (hkept s' rfl)).trans htop⟩,
      hok', fun q hq => ?_, fun k m hk hm => ?_⟩
    · refine hT.doing.next hI.time hs.buffer (fun q => ?_)
        (fun q => by simp [Local.took, removal]) fun q hq => hknows.owner hq
      exact or_iff_left (hmakes _ q)
    · obtain rfl := Option.some.inj hq
      exact hun s' rfl hf
    · have hq := (before_record hi.le).mp hq
      exact (hstamped.valueOf_eq hI.time hi.le hq).trans_lt ((hlow q hq).trans_le hlow')
    · exact (hpast k m hk ((getElem?_record (hk.trans_lt hi)).mp hm)).trans hlow'

/-! ### Dequeue -/

/-- A fact that does not depend on the clock survives an access that changes no item. -/
theorem HeapStep.keep {g : Ghost} (hs : HeapStep t w l σ o g) (hI : TimeInv buffers C w)
    (hq : Quiet w.shared σ) (hj : j ≤ w.trace.length) {F : TimeFact T}
    (hF : F.Holds C t i j w) (hl : F.lasting = true) :
    F.Holds C t i j (w.record e σ (g, w.ghost.2)) :=
  hF.record hl hI hs.buffer.inv hs.buffer.any (fun q _ _ => hq.valueOf q) hj

theorem unticked_of_item (h : l.item = none) : l.unticked C = true := by
  cases l <;> first | rfl | cases h

theorem noElement_timed (hI : QueueInv C w) (hT : Timed C t i op w l) {g : Ghost}
    (hs : HeapStep t w l σ (noElement s) g) (hq : Quiet w.shared σ) (hn : 0 < n)
    (hitem : l.item = none) (htook : l.took = none) :
    TimeOk C t i op w σ (noElement s) := by
  rw [noElement] at hs ⊢
  split_ifs at hs ⊢ with hempty
  · refine access_quiet hI hT hs hq (fun m hm => by cases hm) (fun r hr => ?_) fun b hb => ?_
    · obtain rfl := Sum.inr.inj hr
      exact ⟨hitem, fun b hb => (by cases hb), fun x hx => by cases hx⟩
    · rw [removal_inr] at hb
      cases hb
  · have hrem : removal l (.inl (.readTime T.readTime)) = none := by cases l <;> rfl
    exact access_go hI hT hs hq hitem.symm htook.symm hrem (fun _ h => by cases h)
      (fun _ => unticked_of_item hitem) ⟨0, Nat.zero_le _, (C.readStart _ hn).1⟩

/-- A buffer was visited. -/
theorem nextBuffer_timed (hI : QueueInv C w) (hT : Timed C t i op w l) {g : Ghost}
    (hs : HeapStep t w l σ (nextBuffer n s) g) (hq : Quiet w.shared σ) (hi : s.i < n)
    (hitem : l.item = none) (htook : l.took = none) (hj : j ≤ w.trace.length)
    (hS : Scanning C j s (Visited n s.start (s.i + 1)) w) :
    TimeOk C t i op w σ (nextBuffer n s) := by
  have hu := unticked_of_item (C := C) hitem
  rw [nextBuffer, afterLoop] at hs ⊢
  split_ifs at hs ⊢ with hlt hres
  · have hrem : removal l (.inl (.loadRemove { s with i := s.i + 1 })) = none := by
      cases l <;> rfl
    have hF : (TimeFact.scanning { s with i := s.i + 1 } : TimeFact T).Holds C t i j w :=
      ⟨hS.began, hS.bound, hS.result, hS.covered⟩
    exact access_go hI hT hs hq hitem.symm htook.symm hrem (fun _ h => by cases h) (fun _ => hu)
      ⟨j, hj, hs.keep hI.time hq hj hF rfl⟩
  · have hrem : removal l (.inl (.checkRemove s)) = none := by cases l <;> rfl
    have hend : s.i + 1 = n := by omega
    have hF : (TimeFact.scanned s : TimeFact T).Holds C t i j w := by
      refine ⟨⟨hS.began, hS.bound, hS.result, hS.covered.mono le_rfl fun b hb => ?_⟩, ?_⟩
      · rw [hend]
        exact visited_all hb
      · have h := hres.2
        rw [C.isLater, decide_eq_false_iff_not] at h
        exact Nat.le_of_not_lt h
    exact access_go hI hT hs hq hitem.symm htook.symm hrem (fun _ h => by cases h) (fun _ => hu)
      ⟨j, hj, hs.keep hI.time hq hj hF rfl⟩
  · exact noElement_timed hI hT hs hq (Nat.zero_lt_of_lt hi) hitem htook

/-- The scan goes on behind a buffer of which nothing is left. -/
theorem Scanning.skip (hS : Scanning C j s (Visited n s.start s.i) w) {k : ℕ} {p : ℕ}
    (hk : k ≤ w.ghost.1.removed (s.tmpBufferIndex n))
    (hp : (w.ghost.1.items (s.tmpBufferIndex n))[k]? = some p) (hI : TimeInv buffers C w)
    (hU : UpTo buffers j (s.tmpBufferIndex n) p w) :
    Scanning C j s (Visited n s.start (s.i + 1)) w := by
  obtain ⟨m, hm, hle⟩ := hU
  obtain rfl := hI.heap.pos_eq hp hm
  exact ⟨hS.began, hS.bound, hS.result, (hS.covered.skip fun k' q hq hb =>
    (hle k' q hq hb).trans hk).mono le_rfl fun b => visited_succ⟩

/-- The scan goes on behind a buffer whose first item was compared. -/
theorem Scanning.compare (hS : Scanning C j s (Visited n s.start s.i) w) {k p : ℕ}
    {time : T.Time} (hk : k ≤ w.ghost.1.removed (s.tmpBufferIndex n))
    (hp : (w.ghost.1.items (s.tmpBufferIndex n))[k + 1]? = some p) (hI : TimeInv buffers C w)
    (htime : C.time time = valueOf C w.shared p) (v : TaggedPointer) :
    Scanning C j (s.compare (s.tmpBufferIndex n) p time v) (Visited n s.start (s.i + 1)) w := by
  rw [Scan.compare]
  split_ifs with h
  · rw [C.isLater, decide_eq_true_eq] at h
    have hlt : p < w.shared.alloc := (hI.heap.bound _ _ _ hp).2
    exact ⟨hS.began, h.le.trans hS.bound, fun _ => ⟨hlt, (h.trans_le hS.bound).ne, htime.symm⟩,
      (hS.covered.compare hI hk hp h.le htime.le).mono le_rfl fun b => visited_succ⟩
  · rw [C.isLater, decide_eq_true_eq, Nat.not_lt] at h
    exact ⟨hS.began, hS.bound, hS.result,
      (hS.covered.compare hI hk hp le_rfl (h.trans_eq htime)).mono le_rfl fun b => visited_succ⟩

/-- **Removing** the item that a scan has found, if it was not enqueued after the scan
began: those that were enqueued before it are removed. -/
theorem Scanning.removed (hS : Scanning C j s (· < n) w) (hI : TimeInv buffers C w)
    (hj : j ≤ w.trace.length) (h0 : s.result ≠ 0)
    (hstart : C.time s.timestamp < C.time s.startTime + C.gap) {ia ib a : ℕ}
    (ha : Did (Makes buffers) w.trace ia a) (hb : Did (Makes buffers) w.trace ib s.result)
    (hab : Precedes (history w.trace) ia ib) : ∃ j, Did (Removes buffers n) w.trace j a := by
  obtain ⟨m, hm, hbegan⟩ := hS.began
  obtain ⟨-, -, hvalue⟩ := hS.result h0
  have hbefore : Before buffers w j a :=
    hI.before_of_lt ha hb hab hm (hvalue.trans_lt (hstart.trans_le hbegan))
  have horder : valueOf C w.shared a < valueOf C w.shared s.result :=
    hI.order.order ⟨ia, ha, hab⟩ hb
  exact hS.covered.removed hI hj hbefore (horder.trans_eq hvalue)

/-! ### All accesses -/

theorem enqueue_timed {ch : Choice T} {g : Ghost} (hI : QueueInv C w) (hT : Timed C t i op w l)
    (htn : t < n) (haddr : addresses ≤ addressSpace) (hp : l.phase ≠ .getting)
    (hl : ∀ p, l ≠ .loadData p) (hst : step n addresses t ch w.shared l = some (σ, o))
    (hs : HeapStep t w l σ o g) : TimeOk C t i op w σ o := by
  have hq := Quiet.refl w.shared
  cases l with
  | newItem x =>
    simp only [step] at hst
    split_ifs at hst with halloc
    obtain ⟨rfl, rfl⟩ := Prod.mk.inj (Option.some.inj hst)
    exact newItem_timed hI hT haddr halloc hs
  | loadOldInsert x p =>
    obtain ⟨rfl, rfl⟩ := Prod.mk.inj (Option.some.inj hst)
    exact access_go hI hT hs hq rfl rfl rfl (fun _ h => by cases h) (fun _ => rfl)
      ⟨0, Nat.zero_le _, trivial⟩
  | storeNext x p old =>
    obtain ⟨rfl, rfl⟩ := Prod.mk.inj (Option.some.inj hst)
    exact access_go hI hT hs (.setNext ..) rfl rfl rfl (fun _ h => by cases h) (fun _ => rfl)
      ⟨0, Nat.zero_le _, trivial⟩
  | storeInsert x p =>
    obtain ⟨rfl, rfl⟩ := Prod.mk.inj (Option.some.inj hst)
    obtain ⟨hok, -, hlow⟩ := C.setStart w.shared.clock htn
    have hi := hT.doing.lt_length
    obtain ⟨-, hown, -⟩ := hT.heap
    have hknows := (hs.knows _ rfl).owner (p := p) rfl
    refine access_go hI hT hs ⟨rfl, rfl, fun _ => rfl, fun _ => rfl⟩ rfl rfl rfl
      (fun _ h => by cases h) (fun _ => rfl) ⟨0, Nat.zero_le _, ⟨hknows.1, hknows.2, ?_⟩, hok,
        fun q hq => ?_, fun k m hk hm => ?_⟩
    · show C.value (w.shared.item p).timestamp = uint64Max
      rw [hown.item]
      exact C.top
    · have hq := (before_record hi.le).mp hq
      exact (hI.time.order.done (hq.mono hi.le)).trans_le hlow
    · exact (hI.time.past ((getElem?_record (hk.trans_lt hi)).mp hm)).trans hlow
  | setTimestamp x p s =>
    rcases hset : T.setStep ch.time w.shared.clock (w.shared.item p).timestamp s with
      ⟨c', st, next⟩
    simp only [step, hset] at hst
    obtain ⟨rfl, rfl⟩ := Prod.mk.inj (Option.some.inj hst)
    cases next with
    | none => exact setTimestamp_timed hI hT hset hs
    | some s' => exact setTimestamp_timed hI hT hset hs
  | loadData p => exact absurd rfl (hl p)
  | _ => exact absurd rfl hp

theorem loadNext_timed {v : TaggedPointer} {p : ℕ} {ch : Choice T} {g : Ghost}
    (hI : QueueInv C w) (hT : Timed C t i op w (.loadNext s v p))
    (hst : step n addresses t ch w.shared (.loadNext s v p) = some (σ, o))
    (hs : HeapStep t w (.loadNext s v p) σ o g) : TimeOk C t i op w σ o := by
  obtain ⟨j, hj, hS, hU⟩ := hT.facts
  obtain ⟨hi, -, -, k, m, -, hk, hkv, hmp⟩ := hT.heap
  simp only [step] at hst
  have hempty : Scanning C j { s with empty := false } (Visited n s.start s.i) w :=
    ⟨hS.began, hS.bound, hS.result, hS.covered⟩
  by_cases hne : v.pointer = p
  · subst hne
    rw [if_neg (not_not.mpr rfl)] at hst
    have hskip := Scanning.skip hS hk hkv hI.time hU
    split_ifs at hst
    · obtain ⟨rfl, rfl⟩ := Prod.mk.inj (Option.some.inj hst)
      exact nextBuffer_timed hI hT hs ⟨rfl, rfl, fun _ => rfl, fun _ => rfl⟩ hi rfl rfl hj
        ⟨hskip.began, hskip.bound, hskip.result, hskip.covered⟩
    · obtain ⟨rfl, rfl⟩ := Prod.mk.inj (Option.some.inj hst)
      exact nextBuffer_timed hI hT hs (.refl _) hi rfl rfl hj hskip
  · rw [if_pos hne] at hst
    obtain ⟨rfl, rfl⟩ := Prod.mk.inj (Option.some.inj hst)
    have hq := Quiet.refl w.shared
    exact access_go hI hT hs hq rfl rfl rfl (fun _ h => by cases h) (fun _ => rfl)
      ⟨j, hj, hs.keep (F := .scanning _) hI.time hq hj hempty rfl,
        hs.keep (F := .passed _ _) hI.time hq hj ⟨k, hk, hkv⟩ rfl⟩

/-- **Every access** of a call that knows its facts keeps the invariant, if the dequeue does
not take an item with the very number that its `read_time` returned. -/
theorem access_timed {ch : Choice T} (hI : QueueInv C w) (hT : Timed C t i op w l) (htn : t < n)
    (haddr : addresses ≤ addressSpace)
    (hok : ∀ s, l = .swapRemove s → w.shared.remove s.bufferIndex = s.oldRemove → C.gap = 0 →
      C.time s.timestamp ≠ C.time s.startTime)
    (hst : step n addresses t ch w.shared l = some (σ, o)) : TimeOk C t i op w σ o := by
  obtain ⟨g, hs⟩ := (access_ok hI.time.heap htn ch hT.heap hst).heapStep
  have hq := Quiet.refl w.shared
  have hn := Nat.zero_lt_of_lt htn
  cases l with
  | readTime r =>
    obtain ⟨j, hj, hread⟩ := hT.facts
    simp only [step] at hst
    cases hstep : T.readStep ch.time w.shared.clock r with
    | inl r' =>
      rw [hstep] at hst
      obtain ⟨rfl, rfl⟩ := Prod.mk.inj (Option.some.inj hst)
      exact access_go hI hT hs hq rfl rfl rfl (fun _ h => by cases h) (fun _ => rfl)
        ⟨j, hj, ((C.readStep hread).1 r' hstep).1⟩
    | inr time =>
      rw [hstep] at hst
      obtain ⟨rfl, rfl⟩ := Prod.mk.inj (Option.some.inj hst)
      refine access_go hI hT hs hq rfl rfl rfl (fun _ h => by cases h) (fun _ => rfl)
        ⟨w.trace.length, le_rfl, ⟨⟨_, List.getElem?_concat_length,
          ((C.readStep hread).2 time hstep).2⟩, ?_, fun h => absurd rfl h, ?_⟩⟩
      · exact C.initTop.le
      · rintro b k q ⟨m, hm, -⟩
        exact absurd hm (Nat.not_lt_zero m)
  | loadRemove s =>
    obtain ⟨j, hj, hS⟩ := hT.facts
    obtain ⟨rfl, rfl⟩ := Prod.mk.inj (Option.some.inj hst)
    exact access_go hI hT hs hq rfl rfl rfl (fun _ h => by cases h) (fun _ => rfl)
      ⟨j, hj, hs.keep hI.time hq hj hS rfl⟩
  | loadInsert s v =>
    obtain ⟨j, hj, hS⟩ := hT.facts
    obtain ⟨rfl, rfl⟩ := Prod.mk.inj (Option.some.inj hst)
    have hb := tmpBufferIndex_lt (s := s) hT.heap.1
    have hU : UpTo buffers j (s.tmpBufferIndex n) (w.shared.insert (s.tmpBufferIndex n)) w := by
      refine ⟨_, hI.time.heap.insert _ hb, fun k q hk _ => ?_⟩
      have := Chain.lt_length hk
      omega
    exact access_go hI hT hs hq rfl rfl rfl (fun _ h => by cases h) (fun _ => rfl)
      ⟨j, hj, hs.keep hI.time hq hj hS rfl, hs.keep (F := .upTo _ _) hI.time hq hj hU rfl⟩
  | loadNext s v p => exact loadNext_timed hI hT hst hs
  | loadTimestamp s v p loading =>
    obtain ⟨j, hj, hS, k, hk, hkv⟩ := hT.facts
    obtain ⟨⟨hi, -⟩, -, k', hkv', hp⟩ := hT.heap
    obtain rfl := hI.time.heap.pos_eq hkv hkv'
    obtain ⟨time, hload, htime⟩ := C.load (w.shared.item p).timestamp loading
    simp only [step, hload] at hst
    obtain ⟨rfl, rfl⟩ := Prod.mk.inj (Option.some.inj hst)
    have hS' := Scanning.compare hS hk hp hI.time htime v
    have hsame : (s.compare (s.tmpBufferIndex n) p time v).i = s.i ∧
        (s.compare (s.tmpBufferIndex n) p time v).start = s.start := by
      rw [Scan.compare]
      split_ifs <;> exact ⟨rfl, rfl⟩
    refine nextBuffer_timed hI hT hs hq ?_ rfl rfl hj ?_
    · rw [hsame.1]
      exact hi
    · rw [hsame.1, hsame.2]
      exact hS'
  | checkRemove s =>
    obtain ⟨j, hj, hS⟩ := hT.facts
    simp only [step] at hst
    split_ifs at hst
    · obtain ⟨rfl, rfl⟩ := Prod.mk.inj (Option.some.inj hst)
      exact access_go hI hT hs hq rfl rfl rfl (fun _ h => by cases h) (fun _ => rfl)
        ⟨j, hj, hs.keep hI.time hq hj hS rfl⟩
    · obtain ⟨rfl, rfl⟩ := Prod.mk.inj (Option.some.inj hst)
      exact noElement_timed hI hT hs hq hn rfl rfl
  | swapRemove s =>
    obtain ⟨j, hj, hS, hle⟩ := hT.facts
    simp only [step] at hst
    split_ifs at hst with hcas
    · obtain ⟨rfl, rfl⟩ := Prod.mk.inj (Option.some.inj hst)
      have hlt : C.time s.timestamp < C.time s.startTime + C.gap := by
        have := hok s rfl hcas.1
        omega
      refine access_quiet hI hT hs ⟨rfl, rfl, fun _ => rfl, fun _ => rfl⟩ (fun m hm => ?_)
        (fun r hr => by cases hr) fun b hb ia ib a ha hib hab => ?_
      · obtain rfl := Sum.inl.inj hm
        exact ⟨rfl, fun q => or_iff_right (by simp [Local.took]), (fun _ h => by cases h),
          fun _ => rfl, 0, Nat.zero_le _, trivial⟩
      · obtain rfl := Option.some.inj hb
        exact hS.removed hI.time hj hT.heap.1 hlt ha hib hab
    · obtain ⟨rfl, rfl⟩ := Prod.mk.inj (Option.some.inj hst)
      exact noElement_timed hI hT hs hq hn rfl rfl
  | loadData p =>
    obtain ⟨-, -, hd⟩ := hT.heap
    obtain ⟨x, hx⟩ := Option.isSome_iff_exists.mp hd
    simp only [step, hx] at hst
    obtain ⟨rfl, rfl⟩ := Prod.mk.inj (Option.some.inj hst)
    refine access_quiet hI hT hs hq (fun m hm => by cases hm) (fun r hr => ?_) fun b hb => ?_
    · obtain rfl := Sum.inr.inj hr
      exact ⟨rfl, fun b hb => (by cases hb), fun y hy => ⟨p, rfl, by rw [hx]; simpa using hy⟩⟩
    · cases hb
  | newItem | loadOldInsert | storeNext | storeInsert | setTimestamp =>
    exact enqueue_timed hI hT htn haddr (by simp [Local.phase]) (by simp) hst hs

/-! ### All runs -/

theorem init_timed (C : Counting T n) :
    QueueInv C (⟨.init n, [], (Ghost.init n, ∅)⟩ : QueueState α T n addresses) :=
  ⟨.init C init_inv rfl C.clock fun h => (Ghost.init_items h).2.1,
    .nil _ _ _⟩

/-- What a thread knows between its accesses. -/
def TimeLoc (C : Counting T n) (t : ℕ) (f : Option (Frame (machine α T n addresses)))
    (w : QueueState α T n addresses) : Prop :=
  match f with
  | none => Idle (history w.trace) t ∧ ∀ k q : ℕ, (w.ghost.1.items t)[k]? = some q → 1 ≤ k →
    Before buffers w w.trace.length q
  | some f => t < n ∧ Timed C t f.id f.op w f.loc

def timeOutline (α : Type) (C : Counting T n) (addresses : ℕ) :
    Outline (machine α T n addresses) (Ghost × Finset ℕ) where
  inv := QueueInv C
  loc := TimeLoc C
  rely := TimeRely buffers C

theorem timeOutline_sound (C : Counting T n) (haddr : addresses ≤ addressSpace)
    {ok : ℕ → Shared α T → Local α T → Bool}
    (hok : ∀ t σ s, ok t σ (.swapRemove s) = true → σ.remove s.bufferIndex = s.oldRemove →
      C.gap = 0 → C.time s.timestamp ≠ C.time s.startTime) :
    (timeOutline α C addresses).Sound ok where
  init := by
    refine ⟨(Ghost.init n, ∅), init_timed C, fun t => ⟨fun i op ho => ?_, fun k q hq hk => ?_⟩⟩
    · exact absurd ho.lt_length (Nat.not_lt_zero _)
    · exact absurd (Ghost.init_items hq).2.1 (Nat.ne_of_gt hk)
  stable := by
    intro w e σ g t f hI hI' hloc he hr
    cases f with
    | none => exact idle_rely hloc.1 hloc.2 he hr
    | some f => exact ⟨hloc.1, hloc.2.rely hI.time hI'.time.heap he hr⟩
  call := by
    intro w t op hI hloc hadm
    obtain ⟨hidle, hown⟩ := hloc
    have htn : t < n := of_decide_eq_true hadm
    obtain ⟨hH, hr⟩ := hI.time.heap.forget t
    refine ⟨({ w.ghost.1 with saw := Function.update w.ghost.1.saw t false }, w.ghost.2),
      ⟨hI.time.call t op hH rfl rfl, hI.fifo.call rfl fun _ _ _ _ _ _ _ => trivial⟩, ⟨htn, ?_⟩,
      fun u hu => ⟨hr u hu, C.refl .., fun _ _ _ hp => hp, fun _ _ _ => rfl⟩⟩
    cases op with
    | put x =>
      exact ⟨⟨trivial, trivial⟩, .call hidle hown rfl, fun y hy => (by cases hy; rfl),
        fun p hp => (by cases hp), 0, Nat.zero_le _, trivial⟩
    | get =>
      exact ⟨⟨trivial, trivial⟩, .call hidle hown rfl, fun y hy => (by cases hy),
        fun p hp => (by cases hp), 0, Nat.zero_le _,
        (C.readStart w.shared.clock (Nat.zero_lt_of_lt htn)).1⟩
  run := by
    intro w t f ch σ o hI hloc hcond hst
    obtain ⟨htn, hT⟩ := hloc
    obtain ⟨g, hI', hgo, hstop, hr⟩ := access_timed hI hT htn haddr
      (fun s hs => hok t w.shared s (hs ▸ hcond)) hst
    refine ⟨g, hI', ?_, hr⟩
    cases o with
    | inl l' => exact ⟨htn, hgo l' rfl⟩
    | inr r =>
      refine ⟨?_, fun k q hq hk => ?_⟩
      · rw [World.record_trace, history_append]
        exact idle_return (history w.trace) t r
      · rw [World.record_trace, List.length_append]
        exact hstop r rfl k q hq hk

theorem fifo_counting (C : Counting T n) {ok : ℕ → Shared α T → Local α T → Bool}
    (hok : ∀ t σ s, ok t σ (.swapRemove s) = true → σ.remove s.bufferIndex = s.oldRemove →
      C.gap = 0 → C.time s.timestamp ≠ C.time s.startTime)
    {c : Config (machine α T n addressSpace)} (hc : Reach (machine α T n addressSpace) ok c) :
    Accounted (Makes buffers) (Removes buffers n) c.trace ∧
      Fifo (Makes buffers) (Removes buffers n) c.trace := by
  obtain ⟨g, hI, -⟩ := (timeOutline_sound C le_rfl hok).reach hc
  exact ⟨hI.time.accounted, hI.fifo⟩

/-- **TSQueue with `StutteringTimestamp` never reverses two enqueues** that do not overlap:
each item is removed at most once, and if the enqueue of `a` returned before that of `b` was
invoked, then `a` is removed before `b`.  The items that dequeues remove are those whose
elements they return.  It holds for any number of threads and as many items as 64-bit
pointers can address. -/
theorem fifo_stuttering {numThreads : ℕ}
    {c : Config (machine α (stuttering numThreads) numThreads addressSpace)}
    (hc : Reach (machine α (stuttering numThreads) numThreads addressSpace) always c) :
    Accounted (Makes buffers) (Removes buffers numThreads) c.trace ∧
      Fifo (Makes buffers) (Removes buffers numThreads) c.trace :=
  fifo_counting (stutteringCounting numThreads) (fun _ _ _ _ _ h => by cases h) hc

/-- Thread 0 enqueues an item, then thread 1 another one, and thread 2 dequeues both. -/
def inOrder : List (Action (machine ℕ (stuttering 3) 3 addressSpace)) :=
  List.flatten [[.call 0 (.put 5)], turns 0 ⟨(), 0, false⟩ 9, [.call 1 (.put 6)],
    turns 1 ⟨(), 0, false⟩ 9, [.call 2 .get], turns 2 ⟨(), 1, false⟩ 17, [.call 2 .get],
    turns 2 ⟨(), 1, false⟩ 16]

theorem fifo_stuttering_inOrder :
    ∃ c : Config (machine ℕ (stuttering 3) 3 addressSpace),
      (c.events.filter fun e => e matches .res _ (.got _)) =
        [.res 2 (.got (some 5)), .res 2 (.got (some 6))] ∧
      Accounted (Makes buffers) (Removes buffers 3) c.trace ∧
        Fifo (Makes buffers) (Removes buffers 3) c.trace := by
  have h : ∃ c, Reach (machine ℕ (stuttering 3) 3 addressSpace) always c ∧
      decide ((c.events.filter fun e => e matches .res _ (.got _)) =
        [.res 2 (.got (some 5)), .res 2 (.got (some 6))]) = true :=
    Reach.exists_of_any always inOrder _ (by decide +kernel)
  obtain ⟨c, hc, hp⟩ := h
  exact ⟨c, of_decide_eq_true hp, fifo_stuttering hc⟩

/-! ### Atomic counters -/

/-- A dequeue does not remove an item whose timestamp is the start time of its scan. -/
def notStart (_ : ℕ) (σ : Shared α atomicCounter) : Local α atomicCounter → Bool
  | .swapRemove s => ¬ (σ.remove s.bufferIndex = s.oldRemove ∧ s.timestamp = s.startTime)
  | _ => true

/-- **TSQueue with `AtomicCounterTimestamp`** does not reverse enqueues either as long as no
dequeue removes an item whose timestamp is the start time of its scan. -/
theorem fifo_of_notStart {numThreads : ℕ}
    {c : Config (machine α atomicCounter numThreads addressSpace)}
    (hc : Reach (machine α atomicCounter numThreads addressSpace) notStart c) :
    Accounted (Makes buffers) (Removes buffers numThreads) c.trace ∧
      Fifo (Makes buffers) (Removes buffers numThreads) c.trace := by
  refine fifo_counting (atomicCounting numThreads) (fun t σ s hs hcas _ htime => ?_) hc
  exact of_decide_eq_true hs ⟨hcas, htime⟩

/-- Thread 2 reads the time when thread 0 has drawn a timestamp for its item and not stored
it, and passes the item; then it comes to the item of thread 1, which got the number that
thread 2 has read. -/
def passed : List (Action (machine ℕ atomicCounter 3 addressSpace)) :=
  List.flatten [[.call 0 (.put 5)], turns 0 ⟨(), 0, false⟩ 5, [.call 2 .get],
    turns 2 ⟨(), 0, false⟩ 5, turns 0 ⟨(), 0, false⟩ 1, [.call 1 (.put 6)],
    turns 1 ⟨(), 0, false⟩ 6, turns 2 ⟨(), 0, false⟩ 10]

/-- With the start at the next buffer, thread 2 comes to both items after they have got their
timestamps. -/
def seen : List (Action (machine ℕ atomicCounter 3 addressSpace)) :=
  List.flatten [[.call 0 (.put 5)], turns 0 ⟨(), 0, false⟩ 6, [.call 1 (.put 6)],
    turns 1 ⟨(), 0, false⟩ 6, [.call 2 .get], turns 2 ⟨(), 1, false⟩ 15]

theorem fifo_of_notStart_seen :
    ∃ c : Config (machine ℕ atomicCounter 3 addressSpace),
      (c.events.filter fun e => e matches .res _ (.got _)) = [.res 2 (.got (some 5))] ∧
      Accounted (Makes buffers) (Removes buffers 3) c.trace ∧
        Fifo (Makes buffers) (Removes buffers 3) c.trace := by
  have h : ∃ c, Reach (machine ℕ atomicCounter 3 addressSpace) notStart c ∧
      decide ((c.events.filter fun e => e matches .res _ (.got _)) =
        [.res 2 (.got (some 5))]) = true :=
    Reach.exists_of_any notStart seen _ (by decide +kernel)
  obtain ⟨c, hc, hp⟩ := h
  exact ⟨c, of_decide_eq_true hp, fifo_of_notStart hc⟩

/-- In other runs the order may be reversed. -/
theorem not_fifo_counter :
    ∃ c : Config (machine ℕ atomicCounter 3 addressSpace),
      Reach (machine ℕ atomicCounter 3 addressSpace) always c ∧
      (c.events.filter fun e => e matches .res _ _) =
        [.res 0 (.put true), .res 1 (.put true), .res 2 (.got (some 6))] ∧
      ¬ Fifo (Makes buffers) (Removes buffers 3) c.trace := by
  have h : ∃ c, Reach (machine ℕ atomicCounter 3 addressSpace) always c ∧
      (decide ((c.events.filter fun e => e matches .res _ _) =
        [.res 0 (.put true), .res 1 (.put true), .res 2 (.got (some 6))]) &&
      reversed (Makes buffers) (Removes buffers 3) c.trace 0 1 4 13 14 5 6 28) = true :=
    Reach.exists_of_any always passed _ (by decide +kernel)
  obtain ⟨c, hc, hp⟩ := h
  rw [Bool.and_eq_true] at hp
  exact ⟨c, hc, of_decide_eq_true hp.1, not_fifo_of_reversed hp.2⟩

end TSQueue

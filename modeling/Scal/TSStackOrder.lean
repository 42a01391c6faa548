/-
The timestamped stack respects the order of calls that do not overlap.

An item gets its timestamp after it is linked, so a scan may see it with the largest one.
But an item whose push returned before another push began has the smaller timestamp of the
two, for ever (`InOrder`).

* `TimeFact` — what a call knows about timestamps: a scan's timestamp is that of its result,
  and the items that were there when the pop was invoked and were visited since are taken
  or not later (`Covered`);
* `step_inv` — every access keeps the invariant;
* `lifo_ofCalls` — a pop takes no item below one that was there when it was invoked.
-/
import Scal.TSStackBag
import Scal.TimeStampOrder
import Scal.Calls

open Interleave Linearizability

namespace TSStack

variable {α : Type} {T : TimeStamp} {n addresses : ℕ}

/-- The step allocates the item `p`. -/
def Makes (p : ℕ) (m : Moment (machine α T n addresses)) : Prop :=
  m.before.alloc = p ∧ ∃ x, m.after = m.before.newItem x

/-- The step sets the item's `taken`. -/
def Takes (p : ℕ) (m : Moment (machine α T n addresses)) : Prop :=
  (m.before.item p).taken = false ∧ (m.after.item p).taken = true

/-- If one push returned before another began, and that before a pop began, then the pop
takes the older item only after another pop took the younger one. -/
def Lifo (tr : List (Moment (machine α T n addresses))) : Prop :=
  ∀ ia ib ip a b k, Did Makes tr ia a → Did Makes tr ib b →
    Precedes (history tr) ia ib → Precedes (history tr) ib ip → Acts (Takes a) tr ip k →
      ∃ k' < k, ∃ ip', ip' ≠ ip ∧ Acts (Takes b) tr ip' k'

/-- A pop that returned an element took an item of a push of that element. -/
def TookIt (tr : List (Moment (machine α T n addresses))) : Prop :=
  ∀ ip j x, Returns (history tr) ip j (.got (some x)) → ∃ a ia t, Did Takes tr ip a ∧
    Did Makes tr ia a ∧ (history tr)[ia]? = some (.inv t (.put x))

/-- The shared memory, the trace, and as ghost state that of the buffers and the items for
which the clock advanced. -/
abbrev State (α : Type) (T : TimeStamp) (n addresses : ℕ) :=
  World (machine α T n addresses) (Ghost × Finset ℕ)

variable {C : Counting T n} {w : State α T n addresses}

/-- The timestamp of the item `p`. -/
def valueOf (C : Counting T n) (σ : Shared α T) (p : ℕ) : ℕ := C.value (σ.item p).timestamp

structure TimeInv (C : Counting T n) (w : State α T n addresses) : Prop where
  heap : HeapInv n w.shared w.ghost.1
  space : w.shared.alloc ≤ addressSpace
  ticked : ∀ p ∈ w.ghost.2, p < w.shared.alloc
  clock : C.low w.shared.clock ≤ w.ghost.2.card + 2
  order : InOrder Makes (valueOf C w.shared) (C.low w.shared.clock) w.trace
  made : ∀ {i p}, Did Makes w.trace i p → p < w.shared.alloc ∧ ∃ t x,
    (history w.trace)[i]? = some (.inv t (.put x)) ∧ (w.shared.item p).data = some x
  allocated : ∀ {p}, p < w.shared.alloc → (w.shared.item p).data.isSome = true →
    ∃ i, Did Makes w.trace i p
  linked : ∀ {p}, DoneBefore Makes w.trace p w.trace.length →
    ∃ b k, (w.ghost.1.items b)[k + 1]? = some p
  -- a buffer's items are in the order of the pushes
  buffer : ∀ {b k m p q i : ℕ}, (w.ghost.1.items b)[k + 1]? = some p →
    (w.ghost.1.items b)[m + 1]? = some q → k < m → Did Makes w.trace i q →
      DoneBefore Makes w.trace p i
  taken : ∀ {i p}, Did Makes w.trace i p → (w.shared.item p).taken = true →
    ∃ j, Did Takes w.trace j p
  fresh : ∀ p, w.shared.alloc ≤ p → (w.shared.item p).taken = true
  lifo : Lifo w.trace
  tookIt : TookIt w.trace

/-! ### What a call knows about timestamps -/

/-- The items that were pushed before the call `i`. -/
abbrev Before (w : State α T n addresses) (i q : ℕ) : Prop := DoneBefore Makes w.trace q i

/-- Those in the buffers at positions without `rest` are taken or not later than `time`. -/
def Covered (C : Counting T n) (i : ℕ) (time : T.Time) (rest : ℕ → Prop)
    (w : State α T n addresses) : Prop :=
  ∀ j b k q : ℕ, w.ghost.1.ring[j]? = some b → ¬ rest j →
    (w.ghost.1.items b)[k + 1]? = some q → Before w i q →
      (w.shared.item q).taken = true ∨ valueOf C w.shared q ≤ C.time time

/-- Facts about the call `i` that stay true once they are true. -/
inductive TimeFact (T : TimeStamp) where
  | setting (p : ℕ) (s : T.Setting)
  | reading (r : T.Reading)
  /-- The items pushed before the call are not later. -/
  | earlier (time : T.Time)
  | result (s : Scan T)
  | leaving (s : Scan T)
  | visiting (s : Scan T)
  /-- The items pushed before the call that are above `p` are taken. -/
  | above (b p : ℕ)
  | clear (b : ℕ)
  /-- If the item was pushed before the call, it is not earlier than `time`. -/
  | late (time : T.Time) (p : ℕ)
  | covered (s : Scan T)

def TimeFact.Holds (C : Counting T n) (t i : ℕ) (w : State α T n addresses) :
    TimeFact T → Prop
  | .setting p s => (∃ k, (w.ghost.1.items (bufferOf t))[k + 1]? = some p) ∧
    C.SetOk t w.shared.clock s ∧
    ∀ q, Before w i q → valueOf C w.shared q < C.setLow w.shared.clock s
  | .reading r => C.ReadOk w.shared.clock r ∧
    ∀ q, Before w i q → valueOf C w.shared q ≤ C.readLow w.shared.clock r
  | .earlier time => ∀ q, Before w i q → valueOf C w.shared q ≤ C.time time
  | .result s => Before w i s.result → valueOf C w.shared s.result = C.time s.timestamp
  | .leaving s => ∃ rest,
    Leaving w.ghost.1.ring s.startBuffer s.currentBuffer s.entryCounter rest ∧
    Covered C i s.timestamp rest w
  | .visiting s => ∃ c rest,
    Visiting w.ghost.1.ring s.startBuffer s.currentBuffer s.entryCounter c rest ∧
    Covered C i s.timestamp (fun j => j = c ∨ rest j) w
  | .above b p => ∃ k : ℕ, (w.ghost.1.items b)[k]? = some p ∧ ∀ m q : ℕ, k < m →
    (w.ghost.1.items b)[m]? = some q → Before w i q → (w.shared.item q).taken = true
  | .clear b => ∀ k q : ℕ, (w.ghost.1.items b)[k + 1]? = some q → Before w i q →
    (w.shared.item q).taken = true
  | .late time p => Before w i p → C.time time ≤ valueOf C w.shared p
  | .covered s => Covered C i s.timestamp (fun _ => False) w

section Stable

variable {t u i : ℕ} {e : Event (BagOp α) (BagRet α)} {σ : Shared α T} {g : Ghost × Finset ℕ}
  {rest : ℕ → Prop}

theorem before_record (hi : i ≤ w.trace.length) {q : ℕ} :
    Before (w.record e σ g) i q ↔ Before w i q := doneBefore_append_iff hi

/-- The items pushed before a call were all linked when it was invoked. -/
theorem TimeInv.getElem_of_before (hI : TimeInv C w) (hH : HeapInv n σ g.1)
    (hr : Rely u w.shared w.ghost.1 σ g.1) (hi : i ≤ w.trace.length) {b k q : ℕ}
    (hq : (g.1.items b)[k]? = some q) (hb : Before w i q) : (w.ghost.1.items b)[k]? = some q := by
  obtain ⟨b', k', hq'⟩ := hI.linked (hb.mono hi)
  obtain ⟨rfl, rfl⟩ := hH.unique _ _ _ _ _ hq (hr.getElem hq')
  exact hq'

theorem TimeInv.taken_of_before (hI : TimeInv C w) (hr : Rely u w.shared w.ghost.1 σ g.1)
    (hi : i ≤ w.trace.length) {q : ℕ} (hb : Before w i q)
    (ht : (w.shared.item q).taken = true) : (σ.item q).taken = true := by
  obtain ⟨b, k, hq⟩ := hI.linked (hb.mono hi)
  exact (hr.taken b _ q hq ht).1

/-- The timestamps of the items of calls that returned are the same as before. -/
def Stamped (w : State α T n addresses) (σ : Shared α T) : Prop :=
  ∀ q, DoneBefore Makes w.trace q w.trace.length →
    (σ.item q).timestamp = (w.shared.item q).timestamp

theorem Stamped.valueOf_eq (hs : Stamped w σ) (hi : i ≤ w.trace.length) {q : ℕ}
    (hb : Before w i q) : valueOf C σ q = valueOf C w.shared q :=
  congrArg C.value (hs q (hb.mono hi))

theorem Covered.record {time : T.Time} (hC : Covered C i time rest w) (hI : TimeInv C w)
    (hH : HeapInv n σ g.1) (hr : Rely u w.shared w.ghost.1 σ g.1) (hs : Stamped w σ)
    (hi : i ≤ w.trace.length) : Covered C i time rest (w.record e σ g) := by
  intro j b k q hj hrest hq hb
  have hb := (before_record hi).mp hb
  have hq := hI.getElem_of_before hH hr hi hq hb
  have hlen := Chain.lt_length hq
  have hone : (w.ghost.1.items b)[1]? = some (w.ghost.1.items b)[1] :=
    List.getElem?_eq_getElem (by omega)
  obtain ⟨j', hj'⟩ := List.mem_iff_getElem?.mp (hI.heap.linked b _ hone)
  obtain rfl := hH.ring_inj (Chain.getElem?_mono hr.ring hj') hj
  rcases hC j' b k q hj' hrest hq hb with h | h
  · exact Or.inl (hI.taken_of_before hr hi hb h)
  · exact Or.inr ((hs.valueOf_eq hi hb).trans_le h)

/-- The fact does not depend on the clock. -/
def TimeFact.lasting : TimeFact T → Bool
  | .setting _ _ | .reading _ => false
  | _ => true

theorem TimeFact.Holds.record {F : TimeFact T} (hF : F.Holds C t i w) (hl : F.lasting = true)
    (hI : TimeInv C w) (hH : HeapInv n σ g.1) (hr : Rely u w.shared w.ghost.1 σ g.1)
    (hs : Stamped w σ) (hi : i ≤ w.trace.length) : F.Holds C t i (w.record e σ g) := by
  cases F with
  | setting p s => cases hl
  | reading r => cases hl
  | earlier time =>
    intro q hq
    have hq := (before_record hi).mp hq
    exact (hs.valueOf_eq hi hq).trans_le (hF q hq)
  | result s =>
    intro hq
    have hq := (before_record hi).mp hq
    exact (hs.valueOf_eq hi hq).trans (hF hq)
  | leaving s =>
    obtain ⟨rest, hl, hC⟩ := hF
    exact ⟨rest, hl.mono hr.ring, hC.record hI hH hr hs hi⟩
  | visiting s =>
    obtain ⟨c, rest, hv, hC⟩ := hF
    exact ⟨c, rest, hv.mono hr.ring, hC.record hI hH hr hs hi⟩
  | above b p =>
    obtain ⟨k, hk, hT⟩ := hF
    refine ⟨k, hr.getElem hk, fun m q hm hq hb => ?_⟩
    have hb := (before_record hi).mp hb
    exact hI.taken_of_before hr hi hb (hT m q hm (hI.getElem_of_before hH hr hi hq hb) hb)
  | clear b =>
    intro k q hq hb
    have hb := (before_record hi).mp hb
    exact hI.taken_of_before hr hi hb (hF k q (hI.getElem_of_before hH hr hi hq hb) hb)
  | late time p =>
    intro hq
    have hq := (before_record hi).mp hq
    exact (hF hq).trans_eq (hs.valueOf_eq hi hq).symm
  | covered s => exact Covered.record hF hI hH hr hs hi

end Stable

/-- The item of a push. -/
def Local.item : Local α T → Option ℕ
  | .loadSPBuffer _ p | .register _ p | .loadEntryNext _ p | .storeBufferNext _ p _
  | .linkBuffer _ p _ | .reloadSPBuffer _ p | .loadOldTop _ p _ | .topNext _ p _ _
  | .topTaken _ p _ _ | .topStep _ p _ _ | .storeNext _ p _ _ | .listSPBuffer _ p _
  | .storeList _ p _ _ | .setTimestamp _ p _ => some p
  | _ => none

/-- The item that a pop took. -/
def Local.took : Local α T → Option ℕ
  | .swapList _ _ _ p | .loadData _ p => some p
  | _ => none

/-- The clock did not advance for the push yet. -/
def Local.unticked (C : Counting T n) : Local α T → Bool
  | .setTimestamp _ _ s => C.fresh s
  | _ => true

def Local.timeFacts : Local α T → List (TimeFact T)
  | .setTimestamp _ p s => [.setting p s]
  | .readTime r => [.reading r]
  | .loadEntry time => [.earlier time]
  | .skip time _ _ => [.earlier time]
  | .loadBuffer s => [.earlier s.invocationTime, .result s, .leaving s]
  | .loadTop s _ => [.earlier s.invocationTime, .result s, .visiting s]
  | .loadList s _ _ => [.earlier s.invocationTime, .result s, .visiting s]
  | .loadTaken s _ _ p =>
    [.earlier s.invocationTime, .result s, .visiting s, .above s.currentBuffer p]
  | .loadNext s _ _ p =>
    [.earlier s.invocationTime, .result s, .visiting s, .above s.currentBuffer p]
  | .unlinkSPBuffer s _ _ =>
    [.earlier s.invocationTime, .result s, .visiting s, .clear s.currentBuffer]
  | .loadTimestamp s _ _ p _ =>
    [.earlier s.invocationTime, .result s, .visiting s, .above s.currentBuffer p]
  | .checkItem s _ p =>
    [.earlier s.invocationTime, .result s, .visiting s, .late s.invocationTime p]
  | .takeItem s _ p =>
    [.earlier s.invocationTime, .result s, .visiting s, .late s.invocationTime p]
  | .checkResult s => [.earlier s.invocationTime, .result s, .covered s]
  | .takeResult s => [.earlier s.invocationTime, .result s, .covered s]
  | _ => []

/-- What is known about the call `i` of thread `t` that is at `l`. -/
structure Timed (C : Counting T n) (t i : ℕ) (op : BagOp α) (w : State α T n addresses)
    (l : Local α T) : Prop where
  heap : Knows t w.shared w.ghost.1 l
  running : Running (history w.trace) t i op
  own : ∀ k q, (w.ghost.1.items (bufferOf t))[k + 1]? = some q →
    Before w i q ∨ Did Makes w.trace i q
  makes : ∀ q, Did Makes w.trace i q ↔ l.item = some q
  takes : ∀ q, Did Takes w.trace i q ↔ l.took = some q
  op : ∀ x, l = .newItem x → op = .put x
  unticked : ∀ p, l.item = some p → l.unticked C = true → p ∉ w.ghost.2
  facts : AllOf (TimeFact.Holds C t i w) l.timeFacts

/-- What the other threads' steps leave as it is. -/
structure TimeRely (C : Counting T n) (u : ℕ) (w w' : State α T n addresses) : Prop where
  heap : Rely u w.shared w.ghost.1 w'.shared w'.ghost.1
  clock : C.Advance u w.shared.clock w'.shared.clock
  ticked : ∀ p < w.shared.alloc, w.ghost.1.owner p = u → p ∉ w.ghost.2 → p ∉ w'.ghost.2
  stamped : Stamped w w'.shared

section Rely

variable {t i : ℕ} {op : BagOp α} {e : Event (BagOp α) (BagRet α)} {σ : Shared α T}
  {g : Ghost × Finset ℕ} {l : Local α T}

theorem TimeFact.Holds.rely {F : TimeFact T} (hF : F.Holds C t i w) (hI : TimeInv C w)
    (hH : HeapInv n σ g.1) (hr : TimeRely C t w (w.record e σ g)) (hi : i ≤ w.trace.length) :
    F.Holds C t i (w.record e σ g) := by
  cases F with
  | setting p s =>
    obtain ⟨⟨k, hk⟩, hs, hlow⟩ := hF
    refine ⟨⟨k, hr.heap.getElem hk⟩, C.setOk hs hr.clock, fun q hq => ?_⟩
    have hq := (before_record hi).mp hq
    exact (hr.stamped.valueOf_eq hi hq).trans_lt
      ((hlow q hq).trans_le (C.setLow_le s hr.clock))
  | reading r =>
    refine ⟨C.readOk hF.1 hr.clock, fun q hq => ?_⟩
    have hq := (before_record hi).mp hq
    exact (hr.stamped.valueOf_eq hi hq).trans_le
      ((hF.2 q hq).trans (C.readLow_le r hr.clock))
  | _ => exact hF.record rfl hI hH hr.heap hr.stamped hi

/-- A push owns its item. -/
theorem Knows.owner (hk : Knows t w.shared w.ghost.1 l) {p : ℕ} (hp : l.item = some p) :
    p < w.shared.alloc ∧ w.ghost.1.owner p = t := by
  have hmem : (∃ x, Fact.own p x ∈ l.facts) ∨ (∃ x, Fact.nextStored p x ∈ l.facts) ∨
      Fact.linked p ∈ l.facts := by
    cases l <;> simp_all [Local.item, Local.facts]
  rcases hmem with ⟨x, hm⟩ | ⟨x, hm⟩ | hm
  · have ho : Own t p x 0 w.shared w.ghost.1 := hk.2.mem hm
    exact ⟨ho.lt, ho.owner⟩
  · obtain ⟨i, top, -, -, ho⟩ := hk.2.mem hm
    exact ⟨ho.lt, ho.owner⟩
  · obtain ⟨hlt, ho, -⟩ := hk.2.mem hm
    exact ⟨hlt, ho⟩

/-- What a call knows is kept by the other threads' steps. -/
theorem Timed.rely (hT : Timed C t i op w l) (hI : TimeInv C w) (hH : HeapInv n σ g.1)
    (he : e.thread ≠ t) (hr : TimeRely C t w (w.record e σ g)) :
    Timed C t i op (w.record e σ g) l := by
  have hi : i ≤ w.trace.length := by
    have := hT.running.1.lt_length
    rw [length_history] at this
    exact this.le
  have hne : (⟨e, w.shared, σ⟩ : Moment (machine α T n addresses)).event.thread ≠ t := he
  refine ⟨hT.heap.rely hr.heap, ?_, fun k q hq => ?_, fun q => ?_, fun q => ?_, hT.op,
    fun p hp hu => ?_, hT.facts.imp fun F hF => hF.rely hI hH hr hi⟩
  · rw [World.record_trace, history_append]
    exact hT.running.append fun h => absurd h he
  · have hitems : g.1.items (bufferOf t) = w.ghost.1.items (bufferOf t) := hr.heap.buffer
    have hq : (g.1.items (bufferOf t))[k + 1]? = some q := hq
    rw [hitems] at hq
    exact (hT.own k q hq).imp (before_record hi).mpr (did_other hT.running.1 hne).mpr
  · exact (did_other hT.running.1 hne).trans (hT.makes q)
  · exact (did_other hT.running.1 hne).trans (hT.takes q)
  · obtain ⟨hlt, ho⟩ := hT.heap.owner hp
    exact hr.ticked p hlt ho (hT.unticked p hp hu)

end Rely

/-! ### What an access does to the invariant -/

theorem TimeInv.card_le (hI : TimeInv C w) : w.ghost.2.card ≤ w.shared.alloc := by
  have hsub : w.ghost.2 ⊆ Finset.range w.shared.alloc := fun p hp =>
    Finset.mem_range.mpr (hI.ticked p hp)
  exact (Finset.card_le_card hsub).trans_eq (Finset.card_range _)

/-- The clocks never get to the timestamp of items that have none yet. -/
theorem TimeInv.low_lt (hI : TimeInv C w) : C.low w.shared.clock < uint64Max := by
  have h1 := hI.clock
  have h2 := hI.card_le
  have h3 := hI.space
  rw [addressSpace] at h3
  rw [uint64Max, wordSize]
  omega

section Record

variable {t u i : ℕ} {op : BagOp α} {e : Event (BagOp α) (BagRet α)} {σ : Shared α T}
  {g : Ghost × Finset ℕ} {l : Local α T}

theorem Timed.lt_length (hT : Timed C t i op w l) : i < w.trace.length := by
  have h := hT.running.1.lt_length
  rwa [length_history] at h

theorem Makes.item {p : ℕ} {m : Moment (machine α T n addresses)} (hm : Makes p m) :
    ∃ x, m.after.item p = ⟨0, false, some x, T.initTopAtomic⟩ := by
  obtain ⟨rfl, x, hx⟩ := hm
  refine ⟨x, ?_⟩
  rw [hx]
  exact Function.update_self ..

theorem lifo_record (hI : TimeInv C w) (hT : Timed C t i op w l)
    (he : e = .tau t ∨ ∃ r, e = .res t r)
    (htake : ∀ a, Takes a (⟨e, w.shared, σ⟩ : Moment (machine α T n addresses)) →
      l.took = none ∧ ∀ ia ib b, Did Makes w.trace ia a → Did Makes w.trace ib b →
        Precedes (history w.trace) ia ib → Before w i b → (w.shared.item b).taken = true) :
    Lifo (w.record e σ g).trace := by
  intro ia ib ip a b k ha hb hab hbp hk
  rw [World.record_trace] at ha hb hab hbp hk ⊢
  have hip : ip < w.trace.length := by
    have h1 := hk.1.lt
    have h2 := hk.lt_length
    rw [List.length_append, List.length_singleton] at h2
    omega
  rw [history_append] at hab hbp
  have hbp := (precedes_append_iff (by rw [length_history]; exact hip.le)).mp hbp
  have hib : ib < w.trace.length := hbp.lt.trans hip
  have hab := (precedes_append_iff (by rw [length_history]; exact hib.le)).mp hab
  -- neither push is the call that makes the step
  have hold : ∀ {j q}, Did Makes (w.trace ++ [⟨e, w.shared, σ⟩]) j q →
      (∃ j', Precedes (history w.trace) j j') → Did Makes w.trace j q := by
    intro j q hj hpre
    rcases (did_step hT.running.1 he).mp hj with hj | ⟨rfl, -⟩
    · exact hj
    · obtain ⟨j', hj'⟩ := hpre
      exact absurd hj' hT.running.1.open.not_precedes
  have ha := hold ha ⟨ib, hab⟩
  have hb := hold hb ⟨ip, hbp⟩
  rcases (acts_step hT.running.1 he).mp hk with hk | ⟨rfl, rfl, hk⟩
  · obtain ⟨k', hk', ip', hne, hact⟩ := hI.lifo ia ib ip a b k ha hb hab hbp hk
    exact ⟨k', hk', ip', hne, (acts_append_iff hact.lt_length).mpr hact⟩
  · obtain ⟨hnone, hbelow⟩ := htake a hk
    obtain ⟨j, k', hk'⟩ := hI.taken hb (hbelow ia ib b ha hb hab ⟨ib, hb, hbp⟩)
    refine ⟨k', hk'.lt_length, j, ?_, (acts_append_iff hk'.lt_length).mpr hk'⟩
    rintro rfl
    have := (hT.takes b).mp ⟨k', hk'⟩
    rw [hnone] at this
    cases this

theorem tookIt_record (hI : TimeInv C w) (hT : Timed C t i op w l)
    (hret : ∀ x, e = .res t (.got (some x)) → ∃ p, l.took = some p ∧ p < w.shared.alloc ∧
      (w.shared.item p).data = some x) (he : e.thread = t) :
    TookIt (w.record e σ g).trace := by
  intro ip j x hr
  rw [World.record_trace, history_append, history_singleton] at hr ⊢
  rcases returns_append_cases hr with hr | ⟨-, u, op', rfl, ho⟩
  · obtain ⟨a, ia, t', ha, hia, ht'⟩ := hI.tookIt ip j x hr
    refine ⟨a, ia, t', ha.append, hia.append, ?_⟩
    rw [getElem?_append_of_lt (by rw [length_history]; exact hia.lt_length)]
    exact ht'
  · obtain rfl : u = t := he
    obtain rfl := hT.running.2 ip op' ho
    obtain ⟨p, hp, hlt, hx⟩ := hret x rfl
    obtain ⟨ia, hia⟩ := hI.allocated hlt (by rw [hx]; rfl)
    obtain ⟨-, t', y, ht', hy⟩ := hI.made hia
    obtain rfl : y = x := Option.some.inj (hy.symm.trans hx)
    refine ⟨p, ia, t', ((hT.takes p).mpr hp).append, hia.append, ?_⟩
    rw [getElem?_append_of_lt (by rw [length_history]; exact hia.lt_length)]
    exact ht'

/-- The items of a buffer stay in the order of their pushes. -/
theorem buffer_record (hI : TimeInv C w) (hT : Timed C t i op w l)
    (hH : HeapInv n σ g.1)
    (hr : Rely u w.shared w.ghost.1 σ g.1) (hl : Links t l w.ghost.1 g.1)
    (horder : InOrder Makes (valueOf C σ) (C.low σ.clock) (w.record e σ g).trace)
    {b k m p q j : ℕ} (hp : (g.1.items b)[k + 1]? = some p) (hq : (g.1.items b)[m + 1]? = some q)
    (hkm : k < m) (hj : Did Makes (w.record e σ g).trace j q) :
    DoneBefore Makes (w.record e σ g).trace p j := by
  have hi := hT.lt_length
  rcases hl b m q hq with hq' | ⟨rfl, hm, x, v, b', rfl⟩
  · have hp' : (w.ghost.1.items b)[k + 1]? = some p := hr.getElem_of_le hq' (by omega) hp
    obtain ⟨j', hj'⟩ := hI.allocated (hI.heap.bound _ _ _ hq').2 (hI.heap.data _ _ _ hq').2
    obtain rfl := horder.once hj hj'.append
    exact (doneBefore_append_iff hj'.lt_length.le).mpr (hI.buffer hp' hq' hkm hj')
  · -- the new item is above those of the thread's earlier calls
    have hown : ∀ y, Did Makes w.trace i y ↔ q = y := fun y =>
      (hT.makes y).trans Option.some_inj
    have hlen : k + 1 < (w.ghost.1.items (bufferOf t)).length := by omega
    obtain ⟨p', hp'⟩ : ∃ p', (w.ghost.1.items (bufferOf t))[k + 1]? = some p' :=
      ⟨_, List.getElem?_eq_getElem hlen⟩
    obtain rfl : p = p' := Option.some.inj (hp.symm.trans (hr.getElem hp'))
    obtain rfl := horder.once hj ((hown q).mpr rfl).append
    rcases hT.own k p hp' with hb | hd
    · exact (doneBefore_append_iff hi.le).mpr hb
    · obtain rfl := (hown p).mp hd
      have := (hH.unique _ _ _ _ _ hp hq).2
      omega

/-- **The invariant is kept** by an access that keeps the buffers' one, if what it does to
clock and items is as it should be. -/
theorem TimeInv.record (hI : TimeInv C w) (hT : Timed C t i op w l)
    (he : e = .tau t ∨ ∃ r, e = .res t r) (hH : HeapInv n σ g.1)
    (hr : Rely u w.shared w.ghost.1 σ g.1) (hl : Links t l w.ghost.1 g.1)
    (hspace : σ.alloc ≤ addressSpace) (hticked : ∀ p ∈ g.2, p < σ.alloc)
    (hclock : C.low σ.clock ≤ g.2.card + 2) (hlow : C.low w.shared.clock ≤ C.low σ.clock)
    (hfresh : ∀ p, σ.alloc ≤ p → (σ.item p).taken = true)
    (hvalue : ∀ j q, Did Makes w.trace j q → valueOf C σ q = valueOf C w.shared q ∨
      j = i ∧ ∀ p, Before w i p → valueOf C w.shared p < valueOf C σ q)
    (hmade : ∀ p, Makes p (⟨e, w.shared, σ⟩ : Moment (machine α T n addresses)) →
      p < σ.alloc ∧ e = .tau t ∧ ∃ x, l = .newItem x ∧ (σ.item p).data = some x)
    (hmake : ∀ p, w.shared.alloc ≤ p → p < σ.alloc → (σ.item p).data.isSome = true →
      Makes p (⟨e, w.shared, σ⟩ : Moment (machine α T n addresses)))
    (htake : ∀ a, Takes a (⟨e, w.shared, σ⟩ : Moment (machine α T n addresses)) →
      l.took = none ∧ ∀ ia ib b, Did Makes w.trace ia a → Did Makes w.trace ib b →
        Precedes (history w.trace) ia ib → Before w i b → (w.shared.item b).taken = true)
    (hput : ∀ r p, e = .res t r → l.item = some p →
      (∃ k, (w.ghost.1.items (bufferOf t))[k + 1]? = some p) ∧ valueOf C σ p < C.low σ.clock)
    (hgot : ∀ x, e = .res t (.got (some x)) → ∃ p, l.took = some p ∧ p < w.shared.alloc ∧
      (w.shared.item p).data = some x) : TimeInv C (w.record e σ g) := by
  have hthread : e.thread = t := by rcases he with rfl | ⟨r, rfl⟩ <;> rfl
  have hnew : ∀ j p, Did Makes w.trace j p →
      ¬ Makes p (⟨e, w.shared, σ⟩ : Moment (machine α T n addresses)) := by
    intro j p hj hm
    have h1 := (hI.made hj).1
    have h2 : w.shared.alloc = p := hm.1
    omega
  -- a call that returns made no item in its last step
  have hres : ∀ r p, e = .res t r → Did Makes (w.record e σ g).trace i p →
      l.item = some p := by
    intro r p hr' hd
    rcases (did_step hT.running.1 he).mp hd with hd | ⟨-, hm⟩
    · exact (hT.makes p).mp hd
    · obtain ⟨-, htau, -⟩ := hmade p hm
      rw [htau] at hr'
      cases hr'
  have horder : InOrder Makes (valueOf C σ) (C.low σ.clock) (w.record e σ g).trace := by
    refine hI.order.step hT.running he hlow (fun p hm => ⟨fun j hj => hnew j p hj hm, ?_⟩)
      hvalue fun r p hr' hd => (hput r p hr' (hres r p hr' hd)).2
    obtain ⟨x, hx⟩ := hm.item
    have htop : valueOf C σ p = uint64Max := by
      show C.value (σ.item p).timestamp = _
      rw [show σ.item p = _ from hx]
      exact C.top
    rw [htop]
    exact hI.low_lt.le
  refine
    { heap := hH
      space := hspace
      ticked := hticked
      clock := hclock
      order := horder
      made := ?_
      allocated := ?_
      linked := ?_
      buffer := fun hp hq hkm hj => buffer_record hI hT hH hr hl horder hp hq hkm hj
      taken := ?_
      fresh := hfresh
      lifo := lifo_record hI hT he htake
      tookIt := tookIt_record hI hT hgot hthread }
  · intro j p hj
    rcases (did_step hT.running.1 he).mp hj with hj | ⟨rfl, hm⟩
    · obtain ⟨hlt, v, x, hv, hx⟩ := hI.made hj
      refine ⟨hlt.trans_le hr.alloc, v, x, ?_, (hr.data p hlt).trans hx⟩
      rw [World.record_trace, history_append,
        getElem?_append_of_lt (by rw [length_history]; exact hj.lt_length)]
      exact hv
    · obtain ⟨hlt, -, x, hx, hd⟩ := hmade p hm
      refine ⟨hlt, t, x, ?_, hd⟩
      rw [World.record_trace, history_append, getElem?_append_of_lt hT.running.1.lt_length,
        hT.running.1.1, hT.op x hx]
  · intro p hp hd
    rcases Nat.lt_or_ge p w.shared.alloc with hlt | hge
    · have hd : (w.shared.item p).data.isSome = true := by
        rw [← hr.data p hlt]
        exact hd
      obtain ⟨j, hj⟩ := hI.allocated hlt hd
      exact ⟨j, hj.append⟩
    · exact ⟨i, (did_step hT.running.1 he).mpr (Or.inr ⟨rfl, hmake p hge hp hd⟩)⟩
  · intro p hp
    rw [World.record_trace, List.length_append, List.length_singleton] at hp
    rcases doneBefore_running hT.running hthread hp with hp | ⟨⟨r, hr'⟩, hd⟩
    · obtain ⟨b, k, hk⟩ := hI.linked hp
      exact ⟨b, k, hr.getElem hk⟩
    · obtain ⟨⟨k, hk⟩, -⟩ := hput r p hr' (hres r p hr' hd)
      exact ⟨_, k, hr.getElem hk⟩
  · intro j p hj htaken
    rcases (did_step hT.running.1 he).mp hj with hj | ⟨-, hm⟩
    · cases hp : (w.shared.item p).taken with
      | true =>
        obtain ⟨j', hj'⟩ := hI.taken hj hp
        exact ⟨j', hj'.append⟩
      | false =>
        have hm : Takes p (⟨e, w.shared, σ⟩ : Moment (machine α T n addresses)) := ⟨hp, htaken⟩
        exact ⟨i, (did_step (A := Takes) hT.running.1 he).mpr (Or.inr ⟨rfl, hm⟩)⟩
    · obtain ⟨x, hx⟩ := hm.item
      rw [show (w.record e σ g).shared.item p = _ from hx] at htaken
      cases htaken

end Record

end TSStack

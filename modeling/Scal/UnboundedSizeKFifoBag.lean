/-
The unbounded-size k-FIFO queue as a linearizable bag.

An enqueue puts its item when `committed` reads `*head_` and finds it behind the
item's segment, or when it changes the word of `*head_` in the item's segment.  A
dequeue that moves head, or finds the queue empty, has scanned head's segment
while the word of `*head_` stayed the same.

* `not_refused` — every enqueue that returns has put its item;
* `linearizable_of_undoOwn` — every run is a linearizable bag, if `committed` takes
  back only the item that its own call inserted (`undoOwn`);
* `not_linearizable_undoOther` — `committed` resets the counter of the slot to zero
  when it takes an item back, so the word of an earlier insertion can come back, and
  a delayed `committed` then takes back an item that another call inserted.
-/
import Scal.UnboundedSizeKFifoInvariant
import Scal.NotLinearizable

open Interleave Linearizability

namespace UnboundedSizeKFifo

variable {α : Type}

/-- Position `p` of the chain has segment `s`, and the segment of `w` follows it. -/
def Ghost.Link (g : Ghost α) (p s : ℕ) (w : AtomicPointer) : Prop :=
  g.chain[p]? = some s ∧ g.chain[p + 1]? = some w.value

/-- `h` was the word of `*head_`. -/
def HeadRead (σ : Shared α) (h : AtomicPointer) : Prop := σ.head = h ∨ h.aba < σ.head.aba

/-- Facts that stay true once they are true. -/
inductive Fact (α : Type) where
  | waiting
  /-- `w` was the word of `*tail_`. -/
  | tailRead (w : AtomicPointer)
  /-- Segment `s` is not beyond tail. -/
  | reached (s : ℕ)
  /-- None of the first `j` slots looked at in the segment of `h` holds an item that
  was kept ahead of head, or that is kept, if `*head_` still is `h`. -/
  | scanned (h : AtomicPointer) (random j : ℕ)
  | swept (h : AtomicPointer)
  /-- The bag was empty during the call, or `*head_` has changed, if `tl` is in the
  segment of `h`. -/
  | seenIf (h tl : AtomicPointer)
  /-- The segment of `tc` is not before that of `h`. -/
  | order (h tc : AtomicPointer)
  /-- `w` follows segment `s`, if it is not `NULL`. -/
  | next (s : ℕ) (w : AtomicPointer)
  /-- `hn` follows the segment of `h`, if tail was found in another segment, or in
  one that has a successor. -/
  | linkIf (h tc tn hn : AtomicPointer)
  | link (s : ℕ) (w : AtomicPointer)
  /-- `w` follows segment `s`, which tail has left. -/
  | past (s : ℕ) (w : AtomicPointer)
  | deleted (s : ℕ)
  | own (s : ℕ)
  /-- The call wrote `new` into the slot, as version `n`. -/
  | inserted (slot : ℕ × ℕ) (n : ℕ) (new : AtomicValue (Option α))
  /-- The item was put, and if nobody took it then it is kept ahead of head. -/
  | committed (slot : ℕ × ℕ) (n : ℕ)
  /-- `committed` has read `hc` from `*head_`. -/
  | decided (slot : ℕ × ℕ) (n : ℕ) (new : AtomicValue (Option α)) (hc : AtomicPointer)

/-- The item of the slot was put, and it is kept ahead of head unless somebody took it. -/
def Committed (t id : ℕ) (op : BagOp α) (σ : Shared α) (g : Ghost α) (slot : ℕ × ℕ) (n : ℕ) :
    Prop :=
  (pool σ g).Done t id op (.put true) ∧ n ≤ σ.version slot ∧
    (σ.version slot = n → g.mark slot = .kept true)

def WrittenAs (t id : ℕ) (op : BagOp α) (σ : Shared α) (g : Ghost α) (slot : ℕ × ℕ) (n : ℕ)
    (new : AtomicValue (Option α)) : Prop :=
  (pool σ g).Inserted t id op slot n false ∧ (σ.version slot = n → σ.slot slot = new)

def Fact.Holds (k t id : ℕ) (op : BagOp α) (σ : Shared α) (g : Ghost α) : Fact α → Prop
  | .waiting => (pool σ g).Waiting t id op
  | .tailRead w => ∃ q ≤ g.tp, g.chain[q]? = some w.value ∧ (σ.tail = w ∨ q < g.tp)
  | .reached s => ∃ q ≤ g.tp, g.chain[q]? = some s
  | .scanned h random j => HeadRead σ h ∧ (∃ p ≤ g.hp, g.chain[p]? = some h.value) ∧
    ∀ m < j, g.mark (h.value, (random + m) % k) ≠ .kept true ∧
      (σ.head = h → ∀ b, g.mark (h.value, (random + m) % k) ≠ .kept b)
  | .swept h => HeadRead σ h ∧ (∃ p ≤ g.hp, g.chain[p]? = some h.value) ∧
    ∀ m, g.mark (h.value, m) ≠ .kept true ∧ (σ.head = h → ∀ b, g.mark (h.value, m) ≠ .kept b)
  | .seenIf h tl => tl.value = h.value → (pool σ g).Seen t id ∨ h.aba < σ.head.aba
  | .order h tc => ∃ p q, g.chain[p]? = some h.value ∧ g.chain[q]? = some tc.value ∧ p ≤ q ∧
    q ≤ g.tp
  | .next s w => w.value ≠ 0 → ∃ p, g.Link p s w
  | .linkIf h tc tn hn => h.value ≠ tc.value ∨ tn.value ≠ 0 → ∃ p, g.Link p h.value hn
  | .link s w => ∃ p, g.Link p s w
  | .past s w => ∃ p < g.tp, g.Link p s w
  | .deleted s => (σ.segment s).deleted = true
  | .own s => Own t s σ g
  | .inserted slot n new => WrittenAs t id op σ g slot n new
  | .committed slot n => Committed t id op σ g slot n
  | .decided slot n new hc => Committed t id op σ g slot n ∧ slot.1 ≠ hc.value ∨
    WrittenAs t id op σ g slot n new ∧
      (g.mark slot = .pending t false →
        slot.1 = hc.value ∨ (σ.segment slot.1).deleted = true)

theorem tailRead_pos {k t id : ℕ} {op : BagOp α} {σ : Shared α} {g : Ghost α}
    {w : AtomicPointer} (h : (Fact.tailRead w).Holds k t id op σ g) :
    ∃ q : ℕ, g.chain[q]? = some w.value := by
  obtain ⟨q, -, hq, -⟩ := h
  exact ⟨q, hq⟩

section Stable

variable {t id n p s : ℕ} {op : BagOp α} {σ σ' : Shared α} {g g' : Ghost α} {slot : ℕ × ℕ}
  {new : AtomicValue (Option α)} {w : AtomicPointer}

theorem Ghost.Link.mono (hl : g.Link p s w) (hc : g.chain <+: g'.chain) : g'.Link p s w :=
  ⟨Chain.getElem?_mono hc hl.1, Chain.getElem?_mono hc hl.2⟩

theorem Committed.rely (hc : Committed t id op σ g slot n) (hr : Rely t σ g σ' g') :
    Committed t id op σ' g' slot n := by
  obtain ⟨hd, hle, hm⟩ := hc
  have hver : σ.version slot ≤ σ'.version slot := hr.slots.ver_le slot
  refine ⟨hd.rely hr.slots, hle.trans hver, fun hv => ?_⟩
  have hv' : σ.version slot = n := by omega
  exact hr.slots.kept slot true (hm hv') (hv.trans hv'.symm)

theorem WrittenAs.le (hw : WrittenAs t id op σ g slot n new) : n ≤ σ.version slot := by
  rcases hw.1 with ⟨-, hv, -⟩ | ⟨hv, -⟩
  · exact hv.ge
  · exact hv.le

theorem WrittenAs.rely (hw : WrittenAs t id op σ g slot n new) (hr : Rely t σ g σ' g') :
    WrittenAs t id op σ' g' slot n new := by
  have hver : σ.version slot ≤ σ'.version slot := hr.slots.ver_le slot
  refine ⟨hw.1.rely hr.slots, fun hv => ?_⟩
  have hle := hw.le
  have hv' : σ.version slot = n := by omega
  rw [hr.word slot (hv.trans hv'.symm)]
  exact hw.2 hv'

theorem HeadRead.rely {h : AtomicPointer} (hh : HeadRead σ h) (hr : Rely t σ g σ' g') :
    HeadRead σ' h := by
  rcases hh with rfl | hh
  · exact hr.head
  · exact .inr (hh.trans_le hr.head_le)

theorem HeadRead.le {h : AtomicPointer} (hh : HeadRead σ h) : h.aba ≤ σ.head.aba := by
  rcases hh with rfl | hh
  · exact le_rfl
  · exact hh.le

theorem Rely.reached (hr : Rely t σ g σ' g') (h : ∃ q ≤ g.tp, g.chain[q]? = some s) :
    ∃ q ≤ g'.tp, g'.chain[q]? = some s := by
  obtain ⟨q, hq, hs⟩ := h
  exact ⟨q, hq.trans hr.tp, Chain.getElem?_mono hr.chain hs⟩

/-- A slot in which a thread behind head saw no kept item stays so. -/
theorem Rely.clear (hr : Rely t σ g σ' g') {h : AtomicPointer} {m : ℕ}
    (ha : HeadRead σ h) (hp : ∃ p ≤ g.hp, g.chain[p]? = some h.value)
    (hm : g.mark (h.value, m) ≠ .kept true ∧ (σ.head = h → ∀ b, g.mark (h.value, m) ≠ .kept b)) :
    g'.mark (h.value, m) ≠ .kept true ∧
      (σ'.head = h → ∀ b, g'.mark (h.value, m) ≠ .kept b) := by
  obtain ⟨p, hp, hs⟩ := hp
  constructor
  · exact fun hk => hm.1 (hr.ahead p hp h.value hs m hk)
  · intro hw b hk
    obtain ⟨rfl, hsame⟩ := hr.head_back ha.le hw
    exact hm.2 rfl b (hr.kept hsame m b hk)

theorem Rely.behind (hr : Rely t σ g σ' g') (hp : ∃ p ≤ g.hp, g.chain[p]? = some s) :
    ∃ p ≤ g'.hp, g'.chain[p]? = some s := by
  obtain ⟨p, hp, hs⟩ := hp
  exact ⟨p, hp.trans hr.hp, Chain.getElem?_mono hr.chain hs⟩

theorem Fact.Holds.rely {k : ℕ} {F : Fact α} (hF : F.Holds k t id op σ g)
    (hr : Rely t σ g σ' g') : F.Holds k t id op σ' g' := by
  have hmono : ∀ {q m : ℕ}, g.chain[q]? = some m → g'.chain[q]? = some m :=
    Chain.getElem?_mono hr.chain
  cases F with
  | waiting => exact Pool.Waiting.rely hF hr.slots
  | tailRead w =>
    obtain ⟨q, hq, hs, hw⟩ := hF
    refine ⟨q, hq.trans hr.tp, hmono hs, ?_⟩
    rcases hw with hw | hw
    · exact hr.tail.imp (fun h => h.trans hw) fun h => hq.trans_lt h
    · exact .inr (hw.trans_le hr.tp)
  | reached s => exact hr.reached hF
  | scanned h random j =>
    exact ⟨hF.1.rely hr, hr.behind hF.2.1,
      fun m hm => hr.clear hF.1 hF.2.1 (hF.2.2 m hm)⟩
  | swept h =>
    exact ⟨hF.1.rely hr, hr.behind hF.2.1, fun m => hr.clear hF.1 hF.2.1 (hF.2.2 m)⟩
  | seenIf h tl =>
    exact fun he => (hF he).imp (fun hs => hs.rely hr.slots) fun hlt => hlt.trans_le hr.head_le
  | order h tc =>
    obtain ⟨p, q, hp, hq, hpq, hqt⟩ := hF
    exact ⟨p, q, hmono hp, hmono hq, hpq, hqt.trans hr.tp⟩
  | next s w => exact fun hw => (hF hw).imp fun p hl => hl.mono hr.chain
  | linkIf h tc tn hn => exact fun hw => (hF hw).imp fun p hl => hl.mono hr.chain
  | link s w => exact Exists.imp (fun p hl => hl.mono hr.chain) hF
  | past s w =>
    obtain ⟨p, hp, hl⟩ := hF
    exact ⟨p, hp.trans_le hr.tp, hl.mono hr.chain⟩
  | deleted s => exact hr.deleted s hF
  | own s => exact Own.rely hF hr
  | inserted slot n new => exact WrittenAs.rely hF hr
  | committed slot n => exact Committed.rely hF hr
  | decided slot n new hc =>
    rcases hF with ⟨hc, hne⟩ | ⟨hw, hp⟩
    · exact .inl ⟨hc.rely hr, hne⟩
    · refine .inr ⟨hw.rely hr, fun hm => ?_⟩
      exact (hp (hr.slots.pending_of hw.1 hm)).imp_right fun hd => hr.deleted _ hd

end Stable

/-- What a thread knows at each point of its call. -/
def Local.facts : Local α → List (Fact α)
  | .deqFind h random j => [.waiting, .scanned h random j]
  | .deqTail h none => [.waiting, .swept h]
  | .deqCheck h tl none => [.waiting, .tailRead tl, .swept h, .seenIf h tl]
  | .deqCheck _ tl (some _) => [.waiting, .tailRead tl]
  | .headRead h | .headTail h => [.waiting, .swept h]
  | .headTailNext h tc => [.waiting, .swept h, .tailRead tc, .order h tc]
  | .headNext h tc tn => [.waiting, .swept h, .tailRead tc, .order h tc, .next tc.value tn]
  | .headCheck h tc tn hn =>
    [.waiting, .swept h, .tailRead tc, .order h tc, .next tc.value tn, .linkIf h tc tn hn]
  | .headTailCheck h tc tn hn | .headTailSwing h tc tn hn =>
    [.waiting, .swept h, .tailRead tc, .link tc.value tn, .link h.value hn]
  | .headDelete h hn => [.waiting, .swept h, .past h.value hn]
  | .headSwing h hn => [.waiting, .swept h, .deleted h.value, .past h.value hn]
  | .tailRead _ tl | .tailNext _ tl => [.waiting, .tailRead tl]
  | .tailCheck _ tl nx => [.waiting, .tailRead tl, .next tl.value nx]
  | .tailHelp _ tl nx => [.waiting, .tailRead tl, .link tl.value nx]
  | .tailNew _ tl _ => [.waiting, .tailRead tl]
  | .tailLink _ tl _ s => [.waiting, .tailRead tl, .own s]
  | .tailSwing _ tl s => [.waiting, .tailRead tl, .link tl.value ⟨s, 0⟩]
  | .enqHead _ tl | .enqFind _ tl _ _ | .enqCheck _ tl _ => [.waiting, .tailRead tl]
  | .enqInsert _ tl _ => [.waiting, .tailRead tl]
  | .comSlot _ slot new n | .comHead _ slot new n => [.inserted slot n new, .reached slot.1]
  | .comDeleted _ slot new n hc => [.decided slot n new hc]
  | .comBump _ slot new n _ | .comUndo _ slot new n => [.inserted slot n new]
  | .comDeletedAgain _ slot _ n => [.committed slot n]
  | _ => [.waiting]

/-- What the local variables say without reference to the memory. -/
def Caller.Shape (op : BagOp α) : Caller α → Prop
  | .enqueue x => op = .put x
  | .dequeue _ found => op = .get ∧ found.old.value ≠ none

def Local.Shape (k : ℕ) (op : BagOp α) : Local α → Prop
  | .deqFind _ _ j => op = .get ∧ j < k
  | .deqTail _ (some found) | .deqCheck _ _ (some found) | .deqTake _ found =>
    op = .get ∧ found.old.value ≠ none
  | .deqHead | .deqTail _ none | .deqCheck _ _ none | .headRead _ | .headTail _
  | .headTailNext _ _ | .headNext _ _ _ | .headCheck _ _ _ _ | .headDelete _ _
  | .headSwing _ _ => op = .get
  | .headTailCheck h tc _ _ | .headTailSwing h tc _ _ => op = .get ∧ h.value = tc.value
  | .tailRead c _ | .tailNext c _ | .tailCheck c _ _ | .tailSwing c _ _ => c.Shape op
  | .tailHelp c _ nx => c.Shape op ∧ nx.value ≠ 0
  | .tailNew c _ nx | .tailLink c _ nx _ => c.Shape op ∧ nx.value = 0
  | .enqTail x | .enqHead x _ | .enqCheck x _ none => op = .put x
  | .enqFind x _ _ j => op = .put x ∧ j < k
  | .enqCheck x _ (some found) | .enqInsert x _ found =>
    op = .put x ∧ found.index < k ∧ found.old.value = none
  | .comSlot x slot _ _ | .comHead x slot _ _ | .comDeleted x slot _ _ _
  | .comDeletedAgain x slot _ _ | .comUndo x slot _ _ => op = .put x ∧ slot.2 < k
  | .comBump x slot _ _ hc => op = .put x ∧ slot.2 < k ∧ slot.1 = hc.value

/-- `committed` takes back only the item that its own call inserted: when the slot
still has the word of this insertion, it was not written since. -/
def undoOwn [DecidableEq α] (_ : ℕ) (σ : Shared α) : Local α → Bool
  | .comUndo _ slot new version => σ.slot slot ≠ new || σ.version slot = version
  | _ => true

/-! ### Scanning a segment -/

section Scan

variable {k t id : ℕ} {hist : List (Event (BagOp α) (BagRet α))} {op : BagOp α} {σ : Shared α}
  {g : Ghost α} {i : ℕ × ℕ}

theorem not_kept (hI : Inv k hist σ g) (hv : (σ.slot i).value = none) (b : Bool) :
    g.mark i ≠ .kept b := by
  have hf : g.mark i = .free := (hI.slots.free i).mpr hv
  rw [hf]
  simp

/-- A slot found without an item extends the scan. -/
theorem scanned_succ {h : AtomicPointer} {random j : ℕ}
    (hs : (Fact.scanned h random j).Holds k t id op σ g)
    (hm : ∀ b, g.mark (h.value, (random + j) % k) ≠ .kept b) :
    (Fact.scanned h random (j + 1)).Holds k t id op σ g := by
  refine ⟨hs.1, hs.2.1, fun m hlt => ?_⟩
  rcases Nat.lt_succ_iff_lt_or_eq.mp hlt with hlt | rfl
  · exact hs.2.2 m hlt
  · exact ⟨hm true, fun _ => hm⟩

theorem swept_of_scanned {h : AtomicPointer} {random : ℕ} (hI : Inv k hist σ g)
    (hs : (Fact.scanned h random k).Holds k t id op σ g) :
    (Fact.swept h).Holds k t id op σ g := by
  have hall : ∀ m b, g.mark (h.value, m) = .kept b → ∃ m' < k, m = (random + m') % k := by
    intro m b hk
    obtain ⟨m', hm', he⟩ := exists_index (r := random) (hI.kept _ b hk).1
    exact ⟨m', hm', he.symm⟩
  refine ⟨hs.1, hs.2.1, fun m => ⟨fun hk => ?_, fun hw b hk => ?_⟩⟩
  · obtain ⟨m', hm', rfl⟩ := hall m true hk
    exact (hs.2.2 m' hm').1 hk
  · obtain ⟨m', hm', rfl⟩ := hall m b hk
    exact (hs.2.2 m' hm').2 hw b hk

/-- If head's segment holds no kept item, and is tail's as well, the bag is empty. -/
theorem bag_eq_none (hI : Inv k hist σ g) (hno : ∀ m b, g.mark (σ.head.value, m) ≠ .kept b)
    (he : σ.tail.value = σ.head.value) (i : ℕ × ℕ) : (pool σ g).bag i = none := by
  rcases hm : g.mark i with _ | ⟨u, b⟩ | b
  · exact Pool.bag_of_free hm
  · exact Pool.bag_of_pending hm
  · obtain ⟨-, p, hp, hpt, hs⟩ := hI.kept i b hm
    have htp : g.tp = g.hp := hI.chain.pos_unique (he ▸ hI.tail) hI.head
    obtain rfl : p = g.hp := by omega
    have hseg : σ.head.value = i.1 := Option.some.inj (hI.head.symm.trans hs)
    exact absurd (hseg ▸ hm) (hno i.2 b)

end Scan

/-! ### One access -/

section Outline

variable [DecidableEq α] {k : ℕ}

structure Knows (t : ℕ) (f : Frame (machine k α)) (w : World (machine k α) (Ghost α)) :
    Prop where
  shape : f.loc.Shape k f.op
  facts : AllOf (Fact.Holds k t f.id f.op w.shared w.ghost) f.loc.facts

/-- The proof outline: every pending call knows the facts of its local state. -/
def outline (k : ℕ) (α : Type) [DecidableEq α] : Outline (machine k α) (Ghost α) where
  inv w := Inv k w.events w.shared w.ghost
  loc t
    | none, w => (pool w.shared w.ghost).Idle t
    | some f, w => Knows t f w
  rely u w w' := Rely u w.shared w.ghost w'.shared w'.ghost

variable {w : World (machine k α) (Ghost α)} {t : ℕ} {f : Frame (machine k α)}
  {σ : Shared α} {g : Ghost α} {l : Local α} {x : α}

/-- What is to be shown of every access `a` that the call `f` makes. -/
def StepOk (w : World (machine k α) (Ghost α)) (t : ℕ) (f : Frame (machine k α))
    (a : Shared α × (Local α ⊕ BagRet α)) : Prop :=
  (outline k α).Moves w t (Event.ofStep (M := machine k α) t a.2) a.1 (f.resume a.2)

/-- The call goes on at `l`. -/
theorem StepOk.go (hI : Inv k w.events σ g) (hr : ∀ u, u ≠ t → Rely u w.shared w.ghost σ g)
    (hshape : l.Shape k f.op) (hfacts : AllOf (Fact.Holds k t f.id f.op σ g) l.facts) :
    StepOk w t f (σ, .inl l) := by
  refine ⟨g, ?_, ⟨hshape, hfacts⟩, hr⟩
  have hI' : Inv k (w.events ++ [.tau t]) σ g := { hI with slots := hI.slots.tau t }
  simpa [outline, Event.ofStep] using hI'

/-- The call returns a result that is fixed already. -/
theorem StepOk.stop {r : BagRet α} (hI : Inv k w.events σ g)
    (hr : ∀ u, u ≠ t → Rely u w.shared w.ghost σ g)
    (hd : (pool σ g).Done t f.id f.op r) : StepOk w t f (σ, .inr r) := by
  obtain ⟨hP, hidle⟩ := hI.slots.res hd
  refine ⟨g.withPool ((pool σ g).setStat t .idle), ?_, hidle, fun u hu => (hr u hu).setStat hu⟩
  have hI' := hI.withPool rfl hP fun _ _ hj => hj
  simpa [outline, Event.ofStep] using hI'

/-- The call returns false, because the bag was empty. -/
theorem StepOk.stopNone (hI : Inv k w.events w.shared w.ghost)
    (hs : (pool w.shared w.ghost).Seen t f.id) : StepOk w t f (w.shared, .inr (.got none)) := by
  obtain ⟨hP, hidle⟩ := hI.slots.resNone hs
  refine ⟨w.ghost.withPool ((pool w.shared w.ghost).setStat t .idle), ?_, hidle,
    fun u hu => (Rely.refl ..).setStat hu⟩
  have hI' := hI.withPool rfl hP fun _ _ hj => hj
  simpa [outline, Event.ofStep] using hI'

/-- An access that only reads, after which the call goes on. -/
theorem StepOk.read (hI : Inv k w.events w.shared w.ghost) (hshape : l.Shape k f.op)
    (hfacts : AllOf (Fact.Holds k t f.id f.op w.shared w.ghost) l.facts) :
    StepOk w t f (w.shared, .inl l) :=
  .go hI (fun _ _ => .refl ..) hshape hfacts

/-- What a thread at `l` knows. -/
theorem Knows.at (hf : Knows t f w) (hl : f.loc = l) : l.Shape k f.op ∧
    AllOf (Fact.Holds k t f.id f.op w.shared w.ghost) l.facts := by
  subst hl
  exact ⟨hf.shape, hf.facts⟩

/-- After `advance_tail`. -/
theorem StepOk.resume (hI : Inv k w.events σ g) (hr : ∀ u, u ≠ t → Rely u w.shared w.ghost σ g)
    {c : Caller α} (hshape : c.Shape f.op) (hwait : (pool σ g).Waiting t f.id f.op) :
    StepOk w t f (σ, .inl c.resume) := by
  cases c with
  | enqueue x => exact .go hI hr hshape hwait
  | dequeue h found => exact .go hI hr hshape hwait

/-! ### The accesses of each operation -/

theorem dequeue_ok (hk : 0 < k) (hI : Inv k w.events w.shared w.ghost) (hf : Knows t f w)
    (random : ℕ) (l : Local α) :
    match l with
    | .deqHead | .deqFind _ _ _ | .deqTail _ _ | .deqCheck _ _ _ | .deqTake _ _ =>
      f.loc = l → StepOk w t f (step k random w.shared l)
    | _ => True := by
  cases l with
  | deqHead =>
    intro hl
    obtain ⟨hs, hwait⟩ := hf.at hl
    exact .read hI ⟨hs, hk⟩ ⟨hwait, .inl rfl, ⟨_, le_rfl, hI.head⟩, fun m hm => absurd hm (by omega)⟩
  | deqFind h r j =>
    intro hl
    obtain ⟨⟨hs, hj⟩, hwait, hscan⟩ := hf.at hl
    simp only [step]
    split_ifs with hv hj'
    · exact .read hI ⟨hs, hv⟩ hwait
    · rw [not_not] at hv
      exact .read hI ⟨hs, hj'⟩ ⟨hwait, scanned_succ hscan (not_kept hI hv)⟩
    · rw [not_not] at hv
      obtain rfl : j + 1 = k := by omega
      exact .read hI hs ⟨hwait, swept_of_scanned hI (scanned_succ hscan (not_kept hI hv))⟩
  | deqTail h found =>
    intro hl
    have htail : (Fact.tailRead w.shared.tail).Holds k t f.id f.op w.shared w.ghost :=
      ⟨_, le_rfl, hI.tail, .inl rfl⟩
    rcases found with _ | found
    · obtain ⟨hs, hwait, hswept⟩ := hf.at hl
      by_cases hnow : w.shared.head = h ∧ w.shared.tail.value = h.value
      · -- head's segment is tail's too, and holds no kept item: the bag is empty now
        obtain ⟨rfl, he⟩ := hnow
        have hop : f.op = .get := hs
        have hwait' : (pool w.shared w.ghost).Waiting t f.id .get := hop ▸ hwait
        obtain ⟨hP, hseen⟩ := hI.slots.observe hwait'
          (bag_eq_none hI (fun m => (hswept.2.2 m).2 rfl) he)
        refine .go (hI.withPool rfl hP fun _ _ hj => hj) (fun u hu => (Rely.refl ..).setStat hu) hs
          ⟨?_, htail, hswept, fun _ => .inl hseen⟩
        rw [hop]
        exact hseen.waiting
      · refine .read hI hs ⟨hwait, htail, hswept, fun he => .inr ?_⟩
        exact hswept.1.resolve_left fun hw => hnow ⟨hw, he⟩
    · obtain ⟨hs, hwait⟩ := hf.at hl
      exact .read hI hs ⟨hwait, htail⟩
  | deqCheck h tl found =>
    intro hl
    simp only [step]
    rcases found with _ | found
    · obtain ⟨hs, hwait, htl, hswept, hseen⟩ := hf.at hl
      split_ifs with hh he
      · refine .stopNone hI ((hseen he.symm).resolve_right ?_)
        rw [hh]
        exact Nat.lt_irrefl _
      · exact .read hI hs ⟨hwait, hswept⟩
      · exact .read hI hs hwait
    · obtain ⟨hs, hwait, htl⟩ := hf.at hl
      split_ifs with hh he
      · exact .read hI hs ⟨hwait, htl⟩
      · exact .read hI hs hwait
      · exact .read hI hs.1 hwait
  | deqTake h found =>
    intro hl
    obtain ⟨⟨hs, hv⟩, hwait⟩ := hf.at hl
    simp only [step]
    split_ifs with hcas
    · obtain ⟨y, hy⟩ := Option.ne_none_iff_exists'.mp hv
      have hop : f.op = .get := hs
      have hwait' : (pool w.shared w.ghost).Waiting t f.id .get := hop ▸ hwait
      have hslot : (w.shared.slot (h.value, found.index)).value = some y := hcas ▸ hy
      obtain ⟨hP, hd, hr⟩ := hI.slots.take hwait' (i := (h.value, found.index)) hslot
      have hpool := pool_take (σ := w.shared) (g := w.ghost) (t := t)
        (i := (h.value, found.index)) (found.old.aba + 1)
      have hkept : ∀ j b, ((pool w.shared w.ghost).take t (h.value, found.index)).mark j =
          .kept b → w.ghost.mark j = .kept b := by
        intro j b hj
        by_cases hji : j = (h.value, found.index)
        · subst hji
          simp [Pool.take, Pool.withdraw] at hj
        · simp only [Pool.take, Pool.withdraw, Function.update_of_ne hji] at hj
          exact hj
      refine .stop (hI.setSlot hpool hP (hI.lt_alloc (by simp [hslot])) hkept)
        (fun u hu => rely_setSlot hpool (hr u hu) hkept) ?_
      rw [hpool, hop, hy]
      exact hd
    · exact .read hI hs hwait
  | _ => trivial

/-- Tail has left the segment of `h`, if it had that segment when its word was `tc`. -/
theorem past_of_ne (hI : Inv k w.events w.shared w.ghost) {h tc hn : AtomicPointer} {id : ℕ}
    {op : BagOp α} (he : h.value = tc.value)
    (htail : (Fact.tailRead tc).Holds k t id op w.shared w.ghost)
    (hlink : (Fact.link h.value hn).Holds k t id op w.shared w.ghost)
    (hne : w.shared.tail ≠ tc) : (Fact.past h.value hn).Holds k t id op w.shared w.ghost := by
  obtain ⟨q, -, hq, htc⟩ := htail
  obtain ⟨p, hp⟩ := hlink
  obtain rfl := hI.chain.pos_unique hp.1 (he ▸ hq)
  exact ⟨p, htc.resolve_left hne, hp⟩

theorem advanceHead_ok (hI : Inv k w.events w.shared w.ghost) (hf : Knows t f w) (random : ℕ)
    (l : Local α) :
    match l with
    | .headRead _ | .headTail _ | .headTailNext _ _ | .headNext _ _ _ | .headCheck _ _ _ _
    | .headTailCheck _ _ _ _ | .headTailSwing _ _ _ _ | .headDelete _ _ | .headSwing _ _ =>
      f.loc = l → StepOk w t f (step k random w.shared l)
    | _ => True := by
  cases l with
  | headRead h =>
    intro hl
    obtain ⟨hs, hwait, hswept⟩ := hf.at hl
    simp only [step]
    split_ifs with hh
    · exact .read hI hs ⟨hwait, hswept⟩
    · exact .read hI hs hwait
  | headTail h =>
    intro hl
    obtain ⟨hs, hwait, hswept⟩ := hf.at hl
    obtain ⟨p, hp, hps⟩ := hswept.2.1
    exact .read hI hs ⟨hwait, hswept, ⟨_, le_rfl, hI.tail, .inl rfl⟩,
      ⟨p, _, hps, hI.tail, hp.trans hI.le, le_rfl⟩⟩
  | headTailNext h tc =>
    intro hl
    obtain ⟨hs, hwait, hswept, htail, horder⟩ := hf.at hl
    obtain ⟨q, hq⟩ := tailRead_pos htail
    exact .read hI hs ⟨hwait, hswept, htail, horder,
      fun hne => ⟨q, hq, hI.chain.next_some hq hne⟩⟩
  | headNext h tc tn =>
    intro hl
    obtain ⟨hs, hwait, hswept, htail, horder, hnext⟩ := hf.at hl
    refine .read hI hs ⟨hwait, hswept, htail, horder, hnext, fun hor => ?_⟩
    obtain ⟨p, q, hp, hq, hpq, -⟩ := horder
    refine ⟨p, hp, hI.chain.next_some hp fun h0 => ?_⟩
    -- the chain does not end at the segment of `h`
    have hend := (hI.chain.next_eq_zero hp).mp h0
    rcases hor with hne | hne
    · have hqlt := Chain.lt_length hq
      obtain rfl : p = q := by omega
      exact hne (Option.some.inj (hp.symm.trans hq))
    · obtain ⟨q', hq', hlink⟩ := hnext hne
      obtain rfl := hI.chain.pos_unique hq hq'
      have hlt := Chain.lt_length hlink
      omega
  | headCheck h tc tn hn =>
    intro hl
    obtain ⟨hs, hwait, hswept, htail, horder, hnext, hlink⟩ := hf.at hl
    simp only [step]
    split_ifs with hh he h0
    · exact .read hI hs hwait
    · exact .read hI ⟨hs, he⟩ ⟨hwait, hswept, htail, hnext h0, hlink (.inr h0)⟩
    · refine .read hI hs ⟨hwait, hswept, ?_⟩
      obtain ⟨p, hp⟩ := hlink (.inl he)
      obtain ⟨p', q, hp', hq, hpq, hqt⟩ := horder
      obtain rfl := hI.chain.pos_unique hp.1 hp'
      have hne : p ≠ q := fun hpq => he (Option.some.inj (hp'.symm.trans (hpq ▸ hq)))
      exact ⟨p, by omega, hp⟩
    · exact .read hI hs hwait
  | headTailCheck h tc tn hn =>
    intro hl
    obtain ⟨hs, hwait, hswept, htail, htn, hlink⟩ := hf.at hl
    simp only [step]
    split_ifs with hcas
    · exact .read hI hs ⟨hwait, hswept, htail, htn, hlink⟩
    · exact .read hI hs.1 ⟨hwait, hswept, past_of_ne hI hs.2 htail hlink (Ne.symm hcas)⟩
  | headTailSwing h tc tn hn =>
    intro hl
    obtain ⟨hs, hwait, hswept, htail, htn, hlink⟩ := hf.at hl
    simp only [step]
    split_ifs with hcas
    · obtain ⟨q, htn⟩ := htn
      obtain rfl : q = w.ghost.tp := hI.chain.pos_unique htn.1 (hcas ▸ hI.tail)
      obtain ⟨hI', hr⟩ := hI.moveTail (a := tc.aba + 1) htn.2
      refine .go hI' (fun u _ => hr u) hs.1 ⟨hwait, hswept.rely (hr t), ?_⟩
      obtain ⟨p, hp⟩ := hlink
      have hpt := hI.chain.pos_unique hp.1 (hs.2 ▸ htn.1)
      exact ⟨p, Nat.lt_succ_of_le hpt.le, hp⟩
    · exact .read hI hs.1 ⟨hwait, hswept, past_of_ne hI hs.2 htail hlink hcas⟩
  | headDelete h hn =>
    intro hl
    obtain ⟨hs, hwait, hswept, hpast⟩ := hf.at hl
    obtain ⟨p, hp, hps⟩ := hswept.2.1
    obtain ⟨hI', hdel, hr⟩ := hI.delete hp hps fun m => (hswept.2.2 m).1
    exact .go hI' (fun u _ => hr u) hs
      ⟨Fact.Holds.rely (F := .waiting) hwait (hr t), hswept.rely (hr t), hdel, hpast.rely (hr t)⟩
  | headSwing h hn =>
    intro hl
    obtain ⟨hs, hwait, hswept, hdel, hpast⟩ := hf.at hl
    simp only [step]
    split_ifs with hcas
    · subst hcas
      obtain ⟨p, hp, hlink⟩ := hpast
      obtain rfl := hI.chain.pos_unique hlink.1 hI.head
      obtain ⟨hI', hr⟩ := hI.moveHead hlink.2 hp hdel fun m => (hswept.2.2 m).2 rfl
      exact .go hI' (fun u _ => hr u) hs hwait
    · exact .read hI hs hwait
  | _ => trivial

theorem advanceTail_ok (hI : Inv k w.events w.shared w.ghost) (hf : Knows t f w) (random : ℕ)
    (l : Local α) :
    match l with
    | .tailRead _ _ | .tailNext _ _ | .tailCheck _ _ _ | .tailHelp _ _ _ | .tailNew _ _ _
    | .tailLink _ _ _ _ | .tailSwing _ _ _ =>
      f.loc = l → StepOk w t f (step k random w.shared l)
    | _ => True := by
  have hread : ∀ u, u ≠ t → Rely u w.shared w.ghost w.shared w.ghost := fun _ _ => .refl ..
  cases l with
  | tailRead c tl =>
    intro hl
    obtain ⟨hs, hwait, htail⟩ := hf.at hl
    simp only [step]
    split_ifs with hh
    · exact .read hI hs ⟨hwait, htail⟩
    · exact .resume hI hread hs hwait
  | tailNext c tl =>
    intro hl
    obtain ⟨hs, hwait, htail⟩ := hf.at hl
    obtain ⟨q, hq⟩ := tailRead_pos htail
    exact .read hI hs ⟨hwait, htail, fun hne => ⟨q, hq, hI.chain.next_some hq hne⟩⟩
  | tailCheck c tl nx =>
    intro hl
    obtain ⟨hs, hwait, htail, hnext⟩ := hf.at hl
    simp only [step]
    split_ifs with hh h0
    · exact .read hI ⟨hs, h0⟩ ⟨hwait, htail, hnext h0⟩
    · exact .read hI ⟨hs, not_not.mp h0⟩ ⟨hwait, htail⟩
    · exact .resume hI hread hs hwait
  | tailHelp c tl nx =>
    intro hl
    obtain ⟨hs, hwait, htail, q, hlink⟩ := hf.at hl
    simp only [step]
    split_ifs with hcas
    · obtain rfl : q = w.ghost.tp := hI.chain.pos_unique hlink.1 (hcas ▸ hI.tail)
      obtain ⟨hI', hr⟩ := hI.moveTail (a := nx.aba + 1) hlink.2
      exact .resume hI' (fun u _ => hr u) hs.1 hwait
    · exact .resume hI hread hs.1 hwait
  | tailNew c tl nx =>
    intro hl
    obtain ⟨hs, hwait, htail⟩ := hf.at hl
    obtain ⟨hI', hown, hr⟩ := hI.ksegmentNew t
    exact .go hI' (fun u _ => hr u) hs
      ⟨Fact.Holds.rely (F := .waiting) hwait (hr t), htail.rely (hr t), hown⟩
  | tailLink c tl nx s =>
    intro hl
    obtain ⟨hs, hwait, htail, hown⟩ := hf.at hl
    simp only [step]
    split_ifs with hcas
    · obtain ⟨q, hq, hqs, htl⟩ := htail
      have h0 : (w.shared.segment tl.value).next = ⟨0, 0⟩ :=
        hI.chain.next_none hqs (hcas ▸ hs.2)
      obtain ⟨hI', hlink, hr⟩ := hI.link hown hqs h0
      obtain rfl : nx = ⟨0, 0⟩ := hcas.symm.trans h0
      refine .go hI' hr hs.1 ⟨?_, ⟨q, hq, Chain.getElem?_mono (List.prefix_append ..) hqs, htl⟩,
        ⟨q, Chain.getElem?_mono (List.prefix_append ..) hqs, hlink⟩⟩
      show (pool _ _).Waiting _ _ _
      rw [pool_setNext]
      exact hwait
    · exact .resume hI hread hs.1 hwait
  | tailSwing c tl s =>
    intro hl
    obtain ⟨hs, hwait, htail, q, hlink⟩ := hf.at hl
    simp only [step]
    split_ifs with hcas
    · obtain rfl : q = w.ghost.tp := hI.chain.pos_unique hlink.1 (hcas ▸ hI.tail)
      obtain ⟨hI', hr⟩ := hI.moveTail (a := tl.aba + 1) hlink.2
      exact .resume hI' (fun u _ => hr u) hs hwait
    · exact .resume hI hread hs hwait
  | _ => trivial

theorem enqueue_ok (hk : 0 < k) (hI : Inv k w.events w.shared w.ghost) (hf : Knows t f w)
    (random : ℕ) (l : Local α) :
    match l with
    | .enqTail _ | .enqHead _ _ | .enqFind _ _ _ _ | .enqCheck _ _ _ | .enqInsert _ _ _ =>
      f.loc = l → StepOk w t f (step k random w.shared l)
    | _ => True := by
  cases l with
  | enqTail x =>
    intro hl
    obtain ⟨hs, hwait⟩ := hf.at hl
    exact .read hI hs ⟨hwait, _, le_rfl, hI.tail, .inl rfl⟩
  | enqHead x tl =>
    intro hl
    obtain ⟨hs, hwait, htail⟩ := hf.at hl
    exact .read hI ⟨hs, hk⟩ ⟨hwait, htail⟩
  | enqFind x tl r j =>
    intro hl
    obtain ⟨⟨hs, hj⟩, hwait, htail⟩ := hf.at hl
    simp only [step]
    split_ifs with hv hj'
    · exact .read hI ⟨hs, Nat.mod_lt _ hk, hv⟩ ⟨hwait, htail⟩
    · exact .read hI ⟨hs, hj'⟩ ⟨hwait, htail⟩
    · exact .read hI hs ⟨hwait, htail⟩
  | enqCheck x tl found =>
    intro hl
    obtain ⟨hs, hwait, htail⟩ := hf.at hl
    simp only [step]
    rcases found with _ | found
    · split_ifs with hcas
      · exact .read hI hs ⟨hwait, htail⟩
      · exact .read hI hs hwait
    · split_ifs with hcas
      · exact .read hI hs ⟨hwait, htail⟩
      · exact .read hI hs.1 hwait
  | enqInsert x tl found =>
    intro hl
    obtain ⟨⟨hs, hidx, hv⟩, hwait, q, hq, hqs, htl⟩ := hf.at hl
    simp only [step]
    split_ifs with hcas
    · have hop : f.op = .put x := hs
      have hwait' : (pool w.shared w.ghost).Waiting t f.id (.put x) := hop ▸ hwait
      obtain ⟨hP, hins, hr⟩ := hI.slots.insert hwait' (i := (tl.value, found.index))
        (by rw [← hv, ← hcas]; rfl) false
      have hpool := pool_insert (σ := w.shared) (g := w.ghost) (t := t)
        (i := (tl.value, found.index)) (x := x) (p := false) (found.old.aba + 1)
      have hkept : ∀ j b, ((pool w.shared w.ghost).insert t (tl.value, found.index) x
          false).mark j = .kept b → w.ghost.mark j = .kept b := by
        intro j b hj
        by_cases hji : j = (tl.value, found.index)
        · subst hji
          simp [Pool.insert] at hj
        · simp only [Pool.insert, Function.update_of_ne hji] at hj
          exact hj
      refine .go (hI.setSlot hpool hP (hI.chain.lt_alloc hqs) hkept)
        (fun u hu => rely_setSlot hpool (hr u hu) hkept) ⟨hs, hidx⟩ ⟨⟨?_, fun _ => ?_⟩, q, hq, hqs⟩
      · rw [hpool, hop]
        exact hins
      · rw [slot_setSlot, Function.update_self]
    · exact .read hI hs hwait
  | _ => trivial

/-- `committed` returns true when the item is not in its slot any more. -/
theorem stop_of_gone (hI : Inv k w.events w.shared w.ghost) {slot : ℕ × ℕ} {n : ℕ} {new : AtomicValue (Option α)}
    (hw : WrittenAs t f.id f.op w.shared w.ghost slot n new) (hne : w.shared.slot slot ≠ new) :
    StepOk w t f (w.shared, .inr (.put true)) := by
  rcases hw.1 with ⟨-, hv, -⟩ | ⟨-, hd⟩
  · exact absurd (hw.2 hv) hne
  · exact .stop hI (fun _ _ => .refl ..) hd

/-- An item that was put and whose segment is flagged as deleted was taken. -/
theorem Committed.taken (hI : Inv k w.events w.shared w.ghost) {id n : ℕ} {op : BagOp α}
    {slot : ℕ × ℕ} {new : AtomicValue (Option α)}
    (hc : Committed t id op w.shared w.ghost slot n)
    (hdel : (w.shared.segment slot.1).deleted = true) :
    WrittenAs t id op w.shared w.ghost slot n new := by
  obtain ⟨hd, hle, hm⟩ := hc
  have hne : w.shared.version slot ≠ n := by
    intro hv
    rw [hI.ahead slot (hm hv)] at hdel
    cases hdel
  exact ⟨.inr ⟨Nat.lt_of_le_of_ne hle (Ne.symm hne), hd⟩, fun hv => absurd hv hne⟩

theorem committed_ok (hI : Inv k w.events w.shared w.ghost) (hf : Knows t f w)
    (hok : undoOwn t w.shared f.loc) (random : ℕ) (l : Local α) :
    match l with
    | .comSlot _ _ _ _ | .comHead _ _ _ _ | .comDeleted _ _ _ _ _ | .comBump _ _ _ _ _
    | .comDeletedAgain _ _ _ _ | .comUndo _ _ _ _ =>
      f.loc = l → StepOk w t f (step k random w.shared l)
    | _ => True := by
  cases l with
  | comSlot x slot new n =>
    intro hl
    obtain ⟨⟨hs, hidx⟩, hw, hreach⟩ := hf.at hl
    simp only [step]
    split_ifs with hv
    · exact stop_of_gone hI hw hv
    · exact .read hI ⟨hs, hidx⟩ ⟨hw, hreach⟩
  | comHead x slot new n =>
    intro hl
    obtain ⟨⟨hs, hidx⟩, hw, p, hp, hps⟩ := hf.at hl
    have hop : f.op = .put x := hs
    rcases hw.1 with ⟨hm, hv, s, hst⟩ | ⟨hv, hd⟩
    · rcases Nat.lt_trichotomy p w.ghost.hp with hlt | rfl | hlt
      · -- head is beyond the item's segment
        exact .read hI ⟨hs, hidx⟩ (.inr ⟨hw, fun _ => .inr (hI.passed p _ hlt hps)⟩)
      · have hhead : slot.1 = w.shared.head.value := Option.some.inj (hps.symm.trans hI.head)
        exact .read hI ⟨hs, hidx⟩ (.inr ⟨hw, fun _ => .inl hhead⟩)
      · -- head is behind it: the item is put now
        rw [hop] at hst
        have hne : slot.1 ≠ w.shared.head.value := fun he =>
          hlt.ne (hI.chain.pos_unique hI.head (he ▸ hps))
        obtain ⟨hI', hr⟩ := hI.keepAhead hm hst hidx hps hlt hp
        refine .go hI' hr ⟨hs, hidx⟩ (.inl ⟨⟨?_, hv.ge, fun _ => ?_⟩, hne⟩)
        · rw [hop]
          exact (hI.slots.keep hm hst true).2.1
        · exact Function.update_self ..
    · refine .read hI ⟨hs, hidx⟩ (.inr ⟨hw, fun hm => ?_⟩)
      exact absurd hm (hd.1 slot false)
  | comDeleted x slot new n hc =>
    intro hl
    obtain ⟨⟨hs, hidx⟩, hdec⟩ := hf.at hl
    simp only [step]
    split_ifs with hdel he
    · refine .read hI ⟨hs, hidx⟩ ?_
      rcases hdec with ⟨hcom, -⟩ | ⟨hw, -⟩
      · exact hcom.taken hI hdel
      · exact hw
    · refine .read hI ⟨hs, hidx, he⟩ ?_
      rcases hdec with ⟨-, hne⟩ | ⟨hw, -⟩
      · exact absurd he hne
      · exact hw
    · refine .read hI ⟨hs, hidx⟩ ?_
      rcases hdec with ⟨hcom, -⟩ | ⟨hw, hpend⟩
      · exact hcom
      · rcases hw.1 with ⟨hm, -, -⟩ | ⟨hlt, hd⟩
        · rcases hpend hm with h | h
          · exact absurd h he
          · exact absurd h hdel
        · exact ⟨hd, hlt.le, fun hv => absurd hv hlt.ne'⟩
  | comBump x slot new n hc =>
    intro hl
    obtain ⟨⟨hs, hidx, he⟩, hw⟩ := hf.at hl
    simp only [step]
    split_ifs with hcas
    · subst hcas
      have hop : f.op = .put x := hs
      rcases hw.1 with ⟨hm, -, s, hst⟩ | ⟨-, hd⟩
      · rw [hop] at hst
        obtain ⟨hI', hr⟩ := hI.keepAtHead hm hst hidx he (Nat.lt_succ_self _)
        refine .stop hI' hr ?_
        rw [hop]
        exact (hI.slots.keep hm hst false).2.1
      · obtain ⟨hI', hr⟩ := hI.bumpHead (Nat.lt_succ_self _)
        exact .stop hI' (fun u _ => hr u) hd
    · exact .read hI ⟨hs, hidx⟩ hw
  | comDeletedAgain x slot new n =>
    intro hl
    obtain ⟨⟨hs, hidx⟩, hcom⟩ := hf.at hl
    have hcom : Committed t f.id f.op w.shared w.ghost slot n := hcom
    simp only [step]
    split_ifs with hdel
    · exact .stop hI (fun _ _ => .refl ..) hcom.1
    · exact .read hI ⟨hs, hidx⟩ (hcom.taken hI (by simpa using hdel))
  | comUndo x slot new n =>
    intro hl
    obtain ⟨⟨hs, hidx⟩, hw⟩ := hf.at hl
    have hw : WrittenAs t f.id f.op w.shared w.ghost slot n new := hw
    simp only [undoOwn, hl, ne_eq, decide_not, Bool.or_eq_true, Bool.not_eq_true',
      decide_eq_false_iff_not, decide_eq_true_eq] at hok
    simp only [step]
    split_ifs with hcas
    · -- the slot was not written since the call wrote it
      have hv := hok.resolve_left (not_not.mpr hcas)
      rcases hw.1 with ⟨hm, -, s, hst⟩ | ⟨hlt, -⟩
      · obtain ⟨hP, hwait, hr⟩ := hI.slots.withdraw hm hst
        have hpool := pool_withdraw (σ := w.shared) (g := w.ghost) (i := slot) 0
        have hkept : ∀ j b, ((pool w.shared w.ghost).withdraw slot).mark j = .kept b →
            w.ghost.mark j = .kept b := by
          intro j b hj
          by_cases hji : j = slot
          · subst hji
            simp [Pool.withdraw] at hj
          · simp only [Pool.withdraw, Function.update_of_ne hji] at hj
            exact hj
        obtain ⟨id', y, s', -, hy⟩ := hI.slots.pending slot t false hm
        have hy : (w.shared.slot slot).value = some y := hy
        refine .go (hI.setSlot hpool hP (hI.lt_alloc (by simp [hy])) hkept)
          (fun u hu => rely_setSlot hpool (hr u hu) hkept) hs ?_
        show (pool _ _).Waiting _ _ _
        rw [hpool]
        exact hwait
      · exact absurd hv hlt.ne'
    · exact stop_of_gone hI hw hcas
  | _ => trivial

theorem step_ok (hk : 0 < k) (hI : Inv k w.events w.shared w.ghost) (hf : Knows t f w)
    (hok : undoOwn t w.shared f.loc) (random : ℕ) :
    StepOk w t f (step k random w.shared f.loc) := by
  have hdeq := dequeue_ok hk hI hf random f.loc
  have hhead := advanceHead_ok hI hf random f.loc
  have htail := advanceTail_ok hI hf random f.loc
  have henq := enqueue_ok hk hI hf random f.loc
  have hcom := committed_ok hI hf hok random f.loc
  cases hl : f.loc <;> rw [hl] at hdeq hhead htail henq hcom <;>
    first
      | exact hdeq rfl
      | exact hhead rfl
      | exact htail rfl
      | exact henq rfl
      | exact hcom rfl

/-! ### All runs -/

omit [DecidableEq α] in
theorem inv_init : Inv k [] (Shared.init : Shared α)
    ⟨[1], fun _ => 0, 0, 0, fun _ => .free, fun _ => .idle⟩ where
  slots := Pool.inv_init _
  chain := Chain.singleton Nat.one_ne_zero Nat.one_lt_two rfl
  head := rfl
  tail := rfl
  le := le_rfl
  fresh := fun _ _ => rfl
  deleted := fun s hs => by simp [Shared.init, KSegment.new] at hs
  passed := fun p s hp => absurd hp (Nat.not_lt_zero p)
  kept := fun i b hi => by simp at hi
  ahead := fun i hi => by simp at hi

theorem outline_sound (hk : 0 < k) : (outline k α).Sound undoOwn where
  init := ⟨_, inv_init, fun _ => ⟨fun _ _ => by simp [pool], rfl⟩⟩
  stable := by
    rintro w e σ g t (_ | f) - - hf - hr
    · exact Pool.Idle.rely hf hr.slots
    · exact ⟨hf.shape, hf.facts.imp fun F hF => hF.rely hr⟩
  call := by
    intro w t op hI hidle _
    obtain ⟨hP, hwait⟩ := hI.slots.inv hidle op
    refine ⟨w.ghost.withPool
      ((pool w.shared w.ghost).setStat t (.pending w.events.length op false)), ?_, ?_,
      fun u hu => (Rely.refl ..).setStat hu⟩
    · have hI' := hI.withPool rfl hP fun _ _ hj => hj
      simpa [outline] using hI'
    · rw [World.length_events] at hwait ⊢
      cases op
      · exact ⟨rfl, hwait⟩
      · exact ⟨rfl, hwait⟩
  run := by
    intro w t f random σ o hI hf hok hs
    have h := step_ok hk hI hf hok random
    rw [Option.some.inj hs] at h
    exact h

/-- An enqueue returns true only. -/
theorem step_not_refused (random : ℕ) (σ : Shared α) (l : Local α) {r : BagRet α} :
    (step k random σ l).2 = .inr r → r.refused = false := by
  fun_cases step k random σ l <;> intro h <;> cases h <;> rfl

theorem not_refused {ok : ℕ → Shared α → Local α → Bool} {c : Config (machine k α)}
    (hc : Reach (machine k α) ok c) :
    ∀ t r, .res t r ∈ c.events → r.refused = false :=
  hc.responses fun _ _ _ hs =>
    step_not_refused _ _ _ (congrArg Prod.snd (Option.some.inj hs))

/-- **The unbounded-size k-FIFO queue is a linearizable bag** in every run in which
`committed` takes back only what its own call inserted. -/
theorem linearizable_of_undoOwn (hk : 0 < k) {c : Config (machine k α)}
    (hc : Reach (machine k α) undoOwn c) : Linearizable (unboundedBagSpec α) c.events := by
  obtain ⟨g, hinv, -⟩ := (outline_sound hk).reach hc
  exact hinv.slots.lin.linearizable.unbounded (not_refused hc)

/-- Thread 1 changes the word of `*head_`, and so thread 0 takes its item back and
inserts it once more. -/
def undone : List (Action (machine 2 ℕ)) :=
  List.flatten [[.call 0 (.put 5)], turns 0 0 8, [.call 1 (.put 8)], turns 1 0 10, turns 0 0 11]

theorem linearizable_undone :
    ∃ c : Config (machine 2 ℕ), c.events.length = 31 ∧
      Linearizable (unboundedBagSpec ℕ) c.events := by
  have h : ((Config.init (machine 2 ℕ)).exec undoOwn undone).isSome = true := by decide
  exact ⟨((Config.init (machine 2 ℕ)).exec undoOwn undone).get h, rfl,
    linearizable_of_undoOwn (by decide) (Reach.schedule undone h)⟩

/-- Thread 0 inserts `5` into slot 0 and is delayed in `committed`.  Thread 1 takes
the item, and does not move tail since thread 2 links a segment first.  Thread 3
inserts `7` into slot 0, and takes it back as thread 4 changes the word of `*head_`;
that resets the counter of slot 0.  Thread 5 then puts `5` into slot 0, with the word
that thread 0 wrote.  Thread 0 goes on and takes that item back.  Thread 4 gets what
it put; thread 5 finds the queue empty. -/
def undoOther : List (Action (machine 2 ℕ)) :=
  List.flatten [[.call 0 (.put 5)], turns 0 0 8, [.call 1 .get], turns 1 0 7,
    [.call 2 .get], turns 2 0 9, turns 1 0 3, [.call 3 (.put 7)], turns 3 0 8,
    [.call 4 (.put 8)], turns 4 0 10, turns 3 0 2, [.call 5 (.put 5)], turns 5 0 9, turns 0 0 2,
    [.call 4 .get], turns 4 0 10, [.call 5 .get], turns 5 0 17, turns 2 0 7]

set_option maxRecDepth 4000 in
/-- **Not every run is a linearizable bag.** -/
theorem not_linearizable_undoOther : ∃ c : Config (machine 2 ℕ),
    Reach (machine 2 ℕ) always c ∧ ¬ Linearizable (unboundedBagSpec ℕ) c.events := by
  have h : ((Config.init (machine 2 ℕ)).exec always undoOther).isSome = true := by
    decide
  exact ⟨_, Reach.schedule undoOther h, fun hl => not_linearizable_of_lost (x := 5) (i := 52)
    (j := 61) (g := 75) rfl rfl rfl (by decide) rfl hl.bounded⟩

end Outline

end UnboundedSizeKFifo

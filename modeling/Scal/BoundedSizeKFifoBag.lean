/-
The bounded-size k-FIFO queue as a linearizable bag.

An inserted item is kept once `committed` has seen it ahead of `*head_`, or has
changed the word of `*head_` while the item is in head's segment.  The invariant
(`Inv`) is that no kept item is behind `*head_`: a thread that found head's
segment empty moves `*head_` only if its word is still the same, and so no item
has been kept in that segment meanwhile.

* `linearizable_of_headBehindTail` — every run is a linearizable bag, if no `committed` reads a
  head position beyond the tail position it read just before, while its item is
  in its slot (`headBehindTail`);
* `not_linearizable_keptBehindHead` — otherwise an item can be left behind `*head_`, and a
  dequeue finds the queue empty.
-/
import Scal.BoundedSizeKFifo
import Scal.SlotPool
import Scal.NotLinearizable

open Interleave Linearizability

namespace BoundedSizeKFifo

variable {α : Type}

/-- Slot `i` belongs to the segment at position `p`. -/
def Params.Place (c : Params) (i p : ℕ) : Prop :=
  c.k ∣ p ∧ ∃ j < c.k, i = (p + j) % c.queueSize

structure Ghost (α : Type) where
  mark : ℕ → Mark ℕ
  stat : ℕ → Status α

/-- The slots as a pool; marks carry the position at which an item was inserted. -/
def pool (σ : Shared α) (g : Ghost α) : Pool ℕ α ℕ :=
  ⟨fun i => (σ.queue i).value, fun i => (σ.queue i).aba, g.mark, g.stat⟩

def ghost (P : Pool ℕ α ℕ) : Ghost α := ⟨P.mark, P.stat⟩

structure Inv (c : Params) (h : List (Event (BagOp α) (BagRet α))) (σ : Shared α)
    (g : Ghost α) : Prop where
  slots : (pool σ g).Inv h
  head_dvd : c.k ∣ σ.head.value
  tail_dvd : c.k ∣ σ.tail.value
  kept : ∀ i p, g.mark i = .kept p → c.Place i p ∧ σ.head.value ≤ p ∧ p ≤ σ.tail.value

/-- What thread `u` relies on about the steps of other threads. -/
structure Rely (u : ℕ) (σ : Shared α) (g : Ghost α) (σ' : Shared α) (g' : Ghost α) : Prop where
  slots : Pool.Rely u (pool σ g) (pool σ' g')
  head : σ'.head = σ.head ∨ σ.head.aba < σ'.head.aba
  tail : σ.tail.value ≤ σ'.tail.value
  kept : σ'.head = σ.head → ∀ i, g'.mark i = .kept σ.head.value → g.mark i = .kept σ.head.value

theorem Rely.refl (u : ℕ) (σ : Shared α) (g : Ghost α) : Rely u σ g σ g :=
  ⟨.refl .., .inl rfl, le_rfl, fun _ _ h => h⟩

theorem Rely.head_le {u : ℕ} {σ σ' : Shared α} {g g' : Ghost α} (hr : Rely u σ g σ' g') :
    σ.head.aba ≤ σ'.head.aba := by
  rcases hr.head with h | h
  · rw [h]
  · exact h.le

/-! ### Changes -/

section Changes

variable {k n : ℕ} {h : List (Event (BagOp α) (BagRet α))} {σ : Shared α} {g : Ghost α}
  {t id i p : ℕ} {x : α}

theorem pool_insert : pool (σ.setSlot i ⟨some x, (σ.queue i).aba + 1⟩)
    (ghost ((pool σ g).insert t i x p)) = (pool σ g).insert t i x p := by
  simp only [pool, ghost, Shared.setSlot, Pool.insert, Pool.mk.injEq, and_true]
  constructor <;> funext j <;> by_cases hj : j = i <;> simp [hj]

theorem pool_withdraw : pool (σ.setSlot i ⟨none, (σ.queue i).aba + 1⟩)
    (ghost ((pool σ g).withdraw i)) = (pool σ g).withdraw i := by
  simp only [pool, ghost, Shared.setSlot, Pool.withdraw, Pool.mk.injEq, and_true]
  constructor <;> funext j <;> by_cases hj : j = i <;> simp [hj]

theorem pool_take : pool (σ.setSlot i ⟨none, (σ.queue i).aba + 1⟩)
    (ghost ((pool σ g).take t i)) = (pool σ g).take t i := by
  simp only [pool, ghost, Shared.setSlot, Pool.take, Pool.withdraw, Pool.mk.injEq, and_true]
  constructor <;> funext j <;> by_cases hj : j = i <;> simp [hj]

/-- A change of slots and marks by which no item becomes kept. -/
theorem Inv.change {c : Params} {h' : List (Event (BagOp α) (BagRet α))} (hI : Inv c h σ g)
    {σ' : Shared α} {P' : Pool ℕ α ℕ} (hP : pool σ' (ghost P') = P') (hP' : P'.Inv h')
    (hhead : σ'.head = σ.head) (htail : σ'.tail = σ.tail)
    (hk : ∀ j q, P'.mark j = .kept q → g.mark j = .kept q) : Inv c h' σ' (ghost P') := by
  refine ⟨by rw [hP]; exact hP', by rw [hhead]; exact hI.head_dvd,
    by rw [htail]; exact hI.tail_dvd, fun j q hj => ?_⟩
  rw [hhead, htail]
  exact hI.kept j q (hk j q hj)

theorem rely_change {u : ℕ} {σ' : Shared α} {P' : Pool ℕ α ℕ} (hP : pool σ' (ghost P') = P')
    (hr : Pool.Rely u (pool σ g) P') (hhead : σ'.head = σ.head) (htail : σ'.tail = σ.tail)
    (hk : ∀ j q, P'.mark j = .kept q → g.mark j = .kept q) : Rely u σ g σ' (ghost P') :=
  ⟨by rw [hP]; exact hr, .inl hhead, by rw [htail], fun _ j hj => hk j _ hj⟩

/-- Only the status of thread `t` changes. -/
theorem Inv.stat {c : Params} {h' : List (Event (BagOp α) (BagRet α))} {st : Status α}
    (hI : Inv c h σ g) (hP : ((pool σ g).setStat t st).Inv h') :
    Inv c h' σ (ghost ((pool σ g).setStat t st)) :=
  hI.change rfl hP rfl rfl fun _ _ hj => hj

theorem rely_stat {u : ℕ} {st : Status α} (hu : u ≠ t) :
    Rely u σ g σ (ghost ((pool σ g).setStat t st)) :=
  rely_change rfl (Pool.rely_setStat hu) rfl rfl fun _ _ hj => hj

/-- Keeping an item that is ahead of `*head_`. -/
theorem Inv.keep {c : Params} (hI : Inv c h σ g) {s : Bool} (hm : g.mark i = .pending t p)
    (hs : g.stat t = .pending id (.put x) s) (hplace : c.Place i p) (hp : σ.head.value ≤ p)
    (htail : p ≤ σ.tail.value) :
    Inv c h σ (ghost ((pool σ g).keep t i p)) := by
  refine ⟨(hI.slots.keep hm hs p).1, hI.head_dvd, hI.tail_dvd, fun j q hj => ?_⟩
  by_cases hji : j = i
  · subst hji
    simp only [ghost, Pool.keep, Function.update_self, Mark.kept.injEq] at hj
    subst hj
    exact ⟨hplace, hp, htail⟩
  · simp only [ghost, Pool.keep, Function.update_of_ne hji] at hj
    exact hI.kept j q hj

theorem rely_keep {c : Params} (hI : Inv c h σ g) {s : Bool} (hm : g.mark i = .pending t p)
    (hs : g.stat t = .pending id (.put x) s) (hp : σ.head.value < p) {u : ℕ} (hu : u ≠ t) :
    Rely u σ g σ (ghost ((pool σ g).keep t i p)) := by
  refine ⟨(hI.slots.keep hm hs p).2.2 u hu, .inl rfl, le_rfl, fun _ j hj => ?_⟩
  by_cases hji : j = i
  · subst hji
    simp only [ghost, Pool.keep, Function.update_self, Mark.kept.injEq] at hj
    omega
  · simp only [ghost, Pool.keep, Function.update_of_ne hji] at hj
    exact hj

/-- `advance_head` from a word for which head's segment holds no kept item. -/
theorem Inv.advanceHead (hI : Inv ⟨k, n, 0⟩ h σ g)
    (hclear : ∀ j, g.mark j ≠ .kept σ.head.value) :
    Inv ⟨k, n, 0⟩ h { σ with head := (⟨k, n, 0⟩ : Params).advance σ.head } g ∧
      ∀ u, Rely u σ g { σ with head := (⟨k, n, 0⟩ : Params).advance σ.head } g := by
  have hhead : (⟨k, n, 0⟩ : Params).advance σ.head =
      ⟨σ.head.value + k, σ.head.aba + 1⟩ := by simp [Params.advance]
  rw [hhead]
  refine ⟨⟨hI.slots, (Nat.dvd_add_right hI.head_dvd).mpr (Nat.dvd_refl k), hI.tail_dvd,
    fun j q hj => ?_⟩, fun u => ⟨.refl .., .inr (Nat.lt_succ_self _), le_rfl, fun _ _ hj => hj⟩⟩
  obtain ⟨hplace, hq, hqt⟩ := hI.kept j q hj
  refine ⟨hplace, ?_, hqt⟩
  -- positions are multiples of `k`, so the next one after head's is `k` further
  have hne : q ≠ σ.head.value := fun he => hclear j (he ▸ hj)
  have hdvd : k ∣ q - σ.head.value := Nat.dvd_sub hplace.1 hI.head_dvd
  have := Nat.le_of_dvd (by omega) hdvd
  change σ.head.value + k ≤ q
  omega

theorem Inv.bumpHead {c : Params} (hI : Inv c h σ g) {a : ℕ} (ha : σ.head.aba < a) :
    Inv c h { σ with head := ⟨σ.head.value, a⟩ } g ∧
      ∀ u, Rely u σ g { σ with head := ⟨σ.head.value, a⟩ } g :=
  ⟨⟨hI.slots, hI.head_dvd, hI.tail_dvd, hI.kept⟩,
    fun _ => ⟨.refl .., .inr ha, le_rfl, fun _ _ hj => hj⟩⟩

theorem Inv.advanceTail (hI : Inv ⟨k, n, 0⟩ h σ g) :
    Inv ⟨k, n, 0⟩ h { σ with tail := (⟨k, n, 0⟩ : Params).advance σ.tail } g ∧
      ∀ u, Rely u σ g { σ with tail := (⟨k, n, 0⟩ : Params).advance σ.tail } g := by
  have htail : (⟨k, n, 0⟩ : Params).advance σ.tail =
      ⟨σ.tail.value + k, σ.tail.aba + 1⟩ := by simp [Params.advance]
  rw [htail]
  refine ⟨⟨hI.slots, hI.head_dvd, (Nat.dvd_add_right hI.tail_dvd).mpr (Nat.dvd_refl k),
    fun j q hj => ?_⟩, fun u => ⟨.refl .., .inl rfl, Nat.le_add_right .., fun _ _ hj => hj⟩⟩
  obtain ⟨hplace, hq, hqt⟩ := hI.kept j q hj
  exact ⟨hplace, hq, hqt.trans (Nat.le_add_right ..)⟩

end Changes

/-! ### The proof outline -/

/-- Facts that stay true once they are true. -/
inductive Fact where
  | waiting
  /-- The bag was empty during the call, or `*tail_` is beyond `p`. -/
  | seen (p : ℕ)
  | inserted (i n p : ℕ)
  /-- If the item is still pending then its position is `q`. -/
  | level (i n p q : ℕ)
  | tailRead (p : ℕ)
  | headRead (w : AtomicValue ℕ)
  /-- If `*head_` still is `w`, none of the first `j` slots looked at in its
  segment holds a kept item. -/
  | scanned (w : AtomicValue ℕ) (random j : ℕ)
  /-- If `*head_` still is `w`, its segment holds no kept item. -/
  | clear (w : AtomicValue ℕ)

def Fact.Holds (c : Params) (t id : ℕ) (op : BagOp α) (σ : Shared α) (g : Ghost α) :
    Fact → Prop
  | .waiting => (pool σ g).Waiting t id op
  | .seen p => (pool σ g).Seen t id ∨ p < σ.tail.value
  | .inserted i n p => (pool σ g).Inserted t id op i n p
  | .level i n p q => (pool σ g).Inserted t id op i n p ∧ (g.mark i = .pending t p → q = p)
  | .tailRead p => c.k ∣ p ∧ p ≤ σ.tail.value
  | .headRead w => w.aba ≤ σ.head.aba
  | .scanned w random j => w.aba ≤ σ.head.aba ∧
    (σ.head = w → ∀ j' < j, g.mark (c.index w.value random j') ≠ .kept w.value)
  | .clear w => w.aba ≤ σ.head.aba ∧ (σ.head = w → ∀ i, g.mark i ≠ .kept w.value)

/-- Words of `*head_` do not come back. -/
theorem Rely.head_back {u : ℕ} {σ σ' : Shared α} {g g' : Ghost α} (hr : Rely u σ g σ' g')
    {w : AtomicValue ℕ} (hw : w.aba ≤ σ.head.aba) (hw' : σ'.head = w) :
    σ.head = w ∧ σ'.head = σ.head := by
  rcases hr.head with h | h
  · exact ⟨h.symm.trans hw', h⟩
  · rw [hw'] at h
    omega

theorem Rely.trans {u : ℕ} {σ σ' σ'' : Shared α} {g g' g'' : Ghost α} (h : Rely u σ g σ' g')
    (h' : Rely u σ' g' σ'' g'') : Rely u σ g σ'' g'' := by
  refine ⟨h.slots.trans h'.slots, ?_, h.tail.trans h'.tail, fun hs i hm => ?_⟩
  · rcases h'.head with hs | hs
    · rw [hs]
      exact h.head
    · exact .inr (h.head_le.trans_lt hs)
  · obtain ⟨hs', hs''⟩ := h'.head_back (w := σ.head) h.head_le hs
    refine h.kept hs' i (hs' ▸ h'.kept hs'' i ?_)
    rwa [hs']

theorem Fact.Holds.rely {c : Params} {t id : ℕ} {op : BagOp α} {σ σ' : Shared α}
    {g g' : Ghost α} {F : Fact} (hF : F.Holds c t id op σ g) (hr : Rely t σ g σ' g') :
    F.Holds c t id op σ' g' := by
  cases F with
  | waiting => exact Pool.Waiting.rely hF hr.slots
  | seen p => exact hF.imp (fun h => h.rely hr.slots) fun h => h.trans_le hr.tail
  | inserted i n p => exact Pool.Inserted.rely hF hr.slots
  | level i n p q =>
    exact ⟨hF.1.rely hr.slots, fun hm => hF.2 (hr.slots.pending_of hF.1 hm)⟩
  | tailRead p => exact ⟨hF.1, hF.2.trans hr.tail⟩
  | headRead w => exact le_trans hF hr.head_le
  | scanned w random j =>
    refine ⟨hF.1.trans hr.head_le, fun hw j' hj hm => ?_⟩
    obtain ⟨rfl, hsame⟩ := hr.head_back hF.1 hw
    exact hF.2 rfl j' hj (hr.kept hsame _ hm)
  | clear w =>
    refine ⟨hF.1.trans hr.head_le, fun hw i hm => ?_⟩
    obtain ⟨rfl, hsame⟩ := hr.head_back hF.1 hw
    exact hF.2 rfl i (hr.kept hsame _ hm)

/-- What a thread knows at each point of its call. -/
def Local.facts : Local α → List Fact
  | .deqTail h => [.waiting, .headRead h]
  | .deqFind h tl random j => [.waiting, .tailRead tl.value, .scanned h random j]
  | .deqCheck h tl none => [.waiting, .tailRead tl.value, .clear h]
  | .deqEmpty h tl => [.waiting, .clear h, .seen tl.value]
  | .deqAdvanceHead h => [.waiting, .clear h]
  | .enqHead _ tl => [.waiting, .tailRead tl.value]
  | .enqFind _ tl h _ _ => [.waiting, .tailRead tl.value, .headRead h]
  | .enqCheck _ tl h _ => [.waiting, .tailRead tl.value, .headRead h]
  | .enqInsert _ tl _ => [.waiting, .tailRead tl.value]
  | .comValue _ p i new => [.inserted i new.aba p, .tailRead p]
  | .comTail _ p i new => [.inserted i new.aba p, .tailRead p]
  | .comHead _ p i new _ => [.inserted i new.aba p, .tailRead p]
  | .comBump _ p i new h => [.tailRead p, .level i new.aba p h.value]
  | .comUndo _ p i new => [.inserted i new.aba p]
  | .enqFull _ _ h => [.waiting, .headRead h]
  | .enqSegment _ _ h j => [.waiting, .scanned h 0 j]
  | .enqHeadMoved _ _ h => [.waiting, .headRead h]
  | .enqAdvanceHead _ _ h => [.waiting, .clear h]
  | _ => [.waiting]

/-- What the local variables say without reference to the memory. -/
def Local.Shape (c : Params) (op : BagOp α) : Local α → Prop
  | .deqFind _ _ _ j => op = .get ∧ j < c.k
  | .deqCheck _ _ (some found) => op = .get ∧ found.old.value ≠ none
  | .deqAdvanceTail _ found => op = .get ∧ found.old.value ≠ none
  | .deqTake found => op = .get ∧ found.old.value ≠ none
  | .deqHead | .deqTail _ | .deqCheck _ _ none | .deqEmpty _ _ | .deqAdvanceHead _ => op = .get
  | .enqTail x | .enqHead x _ | .enqCheck x _ _ none | .enqFull x _ _ | .enqHeadMoved x _ _
  | .enqAdvanceHead x _ _ | .enqAdvanceTail x _ => op = .put x
  | .enqFind x _ _ _ j => op = .put x ∧ j < c.k
  | .enqCheck x tl _ (some found) | .enqInsert x tl found =>
    op = .put x ∧ c.Place found.index tl.value ∧ found.old.value = none
  | .comValue x p i new | .comTail x p i new | .comBump x p i new _ | .comUndo x p i new =>
    op = .put x ∧ c.Place i p ∧ new.value = some x
  | .comHead x p i new tailCurrent =>
    op = .put x ∧ c.Place i p ∧ new.value = some x ∧ p ≤ tailCurrent
  | .enqSegment x _ _ j => op = .put x ∧ j < c.k

/-- At the read of `head_current` in `committed`, head is not beyond the tail
position read just before; or the item is no longer in its slot. -/
def headBehindTail [DecidableEq α] (_ : ℕ) (σ : Shared α) : Local α → Bool
  | .comHead _ _ index new tailCurrent =>
    σ.queue index ≠ new || σ.head.value ≤ tailCurrent
  | _ => true

/-! ### Scanning a segment -/

section Scan

variable {k n : ℕ} {σ : Shared α} {g : Ghost α} {t i p : ℕ}

theorem place_index (hk : 0 < k) (hp : k ∣ p) (random j : ℕ) :
    (⟨k, n, 0⟩ : Params).Place ((⟨k, n, 0⟩ : Params).index p random j) p :=
  ⟨hp, (random + j) % k, Nat.mod_lt _ hk, by simp [Params.index]⟩

/-- A slot found without a kept item extends the scan. -/
theorem scanned_succ {h : AtomicValue ℕ} {random j id : ℕ} {op : BagOp α}
    (hs : (Fact.scanned h random j).Holds ⟨k, n, 0⟩ t id op σ g)
    (hm : ∀ q, g.mark ((⟨k, n, 0⟩ : Params).index h.value random j) ≠ .kept q) :
    (Fact.scanned h random (j + 1)).Holds ⟨k, n, 0⟩ t id op σ g := by
  refine ⟨hs.1, fun hw j' hj => ?_⟩
  rcases Nat.lt_succ_iff_lt_or_eq.mp hj with hj | rfl
  · exact hs.2 hw j' hj
  · exact hm _

/-- After a whole segment is scanned it holds no kept item, if head is still there. -/
theorem clear_of_scanned {h : AtomicValue ℕ} {random id : ℕ} {op : BagOp α}
    {hist : List (Event (BagOp α) (BagRet α))} (hI : Inv ⟨k, n, 0⟩ hist σ g)
    (hs : (Fact.scanned h random k).Holds ⟨k, n, 0⟩ t id op σ g) :
    (Fact.clear h).Holds ⟨k, n, 0⟩ t id op σ g := by
  refine ⟨hs.1, fun hw i hm => ?_⟩
  obtain ⟨⟨-, j, hj, rfl⟩, -, -⟩ := hI.kept i _ hm
  obtain ⟨j', hj', rfl⟩ := exists_index (r := random) hj
  refine hs.2 hw j' hj' ?_
  simpa [Params.index] using hm

theorem not_kept {hist : List (Event (BagOp α) (BagRet α))} (hI : Inv ⟨k, n, 0⟩ hist σ g)
    (hv : (σ.queue i).value = none) (q : ℕ) : g.mark i ≠ .kept q := by
  have := (hI.slots.free i).mpr hv
  intro hm
  rw [show (pool σ g).mark i = g.mark i from rfl, hm] at this
  cases this

/-- If head's segment holds no kept item, and tail is not ahead, the bag is empty. -/
theorem bag_eq_none {hist : List (Event (BagOp α) (BagRet α))} (hI : Inv ⟨k, n, 0⟩ hist σ g)
    (hclear : ∀ j, g.mark j ≠ .kept σ.head.value) (hle : σ.tail.value ≤ σ.head.value) (j : ℕ) :
    (pool σ g).bag j = none := by
  rcases hm : g.mark j with _ | ⟨u, q⟩ | q
  · exact Pool.bag_of_free hm
  · exact Pool.bag_of_pending hm
  · obtain ⟨-, hq, hqt⟩ := hI.kept j q hm
    obtain rfl : q = σ.head.value := by omega
    exact absurd hm (hclear j)

end Scan

/-! ### One access -/

section Outline

variable [DecidableEq α] {k n : ℕ}

structure Knows (t : ℕ) (f : Frame (machine ⟨k, n, 0⟩ α))
    (w : World (machine ⟨k, n, 0⟩ α) (Ghost α)) : Prop where
  shape : f.loc.Shape ⟨k, n, 0⟩ f.op
  facts : AllOf (Fact.Holds ⟨k, n, 0⟩ t f.id f.op w.shared w.ghost) f.loc.facts

/-- The proof outline: every pending call knows the facts of its local state. -/
def outline (k n : ℕ) (α : Type) [DecidableEq α] :
    Outline (machine ⟨k, n, 0⟩ α) (Ghost α) where
  inv w := Inv ⟨k, n, 0⟩ w.events w.shared w.ghost
  loc t
    | none, w => (pool w.shared w.ghost).Idle t
    | some f, w => Knows t f w
  rely u w w' := Rely u w.shared w.ghost w'.shared w'.ghost

variable {w : World (machine ⟨k, n, 0⟩ α) (Ghost α)} {t : ℕ} {f : Frame (machine ⟨k, n, 0⟩ α)}
  {σ : Shared α} {g : Ghost α} {l : Local α} {x : α} {i p : ℕ}

/-- What is to be shown of every access `a` that the call `f` makes. -/
def StepOk (w : World (machine ⟨k, n, 0⟩ α) (Ghost α)) (t : ℕ)
    (f : Frame (machine ⟨k, n, 0⟩ α)) (a : Shared α × (Local α ⊕ BagRet α)) : Prop :=
  (outline k n α).Moves w t (Event.ofStep (M := machine ⟨k, n, 0⟩ α) t a.2) a.1 (f.resume a.2)

/-- The call goes on at `l`. -/
theorem StepOk.go (hI : Inv ⟨k, n, 0⟩ w.events σ g)
    (hr : ∀ u, u ≠ t → Rely u w.shared w.ghost σ g) (hshape : l.Shape ⟨k, n, 0⟩ f.op)
    (hfacts : AllOf (Fact.Holds ⟨k, n, 0⟩ t f.id f.op σ g) l.facts) :
    StepOk w t f (σ, .inl l) := by
  refine ⟨g, ?_, ⟨hshape, hfacts⟩, hr⟩
  have hI' : Inv ⟨k, n, 0⟩ (w.events ++ [.tau t]) σ g :=
    ⟨hI.slots.tau t, hI.head_dvd, hI.tail_dvd, hI.kept⟩
  simpa [outline, Event.ofStep] using hI'

/-- The call returns a result that is fixed already. -/
theorem StepOk.stop {r : BagRet α} (hI : Inv ⟨k, n, 0⟩ w.events σ g)
    (hr : ∀ u, u ≠ t → Rely u w.shared w.ghost σ g)
    (hd : (pool σ g).Done t f.id f.op r) : StepOk w t f (σ, .inr r) := by
  obtain ⟨hP, hidle⟩ := hI.slots.res hd
  refine ⟨ghost ((pool σ g).setStat t .idle), ?_, hidle, fun u hu => ?_⟩
  · simpa [outline, Event.ofStep] using hI.stat hP
  · exact (hr u hu).trans (rely_stat hu)

/-- The call returns false, because the bag was empty. -/
theorem StepOk.stopNone (hI : Inv ⟨k, n, 0⟩ w.events w.shared w.ghost)
    (hs : (pool w.shared w.ghost).Seen t f.id) : StepOk w t f (w.shared, .inr (.got none)) := by
  obtain ⟨hP, hidle⟩ := hI.slots.resNone hs
  refine ⟨ghost ((pool w.shared w.ghost).setStat t .idle), ?_, hidle, fun u hu => rely_stat hu⟩
  simpa [outline, Event.ofStep] using hI.stat hP

/-- An access that only reads, after which the call goes on. -/
theorem StepOk.read (hI : Inv ⟨k, n, 0⟩ w.events w.shared w.ghost)
    (hshape : l.Shape ⟨k, n, 0⟩ f.op)
    (hfacts : AllOf (Fact.Holds ⟨k, n, 0⟩ t f.id f.op w.shared w.ghost) l.facts) :
    StepOk w t f (w.shared, .inl l) :=
  .go hI (fun _ _ => .refl ..) hshape hfacts

/-- What a thread at `l` knows. -/
theorem Knows.at (hf : Knows t f w) (hl : f.loc = l) : l.Shape ⟨k, n, 0⟩ f.op ∧
    AllOf (Fact.Holds ⟨k, n, 0⟩ t f.id f.op w.shared w.ghost) l.facts := by
  subst hl
  exact ⟨hf.shape, hf.facts⟩

/-! ### The accesses of each operation -/

theorem dequeue_ok (hk : 0 < k) (hI : Inv ⟨k, n, 0⟩ w.events w.shared w.ghost)
    (hf : Knows t f w) (random : ℕ) (l : Local α) :
    match l with
    | .deqHead | .deqTail _ | .deqFind _ _ _ _ | .deqCheck _ _ _ | .deqAdvanceTail _ _
    | .deqTake _ | .deqEmpty _ _ | .deqAdvanceHead _ =>
      f.loc = l → StepOk w t f (step ⟨k, n, 0⟩ random w.shared l)
    | _ => True := by
  cases l with
  | deqHead =>
    intro hl
    obtain ⟨hs, hwait⟩ := hf.at hl
    exact .read hI hs ⟨hwait, le_rfl⟩
  | deqTail h =>
    intro hl
    obtain ⟨hs, hwait, hh⟩ := hf.at hl
    exact .read hI ⟨hs, hk⟩ ⟨hwait, ⟨hI.tail_dvd, le_rfl⟩, hh, fun _ j hj => absurd hj (by omega)⟩
  | deqFind h tl r j =>
    intro hl
    obtain ⟨⟨hs, hj⟩, hwait, htl, hscan⟩ := hf.at hl
    simp only [step]
    split_ifs with hv hj'
    · exact .read hI ⟨hs, hv⟩ hwait
    · rw [not_not] at hv
      exact .read hI ⟨hs, hj'⟩ ⟨hwait, htl, scanned_succ hscan (not_kept hI hv)⟩
    · rw [not_not] at hv
      obtain rfl : j + 1 = k := by
        change j < k at hj
        change ¬ j + 1 < k at hj'
        omega
      exact .read hI hs
        ⟨hwait, htl, clear_of_scanned hI (scanned_succ hscan (not_kept hI hv))⟩
  | deqCheck h tl found =>
    intro hl
    simp only [step]
    rcases found with _ | found
    · obtain ⟨hs, hwait, htl, hclear⟩ := hf.at hl
      split_ifs with hh hv
      · -- the segment of `*head_` holds no kept item now
        subst hh
        by_cases hlt : tl.value < w.shared.tail.value
        · exact .read hI hs ⟨hwait, hclear, .inr hlt⟩
        · have hop : f.op = .get := hs
          have hwait' : (pool w.shared w.ghost).Waiting t f.id .get := hop ▸ hwait
          obtain ⟨hP, hseen⟩ := hI.slots.observe hwait'
            (bag_eq_none hI (hclear.2 rfl) (by omega))
          refine .go (hI.stat hP) (fun _ hu => rely_stat hu) hs
            ⟨?_, ⟨hclear.1, hclear.2⟩, .inl hseen⟩
          rw [hop]
          exact hseen.waiting
      · exact .read hI hs ⟨hwait, hclear⟩
      · exact .read hI hs hwait
    · obtain ⟨hs, hwait⟩ := hf.at hl
      split_ifs with hh hv
      · exact .read hI hs hwait
      · exact .read hI hs hwait
      · exact .read hI hs.1 hwait
  | deqAdvanceTail tl found =>
    intro hl
    obtain ⟨hs, hwait⟩ := hf.at hl
    simp only [step]
    split_ifs with hcas
    · subst hcas
      obtain ⟨hI', hr⟩ := hI.advanceTail
      exact .go hI' (fun u _ => hr u) hs hwait
    · exact .read hI hs hwait
  | deqTake found =>
    intro hl
    obtain ⟨⟨hs, hv⟩, hwait⟩ := hf.at hl
    simp only [step]
    split_ifs with hcas
    · obtain ⟨y, hy⟩ := Option.ne_none_iff_exists'.mp hv
      have hop : f.op = .get := hs
      have hwait' : (pool w.shared w.ghost).Waiting t f.id .get := hop ▸ hwait
      obtain ⟨hP, hd, hr⟩ := hI.slots.take hwait' (i := found.index) (x := y)
        (by rw [← hy, ← hcas]; rfl)
      have hpool := pool_take (σ := w.shared) (g := w.ghost) (t := t) (i := found.index)
      have hkept : ∀ j q, ((pool w.shared w.ghost).take t found.index).mark j = .kept q →
          w.ghost.mark j = .kept q := by
        intro j q hj
        by_cases hji : j = found.index
        · subst hji
          simp [Pool.take, Pool.withdraw] at hj
        · simp only [Pool.take, Pool.withdraw, Function.update_of_ne hji] at hj
          exact hj
      rw [← hcas, Nat.mod_zero]
      refine .stop (hI.change hpool hP rfl rfl hkept)
        (fun u hu => rely_change hpool (hr u hu) rfl rfl hkept) ?_
      rw [hpool, hop, hcas, hy]
      exact hd
    · exact .read hI hs hwait
  | deqEmpty h tl =>
    intro hl
    obtain ⟨hs, hwait, hclear, hseen⟩ := hf.at hl
    simp only [step]
    split_ifs with hv
    · exact .stopNone hI (hseen.resolve_right (by omega))
    · exact .read hI hs ⟨hwait, hclear⟩
  | deqAdvanceHead h =>
    intro hl
    obtain ⟨hs, hwait, hclear⟩ := hf.at hl
    simp only [step]
    split_ifs with hcas
    · subst hcas
      obtain ⟨hI', hr⟩ := hI.advanceHead (hclear.2 rfl)
      exact .go hI' (fun u _ => hr u) hs hwait
    · exact .read hI hs hwait
  | _ => trivial

theorem enqueue_ok (hk : 0 < k) (hI : Inv ⟨k, n, 0⟩ w.events w.shared w.ghost)
    (hf : Knows t f w) (random : ℕ) (l : Local α) :
    match l with
    | .enqTail _ | .enqHead _ _ | .enqFind _ _ _ _ _ | .enqCheck _ _ _ _ | .enqInsert _ _ _
    | .enqFull _ _ _ | .enqSegment _ _ _ _ | .enqHeadMoved _ _ _ | .enqAdvanceHead _ _ _
    | .enqAdvanceTail _ _ =>
      f.loc = l → StepOk w t f (step ⟨k, n, 0⟩ random w.shared l)
    | _ => True := by
  cases l with
  | enqTail x =>
    intro hl
    obtain ⟨hs, hwait⟩ := hf.at hl
    exact .read hI hs ⟨hwait, hI.tail_dvd, le_rfl⟩
  | enqHead x tl =>
    intro hl
    obtain ⟨hs, hwait, htl⟩ := hf.at hl
    exact .read hI ⟨hs, hk⟩ ⟨hwait, htl, le_rfl⟩
  | enqFind x tl h r j =>
    intro hl
    obtain ⟨⟨hs, hj⟩, hwait, htl, hh⟩ := hf.at hl
    simp only [step]
    split_ifs with hv hj'
    · exact .read hI ⟨hs, place_index hk htl.1 r j, hv⟩ ⟨hwait, htl, hh⟩
    · exact .read hI ⟨hs, hj'⟩ ⟨hwait, htl, hh⟩
    · exact .read hI hs ⟨hwait, htl, hh⟩
  | enqCheck x tl h found =>
    intro hl
    obtain ⟨hs, hwait, htl, hh⟩ := hf.at hl
    simp only [step]
    rcases found with _ | found
    · split_ifs with hcas
      · exact .read hI hs ⟨hwait, hh⟩
      · exact .read hI hs hwait
    · split_ifs with hcas
      · exact .read hI hs ⟨hwait, htl⟩
      · exact .read hI hs.1 hwait
  | enqInsert x tl found =>
    intro hl
    obtain ⟨⟨hs, hplace, hv⟩, hwait, htl⟩ := hf.at hl
    simp only [step]
    split_ifs with hcas
    · have hop : f.op = .put x := hs
      have hwait' : (pool w.shared w.ghost).Waiting t f.id (.put x) := hop ▸ hwait
      obtain ⟨hP, hins, hr⟩ := hI.slots.insert hwait' (i := found.index)
        (by rw [← hv, ← hcas]; rfl) tl.value
      have hpool := pool_insert (σ := w.shared) (g := w.ghost) (t := t) (i := found.index)
        (x := x) (p := tl.value)
      have hkept : ∀ j q, ((pool w.shared w.ghost).insert t found.index x tl.value).mark j =
          .kept q → w.ghost.mark j = .kept q := by
        intro j q hj
        by_cases hji : j = found.index
        · subst hji
          simp [Pool.insert] at hj
        · simp only [Pool.insert, Function.update_of_ne hji] at hj
          exact hj
      rw [← hcas, Nat.mod_zero]
      refine .go (hI.change hpool hP rfl rfl hkept)
        (fun u hu => rely_change hpool (hr u hu) rfl rfl hkept) ⟨hs, hplace, rfl⟩ ⟨?_, htl⟩
      rw [hop]
      change (pool _ _).Inserted _ _ _ _ _ _
      rw [hpool]
      exact hins
    · exact .read hI hs hwait
  | enqFull x tl h =>
    intro hl
    obtain ⟨hs, hwait, hh⟩ := hf.at hl
    simp only [step]
    split_ifs with hfull
    · exact .read hI ⟨hs, hk⟩ ⟨hwait, hh, fun _ j hj => absurd hj (by omega)⟩
    · exact .read hI hs hwait
  | enqSegment x tl h j =>
    intro hl
    obtain ⟨⟨hs, hj⟩, hwait, hscan⟩ := hf.at hl
    have hj : j < k := hj
    have hidx : (h.value + j) % (⟨k, n, 0⟩ : Params).word % (⟨k, n, 0⟩ : Params).queueSize =
        (⟨k, n, 0⟩ : Params).index h.value 0 j := by
      simp [Params.index, Nat.mod_eq_of_lt hj]
    simp only [step, hidx]
    split_ifs with hv hj'
    · exact .read hI hs ⟨hwait, hscan.1⟩
    · rw [not_not] at hv
      exact .read hI ⟨hs, hj'⟩ ⟨hwait, scanned_succ hscan (not_kept hI hv)⟩
    · rw [not_not] at hv
      obtain rfl : j + 1 = k := by
        change ¬ j + 1 < k at hj'
        omega
      exact .read hI hs ⟨hwait, clear_of_scanned hI (scanned_succ hscan (not_kept hI hv))⟩
  | enqHeadMoved x tl h =>
    intro hl
    obtain ⟨hs, hwait, hh⟩ := hf.at hl
    simp only [step]
    split_ifs with hv
    · have hop : f.op = .put x := hs
      obtain ⟨hP, hd⟩ := hI.slots.refuse (hop ▸ hwait)
      exact .stop (hI.stat hP) (fun u hu => rely_stat hu) (hop ▸ hd)
    · exact .read hI hs ⟨hwait, hh, fun hw => absurd (by rw [hw]) hv⟩
  | enqAdvanceHead x tl h =>
    intro hl
    obtain ⟨hs, hwait, hclear⟩ := hf.at hl
    simp only [step]
    split_ifs with hcas
    · subst hcas
      obtain ⟨hI', hr⟩ := hI.advanceHead (hclear.2 rfl)
      exact .go hI' (fun u _ => hr u) hs hwait
    · exact .read hI hs hwait
  | enqAdvanceTail x tl =>
    intro hl
    obtain ⟨hs, hwait⟩ := hf.at hl
    simp only [step]
    split_ifs with hcas
    · subst hcas
      obtain ⟨hI', hr⟩ := hI.advanceTail
      exact .go hI' (fun u _ => hr u) hs hwait
    · exact .read hI hs hwait
  | _ => trivial

/-- While an inserted item is pending, its slot holds the word that was written. -/
theorem word_of_pending (hI : Inv ⟨k, n, 0⟩ w.events w.shared w.ghost)
    {new : AtomicValue (Option α)} {s : Bool} {id : ℕ} (hnew : new.value = some x)
    (hm : w.ghost.mark i = .pending t p) (hv : (w.shared.queue i).aba = new.aba)
    (hs : w.ghost.stat t = .pending id (.put x) s) : w.shared.queue i = new := by
  obtain ⟨id', y, s', hs', hy⟩ := hI.slots.pending i t p hm
  have hxy := hs.symm.trans hs'
  simp only [Status.pending.injEq, BagOp.put.injEq] at hxy
  obtain ⟨-, rfl, -⟩ := hxy
  have hy : (w.shared.queue i).value = some x := hy
  rw [← hnew] at hy
  cases hq : w.shared.queue i
  cases new
  simp_all

/-- `committed` keeps the item: if it is still pending, then it is ahead of head. -/
theorem keep_stop (hI : Inv ⟨k, n, 0⟩ w.events w.shared w.ghost) {n' : ℕ}
    (hop : f.op = .put x) (hplace : (⟨k, n, 0⟩ : Params).Place i p)
    (hins : (pool w.shared w.ghost).Inserted t f.id f.op i n' p) (htail : p ≤ w.shared.tail.value)
    (hp : w.ghost.mark i = .pending t p → w.shared.head.value < p) :
    StepOk w t f (w.shared, .inr (.put true)) := by
  rcases hins with ⟨hm, -, s, hs⟩ | ⟨-, hd⟩
  · rw [hop] at hs
    have hlt := hp hm
    refine .stop (hI.keep hm hs hplace hlt.le htail) (fun u hu => rely_keep hI hm hs hlt hu) ?_
    rw [hop]
    exact (hI.slots.keep hm hs p).2.1
  · exact .stop hI (fun _ _ => .refl ..) (hop ▸ hd)

theorem committed_ok (hI : Inv ⟨k, n, 0⟩ w.events w.shared w.ghost) (hf : Knows t f w)
    (hok : headBehindTail t w.shared f.loc) (random : ℕ) (l : Local α) :
    match l with
    | .comValue _ _ _ _ | .comTail _ _ _ _ | .comHead _ _ _ _ _ | .comBump _ _ _ _ _
    | .comUndo _ _ _ _ =>
      f.loc = l → StepOk w t f (step ⟨k, n, 0⟩ random w.shared l)
    | _ => True := by
  cases l with
  | comValue x p i new =>
    intro hl
    obtain ⟨⟨hs, hplace, hnew⟩, hins, htl⟩ := hf.at hl
    simp only [step]
    split_ifs with hv
    · refine keep_stop hI hs hplace hins htl.2 fun hm => ?_
      -- a pending item is still in its slot
      obtain ⟨id', y, s', hs', hy⟩ := hI.slots.pending i t p hm
      rcases hins with ⟨-, -, s, hst⟩ | ⟨-, hd⟩
      · have hxy := hst.symm.trans hs'
        rw [show f.op = .put x from hs] at hxy
        simp only [Status.pending.injEq, BagOp.put.injEq] at hxy
        obtain ⟨-, rfl, -⟩ := hxy
        exact absurd (Eq.trans hy hnew.symm) hv
      · exact absurd hm (hd.1 i p)
    · exact .read hI ⟨hs, hplace, hnew⟩ ⟨hins, htl⟩
  | comTail x p i new =>
    intro hl
    obtain ⟨⟨hs, hplace, hnew⟩, hins, htl⟩ := hf.at hl
    exact .read hI ⟨hs, hplace, hnew, htl.2⟩ ⟨hins, htl⟩
  | comHead x p i new tc =>
    intro hl
    obtain ⟨⟨hs, hplace, hnew, hle⟩, hins, htl⟩ := hf.at hl
    simp only [headBehindTail, hl, ne_eq, decide_not, Bool.or_eq_true, Bool.not_eq_true',
      decide_eq_false_iff_not, decide_eq_true_eq] at hok
    have hhead : w.ghost.mark i = .pending t p → w.shared.head.value ≤ tc := by
      intro hm
      rcases hins with ⟨-, hv, s, hst⟩ | ⟨-, hd⟩
      · exact hok.resolve_left fun h => h (word_of_pending hI hnew hm hv
          (hst.trans (by rw [show f.op = .put x from hs])))
      · exact absurd hm (hd.1 i p)
    simp only [step]
    split_ifs with hvalid hnot
    · refine keep_stop hI hs hplace hins htl.2 fun hm => ?_
      have := hhead hm
      simp only [inValidRegion, Nat.not_lt.mpr this, if_false, Bool.and_eq_true,
        decide_eq_true_eq] at hvalid
      exact hvalid.1
    · exact .read hI ⟨hs, hplace, hnew⟩ hins
    · refine .read hI ⟨hs, hplace, hnew⟩ ⟨htl, hins, fun hm => ?_⟩
      have := hhead hm
      simp only [inValidRegion, notInValidRegion, Nat.not_lt.mpr this, if_false,
        Bool.and_eq_true, Bool.or_eq_true, decide_eq_true_eq] at hvalid hnot
      omega
  | comBump x p i new h =>
    intro hl
    obtain ⟨⟨hs, hplace, hnew⟩, htl, hins, hlevel⟩ := hf.at hl
    simp only [step]
    split_ifs with hcas
    · subst hcas
      have hlt : w.shared.head.aba < (w.shared.head.aba + 1) % 0 := by simp
      rcases hins with ⟨hm, -, s, hst⟩ | ⟨hn, hd⟩
      · rw [show f.op = .put x from hs] at hst
        have hp := hlevel hm
        obtain ⟨hP, hd, hr⟩ := hI.slots.keep hm hst p
        obtain ⟨hI', -⟩ := (hI.keep hm hst hplace hp.le htl.2).bumpHead hlt
        refine .stop hI' (fun u hu => ⟨hr u hu, .inr hlt, le_rfl, fun he => ?_⟩) ?_
        · exact absurd (congrArg AtomicValue.aba he) hlt.ne'
        · rw [show f.op = .put x from hs]
          exact hd
      · obtain ⟨hI', hr⟩ := hI.bumpHead hlt
        exact .stop hI' (fun u _ => hr u) hd
    · exact .read hI ⟨hs, hplace, hnew⟩ hins
  | comUndo x p i new =>
    intro hl
    obtain ⟨⟨hs, hplace, hnew⟩, hins⟩ := hf.at hl
    simp only [step]
    split_ifs with hcas
    · rcases hins with ⟨hm, -, s, hst⟩ | ⟨hn, hd⟩
      · obtain ⟨hP, hwait, hr⟩ := hI.slots.withdraw hm hst
        have hpool := pool_withdraw (σ := w.shared) (g := w.ghost) (i := i)
        have hkept : ∀ j q, ((pool w.shared w.ghost).withdraw i).mark j = .kept q →
            w.ghost.mark j = .kept q := by
          intro j q hj
          by_cases hji : j = i
          · subst hji
            simp [Pool.withdraw] at hj
          · simp only [Pool.withdraw, Function.update_of_ne hji] at hj
            exact hj
        rw [← hcas, Nat.mod_zero]
        refine .go (hI.change hpool hP rfl rfl hkept)
          (fun u hu => rely_change hpool (hr u hu) rfl rfl hkept) hs ?_
        change (pool _ _).Waiting _ _ _
        rw [hpool]
        exact hwait
      · -- the slot was written since, so its counter is greater
        have hn : new.aba < (w.shared.queue i).aba := hn
        rw [hcas] at hn
        exact absurd hn (Nat.lt_irrefl _)
    · rcases hins with ⟨hm, hv, s, hst⟩ | ⟨-, hd⟩
      · exact absurd (word_of_pending hI hnew hm hv
          (hst.trans (by rw [show f.op = .put x from hs]))) hcas
      · exact .stop hI (fun _ _ => .refl ..) hd
  | _ => trivial

theorem step_ok (hk : 0 < k) (hI : Inv ⟨k, n, 0⟩ w.events w.shared w.ghost) (hf : Knows t f w)
    (hok : headBehindTail t w.shared f.loc) (random : ℕ) :
    StepOk w t f (step ⟨k, n, 0⟩ random w.shared f.loc) := by
  have hdeq := dequeue_ok hk hI hf random f.loc
  have henq := enqueue_ok hk hI hf random f.loc
  have hcom := committed_ok hI hf hok random f.loc
  cases hl : f.loc <;> rw [hl] at hdeq henq hcom <;>
    first
      | exact hdeq rfl
      | exact henq rfl
      | exact hcom rfl

/-! ### All runs -/

theorem outline_sound (hk : 0 < k) : (outline k n α).Sound headBehindTail where
  init := by
    refine ⟨⟨fun _ => .free, fun _ => .idle⟩, ⟨Pool.inv_init _, ?_, ?_, by simp⟩, fun t => ?_⟩
    · exact Nat.dvd_zero _
    · exact Nat.dvd_zero _
    · exact ⟨fun _ _ => by simp [pool], rfl⟩
  stable := by
    rintro w e σ g t (_ | f) - - hf - hr
    · exact Pool.Idle.rely hf hr.slots
    · exact ⟨hf.shape, hf.facts.imp fun F hF => hF.rely hr⟩
  call := by
    intro w t op hI hidle _
    obtain ⟨hP, hwait⟩ := hI.slots.inv hidle op
    refine ⟨ghost ((pool w.shared w.ghost).setStat t (.pending w.events.length op false)), ?_, ?_,
      fun u hu => rely_stat hu⟩
    · simpa [outline] using hI.stat hP
    · rw [World.length_events] at hwait ⊢
      cases op
      · exact ⟨rfl, hwait⟩
      · exact ⟨rfl, hwait⟩
  run := by
    intro w t f random σ o hI hf hok hs
    have h := step_ok hk hI hf hok random
    rw [Option.some.inj hs] at h
    exact h

/-- **The bounded-size k-FIFO queue is a linearizable bag** in every run in which
head is never beyond tail where `committed` looks. -/
theorem linearizable_of_headBehindTail (hk : 0 < k) {c : Config (machine ⟨k, n, 0⟩ α)}
    (hc : Reach (machine ⟨k, n, 0⟩ α) headBehindTail c) :
    Linearizable (bagSpec α) c.events := by
  obtain ⟨g, hinv, -⟩ := (outline_sound hk).reach hc
  exact hinv.slots.lin.linearizable

/-- Two calls that overlap: a dequeue scans head's segment, and an enqueue keeps its
item by changing the word of `*head_`. -/
def keptAtHead : List (Action (machine ⟨2, 2, 0⟩ ℕ)) :=
  List.flatten [[.call 1 .get], turns 1 0 4, [.call 0 (.put 5)], turns 0 0 9, turns 1 0 7]

theorem linearizable_keptAtHead :
    ∃ c : Config (machine ⟨2, 2, 0⟩ ℕ), c.events.length = 22 ∧
      Linearizable (bagSpec ℕ) c.events := by
  have h : ((Config.init (machine ⟨2, 2, 0⟩ ℕ)).exec headBehindTail keptAtHead).isSome = true := by
    decide
  exact ⟨((Config.init (machine ⟨2, 2, 0⟩ ℕ)).exec headBehindTail keptAtHead).get h, rfl,
    linearizable_of_headBehindTail (by decide) (Reach.schedule keptAtHead h)⟩

/-- Thread 1 finds head's segment empty before thread 0 inserts `5` there; thread 2
moves tail on; thread 1 moves head on, after thread 0 has read tail.  Thread 0 then
takes its position for one of a ring that has wrapped around, and keeps the item
behind head.  Thread 3 finds the queue empty. -/
def keptBehindHead : List (Action (machine ⟨1, 3, 0⟩ ℕ)) :=
  List.flatten [[.call 1 .get], turns 1 0 3, [.call 0 (.put 5)], turns 0 0 7,
    [.call 2 (.put 7)], turns 2 0 6, turns 1 0 3, turns 0 0 1,
    [.call 3 .get], turns 3 0 5, turns 1 0 5]

/-- **Not every run is a linearizable bag.** -/
theorem not_linearizable_keptBehindHead : ∃ c : Config (machine ⟨1, 3, 0⟩ ℕ),
    Reach (machine ⟨1, 3, 0⟩ ℕ) always c ∧ ¬ Linearizable (bagSpec ℕ) c.events := by
  have h : ((Config.init (machine ⟨1, 3, 0⟩ ℕ)).exec always keptBehindHead).isSome = true := by
    decide
  exact ⟨_, Reach.schedule keptBehindHead h,
    not_linearizable_of_lost (x := 5) (i := 4) (j := 22) (g := 23) rfl rfl rfl (by decide) rfl⟩

end Outline

end BoundedSizeKFifo

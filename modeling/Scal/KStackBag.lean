/-
The k-stack as a linearizable bag.

A push puts its item when `committed` finds the `remove` counter of the segment at
zero, or when it changes the word of `*top_`.  A thread that is about to remove a
segment holds its `remove` counter above zero (`Ghost.removers`), and a removed
segment keeps it so; hence between the two passes of `is_empty` and the `cas` of
`*top_` no item is put into the segment, unless the word of `*top_` changes.

* `not_refused` — every push that returns has put its item;
* `linearizable_of_removeHeld` — every run is a linearizable bag, if `committed` does
  not find the `remove` counter back at zero when it reads it again (`removeHeld`);
* `not_linearizable_removeLowered` — otherwise it returns false with the item still in
  its slot, and the push inserts the item twice.
-/
import Scal.KStack
import Scal.SlotPool
import Scal.Chain
import Scal.NotLinearizable

open Interleave Linearizability

namespace KStack

variable {α : Type}

/-- The segments linked below `*top_`, those that were removed, the threads that have
raised the `remove` counter of a segment, and the marks and statuses of the pool. -/
structure Ghost (α : Type) where
  stack : List ℕ
  removed : ℕ → Bool
  removers : ℕ → Finset ℕ
  mark : ℕ × ℕ → Mark Unit
  stat : ℕ → Status α

def pool (σ : Shared α) (g : Ghost α) : Pool (ℕ × ℕ) α Unit :=
  ⟨fun i => (σ.slot i).value, fun i => (σ.slot i).aba, g.mark, g.stat⟩

def Ghost.withPool (g : Ghost α) (P : Pool (ℕ × ℕ) α Unit) : Ghost α :=
  { g with mark := P.mark, stat := P.stat }

/-- Segment `s` has been on the stack. -/
def Ghost.Published (g : Ghost α) (s : ℕ) : Prop := s ∈ g.stack ∨ g.removed s = true

structure Inv (k : ℕ) (h : List (Event (BagOp α) (BagRet α))) (σ : Shared α) (g : Ghost α) :
    Prop where
  slots : (pool σ g).Inv h
  stack : Linked (fun s => (σ.segment s).next.value) σ.top.value g.stack
  top : σ.top.value ≠ 0
  bound : ∀ s, g.Published s → s ≠ 0 ∧ s < σ.alloc
  fresh : ∀ s, σ.alloc ≤ s → σ.segment s = .new ∧ g.removers s = ∅
  count : ∀ s, (g.removers s).card + (if g.removed s then 1 else 0) ≤ (σ.segment s).remove
  kept : ∀ i, g.mark i = .kept () → i.2 < k ∧ i.1 ∈ g.stack

/-- The order in which `*top_` takes its words: a segment added on top has a greater
address than the one below it, and all else increases the counter. -/
def Before (w w' : AtomicPointer) : Prop :=
  w.aba < w'.aba ∨ w.aba = w'.aba ∧ w.value < w'.value

theorem Before.trans {w w' w'' : AtomicPointer} (h : Before w w') (h' : Before w' w'') :
    Before w w'' := by
  unfold Before at *
  omega

theorem Before.ne {w w' : AtomicPointer} (h : Before w w') : w ≠ w' := by
  rintro rfl
  unfold Before at h
  omega

/-- `w` was the word of `*top_`. -/
def TopRead (σ : Shared α) (w : AtomicPointer) : Prop := σ.top = w ∨ Before w σ.top

/-- What thread `u` relies on about the steps of other threads. -/
structure Rely (u : ℕ) (σ : Shared α) (g : Ghost α) (σ' : Shared α) (g' : Ghost α) : Prop where
  slots : Pool.Rely u (pool σ g) (pool σ' g')
  top : TopRead σ' σ.top
  alloc : σ.alloc ≤ σ'.alloc
  next : ∀ s < σ.alloc, (σ'.segment s).next = (σ.segment s).next
  published : ∀ s, g.Published s → g'.Published s
  removers : ∀ s, u ∈ g'.removers s ↔ u ∈ g.removers s
  kept : ∀ s, u ∈ g.removers s → σ'.top = σ.top → ∀ j, g'.mark (s, j) = .kept () →
    g.mark (s, j) = .kept ()

theorem Rely.refl (u : ℕ) (σ : Shared α) (g : Ghost α) : Rely u σ g σ g :=
  ⟨.refl .., .inl rfl, le_rfl, fun _ _ => rfl, fun _ h => h, fun _ => .rfl, fun _ _ _ _ h => h⟩

theorem TopRead.rely {u : ℕ} {σ σ' : Shared α} {g g' : Ghost α} {w : AtomicPointer}
    (hw : TopRead σ w) (hr : Rely u σ g σ' g') : TopRead σ' w := by
  rcases hw with rfl | hw
  · exact hr.top
  · rcases hr.top with h | h
    · rw [TopRead, h]
      exact .inr hw
    · exact .inr (hw.trans h)

/-- Words of `*top_` do not come back. -/
theorem Rely.top_back {u : ℕ} {σ σ' : Shared α} {g g' : Ghost α} (hr : Rely u σ g σ' g')
    {w : AtomicPointer} (hw : TopRead σ w) (hw' : σ'.top = w) :
    σ.top = w ∧ σ'.top = σ.top := by
  rcases hw with rfl | hw
  · exact ⟨rfl, hw'⟩
  · rcases hr.top with h | h
    · exact ⟨h.symm.trans hw', h⟩
    · exact absurd hw' (hw.trans h).ne.symm

/-- A step with which only the status of thread `t` changes, after others. -/
theorem Rely.setStat {u t : ℕ} {σ σ' : Shared α} {g g' : Ghost α} (hr : Rely u σ g σ' g')
    {st : Status α} (hu : u ≠ t) :
    Rely u σ g σ' (g'.withPool ((pool σ' g').setStat t st)) :=
  ⟨hr.slots.trans (Pool.rely_setStat hu), hr.top, hr.alloc, hr.next, hr.published, hr.removers,
    hr.kept⟩

/-! ### Slots -/

section Slots

variable {k : ℕ} {h : List (Event (BagOp α) (BagRet α))} {σ : Shared α} {g : Ghost α}
  {t : ℕ} {i : ℕ × ℕ} {w : AtomicValue (Option α)} {x : α}

theorem slot_setSlot : (σ.setSlot i w).slot = Function.update σ.slot i w := by
  funext j
  obtain ⟨s, m⟩ := i
  obtain ⟨s', m'⟩ := j
  by_cases hs : s' = s
  · subst hs
    by_cases hm : m' = m
    · subst hm
      simp [Shared.slot, Shared.setSlot]
    · simp [Shared.slot, Shared.setSlot, hm]
  · simp [Shared.slot, Shared.setSlot, hs]

theorem next_setSlot (s : ℕ) : ((σ.setSlot i w).segment s).next = (σ.segment s).next := by
  by_cases hs : s = i.1
  · subst hs
    simp [Shared.setSlot]
  · simp [Shared.setSlot, hs]

theorem remove_setSlot (s : ℕ) : ((σ.setSlot i w).segment s).remove = (σ.segment s).remove := by
  by_cases hs : s = i.1
  · subst hs
    simp [Shared.setSlot]
  · simp [Shared.setSlot, hs]

/-- A slot that holds an item belongs to an allocated segment. -/
theorem Inv.lt_alloc (hI : Inv k h σ g) (hv : (σ.slot i).value ≠ none) : i.1 < σ.alloc := by
  by_contra hlt
  refine hv ?_
  rw [Shared.slot, (hI.fresh i.1 (by omega)).1]
  rfl

theorem pool_setSlot (P : Pool (ℕ × ℕ) α Unit) : pool (σ.setSlot i w) (g.withPool P) =
    ⟨Function.update (pool σ g).value i w.value, Function.update (pool σ g).ver i w.aba, P.mark,
      P.stat⟩ := by
  simp only [pool, Ghost.withPool, slot_setSlot, Pool.mk.injEq, and_true]
  constructor <;> funext j <;> by_cases hj : j = i <;> simp [hj]

theorem pool_insert : pool (σ.setSlot i ⟨some x, (σ.slot i).aba + 1⟩)
    (g.withPool ((pool σ g).insert t i x ())) = (pool σ g).insert t i x () :=
  pool_setSlot _

theorem pool_withdraw : pool (σ.setSlot i ⟨none, (σ.slot i).aba + 1⟩)
    (g.withPool ((pool σ g).withdraw i)) = (pool σ g).withdraw i :=
  pool_setSlot _

theorem pool_take : pool (σ.setSlot i ⟨none, (σ.slot i).aba + 1⟩)
    (g.withPool ((pool σ g).take t i)) = (pool σ g).take t i :=
  pool_setSlot _

/-- A slot is written, and no item becomes kept. -/
theorem Inv.setSlot (hI : Inv k h σ g) {P' : Pool (ℕ × ℕ) α Unit}
    (hP : pool (σ.setSlot i w) (g.withPool P') = P') (hP' : P'.Inv h) (hlt : i.1 < σ.alloc)
    (hk : ∀ j, P'.mark j = .kept () → g.mark j = .kept ()) :
    Inv k h (σ.setSlot i w) (g.withPool P') := by
  refine ⟨by rw [hP]; exact hP', hI.stack.congr fun s _ => by rw [next_setSlot], hI.top, hI.bound,
    fun s hs => ?_, fun s => ?_, fun j hj => hI.kept j (hk j hj)⟩
  · obtain ⟨hs', hr⟩ := hI.fresh s hs
    refine ⟨?_, hr⟩
    have hne : s ≠ i.1 := by
      rintro rfl
      exact absurd hlt (Nat.not_lt.mpr hs)
    rw [← hs']
    simp [Shared.setSlot, hne]
  · rw [remove_setSlot]
    exact hI.count s

theorem rely_setSlot {u : ℕ} {P' : Pool (ℕ × ℕ) α Unit}
    (hP : pool (σ.setSlot i w) (g.withPool P') = P') (hr : Pool.Rely u (pool σ g) P')
    (hk : ∀ j, P'.mark j = .kept () → g.mark j = .kept ()) :
    Rely u σ g (σ.setSlot i w) (g.withPool P') :=
  ⟨by rw [hP]; exact hr, .inl rfl, le_rfl, fun s _ => next_setSlot s, fun _ h => h,
    fun _ => .rfl, fun s _ _ j hj => hk (s, j) hj⟩

/-- Only marks and statuses change, and no item becomes kept. -/
theorem Inv.withPool {h' : List (Event (BagOp α) (BagRet α))} (hI : Inv k h σ g)
    {P' : Pool (ℕ × ℕ) α Unit} (hP : pool σ (g.withPool P') = P') (hP' : P'.Inv h')
    (hk : ∀ j, P'.mark j = .kept () → g.mark j = .kept ()) : Inv k h' σ (g.withPool P') :=
  ⟨by rw [hP]; exact hP', hI.stack, hI.top, hI.bound, hI.fresh, hI.count,
    fun j hj => hI.kept j (hk j hj)⟩

/-! ### Keeping an item -/

theorem mark_keep {j : ℕ × ℕ} (hj : ((pool σ g).keep t i ()).mark j = .kept ()) :
    j = i ∨ g.mark j = .kept () := by
  by_cases hji : j = i
  · exact .inl hji
  · simp only [Pool.keep, Function.update_of_ne hji] at hj
    exact .inr hj

theorem Inv.keep (hI : Inv k h σ g) {id : ℕ} {s : Bool} (hm : g.mark i = .pending t ())
    (hs : g.stat t = .pending id (.put x) s) (hi : i.2 < k) (hstack : i.1 ∈ g.stack) :
    Inv k h σ (g.withPool ((pool σ g).keep t i ())) := by
  obtain ⟨hP, -, -⟩ := hI.slots.keep hm hs ()
  refine ⟨hP, hI.stack, hI.top, hI.bound, hI.fresh, hI.count, fun j hj => ?_⟩
  rcases mark_keep (t := t) hj with rfl | hj
  · exact ⟨hi, hstack⟩
  · exact hI.kept j hj

/-- A segment whose `remove` counter is zero is on the stack, and nobody is about to
remove it. -/
theorem Inv.remove_eq_zero (hI : Inv k h σ g) {s : ℕ} (hpub : g.Published s)
    (h0 : (σ.segment s).remove = 0) : s ∈ g.stack ∧ g.removers s = ∅ := by
  have hcount := hI.count s
  rw [h0] at hcount
  have hcard : (g.removers s).card = 0 := by omega
  refine ⟨hpub.resolve_right fun hrem => ?_, Finset.card_eq_zero.mp hcard⟩
  simp [hrem] at hcount

theorem rely_keep (hI : Inv k h σ g) {id : ℕ} {s : Bool} (hm : g.mark i = .pending t ())
    (hs : g.stat t = .pending id (.put x) s) (hno : g.removers i.1 = ∅) {u : ℕ} (hu : u ≠ t) :
    Rely u σ g σ (g.withPool ((pool σ g).keep t i ())) := by
  obtain ⟨-, -, hr⟩ := hI.slots.keep hm hs ()
  refine ⟨hr u hu, .inl rfl, le_rfl, fun _ _ => rfl, fun _ h => h, fun _ => .rfl,
    fun s hus _ j hj => ?_⟩
  rcases mark_keep (t := t) hj with rfl | hj
  · rw [hno] at hus
    simp at hus
  · exact hj

end Slots

/-! ### The stack of segments -/

section Stack

variable {k : ℕ} {h : List (Event (BagOp α) (BagRet α))} {σ : Shared α} {g : Ghost α} {t : ℕ}

/-- Below the top segment `s` there is the rest of the stack. -/
theorem Inv.stack_eq (hI : Inv k h σ g) : ∃ l, g.stack = σ.top.value :: l ∧
    Linked (fun s => (σ.segment s).next.value) (σ.segment σ.top.value).next.value l :=
  hI.stack.cases_of_ne_zero hI.top

theorem Inv.top_mem (hI : Inv k h σ g) : σ.top.value ∈ g.stack := by
  obtain ⟨l, hl, -⟩ := hI.stack_eq
  simp [hl]

/-- Changing the counter of `*top_`. -/
theorem Inv.bumpTop (hI : Inv k h σ g) {a : ℕ} (ha : σ.top.aba < a) :
    Inv k h { σ with top := ⟨σ.top.value, a⟩ } g ∧
      ∀ u, Rely u σ g { σ with top := ⟨σ.top.value, a⟩ } g :=
  ⟨⟨hI.slots, hI.stack, hI.top, hI.bound, hI.fresh, hI.count, hI.kept⟩,
    fun _ => ⟨.refl .., .inr (.inl ha), le_rfl, fun _ _ => rfl, fun _ h => h, fun _ => .rfl,
      fun _ _ _ _ h => h⟩⟩

/-- **Keeping** an item in the top segment, by changing the counter of `*top_`. -/
theorem Inv.keepAtTop (hI : Inv k h σ g) {i : ℕ × ℕ} {x : α} {id a : ℕ} {s : Bool}
    (hm : g.mark i = .pending t ()) (hs : g.stat t = .pending id (.put x) s) (hi : i.2 < k)
    (htop : i.1 = σ.top.value) (ha : σ.top.aba < a) :
    Inv k h { σ with top := ⟨σ.top.value, a⟩ } (g.withPool ((pool σ g).keep t i ())) ∧
      ∀ u, u ≠ t → Rely u σ g { σ with top := ⟨σ.top.value, a⟩ }
        (g.withPool ((pool σ g).keep t i ())) := by
  have hI' := hI.keep hm hs hi (htop ▸ hI.top_mem)
  obtain ⟨-, -, hr⟩ := hI.slots.keep hm hs ()
  refine ⟨(hI'.bumpTop ha).1, fun u hu => ⟨hr u hu, .inr (.inl ha), le_rfl, fun _ _ => rfl,
    fun _ h => h, fun _ => .rfl, fun s _ he => ?_⟩⟩
  exact absurd (congrArg AtomicValue.aba he) ha.ne'

/-- A new segment that is not on the stack yet. -/
def Own (σ : Shared α) (next s : ℕ) : Prop :=
  next < s ∧ s < σ.alloc ∧ (σ.segment s).next.value = next

theorem Inv.segmentNew (hI : Inv k h σ g) {next : ℕ} (hn : next < σ.alloc) :
    Inv k h (σ.segmentNew next) g ∧ Own (σ.segmentNew next) next σ.alloc ∧
      ∀ u, Rely u σ g (σ.segmentNew next) g := by
  have hold : ∀ s, s ≠ σ.alloc → (σ.segmentNew next).segment s = σ.segment s := by
    intro s hs
    simp [Shared.segmentNew, hs]
  have hslot : (σ.segmentNew next).slot = σ.slot := by
    funext i
    by_cases hi : i.1 = σ.alloc
    · rw [Shared.slot, Shared.slot, (hI.fresh i.1 hi.ge).1]
      simp [Shared.segmentNew, hi, KSegment.new]
    · rw [Shared.slot, Shared.slot, hold i.1 hi]
  have hpool : pool (σ.segmentNew next) g = pool σ g := by
    simp only [pool, hslot]
  have hlt : ∀ s, g.Published s → s ≠ σ.alloc := fun s hs => ((hI.bound s hs).2).ne
  refine ⟨⟨by rw [hpool]; exact hI.slots, hI.stack.congr fun s hs => ?_, hI.top,
    fun s hs => ?_, fun s hs => ?_, fun s => ?_, hI.kept⟩, ⟨hn, Nat.lt_succ_self _, ?_⟩,
    fun u => ⟨by rw [hpool]; exact .refl .., .inl rfl, Nat.le_succ _, fun s hs => ?_,
      fun _ h => h, fun _ => .rfl, fun _ _ _ _ h => h⟩⟩
  · rw [hold s (hlt s (.inl hs))]
  · obtain ⟨h0, hs⟩ := hI.bound s hs
    exact ⟨h0, Nat.lt_succ_of_lt hs⟩
  · have hs : σ.alloc + 1 ≤ s := hs
    rw [hold s (by omega)]
    exact hI.fresh s (by omega)
  · by_cases hs : s = σ.alloc
    · subst hs
      have hrem : g.removed σ.alloc = false := by
        by_contra hr
        exact hlt σ.alloc (.inr (by simpa using hr)) rfl
      simp [(hI.fresh σ.alloc le_rfl).2, hrem]
    · rw [hold s hs]
      exact hI.count s
  · simp [Shared.segmentNew]
  · rw [hold s hs.ne]

/-- **Adding** a segment on top. -/
theorem Inv.addTop (hI : Inv k h σ g) {s : ℕ} (ho : Own σ σ.top.value s) :
    Inv k h { σ with top := ⟨s, σ.top.aba⟩ } { g with stack := s :: g.stack } ∧
      ∀ u, Rely u σ g { σ with top := ⟨s, σ.top.aba⟩ } { g with stack := s :: g.stack } := by
  obtain ⟨hlt, hs, hnext⟩ := ho
  have h0 : s ≠ 0 := by omega
  refine ⟨⟨hI.slots, .cons h0 ?_, h0, fun s' hs' => ?_, hI.fresh, hI.count, fun i hi => ?_⟩,
    fun _ => ⟨.refl .., .inr (.inr ⟨rfl, hlt⟩), le_rfl, fun _ _ => rfl, fun s' hs' => ?_,
      fun _ => .rfl, fun _ _ _ _ h => h⟩⟩
  · show Linked _ (σ.segment s).next.value g.stack
    rw [hnext]
    exact hI.stack
  · rcases hs' with hs' | hs'
    · rcases List.mem_cons.mp hs' with rfl | hs'
      · exact ⟨h0, hs⟩
      · exact hI.bound s' (.inl hs')
    · exact hI.bound s' (.inr hs')
  · exact ⟨(hI.kept i hi).1, List.mem_cons_of_mem _ (hI.kept i hi).2⟩
  · exact hs'.imp_left fun h => List.mem_cons_of_mem _ h

/-! ### Removing segments -/

theorem slot_setRemove (s n : ℕ) : (σ.setRemove s n).slot = σ.slot := by
  funext i
  by_cases h : i.1 = s
  · subst h; simp [Shared.slot, Shared.setRemove]
  · simp [Shared.slot, Shared.setRemove, h]

theorem next_setRemove (s n s' : ℕ) :
    ((σ.setRemove s n).segment s').next = (σ.segment s').next := by
  by_cases h : s' = s
  · subst h; simp [Shared.setRemove]
  · simp [Shared.setRemove, h]

theorem pool_setRemove (s n : ℕ) (r : ℕ → Finset ℕ) :
    pool (σ.setRemove s n) { g with removers := r } = pool σ g := by
  simp only [pool, slot_setRemove]

/-- The `remove` counter of `s` becomes `n`, and `r` are the threads that raised it. -/
theorem Inv.setRemove (hI : Inv k h σ g) {s n : ℕ} {r : Finset ℕ} (hs : s < σ.alloc)
    (hn : r.card + (if g.removed s then 1 else 0) ≤ n)
    (hr : ∀ u, u ≠ t → (u ∈ r ↔ u ∈ g.removers s)) :
    Inv k h (σ.setRemove s n) { g with removers := Function.update g.removers s r } ∧
      ∀ u, u ≠ t → Rely u σ g (σ.setRemove s n)
        { g with removers := Function.update g.removers s r } := by
  refine ⟨⟨by rw [pool_setRemove]; exact hI.slots, hI.stack.congr fun s' _ => by rw [next_setRemove],
    hI.top, hI.bound, fun s' hs' => ?_, fun s' => ?_, hI.kept⟩, fun u hu =>
    ⟨by rw [pool_setRemove]; exact .refl .., .inl rfl, le_rfl, fun s' _ => next_setRemove s n s',
      fun _ h => h, fun s' => ?_, fun _ _ _ _ h => h⟩⟩
  · have hne : s' ≠ s := by
      rintro rfl
      exact absurd hs (Nat.not_lt.mpr hs')
    obtain ⟨h1, h2⟩ := hI.fresh s' hs'
    exact ⟨by rw [← h1]; simp [Shared.setRemove, hne], by simpa [hne] using h2⟩
  · by_cases hs' : s' = s
    · subst hs'
      simpa [Shared.setRemove] using hn
    · simpa [Shared.setRemove, hs'] using hI.count s'
  · by_cases hs' : s' = s
    · subst hs'
      simpa using hr u hu
    · simp [hs']

/-- **Removing** the top segment, when it holds no kept item. -/
theorem Inv.removeTop (hI : Inv k h σ g) (ht : t ∈ g.removers σ.top.value)
    (hno : ∀ j, g.mark (σ.top.value, j) ≠ .kept ())
    (hne : (σ.segment σ.top.value).next.value ≠ 0) {g' : Ghost α}
    (hg : g' = { g with
      stack := g.stack.tail
      removed := Function.update g.removed σ.top.value true
      removers := Function.update g.removers σ.top.value
        ((g.removers σ.top.value).erase t) }) :
    Inv k h { σ with top := ⟨(σ.segment σ.top.value).next.value, σ.top.aba + 1⟩ } g' ∧
      ∀ u, u ≠ t →
        Rely u σ g { σ with top := ⟨(σ.segment σ.top.value).next.value, σ.top.aba + 1⟩ } g' := by
  obtain ⟨l, hl, hlink⟩ := hI.stack_eq
  subst hg
  have hpub : ∀ s, g.Published s ↔ s ∈ l ∨ Function.update g.removed σ.top.value true s := by
    intro s
    by_cases hs : s = σ.top.value
    · subst hs
      simp [Ghost.Published, hl]
    · simp [Ghost.Published, hl, hs]
  refine ⟨⟨hI.slots, by simpa [hl] using hlink, hne, fun s hs => hI.bound s ((hpub s).mpr ?_),
    fun s hs => ?_, fun s => ?_, fun i hi => ?_⟩, fun u hu => ⟨.refl .., .inr (.inl ?_), le_rfl,
      fun _ _ => rfl, fun s hs => ?_, fun s => ?_, fun _ _ _ _ h => h⟩⟩
  · simpa [Ghost.Published, hl] using hs
  · obtain ⟨h1, h2⟩ := hI.fresh s hs
    have hne : s ≠ σ.top.value := by
      rintro rfl
      exact absurd (hI.bound _ (.inl hI.top_mem)).2 (Nat.not_lt.mpr hs)
    exact ⟨h1, by simpa [hne] using h2⟩
  · have hcount := hI.count s
    by_cases hs : s = σ.top.value
    · subst hs
      have hpos := Finset.card_pos.mpr ⟨t, ht⟩
      simp only [Function.update_self, if_true, Finset.card_erase_of_mem ht]
      omega
    · simpa [hs] using hcount
  · obtain ⟨hk, hmem⟩ := hI.kept i hi
    refine ⟨hk, ?_⟩
    rw [hl] at hmem ⊢
    rcases List.mem_cons.mp hmem with he | hmem
    · exact absurd (he ▸ hi) (hno i.2)
    · exact hmem
  · exact Nat.lt_succ_self _
  · simpa [Ghost.Published, hl] using (hpub s).mp hs
  · by_cases hs : s = σ.top.value
    · subst hs
      simp [hu]
    · simp [hs]

end Stack

/-! ### The proof outline -/

/-- Facts that stay true once they are true. -/
inductive Fact (α : Type) where
  | waiting
  /-- `w` was the word of `*top_`. -/
  | topRead (w : AtomicPointer)
  /-- The segment of `topOld` is the last one, in `pop`, and is not, in
  `try_remove_ksegment`. -/
  | below (caller : Caller) (topOld : AtomicPointer)
  /-- `topCurrent` is `topOld`, or `*top_` has changed. -/
  | sameTop (topOld topCurrent : AtomicPointer)
  /-- `next` is in the segment of `topOld`, or `*top_` has changed. -/
  | nextOf (topOld next : AtomicPointer)
  | nextIs (s n : ℕ)
  | own (next s : ℕ)
  /-- The first pass of `is_empty` found `j` slots empty, and recorded their words. -/
  | collected (topOld : AtomicPointer) (random j : ℕ) (records : ℕ → AtomicValue (Option α))
  /-- What a true result of `is_empty` means. -/
  | empty (caller : Caller) (topOld : AtomicPointer)
  /-- The same, unless a slot that is still to be read again has changed. -/
  | recollected (caller : Caller) (topOld : AtomicPointer) (random j : ℕ)
    (records : ℕ → AtomicValue (Option α))
  | inserted (slot : ℕ × ℕ) (n : ℕ)

/-- In `pop`, the stack was empty, unless `*top_` has changed; a thread that has raised
the `remove` counter knows that the segment holds no kept item, unless `*top_` has
changed. -/
def Empty (t id : ℕ) (σ : Shared α) (g : Ghost α) (topOld : AtomicPointer) : Caller → Prop
  | .pop => (pool σ g).Seen t id ∨ Before topOld σ.top
  | .remove => TopRead σ topOld ∧ t ∈ g.removers topOld.value ∧
    (σ.top = topOld → ∀ j, g.mark (topOld.value, j) ≠ .kept ())

def Fact.Holds (k t id : ℕ) (op : BagOp α) (σ : Shared α) (g : Ghost α) : Fact α → Prop
  | .waiting => (pool σ g).Waiting t id op
  | .topRead w => TopRead σ w ∧ g.Published w.value ∧ w.value < σ.alloc
  | .below caller w => w.value < σ.alloc ∧ match caller with
    | .pop => (σ.segment w.value).next.value = 0
    | .remove => (σ.segment w.value).next.value ≠ 0
  | .sameTop topOld topCurrent => topCurrent = topOld ∨ Before topOld σ.top
  | .nextOf topOld next =>
    topOld.value < σ.alloc ∧ (σ.segment topOld.value).next = next ∨ Before topOld σ.top
  | .nextIs s n => s < σ.alloc ∧ (σ.segment s).next.value = n ∧ n ≠ 0
  | .own next s => Own σ next s
  | .collected topOld random j records => ∀ m < j, ∃ r, records ((random + m) % k) = r ∧
    r.value = none ∧ (σ.slot (topOld.value, (random + m) % k) = r ∨
      r.aba < (σ.slot (topOld.value, (random + m) % k)).aba)
  | .empty caller topOld => Empty t id σ g topOld caller
  | .recollected caller topOld random j records => Empty t id σ g topOld caller ∨
    ∃ m, j ≤ m ∧ m < k ∧ (records ((random + m) % k)).aba <
      (σ.slot (topOld.value, (random + m) % k)).aba
  | .inserted slot n => (pool σ g).Inserted t id op slot n ()

section Stable

variable {k t id : ℕ} {op : BagOp α} {σ σ' : Shared α} {g g' : Ghost α} {w : AtomicPointer}

theorem Rely.before (hr : Rely t σ g σ' g') (hw : Before w σ.top) : Before w σ'.top := by
  rcases hr.top with h | h
  · rwa [h]
  · exact hw.trans h

theorem Rely.aba_le (hr : Rely t σ g σ' g') (i : ℕ × ℕ) : (σ.slot i).aba ≤ (σ'.slot i).aba :=
  hr.slots.ver_le i

theorem Rely.slot (hr : Rely t σ g σ' g') (i : ℕ × ℕ) :
    σ'.slot i = σ.slot i ∨ (σ.slot i).aba < (σ'.slot i).aba := by
  rcases hr.slots.same i with ⟨ha, hv⟩ | h
  · left
    have ha : (σ'.slot i).aba = (σ.slot i).aba := ha
    have hv : (σ'.slot i).value = (σ.slot i).value := hv
    cases h' : σ'.slot i
    cases h : σ.slot i
    simp_all
  · exact .inr h

theorem Empty.rely {caller : Caller} (h : Empty t id σ g w caller) (hr : Rely t σ g σ' g') :
    Empty t id σ' g' w caller := by
  cases caller with
  | pop => exact h.imp (fun hs => hs.rely hr.slots) fun hb => hr.before hb
  | remove =>
    obtain ⟨htop, hmem, hno⟩ := h
    refine ⟨htop.rely hr, (hr.removers _).mpr hmem, fun hw j hj => ?_⟩
    obtain ⟨rfl, hsame⟩ := hr.top_back htop hw
    exact hno rfl j (hr.kept _ hmem hsame j hj)

theorem Fact.Holds.rely {F : Fact α} (hF : F.Holds k t id op σ g) (hr : Rely t σ g σ' g') :
    F.Holds k t id op σ' g' := by
  cases F with
  | waiting => exact Pool.Waiting.rely hF hr.slots
  | topRead w => exact ⟨hF.1.rely hr, hr.published _ hF.2.1, hF.2.2.trans_le hr.alloc⟩
  | below caller w =>
    obtain ⟨hlt, hb⟩ := hF
    refine ⟨hlt.trans_le hr.alloc, ?_⟩
    rw [hr.next _ hlt]
    exact hb
  | sameTop topOld topCurrent => exact hF.imp_right hr.before
  | nextOf topOld next =>
    refine hF.imp (fun ⟨hlt, he⟩ => ⟨hlt.trans_le hr.alloc, ?_⟩) hr.before
    rw [hr.next _ hlt, he]
  | nextIs s n => exact ⟨hF.1.trans_le hr.alloc, by rw [hr.next _ hF.1]; exact hF.2⟩
  | own next s =>
    exact ⟨hF.1, hF.2.1.trans_le hr.alloc, by rw [hr.next _ hF.2.1]; exact hF.2.2⟩
  | collected topOld random j records =>
    intro m hm
    obtain ⟨r, hrec, hnone, hr'⟩ := hF m hm
    refine ⟨r, hrec, hnone, ?_⟩
    rcases hr' with rfl | hlt
    · exact hr.slot _
    · exact .inr (hlt.trans_le (hr.aba_le _))
  | empty caller topOld => exact Empty.rely hF hr
  | recollected caller topOld random j records =>
    rcases hF with hF | ⟨m, hj, hm, hlt⟩
    · exact .inl (hF.rely hr)
    · exact .inr ⟨m, hj, hm, hlt.trans_le (hr.aba_le _)⟩
  | inserted slot n => exact Pool.Inserted.rely hF hr.slots

end Stable

/-- What a thread knows at each point of its call. -/
def Local.facts : Local α → List (Fact α)
  | .pushFind _ w _ _ | .pushCheck _ w _ | .pushInsert _ w _ | .addRead _ w | .addNew _ w =>
    [.waiting, .topRead w]
  | .addSwing _ w s => [.waiting, .own w.value s]
  | .comSlot _ w i new | .comRemove _ w i new =>
    [.inserted (w.value, i) new.aba, .topRead w]
  | .comRemoveAgain _ w i new | .comTop _ w i new | .comBump _ w i new | .comUndo _ w i new =>
    [.inserted (w.value, i) new.aba]
  | .popFind w _ _ | .popCheck w none | .popNext w | .remTop w => [.waiting, .topRead w]
  | .emptyFirst caller w r j records =>
    [.waiting, .topRead w, .below caller w, .collected w r j records]
  | .emptySecond caller w r j records =>
    [.waiting, .topRead w, .below caller w, .recollected caller w r j records]
  | .popLast w => [.waiting, .empty .pop w]
  | .remNext w u => [.waiting, .topRead w, .sameTop w u]
  | .remCheck w nx => [.waiting, .topRead w, .nextOf w nx]
  | .remAdd w => [.waiting, .topRead w, .below .remove w]
  | .remRead w => [.waiting, .topRead w, .below .remove w, .empty .remove w]
  | .remSwing w n => [.waiting, .topRead w, .nextIs w.value n, .empty .remove w]
  | .remSub w => [.waiting, .topRead w]
  | _ => [.waiting]

/-- The segment whose `remove` counter the call has raised. -/
def Local.window : Local α → Option ℕ
  | .emptyFirst .remove w _ _ _ | .emptySecond .remove w _ _ _ | .remRead w | .remSwing w _
  | .remSub w => some w.value
  | _ => none

/-- What the local variables say without reference to the memory. -/
def Local.Shape (k : ℕ) (op : BagOp α) : Local α → Prop
  | .pushTop x | .pushCheck x _ none | .addRead x _ | .addNew x _ | .addSwing x _ _ =>
    op = .put x
  | .pushFind x _ _ j => op = .put x ∧ j < k
  | .pushCheck x _ (some found) | .pushInsert x _ found =>
    op = .put x ∧ found.index < k ∧ found.old.value = none
  | .comSlot x _ i new | .comRemove x _ i new | .comRemoveAgain x _ i new | .comTop x _ i new
  | .comBump x _ i new | .comUndo x _ i new => op = .put x ∧ i < k ∧ new.value = some x
  | .popFind _ _ j | .emptyFirst _ _ _ j _ | .emptySecond _ _ _ j _ => op = .get ∧ j < k
  | .popCheck _ (some found) | .popSegment found | .popTake _ found =>
    op = .get ∧ found.old.value ≠ none
  | _ => op = .get

/-- `committed` does not find the `remove` counter back at zero when it reads it again. -/
def removeHeld (_ : ℕ) (σ : Shared α) : Local α → Bool
  | .comRemoveAgain _ topOld _ _ => (σ.segment topOld.value).remove ≠ 0
  | _ => true

/-! ### Collecting the slots of a segment -/

section Collect

variable {k t id : ℕ} {hist : List (Event (BagOp α) (BagRet α))} {op : BagOp α} {σ : Shared α}
  {g : Ghost α} {w : AtomicPointer} {records : ℕ → AtomicValue (Option α)} {random j : ℕ}

theorem collected_succ (hc : (Fact.collected w random j records).Holds k t id op σ g)
    (hv : (σ.slot (w.value, (random + j) % k)).value = none) :
    (Fact.collected w random (j + 1) (Function.update records ((random + j) % k)
      (σ.slot (w.value, (random + j) % k)))).Holds k t id op σ g := by
  intro m hm
  by_cases he : (random + m) % k = (random + j) % k
  · rw [he]
    exact ⟨_, Function.update_self .., hv, .inl rfl⟩
  · have hmj : m ≠ j := fun h => he (by rw [h])
    obtain ⟨r, hrec, hnone, hr⟩ := hc m (by omega)
    exact ⟨r, by rw [Function.update_of_ne he, hrec], hnone, hr⟩

/-- After the first pass, either all slots are empty now or one of them has changed. -/
theorem collected_all (hI : Inv k hist σ g)
    (hc : (Fact.collected w random k records).Holds k t id op σ g) :
    (∀ j, g.mark (w.value, j) ≠ .kept ()) ∨ ∃ m < k, (records ((random + m) % k)).aba <
      (σ.slot (w.value, (random + m) % k)).aba := by
  by_contra hcon
  push Not at hcon
  obtain ⟨⟨j, hj⟩, hall⟩ := hcon
  obtain ⟨m, hm, rfl⟩ := exists_index (r := random) (hI.kept _ hj).1
  obtain ⟨r, rfl, hnone, he | hlt⟩ := hc m hm
  · have hfree : g.mark (w.value, (random + m) % k) = .free := by
      refine (hI.slots.free _).mpr ?_
      rw [← he] at hnone
      exact hnone
    rw [hfree] at hj
    cases hj
  · exact absurd hlt (Nat.not_lt.mpr (hall m hm))

/-- A slot that is found unchanged in the second pass. -/
theorem recollected_succ {caller : Caller}
    (hr : (Fact.recollected caller w random j records).Holds k t id op σ g)
    (hv : σ.slot (w.value, (random + j) % k) = records ((random + j) % k)) :
    (Fact.recollected caller w random (j + 1) records).Holds k t id op σ g := by
  rcases hr with hr | ⟨m, hj, hm, hlt⟩
  · exact .inl hr
  · refine .inr ⟨m, Nat.lt_of_le_of_ne hj ?_, hm, hlt⟩
    rintro rfl
    rw [hv] at hlt
    exact Nat.lt_irrefl _ hlt

/-- If the top segment is the last one and holds no kept item, the bag is empty. -/
theorem bag_eq_none (hI : Inv k hist σ g) (hlast : (σ.segment σ.top.value).next.value = 0)
    (hno : ∀ j, g.mark (σ.top.value, j) ≠ .kept ()) (i : ℕ × ℕ) : (pool σ g).bag i = none := by
  rcases hm : g.mark i with _ | ⟨u, p⟩ | p
  · exact Pool.bag_of_free hm
  · exact Pool.bag_of_pending hm
  · obtain ⟨-, hmem⟩ := hI.kept i hm
    obtain ⟨l, hl, hlink⟩ := hI.stack_eq
    rw [hlast] at hlink
    rw [hl, hlink.eq_nil, List.mem_singleton] at hmem
    exact absurd (hmem ▸ hm) (hno i.2)

end Collect

/-! ### One access -/

section Outline

variable [DecidableEq α] {k : ℕ}

structure Knows (t : ℕ) (f : Frame (machine k α)) (w : World (machine k α) (Ghost α)) :
    Prop where
  shape : f.loc.Shape k f.op
  window : ∀ s, t ∈ w.ghost.removers s ↔ f.loc.window = some s
  facts : AllOf (Fact.Holds k t f.id f.op w.shared w.ghost) f.loc.facts

/-- The proof outline: every pending call knows the facts of its local state. -/
def outline (k : ℕ) (α : Type) [DecidableEq α] : Outline (machine k α) (Ghost α) where
  inv w := Inv k w.events w.shared w.ghost
  loc t
    | none, w => (pool w.shared w.ghost).Idle t ∧ ∀ s, t ∉ w.ghost.removers s
    | some f, w => Knows t f w
  rely u w w' := Rely u w.shared w.ghost w'.shared w'.ghost

variable {w : World (machine k α) (Ghost α)} {t : ℕ} {f : Frame (machine k α)}
  {σ : Shared α} {g : Ghost α} {l : Local α} {x : α}

/-- What is to be shown of every access `a` that the call `f` makes. -/
def StepOk (w : World (machine k α) (Ghost α)) (t : ℕ) (f : Frame (machine k α))
    (a : Shared α × (Local α ⊕ BagRet α)) : Prop :=
  (outline k α).Moves w t (Event.ofStep (M := machine k α) t a.2) a.1 (f.resume a.2)

/-- The call goes on at `l`. -/
theorem StepOk.go (hI : Inv k w.events σ g) (hr : ∀ u, u ≠ t → Rely u w.shared w.ghost σ g)
    (hwin : ∀ s, t ∈ g.removers s ↔ l.window = some s) (hshape : l.Shape k f.op)
    (hfacts : AllOf (Fact.Holds k t f.id f.op σ g) l.facts) : StepOk w t f (σ, .inl l) := by
  refine ⟨g, ?_, ⟨hshape, hwin, hfacts⟩, hr⟩
  have hI' : Inv k (w.events ++ [.tau t]) σ g := { hI with slots := hI.slots.tau t }
  simpa [outline, Event.ofStep] using hI'

/-- The call returns a result that is fixed already. -/
theorem StepOk.stop {r : BagRet α} (hI : Inv k w.events σ g)
    (hr : ∀ u, u ≠ t → Rely u w.shared w.ghost σ g) (hwin : ∀ s, t ∉ g.removers s)
    (hd : (pool σ g).Done t f.id f.op r) : StepOk w t f (σ, .inr r) := by
  obtain ⟨hP, hidle⟩ := hI.slots.res hd
  refine ⟨g.withPool ((pool σ g).setStat t .idle), ?_, ⟨hidle, hwin⟩,
    fun u hu => (hr u hu).setStat hu⟩
  have hI' := hI.withPool rfl hP fun _ hj => hj
  simpa [outline, Event.ofStep] using hI'

/-- The call returns false, because the bag was empty. -/
theorem StepOk.stopNone (hI : Inv k w.events w.shared w.ghost)
    (hwin : ∀ s, t ∉ w.ghost.removers s) (hs : (pool w.shared w.ghost).Seen t f.id) :
    StepOk w t f (w.shared, .inr (.got none)) := by
  obtain ⟨hP, hidle⟩ := hI.slots.resNone hs
  refine ⟨w.ghost.withPool ((pool w.shared w.ghost).setStat t .idle), ?_, ⟨hidle, hwin⟩,
    fun u hu => (Rely.refl ..).setStat hu⟩
  have hI' := hI.withPool rfl hP fun _ hj => hj
  simpa [outline, Event.ofStep] using hI'

/-- An access that only reads, after which the call goes on. -/
theorem StepOk.read (hI : Inv k w.events w.shared w.ghost)
    (hwin : ∀ s, t ∈ w.ghost.removers s ↔ l.window = some s) (hshape : l.Shape k f.op)
    (hfacts : AllOf (Fact.Holds k t f.id f.op w.shared w.ghost) l.facts) :
    StepOk w t f (w.shared, .inl l) :=
  .go hI (fun _ _ => .refl ..) hwin hshape hfacts

/-- What a thread at `l` knows. -/
theorem Knows.at (hf : Knows t f w) (hl : f.loc = l) :
    (∀ s, t ∈ w.ghost.removers s ↔ l.window = some s) ∧ l.Shape k f.op ∧
      AllOf (Fact.Holds k t f.id f.op w.shared w.ghost) l.facts := by
  subst hl
  exact ⟨hf.window, hf.shape, hf.facts⟩

omit [DecidableEq α] in
/-- A call that has raised no `remove` counter. -/
theorem not_mem_of_window (hwin : ∀ s, t ∈ g.removers s ↔ l.window = some s)
    (hl : l.window = none) (s : ℕ) : t ∉ g.removers s := by
  rw [hwin, hl]
  simp

theorem top_read (hI : Inv k w.events w.shared w.ghost) (id : ℕ) (op : BagOp α) :
    (Fact.topRead w.shared.top).Holds k t id op w.shared w.ghost := by
  have hpub : w.ghost.Published w.shared.top.value := .inl hI.top_mem
  exact ⟨.inl rfl, hpub, (hI.bound _ hpub).2⟩

/-! ### The accesses of each operation -/

theorem push_ok (hk : 0 < k) (hI : Inv k w.events w.shared w.ghost) (hf : Knows t f w)
    (random : ℕ) (l : Local α) :
    match l with
    | .pushTop _ | .pushFind _ _ _ _ | .pushCheck _ _ _ | .pushInsert _ _ _ | .addRead _ _
    | .addNew _ _ | .addSwing _ _ _ =>
      f.loc = l → StepOk w t f (step k random w.shared l)
    | _ => True := by
  cases l with
  | pushTop x =>
    intro hl
    obtain ⟨hwin, hs, hwait⟩ := hf.at hl
    exact .read hI hwin ⟨hs, hk⟩ ⟨hwait, top_read hI _ _⟩
  | pushFind x tp r j =>
    intro hl
    obtain ⟨hwin, ⟨hs, hj⟩, hwait, htop⟩ := hf.at hl
    simp only [step]
    split_ifs with hv hj'
    · exact .read hI hwin ⟨hs, Nat.mod_lt _ hk, hv⟩ ⟨hwait, htop⟩
    · exact .read hI hwin ⟨hs, hj'⟩ ⟨hwait, htop⟩
    · exact .read hI hwin hs ⟨hwait, htop⟩
  | pushCheck x tp found =>
    intro hl
    obtain ⟨hwin, hs, hwait, htop⟩ := hf.at hl
    simp only [step]
    rcases found with _ | found
    · split_ifs with hcas
      · exact .read hI hwin hs ⟨hwait, htop⟩
      · exact .read hI hwin hs hwait
    · split_ifs with hcas
      · exact .read hI hwin hs ⟨hwait, htop⟩
      · exact .read hI hwin hs.1 hwait
  | pushInsert x tp found =>
    intro hl
    obtain ⟨hwin, ⟨hs, hidx, hv⟩, hwait, htop⟩ := hf.at hl
    simp only [step]
    split_ifs with hcas
    · have hop : f.op = .put x := hs
      have hwait' : (pool w.shared w.ghost).Waiting t f.id (.put x) := hop ▸ hwait
      obtain ⟨hP, hins, hr⟩ := hI.slots.insert hwait' (i := (tp.value, found.index))
        (by rw [← hv, ← hcas]; rfl) ()
      have hpool := pool_insert (σ := w.shared) (g := w.ghost) (t := t)
        (i := (tp.value, found.index)) (x := x)
      have hkept : ∀ j, ((pool w.shared w.ghost).insert t (tp.value, found.index) x ()).mark j =
          .kept () → w.ghost.mark j = .kept () := by
        intro j hj
        by_cases hji : j = (tp.value, found.index)
        · subst hji
          simp [Pool.insert] at hj
        · simp only [Pool.insert, Function.update_of_ne hji] at hj
          exact hj
      rw [← hcas]
      have hrel : ∀ u, u ≠ t → Rely u _ _ _ _ := fun u hu => rely_setSlot hpool (hr u hu) hkept
      refine .go (hI.setSlot hpool hP htop.2.2 hkept) hrel hwin ⟨hs, hidx, rfl⟩ ⟨?_, htop⟩
      rw [hop]
      show (pool _ _).Inserted _ _ _ _ _ _
      rw [hpool]
      exact hins
    · exact .read hI hwin hs hwait
  | addRead x tp =>
    intro hl
    obtain ⟨hwin, hs, hwait, htop⟩ := hf.at hl
    simp only [step]
    split_ifs with hcas
    · exact .read hI hwin hs ⟨hwait, htop⟩
    · exact .read hI hwin hs hwait
  | addNew x tp =>
    intro hl
    obtain ⟨hwin, hs, hwait, htop⟩ := hf.at hl
    obtain ⟨hI', hown, hr⟩ := hI.segmentNew htop.2.2
    exact .go hI' (fun u _ => hr u) hwin hs
      ⟨Fact.Holds.rely (F := .waiting) hwait (hr t), hown⟩
  | addSwing x tp s =>
    intro hl
    obtain ⟨hwin, hs, hwait, hown⟩ := hf.at hl
    simp only [step]
    split_ifs with hcas
    · subst hcas
      obtain ⟨hI', hr⟩ := hI.addTop hown
      exact .go hI' (fun u _ => hr u) hwin hs hwait
    · exact .read hI hwin hs hwait
  | _ => trivial

/-- While an inserted item is pending, its slot holds the word that was written. -/
theorem word_of_pending (hI : Inv k w.events w.shared w.ghost) {i : ℕ × ℕ}
    {new : AtomicValue (Option α)} {s : Bool} {id : ℕ} (hnew : new.value = some x)
    (hm : w.ghost.mark i = .pending t ()) (hv : (w.shared.slot i).aba = new.aba)
    (hs : w.ghost.stat t = .pending id (.put x) s) : w.shared.slot i = new := by
  obtain ⟨id', y, s', hs', hy⟩ := hI.slots.pending i t () hm
  have hxy := hs.symm.trans hs'
  simp only [Status.pending.injEq, BagOp.put.injEq] at hxy
  obtain ⟨-, rfl, -⟩ := hxy
  have hy : (w.shared.slot i).value = some x := hy
  rw [← hnew] at hy
  cases hq : w.shared.slot i
  cases new
  simp_all

/-- `committed` returns true when the item is not in its slot any more. -/
theorem stop_of_gone (hI : Inv k w.events w.shared w.ghost) (hop : f.op = .put x) {i : ℕ × ℕ}
    {new : AtomicValue (Option α)} (hnew : new.value = some x)
    (hwin : ∀ s, t ∉ w.ghost.removers s)
    (hins : (pool w.shared w.ghost).Inserted t f.id f.op i new.aba ())
    (hne : w.shared.slot i ≠ new) : StepOk w t f (w.shared, .inr (.put true)) := by
  rcases hins with ⟨hm, hv, s, hs⟩ | ⟨-, hd⟩
  · rw [hop] at hs
    exact absurd (word_of_pending hI hnew hm hv hs) hne
  · exact .stop hI (fun _ _ => .refl ..) hwin (hop ▸ hd)

theorem committed_ok (hI : Inv k w.events w.shared w.ghost) (hf : Knows t f w)
    (hok : removeHeld t w.shared f.loc) (random : ℕ) (l : Local α) :
    match l with
    | .comSlot _ _ _ _ | .comRemove _ _ _ _ | .comRemoveAgain _ _ _ _ | .comTop _ _ _ _
    | .comBump _ _ _ _ | .comUndo _ _ _ _ =>
      f.loc = l → StepOk w t f (step k random w.shared l)
    | _ => True := by
  cases l with
  | comSlot x tp i new =>
    intro hl
    obtain ⟨hwin, ⟨hs, hidx, hnew⟩, hins, htop⟩ := hf.at hl
    simp only [step]
    split_ifs with hv
    · exact stop_of_gone hI hs hnew (not_mem_of_window hwin rfl) hins hv
    · exact .read hI hwin ⟨hs, hidx, hnew⟩ ⟨hins, htop⟩
  | comRemove x tp i new =>
    intro hl
    obtain ⟨hwin, ⟨hs, hidx, hnew⟩, hins, htop⟩ := hf.at hl
    have hout := not_mem_of_window hwin rfl
    simp only [step]
    split_ifs with h0
    · -- the segment is on the stack, and nobody is about to remove it
      obtain ⟨hmem, hno⟩ := hI.remove_eq_zero htop.2.1 h0
      rcases hins with ⟨hm, -, s, hst⟩ | ⟨-, hd⟩
      · rw [show f.op = .put x from hs] at hst
        refine .stop (hI.keep hm hst hidx hmem) (fun u hu => rely_keep hI hm hst hno hu) hout ?_
        rw [show f.op = .put x from hs]
        exact (hI.slots.keep hm hst ()).2.1
      · exact .stop hI (fun _ _ => .refl ..) hout hd
    · exact .read hI hwin ⟨hs, hidx, hnew⟩ hins
  | comRemoveAgain x tp i new =>
    intro hl
    obtain ⟨hwin, ⟨hs, hidx, hnew⟩, hins⟩ := hf.at hl
    simp only [removeHeld, hl, ne_eq, decide_not, Bool.not_eq_true',
      decide_eq_false_iff_not] at hok
    simp only [step]
    split_ifs with h1
    · exact .read hI hwin ⟨hs, hidx, hnew⟩ hins
    · exact absurd (Nat.lt_one_iff.mp (Nat.not_le.mp h1)) hok
  | comTop x tp i new =>
    intro hl
    obtain ⟨hwin, ⟨hs, hidx, hnew⟩, hins⟩ := hf.at hl
    simp only [step]
    split_ifs with hcas
    · exact .read hI hwin ⟨hs, hidx, hnew⟩ hins
    · exact .read hI hwin ⟨hs, hidx, hnew⟩ hins
  | comBump x tp i new =>
    intro hl
    obtain ⟨hwin, ⟨hs, hidx, hnew⟩, hins⟩ := hf.at hl
    have hout := not_mem_of_window hwin rfl
    simp only [step]
    split_ifs with hcas
    · subst hcas
      have hop : f.op = .put x := hs
      rcases hins with ⟨hm, -, s, hst⟩ | ⟨-, hd⟩
      · rw [hop] at hst
        obtain ⟨hI', hr⟩ := hI.keepAtTop hm hst hidx rfl (Nat.lt_succ_self _)
        refine .stop hI' hr hout ?_
        rw [hop]
        exact (hI.slots.keep hm hst ()).2.1
      · obtain ⟨hI', hr⟩ := hI.bumpTop (Nat.lt_succ_self _)
        exact .stop hI' (fun u _ => hr u) hout hd
    · exact .read hI hwin ⟨hs, hidx, hnew⟩ hins
  | comUndo x tp i new =>
    intro hl
    obtain ⟨hwin, ⟨hs, hidx, hnew⟩, hins⟩ := hf.at hl
    simp only [step]
    split_ifs with hcas
    · rcases hins with ⟨hm, -, s, hst⟩ | ⟨hn, -⟩
      · obtain ⟨hP, hwait, hr⟩ := hI.slots.withdraw hm hst
        have hpool := pool_withdraw (σ := w.shared) (g := w.ghost) (i := (tp.value, i))
        have hkept : ∀ j, ((pool w.shared w.ghost).withdraw (tp.value, i)).mark j = .kept () →
            w.ghost.mark j = .kept () := by
          intro j hj
          by_cases hji : j = (tp.value, i)
          · subst hji
            simp [Pool.withdraw] at hj
          · simp only [Pool.withdraw, Function.update_of_ne hji] at hj
            exact hj
        have hlt := hI.lt_alloc (i := (tp.value, i)) (by rw [hcas, hnew]; simp)
        rw [← hcas]
        refine .go (hI.setSlot hpool hP hlt hkept)
          (fun u hu => rely_setSlot hpool (hr u hu) hkept) hwin hs ?_
        show (pool _ _).Waiting _ _ _
        rw [hpool]
        exact hwait
      · -- the slot was written since, so its counter is greater
        have hn : new.aba < (w.shared.slot (tp.value, i)).aba := hn
        rw [hcas] at hn
        exact absurd hn (Nat.lt_irrefl _)
    · exact stop_of_gone hI hs hnew (not_mem_of_window hwin rfl) hins hcas
  | _ => trivial

theorem pop_ok (hk : 0 < k) (hI : Inv k w.events w.shared w.ghost) (hf : Knows t f w)
    (random : ℕ) (l : Local α) :
    match l with
    | .popTop | .popFind _ _ _ | .popCheck _ _ | .popSegment _ | .popTake _ _ | .popNext _
    | .popLast _ =>
      f.loc = l → StepOk w t f (step k random w.shared l)
    | _ => True := by
  cases l with
  | popTop =>
    intro hl
    obtain ⟨hwin, hs, hwait⟩ := hf.at hl
    exact .read hI hwin ⟨hs, hk⟩ ⟨hwait, top_read hI _ _⟩
  | popFind tp r j =>
    intro hl
    obtain ⟨hwin, ⟨hs, hj⟩, hwait, htop⟩ := hf.at hl
    simp only [step]
    split_ifs with hv hj'
    · exact .read hI hwin ⟨hs, hv⟩ hwait
    · exact .read hI hwin ⟨hs, hj'⟩ ⟨hwait, htop⟩
    · exact .read hI hwin hs ⟨hwait, htop⟩
  | popCheck tp found =>
    intro hl
    simp only [step]
    rcases found with _ | found
    · obtain ⟨hwin, hs, hwait, htop⟩ := hf.at hl
      split_ifs with hcas
      · exact .read hI hwin hs ⟨hwait, htop⟩
      · exact .read hI hwin hs hwait
    · obtain ⟨hwin, hs, hwait⟩ := hf.at hl
      split_ifs with hcas
      · exact .read hI hwin hs hwait
      · exact .read hI hwin hs.1 hwait
  | popSegment found =>
    intro hl
    obtain ⟨hwin, hs, hwait⟩ := hf.at hl
    exact .read hI hwin hs hwait
  | popTake s found =>
    intro hl
    obtain ⟨hwin, ⟨hs, hv⟩, hwait⟩ := hf.at hl
    simp only [step]
    split_ifs with hcas
    · obtain ⟨y, hy⟩ := Option.ne_none_iff_exists'.mp hv
      have hop : f.op = .get := hs
      have hwait' : (pool w.shared w.ghost).Waiting t f.id .get := hop ▸ hwait
      have hslot : (w.shared.slot (s, found.index)).value = some y := hcas ▸ hy
      obtain ⟨hP, hd, hr⟩ := hI.slots.take hwait' (i := (s, found.index)) hslot
      have hpool := pool_take (σ := w.shared) (g := w.ghost) (t := t) (i := (s, found.index))
      have hkept : ∀ j, ((pool w.shared w.ghost).take t (s, found.index)).mark j = .kept () →
          w.ghost.mark j = .kept () := by
        intro j hj
        by_cases hji : j = (s, found.index)
        · subst hji
          simp [Pool.take, Pool.withdraw] at hj
        · simp only [Pool.take, Pool.withdraw, Function.update_of_ne hji] at hj
          exact hj
      rw [← hcas]
      refine .stop (hI.setSlot hpool hP (hI.lt_alloc (by simp [hslot])) hkept)
        (fun u hu => rely_setSlot hpool (hr u hu) hkept) (not_mem_of_window hwin rfl) ?_
      rw [hpool, hop, hcas, hy]
      exact hd
    · exact .read hI hwin hs hwait
  | popNext tp =>
    intro hl
    obtain ⟨hwin, hs, hwait, htop⟩ := hf.at hl
    simp only [step]
    split_ifs with h0
    · exact .read hI hwin ⟨hs, hk⟩
        ⟨hwait, htop, ⟨htop.2.2, h0⟩, fun m hm => absurd hm (Nat.not_lt_zero m)⟩
    · exact .read hI hwin hs ⟨hwait, htop⟩
  | popLast tp =>
    intro hl
    obtain ⟨hwin, hs, hwait, hempty⟩ := hf.at hl
    simp only [step]
    split_ifs with hcas
    · exact .stopNone hI (not_mem_of_window hwin rfl)
        (hempty.resolve_right fun hb => hb.ne hcas.symm)
    · exact .read hI hwin hs hwait
  | _ => trivial

/-- After `is_empty` returned false. -/
theorem resume_false (hI : Inv k w.events w.shared w.ghost) {caller : Caller}
    {tp : AtomicPointer} (r j : ℕ) (records : ℕ → AtomicValue (Option α))
    (hwin : ∀ s, t ∈ w.ghost.removers s ↔
      (Local.emptyFirst caller tp r j records).window = some s) (hop : f.op = .get)
    (hwait : (pool w.shared w.ghost).Waiting t f.id f.op)
    (htop : (Fact.topRead tp).Holds k t f.id f.op w.shared w.ghost) :
    StepOk w t f (w.shared, .inl (caller.resume tp false)) := by
  cases caller with
  | pop => exact .read hI hwin hop hwait
  | remove => exact .read hI hwin hop ⟨hwait, htop⟩

theorem isEmpty_ok (hk : 0 < k) (hI : Inv k w.events w.shared w.ghost) (hf : Knows t f w)
    (random : ℕ) (l : Local α) :
    match l with
    | .emptyFirst _ _ _ _ _ | .emptySecond _ _ _ _ _ =>
      f.loc = l → StepOk w t f (step k random w.shared l)
    | _ => True := by
  cases l with
  | emptyFirst caller tp r j records =>
    intro hl
    obtain ⟨hwin, ⟨hs, hj⟩, hwait, htop, hbelow, hcol⟩ := hf.at hl
    simp only [step]
    split_ifs with hv hj'
    · exact resume_false hI r j records hwin hs hwait htop
    · rw [not_not] at hv
      refine .read hI ?_ ⟨hs, hj'⟩ ⟨hwait, htop, hbelow, collected_succ hcol hv⟩
      cases caller <;> exact hwin
    · rw [not_not] at hv
      obtain rfl : j + 1 = k := by omega
      have hwin' : ∀ records' : ℕ → AtomicValue (Option α), ∀ s, t ∈ w.ghost.removers s ↔
          (Local.emptySecond caller tp r 0 records').window = some s := by
        intro records'
        cases caller <;> exact hwin
      have hall := collected_all hI (collected_succ hcol hv)
      rcases hall with hno | ⟨m, hm, hlt⟩
      · cases caller with
        | remove =>
          refine .read hI (hwin' _) ⟨hs, hk⟩ ⟨hwait, htop, hbelow, .inl ⟨htop.1, ?_, fun _ => hno⟩⟩
          exact (hwin _).mpr rfl
        | pop =>
          by_cases hnow : w.shared.top = tp
          · -- the only segment holds no kept item: the stack is empty now
            subst hnow
            have hop : f.op = .get := hs
            have hwait' : (pool w.shared w.ghost).Waiting t f.id .get := hop ▸ hwait
            obtain ⟨hP, hseen⟩ := hI.slots.observe hwait' (bag_eq_none hI hbelow.2 hno)
            refine .go (hI.withPool rfl hP fun _ hj => hj)
              (fun u hu => (Rely.refl ..).setStat hu) (hwin' _) ⟨hs, hk⟩
              ⟨?_, htop, hbelow, .inl (.inl hseen)⟩
            rw [hop]
            exact hseen.waiting
          · exact .read hI (hwin' _) ⟨hs, hk⟩
              ⟨hwait, htop, hbelow, .inl (.inr (htop.1.resolve_left hnow))⟩
      · exact .read hI (hwin' _) ⟨hs, hk⟩
          ⟨hwait, htop, hbelow, .inr ⟨m, Nat.zero_le m, hm, hlt⟩⟩
  | emptySecond caller tp r j records =>
    intro hl
    obtain ⟨hwin, ⟨hs, hj⟩, hwait, htop, hbelow, hrec⟩ := hf.at hl
    simp only [step]
    split_ifs with hv hj'
    · refine resume_false hI r j records ?_ hs hwait htop
      cases caller <;> exact hwin
    · rw [not_not] at hv
      refine .read hI ?_ ⟨hs, hj'⟩ ⟨hwait, htop, hbelow, recollected_succ hrec hv⟩
      cases caller <;> exact hwin
    · rw [not_not] at hv
      obtain rfl : j + 1 = k := by omega
      have hempty : Empty t f.id w.shared w.ghost tp caller := by
        rcases recollected_succ hrec hv with h | ⟨m, h1, h2, -⟩
        · exact h
        · omega
      cases caller with
      | pop => exact .read hI hwin hs ⟨hwait, hempty⟩
      | remove => exact .read hI hwin hs ⟨hwait, htop, hbelow, hempty⟩
  | _ => trivial

omit [DecidableEq α] in
/-- The call lowers the `remove` counter again, or has removed the segment. -/
theorem not_mem_erase {s : ℕ} (hwin : ∀ s', t ∈ g.removers s' ↔ l.window = some s')
    (hl : l.window = some s) (s' : ℕ) :
    t ∈ Function.update g.removers s ((g.removers s).erase t) s' ↔ none = some s' := by
  by_cases he : s' = s
  · subst he
    simp
  · simp [he, hwin s', hl, Ne.symm he]

theorem remove_ok (hk : 0 < k) (hI : Inv k w.events w.shared w.ghost) (hf : Knows t f w)
    (random : ℕ) (l : Local α) :
    match l with
    | .remTop _ | .remNext _ _ | .remCheck _ _ | .remAdd _ | .remRead _ | .remSwing _ _
    | .remSub _ =>
      f.loc = l → StepOk w t f (step k random w.shared l)
    | _ => True := by
  cases l with
  | remTop tp =>
    intro hl
    obtain ⟨hwin, hs, hwait, htop⟩ := hf.at hl
    refine .read hI hwin hs ⟨hwait, htop, ?_⟩
    exact htop.1
  | remNext tp u =>
    intro hl
    obtain ⟨hwin, hs, hwait, htop, hsame⟩ := hf.at hl
    refine .read hI hwin hs ⟨hwait, htop, ?_⟩
    refine Or.imp_left (fun he => ⟨htop.2.2, ?_⟩) hsame
    rw [he]
  | remCheck tp nx =>
    intro hl
    obtain ⟨hwin, hs, hwait, htop, hnext⟩ := hf.at hl
    simp only [step]
    split_ifs with hcas h0
    · rcases hnext with ⟨hlt, rfl⟩ | hb
      · exact .read hI hwin hs ⟨hwait, htop, hlt, h0⟩
      · exact absurd hcas.symm hb.ne
    · exact .read hI hwin hs hwait
    · exact .read hI hwin hs hwait
  | remAdd tp =>
    intro hl
    obtain ⟨hwin, hs, hwait, htop, hbelow⟩ := hf.at hl
    have hout := not_mem_of_window hwin rfl
    have hcount := hI.count tp.value
    obtain ⟨hI', hr⟩ := hI.setRemove (t := t) (n := (w.shared.segment tp.value).remove + 1)
      (r := insert t (w.ghost.removers tp.value)) htop.2.2
      (by rw [Finset.card_insert_of_notMem (hout _)]; omega) (fun u hu => by simp [hu])
    refine .go hI' hr (fun s => ?_) ⟨hs, hk⟩
      ⟨?_, htop, ⟨hbelow.1, ?_⟩, fun m hm => absurd hm (Nat.not_lt_zero m)⟩
    · by_cases he : s = tp.value
      · subst he
        simp [Local.window]
      · simp [Local.window, he, Ne.symm he, hout s]
    · show (pool _ _).Waiting _ _ _
      rw [pool_setRemove]
      exact hwait
    · rw [next_setRemove]
      exact hbelow.2
  | remRead tp =>
    intro hl
    obtain ⟨hwin, hs, hwait, htop, hbelow, hempty⟩ := hf.at hl
    exact .read hI hwin hs ⟨hwait, htop, ⟨htop.2.2, rfl, hbelow.2⟩, hempty⟩
  | remSwing tp n =>
    intro hl
    obtain ⟨hwin, hs, hwait, htop, hnext, hempty⟩ := hf.at hl
    simp only [step]
    split_ifs with hcas
    · subst hcas
      obtain ⟨-, rfl, h0⟩ := hnext
      obtain ⟨hI', hr⟩ := hI.removeTop hempty.2.1 (hempty.2.2 rfl) h0 rfl
      exact .go hI' hr (not_mem_erase hwin rfl) hs hwait
    · exact .read hI hwin hs ⟨hwait, htop⟩
  | remSub tp =>
    intro hl
    obtain ⟨hwin, hs, hwait, htop⟩ := hf.at hl
    have hmem := (hwin tp.value).mpr rfl
    have hcount := hI.count tp.value
    have hpos := Finset.card_pos.mpr ⟨t, hmem⟩
    obtain ⟨hI', hr⟩ := hI.setRemove (t := t) (n := (w.shared.segment tp.value).remove - 1)
      (r := (w.ghost.removers tp.value).erase t) htop.2.2
      (by rw [Finset.card_erase_of_mem hmem]; omega) (fun u hu => by simp [hu])
    refine .go hI' hr (not_mem_erase hwin rfl) hs ?_
    show (pool _ _).Waiting _ _ _
    rw [pool_setRemove]
    exact hwait
  | _ => trivial

theorem step_ok (hk : 0 < k) (hI : Inv k w.events w.shared w.ghost) (hf : Knows t f w)
    (hok : removeHeld t w.shared f.loc) (random : ℕ) :
    StepOk w t f (step k random w.shared f.loc) := by
  have hpush := push_ok hk hI hf random f.loc
  have hcom := committed_ok hI hf hok random f.loc
  have hpop := pop_ok hk hI hf random f.loc
  have hempty := isEmpty_ok hk hI hf random f.loc
  have hrem := remove_ok hk hI hf random f.loc
  cases hl : f.loc <;> rw [hl] at hpush hcom hpop hempty hrem <;>
    first
      | exact hpush rfl
      | exact hcom rfl
      | exact hpop rfl
      | exact hempty rfl
      | exact hrem rfl

/-! ### All runs -/

omit [DecidableEq α] in
theorem inv_init : Inv k [] (Shared.init : Shared α)
    ⟨[1], fun _ => false, fun _ => ∅, fun _ => .free, fun _ => .idle⟩ where
  slots := Pool.inv_init _
  stack := .cons Nat.one_ne_zero .nil
  top := Nat.one_ne_zero
  bound := by
    intro s hs
    obtain rfl : s = 1 := by simpa [Ghost.Published] using hs
    exact ⟨Nat.one_ne_zero, Nat.one_lt_two⟩
  fresh := fun _ _ => ⟨rfl, rfl⟩
  count := by simp
  kept := by simp

theorem outline_sound (hk : 0 < k) : (outline k α).Sound removeHeld where
  init := ⟨_, inv_init, fun t => ⟨⟨fun _ _ => by simp [pool], rfl⟩, by simp⟩⟩
  stable := by
    rintro w e σ g t (_ | f) - - hf - hr
    · exact ⟨Pool.Idle.rely hf.1 hr.slots, fun s hs => hf.2 s ((hr.removers s).mp hs)⟩
    · exact ⟨hf.shape, fun s => (hr.removers s).trans (hf.window s),
        hf.facts.imp fun F hF => hF.rely hr⟩
  call := by
    intro w t op hI ⟨hidle, hout⟩ _
    obtain ⟨hP, hwait⟩ := hI.slots.inv hidle op
    refine ⟨w.ghost.withPool
      ((pool w.shared w.ghost).setStat t (.pending w.events.length op false)), ?_, ?_,
      fun u hu => (Rely.refl ..).setStat hu⟩
    · have hI' := hI.withPool rfl hP fun _ hj => hj
      simpa [outline] using hI'
    · rw [World.length_events] at hwait ⊢
      have hwin : ∀ s, t ∈ w.ghost.removers s ↔ none = some s := fun s => by simp [hout s]
      cases op
      · exact ⟨rfl, hwin, hwait⟩
      · exact ⟨rfl, hwin, hwait⟩
  run := by
    intro w t f random σ o hI hf hok hs
    have h := step_ok hk hI hf hok random
    rw [Option.some.inj hs] at h
    exact h

/-- A push returns true only. -/
theorem step_not_refused (random : ℕ) (σ : Shared α) (l : Local α) {r : BagRet α} :
    (step k random σ l).2 = .inr r → r.refused = false := by
  fun_cases step k random σ l <;> intro h <;> cases h <;> rfl

theorem not_refused {ok : ℕ → Shared α → Local α → Bool} {c : Config (machine k α)}
    (hc : Reach (machine k α) ok c) :
    ∀ t r, .res t r ∈ c.events → r.refused = false :=
  hc.responses fun _ _ _ hs =>
    step_not_refused _ _ _ (congrArg Prod.snd (Option.some.inj hs))

/-- **The k-stack is a linearizable bag** in every run in which `committed` does not
find the `remove` counter lowered to zero between its two reads. -/
theorem linearizable_of_removeHeld (hk : 0 < k) {c : Config (machine k α)}
    (hc : Reach (machine k α) removeHeld c) : Linearizable (unboundedBagSpec α) c.events := by
  obtain ⟨g, hinv, -⟩ := (outline_sound hk).reach hc
  exact hinv.slots.lin.linearizable.unbounded (not_refused hc)

/-- Thread 1 is about to remove the empty top segment when thread 0 inserts into it, and
keeps its item by changing the word of `*top_`. -/
def keptAtTop : List (Action (machine 1 ℕ)) :=
  List.flatten [[.call 0 (.put 1)], turns 0 0 6, [.call 0 (.put 2)], turns 0 0 12,
    [.call 0 .get], turns 0 0 5, [.call 0 (.put 5)], turns 0 0 3, [.call 1 .get], turns 1 0 8,
    turns 0 0 6, turns 1 0 7]

theorem linearizable_keptAtTop :
    ∃ c : Config (machine 1 ℕ), c.events.length = 52 ∧
      Linearizable (unboundedBagSpec ℕ) c.events := by
  have h : ((Config.init (machine 1 ℕ)).exec removeHeld keptAtTop).isSome = true := by decide
  exact ⟨((Config.init (machine 1 ℕ)).exec removeHeld keptAtTop).get h, rfl,
    linearizable_of_removeHeld (by decide) (Reach.schedule keptAtTop h)⟩

/-- Thread 1 raises the `remove` counter of the empty top segment, and thread 0 inserts
`5` there and finds the counter at one.  Thread 1 finds the item and lowers the counter;
thread 0 reads it again, finds it at zero, and inserts `5` once more, into a new segment.
Then threads 1 and 2 both get `5`. -/
def removeLowered : List (Action (machine 1 ℕ)) :=
  List.flatten [[.call 0 (.put 1)], turns 0 0 6, [.call 0 (.put 2)], turns 0 0 12,
    [.call 0 .get], turns 0 0 5, [.call 0 (.put 5)], turns 0 0 3, [.call 1 .get], turns 1 0 8,
    turns 0 0 3, turns 1 0 2, turns 0 0 13, turns 1 0 5, [.call 2 .get], turns 2 0 17]

/-- **Not every run is a linearizable bag.** -/
theorem not_linearizable_removeLowered : ∃ c : Config (machine 1 ℕ),
    Reach (machine 1 ℕ) always c ∧ ¬ Linearizable (unboundedBagSpec ℕ) c.events := by
  obtain ⟨c, hc, hp⟩ := Reach.exists_of_any always removeLowered
    (fun c => response c.events 30 = some (61, .got (some 5)) &&
      response c.events 62 = some (79, .got (some 5)) && onePut c.events 5 26) (by decide +kernel)
  simp only [Bool.and_eq_true, decide_eq_true_eq] at hp
  obtain ⟨⟨hfirst, hsecond⟩, hput⟩ := hp
  exact ⟨c, hc, fun hl =>
    not_linearizable_of_duplicated (by decide) hfirst hsecond hput hl.bounded⟩

end Outline

end KStack

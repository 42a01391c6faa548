/-
The invariant of the unbounded-size k-FIFO queue.

All segments ever linked form a chain, with head and tail at positions `hp` and
`tp`.  Kept items lie between them (`Inv.kept`).  An item is kept in one of two
ways, and its mark says which: with mark `true` because it was ahead of head when
`committed` read `*head_`, or with mark `false` because `committed` changed the
word of `*head_`.  Segments behind head are flagged as deleted; head's own may be
flagged before head moves on, or although head does not move on, but only when it
holds no item that was kept ahead of head (`Inv.ahead`).

The changes of the memory each keep the invariant and give the other threads what
they rely on (`Rely`).
-/
import Scal.UnboundedSizeKFifo
import Scal.SlotPool
import Scal.Chain

open Interleave Linearizability

namespace UnboundedSizeKFifo

variable {α : Type}

/-- The segments linked so far, the thread that allocated each segment, the positions
of head and tail, and the marks and statuses of the pool. -/
structure Ghost (α : Type) where
  chain : List ℕ
  owner : ℕ → ℕ
  hp : ℕ
  tp : ℕ
  mark : ℕ × ℕ → Mark Bool
  stat : ℕ → Status α

def pool (σ : Shared α) (g : Ghost α) : Pool (ℕ × ℕ) α Bool :=
  ⟨fun i => (σ.slot i).value, σ.version, g.mark, g.stat⟩

def Ghost.withPool (g : Ghost α) (P : Pool (ℕ × ℕ) α Bool) : Ghost α :=
  { g with mark := P.mark, stat := P.stat }

structure Inv (k : ℕ) (h : List (Event (BagOp α) (BagRet α))) (σ : Shared α) (g : Ghost α) :
    Prop where
  slots : (pool σ g).Inv h
  chain : Chain (fun s => (σ.segment s).next) σ.alloc g.chain
  head : g.chain[g.hp]? = some σ.head.value
  tail : g.chain[g.tp]? = some σ.tail.value
  le : g.hp ≤ g.tp
  fresh : ∀ s, σ.alloc ≤ s → σ.segment s = .new
  deleted : ∀ s, (σ.segment s).deleted = true → ∃ p ≤ g.hp, g.chain[p]? = some s
  passed : ∀ p s, p < g.hp → g.chain[p]? = some s → (σ.segment s).deleted = true
  kept : ∀ i b, g.mark i = .kept b →
    i.2 < k ∧ ∃ p, g.hp ≤ p ∧ p ≤ g.tp ∧ g.chain[p]? = some i.1
  ahead : ∀ i, g.mark i = .kept true → (σ.segment i.1).deleted = false

/-- What thread `u` relies on about the steps of other threads. -/
structure Rely (u : ℕ) (σ : Shared α) (g : Ghost α) (σ' : Shared α) (g' : Ghost α) : Prop where
  slots : Pool.Rely u (pool σ g) (pool σ' g')
  word : ∀ i, σ'.version i = σ.version i → σ'.slot i = σ.slot i
  chain : g.chain <+: g'.chain
  alloc : σ.alloc ≤ σ'.alloc
  hp : g.hp ≤ g'.hp
  tp : g.tp ≤ g'.tp
  head : σ'.head = σ.head ∨ σ.head.aba < σ'.head.aba
  tail : σ'.tail = σ.tail ∨ g.tp < g'.tp
  deleted : ∀ s, (σ.segment s).deleted = true → (σ'.segment s).deleted = true
  own : ∀ s < σ.alloc, g.owner s = u → s ∉ g.chain → g'.owner s = u ∧ s ∉ g'.chain ∧
    (σ'.segment s).next = (σ.segment s).next
  kept : σ'.head = σ.head → ∀ j b, g'.mark (σ.head.value, j) = .kept b →
    g.mark (σ.head.value, j) = .kept b
  ahead : ∀ p ≤ g.hp, ∀ s, g.chain[p]? = some s → ∀ j, g'.mark (s, j) = .kept true →
    g.mark (s, j) = .kept true

theorem Rely.refl (u : ℕ) (σ : Shared α) (g : Ghost α) : Rely u σ g σ g :=
  ⟨.refl .., fun _ _ => rfl, List.prefix_refl _, le_rfl, le_rfl, le_rfl, .inl rfl, .inl rfl,
    fun _ h => h, fun _ _ ho hc => ⟨ho, hc, rfl⟩, fun _ _ _ h => h, fun _ _ _ _ _ h => h⟩

theorem Rely.head_le {u : ℕ} {σ σ' : Shared α} {g g' : Ghost α} (hr : Rely u σ g σ' g') :
    σ.head.aba ≤ σ'.head.aba := by
  rcases hr.head with h | h
  · rw [h]
  · exact h.le

/-- Words of `*head_` do not come back. -/
theorem Rely.head_back {u : ℕ} {σ σ' : Shared α} {g g' : Ghost α} (hr : Rely u σ g σ' g')
    {w : AtomicPointer} (hw : w.aba ≤ σ.head.aba) (hw' : σ'.head = w) :
    σ.head = w ∧ σ'.head = σ.head := by
  rcases hr.head with h | h
  · exact ⟨h.symm.trans hw', h⟩
  · rw [hw'] at h
    omega

/-- A step with which only the status of thread `t` changes, after others. -/
theorem Rely.setStat {u t : ℕ} {σ σ' : Shared α} {g g' : Ghost α} (hr : Rely u σ g σ' g')
    {st : Status α} (hu : u ≠ t) :
    Rely u σ g σ' (g'.withPool ((pool σ' g').setStat t st)) :=
  ⟨hr.slots.trans (Pool.rely_setStat hu), hr.word, hr.chain, hr.alloc, hr.hp, hr.tp, hr.head,
    hr.tail, hr.deleted, hr.own, hr.kept, hr.ahead⟩

/-! ### Slots -/

section Slots

variable {k : ℕ} {h : List (Event (BagOp α) (BagRet α))} {σ : Shared α} {g : Ghost α}
  {t : ℕ} {i : ℕ × ℕ} {w : AtomicValue (Option α)} {x : α}

theorem slot_setSlot : (σ.setSlot i w).slot = Function.update σ.slot i w := by
  funext j
  obtain ⟨s, m⟩ := i
  obtain ⟨s', m'⟩ := j
  by_cases hs : s' = s
  · subst hs
    by_cases hm : m' = m
    · subst hm
      simp [Shared.slot, Shared.setSlot]
    · simp [Shared.slot, Shared.setSlot, hm]
  · simp [Shared.slot, Shared.setSlot, hs]

theorem segment_setSlot (s : ℕ) : ((σ.setSlot i w).segment s).next = (σ.segment s).next ∧
    ((σ.setSlot i w).segment s).deleted = (σ.segment s).deleted := by
  by_cases hs : s = i.1
  · subst hs
    simp [Shared.setSlot]
  · simp [Shared.setSlot, hs]

/-- A slot that holds an item belongs to an allocated segment. -/
theorem Inv.lt_alloc (hI : Inv k h σ g) (hv : (σ.slot i).value ≠ none) : i.1 < σ.alloc := by
  by_contra hlt
  refine hv ?_
  rw [Shared.slot, hI.fresh i.1 (by omega)]
  rfl

theorem value_update (w : AtomicValue (Option α)) :
    (fun j => (Function.update σ.slot i w j).value) =
      Function.update (fun j => (σ.slot j).value) i w.value := by
  funext j
  by_cases hj : j = i
  · subst hj; simp
  · simp [hj]

theorem pool_insert {p : Bool} (a : ℕ) : pool (σ.setSlot i ⟨some x, a⟩)
    (g.withPool ((pool σ g).insert t i x p)) = (pool σ g).insert t i x p := by
  simp only [pool, Ghost.withPool, Pool.insert, slot_setSlot, value_update]
  rfl

theorem pool_withdraw (a : ℕ) : pool (σ.setSlot i ⟨none, a⟩)
    (g.withPool ((pool σ g).withdraw i)) = (pool σ g).withdraw i := by
  simp only [pool, Ghost.withPool, Pool.withdraw, slot_setSlot, value_update]
  rfl

theorem pool_take (a : ℕ) : pool (σ.setSlot i ⟨none, a⟩)
    (g.withPool ((pool σ g).take t i)) = (pool σ g).take t i := by
  simp only [pool, Ghost.withPool, Pool.take, Pool.withdraw, slot_setSlot, value_update]
  rfl

/-- A slot is written, and no item becomes kept. -/
theorem Inv.setSlot (hI : Inv k h σ g) {P' : Pool (ℕ × ℕ) α Bool}
    (hP : pool (σ.setSlot i w) (g.withPool P') = P') (hP' : P'.Inv h) (hlt : i.1 < σ.alloc)
    (hk : ∀ j b, P'.mark j = .kept b → g.mark j = .kept b) :
    Inv k h (σ.setSlot i w) (g.withPool P') := by
  refine ⟨by rw [hP]; exact hP', hI.chain.congr le_rfl fun s _ => (segment_setSlot s).1,
    hI.head, hI.tail, hI.le, fun s hs => ?_, fun s hs => ?_, fun p s hp hs => ?_,
    fun j b hj => hI.kept j b (hk j b hj), fun j hj => ?_⟩
  · change σ.alloc ≤ s at hs
    have hne : s ≠ i.1 := by omega
    rw [← hI.fresh s hs]
    simp [Shared.setSlot, hne]
  · exact hI.deleted s ((segment_setSlot s).2.symm.trans hs)
  · exact (segment_setSlot s).2.trans (hI.passed p s hp hs)
  · exact (segment_setSlot j.1).2.trans (hI.ahead j (hk j true hj))

theorem rely_setSlot {u : ℕ} {P' : Pool (ℕ × ℕ) α Bool}
    (hP : pool (σ.setSlot i w) (g.withPool P') = P') (hr : Pool.Rely u (pool σ g) P')
    (hk : ∀ j b, P'.mark j = .kept b → g.mark j = .kept b) :
    Rely u σ g (σ.setSlot i w) (g.withPool P') := by
  refine ⟨by rw [hP]; exact hr, fun j hj => ?_, List.prefix_refl _, le_rfl, le_rfl, le_rfl,
    .inl rfl, .inl rfl, fun s hs => (segment_setSlot s).2.trans hs,
    fun s _ ho hc => ⟨ho, hc, (segment_setSlot s).1⟩, fun _ j b hj => hk _ b hj,
    fun _ _ s _ j hj => hk _ true hj⟩
  have hne : j ≠ i := by
    rintro rfl
    simp [Shared.setSlot] at hj
  rw [slot_setSlot, Function.update_of_ne hne]

/-- Only marks and statuses change, and no item becomes kept. -/
theorem Inv.withPool {h' : List (Event (BagOp α) (BagRet α))} (hI : Inv k h σ g)
    {P' : Pool (ℕ × ℕ) α Bool} (hP : pool σ (g.withPool P') = P') (hP' : P'.Inv h')
    (hk : ∀ j b, P'.mark j = .kept b → g.mark j = .kept b) : Inv k h' σ (g.withPool P') :=
  ⟨by rw [hP]; exact hP', hI.chain, hI.head, hI.tail, hI.le, hI.fresh, hI.deleted, hI.passed,
    fun j b hj => hI.kept j b (hk j b hj), fun j hj => hI.ahead j (hk j true hj)⟩

/-! ### Keeping an item -/

theorem mark_keep {p b : Bool} {j : ℕ × ℕ}
    (hj : ((pool σ g).keep t i p).mark j = .kept b) : j = i ∧ p = b ∨ g.mark j = .kept b := by
  by_cases hji : j = i
  · subst hji
    simp only [Pool.keep, Function.update_self, Mark.kept.injEq] at hj
    exact .inl ⟨rfl, hj⟩
  · simp only [Pool.keep, Function.update_of_ne hji] at hj
    exact .inr hj

/-- **Keeping** an item ahead of head. -/
theorem Inv.keepAhead (hI : Inv k h σ g) {id p : ℕ} {s b : Bool} (hm : g.mark i = .pending t b)
    (hs : g.stat t = .pending id (.put x) s) (hi : i.2 < k) (hp : g.chain[p]? = some i.1)
    (hlt : g.hp < p) (hle : p ≤ g.tp) :
    Inv k h σ (g.withPool ((pool σ g).keep t i true)) ∧
      ∀ u, u ≠ t → Rely u σ g σ (g.withPool ((pool σ g).keep t i true)) := by
  obtain ⟨hP, -, hr⟩ := hI.slots.keep hm hs true
  have hdel : (σ.segment i.1).deleted = false := by
    by_contra hd
    obtain ⟨q, hq, hqi⟩ := hI.deleted i.1 (by simpa using hd)
    have := hI.chain.pos_unique hp hqi
    omega
  refine ⟨⟨hP, hI.chain, hI.head, hI.tail, hI.le, hI.fresh, hI.deleted, hI.passed,
    fun j b hj => ?_, fun j hj => ?_⟩, fun u hu => ⟨hr u hu, fun _ _ => rfl, List.prefix_refl _,
    le_rfl, le_rfl, le_rfl, .inl rfl, .inl rfl, fun _ h => h, fun _ _ ho hc => ⟨ho, hc, rfl⟩,
    fun _ j b hj => ?_, fun q hq s hqs j hj => ?_⟩⟩
  · rcases mark_keep (t := t) hj with ⟨rfl, -⟩ | hj
    · exact ⟨hi, p, hlt.le, hle, hp⟩
    · exact hI.kept j b hj
  · rcases mark_keep (t := t) hj with ⟨rfl, -⟩ | hj
    · exact hdel
    · exact hI.ahead j hj
  · refine (mark_keep (t := t) hj).resolve_left fun ⟨hji, _⟩ => ?_
    have := hI.chain.pos_unique hI.head (hji ▸ hp)
    omega
  · refine (mark_keep (t := t) hj).resolve_left fun ⟨hji, _⟩ => ?_
    have := hI.chain.pos_unique hqs (hji ▸ hp)
    omega

/-- **Keeping** an item in head's segment, by changing the word of `*head_`. -/
theorem Inv.keepAtHead (hI : Inv k h σ g) {id a : ℕ} {s b : Bool} (hm : g.mark i = .pending t b)
    (hs : g.stat t = .pending id (.put x) s) (hi : i.2 < k) (hhead : i.1 = σ.head.value)
    (ha : σ.head.aba < a) :
    Inv k h { σ with head := ⟨σ.head.value, a⟩ } (g.withPool ((pool σ g).keep t i false)) ∧
      ∀ u, u ≠ t → Rely u σ g { σ with head := ⟨σ.head.value, a⟩ }
        (g.withPool ((pool σ g).keep t i false)) := by
  obtain ⟨hP, -, hr⟩ := hI.slots.keep hm hs false
  refine ⟨⟨hP, hI.chain, hI.head, hI.tail, hI.le, hI.fresh, hI.deleted, hI.passed,
    fun j b hj => ?_, fun j hj => ?_⟩, fun u hu => ⟨hr u hu, fun _ _ => rfl, List.prefix_refl _,
    le_rfl, le_rfl, le_rfl, .inr ha, .inl rfl, fun _ h => h, fun _ _ ho hc => ⟨ho, hc, rfl⟩,
    fun he => ?_, fun q hq s hqs j hj => ?_⟩⟩
  · rcases mark_keep (t := t) hj with ⟨rfl, -⟩ | hj
    · exact ⟨hi, g.hp, le_rfl, hI.le, hhead ▸ hI.head⟩
    · exact hI.kept j b hj
  · rcases mark_keep (t := t) hj with ⟨-, hf⟩ | hj
    · simp at hf
    · exact hI.ahead j hj
  · exact absurd (congrArg AtomicValue.aba he) ha.ne'
  · exact (mark_keep (t := t) hj).resolve_left fun ⟨_, hf⟩ => by simp at hf

end Slots

/-! ### Head and tail -/

section Ends

variable {k : ℕ} {h : List (Event (BagOp α) (BagRet α))} {σ : Shared α} {g : Ghost α} {t : ℕ}

theorem Inv.bumpHead (hI : Inv k h σ g) {a : ℕ} (ha : σ.head.aba < a) :
    Inv k h { σ with head := ⟨σ.head.value, a⟩ } g ∧
      ∀ u, Rely u σ g { σ with head := ⟨σ.head.value, a⟩ } g :=
  ⟨⟨hI.slots, hI.chain, hI.head, hI.tail, hI.le, hI.fresh, hI.deleted, hI.passed, hI.kept,
    hI.ahead⟩, fun _ => ⟨.refl .., fun _ _ => rfl, List.prefix_refl _, le_rfl, le_rfl, le_rfl,
    .inr ha, .inl rfl, fun _ h => h, fun _ _ ho hc => ⟨ho, hc, rfl⟩, fun _ _ _ h => h,
    fun _ _ _ _ _ h => h⟩⟩

/-- **Moving head** to the next segment, when its own is flagged and holds no kept
item. -/
theorem Inv.moveHead (hI : Inv k h σ g) {s : ℕ} (hs : g.chain[g.hp + 1]? = some s)
    (hlt : g.hp < g.tp) (hdel : (σ.segment σ.head.value).deleted = true)
    (hno : ∀ j b, g.mark (σ.head.value, j) ≠ .kept b) :
    Inv k h { σ with head := ⟨s, σ.head.aba + 1⟩ } { g with hp := g.hp + 1 } ∧
      ∀ u, Rely u σ g { σ with head := ⟨s, σ.head.aba + 1⟩ } { g with hp := g.hp + 1 } := by
  refine ⟨⟨hI.slots, hI.chain, hs, hI.tail, hlt, hI.fresh, fun s hs => ?_, fun p s hp hps => ?_,
    fun i b hi => ?_, hI.ahead⟩, fun _ => ⟨.refl .., fun _ _ => rfl, List.prefix_refl _, le_rfl,
    Nat.le_succ _, le_rfl, .inr (Nat.lt_succ_self _), .inl rfl, fun _ h => h,
    fun _ _ ho hc => ⟨ho, hc, rfl⟩, fun _ _ _ h => h, fun _ _ _ _ _ h => h⟩⟩
  · obtain ⟨p, hp, hps⟩ := hI.deleted s hs
    exact ⟨p, Nat.le_succ_of_le hp, hps⟩
  · rcases Nat.lt_or_eq_of_le (Nat.le_of_lt_succ hp) with hp | rfl
    · exact hI.passed p s hp hps
    · obtain rfl : σ.head.value = s := by
        have := hI.head
        rw [hps] at this
        exact (Option.some.inj this).symm
      exact hdel
  · obtain ⟨hk, p, hp, hpt, hps⟩ := hI.kept i b hi
    refine ⟨hk, p, ?_, hpt, hps⟩
    change g.hp + 1 ≤ p
    have hne : p ≠ g.hp := by
      rintro rfl
      rw [hI.head, Option.some.injEq] at hps
      exact hno i.2 b (hps ▸ hi)
    omega

theorem Inv.moveTail (hI : Inv k h σ g) {s a : ℕ} (hs : g.chain[g.tp + 1]? = some s) :
    Inv k h { σ with tail := ⟨s, a⟩ } { g with tp := g.tp + 1 } ∧
      ∀ u, Rely u σ g { σ with tail := ⟨s, a⟩ } { g with tp := g.tp + 1 } := by
  refine ⟨⟨hI.slots, hI.chain, hI.head, hs, Nat.le_succ_of_le hI.le, hI.fresh, hI.deleted,
    hI.passed, fun i b hi => ?_, hI.ahead⟩, fun _ => ⟨.refl .., fun _ _ => rfl,
    List.prefix_refl _, le_rfl, le_rfl, Nat.le_succ _, .inl rfl, .inr (Nat.lt_succ_self _),
    fun _ h => h, fun _ _ ho hc => ⟨ho, hc, rfl⟩, fun _ _ _ h => h, fun _ _ _ _ _ h => h⟩⟩
  obtain ⟨hk, p, hp, hpt, hps⟩ := hI.kept i b hi
  exact ⟨hk, p, hp, Nat.le_succ_of_le hpt, hps⟩

/-- **Flagging** a segment that head has reached, and that holds no item kept ahead. -/
theorem Inv.delete (hI : Inv k h σ g) {p s : ℕ} (hp : p ≤ g.hp) (hs : g.chain[p]? = some s)
    (hno : ∀ j, g.mark (s, j) ≠ .kept true) :
    Inv k h (σ.delete s) g ∧ ((σ.delete s).segment s).deleted = true ∧
      ∀ u, Rely u σ g (σ.delete s) g := by
  have hnext : ∀ s', ((σ.delete s).segment s').next = (σ.segment s').next := by
    intro s'
    by_cases h : s' = s
    · subst h; simp [Shared.delete]
    · simp [Shared.delete, h]
  have hdel : ∀ s', ((σ.delete s).segment s').deleted = true ↔
      s' = s ∨ (σ.segment s').deleted = true := by
    intro s'
    by_cases h : s' = s
    · subst h; simp [Shared.delete]
    · simp [Shared.delete, h]
  have hslot : (σ.delete s).slot = σ.slot := by
    funext i
    by_cases h : i.1 = s
    · subst h; simp [Shared.slot, Shared.delete]
    · simp [Shared.slot, Shared.delete, h]
  have hpool : pool (σ.delete s) g = pool σ g := by
    simp only [pool, hslot]
    rfl
  refine ⟨⟨by rw [hpool]; exact hI.slots, hI.chain.congr le_rfl fun s' _ => hnext s', hI.head,
    hI.tail, hI.le, fun s' hs' => ?_, fun s' hs' => ?_, fun q s' hq hqs => ?_, hI.kept,
    fun i hi => ?_⟩, (hdel s).mpr (.inl rfl), fun u => ⟨by rw [hpool]; exact .refl ..,
    fun i _ => congrFun hslot i, List.prefix_refl _, le_rfl, le_rfl, le_rfl, .inl rfl, .inl rfl,
    fun s' h => (hdel s').mpr (.inr h), fun s' _ ho hc => ⟨ho, hc, hnext s'⟩,
    fun _ _ _ h => h, fun _ _ _ _ _ h => h⟩⟩
  · have hne : s' ≠ s := fun h => by
      have h1 := hI.chain.lt_alloc hs
      have h2 : σ.alloc ≤ s' := hs'
      omega
    rw [← hI.fresh s' hs']
    simp [Shared.delete, hne]
  · rcases (hdel s').mp hs' with rfl | h
    · exact ⟨p, hp, hs⟩
    · exact hI.deleted s' h
  · exact (hdel s').mpr (.inr (hI.passed q s' hq hqs))
  · have h := hI.ahead i hi
    by_contra hd
    rcases (hdel i.1).mp (by simpa using hd) with hi1 | hd
    · exact hno i.2 (hi1 ▸ hi)
    · simp [h] at hd

/-! ### New segments -/

/-- A segment that thread `t` allocated and has not linked yet. -/
structure Own (t s : ℕ) (σ : Shared α) (g : Ghost α) : Prop where
  owner : g.owner s = t
  lt : s < σ.alloc
  ne : s ≠ 0
  unlinked : s ∉ g.chain
  next : (σ.segment s).next = ⟨0, 0⟩

theorem Own.rely {s : ℕ} {σ' : Shared α} {g' : Ghost α} (ho : Own t s σ g)
    (hr : Rely t σ g σ' g') : Own t s σ' g' := by
  obtain ⟨h1, h2, h3⟩ := hr.own s ho.lt ho.owner ho.unlinked
  exact ⟨h1, ho.lt.trans_le hr.alloc, ho.ne, h2, h3.trans ho.next⟩

theorem Inv.ksegmentNew (hI : Inv k h σ g) (t : ℕ) :
    Inv k h σ.ksegmentNew { g with owner := Function.update g.owner σ.alloc t } ∧
      Own t σ.alloc σ.ksegmentNew { g with owner := Function.update g.owner σ.alloc t } ∧
      ∀ u, Rely u σ g σ.ksegmentNew { g with owner := Function.update g.owner σ.alloc t } := by
  have hseg : σ.ksegmentNew.segment = σ.segment := by
    rw [Shared.ksegmentNew, ← hI.fresh σ.alloc le_rfl]
    exact Function.update_eq_self ..
  have hslot : σ.ksegmentNew.slot = σ.slot := by
    funext i
    rw [Shared.slot, Shared.slot, hseg]
  have hpool : ∀ o, pool σ.ksegmentNew { g with owner := o } = pool σ g := by
    intro o
    simp only [pool, hslot]
    rfl
  have hnot : σ.alloc ∉ g.chain := fun hm => Nat.lt_irrefl _ (hI.chain.bound _ hm).2
  refine ⟨⟨by rw [hpool]; exact hI.slots, ?_, hI.head, hI.tail, hI.le, fun s hs => ?_, ?_, ?_,
    hI.kept, ?_⟩, ⟨by simp, Nat.lt_succ_self _, hI.chain.alloc, hnot, ?_⟩, fun u =>
    ⟨by rw [hpool]; exact .refl .., fun i _ => congrFun hslot i, List.prefix_refl _,
      Nat.le_succ _, le_rfl, le_rfl, .inl rfl, .inl rfl, ?_, fun s hs ho hc => ⟨?_, hc, ?_⟩,
      fun _ _ _ h => h, fun _ _ _ _ _ h => h⟩⟩
  · rw [hseg]
    exact hI.chain.congr (Nat.le_succ _) fun _ _ => rfl
  · rw [hseg]
    exact hI.fresh s (Nat.le_of_succ_le hs)
  · rw [hseg]
    exact hI.deleted
  · rw [hseg]
    exact hI.passed
  · rw [hseg]
    exact hI.ahead
  · rw [hseg, hI.fresh _ le_rfl]
    rfl
  · rw [hseg]
    exact fun _ h => h
  · simpa [Function.update_of_ne (Nat.ne_of_lt hs)] using ho
  · rw [hseg]

theorem slot_setNext (s : ℕ) (v : AtomicPointer) : (σ.setNext s v).slot = σ.slot := by
  funext i
  by_cases h : i.1 = s
  · subst h; simp [Shared.slot, Shared.setNext]
  · simp [Shared.slot, Shared.setNext, h]

theorem pool_setNext (s : ℕ) (v : AtomicPointer) (c : List ℕ) :
    pool (σ.setNext s v) { g with chain := c } = pool σ g := by
  simp only [pool, slot_setNext]
  rfl

/-- **Linking** a new segment. -/
theorem Inv.link (hI : Inv k h σ g) {s n p : ℕ} (ho : Own t n σ g) (hp : g.chain[p]? = some s)
    (hw : (σ.segment s).next = ⟨0, 0⟩) :
    Inv k h (σ.setNext s ⟨n, 1⟩) { g with chain := g.chain ++ [n] } ∧
      (g.chain ++ [n])[p + 1]? = some n ∧
      ∀ u, u ≠ t → Rely u σ g (σ.setNext s ⟨n, 1⟩) { g with chain := g.chain ++ [n] } := by
  have hnext : (fun m => ((σ.setNext s ⟨n, 1⟩).segment m).next) =
      Function.update (fun m => (σ.segment m).next) s ⟨n, 1⟩ := by
    funext m
    by_cases h : m = s
    · subst h; simp [Shared.setNext]
    · simp [Shared.setNext, h]
  have hdel : ∀ m, ((σ.setNext s ⟨n, 1⟩).segment m).deleted = (σ.segment m).deleted := by
    intro m
    by_cases h : m = s
    · subst h; simp [Shared.setNext]
    · simp [Shared.setNext, h]
  obtain ⟨hend, hC⟩ := hI.chain.append hp hw ho.unlinked ho.ne ho.lt ho.next
  have hmono : ∀ {q m}, g.chain[q]? = some m → (g.chain ++ [n])[q]? = some m :=
    Chain.getElem?_mono (List.prefix_append ..)
  refine ⟨⟨by rw [pool_setNext]; exact hI.slots, by rw [hnext]; exact hC, hmono hI.head,
    hmono hI.tail, hI.le, fun m hm => ?_, fun m hm => ?_, fun q m hq hqm => ?_, fun i b hi => ?_,
    fun i hi => (hdel i.1).trans (hI.ahead i hi)⟩, by rw [hend, List.getElem?_concat_length],
    fun u hu => ⟨by rw [pool_setNext]; exact .refl .., fun i _ => congrFun (slot_setNext ..) i,
      List.prefix_append .., le_rfl, le_rfl, le_rfl, .inl rfl, .inl rfl,
      fun m hm => (hdel m).trans hm, fun m hm hmo hmc => ⟨hmo, fun hmem => ?_, ?_⟩,
      fun _ _ _ h => h, fun _ _ _ _ _ h => h⟩⟩
  · have hne : m ≠ s := fun h => by
      have h1 := hI.chain.lt_alloc hp
      have h2 : σ.alloc ≤ m := hm
      omega
    rw [← hI.fresh m hm]
    simp [Shared.setNext, hne]
  · obtain ⟨q, hq, hqm⟩ := hI.deleted m ((hdel m).symm.trans hm)
    exact ⟨q, hq, hmono hqm⟩
  · have hlt : q < g.chain.length := hq.trans (Chain.lt_length hI.head)
    change (g.chain ++ [n])[q]? = some m at hqm
    rw [List.getElem?_append_left hlt] at hqm
    exact (hdel m).trans (hI.passed q m hq hqm)
  · obtain ⟨hk, q, h1, h2, hq⟩ := hI.kept i b hi
    exact ⟨hk, q, h1, h2, hmono hq⟩
  · rcases List.mem_append.mp hmem with hmem | hmem
    · exact hmc hmem
    · obtain rfl := List.mem_singleton.mp hmem
      exact hu (hmo.symm.trans ho.owner)
  · have hne : m ≠ s := fun h => hmc (h ▸ List.mem_of_getElem? hp)
    simp [Shared.setNext, hne]

end Ends

end UnboundedSizeKFifo

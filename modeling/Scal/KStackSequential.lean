/-
The k-stack, used by one thread at a time.

The stack is spread over the segments from the top one down (`Rep`).  A segment is put
on top of another only when that one is full, and slots are written only in the top
segment; so the segments below it stay full, and an item of the top segment is newer
than all items below.

* `ends_push`, `ends_pop` — every call, run alone, returns;
* `sequential_kLifo` — sequences of calls are runs of a k-LIFO stack, and between calls
  the segments below the top one are full.
-/
import Scal.KLifo
import Scal.Sequential
import Scal.KStackBag

open Interleave Linearizability

namespace KStack

variable {α : Type}

/-! ### Segments -/

/-- The value of slot `j` of the segment at address `s`. -/
def cell (σ : Shared α) (s j : ℕ) : Option α := (σ.slot (s, j)).value

/-- The items of the segment at address `s`. -/
def content (k : ℕ) (σ : Shared α) (s : ℕ) : List α := slots k (cell σ s)

/-- The segments from the top one down to the last are those linked by `next`. -/
def Segments (σ : Shared α) (below : List ℕ) : Prop :=
  Linked (fun s => (σ.segment s).next.value) σ.top.value (σ.top.value :: below)

/-- Every segment below the top one is completely full. -/
def FullBelow (k : ℕ) (σ : Shared α) : Prop :=
  ∃ below, Segments σ below ∧ ∀ s ∈ below, ∀ j < k, cell σ s j ≠ none

/-- The stack `q` is kept in the top segment and those below it. -/
structure Rep (k : ℕ) (σ : Shared α) (below : List ℕ) (q : List α) : Prop where
  linked : Segments σ below
  nodup : (σ.top.value :: below).Nodup
  bound : ∀ s ∈ σ.top.value :: below, s < σ.alloc
  remove : ∀ s ∈ σ.top.value :: below, (σ.segment s).remove = 0
  full : ∀ s ∈ below, ∀ j < k, cell σ s j ≠ none
  items : Stacked (content k σ) (σ.top.value :: below) q

section Rep

variable {k j s : ℕ} {σ : Shared α} {below : List ℕ} {q : List α} {x : α}

theorem init_rep : Rep k (.init : Shared α) [] [] := by
  refine ⟨.cons Nat.one_ne_zero .nil, List.nodup_singleton 1, fun s hs => ?_, fun _ _ => rfl,
    fun s hs => absurd hs List.not_mem_nil, Stacked.nil.extend (slots_eq_nil fun _ _ => rfl)⟩
  obtain rfl := List.mem_singleton.mp hs
  exact Nat.lt_succ_self 1

theorem cell_setSlot {s' : ℕ} (w : AtomicValue (Option α)) (hs : s' ≠ s) :
    cell (σ.setSlot (s, j) w) s' = cell σ s' := by
  funext j'
  rw [cell, slot_setSlot, Function.update_of_ne (fun h => hs (Prod.mk.inj h).1), cell]

theorem cell_setSlot_self (w : AtomicValue (Option α)) :
    cell (σ.setSlot (s, j) w) s = Function.update (cell σ s) j w.value := by
  funext j'
  rw [cell, slot_setSlot]
  by_cases hj : j' = j
  · subst hj
    rw [Function.update_self, Function.update_self]
  · rw [Function.update_of_ne (fun h => hj (Prod.mk.inj h).2), Function.update_of_ne hj, cell]

theorem Rep.ne_top (hR : Rep k σ below q) (hs : s ∈ below) : s ≠ σ.top.value := by
  rintro rfl
  exact (List.nodup_cons.mp hR.nodup).1 hs

/-- Writing a slot of the top segment. -/
theorem Rep.setSlot (hR : Rep k σ below q) {q' : List α} (w : AtomicValue (Option α))
    (hq : Stacked (content k (σ.setSlot (σ.top.value, j) w)) (σ.top.value :: below) q') :
    Rep k (σ.setSlot (σ.top.value, j) w) below q' := by
  refine ⟨hR.linked.congr fun s _ => congrArg _ (next_setSlot s), hR.nodup, hR.bound,
    fun s hs => (remove_setSlot s).trans (hR.remove s hs), fun s hs => ?_, hq⟩
  rw [cell_setSlot w (hR.ne_top hs)]
  exact hR.full s hs

theorem Rep.content_below (hR : Rep k σ below q) (w : AtomicValue (Option α)) :
    ∀ s ∈ below, content k (σ.setSlot (σ.top.value, j) w) s = content k σ s := by
  intro s hs
  rw [content, cell_setSlot w (hR.ne_top hs), content]

/-- A new item in the top segment. -/
theorem Rep.put (hR : Rep k σ below q) (hj : j < k) (hv : cell σ σ.top.value j = none) (c : ℕ) :
    Rep k (σ.setSlot (σ.top.value, j) ⟨some x, c⟩) below (x :: q) := by
  refine hR.setSlot _ (hR.items.put ?_ (hR.content_below _))
  rw [content, cell_setSlot_self]
  exact slots_update hj hv

/-- An item of the top segment is taken. -/
theorem Rep.take (hR : Rep k σ below q) (hj : j < k) (hv : cell σ σ.top.value j = some x)
    (c : ℕ) : ∃ i < k, q[i]? = some x ∧
      Rep k (σ.setSlot (σ.top.value, j) ⟨none, c⟩) below (q.eraseIdx i) := by
  have hperm : (content k σ σ.top.value).Perm
      (x :: content k (σ.setSlot (σ.top.value, j) ⟨none, c⟩) σ.top.value) := by
    rw [content, content, cell_setSlot_self]
    exact slots_erase hj hv
  obtain ⟨i, hi, hget, hitems⟩ := hR.items.take hperm length_slots_le (hR.content_below _)
  exact ⟨i, hi, hget, hR.setSlot _ hitems⟩

/-- A new segment is put on top of the top one, which is full. -/
theorem Rep.addTop (hR : Rep k σ below q) (hfull : ∀ j < k, cell σ σ.top.value j ≠ none) (c : ℕ) :
    Rep k { σ.segmentNew σ.top.value with top := ⟨σ.alloc, c⟩ } (σ.top.value :: below) q := by
  have hne : ∀ s ∈ σ.top.value :: below, s ≠ σ.alloc := fun s hs => Nat.ne_of_lt (hR.bound s hs)
  have hold : ∀ s ∈ σ.top.value :: below,
      (σ.segmentNew σ.top.value).segment s = σ.segment s := fun s hs =>
    Function.update_of_ne (hne s hs) ..
  have hnew : (σ.segmentNew σ.top.value).segment σ.alloc =
      { KSegment.new with next := ⟨σ.top.value, 0⟩ } := Function.update_self ..
  have hcell : ∀ s ∈ σ.top.value :: below,
      cell { σ.segmentNew σ.top.value with top := ⟨σ.alloc, c⟩ } s = cell σ s := fun s hs =>
    funext fun j => congrArg (fun f => (f.items j).value) (hold s hs)
  have hpos : σ.alloc ≠ 0 := by
    have := hR.bound σ.top.value List.mem_cons_self
    omega
  refine ⟨.cons hpos ?_, List.nodup_cons.mpr ⟨fun h => hne _ h rfl, hR.nodup⟩, fun s hs => ?_,
    fun s hs => ?_, fun s hs => ?_, Stacked.extend (hR.items.congr fun s hs => ?_) ?_⟩
  · have hnext := congrArg (fun f => f.next.value) hnew
    refine Eq.subst (motive := fun p => Linked _ p _) hnext.symm (hR.linked.congr fun s hs => ?_)
    exact congrArg (fun f => f.next.value) (hold s hs)
  · rcases List.mem_cons.mp hs with rfl | hs
    · exact Nat.lt_succ_self _
    · exact Nat.lt_succ_of_lt (hR.bound s hs)
  · rcases List.mem_cons.mp hs with rfl | hs
    · exact congrArg KSegment.remove hnew
    · exact (congrArg KSegment.remove (hold s hs)).trans (hR.remove s hs)
  · rw [hcell s hs]
    rcases List.mem_cons.mp hs with rfl | hs
    · exact hfull
    · exact hR.full s hs
  · rw [content, hcell s hs, content]
  · exact slots_eq_nil fun j _ => congrArg (fun f => (f.items j).value) hnew

/-- The top segment, which is empty, is removed; its `remove` is not decremented. -/
theorem Rep.removeTop (hR : Rep k σ (s :: below) q) (hempty : ∀ j < k, cell σ σ.top.value j = none)
    (n c : ℕ) : Rep k { σ.setRemove σ.top.value n with top := ⟨s, c⟩ } below q := by
  have hold : ∀ m ∈ s :: below, (σ.setRemove σ.top.value n).segment m = σ.segment m :=
    fun m hm => Function.update_of_ne (hR.ne_top hm) ..
  have hlinked : Linked (fun m => (σ.segment m).next.value) s (s :: below) := by
    have h := hR.linked.tail
    rwa [h.eq_head] at h
  have hcell : cell { σ.setRemove σ.top.value n with top := ⟨s, c⟩ } = cell σ := by
    funext m j
    have h := congrFun (slot_setRemove (σ := σ) σ.top.value n) (m, j)
    exact congrArg AtomicValue.value h
  refine ⟨hlinked.congr fun m hm => congrArg (fun f => f.next.value) (hold m hm),
    (List.nodup_cons.mp hR.nodup).2, fun m hm => hR.bound m (List.mem_cons_of_mem _ hm),
    fun m hm => ?_, fun m hm => ?_, ?_⟩
  · exact (congrArg KSegment.remove (hold m hm)).trans (hR.remove m (List.mem_cons_of_mem _ hm))
  · rw [hcell]
    exact hR.full m (List.mem_cons_of_mem _ hm)
  · refine (hR.items.drop (slots_eq_nil hempty)).congr fun m _ => ?_
    rw [content, hcell, content]

end Rep

/-! ### Calls -/

/-- What a call has done when it returns. -/
def Post (k : ℕ) (q : List α) (op : BagOp α) (σ : Shared α) (r : BagRet α) : Prop :=
  ∃ q', KLifoStep k q op r q' ∧ ∃ below, Rep k σ below q'

section Calls

variable [DecidableEq α] {k t : ℕ} {σ : Shared α} {below : List ℕ} {q : List α} {x : α}
  {Q : Shared α → BagRet α → Prop}

/-! ### Push -/

/-- `find_index` for an empty slot. -/
theorem ends_pushFind (hk : 0 < k) {topOld : AtomicPointer} (random : ℕ)
    (hsome : ∀ j < k, cell σ topOld.value j = none → Ends (machine k α) t Q σ
      (.pushCheck x topOld (some ⟨j, σ.slot (topOld.value, j)⟩)))
    (hnone : (∀ j < k, cell σ topOld.value j ≠ none) →
      Ends (machine k α) t Q σ (.pushCheck x topOld none)) :
    Ends (machine k α) t Q σ (.pushFind x topOld random 0) := by
  refine Ends.find (M := machine k α) (l := fun j => .pushFind x topOld random j)
    random (fun j => cell σ topOld.value j = none) hk (fun j _ => ?_) hsome hnone
  simp only [step, cell]
  by_cases hv : (σ.slot (topOld.value, (random + j) % k)).value = none
  · simp [hv]
  · simp [hv, apply_ite]

/-- Alone, `committed` finds that nobody removes the top segment. -/
theorem ends_committed (hR : Rep k σ below (x :: q)) {j : ℕ} {new : AtomicValue (Option α)}
    (hnew : σ.slot (σ.top.value, j) = new) :
    Ends (machine k α) t (Post k q (.put x)) σ (.comSlot x σ.top j new) := by
  have hremove := hR.remove σ.top.value List.mem_cons_self
  refine .go σ (.comRemove x σ.top j new)
    (fun _ => by simp only [step, hnew, ne_eq, not_true_eq_false, if_false]) ?_
  exact .stop σ (.put true) (fun _ => by simp only [step, if_pos hremove]) ⟨_, rfl, below, hR⟩

/-- A push into the top segment. -/
theorem ends_pushInsert (hR : Rep k σ below q) {j : ℕ} (hj : j < k)
    (hv : cell σ σ.top.value j = none) :
    Ends (machine k α) t (Post k q (.put x)) σ
      (.pushCheck x σ.top (some ⟨j, σ.slot (σ.top.value, j)⟩)) := by
  refine .go σ (.pushInsert x σ.top ⟨j, σ.slot (σ.top.value, j)⟩)
    (fun _ => by simp only [step, if_true]) ?_
  refine .go _ _ (fun _ => by simp only [step, if_true]; rfl)
    (ends_committed (hR.put hj hv _) ?_)
  rw [slot_setSlot]
  exact Function.update_self ..

/-- A push, if the top segment has room. -/
theorem ends_push_room (hk : 0 < k) (hR : Rep k σ below q)
    (hroom : ∃ j < k, cell σ σ.top.value j = none) :
    Ends (machine k α) t (Post k q (.put x)) σ (.pushTop x) := by
  refine .draw (fun _ => rfl) fun random => ?_
  refine ends_pushFind hk _ (fun j hj hv => ends_pushInsert hR hj hv) fun hno => ?_
  obtain ⟨j, hj, hv⟩ := hroom
  exact absurd hv (hno j hj)

theorem ends_push (hk : 0 < k) (hR : Rep k σ below q) :
    Ends (machine k α) t (Post k q (.put x)) σ (.pushTop x) := by
  refine .draw (fun _ => rfl) fun random => ?_
  refine ends_pushFind hk _ (fun j hj hv => ends_pushInsert hR hj hv) fun hfull => ?_
  -- `try_add_new_ksegment`
  refine .go σ (.addRead x σ.top) (fun _ => by simp only [step, if_true]) ?_
  refine .go σ (.addNew x σ.top) (fun _ => by simp only [step, if_true]) ?_
  refine .go (σ.segmentNew σ.top.value) (.addSwing x σ.top σ.alloc) (fun _ => rfl) ?_
  refine .go { σ.segmentNew σ.top.value with top := ⟨σ.alloc, σ.top.aba⟩ } (.pushTop x)
    (fun _ => by simp only [step, Shared.segmentNew, if_true]) ?_
  refine ends_push_room hk (hR.addTop hfull σ.top.aba) ⟨0, hk, ?_⟩
  have hnew : (σ.segmentNew σ.top.value).segment σ.alloc =
      { KSegment.new with next := ⟨σ.top.value, 0⟩ } := Function.update_self ..
  exact congrArg (fun f => (f.items 0).value) hnew

/-! ### Pop -/

/-- `find_index` for an item. -/
theorem ends_popFind (hk : 0 < k) {topOld : AtomicPointer} (random : ℕ)
    (hsome : ∀ j < k, cell σ topOld.value j ≠ none → Ends (machine k α) t Q σ
      (.popCheck topOld (some ⟨j, σ.slot (topOld.value, j)⟩)))
    (hnone : (∀ j < k, cell σ topOld.value j = none) →
      Ends (machine k α) t Q σ (.popCheck topOld none)) :
    Ends (machine k α) t Q σ (.popFind topOld random 0) := by
  refine Ends.find (M := machine k α) (l := fun j => .popFind topOld random j)
    random (fun j => cell σ topOld.value j ≠ none) hk (fun j _ => ?_) hsome fun hno =>
      hnone fun j hj => not_not.mp (hno j hj)
  simp only [step, cell]
  by_cases hv : (σ.slot (topOld.value, (random + j) % k)).value = none
  · simp [hv, apply_ite]
  · simp [hv]

/-- The second pass of `is_empty`: the slots are still what the first pass read. -/
theorem ends_emptySecond (hk : 0 < k) {topOld : AtomicPointer} (caller : Caller) (random : ℕ)
    {records : ℕ → AtomicValue (Option α)}
    (hrec : ∀ j < k, records j = σ.slot (topOld.value, j))
    (hnext : Ends (machine k α) t Q σ (caller.resume topOld true)) :
    Ends (machine k α) t Q σ (.emptySecond caller topOld random 0 records) := by
  refine Ends.find (M := machine k α) (l := fun j => .emptySecond caller topOld random j records)
    (f := fun _ => caller.resume topOld false) random
    (fun j => σ.slot (topOld.value, j) ≠ records j) hk (fun j _ => ?_)
    (fun j hj hne => absurd (hrec j hj).symm hne) fun _ => hnext
  simp only [step]
  by_cases hv : σ.slot (topOld.value, (random + j) % k) = records ((random + j) % k)
  · by_cases hj : j + 1 < k <;> simp [hv, hj]
  · simp [hv]

/-- `is_empty`, of an empty segment; `m` slots follow in the first pass. -/
theorem ends_emptyFirst (hk : 0 < k) {topOld : AtomicPointer} (caller : Caller) (random : ℕ)
    (hempty : ∀ j < k, cell σ topOld.value j = none)
    (hnext : Ends (machine k α) t Q σ (caller.resume topOld true)) :
    ∀ (m j : ℕ) (records : ℕ → AtomicValue (Option α)), j + m + 1 = k →
      (∀ j' < j, records ((random + j') % k) = σ.slot (topOld.value, (random + j') % k)) →
      Ends (machine k α) t Q σ (.emptyFirst caller topOld random j records) := by
  have hnone : ∀ i, ¬ (σ.slot (topOld.value, i % k)).value ≠ none := fun i =>
    not_not.mpr (hempty _ (Nat.mod_lt i hk))
  -- what the pass has read is recorded
  have hupdate : ∀ j (records : ℕ → AtomicValue (Option α)),
      (∀ j' < j, records ((random + j') % k) = σ.slot (topOld.value, (random + j') % k)) →
      ∀ j' < j + 1, Function.update records ((random + j) % k)
        (σ.slot (topOld.value, (random + j) % k)) ((random + j') % k) =
          σ.slot (topOld.value, (random + j') % k) := by
    intro j records hrec j' hj'
    by_cases he : (random + j') % k = (random + j) % k
    · rw [he, Function.update_self]
    · have hne : j' ≠ j := fun h => he (by rw [h])
      rw [Function.update_of_ne he]
      exact hrec j' (by omega)
  intro m
  induction m with
  | zero =>
    intro j records hj hrec
    refine .go σ _ (fun _ => by simp only [step, if_neg (hnone (random + j)),
      if_neg (show ¬ j + 1 < k by omega)]; rfl) ?_
    refine ends_emptySecond hk caller random (fun i hi => ?_) hnext
    obtain ⟨j', hj', rfl⟩ := exists_index (r := random) hi
    exact hupdate j records hrec j' (by omega)
  | succ m ih =>
    intro j records hj hrec
    refine .go σ _ (fun _ => by simp only [step, if_neg (hnone (random + j)),
      if_pos (show j + 1 < k by omega)]; rfl) ?_
    exact ih (j + 1) _ (by omega) (hupdate j records hrec)

theorem ends_isEmpty (hk : 0 < k) {topOld : AtomicPointer} (caller : Caller) (random : ℕ)
    (records : ℕ → AtomicValue (Option α)) (hempty : ∀ j < k, cell σ topOld.value j = none)
    (hnext : Ends (machine k α) t Q σ (caller.resume topOld true)) :
    Ends (machine k α) t Q σ (.emptyFirst caller topOld random 0 records) :=
  ends_emptyFirst hk caller random hempty hnext (k - 1) 0 records (by omega)
    fun j' hj' => absurd hj' (Nat.not_lt_zero j')

/-- The `cas` that takes an item of the top segment. -/
theorem ends_popTake (hR : Rep k σ below q) {j : ℕ} (hj : j < k)
    (hv : cell σ σ.top.value j ≠ none) :
    Ends (machine k α) t (Post k q .get) σ
      (.popCheck σ.top (some ⟨j, σ.slot (σ.top.value, j)⟩)) := by
  obtain ⟨y, hy⟩ := Option.ne_none_iff_exists'.mp hv
  obtain ⟨i, hi, hget, hR'⟩ := hR.take hj hy ((σ.slot (σ.top.value, j)).aba + 1)
  have hval : (σ.slot (σ.top.value, j)).value = some y := hy
  refine .go σ (.popSegment ⟨j, σ.slot (σ.top.value, j)⟩)
    (fun _ => by simp only [step, if_true]) ?_
  refine .go σ (.popTake σ.top.value ⟨j, σ.slot (σ.top.value, j)⟩) (fun _ => rfl) ?_
  refine .stop _ (.got (some y)) (fun _ => ?_) ⟨_, ⟨i, hi, hget, rfl⟩, below, hR'⟩
  simp only [step, if_true, hval]

/-- A pop; `below` are the segments below the top one. -/
theorem ends_pop (hk : 0 < k) : ∀ (below : List ℕ) (σ : Shared α), Rep k σ below q →
    Ends (machine k α) t (Post k q .get) σ .popTop := by
  intro below
  induction below with
  | nil =>
    intro σ hR
    refine .draw (fun _ => rfl) fun random => ?_
    refine ends_popFind hk _ (fun j hj hv => ends_popTake hR hj hv) fun hempty => ?_
    -- the last segment stays
    have hnext : (σ.segment σ.top.value).next.value = 0 := hR.linked.tail.eq_zero
    obtain rfl := (hR.items.drop (slots_eq_nil hempty)).eq_nil
    refine .go σ (.popNext σ.top) (fun _ => by simp only [step, if_true]) ?_
    refine .draw (fun _ => by simp only [step, if_pos hnext]; rfl) fun random => ?_
    refine ends_isEmpty hk .pop _ _ hempty ?_
    exact .stop σ (.got none) (fun _ => by simp only [Caller.resume, step, if_true])
      ⟨[], ⟨rfl, rfl⟩, [], hR⟩
  | cons s below ih =>
    intro σ hR
    refine .draw (fun _ => rfl) fun random => ?_
    refine ends_popFind hk _ (fun j hj hv => ends_popTake hR hj hv) fun hempty => ?_
    have hlinked := hR.linked.tail
    have hnext : (σ.segment σ.top.value).next.value = s := hlinked.eq_head
    have hne : (σ.segment σ.top.value).next.value ≠ 0 := hnext ▸ hlinked.ne_zero
    refine .go σ (.popNext σ.top) (fun _ => by simp only [step, if_true]) ?_
    refine .go σ (.remTop σ.top) (fun _ => by simp only [step, if_neg hne]) ?_
    refine .go σ (.remNext σ.top σ.top) (fun _ => rfl) ?_
    refine .go σ (.remCheck σ.top (σ.segment σ.top.value).next) (fun _ => rfl) ?_
    refine .go σ (.remAdd σ.top) (fun _ => by simp only [step, if_true, if_pos hne]) ?_
    refine .draw (fun _ => rfl) fun random => ?_
    -- `is_empty` sees the segment as it is before `remove` is incremented
    have hempty' : ∀ j < k, cell (σ.setRemove σ.top.value
        ((σ.segment σ.top.value).remove + 1)) σ.top.value j = none := fun j hj => by
      rw [cell, slot_setRemove]
      exact hempty j hj
    refine ends_isEmpty hk .remove _ _ hempty' ?_
    refine .go (σ.setRemove σ.top.value ((σ.segment σ.top.value).remove + 1))
      (.remSwing σ.top s) (fun _ => ?_) ?_
    · simp only [Caller.resume, step, next_setRemove, hnext]
    refine .go _ .popTop (fun _ => by simp only [step, Shared.setRemove, if_true]; rfl) ?_
    exact ih _ (hR.removeTop hempty _ _)

/-- **The k-stack, used by one thread at a time, is a k-LIFO stack**, and between calls every
segment below the top one is full. -/
theorem sequential_kLifo (hk : 1 ≤ k) :
    Sequential (machine k α) (fun _ _ => true) (kLifoSpec k) ∧
      ∀ as σ L, solos (machine k α) (fun _ _ => true) .init as = some (σ, L) →
        FullBelow k σ := by
  have hcall : ∀ (σ : Shared α) (q : List α) (t : ℕ) (op : BagOp α), (∃ below, Rep k σ below q) →
      true = true → Ends (machine k α) t (Post k q op) σ (start op) := by
    rintro σ q t op ⟨below, hR⟩ -
    cases op with
    | put x => exact ends_push hk hR
    | get => exact ends_pop hk below σ hR
  constructor
  · exact sequential_of_simulation (fun σ q => ∃ below, Rep k σ below q) ⟨[], init_rep⟩ hcall
  · intro as σ L h
    obtain ⟨q, -, below, hR⟩ := solos_of_simulation (S := kLifoSpec k) hcall as
      ⟨[], init_rep⟩ h
    exact ⟨below, hR.linked, hR.full⟩

theorem sequential_kLifo_two :
    Sequential (machine 2 ℕ) (fun _ _ => true) (kLifoSpec 2) ∧
      ∀ as σ L, solos (machine 2 ℕ) (fun _ _ => true) .init as = some (σ, L) → FullBelow 2 σ :=
  sequential_kLifo (by decide)

end Calls

end KStack

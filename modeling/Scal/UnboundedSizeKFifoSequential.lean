/-
The unbounded-size k-FIFO queue, used by one thread at a time.

The queue is spread over the segments from head's to the last one of the chain, which is
tail's (`Rep`).  The segments in between are full: tail leaves a segment when it is full, or
when the first item is taken from it, and then it is head's.

* `ends_dequeue`, `ends_enqueue` — every call, run alone, returns;
* `sequential_unbounded` — sequences of calls are runs of a k-FIFO queue.
-/
import Scal.KFifo
import Scal.Sequential
import Scal.UnboundedSizeKFifoInvariant

open Interleave Linearizability

namespace UnboundedSizeKFifo

variable {α : Type}

/-! ### Segments -/

/-- The value of slot `j` of the segment at address `s`. -/
def cell (σ : Shared α) (s j : ℕ) : Option α := (σ.slot (s, j)).value

/-- The items of the segment at position `p` of the chain. -/
def content (k : ℕ) (σ : Shared α) (chain : List ℕ) (p : ℕ) : List α :=
  slots k (cell σ ((chain[p]?).getD 0))

/-- The queue `q` is kept in the segments from position `a` of the chain, which is head's, to
its end, which is tail's position `b`. -/
structure Rep (k : ℕ) (σ : Shared α) (chain : List ℕ) (a b : ℕ) (q : List α) : Prop where
  linked : Chain (fun s => (σ.segment s).next) σ.alloc chain
  head : chain[a]? = some σ.head.value
  tail : chain[b]? = some σ.tail.value
  last : b + 1 = chain.length
  present : ∀ p s, a ≤ p → chain[p]? = some s → (σ.segment s).deleted = false
  items : Segmented k (content k σ chain) a b q

section Rep

variable {k a b j s n : ℕ} {σ : Shared α} {chain : List ℕ} {q : List α} {x : α}

theorem content_eq {p : ℕ} (hp : chain[p]? = some s) : content k σ chain p = slots k (cell σ s) := by
  rw [content, hp, Option.getD_some]

theorem init_rep : Rep k (.init : Shared α) [1] 0 0 [] := by
  refine ⟨.singleton Nat.one_ne_zero (Nat.lt_succ_self 1) rfl, rfl, rfl, rfl, fun _ _ _ _ => rfl, .nil ?_⟩
  exact slots_eq_nil fun _ _ => rfl

/-- The next word of the last segment. -/
theorem Rep.next_last (hR : Rep k σ chain a b q) : (σ.segment σ.tail.value).next = ⟨0, 0⟩ :=
  hR.linked.next_none hR.tail ((hR.linked.next_eq_zero hR.tail).mpr hR.last)

theorem Rep.head_eq_tail (hR : Rep k σ chain a b q) :
    σ.head.value = σ.tail.value ↔ a = b := by
  constructor
  · intro h
    exact hR.linked.pos_unique hR.head (h ▸ hR.tail)
  · rintro rfl
    exact Option.some.inj (hR.head.symm.trans hR.tail)

/-- Writing a slot of the segment at position `p`. -/
theorem content_setSlot {p p' : ℕ} (hC : Chain (fun s => (σ.segment s).next) σ.alloc chain)
    (hp : chain[p]? = some s) (hp' : p' < chain.length) (w : AtomicValue (Option α)) :
    content k (σ.setSlot (s, j) w) chain p' =
      if p' = p then slots k (Function.update (cell σ s) j w.value) else content k σ chain p' := by
  have hget : chain[p']? = some chain[p'] := List.getElem?_eq_getElem hp'
  rw [content_eq hget]
  by_cases h : p' = p
  · subst h
    obtain rfl := Option.some.inj (hp.symm.trans hget)
    rw [if_pos rfl]
    refine slots_congr fun j' _ => ?_
    rw [cell, slot_setSlot]
    by_cases hj : j' = j
    · subst hj
      rw [Function.update_self, Function.update_self]
    · rw [Function.update_of_ne (fun he => hj (Prod.mk.inj he).2), Function.update_of_ne hj, cell]
  · rw [if_neg h, content_eq hget]
    have hne : chain[p'] ≠ s := fun he => h (hC.pos_unique (he ▸ hget) hp)
    refine slots_congr fun j' _ => ?_
    rw [cell, slot_setSlot, Function.update_of_ne (fun he => hne (Prod.mk.inj he).1), cell]

theorem Rep.setSlot (hR : Rep k σ chain a b q) {q' : List α} (i : ℕ × ℕ)
    (w : AtomicValue (Option α)) (hq : Segmented k (content k (σ.setSlot i w) chain) a b q') :
    Rep k (σ.setSlot i w) chain a b q' := by
  refine ⟨hR.linked.congr le_rfl fun m _ => (segment_setSlot m).1, hR.head, hR.tail, hR.last,
    fun p m hp hm => ?_, hq⟩
  rw [(segment_setSlot m).2]
  exact hR.present p m hp hm

/-- A new item in tail's segment. -/
theorem Rep.put (hR : Rep k σ chain a b q) (hj : j < k) (hv : cell σ σ.tail.value j = none)
    (c : ℕ) : Rep k (σ.setSlot (σ.tail.value, j) ⟨some x, c⟩) chain a b (q ++ [x]) := by
  have hlast := hR.last
  refine hR.setSlot _ _ (hR.items.put ?_ fun p h₁ h₂ => ?_)
  · rw [content_setSlot hR.linked hR.tail (by omega), if_pos rfl, content_eq hR.tail]
    exact slots_update hj hv
  · rw [content_setSlot hR.linked hR.tail (by omega), if_neg (by omega)]

/-- An item of head's segment is taken. -/
theorem Rep.take (hR : Rep k σ chain a b q) (hj : j < k) (hv : cell σ σ.head.value j = some x)
    (c : ℕ) : ∃ i < k, q[i]? = some x ∧
      Rep k (σ.setSlot (σ.head.value, j) ⟨none, c⟩) chain a b (q.eraseIdx i) := by
  have hlast := hR.last
  have hle := hR.items.le
  have hperm : (content k σ chain a).Perm
      (x :: content k (σ.setSlot (σ.head.value, j) ⟨none, c⟩) chain a) := by
    rw [content_setSlot hR.linked hR.head (by omega), if_pos rfl, content_eq hR.head]
    exact slots_erase hj hv
  obtain ⟨i, hi, hget, hitems⟩ := hR.items.take hperm length_slots_le fun p h₁ h₂ => by
    rw [content_setSlot hR.linked hR.head (by omega), if_neg (by omega)]
  exact ⟨i, hi, hget, hR.setSlot _ _ hitems⟩

theorem Rep.bumpHead (hR : Rep k σ chain a b q) (c : ℕ) :
    Rep k { σ with head := ⟨σ.head.value, c⟩ } chain a b q :=
  ⟨hR.linked, hR.head, hR.tail, hR.last, hR.present, hR.items⟩

theorem segment_delete (σ : Shared α) (s m : ℕ) :
    ((σ.delete s).segment m).next = (σ.segment m).next ∧
      ((σ.delete s).segment m).items = (σ.segment m).items := by
  by_cases hm : m = s
  · subst hm
    have h : (σ.delete m).segment m = { σ.segment m with deleted := true } :=
      Function.update_self ..
    rw [h]
    exact ⟨rfl, rfl⟩
  · have h : (σ.delete s).segment m = σ.segment m := Function.update_of_ne hm ..
    rw [h]
    exact ⟨rfl, rfl⟩

/-- Head leaves its segment, which is empty. -/
theorem Rep.advanceHead (hR : Rep k σ chain a b q) (ha : content k σ chain a = [])
    (hlt : a < b) (hn : chain[a + 1]? = some n) (c : ℕ) :
    Rep k { σ.delete σ.head.value with head := ⟨n, c⟩ } chain (a + 1) b q := by
  have hcontent : content k { σ.delete σ.head.value with head := ⟨n, c⟩ } chain =
      content k σ chain := by
    funext p
    refine slots_congr fun j _ => ?_
    exact congrArg (fun f => (f j).value) (segment_delete σ σ.head.value _).2
  refine ⟨hR.linked.congr le_rfl fun m _ => (segment_delete ..).1, hn, hR.tail, hR.last, fun p m hp hm => ?_,
    hcontent ▸ hR.items.drop ha hlt⟩
  have hne : m ≠ σ.head.value := by
    rintro rfl
    have := hR.linked.pos_unique hm hR.head
    omega
  have hseg : (σ.delete σ.head.value).segment m = σ.segment m := Function.update_of_ne hne ..
  exact (congrArg KSegment.deleted hseg).trans (hR.present p m (by omega) hm)

/-- A new segment is linked after tail's, and tail moves to it. -/
def Shared.extend (σ : Shared α) (c : ℕ) : Shared α :=
  { σ.ksegmentNew.setNext σ.tail.value ⟨σ.alloc, 1⟩ with tail := ⟨σ.alloc, c⟩ }

/-- But for `next`, the segments that were there are the same. -/
theorem segment_extend {c m : ℕ} (hm : m < σ.alloc) :
    ((σ.extend c).segment m).items = (σ.segment m).items ∧
      ((σ.extend c).segment m).deleted = (σ.segment m).deleted := by
  have hold : σ.ksegmentNew.segment m = σ.segment m := Function.update_of_ne (Nat.ne_of_lt hm) ..
  by_cases hmt : m = σ.tail.value
  · subst hmt
    have hself : (σ.extend c).segment σ.tail.value =
        { σ.ksegmentNew.segment σ.tail.value with next := ⟨σ.alloc, 1⟩ } := Function.update_self ..
    rw [hself, hold]
    exact ⟨rfl, rfl⟩
  · have hne : (σ.extend c).segment m = σ.ksegmentNew.segment m := Function.update_of_ne hmt ..
    rw [hne, hold]
    exact ⟨rfl, rfl⟩

theorem slot_extend {c m : ℕ} (hm : m < σ.alloc) : (σ.extend c).slot (m, j) = σ.slot (m, j) :=
  congrFun (segment_extend hm).1 j

theorem cell_extend {c m : ℕ} (hm : m < σ.alloc) : cell (σ.extend c) m j = cell σ m j :=
  congrArg AtomicValue.value (slot_extend hm)

theorem Rep.extend_fresh (hR : Rep k σ chain a b q) (c : ℕ) :
    (σ.extend c).segment σ.alloc = .new := by
  have hend : σ.alloc ≠ σ.tail.value := Nat.ne_of_gt (hR.linked.lt_alloc hR.tail)
  have hne : (σ.extend c).segment σ.alloc = σ.ksegmentNew.segment σ.alloc :=
    Function.update_of_ne hend ..
  rw [hne]
  exact Function.update_self ..

theorem Rep.cell_fresh (hR : Rep k σ chain a b q) (c : ℕ) : cell (σ.extend c) σ.alloc j = none :=
  congrArg (fun f => (f.items j).value) (hR.extend_fresh c)

/-- The chain with the new segment. -/
theorem Rep.extend_linked (hR : Rep k σ chain a b q) (c : ℕ) :
    Chain (fun s => ((σ.extend c).segment s).next) (σ.extend c).alloc (chain ++ [σ.alloc]) := by
  have hend : σ.tail.value < σ.alloc := hR.linked.lt_alloc hR.tail
  have hold : ∀ m < σ.alloc, σ.ksegmentNew.segment m = σ.segment m := fun m hm =>
    Function.update_of_ne (Nat.ne_of_lt hm) ..
  have hnew : σ.ksegmentNew.segment σ.alloc = .new := Function.update_self ..
  have hnext : (fun m => ((σ.extend c).segment m).next) =
      Function.update (fun m => (σ.ksegmentNew.segment m).next) σ.tail.value ⟨σ.alloc, 1⟩ := by
    funext m
    by_cases hmt : m = σ.tail.value
    · subst hmt
      have hself : (σ.extend c).segment σ.tail.value =
        { σ.ksegmentNew.segment σ.tail.value with next := ⟨σ.alloc, 1⟩ } := Function.update_self ..
      rw [hself, Function.update_self]
    · have hne : (σ.extend c).segment m = σ.ksegmentNew.segment m := Function.update_of_ne hmt ..
      rw [hne, Function.update_of_ne hmt]
  have hchain : Chain (fun m => (σ.ksegmentNew.segment m).next) (σ.alloc + 1) chain :=
    hR.linked.congr (Nat.le_succ _) fun m hm =>
      congrArg KSegment.next (hold m (hR.linked.bound m hm).2)
  obtain ⟨-, hC⟩ := hchain.append hR.tail (by rw [hold _ hend, hR.next_last])
    (fun hm => Nat.lt_irrefl _ (hR.linked.bound _ hm).2) hR.linked.alloc (Nat.lt_succ_self _)
    (by rw [hnew]; rfl)
  exact hnext ▸ hC

/-- The new segment is empty, and the one before it is full unless it is head's. -/
theorem Rep.extend (hR : Rep k σ chain a b q) (hfull : a < b → (content k σ chain b).length = k)
    (c : ℕ) : Rep k (σ.extend c) (chain ++ [σ.alloc]) a (b + 1) q := by
  have hlast := hR.last
  have hmono : ∀ {p m}, chain[p]? = some m → (chain ++ [σ.alloc])[p]? = some m :=
    Chain.getElem?_mono (List.prefix_append ..)
  have hlastnew : (chain ++ [σ.alloc])[b + 1]? = some σ.alloc := by
    rw [hlast, List.getElem?_concat_length]
  have hcontent : ∀ p, a ≤ p → p ≤ b →
      content k (σ.extend c) (chain ++ [σ.alloc]) p = content k σ chain p := by
    intro p _ hp
    have hget : chain[p]? = some chain[p] := List.getElem?_eq_getElem (by omega)
    rw [content_eq hget, content_eq (hmono hget)]
    exact slots_congr fun j _ => cell_extend (hR.linked.lt_alloc hget)
  have hempty : content k (σ.extend c) (chain ++ [σ.alloc]) (b + 1) = [] := by
    rw [content_eq hlastnew]
    exact slots_eq_nil fun j _ => hR.cell_fresh c
  refine ⟨hR.extend_linked c, hmono hR.head, hlastnew,
    by rw [List.length_append, List.length_singleton, hlast], fun p m hp hm => ?_,
    (hR.items.congr hcontent).extend hempty fun h => ?_⟩
  · rcases Nat.lt_or_ge p chain.length with hlt | hge
    · rw [List.getElem?_append_left hlt] at hm
      exact (segment_extend (hR.linked.lt_alloc hm)).2.trans (hR.present p m hp hm)
    · have hp' := Chain.lt_length hm
      rw [List.length_append, List.length_singleton] at hp'
      obtain rfl : p = b + 1 := by omega
      obtain rfl := Option.some.inj (hlastnew.symm.trans hm)
      exact congrArg KSegment.deleted (hR.extend_fresh c)
  · rw [hcontent b hR.items.le le_rfl]
    exact hfull h

end Rep

/-! ### Calls -/

/-- What a call has done when it returns. -/
def Post (k : ℕ) (q : List α) (op : BagOp α) (σ : Shared α) (r : BagRet α) : Prop :=
  ∃ q', KFifoStep k (fun _ => False) q op r q' ∧ ∃ chain a b, Rep k σ chain a b q'

section Calls

variable [DecidableEq α] {k a b t : ℕ} {σ : Shared α} {chain : List ℕ} {q : List α} {x : α}
  {Q : Shared α → BagRet α → Prop}

/-- `find_index` for an item. -/
theorem ends_deqFind (hk : 0 < k) {h : AtomicPointer} (random : ℕ)
    (hsome : ∀ j < k, cell σ h.value j ≠ none → Ends (machine k α) t Q σ
      (.deqTail h (some ⟨j, σ.slot (h.value, j)⟩)))
    (hnone : (∀ j < k, cell σ h.value j = none) → Ends (machine k α) t Q σ (.deqTail h none)) :
    Ends (machine k α) t Q σ (.deqFind h random 0) := by
  refine Ends.find (M := machine k α) (l := fun j => .deqFind h random j)
    random (fun j => cell σ h.value j ≠ none) hk (fun j _ => ?_) hsome fun hno =>
      hnone fun j hj => not_not.mp (hno j hj)
  simp only [step, cell]
  by_cases hv : (σ.slot (h.value, (random + j) % k)).value = none
  · simp [hv, apply_ite]
  · simp [hv]

/-- The `cas` that takes an item of head's segment. -/
theorem ends_deqTake (hR : Rep k σ chain a b q) {j : ℕ} (hj : j < k)
    (hv : cell σ σ.head.value j ≠ none) (h : AtomicPointer) (hh : h.value = σ.head.value) :
    Ends (machine k α) t (Post k q .get) σ (.deqTake h ⟨j, σ.slot (σ.head.value, j)⟩) := by
  obtain ⟨y, hy⟩ := Option.ne_none_iff_exists'.mp hv
  obtain ⟨i, hi, hget, hR'⟩ := hR.take hj hy ((σ.slot (σ.head.value, j)).aba + 1)
  refine .stop _ (.got (some y)) (fun _ => ?_) ⟨_, ⟨i, hi, hget, rfl⟩, chain, a, b, hR'⟩
  have hval : (σ.slot (σ.head.value, j)).value = some y := hy
  simp only [step, hh, if_true, hval]

/-- `advance_tail` at the end of the chain. -/
theorem ends_advanceTail (hR : Rep k σ chain a b q) (caller : Caller α)
    (hnext : ∀ c, Ends (machine k α) t Q (σ.extend c) caller.resume) :
    Ends (machine k α) t Q σ (.tailRead caller σ.tail) := by
  have hlast := hR.next_last
  have hold : σ.ksegmentNew.segment σ.tail.value = σ.segment σ.tail.value :=
    Function.update_of_ne (Nat.ne_of_lt (hR.linked.lt_alloc hR.tail)) ..
  refine .go σ (.tailNext caller σ.tail) (fun _ => by simp only [step, if_true]) ?_
  refine .go σ (.tailCheck caller σ.tail ⟨0, 0⟩) (fun _ => by simp only [step, hlast]) ?_
  refine .go σ (.tailNew caller σ.tail ⟨0, 0⟩) (fun _ => ?_) ?_
  · simp only [step, if_true, if_neg (show ¬ (0 : ℕ) ≠ 0 from fun h => h rfl)]
  refine .go σ.ksegmentNew (.tailLink caller σ.tail ⟨0, 0⟩ σ.alloc) (fun _ => rfl) ?_
  refine .go (σ.ksegmentNew.setNext σ.tail.value ⟨σ.alloc, 1⟩) (.tailSwing caller σ.tail σ.alloc)
    (fun _ => ?_) ?_
  · simp only [step, hold, hlast, if_true, Nat.zero_add]
  refine .go (σ.extend (σ.tail.aba + 1)) caller.resume (fun _ => ?_) (hnext (σ.tail.aba + 1))
  simp only [step, Shared.extend, Shared.setNext, Shared.ksegmentNew, if_true]

/-- A dequeue; `m` segments are before tail's. -/
theorem ends_dequeue (hk : 0 < k) (q : List α) : ∀ (m : ℕ) (σ : Shared α) (a : ℕ), a + m = b →
    Rep k σ chain a b q → Ends (machine k α) t (Post k q .get) σ .deqHead := by
  intro m
  induction m with
  | zero =>
    rintro σ a rfl hR
    have heq := hR.head_eq_tail.mpr rfl
    refine .draw (fun _ => rfl) fun random => ends_deqFind hk _ (fun j hj hv => ?_) fun hno => ?_
    · -- tail moves on, and then the item is taken
      refine .go σ (.deqCheck σ.head σ.tail (some ⟨j, σ.slot (σ.head.value, j)⟩))
        (fun _ => rfl) ?_
      refine .go σ (.tailRead (.dequeue σ.head ⟨j, σ.slot (σ.head.value, j)⟩) σ.tail)
        (fun _ => by simp only [step, if_true, if_pos heq]) ?_
      refine ends_advanceTail hR _ fun c => ?_
      have hlt : σ.head.value < σ.alloc := hR.linked.lt_alloc hR.head
      rw [Caller.resume, ← slot_extend (c := c) hlt]
      exact ends_deqTake (hR.extend (fun h => absurd h (Nat.lt_irrefl _)) c) hj
        ((cell_extend hlt).trans_ne hv) _ rfl
    · refine .go σ (.deqCheck σ.head σ.tail none) (fun _ => rfl) ?_
      obtain rfl := hR.items.eq_nil ((content_eq hR.head).trans (slots_eq_nil hno))
      refine .stop σ (.got none) (fun _ => ?_) ⟨[], ⟨rfl, rfl⟩, chain, _, _, hR⟩
      simp only [step, if_true, if_pos heq]
  | succ m ih =>
    intro σ a ham hR
    have hne : σ.head.value ≠ σ.tail.value := by
      intro h
      have := hR.head_eq_tail.mp h
      omega
    refine .draw (fun _ => rfl) fun random => ends_deqFind hk _ (fun j hj hv => ?_) fun hno => ?_
    · refine .go σ (.deqCheck σ.head σ.tail (some ⟨j, σ.slot (σ.head.value, j)⟩))
        (fun _ => rfl) ?_
      refine .go σ (.deqTake σ.head ⟨j, σ.slot (σ.head.value, j)⟩)
        (fun _ => by simp only [step, if_true, if_neg hne]) ?_
      exact ends_deqTake hR hj hv _ rfl
    · -- head's segment is empty
      have hnil := (content_eq hR.head).trans (slots_eq_nil hno)
      have hnext0 : (σ.segment σ.head.value).next.value ≠ 0 := by
        intro h0
        have := (hR.linked.next_eq_zero hR.head).mp h0
        have := hR.last
        omega
      refine .go σ (.deqCheck σ.head σ.tail none) (fun _ => rfl) ?_
      refine .go σ (.headRead σ.head) (fun _ => by simp only [step, if_true, if_neg hne]) ?_
      refine .go σ (.headTail σ.head) (fun _ => by simp only [step, if_true]) ?_
      refine .go σ (.headTailNext σ.head σ.tail) (fun _ => rfl) ?_
      refine .go σ (.headNext σ.head σ.tail (σ.segment σ.tail.value).next) (fun _ => rfl) ?_
      refine .go σ (.headCheck σ.head σ.tail (σ.segment σ.tail.value).next
        (σ.segment σ.head.value).next) (fun _ => rfl) ?_
      refine .go σ (.headDelete σ.head (σ.segment σ.head.value).next)
        (fun _ => by simp only [step, if_true, if_neg hne]) ?_
      refine .go (σ.delete σ.head.value) (.headSwing σ.head (σ.segment σ.head.value).next)
        (fun _ => rfl) ?_
      refine .go { σ.delete σ.head.value with
        head := ⟨(σ.segment σ.head.value).next.value, σ.head.aba + 1⟩ } .deqHead
        (fun _ => by simp only [step, Shared.delete, if_true]) (ih _ (a + 1) (by omega) ?_)
      exact hR.advanceHead hnil (by omega) (hR.linked.next_some hR.head hnext0) _

/-! ### Enqueue -/

/-- `find_index` for an empty slot. -/
theorem ends_enqFind (hk : 0 < k) {tl : AtomicPointer} (random : ℕ)
    (hsome : ∀ j < k, cell σ tl.value j = none → Ends (machine k α) t Q σ
      (.enqCheck x tl (some ⟨j, σ.slot (tl.value, j)⟩)))
    (hnone : (∀ j < k, cell σ tl.value j ≠ none) →
      Ends (machine k α) t Q σ (.enqCheck x tl none)) :
    Ends (machine k α) t Q σ (.enqFind x tl random 0) := by
  refine Ends.find (M := machine k α) (l := fun j => .enqFind x tl random j)
    random (fun j => cell σ tl.value j = none) hk (fun j _ => ?_) hsome hnone
  simp only [step, cell]
  by_cases hv : (σ.slot (tl.value, (random + j) % k)).value = none
  · simp [hv]
  · simp [hv, apply_ite]

/-- Alone, `committed` keeps every item. -/
theorem ends_committed (hR : Rep k σ chain a b (q ++ [x])) {j v : ℕ}
    {new : AtomicValue (Option α)} (hnew : σ.slot (σ.tail.value, j) = new) :
    Ends (machine k α) t (Post k q (.put x)) σ (.comSlot x (σ.tail.value, j) new v) := by
  have hpresent : (σ.segment σ.tail.value).deleted = false :=
    hR.present b _ hR.items.le hR.tail
  refine .go σ (.comHead x (σ.tail.value, j) new v)
    (fun _ => by simp only [step, hnew, ne_eq, not_true_eq_false, if_false]) ?_
  refine .go σ (.comDeleted x (σ.tail.value, j) new v σ.head) (fun _ => rfl) ?_
  by_cases heq : σ.tail.value = σ.head.value
  · -- the item is in head's segment
    refine .go σ (.comBump x (σ.tail.value, j) new v σ.head) (fun _ => ?_) ?_
    · simp only [step, hpresent, if_pos heq, if_neg Bool.false_ne_true]
    · exact .stop { σ with head := ⟨σ.head.value, σ.head.aba + 1⟩ } (.put true)
        (fun _ => by simp only [step, if_true]) ⟨_, rfl, chain, a, b, hR.bumpHead _⟩
  · refine .go σ (.comDeletedAgain x (σ.tail.value, j) new v) (fun _ => ?_) ?_
    · simp only [step, hpresent, if_neg heq, if_neg Bool.false_ne_true]
    · exact .stop σ (.put true) (fun _ => by simp only [step, hpresent, if_true])
        ⟨_, rfl, chain, a, b, hR⟩

/-- An enqueue into tail's segment, if that has room. -/
theorem ends_enqInsert (hR : Rep k σ chain a b q) {j : ℕ} (hj : j < k)
    (hv : cell σ σ.tail.value j = none) :
    Ends (machine k α) t (Post k q (.put x)) σ
      (.enqCheck x σ.tail (some ⟨j, σ.slot (σ.tail.value, j)⟩)) := by
  refine .go σ (.enqInsert x σ.tail ⟨j, σ.slot (σ.tail.value, j)⟩)
    (fun _ => by simp only [step, if_true]) ?_
  refine .go _ _ (fun _ => by simp only [step, if_true]; rfl)
    (ends_committed (hR.put hj hv _) ?_)
  rw [slot_setSlot]
  exact Function.update_self ..

theorem ends_enqueue_room (hk : 0 < k) (hR : Rep k σ chain a b q)
    (hroom : ∃ j < k, cell σ σ.tail.value j = none) :
    Ends (machine k α) t (Post k q (.put x)) σ (.enqTail x) := by
  refine .go σ (.enqHead x σ.tail) (fun _ => rfl) (.draw (fun _ => rfl) fun random => ?_)
  refine ends_enqFind hk _ (fun j hj hv => ends_enqInsert hR hj hv) fun hno => ?_
  obtain ⟨j, hj, hv⟩ := hroom
  exact absurd hv (hno j hj)

theorem ends_enqueue (hk : 0 < k) (hR : Rep k σ chain a b q) :
    Ends (machine k α) t (Post k q (.put x)) σ (.enqTail x) := by
  refine .go σ (.enqHead x σ.tail) (fun _ => rfl) (.draw (fun _ => rfl) fun random => ?_)
  refine ends_enqFind hk _ (fun j hj hv => ends_enqInsert hR hj hv) fun hno => ?_
  have hfull : (content k σ chain b).length = k := by
    rw [content_eq hR.tail]
    exact length_slots_full hno
  refine .go σ (.tailRead (.enqueue x) σ.tail) (fun _ => by simp only [step, if_true]) ?_
  refine ends_advanceTail hR (.enqueue x) fun c => ?_
  exact ends_enqueue_room hk (hR.extend (fun _ => hfull) c) ⟨0, hk, hR.cell_fresh c⟩

/-- **The unbounded-size k-FIFO queue, used by one thread at a time, is a k-FIFO queue.** -/
theorem sequential_unbounded (hk : 1 ≤ k) :
    Sequential (machine k α) (fun _ _ => true) (kFifoSpec k fun _ => False) := by
  refine sequential_of_simulation (fun σ q => ∃ chain a b, Rep k σ chain a b q)
    ⟨[1], 0, 0, init_rep⟩ ?_
  rintro σ q t op ⟨chain, a, b, hR⟩ -
  cases op with
  | put x => exact ends_enqueue hk hR
  | get =>
    exact ends_dequeue hk q (b - a) σ a (by have := hR.items.le; omega) hR

theorem sequential_unbounded_two :
    Sequential (machine 2 ℕ) (fun _ _ => true) (kFifoSpec 2 fun _ => False) :=
  sequential_unbounded (by decide)

end Calls

end UnboundedSizeKFifo

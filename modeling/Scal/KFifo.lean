/-
k-FIFO queues, and queues kept in segments of `k` slots.

* `kFifoSpec` — the sequential specification: a get removes one of the `k` oldest
  items;
* `slots` — the items in `k` slots, and how they change when one slot changes;
* `Segmented` — a queue spread over consecutive segments, the inner ones full; its
  first segment holds only items that are among the `k` oldest
  (`Segmented.take`).
-/
import Scal.Linearizable
import Mathlib.Data.List.Nodup
import Mathlib.Data.List.Perm.Basic

namespace Linearizability

variable {α : Type}

/-- A k-FIFO queue, its items from the oldest to the newest.  A put may be refused
when the queue is `full`. -/
def KFifoStep (k : ℕ) (full : List α → Prop) :
    List α → BagOp α → BagRet α → List α → Prop
  | q, .put x, .put true, q' => q' = q ++ [x]
  | q, .put _, .put false, q' => q' = q ∧ full q
  | q, .get, .got (some x), q' => ∃ i < k, q[i]? = some x ∧ q' = q.eraseIdx i
  | q, .get, .got none, q' => q = [] ∧ q' = []
  | _, _, _, _ => False

def kFifoSpec (k : ℕ) (full : List α → Prop) : Spec (BagOp α) (BagRet α) (List α) :=
  ⟨[], KFifoStep k full⟩

theorem Spec.run_cons_iff {Op Ret State : Type} {S : Spec Op Ret State} {s s' : State}
    {op : Op} {r : Ret} {l : List (Op × Ret)} :
    S.Run s ((op, r) :: l) s' ↔ ∃ s₁, S.next s op r s₁ ∧ S.Run s₁ l s' := by
  constructor
  · rintro (_ | ⟨hn, hr⟩)
    exact ⟨_, hn, hr⟩
  · rintro ⟨s₁, hn, hr⟩
    exact .cons hn hr

/-! ### Slots -/

/-- The items in the slots `0, ..., k - 1`. -/
def slots (k : ℕ) (v : ℕ → Option α) : List α := (List.range k).filterMap v

section Slots

variable {k j : ℕ} {v : ℕ → Option α} {x : α}

theorem length_slots_le : (slots k v).length ≤ k :=
  (List.length_filterMap_le v _).trans_eq List.length_range

theorem slots_congr {v' : ℕ → Option α} (h : ∀ j < k, v' j = v j) : slots k v' = slots k v :=
  List.filterMap_congr fun j hj => h j (List.mem_range.mp hj)

theorem slots_eq_nil (h : ∀ j < k, v j = none) : slots k v = [] :=
  List.filterMap_eq_nil_iff.mpr fun j hj => h j (List.mem_range.mp hj)

theorem none_of_slots_eq_nil (h : slots k v = []) (hj : j < k) : v j = none :=
  List.filterMap_eq_nil_iff.mp h j (List.mem_range.mpr hj)

theorem length_slots_full (h : ∀ j < k, v j ≠ none) : (slots k v).length = k := by
  induction k with
  | zero => rfl
  | succ k ih =>
    obtain ⟨y, hy⟩ := Option.ne_none_iff_exists'.mp (h k (Nat.lt_succ_self k))
    rw [slots, List.range_succ, List.filterMap_append, List.length_append]
    change (slots k v).length + _ = _
    rw [ih fun j hj => h j (Nat.lt_succ_of_lt hj)]
    simp [hy]

/-- An item more in one slot. -/
theorem slots_update (hj : j < k) (hv : v j = none) :
    (slots k (Function.update v j (some x))).Perm (x :: slots k v) := by
  obtain ⟨l₁, l₂, hl⟩ := List.append_of_mem (List.mem_range.mpr hj)
  have hnd := List.nodup_range (n := k)
  rw [hl, List.nodup_append] at hnd
  obtain ⟨-, h₂, h₁₂⟩ := hnd
  have hoff : ∀ l : List ℕ, j ∉ l →
      l.filterMap (Function.update v j (some x)) = l.filterMap v := by
    intro l hjl
    refine List.filterMap_congr fun i hi => ?_
    have hij : i ≠ j := fun h => hjl (h ▸ hi)
    exact Function.update_of_ne hij ..
  have hj₁ : j ∉ l₁ := fun h => h₁₂ j h j List.mem_cons_self rfl
  have hj₂ : j ∉ l₂ := (List.nodup_cons.mp h₂).1
  rw [slots, slots, hl, List.filterMap_append, List.filterMap_append,
    List.filterMap_cons_some (Function.update_self ..), List.filterMap_cons_none hv,
    hoff l₁ hj₁, hoff l₂ hj₂]
  exact List.perm_middle

/-- An item less in one slot. -/
theorem slots_erase (hj : j < k) (hv : v j = some x) :
    (slots k v).Perm (x :: slots k (Function.update v j none)) := by
  have h := slots_update (v := Function.update v j none) (x := x) hj (Function.update_self ..)
  rwa [Function.update_idem, ← hv, Function.update_eq_self] at h

end Slots

/-! ### Queues in segments -/

/-- The queue `q` is spread over the segments `a, ..., b`, segment `s` holding the
items `content s` in some order; all but the first and the last hold `k`. -/
structure Segmented (k : ℕ) (content : ℕ → List α) (a b : ℕ) (q : List α) : Prop where
  le : a ≤ b
  split : ∃ seg : ℕ → List α, q = (List.range' a (b + 1 - a)).flatMap seg ∧
    ∀ s, a ≤ s → s ≤ b → (seg s).Perm (content s)
  inner : ∀ s, a < s → s < b → (content s).length = k

namespace Segmented

variable {k a b : ℕ} {content content' : ℕ → List α} {q : List α} {x : α}

theorem nil (h : content a = []) : Segmented k content a a [] := by
  refine ⟨le_rfl, ⟨fun _ => [], by simp, fun s h₁ h₂ => ?_⟩, fun s h₁ h₂ => by omega⟩
  obtain rfl : s = a := by omega
  rw [h]

theorem eq_nil (hq : Segmented k content a a q) (h : content a = []) : q = [] := by
  obtain ⟨seg, rfl, hseg⟩ := hq.split
  have := hseg a le_rfl le_rfl
  rw [h, List.perm_nil] at this
  simp [this]

/-- The items of all segments but the last. -/
theorem split_last {seg : ℕ → List α} (hle : a ≤ b) :
    (List.range' a (b + 1 - a)).flatMap seg =
      (List.range' a (b - a)).flatMap seg ++ seg b := by
  rw [Nat.sub_add_comm hle, List.range'_concat, List.flatMap_append]
  simp [Nat.add_sub_cancel' hle]

theorem split_first {seg : ℕ → List α} (hle : a ≤ b) :
    (List.range' a (b + 1 - a)).flatMap seg =
      seg a ++ (List.range' (a + 1) (b + 1 - (a + 1))).flatMap seg := by
  rw [Nat.sub_add_comm hle, Nat.add_sub_add_right, List.range'_succ, List.flatMap_cons]

theorem flatMap_congr {seg seg' : ℕ → List α} {m : ℕ}
    (h : ∀ s, a ≤ s → s < a + m → seg' s = seg s) :
    (List.range' a m).flatMap seg' = (List.range' a m).flatMap seg := by
  refine List.flatMap_congr fun s hs => ?_
  obtain ⟨i, hi, rfl⟩ := List.mem_range'.mp hs
  exact h _ (by omega) (by omega)

/-- A new item in the last segment is the newest. -/
theorem put (hq : Segmented k content a b q) (hx : (content' b).Perm (x :: content b))
    (hsame : ∀ s, a ≤ s → s < b → content' s = content s) :
    Segmented k content' a b (q ++ [x]) := by
  obtain ⟨seg, rfl, hseg⟩ := hq.split
  refine ⟨hq.le, ⟨Function.update seg b (seg b ++ [x]), ?_, fun s h₁ h₂ => ?_⟩,
    fun s h₁ h₂ => ?_⟩
  · rw [split_last hq.le, split_last hq.le, Function.update_self, List.append_assoc]
    congr 1
    refine (flatMap_congr fun s h₁ h₂ => ?_).symm
    exact Function.update_of_ne (by omega) ..
  · rcases Nat.lt_or_eq_of_le h₂ with h | rfl
    · rw [Function.update_of_ne h.ne, hsame s h₁ h]
      exact hseg s h₁ h₂
    · rw [Function.update_self]
      exact (List.perm_append_singleton x _).trans (((hseg s h₁ h₂).cons x).trans hx.symm)
  · rw [hsame s h₁.le h₂]
    exact hq.inner s h₁ h₂

/-- An item of the first segment is among the `k` oldest. -/
theorem take (hq : Segmented k content a b q) (hx : (content a).Perm (x :: content' a))
    (hk : (content a).length ≤ k) (hsame : ∀ s, a < s → s ≤ b → content' s = content s) :
    ∃ i < k, q[i]? = some x ∧ Segmented k content' a b (q.eraseIdx i) := by
  obtain ⟨seg, rfl, hseg⟩ := hq.split
  have hperm := hseg a le_rfl hq.le
  have hmem : x ∈ seg a := hperm.mem_iff.mpr (hx.mem_iff.mpr List.mem_cons_self)
  obtain ⟨i, hi, hget⟩ := List.mem_iff_getElem.mp hmem
  rw [split_first hq.le]
  refine ⟨i, by rw [← hperm.length_eq] at hk; omega, ?_, hq.le,
    ⟨Function.update seg a ((seg a).eraseIdx i), ?_, fun s h₁ h₂ => ?_⟩, fun s h₁ h₂ => ?_⟩
  · rw [List.getElem?_append_left hi, List.getElem?_eq_getElem hi, hget]
  · rw [List.eraseIdx_append_of_lt_length hi, split_first hq.le, Function.update_self]
    congr 1
    refine (flatMap_congr fun s h₁ h₂ => ?_).symm
    exact Function.update_of_ne (by omega) ..
  · rcases Nat.lt_or_eq_of_le h₁ with h | rfl
    · rw [Function.update_of_ne h.ne', hsame s h h₂]
      exact hseg s h₁ h₂
    · rw [Function.update_self]
      refine List.Perm.cons_inv (a := x) (List.Perm.trans ?_ (hperm.trans hx))
      rw [← hget]
      exact List.getElem_cons_eraseIdx_perm hi
  · rw [hsame s h₁ h₂.le]
    exact hq.inner s h₁ h₂

theorem congr (hq : Segmented k content a b q)
    (h : ∀ s, a ≤ s → s ≤ b → content' s = content s) : Segmented k content' a b q := by
  obtain ⟨seg, rfl, hseg⟩ := hq.split
  refine ⟨hq.le, ⟨seg, rfl, fun s h₁ h₂ => ?_⟩, fun s h₁ h₂ => ?_⟩
  · rw [h s h₁ h₂]
    exact hseg s h₁ h₂
  · rw [h s h₁.le h₂.le]
    exact hq.inner s h₁ h₂

/-- A new, empty last segment; the old one must be full, unless it is also the first. -/
theorem extend (hq : Segmented k content a b q) (hb : content (b + 1) = [])
    (hfull : a < b → (content b).length = k) : Segmented k content a (b + 1) q := by
  obtain ⟨seg, rfl, hseg⟩ := hq.split
  have hle := hq.le
  refine ⟨by omega, ⟨Function.update seg (b + 1) [], ?_, fun s h₁ h₂ => ?_⟩, fun s h₁ h₂ => ?_⟩
  · rw [split_last (b := b + 1) (by omega), Function.update_self, List.append_nil]
    refine (flatMap_congr fun s h₁ h₂ => ?_).symm
    exact Function.update_of_ne (by omega) ..
  · rcases Nat.lt_or_eq_of_le h₂ with h | rfl
    · rw [Function.update_of_ne h.ne]
      exact hseg s h₁ (by omega)
    · rw [Function.update_self, hb]
  · rcases Nat.lt_or_eq_of_le (Nat.le_of_lt_succ h₂) with h | rfl
    · exact hq.inner s h₁ h
    · exact hfull h₁

/-- An empty first segment is dropped. -/
theorem drop (hq : Segmented k content a b q) (ha : content a = []) (hlt : a < b) :
    Segmented k content (a + 1) b q := by
  obtain ⟨seg, rfl, hseg⟩ := hq.split
  have hnil := hseg a le_rfl hq.le
  rw [ha, List.perm_nil] at hnil
  refine ⟨hlt, ⟨seg, ?_, fun s h₁ h₂ => hseg s (by omega) h₂⟩,
    fun s h₁ h₂ => hq.inner s (by omega) h₂⟩
  rw [split_first hq.le, hnil, List.nil_append]

theorem length_flatMap_ge {seg : ℕ → List α} {m : ℕ}
    (h : ∀ s, a ≤ s → s < a + m → (seg s).length = k) :
    ((List.range' a m).flatMap seg).length = m * k := by
  induction m generalizing a with
  | zero => simp
  | succ m ih =>
    rw [List.range'_succ, List.flatMap_cons, List.length_append, h a le_rfl (by omega),
      ih fun s h₁ h₂ => h s (by omega) (by omega), Nat.succ_mul, Nat.add_comm]

/-- How many items there are when the last segment is full too. -/
theorem length_eq (hq : Segmented k content a b q) (hfull : (content b).length = k)
    (hlt : a < b) : q.length = (content a).length + (b - a) * k := by
  obtain ⟨seg, rfl, hseg⟩ := hq.split
  rw [split_first hq.le, List.length_append, (hseg a le_rfl hq.le).length_eq,
    length_flatMap_ge (k := k), Nat.add_sub_add_right]
  intro s h₁ h₂
  rw [(hseg s (by omega) (by omega)).length_eq]
  rcases Nat.lt_or_eq_of_le (show s ≤ b by omega) with h | rfl
  · exact hq.inner s h₁ h
  · exact hfull

end Segmented

end Linearizability

/-
k-LIFO stacks, and stacks kept in segments of `k` slots.

* `kLifoSpec` — the sequential specification: a get removes one of the `k` newest
  items;
* `Stacked` — a stack spread over segments, from the top one down.  Each holds its
  part in some order, so the items of the top segment are the newest ones
  (`Stacked.take`).
-/
import Scal.KFifo

namespace Linearizability

variable {α : Type}

/-- A k-LIFO stack, its items from the newest to the oldest. -/
def KLifoStep (k : ℕ) : List α → BagOp α → BagRet α → List α → Prop
  | q, .put x, .put true, q' => q' = x :: q
  | q, .get, .got (some x), q' => ∃ i < k, q[i]? = some x ∧ q' = q.eraseIdx i
  | q, .get, .got none, q' => q = [] ∧ q' = []
  | _, _, _, _ => False

def kLifoSpec (k : ℕ) : Spec (BagOp α) (BagRet α) (List α) := ⟨[], KLifoStep k⟩

/-- The stack `q` is spread over the segments `l`, segment `s` holding the items
`content s` in some order. -/
inductive Stacked (content : ℕ → List α) : List ℕ → List α → Prop
  | nil : Stacked content [] []
  | cons {s : ℕ} {l : List ℕ} {top q : List α} :
      top.Perm (content s) → Stacked content l q → Stacked content (s :: l) (top ++ q)

namespace Stacked

variable {content content' : ℕ → List α} {s : ℕ} {l : List ℕ} {q : List α} {x : α}

theorem congr (hq : Stacked content l q) (h : ∀ s ∈ l, content' s = content s) :
    Stacked content' l q := by
  induction hq with
  | nil => exact .nil
  | @cons s l top q htop _ ih =>
    refine .cons ?_ (ih fun m hm => h m (List.mem_cons_of_mem _ hm))
    rw [h s List.mem_cons_self]
    exact htop

/-- A new item in the top segment is the newest. -/
theorem put (hq : Stacked content (s :: l) q) (hx : (content' s).Perm (x :: content s))
    (hsame : ∀ m ∈ l, content' m = content m) : Stacked content' (s :: l) (x :: q) := by
  cases hq with
  | @cons _ _ top q htop hq =>
    have htop' : (x :: top).Perm (content' s) := (htop.cons x).trans hx.symm
    exact .cons htop' (hq.congr hsame)

/-- An item of the top segment is among the `k` newest. -/
theorem take {k : ℕ} (hq : Stacked content (s :: l) q) (hx : (content s).Perm (x :: content' s))
    (hk : (content s).length ≤ k) (hsame : ∀ m ∈ l, content' m = content m) :
    ∃ i < k, q[i]? = some x ∧ Stacked content' (s :: l) (q.eraseIdx i) := by
  cases hq with
  | @cons _ _ top q htop hq =>
    have hmem : x ∈ top := htop.mem_iff.mpr (hx.mem_iff.mpr List.mem_cons_self)
    obtain ⟨i, hi, hget⟩ := List.mem_iff_getElem.mp hmem
    have hlen := htop.length_eq
    refine ⟨i, by omega, ?_, ?_⟩
    · rw [List.getElem?_append_left hi, List.getElem?_eq_getElem hi, hget]
    · rw [List.eraseIdx_append_of_lt_length hi]
      refine .cons (List.Perm.cons_inv (a := x) (List.Perm.trans ?_ (htop.trans hx)))
        (hq.congr hsame)
      rw [← hget]
      exact List.getElem_cons_eraseIdx_perm hi

/-- A new, empty top segment. -/
theorem extend (hq : Stacked content l q) (hs : content s = []) : Stacked content (s :: l) q := by
  have htop : [].Perm (content s) := by rw [hs]
  exact .cons htop hq

/-- An empty top segment is dropped. -/
theorem drop (hq : Stacked content (s :: l) q) (hs : content s = []) : Stacked content l q := by
  cases hq with
  | @cons _ _ top q htop hq =>
    rw [hs, List.perm_nil] at htop
    rw [htop, List.nil_append]
    exact hq

theorem eq_nil (hq : Stacked content [] q) : q = [] := by
  cases hq with
  | nil => rfl

end Stacked

end Linearizability

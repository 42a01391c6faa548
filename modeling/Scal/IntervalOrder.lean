/-
Intervals, partially ordered by their positions.

An interval is later than another one if it begins after the other one has ended, so that
overlapping intervals are incomparable.

* `TimeInterval.Later.trans`, `TimeInterval.not_later_self` — this is a strict partial order;
* `better`, `foldl_better` — the scan of a list that keeps one candidate, and replaces it by
  any element that is above it in a strict partial order, ends with a maximal element: what was
  not above an earlier candidate is not above a later one.
-/
import Mathlib.Data.List.Basic
import Mathlib.Order.Lattice

/-- An interval of a linear order; only those with `lo ≤ hi` are not empty. -/
structure TimeInterval (α : Type) where
  lo : α
  hi : α
  deriving DecidableEq

namespace TimeInterval

variable {α : Type} [LinearOrder α] {x y z : TimeInterval α}

def Later (x y : TimeInterval α) : Prop := y.hi < x.lo

instance (x y : TimeInterval α) : Decidable (x.Later y) := inferInstanceAs (Decidable (_ < _))

theorem Later.trans (hy : y.lo ≤ y.hi) (hxy : x.Later y) (hyz : y.Later z) : x.Later z :=
  (lt_of_lt_of_le hyz hy).trans hxy

theorem not_later_self (hx : x.lo ≤ x.hi) : ¬ x.Later x := not_lt.mpr hx

end TimeInterval

/-! ### Keeping one candidate -/

section Scan

variable {β : Type} (r : β → β → Prop) [DecidableRel r]

/-- The candidate `c`, or the element `x` if it is above `c`. -/
def better (c x : β) : β := if r x c then x else c

variable {r} {p : β → Prop}

/-- **The candidate that remains is maximal.** -/
theorem foldl_better (htrans : ∀ a b c, p b → r a b → r b c → r a c) (hirr : ∀ a, p a → ¬ r a a) :
    ∀ (l : List β) (c : β), (∀ x ∈ c :: l, p x) →
      l.foldl (better r) c ∈ c :: l ∧ ∀ x ∈ c :: l, ¬ r x (l.foldl (better r) c) := by
  -- the last candidate is also the first one, or above it
  suffices h : ∀ (l : List β) (c : β), (∀ x ∈ c :: l, p x) →
      l.foldl (better r) c ∈ c :: l ∧ (l.foldl (better r) c = c ∨ r (l.foldl (better r) c) c) ∧
        ∀ x ∈ c :: l, ¬ r x (l.foldl (better r) c) by
    intro l c hp
    exact ⟨(h l c hp).1, (h l c hp).2.2⟩
  intro l
  induction l with
  | nil =>
    intro c hp
    refine ⟨List.mem_cons_self, Or.inl rfl, fun x hx => ?_⟩
    rw [List.mem_singleton.mp hx]
    exact hirr c (hp c List.mem_cons_self)
  | cons y l ih =>
    intro c hp
    have hpc : p c := hp c List.mem_cons_self
    have hpy : p y := hp y (by simp)
    have hpl : ∀ x ∈ l, p x := fun x hx => hp x (by simp [hx])
    rw [List.foldl_cons]
    by_cases hy : r y c
    · -- `y` is the new candidate
      rw [show better r c y = y from if_pos hy]
      obtain ⟨hmem, hlast, hmax⟩ := ih y fun x hx => by
        rcases List.mem_cons.mp hx with rfl | hx
        · exact hpy
        · exact hpl x hx
      generalize l.foldl (better r) y = f at *
      have hfc : r f c := by
        rcases hlast with rfl | hfy
        · exact hy
        · exact htrans f y c hpy hfy hy
      refine ⟨List.mem_cons_of_mem _ hmem, Or.inr hfc, fun x hx hxf => ?_⟩
      rcases List.mem_cons.mp hx with rfl | hx
      · have hpf : p f := hp f (List.mem_cons_of_mem _ hmem)
        exact hirr x hpc (htrans x f x hpf hxf hfc)
      · exact hmax x hx hxf
    · -- `y` is skipped
      rw [show better r c y = c from if_neg hy]
      obtain ⟨hmem, hlast, hmax⟩ := ih c fun x hx => by
        rcases List.mem_cons.mp hx with rfl | hx
        · exact hpc
        · exact hpl x hx
      have hmem' : l.foldl (better r) c ∈ c :: y :: l := by
        rcases List.mem_cons.mp hmem with h | h
        · rw [h]
          exact List.mem_cons_self
        · exact List.mem_cons_of_mem _ (List.mem_cons_of_mem _ h)
      have hpf := hp _ hmem'
      generalize l.foldl (better r) c = f at *
      refine ⟨hmem', hlast, fun x hx hxf => ?_⟩
      rcases List.mem_cons.mp hx with rfl | hx
      · exact hmax x List.mem_cons_self hxf
      · rcases List.mem_cons.mp hx with rfl | hx
        · rcases hlast with rfl | hfc
          · exact hy hxf
          · exact hy (htrans x f c hpf hxf hfc)
        · exact hmax x (List.mem_cons_of_mem _ hx) hxf

end Scan

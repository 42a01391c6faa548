/-
Breadth-first search in a directed graph.

The graph is a relation on any type; a search assigns distances to the vertices it has
discovered, and keeps those whose edges it has yet to follow in a queue.

* `Steps`, `IsDistance` — walks by their lengths, and the length of a shortest one;
* `Search` — the invariant: the queue is in the order of the distances, which differ by one
  at most, and the edges of all other discovered vertices were followed;
* `Search.exact` — the distances are exact at every moment, also in the middle of following
  the edges of a vertex;
* `level` — the vertices at a distance.
-/
import Mathlib.Data.List.Pairwise
import Mathlib.Logic.Function.Basic
import Mathlib.Data.Set.Insert
import Mathlib.Order.Nat
import Mathlib.Tactic.Common

namespace BreadthFirst

variable {V : Type} {E : V → V → Prop} {root u v w : V} {k d : ℕ}

/-- There is a walk of `k` edges. -/
inductive Steps (E : V → V → Prop) (u : V) : V → ℕ → Prop
  | refl : Steps E u u 0
  | tail {v w : V} {k : ℕ} : Steps E u v k → E v w → Steps E u w (k + 1)

/-- The shortest walk has `d` edges. -/
def IsDistance (E : V → V → Prop) (u v : V) (d : ℕ) : Prop :=
  Steps E u v d ∧ ∀ k, Steps E u v k → d ≤ k

theorem IsDistance.unique {d' : ℕ} (h : IsDistance E u v d) (h' : IsDistance E u v d') :
    d = d' := le_antisymm (h.2 d' h'.1) (h'.2 d h.1)

/-- The distances assigned until now, and the vertices whose edges are not followed, or not
all of them. -/
structure Search (E : V → V → Prop) (root : V) (dist : V → Option ℕ) (queue : List V) :
    Prop where
  atRoot : dist root = some 0
  sound : ∀ {v d}, dist v = some d → Steps E root v d
  queued : ∀ v ∈ queue, ∃ d, dist v = some d
  sorted : queue.Pairwise fun u v => ∀ d d', dist u = some d → dist v = some d' → d ≤ d'
  near : ∀ {u q d}, queue = u :: q → dist u = some d → ∀ v d', dist v = some d' → d' ≤ d + 1
  closed : ∀ {u v d}, dist u = some d → u ∉ queue → E u v → ∃ d' ≤ d + 1, dist v = some d'

namespace Search

variable {dist : V → Option ℕ} {queue q : List V}

theorem start [DecidableEq V] (E : V → V → Prop) (root : V) :
    Search E root (Function.update (fun _ => none) root (some 0)) [root] := by
  have hdist : ∀ {v d}, Function.update (fun _ => none) root (some 0) v = some d →
      v = root ∧ d = 0 := by
    intro v d h
    by_cases hv : v = root
    · subst hv
      rw [Function.update_self, Option.some_inj] at h
      exact ⟨rfl, h.symm⟩
    · rw [Function.update_of_ne hv] at h
      cases h
  refine ⟨Function.update_self .., fun h => ?_, fun v hv => ⟨0, ?_⟩, List.pairwise_singleton ..,
    fun _ _ v d' h => ?_, fun h hu _ => ?_⟩
  · obtain ⟨rfl, rfl⟩ := hdist h
    exact .refl
  · rw [List.mem_singleton.mp hv, Function.update_self]
  · obtain ⟨-, rfl⟩ := hdist h
    exact Nat.zero_le _
  · obtain ⟨rfl, -⟩ := hdist h
    exact absurd (List.mem_singleton_self _) hu

/-- An edge of the first vertex leads to a new one, which comes last in the queue. -/
theorem discover [DecidableEq V] (hs : Search E root dist (u :: q)) (hu : dist u = some d)
    (he : E u v) (hv : dist v = none) :
    Search E root (Function.update dist v (some (d + 1))) (u :: (q ++ [v])) := by
  have hold : ∀ {w d'}, dist w = some d' →
      Function.update dist v (some (d + 1)) w = some d' := by
    intro w d' h
    rw [Function.update_of_ne, h]
    rintro rfl
    rw [hv] at h
    cases h
  have hnew : ∀ {w d'}, Function.update dist v (some (d + 1)) w = some d' →
      dist w = some d' ∨ w = v ∧ d' = d + 1 := by
    intro w d' h
    by_cases hw : w = v
    · subst hw
      rw [Function.update_self, Option.some_inj] at h
      exact Or.inr ⟨rfl, h.symm⟩
    · rw [Function.update_of_ne hw] at h
      exact Or.inl h
  -- the vertices in the queue keep their distances
  have hqueue : ∀ {w d'}, w ∈ u :: q → Function.update dist v (some (d + 1)) w = some d' →
      dist w = some d' := by
    intro w d' hw h
    obtain ⟨d'', hd⟩ := hs.queued w hw
    exact hd.trans ((hold hd).symm.trans h)
  refine ⟨hold hs.atRoot, fun h => ?_, fun w hw => ?_, ?_, fun {u' q' d₀} hq h w d' hd => ?_,
    fun {x y dx} h hx hxy => ?_⟩
  · rcases hnew h with h | ⟨rfl, rfl⟩
    · exact hs.sound h
    · exact .tail (hs.sound hu) he
  · rw [← List.cons_append, List.mem_append, List.mem_singleton] at hw
    rcases hw with hw | rfl
    · obtain ⟨d', hd⟩ := hs.queued w hw
      exact ⟨d', hold hd⟩
    · exact ⟨d + 1, Function.update_self ..⟩
  · rw [← List.cons_append, List.pairwise_append]
    refine ⟨hs.sorted.imp_of_mem fun ha hb h d₁ d₂ h1 h2 => h d₁ d₂ (hqueue ha h1) (hqueue hb h2),
      List.pairwise_singleton .., fun a ha b hb d₁ d₂ h1 h2 => ?_⟩
    rw [List.mem_singleton.mp hb, Function.update_self, Option.some_inj] at h2
    exact h2 ▸ hs.near rfl hu a d₁ (hqueue ha h1)
  · obtain ⟨rfl, -⟩ := List.cons.inj hq
    obtain rfl := Option.some.inj (hu.symm.trans (hqueue List.mem_cons_self h))
    rcases hnew hd with hd | ⟨-, rfl⟩
    · exact hs.near rfl hu w d' hd
    · exact le_rfl
  · rw [← List.cons_append, List.mem_append, not_or, List.mem_singleton] at hx
    rcases hnew h with h | ⟨rfl, -⟩
    · obtain ⟨d', hd', hy⟩ := hs.closed h hx.1 hxy
      exact ⟨d', hd', hold hy⟩
    · exact absurd rfl hx.2

/-- All edges of the first vertex were followed. -/
theorem leave (hs : Search E root dist (u :: q)) (hu : dist u = some d)
    (hall : ∀ v, E u v → ∃ d', dist v = some d') : Search E root dist q := by
  refine ⟨hs.atRoot, hs.sound, fun v hv => hs.queued v (List.mem_cons_of_mem _ hv),
    (List.pairwise_cons.mp hs.sorted).2, fun {w q' d₀} hq hw v d' hv => ?_,
    fun {x y dx} hx hxq hxy => ?_⟩
  · have hle := (List.pairwise_cons.mp hs.sorted).1 w (hq ▸ List.mem_cons_self) d d₀ hu hw
    have := hs.near rfl hu v d' hv
    omega
  · by_cases hxu : x = u
    · subst hxu
      obtain rfl := Option.some.inj (hu.symm.trans hx)
      obtain ⟨d', hd'⟩ := hall y hxy
      exact ⟨d', hs.near rfl hu y d' hd', hd'⟩
    · exact hs.closed hx (fun h => (List.mem_cons.mp h).elim hxu hxq) hxy

/-- A walk leads to a vertex with a distance not above its length, or past the queue. -/
theorem reach (hs : Search E root dist queue) (hw : Steps E root v k) :
    (∃ d ≤ k, dist v = some d) ∨ ∃ u ∈ queue, ∃ d < k, dist u = some d := by
  induction hw with
  | refl => exact Or.inl ⟨0, le_rfl, hs.atRoot⟩
  | @tail v w k _ he ih =>
    rcases ih with ⟨d, hd, hv⟩ | ⟨u, hu, d, hd, hdu⟩
    · by_cases hq : v ∈ queue
      · exact Or.inr ⟨v, hq, d, by omega, hv⟩
      · obtain ⟨d', hd', hw⟩ := hs.closed hv hq he
        exact Or.inl ⟨d', by omega, hw⟩
    · exact Or.inr ⟨u, hu, d, by omega, hdu⟩

/-- **The distances are exact.** -/
theorem exact (hs : Search E root dist queue) (hv : dist v = some d) : IsDistance E root v d := by
  refine ⟨hs.sound hv, fun k hk => ?_⟩
  rcases hs.reach hk with ⟨d', hd', hv'⟩ | ⟨u, hu, d', hd', hu'⟩
  · obtain rfl := Option.some.inj (hv.symm.trans hv')
    exact hd'
  · cases queue with
    | nil => cases hu
    | cons a q =>
      obtain ⟨da, hda⟩ := hs.queued a List.mem_cons_self
      have hle : da ≤ d' := by
        rcases List.mem_cons.mp hu with rfl | hu
        · exact (Option.some.inj (hda.symm.trans hu')).le
        · exact (List.pairwise_cons.mp hs.sorted).1 u hu da d' hda hu'
      have := hs.near rfl hda v d hv
      omega

/-- When the queue is empty, the other vertices are not reachable. -/
theorem complete (hs : Search E root dist []) (hv : dist v = none) : ¬ Steps E root v k := by
  intro hk
  rcases hs.reach hk with ⟨d, -, hd⟩ | ⟨u, hu, -⟩
  · rw [hv] at hd
    cases hd
  · cases hu

end Search

/-- The vertices at a distance. -/
def level (dist : V → Option ℕ) (d : ℕ) : Set V := {v | dist v = some d}

section Level

variable {dist : V → Option ℕ} {q : List V}

theorem level_update_self [DecidableEq V] (hv : dist v = none) :
    level (Function.update dist v (some d)) d = insert v (level dist d) := by
  ext w
  show Function.update dist v (some d) w = some d ↔ w = v ∨ dist w = some d
  by_cases hw : w = v
  · subst hw
    simp
  · rw [Function.update_of_ne hw]
    simp [hw]

theorem level_update_of_ne [DecidableEq V] (hv : dist v = none) (hk : k ≠ d) :
    level (Function.update dist v (some d)) k = level dist k := by
  ext w
  show Function.update dist v (some d) w = some k ↔ dist w = some k
  by_cases hw : w = v
  · subst hw
    rw [Function.update_self, hv]
    simp [Ne.symm hk]
  · rw [Function.update_of_ne hw]

/-- At the end, the levels are the sets of the vertices at these distances. -/
theorem Search.level_eq (hs : Search E root dist []) (d : ℕ) :
    level dist d = {v | IsDistance E root v d} := by
  ext v
  constructor
  · intro hv
    exact hs.exact hv
  · intro hv
    rcases hd : dist v with _ | d'
    · exact absurd hv.1 (hs.complete hd)
    · exact hd.trans (congrArg some ((hs.exact hd).unique hv))

end Level

end BreadthFirst

/-
The backtrace of the shortest-path search (`benchmark/bfs/spf_sequential.cc`).

The loop that prints the parents overwrites the end vertex at every step.  It does not come
back to that vertex, since the distances decrease.  A vertex without a parent is not looked
for: neither the root nor a vertex that was not reached has one, and the loop then reads the
vertex `no_parent`.

* `printParents_spec` — the loop from a vertex that was reached;
* `printBacktrace_noParent` — the access out of bounds;
* `backtraces_iff` — so the end vertex has to be another vertex than the root, and reachable.
-/
import Scal.ShortestPathDistance
import Mathlib.Data.List.Chain

open BreadthFirst

namespace Bfs

/-- `l` holds the vertices of a shortest path. -/
structure IsShortestPath (E : ℕ → ℕ → Prop) (u v : ℕ) (l : List ℕ) : Prop where
  first : l.head? = some u
  last : l.getLast? = some v
  edges : l.IsChain E
  shortest : IsDistance E u v (l.length - 1)

/-- The loop ends, accesses vertices of the graph only, and prints a shortest path, backwards,
if there is one to another vertex than the root. -/
def Backtraces (g₀ : Graph) (root endIndex : ℕ) (g : Graph) : Prop :=
  ∃ printed,
    (∃ n, ∀ fuel ≥ n, printBacktrace root endIndex fuel g = some (.ok printed)) ∧
    (endIndex ≠ root → (∃ k, Steps g₀.Edge root endIndex k) →
      IsShortestPath g₀.Edge root endIndex printed.reverse)

section Backtrace

variable {root endIndex : ℕ} {g₀ g : Graph}

/-- The loop, when the end vertex was overwritten by `p`: it prints the parents of `p`. -/
theorem printParents_spec (hp : Parents g₀ root g)
    (hexact : ∀ v x, g.vertices[v]? = some x → x.distance ≠ Vertex.noDistance →
      IsDistance g₀.Edge root v x.distance)
    {last : Vertex} (hlast : g.vertices[endIndex]? = some last) :
    ∀ (d : ℕ) {p : ℕ} {x : Vertex} {h : Graph}, p ≠ root →
      g.vertices[p]? = some x → x.distance = d → d < Vertex.noDistance →
      x.distance ≤ last.distance → h.vertices[endIndex]? = some x →
      (∀ v, v ≠ endIndex → h.vertices[v]? = g.vertices[v]?) →
      ∃ l, (∀ fuel ≥ d, printParents root endIndex fuel h = some (.ok l)) ∧
        (p :: l).IsChain (fun a b => g₀.Edge b a) ∧ l.getLast? = some root ∧ l.length = d := by
  intro d
  induction d with
  | zero =>
    intro p x h hpr hx hd hlt _ _ _
    -- only the root has distance zero
    have hw := (hexact p x hx (Nat.ne_of_lt (hd ▸ hlt))).1
    rw [hd] at hw
    cases hw
    exact absurd rfl hpr
  | succ d ih =>
    intro p x h hpr hx hd hlt hle hend hsame
    obtain ⟨he, y, hy, hyd⟩ := hp p x hpr hx (by omega)
    by_cases hroot : x.parent = root
    · have hdy : d = 0 := by
        have hw := hexact x.parent y hy (by omega)
        rw [hroot] at hw
        have := hw.2 0 .refl
        omega
      subst hdy
      refine ⟨[x.parent], fun fuel hfuel => ?_, List.isChain_pair.mpr he, ?_, rfl⟩
      · obtain ⟨fuel, rfl⟩ : ∃ f, fuel = f + 1 := ⟨fuel - 1, by omega⟩
        rw [printParents, hend]
        exact if_pos hroot
      · rw [hroot]
        rfl
    · have hne : x.parent ≠ endIndex := by
        rintro hpe
        rw [hpe, hlast] at hy
        cases hy
        omega
      have hltEnd : endIndex < h.vertices.length := (List.getElem?_eq_some_iff.mp hend).1
      obtain ⟨l, hprint, hchain, hlastl, hlen⟩ := ih (p := x.parent) (x := y)
        (h := h.set endIndex y) hroot hy (by omega) (by omega) (by omega)
        ((Graph.getElem?_set hltEnd endIndex).trans (if_pos rfl))
        (fun v hv => ((Graph.getElem?_set hltEnd v).trans (if_neg hv)).trans (hsame v hv))
      refine ⟨x.parent :: l, fun fuel hfuel => ?_, List.isChain_cons_cons.mpr ⟨he, hchain⟩, ?_, ?_⟩
      · obtain ⟨fuel, rfl⟩ : ∃ f, fuel = f + 1 := ⟨fuel - 1, by omega⟩
        rw [printParents, hend]
        dsimp only
        rw [if_neg hroot, hsame _ hne, hy]
        dsimp only
        rw [hprint fuel (by omega)]
        rfl
      · rw [List.getLast?_cons, hlastl]
        rfl
      · rw [List.length_cons, hlen]

/-- The vertex `no_parent` does not exist. -/
theorem printBacktrace_noParent (hlen : g.vertices.length < wordSize)
    (hr : root < g.vertices.length) {x : Vertex} (hx : g.vertices[endIndex]? = some x)
    (hparent : x.parent = Vertex.noParent) (fuel : ℕ) :
    printBacktrace root endIndex (fuel + 1) g = some (.error .outOfBounds) := by
  have hno : g.vertices[Vertex.noParent]? = none :=
    List.getElem?_eq_none (Nat.le_pred_of_lt hlen)
  have hne : Vertex.noParent ≠ root := by
    rintro rfl
    exact absurd hr (Nat.not_lt.mpr (Nat.le_pred_of_lt hlen))
  rw [printBacktrace, printParents, hx]
  dsimp only
  rw [hparent, if_neg hne, hno]
  rfl

end Backtrace

/-- **The backtrace is finite and a shortest path if and only if** the end vertex is reachable
and not the root. -/
theorem backtraces_iff (g₀ : Graph) (hg : g₀.WellFormed)
    (hfresh : ∀ x ∈ g₀.vertices, x.distance = Vertex.noDistance ∧ x.parent = Vertex.noParent)
    (root endIndex : ℕ) (hr : root < g₀.size) (he : endIndex < g₀.size) (next value : ℕ → ℕ)
    (fuel : ℕ) (hfuel : g₀.size < fuel) :
    ∃ g, shortestPath true root endIndex fuel g₀ (.new next value) = some (.ok g) ∧
      (Backtraces g₀ root endIndex g ↔
        endIndex ≠ root ∧ ∃ k, Steps g₀.Edge root endIndex k) := by
  obtain ⟨g, l, hsearch, hs, hl⟩ := shortestPath_spec true endIndex hg
    (fun x hx => (hfresh x hx).1) hr next value hfuel
  have hlen : g.vertices.length = g₀.size := hs.length.trans hg.length
  obtain ⟨x, hx, hend⟩ := (hs.distances hg he hl).atEnd
  refine ⟨g, hsearch, ?_⟩
  constructor
  · rintro ⟨printed, ⟨n, hprint⟩, -⟩
    by_contra hcond
    -- the end vertex has no parent
    have hparent : x.parent = Vertex.noParent := by
      by_cases her : endIndex = root
      · exact hs.rootParent x (her ▸ hx)
      · have hunreached : ∀ k, ¬ Steps g₀.Edge root endIndex k :=
          fun k hk => hcond ⟨her, k, hk⟩
        have hd : x.distance = Vertex.noDistance := by
          rcases hend with ⟨-, hd⟩ | ⟨hd, -⟩
          · exact absurd hd.1 (hunreached _)
          · exact hd
        have hold := hs.untouched endIndex ((Graph.dist_of_get hx).trans (if_pos hd))
        exact (hfresh x (List.mem_of_getElem? (hold.symm.trans hx))).2
    have herror := printBacktrace_noParent (hlen ▸ hg.lt) (hlen ▸ hr) hx hparent n
    rw [hprint (n + 1) (Nat.le_succ n)] at herror
    cases herror
  · rintro ⟨hne, k, hk⟩
    obtain ⟨hlt, hd⟩ : x.distance < Vertex.noDistance ∧
        IsDistance g₀.Edge root endIndex x.distance := by
      rcases hend with h | ⟨-, h⟩
      · exact h
      · exact absurd hk (h k)
    obtain ⟨ps, hprint, hchain, hlast, hlen⟩ := printParents_spec hs.parents
      (hs.distances hg he hl).exact hx x.distance hne hx rfl hlt le_rfl hx (fun _ _ => rfl)
    refine ⟨endIndex :: ps, ⟨x.distance, fun fuel hfuel => ?_⟩, fun _ _ => ⟨?_, ?_, ?_, ?_⟩⟩
    · rw [printBacktrace, hprint fuel hfuel]
      rfl
    · rw [List.head?_reverse, List.getLast?_cons, hlast]
      rfl
    · rw [List.getLast?_reverse]
      rfl
    · rw [List.isChain_reverse]
      exact hchain
    · rw [List.length_reverse, List.length_cons, hlen]
      exact hd

theorem backtraces_iff_twoVertices :
    ∃ g, shortestPath true 0 1 3 twoVertices (.new id id) = some (.ok g) ∧
      (Backtraces twoVertices 0 1 g ↔ 1 ≠ 0 ∧ ∃ k, Steps twoVertices.Edge 0 1 k) :=
  backtraces_iff twoVertices twoVertices_wellFormed (by decide) 0 1 (by decide) (by decide)
    id id 3 (by decide)

/-- With the root as the end, the loop looks for the parent of the root. -/
theorem not_backtraces_root :
    ∃ g, shortestPath true 0 0 3 twoVertices (.new id id) = some (.ok g) ∧
      ¬ Backtraces twoVertices 0 0 g := by
  refine ⟨⟨2, [⟨[1], 0, Vertex.noParent⟩, ⟨[], 1, 0⟩]⟩, by decide +kernel, ?_⟩
  rintro ⟨printed, ⟨n, hprint⟩, -⟩
  have herror : printBacktrace 0 0 (n + 1) ⟨2, [⟨[1], 0, Vertex.noParent⟩, ⟨[], 1, 0⟩]⟩ = _ :=
    printBacktrace_noParent (by decide) (by decide) rfl rfl n
  rw [hprint (n + 1) (Nat.le_succ n)] at herror
  cases herror

end Bfs

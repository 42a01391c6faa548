/-
The shortest-path search computes exact distances (`benchmark/bfs/spf_sequential.cc`).

The queue of the search holds vertices in the order of their distances, so the graph and the
queue are a breadth-first search (`BreadthFirst.Search`) at every moment, also where the loop
over the neighbors is left because the end vertex was discovered.

* `Searching` — the invariant of both searches, with the parents if they are stored;
* `visit_spec`, `search_spec` — what the loops make of it;
* `shortestPath_strip` — the parents have no influence on the distances;
* `shortestPath_exact` — the result of the two searches.
-/
import Scal.BreadthFirst
import Scal.ShortestPath
import Mathlib.Data.List.Count

open BreadthFirst

namespace Bfs

/-! ### Graphs as relations -/

/-- There is an edge from `u` to `v`. -/
def Graph.Edge (g : Graph) (u v : ℕ) : Prop :=
  ∃ ns, (g.vertices.map Vertex.neighbors)[u]? = some ns ∧ v ∈ ns

/-- A graph whose neighbor ids are below its size. -/
structure Graph.WellFormed (g : Graph) : Prop where
  length : g.vertices.length = g.numVertices
  lt : g.numVertices < wordSize
  below : ∀ {u v}, g.Edge u v → v < g.size

/-- The distance of a vertex, if there is one. -/
def Graph.dist (g : Graph) (v : ℕ) : Option ℕ :=
  (g.vertices[v]?.map Vertex.distance).filter (· ≠ Vertex.noDistance)

/-- The number of vertices that have a distance. -/
def Graph.found (g : Graph) : ℕ := g.vertices.countP (·.distance ≠ Vertex.noDistance)

section Graph

variable {g : Graph} {u v i d : ℕ} {x : Vertex}

theorem Graph.edge_iff (hu : g.vertices[u]? = some x) : g.Edge u v ↔ v ∈ x.neighbors := by
  rw [Edge, List.getElem?_map, hu]
  constructor
  · rintro ⟨ns, h, hv⟩
    cases h
    exact hv
  · intro hv
    exact ⟨x.neighbors, rfl, hv⟩

theorem Graph.dist_eq_some :
    g.dist v = some d ↔ ∃ x, g.vertices[v]? = some x ∧ x.distance = d ∧ d ≠ Vertex.noDistance := by
  rw [dist, Option.filter_eq_some_iff, Option.map_eq_some_iff]
  constructor
  · rintro ⟨⟨x, hx, hd⟩, hne⟩
    exact ⟨x, hx, hd, of_decide_eq_true hne⟩
  · rintro ⟨x, hx, hd, hne⟩
    exact ⟨⟨x, hx, hd⟩, decide_eq_true hne⟩

theorem Graph.dist_of_get (hv : g.vertices[v]? = some x) :
    g.dist v = if x.distance = Vertex.noDistance then none else some x.distance := by
  rw [dist, hv]
  by_cases h : x.distance = Vertex.noDistance
  · rw [if_pos h]
    simp [h]
  · rw [if_neg h]
    simp [h]

theorem Graph.getElem?_set (hv : v < g.vertices.length) (u : ℕ) :
    (g.set v x).vertices[u]? = if u = v then some x else g.vertices[u]? := by
  rw [Graph.set, List.getElem?_set]
  by_cases h : v = u
  · subst h
    rw [if_pos rfl, if_pos rfl, if_pos hv]
  · rw [if_neg h, if_neg (Ne.symm h)]

theorem Graph.dist_set (hv : v < g.vertices.length) (hx : x.distance ≠ Vertex.noDistance) :
    (g.set v x).dist = Function.update g.dist v (some x.distance) := by
  funext u
  by_cases h : u = v
  · subst h
    rw [Function.update_self, Graph.dist_of_get ((Graph.getElem?_set hv u).trans (if_pos rfl)),
      if_neg hx]
  · rw [Function.update_of_ne h, dist, Graph.getElem?_set hv, if_neg h, dist]

theorem Graph.neighbors_set {y : Vertex} (hv : g.vertices[v]? = some y)
    (hx : x.neighbors = y.neighbors) :
    (g.set v x).vertices.map Vertex.neighbors = g.vertices.map Vertex.neighbors := by
  rw [Graph.set, List.map_set]
  refine List.ext_getElem? fun u => ?_
  rw [List.getElem?_set, hx]
  by_cases h : v = u
  · subst h
    rw [if_pos rfl, List.getElem?_map, hv, List.length_map,
      if_pos (List.getElem?_eq_some_iff.mp hv).1]
    rfl
  · rw [if_neg h]

/-- A vertex that had no distance is found. -/
theorem Graph.found_set {y : Vertex} (hv : g.vertices[v]? = some y)
    (hy : y.distance = Vertex.noDistance) (hx : x.distance ≠ Vertex.noDistance) :
    (g.set v x).found = g.found + 1 := by
  obtain ⟨hlt, hget⟩ := List.getElem?_eq_some_iff.mp hv
  rw [found, found, Graph.set, List.countP_set hlt, hget, if_neg (by simp [hy]),
    if_pos (by simp [hx])]
  rfl

theorem Graph.found_le (g : Graph) : g.found ≤ g.vertices.length := List.countP_le_length

end Graph

/-! ### The search -/

/-- A search from `root` in the graph `g₀` has led to `g`; the edges of the vertices `queue`
are not followed yet. -/
structure Searching (withParent : Bool) (root : ℕ) (g₀ g : Graph) (queue : List ℕ) : Prop where
  neighbors : g.vertices.map Vertex.neighbors = g₀.vertices.map Vertex.neighbors
  numVertices : g.numVertices = g₀.numVertices
  search : Search g₀.Edge root g.dist queue
  few : ∀ v d, g.dist v = some d → d < g.found
  untouched : ∀ v, g.dist v = none → g.vertices[v]? = g₀.vertices[v]?
  rootParent : ∀ x, g.vertices[root]? = some x → x.parent = Vertex.noParent
  parent : withParent = true → ∀ v x, v ≠ root → g.vertices[v]? = some x →
    x.distance ≠ Vertex.noDistance →
    g₀.Edge x.parent v ∧ ∃ d, g.dist x.parent = some d ∧ x.distance = d + 1

section Search

variable {withParent : Bool} {root cur : ℕ} {g₀ g : Graph} {queue l : List ℕ}

theorem Searching.length (h : Searching withParent root g₀ g queue) :
    g.vertices.length = g₀.vertices.length := by
  have := congrArg List.length h.neighbors
  rwa [List.length_map, List.length_map] at this

theorem Searching.edge_iff (h : Searching withParent root g₀ g queue) {x : Vertex} {u v : ℕ}
    (hu : g.vertices[u]? = some x) : g₀.Edge u v ↔ v ∈ x.neighbors := by
  rw [← Graph.edge_iff hu, Graph.Edge, Graph.Edge, h.neighbors]

/-- Before the first vertex is dequeued. -/
theorem Searching.start (withParent : Bool) (hg : g₀.WellFormed)
    (hunset : ∀ x ∈ g₀.vertices, x.distance = Vertex.noDistance) (hr : root < g₀.size) :
    ∃ g, g₀.setRoot root = .ok g ∧ g.found = 1 ∧ Searching withParent root g₀ g [root] := by
  have hlt : root < g₀.vertices.length := hg.length ▸ hr
  have hx : g₀.vertices[root]? = some g₀.vertices[root] := List.getElem?_eq_getElem hlt
  set y := g₀.vertices[root] with hy
  set x : Vertex := { y with distance := 0, parent := Vertex.noParent } with hxdef
  have hne : x.distance ≠ Vertex.noDistance := Nat.ne_of_lt (by decide : 0 < wordSize - 1)
  have hnone : g₀.dist = fun _ => none := by
    funext v
    rcases hv : g₀.vertices[v]? with _ | z
    · rw [Graph.dist, hv]
      rfl
    · rw [Graph.dist_of_get hv, if_pos (hunset z (List.mem_of_getElem? hv))]
  have hdist : (g₀.set root x).dist = Function.update (fun _ => none) root (some 0) := by
    rw [Graph.dist_set hlt hne, hnone]
  have hfound : (g₀.set root x).found = 1 := by
    rw [Graph.found_set hx (hunset y (List.getElem_mem hlt)) hne, Graph.found,
      List.countP_eq_zero.mpr fun z hz => by simp [hunset z hz]]
  -- the root is the only vertex with a distance
  have honly : ∀ {v d}, (g₀.set root x).dist v = some d → v = root ∧ d = 0 := by
    intro v d h
    rw [hdist] at h
    by_cases hv : v = root
    · subst hv
      rw [Function.update_self] at h
      exact ⟨rfl, (Option.some.inj h).symm⟩
    · rw [Function.update_of_ne hv] at h
      cases h
  refine ⟨g₀.set root x, ?_, hfound, ⟨Graph.neighbors_set hx rfl, rfl, hdist ▸ Search.start ..,
    fun v d h => ?_, fun v h => ?_, fun z h => ?_, fun _ v z hv h hz => ?_⟩⟩
  · rw [Graph.setRoot, hx]
  · rw [(honly h).2, hfound]
    exact Nat.one_pos
  · rw [Graph.getElem?_set hlt, if_neg]
    rintro rfl
    rw [hdist, Function.update_self] at h
    cases h
  · rw [Graph.getElem?_set hlt, if_pos rfl] at h
    cases h
    rfl
  · have hd := (Graph.dist_of_get h).trans (if_neg hz)
    exact absurd (honly hd).1 hv

/-- A neighbor `i` of the vertex that is visited gets its distance. -/
theorem Searching.discover (hg : g₀.WellFormed) (h : Searching withParent root g₀ g (cur :: l))
    {i : ℕ} {x y z : Vertex} (hcur : g.vertices[cur]? = some x)
    (hd : x.distance ≠ Vertex.noDistance) (he : g₀.Edge cur i) (hi : g.vertices[i]? = some y)
    (hy : y.distance = Vertex.noDistance) (hzn : z.neighbors = y.neighbors)
    (hzd : z.distance = (x.distance + 1) % wordSize)
    (hzp : withParent = true → z.parent = cur) :
    Searching withParent root g₀ (g.set i z) (cur :: (l ++ [i])) ∧
      (g.set i z).found = g.found + 1 ∧
      (g.set i z).dist = Function.update g.dist i (some (x.distance + 1)) := by
  have hdcur : g.dist cur = some x.distance := (Graph.dist_of_get hcur).trans (if_neg hd)
  have hfree : g.dist i = none := (Graph.dist_of_get hi).trans (if_pos hy)
  have hlt : i < g.vertices.length := (List.getElem?_eq_some_iff.mp hi).1
  -- a distance is below the number of vertices that have one, of which `i` is none
  have hfew : x.distance + 1 < wordSize - 1 := by
    have h1 := h.few cur _ hdcur
    have h2 : g.found < g.vertices.length := by
      refine lt_of_le_of_ne g.found_le fun h => ?_
      have := List.countP_eq_length.mp h y (List.mem_of_getElem? hi)
      exact of_decide_eq_true this hy
    have h3 := h.length
    have h4 := hg.length
    have h5 := hg.lt
    omega
  rw [Nat.mod_eq_of_lt (by omega)] at hzd
  have hne : z.distance ≠ Vertex.noDistance := hzd ▸ Nat.ne_of_lt hfew
  have hdist := Graph.dist_set (g := g) hlt hne
  have hfound := Graph.found_set hi hy hne
  have hnew : ∀ {v d}, (g.set i z).dist v = some d →
      g.dist v = some d ∨ v = i ∧ d = x.distance + 1 := by
    intro v d hv
    rw [hdist] at hv
    by_cases hvi : v = i
    · subst hvi
      rw [Function.update_self] at hv
      exact Or.inr ⟨rfl, (Option.some.inj hv).symm.trans hzd⟩
    · rw [Function.update_of_ne hvi] at hv
      exact Or.inl hv
  have hold : ∀ {v d}, g.dist v = some d → (g.set i z).dist v = some d := by
    intro v d hv
    rw [hdist, Function.update_of_ne]
    · exact hv
    · rintro rfl
      rw [hfree] at hv
      cases hv
  refine ⟨⟨(Graph.neighbors_set hi hzn).trans h.neighbors, h.numVertices,
    hdist ▸ hzd ▸ h.search.discover hdcur he hfree, fun v d hv => ?_, fun v hv => ?_, fun w hw => ?_,
    fun hp v w hv hw hwd => ?_⟩, hfound, hzd ▸ hdist⟩
  · rw [hfound]
    rcases hnew hv with hv | ⟨-, rfl⟩
    · exact Nat.lt_succ_of_lt (h.few v d hv)
    · exact Nat.succ_lt_succ (h.few cur _ hdcur)
  · have hvi : v ≠ i := by
      rintro rfl
      rw [hdist, Function.update_self] at hv
      cases hv
    rw [Graph.getElem?_set hlt, if_neg hvi]
    rw [hdist, Function.update_of_ne hvi] at hv
    exact h.untouched v hv
  · have hri : root ≠ i := by
      rintro rfl
      rw [h.search.atRoot] at hfree
      cases hfree
    rw [Graph.getElem?_set hlt, if_neg hri] at hw
    exact h.rootParent w hw
  · rw [Graph.getElem?_set hlt] at hw
    by_cases hvi : v = i
    · subst hvi
      rw [if_pos rfl] at hw
      cases hw
      rw [hzp hp]
      exact ⟨he, x.distance, hold hdcur, hzd⟩
    · rw [if_neg hvi] at hw
      obtain ⟨hedge, d, hd', hwx⟩ := h.parent hp v w hv hw hwd
      exact ⟨hedge, d, hold hd', hwx⟩

/-- The loop over neighbors of the first vertex; where it is left, the end vertex counts as
if it was enqueued. -/
theorem visit_spec (endIndex : ℕ) (hg : g₀.WellFormed) {d : ℕ} : ∀ (ns : List ℕ) {g : Graph}
    {q : SingleList ℕ} {l : List ℕ}, Searching withParent root g₀ g (cur :: l) → q.Holds l →
    g.dist cur = some d → (∀ i ∈ ns, g₀.Edge cur i) →
    ∃ g' q' l' stopped, visit withParent endIndex cur ns g q = .ok (g', q', stopped) ∧
      Searching withParent root g₀ g' (cur :: l') ∧ g'.found + l.length = g.found + l'.length ∧
      (∀ v d, g.dist v = some d → g'.dist v = some d) ∧
      (stopped = true → ∃ d, g'.dist endIndex = some d) ∧
      (stopped = false → q'.Holds l' ∧ ∀ i ∈ ns, ∃ d, g'.dist i = some d) := by
  intro ns
  induction ns with
  | nil =>
    intro g q l h hq _ _
    exact ⟨g, q, l, false, rfl, h, rfl, fun _ _ => id, fun h => (by cases h),
      fun _ => ⟨hq, fun i hi => by cases hi⟩⟩
  | cons i ns ih =>
    intro g q l h hq hcur hns
    obtain ⟨x, hx, hxd, hd⟩ := Graph.dist_eq_some.mp hcur
    have he : g₀.Edge cur i := hns i List.mem_cons_self
    have hlt : i < g.vertices.length := by
      rw [h.length, hg.length]
      exact hg.below he
    have hi : g.vertices[i]? = some g.vertices[i] := List.getElem?_eq_getElem hlt
    generalize g.vertices[i] = y at hi
    have hrest : ∀ j ∈ ns, g₀.Edge cur j := fun j hj => hns j (List.mem_cons_of_mem _ hj)
    by_cases hy : y.distance = Vertex.noDistance
    · rw [visit, hi, hx]
      dsimp only
      rw [if_pos hy]
      set z : Vertex := { y with
        distance := (x.distance + 1) % wordSize
        parent := if withParent then cur else y.parent }
      obtain ⟨hs, hfound, -⟩ := h.discover (z := z) hg hx (hxd ▸ hd) he hi hy rfl rfl
        fun hp => if_pos hp
      have hsome : ∃ d, (g.set i z).dist i = some d := hs.search.queued i (by simp)
      have hold : ∀ v d, g.dist v = some d → (g.set i z).dist v = some d := by
        intro v d hv
        have hvi : v ≠ i := by
          rintro rfl
          rw [Graph.dist_of_get hi, if_pos hy] at hv
          cases hv
        rw [Graph.dist, Graph.getElem?_set hlt, if_neg hvi]
        exact hv
      generalize g.set i z = g₁ at hs hfound hsome hold
      by_cases hend : i = endIndex
      · rw [if_pos hend]
        refine ⟨g₁, q, l ++ [i], true, rfl, hs, ?_, hold, fun _ => hend ▸ hsome,
          fun h => (by cases h)⟩
        rw [hfound, List.length_append, List.length_singleton]
        omega
      · rw [if_neg hend]
        obtain ⟨g', q', l', stopped, hv, hs', hcount, hkeep, hstop, hgo⟩ :=
          ih hs (hq.enqueue i) (hold _ _ hcur) hrest
        refine ⟨g', q', l', stopped, hv, hs', ?_, fun v d hd => hkeep v d (hold v d hd), hstop,
          fun hf => ⟨(hgo hf).1, fun j hj => ?_⟩⟩
        · rw [hfound, List.length_append, List.length_singleton] at hcount
          omega
        · rcases List.mem_cons.mp hj with rfl | hj
          · obtain ⟨d', hd'⟩ := hsome
            exact ⟨d', hkeep _ _ hd'⟩
          · exact (hgo hf).2 j hj
    · obtain ⟨g', q', l', stopped, hv, hs', hcount, hkeep, hstop, hgo⟩ := ih h hq hcur hrest
      refine ⟨g', q', l', stopped, ?_, hs', hcount, hkeep, hstop,
        fun hf => ⟨(hgo hf).1, fun j hj => ?_⟩⟩
      · rw [visit, hi, hx]
        dsimp only
        rw [if_neg hy]
        exact hv
      · rcases List.mem_cons.mp hj with rfl | hj
        · exact ⟨_, hkeep _ _ ((Graph.dist_of_get hi).trans (if_neg hy))⟩
        · exact (hgo hf).2 j hj

/-- The search ends with the end vertex, or with an empty queue. -/
theorem search_spec (endIndex : ℕ) (hg : g₀.WellFormed) : ∀ (fuel : ℕ) {g : Graph} {q : SingleList ℕ}
    {l : List ℕ}, Searching withParent root g₀ g l → q.Holds l →
    g₀.size + l.length < fuel + g.found →
    ∃ g' l', search withParent endIndex fuel g q = some (.ok g') ∧
      Searching withParent root g₀ g' l' ∧ (l' = [] ∨ ∃ d, g'.dist endIndex = some d) := by
  intro fuel
  induction fuel with
  | zero =>
    intro g q l h _ hfuel
    have h1 := g.found_le
    have h2 := h.length
    have h3 := hg.length
    rw [Graph.size] at hfuel
    omega
  | succ fuel ih =>
    intro g q l h hq hfuel
    cases l with
    | nil =>
      refine ⟨g, [], ?_, h, Or.inl rfl⟩
      rw [search, hq.dequeue_nil]
    | cons cur l =>
      obtain ⟨q₁, hdeq, hq₁⟩ := hq.dequeue_cons
      obtain ⟨d, hcur⟩ := h.search.queued cur List.mem_cons_self
      obtain ⟨x, hx, -, -⟩ := Graph.dist_eq_some.mp hcur
      obtain ⟨g', q', l', stopped, hv, hs', hcount, hkeep, hstop, hgo⟩ :=
        visit_spec endIndex hg x.neighbors h hq₁ hcur
          fun i hi => (h.edge_iff hx).mpr hi
      rw [search, hdeq]
      dsimp only
      rw [hx]
      dsimp only
      rw [hv]
      cases stopped with
      | true => exact ⟨g', cur :: l', rfl, hs', Or.inr (hstop rfl)⟩
      | false =>
        obtain ⟨hq', hall⟩ := hgo rfl
        have hleave := hs'.search.leave (hkeep _ _ hcur)
          fun v hv => hall v ((h.edge_iff hx).mp hv)
        refine ih { hs' with search := hleave } hq' ?_
        rw [List.length_cons] at hfuel
        omega

/-- The whole search, after the root was set up. -/
theorem shortestPath_spec (withParent : Bool) (endIndex : ℕ) (hg : g₀.WellFormed)
    (hunset : ∀ x ∈ g₀.vertices, x.distance = Vertex.noDistance) (hr : root < g₀.size)
    (next value : ℕ → ℕ) {fuel : ℕ} (hfuel : g₀.size < fuel) :
    ∃ g l, shortestPath withParent root endIndex fuel g₀ (.new next value) = some (.ok g) ∧
      Searching withParent root g₀ g l ∧ (l = [] ∨ ∃ d, g.dist endIndex = some d) := by
  obtain ⟨g, hset, hfound, hs⟩ := Searching.start withParent hg hunset hr
  have hq : ((SingleList.new next value).enqueue root).Holds [root] :=
    (SingleList.new_holds next value).enqueue root
  obtain ⟨g', l, hsearch, hs', hend⟩ := search_spec endIndex hg fuel hs hq
    (by rw [hfound, List.length_singleton]; omega)
  refine ⟨g', l, ?_, hs', hend⟩
  rw [shortestPath, hset]
  cases withParent with
  | true => exact hsearch
  | false => exact hsearch

end Search

/-! ### The parents are not read -/

def Vertex.strip (x : Vertex) : Vertex := { x with parent := Vertex.noParent }

/-- The graph without its parents. -/
def Graph.strip (g : Graph) : Graph := { g with vertices := g.vertices.map Vertex.strip }

section Strip

variable {withParent : Bool} {root endIndex : ℕ} {g : Graph}

theorem Graph.strip_getElem? (g : Graph) (v : ℕ) :
    g.strip.vertices[v]? = g.vertices[v]?.map Vertex.strip := List.getElem?_map ..

theorem Graph.strip_set (g : Graph) (v : ℕ) (x : Vertex) :
    (g.set v x).strip = g.strip.set v x.strip := by
  rw [Graph.strip, Graph.set, Graph.set, Graph.strip, List.map_set]

theorem visit_strip (withParent : Bool) (endIndex cur : ℕ) : ∀ (ns : List ℕ) (g : Graph)
    (q : SingleList ℕ), (visit withParent endIndex cur ns g q).map
      (fun r => (r.1.strip, r.2.1, r.2.2)) = visit false endIndex cur ns g.strip q := by
  intro ns
  induction ns with
  | nil =>
    intro g q
    rfl
  | cons i ns ih =>
    intro g q
    rw [visit, visit, Graph.strip_getElem?, Graph.strip_getElem?]
    cases hi : g.vertices[i]? with
    | none => rfl
    | some y =>
      cases hc : g.vertices[cur]? with
      | none => rfl
      | some x =>
        dsimp only [Option.map_some]
        by_cases hy : y.distance = Vertex.noDistance
        · rw [if_pos hy, if_pos (show y.strip.distance = _ from hy)]
          by_cases he : i = endIndex
          · rw [if_pos he, if_pos he]
            show Except.ok ((g.set i _).strip, q, true) = Except.ok _
            rw [Graph.strip_set]
            rfl
          · rw [if_neg he, if_neg he, ih, Graph.strip_set]
            rfl
        · rw [if_neg hy, if_neg (show ¬ y.strip.distance = _ from hy), ih]

theorem search_strip (withParent : Bool) (endIndex : ℕ) : ∀ (fuel : ℕ) (g : Graph)
    (q : SingleList ℕ), (search withParent endIndex fuel g q).map (Except.map Graph.strip) =
      search false endIndex fuel g.strip q := by
  intro fuel
  induction fuel with
  | zero =>
    intro g q
    rfl
  | succ fuel ih =>
    intro g q
    rw [search, search]
    rcases q.dequeue with ⟨_ | cur, q₁⟩
    · rfl
    · dsimp only
      rw [Graph.strip_getElem?]
      cases hc : g.vertices[cur]? with
      | none => rfl
      | some x =>
        dsimp only [Option.map_some]
        have hv := visit_strip withParent endIndex cur x.neighbors g q₁
        rw [show x.strip.neighbors = x.neighbors from rfl, ← hv]
        rcases visit withParent endIndex cur x.neighbors g q₁ with e | ⟨g', q', _ | _⟩
        · rfl
        · exact ih g' q'
        · rfl

/-- Both searches do the same but for the parents. -/
theorem shortestPath_strip (withParent : Bool) (root endIndex fuel : ℕ) (g : Graph)
    (q : SingleList ℕ) :
    (shortestPath withParent root endIndex fuel g q).map (Except.map Graph.strip) =
      (shortestPath false root endIndex fuel g q).map (Except.map Graph.strip) := by
  have hall : ∀ (b : Bool) g, ((if b then analyze endIndex fuel g (q.enqueue root)
      else performance endIndex fuel g (q.enqueue root)).map (Except.map Graph.strip)) =
        search false endIndex fuel (Graph.strip g) (q.enqueue root) := by
    intro b g
    cases b with
    | true => exact search_strip true endIndex fuel g _
    | false => exact search_strip false endIndex fuel g _
  rw [shortestPath, shortestPath]
  cases g.setRoot root with
  | error e => rfl
  | ok g => exact (hall withParent g).trans (hall false g).symm

end Strip

/-! ### The result -/

/-- The distances that are set are exact, and that of the end vertex is set if it can be
reached. -/
structure Distances (g₀ : Graph) (root endIndex : ℕ) (g : Graph) : Prop where
  exact : ∀ v x, g.vertices[v]? = some x → x.distance ≠ Vertex.noDistance →
    IsDistance g₀.Edge root v x.distance
  atEnd : ∃ x, g.vertices[endIndex]? = some x ∧
    (x.distance < Vertex.noDistance ∧ IsDistance g₀.Edge root endIndex x.distance ∨
      x.distance = Vertex.noDistance ∧ ∀ k, ¬ Steps g₀.Edge root endIndex k)

/-- Every vertex with a distance, other than the root, has a parent that has an edge to it and
whose distance is one less. -/
def Parents (g₀ : Graph) (root : ℕ) (g : Graph) : Prop :=
  ∀ v x, v ≠ root → g.vertices[v]? = some x → x.distance ≠ Vertex.noDistance →
    g₀.Edge x.parent v ∧ ∃ y, g.vertices[x.parent]? = some y ∧ x.distance = y.distance + 1

theorem Searching.distances {withParent : Bool} {root endIndex : ℕ} {g₀ g : Graph} {l : List ℕ}
    (hg : g₀.WellFormed) (h : Searching withParent root g₀ g l) (he : endIndex < g₀.size)
    (hl : l = [] ∨ ∃ d, g.dist endIndex = some d) : Distances g₀ root endIndex g := by
  have hexact : ∀ v x, g.vertices[v]? = some x → x.distance ≠ Vertex.noDistance →
      IsDistance g₀.Edge root v x.distance := by
    intro v x hv hx
    exact h.search.exact ((Graph.dist_of_get hv).trans (if_neg hx))
  have hlt : endIndex < g.vertices.length := by
    rw [h.length, hg.length]
    exact he
  have hx : g.vertices[endIndex]? = some g.vertices[endIndex] := List.getElem?_eq_getElem hlt
  generalize g.vertices[endIndex] = x at hx
  refine ⟨hexact, x, hx, ?_⟩
  by_cases hd : x.distance = Vertex.noDistance
  · have hnone : g.dist endIndex = none := (Graph.dist_of_get hx).trans (if_pos hd)
    rcases hl with rfl | ⟨d, hsome⟩
    · exact Or.inr ⟨hd, fun k => h.search.complete hnone⟩
    · rw [hnone] at hsome
      cases hsome
  · refine Or.inl ⟨?_, hexact endIndex x hx hd⟩
    have h1 := h.few endIndex _ ((Graph.dist_of_get hx).trans (if_neg hd))
    have h2 := h.length ▸ g.found_le
    have h3 := hg.length ▸ hg.lt
    rw [Vertex.noDistance]
    omega

theorem Searching.parents {root : ℕ} {g₀ g : Graph} {l : List ℕ}
    (h : Searching true root g₀ g l) : Parents g₀ root g := by
  intro v x hv hx hd
  obtain ⟨he, d, hp, hxd⟩ := h.parent rfl v x hv hx hd
  obtain ⟨y, hy, rfl, -⟩ := Graph.dist_eq_some.mp hp
  exact ⟨he, y, hy, hxd⟩

/-- **Both searches return exact distances**, and the same ones; `analyze` stores the parents
on shortest paths. -/
theorem shortestPath_exact (g₀ : Graph) (hg : g₀.WellFormed)
    (hunset : ∀ x ∈ g₀.vertices, x.distance = Vertex.noDistance) (root endIndex : ℕ)
    (hr : root < g₀.size) (he : endIndex < g₀.size) (next value : ℕ → ℕ) (fuel : ℕ)
    (hfuel : g₀.size < fuel) :
    ∃ analyzed performed,
      shortestPath true root endIndex fuel g₀ (.new next value) = some (.ok analyzed) ∧
      shortestPath false root endIndex fuel g₀ (.new next value) = some (.ok performed) ∧
      analyzed.vertices.map Vertex.distance = performed.vertices.map Vertex.distance ∧
      Distances g₀ root endIndex analyzed ∧ Distances g₀ root endIndex performed ∧
      Parents g₀ root analyzed := by
  obtain ⟨ga, la, ha, hsa, hla⟩ :=
    shortestPath_spec true endIndex hg hunset hr next value hfuel
  obtain ⟨gp, lp, hp, hsp, hlp⟩ :=
    shortestPath_spec false endIndex hg hunset hr next value hfuel
  have hsame : ga.strip = gp.strip := by
    have h := shortestPath_strip true root endIndex fuel g₀ (.new next value)
    rw [ha, hp] at h
    exact Except.ok.inj (Option.some.inj h)
  have hdistance : ∀ g : Graph,
      g.strip.vertices.map Vertex.distance = g.vertices.map Vertex.distance :=
    fun g => List.map_map
  refine ⟨ga, gp, ha, hp, ?_, hsa.distances hg he hla, hsp.distances hg he hlp, hsa.parents⟩
  rw [← hdistance ga, hsame, hdistance gp]

/-- A graph with an edge from its first vertex to its second. -/
def twoVertices : Graph :=
  ⟨2, [{ Vertex.new with neighbors := [1] }, .new]⟩

theorem twoVertices_wellFormed : twoVertices.WellFormed := by
  refine ⟨rfl, by decide, fun {u v} h => ?_⟩
  obtain ⟨ns, hu, hv⟩ := h
  have hns : ns = [1] ∨ ns = [] := by
    rcases u with _ | _ | u
    · exact Or.inl (Option.some.inj hu).symm
    · exact Or.inr (Option.some.inj hu).symm
    · cases hu
  rcases hns with rfl | rfl
  · rw [List.mem_singleton.mp hv]
    decide
  · cases hv

theorem shortestPath_exact_twoVertices : ∃ analyzed performed,
    shortestPath true 0 1 3 twoVertices (.new id id) = some (.ok analyzed) ∧
      shortestPath false 0 1 3 twoVertices (.new id id) = some (.ok performed) ∧
      analyzed.vertices.map Vertex.distance = performed.vertices.map Vertex.distance ∧
      Distances twoVertices 0 1 analyzed ∧ Distances twoVertices 0 1 performed ∧
      Parents twoVertices 0 analyzed :=
  shortestPath_exact twoVertices twoVertices_wellFormed (by decide) 0 1 (by decide) (by decide)
    id id 3 (by decide)

end Bfs

/-
The breadth-first search of the benchmark (`benchmark/bfs/bfs_sequential.cc`).

`cur_vertex` is a reference to the vertex of the root, so that every assignment to it copies
the vertex that was dequeued over that of the root.  The same loops are in
`benchmark/bfs/bfs_analyzer.cc`, which counts on the way; what it does then is a `Counter`.

* `Copied` — the invariant: but for the root's vertex, which is a copy, the graph is that of a
  search that has no such reference;
* `followEdges_spec`, `dequeueAll_spec` — what the loops make of it, and of the counter;
* `bfsSequential_exact_iff` — when the result is what it should be.
-/
import Scal.ShortestPathDistance

open BreadthFirst

namespace Bfs

/-! ### The program -/

/-- What a search does, beside the search, with the distance of a vertex that it dequeued,
and when it has discovered a vertex. -/
structure Counter (σ : Type) where
  dequeued : ℕ → σ → σ
  discovered : σ → Except Failure σ

variable {σ : Type}

/-- The loop over the neighbors of `cur_vertex`, which is the vertex of the root. -/
def followEdges (c : Counter σ) (rootIndex : ℕ) :
    List ℕ → Graph → SingleList ℕ → σ → Except Failure (Graph × SingleList ℕ × σ)
  | [], g, q, s => .ok (g, q, s)
  | i :: neighbors, g, q, s =>
    match g.vertices[i]?, g.vertices[rootIndex]? with
    | some neighbor, some curVertex =>
      if neighbor.distance = Vertex.noDistance then
        let g := g.set i { neighbor with distance := (curVertex.distance + 1) % wordSize }
        match c.discovered s with
        | .error e => .error e
        | .ok s => followEdges c rootIndex neighbors g (q.enqueue i) s
      else followEdges c rootIndex neighbors g q s
    | _, _ => .error .outOfBounds

/-- The main loop. -/
def dequeueAll (c : Counter σ) (rootIndex : ℕ) :
    ℕ → Graph → SingleList ℕ → σ → Option (Except Failure (Graph × σ))
  | 0, _, _, _ => none
  | fuel + 1, g, q, s =>
    match q.dequeue with
    | (none, _) => some (.ok (g, s))
    | (some vertexIndex, q) =>
      match g.vertices[vertexIndex]? with
      | none => some (.error .outOfBounds)
      | some vertex =>
        -- the assignment to `cur_vertex`
        let g := g.set rootIndex vertex
        match followEdges c rootIndex vertex.neighbors g q (c.dequeued vertex.distance s) with
        | .error e => some (.error e)
        | .ok (g, q, s) => dequeueAll c rootIndex fuel g q s

/-- `main` from the first use of the root on; `q` is the list just constructed. -/
def searchFrom (c : Counter σ) (rootIndex fuel : ℕ) (g : Graph) (q : SingleList ℕ) (s : σ) :
    Option (Except Failure (Graph × σ)) :=
  match g.vertices[rootIndex]? with
  | none => some (.error .outOfBounds)
  | some curVertex =>
    match c.discovered s with
    | .error e => some (.error e)
    | .ok s =>
      dequeueAll c rootIndex fuel (g.set rootIndex { curVertex with distance := 0 })
        (q.enqueue rootIndex) s

/-- `bfs_sequential` does nothing beside the search. -/
def noCounter : Counter Unit := ⟨fun _ s => s, fun s => .ok s⟩

def bfsSequential (rootIndex fuel : ℕ) (g : Graph) (q : SingleList ℕ) :
    Option (Except Failure Graph) :=
  (searchFrom noCounter rootIndex fuel g q ()).map (Except.map Prod.fst)

/-! ### The invariant -/

/-- The vertex of the root is a copy of the one dequeued last, which is `x`; with its own
vertex in this place, the graph would be `h`. -/
structure Copied (root : ℕ) (g₀ g h : Graph) (x : Vertex) (queue : List ℕ) : Prop where
  copy : g = h.set root x
  searching : Searching false root g₀ h queue
  /-- Some vertex has these distance and neighbors. -/
  last : ∃ u, h.dist u = some x.distance ∧
    (g₀.vertices.map Vertex.neighbors)[u]? = some x.neighbors
  latest : ∀ v d, h.dist v = some d → v ∉ queue → d ≤ x.distance
  ahead : ∀ v ∈ queue, ∀ d, h.dist v = some d → x.distance ≤ d
  own : root ∈ queue → h.dist root = some x.distance ∧
    (g₀.vertices.map Vertex.neighbors)[root]? = some x.neighbors

section Copied

variable {root cur i : ℕ} {g₀ g h : Graph} {x : Vertex} {queue l : List ℕ}

theorem Graph.set_set (h : Graph) (root : ℕ) (x y : Vertex) :
    (h.set root x).set root y = h.set root y := by
  rw [Graph.set, Graph.set, Graph.set, List.set_set]

theorem Graph.set_comm (h : Graph) {i root : ℕ} (hi : i ≠ root) (x z : Vertex) :
    (h.set root x).set i z = (h.set i z).set root x := by
  show (⟨h.numVertices, (h.vertices.set root x).set i z⟩ : Graph) =
    ⟨h.numVertices, (h.vertices.set i z).set root x⟩
  rw [List.set_comm _ _ (Ne.symm hi)]

theorem Copied.lt (hc : Copied root g₀ g h x queue) : root < h.vertices.length := by
  obtain ⟨r, hr, -⟩ := Graph.dist_eq_some.mp hc.searching.search.atRoot
  exact (List.getElem?_eq_some_iff.mp hr).1

theorem Copied.getElem? (hc : Copied root g₀ g h x queue) (v : ℕ) :
    g.vertices[v]? = if v = root then some x else h.vertices[v]? := by
  rw [hc.copy, Graph.getElem?_set hc.lt]

theorem Copied.ne_noDistance (hc : Copied root g₀ g h x queue) :
    x.distance ≠ Vertex.noDistance := by
  obtain ⟨u, hu, -⟩ := hc.last
  obtain ⟨_, -, -, hne⟩ := Graph.dist_eq_some.mp hu
  exact hne

/-- Only the root is at distance zero. -/
theorem Copied.eq_root (hc : Copied root g₀ g h x queue) {u : ℕ} (hu : h.dist u = some 0) :
    u = root := by
  cases hc.searching.search.sound hu with
  | refl => rfl

/-- What the list of neighbors of a vertex of `h` is. -/
theorem Searching.neighbors_of_get (hs : Searching false root g₀ h queue) {y : Vertex} {u : ℕ}
    (hu : h.vertices[u]? = some y) :
    (g₀.vertices.map Vertex.neighbors)[u]? = some y.neighbors := by
  rw [← hs.neighbors, List.getElem?_map, hu]
  rfl

/-- The first vertex of the queue is copied. -/
theorem Copied.assign (hc : Copied root g₀ g h x (cur :: l)) :
    ∃ y, g.vertices[cur]? = some y ∧ h.dist cur = some y.distance ∧
      (g₀.vertices.map Vertex.neighbors)[cur]? = some y.neighbors ∧
      Copied root g₀ (g.set root y) h y (cur :: l) := by
  have hcopy : ∀ y, g.set root y = h.set root y := by
    intro y
    rw [hc.copy, Graph.set_set]
  by_cases hcur : cur = root
  · -- this can only be the first round, where the root still has its own vertex
    subst hcur
    obtain ⟨hd, hn⟩ := hc.own List.mem_cons_self
    refine ⟨x, ?_, hd, hn, hcopy x, hc.searching, hc.last, hc.latest, hc.ahead, hc.own⟩
    rw [hc.getElem?, if_pos rfl]
  · obtain ⟨d, hd⟩ := hc.searching.search.queued cur List.mem_cons_self
    obtain ⟨y, hy, rfl, hne⟩ := Graph.dist_eq_some.mp hd
    have hn := hc.searching.neighbors_of_get hy
    refine ⟨y, ?_, hd, hn, hcopy y, hc.searching, ⟨cur, hd, hn⟩, fun v d hv hvq => ?_,
      fun v hv d hvd => ?_, fun hroot => ?_⟩
    · rw [hc.getElem?, if_neg hcur, hy]
    · exact (hc.latest v d hv hvq).trans (hc.ahead cur List.mem_cons_self _ hd)
    · rcases List.mem_cons.mp hv with rfl | hv
      · exact (Option.some.inj (hd.symm.trans hvd)).le
      · exact (List.pairwise_cons.mp hc.searching.search.sorted).1 v hv _ _ hd hvd
    · -- the root would come before this vertex
      have hle : y.distance ≤ 0 :=
        (List.pairwise_cons.mp hc.searching.search.sorted).1 root
          ((List.mem_cons.mp hroot).resolve_left (Ne.symm hcur)) _ _ hd
          hc.searching.search.atRoot
      rw [Nat.le_zero.mp hle] at hd
      exact absurd (hc.eq_root hd) hcur

/-- Before the first vertex is dequeued. -/
theorem Copied.start (hg : g₀.WellFormed)
    (hunset : ∀ y ∈ g₀.vertices, y.distance = Vertex.noDistance) (hr : root < g₀.size) :
    ∃ r h, g₀.vertices[root]? = some r ∧ h.found = 1 ∧
      h.dist = Function.update (fun _ => none) root (some 0) ∧
      Copied root g₀ (g₀.set root { r with distance := 0 }) h { r with distance := 0 } [root] := by
  have hlt : root < g₀.vertices.length := hg.length ▸ hr
  obtain ⟨h, hset, hfound, hs⟩ := Searching.start false hg hunset hr
  have hget : g₀.vertices[root]? = some g₀.vertices[root] := List.getElem?_eq_getElem hlt
  generalize g₀.vertices[root] = r at hget
  rw [Graph.setRoot, hget, Except.ok.injEq] at hset
  have hn : (g₀.vertices.map Vertex.neighbors)[root]? = some r.neighbors := by
    rw [List.getElem?_map, hget]
    rfl
  have hroot : h.dist root = some 0 := hs.search.atRoot
  have hdist : h.dist = Function.update (fun _ => none) root (some 0) := by
    funext v
    by_cases hv : v = root
    · rw [hv, hroot, Function.update_self]
    · rw [Function.update_of_ne hv, Graph.dist, ← hset, Graph.getElem?_set hlt, if_neg hv]
      rcases hy : g₀.vertices[v]? with _ | y
      · rfl
      · have hunset := hunset y (List.mem_of_getElem? hy)
        simp [hunset]
  refine ⟨r, h, hget, hfound, hdist, ?_, hs, ⟨root, hroot, hn⟩, fun v d hv hvq => ?_,
    fun v _ d _ => Nat.zero_le d, fun _ => ⟨hroot, hn⟩⟩
  · rw [← hset, Graph.set_set]
  · rw [hdist, Function.update_of_ne fun hv => hvq (List.mem_singleton.mpr hv)] at hv
    cases hv

/-- A vertex is discovered from the one that was copied. -/
theorem Copied.discover (hg : g₀.WellFormed) (hc : Copied root g₀ g h x (cur :: l))
    (hcur : h.dist cur = some x.distance) (he : g₀.Edge cur i) {y : Vertex}
    (hi : g.vertices[i]? = some y) (hy : y.distance = Vertex.noDistance) :
    ∃ h', Copied root g₀ (g.set i { y with distance := (x.distance + 1) % wordSize }) h' x
        (cur :: (l ++ [i])) ∧
      h'.found = h.found + 1 ∧ h.dist i = none ∧
      h'.dist = Function.update h.dist i (some (x.distance + 1)) := by
  have hir : i ≠ root := by
    rintro rfl
    rw [hc.getElem?, if_pos rfl] at hi
    cases hi
    exact hc.ne_noDistance hy
  rw [hc.getElem?, if_neg hir] at hi
  have hfree : h.dist i = none := (Graph.dist_of_get hi).trans (if_pos hy)
  have hlt : i < h.vertices.length := (List.getElem?_eq_some_iff.mp hi).1
  obtain ⟨z, hz, hzd, hne⟩ := Graph.dist_eq_some.mp hcur
  set w : Vertex := { y with distance := (x.distance + 1) % wordSize } with hw
  have hwd : w.distance = (z.distance + 1) % wordSize := by
    rw [hzd]
  obtain ⟨hs, hfound, hdist⟩ := hc.searching.discover (z := w) hg hz (hzd ▸ hne) he hi hy rfl hwd
    fun h => (by cases h)
  rw [hzd] at hdist
  have hold : ∀ v, v ≠ i → (h.set i w).dist v = h.dist v := by
    intro v hv
    rw [hdist, Function.update_of_ne hv]
  have hne : ∀ {v d}, h.dist v = some d → v ≠ i := by
    rintro v d hv rfl
    rw [hfree] at hv
    cases hv
  refine ⟨h.set i w, ⟨?_, hs, ?_, fun v d hv hvq => ?_, fun v hv d hvd => ?_, fun hroot => ?_⟩,
    hfound, hfree, hdist⟩
  · rw [hc.copy, Graph.set_comm h hir]
  · obtain ⟨u, hu, hn⟩ := hc.last
    exact ⟨u, (hold u (hne hu)).trans hu, hn⟩
  · have hvi : v ≠ i := by
      rintro rfl
      exact hvq (by simp)
    rw [hold v hvi] at hv
    refine hc.latest v d hv fun hmem => hvq ?_
    rw [← List.cons_append]
    exact List.mem_append_left _ hmem
  · by_cases hvi : v = i
    · rw [hdist, hvi, Function.update_self, Option.some.injEq] at hvd
      omega
    · rw [← List.cons_append, List.mem_append, List.mem_singleton] at hv
      exact hc.ahead v (hv.resolve_right hvi) d (hold v hvi ▸ hvd)
  · rw [← List.cons_append, List.mem_append, List.mem_singleton] at hroot
    obtain ⟨hd, hn⟩ := hc.own (hroot.resolve_right (Ne.symm hir))
    exact ⟨(hold root (Ne.symm hir)).trans hd, hn⟩

/-- The edges of the vertex that was copied are followed. -/
theorem Copied.leave (hc : Copied root g₀ g h x (cur :: l)) (hcur : h.dist cur = some x.distance)
    (hall : ∀ v, g₀.Edge cur v → ∃ d, h.dist v = some d) : Copied root g₀ g h x l := by
  refine ⟨hc.copy, ⟨hc.searching.neighbors, hc.searching.numVertices,
    hc.searching.search.leave hcur hall, hc.searching.few, hc.searching.untouched,
    hc.searching.rootParent, hc.searching.parent⟩, hc.last, fun v d hv hvl => ?_,
    fun v hv => hc.ahead v (List.mem_cons_of_mem _ hv),
    fun hroot => hc.own (List.mem_cons_of_mem _ hroot)⟩
  by_cases hvc : v = cur
  · subst hvc
    exact (Option.some.inj (hv.symm.trans hcur)).le
  · exact hc.latest v d hv fun hmem => (List.mem_cons.mp hmem).elim hvc hvl

end Copied

/-! ### The loops -/

/-- What a counter keeps: `I` between two rounds of the main loop, and `J d` while the edges of
a vertex at distance `d` are followed; `Bad` holds if it fails. -/
structure Counter.Keeps (c : Counter σ) (E : ℕ → ℕ → Prop) (root : ℕ)
    (I : (ℕ → Option ℕ) → List ℕ → σ → Prop) (J : ℕ → (ℕ → Option ℕ) → List ℕ → σ → Prop)
    (Bad : Prop) : Prop where
  dequeued : ∀ {dist u q d s}, Search E root dist (u :: q) → dist u = some d →
    I dist (u :: q) s → J d dist (u :: q) (c.dequeued d s)
  discovered : ∀ {dist queue v d s},
    Search E root (Function.update dist v (some (d + 1))) (queue ++ [v]) → dist v = none →
    J d dist queue s →
    (∃ s', c.discovered s = .ok s' ∧
      J d (Function.update dist v (some (d + 1))) (queue ++ [v]) s') ∨
      ∃ e, c.discovered s = .error e ∧ Bad
  leave : ∀ {dist u q d s}, Search E root dist (u :: q) → dist u = some d →
    J d dist (u :: q) s → I dist q s

section Loops

variable {c : Counter σ} {root cur : ℕ} {g₀ : Graph} {I : (ℕ → Option ℕ) → List ℕ → σ → Prop}
  {J : ℕ → (ℕ → Option ℕ) → List ℕ → σ → Prop} {Bad : Prop}

theorem followEdges_spec (hg : g₀.WellFormed) (hk : c.Keeps g₀.Edge root I J Bad) {x : Vertex} :
    ∀ (ns : List ℕ) {g h : Graph} {q : SingleList ℕ} {l : List ℕ} {s : σ},
      Copied root g₀ g h x (cur :: l) → q.Holds l → h.dist cur = some x.distance →
      (∀ i ∈ ns, g₀.Edge cur i) → J x.distance h.dist (cur :: l) s →
      (∃ e, followEdges c root ns g q s = .error e ∧ Bad) ∨
      ∃ g' h' q' l' s', followEdges c root ns g q s = .ok (g', q', s') ∧
        Copied root g₀ g' h' x (cur :: l') ∧ q'.Holds l' ∧
        h'.found + l.length = h.found + l'.length ∧
        (∀ v d, h.dist v = some d → h'.dist v = some d) ∧
        (∀ i ∈ ns, ∃ d, h'.dist i = some d) ∧ J x.distance h'.dist (cur :: l') s' := by
  intro ns
  induction ns with
  | nil =>
    intro g h q l s hc hq _ _ hJ
    exact Or.inr ⟨g, h, q, l, s, rfl, hc, hq, rfl, fun _ _ => id,
      fun i hi => (by cases hi), hJ⟩
  | cons i ns ih =>
    intro g h q l s hc hq hcur hns hJ
    have he : g₀.Edge cur i := hns i List.mem_cons_self
    have hlt : i < h.vertices.length := by
      rw [hc.searching.length, hg.length]
      exact hg.below he
    obtain ⟨y, hi⟩ : ∃ y, g.vertices[i]? = some y := by
      rw [hc.getElem?]
      by_cases hir : i = root
      · exact ⟨x, if_pos hir⟩
      · exact ⟨_, (if_neg hir).trans (List.getElem?_eq_getElem hlt)⟩
    have hx : g.vertices[root]? = some x := (hc.getElem? root).trans (if_pos rfl)
    have hrest : ∀ j ∈ ns, g₀.Edge cur j := fun j hj => hns j (List.mem_cons_of_mem _ hj)
    rw [followEdges, hi, hx]
    dsimp only
    by_cases hy : y.distance = Vertex.noDistance
    · rw [if_pos hy]
      obtain ⟨h₁, hc₁, hfound, hfree, hdist⟩ := hc.discover hg hcur he hi hy
      generalize g.set i { y with distance := (x.distance + 1) % wordSize } = g₁ at hc₁
      have hold : ∀ v d, h.dist v = some d → h₁.dist v = some d := by
        rintro v d hv
        rw [hdist, Function.update_of_ne]
        · exact hv
        · rintro rfl
          rw [hfree] at hv
          cases hv
      have hsearch := hc₁.searching.search
      rw [hdist, ← List.cons_append] at hsearch
      rcases hk.discovered hsearch hfree hJ with ⟨s₁, hs₁, hJ₁⟩ | ⟨e, hs₁, hbad⟩
      · rw [hs₁]
        rw [← hdist] at hJ₁
        rcases ih hc₁ (hq.enqueue i) (hold _ _ hcur) hrest hJ₁ with
          hfail | ⟨g', h', q', l', s', hf, hc', hq', hcount, hkeep, hall, hJ'⟩
        · exact Or.inl hfail
        · refine Or.inr ⟨g', h', q', l', s', hf, hc', hq', ?_,
            fun v d hv => hkeep v d (hold v d hv), fun j hj => ?_, hJ'⟩
          · rw [hfound, List.length_append, List.length_singleton] at hcount
            omega
          · rcases List.mem_cons.mp hj with rfl | hj
            · refine ⟨x.distance + 1, hkeep _ _ ?_⟩
              rw [hdist, Function.update_self]
            · exact hall j hj
      · rw [hs₁]
        exact Or.inl ⟨e, rfl, hbad⟩
    · rw [if_neg hy]
      -- the vertex has a distance, also where it is the copy in the place of the root
      have hsome : ∃ d, h.dist i = some d := by
        by_cases hir : i = root
        · exact ⟨0, hir ▸ hc.searching.search.atRoot⟩
        · rw [hc.getElem?, if_neg hir] at hi
          exact ⟨_, (Graph.dist_of_get hi).trans (if_neg hy)⟩
      rcases ih hc hq hcur hrest hJ with
        hfail | ⟨g', h', q', l', s', hf, hc', hq', hcount, hkeep, hall, hJ'⟩
      · exact Or.inl hfail
      · refine Or.inr ⟨g', h', q', l', s', hf, hc', hq', hcount, hkeep, fun j hj => ?_, hJ'⟩
        rcases List.mem_cons.mp hj with rfl | hj
        · obtain ⟨d, hd⟩ := hsome
          exact ⟨d, hkeep _ _ hd⟩
        · exact hall j hj

/-- The search ends with an empty queue, if the counter does not fail. -/
theorem dequeueAll_spec (hg : g₀.WellFormed) (hk : c.Keeps g₀.Edge root I J Bad) :
    ∀ (fuel : ℕ) {g h : Graph} {x : Vertex} {q : SingleList ℕ} {l : List ℕ} {s : σ},
      Copied root g₀ g h x l → q.Holds l → I h.dist l s →
      g₀.size + l.length < fuel + h.found →
      (∃ e, dequeueAll c root fuel g q s = some (.error e) ∧ Bad) ∨
      ∃ g' h' x' s', dequeueAll c root fuel g q s = some (.ok (g', s')) ∧
        Copied root g₀ g' h' x' [] ∧ I h'.dist [] s' := by
  intro fuel
  induction fuel with
  | zero =>
    intro g h x q l s hc _ _ hfuel
    have h1 := h.found_le
    have h2 := hc.searching.length
    have h3 := hg.length
    rw [Graph.size] at hfuel
    omega
  | succ fuel ih =>
    intro g h x q l s hc hq hI hfuel
    cases l with
    | nil =>
      refine Or.inr ⟨g, h, x, s, ?_, hc, hI⟩
      rw [dequeueAll, hq.dequeue_nil]
    | cons cur l =>
      obtain ⟨q₁, hdeq, hq₁⟩ := hq.dequeue_cons
      obtain ⟨y, hy, hcur, hn, hc₁⟩ := hc.assign
      have hedge : ∀ i, g₀.Edge cur i ↔ i ∈ y.neighbors := by
        intro i
        rw [Graph.Edge, hn]
        constructor
        · rintro ⟨ns, hns, hi⟩
          cases hns
          exact hi
        · intro hi
          exact ⟨_, rfl, hi⟩
      have hJ := hk.dequeued hc.searching.search hcur hI
      rw [dequeueAll, hdeq]
      dsimp only
      rw [hy]
      dsimp only
      rcases followEdges_spec hg hk y.neighbors hc₁ hq₁ hcur (fun i hi => (hedge i).mpr hi) hJ with
        ⟨e, hf, hbad⟩ | ⟨g', h', q', l', s', hf, hc', hq', hcount, hkeep, hall, hJ'⟩
      · rw [hf]
        exact Or.inl ⟨e, rfl, hbad⟩
      · rw [hf]
        have hcur' := hkeep _ _ hcur
        have hc'' := hc'.leave hcur' fun v hv => hall v ((hedge v).mp hv)
        refine ih hc'' hq' (hk.leave hc'.searching.search hcur' hJ') ?_
        rw [List.length_cons] at hfuel
        omega

/-- The whole search, where `s` is what the counter starts with. -/
theorem searchFrom_spec (hg : g₀.WellFormed)
    (hunset : ∀ y ∈ g₀.vertices, y.distance = Vertex.noDistance) (hr : root < g₀.size)
    (hk : c.Keeps g₀.Edge root I J Bad) {s s₁ : σ} (hs : c.discovered s = .ok s₁)
    (hI : I (Function.update (fun _ => none) root (some 0)) [root] s₁) (next value : ℕ → ℕ)
    {fuel : ℕ} (hfuel : g₀.size < fuel) :
    (∃ e, searchFrom c root fuel g₀ (.new next value) s = some (.error e) ∧ Bad) ∨
    ∃ g h x s', searchFrom c root fuel g₀ (.new next value) s = some (.ok (g, s')) ∧
      Copied root g₀ g h x [] ∧ I h.dist [] s' := by
  obtain ⟨r, h, hget, hfound, hdist, hc⟩ := Copied.start hg hunset hr
  rw [searchFrom, hget]
  dsimp only
  rw [hs]
  refine dequeueAll_spec hg hk fuel hc ((SingleList.new_holds next value).enqueue root)
    (hdist ▸ hI) ?_
  rw [hfound, List.length_singleton]
  omega

end Loops

/-! ### The result -/

/-- All distances are those of shortest paths, and the neighbors are the same as before. -/
structure Exact (g₀ : Graph) (root : ℕ) (g : Graph) : Prop where
  distances : ∀ v x, g.vertices[v]? = some x →
    x.distance ≠ Vertex.noDistance ∧ IsDistance g₀.Edge root v x.distance ∨
      x.distance = Vertex.noDistance ∧ ∀ k, ¬ Steps g₀.Edge root v k
  neighbors : g.vertices.map Vertex.neighbors = g₀.vertices.map Vertex.neighbors

section Result

variable {root : ℕ} {g₀ g h : Graph} {x : Vertex}

/-- The distances are exact but for that of the root. -/
theorem Copied.distances (hc : Copied root g₀ g h x []) {v : ℕ} (hv : v ≠ root) {y : Vertex}
    (hy : g.vertices[v]? = some y) :
    y.distance ≠ Vertex.noDistance ∧ IsDistance g₀.Edge root v y.distance ∨
      y.distance = Vertex.noDistance ∧ ∀ k, ¬ Steps g₀.Edge root v k := by
  rw [hc.getElem?, if_neg hv] at hy
  by_cases hd : y.distance = Vertex.noDistance
  · have hnone : h.dist v = none := (Graph.dist_of_get hy).trans (if_pos hd)
    exact Or.inr ⟨hd, fun k => hc.searching.search.complete hnone⟩
  · exact Or.inl ⟨hd, hc.searching.search.exact ((Graph.dist_of_get hy).trans (if_neg hd))⟩

/-- If no other vertex is reached, the copy is that of the root itself. -/
theorem Copied.exact (hc : Copied root g₀ g h x []) (hno : ∀ v, g₀.Edge root v → v = root) :
    Exact g₀ root g := by
  have honly : ∀ {v k}, Steps g₀.Edge root v k → v = root := by
    intro v k hk
    induction hk with
    | refl => rfl
    | tail _ he ih => exact hno _ (ih ▸ he)
  obtain ⟨u, hu, hn⟩ := hc.last
  obtain rfl := honly (hc.searching.search.sound hu)
  have hx : x.distance = 0 :=
    Option.some.inj (hu.symm.trans hc.searching.search.atRoot)
  refine ⟨fun v y hy => ?_, ?_⟩
  · by_cases hv : v = u
    · subst hv
      rw [hc.getElem?, if_pos rfl] at hy
      cases hy
      exact Or.inl ⟨hc.ne_noDistance, hx ▸ ⟨.refl, fun k _ => Nat.zero_le k⟩⟩
    · exact hc.distances hv hy
  · obtain ⟨r, hr, -⟩ := Graph.dist_eq_some.mp hc.searching.search.atRoot
    rw [hc.copy, Graph.neighbors_set hr, hc.searching.neighbors]
    exact Option.some.inj (hn.symm.trans (hc.searching.neighbors_of_get hr))

/-- Otherwise the root ends with the distance of another vertex. -/
theorem Copied.not_exact (hc : Copied root g₀ g h x []) {v : ℕ} (he : g₀.Edge root v)
    (hv : v ≠ root) : ¬ Exact g₀ root g := by
  intro hexact
  obtain ⟨d, hd⟩ : ∃ d, h.dist v = some d := by
    rcases hnone : h.dist v with _ | d
    · exact absurd (.tail .refl he) (hc.searching.search.complete (k := 1) hnone)
    · exact ⟨d, rfl⟩
  have hpos : d ≠ 0 := by
    rintro rfl
    exact hv (hc.eq_root hd)
  have hle : d ≤ x.distance := hc.latest v d hd List.not_mem_nil
  have hx : g.vertices[root]? = some x := (hc.getElem? root).trans (if_pos rfl)
  rcases hexact.distances root x hx with ⟨-, hdist⟩ | ⟨-, hno⟩
  · have := hdist.2 0 .refl
    omega
  · exact hno 0 .refl

theorem noCounter_keeps (E : ℕ → ℕ → Prop) (root : ℕ) :
    noCounter.Keeps E root (fun _ _ _ => True) (fun _ _ _ _ => True) False :=
  ⟨fun _ _ _ => trivial, fun _ _ _ => Or.inl ⟨(), rfl, trivial⟩, fun _ _ _ => trivial⟩

/-- **The result of `bfs_sequential` is exact just if the root has no edge to another
vertex.** -/
theorem bfsSequential_exact_iff (g₀ : Graph) (hg : g₀.WellFormed)
    (hunset : ∀ x ∈ g₀.vertices, x.distance = Vertex.noDistance) (root : ℕ) (hr : root < g₀.size)
    (next value : ℕ → ℕ) (fuel : ℕ) (hfuel : g₀.size < fuel) :
    ∃ g, bfsSequential root fuel g₀ (.new next value) = some (.ok g) ∧
      (Exact g₀ root g ↔ ∀ v, g₀.Edge root v → v = root) := by
  rcases searchFrom_spec hg hunset hr (noCounter_keeps g₀.Edge root) (s := ()) rfl trivial next
    value hfuel with ⟨_, _, hbad⟩ | ⟨g, h, x, s, hsearch, hc, -⟩
  · exact hbad.elim
  · refine ⟨g, ?_, fun hexact v he => ?_, hc.exact⟩
    · rw [bfsSequential, hsearch]
      rfl
    · by_contra hv
      exact hc.not_exact he hv hexact

theorem twoVertices_unset : ∀ x ∈ twoVertices.vertices, x.distance = Vertex.noDistance := by
  decide

theorem bfsSequential_exact_iff_twoVertices :
    ∃ g, bfsSequential 0 3 twoVertices (.new id id) = some (.ok g) ∧
      (Exact twoVertices 0 g ↔ ∀ v, twoVertices.Edge 0 v → v = 0) :=
  bfsSequential_exact_iff twoVertices twoVertices_wellFormed twoVertices_unset 0 (by decide) id id
    3 (by decide)

/-- The root ends as a copy of the other vertex: its edge is lost, and its distance is one. -/
theorem bfsSequential_twoVertices :
    twoVertices.WellFormed ∧ (∀ x ∈ twoVertices.vertices, x.distance = Vertex.noDistance) ∧
      0 < twoVertices.size ∧ twoVertices.size < 3 ∧
      ∃ g, bfsSequential 0 3 twoVertices (.new id id) = some (.ok g) ∧
        ¬ Exact twoVertices 0 g := by
  refine ⟨twoVertices_wellFormed, twoVertices_unset, by decide, by decide,
    ⟨2, [⟨[], 1, Vertex.noParent⟩, ⟨[], 1, Vertex.noParent⟩]⟩, by decide, fun h => ?_⟩
  have := h.neighbors
  revert this
  decide

end Result

end Bfs

/-
The level counts of the benchmark's analyzer (`benchmark/bfs/bfs_analyzer.cc`).

The search is that of `bfs_sequential`, with the counters of the levels as its `Counter`.

* `levelCounter_keeps` — while an edge is followed, `debug_levels` is the level of the vertex
  that it leads to, and every count is the number of vertices discovered at this level;
* `bfsAnalyzer_histogram_iff` — the counts are right and in bounds just if the levels are few
  enough for the array.
-/
import Scal.BfsSequential
import Mathlib.Data.Set.Card

open BreadthFirst

namespace Bfs

/-! ### The program -/

def kMaxDebugLevels : ℕ := 256

structure Levels where
  debugLevels : ℕ
  debugLevelCnt : List ℕ

/-- No level is seen, and the counts are cleared. -/
def Levels.new : Levels := ⟨0, List.replicate kMaxDebugLevels 0⟩

/-- The first vertex of a level is dequeued. -/
def Levels.dequeued (distance : ℕ) (s : Levels) : Levels :=
  if s.debugLevels = distance then { s with debugLevels := (s.debugLevels + 1) % wordSize } else s

/-- `debug_level_cnt[debug_levels]++`. -/
def Levels.discovered (s : Levels) : Except Failure Levels :=
  match s.debugLevelCnt[s.debugLevels]? with
  | none => .error .outOfBounds
  | some n => .ok { s with debugLevelCnt := s.debugLevelCnt.set s.debugLevels ((n + 1) % wordSize) }

def levelCounter : Counter Levels := ⟨Levels.dequeued, Levels.discovered⟩

/-- The lines that are printed, a level and its count each. -/
def Levels.lines (s : Levels) : Except Failure (List (ℕ × ℕ)) :=
  (List.range s.debugLevels).mapM fun i =>
    match s.debugLevelCnt[i]? with
    | none => .error .outOfBounds
    | some n => .ok (i, n)

/-- What is printed. -/
structure Report where
  vertices : ℕ
  levels : ℕ
  rootIndex : ℕ
  lines : List (ℕ × ℕ)
  deriving DecidableEq

def bfsAnalyzer (rootIndex fuel : ℕ) (g : Graph) (q : SingleList ℕ) :
    Option (Except Failure Report) :=
  (searchFrom levelCounter rootIndex fuel g q .new).map fun r =>
    match r with
    | .error e => .error e
    | .ok (g, s) => s.lines.map fun lines => ⟨g.size, s.debugLevels, rootIndex, lines⟩

/-! ### The counts -/

/-- All levels are in bounds and counted. -/
structure Counted (dist : ℕ → Option ℕ) (s : Levels) : Prop where
  length : s.debugLevelCnt.length = kMaxDebugLevels
  below : ∀ v d, dist v = some d → d < kMaxDebugLevels
  count : ∀ d < kMaxDebugLevels, s.debugLevelCnt[d]? = some (level dist d).ncard

/-- Between two rounds, `debug_levels` is one more than the level of a vertex, unless no vertex
was dequeued. -/
structure BetweenRounds (dist : ℕ → Option ℕ) (queue : List ℕ) (s : Levels) : Prop where
  counted : Counted dist s
  some_level : ∀ d, s.debugLevels = d + 1 → ∃ v, dist v = some d
  le : ∀ v d, dist v = some d → d ≤ s.debugLevels
  le_succ : ∀ v ∈ queue, ∀ d, dist v = some d → s.debugLevels ≤ d + 1
  lt : ∀ v d, dist v = some d → v ∉ queue → d < s.debugLevels

/-- The edges of a vertex at distance `d` are followed. -/
structure InRound (d : ℕ) (dist : ℕ → Option ℕ) (queue : List ℕ) (s : Levels) : Prop where
  counted : Counted dist s
  debugLevels : s.debugLevels = d + 1
  le : ∀ v d', dist v = some d' → v ∉ queue → d' ≤ d

section Counts

variable {g₀ : Graph} {root v d : ℕ} {dist : ℕ → Option ℕ} {queue : List ℕ} {s : Levels}

/-- The vertices that are found are in the graph. -/
theorem Graph.WellFormed.level_subset (hg : g₀.WellFormed) (hr : root < g₀.size)
    (hs : Search g₀.Edge root dist queue) (d : ℕ) :
    level dist d ⊆ (Finset.range g₀.size : Set ℕ) := by
  intro v hv
  rw [Finset.mem_coe, Finset.mem_range]
  cases hs.sound hv with
  | refl => exact hr
  | tail _ he => exact hg.below he

theorem Graph.WellFormed.level_finite (hg : g₀.WellFormed) (hr : root < g₀.size)
    (hs : Search g₀.Edge root dist queue) (d : ℕ) : (level dist d).Finite :=
  (Finset.finite_toSet _).subset (hg.level_subset hr hs d)

/-- A count does not overflow. -/
theorem Graph.WellFormed.ncard_level_lt (hg : g₀.WellFormed) (hr : root < g₀.size)
    (hs : Search g₀.Edge root dist queue) (d : ℕ) : (level dist d).ncard < wordSize := by
  have h := Set.ncard_le_ncard (hg.level_subset hr hs d) (Finset.finite_toSet _)
  rw [Set.ncard_coe_finset, Finset.card_range] at h
  exact h.trans_lt hg.lt

/-- A vertex is discovered at a level that has a count. -/
theorem Counted.discovered (hg : g₀.WellFormed) (hr : root < g₀.size) (hc : Counted dist s)
    (hs : Search g₀.Edge root (Function.update dist v (some s.debugLevels)) queue)
    (hv : dist v = none) (hlt : s.debugLevels < kMaxDebugLevels) :
    ∃ s', s.discovered = .ok s' ∧ s'.debugLevels = s.debugLevels ∧
      Counted (Function.update dist v (some s.debugLevels)) s' := by
  set k := s.debugLevels with hk
  have hnotMem : v ∉ level dist k := by
    intro hmem
    have := hv.symm.trans hmem
    cases this
  have hcard : (level (Function.update dist v (some k)) k).ncard = (level dist k).ncard + 1 := by
    have hfin := hg.level_finite hr hs k
    rw [level_update_self hv] at hfin ⊢
    exact Set.ncard_insert_of_notMem hnotMem (hfin.subset (Set.subset_insert ..))
  have hmod : ((level dist k).ncard + 1) % wordSize = (level dist k).ncard + 1 :=
    Nat.mod_eq_of_lt (hcard ▸ hg.ncard_level_lt hr hs k)
  refine ⟨{ s with debugLevelCnt := s.debugLevelCnt.set k ((level dist k).ncard + 1) }, ?_, rfl,
    ?_, fun w d hw => ?_, fun d hd => ?_⟩
  · rw [Levels.discovered, ← hk, hc.count k hlt, ← hmod]
  · rw [List.length_set, hc.length]
  · by_cases hwv : w = v
    · rw [hwv, Function.update_self, Option.some.injEq] at hw
      exact hw ▸ hlt
    · rw [Function.update_of_ne hwv] at hw
      exact hc.below w d hw
  · show (s.debugLevelCnt.set k _)[d]? = _
    rw [List.getElem?_set]
    by_cases hdk : k = d
    · subst hdk
      rw [if_pos rfl, if_pos (hc.length ▸ hlt), hcard]
    · rw [if_neg hdk, level_update_of_ne hv (Ne.symm hdk)]
      exact hc.count d hd

/-- The count of a level that does not fit fails. -/
theorem Counted.discovered_error (hc : Counted dist s) (hle : kMaxDebugLevels ≤ s.debugLevels) :
    s.discovered = .error .outOfBounds := by
  rw [Levels.discovered, List.getElem?_eq_none (hc.length ▸ hle)]

theorem levelCounter_keeps (hg : g₀.WellFormed) (hr : root < g₀.size) :
    levelCounter.Keeps g₀.Edge root BetweenRounds InRound
      (∃ v d, IsDistance g₀.Edge root v d ∧ kMaxDebugLevels ≤ d) := by
  refine ⟨fun {dist u q d s} hs hu hI => ?_, fun {dist queue v d s} hs hv hJ => ?_,
    fun {dist u q d s} hs hu hJ => ?_⟩
  · -- `debug_levels` is `d`, or `d + 1` if this is not the first vertex of its level
    have hle := hI.le u d hu
    have hle' := hI.le_succ u List.mem_cons_self d hu
    have hlt := hI.counted.below u d hu
    have hmod : (d + 1) % wordSize = d + 1 :=
      Nat.mod_eq_of_lt (lt_of_le_of_lt (Nat.succ_le_of_lt hlt) (by decide))
    have hlevels : (levelCounter.dequeued d s).debugLevels = d + 1 ∧
        (levelCounter.dequeued d s).debugLevelCnt = s.debugLevelCnt := by
      show (s.dequeued d).debugLevels = d + 1 ∧ (s.dequeued d).debugLevelCnt = s.debugLevelCnt
      rw [Levels.dequeued]
      by_cases hd : s.debugLevels = d
      · rw [if_pos hd]
        exact ⟨hd ▸ (hd.symm ▸ hmod), rfl⟩
      · rw [if_neg hd]
        exact ⟨by omega, rfl⟩
    refine ⟨⟨?_, hI.counted.below, ?_⟩, hlevels.1, fun v d' hv hq => ?_⟩
    · rw [hlevels.2]
      exact hI.counted.length
    · rw [hlevels.2]
      exact hI.counted.count
    · have := hI.lt v d' hv hq
      omega
  · rw [← hJ.debugLevels] at hs ⊢
    by_cases hlt : s.debugLevels < kMaxDebugLevels
    · obtain ⟨s', hs', hlevels, hc⟩ := hJ.counted.discovered hg hr hs hv hlt
      refine Or.inl ⟨s', hs', hc, hlevels.trans hJ.debugLevels, fun w d' hw hwq => ?_⟩
      rw [List.mem_append, List.mem_singleton, not_or] at hwq
      rw [Function.update_of_ne hwq.2] at hw
      exact hJ.le w d' hw hwq.1
    · have hle := not_lt.mp hlt
      exact Or.inr ⟨.outOfBounds, hJ.counted.discovered_error hle, v, s.debugLevels,
        hs.exact (Function.update_self ..), hle⟩
  · have hL := hJ.debugLevels
    refine ⟨hJ.counted, fun d' hd' => ⟨u, ?_⟩, fun v d' hv => ?_, fun v hv d' hd' => ?_,
      fun v d' hv hvq => ?_⟩
    · rw [hu, Option.some.injEq]
      omega
    · have := hs.near rfl hu v d' hv
      omega
    · have := (List.pairwise_cons.mp hs.sorted).1 v hv d d' hu hd'
      omega
    · rw [hL]
      by_cases hvu : v = u
      · subst hvu
        rw [hu, Option.some.injEq] at hv
        omega
      · exact Nat.lt_succ_of_le
          (hJ.le v d' hv fun hmem => (List.mem_cons.mp hmem).elim hvu hvq)

/-- Nothing is found before the search begins. -/
theorem level_none (d : ℕ) : level (fun _ : ℕ => none) d = ∅ := by
  ext w
  constructor
  · intro h
    cases h
  · intro h
    exact h.elim

/-- The root is counted. -/
theorem Levels.new_discovered (root : ℕ) :
    ∃ s, levelCounter.discovered .new = .ok s ∧
      BetweenRounds (Function.update (fun _ => none) root (some 0)) [root] s := by
  have hdist : ∀ {v d}, Function.update (fun _ => none) root (some 0) v = some d →
      v = root ∧ d = 0 := by
    intro v d h
    by_cases hv : v = root
    · subst hv
      rw [Function.update_self, Option.some.injEq] at h
      exact ⟨rfl, h.symm⟩
    · rw [Function.update_of_ne hv] at h
      cases h
  refine ⟨⟨0, (List.replicate kMaxDebugLevels 0).set 0 1⟩, rfl, ⟨?_, fun v d hv => ?_,
    fun d hd => ?_⟩, fun d hd => (by cases hd), fun v d hv => (hdist hv).2.le,
    fun v hv d _ => Nat.zero_le _, fun v d hv hvq => ?_⟩
  · rw [List.length_set, List.length_replicate]
  · rw [(hdist hv).2]
    decide
  · rw [List.getElem?_set, List.length_replicate]
    by_cases h0 : 0 = d
    · subst h0
      rw [if_pos rfl, if_pos hd, level_update_self rfl, level_none, insert_empty_eq,
        Set.ncard_singleton]
    · rw [if_neg h0, level_update_of_ne rfl (Ne.symm h0), level_none, Set.ncard_empty,
        List.getElem?_replicate, if_pos hd]
  · exact absurd (List.mem_singleton.mpr (hdist hv).1) hvq

/-- Where the search ends, `debug_levels` is one more than the largest distance. -/
theorem BetweenRounds.largest (hI : BetweenRounds dist [] s)
    (hs : Search g₀.Edge root dist []) :
    ∃ v d, IsDistance g₀.Edge root v d ∧ s.debugLevels = d + 1 ∧
      ∀ w d', IsDistance g₀.Edge root w d' → d' ≤ d := by
  have hiff : ∀ {v d}, IsDistance g₀.Edge root v d → dist v = some d := by
    intro v d hv
    have hmem : v ∈ {v | IsDistance g₀.Edge root v d} := hv
    rw [← hs.level_eq] at hmem
    exact hmem
  have hpos : 0 < s.debugLevels := hI.lt root 0 hs.atRoot List.not_mem_nil
  have hL : s.debugLevels = s.debugLevels - 1 + 1 := by omega
  obtain ⟨v, hv⟩ := hI.some_level _ hL
  refine ⟨v, s.debugLevels - 1, hs.exact hv, hL, fun w d' hw => ?_⟩
  have := hI.lt w d' (hiff hw) List.not_mem_nil
  omega

theorem mapM_eq_ok {α β : Type} {f : α → Except Failure β} {f' : α → β} :
    ∀ {l : List α}, (∀ x ∈ l, f x = .ok (f' x)) → l.mapM f = .ok (l.map f') := by
  intro l
  induction l with
  | nil =>
    intro _
    rfl
  | cons x l ih =>
    intro h
    rw [List.mapM_cons, h x List.mem_cons_self, ih fun y hy => h y (List.mem_cons_of_mem _ hy)]
    rfl

/-- All the counts that are printed are there. -/
theorem BetweenRounds.lines (hI : BetweenRounds dist queue s) :
    s.lines = .ok ((List.range s.debugLevels).map fun d => (d, (level dist d).ncard)) := by
  refine mapM_eq_ok fun d hd => ?_
  have hlt : d < kMaxDebugLevels := by
    rw [List.mem_range] at hd
    obtain ⟨v, hv⟩ := hI.some_level (s.debugLevels - 1) (by omega)
    have := hI.counted.below v _ hv
    omega
  rw [hI.counted.count d hlt]

end Counts

/-! ### The result -/

/-- What the report should say. -/
structure Histogram (g₀ : Graph) (root : ℕ) (r : Report) : Prop where
  levels : ∃ v d, IsDistance g₀.Edge root v d ∧ r.levels = d + 1 ∧
    ∀ w d', IsDistance g₀.Edge root w d' → d' ≤ d
  lines : r.lines =
    (List.range r.levels).map fun d => (d, {v | IsDistance g₀.Edge root v d}.ncard)

/-- **The histogram is exact, and every index in bounds, just if every distance from the root
is below `kMaxDebugLevels`.** -/
theorem bfsAnalyzer_histogram_iff (g₀ : Graph) (hg : g₀.WellFormed)
    (hunset : ∀ x ∈ g₀.vertices, x.distance = Vertex.noDistance) (root : ℕ) (hr : root < g₀.size)
    (next value : ℕ → ℕ) (fuel : ℕ) (hfuel : g₀.size < fuel) :
    ∃ r, bfsAnalyzer root fuel g₀ (.new next value) = some r ∧
      ((∃ report, r = .ok report ∧ Histogram g₀ root report) ↔
        ∀ v d, IsDistance g₀.Edge root v d → d < kMaxDebugLevels) := by
  obtain ⟨s₁, hs₁, hI₁⟩ := Levels.new_discovered root
  rcases searchFrom_spec hg hunset hr (levelCounter_keeps hg hr) hs₁ hI₁ next value hfuel with
    ⟨e, hsearch, v, d, hd, hle⟩ | ⟨g, h, x, s, hsearch, hc, hI⟩
  · refine ⟨.error e, ?_, ?_, fun hall => absurd (hall v d hd) (not_lt.mpr hle)⟩
    · rw [bfsAnalyzer, hsearch]
      rfl
    · rintro ⟨report, hr, -⟩
      cases hr
  · have hs := hc.searching.search
    have hlarge := hI.largest hs
    refine ⟨.ok ⟨g.size, s.debugLevels, root,
      (List.range s.debugLevels).map fun d => (d, (level h.dist d).ncard)⟩, ?_, fun _ v d hv => ?_,
      fun _ => ⟨_, rfl, hlarge, ?_⟩⟩
    · rw [bfsAnalyzer, hsearch]
      show some (Except.map _ s.lines) = _
      rw [hI.lines]
      rfl
    · have hmem : v ∈ {v | IsDistance g₀.Edge root v d} := hv
      rw [← hs.level_eq] at hmem
      exact hI.counted.below v d hmem
    · refine List.map_congr_left fun d _ => ?_
      rw [hs.level_eq]

theorem bfsAnalyzer_histogram_iff_twoVertices :
    ∃ r, bfsAnalyzer 0 3 twoVertices (.new id id) = some r ∧
      ((∃ report, r = .ok report ∧ Histogram twoVertices 0 report) ↔
        ∀ v d, IsDistance twoVertices.Edge 0 v d → d < kMaxDebugLevels) :=
  bfsAnalyzer_histogram_iff twoVertices twoVertices_wellFormed twoVertices_unset 0 (by decide)
    id id 3 (by decide)

/-- A path, each vertex of which has an edge to the next one. -/
def path (n : ℕ) : Graph :=
  ⟨n, (List.range n).map fun i => { Vertex.new with neighbors := if i + 1 < n then [i + 1] else [] }⟩

theorem path_wellFormed {n : ℕ} (hn : n < wordSize) : (path n).WellFormed := by
  refine ⟨by simp [path], hn, fun {u v} h => ?_⟩
  obtain ⟨ns, hu, hv⟩ := h
  rw [path, List.map_map, List.getElem?_map, Option.map_eq_some_iff] at hu
  obtain ⟨i, -, rfl⟩ := hu
  by_cases hi : i + 1 < n
  · have hv : v ∈ (if i + 1 < n then [i + 1] else []) := hv
    rw [if_pos hi, List.mem_singleton] at hv
    exact hv ▸ hi
  · have hv : v ∈ (if i + 1 < n then [i + 1] else []) := hv
    rw [if_neg hi] at hv
    cases hv

theorem path_unset {n : ℕ} : ∀ x ∈ (path n).vertices, x.distance = Vertex.noDistance := by
  intro x hx
  obtain ⟨i, -, rfl⟩ := List.mem_map.mp hx
  rfl

/-- On a path of 257 vertices, the last count is behind the end of the array. -/
theorem bfsAnalyzer_path :
    (path 257).WellFormed ∧ (∀ x ∈ (path 257).vertices, x.distance = Vertex.noDistance) ∧
      0 < (path 257).size ∧ (path 257).size < 258 ∧
      bfsAnalyzer 0 258 (path 257) (.new id id) = some (.error .outOfBounds) :=
  ⟨path_wellFormed (by decide), path_unset, by decide, by decide, by decide +kernel⟩

end Bfs

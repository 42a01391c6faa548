/-
Reading a graph from a coordinate file (`Graph::from_mtx_file` in `benchmark/bfs/graph.cc`).

The numbers of a line are zero based when `tokenize` returns them, also those of the header, and
`from_mtx_file` takes one off again where it reads an entry.

* `MtxWellFormed` — a coordinate file;
* `header_size` — the graph gets one vertex less than the header says;
* `fromMtxFile_not_reads` — so no well-formed file is read as it should be.
-/
import Scal.GraphFile
import Scal.ShortestPath

namespace Bfs

/-! ### The program -/

inductive MtxFailure where
  /-- `tokenize` fails, or an array access is out of bounds. -/
  | graph (e : Failure)
  /-- `fn`: invalid matrix market format file. -/
  | invalidMtxFile (fn : String)
  | assertion
  deriving DecidableEq

/-- `n - 1`, for a `uint64_t`. -/
def predWord (n : ℕ) : ℕ := (n + (wordSize - 1)) % wordSize

/-- An entry, of which `t` and the rest are the tokens. -/
def readEntry (g : Graph) : List ℕ → Except MtxFailure Graph
  | [] => .error (.graph .outOfBounds)
  | t :: rest =>
    if predWord t < g.numVertices then
      match g.vertices[predWord t]? with
      | none => .error (.graph .outOfBounds)
      | some v =>
        match rest with
        | [] => .error (.graph .outOfBounds)
        | t' :: _ =>
          .ok (g.set (predWord t) { v with neighbors := v.neighbors ++ [predWord t'] })
    else .error .assertion

/-- The header; the other numbers of the line are not used. -/
def readHeader : List ℕ → Except MtxFailure Graph
  | [] => .error (.invalidMtxFile "from_mtx_file")
  | t :: _ => .ok ⟨t, List.replicate t .new⟩

/-- The body of the loop, once the line is known; there is a graph once `firstline` is false. -/
def readMtxLine (g : Option Graph) (line : List Char) : Except MtxFailure (Option Graph) :=
  if isComment line then .ok g
  else
    match tokenize line [' '] false with
    | .error e => .error (.graph e)
    | .ok tokens =>
      match g with
      | none => (readHeader tokens).map some
      | some g => (readEntry g tokens).map some

/-- The graph, if there was a first line. -/
def fromMtxFile (bufsiz : ℕ) (file : List Char) : Except MtxFailure (Option Graph) :=
  (pieces bufsiz file).foldlM (fun g buffer => readMtxLine g (lineOf buffer)) none

/-! ### Well-formed files -/

/-- A coordinate file of `n` rows and columns with these entries, whose lines fit into the
buffer. -/
structure MtxWellFormed (bufsiz : ℕ) (terminated : Bool) (lines : List (List Char)) (n : ℕ)
    (entries : List (ℕ × ℕ)) : Prop where
  newline : ∀ l ∈ lines, '\n' ∉ l
  short : ∀ l ∈ lines, l.length < bufsiz - 1
  last : terminated = false → ∀ l ∈ lines.getLast?, l ≠ []
  data : ∃ header rest, lines.filter (fun l => !isComment l) = header :: rest ∧
    NumberLine header [n, n, entries.length] ∧
    List.Forall₂ (fun l e => NumberLine l [e.1, e.2]) rest entries
  pos : 1 ≤ n
  entry : entries ≠ []
  ids : ∀ e ∈ entries, 1 ≤ e.1 ∧ e.1 ≤ n ∧ 1 ≤ e.2 ∧ e.2 ≤ n

/-- Nothing fails, and the graph is the one that the file describes. -/
def MtxReads (r : Except MtxFailure (Option Graph)) (n : ℕ) (entries : List (ℕ × ℕ)) : Prop :=
  ∃ g, r = .ok (some g) ∧ g.size = n ∧
    g.vertices.map Vertex.neighbors = (List.range n).map fun v =>
      (entries.filter fun e => e.1 = v + 1).map fun e => e.2 - 1

section Mtx

variable {bufsiz n k : ℕ} {terminated : Bool} {lines : List (List Char)} {l : List Char}
  {ns : List ℕ} {entries : List (ℕ × ℕ)}

theorem readMtxLine_comment (g : Option Graph) (l : List Char) (hc : isComment l = true) :
    readMtxLine g l = .ok g := by
  rw [readMtxLine, if_pos hc]

/-- The header gives the graph its size, which is one too small. -/
theorem header_size (hl : NumberLine l (n :: ns)) (hn : 0 < n) (hns : ∀ m ∈ ns, 0 < m) :
    ∃ g, readMtxLine none l = .ok (some g) ∧ g.numVertices = min n longMax - 1 := by
  have hpos : ∀ m ∈ n :: ns, 0 < m := by
    intro m hm
    rcases List.mem_cons.mp hm with rfl | hm
    · exact hn
    · exact hns m hm
  refine ⟨⟨min n longMax - 1, List.replicate (min n longMax - 1) .new⟩, ?_, rfl⟩
  rw [readMtxLine, isComment_numberLine hl, tokenize_numberLine hl hpos]
  rfl

/-- An entry does not change the size. -/
theorem numVertices_readEntry {g g' : Graph} {tokens : List ℕ}
    (h : readEntry g tokens = .ok g') : g'.numVertices = g.numVertices := by
  cases tokens with
  | nil => cases h
  | cons t rest =>
    rw [readEntry] at h
    by_cases hlt : predWord t < g.numVertices
    · rw [if_pos hlt] at h
      cases hv : g.vertices[predWord t]? with
      | none =>
        rw [hv] at h
        cases h
      | some v =>
        rw [hv] at h
        cases rest with
        | nil => cases h
        | cons t' rest => rw [← Except.ok.inj h, Graph.set]
    · rw [if_neg hlt] at h
      cases h

theorem numVertices_readMtxLine {g : Graph} {o : Option Graph}
    (h : readMtxLine (some g) l = .ok o) : ∃ g', o = some g' ∧ g'.numVertices = g.numVertices := by
  rw [readMtxLine] at h
  by_cases hc : isComment l = true
  · rw [if_pos hc] at h
    exact ⟨g, (Except.ok.inj h).symm, rfl⟩
  · rw [if_neg hc] at h
    cases ht : tokenize l [' '] false with
    | error e =>
      rw [ht] at h
      cases h
    | ok tokens =>
      rw [ht] at h
      dsimp only at h
      cases he : readEntry g tokens with
      | error e =>
        rw [he] at h
        cases h
      | ok g' =>
        rw [he] at h
        exact ⟨g', (Except.ok.inj h).symm, numVertices_readEntry he⟩

/-- Nor do all of them together. -/
theorem numVertices_foldlM_readMtxLine {ls : List (List Char)} {g g' : Graph}
    (h : ls.foldlM readMtxLine (some g) = .ok (some g')) : g'.numVertices = g.numVertices := by
  induction ls generalizing g with
  | nil =>
    have hsame : some g = some g' := Except.ok.inj h
    rw [Option.some.inj hsame]
  | cons l ls ih =>
    rw [List.foldlM_cons] at h
    cases hread : readMtxLine (some g) l with
    | error e =>
      rw [hread] at h
      cases h
    | ok o =>
      obtain ⟨g₁, rfl, hsize⟩ := numVertices_readMtxLine hread
      rw [hread] at h
      exact (ih h).trans hsize

theorem MtxWellFormed.plain (hw : MtxWellFormed bufsiz terminated lines n entries) :
    ∀ l ∈ lines, isComment l = false → Plain l := by
  obtain ⟨header, rest, hdata, hheader, hrest⟩ := hw.data
  have hall : ∀ l ∈ rest, Plain l := by
    clear hdata hheader hw
    induction hrest with
    | nil =>
      intro l hl
      cases hl
    | cons hl _ ih =>
      intro l hmem
      rcases List.mem_cons.mp hmem with rfl | hmem
      · exact hl.plain
      · exact ih l hmem
  intro l hl hc
  have hmem : l ∈ header :: rest := by
    rw [← hdata]
    exact List.mem_filter.mpr ⟨hl, by simp [hc]⟩
  rcases List.mem_cons.mp hmem with rfl | hmem
  · exact hheader.plain
  · exact hall l hmem

/-- A line that is short enough is stored as a whole. -/
theorem MtxWellFormed.marked (hw : MtxWellFormed (k + 1) terminated lines n entries) :
    ∀ t ∈ physicalLines terminated lines, Marked k t := by
  have hts := physical_lines hw.last
  have hshort := hw.short
  generalize physicalLines terminated lines = ts at hts
  clear hw
  induction hts with
  | nil =>
    intro t ht
    cases ht
  | @cons l t lines ts hp _ ih =>
    intro t' ht'
    rcases List.mem_cons.mp ht' with rfl | ht'
    · have hl : l.length < k := hshort l List.mem_cons_self
      refine marked_of_length_le ?_
      rcases hp with rfl | ⟨rfl, -⟩
      · rw [List.length_append, List.length_singleton]
        exact hl
      · exact hl.le
    · exact ih (fun l hl => hshort l (List.mem_cons_of_mem _ hl)) t' ht'

/-- A well-formed file is read line by line. -/
theorem fromMtxFile_lines (hk : 0 < k) (hw : MtxWellFormed (k + 1) terminated lines n entries) :
    fromMtxFile (k + 1) (fileText terminated lines) =
      (lines.filter fun l => !isComment l).foldlM readMtxLine none := by
  rw [fromMtxFile, pieces_fileText hk hw.newline]
  exact foldlM_lines readMtxLine_comment hk (physical_lines hw.last) hw.newline hw.marked hw.plain

end Mtx

/-- **No well-formed file is read as it should be**: the graph has a vertex less, if there is
a graph. -/
theorem fromMtxFile_not_reads (bufsiz n : ℕ) (terminated : Bool) (lines : List (List Char))
    (entries : List (ℕ × ℕ)) (hw : MtxWellFormed bufsiz terminated lines n entries) :
    ¬ MtxReads (fromMtxFile bufsiz (fileText terminated lines)) n entries := by
  rintro ⟨g, hg, hsize, -⟩
  obtain ⟨header, rest, hdata, hheader, -⟩ := hw.data
  -- the header is in the buffer, so this is not empty
  obtain ⟨k, hk, rfl⟩ : ∃ k, 0 < k ∧ bufsiz = k + 1 := by
    have hmem : header ∈ lines := by
      have : header ∈ lines.filter fun l => !isComment l := hdata ▸ List.mem_cons_self
      exact List.mem_of_mem_filter this
    have := hw.short header hmem
    exact ⟨bufsiz - 1, by omega, by omega⟩
  have hcount : 0 < entries.length := List.length_pos_iff.mpr hw.entry
  obtain ⟨g₁, hread, hg₁⟩ := header_size hheader hw.pos (by
    intro m hm
    rcases List.mem_pair.mp hm with rfl | rfl
    · exact hw.pos
    · exact hcount)
  rw [fromMtxFile_lines hk hw, hdata, List.foldlM_cons, hread] at hg
  have hsame : g.numVertices = g₁.numVertices := numVertices_foldlM_readMtxLine hg
  have hn := hw.pos
  rw [Graph.size, hsame, hg₁] at hsize
  omega

/-! A file with a single entry. -/

def smallMtxFile : List (List Char) :=
  ["% none".toList, "2 2 1".toList, "2 2".toList]

theorem mtxWellFormed_smallMtxFile : MtxWellFormed 8192 true smallMtxFile 2 [(2, 2)] where
  newline := by decide
  short := by decide
  last := by decide
  data := by
    have htwo : IsNumeral ['2'] 2 := ⟨by simp, by simp, rfl⟩
    refine ⟨"2 2 1".toList, ["2 2".toList], by decide, ?_, ?_⟩
    · exact .cons htwo (.cons htwo (.last isNumeral_one))
    · exact .cons (.cons htwo (.last htwo)) .nil
  pos := by decide
  entry := by decide
  ids := by decide

theorem fromMtxFile_not_reads_smallMtxFile :
    ¬ MtxReads (fromMtxFile 8192 (fileText true smallMtxFile)) 2 [(2, 2)] :=
  fromMtxFile_not_reads 8192 2 true smallMtxFile [(2, 2)] mtxWellFormed_smallMtxFile

/-- The graph has only one vertex, which gets the neighbor of the other one. -/
theorem fromMtxFile_smallMtxFile :
    MtxWellFormed 8192 true smallMtxFile 2 [(2, 2)] ∧
      fromMtxFile 8192 (fileText true smallMtxFile) =
        .ok (some ⟨1, [⟨[0], Vertex.noDistance, Vertex.noParent⟩]⟩) ∧
      ¬ MtxReads (.ok (some ⟨1, [⟨[0], Vertex.noDistance, Vertex.noParent⟩]⟩)) 2 [(2, 2)] := by
  refine ⟨mtxWellFormed_smallMtxFile, by decide, ?_⟩
  rintro ⟨g, hg, hsize, -⟩
  cases hg
  revert hsize
  decide

end Bfs

/-
`from_graph_file` reads back the files that fit into its buffer.

A file is made of lines (`fileText`), of which those that do not start with `%` are
numbers with spaces in between (`NumberLine`, `WellFormed`).  A line that is longer than
`fgets` can store comes in several pieces, and each of them is read as a line of its own.

* `pieces_append`, `pieces_eq` — the pieces of a file are those of its lines;
* `tokenize_numberLine` — what `tokenize` makes of a line of numbers;
* `foldlM_data` — what the data lines of a file are read as;
* `reads_of_fits` — a file is read back if in every line the later pieces start with `%`;
* `length_dataLines_lt`, `not_reads_of_not_fits` — otherwise there are more pieces than
  vertices;
* `reads_back_iff` — so a file is read back exactly if it fits.
-/
import Scal.Graph
import Mathlib.Data.List.Forall2
import Mathlib.Data.List.Infix
import Mathlib.Data.List.TakeWhile
import Mathlib.Tactic.Common

namespace Bfs

/-! ### Well-formed files -/

/-- The decimal numeral `w` of the number `n`. -/
def IsNumeral (w : List Char) (n : ℕ) : Prop :=
  w ≠ [] ∧ (∀ c ∈ w, c.isDigit = true) ∧ digits 0 w = n

/-- A line of numbers, with one or more spaces in between. -/
inductive NumberLine : List Char → List ℕ → Prop
  | nil : NumberLine [] []
  | space {l : List Char} {ns : List ℕ} : NumberLine l ns → NumberLine (' ' :: l) ns
  | last {w : List Char} {n : ℕ} : IsNumeral w n → NumberLine w [n]
  | cons {w l : List Char} {n : ℕ} {ns : List ℕ} : IsNumeral w n → NumberLine l ns →
      NumberLine (w ++ ' ' :: l) (n :: ns)

/-- The lines, each with its newline; the last one has none if `terminated` is false. -/
def physicalLines (terminated : Bool) : List (List Char) → List (List Char)
  | [] => []
  | [l] => [if terminated then l ++ ['\n'] else l]
  | l :: l' :: ls => (l ++ ['\n']) :: physicalLines terminated (l' :: ls)

def fileText (terminated : Bool) (lines : List (List Char)) : List Char :=
  (physicalLines terminated lines).flatten

/-- A graph file with `n` vertices, whose adjacency lines are `rows`.  A last line without
a newline is not empty. -/
structure WellFormed (terminated : Bool) (lines : List (List Char)) (n : ℕ)
    (rows : List (List ℕ)) : Prop where
  newline : ∀ l ∈ lines, '\n' ∉ l
  last : terminated = false → ∀ l ∈ lines.getLast?, l ≠ []
  data : ∃ header adjacency ns, lines.filter (fun l => !isComment l) = header :: adjacency ∧
    NumberLine header (n :: ns) ∧ (∀ m ∈ ns, 0 < m) ∧ List.Forall₂ NumberLine adjacency rows
  pos : 1 ≤ n
  count : rows.length = n
  ids : ∀ row ∈ rows, ∀ m ∈ row, 1 ≤ m ∧ m ≤ n

/-- The graph is the one that the file describes. -/
def ReadsBack (r : Except Failure (Option Graph)) (n : ℕ) (rows : List (List ℕ)) : Prop :=
  ∃ g, r = .ok (some g) ∧ g.size = n ∧
    g.vertices = rows.map fun row => ⟨row.map (· - 1), Vertex.noDistance, Vertex.noParent⟩

/-- At every multiple of `k` except zero there is a `%`, or the line has ended. -/
def Marked (k : ℕ) (t : List Char) : Prop :=
  ∀ i, 0 < i → i * k < t.length → t[i * k]? = some '%'

/-! ### Pieces -/

section Pieces

variable {k : ℕ} {t rest : List Char}

/-- Within a line, of which at most the last character is a newline. -/
theorem readLine_line : ∀ (k : ℕ) (t : List Char), '\n' ∉ t.dropLast →
    readLine k t = (t.take k, t.drop k) := by
  intro k
  induction k with
  | zero =>
    intro t _
    cases t <;> rfl
  | succ k ih =>
    intro t ht
    cases t with
    | nil => rfl
    | cons c t =>
      rcases eq_or_ne t [] with rfl | hne
      · by_cases hc : c = '\n'
        · simp [readLine, hc]
        · rw [readLine, if_neg hc, ih [] (by simp)]
          rfl
      · rw [List.dropLast_cons_of_ne_nil hne, List.mem_cons, not_or] at ht
        rw [readLine, if_neg (Ne.symm ht.1), ih t ht.2]
        rfl

/-- A line that ends with a newline is read without what follows. -/
theorem readLine_terminated (rest : List Char) : ∀ (k : ℕ) (l : List Char), '\n' ∉ l →
    readLine k (l ++ '\n' :: rest) =
      ((l ++ ['\n']).take k, (l ++ ['\n']).drop k ++ rest) := by
  intro k
  induction k with
  | zero =>
    intro l _
    cases l <;> simp [readLine]
  | succ k ih =>
    intro l hl
    cases l with
    | nil => simp [readLine]
    | cons c l =>
      rw [List.mem_cons, not_or] at hl
      rw [List.cons_append, readLine, if_neg (Ne.symm hl.1), ih l hl.2]
      rfl

theorem readLine_append (k : ℕ) (t : List Char) : (readLine k t).1 ++ (readLine k t).2 = t := by
  induction k generalizing t with
  | zero => simp [readLine]
  | succ k ih =>
    cases t with
    | nil => rfl
    | cons c t =>
      rw [readLine]
      split_ifs
      · rfl
      · simp [ih t]

theorem readLine_length (hk : 0 < k) (ht : t ≠ []) : (readLine k t).2.length < t.length := by
  obtain ⟨k, rfl⟩ : ∃ m, k = m + 1 := ⟨k - 1, by omega⟩
  obtain ⟨c, t, rfl⟩ := List.exists_cons_of_ne_nil ht
  rw [readLine]
  split_ifs
  · simp
  · have := congrArg List.length (readLine_append k t)
    rw [List.length_append] at this
    simp only [List.length_cons]
    omega

/-- More fuel than characters makes no difference. -/
theorem fgetsAll_fuel (hk : 0 < k) : ∀ (fuel : ℕ) (t : List Char), t.length ≤ fuel →
    fgetsAll (k + 1) fuel t = pieces (k + 1) t := by
  intro fuel
  induction fuel using Nat.strongRecOn with
  | _ fuel ih =>
    intro t ht
    rcases Nat.lt_or_eq_of_le ht with hlt | heq
    · obtain ⟨fuel, rfl⟩ : ∃ m, fuel = m + 1 := ⟨fuel - 1, by omega⟩
      cases t with
      | nil => rfl
      | cons c t =>
        have hlen := readLine_length hk (List.cons_ne_nil c t)
        simp only [List.length_cons] at hlt hlen
        have h1 := ih fuel (by omega) (readLine k (c :: t)).2 (by omega)
        have h2 := ih t.length (by omega) (readLine k (c :: t)).2 (by omega)
        rw [pieces, List.length_cons]
        simp only [fgetsAll, fgets, Nat.add_sub_cancel, h1, h2]
    · subst heq
      rfl

theorem pieces_cons (hk : 0 < k) (ht : t ≠ []) :
    pieces (k + 1) t = (readLine k t).1 :: pieces (k + 1) (readLine k t).2 := by
  obtain ⟨c, t, rfl⟩ := List.exists_cons_of_ne_nil ht
  have hlen := readLine_length hk (List.cons_ne_nil c t)
  simp only [List.length_cons] at hlen
  rw [← fgetsAll_fuel hk t.length (readLine k (c :: t)).2 (by omega), pieces, List.length_cons]
  simp only [fgetsAll, fgets, Nat.add_sub_cancel]

@[simp] theorem pieces_nil (k : ℕ) : pieces k [] = [] := rfl

/-- The whole file is read. -/
theorem flatten_pieces (hk : 0 < k) (t : List Char) : (pieces (k + 1) t).flatten = t := by
  induction hn : t.length using Nat.strongRecOn generalizing t with
  | _ n ih =>
    rcases eq_or_ne t [] with rfl | ht
    · rfl
    · have hlen := readLine_length hk ht
      rw [pieces_cons hk ht, List.flatten_cons, ih _ (by omega) _ rfl, readLine_append]

theorem pieces_line (hk : 0 < k) (ht : t ≠ []) (hn : '\n' ∉ t.dropLast) :
    pieces (k + 1) t = t.take k :: pieces (k + 1) (t.drop k) := by
  rw [pieces_cons hk ht, readLine_line k t hn]

theorem pieces_append (hk : 0 < k) {l : List Char} (hl : '\n' ∉ l) :
    pieces (k + 1) (l ++ '\n' :: rest) = pieces (k + 1) (l ++ ['\n']) ++ pieces (k + 1) rest := by
  induction hn : l.length using Nat.strongRecOn generalizing l with
  | _ n ih =>
    rw [pieces_cons hk (by simp), readLine_terminated rest k l hl,
      pieces_line (t := l ++ ['\n']) hk (by simp) (by simpa using hl), List.cons_append]
    congr 1
    rcases Nat.lt_or_ge l.length k with hlt | hge
    · rw [List.drop_eq_nil_of_le (by simp; omega), List.nil_append, pieces_nil, List.nil_append]
    · rw [List.drop_append_of_le_length hge, List.append_assoc]
      exact ih (l.drop k).length (by rw [List.length_drop]; omega)
        (fun h => hl (List.mem_of_mem_drop h)) rfl

/-- The number of pieces that are not comments. -/
def dataPieces (k : ℕ) (t : List Char) : ℕ :=
  ((pieces (k + 1) t).filter fun p => !isComment (lineOf p)).length

/-- A piece is a comment if the line has a `%` where it begins. -/
theorem isComment_piece (hk : 0 < k) (hn : '\n' ∉ t.dropLast) :
    isComment (lineOf (t.take k)) = decide (t.head? = some '%') := by
  obtain ⟨k, rfl⟩ : ∃ m, k = m + 1 := ⟨k - 1, by omega⟩
  cases t with
  | nil => rfl
  | cons c t =>
    rw [List.take_succ_cons, lineOf]
    by_cases h0 : c = '\x00'
    · subst h0
      rfl
    · rw [List.takeWhile_cons_of_pos (by simpa using h0)]
      by_cases hc : c = '\n'
      · -- the piece is a newline only
        have ht : t = [] := by
          by_contra hne
          rw [List.dropLast_cons_of_ne_nil hne, List.mem_cons, not_or] at hn
          exact hn.1 hc.symm
        subst hc ht
        simp [isComment]
      · rw [List.filter_cons_of_pos (by simpa using hc)]
        rfl

theorem dataPieces_line (hk : 0 < k) (ht : t ≠ []) (hn : '\n' ∉ t.dropLast) :
    dataPieces k t = (if t.head? = some '%' then 0 else 1) + dataPieces k (t.drop k) := by
  rw [dataPieces, pieces_line hk ht hn, List.filter_cons, isComment_piece hk hn]
  by_cases hc : t.head? = some '%'
  · simp [hc, dataPieces]
  · simp [hc, dataPieces, Nat.add_comm]

theorem notMem_dropLast_drop (hn : '\n' ∉ t.dropLast) : '\n' ∉ (t.drop k).dropLast := by
  intro h
  refine hn (List.mem_of_mem_drop (i := k) ?_)
  rw [List.dropLast_eq_take, List.length_drop] at h
  rw [List.dropLast_eq_take, List.drop_take]
  rwa [Nat.sub_right_comm] at h

/-- All pieces are comments when they begin with `%`. -/
theorem dataPieces_eq_zero (hk : 0 < k) (hn : '\n' ∉ t.dropLast) :
    dataPieces k t = 0 ↔ ∀ i, i * k < t.length → t[i * k]? = some '%' := by
  induction hlen : t.length using Nat.strongRecOn generalizing t with
  | _ n ih =>
    subst hlen
    rcases eq_or_ne t [] with rfl | ht
    · simp [dataPieces]
    · have hpos : 0 < t.length := List.length_pos_iff.mpr ht
      have hih := ih (t.drop k).length (by rw [List.length_drop]; omega)
        (notMem_dropLast_drop (k := k) hn) rfl
      rw [dataPieces_line hk ht hn, Nat.add_eq_zero_iff, hih, List.head?_eq_getElem?,
        List.length_drop]
      constructor
      · rintro ⟨h0, hrest⟩ i hi
        cases i with
        | zero => simpa using h0
        | succ i =>
          rw [Nat.succ_mul] at hi ⊢
          have := hrest i (by omega)
          rwa [List.getElem?_drop, Nat.add_comm] at this
      · intro h
        refine ⟨by simpa using h 0 (by simpa using hpos), fun i hi => ?_⟩
        have := h (i + 1) (by rw [Nat.succ_mul]; omega)
        rwa [Nat.succ_mul, Nat.add_comm, ← List.getElem?_drop] at this

theorem marked_iff (hk : 0 < k) (hn : '\n' ∉ t.dropLast) :
    Marked k t ↔ dataPieces k (t.drop k) = 0 := by
  rw [dataPieces_eq_zero hk (notMem_dropLast_drop hn), List.length_drop]
  constructor
  · intro h i hi
    have := h (i + 1) i.succ_pos (by rw [Nat.succ_mul]; omega)
    rwa [Nat.succ_mul, Nat.add_comm, ← List.getElem?_drop] at this
  · intro h i hi hlt
    obtain ⟨i, rfl⟩ : ∃ m, i = m + 1 := ⟨i - 1, by omega⟩
    rw [Nat.succ_mul] at hlt ⊢
    have := h i (by omega)
    rwa [List.getElem?_drop, Nat.add_comm] at this

end Pieces

/-! ### Lines -/

section Lines

variable {k n : ℕ} {terminated : Bool} {l t : List Char} {lines : List (List Char)}

/-- What stands in the file for a line. -/
def Physical (l t : List Char) : Prop := t = l ++ ['\n'] ∨ (t = l ∧ l ≠ [])

theorem Physical.ne_nil (hp : Physical l t) : t ≠ [] := by
  rcases hp with rfl | ⟨rfl, h⟩
  · simp
  · exact h

theorem Physical.notMem (hp : Physical l t) (hl : '\n' ∉ l) : '\n' ∉ t.dropLast := by
  rcases hp with rfl | ⟨rfl, -⟩
  · simpa using hl
  · exact fun h => hl (List.mem_of_mem_dropLast h)

theorem Physical.isComment (hp : Physical l t) : decide (t.head? = some '%') = isComment l := by
  rcases hp with rfl | ⟨rfl, -⟩
  · cases l <;> simp [Bfs.isComment]
  · rfl

theorem physical_lines (hlast : terminated = false → ∀ l ∈ lines.getLast?, l ≠ []) :
    List.Forall₂ Physical lines (physicalLines terminated lines) := by
  induction lines with
  | nil => exact .nil
  | cons l ls ih =>
    cases ls with
    | nil =>
      refine .cons ?_ .nil
      cases terminated
      · exact .inr ⟨rfl, hlast rfl l (by simp)⟩
      · exact .inl rfl
    | cons l' ls => exact .cons (.inl rfl) (ih (by simpa using hlast))

theorem pieces_fileText (hk : 0 < k) (hl : ∀ l ∈ lines, '\n' ∉ l) :
    pieces (k + 1) (fileText terminated lines) =
      (physicalLines terminated lines).flatMap (pieces (k + 1)) := by
  induction lines with
  | nil => rfl
  | cons l ls ih =>
    cases ls with
    | nil => simp [fileText, physicalLines]
    | cons l' ls =>
      have ih := ih fun l h => hl l (List.mem_cons_of_mem _ h)
      rw [fileText] at ih
      rw [fileText, physicalLines, List.flatten_cons, List.append_assoc, List.singleton_append,
        pieces_append hk (hl l (by simp)), ih, List.flatMap_cons]

/-- Only comments contain a `%`. -/
def Plain (l : List Char) : Prop := ∀ c ∈ l, c ≠ '%' ∧ c ≠ '\x00'

theorem lineOf_physical (hp : Physical l t) (hl : '\n' ∉ l) (hplain : Plain l) : lineOf t = l := by
  have htake : t.takeWhile (fun c => c ≠ '\x00') = t := by
    refine List.takeWhile_eq_self_iff.mpr fun c hc => ?_
    rcases hp with rfl | ⟨rfl, -⟩
    · rcases List.mem_append.mp hc with hc | hc
      · simpa using (hplain c hc).2
      · obtain rfl := List.mem_singleton.mp hc
        rfl
    · simpa using (hplain c hc).2
  have hfilter : l.filter (fun c => c ≠ '\n') = l := by
    refine List.filter_eq_self.mpr fun c hc => ?_
    have : c ≠ '\n' := fun h => hl (h ▸ hc)
    simpa using this
  rw [lineOf, htake]
  rcases hp with rfl | ⟨rfl, -⟩
  · rw [List.filter_append, hfilter]
    simp
  · exact hfilter

section Skipping

/-! A loop that reads the lines and skips the comments. -/

variable {ρ ε : Type} {read : ρ → List Char → Except ε ρ}

/-- Comments are skipped. -/
theorem foldlM_comments (hskip : ∀ r l, isComment l = true → read r l = .ok r) {r : ρ} :
    ∀ {ps : List (List Char)}, (ps.filter fun p => !isComment (lineOf p)).length = 0 →
      ps.foldlM (fun r p => read r (lineOf p)) r = .ok r := by
  intro ps
  induction ps with
  | nil => exact fun _ => rfl
  | cons p ps ih =>
    intro h
    by_cases hc : isComment (lineOf p)
    · rw [List.filter_cons_of_neg (by simp [hc])] at h
      rw [List.foldlM_cons, hskip r _ hc]
      exact ih h
    · rw [List.filter_cons_of_pos (by simp [hc])] at h
      simp at h

/-- A line that fits is read as a whole. -/
theorem foldlM_line (hskip : ∀ r l, isComment l = true → read r l = .ok r) {r : ρ}
    (hk : 0 < k) (hp : Physical l t) (hl : '\n' ∉ l) (hm : Marked k t)
    (hplain : isComment l = false → Plain l) :
    (pieces (k + 1) t).foldlM (fun r p => read r (lineOf p)) r = read r l := by
  have hn := hp.notMem hl
  have hrest := (marked_iff hk hn).mp hm
  rw [pieces_line hk hp.ne_nil hn, List.foldlM_cons]
  cases hc : isComment l with
  | true =>
    have hpiece : isComment (lineOf (t.take k)) = true := by
      rw [isComment_piece hk hn, hp.isComment, hc]
    rw [hskip r _ hpiece, hskip r l hc]
    exact foldlM_comments hskip hrest
  | false =>
    -- there is no other place for a `%` than the end of the line
    have hlen : t.length ≤ k := by
      by_contra hlt
      have hget := hm 1 Nat.one_pos (by omega)
      have hmem : '%' ∈ t := List.mem_of_getElem? hget
      rcases hp with rfl | ⟨rfl, -⟩
      · rcases List.mem_append.mp hmem with h | h
        · exact (hplain hc _ h).1 rfl
        · simp at h
      · exact (hplain hc _ hmem).1 rfl
    rw [List.take_of_length_le hlen, List.drop_eq_nil_of_le hlen,
      lineOf_physical hp hl (hplain hc)]
    cases read r l <;> rfl

/-- The lines of a file that fits are read one by one. -/
theorem foldlM_lines (hskip : ∀ r l, isComment l = true → read r l = .ok r) {r : ρ}
    (hk : 0 < k) {ts : List (List Char)} (hts : List.Forall₂ Physical lines ts)
    (hl : ∀ l ∈ lines, '\n' ∉ l) (hm : ∀ t ∈ ts, Marked k t)
    (hplain : ∀ l ∈ lines, isComment l = false → Plain l) :
    (ts.flatMap (pieces (k + 1))).foldlM (fun r p => read r (lineOf p)) r =
      (lines.filter fun l => !isComment l).foldlM read r := by
  induction hts generalizing r with
  | nil => rfl
  | @cons l t lines ts hp _ ih =>
    have ih := fun r => ih (r := r) (fun l h => hl l (List.mem_cons_of_mem _ h))
      (fun t h => hm t (List.mem_cons_of_mem _ h)) fun l h => hplain l (List.mem_cons_of_mem _ h)
    rw [List.flatMap_cons, List.foldlM_append,
      foldlM_line hskip hk hp (hl l (by simp)) (hm t (by simp)) (hplain l (by simp))]
    by_cases hc : isComment l
    · rw [List.filter_cons_of_neg (by simp [hc]), hskip r l hc]
      exact ih r
    · rw [List.filter_cons_of_pos (by simp [hc]), List.foldlM_cons]
      cases read r l with
      | error e => rfl
      | ok r' => exact ih r'

end Skipping

theorem Reader.read_comment (r : Reader) (l : List Char) (hc : isComment l = true) :
    r.read l = .ok r := by
  rw [Reader.read, if_pos hc]

end Lines

/-! ### Numbers -/

section Numbers

variable {n : ℕ} {ns : List ℕ} {w l cur rest : List Char}

theorem NumberLine.chars (hl : NumberLine l ns) : ∀ c ∈ l, c = ' ' ∨ c.isDigit = true := by
  induction hl with
  | nil => simp
  | space _ ih =>
    intro c hc
    rcases List.mem_cons.mp hc with rfl | hc
    · exact .inl rfl
    · exact ih c hc
  | last hw => exact fun c hc => .inr (hw.2.1 c hc)
  | cons hw _ ih =>
    intro c hc
    rcases List.mem_append.mp hc with hc | hc
    · exact .inr (hw.2.1 c hc)
    · rcases List.mem_cons.mp hc with rfl | hc
      · exact .inl rfl
      · exact ih c hc

theorem NumberLine.plain (hl : NumberLine l ns) : Plain l := by
  intro c hc
  rcases hl.chars c hc with rfl | h
  · decide
  · constructor
    · rintro rfl
      exact absurd h (by decide)
    · rintro rfl
      exact absurd h (by decide)

/-- The value of a numeral, which `atol` bounds. -/
theorem atol_numeral (hw : IsNumeral w n) : atol w = min n longMax := by
  obtain ⟨hne, hd, rfl⟩ := hw
  obtain ⟨c, w, rfl⟩ := List.exists_cons_of_ne_nil hne
  have hc : c.isDigit = true := hd c (by simp)
  have hspace : isSpace c = false := by
    by_contra h
    simp only [isSpace, Bool.or_eq_true, decide_eq_true_eq, Bool.not_eq_false] at h
    rcases h with ((((rfl | rfl) | rfl) | rfl) | rfl) | rfl <;> exact absurd hc (by decide)
  have hminus : c ≠ '-' := by
    rintro rfl
    exact absurd hc (by decide)
  have hplus : c ≠ '+' := by
    rintro rfl
    exact absurd hc (by decide)
  rw [atol, List.dropWhile_cons_of_neg (by simp [hspace])]
  split
  · rename_i h
    exact absurd (List.cons.inj h).1 hminus
  · rename_i h
    exact absurd (List.cons.inj h).1 hplus
  · rfl

theorem toIndex_numeral (hw : IsNumeral w n) (hn : 0 < n) :
    toIndex w = .ok (min n longMax - 1) := by
  have hpos : min n longMax ≠ 0 := by
    have : 0 < longMax := by decide
    omega
  rw [toIndex, atol_numeral hw, if_neg hpos]

theorem substrings_word (hw : ∀ c ∈ w, c.isDigit = true) :
    substrings [' '] false cur (w ++ rest) = substrings [' '] false (cur ++ w) rest := by
  induction w generalizing cur with
  | nil => simp
  | cons c w ih =>
    have hc : c ∉ [' '] := by
      intro h
      obtain rfl := List.mem_singleton.mp h
      exact absurd (hw ' ' (by simp)) (by decide)
    rw [List.cons_append, substrings, if_neg hc, ih fun c h => hw c (List.mem_cons_of_mem _ h),
      List.append_assoc, List.singleton_append]

/-- **A line of numbers**, zero based. -/
theorem tokenize_numberLine (hl : NumberLine l ns) (hpos : ∀ n ∈ ns, 0 < n) :
    tokenize l [' '] false = .ok (ns.map fun n => min n longMax - 1) := by
  induction hl with
  | nil => rfl
  | space _ ih =>
    rw [tokenize, substrings]
    exact ih hpos
  | @last w n hw =>
    have hsub : substrings [' '] false [] (w ++ []) = substrings [' '] false ([] ++ w) [] :=
      substrings_word hw.2.1
    rw [List.append_nil, List.nil_append, substrings, if_neg hw.1] at hsub
    rw [tokenize, hsub, List.mapM_cons, toIndex_numeral hw (hpos n (by simp))]
    rfl
  | @cons w l n ns hw _ ih =>
    have ih := ih fun n h => hpos n (List.mem_cons_of_mem _ h)
    have hsub : substrings [' '] false [] (w ++ ' ' :: l) =
        substrings [' '] false ([] ++ w) (' ' :: l) := substrings_word hw.2.1
    rw [List.nil_append, substrings, if_pos (by simp), if_pos (by simpa using hw.1)] at hsub
    rw [tokenize] at ih
    rw [tokenize, hsub, List.mapM_cons, toIndex_numeral hw (hpos n (by simp)), ih]
    rfl

end Numbers

/-! ### Files that fit -/

section Fits

variable {k n : ℕ} {terminated : Bool} {l : List Char} {ns : List ℕ} {lines : List (List Char)}
  {rows : List (List ℕ)} {r r' : Reader}

/-- A vertex with its neighbors. -/
def Vertex.ofRow (row : List ℕ) : Vertex := ⟨row.map (· - 1), noDistance, noParent⟩

theorem isComment_numberLine (hl : NumberLine l ns) : isComment l = false := by
  rw [isComment, decide_eq_false_iff_not]
  intro h
  exact (hl.plain '%' (List.mem_of_mem_head? h)).1 rfl

/-- The header, whose first number is the number of vertices. -/
theorem read_header (hl : NumberLine l (n :: ns)) (hn : 0 < n) (hns : ∀ m ∈ ns, 0 < m) :
    Reader.read ⟨none, 0⟩ l =
      .ok ⟨some ⟨min n longMax, List.replicate (min n longMax) .new⟩, 0⟩ := by
  have hpos : ∀ m ∈ n :: ns, 0 < m := by
    intro m hm
    rcases List.mem_cons.mp hm with rfl | hm
    · exact hn
    · exact hns m hm
  have hmax : 0 < longMax ∧ longMax < wordSize := by decide
  have hsize : (min n longMax - 1 + 1) % wordSize = min n longMax := by
    rw [Nat.sub_add_cancel (by omega)]
    exact Nat.mod_eq_of_lt (by omega)
  simp only [Reader.read, isComment_numberLine hl, tokenize_numberLine hl hpos, List.map_cons, hsize]
  rfl

/-- An adjacency line gives the next vertex its neighbors. -/
theorem read_row {g : Graph} {done : List (List ℕ)} {row : List ℕ} {m : ℕ}
    (hg : g.vertices = done.map Vertex.ofRow ++ List.replicate (m + 1) .new)
    (hl : NumberLine l row) (hrow : ∀ i ∈ row, 1 ≤ i ∧ i ≤ longMax) :
    Reader.read ⟨some g, done.length⟩ l =
      .ok ⟨some ⟨g.numVertices, (done ++ [row]).map Vertex.ofRow ++ List.replicate m .new⟩,
        (done ++ [row]).length⟩ := by
  have hget : g.vertices[done.length]? = some .new := by
    rw [hg, List.getElem?_append_right (by simp)]
    simp
  have hset : g.vertices.set done.length (.ofRow row) =
      (done ++ [row]).map Vertex.ofRow ++ List.replicate m .new := by
    rw [hg, List.set_append_right _ _ (by simp)]
    simp [List.replicate_succ]
  have hids : row.map (fun i => min i longMax - 1) = row.map (· - 1) := by
    refine List.map_congr_left fun i hi => ?_
    have := hrow i hi
    omega
  simp only [Reader.read, isComment_numberLine hl, hget,
    tokenize_numberLine hl fun i hi => (hrow i hi).1, hids]
  rw [List.length_append, ← hset]
  rfl

/-- The adjacency lines, one after the other. -/
theorem foldlM_rows {ls : List (List Char)} (hls : List.Forall₂ NumberLine ls rows) (g : Graph)
    (done : List (List ℕ))
    (hg : g.vertices = done.map Vertex.ofRow ++ List.replicate rows.length .new)
    (hrows : ∀ row ∈ rows, ∀ i ∈ row, 1 ≤ i ∧ i ≤ longMax) :
    ls.foldlM Reader.read ⟨some g, done.length⟩ =
      .ok ⟨some ⟨g.numVertices, (done ++ rows).map Vertex.ofRow⟩, (done ++ rows).length⟩ := by
  induction hls generalizing g done with
  | nil =>
    have hv : g.vertices = (done ++ []).map Vertex.ofRow := by simpa using hg
    rw [← hv, List.append_nil]
    rfl
  | @cons l row ls rows hl _ ih =>
    rw [List.length_cons] at hg
    rw [List.foldlM_cons, read_row hg hl (hrows row (by simp)), List.append_cons done row rows]
    exact ih _ _ rfl fun row h => hrows row (List.mem_cons_of_mem _ h)

/-- The number of vertices is set once. -/
theorem numVertices_foldlM {ls : List (List Char)} {g g' : Graph}
    (hg : r.graph = some g) (h : ls.foldlM Reader.read r = .ok r') (hg' : r'.graph = some g') :
    g'.numVertices = g.numVertices := by
  induction ls generalizing r g with
  | nil =>
    obtain rfl : r = r' := Except.ok.inj h
    rw [hg] at hg'
    rw [Option.some.inj hg']
  | cons l ls ih =>
    rw [List.foldlM_cons] at h
    cases hread : r.read l with
    | error e =>
      rw [hread] at h
      exact absurd h (by simp [bind, Except.bind])
    | ok r₁ =>
      rw [hread] at h
      have hsame : ∃ g₁, r₁.graph = some g₁ ∧ g₁.numVertices = g.numVertices := by
        simp only [Reader.read, hg] at hread
        split_ifs at hread
        · exact ⟨g, by rw [← Except.ok.inj hread, hg], rfl⟩
        · split at hread
          · cases hread
          · split at hread
            · cases hread
            · rw [← Except.ok.inj hread]
              exact ⟨_, rfl, rfl⟩
      obtain ⟨g₁, hg₁, hsize⟩ := hsame
      rw [ih hg₁ h, hsize]

/-- What the data lines of a well-formed file are read as. -/
theorem foldlM_data (hw : WellFormed terminated lines n rows) :
    (∃ r, (lines.filter fun l => !isComment l).foldlM Reader.read ⟨none, 0⟩ = .ok r ∧
      n ≤ longMax ∧ r.graph = some ⟨n, rows.map Vertex.ofRow⟩) ∨
    longMax < n ∧ ∀ r g, (lines.filter fun l => !isComment l).foldlM Reader.read ⟨none, 0⟩ = .ok r →
      r.graph = some g → g.numVertices = longMax := by
  obtain ⟨header, adjacency, ns, hdata, hheader, hns, hrows⟩ := hw.data
  have hstart := read_header hheader hw.pos hns
  rw [hdata, List.foldlM_cons, hstart]
  rcases Nat.lt_or_ge longMax n with hlt | hle
  · right
    rw [Nat.min_eq_right hlt.le]
    exact ⟨hlt, fun r g h hg => numVertices_foldlM rfl h hg⟩
  · left
    rw [Nat.min_eq_left hle]
    have hrun : adjacency.foldlM Reader.read ⟨some ⟨n, List.replicate n .new⟩, 0⟩ =
        .ok ⟨some ⟨n, ([] ++ rows).map Vertex.ofRow⟩, ([] ++ rows).length⟩ :=
      foldlM_rows hrows ⟨n, List.replicate n .new⟩ [] (by simp [hw.count]) fun row h i hi =>
        ⟨(hw.ids row h i hi).1, (hw.ids row h i hi).2.trans hle⟩
    exact ⟨_, hrun, hle, rfl⟩

theorem plain_of_rows {ls : List (List Char)} (hls : List.Forall₂ NumberLine ls rows) :
    ∀ l ∈ ls, Plain l := by
  induction hls with
  | nil => simp
  | cons hrow _ ih =>
    intro l hl
    rcases List.mem_cons.mp hl with rfl | hl
    · exact hrow.plain
    · exact ih l hl

theorem plain_of_data (hw : WellFormed terminated lines n rows) :
    ∀ l ∈ lines, isComment l = false → Plain l := by
  obtain ⟨header, adjacency, ns, hdata, hheader, -, hrows⟩ := hw.data
  intro l hl hc
  have hmem : l ∈ header :: adjacency := by
    rw [← hdata]
    exact List.mem_filter.mpr ⟨hl, by simp [hc]⟩
  rcases List.mem_cons.mp hmem with rfl | hmem
  · exact hheader.plain
  · exact plain_of_rows hrows l hmem

/-- A file all of whose lines fit is read like its data lines. -/
theorem fromGraphFile_of_marked (hk : 0 < k) (hw : WellFormed terminated lines n rows)
    (hm : ∀ t ∈ physicalLines terminated lines, Marked k t) :
    fromGraphFile (k + 1) (fileText terminated lines) =
      ((lines.filter fun l => !isComment l).foldlM Reader.read ⟨none, 0⟩).map Reader.graph := by
  rw [fromGraphFile, pieces_fileText hk hw.newline]
  exact congrArg (Except.map Reader.graph) (foldlM_lines Reader.read_comment hk
    (physical_lines hw.last) hw.newline hm (plain_of_data hw))

theorem reads_of_fits (hk : 0 < k) (hw : WellFormed terminated lines n rows) (hn : n ≤ longMax)
    (hm : ∀ t ∈ physicalLines terminated lines, Marked k t) :
    ReadsBack (fromGraphFile (k + 1) (fileText terminated lines)) n rows := by
  rw [fromGraphFile_of_marked hk hw hm]
  rcases foldlM_data hw with ⟨r, hr, -, hg⟩ | ⟨hlt, -⟩
  · rw [hr]
    exact ⟨_, congrArg Except.ok hg, rfl, rfl⟩
  · omega

end Fits

/-! ### Files that do not fit -/

section Counting

variable {k n c : ℕ} {terminated : Bool} {lines ts : List (List Char)} {rows : List (List ℕ)}
  {r r' : Reader}

/-- After `c` lines that were not comments. -/
def Reader.Counted (r : Reader) (c : ℕ) : Prop :=
  (r.graph = none ∧ r.id = 0 ∧ c = 0) ∨
    ∃ g, r.graph = some g ∧ c = r.id + 1 ∧ r.id ≤ g.vertices.length

theorem Reader.Counted.read {line : List Char} (hc : r.Counted c) (h : r.read line = .ok r') :
    r'.Counted (c + if isComment line then 0 else 1) := by
  unfold Reader.read at h
  split_ifs at h with hcomment
  · rw [← Except.ok.inj h, if_pos hcomment]
    exact hc
  · rw [if_neg hcomment]
    rcases hc with ⟨hg, hid, rfl⟩ | ⟨g, hg, rfl, hid⟩
    · simp only [hg] at h
      split at h
      · cases h
      · cases h
      · rw [← Except.ok.inj h]
        exact .inr ⟨_, rfl, by simp [hid], by simp [hid]⟩
    · simp only [hg] at h
      split at h
      · cases h
      · next hget =>
        have hlt := (List.getElem?_eq_some_iff.mp hget).1
        split at h
        · cases h
        · rw [← Except.ok.inj h]
          exact .inr ⟨_, rfl, rfl, by simpa [Nat.succ_le_iff] using hlt⟩

theorem Reader.Counted.foldlM {ps : List (List Char)} (hc : r.Counted c)
    (h : ps.foldlM Reader.step r = .ok r') :
    r'.Counted (c + (ps.filter fun p => !isComment (lineOf p)).length) := by
  induction ps generalizing r c with
  | nil =>
    obtain rfl : r = r' := Except.ok.inj h
    exact hc
  | cons p ps ih =>
    rw [List.foldlM_cons] at h
    cases hstep : r.step p with
    | error e =>
      rw [hstep] at h
      exact absurd h (by simp [bind, Except.bind])
    | ok r₁ =>
      rw [hstep] at h
      have hnext := ih (hc.read hstep) h
      rw [Nat.add_assoc] at hnext
      cases hcomment : isComment (lineOf p) <;> simpa [hcomment, Nat.add_comm] using hnext

/-- There is a piece for every data line, and there are more for a line that does not fit. -/
theorem dataPieces_physical (hk : 0 < k) {l t : List Char} (hp : Physical l t) (hl : '\n' ∉ l) :
    dataPieces k t = (if isComment l then 0 else 1) + dataPieces k (t.drop k) := by
  rw [dataPieces_line hk hp.ne_nil (hp.notMem hl), ← hp.isComment]
  simp

theorem length_dataLines_le (hk : 0 < k) (hts : List.Forall₂ Physical lines ts)
    (hl : ∀ l ∈ lines, '\n' ∉ l) :
    (lines.filter fun l => !isComment l).length ≤
      ((ts.flatMap (pieces (k + 1))).filter fun p => !isComment (lineOf p)).length := by
  induction hts with
  | nil => exact le_rfl
  | @cons l t lines ts hp _ ih =>
    have ih := ih fun l h => hl l (List.mem_cons_of_mem _ h)
    have hfirst := dataPieces_physical hk hp (hl l (by simp))
    rw [List.flatMap_cons, List.filter_append, List.length_append, ← dataPieces, hfirst]
    cases hc : isComment l
    · rw [List.filter_cons_of_pos (by simp [hc]), List.length_cons, if_neg (by simp)]
      omega
    · rw [List.filter_cons_of_neg (by simp [hc]), if_pos rfl]
      omega

theorem length_dataLines_lt (hk : 0 < k) (hts : List.Forall₂ Physical lines ts)
    (hl : ∀ l ∈ lines, '\n' ∉ l) (hm : ∃ t ∈ ts, ¬ Marked k t) :
    (lines.filter fun l => !isComment l).length <
      ((ts.flatMap (pieces (k + 1))).filter fun p => !isComment (lineOf p)).length := by
  induction hts with
  | nil => simp at hm
  | @cons l t lines ts hp hts ih =>
    have hl' : ∀ l ∈ lines, '\n' ∉ l := fun l h => hl l (List.mem_cons_of_mem _ h)
    have hfirst := dataPieces_physical hk hp (hl l (by simp))
    have hlater : (lines.filter fun l => !isComment l).length <
        dataPieces k (t.drop k) +
          ((ts.flatMap (pieces (k + 1))).filter fun p => !isComment (lineOf p)).length := by
      by_cases hmarked : Marked k t
      · -- then it is one of the other lines
        have hrest : ∃ t ∈ ts, ¬ Marked k t := by
          obtain ⟨t', ht', hm⟩ := hm
          rcases List.mem_cons.mp ht' with rfl | ht'
          · exact absurd hmarked hm
          · exact ⟨t', ht', hm⟩
        exact Nat.lt_add_left _ (ih hl' hrest)
      · rw [marked_iff hk (hp.notMem (hl l (by simp)))] at hmarked
        have := length_dataLines_le hk hts hl'
        omega
    rw [List.flatMap_cons, List.filter_append, List.length_append, ← dataPieces, hfirst]
    cases hc : isComment l
    · rw [List.filter_cons_of_pos (by simp [hc]), List.length_cons, if_neg (by simp)]
      omega
    · rw [List.filter_cons_of_neg (by simp [hc]), if_pos rfl]
      omega

theorem not_reads_of_not_fits (hk : 0 < k) (hw : WellFormed terminated lines n rows)
    (hm : ∃ t ∈ physicalLines terminated lines, ¬ Marked k t) :
    ¬ ReadsBack (fromGraphFile (k + 1) (fileText terminated lines)) n rows := by
  rintro ⟨g, hg, -, hvertices⟩
  rw [fromGraphFile, pieces_fileText hk hw.newline] at hg
  cases hr : ((physicalLines terminated lines).flatMap (pieces (k + 1))).foldlM Reader.step ⟨none, 0⟩ with
  | error e =>
    rw [hr] at hg
    cases hg
  | ok r =>
    rw [hr] at hg
    have hg : r.graph = some g := Except.ok.inj hg
    have hcounted : r.Counted _ := Reader.Counted.foldlM (.inl ⟨rfl, rfl, rfl⟩) hr
    have hmany := length_dataLines_lt hk (physical_lines hw.last) hw.newline hm
    obtain ⟨header, adjacency, ns, hdata, -, -, hrows⟩ := hw.data
    rw [hdata, List.length_cons, hrows.length_eq] at hmany
    rcases hcounted with ⟨hnone, -⟩ | ⟨g', hg', hcount, hid⟩
    · rw [hnone] at hg
      cases hg
    · rw [hg', Option.some.injEq] at hg
      rw [hg, hvertices, List.length_map] at hid
      omega

end Counting

/-- **Reading back a file**: `from_graph_file` reads back a well-formed file exactly if
its number of vertices is a `long`, and if `fgets` cuts its lines only before a `%`. -/
theorem reads_back_iff {bufsiz n : ℕ} {terminated : Bool} {lines : List (List Char)}
    {rows : List (List ℕ)} (hb : 2 ≤ bufsiz) (hw : WellFormed terminated lines n rows) :
    ReadsBack (fromGraphFile bufsiz (fileText terminated lines)) n rows ↔
      n ≤ longMax ∧ ∀ t ∈ physicalLines terminated lines, Marked (bufsiz - 1) t := by
  obtain ⟨k, hk, rfl⟩ : ∃ k, 0 < k ∧ bufsiz = k + 1 := ⟨bufsiz - 1, by omega, by omega⟩
  rw [Nat.add_sub_cancel]
  constructor
  · intro h
    have hm : ∀ t ∈ physicalLines terminated lines, Marked k t := by
      by_contra hm
      push Not at hm
      exact not_reads_of_not_fits hk hw hm h
    refine ⟨?_, hm⟩
    by_contra hn
    rw [fromGraphFile_of_marked hk hw hm] at h
    rcases foldlM_data hw with ⟨r, -, hle, -⟩ | ⟨-, hsize⟩
    · omega
    · obtain ⟨g, hg, hgn, -⟩ := h
      cases hr : (lines.filter fun l => !isComment l).foldlM Reader.read ⟨none, 0⟩ with
      | error e =>
        rw [hr] at hg
        cases hg
      | ok r =>
        rw [hr] at hg
        have := hsize r g hr (Except.ok.inj hg)
        rw [Graph.size] at hgn
        omega
  · rintro ⟨hn, hm⟩
    exact reads_of_fits hk hw hn hm

/-! A file with a comment and with an empty adjacency line, where `BUFSIZ` is 8192. -/

def smallFile : List (List Char) :=
  ["2 1".toList, "% none".toList, "".toList, " 1  2".toList]

theorem isNumeral_one : IsNumeral ['1'] 1 := ⟨by simp, by simp, rfl⟩

theorem wellFormed_smallFile : WellFormed true smallFile 2 [[], [1, 2]] where
  newline := by decide
  last := by decide
  data := by
    have htwo : IsNumeral ['2'] 2 := ⟨by simp, by simp, rfl⟩
    refine ⟨"2 1".toList, ["".toList, " 1  2".toList], [1], by decide, ?_, by decide, ?_⟩
    · exact .cons htwo (.last isNumeral_one)
    · exact .cons .nil (.cons (.space (.cons isNumeral_one (.space (.last htwo)))) .nil)
  pos := by decide
  count := rfl
  ids := by decide

theorem marked_of_length_le {k : ℕ} {t : List Char} (ht : t.length ≤ k) : Marked k t := by
  intro i hi hlt
  have := Nat.le_mul_of_pos_left k hi
  omega

theorem reads_back_smallFile :
    ReadsBack (fromGraphFile 8192 (fileText true smallFile)) 2 [[], [1, 2]] := by
  refine (reads_back_iff (by decide) wellFormed_smallFile).mpr ⟨by decide, fun t ht => ?_⟩
  have hlen : ∀ t ∈ physicalLines true smallFile, t.length ≤ 8191 := by decide
  exact marked_of_length_le (hlen t ht)

/-! An adjacency line of 8192 characters. -/

/-- `m` times the id of the only vertex. -/
def longRow (m : ℕ) : List Char := (List.replicate m ['1', ' ']).flatten

theorem numberLine_longRow (m : ℕ) : NumberLine (longRow m) (List.replicate m 1) := by
  induction m with
  | zero => exact .nil
  | succ m ih => exact .cons isNumeral_one ih

theorem length_longRow (m : ℕ) : (longRow m).length = 2 * m := by
  induction m with
  | zero => rfl
  | succ m ih =>
    rw [longRow, List.replicate_succ, List.flatten_cons, List.length_append, ← longRow, ih]
    simp
    omega

theorem wellFormed_longRow (m : ℕ) :
    WellFormed true [['1'], longRow m] 1 [List.replicate m 1] where
  newline := by
    intro l hl hmem
    have hchar : l = ['1'] ∨ l = longRow m := by simpa using hl
    rcases hchar with rfl | rfl
    · exact absurd hmem (by decide)
    · rcases (numberLine_longRow m).chars _ hmem with h | h <;> exact absurd h (by decide)
  last h := by cases h
  data := by
    refine ⟨['1'], [longRow m], [], ?_, .last isNumeral_one, by simp,
      .cons (numberLine_longRow m) .nil⟩
    rw [List.filter_cons_of_pos (by decide),
      List.filter_cons_of_pos (by simp [isComment_numberLine (numberLine_longRow m)]),
      List.filter_nil]
  pos := le_rfl
  count := rfl
  ids := by
    intro row hrow i hi
    obtain rfl := List.mem_singleton.mp hrow
    obtain rfl := List.eq_of_mem_replicate hi
    exact ⟨le_rfl, le_rfl⟩

theorem not_reads_back_longRow :
    ¬ ∀ (terminated : Bool) (lines : List (List Char)) (n : ℕ) (rows : List (List ℕ)),
      WellFormed terminated lines n rows →
        ReadsBack (fromGraphFile 8192 (fileText terminated lines)) n rows := by
  intro h
  refine not_reads_of_not_fits (k := 8191) (by decide) (wellFormed_longRow 4096)
    ⟨longRow 4096 ++ ['\n'], by simp [physicalLines], fun hm => ?_⟩ (h _ _ _ _ (wellFormed_longRow 4096))
  have hlen := length_longRow 4096
  have hget := hm 1 Nat.one_pos (by rw [List.length_append, hlen]; decide)
  rw [List.getElem?_append_left (by rw [hlen]; decide)] at hget
  exact ((numberLine_longRow 4096).plain '%' (List.mem_of_getElem? hget)).1 rfl

end Bfs

/-
Sizes with a unit, in pages (`human_size_to_pages` in `util/malloc.cc`).

A string is the list of its characters, without the terminating zero.  The number is read from
all characters but the last one, whether or not this is a unit.

* `strtol_dropLast` — what is read when the last digit is missing;
* `humanSizeToPages_iff` — when the result is the number of pages.
-/
import Scal.GraphFile
import Mathlib.Algebra.Group.Nat.Defs
import Mathlib.Order.Bounds.Basic

namespace Malloc

/-! ### The program -/

/-- `strtol`, in base ten and as a `uint64_t`. -/
def strtol (s : List Char) : ℕ := Bfs.atol s

/-- The `switch` on the last character. -/
def multiplier (c : Char) : ℕ :=
  if c = 'k' ∨ c = 'K' then 1024
  else if c = 'm' ∨ c = 'M' then 1024 * 1024
  else if c = 'g' ∨ c = 'G' then 1024 * 1024 * 1024
  else 1

/-- `hsize[i]`, where the characters are followed by a zero. -/
def charAt (hsize : List Char) (i : ℕ) : Char := (hsize[i]?).getD '\x00'

/-- `none` when the call aborts. -/
def humanSizeToPages (hsize : List Char) (len : ℕ) : Option ℕ :=
  if charAt hsize len ≠ '\x00' then none
  else
    let newstr := hsize.take (len - 1)
    let val := strtol newstr
    if val = 0 then none
    else
      let bytes := val * multiplier (charAt hsize (len - 1)) % wordSize
      if bytes % 4096 = 0 then some (bytes / 4096) else some (bytes / 4096 + 1)

/-! ### Size strings -/

/-- A numeral of the value `v`, alone or with a unit of `m` bytes. -/
inductive SizeString : List Char → ℕ → ℕ → Prop
  | plain {w : List Char} {v : ℕ} : Bfs.IsNumeral w v → SizeString w v 1
  | unit {w : List Char} {v : ℕ} {c : Char} : Bfs.IsNumeral w v →
      c ∈ ['k', 'K', 'm', 'M', 'g', 'G'] → SizeString (w ++ [c]) v (multiplier c)

/-- The result is the number of pages for so many bytes. -/
def Pages (r : Option ℕ) (bytes : ℕ) : Prop := ∃ p, r = some p ∧ IsLeast {p | bytes ≤ p * 4096} p

section Size

variable {w s : List Char} {v m n : ℕ} {c : Char}

theorem multiplier_unit (hc : c ∈ ['k', 'K', 'm', 'M', 'g', 'G']) : 1024 ≤ multiplier c := by
  simp only [List.mem_cons, List.not_mem_nil, or_false] at hc
  rcases hc with rfl | rfl | rfl | rfl | rfl | rfl <;> decide

theorem multiplier_digit (hc : c.isDigit = true) : multiplier c = 1 := by
  have hne : ∀ d ∈ ['k', 'K', 'm', 'M', 'g', 'G'], c ≠ d := by
    have hall : ∀ d ∈ ['k', 'K', 'm', 'M', 'g', 'G'], d.isDigit = false := by simp
    rintro d hd rfl
    rw [hall c hd] at hc
    cases hc
  rw [multiplier, if_neg, if_neg, if_neg]
  · exact fun h => h.elim (hne 'g' (by decide)) (hne 'G' (by decide))
  · exact fun h => h.elim (hne 'm' (by decide)) (hne 'M' (by decide))
  · exact fun h => h.elim (hne 'k' (by decide)) (hne 'K' (by decide))

theorem charAt_length (s : List Char) : charAt s s.length = '\x00' := by
  rw [charAt, List.getElem?_eq_none le_rfl]
  rfl

theorem charAt_last (w : List Char) (c : Char) :
    charAt (w ++ [c]) ((w ++ [c]).length - 1) = c := by
  rw [charAt, List.length_append, List.length_singleton, Nat.add_sub_cancel,
    List.getElem?_append_right le_rfl, Nat.sub_self]
  rfl

theorem take_last (w : List Char) (c : Char) : (w ++ [c]).take ((w ++ [c]).length - 1) = w := by
  rw [List.length_append, List.length_singleton, Nat.add_sub_cancel, List.take_left']
  rfl

/-- The function on a string whose last character is `c`. -/
theorem humanSizeToPages_snoc (w : List Char) (c : Char) :
    humanSizeToPages (w ++ [c]) (w ++ [c]).length =
      if strtol w = 0 then none
      else if strtol w * multiplier c % wordSize % 4096 = 0 then
        some (strtol w * multiplier c % wordSize / 4096)
      else some (strtol w * multiplier c % wordSize / 4096 + 1) := by
  rw [humanSizeToPages, if_neg (not_not.mpr (charAt_length _))]
  dsimp only
  rw [take_last, charAt_last]

/-- Rounding up gives the smallest number of pages. -/
theorem pages_iff (h0 : strtol w ≠ 0) (hfit : strtol w * multiplier c < wordSize) :
    Pages (humanSizeToPages (w ++ [c]) (w ++ [c]).length) n ↔
      ∀ p, n ≤ p * 4096 ↔ strtol w * multiplier c ≤ p * 4096 := by
  rw [humanSizeToPages_snoc, if_neg h0, Nat.mod_eq_of_lt hfit]
  generalize strtol w * multiplier c = bytes
  set r := if bytes % 4096 = 0 then bytes / 4096 else bytes / 4096 + 1 with hr
  have hsome : (if bytes % 4096 = 0 then some (bytes / 4096) else some (bytes / 4096 + 1)) =
      some r := by
    rw [hr]
    split_ifs
    · rfl
    · rfl
  have hle : ∀ p, bytes ≤ p * 4096 ↔ r ≤ p := by
    intro p
    rw [hr]
    split_ifs
    · omega
    · omega
  rw [hsome, Pages]
  clear_value r
  constructor
  · rintro ⟨p, hp, hmem, hlow⟩ q
    obtain rfl := Option.some.inj hp
    rw [Set.mem_ofPred_eq] at hmem
    rw [hle]
    refine ⟨fun hq => hlow hq, fun hq => ?_⟩
    exact hmem.trans (Nat.mul_le_mul_right 4096 hq)
  · intro h
    exact ⟨r, rfl, (h r).mpr ((hle r).mpr le_rfl), fun q hq => (hle q).mp ((h q).mp hq)⟩

/-! ### The number that is read -/

theorem digits_snoc (hw : ∀ d ∈ w, d.isDigit = true) (hc : c.isDigit = true) :
    ∀ k, Bfs.digits k (w ++ [c]) = 10 * Bfs.digits k w + (c.toNat - '0'.toNat) := by
  induction w with
  | nil =>
    intro k
    show (if c.isDigit = true then Bfs.digits _ [] else k) = _
    rw [if_pos hc]
    rfl
  | cons d w ih =>
    intro k
    have hd : d.isDigit = true := hw d List.mem_cons_self
    rw [List.cons_append, Bfs.digits, if_pos hd, Bfs.digits, if_pos hd,
      ih fun e he => hw e (List.mem_cons_of_mem _ he)]

theorem digit_lt (hc : c.isDigit = true) : c.toNat - '0'.toNat < 10 := by
  rw [Char.isDigit, Bool.and_eq_true, decide_eq_true_eq, decide_eq_true_eq] at hc
  have h : c.toNat ≤ '9'.toNat := hc.2
  have h9 : '9'.toNat = 57 := rfl
  have h0 : '0'.toNat = 48 := rfl
  omega

theorem strtol_numeral (hw : Bfs.IsNumeral w v) (hv : v ≤ Bfs.longMax) : strtol w = v := by
  rw [strtol, Bfs.atol_numeral hw, Nat.min_eq_left hv]

/-- Without its last digit, a numeral has a tenth of its value. -/
theorem strtol_dropLast (hw : Bfs.IsNumeral (w ++ [c]) v) (hv : v ≤ Bfs.longMax) :
    strtol w = v / 10 := by
  obtain ⟨-, hd, rfl⟩ := hw
  have hwd : ∀ d ∈ w, d.isDigit = true := fun d h => hd d (List.mem_append_left _ h)
  have hc : c.isDigit = true := hd c (by simp)
  have hlt := digit_lt hc
  rw [digits_snoc hwd hc] at hv ⊢
  have hdiv : (10 * Bfs.digits 0 w + (c.toNat - '0'.toNat)) / 10 = Bfs.digits 0 w := by
    omega
  rw [hdiv]
  by_cases hne : w = []
  · subst hne
    rfl
  · exact strtol_numeral ⟨hne, hwd, rfl⟩ (by omega)

end Size

/-- **The result is the number of pages** just if there is a unit, or the number is from ten up
to the size of a page. -/
theorem humanSizeToPages_iff (s : List Char) (v m : ℕ) (hs : SizeString s v m) (hv : 1 ≤ v)
    (hlong : v < 2 ^ 63) (hfit : v * m < wordSize) :
    Pages (humanSizeToPages s s.length) (v * m) ↔ m ≠ 1 ∨ 10 ≤ v ∧ v ≤ 4096 := by
  have hmax : v ≤ Bfs.longMax := Nat.le_of_lt_succ hlong
  cases hs with
  | @unit w _ c hw hc =>
    have hm := multiplier_unit hc
    have hval := strtol_numeral hw hmax
    rw [pages_iff (by omega) (hval ▸ hfit), hval]
    exact ⟨fun _ => Or.inl (by omega), fun _ _ => Iff.rfl⟩
  | plain hw =>
    obtain ⟨w, c, rfl⟩ : ∃ w c, s = w ++ [c] :=
      ⟨_, _, (List.dropLast_append_getLast hw.1).symm⟩
    have hc : multiplier c = 1 := multiplier_digit (hw.2.1 c (by simp))
    have hval := strtol_dropLast hw hmax
    by_cases h10 : 10 ≤ v
    · have h0 : strtol w ≠ 0 := by
        rw [hval]
        omega
      rw [pages_iff h0 (by rw [hval, hc]; omega), hval, hc]
      constructor
      · -- at the last page of the smaller number
        intro h
        have h1 := (h ((v / 10 * 1 + 4095) / 4096)).mpr (by omega)
        exact Or.inr ⟨h10, by omega⟩
      · rintro (h | ⟨-, h⟩) p
        · exact absurd rfl h
        · cases p with
          | zero => omega
          | succ p => omega
    · constructor
      · rintro ⟨p, hp, -⟩
        rw [humanSizeToPages_snoc, if_pos (by rw [hval]; omega)] at hp
        cases hp
      · rintro (h | ⟨h, -⟩)
        · exact absurd rfl h
        · exact absurd h h10

theorem humanSizeToPages_iff_oneGig :
    Pages (humanSizeToPages ['1', 'g'] 2) (1 * (1024 * 1024 * 1024)) ↔
      1024 * 1024 * 1024 ≠ 1 ∨ 10 ≤ 1 ∧ 1 ≤ 4096 :=
  humanSizeToPages_iff ['1', 'g'] 1 (1024 * 1024 * 1024) (.unit Bfs.isNumeral_one (by decide))
    (by decide) (by decide) (by decide)

/-- `"8192"` is read as 819, which is one page instead of two. -/
theorem not_pages_plain :
    SizeString ['8', '1', '9', '2'] 8192 1 ∧ humanSizeToPages ['8', '1', '9', '2'] 4 = some 1 ∧
      ¬ Pages (humanSizeToPages ['8', '1', '9', '2'] 4) (8192 * 1) := by
  have heval : humanSizeToPages ['8', '1', '9', '2'] 4 = some 1 := by decide
  refine ⟨.plain ⟨by decide, by simp, by decide⟩, heval, ?_⟩
  rw [heval]
  rintro ⟨p, hp, hle, -⟩
  cases hp
  exact absurd hle (by decide)

end Malloc

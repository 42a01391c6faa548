/-
Words with two fields.

The `k` lowest bits of a word hold one number, and the other bits another one.  A field is read
by a mask or by a shift, and it is replaced by clearing its bits and putting in the new ones.

* `Holds` — the two fields of a word;
* `Holds.and_low`, `Holds.and_high`, `Holds.shiftRight` — reading a field;
* `Holds.set_low`, `Holds.set_high` — replacing a field, which leaves the other one.
-/
import Mathlib.Algebra.Group.Nat.Defs
import Mathlib.Tactic.Common

namespace WordFields

/-- The bits of `x` from `k` on are `hi`, and the lower ones are `lo`. -/
structure Holds {w : ℕ} (k : ℕ) (x : BitVec w) (hi lo : ℕ) : Prop where
  toNat : x.toNat = 2 ^ k * hi + lo
  lt : lo < 2 ^ k

/-- A mask of the bits below `k`. -/
def IsLow {w : ℕ} (k : ℕ) (m : BitVec w) : Prop := m.toNat = 2 ^ k - 1

/-- A mask of the bits from `k` on. -/
def IsHigh {w : ℕ} (k : ℕ) (m : BitVec w) : Prop := m.toNat = 2 ^ k * (2 ^ (w - k) - 1)

variable {w k hi lo hi' lo' : ℕ} {x y m : BitVec w}

theorem Holds.eq_iff (hx : Holds k x hi lo) (hy : Holds k y hi' lo') :
    x = y ↔ hi = hi' ∧ lo = lo' := by
  have hpos : 0 < 2 ^ k := Nat.two_pow_pos k
  rw [← BitVec.toNat_inj, hx.toNat, hy.toNat]
  constructor
  · intro h
    have hdiv := congrArg (· / 2 ^ k) h
    have hmod := congrArg (· % 2 ^ k) h
    simp only [Nat.mul_add_div hpos, Nat.mul_add_mod, Nat.div_eq_of_lt hx.lt,
      Nat.div_eq_of_lt hy.lt, Nat.mod_eq_of_lt hx.lt, Nat.mod_eq_of_lt hy.lt,
      Nat.add_zero] at hdiv hmod
    exact ⟨hdiv, hmod⟩
  · rintro ⟨rfl, rfl⟩
    rfl

/-- The upper field has the bits of the word that are left. -/
theorem Holds.hi_lt (hx : Holds k x hi lo) (hk : k ≤ w) : hi < 2 ^ (w - k) := by
  have hlt := x.isLt
  have hsplit : 2 ^ w = 2 ^ k * 2 ^ (w - k) := by rw [← Nat.pow_add, Nat.add_sub_cancel' hk]
  rw [hx.toNat, hsplit] at hlt
  exact Nat.lt_of_mul_lt_mul_left (Nat.lt_of_le_of_lt (Nat.le_add_right _ _) hlt)

theorem Holds.and_low (hx : Holds k x hi lo) (hm : IsLow k m) : (x &&& m).toNat = lo := by
  rw [BitVec.toNat_and, hm, Nat.and_two_pow_sub_one_eq_mod, hx.toNat, Nat.mul_add_mod,
    Nat.mod_eq_of_lt hx.lt]

theorem Holds.and_high (hx : Holds k x hi lo) (hk : k ≤ w) (hm : IsHigh k m) :
    (x &&& m).toNat = 2 ^ k * hi := by
  have hhi := hx.hi_lt hk
  rw [BitVec.toNat_and, hm, hx.toNat]
  refine Nat.eq_of_testBit_eq fun j => ?_
  rw [Nat.testBit_and, Nat.testBit_two_pow_mul_add _ hx.lt, Nat.testBit_two_pow_mul,
    Nat.testBit_two_pow_mul, Nat.testBit_two_pow_sub_one]
  by_cases hj : j < k
  · simp [Nat.not_le_of_lt hj]
  · rw [if_neg hj]
    by_cases hb : j - k < w - k
    · simp [Nat.le_of_not_lt hj, hb]
    · have hzero : hi.testBit (j - k) = false := Nat.testBit_lt_two_pow
        (Nat.lt_of_lt_of_le hhi (Nat.pow_le_pow_right (by decide) (Nat.le_of_not_lt hb)))
      simp [hzero]

theorem Holds.shiftRight (hx : Holds k x hi lo) : (x >>> k).toNat = hi := by
  rw [BitVec.toNat_ushiftRight, Nat.shiftRight_eq_div_pow, hx.toNat,
    Nat.mul_add_div (Nat.two_pow_pos k), Nat.div_eq_of_lt hx.lt, Nat.add_zero]

/-- The two fields put together. -/
theorem holds_or (hx : x.toNat = 2 ^ k * hi) (hy : y.toNat = lo) (hlo : lo < 2 ^ k) :
    Holds k (x ||| y) hi lo :=
  ⟨by rw [BitVec.toNat_or, hx, hy, Nat.two_pow_add_eq_or_of_lt hlo], hlo⟩

/-- Replacing the lower field. -/
theorem Holds.set_low (hx : Holds k x hi lo) (hk : k ≤ w) (hm : IsHigh k m) (hy : y.toNat = lo')
    (hlo : lo' < 2 ^ k) : Holds k (x &&& m ||| y) hi lo' :=
  holds_or (hx.and_high hk hm) hy hlo

/-- Replacing the upper field. -/
theorem Holds.set_high (hx : Holds k x hi lo) (hm : IsLow k m) (hy : y.toNat = 2 ^ k * hi') :
    Holds k (x &&& m ||| y) hi' lo := by
  rw [BitVec.or_comm]
  exact holds_or hy (hx.and_low hm) hx.lt

theorem holds_zero : Holds k (0 : BitVec w) 0 0 := ⟨rfl, Nat.two_pow_pos k⟩

/-- A number that is shifted to the upper field. -/
theorem toNat_shiftLeft_of_lt (h : x.toNat < 2 ^ (w - k)) (hk : k ≤ w) :
    (x <<< k).toNat = 2 ^ k * x.toNat := by
  have hsplit : 2 ^ w = 2 ^ k * 2 ^ (w - k) := by rw [← Nat.pow_add, Nat.add_sub_cancel' hk]
  rw [BitVec.toNat_shiftLeft, Nat.shiftLeft_eq, Nat.mul_comm, hsplit, Nat.mod_eq_of_lt]
  exact Nat.mul_lt_mul_of_pos_left h (Nat.two_pow_pos k)

end WordFields

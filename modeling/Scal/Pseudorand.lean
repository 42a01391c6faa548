/-
The pseudorandom numbers of a thread (`util/random.cc`, `util/threadlocals.h`).

`pseudorand` is Lehmer's generator with multiplier 16807 modulo the prime `2^31 - 1`, in 32-bit
arithmetic by Schrage's method.

* `pow_mul_ne` — the powers of an element do not repeat before its order;
* `orderOf_kA` — the multiplier is a primitive root;
* `pseudorand_eq` — one call multiplies the seed;
* `pseudorand_lehmer` — so the numbers are those of the generator, and have its period.
-/
import Mathlib.NumberTheory.LucasPrimality
import Mathlib.Tactic.NormNum.Prime
import Mathlib.Tactic.ReduceModChar

namespace Pseudorand

/-! ### The program -/

def kA : ℤ := 16807

def kM : ℤ := 2147483647

def kQ : ℤ := 127773

def kR : ℤ := 2836

/-- Conversions between integer types are modulo a power of two. -/
def uint32 (x : ℤ) : ℤ := x % 2 ^ 32

def int32 (x : ℤ) : ℤ := (x + 2 ^ 31) % 2 ^ 32 - 2 ^ 31

def uint64 (x : ℤ) : ℕ := (x % 2 ^ 64).toNat

/-- `set_random_seed`; `random_seed_` is an `int32_t`. -/
def setRandomSeed (seed : ℤ) : ℤ := int32 (uint32 seed)

/-- The number returned, and the new `random_seed_`. -/
def pseudorand (randomSeed : ℤ) : ℕ × ℤ :=
  let seed := randomSeed
  let hi := uint32 seed / kQ
  let lo := uint32 seed % kQ
  let seed := int32 (uint32 (kA * lo - kR * hi))
  let seed := if seed < 0 then int32 (uint32 (uint32 seed + kM)) else seed
  (uint64 seed, setRandomSeed seed)

/-- `random_seed_` after `n` calls, when it was set to `s`. -/
def randomSeed (s : ℕ) : ℕ → ℤ
  | 0 => setRandomSeed s
  | n + 1 => (pseudorand (randomSeed s n)).2

/-- What the `n`-th call returns, counted from one. -/
def drawn (s n : ℕ) : ℕ := (pseudorand (randomSeed s (n - 1))).1

/-! ### Powers modulo a prime -/

section Powers

variable {F : Type} [Field F] {a s : F} {i j : ℕ}

theorem pow_mul_ne (ha : a ≠ 0) (hs : s ≠ 0) (hij : i < j) (hj : j < i + orderOf a) :
    a ^ i * s ≠ a ^ j * s := by
  intro h
  have hpow : a ^ i * 1 = a ^ i * a ^ (j - i) := by
    rw [mul_one, ← pow_add, Nat.add_sub_cancel' hij.le]
    exact mul_right_cancel₀ hs h
  have hone : a ^ (j - i) = 1 := (mul_left_cancel₀ (pow_ne_zero i ha) hpow).symm
  have hle : orderOf a ≤ j - i :=
    Nat.le_of_dvd (Nat.sub_pos_of_lt hij) (orderOf_dvd_of_pow_eq_one hone)
  omega

end Powers

/-! ### The multiplier -/

theorem pow_kA : (16807 : ZMod 2147483647) ^ 2147483646 = 1 := by reduce_mod_char

theorem kA_ne_zero : (16807 : ZMod 2147483647) ≠ 0 := by decide

/-- The primes that divide `2^31 - 2`. -/
theorem prime_dvd {q : ℕ} (hq : q.Prime) (h : q ∣ 2147483646) :
    q ∈ [2, 3, 7, 11, 31, 151, 331] := by
  have hprod : 2147483646 = 2 * 3 * 3 * 7 * 11 * 31 * 151 * 331 := by norm_num
  have heq : ∀ {p : ℕ}, p.Prime → q ∣ p → q = p :=
    fun hp => (Nat.prime_dvd_prime_iff_eq hq hp).mp
  rw [hprod] at h
  simp only [hq.dvd_mul] at h
  rcases h with ((((((h | h) | h) | h) | h) | h) | h) | h
  · simp [heq (by norm_num) h]
  · simp [heq (by norm_num) h]
  · simp [heq (by norm_num) h]
  · simp [heq (by norm_num) h]
  · simp [heq (by norm_num) h]
  · simp [heq (by norm_num) h]
  · simp [heq (by norm_num) h]
  · simp [heq (by norm_num) h]

theorem pow_kA_div {q : ℕ} (hq : q.Prime) (h : q ∣ 2147483646) :
    (16807 : ZMod 2147483647) ^ (2147483646 / q) ≠ 1 := by
  have hmem := prime_dvd hq h
  simp only [List.mem_cons, List.not_mem_nil, or_false] at hmem
  rcases hmem with rfl | rfl | rfl | rfl | rfl | rfl | rfl
  · norm_num
    reduce_mod_char
    decide
  · norm_num
    reduce_mod_char
    decide
  · norm_num
    reduce_mod_char
    decide
  · norm_num
    reduce_mod_char
    decide
  · norm_num
    reduce_mod_char
    decide
  · norm_num
    reduce_mod_char
    decide
  · norm_num
    reduce_mod_char
    decide

theorem prime_kM : Nat.Prime 2147483647 :=
  lucas_primality 2147483647 16807 pow_kA fun _ => pow_kA_div

/-- **The multiplier is a primitive root.** -/
theorem orderOf_kA : orderOf (16807 : ZMod 2147483647) = 2147483646 :=
  orderOf_eq_of_pow_and_pow_div_prime (by norm_num) pow_kA fun _ => pow_kA_div

/-! ### Schrage's method -/

theorem int32_uint32 {x : ℤ} (h : -2 ^ 31 ≤ x) (h' : x < 2 ^ 31) : int32 (uint32 x) = x := by
  rw [int32, uint32]
  omega

theorem uint64_eq {x : ℤ} (h : 0 ≤ x) (h' : x < 2 ^ 64) : uint64 x = x.toNat := by
  rw [uint64, Int.emod_eq_of_lt h h']

/-- All intermediate results are 32-bit numbers. -/
theorem pseudorand_eq {s : ℤ} (h0 : 0 ≤ s) (hs : s < 2 ^ 32) :
    pseudorand (setRandomSeed s) = ((kA * s % kM).toNat, kA * s % kM) := by
  have hseed : uint32 (setRandomSeed s) = s := by
    rw [setRandomSeed, uint32, int32, uint32]
    omega
  rw [pseudorand, hseed]
  have hdiv : s = 127773 * (s / kQ) + s % kQ := (Int.mul_ediv_add_emod s kQ).symm
  have hlo0 : 0 ≤ s % kQ := Int.emod_nonneg s (by decide)
  have hlo1 : s % kQ < 127773 := Int.emod_lt_of_pos s (by decide)
  generalize s / kQ = hi, s % kQ = lo at *
  have hx : int32 (uint32 (kA * lo - kR * hi)) = 16807 * lo - 2836 * hi :=
    int32_uint32 (by rw [kA, kR]; omega) (by rw [kA, kR]; omega)
  have hret : ∀ {r : ℤ}, r = 16807 * s % 2147483647 →
      (uint64 r, setRandomSeed r) = ((kA * s % kM).toNat, kA * s % kM) := by
    intro r hr
    have h0 : 0 ≤ r := by omega
    have h1 : r < 2147483647 := by omega
    rw [uint64_eq h0 (by omega), setRandomSeed, int32_uint32 (by omega) (by omega), hr, kA, kM]
  rw [hx]
  -- the product is congruent to the difference, which is in between `-kM` and `kM`
  by_cases hneg : 16807 * lo - 2836 * hi < 0
  · rw [if_pos hneg]
    refine hret ?_
    have hsum : uint32 (uint32 (16807 * lo - 2836 * hi) + kM) =
        uint32 (16807 * lo - 2836 * hi + 2147483647) := Int.emod_add_emod ..
    rw [hsum, int32_uint32 (by omega) (by omega)]
    omega
  · rw [if_neg hneg]
    refine hret ?_
    omega

/-! ### The numbers drawn -/

/-- The seed is a power of the multiplier times `s`, also while it is not reduced yet. -/
theorem randomSeed_eq {s : ℕ} (hs : s < 2 ^ 32) (n : ℕ) :
    ∃ x : ℕ, x < 2 ^ 32 ∧ randomSeed s n = setRandomSeed x ∧
      x % 2147483647 = 16807 ^ n * s % 2147483647 := by
  induction n with
  | zero => exact ⟨s, hs, rfl, by rw [pow_zero, one_mul]⟩
  | succ n ih =>
    obtain ⟨x, hx, hseed, hmod⟩ := ih
    refine ⟨16807 * x % 2147483647, by omega, ?_, ?_⟩
    · have hcast : ((16807 * x % 2147483647 : ℕ) : ℤ) = kA * x % kM := by
        rw [kA, kM]
        push_cast
        rfl
      have hlt : 16807 * x % 2147483647 < 2147483647 := Nat.mod_lt _ (by norm_num)
      rw [randomSeed, hseed, pseudorand_eq (by omega) (by omega), setRandomSeed,
        int32_uint32 (by omega) (by omega), hcast]
    · rw [Nat.mod_mod, Nat.mul_mod, hmod, ← Nat.mul_mod, pow_succ', mul_assoc]

theorem drawn_succ {s : ℕ} (hs : s < 2 ^ 32) (n : ℕ) :
    drawn s (n + 1) = 16807 ^ (n + 1) * s % 2147483647 := by
  obtain ⟨x, hx, hseed, hmod⟩ := randomSeed_eq hs n
  have hnat : drawn s (n + 1) = 16807 * x % 2147483647 := by
    rw [drawn, Nat.add_sub_cancel, hseed, pseudorand_eq (by omega) (by omega), kA, kM]
    omega
  rw [hnat, Nat.mul_mod, hmod, ← Nat.mul_mod, pow_succ', mul_assoc]

theorem drawn_eq {s n : ℕ} (hs : s < 2 ^ 32) (hn : 1 ≤ n) :
    drawn s n = 16807 ^ n * s % 2147483647 := by
  obtain ⟨m, rfl⟩ : ∃ m, n = m + 1 := ⟨n - 1, by omega⟩
  exact drawn_succ hs m

/-- **The numbers are those of Lehmer's generator**, which are below its modulus, and neither
zero nor repeated within its period if the seed is not a multiple of the modulus. -/
theorem pseudorand_lehmer (s : ℕ) (hs : s < 2 ^ 32) :
    (∀ n, 1 ≤ n → drawn s n = 16807 ^ n * s % 2147483647) ∧
    (∀ n, 1 ≤ n → drawn s n ≤ 2147483646) ∧
    (¬ 2147483647 ∣ s → (∀ n, 1 ≤ n → drawn s n ≠ 0) ∧
      ∀ i j, 1 ≤ i → i < j → j < i + 2147483646 → drawn s i ≠ drawn s j) := by
  have : Fact (Nat.Prime 2147483647) := ⟨prime_kM⟩
  refine ⟨fun n hn => drawn_eq hs hn, fun n hn => ?_, fun hdvd => ⟨fun n hn h0 => ?_,
    fun i j hi hij hj h => ?_⟩⟩
  · have := drawn_eq hs hn
    omega
  · rw [drawn_eq hs hn] at h0
    rcases (Nat.Prime.dvd_mul prime_kM).mp (Nat.dvd_of_mod_eq_zero h0) with h | h
    · have hbase := prime_kM.dvd_of_dvd_pow h
      exact absurd (Nat.le_of_dvd (by norm_num) hbase) (by norm_num)
    · exact hdvd h
  · have hs0 : (s : ZMod 2147483647) ≠ 0 := by
      rwa [Ne, ZMod.natCast_eq_zero_iff]
    rw [drawn_eq hs hi, drawn_eq hs (hi.trans hij.le), ← ZMod.natCast_eq_natCast_iff'] at h
    push_cast at h
    exact pow_mul_ne kA_ne_zero hs0 hij (orderOf_kA ▸ hj) h

theorem pseudorand_lehmer_one :
    (∀ n, 1 ≤ n → drawn 1 n = 16807 ^ n * 1 % 2147483647) ∧
    (∀ n, 1 ≤ n → drawn 1 n ≤ 2147483646) ∧
    (¬ 2147483647 ∣ 1 → (∀ n, 1 ≤ n → drawn 1 n ≠ 0) ∧
      ∀ i j, 1 ≤ i → i < j → j < i + 2147483646 → drawn 1 i ≠ drawn 1 j) :=
  pseudorand_lehmer 1 (by norm_num)

/-- A seed that is negative as an `int32_t`. -/
example : drawn 4294967295 1 = 16807 % 2147483647 := by decide

end Pseudorand

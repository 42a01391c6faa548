/-
The bitmap of 256 bits (`util/bitmap.h`).

`set` shifts a `1u`, whatever the word, and so does `isset` but for the first word.  A shift of
32 bits takes its count modulo 32, so that two indices of a word that differ by 32 share a bit.

* `Represents` — the bits of the words, for the indices that were set;
* `Bitmap256.sound_iff` — when the answers about an index are right.
-/
import Mathlib.Data.Nat.Notation
import Mathlib.Tactic.Common

/-! ### The program -/

/-- `Bitmap256`. -/
structure Bitmap256 where
  map1 : BitVec 64
  map2 : BitVec 64
  map3 : BitVec 64
  map4 : BitVec 64
  deriving DecidableEq

namespace Bitmap256

/-- `1u << count`, as an operand of 64 bits. -/
def bit32 (count : ℕ) : BitVec 64 := (1#32 <<< (count % 32)).setWidth 64

/-- `1ul << count`. -/
def bit64 (count : ℕ) : BitVec 64 := 1#64 <<< (count % 64)

/-- `reset`, which the constructor calls. -/
def reset : Bitmap256 := ⟨0, 0, 0, 0⟩

def set (m : Bitmap256) (index : UInt8) : Bitmap256 :=
  if index.toNat < 64 then { m with map1 := m.map1 ||| bit32 index.toNat }
  else if index.toNat < 128 then { m with map2 := m.map2 ||| bit32 (index.toNat - 64) }
  else if index.toNat < 192 then { m with map3 := m.map3 ||| bit32 (index.toNat - 128) }
  else { m with map4 := m.map4 ||| bit32 (index.toNat - 192) }

def someset (m : Bitmap256) : Bool :=
  if 0 < m.map1 ∨ 0 < m.map2 ∨ 0 < m.map3 ∨ 0 < m.map4 then true else false

def isset (m : Bitmap256) (index : UInt8) : Bool :=
  if index.toNat < 64 ∧ m.map1 &&& bit64 index.toNat ≠ 0 then true
  else if 64 ≤ index.toNat ∧ index.toNat < 128 ∧ m.map2 &&& bit32 (index.toNat - 64) ≠ 0 then true
  else if 128 ≤ index.toNat ∧ index.toNat < 192 ∧ m.map3 &&& bit32 (index.toNat - 128) ≠ 0 then
    true
  else if 192 ≤ index.toNat ∧ m.map4 &&& bit32 (index.toNat - 192) ≠ 0 then true
  else false

/-- A call that changes the bitmap. -/
inductive Call where
  | reset
  | set (index : UInt8)
  deriving DecidableEq

def Call.run (m : Bitmap256) : Call → Bitmap256
  | .reset => Bitmap256.reset
  | .set index => m.set index

/-- A new bitmap after some calls. -/
def run (calls : List Call) : Bitmap256 := calls.foldl Call.run reset

/-! ### The set -/

/-- The indices that were set since the last `reset`, `s` being those set before. -/
def Call.indices (s : List UInt8) : Call → List UInt8
  | .reset => []
  | .set index => index :: s

def sinceReset (calls : List Call) : List UInt8 := calls.foldl Call.indices []

/-- The answer about index `j` is that of the set, and so is that about emptiness. -/
def Sound (calls : List Call) (j : UInt8) : Prop :=
  ((run calls).isset j = true ↔ j ∈ sinceReset calls) ∧
    ((run calls).someset = true ↔ sinceReset calls ≠ [])

/-- The other index of the same word that is equal modulo 32. -/
def twin (j : UInt8) : UInt8 := if j.toNat % 64 < 32 then j + 32 else j - 32

/-! ### Bits -/

section Bits

variable {m : Bitmap256} {s : List UInt8} {x : BitVec 64} {i j : UInt8} {k b c : ℕ}

theorem bit32_eq (count : ℕ) : bit32 count = BitVec.twoPow 64 (count % 32) := by
  have hlt : count % 32 < 32 := Nat.mod_lt _ (by decide)
  refine BitVec.eq_of_getLsbD_eq fun b hb => ?_
  rw [bit32, BitVec.getLsbD_setWidth, ← BitVec.twoPow_eq, BitVec.getLsbD_twoPow,
    BitVec.getLsbD_twoPow]
  simp only [hb, hlt, decide_true, Bool.true_and, decide_eq_true (show count % 32 < 64 by omega)]

theorem bit64_eq (hc : c < 64) : bit64 c = BitVec.twoPow 64 c := by
  rw [bit64, Nat.mod_eq_of_lt hc, BitVec.twoPow_eq]

theorem and_twoPow_ne_zero (hb : b < 64) :
    x &&& BitVec.twoPow 64 b ≠ 0 ↔ x.getLsbD b = true := by
  rw [BitVec.and_twoPow]
  split_ifs with h
  · refine iff_of_true (fun h0 => ?_) h
    have := congrArg (fun y => y.getLsbD b) h0
    simp [hb] at this
  · exact iff_of_false (fun h0 => h0 rfl) h

theorem and_bit32_ne_zero (count : ℕ) :
    x &&& bit32 count ≠ 0 ↔ x.getLsbD (count % 32) = true := by
  rw [bit32_eq, and_twoPow_ne_zero (by omega)]

theorem and_bit64_ne_zero (hc : c < 64) : x &&& bit64 c ≠ 0 ↔ x.getLsbD c = true := by
  rw [bit64_eq hc, and_twoPow_ne_zero hc]

theorem getLsbD_or_bit32 (count : ℕ) :
    (x ||| bit32 count).getLsbD b = true ↔ x.getLsbD b = true ∨ count % 32 = b := by
  have hlt : count % 32 < 64 := by omega
  rw [BitVec.getLsbD_or, bit32_eq, BitVec.getLsbD_twoPow, decide_eq_true hlt, Bool.true_and,
    Bool.or_eq_true, decide_eq_true_eq]

theorem zero_lt_iff : 0 < x ↔ ∃ b, x.getLsbD b = true := by
  have hpos : 0 < x ↔ x ≠ 0 := BitVec.pos_iff_ne_zero x
  rw [hpos, not_iff_comm, not_exists]
  refine ⟨fun h => BitVec.eq_of_getLsbD_eq fun b _ => ?_, ?_⟩
  · have hb : x.getLsbD b = false := by simpa using h b
    rw [hb]
    exact BitVec.getLsbD_zero.symm
  · rintro rfl b
    simp

end Bits

/-! ### The indices that were set -/

section Set

variable {m : Bitmap256} {s : List UInt8} {i j : UInt8} {k b : ℕ}

/-- An index of the word `k` was set that is `b` modulo 32. -/
def Marked (s : List UInt8) (k b : ℕ) : Prop := ∃ i ∈ s, i.toNat / 64 = k ∧ i.toNat % 32 = b

theorem marked_cons :
    Marked (i :: s) k b ↔ Marked s k b ∨ i.toNat / 64 = k ∧ i.toNat % 32 = b := by
  simp only [Marked, List.mem_cons, exists_eq_or_imp, or_comm]

/-- The bits of the words when the indices `s` were set. -/
structure Represents (m : Bitmap256) (s : List UInt8) : Prop where
  map1 : ∀ b, m.map1.getLsbD b = true ↔ Marked s 0 b
  map2 : ∀ b, m.map2.getLsbD b = true ↔ Marked s 1 b
  map3 : ∀ b, m.map3.getLsbD b = true ↔ Marked s 2 b
  map4 : ∀ b, m.map4.getLsbD b = true ↔ Marked s 3 b

theorem represents_reset : Represents reset [] := by
  have hnone : ∀ k b, (0 : BitVec 64).getLsbD b = true ↔ Marked [] k b := by
    intro k b
    simp [Marked]
  exact ⟨hnone 0, hnone 1, hnone 2, hnone 3⟩

theorem Represents.set (hr : Represents m s) (i : UInt8) : Represents (m.set i) (i :: s) := by
  have hlt : i.toNat < 256 := i.toNat_lt
  -- a word that is not the one of `i`, and the word of `i`
  have hkeep : ∀ {x : BitVec 64} {k : ℕ}, i.toNat / 64 ≠ k →
      (∀ b, x.getLsbD b = true ↔ Marked s k b) →
      ∀ b, x.getLsbD b = true ↔ Marked (i :: s) k b := by
    intro x k hk hx b
    rw [hx, marked_cons, or_iff_left fun h => hk h.1]
  have hput : ∀ {x : BitVec 64} {k c : ℕ}, i.toNat / 64 = k → i.toNat % 32 = c % 32 →
      (∀ b, x.getLsbD b = true ↔ Marked s k b) →
      ∀ b, (x ||| bit32 c).getLsbD b = true ↔ Marked (i :: s) k b := by
    intro x k c hk hc hx b
    rw [getLsbD_or_bit32, hx, marked_cons, hc, and_iff_right hk]
  rw [Bitmap256.set]
  split_ifs with h1 h2 h3
  · exact ⟨hput (by omega) rfl hr.map1, hkeep (by omega) hr.map2, hkeep (by omega) hr.map3,
      hkeep (by omega) hr.map4⟩
  · exact ⟨hkeep (by omega) hr.map1, hput (by omega) (by omega) hr.map2,
      hkeep (by omega) hr.map3, hkeep (by omega) hr.map4⟩
  · exact ⟨hkeep (by omega) hr.map1, hkeep (by omega) hr.map2,
      hput (by omega) (by omega) hr.map3, hkeep (by omega) hr.map4⟩
  · exact ⟨hkeep (by omega) hr.map1, hkeep (by omega) hr.map2, hkeep (by omega) hr.map3,
      hput (by omega) (by omega) hr.map4⟩

theorem Represents.step (hr : Represents m s) (c : Call) :
    Represents (c.run m) (c.indices s) := by
  cases c with
  | reset => exact represents_reset
  | set i => exact hr.set i

/-- Every sequence of calls leaves the bits of the indices that were set. -/
theorem represents_run (calls : List Call) : Represents (run calls) (sinceReset calls) := by
  have hfold : ∀ (calls : List Call) {m : Bitmap256} {s : List UInt8}, Represents m s →
      Represents (calls.foldl Call.run m) (calls.foldl Call.indices s) := by
    intro calls
    induction calls with
    | nil => exact fun hr => hr
    | cons c calls ih => exact fun hr => ih (hr.step c)
  exact hfold calls represents_reset

/-- The bitmap is not empty exactly when an index was set. -/
theorem Represents.someset_iff (hr : Represents m s) : m.someset = true ↔ s ≠ [] := by
  have hword : ∀ {x : BitVec 64} {k : ℕ}, (∀ b, x.getLsbD b = true ↔ Marked s k b) →
      (0 < x ↔ ∃ i ∈ s, i.toNat / 64 = k) := by
    intro x k hx
    rw [zero_lt_iff]
    constructor
    · rintro ⟨b, hb⟩
      obtain ⟨i, hi, hk, -⟩ := (hx b).mp hb
      exact ⟨i, hi, hk⟩
    · rintro ⟨i, hi, hk⟩
      exact ⟨_, (hx _).mpr ⟨i, hi, hk, rfl⟩⟩
  rw [someset, Bool.if_false_right, Bool.and_true, decide_eq_true_eq, hword hr.map1,
    hword hr.map2, hword hr.map3, hword hr.map4]
  constructor
  · rintro (⟨i, hi, -⟩ | ⟨i, hi, -⟩ | ⟨i, hi, -⟩ | ⟨i, hi, -⟩) <;>
      exact List.ne_nil_of_mem hi
  · intro hs
    obtain ⟨i, hi⟩ := List.exists_mem_of_ne_nil s hs
    have hlt : i.toNat < 256 := i.toNat_lt
    have hk : i.toNat / 64 = 0 ∨ i.toNat / 64 = 1 ∨ i.toNat / 64 = 2 ∨ i.toNat / 64 = 3 := by omega
    exact hk.imp (fun h => ⟨i, hi, h⟩) (Or.imp (fun h => ⟨i, hi, h⟩)
      (Or.imp (fun h => ⟨i, hi, h⟩) fun h => ⟨i, hi, h⟩))

/-- `isset` looks at the bit of the index, and from 64 on at the one modulo 32. -/
theorem Represents.isset_iff (hr : Represents m s) (j : UInt8) : m.isset j = true ↔
    Marked s (j.toNat / 64) (if j.toNat < 64 then j.toNat else j.toNat % 32) := by
  have hlt : j.toNat < 256 := j.toNat_lt
  -- the branch of the word of `j`
  have hword : ∀ {x : BitVec 64} {k c : ℕ}, j.toNat / 64 = k → j.toNat % 32 = c % 32 →
      (∀ b, x.getLsbD b = true ↔ Marked s k b) →
      (x &&& bit32 c ≠ 0 ↔ Marked s (j.toNat / 64) (j.toNat % 32)) := by
    intro x k c hk hc hx
    rw [and_bit32_ne_zero, hx, hk, hc]
  rw [isset, Bool.if_true_left, Bool.if_true_left, Bool.if_true_left, Bool.if_false_right]
  simp only [Bool.or_eq_true, Bool.and_true, decide_eq_true_eq]
  by_cases h1 : j.toNat < 64
  · rw [if_pos h1, and_bit64_ne_zero h1, hr.map1, and_iff_right h1,
      show j.toNat / 64 = 0 by omega]
    exact or_iff_left (by omega)
  rw [if_neg h1]
  by_cases h2 : j.toNat < 128
  · have hbit : m.map2 &&& bit32 (j.toNat - 64) ≠ 0 ↔ _ :=
      hword (by omega) (by omega) hr.map2
    rw [hbit]
    constructor
    · rintro (h | ⟨-, -, h⟩ | h | h)
      · exact absurd h.1 h1
      · exact h
      · omega
      · omega
    · exact fun h => Or.inr (Or.inl ⟨by omega, h2, h⟩)
  by_cases h3 : j.toNat < 192
  · have hbit : m.map3 &&& bit32 (j.toNat - 128) ≠ 0 ↔ _ :=
      hword (by omega) (by omega) hr.map3
    rw [hbit]
    constructor
    · rintro (h | h | ⟨-, -, h⟩ | h)
      · exact absurd h.1 h1
      · omega
      · exact h
      · omega
    · exact fun h => Or.inr (Or.inr (Or.inl ⟨by omega, h3, h⟩))
  · have hbit : m.map4 &&& bit32 (j.toNat - 192) ≠ 0 ↔ _ :=
      hword (by omega) (by omega) hr.map4
    rw [hbit]
    constructor
    · rintro (h | h | h | ⟨-, h⟩)
      · exact absurd h.1 h1
      · omega
      · omega
      · exact h
    · exact fun h => Or.inr (Or.inr (Or.inr ⟨by omega, h⟩))

theorem toNat_twin (j : UInt8) :
    (twin j).toNat = if j.toNat % 64 < 32 then j.toNat + 32 else j.toNat - 32 := by
  have hj : j.toNat < 256 := j.toNat_lt
  rw [twin]
  split_ifs with h
  · rw [UInt8.toNat_add]
    exact Nat.mod_eq_of_lt (by show j.toNat + 32 < 256; omega)
  · exact UInt8.toNat_sub_of_le _ _ (UInt8.le_iff_toNat_le.mpr (by show 32 ≤ j.toNat; omega))

theorem twin_twin (j : UInt8) : twin (twin j) = j := by
  have hj : j.toNat < 256 := j.toNat_lt
  rw [← UInt8.toNat_inj, toNat_twin, toNat_twin]
  split_ifs <;> omega

/-- Two indices of a word are equal modulo 32 if they are the same, or twins. -/
theorem same_bit_iff : i.toNat / 64 = j.toNat / 64 ∧ i.toNat % 32 = j.toNat % 32 ↔
    i = j ∨ i = twin j := by
  have hi : i.toNat < 256 := i.toNat_lt
  have hj : j.toNat < 256 := j.toNat_lt
  rw [← UInt8.toNat_inj, ← UInt8.toNat_inj, toNat_twin]
  split_ifs with h
  · omega
  · omega

theorem marked_mod_iff : Marked s (j.toNat / 64) (j.toNat % 32) ↔ j ∈ s ∨ twin j ∈ s := by
  simp only [Marked, same_bit_iff, and_or_left, exists_or, exists_eq_right]

end Set

/-! ### When the answers are right -/

section Sound

variable {calls : List Call} {j : UInt8}

/-- What `isset` answers, in terms of the set. -/
theorem isset_run_iff (calls : List Call) (j : UInt8) : (run calls).isset j = true ↔
    (j.toNat < 32 ∨ 64 ≤ j.toNat) ∧ (j ∈ sinceReset calls ∨ twin j ∈ sinceReset calls) := by
  rw [(represents_run calls).isset_iff, ← marked_mod_iff]
  split_ifs with h
  · by_cases h32 : j.toNat < 32
    · rw [Nat.mod_eq_of_lt h32, and_iff_right (Or.inl h32)]
    · refine iff_of_false ?_ fun hj => by omega
      -- no bit of the upper half is ever set
      rintro ⟨i, -, -, hi⟩
      omega
  · rw [and_iff_right (Or.inr (Nat.le_of_not_lt h))]

theorem someset_run_iff (calls : List Call) :
    (run calls).someset = true ↔ sinceReset calls ≠ [] :=
  (represents_run calls).someset_iff

/-- **The answers about an index** are right if and only if it is one of those from 32 to 63 and
was not set, or another one, and was set if its twin was. -/
theorem sound_iff (calls : List Call) (j : UInt8) : Sound calls j ↔
    if 32 ≤ j.toNat ∧ j.toNat < 64 then j ∉ sinceReset calls
    else twin j ∈ sinceReset calls → j ∈ sinceReset calls := by
  rw [Sound, and_iff_left (someset_run_iff calls), isset_run_iff]
  split_ifs with h
  · have hno : ¬(j.toNat < 32 ∨ 64 ≤ j.toNat) := by omega
    rw [iff_false_intro fun h' => hno (And.left h'), false_iff]
  · have hyes : j.toNat < 32 ∨ 64 ≤ j.toNat := by omega
    rw [and_iff_right hyes]
    exact ⟨fun h' ht => h'.mp (Or.inr ht), fun h' => ⟨fun h'' => h''.elim id h', Or.inl⟩⟩

/-- An index of the second half of the first word is not found again. -/
theorem not_sound_set_40 : ¬∀ calls j, Sound calls j := fun h => by
  have hs : sinceReset [.set 40] = [40] := rfl
  have hj := (h [.set 40] 40).1.mpr (by simp [hs])
  revert hj
  decide

/-- All answers after some calls are right if and only if no index from 32 to 63 was set, and
twins from 64 on were set together. -/
theorem sound_all_iff (calls : List Call) : (∀ j, Sound calls j) ↔ ∀ i ∈ sinceReset calls,
    (i.toNat < 32 ∨ 64 ≤ i.toNat) ∧ (64 ≤ i.toNat → twin i ∈ sinceReset calls) := by
  have hiff : ∀ j, Sound calls j ↔ _ := fun j => and_iff_left (someset_run_iff calls)
  simp only [hiff, isset_run_iff]
  constructor
  · intro h i hi
    obtain ⟨hi', -⟩ := (h i).mpr hi
    refine ⟨hi', fun h64 => (h (twin i)).mp ⟨?_, Or.inr ?_⟩⟩
    · have := toNat_twin i
      have := i.toNat_lt
      split_ifs at * <;> omega
    · rwa [twin_twin]
  · intro h j
    constructor
    · rintro ⟨hj, hs | hs⟩
      · exact hs
      · obtain ⟨ht, h64⟩ := h _ hs
        have := toNat_twin j
        rw [twin_twin] at h64
        refine h64 ?_
        split_ifs at * <;> omega
    · exact fun hs => ⟨(h j hs).1, Or.inl hs⟩

end Sound

end Bitmap256

/-
What the zeroing allocators clear (`calloc_aligned`, `tlcalloc` and `tlcalloc_aligned` in
`util/malloc.cc`).

The number of bytes that `memset` clears and the number that was reserved for the block are
rounded up in different places.  Sizes are those of a `uint64_t` here, so that rounding up may
overflow (`alignWord`); the thread-local allocator is that of `Malloc`, with the bytes that
each call reserves (`tlmallocExtent_eq`).

* `cleared_inside_iff` — when the bytes that are cleared are all reserved.
-/
import Scal.AtomicValue
import Scal.MallocBlocks

namespace Malloc

/-! ### The program -/

/-- `align_size`, as a `uint64_t`. -/
def alignWord (size alignment : ℕ) : ℕ := alignSize size alignment % wordSize

/-- Bytes, by the address of the first one and their number. -/
structure Extent where
  addr : ℕ
  size : ℕ
  deriving DecidableEq

def Extent.Inside (x y : Extent) : Prop :=
  x.size = 0 ∨ y.addr ≤ x.addr ∧ x.addr + x.size ≤ y.addr + y.size

instance (x y : Extent) : Decidable (x.Inside y) := inferInstanceAs (Decidable (_ ∨ _))

/-- `tlmalloc`, with the bytes that it asks `malloc` for, or that it moves the pointer over. -/
def tlmallocExtent (flags : Flags) (size fresh : ℕ) (b : MemBuffer) : MemBuffer × Extent :=
  if flags.disableTlAllocator then (b, ⟨fresh, size⟩)
  else
    let size := alignWord size wordAlignment
    if kPageSize < size then (b, ⟨fresh, size⟩)
    else
      let b := (b.reserve flags fresh 0 (b.pointer + size)).1
      (b.bump b.pointer size, ⟨b.pointer, size⟩)

/-- `tlmalloc_aligned`, likewise; `malloc_aligned` asks `posix_memalign` for the size. -/
def tlmallocAlignedExtent (flags : Flags) (size alignment fresh : ℕ) (b : MemBuffer) :
    MemBuffer × Extent :=
  if flags.disableTlAllocator then (b, ⟨fresh, size⟩)
  else if alignment = 0 then tlmallocExtent flags size fresh b
  else
    let alignment := if 4096 < alignment then 4096 else alignment
    let size := alignWord size alignment
    let b := (b.reserve flags fresh 1 (alignSize b.pointer alignment + size)).1
    (b.bump (alignSize b.pointer alignment) size, ⟨alignSize b.pointer alignment, size⟩)

/-- A call of one of the zeroing allocators. -/
inductive ZeroCall where
  | callocAligned (num size alignment : ℕ)
  | tlcalloc (num size : ℕ)
  | tlcallocAligned (num size alignment : ℕ)

/-- The buffer after the call, the bytes reserved for the block, and those that are cleared. -/
structure Zeroed where
  buffer : MemBuffer
  reserved : Extent
  cleared : Extent

/-- `memset` from the start of the block on. -/
def memset (size : ℕ) (r : MemBuffer × Extent) : Zeroed := ⟨r.1, r.2, ⟨r.2.addr, size⟩⟩

def ZeroCall.run (flags : Flags) (fresh : ℕ) (b : MemBuffer) : ZeroCall → Zeroed
  | .callocAligned num size alignment =>
    memset (alignWord (num * size) alignment) (b, ⟨fresh, num * size⟩)
  | .tlcalloc num size =>
    memset (alignWord (size * num) wordAlignment) (tlmallocExtent flags (size * num) fresh b)
  | .tlcallocAligned num size alignment =>
    memset (alignWord (size * num) alignment)
      (tlmallocAlignedExtent flags (size * num) alignment fresh b)

/-- The number of bytes asked for. -/
def ZeroCall.bytes : ZeroCall → ℕ
  | .callocAligned num size _ => num * size
  | .tlcalloc num size => num * size
  | .tlcallocAligned num size _ => num * size

/-- What the size that is cleared is a multiple of. -/
def ZeroCall.rounding : ZeroCall → ℕ
  | .callocAligned _ _ alignment => alignment
  | .tlcalloc _ _ => wordAlignment
  | .tlcallocAligned _ _ alignment => alignment

/-- Whether the block is taken from the thread-local allocator. -/
def ZeroCall.local (flags : Flags) : ZeroCall → Bool
  | .callocAligned _ _ _ => false
  | .tlcalloc _ _ => !flags.disableTlAllocator
  | .tlcallocAligned _ _ _ => !flags.disableTlAllocator

/-- The product does not overflow, and the alignment is a power of two from 16 to 4096. -/
def ZeroCall.Admissible (c : ZeroCall) : Prop :=
  c.bytes < wordSize ∧ ∃ k < 13, 4 ≤ k ∧ c.rounding = 2 ^ k

instance (c : ZeroCall) : Decidable c.Admissible := inferInstanceAs (Decidable (_ ∧ _))

section Zeroing

variable {flags : Flags} {fresh n a : ℕ} {b : MemBuffer}

/-! ### Rounding at 64 bits -/

theorem alignWord_eq (h : n + a ≤ wordSize) (hn : n < wordSize) :
    alignWord n a = alignSize n a := by
  refine Nat.mod_eq_of_lt ?_
  rw [alignSize]
  split_ifs with hmod
  · exact hn
  · rw [not_or] at hmod
    have hdiv := Nat.div_add_mod n a
    have hpos : 0 < n % a := Nat.pos_of_ne_zero hmod.2
    rw [Nat.add_mul, Nat.one_mul, Nat.mul_comm]
    omega

/-- Rounding up gives more, unless it overflows. -/
theorem alignWord_le_iff {k : ℕ} (h4 : 4 ≤ k) (h12 : k < 13) (ha : a = 2 ^ k)
    (hn : n < wordSize) : alignWord n a ≤ n ↔ n % a = 0 ∨ wordSize < n + a := by
  obtain ⟨-, hpage, h16, -⟩ := two_pow_mod h4 h12 ha
  have hword : wordSize % a = 0 := mod_of_mod (by decide) hpage
  by_cases hmod : n % a = 0
  · rw [alignWord, alignSize_of_mod hmod, Nat.mod_eq_of_lt hn]
    exact ⟨fun _ => Or.inl hmod, fun _ => le_rfl⟩
  · rcases Nat.lt_or_ge wordSize (n + a) with hover | hle
    · -- the next multiple of `a` is `wordSize`
      have hsize : alignSize n a = wordSize := by
        have h1 := le_alignSize n a
        have h2 := Nat.dvd_of_mod_eq_zero (alignSize_mod n (a := a) (by omega))
        have h3 := Nat.dvd_of_mod_eq_zero hword
        have h4 : alignSize n a ≤ n + a := by
          rw [alignSize]
          split_ifs
          · omega
          · have hdiv := Nat.div_mul_le_self n a
            rw [Nat.add_mul, Nat.one_mul]
            omega
        have h5 : alignSize n a ≠ n := fun h => hmod (Nat.mod_eq_zero_of_dvd (h ▸ h2))
        obtain ⟨x, hx⟩ := h2
        obtain ⟨y, hy⟩ := h3
        have hx' : a * x < a * (y + 1) := by
          rw [Nat.mul_add, Nat.mul_one]
          omega
        have hy' : a * y < a * (x + 1) := by
          rw [Nat.mul_add, Nat.mul_one]
          omega
        have := Nat.lt_of_mul_lt_mul_left hx'
        have := Nat.lt_of_mul_lt_mul_left hy'
        have hxy : x = y := by omega
        rw [hx, hy, hxy]
      rw [alignWord, hsize, Nat.mod_self]
      exact ⟨fun _ => Or.inr hover, fun _ => Nat.zero_le _⟩
    · rw [alignWord_eq hle hn]
      refine ⟨fun h => Or.inl ?_, fun h => absurd h (by omega)⟩
      have heq : alignSize n a = n := le_antisymm h (le_alignSize n a)
      rw [← heq]
      exact alignSize_mod n (by omega)

/-! ### What is reserved -/

/-- Where rounding up does not overflow, this is `tlmalloc`. -/
theorem tlmallocExtent_eq (h : n + wordAlignment ≤ wordSize) :
    (tlmallocExtent flags n fresh b).1 = (tlmalloc flags n fresh b).buffer ∧
      (tlmallocExtent flags n fresh b).2.addr = (tlmalloc flags n fresh b).object := by
  have hn : n < wordSize := lt_of_lt_of_le (Nat.lt_add_of_pos_right (by decide)) h
  rw [tlmallocExtent, tlmalloc, alignWord_eq h hn]
  by_cases hd : flags.disableTlAllocator = true
  · rw [if_pos hd, if_pos hd]
    exact ⟨rfl, rfl⟩
  · rw [if_neg hd, if_neg hd]
    dsimp only
    by_cases hpage : kPageSize < alignSize n wordAlignment
    · rw [if_pos hpage, if_pos hpage]
      exact ⟨rfl, rfl⟩
    · rw [if_neg hpage, if_neg hpage]
      exact ⟨rfl, rfl⟩

theorem tlmallocAlignedExtent_eq (h : n + wordAlignment ≤ wordSize) (ha : n + a ≤ wordSize) :
    (tlmallocAlignedExtent flags n a fresh b).1 = (tlmallocAligned flags n a fresh b).buffer ∧
      (tlmallocAlignedExtent flags n a fresh b).2.addr =
        (tlmallocAligned flags n a fresh b).object := by
  have hn : n < wordSize := lt_of_lt_of_le (Nat.lt_add_of_pos_right (by decide)) h
  have hsize : alignWord n (if 4096 < a then 4096 else a) =
      alignSize n (if 4096 < a then 4096 else a) := by
    refine alignWord_eq ?_ hn
    split_ifs with hpage
    · omega
    · exact ha
  rw [tlmallocAlignedExtent, tlmallocAligned]
  by_cases hd : flags.disableTlAllocator = true
  · rw [if_pos hd, if_pos hd]
    exact ⟨rfl, rfl⟩
  · rw [if_neg hd, if_neg hd]
    by_cases h0 : a = 0
    · rw [if_pos h0, if_pos h0]
      exact tlmallocExtent_eq h
    · rw [if_neg h0, if_neg h0]
      dsimp only
      rw [hsize]
      exact ⟨rfl, rfl⟩

/-- Without the thread-local allocator, just the size is reserved. -/
theorem tlmallocExtent_disabled (hd : flags.disableTlAllocator = true) :
    (tlmallocExtent flags n fresh b).2 = ⟨fresh, n⟩ := by
  rw [tlmallocExtent, if_pos hd]

theorem tlmallocAlignedExtent_disabled (hd : flags.disableTlAllocator = true) :
    (tlmallocAlignedExtent flags n a fresh b).2 = ⟨fresh, n⟩ := by
  rw [tlmallocAlignedExtent, if_pos hd]

/-- The thread-local allocator reserves the rounded size. -/
theorem tlmallocExtent_enabled (hd : flags.disableTlAllocator = false) :
    (tlmallocExtent flags n fresh b).2.size = alignWord n wordAlignment := by
  rw [tlmallocExtent, if_neg (by simp [hd])]
  dsimp only
  split_ifs
  · rfl
  · rfl

theorem tlmallocAlignedExtent_enabled (hd : flags.disableTlAllocator = false) (h0 : a ≠ 0)
    (hpage : a ≤ 4096) : (tlmallocAlignedExtent flags n a fresh b).2.size = alignWord n a := by
  rw [tlmallocAlignedExtent, if_neg (by simp [hd]), if_neg h0, if_neg (not_lt.mpr hpage)]

/-- `memset` starts where the block starts. -/
theorem memset_inside_iff (r : MemBuffer × Extent) :
    (memset n r).cleared.Inside (memset n r).reserved ↔ n ≤ r.2.size := by
  show n = 0 ∨ r.2.addr ≤ r.2.addr ∧ r.2.addr + n ≤ r.2.addr + r.2.size ↔ n ≤ r.2.size
  omega

end Zeroing

/-- **The bytes that are cleared are reserved** just if the block is taken from the thread-local
allocator, or rounding up does not change the size, or overflows. -/
theorem cleared_inside_iff (flags : Flags) (fresh : ℕ) (b : MemBuffer) (c : ZeroCall)
    (hc : c.Admissible) :
    (c.run flags fresh b).cleared.Inside (c.run flags fresh b).reserved ↔
      c.local flags = true ∨ c.bytes % c.rounding = 0 ∨ wordSize < c.bytes + c.rounding := by
  obtain ⟨hn, k, h12, h4, ha⟩ := hc
  obtain ⟨-, -, h16, hpage⟩ := two_pow_mod h4 h12 ha
  have hiff := alignWord_le_iff h4 h12 ha hn
  cases c with
  | callocAligned num size alignment =>
    rw [ZeroCall.run, memset_inside_iff, ← hiff]
    exact ⟨Or.inr, fun h => h.resolve_left Bool.false_ne_true⟩
  | tlcalloc num size =>
    rw [ZeroCall.run, memset_inside_iff, ← hiff, Nat.mul_comm size num, ZeroCall.local]
    cases hd : flags.disableTlAllocator with
    | true =>
      rw [tlmallocExtent_disabled hd]
      exact ⟨Or.inr, fun h => h.resolve_left Bool.false_ne_true⟩
    | false =>
      rw [tlmallocExtent_enabled hd]
      exact ⟨fun _ => Or.inl rfl, fun _ => le_rfl⟩
  | tlcallocAligned num size alignment =>
    rw [ZeroCall.run, memset_inside_iff, ← hiff, Nat.mul_comm size num, ZeroCall.local]
    cases hd : flags.disableTlAllocator with
    | true =>
      rw [tlmallocAlignedExtent_disabled hd]
      exact ⟨Or.inr, fun h => h.resolve_left Bool.false_ne_true⟩
    | false =>
      have h0 : alignment ≠ 0 := Nat.ne_of_gt (lt_of_lt_of_le (by decide) h16)
      rw [tlmallocAlignedExtent_enabled hd h0 hpage]
      exact ⟨fun _ => Or.inl rfl, fun _ => le_rfl⟩

theorem cleared_inside_iff_tlcalloc :
    ((ZeroCall.tlcalloc 1 24).run ⟨false, true⟩ 4096 (tlallocInit 1 8192)).cleared.Inside
      ((ZeroCall.tlcalloc 1 24).run ⟨false, true⟩ 4096 (tlallocInit 1 8192)).reserved ↔
      (ZeroCall.tlcalloc 1 24).local ⟨false, true⟩ = true ∨
        (ZeroCall.tlcalloc 1 24).bytes % (ZeroCall.tlcalloc 1 24).rounding = 0 ∨
        wordSize < (ZeroCall.tlcalloc 1 24).bytes + (ZeroCall.tlcalloc 1 24).rounding :=
  cleared_inside_iff ⟨false, true⟩ 4096 (tlallocInit 1 8192) (.tlcalloc 1 24) (by decide)

/-- Eight bytes are obtained at an address that is a multiple of 128, and 128 are cleared. -/
theorem not_cleared_inside :
    (ZeroCall.callocAligned 1 8 128).Admissible ∧
      ¬ ((ZeroCall.callocAligned 1 8 128).run ⟨false, false⟩ 4096
          (tlallocInit 1 8192)).cleared.Inside
        ((ZeroCall.callocAligned 1 8 128).run ⟨false, false⟩ 4096
          (tlallocInit 1 8192)).reserved := by
  decide

end Malloc

/-
The blocks that the thread-local allocator hands out.

* `Inv` — the chunk is a region that was obtained, `pointer` is inside it, and the live
  blocks of the chunk all end at `pointer` or before;
* `Inv.refill`, `Inv.bump`, `Inv.external`, `Inv.freeLast` — it is kept when the chunk is
  exhausted, when a block is taken from it, when a block comes from `malloc`, and when
  the last block is taken back;
* `blocks_ok` — the blocks are inside regions, aligned, and apart from each other, in
  every run whose calls all satisfy `fits`;
* `not_blocks_ok` — in other runs they need not be.
-/
import Scal.Malloc
import Mathlib.Tactic.IntervalCases

namespace Malloc

/-! ### Alignment -/

theorem alignSize_mod (n : ℕ) {a : ℕ} (ha : a ≠ 0) : alignSize n a % a = 0 := by
  rw [alignSize]
  split_ifs with h
  · exact h.resolve_left ha
  · exact Nat.mul_mod_left ..

theorem le_alignSize (n a : ℕ) : n ≤ alignSize n a := by
  rw [alignSize]
  split_ifs with h
  · exact le_rfl
  · rw [not_or] at h
    have hpos : 0 < a := Nat.pos_of_ne_zero h.1
    have hdiv := Nat.div_add_mod n a
    have hlt := Nat.mod_lt n hpos
    rw [Nat.add_mul, Nat.one_mul, Nat.mul_comm]
    omega

theorem alignSize_of_mod {n a : ℕ} (h : n % a = 0) : alignSize n a = n := if_pos (.inr h)

/-- The alignments that callers may ask for. -/
theorem two_pow_mod {k a : ℕ} (h4 : 4 ≤ k) (h12 : k < 13) (ha : a = 2 ^ k) :
    a % 16 = 0 ∧ 4096 % a = 0 ∧ 16 ≤ a ∧ a ≤ 4096 := by
  subst ha
  interval_cases k <;> decide

theorem mod_of_mod {n a b : ℕ} (hn : n % a = 0) (ha : a % b = 0) : n % b = 0 :=
  Nat.mod_eq_zero_of_dvd ((Nat.dvd_of_mod_eq_zero ha).trans (Nat.dvd_of_mod_eq_zero hn))

/-! ### The condition -/

/-- The size of the chunk that is used once this one is exhausted. -/
def MemBuffer.nextSize (b : MemBuffer) (flags : Flags) : ℕ :=
  if flags.reuseMemory then b.memSize else kTLABSize

/-- An aligned block fits into the rest of this chunk, or into the next one. -/
def MemBuffer.fitsAligned (b : MemBuffer) (flags : Flags) (size alignment : ℕ) : Bool :=
  alignSize b.pointer alignment + alignSize size alignment ≤ b.memory + b.memSize ||
    alignSize size alignment ≤ b.nextSize flags

/-- The block is taken from the chunk, and not from `malloc`. -/
def Alloc.small : Alloc → Bool
  | .malloc size => alignSize size wordAlignment ≤ kPageSize
  | .calloc num size => alignSize (size * num) wordAlignment ≤ kPageSize
  | _ => true

/-- Aligned blocks are not larger than the chunk they are taken from, and unless memory is
reused `tl_free_last` does not follow a `tlmalloc` or `tlcalloc` of more than a page. -/
def fits (flags : Flags) (σ : State) : Call → Bool
  | .alloc (.mallocAligned size alignment) => σ.buffer.fitsAligned flags size alignment
  | .alloc (.callocAligned num size alignment) =>
    σ.buffer.fitsAligned flags (size * num) alignment
  | .alloc _ => true
  | .freeLast => flags.reuseMemory || σ.last.all Alloc.small

/-! ### The invariant -/

instance (x : Block) (r : Region) : Decidable (x.Inside r) := inferInstanceAs (Decidable (_ ∧ _))

instance (x y : Block) : Decidable (x.Apart y) := inferInstanceAs (Decidable (Malloc.Apart ..))

def Block.Ok (regions : List Region) (x : Block) : Prop :=
  (∃ r ∈ regions, x.Inside r) ∧ x.addr % x.alignment = 0

/-- The block is not in the chunk, or it ends at `stop` or before. -/
def MemBuffer.Below (b : MemBuffer) (stop : ℕ) (x : Block) : Prop :=
  Apart x.addr x.size b.memory b.memSize ∨ x.addr + x.size ≤ stop

structure ChunkInv (flags : Flags) (b : MemBuffer) (regions : List Region) : Prop where
  memory : b.memory ≠ 0
  aligned : b.memory % 4096 = 0
  size : kPageSize ≤ b.memSize
  start : flags.reuseMemory → b.start = b.memory
  region : ∃ r ∈ regions, r.addr = b.memory ∧ r.size = b.memSize
  low : b.memory ≤ b.pointer
  high : b.pointer ≤ b.memory + b.memSize
  pointer : b.pointer % 16 = 0

structure Inv (flags : Flags) (σ : State) : Prop where
  chunk : ChunkInv flags σ.buffer σ.regions
  blocks : ∀ x ∈ σ.blocks, x.Ok σ.regions
  live : ∀ x ∈ σ.live, x ∈ σ.blocks
  lastLow : σ.buffer.memory + σ.buffer.lastSize ≤ σ.buffer.pointer
  lastSize : σ.buffer.lastSize % 16 = 0
  apart : flags.reuseMemory = false → σ.live.Pairwise Block.Apart
  below : flags.reuseMemory = false → ∀ x ∈ σ.live, σ.buffer.Below σ.buffer.pointer x
  /-- A block that was just taken from the chunk is the last one in it. -/
  last : flags.reuseMemory = false → ∀ a ∈ σ.last, a.small → ∀ x ∈ σ.live.tail,
    σ.buffer.Below (σ.buffer.pointer - σ.buffer.lastSize) x

variable {flags : Flags} {σ : State} {b b' : MemBuffer} {regions : List Region} {a : Alloc}
  {fresh wrapped size object : ℕ} {x y : Block}

theorem Block.Ok.mono (new : List Region) (hx : x.Ok regions) : x.Ok (new ++ regions) := by
  obtain ⟨⟨r, hr, hin⟩, ha⟩ := hx
  exact ⟨⟨r, List.mem_append_right _ hr, hin⟩, ha⟩

/-- A block of the past is apart from memory that is fresh. -/
theorem Block.Ok.apart_fresh {r : Region} (hx : x.Ok regions) (hr : r.Fresh regions) :
    Malloc.Apart x.addr x.size r.addr r.size := by
  obtain ⟨⟨q, hq, hlo, hhi⟩, -⟩ := hx
  rcases hr.2.2 q hq with h | h
  · right
    omega
  · left
    omega

/-! ### Blocks from the chunk -/

theorem ChunkInv.refill (hb : ChunkInv flags b regions)
    (hfresh : ∀ r ∈ (b.refill flags fresh wrapped).2, r.Fresh regions) :
    ChunkInv flags (b.refill flags fresh wrapped).1
      ((b.refill flags fresh wrapped).2.toList ++ regions) := by
  rw [MemBuffer.refill] at hfresh ⊢
  split_ifs at hfresh ⊢ with hf
  · have hstart := hb.start hf
    have hal := hb.aligned
    refine ⟨?_, ?_, hb.size, fun _ => rfl, ?_, le_rfl, Nat.le_add_right .., ?_⟩
    · show b.start ≠ 0
      exact hstart ▸ hb.memory
    · show b.start % 4096 = 0
      exact hstart ▸ hal
    · show ∃ r ∈ regions, r.addr = b.start ∧ r.size = b.memSize
      exact hstart ▸ hb.region
    · show b.start % 16 = 0
      omega
  · obtain ⟨h0, hal, -⟩ := hfresh _ rfl
    have hal : fresh % 4096 = 0 := hal
    refine ⟨h0, hal, le_rfl, fun h => absurd h hf, ⟨_, List.mem_cons_self, rfl, rfl⟩, le_rfl,
      Nat.le_add_right .., ?_⟩
    show fresh % 16 = 0
    omega

/-- The chunk is kept and has room for the block, or a block fits at its start. -/
theorem Inv.reserve (hI : Inv flags σ) {stop : ℕ} {p : MemBuffer × Option Region}
    (hp : p = σ.buffer.reserve flags fresh wrapped stop)
    (hfresh : ∀ r ∈ p.2, r.Fresh σ.regions) :
    ChunkInv flags p.1 (p.2.toList ++ σ.regions) ∧
      (flags.reuseMemory = false → ∀ x ∈ σ.live, p.1.Below p.1.pointer x) ∧
      (p.1 = σ.buffer ∧ stop ≤ σ.buffer.memory + σ.buffer.memSize ∨
        p.1.pointer = p.1.memory ∧ p.1.memSize = σ.buffer.nextSize flags ∧
          σ.buffer.memory + σ.buffer.memSize < stop) := by
  subst hp
  rw [MemBuffer.reserve] at hfresh ⊢
  split_ifs at hfresh ⊢ with hex
  · have hlt := hex.resolve_left hI.chunk.memory
    refine ⟨hI.chunk.refill hfresh, fun hre x hx => ?_, .inr ⟨?_, ?_, hlt⟩⟩
    · left
      have hx' := (hI.blocks x (hI.live x hx))
      have hr : (σ.buffer.refill flags fresh wrapped).2 = some ⟨fresh, kTLABSize, kPageSize⟩ := by
        simp [MemBuffer.refill, hre]
      have hap := hx'.apart_fresh (hfresh _ hr)
      simpa [MemBuffer.refill, hre] using hap
    · rw [MemBuffer.refill]
      split_ifs <;> rfl
    · rw [MemBuffer.refill, MemBuffer.nextSize]
      split_ifs <;> rfl
  · rw [MemBuffer.Exhausted, not_or] at hex
    exact ⟨hI.chunk, hI.below, .inl ⟨rfl, by omega⟩⟩

/-- **A block is taken from the chunk.** -/
theorem Inv.bump (hI : Inv flags σ) {new : List Region} (hb : ChunkInv flags b (new ++ σ.regions))
    (hbelow : flags.reuseMemory = false → ∀ x ∈ σ.live, b.Below b.pointer x)
    (hobj : b.pointer ≤ object) (hfit : object + size ≤ b.memory + b.memSize)
    (hobj16 : object % 16 = 0) (hsize16 : size % 16 = 0) (hx : x.addr = object)
    (hxs : x.size ≤ size) (hxa : x.addr % x.alignment = 0) :
    Inv flags ⟨b.bump object size, new ++ σ.regions, x :: σ.blocks, x :: σ.live, some a⟩ := by
  have hlow := hb.low
  -- the live blocks end where the new one begins
  have hend : flags.reuseMemory = false → ∀ y ∈ σ.live, b.Below object y := fun hre y hy =>
    (hbelow hre y hy).imp_right fun h => h.trans hobj
  refine ⟨⟨hb.memory, hb.aligned, hb.size, hb.start, hb.region, ?_, hfit, ?_⟩, ?_, ?_, ?_, hsize16,
    ?_, ?_, ?_⟩
  · show b.memory ≤ object + size
    omega
  · show (object + size) % 16 = 0
    omega
  · intro y hy
    rcases List.mem_cons.mp hy with rfl | hy
    · obtain ⟨r, hr, haddr, hrs⟩ := hb.region
      refine ⟨⟨r, hr, ?_, ?_⟩, hxa⟩
      · omega
      · omega
    · exact (hI.blocks y hy).mono _
  · intro y hy
    rcases List.mem_cons.mp hy with rfl | hy
    · exact List.mem_cons_self
    · exact List.mem_cons_of_mem _ (hI.live y hy)
  · show b.memory + size ≤ object + size
    omega
  · intro hre
    refine List.pairwise_cons.mpr ⟨fun y hy => ?_, hI.apart hre⟩
    show Apart x.addr x.size y.addr y.size
    rcases hend hre y hy with h | h
    · rcases h with h | h
      · right
        omega
      · left
        omega
    · right
      omega
  · intro hre y hy
    rcases List.mem_cons.mp hy with rfl | hy
    · right
      show y.addr + y.size ≤ object + size
      omega
    · exact (hend hre y hy).imp_right fun h => h.trans (Nat.le_add_right ..)
  · rintro hre a' - - y hy
    show b.Below (object + size - size) y
    rw [Nat.add_sub_cancel]
    exact hend hre y hy

/-- A block that `malloc` returned is not in the chunk. -/
theorem Inv.external (hI : Inv flags σ) {r : Region} (hr : r.Fresh σ.regions) (ha : a.small = false)
    (hx : x.Inside r) (hxa : x.addr % x.alignment = 0) :
    Inv flags ⟨σ.buffer, r :: σ.regions, x :: σ.blocks, x :: σ.live, some a⟩ := by
  have hchunk := hI.chunk
  refine ⟨⟨hchunk.memory, hchunk.aligned, hchunk.size, hchunk.start, ?_, hchunk.low, hchunk.high,
    hchunk.pointer⟩, ?_, ?_, hI.lastLow, hI.lastSize, ?_, ?_, ?_⟩
  · obtain ⟨q, hq, h⟩ := hchunk.region
    exact ⟨q, List.mem_cons_of_mem _ hq, h⟩
  · intro y hy
    rcases List.mem_cons.mp hy with rfl | hy
    · exact ⟨⟨r, List.mem_cons_self, hx⟩, hxa⟩
    · exact (hI.blocks y hy).mono [r]
  · intro y hy
    rcases List.mem_cons.mp hy with rfl | hy
    · exact List.mem_cons_self
    · exact List.mem_cons_of_mem _ (hI.live y hy)
  · intro hre
    refine List.pairwise_cons.mpr ⟨fun y hy => ?_, hI.apart hre⟩
    obtain ⟨hlo, hhi⟩ := hx
    show Apart x.addr x.size y.addr y.size
    rcases (hI.blocks y (hI.live y hy)).apart_fresh hr with h | h
    · right
      omega
    · left
      omega
  · intro hre y hy
    rcases List.mem_cons.mp hy with rfl | hy
    · left
      show Apart y.addr y.size σ.buffer.memory σ.buffer.memSize
      obtain ⟨q, hq, hqa, hqs⟩ := hchunk.region
      obtain ⟨hlo, hhi⟩ := hx
      rcases hr.2.2 q hq with h | h
      · left
        omega
      · right
        omega
    · exact hI.below hre y hy
  · rintro hre a' ha' hsmall
    obtain rfl : a = a' := by simpa using ha'
    rw [ha] at hsmall
    cases hsmall

/-- **Taking the last block back.** -/
theorem Inv.freeLast {σ' : State} (hI : Inv flags σ) (hok : fits flags σ .freeLast = true)
    (hs : σ.freeLast = some σ') : Inv flags σ' := by
  cases hlast : σ.last with
  | none => simp [State.freeLast, hlast] at hs
  | some a =>
    have hchunk := hI.chunk
    have hlow := hI.lastLow
    have hp16 := hchunk.pointer
    have hl16 := hI.lastSize
    have hhigh := hchunk.high
    simp only [State.freeLast, hlast, tlFreeLast, Option.map_eq_some_iff] at hs
    obtain ⟨b, hb, rfl⟩ := hs
    split_ifs at hb with h0
    obtain rfl := Option.some.inj hb
    refine ⟨⟨hchunk.memory, hchunk.aligned, hchunk.size, hchunk.start, hchunk.region, ?_, ?_, ?_⟩,
      hI.blocks, fun x hx => hI.live x (List.mem_of_mem_tail hx), ?_, rfl, fun hre => ?_,
      fun hre x hx => ?_, by simp⟩
    · show σ.buffer.memory ≤ σ.buffer.pointer - σ.buffer.lastSize
      omega
    · show σ.buffer.pointer - σ.buffer.lastSize ≤ σ.buffer.memory + σ.buffer.memSize
      omega
    · show (σ.buffer.pointer - σ.buffer.lastSize) % 16 = 0
      omega
    · show σ.buffer.memory + 0 ≤ σ.buffer.pointer - σ.buffer.lastSize
      omega
    · exact (hI.apart hre).tail
    · have hsmall : a.small = true := by simpa [fits, hre, hlast] using hok
      exact hI.last hre a (by simp [hlast]) hsmall x hx

/-! ### The allocations -/

theorem Inv.tlmalloc (hI : Inv flags σ) (hdis : flags.disableTlAllocator = false) {n : ℕ}
    {o : Outcome} (ho : o = tlmalloc flags n fresh σ.buffer)
    (hfresh : ∀ r ∈ o.obtained, r.Fresh σ.regions) (hx : x = ⟨o.object, n, wordAlignment⟩)
    (ha : a.small = decide (alignSize n wordAlignment ≤ kPageSize)) :
    Inv flags ⟨o.buffer, o.obtained.toList ++ σ.regions, x :: σ.blocks, x :: σ.live, some a⟩ := by
  subst hx
  have hle := le_alignSize n wordAlignment
  have hsize : alignSize n wordAlignment % 16 = 0 := alignSize_mod n (by decide)
  simp only [Malloc.tlmalloc, hdis, Bool.false_eq_true, if_false] at ho
  split_ifs at ho with hlarge
  · subst ho
    have hr := hfresh _ rfl
    refine hI.external hr ?_ ⟨le_rfl, ?_⟩ hr.2.1
    · rw [ha]
      exact decide_eq_false (by omega)
    · show fresh + n ≤ fresh + alignSize n wordAlignment
      omega
  · obtain ⟨p, hp⟩ : ∃ p, p = σ.buffer.reserve flags fresh 0
        (σ.buffer.pointer + alignSize n wordAlignment) := ⟨_, rfl⟩
    rw [← hp] at ho
    subst ho
    obtain ⟨hchunk, hbelow, hor⟩ := hI.reserve hp hfresh
    refine hI.bump hchunk hbelow le_rfl ?_ hchunk.pointer hsize rfl hle hchunk.pointer
    -- a page fits into every chunk
    rcases hor with ⟨h, hfit⟩ | ⟨h, -, -⟩
    · rw [h]
      exact hfit
    · have := hchunk.size
      rw [h]
      omega

theorem Inv.tlmallocAligned (hI : Inv flags σ) (hdis : flags.disableTlAllocator = false)
    {n alignment k : ℕ} (h4 : 4 ≤ k) (h12 : k < 13) (hk : alignment = 2 ^ k) {o : Outcome}
    (ho : o = tlmallocAligned flags n alignment fresh σ.buffer)
    (hfresh : ∀ r ∈ o.obtained, r.Fresh σ.regions) (hx : x = ⟨o.object, n, alignment⟩)
    (hfits : σ.buffer.fitsAligned flags n alignment) :
    Inv flags ⟨o.buffer, o.obtained.toList ++ σ.regions, x :: σ.blocks, x :: σ.live, some a⟩ := by
  subst hx
  obtain ⟨h16, hdvd, hge, hle4⟩ := two_pow_mod h4 h12 hk
  have hne : alignment ≠ 0 := by omega
  simp only [Malloc.tlmallocAligned, hdis, Bool.false_eq_true, if_false, if_neg hne,
    if_neg (Nat.not_lt.mpr hle4)] at ho
  obtain ⟨p, hp⟩ : ∃ p, p = σ.buffer.reserve flags fresh 1
      (alignSize σ.buffer.pointer alignment + alignSize n alignment) := ⟨_, rfl⟩
  rw [← hp] at ho
  subst ho
  obtain ⟨hchunk, hbelow, hor⟩ := hI.reserve hp hfresh
  refine hI.bump hchunk hbelow (le_alignSize ..) ?_ (mod_of_mod (alignSize_mod _ hne) h16)
    (mod_of_mod (alignSize_mod _ hne) h16) rfl (le_alignSize ..) (alignSize_mod _ hne)
  rcases hor with ⟨h, hfit⟩ | ⟨hptr, hsize, hlt⟩
  · rw [h]
    exact hfit
  · -- the block is at the start of the chunk, which is aligned to pages
    have hbase : alignSize p.1.pointer alignment = p.1.memory := by
      rw [hptr]
      exact alignSize_of_mod (mod_of_mod hchunk.aligned hdvd)
    rw [hbase, hsize]
    rw [MemBuffer.fitsAligned, Bool.or_eq_true, decide_eq_true_eq, decide_eq_true_eq] at hfits
    omega

theorem Inv.alloc (hI : Inv flags σ) (hdis : flags.disableTlAllocator = false)
    (ha : a.Admissible) (hok : fits flags σ (.alloc a) = true)
    (hfresh : ∀ r ∈ (a.run flags fresh σ.buffer).obtained, r.Fresh σ.regions) :
    Inv flags (σ.alloc flags a fresh) := by
  obtain ⟨-, k, h12, h4, hk⟩ := ha
  cases a with
  | malloc size => exact hI.tlmalloc hdis rfl hfresh rfl rfl
  | calloc num size => exact hI.tlmalloc hdis rfl hfresh rfl rfl
  | mallocAligned size alignment =>
    exact hI.tlmallocAligned hdis h4 h12 hk rfl hfresh rfl hok
  | callocAligned num size alignment =>
    exact hI.tlmallocAligned hdis h4 h12 hk rfl hfresh rfl hok

theorem init_inv {n : ℕ} (hn : 1 ≤ n)
    (hfresh : Region.Fresh [] ⟨fresh, kTLABSize * n, kPageSize⟩) :
    Inv flags (.init n fresh) := by
  obtain ⟨h0, hal, -⟩ := hfresh
  have hal : fresh % 4096 = 0 := hal
  refine ⟨⟨h0, hal, Nat.le_mul_of_pos_right _ hn, fun _ => rfl, ⟨_, List.mem_singleton_self _, rfl,
    rfl⟩, le_rfl, Nat.le_add_right .., ?_⟩, ?_, ?_, le_rfl, rfl, fun _ => .nil, ?_, ?_⟩
  · show fresh % 16 = 0
    omega
  all_goals simp [State.init]

/-- The invariant holds in every run whose calls satisfy the condition. -/
theorem Run.inv (hdis : flags.disableTlAllocator = false) (hσ : Run flags (fits flags) σ) :
    Inv flags σ := by
  induction hσ with
  | init hn hfresh => exact init_inv hn hfresh
  | alloc _ ha hok hfresh ih => exact ih.alloc hdis ha hok hfresh
  | free _ hok hs ih => exact ih.freeLast hok hs

/-- **The blocks of the allocator** in every run whose calls satisfy `fits`: each block is
inside one region and aligned, and unless memory is reused no two live blocks overlap. -/
theorem blocks_ok (hdis : flags.disableTlAllocator = false) (hσ : Run flags (fits flags) σ) :
    (∀ x ∈ σ.blocks, (∃ r ∈ σ.regions, x.Inside r) ∧ x.addr % x.alignment = 0) ∧
      (flags.reuseMemory = false → σ.live.Pairwise Block.Apart) :=
  ⟨(hσ.inv hdis).blocks, (hσ.inv hdis).apart⟩

/-- A block is taken back, and then a page does not fit any more: a chunk is obtained. -/
def nextChunk : List (Call × ℕ) :=
  [(.alloc (.malloc 24), 0), (.alloc (.mallocAligned 100 64), 0), (.freeLast, 0),
    (.alloc (.callocAligned 2 2048 4096), 12288)]

theorem blocks_ok_nextChunk : ∃ σ : State, σ.live = [⟨12288, 4096, 4096⟩, ⟨4096, 24, 16⟩] ∧
    (∀ x ∈ σ.blocks, (∃ r ∈ σ.regions, x.Inside r) ∧ x.addr % x.alignment = 0) ∧
      σ.live.Pairwise Block.Apart := by
  obtain ⟨σ, hσ, hp⟩ := Run.exists_of_any ⟨false, false⟩ (fits ⟨false, false⟩) 1 4096
    le_rfl (by decide) nextChunk
    (fun σ => decide (σ.live = [⟨12288, 4096, 4096⟩, ⟨4096, 24, 16⟩])) (by decide)
  have hok := blocks_ok rfl hσ
  exact ⟨σ, of_decide_eq_true hp, hok.1, hok.2 rfl⟩

/-- The block is larger than the chunk. -/
def largeAligned : List (Call × ℕ) := [(.alloc (.mallocAligned 8192 16), 0)]

/-- `tl_free_last` after a block from `malloc` takes back the block before it. -/
def freedLarge : List (Call × ℕ) :=
  [(.alloc (.malloc 16), 0), (.alloc (.malloc 5000), 8192), (.freeLast, 0),
    (.alloc (.malloc 16), 0)]

/-- **Not every run is correct**: a block may reach beyond its region, and two live blocks
may be the same. -/
theorem not_blocks_ok :
    (∃ σ : State, Run ⟨true, false⟩ (fun _ _ => true) σ ∧
      ¬ ∀ x ∈ σ.blocks, (∃ r ∈ σ.regions, x.Inside r) ∧ x.addr % x.alignment = 0) ∧
    ∃ σ : State, Run ⟨false, false⟩ (fun _ _ => true) σ ∧ ¬ σ.live.Pairwise Block.Apart := by
  constructor
  · obtain ⟨σ, hσ, hp⟩ := Run.exists_of_any ⟨true, false⟩ (fun _ _ => true) 1 4096
      le_rfl (by decide) largeAligned
      (fun σ => decide (¬ ∀ x ∈ σ.blocks,
        (∃ r ∈ σ.regions, x.Inside r) ∧ x.addr % x.alignment = 0)) (by decide)
    exact ⟨σ, hσ, of_decide_eq_true hp⟩
  · obtain ⟨σ, hσ, hp⟩ := Run.exists_of_any ⟨false, false⟩ (fun _ _ => true) 1 4096
      le_rfl (by decide) freedLarge
      (fun σ => decide (¬ σ.live.Pairwise Block.Apart)) (by decide)
    exact ⟨σ, hσ, of_decide_eq_true hp⟩

end Malloc

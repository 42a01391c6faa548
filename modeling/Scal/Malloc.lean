/-
The thread-local allocator (`util/malloc.cc`).

A thread has one chunk of memory and hands out blocks of it from `pointer` on.  What
`malloc` and `posix_memalign` return is the argument `fresh` of the functions; an
`Outcome` says whether they were called, and for how much memory.  Addresses are
numbers, `NULL` is `0`, and `pthread_getspecific` is the argument `b`.  What is written
into a block is left out.

A `State` adds the blocks of the past to the buffer: a `Run` is a sequence of calls
after `tlalloc_init`, in which every call satisfies a given condition.
-/
import Mathlib.Data.Nat.Notation
import Mathlib.Data.List.Basic
import Mathlib.Algebra.Group.Nat.Defs

namespace Malloc

def kPageSize : ℕ := 4096

def kTLABSize : ℕ := kPageSize

/-- `2 * sizeof(kWord)`. -/
def wordAlignment : ℕ := 16

structure Flags where
  reuseMemory : Bool
  disableTlAllocator : Bool

structure MemBuffer where
  memory : ℕ
  memSize : ℕ
  pointer : ℕ
  start : ℕ
  wrapAroundCnt : ℕ
  lastSize : ℕ

/-- Memory that `malloc` or `posix_memalign` returned. -/
structure Region where
  addr : ℕ
  size : ℕ
  alignment : ℕ

/-- The buffer after an allocation, the address it returns, and the memory it obtained. -/
structure Outcome where
  buffer : MemBuffer
  object : ℕ
  obtained : Option Region

def alignSize (size alignment : ℕ) : ℕ :=
  if alignment = 0 ∨ size % alignment = 0 then size else (size / alignment + 1) * alignment

/-- The chunk is exhausted: it is used again from its start, or replaced. -/
def MemBuffer.refill (b : MemBuffer) (flags : Flags) (fresh wrapped : ℕ) :
    MemBuffer × Option Region :=
  if flags.reuseMemory then
    ({ b with memory := b.start, pointer := b.start, wrapAroundCnt := b.wrapAroundCnt + wrapped },
      none)
  else
    ({ b with memSize := kTLABSize, memory := fresh, pointer := fresh },
      some ⟨fresh, kTLABSize, kPageSize⟩)

/-- The end of the block is beyond that of the chunk. -/
def MemBuffer.Exhausted (b : MemBuffer) (stop : ℕ) : Prop :=
  b.memory = 0 ∨ b.memory + b.memSize < stop

instance (b : MemBuffer) (stop : ℕ) : Decidable (b.Exhausted stop) :=
  inferInstanceAs (Decidable (_ ∨ _))

/-- The chunk used for a block that would end at `stop` in this one. -/
def MemBuffer.reserve (b : MemBuffer) (flags : Flags) (fresh wrapped stop : ℕ) :
    MemBuffer × Option Region :=
  if b.Exhausted stop then b.refill flags fresh wrapped else (b, none)

/-- The block from `object` on is handed out. -/
def MemBuffer.bump (b : MemBuffer) (object size : ℕ) : MemBuffer :=
  { b with pointer := object + size, lastSize := size }

def tlallocInit (numTlabs fresh : ℕ) : MemBuffer := ⟨fresh, kTLABSize * numTlabs, fresh, fresh, 0, 0⟩

def tlmalloc (flags : Flags) (size fresh : ℕ) (b : MemBuffer) : Outcome :=
  if flags.disableTlAllocator then ⟨b, fresh, some ⟨fresh, size, wordAlignment⟩⟩
  else
    let size := alignSize size wordAlignment
    if kPageSize < size then ⟨b, fresh, some ⟨fresh, size, wordAlignment⟩⟩
    else
      let (b, obtained) := b.reserve flags fresh 0 (b.pointer + size)
      ⟨b.bump b.pointer size, b.pointer, obtained⟩

def tlcalloc (flags : Flags) (num size fresh : ℕ) (b : MemBuffer) : Outcome :=
  tlmalloc flags (size * num) fresh b

def tlmallocAligned (flags : Flags) (size alignment fresh : ℕ) (b : MemBuffer) : Outcome :=
  if flags.disableTlAllocator then ⟨b, fresh, some ⟨fresh, size, alignment⟩⟩
  else if alignment = 0 then tlmalloc flags size fresh b
  else
    let alignment := if 4096 < alignment then 4096 else alignment
    let size := alignSize size alignment
    let (b, obtained) := b.reserve flags fresh 1 (alignSize b.pointer alignment + size)
    ⟨b.bump (alignSize b.pointer alignment) size, alignSize b.pointer alignment, obtained⟩

def tlcallocAligned (flags : Flags) (num size alignment fresh : ℕ) (b : MemBuffer) : Outcome :=
  tlmallocAligned flags (size * num) alignment fresh b

/-- `none` when the call aborts. -/
def tlFreeLast (b : MemBuffer) : Option MemBuffer :=
  if b.lastSize = 0 then none
  else some { b with pointer := b.pointer - b.lastSize, lastSize := 0 }

/-! ### Sequences of calls -/

inductive Alloc where
  | malloc (size : ℕ)
  | calloc (num size : ℕ)
  | mallocAligned (size alignment : ℕ)
  | callocAligned (num size alignment : ℕ)

/-- The number of bytes asked for. -/
def Alloc.bytes : Alloc → ℕ
  | .malloc size => size
  | .calloc num size => size * num
  | .mallocAligned size _ => size
  | .callocAligned num size _ => size * num

/-- The alignment asked for; every block is aligned to two words. -/
def Alloc.alignment : Alloc → ℕ
  | .malloc _ => wordAlignment
  | .calloc _ _ => wordAlignment
  | .mallocAligned _ alignment => alignment
  | .callocAligned _ _ alignment => alignment

def Alloc.run (flags : Flags) (fresh : ℕ) (b : MemBuffer) : Alloc → Outcome
  | .malloc size => tlmalloc flags size fresh b
  | .calloc num size => tlcalloc flags num size fresh b
  | .mallocAligned size alignment => tlmallocAligned flags size alignment fresh b
  | .callocAligned num size alignment => tlcallocAligned flags num size alignment fresh b

/-- At least one byte, with an alignment that is a power of two from 16 to 4096. -/
def Alloc.Admissible (a : Alloc) : Prop :=
  1 ≤ a.bytes ∧ ∃ k < 13, 4 ≤ k ∧ a.alignment = 2 ^ k

instance (a : Alloc) : Decidable a.Admissible := inferInstanceAs (Decidable (_ ∧ _))

inductive Call where
  | alloc (a : Alloc)
  | freeLast

structure Block where
  addr : ℕ
  size : ℕ
  alignment : ℕ
  deriving DecidableEq

/-- The buffer, the memory obtained, the blocks returned and those still live (the
latest first), and the last call, if it was an allocation. -/
structure State where
  buffer : MemBuffer
  regions : List Region
  blocks : List Block
  live : List Block
  last : Option Alloc

def State.init (numTlabs fresh : ℕ) : State :=
  ⟨tlallocInit numTlabs fresh, [⟨fresh, kTLABSize * numTlabs, kPageSize⟩], [], [], none⟩

def State.alloc (flags : Flags) (σ : State) (a : Alloc) (fresh : ℕ) : State :=
  let o := a.run flags fresh σ.buffer
  let block : Block := ⟨o.object, a.bytes, a.alignment⟩
  ⟨o.buffer, o.obtained.toList ++ σ.regions, block :: σ.blocks, block :: σ.live, some a⟩

/-- `tl_free_last` right after an allocation. -/
def State.freeLast (σ : State) : Option State :=
  match σ.last with
  | none => none
  | some _ => (tlFreeLast σ.buffer).map fun b =>
    { σ with buffer := b, live := σ.live.tail, last := none }

/-- Two pieces of memory, by address and size, have no byte in common. -/
def Apart (a m b n : ℕ) : Prop := a + m ≤ b ∨ b + n ≤ a

instance (a m b n : ℕ) : Decidable (Apart a m b n) := inferInstanceAs (Decidable (_ ∨ _))

def Block.Apart (x y : Block) : Prop := Malloc.Apart x.addr x.size y.addr y.size

def Block.Inside (x : Block) (r : Region) : Prop :=
  r.addr ≤ x.addr ∧ x.addr + x.size ≤ r.addr + r.size

/-- What is assumed of the memory that `malloc` and `posix_memalign` return. -/
def Region.Fresh (regions : List Region) (r : Region) : Prop :=
  r.addr ≠ 0 ∧ r.addr % r.alignment = 0 ∧
    ∀ q ∈ regions, Malloc.Apart r.addr r.size q.addr q.size

instance (regions : List Region) (r : Region) : Decidable (r.Fresh regions) :=
  inferInstanceAs (Decidable (_ ∧ _ ∧ _))

/-- The states reached by calls that all satisfy `ok`. -/
inductive Run (flags : Flags) (ok : State → Call → Bool) : State → Prop
  | init {n fresh : ℕ} : 1 ≤ n → Region.Fresh [] ⟨fresh, kTLABSize * n, kPageSize⟩ →
      Run flags ok (.init n fresh)
  | alloc {σ : State} {a : Alloc} {fresh : ℕ} : Run flags ok σ → a.Admissible →
      ok σ (.alloc a) → (∀ r ∈ (a.run flags fresh σ.buffer).obtained, r.Fresh σ.regions) →
      Run flags ok (σ.alloc flags a fresh)
  | free {σ σ' : State} : Run flags ok σ → ok σ .freeLast → σ.freeLast = some σ' →
      Run flags ok σ'

/-- A sequence of calls, with the memory obtained for each, if all of it is allowed. -/
def State.exec (flags : Flags) (ok : State → Call → Bool) (σ : State) :
    List (Call × ℕ) → Option State
  | [] => some σ
  | (.alloc a, fresh) :: cs =>
    if a.Admissible ∧ ok σ (.alloc a) ∧
        ∀ r ∈ (a.run flags fresh σ.buffer).obtained, r.Fresh σ.regions then
      (σ.alloc flags a fresh).exec flags ok cs
    else none
  | (.freeLast, _) :: cs =>
    if ok σ .freeLast then σ.freeLast.bind fun σ => σ.exec flags ok cs else none

theorem Run.exec {flags : Flags} {ok : State → Call → Bool} :
    ∀ (cs : List (Call × ℕ)) {σ σ' : State}, Run flags ok σ → σ.exec flags ok cs = some σ' →
      Run flags ok σ' := by
  intro cs
  induction cs with
  | nil =>
    intro σ σ' hσ h
    obtain rfl : σ = σ' := by simpa [State.exec] using h
    exact hσ
  | cons c cs ih =>
    intro σ σ' hσ h
    obtain ⟨_ | _, fresh⟩ := c
    · rw [State.exec, Option.ite_none_right_eq_some] at h
      obtain ⟨⟨ha, hok, hfresh⟩, h⟩ := h
      exact ih (hσ.alloc ha hok hfresh) h
    · rw [State.exec, Option.ite_none_right_eq_some, Option.bind_eq_some_iff] at h
      obtain ⟨hok, σ₁, hs, h⟩ := h
      exact ih (hσ.free hok hs) h

/-- A test that succeeds after a sequence of calls holds of a state of a run. -/
theorem Run.exists_of_any (flags : Flags) (ok : State → Call → Bool) (n fresh : ℕ) (hn : 1 ≤ n)
    (hfresh : Region.Fresh [] ⟨fresh, kTLABSize * n, kPageSize⟩) (cs : List (Call × ℕ))
    (p : State → Bool) (h : ((State.init n fresh).exec flags ok cs).any p = true) :
    ∃ σ, Run flags ok σ ∧ p σ = true := by
  obtain ⟨σ, hσ, hp⟩ := (Option.any_eq_true _ _).mp h
  exact ⟨σ, Run.exec cs (.init hn hfresh) hσ, hp⟩

end Malloc

/-
The buffers of the timestamped deque in every reachable state.

The owner of a buffer is the only one to link items, and it links each next to an item beyond
which all are taken; what lies beyond is dropped.  So two paths of items lead through a buffer,
one from each end, and the items that are not taken lie on both.  A dropped item still leads
back to the buffer, but an end pointer must never be moved to it.

* `Ghost` — the paths, which buffer an item was put in, how far its owner's insert has got
  (`Stage`), and what the emptiness check pointers of a thread tell (`Memo`);
* `BufferInv`, `HeapInv` — an end pointer lies on the path from its end, and all items further
  on its side are taken;
* `Fact` — what a thread knows, however long it is delayed.  What a remover knows of the item
  that it has found, it knows until the owner stores the end pointer that the remover has read
  (`Spotted`);
* `Evolves`, `Keeps` — what a thread relies on about the steps of others.
-/
import Scal.TSDequeBuffers
import Scal.TSDequeHistory
import Scal.Chain

open Interleave Linearizability

namespace TSDeque

variable {α : Type} {T : TimeStamp} {n : ℕ}

/-! ### Sides -/

section Sides

variable {s : Side} {i j k : ℤ}

theorem ahead_other : Ahead s.other i j ↔ Ahead s j i := by
  cases s
  · exact Iff.rfl
  · exact Iff.rfl

theorem Ahead.trans_not (h : Ahead s i j) (h' : ¬Ahead s k j) : Ahead s i k := by
  cases s
  · exact lt_of_lt_of_le h (not_lt.mp h')
  · exact lt_of_le_of_lt (not_lt.mp h') h

theorem Ahead.not_trans (h : ¬Ahead s j i) (h' : Ahead s j k) : Ahead s i k := by
  cases s
  · exact lt_of_le_of_lt (not_lt.mp h) h'
  · exact lt_of_lt_of_le h' (not_lt.mp h)

theorem not_ahead_trans (h : ¬Ahead s i j) (h' : ¬Ahead s j k) : ¬Ahead s i k := fun h'' =>
  h (h''.trans_not h')

theorem inserted_of_not_ahead (h : ¬Ahead s j i) (hj : inserted s j = true) :
    inserted s i = true := by
  cases s
  · exact decide_eq_true ((not_lt.mp h).trans_lt (of_decide_eq_true hj))
  · exact decide_eq_true ((of_decide_eq_true hj).trans_le (not_lt.mp h))

/-- What was inserted at a side lies further there than what was not. -/
theorem ahead_of_inserted (hi : inserted s i = true) (hj : inserted s j = false) :
    Ahead s i j := by
  cases s
  · exact (of_decide_eq_true hi).trans_le (not_lt.mp (of_decide_eq_false hj))
  · exact (not_lt.mp (of_decide_eq_false hj)).trans_lt (of_decide_eq_true hi)

theorem inserted_or (hi : i ≠ 0) (s : Side) : inserted s i = true ∨ inserted s.other i = true := by
  have h : i < 0 ∨ 0 < i := lt_or_gt_of_ne hi
  cases s
  · exact h.imp decide_eq_true decide_eq_true
  · exact h.symm.imp decide_eq_true decide_eq_true

theorem not_inserted_other (hi : inserted s i = true) : inserted s.other i = false := by
  cases s
  · exact decide_eq_false (lt_asymm (of_decide_eq_true hi))
  · exact decide_eq_false (lt_asymm (of_decide_eq_true hi))

end Sides

/-! ### The ghost state -/

/-- How far the owner of a buffer has got with an insert at a side: it will link the new item
next to item `p`, or it has done so and the pointer of that side is not stored yet. -/
inductive Stage where
  | steady
  | settled (side : Side) (p : ℕ)
  | linked (side : Side) (p new : ℕ)

/-- What the emptiness check pointers of a buffer tell: that it has been empty since, or that
the pointer of a side is not the remembered one any more, and will never be again. -/
inductive Memo where
  | nothing
  | empty
  | passed (side : Side)
  deriving DecidableEq

/-- The items from each end of a buffer to the other one, the buffer an item was put in, the
linked item of a buffer that is not put yet, the stage of the owner's insert, what a thread's
emptiness check pointers tell, the thread that allocated an item, and whether all buffers were
empty when a thread's last scan began. -/
structure Ghost where
  path : ℕ → Side → List ℕ
  home : ℕ → Option ℕ
  fresh : ℕ → Option ℕ
  stage : ℕ → Stage
  memo : ℕ → ℕ → Memo
  owner : ℕ → ℕ
  saw : ℕ → Bool

def Ghost.Linked (g : Ghost) (b p : ℕ) : Prop := g.home p = some b ∨ g.fresh b = some p

/-- Item `p` lies further on a side than item `q`. -/
def Shared.Further (σ : Shared α T) (s : Side) (p q : ℕ) : Prop :=
  Ahead s (σ.item p).index (σ.item q).index

/-- The item that `p` is linked to, away from side `s`. -/
def Shared.inward (σ : Shared α T) (s : Side) (p : ℕ) : ℕ := (σ.item p).link s.other

def Live (σ : Shared α T) (g : Ghost) (b p : ℕ) : Prop :=
  g.home p = some b ∧ (σ.item p).taken = false

/-- The items of buffer `b` that lie further on side `s` than item `p` are taken. -/
def Clear (σ : Shared α T) (g : Ghost) (s : Side) (b p : ℕ) : Prop :=
  ∀ q, Live σ g b q → ¬σ.Further s q p

/-- The two paths of buffer `b` are the same one. -/
def Ghost.Joined (g : Ghost) (b : ℕ) : Prop := ∀ s : Side, g.path b s.other = (g.path b s).reverse

def StageOk (σ : Shared α T) (g : Ghost) (b : ℕ) : Stage → Prop
  | .steady => g.Joined b
  | .settled s p => g.Joined b ∧ p ∈ g.path b s ∧ Clear σ g s b p ∧
    ¬σ.Further s (σ.pointer s.other b).pointer p
  | .linked s p new => (∃ pre rest, g.path b s = pre ++ p :: rest ∧
      g.path b s.other = rest.reverse ++ [p, new]) ∧ g.Linked b new ∧
    σ.inward s new = p ∧ inserted s (σ.item new).index = true ∧
    ∀ q, g.home q = some b → q = new ∨ q < new ∧ σ.Further s new q

def MemoOk (σ : Shared α T) (g : Ghost) (t b : ℕ) : Memo → Prop
  | .nothing => True
  | .empty => ∀ q, ¬Live σ g b q
  | .passed s => (σ.emptinessCheck s t b).pointer < (σ.pointer s b).pointer ∧
    (∀ q, Live σ g b q → (σ.emptinessCheck s t b).pointer < q) ∧
    ∀ q ∈ (g.path b s.other).getLast?, (σ.emptinessCheck s t b).pointer < q

structure BufferInv (σ : Shared α T) (g : Ghost) (b : ℕ) : Prop where
  path : ∀ s, LinkedPath (σ.inward s) (g.path b s)
  sorted : ∀ s, (g.path b s).Pairwise (σ.Further s)
  member : ∀ {s p}, p ∈ g.path b s → g.Linked b p
  live : ∀ {s q}, Live σ g b q → q ∈ g.path b s
  home : ∀ s, g.home (σ.pointer s b).pointer = some b
  pointer : ∀ s, (σ.pointer s b).pointer ∈ g.path b s
  clear : ∀ s, Clear σ g s b (σ.pointer s b).pointer
  stage : StageOk σ g b (g.stage b)
  next : ∀ {s p}, g.Linked b p → σ.inward s p ≠ p → g.Linked b (σ.inward s p) ∧
    σ.Further s p (σ.inward s p) ∧
    ∀ q, Live σ g b q → σ.Further s p q → ¬σ.Further s q (σ.inward s p)
  last : ∀ {s p}, g.Linked b p → σ.inward s p = p → inserted s (σ.item p).index = false
  index : ∀ {p}, g.Linked b p → -σ.nextIndex b < (σ.item p).index ∧
    (σ.item p).index < σ.nextIndex b
  unique : ∀ {p q}, g.Linked b p → g.Linked b q → (σ.item p).index = (σ.item q).index → p = q
  age : ∀ {s p q}, g.Linked b p → g.Linked b q → inserted s (σ.item q).index = true →
    σ.Further s p q → q < p
  sign : ∀ {q}, Live σ g b q → (σ.item q).index ≠ 0
  fresh : ∀ {p}, g.fresh b = some p → g.home p = none ∧ (σ.item p).taken = false ∧
    ∃ s q, g.stage b = .linked s q p
  check : ∀ s t, (σ.emptinessCheck s t b).pointer = 0 ∨
    g.home (σ.emptinessCheck s t b).pointer = some b
  memo : ∀ t, MemoOk σ g t b (g.memo t b)

/-- What the log tells about the emptiness check pointers of thread `t` for buffer `b`. -/
def Remembered (n : ℕ) (σ : (machine α T n).logged.Shared) (g : Ghost) (t b : ℕ) : Prop :=
  (∀ s, (σ.1.emptinessCheck s t b).pointer = 0) ∨
    ∃ a, lastCheck σ.2 t b = some a ∧ (misses b a = false → g.memo t b ≠ .nothing)

structure HeapInv (n : ℕ) (σ : (machine α T n).logged.Shared) (g : Ghost) : Prop where
  alloc : 0 < σ.1.alloc
  linked : ∀ {b p}, g.Linked b p → b < n ∧ p ≠ 0 ∧ p < σ.1.alloc ∧
    ((σ.1.item p).taken = false → (σ.1.item p).data.isSome = true)
  owner : ∀ {b p}, g.fresh b = some p → g.owner p = b
  buffer : ∀ b < n, BufferInv σ.1 g b
  checked : ∀ t, ∀ b < n, Remembered n σ g t b

/-! ### What a thread relies on -/

/-- How buffer `b` evolves in a step of another thread, as thread `u` sees it. -/
structure BufferEvolves (u : ℕ) (σ : (machine α T n).logged.Shared) (g : Ghost)
    (σ' : (machine α T n).logged.Shared) (g' : Ghost) (b : ℕ) : Prop where
  home : ∀ {p}, g.home p = some b → g'.home p = some b
  linked : ∀ {p}, g.Linked b p → g'.Linked b p
  appears : ∀ {q}, Live σ'.1 g' b q → g.home q ≠ some b → ∃ s,
    storedSince σ'.2 u s b = true ∧ inserted s (σ'.1.item q).index = true ∧
    ∀ p, g.Linked b p → p = q ∨ p < q ∧ σ'.1.Further s q p
  path : ∀ {s}, storedSince σ'.2 u s b = false → ∀ r ∈ g.path b s,
    (∀ v, g.stage b = .settled s.other v → ¬σ.1.Further s.other r v) → r ∈ g'.path b s
  settled : ∀ {s v}, storedSince σ'.2 u s b = false → g'.stage b = .settled s.other v →
    g.stage b = .settled s.other v ∨ Live σ.1 g b v
  passed : ∀ {s t}, storedSince σ'.2 u s b = false → g'.memo t b = .passed s →
    g.memo t b = .passed s ∧ σ'.1.emptinessCheck s t b = σ.1.emptinessCheck s t b ∨
      ∃ q, Live σ.1 g b q ∧ inserted s (σ.1.item q).index = true ∧
        (σ'.1.emptinessCheck s t b).pointer < q

structure Evolves (u : ℕ) (σ : (machine α T n).logged.Shared) (g : Ghost)
    (σ' : (machine α T n).logged.Shared) (g' : Ghost) : Prop where
  alloc : σ.1.alloc ≤ σ'.1.alloc
  data : ∀ p < σ.1.alloc, (σ'.1.item p).data = (σ.1.item p).data
  index : ∀ p < σ.1.alloc, (σ'.1.item p).index = (σ.1.item p).index
  taken : ∀ p < σ.1.alloc, (σ.1.item p).taken = true → (σ'.1.item p).taken = true
  stored : ∀ {s b}, storedSince σ.2 u s b = true → storedSince σ'.2 u s b = true
  buffer : ∀ b, BufferEvolves u σ g σ' g' b

/-- What only thread `u` changes. -/
structure Keeps (u : ℕ) (σ : (machine α T n).logged.Shared) (g : Ghost)
    (σ' : (machine α T n).logged.Shared) (g' : Ghost) : Prop where
  own : ∀ p < σ.1.alloc, g.owner p = u → g'.owner p = u ∧
    ((∀ b, ¬g.Linked b p) → (∀ b, ¬g'.Linked b p) ∧ σ'.1.item p = σ.1.item p)
  path : g'.path u = g.path u
  stage : g'.stage u = g.stage u
  nextIndex : σ'.1.nextIndex u = σ.1.nextIndex u
  link : ∀ p, g.Linked u p → (σ'.1.item p).link = (σ.1.item p).link
  linked : ∀ {p}, g'.Linked u p → g.Linked u p
  live : ∀ {q}, Live σ'.1 g' u q → Live σ.1 g u q
  check : ∀ s b, σ'.1.emptinessCheck s u b = σ.1.emptinessCheck s u b
  memo : ∀ b, g'.memo u b = g.memo u b ∨ g.memo u b = .empty ∧ ∃ s, g'.memo u b = .passed s
  saw : g'.saw u = g.saw u

structure Rely (u : ℕ) (σ : (machine α T n).logged.Shared) (g : Ghost)
    (σ' : (machine α T n).logged.Shared) (g' : Ghost) : Prop where
  evolves : Evolves u σ g σ' g'
  keeps : Keeps u σ g σ' g'

/-! ### What a thread knows -/

/-- An item that thread `t` allocated and has not linked yet. -/
structure Own (t : ℕ) (side : Side) (p : ℕ) (σ : Shared α T) (g : Ghost) : Prop where
  owner : g.owner p = t
  lt : p < σ.alloc
  ne : p ≠ 0
  unlinked : ∀ b, ¬g.Linked b p
  taken : (σ.item p).taken = false
  data : (σ.item p).data.isSome = true
  link : (σ.item p).link side = p
  sign : inserted side (σ.item p).index = true
  index : -σ.nextIndex t < (σ.item p).index ∧ (σ.item p).index < σ.nextIndex t
  further : ∀ q, g.Linked t q → q < p ∧ σ.Further side p q

/-- The pointer of side `s` may be moved to the item `r`, if it is still `tmp`. -/
structure Held (σ : Shared α T) (g : Ghost) (s : Side) (b : ℕ) (tmp : TaggedPointer) (r : ℕ) :
    Prop where
  path : r ∈ g.path b s
  clear : Clear σ g s b r
  settled : ∀ p, g.stage b = .settled s.other p → ¬σ.Further s.other r p
  passed : ∀ t, g.memo t b = .passed s → (σ.emptinessCheck s t b).pointer < tmp.pointer →
    (σ.emptinessCheck s t b).pointer < r

/-- Thread `t` found the item `r` after it had read the pointer `tmp`. -/
structure Spotted (t : ℕ) (s : Side) (b : ℕ) (tmp : TaggedPointer) (r : ℕ)
    (σ : (machine α T n).logged.Shared) (g : Ghost) : Prop where
  lt : b < n
  read : g.home tmp.pointer = some b
  linked : g.Linked b r
  data : (σ.1.item r).data.isSome = true
  held : storedSince σ.2 t s b = false → Held σ.1 g s b tmp r

/-- Thread `t` searches buffer `b` from side `s` on and has come to the item `p`. -/
structure Walking (t : ℕ) (s : Side) (b : ℕ) (tmp : TaggedPointer) (p : ℕ)
    (σ : (machine α T n).logged.Shared) (g : Ghost) : Prop where
  read : g.home tmp.pointer = some b
  item : g.home p = some b ∨ g.fresh b = some p ∧ inserted s.other (σ.1.item p).index = true
  behind : ∀ q, Live σ.1 g b q → q ≤ tmp.pointer → ¬σ.1.Further s q p
  clear : storedSince σ.2 t s b = false → Clear σ.1 g s b p

/-- No item that was inserted at side `s` lies beyond the threshold. -/
def Limit (s : Side) (b : ℕ) (threshold : ℤ) (σ : Shared α T) (g : Ghost) : Prop :=
  ∃ p, g.home p = some b ∧ (σ.item p).index = threshold ∧
    ∀ q, Live σ g b q → inserted s (σ.item q).index = true → ¬σ.Further s p q

/-- The search from side `s` found nothing: what was inserted there is newer than `tmp`. -/
def Searched (s : Side) (b : ℕ) (tmp : TaggedPointer) (σ : Shared α T) (g : Ghost) : Prop :=
  g.home tmp.pointer = some b ∧
    ∀ q, Live σ g b q → inserted s (σ.item q).index = true → tmp.pointer < q

/-- All buffers were empty when the scan of thread `t` began, or one of those from index `i`
of the scan on was not. -/
def Fenced (n t start i : ℕ) (g : Ghost) : Prop :=
  g.saw t = true ∨ ∃ j, i ≤ j ∧ j < n ∧ g.memo t ((start + j) % n) ≠ .empty

/-- The pointer `tmp` of the current buffer is not the remembered one if the buffer's own
pointer was passed. -/
def Tripped (t : ℕ) (s : Side) (b : ℕ) (tmp : TaggedPointer) (σ : Shared α T) (g : Ghost) : Prop :=
  g.memo t b ≠ .empty ∧ (g.memo t b = .passed s → σ.emptinessCheck s t b ≠ tmp)

/-- Facts that stay true once they are true. -/
inductive Fact (α : Type) (T : TimeStamp) where
  | stage (stage : Stage)
  /-- The item is private. -/
  | own (side : Side) (p : ℕ)
  /-- And it is linked to this one. -/
  | ownLinked (side : Side) (p q : ℕ)
  /-- The insert has come to this item. -/
  | walk (side : Side) (p : ℕ)
  /-- The item of the thread's own buffer is the last one. -/
  | ends (side : Side) (p : ℕ)
  | inner (side : Side) (p : ℕ)
  /-- The insert found its place: at the other end, or before an item that was not taken. -/
  | ending (side : Side) (p : ℕ)
  /-- The item is linked, but the pointer is not stored yet. -/
  | linking (side : Side) (p : ℕ)
  /-- The thread's buffer has the item. -/
  | put (p : ℕ)
  | taken (p : ℕ)
  /-- The pointer of the buffer was this one. -/
  | read (b : ℕ) (tmp : TaggedPointer)
  | limit (side : Side) (b p : ℕ)
  | threshold (side : Side) (b : ℕ) (threshold : ℤ)
  | walking (side : Side) (b : ℕ) (tmp : TaggedPointer) (p : ℕ)
  | found (side : Side) (b : ℕ) (tmp : TaggedPointer) (p : ℕ)
  | searched (side : Side) (b : ℕ) (tmp : TaggedPointer)
  /-- If nothing was found yet, there is a fence ahead. -/
  | fenced (s : Scan T)
  /-- If nothing is found in the current buffer either, there is a fence ahead. -/
  | fencedNext (s : Scan T) (tmp : TaggedPointer)
  /-- The item to be taken, from a buffer before index `k` of the scan. -/
  | result (s : Scan T) (k : ℕ)
  /-- The thread took the item. -/
  | got (p : ℕ)

def Fact.Holds (t : ℕ) (σ : (machine α T n).logged.Shared) (g : Ghost) : Fact α T → Prop
  | .stage st => g.stage t = st
  | .own s p => Own t s p σ.1 g
  | .ownLinked s p q => Own t s p σ.1 g ∧ σ.1.inward s p = q
  | .walk s p => g.Linked t p ∧ p ∈ g.path t s ∧ Clear σ.1 g s t p
  | .ends s p => g.Linked t p ∧ σ.1.inward s p = p
  | .inner s p => g.Linked t p ∧ σ.1.inward s p ≠ p
  | .ending s p => g.Linked t p ∧
    (g.stage t = .steady ∧ p ∈ g.path t s ∧ Clear σ.1 g s t p ∧ σ.1.inward s p = p ∨
      g.stage t = .settled s p ∧ σ.1.inward s p ≠ p)
  | .linking s p => ∃ q, g.stage t = .linked s q p
  | .put p => g.home p = some t
  | .taken p => p < σ.1.alloc ∧ (σ.1.item p).taken = true
  | .read b tmp => g.home tmp.pointer = some b
  | .limit s b p => Limit s b (σ.1.item p).index σ.1 g ∧ p < σ.1.alloc
  | .threshold s b i => Limit s b i σ.1 g
  | .walking s b tmp p => Walking t s b tmp p σ g
  | .found s b tmp p => Spotted t s b tmp p σ g
  | .searched s b tmp => Searched s b tmp σ.1 g
  | .fenced s => s.empty = true → Fenced n t s.start s.i g
  | .fencedNext s tmp => s.empty = true → Fenced n t s.start (s.i + 1) g ∨
    Tripped t s.side (s.tmpBufferIndex n) tmp σ.1 g
  | .result s k => s.result ≠ 0 → (∃ j < k, s.bufferIndex = (s.start + j) % n) ∧
    Spotted t s.side s.bufferIndex s.old s.result σ g
  | .got p => p < σ.1.alloc ∧ (σ.1.item p).data.isSome = true

section Stable

variable {u b : ℕ} {σ σ' : (machine α T n).logged.Shared} {g g' : Ghost} {s : Side}
  {tmp : TaggedPointer} {p q r : ℕ}

theorem HeapInv.linked_lt (hI : HeapInv n σ g) (hp : g.Linked b p) : p < σ.1.alloc :=
  (hI.linked hp).2.2.1

theorem HeapInv.home_lt (hI : HeapInv n σ g) (hp : g.home p = some b) : p < σ.1.alloc :=
  hI.linked_lt (.inl hp)

/-- The order of two items does not change. -/
theorem Evolves.further (hE : Evolves u σ g σ' g') (hp : p < σ.1.alloc) (hq : q < σ.1.alloc) :
    σ'.1.Further s p q ↔ σ.1.Further s p q := by
  rw [Shared.Further, Shared.Further, hE.index p hp, hE.index q hq]

/-- An item that is not taken now was not taken before. -/
theorem Evolves.live (hE : Evolves u σ g σ' g') (hI : HeapInv n σ g) (hq : Live σ'.1 g' b q)
    (hh : g.home q = some b) : Live σ.1 g b q := by
  refine ⟨hh, Bool.eq_false_iff.mpr fun ht => ?_⟩
  have := hE.taken q (hI.home_lt hh) ht
  rw [hq.2] at this
  cases this

theorem further_asymm {σ : Shared α T} (h : σ.Further s p q) : ¬σ.Further s q p := h.not

theorem further_irrefl {σ : Shared α T} : ¬σ.Further s p p := fun h => h.ne rfl

theorem further_other {σ : Shared α T} : σ.Further s.other p q ↔ σ.Further s q p := ahead_other

/-- As long as the owner has not stored the pointer of the side, no item appears there. -/
theorem Evolves.clear (hE : Evolves u σ g σ' g') (hI : HeapInv n σ g)
    (hs : storedSince σ'.2 u s b = false) (hr : g.Linked b r) (hc : Clear σ.1 g s b r) :
    Clear σ'.1 g' s b r := by
  intro q hq
  by_cases hh : g.home q = some b
  · rw [hE.further (hI.home_lt hh) (hI.linked_lt hr)]
    exact hc q (hE.live hI hq hh)
  · obtain ⟨s', hs', -, hf⟩ := (hE.buffer _).appears hq hh
    rcases s.eq_or_eq_other s' with rfl | rfl
    · rw [hs] at hs'
      cases hs'
    · rcases hf r hr with rfl | ⟨-, hf⟩
      · exact further_irrefl
      · exact fun h => further_asymm hf (further_other.mpr h)

theorem Evolves.unstored (hE : Evolves u σ g σ' g') (hs : storedSince σ'.2 u s b = false) :
    storedSince σ.2 u s b = false :=
  Bool.eq_false_iff.mpr fun h => by
    rw [hE.stored h] at hs
    cases hs

/-- An item at or before another one that was inserted at the side is at least as new. -/
theorem BufferInv.le_of_not_further {σ : Shared α T} (hB : BufferInv σ g b) (hq : g.Linked b q)
    (hr : g.Linked b r) (hi : inserted s (σ.item q).index = true) (h : ¬σ.Further s q r) :
    q ≤ r := by
  by_cases he : (σ.item q).index = (σ.item r).index
  · exact (hB.unique hq hr he).le
  · exact (hB.age hr hq hi ((ahead_or s he).resolve_left h)).le

theorem Spotted.evolves (hF : Spotted u s b tmp r σ g) (hI : HeapInv n σ g)
    (hE : Evolves u σ g σ' g') : Spotted u s b tmp r σ' g' where
  lt := hF.lt
  read := (hE.buffer _).home hF.read
  linked := (hE.buffer _).linked hF.linked
  data := by
    rw [hE.data r (hI.linked_lt hF.linked)]
    exact hF.data
  held hs := by
    have hH := hF.held (hE.unstored hs)
    have hlt := hI.linked_lt hF.linked
    refine ⟨(hE.buffer _).path hs r hH.path hH.settled, hE.clear hI hs hF.linked hH.clear,
      fun v hv => ?_,
      fun t ht hlt' => ?_⟩
    · rcases (hE.buffer _).settled hs hv with hv | hv
      · have hv' : v < σ.1.alloc := by
          have hst := (hI.buffer b hF.lt).stage
          rw [hv] at hst
          exact hI.linked_lt ((hI.buffer b hF.lt).member hst.2.1)
        rw [hE.further hlt hv']
        exact hH.settled v hv
      · rw [further_other, hE.further (hI.home_lt hv.1) hlt]
        exact hH.clear v hv
    · rcases (hE.buffer _).passed hs ht with ⟨ht, hc⟩ | ⟨q, hq, hi, hlt⟩
      · rw [hc] at hlt' ⊢
        exact hH.passed t ht hlt'
      · exact hlt.trans_le ((hI.buffer b hF.lt).le_of_not_further (.inl hq.1) hF.linked hi
          (hH.clear q hq))

theorem Walking.evolves (hW : Walking u s b tmp p σ g) (hI : HeapInv n σ g)
    (hE : Evolves u σ g σ' g') : Walking u s b tmp p σ' g' := by
  have hp : g.Linked b p := hW.item.imp_right And.left
  have hlt := hI.linked_lt hp
  refine ⟨(hE.buffer _).home hW.read, ?_, fun q hq hle => ?_,
      fun hs => hE.clear hI hs hp (hW.clear (hE.unstored hs))⟩
  · rcases hW.item with h | ⟨h, hi⟩
    · exact .inl ((hE.buffer _).home h)
    · rcases (hE.buffer _).linked (.inr h) with h | h
      · exact .inl h
      · rw [hE.index p hlt]
        exact .inr ⟨h, hi⟩
  · by_cases hh : g.home q = some b
    · rw [hE.further (hI.home_lt hh) hlt]
      exact hW.behind q (hE.live hI hq hh) hle
    · obtain ⟨s', -, -, hf⟩ := (hE.buffer _).appears hq hh
      rcases hf _ (.inl hW.read) with he | ⟨hlt', -⟩
      · exact absurd (he ▸ hW.read) hh
      · omega

theorem Limit.evolves {i : ℤ} (hL : Limit s b i σ.1 g) (hI : HeapInv n σ g)
    (hE : Evolves u σ g σ' g') : Limit s b i σ'.1 g' := by
  obtain ⟨p, hp, rfl, hL⟩ := hL
  have hlt := hI.home_lt hp
  refine ⟨p, (hE.buffer _).home hp, hE.index p hlt, fun q hq hi => ?_⟩
  by_cases hh : g.home q = some b
  · have hqlt := hI.home_lt hh
    rw [hE.further hlt hqlt]
    rw [hE.index q hqlt] at hi
    exact hL q (hE.live hI hq hh) hi
  · obtain ⟨s', -, hi', hf⟩ := (hE.buffer _).appears hq hh
    rcases hf p (.inl hp) with rfl | ⟨-, hf⟩
    · exact further_irrefl
    · rcases s.eq_or_eq_other s' with rfl | rfl
      · exact further_asymm hf
      · rw [not_inserted_other hi] at hi'
        cases hi'

theorem Searched.evolves (hS : Searched s b tmp σ.1 g) (hI : HeapInv n σ g)
    (hE : Evolves u σ g σ' g') : Searched s b tmp σ'.1 g' := by
  refine ⟨(hE.buffer _).home hS.1, fun q hq hi => ?_⟩
  by_cases hh : g.home q = some b
  · rw [hE.index q (hI.home_lt hh)] at hi
    exact hS.2 q (hE.live hI hq hh) hi
  · obtain ⟨s', -, -, hf⟩ := (hE.buffer _).appears hq hh
    rcases hf _ (.inl hS.1) with he | ⟨hlt, -⟩
    · exact absurd (he ▸ hS.1) hh
    · exact hlt

theorem Own.keeps (ho : Own u s p σ.1 g) (hK : Keeps u σ g σ' g') (hE : Evolves u σ g σ' g')
    (hI : HeapInv n σ g) : Own u s p σ'.1 g' ∧ σ'.1.item p = σ.1.item p := by
  obtain ⟨howner, hu⟩ := hK.own p ho.lt ho.owner
  obtain ⟨hu, hitem⟩ := hu ho.unlinked
  refine ⟨⟨howner, ho.lt.trans_le hE.alloc, ho.ne, hu, ?_, ?_, ?_, ?_, ?_, fun q hq => ?_⟩, hitem⟩
  · rw [hitem]
    exact ho.taken
  · rw [hitem]
    exact ho.data
  · rw [hitem]
    exact ho.link
  · rw [hitem]
    exact ho.sign
  · rw [hitem, hK.nextIndex]
    exact ho.index
  · obtain ⟨hlt, hf⟩ := ho.further q (hK.linked hq)
    exact ⟨hlt, (hE.further ho.lt (hI.linked_lt (hK.linked hq))).mpr hf⟩

theorem Keeps.walk (hK : Keeps u σ g σ' g') (hE : Evolves u σ g σ' g') (hI : HeapInv n σ g)
    (hp : g.Linked u p) (hm : p ∈ g.path u s) (hc : Clear σ.1 g s u p) :
    p ∈ g'.path u s ∧ Clear σ'.1 g' s u p := by
  refine ⟨by rw [hK.path]; exact hm, fun q hq => ?_⟩
  have hq := hK.live hq
  rw [hE.further (hI.home_lt hq.1) (hI.linked_lt hp)]
  exact hc q hq

theorem Keeps.inward (hK : Keeps u σ g σ' g') (hp : g.Linked u p) :
    σ'.1.inward s p = σ.1.inward s p := by
  rw [Shared.inward, Shared.inward, hK.link p hp]

theorem Fenced.keeps {start i : ℕ} (hf : Fenced n u start i g) (hK : Keeps u σ g σ' g') :
    Fenced n u start i g' := by
  rcases hf with hs | ⟨j, hij, hj, hm⟩
  · exact .inl (hK.saw.trans hs)
  · refine .inr ⟨j, hij, hj, ?_⟩
    rcases hK.memo ((start + j) % n) with he | ⟨he, -⟩
    · rw [he]
      exact hm
    · exact absurd he hm

theorem Tripped.keeps (ht : Tripped u s b tmp σ.1 g) (hK : Keeps u σ g σ' g') :
    Tripped u s b tmp σ'.1 g' := by
  obtain ⟨hm, hp⟩ := ht
  rcases hK.memo b with he | ⟨he, -⟩
  · rw [Tripped, he, hK.check]
    exact ⟨hm, hp⟩
  · exact absurd he hm

theorem Fact.Holds.rely {F : Fact α T} (hF : F.Holds u σ g) (hI : HeapInv n σ g)
    (hr : Rely u σ g σ' g') : F.Holds u σ' g' := by
  obtain ⟨hE, hK⟩ := hr
  cases F with
  | stage st => exact hK.stage.trans hF
  | own s p => exact (hF.keeps hK hE hI).1
  | ownLinked s p q =>
    obtain ⟨ho, hq⟩ := hF
    obtain ⟨ho', hitem⟩ := ho.keeps hK hE hI
    refine ⟨ho', ?_⟩
    rw [Shared.inward, hitem]
    exact hq
  | walk s p =>
    obtain ⟨hp, hm, hc⟩ := hF
    exact ⟨(hE.buffer _).linked hp, hK.walk hE hI hp hm hc⟩
  | ends s p =>
    obtain ⟨hp, he⟩ := hF
    exact ⟨(hE.buffer _).linked hp, (hK.inward hp).trans he⟩
  | inner s p =>
    obtain ⟨hp, he⟩ := hF
    refine ⟨(hE.buffer _).linked hp, ?_⟩
    rw [hK.inward hp]
    exact he
  | ending s p =>
    obtain ⟨hp, h⟩ := hF
    refine ⟨(hE.buffer _).linked hp, ?_⟩
    rw [hK.stage, hK.inward hp]
    rcases h with ⟨hst, hm, hc, he⟩ | h
    · obtain ⟨hm, hc⟩ := hK.walk hE hI hp hm hc
      exact .inl ⟨hst, hm, hc, he⟩
    · exact .inr h
  | linking s p =>
    obtain ⟨q, hq⟩ := hF
    exact ⟨q, hK.stage.trans hq⟩
  | put p => exact (hE.buffer _).home hF
  | taken p => exact ⟨hF.1.trans_le hE.alloc, hE.taken p hF.1 hF.2⟩
  | read b tmp => exact (hE.buffer _).home hF
  | limit s b p =>
    obtain ⟨hL, hlt⟩ := hF
    refine ⟨?_, hlt.trans_le hE.alloc⟩
    rw [hE.index p hlt]
    exact hL.evolves hI hE
  | threshold s b i => exact Limit.evolves hF hI hE
  | walking s b tmp p => exact Walking.evolves hF hI hE
  | found s b tmp p => exact Spotted.evolves hF hI hE
  | searched s b tmp => exact Searched.evolves hF hI hE
  | fenced s => exact fun h => (hF h).keeps hK
  | fencedNext s tmp => exact fun h => (hF h).imp (·.keeps hK) (·.keeps hK)
  | result s k =>
    intro h
    obtain ⟨hj, hf⟩ := hF h
    exact ⟨hj, hf.evolves hI hE⟩
  | got p =>
    obtain ⟨hlt, hd⟩ := hF
    refine ⟨hlt.trans_le hE.alloc, ?_⟩
    rw [hE.data p hlt]
    exact hd

end Stable

/-- What a thread knows at each point of its call. -/
def Local.facts (n : ℕ) : Local α T → List (Fact α T)
  | .newItem _ _ => [.stage .steady]
  | .loadOld side p => [.own side p, .stage .steady]
  | .endLink side new _ p => [.own side new, .stage .steady, .walk side p]
  | .endTaken side new _ p => [.own side new, .stage .steady, .walk side p, .inner side p]
  | .endStep side new _ p => [.own side new, .stage .steady, .walk side p, .taken p]
  | .checkEnd side new _ p => [.own side new, .ending side p]
  | .loadOther side new _ p => [.own side new, .stage .steady, .walk side p, .ends side p]
  | .storeOther side new _ p _ => [.own side new, .stage .steady, .walk side p, .ends side p]
  | .linkNew side new _ p => [.own side new, .stage (.settled side p)]
  | .linkEnd side new _ p => [.ownLinked side new p, .stage (.settled side p)]
  | .storePointer side new _ => [.linking side new]
  | .setTimestamp new _ => [.stage .steady, .put new]
  | .readTime _ _ => [.stage .steady]
  | .readStart _ _ _ => [.stage .steady]
  | .loadTmp s => [.stage .steady, .result s s.i, .fenced s]
  | .loadLimit s tmp =>
    [.stage .steady, .result s s.i, .fencedNext s tmp, .read (s.tmpBufferIndex n) tmp]
  | .loadThreshold s tmp limit =>
    [.stage .steady, .result s s.i, .fencedNext s tmp, .read (s.tmpBufferIndex n) tmp,
      .limit s.side (s.tmpBufferIndex n) limit]
  | .loadFirst s tmp threshold =>
    [.stage .steady, .result s s.i, .fencedNext s tmp, .read (s.tmpBufferIndex n) tmp,
      .threshold s.side (s.tmpBufferIndex n) threshold]
  | .loadIndex s tmp threshold item =>
    [.stage .steady, .result s s.i, .fencedNext s tmp,
      .threshold s.side (s.tmpBufferIndex n) threshold,
      .walking s.side (s.tmpBufferIndex n) tmp item]
  | .loadTaken s tmp threshold item =>
    [.stage .steady, .result s s.i, .fencedNext s tmp,
      .threshold s.side (s.tmpBufferIndex n) threshold,
      .walking s.side (s.tmpBufferIndex n) tmp item]
  | .checkLink s tmp threshold item =>
    [.stage .steady, .result s s.i, .fencedNext s tmp,
      .threshold s.side (s.tmpBufferIndex n) threshold,
      .walking s.side (s.tmpBufferIndex n) tmp item, .taken item]
  | .loadLink s tmp threshold item =>
    [.stage .steady, .result s s.i, .fencedNext s tmp,
      .threshold s.side (s.tmpBufferIndex n) threshold,
      .walking s.side (s.tmpBufferIndex n) tmp item, .taken item]
  | .loadTimestamp s tmp item _ =>
    [.stage .steady, .result s s.i, .found s.side (s.tmpBufferIndex n) tmp item]
  | .checkItem s => [.stage .steady, .result s (s.i + 1)]
  | .takeItem s => [.stage .steady, .result s (s.i + 1)]
  | .loadTmpOther s tmp =>
    [.stage .steady, .result s s.i, .fencedNext s tmp,
      .searched s.side (s.tmpBufferIndex n) tmp]
  | .checkResult s => [.stage .steady, .result s (s.i + 1)]
  | .takeResult s => [.stage .steady, .result s (s.i + 1)]
  | .swapPointer s =>
    [.stage .steady, .result s (s.i + 1), .taken s.result, .got s.result]
  | .loadData s => [.stage .steady, .got s.result]

/-- The buffer exists, and if an item was found the scan does not report an empty deque. -/
def Scan.Good (n : ℕ) (s : Scan T) : Prop := s.i < n ∧ (s.result ≠ 0 → s.empty = false)

/-- What the local variables say without reference to the memory. -/
def Local.Shape (n : ℕ) : Local α T → Prop
  | .loadTmp s => s.Good n
  | .loadLimit s _ => s.Good n
  | .loadThreshold s _ _ => s.Good n
  | .loadFirst s _ _ => s.Good n
  | .loadIndex s _ _ _ => s.Good n
  | .loadTaken s _ _ _ => s.Good n
  | .checkLink s _ _ _ => s.Good n
  | .loadLink s _ _ _ => s.Good n
  | .loadTimestamp s _ _ _ => s.i < n ∧ s.empty = false
  | .checkItem s => s.i < n ∧ s.result ≠ 0 ∧ s.empty = false
  | .takeItem s => s.i < n ∧ s.result ≠ 0 ∧ s.empty = false
  | .loadTmpOther s _ => s.Good n
  | .checkResult s => s.result ≠ 0 ∧ s.empty = false
  | .takeResult s => s.result ≠ 0 ∧ s.empty = false
  | .swapPointer s => s.result ≠ 0
  | _ => True

/-- What thread `t` knows at `l`. -/
def Knows (n t : ℕ) (σ : (machine α T n).logged.Shared) (g : Ghost) (l : Local α T) : Prop :=
  l.Shape n ∧ AllOf (Fact.Holds t σ g) (l.facts n)

theorem Knows.rely {t : ℕ} {σ σ' : (machine α T n).logged.Shared} {g g' : Ghost} {l : Local α T}
    (hl : Knows n t σ g l) (hI : HeapInv n σ g) (hr : Rely t σ g σ' g') : Knows n t σ' g' l :=
  ⟨hl.1, hl.2.imp fun _ hF => hF.rely hI hr⟩

end TSDeque

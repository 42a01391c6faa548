/-
The bounded-size k-FIFO queue (`datastructures/boundedsize_kfifo.h`).

The queue is a ring of `num_segments` segments of `k` slots each.  `*head_` and
`*tail_` are positions that only grow; position `p` is slot `p % queue_size_` of
the ring.  `machine` runs the source one shared access at a time, and a local
state names the access that comes next.  The value of `pseudorand()` is drawn
with the last read before `find_index` begins.
-/
import Scal.Linearizable
import Scal.AtomicValue

open Interleave Linearizability

namespace BoundedSizeKFifo

variable {α : Type}

/-- The constructor's arguments, and the number of values of a counter: `wordSize`,
or `0` for counters that do not wrap (`n % 0` is `n`). -/
structure Params where
  k : ℕ
  numSegments : ℕ
  word : ℕ

def Params.queueSize (c : Params) : ℕ := c.k * c.numSegments

/-- `*queue_[0], *queue_[1], ...`, `*head_` and `*tail_`. -/
structure Shared (α : Type) where
  queue : ℕ → AtomicValue (Option α)
  head : AtomicValue ℕ
  tail : AtomicValue ℕ

def Shared.init : Shared α := ⟨fun _ => ⟨none, 0⟩, ⟨0, 0⟩, ⟨0, 0⟩⟩

def Shared.setSlot (σ : Shared α) (i : ℕ) (w : AtomicValue (Option α)) : Shared α :=
  { σ with queue := Function.update σ.queue i w }

/-- The slot that `find_index` looks at after `j` others. -/
def Params.index (c : Params) (start random j : ℕ) : ℕ :=
  (start + (random + j) % c.k) % c.word % c.queueSize

/-- The word that `advance_head` and `advance_tail` write. -/
def Params.advance (c : Params) (w : AtomicValue ℕ) : AtomicValue ℕ :=
  ⟨(w.value + c.k) % c.word, (w.aba + 1) % c.word⟩

/-- `queue_full`, after it has read `head_current`. -/
def Params.queueFull (c : Params) (headOld tailOld headCurrent : ℕ) : Bool :=
  headOld = headCurrent && (tailOld + c.k) % c.word % c.queueSize = headOld

def inValidRegion (tailOld tailCurrent headCurrent : ℕ) : Bool :=
  if tailCurrent < headCurrent then headCurrent < tailOld || tailOld ≤ tailCurrent
  else headCurrent < tailOld && tailOld ≤ tailCurrent

def notInValidRegion (tailOld tailCurrent headCurrent : ℕ) : Bool :=
  if tailCurrent < headCurrent then tailOld < tailCurrent && headCurrent < tailOld
  else tailOld < tailCurrent || headCurrent < tailOld

/-- A slot that `find_index` found: its index and its word. -/
structure Found (α : Type) where
  index : ℕ
  old : AtomicValue (Option α)

/-- The shared access a call makes next, with its local variables.  `com...` are
those of `committed`, whose `new_item` is the word `new`. -/
inductive Local (α : Type) where
  | deqHead
  | deqTail (headOld : AtomicValue ℕ)
  | deqFind (headOld tailOld : AtomicValue ℕ) (random j : ℕ)
  | deqCheck (headOld tailOld : AtomicValue ℕ) (found : Option (Found α))
  | deqAdvanceTail (tailOld : AtomicValue ℕ) (found : Found α)
  | deqTake (found : Found α)
  | deqEmpty (headOld tailOld : AtomicValue ℕ)
  | deqAdvanceHead (headOld : AtomicValue ℕ)
  | enqTail (item : α)
  | enqHead (item : α) (tailOld : AtomicValue ℕ)
  | enqFind (item : α) (tailOld headOld : AtomicValue ℕ) (random j : ℕ)
  | enqCheck (item : α) (tailOld headOld : AtomicValue ℕ) (found : Option (Found α))
  | enqInsert (item : α) (tailOld : AtomicValue ℕ) (found : Found α)
  | comValue (item : α) (tailOld index : ℕ) (new : AtomicValue (Option α))
  | comTail (item : α) (tailOld index : ℕ) (new : AtomicValue (Option α))
  | comHead (item : α) (tailOld index : ℕ) (new : AtomicValue (Option α)) (tailCurrent : ℕ)
  | comBump (item : α) (tailOld index : ℕ) (new : AtomicValue (Option α))
    (headCurrent : AtomicValue ℕ)
  | comUndo (item : α) (tailOld index : ℕ) (new : AtomicValue (Option α))
  | enqFull (item : α) (tailOld headOld : AtomicValue ℕ)
  | enqSegment (item : α) (tailOld headOld : AtomicValue ℕ) (j : ℕ)
  | enqHeadMoved (item : α) (tailOld headOld : AtomicValue ℕ)
  | enqAdvanceHead (item : α) (tailOld headOld : AtomicValue ℕ)
  | enqAdvanceTail (item : α) (tailOld : AtomicValue ℕ)

/-- `enqueue(item)` and `dequeue(&item)`. -/
def start : BagOp α → Local α
  | .put item => .enqTail item
  | .get => .deqHead

/-- One shared access; `random` is the value of `pseudorand()`, if it is called. -/
def step [DecidableEq α] (c : Params) (random : ℕ) (σ : Shared α) :
    Local α → Shared α × (Local α ⊕ BagRet α)
  -- dequeue
  | .deqHead => (σ, .inl (.deqTail σ.head))
  | .deqTail headOld => (σ, .inl (.deqFind headOld σ.tail (random % c.k) 0))
  | .deqFind headOld tailOld random j =>
    let index := c.index headOld.value random j
    let old := σ.queue index
    if old.value ≠ none then (σ, .inl (.deqCheck headOld tailOld (some ⟨index, old⟩)))
    else if j + 1 < c.k then (σ, .inl (.deqFind headOld tailOld random (j + 1)))
    else (σ, .inl (.deqCheck headOld tailOld none))
  | .deqCheck headOld tailOld found =>
    if headOld = σ.head then
      match found with
      | some found =>
        if headOld.value = tailOld.value then (σ, .inl (.deqAdvanceTail tailOld found))
        else (σ, .inl (.deqTake found))
      | none =>
        if headOld.value = tailOld.value then (σ, .inl (.deqEmpty headOld tailOld))
        else (σ, .inl (.deqAdvanceHead headOld))
    else (σ, .inl .deqHead)
  | .deqAdvanceTail tailOld found =>
    if σ.tail = tailOld then ({ σ with tail := c.advance tailOld }, .inl (.deqTake found))
    else (σ, .inl (.deqTake found))
  | .deqTake found =>
    if σ.queue found.index = found.old then
      (σ.setSlot found.index ⟨none, (found.old.aba + 1) % c.word⟩, .inr (.got found.old.value))
    else (σ, .inl .deqHead)
  | .deqEmpty headOld tailOld =>
    if tailOld.value = σ.tail.value then (σ, .inr (.got none))
    else (σ, .inl (.deqAdvanceHead headOld))
  | .deqAdvanceHead headOld =>
    if σ.head = headOld then ({ σ with head := c.advance headOld }, .inl .deqHead)
    else (σ, .inl .deqHead)
  -- enqueue
  | .enqTail item => (σ, .inl (.enqHead item σ.tail))
  | .enqHead item tailOld => (σ, .inl (.enqFind item tailOld σ.head (random % c.k) 0))
  | .enqFind item tailOld headOld random j =>
    let index := c.index tailOld.value random j
    let old := σ.queue index
    if old.value = none then (σ, .inl (.enqCheck item tailOld headOld (some ⟨index, old⟩)))
    else if j + 1 < c.k then (σ, .inl (.enqFind item tailOld headOld random (j + 1)))
    else (σ, .inl (.enqCheck item tailOld headOld none))
  | .enqCheck item tailOld headOld found =>
    if tailOld = σ.tail then
      match found with
      | some found => (σ, .inl (.enqInsert item tailOld found))
      | none => (σ, .inl (.enqFull item tailOld headOld))
    else (σ, .inl (.enqTail item))
  | .enqInsert item tailOld found =>
    if σ.queue found.index = found.old then
      (σ.setSlot found.index ⟨some item, (found.old.aba + 1) % c.word⟩,
        .inl (.comValue item tailOld.value found.index
          ⟨some item, (found.old.aba + 1) % c.word⟩))
    else (σ, .inl (.enqTail item))
  -- committed
  | .comValue item tailOld index new =>
    if (σ.queue index).value ≠ new.value then (σ, .inr (.put true))
    else (σ, .inl (.comTail item tailOld index new))
  | .comTail item tailOld index new => (σ, .inl (.comHead item tailOld index new σ.tail.value))
  | .comHead item tailOld index new tailCurrent =>
    if inValidRegion tailOld tailCurrent σ.head.value then (σ, .inr (.put true))
    else if notInValidRegion tailOld tailCurrent σ.head.value then
      (σ, .inl (.comUndo item tailOld index new))
    else (σ, .inl (.comBump item tailOld index new σ.head))
  | .comBump item tailOld index new headCurrent =>
    if σ.head = headCurrent then
      ({ σ with head := ⟨headCurrent.value, (headCurrent.aba + 1) % c.word⟩ },
        .inr (.put true))
    else (σ, .inl (.comUndo item tailOld index new))
  | .comUndo item _ index new =>
    if σ.queue index = new then
      (σ.setSlot index ⟨none, (new.aba + 1) % c.word⟩, .inl (.enqTail item))
    else (σ, .inr (.put true))
  -- the segment at tail has no empty slot
  | .enqFull item tailOld headOld =>
    if c.queueFull headOld.value tailOld.value σ.head.value then
      (σ, .inl (.enqSegment item tailOld headOld 0))
    else (σ, .inl (.enqAdvanceTail item tailOld))
  | .enqSegment item tailOld headOld j =>
    if (σ.queue ((headOld.value + j) % c.word % c.queueSize)).value ≠ none then
      (σ, .inl (.enqHeadMoved item tailOld headOld))
    else if j + 1 < c.k then (σ, .inl (.enqSegment item tailOld headOld (j + 1)))
    else (σ, .inl (.enqAdvanceHead item tailOld headOld))
  | .enqHeadMoved item tailOld headOld =>
    if headOld.value = σ.head.value then (σ, .inr (.put false))
    else (σ, .inl (.enqAdvanceHead item tailOld headOld))
  | .enqAdvanceHead item tailOld headOld =>
    if σ.head = headOld then
      ({ σ with head := c.advance headOld }, .inl (.enqAdvanceTail item tailOld))
    else (σ, .inl (.enqAdvanceTail item tailOld))
  | .enqAdvanceTail item tailOld =>
    if σ.tail = tailOld then ({ σ with tail := c.advance tailOld }, .inl (.enqTail item))
    else (σ, .inl (.enqTail item))

abbrev machine (c : Params) (α : Type) [DecidableEq α] :
    Machine (BagOp α) (BagRet α) where
  Shared := Shared α
  Local := Local α
  Choice := ℕ
  init := .init
  admits _ _ _ := true
  start _ _ op := start op
  step _ random σ l := some (step c random σ l)

end BoundedSizeKFifo

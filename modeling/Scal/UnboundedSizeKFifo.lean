/-
The unbounded-size k-FIFO queue (`datastructures/unboundedsize_kfifo.h`).

Segments of `k` slots are linked in a list from `*head_` to `*tail_`; a dequeue
takes an item from head's segment, an enqueue inserts one into tail's.  `machine`
runs the source one shared access at a time, and a local state names the access
that comes next; `ksegment_new` is one step that returns a fresh segment.  Thus
`scal::tlget` is assumed not to start over in the preallocated memory, which with
`reuse_memory` it does once that is used up.

The memory also counts, for every slot, how often it was written (`version`), and
`committed` carries the count of its own write along; no step depends on these
counts.
-/
import Scal.Linearizable
import Scal.AtomicValue

open Interleave Linearizability

namespace UnboundedSizeKFifo

variable {α : Type}

/-- `uskfifo_details::KSegment`. -/
structure KSegment (α : Type) where
  next : AtomicPointer
  deleted : Bool
  items : ℕ → AtomicValue (Option α)

/-- What `ksegment_new` allocates. -/
def KSegment.new : KSegment α := ⟨⟨0, 0⟩, false, fun _ => ⟨none, 0⟩⟩

/-- The segments by address, the next address `ksegment_new` hands out, `*head_` and
`*tail_`; and how often each slot was written. -/
structure Shared (α : Type) where
  segment : ℕ → KSegment α
  alloc : ℕ
  head : AtomicPointer
  tail : AtomicPointer
  version : ℕ × ℕ → ℕ

def Shared.init : Shared α := ⟨fun _ => .new, 2, ⟨1, 0⟩, ⟨1, 0⟩, fun _ => 0⟩

/-- Slot `i.2` of segment `i.1`. -/
def Shared.slot (σ : Shared α) (i : ℕ × ℕ) : AtomicValue (Option α) :=
  (σ.segment i.1).items i.2

def Shared.setSlot (σ : Shared α) (i : ℕ × ℕ) (w : AtomicValue (Option α)) : Shared α :=
  { σ with
    segment := Function.update σ.segment i.1
      { σ.segment i.1 with items := Function.update (σ.segment i.1).items i.2 w }
    version := Function.update σ.version i (σ.version i + 1) }

def Shared.setNext (σ : Shared α) (s : ℕ) (w : AtomicPointer) : Shared α :=
  { σ with segment := Function.update σ.segment s { σ.segment s with next := w } }

def Shared.delete (σ : Shared α) (s : ℕ) : Shared α :=
  { σ with segment := Function.update σ.segment s { σ.segment s with deleted := true } }

/-- `ksegment_new()`, at the address `σ.alloc`. -/
def Shared.ksegmentNew (σ : Shared α) : Shared α :=
  { σ with segment := Function.update σ.segment σ.alloc .new, alloc := σ.alloc + 1 }

/-- An item slot that `find_index` found: its index in the segment and its word. -/
structure Found (α : Type) where
  index : ℕ
  old : AtomicValue (Option α)

/-- Where `advance_tail` returns to. -/
inductive Caller (α : Type) where
  | enqueue (item : α)
  | dequeue (headOld : AtomicPointer) (found : Found α)

/-- The shared access a call makes next, with its local variables.  `com...` are
those of `committed`, whose `new_item` is the word `new`; `head...` and `tail...`
those of `advance_head` and `advance_tail`. -/
inductive Local (α : Type) where
  | deqHead
  | deqFind (headOld : AtomicPointer) (random j : ℕ)
  | deqTail (headOld : AtomicPointer) (found : Option (Found α))
  | deqCheck (headOld tailOld : AtomicPointer) (found : Option (Found α))
  | deqTake (headOld : AtomicPointer) (found : Found α)
  | headRead (headOld : AtomicPointer)
  | headTail (headOld : AtomicPointer)
  | headTailNext (headOld tailCurrent : AtomicPointer)
  | headNext (headOld tailCurrent tailNext : AtomicPointer)
  | headCheck (headOld tailCurrent tailNext headNext : AtomicPointer)
  | headTailCheck (headOld tailCurrent tailNext headNext : AtomicPointer)
  | headTailSwing (headOld tailCurrent tailNext headNext : AtomicPointer)
  | headDelete (headOld headNext : AtomicPointer)
  | headSwing (headOld headNext : AtomicPointer)
  | tailRead (caller : Caller α) (tailOld : AtomicPointer)
  | tailNext (caller : Caller α) (tailOld : AtomicPointer)
  | tailCheck (caller : Caller α) (tailOld next : AtomicPointer)
  | tailHelp (caller : Caller α) (tailOld next : AtomicPointer)
  | tailNew (caller : Caller α) (tailOld next : AtomicPointer)
  | tailLink (caller : Caller α) (tailOld next : AtomicPointer) (ksegment : ℕ)
  | tailSwing (caller : Caller α) (tailOld : AtomicPointer) (ksegment : ℕ)
  | enqTail (item : α)
  | enqHead (item : α) (tailOld : AtomicPointer)
  | enqFind (item : α) (tailOld : AtomicPointer) (random j : ℕ)
  | enqCheck (item : α) (tailOld : AtomicPointer) (found : Option (Found α))
  | enqInsert (item : α) (tailOld : AtomicPointer) (found : Found α)
  | comSlot (item : α) (slot : ℕ × ℕ) (new : AtomicValue (Option α)) (version : ℕ)
  | comHead (item : α) (slot : ℕ × ℕ) (new : AtomicValue (Option α)) (version : ℕ)
  | comDeleted (item : α) (slot : ℕ × ℕ) (new : AtomicValue (Option α)) (version : ℕ)
    (headCurrent : AtomicPointer)
  | comBump (item : α) (slot : ℕ × ℕ) (new : AtomicValue (Option α)) (version : ℕ)
    (headCurrent : AtomicPointer)
  | comDeletedAgain (item : α) (slot : ℕ × ℕ) (new : AtomicValue (Option α)) (version : ℕ)
  | comUndo (item : α) (slot : ℕ × ℕ) (new : AtomicValue (Option α)) (version : ℕ)

/-- `enqueue(item)` and `dequeue(&item)`. -/
def start : BagOp α → Local α
  | .put item => .enqTail item
  | .get => .deqHead

/-- What follows `advance_tail`. -/
def Caller.resume : Caller α → Local α
  | .enqueue item => .enqTail item
  | .dequeue headOld found => .deqTake headOld found

/-- One shared access; `random` is the value of `pseudorand()`, if it is called. -/
def step [DecidableEq α] (k random : ℕ) (σ : Shared α) :
    Local α → Shared α × (Local α ⊕ BagRet α)
  -- dequeue
  | .deqHead => (σ, .inl (.deqFind σ.head (random % k) 0))
  | .deqFind headOld random j =>
    let index := (random + j) % k
    let old := σ.slot (headOld.value, index)
    if old.value ≠ none then (σ, .inl (.deqTail headOld (some ⟨index, old⟩)))
    else if j + 1 < k then (σ, .inl (.deqFind headOld random (j + 1)))
    else (σ, .inl (.deqTail headOld none))
  | .deqTail headOld found => (σ, .inl (.deqCheck headOld σ.tail found))
  | .deqCheck headOld tailOld found =>
    if headOld = σ.head then
      match found with
      | some found =>
        if headOld.value = tailOld.value then
          (σ, .inl (.tailRead (.dequeue headOld found) tailOld))
        else (σ, .inl (.deqTake headOld found))
      | none =>
        if headOld.value = tailOld.value then (σ, .inr (.got none))
        else (σ, .inl (.headRead headOld))
    else (σ, .inl .deqHead)
  | .deqTake headOld found =>
    if σ.slot (headOld.value, found.index) = found.old then
      (σ.setSlot (headOld.value, found.index) ⟨none, found.old.aba + 1⟩,
        .inr (.got found.old.value))
    else (σ, .inl .deqHead)
  -- advance_head
  | .headRead headOld =>
    if σ.head = headOld then (σ, .inl (.headTail headOld)) else (σ, .inl .deqHead)
  | .headTail headOld => (σ, .inl (.headTailNext headOld σ.tail))
  | .headTailNext headOld tailCurrent =>
    (σ, .inl (.headNext headOld tailCurrent (σ.segment tailCurrent.value).next))
  | .headNext headOld tailCurrent tailNext =>
    (σ, .inl (.headCheck headOld tailCurrent tailNext (σ.segment headOld.value).next))
  | .headCheck headOld tailCurrent tailNext headNext =>
    if headOld = σ.head then
      if headOld.value = tailCurrent.value then
        if tailNext.value = 0 then (σ, .inl .deqHead)
        else (σ, .inl (.headTailCheck headOld tailCurrent tailNext headNext))
      else (σ, .inl (.headDelete headOld headNext))
    else (σ, .inl .deqHead)
  | .headTailCheck headOld tailCurrent tailNext headNext =>
    if tailCurrent = σ.tail then
      (σ, .inl (.headTailSwing headOld tailCurrent tailNext headNext))
    else (σ, .inl (.headDelete headOld headNext))
  | .headTailSwing headOld tailCurrent tailNext headNext =>
    if σ.tail = tailCurrent then
      ({ σ with tail := ⟨tailNext.value, tailCurrent.aba + 1⟩ },
        .inl (.headDelete headOld headNext))
    else (σ, .inl (.headDelete headOld headNext))
  | .headDelete headOld headNext => (σ.delete headOld.value, .inl (.headSwing headOld headNext))
  | .headSwing headOld headNext =>
    if σ.head = headOld then
      ({ σ with head := ⟨headNext.value, headOld.aba + 1⟩ }, .inl .deqHead)
    else (σ, .inl .deqHead)
  -- advance_tail
  | .tailRead caller tailOld =>
    if σ.tail = tailOld then (σ, .inl (.tailNext caller tailOld)) else (σ, .inl caller.resume)
  | .tailNext caller tailOld =>
    (σ, .inl (.tailCheck caller tailOld (σ.segment tailOld.value).next))
  | .tailCheck caller tailOld next =>
    if tailOld = σ.tail then
      if next.value ≠ 0 then (σ, .inl (.tailHelp caller tailOld next))
      else (σ, .inl (.tailNew caller tailOld next))
    else (σ, .inl caller.resume)
  | .tailHelp caller tailOld next =>
    if σ.tail = tailOld then
      ({ σ with tail := ⟨next.value, next.aba + 1⟩ }, .inl caller.resume)
    else (σ, .inl caller.resume)
  | .tailNew caller tailOld next =>
    (σ.ksegmentNew, .inl (.tailLink caller tailOld next σ.alloc))
  | .tailLink caller tailOld next ksegment =>
    if (σ.segment tailOld.value).next = next then
      (σ.setNext tailOld.value ⟨ksegment, next.aba + 1⟩,
        .inl (.tailSwing caller tailOld ksegment))
    else (σ, .inl caller.resume)
  | .tailSwing caller tailOld ksegment =>
    if σ.tail = tailOld then
      ({ σ with tail := ⟨ksegment, tailOld.aba + 1⟩ }, .inl caller.resume)
    else (σ, .inl caller.resume)
  -- enqueue
  | .enqTail item => (σ, .inl (.enqHead item σ.tail))
  | .enqHead item tailOld => (σ, .inl (.enqFind item tailOld (random % k) 0))
  | .enqFind item tailOld random j =>
    let index := (random + j) % k
    let old := σ.slot (tailOld.value, index)
    if old.value = none then (σ, .inl (.enqCheck item tailOld (some ⟨index, old⟩)))
    else if j + 1 < k then (σ, .inl (.enqFind item tailOld random (j + 1)))
    else (σ, .inl (.enqCheck item tailOld none))
  | .enqCheck item tailOld found =>
    if tailOld = σ.tail then
      match found with
      | some found => (σ, .inl (.enqInsert item tailOld found))
      | none => (σ, .inl (.tailRead (.enqueue item) tailOld))
    else (σ, .inl (.enqTail item))
  | .enqInsert item tailOld found =>
    let slot := (tailOld.value, found.index)
    if σ.slot slot = found.old then
      (σ.setSlot slot ⟨some item, found.old.aba + 1⟩,
        .inl (.comSlot item slot ⟨some item, found.old.aba + 1⟩ (σ.version slot + 1)))
    else (σ, .inl (.enqTail item))
  -- committed
  | .comSlot item slot new version =>
    if σ.slot slot ≠ new then (σ, .inr (.put true))
    else (σ, .inl (.comHead item slot new version))
  | .comHead item slot new version => (σ, .inl (.comDeleted item slot new version σ.head))
  | .comDeleted item slot new version headCurrent =>
    if (σ.segment slot.1).deleted = true then (σ, .inl (.comUndo item slot new version))
    else if slot.1 = headCurrent.value then
      (σ, .inl (.comBump item slot new version headCurrent))
    else (σ, .inl (.comDeletedAgain item slot new version))
  | .comBump item slot new version headCurrent =>
    if σ.head = headCurrent then
      ({ σ with head := ⟨headCurrent.value, headCurrent.aba + 1⟩ }, .inr (.put true))
    else (σ, .inl (.comUndo item slot new version))
  | .comDeletedAgain item slot new version =>
    if (σ.segment slot.1).deleted = false then (σ, .inr (.put true))
    else (σ, .inl (.comUndo item slot new version))
  | .comUndo item slot new _ =>
    if σ.slot slot = new then (σ.setSlot slot ⟨none, 0⟩, .inl (.enqTail item))
    else (σ, .inr (.put true))

abbrev machine (k : ℕ) (α : Type) [DecidableEq α] : Machine (BagOp α) (BagRet α) where
  Shared := Shared α
  Local := Local α
  Choice := ℕ
  init := .init
  admits _ _ _ := true
  start _ _ op := start op
  step _ random σ l := some (step k random σ l)

end UnboundedSizeKFifo

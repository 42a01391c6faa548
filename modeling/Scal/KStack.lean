/-
The k-stack (`datastructures/kstack.h`).

Segments of `k` slots are stacked below `*top_`.  A push inserts into a slot of the
top segment, and adds a segment when that is full; a pop takes an item of the top
segment, and removes the segment when it is empty and not the last one.  `machine`
runs the source one shared access at a time, and a local state names the access
that comes next; a new segment is one step, with its `next` already set.  Its memory is
new: `scal::tlget` is assumed not to start over in the preallocated memory, which with
`reuse_memory` it does once that is used up.

A thread's row of `item_records_` is read by that thread only, in the second pass of
the `is_empty` whose first pass has filled it; it is the local `records` here.
-/
import Scal.Linearizable
import Scal.AtomicValue

open Interleave Linearizability

namespace KStack

variable {α : Type}

/-- `kstack_details::KSegment`. -/
structure KSegment (α : Type) where
  remove : ℕ
  next : AtomicPointer
  items : ℕ → AtomicValue (Option α)

/-- What `KSegment()` builds. -/
def KSegment.new : KSegment α := ⟨0, ⟨0, 0⟩, fun _ => ⟨none, 0⟩⟩

/-- The segments by address, the address of the next new segment, and `*top_`. -/
structure Shared (α : Type) where
  segment : ℕ → KSegment α
  alloc : ℕ
  top : AtomicPointer

def Shared.init : Shared α := ⟨fun _ => .new, 2, ⟨1, 0⟩⟩

/-- Slot `i.2` of segment `i.1`. -/
def Shared.slot (σ : Shared α) (i : ℕ × ℕ) : AtomicValue (Option α) :=
  (σ.segment i.1).items i.2

def Shared.setSlot (σ : Shared α) (i : ℕ × ℕ) (w : AtomicValue (Option α)) : Shared α :=
  { σ with
    segment := Function.update σ.segment i.1
      { σ.segment i.1 with items := Function.update (σ.segment i.1).items i.2 w } }

def Shared.setRemove (σ : Shared α) (s n : ℕ) : Shared α :=
  { σ with segment := Function.update σ.segment s { σ.segment s with remove := n } }

/-- A new segment on top of `next`, at the address `σ.alloc`. -/
def Shared.segmentNew (σ : Shared α) (next : ℕ) : Shared α :=
  { σ with
    segment := Function.update σ.segment σ.alloc { KSegment.new with next := ⟨next, 0⟩ }
    alloc := σ.alloc + 1 }

/-- An item slot that `find_index` found: its index in the segment and its word. -/
structure Found (α : Type) where
  index : ℕ
  old : AtomicValue (Option α)

/-- Where `is_empty` returns to. -/
inductive Caller where
  | pop
  | remove

/-- The shared access a call makes next, with its local variables.  `add...` are
those of `try_add_new_ksegment`, `com...` of `committed`, whose `item_new` is the word
`new`, `empty...` of `is_empty`, and `rem...` of `try_remove_ksegment`. -/
inductive Local (α : Type) where
  | pushTop (item : α)
  | pushFind (item : α) (topOld : AtomicPointer) (random j : ℕ)
  | pushCheck (item : α) (topOld : AtomicPointer) (found : Option (Found α))
  | pushInsert (item : α) (topOld : AtomicPointer) (found : Found α)
  | addRead (item : α) (topOld : AtomicPointer)
  | addNew (item : α) (topOld : AtomicPointer)
  | addSwing (item : α) (topOld : AtomicPointer) (segmentNew : ℕ)
  | comSlot (item : α) (topOld : AtomicPointer) (index : ℕ) (new : AtomicValue (Option α))
  | comRemove (item : α) (topOld : AtomicPointer) (index : ℕ) (new : AtomicValue (Option α))
  | comRemoveAgain (item : α) (topOld : AtomicPointer) (index : ℕ)
    (new : AtomicValue (Option α))
  | comTop (item : α) (topOld : AtomicPointer) (index : ℕ) (new : AtomicValue (Option α))
  | comBump (item : α) (topOld : AtomicPointer) (index : ℕ) (new : AtomicValue (Option α))
  | comUndo (item : α) (topOld : AtomicPointer) (index : ℕ) (new : AtomicValue (Option α))
  | popTop
  | popFind (topOld : AtomicPointer) (random j : ℕ)
  | popCheck (topOld : AtomicPointer) (found : Option (Found α))
  | popSegment (found : Found α)
  | popTake (segment : ℕ) (found : Found α)
  | popNext (topOld : AtomicPointer)
  | popLast (topOld : AtomicPointer)
  | emptyFirst (caller : Caller) (topOld : AtomicPointer) (random j : ℕ)
    (records : ℕ → AtomicValue (Option α))
  | emptySecond (caller : Caller) (topOld : AtomicPointer) (random j : ℕ)
    (records : ℕ → AtomicValue (Option α))
  | remTop (topOld : AtomicPointer)
  | remNext (topOld topCurrent : AtomicPointer)
  | remCheck (topOld next : AtomicPointer)
  | remAdd (topOld : AtomicPointer)
  | remRead (topOld : AtomicPointer)
  | remSwing (topOld : AtomicPointer) (next : ℕ)
  | remSub (topOld : AtomicPointer)

/-- `push(item)` and `pop(&item)`. -/
def start : BagOp α → Local α
  | .put item => .pushTop item
  | .get => .popTop

/-- What follows `is_empty`. -/
def Caller.resume (topOld : AtomicPointer) : Caller → Bool → Local α
  | .pop, true => .popLast topOld
  | .pop, false => .popTop
  | .remove, true => .remRead topOld
  | .remove, false => .remSub topOld

/-- One shared access; `random` is the value of `pseudorand()`, if it is called. -/
def step [DecidableEq α] (k random : ℕ) (σ : Shared α) :
    Local α → Shared α × (Local α ⊕ BagRet α)
  -- push
  | .pushTop item => (σ, .inl (.pushFind item σ.top (random % k) 0))
  | .pushFind item topOld random j =>
    let index := (random + j) % k
    let old := σ.slot (topOld.value, index)
    if old.value = none then (σ, .inl (.pushCheck item topOld (some ⟨index, old⟩)))
    else if j + 1 < k then (σ, .inl (.pushFind item topOld random (j + 1)))
    else (σ, .inl (.pushCheck item topOld none))
  | .pushCheck item topOld found =>
    if σ.top = topOld then
      match found with
      | some found => (σ, .inl (.pushInsert item topOld found))
      | none => (σ, .inl (.addRead item topOld))
    else (σ, .inl (.pushTop item))
  | .pushInsert item topOld found =>
    if σ.slot (topOld.value, found.index) = found.old then
      (σ.setSlot (topOld.value, found.index) ⟨some item, found.old.aba + 1⟩,
        .inl (.comSlot item topOld found.index ⟨some item, found.old.aba + 1⟩))
    else (σ, .inl (.pushTop item))
  -- try_add_new_ksegment
  | .addRead item topOld =>
    if σ.top = topOld then (σ, .inl (.addNew item topOld)) else (σ, .inl (.pushTop item))
  | .addNew item topOld =>
    (σ.segmentNew topOld.value, .inl (.addSwing item topOld σ.alloc))
  | .addSwing item topOld segmentNew =>
    if σ.top = topOld then
      ({ σ with top := ⟨segmentNew, topOld.aba⟩ }, .inl (.pushTop item))
    else (σ, .inl (.pushTop item))
  -- committed
  | .comSlot item topOld index new =>
    if σ.slot (topOld.value, index) ≠ new then (σ, .inr (.put true))
    else (σ, .inl (.comRemove item topOld index new))
  | .comRemove item topOld index new =>
    if (σ.segment topOld.value).remove = 0 then (σ, .inr (.put true))
    else (σ, .inl (.comRemoveAgain item topOld index new))
  | .comRemoveAgain item topOld index new =>
    if (σ.segment topOld.value).remove ≥ 1 then (σ, .inl (.comTop item topOld index new))
    else (σ, .inl (.pushTop item))
  | .comTop item topOld index new =>
    if σ.top ≠ topOld then (σ, .inl (.comUndo item topOld index new))
    else (σ, .inl (.comBump item topOld index new))
  | .comBump item topOld index new =>
    if σ.top = topOld then
      ({ σ with top := ⟨topOld.value, topOld.aba + 1⟩ }, .inr (.put true))
    else (σ, .inl (.comUndo item topOld index new))
  | .comUndo item topOld index new =>
    if σ.slot (topOld.value, index) = new then
      (σ.setSlot (topOld.value, index) ⟨none, new.aba + 1⟩, .inl (.pushTop item))
    else (σ, .inr (.put true))
  -- pop
  | .popTop => (σ, .inl (.popFind σ.top (random % k) 0))
  | .popFind topOld random j =>
    let index := (random + j) % k
    let old := σ.slot (topOld.value, index)
    if old.value ≠ none then (σ, .inl (.popCheck topOld (some ⟨index, old⟩)))
    else if j + 1 < k then (σ, .inl (.popFind topOld random (j + 1)))
    else (σ, .inl (.popCheck topOld none))
  | .popCheck topOld found =>
    if σ.top = topOld then
      match found with
      | some found => (σ, .inl (.popSegment found))
      | none => (σ, .inl (.popNext topOld))
    else (σ, .inl .popTop)
  | .popSegment found => (σ, .inl (.popTake σ.top.value found))
  | .popTake segment found =>
    if σ.slot (segment, found.index) = found.old then
      (σ.setSlot (segment, found.index) ⟨none, found.old.aba + 1⟩,
        .inr (.got found.old.value))
    else (σ, .inl .popTop)
  | .popNext topOld =>
    if (σ.segment topOld.value).next.value = 0 then
      (σ, .inl (.emptyFirst .pop topOld (random % k) 0 fun _ => ⟨none, 0⟩))
    else (σ, .inl (.remTop topOld))
  | .popLast topOld =>
    if σ.top = topOld then (σ, .inr (.got none)) else (σ, .inl .popTop)
  -- is_empty
  | .emptyFirst caller topOld random j records =>
    let index := (random + j) % k
    let old := σ.slot (topOld.value, index)
    if old.value ≠ none then (σ, .inl (caller.resume topOld false))
    else if j + 1 < k then
      (σ, .inl (.emptyFirst caller topOld random (j + 1) (Function.update records index old)))
    else (σ, .inl (.emptySecond caller topOld random 0 (Function.update records index old)))
  | .emptySecond caller topOld random j records =>
    let index := (random + j) % k
    if σ.slot (topOld.value, index) ≠ records index then
      (σ, .inl (caller.resume topOld false))
    else if j + 1 < k then (σ, .inl (.emptySecond caller topOld random (j + 1) records))
    else (σ, .inl (caller.resume topOld true))
  -- try_remove_ksegment
  | .remTop topOld => (σ, .inl (.remNext topOld σ.top))
  | .remNext topOld topCurrent =>
    (σ, .inl (.remCheck topOld (σ.segment topCurrent.value).next))
  | .remCheck topOld next =>
    if σ.top = topOld then
      if next.value ≠ 0 then (σ, .inl (.remAdd topOld)) else (σ, .inl .popTop)
    else (σ, .inl .popTop)
  | .remAdd topOld =>
    (σ.setRemove topOld.value ((σ.segment topOld.value).remove + 1),
      .inl (.emptyFirst .remove topOld (random % k) 0 fun _ => ⟨none, 0⟩))
  | .remRead topOld => (σ, .inl (.remSwing topOld (σ.segment topOld.value).next.value))
  | .remSwing topOld next =>
    if σ.top = topOld then ({ σ with top := ⟨next, topOld.aba + 1⟩ }, .inl .popTop)
    else (σ, .inl (.remSub topOld))
  | .remSub topOld =>
    (σ.setRemove topOld.value ((σ.segment topOld.value).remove - 1), .inl .popTop)

abbrev machine (k : ℕ) (α : Type) [DecidableEq α] : Machine (BagOp α) (BagRet α) where
  Shared := Shared α
  Local := Local α
  Choice := ℕ
  init := .init
  admits _ _ _ := true
  start _ _ op := start op
  step _ random σ l := some (step k random σ l)

end KStack

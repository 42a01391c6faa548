/-
The Michael–Scott queue (`datastructures/ms_queue.h`).

`MSQueue.machine` runs the source one shared access at a time: `node_new` is one
step that returns a fresh address, and every read of `*head_`, `*tail_`, of a
node's `next` or `value`, and every `cas`, is one step of its own.  The local
state names the access that comes next and carries the local variables the
source has at that point.  That addresses are fresh assumes that `scal::tlget` does
not start over in the preallocated memory, which with `reuse_memory` it does once
that is used up.
-/
import Scal.Interleave
import Scal.AtomicValue

open Interleave

namespace MSQueue

variable {α : Type}

/-- `ms_details::Node`. -/
structure Node (α : Type) where
  next : AtomicPointer
  value : α

/-- The memory of the queue: the nodes by address, the next address `node_new`
hands out, `*head_` and `*tail_`. -/
structure Shared (α : Type) where
  node : ℕ → Node α
  alloc : ℕ
  head : AtomicPointer
  tail : AtomicPointer

/-- The constructor: head and tail point to a sentinel with value `(T)NULL`. -/
def Shared.init [Inhabited α] : Shared α :=
  ⟨fun _ => ⟨⟨0, 0⟩, default⟩, 2, ⟨1, 0⟩, ⟨1, 0⟩⟩

def Shared.setNext (σ : Shared α) (p : ℕ) (w : AtomicPointer) : Shared α :=
  { σ with node := Function.update σ.node p { σ.node p with next := w } }

/-- `node_new(item)`, at the address `σ.alloc`. -/
def Shared.nodeNew (σ : Shared α) (item : α) : Shared α :=
  { σ with node := Function.update σ.node σ.alloc ⟨⟨0, 0⟩, item⟩, alloc := σ.alloc + 1 }

/-- The values of the nodes from address `p` on, along `next`. -/
def follow (node : ℕ → Node α) : ℕ → ℕ → List α
  | 0, _ => []
  | fuel + 1, p =>
    if p = 0 then [] else (node p).value :: follow node fuel (node p).next.value

/-- The values of the nodes strictly after `head_`'s node. -/
def Shared.queue (σ : Shared α) : List α :=
  follow σ.node σ.alloc (σ.node σ.head.value).next.value

inductive Op (α : Type) where
  | enqueue (item : α)
  | dequeue
  | dequeueReturnTail
  | tryEnqueue (item : α) (tailOld : AtomicPointer)
  | tryDequeue (headOld : AtomicPointer)
  | getHead
  | getTail
  | approxSize
  deriving DecidableEq

/-- The item that an operation is to append. -/
def Op.item : Op α → Option α
  | .enqueue item => some item
  | .tryEnqueue item _ => some item
  | _ => none

/-- The results `0`, `1` and `2` of `try_dequeue`. -/
inductive TryDequeue where
  | ok
  | empty
  | failed
  deriving DecidableEq

/-- Results, with what was stored through the pointers `item` and `tail_raw`. -/
inductive Ret (α : Type) where
  | enqueued (ok : Bool)
  | dequeued (item : Option α) (tailRaw : Option AtomicPointer)
  | tried (code : TryDequeue) (item : Option α) (tailRaw : Option ℕ)
  | head (w : AtomicPointer)
  | tail (w : AtomicPointer)
  | size (n : ℕ)
  deriving DecidableEq

/-- The shared access a call makes next, with its local variables; the flag `rt`
says that the call is `dequeue_return_tail` and not `dequeue`. -/
inductive Local (α : Type) where
  | enqNew (item : α)
  | enqTail (item : α) (node : ℕ)
  | enqNext (item : α) (node : ℕ) (tailOld : AtomicPointer)
  | enqCheck (item : α) (node : ℕ) (tailOld next : AtomicPointer)
  | enqLink (item : α) (node : ℕ) (tailOld next : AtomicPointer)
  | enqHelp (item : α) (node : ℕ) (tailOld next : AtomicPointer)
  | enqSwing (item : α) (node : ℕ) (tailOld : AtomicPointer)
  | deqHead (rt : Bool)
  | deqTail (rt : Bool) (headOld : AtomicPointer)
  | deqNext (rt : Bool) (headOld tailOld : AtomicPointer)
  | deqCheck (rt : Bool) (headOld tailOld next : AtomicPointer)
  | deqHelp (rt : Bool) (tailOld next : AtomicPointer)
  | deqItem (rt : Bool) (headOld tailOld next : AtomicPointer)
  | deqSwing (rt : Bool) (headOld tailOld next : AtomicPointer) (item : α)
  | tryEnqNext (item : α) (tailOld : AtomicPointer)
  | tryEnqCheck (item : α) (tailOld next : AtomicPointer)
  | tryEnqNew (item : α) (tailOld next : AtomicPointer)
  | tryEnqLink (item : α) (node : ℕ) (tailOld next : AtomicPointer)
  | tryEnqSwing (item : α) (node : ℕ) (tailOld : AtomicPointer)
  | tryEnqHelp (tailOld next : AtomicPointer)
  | tryDeqTail (headOld : AtomicPointer)
  | tryDeqNext (headOld tailOld : AtomicPointer)
  | tryDeqCheck (headOld tailOld next : AtomicPointer)
  | tryDeqHelp (tailOld next : AtomicPointer)
  | tryDeqItem (headOld tailOld next : AtomicPointer)
  | tryDeqSwing (headOld tailOld next : AtomicPointer) (item : α)
  | readHead
  | readTail
  | sizeTail
  | sizeHead (tailOld : AtomicPointer)

/-- The next access is a `cas` on a `next` field, to append this item. -/
def Local.linking : Local α → Option α
  | .enqLink item _ _ _ => some item
  | .tryEnqLink item _ _ _ => some item
  | _ => none

/-- The next access is a `cas` on `head_`, with this item in `*item`. -/
def Local.taking : Local α → Option α
  | .deqSwing _ _ _ _ item => some item
  | .tryDeqSwing _ _ _ item => some item
  | _ => none

def start : Op α → Local α
  | .enqueue item => .enqNew item
  | .dequeue => .deqHead false
  | .dequeueReturnTail => .deqHead true
  | .tryEnqueue item tailOld => .tryEnqNext item tailOld
  | .tryDequeue headOld => .tryDeqTail headOld
  | .getHead => .readHead
  | .getTail => .readTail
  | .approxSize => .sizeTail

/-- `*tail_raw = tail_old.raw()`, in `dequeue_return_tail` only. -/
def tailRaw (rt : Bool) (tailOld : AtomicPointer) : Option AtomicPointer :=
  if rt then some tailOld else none

/-- One shared access. -/
def step (σ : Shared α) : Local α → Shared α × (Local α ⊕ Ret α)
  -- enqueue
  | .enqNew item => (σ.nodeNew item, .inl (.enqTail item σ.alloc))
  | .enqTail item node => (σ, .inl (.enqNext item node σ.tail))
  | .enqNext item node tailOld =>
    (σ, .inl (.enqCheck item node tailOld (σ.node tailOld.value).next))
  | .enqCheck item node tailOld next =>
    if tailOld = σ.tail then
      if next.value = 0 then (σ, .inl (.enqLink item node tailOld next))
      else (σ, .inl (.enqHelp item node tailOld next))
    else (σ, .inl (.enqTail item node))
  | .enqLink item node tailOld next =>
    if (σ.node tailOld.value).next = next then
      (σ.setNext tailOld.value ⟨node, next.aba + 1⟩, .inl (.enqSwing item node tailOld))
    else (σ, .inl (.enqTail item node))
  | .enqHelp item node tailOld next =>
    if σ.tail = tailOld then
      ({ σ with tail := ⟨next.value, tailOld.aba + 1⟩ }, .inl (.enqTail item node))
    else (σ, .inl (.enqTail item node))
  | .enqSwing _ node tailOld =>
    if σ.tail = tailOld then
      ({ σ with tail := ⟨node, tailOld.aba + 1⟩ }, .inr (.enqueued true))
    else (σ, .inr (.enqueued true))
  -- dequeue and dequeue_return_tail
  | .deqHead rt => (σ, .inl (.deqTail rt σ.head))
  | .deqTail rt headOld => (σ, .inl (.deqNext rt headOld σ.tail))
  | .deqNext rt headOld tailOld =>
    (σ, .inl (.deqCheck rt headOld tailOld (σ.node headOld.value).next))
  | .deqCheck rt headOld tailOld next =>
    if σ.head = headOld then
      if headOld.value = tailOld.value then
        if next.value = 0 then (σ, .inr (.dequeued none (tailRaw rt tailOld)))
        else (σ, .inl (.deqHelp rt tailOld next))
      else (σ, .inl (.deqItem rt headOld tailOld next))
    else (σ, .inl (.deqHead rt))
  | .deqHelp rt tailOld next =>
    if σ.tail = tailOld then
      ({ σ with tail := ⟨next.value, tailOld.aba + 1⟩ }, .inl (.deqHead rt))
    else (σ, .inl (.deqHead rt))
  | .deqItem rt headOld tailOld next =>
    (σ, .inl (.deqSwing rt headOld tailOld next (σ.node next.value).value))
  | .deqSwing rt headOld tailOld next item =>
    if σ.head = headOld then
      ({ σ with head := ⟨next.value, headOld.aba + 1⟩ },
        .inr (.dequeued (some item) (tailRaw rt tailOld)))
    else (σ, .inl (.deqHead rt))
  -- try_enqueue
  | .tryEnqNext item tailOld =>
    (σ, .inl (.tryEnqCheck item tailOld (σ.node tailOld.value).next))
  | .tryEnqCheck item tailOld next =>
    if σ.tail = tailOld then
      if next.value = 0 then (σ, .inl (.tryEnqNew item tailOld next))
      else (σ, .inl (.tryEnqHelp tailOld next))
    else (σ, .inr (.enqueued false))
  | .tryEnqNew item tailOld next =>
    (σ.nodeNew item, .inl (.tryEnqLink item σ.alloc tailOld next))
  | .tryEnqLink item node tailOld next =>
    if (σ.node tailOld.value).next = next then
      (σ.setNext tailOld.value ⟨node, next.aba + 1⟩, .inl (.tryEnqSwing item node tailOld))
    else (σ, .inr (.enqueued false))
  | .tryEnqSwing _ node tailOld =>
    if σ.tail = tailOld then
      ({ σ with tail := ⟨node, tailOld.aba + 1⟩ }, .inr (.enqueued true))
    else (σ, .inr (.enqueued true))
  | .tryEnqHelp tailOld next =>
    if σ.tail = tailOld then
      ({ σ with tail := ⟨next.value, tailOld.aba + 1⟩ }, .inr (.enqueued false))
    else (σ, .inr (.enqueued false))
  -- try_dequeue
  | .tryDeqTail headOld => (σ, .inl (.tryDeqNext headOld σ.tail))
  | .tryDeqNext headOld tailOld =>
    (σ, .inl (.tryDeqCheck headOld tailOld (σ.node headOld.value).next))
  | .tryDeqCheck headOld tailOld next =>
    if σ.head = headOld then
      if headOld.value = tailOld.value then
        if next.value = 0 then (σ, .inr (.tried .empty none (some tailOld.aba)))
        else (σ, .inl (.tryDeqHelp tailOld next))
      else (σ, .inl (.tryDeqItem headOld tailOld next))
    else (σ, .inr (.tried .failed none none))
  | .tryDeqHelp tailOld next =>
    if σ.tail = tailOld then
      ({ σ with tail := ⟨next.value, tailOld.aba + 1⟩ },
        .inr (.tried .failed none (some (tailOld.aba + 1))))
    else (σ, .inr (.tried .failed none (some (tailOld.aba + 1))))
  | .tryDeqItem headOld tailOld next =>
    (σ, .inl (.tryDeqSwing headOld tailOld next (σ.node next.value).value))
  | .tryDeqSwing headOld tailOld next item =>
    if σ.head = headOld then
      ({ σ with head := ⟨next.value, headOld.aba + 1⟩ },
        .inr (.tried .ok (some item) (some tailOld.aba)))
    else (σ, .inr (.tried .failed (some item) (some tailOld.aba)))
  -- get_head, get_tail, approx_size
  | .readHead => (σ, .inr (.head σ.head))
  | .readTail => (σ, .inr (.tail σ.tail))
  | .sizeTail => (σ, .inl (.sizeHead σ.tail))
  | .sizeHead tailOld => (σ, .inr (.size ((tailOld.aba + wordSize - σ.head.aba) % wordSize)))

/-- `try_enqueue` and `try_dequeue` are called with words that `get_tail` and
`get_head` returned earlier. -/
def admits [DecidableEq α] (h : List (Event (Op α) (Ret α))) : Op α → Bool
  | .tryEnqueue _ tailOld => h.any fun e => match e with
    | .res _ (.tail w) => w = tailOld
    | _ => false
  | .tryDequeue headOld => h.any fun e => match e with
    | .res _ (.head w) => w = headOld
    | _ => false
  | _ => true

abbrev machine (α : Type) [DecidableEq α] [Inhabited α] : Machine (Op α) (Ret α) where
  Shared := Shared α
  Local := Local α
  Choice := Unit
  init := .init
  admits h _ op := admits h op
  start _ _ op := start op
  step _ _ σ l := some (step σ l)

end MSQueue

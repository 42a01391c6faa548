/-
The flat combining queue (`datastructures/flatcombining_queue.h`), with the list that
it applies its requests to (`datastructures/single_list.h`).

`machine` runs the source one shared access at a time, also within the methods of the
list: `Scan` is where `scan_combine_apply` is, and `Local` where a call is.  The thread
with number `t` has the thread id `t`.  A `T` is an `Option α`, where `(T)NULL` is `none`.

`scal::tlget` is assumed to return a new block for every node of the list: with
`reuse_memory` it would start over once the preallocated memory is used up.
-/
import Scal.LinearizationPoints
import Scal.Chain

open Interleave Linearizability

namespace FlatCombiningQueue

variable {α : Type}

/-! ### The list -/

/-- `SingleList::Node`. -/
structure Node (α : Type) where
  next : ℕ
  value : Option α

/-- The nodes by address, the address of the next new node, `head_` and `tail_`. -/
structure SingleList (α : Type) where
  node : ℕ → Node α
  alloc : ℕ
  head : ℕ
  tail : ℕ

namespace SingleList

def init : SingleList α := ⟨fun _ => ⟨0, none⟩, 2, 1, 1⟩

/-- The values of the nodes after `p`, up to the node `tail`. -/
def follow (node : ℕ → Node α) (tail : ℕ) : ℕ → ℕ → List (Option α)
  | 0, _ => []
  | fuel + 1, p =>
    if p = tail then [] else (node (node p).next).value :: follow node tail fuel (node p).next

/-- The values of the nodes after `head_`, up to `tail_`. -/
def items (l : SingleList α) : List (Option α) := follow l.node l.tail l.alloc l.head

/-- A new node with its `value` set, at the address `l.alloc`. -/
def newNode (l : SingleList α) (item : Option α) : SingleList α :=
  { l with
    node := Function.update l.node l.alloc { l.node l.alloc with value := item }
    alloc := l.alloc + 1 }

/-- `p->next = n`. -/
def setNext (l : SingleList α) (p n : ℕ) : SingleList α :=
  { l with node := Function.update l.node p { l.node p with next := n } }

end SingleList

/-! ### The queue -/

inductive Opcode where
  | done
  | enqueue
  | dequeue
  deriving DecidableEq

/-- `fc_details::Operation`. -/
@[ext]
structure Operation (α : Type) where
  opcode : Opcode
  data : Option α

structure Shared (α : Type) where
  operations : ℕ → Operation α
  queue : SingleList α
  globalLock : Bool

def Shared.init : Shared α := ⟨fun _ => ⟨.done, none⟩, .init, false⟩

/-- The two writes of `set_op`. -/
def Shared.setData (σ : Shared α) (i : ℕ) (data : Option α) : Shared α :=
  { σ with operations := Function.update σ.operations i { σ.operations i with data := data } }

def Shared.setOpcode (σ : Shared α) (i : ℕ) (opcode : Opcode) : Shared α :=
  { σ with operations := Function.update σ.operations i { σ.operations i with opcode := opcode } }

/-- What a call publishes. -/
def request : QueueOp α → Operation α
  | .enqueue item => ⟨.enqueue, some item⟩
  | .dequeue => ⟨.dequeue, none⟩

/-- The access that `scan_combine_apply` makes next, for the request at index `i`. -/
inductive Scan (α : Type) where
  | isEnqueue (i : ℕ)
  | isDequeue (i : ℕ)
  -- `queue_->enqueue`
  | enqData (i : ℕ)
  | enqNew (i : ℕ) (item : Option α)
  | enqTail (i n : ℕ)
  | enqNext (i n tail : ℕ)
  | enqSwing (i n : ℕ)
  -- `queue_->is_empty`
  | emptyHead (i : ℕ)
  | emptyTail (i head : ℕ)
  -- `queue_->dequeue`
  | deqHead (i : ℕ)
  | deqTail (i head : ℕ)
  | itemHead (i : ℕ)
  | itemNext (i head : ℕ)
  | itemValue (i next : ℕ)
  | nextHead (i : ℕ) (item : Option α)
  | nextNext (i : ℕ) (item : Option α) (head : ℕ)
  | deqSwing (i : ℕ) (item : Option α) (next : ℕ)
  -- `set_op(i, Opcode::Done, data)`
  | setData (i : ℕ) (data : Option α)
  | setOpcode (i : ℕ)

/-- The access that a call makes next. -/
inductive Local (α : Type) where
  | setData (op : QueueOp α)
  | setOpcode (op : QueueOp α)
  | lock (op : QueueOp α)
  | poll (op : QueueOp α)
  | scan (op : QueueOp α) (s : Scan α)
  | unlock (op : QueueOp α)
  | readData
  | clearData (item : Option α)
  | clearOpcode (item : Option α)

/-- The loop of `scan_combine_apply` from index `i` on. -/
def scanFrom (numOps i : ℕ) : Option (Scan α) := if i < numOps then some (.isEnqueue i) else none

/-- One access of `scan_combine_apply`; `none` when the loop has ended. -/
def scanStep (numOps : ℕ) (σ : Shared α) : Scan α → Shared α × Option (Scan α)
  | .isEnqueue i =>
    if (σ.operations i).opcode = .enqueue then (σ, some (.enqData i))
    else (σ, some (.isDequeue i))
  | .isDequeue i =>
    if (σ.operations i).opcode = .dequeue then (σ, some (.emptyHead i))
    else (σ, scanFrom numOps (i + 1))
  -- queue_->enqueue
  | .enqData i => (σ, some (.enqNew i (σ.operations i).data))
  | .enqNew i item =>
    ({ σ with queue := σ.queue.newNode item }, some (.enqTail i σ.queue.alloc))
  | .enqTail i n => (σ, some (.enqNext i n σ.queue.tail))
  | .enqNext i n tail => ({ σ with queue := σ.queue.setNext tail n }, some (.enqSwing i n))
  | .enqSwing i n => ({ σ with queue := { σ.queue with tail := n } }, some (.setData i none))
  -- queue_->is_empty
  | .emptyHead i => (σ, some (.emptyTail i σ.queue.head))
  | .emptyTail i head =>
    if head = σ.queue.tail then (σ, some (.setData i none)) else (σ, some (.deqHead i))
  -- queue_->dequeue
  | .deqHead i => (σ, some (.deqTail i σ.queue.head))
  | .deqTail i head =>
    if head = σ.queue.tail then (σ, some (.setData i none)) else (σ, some (.itemHead i))
  | .itemHead i => (σ, some (.itemNext i σ.queue.head))
  | .itemNext i head => (σ, some (.itemValue i (σ.queue.node head).next))
  | .itemValue i next => (σ, some (.nextHead i (σ.queue.node next).value))
  | .nextHead i item => (σ, some (.nextNext i item σ.queue.head))
  | .nextNext i item head => (σ, some (.deqSwing i item (σ.queue.node head).next))
  | .deqSwing i item next =>
    ({ σ with queue := { σ.queue with head := next } }, some (.setData i item))
  -- set_op
  | .setData i data => (σ.setData i data, some (.setOpcode i))
  | .setOpcode i => (σ.setOpcode i .done, scanFrom numOps (i + 1))

/-- The scan goes on, or has ended. -/
def Local.scanning (op : QueueOp α) : Option (Scan α) → Local α
  | some s => .scan op s
  | none => .unlock op

/-- What follows once the request has been answered. -/
def leave : QueueOp α → Local α ⊕ QueueRet α
  | .enqueue _ => .inr (.enqueued true)
  | .dequeue => .inl .readData

/-- One access of thread `t`. -/
def step (numOps t : ℕ) (σ : Shared α) : Local α → Shared α × (Local α ⊕ QueueRet α)
  | .setData op => (σ.setData t (request op).data, .inl (.setOpcode op))
  | .setOpcode op => (σ.setOpcode t (request op).opcode, .inl (.lock op))
  | .lock op =>
    if σ.globalLock then (σ, .inl (.poll op))
    else ({ σ with globalLock := true }, .inl (.scanning op (scanFrom numOps 0)))
  | .poll op =>
    if (σ.operations t).opcode = .done then (σ, leave op) else (σ, .inl (.lock op))
  | .scan op s => ((scanStep numOps σ s).1, .inl (.scanning op (scanStep numOps σ s).2))
  | .unlock op => ({ σ with globalLock := false }, leave op)
  | .readData => (σ, .inl (.clearData (σ.operations t).data))
  | .clearData item => (σ.setData t none, .inl (.clearOpcode item))
  | .clearOpcode item => (σ.setOpcode t .done, .inr (.dequeued item))

/-- Thread ids are below `num_ops`. -/
abbrev machine (α : Type) (numOps : ℕ) : Machine (QueueOp α) (QueueRet α) where
  Shared := Shared α
  Local := Local α
  Choice := Unit
  init := .init
  admits _ t _ := decide (t < numOps)
  start _ _ op := .setData op
  step t _ σ l := some (step numOps t σ l)

end FlatCombiningQueue

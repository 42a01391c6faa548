/-
The queue with timestamps for enqueues and dequeues (`datastructures/dts_queue.h`).

Every thread appends to its own buffer, as in the timestamped queue, but an item has its
timestamp before it is linked.  A dequeue draws a timestamp too, from a counter of its own;
it takes an item at once if that is not later, and otherwise the item of the least timestamp
that it saw in a scan of all buffers.

`machine` runs the source one shared access at a time; an item is private until it is linked.
The result of `hwrand()` is the choice made at the last access before `try_remove_oldest`.
A new item is at an address that was not used before, of which there are `addresses`.
-/
import Scal.TSQueue

open Interleave Linearizability

namespace DTSQueue

variable {α : Type}

/-- `DTSQueue::Item`; the `data` of a sentinel is `NULL`. -/
abbrev Item (α : Type) := TSQueue.Item α atomicCounter

/-- The items by address, the address of the next new item, the pointers `insert_[b]` and
`remove_[b]` of the buffers, and the two counters. -/
structure Shared (α : Type) where
  item : ℕ → Item α
  alloc : ℕ
  insert : ℕ → ℕ
  remove : ℕ → TaggedPointer
  timestamping : ℕ
  dequeueTimestamping : ℕ

/-- The state after `initialize`. -/
def Shared.init (numThreads : ℕ) : Shared α where
  item _ := ⟨0, none, atomicCounter.initSentinelAtomic⟩
  alloc := numThreads + 1
  insert := TSQueue.sentinel
  remove b := ⟨TSQueue.sentinel b, 0⟩
  timestamping := atomicCounter.clock
  dequeueTimestamping := atomicCounter.clock

/-- A new item, at the address `σ.alloc`, gets its timestamp. -/
def Shared.newItem (σ : Shared α) (element : α) : Shared α :=
  { σ with
    item := Function.update σ.item σ.alloc ⟨0, some element, σ.timestamping⟩
    alloc := σ.alloc + 1
    timestamping := (σ.timestamping + 1) % wordSize }

def Shared.setNext (σ : Shared α) (p next : ℕ) : Shared α :=
  { σ with item := Function.update σ.item p { σ.item p with next := next } }

def Shared.setInsert (σ : Shared α) (b p : ℕ) : Shared α :=
  { σ with insert := Function.update σ.insert b p }

def Shared.setRemove (σ : Shared α) (b : ℕ) (w : TaggedPointer) : Shared α :=
  { σ with remove := Function.update σ.remove b w }

/-- `set_timestamp_local` of a dequeue. -/
def Shared.drawTicket (σ : Shared α) : Shared α :=
  { σ with dequeueTimestamping := (σ.dequeueTimestamping + 1) % wordSize }

/-- The local variables of the loop in `try_remove_oldest`. -/
structure Scan where
  dequeueTimestamp : ℕ
  start : ℕ
  i : ℕ
  result : ℕ
  bufferIndex : ℕ
  timestamp : ℕ
  oldRemove : TaggedPointer

/-- The loop begins; `start` is what `hwrand()` returns. -/
def Scan.init (dequeueTimestamp start : ℕ) : Scan :=
  ⟨dequeueTimestamp, start, 0, 0, uint64Max, atomicCounter.initTop, ⟨0, 0⟩⟩

/-- `tmp_buffer_index`; `hwrand()` is below `2 ^ 58`, so the sum of the two `uint64_t` does not
wrap around. -/
def Scan.tmpBufferIndex (numThreads : ℕ) (s : Scan) : ℕ := (s.start + s.i) % numThreads

/-- The shared access a call makes next, with its local variables.  `again` says that the
item of the current buffer could not be removed at once, so that it is loaded anew. -/
inductive Local (α : Type) where
  | newItem (element : α)
  | loadOldInsert (element : α) (newItem : ℕ)
  | storeNext (element : α) (newItem oldInsert : ℕ)
  | storeInsert (element : α) (newItem : ℕ)
  | drawTicket
  | loadRemove (scan : Scan) (again : Bool)
  | loadInsert (scan : Scan) (again : Bool) (tmpRemove : TaggedPointer)
  | loadNext (scan : Scan) (again : Bool) (tmpRemove : TaggedPointer) (tmpInsert : ℕ)
  | loadTimestamp (scan : Scan) (again : Bool) (tmpRemove : TaggedPointer) (item : ℕ)
  | checkAtOnce (scan : Scan) (tmpRemove : TaggedPointer) (item : ℕ)
  | swapAtOnce (scan : Scan) (tmpRemove : TaggedPointer) (item : ℕ)
  | checkRemove (scan : Scan)
  | swapRemove (scan : Scan)
  | loadData (dequeueTimestamp result : ℕ)

def start : BagOp α → Local α
  | .put element => .newItem element
  | .get => .drawTicket

/-- `try_remove_oldest` begins, with what `hwrand()` returns. -/
def tryRemoveOldest (dequeueTimestamp start : ℕ) : Local α :=
  .loadRemove (.init dequeueTimestamp start) false

/-- The next iteration of the loop, if there is one, or what follows the loop; `dequeue` goes
on until it has an element. -/
def nextBuffer (numThreads : ℕ) (s : Scan) (start : ℕ) : Local α :=
  if s.i + 1 < numThreads then .loadRemove { s with i := s.i + 1 } false
  else if s.result ≠ 0 then .checkRemove s
  else tryRemoveOldest s.dequeueTimestamp start

/-- An item is compared to the oldest one found until now. -/
def Scan.compare (s : Scan) (b item itemTimestamp : ℕ) (tmpRemove : TaggedPointer) : Scan :=
  if atomicCounter.isLater s.timestamp itemTimestamp then
    { s with result := item, bufferIndex := b, timestamp := itemTimestamp, oldRemove := tmpRemove }
  else s

/-- What the hardware decides: the random start index, and whether `compare_exchange_weak`
fails spuriously. -/
structure Choice where
  start : ℕ
  spurious : Bool

/-- One shared access of thread `t`. -/
def step (numThreads addresses t : ℕ) (ch : Choice) (σ : Shared α) :
    Local α → Option (Shared α × (Local α ⊕ BagRet α))
  -- insert_element
  | .newItem element =>
    if σ.alloc < addresses then
      some (σ.newItem element, .inl (.loadOldInsert element σ.alloc))
    else none
  | .loadOldInsert element newItem => some (σ, .inl (.storeNext element newItem (σ.insert t)))
  | .storeNext element newItem oldInsert =>
    some (σ.setNext oldInsert newItem, .inl (.storeInsert element newItem))
  | .storeInsert _ newItem => some (σ.setInsert t newItem, .inr (.put true))
  -- dequeue
  | .drawTicket =>
    some (σ.drawTicket, .inl (tryRemoveOldest σ.dequeueTimestamping ch.start))
  | .loadRemove s again =>
    some (σ, .inl (.loadInsert s again (σ.remove (s.tmpBufferIndex numThreads))))
  | .loadInsert s again tmpRemove =>
    some (σ, .inl (.loadNext s again tmpRemove (σ.insert (s.tmpBufferIndex numThreads))))
  | .loadNext s again tmpRemove tmpInsert =>
    if tmpRemove.pointer ≠ tmpInsert then
      some (σ, .inl (.loadTimestamp s again tmpRemove (σ.item tmpRemove.pointer).next))
    else some (σ, .inl (nextBuffer numThreads s ch.start))
  | .loadTimestamp s again tmpRemove item =>
    let itemTimestamp := (σ.item item).timestamp
    if !again && !atomicCounter.isLater itemTimestamp s.dequeueTimestamp then
      some (σ, .inl (.checkAtOnce s tmpRemove item))
    else
      some (σ, .inl (nextBuffer numThreads
        (s.compare (s.tmpBufferIndex numThreads) item itemTimestamp tmpRemove) ch.start))
  | .checkAtOnce s tmpRemove item =>
    if σ.remove (s.tmpBufferIndex numThreads) = tmpRemove then
      some (σ, .inl (.swapAtOnce s tmpRemove item))
    else some (σ, .inl (.loadRemove s true))
  | .swapAtOnce s tmpRemove item =>
    if σ.remove (s.tmpBufferIndex numThreads) = tmpRemove ∧ ch.spurious = false then
      some (σ.setRemove (s.tmpBufferIndex numThreads) (addNextAba item tmpRemove 1),
        .inl (.loadData s.dequeueTimestamp item))
    else some (σ, .inl (.loadRemove s true))
  | .checkRemove s =>
    if σ.remove s.bufferIndex = s.oldRemove then some (σ, .inl (.swapRemove s))
    else some (σ, .inl (tryRemoveOldest s.dequeueTimestamp ch.start))
  | .swapRemove s =>
    if σ.remove s.bufferIndex = s.oldRemove ∧ ch.spurious = false then
      some (σ.setRemove s.bufferIndex (addNextAba s.result s.oldRemove 1),
        .inl (.loadData s.dequeueTimestamp s.result))
    else some (σ, .inl (tryRemoveOldest s.dequeueTimestamp ch.start))
  | .loadData dequeueTimestamp result =>
    match (σ.item result).data with
    | some x => some (σ, .inr (.got (some x)))
    | none => some (σ, .inl (tryRemoveOldest dequeueTimestamp ch.start))

abbrev machine (α : Type) (numThreads addresses : ℕ) : Machine (BagOp α) (BagRet α) where
  Shared := Shared α
  Local := Local α
  Choice := Choice
  init := .init numThreads
  admits _ t _ := t < numThreads
  start _ _ op := start op
  step := step numThreads addresses

end DTSQueue

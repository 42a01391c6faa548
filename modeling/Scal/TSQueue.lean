/-
The timestamped queue (`datastructures/ts_queue.h`, `datastructures/ts_queue_buffer.h`).

Every thread appends to its own buffer, a list of items from a sentinel on; `insert` is
the last item of it and `remove` the last item that was removed.  A dequeuer scans all
buffers and takes the item of the least timestamp it saw.

`machine` runs the source one shared access at a time.  The result of `hwrand()` is the
choice made at the last access of `read_time`, right after which the source calls it.  A
new item is at an address that was not used before, of which there are `addresses`.
-/
import Scal.Linearizable
import Scal.TimeStamp

open Interleave Linearizability

namespace TSQueue

variable {α : Type} {T : TimeStamp}

/-- `TSQueueBuffer::Item`; the `data` of a sentinel is `NULL`. -/
structure Item (α : Type) (T : TimeStamp) where
  next : ℕ
  data : Option α
  timestamp : T.Stamp

/-- The items by address, the address of the next new item, the pointers `insert_[b]` and
`remove_[b]` of the buffers, `emptiness_check_pointers_[t][b]`, and the timestamping. -/
structure Shared (α : Type) (T : TimeStamp) where
  item : ℕ → Item α T
  alloc : ℕ
  insert : ℕ → ℕ
  remove : ℕ → TaggedPointer
  emptinessCheckPointers : ℕ → ℕ → TaggedPointer
  clock : T.Clock

/-- The sentinel of buffer `b`. -/
def sentinel (b : ℕ) : ℕ := b + 1

/-- The state after `initialize`. -/
def Shared.init (numThreads : ℕ) : Shared α T where
  item _ := ⟨0, none, T.initSentinelAtomic⟩
  alloc := numThreads + 1
  insert := sentinel
  remove b := ⟨sentinel b, 0⟩
  emptinessCheckPointers _ _ := ⟨0, 0⟩
  clock := T.clock

/-- A new item, at the address `σ.alloc`. -/
def Shared.newItem (σ : Shared α T) (element : α) : Shared α T :=
  { σ with
    item := Function.update σ.item σ.alloc ⟨0, some element, T.initTopAtomic⟩
    alloc := σ.alloc + 1 }

def Shared.setNext (σ : Shared α T) (p next : ℕ) : Shared α T :=
  { σ with item := Function.update σ.item p { σ.item p with next := next } }

def Shared.setInsert (σ : Shared α T) (b p : ℕ) : Shared α T :=
  { σ with insert := Function.update σ.insert b p }

def Shared.setRemove (σ : Shared α T) (b : ℕ) (w : TaggedPointer) : Shared α T :=
  { σ with remove := Function.update σ.remove b w }

def Shared.setStamp (σ : Shared α T) (p : ℕ) (clock : T.Clock) (timestamp : T.Stamp) :
    Shared α T :=
  { σ with
    clock := clock
    item := Function.update σ.item p { σ.item p with timestamp := timestamp } }

def Shared.setEmptinessCheck (σ : Shared α T) (t b : ℕ) (w : TaggedPointer) : Shared α T :=
  { σ with
    emptinessCheckPointers := Function.update σ.emptinessCheckPointers t
      (Function.update (σ.emptinessCheckPointers t) b w) }

/-- The local variables of the loop in `try_remove_right`. -/
structure Scan (T : TimeStamp) where
  startTime : T.Time
  start : ℕ
  i : ℕ
  empty : Bool
  result : ℕ
  bufferIndex : ℕ
  timestamp : T.Time
  oldRemove : TaggedPointer

/-- The loop begins; `start` is what `hwrand()` returns. -/
def Scan.init (startTime : T.Time) (start : ℕ) : Scan T :=
  ⟨startTime, start, 0, true, 0, uint64Max, T.initTop, ⟨0, 0⟩⟩

/-- `tmp_buffer_index`; `hwrand()` is below `2 ^ 58`, so the sum of the two `uint64_t` does not
wrap around. -/
def Scan.tmpBufferIndex (numThreads : ℕ) (s : Scan T) : ℕ := (s.start + s.i) % numThreads

/-- The shared access a call makes next, with its local variables. -/
inductive Local (α : Type) (T : TimeStamp) where
  | newItem (element : α)
  | loadOldInsert (element : α) (newItem : ℕ)
  | storeNext (element : α) (newItem oldInsert : ℕ)
  | storeInsert (element : α) (newItem : ℕ)
  | setTimestamp (element : α) (newItem : ℕ) (setting : T.Setting)
  | readTime (reading : T.Reading)
  | loadRemove (scan : Scan T)
  | loadInsert (scan : Scan T) (tmpRemove : TaggedPointer)
  | loadNext (scan : Scan T) (tmpRemove : TaggedPointer) (tmpInsert : ℕ)
  | loadTimestamp (scan : Scan T) (tmpRemove : TaggedPointer) (item : ℕ) (loading : T.Loading)
  | checkRemove (scan : Scan T)
  | swapRemove (scan : Scan T)
  | loadData (result : ℕ)

def start : BagOp α → Local α T
  | .put element => .newItem element
  | .get => .readTime T.readTime

/-- `try_remove_right` returns `!empty` without an element, and `dequeue` goes on. -/
def noElement (s : Scan T) : Local α T ⊕ BagRet α :=
  if s.empty then .inr (.got none) else .inl (.readTime T.readTime)

/-- What follows the loop. -/
def afterLoop (s : Scan T) : Local α T ⊕ BagRet α :=
  if s.result ≠ 0 ∧ T.isLater s.timestamp s.startTime = false then .inl (.checkRemove s)
  else noElement s

/-- The next iteration of the loop, if there is one. -/
def nextBuffer (numThreads : ℕ) (s : Scan T) : Local α T ⊕ BagRet α :=
  if s.i + 1 < numThreads then .inl (.loadRemove { s with i := s.i + 1 }) else afterLoop s

/-- An item is compared to the oldest one found until now. -/
def Scan.compare (s : Scan T) (b item : ℕ) (itemTimestamp : T.Time) (tmpRemove : TaggedPointer) :
    Scan T :=
  if T.isLater s.timestamp itemTimestamp then
    { s with result := item, bufferIndex := b, timestamp := itemTimestamp, oldRemove := tmpRemove }
  else s

/-- What the hardware decides: the clock, the random start index, and whether
`compare_exchange_weak` fails spuriously. -/
structure Choice (T : TimeStamp) where
  time : T.Choice
  start : ℕ
  spurious : Bool

/-- One shared access of thread `t`. -/
def step (numThreads addresses t : ℕ) (ch : Choice T) (σ : Shared α T) :
    Local α T → Option (Shared α T × (Local α T ⊕ BagRet α))
  -- enqueue
  | .newItem element =>
    if σ.alloc < addresses then
      some (σ.newItem element, .inl (.loadOldInsert element σ.alloc))
    else none
  | .loadOldInsert element newItem => some (σ, .inl (.storeNext element newItem (σ.insert t)))
  | .storeNext element newItem oldInsert =>
    some (σ.setNext oldInsert newItem, .inl (.storeInsert element newItem))
  | .storeInsert element newItem =>
    some (σ.setInsert t newItem, .inl (.setTimestamp element newItem (T.setTimestamp t)))
  | .setTimestamp element newItem setting =>
    let (clock, timestamp, setting') :=
      T.setStep ch.time σ.clock (σ.item newItem).timestamp setting
    some (σ.setStamp newItem clock timestamp,
      match setting' with
      | some setting' => .inl (.setTimestamp element newItem setting')
      | none => .inr (.put true))
  -- dequeue
  | .readTime reading =>
    match T.readStep ch.time σ.clock reading with
    | .inl reading' => some (σ, .inl (.readTime reading'))
    | .inr startTime => some (σ, .inl (.loadRemove (.init startTime ch.start)))
  | .loadRemove s => some (σ, .inl (.loadInsert s (σ.remove (s.tmpBufferIndex numThreads))))
  | .loadInsert s tmpRemove =>
    some (σ, .inl (.loadNext s tmpRemove (σ.insert (s.tmpBufferIndex numThreads))))
  | .loadNext s tmpRemove tmpInsert =>
    let b := s.tmpBufferIndex numThreads
    if tmpRemove.pointer ≠ tmpInsert then
      some (σ, .inl (.loadTimestamp { s with empty := false } tmpRemove
        (σ.item tmpRemove.pointer).next T.loadTimestamp))
    else if σ.emptinessCheckPointers t b ≠ tmpRemove then
      some (σ.setEmptinessCheck t b tmpRemove, nextBuffer numThreads { s with empty := false })
    else some (σ, nextBuffer numThreads s)
  | .loadTimestamp s tmpRemove item loading =>
    match T.loadStep (σ.item item).timestamp loading with
    | .inl loading' => some (σ, .inl (.loadTimestamp s tmpRemove item loading'))
    | .inr itemTimestamp =>
      some (σ, nextBuffer numThreads
        (s.compare (s.tmpBufferIndex numThreads) item itemTimestamp tmpRemove))
  | .checkRemove s =>
    if σ.remove s.bufferIndex = s.oldRemove then some (σ, .inl (.swapRemove s))
    else some (σ, noElement s)
  | .swapRemove s =>
    if σ.remove s.bufferIndex = s.oldRemove ∧ ch.spurious = false then
      some (σ.setRemove s.bufferIndex (addNextAba s.result s.oldRemove 1),
        .inl (.loadData s.result))
    else some (σ, noElement s)
  | .loadData result =>
    match (σ.item result).data with
    | some x => some (σ, .inr (.got (some x)))
    | none => some (σ, .inl (.readTime T.readTime))

abbrev machine (α : Type) (T : TimeStamp) (numThreads addresses : ℕ) :
    Machine (BagOp α) (BagRet α) where
  Shared := Shared α T
  Local := Local α T
  Choice := Choice T
  init := .init numThreads
  admits _ t _ := t < numThreads
  start _ _ op := start op
  step := step numThreads addresses

end TSQueue

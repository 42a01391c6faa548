/-
The timestamped stack (`datastructures/ts_stack.h`, `datastructures/ts_stack_buffer.h`).

Every thread pushes to a buffer of its own, a list of items from the newest on.  It
registers the buffer at its first push, and the buffers form a ring that starts at an
entry buffer without items.  A popper walks around the ring once and takes the item of
the latest timestamp it saw, or at once an item pushed after it began.

`machine` runs the source one shared access at a time.  The result of `hwrand()` is the
choice made when `entry_buffer_` is loaded, right before which the source calls it.  A new
item is at an address that was not used before, of which there are `addresses`; the buffer
that thread `t` allocates, once in its life, is `bufferOf t`.
-/
import Scal.Linearizable
import Scal.TimeStamp

open Interleave Linearizability

namespace TSStack

variable {α : Type} {T : TimeStamp}

/-- `TSStackBuffer::Item`; the `data` of a sentinel is `NULL`. -/
structure Item (α : Type) (T : TimeStamp) where
  next : ℕ
  taken : Bool
  data : Option α
  timestamp : T.Stamp

/-- `TSStackBuffer::SPBuffer`; an `index` of `-1` is `none`. -/
structure SPBuffer where
  list : TaggedPointer
  next : ℕ
  index : Option ℕ

/-- The items and the buffers by address, the address of the next new item, the pointers
`spBuffers_[t]`, `emptiness_check_pointers_[t][index]`, and the timestamping. -/
structure Shared (α : Type) (T : TimeStamp) where
  item : ℕ → Item α T
  alloc : ℕ
  buffer : ℕ → SPBuffer
  spBuffers : ℕ → ℕ
  emptinessCheckPointers : ℕ → ℕ → TaggedPointer
  clock : T.Clock

/-- `entry_buffer_`, which is never changed. -/
def entryBuffer : ℕ := 1

/-- The buffer that thread `t` allocates when it registers. -/
def bufferOf (t : ℕ) : ℕ := t + 2

/-- A sentinel at address `p`. -/
def sentinel (α : Type) (T : TimeStamp) (p : ℕ) : Item α T := ⟨p, true, none, T.initSentinelAtomic⟩

/-- The state after `initialize`: the entry buffer has a sentinel. -/
def Shared.init : Shared α T where
  item _ := sentinel α T 1
  alloc := 2
  buffer _ := ⟨⟨1, 0⟩, entryBuffer, none⟩
  spBuffers _ := 0
  emptinessCheckPointers _ _ := ⟨0, 0⟩
  clock := T.clock

/-- A new item, at the address `σ.alloc`. -/
def Shared.newItem (σ : Shared α T) (element : α) : Shared α T :=
  { σ with
    item := Function.update σ.item σ.alloc ⟨0, false, some element, T.initTopAtomic⟩
    alloc := σ.alloc + 1 }

/-- `register_thread` up to the loop: a new buffer with a new sentinel. -/
def Shared.newBuffer (σ : Shared α T) (t : ℕ) : Shared α T :=
  { σ with
    item := Function.update σ.item σ.alloc (sentinel α T σ.alloc)
    alloc := σ.alloc + 1
    buffer := Function.update σ.buffer (bufferOf t) ⟨⟨σ.alloc, 0⟩, bufferOf t, some t⟩
    spBuffers := Function.update σ.spBuffers t (bufferOf t) }

def Shared.setNext (σ : Shared α T) (p next : ℕ) : Shared α T :=
  { σ with item := Function.update σ.item p { σ.item p with next := next } }

def Shared.take (σ : Shared α T) (p : ℕ) : Shared α T :=
  { σ with item := Function.update σ.item p { σ.item p with taken := true } }

def Shared.setStamp (σ : Shared α T) (p : ℕ) (clock : T.Clock) (timestamp : T.Stamp) :
    Shared α T :=
  { σ with
    clock := clock
    item := Function.update σ.item p { σ.item p with timestamp := timestamp } }

def Shared.setBufferNext (σ : Shared α T) (b next : ℕ) : Shared α T :=
  { σ with buffer := Function.update σ.buffer b { σ.buffer b with next := next } }

def Shared.setList (σ : Shared α T) (b : ℕ) (w : TaggedPointer) : Shared α T :=
  { σ with buffer := Function.update σ.buffer b { σ.buffer b with list := w } }

def Shared.setEmptinessCheck (σ : Shared α T) (t index : ℕ) (w : TaggedPointer) : Shared α T :=
  { σ with
    emptinessCheckPointers := Function.update σ.emptinessCheckPointers t
      (Function.update (σ.emptinessCheckPointers t) index w) }

/-- The local variables of the loop in `try_remove_right`. -/
structure Scan (T : TimeStamp) where
  invocationTime : T.Time
  startBuffer : ℕ
  currentBuffer : ℕ
  entryCounter : ℕ
  empty : Bool
  result : ℕ
  youngestBuffer : ℕ
  timestamp : T.Time
  oldTop : TaggedPointer

/-- The loop begins at the buffer to which the random steps led. -/
def Scan.init (invocationTime : T.Time) (start : ℕ) : Scan T :=
  ⟨invocationTime, start, start, 0, true, 0, 0, T.initSentinel, ⟨0, 0⟩⟩

/-- The shared access a call makes next, with its local variables. -/
inductive Local (α : Type) (T : TimeStamp) where
  -- push
  | newItem (element : α)
  | loadSPBuffer (element : α) (newItem : ℕ)
  | register (element : α) (newItem : ℕ)
  | loadEntryNext (element : α) (newItem : ℕ)
  | storeBufferNext (element : α) (newItem next : ℕ)
  | linkBuffer (element : α) (newItem next : ℕ)
  | reloadSPBuffer (element : α) (newItem : ℕ)
  | loadOldTop (element : α) (newItem buffer : ℕ)
  | topNext (element : α) (newItem : ℕ) (oldTop : TaggedPointer) (top : ℕ)
  | topTaken (element : α) (newItem : ℕ) (oldTop : TaggedPointer) (top : ℕ)
  | topStep (element : α) (newItem : ℕ) (oldTop : TaggedPointer) (top : ℕ)
  | storeNext (element : α) (newItem : ℕ) (oldTop : TaggedPointer) (top : ℕ)
  | listSPBuffer (element : α) (newItem : ℕ) (oldTop : TaggedPointer)
  | storeList (element : α) (newItem : ℕ) (oldTop : TaggedPointer) (buffer : ℕ)
  | setTimestamp (element : α) (newItem : ℕ) (setting : T.Setting)
  -- pop
  | readTime (reading : T.Reading)
  | loadEntry (invocationTime : T.Time)
  | skip (invocationTime : T.Time) (count currentBuffer : ℕ)
  | loadBuffer (scan : Scan T)
  | loadTop (scan : Scan T) (again : Bool)
  -- `get_youngest_item`
  | loadList (scan : Scan T) (again : Bool) (tmpTop : TaggedPointer)
  | loadTaken (scan : Scan T) (again : Bool) (tmpTop : TaggedPointer) (item : ℕ)
  | loadNext (scan : Scan T) (again : Bool) (tmpTop : TaggedPointer) (item : ℕ)
  | unlinkSPBuffer (scan : Scan T) (again : Bool) (tmpTop : TaggedPointer)
  | unlinking
  | loadTimestamp (scan : Scan T) (again : Bool) (tmpTop : TaggedPointer) (item : ℕ)
    (loading : T.Loading)
  | checkItem (scan : Scan T) (tmpTop : TaggedPointer) (item : ℕ)
  | takeItem (scan : Scan T) (tmpTop : TaggedPointer) (item : ℕ)
  | checkResult (scan : Scan T)
  | takeResult (scan : Scan T)
  | swapList (invocationTime : T.Time) (buffer : ℕ) (oldTop : TaggedPointer) (item : ℕ)
  | loadData (invocationTime : T.Time) (item : ℕ)

def start : BagOp α → Local α T
  | .put element => .newItem element
  | .get => .readTime T.readTime

/-- `try_remove_right` returns `!empty` without an element, and `pop` goes on. -/
def noElement (s : Scan T) : Local α T ⊕ BagRet α :=
  if s.empty then .inr (.got none) else .inl (.loadEntry s.invocationTime)

/-- What follows the loop. -/
def afterLoop (s : Scan T) : Local α T ⊕ BagRet α :=
  if s.result ≠ 0 then .inl (.checkResult s) else noElement s

/-- An iteration of the loop begins; `index` is the one of the current buffer. -/
def loopHead (index : Option ℕ) (s : Scan T) : Local α T ⊕ BagRet α :=
  let s := if index = none then { s with entryCounter := s.entryCounter + 1 } else s
  if 2 ≤ s.entryCounter then afterLoop s else .inl (.loadBuffer s)

/-- An iteration of the loop ends. -/
def loopEnd (index : Option ℕ) (s : Scan T) : Local α T ⊕ BagRet α :=
  if s.currentBuffer = s.startBuffer then afterLoop s else loopHead index s

/-- An item is compared to the youngest one found until now. -/
def Scan.compare (s : Scan T) (item : ℕ) (itemTimestamp : T.Time) (tmpTop : TaggedPointer) :
    Scan T :=
  if T.isLater itemTimestamp s.timestamp then
    { s with
      result := item, youngestBuffer := s.currentBuffer, timestamp := itemTimestamp
      oldTop := tmpTop }
  else s

/-- The random steps are made, or the next one is. -/
def skipTo (σ : Shared α T) (invocationTime : T.Time) (count currentBuffer : ℕ) :
    Local α T ⊕ BagRet α :=
  match count with
  | 0 => loopHead (σ.buffer currentBuffer).index (.init invocationTime currentBuffer)
  | count + 1 => .inl (.skip invocationTime count currentBuffer)

/-- `get_youngest_item` returned `NULL` to thread `t`. -/
def noItem (t : ℕ) (σ : Shared α T) (s : Scan T) (again : Bool) (tmpTop : TaggedPointer) :
    Shared α T × (Local α T ⊕ BagRet α) :=
  let index := (σ.buffer s.currentBuffer).index
  if again then (σ, loopEnd index s)
  else
    match index with
    | none => (σ, loopEnd index s)
    | some i =>
      if σ.emptinessCheckPointers t i ≠ tmpTop then
        (σ.setEmptinessCheck t i tmpTop, loopEnd index { s with empty := false })
      else (σ, loopEnd index s)

/-- What the hardware decides: the clock, the random start index, and whether
`compare_exchange_weak` fails spuriously. -/
structure Choice (T : TimeStamp) where
  time : T.Choice
  start : ℕ
  spurious : Bool

/-- One shared access of thread `t`. -/
def step (numThreads addresses t : ℕ) (ch : Choice T) (σ : Shared α T) :
    Local α T → Option (Shared α T × (Local α T ⊕ BagRet α))
  -- push
  | .newItem element =>
    if σ.alloc < addresses then
      some (σ.newItem element, .inl (.loadSPBuffer element σ.alloc))
    else none
  | .loadSPBuffer element newItem =>
    if σ.spBuffers t = 0 then some (σ, .inl (.register element newItem))
    else some (σ, .inl (.reloadSPBuffer element newItem))
  | .register element newItem =>
    if σ.alloc < addresses then some (σ.newBuffer t, .inl (.loadEntryNext element newItem))
    else none
  | .loadEntryNext element newItem =>
    some (σ, .inl (.storeBufferNext element newItem (σ.buffer entryBuffer).next))
  | .storeBufferNext element newItem next =>
    some (σ.setBufferNext (bufferOf t) next, .inl (.linkBuffer element newItem next))
  | .linkBuffer element newItem next =>
    if (σ.buffer entryBuffer).next = next ∧ ch.spurious = false then
      some (σ.setBufferNext entryBuffer (bufferOf t), .inl (.reloadSPBuffer element newItem))
    else some (σ, .inl (.storeBufferNext element newItem (σ.buffer entryBuffer).next))
  | .reloadSPBuffer element newItem =>
    some (σ, .inl (.loadOldTop element newItem (σ.spBuffers t)))
  | .loadOldTop element newItem buffer =>
    some (σ, .inl (.topNext element newItem (σ.buffer buffer).list (σ.buffer buffer).list.pointer))
  | .topNext element newItem oldTop top =>
    if (σ.item top).next ≠ top then some (σ, .inl (.topTaken element newItem oldTop top))
    else some (σ, .inl (.storeNext element newItem oldTop top))
  | .topTaken element newItem oldTop top =>
    if (σ.item top).taken then some (σ, .inl (.topStep element newItem oldTop top))
    else some (σ, .inl (.storeNext element newItem oldTop top))
  | .topStep element newItem oldTop top =>
    some (σ, .inl (.topNext element newItem oldTop (σ.item top).next))
  | .storeNext element newItem oldTop top =>
    some (σ.setNext newItem top, .inl (.listSPBuffer element newItem oldTop))
  | .listSPBuffer element newItem oldTop =>
    some (σ, .inl (.storeList element newItem oldTop (σ.spBuffers t)))
  | .storeList element newItem oldTop buffer =>
    some (σ.setList buffer (addNextAba newItem oldTop 1),
      .inl (.setTimestamp element newItem (T.setTimestamp t)))
  | .setTimestamp element newItem setting =>
    let (clock, timestamp, setting') :=
      T.setStep ch.time σ.clock (σ.item newItem).timestamp setting
    some (σ.setStamp newItem clock timestamp,
      match setting' with
      | some setting' => .inl (.setTimestamp element newItem setting')
      | none => .inr (.put true))
  -- pop
  | .readTime reading =>
    match T.readStep ch.time σ.clock reading with
    | .inl reading' => some (σ, .inl (.readTime reading'))
    | .inr invocationTime => some (σ, .inl (.loadEntry invocationTime))
  | .loadEntry invocationTime =>
    some (σ, skipTo σ invocationTime (ch.start % numThreads) entryBuffer)
  | .skip invocationTime count currentBuffer =>
    some (σ, skipTo σ invocationTime count (σ.buffer currentBuffer).next)
  | .loadBuffer s =>
    some (σ, .inl (.loadTop { s with currentBuffer := (σ.buffer s.currentBuffer).next } false))
  | .loadTop s again => some (σ, .inl (.loadList s again (σ.buffer s.currentBuffer).list))
  | .loadList s again tmpTop =>
    some (σ, .inl (.loadTaken s again tmpTop (σ.buffer s.currentBuffer).list.pointer))
  | .loadTaken s again tmpTop item =>
    if (σ.item item).taken then some (σ, .inl (.loadNext s again tmpTop item))
    else
      some (σ, .inl (.loadTimestamp { s with empty := false } again tmpTop item T.loadTimestamp))
  | .loadNext s again tmpTop item =>
    if (σ.item item).next = item then some (σ, .inl (.unlinkSPBuffer s again tmpTop))
    else some (σ, .inl (.loadTaken s again tmpTop (σ.item item).next))
  | .unlinkSPBuffer s again tmpTop =>
    match (σ.buffer s.currentBuffer).index with
    | none => some (noItem t σ s again tmpTop)
    | some i =>
      if σ.spBuffers i ≠ 0 then some (noItem t σ s again tmpTop) else some (σ, .inl .unlinking)
  -- a buffer is unlinked only after `unregister_thread`, which is never called
  | .unlinking => none
  | .loadTimestamp s again tmpTop item loading =>
    match T.loadStep (σ.item item).timestamp loading with
    | .inl loading' => some (σ, .inl (.loadTimestamp s again tmpTop item loading'))
    | .inr itemTimestamp =>
      if again = false ∧ T.isLater s.invocationTime itemTimestamp = false then
        some (σ, .inl (.checkItem s tmpTop item))
      else
        some (σ, loopEnd (σ.buffer s.currentBuffer).index (s.compare item itemTimestamp tmpTop))
  | .checkItem s tmpTop item =>
    if (σ.item item).taken = false then some (σ, .inl (.takeItem s tmpTop item))
    else some (σ, .inl (.loadTop s true))
  | .takeItem s tmpTop item =>
    if (σ.item item).taken = false ∧ ch.spurious = false then
      some (σ.take item, .inl (.swapList s.invocationTime s.currentBuffer tmpTop item))
    else some (σ, .inl (.loadTop s true))
  | .checkResult s =>
    if (σ.item s.result).taken = false then some (σ, .inl (.takeResult s))
    else some (σ, noElement s)
  | .takeResult s =>
    if (σ.item s.result).taken = false ∧ ch.spurious = false then
      some (σ.take s.result,
        .inl (.swapList s.invocationTime s.youngestBuffer s.oldTop s.result))
    else some (σ, noElement s)
  | .swapList invocationTime buffer oldTop item =>
    if (σ.buffer buffer).list = oldTop ∧ ch.spurious = false then
      some (σ.setList buffer (addNextAba item oldTop 0), .inl (.loadData invocationTime item))
    else some (σ, .inl (.loadData invocationTime item))
  | .loadData invocationTime item =>
    match (σ.item item).data with
    | some x => some (σ, .inr (.got (some x)))
    | none => some (σ, .inl (.loadEntry invocationTime))

abbrev machine (α : Type) (T : TimeStamp) (numThreads addresses : ℕ) :
    Machine (BagOp α) (BagRet α) where
  Shared := Shared α T
  Local := Local α T
  Choice := Choice T
  init := .init
  admits _ t _ := t < numThreads
  start _ _ op := start op
  step := step numThreads addresses

end TSStack

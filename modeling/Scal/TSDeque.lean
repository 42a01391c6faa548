/-
The timestamped deque (`datastructures/ts_deque.h`, `datastructures/ts_deque_buffer.h`).

Every thread inserts at both ends of a buffer of its own, a doubly linked list of items
that starts with a sentinel.  A remover scans all buffers and takes the item that lies
furthest on its side, or at once an item inserted there after it began.

The functions of the left and of the right end are mirror images; they are one here, with
the `Side` of the end as a parameter: `left_[b]` is `pointer .left b`, an item's `left` is
`link .left`.  `machine` runs the source one shared access at a time.  The result of
`hwrand()` is the choice made at the last access of the second `read_time`, right after
which the source calls it.  The `index` of an item never changes once it is in a buffer; it
is read here along with its timestamp when two items are compared.  A new item is at an
address that was not used before.
-/
import Scal.Deque
import Scal.TimeStamp
import Mathlib.Data.Int.Notation

open Interleave Linearizability

namespace TSDeque

variable {α : Type} {T : TimeStamp}

/-- `TSDequeBuffer::Item`; the `data` of a sentinel is `NULL`. -/
structure Item (α : Type) (T : TimeStamp) where
  link : Side → ℕ
  taken : Bool
  data : Option α
  timestamp : T.Stamp
  index : ℤ

/-- The items by address, the address of the next new item, the pointers `left_[b]` and
`right_[b]` of the buffers, `*next_index_[t]`, the pointers `emptiness_check_left_[t][b]` and
`emptiness_check_right_[t][b]`, and the timestamping. -/
structure Shared (α : Type) (T : TimeStamp) where
  item : ℕ → Item α T
  alloc : ℕ
  pointer : Side → ℕ → TaggedPointer
  nextIndex : ℕ → ℤ
  emptinessCheck : Side → ℕ → ℕ → TaggedPointer
  clock : T.Clock

/-- The sentinel of buffer `b`. -/
def sentinel (b : ℕ) : ℕ := b + 1

/-- The state after `initialize`. -/
def Shared.init (numThreads : ℕ) : Shared α T where
  item p := ⟨fun _ => p, true, none, T.initSentinelAtomic, 0⟩
  alloc := numThreads + 1
  pointer _ b := ⟨sentinel b, 0⟩
  nextIndex _ := 1
  emptinessCheck _ _ _ := ⟨0, 0⟩
  clock := T.clock

/-- The index of an item that is inserted at an end, when `*next_index_[t]` is `n`. -/
def signedIndex : Side → ℤ → ℤ
  | .left, n => -n
  | .right, n => n

/-- A new item of thread `t`, at the address `σ.alloc`, linked to itself on the side where it
is inserted. -/
def Shared.newItem (σ : Shared α T) (side : Side) (t : ℕ) (element : α) : Shared α T :=
  { σ with
    item := Function.update σ.item σ.alloc
      ⟨Function.update (fun _ => 0) side σ.alloc, false, some element, T.initTopAtomic,
        signedIndex side (σ.nextIndex t)⟩
    alloc := σ.alloc + 1
    nextIndex := Function.update σ.nextIndex t (σ.nextIndex t + 1) }

def Shared.setLink (σ : Shared α T) (p : ℕ) (side : Side) (q : ℕ) : Shared α T :=
  { σ with
    item := Function.update σ.item p
      { σ.item p with link := Function.update (σ.item p).link side q } }

def Shared.take (σ : Shared α T) (p : ℕ) : Shared α T :=
  { σ with item := Function.update σ.item p { σ.item p with taken := true } }

def Shared.setStamp (σ : Shared α T) (p : ℕ) (clock : T.Clock) (timestamp : T.Stamp) :
    Shared α T :=
  { σ with
    clock := clock
    item := Function.update σ.item p { σ.item p with timestamp := timestamp } }

def Shared.setPointer (σ : Shared α T) (side : Side) (b : ℕ) (w : TaggedPointer) : Shared α T :=
  { σ with pointer := Function.update σ.pointer side (Function.update (σ.pointer side) b w) }

def Shared.setEmptinessCheck (σ : Shared α T) (side : Side) (t b : ℕ) (w : TaggedPointer) :
    Shared α T :=
  { σ with
    emptinessCheck := Function.update σ.emptinessCheck side
      (Function.update (σ.emptinessCheck side) t
        (Function.update (σ.emptinessCheck side t) b w)) }

/-- `inserted_left` and `inserted_right`. -/
def inserted (side : Side) (index : ℤ) : Bool :=
  match side with
  | .left => index < 0
  | .right => 0 < index

/-- `is_more_left` and `is_more_right`, of the indices and the timestamps of two items. -/
def isMore (T : TimeStamp) (side : Side) (index1 : ℤ) (timestamp1 : T.Time) (index2 : ℤ)
    (timestamp2 : T.Time) : Bool :=
  if inserted side index2 then
    if inserted side index1 then T.isLater timestamp1 timestamp2 else false
  else
    if inserted side index1 then true else T.isLater timestamp2 timestamp1

/-- The index lies beyond the threshold of `get_left_item` and `get_right_item`. -/
def beyond (side : Side) (threshold index : ℤ) : Bool :=
  match side with
  | .left => threshold < index
  | .right => index < threshold

/-- The local variables of the loop in `try_remove_left` and `try_remove_right`. -/
structure Scan (T : TimeStamp) where
  side : Side
  invocationTime : T.Time
  startTime : T.Time
  start : ℕ
  i : ℕ
  empty : Bool
  result : ℕ
  bufferIndex : ℕ
  timestamp : T.Time
  old : TaggedPointer

/-- The loop begins; `start` is what `hwrand()` returns. -/
def Scan.init (side : Side) (invocationTime startTime : T.Time) (start : ℕ) : Scan T :=
  ⟨side, invocationTime, startTime, start, 0, true, 0, uint64Max, T.initSentinel, ⟨0, 0⟩⟩

/-- `tmp_buffer_index`; `hwrand()` is below `2 ^ 58`, so the sum of the two `uint64_t` does not
wrap around. -/
def Scan.tmpBufferIndex (numThreads : ℕ) (s : Scan T) : ℕ := (s.start + s.i) % numThreads

/-- The shared access a call makes next, with its local variables; `end` is the local `left`
of `insert_left` and `right` of `insert_right`, `tmp` is `tmp_left` and `tmp_right`. -/
inductive Local (α : Type) (T : TimeStamp) where
  -- insert
  | newItem (side : Side) (element : α)
  | loadOld (side : Side) (newItem : ℕ)
  | endLink (side : Side) (newItem : ℕ) (old : TaggedPointer) (p : ℕ)
  | endTaken (side : Side) (newItem : ℕ) (old : TaggedPointer) (p : ℕ)
  | endStep (side : Side) (newItem : ℕ) (old : TaggedPointer) (p : ℕ)
  | checkEnd (side : Side) (newItem : ℕ) (old : TaggedPointer) (p : ℕ)
  | loadOther (side : Side) (newItem : ℕ) (old : TaggedPointer) (p : ℕ)
  | storeOther (side : Side) (newItem : ℕ) (old : TaggedPointer) (p : ℕ)
    (oldOther : TaggedPointer)
  | linkNew (side : Side) (newItem : ℕ) (old : TaggedPointer) (p : ℕ)
  | linkEnd (side : Side) (newItem : ℕ) (old : TaggedPointer) (p : ℕ)
  | storePointer (side : Side) (newItem : ℕ) (old : TaggedPointer)
  | setTimestamp (newItem : ℕ) (setting : T.Setting)
  -- remove
  | readTime (side : Side) (reading : T.Reading)
  | readStart (side : Side) (invocationTime : T.Time) (reading : T.Reading)
  | loadTmp (scan : Scan T)
  -- `get_left_item` and `get_right_item`
  | loadLimit (scan : Scan T) (tmp : TaggedPointer)
  | loadThreshold (scan : Scan T) (tmp : TaggedPointer) (limit : ℕ)
  | loadFirst (scan : Scan T) (tmp : TaggedPointer) (threshold : ℤ)
  | loadIndex (scan : Scan T) (tmp : TaggedPointer) (threshold : ℤ) (item : ℕ)
  | loadTaken (scan : Scan T) (tmp : TaggedPointer) (threshold : ℤ) (item : ℕ)
  | checkLink (scan : Scan T) (tmp : TaggedPointer) (threshold : ℤ) (item : ℕ)
  | loadLink (scan : Scan T) (tmp : TaggedPointer) (threshold : ℤ) (item : ℕ)
  | loadTimestamp (scan : Scan T) (tmp : TaggedPointer) (item : ℕ) (loading : T.Loading)
  | checkItem (scan : Scan T)
  | takeItem (scan : Scan T)
  | loadTmpOther (scan : Scan T) (tmp : TaggedPointer)
  | checkResult (scan : Scan T)
  | takeResult (scan : Scan T)
  | swapPointer (scan : Scan T)
  | loadData (scan : Scan T)

/-- `insert_left`, `insert_right`, `remove_left` and `remove_right`. -/
def start : DequeOp α → Local α T
  | .insertLeft element => .newItem .left element
  | .insertRight element => .newItem .right element
  | .removeLeft => .readTime .left T.readTime
  | .removeRight => .readTime .right T.readTime

/-- `try_remove_left` returns `!empty` without an element, and `remove_left` goes on. -/
def noElement (s : Scan T) : Local α T ⊕ DequeRet α :=
  if s.empty then .inr (.removed none)
  else .inl (.readStart s.side s.invocationTime T.readTime)

/-- What follows the loop. -/
def afterLoop (s : Scan T) : Local α T ⊕ DequeRet α :=
  if s.result ≠ 0 ∧ T.isLater s.timestamp s.startTime = false then .inl (.checkResult s)
  else noElement s

/-- The next iteration of the loop, if there is one. -/
def nextBuffer (numThreads : ℕ) (s : Scan T) : Local α T ⊕ DequeRet α :=
  if s.i + 1 < numThreads then .inl (.loadTmp { s with i := s.i + 1 }) else afterLoop s

/-- What the hardware decides: the clock, the random start index, and whether
`compare_exchange_weak` fails spuriously. -/
structure Choice (T : TimeStamp) where
  time : T.Choice
  start : ℕ
  spurious : Bool

/-- One shared access of thread `t`. -/
def step (numThreads t : ℕ) (ch : Choice T) (σ : Shared α T) :
    Local α T → Shared α T × (Local α T ⊕ DequeRet α)
  -- insert
  | .newItem side element => (σ.newItem side t element, .inl (.loadOld side σ.alloc))
  | .loadOld side newItem =>
    let old := σ.pointer side t
    (σ, .inl (.endLink side newItem old old.pointer))
  | .endLink side newItem old p =>
    if (σ.item p).link side.other ≠ p then (σ, .inl (.endTaken side newItem old p))
    else (σ, .inl (.checkEnd side newItem old p))
  | .endTaken side newItem old p =>
    if (σ.item p).taken then (σ, .inl (.endStep side newItem old p))
    else (σ, .inl (.checkEnd side newItem old p))
  | .endStep side newItem old p =>
    (σ, .inl (.endLink side newItem old ((σ.item p).link side.other)))
  | .checkEnd side newItem old p =>
    if (σ.item p).link side.other = p then (σ, .inl (.loadOther side newItem old p))
    else (σ, .inl (.linkNew side newItem old p))
  | .loadOther side newItem old p =>
    (σ, .inl (.storeOther side newItem old p (σ.pointer side.other t)))
  | .storeOther side newItem old p oldOther =>
    (σ.setPointer side.other t (addNextAba p oldOther 1), .inl (.linkNew side newItem old p))
  | .linkNew side newItem old p =>
    (σ.setLink newItem side.other p, .inl (.linkEnd side newItem old p))
  | .linkEnd side newItem old p =>
    (σ.setLink p side newItem, .inl (.storePointer side newItem old))
  | .storePointer side newItem old =>
    (σ.setPointer side t (addNextAba newItem old 1),
      .inl (.setTimestamp newItem (T.setTimestamp t)))
  | .setTimestamp newItem setting =>
    let (clock, timestamp, setting') :=
      T.setStep ch.time σ.clock (σ.item newItem).timestamp setting
    (σ.setStamp newItem clock timestamp,
      match setting' with
      | some setting' => .inl (.setTimestamp newItem setting')
      | none => .inr (.inserted true))
  -- remove
  | .readTime side reading =>
    match T.readStep ch.time σ.clock reading with
    | .inl reading' => (σ, .inl (.readTime side reading'))
    | .inr invocationTime => (σ, .inl (.readStart side invocationTime T.readTime))
  | .readStart side invocationTime reading =>
    match T.readStep ch.time σ.clock reading with
    | .inl reading' => (σ, .inl (.readStart side invocationTime reading'))
    | .inr startTime => (σ, .inl (.loadTmp (.init side invocationTime startTime ch.start)))
  | .loadTmp s => (σ, .inl (.loadLimit s (σ.pointer s.side (s.tmpBufferIndex numThreads))))
  | .loadLimit s tmp =>
    (σ, .inl (.loadThreshold s tmp
      (σ.pointer s.side.other (s.tmpBufferIndex numThreads)).pointer))
  | .loadThreshold s tmp limit => (σ, .inl (.loadFirst s tmp (σ.item limit).index))
  | .loadFirst s tmp threshold =>
    (σ, .inl (.loadIndex s tmp threshold
      (σ.pointer s.side (s.tmpBufferIndex numThreads)).pointer))
  | .loadIndex s tmp threshold item =>
    if beyond s.side threshold (σ.item item).index then (σ, .inl (.loadTmpOther s tmp))
    else (σ, .inl (.loadTaken s tmp threshold item))
  | .loadTaken s tmp threshold item =>
    if (σ.item item).taken then (σ, .inl (.checkLink s tmp threshold item))
    else (σ, .inl (.loadTimestamp { s with empty := false } tmp item T.loadTimestamp))
  | .checkLink s tmp threshold item =>
    if (σ.item item).link s.side.other = item then (σ, .inl (.loadTmpOther s tmp))
    else (σ, .inl (.loadLink s tmp threshold item))
  | .loadLink s tmp threshold item =>
    (σ, .inl (.loadIndex s tmp threshold ((σ.item item).link s.side.other)))
  | .loadTimestamp s tmp item loading =>
    match T.loadStep (σ.item item).timestamp loading with
    | .inl loading' => (σ, .inl (.loadTimestamp s tmp item loading'))
    | .inr itemTimestamp =>
      if s.result = 0 ∨ isMore T s.side (σ.item item).index itemTimestamp
          (σ.item s.result).index s.timestamp = true then
        let s := { s with
          result := item, bufferIndex := s.tmpBufferIndex numThreads
          timestamp := itemTimestamp, old := tmp }
        if inserted s.side (σ.item item).index = true ∧
            T.isLater s.invocationTime itemTimestamp = false then (σ, .inl (.checkItem s))
        else (σ, nextBuffer numThreads s)
      else (σ, nextBuffer numThreads s)
  | .checkItem s =>
    if (σ.item s.result).taken = false then (σ, .inl (.takeItem s))
    else (σ, nextBuffer numThreads s)
  | .takeItem s =>
    if (σ.item s.result).taken = false ∧ ch.spurious = false then
      (σ.take s.result, .inl (.swapPointer s))
    else (σ, nextBuffer numThreads s)
  -- no item was found; the emptiness check looks at both ends of the buffer
  | .loadTmpOther s tmp =>
    let b := s.tmpBufferIndex numThreads
    let tmpOther := σ.pointer s.side.other b
    let seen := σ.emptinessCheck s.side t b = tmp ∧ σ.emptinessCheck s.side.other t b = tmpOther
    ((σ.setEmptinessCheck s.side t b tmp).setEmptinessCheck s.side.other t b tmpOther,
      nextBuffer numThreads (if seen then s else { s with empty := false }))
  | .checkResult s =>
    if (σ.item s.result).taken = false then (σ, .inl (.takeResult s)) else (σ, noElement s)
  | .takeResult s =>
    if (σ.item s.result).taken = false ∧ ch.spurious = false then
      (σ.take s.result, .inl (.swapPointer s))
    else (σ, noElement s)
  | .swapPointer s =>
    if σ.pointer s.side s.bufferIndex = s.old ∧ ch.spurious = false then
      (σ.setPointer s.side s.bufferIndex (addNextAba s.result s.old 0), .inl (.loadData s))
    else (σ, .inl (.loadData s))
  | .loadData s =>
    match (σ.item s.result).data with
    | some x => (σ, .inr (.removed (some x)))
    | none => (σ, .inl (.readStart s.side s.invocationTime T.readTime))

abbrev machine (α : Type) (T : TimeStamp) (numThreads : ℕ) :
    Machine (DequeOp α) (DequeRet α) where
  Shared := Shared α T
  Local := Local α T
  Choice := Choice T
  init := .init numThreads
  admits _ t _ := t < numThreads
  start _ _ op := start op
  step t ch σ l := some (step numThreads t ch σ l)

end TSDeque

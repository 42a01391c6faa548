/-
The timestamps of the timestamped data structures (`datastructures/ts_timestamp.h`).

`TimeStamp` is what the template parameter of that name provides.  A function of it that
makes several accesses to shared memory is a start state and a step, one access at a time;
in `timestamp[2]` of an item it may use both words, so loading them may take two steps.

* `atomicCounter` — `AtomicCounterTimestamp`, one counter;
* `stuttering` — `StutteringTimestamp`, a clock for each thread;
* `TaggedPointer` — the pointers whose three low bits hold a counter.
-/
import Scal.AtomicValue
import Mathlib.Logic.Function.Basic
import Mathlib.Algebra.Group.Nat.Defs

/-- A class of timestamps: its shared memory, the timestamp of an item, a timestamp in
local memory, and how far `set_timestamp`, `read_time` and `load_timestamp` have got. -/
structure TimeStamp where
  Clock : Type
  Stamp : Type
  Time : Type
  Setting : Type
  Reading : Type
  Loading : Type
  -- what the hardware clock shows
  Choice : Type
  clock : Clock
  initSentinelAtomic : Stamp
  initTopAtomic : Stamp
  initSentinel : Time
  initTop : Time
  setTimestamp : ℕ → Setting
  setStep : Choice → Clock → Stamp → Setting → Clock × Stamp × Option Setting
  readTime : Reading
  readStep : Choice → Clock → Reading → Reading ⊕ Time
  loadTimestamp : Loading
  loadStep : Stamp → Loading → Loading ⊕ Time
  isLater : Time → Time → Bool

/-- `UINT64_MAX`. -/
def uint64Max : ℕ := wordSize - 1

/-- `set_timestamp` of `AtomicCounterTimestamp`: `fetch_add`, then `store`. -/
inductive CounterSetting where
  | fetchAdd
  | store (time : ℕ)
  deriving DecidableEq

/-- `AtomicCounterTimestamp`. -/
@[reducible] def atomicCounter : TimeStamp where
  Clock := ℕ
  Stamp := ℕ
  Time := ℕ
  Setting := CounterSetting
  Reading := Unit
  Loading := Unit
  Choice := Unit
  clock := 1
  initSentinelAtomic := 0
  initTopAtomic := uint64Max
  initSentinel := 0
  initTop := uint64Max
  setTimestamp _ := .fetchAdd
  setStep _ clock result
    | .fetchAdd => ((clock + 1) % wordSize, result, some (.store clock))
    | .store time => (clock, time, none)
  readTime := ()
  readStep _ clock _ := .inr clock
  loadTimestamp := ()
  loadStep source _ := .inr source
  isLater timestamp1 timestamp2 := timestamp2 < timestamp1

/-- `set_timestamp` of `StutteringTimestamp`: the loop over the clocks, then the two
stores. -/
inductive StutteringSetting where
  | scan (thread i latestTime : ℕ)
  | tick (thread latestTime : ℕ)
  | store (latestTime : ℕ)
  deriving DecidableEq

/-- `read_time` of `StutteringTimestamp`. -/
structure StutteringReading where
  i : ℕ
  latestTime : ℕ
  deriving DecidableEq

/-- `StutteringTimestamp`; there is at least one thread. -/
@[reducible] def stuttering (numThreads : ℕ) : TimeStamp where
  Clock := ℕ → ℕ
  Stamp := ℕ
  Time := ℕ
  Setting := StutteringSetting
  Reading := StutteringReading
  Loading := Unit
  Choice := Unit
  clock _ := 1
  initSentinelAtomic := 0
  initTopAtomic := uint64Max
  initSentinel := 0
  initTop := uint64Max
  setTimestamp thread := .scan thread 0 0
  setStep _ clocks result
    | .scan thread i latestTime =>
      if i + 1 < numThreads then
        (clocks, result, some (.scan thread (i + 1) (max latestTime (clocks i))))
      else (clocks, result, some (.tick thread (max latestTime (clocks i))))
    | .tick thread latestTime =>
      (Function.update clocks thread ((latestTime + 1) % wordSize), result,
        some (.store latestTime))
    | .store latestTime => (clocks, (latestTime + 1) % wordSize, none)
  readTime := ⟨0, 0⟩
  readStep _ clocks
    | ⟨i, latestTime⟩ =>
      if i + 1 < numThreads then .inl ⟨i + 1, max latestTime (clocks i)⟩
      else .inr (max latestTime (clocks i))
  loadTimestamp := ()
  loadStep source _ := .inr source
  isLater timestamp1 timestamp2 := timestamp2 < timestamp1

/-- A pointer and the counter in its three low bits; a pointer is the number of its
8-byte word, and `NULL` is `0`. -/
structure TaggedPointer where
  pointer : ℕ
  aba : ℕ
  deriving DecidableEq

/-- `add_next_aba`. -/
def addNextAba (pointer : ℕ) (old : TaggedPointer) (increment : ℕ) : TaggedPointer :=
  ⟨pointer, (old.aba + increment) % 8⟩

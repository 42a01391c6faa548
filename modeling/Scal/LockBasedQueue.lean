/-
The lock-based queue (`datastructures/lockbased_queue.h`).

`machine` runs the source one shared access, or one call of the thread library, at a time;
`Local` is where a call is.  `global_lock_` and `enqueue_cond_` are a `Monitor`.  A call of
`pthread_cond_wait` is three steps: the thread releases the lock and sleeps, it stops
waiting, and it takes the lock again.  It stops waiting when it was woken, for no reason at
all (the library allows that), or when its time is up.

Every step may take time: `now` is the clock that `gettimeofday` reads, in nanoseconds.
Memory that was not written holds any value (`default`), and `scal::tlget` is assumed to
return a new block for every node: with `reuse_memory` it would start over once the
preallocated memory is used up.
-/
import Scal.LinearizationPoints
import Scal.Monitor
import Mathlib.Algebra.Group.Nat.Defs

open Interleave Linearizability

namespace LockBasedQueue

variable {α : Type}

/-- `lb_details::Node`. -/
structure Node (α : Type) where
  value : α
  next : ℕ

/-- The nodes by address, the address of the next new node, and the fields of the queue. -/
structure Shared (α : Type) where
  node : ℕ → Node α
  alloc : ℕ
  head : ℕ
  tail : ℕ
  globalLock : Monitor
  now : ℕ

section Shared

variable [Inhabited α]

def Shared.init : Shared α := ⟨fun _ => ⟨default, 0⟩, 1, 0, 0, .init, 0⟩

/-- A new node with its `value` set, at the address `σ.alloc`. -/
def Shared.newNode (σ : Shared α) (item : α) : Shared α :=
  { σ with
    node := Function.update σ.node σ.alloc { σ.node σ.alloc with value := item }
    alloc := σ.alloc + 1 }

end Shared

/-- `p->next = n`. -/
def Shared.setNext (σ : Shared α) (p n : ℕ) : Shared α :=
  { σ with node := Function.update σ.node p { σ.node p with next := n } }

def Shared.tick (σ : Shared α) (elapsed : ℕ) : Shared α := { σ with now := σ.now + elapsed }

/-! ### Timeouts -/

/-- `struct timespec`. -/
structure Timespec where
  sec : ℕ
  nsec : ℕ

/-- The moment that a `timespec` stands for, in nanoseconds. -/
def Timespec.time (ts : Timespec) : ℕ := ts.sec * 1000000000 + ts.nsec

/-- When a dequeue that looked at the clock at `now` gives up; `tmp_nsec` is a `uint64_t`. -/
def deadline (now timeoutMs : ℕ) : Timespec :=
  let sec := now / 1000000000
  let usec := now % 1000000000 / 1000
  let tmpNsec := (usec * 1000 + timeoutMs * 1000000) % 2 ^ 64
  if 1000000000 ≤ tmpNsec then ⟨sec + tmpNsec / 1000000000, tmpNsec % 1000000000⟩
  else ⟨sec, tmpNsec⟩

/-! ### Calls -/

/-- `dequeue_default`, `dequeue_blocking`, and `dequeue_timeout` until `ts`. -/
inductive Variant where
  | default
  | blocking
  | timeout (ts : Timespec)

/-- The access that a call makes next. -/
inductive Local (α : Type) where
  -- `enqueue`
  | enqNew (item : α)
  | enqLock (n : ℕ)
  | enqTail (n : ℕ)
  | enqNext (n tailOld : ℕ)
  | enqSwing (n : ℕ)
  | enqBroadcast
  | enqUnlock
  -- `dequeue`
  | getTime
  | deqLock (v : Variant)
  | emptyHead (v : Variant)
  | emptyTail (v : Variant) (head : ℕ)
  | unlockEmpty
  | wait (v : Variant)
  | asleep (v : Variant)
  | relock (v : Variant) (timedOut : Bool)
  | assertHead
  | assertTail (head : ℕ)
  | itemHead
  | itemNext (head : ℕ)
  | itemValue (next : ℕ)
  | nextHead (item : α)
  | nextNext (item : α) (head : ℕ)
  | deqSwing (item : α) (next : ℕ)
  | deqUnlock (r : Option α)
  -- `abort`
  | aborted

/-- How a thread stops waiting. -/
inductive Wake where
  | woken
  | spurious
  | timedOut
  deriving DecidableEq

structure Choice where
  elapsed : ℕ
  wake : Wake

/-- What `head_ == tail_` leads to. -/
def Variant.onEmpty : Variant → Local α
  | .default => .unlockEmpty
  | v => .wait v

def Variant.onNonempty : Variant → Local α
  | .default => .itemHead
  | _ => .assertHead

/-- `pthread_cond_timedwait` does not take such a deadline. -/
def Variant.invalid : Variant → Bool
  | .timeout ts => decide (1000000000 ≤ ts.nsec)
  | _ => false

/-- The time of a wait is up. -/
def Variant.expired (now : ℕ) : Variant → Bool
  | .timeout ts => decide (ts.time ≤ now)
  | _ => false

def Shared.setLock (σ : Shared α) (m : Monitor) : Shared α := { σ with globalLock := m }

/-- `pthread_mutex_lock`, and what follows. -/
def Shared.lock (σ : Shared α) (t : ℕ) (l : Local α) :
    Option (Shared α × (Local α ⊕ QueueRet α)) :=
  (σ.globalLock.acquire t).map fun m => (σ.setLock m, .inl l)

/-- `pthread_mutex_unlock`, its check, and the return. -/
def Shared.unlock (σ : Shared α) (t : ℕ) (r : QueueRet α) : Shared α × (Local α ⊕ QueueRet α) :=
  match σ.globalLock.release t with
  | some m => (σ.setLock m, .inr r)
  | none => (σ, .inl .aborted)

/-- A thread that waits stops waiting. -/
def Shared.wake (σ : Shared α) (t : ℕ) (v : Variant) :
    Wake → Option (Shared α × (Local α ⊕ QueueRet α))
  | .woken => if σ.globalLock.waiting t then none else some (σ, .inl (.relock v false))
  | .spurious => some (σ.setLock (σ.globalLock.leave t), .inl (.relock v false))
  | .timedOut =>
    if v.expired σ.now then some (σ.setLock (σ.globalLock.leave t), .inl (.relock v true)) else none

section Machine

variable [Inhabited α]

/-- One access of thread `t`. -/
def access (timeoutMs t : ℕ) (wake : Wake) (σ : Shared α) :
    Local α → Option (Shared α × (Local α ⊕ QueueRet α))
  | .enqNew item => some (σ.newNode item, .inl (.enqLock σ.alloc))
  | .enqLock n => σ.lock t (.enqTail n)
  | .enqTail n => some (σ, .inl (.enqNext n σ.tail))
  | .enqNext n tailOld => some (σ.setNext tailOld n, .inl (.enqSwing n))
  | .enqSwing n => some ({ σ with tail := n }, .inl .enqBroadcast)
  | .enqBroadcast => some (σ.setLock σ.globalLock.broadcast, .inl .enqUnlock)
  | .enqUnlock => some (σ.unlock t (.enqueued true))
  | .getTime => some (σ, .inl (.deqLock (.timeout (deadline σ.now timeoutMs))))
  | .deqLock v => σ.lock t (.emptyHead v)
  | .emptyHead v => some (σ, .inl (.emptyTail v σ.head))
  | .emptyTail v head => some (σ, .inl (if head = σ.tail then v.onEmpty else v.onNonempty))
  -- the check that follows is of the return code of `pthread_mutex_lock`
  | .unlockEmpty =>
    some (σ.setLock ((σ.globalLock.release t).getD σ.globalLock), .inr (.dequeued none))
  | .wait v =>
    if v.invalid then some (σ, .inl .aborted)
    else match σ.globalLock.wait t with
      | some m => some (σ.setLock m, .inl (.asleep v))
      | none => some (σ, .inl .aborted)
  | .asleep v => σ.wake t v wake
  | .relock v timedOut => σ.lock t (if timedOut then .deqUnlock none else .emptyHead v)
  | .assertHead => some (σ, .inl (.assertTail σ.head))
  | .assertTail head => some (σ, .inl (if head = σ.tail then .aborted else .itemHead))
  | .itemHead => some (σ, .inl (.itemNext σ.head))
  | .itemNext head => some (σ, .inl (.itemValue (σ.node head).next))
  | .itemValue next => some (σ, .inl (.nextHead (σ.node next).value))
  | .nextHead item => some (σ, .inl (.nextNext item σ.head))
  | .nextNext item head => some (σ, .inl (.deqSwing item (σ.node head).next))
  | .deqSwing item next => some ({ σ with head := next }, .inl (.deqUnlock (some item)))
  | .deqUnlock r => some (σ.unlock t (.dequeued r))
  | .aborted => none

/-- `dequeue` looks at `dequeue_mode_`. -/
def dequeue : ℕ → Local α
  | 0 => .deqLock .default
  | 1 => .deqLock .blocking
  | 2 => .getTime
  | _ => .deqLock .default

def start (mode : ℕ) : QueueOp α → Local α
  | .enqueue item => .enqNew item
  | .dequeue => dequeue mode

/-- `mode` is `dequeue_mode_`, and `timeoutMs` is `dequeue_timeout_`. -/
abbrev machine (α : Type) [Inhabited α] (mode timeoutMs : ℕ) :
    Machine (QueueOp α) (QueueRet α) where
  Shared := Shared α
  Local := Local α
  Choice := Choice
  init := .init
  admits _ _ _ := true
  start _ _ op := start mode op
  step t ch σ l := access timeoutMs t ch.wake (σ.tick ch.elapsed) l

end Machine

end LockBasedQueue

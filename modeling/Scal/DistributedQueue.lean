/-
The distributed queue (`datastructures/distributed_queue.h`) and its backends.

A put goes to the backend that the balancer chooses.  A get tries all backends in
turn; if each of them answered empty it compares their states with those they were
empty in, and returns false if none has changed.

A backend is what the template parameter `P` provides: the operations of
`DistributedQueueInterface`, run one shared access at a time.  `MSQueue.backend` and
`TreiberStack.backend` are the models of the two classes, restricted to these
operations.  A thread's row of `tails_` is only its own, and is filled before it is
read; it is the local `tails` here.
-/
import Scal.Linearizable
import Scal.MSQueue
import Scal.TreiberStack

open Interleave Linearizability

/-- The result of `put`, and of `get_return_empty_state` with what it stored. -/
inductive Answer (α : Type) where
  | put (ok : Bool)
  | got (item : α) (state : AtomicPointer)
  | empty (state : AtomicPointer)

/-- `DistributedQueueInterface`. -/
structure Backend (α : Type) where
  Shared : Type
  Local : Type
  init : Shared
  put : α → Local
  getReturnEmptyState : Local
  step : Shared → Local → Shared × (Local ⊕ Answer α)
  emptyState : Shared → AtomicPointer

namespace DistributedQueue

variable {α : Type}

/-- The step a call makes next: `...Start` asks the balancer, `getFirst` is in
`get_return_empty_state` of the backend at `(start + i) % num_queues_`, and
`getSecond` reads the state of that backend again. -/
inductive Local (B : Backend α) where
  | putStart (item : α)
  | put (index : ℕ) (l : B.Local)
  | getStart
  | getFirst (start i : ℕ) (l : B.Local) (tails : ℕ → AtomicPointer)
  | getSecond (start i : ℕ) (tails : ℕ → AtomicPointer)

/-- `put(item)` and `get(&item)`. -/
def start (B : Backend α) : BagOp α → Local B
  | .put item => .putStart item
  | .get => .getStart

/-- One step; the balancer answers `balance`, reduced below `num_queues_`. -/
def step (B : Backend α) (n balance : ℕ) (σ : ℕ → B.Shared) :
    Local B → (ℕ → B.Shared) × (Local B ⊕ BagRet α)
  | .putStart item => (σ, .inl (.put (balance % n) (B.put item)))
  | .put index l =>
    let (s, o) := B.step (σ index) l
    (Function.update σ index s, match o with
      | .inl l => .inl (.put index l)
      | .inr (.put ok) => .inr (.put ok)
      | .inr _ => .inr (.put false))
  | .getStart =>
    (σ, .inl (.getFirst (balance % n) 0 B.getReturnEmptyState fun _ => ⟨0, 0⟩))
  | .getFirst start i l tails =>
    let index := (start + i) % n
    let (s, o) := B.step (σ index) l
    (Function.update σ index s, match o with
      | .inl l => .inl (.getFirst start i l tails)
      | .inr (.got item _) => .inr (.got (some item))
      | .inr (.empty state) =>
        if i + 1 < n then
          .inl (.getFirst start (i + 1) B.getReturnEmptyState (Function.update tails index state))
        else .inl (.getSecond start 0 (Function.update tails index state))
      | .inr (.put _) => .inr (.got none))
  | .getSecond start i tails =>
    let index := (start + i) % n
    if B.emptyState (σ index) ≠ tails index then
      (σ, .inl (.getFirst index 0 B.getReturnEmptyState tails))
    else if (index + 1) % n = start then (σ, .inr (.got none))
    else if i + 1 < n then (σ, .inl (.getSecond start (i + 1) tails))
    else (σ, .inl (.getFirst start 0 B.getReturnEmptyState tails))

abbrev machine (B : Backend α) (n : ℕ) : Machine (BagOp α) (BagRet α) where
  Shared := ℕ → B.Shared
  Local := Local B
  Choice := ℕ
  init _ := B.init
  admits _ _ _ := true
  start _ _ op := start B op
  step _ balance σ l := some (step B n balance σ l)

end DistributedQueue

/-- `put` is `enqueue`, and `get_return_empty_state` is `dequeue_return_tail`. -/
abbrev MSQueue.backend (α : Type) [Inhabited α] : Backend α where
  Shared := MSQueue.Shared α
  Local := MSQueue.Local α
  init := .init
  put item := MSQueue.start (.enqueue item)
  getReturnEmptyState := MSQueue.start .dequeueReturnTail
  step σ l := match MSQueue.step σ l with
    | (σ, .inl l) => (σ, .inl l)
    | (σ, .inr (.dequeued (some item) tailRaw)) => (σ, .inr (.got item (tailRaw.getD ⟨0, 0⟩)))
    | (σ, .inr (.dequeued none tailRaw)) => (σ, .inr (.empty (tailRaw.getD ⟨0, 0⟩)))
    | (σ, .inr (.enqueued ok)) => (σ, .inr (.put ok))
    | (σ, .inr _) => (σ, .inr (.put false))
  emptyState σ := σ.tail

/-- `put` is `push`. -/
abbrev TreiberStack.backend (α : Type) [Inhabited α] : Backend α where
  Shared := TreiberStack.Shared α
  Local := TreiberStack.Local α
  init := .init
  put item := TreiberStack.start (.push item)
  getReturnEmptyState := TreiberStack.start .getReturnEmptyState
  step σ l := match TreiberStack.step σ l with
    | (σ, .inl l) => (σ, .inl l)
    | (σ, .inr (.popped (some item) state)) => (σ, .inr (.got item (state.getD ⟨0, 0⟩)))
    | (σ, .inr (.popped none state)) => (σ, .inr (.empty (state.getD ⟨0, 0⟩)))
    | (σ, .inr (.pushed ok)) => (σ, .inr (.put ok))
    | (σ, .inr (.state _)) => (σ, .inr (.put false))
  emptyState σ := σ.top

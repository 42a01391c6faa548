/-
The wait-free queue with a fast path (`datastructures/wf_queue_ppopp12.h`).

A call first tries to link its node, or to move head, as in a Michael–Scott queue.  After
`max_retries` iterations it takes the slow path: it publishes a descriptor in `state_`, and
any thread may finish what the descriptor says once the node is linked, or once head's counter
is the id of the dequeuing thread.

Descriptors and nodes are written only before they are published, each in one step that also
allocates it, but for `enq_tid`, which the slow path writes in a step of its own.  Every other
access to shared memory is a step; a `HelpRecord` is accessed by its own thread only.  The
arguments of `init` are evaluated from left to right.  `scal::tlget` is assumed to return a new
block each time: with `reuse_memory` it would start over once the preallocated memory is used up.
-/
import Mathlib.Algebra.Group.Nat.Defs
import Scal.Interleave
import Scal.LinearizationPoints
import Scal.Chain
import Scal.WaitfreeQueueHelping

open Interleave Linearizability
open Helping (HelpRecord OperationType toSigned)

namespace WfQueuePpopp12

variable {α : Type}

/-- Marks a node as free for other threads: the largest counter of a pointer. -/
def kTidNotSet : ℕ := wordSize - 1

/-- `wf_ppopp12_details::Node`. -/
structure Node (α : Type) where
  data : α
  next : AtomicPointer
  enqTid : ℕ

/-- `wf_ppopp12_details::OperationDescriptor`. -/
structure OperationDescriptor extends Helping.OperationDescriptor where
  node : ℕ

def OperationDescriptor.init (phase : ℤ) (pending : Bool) (type : OperationType) (node : ℕ) :
    OperationDescriptor :=
  ⟨⟨phase, pending, type⟩, node⟩

/-- The arguments of the constructor. -/
structure Params where
  numThreads : ℕ
  maxRetries : ℕ
  helpingDelay : ℕ

/-- The memory of the queue: the nodes and the descriptors by address, the addresses that are
handed out next, `*head_`, `*tail_`, `state_` and `records_`. -/
structure Shared (α : Type) where
  node : ℕ → Node α
  alloc : ℕ
  desc : ℕ → OperationDescriptor
  descAlloc : ℕ
  head : AtomicPointer
  tail : AtomicPointer
  state : ℕ → AtomicPointer
  records : ℕ → HelpRecord

/-- The constructor: head and tail point to a sentinel, and the descriptor of thread `t`, at
address `t + 1`, is not pending. -/
def Shared.init [Inhabited α] (c : Params) : Shared α :=
  ⟨fun _ => ⟨default, ⟨0, 0⟩, kTidNotSet⟩, 2, fun _ => ⟨.initial, 0⟩, c.numThreads + 1,
    ⟨1, kTidNotSet⟩, ⟨1, 0⟩, fun t => ⟨t + 1, 0⟩,
    fun _ => .new c.numThreads c.helpingDelay (fun _ => .initial) 0 0⟩

/-- `tlget<Node>` and `init(item)`. -/
def Shared.newNode (σ : Shared α) (item : α) : Shared α :=
  { σ with
    node := Function.update σ.node σ.alloc ⟨item, ⟨0, 0⟩, kTidNotSet⟩
    alloc := σ.alloc + 1 }

/-- `tlget<OperationDescriptor>` and `init`. -/
def Shared.newDesc (σ : Shared α) (d : OperationDescriptor) : Shared α :=
  { σ with
    desc := Function.update σ.desc σ.descAlloc d
    descAlloc := σ.descAlloc + 1 }

def Shared.setNext (σ : Shared α) (p : ℕ) (w : AtomicPointer) : Shared α :=
  { σ with node := Function.update σ.node p { σ.node p with next := w } }

def Shared.setEnqTid (σ : Shared α) (p tid : ℕ) : Shared α :=
  { σ with node := Function.update σ.node p { σ.node p with enqTid := tid } }

def Shared.setState (σ : Shared α) (t : ℕ) (w : AtomicPointer) : Shared α :=
  { σ with state := Function.update σ.state t w }

/-- `state_[t]->value()`, dereferenced. -/
def Shared.descOf (σ : Shared α) (t : ℕ) : OperationDescriptor := σ.desc (σ.state t).value

theorem descOf_setState_self {σ : Shared α} {i d aba : ℕ} :
    (σ.setState i ⟨d, aba⟩).descOf i = σ.desc d := by
  simp [Shared.descOf, Shared.setState]

theorem descOf_setState_of_ne {σ : Shared α} {t i d aba : ℕ} (ht : t ≠ i) :
    (σ.setState i ⟨d, aba⟩).descOf t = σ.descOf t := by
  simp [Shared.descOf, Shared.setState, Function.update_of_ne ht]

/-- A write of `next` leaves the other fields. -/
theorem setNext_keeps {σ : Shared α} {p q : ℕ} {w : AtomicPointer} :
    ((σ.setNext p w).node q).data = (σ.node q).data ∧
      ((σ.setNext p w).node q).enqTid = (σ.node q).enqTid := by
  by_cases hq : q = p
  · subst hq
    simp [Shared.setNext]
  · simp [Shared.setNext, Function.update_of_ne hq]

theorem setNext_next {σ : Shared α} {p : ℕ} {w : AtomicPointer} :
    (fun q => ((σ.setNext p w).node q).next) = Function.update (fun q => (σ.node q).next) p w := by
  funext q
  by_cases hq : q = p
  · subst hq
    simp [Shared.setNext]
  · simp [Shared.setNext, Function.update_of_ne hq]

/-- And so does a write of `enq_tid`. -/
theorem setEnqTid_keeps {σ : Shared α} {p q tid : ℕ} :
    ((σ.setEnqTid p tid).node q).data = (σ.node q).data ∧
      ((σ.setEnqTid p tid).node q).next = (σ.node q).next := by
  by_cases hq : q = p
  · subst hq
    simp [Shared.setEnqTid]
  · simp [Shared.setEnqTid, Function.update_of_ne hq]

/-- The data of the nodes strictly after `head_`'s node. -/
def Shared.queue (σ : Shared α) : List α :=
  (follow (fun n => (σ.node n).next) σ.alloc (σ.node σ.head.value).next.value).map
    fun n => (σ.node n).data

/-! ### `is_still_pending` -/

inductive Still where
  | loadPendingState
  | loadPending (d : ℕ)
  | loadPhaseState
  | loadPhase (d : ℕ)

/-- One access of `is_still_pending(tid, phase)`, which goes on or returns. -/
def Still.step (σ : Shared α) (tid : ℕ) (phase : ℤ) : Still → Still ⊕ Bool
  | .loadPendingState => .inl (.loadPending (σ.state tid).value)
  | .loadPending d => if (σ.desc d).pending then .inl .loadPhaseState else .inr false
  | .loadPhaseState => .inl (.loadPhase (σ.state tid).value)
  | .loadPhase d => .inr (decide ((σ.desc d).phase ≤ phase))

/-! ### `help_finish_enq` and `fix_tail` -/

inductive FinishEnq where
  | loadTail
  | loadNext (tailOld : AtomicPointer)
  | loadEnqTid (tailOld : AtomicPointer) (next : ℕ)
  | loadState (tailOld : AtomicPointer) (next tid : ℕ)
  | checkTail (tailOld : AtomicPointer) (next tid : ℕ) (curState : AtomicPointer)
  | loadNodeState (tailOld : AtomicPointer) (next tid : ℕ) (curState : AtomicPointer)
  | loadNode (tailOld : AtomicPointer) (next tid : ℕ) (curState : AtomicPointer) (d : ℕ)
  | loadPhaseState (tailOld : AtomicPointer) (next tid : ℕ) (curState : AtomicPointer)
  | loadPhase (tailOld : AtomicPointer) (next tid : ℕ) (curState : AtomicPointer) (d : ℕ)
  | initDesc (tailOld : AtomicPointer) (next tid : ℕ) (curState : AtomicPointer) (phase : ℤ)
  | casState (tailOld : AtomicPointer) (next tid : ℕ) (curState : AtomicPointer) (newDesc : ℕ)
  | casTail (tailOld : AtomicPointer) (next : ℕ)

/-- One access; `none` when it returns. -/
def FinishEnq.step (σ : Shared α) : FinishEnq → Shared α × Option FinishEnq
  | .loadTail => (σ, some (.loadNext σ.tail))
  | .loadNext tailOld =>
    if (σ.node tailOld.value).next.value ≠ 0 then
      (σ, some (.loadEnqTid tailOld (σ.node tailOld.value).next.value))
    else (σ, none)
  | .loadEnqTid tailOld next =>
    if (σ.node next).enqTid ≠ kTidNotSet then
      (σ, some (.loadState tailOld next (σ.node next).enqTid))
    else (σ, some (.casTail tailOld next))
  | .loadState tailOld next tid => (σ, some (.checkTail tailOld next tid (σ.state tid)))
  | .checkTail tailOld next tid curState =>
    if tailOld = σ.tail then (σ, some (.loadNodeState tailOld next tid curState)) else (σ, none)
  | .loadNodeState tailOld next tid curState =>
    (σ, some (.loadNode tailOld next tid curState (σ.state tid).value))
  | .loadNode tailOld next tid curState d =>
    if (σ.desc d).node = next then (σ, some (.loadPhaseState tailOld next tid curState))
    else (σ, none)
  | .loadPhaseState tailOld next tid curState =>
    (σ, some (.loadPhase tailOld next tid curState (σ.state tid).value))
  | .loadPhase tailOld next tid curState d =>
    (σ, some (.initDesc tailOld next tid curState (σ.desc d).phase))
  | .initDesc tailOld next tid curState phase =>
    (σ.newDesc (.init phase false .enqueue next),
      some (.casState tailOld next tid curState σ.descAlloc))
  | .casState tailOld next tid curState newDesc =>
    if σ.state tid = curState then
      (σ.setState tid ⟨newDesc, curState.aba + 1⟩, some (.casTail tailOld next))
    else (σ, some (.casTail tailOld next))
  | .casTail tailOld next =>
    if σ.tail = tailOld then ({ σ with tail := ⟨next, tailOld.aba + 1⟩ }, none) else (σ, none)

inductive FixTail where
  | loadEnqTid (tailOld : AtomicPointer) (next : ℕ)
  /-- Fast path enqueue. -/
  | casTail (tailOld : AtomicPointer) (next : ℕ)
  /-- Slow path enqueue. -/
  | finish (s : FinishEnq)

/-- One access; `none` when it returns. -/
def FixTail.step (σ : Shared α) : FixTail → Shared α × Option FixTail
  | .loadEnqTid tailOld next =>
    if (σ.node next).enqTid = kTidNotSet then (σ, some (.casTail tailOld next))
    else (σ, some (.finish .loadTail))
  | .casTail tailOld next =>
    if σ.tail = tailOld then ({ σ with tail := ⟨next, tailOld.aba + 1⟩ }, none) else (σ, none)
  | .finish s => ((s.step σ).1, (s.step σ).2.map .finish)

/-! ### `help_finish_deq` -/

inductive FinishDeq where
  | loadHead
  | loadNext (headOld : AtomicPointer)
  | loadState (headOld : AtomicPointer) (next : ℕ)
  | checkHead (headOld : AtomicPointer) (next : ℕ) (curState : AtomicPointer)
  | loadPhaseState (headOld : AtomicPointer) (next : ℕ) (curState : AtomicPointer)
  | loadPhase (headOld : AtomicPointer) (next : ℕ) (curState : AtomicPointer) (d : ℕ)
  | loadNodeState (headOld : AtomicPointer) (next : ℕ) (curState : AtomicPointer) (phase : ℤ)
  | loadNode (headOld : AtomicPointer) (next : ℕ) (curState : AtomicPointer) (phase : ℤ) (d : ℕ)
  | initDesc (headOld : AtomicPointer) (next : ℕ) (curState : AtomicPointer) (phase : ℤ)
      (node : ℕ)
  | casState (headOld : AtomicPointer) (next : ℕ) (curState : AtomicPointer) (newDesc : ℕ)
  | casHead (headOld : AtomicPointer) (next : ℕ)

/-- One access; `none` when it returns. -/
def FinishDeq.step (σ : Shared α) : FinishDeq → Shared α × Option FinishDeq
  | .loadHead => (σ, some (.loadNext σ.head))
  | .loadNext headOld =>
    if headOld.aba ≠ kTidNotSet then
      (σ, some (.loadState headOld (σ.node headOld.value).next.value))
    else (σ, none)
  | .loadState headOld next => (σ, some (.checkHead headOld next (σ.state headOld.aba)))
  | .checkHead headOld next curState =>
    if headOld = σ.head ∧ next ≠ 0 then (σ, some (.loadPhaseState headOld next curState))
    else (σ, none)
  | .loadPhaseState headOld next curState =>
    (σ, some (.loadPhase headOld next curState (σ.state headOld.aba).value))
  | .loadPhase headOld next curState d =>
    (σ, some (.loadNodeState headOld next curState (σ.desc d).phase))
  | .loadNodeState headOld next curState phase =>
    (σ, some (.loadNode headOld next curState phase (σ.state headOld.aba).value))
  | .loadNode headOld next curState phase d =>
    (σ, some (.initDesc headOld next curState phase (σ.desc d).node))
  | .initDesc headOld next curState phase node =>
    (σ.newDesc (.init phase false .dequeue node),
      some (.casState headOld next curState σ.descAlloc))
  | .casState headOld next curState newDesc =>
    if σ.state headOld.aba = curState then
      (σ.setState headOld.aba ⟨newDesc, curState.aba + 1⟩, some (.casHead headOld next))
    else (σ, some (.casHead headOld next))
  | .casHead headOld next =>
    if σ.head = headOld then ({ σ with head := ⟨next, kTidNotSet⟩ }, none) else (σ, none)

/-! ### `help_enq` -/

inductive HelpEnq where
  /-- The condition of the loop. -/
  | loop (s : Still)
  | loadTail
  | loadNext (tailOld : AtomicPointer)
  | checkTail (tailOld next : AtomicPointer)
  | stillPending (tailOld next : AtomicPointer) (s : Still)
  | loadState (tailOld next : AtomicPointer)
  | loadNode (tailOld next : AtomicPointer) (d : ℕ)
  | casNext (tailOld next : AtomicPointer) (node : ℕ)
  /-- After the node was linked. -/
  | finish (s : FinishEnq)
  /-- There's still an enqueue in progress. -/
  | finishOther (s : FinishEnq)

/-- One access of `help_enq(tid, phase)`; `none` when it returns. -/
def HelpEnq.step (σ : Shared α) (tid : ℕ) (phase : ℤ) : HelpEnq → Shared α × Option HelpEnq
  | .loop s =>
    match s.step σ tid phase with
    | .inl s' => (σ, some (.loop s'))
    | .inr true => (σ, some .loadTail)
    | .inr false => (σ, none)
  | .loadTail => (σ, some (.loadNext σ.tail))
  | .loadNext tailOld => (σ, some (.checkTail tailOld (σ.node tailOld.value).next))
  | .checkTail tailOld next =>
    if tailOld = σ.tail then
      if next.value = 0 then (σ, some (.stillPending tailOld next .loadPendingState))
      else (σ, some (.finishOther .loadTail))
    else (σ, some (.loop .loadPendingState))
  | .stillPending tailOld next s =>
    match s.step σ tid phase with
    | .inl s' => (σ, some (.stillPending tailOld next s'))
    | .inr true => (σ, some (.loadState tailOld next))
    | .inr false => (σ, some (.loop .loadPendingState))
  | .loadState tailOld next => (σ, some (.loadNode tailOld next (σ.state tid).value))
  | .loadNode tailOld next d => (σ, some (.casNext tailOld next (σ.desc d).node))
  | .casNext tailOld next node =>
    if (σ.node tailOld.value).next = next then
      (σ.setNext tailOld.value ⟨node, next.aba + 1⟩, some (.finish .loadTail))
    else (σ, some (.loop .loadPendingState))
  | .finish s => ((s.step σ).1, (s.step σ).2.map .finish)
  | .finishOther s =>
    ((s.step σ).1, some (((s.step σ).2.map .finishOther).getD (.loop .loadPendingState)))

/-! ### `help_deq` -/

inductive HelpDeq where
  /-- The condition of the loop. -/
  | loop (s : Still)
  | loadHead
  | loadTail (headOld : AtomicPointer)
  | loadNext (headOld tailOld : AtomicPointer)
  | checkHead (headOld tailOld : AtomicPointer) (next : ℕ)
  -- the queue is empty
  | emptyState (tailOld : AtomicPointer)
  | emptyTail (tailOld curState : AtomicPointer)
  | emptyStillPending (curState : AtomicPointer) (s : Still)
  | emptyPhaseState (curState : AtomicPointer)
  | emptyPhase (curState : AtomicPointer) (d : ℕ)
  | emptyInitDesc (curState : AtomicPointer) (phase : ℤ)
  | emptyCas (curState : AtomicPointer) (newDesc : ℕ)
  /-- Help finish a pending enqueue. -/
  | finishEnq (s : FinishEnq)
  -- the queue is not empty
  | loadState (headOld : AtomicPointer)
  | loadNode (headOld curState : AtomicPointer)
  | stillPending (headOld curState : AtomicPointer) (node : ℕ) (s : Still)
  | checkNode (headOld curState : AtomicPointer) (node : ℕ)
  | loadPhaseState (headOld curState : AtomicPointer)
  | loadPhase (headOld curState : AtomicPointer) (d : ℕ)
  | initDesc (headOld curState : AtomicPointer) (phase : ℤ)
  | casState (headOld curState : AtomicPointer) (newDesc : ℕ)
  | casHead (headOld : AtomicPointer)
  | finish (s : FinishDeq)

/-- One access of `help_deq(tid, phase)`; `none` when it returns. -/
def HelpDeq.step (σ : Shared α) (tid : ℕ) (phase : ℤ) : HelpDeq → Shared α × Option HelpDeq
  | .loop s =>
    match s.step σ tid phase with
    | .inl s' => (σ, some (.loop s'))
    | .inr true => (σ, some .loadHead)
    | .inr false => (σ, none)
  | .loadHead => (σ, some (.loadTail σ.head))
  | .loadTail headOld => (σ, some (.loadNext headOld σ.tail))
  | .loadNext headOld tailOld =>
    (σ, some (.checkHead headOld tailOld (σ.node headOld.value).next.value))
  | .checkHead headOld tailOld next =>
    if σ.head = headOld then
      if headOld.value = tailOld.value then
        if next = 0 then (σ, some (.emptyState tailOld))
        else (σ, some (.finishEnq .loadTail))
      else (σ, some (.loadState headOld))
    else (σ, some (.loop .loadPendingState))
  -- the queue is empty
  | .emptyState tailOld => (σ, some (.emptyTail tailOld (σ.state tid)))
  | .emptyTail tailOld curState =>
    if tailOld.value = σ.tail.value then
      (σ, some (.emptyStillPending curState .loadPendingState))
    else (σ, some (.loop .loadPendingState))
  | .emptyStillPending curState s =>
    match s.step σ tid phase with
    | .inl s' => (σ, some (.emptyStillPending curState s'))
    | .inr true => (σ, some (.emptyPhaseState curState))
    | .inr false => (σ, some (.loop .loadPendingState))
  | .emptyPhaseState curState => (σ, some (.emptyPhase curState (σ.state tid).value))
  | .emptyPhase curState d => (σ, some (.emptyInitDesc curState (σ.desc d).phase))
  | .emptyInitDesc curState phase =>
    (σ.newDesc (.init phase false .dequeue 0), some (.emptyCas curState σ.descAlloc))
  | .emptyCas curState newDesc =>
    if σ.state tid = curState then
      (σ.setState tid ⟨newDesc, curState.aba + 1⟩, some (.loop .loadPendingState))
    else (σ, some (.loop .loadPendingState))
  | .finishEnq s =>
    ((s.step σ).1, some (((s.step σ).2.map .finishEnq).getD (.loop .loadPendingState)))
  -- the queue is not empty
  | .loadState headOld => (σ, some (.loadNode headOld (σ.state tid)))
  | .loadNode headOld curState =>
    (σ, some (.stillPending headOld curState (σ.desc curState.value).node .loadPendingState))
  | .stillPending headOld curState node s =>
    match s.step σ tid phase with
    | .inl s' => (σ, some (.stillPending headOld curState node s'))
    | .inr true => (σ, some (.checkNode headOld curState node))
    | .inr false => (σ, none)
  | .checkNode headOld curState node =>
    if σ.head = headOld ∧ node ≠ headOld.value then (σ, some (.loadPhaseState headOld curState))
    else (σ, some (.casHead headOld))
  | .loadPhaseState headOld curState => (σ, some (.loadPhase headOld curState (σ.state tid).value))
  | .loadPhase headOld curState d => (σ, some (.initDesc headOld curState (σ.desc d).phase))
  | .initDesc headOld curState phase =>
    (σ.newDesc (.init phase true .dequeue headOld.value),
      some (.casState headOld curState σ.descAlloc))
  | .casState headOld curState newDesc =>
    if σ.state tid = curState then
      (σ.setState tid ⟨newDesc, curState.aba + 1⟩, some (.casHead headOld))
    else (σ, some (.loop .loadPendingState))
  | .casHead headOld =>
    if σ.head = ⟨headOld.value, kTidNotSet⟩ then
      ({ σ with head := ⟨headOld.value, tid⟩ }, some (.finish .loadHead))
    else (σ, some (.finish .loadHead))
  | .finish s => ((s.step σ).1, some (((s.step σ).2.map .finish).getD (.loop .loadPendingState)))

/-! ### `help_if_needed` -/

inductive HelpIfNeeded where
  | doNextCheck
  | loadState
  | loadPending (d : ℕ)
  | loadPhase (d : ℕ)
  | loadType (d : ℕ)
  | enq (tid : ℕ) (phase : ℤ) (s : HelpEnq)
  | deq (tid : ℕ) (phase : ℤ) (s : HelpDeq)

/-- One access of thread `t`; `none` when it returns. -/
def HelpIfNeeded.step (t : ℕ) (σ : Shared α) : HelpIfNeeded → Shared α × Option HelpIfNeeded
  | .doNextCheck =>
    ({ σ with records := Function.update σ.records t (σ.records t).doNextCheck.2 },
      if (σ.records t).doNextCheck.1 then some .loadState else none)
  | .loadState => (σ, some (.loadPending (σ.state (σ.records t).curThread).value))
  | .loadPending d => if (σ.desc d).pending then (σ, some (.loadPhase d)) else (σ, none)
  | .loadPhase d =>
    if (σ.desc d).phase = toSigned (σ.records t).lastPhase then (σ, some (.loadType d))
    else (σ, none)
  | .loadType d =>
    match (σ.desc d).type with
    | .enqueue =>
      (σ, some (.enq (σ.records t).curThread (toSigned (σ.records t).lastPhase)
        (.loop .loadPendingState)))
    | .dequeue =>
      (σ, some (.deq (σ.records t).curThread (toSigned (σ.records t).lastPhase)
        (.loop .loadPendingState)))
  | .enq tid phase s => ((s.step σ tid phase).1, (s.step σ tid phase).2.map (.enq tid phase))
  | .deq tid phase s => ((s.step σ tid phase).1, (s.step σ tid phase).2.map (.deq tid phase))

/-! ### The fast paths -/

/-- An iteration of the loop of `enqueue`. -/
inductive FastEnq where
  | loadTail
  | loadNext (tailOld : AtomicPointer)
  | checkTail (tailOld next : AtomicPointer)
  | casNext (tailOld next : AtomicPointer)
  | fixTail (s : FixTail)

/-- One access; `true` when the node was linked, `false` when the iteration ends. -/
def FastEnq.step (σ : Shared α) (node : ℕ) : FastEnq → Shared α × (FastEnq ⊕ Bool)
  | .loadTail => (σ, .inl (.loadNext σ.tail))
  | .loadNext tailOld => (σ, .inl (.checkTail tailOld (σ.node tailOld.value).next))
  | .checkTail tailOld next =>
    if tailOld = σ.tail then
      if next.value = 0 then (σ, .inl (.casNext tailOld next))
      else (σ, .inl (.fixTail (.loadEnqTid tailOld next.value)))
    else (σ, .inr false)
  | .casNext tailOld next =>
    if (σ.node tailOld.value).next = next then
      (σ.setNext tailOld.value ⟨node, next.aba + 1⟩, .inr true)
    else (σ, .inr false)
  | .fixTail s => ((s.step σ).1, ((s.step σ).2.map (.inl ∘ .fixTail)).getD (.inr false))

/-- An iteration of the loop of `dequeue`. -/
inductive FastDeq (α : Type) where
  | loadHead
  | loadTail (headOld : AtomicPointer)
  | loadNext (headOld tailOld : AtomicPointer)
  | checkHead (headOld tailOld : AtomicPointer) (next : ℕ)
  | fixTail (s : FixTail)
  | checkAba (headOld : AtomicPointer) (next : ℕ)
  /-- No slow dequeue. -/
  | loadData (headOld : AtomicPointer) (next : ℕ)
  | casHead (headOld : AtomicPointer) (next : ℕ) (item : α)
  /-- Slow dequeue. -/
  | finish (s : FinishDeq)

/-- One access; the result when the call returns, `none` when the iteration ends. -/
def FastDeq.step (σ : Shared α) : FastDeq α → Shared α × (FastDeq α ⊕ Option (QueueRet α))
  | .loadHead => (σ, .inl (.loadTail σ.head))
  | .loadTail headOld => (σ, .inl (.loadNext headOld σ.tail))
  | .loadNext headOld tailOld =>
    (σ, .inl (.checkHead headOld tailOld (σ.node headOld.value).next.value))
  | .checkHead headOld tailOld next =>
    if σ.head = headOld then
      if headOld.value = tailOld.value then
        if next = 0 then (σ, .inr (some (.dequeued none)))
        else (σ, .inl (.fixTail (.loadEnqTid tailOld next)))
      else (σ, .inl (.checkAba headOld next))
    else (σ, .inr none)
  | .fixTail s => ((s.step σ).1, ((s.step σ).2.map (.inl ∘ .fixTail)).getD (.inr none))
  | .checkAba headOld next =>
    if σ.head.aba = kTidNotSet then (σ, .inl (.loadData headOld next))
    else (σ, .inl (.finish .loadHead))
  | .loadData headOld next => (σ, .inl (.casHead headOld next (σ.node next).data))
  | .casHead headOld next item =>
    if σ.head = headOld then
      ({ σ with head := ⟨next, kTidNotSet⟩ }, .inr (some (.dequeued (some item))))
    else (σ, .inr none)
  | .finish s => ((s.step σ).1, ((s.step σ).2.map (.inl ∘ .finish)).getD (.inr none))

/-! ### The slow paths -/

inductive WfEnq where
  | loadState
  | loadPhase (d : ℕ)
  | setEnqTid (phase : ℤ)
  | initDesc (phase : ℤ)
  | loadAba (phase : ℤ) (opdesc : ℕ)
  | setState (phase : ℤ) (opdesc aba : ℕ)
  | help (phase : ℤ) (s : HelpEnq)
  | finish (s : FinishEnq)

/-- One access of `wf_enq(node)` by thread `t`; `none` when it returns. -/
def WfEnq.step (t : ℕ) (σ : Shared α) (node : ℕ) : WfEnq → Shared α × Option WfEnq
  | .loadState => (σ, some (.loadPhase (σ.state t).value))
  | .loadPhase d => (σ, some (.setEnqTid ((σ.desc d).phase + 1)))
  | .setEnqTid phase => (σ.setEnqTid node t, some (.initDesc phase))
  | .initDesc phase =>
    (σ.newDesc (.init phase true .enqueue node), some (.loadAba phase σ.descAlloc))
  | .loadAba phase opdesc => (σ, some (.setState phase opdesc ((σ.state t).aba + 1)))
  | .setState phase opdesc aba =>
    (σ.setState t ⟨opdesc, aba⟩, some (.help phase (.loop .loadPendingState)))
  | .help phase s =>
    ((s.step σ t phase).1,
      some (((s.step σ t phase).2.map (.help phase)).getD (.finish .loadTail)))
  | .finish s => ((s.step σ).1, (s.step σ).2.map .finish)

inductive WfDeq where
  | loadState
  | loadPhase (d : ℕ)
  | initDesc (phase : ℤ)
  | loadAba (phase : ℤ) (opdesc : ℕ)
  | setState (phase : ℤ) (opdesc aba : ℕ)
  | help (phase : ℤ) (s : HelpDeq)
  | finish (s : FinishDeq)
  | loadNodeState
  | loadNode (d : ℕ)
  | loadNext (node : ℕ)
  | loadData (next : ℕ)

/-- One access of `wf_deq(item)` by thread `t`, which goes on or returns. -/
def WfDeq.step (t : ℕ) (σ : Shared α) : WfDeq → Shared α × (WfDeq ⊕ QueueRet α)
  | .loadState => (σ, .inl (.loadPhase (σ.state t).value))
  | .loadPhase d => (σ, .inl (.initDesc ((σ.desc d).phase + 1)))
  | .initDesc phase => (σ.newDesc (.init phase true .dequeue 0), .inl (.loadAba phase σ.descAlloc))
  | .loadAba phase opdesc => (σ, .inl (.setState phase opdesc ((σ.state t).aba + 1)))
  | .setState phase opdesc aba =>
    (σ.setState t ⟨opdesc, aba⟩, .inl (.help phase (.loop .loadPendingState)))
  | .help phase s =>
    ((s.step σ t phase).1,
      .inl (((s.step σ t phase).2.map (.help phase)).getD (.finish .loadHead)))
  | .finish s => ((s.step σ).1, .inl (((s.step σ).2.map .finish).getD .loadNodeState))
  | .loadNodeState => (σ, .inl (.loadNode (σ.state t).value))
  | .loadNode d =>
    if (σ.desc d).node = 0 then (σ, .inr (.dequeued none))
    else (σ, .inl (.loadNext (σ.desc d).node))
  | .loadNext node => (σ, .inl (.loadData (σ.node node).next.value))
  | .loadData next => (σ, .inr (.dequeued (some (σ.node next).data)))

/-! ### Calls -/

/-- The access that a call makes next; `trials` is an `unsigned int`. -/
inductive Local (α : Type) where
  | helpIfNeeded (op : QueueOp α) (s : HelpIfNeeded)
  | initNode (item : α)
  | fastEnq (node trials : ℕ) (s : FastEnq)
  | wfEnq (node : ℕ) (s : WfEnq)
  | fastDeq (trials : ℕ) (s : FastDeq α)
  | wfDeq (s : WfDeq)

/-- The condition of the loop of `enqueue`. -/
def enqFrom (maxRetries node trials : ℕ) : Local α :=
  if trials < maxRetries then .fastEnq node ((trials + 1) % 2 ^ 32) .loadTail
  else .wfEnq node .loadState

/-- The condition of the loop of `dequeue`. -/
def deqFrom (maxRetries trials : ℕ) : Local α :=
  if trials < maxRetries then .fastDeq ((trials + 1) % 2 ^ 32) .loadHead else .wfDeq .loadState

/-- What a call does after `help_if_needed`. -/
def afterHelp (maxRetries : ℕ) : QueueOp α → Local α
  | .enqueue item => .initNode item
  | .dequeue => deqFrom maxRetries 0

/-- One access of thread `t`. -/
def step (c : Params) (t : ℕ) (σ : Shared α) : Local α → Shared α × (Local α ⊕ QueueRet α)
  | .helpIfNeeded op s =>
    ((s.step t σ).1,
      .inl (((s.step t σ).2.map (.helpIfNeeded op)).getD (afterHelp c.maxRetries op)))
  | .initNode item => (σ.newNode item, .inl (enqFrom c.maxRetries σ.alloc 0))
  | .fastEnq node trials s =>
    match s.step σ node with
    | (σ', .inl s') => (σ', .inl (.fastEnq node trials s'))
    | (σ', .inr true) => (σ', .inr (.enqueued true))
    | (σ', .inr false) => (σ', .inl (enqFrom c.maxRetries node trials))
  | .wfEnq node s =>
    match s.step t σ node with
    | (σ', some s') => (σ', .inl (.wfEnq node s'))
    | (σ', none) => (σ', .inr (.enqueued true))
  | .fastDeq trials s =>
    match s.step σ with
    | (σ', .inl s') => (σ', .inl (.fastDeq trials s'))
    | (σ', .inr (some r)) => (σ', .inr r)
    | (σ', .inr none) => (σ', .inl (deqFrom c.maxRetries trials))
  | .wfDeq s => ((s.step t σ).1, (s.step t σ).2.map .wfDeq id)

/-- Thread ids are below `num_threads` and below `kTidNotSet`. -/
abbrev machine (α : Type) [Inhabited α] (c : Params) : Machine (QueueOp α) (QueueRet α) where
  Shared := Shared α
  Local := Local α
  Choice := Unit
  init := .init c
  admits _ t _ := decide (t < c.numThreads ∧ t < kTidNotSet)
  start _ _ op := .helpIfNeeded op .doNextCheck
  step t _ σ l := some (step c t σ l)

end WfQueuePpopp12

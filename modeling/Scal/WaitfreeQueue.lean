/-
The wait-free queue with helping by phases (`datastructures/wf_queue_ppopp11.h`).

A call publishes a descriptor in `state_` and then helps every call whose phase is not above
its own, its own call last of all phases.  `help_enqueue` and `help_dequeue` may be run by any
number of threads for the same descriptor, and `help_finish_enqueue` and `help_finish_dequeue`
for the node that was linked or reserved last.

Descriptors and nodes are written only before they are published, each in one step that also
allocates it; every other access to shared memory is a step of its own.  The arguments of `init`
are evaluated from left to right.  `scal::tlget` is assumed to return a new block each time: with
`reuse_memory` it would start over once the preallocated memory is used up.
-/
import Scal.Interleave
import Scal.LinearizationPoints
import Scal.Chain

open Interleave Linearizability

namespace WaitfreeQueue

variable {α : Type}

/-- Marks a node as free for other threads. -/
def kTidNotSet : ℕ := wordSize - 2

def kNoPhase : ℤ := -1

/-- `wf_details::Node`. -/
structure Node (α : Type) where
  data : α
  next : AtomicPointer
  enqTid : ℕ
  deqTid : ℕ

/-- `OperationDescriptor::Type`. -/
inductive OperationType where
  | enqueue
  | dequeue
  deriving DecidableEq

/-- `wf_details::OperationDescriptor`. -/
structure OperationDescriptor where
  phase : ℤ
  pending : Bool
  type : OperationType
  node : ℕ
  deriving DecidableEq

/-- The memory of the queue: the nodes and the descriptors by address, the addresses that are
handed out next, `*head_`, `*tail_` and `state_`. -/
structure Shared (α : Type) where
  node : ℕ → Node α
  alloc : ℕ
  desc : ℕ → OperationDescriptor
  descAlloc : ℕ
  head : AtomicPointer
  tail : AtomicPointer
  state : ℕ → AtomicPointer

/-- The constructor: head and tail point to a sentinel, and the descriptor of thread `t`, at
address `t + 1`, is not pending. -/
def Shared.init [Inhabited α] (numThreads : ℕ) : Shared α :=
  ⟨fun _ => ⟨default, ⟨0, 0⟩, kTidNotSet, kTidNotSet⟩, 2,
    fun _ => ⟨kNoPhase, false, .enqueue, 0⟩, numThreads + 1, ⟨1, 0⟩, ⟨1, 0⟩, fun t => ⟨t + 1, 0⟩⟩

/-- `tlget<Node>` and `init(item, thread_id)`. -/
def Shared.newNode (σ : Shared α) (item : α) (tid : ℕ) : Shared α :=
  { σ with
    node := Function.update σ.node σ.alloc ⟨item, ⟨0, 0⟩, tid, kTidNotSet⟩
    alloc := σ.alloc + 1 }

/-- `tlget<OperationDescriptor>` and `init`. -/
def Shared.newDesc (σ : Shared α) (d : OperationDescriptor) : Shared α :=
  { σ with
    desc := Function.update σ.desc σ.descAlloc d
    descAlloc := σ.descAlloc + 1 }

def Shared.setNext (σ : Shared α) (p : ℕ) (w : AtomicPointer) : Shared α :=
  { σ with node := Function.update σ.node p { σ.node p with next := w } }

def Shared.setDeqTid (σ : Shared α) (p tid : ℕ) : Shared α :=
  { σ with node := Function.update σ.node p { σ.node p with deqTid := tid } }

def Shared.setState (σ : Shared α) (t : ℕ) (w : AtomicPointer) : Shared α :=
  { σ with state := Function.update σ.state t w }

/-- `state_[t]->value()`, dereferenced. -/
def Shared.descOf (σ : Shared α) (t : ℕ) : OperationDescriptor := σ.desc (σ.state t).value

theorem descOf_setState_self {σ : Shared α} {i d aba : ℕ} :
    (σ.setState i ⟨d, aba⟩).descOf i = σ.desc d := by
  simp [Shared.descOf, Shared.setState]

theorem descOf_setState_of_ne {σ : Shared α} {t i d aba : ℕ} (ht : t ≠ i) :
    (σ.setState i ⟨d, aba⟩).descOf t = σ.descOf t := by
  simp [Shared.descOf, Shared.setState, Function.update_of_ne ht]

/-- A write of `next` leaves the other fields. -/
theorem setNext_keeps {σ : Shared α} {p q : ℕ} {w : AtomicPointer} :
    ((σ.setNext p w).node q).data = (σ.node q).data ∧
      ((σ.setNext p w).node q).enqTid = (σ.node q).enqTid ∧
      ((σ.setNext p w).node q).deqTid = (σ.node q).deqTid := by
  by_cases hq : q = p
  · subst hq
    simp [Shared.setNext]
  · simp [Shared.setNext, Function.update_of_ne hq]

theorem setNext_next {σ : Shared α} {p : ℕ} {w : AtomicPointer} :
    (fun q => ((σ.setNext p w).node q).next) = Function.update (fun q => (σ.node q).next) p w := by
  funext q
  by_cases hq : q = p
  · subst hq
    simp [Shared.setNext]
  · simp [Shared.setNext, Function.update_of_ne hq]

/-- And so does a write of `deq_tid`. -/
theorem setDeqTid_keeps {σ : Shared α} {p q tid : ℕ} :
    ((σ.setDeqTid p tid).node q).data = (σ.node q).data ∧
      ((σ.setDeqTid p tid).node q).enqTid = (σ.node q).enqTid ∧
      ((σ.setDeqTid p tid).node q).next = (σ.node q).next := by
  by_cases hq : q = p
  · subst hq
    simp [Shared.setDeqTid]
  · simp [Shared.setDeqTid, Function.update_of_ne hq]

/-- The data of the nodes strictly after `head_`'s node. -/
def Shared.queue (σ : Shared α) : List α :=
  (follow (fun n => (σ.node n).next) σ.alloc (σ.node σ.head.value).next.value).map
    fun n => (σ.node n).data

/-! ### `is_still_pending` -/

inductive Still where
  | loadPendingState
  | loadPending (d : ℕ)
  | loadPhaseState
  | loadPhase (d : ℕ)

/-- One access of `is_still_pending(tid, phase)`, which goes on or returns. -/
def Still.step (σ : Shared α) (tid : ℕ) (phase : ℤ) : Still → Still ⊕ Bool
  | .loadPendingState => .inl (.loadPending (σ.state tid).value)
  | .loadPending d => if (σ.desc d).pending then .inl .loadPhaseState else .inr false
  | .loadPhaseState => .inl (.loadPhase (σ.state tid).value)
  | .loadPhase d => .inr (decide ((σ.desc d).phase ≤ phase))

/-! ### `help_finish_enqueue` -/

inductive FinishEnqueue where
  | loadTail
  | loadNext (tailOld : AtomicPointer)
  | loadEnqTid (tailOld : AtomicPointer) (next : ℕ)
  | loadState (tailOld : AtomicPointer) (next tid : ℕ)
  | checkTail (tailOld : AtomicPointer) (next tid : ℕ) (curState : AtomicPointer)
  | loadNodeState (tailOld : AtomicPointer) (next tid : ℕ) (curState : AtomicPointer)
  | loadNode (tailOld : AtomicPointer) (next tid : ℕ) (curState : AtomicPointer) (d : ℕ)
  | loadPhaseState (tailOld : AtomicPointer) (next tid : ℕ) (curState : AtomicPointer)
  | loadPhase (tailOld : AtomicPointer) (next tid : ℕ) (curState : AtomicPointer) (d : ℕ)
  | initDesc (tailOld : AtomicPointer) (next tid : ℕ) (curState : AtomicPointer) (phase : ℤ)
  | casState (tailOld : AtomicPointer) (next tid : ℕ) (curState : AtomicPointer) (newDesc : ℕ)
  | casTail (tailOld : AtomicPointer) (next tid : ℕ)

/-- One access; `none` when it returns. -/
def FinishEnqueue.step (σ : Shared α) : FinishEnqueue → Shared α × Option FinishEnqueue
  | .loadTail => (σ, some (.loadNext σ.tail))
  | .loadNext tailOld =>
    if (σ.node tailOld.value).next.value = 0 then (σ, none)
    else (σ, some (.loadEnqTid tailOld (σ.node tailOld.value).next.value))
  | .loadEnqTid tailOld next => (σ, some (.loadState tailOld next (σ.node next).enqTid))
  | .loadState tailOld next tid => (σ, some (.checkTail tailOld next tid (σ.state tid)))
  | .checkTail tailOld next tid curState =>
    if tailOld = σ.tail then (σ, some (.loadNodeState tailOld next tid curState)) else (σ, none)
  | .loadNodeState tailOld next tid curState =>
    (σ, some (.loadNode tailOld next tid curState (σ.state tid).value))
  | .loadNode tailOld next tid curState d =>
    if (σ.desc d).node = next then (σ, some (.loadPhaseState tailOld next tid curState))
    else (σ, none)
  | .loadPhaseState tailOld next tid curState =>
    (σ, some (.loadPhase tailOld next tid curState (σ.state tid).value))
  | .loadPhase tailOld next tid curState d =>
    (σ, some (.initDesc tailOld next tid curState (σ.desc d).phase))
  | .initDesc tailOld next tid curState phase =>
    (σ.newDesc ⟨phase, false, .enqueue, next⟩,
      some (.casState tailOld next tid curState σ.descAlloc))
  | .casState tailOld next tid curState newDesc =>
    if σ.state tid = curState then
      (σ.setState tid ⟨newDesc, curState.aba + 1⟩, some (.casTail tailOld next tid))
    else (σ, some (.casTail tailOld next tid))
  | .casTail tailOld next _ =>
    if σ.tail = tailOld then ({ σ with tail := ⟨next, tailOld.aba + 1⟩ }, none) else (σ, none)

/-! ### `help_finish_dequeue` -/

inductive FinishDequeue where
  | loadHead
  | loadNext (headOld : AtomicPointer)
  | loadDeqTid (headOld : AtomicPointer) (next : ℕ)
  | loadState (headOld : AtomicPointer) (next tid : ℕ)
  | checkHead (headOld : AtomicPointer) (next tid : ℕ) (curState : AtomicPointer)
  | loadPhaseState (headOld : AtomicPointer) (next tid : ℕ) (curState : AtomicPointer)
  | loadPhase (headOld : AtomicPointer) (next tid : ℕ) (curState : AtomicPointer) (d : ℕ)
  | loadNodeState (headOld : AtomicPointer) (next tid : ℕ) (curState : AtomicPointer) (phase : ℤ)
  | loadNode (headOld : AtomicPointer) (next tid : ℕ) (curState : AtomicPointer) (phase : ℤ) (d : ℕ)
  | initDesc (headOld : AtomicPointer) (next tid : ℕ) (curState : AtomicPointer) (phase : ℤ)
      (node : ℕ)
  | casState (headOld : AtomicPointer) (next tid : ℕ) (curState : AtomicPointer) (newDesc : ℕ)
  | casHead (headOld : AtomicPointer) (next tid : ℕ)

/-- One access; `none` when it returns. -/
def FinishDequeue.step (σ : Shared α) : FinishDequeue → Shared α × Option FinishDequeue
  | .loadHead => (σ, some (.loadNext σ.head))
  | .loadNext headOld => (σ, some (.loadDeqTid headOld (σ.node headOld.value).next.value))
  | .loadDeqTid headOld next =>
    if (σ.node headOld.value).deqTid ≠ kTidNotSet then
      (σ, some (.loadState headOld next (σ.node headOld.value).deqTid))
    else (σ, none)
  | .loadState headOld next tid => (σ, some (.checkHead headOld next tid (σ.state tid)))
  | .checkHead headOld next tid curState =>
    if headOld = σ.head ∧ next ≠ 0 then (σ, some (.loadPhaseState headOld next tid curState))
    else (σ, none)
  | .loadPhaseState headOld next tid curState =>
    (σ, some (.loadPhase headOld next tid curState (σ.state tid).value))
  | .loadPhase headOld next tid curState d =>
    (σ, some (.loadNodeState headOld next tid curState (σ.desc d).phase))
  | .loadNodeState headOld next tid curState phase =>
    (σ, some (.loadNode headOld next tid curState phase (σ.state tid).value))
  | .loadNode headOld next tid curState phase d =>
    (σ, some (.initDesc headOld next tid curState phase (σ.desc d).node))
  | .initDesc headOld next tid curState phase node =>
    (σ.newDesc ⟨phase, false, .dequeue, node⟩,
      some (.casState headOld next tid curState σ.descAlloc))
  | .casState headOld next tid curState newDesc =>
    if σ.state tid = curState then
      (σ.setState tid ⟨newDesc, curState.aba + 1⟩, some (.casHead headOld next tid))
    else (σ, some (.casHead headOld next tid))
  | .casHead headOld next _ =>
    if σ.head = headOld then ({ σ with head := ⟨next, headOld.aba + 1⟩ }, none) else (σ, none)

/-! ### `help_enqueue` -/

inductive HelpEnqueue where
  /-- The condition of the loop. -/
  | loop (s : Still)
  | loadTail
  | loadNext (tailOld : AtomicPointer)
  | checkTail (tailOld next : AtomicPointer)
  | stillPending (tailOld next : AtomicPointer) (s : Still)
  | loadState (tailOld next : AtomicPointer)
  | loadNode (tailOld next : AtomicPointer) (d : ℕ)
  | casNext (tailOld next : AtomicPointer) (node : ℕ)
  /-- After the node was linked. -/
  | finish (s : FinishEnqueue)
  /-- There's still an enqueue in progress. -/
  | finishOther (s : FinishEnqueue)

/-- One access of `help_enqueue(tid, phase)`; `none` when it returns. -/
def HelpEnqueue.step (σ : Shared α) (tid : ℕ) (phase : ℤ) :
    HelpEnqueue → Shared α × Option HelpEnqueue
  | .loop s =>
    match s.step σ tid phase with
    | .inl s' => (σ, some (.loop s'))
    | .inr true => (σ, some .loadTail)
    | .inr false => (σ, none)
  | .loadTail => (σ, some (.loadNext σ.tail))
  | .loadNext tailOld => (σ, some (.checkTail tailOld (σ.node tailOld.value).next))
  | .checkTail tailOld next =>
    if tailOld = σ.tail then
      if next.value = 0 then (σ, some (.stillPending tailOld next .loadPendingState))
      else (σ, some (.finishOther .loadTail))
    else (σ, some (.loop .loadPendingState))
  | .stillPending tailOld next s =>
    match s.step σ tid phase with
    | .inl s' => (σ, some (.stillPending tailOld next s'))
    | .inr true => (σ, some (.loadState tailOld next))
    | .inr false => (σ, some (.loop .loadPendingState))
  | .loadState tailOld next => (σ, some (.loadNode tailOld next (σ.state tid).value))
  | .loadNode tailOld next d => (σ, some (.casNext tailOld next (σ.desc d).node))
  | .casNext tailOld next node =>
    if (σ.node tailOld.value).next = next then
      (σ.setNext tailOld.value ⟨node, next.aba + 1⟩, some (.finish .loadTail))
    else (σ, some (.loop .loadPendingState))
  | .finish s => ((s.step σ).1, (s.step σ).2.map .finish)
  | .finishOther s => ((s.step σ).1, some (((s.step σ).2.map .finishOther).getD (.loop .loadPendingState)))

/-! ### `help_dequeue` -/

inductive HelpDequeue where
  /-- The condition of the loop. -/
  | loop (s : Still)
  | loadHead
  | loadTail (headOld : AtomicPointer)
  | loadNext (headOld tailOld : AtomicPointer)
  | checkHead (headOld tailOld : AtomicPointer) (next : ℕ)
  -- the queue is empty
  | emptyState (headOld tailOld : AtomicPointer)
  | emptyTail (headOld tailOld curState : AtomicPointer)
  | emptyStillPending (headOld curState : AtomicPointer) (s : Still)
  | emptyPhaseState (headOld curState : AtomicPointer)
  | emptyPhase (headOld curState : AtomicPointer) (d : ℕ)
  | emptyInitDesc (headOld curState : AtomicPointer) (phase : ℤ)
  | emptyCas (headOld curState : AtomicPointer) (newDesc : ℕ)
  /-- Help finish a pending enqueue. -/
  | finishEnqueue (s : FinishEnqueue)
  -- the queue is not empty
  | loadState (headOld : AtomicPointer)
  | loadNode (headOld curState : AtomicPointer)
  | stillPending (headOld curState : AtomicPointer) (node : ℕ) (s : Still)
  | checkNode (headOld curState : AtomicPointer) (node : ℕ)
  | loadPhaseState (headOld curState : AtomicPointer)
  | loadPhase (headOld curState : AtomicPointer) (d : ℕ)
  | initDesc (headOld curState : AtomicPointer) (phase : ℤ)
  | casState (headOld curState : AtomicPointer) (newDesc : ℕ)
  | casDeqTid (headOld : AtomicPointer)
  | finish (s : FinishDequeue)

/-- One access of `help_dequeue(tid, phase)`; `none` when it returns. -/
def HelpDequeue.step (σ : Shared α) (tid : ℕ) (phase : ℤ) :
    HelpDequeue → Shared α × Option HelpDequeue
  | .loop s =>
    match s.step σ tid phase with
    | .inl s' => (σ, some (.loop s'))
    | .inr true => (σ, some .loadHead)
    | .inr false => (σ, none)
  | .loadHead => (σ, some (.loadTail σ.head))
  | .loadTail headOld => (σ, some (.loadNext headOld σ.tail))
  | .loadNext headOld tailOld =>
    (σ, some (.checkHead headOld tailOld (σ.node headOld.value).next.value))
  | .checkHead headOld tailOld next =>
    if σ.head = headOld then
      if headOld.value = tailOld.value then
        if next = 0 then (σ, some (.emptyState headOld tailOld))
        else (σ, some (.finishEnqueue .loadTail))
      else (σ, some (.loadState headOld))
    else (σ, some (.loop .loadPendingState))
  -- the queue is empty
  | .emptyState headOld tailOld => (σ, some (.emptyTail headOld tailOld (σ.state tid)))
  | .emptyTail headOld tailOld curState =>
    if tailOld.value = σ.tail.value then (σ, some (.emptyStillPending headOld curState .loadPendingState))
    else (σ, some (.loop .loadPendingState))
  | .emptyStillPending headOld curState s =>
    match s.step σ tid phase with
    | .inl s' => (σ, some (.emptyStillPending headOld curState s'))
    | .inr true => (σ, some (.emptyPhaseState headOld curState))
    | .inr false => (σ, some (.loop .loadPendingState))
  | .emptyPhaseState headOld curState =>
    (σ, some (.emptyPhase headOld curState (σ.state tid).value))
  | .emptyPhase headOld curState d => (σ, some (.emptyInitDesc headOld curState (σ.desc d).phase))
  | .emptyInitDesc headOld curState phase =>
    (σ.newDesc ⟨phase, false, .dequeue, 0⟩, some (.emptyCas headOld curState σ.descAlloc))
  | .emptyCas _ curState newDesc =>
    if σ.state tid = curState then
      (σ.setState tid ⟨newDesc, curState.aba + 1⟩, some (.loop .loadPendingState))
    else (σ, some (.loop .loadPendingState))
  | .finishEnqueue s =>
    ((s.step σ).1, some (((s.step σ).2.map .finishEnqueue).getD (.loop .loadPendingState)))
  -- the queue is not empty
  | .loadState headOld => (σ, some (.loadNode headOld (σ.state tid)))
  | .loadNode headOld curState =>
    (σ, some (.stillPending headOld curState (σ.desc curState.value).node .loadPendingState))
  | .stillPending headOld curState node s =>
    match s.step σ tid phase with
    | .inl s' => (σ, some (.stillPending headOld curState node s'))
    | .inr true => (σ, some (.checkNode headOld curState node))
    | .inr false => (σ, none)
  | .checkNode headOld curState node =>
    if σ.head = headOld ∧ node ≠ headOld.value then (σ, some (.loadPhaseState headOld curState))
    else (σ, some (.casDeqTid headOld))
  | .loadPhaseState headOld curState => (σ, some (.loadPhase headOld curState (σ.state tid).value))
  | .loadPhase headOld curState d => (σ, some (.initDesc headOld curState (σ.desc d).phase))
  | .initDesc headOld curState phase =>
    (σ.newDesc ⟨phase, true, .dequeue, headOld.value⟩,
      some (.casState headOld curState σ.descAlloc))
  | .casState headOld curState newDesc =>
    if σ.state tid = curState then
      (σ.setState tid ⟨newDesc, curState.aba + 1⟩, some (.casDeqTid headOld))
    else (σ, some (.loop .loadPendingState))
  | .casDeqTid headOld =>
    if (σ.node headOld.value).deqTid = kTidNotSet then
      (σ.setDeqTid headOld.value tid, some (.finish .loadHead))
    else (σ, some (.finish .loadHead))
  | .finish s => ((s.step σ).1, some (((s.step σ).2.map .finish).getD (.loop .loadPendingState)))

/-! ### `help` -/

inductive Help where
  | loadState
  | loadPending (d : ℕ)
  | loadPhase (d : ℕ)
  | loadType (d : ℕ)
  | enqueue (s : HelpEnqueue)
  | dequeue (s : HelpDequeue)

/-- One access of an iteration of the loop of `help(phase)`; `none` when it ends. -/
def Help.step (σ : Shared α) (i : ℕ) (phase : ℤ) : Help → Shared α × Option Help
  | .loadState => (σ, some (.loadPending (σ.state i).value))
  | .loadPending d => if (σ.desc d).pending then (σ, some (.loadPhase d)) else (σ, none)
  | .loadPhase d => if (σ.desc d).phase ≤ phase then (σ, some (.loadType d)) else (σ, none)
  | .loadType d =>
    match (σ.desc d).type with
    | .enqueue => (σ, some (.enqueue (.loop .loadPendingState)))
    | .dequeue => (σ, some (.dequeue (.loop .loadPendingState)))
  | .enqueue s => ((s.step σ i phase).1, (s.step σ i phase).2.map .enqueue)
  | .dequeue s => ((s.step σ i phase).1, (s.step σ i phase).2.map .dequeue)

/-! ### Calls -/

/-- The access that a call makes next. -/
inductive Local (α : Type) where
  -- `max_phase()`
  | loadMaxState (op : QueueOp α) (i : ℕ) (maxPhase : ℤ)
  | loadMaxPhase (op : QueueOp α) (i : ℕ) (maxPhase : ℤ) (d : ℕ)
  | initNode (item : α) (phase : ℤ)
  | initDesc (op : QueueOp α) (phase : ℤ) (node : ℕ)
  | loadAba (op : QueueOp α) (phase : ℤ) (opdesc : ℕ)
  | setState (op : QueueOp α) (phase : ℤ) (opdesc aba : ℕ)
  -- `help(phase)` at index `i`
  | help (op : QueueOp α) (phase : ℤ) (i : ℕ) (s : Help)
  | finishEnqueue (s : FinishEnqueue)
  | finishDequeue (s : FinishDequeue)
  | loadState
  | loadNode (d : ℕ)
  | loadNext (node : ℕ)
  | loadData (next : ℕ)

/-- What a call does once it knows the maximum of the phases. -/
def afterMax (op : QueueOp α) (maxPhase : ℤ) : Local α :=
  match op with
  | .enqueue item => .initNode item (maxPhase + 1)
  | .dequeue => .initDesc .dequeue (maxPhase + 1) 0

/-- The loop of `max_phase` from index `i` on. -/
def maxFrom (numThreads : ℕ) (op : QueueOp α) (i : ℕ) (maxPhase : ℤ) : Local α :=
  if i < numThreads then .loadMaxState op i maxPhase else afterMax op maxPhase

/-- What a call does after `help`. -/
def afterHelp : QueueOp α → Local α
  | .enqueue _ => .finishEnqueue .loadTail
  | .dequeue => .finishDequeue .loadHead

/-- The loop of `help` from index `i` on. -/
def helpFrom (numThreads : ℕ) (op : QueueOp α) (phase : ℤ) (i : ℕ) : Local α :=
  if i < numThreads then .help op phase i .loadState else afterHelp op

def operationType : QueueOp α → OperationType
  | .enqueue _ => .enqueue
  | .dequeue => .dequeue

/-- One access of thread `t`. -/
def step (numThreads t : ℕ) (σ : Shared α) : Local α → Shared α × (Local α ⊕ QueueRet α)
  | .loadMaxState op i maxPhase => (σ, .inl (.loadMaxPhase op i maxPhase (σ.state i).value))
  | .loadMaxPhase op i maxPhase d =>
    (σ, .inl (maxFrom numThreads op (i + 1)
      (if (σ.desc d).phase > maxPhase then (σ.desc d).phase else maxPhase)))
  | .initNode item phase =>
    (σ.newNode item t, .inl (.initDesc (.enqueue item) phase σ.alloc))
  | .initDesc op phase node =>
    (σ.newDesc ⟨phase, true, operationType op, node⟩, .inl (.loadAba op phase σ.descAlloc))
  | .loadAba op phase opdesc => (σ, .inl (.setState op phase opdesc ((σ.state t).aba + 1)))
  | .setState op phase opdesc aba =>
    (σ.setState t ⟨opdesc, aba⟩, .inl (helpFrom numThreads op phase 0))
  | .help op phase i s =>
    ((s.step σ i phase).1, .inl (((s.step σ i phase).2.map (.help op phase i)).getD
      (helpFrom numThreads op phase (i + 1))))
  | .finishEnqueue s =>
    match s.step σ with
    | (σ', some s') => (σ', .inl (.finishEnqueue s'))
    | (σ', none) => (σ', .inr (.enqueued true))
  | .finishDequeue s =>
    ((s.step σ).1, .inl (((s.step σ).2.map .finishDequeue).getD .loadState))
  | .loadState => (σ, .inl (.loadNode (σ.state t).value))
  | .loadNode d =>
    if (σ.desc d).node = 0 then (σ, .inr (.dequeued none))
    else (σ, .inl (.loadNext (σ.desc d).node))
  | .loadNext node => (σ, .inl (.loadData (σ.node node).next.value))
  | .loadData next => (σ, .inr (.dequeued (some (σ.node next).data)))

/-- Thread ids are below `num_threads`, and `kTidNotSet` is none of them. -/
abbrev machine (α : Type) [Inhabited α] (numThreads : ℕ) :
    Machine (QueueOp α) (QueueRet α) where
  Shared := Shared α
  Local := Local α
  Choice := Unit
  init := .init numThreads
  admits _ t _ := decide (t < numThreads ∧ t ≠ kTidNotSet)
  start _ _ op := maxFrom numThreads op 0 kNoPhase
  step t _ σ l := some (step numThreads t σ l)

end WaitfreeQueue

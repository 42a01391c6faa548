/-
The random dequeue queue (`datastructures/random_dequeue_queue.h`).

`machine` runs the source one shared access at a time.  The result of `pseudorand()` is
the choice `ch` of the access that checks `head_`, right after which the source calls it.
The constructor never sets `max_retries_`, so `maxRetries` is whatever was in memory.
`scal::tlget` is assumed to return a new block for every node: with `reuse_memory` it would
start over once the preallocated memory is used up.
-/
import Scal.Linearizable
import Scal.AtomicValue

open Interleave Linearizability

namespace RandomDequeueQueue

variable {α : Type}

/-- `rd_details::Node`. -/
@[ext]
structure Node (α : Type) where
  next : AtomicPointer
  value : α
  deleted : Bool

/-- The nodes by address, the address of the next new node, `*head_` and `*tail_`. -/
structure Shared (α : Type) where
  node : ℕ → Node α
  alloc : ℕ
  head : AtomicPointer
  tail : AtomicPointer

/-- The address of the node that the constructor makes. -/
def sentinel : ℕ := 1

def Shared.init [Inhabited α] : Shared α :=
  ⟨fun _ => ⟨⟨0, 0⟩, default, false⟩, 2, ⟨sentinel, 0⟩, ⟨sentinel, 0⟩⟩

/-- `tlget<Node>(kCachePrefetch)` with its `value` set, at the address `σ.alloc`. -/
def Shared.nodeNew (σ : Shared α) (item : α) : Shared α :=
  { σ with
    node := Function.update σ.node σ.alloc ⟨⟨0, 0⟩, item, false⟩, alloc := σ.alloc + 1 }

def Shared.setNext (σ : Shared α) (p : ℕ) (w : AtomicPointer) : Shared α :=
  { σ with node := Function.update σ.node p { σ.node p with next := w } }

def Shared.delete (σ : Shared α) (p : ℕ) : Shared α :=
  { σ with node := Function.update σ.node p { σ.node p with deleted := true } }

/-- The nodes from `p` on along `next`, at most `fuel` of them. -/
def follow (node : ℕ → Node α) : ℕ → ℕ → List ℕ
  | 0, _ => []
  | fuel + 1, p => if p = 0 then [] else p :: follow node fuel (node p).next.value

/-- All nodes from the sentinel of the constructor on. -/
def Shared.nodes (σ : Shared α) : List ℕ := follow σ.node σ.alloc sentinel

/-- The shared access a call makes next, with its local variables. -/
inductive Local (α : Type) where
  | enqNew (item : α)
  | enqTail (item : α) (node : ℕ)
  | enqNext (item : α) (node : ℕ) (tailOld : AtomicPointer)
  | enqCheck (item : α) (node : ℕ) (tailOld next : AtomicPointer)
  | enqLink (item : α) (node : ℕ) (tailOld next : AtomicPointer)
  | enqHelp (item : α) (node : ℕ) (tailOld next : AtomicPointer)
  | enqSwing (item : α) (node : ℕ) (tailOld : AtomicPointer)
  | deqHead (retries : ℕ)
  | deqTail (retries : ℕ) (headOld : AtomicPointer)
  | deqNext (retries : ℕ) (headOld tailOld : AtomicPointer)
  | deqCheck (retries : ℕ) (headOld tailOld next : AtomicPointer)
  | deqHelp (retries : ℕ) (tailOld next : AtomicPointer)
  -- `random_index == 0`
  | skipTest (retries : ℕ) (headOld tailOld : AtomicPointer) (node : ℕ)
  | skipSwing (retries : ℕ) (headOld tailOld : AtomicPointer) (node : ℕ)
  | skipNext (retries : ℕ) (headOld tailOld : AtomicPointer)
  -- `random_index != 0`
  | walkTest (retries randomIndex i node : ℕ)
  | walkNext (retries randomIndex i node : ℕ)
  -- both
  | takeTest (retries node : ℕ)
  | takeSwing (retries node : ℕ)
  | takeValue (node : ℕ)

def start : BagOp α → Local α
  | .put item => .enqNew item
  | .get => .deqHead 0

/-- The condition of the `while` loop over deleted nodes, and what follows it. -/
def skipFrom (retries : ℕ) (headOld tailOld : AtomicPointer) (node : ℕ) :
    Local α ⊕ BagRet α :=
  if node = 0 then .inr (.got none) else .inl (.skipTest retries headOld tailOld node)

/-- The `for` loop from `i` on, and what follows it. -/
def walkFrom (retries randomIndex i node : ℕ) : Local α :=
  if i < randomIndex then .walkTest retries randomIndex i node else .takeTest retries node

/-- One shared access; `ch` is what `pseudorand()` returns. -/
def step (quasiFactor maxRetries ch : ℕ) (σ : Shared α) :
    Local α → Shared α × (Local α ⊕ BagRet α)
  -- enqueue
  | .enqNew item => (σ.nodeNew item, .inl (.enqTail item σ.alloc))
  | .enqTail item node => (σ, .inl (.enqNext item node σ.tail))
  | .enqNext item node tailOld =>
    (σ, .inl (.enqCheck item node tailOld (σ.node tailOld.value).next))
  | .enqCheck item node tailOld next =>
    if tailOld = σ.tail then
      if next.value = 0 then (σ, .inl (.enqLink item node tailOld next))
      else (σ, .inl (.enqHelp item node tailOld next))
    else (σ, .inl (.enqTail item node))
  | .enqLink item node tailOld next =>
    if (σ.node tailOld.value).next = next then
      (σ.setNext tailOld.value ⟨node, next.aba + 1⟩, .inl (.enqSwing item node tailOld))
    else (σ, .inl (.enqTail item node))
  | .enqHelp item node tailOld next =>
    if σ.tail = tailOld then
      ({ σ with tail := ⟨next.value, tailOld.aba + 1⟩ }, .inl (.enqTail item node))
    else (σ, .inl (.enqTail item node))
  | .enqSwing _ node tailOld =>
    if σ.tail = tailOld then
      ({ σ with tail := ⟨node, tailOld.aba + 1⟩ }, .inr (.put true))
    else (σ, .inr (.put true))
  -- dequeue
  | .deqHead retries => (σ, .inl (.deqTail retries σ.head))
  | .deqTail retries headOld => (σ, .inl (.deqNext retries headOld σ.tail))
  | .deqNext retries headOld tailOld =>
    (σ, .inl (.deqCheck retries headOld tailOld (σ.node headOld.value).next))
  | .deqCheck retries headOld tailOld next =>
    if σ.head = headOld then
      if headOld.value = tailOld.value then
        if next.value = 0 then (σ, .inr (.got none))
        else (σ, .inl (.deqHelp retries tailOld next))
      else
        let randomIndex := if maxRetries ≤ retries then 0 else ch % quasiFactor
        if randomIndex = 0 then
          (σ, skipFrom ((retries + 1) % wordSize) headOld tailOld next.value)
        else (σ, .inl (walkFrom ((retries + 1) % wordSize) randomIndex 0 next.value))
    else (σ, .inl (.deqHead retries))
  | .deqHelp retries tailOld next =>
    if σ.tail = tailOld then
      ({ σ with tail := ⟨next.value, tailOld.aba + 1⟩ }, .inl (.deqHead retries))
    else (σ, .inl (.deqHead retries))
  | .skipTest retries headOld tailOld node =>
    if (σ.node node).deleted then (σ, .inl (.skipSwing retries headOld tailOld node))
    else (σ, .inl (.takeTest retries node))
  | .skipSwing retries headOld tailOld node =>
    if σ.head = headOld then
      if node = tailOld.value then
        ({ σ with head := ⟨node, headOld.aba + 1⟩ }, .inl (.deqHead retries))
      else
        ({ σ with head := ⟨node, headOld.aba + 1⟩ },
          .inl (.skipNext retries ⟨node, headOld.aba + 1⟩ tailOld))
    else (σ, .inl (.deqHead retries))
  | .skipNext retries headOld tailOld =>
    (σ, skipFrom retries headOld tailOld (σ.node headOld.value).next.value)
  | .walkTest retries randomIndex i node =>
    if (σ.node node).next.value ≠ 0 then (σ, .inl (.walkNext retries randomIndex i node))
    else (σ, .inl (.takeTest retries node))
  | .walkNext retries randomIndex i node =>
    (σ, .inl (walkFrom retries randomIndex (i + 1) (σ.node node).next.value))
  | .takeTest retries node =>
    if (σ.node node).deleted = false then (σ, .inl (.takeSwing retries node))
    else (σ, .inl (.deqHead retries))
  | .takeSwing retries node =>
    if (σ.node node).deleted = false then (σ.delete node, .inl (.takeValue node))
    else (σ, .inl (.deqHead retries))
  | .takeValue node => (σ, .inr (.got (some (σ.node node).value)))

abbrev machine (α : Type) [Inhabited α] (quasiFactor maxRetries : ℕ) :
    Machine (BagOp α) (BagRet α) where
  Shared := Shared α
  Local := Local α
  Choice := ℕ
  init := .init
  admits _ _ _ := true
  start _ _ op := start op
  step _ ch σ l := some (step quasiFactor maxRetries ch σ l)

end RandomDequeueQueue

/-
The Treiber stack (`datastructures/treiber_stack.h`).

`machine` runs the source one shared access at a time: a new node is one step that
returns a fresh address, and every read and write of a node and every read and `cas`
of `*top_` is one step of its own.  `get_return_empty_state` is `pop` that also
stores the word of `*top_` it last read, and both share their local states.

That addresses are fresh assumes that `scal::tlget` does not start over in the preallocated
memory, which with `reuse_memory` it does once that is used up.
-/
import Scal.Interleave
import Scal.AtomicValue

open Interleave

namespace TreiberStack

variable {α : Type}

/-- `ts_internal::Node`. -/
structure Node (α : Type) where
  next : AtomicPointer
  data : α

/-- The nodes by address, the address of the next new node, and `*top_`. -/
structure Shared (α : Type) where
  node : ℕ → Node α
  alloc : ℕ
  top : AtomicPointer

def Shared.init [Inhabited α] : Shared α := ⟨fun _ => ⟨⟨0, 0⟩, default⟩, 1, ⟨0, 0⟩⟩

/-- The data of the nodes from `p` on along `next`, at most `fuel` of them. -/
def follow (node : ℕ → Node α) : ℕ → ℕ → List α
  | 0, _ => []
  | fuel + 1, p => if p = 0 then [] else (node p).data :: follow node fuel (node p).next.value

/-- The data of the nodes reachable from `*top_`. -/
def Shared.contents (σ : Shared α) : List α := follow σ.node σ.alloc σ.top.value

/-- `tlget<Node>(0)` with its `data` set, at the address `σ.alloc`. -/
def Shared.nodeNew (σ : Shared α) (item : α) : Shared α :=
  { σ with node := Function.update σ.node σ.alloc ⟨⟨0, 0⟩, item⟩, alloc := σ.alloc + 1 }

/-- `n->next.weak_set_value(v)`. -/
def Shared.setNext (σ : Shared α) (n v : ℕ) : Shared α :=
  { σ with
    node := Function.update σ.node n { σ.node n with next := ⟨v, (σ.node n).next.aba⟩ } }

inductive Op (α : Type) where
  | push (item : α)
  | pop
  | getReturnEmptyState
  | emptyState
  deriving DecidableEq

/-- Results, with what was stored through the pointers `item` and `state`. -/
inductive Ret (α : Type) where
  | pushed (ok : Bool)
  | popped (item : Option α) (state : Option AtomicPointer)
  | state (w : AtomicPointer)
  deriving DecidableEq

/-- The shared access a call makes next, with its local variables; the flag `rs`
says that the call is `get_return_empty_state` and not `pop`. -/
inductive Local (α : Type) where
  | pushNew (item : α)
  | pushTop (node : ℕ)
  | pushNext (node : ℕ) (topOld : AtomicPointer)
  | pushSwing (node : ℕ) (topOld : AtomicPointer)
  | popTop (rs : Bool)
  | popNext (rs : Bool) (topOld : AtomicPointer)
  | popSwing (rs : Bool) (topOld : AtomicPointer) (next : ℕ)
  | popData (rs : Bool) (topOld : AtomicPointer)
  | readTop

/-- The next access is the `cas` on `*top_` of a push, or of a pop. -/
def Local.pushing : Local α → Option AtomicPointer
  | .pushSwing _ topOld => some topOld
  | _ => none

def Local.popping : Local α → Option AtomicPointer
  | .popSwing _ topOld _ => some topOld
  | _ => none

def start : Op α → Local α
  | .push item => .pushNew item
  | .pop => .popTop false
  | .getReturnEmptyState => .popTop true
  | .emptyState => .readTop

/-- `*state = top_old.raw()`, in `get_return_empty_state` only. -/
def state (rs : Bool) (topOld : AtomicPointer) : Option AtomicPointer :=
  if rs then some topOld else none

/-- One shared access. -/
def step (σ : Shared α) : Local α → Shared α × (Local α ⊕ Ret α)
  -- push
  | .pushNew item => (σ.nodeNew item, .inl (.pushTop σ.alloc))
  | .pushTop node => (σ, .inl (.pushNext node σ.top))
  | .pushNext node topOld => (σ.setNext node topOld.value, .inl (.pushSwing node topOld))
  | .pushSwing node topOld =>
    if σ.top = topOld then
      ({ σ with top := ⟨node, topOld.aba + 1⟩ }, .inr (.pushed true))
    else (σ, .inl (.pushTop node))
  -- pop and get_return_empty_state
  | .popTop rs =>
    if σ.top.value = 0 then (σ, .inr (.popped none (state rs σ.top)))
    else (σ, .inl (.popNext rs σ.top))
  | .popNext rs topOld => (σ, .inl (.popSwing rs topOld (σ.node topOld.value).next.value))
  | .popSwing rs topOld next =>
    if σ.top = topOld then
      ({ σ with top := ⟨next, topOld.aba + 1⟩ }, .inl (.popData rs topOld))
    else (σ, .inl (.popTop rs))
  | .popData rs topOld =>
    (σ, .inr (.popped (some (σ.node topOld.value).data) (state rs topOld)))
  -- empty_state
  | .readTop => (σ, .inr (.state σ.top))

abbrev machine (α : Type) [Inhabited α] : Machine (Op α) (Ret α) where
  Shared := Shared α
  Local := Local α
  Choice := Unit
  init := .init
  admits _ _ _ := true
  start _ _ op := start op
  step _ _ σ l := some (step σ l)

end TreiberStack

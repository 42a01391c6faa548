/-
What the accesses to the timestamped deque did before, read off the log.

* `bagEvent` — the history of the deque as one of a bag;
* `storedSince` — the owner has stored an end pointer since a thread read it;
* `lastCheck`, `Shared.missed` — the access that stored a thread's emptiness check pointers of
  a buffer, and whether it missed an item that was inserted meanwhile;
* `unmissed` — the condition on an access under which the deque is a bag.
-/
import Scal.TSDeque
import Scal.Logged

open Interleave Linearizability

namespace TSDeque

variable {α : Type} {T : TimeStamp} {n : ℕ}

/-! ### The deque as a bag -/

def bagOp : DequeOp α → BagOp α
  | .insertLeft x => .put x
  | .insertRight x => .put x
  | .removeLeft => .get
  | .removeRight => .get

def bagRet : DequeRet α → BagRet α
  | .inserted b => .put b
  | .removed x => .got x

def bagEvent : Event (DequeOp α) (DequeRet α) → Event (BagOp α) (BagRet α)
  | .inv t op => .inv t (bagOp op)
  | .tau t => .tau t
  | .res t r => .res t (bagRet r)

/-! ### End pointers -/

/-- The access stores the pointer of an end of buffer `b`: `insert_left` and `insert_right`
do, at their own end and, if the buffer is empty, at the other one. -/
def stores (side : Side) (b : ℕ) (a : Access (machine α T n)) : Bool :=
  match a.loc with
  | .storePointer side' _ _ => a.thread = b ∧ side' = side
  | .storeOther side' _ _ _ _ => a.thread = b ∧ side'.other = side
  | _ => false

/-- Thread `t` reads the pointer of an end of buffer `b` before it searches the buffer. -/
def reads (t : ℕ) (side : Side) (b : ℕ) (a : Access (machine α T n)) : Bool :=
  match a.loc with
  | .loadTmp s => a.thread = t ∧ s.side = side ∧ s.tmpBufferIndex n = b
  | _ => false

/-- The pointer was stored since thread `t` last read it. -/
def storedSince (log : List (Access (machine α T n))) (t : ℕ) (side : Side) (b : ℕ) : Bool :=
  (log.takeWhile fun a => !reads t side b a).any (stores side b)

section StoredSince

variable {log : List (Access (machine α T n))} {a : Access (machine α T n)} {t b : ℕ} {s : Side}

/-- An access of another thread changes this only by storing the pointer. -/
theorem storedSince_cons (h : reads t s b a = false) :
    storedSince (a :: log) t s b = (stores s b a || storedSince log t s b) := by
  rw [storedSince, List.takeWhile_cons, h]
  rfl

theorem storedSince_read (h : reads t s b a = true) : storedSince (a :: log) t s b = false := by
  rw [storedSince, List.takeWhile_cons, h]
  rfl

theorem reads_other (h : t ≠ a.thread) : reads t s b a = false := by
  unfold reads
  split
  · exact decide_eq_false fun h' => h h'.1.symm
  · rfl

end StoredSince

/-! ### Emptiness checks -/

/-- Thread `t` stores its emptiness check pointers of buffer `b`. -/
def checks (t b : ℕ) (a : Access (machine α T n)) : Bool :=
  match a.loc with
  | .loadTmpOther s _ => a.thread = t ∧ s.tmpBufferIndex n = b
  | _ => false

def lastCheck (log : List (Access (machine α T n))) (t b : ℕ) : Option (Access (machine α T n)) :=
  log.find? (checks t b)

section LastCheck

variable {log : List (Access (machine α T n))} {a : Access (machine α T n)} {t b : ℕ}

theorem lastCheck_cons (h : checks t b a = false) : lastCheck (a :: log) t b = lastCheck log t b := by
  rw [lastCheck, List.find?_cons, h]
  rfl

theorem lastCheck_check (h : checks t b a = true) : lastCheck (a :: log) t b = some a := by
  rw [lastCheck, List.find?_cons, h]

end LastCheck

/-- The items that can be reached from item `p`, away from the given side. -/
def Shared.reachable (σ : Shared α T) (side : Side) (p : ℕ) : List ℕ :=
  (List.range σ.alloc).map fun k => (fun q => (σ.item q).link side.other)^[k] p

/-- An item that was inserted at an end of buffer `b` can be reached from there, and it is not
taken. -/
def Shared.holds (σ : Shared α T) (side : Side) (b : ℕ) : Bool :=
  (σ.reachable side (σ.pointer side b).pointer).any fun p =>
    !(σ.item p).taken && inserted side (σ.item p).index

/-- The access stores emptiness check pointers although the buffer has an item that was
inserted at the end whose pointer is read only now. -/
def misses (b : ℕ) (a : Access (machine α T n)) : Bool :=
  match a.loc with
  | .loadTmpOther s _ => a.shared.holds s.side.other b
  | _ => false

/-- Both pointers of the buffer are those that thread `t` remembers. -/
def Shared.unchanged (σ : Shared α T) (t : ℕ) (side : Side) (b : ℕ) (tmp : TaggedPointer) : Bool :=
  σ.emptinessCheck side t b = tmp ∧ σ.emptinessCheck side.other t b = σ.pointer side.other b

/-- No `compare_exchange` moves an end pointer that the owner has stored since it was read,
and no emptiness check succeeds if the pointers it finds unchanged were remembered although
the search had missed an item. -/
def unmissed (n t : ℕ) (σ : (machine α T n).logged.Shared) : Local α T → Bool
  | .swapPointer s =>
    !(decide (σ.1.pointer s.side s.bufferIndex = s.old) && storedSince σ.2 t s.side s.bufferIndex)
  | .loadTmpOther s tmp =>
    let b := s.tmpBufferIndex n
    !(σ.1.unchanged t s.side b tmp && (lastCheck σ.2 t b).any (misses b))
  | _ => true

end TSDeque

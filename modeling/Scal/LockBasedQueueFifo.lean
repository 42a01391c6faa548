/-
The lock-based queue is a linearizable FIFO queue.

* `HeapInv` — the nodes from `head_` to `tail_` hold the queue, and no thread waits for an
  item that is there, unless the thread that put it there has yet to broadcast;
* `Fits`, `Local.Ok` — what a thread knows of the lock, and of the queue while it holds it;
* `access_ok` — every access of a call, with the change of the queue that it makes;
* `not_failing` — no call aborts, and no call of the thread library reports an error;
* `queue_step`, `queue_return` — the queue changes only when `tail_` or `head_` is written, and
  a call that returns has made one such change, or it is a dequeue that found the queue empty
  while it held the lock, which may be long before its time is up;
* `linearizable_anyMode` — all this, and that the history is that of a FIFO queue, in every mode
  and with any number of threads.
-/
import Scal.LockBasedQueue
import Scal.SentinelList
import Scal.Chain

open Interleave Linearizability

namespace LockBasedQueue

variable {α : Type}

/-! ### The invariant -/

/-- `mine u` is the node of thread `u` that is not linked yet.  The owner of the lock `owes` a
broadcast once it has written `tail_`. -/
structure Ghost (α : Type) where
  order : List (Call (QueueOp α) (QueueRet α))
  queue : List α
  stat : ℕ → Progress (QueueOp α) (QueueRet α)
  mine : ℕ → Option ℕ
  owes : Bool

def Shared.next (σ : Shared α) (p : ℕ) : ℕ := (σ.node p).next

def Shared.value (σ : Shared α) (p : ℕ) : α := (σ.node p).value

/-- The values of the nodes after `head_`, up to `tail_`. -/
def Shared.queue (σ : Shared α) : List α := valuesTo σ.next σ.value σ.tail σ.alloc σ.head

/-- The nodes `ns` after `head_` hold the queue, and belong to no thread. -/
structure Nodes (σ : Shared α) (g : Ghost α) (ns : List ℕ) : Prop where
  list : SentinelList σ.next σ.value σ.head σ.tail ns g.queue
  bound : ∀ p ∈ σ.head :: ns, p < σ.alloc
  shared : ∀ p ∈ σ.head :: ns, ∀ u, g.mine u ≠ some p

structure HeapInv (σ : Shared α) (g : Ghost α) : Prop where
  nodes : ∃ ns, Nodes σ g ns
  mine : ∀ u n, g.mine u = some n → n < σ.alloc
  apart : ∀ u v n, g.mine u = some n → g.mine v = some n → u = v
  owes : g.owes = true → σ.globalLock.owner ≠ none
  wakes : ∀ u, σ.globalLock.waiting u = true → g.queue ≠ [] → g.owes = true

theorem HeapInv.queue_eq {σ : Shared α} {g : Ghost α} (hI : HeapInv σ g) : σ.queue = g.queue := by
  obtain ⟨ns, hns⟩ := hI.nodes
  have hlen := length_le_of_nodup hns.list.nodup hns.bound
  exact hns.list.valuesTo_eq (Nat.le_of_succ_le hlen)

def Inv (h : List (Event (QueueOp α) (QueueRet α))) (σ : Shared α) (g : Ghost α) : Prop :=
  Tracks (queueSpec α) h g.order g.queue g.stat ∧ HeapInv σ g

/-- What thread `u` relies on about the steps of the others. -/
structure Rely (u : ℕ) (σ : Shared α) (g : Ghost α) (σ' : Shared α) (g' : Ghost α) : Prop where
  lock : Monitor.Exclusive u σ.globalLock σ'.globalLock
  stat : g'.stat u = g.stat u
  mine : g'.mine u = g.mine u
  value : ∀ n, g.mine u = some n → σ'.value n = σ.value n
  head : σ.globalLock.owner = some u → σ'.head = σ.head
  tail : σ.globalLock.owner = some u → σ'.tail = σ.tail
  node : σ.globalLock.owner = some u → ∀ p < σ.alloc, σ'.node p = σ.node p
  queue : σ.globalLock.owner = some u → g'.queue = g.queue
  owes : σ.globalLock.owner = some u → g'.owes = g.owes

/-! ### Assertions -/

/-- The thread holds the lock. -/
def Local.holds : Local α → Bool
  | .enqNew _ | .enqLock _ | .getTime | .deqLock _ | .asleep _ | .relock _ _ | .aborted => false
  | _ => true

def Local.sleeps : Local α → Bool
  | .asleep _ => true
  | _ => false

def Local.owes : Local α → Bool
  | .enqBroadcast => true
  | _ => false

/-- What the monitor says about thread `u`. -/
structure Fits (σ : Shared α) (g : Ghost α) (u : ℕ) (holds sleeps owes : Bool) : Prop where
  owner : σ.globalLock.owner = some u ↔ holds = true
  waiting : σ.globalLock.waiting u = true → sleeps = true
  owes : holds = true → g.owes = owes

/-- The thread has a node for its item. -/
def Putting (σ : Shared α) (g : Ghost α) (u id : ℕ) (op : QueueOp α) (n : ℕ) : Prop :=
  op = .enqueue (σ.value n) ∧ g.mine u = some n ∧ g.stat u = .pending id op none

/-- The dequeue has not taken effect. -/
def Getting (g : Ghost α) (u id : ℕ) (op : QueueOp α) : Prop :=
  op = .dequeue ∧ ∃ seen, g.stat u = .pending id op seen

/-- The dequeue found the queue empty. -/
def SawEmpty (g : Ghost α) (u id : ℕ) (op : QueueOp α) : Prop :=
  op = .dequeue ∧ g.stat u = .pending id op (some (.dequeued none))

theorem SawEmpty.getting {g : Ghost α} {u id : ℕ} {op : QueueOp α} (h : SawEmpty g u id op) :
    Getting g u id op := ⟨h.1, _, h.2⟩

def Local.Ok (σ : Shared α) (g : Ghost α) (u id : ℕ) (op : QueueOp α) : Local α → Prop
  | .enqNew item => op = .enqueue item ∧ g.stat u = .pending id op none
  | .enqLock n => Putting σ g u id op n
  | .enqTail n => Putting σ g u id op n
  | .enqNext n tailOld => Putting σ g u id op n ∧ tailOld = σ.tail
  | .enqSwing n => Putting σ g u id op n ∧ σ.next σ.tail = n
  | .enqBroadcast => g.stat u = .done id op (.enqueued true)
  | .enqUnlock => g.stat u = .done id op (.enqueued true)
  | .getTime => Getting g u id op
  | .deqLock v => Getting g u id op ∧ v.invalid = false
  | .emptyHead v => Getting g u id op ∧ v.invalid = false
  | .emptyTail v head => Getting g u id op ∧ v.invalid = false ∧ head = σ.head
  | .unlockEmpty => SawEmpty g u id op
  | .wait v => SawEmpty g u id op ∧ v.invalid = false ∧ g.queue = []
  | .asleep v => SawEmpty g u id op ∧ v.invalid = false
  | .relock v _ => SawEmpty g u id op ∧ v.invalid = false
  | .assertHead => Getting g u id op ∧ g.queue ≠ []
  | .assertTail head => Getting g u id op ∧ g.queue ≠ [] ∧ head = σ.head
  | .itemHead => Getting g u id op ∧ g.queue ≠ []
  | .itemNext head => Getting g u id op ∧ g.queue ≠ [] ∧ head = σ.head
  | .itemValue next => Getting g u id op ∧ g.queue ≠ [] ∧ next = σ.next σ.head
  | .nextHead item => Getting g u id op ∧ ∃ q, g.queue = item :: q
  | .nextNext item head => Getting g u id op ∧ (∃ q, g.queue = item :: q) ∧ head = σ.head
  | .deqSwing item next => Getting g u id op ∧ (∃ q, g.queue = item :: q) ∧ next = σ.next σ.head
  | .deqUnlock none => SawEmpty g u id op
  | .deqUnlock (some x) => g.stat u = .done id op (.dequeued (some x))
  | .aborted => False

/-- What a call, or a thread without one, knows. -/
def Knows (σ : Shared α) (g : Ghost α) (u : ℕ) : Option (ℕ × QueueOp α × Local α) → Prop
  | none => Fits σ g u false false false ∧ g.stat u = .idle
  | some (id, op, l) => Fits σ g u l.holds l.sleeps l.owes ∧ l.Ok σ g u id op

/-- Thread `t` holds the lock and finds `head_ == tail_`. -/
def FoundEmpty (t : ℕ) (σ : Shared α) : Prop :=
  σ.globalLock.owner = some t ∧ σ.head = σ.tail ∧ σ.queue = []

/-- What a call of `op` that returns `r` without an effect has seen. -/
def Saw (t : ℕ) (op : QueueOp α) (r : QueueRet α) (σ : Shared α) : Prop :=
  op = .dequeue ∧ r = .dequeued none ∧ FoundEmpty t σ

/-! ### Stability -/

section Stable

variable {σ σ' : Shared α} {g g' : Ghost α} {u id n : ℕ} {op : QueueOp α} {b s o : Bool}

theorem Fits.rely (h : Fits σ g u b s o) (hr : Rely u σ g σ' g') : Fits σ' g' u b s o :=
  ⟨hr.lock.owner.trans h.owner, fun hw => h.waiting (hr.lock.waiting hw),
    fun hb => (hr.owes (h.owner.mpr hb)).trans (h.owes hb)⟩

theorem Putting.rely (h : Putting σ g u id op n) (hr : Rely u σ g σ' g') :
    Putting σ' g' u id op n := by
  obtain ⟨hop, hm, hs⟩ := h
  exact ⟨by rw [hr.value n hm]; exact hop, hr.mine.trans hm, hr.stat.trans hs⟩

theorem Getting.rely (h : Getting g u id op) (hr : Rely u σ g σ' g') : Getting g' u id op := by
  obtain ⟨hop, seen, hs⟩ := h
  exact ⟨hop, seen, hr.stat.trans hs⟩

theorem SawEmpty.rely (h : SawEmpty g u id op) (hr : Rely u σ g σ' g') : SawEmpty g' u id op :=
  ⟨h.1, hr.stat.trans h.2⟩

theorem HeapInv.head_lt (hI : HeapInv σ g) : σ.head < σ.alloc := by
  obtain ⟨ns, hns⟩ := hI.nodes
  exact hns.bound _ List.mem_cons_self

theorem HeapInv.tail_lt (hI : HeapInv σ g) : σ.tail < σ.alloc := by
  obtain ⟨ns, hns⟩ := hI.nodes
  exact hns.bound _ hns.list.tail_mem

theorem Rely.next_head (hr : Rely u σ g σ' g') (hI : HeapInv σ g)
    (ho : σ.globalLock.owner = some u) : σ'.next σ'.head = σ.next σ.head := by
  rw [hr.head ho, Shared.next, hr.node ho _ hI.head_lt, Shared.next]

theorem Rely.next_tail (hr : Rely u σ g σ' g') (hI : HeapInv σ g)
    (ho : σ.globalLock.owner = some u) : σ'.next σ'.tail = σ.next σ.tail := by
  rw [hr.tail ho, Shared.next, hr.node ho _ hI.tail_lt, Shared.next]

theorem Local.Ok.rely {l : Local α} (h : l.Ok σ g u id op) (hI : HeapInv σ g)
    (ho : l.holds = true → σ.globalLock.owner = some u) (hr : Rely u σ g σ' g') :
    l.Ok σ' g' u id op := by
  cases l with
  | enqNew item => exact ⟨h.1, hr.stat.trans h.2⟩
  | enqLock n => exact Putting.rely h hr
  | enqTail n => exact Putting.rely h hr
  | enqNext n tailOld => exact ⟨h.1.rely hr, h.2.trans (hr.tail (ho rfl)).symm⟩
  | enqSwing n => exact ⟨h.1.rely hr, (hr.next_tail hI (ho rfl)).trans h.2⟩
  | enqBroadcast => exact hr.stat.trans h
  | enqUnlock => exact hr.stat.trans h
  | getTime => exact Getting.rely h hr
  | deqLock v => exact ⟨h.1.rely hr, h.2⟩
  | emptyHead v => exact ⟨h.1.rely hr, h.2⟩
  | emptyTail v head => exact ⟨h.1.rely hr, h.2.1, h.2.2.trans (hr.head (ho rfl)).symm⟩
  | unlockEmpty => exact SawEmpty.rely h hr
  | wait v => exact ⟨h.1.rely hr, h.2.1, (hr.queue (ho rfl)).trans h.2.2⟩
  | asleep v => exact ⟨h.1.rely hr, h.2⟩
  | relock v timedOut => exact ⟨h.1.rely hr, h.2⟩
  | assertHead => exact ⟨h.1.rely hr, hr.queue (ho rfl) ▸ h.2⟩
  | assertTail head =>
    exact ⟨h.1.rely hr, hr.queue (ho rfl) ▸ h.2.1, h.2.2.trans (hr.head (ho rfl)).symm⟩
  | itemHead => exact ⟨h.1.rely hr, hr.queue (ho rfl) ▸ h.2⟩
  | itemNext head =>
    exact ⟨h.1.rely hr, hr.queue (ho rfl) ▸ h.2.1, h.2.2.trans (hr.head (ho rfl)).symm⟩
  | itemValue next =>
    exact ⟨h.1.rely hr, hr.queue (ho rfl) ▸ h.2.1, h.2.2.trans (hr.next_head hI (ho rfl)).symm⟩
  | nextHead item => exact ⟨h.1.rely hr, hr.queue (ho rfl) ▸ h.2⟩
  | nextNext item head =>
    exact ⟨h.1.rely hr, hr.queue (ho rfl) ▸ h.2.1, h.2.2.trans (hr.head (ho rfl)).symm⟩
  | deqSwing item next =>
    exact ⟨h.1.rely hr, hr.queue (ho rfl) ▸ h.2.1, h.2.2.trans (hr.next_head hI (ho rfl)).symm⟩
  | deqUnlock r =>
    cases r with
    | none => exact SawEmpty.rely h hr
    | some x => exact hr.stat.trans h
  | aborted => exact h

theorem Knows.rely {k : Option (ℕ × QueueOp α × Local α)} (h : Knows σ g u k) (hI : HeapInv σ g)
    (hr : Rely u σ g σ' g') : Knows σ' g' u k := by
  cases k with
  | none => exact ⟨h.1.rely hr, hr.stat.trans h.2⟩
  | some k => exact ⟨h.1.rely hr, h.2.rely hI h.1.owner.mpr hr⟩

end Stable

/-! ### Accesses -/

section Access

variable {h : List (Event (QueueOp α) (QueueRet α))} {σ σ' : Shared α} {g g' : Ghost α}
  {t u id n : ℕ} {op : QueueOp α} {l : Local α} {o : Local α ⊕ QueueRet α} {x : α}
  {r : QueueRet α}

/-- A call in this state may return `r`. -/
def Answers (st : Progress (QueueOp α) (QueueRet α)) (id : ℕ) (op : QueueOp α) (r : QueueRet α) :
    Prop :=
  st = .done id op r ∨ st = .pending id op (some r)

/-- What the step of thread `t` does to the queue and to its call. -/
def Turns (t : ℕ) (g : Ghost α) (σ' : Shared α) (g' : Ghost α) : Prop :=
  Progress.Step (queueSpec α) g.queue g'.queue (fun op r => Saw t op r σ') (g.stat t) (g'.stat t)

theorem Turns.of_stat {st st' : Progress (QueueOp α) (QueueRet α)} (hs : g.stat t = st)
    (hs' : g'.stat t = st')
    (h : Progress.Step (queueSpec α) g.queue g'.queue (fun op r => Saw t op r σ') st st') :
    Turns t g σ' g' := by
  subst hs hs'
  exact h

/-- Thread `t` may make a step to `σ'`, after which the queue is `q`, and its call goes on or
has returned. -/
def Advances (h : List (Event (QueueOp α) (QueueRet α))) (σ : Shared α) (g : Ghost α)
    (t id : ℕ) (op : QueueOp α) (q : List α) (σ' : Shared α) : Local α ⊕ QueueRet α → Prop
  | .inl l => ∃ g', g'.queue = q ∧ Inv (h ++ [.tau t]) σ' g' ∧ Knows σ' g' t (some (id, op, l)) ∧
    (∀ u, u ≠ t → Rely u σ g σ' g') ∧ Turns t g σ' g'
  | .inr r => ∃ g', g'.queue = q ∧ Inv (h ++ [.res t r]) σ' g' ∧ Knows σ' g' t none ∧
    (∀ u, u ≠ t → Rely u σ g σ' g') ∧ Turns t g σ' g' ∧ Answers (g.stat t) id op r

theorem Rely.refl (u : ℕ) (σ : Shared α) (g : Ghost α) : Rely u σ g σ g :=
  ⟨.refl u _, rfl, rfl, fun _ _ => rfl, fun _ => rfl, fun _ => rfl, fun _ _ _ => rfl,
    fun _ => rfl, fun _ => rfl⟩

/-- What the owner `t` of the lock changes, nobody else relies on. -/
theorem Rely.of_owner (ho : σ.globalLock.owner = some t) (hu : u ≠ t)
    (hm : Monitor.Exclusive u σ.globalLock σ'.globalLock) (hs : g'.stat u = g.stat u)
    (hmine : g'.mine u = g.mine u) (hv : ∀ n, σ'.value n = σ.value n) : Rely u σ g σ' g' := by
  have hne : σ.globalLock.owner ≠ some u := by
    rw [ho]
    exact fun h => hu (Option.some.inj h).symm
  exact ⟨hm, hs, hmine, fun n _ => hv n, fun h => absurd h hne, fun h => absurd h hne,
    fun h => absurd h hne, fun h => absurd h hne, fun h => absurd h hne⟩

theorem Rely.of_tick {elapsed : ℕ} (hr : Rely u (σ.tick elapsed) g σ' g') : Rely u σ g σ' g' :=
  ⟨hr.lock, hr.stat, hr.mine, hr.value, hr.head, hr.tail, hr.node, hr.queue, hr.owes⟩

/-- A step that changes nothing. -/
theorem read_ok (hI : Inv h σ g) (hk : Knows σ g t (some (id, op, l))) :
    Advances h σ g t id op g.queue σ (.inl l) :=
  ⟨g, rfl, ⟨hI.1.tau t, hI.2⟩, hk, fun u _ => .refl u σ g, .same rfl⟩

theorem lock_ok (hI : Inv h σ g) (hs : σ.lock t l = some (σ', o))
    (hl : l.holds = true ∧ l.owes = false) (hok : ∀ m, l.Ok (σ.setLock m) g t id op)
    (hf : Fits σ g t false false false) : Advances h σ g t id op g.queue σ' o := by
  obtain ⟨m, hm, he⟩ := Option.map_eq_some_iff.mp hs
  obtain ⟨ho, rfl⟩ := Monitor.acquire_eq_some.mp hm
  obtain ⟨rfl, rfl⟩ := Prod.mk.inj he
  -- nobody owes a broadcast while the lock is free
  have howes : g.owes = false := by
    cases hg : g.owes with
    | false => rfl
    | true => exact absurd ho (hI.2.owes hg)
  obtain ⟨⟨ns, hns⟩, hmine, hapart, -, hwakes⟩ := hI.2
  refine ⟨g, rfl, ⟨hI.1.tau t, ⟨⟨ns, hns.list, hns.bound, hns.shared⟩, hmine, hapart, ?_, hwakes⟩⟩,
    ⟨⟨?_, fun hw => ?_, ?_⟩, hok _⟩, fun u hu => ?_, .same rfl⟩
  · simp [Shared.setLock]
  · simp [Shared.setLock, hl.1]
  · cases hf.waiting hw
  · rw [hl.2]
    exact fun _ => howes
  · exact ⟨.acquire hu ho, rfl, rfl, fun _ _ => rfl, fun _ => rfl, fun _ => rfl, fun _ _ _ => rfl,
      fun _ => rfl, fun _ => rfl⟩

theorem unlock_ok (hI : Inv h σ g) (hf : Fits σ g t true false false)
    (ha : Answers (g.stat t) id op r) :
    Advances h σ g t id op g.queue (σ.setLock ⟨none, σ.globalLock.waiting⟩) (.inr r) := by
  have ho : σ.globalLock.owner = some t := hf.owner.mpr rfl
  have htr : ∃ L, Tracks (queueSpec α) (h ++ [.res t r]) L g.queue
      (Function.update g.stat t .idle) := by
    rcases ha with hd | hp
    · exact ⟨_, hI.1.resDone hd⟩
    · exact hI.1.resSeen (queueSpec_functional α) hp
  obtain ⟨L, htr⟩ := htr
  obtain ⟨⟨ns, hns⟩, hmine, hapart, -, hwakes⟩ := hI.2
  refine ⟨{ g with order := L, stat := Function.update g.stat t .idle }, rfl, ⟨htr,
    ⟨ns, hns.list, hns.bound, hns.shared⟩, hmine, hapart, fun hg => ?_, hwakes⟩, ⟨⟨?_, fun hw => ?_,
    fun hb => (by cases hb)⟩, Function.update_self ..⟩, fun u hu => ?_, ?_, ha⟩
  · have hg : g.owes = true := hg
    exact absurd (hf.owes rfl) (by simp [hg])
  · simp [Shared.setLock]
  · cases hf.waiting hw
  · exact .of_owner ho hu (.release hu ho) (Function.update_of_ne hu ..) rfl fun _ => rfl
  · exact .of_stat rfl (Function.update_self ..) (.stop rfl)

theorem Fits.unlock_eq (hf : Fits σ g t true false false) (r : QueueRet α) :
    σ.unlock t r = (σ.setLock ⟨none, σ.globalLock.waiting⟩, .inr r) := by
  rw [Shared.unlock, Monitor.release, if_pos (hf.owner.mpr rfl)]

/-- Whose node `n` is after thread `t` got or gave away one. -/
theorem mine_cases {mine : ℕ → Option ℕ} {v : Option ℕ}
    (hn : Function.update mine t v u = some n) : u = t ∧ v = some n ∨ u ≠ t ∧ mine u = some n := by
  by_cases hu : u = t
  · subst hu
    rw [Function.update_self] at hn
    exact .inl ⟨rfl, hn⟩
  · rw [Function.update_of_ne hu] at hn
    exact .inr ⟨hu, hn⟩

theorem newNode_ok [Inhabited α] (hI : Inv h σ g) (hf : Fits σ g t false false false)
    (hs : g.stat t = .pending id (.enqueue x) none) :
    Advances h σ g t id (.enqueue x) g.queue (σ.newNode x) (.inl (.enqLock σ.alloc)) := by
  obtain ⟨htr, ⟨ns, hns⟩, hmine, hapart, howes, hwakes⟩ := hI
  -- every node in use is older
  have hold : ∀ p < σ.alloc, (σ.newNode x).node p = σ.node p := fun p hp =>
    Function.update_of_ne hp.ne ..
  refine ⟨{ g with mine := Function.update g.mine t (some σ.alloc) }, rfl, ⟨htr.tau t,
    ⟨ns, ?_, ?_, ?_⟩, ?_, ?_, howes, hwakes⟩, ⟨⟨hf.owner, hf.waiting, hf.owes⟩, ?_,
    Function.update_self .., hs⟩, fun u hu => ?_, .same rfl⟩
  · refine hns.list.congr (fun p hp _ => ?_) fun p hp => ?_
    · rw [Shared.next, hold p (hns.bound p hp), Shared.next]
    · rw [Shared.value, hold p (hns.bound p (List.mem_cons_of_mem _ hp)), Shared.value]
  · exact fun p hp => (hns.bound p hp).trans (Nat.lt_succ_self _)
  · intro p hp u hu
    rcases mine_cases hu with ⟨-, hn⟩ | ⟨-, hn⟩
    · exact (hns.bound p hp).ne (Option.some.inj hn).symm
    · exact hns.shared p hp u hn
  · intro u n hu
    rcases mine_cases hu with ⟨-, hn⟩ | ⟨-, hn⟩
    · exact Option.some.inj hn ▸ Nat.lt_succ_self _
    · exact (hmine u n hn).trans (Nat.lt_succ_self _)
  · intro u v n hu hv
    rcases mine_cases hu with ⟨rfl, hn⟩ | ⟨-, hn⟩ <;>
      rcases mine_cases hv with ⟨rfl, hn'⟩ | ⟨-, hn'⟩
    · rfl
    · exact absurd (Option.some.inj hn).symm (hmine v n hn').ne
    · exact absurd (Option.some.inj hn').symm (hmine u n hn).ne
    · exact hapart u v n hn hn'
  · simp [Shared.value, Shared.newNode]
  · refine ⟨.refl u _, rfl, Function.update_of_ne hu .., fun n hn => ?_, fun _ => rfl, fun _ => rfl,
      fun _ p hp => hold p hp, fun _ => rfl, fun _ => rfl⟩
    rw [Shared.value, hold n (hmine u n hn), Shared.value]

theorem setNext_value (σ : Shared α) (p n m : ℕ) : (σ.setNext p n).value m = σ.value m := by
  by_cases hm : m = p
  · subst hm
    simp [Shared.value, Shared.setNext]
  · simp [Shared.value, Shared.setNext, hm]

theorem setNext_ok (hI : Inv h σ g) (hf : Fits σ g t true false false)
    (hp : Putting σ g t id op n) :
    Advances h σ g t id op g.queue (σ.setNext σ.tail n) (.inl (.enqSwing n)) := by
  obtain ⟨htr, ⟨ns, hns⟩, hmine, hapart, howes, hwakes⟩ := hI
  refine ⟨g, rfl, ⟨htr.tau t, ⟨ns, ?_, hns.bound, hns.shared⟩, hmine, hapart, howes, hwakes⟩,
    ⟨⟨hf.owner, hf.waiting, hf.owes⟩, ⟨?_, hp.2⟩, ?_⟩, fun u hu => ?_, .same rfl⟩
  · refine hns.list.congr (fun p _ hp => ?_) fun p _ => setNext_value σ σ.tail n p
    simp [Shared.next, Shared.setNext, hp]
  · rw [setNext_value]
    exact hp.1
  · simp [Shared.next, Shared.setNext]
  · exact .of_owner (hf.owner.mpr rfl) hu (.refl u _) rfl rfl (setNext_value σ σ.tail n)

/-- `dequeue_timeout` computes a deadline that `pthread_cond_timedwait` takes. -/
theorem deadline_valid (now timeoutMs : ℕ) :
    (Variant.timeout (deadline now timeoutMs)).invalid = false := by
  refine decide_eq_false ?_
  simp only [deadline]
  split_ifs with hlt <;> dsimp only <;> omega

/-- **The linearization point of an enqueue**: its node becomes the last one. -/
theorem enqSwing_ok (hI : Inv h σ g) (hf : Fits σ g t true false false)
    (hp : Putting σ g t id op n) (hn : σ.next σ.tail = n) :
    Advances h σ g t id op (g.queue ++ [σ.value n]) { σ with tail := n } (.inl .enqBroadcast) := by
  obtain ⟨htr, ⟨ns, hns⟩, hmine, hapart, howes, hwakes⟩ := hI
  obtain ⟨hop, hm, hs⟩ := hp
  have ho : σ.globalLock.owner = some t := hf.owner.mpr rfl
  -- the node is still the thread's own
  have hnew : n ∉ σ.head :: ns := fun hn => hns.shared n hn t hm
  have hnext : (queueSpec α).next g.queue op (.enqueued true) (g.queue ++ [σ.value n]) := by
    rw [hop]
    rfl
  have hlin := (htr.tau t).linearize hs hnext
  refine ⟨⟨_, _, _, Function.update g.mine t none, true⟩, rfl, ⟨hlin, ⟨ns ++ [n],
    hns.list.append hn hnew rfl, fun p hp => ?_, fun p hp u hu => ?_⟩, fun u m hu => ?_,
    fun u v m hu hv => ?_, fun _ => ?_, fun _ _ _ => rfl⟩, ⟨⟨hf.owner, hf.waiting, fun _ => rfl⟩,
    Function.update_self ..⟩, fun u hu => ?_, ?_⟩
  · rw [← List.cons_append] at hp
    rcases List.mem_append.mp hp with hp | hp
    · exact hns.bound p hp
    · exact List.mem_singleton.mp hp ▸ hmine t n hm
  · rcases mine_cases hu with ⟨-, hu⟩ | ⟨hut, hu⟩
    · cases hu
    · rw [← List.cons_append] at hp
      rcases List.mem_append.mp hp with hp | hp
      · exact hns.shared p hp u hu
      · exact hut (hapart u t n (List.mem_singleton.mp hp ▸ hu) hm)
  · rcases mine_cases hu with ⟨-, hu⟩ | ⟨-, hu⟩
    · cases hu
    · exact hmine u m hu
  · rcases mine_cases hu with ⟨-, hu⟩ | ⟨-, hu⟩
    · cases hu
    · rcases mine_cases hv with ⟨-, hv⟩ | ⟨-, hv⟩
      · cases hv
      · exact hapart u v m hu hv
  · show σ.globalLock.owner ≠ none
    simp [ho]
  · exact .of_owner ho hu (.refl u _) (Function.update_of_ne hu ..) (Function.update_of_ne hu ..)
      fun _ => rfl
  · exact .of_stat hs (Function.update_self ..) (.effect (by simp) hnext)

theorem broadcast_ok (hI : Inv h σ g) (hf : Fits σ g t true false true)
    (hs : g.stat t = .done id op (.enqueued true)) :
    Advances h σ g t id op g.queue (σ.setLock σ.globalLock.broadcast) (.inl .enqUnlock) := by
  obtain ⟨htr, ⟨ns, hns⟩, hmine, hapart, -, -⟩ := hI
  refine ⟨{ g with owes := false }, rfl, ⟨htr.tau t, ⟨ns, hns.list, hns.bound, hns.shared⟩, hmine,
    hapart, fun hg => (by cases hg), fun u hw => (by cases hw)⟩,
    ⟨⟨hf.owner, fun hw => (by cases hw), fun _ => rfl⟩, hs⟩, fun u hu => ?_, .same rfl⟩
  exact .of_owner (hf.owner.mpr rfl) hu .broadcast rfl rfl fun _ => rfl

/-- The queue is found empty, or it is not. -/
theorem emptyTail_ok {v : Variant} (hI : Inv h σ g) (hf : Fits σ g t true false false)
    (hg : Getting g t id op) (hv : v.invalid = false) :
    Advances h σ g t id op g.queue σ
      (.inl (if σ.head = σ.tail then v.onEmpty else v.onNonempty)) := by
  obtain ⟨ns, hns⟩ := hI.2.nodes
  by_cases he : σ.head = σ.tail
  · -- from here on the call may return false, whatever the others do before it does
    rw [if_pos he]
    have hq : g.queue = [] := hns.list.head_eq_tail.mp he
    obtain ⟨rfl, seen, hs⟩ := hg
    have hnext : (queueSpec α).next g.queue .dequeue (.dequeued none) g.queue := ⟨hq, hq⟩
    have hobs := (hI.1.tau t).observe hs hnext
    have hself := Function.update_self t (.pending id .dequeue (some (.dequeued none))) g.stat
    refine ⟨⟨g.order, g.queue, Function.update g.stat t (.pending id .dequeue
      (some (.dequeued none))), g.mine, g.owes⟩, rfl, ⟨hobs,
      ⟨ns, hns.list, hns.bound, hns.shared⟩, hI.2.mine, hI.2.apart, hI.2.owes,
      hI.2.wakes⟩, ?_, fun u hu => .of_owner (hf.owner.mpr rfl) hu (.refl u _)
      (Function.update_of_ne hu ..) rfl fun _ => rfl, ?_⟩
    · cases v with
      | default => exact ⟨⟨hf.owner, hf.waiting, hf.owes⟩, rfl, hself⟩
      | blocking => exact ⟨⟨hf.owner, hf.waiting, hf.owes⟩, ⟨rfl, hself⟩, rfl, hq⟩
      | timeout ts => exact ⟨⟨hf.owner, hf.waiting, hf.owes⟩, ⟨rfl, hself⟩, hv, hq⟩
    · exact .of_stat hs hself
        (.observe rfl ⟨rfl, rfl, hf.owner.mpr rfl, he, hI.2.queue_eq.trans hq⟩)
  · rw [if_neg he]
    have hq : g.queue ≠ [] := mt hns.list.head_eq_tail.mpr he
    cases v with
    | default => exact read_ok hI ⟨hf, hg, hq⟩
    | blocking => exact read_ok hI ⟨hf, hg, hq⟩
    | timeout ts => exact read_ok hI ⟨hf, hg, hq⟩

theorem wait_ok {v : Variant} (hI : Inv h σ g) (hf : Fits σ g t true false false)
    (hg : SawEmpty g t id op) (hv : v.invalid = false) (hq : g.queue = []) :
    Advances h σ g t id op g.queue
      (σ.setLock ⟨none, Function.update σ.globalLock.waiting t true⟩) (.inl (.asleep v)) := by
  obtain ⟨htr, ⟨ns, hns⟩, hmine, hapart, -, -⟩ := hI
  -- the queue is empty, so no broadcast is owed to the thread
  refine ⟨g, rfl, ⟨htr.tau t, ⟨ns, hns.list, hns.bound, hns.shared⟩, hmine, hapart, fun ho => ?_,
    fun u _ hne => absurd hq hne⟩, ⟨⟨⟨fun h => (by cases h), fun h => (by cases h)⟩, fun _ => rfl,
    fun h => (by cases h)⟩, hg, hv⟩, fun u hu => ?_, .same rfl⟩
  · exact absurd (hf.owes rfl) (by simp [ho])
  · exact .of_owner (hf.owner.mpr rfl) hu (.wait hu (hf.owner.mpr rfl)) rfl rfl fun _ => rfl

theorem wake_ok {v : Variant} {wake : Wake} (hI : Inv h σ g) (hf : Fits σ g t false true false)
    (hg : SawEmpty g t id op) (hv : v.invalid = false) (hs : σ.wake t v wake = some (σ', o)) :
    Advances h σ g t id op g.queue σ' o := by
  obtain ⟨htr, ⟨ns, hns⟩, hmine, hapart, howes, hwakes⟩ := hI
  -- a thread that leaves by itself
  have hleave : ∀ timedOut, Advances h σ g t id op g.queue (σ.setLock (σ.globalLock.leave t))
      (.inl (.relock v timedOut)) := by
    intro timedOut
    refine ⟨g, rfl, ⟨htr.tau t, ⟨ns, hns.list, hns.bound, hns.shared⟩, hmine, hapart, howes,
      fun u hu => hwakes u ((Monitor.Exclusive.leave (t := t)).waiting hu)⟩,
      ⟨⟨hf.owner, fun hw => ?_, hf.owes⟩, hg, hv⟩, fun u hu => ?_, .same rfl⟩
    · simp [Shared.setLock, Monitor.leave] at hw
    · exact ⟨.leave, rfl, rfl, fun _ _ => rfl, fun _ => rfl, fun _ => rfl, fun _ _ _ => rfl,
        fun _ => rfl, fun _ => rfl⟩
  cases wake with
  | woken =>
    obtain ⟨hw, he⟩ := Option.ite_none_left_eq_some.mp hs
    obtain ⟨rfl, rfl⟩ := Prod.mk.inj (Option.some.inj he)
    exact read_ok ⟨htr, ⟨ns, hns⟩, hmine, hapart, howes, hwakes⟩
      ⟨⟨hf.owner, fun h => absurd h hw, hf.owes⟩, hg, hv⟩
  | spurious =>
    obtain ⟨rfl, rfl⟩ := Prod.mk.inj (Option.some.inj hs)
    exact hleave false
  | timedOut =>
    obtain ⟨-, he⟩ := Option.ite_none_right_eq_some.mp hs
    obtain ⟨rfl, rfl⟩ := Prod.mk.inj (Option.some.inj he)
    exact hleave true

/-- **The linearization point of a dequeue**: the first item is taken. -/
theorem deqSwing_ok (hI : Inv h σ g) (hf : Fits σ g t true false false)
    (hg : Getting g t id op) {q : List α} (hq : g.queue = x :: q) :
    Advances h σ g t id op q { σ with head := σ.next σ.head } (.inl (.deqUnlock (some x))) := by
  obtain ⟨htr, ⟨ns, hns⟩, hmine, hapart, howes, hwakes⟩ := hI
  have ho : σ.globalLock.owner = some t := hf.owner.mpr rfl
  have hlist := hns.list
  rw [hq] at hlist
  obtain ⟨-, ns', rfl, hlist'⟩ := hlist.advance
  obtain ⟨rfl, seen, hs⟩ := hg
  have hnext : (queueSpec α).next g.queue .dequeue (.dequeued (some x)) q := hq
  have hlin := (htr.tau t).linearize hs hnext
  refine ⟨⟨_, q, _, g.mine, g.owes⟩, rfl, ⟨hlin, ⟨ns', hlist',
    fun p hp => hns.bound p (List.mem_cons_of_mem _ hp),
    fun p hp => hns.shared p (List.mem_cons_of_mem _ hp)⟩, hmine, hapart, howes, fun u hw _ => ?_⟩,
    ⟨⟨hf.owner, hf.waiting, hf.owes⟩, Function.update_self ..⟩, fun u hu => ?_, ?_⟩
  · exact hwakes u hw (by simp [hq])
  · exact .of_owner ho hu (.refl u _) (Function.update_of_ne hu ..) rfl fun _ => rfl
  · exact .of_stat hs (Function.update_self ..) (.effect (by simp [hq]) hnext)

/-- The first item, as it is read. -/
theorem HeapInv.value_next (hI : HeapInv σ g) (hq : g.queue ≠ []) :
    ∃ q, g.queue = σ.value (σ.next σ.head) :: q := by
  obtain ⟨ns, hns⟩ := hI.nodes
  have hlist := hns.list
  cases hg : g.queue with
  | nil => exact absurd hg hq
  | cons x q =>
    rw [hg] at hlist
    exact ⟨q, by rw [hlist.advance.1]⟩

/-- The change of the queue that an access makes, if any: the write of `tail_` appends the item
of the operation, that of `head_` removes the item about to be handed back. -/
def Local.Changes (op : QueueOp α) (q q' : List α) : Local α → Prop
  | .enqSwing _ => ∃ x, op = .enqueue x ∧ q' = q ++ [x]
  | .deqSwing x _ => op = .dequeue ∧ q = x :: q'
  | _ => q' = q

theorem access_ok [Inhabited α] {timeoutMs : ℕ} {wake : Wake} (hI : Inv h σ g)
    (hk : Knows σ g t (some (id, op, l))) (hs : access timeoutMs t wake σ l = some (σ', o)) :
    ∃ q, l.Changes op g.queue q ∧ Advances h σ g t id op q σ' o := by
  obtain ⟨hf, hok⟩ := hk
  cases l with
  | enqNew item =>
    obtain ⟨rfl, hp⟩ := hok
    obtain ⟨rfl, rfl⟩ := Prod.mk.inj (Option.some.inj hs)
    exact ⟨_, rfl, newNode_ok hI hf hp⟩
  | enqLock n => exact ⟨_, rfl, lock_ok hI hs ⟨rfl, rfl⟩ (fun _ => hok) hf⟩
  | enqTail n =>
    obtain ⟨rfl, rfl⟩ := Prod.mk.inj (Option.some.inj hs)
    exact ⟨_, rfl, read_ok hI ⟨hf, hok, rfl⟩⟩
  | enqNext n tailOld =>
    obtain ⟨rfl, rfl⟩ := Prod.mk.inj (Option.some.inj hs)
    obtain ⟨hp, rfl⟩ := hok
    exact ⟨_, rfl, setNext_ok hI hf hp⟩
  | enqSwing n =>
    obtain ⟨rfl, rfl⟩ := Prod.mk.inj (Option.some.inj hs)
    exact ⟨_, ⟨_, hok.1.1, rfl⟩, enqSwing_ok hI hf hok.1 hok.2⟩
  | enqBroadcast =>
    obtain ⟨rfl, rfl⟩ := Prod.mk.inj (Option.some.inj hs)
    exact ⟨_, rfl, broadcast_ok hI hf hok⟩
  | enqUnlock =>
    have he := Option.some.inj hs
    rw [hf.unlock_eq] at he
    obtain ⟨rfl, rfl⟩ := Prod.mk.inj he
    exact ⟨_, rfl, unlock_ok hI hf (.inl hok)⟩
  | getTime =>
    obtain ⟨rfl, rfl⟩ := Prod.mk.inj (Option.some.inj hs)
    exact ⟨_, rfl, read_ok hI ⟨hf, hok, deadline_valid σ.now timeoutMs⟩⟩
  | deqLock v => exact ⟨_, rfl, lock_ok hI hs ⟨rfl, rfl⟩ (fun _ => hok) hf⟩
  | emptyHead v =>
    obtain ⟨rfl, rfl⟩ := Prod.mk.inj (Option.some.inj hs)
    exact ⟨_, rfl, read_ok hI ⟨hf, hok.1, hok.2, rfl⟩⟩
  | emptyTail v head =>
    obtain ⟨rfl, rfl⟩ := Prod.mk.inj (Option.some.inj hs)
    obtain ⟨hg, hv, rfl⟩ := hok
    exact ⟨_, rfl, emptyTail_ok hI hf hg hv⟩
  | unlockEmpty =>
    obtain ⟨rfl, rfl⟩ := Prod.mk.inj (Option.some.inj hs)
    rw [Monitor.release, if_pos (hf.owner.mpr rfl)]
    exact ⟨_, rfl, unlock_ok hI hf (.inr hok.2)⟩
  | wait v =>
    obtain ⟨hg, hv, hq⟩ := hok
    rw [access, if_neg (by simp [hv]), Monitor.wait, if_pos (hf.owner.mpr rfl)] at hs
    obtain ⟨rfl, rfl⟩ := Prod.mk.inj (Option.some.inj hs)
    exact ⟨_, rfl, wait_ok hI hf hg hv hq⟩
  | asleep v => exact ⟨_, rfl, wake_ok hI hf hok.1 hok.2 hs⟩
  | relock v timedOut =>
    cases timedOut with
    | true => exact ⟨_, rfl, lock_ok hI hs ⟨rfl, rfl⟩ (fun _ => hok.1) hf⟩
    | false => exact ⟨_, rfl, lock_ok hI hs ⟨rfl, rfl⟩ (fun _ => ⟨hok.1.getting, hok.2⟩) hf⟩
  | assertHead =>
    obtain ⟨rfl, rfl⟩ := Prod.mk.inj (Option.some.inj hs)
    exact ⟨_, rfl, read_ok hI ⟨hf, hok.1, hok.2, rfl⟩⟩
  | assertTail head =>
    obtain ⟨rfl, rfl⟩ := Prod.mk.inj (Option.some.inj hs)
    obtain ⟨hg, hq, rfl⟩ := hok
    obtain ⟨ns, hns⟩ := hI.2.nodes
    rw [if_neg (mt hns.list.head_eq_tail.mp hq)]
    exact ⟨_, rfl, read_ok hI ⟨hf, hg, hq⟩⟩
  | itemHead =>
    obtain ⟨rfl, rfl⟩ := Prod.mk.inj (Option.some.inj hs)
    exact ⟨_, rfl, read_ok hI ⟨hf, hok.1, hok.2, rfl⟩⟩
  | itemNext head =>
    obtain ⟨rfl, rfl⟩ := Prod.mk.inj (Option.some.inj hs)
    obtain ⟨hg, hq, rfl⟩ := hok
    exact ⟨_, rfl, read_ok hI ⟨hf, hg, hq, rfl⟩⟩
  | itemValue next =>
    obtain ⟨rfl, rfl⟩ := Prod.mk.inj (Option.some.inj hs)
    obtain ⟨hg, hq, rfl⟩ := hok
    exact ⟨_, rfl, read_ok hI ⟨hf, hg, hI.2.value_next hq⟩⟩
  | nextHead item =>
    obtain ⟨rfl, rfl⟩ := Prod.mk.inj (Option.some.inj hs)
    exact ⟨_, rfl, read_ok hI ⟨hf, hok.1, hok.2, rfl⟩⟩
  | nextNext item head =>
    obtain ⟨rfl, rfl⟩ := Prod.mk.inj (Option.some.inj hs)
    obtain ⟨hg, hq, rfl⟩ := hok
    exact ⟨_, rfl, read_ok hI ⟨hf, hg, hq, rfl⟩⟩
  | deqSwing item next =>
    obtain ⟨rfl, rfl⟩ := Prod.mk.inj (Option.some.inj hs)
    obtain ⟨hg, ⟨q, hq⟩, rfl⟩ := hok
    exact ⟨_, ⟨hg.1, hq⟩, deqSwing_ok hI hf hg hq⟩
  | deqUnlock r =>
    have he := Option.some.inj hs
    rw [hf.unlock_eq] at he
    obtain ⟨rfl, rfl⟩ := Prod.mk.inj he
    cases r with
    | none => exact ⟨_, rfl, unlock_ok hI hf (.inr hok.2)⟩
    | some x => exact ⟨_, rfl, unlock_ok hI hf (.inl hok)⟩
  | aborted => exact hok.elim

theorem rely_tick (u : ℕ) (σ : Shared α) (elapsed : ℕ) (g : Ghost α) :
    Rely u σ g (σ.tick elapsed) g :=
  ⟨.refl u _, rfl, rfl, fun _ _ => rfl, fun _ => rfl, fun _ => rfl, fun _ _ _ => rfl,
    fun _ => rfl, fun _ => rfl⟩

theorem Inv.tick (hI : Inv h σ g) (elapsed : ℕ) : Inv h (σ.tick elapsed) g := by
  obtain ⟨htr, ⟨ns, hns⟩, hmine, hapart, howes, hwakes⟩ := hI
  exact ⟨htr, ⟨ns, hns.list, hns.bound, hns.shared⟩, hmine, hapart, howes, hwakes⟩

/-- Every access of a call, after some time has passed. -/
theorem run_ok [Inhabited α] {timeoutMs elapsed : ℕ} {wake : Wake} (hI : Inv h σ g)
    (hk : Knows σ g t (some (id, op, l)))
    (hs : access timeoutMs t wake (σ.tick elapsed) l = some (σ', o)) :
    ∃ q, l.Changes op g.queue q ∧ Advances h (σ.tick elapsed) g t id op q σ' o :=
  access_ok (hI.tick elapsed) (hk.rely hI.2 (rely_tick t _ elapsed _)) hs

/-- What a new call knows. -/
theorem start_ok {mode : ℕ} (op : QueueOp α)
    (hf : Fits σ g t false false false) (hs : g.stat t = .pending id op none) :
    Knows σ g t (some (id, op, start mode op)) := by
  cases op with
  | enqueue item => exact ⟨hf, rfl, hs⟩
  | dequeue =>
    have hg : Getting g t id .dequeue := ⟨rfl, _, hs⟩
    match mode with
    | 0 => exact ⟨hf, hg, rfl⟩
    | 1 => exact ⟨hf, hg, rfl⟩
    | 2 => exact ⟨hf, hg⟩
    | _ + 3 => exact ⟨hf, hg, rfl⟩

end Access

/-! ### All runs -/

section Runs

variable [Inhabited α] [DecidableEq α] {mode timeoutMs : ℕ}

/-- The call in state `st` of thread `t` has changed the queue as `st` says. -/
def Recorded (tr : List (Moment (machine α mode timeoutMs))) (t : ℕ)
    (st : Progress (QueueOp α) (QueueRet α)) : Prop :=
  st.Recorded (queueSpec α) Shared.queue Saw tr t

/-- The proof outline: every thread knows what its local state says. -/
def outline (α : Type) [Inhabited α] [DecidableEq α] (mode timeoutMs : ℕ) :
    Outline (machine α mode timeoutMs) (Ghost α) where
  inv w := Inv w.events w.shared w.ghost
  loc t f w := Knows w.shared w.ghost t (f.map fun f => (f.id, f.op, f.loc)) ∧
    Recorded w.trace t (w.ghost.stat t)
  rely t w w' := Rely t w.shared w.ghost w'.shared w'.ghost

variable {w : World (machine α mode timeoutMs) (Ghost α)} {t : ℕ}
  {f : Frame (machine α mode timeoutMs)} {ch : Choice} {σ : Shared α}

theorem inv_record {e : Event (QueueOp α) (QueueRet α)} {g : Ghost α}
    (hI : Inv (w.events ++ [e]) σ g) : (outline α mode timeoutMs).inv (w.record e σ g) := by
  show Inv (w.record e σ g).events σ g
  rwa [World.record_events]

/-- What a step does to the queue in the memory. -/
theorem Turns.recorded {e : Event (QueueOp α) (QueueRet α)} {g : Ghost α}
    (hturn : Turns t w.ghost σ g) (hH : HeapInv w.shared w.ghost) (hH' : HeapInv σ g)
    (hrec : Recorded w.trace t (w.ghost.stat t)) (he : e.thread = t) :
    Recorded (w.record e σ g).trace t (g.stat t) := by
  refine Progress.Step.recorded ?_ hrec he
  rw [hH.queue_eq, hH'.queue_eq]
  exact hturn

theorem outline_sound : (outline α mode timeoutMs).Sound always where
  init := by
    refine ⟨⟨[], [], fun _ => .idle, fun _ => none, false⟩, ⟨tracks_init _, ⟨[], .single _ _ _,
      fun p hp => ?_, fun _ _ _ h => (by cases h)⟩, fun _ _ h => (by cases h),
      fun _ _ _ h => (by cases h), fun h => (by cases h), fun _ h => (by cases h)⟩,
      fun t => ⟨⟨⟨⟨fun h => (by cases h), fun h => (by cases h)⟩, fun h => (by cases h),
      fun h => (by cases h)⟩, rfl⟩, trivial⟩⟩
    rw [List.mem_singleton.mp hp]
    exact Nat.zero_lt_one
  stable := by
    intro w e σ g t f hw _ hf he hr
    have hr : Rely t w.shared w.ghost σ g := hr
    refine ⟨hf.1.rely hw.2 hr, ?_⟩
    show Recorded (w.record e σ g).trace t (g.stat t)
    rw [hr.stat]
    exact hf.2.other he
  call := by
    intro w t op hw hidle _
    obtain ⟨⟨hf, hs⟩, -⟩ := hidle
    obtain ⟨htr, ⟨ns, hns⟩, hmine, hapart, howes, hwakes⟩ := hw
    have hself := Function.update_self t (.pending w.trace.length op none) w.ghost.stat
    rw [← World.length_events] at hself
    refine ⟨{ w.ghost with
        stat := Function.update w.ghost.stat t (.pending w.events.length op none) },
      ⟨?_, ⟨ns, hns.list, hns.bound, hns.shared⟩, hmine, hapart, howes, hwakes⟩,
      ⟨start_ok op ⟨hf.owner, hf.waiting, hf.owes⟩ ?_, ?_⟩, fun u hu => ?_⟩
    · rw [World.record_events]
      exact htr.inv hs op
    · rw [← World.length_events]
      exact hself
    · show Recorded _ t (Function.update w.ghost.stat t (.pending w.events.length op none) t)
      rw [hself, World.length_events]
      exact Progress.recorded_begin
    · exact ⟨.refl u _, Function.update_of_ne hu .., rfl, fun _ _ => rfl, fun _ => rfl,
        fun _ => rfl, fun _ _ _ => rfl, fun _ => rfl, fun _ => rfl⟩
  run := by
    intro w t f ch σ o hw hf _ hs
    obtain ⟨q, -, hok⟩ := run_ok hw hf.1 hs
    cases o with
    | inl l =>
      obtain ⟨g, -, hI, hk, hrely, hturn⟩ := hok
      exact ⟨g, inv_record hI, ⟨hk, hturn.recorded hw.2 hI.2 hf.2 rfl⟩,
        fun u hu => (hrely u hu).of_tick⟩
    | inr r =>
      obtain ⟨g, -, hI, hk, hrely, hturn, -⟩ := hok
      exact ⟨g, inv_record hI, ⟨hk, hturn.recorded hw.2 hI.2 hf.2 rfl⟩,
        fun u hu => (hrely u hu).of_tick⟩

/-- What every thread knows in a reachable configuration. -/
theorem exists_ghost {c : Config (machine α mode timeoutMs)}
    (hc : Reach (machine α mode timeoutMs) always c) :
    ∃ g, Inv c.events c.shared g ∧ (∀ t f, c.frames t = some f →
      Knows c.shared g t (some (f.id, f.op, f.loc)) ∧ Recorded c.trace t (g.stat t)) := by
  obtain ⟨g, hw, hloc⟩ := outline_sound.reach hc
  refine ⟨g, hw, fun t f hf => ?_⟩
  have h := hloc t
  rw [hf] at h
  exact h

/-- The next call of the thread library reports an error: the thread locks what it holds,
unlocks what it does not hold, or waits without the lock or until a time that is not valid. -/
def Local.fails (t : ℕ) (m : Monitor) : Local α → Bool
  | .enqLock _ | .deqLock _ | .relock _ _ => m.owner = some t
  | .enqUnlock | .unlockEmpty | .deqUnlock _ => (m.release t).isNone
  | .wait v => v.invalid || (m.wait t).isNone
  | _ => false

theorem not_failing {c : Config (machine α mode timeoutMs)}
    (hc : Reach (machine α mode timeoutMs) always c) {t : ℕ}
    {f : Frame (machine α mode timeoutMs)} (hf : c.frames t = some f) :
    f.loc ≠ .aborted ∧ f.loc.fails t c.shared.globalLock = false := by
  obtain ⟨g, -, hk⟩ := exists_ghost hc
  obtain ⟨⟨hfits, hok⟩, -⟩ := hk t f hf
  obtain ⟨id, op, l⟩ := f
  constructor
  · rintro rfl
    exact hok
  · -- the lock is where the local state says, and a deadline is a valid time
    have hrelease : l.holds = true → (c.shared.globalLock.release t).isNone = false := by
      intro hl
      rw [Monitor.release, if_pos (hfits.owner.mpr hl)]
      rfl
    have hfree : l.holds = false → c.shared.globalLock.owner ≠ some t := by
      intro hl ho
      rw [hfits.owner.mp ho] at hl
      cases hl
    cases l with
    | enqLock n => exact decide_eq_false (hfree rfl)
    | deqLock v => exact decide_eq_false (hfree rfl)
    | relock v timedOut => exact decide_eq_false (hfree rfl)
    | enqUnlock => exact hrelease rfl
    | unlockEmpty => exact hrelease rfl
    | deqUnlock r => exact hrelease rfl
    | wait v =>
      have hwait : c.shared.globalLock.wait t = some _ := if_pos (hfits.owner.mpr rfl)
      rw [Local.fails, hok.2.1, hwait]
      rfl
    | _ => rfl

/-- A step changes the queue only as `Changes` says. -/
theorem queue_step {c c' : Config (machine α mode timeoutMs)}
    (hc : Reach (machine α mode timeoutMs) always c) {t : ℕ} {ch : Choice}
    (h : c.next (.run t ch) = some c') :
    ∃ f, c.frames t = some f ∧ f.loc.Changes f.op c.shared.queue c'.shared.queue := by
  obtain ⟨f, σ, o, hf, hs, rfl⟩ := Config.next_run h
  obtain ⟨g, hI, hk⟩ := exists_ghost hc
  obtain ⟨q, hq, hok⟩ := run_ok hI (hk t f hf).1 hs
  have hσ : σ.queue = q := by
    cases o with
    | inl l =>
      obtain ⟨g', rfl, hI', -⟩ := hok
      exact hI'.2.queue_eq
    | inr r =>
      obtain ⟨g', rfl, hI', -⟩ := hok
      exact hI'.2.queue_eq
  refine ⟨f, hf, ?_⟩
  show f.loc.Changes f.op c.shared.queue σ.queue
  rw [hI.2.queue_eq, hσ]
  exact hq

/-- What a call of `op` that returns `r` has done to the queue, where `cs` are the changes it
made and `empty` says that it found the queue empty. -/
def Effect (cs : List (List α × List α)) (empty : Prop) : QueueOp α → QueueRet α → Prop
  | .enqueue x, .enqueued ok => ok = true ∧ ∃ q, cs = [(q, q ++ [x])]
  | .dequeue, .dequeued (some x) => ∃ q, cs = [(x :: q, q)]
  | .dequeue, .dequeued none => cs = [] ∧ empty
  | _, _ => False

omit [Inhabited α] [DecidableEq α] in
theorem Effect.of_step {q q' : List α} {op : QueueOp α} {r : QueueRet α} {empty : Prop}
    (h : QueueStep q op r q') (hne : q ≠ q') : Effect [(q, q')] empty op r := by
  rcases op with x | _ <;> rcases r with (_ | _) | (_ | x) <;> simp only [QueueStep] at h
  · exact ⟨rfl, q, by rw [h]⟩
  · exact absurd (h.1.trans h.2.symm) hne
  · exact ⟨q', by rw [h]⟩

/-- A call that returns has done to the queue what its result says. -/
theorem queue_return {c c' : Config (machine α mode timeoutMs)}
    (hc : Reach (machine α mode timeoutMs) always c) {t : ℕ}
    {f : Frame (machine α mode timeoutMs)} {r : QueueRet α} (h : Returning c t f r c') :
    Effect (changes Shared.queue c'.trace t f.id) (Since c'.trace f.id (FoundEmpty t)) f.op r := by
  obtain ⟨hf, ch, σ, hs, rfl⟩ := h
  obtain ⟨g, hI, hk⟩ := exists_ghost hc
  obtain ⟨hkn, hrec⟩ := hk t f hf
  obtain ⟨q, -, g', -, hI', hidle, -, hturn, ha⟩ := run_ok hI hkn hs
  rw [Turns, hidle.2] at hturn
  -- the last access of a call does not change the queue
  have hq : σ.queue = c.shared.queue := by
    rw [hI.2.queue_eq, hI'.2.queue_eq, hturn.eq_of_idle]
  have hsame : ∀ {i}, i ≤ c.trace.length → changes Shared.queue
      (c.record t (.res t r) σ none).trace t i = changes Shared.queue c.trace t i := fun hi =>
    changes_same (w := ⟨c.shared, c.trace, g⟩) (g := g) hi hq
  rcases ha with hd | hp
  · -- it took effect before
    rw [hd] at hrec
    obtain ⟨hi, s, s', hcs, hstep⟩ := hrec
    rw [hsame hi, hcs]
    exact .of_step hstep (ne_of_mem_changes (hcs ▸ List.mem_singleton_self _))
  · -- it saw the queue empty before
    rw [hp] at hrec
    obtain ⟨hi, hcs, hsaw⟩ := hrec
    obtain ⟨m, hm, hop, rfl, he⟩ := hsaw r rfl
    rw [hsame hi, hcs, hop]
    exact ⟨rfl, Since.append ⟨m, hm, he⟩⟩

/-- **The lock-based queue is a linearizable FIFO queue**, whichever way its dequeues wait.
No call of it aborts, and none makes a call of the thread library that reports an error.  The
queue changes only when an enqueue writes `tail_`, which appends its item, and when a dequeue
writes `head_`, which removes its item; and a call that returns has made that one change, or it
is a dequeue that found `head_ == tail_` while it held the lock. -/
theorem linearizable_anyMode {c : Config (machine α mode timeoutMs)}
    (hc : Reach (machine α mode timeoutMs) always c) :
    Linearizable (queueSpec α) c.events ∧
    (∀ t f, c.frames t = some f →
      f.loc ≠ .aborted ∧ f.loc.fails t c.shared.globalLock = false) ∧
    (∀ t op c', c.next (.call t op) = some c' → c'.shared.queue = c.shared.queue) ∧
    (∀ t ch c', c.next (.run t ch) = some c' →
      ∃ f, c.frames t = some f ∧ f.loc.Changes f.op c.shared.queue c'.shared.queue) ∧
    ∀ t f r c', Returning c t f r c' →
      Effect (changes Shared.queue c'.trace t f.id) (Since c'.trace f.id (FoundEmpty t))
        f.op r := by
  obtain ⟨g, hI, -⟩ := exists_ghost hc
  refine ⟨hI.1.linearizable, fun t f => not_failing hc, fun t op c' h => ?_,
    fun t ch c' => queue_step hc, fun t f r c' => queue_return hc⟩
  obtain ⟨-, -, rfl⟩ := Config.next_call h
  rfl

end Runs

/-- A dequeue waits for an item, and one in vain; all but its last access. -/
def waitTwice : List (Action (machine ℕ 2 1)) :=
  List.flatten [[.call 0 .dequeue], turns 0 ⟨0, .woken⟩ 5, [.call 1 (.enqueue 5)],
    turns 1 ⟨0, .woken⟩ 7, turns 0 ⟨0, .woken⟩ 13, [.call 1 .dequeue], turns 1 ⟨0, .woken⟩ 5,
    [.run 1 ⟨1000000, .timedOut⟩], turns 1 ⟨0, .woken⟩ 1]

theorem linearizable_anyMode_waitTwice :
    ∃ (c c' : Config (machine ℕ 2 1)) (f : Frame (machine ℕ 2 1)),
      .res 0 (.dequeued (some 5)) ∈ c.events ∧ Returning c 1 f (.dequeued none) c' ∧
      Linearizable (queueSpec ℕ) c.events ∧ f.loc.fails 1 c.shared.globalLock = false ∧
      Effect (changes Shared.queue c'.trace 1 f.id) (Since c'.trace f.id (FoundEmpty 1)) f.op
        (.dequeued none) := by
  obtain ⟨c, hc, h⟩ := Reach.exists_of_any always waitTwice
    (fun c => decide (.res 0 (.dequeued (some 5)) ∈ c.events ∧
      nextResult c 1 ⟨0, .woken⟩ = some (.dequeued none))) (by decide)
  obtain ⟨hres, hnext⟩ := of_decide_eq_true h
  obtain ⟨f, c', hr⟩ := returning_nextResult hnext
  obtain ⟨hlin, hhealthy, -, -, hreturn⟩ := linearizable_anyMode hc
  exact ⟨c, c', f, hres, hr, hlin, (hhealthy 1 f hr.1).2, hreturn 1 f _ c' hr⟩

end LockBasedQueue

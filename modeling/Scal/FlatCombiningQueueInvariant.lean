/-
What the threads of a flat combining queue know of each other.

* `SingleList.Holds` — the list holds the items `q`, with the change that each access
  of `enqueue` and `dequeue` makes;
* `scan_enqueue`, `scan_dequeue` — the accesses that a combiner makes to the list are the
  `enqueue` and the `dequeue` of the list of one thread;
* `Phase`, `SlotOk` — whose turn it is to write the slot of a thread: its owner's when
  it is vacant or answered, the combiner's when it is asked or applying;
* `lockHolder` — the thread that holds the lock, read off the trace;
* `LogOk` — every request in the log was applied at the time that is noted there, by the
  thread that held the lock;
* `Rely` — what a thread may rely on about the steps of the others.
-/
import Scal.FlatCombiningQueue
import Scal.SingleList

open Interleave Linearizability

/-! ### The list -/

namespace SingleList

variable {α : Type}

/-- The list of a flat combining queue, as the list of one thread. -/
def ofCombining (l : FlatCombiningQueue.SingleList α) : SingleList (Option α) :=
  ⟨fun p => (l.node p).next, fun p => (l.node p).value, l.alloc, l.head, l.tail⟩

end SingleList

namespace FlatCombiningQueue

variable {α : Type}

namespace SingleList

variable {l : SingleList α} {q : List α} {n : ℕ} {x : α}

def Holds (l : SingleList α) (q : List α) : Prop := (SingleList.ofCombining l).Holds (q.map some)

/-- Beside the items `q` there is a node `n` for the item `x`, which is not linked yet. -/
def New (l : SingleList α) (q : List α) (n : ℕ) (x : α) : Prop :=
  ∃ ns, (SingleList.ofCombining l).Nodes ns (q.map some) ∧ n ∉ l.head :: ns ∧ n < l.alloc ∧
    (l.node n).value = some x

theorem New.holds (h : l.New q n x) : l.Holds q := by
  obtain ⟨ns, hns, -⟩ := h
  exact ⟨ns, hns⟩

theorem holds_init : (init : SingleList α).Holds [] := SingleList.new_holds _ _

theorem follow_eq (node : ℕ → Node α) (tail fuel p : ℕ) : follow node tail fuel p =
    valuesTo (fun p => (node p).next) (fun p => (node p).value) tail fuel p := by
  induction fuel generalizing p with
  | zero => rfl
  | succ fuel ih => rw [follow, valuesTo, ih]

theorem Holds.items (h : l.Holds q) : l.items = q.map some := by
  obtain ⟨ns, hlist, hb⟩ := h
  have hlen := length_le_of_nodup hlist.nodup hb
  rw [SingleList.items, follow_eq]
  exact hlist.valuesTo_eq (Nat.le_of_succ_le hlen)

theorem Holds.head_eq_tail (h : l.Holds q) : l.head = l.tail ↔ q = [] := by
  have h : (SingleList.ofCombining l).Holds (q.map some) := h
  exact h.head_eq_tail.trans List.map_eq_nil_iff

theorem Holds.newNode (h : l.Holds q) (x : α) : (l.newNode (some x)).New q l.alloc x := by
  obtain ⟨ns, hlist, hb⟩ := h
  have hold : ∀ p ∈ l.head :: ns, (l.newNode (some x)).node p = l.node p := fun p hp =>
    Function.update_of_ne (hb p hp).ne ..
  refine ⟨ns, ⟨hlist.congr (fun p hp _ => ?_) fun p hp => ?_, fun p hp =>
    (hb p hp).trans (Nat.lt_succ_self _)⟩, fun hm => Nat.lt_irrefl _ (hb _ hm),
    Nat.lt_succ_self _, ?_⟩
  · exact congrArg Node.next (hold p hp)
  · exact congrArg Node.value (hold p (List.mem_cons_of_mem _ hp))
  · simp [SingleList.newNode]

theorem setNext_value (l : SingleList α) (p m : ℕ) :
    ((l.setNext p n).node m).value = (l.node m).value := by
  by_cases hm : m = p
  · subst hm
    simp [SingleList.setNext]
  · simp [SingleList.setNext, hm]

theorem New.setNext (h : l.New q n x) :
    (l.setNext l.tail n).New q n x ∧ ((l.setNext l.tail n).node l.tail).next = n := by
  obtain ⟨ns, ⟨hlist, hb⟩, hnew, hlt, hx⟩ := h
  refine ⟨⟨ns, ⟨hlist.congr (fun p _ hp => ?_) fun p _ => setNext_value l l.tail p, hb⟩, hnew, hlt,
    (setNext_value l l.tail n).trans hx⟩, ?_⟩
  · have hp : p ≠ l.tail := hp
    simp [SingleList.ofCombining, SingleList.setNext, hp]
  · simp [SingleList.setNext]

theorem New.swing (h : l.New q n x) (hnext : (l.node l.tail).next = n) :
    Holds { l with tail := n } (q ++ [x]) := by
  obtain ⟨ns, ⟨hlist, hb⟩, hnew, hlt, hx⟩ := h
  refine ⟨ns ++ [n], ?_, fun p hp => ?_⟩
  · rw [List.map_append]
    exact hlist.append hnext hnew hx
  · rw [← List.cons_append] at hp
    rcases List.mem_append.mp hp with hp | hp
    · exact hb p hp
    · exact List.mem_singleton.mp hp ▸ hlt

/-- The first item, and the list without it. -/
theorem Holds.swing (h : l.Holds (x :: q)) :
    (l.node (l.node l.head).next).value = some x ∧
      Holds { l with head := (l.node l.head).next } q :=
  SingleList.Holds.advance h

end SingleList

/-! ### The combiner alone -/

/-- At most `k` accesses of `scan_combine_apply` in a row. -/
def scanRun (numOps : ℕ) : ℕ → Shared α × Option (Scan α) → Shared α × Option (Scan α)
  | 0, p => p
  | _ + 1, (σ, none) => (σ, none)
  | k + 1, (σ, some s) => scanRun numOps k (scanStep numOps σ s)

section Alone

variable {numOps i : ℕ} {σ : Shared α}

theorem ofCombining_enqueue (l : SingleList α) (item : Option α) :
    SingleList.ofCombining { (l.newNode item).setNext l.tail l.alloc with tail := l.alloc } =
      (SingleList.ofCombining l).enqueue item := by
  -- the new node is written before it is linked, in one call of the list both are one update
  refine SingleList.ext (funext fun p => ?_) (funext fun p => ?_) rfl rfl rfl
  · show (((l.newNode item).setNext l.tail l.alloc).node p).next =
      Function.update (fun p => (l.node p).next) l.tail l.alloc p
    by_cases hp : p = l.tail
    · subst hp
      simp [SingleList.setNext]
    · have hset : ((l.newNode item).setNext l.tail l.alloc).node p = (l.newNode item).node p :=
        Function.update_of_ne hp ..
      rw [hset, Function.update_of_ne hp]
      by_cases ha : p = l.alloc
      · subst ha
        simp [SingleList.newNode]
      · simp [SingleList.newNode, ha]
  · show (((l.newNode item).setNext l.tail l.alloc).node p).value =
      Function.update (fun p => (l.node p).value) l.alloc item p
    rw [SingleList.setNext_value]
    by_cases ha : p = l.alloc
    · subst ha
      simp [SingleList.newNode]
    · simp [SingleList.newNode, ha]

/-- The accesses of `queue_->enqueue` are one `enqueue` of the list. -/
theorem scan_enqueue : ∃ list,
    scanRun numOps 5 (σ, some (.enqData i)) = ({ σ with queue := list }, some (.setData i none)) ∧
      SingleList.ofCombining list =
        (SingleList.ofCombining σ.queue).enqueue (σ.operations i).data :=
  ⟨_, rfl, ofCombining_enqueue σ.queue (σ.operations i).data⟩

/-- The accesses of `queue_->is_empty` and `queue_->dequeue` are one `dequeue` of the list. -/
theorem scan_dequeue : ∃ k r list,
    scanRun numOps k (σ, some (.emptyHead i)) =
        ({ σ with queue := list }, some (.setData i (Option.join r))) ∧
      (SingleList.ofCombining σ.queue).dequeue = (r, SingleList.ofCombining list) := by
  by_cases he : σ.queue.head = σ.queue.tail
  · refine ⟨2, none, σ.queue, ?_, if_pos he⟩
    simp [scanRun, scanStep, he]
  · refine ⟨10, _, { σ.queue with head := (σ.queue.node σ.queue.head).next }, ?_, if_neg he⟩
    simp [scanRun, scanStep, he, SingleList.ofCombining]

end Alone

/-! ### Slots -/

/-- Whose turn it is at a slot: the owner's (`vacant`), the combiner's (`asked`, and
`applying` once the request has taken effect), the owner's again (`answered`). -/
inductive Phase where
  | vacant
  | asked
  | applying
  | answered
  deriving DecidableEq

/-- What the combiner writes for a result. -/
def answer : QueueRet α → Operation α
  | .enqueued _ => ⟨.done, none⟩
  | .dequeued x => ⟨.done, x⟩

/-- The result is one of the operation. -/
def Matches : QueueOp α → QueueRet α → Prop
  | .enqueue _, .enqueued ok => ok = true
  | .dequeue, .dequeued _ => True
  | _, _ => False

theorem matches_of_step {q q' : List α} {op : QueueOp α} {r : QueueRet α}
    (h : QueueStep q op r q') : Matches op r := by
  rcases op with x | _ <;> rcases r with (_ | _) | (_ | x) <;> simp_all [QueueStep, Matches]

def SlotOk (o : Operation α) : Phase → Progress (QueueOp α) (QueueRet α) → Prop
  | .vacant, _ => o.opcode = .done
  | .asked, st => ∃ id op, st = .pending id op none ∧ o = request op
  | .applying, st => ∃ id op r, st = .done id op r ∧ o.opcode = (request op).opcode ∧ Matches op r
  | .answered, st => ∃ id op r, st = .done id op r ∧ o = answer r ∧ Matches op r

/-! ### The log -/

/-- A request that was applied to the list, and the time of the access by which it took
effect. -/
structure Application (α : Type) where
  call : Call (QueueOp α) (QueueRet α)
  time : ℕ

section Log

variable {numOps : ℕ}

/-- The thread that holds the lock. -/
def lockHolder (tr : List (Moment (machine α numOps))) : Option ℕ :=
  tr.foldl (fun h m => if m.after.globalLock = m.before.globalLock then h
    else if m.after.globalLock then some m.event.thread else none) none

theorem lockHolder_append (tr : List (Moment (machine α numOps))) (m : Moment (machine α numOps)) :
    lockHolder (tr ++ [m]) = if m.after.globalLock = m.before.globalLock then lockHolder tr
      else if m.after.globalLock then some m.event.thread else none := by
  simp [lockHolder]

/-- The access `m` applies the request of `a` to the list: the thread that makes it holds
the lock, and the request is published. -/
def Applies (tr : List (Moment (machine α numOps))) (a : Application α)
    (m : Moment (machine α numOps)) : Prop :=
  ∃ u q q', (tr.map (·.event))[a.call.id]? = some (.inv u a.call.op) ∧
    lockHolder (tr.take a.time) = some m.event.thread ∧
    m.before.operations u = request a.call.op ∧
    m.before.queue.items = q.map some ∧ m.after.queue.items = q'.map some ∧
    QueueStep q a.call.op a.call.ret q'

/-- The requests in the log were applied one after the other, each of them before its
call returned, and the list changed at no other time. -/
structure LogOk (tr : List (Moment (machine α numOps))) (log : List (Application α)) : Prop where
  applied : ∀ a ∈ log, ∃ m, tr[a.time]? = some m ∧ Applies tr a m
  increasing : log.Pairwise fun a b => a.time < b.time
  changes : ∀ k m, tr[k]? = some m → m.before.queue.items ≠ m.after.queue.items →
    ∃ a ∈ log, a.time = k
  within : ∀ a ∈ log, a.call.id < a.time ∧
    ∀ j r, Returns (tr.map (·.event)) a.call.id j r → a.time < j

variable {tr : List (Moment (machine α numOps))} {log : List (Application α)}
  {m : Moment (machine α numOps)} {a : Application α}

theorem Applies.append (h : Applies tr a m) (ht : a.time < tr.length)
    (m' : Moment (machine α numOps)) : Applies (tr ++ [m']) a m := by
  obtain ⟨u, q, q', hinv, hl, hrest⟩ := h
  refine ⟨u, q, q', ?_, ?_, hrest⟩
  · rw [List.map_append,
      List.getElem?_append_left (List.getElem?_eq_some_iff.mp hinv).choose]
    exact hinv
  · rwa [List.take_append_of_le_length ht.le]

theorem LogOk.time_lt (hl : LogOk tr log) (ha : a ∈ log) : a.time < tr.length := by
  obtain ⟨m, hm, -⟩ := hl.applied a ha
  exact (List.getElem?_eq_some_iff.mp hm).choose

/-- What is kept by any access. -/
theorem LogOk.kept (hl : LogOk tr log) (ha : a ∈ log) :
    (∃ m', (tr ++ [m])[a.time]? = some m' ∧ Applies (tr ++ [m]) a m') ∧ a.call.id < a.time ∧
      ∀ j r, Returns ((tr ++ [m]).map (·.event)) a.call.id j r → a.time < j := by
  have ht := hl.time_lt ha
  obtain ⟨m', hm', happ⟩ := hl.applied a ha
  refine ⟨⟨m', ?_, happ.append ht m⟩, (hl.within a ha).1, fun j r hr => ?_⟩
  · rwa [List.getElem?_append_left ht]
  · rw [List.map_append] at hr
    rcases returns_append_cases hr with hr | ⟨rfl, -⟩
    · exact (hl.within a ha).2 j r hr
    · simpa using ht

theorem LogOk.extend (hl : LogOk tr log) (hm : m.before.queue.items = m.after.queue.items) :
    LogOk (tr ++ [m]) log := by
  refine ⟨fun a ha => (hl.kept ha).1, hl.increasing, fun k m' hk hne => ?_,
    fun a ha => (hl.kept ha).2⟩
  rcases Nat.lt_or_ge k tr.length with hlt | hge
  · rw [List.getElem?_append_left hlt] at hk
    exact hl.changes k m' hk hne
  · obtain rfl : m = m' := by
      rw [List.getElem?_append_right hge] at hk
      exact List.mem_singleton.mp (List.mem_of_getElem? hk) |>.symm
    exact absurd hm hne

/-- The request of a call that has not returned is applied. -/
theorem LogOk.apply (hl : LogOk tr log) (ht : a.time = tr.length) {u : ℕ}
    (ho : Open (tr.map (·.event)) u a.call.id a.call.op) (hm : ∀ r, m.event ≠ .res u r)
    (ha : Applies (tr ++ [m]) a m) : LogOk (tr ++ [m]) (log ++ [a]) := by
  refine ⟨fun b hb => ?_, ?_, fun k m' hk hne => ?_, fun b hb => ?_⟩
  · rcases List.mem_append.mp hb with hb | hb
    · exact (hl.kept hb).1
    · obtain rfl := List.mem_singleton.mp hb
      exact ⟨m, by rw [ht, List.getElem?_concat_length], ha⟩
  · refine List.pairwise_append.mpr ⟨hl.increasing, by simp, fun b hb c hc => ?_⟩
    obtain rfl := List.mem_singleton.mp hc
    have := hl.time_lt hb
    omega
  · rcases Nat.lt_or_ge k tr.length with hlt | hge
    · rw [List.getElem?_append_left hlt] at hk
      obtain ⟨b, hb, hbk⟩ := hl.changes k m' hk hne
      exact ⟨b, List.mem_append_left _ hb, hbk⟩
    · have := (List.getElem?_eq_some_iff.mp hk).choose
      simp only [List.length_append, List.length_singleton] at this
      exact ⟨a, by simp, by omega⟩
  · rcases List.mem_append.mp hb with hb | hb
    · exact (hl.kept hb).2
    · obtain rfl := List.mem_singleton.mp hb
      have hlt := ho.lt_length
      rw [List.length_map] at hlt
      refine ⟨by omega, fun j r hr => ?_⟩
      rw [List.map_append, List.map_singleton] at hr
      exact absurd hr (ho.append hm).not_returns

end Log

/-! ### The invariant -/

structure Ghost (α : Type) where
  log : List (Application α)
  queue : List α
  stat : ℕ → Progress (QueueOp α) (QueueRet α)
  phase : ℕ → Phase

section Inv

variable {numOps : ℕ}

/-- The thread that holds the lock. -/
def holder (w : World (machine α numOps) (Ghost α)) : Option ℕ := lockHolder w.trace

structure Inv (w : World (machine α numOps) (Ghost α)) : Prop where
  tracks : Tracks (queueSpec α) w.events (w.ghost.log.map (·.call)) w.ghost.queue w.ghost.stat
  log : LogOk w.trace w.ghost.log
  slots : ∀ u, SlotOk (w.shared.operations u) (w.ghost.phase u) (w.ghost.stat u)
  list : w.shared.queue.Holds w.ghost.queue
  lock : w.shared.globalLock = (holder w).isSome
  applying : holder w = none → ∀ u, w.ghost.phase u ≠ .applying

/-- The request is published, and has no effect yet. -/
def Asked (g : Ghost α) (u id : ℕ) (op : QueueOp α) : Prop :=
  g.phase u = .asked ∧ g.stat u = .pending id op none

def Answered (g : Ghost α) (u id : ℕ) (op : QueueOp α) : Prop :=
  g.phase u = .answered ∧ ∃ r, g.stat u = .done id op r

/-- The request is published. -/
def InFlight (g : Ghost α) (u id : ℕ) (op : QueueOp α) : Prop :=
  Asked g u id op ∨ (g.phase u = .applying ∧ ∃ r, g.stat u = .done id op r) ∨ Answered g u id op

/-- The slot of thread `v` is the same. -/
def SameSlot (v : ℕ) (w w' : World (machine α numOps) (Ghost α)) : Prop :=
  w'.ghost.phase v = w.ghost.phase v ∧ w'.ghost.stat v = w.ghost.stat v ∧
    w'.shared.operations v = w.shared.operations v

/-- What thread `u` relies on about the steps of the others. -/
structure Rely (u : ℕ) (w w' : World (machine α numOps) (Ghost α)) : Prop where
  mine : w.ghost.phase u = .vacant ∨ w.ghost.phase u = .answered → SameSlot u w w'
  inFlight : ∀ id op, InFlight w.ghost u id op → InFlight w'.ghost u id op
  lock : holder w' = some u ↔ holder w = some u
  list : holder w = some u →
    w'.shared.queue = w.shared.queue ∧ w'.ghost.queue = w.ghost.queue
  asked : holder w = some u → ∀ v,
    w.ghost.phase v = .asked ∨ w.ghost.phase v = .applying → SameSlot v w w'
  applying : holder w = some u → ∀ v,
    w'.ghost.phase v = .applying → w.ghost.phase v = .applying

variable {w w' : World (machine α numOps) (Ghost α)} {t u v i : ℕ}

/-- The owner `t` of a slot writes it, or nobody does. -/
theorem rely_own (hu : u ≠ t) (hh : holder w' = some u ↔ holder w = some u)
    (hq : w'.shared.queue = w.shared.queue ∧ w'.ghost.queue = w.ghost.queue)
    (hsame : ∀ v, v ≠ t → SameSlot v w w')
    (hmine : SameSlot t w w' ∨ w.ghost.phase t ≠ .asked ∧ w.ghost.phase t ≠ .applying ∧
      w'.ghost.phase t ≠ .applying) : Rely u w w' := by
  have hu' := hsame u hu
  refine ⟨fun _ => hu', fun id op h => ?_, hh, fun _ => hq, fun _ v hv => ?_, fun _ v hv => ?_⟩
  · rcases h with ⟨h1, h2⟩ | ⟨h1, h2⟩ | ⟨h1, h2⟩
    · exact .inl ⟨hu'.1.trans h1, hu'.2.1.trans h2⟩
    · exact .inr (.inl ⟨hu'.1.trans h1, by rwa [hu'.2.1]⟩)
    · exact .inr (.inr ⟨hu'.1.trans h1, by rwa [hu'.2.1]⟩)
  · by_cases hvt : v = t
    · subst hvt
      rcases hmine with h | ⟨h1, h2, -⟩
      · exact h
      · rcases hv with hv | hv
        · exact absurd hv h1
        · exact absurd hv h2
    · exact hsame v hvt
  · by_cases hvt : v = t
    · subst hvt
      rcases hmine with h | ⟨-, -, h⟩
      · exact h.1.symm.trans hv
      · exact absurd hv h
    · exact (hsame v hvt).1.symm.trans hv

/-- The thread `t` that holds the lock serves the slot `i`. -/
theorem rely_serve (hu : u ≠ t) (ht : holder w = some t) (ht' : holder w' = some t)
    (hsame : ∀ v, v ≠ i → SameSlot v w w')
    (hi : w.ghost.phase i = .asked ∨ w.ghost.phase i = .applying)
    (hflight : ∀ id op, InFlight w.ghost i id op → InFlight w'.ghost i id op) : Rely u w w' := by
  have hne : ∀ {o : Option ℕ}, o = some t → o ≠ some u := by
    rintro o rfl h
    exact hu (Option.some.inj h).symm
  refine ⟨fun h => hsame u ?_, fun id op h => ?_, ?_, fun h => absurd h (hne ht),
    fun h => absurd h (hne ht), fun h => absurd h (hne ht)⟩
  · rintro rfl
    rcases h with h | h <;> rcases hi with hi | hi <;> rw [h] at hi <;> cases hi
  · by_cases hui : u = i
    · subst hui
      exact hflight id op h
    · have hu' := hsame u hui
      rcases h with ⟨h1, h2⟩ | ⟨h1, h2⟩ | ⟨h1, h2⟩
      · exact .inl ⟨hu'.1.trans h1, hu'.2.1.trans h2⟩
      · exact .inr (.inl ⟨hu'.1.trans h1, by rwa [hu'.2.1]⟩)
      · exact .inr (.inr ⟨hu'.1.trans h1, by rwa [hu'.2.1]⟩)
  · exact ⟨fun h => absurd h (hne ht'), fun h => absurd h (hne ht)⟩

end Inv

end FlatCombiningQueue

/-
Queues that are linked lists of nodes, read off the trace.

Such a queue has a node for every value, which one step links, and head points to the node
before the first value.  Whichever thread makes a step, the node that it links belongs to the
call that allocated it (`makes`), and a move of head to the dequeue of the thread `taker`.

* `AppliedOnce` — every operation is applied exactly once, in FIFO order;
* `Account`, `Ledger` — the nodes linked so far and the dequeues that the moves belong to, and
  how a run bears them out;
* `Returned` — what the results of calls that have returned say;
* `Ledger.step`, `Returned.step` — what a step has to keep;
* `Ledger.appliedOnce` — a run with a ledger applies every operation exactly once.
-/
import Scal.LinearizationPoints
import Scal.Calls
import Scal.Chain

open Interleave Linearizability

/-- How a queue is read. -/
structure LinkedQueue {α : Type} (M : Machine (QueueOp α) (QueueRet α)) where
  queue : M.Shared → List α
  data : M.Shared → ℕ → α
  headNode : M.Shared → ℕ
  /-- The step allocates this node. -/
  makes : ℕ → Moment M → Prop
  /-- The step links this node. -/
  links : ℕ → Moment M → Prop
  /-- The thread for which the step moves head. -/
  taker : Moment M → ℕ

namespace LinkedQueue

variable {α : Type} {M : Machine (QueueOp α) (QueueRet α)} (Q : LinkedQueue M)

def MovesHead (m : Moment M) : Prop := Q.headNode m.after ≠ Q.headNode m.before

def LinkedAt (tr : List (Moment M)) (k p : ℕ) : Prop := ∃ m, tr[k]? = some m ∧ Q.links p m

/-- At time `k` head moves for the dequeue `i`: it is the call that the taker is in. -/
def TakenBy (tr : List (Moment M)) (k i : ℕ) : Prop :=
  ∃ m, tr[k]? = some m ∧ Q.MovesHead m ∧ Pending ((history tr).take k) (Q.taker m) i .dequeue

/-- Every operation is applied exactly once, in FIFO order. -/
structure AppliedOnce (tr : List (Moment M)) : Prop where
  /-- A call allocates one node at most. -/
  node : ∀ {i p p'}, Did Q.makes tr i p → Did Q.makes tr i p' → p = p'
  /-- No node is linked twice. -/
  once : ∀ {k k' p}, Q.LinkedAt tr k p → Q.LinkedAt tr k' p → k = k'
  /-- A node that is linked is that of one pending enqueue, and its value is appended. -/
  link : ∀ {k m p}, tr[k]? = some m → Q.links p m →
    Q.queue m.after = Q.queue m.before ++ [Q.data m.before p] ∧
      ∃ t i, Did Q.makes tr i p ∧ (∀ i', Did Q.makes tr i' p → i' = i) ∧
        Pending ((history tr).take k) t i (.enqueue (Q.data m.before p))
  /-- The node of an enqueue that returned was linked then or before; a call returns in the
  step that makes its last access. -/
  enqueue : ∀ {i j t x r}, (history tr)[i]? = some (.inv t (.enqueue x)) →
    Returns (history tr) i j r →
    r = .enqueued true ∧ ∃ p k, Did Q.makes tr i p ∧ Q.LinkedAt tr k p ∧ k ≤ j
  /-- A move of head removes the first value for one dequeue, which returns this value. -/
  move : ∀ {k m}, tr[k]? = some m → Q.MovesHead m →
    ∃ v i, Q.queue m.before = v :: Q.queue m.after ∧ Q.TakenBy tr k i ∧
      (∀ i', Q.TakenBy tr k i' → i' = i) ∧
      ∀ {j r}, Returns (history tr) i j r → k ≤ j ∧ r = .dequeued (some v)
  /-- No dequeue moves head twice. -/
  taken_once : ∀ {k k' i}, Q.TakenBy tr k i → Q.TakenBy tr k' i → k = k'
  /-- Head has moved for a dequeue that returned a value, then or before, and it has not for one
  that returned none, but at some time of that call the queue was empty. -/
  dequeue : ∀ {i j t r}, (history tr)[i]? = some (.inv t .dequeue) →
    Returns (history tr) i j r →
    (∃ v k, r = .dequeued (some v) ∧ Q.TakenBy tr k i ∧ k ≤ j) ∨
      r = .dequeued none ∧ (∀ k, ¬Q.TakenBy tr k i) ∧
        ∃ (k : ℕ) (m : Moment M), i ≤ k ∧ k ≤ j ∧ tr[k]? = some m ∧ Q.queue m.after = []
  /-- No other step changes the queue. -/
  other : ∀ {k : ℕ} {m}, tr[k]? = some m → (∀ p, ¬Q.links p m) → ¬Q.MovesHead m →
    Q.queue m.after = Q.queue m.before

/-! ### The ledger of a run -/

/-- What a proof keeps track of: the nodes linked so far and the dequeues that get the values
behind them, in order; the call that allocated a node; the position of head's node, and the
address that is allocated next. -/
structure Account where
  chain : List ℕ
  takers : List ℕ
  maker : ℕ → ℕ
  head : ℕ
  alloc : ℕ

/-- At time `k` head moves from position `j`. -/
def MovedAt (tr : List (Moment M)) (chain : List ℕ) (k j : ℕ) : Prop :=
  ∃ m, tr[k]? = some m ∧ Q.MovesHead m ∧ chain[j]? = some (Q.headNode m.before)

/-- The step at time `k` appends the value of the node `p` for one pending enqueue. -/
def Appends (tr : List (Moment M)) (k : ℕ) (m : Moment M) (p : ℕ) : Prop :=
  Q.queue m.after = Q.queue m.before ++ [Q.data m.before p] ∧ ∃ t i, Did Q.makes tr i p ∧
    Pending ((history tr).take k) t i (.enqueue (Q.data m.before p))

/-- The step at time `k` removes the first value for the taker of head's position. -/
def Removes (tr : List (Moment M)) (σ : M.Shared) (a : Account) (k : ℕ) (m : Moment M) : Prop :=
  ∃ j p i, j < a.head ∧ a.chain[j]? = some (Q.headNode m.before) ∧ a.chain[j + 1]? = some p ∧
    a.takers[j]? = some i ∧ Q.queue m.before = Q.data σ p :: Q.queue m.after ∧
    Pending ((history tr).take k) (Q.taker m) i .dequeue

structure Ledger (tr : List (Moment M)) (σ : M.Shared) (a : Account) : Prop where
  chain : a.chain.Nodup
  takers : a.takers.Nodup
  opens : ∀ {t i op}, Open (history tr) t i op → Pending (history tr) t i op
  node : ∀ {i p}, Did Q.makes tr i p → p < a.alloc ∧ a.maker p = i
  node_once : ∀ {i p p'}, Did Q.makes tr i p → Did Q.makes tr i p' → p = p'
  link : ∀ {k m p}, tr[k]? = some m → Q.links p m → p ∈ a.chain ∧ Q.Appends tr k m p
  once : ∀ {k k' p}, Q.LinkedAt tr k p → Q.LinkedAt tr k' p → k = k'
  linked : ∀ {i p}, p ∈ a.chain → Did Q.makes tr i p → ∃ k, Q.LinkedAt tr k p
  move : ∀ {k m}, tr[k]? = some m → Q.MovesHead m → Q.Removes tr σ a k m
  move_once : ∀ {k k' j}, Q.MovedAt tr a.chain k j → Q.MovedAt tr a.chain k' j → k = k'
  moved : ∀ j < a.head, ∃ k, Q.MovedAt tr a.chain k j
  other : ∀ {k : ℕ} {m}, tr[k]? = some m → (∀ p, ¬Q.links p m) → ¬Q.MovesHead m →
    Q.queue m.after = Q.queue m.before

/-- How an account may change in a step. -/
structure Account.Grows (a a' : Account) : Prop where
  chain : a.chain <+: a'.chain
  chain_nodup : a'.chain.Nodup
  takers : a.takers <+: a'.takers
  takers_nodup : a'.takers.Nodup
  head : a.head ≤ a'.head
  alloc : a.alloc ≤ a'.alloc
  maker : ∀ p < a.alloc, a'.maker p = a.maker p
  bound : ∀ p ∈ a.chain, p < a.alloc

/-- What is to be shown of a step. -/
structure LedgerStep (tr : List (Moment M)) (σ : M.Shared) (a : Account) (m : Moment M)
    (a' : Account) : Prop where
  before : m.before = σ
  grows : a.Grows a'
  headNode : a.chain[a.head]? = some (Q.headNode σ)
  data : ∀ p ∈ a.chain, Q.data m.after p = Q.data σ p
  opens : ∀ {t i op}, Open (history (tr ++ [m])) t i op → Pending (history (tr ++ [m])) t i op
  -- a new node, and the first one of its call
  node : ∀ {i p}, Did Q.makes (tr ++ [m]) i p → Did Q.makes tr i p ∨
    p = a.alloc ∧ a'.alloc = a.alloc + 1 ∧ a'.maker p = i ∧ ∀ p', ¬Did Q.makes tr i p'
  links : ∀ {p}, Q.links p m → p ∉ a.chain ∧ p ∈ a'.chain ∧
    Q.queue m.after = Q.queue σ ++ [Q.data σ p] ∧
      ∃ t i, Did Q.makes tr i p ∧ Open (history tr) t i (.enqueue (Q.data σ p))
  chain : ∀ p ∈ a'.chain, p ∈ a.chain ∨ Q.links p m
  moves : Q.MovesHead m → a'.head = a.head + 1 ∧ ∃ p i, a.chain[a.head + 1]? = some p ∧
    a'.takers[a.head]? = some i ∧ Open (history tr) (Q.taker m) i .dequeue ∧
      Q.queue σ = Q.data σ p :: Q.queue m.after
  stays : ¬Q.MovesHead m → a'.head = a.head
  takers : ∀ i ∈ a'.takers, i ∈ a.takers ∨ ∃ t, Open (history tr) t i .dequeue
  other : (∀ p, ¬Q.links p m) → ¬Q.MovesHead m → Q.queue m.after = Q.queue σ

section Ledger

variable {Q}
variable {tr : List (Moment M)} {σ : M.Shared} {a a' : Account} {p i j k t : ℕ}
  {m m' : Moment M}

theorem moment_lt (h : tr[k]? = some m) : k < tr.length := (List.getElem?_eq_some_iff.mp h).choose

theorem moment_append (h : tr[k]? = some m') : (tr ++ [m])[k]? = some m' := by
  rw [getElem?_append_of_lt (moment_lt h)]
  exact h

theorem take_append (h : k ≤ tr.length) :
    (history (tr ++ [m])).take k = (history tr).take k := by
  rw [history_append, List.take_append_of_le_length (by rwa [length_history])]

theorem LinkedAt.append (h : Q.LinkedAt tr k p) : Q.LinkedAt (tr ++ [m]) k p := by
  obtain ⟨m', hm, hl⟩ := h
  exact ⟨m', moment_append hm, hl⟩

theorem linkedAt_cases (h : Q.LinkedAt (tr ++ [m]) k p) :
    Q.LinkedAt tr k p ∨ k = tr.length ∧ Q.links p m := by
  obtain ⟨m', hm, hl⟩ := h
  rcases getElem?_concat_cases hm with hm | ⟨hk, rfl⟩
  · exact Or.inl ⟨m', hm, hl⟩
  · exact Or.inr ⟨hk, hl⟩

theorem MovedAt.lt {chain : List ℕ} (h : Q.MovedAt tr chain k j) : k < tr.length := by
  obtain ⟨m, hm, -⟩ := h
  exact moment_lt hm

theorem LinkedAt.lt (h : Q.LinkedAt tr k p) : k < tr.length := by
  obtain ⟨m, hm, -⟩ := h
  exact moment_lt hm

theorem MovedAt.append {chain chain' : List ℕ} (h : Q.MovedAt tr chain k j)
    (hc : chain <+: chain') : Q.MovedAt (tr ++ [m]) chain' k j := by
  obtain ⟨m', hm, hv, hj⟩ := h
  exact ⟨m', moment_append hm, hv, Chain.getElem?_mono hc hj⟩

theorem Appends.append (h : Q.Appends tr k m' p) (hk : k ≤ tr.length) :
    Q.Appends (tr ++ [m]) k m' p := by
  obtain ⟨hq, t, i, hd, hp⟩ := h
  refine ⟨hq, t, i, hd.append, ?_⟩
  rw [take_append hk]
  exact hp

theorem Removes.append (h : Q.Removes tr σ a k m') (hs : Q.LedgerStep tr σ a m a')
    (hk : k ≤ tr.length) : Q.Removes (tr ++ [m]) m.after a' k m' := by
  obtain ⟨j, p, i, hj, hhead, hp, hi, hq, hpend⟩ := h
  refine ⟨j, p, i, hj.trans_le hs.grows.head, Chain.getElem?_mono hs.grows.chain hhead,
    Chain.getElem?_mono hs.grows.chain hp, Chain.getElem?_mono hs.grows.takers hi, ?_, ?_⟩
  · rw [hs.data p (List.mem_of_getElem? hp)]
    exact hq
  · rw [take_append hk]
    exact hpend

theorem LedgerStep.node_lt (hs : Q.LedgerStep tr σ a m a') (hL : Q.Ledger tr σ a)
    (hd : Did Q.makes (tr ++ [m]) i p) : p < a'.alloc ∧ a'.maker p = i := by
  rcases hs.node hd with hd | ⟨rfl, ha, hm, -⟩
  · obtain ⟨hlt, hm⟩ := hL.node hd
    exact ⟨hlt.trans_le hs.grows.alloc, (hs.grows.maker p hlt).trans hm⟩
  · exact ⟨by omega, hm⟩

theorem LedgerStep.node_once (hs : Q.LedgerStep tr σ a m a') (hL : Q.Ledger tr σ a) {p' : ℕ}
    (hd : Did Q.makes (tr ++ [m]) i p) (hd' : Did Q.makes (tr ++ [m]) i p') : p = p' := by
  rcases hs.node hd with hd | ⟨rfl, -, -, hnot⟩
  · rcases hs.node hd' with hd' | ⟨-, -, -, hnot⟩
    · exact hL.node_once hd hd'
    · exact absurd hd (hnot p)
  · rcases hs.node hd' with hd' | ⟨rfl, -, -, -⟩
    · exact absurd hd' (hnot p')
    · rfl

theorem LedgerStep.link (hs : Q.LedgerStep tr σ a m a') (hL : Q.Ledger tr σ a)
    (hm : (tr ++ [m])[k]? = some m') (hl : Q.links p m') :
    p ∈ a'.chain ∧ Q.Appends (tr ++ [m]) k m' p := by
  rcases getElem?_concat_cases hm with hm | ⟨rfl, rfl⟩
  · obtain ⟨hp, ha⟩ := hL.link hm hl
    exact ⟨hs.grows.chain.subset hp, ha.append (moment_lt hm).le⟩
  · obtain ⟨-, hp, hq, t, i, hd, ho⟩ := hs.links hl
    rw [Appends, hs.before, take_append le_rfl, ← length_history, List.take_length]
    exact ⟨hp, hq, t, i, hd.append, hL.opens ho⟩

theorem LedgerStep.once (hs : Q.LedgerStep tr σ a m a') (hL : Q.Ledger tr σ a) {k' : ℕ}
    (hk : Q.LinkedAt (tr ++ [m]) k p) (hk' : Q.LinkedAt (tr ++ [m]) k' p) : k = k' := by
  -- a node that is linked was not in the chain
  have hnew : ∀ {k}, Q.LinkedAt tr k p → ¬Q.links p m := by
    rintro k ⟨m', hm, hl⟩ hl'
    exact (hs.links hl').1 (hL.link hm hl).1
  rcases linkedAt_cases hk with hk | ⟨rfl, hl⟩
  · rcases linkedAt_cases hk' with hk' | ⟨-, hl⟩
    · exact hL.once hk hk'
    · exact absurd hl (hnew hk)
  · rcases linkedAt_cases hk' with hk' | ⟨rfl, -⟩
    · exact absurd hl (hnew hk')
    · rfl

theorem LedgerStep.linked (hs : Q.LedgerStep tr σ a m a') (hL : Q.Ledger tr σ a)
    (hp : p ∈ a'.chain) (hd : Did Q.makes (tr ++ [m]) i p) : ∃ k, Q.LinkedAt (tr ++ [m]) k p := by
  rcases hs.chain p hp with hp | hl
  · rcases hs.node hd with hd | ⟨rfl, -⟩
    · obtain ⟨k, hk⟩ := hL.linked hp hd
      exact ⟨k, hk.append⟩
    · exact absurd (hs.grows.bound _ hp) (lt_irrefl _)
  · exact ⟨tr.length, m, List.getElem?_concat_length, hl⟩

theorem LedgerStep.move (hs : Q.LedgerStep tr σ a m a') (hL : Q.Ledger tr σ a)
    (hm : (tr ++ [m])[k]? = some m') (hv : Q.MovesHead m') :
    Q.Removes (tr ++ [m]) m.after a' k m' := by
  rcases getElem?_concat_cases hm with hm | ⟨rfl, rfl⟩
  · exact (hL.move hm hv).append hs (moment_lt hm).le
  · obtain ⟨ha, p, i, hp, hi, ho, hq⟩ := hs.moves hv
    refine ⟨a.head, p, i, by omega, ?_, Chain.getElem?_mono hs.grows.chain hp, hi, ?_, ?_⟩
    · rw [hs.before]
      exact Chain.getElem?_mono hs.grows.chain hs.headNode
    · rw [hs.before, hs.data p (List.mem_of_getElem? hp)]
      exact hq
    · rw [take_append le_rfl, ← length_history, List.take_length]
      exact hL.opens ho

theorem Ledger.moved_lt (hL : Q.Ledger tr σ a) (hs : Q.LedgerStep tr σ a m a')
    (hk : Q.MovedAt (tr ++ [m]) a'.chain k j) :
    Q.MovedAt tr a.chain k j ∧ j < a.head ∨ k = tr.length ∧ j = a.head := by
  obtain ⟨m', hm, hv, hj⟩ := hk
  have hunique : ∀ {j' : ℕ}, a.chain[j']? = some (Q.headNode m'.before) → j = j' := fun hj' =>
    (List.getElem?_inj (Chain.lt_length hj) hs.grows.chain_nodup).mp
      (hj.trans (Chain.getElem?_mono hs.grows.chain hj').symm)
  rcases getElem?_concat_cases hm with hm | ⟨hk, rfl⟩
  · obtain ⟨j', -, -, hlt, hj', -⟩ := hL.move hm hv
    obtain rfl := hunique hj'
    exact Or.inl ⟨⟨m', hm, hv, hj'⟩, hlt⟩
  · exact Or.inr ⟨hk, hunique (hs.before ▸ hs.headNode)⟩

theorem LedgerStep.move_once (hs : Q.LedgerStep tr σ a m a') (hL : Q.Ledger tr σ a) {k' : ℕ}
    (hk : Q.MovedAt (tr ++ [m]) a'.chain k j) (hk' : Q.MovedAt (tr ++ [m]) a'.chain k' j) :
    k = k' := by
  rcases hL.moved_lt hs hk with ⟨hk, hlt⟩ | ⟨rfl, rfl⟩
  · rcases hL.moved_lt hs hk' with ⟨hk', -⟩ | ⟨-, rfl⟩
    · exact hL.move_once hk hk'
    · exact absurd hlt (lt_irrefl _)
  · rcases hL.moved_lt hs hk' with ⟨-, hlt⟩ | ⟨rfl, -⟩
    · exact absurd hlt (lt_irrefl _)
    · rfl

theorem LedgerStep.moved (hs : Q.LedgerStep tr σ a m a') (hL : Q.Ledger tr σ a)
    (hj : j < a'.head) : ∃ k, Q.MovedAt (tr ++ [m]) a'.chain k j := by
  have hold : j < a.head → ∃ k, Q.MovedAt (tr ++ [m]) a'.chain k j := fun hj => by
    obtain ⟨k, hk⟩ := hL.moved j hj
    exact ⟨k, hk.append hs.grows.chain⟩
  by_cases hv : Q.MovesHead m
  · obtain ⟨ha, -⟩ := hs.moves hv
    rcases Nat.lt_or_eq_of_le (Nat.le_of_lt_succ (ha ▸ hj)) with hlt | rfl
    · exact hold hlt
    · refine ⟨tr.length, m, List.getElem?_concat_length, hv, ?_⟩
      rw [hs.before]
      exact Chain.getElem?_mono hs.grows.chain hs.headNode
  · exact hold (hs.stays hv ▸ hj)

theorem Ledger.step (hL : Q.Ledger tr σ a) (hs : Q.LedgerStep tr σ a m a') :
    Q.Ledger (tr ++ [m]) m.after a' where
  chain := hs.grows.chain_nodup
  takers := hs.grows.takers_nodup
  opens := hs.opens
  node := hs.node_lt hL
  node_once := hs.node_once hL
  link := hs.link hL
  once := hs.once hL
  linked := hs.linked hL
  move := hs.move hL
  move_once := hs.move_once hL
  moved _ hj := hs.moved hL hj
  other hm hl hv := by
    rcases getElem?_concat_cases hm with hm | ⟨-, rfl⟩
    · exact hL.other hm hl hv
    · rw [hs.before]
      exact hs.other hl hv

/-- Before the first step. -/
theorem Ledger.nil (hc : a.chain.Nodup) (ht : a.takers.Nodup) (h0 : a.head = 0) :
    Q.Ledger [] σ a where
  chain := hc
  takers := ht
  opens ho := by cases ho.1
  node hd := absurd hd.lt_length (Nat.not_lt_zero _)
  node_once hd := absurd hd.lt_length (Nat.not_lt_zero _)
  link hm := by cases hm
  once hk := absurd hk.lt (Nat.not_lt_zero _)
  linked _ hd := absurd hd.lt_length (Nat.not_lt_zero _)
  move hm := by cases hm
  move_once hk := absurd hk.lt (Nat.not_lt_zero _)
  moved j hj := absurd (h0 ▸ hj) (Nat.not_lt_zero _)
  other hm := by cases hm

theorem Ledger.takenBy (hL : Q.Ledger tr σ a) (hm : Q.MovedAt tr a.chain k j)
    (hi : a.takers[j]? = some i) : Q.TakenBy tr k i := by
  obtain ⟨m, hm, hv, hj⟩ := hm
  obtain ⟨j', p, i', -, hj', -, hi', -, hp⟩ := hL.move hm hv
  obtain rfl := (List.getElem?_inj (Chain.lt_length hj) hL.chain).mp (hj.trans hj'.symm)
  obtain rfl := Option.some.inj (hi.symm.trans hi')
  exact ⟨m, hm, hv, hp⟩

/-- The dequeue that a move belongs to is the taker of its position. -/
theorem Ledger.taker (hL : Q.Ledger tr σ a) (ht : Q.TakenBy tr k i) :
    ∃ j, Q.MovedAt tr a.chain k j ∧ a.takers[j]? = some i := by
  obtain ⟨m, hm, hv, hp⟩ := ht
  obtain ⟨j, p, i', -, hj, -, hi', -, hp'⟩ := hL.move hm hv
  obtain rfl := hp.unique hp'
  exact ⟨j, ⟨m, hm, hv, hj⟩, hi'⟩

end Ledger

/-! ### Results -/

/-- What the result `r`, which the call `i` returned at time `j`, says. -/
def Answered (tr : List (Moment M)) (σ : M.Shared) (a : Account) (i j : ℕ) :
    QueueOp α → QueueRet α → Prop
  | .enqueue _, r =>
    r = .enqueued true ∧ ∃ p k, Did Q.makes tr i p ∧ Q.LinkedAt tr k p ∧ k ≤ j
  | .dequeue, r =>
    (∃ q p k, r = .dequeued (some (Q.data σ p)) ∧ a.chain[q + 1]? = some p ∧
      a.takers[q]? = some i ∧ Q.MovedAt tr a.chain k q ∧ k ≤ j) ∨
    r = .dequeued none ∧ i ∉ a.takers ∧
      ∃ (k : ℕ) (m : Moment M), i ≤ k ∧ k ≤ j ∧ tr[k]? = some m ∧ Q.queue m.after = []

def Returned (tr : List (Moment M)) (σ : M.Shared) (a : Account) : Prop :=
  ∀ {i j t op r}, (history tr)[i]? = some (.inv t op) → Returns (history tr) i j r →
    Q.Answered tr σ a i j op r

section Returned

variable {Q}
variable {tr : List (Moment M)} {σ : M.Shared} {a a' : Account} {i j k p : ℕ} {m : Moment M}
  {op : QueueOp α} {r : QueueRet α}

theorem Returned.nil : Q.Returned [] σ a := fun hi => by cases hi

theorem Answered.append (h : Q.Answered tr σ a i j op r) (hs : Q.LedgerStep tr σ a m a')
    (hr : Returns (history tr) i j r) : Q.Answered (tr ++ [m]) m.after a' i j op r := by
  cases op with
  | enqueue x =>
    obtain ⟨h1, p, k, hd, hl, hk⟩ := h
    exact ⟨h1, p, k, hd.append, hl.append, hk⟩
  | dequeue =>
    rcases h with ⟨q, p, k, hres, hp, hi, hm, hk⟩ | ⟨hres, hi, k, m', hik, hkj, hm, hq⟩
    · refine Or.inl ⟨q, p, k, ?_, Chain.getElem?_mono hs.grows.chain hp,
        Chain.getElem?_mono hs.grows.takers hi, hm.append hs.grows.chain, hk⟩
      rw [hs.data p (List.mem_of_getElem? hp)]
      exact hres
    · refine Or.inr ⟨hres, fun hmem => ?_, k, m', hik, hkj, moment_append hm, hq⟩
      -- a call that has returned takes nothing
      rcases hs.takers i hmem with hmem | ⟨t, ho⟩
      · exact hi hmem
      · exact ho.not_returns hr

theorem Returned.step (hR : Q.Returned tr σ a) (hs : Q.LedgerStep tr σ a m a')
    (hnew : ∀ {i t op r}, m.event = .res t r → Open (history tr) t i op →
      Q.Answered (tr ++ [m]) m.after a' i tr.length op r) :
    Q.Returned (tr ++ [m]) m.after a' := by
  intro i j t op r hi hr
  have hcall : i < (history tr).length → (history tr)[i]? = some (.inv t op) := fun hlt => by
    rw [← hi, history_append, getElem?_append_of_lt hlt]
  rw [history_append, history_singleton] at hr
  rcases returns_append_cases hr with hr | ⟨rfl, t', op', he, ho⟩
  · have hlt := hr.lt.trans hr.lt_length
    exact (hR (hcall hlt) hr).append hs hr
  · have hkey := ho.1.symm.trans (hcall ho.lt_length)
    simp only [Option.some.injEq, Event.inv.injEq] at hkey
    rw [length_history]
    exact hkey.2 ▸ hnew he ho

/-- The result of an enqueue whose node is in the chain. -/
theorem Ledger.answered_enqueue {x : α} (hL : Q.Ledger (tr ++ [m]) σ a) (hp : p ∈ a.chain)
    (hd : Did Q.makes (tr ++ [m]) i p) :
    Q.Answered (tr ++ [m]) σ a i tr.length (.enqueue x) (.enqueued true) := by
  obtain ⟨k, hk⟩ := hL.linked hp hd
  have hlt := hk.lt
  rw [List.length_append, List.length_singleton] at hlt
  exact ⟨rfl, p, k, hd, hk, Nat.le_of_lt_succ hlt⟩

/-- The result of a dequeue that has taken a value which head has passed. -/
theorem Ledger.answered_dequeue (hL : Q.Ledger (tr ++ [m]) σ a) (hj : j < a.head)
    (hp : a.chain[j + 1]? = some p) (hi : a.takers[j]? = some i) :
    Q.Answered (tr ++ [m]) σ a i tr.length .dequeue (.dequeued (some (Q.data σ p))) := by
  obtain ⟨k, hk⟩ := hL.moved j hj
  have hlt := hk.lt
  rw [List.length_append, List.length_singleton] at hlt
  exact Or.inl ⟨j, p, k, rfl, hp, hi, hk, Nat.le_of_lt_succ hlt⟩

/-- The result of a dequeue that has found the queue empty. -/
theorem answered_none (hi : i ∉ a.takers) (hs : Since (tr ++ [m]) i fun σ => Q.queue σ = []) :
    Q.Answered (tr ++ [m]) σ a i tr.length .dequeue (.dequeued none) := by
  obtain ⟨m', hm, hq⟩ := hs
  obtain ⟨k, hk⟩ := List.mem_iff_getElem?.mp hm
  rw [List.getElem?_drop] at hk
  have hlt := moment_lt hk
  rw [List.length_append, List.length_singleton] at hlt
  exact Or.inr ⟨rfl, hi, i + k, m', by omega, by omega, hk, hq⟩

/-- **Exactly once**: a run that a ledger bears out applies every operation exactly once. -/
theorem Ledger.appliedOnce (hL : Q.Ledger tr σ a) (hR : Q.Returned tr σ a) :
    Q.AppliedOnce tr := by
  have hpos : ∀ {j j' i : ℕ}, a.takers[j]? = some i → a.takers[j']? = some i → j = j' :=
    fun h h' => (List.getElem?_inj (Chain.lt_length h) hL.takers).mp (h.trans h'.symm)
  refine ⟨hL.node_once, hL.once, fun hm hl => ?_, fun hi hr => hR hi hr, fun {k m} hm hv => ?_,
    fun hk hk' => ?_, fun {i j t r} hi hr => ?_, hL.other⟩
  · obtain ⟨-, hq, t, i, hd, hp⟩ := hL.link hm hl
    exact ⟨hq, t, i, hd, fun i' hd' => (hL.node hd').2.symm.trans (hL.node hd).2, hp⟩
  · obtain ⟨j, p, i, -, hj, hp, hi, hq, hpend⟩ := hL.move hm hv
    refine ⟨_, i, hq, ⟨m, hm, hv, hpend⟩, fun i' ht => ?_, fun {j r} hr => ?_⟩
    · obtain ⟨m', hm', -, hpend'⟩ := ht
      obtain rfl := Option.some.inj (hm.symm.trans hm')
      exact hpend'.unique hpend
    · rcases hR hpend.of_take hr with ⟨q, p', k', hres, hp', hi', hk', hle⟩ | ⟨-, hnot, -⟩
      · obtain rfl := hpos hi hi'
        obtain rfl := Option.some.inj (hp.symm.trans hp')
        obtain rfl := hL.move_once hk' ⟨m, hm, hv, hj⟩
        exact ⟨hle, hres⟩
      · exact absurd (List.mem_of_getElem? hi) hnot
  · obtain ⟨j, hj, hi⟩ := hL.taker hk
    obtain ⟨j', hj', hi'⟩ := hL.taker hk'
    obtain rfl := hpos hi hi'
    exact hL.move_once hj hj'
  · rcases hR hi hr with ⟨q, p, k, hres, -, hi', hk, hle⟩ | ⟨hres, hnot, hq⟩
    · exact Or.inl ⟨_, k, hres, hL.takenBy hk hi', hle⟩
    · refine Or.inr ⟨hres, fun k hk => ?_, hq⟩
      obtain ⟨j, -, hi'⟩ := hL.taker hk
      exact hnot (List.mem_of_getElem? hi')

end Returned

end LinkedQueue

/-
The invariant of the wait-free queue.

All nodes ever linked form one chain, as in a Michael–Scott queue, and the calls that get the
items form a list as well (`Ghost.takers`): the call at position `j` gets the item at position
`j + 1` of the chain.

* `DescOk` — what the descriptor of a thread says about its call: a pending enqueue's node is
  not linked yet or is the last one, behind tail; a pending dequeue has no item unless head's
  `deq_tid` is its thread;
* `Inv` — the invariant; while tail lags, the descriptor of the thread that enqueues the last
  node still shows this node (`last`), and while head's node is reserved, that of its thread
  shows head's node (`reserved`);
* `Rely` — what a thread may rely on about the steps of the others.  A descriptor that was
  replaced does not come back, and it changes in few ways (`DescStep`).
-/
import Scal.WaitfreeQueue
import Scal.Calls

open Interleave Linearizability

namespace WaitfreeQueue

variable {α : Type} [Inhabited α] {n : ℕ}

/-- The nodes linked so far, in order, and the call that allocated a node; the calls that get
the items, in order; the thread that allocated a descriptor, and the descriptors that were
published; the call that a thread's descriptor belongs to; a thread's last call, and the phases
of all threads when it began. -/
structure Ghost where
  chain : List ℕ
  maker : ℕ → ℕ
  takers : List ℕ
  owner : ℕ → ℕ
  used : Set ℕ
  cur : ℕ → Option ℕ
  running : ℕ → ℕ
  start : ℕ → ℕ → ℤ

/-- The step allocates the node `p`. -/
def Makes (p : ℕ) (m : Moment (machine α n)) : Prop :=
  m.before.alloc = p ∧ ∃ x t, m.after = m.before.newNode x t

/-- The node `p` was made by the call `c` of thread `t`. -/
structure Made (tr : List (Moment (machine α n))) (σ : Shared α) (g : Ghost) (t c p : ℕ) :
    Prop where
  ne : p ≠ 0
  lt : p < σ.alloc
  tid : (σ.node p).enqTid = t
  maker : g.maker p = c
  call : (history tr)[c]? = some (.inv t (.enqueue (σ.node p).data))
  did : Did Makes tr c p

/-- What the descriptor of thread `t` says. -/
inductive DescOk (tr : List (Moment (machine α n))) (σ : Shared α) (g : Ghost) (t : ℕ) :
    OperationDescriptor → Prop
  | initial {ph : ℤ} : g.cur t = none → DescOk tr σ g t ⟨ph, false, .enqueue, 0⟩
  | enqueuing {ph : ℤ} {p c : ℕ} : g.cur t = some c → Made tr σ g t c p →
    Open (history tr) t c (.enqueue (σ.node p).data) →
    (p ∈ g.chain → g.chain[σ.tail.aba + 1]? = some p) →
    DescOk tr σ g t ⟨ph, true, .enqueue, p⟩
  | enqueued {ph : ℤ} {p c : ℕ} : g.cur t = some c → Made tr σ g t c p → p ∈ g.chain →
    DescOk tr σ g t ⟨ph, false, .enqueue, p⟩
  | dequeuing {ph : ℤ} {p c : ℕ} : g.cur t = some c → Open (history tr) t c .dequeue →
    (∀ j : ℕ, g.takers[j]? = some c → j = σ.head.aba) →
    (p ≠ 0 → ∃ j, g.chain[j]? = some p ∧ j ≤ σ.head.aba ∧ j < σ.tail.aba) →
    DescOk tr σ g t ⟨ph, true, .dequeue, p⟩
  | dequeued {ph : ℤ} {p c j : ℕ} : g.cur t = some c →
    (history tr)[c]? = some (.inv t .dequeue) → g.chain[j]? = some p → g.takers[j]? = some c →
    DescOk tr σ g t ⟨ph, false, .dequeue, p⟩
  | empty {ph : ℤ} {c : ℕ} : g.cur t = some c → (history tr)[c]? = some (.inv t .dequeue) →
    c ∉ g.takers → Since tr c (fun σ => σ.queue = []) →
    DescOk tr σ g t ⟨ph, false, .dequeue, 0⟩

structure Inv (tr : List (Moment (machine α n))) (σ : Shared α) (g : Ghost) : Prop where
  chain : Chain (fun p => (σ.node p).next) σ.alloc g.chain
  head : g.chain[σ.head.aba]? = some σ.head.value
  tail : g.chain[σ.tail.aba]? = some σ.tail.value
  head_le : σ.head.aba ≤ σ.tail.aba
  lag : g.chain.length ≤ σ.tail.aba + 2
  fresh : ∀ p, p ∉ g.chain → (σ.node p).next = ⟨0, 0⟩ ∧ (σ.node p).deqTid = kTidNotSet
  made : ∀ (q p : ℕ), g.chain[q + 1]? = some p →
    (σ.node p).enqTid < n ∧ Made tr σ g (σ.node p).enqTid (g.maker p) p
  last : ∀ p, g.chain[σ.tail.aba + 1]? = some p →
    (σ.descOf (σ.node p).enqTid).type = .enqueue ∧ (σ.descOf (σ.node p).enqTid).node = p
  le_takers : σ.head.aba ≤ g.takers.length
  takers_le : g.takers.length ≤ σ.head.aba + 1
  takers_nodup : g.takers.Nodup
  deqTid : ∀ (j p : ℕ), g.chain[j]? = some p →
    ((σ.node p).deqTid = kTidNotSet ↔ g.takers.length ≤ j)
  taker : ∀ (j p c : ℕ), g.chain[j]? = some p → g.takers[j]? = some c →
    (σ.node p).deqTid < n ∧ (history tr)[c]? = some (.inv (σ.node p).deqTid .dequeue)
  reserved : ∀ c, g.takers[σ.head.aba]? = some c → σ.head.aba < σ.tail.aba ∧
    (σ.descOf (σ.node σ.head.value).deqTid).type = .dequeue ∧
    (σ.descOf (σ.node σ.head.value).deqTid).node = σ.head.value ∧
    g.cur (σ.node σ.head.value).deqTid = some c ∧
    Open (history tr) (σ.node σ.head.value).deqTid c .dequeue
  tid : ∀ (c t : ℕ) op, (history tr)[c]? = some (.inv t op) → t ≠ kTidNotSet
  used : ∀ d ∈ g.used, d < σ.descAlloc
  state : ∀ t < n, (σ.state t).value ∈ g.used
  desc : ∀ t < n, DescOk tr σ g t (σ.descOf t)
  running : ∀ t < n, (σ.descOf t).pending = true → g.cur t = some (g.running t)
  start : ∀ t, ∀ v < n, g.start t v ≤ (σ.descOf v).phase

/-- How a descriptor changes while its call is going on. -/
structure DescStep (σ σ' : Shared α) (g : Ghost) (D D' : OperationDescriptor) : Prop where
  phase : D'.phase = D.phase
  type : D'.type = D.type
  done : D.pending = false → D'.pending = false ∧ D'.node = D.node
  enqueue : D.type = .enqueue → D'.pending = false ∧ D'.node = D.node ∧ D.node ∈ g.chain
  -- the node of a pending dequeue changes only if it is another call's
  dequeue : D.type = .dequeue → D'.pending = true ∧ D'.node = D.node ∨
    (D.node ∈ g.chain → (σ'.node D.node).deqTid ≠ kTidNotSet)
  head : D.type = .dequeue → D.node = σ.head.value → D'.pending = false

/-- How the state of thread `t` changes. -/
inductive StateStep (n : ℕ) (σ : Shared α) (g : Ghost) (σ' : Shared α) (g' : Ghost) (t : ℕ) : Prop
  | same : σ'.state t = σ.state t → σ'.descOf t = σ.descOf t → g'.cur t = g.cur t →
    StateStep n σ g σ' g' t
  | helped : (σ'.state t).value ∉ g.used → g'.cur t = g.cur t →
    DescStep σ σ' g (σ.descOf t) (σ'.descOf t) → StateStep n σ g σ' g' t
  | published : (σ'.state t).value ∉ g.used → (σ.descOf t).pending = false →
    g'.cur t = some (g.running t) → g.cur t ≠ some (g.running t) →
    (σ.descOf t).phase < (σ'.descOf t).phase →
    (∀ v < n, g.start t v < (σ'.descOf t).phase) →
    (∀ (q p : ℕ), g.chain[q]? = some p → (σ.node p).enqTid = t → q ≤ σ.tail.aba) →
    (∀ (j p : ℕ), g.chain[j]? = some p → (σ.node p).deqTid = t → j < σ.head.aba) →
    StateStep n σ g σ' g' t

/-- What thread `u` relies on about the steps of other threads. -/
structure Rely (n u : ℕ) (σ : Shared α) (g : Ghost) (σ' : Shared α) (g' : Ghost) : Prop where
  chain : g.chain <+: g'.chain
  takers : g.takers <+: g'.takers
  alloc : σ.alloc ≤ σ'.alloc
  node : ∀ p < σ.alloc, (σ'.node p).data = (σ.node p).data ∧
    (σ'.node p).enqTid = (σ.node p).enqTid ∧ g'.maker p = g.maker p
  deqTid : ∀ p, (σ'.node p).deqTid = (σ.node p).deqTid ∨
    (σ.node p).deqTid = kTidNotSet ∧ (σ.descOf (σ'.node p).deqTid).pending = true
  head : σ.head.aba ≤ σ'.head.aba
  tail : σ.tail.aba ≤ σ'.tail.aba
  descAlloc : σ.descAlloc ≤ σ'.descAlloc
  desc : ∀ d < σ.descAlloc, σ'.desc d = σ.desc d
  used : g.used ⊆ g'.used
  grow : ∀ (q p : ℕ), g'.chain[q]? = some p → g.chain[q]? = some p ∨
    p ∉ g.chain ∧ (σ.descOf (σ'.node p).enqTid).pending = true
  taken : ∀ c ∈ g'.takers, c ∈ g.takers ∨ ∃ t < n, g.cur t = some c ∧
    (σ.descOf t).pending = true
  state : ∀ t < n, StateStep n σ g σ' g' t
  calls : ∀ t, g'.running t = g.running t ∧ g'.start t = g.start t ∨
    ∀ v, g'.start t v = (σ.descOf v).phase
  cur : g'.cur u = g.cur u
  running : g'.running u = g.running u ∧ g'.start u = g.start u

/-- The descriptors that thread `u` has not published yet stay private. -/
def Private (u : ℕ) (σ : Shared α) (g g' : Ghost) : Prop :=
  ∀ d < σ.descAlloc, g.owner d = u → d ∉ g.used → g'.owner d = u ∧ d ∉ g'.used

section Basic

variable {tr tr' : List (Moment (machine α n))} {σ σ' : Shared α} {g g' : Ghost} {t u c p j : ℕ}

omit [Inhabited α] in
theorem Rely.refl (n u : ℕ) (σ : Shared α) (g : Ghost) : Rely n u σ g σ g where
  chain := List.prefix_refl _
  takers := List.prefix_refl _
  alloc := le_rfl
  node _ _ := ⟨rfl, rfl, rfl⟩
  deqTid _ := Or.inl rfl
  head := le_rfl
  tail := le_rfl
  descAlloc := le_rfl
  desc _ _ := rfl
  used := subset_rfl
  grow _ _ h := Or.inl h
  taken _ hc := Or.inl hc
  state _ _ := .same rfl rfl rfl
  calls _ := Or.inl ⟨rfl, rfl⟩
  cur := rfl
  running := ⟨rfl, rfl⟩

/-! ### The chain -/

theorem Inv.tail_lt (hI : Inv tr σ g) : σ.tail.aba < g.chain.length := Chain.lt_length hI.tail

theorem Inv.head_lt (hI : Inv tr σ g) : σ.head.aba < g.chain.length := Chain.lt_length hI.head

/-- The queue is the part of the chain after head's position. -/
theorem Inv.queue_eq (hI : Inv tr σ g) :
    σ.queue = (g.chain.drop (σ.head.aba + 1)).map fun p => (σ.node p).data := by
  have hlt := hI.head_lt
  have hle := hI.chain.length_le
  rw [Shared.queue, hI.chain.next _ _ hI.head, hI.chain.follow_eq _ _ hlt (by omega)]

theorem Inv.lt_alloc (hI : Inv tr σ g) {k : ℕ} (h : g.chain[k]? = some p) : p < σ.alloc :=
  hI.chain.lt_alloc h

/-- The taker of a position is set in the node. -/
theorem Inv.deqTid_ne (hI : Inv tr σ g) (hp : g.chain[j]? = some p) (hj : j < g.takers.length) :
    (σ.node p).deqTid ≠ kTidNotSet := fun h => by
  have := (hI.deqTid j p hp).mp h
  omega

theorem Made.mono (hm : Made tr σ g t c p) (halloc : σ.alloc ≤ σ'.alloc)
    (hnode : (σ'.node p).data = (σ.node p).data ∧ (σ'.node p).enqTid = (σ.node p).enqTid ∧
      g'.maker p = g.maker p) : Made tr σ' g' t c p :=
  ⟨hm.ne, hm.lt.trans_le halloc, hnode.2.1.trans hm.tid, hnode.2.2.trans hm.maker,
    by rw [hnode.1]; exact hm.call, hm.did⟩

theorem Made.append (hm : Made tr σ g t c p) (m : Moment (machine α n)) :
    Made (tr ++ [m]) σ g t c p := by
  refine ⟨hm.ne, hm.lt, hm.tid, hm.maker, ?_, hm.did.append⟩
  have hlt := (List.getElem?_eq_some_iff.mp hm.call).choose
  rw [history_append, getElem?_append_of_lt hlt]
  exact hm.call

/-- A node has one maker. -/
theorem Made.unique {t' c' : ℕ} (hm : Made tr σ g t c p) (hm' : Made tr σ g t' c' p) :
    t = t' ∧ c = c' :=
  ⟨hm.tid.symm.trans hm'.tid, hm.maker.symm.trans hm'.maker⟩

/-- What a descriptor says stays true if the chain and the takers only grow, and pending calls
are not affected. -/
theorem DescOk.mono {D : OperationDescriptor} (hD : DescOk tr σ g t D)
    (hcur : g'.cur t = g.cur t) (hchain : g.chain <+: g'.chain) (htakers : g.takers <+: g'.takers)
    (hmade : ∀ c p, Made tr σ g t c p →
      Made tr' σ' g' t c p ∧ (σ'.node p).data = (σ.node p).data)
    (hcall : ∀ (c : ℕ) op, (history tr)[c]? = some (.inv t op) →
      (history tr')[c]? = some (.inv t op))
    (hopen : D.pending = true → ∀ c op, g.cur t = some c → Open (history tr) t c op →
      Open (history tr') t c op)
    (hlast : ∀ c, Made tr σ g t c D.node → D = { D with pending := true, type := .enqueue } →
      (D.node ∈ g.chain → g.chain[σ.tail.aba + 1]? = some D.node) → D.node ∈ g'.chain →
      g'.chain[σ'.tail.aba + 1]? = some D.node)
    (htaken : ∀ c, D = { D with pending := true, type := .dequeue } → g.cur t = some c →
      (∀ j : ℕ, g.takers[j]? = some c → j = σ.head.aba) →
      ∀ j : ℕ, g'.takers[j]? = some c → j = σ'.head.aba)
    (hhead : σ.head.aba ≤ σ'.head.aba) (htail : σ.tail.aba ≤ σ'.tail.aba)
    (hempty : ∀ c, g.cur t = some c → c ∉ g.takers → D.type = .dequeue → D.pending = false →
      c ∉ g'.takers)
    (hsince : ∀ (c : ℕ) q, Since tr c q → Since tr' c q) : DescOk tr' σ' g' t D := by
  cases hD with
  | initial hc => exact .initial (hcur.trans hc)
  | enqueuing hc hm ho hl =>
    obtain ⟨hm', hdata⟩ := hmade _ _ hm
    refine .enqueuing (hcur.trans hc) hm' ?_ (hlast _ hm rfl hl)
    rw [hdata]
    exact hopen rfl _ _ hc ho
  | enqueued hc hm hp =>
    exact .enqueued (hcur.trans hc) (hmade _ _ hm).1 (hchain.subset hp)
  | dequeuing hc ho hj hp =>
    refine .dequeuing (hcur.trans hc) (hopen rfl _ _ hc ho) (htaken _ rfl hc hj) fun h0 => ?_
    obtain ⟨j, hget, h1, h2⟩ := hp h0
    exact ⟨j, Chain.getElem?_mono hchain hget, h1.trans hhead, h2.trans_le htail⟩
  | dequeued hc hi hp hj =>
    exact .dequeued (hcur.trans hc) (hcall _ _ hi) (Chain.getElem?_mono hchain hp)
      (Chain.getElem?_mono htakers hj)
  | empty hc hi hn hs =>
    exact .empty (hcur.trans hc) (hcall _ _ hi) (hempty _ hc hn rfl rfl) (hsince _ _ hs)

/-- The call that a published descriptor belongs to. -/
theorem DescOk.call {D : OperationDescriptor} (hD : DescOk tr σ g t D) (hc : g.cur t = some c) :
    ∃ op, (history tr)[c]? = some (.inv t op) := by
  cases hD with
  | initial hc' => cases hc.symm.trans hc'
  | enqueuing hc' hm _ _ =>
    obtain rfl := Option.some.inj (hc.symm.trans hc')
    exact ⟨_, hm.call⟩
  | enqueued hc' hm _ =>
    obtain rfl := Option.some.inj (hc.symm.trans hc')
    exact ⟨_, hm.call⟩
  | dequeuing hc' ho _ _ =>
    obtain rfl := Option.some.inj (hc.symm.trans hc')
    exact ⟨_, ho.1⟩
  | dequeued hc' hi' _ _ =>
    obtain rfl := Option.some.inj (hc.symm.trans hc')
    exact ⟨_, hi'⟩
  | empty hc' hi' _ _ =>
    obtain rfl := Option.some.inj (hc.symm.trans hc')
    exact ⟨_, hi'⟩

/-- Two threads' descriptors belong to different calls. -/
theorem DescOk.ne_thread {D D' : OperationDescriptor} (hD : DescOk tr σ g t D)
    (hD' : DescOk tr σ g u D') (hc : g.cur t = some c) (hc' : g.cur u = some c) : t = u := by
  obtain ⟨op, hop⟩ := hD.call hc
  obtain ⟨op', hop'⟩ := hD'.call hc'
  have := hop.symm.trans hop'
  simp only [Option.some.injEq, Event.inv.injEq] at this
  exact this.1

end Basic

/-! ### Steps that change nothing -/

section Extend

variable {tr : List (Moment (machine α n))} {σ : Shared α} {g : Ghost} {t u c p j : ℕ}
  {m : Moment (machine α n)}

theorem open_extend {i : ℕ} {op : QueueOp α} (ho : Open (history tr) t i op)
    (he : ∀ r, m.event ≠ .res t r) : Open (history (tr ++ [m])) t i op := by
  rw [history_append, history_singleton]
  exact ho.append he

theorem call_extend {i : ℕ} {op : QueueOp α} (h : (history tr)[i]? = some (.inv t op)) :
    (history (tr ++ [m]))[i]? = some (.inv t op) := by
  rw [history_append, getElem?_append_of_lt (List.getElem?_eq_some_iff.mp h).choose]
  exact h

/-- A further step, which is no response of a call that others still work for. -/
theorem Inv.extend (hI : Inv tr σ g)
    (hres : ∀ t r, m.event = .res t r → (σ.descOf t).pending = false ∧
      ∀ c, g.takers[σ.head.aba]? = some c → (σ.node σ.head.value).deqTid ≠ t)
    (hinv : ∀ t op, m.event = .inv t op → t ≠ kTidNotSet) :
    Inv (tr ++ [m]) σ g where
  chain := hI.chain
  head := hI.head
  tail := hI.tail
  head_le := hI.head_le
  lag := hI.lag
  fresh := hI.fresh
  made q p h := ⟨(hI.made q p h).1, (hI.made q p h).2.append m⟩
  last := hI.last
  le_takers := hI.le_takers
  takers_le := hI.takers_le
  takers_nodup := hI.takers_nodup
  deqTid := hI.deqTid
  taker j p c hp hc := ⟨(hI.taker j p c hp hc).1, call_extend (hI.taker j p c hp hc).2⟩
  reserved c hc := by
    obtain ⟨h1, h2, h3, h4, ho⟩ := hI.reserved c hc
    exact ⟨h1, h2, h3, h4, open_extend ho fun r he => (hres _ r he).2 c hc rfl⟩
  tid c t op h := by
    rw [history_append, history_singleton] at h
    rcases getElem?_concat_cases h with h | ⟨-, h⟩
    · exact hI.tid c t op h
    · exact hinv t op h.symm
  used := hI.used
  state := hI.state
  desc t ht := by
    refine (hI.desc t ht).mono rfl (List.prefix_refl _) (List.prefix_refl _)
      (fun c p hm => ⟨hm.append m, rfl⟩) (fun c op h => call_extend h)
      (fun hp c op _ ho => open_extend ho fun r he => ?_) (fun _ _ _ h h' => h h')
      (fun _ _ _ h => h) le_rfl le_rfl (fun _ _ h _ _ => h) fun _ _ h => h.append
    rw [(hres t r he).1] at hp
    cases hp
  running := hI.running
  start := hI.start

end Extend

/-! ### Allocation -/

section Alloc

variable {tr : List (Moment (machine α n))} {σ σ' : Shared α} {g g' : Ghost} {t u c p j : ℕ}

/-- Only memory that was not allocated changes. -/
structure Allocs (σ σ' : Shared α) (g g' : Ghost) : Prop where
  alloc : σ.alloc ≤ σ'.alloc
  node : ∀ p < σ.alloc, σ'.node p = σ.node p ∧ g'.maker p = g.maker p
  fresh : ∀ p, σ.alloc ≤ p → (σ'.node p).next = ⟨0, 0⟩ ∧ (σ'.node p).deqTid = kTidNotSet
  descAlloc : σ.descAlloc ≤ σ'.descAlloc
  desc : ∀ d < σ.descAlloc, σ'.desc d = σ.desc d
  ends : σ'.head = σ.head ∧ σ'.tail = σ.tail ∧ σ'.state = σ.state
  ghost : g'.chain = g.chain ∧ g'.takers = g.takers ∧ g'.used = g.used ∧ g'.cur = g.cur

theorem Inv.descOf_eq (hI : Inv tr σ g) (ha : Allocs σ σ' g g') (ht : t < n) :
    σ'.descOf t = σ.descOf t := by
  rw [Shared.descOf, Shared.descOf, ha.ends.2.2]
  exact ha.desc _ (hI.used _ (hI.state t ht))

theorem Inv.alloc (hI : Inv tr σ g) (ha : Allocs σ σ' g g')
    (hrunning : ∀ t < n, (σ.descOf t).pending = true → g'.running t = g.running t)
    (hstart : ∀ t, ∀ v < n, g'.start t v ≤ (σ.descOf v).phase) : Inv tr σ' g' := by
  obtain ⟨hh, htl, hs⟩ := ha.ends
  obtain ⟨hc, hk, hu, hcur⟩ := ha.ghost
  have hnode : ∀ {k p : ℕ}, g.chain[k]? = some p → σ'.node p = σ.node p := fun h =>
    (ha.node _ (hI.lt_alloc h)).1
  have hmade : ∀ {t c p}, Made tr σ g t c p → Made tr σ' g' t c p := by
    intro t c p hm
    obtain ⟨h1, h2⟩ := ha.node p hm.lt
    exact hm.mono ha.alloc ⟨by rw [h1], by rw [h1], h2⟩
  constructor
  · rw [hc]
    exact hI.chain.congr ha.alloc fun p hp => by rw [(ha.node p (hI.chain.bound p hp).2).1]
  · rw [hc, hh]
    exact hI.head
  · rw [hc, htl]
    exact hI.tail
  · rw [hh, htl]
    exact hI.head_le
  · rw [hc, htl]
    exact hI.lag
  · intro p hp
    rw [hc] at hp
    by_cases hlt : p < σ.alloc
    · rw [(ha.node p hlt).1]
      exact hI.fresh p hp
    · exact ha.fresh p (not_lt.mp hlt)
  · intro q p h
    rw [hc] at h
    obtain ⟨h1, h2⟩ := hI.made q p h
    rw [hnode h, (ha.node p (hI.lt_alloc h)).2]
    exact ⟨h1, hmade h2⟩
  · intro p h
    rw [hc, htl] at h
    obtain ⟨h1, -⟩ := hI.made _ p h
    rw [hnode h, hI.descOf_eq ha h1]
    exact hI.last p h
  · rw [hh, hk]
    exact hI.le_takers
  · rw [hh, hk]
    exact hI.takers_le
  · rw [hk]
    exact hI.takers_nodup
  · intro j p h
    rw [hc] at h
    rw [hnode h, hk]
    exact hI.deqTid j p h
  · intro j p c h h'
    rw [hc] at h
    rw [hk] at h'
    rw [hnode h]
    exact hI.taker j p c h h'
  · intro c h
    rw [hk, hh] at h
    rw [hh, htl, hnode hI.head, hcur, hI.descOf_eq ha (hI.taker _ _ _ hI.head h).1]
    exact hI.reserved c h
  · exact hI.tid
  · intro d hd
    rw [hu] at hd
    exact (hI.used d hd).trans_le ha.descAlloc
  · intro t ht
    rw [hs, hu]
    exact hI.state t ht
  · intro t ht
    rw [hI.descOf_eq ha ht]
    refine (hI.desc t ht).mono (by rw [hcur]) (by rw [hc]) (by rw [hk])
      (fun c p hm => ⟨hmade hm, by rw [(ha.node p hm.lt).1]⟩) (fun _ _ h => h)
      (fun _ _ _ _ h => h) (fun _ _ _ h => ?_) (fun _ _ _ h => ?_) (by rw [hh]) (by rw [htl])
      (fun _ _ h _ _ => ?_) fun _ _ h => h
    · rwa [hc, htl]
    · rwa [hk, hh]
    · rwa [hk]
  · intro t ht hp
    rw [hI.descOf_eq ha ht] at hp
    rw [hcur, hrunning t ht hp]
    exact hI.running t ht hp
  · intro t v hv
    rw [hI.descOf_eq ha hv]
    exact hstart t v hv

theorem Inv.alloc_rely (hI : Inv tr σ g) (ha : Allocs σ σ' g g')
    (hcalls : g'.running = g.running ∧ g'.start = g.start) : Rely n u σ g σ' g' := by
  obtain ⟨hh, htl, hs⟩ := ha.ends
  obtain ⟨hc, hk, hu, hcur⟩ := ha.ghost
  exact {
    chain := by rw [hc]
    takers := by rw [hk]
    alloc := ha.alloc
    node := fun p hp => by
      obtain ⟨h1, h2⟩ := ha.node p hp
      rw [h1]
      exact ⟨rfl, rfl, h2⟩
    deqTid := fun p => by
      by_cases hp : p < σ.alloc
      · exact Or.inl (by rw [(ha.node p hp).1])
      · have hnot : p ∉ g.chain := fun h => hp (hI.chain.bound p h).2
        exact Or.inl ((ha.fresh p (not_lt.mp hp)).2.trans (hI.fresh p hnot).2.symm)
    head := by rw [hh]
    tail := by rw [htl]
    descAlloc := ha.descAlloc
    desc := ha.desc
    used := by rw [hu]
    grow := fun _ _ h => Or.inl (hc ▸ h)
    taken := fun c hc' => Or.inl (hk ▸ hc')
    state := fun t ht => .same (by rw [hs]) (hI.descOf_eq ha ht) (by rw [hcur])
    calls := fun t => Or.inl ⟨by rw [hcalls.1], by rw [hcalls.2]⟩
    cur := by rw [hcur]
    running := ⟨by rw [hcalls.1], by rw [hcalls.2]⟩ }

theorem allocs_refl (hI : Inv tr σ g) : Allocs σ σ g g where
  alloc := le_rfl
  node _ _ := ⟨rfl, rfl⟩
  fresh p hp := hI.fresh p fun h => absurd (hI.chain.bound p h).2 (not_lt.mpr hp)
  descAlloc := le_rfl
  desc _ _ := rfl
  ends := ⟨rfl, rfl, rfl⟩
  ghost := ⟨rfl, rfl, rfl, rfl⟩

/-- `tlget<Node>` in call `c`. -/
def Ghost.newNode (g : Ghost) (p c : ℕ) : Ghost := { g with maker := Function.update g.maker p c }

theorem Inv.allocs_newNode (hI : Inv tr σ g) (x : α) (t c : ℕ) :
    Allocs σ (σ.newNode x t) g (g.newNode σ.alloc c) where
  alloc := Nat.le_succ _
  node p hp := ⟨Function.update_of_ne hp.ne .., Function.update_of_ne hp.ne ..⟩
  fresh p hp := by
    by_cases h : p = σ.alloc
    · subst h
      simp [Shared.newNode]
    · rw [Shared.newNode]
      simp only [Function.update_of_ne h]
      exact hI.fresh p fun hm => absurd (hI.chain.bound p hm).2 (not_lt.mpr hp)
  descAlloc := le_rfl
  desc _ _ := rfl
  ends := ⟨rfl, rfl, rfl⟩
  ghost := ⟨rfl, rfl, rfl, rfl⟩

/-- `tlget<OperationDescriptor>` by thread `t`. -/
def Ghost.newDesc (g : Ghost) (d t : ℕ) : Ghost := { g with owner := Function.update g.owner d t }

theorem Inv.allocs_newDesc (hI : Inv tr σ g) (D : OperationDescriptor) (t : ℕ) :
    Allocs σ (σ.newDesc D) g (g.newDesc σ.descAlloc t) :=
  { allocs_refl hI with
    descAlloc := Nat.le_succ _
    desc := fun _ hd => Function.update_of_ne hd.ne ..
    ends := ⟨rfl, rfl, rfl⟩
    ghost := ⟨rfl, rfl, rfl, rfl⟩
    node := fun _ _ => ⟨rfl, rfl⟩
    alloc := le_rfl
    fresh := (allocs_refl hI).fresh }

/-- A descriptor that thread `t` allocated and has not published yet. -/
structure OwnDesc (t d : ℕ) (D : OperationDescriptor) (σ : Shared α) (g : Ghost) : Prop where
  lt : d < σ.descAlloc
  desc : σ.desc d = D
  owner : g.owner d = t
  unused : d ∉ g.used

theorem Inv.ownDesc_newDesc (hI : Inv tr σ g) (D : OperationDescriptor) (t : ℕ) :
    OwnDesc t σ.descAlloc D (σ.newDesc D) (g.newDesc σ.descAlloc t) where
  lt := Nat.lt_succ_self _
  desc := Function.update_self ..
  owner := Function.update_self ..
  unused h := Nat.lt_irrefl _ (hI.used _ h)

end Alloc

/-! ### A new descriptor -/

section SetState

variable {tr : List (Moment (machine α n))} {σ : Shared α} {g : Ghost} {t u v d aba i : ℕ}
  {c : Option ℕ} {D : OperationDescriptor}

/-- The descriptor `d` of call `c` is published as that of thread `i`. -/
def Ghost.setState (g : Ghost) (i d : ℕ) (c : Option ℕ) : Ghost :=
  { g with used := insert d g.used, cur := Function.update g.cur i c }

/-- What a descriptor says does not depend on the states of the threads. -/
theorem DescOk.setState {D : OperationDescriptor} (hD : DescOk tr σ g t D) {σ' : Shared α}
    {g' : Ghost} (hσ : σ' = { σ with state := σ'.state }) (hcur : g'.cur t = g.cur t)
    (hg : g'.chain = g.chain ∧ g'.takers = g.takers ∧ g'.maker = g.maker) :
    DescOk tr σ' g' t D := by
  obtain ⟨hc, hk, hm⟩ := hg
  rw [hσ]
  refine hD.mono hcur (by rw [hc]) (by rw [hk]) (fun c p h => ⟨?_, rfl⟩) (fun _ _ h => h)
    (fun _ _ _ _ h => h) (fun _ _ _ h => ?_) (fun _ _ _ h => ?_) le_rfl le_rfl
    (fun _ _ h _ _ => ?_) fun _ _ h => h
  · exact h.mono le_rfl ⟨rfl, rfl, by rw [hm]⟩
  · rwa [hc]
  · rwa [hk]
  · rwa [hk]

theorem Inv.setState (hI : Inv tr σ g) (ho : OwnDesc u d D σ g)
    (hok : DescOk tr σ (g.setState i d c) i D)
    (hlast : ∀ p, g.chain[σ.tail.aba + 1]? = some p → (σ.node p).enqTid = i →
      D.type = .enqueue ∧ D.node = p)
    (hres : ∀ c', g.takers[σ.head.aba]? = some c' → (σ.node σ.head.value).deqTid = i →
      D.type = .dequeue ∧ D.node = σ.head.value ∧ c = some c')
    (hrunning : D.pending = true → c = some (g.running i))
    (hphase : ∀ t, g.start t i ≤ D.phase) :
    Inv tr (σ.setState i ⟨d, aba⟩) (g.setState i d c) := by
  have hself : (σ.setState i ⟨d, aba⟩).descOf i = D := descOf_setState_self.trans ho.desc
  refine { hI with
    last := fun p hp => ?_
    reserved := fun c' hc => ?_
    used := fun d' hd => ?_
    state := fun t ht => ?_
    desc := fun t ht => ?_
    running := fun t ht hp => ?_
    start := fun t v hv => ?_
    made := fun q p hp => ⟨(hI.made q p hp).1, (hI.made q p hp).2.mono le_rfl ⟨rfl, rfl, rfl⟩⟩ }
  · show ((σ.setState i ⟨d, aba⟩).descOf (σ.node p).enqTid).type = _ ∧
      ((σ.setState i ⟨d, aba⟩).descOf (σ.node p).enqTid).node = _
    by_cases hi : (σ.node p).enqTid = i
    · rw [hi, hself]
      exact hlast p hp hi
    · rw [descOf_setState_of_ne hi]
      exact hI.last p hp
  · obtain ⟨h1, h2, h3, h4, h5⟩ := hI.reserved c' hc
    refine ⟨h1, ?_⟩
    show ((σ.setState i ⟨d, aba⟩).descOf (σ.node σ.head.value).deqTid).type = _ ∧
      ((σ.setState i ⟨d, aba⟩).descOf (σ.node σ.head.value).deqTid).node = _ ∧
      Function.update g.cur i c (σ.node σ.head.value).deqTid = _ ∧ _
    by_cases hi : (σ.node σ.head.value).deqTid = i
    · obtain ⟨hr1, hr2, hr3⟩ := hres c' hc hi
      refine ⟨by rw [hi, hself]; exact hr1, by rw [hi, hself]; exact hr2, ?_, h5⟩
      rw [hi, Function.update_self]
      exact hr3
    · rw [descOf_setState_of_ne hi, Function.update_of_ne hi]
      exact ⟨h2, h3, h4, h5⟩
  · rcases Set.mem_insert_iff.mp hd with rfl | hd
    · exact ho.lt
    · exact hI.used d' hd
  · by_cases hi : t = i
    · subst hi
      have : ((σ.setState t ⟨d, aba⟩).state t).value = d := by simp [Shared.setState]
      rw [this]
      exact Set.mem_insert ..
    · have : (σ.setState i ⟨d, aba⟩).state t = σ.state t := Function.update_of_ne hi ..
      rw [this]
      exact Set.mem_insert_of_mem _ (hI.state t ht)
  · by_cases hi : t = i
    · subst hi
      rw [hself]
      exact hok.setState rfl rfl ⟨rfl, rfl, rfl⟩
    · rw [descOf_setState_of_ne hi]
      exact (hI.desc t ht).setState rfl (Function.update_of_ne hi ..) ⟨rfl, rfl, rfl⟩
  · show Function.update g.cur i c t = some (g.running t)
    by_cases hi : t = i
    · subst hi
      rw [hself] at hp
      rw [Function.update_self]
      exact hrunning hp
    · rw [descOf_setState_of_ne hi] at hp
      rw [Function.update_of_ne hi]
      exact hI.running t ht hp
  · by_cases hi : v = i
    · subst hi
      rw [hself]
      exact hphase t
    · rw [descOf_setState_of_ne hi]
      exact hI.start t v hv

omit [Inhabited α] in
theorem setState_rely (hcur : v = i → c = g.cur i)
    (hstep : StateStep n σ g (σ.setState i ⟨d, aba⟩) (g.setState i d c) i) :
    Rely n v σ g (σ.setState i ⟨d, aba⟩) (g.setState i d c) :=
  { Rely.refl n v σ g with
    used := Set.subset_insert ..
    state := fun t _ => by
      by_cases hi : t = i
      · subst hi
        exact hstep
      · exact .same (Function.update_of_ne hi ..) (descOf_setState_of_ne hi)
          (Function.update_of_ne hi ..)
    cur := by
      show Function.update g.cur i c v = g.cur v
      by_cases hi : v = i
      · subst hi
        rw [Function.update_self, hcur rfl]
      · exact Function.update_of_ne hi .. }

omit [Inhabited α] in
/-- The descriptors of other threads are not published. -/
theorem OwnDesc.setState_private (ho : OwnDesc u d D σ g) (hv : v ≠ u) :
    Private v σ g (g.setState i d c) := by
  intro d' _ hd' hu
  refine ⟨hd', fun hm => ?_⟩
  rcases Set.mem_insert_iff.mp hm with rfl | hm
  · exact hv (hd'.symm.trans ho.owner)
  · exact hu hm

/-- **Helping**: a descriptor is replaced while its call is going on. -/
theorem Inv.helped (hI : Inv tr σ g) (hi : i < n) (ho : OwnDesc u d D σ g)
    (hstep : DescStep σ σ g (σ.descOf i) D) (hok : DescOk tr σ g i D)
    (hres : ∀ c', g.takers[σ.head.aba]? = some c' → (σ.node σ.head.value).deqTid = i →
      D.node = (σ.descOf i).node) :
    Inv tr (σ.setState i ⟨d, aba⟩) (g.setState i d (g.cur i)) ∧
      ∀ v, Rely n v σ g (σ.setState i ⟨d, aba⟩) (g.setState i d (g.cur i)) := by
  have hself : (σ.setState i ⟨d, aba⟩).descOf i = D := descOf_setState_self.trans ho.desc
  refine ⟨hI.setState ho ?_ (fun p hp hpi => ?_) (fun c' hc hd => ?_) (fun hp => ?_) fun t => ?_,
    fun v => setState_rely (fun _ => rfl) (.helped ?_ ?_ ?_)⟩
  · exact hok.setState rfl (Function.update_self ..) ⟨rfl, rfl, rfl⟩
  · obtain ⟨h1, h2⟩ := hI.last p hp
    rw [hpi] at h1 h2
    exact ⟨hstep.type.trans h1, (hstep.enqueue h1).2.1.trans h2⟩
  · obtain ⟨-, h2, h3, h4, -⟩ := hI.reserved c' hc
    rw [hd] at h2 h3 h4
    exact ⟨hstep.type.trans h2, (hres c' hc hd).trans h3, h4⟩
  · refine hI.running i hi ?_
    by_contra h
    rw [(hstep.done (Bool.eq_false_of_not_eq_true h)).1] at hp
    cases hp
  · rw [hstep.phase]
    exact hI.start t i hi
  · have : ((σ.setState i ⟨d, aba⟩).state i).value = d := by simp [Shared.setState]
    rw [this]
    exact ho.unused
  · exact Function.update_self ..
  · rw [hself]
    exact ⟨hstep.phase, hstep.type, hstep.done, hstep.enqueue, hstep.dequeue, hstep.head⟩

/-- **Publishing** the descriptor of a new call. -/
theorem Inv.publish (hI : Inv tr σ g) (ht : t < n) (ho : OwnDesc t d D σ g)
    (hdone : (σ.descOf t).pending = false) (hcur : g.cur t ≠ some (g.running t))
    (hphase : (σ.descOf t).phase < D.phase) (hstart : ∀ v < n, g.start t v < D.phase)
    (hpassed : ∀ (q p : ℕ), g.chain[q]? = some p → (σ.node p).enqTid = t → q ≤ σ.tail.aba)
    (htook : ∀ (j p : ℕ), g.chain[j]? = some p → (σ.node p).deqTid = t → j < σ.head.aba)
    (hok : DescOk tr σ (g.setState t d (some (g.running t))) t D) :
    Inv tr (σ.setState t ⟨d, aba⟩) (g.setState t d (some (g.running t))) ∧
      ∀ v, v ≠ t → Rely n v σ g (σ.setState t ⟨d, aba⟩)
        (g.setState t d (some (g.running t))) := by
  have hself : (σ.setState t ⟨d, aba⟩).descOf t = D := descOf_setState_self.trans ho.desc
  refine ⟨hI.setState ho hok (fun p hp hpt => ?_) (fun c' hc hd => ?_) (fun _ => rfl) fun v => ?_,
    fun v hv => setState_rely (fun h => absurd h hv)
      (.published ?_ hdone (Function.update_self ..) hcur ?_ ?_ hpassed htook)⟩
  · have := hpassed _ p hp hpt
    omega
  · have := htook _ _ hI.head hd
    omega
  · exact (hI.start v t ht).trans hphase.le
  · have : ((σ.setState t ⟨d, aba⟩).state t).value = d := by simp [Shared.setState]
    rw [this]
    exact ho.unused
  · rw [hself]
    exact hphase
  · rw [hself]
    exact hstart

end SetState

/-! ### The ends of the queue -/

section Ends

variable {tr : List (Moment (machine α n))} {σ : Shared α} {g : Ghost} {t u p i : ℕ}
  {w : AtomicPointer}

/-- **Linking**: the `cas` on the last node's `next` succeeds. -/
theorem Inv.link (hI : Inv tr σ g) (hi : i < n) (hpend : (σ.descOf i).pending = true)
    (htype : (σ.descOf i).type = .enqueue) (hnode : (σ.descOf i).node = p) (hp : p ∉ g.chain)
    (hw : g.chain[w.aba]? = some w.value) (hle : w.aba ≤ σ.tail.aba)
    (hnext : (σ.node w.value).next = ⟨0, 0⟩) :
    Inv tr (σ.setNext w.value ⟨p, 1⟩) { g with chain := g.chain ++ [p] } ∧
      (∀ v, Rely n v σ g (σ.setNext w.value ⟨p, 1⟩) { g with chain := g.chain ++ [p] }) ∧
      (σ.setNext w.value ⟨p, 1⟩).queue = σ.queue ++ [(σ.node p).data] ∧
      ∃ c, g.cur i = some c ∧ Made tr σ g i c p ∧
        Open (history tr) i c (.enqueue (σ.node p).data) := by
  obtain ⟨c, hc, hm, ho⟩ : ∃ c, g.cur i = some c ∧ Made tr σ g i c p ∧
      Open (history tr) i c (.enqueue (σ.node p).data) := by
    have hD := hI.desc i hi
    generalize σ.descOf i = D at hD hpend htype hnode
    cases hD <;> cases hpend <;> cases htype
    obtain rfl := hnode
    exact ⟨_, by assumption, by assumption, by assumption⟩
  have hkeep : ∀ q, ((σ.setNext w.value ⟨p, 1⟩).node q).data = (σ.node q).data ∧
      ((σ.setNext w.value ⟨p, 1⟩).node q).enqTid = (σ.node q).enqTid ∧
      ((σ.setNext w.value ⟨p, 1⟩).node q).deqTid = (σ.node q).deqTid := fun _ => setNext_keeps
  obtain ⟨hlast, hC⟩ := hI.chain.append hw hnext hp hm.ne hm.lt (hI.fresh p hp).1
  have htl := hI.tail_lt
  have hhl := hI.head_le
  have hk := hI.takers_le
  have hmono : ∀ {k q : ℕ}, g.chain[k]? = some q → (g.chain ++ [p])[k]? = some q := fun h =>
    Chain.getElem?_mono (List.prefix_append ..) h
  -- a node is an old one, or it is the new one
  have hcases : ∀ {k q : ℕ}, (g.chain ++ [p])[k]? = some q →
      g.chain[k]? = some q ∨ k = g.chain.length ∧ q = p := getElem?_concat_cases
  have hmade : ∀ {t c q}, Made tr σ g t c q →
      Made tr (σ.setNext w.value ⟨p, 1⟩) { g with chain := g.chain ++ [p] } t c q := fun h =>
    h.mono le_rfl ⟨(hkeep _).1, (hkeep _).2.1, rfl⟩
  have hI' : Inv tr (σ.setNext w.value ⟨p, 1⟩) { g with chain := g.chain ++ [p] } := by
    refine ⟨by rw [setNext_next]; exact hC, hmono hI.head, hmono hI.tail, hhl, ?_, fun q hq => ?_,
      fun k q h => ?_, fun q h => ?_, hI.le_takers, hk, hI.takers_nodup, fun j q h => ?_,
      fun j q c h h' => ?_, fun c h => ?_, hI.tid, hI.used, hI.state, fun t ht => ?_, hI.running,
      hI.start⟩
    · show (g.chain ++ [p]).length ≤ σ.tail.aba + 2
      rw [List.length_append, List.length_singleton]
      omega
    · have hqc : q ∉ g.chain := fun h => hq (List.mem_append_left _ h)
      have hqw : q ≠ w.value := fun h => hqc (h ▸ List.mem_of_getElem? hw)
      have : (σ.setNext w.value ⟨p, 1⟩).node q = σ.node q := Function.update_of_ne hqw ..
      rw [this]
      exact hI.fresh q hqc
    · rw [(hkeep q).2.1]
      rcases hcases h with h | ⟨-, rfl⟩
      · exact ⟨(hI.made k q h).1, hmade (hI.made k q h).2⟩
      · rw [hm.tid]
        refine ⟨hi, hmade ?_⟩
        show Made tr σ g i (g.maker q) q
        rw [hm.maker]
        exact hm
    · rw [(hkeep q).2.1]
      show (σ.descOf (σ.node q).enqTid).type = _ ∧ (σ.descOf (σ.node q).enqTid).node = _
      rcases hcases h with h | ⟨-, rfl⟩
      · have hlt : σ.tail.aba + 1 < g.chain.length := Chain.lt_length h
        omega
      · rw [hm.tid]
        exact ⟨htype, hnode⟩
    · rw [(hkeep q).2.2]
      rcases hcases h with h | ⟨rfl, rfl⟩
      · exact hI.deqTid j q h
      · refine ⟨fun _ => ?_, fun _ => (hI.fresh q hp).2⟩
        show g.takers.length ≤ g.chain.length
        omega
    · rw [(hkeep q).2.2]
      rcases hcases h with h | ⟨rfl, rfl⟩
      · exact hI.taker j q c h h'
      · have h' : g.takers[g.chain.length]? = some c := h'
        have := Chain.lt_length h'
        omega
    · show σ.head.aba < σ.tail.aba ∧
        (σ.descOf ((σ.setNext w.value ⟨p, 1⟩).node σ.head.value).deqTid).type = _ ∧
        (σ.descOf ((σ.setNext w.value ⟨p, 1⟩).node σ.head.value).deqTid).node = _ ∧
        g.cur ((σ.setNext w.value ⟨p, 1⟩).node σ.head.value).deqTid = _ ∧
        Open _ ((σ.setNext w.value ⟨p, 1⟩).node σ.head.value).deqTid c _
      rw [(hkeep _).2.2]
      exact hI.reserved c h
    · refine (hI.desc t ht).mono rfl (List.prefix_append ..) (List.prefix_refl _)
        (fun c q h => ⟨hmade h, (hkeep q).1⟩) (fun _ _ h => h) (fun _ _ _ _ h => h)
        (fun c _ _ hq hmem => ?_) (fun _ _ _ h => h) le_rfl le_rfl (fun _ _ h _ _ => h)
        fun _ _ h => h
      show (g.chain ++ [p])[σ.tail.aba + 1]? = _
      rcases List.mem_append.mp hmem with h | h
      · exact hmono (hq h)
      · rw [List.mem_singleton.mp h]
        have hend : σ.tail.aba + 1 = g.chain.length := by omega
        rw [hend, List.getElem?_concat_length]
  refine ⟨hI', fun v => ?_, ?_, c, hc, hm, ho⟩
  · exact { Rely.refl n v σ g with
      chain := List.prefix_append ..
      node := fun q _ => ⟨(hkeep q).1, (hkeep q).2.1, rfl⟩
      deqTid := fun q => Or.inl (hkeep q).2.2
      grow := fun q r hq => by
        rcases hcases hq with h | ⟨-, rfl⟩
        · exact Or.inl h
        · rw [(hkeep r).2.1, hm.tid]
          exact Or.inr ⟨hp, hpend⟩
      state := fun t _ => .same rfl rfl rfl }
  · rw [hI'.queue_eq, hI.queue_eq]
    show ((g.chain ++ [p]).drop (σ.head.aba + 1)).map _ = _
    have hdata : (fun q => ((σ.setNext w.value ⟨p, 1⟩).node q).data) = fun q => (σ.node q).data :=
      funext fun q => (hkeep q).1
    rw [List.drop_append_of_le_length (by omega), List.map_append, List.map_singleton, hdata,
      (hkeep p).1]

/-- **Reserving** head's node: the first value of the queue gets its taker. -/
theorem Inv.setDeqTid (hI : Inv tr σ g) (hi : i < n) (hpend : (σ.descOf i).pending = true)
    (htype : (σ.descOf i).type = .dequeue) (hnode : (σ.descOf i).node = w.value)
    (hw : g.chain[w.aba]? = some w.value) (hle : w.aba ≤ σ.head.aba) (hlt : w.aba < σ.tail.aba)
    (hnot : (σ.node w.value).deqTid = kTidNotSet) :
    ∃ c, g.cur i = some c ∧ c ∉ g.takers ∧ Open (history tr) i c .dequeue ∧
      g.takers.length = w.aba ∧
      Inv tr (σ.setDeqTid w.value i) { g with takers := g.takers ++ [c] } ∧
      ∀ v, Rely n v σ g (σ.setDeqTid w.value i) { g with takers := g.takers ++ [c] } := by
  obtain ⟨c, hc, ho, hj⟩ : ∃ c, g.cur i = some c ∧ Open (history tr) i c .dequeue ∧
      ∀ j : ℕ, g.takers[j]? = some c → j = σ.head.aba := by
    have hD := hI.desc i hi
    generalize σ.descOf i = D at hD hpend htype hnode
    cases hD <;> cases hpend <;> cases htype
    exact ⟨_, by assumption, by assumption, by assumption⟩
  have hlen : g.takers.length ≤ w.aba := (hI.deqTid _ _ hw).mp hnot
  have hle' := hI.le_takers
  have hhead : σ.head.aba = w.aba := by omega
  have hhv : σ.head.value = w.value := by
    have hh := hI.head
    rw [hhead, hw] at hh
    exact (Option.some.inj hh).symm
  have hlen' : g.takers.length = w.aba := by omega
  have hcnot : c ∉ g.takers := fun hm => by
    obtain ⟨j, hjc⟩ := List.mem_iff_getElem?.mp hm
    have h1 := Chain.lt_length hjc
    have h2 := hj j hjc
    omega
  have hkeep : ∀ q, ((σ.setDeqTid w.value i).node q).data = (σ.node q).data ∧
      ((σ.setDeqTid w.value i).node q).enqTid = (σ.node q).enqTid ∧
      ((σ.setDeqTid w.value i).node q).next = (σ.node q).next := fun _ => setDeqTid_keeps
  have hself : ((σ.setDeqTid w.value i).node w.value).deqTid = i := by
    simp [Shared.setDeqTid]
  have hold : ∀ q, q ≠ w.value → (σ.setDeqTid w.value i).node q = σ.node q := fun q hq =>
    Function.update_of_ne hq ..
  have hmade : ∀ {t c' q}, Made tr σ g t c' q →
      Made tr (σ.setDeqTid w.value i) { g with takers := g.takers ++ [c] } t c' q := fun h =>
    h.mono le_rfl ⟨(hkeep _).1, (hkeep _).2.1, rfl⟩
  refine ⟨c, hc, hcnot, ho, hlen', ?_, fun v => ?_⟩
  · refine ⟨?_, hI.head, hI.tail, hI.head_le, hI.lag, fun q hq => ?_, fun k q h => ?_,
      fun q h => ?_, ?_, ?_, ?_, fun j q h => ?_, fun j q c' h h' => ?_, fun c' h => ?_, hI.tid,
      hI.used, hI.state, fun t ht => ?_, hI.running, hI.start⟩
    · refine hI.chain.congr le_rfl fun q _ => (hkeep q).2.2
    · have hqw : q ≠ w.value := fun h => hq (h ▸ List.mem_of_getElem? hw)
      rw [hold q hqw]
      exact hI.fresh q hq
    · rw [(hkeep q).2.1]
      exact ⟨(hI.made k q h).1, hmade (hI.made k q h).2⟩
    · rw [(hkeep q).2.1]
      exact hI.last q h
    · show σ.head.aba ≤ (g.takers ++ [c]).length
      rw [List.length_append]
      omega
    · show (g.takers ++ [c]).length ≤ σ.head.aba + 1
      rw [List.length_append, List.length_singleton]
      omega
    · refine List.nodup_append.mpr ⟨hI.takers_nodup, by simp, fun a ha b hb => ?_⟩
      rw [List.mem_singleton.mp hb]
      exact fun h => hcnot (h ▸ ha)
    · show _ ↔ (g.takers ++ [c]).length ≤ j
      rw [List.length_append, List.length_singleton]
      by_cases hq : q = w.value
      · subst hq
        obtain rfl := hI.chain.pos_unique hw h
        rw [hself]
        obtain ⟨op, hop⟩ : ∃ op, (history tr)[c]? = some (.inv i op) := ⟨_, ho.1⟩
        have := hI.tid c i op hop
        exact ⟨fun h => absurd h this, fun h => by omega⟩
      · have hjw : j ≠ w.aba := fun hj => hq (Option.some.inj ((hj ▸ h).symm.trans hw))
        rw [hold q hq, hI.deqTid j q h]
        omega
    · rcases getElem?_concat_cases h' with h' | ⟨hj', rfl⟩
      · have hjl := Chain.lt_length h'
        have hq : q ≠ w.value := by
          rintro rfl
          have := hI.chain.pos_unique hw h
          omega
        rw [hold q hq]
        exact hI.taker j q c' h h'
      · have hjw : j = w.aba := hj'.trans hlen'
        subst hjw
        obtain rfl := Option.some.inj (hw.symm.trans h)
        rw [hself]
        exact ⟨hi, ho.1⟩
    · have h : (g.takers ++ [c])[σ.head.aba]? = some c' := h
      rw [hhead, ← hlen', List.getElem?_concat_length] at h
      obtain rfl := Option.some.inj h
      show σ.head.aba < σ.tail.aba ∧
        (σ.descOf ((σ.setDeqTid w.value i).node σ.head.value).deqTid).type = _ ∧
        (σ.descOf ((σ.setDeqTid w.value i).node σ.head.value).deqTid).node = σ.head.value ∧
        g.cur ((σ.setDeqTid w.value i).node σ.head.value).deqTid = _ ∧
        Open _ ((σ.setDeqTid w.value i).node σ.head.value).deqTid c _
      rw [hhv, hself]
      exact ⟨by omega, htype, hnode, hc, ho⟩
    · refine (hI.desc t ht).mono rfl (List.prefix_refl _) (List.prefix_append ..)
        (fun c' q h => ⟨hmade h, (hkeep q).1⟩) (fun _ _ h => h) (fun _ _ _ _ h => h)
        (fun _ _ _ h => h) (fun c' _ _ hj' j hjc => ?_) le_rfl le_rfl
        (fun c' hc' hn _ hdone hm => ?_) fun _ _ h => h
      · show j = σ.head.aba
        rcases getElem?_concat_cases hjc with hjc | ⟨hjl, -⟩
        · exact hj' j hjc
        · omega
      · rcases List.mem_append.mp hm with hm | hm
        · exact hn hm
        · obtain rfl := List.mem_singleton.mp hm
          -- the taker's own descriptor is pending
          obtain rfl := (hI.desc t ht).ne_thread (hI.desc i hi) hc' hc
          rw [hpend] at hdone
          cases hdone
  · exact { Rely.refl n v σ g with
      takers := List.prefix_append ..
      node := fun q _ => ⟨(hkeep q).1, (hkeep q).2.1, rfl⟩
      grow := fun _ _ h => Or.inl h
      deqTid := fun q => by
        by_cases hq : q = w.value
        · subst hq
          rw [hself]
          exact Or.inr ⟨hnot, hpend⟩
        · exact Or.inl (by rw [hold q hq])
      taken := fun c' hm => by
        rcases List.mem_append.mp hm with hm | hm
        · exact Or.inl hm
        · rw [List.mem_singleton.mp hm]
          exact Or.inr ⟨i, hi, hc, hpend⟩
      state := fun t _ => .same rfl rfl rfl }

/-- **Swinging tail** to the last node, whose enqueue is done. -/
theorem Inv.casTail (hI : Inv tr σ g) (hw : σ.tail = w) (hp : g.chain[w.aba + 1]? = some p)
    (hdone : (σ.descOf (σ.node p).enqTid).pending = false) :
    Inv tr { σ with tail := ⟨p, w.aba + 1⟩ } g ∧
      ∀ v, Rely n v σ g { σ with tail := ⟨p, w.aba + 1⟩ } g := by
  subst hw
  have hlag := hI.lag
  have hle := hI.head_le
  refine ⟨{ hI with
    tail := hp
    head_le := by show σ.head.aba ≤ σ.tail.aba + 1; omega
    lag := by show g.chain.length ≤ σ.tail.aba + 1 + 2; omega
    made := fun q p h => ⟨(hI.made q p h).1, (hI.made q p h).2.mono le_rfl ⟨rfl, rfl, rfl⟩⟩
    last := fun q h => ?_
    reserved := fun c h => ?_
    desc := fun t ht => ?_ }, fun v => { Rely.refl n v σ g with
      tail := Nat.le_succ _
      state := fun t _ => .same rfl rfl rfl }⟩
  · have h : g.chain[σ.tail.aba + 1 + 1]? = some q := h
    have := Chain.lt_length h
    omega
  · obtain ⟨h1, h2⟩ := hI.reserved c h
    exact ⟨Nat.lt_succ_of_lt h1, h2⟩
  · refine (hI.desc t ht).mono rfl (List.prefix_refl _) (List.prefix_refl _)
      (fun c q h => ⟨h.mono le_rfl ⟨rfl, rfl, rfl⟩, rfl⟩) (fun _ _ h => h)
      (fun _ _ _ _ h => h) (fun c hm hD hl hmem => ?_) (fun _ _ _ h => h) le_rfl
      (Nat.le_succ _) (fun _ _ h _ _ => h) fun _ _ h => h
    -- an enqueue whose node is the last one is done
    have hq := Option.some.inj (hp.symm.trans (hl hmem))
    rw [hq, hm.tid, hD] at hdone
    cases hdone

/-- **Swinging head**: the queue loses its first value, which its taker will return. -/
theorem Inv.casHead (hI : Inv tr σ g) (hw : σ.head = w) (hp : g.chain[w.aba + 1]? = some p)
    (hset : (σ.node w.value).deqTid ≠ kTidNotSet)
    (hdone : (σ.descOf (σ.node w.value).deqTid).pending = false) :
    Inv tr { σ with head := ⟨p, w.aba + 1⟩ } g ∧
      (∀ v, Rely n v σ g { σ with head := ⟨p, w.aba + 1⟩ } g) ∧
      σ.queue = (σ.node p).data :: ({ σ with head := ⟨p, w.aba + 1⟩ } : Shared α).queue ∧
      ∃ c, g.takers[w.aba]? = some c ∧
        Open (history tr) (σ.node w.value).deqTid c .dequeue := by
  subst hw
  have hlen : σ.head.aba < g.takers.length := by
    by_contra h
    exact hset ((hI.deqTid _ _ hI.head).mpr (not_lt.mp h))
  have hget : g.takers[σ.head.aba]? = some g.takers[σ.head.aba] := List.getElem?_eq_getElem hlen
  obtain ⟨hlt, -, -, -, ho⟩ := hI.reserved _ hget
  have hle := hI.takers_le
  have hI' : Inv tr { σ with head := ⟨p, σ.head.aba + 1⟩ } g := by
    refine { hI with
      head := hp
      head_le := hlt
      made := fun q p h => ⟨(hI.made q p h).1, (hI.made q p h).2.mono le_rfl ⟨rfl, rfl, rfl⟩⟩
      le_takers := hlen
      takers_le := by show g.takers.length ≤ σ.head.aba + 1 + 1; omega
      reserved := fun c h => ?_
      desc := fun t ht => ?_ }
    · have h : g.takers[σ.head.aba + 1]? = some c := h
      have := Chain.lt_length h
      omega
    · refine (hI.desc t ht).mono rfl (List.prefix_refl _) (List.prefix_refl _)
        (fun c q h => ⟨h.mono le_rfl ⟨rfl, rfl, rfl⟩, rfl⟩) (fun _ _ h => h)
        (fun _ _ _ _ h => h) (fun _ _ _ h => h) (fun c hD hc hj j hjc => ?_) (Nat.le_succ _)
        le_rfl (fun _ _ h _ _ => h) fun _ _ h => h
      -- a pending dequeue has no taken value
      exfalso
      obtain rfl := hj j hjc
      obtain ⟨op, hop⟩ := (hI.desc t ht).call hc
      have hkey := hop.symm.trans (hI.taker _ _ _ hI.head hjc).2
      simp only [Option.some.injEq, Event.inv.injEq] at hkey
      rw [← hkey.1, hD] at hdone
      cases hdone
  refine ⟨hI', fun v => { Rely.refl n v σ g with
    head := Nat.le_succ _
    state := fun t _ => .same rfl rfl rfl }, ?_, _, hget, ho⟩
  obtain ⟨hl, hg⟩ := List.getElem?_eq_some_iff.mp hp
  rw [hI'.queue_eq, hI.queue_eq, List.drop_eq_getElem_cons hl, List.map_cons, hg]

end Ends

/-! ### What a step does to the queue -/

/-- A step links a node, moves head, or does neither. -/
inductive Effect (tr : List (Moment (machine α n))) (σ : Shared α) (g : Ghost) (σ' : Shared α)
    (g' : Ghost) : Prop
  | plain : (∀ p, (σ'.node p).next = (σ.node p).next) → σ'.head = σ.head →
    g'.chain = g.chain →
    (∀ c ∈ g'.takers, c ∈ g.takers ∨ ∃ t, Open (history tr) t c .dequeue) →
    Effect tr σ g σ' g'
  | link {p q t c : ℕ} : (σ.node q).next.value = 0 → σ' = σ.setNext q ⟨p, 1⟩ → p ∉ g.chain →
    g' = { g with chain := g.chain ++ [p] } → Made tr σ g t c p →
    Open (history tr) t c (.enqueue (σ.node p).data) →
    σ'.queue = σ.queue ++ [(σ.node p).data] → Effect tr σ g σ' g'
  | move {p t c : ℕ} : σ' = { σ with head := ⟨p, σ.head.aba + 1⟩ } → g' = g →
    g.chain[σ.head.aba + 1]? = some p → g.takers[σ.head.aba]? = some c →
    Open (history tr) t c .dequeue → σ.queue = (σ.node p).data :: σ'.queue →
    Effect tr σ g σ' g'

theorem Effect.refl (tr : List (Moment (machine α n))) (σ : Shared α) (g : Ghost) :
    Effect tr σ g σ g :=
  .plain (fun _ => rfl) rfl rfl fun _ h => Or.inl h

end WaitfreeQueue

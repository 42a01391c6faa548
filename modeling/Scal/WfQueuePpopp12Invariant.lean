/-
The invariant of the wait-free queue with a fast path.

All nodes ever linked form one chain, and the calls that get the items form a list as well
(`Ghost.takers`): the call at position `j` gets the item at position `j + 1` of the chain.  A
dequeue on the fast path joins the list when it moves head, one on the slow path when it stamps
head with its thread id.

* `Inv` — the invariant; while head is stamped, the descriptor of that thread shows head's node;
* `Mono` — what every step keeps.  A descriptor that was replaced does not come back, and head
  leaves a stamped node only when the thread's descriptor is done (`moved`);
* `Others` — what a thread may rely on about the steps of the others: they neither link its
  nodes nor stamp head for it, and they change its descriptor only to finish it (`Finishes`);
* `Inv.setState`, `Inv.link`, `Inv.stamp`, `Inv.casHead`, … — the steps that write.
-/
import Scal.WfQueuePpopp12
import Scal.Calls

open Interleave Linearizability
open Helping (HelpRecord toUnsigned kNoPhase)

namespace WfQueuePpopp12

variable {α : Type} [Inhabited α] {c : Params}

/-- The nodes linked so far, in order, and the call that allocated a node; the calls that get
the items, in order; the position of head's node; the thread that allocated a descriptor, and the
descriptors that were published. -/
structure Ghost where
  chain : List ℕ
  maker : ℕ → ℕ
  takers : List ℕ
  head : ℕ
  owner : ℕ → ℕ
  used : Set ℕ

/-- The step allocates the node `p`. -/
def Makes (p : ℕ) (m : Moment (machine α c)) : Prop :=
  m.before.alloc = p ∧ ∃ x, m.after = m.before.newNode x

structure Inv (tr : List (Moment (machine α c))) (σ : Shared α) (g : Ghost) : Prop where
  chain : Chain (fun p => (σ.node p).next) σ.alloc g.chain
  head : g.chain[g.head]? = some σ.head.value
  tail : g.chain[σ.tail.aba]? = some σ.tail.value
  head_le : g.head ≤ σ.tail.aba
  fresh : ∀ p, p ∉ g.chain → (σ.node p).next = ⟨0, 0⟩
  enqTid : ∀ p ∈ g.chain, (σ.node p).enqTid ≠ kTidNotSet → (σ.node p).enqTid < c.numThreads
  takers : g.takers.length = g.head + if σ.head.aba = kTidNotSet then 0 else 1
  takers_nodup : g.takers.Nodup
  taker : ∀ i ∈ g.takers, ∃ t, (history tr)[i]? = some (.inv t .dequeue)
  stamped : σ.head.aba ≠ kTidNotSet → g.head < σ.tail.aba ∧ σ.head.aba < c.numThreads ∧
    (σ.descOf σ.head.aba).type = .dequeue ∧ (σ.descOf σ.head.aba).node = σ.head.value ∧
    ∃ i, g.takers[g.head]? = some i ∧ Open (history tr) σ.head.aba i .dequeue
  used : ∀ d ∈ g.used, d < σ.descAlloc
  phase : ∀ d ∈ g.used, -1 ≤ (σ.desc d).phase ∧ ((σ.desc d).pending = true → 0 ≤ (σ.desc d).phase)
  state : ∀ t < c.numThreads, (σ.state t).value ∈ g.used
  -- the node of a dequeue was head's
  node : ∀ t < c.numThreads, (σ.descOf t).type = .dequeue →
    (σ.descOf t).node = 0 ∨ ∃ j ≤ g.head, g.chain[j]? = some (σ.descOf t).node
  records : ∀ t, (σ.records t).curThreadId = 0 ∧ (σ.records t).lastPhase = toUnsigned kNoPhase

/-- What every step keeps. -/
structure Mono (n : ℕ) (σ : Shared α) (g : Ghost) (σ' : Shared α) (g' : Ghost) : Prop where
  chain : g.chain <+: g'.chain
  takers : g.takers <+: g'.takers
  alloc : σ.alloc ≤ σ'.alloc
  node : ∀ p < σ.alloc, (σ'.node p).data = (σ.node p).data ∧ g'.maker p = g.maker p
  enqTid : ∀ p ∈ g.chain, (σ'.node p).enqTid = (σ.node p).enqTid
  head : g.head ≤ g'.head
  stays : g'.head = g.head → σ.head.aba ≠ kTidNotSet → σ'.head = σ.head
  tail : σ.tail.aba ≤ σ'.tail.aba
  descAlloc : σ.descAlloc ≤ σ'.descAlloc
  desc : ∀ d < σ.descAlloc, σ'.desc d = σ.desc d
  used : g.used ⊆ g'.used
  state : ∀ t < n, σ'.state t = σ.state t ∨ (σ'.state t).value ∉ g.used
  finished : σ.head.aba ≠ kTidNotSet → g'.head = g.head →
    σ'.state σ.head.aba = σ.state σ.head.aba ∨ (σ'.descOf σ.head.aba).pending = false
  moved : σ.head.aba ≠ kTidNotSet → g.head < g'.head → (σ.descOf σ.head.aba).pending = false

/-- The descriptor of a call that is done. -/
def OperationDescriptor.done (D : OperationDescriptor) : OperationDescriptor :=
  .init D.phase false D.type D.node

/-- A descriptor of thread `u` is finished: a pending enqueue only when its node is linked, and a
pending dequeue only when head is stamped for it. -/
structure Finishes (u : ℕ) (σ : Shared α) (g : Ghost) (D : OperationDescriptor) : Prop where
  desc : D = (σ.descOf u).done
  enqueue : (σ.descOf u).pending = true → (σ.descOf u).type = .enqueue →
    (σ.descOf u).node ∈ g.chain
  dequeue : (σ.descOf u).pending = true → (σ.descOf u).type = .dequeue → σ.head.aba = u

/-- What thread `u` relies on about the steps of other threads. -/
structure Others (u : ℕ) (tr : List (Moment (machine α c))) (σ : Shared α) (g : Ghost)
    (σ' : Shared α) (g' : Ghost) : Prop where
  own : σ'.state u = σ.state u ∨ Finishes u σ g (σ'.descOf u)
  stamp : u ≠ kTidNotSet → σ'.head.aba = u → σ.head.aba = u
  node : ∀ p < σ.alloc, ∀ op, (history tr)[g.maker p]? = some (.inv u op) →
    (σ'.node p).enqTid = (σ.node p).enqTid ∧ (p ∈ g'.chain → p ∈ g.chain)
  taken : ∀ (i : ℕ) op, (history tr)[i]? = some (.inv u op) → i ∈ g'.takers → i ∈ g.takers

/-- The descriptors that thread `u` has not published yet stay private. -/
def Private (u : ℕ) (σ : Shared α) (g g' : Ghost) : Prop :=
  ∀ d < σ.descAlloc, g.owner d = u → d ∉ g.used → g'.owner d = u ∧ d ∉ g'.used

/-- A step of thread `u` links a node, moves head, or does neither.  Head moves for the thread
that has stamped it, if there is one. -/
inductive Effect (tr : List (Moment (machine α c))) (u : ℕ) (σ : Shared α) (g : Ghost)
    (σ' : Shared α) (g' : Ghost) : Prop
  | plain : (∀ p, (σ'.node p).next = (σ.node p).next) → σ'.head.value = σ.head.value →
    g'.head = g.head → g'.chain = g.chain →
    (∀ i ∈ g'.takers, i ∈ g.takers ∨ ∃ t, Open (history tr) t i .dequeue) →
    Effect tr u σ g σ' g'
  | link {p q t i : ℕ} : (σ.node q).next.value = 0 → σ' = σ.setNext q ⟨p, 1⟩ → p ∉ g.chain →
    p ≠ 0 → g' = { g with chain := g.chain ++ [p] } → Did Makes tr i p →
    Open (history tr) t i (.enqueue (σ.node p).data) → Effect tr u σ g σ' g'
  | move {p i : ℕ} : σ' = { σ with head := ⟨p, kTidNotSet⟩ } → g'.chain = g.chain →
    g'.head = g.head + 1 → g.chain[g.head + 1]? = some p → g'.takers[g.head]? = some i →
    Open (history tr) (if σ.head.aba = kTidNotSet then u else σ.head.aba) i .dequeue →
    (∀ i ∈ g'.takers, i ∈ g.takers ∨ ∃ t, Open (history tr) t i .dequeue) →
    Effect tr u σ g σ' g'

/-- What is to be shown of the memory and the ghost after an access of thread `u`. -/
structure Keeps (u : ℕ) (tr : List (Moment (machine α c))) (σ : Shared α) (g : Ghost)
    (σ' : Shared α) (g' : Ghost) : Prop where
  inv : Inv tr σ' g'
  mono : Mono c.numThreads σ g σ' g'
  others : ∀ v, v ≠ u → Others v tr σ g σ' g' ∧ Private v σ g g'
  effect : Effect tr u σ g σ' g'

section Basic

variable {tr : List (Moment (machine α c))} {σ σ' : Shared α} {g g' : Ghost} {t u p i j : ℕ}

omit [Inhabited α] in
theorem Mono.refl (n : ℕ) (σ : Shared α) (g : Ghost) : Mono n σ g σ g where
  chain := List.prefix_refl _
  takers := List.prefix_refl _
  alloc := le_rfl
  node _ _ := ⟨rfl, rfl⟩
  enqTid _ _ := rfl
  head := le_rfl
  stays _ _ := rfl
  tail := le_rfl
  descAlloc := le_rfl
  desc _ _ := rfl
  used := subset_rfl
  state _ _ := Or.inl rfl
  finished _ _ := Or.inl rfl
  moved _ h := absurd h (lt_irrefl _)

theorem Others.refl (u : ℕ) (tr : List (Moment (machine α c))) (σ : Shared α) (g : Ghost) :
    Others u tr σ g σ g where
  own := Or.inl rfl
  stamp _ h := h
  node _ _ _ _ := ⟨rfl, fun h => h⟩
  taken _ _ _ h := h

omit [Inhabited α] in
theorem Private.refl (u : ℕ) (σ : Shared α) (g : Ghost) : Private u σ g g :=
  fun _ _ ho hu => ⟨ho, hu⟩

theorem Effect.refl (tr : List (Moment (machine α c))) (u : ℕ) (σ : Shared α) (g : Ghost) :
    Effect tr u σ g σ g :=
  .plain (fun _ => rfl) rfl rfl rfl fun _ h => Or.inl h

theorem Keeps.refl (hI : Inv tr σ g) (u : ℕ) : Keeps u tr σ g σ g :=
  ⟨hI, Mono.refl .., fun v _ => ⟨Others.refl v .., Private.refl v _ _⟩, Effect.refl ..⟩

theorem Inv.tail_lt (hI : Inv tr σ g) : σ.tail.aba < g.chain.length := Chain.lt_length hI.tail

theorem Inv.head_lt (hI : Inv tr σ g) : g.head < g.chain.length := Chain.lt_length hI.head

/-- The queue is the part of the chain after head's position. -/
theorem Inv.queue_eq (hI : Inv tr σ g) :
    σ.queue = (g.chain.drop (g.head + 1)).map fun p => (σ.node p).data := by
  have hlt := hI.head_lt
  have hle := hI.chain.length_le
  rw [Shared.queue, hI.chain.next _ _ hI.head, hI.chain.follow_eq _ _ hlt (by omega)]

theorem Inv.lt_alloc (hI : Inv tr σ g) {k : ℕ} (h : g.chain[k]? = some p) : p < σ.alloc :=
  hI.chain.lt_alloc h

theorem call_extend {m : Moment (machine α c)} {op : QueueOp α}
    (h : (history tr)[i]? = some (.inv t op)) :
    (history (tr ++ [m]))[i]? = some (.inv t op) := by
  rw [history_append, getElem?_append_of_lt (List.getElem?_eq_some_iff.mp h).choose]
  exact h

/-- A further step, which is no response of the thread that has stamped head. -/
theorem Inv.extend {m : Moment (machine α c)} (hI : Inv tr σ g)
    (hres : ∀ t r, m.event = .res t r → σ.head.aba ≠ t) : Inv (tr ++ [m]) σ g :=
  { hI with
    taker := fun i hi => by
      obtain ⟨t, ht⟩ := hI.taker i hi
      exact ⟨t, call_extend ht⟩
    stamped := fun ha => by
      obtain ⟨h1, h2, h3, h4, i, h5, ho⟩ := hI.stamped ha
      refine ⟨h1, h2, h3, h4, i, h5, ?_⟩
      rw [history_append, history_singleton]
      exact ho.append fun r he => hres _ r he rfl }

end Basic

/-! ### Allocation -/

section Allocation

variable {tr : List (Moment (machine α c))} {σ σ' : Shared α} {g g' : Ghost} {t u v : ℕ}

/-- Only memory that no other thread reads changes. -/
structure Allocates (σ : Shared α) (g : Ghost) (σ' : Shared α) (g' : Ghost) : Prop where
  alloc : σ.alloc ≤ σ'.alloc
  next : ∀ p, (σ'.node p).next = (σ.node p).next
  node : ∀ p < σ.alloc, (σ'.node p).data = (σ.node p).data ∧ g'.maker p = g.maker p
  enqTid : ∀ p ∈ g.chain, (σ'.node p).enqTid = (σ.node p).enqTid
  descAlloc : σ.descAlloc ≤ σ'.descAlloc
  desc : ∀ d < σ.descAlloc, σ'.desc d = σ.desc d ∧ g'.owner d = g.owner d
  records : ∀ t, (σ'.records t).curThreadId = (σ.records t).curThreadId ∧
    (σ'.records t).lastPhase = (σ.records t).lastPhase
  ends : σ'.head = σ.head ∧ σ'.tail = σ.tail ∧ σ'.state = σ.state
  ghost : g'.chain = g.chain ∧ g'.takers = g.takers ∧ g'.head = g.head ∧ g'.used = g.used

omit [Inhabited α] in
theorem Allocates.refl (σ : Shared α) (g : Ghost) : Allocates σ g σ g where
  alloc := le_rfl
  next _ := rfl
  node _ _ := ⟨rfl, rfl⟩
  enqTid _ _ := rfl
  descAlloc := le_rfl
  desc _ _ := ⟨rfl, rfl⟩
  records _ := ⟨rfl, rfl⟩
  ends := ⟨rfl, rfl, rfl⟩
  ghost := ⟨rfl, rfl, rfl, rfl⟩

theorem Allocates.descOf (ha : Allocates σ g σ' g') (hI : Inv tr σ g) (ht : t < c.numThreads) :
    σ'.descOf t = σ.descOf t := by
  rw [Shared.descOf, Shared.descOf, ha.ends.2.2]
  exact (ha.desc _ (hI.used _ (hI.state t ht))).1

theorem Allocates.inv (ha : Allocates σ g σ' g') (hI : Inv tr σ g) : Inv tr σ' g' := by
  have hdesc := fun t ht => ha.descOf (t := t) hI ht
  obtain ⟨node, alloc, desc, descAlloc, head, tail, state, records⟩ := σ'
  obtain ⟨chain, maker, takers, pos, owner, used⟩ := g'
  obtain ⟨rfl, rfl, rfl⟩ := ha.ends
  obtain ⟨rfl, rfl, rfl, rfl⟩ := ha.ghost
  exact { hI with
    chain := hI.chain.congr ha.alloc fun p _ => ha.next p
    fresh := fun p hp => (ha.next p).trans (hI.fresh p hp)
    enqTid := fun p hp h => by
      have htid : (node p).enqTid = (σ.node p).enqTid := ha.enqTid p hp
      rw [htid] at h ⊢
      exact hI.enqTid p hp h
    stamped := fun h => by
      obtain ⟨h1, h2, h3⟩ := hI.stamped h
      rw [hdesc _ h2]
      exact ⟨h1, h2, h3⟩
    used := fun d hd => (hI.used d hd).trans_le ha.descAlloc
    phase := fun d hd => by
      rw [(ha.desc d (hI.used d hd)).1]
      exact hI.phase d hd
    node := fun t ht => by
      rw [hdesc t ht]
      exact hI.node t ht
    records := fun t => ⟨(ha.records t).1.trans (hI.records t).1,
      (ha.records t).2.trans (hI.records t).2⟩ }

omit [Inhabited α] in
theorem Allocates.mono (ha : Allocates σ g σ' g') : Mono c.numThreads σ g σ' g' := by
  obtain ⟨node, alloc, desc, descAlloc, head, tail, state, records⟩ := σ'
  obtain ⟨chain, maker, takers, pos, owner, used⟩ := g'
  obtain ⟨rfl, rfl, rfl⟩ := ha.ends
  obtain ⟨rfl, rfl, rfl, rfl⟩ := ha.ghost
  exact { Mono.refl c.numThreads σ g with
    alloc := ha.alloc
    node := ha.node
    enqTid := ha.enqTid
    descAlloc := ha.descAlloc
    desc := fun d hd => (ha.desc d hd).1
    state := fun _ _ => Or.inl rfl
    finished := fun _ _ => Or.inl rfl }

theorem Allocates.others (ha : Allocates σ g σ' g')
    (hown : ∀ p < σ.alloc, ∀ op, (history tr)[g.maker p]? = some (.inv v op) →
      (σ'.node p).enqTid = (σ.node p).enqTid) : Others v tr σ g σ' g' where
  own := Or.inl (congrFun ha.ends.2.2 v)
  stamp _ h := by rwa [ha.ends.1] at h
  node p hp op h := ⟨hown p hp op h, fun hc => by rwa [ha.ghost.1] at hc⟩
  taken i op _ h := by rwa [ha.ghost.2.1] at h

omit [Inhabited α] in
theorem Allocates.private (ha : Allocates σ g σ' g') (v : ℕ) : Private v σ g g' :=
  fun d hd ho hu => ⟨(ha.desc d hd).2.trans ho, by rwa [ha.ghost.2.2.2]⟩

/-- An allocation by thread `u`. -/
theorem Allocates.keeps (ha : Allocates σ g σ' g') (hI : Inv tr σ g)
    (hown : ∀ v, v ≠ u → ∀ p < σ.alloc, ∀ op, (history tr)[g.maker p]? = some (.inv v op) →
      (σ'.node p).enqTid = (σ.node p).enqTid) : Keeps u tr σ g σ' g' where
  inv := ha.inv hI
  mono := ha.mono
  others v hv := ⟨ha.others (hown v hv), ha.private v⟩
  effect := .plain ha.next (congrArg AtomicValue.value ha.ends.1) ha.ghost.2.2.1 ha.ghost.1
    fun i hi => Or.inl (by rwa [ha.ghost.2.1] at hi)

/-- `tlget<Node>` in call `i`. -/
def Ghost.newNode (g : Ghost) (p i : ℕ) : Ghost := { g with maker := Function.update g.maker p i }

theorem Inv.newNode (hI : Inv tr σ g) (x : α) (i : ℕ) :
    Allocates σ g (σ.newNode x) (g.newNode σ.alloc i) :=
  { Allocates.refl σ g with
    alloc := Nat.le_succ _
    next := fun p => by
      by_cases hp : p = σ.alloc
      · have hnot : σ.alloc ∉ g.chain := fun h => lt_irrefl _ (hI.chain.bound _ h).2
        rw [hp, hI.fresh _ hnot]
        simp [Shared.newNode]
      · simp [Shared.newNode, Function.update_of_ne hp]
    node := fun p hp => by
      simp [Shared.newNode, Ghost.newNode, Function.update_of_ne hp.ne]
    enqTid := fun p hp => by
      simp [Shared.newNode, Function.update_of_ne (hI.chain.bound p hp).2.ne]
    ghost := ⟨rfl, rfl, rfl, rfl⟩ }

/-- `tlget<OperationDescriptor>` by thread `t`. -/
def Ghost.newDesc (g : Ghost) (d t : ℕ) : Ghost := { g with owner := Function.update g.owner d t }

omit [Inhabited α] in
theorem allocates_newDesc (σ : Shared α) (g : Ghost) (D : OperationDescriptor) (t : ℕ) :
    Allocates σ g (σ.newDesc D) (g.newDesc σ.descAlloc t) :=
  { Allocates.refl σ g with
    descAlloc := Nat.le_succ _
    desc := fun _ hd => ⟨Function.update_of_ne hd.ne .., Function.update_of_ne hd.ne ..⟩
    ghost := ⟨rfl, rfl, rfl, rfl⟩ }

/-- A descriptor that thread `t` allocated and has not published yet. -/
structure OwnDesc (t d : ℕ) (D : OperationDescriptor) (σ : Shared α) (g : Ghost) : Prop where
  lt : d < σ.descAlloc
  desc : σ.desc d = D
  owner : g.owner d = t
  unused : d ∉ g.used

theorem Inv.ownDesc (hI : Inv tr σ g) (D : OperationDescriptor) (t : ℕ) :
    OwnDesc t σ.descAlloc D (σ.newDesc D) (g.newDesc σ.descAlloc t) where
  lt := Nat.lt_succ_self _
  desc := Function.update_self ..
  owner := Function.update_self ..
  unused h := Nat.lt_irrefl _ (hI.used _ h)

omit [Inhabited α] in
/-- A write of `enq_tid` to a node that is not linked. -/
theorem allocates_setEnqTid {p tid : ℕ} (hp : p ∉ g.chain) :
    Allocates σ g (σ.setEnqTid p tid) g :=
  { Allocates.refl σ g with
    next := fun _ => setEnqTid_keeps.2
    node := fun _ _ => ⟨setEnqTid_keeps.1, rfl⟩
    enqTid := fun q hq => by
      have : q ≠ p := fun h => hp (h ▸ hq)
      simp [Shared.setEnqTid, Function.update_of_ne this] }

omit [Inhabited α] in
/-- The countdown of a record. -/
theorem allocates_doNextCheck (σ : Shared α) (g : Ghost) (t : ℕ) :
    Allocates σ g
      { σ with records := Function.update σ.records t (σ.records t).doNextCheck.2 } g :=
  { Allocates.refl σ g with
    records := fun v => by
      by_cases hv : v = t
      · subst hv
        simp [HelpRecord.doNextCheck]
      · simp [Function.update_of_ne hv] }

end Allocation

/-! ### A new descriptor -/

section SetState

variable {tr : List (Moment (machine α c))} {σ : Shared α} {g : Ghost} {t u v i d aba : ℕ}
  {D : OperationDescriptor}

/-- The descriptor `d` is published. -/
def Ghost.publish (g : Ghost) (d : ℕ) : Ghost := { g with used := insert d g.used }

omit [Inhabited α] in
theorem OwnDesc.descOf (ho : OwnDesc u d D σ g) : (σ.setState i ⟨d, aba⟩).descOf i = D :=
  descOf_setState_self.trans ho.desc

theorem Inv.setState (hI : Inv tr σ g) (ho : OwnDesc u d D σ g)
    (hphase : -1 ≤ D.phase ∧ (D.pending = true → 0 ≤ D.phase))
    (hnode : D.type = .dequeue → D.node = 0 ∨ ∃ j ≤ g.head, g.chain[j]? = some D.node)
    (hstamp : σ.head.aba = i → D.type = .dequeue ∧ D.node = σ.head.value) :
    Inv tr (σ.setState i ⟨d, aba⟩) (g.publish d) :=
  { hI with
    stamped := fun h => by
      obtain ⟨h1, h2, h3, h4, h5⟩ := hI.stamped h
      show _ ∧ _ ∧ ((σ.setState i ⟨d, aba⟩).descOf σ.head.aba).type = _ ∧
        ((σ.setState i ⟨d, aba⟩).descOf σ.head.aba).node = _ ∧ _
      by_cases hi : σ.head.aba = i
      · obtain ⟨htype, hn⟩ := hstamp hi
        refine ⟨h1, h2, ?_, ?_, h5⟩
        · rw [hi, ho.descOf]
          exact htype
        · rw [hi, ho.descOf]
          exact hn
      · rw [descOf_setState_of_ne hi]
        exact ⟨h1, h2, h3, h4, h5⟩
    used := fun d' hd => by
      rcases Set.mem_insert_iff.mp hd with rfl | hd
      · exact ho.lt
      · exact hI.used d' hd
    phase := fun d' hd => by
      rcases Set.mem_insert_iff.mp hd with rfl | hd
      · show -1 ≤ (σ.desc d').phase ∧ ((σ.desc d').pending = true → 0 ≤ (σ.desc d').phase)
        rw [ho.desc]
        exact hphase
      · exact hI.phase d' hd
    state := fun t ht => by
      by_cases hi : t = i
      · subst hi
        have : ((σ.setState t ⟨d, aba⟩).state t).value = d := by simp [Shared.setState]
        rw [this]
        exact Set.mem_insert ..
      · have : (σ.setState i ⟨d, aba⟩).state t = σ.state t := Function.update_of_ne hi ..
        rw [this]
        exact Set.mem_insert_of_mem _ (hI.state t ht)
    node := fun t ht => by
      by_cases hi : t = i
      · subst hi
        rw [ho.descOf]
        exact hnode
      · rw [descOf_setState_of_ne hi]
        exact hI.node t ht }

omit [Inhabited α] in
theorem OwnDesc.mono (ho : OwnDesc u d D σ g) (hstamp : σ.head.aba = i → D.pending = false) :
    Mono c.numThreads σ g (σ.setState i ⟨d, aba⟩) (g.publish d) :=
  { Mono.refl c.numThreads σ g with
    used := Set.subset_insert ..
    state := fun t _ => by
      by_cases hi : t = i
      · subst hi
        have : ((σ.setState t ⟨d, aba⟩).state t).value = d := by simp [Shared.setState]
        rw [this]
        exact Or.inr ho.unused
      · exact Or.inl (Function.update_of_ne hi ..)
    finished := fun _ _ => by
      show (σ.setState i ⟨d, aba⟩).state σ.head.aba = _ ∨
        ((σ.setState i ⟨d, aba⟩).descOf σ.head.aba).pending = false
      by_cases hi : σ.head.aba = i
      · rw [hi, ho.descOf]
        exact Or.inr (hstamp hi)
      · exact Or.inl (Function.update_of_ne hi ..)
    chain := List.prefix_refl _
    takers := List.prefix_refl _
    node := fun _ _ => ⟨rfl, rfl⟩
    head := le_rfl
    moved := fun _ h => absurd h (lt_irrefl _) }

theorem OwnDesc.others (ho : OwnDesc u d D σ g) (hown : v = i → Finishes v σ g D) :
    Others v tr σ g (σ.setState i ⟨d, aba⟩) (g.publish d) :=
  { Others.refl v tr σ g with
    own := by
      by_cases hi : v = i
      · subst hi
        rw [ho.descOf]
        exact Or.inr (hown rfl)
      · exact Or.inl (Function.update_of_ne hi ..)
    node := fun _ _ _ _ => ⟨rfl, fun h => h⟩
    taken := fun _ _ _ h => h }

omit [Inhabited α] in
theorem OwnDesc.private (ho : OwnDesc u d D σ g) (hv : v ≠ u) :
    Private v σ g (g.publish d) := by
  intro d' _ hd hu
  refine ⟨hd, fun h => ?_⟩
  rcases Set.mem_insert_iff.mp h with rfl | h
  · exact hv (hd.symm.trans ho.owner)
  · exact hu h

/-- Thread `u` publishes a descriptor for thread `i`. -/
theorem Inv.publish (hI : Inv tr σ g) (ho : OwnDesc u d D σ g)
    (hphase : -1 ≤ D.phase ∧ (D.pending = true → 0 ≤ D.phase))
    (hnode : D.type = .dequeue → D.node = 0 ∨ ∃ j ≤ g.head, g.chain[j]? = some D.node)
    (hstamp : σ.head.aba = i → D.type = .dequeue ∧ D.node = σ.head.value ∧ D.pending = false)
    (hown : i ≠ u → Finishes i σ g D) :
    Keeps u tr σ g (σ.setState i ⟨d, aba⟩) (g.publish d) where
  inv := hI.setState ho hphase hnode fun h => ⟨(hstamp h).1, (hstamp h).2.1⟩
  mono := ho.mono fun h => (hstamp h).2.2
  others _ hv := ⟨ho.others fun h => h ▸ hown (h ▸ hv), ho.private hv⟩
  effect := .plain (fun _ => rfl) rfl rfl rfl fun _ h => Or.inl h

end SetState

/-! ### A node is linked -/

section Link

variable {tr : List (Moment (machine α c))} {σ : Shared α} {g : Ghost} {t u p q i k : ℕ}

theorem Inv.link (hI : Inv tr σ g) (hq : g.chain[k]? = some q) (hlast : (σ.node q).next.value = 0)
    (hp : p ∉ g.chain) (h0 : p ≠ 0) (hlt : p < σ.alloc)
    (htid : (σ.node p).enqTid ≠ kTidNotSet → (σ.node p).enqTid < c.numThreads)
    (hmaker : g.maker p = i) (hdid : Did Makes tr i p)
    (ho : Open (history tr) u i (.enqueue (σ.node p).data)) :
    Keeps u tr σ g (σ.setNext q ⟨p, 1⟩) { g with chain := g.chain ++ [p] } := by
  have hchain := (hI.chain.append hq (hI.chain.next_none hq hlast) hp h0 hlt (hI.fresh p hp)).2
  rw [← setNext_next (σ := σ)] at hchain
  have hpre : g.chain <+: g.chain ++ [p] := List.prefix_append ..
  have hlink : ∀ {j r : ℕ}, g.chain[j]? = some r → (g.chain ++ [p])[j]? = some r :=
    fun h => Chain.getElem?_mono hpre h
  refine ⟨{ hI with
    chain := hchain
    head := hlink hI.head
    tail := hlink hI.tail
    fresh := fun r hr => ?_
    enqTid := fun r hr => ?_
    node := fun t ht htype => ?_ },
    { Mono.refl c.numThreads σ g with
      chain := hpre
      node := fun _ _ => ⟨setNext_keeps.1, rfl⟩
      enqTid := fun _ _ => setNext_keeps.2
      takers := List.prefix_refl _
      head := le_rfl
      used := subset_rfl
      moved := fun _ h => absurd h (lt_irrefl _) },
    fun v hv => ⟨{ Others.refl v tr σ g with
      node := fun r hr op hcall => ⟨setNext_keeps.2, fun hmem => ?_⟩
      taken := fun _ _ _ h => h }, Private.refl v _ _⟩,
    .link hlast rfl hp h0 rfl hdid ho⟩
  · rw [List.mem_append, List.mem_singleton, not_or] at hr
    have : r ≠ q := fun h => hr.1 (h ▸ List.mem_of_getElem? hq)
    have hnode : (σ.setNext q ⟨p, 1⟩).node r = σ.node r := Function.update_of_ne this ..
    rw [hnode]
    exact hI.fresh r hr.1
  · rw [setNext_keeps.2]
    rcases List.mem_append.mp hr with hr | hr
    · exact hI.enqTid r hr
    · rw [List.mem_singleton.mp hr]
      exact htid
  · refine (hI.node t ht htype).imp_right ?_
    rintro ⟨j, hj, hget⟩
    exact ⟨j, hj, hlink hget⟩
  · -- the node is one of thread `u`
    refine (List.mem_append.mp hmem).resolve_right fun h => hv ?_
    rw [List.mem_singleton.mp h, hmaker, ho.1] at hcall
    simp only [Option.some.injEq, Event.inv.injEq] at hcall
    exact hcall.1.symm

end Link

/-! ### Tail and head -/

section Ends

variable {tr : List (Moment (machine α c))} {σ : Shared α} {g : Ghost} {t u p i : ℕ}
  {w : AtomicPointer}

theorem Inv.casTail (hI : Inv tr σ g) (hw : σ.tail = w) (hp : g.chain[w.aba + 1]? = some p)
    (u : ℕ) : Keeps u tr σ g { σ with tail := ⟨p, w.aba + 1⟩ } g := by
  subst hw
  have hle := hI.head_le
  refine ⟨{ hI with
    tail := hp
    head_le := by
      show g.head ≤ σ.tail.aba + 1
      omega
    stamped := fun h => ?_ },
    { Mono.refl c.numThreads σ g with tail := Nat.le_succ _ },
    fun v _ => ⟨{ Others.refl v tr σ g with own := Or.inl rfl }, Private.refl v _ _⟩,
    .plain (fun _ => rfl) rfl rfl rfl fun _ h => Or.inl h⟩
  obtain ⟨h1, h2⟩ := hI.stamped h
  exact ⟨h1.trans (Nat.lt_succ_self _), h2⟩

/-- Head moves to the next position; the dequeue that gets the value there has joined the
takers, or does so. -/
theorem Inv.move {K : List ℕ} (hI : Inv tr σ g) (hp : g.chain[g.head + 1]? = some p)
    (hlt : g.head < σ.tail.aba) (hlen : K.length = g.head + 1)
    (hnodup : K.Nodup) (hK' : ∀ i ∈ K, ∃ t, (history tr)[i]? = some (.inv t .dequeue)) :
    Inv tr { σ with head := ⟨p, kTidNotSet⟩ } { g with head := g.head + 1, takers := K } :=
  { hI with
    head := hp
    head_le := hlt
    takers := hlen
    takers_nodup := hnodup
    taker := hK'
    stamped := fun h => absurd rfl h
    node := fun t ht htype => (hI.node t ht htype).imp_right fun ⟨j, hj, hget⟩ =>
      ⟨j, Nat.le_succ_of_le hj, hget⟩ }

omit [Inhabited α] in
theorem mono_move {K : List ℕ} (hK : g.takers <+: K)
    (hdone : σ.head.aba ≠ kTidNotSet → (σ.descOf σ.head.aba).pending = false) :
    Mono c.numThreads σ g { σ with head := ⟨p, kTidNotSet⟩ }
      { g with head := g.head + 1, takers := K } :=
  { Mono.refl c.numThreads σ g with
    takers := hK
    head := Nat.le_succ _
    stays := fun h => absurd h (Nat.succ_ne_self _)
    moved := fun h _ => hdone h
    chain := List.prefix_refl _
    node := fun _ _ => ⟨rfl, rfl⟩
    used := subset_rfl
    finished := fun _ h => absurd h (Nat.succ_ne_self _) }

/-- A move of head does not affect other threads, if it takes nothing for them. -/
theorem others_move {K : List ℕ}
    (hK : ∀ (i : ℕ) op, (history tr)[i]? = some (.inv u op) → i ∈ K → i ∈ g.takers) :
    Others u tr σ g { σ with head := ⟨p, kTidNotSet⟩ } { g with head := g.head + 1, takers := K } :=
  { Others.refl u tr σ g with
    own := Or.inl rfl
    stamp := fun hu h => absurd h.symm hu
    taken := hK
    node := fun _ _ _ _ => ⟨rfl, fun h => h⟩ }

/-- The call `i` of thread `u` joins the takers. -/
theorem taken_append {v : ℕ} {op' : QueueOp α} (ho : Open (history tr) u i .dequeue) (hv : v ≠ u)
    {j : ℕ} (hj : (history tr)[j]? = some (.inv v op')) (hmem : j ∈ g.takers ++ [i]) :
    j ∈ g.takers := by
  refine (List.mem_append.mp hmem).resolve_right fun h => hv ?_
  rw [List.mem_singleton.mp h, ho.1] at hj
  simp only [Option.some.injEq, Event.inv.injEq] at hj
  exact hj.1.symm

theorem Inv.taker_append (hI : Inv tr σ g) (ho : Open (history tr) u i .dequeue) :
    ∀ j ∈ g.takers ++ [i], ∃ t, (history tr)[j]? = some (.inv t .dequeue) := by
  intro j hj
  rcases List.mem_append.mp hj with hj | hj
  · exact hI.taker j hj
  · rw [List.mem_singleton.mp hj]
    exact ⟨u, ho.1⟩

theorem takers_append_cases (ho : Open (history tr) u i .dequeue) :
    ∀ j ∈ g.takers ++ [i], j ∈ g.takers ∨ ∃ t, Open (history tr) t j .dequeue := by
  intro j hj
  refine (List.mem_append.mp hj).imp_right fun h => ?_
  rw [List.mem_singleton.mp h]
  exact ⟨u, ho⟩

omit [Inhabited α] in
theorem nodup_append (hn : g.takers.Nodup) (hfree : i ∉ g.takers) : (g.takers ++ [i]).Nodup := by
  refine List.nodup_append.mpr ⟨hn, List.nodup_singleton i, fun a ha b hb hab => hfree ?_⟩
  rw [List.mem_singleton] at hb
  rwa [← hb, ← hab]

/-- The slow dequeue `i` of thread `u` stamps head. -/
theorem Inv.stamp (hI : Inv tr σ g) (hu : u < c.numThreads) (hne : u ≠ kTidNotSet)
    (hhead : σ.head.aba = kTidNotSet) (hlt : g.head < σ.tail.aba)
    (htype : (σ.descOf u).type = .dequeue) (hnode : (σ.descOf u).node = σ.head.value)
    (ho : Open (history tr) u i .dequeue) (hfree : i ∉ g.takers) :
    Keeps u tr σ g { σ with head := ⟨σ.head.value, u⟩ } { g with takers := g.takers ++ [i] } := by
  have hlen : g.takers.length = g.head := by
    rw [hI.takers, if_pos hhead, Nat.add_zero]
  refine ⟨{ hI with
    takers := ?_
    takers_nodup := nodup_append hI.takers_nodup hfree
    taker := hI.taker_append ho
    stamped := fun _ => ⟨hlt, hu, htype, hnode, i, ?_, ho⟩ },
    { Mono.refl c.numThreads σ g with
      takers := List.prefix_append ..
      stays := fun _ h => absurd hhead h
      finished := fun h => absurd hhead h
      chain := List.prefix_refl _
      node := fun _ _ => ⟨rfl, rfl⟩
      head := le_rfl
      used := subset_rfl
      moved := fun h => absurd hhead h },
    fun v hv => ⟨{ Others.refl v tr σ g with
      own := Or.inl rfl
      stamp := fun _ h => absurd h.symm hv
      node := fun _ _ _ _ => ⟨rfl, fun h => h⟩
      taken := fun _ _ hj hmem => taken_append ho hv hj hmem }, Private.refl v _ _⟩,
    .plain (fun _ => rfl) rfl rfl rfl (takers_append_cases ho)⟩
  · show (g.takers ++ [i]).length = g.head + if u = kTidNotSet then 0 else 1
    rw [if_neg hne, List.length_append, List.length_singleton, hlen]
  · show (g.takers ++ [i])[g.head]? = some i
    rw [← hlen, List.getElem?_concat_length]

/-- The fast dequeue `i` of thread `u` moves head. -/
theorem Inv.moveFast (hI : Inv tr σ g) (hhead : σ.head.aba = kTidNotSet)
    (hlt : g.head < σ.tail.aba) (hp : g.chain[g.head + 1]? = some p)
    (ho : Open (history tr) u i .dequeue) (hfree : i ∉ g.takers) :
    Keeps u tr σ g { σ with head := ⟨p, kTidNotSet⟩ }
      { g with head := g.head + 1, takers := g.takers ++ [i] } := by
  have hlen : g.takers.length = g.head := by
    rw [hI.takers, if_pos hhead, Nat.add_zero]
  refine ⟨hI.move hp hlt ?_ (nodup_append hI.takers_nodup hfree) (hI.taker_append ho),
    mono_move (List.prefix_append ..) fun h => absurd hhead h,
    fun v hv => ⟨others_move fun _ _ hj hmem => taken_append ho hv hj hmem, Private.refl v _ _⟩,
    .move (i := i) rfl rfl rfl hp ?_ ?_ (takers_append_cases ho)⟩
  · rw [List.length_append, List.length_singleton, hlen]
  · show (g.takers ++ [i])[g.head]? = some i
    rw [← hlen, List.getElem?_concat_length]
  · rw [if_pos hhead]
    exact ho

/-- Head leaves a stamped node. -/
theorem Inv.moveSlow (hI : Inv tr σ g) (hhead : σ.head.aba ≠ kTidNotSet)
    (hp : g.chain[g.head + 1]? = some p) (hdone : (σ.descOf σ.head.aba).pending = false) (u : ℕ) :
    Keeps u tr σ g { σ with head := ⟨p, kTidNotSet⟩ } { g with head := g.head + 1 } := by
  obtain ⟨hlt, -, -, -, i, hi, ho⟩ := hI.stamped hhead
  refine ⟨hI.move hp hlt ?_ hI.takers_nodup hI.taker, mono_move (List.prefix_refl _) fun _ => hdone,
    fun v _ => ⟨others_move fun _ _ _ h => h, Private.refl v _ _⟩,
    .move (i := i) rfl rfl rfl hp hi ?_ fun _ h => Or.inl h⟩
  · rw [hI.takers, if_neg hhead]
  · rw [if_neg hhead]
    exact ho

end Ends

end WfQueuePpopp12

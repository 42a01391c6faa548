/-
Every access of the functions that finish what other calls began keeps the invariant of the
wait-free queue with a fast path, and leads to the assertion of the access that follows.

* `Next`, `Later` — what a thread knows of a later moment of its call;
* `StepOk` — what is to be shown of an access;
* `FinishEnq.step_ok`, `FixTail.step_ok`, `FinishDeq.step_ok` — the accesses of the functions.
  After `help_finish_deq` head has passed the nodes that it had been stamped at.
-/
import Scal.WfQueuePpopp12Invariant

open Interleave Linearizability

namespace WfQueuePpopp12

variable {α : Type} [Inhabited α] {c : Params} {w w' : World (machine α c) Ghost} {u t i d J : ℕ}
  {ph : ℤ}

/-- `w'` is `w` after a step. -/
structure Next (w w' : World (machine α c) Ghost) : Prop where
  inv : Inv w.trace w.shared w.ghost
  mono : Mono c.numThreads w.shared w.ghost w'.shared w'.ghost
  trace : w.trace <+: w'.trace

/-- And the step does not touch what thread `u` relies on. -/
structure Later (u : ℕ) (w w' : World (machine α c) Ghost) : Prop extends Next w w' where
  others : Others u w.trace w.shared w.ghost w'.shared w'.ghost

/-- What is to be shown of an access of thread `u` that leads to the memory `σ`: afterwards `Q`
holds. -/
def StepOk (u : ℕ) (w : World (machine α c) Ghost) (σ : Shared α)
    (Q : World (machine α c) Ghost → Prop) : Prop :=
  ∃ g, Keeps u w.trace w.shared w.ghost σ g ∧ σ.alloc = w.shared.alloc ∧ ∀ e, Q (w.record e σ g)

section StepOk

variable {σ : Shared α} {g : Ghost} {Q Q' : World (machine α c) Ghost → Prop}
  {e : Event (QueueOp α) (QueueRet α)}

theorem Next.of_keeps (hI : Inv w.trace w.shared w.ghost)
    (hk : Keeps u w.trace w.shared w.ghost σ g) : Next w (w.record e σ g) :=
  ⟨hI, hk.mono, List.prefix_append ..⟩

theorem Later.of_keeps (hI : Inv w.trace w.shared w.ghost)
    (hk : Keeps u w.trace w.shared w.ghost σ g)
    (ho : Others t w.trace w.shared w.ghost σ g) : Later t w (w.record e σ g) :=
  ⟨.of_keeps hI hk, ho⟩

theorem StepOk.mono (hs : StepOk u w σ Q)
    (hQ : ∀ w', Inv w.trace w'.shared w'.ghost → Q w' → Q' w') : StepOk u w σ Q' := by
  obtain ⟨g, hk, ha, hq⟩ := hs
  exact ⟨g, hk, ha, fun e => hQ _ hk.inv (hq e)⟩

theorem StepOk.now (hI : Inv w.trace w.shared w.ghost)
    (hQ : ∀ e, Q (w.record e w.shared w.ghost)) : StepOk u w w.shared Q :=
  ⟨w.ghost, Keeps.refl hI u, rfl, hQ⟩

/-- An access that only reads. -/
theorem StepOk.read (hI : Inv w.trace w.shared w.ghost)
    (hQ : ∀ w', Later u w w' → Private u w.shared w.ghost w'.ghost → Q w') :
    StepOk u w w.shared Q :=
  .now hI fun _ => hQ _ (.of_keeps hI (Keeps.refl hI u) (Others.refl u ..)) (Private.refl u _ _)

/-- A new descriptor. -/
theorem StepOk.newDesc (hI : Inv w.trace w.shared w.ghost) (D : OperationDescriptor)
    (hQ : ∀ w', Later u w w' → OwnDesc u w.shared.descAlloc D w'.shared w'.ghost → Q w') :
    StepOk u w (w.shared.newDesc D) Q := by
  have ha := allocates_newDesc w.shared w.ghost D u
  have hk : Keeps u w.trace w.shared w.ghost (w.shared.newDesc D) _ :=
    ha.keeps hI fun _ _ _ _ _ _ => rfl
  exact ⟨_, hk, rfl, fun e => hQ _ (.of_keeps hI hk (ha.others fun _ _ _ _ => rfl))
    (hI.ownDesc D u)⟩

/-- Thread `u` finishes a descriptor of thread `i`. -/
theorem StepOk.finish (hI : Inv w.trace w.shared w.ghost) {D : OperationDescriptor} {aba : ℕ}
    (ho : OwnDesc u d D w.shared w.ghost) (hi : i < c.numThreads) (hne : i ≠ kTidNotSet)
    (hf : Finishes i w.shared w.ghost D) (hQ : ∀ w', Later u w w' →
      (w'.shared.descOf i).pending = false → Q w') :
    StepOk u w (w.shared.setState i ⟨d, aba⟩) Q := by
  obtain ⟨rfl, -, -⟩ := id hf
  have hk : Keeps u w.trace w.shared w.ghost (w.shared.setState i ⟨d, aba⟩)
      (w.ghost.publish d) := by
    refine hI.publish ho ⟨(hI.phase _ (hI.state i hi)).1, fun h => ?_⟩ (hI.node i hi)
      (fun h => ?_) fun _ => hf
    · cases h
    · obtain ⟨-, -, htype, hnode, -⟩ := hI.stamped (h.symm ▸ hne)
      rw [h] at htype hnode
      exact ⟨htype, hnode, rfl⟩
  refine ⟨_, hk, rfl, fun e => hQ _ (.of_keeps hI hk (ho.others fun h => h ▸ hf)) ?_⟩
  show ((w.shared.setState i ⟨d, aba⟩).descOf i).pending = false
  rw [ho.descOf]
  rfl

end StepOk

/-! ### What was read -/

section Reads

variable {x cur : AtomicPointer} {p nx tid j : ℕ} {φ : OperationDescriptor → Prop}

theorem Next.link (h : Next w w') {k : ℕ} (hk : w.ghost.chain[k]? = some p) :
    w'.ghost.chain[k]? = some p := Chain.getElem?_mono h.mono.chain hk

theorem Next.desc (h : Next w w') (hd : d ∈ w.ghost.used) :
    w'.shared.desc d = w.shared.desc d := h.mono.desc d (h.inv.used d hd)

theorem Next.used (h : Next w w') (hd : d ∈ w.ghost.used) : d ∈ w'.ghost.used :=
  h.mono.used hd

/-- A state that was replaced does not come back. -/
theorem Next.state_eq (h : Next w w') (ht : t < c.numThreads) (hcur : cur.value ∈ w.ghost.used)
    (hs : w'.shared.state t = cur) : w.shared.state t = cur := by
  rcases h.mono.state t ht with heq | hne
  · exact heq.symm.trans hs
  · rw [hs] at hne
    exact absurd hcur hne

theorem Next.descOf (h : Next w w') (ht : t < c.numThreads)
    (hs : w'.shared.state t = w.shared.state t) : w'.shared.descOf t = w.shared.descOf t := by
  rw [Shared.descOf, Shared.descOf, hs]
  exact h.desc (h.inv.state t ht)

theorem OwnDesc.later {D : OperationDescriptor} (ho : OwnDesc u d D w.shared w.ghost)
    (h : Later u w w') (hp : Private u w.shared w.ghost w'.ghost) :
    OwnDesc u d D w'.shared w'.ghost := by
  obtain ⟨hlt, hdesc, howner, hunused⟩ := ho
  obtain ⟨h1, h2⟩ := hp d hlt howner hunused
  exact ⟨hlt.trans_le h.mono.descAlloc, (h.mono.desc d hlt).trans hdesc, h1, h2⟩

/-- Tail was `x`. -/
def TailRead (w : World (machine α c) Ghost) (x : AtomicPointer) : Prop :=
  w.ghost.chain[x.aba]? = some x.value ∧ x.aba ≤ w.shared.tail.aba

theorem TailRead.later (hx : TailRead w x) (h : Later u w w') : TailRead w' x :=
  ⟨h.link hx.1, hx.2.trans h.mono.tail⟩

/-- Tail was `x`, and `nx` is the node behind `x`. -/
structure LinkRead (x : AtomicPointer) (nx : ℕ) (w : World (machine α c) Ghost) : Prop where
  tail : TailRead w x
  link : w.ghost.chain[x.aba + 1]? = some nx

theorem LinkRead.later (hl : LinkRead x nx w) (h : Later u w w') : LinkRead x nx w' :=
  ⟨hl.tail.later h, h.link hl.link⟩

/-- If the state of thread `tid` still is `cur`, then `φ` holds of the descriptor. -/
def Holds (tid : ℕ) (cur : AtomicPointer) (φ : OperationDescriptor → Prop)
    (w : World (machine α c) Ghost) : Prop :=
  w.shared.state tid = cur → φ (w.shared.desc cur.value)

theorem Holds.later (hh : Holds tid cur φ w) (h : Later u w w') (ht : tid < c.numThreads)
    (hcur : cur.value ∈ w.ghost.used) : Holds tid cur φ w' := by
  intro hs
  rw [h.desc hcur]
  exact hh (h.state_eq ht hcur hs)

/-- The state that is read now. -/
theorem holds_read (w : World (machine α c) Ghost) (tid : ℕ) (cur : AtomicPointer) :
    Holds tid cur (fun _ => (w.shared.state tid).value = cur.value) w :=
  fun hs => congrArg AtomicValue.value hs

end Reads

/-! ### `help_finish_enq` and `fix_tail` -/

section FinishEnq

variable {x cur : AtomicPointer} {nx tid : ℕ} {s : FinishEnq}

/-- The state of the thread of the node `nx`, behind `x`, was `cur`. -/
structure EnqRead (x : AtomicPointer) (nx tid : ℕ) (cur : AtomicPointer)
    (w : World (machine α c) Ghost) : Prop where
  link : LinkRead x nx w
  lt : tid < c.numThreads
  ne : tid ≠ kTidNotSet
  used : cur.value ∈ w.ghost.used

theorem EnqRead.later (he : EnqRead x nx tid cur w) (h : Later u w w') :
    EnqRead x nx tid cur w' :=
  ⟨he.link.later h, he.lt, he.ne, h.used he.used⟩

/-- The descriptor is not that of a dequeue of the node. -/
def NotDeq (nx : ℕ) (D : OperationDescriptor) : Prop := D.type = .dequeue → D.node ≠ nx

/-- The descriptor is that of the enqueue of the node. -/
def Enqueues (nx : ℕ) (D : OperationDescriptor) : Prop := D.type = .enqueue ∧ D.node = nx

def FinishEnq.Ok (u : ℕ) (w : World (machine α c) Ghost) : FinishEnq → Prop
  | .loadTail => True
  | .loadNext x => TailRead w x
  | .loadEnqTid x nx => LinkRead x nx w
  | .loadState x nx tid => LinkRead x nx w ∧ tid < c.numThreads ∧ tid ≠ kTidNotSet
  | .checkTail x nx tid cur => EnqRead x nx tid cur w ∧
    (x.aba < w.shared.tail.aba ∨ Holds tid cur (NotDeq nx) w)
  | .loadNodeState x nx tid cur => EnqRead x nx tid cur w ∧ Holds tid cur (NotDeq nx) w
  | .loadNode x nx tid cur d => EnqRead x nx tid cur w ∧ Holds tid cur (NotDeq nx) w ∧
    Holds tid cur (fun _ => d = cur.value) w
  | .loadPhaseState x nx tid cur => EnqRead x nx tid cur w ∧ Holds tid cur (Enqueues nx) w
  | .loadPhase x nx tid cur d => EnqRead x nx tid cur w ∧ Holds tid cur (Enqueues nx) w ∧
    Holds tid cur (fun _ => d = cur.value) w
  | .initDesc x nx tid cur ph => EnqRead x nx tid cur w ∧ Holds tid cur (Enqueues nx) w ∧
    Holds tid cur (fun D => ph = D.phase) w
  | .casState x nx tid cur d => EnqRead x nx tid cur w ∧ Holds tid cur (Enqueues nx) w ∧
    ∃ ph, Holds tid cur (fun D => ph = D.phase) w ∧
      OwnDesc u d (.init ph false .enqueue nx) w.shared w.ghost
  | .casTail x nx => LinkRead x nx w

theorem FinishEnq.Ok.later (hs : s.Ok u w) (h : Later u w w')
    (hp : Private u w.shared w.ghost w'.ghost) : s.Ok u w' := by
  cases s with
  | loadTail => trivial
  | loadNext x => exact TailRead.later hs h
  | loadEnqTid x nx => exact LinkRead.later hs h
  | loadState x nx tid => exact ⟨hs.1.later h, hs.2⟩
  | checkTail x nx tid cur =>
    obtain ⟨he, hn⟩ := hs
    exact ⟨he.later h, hn.imp (fun hlt => hlt.trans_le h.mono.tail)
      fun hn => hn.later h he.lt he.used⟩
  | loadNodeState x nx tid cur =>
    obtain ⟨he, hn⟩ := hs
    exact ⟨he.later h, hn.later h he.lt he.used⟩
  | loadNode x nx tid cur d =>
    obtain ⟨he, hn, hd⟩ := hs
    exact ⟨he.later h, hn.later h he.lt he.used, hd.later h he.lt he.used⟩
  | loadPhaseState x nx tid cur =>
    obtain ⟨he, hn⟩ := hs
    exact ⟨he.later h, hn.later h he.lt he.used⟩
  | loadPhase x nx tid cur d =>
    obtain ⟨he, hn, hd⟩ := hs
    exact ⟨he.later h, hn.later h he.lt he.used, hd.later h he.lt he.used⟩
  | initDesc x nx tid cur ph =>
    obtain ⟨he, hn, hph⟩ := hs
    exact ⟨he.later h, hn.later h he.lt he.used, hph.later h he.lt he.used⟩
  | casState x nx tid cur d =>
    obtain ⟨he, hn, ph, hph, ho⟩ := hs
    exact ⟨he.later h, hn.later h he.lt he.used, ph, hph.later h he.lt he.used, ho.later h hp⟩
  | casTail x nx => exact LinkRead.later hs h

/-- What is known after an access of `help_finish_enq`. -/
def FinishEnq.After (u : ℕ) (w : World (machine α c) Ghost) : Option FinishEnq → Prop
  | some s => s.Ok u w
  | none => True

/-- The descriptor of the enqueue is finished. -/
theorem EnqRead.casState_ok (hI : Inv w.trace w.shared w.ghost) (he : EnqRead x nx tid cur w)
    (hn : Holds tid cur (Enqueues nx) w) (hph : Holds tid cur (fun D => ph = D.phase) w)
    (ho : OwnDesc u d (.init ph false .enqueue nx) w.shared w.ghost)
    (hst : w.shared.state tid = cur) :
    StepOk u w (w.shared.setState tid ⟨d, cur.aba + 1⟩) fun w' => Later u w w' := by
  have hdesc : w.shared.descOf tid = w.shared.desc cur.value := by rw [Shared.descOf, hst]
  obtain ⟨htype, hnode⟩ := hn hst
  have hphase := hph hst
  rw [← hdesc] at htype hnode hphase
  refine .finish hI ho he.lt he.ne ⟨?_, fun _ _ => ?_, fun _ h => ?_⟩ fun _ h _ => h
  · rw [OperationDescriptor.done, htype, hnode, ← hphase]
  · rw [hnode]
    exact List.mem_of_getElem? he.link.link
  · rw [htype] at h
    cases h

theorem LinkRead.casTail_ok (hI : Inv w.trace w.shared w.ghost) (hl : LinkRead x nx w)
    (hx : w.shared.tail = x) :
    StepOk u w { w.shared with tail := ⟨nx, x.aba + 1⟩ } fun w' => Later u w w' := by
  have hk : ∀ v, Keeps v w.trace w.shared w.ghost { w.shared with tail := ⟨nx, x.aba + 1⟩ }
      w.ghost := fun v => hI.casTail hx hl.link v
  exact ⟨_, hk u, rfl, fun e => .of_keeps hI (hk u) ((hk (u + 1)).others u (by omega)).1⟩

theorem FinishEnq.step_ok (hI : Inv w.trace w.shared w.ghost) (hs : s.Ok u w) :
    StepOk u w (s.step w.shared).1 fun w' => Later u w w' ∧
      FinishEnq.After u w' (s.step w.shared).2 := by
  -- an access that only reads
  have hgo : ∀ s' : FinishEnq, s'.Ok u w →
      StepOk u w w.shared fun w' => Later u w w' ∧ FinishEnq.After u w' (some s') := fun s' hs' =>
    .read hI fun w' h hp => ⟨h, hs'.later h hp⟩
  have hreturn : StepOk u w w.shared fun w' => Later u w w' ∧ FinishEnq.After u w' none :=
    .read hI fun w' h _ => ⟨h, trivial⟩
  cases s with
  | loadTail => exact hgo _ ⟨hI.tail, le_rfl⟩
  | loadNext x =>
    have hx : TailRead w x := hs
    simp only [FinishEnq.step]
    split_ifs with h0
    · exact hgo _ ⟨hx, hI.chain.next_some hx.1 h0⟩
    · exact hreturn
  | loadEnqTid x nx =>
    have hl : LinkRead x nx w := hs
    simp only [FinishEnq.step]
    split_ifs with hne
    · exact hgo _ ⟨hl, hI.enqTid nx (List.mem_of_getElem? hl.link) hne, hne⟩
    · exact hgo _ hl
  | loadState x nx tid =>
    obtain ⟨hl, hlt, hne⟩ := hs
    refine hgo _ ⟨⟨hl, hlt, hne, hI.state tid hlt⟩, ?_⟩
    refine (Nat.lt_or_eq_of_le hl.tail.2).imp_right fun heq _ htype hnode => ?_
    -- while tail is at `x`, head has not passed the node
    have hhead := hI.head_le
    rcases hI.node tid hlt htype with h0 | ⟨j, hj, hget⟩
    · exact hI.chain.ne_zero hl.link (hnode.symm.trans h0)
    · have := hI.chain.pos_unique (hnode ▸ hget) hl.link
      omega
  | checkTail x nx tid cur =>
    obtain ⟨he, hn⟩ := hs
    simp only [FinishEnq.step]
    split_ifs with hx
    · refine hgo _ ⟨he, hn.resolve_left fun hlt => ?_⟩
      rw [hx] at hlt
      exact lt_irrefl _ hlt
    · exact hreturn
  | loadNodeState x nx tid cur =>
    obtain ⟨he, hn⟩ := hs
    exact hgo _ ⟨he, hn, holds_read w tid cur⟩
  | loadNode x nx tid cur d =>
    obtain ⟨he, hn, hd⟩ := hs
    simp only [FinishEnq.step]
    split_ifs with hnode
    · refine hgo _ ⟨he, fun hst => ?_⟩
      rw [hd hst] at hnode
      refine ⟨?_, hnode⟩
      cases htype : (w.shared.desc cur.value).type with
      | enqueue => rfl
      | dequeue => exact absurd hnode (hn hst htype)
    · exact hreturn
  | loadPhaseState x nx tid cur =>
    obtain ⟨he, hn⟩ := hs
    exact hgo _ ⟨he, hn, holds_read w tid cur⟩
  | loadPhase x nx tid cur d =>
    obtain ⟨he, hn, hd⟩ := hs
    exact hgo _ ⟨he, hn, fun hst => by rw [hd hst]⟩
  | initDesc x nx tid cur ph =>
    obtain ⟨he, hn, hph⟩ := hs
    exact .newDesc hI _ fun w' h ho => ⟨h, he.later h, hn.later h he.lt he.used, ph,
      hph.later h he.lt he.used, ho⟩
  | casState x nx tid cur d =>
    obtain ⟨he, hn, ph, hph, ho⟩ := hs
    simp only [FinishEnq.step]
    split_ifs with hst
    · exact (he.casState_ok hI hn hph ho hst).mono fun w' _ h => ⟨h, he.link.later h⟩
    · exact hgo _ he.link
  | casTail x nx =>
    have hl : LinkRead x nx w := hs
    simp only [FinishEnq.step]
    split_ifs with hx
    · exact (hl.casTail_ok hI hx).mono fun w' _ h => ⟨h, trivial⟩
    · exact hreturn

def FixTail.Ok (u : ℕ) (w : World (machine α c) Ghost) : FixTail → Prop
  | .loadEnqTid x nx => LinkRead x nx w
  | .casTail x nx => LinkRead x nx w
  | .finish s => s.Ok u w

theorem FixTail.Ok.later {s : FixTail} (hs : s.Ok u w) (h : Later u w w')
    (hp : Private u w.shared w.ghost w'.ghost) : s.Ok u w' := by
  cases s with
  | loadEnqTid x nx => exact LinkRead.later hs h
  | casTail x nx => exact LinkRead.later hs h
  | finish s => exact FinishEnq.Ok.later hs h hp

/-- What is known after an access of `fix_tail`. -/
def FixTail.After (u : ℕ) (w : World (machine α c) Ghost) : Option FixTail → Prop
  | some s => s.Ok u w
  | none => True

theorem FixTail.step_ok {s : FixTail} (hI : Inv w.trace w.shared w.ghost) (hs : s.Ok u w) :
    StepOk u w (s.step w.shared).1 fun w' => Later u w w' ∧
      FixTail.After u w' (s.step w.shared).2 := by
  cases s with
  | loadEnqTid x nx =>
    have hl : LinkRead x nx w := hs
    simp only [FixTail.step]
    split_ifs with hne
    · exact .read hI fun w' h _ => ⟨h, hl.later h⟩
    · exact .read hI fun w' h _ => ⟨h, trivial⟩
  | casTail x nx =>
    have hl : LinkRead x nx w := hs
    simp only [FixTail.step]
    split_ifs with hx
    · exact (hl.casTail_ok hI hx).mono fun w' _ h => ⟨h, trivial⟩
    · exact .read hI fun w' h _ => ⟨h, trivial⟩
  | finish s =>
    refine (FinishEnq.step_ok hI hs).mono fun w' _ hq => ⟨hq.1, ?_⟩
    simp only [FixTail.step]
    cases hst : (s.step w.shared).2 with
    | some s' =>
      rw [hst] at hq
      exact hq.2
    | none => trivial

end FinishEnq

/-! ### `help_finish_deq` -/

section FinishDeq

variable {x cur : AtomicPointer} {nx j : ℕ} {s : FinishDeq}

/-- Head was `x`, at position `j`; if it was stamped, it still is `x` or has left the node. -/
structure HeadRead (j : ℕ) (x : AtomicPointer) (w : World (machine α c) Ghost) : Prop where
  link : w.ghost.chain[j]? = some x.value
  le : j ≤ w.ghost.head
  stays : j = w.ghost.head → x.aba ≠ kTidNotSet → w.shared.head = x
  lt : x.aba ≠ kTidNotSet → x.aba < c.numThreads

theorem HeadRead.later (hx : HeadRead j x w) (h : Later u w w') : HeadRead j x w' := by
  refine ⟨h.link hx.link, hx.le.trans h.mono.head, fun hj hne => ?_, hx.lt⟩
  have hle := hx.le
  have hmono := h.mono.head
  have hold := hx.stays (by omega) hne
  rw [h.mono.stays (by omega) (by rwa [hold]), hold]

/-- Head is read. -/
theorem Inv.headRead (hI : Inv w.trace w.shared w.ghost) :
    HeadRead w.ghost.head w.shared.head w where
  link := hI.head
  le := le_rfl
  stays _ _ := rfl
  lt h := (hI.stamped h).2.1

/-- Head still is at the node where it was read. -/
theorem HeadRead.eq_head (hx : HeadRead j x w) (hI : Inv w.trace w.shared w.ghost)
    (hv : w.shared.head.value = x.value) : j = w.ghost.head :=
  hI.chain.pos_unique hx.link (hv ▸ hI.head)

/-- Head was stamped when it was read, and `nx` is the node behind; `J` is a position that head
will have reached when it leaves this node. -/
structure StampRead (J j : ℕ) (x : AtomicPointer) (nx : ℕ) (w : World (machine α c) Ghost) :
    Prop where
  head : HeadRead j x w
  ne : x.aba ≠ kTidNotSet
  next : w.ghost.chain[j + 1]? = some nx
  le : J ≤ j + 1

theorem StampRead.later (hr : StampRead J j x nx w) (h : Later u w w') :
    StampRead J j x nx w' :=
  ⟨hr.head.later h, hr.ne, h.link hr.next, hr.le⟩

theorem StampRead.lt (hr : StampRead J j x nx w) : x.aba < c.numThreads := hr.head.lt hr.ne

/-- While head is stamped, the state that was read changes only when the call is done, and head
leaves the node only after that. -/
structure DeqRead (j tid : ℕ) (cur : AtomicPointer) (w : World (machine α c) Ghost) : Prop where
  used : cur.value ∈ w.ghost.used
  stays : j = w.ghost.head → w.shared.state tid = cur ∨ (w.shared.descOf tid).pending = false
  left : j < w.ghost.head → Holds tid cur (fun D => D.pending = false) w

/-- Done descriptors stay done while head is stamped. -/
theorem StampRead.done (hr : StampRead J j x nx w) (h : Later u w w') (hj : j = w'.ghost.head)
    (hd : (w.shared.descOf x.aba).pending = false) : (w'.shared.descOf x.aba).pending = false := by
  have hle := hr.head.le
  have hmono := h.mono.head
  have hold := hr.head.stays (by omega) hr.ne
  have hfin := h.mono.finished (by rw [hold]; exact hr.ne) (by omega)
  rw [hold] at hfin
  rcases hfin with hsame | hdone
  · rw [h.descOf hr.lt hsame]
    exact hd
  · exact hdone

theorem DeqRead.later (hd : DeqRead j x.aba cur w) (hr : StampRead J j x nx w)
    (h : Later u w w') : DeqRead j x.aba cur w' := by
  have hle := hr.head.le
  have hmono := h.mono.head
  refine ⟨h.used hd.used, fun hj => ?_, fun hj hst => ?_⟩
  · rcases hd.stays (by omega) with hold | hdone
    · have hhead := hr.head.stays (by omega) hr.ne
      have hfin := h.mono.finished (by rw [hhead]; exact hr.ne) (by omega)
      rw [hhead] at hfin
      exact hfin.imp_left fun hsame => hsame.trans hold
    · exact Or.inr (hr.done h hj hdone)
  · have hold := h.state_eq hr.lt hd.used hst
    rw [h.desc hd.used]
    rcases Nat.lt_or_eq_of_le hle with hlt | heq
    · exact hd.left hlt hold
    · -- head leaves the node now
      have hhead := hr.head.stays heq hr.ne
      have hdone := h.mono.moved (by rw [hhead]; exact hr.ne) (heq ▸ hj)
      rw [hhead, Shared.descOf, hold] at hdone
      exact hdone

/-- The descriptor is that of a dequeue that has reached the node `p`. -/
def Dequeues (p : ℕ) (D : OperationDescriptor) : Prop := D.type = .dequeue ∧ D.node = p

/-- What is known of the state `cur` once head was checked. -/
structure DeqKnown (J j : ℕ) (x : AtomicPointer) (nx : ℕ) (cur : AtomicPointer)
    (w : World (machine α c) Ghost) : Prop where
  stamp : StampRead J j x nx w
  read : DeqRead j x.aba cur w
  dequeues : Holds x.aba cur (Dequeues x.value) w

theorem DeqKnown.later (hk : DeqKnown J j x nx cur w) (h : Later u w w') :
    DeqKnown J j x nx cur w' :=
  ⟨hk.stamp.later h, hk.read.later hk.stamp h, hk.dequeues.later h hk.stamp.lt hk.read.used⟩

theorem DeqKnown.holds {φ : OperationDescriptor → Prop} (hk : DeqKnown J j x nx cur w)
    (hh : Holds x.aba cur φ w) (h : Later u w w') : Holds x.aba cur φ w' :=
  hh.later h hk.stamp.lt hk.read.used

/-- Head has reached `J` when `help_finish_deq` returns. -/
def FinishDeq.Ok (u J : ℕ) (w : World (machine α c) Ghost) : FinishDeq → Prop
  | .loadHead => J ≤ w.ghost.takers.length
  | .loadNext x => ∃ j, HeadRead j x w ∧ J ≤ j + 1 ∧ (x.aba = kTidNotSet → J ≤ j)
  | .loadState x nx => ∃ j, StampRead J j x nx w
  | .checkHead x nx cur => ∃ j, StampRead J j x nx w ∧
    (j < w.ghost.head ∨ DeqRead j x.aba cur w)
  | .loadPhaseState x nx cur => ∃ j, DeqKnown J j x nx cur w
  | .loadPhase x nx cur d => ∃ j, DeqKnown J j x nx cur w ∧
    Holds x.aba cur (fun _ => d = cur.value) w
  | .loadNodeState x nx cur ph => ∃ j, DeqKnown J j x nx cur w ∧
    Holds x.aba cur (fun D => ph = D.phase) w
  | .loadNode x nx cur ph d => ∃ j, DeqKnown J j x nx cur w ∧
    Holds x.aba cur (fun D => ph = D.phase) w ∧ Holds x.aba cur (fun _ => d = cur.value) w
  | .initDesc x nx cur ph nd => ∃ j, DeqKnown J j x nx cur w ∧
    Holds x.aba cur (fun D => ph = D.phase) w ∧ Holds x.aba cur (fun D => nd = D.node) w
  | .casState x nx cur d => ∃ j, DeqKnown J j x nx cur w ∧
    ∃ ph nd, Holds x.aba cur (fun D => ph = D.phase) w ∧ Holds x.aba cur (fun D => nd = D.node) w ∧
      OwnDesc u d (.init ph false .dequeue nd) w.shared w.ghost
  | .casHead x nx => ∃ j, StampRead J j x nx w ∧
    (j = w.ghost.head → (w.shared.descOf x.aba).pending = false)

theorem FinishDeq.Ok.later (hs : s.Ok u J w) (h : Later u w w')
    (hp : Private u w.shared w.ghost w'.ghost) : s.Ok u J w' := by
  cases s with
  | loadHead => exact le_trans hs h.mono.takers.length_le
  | loadNext x =>
    obtain ⟨j, hx, hJ⟩ := hs
    exact ⟨j, hx.later h, hJ⟩
  | loadState x nx =>
    obtain ⟨j, hr⟩ := hs
    exact ⟨j, hr.later h⟩
  | checkHead x nx cur =>
    obtain ⟨j, hr, hd⟩ := hs
    exact ⟨j, hr.later h, hd.imp (fun hlt => hlt.trans_le h.mono.head) fun hd => hd.later hr h⟩
  | loadPhaseState x nx cur =>
    obtain ⟨j, hk⟩ := hs
    exact ⟨j, hk.later h⟩
  | loadPhase x nx cur d =>
    obtain ⟨j, hk, hd⟩ := hs
    exact ⟨j, hk.later h, hk.holds hd h⟩
  | loadNodeState x nx cur ph =>
    obtain ⟨j, hk, hph⟩ := hs
    exact ⟨j, hk.later h, hk.holds hph h⟩
  | loadNode x nx cur ph d =>
    obtain ⟨j, hk, hph, hd⟩ := hs
    exact ⟨j, hk.later h, hk.holds hph h, hk.holds hd h⟩
  | initDesc x nx cur ph nd =>
    obtain ⟨j, hk, hph, hnd⟩ := hs
    exact ⟨j, hk.later h, hk.holds hph h, hk.holds hnd h⟩
  | casState x nx cur d =>
    obtain ⟨j, hk, ph, nd, hph, hnd, ho⟩ := hs
    exact ⟨j, hk.later h, ph, nd, hk.holds hph h, hk.holds hnd h, ho.later h hp⟩
  | casHead x nx =>
    obtain ⟨j, hr, hd⟩ := hs
    refine ⟨j, hr.later h, fun hj => hr.done h hj (hd ?_)⟩
    have := hr.head.le
    have := h.mono.head
    omega

/-- What is known after an access of `help_finish_deq`. -/
def FinishDeq.After (u J : ℕ) (w : World (machine α c) Ghost) : Option FinishDeq → Prop
  | some s => s.Ok u J w
  | none => J ≤ w.ghost.head

/-- The descriptor of the dequeue is finished. -/
theorem DeqKnown.casState_ok {nd : ℕ} (hI : Inv w.trace w.shared w.ghost)
    (hk : DeqKnown J j x nx cur w) (hph : Holds x.aba cur (fun D => ph = D.phase) w)
    (hnd : Holds x.aba cur (fun D => nd = D.node) w)
    (ho : OwnDesc u d (.init ph false .dequeue nd) w.shared w.ghost)
    (hst : w.shared.state x.aba = cur) :
    StepOk u w (w.shared.setState x.aba ⟨d, cur.aba + 1⟩) fun w' => Later u w w' ∧
      FinishDeq.After u J w' (some (.casHead x nx)) := by
  have hdesc : w.shared.descOf x.aba = w.shared.desc cur.value := by rw [Shared.descOf, hst]
  obtain ⟨htype, -⟩ := hk.dequeues hst
  have hphase := hph hst
  have hnode := hnd hst
  have hleft := hk.read.left
  rw [← hdesc] at htype hphase hnode
  refine .finish hI ho hk.stamp.lt hk.stamp.ne ⟨?_, fun _ h => ?_, fun hpend _ => ?_⟩
    fun w' h hdone => ⟨h, j, hk.stamp.later h, fun _ => hdone⟩
  · rw [OperationDescriptor.done, htype, hphase, hnode]
  · rw [htype] at h
    cases h
  · -- a pending call has not been left by head
    rcases Nat.lt_or_eq_of_le hk.stamp.head.le with hlt | heq
    · have := hleft hlt hst
      rw [← hdesc, hpend] at this
      cases this
    · rw [hk.stamp.head.stays heq hk.stamp.ne]

theorem FinishDeq.step_ok (hI : Inv w.trace w.shared w.ghost) (hs : s.Ok u J w) :
    StepOk u w (s.step w.shared).1 fun w' => Later u w w' ∧
      FinishDeq.After u J w' (s.step w.shared).2 := by
  -- an access that only reads
  have hgo : ∀ s' : FinishDeq, s'.Ok u J w →
      StepOk u w w.shared fun w' => Later u w w' ∧ FinishDeq.After u J w' (some s') :=
    fun s' hs' => .read hI fun w' h hp => ⟨h, hs'.later h hp⟩
  have hreturn : J ≤ w.ghost.head →
      StepOk u w w.shared fun w' => Later u w w' ∧ FinishDeq.After u J w' none := fun hle =>
    .read hI fun w' h _ => ⟨h, hle.trans h.mono.head⟩
  -- head has left the node
  have hleft : ∀ {j : ℕ} {x : AtomicPointer} {nx : ℕ}, StampRead J j x nx w →
      w.shared.head ≠ x → J ≤ w.ghost.head := by
    intro j x nx hr hne
    have hle := hr.le
    have := lt_of_le_of_ne hr.head.le fun heq => hne (hr.head.stays heq hr.ne)
    omega
  cases s with
  | loadHead =>
    have hs : J ≤ w.ghost.takers.length := hs
    have hlen := hI.takers
    refine hgo _ ⟨w.ghost.head, hI.headRead, ?_, fun hn => ?_⟩
    · split_ifs at hlen <;> omega
    · rw [if_pos hn] at hlen
      omega
  | loadNext x =>
    obtain ⟨j, hx, hJ, hn⟩ := hs
    simp only [FinishDeq.step]
    split_ifs with hne
    · refine hgo _ ⟨j, hx, hne, hI.chain.next_some hx.link fun h0 => ?_, hJ⟩
      -- a stamped node is not the last one
      have hend := (hI.chain.next_eq_zero hx.link).mp h0
      have htail := hI.tail_lt
      have hle := hI.head_le
      have hxle := hx.le
      obtain rfl : j = w.ghost.head := by omega
      obtain ⟨hlt, -⟩ := hI.stamped (by rw [hx.stays rfl hne]; exact hne)
      omega
    · exact hreturn ((hn (not_not.mp hne)).trans hx.le)
  | loadState x nx =>
    obtain ⟨j, hr⟩ := hs
    refine hgo _ ⟨j, hr, (Nat.lt_or_eq_of_le hr.head.le).imp_right fun heq => ?_⟩
    exact ⟨hI.state _ hr.lt, fun _ => Or.inl rfl, fun hlt => absurd heq hlt.ne⟩
  | checkHead x nx cur =>
    obtain ⟨j, hr, hd⟩ := hs
    simp only [FinishDeq.step]
    split_ifs with hx
    · have hj := hr.head.eq_head hI (by rw [hx.1])
      refine hgo _ ⟨j, hr, hd.resolve_left fun hlt => absurd hj hlt.ne, fun hst => ?_⟩
      obtain ⟨-, -, htype, hnode, -⟩ := hI.stamped (by rw [← hx.1]; exact hr.ne)
      rw [← hx.1, Shared.descOf, hst] at htype hnode
      exact ⟨htype, hnode⟩
    · refine hreturn (hleft hr fun h => hx ⟨h.symm, hI.chain.ne_zero hr.next⟩)
  | loadPhaseState x nx cur =>
    obtain ⟨j, hk⟩ := hs
    exact hgo _ ⟨j, hk, holds_read w x.aba cur⟩
  | loadPhase x nx cur d =>
    obtain ⟨j, hk, hd⟩ := hs
    exact hgo _ ⟨j, hk, fun hst => by rw [hd hst]⟩
  | loadNodeState x nx cur ph =>
    obtain ⟨j, hk, hph⟩ := hs
    exact hgo _ ⟨j, hk, hph, holds_read w x.aba cur⟩
  | loadNode x nx cur ph d =>
    obtain ⟨j, hk, hph, hd⟩ := hs
    exact hgo _ ⟨j, hk, hph, fun hst => by rw [hd hst]⟩
  | initDesc x nx cur ph nd =>
    obtain ⟨j, hk, hph, hnd⟩ := hs
    exact .newDesc hI _ fun w' h ho => ⟨h, j, hk.later h, ph, nd, hk.holds hph h, hk.holds hnd h,
      ho⟩
  | casState x nx cur d =>
    obtain ⟨j, hk, ph, nd, hph, hnd, ho⟩ := hs
    simp only [FinishDeq.step]
    split_ifs with hst
    · exact hk.casState_ok hI hph hnd ho hst
    · exact hgo _ ⟨j, hk.stamp, fun hj => (hk.read.stays hj).resolve_left hst⟩
  | casHead x nx =>
    obtain ⟨j, hr, hd⟩ := hs
    simp only [FinishDeq.step]
    split_ifs with hx
    · have hj := hr.head.eq_head hI (by rw [hx])
      have hk : ∀ v, Keeps v w.trace w.shared w.ghost
          { w.shared with head := ⟨nx, kTidNotSet⟩ } { w.ghost with head := w.ghost.head + 1 } :=
        fun v => hI.moveSlow (by rw [hx]; exact hr.ne) (hj ▸ hr.next)
          (by rw [hx]; exact hd hj) v
      refine ⟨_, hk u, rfl, fun e => ⟨.of_keeps hI (hk u) ((hk (u + 1)).others u (by omega)).1, ?_⟩⟩
      exact hj ▸ hr.le
    · exact hreturn (hleft hr hx)

end FinishDeq

end WfQueuePpopp12

/-
Every access of the functions of the wait-free queue keeps the invariant, and leads to the
assertion of the access that follows.

* `StepOk` — what is to be shown of an access;
* `FinishEnqueue.step_ok`, `FinishDequeue.step_ok`, `HelpEnqueue.step_ok`, `HelpDequeue.step_ok`
  and `Help.step_ok` — the accesses of the functions;
* `FinishEnqueue.After`, … — what is known when a function returns: `help_finish_enqueue` leaves
  tail behind the last node at most by one position, and after `help` at the own index the own
  call is done.
-/
import Scal.WaitfreeQueueAssertions

open Interleave Linearizability

namespace WaitfreeQueue

variable {α : Type} [Inhabited α] {n : ℕ} {w w' : World (machine α n) Ghost} {u i c L J d : ℕ}
  {ph : ℤ}

/-- What is to be shown of an access of thread `u` that leads to the memory `σ`: afterwards `Q`
holds. -/
structure Keeps (u : ℕ) (w : World (machine α n) Ghost) (σ : Shared α) (g : Ghost)
    (Q : World (machine α n) Ghost → Prop) : Prop where
  inv : Inv w.trace σ g
  rely : ∀ v, Rely n v w.shared w.ghost σ g
  others : ∀ v, v ≠ u → Private v w.shared w.ghost g
  effect : Effect w.trace w.shared w.ghost σ g
  alloc : σ.alloc = w.shared.alloc
  post : ∀ e, Q (w.record e σ g)

def StepOk (u : ℕ) (w : World (machine α n) Ghost) (σ : Shared α)
    (Q : World (machine α n) Ghost → Prop) : Prop := ∃ g, Keeps u w σ g Q

section StepOk

variable {σ : Shared α} {g : Ghost} {Q Q' : World (machine α n) Ghost → Prop}
  {e : Event (QueueOp α) (QueueRet α)}

omit [Inhabited α] in
theorem Private.refl (u : ℕ) (σ : Shared α) (g : Ghost) : Private u σ g g :=
  fun _ _ ho hu => ⟨ho, hu⟩

theorem Later.of_rely (hI : Inv w.trace w.shared w.ghost)
    (hr : Rely n u w.shared w.ghost σ g) : Later u w (w.record e σ g) :=
  ⟨hI, hr, List.prefix_append ..⟩

theorem StepOk.mono (hI : Inv w.trace w.shared w.ghost) (hs : StepOk u w σ Q)
    (hQ : ∀ w', Later u w w' → Inv w.trace w'.shared w'.ghost → Q w' → Q' w') :
    StepOk u w σ Q' := by
  obtain ⟨g, hg⟩ := hs
  exact ⟨g, { hg with post := fun e => hQ _ (.of_rely hI (hg.rely u)) hg.inv (hg.post e) }⟩

theorem StepOk.now (hI : Inv w.trace w.shared w.ghost)
    (hQ : ∀ e, Q (w.record e w.shared w.ghost)) : StepOk u w w.shared Q :=
  ⟨w.ghost, hI, fun v => Rely.refl n v .., fun v _ => Private.refl v _ _, Effect.refl .., rfl, hQ⟩

/-- An access that only reads. -/
theorem StepOk.read (hI : Inv w.trace w.shared w.ghost)
    (hQ : ∀ w', Later u w w' → Private u w.shared w.ghost w'.ghost → Q w') :
    StepOk u w w.shared Q :=
  .now hI fun _ => hQ _ (.of_rely hI (Rely.refl n u ..)) (Private.refl u _ _)

/-- A new descriptor. -/
theorem StepOk.newDesc (hI : Inv w.trace w.shared w.ghost) (D : OperationDescriptor)
    (hQ : ∀ w', Later u w w' → Private u w.shared w.ghost w'.ghost →
      OwnDesc u w.shared.descAlloc D w'.shared w'.ghost → Q w') :
    StepOk u w (w.shared.newDesc D) Q := by
  have ha := hI.allocs_newDesc D u
  have hr : ∀ v, Rely n v w.shared w.ghost (w.shared.newDesc D)
      (w.ghost.newDesc w.shared.descAlloc u) := fun v => hI.alloc_rely ha ⟨rfl, rfl⟩
  have hp : ∀ v, Private v w.shared w.ghost (w.ghost.newDesc w.shared.descAlloc u) :=
    fun v d hd ho hu => ⟨(Function.update_of_ne hd.ne ..).trans ho, hu⟩
  exact ⟨_, hI.alloc ha (fun _ _ _ => rfl) hI.start, hr, fun v _ => hp v,
    .plain (fun _ => rfl) rfl rfl fun _ h => Or.inl h, rfl,
    fun e => hQ _ (.of_rely hI (hr u)) (hp u) (hI.ownDesc_newDesc D u)⟩

/-- A descriptor is replaced while its call is going on. -/
theorem StepOk.helped (hI : Inv w.trace w.shared w.ghost) (hi : i < n) {aba : ℕ}
    {D : OperationDescriptor} (ho : OwnDesc u d D w.shared w.ghost)
    (hstep : DescStep w.shared w.shared w.ghost (w.shared.descOf i) D)
    (hok : DescOk w.trace w.shared w.ghost i D)
    (hres : ∀ c', w.ghost.takers[w.shared.head.aba]? = some c' →
      (w.shared.node w.shared.head.value).deqTid = i → D.node = (w.shared.descOf i).node)
    (hQ : ∀ w', Later u w w' → w'.shared.descOf i = D → Q w') :
    StepOk u w (w.shared.setState i ⟨d, aba⟩) Q := by
  obtain ⟨h1, h2⟩ : Inv w.trace (w.shared.setState i ⟨d, aba⟩) _ ∧
      ∀ v, Rely n v _ _ (w.shared.setState i ⟨d, aba⟩) _ := hI.helped hi ho hstep hok hres
  exact ⟨_, h1, h2, fun v hv => ho.setState_private hv,
    .plain (fun _ => rfl) rfl rfl fun _ h => Or.inl h, rfl,
    fun e => hQ _ (.of_rely hI (h2 u)) (descOf_setState_self.trans ho.desc)⟩

omit [Inhabited α] in
/-- The word of a position of the chain. -/
theorem word_unique {chain : List ℕ} {x y : AtomicPointer} (hx : chain[x.aba]? = some x.value)
    (hy : chain[y.aba]? = some y.value) (h : x.aba = y.aba) : x = y := by
  obtain ⟨p, j⟩ := x
  obtain ⟨q, k⟩ := y
  obtain rfl : j = k := h
  obtain rfl : p = q := Option.some.inj (hx.symm.trans hy)
  rfl

end StepOk

/-! ### `help_finish_enqueue` -/

section FinishEnqueue

variable {s : FinishEnqueue} {x cur : AtomicPointer} {nx tid : ℕ}

/-- If tail has moved since it was read, then by one position at least. -/
theorem TailRead.lt_of_ne (hI : Inv w.trace w.shared w.ghost) (hx : TailRead w x)
    (hne : x ≠ w.shared.tail) : x.aba < w.shared.tail.aba :=
  lt_of_le_of_ne hx.2 fun h => hne (word_unique hx.1 hI.tail h)

/-- While tail was not moved, the thread that links the node behind it shows this node. -/
theorem LinkRead.last (hI : Inv w.trace w.shared w.ghost) (hl : LinkRead L x nx w)
    (htid : (w.shared.node nx).enqTid = tid) (hx : x.aba = w.shared.tail.aba) :
    (w.shared.descOf tid).type = .enqueue ∧ (w.shared.descOf tid).node = nx := by
  have h := hI.last nx (hx ▸ hl.link)
  rwa [htid] at h

theorem EnqueueKnown.casState_ok (hI : Inv w.trace w.shared w.ghost)
    (hk : EnqueueKnown L x nx tid cur w) (hph : HoldsPhase tid cur ph w)
    (ho : OwnDesc u d ⟨ph, false, .enqueue, nx⟩ w.shared w.ghost)
    (hs : w.shared.state tid = cur) :
    StepOk u w (w.shared.setState tid ⟨d, cur.aba + 1⟩)
      fun w' => LinkRead L x nx w' ∧ (w'.shared.node nx).enqTid = tid ∧ EnqueueDone x tid w' := by
  have htid := hk.lt hI
  obtain ⟨htype, hnode⟩ := hk.enqueues hs
  have hphase := hph hs
  have hdesc : w.shared.descOf tid = w.shared.desc cur.value := by rw [Shared.descOf, hs]
  have hmem : nx ∈ w.ghost.chain := List.mem_of_getElem? hk.link.link
  rw [← hdesc] at htype hnode hphase
  have hstep : DescStep w.shared w.shared w.ghost (w.shared.descOf tid)
      ⟨ph, false, .enqueue, nx⟩ := by
    refine ⟨hphase, htype.symm, fun _ => ⟨rfl, hnode.symm⟩, fun _ => ⟨rfl, hnode.symm, ?_⟩,
      fun h => ?_, fun _ _ => rfl⟩
    · rwa [hnode]
    · rw [htype] at h
      cases h
  have hok : DescOk w.trace w.shared w.ghost tid ⟨ph, false, .enqueue, nx⟩ := by
    have hD := hI.desc tid htid
    generalize w.shared.descOf tid = D at hD htype hnode
    cases hD with
    | initial => exact absurd hnode.symm (hI.chain.ne_zero hk.link.link)
    | enqueuing hc hm _ _ =>
      obtain rfl := hnode
      exact .enqueued hc hm hmem
    | enqueued hc hm _ =>
      obtain rfl := hnode
      exact .enqueued hc hm hmem
    | dequeuing => cases htype
    | dequeued => cases htype
    | empty => cases htype
  refine .helped hI htid ho hstep hok (fun _ _ _ => hnode.symm) fun w' hl hD =>
    ⟨hk.link.later hl, (hl.enqTid hk.link.link).trans hk.enqTid, Or.inr ?_⟩
  rw [hD]

/-- What is known after an access of `help_finish_enqueue`. -/
def FinishEnqueue.After (u L : ℕ) (w : World (machine α n) Ghost) : Option FinishEnqueue → Prop
  | some s => s.Ok u L w
  | none => L ≤ w.shared.tail.aba + 1

theorem FinishEnqueue.step_ok (hI : Inv w.trace w.shared w.ghost) (hs : s.Ok u L w) :
    StepOk u w (s.step w.shared).1 fun w' => FinishEnqueue.After u L w' (s.step w.shared).2 := by
  -- the node behind `x` was linked, and tail has moved
  have hmoved : ∀ {x : AtomicPointer} {nx : ℕ}, LinkRead L x nx w → x.aba < w.shared.tail.aba →
      StepOk u w w.shared fun w' => FinishEnqueue.After u L w' none := by
    intro x nx hl hlt
    refine .read hI fun w' h _ => ?_
    have := hl.le
    have := h.rely.tail
    show L ≤ w'.shared.tail.aba + 1
    omega
  cases s with
  | loadTail =>
    have hlag := hI.lag
    have hs : L ≤ w.ghost.chain.length := hs
    refine .read hI fun w' h hp => ?_
    exact FinishEnqueue.Ok.later (s := .loadNext w.shared.tail)
      ⟨⟨hI.tail, le_rfl⟩, by omega, hs⟩ h hp
  | loadNext x =>
    obtain ⟨hx, hle, hL⟩ := hs
    simp only [FinishEnqueue.step]
    split_ifs with h0
    · refine .read hI fun w' h _ => ?_
      have := (hI.chain.next_eq_zero hx.1).mp h0
      have := hx.2
      have := h.rely.tail
      show L ≤ w'.shared.tail.aba + 1
      omega
    · exact .read hI fun w' h hp => FinishEnqueue.Ok.later (s := .loadEnqTid x _)
        ⟨hx, hle, hI.chain.next_some hx.1 h0⟩ h hp
  | loadEnqTid x nx =>
    exact .read hI fun w' h hp => FinishEnqueue.Ok.later (s := .loadState x nx _) ⟨hs, rfl⟩ h hp
  | loadState x nx tid =>
    obtain ⟨hl, htid⟩ := hs
    exact .read hI fun w' h hp => FinishEnqueue.Ok.later (s := .checkTail x nx tid _)
      ⟨hl, htid, hI.state tid (htid ▸ hl.lt hI), Or.inr (Or.inl rfl)⟩ h hp
  | checkTail x nx tid cur =>
    obtain ⟨hl, htid, hused, hread⟩ := hs
    simp only [FinishEnqueue.step]
    split_ifs with hx
    · refine .read hI fun w' h hp => FinishEnqueue.Ok.later (s := .loadNodeState x nx tid cur)
        ⟨hl, htid, hused, hread, fun hst => ?_⟩ h hp
      have := hl.last hI htid (by rw [hx])
      rwa [Shared.descOf, hst] at this
    · exact hmoved hl (hl.tail.lt_of_ne hI hx)
  | loadNodeState x nx tid cur =>
    have hk : EnqueueKnown L x nx tid cur w := hs
    refine .read hI fun w' h hp => FinishEnqueue.Ok.later (s := .loadNode x nx tid cur _)
      ⟨hk, hI.state tid (hk.lt hI), ?_⟩ h hp
    rcases Nat.lt_or_eq_of_le hk.link.tail.2 with hlt | heq
    · exact Or.inl hlt
    · exact Or.inr (hk.link.last hI hk.enqTid heq).2
  | loadNode x nx tid cur d =>
    obtain ⟨hk, hused, hd⟩ := hs
    simp only [FinishEnqueue.step]
    split_ifs with hnode
    · exact .read hI fun w' h hp => FinishEnqueue.Ok.later (s := .loadPhaseState x nx tid cur) hk
        h hp
    · exact hmoved hk.link (hd.resolve_right hnode)
  | loadPhaseState x nx tid cur =>
    have hk : EnqueueKnown L x nx tid cur w := hs
    exact .read hI fun w' h hp => FinishEnqueue.Ok.later (s := .loadPhase x nx tid cur _)
      ⟨hk, hI.state tid (hk.lt hI), fun hst => by rw [hst]⟩ h hp
  | loadPhase x nx tid cur d =>
    obtain ⟨hk, hused, hd⟩ := hs
    exact .read hI fun w' h hp => FinishEnqueue.Ok.later (s := .initDesc x nx tid cur _)
      ⟨hk, fun hst => by rw [hd hst]⟩ h hp
  | initDesc x nx tid cur ph =>
    obtain ⟨hk, hph⟩ := hs
    exact .newDesc hI _ fun w' h _ ho =>
      ⟨hk.later h, ph, hph.later h (hk.lt hI) hk.used, ho⟩
  | casState x nx tid cur d =>
    obtain ⟨hk, ph, hph, ho⟩ := hs
    simp only [FinishEnqueue.step]
    split_ifs with hst
    · exact hk.casState_ok hI hph ho hst
    · refine .read hI fun w' h hp => FinishEnqueue.Ok.later (s := .casTail x nx tid)
        ⟨hk.link, hk.enqTid, ?_⟩ h hp
      exact hk.read.imp_right fun h => h.resolve_left hst
  | casTail x nx tid =>
    obtain ⟨hl, htid, hdone⟩ := hs
    simp only [FinishEnqueue.step]
    split_ifs with hx
    · have hpend : (w.shared.descOf (w.shared.node nx).enqTid).pending = false := by
        rw [htid]
        refine hdone.resolve_left fun h => ?_
        rw [hx] at h
        exact lt_irrefl _ h
      obtain ⟨h1, h2⟩ := hI.casTail hx hl.link hpend
      refine ⟨_, h1, h2, fun v _ => Private.refl v _ _,
        .plain (fun _ => rfl) rfl rfl fun _ h => Or.inl h, rfl, fun e => ?_⟩
      have := hl.le
      show L ≤ x.aba + 1 + 1
      omega
    · exact hmoved hl (hl.tail.lt_of_ne hI (Ne.symm hx))

end FinishEnqueue

/-! ### `help_finish_dequeue` -/

section FinishDequeue

variable {s : FinishDequeue} {x cur : AtomicPointer} {nx tid nd : ℕ}

theorem HeadRead.lt_of_ne (hI : Inv w.trace w.shared w.ghost) (hx : HeadRead w x)
    (hne : x ≠ w.shared.head) : x.aba < w.shared.head.aba :=
  lt_of_le_of_ne hx.2 fun h => hne (word_unique hx.1 hI.head h)

/-- A node that is reserved has a successor. -/
theorem HeadRead.le_of_last (hI : Inv w.trace w.shared w.ghost) (hx : HeadRead w x)
    (hlast : x.aba + 1 = w.ghost.chain.length) (hJ : J ≤ x.aba + 1)
    (hk : J ≤ w.ghost.takers.length) : J ≤ x.aba := by
  by_contra hlt
  have hhead := hI.head_lt
  have hx2 := hx.2
  have heq : x.aba = w.shared.head.aba := by omega
  have hget : w.shared.head.aba < w.ghost.takers.length := by omega
  obtain ⟨hlag, -⟩ := hI.reserved _ (List.getElem?_eq_getElem hget)
  have := hI.tail_lt
  omega

theorem DequeueKnown.casState_ok (hI : Inv w.trace w.shared w.ghost)
    (hk : DequeueKnown J x nx tid cur w) (hph : HoldsPhase tid cur ph w)
    (hnd : HoldsNode tid cur nd w) (ho : OwnDesc u d ⟨ph, false, .dequeue, nd⟩ w.shared w.ghost)
    (hs : w.shared.state tid = cur) :
    StepOk u w (w.shared.setState tid ⟨d, cur.aba + 1⟩)
      fun w' => TakerRead J x nx tid w' ∧ nx ≠ 0 ∧ DequeueDone x tid w' := by
  have htid := hk.taker.lt hI
  obtain ⟨htype, hnode, c, htaker, hcur⟩ := hk.dequeues hs
  have hphase := hph hs
  have hnd := hnd hs
  have hdesc : w.shared.descOf tid = w.shared.desc cur.value := by rw [Shared.descOf, hs]
  rw [← hdesc] at htype hnode hphase hnd
  have hset := hk.taker.deqTid
  have hstep : DescStep w.shared w.shared w.ghost (w.shared.descOf tid)
      ⟨ph, false, .dequeue, nd⟩ := by
    refine ⟨hphase, htype.symm, fun _ => ⟨rfl, hnd⟩, fun h => ?_, fun _ => Or.inr fun _ => ?_,
      fun _ _ => rfl⟩
    · rw [htype] at h
      cases h
    · rw [hnode, hset]
      exact hk.taker.ne
  have hok : DescOk w.trace w.shared w.ghost tid ⟨ph, false, .dequeue, nd⟩ := by
    obtain ⟨-, hi⟩ := hI.taker _ _ _ hk.taker.head.1 htaker
    rw [hset] at hi
    refine .dequeued hcur hi ?_ htaker
    rw [hnd, hnode]
    exact hk.taker.head.1
  refine .helped hI htid ho hstep hok (fun _ _ _ => hnd) fun w' hl hD =>
    ⟨hk.taker.later hl, hk.ne, Or.inr ?_⟩
  rw [hD]

/-- What is known after an access of `help_finish_dequeue`. -/
def FinishDequeue.After (u J : ℕ) (w : World (machine α n) Ghost) : Option FinishDequeue → Prop
  | some s => s.Ok u J w
  | none => J ≤ w.shared.head.aba

theorem FinishDequeue.step_ok (hI : Inv w.trace w.shared w.ghost) (hs : s.Ok u J w) :
    StepOk u w (s.step w.shared).1 fun w' => FinishDequeue.After u J w' (s.step w.shared).2 := by
  have hreturn : J ≤ w.shared.head.aba →
      StepOk u w w.shared fun w' => FinishDequeue.After u J w' none := fun hle =>
    .read hI fun w' h _ => hle.trans h.rely.head
  -- the node of `x` was reserved, and head has moved
  have hmoved : ∀ {x : AtomicPointer} {nx tid : ℕ}, TakerRead J x nx tid w →
      x.aba < w.shared.head.aba →
      StepOk u w w.shared fun w' => FinishDequeue.After u J w' none := by
    intro x nx tid hk hlt
    have := hk.le
    exact hreturn (by omega)
  cases s with
  | loadHead =>
    have hs : J ≤ w.ghost.takers.length := hs
    have := hI.takers_le
    exact .read hI fun w' h hp => FinishDequeue.Ok.later (s := .loadNext w.shared.head)
      ⟨⟨hI.head, le_rfl⟩, by omega, hs⟩ h hp
  | loadNext x =>
    obtain ⟨hx, hle, hJ⟩ := hs
    exact .read hI fun w' h hp => FinishDequeue.Ok.later (s := .loadDeqTid x _)
      ⟨⟨hx, hle, fun h0 => hx.le_of_last hI ((hI.chain.next_eq_zero hx.1).mp h0) hle hJ,
        fun h0 => hI.chain.next_some hx.1 h0⟩, hJ⟩ h hp
  | loadDeqTid x nx =>
    obtain ⟨hk, hJ⟩ := hs
    simp only [FinishDequeue.step]
    split_ifs with hset
    · exact .read hI fun w' h hp => FinishDequeue.Ok.later (s := .loadState x nx _)
        ⟨hk, rfl, hset⟩ h hp
    · refine hreturn (hJ.trans (le_trans ?_ hk.head.2))
      exact (hI.deqTid _ _ hk.head.1).mp (not_not.mp hset)
  | loadState x nx tid =>
    have hk : TakerRead J x nx tid w := hs
    exact .read hI fun w' h hp => FinishDequeue.Ok.later (s := .checkHead x nx tid _)
      ⟨hk, hI.state tid (hk.lt hI), Or.inr (Or.inl rfl)⟩ h hp
  | checkHead x nx tid cur =>
    obtain ⟨hk, hused, hread⟩ := hs
    simp only [FinishDequeue.step]
    split_ifs with hx
    · obtain ⟨rfl, hne⟩ := hx
      refine .read hI fun w' h hp => FinishDequeue.Ok.later (s := .loadPhaseState _ nx tid cur)
        ⟨hk, hne, hused, hread, fun hst => ?_⟩ h hp
      obtain ⟨c, hc⟩ := hk.taker hI
      obtain ⟨-, h1, h2, h3, -⟩ := hI.reserved c hc
      rw [hk.deqTid, Shared.descOf, hst] at h1 h2
      rw [hk.deqTid] at h3
      exact ⟨h1, h2, c, hc, h3⟩
    · by_cases h0 : nx = 0
      · exact hreturn ((hk.null h0).trans hk.head.2)
      · exact hmoved hk (hk.head.lt_of_ne hI fun h => hx ⟨h, h0⟩)
  | loadPhaseState x nx tid cur =>
    have hk : DequeueKnown J x nx tid cur w := hs
    exact .read hI fun w' h hp => FinishDequeue.Ok.later (s := .loadPhase x nx tid cur _)
      ⟨hk, hI.state tid (hk.taker.lt hI), fun hst => by rw [hst]⟩ h hp
  | loadPhase x nx tid cur d =>
    obtain ⟨hk, hused, hd⟩ := hs
    exact .read hI fun w' h hp => FinishDequeue.Ok.later (s := .loadNodeState x nx tid cur _)
      ⟨hk, fun hst => by rw [hd hst]⟩ h hp
  | loadNodeState x nx tid cur ph =>
    obtain ⟨hk, hph⟩ := hs
    exact .read hI fun w' h hp => FinishDequeue.Ok.later (s := .loadNode x nx tid cur ph _)
      ⟨hk, hph, hI.state tid (hk.taker.lt hI), fun hst => by rw [hst]⟩ h hp
  | loadNode x nx tid cur ph d =>
    obtain ⟨hk, hph, hused, hd⟩ := hs
    exact .read hI fun w' h hp => FinishDequeue.Ok.later (s := .initDesc x nx tid cur ph _)
      ⟨hk, hph, fun hst => by rw [hd hst]⟩ h hp
  | initDesc x nx tid cur ph nd =>
    obtain ⟨hk, hph, hnd⟩ := hs
    have htid := hk.taker.lt hI
    exact .newDesc hI _ fun w' h _ ho =>
      ⟨hk.later h, ph, nd, hph.later h htid hk.used, hnd.later h htid hk.used, ho⟩
  | casState x nx tid cur d =>
    obtain ⟨hk, ph, nd, hph, hnd, ho⟩ := hs
    simp only [FinishDequeue.step]
    split_ifs with hst
    · exact hk.casState_ok hI hph hnd ho hst
    · refine .read hI fun w' h hp => FinishDequeue.Ok.later (s := .casHead x nx tid)
        ⟨hk.taker, hk.ne, ?_⟩ h hp
      exact hk.read.imp_right fun h => h.resolve_left hst
  | casHead x nx tid =>
    obtain ⟨hk, hne, hdone⟩ := hs
    simp only [FinishDequeue.step]
    split_ifs with hx
    · have hpend : (w.shared.descOf (w.shared.node x.value).deqTid).pending = false := by
        rw [hk.deqTid]
        refine hdone.resolve_left fun h => ?_
        rw [hx] at h
        exact lt_irrefl _ h
      obtain ⟨h1, h2, h3, c, h4, h5⟩ := hI.casHead hx (hk.link hne) (hk.deqTid ▸ hk.ne) hpend
      subst hx
      refine ⟨_, h1, h2, fun v _ => Private.refl v _ _, .move rfl rfl (hk.link hne) h4 h5 h3, rfl,
        fun e => ?_⟩
      exact hk.le
    · exact hmoved hk (hk.head.lt_of_ne hI (Ne.symm hx))

end FinishDequeue

/-! ### `help_enqueue` -/

section HelpEnqueue

variable {s : HelpEnqueue} {x nx : AtomicPointer} {p : ℕ}

/-- A pending enqueue whose node is linked shows the last node, behind tail. -/
theorem Inv.linked_last {tr : List (Moment (machine α n))} {σ : Shared α} {g : Ghost}
    (hI : Inv tr σ g) (hi : i < n) (hpend : (σ.descOf i).pending = true)
    (htype : (σ.descOf i).type = .enqueue) (hmem : (σ.descOf i).node ∈ g.chain) :
    g.chain[σ.tail.aba + 1]? = some (σ.descOf i).node := by
  have hD := hI.desc i hi
  generalize σ.descOf i = D at hD hpend htype hmem
  cases hD with
  | enqueuing _ _ _ hl => exact hl hmem
  | dequeuing => cases htype
  | initial => cases hpend
  | enqueued => cases hpend
  | dequeued => cases hpend
  | empty => cases hpend

theorem Helping.linkable (hI : Inv w.trace w.shared w.ghost) (hi : i < n)
    (hh : Helping u i c .enqueue ph w) (hx : TailRead w x)
    (hpend : (w.shared.descOf i).pending = true) : Unless i ph (Linkable i x) w := by
  rcases hh.call with ⟨-, htype⟩ | hlt
  · right
    by_cases hmem : (w.shared.descOf i).node ∈ w.ghost.chain
    · have := Chain.lt_length (hI.linked_last hi hpend htype hmem)
      have := hx.2
      exact Or.inl (by omega)
    · exact Or.inr ⟨hpend, htype, hmem⟩
  · exact Or.inl hlt

theorem LinkableNode.casNext_ok (hI : Inv w.trace w.shared w.ghost) (hi : i < n)
    (hx : TailRead w x) (hl : LinkableNode i x p w)
    (hnext : (w.shared.node x.value).next = ⟨0, 0⟩) :
    StepOk u w (w.shared.setNext x.value ⟨p, 1⟩)
      fun w' => ∃ L, FinishEnqueue.Ok u L w' .loadTail ∧ OwnLinked u i L w' := by
  have hlast : x.aba + 1 = w.ghost.chain.length :=
    (hI.chain.next_eq_zero hx.1).mp (by rw [hnext])
  have hlen : ¬ x.aba + 1 < w.ghost.chain.length := by omega
  obtain ⟨h1, h2⟩ := hl
  obtain ⟨hpend, htype, hnot⟩ := h1.resolve_left hlen
  obtain rfl := h2.resolve_left hlen
  obtain ⟨hI', hr, hq, c, -, hm, ho⟩ := hI.link hi hpend htype rfl hnot hx.1 hx.2 hnext
  refine ⟨_, hI', hr, fun v _ => Private.refl v _ _,
    .link (by rw [hnext]) rfl hnot rfl hm ho hq, rfl, fun e => ?_⟩
  refine ⟨w.ghost.chain.length + 1, ?_, ?_⟩
  · show w.ghost.chain.length + 1 ≤ (w.ghost.chain ++ [_]).length
    rw [List.length_append, List.length_singleton]
  · rintro rfl
    exact ⟨htype, w.ghost.chain.length, Nat.lt_succ_self _, List.getElem?_concat_length⟩

/-- Once tail has passed the own node, the own enqueue is done. -/
theorem OwnLinked.done {tr : List (Moment (machine α n))} (ho : OwnLinked u i L w)
    (hI : Inv tr w.shared w.ghost) (hu : u < n) (hL : L ≤ w.shared.tail.aba + 1) (hiu : i = u) :
    (w.shared.descOf u).pending = false := by
  obtain ⟨htype, q, hq, hget⟩ := ho hiu
  refine Bool.eq_false_of_not_eq_true fun hpend => ?_
  have hlast := hI.linked_last hu hpend htype (List.mem_of_getElem? hget)
  have := hI.chain.pos_unique hget hlast
  omega

/-- What is known after an access of `help_enqueue`. -/
def HelpEnqueue.After (u i : ℕ) (ph : ℤ) (w : World (machine α n) Ghost) :
    Option HelpEnqueue → Prop
  | some s => s.Ok u i ph w
  | none => i = u → (w.shared.descOf u).pending = false

theorem HelpEnqueue.step_ok (hI : Inv w.trace w.shared w.ghost) (hu : u < n) (hi : i < n)
    (hph : (w.shared.descOf u).phase = ph) (hh : Helping u i c .enqueue ph w)
    (hs : s.Ok u i ph w) :
    StepOk u w (s.step w.shared i ph).1
      fun w' => HelpEnqueue.After u i ph w' (s.step w.shared i ph).2 := by
  -- an access that only reads
  have hgo : ∀ s' : HelpEnqueue, s'.Ok u i ph w →
      StepOk u w w.shared fun w' => HelpEnqueue.After u i ph w' (some s') := fun s' hs' =>
    .read hI fun w' h hp => hs'.later h hp hu hi
  have hloop : StepOk u w w.shared fun w' =>
      HelpEnqueue.After u i ph w' (some (.loop .loadPendingState)) := hgo _ trivial
  cases s with
  | loop s =>
    have hafter := Still.step_ok hI hi hph hs fun _ => Or.inr trivial
    rcases hst : s.step w.shared i ph with s' | b
    · rw [hst] at hafter
      simp only [HelpEnqueue.step, hst]
      exact hgo _ hafter
    · rw [hst] at hafter
      cases b with
      | true =>
        simp only [HelpEnqueue.step, hst]
        exact hgo _ trivial
      | false =>
        simp only [HelpEnqueue.step, hst]
        exact .read hI fun w' h _ hiu => h.own_done hu (hafter hiu)
  | loadTail => exact hgo _ ⟨hI.tail, le_rfl⟩
  | loadNext x =>
    have hx : TailRead w x := hs
    exact hgo _ ⟨hx, fun h0 => hI.chain.next_none hx.1 h0⟩
  | checkTail x nx =>
    obtain ⟨hx, h0⟩ := hs
    simp only [HelpEnqueue.step]
    split_ifs with htail hnx
    · exact hgo _ ⟨hx, h0 hnx, trivial⟩
    · exact hgo _ (Nat.zero_le _)
    · exact hloop
  | stillPending x nx s =>
    obtain ⟨hx, h0, hs⟩ := hs
    have hafter := Still.step_ok hI hi hph hs (hh.linkable hI hi hx)
    rcases hst : s.step w.shared i ph with s' | b
    · rw [hst] at hafter
      simp only [HelpEnqueue.step, hst]
      exact hgo _ ⟨hx, h0, hafter⟩
    · rw [hst] at hafter
      cases b with
      | true =>
        simp only [HelpEnqueue.step, hst]
        exact hgo _ ⟨hx, h0, hafter⟩
      | false =>
        simp only [HelpEnqueue.step, hst]
        exact hloop
  | loadState x nx =>
    obtain ⟨hx, h0, hl⟩ := hs
    exact hgo _ ⟨hx, h0, hI.state i hi, hl, Or.inr rfl⟩
  | loadNode x nx d =>
    obtain ⟨hx, h0, -, hl⟩ := hs
    exact hgo _ ⟨hx, h0, hl⟩
  | casNext x nx p =>
    obtain ⟨hx, rfl, hl⟩ := hs
    simp only [HelpEnqueue.step]
    split_ifs with hnext
    · exact hl.casNext_ok hI hi hx hnext
    · exact hloop
  | finish s =>
    obtain ⟨L, hs, ho⟩ := hs
    refine (FinishEnqueue.step_ok hI hs).mono hI fun w' h hI' hQ => ?_
    simp only [HelpEnqueue.step]
    cases hst : (s.step w.shared).2 with
    | some s' =>
      rw [hst] at hQ
      exact ⟨L, hQ, ho.later h hu⟩
    | none =>
      rw [hst] at hQ
      exact (ho.later h hu).done hI' hu hQ
  | finishOther s =>
    refine (FinishEnqueue.step_ok hI hs).mono hI fun w' h hI' hQ => ?_
    simp only [HelpEnqueue.step]
    cases hst : (s.step w.shared).2 with
    | some s' =>
      rw [hst] at hQ
      exact hQ
    | none => trivial

end HelpEnqueue

/-! ### `help_dequeue` -/

section HelpDequeue

variable {s : HelpDequeue} {x y cur : AtomicPointer} {p : ℕ}

theorem Helping.matches_ (hh : Helping u i c .dequeue ph w)
    (hpend : (w.shared.descOf i).pending = true) : Unless i ph (Matches c i cur) w := by
  rcases hh.call with ⟨hcur, htype⟩ | hlt
  · refine Or.inr fun hst => ?_
    rw [Shared.descOf, hst] at hpend htype
    exact ⟨hpend, htype, hcur⟩
  · exact Or.inl hlt

/-- Head's node is reserved for a dequeue whose descriptor shows it. -/
theorem Helping.reservedBy (hI : Inv w.trace w.shared w.ghost) (hi : i < n)
    (hh : Helping u i c .dequeue ph w) (hx : HeadRead w x) :
    Unless i ph (ReservedBy i x (w.shared.descOf i).node) w := by
  rcases hh.call with ⟨hcur, htype⟩ | hlt
  · refine Or.inr fun hnode => ?_
    by_cases hpend : (w.shared.descOf i).pending = true
    · exact Or.inr ⟨hpend, htype, hnode⟩
    · left
      have hD := hI.desc i hi
      generalize w.shared.descOf i = D at hD hpend htype hnode
      cases hD with
      | dequeued _ _ hp hj =>
        obtain rfl := hnode
        exact hI.deqTid_ne hp (Chain.lt_length hj)
      | empty => exact absurd hnode.symm (hI.chain.ne_zero hx.1)
      | dequeuing => exact absurd rfl hpend
      | initial => cases htype
      | enqueuing => cases htype
      | enqueued => cases htype
  · exact Or.inl hlt

/-- The descriptor of a pending dequeue that is not ahead of `x`. -/
structure Unreserved (i c : ℕ) (cur : AtomicPointer) (w : World (machine α n) Ghost) : Prop where
  desc : w.shared.descOf i = w.shared.desc cur.value
  pending : (w.shared.descOf i).pending = true
  type : (w.shared.descOf i).type = .dequeue
  cur : w.ghost.cur i = some c
  call : Open (history w.trace) i c .dequeue
  taken : (w.shared.descOf i).node ∈ w.ghost.chain →
    (w.shared.node (w.shared.descOf i).node).deqTid ≠ kTidNotSet
  head : (w.shared.descOf i).node ≠ w.shared.head.value
  free : c ∉ w.ghost.takers

/-- A pending dequeue's open call. -/
theorem Inv.dequeuing {tr : List (Moment (machine α n))} {σ : Shared α} {g : Ghost}
    (hI : Inv tr σ g) (hi : i < n) (hpend : (σ.descOf i).pending = true)
    (htype : (σ.descOf i).type = .dequeue) (hcur : g.cur i = some c) :
    Open (history tr) i c .dequeue ∧ (∀ j : ℕ, g.takers[j]? = some c → j = σ.head.aba) ∧
      ((σ.descOf i).node ≠ 0 →
        ∃ j, g.chain[j]? = some (σ.descOf i).node ∧ j ≤ σ.head.aba ∧ j < σ.tail.aba) := by
  have hD := hI.desc i hi
  generalize σ.descOf i = D at hD hpend htype
  cases hD with
  | dequeuing hc ho hj hp =>
    obtain rfl := Option.some.inj (hcur.symm.trans hc)
    exact ⟨ho, hj, hp⟩
  | enqueuing => cases htype
  | initial => cases hpend
  | enqueued => cases hpend
  | dequeued => cases hpend
  | empty => cases hpend

theorem Matches.unreserved (hI : Inv w.trace w.shared w.ghost) (hi : i < n)
    (hm : Matches c i cur w) (hb : Behind i x cur w) (hx : HeadRead w x)
    (hst : w.shared.state i = cur) : Unreserved i c cur w := by
  have hdesc : w.shared.descOf i = w.shared.desc cur.value := by rw [Shared.descOf, hst]
  obtain ⟨hpend, htype, hcur⟩ := hm hst
  have hbehind := hb hst hpend htype
  rw [← hdesc] at hpend htype hbehind
  obtain ⟨ho, hj, -⟩ := hI.dequeuing hi hpend htype hcur
  have hx2 := hx.2
  have hhead : (w.shared.descOf i).node ≠ w.shared.head.value := by
    intro h
    rcases hbehind with h0 | ⟨j, hlt, hget⟩
    · exact hI.chain.ne_zero hI.head (h.symm.trans h0)
    · have := hI.chain.pos_unique (h ▸ hget) hI.head
      omega
  refine ⟨hdesc, hpend, htype, hcur, ho, fun hmem => ?_, hhead, fun hmem => ?_⟩
  · rcases hbehind with h0 | ⟨j, hlt, hget⟩
    · obtain ⟨k, hk⟩ := List.mem_iff_getElem?.mp hmem
      exact absurd h0 (hI.chain.ne_zero hk)
    · have := hI.le_takers
      exact hI.deqTid_ne hget (by omega)
  · -- head's node would be reserved for this call
    obtain ⟨j, hget⟩ := List.mem_iff_getElem?.mp hmem
    obtain rfl := hj j hget
    obtain ⟨-, hcall⟩ := hI.taker _ _ _ hI.head hget
    have hkey := hcall.symm.trans ho.1
    simp only [Option.some.injEq, Event.inv.injEq] at hkey
    obtain ⟨-, -, hnode, -⟩ := hI.reserved c hget
    rw [hkey.1] at hnode
    exact hhead hnode

/-- The descriptor of a pending dequeue may be replaced if it does not show head's node. -/
theorem Unreserved.helped (hI : Inv w.trace w.shared w.ghost) (hi : i < n)
    (hf : Unreserved i c cur w) {D : OperationDescriptor} {aba : ℕ}
    {Q : World (machine α n) Ghost → Prop}
    (hphase : D.phase = (w.shared.descOf i).phase) (htype : D.type = .dequeue)
    (hok : DescOk w.trace w.shared w.ghost i D) (ho : OwnDesc u d D w.shared w.ghost)
    (hQ : ∀ w', Later u w w' → w'.shared.descOf i = D → Q w') :
    StepOk u w (w.shared.setState i ⟨d, aba⟩) Q := by
  refine .helped hI hi ho ?_ hok (fun c' hc hd => ?_) hQ
  · refine ⟨hphase, htype.trans hf.type.symm, fun h => ?_, fun h => ?_,
      fun _ => Or.inr hf.taken, fun _ h => absurd h hf.head⟩
    · rw [hf.pending] at h
      cases h
    · rw [hf.type] at h
      cases h
  · obtain ⟨-, -, hnode, -⟩ := hI.reserved c' hc
    rw [hd] at hnode
    exact absurd hnode hf.head

/-- The empty queue is reported. -/
theorem Empties.cas_ok (hI : Inv w.trace w.shared w.ghost) (hi : i < n)
    (he : Empties i c x cur w) (hm : Matches c i cur w) (hph : HoldsPhase i cur ph w)
    (ho : OwnDesc u d ⟨ph, false, .dequeue, 0⟩ w.shared w.ghost)
    (hst : w.shared.state i = cur) :
    StepOk u w (w.shared.setState i ⟨d, cur.aba + 1⟩) fun _ => True := by
  have hf := hm.unreserved hI hi he.behind he.head hst
  exact hf.helped hI hi ((hph hst).trans (by rw [hf.desc])) rfl
    (.empty hf.cur hf.call.1 hf.free he.empty) ho fun _ _ _ => trivial

/-- Head's node is shown by the descriptor of the dequeue. -/
theorem Reserves.cas_ok (hI : Inv w.trace w.shared w.ghost) (hi : i < n)
    (hr : Reserves i c x cur w) (hph : HoldsPhase i cur ph w)
    (ho : OwnDesc u d ⟨ph, true, .dequeue, x.value⟩ w.shared w.ghost)
    (hst : w.shared.state i = cur) :
    StepOk u w (w.shared.setState i ⟨d, cur.aba + 1⟩)
      fun w' => Filled x w' ∧ Reserved i x w' := by
  have hf := hr.matches_.unreserved hI hi hr.behind hr.filled.head hst
  refine hf.helped hI hi ((hph hst).trans (by rw [hf.desc])) rfl
    (.dequeuing hf.cur hf.call (fun j hj => absurd (List.mem_of_getElem? hj) hf.free)
      fun _ => ⟨x.aba, hr.filled.head.1, hr.filled.head.2, hr.filled.lt⟩) ho fun w' h hD =>
    ⟨hr.filled.later h, Or.inr ?_⟩
  rw [hD]
  exact ⟨rfl, rfl, rfl⟩

theorem Reserved.casDeqTid_ok (hI : Inv w.trace w.shared w.ghost) (hi : i < n)
    (hr : Reserved i x w) (hx : Filled x w)
    (hnot : (w.shared.node x.value).deqTid = kTidNotSet) :
    StepOk u w (w.shared.setDeqTid x.value i) fun w' => FinishDequeue.Ok u 0 w' .loadHead := by
  obtain ⟨hpend, htype, hnode⟩ := hr.resolve_left (not_not.mpr hnot)
  obtain ⟨c, -, -, ho, -, hI', hrely⟩ :=
    hI.setDeqTid hi hpend htype hnode hx.head.1 hx.head.2 hx.lt hnot
  refine ⟨_, hI', hrely, fun v _ => Private.refl v _ _,
    .plain (fun _ => setDeqTid_keeps.2.2) rfl rfl (fun c' hc' => ?_), rfl, fun _ => Nat.zero_le _⟩
  rcases List.mem_append.mp hc' with h | h
  · exact Or.inl h
  · rw [List.mem_singleton.mp h]
    exact Or.inr ⟨i, ho⟩

/-- The node of a pending dequeue is behind a last node that is still tail's. -/
theorem TailRead.behind {y : AtomicPointer} (hI : Inv w.trace w.shared w.ghost) (hi : i < n)
    (hy : TailRead w y) (hxy : x.aba = y.aba) (htail : y.value = w.shared.tail.value) :
    Behind i x cur w := by
  intro hst hpend htype
  rw [← hst] at hpend htype ⊢
  refine or_iff_not_imp_left.mpr fun h0 => ?_
  have hpos : y.aba = w.shared.tail.aba := hI.chain.pos_unique hy.1 (htail ▸ hI.tail)
  obtain ⟨j, hget, -, hlt⟩ := (hI.dequeuing hi hpend htype (hI.running i hi hpend)).2.2 h0
  exact ⟨j, by omega, hget⟩

/-- And behind head's node, if it is another one. -/
theorem HeadRead.behind {nd : ℕ} (hI : Inv w.trace w.shared w.ghost) (hi : i < n)
    (hx : HeadRead w x) (hhead : w.shared.head = x)
    (hnd : nd = (w.shared.desc cur.value).node) (hne : nd ≠ x.value) : Behind i x cur w := by
  intro hst hpend htype
  rw [← hst] at hpend htype hnd ⊢
  refine or_iff_not_imp_left.mpr fun h0 => ?_
  obtain ⟨j, hget, hle, -⟩ := (hI.dequeuing hi hpend htype (hI.running i hi hpend)).2.2 h0
  refine ⟨j, lt_of_le_of_ne (by rw [← hhead]; exact hle) fun h => hne ?_, hget⟩
  rw [h, hx.1] at hget
  exact hnd.trans (Option.some.inj hget).symm

/-- What is known after an access of `help_dequeue`. -/
def HelpDequeue.After (u i c : ℕ) (ph : ℤ) (w : World (machine α n) Ghost) :
    Option HelpDequeue → Prop
  | some s => s.Ok u i c ph w
  | none => i = u → (w.shared.descOf u).pending = false

theorem HelpDequeue.step_ok (hI : Inv w.trace w.shared w.ghost) (hu : u < n) (hi : i < n)
    (hph : (w.shared.descOf u).phase = ph) (hh : Helping u i c .dequeue ph w)
    (hs : s.Ok u i c ph w) :
    StepOk u w (s.step w.shared i ph).1
      fun w' => HelpDequeue.After u i c ph w' (s.step w.shared i ph).2 := by
  -- an access that only reads
  have hgo : ∀ s' : HelpDequeue, s'.Ok u i c ph w →
      StepOk u w w.shared fun w' => HelpDequeue.After u i c ph w' (some s') := fun s' hs' =>
    .read hI fun w' h hp => hs'.later h hp hu hi
  have hloop : StepOk u w w.shared fun w' =>
      HelpDequeue.After u i c ph w' (some (.loop .loadPendingState)) := hgo _ trivial
  have hdone : (i = u → (w.shared.descOf u).pending = false) →
      StepOk u w w.shared fun w' => HelpDequeue.After u i c ph w' none := fun hd =>
    .read hI fun w' h _ hiu => h.own_done hu (hd hiu)
  cases s with
  | loop s =>
    have hafter := Still.step_ok hI hi hph hs fun _ => Or.inr trivial
    rcases hst : s.step w.shared i ph with s' | b
    · rw [hst] at hafter
      simp only [HelpDequeue.step, hst]
      exact hgo _ hafter
    · rw [hst] at hafter
      cases b with
      | true =>
        simp only [HelpDequeue.step, hst]
        exact hgo _ trivial
      | false =>
        simp only [HelpDequeue.step, hst]
        exact hdone hafter
  | loadHead => exact hgo _ ⟨hI.head, le_rfl⟩
  | loadTail x =>
    have hx : HeadRead w x := hs
    exact hgo _ ⟨hx, ⟨hI.tail, le_rfl⟩, hx.2.trans hI.head_le⟩
  | loadNext x y =>
    obtain ⟨hx, hy, hle⟩ := hs
    refine .now hI fun e => ?_
    have h : Later u w (w.record e w.shared w.ghost) := .of_rely hI (Rely.refl n u ..)
    refine ⟨hx.later h, hy.later h, hle, fun h0 => ?_⟩
    rcases Nat.lt_or_eq_of_le hx.2 with hlt | heq
    · exact Or.inl hlt
    · -- head's node is the last one
      refine Or.inr (since_record hh.le ?_)
      have hlast := (hI.chain.next_eq_zero hx.1).mp h0
      rw [hI.queue_eq, List.drop_eq_nil_of_le (by omega), List.map_nil]
  | checkHead x y nx =>
    obtain ⟨hx, hy, hle, hempty⟩ := hs
    simp only [HelpDequeue.step]
    split_ifs with hhead hval hnx
    · refine hgo _ ⟨hx, hy, ?_, (hempty hnx).resolve_left fun h => ?_⟩
      · exact hI.chain.pos_unique hx.1 (hval ▸ hy.1)
      · rw [hhead] at h
        exact lt_irrefl _ h
    · exact hgo _ (Nat.zero_le _)
    · refine hgo _ ⟨hx, lt_of_lt_of_le (lt_of_le_of_ne hle fun h => hval ?_) hy.2⟩
      rw [word_unique hx.1 hy.1 h]
    · exact hloop
  | emptyState x y =>
    obtain ⟨hx, hy, heq, he⟩ := hs
    exact hgo _ ⟨hx, hy, heq, he, hI.state i hi⟩
  | emptyTail x y cur =>
    obtain ⟨hx, hy, heq, he, hused⟩ := hs
    simp only [HelpDequeue.step]
    split_ifs with htail
    · exact hgo _ ⟨⟨hx, he, hused, hy.behind hI hi heq htail⟩, trivial⟩
    · exact hloop
  | emptyStillPending x cur s =>
    obtain ⟨he, hs⟩ := hs
    have hafter := Still.step_ok hI hi hph hs hh.matches_
    rcases hst : s.step w.shared i ph with s' | b
    · rw [hst] at hafter
      simp only [HelpDequeue.step, hst]
      exact hgo _ ⟨he, hafter⟩
    · rw [hst] at hafter
      cases b with
      | true =>
        simp only [HelpDequeue.step, hst]
        exact hgo _ ⟨he, hafter⟩
      | false =>
        simp only [HelpDequeue.step, hst]
        exact hloop
  | emptyPhaseState x cur =>
    obtain ⟨he, hm⟩ := hs
    exact hgo _ ⟨he, hm, hI.state i hi, fun hst => by rw [hst]⟩
  | emptyPhase x cur d =>
    obtain ⟨he, hm, -, hd⟩ := hs
    exact hgo _ ⟨he, hm, fun hst => by rw [hd hst]⟩
  | emptyInitDesc x cur p =>
    obtain ⟨he, hm, hp⟩ := hs
    exact .newDesc hI _ fun w' h _ ho =>
      ⟨he.later h hi, hm.later h hi he.used, p, hp.later h hi he.used, ho⟩
  | emptyCas x cur d =>
    obtain ⟨he, hm, p, hp, ho⟩ := hs
    simp only [HelpDequeue.step]
    split_ifs with hst
    · exact (he.cas_ok hI hi hm hp ho hst).mono hI fun _ _ _ _ => trivial
    · exact hloop
  | finishEnqueue s =>
    refine (FinishEnqueue.step_ok hI hs).mono hI fun w' h hI' hQ => ?_
    simp only [HelpDequeue.step]
    cases hst : (s.step w.shared).2 with
    | some s' =>
      rw [hst] at hQ
      exact hQ
    | none => trivial
  | loadState x =>
    have hx : Filled x w := hs
    exact hgo _ ⟨hx, hI.state i hi, hh.reservedBy hI hi hx.head⟩
  | loadNode x cur =>
    obtain ⟨hx, hused, hr⟩ := hs
    exact hgo _ ⟨hx, hused, hr, rfl, trivial⟩
  | stillPending x cur nd s =>
    obtain ⟨hx, hused, hr, hnd, hs⟩ := hs
    have hafter := Still.step_ok hI hi hph hs fun hpend => by
      rcases hr with h | h
      · exact Or.inl h
      · exact (hh.matches_ hpend).imp_right fun h' => ⟨h, h'⟩
    rcases hst : s.step w.shared i ph with s' | b
    · rw [hst] at hafter
      simp only [HelpDequeue.step, hst]
      exact hgo _ ⟨hx, hused, hr, hnd, hafter⟩
    · rw [hst] at hafter
      cases b with
      | true =>
        simp only [HelpDequeue.step, hst]
        exact hgo _ ⟨hx, hused, hnd, hafter⟩
      | false =>
        simp only [HelpDequeue.step, hst]
        exact hdone hafter
  | checkNode x cur nd =>
    obtain ⟨hx, hused, hnd, hr, hm⟩ := hs
    simp only [HelpDequeue.step]
    split_ifs with hhead
    · exact hgo _ ⟨hx, hused, hm, hx.head.behind hI hi hhead.1 hnd hhead.2⟩
    · refine hgo _ ⟨hx, ?_⟩
      by_cases hh' : w.shared.head = x
      · exact hr (not_not.mp fun h => hhead ⟨hh', h⟩)
      · have := hx.head.lt_of_ne hI (Ne.symm hh')
        have := hI.le_takers
        exact Or.inl (hI.deqTid_ne hx.head.1 (by omega))
  | loadPhaseState x cur =>
    have hr : Reserves i c x cur w := hs
    exact hgo _ ⟨hr, hI.state i hi, fun hst => by rw [hst]⟩
  | loadPhase x cur d =>
    obtain ⟨hr, -, hd⟩ := hs
    exact hgo _ ⟨hr, fun hst => by rw [hd hst]⟩
  | initDesc x cur p =>
    obtain ⟨hr, hp⟩ := hs
    exact .newDesc hI _ fun w' h _ ho => ⟨hr.later h hi, p, hp.later h hi hr.used, ho⟩
  | casState x cur d =>
    obtain ⟨hr, p, hp, ho⟩ := hs
    simp only [HelpDequeue.step]
    split_ifs with hst
    · exact hr.cas_ok hI hi hp ho hst
    · exact hloop
  | casDeqTid x =>
    obtain ⟨hx, hr⟩ := hs
    simp only [HelpDequeue.step]
    split_ifs with hnot
    · exact hr.casDeqTid_ok hI hi hx hnot
    · exact hgo _ (Nat.zero_le _)
  | finish s =>
    refine (FinishDequeue.step_ok hI hs).mono hI fun w' h hI' hQ => ?_
    simp only [HelpDequeue.step]
    cases hst : (s.step w.shared).2 with
    | some s' =>
      rw [hst] at hQ
      exact hQ
    | none => trivial

end HelpDequeue

/-! ### `help` -/

section Help

variable {s : Help}

/-- What is known after an access of an iteration of `help`. -/
def Help.After (u i : ℕ) (ph : ℤ) (w : World (machine α n) Ghost) : Option Help → Prop
  | some s => s.Ok u i ph w
  | none => i = u → (w.shared.descOf u).pending = false

/-- A pending call can be helped. -/
theorem helping_now (hI : Inv w.trace w.shared w.ghost) (hi : i < n)
    (hpend : (w.shared.descOf i).pending = true) :
    ∃ c, Helping u i c (w.shared.descOf i).type ph w := by
  have hcur := hI.running i hi hpend
  refine ⟨w.ghost.running i, Or.inl ⟨hcur, rfl⟩, Or.inl rfl, ?_⟩
  obtain ⟨op, hop⟩ := (hI.desc i hi).call hcur
  have := (List.getElem?_eq_some_iff.mp hop).choose
  rw [length_history] at this
  exact this.le

theorem Help.step_ok (hI : Inv w.trace w.shared w.ghost) (hu : u < n) (hi : i < n)
    (hph : (w.shared.descOf u).phase = ph) (hs : s.Ok u i ph w) :
    StepOk u w (s.step w.shared i ph).1
      fun w' => Help.After u i ph w' (s.step w.shared i ph).2 := by
  -- an access that only reads
  have hgo : ∀ s' : Help, s'.Ok u i ph w →
      StepOk u w w.shared fun w' => Help.After u i ph w' (some s') := fun s' hs' =>
    .read hI fun w' h hp => hs'.later h hp hu hi hph
  have hdone : (i = u → (w.shared.descOf u).pending = false) →
      StepOk u w w.shared fun w' => Help.After u i ph w' none := fun hd =>
    .read hI fun w' h _ hiu => h.own_done hu (hd hiu)
  cases s with
  | loadState =>
    refine hgo _ ⟨hI.state i hi, ?_, fun hp => helping_now hI hi hp⟩
    rintro rfl
    exact ⟨hph, fun h => h⟩
  | loadPending d =>
    obtain ⟨hd, ho, hh⟩ := hs
    simp only [Help.step]
    split_ifs with hp
    · exact hgo _ ⟨hd, ho, hh hp⟩
    · exact hdone fun hiu => (ho hiu).2 (Bool.eq_false_of_not_eq_true hp)
  | loadPhase d =>
    obtain ⟨hd, ho, hh⟩ := hs
    simp only [Help.step]
    split_ifs with hp
    · exact hgo _ ⟨hd, hh⟩
    · exact hdone fun hiu => absurd (ho hiu).1.le hp
  | loadType d =>
    obtain ⟨hd, c, hh⟩ := hs
    simp only [Help.step]
    cases htype : (w.shared.desc d).type with
    | enqueue =>
      rw [htype] at hh
      exact hgo _ ⟨⟨c, hh⟩, trivial⟩
    | dequeue =>
      rw [htype] at hh
      exact hgo _ ⟨c, hh, trivial⟩
  | enqueue s =>
    obtain ⟨⟨c, hh⟩, hs⟩ := hs
    refine (HelpEnqueue.step_ok hI hu hi hph hh hs).mono hI fun w' h hI' hQ => ?_
    simp only [Help.step]
    cases hst : (s.step w.shared i ph).2 with
    | some s' =>
      rw [hst] at hQ
      exact ⟨⟨c, hh.later h hu hi hph⟩, hQ⟩
    | none =>
      rw [hst] at hQ
      exact hQ
  | dequeue s =>
    obtain ⟨c, hh, hs⟩ := hs
    refine (HelpDequeue.step_ok hI hu hi hph hh hs).mono hI fun w' h hI' hQ => ?_
    simp only [Help.step]
    cases hst : (s.step w.shared i ph).2 with
    | some s' =>
      rw [hst] at hQ
      exact ⟨c, hh.later h hu hi hph, hQ⟩
    | none =>
      rw [hst] at hQ
      exact hQ

end Help

end WaitfreeQueue

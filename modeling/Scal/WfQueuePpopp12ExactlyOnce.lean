/-
The fast path and the slow path of the wait-free queue together apply every operation exactly
once, in FIFO order (`WfQueuePpopp12.applied_once_anyPath`).

What was applied is read off the trace: a node is linked by the step that writes it into a
`next`.  A move of head from a node where it is stamped belongs to the thread that has stamped
it, whichever thread moves head; any other move belongs to the thread that makes it.

* `linkedQueue` — how this queue is read;
* `Effect.links`, `Effect.moves`, … — what a step does, by the invariant;
* `CallKeeps.step`, `invoke_step` — every step keeps the ledger;
* `outline_sound` — the proof outline of the queue.
-/
import Scal.LinkedQueue
import Scal.WfQueuePpopp12Calls

open Interleave Linearizability
open Helping (toUnsigned)

namespace WfQueuePpopp12

variable {α : Type} [Inhabited α] {c : Params}

/-- The step links the node `p`. -/
def Links (p : ℕ) (m : Moment (machine α c)) : Prop :=
  p ≠ 0 ∧ ∃ q, (m.before.node q).next.value ≠ p ∧ (m.after.node q).next.value = p

/-- A move of head belongs to the thread that has stamped head, if there is one. -/
def linkedQueue (α : Type) [Inhabited α] (c : Params) : LinkedQueue (machine α c) where
  queue := Shared.queue
  data σ p := (σ.node p).data
  headNode σ := σ.head.value
  makes := Makes
  links := Links
  taker m := if m.before.head.aba = kTidNotSet then m.event.thread else m.before.head.aba

/-- The nodes, the takers and head's position. -/
def account (σ : Shared α) (g : Ghost) : LinkedQueue.Account :=
  ⟨g.chain, g.takers, g.maker, g.head, σ.alloc⟩

/-! ### What a step does, read off the step -/

section Effect

variable {tr : List (Moment (machine α c))} {σ σ' : Shared α} {g g' : Ghost} {p i u : ℕ}
  {e : Event (QueueOp α) (QueueRet α)}

theorem Effect.links (hE : Effect tr u σ g σ' g') (hI : Inv tr σ g) (hI' : Inv tr σ' g')
    (hl : Links p (⟨e, σ, σ'⟩ : Moment (machine α c))) :
    p ∉ g.chain ∧ p ∈ g'.chain ∧ σ'.queue = σ.queue ++ [(σ.node p).data] ∧
      ∃ t i, Did Makes tr i p ∧ Open (history tr) t i (.enqueue (σ.node p).data) := by
  obtain ⟨-, q, hne, heq⟩ := hl
  have hne : (σ.node q).next.value ≠ p := hne
  have heq : (σ'.node q).next.value = p := heq
  cases hE with
  | plain hnext =>
    rw [hnext q] at heq
    exact absurd heq hne
  | @link p' q' t i hz hσ hnot h0 hg hd ho =>
    subst hσ hg
    by_cases hqq : q = q'
    · subst hqq
      have : ((σ.setNext q ⟨p', 1⟩).node q).next.value = p' := by simp [Shared.setNext]
      obtain rfl := this.symm.trans heq
      refine ⟨hnot, List.mem_append_right _ (List.mem_singleton_self _), ?_, t, i, hd, ho⟩
      have hdata : (fun r => ((σ.setNext q ⟨p', 1⟩).node r).data) = fun r => (σ.node r).data :=
        funext fun r => setNext_keeps.1
      have hlt : g.head + 1 ≤ g.chain.length := hI.head_lt
      rw [hI'.queue_eq, hI.queue_eq, hdata, List.drop_append_of_le_length hlt, List.map_append]
      rfl
    · have : (σ.setNext q' ⟨p', 1⟩).node q = σ.node q := Function.update_of_ne hqq ..
      rw [this] at heq
      exact absurd heq hne
  | move hσ =>
    subst hσ
    exact absurd heq hne

theorem Effect.chain_cases (hE : Effect tr u σ g σ' g') (hp : p ∈ g'.chain) :
    p ∈ g.chain ∨ Links p (⟨e, σ, σ'⟩ : Moment (machine α c)) := by
  cases hE with
  | plain _ _ _ hg => exact Or.inl (hg ▸ hp)
  | @link p' q t i hz hσ hnot h0 hg hd ho =>
    subst hσ hg
    refine (List.mem_append.mp hp).imp_right fun hp => ?_
    obtain rfl := List.mem_singleton.mp hp
    refine ⟨h0, q, ?_, ?_⟩
    · show (σ.node q).next.value ≠ p
      rw [hz]
      exact h0.symm
    · show ((σ.setNext q ⟨p, 1⟩).node q).next.value = p
      simp [Shared.setNext]
  | move _ hg => exact Or.inl (hg ▸ hp)

/-- A move of head's node is one to the next position. -/
theorem Effect.moves (hE : Effect tr u σ g σ' g') (hI : Inv tr σ g) (hI' : Inv tr σ' g')
    (hm : σ'.head.value ≠ σ.head.value) : g'.head = g.head + 1 ∧
      ∃ p i, g.chain[g.head + 1]? = some p ∧ g'.takers[g.head]? = some i ∧
        Open (history tr) (if σ.head.aba = kTidNotSet then u else σ.head.aba) i .dequeue ∧
        σ.queue = (σ.node p).data :: σ'.queue := by
  cases hE with
  | plain _ hh => exact absurd hh hm
  | link _ hσ =>
    subst hσ
    exact absurd rfl hm
  | @move p i hσ hchain hhead hp hi ho =>
    subst hσ
    refine ⟨hhead, p, i, hp, hi, ho, ?_⟩
    have hlt := Chain.lt_length hp
    rw [hI'.queue_eq, hI.queue_eq, hchain, hhead, List.drop_eq_getElem_cons hlt, List.map_cons,
      (List.getElem?_eq_some_iff.mp hp).choose_spec]

theorem Effect.stays (hE : Effect tr u σ g σ' g') (hI : Inv tr σ g)
    (hm : σ'.head.value = σ.head.value) : g'.head = g.head := by
  cases hE with
  | plain _ _ hh => exact hh
  | link _ hσ _ _ hg =>
    subst hg
    rfl
  | @move p i hσ _ _ hp =>
    subst hσ
    have hm : p = σ.head.value := hm
    have := hI.chain.pos_unique (hm ▸ hp) hI.head
    omega

/-- The values that are taken are those of pending dequeues. -/
theorem Effect.takers_cases (hE : Effect tr u σ g σ' g') (hi : i ∈ g'.takers) :
    i ∈ g.takers ∨ ∃ t, Open (history tr) t i .dequeue := by
  cases hE with
  | plain _ _ _ _ hk => exact hk i hi
  | link _ _ _ _ hg =>
    subst hg
    exact Or.inl hi
  | move _ _ _ _ _ _ hk => exact hk i hi

theorem Effect.keeps (hE : Effect tr u σ g σ' g') (hI : Inv tr σ g) (hI' : Inv tr σ' g')
    (hmono : Mono c.numThreads σ g σ' g')
    (hl : ∀ p, ¬Links p (⟨e, σ, σ'⟩ : Moment (machine α c)))
    (hm : σ'.head.value = σ.head.value) : σ'.queue = σ.queue := by
  have hc : g'.chain = g.chain := by
    refine (hmono.chain.eq_of_length_le ?_).symm
    by_contra hlt
    -- the chain grows by a node that is linked
    have hget := List.getElem?_eq_getElem (not_le.mp hlt)
    rcases hE.chain_cases (e := e) (List.mem_of_getElem? hget) with hp | hp
    · obtain ⟨j, hj⟩ := List.mem_iff_getElem?.mp hp
      have := hI'.chain.pos_unique hget (Chain.getElem?_mono hmono.chain hj)
      have := Chain.lt_length hj
      omega
    · exact hl _ hp
  rw [hI'.queue_eq, hI.queue_eq, hc, hE.stays hI hm]
  refine List.map_congr_left fun p hp => ?_
  exact (hmono.node p (hI.chain.bound p (List.mem_of_mem_drop hp)).2).1

/-- A step keeps the ledger of the run. -/
theorem ledgerStep (hI : Inv tr σ g) (hI' : Inv tr σ' g') (hmono : Mono c.numThreads σ g σ' g')
    (hE : Effect tr u σ g σ' g') (he : e.thread = u)
    (hopens : ∀ {t i op}, Open (history (tr ++ [⟨e, σ, σ'⟩])) t i op →
      Pending (history (tr ++ [⟨e, σ, σ'⟩])) t i op)
    (hnode : ∀ {i p}, Did Makes (tr ++ [⟨e, σ, σ'⟩]) i p → Did Makes tr i p ∨
      p = σ.alloc ∧ σ'.alloc = σ.alloc + 1 ∧ g'.maker p = i ∧ ∀ p', ¬Did Makes tr i p') :
    (linkedQueue α c).LedgerStep tr σ (account σ g) ⟨e, σ, σ'⟩ (account σ' g') where
  before := rfl
  grows := ⟨hmono.chain, hI'.chain.nodup, hmono.takers, hI'.takers_nodup, hmono.head, hmono.alloc,
    fun p hp => (hmono.node p hp).2, fun p hp => (hI.chain.bound p hp).2⟩
  headNode := hI.head
  data p hp := (hmono.node p (hI.chain.bound p hp).2).1
  opens := hopens
  node := hnode
  links := hE.links hI hI'
  chain p hp := hE.chain_cases hp
  moves hm := by
    subst he
    exact hE.moves hI hI' hm
  stays hm := hE.stays hI (not_not.mp hm)
  takers i hi := hE.takers_cases hi
  other hl hm := hE.keeps hI hI' hmono hl (not_not.mp hm)

end Effect

/-! ### The proof outline -/

section Outline

variable {w : World (machine α c) Ghost} {t u id : ℕ} {op : QueueOp α}

def outline (α : Type) [Inhabited α] (c : Params) : Outline (machine α c) Ghost where
  inv w := Inv w.trace w.shared w.ghost ∧
    (linkedQueue α c).Ledger w.trace w.shared (account w.shared w.ghost) ∧
    (linkedQueue α c).Returned w.trace w.shared (account w.shared w.ghost)
  loc t f w :=
    match f with
    | none => Idle (history w.trace) t ∧ (t ≠ kTidNotSet → w.shared.head.aba ≠ t)
    | some f => t < c.numThreads ∧ t ≠ kTidNotSet ∧ Running (history w.trace) t f.id f.op ∧
      Local.Ok t f.id f.op w f.loc
  rely t w w' := Mono c.numThreads w.shared w.ghost w'.shared w'.ghost ∧
    Others t w.trace w.shared w.ghost w'.shared w'.ghost ∧
    Private t w.shared w.ghost w'.ghost

/-- Before any call the chain is the sentinel. -/
def Ghost.init (c : Params) : Ghost :=
  ⟨[1], fun _ => 0, [], 0, fun _ => 0, {d | d < c.numThreads + 1}⟩

theorem init_inv :
    Inv ([] : List (Moment (machine α c))) (Shared.init c) (Ghost.init c) where
  chain := .singleton one_ne_zero Nat.one_lt_two rfl
  head := rfl
  tail := rfl
  head_le := le_rfl
  fresh _ _ := rfl
  enqTid _ _ h := absurd rfl h
  takers := rfl
  takers_nodup := List.nodup_nil
  taker i hi := by cases hi
  stamped h := absurd rfl h
  used _ hd := hd
  phase d _ := ⟨le_rfl, fun h => by cases h⟩
  state t ht := Nat.succ_lt_succ ht
  node t _ h := by cases h
  records t := by
    have hcur : toUnsigned (-1 + 1) % c.numThreads = 0 := Nat.zero_mod _
    refine ⟨?_, rfl⟩
    show ((toUnsigned (-1 + 1) % c.numThreads : ℕ) : ℤ) = 0
    rw [hcur]
    rfl

theorem init_ledger : (linkedQueue α c).Ledger [] (Shared.init c)
    (account (Shared.init c : Shared α) (Ghost.init c)) :=
  .nil (List.nodup_singleton 1) List.nodup_nil rfl

/-! ### Invocations -/

theorem invoke_step (op : QueueOp α) (hI : Inv w.trace w.shared w.ghost)
    (hL : (linkedQueue α c).Ledger w.trace w.shared (account w.shared w.ghost))
    (hi : Idle (history w.trace) t) :
    (linkedQueue α c).LedgerStep w.trace w.shared (account w.shared w.ghost)
      ⟨.inv t op, w.shared, w.shared⟩ (account w.shared w.ghost) := by
  refine ledgerStep hI hI (Mono.refl ..) (Effect.refl _ t _ _) rfl (fun {u i op'} ho => ?_)
    fun hd => Or.inl ((did_call rfl).mp hd)
  rw [history_append, history_singleton] at ho ⊢
  exact pending_of_open_invoke hL.opens hi ho

/-- What a call knows at its first access. -/
theorem invoke_ok (hI : Inv w.trace w.shared w.ghost) (hq : w.shared.head.aba ≠ t) :
    Fresh t w.trace.length op (w.record (.inv t op) w.shared w.ghost) := by
  refine ⟨?_, hq, fun hmem => ?_, fun p hd => not_did_length ((did_call rfl).mp hd)⟩
  · rw [World.record_trace, history_append, history_singleton, ← length_history w.trace,
      List.getElem?_concat_length]
  · obtain ⟨t', ht⟩ := hI.taker _ hmem
    have := (List.getElem?_eq_some_iff.mp ht).choose
    rw [length_history] at this
    exact lt_irrefl _ this

/-! ### Accesses -/

theorem CallKeeps.step {σ : Shared α} {g : Ghost} {e : Event (QueueOp α) (QueueRet α)}
    (hk : CallKeeps t id w σ g) (hI : Inv w.trace w.shared w.ghost)
    (hL : (linkedQueue α c).Ledger w.trace w.shared (account w.shared w.ghost))
    (hr : Running (history w.trace) t id op) (he : e = .tau t ∨ ∃ r, e = .res t r) :
    (linkedQueue α c).LedgerStep w.trace w.shared (account w.shared w.ghost) ⟨e, w.shared, σ⟩
      (account σ g) := by
  refine ledgerStep hI hk.inv hk.mono hk.effect (Event.thread_of_step he) (fun {u i op'} ho => ?_)
    fun {i p} hd => ?_
  · rw [history_append, history_singleton] at ho ⊢
    exact pending_of_open_step hL.opens he ho
  · rcases (did_step hr.1 he).mp hd with hd | ⟨rfl, hm⟩
    · exact Or.inl hd
    · obtain ⟨rfl, x, hσ⟩ := hm
      rcases hk.nodes with ha | ⟨hn, hmaker, ha⟩
      · exact absurd ⟨rfl, x, hσ⟩ (not_makes (e := e) ha _)
      · exact Or.inr ⟨rfl, ha, hmaker, hn⟩

/-- The result of a call that returns. -/
theorem Answer.answered {σ : Shared α} {g : Ghost} {e : Event (QueueOp α) (QueueRet α)}
    {r : QueueRet α} (ha : Answer id (w.record e σ g) op r)
    (hL : (linkedQueue α c).Ledger (w.record e σ g).trace σ (account σ g)) :
    (linkedQueue α c).Answered (w.record e σ g).trace σ (account σ g) id w.trace.length op r := by
  cases op with
  | enqueue x =>
    obtain ⟨rfl, p, hp, hd⟩ := ha
    exact hL.answered_enqueue hp hd
  | dequeue =>
    rcases ha with ⟨rfl, hnot, hs⟩ | ⟨p, rfl, j, hj, hp, hk⟩
    · exact LinkedQueue.answered_none hnot hs
    · exact hL.answered_dequeue hj hp hk

theorem outline_sound : (outline α c).Sound always where
  init := by
    refine ⟨Ghost.init c, ⟨init_inv, init_ledger, LinkedQueue.Returned.nil⟩, fun t => ⟨?_, Ne.symm⟩⟩
    intro i op ho
    cases ho.1
  stable := by
    rintro w e σ g t f ⟨hI, -⟩ - hf he ⟨hm, ho, hp⟩
    have h : Later t w (w.record e σ g) := ⟨⟨hI, hm, List.prefix_append ..⟩, ho⟩
    cases f with
    | none =>
      refine ⟨?_, fun ht => mt (ho.stamp ht) (hf.2 ht)⟩
      rw [World.record_trace, history_append]
      exact hf.1.other he
    | some f =>
      obtain ⟨hn, ht, hrun, hok⟩ := hf
      refine ⟨hn, ht, ?_, hok.later h hp (fun hm p hd => ?_) hn ht⟩
      · rw [World.record_trace, history_append]
        exact hrun.append fun h => absurd h he
      · exact hm p ((did_other hrun.1 he).mp hd)
  call := by
    rintro w t op ⟨hI, hL, hR⟩ ⟨hidle, hq⟩ ha
    obtain ⟨hn, hlt⟩ : t < c.numThreads ∧ t < kTidNotSet := of_decide_eq_true ha
    have hs := invoke_step op hI hL hidle
    refine ⟨w.ghost, ⟨hI.extend fun _ _ h => (by cases h), hL.step hs, hR.step hs fun h => by cases h⟩,
      ⟨hn, hlt.ne, ?_, rfl, invoke_ok hI (hq hlt.ne), trivial⟩,
      fun u hu => ⟨Mono.refl .., Others.refl u .., Private.refl u _ _⟩⟩
    rw [World.record_trace, history_append, history_singleton, ← length_history w.trace]
    exact hidle.invoke op
  run := by
    rintro w t f ch σ o ⟨hI, hL, hR⟩ ⟨hn, ht, hrun, hok⟩ - hs
    have hst : step c t w.shared f.loc = (σ, o) := Option.some.inj hs
    obtain ⟨g, hk, hafter⟩ := step_ok hI hn ht hrun hok
    rw [hst] at hk hafter
    have hstep := hk.step hI hL hrun (Event.ofStep_cases (M := machine α c) t o)
    have hL' := hL.step hstep
    have hothers := fun u hu => And.intro hk.mono (hk.others u hu)
    cases o with
    | inl l =>
      refine ⟨g, ⟨hk.inv.extend fun _ _ h => (by cases h), hL', hR.step hstep fun h => by cases h⟩,
        ⟨hn, ht, ?_, hafter⟩, hothers⟩
      rw [World.record_trace, history_append]
      exact hrun.append fun _ => rfl
    | inr r =>
      obtain ⟨hq, hans⟩ := hafter
      refine ⟨g, ⟨hk.inv.extend fun t' r' h => ?_, hL', hR.step hstep fun {i t' op' r'} h ho => ?_⟩,
        ⟨?_, fun _ => hq⟩, hothers⟩
      · cases h
        exact hq
      · cases h
        obtain rfl := hrun.2 i op' ho
        have hkey := hrun.1.1.symm.trans ho.1
        simp only [Option.some.injEq, Event.inv.injEq] at hkey
        exact hkey.2 ▸ hans.answered hL'
      · rw [World.record_trace, history_append]
        exact idle_return _ t r

end Outline

/-! ### Exactly once -/

section Main

variable {k : Config (machine α c)}

/-- **The wait-free queue applies every operation exactly once, in FIFO order**, on whichever
path. -/
theorem applied_once_anyPath (hk : Reach (machine α c) always k) :
    (linkedQueue α c).AppliedOnce k.trace := by
  obtain ⟨g, ⟨-, hL, hR⟩, -⟩ := outline_sound.reach hk
  exact hL.appliedOnce hR

/-- Thread 0 enqueues `5` on the fast path.  Thread 1 fixes tail and takes the slow path; it is
delayed after it has stamped head.  Thread 0 finishes this dequeue and then finds the queue
empty, and thread 1 gets the value. -/
def stampedAndHelped : List (Action (machine ℕ ⟨2, 1, 0⟩)) :=
  List.flatten [[.call 0 (.enqueue 5)], turns 0 () 8, [.call 1 .dequeue], turns 1 () 34,
    [.call 0 .dequeue], turns 0 () 46, turns 1 () 10]

theorem anyPath_stampedAndHelped : ∃ k : Config (machine ℕ ⟨2, 1, 0⟩),
    (k.events.filter fun e => e matches .res _ _) =
        [.res 0 (.enqueued true), .res 0 (.dequeued none), .res 1 (.dequeued (some 5))] ∧
      (linkedQueue ℕ ⟨2, 1, 0⟩).AppliedOnce k.trace := by
  have h : ∃ k, Reach (machine ℕ ⟨2, 1, 0⟩) always k ∧
      decide ((k.events.filter fun e => e matches .res _ _) =
        [.res 0 (.enqueued true), .res 0 (.dequeued none), .res 1 (.dequeued (some 5))]) = true :=
    Reach.exists_of_any always stampedAndHelped _ (by decide +kernel)
  obtain ⟨k, hk, hp⟩ := h
  exact ⟨k, of_decide_eq_true hp, applied_once_anyPath hk⟩

end Main

end WfQueuePpopp12

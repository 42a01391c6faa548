/-
The wait-free queue applies every operation exactly once, in FIFO order
(`WaitfreeQueue.applied_once`).

What was applied is read off the trace: a node is linked by the step that writes it into a
`next`, and the dequeue that a move of head belongs to is the call of the thread for which
head's node is reserved, whichever thread moves head.

* `linkedQueue` — how this queue is read;
* `Effect.links`, `Effect.moves`, … — what a step does, by the invariant;
* `CallKeeps.step`, `invoke_step` — every step keeps the ledger;
* `outline_sound` — the proof outline of the queue.
-/
import Scal.LinkedQueue
import Scal.WaitfreeQueueCalls

open Interleave Linearizability

namespace WaitfreeQueue

variable {α : Type} [Inhabited α] {n : ℕ}

/-- The step links the node `p`. -/
def Links (p : ℕ) (m : Moment (machine α n)) : Prop :=
  p ≠ 0 ∧ ∃ q, (m.before.node q).next.value ≠ p ∧ (m.after.node q).next.value = p

/-- A move of head belongs to the thread in `deq_tid` of head's node. -/
def linkedQueue (α : Type) [Inhabited α] (n : ℕ) : LinkedQueue (machine α n) where
  queue := Shared.queue
  data σ p := (σ.node p).data
  headNode σ := σ.head.value
  makes := Makes
  links := Links
  taker m := (m.before.node m.before.head.value).deqTid

/-- The nodes, the takers and head's position. -/
def account (σ : Shared α) (g : Ghost) : LinkedQueue.Account :=
  ⟨g.chain, g.takers, g.maker, σ.head.aba, σ.alloc⟩

/-! ### What a step does, read off the step -/

section Effect

variable {tr : List (Moment (machine α n))} {σ σ' : Shared α} {g g' : Ghost} {p c u : ℕ}
  {e : Event (QueueOp α) (QueueRet α)}

theorem Effect.links (hE : Effect tr σ g σ' g')
    (hl : Links p (⟨e, σ, σ'⟩ : Moment (machine α n))) :
    p ∉ g.chain ∧ p ∈ g'.chain ∧ σ'.queue = σ.queue ++ [(σ.node p).data] ∧
      ∃ t i, Did Makes tr i p ∧ Open (history tr) t i (.enqueue (σ.node p).data) := by
  obtain ⟨-, q, hne, heq⟩ := hl
  have hne : (σ.node q).next.value ≠ p := hne
  have heq : (σ'.node q).next.value = p := heq
  cases hE with
  | plain hnext =>
    rw [hnext q] at heq
    exact absurd heq hne
  | @link p' q' t i hz hσ hnot hg hm ho hq =>
    subst hσ hg
    by_cases hqq : q = q'
    · subst hqq
      have : ((σ.setNext q ⟨p', 1⟩).node q).next.value = p' := by simp [Shared.setNext]
      obtain rfl := this.symm.trans heq
      exact ⟨hnot, by simp, hq, t, i, hm.did, ho⟩
    · have : (σ.setNext q' ⟨p', 1⟩).node q = σ.node q := Function.update_of_ne hqq ..
      rw [this] at heq
      exact absurd heq hne
  | move hσ =>
    subst hσ
    exact absurd heq hne

theorem Effect.chain_cases (hE : Effect tr σ g σ' g') (hp : p ∈ g'.chain) :
    p ∈ g.chain ∨ Links p (⟨e, σ, σ'⟩ : Moment (machine α n)) := by
  cases hE with
  | plain _ _ hg => exact Or.inl (hg ▸ hp)
  | @link p' q t i hz hσ hnot hg hm ho hq =>
    subst hσ hg
    refine (List.mem_append.mp hp).imp_right fun hp => ?_
    obtain rfl := List.mem_singleton.mp hp
    refine ⟨hm.ne, q, ?_, ?_⟩
    · show (σ.node q).next.value ≠ p
      rw [hz]
      exact hm.ne.symm
    · show ((σ.setNext q ⟨p, 1⟩).node q).next.value = p
      simp [Shared.setNext]
  | move _ hg => exact Or.inl (hg ▸ hp)

/-- A move of head's node is one to the next position. -/
theorem Effect.moves (hE : Effect tr σ g σ' g') (hI : Inv tr σ g)
    (hm : σ'.head.value ≠ σ.head.value) :
    σ'.head.aba = σ.head.aba + 1 ∧ g' = g ∧ ∃ p c, g.chain[σ.head.aba + 1]? = some p ∧
      g.takers[σ.head.aba]? = some c ∧
      Open (history tr) (σ.node σ.head.value).deqTid c .dequeue ∧
      σ.queue = (σ.node p).data :: σ'.queue := by
  cases hE with
  | plain _ hh => exact absurd (congrArg AtomicValue.value hh) hm
  | link _ hσ =>
    subst hσ
    exact absurd rfl hm
  | @move p t c hσ hg hp hc ho hq =>
    subst hσ
    -- head's node is reserved for the taker's thread
    have hkey := ho.1.symm.trans (hI.taker _ _ _ hI.head hc).2
    simp only [Option.some.injEq, Event.inv.injEq] at hkey
    exact ⟨rfl, hg, p, c, hp, hc, hkey.1 ▸ ho, hq⟩

theorem Effect.stays (hE : Effect tr σ g σ' g') (hI : Inv tr σ g)
    (hm : σ'.head.value = σ.head.value) : σ'.head = σ.head := by
  cases hE with
  | plain _ hh => exact hh
  | link _ hσ =>
    subst hσ
    rfl
  | @move p t c hσ hg hp hc ho hq =>
    subst hσ
    have hm : p = σ.head.value := hm
    have := hI.chain.pos_unique (hm ▸ hp) hI.head
    omega

/-- The values that are taken are those of pending dequeues. -/
theorem Effect.takers_cases (hE : Effect tr σ g σ' g') (hc : c ∈ g'.takers) :
    c ∈ g.takers ∨ ∃ t, Open (history tr) t c .dequeue := by
  cases hE with
  | plain _ _ _ hk => exact hk c hc
  | link _ _ _ hg =>
    subst hg
    exact Or.inl hc
  | move _ hg =>
    subst hg
    exact Or.inl hc

theorem Effect.keeps (hE : Effect tr σ g σ' g') (hI : Inv tr σ g) (hI' : Inv tr σ' g')
    (hr : Rely n u σ g σ' g') (hl : ∀ p, ¬Links p (⟨e, σ, σ'⟩ : Moment (machine α n)))
    (hm : σ'.head.value = σ.head.value) : σ'.queue = σ.queue := by
  have hc : g'.chain = g.chain := by
    refine (hr.chain.eq_of_length_le ?_).symm
    by_contra hlt
    -- the chain grows by a node that is linked
    have hget := List.getElem?_eq_getElem (not_le.mp hlt)
    rcases hE.chain_cases (e := e) (List.mem_of_getElem? hget) with hp | hp
    · obtain ⟨j, hj⟩ := List.mem_iff_getElem?.mp hp
      have := hI'.chain.pos_unique hget (Chain.getElem?_mono hr.chain hj)
      have := Chain.lt_length hj
      omega
    · exact hl _ hp
  rw [hI'.queue_eq, hI.queue_eq, hc, hE.stays hI hm]
  refine List.map_congr_left fun p hp => ?_
  exact (hr.node p (hI.chain.bound p (List.mem_of_mem_drop hp)).2).1

/-- A step keeps the ledger of the run. -/
theorem ledgerStep (hI : Inv tr σ g) (hI' : Inv tr σ' g') (hr : Rely n u σ g σ' g')
    (hE : Effect tr σ g σ' g')
    (hopens : ∀ {t i op}, Open (history (tr ++ [⟨e, σ, σ'⟩])) t i op →
      Pending (history (tr ++ [⟨e, σ, σ'⟩])) t i op)
    (hnode : ∀ {i p}, Did Makes (tr ++ [⟨e, σ, σ'⟩]) i p → Did Makes tr i p ∨
      p = σ.alloc ∧ σ'.alloc = σ.alloc + 1 ∧ g'.maker p = i ∧ ∀ p', ¬Did Makes tr i p') :
    (linkedQueue α n).LedgerStep tr σ (account σ g) ⟨e, σ, σ'⟩ (account σ' g') where
  before := rfl
  grows := ⟨hr.chain, hI'.chain.nodup, hr.takers, hI'.takers_nodup, hr.head, hr.alloc,
    fun p hp => (hr.node p hp).2.2, fun p hp => (hI.chain.bound p hp).2⟩
  headNode := hI.head
  data p hp := (hr.node p (hI.chain.bound p hp).2).1
  opens := hopens
  node := hnode
  links := hE.links
  chain p hp := hE.chain_cases hp
  moves hm := by
    obtain ⟨ha, rfl, h⟩ := hE.moves hI hm
    exact ⟨ha, h⟩
  stays hm := congrArg AtomicValue.aba (hE.stays hI (not_not.mp hm))
  takers i hi := hE.takers_cases hi
  other hl hm := hE.keeps hI hI' hr hl (not_not.mp hm)

end Effect

/-! ### The proof outline -/

section Outline

variable {w : World (machine α n) Ghost} {t u id : ℕ} {op : QueueOp α}

def outline (α : Type) [Inhabited α] (n : ℕ) : Outline (machine α n) Ghost where
  inv w := Inv w.trace w.shared w.ghost ∧
    (linkedQueue α n).Ledger w.trace w.shared (account w.shared w.ghost) ∧
    (linkedQueue α n).Returned w.trace w.shared (account w.shared w.ghost)
  loc t f w :=
    match f with
    | none => Idle (history w.trace) t ∧ (t < n → t ≠ kTidNotSet → Quiet t w)
    | some f => t < n ∧ t ≠ kTidNotSet ∧ Running (history w.trace) t f.id f.op ∧
      Local.Ok t f.id f.op w f.loc
  rely t w w' := Rely n t w.shared w.ghost w'.shared w'.ghost ∧
    Private t w.shared w.ghost w'.ghost

/-- Before any call the chain is the sentinel, and no descriptor belongs to a call. -/
def Ghost.init (n : ℕ) : Ghost :=
  ⟨[1], fun _ => 0, [], fun _ => 0, {d | d < n + 1}, fun _ => none, fun _ => 0, fun _ _ => kNoPhase⟩

theorem init_inv :
    Inv ([] : List (Moment (machine α n))) (Shared.init n) (Ghost.init n) where
  chain := .singleton one_ne_zero Nat.one_lt_two rfl
  head := rfl
  tail := rfl
  head_le := le_rfl
  lag := Nat.le_succ 1
  fresh _ _ := ⟨rfl, rfl⟩
  made q p h := by cases h
  last p h := by cases h
  le_takers := le_rfl
  takers_le := Nat.zero_le _
  takers_nodup := List.nodup_nil
  deqTid _ _ _ := ⟨fun _ => Nat.zero_le _, fun _ => rfl⟩
  taker j p c _ h := by cases h
  reserved c h := by cases h
  tid c t op h := by cases h
  used d hd := hd
  state t ht := Nat.succ_lt_succ ht
  desc t _ := .initial rfl
  running t _ h := by cases h
  start t v _ := le_rfl

theorem init_ledger : (linkedQueue α n).Ledger [] (Shared.init n)
    (account (Shared.init n : Shared α) (Ghost.init n)) :=
  .nil (List.nodup_singleton 1) List.nodup_nil rfl

theorem init_quiet (ht : t ≠ kTidNotSet) :
    Quiet t (⟨Shared.init n, [], Ghost.init n⟩ : World (machine α n) Ghost) where
  done := rfl
  passed q p h _ := by
    have h : [1][q]? = some p := h
    rw [List.getElem?_singleton] at h
    split_ifs at h with h0
    omega
  took j p _ h := absurd h.symm ht

/-! ### Invocations -/

/-- The call `id` of thread `t` begins. -/
def Ghost.invoke (g : Ghost) (σ : Shared α) (t id : ℕ) : Ghost :=
  { g with
    running := Function.update g.running t id
    start := Function.update g.start t fun v => (σ.descOf v).phase }

omit [Inhabited α] in
theorem Ghost.invoke_start {g : Ghost} {σ : Shared α} {v : ℕ} :
    (g.invoke σ t id).start t v = (σ.descOf v).phase := by
  show Function.update g.start t (fun v => (σ.descOf v).phase) t v = _
  rw [Function.update_self]

theorem invoke_rely (hu : u ≠ t) :
    Rely n u w.shared w.ghost w.shared (w.ghost.invoke w.shared t id) :=
  { Rely.refl n u w.shared w.ghost with
    grow := fun _ _ h => Or.inl h
    taken := fun _ h => Or.inl h
    state := fun _ _ => .same rfl rfl rfl
    calls := fun v => by
      by_cases hv : v = t
      · subst hv
        exact Or.inr fun _ => Ghost.invoke_start
      · exact Or.inl ⟨Function.update_of_ne hv .., Function.update_of_ne hv ..⟩
    running := ⟨Function.update_of_ne hu .., Function.update_of_ne hu ..⟩ }

theorem invoke_inv (hI : Inv w.trace w.shared w.ghost) (hq : Quiet t w) :
    Inv w.trace w.shared (w.ghost.invoke w.shared t id) := by
  refine hI.alloc { allocs_refl hI with ghost := ⟨rfl, rfl, rfl, rfl⟩ } (fun v _ hp => ?_)
    fun u v hv => ?_
  · refine Function.update_of_ne ?_ ..
    rintro rfl
    rw [hq.done] at hp
    cases hp
  · by_cases hu : u = t
    · subst hu
      exact Ghost.invoke_start.le
    · have : (w.ghost.invoke w.shared t id).start u = w.ghost.start u :=
        Function.update_of_ne hu ..
      rw [this]
      exact hI.start u v hv

theorem invoke_step (op : QueueOp α) (id : ℕ) (hI : Inv w.trace w.shared w.ghost)
    (hL : (linkedQueue α n).Ledger w.trace w.shared (account w.shared w.ghost))
    (hq : Quiet t w) (hi : Idle (history w.trace) t) :
    (linkedQueue α n).LedgerStep w.trace w.shared (account w.shared w.ghost)
      ⟨.inv t op, w.shared, w.shared⟩ (account w.shared (w.ghost.invoke w.shared t id)) := by
  refine ledgerStep hI (invoke_inv hI hq) (invoke_rely (Nat.succ_ne_self t))
    (.plain (fun _ => rfl) rfl rfl fun _ h => Or.inl h) (fun {u i op'} ho => ?_)
    fun hd => Or.inl ((did_call rfl).mp hd)
  rw [history_append, history_singleton] at ho ⊢
  exact pending_of_open_invoke hL.opens hi ho

/-- What a call knows at its first access. -/
theorem invoke_ok (hI : Inv w.trace w.shared w.ghost) (ht : t < n) (hq : Quiet t w) :
    (maxFrom n op 0 kNoPhase).Ok t w.trace.length op
      (w.record (.inv t op) w.shared (w.ghost.invoke w.shared t w.trace.length)) := by
  have hcall : (history (w.trace ++ [⟨.inv t op, w.shared, w.shared⟩]))[w.trace.length]? =
      some (.inv t op) := by
    rw [history_append, history_singleton, ← length_history w.trace, List.getElem?_concat_length]
  have hlt : ∀ {c : ℕ} {e : Event (QueueOp α) (QueueRet α)}, (history w.trace)[c]? = some e →
      c < w.trace.length := fun h => by
    rw [← length_history w.trace]
    exact (List.getElem?_eq_some_iff.mp h).choose
  refine maxFrom_ok ⟨⟨hq.done, hq.passed, hq.took⟩, ⟨op, hcall⟩, Function.update_self ..,
    fun hcur => ?_, fun hmem => ?_, Ghost.invoke_start⟩ (fun p hd => ?_)
    fun v _ hv => absurd hv (Nat.not_lt_zero _)
  · obtain ⟨op', hop⟩ := (hI.desc t ht).call hcur
    exact lt_irrefl _ (hlt hop)
  · obtain ⟨j, hj⟩ := List.mem_iff_getElem?.mp hmem
    have hj : w.ghost.takers[j]? = some w.trace.length := hj
    have hle := hI.takers_le
    have hhead := hI.head_lt
    have hjlt := Chain.lt_length hj
    have hget : j < w.ghost.chain.length := by omega
    exact lt_irrefl _ (hlt (hI.taker j _ _ (List.getElem?_eq_getElem hget) hj).2)
  · exact not_did_length ((did_call rfl).mp hd)

/-! ### Accesses -/

theorem CallKeeps.step {σ : Shared α} {g : Ghost} {e : Event (QueueOp α) (QueueRet α)}
    (hk : CallKeeps t id w σ g) (hI : Inv w.trace w.shared w.ghost)
    (hL : (linkedQueue α n).Ledger w.trace w.shared (account w.shared w.ghost))
    (hr : Running (history w.trace) t id op) (he : e = .tau t ∨ ∃ r, e = .res t r) :
    (linkedQueue α n).LedgerStep w.trace w.shared (account w.shared w.ghost) ⟨e, w.shared, σ⟩
      (account σ g) := by
  refine ledgerStep hI hk.inv (hk.rely _ (Nat.succ_ne_self t)) hk.effect (fun {u i op'} ho => ?_)
    fun {i p} hd => ?_
  · rw [history_append, history_singleton] at ho ⊢
    exact pending_of_open_step hL.opens he ho
  · rcases (did_step hr.1 he).mp hd with hd | ⟨rfl, hm⟩
    · exact Or.inl hd
    · obtain ⟨rfl, x, v, hσ⟩ := hm
      rcases hk.nodes with ha | ⟨hn, hmaker, ha⟩
      · exact absurd ⟨rfl, x, v, hσ⟩ (not_makes (e := e) ha _)
      · exact Or.inr ⟨rfl, ha, hmaker, hn⟩

/-- The result of a call that returns. -/
theorem Answer.answered {σ : Shared α} {g : Ghost} {e : Event (QueueOp α) (QueueRet α)}
    {r : QueueRet α} (ha : Answer id (w.record e σ g) op r)
    (hL : (linkedQueue α n).Ledger (w.record e σ g).trace σ (account σ g)) :
    (linkedQueue α n).Answered (w.record e σ g).trace σ (account σ g) id w.trace.length op r := by
  cases op with
  | enqueue x =>
    obtain ⟨rfl, p, hp, hd⟩ := ha
    exact hL.answered_enqueue hp hd
  | dequeue =>
    rcases ha with ⟨rfl, hnot, hs⟩ | ⟨p, rfl, j, hj, hp, hk⟩
    · exact LinkedQueue.answered_none hnot hs
    · exact hL.answered_dequeue hj hp hk

theorem outline_sound : (outline α n).Sound always where
  init := by
    refine ⟨Ghost.init n, ⟨init_inv, init_ledger, LinkedQueue.Returned.nil⟩, fun t => ⟨?_, fun _ => init_quiet⟩⟩
    intro i op ho
    cases ho.1
  stable := by
    rintro w e σ g t f ⟨hI, -⟩ - hf he ⟨hr, hp⟩
    have h : Later t w (w.record e σ g) := .of_rely hI hr
    cases f with
    | none =>
      refine ⟨?_, fun hn ht => (hf.2 hn ht).later h hn ht⟩
      rw [World.record_trace, history_append]
      exact hf.1.other he
    | some f =>
      obtain ⟨hn, ht, hrun, hok⟩ := hf
      refine ⟨hn, ht, ?_, Local.Ok.later hok h hp (fun hm p hd => ?_) hn ht⟩
      · rw [World.record_trace, history_append]
        exact hrun.append fun h => absurd h he
      · exact hm p ((did_other hrun.1 he).mp hd)
  call := by
    rintro w t op ⟨hI, hL, hR⟩ ⟨hidle, hq⟩ ha
    obtain ⟨hn, ht⟩ : t < n ∧ t ≠ kTidNotSet := of_decide_eq_true ha
    have hq := hq hn ht
    have hs := invoke_step op w.trace.length hI hL hq hidle
    refine ⟨_, ⟨(invoke_inv hI hq).extend (fun _ _ h => by cases h) fun t' op' h => ?_, hL.step hs,
      hR.step hs fun h => by cases h⟩, ⟨hn, ht, ?_, invoke_ok hI hn hq⟩,
      fun u hu => ⟨invoke_rely hu, fun _ _ ho hd => ⟨ho, hd⟩⟩⟩
    · cases h
      exact ht
    · rw [World.record_trace, history_append, history_singleton, ← length_history w.trace]
      exact hidle.invoke op
  run := by
    rintro w t f ch σ o ⟨hI, hL, hR⟩ ⟨hn, ht, hrun, hok⟩ - hs
    have hst : step n t w.shared f.loc = (σ, o) := Option.some.inj hs
    obtain ⟨g, hk, hafter⟩ := step_ok hI hn ht hrun hok
    rw [hst] at hk hafter
    have he := Event.ofStep_cases (M := machine α n) t o
    have hstep := hk.step hI hL hrun he
    have hL' := hL.step hstep
    cases o with
    | inl l =>
      refine ⟨g, ⟨hk.inv.extend (fun _ _ h => by cases h) fun _ _ h => (by cases h), hL',
        hR.step hstep fun h => by cases h⟩, ⟨hn, ht, ?_, hafter⟩,
        fun u hu => ⟨hk.rely u hu, hk.others u hu⟩⟩
      rw [World.record_trace, history_append]
      exact hrun.append fun _ => rfl
    | inr r =>
      obtain ⟨hq, -, hans⟩ := hafter
      refine ⟨g, ⟨hk.inv.extend (fun t' r' h => ?_) fun _ _ h => (by cases h), hL',
        hR.step hstep fun {i t' op' r'} h ho => ?_⟩, ⟨?_, fun _ _ => hq⟩,
        fun u hu => ⟨hk.rely u hu, hk.others u hu⟩⟩
      · cases h
        exact ⟨hq.done, fun c _ hd => lt_irrefl _ (hq.took _ _ hk.inv.head hd)⟩
      · cases h
        obtain rfl := hrun.2 i op' ho
        have hkey := hrun.1.1.symm.trans ho.1
        simp only [Option.some.injEq, Event.inv.injEq] at hkey
        exact hkey.2 ▸ hans.answered hL'
      · rw [World.record_trace, history_append]
        exact idle_return _ t r

end Outline

/-! ### Exactly once -/

section Main

variable {c : Config (machine α n)}

/-- **The wait-free queue applies every operation exactly once, in FIFO order.** -/
theorem applied_once (hc : Reach (machine α n) always c) :
    (linkedQueue α n).AppliedOnce c.trace := by
  obtain ⟨g, ⟨-, hL, hR⟩, -⟩ := outline_sound.reach hc
  exact hL.appliedOnce hR

/-- Thread 0 publishes the enqueue of `5` and is delayed.  Thread 1 carries it out as it
dequeues, and gets the value. -/
def helpedByOther : List (Action (machine ℕ 2)) :=
  List.flatten [[.call 0 (.enqueue 5)], turns 0 () 8, [.call 1 .dequeue], turns 1 () 82]

theorem applied_once_helpedByOther : ∃ c : Config (machine ℕ 2),
    (c.events.filter fun e => e matches .res _ _) = [.res 1 (.dequeued (some 5))] ∧
      (linkedQueue ℕ 2).AppliedOnce c.trace := by
  have h : ∃ c, Reach (machine ℕ 2) always c ∧
      decide ((c.events.filter fun e => e matches .res _ _) = [.res 1 (.dequeued (some 5))]) =
        true := Reach.exists_of_any always helpedByOther _ (by decide +kernel)
  obtain ⟨c, hc, hp⟩ := h
  exact ⟨c, of_decide_eq_true hp, applied_once hc⟩

end Main

end WaitfreeQueue

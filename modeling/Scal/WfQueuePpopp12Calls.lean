/-
Every access of a call of the wait-free queue with a fast path keeps the invariant.

* `HelpIfNeeded.step_ok` — no call helps another one: a record keeps the phase that descriptors
  have before the first slow call, and those are not pending;
* `Fresh` — a call before it allocates a node or reads head;
* `Local.Ok` — what a call knows at each access;
* `Answer` — what the result of a call says about the chain and the takers;
* `step_ok` — every access of a call.
-/
import Scal.WfQueuePpopp12Paths

open Interleave Linearizability
open Helping (HelpRecord toSigned)

namespace WfQueuePpopp12

variable {α : Type} [Inhabited α] {c : Params} {w w' : World (machine α c) Ghost} {u id d nd : ℕ}
  {op : QueueOp α}

/-! ### `help_if_needed` -/

section HelpIfNeeded

variable {s : HelpIfNeeded}

def HelpIfNeeded.Ok (w : World (machine α c) Ghost) : HelpIfNeeded → Prop
  | .doNextCheck => True
  | .loadState => True
  | .loadPending d => d ∈ w.ghost.used
  | .loadPhase d => d ∈ w.ghost.used ∧ (w.shared.desc d).pending = true
  | .loadType _ => False
  | .enq _ _ _ => False
  | .deq _ _ _ => False

theorem HelpIfNeeded.Ok.next (hs : s.Ok w) (h : Next w w') : s.Ok w' := by
  cases s with
  | doNextCheck => trivial
  | loadState => trivial
  | loadPending d => exact h.used hs
  | loadPhase d =>
    refine ⟨h.used hs.1, ?_⟩
    rw [h.desc hs.1]
    exact hs.2
  | loadType d => exact hs
  | enq tid ph s => exact hs
  | deq tid ph s => exact hs

/-- What is known after an access of `help_if_needed`. -/
def HelpIfNeeded.After (w : World (machine α c) Ghost) : Option HelpIfNeeded → Prop
  | some s => s.Ok w
  | none => True

theorem HelpIfNeeded.step_ok (hI : Inv w.trace w.shared w.ghost) (hu : u < c.numThreads)
    (hs : s.Ok w) :
    StepOk u w (s.step u w.shared).1
      fun w' => Later u w w' ∧ HelpIfNeeded.After w' (s.step u w.shared).2 := by
  -- an access that only reads
  have hgo : ∀ s' : HelpIfNeeded, s'.Ok w →
      StepOk u w w.shared fun w' => Later u w w' ∧ HelpIfNeeded.After w' (some s') := fun s' hs' =>
    .read hI fun w' h _ => ⟨h, hs'.next h.toNext⟩
  have hreturn : StepOk u w w.shared fun w' => Later u w w' ∧ HelpIfNeeded.After w' none :=
    .read hI fun w' h _ => ⟨h, trivial⟩
  cases s with
  | doNextCheck =>
    have ha := allocates_doNextCheck w.shared w.ghost u
    have hk : Keeps u w.trace w.shared w.ghost _ w.ghost := ha.keeps hI fun _ _ _ _ _ _ => rfl
    refine ⟨_, hk, rfl, fun e => ⟨.of_keeps hI hk (ha.others fun _ _ _ _ => rfl), ?_⟩⟩
    simp only [HelpIfNeeded.step]
    split_ifs
    · trivial
    · trivial
  | loadState =>
    refine hgo _ (hI.state _ ?_)
    rw [HelpRecord.curThread, (hI.records u).1]
    exact Nat.zero_lt_of_lt hu
  | loadPending d =>
    simp only [HelpIfNeeded.step]
    split_ifs with hp
    · exact hgo _ ⟨hs, hp⟩
    · exact hreturn
  | loadPhase d =>
    obtain ⟨hd, hp⟩ := hs
    -- a pending descriptor has a phase
    have hph := (hI.phase d hd).2 hp
    have hlast : toSigned (w.shared.records u).lastPhase = -1 := by
      rw [(hI.records u).2]
      decide
    simp only [HelpIfNeeded.step]
    rw [if_neg (by omega)]
    exact hreturn
  | loadType d => exact hs.elim
  | enq tid ph s => exact hs.elim
  | deq tid ph s => exact hs.elim

end HelpIfNeeded

/-! ### Assertions -/

section LocalOk

variable {l : Local α}

/-- The call `id` has allocated no node. -/
def Unmade (id : ℕ) (w : World (machine α c) Ghost) : Prop := ∀ p, ¬Did Makes w.trace id p

/-- The call `id` of thread `u` has done nothing yet. -/
structure Fresh (u id : ℕ) (op : QueueOp α) (w : World (machine α c) Ghost) : Prop where
  call : (history w.trace)[id]? = some (.inv u op)
  quiet : w.shared.head.aba ≠ u
  free : id ∉ w.ghost.takers
  unmade : Unmade id w

theorem Fresh.later (hf : Fresh u id op w) (h : Later u w w') (ht : u ≠ kTidNotSet)
    (hmade : Unmade id w → Unmade id w') : Fresh u id op w' :=
  ⟨h.toNext.call hf.call, mt (h.others.stamp ht) hf.quiet,
    mt (h.others.taken id _ hf.call) hf.free, hmade hf.unmade⟩

/-- What the call `id` of thread `u` knows at each access. -/
def Local.Ok (u id : ℕ) (op : QueueOp α) (w : World (machine α c) Ghost) : Local α → Prop
  | .helpIfNeeded op' s => op' = op ∧ Fresh u id op w ∧ s.Ok w
  | .initNode item => op = .enqueue item ∧ Fresh u id op w
  | .fastEnq nd _ s => ∃ x, op = .enqueue x ∧ s.Ok u id x nd w
  | .wfEnq nd s => ∃ x, op = .enqueue x ∧ s.Ok u id x nd w
  | .fastDeq _ s => op = .dequeue ∧ s.Ok u id w
  | .wfDeq s => op = .dequeue ∧ s.Ok u id w

theorem Local.Ok.later (hl : l.Ok u id op w) (h : Later u w w')
    (hp : Private u w.shared w.ghost w'.ghost) (hmade : Unmade id w → Unmade id w')
    (hu : u < c.numThreads) (ht : u ≠ kTidNotSet) : l.Ok u id op w' := by
  cases l with
  | helpIfNeeded op' s => exact ⟨hl.1, hl.2.1.later h ht hmade, hl.2.2.next h.toNext⟩
  | initNode item => exact ⟨hl.1, hl.2.later h ht hmade⟩
  | fastEnq nd trials s =>
    obtain ⟨x, hx, hs⟩ := hl
    exact ⟨x, hx, hs.later h hp ht⟩
  | wfEnq nd s =>
    obtain ⟨x, hx, hs⟩ := hl
    exact ⟨x, hx, hs.later h hp hu ht⟩
  | fastDeq trials s => exact ⟨hl.1, hl.2.later h hp ht⟩
  | wfDeq s => exact ⟨hl.1, hl.2.later h hp hu ht⟩

theorem enqFrom_ok {x : α} {maxRetries trials : ℕ} (hr : Ready u id x nd w) :
    (enqFrom maxRetries nd trials).Ok u id (.enqueue x) w := by
  rw [enqFrom]
  split_ifs
  · exact ⟨x, rfl, hr⟩
  · exact ⟨x, rfl, hr⟩

theorem deqFrom_ok {maxRetries trials : ℕ} (hf : Free u id w) :
    (deqFrom maxRetries trials : Local α).Ok u id .dequeue w := by
  rw [deqFrom]
  split_ifs
  · exact ⟨rfl, hf⟩
  · exact ⟨rfl, hf⟩

theorem afterHelp_ok {maxRetries : ℕ} (hf : Fresh u id op w) :
    (afterHelp maxRetries op).Ok u id op w := by
  cases op with
  | enqueue x => exact ⟨rfl, hf⟩
  | dequeue => exact deqFrom_ok ⟨hf.call, hf.quiet, hf.free⟩

end LocalOk

/-! ### One access -/

section Step

variable {l : Local α} {σ : Shared α} {g : Ghost} {o : Local α ⊕ QueueRet α}
  {e : Event (QueueOp α) (QueueRet α)}

/-- What the result of the call `id` says. -/
def Answer (id : ℕ) (w : World (machine α c) Ghost) : QueueOp α → QueueRet α → Prop
  | .enqueue _, r => r = .enqueued true ∧ ∃ p ∈ w.ghost.chain, Did Makes w.trace id p
  | .dequeue, r => Dequeued id w r

/-- What is known after an access. -/
def After (u id : ℕ) (op : QueueOp α) (w : World (machine α c) Ghost) :
    Local α ⊕ QueueRet α → Prop
  | .inl l => l.Ok u id op w
  | .inr r => w.shared.head.aba ≠ u ∧ Answer id w op r

/-- What is to be shown of the memory and the ghost after an access of the call `id`. -/
structure CallKeeps (u id : ℕ) (w : World (machine α c) Ghost) (σ : Shared α) (g : Ghost) : Prop
    extends Keeps u w.trace w.shared w.ghost σ g where
  nodes : σ.alloc = w.shared.alloc ∨
    Unmade id w ∧ g.maker w.shared.alloc = id ∧ σ.alloc = w.shared.alloc + 1

def CallOk (u id : ℕ) (op : QueueOp α) (w : World (machine α c) Ghost)
    (p : Shared α × (Local α ⊕ QueueRet α)) : Prop :=
  ∃ g, CallKeeps u id w p.1 g ∧
    After u id op (w.record (Event.ofStep (M := machine α c) u p.2) p.1 g) p.2

theorem not_makes (h : σ.alloc = w.shared.alloc) (p : ℕ) :
    ¬Makes p (⟨e, w.shared, σ⟩ : Moment (machine α c)) := by
  rintro ⟨-, x, hσ⟩
  have : σ.alloc = w.shared.alloc + 1 := congrArg Shared.alloc hσ
  omega

/-- An access in one of the functions. -/
theorem StepOk.call {Q : World (machine α c) Ghost → Prop} (hs : StepOk u w σ Q)
    (hr : Running (history w.trace) u id op)
    (hQ : ∀ w', (Unmade id w → Unmade id w') → Q w' → After u id op w' o) :
    CallOk u id op w (σ, o) := by
  obtain ⟨g, hk, ha, hq⟩ := hs
  refine ⟨g, ⟨hk, Or.inl ha⟩, hQ _ (fun hm p hd => ?_) (hq _)⟩
  rw [World.record_trace] at hd
  rcases (did_step hr.1 (Event.ofStep_cases (M := machine α c) u o)).mp hd with hd | ⟨-, hd⟩
  · exact hm p hd
  · exact not_makes ha p hd

/-- The node of an enqueue is allocated. -/
theorem Fresh.newNode_ok {x : α} {maxRetries : ℕ} (hI : Inv w.trace w.shared w.ghost)
    (hf : Fresh u id (.enqueue x) w) (hr : Running (history w.trace) u id (.enqueue x)) :
    CallOk u id (.enqueue x) w
      (w.shared.newNode x, .inl (enqFrom maxRetries w.shared.alloc 0)) := by
  have ha := hI.newNode x id
  have hk : Keeps u w.trace w.shared w.ghost _ _ := ha.keeps hI fun v _ p hp _ _ => by
    simp [Shared.newNode, Function.update_of_ne hp.ne]
  have hnot : w.shared.alloc ∉ w.ghost.chain := fun h => lt_irrefl _ (hI.chain.bound _ h).2
  have hnode : (w.shared.newNode x).node w.shared.alloc = ⟨x, ⟨0, 0⟩, kTidNotSet⟩ :=
    Function.update_self ..
  refine ⟨_, ⟨hk, Or.inr ⟨hf.unmade, Function.update_self .., rfl⟩⟩, enqFrom_ok ⟨⟨?_,
    Nat.lt_succ_self _, ?_, Function.update_self .., (Next.of_keeps hI hk).call hf.call, ?_⟩, hnot,
    fun h => absurd ?_ h, hf.quiet⟩⟩
  · have := hI.lt_alloc hI.head
    omega
  · rw [World.record_shared, hnode]
  · exact (did_step hr.1 (Or.inl rfl)).mpr (Or.inr ⟨rfl, rfl, x, rfl⟩)
  · rw [World.record_shared, hnode]

theorem Linked.answer {x : α} (hl : Linked u id x nd w) :
    After u id (.enqueue x) w (.inr (.enqueued true)) :=
  ⟨hl.quiet, rfl, nd, hl.linked, hl.did⟩

/-- Every access of a call. -/
theorem step_ok (hI : Inv w.trace w.shared w.ghost) (hu : u < c.numThreads) (ht : u ≠ kTidNotSet)
    (hr : Running (history w.trace) u id op) (hl : l.Ok u id op w) :
    CallOk u id op w (step c u w.shared l) := by
  cases l with
  | helpIfNeeded op' s =>
    obtain ⟨rfl, hf, hs⟩ := hl
    refine (HelpIfNeeded.step_ok hI hu hs).call hr fun w' hmade hq => ?_
    have hf' := hf.later hq.1 ht hmade
    cases hst : (s.step u w.shared).2 with
    | some s' =>
      rw [hst] at hq
      exact ⟨rfl, hf', hq.2⟩
    | none => exact afterHelp_ok hf'
  | initNode item =>
    obtain ⟨rfl, hf⟩ := hl
    exact hf.newNode_ok hI hr
  | fastEnq nd trials s =>
    obtain ⟨x, rfl, hs⟩ := hl
    have hstep := FastEnq.step_ok hI ht hr.1.open hs
    rcases hst : s.step w.shared nd with ⟨σ, s' | b⟩
    · rw [hst] at hstep
      simp only [step, hst]
      exact hstep.call hr fun w' _ hq => ⟨x, rfl, hq⟩
    · rw [hst] at hstep
      cases b with
      | true =>
        simp only [step, hst]
        exact hstep.call hr fun w' _ hq => Linked.answer hq
      | false =>
        simp only [step, hst]
        exact hstep.call hr fun w' _ hq => enqFrom_ok hq
  | wfEnq nd s =>
    obtain ⟨x, rfl, hs⟩ := hl
    have hstep := WfEnq.step_ok hI hu ht hr.1.open hs
    rcases hst : s.step u w.shared nd with ⟨σ, _ | s'⟩
    · rw [hst] at hstep
      simp only [step, hst]
      exact hstep.call hr fun w' _ hq => Linked.answer hq
    · rw [hst] at hstep
      simp only [step, hst]
      exact hstep.call hr fun w' _ hq => ⟨x, rfl, hq⟩
  | fastDeq trials s =>
    obtain ⟨rfl, hs⟩ := hl
    have hstep := FastDeq.step_ok hI ht hr.1.open hs
    rcases hst : s.step w.shared with ⟨σ, s' | _ | r⟩
    · rw [hst] at hstep
      simp only [step, hst]
      exact hstep.call hr fun w' _ hq => ⟨rfl, hq⟩
    · rw [hst] at hstep
      simp only [step, hst]
      exact hstep.call hr fun w' _ hq => deqFrom_ok hq
    · rw [hst] at hstep
      simp only [step, hst]
      exact hstep.call hr fun w' _ hq => hq
  | wfDeq s =>
    obtain ⟨rfl, hs⟩ := hl
    refine (WfDeq.step_ok hI hu ht hr hs).call hr fun w' _ hq => ?_
    cases hst : (s.step u w.shared).2 with
    | inl s' =>
      rw [hst] at hq
      exact ⟨rfl, hq⟩
    | inr r =>
      rw [hst] at hq
      exact hq

end Step

end WfQueuePpopp12

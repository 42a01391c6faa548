/-
Every access of a call of the wait-free queue keeps the invariant.

Between two calls, and until the next descriptor is published, a thread is `Quiet`: no other
thread still works for it, so that its descriptor may be replaced.

* `Fresh`, `Mine` — the call before and after its descriptor is published;
* `Local.Ok` — what a call knows at each access;
* `Answer` — what the result of a call says about the chain and the takers;
* `step_ok` — every access of a call.
-/
import Scal.WaitfreeQueueSteps

open Interleave Linearizability

namespace WaitfreeQueue

variable {α : Type} [Inhabited α] {n : ℕ} {w w' : World (machine α n) Ghost} {u t id c p d i : ℕ}
  {ph : ℤ} {op : QueueOp α}

/-! ### Before the descriptor is published -/

section Fresh

theorem Later.call {e : Event (QueueOp α) (QueueRet α)} (h : Later u w w')
    (hc : (history w.trace)[c]? = some e) : (history w'.trace)[c]? = some e := by
  obtain ⟨tr, htr⟩ := h.trace
  rw [← htr, history_append, getElem?_append_of_lt (List.getElem?_eq_some_iff.mp hc).choose]
  exact hc

theorem Made.later (hm : Made w.trace w.shared w.ghost t c p) (h : Later u w w') :
    Made w'.trace w'.shared w'.ghost t c p := by
  obtain ⟨hdata, htid, hmaker⟩ := h.rely.node p hm.lt
  obtain ⟨tr, htr⟩ := h.trace
  refine ⟨hm.ne, hm.lt.trans_le h.rely.alloc, htid.trans hm.tid, hmaker.trans hm.maker, ?_, ?_⟩
  · rw [hdata]
    exact h.call hm.call
  · rw [← htr]
    exact hm.did.append

/-- No thread works for thread `u`: its last call is done, and tail and head have passed the
nodes of its calls. -/
structure Quiet (u : ℕ) (w : World (machine α n) Ghost) : Prop where
  done : (w.shared.descOf u).pending = false
  passed : ∀ (q p : ℕ), w.ghost.chain[q]? = some p → (w.shared.node p).enqTid = u →
    q ≤ w.shared.tail.aba
  took : ∀ (j p : ℕ), w.ghost.chain[j]? = some p → (w.shared.node p).deqTid = u →
    j < w.shared.head.aba

theorem Quiet.later (hq : Quiet u w) (h : Later u w w') (hu : u < n) (ht : u ≠ kTidNotSet) :
    Quiet u w' := by
  refine ⟨h.own_done hu hq.done, fun q p hp htid => ?_, fun j p hp htid => ?_⟩
  · rcases h.rely.grow q p hp with hold | ⟨-, hpend⟩
    · refine (hq.passed q p hold ?_).trans h.rely.tail
      rwa [← h.enqTid hold]
    · rw [htid, hq.done] at hpend
      cases hpend
  · rcases h.rely.deqTid p with hsame | ⟨-, hpend⟩
    · rw [hsame] at htid
      rcases h.rely.grow j p hp with hold | ⟨hnot, -⟩
      · exact (hq.took j p hold htid).trans_le h.rely.head
      · exact absurd (htid.symm.trans (h.inv.fresh p hnot).2) ht
    · rw [htid, hq.done] at hpend
      cases hpend

/-- The call `id` of thread `u` has not published its descriptor. -/
structure Fresh (u id : ℕ) (w : World (machine α n) Ghost) : Prop where
  quiet : Quiet u w
  call : ∃ op, (history w.trace)[id]? = some (.inv u op)
  running : w.ghost.running u = id
  cur : w.ghost.cur u ≠ some id
  free : id ∉ w.ghost.takers
  start : w.ghost.start u u = (w.shared.descOf u).phase

theorem Fresh.later (hf : Fresh u id w) (h : Later u w w') (hu : u < n) (ht : u ≠ kTidNotSet) :
    Fresh u id w' := by
  obtain ⟨op, hop⟩ := hf.call
  refine ⟨hf.quiet.later h hu ht, ⟨op, h.call hop⟩, h.rely.running.1.trans hf.running, ?_,
    fun hmem => ?_, ?_⟩
  · rw [h.rely.cur]
    exact hf.cur
  · rcases h.rely.taken id hmem with hold | ⟨v, hv, hcur, -⟩
    · exact hf.free hold
    · -- a taker has published its descriptor
      obtain ⟨op', hop'⟩ := (h.inv.desc v hv).call hcur
      have hkey := hop.symm.trans hop'
      simp only [Option.some.injEq, Event.inv.injEq] at hkey
      exact hf.cur (hkey.1 ▸ hcur)
  · rw [h.rely.running.2, hf.start, h.own_phase hu]

/-- When the call of thread `u` began, the phases of the threads below `i` were at most `ph`. -/
def Measured (u i : ℕ) (ph : ℤ) (w : World (machine α n) Ghost) : Prop :=
  ∀ v < n, v < i → w.ghost.start u v ≤ ph

theorem Measured.later (hm : Measured u i ph w) (h : Later u w w') : Measured u i ph w' := by
  intro v hv hi
  rw [h.rely.running.2]
  exact hm v hv hi

/-- The phase `ph` is above those of all threads when the call of thread `u` began. -/
def Above (u : ℕ) (ph : ℤ) (w : World (machine α n) Ghost) : Prop :=
  ∀ v < n, w.ghost.start u v < ph

theorem Above.later (ha : Above u ph w) (h : Later u w w') : Above u ph w' := by
  intro v hv
  rw [h.rely.running.2]
  exact ha v hv

/-- The call `id` has allocated no node. -/
def Unmade (id : ℕ) (w : World (machine α n) Ghost) : Prop := ∀ p, ¬Did Makes w.trace id p

/-- The node of an enqueue is ready to be linked. -/
def Prepared (u id : ℕ) (op : QueueOp α) (nd : ℕ) (w : World (machine α n) Ghost) : Prop :=
  match op with
  | .enqueue x => Made w.trace w.shared w.ghost u id nd ∧ nd ∉ w.ghost.chain ∧
    (w.shared.node nd).data = x
  | .dequeue => nd = 0

theorem Prepared.later {nd : ℕ} (hp : Prepared u id op nd w) (h : Later u w w')
    (hdone : (w.shared.descOf u).pending = false) : Prepared u id op nd w' := by
  cases op with
  | dequeue => exact hp
  | enqueue x =>
    obtain ⟨hm, hnot, hdata⟩ := hp
    obtain ⟨hdata', htid, -⟩ := h.rely.node nd hm.lt
    refine ⟨hm.later h, fun hmem => ?_, hdata'.trans hdata⟩
    obtain ⟨q, hq⟩ := List.mem_iff_getElem?.mp hmem
    rcases h.rely.grow q nd hq with hold | ⟨-, hpend⟩
    · exact hnot (List.mem_of_getElem? hold)
    · rw [htid, hm.tid, hdone] at hpend
      cases hpend

end Fresh

/-! ### After the descriptor was published -/

section Mine

/-- The descriptor of thread `u` is that of its call `id`. -/
structure Mine (u id : ℕ) (op : QueueOp α) (ph : ℤ) (w : World (machine α n) Ghost) : Prop where
  cur : w.ghost.cur u = some id
  phase : (w.shared.descOf u).phase = ph
  type : (w.shared.descOf u).type = operationType op

theorem Mine.later (hm : Mine u id op ph w) (h : Later u w w') (hu : u < n) :
    Mine u id op ph w' :=
  ⟨h.rely.cur.trans hm.cur, (h.own_phase hu).trans hm.phase, (h.own_type hu).trans hm.type⟩

/-- The own call is done. -/
structure Finished (u id : ℕ) (op : QueueOp α) (ph : ℤ) (w : World (machine α n) Ghost) :
    Prop extends Mine u id op ph w where
  done : (w.shared.descOf u).pending = false

theorem Finished.later (hf : Finished u id op ph w) (h : Later u w w') (hu : u < n) :
    Finished u id op ph w' :=
  ⟨hf.toMine.later h hu, h.own_done hu hf.done⟩

/-- A call that is done takes nothing more. -/
theorem Finished.not_taken (hf : Finished u id op ph w) (h : Later u w w') (hu : u < n)
    (hnot : id ∉ w.ghost.takers) : id ∉ w'.ghost.takers := by
  intro hmem
  rcases h.rely.taken id hmem with hold | ⟨v, hv, hcur, hpend⟩
  · exact hnot hold
  · obtain rfl := (h.inv.desc v hv).ne_thread (h.inv.desc u hu) hcur hf.cur
    rw [hf.done] at hpend
    cases hpend

/-- The dequeue `id` has taken nothing, or one of the first `J` values. -/
def Passing (id J : ℕ) (w : World (machine α n) Ghost) : Prop :=
  id ∉ w.ghost.takers ∨ ∃ j < J, w.ghost.takers[j]? = some id

theorem Passing.later {J : ℕ} (hp : Passing id J w) (hf : Finished u id op ph w)
    (h : Later u w w') (hu : u < n) : Passing id J w' :=
  hp.imp (hf.not_taken h hu) fun ⟨j, hj, hget⟩ =>
    ⟨j, hj, Chain.getElem?_mono h.rely.takers hget⟩

/-- The dequeue `id` gets the value behind the node `nd`, which head has passed. -/
def Takes (id nd : ℕ) (w : World (machine α n) Ghost) : Prop :=
  ∃ j < w.shared.head.aba, w.ghost.chain[j]? = some nd ∧ w.ghost.takers[j]? = some id

theorem Takes.later {nd : ℕ} (ht : Takes id nd w) (h : Later u w w') : Takes id nd w' := by
  obtain ⟨j, hj, hget, htaker⟩ := ht
  exact ⟨j, hj.trans_le h.rely.head, h.link hget, Chain.getElem?_mono h.rely.takers htaker⟩

/-- The dequeue `id` found the queue empty. -/
def Failed (id : ℕ) (w : World (machine α n) Ghost) : Prop :=
  id ∉ w.ghost.takers ∧ EmptySince id w

theorem Failed.later (hn : Failed id w) (hf : Finished u id op ph w) (h : Later u w w')
    (hu : u < n) : Failed id w' :=
  ⟨hf.not_taken h hu hn.1, hn.2.later h⟩

/-- The value that the dequeue `id` gets is that of the node `nx`. -/
def TakesItem (id nx : ℕ) (w : World (machine α n) Ghost) : Prop :=
  ∃ j < w.shared.head.aba, w.ghost.chain[j + 1]? = some nx ∧ w.ghost.takers[j]? = some id

theorem TakesItem.later {nx : ℕ} (ht : TakesItem id nx w) (h : Later u w w') :
    TakesItem id nx w' := by
  obtain ⟨j, hj, hget, htaker⟩ := ht
  exact ⟨j, hj.trans_le h.rely.head, h.link hget, Chain.getElem?_mono h.rely.takers htaker⟩

end Mine

/-! ### Assertions -/

section LocalOk

variable {l : Local α}

/-- What the call `id` of thread `u` knows at each access. -/
def Local.Ok (u id : ℕ) (op : QueueOp α) (w : World (machine α n) Ghost) : Local α → Prop
  | .loadMaxState op' i m => op' = op ∧ i < n ∧ Fresh u id w ∧ Unmade id w ∧ Measured u i m w
  | .loadMaxPhase op' i m d => op' = op ∧ i < n ∧ Fresh u id w ∧ Unmade id w ∧
    Measured u i m w ∧ d ∈ w.ghost.used ∧ w.ghost.start u i ≤ (w.shared.desc d).phase
  | .initNode item ph => op = .enqueue item ∧ Fresh u id w ∧ Unmade id w ∧ Above u ph w
  | .initDesc op' ph nd => op' = op ∧ Fresh u id w ∧ Above u ph w ∧ Prepared u id op nd w
  | .loadAba op' ph d => op' = op ∧ Fresh u id w ∧ Above u ph w ∧
    ∃ nd, Prepared u id op nd w ∧ OwnDesc u d ⟨ph, true, operationType op, nd⟩ w.shared w.ghost
  | .setState op' ph d _ => op' = op ∧ Fresh u id w ∧ Above u ph w ∧
    ∃ nd, Prepared u id op nd w ∧ OwnDesc u d ⟨ph, true, operationType op, nd⟩ w.shared w.ghost
  | .help op' ph i s => op' = op ∧ i < n ∧ Mine u id op ph w ∧
    (u < i → (w.shared.descOf u).pending = false) ∧ s.Ok u i ph w
  | .finishEnqueue s => (∃ x, op = .enqueue x) ∧ ∃ ph, Finished u id op ph w ∧
    ∃ L, s.Ok u L w ∧ OwnLinked u u L w
  | .finishDequeue s => op = .dequeue ∧ ∃ ph, Finished u id op ph w ∧
    ∃ J, s.Ok u J w ∧ Passing id J w
  | .loadState => op = .dequeue ∧ ∃ ph, Finished u id op ph w ∧
    Passing id w.shared.head.aba w
  | .loadNode d => op = .dequeue ∧ ∃ ph, Finished u id op ph w ∧ d ∈ w.ghost.used ∧
    ((w.shared.desc d).node = 0 ∧ Failed id w ∨ Takes id (w.shared.desc d).node w)
  | .loadNext nd => op = .dequeue ∧ ∃ ph, Finished u id op ph w ∧ Takes id nd w
  | .loadData nx => op = .dequeue ∧ ∃ ph, Finished u id op ph w ∧ TakesItem id nx w

theorem Local.Ok.later (hl : l.Ok u id op w) (h : Later u w w')
    (hp : Private u w.shared w.ghost w'.ghost) (hmade : Unmade id w → Unmade id w') (hu : u < n)
    (ht : u ≠ kTidNotSet) : l.Ok u id op w' := by
  cases l with
  | loadMaxState op' i m =>
    obtain ⟨h1, h2, h3, h4, h5⟩ := hl
    exact ⟨h1, h2, h3.later h hu ht, hmade h4, h5.later h⟩
  | loadMaxPhase op' i m d =>
    obtain ⟨h1, h2, h3, h4, h5, h6, h7⟩ := hl
    refine ⟨h1, h2, h3.later h hu ht, hmade h4, h5.later h, h.used h6, ?_⟩
    rw [h.rely.running.2, h.desc h6]
    exact h7
  | initNode item ph =>
    obtain ⟨h1, h2, h3, h4⟩ := hl
    exact ⟨h1, h2.later h hu ht, hmade h3, h4.later h⟩
  | initDesc op' ph nd =>
    obtain ⟨h1, h2, h3, h4⟩ := hl
    exact ⟨h1, h2.later h hu ht, h3.later h, h4.later h h2.quiet.done⟩
  | loadAba op' ph d =>
    obtain ⟨h1, h2, h3, nd, h4, h5⟩ := hl
    exact ⟨h1, h2.later h hu ht, h3.later h, nd, h4.later h h2.quiet.done, h5.later h hp⟩
  | setState op' ph d aba =>
    obtain ⟨h1, h2, h3, nd, h4, h5⟩ := hl
    exact ⟨h1, h2.later h hu ht, h3.later h, nd, h4.later h h2.quiet.done, h5.later h hp⟩
  | help op' ph i s =>
    obtain ⟨h1, h2, h3, h4, h5⟩ := hl
    exact ⟨h1, h2, h3.later h hu, fun hi => h.own_done hu (h4 hi),
      h5.later h hp hu h2 h3.phase⟩
  | finishEnqueue s =>
    obtain ⟨h1, ph, h2, L, h3, h4⟩ := hl
    exact ⟨h1, ph, h2.later h hu, L, h3.later h hp, h4.later h hu⟩
  | finishDequeue s =>
    obtain ⟨h1, ph, h2, J, h3, h4⟩ := hl
    exact ⟨h1, ph, h2.later h hu, J, h3.later h hp, h4.later h2 h hu⟩
  | loadState =>
    obtain ⟨h1, ph, h2, h3⟩ := hl
    refine ⟨h1, ph, h2.later h hu, (h3.later h2 h hu).imp_right ?_⟩
    exact fun ⟨j, hj, hget⟩ => ⟨j, hj.trans_le h.rely.head, hget⟩
  | loadNode d =>
    obtain ⟨h1, ph, h2, h3, h4⟩ := hl
    refine ⟨h1, ph, h2.later h hu, h.used h3, ?_⟩
    rw [h.desc h3]
    exact h4.imp (fun h5 => ⟨h5.1, h5.2.later h2 h hu⟩) fun h5 => h5.later h
  | loadNext nd =>
    obtain ⟨h1, ph, h2, h3⟩ := hl
    exact ⟨h1, ph, h2.later h hu, h3.later h⟩
  | loadData nx =>
    obtain ⟨h1, ph, h2, h3⟩ := hl
    exact ⟨h1, ph, h2.later h hu, h3.later h⟩

end LocalOk

/-! ### One access -/

section Step

variable {l : Local α} {σ : Shared α} {g : Ghost} {o : Local α ⊕ QueueRet α}
  {e : Event (QueueOp α) (QueueRet α)} {tr : List (Moment (machine α n))}

/-- What the result of the call `id` says. -/
def Answer (id : ℕ) (w : World (machine α n) Ghost) : QueueOp α → QueueRet α → Prop
  | .enqueue _, r => r = .enqueued true ∧ ∃ p ∈ w.ghost.chain, Did Makes w.trace id p
  | .dequeue, r => r = .dequeued none ∧ Failed id w ∨
    ∃ nx, r = .dequeued (some (w.shared.node nx).data) ∧ TakesItem id nx w

/-- What is known after an access. -/
def After (u id : ℕ) (op : QueueOp α) (w : World (machine α n) Ghost) :
    Local α ⊕ QueueRet α → Prop
  | .inl l => l.Ok u id op w
  | .inr r => Quiet u w ∧ w.ghost.cur u = some id ∧ Answer id w op r

/-- What is to be shown of the memory and the ghost after an access of the call `id`. -/
structure CallKeeps (u id : ℕ) (w : World (machine α n) Ghost) (σ : Shared α) (g : Ghost) :
    Prop where
  inv : Inv w.trace σ g
  rely : ∀ v, v ≠ u → Rely n v w.shared w.ghost σ g
  others : ∀ v, v ≠ u → Private v w.shared w.ghost g
  effect : Effect w.trace w.shared w.ghost σ g
  nodes : σ.alloc = w.shared.alloc ∨
    Unmade id w ∧ g.maker w.shared.alloc = id ∧ σ.alloc = w.shared.alloc + 1

def CallOk (u id : ℕ) (op : QueueOp α) (w : World (machine α n) Ghost)
    (p : Shared α × (Local α ⊕ QueueRet α)) : Prop :=
  ∃ g, CallKeeps u id w p.1 g ∧
    After u id op (w.record (Event.ofStep (M := machine α n) u p.2) p.1 g) p.2

theorem not_makes (h : σ.alloc = w.shared.alloc) (p : ℕ) :
    ¬Makes p (⟨e, w.shared, σ⟩ : Moment (machine α n)) := by
  rintro ⟨-, x, t, hσ⟩
  have : σ.alloc = w.shared.alloc + 1 := congrArg Shared.alloc hσ
  omega

/-- An access that allocates no node. -/
theorem Unmade.record (hm : Unmade id w) (hr : Running (history w.trace) u id op)
    (he : e = .tau u ∨ ∃ r, e = .res u r) (h : σ.alloc = w.shared.alloc) :
    Unmade id (w.record e σ g) := by
  intro p hd
  rw [World.record_trace] at hd
  rcases (did_step hr.1 he).mp hd with hd | ⟨-, hd⟩
  · exact hm p hd
  · exact not_makes h p hd

/-- An access in one of the functions. -/
theorem StepOk.call {Q : World (machine α n) Ghost → Prop} (hs : StepOk u w σ Q)
    (hI : Inv w.trace w.shared w.ghost) (hr : Running (history w.trace) u id op)
    (hQ : ∀ w', Later u w w' → Inv w.trace w'.shared w'.ghost → (Unmade id w → Unmade id w') →
      Q w' → After u id op w' o) : CallOk u id op w (σ, o) := by
  obtain ⟨g, hg⟩ := hs
  refine ⟨g, ⟨hg.inv, fun v _ => hg.rely v, hg.others, hg.effect, Or.inl hg.alloc⟩, ?_⟩
  exact hQ _ (.of_rely hI (hg.rely u)) hg.inv
    (fun hm => hm.record hr (Event.ofStep_cases (M := machine α n) u o) hg.alloc) (hg.post _)

/-- An access that only reads, after which the call goes on. -/
theorem CallOk.read (hI : Inv w.trace w.shared w.ghost) (hu : u < n) (ht : u ≠ kTidNotSet)
    (hr : Running (history w.trace) u id op) (hl : l.Ok u id op w) :
    CallOk u id op w (w.shared, .inl l) :=
  (StepOk.read (Q := fun w' => Private u w.shared w.ghost w'.ghost) hI fun _ _ hp => hp).call hI hr
    fun _ h _ hmade hp => hl.later h hp hmade hu ht

/-! ### The loops over the threads -/

theorem maxFrom_ok {m : ℤ} (hf : Fresh u id w) (hn : Unmade id w) (hm : Measured u i m w) :
    (maxFrom n op i m).Ok u id op w := by
  rw [maxFrom]
  split_ifs with hi
  · exact ⟨rfl, hi, hf, hn, hm⟩
  · have ha : Above u (m + 1) w := fun v hv => by
      have := hm v hv (by omega)
      omega
    cases op with
    | enqueue x => exact ⟨rfl, hf, hn, ha⟩
    | dequeue => exact ⟨rfl, hf, ha, rfl⟩

/-- The node of an enqueue that is done is in the chain. -/
theorem Finished.enqueued {x : α} (hf : Finished u id (.enqueue x) ph w)
    (hI : Inv tr w.shared w.ghost) (hu : u < n) :
    (w.shared.descOf u).node ∈ w.ghost.chain ∧
      Made tr w.shared w.ghost u id (w.shared.descOf u).node := by
  have hD := hI.desc u hu
  have hcur := hf.cur
  have htype : (w.shared.descOf u).type = .enqueue := hf.type
  have hdone := hf.done
  generalize w.shared.descOf u = D at hD htype hdone
  cases hD with
  | initial hc => cases hcur.symm.trans hc
  | enqueuing => cases hdone
  | enqueued hc hm hmem =>
    obtain rfl := Option.some.inj (hcur.symm.trans hc)
    exact ⟨hmem, hm⟩
  | dequeuing => cases htype
  | dequeued => cases htype
  | empty => cases htype

/-- A dequeue that is done has taken the value behind its node, or found the queue empty. -/
theorem Finished.dequeued (hf : Finished u id .dequeue ph w) (hI : Inv tr w.shared w.ghost)
    (hu : u < n) : (w.shared.descOf u).node = 0 ∧ id ∉ w.ghost.takers ∧
        Since tr id (fun σ => σ.queue = []) ∨
      ∃ j : ℕ, w.ghost.chain[j]? = some (w.shared.descOf u).node ∧
        w.ghost.takers[j]? = some id := by
  have hD := hI.desc u hu
  have hcur := hf.cur
  have htype : (w.shared.descOf u).type = .dequeue := hf.type
  have hdone := hf.done
  generalize w.shared.descOf u = D at hD htype hdone
  cases hD with
  | initial => cases htype
  | enqueuing => cases htype
  | enqueued => cases htype
  | dequeuing => cases hdone
  | dequeued hc _ hp hj =>
    obtain rfl := Option.some.inj (hcur.symm.trans hc)
    exact Or.inr ⟨_, hp, hj⟩
  | empty hc _ hn hs =>
    obtain rfl := Option.some.inj (hcur.symm.trans hc)
    exact Or.inl ⟨rfl, hn, hs⟩

theorem helpFrom_ok (hI : Inv tr w.shared w.ghost) (hu : u < n) (hm : Mine u id op ph w)
    (hdone : u < i → (w.shared.descOf u).pending = false) :
    (helpFrom n op ph i).Ok u id op w := by
  rw [helpFrom]
  split_ifs with hi
  · exact ⟨rfl, hi, hm, hdone, trivial⟩
  · have hf : Finished u id op ph w := ⟨hm, hdone (by omega)⟩
    cases op with
    | enqueue x =>
      obtain ⟨hmem, -⟩ := hf.enqueued hI hu
      obtain ⟨q, hq⟩ := List.mem_iff_getElem?.mp hmem
      exact ⟨⟨x, rfl⟩, ph, hf, q + 1, Chain.lt_length hq, fun _ => ⟨hf.type, q, by omega, hq⟩⟩
    | dequeue =>
      refine ⟨rfl, ph, hf, ?_⟩
      rcases hf.dequeued hI hu with ⟨-, hnot, -⟩ | ⟨j, -, hj⟩
      · exact ⟨0, Nat.zero_le _, Or.inl hnot⟩
      · exact ⟨j + 1, Chain.lt_length hj, Or.inr ⟨j, by omega, hj⟩⟩

/-! ### The end of a call -/

/-- A call that is done is quiet once tail and head have passed its nodes. -/
theorem Finished.quiet (hf : Finished u id op ph w) (hI : Inv tr w.shared w.ghost)
    (ht : u ≠ kTidNotSet)
    (hpassed : operationType op = .enqueue → w.ghost.chain[w.shared.tail.aba + 1]? ≠
      some (w.shared.descOf u).node)
    (htook : operationType op = .dequeue → w.ghost.takers[w.shared.head.aba]? ≠ some id) :
    Quiet u w := by
  refine ⟨hf.done, fun q p hp htid => ?_, fun j p hp htid => ?_⟩
  · by_contra hlt
    have hlag := hI.lag
    have hlen := Chain.lt_length hp
    obtain rfl : q = w.shared.tail.aba + 1 := by omega
    obtain ⟨htype, hnode⟩ := hI.last p hp
    rw [htid] at htype hnode
    exact hpassed (hf.type.symm.trans htype) (hnode.symm ▸ hp)
  · by_contra hlt
    have hne : (w.shared.node p).deqTid ≠ kTidNotSet := htid.symm ▸ ht
    have hlen : j < w.ghost.takers.length :=
      not_le.mp fun h => hne ((hI.deqTid j p hp).mpr h)
    have hle := hI.takers_le
    obtain rfl : j = w.shared.head.aba := by omega
    obtain rfl : w.shared.head.value = p := Option.some.inj (hI.head.symm.trans hp)
    have hget := List.getElem?_eq_getElem hlen
    obtain ⟨-, htype, -, hcur, -⟩ := hI.reserved _ hget
    rw [htid] at htype hcur
    refine htook (hf.type.symm.trans htype) ?_
    rw [hget, ← hcur, hf.cur]

end Step

/-! ### The accesses of a call -/

section Accesses

variable {l : Local α} {nd nx : ℕ}

/-- The node of an enqueue is allocated. -/
theorem initNode_ok {item : α} (hI : Inv w.trace w.shared w.ghost) (hu : u < n)
    (ht : u ≠ kTidNotSet) (hr : Running (history w.trace) u id (.enqueue item))
    (hf : Fresh u id w) (hn : Unmade id w) (ha : Above u ph w) :
    CallOk u id (.enqueue item) w (w.shared.newNode item u,
      .inl (.initDesc (.enqueue item) ph w.shared.alloc)) := by
  have hallocs := hI.allocs_newNode item u id
  have hrely : ∀ v, Rely n v w.shared w.ghost (w.shared.newNode item u)
      (w.ghost.newNode w.shared.alloc id) := fun v => hI.alloc_rely hallocs ⟨rfl, rfl⟩
  have hnot : w.shared.alloc ∉ w.ghost.chain := fun h =>
    lt_irrefl _ (hI.chain.bound _ h).2
  have hnode : (w.shared.newNode item u).node w.shared.alloc =
      ⟨item, ⟨0, 0⟩, u, kTidNotSet⟩ := Function.update_self ..
  have hold : ∀ p, p ≠ w.shared.alloc → (w.shared.newNode item u).node p = w.shared.node p :=
    fun p hp => Function.update_of_ne hp ..
  refine ⟨w.ghost.newNode w.shared.alloc id, ⟨hI.alloc hallocs (fun _ _ _ => rfl) hI.start,
    fun v _ => hrely v, fun v _ => Private.refl v _ _, .plain (fun p => ?_) rfl rfl
      fun _ h => Or.inl h, Or.inr ⟨hn, Function.update_self .., rfl⟩⟩, ?_⟩
  · show ((w.shared.newNode item u).node p).next = _
    by_cases hp : p = w.shared.alloc
    · rw [hp, hnode, (hI.fresh _ hnot).1]
    · rw [hold p hp]
  · have h : Later u w (w.record (.tau u) (w.shared.newNode item u)
        (w.ghost.newNode w.shared.alloc id)) := .of_rely hI (hrely u)
    refine ⟨rfl, hf.later h hu ht, ha.later h, ⟨?_, Nat.lt_succ_self _, ?_, ?_, ?_, ?_⟩, hnot, ?_⟩
    · have := (hI.lt_alloc hI.head)
      omega
    · exact congrArg Node.enqTid hnode
    · exact Function.update_self ..
    · rw [World.record_shared, hnode]
      exact h.call hr.1.1
    · refine (did_step hr.1 (Or.inl rfl)).mpr (Or.inr ⟨rfl, rfl, item, u, rfl⟩)
    · exact congrArg Node.data hnode

/-- The descriptor of the call is published. -/
theorem setState_ok {aba : ℕ} (hI : Inv w.trace w.shared w.ghost) (hu : u < n)
    (hr : Running (history w.trace) u id op) (hf : Fresh u id w) (ha : Above u ph w)
    (hp : Prepared u id op nd w)
    (ho : OwnDesc u d ⟨ph, true, operationType op, nd⟩ w.shared w.ghost) :
    CallOk u id op w (w.shared.setState u ⟨d, aba⟩, .inl (helpFrom n op ph 0)) := by
  have hcall := hr.1.open
  have hphase : (w.shared.descOf u).phase < ph := by
    rw [← hf.start]
    exact ha u hu
  have hok : DescOk w.trace w.shared (w.ghost.setState u d (some (w.ghost.running u))) u
      ⟨ph, true, operationType op, nd⟩ := by
    have hself : (w.ghost.setState u d (some (w.ghost.running u))).cur u = some id := by
      rw [hf.running]
      exact Function.update_self ..
    cases op with
    | enqueue x =>
      obtain ⟨hm, hnot, hdata⟩ := hp
      refine .enqueuing hself (hm.mono le_rfl ⟨rfl, rfl, rfl⟩) ?_ fun h => absurd h hnot
      rw [hdata]
      exact hcall
    | dequeue =>
      refine .dequeuing hself hcall (fun j hj => ?_) fun h => absurd hp h
      exact absurd (List.mem_of_getElem? hj) hf.free
  obtain ⟨h1, h2⟩ : Inv w.trace (w.shared.setState u ⟨d, aba⟩) _ ∧
      ∀ v, v ≠ u → Rely n v _ _ (w.shared.setState u ⟨d, aba⟩) _ :=
    hI.publish hu ho hf.quiet.done (by rw [hf.running]; exact hf.cur) hphase ha hf.quiet.passed
      hf.quiet.took hok
  refine ⟨_, ⟨h1, h2, fun v hv => ho.setState_private hv,
    .plain (fun _ => rfl) rfl rfl fun _ h => Or.inl h, Or.inl rfl⟩, ?_⟩
  have hself : (w.shared.setState u ⟨d, aba⟩).descOf u = ⟨ph, true, operationType op, nd⟩ :=
    descOf_setState_self.trans ho.desc
  refine helpFrom_ok h1 hu ⟨?_, congrArg OperationDescriptor.phase hself,
    congrArg OperationDescriptor.type hself⟩ fun h => absurd h (Nat.not_lt_zero _)
  rw [← hf.running]
  exact Function.update_self ..

/-- An enqueue returns: tail has passed its node. -/
theorem Finished.enqueue_returns {x : α} {L : ℕ} {w' : World (machine α n) Ghost}
    (hf : Finished u id (.enqueue x) ph w') (h : Later u w w')
    (hI : Inv w.trace w'.shared w'.ghost) (hu : u < n) (ht : u ≠ kTidNotSet)
    (hl : OwnLinked u u L w') (hL : L ≤ w'.shared.tail.aba + 1) :
    After u id (.enqueue x) w' (.inr (.enqueued true)) := by
  obtain ⟨hmem, hm⟩ := hf.enqueued hI hu
  obtain ⟨-, q, hq, hget⟩ := hl rfl
  obtain ⟨tr, htr⟩ := h.trace
  refine ⟨hf.quiet hI ht (fun _ hlast => ?_) (fun h => by cases h), hf.cur, rfl, _, hmem, ?_⟩
  · have := hI.chain.pos_unique hget hlast
    omega
  · rw [← htr]
    exact hm.did.append

/-- A dequeue that found the queue empty returns. -/
theorem Failed.returns {w' : World (machine α n) Ghost} (hn : Failed id w')
    (hf : Finished u id .dequeue ph w') {tr : List (Moment (machine α n))}
    (hI : Inv tr w'.shared w'.ghost) (ht : u ≠ kTidNotSet) :
    After u id .dequeue w' (.inr (.dequeued none)) :=
  ⟨hf.quiet hI ht (fun h => by cases h) fun _ h => hn.1 (List.mem_of_getElem? h), hf.cur,
    Or.inl ⟨rfl, hn⟩⟩

/-- A dequeue returns the value that it has taken. -/
theorem TakesItem.returns {w' : World (machine α n) Ghost} (hx : TakesItem id nx w')
    (hf : Finished u id .dequeue ph w') {tr : List (Moment (machine α n))}
    (hI : Inv tr w'.shared w'.ghost) (ht : u ≠ kTidNotSet) {v : α}
    (hv : (w'.shared.node nx).data = v) :
    After u id .dequeue w' (.inr (.dequeued (some v))) := by
  refine ⟨hf.quiet hI ht (fun h => by cases h) fun _ h => ?_, hf.cur,
    Or.inr ⟨nx, by rw [hv], hx⟩⟩
  obtain ⟨j, hj, -, hget⟩ := hx
  have := (List.getElem?_inj (Chain.lt_length hget) hI.takers_nodup).mp (hget.trans h.symm)
  omega

/-- The value behind a node that head has passed is that of the next node. -/
theorem Takes.next (hx : Takes id nd w) (hI : Inv w.trace w.shared w.ghost) :
    TakesItem id (w.shared.node nd).next.value w := by
  obtain ⟨j, hj, hget, htaker⟩ := hx
  have hlt := hI.head_lt
  refine ⟨j, hj, hI.chain.next_some hget fun h0 => ?_, htaker⟩
  have := (hI.chain.next_eq_zero hget).mp h0
  omega

/-- Every access of a call. -/
theorem step_ok (hI : Inv w.trace w.shared w.ghost) (hu : u < n) (ht : u ≠ kTidNotSet)
    (hr : Running (history w.trace) u id op) (hl : l.Ok u id op w) :
    CallOk u id op w (step n u w.shared l) := by
  -- an access that only reads
  have hgo : ∀ l' : Local α, l'.Ok u id op w → CallOk u id op w (w.shared, .inl l') :=
    fun l' hl' => .read hI hu ht hr hl'
  cases l with
  | loadMaxState op' i m =>
    obtain ⟨rfl, hi, hf, hn, hm⟩ := hl
    exact hgo _ ⟨rfl, hi, hf, hn, hm, hI.state i hi, hI.start u i hi⟩
  | loadMaxPhase op' i m d =>
    obtain ⟨rfl, hi, hf, hn, hm, -, hle⟩ := hl
    refine hgo _ (maxFrom_ok hf hn fun v hv hvi => ?_)
    rcases Nat.lt_or_eq_of_le (Nat.le_of_lt_succ hvi) with hlt | rfl
    · have := hm v hv hlt
      split_ifs <;> omega
    · split_ifs <;> omega
  | initNode item ph =>
    obtain ⟨rfl, hf, hn, ha⟩ := hl
    exact initNode_ok hI hu ht hr hf hn ha
  | initDesc op' ph nd =>
    obtain ⟨rfl, hf, ha, hp⟩ := hl
    refine StepOk.call (.newDesc hI _ fun w' _ hpriv ho => And.intro hpriv ho) hI hr
      fun w' h _ _ hQ => ?_
    exact ⟨rfl, hf.later h hu ht, ha.later h, nd, hp.later h hf.quiet.done, hQ.2⟩
  | loadAba op' ph d =>
    obtain ⟨rfl, hf, ha, hp⟩ := hl
    exact hgo _ ⟨rfl, hf, ha, hp⟩
  | setState op' ph d aba =>
    obtain ⟨rfl, hf, ha, nd, hp, ho⟩ := hl
    exact setState_ok hI hu hr hf ha hp ho
  | help op' ph i s =>
    obtain ⟨rfl, hi, hm, hd, hs⟩ := hl
    refine (Help.step_ok hI hu hi hm.phase hs).call hI hr fun w' h hI' _ hQ => ?_
    cases hst : (s.step w.shared i ph).2 with
    | some s' =>
      rw [hst] at hQ
      exact ⟨rfl, hi, hm.later h hu, fun hlt => h.own_done hu (hd hlt), hQ⟩
    | none =>
      rw [hst] at hQ
      refine helpFrom_ok hI' hu (hm.later h hu) fun hlt => ?_
      rcases Nat.lt_or_eq_of_le (Nat.le_of_lt_succ hlt) with hlt | heq
      · exact h.own_done hu (hd hlt)
      · exact hQ heq.symm
  | finishEnqueue s =>
    obtain ⟨⟨x, rfl⟩, ph, hf, L, hs, ho⟩ := hl
    have hstep := FinishEnqueue.step_ok hI hs
    rcases hst : s.step w.shared with ⟨σ, _ | s'⟩
    · rw [hst] at hstep
      simp only [step, hst]
      exact hstep.call hI hr fun w' h hI' _ hQ =>
        (hf.later h hu).enqueue_returns h hI' hu ht (ho.later h hu) hQ
    · rw [hst] at hstep
      simp only [step, hst]
      exact hstep.call hI hr fun w' h _ _ hQ =>
        ⟨⟨x, rfl⟩, ph, hf.later h hu, L, hQ, ho.later h hu⟩
  | finishDequeue s =>
    obtain ⟨rfl, ph, hf, J, hs, hp⟩ := hl
    refine (FinishDequeue.step_ok hI hs).call hI hr fun w' h _ _ hQ => ?_
    cases hst : (s.step w.shared).2 with
    | some s' =>
      rw [hst] at hQ
      exact ⟨rfl, ph, hf.later h hu, J, hQ, hp.later hf h hu⟩
    | none =>
      rw [hst] at hQ
      exact ⟨rfl, ph, hf.later h hu,
        (hp.later hf h hu).imp_right fun ⟨j, hj, hget⟩ => ⟨j, hj.trans_le hQ, hget⟩⟩
  | loadState =>
    obtain ⟨rfl, ph, hf, hp⟩ := hl
    refine hgo _ ⟨rfl, ph, hf, hI.state u hu, ?_⟩
    rcases hf.dequeued hI hu with ⟨h0, hnot, hs⟩ | ⟨j, hget, htaker⟩
    · exact Or.inl ⟨h0, hnot, hs⟩
    · rcases hp with hp | ⟨k, hk, hget'⟩
      · exact absurd (List.mem_of_getElem? htaker) hp
      · obtain rfl := (List.getElem?_inj (Chain.lt_length htaker) hI.takers_nodup).mp
          (htaker.trans hget'.symm)
        exact Or.inr ⟨j, hk, hget, htaker⟩
  | loadNode d =>
    obtain ⟨rfl, ph, hf, hd, hx⟩ := hl
    simp only [step]
    split_ifs with h0
    · rcases hx with ⟨-, hn⟩ | ⟨j, -, hget, -⟩
      · exact (StepOk.read hI fun w' h _ => hn.later hf h hu).call hI hr fun w' h hI' _ hQ =>
          hQ.returns (hf.later h hu) hI' ht
      · exact absurd h0 (hI.chain.ne_zero hget)
    · rcases hx with ⟨hz, -⟩ | hx
      · exact absurd hz h0
      · exact hgo _ ⟨rfl, ph, hf, hx⟩
  | loadNext nd =>
    obtain ⟨rfl, ph, hf, hx⟩ := hl
    exact hgo _ ⟨rfl, ph, hf, hx.next hI⟩
  | loadData nx =>
    obtain ⟨rfl, ph, hf, hx⟩ := hl
    have hlt : nx < w.shared.alloc := by
      obtain ⟨j, -, hget, -⟩ := hx
      exact hI.lt_alloc hget
    refine StepOk.call (.read hI fun w' h _ => And.intro (hx.later h)
      (h.rely.node nx hlt).1) hI hr fun w' h hI' _ hQ => ?_
    exact hQ.1.returns (hf.later h hu) hI' ht hQ.2

end Accesses

end WaitfreeQueue

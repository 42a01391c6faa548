/-
The fast and the slow path of the wait-free queue keep the invariant.

Nobody helps a call before its node is linked or head is stamped for it, so that until then its
descriptor is what its own thread wrote.

* `Ready`, `Linking`, `Linked` — the node of an enqueue before its descriptor is published, while
  it is, and once the node is linked;
* `Free`, `Trying`, `Stamped`, `Done` — a dequeue that has taken nothing, one whose descriptor is
  published, one that has stamped head, and one that is done;
* `FastEnq.step_ok`, `WfEnq.step_ok`, `FastDeq.step_ok`, `WfDeq.step_ok` — the accesses.
-/
import Scal.WfQueuePpopp12Steps

open Interleave Linearizability

namespace WfQueuePpopp12

variable {α : Type} [Inhabited α] {c : Params} {w w' : World (machine α c) Ghost}
  {u id d nd j : ℕ} {ph : ℤ} {x : α} {y z : AtomicPointer}

/-! ### `is_still_pending`, of the own descriptor -/

section Still

variable {s : Still}

def Still.Ok (u : ℕ) (w : World (machine α c) Ghost) : Still → Prop
  | .loadPendingState => True
  | .loadPending d => d ∈ w.ghost.used ∧ w.shared.desc d = w.shared.descOf u
  | .loadPhaseState => (w.shared.descOf u).pending = true
  | .loadPhase d => d ∈ w.ghost.used ∧ w.shared.desc d = w.shared.descOf u ∧
    (w.shared.descOf u).pending = true

theorem Still.Ok.later (hs : s.Ok u w) (h : Next w w')
    (hown : w'.shared.descOf u = w.shared.descOf u) : s.Ok u w' := by
  cases s with
  | loadPendingState => trivial
  | loadPending d =>
    obtain ⟨hd, heq⟩ := hs
    exact ⟨h.used hd, by rw [h.desc hd, hown, heq]⟩
  | loadPhaseState =>
    show (w'.shared.descOf u).pending = true
    rw [hown]
    exact hs
  | loadPhase d =>
    obtain ⟨hd, heq, hp⟩ := hs
    exact ⟨h.used hd, by rw [h.desc hd, hown, heq], by rw [hown]; exact hp⟩

/-- What is known after an access. -/
def Still.After (u : ℕ) (w : World (machine α c) Ghost) : Still ⊕ Bool → Prop
  | .inl s => s.Ok u w
  | .inr b => (w.shared.descOf u).pending = b

theorem Still.step_ok (hI : Inv w.trace w.shared w.ghost) (hu : u < c.numThreads)
    (hph : (w.shared.descOf u).pending = true → (w.shared.descOf u).phase = ph) (hs : s.Ok u w) :
    Still.After u w (s.step w.shared u ph) := by
  cases s with
  | loadPendingState => exact ⟨hI.state u hu, rfl⟩
  | loadPending d =>
    obtain ⟨-, heq⟩ := hs
    simp only [Still.step, heq]
    split_ifs with hp
    · exact hp
    · exact Bool.eq_false_of_not_eq_true hp
  | loadPhaseState => exact ⟨hI.state u hu, rfl, hs⟩
  | loadPhase d =>
    obtain ⟨-, heq, hp⟩ := hs
    rw [Still.step, heq, decide_eq_true (hph hp).le]
    exact hp

end Still

/-! ### Nodes -/

section Nodes

/-- The node `nd` was allocated by the enqueue `id` of thread `u`. -/
structure Made (u id : ℕ) (x : α) (nd : ℕ) (w : World (machine α c) Ghost) : Prop where
  ne : nd ≠ 0
  lt : nd < w.shared.alloc
  data : (w.shared.node nd).data = x
  maker : w.ghost.maker nd = id
  call : (history w.trace)[id]? = some (.inv u (.enqueue x))
  did : Did Makes w.trace id nd

theorem Next.call {e : Event (QueueOp α) (QueueRet α)} (h : Next w w')
    (hc : (history w.trace)[id]? = some e) : (history w'.trace)[id]? = some e := by
  obtain ⟨tr, htr⟩ := h.trace
  rw [← htr, history_append, getElem?_append_of_lt (List.getElem?_eq_some_iff.mp hc).choose]
  exact hc

theorem Made.next (hm : Made u id x nd w) (h : Next w w') : Made u id x nd w' := by
  obtain ⟨hdata, hmaker⟩ := h.mono.node nd hm.lt
  obtain ⟨tr, htr⟩ := h.trace
  refine ⟨hm.ne, hm.lt.trans_le h.mono.alloc, hdata.trans hm.data, hmaker.trans hm.maker,
    h.call hm.call, ?_⟩
  rw [← htr]
  exact hm.did.append

/-- The node can be linked. -/
structure Ready (u id : ℕ) (x : α) (nd : ℕ) (w : World (machine α c) Ghost) : Prop
    extends Made u id x nd w where
  unlinked : nd ∉ w.ghost.chain
  tid : (w.shared.node nd).enqTid ≠ kTidNotSet → (w.shared.node nd).enqTid < c.numThreads
  quiet : w.shared.head.aba ≠ u

theorem Ready.later (hr : Ready u id x nd w) (h : Later u w w') (ht : u ≠ kTidNotSet) :
    Ready u id x nd w' := by
  obtain ⟨htid, hlink⟩ := h.others.node nd hr.lt (.enqueue x) (by rw [hr.maker]; exact hr.call)
  refine ⟨hr.toMade.next h.toNext, mt hlink hr.unlinked, ?_, mt (h.others.stamp ht) hr.quiet⟩
  rw [htid]
  exact hr.tid

/-- The node is linked. -/
structure Linked (u id : ℕ) (x : α) (nd : ℕ) (w : World (machine α c) Ghost) : Prop
    extends Made u id x nd w where
  linked : nd ∈ w.ghost.chain
  quiet : w.shared.head.aba ≠ u

theorem Linked.later (hl : Linked u id x nd w) (h : Later u w w') (ht : u ≠ kTidNotSet) :
    Linked u id x nd w' :=
  ⟨hl.toMade.next h.toNext, h.mono.chain.subset hl.linked, mt (h.others.stamp ht) hl.quiet⟩

/-- The last node is read: `z` is its `next`. -/
theorem Ready.link_ok (hI : Inv w.trace w.shared w.ghost) (hr : Ready u id x nd w)
    (ho : Open (history w.trace) u id (.enqueue x)) (hy : TailRead w y) (h0 : z.value = 0)
    (hz : (w.shared.node y.value).next = z) :
    StepOk u w (w.shared.setNext y.value ⟨nd, z.aba + 1⟩) fun w' => Linked u id x nd w' := by
  have hlast : (w.shared.node y.value).next.value = 0 := by rw [hz, h0]
  have hnone := hI.chain.next_none hy.1 hlast
  obtain rfl : z = ⟨0, 0⟩ := hz.symm.trans hnone
  have hk : Keeps u w.trace w.shared w.ghost (w.shared.setNext y.value ⟨nd, 1⟩)
      { w.ghost with chain := w.ghost.chain ++ [nd] } :=
    hI.link hy.1 hlast hr.unlinked hr.ne hr.lt hr.tid hr.maker hr.did (by rw [hr.data]; exact ho)
  exact ⟨_, hk, rfl, fun e => ⟨hr.toMade.next (.of_keeps hI hk),
    List.mem_append_right _ (List.mem_singleton_self nd), hr.quiet⟩⟩

end Nodes

/-! ### `enqueue` -/

section Enqueue

/-- The descriptor of the enqueue is published. -/
structure Linking (u id : ℕ) (x : α) (nd : ℕ) (ph : ℤ) (w : World (machine α c) Ghost) : Prop
    extends Ready u id x nd w where
  desc : w.shared.descOf u = .init ph true .enqueue nd

/-- Nobody finishes it before the node is linked. -/
theorem Linking.own (hl : Linking u id x nd ph w) (h : Later u w w') (hu : u < c.numThreads) :
    w'.shared.descOf u = w.shared.descOf u := by
  rcases h.others.own with hsame | hf
  · exact h.toNext.descOf hu hsame
  · have hmem := hf.enqueue (by rw [hl.desc]; rfl) (by rw [hl.desc]; rfl)
    rw [hl.desc] at hmem
    exact absurd hmem hl.unlinked

theorem Linking.later (hl : Linking u id x nd ph w) (h : Later u w w') (hu : u < c.numThreads)
    (ht : u ≠ kTidNotSet) : Linking u id x nd ph w' :=
  ⟨hl.toReady.later h ht, (hl.own h hu).trans hl.desc⟩

theorem Linking.phase (hl : Linking u id x nd ph w) : (w.shared.descOf u).phase = ph := by
  rw [hl.desc]
  rfl

theorem Linking.pending (hl : Linking u id x nd ph w) : (w.shared.descOf u).pending = true := by
  rw [hl.desc]
  rfl

def HelpEnq.Ok (u id : ℕ) (x : α) (nd : ℕ) (ph : ℤ) (w : World (machine α c) Ghost) :
    HelpEnq → Prop
  | .loop s => Linking u id x nd ph w ∧ s.Ok u w
  | .loadTail => Linking u id x nd ph w
  | .loadNext y => Linking u id x nd ph w ∧ TailRead w y
  | .checkTail y _ => Linking u id x nd ph w ∧ TailRead w y
  | .stillPending y z s => Linking u id x nd ph w ∧ TailRead w y ∧ z.value = 0 ∧ s.Ok u w
  | .loadState y z => Linking u id x nd ph w ∧ TailRead w y ∧ z.value = 0
  | .loadNode y z d => Linking u id x nd ph w ∧ TailRead w y ∧ z.value = 0 ∧
    d ∈ w.ghost.used ∧ w.shared.desc d = w.shared.descOf u
  | .casNext y z node => Linking u id x nd ph w ∧ TailRead w y ∧ z.value = 0 ∧ node = nd
  | .finish s => Linked u id x nd w ∧ s.Ok u w
  | .finishOther s => Linking u id x nd ph w ∧ s.Ok u w

theorem HelpEnq.Ok.later {s : HelpEnq} (hs : s.Ok u id x nd ph w) (h : Later u w w')
    (hp : Private u w.shared w.ghost w'.ghost) (hu : u < c.numThreads) (ht : u ≠ kTidNotSet) :
    s.Ok u id x nd ph w' := by
  cases s with
  | loop s => exact ⟨hs.1.later h hu ht, hs.2.later h.toNext (hs.1.own h hu)⟩
  | loadTail => exact Linking.later hs h hu ht
  | loadNext y => exact ⟨hs.1.later h hu ht, hs.2.later h⟩
  | checkTail y z => exact ⟨hs.1.later h hu ht, hs.2.later h⟩
  | stillPending y z s =>
    obtain ⟨hl, hy, hz, hs⟩ := hs
    exact ⟨hl.later h hu ht, hy.later h, hz, hs.later h.toNext (hl.own h hu)⟩
  | loadState y z => exact ⟨hs.1.later h hu ht, hs.2.1.later h, hs.2.2⟩
  | loadNode y z d =>
    obtain ⟨hl, hy, hz, hd, heq⟩ := hs
    exact ⟨hl.later h hu ht, hy.later h, hz, h.used hd, by rw [h.desc hd, hl.own h hu, heq]⟩
  | casNext y z node => exact ⟨hs.1.later h hu ht, hs.2.1.later h, hs.2.2⟩
  | finish s => exact ⟨hs.1.later h ht, hs.2.later h hp⟩
  | finishOther s => exact ⟨hs.1.later h hu ht, hs.2.later h hp⟩

/-- What is known after an access of `help_enq`: it returns once the node is linked. -/
def HelpEnq.After (u id : ℕ) (x : α) (nd : ℕ) (ph : ℤ) (w : World (machine α c) Ghost) :
    Option HelpEnq → Prop
  | some s => s.Ok u id x nd ph w
  | none => Linked u id x nd w

theorem HelpEnq.step_ok {s : HelpEnq} (hI : Inv w.trace w.shared w.ghost)
    (hu : u < c.numThreads) (ht : u ≠ kTidNotSet)
    (ho : Open (history w.trace) u id (.enqueue x)) (hs : s.Ok u id x nd ph w) :
    StepOk u w (s.step w.shared u ph).1
      fun w' => HelpEnq.After u id x nd ph w' (s.step w.shared u ph).2 := by
  -- an access that only reads
  have hgo : ∀ s' : HelpEnq, s'.Ok u id x nd ph w →
      StepOk u w w.shared fun w' => HelpEnq.After u id x nd ph w' (some s') := fun s' hs' =>
    .read hI fun w' h hp => hs'.later h hp hu ht
  cases s with
  | loop s =>
    obtain ⟨hl, hs⟩ := hs
    have hafter := Still.step_ok hI hu (fun _ => hl.phase) hs
    rcases hst : s.step w.shared u ph with s' | b
    · rw [hst] at hafter
      simp only [HelpEnq.step, hst]
      exact hgo _ ⟨hl, hafter⟩
    · rw [hst] at hafter
      obtain rfl : true = b := hl.pending.symm.trans hafter
      simp only [HelpEnq.step, hst]
      exact hgo _ hl
  | loadTail => exact hgo _ ⟨hs, hI.tail, le_rfl⟩
  | loadNext y => exact hgo _ hs
  | checkTail y z =>
    obtain ⟨hl, hy⟩ := hs
    simp only [HelpEnq.step]
    split_ifs with h1 h2
    · exact hgo _ ⟨hl, hy, h2, trivial⟩
    · exact hgo _ ⟨hl, trivial⟩
    · exact hgo _ ⟨hl, trivial⟩
  | stillPending y z s =>
    obtain ⟨hl, hy, hz, hs⟩ := hs
    have hafter := Still.step_ok hI hu (fun _ => hl.phase) hs
    rcases hst : s.step w.shared u ph with s' | b
    · rw [hst] at hafter
      simp only [HelpEnq.step, hst]
      exact hgo _ ⟨hl, hy, hz, hafter⟩
    · rw [hst] at hafter
      obtain rfl : true = b := hl.pending.symm.trans hafter
      simp only [HelpEnq.step, hst]
      exact hgo _ ⟨hl, hy, hz⟩
  | loadState y z =>
    obtain ⟨hl, hy, hz⟩ := hs
    exact hgo _ ⟨hl, hy, hz, hI.state u hu, rfl⟩
  | loadNode y z d =>
    obtain ⟨hl, hy, hz, -, heq⟩ := hs
    refine hgo _ ⟨hl, hy, hz, ?_⟩
    rw [heq, hl.desc]
    rfl
  | casNext y z node =>
    obtain ⟨hl, hy, hz, rfl⟩ := hs
    simp only [HelpEnq.step]
    split_ifs with hnext
    · exact (hl.toReady.link_ok hI ho hy hz hnext).mono fun w' _ h => ⟨h, trivial⟩
    · exact hgo _ ⟨hl, trivial⟩
  | finish s =>
    obtain ⟨hl, hs⟩ := hs
    refine (FinishEnq.step_ok hI hs).mono fun w' _ hq => ?_
    simp only [HelpEnq.step]
    cases hst : (s.step w.shared).2 with
    | some s' =>
      rw [hst] at hq
      exact ⟨hl.later hq.1 ht, hq.2⟩
    | none => exact hl.later hq.1 ht
  | finishOther s =>
    obtain ⟨hl, hs⟩ := hs
    refine (FinishEnq.step_ok hI hs).mono fun w' _ hq => ?_
    simp only [HelpEnq.step]
    cases hst : (s.step w.shared).2 with
    | some s' =>
      rw [hst] at hq
      exact ⟨hl.later hq.1 hu ht, hq.2⟩
    | none => exact ⟨hl.later hq.1 hu ht, trivial⟩

/-! #### The fast path -/

def FastEnq.Ok (u id : ℕ) (x : α) (nd : ℕ) (w : World (machine α c) Ghost) : FastEnq → Prop
  | .loadTail => Ready u id x nd w
  | .loadNext y => Ready u id x nd w ∧ TailRead w y
  | .checkTail y z => Ready u id x nd w ∧ TailRead w y ∧
    (z.value ≠ 0 → w.ghost.chain[y.aba + 1]? = some z.value)
  | .casNext y z => Ready u id x nd w ∧ TailRead w y ∧ z.value = 0
  | .fixTail s => Ready u id x nd w ∧ s.Ok u w

theorem FastEnq.Ok.later {s : FastEnq} (hs : s.Ok u id x nd w) (h : Later u w w')
    (hp : Private u w.shared w.ghost w'.ghost) (ht : u ≠ kTidNotSet) : s.Ok u id x nd w' := by
  cases s with
  | loadTail => exact Ready.later hs h ht
  | loadNext y => exact ⟨hs.1.later h ht, hs.2.later h⟩
  | checkTail y z =>
    exact ⟨hs.1.later h ht, hs.2.1.later h, fun h0 => h.toNext.link (hs.2.2 h0)⟩
  | casNext y z => exact ⟨hs.1.later h ht, hs.2.1.later h, hs.2.2⟩
  | fixTail s => exact ⟨hs.1.later h ht, hs.2.later h hp⟩

/-- What is known after an access of an iteration. -/
def FastEnq.After (u id : ℕ) (x : α) (nd : ℕ) (w : World (machine α c) Ghost) :
    FastEnq ⊕ Bool → Prop
  | .inl s => s.Ok u id x nd w
  | .inr true => Linked u id x nd w
  | .inr false => Ready u id x nd w

theorem FastEnq.step_ok {s : FastEnq} (hI : Inv w.trace w.shared w.ghost) (ht : u ≠ kTidNotSet)
    (ho : Open (history w.trace) u id (.enqueue x)) (hs : s.Ok u id x nd w) :
    StepOk u w (s.step w.shared nd).1
      fun w' => FastEnq.After u id x nd w' (s.step w.shared nd).2 := by
  -- an access that only reads
  have hgo : ∀ s' : FastEnq, s'.Ok u id x nd w →
      StepOk u w w.shared fun w' => FastEnq.After u id x nd w' (.inl s') := fun s' hs' =>
    .read hI fun w' h hp => hs'.later h hp ht
  have hend : Ready u id x nd w →
      StepOk u w w.shared fun w' => FastEnq.After u id x nd w' (.inr false) := fun hr =>
    .read hI fun w' h _ => hr.later h ht
  cases s with
  | loadTail => exact hgo _ ⟨hs, hI.tail, le_rfl⟩
  | loadNext y =>
    obtain ⟨hr, hy⟩ := hs
    exact hgo _ ⟨hr, hy, hI.chain.next_some hy.1⟩
  | checkTail y z =>
    obtain ⟨hr, hy, hz⟩ := hs
    simp only [FastEnq.step]
    split_ifs with h1 h2
    · exact hgo _ ⟨hr, hy, h2⟩
    · exact hgo _ ⟨hr, hy, hz h2⟩
    · exact hend hr
  | casNext y z =>
    obtain ⟨hr, hy, hz⟩ := hs
    simp only [FastEnq.step]
    split_ifs with hnext
    · exact hr.link_ok hI ho hy hz hnext
    · exact hend hr
  | fixTail s =>
    obtain ⟨hr, hs⟩ := hs
    refine (FixTail.step_ok hI hs).mono fun w' _ hq => ?_
    simp only [FastEnq.step]
    cases hst : (s.step w.shared).2 with
    | some s' =>
      rw [hst] at hq
      exact ⟨hr.later hq.1 ht, hq.2⟩
    | none => exact hr.later hq.1 ht

/-! #### The slow path -/

def WfEnq.Ok (u id : ℕ) (x : α) (nd : ℕ) (w : World (machine α c) Ghost) : WfEnq → Prop
  | .loadState => Ready u id x nd w
  | .loadPhase d => Ready u id x nd w ∧ d ∈ w.ghost.used
  | .setEnqTid ph => Ready u id x nd w ∧ 0 ≤ ph
  | .initDesc ph => Ready u id x nd w ∧ 0 ≤ ph
  | .loadAba ph d => Ready u id x nd w ∧ 0 ≤ ph ∧
    OwnDesc u d (.init ph true .enqueue nd) w.shared w.ghost
  | .setState ph d _ => Ready u id x nd w ∧ 0 ≤ ph ∧
    OwnDesc u d (.init ph true .enqueue nd) w.shared w.ghost
  | .help ph s => s.Ok u id x nd ph w
  | .finish s => Linked u id x nd w ∧ s.Ok u w

theorem WfEnq.Ok.later {s : WfEnq} (hs : s.Ok u id x nd w) (h : Later u w w')
    (hp : Private u w.shared w.ghost w'.ghost) (hu : u < c.numThreads) (ht : u ≠ kTidNotSet) :
    s.Ok u id x nd w' := by
  cases s with
  | loadState => exact Ready.later hs h ht
  | loadPhase d => exact ⟨hs.1.later h ht, h.used hs.2⟩
  | setEnqTid ph => exact ⟨hs.1.later h ht, hs.2⟩
  | initDesc ph => exact ⟨hs.1.later h ht, hs.2⟩
  | loadAba ph d => exact ⟨hs.1.later h ht, hs.2.1, hs.2.2.later h hp⟩
  | setState ph d aba => exact ⟨hs.1.later h ht, hs.2.1, hs.2.2.later h hp⟩
  | help ph s => exact HelpEnq.Ok.later hs h hp hu ht
  | finish s => exact ⟨hs.1.later h ht, hs.2.later h hp⟩

/-- What is known after an access of `wf_enq`. -/
def WfEnq.After (u id : ℕ) (x : α) (nd : ℕ) (w : World (machine α c) Ghost) :
    Option WfEnq → Prop
  | some s => s.Ok u id x nd w
  | none => Linked u id x nd w

/-- A thread writes its id into its node. -/
theorem Ready.setEnqTid_ok (hI : Inv w.trace w.shared w.ghost) (hu : u < c.numThreads)
    (hr : Ready u id x nd w) :
    StepOk u w (w.shared.setEnqTid nd u) fun w' => Ready u id x nd w' := by
  have hk : Keeps u w.trace w.shared w.ghost (w.shared.setEnqTid nd u) w.ghost := by
    refine (allocates_setEnqTid hr.unlinked).keeps hI fun v hv p _ op hcall => ?_
    -- the node of another thread is another one
    have hne : p ≠ nd := by
      rintro rfl
      rw [hr.maker, hr.call] at hcall
      simp only [Option.some.injEq, Event.inv.injEq] at hcall
      exact hv hcall.1.symm
    have : (w.shared.setEnqTid nd u).node p = w.shared.node p := Function.update_of_ne hne ..
    rw [this]
  refine ⟨_, hk, rfl, fun e => ⟨hr.toMade.next (.of_keeps hI hk), hr.unlinked, fun _ => ?_,
    hr.quiet⟩⟩
  have : ((w.shared.setEnqTid nd u).node nd).enqTid = u := by simp [Shared.setEnqTid]
  show ((w.shared.setEnqTid nd u).node nd).enqTid < c.numThreads
  rwa [this]

/-- The descriptor of an enqueue is published. -/
theorem Ready.publish_ok {aba : ℕ} (hI : Inv w.trace w.shared w.ghost) (hr : Ready u id x nd w)
    (hph : 0 ≤ ph) (ho : OwnDesc u d (.init ph true .enqueue nd) w.shared w.ghost) :
    StepOk u w (w.shared.setState u ⟨d, aba⟩) fun w' => Linking u id x nd ph w' := by
  have hk : Keeps u w.trace w.shared w.ghost (w.shared.setState u ⟨d, aba⟩)
      (w.ghost.publish d) := by
    refine hI.publish ho ⟨?_, fun _ => hph⟩ (fun h => ?_) (fun h => absurd h hr.quiet)
      fun h => absurd rfl h
    · show -1 ≤ ph
      omega
    · cases h
  exact ⟨_, hk, rfl, fun e => ⟨⟨hr.toMade.next (.of_keeps hI hk), hr.unlinked, hr.tid, hr.quiet⟩,
    ho.descOf⟩⟩

theorem WfEnq.step_ok {s : WfEnq} (hI : Inv w.trace w.shared w.ghost) (hu : u < c.numThreads)
    (ht : u ≠ kTidNotSet) (ho : Open (history w.trace) u id (.enqueue x))
    (hs : s.Ok u id x nd w) :
    StepOk u w (s.step u w.shared nd).1
      fun w' => WfEnq.After u id x nd w' (s.step u w.shared nd).2 := by
  -- an access that only reads
  have hgo : ∀ s' : WfEnq, s'.Ok u id x nd w →
      StepOk u w w.shared fun w' => WfEnq.After u id x nd w' (some s') := fun s' hs' =>
    .read hI fun w' h hp => hs'.later h hp hu ht
  cases s with
  | loadState => exact hgo _ ⟨hs, hI.state u hu⟩
  | loadPhase d =>
    obtain ⟨hr, hd⟩ := hs
    refine hgo _ ⟨hr, ?_⟩
    have := (hI.phase d hd).1
    omega
  | setEnqTid ph =>
    obtain ⟨hr, hph⟩ := hs
    exact (hr.setEnqTid_ok hI hu).mono fun w' _ h => ⟨h, hph⟩
  | initDesc ph =>
    obtain ⟨hr, hph⟩ := hs
    exact .newDesc hI _ fun w' h hd => ⟨hr.later h ht, hph, hd⟩
  | loadAba ph d => exact hgo _ hs
  | setState ph d aba =>
    obtain ⟨hr, hph, hd⟩ := hs
    exact (hr.publish_ok hI hph hd).mono fun w' _ h => ⟨h, trivial⟩
  | help ph s =>
    refine (HelpEnq.step_ok hI hu ht ho hs).mono fun w' _ hq => ?_
    simp only [WfEnq.step]
    cases hst : (s.step w.shared u ph).2 with
    | some s' =>
      rw [hst] at hq
      exact hq
    | none =>
      rw [hst] at hq
      exact ⟨hq, trivial⟩
  | finish s =>
    obtain ⟨hl, hs⟩ := hs
    refine (FinishEnq.step_ok hI hs).mono fun w' _ hq => ?_
    simp only [WfEnq.step]
    cases hst : (s.step w.shared).2 with
    | some s' =>
      rw [hst] at hq
      exact ⟨hl.later hq.1 ht, hq.2⟩
    | none => exact hl.later hq.1 ht

end Enqueue

/-! ### What a dequeue has read -/

section Ends

variable {nx : ℕ}

/-- At some time of the call `id` the queue was empty. -/
def EmptySince (id : ℕ) (w : World (machine α c) Ghost) : Prop :=
  Since w.trace id fun σ => σ.queue = []

theorem EmptySince.next (he : EmptySince id w) (h : Next w w') : EmptySince id w' := by
  obtain ⟨tr, htr⟩ := h.trace
  rw [EmptySince, ← htr]
  exact he.append

/-- Head was `x`, at position `j`, and after that tail was `y`. -/
structure EndsRead (j : ℕ) (x y : AtomicPointer) (w : World (machine α c) Ghost) : Prop where
  head : HeadRead j x w
  tail : TailRead w y
  le : j ≤ y.aba

theorem EndsRead.later {x : AtomicPointer} (he : EndsRead j x y w) (h : Later u w w') :
    EndsRead j x y w' :=
  ⟨he.head.later h, he.tail.later h, he.le⟩

/-- Head and tail were at the same node. -/
theorem EndsRead.eq {x : AtomicPointer} (he : EndsRead j x y w)
    (hI : Inv w.trace w.shared w.ghost) (hv : x.value = y.value) : j = y.aba :=
  hI.chain.pos_unique he.head.link (hv ▸ he.tail.1)

theorem EndsRead.lt {x : AtomicPointer} (he : EndsRead j x y w) (hv : x.value ≠ y.value) :
    j < y.aba := by
  refine lt_of_le_of_ne he.le fun heq => hv ?_
  have := he.head.link
  rw [heq, he.tail.1] at this
  exact (Option.some.inj this).symm

/-- And then the node behind head's was `nx`. -/
structure NextRead (id j : ℕ) (y : AtomicPointer) (nx : ℕ) (w : World (machine α c) Ghost) :
    Prop where
  link : nx ≠ 0 → w.ghost.chain[j + 1]? = some nx
  filled : j < y.aba → nx ≠ 0
  empty : nx = 0 → EmptySince id w

theorem NextRead.later (hn : NextRead id j y nx w) (h : Later u w w') : NextRead id j y nx w' :=
  ⟨fun h0 => h.toNext.link (hn.link h0), hn.filled, fun h0 => (hn.empty h0).next h.toNext⟩

theorem EndsRead.nextRead {x : AtomicPointer} (he : EndsRead j x y w)
    (hI : Inv w.trace w.shared w.ghost) (hid : id ≤ w.trace.length)
    (e : Event (QueueOp α) (QueueRet α)) :
    NextRead id j y (w.shared.node x.value).next.value (w.record e w.shared w.ghost) := by
  refine ⟨fun h0 => hI.chain.next_some he.head.link h0, fun hlt h0 => ?_, fun h0 => ?_⟩
  · have := (hI.chain.next_eq_zero he.head.link).mp h0
    have := Chain.lt_length he.tail.1
    omega
  · -- head's node is the last one
    refine since_record hid ?_
    have := (hI.chain.next_eq_zero he.head.link).mp h0
    have := he.head.le
    rw [hI.queue_eq, List.drop_eq_nil_of_le (by omega), List.map_nil]

/-- The queue was not empty when head was `x`. -/
structure Filled (j : ℕ) (x : AtomicPointer) (w : World (machine α c) Ghost) : Prop where
  head : HeadRead j x w
  lt : j < w.shared.tail.aba

theorem Filled.later {x : AtomicPointer} (hf : Filled j x w) (h : Later u w w') :
    Filled j x w' :=
  ⟨hf.head.later h, hf.lt.trans_le h.mono.tail⟩

theorem EndsRead.filled {x : AtomicPointer} (he : EndsRead j x y w) (hv : x.value ≠ y.value) :
    Filled j x w :=
  ⟨he.head, (he.lt hv).trans_le he.tail.2⟩

end Ends

/-! ### `dequeue` -/

section Dequeue

variable {nx : ℕ} {r : QueueRet α}

/-- The dequeue `id` of thread `u` has taken nothing. -/
structure Free (u id : ℕ) (w : World (machine α c) Ghost) : Prop where
  call : (history w.trace)[id]? = some (.inv u .dequeue)
  quiet : w.shared.head.aba ≠ u
  free : id ∉ w.ghost.takers

theorem Free.later (hf : Free u id w) (h : Later u w w') (ht : u ≠ kTidNotSet) : Free u id w' :=
  ⟨h.toNext.call hf.call, mt (h.others.stamp ht) hf.quiet,
    mt (h.others.taken id _ hf.call) hf.free⟩

theorem Free.le (hf : Free u id w) : id ≤ w.trace.length := by
  rw [← length_history w.trace]
  exact (List.getElem?_eq_some_iff.mp hf.call).choose.le

/-- Its descriptor is published. -/
structure Trying (u id : ℕ) (ph : ℤ) (w : World (machine α c) Ghost) : Prop
    extends Free u id w where
  pending : (w.shared.descOf u).pending = true
  type : (w.shared.descOf u).type = .dequeue
  phase : (w.shared.descOf u).phase = ph

/-- Nobody finishes it before head is stamped. -/
theorem Trying.own (hf : Trying u id ph w) (h : Later u w w') (hu : u < c.numThreads) :
    w'.shared.descOf u = w.shared.descOf u := by
  rcases h.others.own with hsame | hfin
  · exact h.toNext.descOf hu hsame
  · exact absurd (hfin.dequeue hf.pending hf.type) hf.quiet

theorem Trying.later (hf : Trying u id ph w) (h : Later u w w') (hu : u < c.numThreads)
    (ht : u ≠ kTidNotSet) : Trying u id ph w' := by
  have hown := hf.own h hu
  exact ⟨hf.toFree.later h ht, by rw [hown]; exact hf.pending, by rw [hown]; exact hf.type,
    by rw [hown]; exact hf.phase⟩

/-- The dequeue `id` gets the value behind the node `p`, which head has passed. -/
def Takes (id p : ℕ) (w : World (machine α c) Ghost) : Prop :=
  ∃ j < w.ghost.head, w.ghost.chain[j]? = some p ∧ w.ghost.takers[j]? = some id

theorem Takes.next {p : ℕ} (ht : Takes id p w) (h : Next w w') : Takes id p w' := by
  obtain ⟨j, hj, hget, hid⟩ := ht
  exact ⟨j, hj.trans_le h.mono.head, h.link hget, Chain.getElem?_mono h.mono.takers hid⟩

/-- The dequeue is done. -/
structure Done (u id : ℕ) (w : World (machine α c) Ghost) : Prop where
  call : (history w.trace)[id]? = some (.inv u .dequeue)
  quiet : w.shared.head.aba ≠ u
  done : (w.shared.descOf u).pending = false
  result : (w.shared.descOf u).node = 0 ∧ id ∉ w.ghost.takers ∧ EmptySince id w ∨
    Takes id (w.shared.descOf u).node w

theorem OperationDescriptor.done_eq {D : OperationDescriptor} (hD : D.pending = false) :
    D.done = D := by
  rw [OperationDescriptor.done, OperationDescriptor.init, ← hD]

theorem Done.own (hd : Done u id w) (h : Later u w w') (hu : u < c.numThreads) :
    w'.shared.descOf u = w.shared.descOf u := by
  rcases h.others.own with hsame | hfin
  · exact h.toNext.descOf hu hsame
  · exact hfin.desc.trans (OperationDescriptor.done_eq hd.done)

theorem Done.later (hd : Done u id w) (h : Later u w w') (hu : u < c.numThreads)
    (ht : u ≠ kTidNotSet) : Done u id w' := by
  have hown := hd.own h hu
  refine ⟨h.toNext.call hd.call, mt (h.others.stamp ht) hd.quiet, by rw [hown]; exact hd.done, ?_⟩
  rw [hown]
  exact hd.result.imp (fun ⟨h0, hfree, he⟩ =>
    ⟨h0, mt (h.others.taken id _ hd.call) hfree, he.next h.toNext⟩) fun hk => hk.next h.toNext

/-- The dequeue has stamped head at position `j`. -/
structure Stamped (u id j : ℕ) (w : World (machine α c) Ghost) : Prop where
  call : (history w.trace)[id]? = some (.inv u .dequeue)
  taker : w.ghost.takers[j]? = some id
  node : w.ghost.chain[j]? = some (w.shared.descOf u).node
  done : j < w.ghost.head → (w.shared.descOf u).pending = false

theorem Stamped.later (hs : Stamped u id j w) (h : Later u w w') (hu : u < c.numThreads) :
    Stamped u id j w' := by
  have hnode : (w'.shared.descOf u).node = (w.shared.descOf u).node ∧
      ((w.shared.descOf u).pending = false → (w'.shared.descOf u).pending = false) := by
    rcases h.others.own with hsame | hfin
    · rw [h.toNext.descOf hu hsame]
      exact ⟨rfl, fun hd => hd⟩
    · rw [hfin.desc]
      exact ⟨rfl, fun _ => rfl⟩
  refine ⟨h.toNext.call hs.call, Chain.getElem?_mono h.mono.takers hs.taker, ?_, fun hj => ?_⟩
  · rw [hnode.1]
    exact h.toNext.link hs.node
  · refine hnode.2 ?_
    by_cases hold : j < w.ghost.head
    · exact hs.done hold
    · -- head leaves the stamped node now
      have hlen := h.inv.takers
      have hlt := Chain.lt_length hs.taker
      have hne : w.shared.head.aba ≠ kTidNotSet := fun h0 => by
        rw [if_pos h0] at hlen
        omega
      rw [if_neg hne] at hlen
      obtain rfl : j = w.ghost.head := by omega
      obtain ⟨-, -, -, -, i, hi, ho⟩ := h.inv.stamped hne
      obtain rfl : id = i := Option.some.inj (hs.taker.symm.trans hi)
      have hkey := hs.call.symm.trans ho.1
      simp only [Option.some.injEq, Event.inv.injEq] at hkey
      rw [hkey.1]
      exact h.mono.moved hne hj

/-- Head has left the node at position `j`, or it is stamped. -/
def Passed (j : ℕ) (w : World (machine α c) Ghost) : Prop :=
  j < w.ghost.head ∨ w.shared.head.aba ≠ kTidNotSet

theorem Passed.later (hp : Passed j w) (h : Later u w w') (hj : j ≤ w.ghost.head) :
    Passed j w' := by
  have hmono := h.mono.head
  rcases hp with hlt | hne
  · exact Or.inl (hlt.trans_le hmono)
  · rcases Nat.lt_or_eq_of_le hmono with hlt | heq
    · exact Or.inl (hj.trans_lt hlt)
    · refine Or.inr ?_
      rw [h.mono.stays heq.symm hne]
      exact hne

theorem HeadRead.passed {x : AtomicPointer} (hx : HeadRead j x w)
    (hI : Inv w.trace w.shared w.ghost) (hne : w.shared.head ≠ x) : Passed j w := by
  refine (Nat.lt_or_eq_of_le hx.le).imp_right fun hj h0 => hne ?_
  by_cases hset : x.aba = kTidNotSet
  · -- head is at the node of `x`, and neither is stamped
    have hvalue := hx.link
    rw [hj, hI.head] at hvalue
    exact congrArg₂ AtomicValue.mk (Option.some.inj hvalue) (h0.trans hset.symm)
  · exact hx.stays hj hset

def HelpDeq.Ok (u id : ℕ) (ph : ℤ) (w : World (machine α c) Ghost) : HelpDeq → Prop
  | .loop s => (Trying u id ph w ∨ Done u id w) ∧ s.Ok u w
  | .loadHead => Trying u id ph w
  | .loadTail x => Trying u id ph w ∧ ∃ j, HeadRead j x w
  | .loadNext x y => Trying u id ph w ∧ ∃ j, EndsRead j x y w
  | .checkHead x y nx => Trying u id ph w ∧ ∃ j, EndsRead j x y w ∧ NextRead id j y nx w
  -- the queue is empty
  | .emptyState _ => Trying u id ph w ∧ EmptySince id w
  | .emptyTail _ _ => Trying u id ph w ∧ EmptySince id w
  | .emptyStillPending _ s => Trying u id ph w ∧ EmptySince id w ∧ s.Ok u w
  | .emptyPhaseState _ => Trying u id ph w ∧ EmptySince id w
  | .emptyPhase _ d => Trying u id ph w ∧ EmptySince id w ∧ d ∈ w.ghost.used ∧
    w.shared.desc d = w.shared.descOf u
  | .emptyInitDesc _ p => Trying u id ph w ∧ EmptySince id w ∧ p = ph
  | .emptyCas _ d => Trying u id ph w ∧ EmptySince id w ∧
    OwnDesc u d (.init ph false .dequeue 0) w.shared w.ghost
  | .finishEnq s => Trying u id ph w ∧ s.Ok u w
  -- the queue is not empty
  | .loadState x => Trying u id ph w ∧ ∃ j, Filled j x w
  | .loadNode x cur => Trying u id ph w ∧ (∃ j, Filled j x w) ∧ cur.value ∈ w.ghost.used ∧
    w.shared.desc cur.value = w.shared.descOf u
  | .stillPending x _ nd s => Trying u id ph w ∧ (∃ j, Filled j x w) ∧
    nd = (w.shared.descOf u).node ∧ s.Ok u w
  | .checkNode x _ nd => Trying u id ph w ∧ (∃ j, Filled j x w) ∧ nd = (w.shared.descOf u).node
  | .loadPhaseState x _ => Trying u id ph w ∧ ∃ j, Filled j x w
  | .loadPhase x _ d => Trying u id ph w ∧ (∃ j, Filled j x w) ∧ d ∈ w.ghost.used ∧
    w.shared.desc d = w.shared.descOf u
  | .initDesc x _ p => Trying u id ph w ∧ (∃ j, Filled j x w) ∧ p = ph
  | .casState x _ d => Trying u id ph w ∧ (∃ j, Filled j x w) ∧
    OwnDesc u d (.init ph true .dequeue x.value) w.shared w.ghost
  | .casHead x => Trying u id ph w ∧ ∃ j, Filled j x w ∧
    (Passed j w ∨ (w.shared.descOf u).node = x.value)
  | .finish s => Trying u id ph w ∧ s.Ok u 0 w ∨ ∃ j, Stamped u id j w ∧ s.Ok u (j + 1) w

theorem HelpDeq.Ok.later {s : HelpDeq} (hs : s.Ok u id ph w) (h : Later u w w')
    (hp : Private u w.shared w.ghost w'.ghost) (hu : u < c.numThreads) (ht : u ≠ kTidNotSet) :
    s.Ok u id ph w' := by
  -- the own descriptor is the same
  have hread : ∀ {d}, Trying u id ph w → d ∈ w.ghost.used ∧ w.shared.desc d = w.shared.descOf u →
      d ∈ w'.ghost.used ∧ w'.shared.desc d = w'.shared.descOf u := fun hf hd =>
    ⟨h.used hd.1, by rw [h.desc hd.1, hf.own h hu, hd.2]⟩
  have hfill : ∀ {x}, (∃ j, Filled j x w) → ∃ j, Filled j x w' := fun ⟨j, hj⟩ => ⟨j, hj.later h⟩
  cases s with
  | loop s =>
    obtain ⟨hf, hs⟩ := hs
    refine ⟨hf.imp (fun hf => hf.later h hu ht) fun hd => hd.later h hu ht, hs.later h.toNext ?_⟩
    exact hf.elim (fun hf => hf.own h hu) fun hd => hd.own h hu
  | loadHead => exact Trying.later hs h hu ht
  | loadTail x =>
    obtain ⟨hf, j, hx⟩ := hs
    exact ⟨hf.later h hu ht, j, hx.later h⟩
  | loadNext x y =>
    obtain ⟨hf, j, he⟩ := hs
    exact ⟨hf.later h hu ht, j, he.later h⟩
  | checkHead x y nx =>
    obtain ⟨hf, j, he, hn⟩ := hs
    exact ⟨hf.later h hu ht, j, he.later h, hn.later h⟩
  | emptyState y => exact ⟨hs.1.later h hu ht, hs.2.next h.toNext⟩
  | emptyTail y cur => exact ⟨hs.1.later h hu ht, hs.2.next h.toNext⟩
  | emptyStillPending cur s =>
    obtain ⟨hf, he, hs⟩ := hs
    exact ⟨hf.later h hu ht, he.next h.toNext, hs.later h.toNext (hf.own h hu)⟩
  | emptyPhaseState cur => exact ⟨hs.1.later h hu ht, hs.2.next h.toNext⟩
  | emptyPhase cur d =>
    obtain ⟨hf, he, hd⟩ := hs
    exact ⟨hf.later h hu ht, he.next h.toNext, hread hf hd⟩
  | emptyInitDesc cur p =>
    obtain ⟨hf, he, hph⟩ := hs
    exact ⟨hf.later h hu ht, he.next h.toNext, hph⟩
  | emptyCas cur d =>
    obtain ⟨hf, he, ho⟩ := hs
    exact ⟨hf.later h hu ht, he.next h.toNext, ho.later h hp⟩
  | finishEnq s => exact ⟨hs.1.later h hu ht, hs.2.later h hp⟩
  | loadState x => exact ⟨hs.1.later h hu ht, hfill hs.2⟩
  | loadNode x cur =>
    obtain ⟨hf, hx, hd⟩ := hs
    exact ⟨hf.later h hu ht, hfill hx, hread hf hd⟩
  | stillPending x cur nd s =>
    obtain ⟨hf, hx, hnd, hs⟩ := hs
    refine ⟨hf.later h hu ht, hfill hx, ?_, hs.later h.toNext (hf.own h hu)⟩
    rw [hf.own h hu]
    exact hnd
  | checkNode x cur nd =>
    obtain ⟨hf, hx, hnd⟩ := hs
    refine ⟨hf.later h hu ht, hfill hx, ?_⟩
    rw [hf.own h hu]
    exact hnd
  | loadPhaseState x cur => exact ⟨hs.1.later h hu ht, hfill hs.2⟩
  | loadPhase x cur d =>
    obtain ⟨hf, hx, hd⟩ := hs
    exact ⟨hf.later h hu ht, hfill hx, hread hf hd⟩
  | initDesc x cur p =>
    obtain ⟨hf, hx, hph⟩ := hs
    exact ⟨hf.later h hu ht, hfill hx, hph⟩
  | casState x cur d =>
    obtain ⟨hf, hx, ho⟩ := hs
    exact ⟨hf.later h hu ht, hfill hx, ho.later h hp⟩
  | casHead x =>
    obtain ⟨hf, j, hx, hnd⟩ := hs
    refine ⟨hf.later h hu ht, j, hx.later h, hnd.imp (fun hp => hp.later h hx.head.le) ?_⟩
    rw [hf.own h hu]
    exact fun hnd => hnd
  | finish s =>
    exact hs.imp (fun ⟨hf, hs⟩ => ⟨hf.later h hu ht, hs.later h hp⟩)
      fun ⟨j, hst, hs⟩ => ⟨j, hst.later h hu, hs.later h hp⟩

/-- What is known after an access of `help_deq`. -/
def HelpDeq.After (u id : ℕ) (ph : ℤ) (w : World (machine α c) Ghost) : Option HelpDeq → Prop
  | some s => s.Ok u id ph w
  | none => Done u id w

/-- A thread replaces its own descriptor before anything was done for its call. -/
theorem Free.publish_ok {D : OperationDescriptor} {aba : ℕ} (hI : Inv w.trace w.shared w.ghost)
    (hf : Free u id w) (ho : OwnDesc u d D w.shared w.ghost) (hph : 0 ≤ D.phase)
    (hnode : D.node = 0 ∨ ∃ j ≤ w.ghost.head, w.ghost.chain[j]? = some D.node) :
    StepOk u w (w.shared.setState u ⟨d, aba⟩) fun w' => Next w w' ∧ Free u id w' ∧
      w'.shared.descOf u = D ∧ (∀ {j x}, Filled j x w → Filled j x w') := by
  have hk : Keeps u w.trace w.shared w.ghost (w.shared.setState u ⟨d, aba⟩)
      (w.ghost.publish d) :=
    hI.publish ho ⟨by omega, fun _ => hph⟩ (fun _ => hnode) (fun h => absurd h hf.quiet)
      fun h => absurd rfl h
  refine ⟨_, hk, rfl, fun e => ⟨.of_keeps hI hk, ⟨(Next.of_keeps hI hk).call hf.call, hf.quiet,
    hf.free⟩, ho.descOf, fun hx => ⟨⟨hx.head.link, hx.head.le, hx.head.stays, hx.head.lt⟩, hx.lt⟩⟩⟩

theorem Trying.phase_nonneg (hf : Trying u id ph w) (hI : Inv w.trace w.shared w.ghost)
    (hu : u < c.numThreads) : 0 ≤ ph := by
  rw [← hf.phase]
  exact (hI.phase _ (hI.state u hu)).2 hf.pending

/-- The empty queue is reported. -/
theorem Trying.empty_ok {aba : ℕ} (hI : Inv w.trace w.shared w.ghost) (hu : u < c.numThreads)
    (hf : Trying u id ph w) (he : EmptySince id w)
    (ho : OwnDesc u d (.init ph false .dequeue 0) w.shared w.ghost) :
    StepOk u w (w.shared.setState u ⟨d, aba⟩) fun w' => Done u id w' := by
  refine (hf.toFree.publish_ok hI ho (hf.phase_nonneg hI hu) (Or.inl rfl)).mono
    fun w' _ ⟨hn, hf', hD, _⟩ => ⟨hf'.call, hf'.quiet, ?_, Or.inl ⟨?_, hf'.free, he.next hn⟩⟩
  · rw [hD]
    rfl
  · rw [hD]
    rfl

/-- Head's node is shown by the descriptor. -/
theorem Trying.show_ok {x : AtomicPointer} {aba : ℕ} (hI : Inv w.trace w.shared w.ghost)
    (hu : u < c.numThreads) (hf : Trying u id ph w) (hx : Filled j x w)
    (ho : OwnDesc u d (.init ph true .dequeue x.value) w.shared w.ghost) :
    StepOk u w (w.shared.setState u ⟨d, aba⟩) fun w' => Trying u id ph w' ∧ Filled j x w' ∧
      (w'.shared.descOf u).node = x.value := by
  refine (hf.toFree.publish_ok hI ho (hf.phase_nonneg hI hu)
    (Or.inr ⟨j, hx.head.le, hx.head.link⟩)).mono fun w' _ ⟨hn, hf', hD, hfill⟩ =>
      ⟨⟨hf', ?_, ?_, ?_⟩, hfill hx, ?_⟩ <;> rw [hD] <;> rfl

/-- Head is stamped. -/
theorem Trying.stamp_ok {x : AtomicPointer} (hI : Inv w.trace w.shared w.ghost)
    (hu : u < c.numThreads) (ht : u ≠ kTidNotSet) (ho : Open (history w.trace) u id .dequeue)
    (hf : Trying u id ph w) (hx : Filled j x w)
    (hnd : Passed j w ∨ (w.shared.descOf u).node = x.value)
    (hhead : w.shared.head = ⟨x.value, kTidNotSet⟩) :
    StepOk u w { w.shared with head := ⟨x.value, u⟩ } fun w' => Stamped u id j w' ∧
      j + 1 ≤ w'.ghost.takers.length := by
  have hvalue : w.shared.head.value = x.value := by rw [hhead]
  have haba : w.shared.head.aba = kTidNotSet := by rw [hhead]
  obtain rfl := hx.head.eq_head hI hvalue
  have hnode : (w.shared.descOf u).node = x.value :=
    hnd.resolve_left fun hp => hp.elim (lt_irrefl _) fun hne => hne haba
  have hlen : w.ghost.takers.length = w.ghost.head := by
    rw [hI.takers, if_pos haba, Nat.add_zero]
  have hk := hI.stamp hu ht haba hx.lt hf.type (by rw [hnode, hvalue]) ho hf.free
  rw [hvalue] at hk
  refine ⟨_, hk, rfl, fun e => ⟨⟨(Next.of_keeps hI hk).call hf.call, ?_, ?_,
    fun h => absurd h (lt_irrefl _)⟩, ?_⟩⟩
  · show (w.ghost.takers ++ [id])[w.ghost.head]? = some id
    rw [← hlen, List.getElem?_concat_length]
  · show w.ghost.chain[w.ghost.head]? = some (w.shared.descOf u).node
    rw [hnode]
    exact hx.head.link
  · show w.ghost.head + 1 ≤ (w.ghost.takers ++ [id]).length
    rw [List.length_append, List.length_singleton, hlen]

/-- A dequeue for which head was stamped is done once head has left the node. -/
theorem Stamped.done_of_lt (hs : Stamped u id j w) {tr : List (Moment (machine α c))}
    (hI : Inv tr w.shared w.ghost) (ht : u ≠ kTidNotSet)
    (hrun : ∀ i op, Open (history tr) u i op → i = id) (hj : j < w.ghost.head) : Done u id w := by
  refine ⟨hs.call, fun hq => ?_, hs.done hj, Or.inr ⟨j, hj, hs.node, hs.taker⟩⟩
  -- head would be stamped twice for the call
  obtain ⟨-, -, -, -, i, hi, ho⟩ := hI.stamped (hq ▸ ht)
  rw [hq] at ho
  obtain rfl := hrun i _ ho
  have := (List.getElem?_inj (Chain.lt_length hi) hI.takers_nodup).mp (hi.trans hs.taker.symm)
  omega

theorem HelpDeq.step_ok {s : HelpDeq} (hI : Inv w.trace w.shared w.ghost)
    (hu : u < c.numThreads) (ht : u ≠ kTidNotSet)
    (hr : Running (history w.trace) u id .dequeue) (hs : s.Ok u id ph w) :
    StepOk u w (s.step w.shared u ph).1
      fun w' => HelpDeq.After u id ph w' (s.step w.shared u ph).2 := by
  -- an access that only reads
  have hgo : ∀ s' : HelpDeq, s'.Ok u id ph w →
      StepOk u w w.shared fun w' => HelpDeq.After u id ph w' (some s') := fun s' hs' =>
    .read hI fun w' h hp => hs'.later h hp hu ht
  have hloop : Trying u id ph w → StepOk u w w.shared fun w' =>
      HelpDeq.After u id ph w' (some (.loop .loadPendingState)) := fun hf =>
    hgo _ ⟨Or.inl hf, trivial⟩
  cases s with
  | loop s =>
    obtain ⟨hf, hs⟩ := hs
    rcases hf with hf | hd
    · have hafter := Still.step_ok hI hu (fun _ => hf.phase) hs
      rcases hst : s.step w.shared u ph with s' | b
      · rw [hst] at hafter
        simp only [HelpDeq.step, hst]
        exact hgo _ ⟨Or.inl hf, hafter⟩
      · rw [hst] at hafter
        obtain rfl : true = b := hf.pending.symm.trans hafter
        simp only [HelpDeq.step, hst]
        exact hgo _ hf
    · have hafter : Still.After u w (s.step w.shared u ph) :=
        Still.step_ok hI hu (fun hp => by cases hd.done.symm.trans hp) hs
      rcases hst : s.step w.shared u ph with s' | b
      · rw [hst] at hafter
        simp only [HelpDeq.step, hst]
        exact hgo _ ⟨Or.inr hd, hafter⟩
      · rw [hst] at hafter
        obtain rfl : false = b := hd.done.symm.trans hafter
        simp only [HelpDeq.step, hst]
        exact .read hI fun w' h _ => hd.later h hu ht
  | loadHead => exact hgo _ ⟨hs, _, hI.headRead⟩
  | loadTail x =>
    obtain ⟨hf, j, hx⟩ := hs
    exact hgo _ ⟨hf, j, hx, ⟨hI.tail, le_rfl⟩, hx.le.trans hI.head_le⟩
  | loadNext x y =>
    obtain ⟨hf, j, he⟩ := hs
    refine .now hI fun e => ?_
    have h : Later u w (w.record e w.shared w.ghost) :=
      .of_keeps hI (Keeps.refl hI u) (Others.refl u ..)
    exact ⟨hf.later h hu ht, j, he.later h, he.nextRead hI hf.le e⟩
  | checkHead x y nx =>
    obtain ⟨hf, j, he, hn⟩ := hs
    simp only [HelpDeq.step]
    split_ifs with h1 h2 h3
    · exact hgo _ ⟨hf, hn.empty h3⟩
    · exact hgo _ ⟨hf, trivial⟩
    · exact hgo _ ⟨hf, j, he.filled h2⟩
    · exact hloop hf
  | emptyState y => exact hgo _ hs
  | emptyTail y cur =>
    obtain ⟨hf, he⟩ := hs
    simp only [HelpDeq.step]
    split_ifs with h1
    · exact hgo _ ⟨hf, he, trivial⟩
    · exact hloop hf
  | emptyStillPending cur s =>
    obtain ⟨hf, he, hs⟩ := hs
    have hafter := Still.step_ok hI hu (fun _ => hf.phase) hs
    rcases hst : s.step w.shared u ph with s' | b
    · rw [hst] at hafter
      simp only [HelpDeq.step, hst]
      exact hgo _ ⟨hf, he, hafter⟩
    · rw [hst] at hafter
      obtain rfl : true = b := hf.pending.symm.trans hafter
      simp only [HelpDeq.step, hst]
      exact hgo _ ⟨hf, he⟩
  | emptyPhaseState cur =>
    obtain ⟨hf, he⟩ := hs
    exact hgo _ ⟨hf, he, hI.state u hu, rfl⟩
  | emptyPhase cur d =>
    obtain ⟨hf, he, -, heq⟩ := hs
    exact hgo _ ⟨hf, he, by rw [heq, hf.phase]⟩
  | emptyInitDesc cur p =>
    obtain ⟨hf, he, rfl⟩ := hs
    exact .newDesc hI _ fun w' h ho => ⟨hf.later h hu ht, he.next h.toNext, ho⟩
  | emptyCas cur d =>
    obtain ⟨hf, he, ho⟩ := hs
    simp only [HelpDeq.step]
    split_ifs with hst
    · exact (hf.empty_ok hI hu he ho).mono fun w' _ hd => ⟨Or.inr hd, trivial⟩
    · exact hloop hf
  | finishEnq s =>
    obtain ⟨hf, hs⟩ := hs
    refine (FinishEnq.step_ok hI hs).mono fun w' _ hq => ?_
    simp only [HelpDeq.step]
    cases hst : (s.step w.shared).2 with
    | some s' =>
      rw [hst] at hq
      exact ⟨hf.later hq.1 hu ht, hq.2⟩
    | none => exact ⟨Or.inl (hf.later hq.1 hu ht), trivial⟩
  | loadState x =>
    obtain ⟨hf, hx⟩ := hs
    exact hgo _ ⟨hf, hx, hI.state u hu, rfl⟩
  | loadNode x cur =>
    obtain ⟨hf, hx, -, heq⟩ := hs
    exact hgo _ ⟨hf, hx, by rw [heq], trivial⟩
  | stillPending x cur nd s =>
    obtain ⟨hf, hx, hnd, hs⟩ := hs
    have hafter := Still.step_ok hI hu (fun _ => hf.phase) hs
    rcases hst : s.step w.shared u ph with s' | b
    · rw [hst] at hafter
      simp only [HelpDeq.step, hst]
      exact hgo _ ⟨hf, hx, hnd, hafter⟩
    · rw [hst] at hafter
      obtain rfl : true = b := hf.pending.symm.trans hafter
      simp only [HelpDeq.step, hst]
      exact hgo _ ⟨hf, hx, hnd⟩
  | checkNode x cur nd =>
    obtain ⟨hf, ⟨j, hx⟩, rfl⟩ := hs
    simp only [HelpDeq.step]
    split_ifs with hc
    · exact hgo _ ⟨hf, j, hx⟩
    · refine hgo _ ⟨hf, j, hx, ?_⟩
      rcases not_and_or.mp hc with hne | heq
      · exact Or.inl (hx.head.passed hI hne)
      · exact Or.inr (not_not.mp heq)
  | loadPhaseState x cur =>
    obtain ⟨hf, hx⟩ := hs
    exact hgo _ ⟨hf, hx, hI.state u hu, rfl⟩
  | loadPhase x cur d =>
    obtain ⟨hf, hx, -, heq⟩ := hs
    exact hgo _ ⟨hf, hx, by rw [heq, hf.phase]⟩
  | initDesc x cur p =>
    obtain ⟨hf, ⟨j, hx⟩, rfl⟩ := hs
    exact .newDesc hI _ fun w' h ho => ⟨hf.later h hu ht, ⟨j, hx.later h⟩, ho⟩
  | casState x cur d =>
    obtain ⟨hf, ⟨j, hx⟩, ho⟩ := hs
    simp only [HelpDeq.step]
    split_ifs with hst
    · exact (hf.show_ok hI hu hx ho).mono fun w' _ ⟨hf', hx', hnd⟩ => ⟨hf', j, hx', Or.inr hnd⟩
    · exact hloop hf
  | casHead x =>
    obtain ⟨hf, j, hx, hnd⟩ := hs
    simp only [HelpDeq.step]
    split_ifs with hhead
    · exact (hf.stamp_ok hI hu ht hr.1.open hx hnd hhead).mono fun w' _ hst => Or.inr ⟨j, hst⟩
    · exact hgo _ (Or.inl ⟨hf, Nat.zero_le _⟩)
  | finish s =>
    rcases hs with ⟨hf, hs⟩ | ⟨j, hst, hs⟩
    · refine (FinishDeq.step_ok hI hs).mono fun w' _ hq => ?_
      simp only [HelpDeq.step]
      cases hst : (s.step w.shared).2 with
      | some s' =>
        rw [hst] at hq
        exact Or.inl ⟨hf.later hq.1 hu ht, hq.2⟩
      | none => exact ⟨Or.inl (hf.later hq.1 hu ht), trivial⟩
    · refine (FinishDeq.step_ok hI hs).mono fun w' hI' hq => ?_
      have hst' := hst.later hq.1 hu
      simp only [HelpDeq.step]
      cases hres : (s.step w.shared).2 with
      | some s' =>
        rw [hres] at hq
        exact Or.inr ⟨j, hst', hq.2⟩
      | none =>
        rw [hres] at hq
        exact ⟨Or.inr (hst'.done_of_lt hI' ht hr.2 hq.2), trivial⟩

/-! #### The results -/

/-- The value that the dequeue `id` gets is that of the node `nx`. -/
def TakesItem (id nx : ℕ) (w : World (machine α c) Ghost) : Prop :=
  ∃ j < w.ghost.head, w.ghost.chain[j + 1]? = some nx ∧ w.ghost.takers[j]? = some id

theorem TakesItem.next (ht : TakesItem id nx w) (h : Next w w') : TakesItem id nx w' := by
  obtain ⟨j, hj, hget, hid⟩ := ht
  exact ⟨j, hj.trans_le h.mono.head, h.link hget, Chain.getElem?_mono h.mono.takers hid⟩

/-- What the result of the dequeue `id` says. -/
def Dequeued (id : ℕ) (w : World (machine α c) Ghost) (r : QueueRet α) : Prop :=
  r = .dequeued none ∧ id ∉ w.ghost.takers ∧ EmptySince id w ∨
    ∃ nx, r = .dequeued (some (w.shared.node nx).data) ∧ TakesItem id nx w

/-- The value behind a node that head has passed is that of the next node. -/
theorem Takes.item {p : ℕ} (ht : Takes id p w) (hI : Inv w.trace w.shared w.ghost) :
    TakesItem id (w.shared.node p).next.value w := by
  obtain ⟨j, hj, hget, hid⟩ := ht
  have hlt := hI.head_lt
  refine ⟨j, hj, hI.chain.next_some hget fun h0 => ?_, hid⟩
  have := (hI.chain.next_eq_zero hget).mp h0
  omega

/-! #### The fast path -/

/-- Head was `x`, and the value of the node `nx` behind may be taken if it still is. -/
structure Takable (j : ℕ) (x : AtomicPointer) (nx : ℕ) (w : World (machine α c) Ghost) : Prop
    extends Filled j x w where
  next : w.ghost.chain[j + 1]? = some nx

theorem Takable.later {x : AtomicPointer} (hx : Takable j x nx w) (h : Later u w w') :
    Takable j x nx w' :=
  ⟨hx.toFilled.later h, h.toNext.link hx.next⟩

/-- Head was not stamped, or it has left the node. -/
def Unstamped (j : ℕ) (x : AtomicPointer) (w : World (machine α c) Ghost) : Prop :=
  x.aba = kTidNotSet ∨ j < w.ghost.head

theorem Unstamped.later {x : AtomicPointer} (hx : Unstamped j x w) (h : Later u w w') :
    Unstamped j x w' :=
  hx.imp_right fun hj => hj.trans_le h.mono.head

def FastDeq.Ok (u id : ℕ) (w : World (machine α c) Ghost) : FastDeq α → Prop
  | .loadHead => Free u id w
  | .loadTail x => Free u id w ∧ ∃ j, HeadRead j x w
  | .loadNext x y => Free u id w ∧ ∃ j, EndsRead j x y w
  | .checkHead x y nx => Free u id w ∧ ∃ j, EndsRead j x y w ∧ NextRead id j y nx w
  | .fixTail s => Free u id w ∧ s.Ok u w
  | .checkAba x nx => Free u id w ∧ ∃ j, Takable j x nx w
  | .loadData x nx => Free u id w ∧ ∃ j, Takable j x nx w ∧ Unstamped j x w
  | .casHead x nx item => Free u id w ∧ ∃ j, Takable j x nx w ∧ Unstamped j x w ∧
    item = (w.shared.node nx).data
  | .finish s => Free u id w ∧ s.Ok u 0 w

theorem FastDeq.Ok.later {s : FastDeq α} (hs : s.Ok u id w) (h : Later u w w')
    (hp : Private u w.shared w.ghost w'.ghost) (ht : u ≠ kTidNotSet) : s.Ok u id w' := by
  cases s with
  | loadHead => exact Free.later hs h ht
  | loadTail x =>
    obtain ⟨hf, j, hx⟩ := hs
    exact ⟨hf.later h ht, j, hx.later h⟩
  | loadNext x y =>
    obtain ⟨hf, j, he⟩ := hs
    exact ⟨hf.later h ht, j, he.later h⟩
  | checkHead x y nx =>
    obtain ⟨hf, j, he, hn⟩ := hs
    exact ⟨hf.later h ht, j, he.later h, hn.later h⟩
  | fixTail s => exact ⟨hs.1.later h ht, hs.2.later h hp⟩
  | checkAba x nx =>
    obtain ⟨hf, j, hx⟩ := hs
    exact ⟨hf.later h ht, j, hx.later h⟩
  | loadData x nx =>
    obtain ⟨hf, j, hx, hn⟩ := hs
    exact ⟨hf.later h ht, j, hx.later h, hn.later h⟩
  | casHead x nx item =>
    obtain ⟨hf, j, hx, hn, hitem⟩ := hs
    refine ⟨hf.later h ht, j, hx.later h, hn.later h, ?_⟩
    rw [(h.mono.node nx (h.inv.lt_alloc hx.next)).1]
    exact hitem
  | finish s => exact ⟨hs.1.later h ht, hs.2.later h hp⟩

/-- What is known after an access of an iteration. -/
def FastDeq.After (u id : ℕ) (w : World (machine α c) Ghost) :
    FastDeq α ⊕ Option (QueueRet α) → Prop
  | .inl s => s.Ok u id w
  | .inr (some r) => w.shared.head.aba ≠ u ∧ Dequeued id w r
  | .inr none => Free u id w

/-- Head is moved. -/
theorem Takable.casHead_ok {x : AtomicPointer} (hI : Inv w.trace w.shared w.ghost)
    (ht : u ≠ kTidNotSet) (ho : Open (history w.trace) u id .dequeue) (hf : Free u id w)
    (hx : Takable j x nx w) (hn : Unstamped j x w) (hhead : w.shared.head = x) :
    StepOk u w { w.shared with head := ⟨nx, kTidNotSet⟩ } fun w' => w'.shared.head.aba ≠ u ∧
      Dequeued id w' (.dequeued (some (w.shared.node nx).data)) := by
  obtain rfl := hx.head.eq_head hI (by rw [hhead])
  have haba : w.shared.head.aba = kTidNotSet := by
    rw [hhead]
    exact hn.resolve_right (lt_irrefl _)
  have hlen : w.ghost.takers.length = w.ghost.head := by
    rw [hI.takers, if_pos haba, Nat.add_zero]
  have hk := hI.moveFast haba hx.lt hx.next ho hf.free
  refine ⟨_, hk, rfl, fun e => ⟨ht.symm, Or.inr ⟨nx, rfl, w.ghost.head, Nat.lt_succ_self _,
    hx.next, ?_⟩⟩⟩
  show (w.ghost.takers ++ [id])[w.ghost.head]? = some id
  rw [← hlen, List.getElem?_concat_length]

theorem FastDeq.step_ok {s : FastDeq α} (hI : Inv w.trace w.shared w.ghost) (ht : u ≠ kTidNotSet)
    (ho : Open (history w.trace) u id .dequeue) (hs : s.Ok u id w) :
    StepOk u w (s.step w.shared).1 fun w' => FastDeq.After u id w' (s.step w.shared).2 := by
  -- an access that only reads
  have hgo : ∀ s' : FastDeq α, s'.Ok u id w →
      StepOk u w w.shared fun w' => FastDeq.After u id w' (.inl s') := fun s' hs' =>
    .read hI fun w' h hp => hs'.later h hp ht
  have hend : Free u id w →
      StepOk u w w.shared fun w' => FastDeq.After u id w' (.inr none) := fun hf =>
    .read hI fun w' h _ => hf.later h ht
  cases s with
  | loadHead => exact hgo _ ⟨hs, _, hI.headRead⟩
  | loadTail x =>
    obtain ⟨hf, j, hx⟩ := hs
    exact hgo _ ⟨hf, j, hx, ⟨hI.tail, le_rfl⟩, hx.le.trans hI.head_le⟩
  | loadNext x y =>
    obtain ⟨hf, j, he⟩ := hs
    refine .now hI fun e => ?_
    have h : Later u w (w.record e w.shared w.ghost) :=
      .of_keeps hI (Keeps.refl hI u) (Others.refl u ..)
    exact ⟨hf.later h ht, j, he.later h, he.nextRead hI hf.le e⟩
  | checkHead x y nx =>
    obtain ⟨hf, j, he, hn⟩ := hs
    simp only [FastDeq.step]
    split_ifs with h1 h2 h3
    · refine .read hI fun w' h _ => ?_
      have hf' := hf.later h ht
      exact ⟨hf'.quiet, Or.inl ⟨rfl, hf'.free, (hn.empty h3).next h.toNext⟩⟩
    · refine hgo _ ⟨hf, he.tail, ?_⟩
      rw [← he.eq hI h2]
      exact hn.link h3
    · exact hgo _ ⟨hf, j, he.filled h2, hn.link (hn.filled (he.lt h2))⟩
    · exact hend hf
  | fixTail s =>
    obtain ⟨hf, hs⟩ := hs
    refine (FixTail.step_ok hI hs).mono fun w' _ hq => ?_
    simp only [FastDeq.step]
    cases hst : (s.step w.shared).2 with
    | some s' =>
      rw [hst] at hq
      exact ⟨hf.later hq.1 ht, hq.2⟩
    | none => exact hf.later hq.1 ht
  | checkAba x nx =>
    obtain ⟨hf, j, hx⟩ := hs
    simp only [FastDeq.step]
    split_ifs with haba
    · refine hgo _ ⟨hf, j, hx, ?_⟩
      by_cases hset : x.aba = kTidNotSet
      · exact Or.inl hset
      · refine Or.inr (lt_of_le_of_ne hx.head.le fun hj => hset ?_)
        rw [← hx.head.stays hj hset]
        exact haba
    · exact hgo _ ⟨hf, Nat.zero_le _⟩
  | loadData x nx =>
    obtain ⟨hf, j, hx, hn⟩ := hs
    exact hgo _ ⟨hf, j, hx, hn, rfl⟩
  | casHead x nx item =>
    obtain ⟨hf, j, hx, hn, rfl⟩ := hs
    simp only [FastDeq.step]
    split_ifs with hhead
    · exact hx.casHead_ok hI ht ho hf hn hhead
    · exact hend hf
  | finish s =>
    obtain ⟨hf, hs⟩ := hs
    refine (FinishDeq.step_ok hI hs).mono fun w' _ hq => ?_
    simp only [FastDeq.step]
    cases hst : (s.step w.shared).2 with
    | some s' =>
      rw [hst] at hq
      exact ⟨hf.later hq.1 ht, hq.2⟩
    | none => exact hf.later hq.1 ht

/-! #### The slow path -/

def WfDeq.Ok (u id : ℕ) (w : World (machine α c) Ghost) : WfDeq → Prop
  | .loadState => Free u id w
  | .loadPhase d => Free u id w ∧ d ∈ w.ghost.used
  | .initDesc ph => Free u id w ∧ 0 ≤ ph
  | .loadAba ph d => Free u id w ∧ 0 ≤ ph ∧
    OwnDesc u d (.init ph true .dequeue 0) w.shared w.ghost
  | .setState ph d _ => Free u id w ∧ 0 ≤ ph ∧
    OwnDesc u d (.init ph true .dequeue 0) w.shared w.ghost
  | .help ph s => s.Ok u id ph w
  | .finish s => Done u id w ∧ s.Ok u 0 w
  | .loadNodeState => Done u id w
  | .loadNode d => Done u id w ∧ d ∈ w.ghost.used ∧ w.shared.desc d = w.shared.descOf u
  | .loadNext p => Done u id w ∧ Takes id p w
  | .loadData nx => Done u id w ∧ TakesItem id nx w

theorem WfDeq.Ok.later {s : WfDeq} (hs : s.Ok u id w) (h : Later u w w')
    (hp : Private u w.shared w.ghost w'.ghost) (hu : u < c.numThreads) (ht : u ≠ kTidNotSet) :
    s.Ok u id w' := by
  cases s with
  | loadState => exact Free.later hs h ht
  | loadPhase d => exact ⟨hs.1.later h ht, h.used hs.2⟩
  | initDesc ph => exact ⟨hs.1.later h ht, hs.2⟩
  | loadAba ph d => exact ⟨hs.1.later h ht, hs.2.1, hs.2.2.later h hp⟩
  | setState ph d aba => exact ⟨hs.1.later h ht, hs.2.1, hs.2.2.later h hp⟩
  | help ph s => exact HelpDeq.Ok.later hs h hp hu ht
  | finish s => exact ⟨hs.1.later h hu ht, hs.2.later h hp⟩
  | loadNodeState => exact Done.later hs h hu ht
  | loadNode d =>
    obtain ⟨hd, hused, heq⟩ := hs
    exact ⟨hd.later h hu ht, h.used hused, by rw [h.desc hused, hd.own h hu, heq]⟩
  | loadNext p => exact ⟨hs.1.later h hu ht, hs.2.next h.toNext⟩
  | loadData nx => exact ⟨hs.1.later h hu ht, hs.2.next h.toNext⟩

/-- What is known after an access of `wf_deq`. -/
def WfDeq.After (u id : ℕ) (w : World (machine α c) Ghost) : WfDeq ⊕ QueueRet α → Prop
  | .inl s => s.Ok u id w
  | .inr r => w.shared.head.aba ≠ u ∧ Dequeued id w r

theorem WfDeq.step_ok {s : WfDeq} (hI : Inv w.trace w.shared w.ghost) (hu : u < c.numThreads)
    (ht : u ≠ kTidNotSet) (hr : Running (history w.trace) u id .dequeue) (hs : s.Ok u id w) :
    StepOk u w (s.step u w.shared).1 fun w' => WfDeq.After u id w' (s.step u w.shared).2 := by
  -- an access that only reads
  have hgo : ∀ s' : WfDeq, s'.Ok u id w →
      StepOk u w w.shared fun w' => WfDeq.After u id w' (.inl s') := fun s' hs' =>
    .read hI fun w' h hp => hs'.later h hp hu ht
  cases s with
  | loadState => exact hgo _ ⟨hs, hI.state u hu⟩
  | loadPhase d =>
    obtain ⟨hf, hd⟩ := hs
    refine hgo _ ⟨hf, ?_⟩
    have := (hI.phase d hd).1
    omega
  | initDesc ph =>
    obtain ⟨hf, hph⟩ := hs
    exact .newDesc hI _ fun w' h hd => ⟨hf.later h ht, hph, hd⟩
  | loadAba ph d => exact hgo _ hs
  | setState ph d aba =>
    obtain ⟨hf, hph, hd⟩ := hs
    refine (hf.publish_ok hI hd hph (Or.inl rfl)).mono
      fun w' _ ⟨_, hf', hD, _⟩ => ⟨Or.inl ⟨hf', ?_, ?_, ?_⟩, trivial⟩ <;> rw [hD] <;> rfl
  | help ph s =>
    refine (HelpDeq.step_ok hI hu ht hr hs).mono fun w' _ hq => ?_
    simp only [WfDeq.step]
    cases hst : (s.step w.shared u ph).2 with
    | some s' =>
      rw [hst] at hq
      exact hq
    | none =>
      rw [hst] at hq
      exact ⟨hq, Nat.zero_le _⟩
  | finish s =>
    obtain ⟨hd, hs⟩ := hs
    refine (FinishDeq.step_ok hI hs).mono fun w' _ hq => ?_
    simp only [WfDeq.step]
    cases hst : (s.step w.shared).2 with
    | some s' =>
      rw [hst] at hq
      exact ⟨hd.later hq.1 hu ht, hq.2⟩
    | none => exact hd.later hq.1 hu ht
  | loadNodeState => exact hgo _ ⟨hs, hI.state u hu, rfl⟩
  | loadNode d =>
    obtain ⟨hd, -, heq⟩ := hs
    simp only [WfDeq.step, heq]
    split_ifs with h0
    · refine .read hI fun w' h _ => ?_
      have hd' := hd.later h hu ht
      rcases hd.result with ⟨-, hfree, he⟩ | ⟨j, -, hget, -⟩
      · exact ⟨hd'.quiet, Or.inl ⟨rfl, mt (h.others.taken id _ hd.call) hfree, he.next h.toNext⟩⟩
      · exact absurd h0 (hI.chain.ne_zero hget)
    · refine hgo _ ⟨hd, hd.result.resolve_left fun h => h0 h.1⟩
  | loadNext p =>
    obtain ⟨hd, hk⟩ := hs
    exact hgo _ ⟨hd, hk.item hI⟩
  | loadData nx =>
    obtain ⟨hd, hk⟩ := hs
    have hlt : nx < w.shared.alloc := by
      obtain ⟨j, -, hget, -⟩ := hk
      exact hI.lt_alloc hget
    refine .read hI fun w' h _ => ⟨(hd.later h hu ht).quiet, Or.inr ⟨nx, ?_, hk.next h.toNext⟩⟩
    rw [(h.mono.node nx hlt).1]

end Dequeue

end WfQueuePpopp12

/-
What a thread of the wait-free queue knows at each access, and that it stays true.

Every assertion survives every step of every other thread (`Later`).  An assertion about the
descriptor of another thread is one about the word that was read of `state_`: it holds as long
as `state_` still has this word, and this is what the next `cas` compares.

* `Helping` — the call that a thread helps: if the descriptor's phase is not above its own,
  then it is still one of this call;
* `Still.Ok`, `FinishEnqueue.Ok`, `FinishDequeue.Ok`, `HelpEnqueue.Ok`, `HelpDequeue.Ok` and
  `Help.Ok` — the assertions of the functions.
-/
import Scal.WaitfreeQueueInvariant

open Interleave Linearizability

namespace WaitfreeQueue

variable {α : Type} [Inhabited α] {n : ℕ}

/-- The world `w'` may follow upon `w`, as thread `u` sees it. -/
structure Later (u : ℕ) (w w' : World (machine α n) Ghost) : Prop where
  inv : Inv w.trace w.shared w.ghost
  rely : Rely n u w.shared w.ghost w'.shared w'.ghost
  trace : w.trace <+: w'.trace

section Words

variable {w w' : World (machine α n) Ghost} {u t i c p d L J : ℕ} {x y cur : AtomicPointer}

/-- `tail_` once was this word. -/
def TailRead (w : World (machine α n) Ghost) (x : AtomicPointer) : Prop :=
  w.ghost.chain[x.aba]? = some x.value ∧ x.aba ≤ w.shared.tail.aba

/-- `head_` once was this word. -/
def HeadRead (w : World (machine α n) Ghost) (x : AtomicPointer) : Prop :=
  w.ghost.chain[x.aba]? = some x.value ∧ x.aba ≤ w.shared.head.aba

theorem Later.link (h : Later u w w') {k : ℕ} (hk : w.ghost.chain[k]? = some p) :
    w'.ghost.chain[k]? = some p := Chain.getElem?_mono h.rely.chain hk

theorem Later.length (h : Later u w w') : w.ghost.chain.length ≤ w'.ghost.chain.length :=
  h.rely.chain.length_le

theorem TailRead.later (hx : TailRead w x) (h : Later u w w') : TailRead w' x :=
  ⟨h.link hx.1, hx.2.trans h.rely.tail⟩

theorem HeadRead.later (hx : HeadRead w x) (h : Later u w w') : HeadRead w' x :=
  ⟨h.link hx.1, hx.2.trans h.rely.head⟩

theorem Later.enqTid (h : Later u w w') {k : ℕ} (hp : w.ghost.chain[k]? = some p) :
    (w'.shared.node p).enqTid = (w.shared.node p).enqTid :=
  (h.rely.node p (h.inv.lt_alloc hp)).2.1

theorem Later.deqTid (h : Later u w w') (hp : (w.shared.node p).deqTid ≠ kTidNotSet) :
    (w'.shared.node p).deqTid = (w.shared.node p).deqTid := by
  rcases h.rely.deqTid p with h | h
  · exact h
  · exact absurd h.1 hp

/-- A descriptor does not change once it is published. -/
theorem Later.desc (h : Later u w w') (hd : d ∈ w.ghost.used) :
    w'.shared.desc d = w.shared.desc d := h.rely.desc d (h.inv.used d hd)

theorem Later.used (h : Later u w w') (hd : d ∈ w.ghost.used) : d ∈ w'.ghost.used :=
  h.rely.used hd

/-- A word of `state_` that was replaced does not come back. -/
theorem Later.state_eq (h : Later u w w') (ht : t < n) (hcur : cur.value ∈ w.ghost.used)
    (hs : w'.shared.state t = cur) :
    w.shared.state t = cur ∧ w'.shared.descOf t = w.shared.descOf t ∧
      w'.ghost.cur t = w.ghost.cur t := by
  cases h.rely.state t ht with
  | same h1 h2 h3 => exact ⟨h1 ▸ hs, h2, h3⟩
  | helped h1 => exact absurd (hs ▸ hcur) h1
  | published h1 => exact absurd (hs ▸ hcur) h1

theorem OwnDesc.later {D : OperationDescriptor} (ho : OwnDesc u d D w.shared w.ghost)
    (h : Later u w w') (hp : Private u w.shared w.ghost w'.ghost) :
    OwnDesc u d D w'.shared w'.ghost := by
  obtain ⟨h1, h2⟩ := hp d ho.lt ho.owner ho.unused
  exact ⟨ho.lt.trans_le h.rely.descAlloc, (h.rely.desc d ho.lt).trans ho.desc, h1, h2⟩

/-- Phases grow. -/
theorem Later.phase_le (h : Later u w w') (ht : t < n) :
    (w.shared.descOf t).phase ≤ (w'.shared.descOf t).phase := by
  cases h.rely.state t ht with
  | same _ h1 => rw [h1]
  | helped _ _ h1 => exact h1.phase.ge
  | published _ _ _ _ h1 => exact h1.le

/-- The own call's descriptor is not replaced by that of another call. -/
theorem Later.own (h : Later u w w') (hu : u < n) :
    w'.shared.descOf u = w.shared.descOf u ∨
      DescStep w.shared w'.shared w.ghost (w.shared.descOf u) (w'.shared.descOf u) := by
  cases h.rely.state u hu with
  | same _ h1 => exact Or.inl h1
  | helped _ _ h1 => exact Or.inr h1
  | published _ _ h1 h2 => exact absurd (h.rely.cur.symm.trans h1) h2

theorem Later.own_done (h : Later u w w') (hu : u < n)
    (hd : (w.shared.descOf u).pending = false) : (w'.shared.descOf u).pending = false := by
  rcases h.own hu with h1 | h1
  · rw [h1]
    exact hd
  · exact (h1.done hd).1

theorem Later.own_phase (h : Later u w w') (hu : u < n) :
    (w'.shared.descOf u).phase = (w.shared.descOf u).phase := by
  rcases h.own hu with h1 | h1
  · rw [h1]
  · exact h1.phase

theorem Later.own_type (h : Later u w w') (hu : u < n) :
    (w'.shared.descOf u).type = (w.shared.descOf u).type := by
  rcases h.own hu with h1 | h1
  · rw [h1]
  · exact h1.type

/-! ### The call that is helped -/

/-- Thread `u`, whose call has phase `ph`, helps the call `c` of thread `i`. -/
structure Helping (u i c : ℕ) (ty : OperationType) (ph : ℤ) (w : World (machine α n) Ghost) :
    Prop where
  call : w.ghost.cur i = some c ∧ (w.shared.descOf i).type = ty ∨ ph < (w.shared.descOf i).phase
  -- the next call of thread `i` has a larger phase
  next : w.ghost.running i = c ∨ ph ≤ w.ghost.start i u
  le : c ≤ w.trace.length

theorem Helping.later {ty : OperationType} {ph : ℤ} (hh : Helping u i c ty ph w)
    (h : Later u w w') (hu : u < n) (hi : i < n) (hph : (w.shared.descOf u).phase = ph) :
    Helping u i c ty ph w' := by
  refine ⟨?_, ?_, hh.le.trans h.trace.length_le⟩
  · cases h.rely.state i hi with
    | same _ h1 h2 =>
      rw [h1, h2]
      exact hh.call
    | helped _ h1 h2 =>
      rw [h1, h2.phase, h2.type]
      exact hh.call
    | published _ _ h1 h2 h3 h4 =>
      right
      rcases hh.call with h5 | h5
      · rcases hh.next with h6 | h6
        · exact absurd (h6 ▸ h5.1) h2
        · exact h6.trans_lt (h4 u hu)
      · exact h5.trans h3
  · rcases h.rely.calls i with ⟨h1, h2⟩ | h1
    · rw [h1, h2]
      exact hh.next
    · right
      rw [h1 u, hph]

/-- Thread `i` has a pending enqueue whose node is not linked, or the chain has grown. -/
def Linkable (i : ℕ) (x : AtomicPointer) (w : World (machine α n) Ghost) : Prop :=
  x.aba + 1 < w.ghost.chain.length ∨ (w.shared.descOf i).pending = true ∧
    (w.shared.descOf i).type = .enqueue ∧ (w.shared.descOf i).node ∉ w.ghost.chain

theorem Linkable.later (hl : Linkable i x w) (h : Later u w w') (hi : i < n)
    (hx : TailRead w x) : Linkable i x w' := by
  rcases hl with hl | ⟨h1, h2, h3⟩
  · exact Or.inl (hl.trans_le h.length)
  · have hlt := Chain.lt_length hx.1
    rcases Nat.lt_or_ge (x.aba + 1) w'.ghost.chain.length with hlen | hlen
    · exact Or.inl hlen
    · have hchain : w'.ghost.chain = w.ghost.chain :=
        (h.rely.chain.eq_of_length (by have := h.length; omega)).symm
      right
      rw [hchain]
      cases h.rely.state i hi with
      | same _ h4 =>
        rw [h4]
        exact ⟨h1, h2, h3⟩
      | helped _ _ h4 => exact absurd (h4.enqueue h2).2.2 h3
      | published _ h4 =>
        rw [h1] at h4
        cases h4

/-- Head's node is taken, or it is reserved for the pending dequeue of thread `i`. -/
def Reserved (i : ℕ) (x : AtomicPointer) (w : World (machine α n) Ghost) : Prop :=
  (w.shared.node x.value).deqTid ≠ kTidNotSet ∨ (w.shared.descOf i).pending = true ∧
    (w.shared.descOf i).type = .dequeue ∧ (w.shared.descOf i).node = x.value

theorem Reserved.later (hr : Reserved i x w) (h : Later u w w') (hi : i < n)
    (hx : HeadRead w x) : Reserved i x w' := by
  rcases hr with hr | ⟨h1, h2, h3⟩
  · exact Or.inl (by rwa [h.deqTid hr])
  · cases h.rely.state i hi with
    | same _ h4 =>
      right
      rw [h4]
      exact ⟨h1, h2, h3⟩
    | helped _ _ h4 =>
      rcases h4.dequeue h2 with h5 | h5
      · exact Or.inr ⟨h5.1, h4.type.trans h2, h5.2.trans h3⟩
      · rw [h3] at h5
        exact Or.inl (h5 (List.mem_of_getElem? hx.1))
    | published _ h4 =>
      rw [h1] at h4
      cases h4

/-- While `state_` has this word, it is one of the pending dequeue `c`. -/
def Matches (c i : ℕ) (cur : AtomicPointer) (w : World (machine α n) Ghost) : Prop :=
  w.shared.state i = cur → (w.shared.desc cur.value).pending = true ∧
    (w.shared.desc cur.value).type = .dequeue ∧ w.ghost.cur i = some c

theorem Matches.later (hm : Matches c i cur w) (h : Later u w w') (hi : i < n)
    (hcur : cur.value ∈ w.ghost.used) : Matches c i cur w' := by
  intro hs
  obtain ⟨h1, -, h3⟩ := h.state_eq hi hcur hs
  rw [h.desc hcur, h3]
  exact hm h1

/-- While `state_` has this word of a pending dequeue, its node is before `x`. -/
def Behind (i : ℕ) (x cur : AtomicPointer) (w : World (machine α n) Ghost) : Prop :=
  w.shared.state i = cur → (w.shared.desc cur.value).pending = true →
    (w.shared.desc cur.value).type = .dequeue → (w.shared.desc cur.value).node = 0 ∨
      ∃ j < x.aba, w.ghost.chain[j]? = some (w.shared.desc cur.value).node

theorem Behind.later (hb : Behind i x cur w) (h : Later u w w') (hi : i < n)
    (hcur : cur.value ∈ w.ghost.used) : Behind i x cur w' := by
  intro hs hp ht
  obtain ⟨h1, -, -⟩ := h.state_eq hi hcur hs
  rw [h.desc hcur] at hp ht ⊢
  exact (hb h1 hp ht).imp_right fun ⟨j, hj, hget⟩ => ⟨j, hj, h.link hget⟩

/-- While `state_` has this word, its descriptor is `d`. -/
def Holds (i : ℕ) (cur : AtomicPointer) (d : ℕ) (w : World (machine α n) Ghost) : Prop :=
  w.shared.state i = cur → d = cur.value

theorem Holds.later (hd : Holds i cur d w) (h : Later u w w') (hi : i < n)
    (hcur : cur.value ∈ w.ghost.used) : Holds i cur d w' := fun hs =>
  hd (h.state_eq hi hcur hs).1

/-- While `state_` has this word, the phase of its descriptor is `ph`. -/
def HoldsPhase (i : ℕ) (cur : AtomicPointer) (ph : ℤ) (w : World (machine α n) Ghost) : Prop :=
  w.shared.state i = cur → ph = (w.shared.desc cur.value).phase

theorem HoldsPhase.later {ph : ℤ} (hd : HoldsPhase i cur ph w) (h : Later u w w') (hi : i < n)
    (hcur : cur.value ∈ w.ghost.used) : HoldsPhase i cur ph w' := fun hs => by
  rw [h.desc hcur]
  exact hd (h.state_eq hi hcur hs).1

end Words

/-! ### `is_still_pending` -/

section Still

variable {w w' : World (machine α n) Ghost} {u i : ℕ} {ph : ℤ}
  {K K' : World (machine α n) Ghost → Prop} {s : Still}

/-- The descriptor of thread `i` has a larger phase than `ph`, or `K` holds. -/
def Unless (i : ℕ) (ph : ℤ) (K : World (machine α n) Ghost → Prop)
    (w : World (machine α n) Ghost) : Prop :=
  ph < (w.shared.descOf i).phase ∨ K w

theorem Unless.later (hk : Unless i ph K w) (h : Later u w w') (hi : i < n)
    (hK : K w → K w') : Unless i ph K w' :=
  hk.imp (fun h1 => h1.trans_le (h.phase_le hi)) hK

/-- The descriptor `d` was read of `state_` for the thread's own call. -/
def OwnRead (u i : ℕ) (ph : ℤ) (d : ℕ) (w : World (machine α n) Ghost) : Prop :=
  i = u → (w.shared.desc d).phase = ph ∧
    ((w.shared.desc d).pending = false → (w.shared.descOf u).pending = false)

theorem OwnRead.later {d : ℕ} (ho : OwnRead u i ph d w) (h : Later u w w') (hu : u < n)
    (hd : d ∈ w.ghost.used) : OwnRead u i ph d w' := by
  intro hi
  rw [h.desc hd]
  exact ⟨(ho hi).1, fun hp => h.own_done hu ((ho hi).2 hp)⟩

/-- What thread `u` knows while it asks for the descriptor of thread `i`: if it is pending and
its phase is not above `ph` then `K`. -/
def Still.Ok (u i : ℕ) (ph : ℤ) (K : World (machine α n) Ghost → Prop)
    (w : World (machine α n) Ghost) : Still → Prop
  | .loadPendingState => True
  | .loadPending d => d ∈ w.ghost.used ∧ OwnRead u i ph d w ∧
    ((w.shared.desc d).pending = true → Unless i ph K w)
  | .loadPhaseState => Unless i ph K w
  | .loadPhase d => d ∈ w.ghost.used ∧ OwnRead u i ph d w ∧
    ((w.shared.desc d).phase ≤ ph → K w)

theorem Still.Ok.later (hs : s.Ok u i ph K w) (h : Later u w w') (hu : u < n) (hi : i < n)
    (hK : K w → K w') : s.Ok u i ph K w' := by
  cases s with
  | loadPendingState => trivial
  | loadPending d =>
    obtain ⟨hd, ho, hk⟩ := hs
    refine ⟨h.used hd, ho.later h hu hd, fun hp => (hk ?_).later h hi hK⟩
    rwa [← h.desc hd]
  | loadPhaseState => exact Unless.later hs h hi hK
  | loadPhase d =>
    obtain ⟨hd, ho, hk⟩ := hs
    refine ⟨h.used hd, ho.later h hu hd, fun hp => hK (hk ?_)⟩
    rwa [← h.desc hd]

/-- What the result of an access says. -/
def Still.After (u i : ℕ) (ph : ℤ) (K : World (machine α n) Ghost → Prop)
    (w : World (machine α n) Ghost) : Still ⊕ Bool → Prop
  | .inl s => s.Ok u i ph K w
  | .inr true => K w
  | .inr false => i = u → (w.shared.descOf u).pending = false

theorem Still.step_ok (hI : Inv w.trace w.shared w.ghost) (hi : i < n)
    (hph : (w.shared.descOf u).phase = ph) (hs : s.Ok u i ph K w)
    (hK : (w.shared.descOf i).pending = true → Unless i ph K w) :
    Still.After u i ph K w (s.step w.shared i ph) := by
  have hread : OwnRead u i ph (w.shared.state i).value w := by
    rintro rfl
    exact ⟨hph, fun hp => hp⟩
  cases s with
  | loadPendingState => exact ⟨hI.state i hi, hread, hK⟩
  | loadPending d =>
    obtain ⟨hd, ho, hk⟩ := hs
    rw [Still.step]
    split_ifs with hp
    · exact hk hp
    · exact fun h => (ho h).2 (Bool.eq_false_of_not_eq_true hp)
  | loadPhaseState =>
    refine ⟨hI.state i hi, hread, fun hp => ?_⟩
    rcases hs with h | h
    · exact absurd hp (not_le.mpr h)
    · exact h
  | loadPhase d =>
    obtain ⟨hd, ho, hk⟩ := hs
    rw [Still.step]
    by_cases hp : (w.shared.desc d).phase ≤ ph
    · rw [decide_eq_true hp]
      exact hk hp
    · rw [decide_eq_false hp]
      exact fun h => absurd (ho h).1.le hp

end Still

/-! ### `help_finish_enqueue` -/

section FinishEnqueue

variable {w w' : World (machine α n) Ghost} {u L : ℕ} {s : FinishEnqueue}

/-- The node `nx` was linked behind `x` by a call of thread `tid`. -/
structure LinkRead (L : ℕ) (x : AtomicPointer) (nx : ℕ) (w : World (machine α n) Ghost) :
    Prop where
  tail : TailRead w x
  le : L ≤ x.aba + 2
  link : w.ghost.chain[x.aba + 1]? = some nx

theorem LinkRead.later {x : AtomicPointer} {nx : ℕ} (hl : LinkRead L x nx w)
    (h : Later u w w') : LinkRead L x nx w' :=
  ⟨hl.tail.later h, hl.le, h.link hl.link⟩

theorem LinkRead.lt {x : AtomicPointer} {nx : ℕ} (hl : LinkRead L x nx w)
    (hI : Inv w.trace w.shared w.ghost) : (w.shared.node nx).enqTid < n :=
  (hI.made _ _ hl.link).1

/-- The descriptor of the enqueue that linked `nx` was `cur` before, and is done if it is another
one now, unless tail has moved. -/
def EnqueueRead (x : AtomicPointer) (tid : ℕ) (cur : AtomicPointer)
    (w : World (machine α n) Ghost) : Prop :=
  x.aba < w.shared.tail.aba ∨ w.shared.state tid = cur ∨ (w.shared.descOf tid).pending = false

/-- The enqueue that linked the node behind `x` is done, or tail has moved. -/
def EnqueueDone (x : AtomicPointer) (tid : ℕ) (w : World (machine α n) Ghost) : Prop :=
  x.aba < w.shared.tail.aba ∨ (w.shared.descOf tid).pending = false

theorem LinkRead.state {x : AtomicPointer} {nx tid : ℕ} (hl : LinkRead L x nx w)
    (htid : (w.shared.node nx).enqTid = tid) (h : Later u w w') :
    x.aba < w'.shared.tail.aba ∨ w'.shared.state tid = w.shared.state tid ∧
      w'.shared.descOf tid = w.shared.descOf tid ∨ (w'.shared.descOf tid).pending = false := by
  have ht := htid ▸ hl.lt h.inv
  rcases Nat.lt_or_ge x.aba w.shared.tail.aba with hlt | hge
  · exact Or.inl (hlt.trans_le h.rely.tail)
  · have hx : x.aba = w.shared.tail.aba := le_antisymm hl.tail.2 hge
    obtain ⟨h1, h2⟩ := h.inv.last nx (hx ▸ hl.link)
    rw [htid] at h1 h2
    cases h.rely.state tid ht with
    | same h3 h4 => exact Or.inr (Or.inl ⟨h3, h4⟩)
    | helped _ _ h3 => exact Or.inr (Or.inr (h3.enqueue h1).1)
    | published _ _ _ _ _ _ h3 =>
      have := h3 _ _ hl.link htid
      omega

theorem EnqueueRead.later {x cur : AtomicPointer} {nx tid : ℕ} (he : EnqueueRead x tid cur w)
    (hl : LinkRead L x nx w) (htid : (w.shared.node nx).enqTid = tid) (h : Later u w w') :
    EnqueueRead x tid cur w' := by
  rcases hl.state htid h with h1 | ⟨h1, h2⟩ | h1
  · exact Or.inl h1
  · rw [EnqueueRead, h1, h2]
    exact he.imp_left fun h3 => h3.trans_le h.rely.tail
  · exact Or.inr (Or.inr h1)

theorem EnqueueDone.later {x : AtomicPointer} {nx tid : ℕ} (he : EnqueueDone x tid w)
    (hl : LinkRead L x nx w) (htid : (w.shared.node nx).enqTid = tid) (h : Later u w w') :
    EnqueueDone x tid w' := by
  rcases hl.state htid h with h1 | ⟨h1, h2⟩ | h1
  · exact Or.inl h1
  · rw [EnqueueDone, h2]
    exact he.imp_left fun h3 => h3.trans_le h.rely.tail
  · exact Or.inr h1

/-- While `state_` has this word, it is one of the enqueue that linked `nx`. -/
def Enqueues (tid : ℕ) (cur : AtomicPointer) (nx : ℕ) (w : World (machine α n) Ghost) : Prop :=
  w.shared.state tid = cur →
    (w.shared.desc cur.value).type = .enqueue ∧ (w.shared.desc cur.value).node = nx

theorem Enqueues.later {tid nx : ℕ} {cur : AtomicPointer} (he : Enqueues tid cur nx w)
    (h : Later u w w') (ht : tid < n) (hcur : cur.value ∈ w.ghost.used) :
    Enqueues tid cur nx w' := fun hs => by
  rw [h.desc hcur]
  exact he (h.state_eq ht hcur hs).1

/-- What is known from the second read of `tail_` on. -/
structure EnqueueKnown (L : ℕ) (x : AtomicPointer) (nx tid : ℕ) (cur : AtomicPointer)
    (w : World (machine α n) Ghost) : Prop where
  link : LinkRead L x nx w
  enqTid : (w.shared.node nx).enqTid = tid
  used : cur.value ∈ w.ghost.used
  read : EnqueueRead x tid cur w
  enqueues : Enqueues tid cur nx w

theorem EnqueueKnown.lt {x cur : AtomicPointer} {nx tid : ℕ} (hk : EnqueueKnown L x nx tid cur w)
    (hI : Inv w.trace w.shared w.ghost) : tid < n := hk.enqTid ▸ hk.link.lt hI

theorem EnqueueKnown.later {x cur : AtomicPointer} {nx tid : ℕ}
    (hk : EnqueueKnown L x nx tid cur w) (h : Later u w w') : EnqueueKnown L x nx tid cur w' :=
  ⟨hk.link.later h, (h.enqTid hk.link.link).trans hk.enqTid, h.used hk.used,
    hk.read.later hk.link hk.enqTid h, hk.enqueues.later h (hk.lt h.inv) hk.used⟩

/-- What thread `u` knows in `help_finish_enqueue`; when it returns, tail has passed the first
`L` nodes but the last one. -/
def FinishEnqueue.Ok (u L : ℕ) (w : World (machine α n) Ghost) : FinishEnqueue → Prop
  | .loadTail => L ≤ w.ghost.chain.length
  | .loadNext x => TailRead w x ∧ L ≤ x.aba + 2 ∧ L ≤ w.ghost.chain.length
  | .loadEnqTid x nx => LinkRead L x nx w
  | .loadState x nx tid => LinkRead L x nx w ∧ (w.shared.node nx).enqTid = tid
  | .checkTail x nx tid cur => LinkRead L x nx w ∧ (w.shared.node nx).enqTid = tid ∧
    cur.value ∈ w.ghost.used ∧ EnqueueRead x tid cur w
  | .loadNodeState x nx tid cur => EnqueueKnown L x nx tid cur w
  | .loadNode x nx tid cur d => EnqueueKnown L x nx tid cur w ∧ d ∈ w.ghost.used ∧
    (x.aba < w.shared.tail.aba ∨ (w.shared.desc d).node = nx)
  | .loadPhaseState x nx tid cur => EnqueueKnown L x nx tid cur w
  | .loadPhase x nx tid cur d => EnqueueKnown L x nx tid cur w ∧ d ∈ w.ghost.used ∧
    Holds tid cur d w
  | .initDesc x nx tid cur ph => EnqueueKnown L x nx tid cur w ∧ HoldsPhase tid cur ph w
  | .casState x nx tid cur d => EnqueueKnown L x nx tid cur w ∧
    ∃ ph, HoldsPhase tid cur ph w ∧ OwnDesc u d ⟨ph, false, .enqueue, nx⟩ w.shared w.ghost
  | .casTail x nx tid => LinkRead L x nx w ∧ (w.shared.node nx).enqTid = tid ∧
    EnqueueDone x tid w

theorem FinishEnqueue.Ok.later (hs : s.Ok u L w) (h : Later u w w')
    (hp : Private u w.shared w.ghost w'.ghost) : s.Ok u L w' := by
  cases s with
  | loadTail => exact hs.trans h.length
  | loadNext x =>
    obtain ⟨h1, h2, h3⟩ := hs
    exact ⟨h1.later h, h2, h3.trans h.length⟩
  | loadEnqTid x nx => exact LinkRead.later hs h
  | loadState x nx tid =>
    obtain ⟨h1, h2⟩ := hs
    exact ⟨h1.later h, (h.enqTid h1.link).trans h2⟩
  | checkTail x nx tid cur =>
    obtain ⟨h1, h2, h3, h4⟩ := hs
    exact ⟨h1.later h, (h.enqTid h1.link).trans h2, h.used h3, h4.later h1 h2 h⟩
  | loadNodeState x nx tid cur => exact EnqueueKnown.later hs h
  | loadNode x nx tid cur d =>
    obtain ⟨h1, h2, h3⟩ := hs
    refine ⟨h1.later h, h.used h2, ?_⟩
    rw [h.desc h2]
    exact h3.imp_left fun h4 => h4.trans_le h.rely.tail
  | loadPhaseState x nx tid cur => exact EnqueueKnown.later hs h
  | loadPhase x nx tid cur d =>
    obtain ⟨h1, h2, h3⟩ := hs
    exact ⟨h1.later h, h.used h2, h3.later h (h1.lt h.inv) h1.used⟩
  | initDesc x nx tid cur ph =>
    obtain ⟨h1, h2⟩ := hs
    exact ⟨h1.later h, h2.later h (h1.lt h.inv) h1.used⟩
  | casState x nx tid cur d =>
    obtain ⟨h1, ph, h2, h3⟩ := hs
    exact ⟨h1.later h, ph, h2.later h (h1.lt h.inv) h1.used, h3.later h hp⟩
  | casTail x nx tid =>
    obtain ⟨h1, h2, h3⟩ := hs
    exact ⟨h1.later h, (h.enqTid h1.link).trans h2, h3.later h1 h2 h⟩

end FinishEnqueue

/-! ### `help_finish_dequeue` -/

section FinishDequeue

variable {w w' : World (machine α n) Ghost} {u J : ℕ} {s : FinishDequeue}

theorem Later.takers (h : Later u w w') : w.ghost.takers.length ≤ w'.ghost.takers.length :=
  h.rely.takers.length_le

/-- The node of `x` was head's, and the node behind it is `nx`, unless that was `NULL`. -/
structure HeadKnown (J : ℕ) (x : AtomicPointer) (nx : ℕ) (w : World (machine α n) Ghost) :
    Prop where
  head : HeadRead w x
  le : J ≤ x.aba + 1
  null : nx = 0 → J ≤ x.aba
  link : nx ≠ 0 → w.ghost.chain[x.aba + 1]? = some nx

theorem HeadKnown.later {x : AtomicPointer} {nx : ℕ} (hk : HeadKnown J x nx w)
    (h : Later u w w') : HeadKnown J x nx w' :=
  ⟨hk.head.later h, hk.le, hk.null, fun h0 => h.link (hk.link h0)⟩

/-- And the node of `x` is reserved for thread `tid`. -/
structure TakerRead (J : ℕ) (x : AtomicPointer) (nx tid : ℕ) (w : World (machine α n) Ghost) :
    Prop extends HeadKnown J x nx w where
  deqTid : (w.shared.node x.value).deqTid = tid
  ne : tid ≠ kTidNotSet

theorem TakerRead.later {x : AtomicPointer} {nx tid : ℕ} (hk : TakerRead J x nx tid w)
    (h : Later u w w') : TakerRead J x nx tid w' :=
  ⟨hk.toHeadKnown.later h, (h.deqTid (hk.deqTid ▸ hk.ne)).trans hk.deqTid, hk.ne⟩

/-- The call that takes the value behind `x`. -/
theorem TakerRead.taker {x : AtomicPointer} {nx tid : ℕ} (hk : TakerRead J x nx tid w)
    (hI : Inv w.trace w.shared w.ghost) : ∃ c, w.ghost.takers[x.aba]? = some c := by
  have hlt : x.aba < w.ghost.takers.length := by
    by_contra hge
    exact hk.ne (hk.deqTid ▸ (hI.deqTid _ _ hk.head.1).mpr (not_lt.mp hge))
  exact ⟨_, List.getElem?_eq_getElem hlt⟩

theorem TakerRead.lt {x : AtomicPointer} {nx tid : ℕ} (hk : TakerRead J x nx tid w)
    (hI : Inv w.trace w.shared w.ghost) : tid < n := by
  obtain ⟨c, hc⟩ := hk.taker hI
  exact hk.deqTid ▸ (hI.taker _ _ _ hk.head.1 hc).1

/-- The dequeue that takes the value behind `x` had the descriptor `cur`, and is done if it has
another one now, unless head has moved. -/
def DequeueRead (x : AtomicPointer) (tid : ℕ) (cur : AtomicPointer)
    (w : World (machine α n) Ghost) : Prop :=
  x.aba < w.shared.head.aba ∨ w.shared.state tid = cur ∨ (w.shared.descOf tid).pending = false

def DequeueDone (x : AtomicPointer) (tid : ℕ) (w : World (machine α n) Ghost) : Prop :=
  x.aba < w.shared.head.aba ∨ (w.shared.descOf tid).pending = false

theorem TakerRead.state {x : AtomicPointer} {nx tid : ℕ} (hk : TakerRead J x nx tid w)
    (h : Later u w w') : x.aba < w'.shared.head.aba ∨
      w'.shared.state tid = w.shared.state tid ∧ w'.shared.descOf tid = w.shared.descOf tid ∨
      (w'.shared.descOf tid).pending = false := by
  rcases Nat.lt_or_ge x.aba w.shared.head.aba with hlt | hge
  · exact Or.inl (hlt.trans_le h.rely.head)
  · obtain ⟨c, hc⟩ := hk.taker h.inv
    have hx : x.aba = w.shared.head.aba := le_antisymm hk.head.2 hge
    have hv : w.shared.head.value = x.value :=
      Option.some.inj (h.inv.head.symm.trans (hx ▸ hk.head.1))
    obtain ⟨-, h1, h2, -⟩ := h.inv.reserved c (hx ▸ hc)
    rw [hv, hk.deqTid] at h1 h2
    cases h.rely.state tid (hk.lt h.inv) with
    | same h3 h4 => exact Or.inr (Or.inl ⟨h3, h4⟩)
    | helped _ _ h3 => exact Or.inr (Or.inr (h3.head h1 (h2.trans hv.symm)))
    | published _ _ _ _ _ _ _ h3 =>
      have := h3 _ _ hk.head.1 hk.deqTid
      omega

theorem DequeueRead.later {x cur : AtomicPointer} {nx tid : ℕ} (he : DequeueRead x tid cur w)
    (hk : TakerRead J x nx tid w) (h : Later u w w') : DequeueRead x tid cur w' := by
  rcases hk.state h with h1 | ⟨h1, h2⟩ | h1
  · exact Or.inl h1
  · rw [DequeueRead, h1, h2]
    exact he.imp_left fun h3 => h3.trans_le h.rely.head
  · exact Or.inr (Or.inr h1)

theorem DequeueDone.later {x : AtomicPointer} {nx tid : ℕ} (he : DequeueDone x tid w)
    (hk : TakerRead J x nx tid w) (h : Later u w w') : DequeueDone x tid w' := by
  rcases hk.state h with h1 | ⟨h1, h2⟩ | h1
  · exact Or.inl h1
  · rw [DequeueDone, h2]
    exact he.imp_left fun h3 => h3.trans_le h.rely.head
  · exact Or.inr h1

/-- While `state_` has this word, it is one of the dequeue that takes the value behind `x`. -/
def Dequeues (tid : ℕ) (cur x : AtomicPointer) (w : World (machine α n) Ghost) : Prop :=
  w.shared.state tid = cur → (w.shared.desc cur.value).type = .dequeue ∧
    (w.shared.desc cur.value).node = x.value ∧
    ∃ c, w.ghost.takers[x.aba]? = some c ∧ w.ghost.cur tid = some c

theorem Dequeues.later {tid : ℕ} {cur x : AtomicPointer} (he : Dequeues tid cur x w)
    (h : Later u w w') (ht : tid < n) (hcur : cur.value ∈ w.ghost.used) :
    Dequeues tid cur x w' := fun hs => by
  obtain ⟨h1, -, h3⟩ := h.state_eq ht hcur hs
  obtain ⟨h4, h5, c, h6, h7⟩ := he h1
  rw [h.desc hcur]
  exact ⟨h4, h5, c, Chain.getElem?_mono h.rely.takers h6, h3.trans h7⟩

/-- What is known from the second read of `head_` on. -/
structure DequeueKnown (J : ℕ) (x : AtomicPointer) (nx tid : ℕ) (cur : AtomicPointer)
    (w : World (machine α n) Ghost) : Prop where
  taker : TakerRead J x nx tid w
  ne : nx ≠ 0
  used : cur.value ∈ w.ghost.used
  read : DequeueRead x tid cur w
  dequeues : Dequeues tid cur x w

theorem DequeueKnown.later {x cur : AtomicPointer} {nx tid : ℕ}
    (hk : DequeueKnown J x nx tid cur w) (h : Later u w w') : DequeueKnown J x nx tid cur w' :=
  ⟨hk.taker.later h, hk.ne, h.used hk.used, hk.read.later hk.taker h,
    hk.dequeues.later h (hk.taker.lt h.inv) hk.used⟩

/-- While `state_` has this word, its descriptor has this node. -/
def HoldsNode (tid : ℕ) (cur : AtomicPointer) (nd : ℕ) (w : World (machine α n) Ghost) : Prop :=
  w.shared.state tid = cur → nd = (w.shared.desc cur.value).node

theorem HoldsNode.later {tid nd : ℕ} {cur : AtomicPointer} (hd : HoldsNode tid cur nd w)
    (h : Later u w w') (ht : tid < n) (hcur : cur.value ∈ w.ghost.used) :
    HoldsNode tid cur nd w' := fun hs => by
  rw [h.desc hcur]
  exact hd (h.state_eq ht hcur hs).1

/-- What thread `u` knows in `help_finish_dequeue`; when it returns, head has passed the first
`J` nodes, which were reserved. -/
def FinishDequeue.Ok (u J : ℕ) (w : World (machine α n) Ghost) : FinishDequeue → Prop
  | .loadHead => J ≤ w.ghost.takers.length
  | .loadNext x => HeadRead w x ∧ J ≤ x.aba + 1 ∧ J ≤ w.ghost.takers.length
  | .loadDeqTid x nx => HeadKnown J x nx w ∧ J ≤ w.ghost.takers.length
  | .loadState x nx tid => TakerRead J x nx tid w
  | .checkHead x nx tid cur => TakerRead J x nx tid w ∧ cur.value ∈ w.ghost.used ∧
    DequeueRead x tid cur w
  | .loadPhaseState x nx tid cur => DequeueKnown J x nx tid cur w
  | .loadPhase x nx tid cur d => DequeueKnown J x nx tid cur w ∧ d ∈ w.ghost.used ∧
    Holds tid cur d w
  | .loadNodeState x nx tid cur ph => DequeueKnown J x nx tid cur w ∧ HoldsPhase tid cur ph w
  | .loadNode x nx tid cur ph d => DequeueKnown J x nx tid cur w ∧ HoldsPhase tid cur ph w ∧
    d ∈ w.ghost.used ∧ Holds tid cur d w
  | .initDesc x nx tid cur ph nd => DequeueKnown J x nx tid cur w ∧ HoldsPhase tid cur ph w ∧
    HoldsNode tid cur nd w
  | .casState x nx tid cur d => DequeueKnown J x nx tid cur w ∧ ∃ ph nd,
    HoldsPhase tid cur ph w ∧ HoldsNode tid cur nd w ∧
    OwnDesc u d ⟨ph, false, .dequeue, nd⟩ w.shared w.ghost
  | .casHead x nx tid => TakerRead J x nx tid w ∧ nx ≠ 0 ∧ DequeueDone x tid w

theorem FinishDequeue.Ok.later (hs : s.Ok u J w) (h : Later u w w')
    (hp : Private u w.shared w.ghost w'.ghost) : s.Ok u J w' := by
  cases s with
  | loadHead => exact hs.trans h.takers
  | loadNext x =>
    obtain ⟨h1, h2, h3⟩ := hs
    exact ⟨h1.later h, h2, h3.trans h.takers⟩
  | loadDeqTid x nx =>
    obtain ⟨h1, h2⟩ := hs
    exact ⟨h1.later h, h2.trans h.takers⟩
  | loadState x nx tid => exact TakerRead.later hs h
  | checkHead x nx tid cur =>
    obtain ⟨h1, h2, h3⟩ := hs
    exact ⟨h1.later h, h.used h2, h3.later h1 h⟩
  | loadPhaseState x nx tid cur => exact DequeueKnown.later hs h
  | loadPhase x nx tid cur d =>
    obtain ⟨h1, h2, h3⟩ := hs
    exact ⟨h1.later h, h.used h2, h3.later h (h1.taker.lt h.inv) h1.used⟩
  | loadNodeState x nx tid cur ph =>
    obtain ⟨h1, h2⟩ := hs
    exact ⟨h1.later h, h2.later h (h1.taker.lt h.inv) h1.used⟩
  | loadNode x nx tid cur ph d =>
    obtain ⟨h1, h2, h3, h4⟩ := hs
    have ht := h1.taker.lt h.inv
    exact ⟨h1.later h, h2.later h ht h1.used, h.used h3, h4.later h ht h1.used⟩
  | initDesc x nx tid cur ph nd =>
    obtain ⟨h1, h2, h3⟩ := hs
    have ht := h1.taker.lt h.inv
    exact ⟨h1.later h, h2.later h ht h1.used, h3.later h ht h1.used⟩
  | casState x nx tid cur d =>
    obtain ⟨h1, ph, nd, h2, h3, h4⟩ := hs
    have ht := h1.taker.lt h.inv
    exact ⟨h1.later h, ph, nd, h2.later h ht h1.used, h3.later h ht h1.used, h4.later h hp⟩
  | casHead x nx tid =>
    obtain ⟨h1, h2, h3⟩ := hs
    exact ⟨h1.later h, h2, h3.later h1 h⟩

end FinishDequeue

/-! ### `help_enqueue` -/

section HelpEnqueue

variable {w w' : World (machine α n) Ghost} {u i : ℕ} {ph : ℤ} {s : HelpEnqueue}

/-- The pending enqueue that is to be linked behind `x` has the node `p`. -/
def LinkableNode (i : ℕ) (x : AtomicPointer) (p : ℕ) (w : World (machine α n) Ghost) : Prop :=
  Linkable i x w ∧ (x.aba + 1 < w.ghost.chain.length ∨ (w.shared.descOf i).node = p)

theorem LinkableNode.later {x : AtomicPointer} {p : ℕ} (hl : LinkableNode i x p w)
    (h : Later u w w') (hi : i < n) (hx : TailRead w x) : LinkableNode i x p w' := by
  obtain ⟨h1, h2⟩ := hl
  refine ⟨h1.later h hi hx, ?_⟩
  rcases h2 with h2 | h2
  · exact Or.inl (h2.trans_le h.length)
  · rcases h1 with h1 | ⟨h1, h3, h4⟩
    · exact Or.inl (h1.trans_le h.length)
    · cases h.rely.state i hi with
      | same _ h5 => exact Or.inr (by rw [h5, h2])
      | helped _ _ h5 => exact absurd (h5.enqueue h3).2.2 h4
      | published _ h5 =>
        rw [h1] at h5
        cases h5

/-- The own enqueue's node is among the first `L` of the chain. -/
def OwnLinked (u i L : ℕ) (w : World (machine α n) Ghost) : Prop :=
  i = u → (w.shared.descOf u).type = .enqueue ∧
    ∃ q < L, w.ghost.chain[q]? = some (w.shared.descOf u).node

theorem OwnLinked.later {L : ℕ} (ho : OwnLinked u i L w) (h : Later u w w') (hu : u < n) :
    OwnLinked u i L w' := by
  intro hi
  obtain ⟨h1, q, hq, h2⟩ := ho hi
  refine ⟨(h.own_type hu).trans h1, q, hq, ?_⟩
  rcases h.own hu with h3 | h3
  · rw [h3]
    exact h.link h2
  · rw [(h3.enqueue h1).2.1]
    exact h.link h2

/-- What thread `u` knows in `help_enqueue`. -/
def HelpEnqueue.Ok (u i : ℕ) (ph : ℤ) (w : World (machine α n) Ghost) : HelpEnqueue → Prop
  | .loop s => s.Ok u i ph (fun _ => True) w
  | .loadTail => True
  | .loadNext x => TailRead w x
  | .checkTail x nx => TailRead w x ∧ (nx.value = 0 → nx = ⟨0, 0⟩)
  | .stillPending x nx s => TailRead w x ∧ nx = ⟨0, 0⟩ ∧ s.Ok u i ph (Linkable i x) w
  | .loadState x nx => TailRead w x ∧ nx = ⟨0, 0⟩ ∧ Linkable i x w
  | .loadNode x nx d => TailRead w x ∧ nx = ⟨0, 0⟩ ∧ d ∈ w.ghost.used ∧
    LinkableNode i x (w.shared.desc d).node w
  | .casNext x nx p => TailRead w x ∧ nx = ⟨0, 0⟩ ∧ LinkableNode i x p w
  | .finish s => ∃ L, s.Ok u L w ∧ OwnLinked u i L w
  | .finishOther s => s.Ok u 0 w

theorem HelpEnqueue.Ok.later (hs : s.Ok u i ph w) (h : Later u w w')
    (hp : Private u w.shared w.ghost w'.ghost) (hu : u < n) (hi : i < n) : s.Ok u i ph w' := by
  cases s with
  | loop s => exact Still.Ok.later hs h hu hi fun h => h
  | loadTail => trivial
  | loadNext x => exact TailRead.later hs h
  | checkTail x nx =>
    obtain ⟨h1, h2⟩ := hs
    exact ⟨h1.later h, h2⟩
  | stillPending x nx s =>
    obtain ⟨h1, h2, h3⟩ := hs
    exact ⟨h1.later h, h2, h3.later h hu hi fun h4 => h4.later h hi h1⟩
  | loadState x nx =>
    obtain ⟨h1, h2, h3⟩ := hs
    exact ⟨h1.later h, h2, h3.later h hi h1⟩
  | loadNode x nx d =>
    obtain ⟨h1, h2, h3, h4⟩ := hs
    refine ⟨h1.later h, h2, h.used h3, ?_⟩
    rw [h.desc h3]
    exact h4.later h hi h1
  | casNext x nx p =>
    obtain ⟨h1, h2, h3⟩ := hs
    exact ⟨h1.later h, h2, h3.later h hi h1⟩
  | finish s =>
    obtain ⟨L, h1, h2⟩ := hs
    exact ⟨L, h1.later h hp, h2.later h hu⟩
  | finishOther s => exact FinishEnqueue.Ok.later hs h hp

end HelpEnqueue

/-! ### `help_dequeue` -/

section HelpDequeue

variable {w w' : World (machine α n) Ghost} {u i c : ℕ} {ph : ℤ} {s : HelpDequeue}

/-- The queue was empty since the call `c` began. -/
def EmptySince (c : ℕ) (w : World (machine α n) Ghost) : Prop :=
  Since w.trace c fun σ => σ.queue = []

theorem EmptySince.later (he : EmptySince c w) (h : Later u w w') : EmptySince c w' := by
  obtain ⟨tr, htr⟩ := h.trace
  rw [EmptySince, ← htr]
  exact he.append

/-- The empty queue is reported to the call `c`, for which `state_` had the word `cur`. -/
structure Empties (i c : ℕ) (x cur : AtomicPointer) (w : World (machine α n) Ghost) : Prop where
  head : HeadRead w x
  empty : EmptySince c w
  used : cur.value ∈ w.ghost.used
  behind : Behind i x cur w

theorem Empties.later {x cur : AtomicPointer} (he : Empties i c x cur w) (h : Later u w w')
    (hi : i < n) : Empties i c x cur w' :=
  ⟨he.head.later h, he.empty.later h, h.used he.used, he.behind.later h hi he.used⟩

/-- The queue is not empty. -/
structure Filled (x : AtomicPointer) (w : World (machine α n) Ghost) : Prop where
  head : HeadRead w x
  lt : x.aba < w.shared.tail.aba

theorem Filled.later {x : AtomicPointer} (hf : Filled x w) (h : Later u w w') : Filled x w' :=
  ⟨hf.head.later h, hf.lt.trans_le h.rely.tail⟩

/-- Head's node is reserved for the call `c`, for which `state_` had the word `cur`. -/
structure Reserves (i c : ℕ) (x cur : AtomicPointer) (w : World (machine α n) Ghost) :
    Prop where
  filled : Filled x w
  used : cur.value ∈ w.ghost.used
  matches_ : Matches c i cur w
  behind : Behind i x cur w

theorem Reserves.later {x cur : AtomicPointer} (hr : Reserves i c x cur w) (h : Later u w w')
    (hi : i < n) : Reserves i c x cur w' :=
  ⟨hr.filled.later h, h.used hr.used, hr.matches_.later h hi hr.used,
    hr.behind.later h hi hr.used⟩

/-- If the descriptor `cur` has head's node, then this is reserved. -/
def ReservedBy (i : ℕ) (x : AtomicPointer) (nd : ℕ) (w : World (machine α n) Ghost) : Prop :=
  nd = x.value → Reserved i x w

theorem ReservedBy.later {x : AtomicPointer} {nd : ℕ} (hr : ReservedBy i x nd w)
    (h : Later u w w') (hi : i < n) (hx : HeadRead w x) : ReservedBy i x nd w' := fun hn =>
  (hr hn).later h hi hx

/-- What thread `u` knows in `help_dequeue` when it helps the call `c`. -/
def HelpDequeue.Ok (u i c : ℕ) (ph : ℤ) (w : World (machine α n) Ghost) : HelpDequeue → Prop
  | .loop s => s.Ok u i ph (fun _ => True) w
  | .loadHead => True
  | .loadTail x => HeadRead w x
  | .loadNext x y => HeadRead w x ∧ TailRead w y ∧ x.aba ≤ y.aba
  | .checkHead x y nx => HeadRead w x ∧ TailRead w y ∧ x.aba ≤ y.aba ∧
    (nx = 0 → x.aba < w.shared.head.aba ∨ EmptySince c w)
  | .emptyState x y => HeadRead w x ∧ TailRead w y ∧ x.aba = y.aba ∧ EmptySince c w
  | .emptyTail x y cur => HeadRead w x ∧ TailRead w y ∧ x.aba = y.aba ∧ EmptySince c w ∧
    cur.value ∈ w.ghost.used
  | .emptyStillPending x cur s => Empties i c x cur w ∧ s.Ok u i ph (Matches c i cur) w
  | .emptyPhaseState x cur => Empties i c x cur w ∧ Matches c i cur w
  | .emptyPhase x cur d => Empties i c x cur w ∧ Matches c i cur w ∧ d ∈ w.ghost.used ∧
    Holds i cur d w
  | .emptyInitDesc x cur p => Empties i c x cur w ∧ Matches c i cur w ∧ HoldsPhase i cur p w
  | .emptyCas x cur d => Empties i c x cur w ∧ Matches c i cur w ∧
    ∃ p, HoldsPhase i cur p w ∧ OwnDesc u d ⟨p, false, .dequeue, 0⟩ w.shared w.ghost
  | .finishEnqueue s => s.Ok u 0 w
  | .loadState x => Filled x w
  | .loadNode x cur => Filled x w ∧ cur.value ∈ w.ghost.used ∧
    Unless i ph (ReservedBy i x (w.shared.desc cur.value).node) w
  | .stillPending x cur nd s => Filled x w ∧ cur.value ∈ w.ghost.used ∧
    Unless i ph (ReservedBy i x nd) w ∧ nd = (w.shared.desc cur.value).node ∧
    s.Ok u i ph (fun w => ReservedBy i x nd w ∧ Matches c i cur w) w
  | .checkNode x cur nd => Filled x w ∧ cur.value ∈ w.ghost.used ∧
    nd = (w.shared.desc cur.value).node ∧ ReservedBy i x nd w ∧ Matches c i cur w
  | .loadPhaseState x cur => Reserves i c x cur w
  | .loadPhase x cur d => Reserves i c x cur w ∧ d ∈ w.ghost.used ∧ Holds i cur d w
  | .initDesc x cur p => Reserves i c x cur w ∧ HoldsPhase i cur p w
  | .casState x cur d => Reserves i c x cur w ∧ ∃ p, HoldsPhase i cur p w ∧
    OwnDesc u d ⟨p, true, .dequeue, x.value⟩ w.shared w.ghost
  | .casDeqTid x => Filled x w ∧ Reserved i x w
  | .finish s => s.Ok u 0 w

theorem HelpDequeue.Ok.later (hs : s.Ok u i c ph w) (h : Later u w w')
    (hp : Private u w.shared w.ghost w'.ghost) (hu : u < n) (hi : i < n) : s.Ok u i c ph w' := by
  cases s with
  | loop s => exact Still.Ok.later hs h hu hi fun h => h
  | loadHead => trivial
  | loadTail x => exact HeadRead.later hs h
  | loadNext x y =>
    obtain ⟨h1, h2, h3⟩ := hs
    exact ⟨h1.later h, h2.later h, h3⟩
  | checkHead x y nx =>
    obtain ⟨h1, h2, h3, h4⟩ := hs
    exact ⟨h1.later h, h2.later h, h3,
      fun h0 => (h4 h0).imp (fun h5 => h5.trans_le h.rely.head) fun h5 => h5.later h⟩
  | emptyState x y =>
    obtain ⟨h1, h2, h3, h4⟩ := hs
    exact ⟨h1.later h, h2.later h, h3, h4.later h⟩
  | emptyTail x y cur =>
    obtain ⟨h1, h2, h3, h4, h5⟩ := hs
    exact ⟨h1.later h, h2.later h, h3, h4.later h, h.used h5⟩
  | emptyStillPending x cur s =>
    obtain ⟨h1, h2⟩ := hs
    exact ⟨h1.later h hi, h2.later h hu hi fun h3 => h3.later h hi h1.used⟩
  | emptyPhaseState x cur =>
    obtain ⟨h1, h2⟩ := hs
    exact ⟨h1.later h hi, h2.later h hi h1.used⟩
  | emptyPhase x cur d =>
    obtain ⟨h1, h2, h3, h4⟩ := hs
    exact ⟨h1.later h hi, h2.later h hi h1.used, h.used h3, h4.later h hi h1.used⟩
  | emptyInitDesc x cur p =>
    obtain ⟨h1, h2, h3⟩ := hs
    exact ⟨h1.later h hi, h2.later h hi h1.used, h3.later h hi h1.used⟩
  | emptyCas x cur d =>
    obtain ⟨h1, h2, p, h3, h4⟩ := hs
    exact ⟨h1.later h hi, h2.later h hi h1.used, p, h3.later h hi h1.used, h4.later h hp⟩
  | finishEnqueue s => exact FinishEnqueue.Ok.later hs h hp
  | loadState x => exact Filled.later hs h
  | loadNode x cur =>
    obtain ⟨h1, h2, h3⟩ := hs
    refine ⟨h1.later h, h.used h2, ?_⟩
    rw [h.desc h2]
    exact h3.later h hi fun h4 => h4.later h hi h1.head
  | stillPending x cur nd s =>
    obtain ⟨h1, h2, h3, h4, h5⟩ := hs
    refine ⟨h1.later h, h.used h2, h3.later h hi fun h6 => h6.later h hi h1.head, ?_,
      h5.later h hu hi fun h6 => ⟨h6.1.later h hi h1.head, h6.2.later h hi h2⟩⟩
    rw [h.desc h2]
    exact h4
  | checkNode x cur nd =>
    obtain ⟨h1, h2, h3, h4, h5⟩ := hs
    refine ⟨h1.later h, h.used h2, ?_, h4.later h hi h1.head, h5.later h hi h2⟩
    rw [h.desc h2]
    exact h3
  | loadPhaseState x cur => exact Reserves.later hs h hi
  | loadPhase x cur d =>
    obtain ⟨h1, h2, h3⟩ := hs
    exact ⟨h1.later h hi, h.used h2, h3.later h hi h1.used⟩
  | initDesc x cur p =>
    obtain ⟨h1, h2⟩ := hs
    exact ⟨h1.later h hi, h2.later h hi h1.used⟩
  | casState x cur d =>
    obtain ⟨h1, p, h2, h3⟩ := hs
    exact ⟨h1.later h hi, p, h2.later h hi h1.used, h3.later h hp⟩
  | casDeqTid x =>
    obtain ⟨h1, h2⟩ := hs
    exact ⟨h1.later h, h2.later h hi h1.head⟩
  | finish s => exact FinishDequeue.Ok.later hs h hp

end HelpDequeue

/-! ### `help` -/

section Help

variable {w w' : World (machine α n) Ghost} {u i : ℕ} {ph : ℤ} {s : Help}

/-- What thread `u` knows in an iteration of `help`. -/
def Help.Ok (u i : ℕ) (ph : ℤ) (w : World (machine α n) Ghost) : Help → Prop
  | .loadState => True
  | .loadPending d => d ∈ w.ghost.used ∧ OwnRead u i ph d w ∧ ((w.shared.desc d).pending = true →
    ∃ c, Helping u i c (w.shared.desc d).type ph w)
  | .loadPhase d => d ∈ w.ghost.used ∧ OwnRead u i ph d w ∧
    ∃ c, Helping u i c (w.shared.desc d).type ph w
  | .loadType d => d ∈ w.ghost.used ∧ ∃ c, Helping u i c (w.shared.desc d).type ph w
  | .enqueue s => (∃ c, Helping u i c .enqueue ph w) ∧ s.Ok u i ph w
  | .dequeue s => ∃ c, Helping u i c .dequeue ph w ∧ s.Ok u i c ph w

theorem Help.Ok.later (hs : s.Ok u i ph w) (h : Later u w w')
    (hp : Private u w.shared w.ghost w'.ghost) (hu : u < n) (hi : i < n)
    (hph : (w.shared.descOf u).phase = ph) : s.Ok u i ph w' := by
  cases s with
  | loadState => trivial
  | loadPending d =>
    obtain ⟨h1, h2, h3⟩ := hs
    refine ⟨h.used h1, h2.later h hu h1, fun hd => ?_⟩
    rw [h.desc h1] at hd ⊢
    obtain ⟨c, hc⟩ := h3 hd
    exact ⟨c, hc.later h hu hi hph⟩
  | loadPhase d =>
    obtain ⟨h1, h2, c, hc⟩ := hs
    refine ⟨h.used h1, h2.later h hu h1, c, ?_⟩
    rw [h.desc h1]
    exact hc.later h hu hi hph
  | loadType d =>
    obtain ⟨h1, c, hc⟩ := hs
    refine ⟨h.used h1, c, ?_⟩
    rw [h.desc h1]
    exact hc.later h hu hi hph
  | enqueue s =>
    obtain ⟨⟨c, hc⟩, h1⟩ := hs
    exact ⟨⟨c, hc.later h hu hi hph⟩, h1.later h hp hu hi⟩
  | dequeue s =>
    obtain ⟨c, hc, h1⟩ := hs
    exact ⟨c, hc.later h hu hi hph, h1.later h hp hu hi⟩

end Help

end WaitfreeQueue

/-
The timestamped stack respects LIFO order.

A pop that begins after a push returned sees an item that is not older, or finds the item
taken.  It takes the item of the latest timestamp, or one that is not earlier than its
invocation time, and so none that was pushed before another that is still there.

* `access_timed` — every access keeps the invariant of `TSStackOrder`;
* `lifo_ofCalls` — with `AtomicCounterTimestamp` and with `StutteringTimestamp`.
-/
import Scal.TSStackOrder

open Interleave Linearizability

namespace TSStack

variable {α : Type} {T : TimeStamp} {n addresses : ℕ} {C : Counting T n}
  {w : State α T n addresses} {t i : ℕ} {op : BagOp α} {σ : Shared α T} {g : Ghost}
  {l : Local α T} {o : Local α T ⊕ BagRet α} {s : Scan T}

/-- What the access `l` of thread `t` does to the buffers (`access_ok`). -/
structure HeapStep (t : ℕ) (w : State α T n addresses) (l : Local α T) (σ : Shared α T)
    (o : Local α T ⊕ BagRet α) (g : Ghost) : Prop where
  inv : HeapInv n σ g
  rely : ∀ u, u ≠ t → Rely u w.shared w.ghost.1 σ g
  knows : ∀ l', o = .inl l' → Knows t σ g l'
  ready : ∀ r, o = .inr r → Ready t σ g
  links : Links t l w.ghost.1 g

/-- What is to be shown of the access. -/
def TimeOk (C : Counting T n) (t i : ℕ) (op : BagOp α) (w : State α T n addresses)
    (σ : Shared α T) (o : Local α T ⊕ BagRet α) : Prop :=
  ∃ g, TimeInv C (w.record (.ofStep (M := machine α T n addresses) t o) σ g) ∧
    (∀ l', o = .inl l' → Timed C t i op (w.record (.tau t) σ g) l') ∧
    (∀ r, o = .inr r → Ready t σ g.1 ∧ ∀ k q, (g.1.items (bufferOf t))[k + 1]? = some q →
      Before (w.record (.res t r) σ g) (w.trace.length + 1) q) ∧
    ∀ u, u ≠ t → TimeRely C u w
      (w.record (.ofStep (M := machine α T n addresses) t o) σ g)

theorem HeapStep.any (hs : HeapStep t w l σ o g) : Rely (t + 1) w.shared w.ghost.1 σ g :=
  hs.rely _ (Nat.succ_ne_self t)

/-- The items in the thread's own buffer are done, or the call's own. -/
theorem Timed.own_record (hT : Timed C t i op w l) (hs : HeapStep t w l σ o g) {k q : ℕ}
    (hq : (g.items (bufferOf t))[k + 1]? = some q) :
    Before w i q ∨ Did Makes w.trace i q := by
  rcases hs.links _ k q hq with hq | ⟨-, -, x, v, b, rfl⟩
  · exact hT.own k q hq
  · exact Or.inr ((hT.makes q).mpr rfl)

/-- When a call returns, all items in the thread's buffer are done. -/
theorem Timed.own_return (hT : Timed C t i op w l) {r : BagRet α}
    (hs : HeapStep t w l σ (.inr r) g) {tk : Finset ℕ} {k q : ℕ}
    (hq : (g.items (bufferOf t))[k + 1]? = some q) :
    Before (w.record (.res t r) σ (g, tk)) (w.trace.length + 1) q := by
  rcases hT.own_record hs hq with hb | hd
  · have hb : Before (w.record (.res t r) σ (g, tk)) i q :=
      (before_record hT.lt_length.le).mpr hb
    exact hb.mono (hT.lt_length.le.trans (Nat.le_succ _))
  · exact hd.returned hT.running.1 rfl

/-- The call goes on. -/
theorem Timed.next {l' : Local α T} {tk : Finset ℕ} (hT : Timed C t i op w l)
    (hs : HeapStep t w l σ (.inl l') g)
    (hm : ∀ q, Did Makes w.trace i q ∨
      Makes q (⟨.tau t, w.shared, σ⟩ : Moment (machine α T n addresses)) ↔ l'.item = some q)
    (ht : ∀ q, Did Takes w.trace i q ∨
      Takes q (⟨.tau t, w.shared, σ⟩ : Moment (machine α T n addresses)) ↔ l'.took = some q)
    (hop : ∀ x, l' ≠ .newItem x)
    (hu : ∀ p, l'.item = some p → l'.unticked C = true → p ∉ tk)
    (hf : AllOf (TimeFact.Holds C t i (w.record (.tau t) σ (g, tk))) l'.timeFacts) :
    Timed C t i op (w.record (.tau t) σ (g, tk)) l' where
  heap := hs.knows l' rfl
  running := by
    rw [World.record_trace, history_append]
    exact hT.running.append fun _ => rfl
  own k q hq := (hT.own_record hs hq).imp (before_record hT.lt_length.le).mpr Did.append
  makes q := by
    rw [World.record_trace, did_step hT.running.1 (Or.inl rfl), ← hm q]
    simp only [true_and]
  takes q := by
    rw [World.record_trace, did_step hT.running.1 (Or.inl rfl), ← ht q]
    simp only [true_and]
  op x hx := absurd hx (hop x)
  unticked := hu
  facts := hf

/-! ### Accesses that change no clock and no item -/

/-- What the timestamps' invariant is about is the same. -/
structure Quiet (σ σ' : Shared α T) : Prop where
  alloc : σ'.alloc = σ.alloc
  clock : σ'.clock = σ.clock
  taken : ∀ q, (σ'.item q).taken = (σ.item q).taken
  data : ∀ q, (σ'.item q).data = (σ.item q).data
  timestamp : ∀ q, (σ'.item q).timestamp = (σ.item q).timestamp

theorem Quiet.refl (σ : Shared α T) : Quiet σ σ :=
  ⟨rfl, rfl, fun _ => rfl, fun _ => rfl, fun _ => rfl⟩

theorem Quiet.setNext (σ : Shared α T) (p next : ℕ) : Quiet σ (σ.setNext p next) := by
  have h : ∀ q, ((σ.setNext p next).item q).taken = (σ.item q).taken ∧
      ((σ.setNext p next).item q).data = (σ.item q).data ∧
      ((σ.setNext p next).item q).timestamp = (σ.item q).timestamp := by
    intro q
    by_cases hq : q = p
    · subst hq
      simp [Shared.setNext]
    · simp [Shared.setNext, Function.update_of_ne hq]
  exact ⟨rfl, rfl, fun q => (h q).1, fun q => (h q).2.1, fun q => (h q).2.2⟩

theorem Quiet.not_makes {e : Event (BagOp α) (BagRet α)} (hq : Quiet w.shared σ) (p : ℕ) :
    ¬ Makes p (⟨e, w.shared, σ⟩ : Moment (machine α T n addresses)) := by
  rintro ⟨-, x, hx⟩
  have h1 : σ.alloc = w.shared.alloc := hq.alloc
  have h2 : σ = w.shared.newItem x := hx
  rw [h2] at h1
  exact Nat.succ_ne_self _ h1

theorem Quiet.not_takes {e : Event (BagOp α) (BagRet α)} (hq : Quiet w.shared σ) (p : ℕ) :
    ¬ Takes p (⟨e, w.shared, σ⟩ : Moment (machine α T n addresses)) := by
  rintro ⟨h1, h2⟩
  have h3 : (σ.item p).taken = (w.shared.item p).taken := hq.taken p
  have h2 : (σ.item p).taken = true := h2
  have h1 : (w.shared.item p).taken = false := h1
  rw [h3, h1] at h2
  cases h2

theorem Quiet.stamped (hq : Quiet w.shared σ) : Stamped w σ := fun q _ => hq.timestamp q

theorem quiet_ok (hI : TimeInv C w) (hT : Timed C t i op w l) (hs : HeapStep t w l σ o g)
    (hq : Quiet w.shared σ)
    (hgo : ∀ l', o = .inl l' → l'.item = l.item ∧ l'.took = l.took ∧ (∀ x, l' ≠ .newItem x) ∧
      (l'.unticked C = true → l.unticked C = true) ∧
      AllOf (TimeFact.Holds C t i (w.record (.tau t) σ (g, w.ghost.2))) l'.timeFacts)
    (hstop : ∀ r, o = .inr r → l.item = none ∧ ∀ x, r = .got (some x) →
      ∃ p, l.took = some p ∧ p < w.shared.alloc ∧ (w.shared.item p).data = some x) :
    TimeOk C t i op w σ o := by
  have hlow : C.low σ.clock = C.low w.shared.clock := congrArg C.low hq.clock
  refine ⟨(g, w.ghost.2), ?_, fun l' ho => ?_, fun r ho => ?_, fun u hu =>
    ⟨hs.rely u hu, ?_, fun p _ _ hp => hp, hq.stamped⟩⟩
  · refine hI.record hT (Event.ofStep_cases (M := machine α T n addresses) t o) hs.inv hs.any hs.links ?_ ?_ ?_ hlow.ge ?_
      (fun j q _ => Or.inl (congrArg C.value (hq.timestamp q)))
      (fun p hm => absurd hm (hq.not_makes p)) (fun p h1 h2 _ => ?_)
      (fun p hm => absurd hm (hq.not_takes p)) (fun r p he hp => ?_) fun x he => ?_
    · rw [hq.alloc]
      exact hI.space
    · intro p hp
      rw [hq.alloc]
      exact hI.ticked p hp
    · rw [hlow]
      exact hI.clock
    · intro p hp
      rw [hq.alloc] at hp
      rw [hq.taken]
      exact hI.fresh p hp
    · rw [hq.alloc] at h2
      omega
    · cases o with
      | inl l' => cases he
      | inr r =>
        rw [(hstop r rfl).1] at hp
        cases hp
    · cases o with
      | inl l' => cases he
      | inr r =>
        obtain rfl : r = .got (some x) := by simpa [Event.ofStep] using he
        exact (hstop _ rfl).2 x rfl
  · subst ho
    obtain ⟨hitem, htook, hne, hun, hf⟩ := hgo l' rfl
    refine hT.next hs (fun q => ?_) (fun q => ?_) hne (fun p hp hu => ?_) hf
    · rw [hitem, ← hT.makes q]
      exact or_iff_left (hq.not_makes q)
    · rw [htook, ← hT.takes q]
      exact or_iff_left (hq.not_takes q)
    · exact hT.unticked p (hitem ▸ hp) (hun hu)
  · subst ho
    exact ⟨hs.ready r rfl, fun k q hq => hT.own_return hs hq⟩
  · show C.Advance u w.shared.clock σ.clock
    rw [hq.clock]
    exact C.refl u _

theorem go_ok {l' : Local α T} (hI : TimeInv C w) (hT : Timed C t i op w l)
    (hs : HeapStep t w l σ (.inl l') g) (hq : Quiet w.shared σ) (hitem : l'.item = l.item)
    (htook : l'.took = l.took) (hne : ∀ x, l' ≠ .newItem x)
    (hu : l'.unticked C = true → l.unticked C = true)
    (hf : AllOf (TimeFact.Holds C t i (w.record (.tau t) σ (g, w.ghost.2))) l'.timeFacts) :
    TimeOk C t i op w σ (.inl l') := by
  refine quiet_ok hI hT hs hq (fun m hm => ?_) fun r hr => by cases hr
  obtain rfl := Sum.inl.inj hm
  exact ⟨hitem, htook, hne, hu, hf⟩

/-! ### Pushing -/

/-- The item of a call that is pending is not done. -/
theorem Timed.not_done (hT : Timed C t i op w l) (hI : TimeInv C w) {p : ℕ}
    (hp : l.item = some p) : ¬ DoneBefore Makes w.trace p w.trace.length := by
  rintro ⟨j, hj, hpre⟩
  obtain rfl := hI.order.once hj ((hT.makes p).mpr hp)
  exact hT.running.1.open.not_precedes hpre

theorem newItem_timed {x : α} (hI : TimeInv C w) (hT : Timed C t i op w (.newItem x))
    (haddr : addresses ≤ addressSpace) (halloc : w.shared.alloc < addresses)
    (hs : HeapStep t w (.newItem x) (w.shared.newItem x)
      (.inl (.loadSPBuffer x w.shared.alloc)) g) :
    TimeOk C t i op w (w.shared.newItem x) (.inl (.loadSPBuffer x w.shared.alloc)) := by
  have hold : ∀ q, q ≠ w.shared.alloc → (w.shared.newItem x).item q = w.shared.item q :=
    fun q hq => Function.update_of_ne hq ..
  have hself : (w.shared.newItem x).item w.shared.alloc =
      ⟨0, false, some x, T.initTopAtomic⟩ := Function.update_self ..
  have hmakes : Makes w.shared.alloc
      (⟨.tau t, w.shared, w.shared.newItem x⟩ : Moment (machine α T n addresses)) :=
    ⟨rfl, x, rfl⟩
  have htakes : ∀ q, ¬ Takes q
      (⟨.tau t, w.shared, w.shared.newItem x⟩ : Moment (machine α T n addresses)) := by
    rintro q ⟨h1, h2⟩
    have h1 : (w.shared.item q).taken = false := h1
    have h2 : ((w.shared.newItem x).item q).taken = true := h2
    by_cases hq : q = w.shared.alloc
    · subst hq
      rw [hself] at h2
      cases h2
    · rw [hold q hq, h1] at h2
      cases h2
  have hmade : ∀ {j q}, Did Makes w.trace j q → q ≠ w.shared.alloc := fun hj =>
    Nat.ne_of_lt (hI.made hj).1
  refine ⟨(g, w.ghost.2), ?_, fun l' hl' => ?_, (fun _ h => by cases h), fun u hu => ⟨hs.rely u hu, C.refl u _,
    fun p _ _ hp => hp, fun q hq => ?_⟩⟩
  · refine hI.record hT (Or.inl rfl) hs.inv hs.any hs.links ?_
      (fun p hp => Nat.lt_succ_of_lt (hI.ticked p hp)) hI.clock le_rfl (fun p hp => ?_)
      (fun j q hj => Or.inl ?_) (fun p hm => ?_) (fun p h1 h2 _ => ?_)
      (fun p hm => absurd hm (htakes p)) (fun r p hr => by cases hr) fun x hr => by cases hr
    · have hlt : w.shared.alloc < addressSpace := halloc.trans_le haddr
      exact hlt
    · have hp : w.shared.alloc + 1 ≤ p := hp
      rw [hold p (by omega)]
      exact hI.fresh p (by omega)
    · rw [valueOf, valueOf, hold q (hmade hj)]
    · obtain rfl : w.shared.alloc = p := hm.1
      exact ⟨Nat.lt_succ_self _, rfl, x, rfl, by rw [hself]⟩
    · have h2 : p < w.shared.alloc + 1 := h2
      obtain rfl : p = w.shared.alloc := by omega
      exact hmakes
  · obtain rfl := Sum.inl.inj hl'
    refine hT.next hs (fun q => ?_) (fun q => ?_) (fun _ h => by cases h) (fun p hp _ => ?_) trivial
    · show _ ↔ some w.shared.alloc = some q
      rw [hT.makes q, Option.some_inj]
      constructor
      · rintro (h | ⟨h, -⟩)
        · cases h
        · exact h
      · rintro rfl
        exact Or.inr hmakes
    · rw [hT.takes q]
      exact or_iff_left (htakes q)
    · obtain rfl := Option.some.inj hp
      exact fun h => Nat.lt_irrefl _ (hI.ticked _ h)
  · obtain ⟨j, hj, -⟩ := hq
    exact congrArg Item.timestamp (hold q (hmade hj))

theorem register_timed {x : α} {p : ℕ} (hI : TimeInv C w) (hT : Timed C t i op w (.register x p))
    (haddr : addresses ≤ addressSpace) (halloc : w.shared.alloc < addresses)
    (hs : HeapStep t w (.register x p) (w.shared.newBuffer t) (.inl (.loadEntryNext x p)) g) :
    TimeOk C t i op w (w.shared.newBuffer t) (.inl (.loadEntryNext x p)) := by
  have hold : ∀ q, q ≠ w.shared.alloc → (w.shared.newBuffer t).item q = w.shared.item q :=
    fun q hq => Function.update_of_ne hq ..
  have hself : (w.shared.newBuffer t).item w.shared.alloc = sentinel α T w.shared.alloc :=
    Function.update_self ..
  have hmakes : ∀ q, ¬ Makes q
      (⟨.tau t, w.shared, w.shared.newBuffer t⟩ : Moment (machine α T n addresses)) := by
    intro q hm
    obtain ⟨y, hy⟩ := hm.item
    obtain rfl : w.shared.alloc = q := hm.1
    have hy := hself.symm.trans hy
    cases congrArg Item.taken hy
  have htakes : ∀ q, ¬ Takes q
      (⟨.tau t, w.shared, w.shared.newBuffer t⟩ : Moment (machine α T n addresses)) := by
    rintro q ⟨h1, h2⟩
    have h1 : (w.shared.item q).taken = false := h1
    have h2 : ((w.shared.newBuffer t).item q).taken = true := h2
    by_cases hq : q = w.shared.alloc
    · rw [hI.fresh q hq.ge] at h1
      cases h1
    · rw [hold q hq, h1] at h2
      cases h2
  have hmade : ∀ {j q}, Did Makes w.trace j q → q ≠ w.shared.alloc := fun hj =>
    Nat.ne_of_lt (hI.made hj).1
  refine ⟨(g, w.ghost.2), ?_, fun l' hl' => ?_, (fun _ h => by cases h), fun u hu => ⟨hs.rely u hu, C.refl u _,
    fun p _ _ hp => hp, fun q hq => ?_⟩⟩
  · refine hI.record hT (Or.inl rfl) hs.inv hs.any hs.links ?_
      (fun p hp => Nat.lt_succ_of_lt (hI.ticked p hp)) hI.clock le_rfl (fun q hq => ?_)
      (fun j q hj => Or.inl ?_) (fun q hm => absurd hm (hmakes q)) (fun q h1 h2 hd => ?_)
      (fun q hm => absurd hm (htakes q)) (fun r p hr => by cases hr) fun x hr => by cases hr
    · have hlt : w.shared.alloc < addressSpace := halloc.trans_le haddr
      exact hlt
    · have hq : w.shared.alloc + 1 ≤ q := hq
      rw [hold q (by omega)]
      exact hI.fresh q (by omega)
    · rw [valueOf, valueOf, hold q (hmade hj)]
    · have h2 : q < w.shared.alloc + 1 := h2
      obtain rfl : q = w.shared.alloc := by omega
      rw [hself] at hd
      cases hd
  · obtain rfl := Sum.inl.inj hl'
    refine hT.next hs (fun q => ?_) (fun q => ?_) (fun _ h => by cases h) hT.unticked trivial
    · rw [hT.makes q]
      exact or_iff_left (hmakes q)
    · rw [hT.takes q]
      exact or_iff_left (htakes q)
  · obtain ⟨j, hj, -⟩ := hq
    exact congrArg Item.timestamp (hold q (hmade hj))

theorem setTimestamp_timed {x : α} {p : ℕ} {s : T.Setting} {ch : T.Choice} {c' : T.Clock}
    {st : T.Stamp} {next : Option T.Setting} (hI : TimeInv C w)
    (hT : Timed C t i op w (.setTimestamp x p s))
    (hset : T.setStep ch w.shared.clock (w.shared.item p).timestamp s = (c', st, next))
    (hs : HeapStep t w (.setTimestamp x p s) (w.shared.setStamp p c' st)
      (next.elim (.inr (.put true)) fun s' => .inl (.setTimestamp x p s')) g) :
    TimeOk C t i op w (w.shared.setStamp p c' st)
      (next.elim (.inr (.put true)) fun s' => .inl (.setTimestamp x p s')) := by
  obtain ⟨⟨k, hk⟩, hok, hlow⟩ : (TimeFact.setting p s : TimeFact T).Holds C t i w := hT.facts
  obtain ⟨hadv, hle, htick, hsome, hnone⟩ := C.setStep hok hI.low_lt hset
  have hp : Did Makes w.trace i p := (hT.makes p).mpr rfl
  have hold : ∀ q, q ≠ p → (w.shared.setStamp p c' st).item q = w.shared.item q :=
    fun q hq => Function.update_of_ne hq ..
  have hself : (w.shared.setStamp p c' st).item p = { w.shared.item p with timestamp := st } :=
    Function.update_self ..
  have hkeep : ∀ q, ((w.shared.setStamp p c' st).item q).taken = (w.shared.item q).taken ∧
      ((w.shared.setStamp p c' st).item q).data = (w.shared.item q).data := by
    intro q
    by_cases hq : q = p
    · subst hq
      rw [hself]
      exact ⟨rfl, rfl⟩
    · rw [hold q hq]
      exact ⟨rfl, rfl⟩
  have hmakes : ∀ (e : Event (BagOp α) (BagRet α)) q, ¬ Makes q
      (⟨e, w.shared, w.shared.setStamp p c' st⟩ : Moment (machine α T n addresses)) := by
    rintro e q ⟨-, y, hy⟩
    exact Nat.succ_ne_self w.shared.alloc (congrArg Shared.alloc hy).symm
  have htakes : ∀ (e : Event (BagOp α) (BagRet α)) q, ¬ Takes q
      (⟨e, w.shared, w.shared.setStamp p c' st⟩ : Moment (machine α T n addresses)) := by
    rintro e q ⟨h1, h2⟩
    have h1 : (w.shared.item q).taken = false := h1
    have h2 : ((w.shared.setStamp p c' st).item q).taken = true := h2
    rw [(hkeep q).1, h1] at h2
    cases h2
  have hstamped : Stamped w (w.shared.setStamp p c' st) := by
    intro q hq
    have hqp : q ≠ p := by
      rintro rfl
      exact hT.not_done hI rfl hq
    rw [hold q hqp]
  obtain ⟨tk, htk, hcard, hun⟩ := C.tick htick (fun s' hs' => (hsome s' hs').2.2.2)
    (hT.unticked p rfl) hI.clock
  have hinv : ∀ (e : Event (BagOp α) (BagRet α)), (e = .tau t ∨ ∃ r, e = .res t r) →
      (∀ r, e = .res t r → next = none) →
      (∀ x, e ≠ .res t (.got (some x))) →
      TimeInv C (w.record e (w.shared.setStamp p c' st) (g, tk)) := by
    intro e he hr hgot
    refine hI.record hT he hs.inv hs.any hs.links hI.space (fun q hq => ?_) hcard hle
      (fun q hq => ?_) (fun j q hj => ?_) (fun q hm => absurd hm (hmakes e q))
      (fun q h1 h2 _ => absurd (Nat.lt_of_le_of_lt h1 h2) (Nat.lt_irrefl _))
      (fun q hm => absurd hm (htakes e q)) (fun r q he' hq => ?_) fun x he' => absurd he' (hgot x)
    · rcases htk q hq with hq | rfl
      · exact hI.ticked q hq
      · exact (hI.made hp).1
    · rw [(hkeep q).1]
      exact hI.fresh q hq
    · by_cases hq : q = p
      · subst hq
        cases hn : next with
        | some s' =>
          refine Or.inl ?_
          rw [valueOf, hself, (hsome s' hn).1]
          rfl
        | none =>
          obtain rfl := hI.order.once hj hp
          refine Or.inr ⟨rfl, fun y hy => (hlow y hy).trans_le ?_⟩
          rw [valueOf, hself]
          exact (hnone hn).1
      · rw [valueOf, hold q hq]
        exact Or.inl rfl
    · obtain rfl := Option.some.inj hq
      refine ⟨⟨k, hk⟩, ?_⟩
      rw [valueOf, hself]
      exact (hnone (hr r he')).2
  have hrely : ∀ (e : Event (BagOp α) (BagRet α)) u, u ≠ t →
      TimeRely C u w (w.record e (w.shared.setStamp p c' st) (g, tk)) := by
    refine fun e u hu => ⟨hs.rely u hu, hadv u hu, fun q _ ho hq hq' => ?_, hstamped⟩
    rcases htk q hq' with h | rfl
    · exact hq h
    · exact hu (ho.symm.trans (hT.heap.owner rfl).2)
  cases next with
  | none =>
    refine ⟨(g, tk), hinv _ (Or.inr ⟨_, rfl⟩) (fun _ _ => rfl) (fun y hy => by cases hy), (fun _ h => by cases h),
      fun r hr => ⟨hs.ready r hr, fun k q hq => ?_⟩, hrely _⟩
    obtain rfl := Sum.inr.inj hr
    exact hT.own_return hs hq
  | some s' =>
    obtain ⟨-, hok', hlow', -⟩ := hsome s' rfl
    refine ⟨(g, tk), hinv _ (Or.inl rfl) (fun r hr => by cases hr) (fun y hy => by cases hy),
      fun l' hl' => ?_, (fun _ h => by cases h), hrely _⟩
    obtain rfl := Sum.inl.inj hl'
    refine hT.next hs (fun q => ?_) (fun q => ?_) (fun _ h => by cases h) (fun q hq hf => ?_)
      ⟨⟨k, hs.any.getElem hk⟩, hok', fun q hq => ?_⟩
    · rw [hT.makes q]
      exact or_iff_left (hmakes _ q)
    · rw [hT.takes q]
      exact or_iff_left (htakes _ q)
    · obtain rfl := Option.some.inj hq
      exact hun s' rfl hf
    · have hq := (before_record hT.lt_length.le).mp hq
      exact (hstamped.valueOf_eq hT.lt_length.le hq).trans_lt ((hlow q hq).trans_le hlow')

theorem push_timed {ch : Choice T} (hI : TimeInv C w) (hT : Timed C t i op w l) (htn : t < n)
    (haddr : addresses ≤ addressSpace) (hl : l.pushes = true)
    (hst : step n addresses t ch w.shared l = some (σ, o)) (hs : HeapStep t w l σ o g) :
    TimeOk C t i op w σ o := by
  have hq := Quiet.refl w.shared
  cases l with
  | newItem x =>
    simp only [step] at hst
    split_ifs at hst with halloc
    obtain ⟨rfl, rfl⟩ := Prod.mk.inj (Option.some.inj hst)
    exact newItem_timed hI hT haddr halloc hs
  | loadSPBuffer x p =>
    simp only [step] at hst
    split_ifs at hst
    · obtain ⟨rfl, rfl⟩ := Prod.mk.inj (Option.some.inj hst)
      exact go_ok hI hT hs hq rfl rfl (fun _ h => by cases h) (fun _ => rfl) trivial
    · obtain ⟨rfl, rfl⟩ := Prod.mk.inj (Option.some.inj hst)
      exact go_ok hI hT hs hq rfl rfl (fun _ h => by cases h) (fun _ => rfl) trivial
  | register x p =>
    simp only [step] at hst
    split_ifs at hst with halloc
    obtain ⟨rfl, rfl⟩ := Prod.mk.inj (Option.some.inj hst)
    exact register_timed hI hT haddr halloc hs
  | loadEntryNext x p =>
    obtain ⟨rfl, rfl⟩ := Prod.mk.inj (Option.some.inj hst)
    exact go_ok hI hT hs hq rfl rfl (fun _ h => by cases h) (fun _ => rfl) trivial
  | storeBufferNext x p next =>
    obtain ⟨rfl, rfl⟩ := Prod.mk.inj (Option.some.inj hst)
    exact go_ok hI hT hs ⟨rfl, rfl, fun _ => rfl, fun _ => rfl, fun _ => rfl⟩ rfl rfl (fun _ h => by cases h)
      (fun _ => rfl) trivial
  | linkBuffer x p next =>
    simp only [step] at hst
    split_ifs at hst
    · obtain ⟨rfl, rfl⟩ := Prod.mk.inj (Option.some.inj hst)
      exact go_ok hI hT hs ⟨rfl, rfl, fun _ => rfl, fun _ => rfl, fun _ => rfl⟩ rfl rfl (fun _ h => by cases h)
        (fun _ => rfl) trivial
    · obtain ⟨rfl, rfl⟩ := Prod.mk.inj (Option.some.inj hst)
      exact go_ok hI hT hs hq rfl rfl (fun _ h => by cases h) (fun _ => rfl) trivial
  | reloadSPBuffer x p =>
    obtain ⟨rfl, rfl⟩ := Prod.mk.inj (Option.some.inj hst)
    exact go_ok hI hT hs hq rfl rfl (fun _ h => by cases h) (fun _ => rfl) trivial
  | loadOldTop x p b =>
    obtain ⟨rfl, rfl⟩ := Prod.mk.inj (Option.some.inj hst)
    exact go_ok hI hT hs hq rfl rfl (fun _ h => by cases h) (fun _ => rfl) trivial
  | topNext x p v top =>
    simp only [step] at hst
    split_ifs at hst
    · obtain ⟨rfl, rfl⟩ := Prod.mk.inj (Option.some.inj hst)
      exact go_ok hI hT hs hq rfl rfl (fun _ h => by cases h) (fun _ => rfl) trivial
    · obtain ⟨rfl, rfl⟩ := Prod.mk.inj (Option.some.inj hst)
      exact go_ok hI hT hs hq rfl rfl (fun _ h => by cases h) (fun _ => rfl) trivial
  | topTaken x p v top =>
    simp only [step] at hst
    split_ifs at hst
    · obtain ⟨rfl, rfl⟩ := Prod.mk.inj (Option.some.inj hst)
      exact go_ok hI hT hs hq rfl rfl (fun _ h => by cases h) (fun _ => rfl) trivial
    · obtain ⟨rfl, rfl⟩ := Prod.mk.inj (Option.some.inj hst)
      exact go_ok hI hT hs hq rfl rfl (fun _ h => by cases h) (fun _ => rfl) trivial
  | topStep x p v top =>
    obtain ⟨rfl, rfl⟩ := Prod.mk.inj (Option.some.inj hst)
    exact go_ok hI hT hs hq rfl rfl (fun _ h => by cases h) (fun _ => rfl) trivial
  | storeNext x p v top =>
    obtain ⟨rfl, rfl⟩ := Prod.mk.inj (Option.some.inj hst)
    exact go_ok hI hT hs (.setNext ..) rfl rfl (fun _ h => by cases h) (fun _ => rfl) trivial
  | listSPBuffer x p v =>
    obtain ⟨rfl, rfl⟩ := Prod.mk.inj (Option.some.inj hst)
    exact go_ok hI hT hs hq rfl rfl (fun _ h => by cases h) (fun _ => rfl) trivial
  | storeList x p v b =>
    obtain ⟨rfl, rfl⟩ := Prod.mk.inj (Option.some.inj hst)
    obtain ⟨hok, hfresh, hlow⟩ := C.setStart w.shared.clock htn
    refine go_ok hI hT hs ⟨rfl, rfl, fun _ => rfl, fun _ => rfl, fun _ => rfl⟩ rfl rfl (fun _ h => by cases h)
      (fun _ => rfl) ⟨?_, hok, fun q hq => ?_⟩
    · -- the item is the only new one, above the sentinel
      obtain ⟨-, -, -, -, hm⟩ := hs.knows _ rfl
      obtain ⟨k, hk⟩ := List.mem_iff_getElem?.mp hm
      obtain ⟨-, hreg, ⟨j, top, -, -, hown⟩, -⟩ := hT.heap
      cases k with
      | succ k => exact ⟨k, hk⟩
      | zero =>
        have hne := (hI.heap.registered t hreg.1).2.2.2
        have hpos := List.length_pos_of_ne_nil hne
        have hget : (w.ghost.1.items (bufferOf t))[0]? = some (w.ghost.1.items (bufferOf t))[0] :=
          List.getElem?_eq_getElem hpos
        have hp := (hs.any.getElem hget).symm.trans hk
        exact absurd (List.mem_of_getElem? (hget.trans hp)) (hown.unlinked _)
    · have hq := (before_record hT.lt_length.le).mp hq
      exact (hI.order.done (hq.mono hT.lt_length.le)).trans_le hlow
  | setTimestamp x p s =>
    rcases hset : T.setStep ch.time w.shared.clock (w.shared.item p).timestamp s with
      ⟨c', st, next⟩
    simp only [step, hset] at hst
    obtain ⟨rfl, rfl⟩ := Prod.mk.inj (Option.some.inj hst)
    cases next with
    | none => exact setTimestamp_timed hI hT hset hs
    | some s' => exact setTimestamp_timed hI hT hset hs
  | _ => cases hl

/-! ### Scanning -/

/-- A fact that does not depend on the clock survives an access that changes no item. -/
theorem HeapStep.keep (hs : HeapStep t w l σ o g) (hI : TimeInv C w)
    (hT : Timed C t i op w l) (hq : Quiet w.shared σ) {e : Event (BagOp α) (BagRet α)}
    {F : TimeFact T} (hF : F.Holds C t i w) (hl : F.lasting = true) :
    F.Holds C t i (w.record e σ (g, w.ghost.2)) :=
  hF.record hl hI hs.inv hs.any hq.stamped hT.lt_length.le

theorem noElement_timed (hI : TimeInv C w) (hT : Timed C t i op w l)
    (hs : HeapStep t w l σ (noElement s) g) (hq : Quiet w.shared σ) (hitem : l.item = none)
    (htook : l.took = none)
    (he : (TimeFact.earlier s.invocationTime : TimeFact T).Holds C t i w) :
    TimeOk C t i op w σ (noElement s) := by
  rw [noElement] at hs ⊢
  split_ifs at hs ⊢ with hempty
  · refine quiet_ok hI hT hs hq (fun _ h => by cases h) fun r hr => ⟨hitem, fun x hx => ?_⟩
    obtain rfl := Sum.inr.inj hr
    cases hx
  · exact go_ok hI hT hs hq hitem.symm htook.symm (fun _ h => by cases h)
      (fun _ => by cases l <;> first | rfl | cases hitem) (hs.keep hI hT hq he rfl)

/-- A buffer was visited. -/
theorem loopEnd_timed (hI : TimeInv C w) (hT : Timed C t i op w l)
    (hs : HeapStep t w l σ (loopEnd (σ.buffer s.currentBuffer).index s) g)
    (hq : Quiet w.shared σ) (hitem : l.item = none) (htook : l.took = none)
    (he : (TimeFact.earlier s.invocationTime : TimeFact T).Holds C t i w)
    (hr : (TimeFact.result s).Holds C t i w) {c : ℕ} {rest : ℕ → Prop}
    (hv : Visiting w.ghost.1.ring s.startBuffer s.currentBuffer s.entryCounter c rest)
    (hC : Covered C i s.timestamp rest w) :
    TimeOk C t i op w σ (loopEnd (σ.buffer s.currentBuffer).index s) := by
  have hu : l.unticked C = true := by cases l <;> first | rfl | cases hitem
  rcases (hv.mono hs.any.ring).loopEnd hs.inv with ⟨heq, hrest⟩ | ⟨counter, heq, hleave⟩
  · rw [heq] at hs ⊢
    rw [afterLoop] at hs ⊢
    split_ifs at hs ⊢ with h0
    · have hcovered : (TimeFact.covered s).Holds C t i w := fun j b k q hj _ hq hb =>
        hC j b k q hj (hrest j) hq hb
      exact go_ok hI hT hs hq hitem.symm htook.symm (fun _ h => by cases h) (fun _ => hu)
        ⟨hs.keep hI hT hq he rfl, hs.keep hI hT hq hr rfl, hs.keep hI hT hq hcovered rfl⟩
    · exact noElement_timed hI hT hs hq hitem htook he
  · rw [heq] at hs ⊢
    exact go_ok hI hT hs hq hitem.symm htook.symm (fun _ h => by cases h) (fun _ => hu)
      ⟨hs.keep hI hT hq he rfl, hs.keep hI hT hq hr rfl, rest, hleave,
        hC.record hI hs.inv hs.any hq.stamped hT.lt_length.le⟩

/-- All items of the current buffer that were pushed before are taken. -/
theorem Covered.clear {time : T.Time} {b c : ℕ} {rest : ℕ → Prop}
    (hC : Covered C i time (fun j => j = c ∨ rest j) w) (hb : w.ghost.1.ring[c]? = some b)
    (hclear : (TimeFact.clear b : TimeFact T).Holds C t i w) : Covered C i time rest w := by
  intro j b' k q hj hrest hq hbefore
  by_cases hjc : j = c
  · subst hjc
    obtain rfl := Option.some.inj (hj.symm.trans hb)
    exact Or.inl (hclear k q hq hbefore)
  · exact hC j b' k q hj (fun h => h.elim hjc hrest) hq hbefore

theorem time_compare (C : Counting T n) (s : Scan T) (p : ℕ) (time : T.Time)
    (v : TaggedPointer) : C.time s.timestamp ≤ C.time (s.compare p time v).timestamp ∧
      C.time time ≤ C.time (s.compare p time v).timestamp := by
  rw [Scan.compare]
  split_ifs with h
  · rw [C.isLater, decide_eq_true_eq] at h
    exact ⟨h.le, le_rfl⟩
  · rw [C.isLater, decide_eq_true_eq] at h
    exact ⟨le_rfl, Nat.le_of_not_lt h⟩

/-- The item of the current buffer was compared, and those below it are earlier. -/
theorem Covered.compare (hI : TimeInv C w) {b c p : ℕ} {rest : ℕ → Prop}
    (hC : Covered C i s.timestamp (fun j => j = c ∨ rest j) w)
    (hb : w.ghost.1.ring[c]? = some b)
    (habove : (TimeFact.above b p : TimeFact T).Holds C t i w) {time : T.Time}
    (htime : C.time time = valueOf C w.shared p) (v : TaggedPointer) :
    Covered C i (s.compare p time v).timestamp rest w := by
  obtain ⟨hold, hnew⟩ := time_compare C s p time v
  intro j b' k q hj hrest hq hbefore
  by_cases hjc : j = c
  · subst hjc
    obtain rfl := Option.some.inj (hj.symm.trans hb)
    obtain ⟨m, hm, hT⟩ := habove
    rcases Nat.lt_trichotomy m (k + 1) with hlt | rfl | hgt
    · exact Or.inl (hT (k + 1) q hlt hq hbefore)
    · obtain rfl := Option.some.inj (hq.symm.trans hm)
      exact Or.inr (htime.symm.trans_le hnew)
    · obtain ⟨m, rfl⟩ : ∃ m', m = m' + 1 := ⟨m - 1, by omega⟩
      obtain ⟨ip, hip⟩ := hI.allocated (hI.heap.bound _ _ _ hm).2 (hI.heap.data _ _ _ hm).2
      have hlt := hI.order.order (hI.buffer hq hm (by omega) hip) hip
      exact Or.inr (hlt.le.trans (htime.symm.trans_le hnew))
  · exact (hC j b' k q hj (fun h => h.elim hjc hrest) hq hbefore).imp_right fun h =>
      h.trans hold

/-- The next random step, or the scan begins. -/
theorem skipTo_timed {time : T.Time} {b count : ℕ} (hI : TimeInv C w)
    (hT : Timed C t i op w l) (hs : HeapStep t w l w.shared (skipTo w.shared time count b) g)
    (hb : b ∈ g.ring) (hitem : l.item = none) (htook : l.took = none)
    (he : (TimeFact.earlier time : TimeFact T).Holds C t i w) :
    TimeOk C t i op w w.shared (skipTo w.shared time count b) := by
  have hq := Quiet.refl w.shared
  have hu : l.unticked C = true := by cases l <;> first | rfl | cases hitem
  cases count with
  | zero =>
    obtain ⟨counter, rest, heq, hleave, hall⟩ := loopHead_init hs.inv hb time
    have hs : HeapStep t w l w.shared
      (loopHead (w.shared.buffer b).index (.init time b)) g := hs
    show TimeOk C t i op w w.shared (loopHead (w.shared.buffer b).index (.init time b))
    rw [heq] at hs ⊢
    refine go_ok hI hT hs hq hitem.symm htook.symm (fun _ h => by cases h) (fun _ => hu)
      ⟨hs.keep hI hT hq he rfl, fun h0 => ?_, rest, hleave, fun j _ _ _ _ hj =>
        absurd (hall j) hj⟩
    -- no item has the address `NULL`
    have h0 := (before_record hT.lt_length.le).mp h0
    obtain ⟨b', k, hk⟩ := hI.linked (h0.mono hT.lt_length.le)
    exact absurd rfl (hI.heap.bound _ _ _ hk).1
  | succ count =>
    exact go_ok hI hT hs hq hitem.symm htook.symm (fun _ h => by cases h) (fun _ => hu) (hs.keep hI hT hq he rfl)

theorem take_timed {p b : ℕ} {v : TaggedPointer} {time : T.Time} (hI : TimeInv C w)
    (hT : Timed C t i op w l) (hs : HeapStep t w l (w.shared.take p)
      (.inl (.swapList time b v p)) g) (hitem : l.item = none) (htook : l.took = none)
    (hfree : (w.shared.item p).taken = false)
    (hbelow : ∀ ia ib b, Did Makes w.trace ia p → Did Makes w.trace ib b →
      Precedes (history w.trace) ia ib → Before w i b → (w.shared.item b).taken = true) :
    TimeOk C t i op w (w.shared.take p) (.inl (.swapList time b v p)) := by
  have hold : ∀ q, q ≠ p → (w.shared.take p).item q = w.shared.item q := fun q hq =>
    Function.update_of_ne hq ..
  have hself : (w.shared.take p).item p = { w.shared.item p with taken := true } :=
    Function.update_self ..
  have hstamp : ∀ q, ((w.shared.take p).item q).timestamp = (w.shared.item q).timestamp := by
    intro q
    by_cases hq : q = p
    · subst hq
      rw [hself]
    · rw [hold q hq]
  have hmakes : ∀ q, ¬ Makes q
      (⟨.tau t, w.shared, w.shared.take p⟩ : Moment (machine α T n addresses)) := by
    rintro q ⟨-, y, hy⟩
    exact Nat.succ_ne_self w.shared.alloc (congrArg Shared.alloc hy).symm
  have htakes : ∀ q, Takes q
      (⟨.tau t, w.shared, w.shared.take p⟩ : Moment (machine α T n addresses)) ↔ p = q := by
    intro q
    constructor
    · rintro ⟨h1, h2⟩
      have h1 : (w.shared.item q).taken = false := h1
      have h2 : ((w.shared.take p).item q).taken = true := h2
      by_contra hq
      rw [hold q (Ne.symm hq), h1] at h2
      cases h2
    · rintro rfl
      exact ⟨hfree, congrArg Item.taken hself⟩
  refine ⟨(g, w.ghost.2), ?_, fun l' hl' => ?_, (fun _ h => by cases h), fun u hu => ⟨hs.rely u hu, C.refl u _,
    fun p _ _ hp => hp, fun q _ => hstamp q⟩⟩
  · refine hI.record hT (Or.inl rfl) hs.inv hs.any hs.links hI.space hI.ticked hI.clock le_rfl
      (fun q hq => ?_) (fun j q _ => Or.inl (congrArg C.value (hstamp q)))
      (fun q hm => absurd hm (hmakes q))
      (fun q h1 h2 _ => absurd (Nat.lt_of_le_of_lt h1 h2) (Nat.lt_irrefl _))
      (fun a hm => ⟨htook, ?_⟩) (fun r q hr => by cases hr) fun y hr => by cases hr
    · by_cases hqp : q = p
      · subst hqp
        rw [hself]
      · rw [hold q hqp]
        exact hI.fresh q hq
    · obtain rfl := (htakes a).mp hm
      exact hbelow
  · obtain rfl := Sum.inl.inj hl'
    refine hT.next hs (fun q => ?_) (fun q => ?_) (fun _ h => by cases h) (fun _ h => by cases h) trivial
    · rw [hT.makes q, hitem]
      exact or_iff_left (hmakes q)
    · rw [hT.takes q, htook, htakes q]
      show none = some q ∨ p = q ↔ some p = some q
      rw [Option.some_inj]
      exact or_iff_right fun h => by cases h

/-- An older item is taken only if the younger one is. -/
theorem TimeInv.order_lt (hI : TimeInv C w) {ia ib a b : ℕ} (ha : Did Makes w.trace ia a)
    (hb : Did Makes w.trace ib b) (hab : Precedes (history w.trace) ia ib) :
    valueOf C w.shared a < valueOf C w.shared b :=
  hI.order.order ⟨ia, ha, hab⟩ hb

theorem before_of_precedes (hI : TimeInv C w) {ia ib a b : ℕ} (ha : Did Makes w.trace ia a)
    (hb : Did Makes w.trace ib b) (hab : Precedes (history w.trace) ia ib)
    (hbefore : Before w i b) : Before w i a := by
  obtain ⟨ib', hb', hpre⟩ := hbefore
  obtain rfl := hI.order.once hb hb'
  obtain ⟨j, r, hr, hj⟩ := hab
  exact ⟨ia, ha, j, r, hr, hj.trans hpre.lt⟩

theorem loadNext_timed {again : Bool} {v : TaggedPointer} {p : ℕ} {ch : Choice T}
    (hI : TimeInv C w) (hT : Timed C t i op w (.loadNext s again v p))
    (hst : step n addresses t ch w.shared (.loadNext s again v p) = some (σ, o))
    (hs : HeapStep t w (.loadNext s again v p) σ o g) : TimeOk C t i op w σ o := by
  have hq := Quiet.refl w.shared
  obtain ⟨he, hr, hv, k, hk, habove⟩ := hT.facts
  obtain ⟨-, -, -, -, -, m, hm, htaken⟩ := hT.heap
  obtain rfl := (hI.heap.unique _ _ _ _ _ hm hk).2
  simp only [step] at hst
  split_ifs at hst with hnext
  · obtain ⟨rfl, rfl⟩ := Prod.mk.inj (Option.some.inj hst)
    -- only a sentinel's `next` leads to itself
    obtain rfl : m = 0 := by
      cases m with
      | zero => rfl
      | succ m =>
        obtain ⟨j, q, hj, hq', hn, -⟩ := hI.heap.next _ _ _ hm
        rw [hnext] at hn
        subst hn
        have := (hI.heap.unique _ _ _ _ _ hq' hm).2
        omega
    have hclear : (TimeFact.clear s.currentBuffer : TimeFact T).Holds C t i w :=
      fun k q hq hb => habove (k + 1) q (Nat.succ_pos k) hq hb
    exact go_ok hI hT hs hq rfl rfl (fun _ h => by cases h) (fun _ => rfl)
      ⟨hs.keep hI hT hq he rfl, hs.keep hI hT hq hr rfl, hs.keep hI hT hq hv rfl,
        hs.keep hI hT hq hclear rfl⟩
  · obtain ⟨rfl, rfl⟩ := Prod.mk.inj (Option.some.inj hst)
    have hnew : (TimeFact.above s.currentBuffer (w.shared.item p).next : TimeFact T).Holds
        C t i w := by
      cases m with
      | zero => exact absurd (hI.heap.sentinel _ _ hm).2 hnext
      | succ m =>
        obtain ⟨j, q, hj, hq', hn, hpast⟩ := hI.heap.next _ _ _ hm
        rw [hn]
        refine ⟨j, hq', fun m' q' hlt hq'' hb => ?_⟩
        rcases Nat.lt_trichotomy m' (m + 1) with h | rfl | h
        · exact hpast m' q' ⟨hlt, by omega⟩ hq''
        · obtain rfl := Option.some.inj (hm.symm.trans hq'')
          exact htaken
        · exact habove m' q' h hq'' hb
    exact go_ok hI hT hs hq rfl rfl (fun _ h => by cases h) (fun _ => rfl)
      ⟨hs.keep hI hT hq he rfl, hs.keep hI hT hq hr rfl, hs.keep hI hT hq hv rfl,
        hs.keep hI hT hq hnew rfl⟩

theorem unlink_timed {again : Bool} {v : TaggedPointer} {ch : Choice T}
    (hI : TimeInv C w) (hT : Timed C t i op w (.unlinkSPBuffer s again v))
    (hst : step n addresses t ch w.shared (.unlinkSPBuffer s again v) = some (σ, o))
    (hs : HeapStep t w (.unlinkSPBuffer s again v) σ o g) : TimeOk C t i op w σ o := by
  have hq := Quiet.refl w.shared
  obtain ⟨he, hr, ⟨c, rest, hv, hC⟩, hclear⟩ := hT.facts
  have hC := hC.clear (hv.onRing hI.heap.entry) hclear
  have hno : ∀ {a : Shared α T × (Local α T ⊕ BagRet α)}, noItem t w.shared s again v = a →
      HeapStep t w (.unlinkSPBuffer s again v) a.1 a.2 g → TimeOk C t i op w a.1 a.2 := by
    rintro a rfl hs
    rw [noItem] at hs ⊢
    cases again with
    | true => exact loopEnd_timed hI hT hs hq rfl rfl he hr hv hC
    | false =>
      rw [if_neg (by decide)] at hs ⊢
      cases hindex : (w.shared.buffer s.currentBuffer).index with
      | none =>
        simp only [hindex] at hs ⊢
        rw [← hindex] at hs ⊢
        exact loopEnd_timed hI hT hs hq rfl rfl he hr hv hC
      | some j =>
        simp only [hindex] at hs ⊢
        split_ifs at hs ⊢
        · have hq' : Quiet w.shared (w.shared.setEmptinessCheck t j v) :=
            ⟨rfl, rfl, fun _ => rfl, fun _ => rfl, fun _ => rfl⟩
          have hb : ((w.shared.setEmptinessCheck t j v).buffer s.currentBuffer).index =
            some j := hindex
          rw [← hb] at hs ⊢
          exact loopEnd_timed (s := { s with empty := false }) hI hT hs hq' rfl rfl he hr hv hC
        · rw [← hindex] at hs ⊢
          exact loopEnd_timed hI hT hs hq rfl rfl he hr hv hC
  simp only [step] at hst
  cases hindex : (w.shared.buffer s.currentBuffer).index with
  | none =>
    rw [hindex] at hst
    exact hno (Option.some.inj hst) hs
  | some j =>
    simp only [hindex] at hst
    split_ifs at hst
    · exact hno (Option.some.inj hst) hs
    · obtain ⟨rfl, rfl⟩ := Prod.mk.inj (Option.some.inj hst)
      exact absurd (hs.knows _ rfl).1 id

theorem pop_timed {ch : Choice T} (hI : TimeInv C w) (hT : Timed C t i op w l)
    (hl : l.pushes = false) (hst : step n addresses t ch w.shared l = some (σ, o))
    (hs : HeapStep t w l σ o g) : TimeOk C t i op w σ o := by
  have hq := Quiet.refl w.shared
  have hi := hT.lt_length.le
  cases l with
  | readTime r =>
    obtain ⟨hok, hlow⟩ := hT.facts
    obtain ⟨hgo, hstop⟩ := @Counting.readStep _ _ C ch.time _ _ hok
    simp only [step] at hst
    cases hread : T.readStep ch.time w.shared.clock r with
    | inl r' =>
      rw [hread] at hst
      obtain ⟨rfl, rfl⟩ := Prod.mk.inj (Option.some.inj hst)
      obtain ⟨hok', hle⟩ := hgo r' hread
      refine go_ok hI hT hs hq rfl rfl (fun _ h => by cases h) (fun _ => rfl) ⟨hok', fun q hb => ?_⟩
      exact (hlow q ((before_record hi).mp hb)).trans hle
    | inr time =>
      rw [hread] at hst
      obtain ⟨rfl, rfl⟩ := Prod.mk.inj (Option.some.inj hst)
      refine go_ok hI hT hs hq rfl rfl (fun _ h => by cases h) (fun _ => rfl) fun q hb => ?_
      exact (hlow q ((before_record hi).mp hb)).trans (hstop time hread).1
  | loadEntry time =>
    obtain ⟨rfl, rfl⟩ := Prod.mk.inj (Option.some.inj hst)
    exact skipTo_timed hI hT hs (List.mem_of_getElem? hs.inv.entry) rfl rfl hT.facts
  | skip time count b =>
    obtain ⟨rfl, rfl⟩ := Prod.mk.inj (Option.some.inj hst)
    obtain ⟨-, -, hb, -⟩ := hT.heap
    exact skipTo_timed hI hT hs (hs.any.ring.subset (hI.heap.next_mem hb)) rfl rfl hT.facts
  | loadBuffer s =>
    obtain ⟨rfl, rfl⟩ := Prod.mk.inj (Option.some.inj hst)
    obtain ⟨he, hr, rest, hleave, hC⟩ := hT.facts
    obtain ⟨c, rest', hv, hrest⟩ := hleave.step hI.heap
    have hvisit : (TimeFact.visiting { s with
        currentBuffer := (w.shared.buffer s.currentBuffer).next } : TimeFact T).Holds C t i w :=
      ⟨c, rest', hv, fun j b k q hj hn hq hb =>
        hC j b k q hj (fun h => hn (hrest j (Chain.lt_length hj) h)) hq hb⟩
    exact go_ok hI hT hs hq rfl rfl (fun _ h => by cases h) (fun _ => rfl)
      ⟨hs.keep hI hT hq he rfl, hs.keep hI hT hq hr rfl, hs.keep hI hT hq hvisit rfl⟩
  | loadTop s again =>
    obtain ⟨rfl, rfl⟩ := Prod.mk.inj (Option.some.inj hst)
    obtain ⟨he, hr, hv⟩ := hT.facts
    exact go_ok hI hT hs hq rfl rfl (fun _ h => by cases h) (fun _ => rfl)
      ⟨hs.keep hI hT hq he rfl, hs.keep hI hT hq hr rfl, hs.keep hI hT hq hv rfl⟩
  | loadList s again v =>
    obtain ⟨rfl, rfl⟩ := Prod.mk.inj (Option.some.inj hst)
    obtain ⟨he, hr, hv⟩ := hT.facts
    obtain ⟨-, -, -, -, k, hk⟩ := hT.heap
    obtain ⟨m, hm, hT'⟩ := hI.heap.list _ (List.ne_nil_of_mem (List.mem_of_getElem? hk))
    have habove : (TimeFact.above s.currentBuffer
        (w.shared.buffer s.currentBuffer).list.pointer : TimeFact T).Holds C t i w :=
      ⟨m, hm, fun m' q hlt hq _ => hT' m' q hlt hq⟩
    exact go_ok hI hT hs hq rfl rfl (fun _ h => by cases h) (fun _ => rfl)
      ⟨hs.keep hI hT hq he rfl, hs.keep hI hT hq hr rfl, hs.keep hI hT hq hv rfl,
        hs.keep hI hT hq habove rfl⟩
  | loadTaken s again v p =>
    obtain ⟨he, hr, hv, ha⟩ := hT.facts
    simp only [step] at hst
    split_ifs at hst
    · obtain ⟨rfl, rfl⟩ := Prod.mk.inj (Option.some.inj hst)
      exact go_ok hI hT hs hq rfl rfl (fun _ h => by cases h) (fun _ => rfl)
        ⟨hs.keep hI hT hq he rfl, hs.keep hI hT hq hr rfl, hs.keep hI hT hq hv rfl,
          hs.keep hI hT hq ha rfl⟩
    · obtain ⟨rfl, rfl⟩ := Prod.mk.inj (Option.some.inj hst)
      exact go_ok hI hT hs hq rfl rfl (fun _ h => by cases h) (fun _ => rfl)
        ⟨hs.keep hI hT hq he rfl, hs.keep hI hT hq hr rfl, hs.keep hI hT hq hv rfl,
          hs.keep hI hT hq ha rfl⟩
  | loadNext s again v p => exact loadNext_timed hI hT hst hs
  | unlinkSPBuffer s again v => exact unlink_timed hI hT hst hs
  | loadTimestamp s again v p loading =>
    obtain ⟨he, hr, ⟨c, rest, hv, hC⟩, ha⟩ := hT.facts
    obtain ⟨time, hload, htime⟩ := C.load (w.shared.item p).timestamp loading
    simp only [step, hload] at hst
    split_ifs at hst with helim
    · obtain ⟨rfl, rfl⟩ := Prod.mk.inj (Option.some.inj hst)
      have hlate : (TimeFact.late s.invocationTime p : TimeFact T).Holds C t i w := by
        intro _
        have h := helim.2
        rw [C.isLater, decide_eq_false_iff_not, Nat.not_lt] at h
        exact h.trans_eq htime
      exact go_ok hI hT hs hq rfl rfl (fun _ h => by cases h) (fun _ => rfl)
        ⟨hs.keep hI hT hq he rfl, hs.keep hI hT hq hr rfl,
          hs.keep (F := .visiting s) hI hT hq ⟨c, rest, hv, hC⟩ rfl,
          hs.keep hI hT hq hlate rfl⟩
    · obtain ⟨rfl, rfl⟩ := Prod.mk.inj (Option.some.inj hst)
      have hC' := hC.compare hI (hv.onRing hI.heap.entry) ha htime v
      have hr' : (TimeFact.result (s.compare p time v)).Holds C t i w := by
        rw [Scan.compare]
        split_ifs
        · exact fun _ => htime.symm
        · exact hr
      have hcur : (s.compare p time v).currentBuffer = s.currentBuffer := by
        rw [Scan.compare]
        split_ifs <;> rfl
      have hv' : Visiting w.ghost.1.ring (s.compare p time v).startBuffer
          (s.compare p time v).currentBuffer (s.compare p time v).entryCounter c rest := by
        rw [Scan.compare]
        split_ifs <;> exact hv
      have he' : (TimeFact.earlier (s.compare p time v).invocationTime : TimeFact T).Holds
          C t i w := by
        rw [Scan.compare]
        split_ifs <;> exact he
      rw [← hcur] at hs ⊢
      exact loopEnd_timed hI hT hs hq rfl rfl he' hr' hv' hC'
  | checkItem s v p =>
    obtain ⟨he, hr, hv, hlate⟩ := hT.facts
    simp only [step] at hst
    split_ifs at hst
    · obtain ⟨rfl, rfl⟩ := Prod.mk.inj (Option.some.inj hst)
      exact go_ok hI hT hs hq rfl rfl (fun _ h => by cases h) (fun _ => rfl)
        ⟨hs.keep hI hT hq he rfl, hs.keep hI hT hq hr rfl, hs.keep hI hT hq hv rfl,
          hs.keep hI hT hq hlate rfl⟩
    · obtain ⟨rfl, rfl⟩ := Prod.mk.inj (Option.some.inj hst)
      exact go_ok hI hT hs hq rfl rfl (fun _ h => by cases h) (fun _ => rfl)
        ⟨hs.keep hI hT hq he rfl, hs.keep hI hT hq hr rfl, hs.keep hI hT hq hv rfl⟩
  | takeItem s v p =>
    obtain ⟨he, hr, hv, hlate⟩ := hT.facts
    simp only [step] at hst
    split_ifs at hst with hcas
    · obtain ⟨rfl, rfl⟩ := Prod.mk.inj (Option.some.inj hst)
      refine take_timed hI hT hs rfl rfl hcas.1 fun ia ib b ha hb hab hbefore => ?_
      have h1 := hI.order_lt ha hb hab
      have h2 := he b hbefore
      have h3 := hlate (before_of_precedes hI ha hb hab hbefore)
      omega
    · obtain ⟨rfl, rfl⟩ := Prod.mk.inj (Option.some.inj hst)
      exact go_ok hI hT hs hq rfl rfl (fun _ h => by cases h) (fun _ => rfl)
        ⟨hs.keep hI hT hq he rfl, hs.keep hI hT hq hr rfl, hs.keep hI hT hq hv rfl⟩
  | checkResult s =>
    obtain ⟨he, hr, hC⟩ := hT.facts
    simp only [step] at hst
    split_ifs at hst
    · obtain ⟨rfl, rfl⟩ := Prod.mk.inj (Option.some.inj hst)
      exact go_ok hI hT hs hq rfl rfl (fun _ h => by cases h) (fun _ => rfl)
        ⟨hs.keep hI hT hq he rfl, hs.keep hI hT hq hr rfl, hs.keep hI hT hq hC rfl⟩
    · obtain ⟨rfl, rfl⟩ := Prod.mk.inj (Option.some.inj hst)
      exact noElement_timed hI hT hs hq rfl rfl he
  | takeResult s =>
    obtain ⟨he, hr, hC⟩ := hT.facts
    simp only [step] at hst
    split_ifs at hst with hcas
    · obtain ⟨rfl, rfl⟩ := Prod.mk.inj (Option.some.inj hst)
      refine take_timed hI hT hs rfl rfl hcas.1 fun ia ib b ha hb hab hbefore => ?_
      obtain ⟨c, k, hk⟩ := hI.linked (hbefore.mono hi)
      have hlen := Chain.lt_length hk
      have hone : (w.ghost.1.items c)[1]? = some (w.ghost.1.items c)[1] :=
        List.getElem?_eq_getElem (by omega)
      obtain ⟨j, hj⟩ := List.mem_iff_getElem?.mp (hI.heap.linked c _ hone)
      rcases hC j c k b hj id hk hbefore with h | h
      · exact h
      · have h1 := hI.order_lt ha hb hab
        have h2 := hr (before_of_precedes hI ha hb hab hbefore)
        omega
    · obtain ⟨rfl, rfl⟩ := Prod.mk.inj (Option.some.inj hst)
      exact noElement_timed hI hT hs hq rfl rfl he
  | swapList time b v p =>
    simp only [step] at hst
    split_ifs at hst
    · obtain ⟨rfl, rfl⟩ := Prod.mk.inj (Option.some.inj hst)
      exact go_ok hI hT hs ⟨rfl, rfl, fun _ => rfl, fun _ => rfl, fun _ => rfl⟩ rfl rfl (fun _ h => by cases h)
        (fun _ => rfl) trivial
    · obtain ⟨rfl, rfl⟩ := Prod.mk.inj (Option.some.inj hst)
      exact go_ok hI hT hs hq rfl rfl (fun _ h => by cases h) (fun _ => rfl) trivial
  | loadData time p =>
    obtain ⟨-, -, hlt, hd⟩ := hT.heap
    obtain ⟨x, hx⟩ := Option.isSome_iff_exists.mp hd
    simp only [step, hx] at hst
    obtain ⟨rfl, rfl⟩ := Prod.mk.inj (Option.some.inj hst)
    refine quiet_ok hI hT hs hq (fun _ h => by cases h) fun r hr => ⟨rfl, fun y hy => ⟨p, rfl, hlt, ?_⟩⟩
    obtain rfl := Sum.inr.inj hr
    rw [hx]
    simpa using hy
  | unlinking => cases hst
  | _ => cases hl

/-- **Every access** of a call that knows its facts keeps the invariant. -/
theorem access_timed {ch : Choice T} (hI : TimeInv C w) (hT : Timed C t i op w l) (htn : t < n)
    (haddr : addresses ≤ addressSpace) (hst : step n addresses t ch w.shared l = some (σ, o)) :
    TimeOk C t i op w σ o := by
  obtain ⟨g, hH, hr, hk, hready, -, hl⟩ := access_ok hI.heap htn ch hT.heap hst
  have hs : HeapStep t w l σ o g := ⟨hH, hr, hk, hready, hl⟩
  cases hp : l.pushes with
  | true => exact push_timed hI hT htn haddr hp hst hs
  | false => exact pop_timed hI hT hp hst hs

/-! ### All runs -/

theorem TimeInv.call (hI : TimeInv C w) (t : ℕ) (op : BagOp α) :
    TimeInv C (w.record (.inv t op) w.shared w.ghost) := by
  have hdone : ∀ {A : ℕ → Moment (machine α T n addresses) → Prop} {p k : ℕ},
      DoneBefore A (w.record (.inv t op) w.shared w.ghost).trace p k →
      ∃ i, Did A w.trace i p := by
    rintro A p k ⟨i, hi, -⟩
    exact ⟨i, (did_call rfl).mp hi⟩
  refine
    { hI with
      order := hI.order.call rfl
      made := ?_
      allocated := fun hp hd => (hI.allocated hp hd).imp fun _ h => (did_call rfl).mpr h
      linked := ?_
      buffer := ?_
      taken := fun hd ht => (hI.taken ((did_call rfl).mp hd) ht).imp fun _ h =>
        (did_call rfl).mpr h
      lifo := ?_
      tookIt := ?_ }
  · intro i p hd
    have hd := (did_call rfl).mp hd
    obtain ⟨hlt, v, x, hv, hx⟩ := hI.made hd
    refine ⟨hlt, v, x, ?_, hx⟩
    rw [World.record_trace, history_append,
      getElem?_append_of_lt (by rw [length_history]; exact hd.lt_length)]
    exact hv
  · intro p hp
    rw [World.record_trace, List.length_append, List.length_singleton] at hp
    rcases doneBefore_concat hp with hp | ⟨j, v, op', r, -, he, -⟩
    · exact hI.linked hp
    · cases he
  · intro b k m p q j hp hq hkm hj
    have hj := (did_call rfl).mp hj
    exact (doneBefore_append_iff hj.lt_length.le).mpr (hI.buffer hp hq hkm hj)
  · intro ia ib ip a b k ha hb hab hbp hk
    rw [World.record_trace] at ha hb hab hbp hk ⊢
    have ha := (did_call rfl).mp ha
    have hb := (did_call rfl).mp hb
    have hk := (acts_call rfl).mp hk
    have hip : ip < w.trace.length := hk.1.lt.trans hk.lt_length
    rw [history_append] at hab hbp
    have hbp := (precedes_append_iff (by rw [length_history]; exact hip.le)).mp hbp
    have hab := (precedes_append_iff
      (by rw [length_history]; exact hb.lt_length.le)).mp hab
    obtain ⟨k', hk', ip', hne, hact⟩ := hI.lifo ia ib ip a b k ha hb hab hbp hk
    exact ⟨k', hk', ip', hne, (acts_call rfl).mpr hact⟩
  · intro ip j x hr
    rw [World.record_trace, history_append] at hr ⊢
    rcases returns_append_cases hr with hr | ⟨-, v, op', he, -⟩
    · obtain ⟨a, ia, v, ha, hia, hv⟩ := hI.tookIt ip j x hr
      refine ⟨a, ia, v, ha.append, hia.append, ?_⟩
      rw [getElem?_append_of_lt (by rw [length_history]; exact hia.lt_length)]
      exact hv
    · cases he

theorem init_timed (C : Counting T n) : TimeInv C
    (⟨.init, [], (Ghost.init, ∅)⟩ : State α T n addresses) where
  heap := init_inv
  space := by
    show 2 ≤ addressSpace
    decide
  ticked p hp := absurd hp (Finset.notMem_empty p)
  clock := C.clock
  order := .nil ..
  made h := absurd h.lt_length (Nat.not_lt_zero _)
  allocated _ h := by cases h
  linked h := by
    obtain ⟨i, hi, -⟩ := h
    exact absurd hi.lt_length (Nat.not_lt_zero _)
  buffer _ _ _ h := absurd h.lt_length (Nat.not_lt_zero _)
  taken h := absurd h.lt_length (Nat.not_lt_zero _)
  fresh _ _ := rfl
  lifo _ _ _ _ _ _ h := absurd h.lt_length (Nat.not_lt_zero _)
  tookIt _ _ _ h := absurd h.lt_length (Nat.not_lt_zero _)

/-- What a thread knows between its accesses. -/
def TimeLoc (C : Counting T n) (t : ℕ) (f : Option (Frame (machine α T n addresses)))
    (w : State α T n addresses) : Prop :=
  match f with
  | none => Ready t w.shared w.ghost.1 ∧ Idle (history w.trace) t ∧
    ∀ k q, (w.ghost.1.items (bufferOf t))[k + 1]? = some q → Before w w.trace.length q
  | some f => t < n ∧ Timed C t f.id f.op w f.loc

def timeOutline (α : Type) (C : Counting T n) (addresses : ℕ) :
    Outline (machine α T n addresses) (Ghost × Finset ℕ) where
  inv := TimeInv C
  loc := TimeLoc C
  rely := TimeRely C

theorem timeOutline_sound (C : Counting T n) (haddr : addresses ≤ addressSpace) :
    (timeOutline α C addresses).Sound always where
  init := by
    refine ⟨(Ghost.init, ∅), init_timed C, fun t => ⟨Or.inl rfl, ?_, fun k q hq => ?_⟩⟩
    · exact fun i op ho => absurd ho.lt_length (Nat.not_lt_zero _)
    · have := Ghost.init_items hq
      omega
  stable := by
    intro w e σ g t f hI hI' hloc he hr
    cases f with
    | none =>
      obtain ⟨hready, hidle, hown⟩ := hloc
      refine ⟨hready.rely hr.heap, ?_, fun k q hq => ?_⟩
      · rw [World.record_trace, history_append]
        exact hidle.other he
      · have hitems : g.1.items (bufferOf t) = w.ghost.1.items (bufferOf t) := hr.heap.buffer
        have hq : (g.1.items (bufferOf t))[k + 1]? = some q := hq
        rw [hitems] at hq
        have hq : Before (w.record e σ g) w.trace.length q :=
          (before_record le_rfl).mpr (hown k q hq)
        refine hq.mono ?_
        rw [World.record_trace, List.length_append]
        exact Nat.le_add_right ..
    | some f => exact ⟨hloc.1, hloc.2.rely hI hI'.heap he hr⟩
  call := by
    intro w t op hI hloc hadm
    obtain ⟨hready, hidle, hown⟩ := hloc
    have htn : t < n := of_decide_eq_true hadm
    refine ⟨w.ghost, hI.call t op, ⟨htn, ?_⟩, fun u hu => ⟨.refl .., C.refl ..,
      fun _ _ _ hp => hp, fun _ _ => rfl⟩⟩
    have hnone : ∀ {A : ℕ → Moment (machine α T n addresses) → Prop} q,
        ¬ Did A (w.record (.inv t op) w.shared w.ghost).trace w.trace.length q :=
      fun q hd => not_did_length ((did_call rfl).mp hd)
    have hrun : Running (history (w.record (.inv t op) w.shared w.ghost).trace) t
        w.trace.length op := by
      rw [World.record_trace, history_append, ← length_history w.trace]
      exact hidle.invoke op
    have hbefore : ∀ q, Before (w.record (.inv t op) w.shared w.ghost) w.trace.length q →
        Before w w.trace.length q := fun q hq => (before_record le_rfl).mp hq
    have hown' : ∀ k q, (w.ghost.1.items (bufferOf t))[k + 1]? = some q →
        Before (w.record (.inv t op) w.shared w.ghost) w.trace.length q ∨
          Did Makes (w.record (.inv t op) w.shared w.ghost).trace w.trace.length q :=
      fun k q hq => Or.inl ((before_record le_rfl).mpr (hown k q hq))
    cases op with
    | put x =>
      exact ⟨⟨trivial, hready⟩, hrun, hown', fun q => iff_of_false (hnone q) (by simp [start, Local.item]),
        fun q => iff_of_false (hnone q) (by simp [start, Local.took]), fun y hy => by cases hy; rfl, (fun _ h => by cases h), trivial⟩
    | get =>
      obtain ⟨hok, hlow⟩ := C.readStart w.shared.clock (Nat.zero_lt_of_lt htn)
      refine ⟨⟨trivial, hready⟩, hrun, hown', fun q => iff_of_false (hnone q) (by simp [start, Local.item]),
        fun q => iff_of_false (hnone q) (by simp [start, Local.took]), (fun _ h => by cases h), (fun _ h => by cases h), hok, fun q hq => ?_⟩
      exact Nat.le_of_lt_succ ((hI.order.done (hbefore q hq)).trans_le hlow)
  run := by
    intro w t f ch σ o hI hloc _ hst
    obtain ⟨htn, hT⟩ := hloc
    obtain ⟨g, hI', hgo, hstop, hr⟩ := access_timed hI hT htn haddr hst
    refine ⟨g, hI', ?_, hr⟩
    cases o with
    | inl l' => exact ⟨htn, hgo l' rfl⟩
    | inr r =>
      obtain ⟨hready, hown⟩ := hstop r rfl
      refine ⟨hready, ?_, fun k q hq => ?_⟩
      · rw [World.record_trace, history_append]
        exact idle_return (history w.trace) t r
      · rw [World.record_trace, List.length_append]
        exact hown k q hq

end TSStack

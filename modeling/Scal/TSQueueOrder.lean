/-
The order of the items in timestamped buffers.

The memory of the object contains the buffers of a timestamped queue (`buf`), and its items
get timestamps that count (`Counting`).  Then an item whose enqueue returned before another
one was invoked has the smaller timestamp, for ever, and items of calls invoked after a
moment are not earlier than the clock was then.

* `TimeInv` — the invariant; `TimeInv.record` — what an access has to do to keep it, and
  `TimeInv.record_quiet` — one that neither makes an item nor gives it a timestamp;
* `Doing` — what a pending call made and removed;
* `Covered` — what a scan knows of the buffers that it has visited: the items whose enqueues
  returned before it began are removed, or not earlier than the item it has found;
* `Covered.removed` — so all that are earlier are removed.
-/
import Scal.TSQueueInvariant
import Scal.TimeStampOrder
import Scal.ItemOrder

open Interleave Linearizability

namespace TSQueue

variable {α : Type} {T : TimeStamp} {M : Machine (BagOp α) (BagRet α)} {n : ℕ}

/-- The step allocates the item `p`. -/
def Makes (buf : M.Shared → Shared α T) (p : ℕ) (m : Moment M) : Prop :=
  (buf m.before).alloc = p ∧ (buf m.after).alloc = p + 1

/-- The step moves the pointer `remove_[b]` of a buffer to the item `p`. -/
def Removes (buf : M.Shared → Shared α T) (n p : ℕ) (m : Moment M) : Prop :=
  ∃ b < n, ((buf m.before).remove b).pointer ≠ p ∧ ((buf m.after).remove b).pointer = p

instance (buf : M.Shared → Shared α T) (p : ℕ) (m : Moment M) : Decidable (Makes buf p m) :=
  inferInstanceAs (Decidable (_ ∧ _))

instance (buf : M.Shared → Shared α T) (n p : ℕ) (m : Moment M) :
    Decidable (Removes buf n p m) :=
  inferInstanceAs (Decidable (∃ b < n, _ ∧ _))

/-- The shared memory, the trace, and as ghost state that of the buffers and the items for
which the clock advanced. -/
abbrev State (M : Machine (BagOp α) (BagRet α)) := World M (Ghost × Finset ℕ)

/-- The timestamp of the item `p`. -/
def valueOf (C : Counting T n) (σ : Shared α T) (p : ℕ) : ℕ := C.value (σ.item p).timestamp

/-- The item `p` was removed. -/
def Ghost.Gone (g : Ghost) (p : ℕ) : Prop :=
  ∃ b k : ℕ, (g.items b)[k]? = some p ∧ 1 ≤ k ∧ k ≤ g.removed b

structure TimeInv (buf : M.Shared → Shared α T) (C : Counting T n) (w : State M) : Prop where
  heap : HeapInv n (buf w.shared) w.ghost.1
  room : n < (buf w.shared).alloc
  space : (buf w.shared).alloc ≤ n + 1 + addressSpace
  ticked : ∀ p ∈ w.ghost.2, n < p ∧ p < (buf w.shared).alloc
  clock : C.low (buf w.shared).clock ≤ w.ghost.2.card + 2
  past : ∀ {k : ℕ} {m : Moment M}, w.trace[k]? = some m →
    C.low (buf m.before).clock ≤ C.low (buf w.shared).clock
  order : InOrder (Makes buf) (valueOf C (buf w.shared)) (C.low (buf w.shared).clock) w.trace
  -- an item is not earlier than the clock was when its enqueue was invoked, or before
  late : ∀ {i p k : ℕ} {m : Moment M}, Did (Makes buf) w.trace i p → k ≤ i → w.trace[k]? = some m →
    C.low (buf m.before).clock ≤ valueOf C (buf w.shared) p
  made : ∀ {i p}, Did (Makes buf) w.trace i p → p < (buf w.shared).alloc ∧ n < p ∧
    ∃ t x, (history w.trace)[i]? = some (.inv t (.put x)) ∧
      ((buf w.shared).item p).data = some x
  allocated : ∀ {b k p : ℕ}, (w.ghost.1.items b)[k]? = some p → 1 ≤ k →
    ∃ i, Did (Makes buf) w.trace i p
  sentinel : ∀ {b p i : ℕ}, (w.ghost.1.items b)[0]? = some p → ¬ Did (Makes buf) w.trace i p
  linked : ∀ {p}, DoneBefore (Makes buf) w.trace p w.trace.length →
    ∃ b k : ℕ, (w.ghost.1.items b)[k]? = some p
  -- a buffer's items are in the order of the enqueues
  buffer : ∀ {b k m p q i : ℕ}, (w.ghost.1.items b)[k]? = some p →
    (w.ghost.1.items b)[m]? = some q → 1 ≤ k → k < m → Did (Makes buf) w.trace i q →
      DoneBefore (Makes buf) w.trace p i
  gone : ∀ p, w.ghost.1.Gone p ↔ ∃ j, Did (Removes buf n) w.trace j p
  accounted : Accounted (Makes buf) (Removes buf n) w.trace

/-- The items that were enqueued before time `j`. -/
abbrev Before (buf : M.Shared → Shared α T) (w : State M) (j q : ℕ) : Prop :=
  DoneBefore (Makes buf) w.trace q j

/-- Items with a timestamp keep it. -/
def Stamped (C : Counting T n) (σ σ' : Shared α T) : Prop :=
  ∀ q < σ.alloc, valueOf C σ q ≠ uint64Max → valueOf C σ' q = valueOf C σ q

/-- What the other threads' steps leave as it is. -/
structure TimeRely (buf : M.Shared → Shared α T) (C : Counting T n) (u : ℕ) (w w' : State M) :
    Prop where
  heap : Rely u (buf w.shared) w.ghost.1 (buf w'.shared) w'.ghost.1
  clock : C.Advance u (buf w.shared).clock (buf w'.shared).clock
  ticked : ∀ p < (buf w.shared).alloc, w.ghost.1.owner p = u → p ∉ w.ghost.2 → p ∉ w'.ghost.2
  stamped : Stamped C (buf w.shared) (buf w'.shared)

/-- Thread `t` is in the call `i`, which has made the item `item` and removed `took`. -/
structure Doing (buf : M.Shared → Shared α T) (n t i : ℕ) (op : BagOp α) (w : State M)
    (item took : Option ℕ) : Prop where
  running : Running (history w.trace) t i op
  own : ∀ {k q : ℕ}, (w.ghost.1.items t)[k]? = some q → 1 ≤ k →
    Before buf w i q ∨ Did (Makes buf) w.trace i q
  makes : ∀ q, Did (Makes buf) w.trace i q ↔ item = some q
  takes : ∀ q, Did (Removes buf n) w.trace i q ↔ took = some q
  owner : ∀ p, item = some p → p < (buf w.shared).alloc ∧ w.ghost.1.owner p = t

/-- An access of thread `t`, whose call has made `item`, to the buffers; it removes the item
`rem`, if any. -/
structure BufferStep (buf : M.Shared → Shared α T) (n t : ℕ) (w : State M) (σ : M.Shared)
    (g : Ghost) (item rem : Option ℕ) : Prop where
  inv : HeapInv n (buf σ) g
  rely : ∀ u, u ≠ t → Rely u (buf w.shared) w.ghost.1 (buf σ) g
  links : ∀ {b k q : ℕ}, (g.items b)[k]? = some q → (w.ghost.1.items b)[k]? = some q ∨
    b = t ∧ k = (w.ghost.1.items t).length ∧ item = some q
  removed : ∀ b, g.removed b = w.ghost.1.removed b ∨ ∃ p, rem = some p ∧
    g.removed b = w.ghost.1.removed b + 1 ∧
    (w.ghost.1.items b)[w.ghost.1.removed b + 1]? = some p
  rem : ∀ {p}, rem = some p → ∃ b, g.removed b = w.ghost.1.removed b + 1 ∧
    (w.ghost.1.items b)[w.ghost.1.removed b + 1]? = some p

section Step

variable {buf : M.Shared → Shared α T} {C : Counting T n} {w : State M} {t u i j p : ℕ}
  {op : BagOp α} {item took rem : Option ℕ} {e : Event (BagOp α) (BagRet α)} {σ : M.Shared}
  {g : Ghost × Finset ℕ}

theorem before_record (hj : j ≤ w.trace.length) {q : ℕ} :
    Before buf (w.record e σ g) j q ↔ Before buf w j q := doneBefore_append_iff hj

theorem Doing.lt_length (hT : Doing buf n t i op w item took) : i < w.trace.length := by
  have h := hT.running.1.lt_length
  rwa [length_history] at h

theorem TimeInv.card_le (hI : TimeInv buf C w) :
    w.ghost.2.card ≤ (buf w.shared).alloc - (n + 1) := by
  have hsub : w.ghost.2 ⊆ Finset.Ico (n + 1) (buf w.shared).alloc := fun p hp =>
    Finset.mem_Ico.mpr (hI.ticked p hp)
  exact (Finset.card_le_card hsub).trans_eq (Nat.card_Ico ..)

/-- The clocks never get to the timestamp of items that have none yet. -/
theorem TimeInv.low_lt (hI : TimeInv buf C w) : C.low (buf w.shared).clock < uint64Max := by
  have h1 := hI.clock
  have h2 := hI.card_le
  have h3 := hI.space
  rw [addressSpace] at h3
  rw [uint64Max, wordSize]
  omega

/-- The item of a call that returned has its timestamp. -/
theorem TimeInv.value_lt (hI : TimeInv buf C w) (hj : j ≤ w.trace.length) {q : ℕ}
    (hq : Before buf w j q) : valueOf C (buf w.shared) q < uint64Max :=
  (hI.order.done (hq.mono hj)).trans hI.low_lt

theorem Stamped.valueOf_eq {σ' : Shared α T} (hs : Stamped C (buf w.shared) σ')
    (hI : TimeInv buf C w) (hj : j ≤ w.trace.length) {q : ℕ} (hq : Before buf w j q) :
    valueOf C σ' q = valueOf C (buf w.shared) q := by
  obtain ⟨i, hi, -⟩ := id hq
  exact hs q (hI.made hi).1 (hI.value_lt hj hq).ne

/-- The items enqueued before were all linked. -/
theorem TimeInv.getElem_of_before (hI : TimeInv buf C w) (hH : HeapInv n (buf σ) g.1)
    (hr : Rely u (buf w.shared) w.ghost.1 (buf σ) g.1) (hj : j ≤ w.trace.length) {b k q : ℕ}
    (hq : (g.1.items b)[k]? = some q) (hb : Before buf w j q) :
    (w.ghost.1.items b)[k]? = some q := by
  obtain ⟨b', k', hq'⟩ := hI.linked (hb.mono hj)
  obtain ⟨rfl, rfl⟩ := hH.unique _ _ _ _ _ hq (Chain.getElem?_mono (hr.items b') hq')
  exact hq'

/-- An item that a call made is not the sentinel. -/
theorem TimeInv.pos_of_made (hI : TimeInv buf C w) {b k q : ℕ}
    (hq : (w.ghost.1.items b)[k]? = some q) (hd : Did (Makes buf) w.trace i q) : 1 ≤ k := by
  rcases k with _ | k
  · exact absurd hd (hI.sentinel hq)
  · exact Nat.le_add_left ..

/-- The item of a call that is pending is not done. -/
theorem Doing.not_done (hT : Doing buf n t i op w item took) (hI : TimeInv buf C w) {p : ℕ}
    (hp : item = some p) : ¬ DoneBefore (Makes buf) w.trace p w.trace.length := by
  rintro ⟨j, hj, hpre⟩
  obtain rfl := hI.order.once hj ((hT.makes p).mpr hp)
  exact hT.running.1.open.not_precedes hpre

theorem Doing.rely (hT : Doing buf n t i op w item took) (he : e.thread ≠ t)
    (hr : TimeRely buf C t w (w.record e σ g)) :
    Doing buf n t i op (w.record e σ g) item took := by
  have hne : (⟨e, w.shared, σ⟩ : Moment M).event.thread ≠ t := he
  refine ⟨?_, fun {k q} hq hk => ?_, fun q => ?_, fun q => ?_, fun p hp => ?_⟩
  · rw [World.record_trace, history_append]
    exact hT.running.append fun h => absurd h he
  · have hitems : g.1.items t = w.ghost.1.items t := hr.heap.buffer
    have hq : (g.1.items t)[k]? = some q := hq
    rw [hitems] at hq
    exact (hT.own hq hk).imp (before_record hT.lt_length.le).mpr (did_other hT.running.1 hne).mpr
  · exact (did_other hT.running.1 hne).trans (hT.makes q)
  · exact (did_other hT.running.1 hne).trans (hT.takes q)
  · obtain ⟨hlt, ho⟩ := hT.owner p hp
    exact ⟨hlt.trans_le hr.heap.alloc, (hr.heap.own p hlt ho).1⟩

/-! ### Removal -/

theorem BufferStep.any {g : Ghost} (hs : BufferStep buf n t w σ g item rem) :
    Rely (t + 1) (buf w.shared) w.ghost.1 (buf σ) g :=
  hs.rely _ (Nat.succ_ne_self t)

/-- An access that neither links an item nor removes one. -/
theorem BufferStep.of_rely (hH : HeapInv n (buf σ) w.ghost.1)
    (hr : ∀ u, u ≠ t → Rely u (buf w.shared) w.ghost.1 (buf σ) w.ghost.1) :
    BufferStep buf n t w σ w.ghost.1 item none :=
  ⟨hH, hr, fun h => Or.inl h, fun _ => Or.inl rfl, fun h => by cases h⟩

/-- Linking the item of the call. -/
theorem BufferStep.link {g : Ghost} (hH : HeapInv n (buf σ) g)
    (hr : ∀ u, u ≠ t → Rely u (buf w.shared) w.ghost.1 (buf σ) g)
    (hitems : g.items = Function.update w.ghost.1.items t (w.ghost.1.items t ++ [p]))
    (hremoved : g.removed = w.ghost.1.removed) : BufferStep buf n t w σ g (some p) none := by
  refine ⟨hH, hr, fun {b k q} h => ?_, fun b => Or.inl (hremoved ▸ rfl), fun h => by cases h⟩
  rw [hitems] at h
  by_cases hb : b = t
  · subst hb
    rw [Function.update_self] at h
    refine (getElem?_concat_cases h).imp_right fun ⟨hk, hq⟩ => ⟨rfl, hk, ?_⟩
    rw [hq]
  · rw [Function.update_of_ne hb] at h
    exact Or.inl h

/-- Removing the first item that is left in a buffer. -/
theorem BufferStep.take {g : Ghost} {b : ℕ} (hH : HeapInv n (buf σ) g)
    (hr : ∀ u, u ≠ t → Rely u (buf w.shared) w.ghost.1 (buf σ) g)
    (hitems : g.items = w.ghost.1.items)
    (hremoved : g.removed = Function.update w.ghost.1.removed b (w.ghost.1.removed b + 1))
    (hget : (w.ghost.1.items b)[w.ghost.1.removed b + 1]? = some p) :
    BufferStep buf n t w σ g item (some p) := by
  have hself : g.removed b = w.ghost.1.removed b + 1 := by rw [hremoved, Function.update_self]
  refine ⟨hH, hr, fun h => Or.inl (hitems ▸ h), fun c => ?_, fun {q} h => ⟨b, hself, ?_⟩⟩
  · by_cases hc : c = b
    · subst hc
      exact Or.inr ⟨p, rfl, hself, hget⟩
    · rw [hremoved, Function.update_of_ne hc]
      exact Or.inl rfl
  · rw [← Option.some.inj h]
    exact hget

theorem TimeRely.refl (C : Counting T n) (u : ℕ) (w : State M)
    (e : Event (BagOp α) (BagRet α)) : TimeRely buf C u w (w.record e w.shared w.ghost) :=
  ⟨.refl .., C.refl .., fun _ _ _ hp => hp, fun _ _ _ => rfl⟩

theorem BufferStep.removes_iff (hs : BufferStep buf n t w σ g.1 item rem)
    (hI : HeapInv n (buf w.shared) w.ghost.1) :
    Removes buf n p (⟨e, w.shared, σ⟩ : Moment M) ↔ rem = some p := by
  have hmono : ∀ {b k q : ℕ}, (w.ghost.1.items b)[k]? = some q → (g.1.items b)[k]? = some q :=
    fun {b k q} h => Chain.getElem?_mono (hs.any.items b) h
  constructor
  · rintro ⟨b, hb, hne, heq⟩
    have hne : ((buf w.shared).remove b).pointer ≠ p := hne
    have heq : ((buf σ).remove b).pointer = p := heq
    have hbefore := hI.remove b hb
    have hafter := hs.inv.remove b hb
    rcases hs.removed b with h | ⟨q, hq, h, hget⟩
    · rw [h] at hafter
      exact absurd (Option.some.inj ((hmono hbefore).symm.trans hafter) ▸ heq) hne
    · rw [h] at hafter
      rw [hq, ← heq, ← Option.some.inj ((hmono hget).symm.trans hafter)]
  · intro hp
    obtain ⟨b, h, hget⟩ := hs.rem hp
    have hb : b < n := hI.lt_of_mem (List.mem_of_getElem? hget)
    have hafter := hs.inv.remove b hb
    rw [h] at hafter
    refine ⟨b, hb, fun heq => ?_, Option.some.inj (hafter.symm.trans (hmono hget))⟩
    have hbefore := hI.remove b hb
    have heq : ((buf w.shared).remove b).pointer = p := heq
    rw [heq] at hbefore
    have := hI.pos_eq hbefore hget
    omega

theorem BufferStep.gone_iff (hs : BufferStep buf n t w σ g.1 item rem)
    (hI : HeapInv n (buf w.shared) w.ghost.1) :
    g.1.Gone p ↔ w.ghost.1.Gone p ∨ rem = some p := by
  have hmono : ∀ {b k q : ℕ}, (w.ghost.1.items b)[k]? = some q → (g.1.items b)[k]? = some q :=
    fun {b k q} h => Chain.getElem?_mono (hs.any.items b) h
  have hget : ∀ {b k q : ℕ}, k < (w.ghost.1.items b).length → (g.1.items b)[k]? = some q →
      (w.ghost.1.items b)[k]? = some q := by
    intro b k q hk hq
    have hold : (w.ghost.1.items b)[k]? = some (w.ghost.1.items b)[k] :=
      List.getElem?_eq_getElem hk
    rw [hold, ← hq, hmono hold]
  constructor
  · rintro ⟨b, k, hk, hpos, hle⟩
    rcases hs.removed b with h | ⟨q, hq, h, hnext⟩
    · rw [h] at hle
      have hb : b < n := hs.inv.lt_of_mem (List.mem_of_getElem? hk)
      exact Or.inl ⟨b, k, hget (hle.trans_lt (hI.removed_lt hb)) hk, hpos, hle⟩
    · rw [h] at hle
      have hold := hget (hle.trans_lt (Chain.lt_length hnext)) hk
      rcases Nat.lt_or_eq_of_le hle with hlt | rfl
      · exact Or.inl ⟨b, k, hold, hpos, Nat.le_of_lt_succ hlt⟩
      · rw [hold, Option.some_inj] at hnext
        exact Or.inr (hnext ▸ hq)
  · rintro (⟨b, k, hk, hpos, hle⟩ | hp)
    · exact ⟨b, k, hmono hk, hpos, hle.trans (hs.any.removed b)⟩
    · obtain ⟨b, h, hnext⟩ := hs.rem hp
      exact ⟨b, _, hmono hnext, Nat.le_add_left .., h.ge⟩

/-- An item is removed when it follows those removed before. -/
theorem BufferStep.not_gone (hs : BufferStep buf n t w σ g.1 item rem)
    (hI : HeapInv n (buf w.shared) w.ghost.1) (hp : rem = some p) : ¬ w.ghost.1.Gone p := by
  rintro ⟨b, k, hk, -, hle⟩
  obtain ⟨b', -, hnext⟩ := hs.rem hp
  obtain ⟨rfl, rfl⟩ := hI.unique _ _ _ _ _ hk hnext
  omega

/-! ### One access -/

theorem getElem?_record {k : ℕ} {m : Moment M} (hk : k < w.trace.length) :
    (w.record e σ g).trace[k]? = some m ↔ w.trace[k]? = some m := by
  rw [World.record_trace, getElem?_append_of_lt hk]

/-- The items of a buffer stay in the order of their enqueues. -/
theorem buffer_record (hI : TimeInv buf C w) (hT : Doing buf n t i op w item took)
    (hs : BufferStep buf n t w σ g.1 item rem)
    (horder : InOrder (Makes buf) (valueOf C (buf σ)) (C.low (buf σ).clock)
      (w.record e σ g).trace) {b k m p q j : ℕ} (hp : (g.1.items b)[k]? = some p)
    (hq : (g.1.items b)[m]? = some q) (hpos : 1 ≤ k) (hkm : k < m)
    (hj : Did (Makes buf) (w.record e σ g).trace j q) :
    DoneBefore (Makes buf) (w.record e σ g).trace p j := by
  rcases hs.links hp with hp' | ⟨rfl, rfl, -⟩
  · rcases hs.links hq with hq' | ⟨rfl, -, hitem⟩
    · obtain ⟨j', hj'⟩ := hI.allocated hq' (hpos.trans hkm.le)
      obtain rfl := horder.once hj hj'.append
      exact (doneBefore_append_iff hj'.lt_length.le).mpr (hI.buffer hp' hq' hpos hkm hj')
    · -- the new item comes after those of the thread's earlier calls
      obtain rfl := horder.once hj ((hT.makes q).mpr hitem).append
      rcases hT.own hp' hpos with hb | hd
      · exact (doneBefore_append_iff hT.lt_length.le).mpr hb
      · obtain rfl := Option.some.inj (((hT.makes p).mp hd).symm.trans hitem)
        have := hs.inv.pos_eq hp hq
        omega
  · rcases hs.links hq with hq' | ⟨-, rfl, -⟩
    · have := Chain.lt_length hq'
      omega
    · exact absurd hkm (Nat.lt_irrefl _)

/-- **The invariant is kept** by an access that keeps the buffers' one, if what it does to
clock and items is as it should be. -/
theorem TimeInv.record (hI : TimeInv buf C w) (hT : Doing buf n t i op w item took)
    (he : e = .tau t ∨ ∃ r, e = .res t r) (hs : BufferStep buf n t w σ g.1 item rem)
    (hspace : (buf σ).alloc ≤ n + 1 + addressSpace)
    (hticked : ∀ p ∈ g.2, n < p ∧ p < (buf σ).alloc)
    (hclock : C.low (buf σ).clock ≤ g.2.card + 2)
    (hlow : C.low (buf w.shared).clock ≤ C.low (buf σ).clock)
    (hvalue : ∀ j q, Did (Makes buf) w.trace j q →
      valueOf C (buf σ) q = valueOf C (buf w.shared) q ∨
      j = i ∧ (∀ p, Before buf w i p → valueOf C (buf w.shared) p < valueOf C (buf σ) q) ∧
        ∀ k m, k ≤ i → w.trace[k]? = some m → C.low (buf m.before).clock ≤ valueOf C (buf σ) q)
    (hmake : ∀ p, Makes buf p (⟨e, w.shared, σ⟩ : Moment M) → e = .tau t ∧ (∃ x, op = .put x ∧
      ((buf σ).item p).data = some x) ∧ C.low (buf w.shared).clock ≤ valueOf C (buf σ) p)
    (hput : ∀ r, e = .res t (.put r) → ∃ p, item = some p)
    (hdone : ∀ r p, e = .res t r → item = some p →
      (∃ k : ℕ, (g.1.items t)[k]? = some p) ∧ valueOf C (buf σ) p < C.low (buf σ).clock)
    (hgot : ∀ x, e = .res t (.got (some x)) → rem = none ∧ ∃ p, took = some p ∧
      ((buf w.shared).item p).data = some x) :
    TimeInv buf C (w.record e σ g) := by
  have hthread : e.thread = t := Event.thread_of_step he
  have hr := hs.any
  have hmono : ∀ {b k q : ℕ}, (w.ghost.1.items b)[k]? = some q → (g.1.items b)[k]? = some q :=
    fun {b k q} h => Chain.getElem?_mono (hr.items b) h
  have hnew : ∀ j p, Did (Makes buf) w.trace j p → ¬ Makes buf p (⟨e, w.shared, σ⟩ : Moment M) := by
    intro j p hj hm
    have h1 := (hI.made hj).1
    have h2 : (buf w.shared).alloc = p := hm.1
    omega
  have hsucc : ∀ {p}, Makes buf p (⟨e, w.shared, σ⟩ : Moment M) → (buf σ).alloc = p + 1 :=
    fun hm => hm.2
  -- a call that returns made no item in its last step
  have hres : ∀ r p, e = .res t r → Did (Makes buf) (w.record e σ g).trace i p →
      item = some p := by
    intro r p hr' hd
    rcases (did_step hT.running.1 he).mp hd with hd | ⟨-, hm⟩
    · exact (hT.makes p).mp hd
    · rw [(hmake p hm).1] at hr'
      cases hr'
  have horder : InOrder (Makes buf) (valueOf C (buf σ)) (C.low (buf σ).clock)
      (w.record e σ g).trace :=
    hI.order.step hT.running he hlow
      (fun p hm => ⟨fun j hj => hnew j p hj hm, (hmake p hm).2.2⟩)
      (fun j q hj => (hvalue j q hj).imp_right fun h => ⟨h.1, h.2.1⟩)
      fun r p hr' hd => (hdone r p hr' (hres r p hr' hd)).2
  have hgone : ∀ p, g.1.Gone p ↔ ∃ j, Did (Removes buf n) (w.record e σ g).trace j p := by
    intro p
    rw [hs.gone_iff hI.heap, hI.gone p, ← hs.removes_iff hI.heap (e := e)]
    constructor
    · rintro (⟨j, hj⟩ | hm)
      · exact ⟨j, hj.append⟩
      · exact ⟨i, (did_step hT.running.1 he).mpr (Or.inr ⟨rfl, hm⟩)⟩
    · rintro ⟨j, hj⟩
      exact ((did_step hT.running.1 he).mp hj).imp (fun h => ⟨j, h⟩) fun h => h.2
  refine
    { heap := hs.inv
      room := hI.room.trans_le hr.alloc
      space := hspace
      ticked := hticked
      clock := hclock
      past := ?_
      order := horder
      late := ?_
      made := ?_
      allocated := ?_
      sentinel := ?_
      linked := ?_
      buffer := fun hp hq hpos hkm hj => buffer_record hI hT hs horder hp hq hpos hkm hj
      gone := hgone
      accounted := ?_ }
  · intro k m hk
    rcases getElem?_concat_cases hk with hk | ⟨-, rfl⟩
    · exact (hI.past hk).trans hlow
    · exact hlow
  · intro j p k m hj hkj hk
    rcases (did_step hT.running.1 he).mp hj with hj | ⟨rfl, hm⟩
    · have hk := (getElem?_record (hkj.trans_lt hj.lt_length)).mp hk
      rcases hvalue j p hj with h | ⟨rfl, -, h⟩
      · exact (hI.late hj hkj hk).trans_eq h.symm
      · exact h k m hkj hk
    · have hk := (getElem?_record (hkj.trans_lt hT.lt_length)).mp hk
      exact (hI.past hk).trans (hmake p hm).2.2
  · intro j p hj
    rcases (did_step hT.running.1 he).mp hj with hj | ⟨rfl, hm⟩
    · obtain ⟨hlt, hn, v, x, hv, hx⟩ := hI.made hj
      refine ⟨hlt.trans_le hr.alloc, hn, v, x, ?_, (hr.data p hlt).trans hx⟩
      rw [World.record_trace, history_append,
        getElem?_append_of_lt (by rw [length_history]; exact hj.lt_length)]
      exact hv
    · obtain ⟨-, ⟨x, hx, hd⟩, -⟩ := hmake p hm
      refine ⟨(Nat.lt_succ_self p).trans_eq (hsucc hm).symm, hI.room.trans_eq hm.1, t, x, ?_, hd⟩
      rw [World.record_trace, history_append, getElem?_append_of_lt hT.running.1.lt_length,
        hT.running.1.1, hx]
  · intro b k p hp hpos
    rcases hs.links hp with hp | ⟨-, -, hitem⟩
    · exact (hI.allocated hp hpos).imp fun _ h => h.append
    · exact ⟨i, ((hT.makes p).mpr hitem).append⟩
  · intro b p j hp hd
    have hold : (w.ghost.1.items b)[0]? = some p := by
      rcases hs.links hp with hp | ⟨rfl, h0, -⟩
      · exact hp
      · have := hI.heap.removed_lt (hs.inv.lt_of_mem (List.mem_of_getElem? hp))
        omega
    rcases (did_step hT.running.1 he).mp hd with hd | ⟨-, hm⟩
    · exact hI.sentinel hold hd
    · have h1 := (hI.heap.bound _ _ _ hold).2
      have h2 : (buf w.shared).alloc = p := hm.1
      omega
  · intro p hp
    rw [World.record_trace, List.length_append, List.length_singleton] at hp
    rcases doneBefore_running hT.running hthread hp with hp | ⟨⟨r, hr'⟩, hd⟩
    · obtain ⟨b, k, hk⟩ := hI.linked hp
      exact ⟨b, k, hmono hk⟩
    · obtain ⟨⟨k, hk⟩, -⟩ := hdone r p hr' (hres r p hr' hd)
      exact ⟨_, k, hk⟩
  · refine hI.accounted.step hT.running he (fun p hm j hj => ?_) (fun r hr' => ?_) fun x hx => ?_
    · exact hs.not_gone hI.heap ((hs.removes_iff hI.heap).mp hm) ((hI.gone p).mpr ⟨j, hj⟩)
    · obtain ⟨p, hp⟩ := hput r hr'
      exact ⟨p, (hT.makes p).mpr hp⟩
    · obtain ⟨hrem, p, hp, hd⟩ := hgot x hx
      refine ⟨fun q hm => ?_, ?_⟩
      · rw [hs.removes_iff hI.heap, hrem] at hm
        cases hm
      · have htook := (hT.takes p).mpr hp
        obtain ⟨b, k, hk, hpos, -⟩ := (hI.gone p).mpr ⟨i, htook⟩
        obtain ⟨ip, hip⟩ := hI.allocated hk hpos
        obtain ⟨-, -, u, y, hu, hy⟩ := hI.made hip
        obtain rfl := Option.some.inj (hy.symm.trans hd)
        refine ⟨p, ip, u, htook, fun q hq => ?_, hip, hu⟩
        exact Option.some.inj (((hT.takes q).mp hq).symm.trans hp)

/-! ### Accesses that make no item -/

/-- What the invariant says of items and clock is the same. -/
structure Quiet (σ σ' : Shared α T) : Prop where
  alloc : σ'.alloc = σ.alloc
  clock : σ'.clock = σ.clock
  data : ∀ q, (σ'.item q).data = (σ.item q).data
  timestamp : ∀ q, (σ'.item q).timestamp = (σ.item q).timestamp

theorem Quiet.refl (σ : Shared α T) : Quiet σ σ := ⟨rfl, rfl, fun _ => rfl, fun _ => rfl⟩

theorem Quiet.setNext (σ : Shared α T) (p next : ℕ) : Quiet σ (σ.setNext p next) := by
  have h : ∀ q, ((σ.setNext p next).item q).data = (σ.item q).data ∧
      ((σ.setNext p next).item q).timestamp = (σ.item q).timestamp := by
    intro q
    by_cases hq : q = p
    · subst hq
      simp [Shared.setNext]
    · simp [Shared.setNext, Function.update_of_ne hq]
  exact ⟨rfl, rfl, fun q => (h q).1, fun q => (h q).2⟩

theorem Quiet.valueOf {v v' : Shared α T} (hq : Quiet v v') (p : ℕ) :
    valueOf C v' p = valueOf C v p := congrArg C.value (hq.timestamp p)

theorem Quiet.not_makes (hq : Quiet (buf w.shared) (buf σ)) (p : ℕ) :
    ¬ Makes buf p (⟨e, w.shared, σ⟩ : Moment M) := by
  rintro ⟨h1, h2⟩
  have h1 : (buf w.shared).alloc = p := h1
  have h2 : (buf σ).alloc = p + 1 := h2
  have h3 := hq.alloc
  omega

theorem TimeInv.record_quiet {g : Ghost} (hI : TimeInv buf C w)
    (hT : Doing buf n t i op w item took) (he : e = .tau t ∨ ∃ r, e = .res t r)
    (hs : BufferStep buf n t w σ g item rem) (hq : Quiet (buf w.shared) (buf σ))
    (hput : ∀ r, e = .res t (.put r) → ∃ p, item = some p)
    (hdone : ∀ r p, e = .res t r → item = some p →
      (∃ k : ℕ, (g.items t)[k]? = some p) ∧
        valueOf C (buf w.shared) p < C.low (buf w.shared).clock)
    (hgot : ∀ x, e = .res t (.got (some x)) → rem = none ∧ ∃ p, took = some p ∧
      ((buf w.shared).item p).data = some x) :
    TimeInv buf C (w.record e σ (g, w.ghost.2)) := by
  have hlow : C.low (buf σ).clock = C.low (buf w.shared).clock := congrArg C.low hq.clock
  refine hI.record hT he hs ?_ ?_ ?_ hlow.ge (fun j q _ => Or.inl (hq.valueOf q))
    (fun p hm => absurd hm (hq.not_makes p)) hput (fun r p hr hp => ?_) hgot
  · rw [hq.alloc]
    exact hI.space
  · intro p hp
    rw [hq.alloc]
    exact hI.ticked p hp
  · rw [hlow]
    exact hI.clock
  · rw [hlow, hq.valueOf]
    exact hdone r p hr hp

/-- The order of removals is kept if an item is removed only after those of earlier
enqueues. -/
theorem TimeInv.fifo_record (hI : TimeInv buf C w) (hT : Doing buf n t i op w item took)
    (he : e = .tau t ∨ ∃ r, e = .res t r) (hs : BufferStep buf n t w σ g.1 item rem)
    {Q : List (Moment M) → ℕ → ℕ → ℕ → ℕ → Prop}
    (hF : FifoWhere Q (Makes buf) (Removes buf n) w.trace)
    (hQ : ∀ ia b ip k, ip < w.trace.length → k < w.trace.length →
      Q (w.record e σ g).trace ia b ip k → Q w.trace ia b ip k)
    (hremove : ∀ b, rem = some b → ∀ ia ib a, Did (Makes buf) w.trace ia a →
      Did (Makes buf) w.trace ib b → Precedes (history w.trace) ia ib →
        Q (w.record e σ g).trace ia b i w.trace.length → ∃ j, Did (Removes buf n) w.trace j a) :
    FifoWhere Q (Makes buf) (Removes buf n) (w.record e σ g).trace := by
  refine hF.step hT.running he hQ (fun p hm => ?_) fun b hb =>
    hremove b ((hs.removes_iff hI.heap).mp hb)
  have hp : (buf w.shared).alloc = p := hm.1
  refine ⟨fun h => ?_, fun j hj => ?_⟩
  · obtain ⟨b, -, hget⟩ := hs.rem ((hs.removes_iff hI.heap).mp h)
    have := (hI.heap.bound _ _ _ hget).2
    omega
  · obtain ⟨b, k, hk, -⟩ := (hI.gone p).mpr ⟨j, hj⟩
    have := (hI.heap.bound _ _ _ hk).2
    omega

/-- The call goes on. -/
theorem Doing.next {item' took' : Option ℕ} (hT : Doing buf n t i op w item took)
    (hI : TimeInv buf C w) (hs : BufferStep buf n t w σ g.1 item rem)
    (hm : ∀ q, item = some q ∨ Makes buf q (⟨.tau t, w.shared, σ⟩ : Moment M) ↔
      item' = some q)
    (ht : ∀ q, took = some q ∨ rem = some q ↔ took' = some q)
    (ho : ∀ p, item' = some p → p < (buf σ).alloc ∧ g.1.owner p = t) :
    Doing buf n t i op (w.record (.tau t) σ g) item' took' where
  running := by
    rw [World.record_trace, history_append]
    exact hT.running.append fun _ => rfl
  own {k q} hq hk := by
    rcases hs.links hq with hq | ⟨-, -, hitem⟩
    · exact (hT.own hq hk).imp (before_record hT.lt_length.le).mpr Did.append
    · exact Or.inr ((hT.makes q).mpr hitem).append
  makes q := by
    rw [World.record_trace, did_step hT.running.1 (Or.inl rfl), hT.makes q, ← hm q]
    simp only [true_and]
  takes q := by
    rw [World.record_trace, did_step hT.running.1 (Or.inl rfl), hT.takes q,
      hs.removes_iff hI.heap, ← ht q]
    simp only [true_and]
  owner := ho

/-- When a call returns, all items in the thread's buffer are done. -/
theorem Doing.own_return (hT : Doing buf n t i op w item took) {r : BagRet α}
    (hs : BufferStep buf n t w σ g.1 item rem) {k q : ℕ}
    (hq : (g.1.items t)[k]? = some q) (hk : 1 ≤ k) :
    Before buf (w.record (.res t r) σ g) (w.trace.length + 1) q := by
  rcases hs.links hq with hq | ⟨-, -, hitem⟩
  · rcases hT.own hq hk with hb | hd
    · have hb : Before buf (w.record (.res t r) σ g) i q :=
        (before_record hT.lt_length.le).mpr hb
      exact hb.mono (hT.lt_length.le.trans (Nat.le_succ _))
    · exact hd.returned hT.running.1 rfl
  · exact ((hT.makes q).mpr hitem).returned hT.running.1 rfl

/-- A call begins, which has made and removed nothing. -/
theorem Doing.call {g : Ghost} (hidle : Idle (history w.trace) t)
    (hown : ∀ k q : ℕ, (w.ghost.1.items t)[k]? = some q → 1 ≤ k → Before buf w w.trace.length q)
    (hitems : g.items = w.ghost.1.items) :
    Doing buf n t w.trace.length op (w.record (.inv t op) w.shared (g, w.ghost.2)) none none := by
  have hnone : ∀ {A : ℕ → Moment M → Prop} q,
      ¬ Did A (w.record (.inv t op) w.shared (g, w.ghost.2)).trace w.trace.length q :=
    fun q hd => not_did_length ((did_call rfl).mp hd)
  refine ⟨?_, fun {k q} hq hk => Or.inl ?_, fun q => ?_, fun q => ?_, fun p hp => by cases hp⟩
  · rw [World.record_trace, history_append, ← length_history w.trace]
    exact hidle.invoke op
  · have hq : (g.items t)[k]? = some q := hq
    rw [hitems] at hq
    exact (before_record le_rfl).mpr (hown k q hq hk)
  · exact iff_of_false (hnone q) (by simp)
  · exact iff_of_false (hnone q) (by simp)

/-- Between its calls, a thread is not disturbed by others. -/
theorem idle_rely (hidle : Idle (history w.trace) t)
    (hown : ∀ k q : ℕ, (w.ghost.1.items t)[k]? = some q → 1 ≤ k → Before buf w w.trace.length q)
    (he : e.thread ≠ t) (hr : TimeRely buf C t w (w.record e σ g)) :
    Idle (history (w.record e σ g).trace) t ∧
      ∀ k q : ℕ, (g.1.items t)[k]? = some q → 1 ≤ k →
        Before buf (w.record e σ g) (w.record e σ g).trace.length q := by
  refine ⟨?_, fun k q hq hk => ?_⟩
  · rw [World.record_trace, history_append]
    exact hidle.other he
  · have hitems : g.1.items t = w.ghost.1.items t := hr.heap.buffer
    rw [hitems] at hq
    have hb : Before buf (w.record e σ g) w.trace.length q :=
      (before_record le_rfl).mpr (hown k q hq hk)
    refine hb.mono ?_
    rw [World.record_trace, List.length_append]
    exact Nat.le_add_right ..

theorem TimeInv.call (hI : TimeInv buf C w) (t : ℕ) (op : BagOp α) {g : Ghost}
    (hH : HeapInv n (buf w.shared) g) (hitems : g.items = w.ghost.1.items)
    (hremoved : g.removed = w.ghost.1.removed) :
    TimeInv buf C (w.record (.inv t op) w.shared (g, w.ghost.2)) := by
  have hgone : ∀ p, g.Gone p ↔ w.ghost.1.Gone p := by
    intro p
    rw [Ghost.Gone, Ghost.Gone, hitems, hremoved]
  refine
    { heap := hH
      room := hI.room
      space := hI.space
      ticked := hI.ticked
      clock := hI.clock
      past := ?_
      order := hI.order.call rfl
      late := ?_
      made := ?_
      allocated := fun hp hpos => ?_
      sentinel := fun hp hd => ?_
      linked := ?_
      buffer := ?_
      gone := fun p => ?_
      accounted := hI.accounted.call rfl }
  · intro k m hk
    rcases getElem?_concat_cases hk with hk | ⟨-, rfl⟩
    · exact hI.past hk
    · exact le_rfl
  · intro i p k m hd hki hk
    have hd := (did_call rfl).mp hd
    exact hI.late hd hki ((getElem?_record (hki.trans_lt hd.lt_length)).mp hk)
  · intro i p hd
    have hd := (did_call rfl).mp hd
    obtain ⟨hlt, hn, v, x, hv, hx⟩ := hI.made hd
    refine ⟨hlt, hn, v, x, ?_, hx⟩
    rw [World.record_trace, history_append,
      getElem?_append_of_lt (by rw [length_history]; exact hd.lt_length)]
    exact hv
  · rw [World.record_ghost, hitems] at hp
    exact (hI.allocated hp hpos).imp fun _ h => (did_call rfl).mpr h
  · rw [World.record_ghost, hitems] at hp
    exact hI.sentinel hp ((did_call rfl).mp hd)
  · intro p hp
    rw [World.record_ghost, hitems]
    rw [World.record_trace, List.length_append, List.length_singleton] at hp
    rcases doneBefore_concat hp with hp | ⟨j, v, op', r, -, he, -⟩
    · exact hI.linked hp
    · cases he
  · intro b k m p q j hp hq hpos hkm hj
    rw [World.record_ghost, hitems] at hp hq
    have hj := (did_call rfl).mp hj
    exact (doneBefore_append_iff hj.lt_length.le).mpr (hI.buffer hp hq hpos hkm hj)
  · rw [World.record_ghost, hgone, hI.gone p]
    exact exists_congr fun j => (did_call rfl).symm

theorem TimeInv.init (C : Counting T n) {σ : M.Shared} {g : Ghost} (hH : HeapInv n (buf σ) g)
    (halloc : (buf σ).alloc = n + 1) (hclock : C.low (buf σ).clock ≤ 2)
    (hitems : ∀ {b k p : ℕ}, (g.items b)[k]? = some p → k = 0) :
    TimeInv buf C (⟨σ, [], (g, ∅)⟩ : State M) where
  heap := hH
  room := halloc.ge
  space := halloc.le.trans (Nat.le_add_right ..)
  ticked p hp := absurd hp (Finset.notMem_empty p)
  clock := hclock
  past h := by simp at h
  order := .nil ..
  late h := absurd h.lt_length (Nat.not_lt_zero _)
  made h := absurd h.lt_length (Nat.not_lt_zero _)
  allocated h hk := absurd (hitems h) (Nat.ne_of_gt hk)
  sentinel _ h := absurd h.lt_length (Nat.not_lt_zero _)
  linked h := by
    obtain ⟨i, hi, -⟩ := h
    exact absurd hi.lt_length (Nat.not_lt_zero _)
  buffer _ _ _ _ h := absurd h.lt_length (Nat.not_lt_zero _)
  gone p := by
    constructor
    · rintro ⟨b, k, hk, hpos, -⟩
      exact absurd (hitems hk) (Nat.ne_of_gt hpos)
    · rintro ⟨j, hj⟩
      exact absurd hj.lt_length (Nat.not_lt_zero _)
  accounted := .nil ..

/-! ### Scans -/

/-- The buffers that a scan from index `start` has visited before its step `i`. -/
def Visited (n start i b : ℕ) : Prop := ∃ k < i, (start + k) % n = b

theorem visited_succ {n start i b : ℕ} (h : Visited n start (i + 1) b) :
    Visited n start i b ∨ b = (start + i) % n := by
  obtain ⟨k, hk, rfl⟩ := h
  rcases Nat.lt_or_eq_of_le (Nat.le_of_lt_succ hk) with hk | rfl
  · exact Or.inl ⟨k, hk, rfl⟩
  · exact Or.inr rfl

theorem visited_all {n start b : ℕ} (hb : b < n) : Visited n start n b := exists_index hb

/-- The items of the buffers `visited` that were enqueued before time `j` are removed, or not
earlier than `time`. -/
def Covered (buf : M.Shared → Shared α T) (C : Counting T n) (j time : ℕ) (visited : ℕ → Prop)
    (w : State M) : Prop :=
  ∀ b k q : ℕ, visited b → (w.ghost.1.items b)[k]? = some q → Before buf w j q →
    k ≤ w.ghost.1.removed b ∨ time ≤ valueOf C (buf w.shared) q

/-- The items of buffer `b` that were enqueued before time `j` are not behind `p`. -/
def UpTo (buf : M.Shared → Shared α T) (j b p : ℕ) (w : State M) : Prop :=
  ∃ m : ℕ, (w.ghost.1.items b)[m]? = some p ∧ ∀ k q : ℕ, (w.ghost.1.items b)[k]? = some q →
    Before buf w j q → k ≤ m

variable {visited visited' : ℕ → Prop} {time time' b : ℕ}

theorem Covered.record (hC : Covered buf C j time visited w) (hI : TimeInv buf C w)
    (hH : HeapInv n (buf σ) g.1) (hr : Rely u (buf w.shared) w.ghost.1 (buf σ) g.1)
    (hs : Stamped C (buf w.shared) (buf σ)) (hj : j ≤ w.trace.length) :
    Covered buf C j time visited (w.record e σ g) := by
  intro b k q hv hq hb
  have hb := (before_record hj).mp hb
  rcases hC b k q hv (hI.getElem_of_before hH hr hj hq hb) hb with h | h
  · exact Or.inl (h.trans (hr.removed b))
  · exact Or.inr (h.trans_eq (hs.valueOf_eq hI hj hb).symm)

theorem UpTo.record (hU : UpTo buf j b p w) (hI : TimeInv buf C w) (hH : HeapInv n (buf σ) g.1)
    (hr : Rely u (buf w.shared) w.ghost.1 (buf σ) g.1) (hj : j ≤ w.trace.length) :
    UpTo buf j b p (w.record e σ g) := by
  obtain ⟨m, hm, hle⟩ := hU
  refine ⟨m, Chain.getElem?_mono (hr.items b) hm, fun k q hq hb => ?_⟩
  have hb := (before_record hj).mp hb
  exact hle k q (hI.getElem_of_before hH hr hj hq hb) hb

theorem Covered.mono (hC : Covered buf C j time visited w) (ht : time' ≤ time)
    (hv : ∀ b, visited' b → visited b) : Covered buf C j time' visited' w :=
  fun b k q hb hq hbefore => (hC b k q (hv b hb) hq hbefore).imp_right ht.trans

/-- A buffer was visited in which no item was found. -/
theorem Covered.skip (hC : Covered buf C j time visited w)
    (hb : ∀ k q : ℕ, (w.ghost.1.items b)[k]? = some q → Before buf w j q →
      k ≤ w.ghost.1.removed b) : Covered buf C j time (fun c => visited c ∨ c = b) w := by
  rintro c k q (hc | rfl) hq hbefore
  · exact hC c k q hc hq hbefore
  · exact Or.inl (hb k q hq hbefore)

/-- A buffer was visited and its first item compared; those behind it are later. -/
theorem Covered.compare (hC : Covered buf C j time visited w) (hI : TimeInv buf C w) {k : ℕ}
    (hk : k ≤ w.ghost.1.removed b) (hp : (w.ghost.1.items b)[k + 1]? = some p)
    (hold : time' ≤ time) (hnew : time' ≤ valueOf C (buf w.shared) p) :
    Covered buf C j time' (fun c => visited c ∨ c = b) w := by
  rintro c m q (hc | rfl) hq hbefore
  · exact (hC c m q hc hq hbefore).imp_right hold.trans
  · rcases Nat.lt_trichotomy m (k + 1) with hlt | rfl | hgt
    · exact Or.inl ((Nat.le_of_lt_succ hlt).trans hk)
    · obtain rfl := Option.some.inj (hq.symm.trans hp)
      exact Or.inr hnew
    · obtain ⟨iq, hiq, -⟩ := id hbefore
      have hlt := hI.order.order (hI.buffer hp hq (Nat.le_add_left ..) hgt hiq) hiq
      exact Or.inr (hnew.trans hlt.le)

/-- After a scan of all buffers the earlier items are removed. -/
theorem Covered.removed (hC : Covered buf C j time (fun b => b < n) w) (hI : TimeInv buf C w)
    (hj : j ≤ w.trace.length) {a : ℕ} (ha : Before buf w j a)
    (hlt : valueOf C (buf w.shared) a < time) : ∃ i, Did (Removes buf n) w.trace i a := by
  obtain ⟨b, k, hk⟩ := hI.linked (ha.mono hj)
  obtain ⟨i, hi, -⟩ := id ha
  refine (hI.gone a).mp ⟨b, k, hk, hI.pos_of_made hk hi, ?_⟩
  rcases hC b k a (hI.heap.lt_of_mem (List.mem_of_getElem? hk)) hk ha with h | h
  · exact h
  · exact absurd hlt (Nat.not_lt.mpr h)

/-- An item whose enqueue was invoked at time `j` or later is not earlier than the clock was
at that time. -/
theorem TimeInv.before_of_lt (hI : TimeInv buf C w) {ia ib a b : ℕ} {m : Moment M}
    (ha : Did (Makes buf) w.trace ia a) (hb : Did (Makes buf) w.trace ib b)
    (hab : Precedes (history w.trace) ia ib) (hm : w.trace[j]? = some m)
    (hlt : valueOf C (buf w.shared) b < C.low (buf m.before).clock) : Before buf w j a := by
  have hib : ib < j := by
    by_contra h
    exact absurd (hI.late hb (Nat.le_of_not_lt h) hm) (Nat.not_le.mpr hlt)
  have hdone : Before buf w ib a := ⟨ia, ha, hab⟩
  exact hdone.mono hib.le

end Step

end TSQueue

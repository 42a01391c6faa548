/-
The order in which the queue with timestamps for dequeues removes its items.

The buffers are those of a timestamped queue, and so are the items and their timestamps.  A
dequeue whose timestamp is not below that of an item takes it at once, whatever the other
buffers hold; otherwise it takes the least item of its scan, which has passed all items whose
enqueues returned before the dequeue was invoked.

* `access_timed` — every access keeps the invariant of `TSQueueOrder`;
* `fifo_timely` — the order of removals, for items that are not taken at once, and were
  enqueued before the dequeue was invoked (`Timely`);
* `not_fifo_atOnce_passed` — in other cases the order may be reversed.
-/
import Scal.DTSQueue
import Scal.TSQueueOrder

open Interleave Linearizability
open TSQueue (HeapInv Ghost Fresh Rely Makes Removes TimeInv TimeRely Doing BufferStep Covered
  UpTo Visited Before Stamped Successor Quiet valueOf)

namespace DTSQueue

variable {α : Type} {n addresses : ℕ}

/-- The memory without the second counter is that of a timestamped queue. -/
abbrev buffers (σ : Shared α) : TSQueue.Shared α atomicCounter :=
  ⟨σ.item, σ.alloc, σ.insert, σ.remove, fun _ _ => ⟨0, 0⟩, σ.timestamping⟩

instance (p : ℕ) (m : Moment (machine α n addresses)) : Decidable (Makes buffers p m) :=
  inferInstanceAs (Decidable (_ ∧ _))

instance (p : ℕ) (m : Moment (machine α n addresses)) : Decidable (Removes buffers n p m) :=
  inferInstanceAs (Decidable (∃ b < n, _ ∧ _))

/-- The step draws the timestamp `τ` for a dequeue. -/
def Draws (τ : ℕ) (m : Moment (machine α n addresses)) : Prop :=
  Shared.dequeueTimestamping m.before = τ ∧
    Shared.dequeueTimestamping m.after = (τ + 1) % wordSize

/-- The enqueue `ia` returned before the dequeue `ip` was invoked, and the timestamp of that is
below the one of the item `b`, which it removes at time `k`. -/
def Timely (tr : List (Moment (machine α n addresses))) (ia b ip k : ℕ) : Prop :=
  Precedes (history tr) ia ip ∧ ∀ m τ, tr[k]? = some m → Did Draws tr ip τ →
    τ < (Shared.item m.before b).timestamp

/-- The item of an enqueue. -/
def Local.item : Local α → Option ℕ
  | .loadOldInsert _ p | .storeNext _ p _ | .storeInsert _ p => some p
  | _ => none

/-- The item that a dequeue removed. -/
def Local.took : Local α → Option ℕ
  | .loadData _ p => some p
  | _ => none

abbrev QueueState (α : Type) (n addresses : ℕ) := TSQueue.State (machine α n addresses)

/-! ### What a call knows -/

/-- The dequeue `i` has found the item `s.result` in the buffers `visited`. -/
structure Scanning (i : ℕ) (s : Scan) (visited : ℕ → Prop) (w : QueueState α n addresses) :
    Prop where
  draws : Did Draws w.trace i s.dequeueTimestamp
  bound : s.timestamp ≤ uint64Max
  result : s.result ≠ 0 → s.result < Shared.alloc w.shared ∧ s.bufferIndex < n ∧
    (Shared.item w.shared s.result).timestamp = s.timestamp ∧
    Successor s.bufferIndex s.oldRemove s.result w.ghost.1
  covered : Covered buffers (atomicCounting n) i s.timestamp visited w

/-- Facts about a call that stay true once they are true. -/
inductive Fact (α : Type) where
  /-- The item is in no buffer yet. -/
  | fresh (element : α) (p : ℕ)
  /-- What is known of the buffers alone. -/
  | heap (F : TSQueue.Fact α atomicCounter)
  | scanning (s : Scan)
  /-- All buffers are visited. -/
  | scanned (s : Scan)
  | upTo (b p : ℕ)
  /-- The item follows that of `w`, up to which the buffer's items are removed. -/
  | next (b : ℕ) (w : TaggedPointer) (p : ℕ)
  /-- The item may be taken at once. -/
  | early (dequeueTimestamp p : ℕ)

def Fact.Holds (t i : ℕ) (w : QueueState α n addresses) : Fact α → Prop
  | .fresh x p => Fresh t p x (buffers w.shared) w.ghost.1
  | .heap F => F.Holds n t (buffers w.shared) w.ghost.1
  | .scanning s => Scanning i s (Visited n s.start s.i) w
  | .scanned s => Scanning i s (· < n) w
  | .upTo b p => UpTo buffers i b p w
  | .next b v p => ∃ k ≤ w.ghost.1.removed b, (w.ghost.1.items b)[k]? = some v.pointer ∧
    (w.ghost.1.items b)[k + 1]? = some p
  | .early τ p => p < Shared.alloc w.shared ∧ (Shared.item w.shared p).timestamp ≤ τ

def Local.facts (n : ℕ) : Local α → List (Fact α)
  | .newItem _ => []
  | .loadOldInsert x p => [.fresh x p]
  | .storeNext x p old => [.fresh x p, .heap (.last old)]
  | .storeInsert x p => [.fresh x p, .heap (.nextStored p)]
  | .drawTicket => []
  | .loadRemove s _ => [.scanning s]
  | .loadInsert s _ v => [.scanning s, .heap (.removeRead (s.tmpBufferIndex n) v)]
  | .loadNext s _ v p =>
    [.scanning s, .heap (.insertRead (s.tmpBufferIndex n) v p), .upTo (s.tmpBufferIndex n) p]
  | .loadTimestamp s _ v p => [.scanning s, .next (s.tmpBufferIndex n) v p]
  | .checkAtOnce s v p | .swapAtOnce s v p =>
    [.scanning s, .next (s.tmpBufferIndex n) v p, .early s.dequeueTimestamp p]
  | .checkRemove s | .swapRemove s => [.scanned s]
  | .loadData _ p => [.heap (.taken p)]

/-- What the local variables say without reference to the memory. -/
def Local.Shape (n : ℕ) (op : BagOp α) : Local α → Prop
  | .newItem x => op = .put x
  | .loadRemove s _ | .loadInsert s _ _ | .loadNext s _ _ _ | .loadTimestamp s _ _ _
  | .checkAtOnce s _ _ | .swapAtOnce s _ _ => s.i < n
  | .checkRemove s | .swapRemove s => s.result ≠ 0
  | _ => True

/-- The invariant: all items have timestamps, and those removed in the cases of `Timely` are
not removed before ones of earlier enqueues. -/
structure QueueInv (w : QueueState α n addresses) : Prop where
  time : TimeInv buffers (atomicCounting n) w
  stamped : ∀ p < Shared.alloc w.shared,
    (Shared.item w.shared p).timestamp < Shared.timestamping w.shared
  fifo : FifoWhere Timely (Makes buffers) (Removes buffers n) w.trace

/-- What is known about the call `i` of thread `t` that is at `l`. -/
structure Timed (t i : ℕ) (op : BagOp α) (w : QueueState α n addresses) (l : Local α) :
    Prop where
  doing : Doing buffers n t i op w l.item l.took
  shape : l.Shape n op
  facts : AllOf (Fact.Holds t i w) (l.facts n)

variable {w : QueueState α n addresses} {t u i : ℕ} {op : BagOp α}
  {e : Event (BagOp α) (BagRet α)} {σ : Shared α} {g : Ghost × Finset ℕ} {l : Local α}
  {o : Local α ⊕ BagRet α} {s : Scan} {visited : ℕ → Prop}

theorem Scanning.record (hS : Scanning i s visited w) (hI : QueueInv w)
    (hH : HeapInv n (buffers σ) g.1) (hr : Rely u (buffers w.shared) w.ghost.1 (buffers σ) g.1)
    (hs : Stamped (atomicCounting n) (buffers w.shared) (buffers σ)) :
    Scanning i s visited (w.record e σ g) where
  draws := hS.draws.append
  bound := hS.bound
  result h := by
    obtain ⟨hlt, hb, hv, hsucc⟩ := hS.result h
    have hne : valueOf (atomicCounting n) (buffers w.shared) s.result ≠ uint64Max :=
      ((hI.stamped _ hlt).trans hI.time.low_lt).ne
    exact ⟨hlt.trans_le hr.alloc, hb, (hs _ hlt hne).trans hv, hsucc.mono (hr.items _)⟩
  covered := hS.covered.record hI.time hH hr hs hS.draws.lt_length.le

theorem Fact.Holds.rely {F : Fact α} (hF : F.Holds t i w) (hI : QueueInv w)
    (hH : HeapInv n (buffers σ) g.1)
    (hr : TimeRely buffers (atomicCounting n) t w (w.record e σ g)) (hi : i ≤ w.trace.length) :
    F.Holds t i (w.record e σ g) := by
  have hrely : Rely t (buffers w.shared) w.ghost.1 (buffers σ) g.1 := hr.heap
  have hstamped : Stamped (atomicCounting n) (buffers w.shared) (buffers σ) := hr.stamped
  cases F with
  | fresh x p =>
    obtain ⟨ho, -, hu⟩ := hrely.own p hF.lt hF.owner
    exact ⟨ho, hF.lt.trans_le hrely.alloc, hF.ne, (hu hF.unlinked).1,
      (hrely.data p hF.lt).trans hF.data⟩
  | heap F => exact TSQueue.Fact.Holds.rely hF hrely
  | scanning s => exact Scanning.record hF hI hH hrely hstamped
  | scanned s => exact Scanning.record hF hI hH hrely hstamped
  | upTo b p => exact UpTo.record hF hI.time hH hrely hi
  | next b v p =>
    obtain ⟨k, hk, hv, hp⟩ := hF
    exact ⟨k, hk.trans (hrely.removed b), Chain.getElem?_mono (hrely.items b) hv,
      Chain.getElem?_mono (hrely.items b) hp⟩
  | early τ p =>
    obtain ⟨hlt, hle⟩ := hF
    have hne : valueOf (atomicCounting n) (buffers w.shared) p ≠ uint64Max :=
      ((hI.stamped _ hlt).trans hI.time.low_lt).ne
    exact ⟨hlt.trans_le hrely.alloc, (hstamped p hlt hne).le.trans hle⟩

/-! ### One access -/

/-- What is to be shown of the access. -/
def TimeOk (t i : ℕ) (op : BagOp α) (w : QueueState α n addresses) (σ : Shared α)
    (o : Local α ⊕ BagRet α) : Prop :=
  ∃ g, QueueInv (w.record (.ofStep (M := machine α n addresses) t o) σ g) ∧
    (∀ l', o = .inl l' → Timed t i op (w.record (.tau t) σ g) l') ∧
    (∀ r, o = .inr r → ∀ k q : ℕ, (g.1.items t)[k]? = some q → 1 ≤ k →
      Before buffers (w.record (.res t r) σ g) (w.trace.length + 1) q) ∧
    ∀ u, u ≠ t → TimeRely buffers (atomicCounting n) u w
      (w.record (.ofStep (M := machine α n addresses) t o) σ g)

theorem Timely.of_concat {tr : List (Moment (machine α n addresses))}
    {m : Moment (machine α n addresses)} {ia b ip k : ℕ} (hip : ip < tr.length)
    (hk : k < tr.length) (h : Timely (tr ++ [m]) ia b ip k) : Timely tr ia b ip k := by
  obtain ⟨hpre, hlt⟩ := h
  rw [history_append] at hpre
  refine ⟨(precedes_append_iff (by rw [length_history]; exact hip.le)).mp hpre,
    fun m' τ hm hd => hlt m' τ ?_ hd.append⟩
  rw [getElem?_append_of_lt hk, hm]

/-- An access that makes no item. -/
theorem access_quiet (hI : QueueInv w) (hT : Timed t i op w l) {g : Ghost} {rem : Option ℕ}
    (hs : BufferStep buffers n t w σ g l.item rem) (hq : Quiet (buffers w.shared) (buffers σ))
    (howner : g.owner = w.ghost.1.owner)
    (hgo : ∀ l', o = .inl l' → l'.item = l.item ∧
      (∀ q, l.took = some q ∨ rem = some q ↔ l'.took = some q) ∧ l'.Shape n op ∧
      AllOf (Fact.Holds t i (w.record (.tau t) σ (g, w.ghost.2))) (l'.facts n))
    (hstop : ∀ r, o = .inr r → (∀ b, r = .put b → ∃ p, l.item = some p) ∧
      (∀ p, l.item = some p → p < Shared.alloc w.shared ∧ ∃ k : ℕ, (g.items t)[k]? = some p) ∧
      ∀ x, r = .got (some x) → rem = none ∧ ∃ p, l.took = some p ∧
        (Shared.item w.shared p).data = some x)
    (hfifo : ∀ b, rem = some b → ∀ ia ib a, Did (Makes buffers) w.trace ia a →
      Did (Makes buffers) w.trace ib b → Precedes (history w.trace) ia ib →
        Timely (w.record (.ofStep (M := machine α n addresses) t o) σ (g, w.ghost.2)).trace
          ia b i w.trace.length → ∃ j, Did (Removes buffers n) w.trace j a) :
    TimeOk t i op w σ o := by
  have he := Event.ofStep_cases (M := machine α n addresses) t o
  have hres : ∀ r, (.ofStep (M := machine α n addresses) t o : Event (BagOp α) (BagRet α)) =
      .res t r → o = .inr r := by
    intro r hr
    cases o with
    | inl l' => cases hr
    | inr r' =>
      obtain rfl : r' = r := by simpa [Event.ofStep] using hr
      rfl
  refine ⟨(g, w.ghost.2), ⟨?_, fun p hp => ?_, ?_⟩, fun l' ho => ?_, fun r ho k q hk hpos => ?_,
    fun u hu => ⟨hs.rely u hu, ?_, fun p _ _ hp => hp, fun q _ _ => hq.valueOf q⟩⟩
  · refine hI.time.record_quiet hT.doing he hs hq (fun r hr => ?_) (fun r p hr hp => ?_)
      fun x hr => ?_
    · exact (hstop _ (hres _ hr)).1 r rfl
    · obtain ⟨hlt, hk⟩ := (hstop _ (hres _ hr)).2.1 p hp
      exact ⟨hk, hI.stamped p hlt⟩
    · exact (hstop _ (hres _ hr)).2.2 x rfl
  · have hp : p < σ.alloc := hp
    show (σ.item p).timestamp < σ.timestamping
    rw [show σ.timestamping = _ from hq.clock, show (σ.item p).timestamp = _ from hq.timestamp p]
    exact hI.stamped p (hp.trans_eq hq.alloc)
  · exact hI.time.fifo_record hT.doing he hs hI.fifo
      (fun ia b ip k hip hk h => Timely.of_concat hip hk h) hfifo
  · subst ho
    obtain ⟨hitem, htook, hshape, hf⟩ := hgo l' rfl
    refine ⟨?_, hshape, hf⟩
    refine hT.doing.next hI.time hs (fun q => ?_) htook fun p hp => ?_
    · rw [hitem]
      exact or_iff_left (hq.not_makes q)
    · rw [hitem] at hp
      rw [howner, hq.alloc]
      exact hT.doing.owner p hp
  · subst ho
    exact hT.doing.own_return hs hk hpos
  · show w.shared.timestamping ≤ σ.timestamping
    exact hq.clock.ge

/-- An access of a call that goes on, which removes nothing. -/
theorem access_go {l' : Local α} (hI : QueueInv w) (hT : Timed t i op w l)
    (hH : HeapInv n (buffers σ) w.ghost.1)
    (hr : ∀ u, u ≠ t → Rely u (buffers w.shared) w.ghost.1 (buffers σ) w.ghost.1)
    (hq : Quiet (buffers w.shared) (buffers σ)) (hitem : l'.item = l.item)
    (htook : l'.took = l.took) (hshape : l'.Shape n op)
    (hf : AllOf (Fact.Holds t i (w.record (.tau t) σ w.ghost)) (l'.facts n)) :
    TimeOk t i op w σ (.inl l') := by
  refine access_quiet hI hT (BufferStep.of_rely hH hr) hq rfl (fun m hm => ?_)
    (fun r hr => by cases hr) fun b hb => by cases hb
  obtain rfl := Sum.inl.inj hm
  refine ⟨hitem, fun q => ?_, hshape, hf⟩
  rw [htook]
  exact or_iff_left (by simp)

/-- An access that only reads. -/
theorem access_read {l' : Local α} (hI : QueueInv w) (hT : Timed t i op w l)
    (hitem : l'.item = l.item) (htook : l'.took = l.took) (hshape : l'.Shape n op)
    (hf : AllOf (Fact.Holds t i w) (l'.facts n)) : TimeOk t i op w w.shared (.inl l') :=
  access_go hI hT hI.time.heap (fun _ _ => .refl ..) (.refl _) hitem htook hshape
    (hf.imp fun _ h => h.rely hI hI.time.heap (.refl _ t w _) hT.doing.lt_length.le)

/-! ### Enqueue -/

theorem newItem_ok {x : α} (hI : QueueInv w) (hT : Timed t i op w (.newItem x))
    (haddr : addresses ≤ addressSpace) (halloc : Shared.alloc w.shared < addresses) :
    TimeOk t i op w (Shared.newItem w.shared x)
      (.inl (.loadOldInsert x (Shared.alloc w.shared))) := by
  let a := Shared.alloc w.shared
  let τ := Shared.timestamping w.shared
  let σ := Shared.newItem w.shared x
  obtain ⟨hH, hfresh, hr⟩ := hI.time.heap.allocate (Nat.zero_lt_of_lt hI.time.room) t
    (buffers σ) rfl rfl rfl rfl rfl (x := x) rfl
  have hlow : τ < uint64Max := hI.time.low_lt
  -- the counter does not wrap
  have hclock : σ.timestamping = τ + 1 := by
    refine Nat.mod_eq_of_lt ?_
    rw [uint64Max] at hlow
    omega
  have hold : ∀ q, q ≠ a → σ.item q = Shared.item w.shared q :=
    fun q hq => Function.update_of_ne hq ..
  have hself : σ.item a = ⟨0, some x, τ⟩ := Function.update_self ..
  have hs : BufferStep buffers n t w σ
      { w.ghost.1 with owner := Function.update w.ghost.1.owner a t } none none :=
    ⟨hH, fun u _ => hr u, fun h => Or.inl h, fun _ => Or.inl rfl, fun h => by cases h⟩
  have hmakes : ∀ q, Makes buffers q
      (⟨.tau t, w.shared, σ⟩ : Moment (machine α n addresses)) ↔ a = q := by
    intro q
    refine ⟨fun h => h.1, fun h => ⟨h, ?_⟩⟩
    show a + 1 = q + 1
    rw [h]
  have hnot : a ∉ w.ghost.2 := fun h => Nat.lt_irrefl _ (hI.time.ticked _ h).2
  refine ⟨({ w.ghost.1 with owner := Function.update w.ghost.1.owner a t },
    insert a w.ghost.2), ⟨?_, fun p hp => ?_, ?_⟩, fun l' hl' => ?_, fun r hr => (by cases hr),
    fun u hu => ⟨hr u, ?_, fun p hp _ hnp => ?_, fun q hq _ => ?_⟩⟩
  · refine hI.time.record hT.doing (Or.inl rfl) hs ?_ (fun p hp => ?_) ?_ ?_ (fun j q hj => ?_)
      (fun p hm => ?_) (fun r hr => by cases hr) (fun r p hr => by cases hr) fun y hr => by cases hr
    · show a + 1 ≤ n + 1 + addressSpace
      omega
    · show n < p ∧ p < a + 1
      rcases Finset.mem_insert.mp hp with rfl | hp
      · exact ⟨hI.time.room, Nat.lt_succ_self _⟩
      · exact ⟨(hI.time.ticked p hp).1, Nat.lt_succ_of_lt (hI.time.ticked p hp).2⟩
    · show σ.timestamping ≤ (insert a w.ghost.2).card + 2
      rw [hclock, Finset.card_insert_of_notMem hnot]
      have hle : τ ≤ w.ghost.2.card + 2 := hI.time.clock
      omega
    · show τ ≤ σ.timestamping
      rw [hclock]
      exact Nat.le_succ _
    · left
      show (σ.item q).timestamp = (Shared.item w.shared q).timestamp
      rw [hold q (Nat.ne_of_lt (hI.time.made hj).1)]
    · obtain rfl := (hmakes p).mp hm
      refine ⟨rfl, ⟨x, hT.shape, congrArg TSQueue.Item.data hself⟩, ?_⟩
      show τ ≤ (σ.item a).timestamp
      rw [hself]
  · have hp : p < a + 1 := hp
    show (σ.item p).timestamp < σ.timestamping
    rw [hclock]
    by_cases hpa : p = a
    · rw [hpa, hself]
      exact Nat.lt_succ_self _
    · rw [hold p hpa]
      exact Nat.lt_succ_of_lt (hI.stamped p (by omega))
  · exact hI.time.fifo_record hT.doing (Or.inl rfl) hs hI.fifo
      (fun ia b ip k hip hk h => Timely.of_concat hip hk h) fun b hb => by cases hb
  · obtain rfl := Sum.inl.inj hl'
    refine ⟨hT.doing.next hI.time hs (fun q => ?_) (fun q => by simp [Local.took])
      (fun p hp => ?_), trivial, hfresh⟩
    · rw [hmakes q]
      simp [Local.item, a]
    · obtain rfl := Option.some.inj hp
      exact ⟨hfresh.lt, hfresh.owner⟩
  · show τ ≤ σ.timestamping
    rw [hclock]
    exact Nat.le_succ _
  · intro h
    rcases Finset.mem_insert.mp h with rfl | h
    · exact Nat.lt_irrefl _ hp
    · exact hnp h
  · show (σ.item q).timestamp = (Shared.item w.shared q).timestamp
    rw [hold q (Nat.ne_of_lt hq)]

theorem enqueue_ok {ch : Choice} (hI : QueueInv w) (hT : Timed t i op w l) (ht : t < n)
    (haddr : addresses ≤ addressSpace) (hl : l.item ≠ none ∨ ∃ x, l = .newItem x)
    (hst : step n addresses t ch w.shared l = some (σ, o)) : TimeOk t i op w σ o := by
  cases l with
  | newItem x =>
    simp only [step] at hst
    split_ifs at hst with halloc
    obtain ⟨rfl, rfl⟩ := Prod.mk.inj (Option.some.inj hst)
    exact newItem_ok hI hT haddr halloc
  | loadOldInsert x p =>
    obtain ⟨rfl, rfl⟩ := Prod.mk.inj (Option.some.inj hst)
    exact access_read hI hT rfl rfl trivial ⟨hT.facts, rfl⟩
  | storeNext x p old =>
    obtain ⟨rfl, rfl⟩ := Prod.mk.inj (Option.some.inj hst)
    obtain ⟨hfresh, hlast⟩ := hT.facts
    have hlast : Shared.insert w.shared t = old := hlast
    subst hlast
    obtain ⟨hH, hr⟩ := hI.time.heap.setNext ht p
    have hq := Quiet.setNext (buffers w.shared) (Shared.insert w.shared t) p
    refine access_go hI hT hH hr hq rfl rfl trivial ⟨?_, ?_⟩
    · have hfresh : Fresh t p x (buffers w.shared) w.ghost.1 := hfresh
      exact ⟨hfresh.owner, hfresh.lt, hfresh.ne, hfresh.unlinked, (hq.data p).trans hfresh.data⟩
    · refine ⟨?_, hI.time.heap.insert_mem ht⟩
      show (Function.update (Shared.item w.shared) (Shared.insert w.shared t)
        { Shared.item w.shared (Shared.insert w.shared t) with next := p }
        (Shared.insert w.shared t)).next = p
      rw [Function.update_self]
  | storeInsert x p =>
    obtain ⟨rfl, rfl⟩ := Prod.mk.inj (Option.some.inj hst)
    obtain ⟨hfresh, hnext, -⟩ := hT.facts
    have hfresh : Fresh t p x (buffers w.shared) w.ghost.1 := hfresh
    obtain ⟨hH, hr⟩ := hI.time.heap.link ht hfresh hnext
    refine access_quiet hI hT (.link hH hr rfl rfl) ⟨rfl, rfl, fun _ => rfl, fun _ => rfl⟩ rfl
      (fun l' h => by cases h) (fun r hr => ⟨fun b hb => ⟨p, rfl⟩, fun q hq => ?_, ?_⟩)
      fun b hb => by cases hb
    · obtain rfl := Option.some.inj hq
      refine ⟨hfresh.lt, (w.ghost.1.items t).length, ?_⟩
      show (Function.update w.ghost.1.items t (w.ghost.1.items t ++ [p]) t)[_]? = some p
      rw [Function.update_self, List.getElem?_concat_length]
    · rintro y rfl
      cases hr
  | _ =>
    rcases hl with hl | ⟨x, hx⟩
    · exact absurd rfl hl
    · cases hx

/-! ### Dequeue -/

theorem Scanning.init {τ : ℕ} (hd : Did Draws w.trace i τ) (start : ℕ) :
    Scanning i (Scan.init τ start) (Visited n start 0) w where
  draws := hd
  bound := le_rfl
  result h := absurd rfl h
  covered := by
    rintro b k q ⟨m, hm, -⟩
    exact absurd hm (Nat.not_lt_zero m)

/-- The scan goes on behind a buffer of which nothing is left. -/
theorem Scanning.skip (hS : Scanning i s (Visited n s.start s.i) w) {k p : ℕ}
    (hk : k ≤ w.ghost.1.removed (s.tmpBufferIndex n))
    (hp : (w.ghost.1.items (s.tmpBufferIndex n))[k]? = some p) (hI : QueueInv w)
    (hU : UpTo buffers i (s.tmpBufferIndex n) p w) :
    Scanning i s (Visited n s.start (s.i + 1)) w := by
  obtain ⟨m, hm, hle⟩ := hU
  obtain rfl := hI.time.heap.pos_eq hp hm
  refine ⟨hS.draws, hS.bound, hS.result, ?_⟩
  have hcovered := hS.covered.skip fun k' q hq hb => (hle k' q hq hb).trans hk
  exact hcovered.mono le_rfl fun b => TSQueue.visited_succ

/-- The scan goes on behind a buffer whose first item was compared. -/
theorem Scanning.compare (hS : Scanning i s (Visited n s.start s.i) w) (hs : s.i < n)
    {v : TaggedPointer} {p : ℕ}
    (hp : (Fact.next (s.tmpBufferIndex n) v p : Fact α).Holds t i w) (hI : QueueInv w) :
    Scanning i (s.compare (s.tmpBufferIndex n) p (Shared.item w.shared p).timestamp v)
      (Visited n s.start (s.i + 1)) w := by
  obtain ⟨k, hk, hv, hp⟩ := hp
  have hlt : p < Shared.alloc w.shared := (hI.time.heap.bound _ _ _ hp).2
  rw [Scan.compare]
  split_ifs with h
  · have h : (Shared.item w.shared p).timestamp < s.timestamp := of_decide_eq_true h
    have hb : s.tmpBufferIndex n < n := Nat.mod_lt _ (Nat.zero_lt_of_lt hs)
    refine ⟨hS.draws, h.le.trans hS.bound, fun _ => ⟨hlt, hb, rfl, k, hv, hp⟩, ?_⟩
    exact (hS.covered.compare hI.time hk hp h.le le_rfl).mono le_rfl
      fun b => TSQueue.visited_succ
  · have h : s.timestamp ≤ (Shared.item w.shared p).timestamp := by
      have hnot : ¬ (Shared.item w.shared p).timestamp < s.timestamp :=
        fun hlt => h (decide_eq_true hlt)
      exact Nat.le_of_not_lt hnot
    exact ⟨hS.draws, hS.bound, hS.result,
      (hS.covered.compare hI.time hk hp le_rfl h).mono le_rfl fun b => TSQueue.visited_succ⟩

theorem tryRemoveOldest_ok (hI : QueueInv w) (hT : Timed t i op w l) (hn : 0 < n)
    (hitem : l.item = none) (htook : l.took = none) {τ : ℕ} (hd : Did Draws w.trace i τ)
    (start : ℕ) : TimeOk t i op w w.shared (.inl (tryRemoveOldest τ start)) :=
  access_read hI hT hitem.symm htook.symm hn (Scanning.init hd start)

/-- A buffer was visited. -/
theorem nextBuffer_ok (hI : QueueInv w) (hT : Timed t i op w l) (hs : s.i < n)
    (hitem : l.item = none) (htook : l.took = none)
    (hS : Scanning i s (Visited n s.start (s.i + 1)) w) (start : ℕ) :
    TimeOk t i op w w.shared (.inl (nextBuffer n s start)) := by
  rw [nextBuffer]
  split_ifs with hnext hres
  · exact access_read hI hT hitem.symm htook.symm hnext
      ⟨hS.draws, hS.bound, hS.result, hS.covered⟩
  · refine access_read hI hT hitem.symm htook.symm hres
      ⟨hS.draws, hS.bound, hS.result, hS.covered.mono le_rfl fun b hb => ?_⟩
    have hend : s.i + 1 = n := by omega
    rw [hend]
    exact TSQueue.visited_all hb
  · exact tryRemoveOldest_ok hI hT (Nat.zero_lt_of_lt hs) hitem htook hS.draws start

/-- **Removing** an item. -/
theorem take_ok {b p τ : ℕ} (hI : QueueInv w) (hT : Timed t i op w l) (hb : b < n)
    (hsucc : Successor b (Shared.remove w.shared b) p w.ghost.1) (hitem : l.item = none)
    (htook : l.took = none) {v : TaggedPointer} (hv : v.pointer = p)
    (hfifo : ∀ ia ib a, Did (Makes buffers) w.trace ia a → Did (Makes buffers) w.trace ib p →
      Precedes (history w.trace) ia ib → Precedes (history w.trace) ia i →
      (∀ τ, Did Draws w.trace i τ → τ < (Shared.item w.shared p).timestamp) →
        ∃ j, Did (Removes buffers n) w.trace j a) :
    TimeOk t i op w (Shared.setRemove w.shared b v) (.inl (.loadData τ p)) := by
  obtain ⟨hget, hH, hr⟩ := hI.time.heap.removeNext hb hsucc v hv
  have hi : i ≤ w.trace.length := hT.doing.lt_length.le
  refine access_quiet hI hT (.take hH (fun u _ => hr u) rfl rfl hget)
    ⟨rfl, rfl, fun _ => rfl, fun _ => rfl⟩ rfl (fun l' hl' => ?_) (fun r hr => by cases hr)
    fun q hq ia ib a ha hib hab htimely => ?_
  · obtain rfl := Sum.inl.inj hl'
    refine ⟨hitem.symm, fun q => ?_, trivial, (hI.time.heap.bound _ _ _ hget).2,
      (hI.time.heap.data _ _ _ (Nat.le_add_left ..) hget).2⟩
    rw [htook]
    exact or_iff_right (by simp)
  · obtain rfl := Option.some.inj hq
    obtain ⟨hpre, hlt⟩ := htimely
    rw [World.record_trace, history_append] at hpre
    refine hfifo ia ib a ha hib hab ?_ fun τ hd => ?_
    · exact (precedes_append_iff (by rw [length_history]; exact hi)).mp hpre
    · exact hlt _ τ List.getElem?_concat_length hd.append

/-- Taking an item at once. -/
theorem swapAtOnce_ok {v : TaggedPointer} {p : ℕ} (hI : QueueInv w)
    (hT : Timed t i op w (.swapAtOnce s v p))
    (hcas : Shared.remove w.shared (s.tmpBufferIndex n) = v) :
    TimeOk t i op w (Shared.setRemove w.shared (s.tmpBufferIndex n) (addNextAba p v 1))
      (.inl (.loadData s.dequeueTimestamp p)) := by
  obtain ⟨hS, ⟨k, -, hv, hp⟩, -, hle⟩ := hT.facts
  have hb : s.tmpBufferIndex n < n := Nat.mod_lt _ (Nat.zero_lt_of_lt hT.shape)
  refine take_ok hI hT hb ⟨k, hcas ▸ hv, hp⟩ rfl rfl rfl fun ia ib a _ _ _ _ hlt => ?_
  -- its timestamp is not above that of the dequeue
  exact absurd hle (Nat.not_le.mpr (hlt _ hS.draws))

/-- Taking the least item of a scan. -/
theorem swapRemove_ok (hI : QueueInv w) (hT : Timed t i op w (.swapRemove s))
    (hcas : Shared.remove w.shared s.bufferIndex = s.oldRemove) :
    TimeOk t i op w (Shared.setRemove w.shared s.bufferIndex (addNextAba s.result s.oldRemove 1))
      (.inl (.loadData s.dequeueTimestamp s.result)) := by
  have hS : Scanning i s (· < n) w := hT.facts
  obtain ⟨-, hb, hvalue, hsucc⟩ := hS.result hT.shape
  refine take_ok hI hT hb (hcas ▸ hsucc) rfl rfl rfl fun ia ib a ha hib hab hpre _ => ?_
  have horder : (Shared.item w.shared a).timestamp < (Shared.item w.shared s.result).timestamp :=
    hI.time.order.order ⟨ia, ha, hab⟩ hib
  exact hS.covered.removed hI.time hT.doing.lt_length.le ⟨ia, ha, hpre⟩
    (horder.trans_eq hvalue)

theorem loadNext_ok {again : Bool} {v : TaggedPointer} {p : ℕ} {ch : Choice} (hI : QueueInv w)
    (hT : Timed t i op w (.loadNext s again v p))
    (hst : step n addresses t ch w.shared (.loadNext s again v p) = some (σ, o)) :
    TimeOk t i op w σ o := by
  obtain ⟨hS, ⟨k, m, hkm, hk, hkv, hmp⟩, hU⟩ := hT.facts
  simp only [step] at hst
  by_cases hne : v.pointer = p
  · rw [if_neg (not_not.mpr hne)] at hst
    obtain ⟨rfl, rfl⟩ := Prod.mk.inj (Option.some.inj hst)
    rw [hne] at hkv
    exact nextBuffer_ok hI hT hT.shape rfl rfl (Scanning.skip hS hk hkv hI hU) _
  · rw [if_pos hne] at hst
    obtain ⟨rfl, rfl⟩ := Prod.mk.inj (Option.some.inj hst)
    -- the item read before is not the last one
    have hlt : k < m := by
      refine Nat.lt_of_le_of_ne hkm fun h => hne ?_
      subst h
      exact Option.some.inj (hkv.symm.trans hmp)
    have hlen : k + 1 < (w.ghost.1.items (s.tmpBufferIndex n)).length :=
      Nat.lt_of_le_of_lt hlt (Chain.lt_length hmp)
    have hget := List.getElem?_eq_getElem hlen
    have hnext := hI.time.heap.next _ _ _ _ hkv hget
    refine access_read hI hT rfl rfl hT.shape ⟨hS, k, hk, hkv, ?_⟩
    rw [hget]
    exact congrArg some hnext.symm

/-- **Every access** of a call that knows its facts keeps the invariant. -/
theorem access_timed {ch : Choice} (hI : QueueInv w) (hT : Timed t i op w l) (ht : t < n)
    (haddr : addresses ≤ addressSpace) (hst : step n addresses t ch w.shared l = some (σ, o)) :
    TimeOk t i op w σ o := by
  have hn := Nat.zero_lt_of_lt ht
  cases l with
  | drawTicket =>
    obtain ⟨rfl, rfl⟩ := Prod.mk.inj (Option.some.inj hst)
    refine access_go hI hT hI.time.heap (fun _ _ => .refl ..) (.refl _) rfl rfl hn ?_
    refine Scanning.init ((did_step hT.doing.running.1 (Or.inl rfl)).mpr (Or.inr ⟨rfl, rfl, rfl⟩)) _
  | loadRemove s again =>
    obtain ⟨rfl, rfl⟩ := Prod.mk.inj (Option.some.inj hst)
    have hb : s.tmpBufferIndex n < n := Nat.mod_lt _ hn
    exact access_read hI hT rfl rfl hT.shape
      ⟨hT.facts, _, le_rfl, hI.time.heap.remove _ hb⟩
  | loadInsert s again v =>
    obtain ⟨rfl, rfl⟩ := Prod.mk.inj (Option.some.inj hst)
    obtain ⟨hS, k, hk, hkv⟩ := hT.facts
    have hb : s.tmpBufferIndex n < n := Nat.mod_lt _ hn
    have hlast := hI.time.heap.insert _ hb
    have hlen := Chain.lt_length hkv
    refine access_read hI hT rfl rfl hT.shape ⟨hS, ⟨k, _, by omega, hk, hkv, hlast⟩, _, hlast, ?_⟩
    intro k' q hq _
    have := Chain.lt_length hq
    omega
  | loadNext s again v p => exact loadNext_ok hI hT hst
  | loadTimestamp s again v p =>
    obtain ⟨hS, hp⟩ := hT.facts
    simp only [step] at hst
    split_ifs at hst with hearly
    · obtain ⟨rfl, rfl⟩ := Prod.mk.inj (Option.some.inj hst)
      rw [Bool.and_eq_true, Bool.not_eq_true', Bool.not_eq_true', decide_eq_false_iff_not,
        Nat.not_lt] at hearly
      obtain ⟨k, hk, hkv, hkp⟩ := id hp
      exact access_read hI hT rfl rfl hT.shape
        ⟨hS, hp, (hI.time.heap.bound _ _ _ hkp).2, hearly.2⟩
    · obtain ⟨rfl, rfl⟩ := Prod.mk.inj (Option.some.inj hst)
      have hS' := Scanning.compare hS hT.shape hp hI
      have hsame : (s.compare (s.tmpBufferIndex n) p (Shared.item w.shared p).timestamp v).i = s.i ∧
          (s.compare (s.tmpBufferIndex n) p (Shared.item w.shared p).timestamp v).start =
            s.start := by
        rw [Scan.compare]
        split_ifs <;> exact ⟨rfl, rfl⟩
      refine nextBuffer_ok hI hT ?_ rfl rfl ?_ _
      · rw [hsame.1]
        exact hT.shape
      · rw [hsame.1, hsame.2]
        exact hS'
  | checkAtOnce s v p =>
    obtain ⟨hS, hp, hearly⟩ := hT.facts
    simp only [step] at hst
    split_ifs at hst
    · obtain ⟨rfl, rfl⟩ := Prod.mk.inj (Option.some.inj hst)
      exact access_read hI hT rfl rfl hT.shape ⟨hS, hp, hearly⟩
    · obtain ⟨rfl, rfl⟩ := Prod.mk.inj (Option.some.inj hst)
      exact access_read hI hT rfl rfl hT.shape hS
  | swapAtOnce s v p =>
    obtain ⟨hS, -⟩ := hT.facts
    simp only [step] at hst
    split_ifs at hst with hcas
    · obtain ⟨rfl, rfl⟩ := Prod.mk.inj (Option.some.inj hst)
      exact swapAtOnce_ok hI hT hcas.1
    · obtain ⟨rfl, rfl⟩ := Prod.mk.inj (Option.some.inj hst)
      exact access_read hI hT rfl rfl hT.shape hS
  | checkRemove s =>
    have hS : Scanning i s (· < n) w := hT.facts
    simp only [step] at hst
    split_ifs at hst
    · obtain ⟨rfl, rfl⟩ := Prod.mk.inj (Option.some.inj hst)
      exact access_read hI hT rfl rfl hT.shape hS
    · obtain ⟨rfl, rfl⟩ := Prod.mk.inj (Option.some.inj hst)
      exact tryRemoveOldest_ok hI hT hn rfl rfl hS.draws _
  | swapRemove s =>
    have hS : Scanning i s (· < n) w := hT.facts
    simp only [step] at hst
    split_ifs at hst with hcas
    · obtain ⟨rfl, rfl⟩ := Prod.mk.inj (Option.some.inj hst)
      exact swapRemove_ok hI hT hcas.1
    · obtain ⟨rfl, rfl⟩ := Prod.mk.inj (Option.some.inj hst)
      exact tryRemoveOldest_ok hI hT hn rfl rfl hS.draws _
  | loadData τ p =>
    have htaken : (TSQueue.Fact.taken p : TSQueue.Fact α atomicCounter).Holds n t
      (buffers w.shared) w.ghost.1 := hT.facts
    obtain ⟨-, hd⟩ := htaken
    obtain ⟨x, hx⟩ := Option.isSome_iff_exists.mp hd
    have hx : (Shared.item w.shared p).data = some x := hx
    simp only [step, hx] at hst
    obtain ⟨rfl, rfl⟩ := Prod.mk.inj (Option.some.inj hst)
    refine access_quiet hI hT (.of_rely hI.time.heap fun _ _ => .refl ..) (.refl _) rfl
      (fun l' h => by cases h) (fun r hr => ?_) fun b hb => by cases hb
    obtain rfl := Sum.inr.inj hr
    refine ⟨fun b hb => (by cases hb), fun q hq => (by cases hq), fun y hy => ⟨rfl, p, rfl, ?_⟩⟩
    rw [hx]
    simpa using hy
  | newItem | loadOldInsert | storeNext | storeInsert =>
    exact enqueue_ok hI hT ht haddr (by simp [Local.item]) hst

/-! ### All runs -/

theorem init_timed :
    QueueInv (⟨.init n, [], (Ghost.init n, ∅)⟩ : QueueState α n addresses) where
  time := by
    refine .init (atomicCounting n) ?_ rfl (atomicCounting n).clock fun h =>
      (Ghost.init_items h).2.1
    exact TSQueue.init_inv
  stamped _ _ := Nat.zero_lt_one
  fifo := .nil _ _ _

/-- What a thread knows between its accesses. -/
def TimeLoc (t : ℕ) (f : Option (Frame (machine α n addresses)))
    (w : QueueState α n addresses) : Prop :=
  match f with
  | none => Idle (history w.trace) t ∧ ∀ k q : ℕ, (w.ghost.1.items t)[k]? = some q → 1 ≤ k →
    Before buffers w w.trace.length q
  | some f => t < n ∧ Timed t f.id f.op w f.loc

def timeOutline (α : Type) (n addresses : ℕ) :
    Outline (machine α n addresses) (Ghost × Finset ℕ) where
  inv := QueueInv
  loc := TimeLoc
  rely := TimeRely buffers (atomicCounting n)

theorem timeOutline_sound (haddr : addresses ≤ addressSpace) :
    (timeOutline α n addresses).Sound always where
  init := by
    refine ⟨(Ghost.init n, ∅), init_timed, fun t => ⟨fun i op ho => ?_, fun k q hq hk => ?_⟩⟩
    · exact absurd ho.lt_length (Nat.not_lt_zero _)
    · exact absurd (Ghost.init_items hq).2.1 (Nat.ne_of_gt hk)
  stable := by
    intro w e σ g t f hI hI' hloc he hr
    cases f with
    | none => exact TSQueue.idle_rely hloc.1 hloc.2 he hr
    | some f =>
      obtain ⟨ht, hdoing, hshape, hfacts⟩ := hloc
      exact ⟨ht, hdoing.rely he hr, hshape,
        hfacts.imp fun F hF => hF.rely hI hI'.time.heap hr hdoing.lt_length.le⟩
  call := by
    intro w t op hI hloc hadm
    obtain ⟨hidle, hown⟩ := hloc
    refine ⟨w.ghost, ⟨hI.time.call t op hI.time.heap rfl rfl, hI.stamped, hI.fifo.call rfl
      fun ia b ip k hip hk h => Timely.of_concat hip hk h⟩, ⟨of_decide_eq_true hadm, ?_⟩,
      fun u hu => .refl ..⟩
    cases op with
    | put x => exact ⟨.call hidle hown rfl, rfl, trivial⟩
    | get => exact ⟨.call hidle hown rfl, trivial, trivial⟩
  run := by
    intro w t f ch σ o hI hloc _ hst
    obtain ⟨ht, hT⟩ := hloc
    obtain ⟨g, hI', hgo, hstop, hr⟩ := access_timed hI hT ht haddr hst
    refine ⟨g, hI', ?_, hr⟩
    cases o with
    | inl l' => exact ⟨ht, hgo l' rfl⟩
    | inr r =>
      refine ⟨?_, fun k q hq hk => ?_⟩
      · rw [World.record_trace, history_append]
        exact idle_return (history w.trace) t r
      · rw [World.record_trace, List.length_append]
        exact hstop r rfl k q hq hk

/-- **DTSQueue does not reverse two enqueues** that do not overlap, in front of a dequeue that
was invoked after the first one and has a smaller timestamp than the item of the second one; and
each item is removed at most once. -/
theorem fifo_timely {numThreads : ℕ} {c : Config (machine α numThreads addressSpace)}
    (hc : Reach (machine α numThreads addressSpace) always c) :
    Accounted (Makes buffers) (Removes buffers numThreads) c.trace ∧
      FifoWhere Timely (Makes buffers) (Removes buffers numThreads) c.trace := by
  obtain ⟨g, hI, -⟩ := (timeOutline_sound le_rfl).reach hc
  exact ⟨hI.time.accounted, hI.fifo⟩

/-- Thread 0 draws the first timestamp for its dequeue and is delayed; thread 1 takes the first
item, and then thread 0 the second one. -/
def delayed : List (Action (machine ℕ 2 addressSpace)) :=
  List.flatten [[.call 0 (.put 5)], turns 0 ⟨0, false⟩ 4, [.call 1 (.put 6)],
    turns 1 ⟨0, false⟩ 4, [.call 0 .get], turns 0 ⟨0, false⟩ 1, [.call 1 .get],
    turns 1 ⟨0, false⟩ 8, turns 0 ⟨0, false⟩ 10]

theorem fifo_timely_delayed : ∃ c : Config (machine ℕ 2 addressSpace),
    (c.events.filter fun e => e matches .res _ (.got _)) =
      [.res 1 (.got (some 5)), .res 0 (.got (some 6))] ∧
    Accounted (Makes buffers) (Removes buffers 2) c.trace ∧
      FifoWhere Timely (Makes buffers) (Removes buffers 2) c.trace := by
  have h : ∃ c, Reach (machine ℕ 2 addressSpace) always c ∧
      decide ((c.events.filter fun e => e matches .res _ (.got _)) =
        [.res 1 (.got (some 5)), .res 0 (.got (some 6))]) = true :=
    Reach.exists_of_any always delayed _ (by decide +kernel)
  obtain ⟨c, hc, hp⟩ := h
  exact ⟨c, of_decide_eq_true hp, fifo_timely hc⟩

/-- With another start index, thread 1 takes the second item, as its timestamp is not below that
of the item. -/
def atOnce : List (Action (machine ℕ 2 addressSpace)) :=
  List.flatten [[.call 0 (.put 5)], turns 0 ⟨0, false⟩ 4, [.call 1 (.put 6)],
    turns 1 ⟨0, false⟩ 4, [.call 0 .get], turns 0 ⟨0, false⟩ 1, [.call 1 .get],
    turns 1 ⟨1, false⟩ 8]

/-- Thread 2 passes the buffer of thread 0; then thread 0 enqueues an item, and thread 1
another one, to which thread 2 comes. -/
def passed : List (Action (machine ℕ 3 addressSpace)) :=
  List.flatten [[.call 2 .get], turns 2 ⟨0, false⟩ 4, [.call 0 (.put 5)], turns 0 ⟨0, false⟩ 4,
    [.call 1 (.put 6)], turns 1 ⟨0, false⟩ 4, turns 2 ⟨0, false⟩ 10]

/-- **The order may be reversed** by a dequeue that takes an item at once, and by one that was
invoked before the first item was enqueued. -/
theorem not_fifo_atOnce_passed :
    (∃ c : Config (machine ℕ 2 addressSpace), Reach (machine ℕ 2 addressSpace) always c ∧
      ¬ Fifo (Makes buffers) (Removes buffers 2) c.trace) ∧
    ∃ c : Config (machine ℕ 3 addressSpace), Reach (machine ℕ 3 addressSpace) always c ∧
      ¬ Fifo (Makes buffers) (Removes buffers 3) c.trace := by
  have hatOnce : ∃ c, Reach (machine ℕ 2 addressSpace) always c ∧
      reversed (Makes buffers) (Removes buffers 2) c.trace 0 1 3 5 6 4 12 19 = true :=
    Reach.exists_of_any always atOnce _ (by decide +kernel)
  have hpassed : ∃ c, Reach (machine ℕ 3 addressSpace) always c ∧
      reversed (Makes buffers) (Removes buffers 3) c.trace 5 6 4 10 11 5 0 23 = true :=
    Reach.exists_of_any always passed _ (by decide +kernel)
  obtain ⟨c, hc, hp⟩ := hatOnce
  obtain ⟨c', hc', hp'⟩ := hpassed
  exact ⟨⟨c, hc, not_fifo_of_reversed hp⟩, c', hc', not_fifo_of_reversed hp'⟩

end DTSQueue

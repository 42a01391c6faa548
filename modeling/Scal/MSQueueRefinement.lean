/-
The Michael–Scott queue refines an atomic FIFO queue.

* `queue_step` — a step changes the queue only at a successful `cas` on a
  `next` field, which appends the calling operation's item, or at a successful
  `cas` on `head_`, which removes the first item;
* `queue_return` — what a call that returns has done: one append, one removal of
  the item it hands back, or nothing, and if it reports empty then the queue was
  empty at some time during the call;
* `refines_queue` — both, in every reachable configuration.

Every local state comes with a list of facts (`Local.facts`) that its thread may
use however long it is delayed: each fact survives every step of every other
thread (`Fact.Holds.record`).
-/
import Scal.MSQueueInvariant

open Interleave

namespace MSQueue

variable {α : Type}

/-- Facts that stay true once they are true. -/
inductive Fact (α : Type) where
  /-- The node is private and holds the item. -/
  | own (n : ℕ) (item : α)
  /-- `tail_` once was this word. -/
  | tailRead (w : AtomicPointer)
  /-- `head_` once was this word. -/
  | headRead (w : AtomicPointer)
  /-- The node has this position in the chain. -/
  | link (i n : ℕ)
  /-- The `next` word of the chain's node at position `i` once was `w`. -/
  | nextRead (i : ℕ) (w : AtomicPointer)
  | value (n : ℕ) (item : α)
  /-- If `next` is `NULL` then `head_` has moved on from `headOld` since, or the
  queue was empty during the call. -/
  | emptied (headOld next : AtomicPointer)

section Facts

variable [DecidableEq α] [Inhabited α]

def Fact.Holds (t id : ℕ) (w : World (machine α) Ghost) : Fact α → Prop
  | .own n item => Own t n item w.shared w.ghost
  | .tailRead p => w.ghost.chain[p.aba]? = some p.value ∧ p.aba ≤ w.shared.tail.aba
  | .headRead p => w.ghost.chain[p.aba]? = some p.value ∧ p.aba ≤ w.shared.head.aba
  | .link i n => w.ghost.chain[i]? = some n
  | .nextRead i p => p = ⟨0, 0⟩ ∨ p.value ≠ 0 ∧ w.ghost.chain[i + 1]? = some p.value
  | .value n item => n < w.shared.alloc ∧ (w.shared.node n).value = item
  | .emptied p nx => nx.value = 0 →
    p.aba < w.shared.head.aba ∨ Since w.trace id fun σ => σ.queue = []

theorem Fact.Holds.record {t id : ℕ} {w : World (machine α) Ghost} {F : Fact α}
    {e : Event (Op α) (Ret α)} {σ : Shared α} {g : Ghost} (hF : F.Holds t id w)
    (hx : Ext t w.shared w.ghost σ g) : F.Holds t id (w.record e σ g) := by
  cases F with
  | own n item =>
    obtain ⟨ho, hc, hn⟩ := hx.own n hF.lt hF.owner hF.unlinked
    exact ⟨ho, hF.lt.trans_le hx.alloc, hF.ne, hc, hn.trans hF.node⟩
  | tailRead p => exact ⟨Chain.getElem?_mono hx.chain hF.1, hF.2.trans hx.tail⟩
  | headRead p => exact ⟨Chain.getElem?_mono hx.chain hF.1, hF.2.trans hx.head⟩
  | link i n => exact Chain.getElem?_mono hx.chain hF
  | nextRead i p => exact hF.imp_right fun h => ⟨h.1, Chain.getElem?_mono hx.chain h.2⟩
  | value n item => exact ⟨hF.1.trans_le hx.alloc, (hx.value n hF.1).trans hF.2⟩
  | emptied p nx => exact fun h0 => (hF h0).imp (fun h => h.trans_le hx.head) fun h => h.append

/-- What a thread knows at each point of its call. -/
def Local.facts : Local α → List (Fact α)
  | .enqTail x n => [.own n x]
  | .enqNext x n tl => [.own n x, .tailRead tl]
  | .enqCheck x n tl nx => [.own n x, .tailRead tl, .nextRead tl.aba nx]
  | .enqLink x n tl _ => [.own n x, .tailRead tl]
  | .enqHelp x n tl nx => [.own n x, .link (tl.aba + 1) nx.value]
  | .enqSwing _ n tl => [.link (tl.aba + 1) n]
  | .deqTail _ hd => [.headRead hd]
  | .deqNext _ hd tl => [.headRead hd, .tailRead tl]
  | .deqCheck _ hd tl nx => [.headRead hd, .tailRead tl, .nextRead hd.aba nx, .emptied hd nx]
  | .deqHelp _ tl nx => [.link (tl.aba + 1) nx.value]
  | .deqItem _ hd tl nx => [.tailRead tl, .link (hd.aba + 1) nx.value]
  | .deqSwing _ hd tl nx x => [.tailRead tl, .link (hd.aba + 1) nx.value, .value nx.value x]
  | .tryEnqNext _ tl => [.tailRead tl]
  | .tryEnqCheck _ tl nx => [.tailRead tl, .nextRead tl.aba nx]
  | .tryEnqNew _ tl _ => [.tailRead tl]
  | .tryEnqLink x n tl _ => [.own n x, .tailRead tl]
  | .tryEnqSwing _ n tl => [.link (tl.aba + 1) n]
  | .tryEnqHelp tl nx => [.link (tl.aba + 1) nx.value]
  | .tryDeqTail hd => [.headRead hd]
  | .tryDeqNext hd tl => [.headRead hd, .tailRead tl]
  | .tryDeqCheck hd tl nx => [.headRead hd, .tailRead tl, .nextRead hd.aba nx, .emptied hd nx]
  | .tryDeqHelp tl nx => [.link (tl.aba + 1) nx.value]
  | .tryDeqItem hd tl nx => [.tailRead tl, .link (hd.aba + 1) nx.value]
  | .tryDeqSwing hd tl nx x => [.tailRead tl, .link (hd.aba + 1) nx.value, .value nx.value x]
  | _ => []

/-- What the local variables say without reference to the memory: which
operation runs, and how the words it has read are related. -/
def Local.Shape (op : Op α) : Local α → Prop
  | .enqNew x => op = .enqueue x
  | .enqTail x _ => op = .enqueue x
  | .enqNext x _ _ => op = .enqueue x
  | .enqCheck x _ _ _ => op = .enqueue x
  | .enqLink x _ _ nx => op = .enqueue x ∧ nx = ⟨0, 0⟩
  | .enqHelp x _ _ _ => op = .enqueue x
  | .enqSwing x _ _ => op = .enqueue x
  | .deqHead rt => op = deqOp rt
  | .deqTail rt _ => op = deqOp rt
  | .deqNext rt hd tl => op = deqOp rt ∧ hd.aba ≤ tl.aba
  | .deqCheck rt hd tl nx => op = deqOp rt ∧ hd.aba ≤ tl.aba ∧ (hd.aba < tl.aba → nx.value ≠ 0)
  | .deqHelp rt _ _ => op = deqOp rt
  | .deqItem rt hd tl _ => op = deqOp rt ∧ hd.aba < tl.aba
  | .deqSwing rt hd tl _ _ => op = deqOp rt ∧ hd.aba < tl.aba
  | .tryEnqNext x tl => op = .tryEnqueue x tl
  | .tryEnqCheck x tl _ => op = .tryEnqueue x tl
  | .tryEnqNew x tl nx => op = .tryEnqueue x tl ∧ nx = ⟨0, 0⟩
  | .tryEnqLink x _ tl nx => op = .tryEnqueue x tl ∧ nx = ⟨0, 0⟩
  | .tryEnqSwing x _ tl => op = .tryEnqueue x tl
  | .tryEnqHelp tl _ => ∃ x, op = .tryEnqueue x tl
  | .tryDeqTail hd => op = .tryDequeue hd
  | .tryDeqNext hd tl => op = .tryDequeue hd ∧ hd.aba ≤ tl.aba
  | .tryDeqCheck hd tl nx =>
    op = .tryDequeue hd ∧ hd.aba ≤ tl.aba ∧ (hd.aba < tl.aba → nx.value ≠ 0)
  | .tryDeqHelp _ _ => ∃ hd, op = .tryDequeue hd
  | .tryDeqItem hd tl _ => op = .tryDequeue hd ∧ hd.aba < tl.aba
  | .tryDeqSwing hd tl _ _ => op = .tryDequeue hd ∧ hd.aba < tl.aba
  | .readHead => op = .getHead
  | .readTail => op = .getTail
  | .sizeTail => op = .approxSize
  | .sizeHead _ => op = .approxSize
where
  deqOp (rt : Bool) : Op α := if rt then .dequeueReturnTail else .dequeue

/-- The changes of the queue that a call at this point has made. -/
def Local.Done (cs : List (List α × List α)) : Local α → Prop
  | .enqSwing x _ _ => ∃ q, cs = [(q, q ++ [x])]
  | .tryEnqSwing x _ _ => ∃ q, cs = [(q, q ++ [x])]
  | _ => cs = []

structure Inv (w : World (machine α) Ghost) : Prop where
  heap : HeapInv w.shared w.ghost
  tails : ∀ t p, Event.res t (.tail p) ∈ w.events → (Fact.tailRead p).Holds t 0 w
  heads : ∀ t p, Event.res t (.head p) ∈ w.events → (Fact.headRead p).Holds t 0 w

structure Knows (t : ℕ) (f : Frame (machine α)) (w : World (machine α) Ghost) : Prop where
  id_le : f.id ≤ w.trace.length
  shape : f.loc.Shape f.op
  done : f.loc.Done (changes Shared.queue w.trace t f.id)
  facts : AllOf (Fact.Holds t f.id w) f.loc.facts

/-- The proof outline: every pending call knows the facts of its local state. -/
def outline (α : Type) [DecidableEq α] [Inhabited α] : Outline (machine α) Ghost where
  inv := Inv
  loc t f w := ∀ f' ∈ f, Knows t f' w
  rely u w w' := Ext u w.shared w.ghost w'.shared w'.ghost

/-- The change of the queue that an access makes, if any: the successful `cas` on
a `next` field appends the operation's item, the one on `head_` removes the item
about to be handed back. -/
def QueueStep (op : Op α) (l : Local α) (σ σ' : Shared α) : Prop :=
  σ'.queue = σ.queue ∨
    (∃ x, l.linking = some x ∧ op.item = some x ∧ σ'.queue = σ.queue ++ [x]) ∨
    ∃ x, l.taking = some x ∧ σ.queue = x :: σ'.queue

/-- What a call of `op` that returns `r` has done to the queue, where `cs` are the
changes it made and `emptied` says that the queue was empty at some time. -/
def Effect (cs : List (List α × List α)) (emptied : Prop) : Op α → Ret α → Prop
  | .enqueue x, .enqueued ok => ok = true ∧ ∃ q, cs = [(q, q ++ [x])]
  | .tryEnqueue x _, .enqueued true => ∃ q, cs = [(q, q ++ [x])]
  | .tryEnqueue _ _, .enqueued false => cs = []
  | .dequeue, .dequeued (some x) _ => ∃ q, cs = [(x :: q, q)]
  | .dequeue, .dequeued none _ => cs = [] ∧ emptied
  | .dequeueReturnTail, .dequeued (some x) _ => ∃ q, cs = [(x :: q, q)]
  | .dequeueReturnTail, .dequeued none _ => cs = [] ∧ emptied
  | .tryDequeue _, .tried .ok (some x) _ => ∃ q, cs = [(x :: q, q)]
  | .tryDequeue _, .tried .empty _ _ => cs = [] ∧ emptied
  | .tryDequeue _, .tried .failed _ _ => cs = []
  | .getHead, .head _ => cs = []
  | .getTail, .tail _ => cs = []
  | .approxSize, .size _ => cs = []
  | _, _ => False

/-! ### One access -/

variable {w : World (machine α) Ghost} {t : ℕ} {f : Frame (machine α)}

theorem Inv.record (hw : Inv w) {e : Event (Op α) (Ret α)} {σ : Shared α} {g : Ghost}
    (hH : HeapInv σ g) (hx : ∀ u, u ≠ t → Ext u w.shared w.ghost σ g)
    (ht : ∀ u p, e = .res u (.tail p) → (Fact.tailRead p).Holds u 0 w)
    (hh : ∀ u p, e = .res u (.head p) → (Fact.headRead p).Holds u 0 w) :
    Inv (w.record e σ g) := by
  have hx' := hx (t + 1) (Nat.succ_ne_self t)
  refine ⟨hH, fun u p hp => ?_, fun u p hp => ?_⟩
  · rw [World.record_events, List.mem_append, List.mem_singleton] at hp
    have hold : (Fact.tailRead p).Holds (t + 1) 0 w :=
      hp.elim (hw.tails u p) fun h => ht u p h.symm
    exact hold.record hx'
  · rw [World.record_events, List.mem_append, List.mem_singleton] at hp
    have hold : (Fact.headRead p).Holds (t + 1) 0 w :=
      hp.elim (hw.heads u p) fun h => hh u p h.symm
    exact hold.record hx'

/-- What is to be shown of every access `p` that the call `f` makes. -/
structure StepOk (w : World (machine α) Ghost) (t : ℕ) (f : Frame (machine α))
    (p : Shared α × (Local α ⊕ Ret α)) : Prop where
  moves : (outline α).Moves w t (Event.ofStep (M := machine α) t p.2) p.1 (f.resume p.2)
  queue : QueueStep f.op f.loc w.shared p.1
  effect : ∀ r, p.2 = .inr r → ∀ g,
    Effect (changes Shared.queue (w.record (.res t r) p.1 g).trace t f.id)
      (Since (w.record (.res t r) p.1 g).trace f.id fun σ => σ.queue = []) f.op r

/-- The call goes on at `l`. -/
theorem StepOk.go (hw : Inv w) (hf : Knows t f w) {σ : Shared α} {l : Local α} (g : Ghost)
    (hH : HeapInv σ g) (hx : ∀ u, u ≠ t → Ext u w.shared w.ghost σ g)
    (hq : QueueStep f.op f.loc w.shared σ) (hshape : l.Shape f.op)
    (hdone : l.Done (changes Shared.queue (w.record (.tau t) σ g).trace t f.id))
    (hfacts : AllOf (Fact.Holds t f.id (w.record (.tau t) σ g)) l.facts) :
    StepOk w t f (σ, .inl l) := by
  refine ⟨⟨g, hw.record hH hx (by simp [Event.ofStep]) (by simp [Event.ofStep]), ?_, hx⟩, hq,
    by simp⟩
  rintro f' hf'
  obtain rfl : { f with loc := l } = f' := by simpa [Frame.resume] using hf'
  exact ⟨hf.id_le.trans (by simp), hshape, hdone, hfacts⟩

/-- An access that only reads, after which the call goes on. -/
theorem StepOk.read (hw : Inv w) (hf : Knows t f w) {l : Local α} (hshape : l.Shape f.op)
    (hdone : l.Done (changes Shared.queue w.trace t f.id))
    (hfacts : AllOf (Fact.Holds t f.id w) l.facts) :
    StepOk w t f (w.shared, .inl l) := by
  refine .go hw hf w.ghost hw.heap (fun u _ => .refl ..) (.inl rfl) hshape ?_
    (hfacts.imp fun F hF => hF.record (.refl ..))
  rwa [changes_same hf.id_le rfl]

/-- The call returns `r`. -/
theorem StepOk.stop (hw : Inv w) {σ : Shared α} {r : Ret α} (g : Ghost)
    (hH : HeapInv σ g) (hx : ∀ u, u ≠ t → Ext u w.shared w.ghost σ g)
    (hq : QueueStep f.op f.loc w.shared σ)
    (heff : ∀ g, Effect (changes Shared.queue (w.record (.res t r) σ g).trace t f.id)
      (Since (w.record (.res t r) σ g).trace f.id fun σ => σ.queue = []) f.op r)
    (ht : ∀ p, r = .tail p → (Fact.tailRead p).Holds t 0 w)
    (hh : ∀ p, r = .head p → (Fact.headRead p).Holds t 0 w) :
    StepOk w t f (σ, .inr r) := by
  refine ⟨⟨g, hw.record hH hx ?_ ?_, by simp [outline, Frame.resume], hx⟩, hq, ?_⟩
  · rintro u p h
    simp only [Event.ofStep, Event.res.injEq] at h
    exact h.1 ▸ ht p h.2
  · rintro u p h
    simp only [Event.ofStep, Event.res.injEq] at h
    exact h.1 ▸ hh p h.2
  · rintro r' h
    obtain rfl : r = r' := by simpa using h
    exact heff

/-- The call returns `r` after an access that only reads. -/
theorem StepOk.answer (hw : Inv w) (hf : Knows t f w) {r : Ret α}
    (heff : ∀ g, Effect (changes Shared.queue w.trace t f.id)
      (Since (w.record (.res t r) w.shared g).trace f.id fun σ => σ.queue = []) f.op r)
    (ht : ∀ p, r = .tail p → (Fact.tailRead p).Holds t 0 w)
    (hh : ∀ p, r = .head p → (Fact.headRead p).Holds t 0 w) :
    StepOk w t f (w.shared, .inr r) := by
  refine .stop hw w.ghost hw.heap (fun u _ => .refl ..) (.inl rfl) (fun g => ?_) ht hh
  rw [changes_same hf.id_le rfl]
  exact heff g

/-- `next` of a chain node, read now. -/
theorem nextRead_now (hw : Inv w) {id i n : ℕ} (hi : w.ghost.chain[i]? = some n) :
    (Fact.nextRead i (w.shared.node n).next).Holds t id w := by
  by_cases h0 : (w.shared.node n).next.value = 0
  · exact Or.inl (hw.heap.chain.next_none hi h0)
  · exact Or.inr ⟨h0, hw.heap.chain.next_some hi h0⟩

/-- If head is still where it was and its node has no successor, the queue is empty
now. -/
theorem emptied_now (hw : Inv w) {id : ℕ} {p : AtomicPointer} (hid : id ≤ w.trace.length)
    (hp : (Fact.headRead p).Holds t id w) (e : Event (Op α) (Ret α)) :
    (Fact.emptied p (w.shared.node p.value).next).Holds t id
      (w.record e w.shared w.ghost) := by
  intro h0
  rcases Nat.lt_or_eq_of_le hp.2 with hlt | heq
  · exact Or.inl hlt
  · refine Or.inr (since_record hid (hw.heap.queue_eq_nil ?_))
    have := (hw.heap.chain.next_eq_zero hp.1).mp h0
    omega

/-- Before the tail there is always a successor. -/
theorem next_ne_zero (hw : Inv w) {id : ℕ} {p q : AtomicPointer}
    (hp : (Fact.headRead p).Holds t id w) (hq : (Fact.tailRead q).Holds t id w)
    (hlt : p.aba < q.aba) : (w.shared.node p.value).next.value ≠ 0 := by
  intro h0
  have := (hw.heap.chain.next_eq_zero hp.1).mp h0
  have := Chain.lt_length hq.1
  omega

theorem headRead_now (hw : Inv w) {id : ℕ} : (Fact.headRead w.shared.head).Holds t id w :=
  ⟨hw.heap.head, le_rfl⟩

theorem tailRead_now (hw : Inv w) {id : ℕ} : (Fact.tailRead w.shared.tail).Holds t id w :=
  ⟨hw.heap.tail, le_rfl⟩

theorem aba_lt_of_value_ne {id : ℕ} {p q : AtomicPointer}
    (hp : (Fact.headRead p).Holds t id w) (hq : (Fact.tailRead q).Holds t id w)
    (hle : p.aba ≤ q.aba) (hne : p.value ≠ q.value) : p.aba < q.aba := by
  rcases Nat.lt_or_eq_of_le hle with h | h
  · exact h
  · have := hp.1
    rw [h, hq.1, Option.some.injEq] at this
    exact absurd this.symm hne

theorem aba_eq_of_value_eq (hw : Inv w) {id : ℕ} {p q : AtomicPointer}
    (hp : (Fact.headRead p).Holds t id w) (hq : (Fact.tailRead q).Holds t id w)
    (he : p.value = q.value) : p.aba = q.aba :=
  hw.heap.chain.pos_unique hp.1 (he ▸ hq.1)

/-- What a thread at `l` knows. -/
theorem Knows.at (hf : Knows t f w) {l : Local α} (hl : f.loc = l) :
    l.Shape f.op ∧ l.Done (changes Shared.queue w.trace t f.id) ∧
      AllOf (Fact.Holds t f.id w) l.facts := by
  subst hl
  exact ⟨hf.shape, hf.done, hf.facts⟩

/-! ### The changes, made by a call in progress -/

/-- `node_new`. -/
theorem nodeNew_go (hw : Inv w) (hf : Knows t f w) {x : α} {l : Local α} (Fs : List (Fact α))
    (hshape : l.Shape f.op) (hdone : l.Done (changes Shared.queue w.trace t f.id))
    (hfacts : AllOf (Fact.Holds t f.id w) Fs)
    (hl : ∀ w', (Fact.own w.shared.alloc x).Holds t f.id w' → AllOf (Fact.Holds t f.id w') Fs →
      AllOf (Fact.Holds t f.id w') l.facts) :
    StepOk w t f (w.shared.nodeNew x, .inl l) := by
  obtain ⟨hH, hown, hq, hx⟩ := hw.heap.nodeNew t x
  refine .go hw hf _ hH (fun u _ => hx u) (.inl hq) hshape ?_
    (hl _ hown (hfacts.imp fun F hF => hF.record (hx t)))
  rwa [changes_same hf.id_le hq]

/-- The successful `cas` on `next`. -/
theorem link_go (hw : Inv w) (hf : Knows t f w) {x : α} {n : ℕ} {tl nx : AtomicPointer}
    {l : Local α} (hown : (Fact.own n x).Holds t f.id w)
    (htl : (Fact.tailRead tl).Holds t f.id w) (h0 : nx = ⟨0, 0⟩)
    (hcas : (w.shared.node tl.value).next = nx) (hdone : changes Shared.queue w.trace t f.id = [])
    (hlink : f.loc.linking = some x) (hitem : f.op.item = some x) (hshape : l.Shape f.op)
    (hdone' : ∀ q, l.Done [(q, q ++ [x])]) (hfacts : l.facts = [.link (tl.aba + 1) n]) :
    StepOk w t f (w.shared.setNext tl.value ⟨n, nx.aba + 1⟩, .inl l) := by
  obtain ⟨hH, hq, hlast, hx⟩ := hw.heap.link hown htl.1 hcas h0 htl.2
  have hne : Shared.queue (w.shared.setNext tl.value ⟨n, nx.aba + 1⟩) ≠
      Shared.queue w.shared := by
    rw [hq]
    simp
  refine .go hw hf _ hH hx (.inr (.inl ⟨x, hlink, hitem, hq⟩)) hshape ?_ ?_
  · rw [changes_own (t := t) hf.id_le rfl hne, hdone, hq]
    exact hdone' _
  · rw [hfacts]
    exact hlast

/-- A successful `cas` on `tail_`, to help. -/
theorem swingTail_go (hw : Inv w) (hf : Knows t f w) {n : ℕ} {tl : AtomicPointer} {l : Local α}
    (hn : (Fact.link (tl.aba + 1) n).Holds t f.id w) (hcas : w.shared.tail = tl)
    (hshape : l.Shape f.op) (hdone : l.Done (changes Shared.queue w.trace t f.id))
    (hfacts : AllOf (Fact.Holds t f.id w) l.facts) :
    StepOk w t f ({ w.shared with tail := ⟨n, tl.aba + 1⟩ }, .inl l) := by
  obtain ⟨hH, hq, hx⟩ := hw.heap.swingTail hcas hn
  refine .go hw hf w.ghost hH (fun u _ => hx u) (.inl hq) hshape ?_
    (hfacts.imp fun F hF => hF.record (hx t))
  rwa [changes_same hf.id_le hq]

/-- A successful `cas` on `tail_`, the last access of a call. -/
theorem swingTail_stop (hw : Inv w) (hf : Knows t f w) {n : ℕ} {tl : AtomicPointer} {r : Ret α}
    (hn : (Fact.link (tl.aba + 1) n).Holds t f.id w) (hcas : w.shared.tail = tl)
    (heff : ∀ p, Effect (changes Shared.queue w.trace t f.id) p f.op r)
    (ht : ∀ p, r ≠ .tail p) (hh : ∀ p, r ≠ .head p) :
    StepOk w t f ({ w.shared with tail := ⟨n, tl.aba + 1⟩ }, .inr r) := by
  obtain ⟨hH, hq, hx⟩ := hw.heap.swingTail hcas hn
  refine .stop hw w.ghost hH (fun u _ => hx u) (.inl hq) (fun g => ?_)
    (fun p h => absurd h (ht p)) (fun p h => absurd h (hh p))
  rw [changes_same hf.id_le hq]
  exact heff _

/-- The successful `cas` on `head_`. -/
theorem swingHead_stop (hw : Inv w) (hf : Knows t f w) {x : α} {hd tl nx : AtomicPointer}
    {r : Ret α} (htl : (Fact.tailRead tl).Holds t f.id w)
    (hn : (Fact.link (hd.aba + 1) nx.value).Holds t f.id w)
    (hv : (Fact.value nx.value x).Holds t f.id w) (hlt : hd.aba < tl.aba)
    (hcas : w.shared.head = hd) (htake : f.loc.taking = some x)
    (hdone : changes Shared.queue w.trace t f.id = [])
    (heff : ∀ q p, Effect [(x :: q, q)] p f.op r)
    (ht : ∀ p, r ≠ .tail p) (hh : ∀ p, r ≠ .head p) :
    StepOk w t f ({ w.shared with head := ⟨nx.value, hd.aba + 1⟩ }, .inr r) := by
  obtain ⟨hH, hq, hx⟩ := hw.heap.swingHead hcas hn (hlt.trans_le htl.2)
  rw [hv.2] at hq
  have hne : Shared.queue { w.shared with head := ⟨nx.value, hd.aba + 1⟩ } ≠
      Shared.queue w.shared := by
    rw [hq]
    simp
  refine .stop hw w.ghost hH (fun u _ => hx u) (.inr (.inr ⟨x, htake, hq⟩)) (fun g => ?_)
    (fun p h => absurd h (ht p)) (fun p h => absurd h (hh p))
  rw [changes_own (t := t) hf.id_le rfl hne, hdone, hq]
  exact heff _ _

/-! ### The accesses of each operation -/

theorem enqueue_ok (hw : Inv w) (hf : Knows t f w) (l : Local α) :
    match l with
    | .enqNew _ | .enqTail _ _ | .enqNext _ _ _ | .enqCheck _ _ _ _ | .enqLink _ _ _ _
    | .enqHelp _ _ _ _ | .enqSwing _ _ _ =>
      f.loc = l → StepOk w t f (step w.shared l)
    | _ => True := by
  cases l with
  | enqNew x =>
    intro hl
    obtain ⟨hs, hd, -⟩ := hf.at hl
    exact nodeNew_go hw hf [] hs hd trivial fun _ h _ => h
  | enqTail x n =>
    intro hl
    obtain ⟨hs, hd, hown⟩ := hf.at hl
    exact .read hw hf hs hd ⟨hown, tailRead_now hw⟩
  | enqNext x n tl =>
    intro hl
    obtain ⟨hs, hd, hown, htl⟩ := hf.at hl
    exact .read hw hf hs hd ⟨hown, htl, nextRead_now hw htl.1⟩
  | enqCheck x n tl nx =>
    intro hl
    obtain ⟨hs, hd, hown, htl, hnx⟩ := hf.at hl
    simp only [step]
    split_ifs with hcas h0
    · refine .read hw hf ⟨hs, ?_⟩ hd ⟨hown, htl⟩
      exact hnx.resolve_right fun h => h.1 h0
    · refine .read hw hf hs hd ⟨hown, ?_⟩
      exact (hnx.resolve_left fun h => h0 (by rw [h])).2
    · exact .read hw hf hs hd hown
  | enqLink x n tl nx =>
    intro hl
    obtain ⟨⟨hs, h0⟩, hd, hown, htl⟩ := hf.at hl
    simp only [step]
    split_ifs with hcas
    · exact link_go hw hf hown htl h0 hcas hd (by rw [hl]; rfl) (by rw [hs]; rfl) hs
        (fun q => ⟨q, rfl⟩) rfl
    · exact .read hw hf hs hd hown
  | enqHelp x n tl nx =>
    intro hl
    obtain ⟨hs, hd, hown, hlink⟩ := hf.at hl
    simp only [step]
    split_ifs with hcas
    · exact swingTail_go hw hf hlink hcas hs hd hown
    · exact .read hw hf hs hd hown
  | enqSwing x n tl =>
    intro hl
    obtain ⟨hs, hd, hlink⟩ := hf.at hl
    have heff : ∀ p, Effect (changes Shared.queue w.trace t f.id) p f.op (.enqueued true) := by
      intro p
      rw [show f.op = .enqueue x from hs]
      exact ⟨rfl, hd⟩
    simp only [step]
    split_ifs with hcas
    · exact swingTail_stop hw hf hlink hcas heff (by simp) (by simp)
    · exact .answer hw hf (fun g => heff _) (by simp) (by simp)
  | _ => trivial

theorem dequeue_ok (hw : Inv w) (hf : Knows t f w) (l : Local α) :
    match l with
    | .deqHead _ | .deqTail _ _ | .deqNext _ _ _ | .deqCheck _ _ _ _ | .deqHelp _ _ _
    | .deqItem _ _ _ _ | .deqSwing _ _ _ _ _ =>
      f.loc = l → StepOk w t f (step w.shared l)
    | _ => True := by
  cases l with
  | deqHead rt =>
    intro hl
    obtain ⟨hs, hd, -⟩ := hf.at hl
    exact .read hw hf hs hd (headRead_now hw)
  | deqTail rt hd =>
    intro hl
    obtain ⟨hs, hdone, hhd⟩ := hf.at hl
    refine .read hw hf ⟨hs, ?_⟩ hdone ⟨hhd, tailRead_now hw⟩
    exact hhd.2.trans hw.heap.head_le
  | deqNext rt hd tl =>
    intro hl
    obtain ⟨⟨hs, hle⟩, hdone, hhd, htl⟩ := hf.at hl
    refine .go hw hf w.ghost hw.heap (fun u _ => .refl ..) (.inl rfl)
      ⟨hs, hle, next_ne_zero hw hhd htl⟩ ?_
      ⟨hhd.record (.refl ..), htl.record (.refl ..), (nextRead_now hw hhd.1).record (.refl ..),
        emptied_now hw hf.id_le hhd _⟩
    rwa [changes_same hf.id_le rfl]
  | deqCheck rt hd tl nx =>
    intro hl
    obtain ⟨⟨hs, hle, hne⟩, hdone, hhd, htl, hnx, hemp⟩ := hf.at hl
    simp only [step]
    split_ifs with hcas hv h0
    · refine .answer hw hf (fun g => ?_) (by simp) (by simp)
      have hs' : Since w.trace f.id fun σ => σ.queue = [] :=
        (hemp h0).resolve_left (by rw [hcas]; exact Nat.lt_irrefl _)
      cases rt <;> (rw [hs]; exact ⟨hdone, hs'.append⟩)
    · have heq := aba_eq_of_value_eq hw hhd htl hv
      have hlink := (hnx.resolve_left fun h => h0 (by rw [h])).2
      rw [heq] at hlink
      exact .read hw hf hs hdone hlink
    · have hlt := aba_lt_of_value_ne hhd htl hle hv
      refine .read hw hf ⟨hs, hlt⟩ hdone ⟨htl, ?_⟩
      exact (hnx.resolve_left fun h => hne hlt (by rw [h])).2
    · exact .read hw hf hs hdone trivial
  | deqHelp rt tl nx =>
    intro hl
    obtain ⟨hs, hdone, hlink⟩ := hf.at hl
    simp only [step]
    split_ifs with hcas
    · exact swingTail_go hw hf hlink hcas hs hdone trivial
    · exact .read hw hf hs hdone trivial
  | deqItem rt hd tl nx =>
    intro hl
    obtain ⟨⟨hs, hlt⟩, hdone, htl, hlink⟩ := hf.at hl
    refine .read hw hf ⟨hs, hlt⟩ hdone ⟨htl, hlink, ?_, rfl⟩
    exact (hw.heap.chain.bound _ (List.mem_of_getElem? hlink)).2
  | deqSwing rt hd tl nx x =>
    intro hl
    obtain ⟨⟨hs, hlt⟩, hdone, htl, hlink, hval⟩ := hf.at hl
    simp only [step]
    split_ifs with hcas
    · refine swingHead_stop hw hf htl hlink hval hlt hcas (by rw [hl]; rfl) hdone
        (fun q p => ?_) (by simp) (by simp)
      cases rt <;> (rw [hs]; exact ⟨q, rfl⟩)
    · exact .read hw hf hs hdone trivial
  | _ => trivial

theorem tryEnqueue_ok (hw : Inv w) (hf : Knows t f w) (l : Local α) :
    match l with
    | .tryEnqNext _ _ | .tryEnqCheck _ _ _ | .tryEnqNew _ _ _ | .tryEnqLink _ _ _ _
    | .tryEnqSwing _ _ _ | .tryEnqHelp _ _ =>
      f.loc = l → StepOk w t f (step w.shared l)
    | _ => True := by
  cases l with
  | tryEnqNext x tl =>
    intro hl
    obtain ⟨hs, hdone, htl⟩ := hf.at hl
    exact .read hw hf hs hdone ⟨htl, nextRead_now hw htl.1⟩
  | tryEnqCheck x tl nx =>
    intro hl
    obtain ⟨hs, hdone, htl, hnx⟩ := hf.at hl
    simp only [step]
    split_ifs with hcas h0
    · refine .read hw hf ⟨hs, ?_⟩ hdone htl
      exact hnx.resolve_right fun h => h.1 h0
    · exact .read hw hf ⟨x, hs⟩ hdone (hnx.resolve_left fun h => h0 (by rw [h])).2
    · refine .answer hw hf (fun g => ?_) (by simp) (by simp)
      rw [hs]
      exact hdone
  | tryEnqNew x tl nx =>
    intro hl
    obtain ⟨hs, hdone, htl⟩ := hf.at hl
    exact nodeNew_go hw hf [.tailRead tl] hs hdone htl fun _ h h' => ⟨h, h'⟩
  | tryEnqLink x n tl nx =>
    intro hl
    obtain ⟨⟨hs, h0⟩, hdone, hown, htl⟩ := hf.at hl
    simp only [step]
    split_ifs with hcas
    · exact link_go hw hf hown htl h0 hcas hdone (by rw [hl]; rfl) (by rw [hs]; rfl) hs
        (fun q => ⟨q, rfl⟩) rfl
    · refine .answer hw hf (fun g => ?_) (by simp) (by simp)
      rw [hs]
      exact hdone
  | tryEnqSwing x n tl =>
    intro hl
    obtain ⟨hs, hdone, hlink⟩ := hf.at hl
    have heff : ∀ p, Effect (changes Shared.queue w.trace t f.id) p f.op (.enqueued true) := by
      intro p
      rw [show f.op = .tryEnqueue x tl from hs]
      exact hdone
    simp only [step]
    split_ifs with hcas
    · exact swingTail_stop hw hf hlink hcas heff (by simp) (by simp)
    · exact .answer hw hf (fun g => heff _) (by simp) (by simp)
  | tryEnqHelp tl nx =>
    intro hl
    obtain ⟨⟨x, hs⟩, hdone, hlink⟩ := hf.at hl
    have heff : ∀ p, Effect (changes Shared.queue w.trace t f.id) p f.op
        (.enqueued false) := by
      intro p
      rw [hs]
      exact hdone
    simp only [step]
    split_ifs with hcas
    · exact swingTail_stop hw hf hlink hcas heff (by simp) (by simp)
    · exact .answer hw hf (fun g => heff _) (by simp) (by simp)
  | _ => trivial

theorem tryDequeue_ok (hw : Inv w) (hf : Knows t f w) (l : Local α) :
    match l with
    | .tryDeqTail _ | .tryDeqNext _ _ | .tryDeqCheck _ _ _ | .tryDeqHelp _ _
    | .tryDeqItem _ _ _ | .tryDeqSwing _ _ _ _ =>
      f.loc = l → StepOk w t f (step w.shared l)
    | _ => True := by
  cases l with
  | tryDeqTail hd =>
    intro hl
    obtain ⟨hs, hdone, hhd⟩ := hf.at hl
    exact .read hw hf ⟨hs, hhd.2.trans hw.heap.head_le⟩ hdone ⟨hhd, tailRead_now hw⟩
  | tryDeqNext hd tl =>
    intro hl
    obtain ⟨⟨hs, hle⟩, hdone, hhd, htl⟩ := hf.at hl
    refine .go hw hf w.ghost hw.heap (fun u _ => .refl ..) (.inl rfl)
      ⟨hs, hle, next_ne_zero hw hhd htl⟩ ?_
      ⟨hhd.record (.refl ..), htl.record (.refl ..), (nextRead_now hw hhd.1).record (.refl ..),
        emptied_now hw hf.id_le hhd _⟩
    rwa [changes_same hf.id_le rfl]
  | tryDeqCheck hd tl nx =>
    intro hl
    obtain ⟨⟨hs, hle, hne⟩, hdone, hhd, htl, hnx, hemp⟩ := hf.at hl
    simp only [step]
    split_ifs with hcas hv h0
    · refine .answer hw hf (fun g => ?_) (by simp) (by simp)
      have hs' : Since w.trace f.id fun σ => σ.queue = [] :=
        (hemp h0).resolve_left (by rw [hcas]; exact Nat.lt_irrefl _)
      rw [hs]
      exact ⟨hdone, hs'.append⟩
    · have heq := aba_eq_of_value_eq hw hhd htl hv
      have hlink := (hnx.resolve_left fun h => h0 (by rw [h])).2
      rw [heq] at hlink
      exact .read hw hf ⟨hd, hs⟩ hdone hlink
    · have hlt := aba_lt_of_value_ne hhd htl hle hv
      refine .read hw hf ⟨hs, hlt⟩ hdone ⟨htl, ?_⟩
      exact (hnx.resolve_left fun h => hne hlt (by rw [h])).2
    · refine .answer hw hf (fun g => ?_) (by simp) (by simp)
      rw [hs]
      exact hdone
  | tryDeqHelp tl nx =>
    intro hl
    obtain ⟨⟨hd, hs⟩, hdone, hlink⟩ := hf.at hl
    have heff : ∀ p, Effect (changes Shared.queue w.trace t f.id) p f.op
        (.tried .failed none (some (tl.aba + 1))) := by
      intro p
      rw [hs]
      exact hdone
    simp only [step]
    split_ifs with hcas
    · exact swingTail_stop hw hf hlink hcas heff (by simp) (by simp)
    · exact .answer hw hf (fun g => heff _) (by simp) (by simp)
  | tryDeqItem hd tl nx =>
    intro hl
    obtain ⟨⟨hs, hlt⟩, hdone, htl, hlink⟩ := hf.at hl
    refine .read hw hf ⟨hs, hlt⟩ hdone ⟨htl, hlink, ?_, rfl⟩
    exact (hw.heap.chain.bound _ (List.mem_of_getElem? hlink)).2
  | tryDeqSwing hd tl nx x =>
    intro hl
    obtain ⟨⟨hs, hlt⟩, hdone, htl, hlink, hval⟩ := hf.at hl
    simp only [step]
    split_ifs with hcas
    · refine swingHead_stop hw hf htl hlink hval hlt hcas (by rw [hl]; rfl) hdone
        (fun q p => ?_) (by simp) (by simp)
      rw [hs]
      exact ⟨q, rfl⟩
    · refine .answer hw hf (fun g => ?_) (by simp) (by simp)
      rw [hs]
      exact hdone
  | _ => trivial

theorem step_ok (hw : Inv w) (hf : Knows t f w) : StepOk w t f (step w.shared f.loc) := by
  have henq := enqueue_ok hw hf f.loc
  have hdeq := dequeue_ok hw hf f.loc
  have htenq := tryEnqueue_ok hw hf f.loc
  have htdeq := tryDequeue_ok hw hf f.loc
  cases hl : f.loc with
  | readHead =>
    obtain ⟨hs, hdone, -⟩ := hf.at hl
    refine .answer hw hf (fun g => ?_) (by simp) (fun p hp => ?_)
    · rw [hs]
      exact hdone
    · obtain rfl : w.shared.head = p := by simpa using hp
      exact headRead_now hw
  | readTail =>
    obtain ⟨hs, hdone, -⟩ := hf.at hl
    refine .answer hw hf (fun g => ?_) (fun p hp => ?_) (by simp)
    · rw [hs]
      exact hdone
    · obtain rfl : w.shared.tail = p := by simpa using hp
      exact tailRead_now hw
  | sizeTail =>
    obtain ⟨hs, hdone, -⟩ := hf.at hl
    exact .read hw hf hs hdone trivial
  | sizeHead tl =>
    obtain ⟨hs, hdone, -⟩ := hf.at hl
    refine .answer hw hf (fun g => ?_) (by simp) (by simp)
    rw [hs]
    exact hdone
  | _ =>
    rw [hl] at henq hdeq htenq htdeq
    first
      | exact henq rfl
      | exact hdeq rfl
      | exact htenq rfl
      | exact htdeq rfl

/-! ### All runs -/

omit [Inhabited α] in
theorem admitted_tail {h : List (Event (Op α) (Ret α))} {x : α} {p : AtomicPointer}
    (ha : admits h (.tryEnqueue x p) = true) : ∃ t, Event.res t (.tail p) ∈ h := by
  obtain ⟨e, he, hp⟩ := List.any_eq_true.mp ha
  rcases e with _ | _ | ⟨t, r⟩ <;> try simp at hp
  rcases r with _ | _ | _ | _ | q | _ <;> try simp at hp
  exact ⟨t, hp ▸ he⟩

omit [Inhabited α] in
theorem admitted_head {h : List (Event (Op α) (Ret α))} {p : AtomicPointer}
    (ha : admits h (.tryDequeue p) = true) : ∃ t, Event.res t (.head p) ∈ h := by
  obtain ⟨e, he, hp⟩ := List.any_eq_true.mp ha
  rcases e with _ | _ | ⟨t, r⟩ <;> try simp at hp
  rcases r with _ | _ | _ | q | _ | _ <;> try simp at hp
  exact ⟨t, hp ▸ he⟩

theorem outline_sound : (outline α).Sound always where
  init := by
    refine ⟨⟨[1], fun _ => 0⟩, ⟨init_inv, ?_, ?_⟩, by simp [outline]⟩ <;>
      simp [World.events]
  stable := by
    rintro w e σ g t f hw - hf he hx f' rfl
    have hf := hf f' rfl
    refine ⟨hf.id_le.trans (by simp), hf.shape, ?_, hf.facts.imp fun F hF => hF.record hx⟩
    rw [changes_other hf.id_le he]
    exact hf.done
  call := by
    rintro w t op hw - ha
    refine ⟨w.ghost, hw.record (t := t) hw.heap (fun u _ => .refl ..) (by simp) (by simp), ?_,
      fun u _ => .refl ..⟩
    rintro f' hf'
    obtain rfl : _ = f' := by simpa using hf'
    have hchg : changes Shared.queue (w.record (.inv t op) w.shared w.ghost).trace t
        w.trace.length = [] := by
      rw [changes_same le_rfl rfl, changes_nil le_rfl]
    refine ⟨by simp, ?_, ?_, AllOf.imp (fun F hF => Fact.Holds.record hF (.refl ..)) ?_⟩
    · cases op <;> rfl
    · rw [hchg]
      cases op <;> rfl
    · cases op with
      | tryEnqueue x p =>
        obtain ⟨u, hu⟩ := admitted_tail (x := x) ha
        exact hw.tails u p hu
      | tryDequeue p =>
        obtain ⟨u, hu⟩ := admitted_head ha
        exact hw.heads u p hu
      | _ => trivial
  run := by
    intro w t f ch σ o hw hf _ hs
    have hok := (step_ok hw (hf f rfl)).moves
    rw [Option.some.inj hs] at hok
    exact hok

/-- **MSQueue refines an atomic FIFO queue.**  In every reachable configuration a
step changes the queue only as `QueueStep` says, and a call that returns has done
to the queue what its result says. -/
theorem refines_queue {c : Config (machine α)} (hc : Reach (machine α) always c) :
    (∀ a c', c.next a = some c' → c'.shared.queue = c.shared.queue ∨
      ∃ t ch f, a = .run t ch ∧ c.frames t = some f ∧
        QueueStep f.op f.loc c.shared c'.shared) ∧
    ∀ t f r c', Returning c t f r c' →
      Effect (changes Shared.queue c'.trace t f.id)
        (Since c'.trace f.id fun σ => σ.queue = []) f.op r := by
  obtain ⟨g, hinv, hloc⟩ := outline_sound.reach hc
  constructor
  · rintro (⟨t, op⟩ | ⟨t, ch⟩) c' h
    · obtain ⟨-, -, rfl⟩ := Config.next_call h
      exact Or.inl rfl
    · obtain ⟨f, σ, o, hf, hs, rfl⟩ := Config.next_run h
      have hok := (step_ok hinv (hloc t f hf)).queue
      rw [Option.some.inj hs] at hok
      exact Or.inr ⟨t, ch, f, rfl, hf, hok⟩
  · rintro t f r c' ⟨hf, ch, σ, hs, rfl⟩
    have hok := (step_ok hinv (hloc t f hf)).effect
    rw [Option.some.inj hs] at hok
    exact hok r rfl g

/-- Two enqueues, of which the second has not yet swung `tail_`, and all but the
last access of a dequeue. -/
def laggingTail : List (Action (machine ℕ)) :=
  [.call 0 (.enqueue 5), .run 0 (), .run 0 (), .run 0 (), .run 0 (), .run 0 (), .run 0 (),
    .call 1 (.enqueue 7), .run 1 (), .run 1 (), .run 1 (), .run 1 (), .run 1 (),
    .call 2 .dequeue, .run 2 (), .run 2 (), .run 2 (), .run 2 (), .run 2 ()]

theorem refines_queue_laggingTail :
    ∃ c : Config (machine ℕ), c.shared.queue = [5, 7] ∧ c.shared.tail.aba = 1 ∧
      ∀ t f r c', Returning c t f r c' →
        Effect (changes Shared.queue c'.trace t f.id)
          (Since c'.trace f.id fun σ => σ.queue = []) f.op r := by
  have h : ((Config.init (machine ℕ)).exec always laggingTail).isSome = true := by decide
  exact ⟨((Config.init (machine ℕ)).exec always laggingTail).get h, rfl, rfl,
    (refines_queue (Reach.schedule laggingTail h)).2⟩

end Facts

end MSQueue

/-
The buffers of the timestamped stack in every reachable state.

A buffer's items are numbered in the order in which they were pushed.  An item's `next`
leads to an older one, past taken items only, and so does every move of the list pointer,
whatever its counter is: whoever took an item had seen all items from the list pointer
down to it taken before (`Fact.pending`).

* `Ghost` — the items of every buffer, the ring of buffers, and the order in which items
  were taken;
* `HeapInv` — every item that is not taken is reached from the list pointer of its buffer,
  and every buffer that has an item from the entry buffer;
* `Fence` — a buffer's oldest item that was not taken when a scan began.  The list pointer
  stays at or above it until the scan reads it, so it is not the remembered one;
* `Leaving`, `Visiting` — where in the ring a scan is, and what it will still visit.
-/
import Scal.TSStack
import Scal.BagProof
import Scal.Chain

open Interleave Linearizability

namespace TSStack

variable {α : Type} {T : TimeStamp}

/-- The items of every buffer, its sentinel first; the buffers of the ring, in the order in
which they were linked, the entry buffer first; when an item was taken; how many items are
taken; the thread that allocated an item; whether all items were taken when a thread's last
scan began. -/
structure Ghost where
  items : ℕ → List ℕ
  ring : List ℕ
  time : ℕ → ℕ
  now : ℕ
  owner : ℕ → ℕ
  saw : ℕ → Bool

/-- The items at positions `k` with `p k` of buffer `b` are taken. -/
def Taken (σ : Shared α T) (g : Ghost) (b : ℕ) (p : ℕ → Prop) : Prop :=
  ∀ k q, p k → (g.items b)[k]? = some q → (σ.item q).taken = true

/-- And they were taken before the item `x`, if that is taken. -/
def TakenBefore (σ : Shared α T) (g : Ghost) (b : ℕ) (p : ℕ → Prop) (x : ℕ) : Prop :=
  ∀ k q, p k → (g.items b)[k]? = some q →
    (σ.item q).taken = true ∧ ((σ.item x).taken = true → g.time q < g.time x)

structure HeapInv (n : ℕ) (σ : Shared α T) (g : Ghost) : Prop where
  alloc : 0 < σ.alloc
  bound : ∀ (b k p : ℕ), (g.items b)[k]? = some p → p ≠ 0 ∧ p < σ.alloc
  unique : ∀ (b k b' k' p : ℕ), (g.items b)[k]? = some p → (g.items b')[k']? = some p →
    b = b' ∧ k = k'
  entryItems : (g.items entryBuffer).length = 1
  entryIndex : (σ.buffer entryBuffer).index = none
  registered : ∀ t, σ.spBuffers t ≠ 0 → t < n ∧ σ.spBuffers t = bufferOf t ∧
    (σ.buffer (bufferOf t)).index = some t ∧ g.items (bufferOf t) ≠ []
  unregistered : ∀ b, g.items b ≠ [] → b = entryBuffer ∨
    ∃ t, b = bufferOf t ∧ σ.spBuffers t ≠ 0
  entry : g.ring[0]? = some entryBuffer
  ringMem : ∀ (k b : ℕ), g.ring[k + 1]? = some b → ∃ t, b = bufferOf t ∧ σ.spBuffers t ≠ 0
  ringNodup : g.ring.Nodup
  ringNext : ∀ (k b c : ℕ), g.ring[k]? = some b → g.ring[k + 1]? = some c →
    (σ.buffer c).next = b
  entryNext : g.ring[g.ring.length - 1]? = some (σ.buffer entryBuffer).next
  linked : ∀ (b p : ℕ), (g.items b)[1]? = some p → b ∈ g.ring
  list : ∀ b, g.items b ≠ [] → ∃ k, (g.items b)[k]? = some (σ.buffer b).list.pointer ∧
    Taken σ g b (k < ·)
  sentinel : ∀ b p, (g.items b)[0]? = some p → (σ.item p).taken = true ∧ (σ.item p).next = p
  next : ∀ (b k p : ℕ), (g.items b)[k + 1]? = some p → ∃ j q, j ≤ k ∧
    (g.items b)[j]? = some q ∧ (σ.item p).next = q ∧ Taken σ g b fun m => j < m ∧ m ≤ k
  data : ∀ (b k p : ℕ), (g.items b)[k + 1]? = some p → b = bufferOf (g.owner p) ∧
    (σ.item p).data.isSome = true
  remembered : ∀ t i, (σ.emptinessCheckPointers t i).pointer = 0 ∨
    ∃ k, (g.items (bufferOf i))[k]? = some (σ.emptinessCheckPointers t i).pointer ∧
      Taken σ g (bufferOf i) (· ≤ k)
  time : ∀ (b k p : ℕ), (g.items b)[k]? = some p → (σ.item p).taken = true → g.time p < g.now

/-- An item that thread `t` allocated and has not linked yet. -/
structure Own (t p : ℕ) (element : α) (next : ℕ) (σ : Shared α T) (g : Ghost) : Prop where
  owner : g.owner p = t
  lt : p < σ.alloc
  ne : p ≠ 0
  unlinked : ∀ b, p ∉ g.items b
  item : σ.item p = ⟨next, false, some element, T.initTopAtomic⟩

/-- What thread `u` relies on about the steps of other threads. -/
structure Rely (u : ℕ) (σ : Shared α T) (g : Ghost) (σ' : Shared α T) (g' : Ghost) : Prop where
  items : ∀ b, g.items b <+: g'.items b
  ring : g.ring <+: g'.ring
  alloc : σ.alloc ≤ σ'.alloc
  data : ∀ p < σ.alloc, (σ'.item p).data = (σ.item p).data
  taken : ∀ (b k p : ℕ), (g.items b)[k]? = some p → (σ.item p).taken = true →
    (σ'.item p).taken = true ∧ g'.time p = g.time p
  later : ∀ (b k p c m q : ℕ), (g.items b)[k]? = some p → (σ.item p).taken = true →
    (g.items c)[m]? = some q → (σ.item q).taken = false → (σ'.item q).taken = true →
      g'.time p < g'.time q
  next : ∀ (b k p : ℕ), (g.items b)[k]? = some p → (σ'.item p).next = (σ.item p).next
  -- a list pointer moves down only to an item taken after the ones that it passes
  list : ∀ (b k : ℕ), (g.items b)[k]? = some (σ.buffer b).list.pointer → ∃ j x,
    (g'.items b)[j]? = some x ∧ (σ'.buffer b).list.pointer = x ∧
      (j < k → (σ.item x).taken = true) ∧ TakenBefore σ g b (fun m => j < m ∧ m ≤ k) x
  buffer : g'.items (bufferOf u) = g.items (bufferOf u)
  spBuffer : σ'.spBuffers u = σ.spBuffers u
  unlinked : bufferOf u ∉ g.ring → bufferOf u ∉ g'.ring ∧
    (σ'.buffer (bufferOf u)).next = (σ.buffer (bufferOf u)).next
  own : ∀ p < σ.alloc, g.owner p = u → g'.owner p = u ∧
    (σ'.item p).timestamp = (σ.item p).timestamp ∧
    ((∀ b, p ∉ g.items b) → (∀ b, p ∉ g'.items b) ∧ σ'.item p = σ.item p)
  remembered : σ'.emptinessCheckPointers u = σ.emptinessCheckPointers u
  saw : g'.saw u = g.saw u

theorem Rely.refl (u : ℕ) (σ : Shared α T) (g : Ghost) : Rely u σ g σ g where
  items _ := List.prefix_refl _
  ring := List.prefix_refl _
  alloc := le_rfl
  data _ _ := rfl
  taken _ _ _ _ h := ⟨h, rfl⟩
  later _ _ _ _ _ _ _ _ _ h h' := absurd (h.symm.trans h') (by decide)
  next _ _ _ _ := rfl
  list _ k h := ⟨k, _, h, rfl, fun h => absurd h (Nat.lt_irrefl _), fun m _ hm => by omega⟩
  buffer := rfl
  spBuffer := rfl
  unlinked h := ⟨h, rfl⟩
  own _ _ ho := ⟨ho, rfl, fun hp => ⟨hp, rfl⟩⟩
  remembered := rfl
  saw := rfl

/-! ### Where a scan is -/

/-- A scan is at its current buffer and about to go on; it will then visit the buffers at
these positions of the ring. -/
inductive Leaving (ring : List ℕ) (start current counter : ℕ) : (ℕ → Prop) → Prop
  /-- The entry buffer comes later. -/
  | down {k c : ℕ} : ring[k]? = some start → ring[c]? = some current → 0 < c → c ≤ k →
    counter = 0 → Leaving ring start current counter fun j => j < c ∨ k ≤ j
  | entry {k : ℕ} : ring[k]? = some start → current = entryBuffer → counter = 1 →
    Leaving ring start current counter fun j => k ≤ j
  /-- The entry buffer was visited. -/
  | up {k c : ℕ} : ring[k]? = some start → ring[c]? = some current → k < c → counter = 1 →
    Leaving ring start current counter fun j => k ≤ j ∧ j < c

/-- A scan visits its current buffer, which is at position `c` of the ring. -/
inductive Visiting (ring : List ℕ) (start current counter : ℕ) : ℕ → (ℕ → Prop) → Prop
  | down {k c : ℕ} : ring[k]? = some start → ring[c]? = some current → 0 < c → c < k →
    counter = 0 → Visiting ring start current counter c fun j => j < c ∨ k ≤ j
  | entry {k : ℕ} : ring[k]? = some start → 0 < k → current = entryBuffer → counter = 0 →
    Visiting ring start current counter 0 fun j => k ≤ j
  | up {k c : ℕ} : ring[k]? = some start → ring[c]? = some current → k ≤ c → 0 < c →
    counter = 1 → Visiting ring start current counter c fun j => k ≤ j ∧ j < c
  /-- The scan began at the entry buffer and is there again. -/
  | back : start = entryBuffer → current = entryBuffer → counter = 1 →
    Visiting ring start current counter 0 fun _ => False

section Positions

variable {ring ring' : List ℕ} {start current counter c : ℕ} {rest : ℕ → Prop}

theorem Leaving.mono (hl : Leaving ring start current counter rest) (hp : ring <+: ring') :
    Leaving ring' start current counter rest := by
  cases hl with
  | down hk hc h0 hle hcnt =>
    exact .down (Chain.getElem?_mono hp hk) (Chain.getElem?_mono hp hc) h0 hle hcnt
  | entry hk hc hcnt => exact .entry (Chain.getElem?_mono hp hk) hc hcnt
  | up hk hc hlt hcnt =>
    exact .up (Chain.getElem?_mono hp hk) (Chain.getElem?_mono hp hc) hlt hcnt

theorem Visiting.mono (hv : Visiting ring start current counter c rest) (hp : ring <+: ring') :
    Visiting ring' start current counter c rest := by
  cases hv with
  | down hk hc h0 hlt hcnt =>
    exact .down (Chain.getElem?_mono hp hk) (Chain.getElem?_mono hp hc) h0 hlt hcnt
  | entry hk h0 hc hcnt => exact .entry (Chain.getElem?_mono hp hk) h0 hc hcnt
  | up hk hc hle h0 hcnt =>
    exact .up (Chain.getElem?_mono hp hk) (Chain.getElem?_mono hp hc) hle h0 hcnt
  | back hs hc hcnt => exact .back hs hc hcnt

/-- The current buffer is in the ring. -/
theorem Visiting.onRing (hv : Visiting ring start current counter c rest)
    (hentry : ring[0]? = some entryBuffer) : ring[c]? = some current := by
  cases hv with
  | down hk hc h0 hlt hcnt => exact hc
  | entry hk h0 hc hcnt => rw [hc]; exact hentry
  | up hk hc hle h0 hcnt => exact hc
  | back hs hc hcnt => rw [hc]; exact hentry

end Positions

/-! ### What a thread knows -/

/-- Buffer `bufferOf i` has an item at position `m + 1` that was not taken, and the list
pointer is not below it, but the pointer that thread `t` remembers is. -/
def Fence (t i : ℕ) (σ : Shared α T) (g : Ghost) : Prop :=
  ∃ m f, (g.items (bufferOf i))[m + 1]? = some f ∧
    TakenBefore σ g (bufferOf i) (· ≤ m) f ∧
    (∃ k, m < k ∧ (g.items (bufferOf i))[k]? = some (σ.buffer (bufferOf i)).list.pointer) ∧
    ((σ.emptinessCheckPointers t i).pointer = 0 ∨
      ∃ k ≤ m, (g.items (bufferOf i))[k]? = some (σ.emptinessCheckPointers t i).pointer)

/-- All items were taken when the scan began, or there is a fence at a position of the ring
that satisfies `p`. -/
def Fenced (t : ℕ) (p : ℕ → Prop) (σ : Shared α T) (g : Ghost) : Prop :=
  g.saw t = true ∨ ∃ j i, p j ∧ g.ring[j]? = some (bufferOf i) ∧ Fence t i σ g

/-- Thread `t` has no buffer, or it is in the ring. -/
def Ready (t : ℕ) (σ : Shared α T) (g : Ghost) : Prop :=
  σ.spBuffers t = 0 ∨ bufferOf t ∈ g.ring

/-- Item `p` of buffer `b` is at or below `w`, and the items from `w` to it are taken. -/
def Below (b : ℕ) (w : TaggedPointer) (p : ℕ) (σ : Shared α T) (g : Ghost) : Prop :=
  ∃ i k, (g.items b)[i]? = some p ∧ (g.items b)[k]? = some w.pointer ∧
    Taken σ g b fun m => i < m ∧ m ≤ k

/-- Facts that stay true once they are true. -/
inductive Fact (α : Type) (T : TimeStamp) where
  /-- The thread has no buffer, or it is in the ring. -/
  | ready
  | noBuffer
  /-- The thread's buffer is not in the ring yet. -/
  | registering
  | bufferNext (next : ℕ)
  /-- The thread's buffer is in the ring. -/
  | registered
  /-- The item is private and holds the element. -/
  | own (p : ℕ) (element : α)
  /-- All items of the thread after this one are taken. -/
  | above (top : ℕ)
  /-- And it is taken, too. -/
  | takenAbove (top : ℕ)
  /-- The private item's `next` is one above which all items are taken. -/
  | nextStored (p : ℕ) (element : α)
  | mine (b : ℕ)
  /-- The thread linked the item. -/
  | linked (p : ℕ)
  | onRing (b : ℕ)
  | fenced
  | leaving (s : Scan T)
  | visiting (s : Scan T)
  /-- As `visiting`, but if the current buffer has no item and its list pointer was the
  remembered one, then there is a fence at another buffer. -/
  | visited (s : Scan T) (w : TaggedPointer)
  /-- The list pointer of `b` once was this word. -/
  | listRead (b : ℕ) (w : TaggedPointer)
  /-- `get_youngest_item` of `b` has come to this item. -/
  | walking (b : ℕ) (w : TaggedPointer) (p : ℕ)
  | takenAt (b p : ℕ)
  /-- It has found no item. -/
  | cleared (b : ℕ) (w : TaggedPointer)
  /-- The youngest item found until now. -/
  | result (s : Scan T)
  /-- The thread took the item `p` after the ones above it. -/
  | pending (b : ℕ) (w : TaggedPointer) (p : ℕ)
  | data (p : ℕ)

def Fact.Holds (t : ℕ) (σ : Shared α T) (g : Ghost) : Fact α T → Prop
  | .ready => Ready t σ g
  | .noBuffer => σ.spBuffers t = 0
  | .registering => σ.spBuffers t ≠ 0 ∧ bufferOf t ∉ g.ring
  | .bufferNext next => bufferOf t ∉ g.ring → (σ.buffer (bufferOf t)).next = next
  | .registered => σ.spBuffers t ≠ 0 ∧ bufferOf t ∈ g.ring
  | .own p x => Own t p x 0 σ g
  | .above top => ∃ i, (g.items (bufferOf t))[i]? = some top ∧ Taken σ g (bufferOf t) (i < ·)
  | .takenAbove top => ∃ i, (g.items (bufferOf t))[i]? = some top ∧
    Taken σ g (bufferOf t) (i ≤ ·)
  | .nextStored p x => ∃ i top, (g.items (bufferOf t))[i]? = some top ∧
    Taken σ g (bufferOf t) (i < ·) ∧ Own t p x top σ g
  | .mine b => b = bufferOf t
  | .linked p => p < σ.alloc ∧ g.owner p = t ∧ p ∈ g.items (bufferOf t)
  | .onRing b => b ∈ g.ring
  | .fenced => Fenced t (fun _ => True) σ g
  | .leaving s => ∃ rest, Leaving g.ring s.startBuffer s.currentBuffer s.entryCounter rest ∧
    (s.empty = true → Fenced t rest σ g)
  | .visiting s => ∃ c rest,
    Visiting g.ring s.startBuffer s.currentBuffer s.entryCounter c rest ∧
    (s.empty = true → Fenced t (fun j => j = c ∨ rest j) σ g)
  | .visited s w => ∃ c rest,
    Visiting g.ring s.startBuffer s.currentBuffer s.entryCounter c rest ∧
    (s.empty = true → (∀ i, s.currentBuffer = bufferOf i → σ.emptinessCheckPointers t i = w) →
      Fenced t rest σ g)
  | .listRead b w => ∃ k : ℕ, (g.items b)[k]? = some w.pointer
  | .walking b w p => Below b w p σ g
  | .takenAt b p => ∃ k : ℕ, (g.items b)[k]? = some p ∧ (σ.item p).taken = true
  | .cleared b w => ∃ k, (g.items b)[k]? = some w.pointer ∧ Taken σ g b (· ≤ k)
  | .result s => s.result ≠ 0 → s.empty = false ∧ Below s.youngestBuffer s.oldTop s.result σ g
  | .pending b w p => ∃ i k, (g.items b)[i]? = some p ∧ (g.items b)[k]? = some w.pointer ∧
    (σ.item p).taken = true ∧ TakenBefore σ g b (fun m => i < m ∧ m ≤ k) p
  | .data p => p < σ.alloc ∧ (σ.item p).data.isSome = true

section Stable

variable {t b : ℕ} {σ σ' : Shared α T} {g g' : Ghost} {p : ℕ → Prop}

theorem Rely.getElem (hr : Rely t σ g σ' g') {k q : ℕ} (h : (g.items b)[k]? = some q) :
    (g'.items b)[k]? = some q :=
  Chain.getElem?_mono (hr.items b) h

/-- Items that were there before stay taken. -/
theorem Taken.rely (hT : Taken σ g b p) (hr : Rely t σ g σ' g')
    (hold : ∀ k q, p k → (g'.items b)[k]? = some q → (g.items b)[k]? = some q) :
    Taken σ' g' b p := fun k q hk hq =>
  (hr.taken b k q (hold k q hk hq) (hT k q hk (hold k q hk hq))).1

/-- Positions up to an item's hold the same items for ever. -/
theorem Rely.getElem_of_le (hr : Rely t σ g σ' g') {k m q x : ℕ}
    (hx : (g.items b)[k]? = some x) (hm : m ≤ k) (hq : (g'.items b)[m]? = some q) :
    (g.items b)[m]? = some q := by
  have hlt := Chain.lt_length hx
  have hget : (g.items b)[m]? = some (g.items b)[m] := List.getElem?_eq_getElem (by omega)
  rw [hget, ← hr.getElem hget, hq]

theorem TakenBefore.rely {k x y c : ℕ} (hT : TakenBefore σ g b p x) (hr : Rely t σ g σ' g')
    (hy : (g.items b)[k]? = some y) (hk : ∀ m, p m → m ≤ k)
    {j : ℕ} (hx : (g.items c)[j]? = some x) : TakenBefore σ' g' b p x := by
  intro m q hm hq
  have hq := hr.getElem_of_le hy (hk m hm) hq
  obtain ⟨htq, hlt⟩ := hT m q hm hq
  obtain ⟨htq', htime⟩ := hr.taken b m q hq htq
  refine ⟨htq', fun hx' => ?_⟩
  cases htx : (σ.item x).taken with
  | true =>
    rw [htime, (hr.taken c j x hx htx).2]
    exact hlt htx
  | false => exact hr.later b m q c j x hq htq hx htx hx'

theorem Below.rely {w : TaggedPointer} {x : ℕ} (hB : Below b w x σ g) (hr : Rely t σ g σ' g') :
    Below b w x σ' g' := by
  obtain ⟨i, k, hi, hk, hT⟩ := hB
  exact ⟨i, k, hr.getElem hi, hr.getElem hk,
    hT.rely hr fun _ _ hm hq => hr.getElem_of_le hk hm.2 hq⟩

/-- **A fence stays**: no list pointer passes an item before it is taken, nor afterwards to
an item that was taken before. -/
theorem Fence.rely {i : ℕ} (hF : Fence t i σ g) (hr : Rely t σ g σ' g') : Fence t i σ' g' := by
  obtain ⟨m, f, hf, hT, ⟨k, hmk, hk⟩, he⟩ := hF
  refine ⟨m, f, hr.getElem hf, hT.rely hr hf (fun j hj => Nat.le_succ_of_le hj) hf, ?_, ?_⟩
  · obtain ⟨j, x, hj, hx, htaken, hpast⟩ := hr.list _ k hk
    refine ⟨j, ?_, hx ▸ hj⟩
    by_contra hle
    have hj' := hr.getElem_of_le hf (by omega) hj
    have htx := htaken (by omega)
    obtain ⟨htf, hlt⟩ := hpast (m + 1) f ⟨by omega, by omega⟩ hf
    have hlt' := (hT j x (by omega) hj').2 htf
    have := hlt htx
    omega
  · rw [hr.remembered]
    refine he.imp_right ?_
    rintro ⟨j, hj, hq⟩
    exact ⟨j, hj, hr.getElem hq⟩

theorem Fenced.rely (hF : Fenced t p σ g) (hr : Rely t σ g σ' g') : Fenced t p σ' g' := by
  rcases hF with hs | ⟨j, i, hj, hring, hf⟩
  · exact Or.inl (hr.saw.trans hs)
  · exact Or.inr ⟨j, i, hj, Chain.getElem?_mono hr.ring hring, hf.rely hr⟩

theorem Ready.rely (hR : Ready t σ g) (hr : Rely t σ g σ' g') : Ready t σ' g' := by
  rcases hR with h | h
  · exact Or.inl (hr.spBuffer.trans h)
  · exact Or.inr (hr.ring.subset h)

theorem Own.rely {x : α} {next q : ℕ} (ho : Own t q x next σ g) (hr : Rely t σ g σ' g') :
    Own t q x next σ' g' := by
  obtain ⟨howner, -, hu⟩ := hr.own q ho.lt ho.owner
  obtain ⟨hc, hi⟩ := hu ho.unlinked
  exact ⟨howner, ho.lt.trans_le hr.alloc, ho.ne, hc, hi.trans ho.item⟩

/-- A thread's own buffer gets no items from others. -/
theorem Taken.relyOwn (hT : Taken σ g (bufferOf t) p) (hr : Rely t σ g σ' g') :
    Taken σ' g' (bufferOf t) p :=
  hT.rely hr fun _ _ _ hq => hr.buffer ▸ hq

theorem Fact.Holds.rely {F : Fact α T} (hF : F.Holds t σ g) (hr : Rely t σ g σ' g') :
    F.Holds t σ' g' := by
  cases F with
  | ready => exact Ready.rely hF hr
  | noBuffer => exact hr.spBuffer.trans hF
  | registering => exact ⟨hr.spBuffer ▸ hF.1, (hr.unlinked hF.2).1⟩
  | bufferNext next =>
    intro h
    have hold : bufferOf t ∉ g.ring := fun h' => h (hr.ring.subset h')
    exact (hr.unlinked hold).2.trans (hF hold)
  | registered => exact ⟨hr.spBuffer ▸ hF.1, hr.ring.subset hF.2⟩
  | own q x => exact Own.rely hF hr
  | above top =>
    obtain ⟨i, hi, hT⟩ := hF
    exact ⟨i, hr.getElem hi, hT.relyOwn hr⟩
  | takenAbove top =>
    obtain ⟨i, hi, hT⟩ := hF
    exact ⟨i, hr.getElem hi, hT.relyOwn hr⟩
  | nextStored q x =>
    obtain ⟨i, top, hi, hT, ho⟩ := hF
    exact ⟨i, top, hr.getElem hi, hT.relyOwn hr, ho.rely hr⟩
  | mine b => exact hF
  | linked q =>
    obtain ⟨hlt, ho, hm⟩ := hF
    exact ⟨hlt.trans_le hr.alloc, (hr.own q hlt ho).1, (hr.items _).subset hm⟩
  | onRing b => exact hr.ring.subset hF
  | fenced => exact Fenced.rely hF hr
  | leaving s =>
    obtain ⟨rest, hl, hf⟩ := hF
    exact ⟨rest, hl.mono hr.ring, fun he => (hf he).rely hr⟩
  | visiting s =>
    obtain ⟨c, rest, hv, hf⟩ := hF
    exact ⟨c, rest, hv.mono hr.ring, fun he => (hf he).rely hr⟩
  | visited s w =>
    obtain ⟨c, rest, hv, hf⟩ := hF
    refine ⟨c, rest, hv.mono hr.ring, fun he hw => (hf he ?_).rely hr⟩
    rw [hr.remembered] at hw
    exact hw
  | listRead b w =>
    obtain ⟨k, hk⟩ := hF
    exact ⟨k, hr.getElem hk⟩
  | walking b w q => exact Below.rely hF hr
  | takenAt b q =>
    obtain ⟨k, hk, hq⟩ := hF
    exact ⟨k, hr.getElem hk, (hr.taken b k q hk hq).1⟩
  | cleared b w =>
    obtain ⟨k, hk, hT⟩ := hF
    exact ⟨k, hr.getElem hk, hT.rely hr fun _ _ hm hq => hr.getElem_of_le hk hm hq⟩
  | result s =>
    intro h
    obtain ⟨he, hB⟩ := hF h
    exact ⟨he, hB.rely hr⟩
  | pending b w q =>
    obtain ⟨i, k, hi, hk, hq, hT⟩ := hF
    exact ⟨i, k, hr.getElem hi, hr.getElem hk, (hr.taken b i q hi hq).1,
      hT.rely hr hk (fun m hm => hm.2) hi⟩
  | data q =>
    obtain ⟨hlt, hd⟩ := hF
    refine ⟨hlt.trans_le hr.alloc, ?_⟩
    rw [hr.data q hlt]
    exact hd

end Stable

/-- What a thread knows at each point of its call. -/
def Local.facts : Local α T → List (Fact α T)
  | .newItem _ => [.ready]
  | .loadSPBuffer x p => [.ready, .own p x]
  | .register x p => [.noBuffer, .own p x]
  | .loadEntryNext x p => [.registering, .own p x]
  | .storeBufferNext x p _ => [.registering, .own p x]
  | .linkBuffer x p next => [.registering, .own p x, .bufferNext next]
  | .reloadSPBuffer x p => [.registered, .own p x]
  | .loadOldTop x p b => [.registered, .own p x, .mine b]
  | .topNext x p _ top => [.registered, .own p x, .above top]
  | .topTaken x p _ top => [.registered, .own p x, .above top]
  | .topStep x p _ top => [.registered, .own p x, .takenAbove top]
  | .storeNext x p _ top => [.registered, .own p x, .above top]
  | .listSPBuffer x p _ => [.registered, .nextStored p x]
  | .storeList x p _ b => [.registered, .nextStored p x, .mine b]
  | .setTimestamp _ p _ => [.registered, .linked p]
  | .readTime _ => [.ready]
  | .loadEntry _ => [.ready]
  | .skip _ _ b => [.ready, .onRing b, .fenced]
  | .loadBuffer s => [.ready, .result s, .leaving s]
  | .loadTop s _ => [.ready, .result s, .visiting s]
  | .loadList s _ w => [.ready, .result s, .visited s w, .listRead s.currentBuffer w]
  | .loadTaken s _ w p => [.ready, .result s, .visited s w, .walking s.currentBuffer w p]
  | .loadNext s _ w p =>
    [.ready, .result s, .visited s w, .walking s.currentBuffer w p, .takenAt s.currentBuffer p]
  | .unlinkSPBuffer s _ w => [.ready, .result s, .visited s w, .cleared s.currentBuffer w]
  | .unlinking => []
  | .loadTimestamp s _ w p _ =>
    [.ready, .result s, .visited s w, .walking s.currentBuffer w p]
  | .checkItem s w p => [.ready, .result s, .visited s w, .walking s.currentBuffer w p]
  | .takeItem s w p => [.ready, .result s, .visited s w, .walking s.currentBuffer w p]
  | .checkResult s => [.ready, .result s]
  | .takeResult s => [.ready, .result s]
  | .swapList _ b w p => [.ready, .data p, .pending b w p]
  | .loadData _ p => [.ready, .data p]

/-- What the local variables say without reference to the memory. -/
def Local.Shape : Local α T → Prop
  | .loadTop s again => again = true → s.empty = false
  | .loadList s again _ => again = true → s.empty = false
  | .loadTaken s again _ _ => again = true → s.empty = false
  | .loadNext s again _ _ => again = true → s.empty = false
  | .unlinkSPBuffer s again _ => again = true → s.empty = false
  | .unlinking => False
  | .loadTimestamp s _ _ _ _ => s.empty = false
  | .checkItem s _ _ => s.empty = false
  | .takeItem s _ _ => s.empty = false
  | .checkResult s => s.result ≠ 0
  | .takeResult s => s.result ≠ 0
  | _ => True

/-- What thread `t` knows at `l`. -/
def Knows (t : ℕ) (σ : Shared α T) (g : Ghost) (l : Local α T) : Prop :=
  l.Shape ∧ AllOf (Fact.Holds t σ g) l.facts

theorem Knows.rely {t : ℕ} {σ σ' : Shared α T} {g g' : Ghost} {l : Local α T}
    (hl : Knows t σ g l) (hr : Rely t σ g σ' g') : Knows t σ' g' l :=
  ⟨hl.1, hl.2.imp fun _ hF => hF.rely hr⟩

/-! ### The ring -/

section Ring

variable {n t : ℕ} {σ : Shared α T} {g : Ghost} {start current counter c : ℕ} {rest : ℕ → Prop}

theorem bufferOf_ne_entry (t : ℕ) : bufferOf t ≠ entryBuffer := by
  rw [bufferOf, entryBuffer]
  omega

theorem bufferOf_injective : Function.Injective bufferOf := fun t u h => by
  rw [bufferOf, bufferOf] at h
  omega

theorem HeapInv.ring_inj (hI : HeapInv n σ g) {j k b : ℕ} (hj : g.ring[j]? = some b)
    (hk : g.ring[k]? = some b) : j = k :=
  (List.getElem?_inj (Chain.lt_length hj) hI.ringNodup).mp (hj.trans hk.symm)

/-- The buffers of the ring but the entry buffer have an index. -/
theorem HeapInv.ring_index (hI : HeapInv n σ g) {k b : ℕ} (hk : g.ring[k]? = some b)
    (h0 : 0 < k) : ∃ i, b = bufferOf i ∧ (σ.buffer b).index = some i ∧ σ.spBuffers i ≠ 0 := by
  obtain ⟨k, rfl⟩ : ∃ m, k = m + 1 := ⟨k - 1, by omega⟩
  obtain ⟨i, rfl, hi⟩ := hI.ringMem k b hk
  exact ⟨i, rfl, (hI.registered i hi).2.2.1, hi⟩

/-- A scan goes on to the next buffer, and to nothing that it skips. -/
theorem Leaving.step (hI : HeapInv n σ g) (hl : Leaving g.ring start current counter rest) :
    ∃ c rest', Visiting g.ring start (σ.buffer current).next counter c rest' ∧
      ∀ j < g.ring.length, rest j → j = c ∨ rest' j := by
  cases hl with
  | @down k c hk hc h0 hle hcnt =>
    obtain ⟨c, rfl⟩ : ∃ m, c = m + 1 := ⟨c - 1, by omega⟩
    have hlt := Chain.lt_length hc
    have hget : g.ring[c]? = some g.ring[c] := List.getElem?_eq_getElem (by omega)
    rw [hI.ringNext c _ _ hget hc]
    rcases Nat.eq_zero_or_pos c with rfl | hpos
    · have he : g.ring[0] = entryBuffer := Option.some.inj (hget.symm.trans hI.entry)
      rw [he]
      exact ⟨0, _, .entry hk (by omega) rfl hcnt, fun j _ hj => by omega⟩
    · exact ⟨c, _, .down hk hget hpos (by omega) hcnt, fun j _ hj => by omega⟩
  | @entry k hk hc hcnt =>
    subst hc
    have hlast := hI.entryNext
    have hlen := Chain.lt_length hk
    rcases Nat.eq_zero_or_pos (g.ring.length - 1) with h0 | hpos
    · rw [h0, hI.entry, Option.some.injEq] at hlast
      obtain rfl : k = 0 := by omega
      rw [hI.entry, Option.some.injEq] at hk
      exact ⟨0, _, .back hk.symm hlast.symm hcnt, fun j hj _ => by omega⟩
    · exact ⟨_, _, .up hk hlast (by omega) hpos hcnt, fun j hj hk => by omega⟩
  | @up k c hk hc hlt hcnt =>
    obtain ⟨c, rfl⟩ : ∃ m, c = m + 1 := ⟨c - 1, by omega⟩
    have hlen := Chain.lt_length hc
    have hget : g.ring[c]? = some g.ring[c] := List.getElem?_eq_getElem (by omega)
    rw [hI.ringNext c _ _ hget hc]
    rcases Nat.eq_zero_or_pos c with rfl | hpos
    · have he : g.ring[0] = entryBuffer := Option.some.inj (hget.symm.trans hI.entry)
      obtain rfl : k = 0 := by omega
      rw [hI.entry, Option.some.injEq] at hk
      rw [he]
      exact ⟨0, _, .back hk.symm rfl hcnt, fun j _ hj => by omega⟩
    · exact ⟨c, _, .up hk hget (by omega) hpos hcnt, fun j _ hj => by omega⟩

theorem loopHead_some {s : Scan T} {i : ℕ} (hs : s.entryCounter < 2) :
    (loopHead (some i) s : Local α T ⊕ BagRet α) = .inl (.loadBuffer s) := by
  have hlt : ¬ 2 ≤ s.entryCounter := by omega
  simp [loopHead, hlt]

theorem loopHead_none {s : Scan T} (hs : s.entryCounter = 0) :
    (loopHead none s : Local α T ⊕ BagRet α) =
      .inl (.loadBuffer { s with entryCounter := 1 }) := by
  simp [loopHead, hs]

/-- At the end of an iteration the scan ends where it began, with nothing left to visit, or
it goes on. -/
theorem Visiting.loopEnd (hI : HeapInv n σ g) {s : Scan T}
    (hv : Visiting g.ring s.startBuffer s.currentBuffer s.entryCounter c rest) :
    (loopEnd (σ.buffer s.currentBuffer).index s : Local α T ⊕ BagRet α) = afterLoop s ∧
        (∀ j, ¬ rest j) ∨
      ∃ counter, (loopEnd (σ.buffer s.currentBuffer).index s : Local α T ⊕ BagRet α) =
          .inl (.loadBuffer { s with entryCounter := counter }) ∧
        Leaving g.ring s.startBuffer s.currentBuffer counter rest := by
  cases hv with
  | @down k c hk hc h0 hlt hcnt =>
    refine Or.inr ⟨s.entryCounter, ?_, .down hk hc h0 hlt.le hcnt⟩
    obtain ⟨i, -, hi, -⟩ := hI.ring_index hc h0
    have hne : s.currentBuffer ≠ s.startBuffer := fun h => by
      have := hI.ring_inj (h ▸ hc) hk
      omega
    rw [TSStack.loopEnd, if_neg hne, hi, loopHead_some (by omega)]
  | @entry k hk h0 hc hcnt =>
    refine Or.inr ⟨1, ?_, .entry hk hc rfl⟩
    have hne : s.currentBuffer ≠ s.startBuffer := fun h => by
      have := hI.ring_inj (h ▸ hc ▸ hI.entry) hk
      omega
    have hindex : (σ.buffer s.currentBuffer).index = none := hc ▸ hI.entryIndex
    rw [TSStack.loopEnd, if_neg hne, hindex, loopHead_none hcnt]
  | @up k c hk hc hle h0 hcnt =>
    rcases Nat.lt_or_eq_of_le hle with hlt | rfl
    · refine Or.inr ⟨s.entryCounter, ?_, .up hk hc hlt hcnt⟩
      obtain ⟨i, -, hi, -⟩ := hI.ring_index hc h0
      have hne : s.currentBuffer ≠ s.startBuffer := fun h => by
        have := hI.ring_inj (h ▸ hc) hk
        omega
      rw [TSStack.loopEnd, if_neg hne, hi, loopHead_some (by omega)]
    · have he : s.currentBuffer = s.startBuffer := Option.some.inj (hc.symm.trans hk)
      exact Or.inl ⟨if_pos he, fun j hj => by omega⟩
  | back hs hc hcnt => exact Or.inl ⟨if_pos (hc.trans hs.symm), fun _ h => h⟩

/-- A scan that begins anywhere in the ring will visit all of it. -/
theorem loopHead_init (hI : HeapInv n σ g) {b : ℕ} (hb : b ∈ g.ring) (time : T.Time) :
    ∃ counter rest, (loopHead (σ.buffer b).index (.init time b) : Local α T ⊕ BagRet α) =
        .inl (.loadBuffer { Scan.init time b with entryCounter := counter }) ∧
      Leaving g.ring b b counter rest ∧ ∀ j, rest j := by
  obtain ⟨k, hk⟩ := List.mem_iff_getElem?.mp hb
  rcases Nat.eq_zero_or_pos k with rfl | h0
  · obtain rfl : entryBuffer = b := Option.some.inj (hI.entry.symm.trans hk)
    refine ⟨1, _, ?_, .entry hk rfl rfl, fun j => Nat.zero_le j⟩
    rw [hI.entryIndex, loopHead_none rfl]
  · obtain ⟨i, -, hi, -⟩ := hI.ring_index hk h0
    refine ⟨0, _, ?_, .down hk hk h0 le_rfl rfl, fun j => Nat.lt_or_ge j k⟩
    rw [hi, loopHead_some (by decide : (0 : ℕ) < 2)]
    rfl

/-- The random steps stay in the ring. -/
theorem HeapInv.next_mem (hI : HeapInv n σ g) {b : ℕ} (hb : b ∈ g.ring) :
    (σ.buffer b).next ∈ g.ring := by
  obtain ⟨k, hk⟩ := List.mem_iff_getElem?.mp hb
  rcases Nat.eq_zero_or_pos k with rfl | h0
  · obtain rfl : entryBuffer = b := Option.some.inj (hI.entry.symm.trans hk)
    exact List.mem_of_getElem? hI.entryNext
  · obtain ⟨k, rfl⟩ : ∃ m, k = m + 1 := ⟨k - 1, by omega⟩
    have hlt := Chain.lt_length hk
    have hget : g.ring[k]? = some g.ring[k] := List.getElem?_eq_getElem (by omega)
    rw [hI.ringNext k _ _ hget hk]
    exact List.getElem_mem _

end Ring

/-! ### The bag -/

/-- The item at position `key.2` of buffer `key.1`, if it is not taken. -/
def itemAt (σ : Shared α T) (g : Ghost) (key : ℕ × ℕ) : Option α :=
  ((g.items key.1)[key.2]?).bind fun p => if (σ.item p).taken then none else (σ.item p).data

theorem itemAt_some {σ : Shared α T} {g : Ghost} {b k p : ℕ} (hp : (g.items b)[k]? = some p) :
    itemAt σ g (b, k) = if (σ.item p).taken then none else (σ.item p).data := by
  rw [itemAt, hp]
  rfl

theorem itemAt_none {σ : Shared α T} {g : Ghost} {b k : ℕ} (hp : (g.items b)[k]? = none) :
    itemAt σ g (b, k) = none := by
  rw [itemAt, hp]
  rfl

/-- The bag does not depend on the other fields of the items. -/
theorem itemAt_congr {σ σ' : Shared α T} {g g' : Ghost} (hitems : g'.items = g.items)
    (hitem : ∀ (b k p : ℕ), (g.items b)[k]? = some p →
      (σ'.item p).taken = (σ.item p).taken ∧ (σ'.item p).data = (σ.item p).data) :
    itemAt σ' g' = itemAt σ g := by
  funext ⟨b, k⟩
  rw [itemAt, itemAt, hitems]
  cases hp : (g.items b)[k]? with
  | none => rfl
  | some p =>
    obtain ⟨h1, h2⟩ := hitem b k p hp
    rw [Option.bind_some, Option.bind_some, h1, h2]

/-! ### Changes of the memory -/

/-- The entry buffer's sentinel is the only item at first. -/
def Ghost.init : Ghost where
  items b := if b = entryBuffer then [1] else []
  ring := [entryBuffer]
  time _ := 0
  now := 1
  owner _ := 0
  saw _ := false

section Changes

variable {n t b p : ℕ} {σ σ' : Shared α T} {g : Ghost} {x : α}

theorem Ghost.init_items {k : ℕ} (h : (Ghost.init.items b)[k]? = some p) :
    b = entryBuffer ∧ k = 0 ∧ p = 1 := by
  have h : (if b = entryBuffer then [1] else [])[k]? = some p := h
  split_ifs at h with hb
  · rw [List.getElem?_singleton] at h
    split_ifs at h with hk
    exact ⟨hb, hk, (Option.some.inj h).symm⟩
  · simp at h

theorem init_inv : HeapInv n (.init : Shared α T) Ghost.init where
  alloc := Nat.two_pos
  bound b k p h := by
    obtain ⟨-, -, rfl⟩ := Ghost.init_items h
    exact ⟨Nat.one_ne_zero, Nat.one_lt_two⟩
  unique b k b' k' p h h' := by
    obtain ⟨rfl, rfl, -⟩ := Ghost.init_items h
    obtain ⟨rfl, rfl, -⟩ := Ghost.init_items h'
    exact ⟨rfl, rfl⟩
  entryItems := rfl
  entryIndex := rfl
  registered t ht := absurd rfl ht
  unregistered b hb := by
    refine Or.inl ?_
    by_contra h
    exact hb (if_neg h)
  entry := rfl
  ringMem k b h := by simp [Ghost.init] at h
  ringNodup := by simp [Ghost.init]
  ringNext k b c _ h := by simp [Ghost.init] at h
  entryNext := rfl
  linked b p h := by
    obtain ⟨-, h0, -⟩ := Ghost.init_items h
    omega
  list b hb := by
    have h : b = entryBuffer := by
      by_contra h
      exact hb (if_neg h)
    subst h
    refine ⟨0, rfl, fun k q hk hq => ?_⟩
    obtain ⟨-, rfl, -⟩ := Ghost.init_items hq
    exact absurd hk (Nat.lt_irrefl _)
  sentinel b p h := by
    obtain ⟨-, -, rfl⟩ := Ghost.init_items h
    exact ⟨rfl, rfl⟩
  next b k p h := by
    obtain ⟨-, h0, -⟩ := Ghost.init_items h
    omega
  data b k p h := by
    obtain ⟨-, h0, -⟩ := Ghost.init_items h
    omega
  remembered t i := Or.inl rfl
  time b k p _ _ := Nat.zero_lt_one

theorem itemAt_init : itemAt (.init : Shared α T) Ghost.init = fun _ => none := by
  funext ⟨b, k⟩
  cases hp : (Ghost.init.items b)[k]? with
  | none => exact itemAt_none hp
  | some p =>
    rw [itemAt_some hp]
    rfl

theorem HeapInv.mem_lt (hI : HeapInv n σ g) (hp : p ∈ g.items b) : p < σ.alloc := by
  obtain ⟨k, hk⟩ := List.mem_iff_getElem?.mp hp
  exact (hI.bound b k p hk).2

/-- Only the fields that the invariant is about matter, and only those of linked items. -/
theorem HeapInv.congr (hI : HeapInv n σ g) {owner : ℕ → ℕ} (halloc : σ.alloc ≤ σ'.alloc)
    (hitem : ∀ (b k p : ℕ), (g.items b)[k]? = some p → (σ'.item p).taken = (σ.item p).taken ∧
      (σ'.item p).next = (σ.item p).next ∧ (σ'.item p).data = (σ.item p).data ∧
      owner p = g.owner p)
    (hbuffer : σ'.buffer = σ.buffer) (hsp : σ'.spBuffers = σ.spBuffers)
    (he : σ'.emptinessCheckPointers = σ.emptinessCheckPointers) :
    HeapInv n σ' { g with owner := owner } := by
  have hT : ∀ {b : ℕ} {p : ℕ → Prop}, Taken σ g b p → Taken σ' { g with owner := owner } b p :=
    fun h k q hk hq => (hitem _ k q hq).1.trans (h k q hk hq)
  refine { hI with
    alloc := hI.alloc.trans_le halloc
    bound := ?_
    entryIndex := ?_
    registered := ?_
    unregistered := ?_
    ringMem := ?_
    ringNext := ?_
    entryNext := ?_
    list := ?_
    sentinel := ?_
    next := ?_
    data := ?_
    remembered := ?_
    time := ?_ }
  · intro b k p hp
    obtain ⟨h0, hlt⟩ := hI.bound b k p hp
    exact ⟨h0, hlt.trans_le halloc⟩
  · rw [hbuffer]
    exact hI.entryIndex
  · rw [hbuffer, hsp]
    exact hI.registered
  · rw [hsp]
    exact hI.unregistered
  · rw [hsp]
    exact hI.ringMem
  · rw [hbuffer]
    exact hI.ringNext
  · rw [hbuffer]
    exact hI.entryNext
  · intro b hb
    obtain ⟨k, hk, h⟩ := hI.list b hb
    rw [hbuffer]
    exact ⟨k, hk, hT h⟩
  · intro b p hp
    obtain ⟨h1, h2, -, -⟩ := hitem b 0 p hp
    rw [h1, h2]
    exact hI.sentinel b p hp
  · intro b k p hp
    obtain ⟨j, q, hj, hq, hn, h⟩ := hI.next b k p hp
    exact ⟨j, q, hj, hq, (hitem b _ p hp).2.1.trans hn, hT h⟩
  · intro b k p hp
    obtain ⟨-, -, h3, h4⟩ := hitem b _ p hp
    show b = bufferOf (owner p) ∧ _
    rw [h3, h4]
    exact hI.data b k p hp
  · intro t i
    rw [he]
    refine (hI.remembered t i).imp_right ?_
    rintro ⟨k, hk, h⟩
    exact ⟨k, hk, hT h⟩
  · intro b k p hp h
    exact hI.time b k p hp ((hitem b k p hp).1.symm.trans h)

/-- And so for what the others rely on. -/
theorem Rely.congr (u : ℕ) {owner : ℕ → ℕ} (halloc : σ.alloc ≤ σ'.alloc)
    (hitem : ∀ (b k p : ℕ), (g.items b)[k]? = some p → (σ'.item p).taken = (σ.item p).taken ∧
      (σ'.item p).next = (σ.item p).next)
    (hdata : ∀ p < σ.alloc, (σ'.item p).data = (σ.item p).data)
    (hown : ∀ p < σ.alloc, g.owner p = u → owner p = u ∧
      (σ'.item p).timestamp = (σ.item p).timestamp ∧
      ((∀ b, p ∉ g.items b) → σ'.item p = σ.item p))
    (hbuffer : σ'.buffer = σ.buffer) (hsp : σ'.spBuffers = σ.spBuffers)
    (he : σ'.emptinessCheckPointers = σ.emptinessCheckPointers) :
    Rely u σ g σ' { g with owner := owner } := by
  refine { Rely.refl u σ g with
    alloc := halloc
    data := hdata
    taken := ?_
    later := ?_
    next := ?_
    list := ?_
    spBuffer := ?_
    unlinked := ?_
    own := ?_
    remembered := ?_ }
  · intro b k p hp h
    exact ⟨(hitem b k p hp).1.trans h, rfl⟩
  · intro b k p c m q _ _ hq hf ht
    rw [(hitem c m q hq).1, hf] at ht
    cases ht
  · exact fun b k p hp => (hitem b k p hp).2
  · rw [hbuffer]
    exact (Rely.refl u σ g).list
  · rw [hsp]
  · rw [hbuffer]
    exact (Rely.refl u σ g).unlinked
  · intro p hp ho
    obtain ⟨h1, h2, h3⟩ := hown p hp ho
    exact ⟨h1, h2, fun hu => ⟨hu, h3 hu⟩⟩
  · rw [he]

/-- A new item is in no buffer. -/
theorem HeapInv.newItem (hI : HeapInv n σ g) (t : ℕ) (x : α) :
    HeapInv n (σ.newItem x) { g with owner := Function.update g.owner σ.alloc t } ∧
      Own t σ.alloc x 0 (σ.newItem x) { g with owner := Function.update g.owner σ.alloc t } ∧
      (∀ u, Rely u σ g (σ.newItem x) { g with owner := Function.update g.owner σ.alloc t }) ∧
      itemAt (σ.newItem x) { g with owner := Function.update g.owner σ.alloc t } =
        itemAt σ g := by
  have hold : ∀ q < σ.alloc, (σ.newItem x).item q = σ.item q := fun q hq =>
    Function.update_of_ne (Nat.ne_of_lt hq) ..
  have hown : ∀ q < σ.alloc, Function.update g.owner σ.alloc t q = g.owner q := fun q hq =>
    Function.update_of_ne (Nat.ne_of_lt hq) ..
  have hlinked : ∀ (b k q : ℕ), (g.items b)[k]? = some q → (σ.newItem x).item q = σ.item q :=
    fun b k q hq => hold q (hI.bound b k q hq).2
  refine ⟨hI.congr (Nat.le_succ _) (fun b k q hq => ?_) rfl rfl rfl,
    ⟨Function.update_self .., Nat.lt_succ_self _, Nat.ne_of_gt hI.alloc,
      fun b hm => Nat.lt_irrefl _ (hI.mem_lt hm), Function.update_self ..⟩,
    fun u => .congr u (Nat.le_succ _) (fun b k q hq => ?_) (fun q hq => ?_)
      (fun q hq ho => ?_) rfl rfl rfl, itemAt_congr rfl fun b k q hq => ?_⟩
  · rw [hlinked b k q hq]
    exact ⟨rfl, rfl, rfl, hown q (hI.bound b k q hq).2⟩
  · rw [hlinked b k q hq]
    exact ⟨rfl, rfl⟩
  · rw [hold q hq]
  · rw [hold q hq]
    exact ⟨(hown q hq).trans ho, rfl, fun _ => rfl⟩
  · rw [hlinked b k q hq]
    exact ⟨rfl, rfl⟩

/-- The owner of a private item stores its `next`. -/
theorem HeapInv.setNext (hI : HeapInv n σ g) (ho : Own t p x 0 σ g) (top : ℕ) :
    HeapInv n (σ.setNext p top) g ∧ Own t p x top (σ.setNext p top) g ∧
      (∀ u, u ≠ t → Rely u σ g (σ.setNext p top) g) ∧
      itemAt (σ.setNext p top) g = itemAt σ g := by
  have hold : ∀ q, q ≠ p → (σ.setNext p top).item q = σ.item q := fun q hq =>
    Function.update_of_ne hq ..
  have hne : ∀ {b k q : ℕ}, (g.items b)[k]? = some q → q ≠ p := by
    rintro b k q hq rfl
    exact ho.unlinked b (List.mem_of_getElem? hq)
  have hself : (σ.setNext p top).item p = { σ.item p with next := top } :=
    Function.update_self ..
  refine ⟨hI.congr le_rfl (fun b k q hq => ?_) rfl rfl rfl,
    ⟨ho.owner, ho.lt, ho.ne, ho.unlinked, by rw [hself, ho.item]⟩,
    fun u hu => .congr u le_rfl (fun b k q hq => ?_) (fun q hq => ?_) (fun q hq hqo => ?_)
      rfl rfl rfl, itemAt_congr rfl fun b k q hq => ?_⟩
  · rw [hold q (hne hq)]
    exact ⟨rfl, rfl, rfl, rfl⟩
  · rw [hold q (hne hq)]
    exact ⟨rfl, rfl⟩
  · by_cases hqp : q = p
    · subst hqp
      rw [hself]
    · rw [hold q hqp]
  · have hqp : q ≠ p := by
      rintro rfl
      exact hu (hqo.symm.trans ho.owner)
    rw [hold q hqp]
    exact ⟨hqo, rfl, fun _ => rfl⟩
  · rw [hold q (hne hq)]
    exact ⟨rfl, rfl⟩

/-- A thread stores the timestamp of its own item. -/
theorem HeapInv.setStamp (hI : HeapInv n σ g) (hp : (Fact.linked p : Fact α T).Holds t σ g)
    (clock : T.Clock) (timestamp : T.Stamp) :
    HeapInv n (σ.setStamp p clock timestamp) g ∧
      (∀ u, u ≠ t → Rely u σ g (σ.setStamp p clock timestamp) g) ∧
      itemAt (σ.setStamp p clock timestamp) g = itemAt σ g := by
  have hold : ∀ q, q ≠ p → (σ.setStamp p clock timestamp).item q = σ.item q := fun q hq =>
    Function.update_of_ne hq ..
  have hkeep : ∀ q, ((σ.setStamp p clock timestamp).item q).taken = (σ.item q).taken ∧
      ((σ.setStamp p clock timestamp).item q).next = (σ.item q).next ∧
      ((σ.setStamp p clock timestamp).item q).data = (σ.item q).data := by
    intro q
    by_cases hq : q = p
    · subst hq
      simp [Shared.setStamp]
    · rw [hold q hq]
      exact ⟨rfl, rfl, rfl⟩
  obtain ⟨-, howner, hmem⟩ := hp
  refine ⟨hI.congr le_rfl (fun b k q hq => ?_) rfl rfl rfl,
    fun u hu => .congr u le_rfl (fun b k q hq => ?_) (fun q _ => (hkeep q).2.2)
      (fun q hq hqo => ?_) rfl rfl rfl,
    itemAt_congr rfl fun b k q hq => ⟨(hkeep q).1, (hkeep q).2.2⟩⟩
  · obtain ⟨h1, h2, h3⟩ := hkeep q
    exact ⟨h1, h2, h3, rfl⟩
  · obtain ⟨h1, h2, -⟩ := hkeep q
    exact ⟨h1, h2⟩
  · have hqp : q ≠ p := by
      rintro rfl
      exact hu (hqo.symm.trans howner)
    rw [hold q hqp]
    exact ⟨hqo, rfl, fun _ => rfl⟩

/-! Registration. -/

/-- A thread without a buffer has no items. -/
theorem HeapInv.noItems (hI : HeapInv n σ g) (ht : σ.spBuffers t = 0) :
    g.items (bufferOf t) = [] ∧ bufferOf t ∉ g.ring := by
  constructor
  · by_contra h
    rcases hI.unregistered _ h with h | ⟨i, h, hi⟩
    · exact bufferOf_ne_entry t h
    · exact hi (bufferOf_injective h ▸ ht)
  · intro hm
    obtain ⟨k, hk⟩ := List.mem_iff_getElem?.mp hm
    cases k with
    | zero => exact bufferOf_ne_entry t (Option.some.inj (hk.symm.trans hI.entry))
    | succ k =>
      obtain ⟨i, h, hi⟩ := hI.ringMem k _ hk
      exact hi (bufferOf_injective h ▸ ht)

/-- The ghost state after `register_thread` made a buffer with the sentinel `p`. -/
def Ghost.newBuffer (g : Ghost) (t p : ℕ) : Ghost :=
  { g with
    items := Function.update g.items (bufferOf t) [p]
    time := Function.update g.time p g.now
    now := g.now + 1 }

@[simp] theorem Ghost.newBuffer_self : (g.newBuffer t p).items (bufferOf t) = [p] :=
  Function.update_self ..

theorem Ghost.newBuffer_of_ne (hb : b ≠ bufferOf t) : (g.newBuffer t p).items b = g.items b :=
  Function.update_of_ne hb ..

theorem Ghost.newBuffer_items {k q : ℕ} (h : ((g.newBuffer t p).items b)[k]? = some q) :
    b ≠ bufferOf t ∧ (g.items b)[k]? = some q ∨ b = bufferOf t ∧ k = 0 ∧ q = p := by
  by_cases hb : b = bufferOf t
  · rw [hb, Ghost.newBuffer_self, List.getElem?_singleton] at h
    split_ifs at h with hk
    exact Or.inr ⟨hb, hk, (Option.some.inj h).symm⟩
  · rw [Ghost.newBuffer_of_ne hb] at h
    exact Or.inl ⟨hb, h⟩

theorem Shared.newBuffer_buffer (hb : b ≠ bufferOf t) : (σ.newBuffer t).buffer b = σ.buffer b :=
  Function.update_of_ne hb ..

@[simp] theorem Shared.newBuffer_spBuffers_self : (σ.newBuffer t).spBuffers t = bufferOf t :=
  Function.update_self ..

theorem Shared.newBuffer_spBuffers {u : ℕ} (hu : u ≠ t) :
    (σ.newBuffer t).spBuffers u = σ.spBuffers u := Function.update_of_ne hu ..

@[simp] theorem Shared.newBuffer_item_self :
    (σ.newBuffer t).item σ.alloc = TSStack.sentinel α T σ.alloc := Function.update_self ..

theorem Shared.newBuffer_item {q : ℕ} (hq : q < σ.alloc) :
    (σ.newBuffer t).item q = σ.item q := Function.update_of_ne (Nat.ne_of_lt hq) ..

/-- The new buffer had no items. -/
theorem HeapInv.ne_of_noBuffer (hI : HeapInv n σ g) (ht : σ.spBuffers t = 0) {k q : ℕ}
    (h : (g.items b)[k]? = some q) : b ≠ bufferOf t := by
  rintro rfl
  rw [(hI.noItems ht).1] at h
  cases h

section NewBuffer

variable (hI : HeapInv n σ g) (ht : σ.spBuffers t = 0)
include hI

theorem HeapInv.newBuffer_item {k q : ℕ} (h : (g.items b)[k]? = some q) :
    (σ.newBuffer t).item q = σ.item q := Shared.newBuffer_item (hI.bound _ _ _ h).2

theorem HeapInv.newBuffer_time {k q : ℕ} (h : (g.items b)[k]? = some q) :
    (g.newBuffer t σ.alloc).time q = g.time q :=
  Function.update_of_ne (Nat.ne_of_lt (hI.bound _ _ _ h).2) ..

theorem HeapInv.newBuffer_taken {p : ℕ → Prop} (h : Taken σ g b p) (hb : b ≠ bufferOf t) :
    Taken (σ.newBuffer t) (g.newBuffer t σ.alloc) b p := by
  intro k q hk hq
  rw [Ghost.newBuffer_of_ne hb] at hq
  rw [hI.newBuffer_item hq]
  exact h k q hk hq

include ht

theorem HeapInv.newBuffer_mono {k q : ℕ} (h : (g.items b)[k]? = some q) :
    ((g.newBuffer t σ.alloc).items b)[k]? = some q := by
  rwa [Ghost.newBuffer_of_ne (hI.ne_of_noBuffer ht h)]

theorem HeapInv.newBuffer_inv (htn : t < n) :
    HeapInv n (σ.newBuffer t) (g.newBuffer t σ.alloc) := by
  have hmem : ∀ {k c : ℕ}, g.ring[k]? = some c → c ≠ bufferOf t := by
    rintro k c h rfl
    exact (hI.noItems ht).2 (List.mem_of_getElem? h)
  constructor
  · exact Nat.succ_pos _
  · intro b k q h
    rcases Ghost.newBuffer_items h with ⟨-, h⟩ | ⟨-, -, rfl⟩
    · obtain ⟨h0, hlt⟩ := hI.bound b k q h
      exact ⟨h0, Nat.lt_succ_of_lt hlt⟩
    · exact ⟨Nat.ne_of_gt hI.alloc, Nat.lt_succ_self _⟩
  · intro b k b' k' q h h'
    rcases Ghost.newBuffer_items h with ⟨-, h⟩ | ⟨hb, hk, hq⟩
    · rcases Ghost.newBuffer_items h' with ⟨-, h'⟩ | ⟨-, -, hq⟩
      · exact hI.unique b k b' k' q h h'
      · have := (hI.bound b k q h).2
        omega
    · rcases Ghost.newBuffer_items h' with ⟨-, h'⟩ | ⟨hb', hk', -⟩
      · have := (hI.bound b' k' q h').2
        omega
      · exact ⟨hb.trans hb'.symm, hk.trans hk'.symm⟩
  · rw [Ghost.newBuffer_of_ne (bufferOf_ne_entry t).symm]
    exact hI.entryItems
  · rw [Shared.newBuffer_buffer (bufferOf_ne_entry t).symm]
    exact hI.entryIndex
  · intro i hi
    by_cases hit : i = t
    · subst hit
      refine ⟨htn, Shared.newBuffer_spBuffers_self, ?_, by simp⟩
      simp [Shared.newBuffer]
    · have hb := bufferOf_injective.ne hit
      rw [Shared.newBuffer_spBuffers hit] at hi ⊢
      rw [Shared.newBuffer_buffer hb, Ghost.newBuffer_of_ne hb]
      exact hI.registered i hi
  · intro b hb
    by_cases hbt : b = bufferOf t
    · exact Or.inr ⟨t, hbt, by rw [Shared.newBuffer_spBuffers_self, bufferOf]; omega⟩
    · rw [Ghost.newBuffer_of_ne hbt] at hb
      refine (hI.unregistered b hb).imp_right ?_
      rintro ⟨i, rfl, hi⟩
      exact ⟨i, rfl, by rwa [Shared.newBuffer_spBuffers fun h => hbt (by rw [h])]⟩
  · exact hI.entry
  · intro k b h
    obtain ⟨i, rfl, hi⟩ := hI.ringMem k b h
    exact ⟨i, rfl, by rwa [Shared.newBuffer_spBuffers fun hit => hmem h (by rw [hit])]⟩
  · exact hI.ringNodup
  · intro k b c h h'
    rw [Shared.newBuffer_buffer (hmem h')]
    exact hI.ringNext k b c h h'
  · rw [Shared.newBuffer_buffer (bufferOf_ne_entry t).symm]
    exact hI.entryNext
  · intro b q h
    rcases Ghost.newBuffer_items h with ⟨-, h⟩ | ⟨-, h, -⟩
    · exact hI.linked b q h
    · omega
  · intro b hb
    by_cases hbt : b = bufferOf t
    · subst hbt
      refine ⟨0, ?_, fun k q hk hq => ?_⟩
      · rw [Ghost.newBuffer_self]
        simp [Shared.newBuffer]
      · rcases Ghost.newBuffer_items hq with ⟨h, -⟩ | ⟨-, rfl, -⟩
        · exact absurd rfl h
        · exact absurd hk (Nat.lt_irrefl _)
    · rw [Ghost.newBuffer_of_ne hbt] at hb
      obtain ⟨k, hk, h⟩ := hI.list b hb
      rw [Shared.newBuffer_buffer hbt]
      exact ⟨k, hI.newBuffer_mono ht hk, hI.newBuffer_taken h hbt⟩
  · intro b q h
    rcases Ghost.newBuffer_items h with ⟨-, h⟩ | ⟨-, -, rfl⟩
    · rw [hI.newBuffer_item h]
      exact hI.sentinel b q h
    · rw [Shared.newBuffer_item_self]
      exact ⟨rfl, rfl⟩
  · intro b k q h
    rcases Ghost.newBuffer_items h with ⟨hb, h⟩ | ⟨-, h, -⟩
    · obtain ⟨j, r, hj, hr, hn, h'⟩ := hI.next b k q h
      rw [hI.newBuffer_item h]
      exact ⟨j, r, hj, hI.newBuffer_mono ht hr, hn, hI.newBuffer_taken h' hb⟩
    · omega
  · intro b k q h
    rcases Ghost.newBuffer_items h with ⟨-, h⟩ | ⟨-, h, -⟩
    · rw [hI.newBuffer_item h]
      exact hI.data b k q h
    · omega
  · intro u i
    refine (hI.remembered u i).imp_right ?_
    rintro ⟨k, hk, h⟩
    exact ⟨k, hI.newBuffer_mono ht hk, hI.newBuffer_taken h (hI.ne_of_noBuffer ht hk)⟩
  · intro b k q h hq
    rcases Ghost.newBuffer_items h with ⟨-, h⟩ | ⟨-, -, rfl⟩
    · rw [hI.newBuffer_item h] at hq
      rw [hI.newBuffer_time h]
      exact Nat.lt_succ_of_lt (hI.time b k q h hq)
    · show Function.update g.time σ.alloc g.now σ.alloc < g.now + 1
      rw [Function.update_self]
      exact Nat.lt_succ_self _

theorem HeapInv.newBuffer_rely {u : ℕ} (hu : u ≠ t) :
    Rely u σ g (σ.newBuffer t) (g.newBuffer t σ.alloc) := by
  have hub : bufferOf u ≠ bufferOf t := bufferOf_injective.ne hu
  refine { Rely.refl u σ g with
    items := ?_
    alloc := Nat.le_succ _
    data := fun q hq => by rw [Shared.newBuffer_item hq]
    taken := fun b k q h hq => ⟨by rwa [hI.newBuffer_item h], hI.newBuffer_time h⟩
    later := ?_
    next := fun b k q h => by rw [hI.newBuffer_item h]
    list := ?_
    buffer := Ghost.newBuffer_of_ne hub
    spBuffer := Shared.newBuffer_spBuffers hu
    unlinked := fun h => ⟨h, by rw [Shared.newBuffer_buffer hub]⟩
    own := ?_ }
  · intro b
    by_cases hb : b = bufferOf t
    · rw [hb, (hI.noItems ht).1]
      exact List.nil_prefix
    · rw [Ghost.newBuffer_of_ne hb]
  · intro b k q c m r _ _ hr hf ht'
    rw [hI.newBuffer_item hr, hf] at ht'
    cases ht'
  · intro b k h
    rw [Shared.newBuffer_buffer (hI.ne_of_noBuffer ht h)]
    exact ⟨k, _, hI.newBuffer_mono ht h, rfl, fun h => absurd h (Nat.lt_irrefl _),
      fun m _ hm => by omega⟩
  · intro q hq ho
    have hkeep := Shared.newBuffer_item (t := t) hq
    refine ⟨ho, by rw [hkeep], fun hun => ⟨fun b hm => ?_, hkeep⟩⟩
    obtain ⟨k, hk⟩ := List.mem_iff_getElem?.mp hm
    rcases Ghost.newBuffer_items hk with ⟨-, hk⟩ | ⟨-, -, rfl⟩
    · exact hun b (List.mem_of_getElem? hk)
    · exact Nat.lt_irrefl _ hq

/-- The sentinel is not in the bag. -/
theorem HeapInv.newBuffer_itemAt :
    itemAt (σ.newBuffer t) (g.newBuffer t σ.alloc) = itemAt σ g := by
  funext ⟨b, k⟩
  by_cases hb : b = bufferOf t
  · have hnone : (g.items b)[k]? = none := by
      rw [hb, (hI.noItems ht).1]
      rfl
    rw [itemAt_none hnone]
    cases hq : ((g.newBuffer t σ.alloc).items b)[k]? with
    | none => exact itemAt_none hq
    | some q =>
      rcases Ghost.newBuffer_items hq with ⟨h, -⟩ | ⟨-, -, rfl⟩
      · exact absurd hb h
      · rw [itemAt_some hq, Shared.newBuffer_item_self]
        rfl
  · cases hq : (g.items b)[k]? with
    | none =>
      have hq' : ((g.newBuffer t σ.alloc).items b)[k]? = none := by
        rw [Ghost.newBuffer_of_ne hb, hq]
      rw [itemAt_none hq, itemAt_none hq']
    | some q =>
      rw [itemAt_some hq, itemAt_some (hI.newBuffer_mono ht hq), hI.newBuffer_item hq]

end NewBuffer

/-- The `next` pointer of a buffer that is not in the ring. -/
theorem HeapInv.setBufferNext (hI : HeapInv n σ g) (ht : bufferOf t ∉ g.ring) (next : ℕ) :
    HeapInv n (σ.setBufferNext (bufferOf t) next) g ∧
      (∀ u, u ≠ t → Rely u σ g (σ.setBufferNext (bufferOf t) next) g) ∧
      ((σ.setBufferNext (bufferOf t) next).buffer (bufferOf t)).next = next := by
  have hkeep : ∀ b, ((σ.setBufferNext (bufferOf t) next).buffer b).list = (σ.buffer b).list ∧
      ((σ.setBufferNext (bufferOf t) next).buffer b).index = (σ.buffer b).index := by
    intro b
    by_cases hb : b = bufferOf t
    · subst hb
      simp [Shared.setBufferNext]
    · simp [Shared.setBufferNext, Function.update_of_ne hb]
  have hold : ∀ b, b ≠ bufferOf t →
      (σ.setBufferNext (bufferOf t) next).buffer b = σ.buffer b := fun b hb =>
    Function.update_of_ne hb ..
  refine ⟨{ hI with
      entryIndex := (hkeep _).2.trans hI.entryIndex
      registered := fun i hi => ?_
      ringNext := fun k b c h h' => ?_
      entryNext := ?_
      list := fun b hb => ?_ }, fun u hu => { Rely.refl u σ g with
      list := fun b k h => ?_
      unlinked := fun h => ⟨h, ?_⟩ }, by simp [Shared.setBufferNext]⟩
  · rw [(hkeep _).2]
    exact hI.registered i hi
  · rw [hold c fun hc => ht (hc ▸ List.mem_of_getElem? h')]
    exact hI.ringNext k b c h h'
  · rw [hold _ (bufferOf_ne_entry t).symm]
    exact hI.entryNext
  · rw [(hkeep b).1]
    exact hI.list b hb
  · rw [(hkeep b).1]
    exact (Rely.refl u σ g).list b k h
  · rw [hold _ (bufferOf_injective.ne hu)]

/-- **Registering**: the `compare_exchange` links the buffer after the entry buffer. -/
theorem HeapInv.linkBuffer (hI : HeapInv n σ g) (hsp : σ.spBuffers t ≠ 0)
    (ht : bufferOf t ∉ g.ring)
    (hnext : (σ.buffer (bufferOf t)).next = (σ.buffer entryBuffer).next) :
    HeapInv n (σ.setBufferNext entryBuffer (bufferOf t)) { g with ring := g.ring ++ [bufferOf t] } ∧
      ∀ u, u ≠ t → Rely u σ g (σ.setBufferNext entryBuffer (bufferOf t))
        { g with ring := g.ring ++ [bufferOf t] } := by
  have hkeep : ∀ b, ((σ.setBufferNext entryBuffer (bufferOf t)).buffer b).list =
      (σ.buffer b).list ∧ ((σ.setBufferNext entryBuffer (bufferOf t)).buffer b).index =
      (σ.buffer b).index := by
    intro b
    by_cases hb : b = entryBuffer
    · subst hb
      simp [Shared.setBufferNext]
    · simp [Shared.setBufferNext, Function.update_of_ne hb]
  have hold : ∀ b, b ≠ entryBuffer →
      (σ.setBufferNext entryBuffer (bufferOf t)).buffer b = σ.buffer b := fun b hb =>
    Function.update_of_ne hb ..
  have hlen := Chain.lt_length hI.entry
  have hmono : ∀ {k b : ℕ}, g.ring[k]? = some b → (g.ring ++ [bufferOf t])[k]? = some b :=
    fun h => Chain.getElem?_mono (List.prefix_append ..) h
  -- a buffer of the ring was there before, or it is the new one
  have hcases : ∀ {k b : ℕ}, (g.ring ++ [bufferOf t])[k]? = some b →
      g.ring[k]? = some b ∨ k = g.ring.length ∧ b = bufferOf t := getElem?_concat_cases
  refine ⟨{ hI with
      entryIndex := (hkeep _).2.trans hI.entryIndex
      registered := fun i hi => ?_
      entry := hmono hI.entry
      ringMem := fun k b h => ?_
      ringNodup := ?_
      ringNext := fun k b c h h' => ?_
      entryNext := ?_
      linked := fun b p h => List.mem_append_left _ (hI.linked b p h)
      list := fun b hb => ?_ }, fun u hu => { Rely.refl u σ g with
      ring := List.prefix_append ..
      list := fun b k h => ?_
      unlinked := fun h => ⟨fun hm => ?_, ?_⟩ }⟩
  · rw [(hkeep _).2]
    exact hI.registered i hi
  · rcases hcases h with h | ⟨-, rfl⟩
    · exact hI.ringMem k b h
    · exact ⟨t, rfl, hsp⟩
  · refine List.nodup_append.mpr ⟨hI.ringNodup, by simp, fun a ha b hb => ?_⟩
    obtain rfl := List.mem_singleton.mp hb
    exact fun h => ht (h ▸ ha)
  · rcases hcases h' with h' | ⟨hk, rfl⟩
    · have hlt := Chain.lt_length h'
      rcases hcases h with h | ⟨hk, -⟩
      · have hc : c ≠ entryBuffer := fun hc => by
          have := hI.ring_inj (hc ▸ h') hI.entry
          omega
        rw [hold c hc]
        exact hI.ringNext k b c h h'
      · omega
    · -- the new buffer's `next` is the buffer that was linked last
      rcases hcases h with h | ⟨hk', -⟩
      · have hk' : g.ring.length - 1 = k := by omega
        have hlast := hI.entryNext
        rw [hk', h, Option.some.injEq] at hlast
        rw [hold _ (bufferOf_ne_entry t), hnext, ← hlast]
      · omega
  · rw [List.length_append, List.length_singleton, Nat.add_sub_cancel,
      List.getElem?_concat_length]
    simp [Shared.setBufferNext]
  · rw [(hkeep b).1]
    exact hI.list b hb
  · rw [(hkeep b).1]
    exact (Rely.refl u σ g).list b k h
  · rcases List.mem_append.mp hm with hm | hm
    · exact h hm
    · exact hu (by rw [List.mem_singleton, bufferOf, bufferOf] at hm; omega)
  · rw [hold _ (bufferOf_ne_entry u)]

/-! Items. -/

/-- The ghost state after thread `t` linked the item `p`. -/
def Ghost.push (g : Ghost) (t p : ℕ) : Ghost :=
  { g with items := Function.update g.items (bufferOf t) (g.items (bufferOf t) ++ [p]) }

@[simp] theorem Ghost.push_self : (g.push t p).items (bufferOf t) = g.items (bufferOf t) ++ [p] :=
  Function.update_self ..

theorem Ghost.push_of_ne (hb : b ≠ bufferOf t) : (g.push t p).items b = g.items b :=
  Function.update_of_ne hb ..

theorem Ghost.push_last :
    ((g.push t p).items (bufferOf t))[(g.items (bufferOf t)).length]? = some p := by
  rw [Ghost.push_self, List.getElem?_concat_length]

theorem Ghost.prefix_push (b : ℕ) : g.items b <+: (g.push t p).items b := by
  by_cases hb : b = bufferOf t
  · rw [hb, Ghost.push_self]
    exact List.prefix_append ..
  · rw [Ghost.push_of_ne hb]

theorem Ghost.push_mono {k q : ℕ} (h : (g.items b)[k]? = some q) :
    ((g.push t p).items b)[k]? = some q := Chain.getElem?_mono (Ghost.prefix_push b) h

/-- An item is an old one, or it is the new one. -/
theorem Ghost.push_items {k q : ℕ} (h : ((g.push t p).items b)[k]? = some q) :
    (g.items b)[k]? = some q ∨ b = bufferOf t ∧ k = (g.items (bufferOf t)).length ∧ q = p := by
  by_cases hb : b = bufferOf t
  · rw [hb, Ghost.push_self] at h
    rcases getElem?_concat_cases h with h | h
    · exact Or.inl (hb ▸ h)
    · exact Or.inr ⟨hb, h⟩
  · rw [Ghost.push_of_ne hb] at h
    exact Or.inl h

/-- Below an old item there are old items only. -/
theorem Ghost.push_old {k m q r : ℕ} (hq : (g.items b)[k]? = some q) (hm : m ≤ k)
    (hr : ((g.push t p).items b)[m]? = some r) : (g.items b)[m]? = some r := by
  rcases Ghost.push_items hr with h | ⟨rfl, rfl, -⟩
  · exact h
  · have := Chain.lt_length hq
    omega

@[simp] theorem Shared.setList_index (c : ℕ) (w : TaggedPointer) :
    ((σ.setList b w).buffer c).index = (σ.buffer c).index := by
  by_cases hc : c = b
  · subst hc
    simp [Shared.setList]
  · simp [Shared.setList, Function.update_of_ne hc]

@[simp] theorem Shared.setList_next (c : ℕ) (w : TaggedPointer) :
    ((σ.setList b w).buffer c).next = (σ.buffer c).next := by
  by_cases hc : c = b
  · subst hc
    simp [Shared.setList]
  · simp [Shared.setList, Function.update_of_ne hc]

theorem Shared.setList_buffer {c : ℕ} (hc : c ≠ b) (w : TaggedPointer) :
    (σ.setList b w).buffer c = σ.buffer c := Function.update_of_ne hc ..

@[simp] theorem Shared.setList_list (b : ℕ) (w : TaggedPointer) :
    ((σ.setList b w).buffer b).list = w := by
  simp [Shared.setList]

section Push

variable {w : TaggedPointer} {i top : ℕ} (ho : Own t p x top σ g) (hw : w.pointer = p)
include ho

/-- The new item is in the bag. -/
theorem Own.push_itemAt : itemAt (σ.setList (bufferOf t) w) (g.push t p) =
    Function.update (itemAt σ g) (bufferOf t, (g.items (bufferOf t)).length) (some x) := by
  funext ⟨b, k⟩
  by_cases hkey : (b, k) = (bufferOf t, (g.items (bufferOf t)).length)
  · obtain ⟨rfl, rfl⟩ := Prod.mk.inj hkey
    rw [Function.update_self, itemAt_some Ghost.push_last]
    show (if (σ.item p).taken then none else (σ.item p).data) = some x
    rw [ho.item]
    rfl
  · rw [Function.update_of_ne hkey]
    cases hq : (g.items b)[k]? with
    | some q =>
      rw [itemAt_some hq, itemAt_some (Ghost.push_mono hq)]
      rfl
    | none =>
      rw [itemAt_none hq]
      refine itemAt_none ?_
      cases hq' : ((g.push t p).items b)[k]? with
      | none => rfl
      | some q =>
        rcases Ghost.push_items hq' with h | ⟨hb, hk, -⟩
        · rw [hq] at h
          cases h
        · exact absurd (by rw [hb, hk]) hkey

include hw

/-- The new item's `next` passes taken items only. -/
theorem Own.push_inv (hI : HeapInv n σ g)
    (htop : (g.items (bufferOf t))[i]? = some top) (hT : Taken σ g (bufferOf t) (i < ·))
    (hsp : σ.spBuffers t ≠ 0) (ht : bufferOf t ∈ g.ring) :
    HeapInv n (σ.setList (bufferOf t) w) (g.push t p) := by
  have hlen := Chain.lt_length htop
  have hnew : ∀ {b k : ℕ}, (g.items b)[k]? ≠ some p := fun {b k} h =>
    ho.unlinked b (List.mem_of_getElem? h)
  have hnil : ∀ {b : ℕ}, (g.push t p).items b ≠ [] → b ≠ bufferOf t → g.items b ≠ [] :=
    fun {b} h hb => by rwa [Ghost.push_of_ne hb] at h
  refine { hI with
    bound := fun b k q hq => ?_
    unique := fun b k b' k' q hq hq' => ?_
    entryItems := ?_
    entryIndex := (Shared.setList_index ..).trans hI.entryIndex
    registered := fun u hu => ?_
    unregistered := fun b hb => ?_
    ringNext := fun k b c hb hc => (Shared.setList_next ..).trans (hI.ringNext k b c hb hc)
    entryNext := (Shared.setList_next (σ := σ) entryBuffer w).symm ▸ hI.entryNext
    linked := fun b q hq => ?_
    list := fun b hb => ?_
    sentinel := fun b q hq => ?_
    next := fun b k q hq => ?_
    data := fun b k q hq => ?_
    remembered := fun u j => ?_
    time := fun b k q hq hq' => ?_ }
  · rcases Ghost.push_items hq with h | ⟨-, -, rfl⟩
    · exact hI.bound b k q h
    · exact ⟨ho.ne, ho.lt⟩
  · rcases Ghost.push_items hq with h | ⟨hb, hk, hqp⟩
    · rcases Ghost.push_items hq' with h' | ⟨-, -, hqp⟩
      · exact hI.unique b k b' k' q h h'
      · exact absurd (hqp ▸ h) hnew
    · rcases Ghost.push_items hq' with h' | ⟨hb', hk', -⟩
      · exact absurd (hqp ▸ h') hnew
      · exact ⟨hb.trans hb'.symm, hk.trans hk'.symm⟩
  · rw [Ghost.push_of_ne (bufferOf_ne_entry t).symm]
    exact hI.entryItems
  · obtain ⟨h1, h2, h3, h4⟩ := hI.registered u hu
    refine ⟨h1, h2, (Shared.setList_index ..).trans h3, fun h => h4 ?_⟩
    exact List.prefix_nil.mp (h ▸ Ghost.prefix_push _)
  · by_cases hbt : b = bufferOf t
    · exact Or.inr ⟨t, hbt, hsp⟩
    · exact hI.unregistered b (hnil hb hbt)
  · rcases Ghost.push_items hq with h | ⟨rfl, -, -⟩
    · exact hI.linked b q h
    · exact ht
  · by_cases hbt : b = bufferOf t
    · subst hbt
      refine ⟨(g.items (bufferOf t)).length, ?_, fun m q hm hq => ?_⟩
      · rw [Shared.setList_list, hw]
        exact Ghost.push_last
      · rcases Ghost.push_items hq with h | ⟨-, h, -⟩
        · have := Chain.lt_length h
          omega
        · omega
    · obtain ⟨k, hk, hT'⟩ := hI.list b (hnil hb hbt)
      rw [Shared.setList_buffer hbt]
      refine ⟨k, Ghost.push_mono hk, fun m q hm hq => ?_⟩
      rcases Ghost.push_items hq with h | ⟨h, -, -⟩
      · exact hT' m q hm h
      · exact absurd h hbt
  · rcases Ghost.push_items hq with h | ⟨-, h, -⟩
    · exact hI.sentinel b q h
    · omega
  · rcases Ghost.push_items hq with h | ⟨rfl, hk, rfl⟩
    · obtain ⟨j, r, hj, hr, hn, hT'⟩ := hI.next b k q h
      exact ⟨j, r, hj, Ghost.push_mono hr, hn, fun m s hm hs =>
        hT' m s hm (Ghost.push_old h (by omega) hs)⟩
    · refine ⟨i, top, by omega, Ghost.push_mono htop, ?_, fun m s hm hs => ?_⟩
      · show (σ.item q).next = top
        rw [ho.item]
      · have hlast : (g.items (bufferOf t))[k]? = some (g.items (bufferOf t))[k] :=
          List.getElem?_eq_getElem (by omega)
        exact hT m s hm.1 (Ghost.push_old hlast hm.2 hs)
  · rcases Ghost.push_items hq with h | ⟨rfl, -, rfl⟩
    · exact hI.data b k q h
    · refine ⟨by rw [← ho.owner]; rfl, ?_⟩
      show (σ.item q).data.isSome = true
      rw [ho.item]
      rfl
  · refine (hI.remembered u j).imp_right ?_
    rintro ⟨k, hk, hT'⟩
    exact ⟨k, Ghost.push_mono hk, fun m q hm hq => hT' m q hm (Ghost.push_old hk hm hq)⟩
  · rcases Ghost.push_items hq with h | ⟨-, -, rfl⟩
    · exact hI.time b k q h hq'
    · have hq' : (σ.item q).taken = true := hq'
      rw [ho.item] at hq'
      cases hq'

/-- A list pointer moves up. -/
theorem Own.push_rely {u : ℕ} (hu : u ≠ t) :
    Rely u σ g (σ.setList (bufferOf t) w) (g.push t p) := by
  refine { Rely.refl u σ g with
    items := Ghost.prefix_push
    list := fun b k hk => ?_
    buffer := Ghost.push_of_ne (bufferOf_injective.ne hu)
    unlinked := fun h => ⟨h, Shared.setList_next ..⟩
    own := fun q hq hqo => ?_ }
  · by_cases hb : b = bufferOf t
    · subst hb
      have hlt := Chain.lt_length hk
      exact ⟨(g.items (bufferOf t)).length, p, Ghost.push_last,
        by rw [Shared.setList_list, hw], fun h => by omega, fun m _ hm => by omega⟩
    · rw [Shared.setList_buffer hb]
      exact ⟨k, _, Ghost.push_mono hk, rfl, fun h => absurd h (Nat.lt_irrefl _),
        fun m _ hm => by omega⟩
  · refine ⟨hqo, rfl, fun hun => ⟨fun b hm => ?_, rfl⟩⟩
    obtain ⟨k, hk⟩ := List.mem_iff_getElem?.mp hm
    rcases Ghost.push_items hk with hk | ⟨-, -, rfl⟩
    · exact hun b (List.mem_of_getElem? hk)
    · exact hu (hqo.symm.trans ho.owner)

end Push

/-- **Taking** an item takes it out of the bag. -/
theorem HeapInv.take (hI : HeapInv n σ g) {k : ℕ} (hp : (g.items b)[k]? = some p)
    (hfree : (σ.item p).taken = false) :
    HeapInv n (σ.take p)
        { g with time := Function.update g.time p g.now, now := g.now + 1 } ∧
      (∀ u, Rely u σ g (σ.take p)
        { g with time := Function.update g.time p g.now, now := g.now + 1 }) ∧
      (σ.item p).data.isSome = true ∧ itemAt σ g (b, k) = (σ.item p).data ∧
      itemAt (σ.take p) { g with time := Function.update g.time p g.now, now := g.now + 1 } =
        Function.update (itemAt σ g) (b, k) none := by
  have hold : ∀ q, q ≠ p → (σ.take p).item q = σ.item q := fun q hq =>
    Function.update_of_ne hq ..
  have hself : (σ.take p).item p = { σ.item p with taken := true } := Function.update_self ..
  have hkeep : ∀ q, ((σ.take p).item q).next = (σ.item q).next ∧
      ((σ.take p).item q).data = (σ.item q).data ∧
      ((σ.take p).item q).timestamp = (σ.item q).timestamp ∧
      ((σ.item q).taken = true → ((σ.take p).item q).taken = true) := by
    intro q
    by_cases hq : q = p
    · subst hq
      rw [hself]
      exact ⟨rfl, rfl, rfl, fun _ => rfl⟩
    · rw [hold q hq]
      exact ⟨rfl, rfl, rfl, id⟩
  have htaken : ∀ q, (σ.item q).taken = true → q ≠ p := by
    rintro q hq rfl
    rw [hfree] at hq
    cases hq
  have hT : ∀ {c : ℕ} {P : ℕ → Prop}, Taken σ g c P → Taken (σ.take p)
      { g with time := Function.update g.time p g.now, now := g.now + 1 } c P :=
    fun h m q hm hq => (hkeep q).2.2.2 (h m q hm hq)
  have htime : ∀ q, (σ.item q).taken = true → Function.update g.time p g.now q = g.time q :=
    fun q hq => Function.update_of_ne (htaken q hq) ..
  obtain ⟨k, rfl⟩ : ∃ m, k = m + 1 := by
    cases k with
    | zero => exact absurd rfl (htaken p (hI.sentinel b p hp).1)
    | succ m => exact ⟨m, rfl⟩
  refine ⟨{ hI with
      list := fun c hc => ?_
      sentinel := fun c q hq => ?_
      next := fun c m q hq => ?_
      data := fun c m q hq => ?_
      remembered := fun u j => ?_
      time := fun c m q hq hq' => ?_ }, fun u => { Rely.refl u σ g with
      data := fun q _ => (hkeep q).2.1
      taken := fun c m q _ hq => ⟨(hkeep q).2.2.2 hq, htime q hq⟩
      later := fun c m q c' m' r hq hqt hr hrf hrt => ?_
      next := fun c m q _ => (hkeep q).1
      list := fun c m hm => ?_
      own := fun q _ hqo => ⟨hqo, (hkeep q).2.2.1, fun hun => ⟨hun, hold q ?_⟩⟩ },
    (hI.data b k p hp).2, ?_, ?_⟩
  · obtain ⟨m, hm, h⟩ := hI.list c hc
    exact ⟨m, hm, hT h⟩
  · rw [hold q (htaken q (hI.sentinel c q hq).1)]
    exact hI.sentinel c q hq
  · obtain ⟨j, r, hj, hr, hn, h⟩ := hI.next c m q hq
    exact ⟨j, r, hj, hr, (hkeep q).1.trans hn, hT h⟩
  · rw [(hkeep q).2.1]
    exact hI.data c m q hq
  · refine (hI.remembered u j).imp_right ?_
    rintro ⟨m, hm, h⟩
    exact ⟨m, hm, hT h⟩
  · show Function.update g.time p g.now q < g.now + 1
    by_cases hqp : q = p
    · rw [hqp, Function.update_self]
      exact Nat.lt_succ_self _
    · rw [Function.update_of_ne hqp]
      rw [hold q hqp] at hq'
      exact Nat.lt_succ_of_lt (hI.time c m q hq hq')
  · show Function.update g.time p g.now q < Function.update g.time p g.now r
    have hrp : r = p := by
      by_contra h
      rw [hold r h, hrf] at hrt
      cases hrt
    rw [htime q hqt, hrp, Function.update_self]
    exact hI.time c m q hq hqt
  · exact (Rely.refl u σ g).list c m hm
  · rintro rfl
    exact hun b (List.mem_of_getElem? hp)
  · rw [itemAt_some hp, hfree]
    rfl
  · funext ⟨c, m⟩
    by_cases hkey : (c, m) = (b, k + 1)
    · obtain ⟨rfl, rfl⟩ := Prod.mk.inj hkey
      have hp' : (({ g with time := Function.update g.time p g.now, now := g.now + 1 } :
          Ghost).items c)[k + 1]? = some p := hp
      rw [Function.update_self, itemAt_some hp', hself]
      rfl
    · rw [Function.update_of_ne hkey]
      cases hq : (g.items c)[m]? with
      | none => rw [itemAt_none hq]; exact itemAt_none hq
      | some q =>
        have hqp : q ≠ p := by
          rintro rfl
          obtain ⟨rfl, rfl⟩ := hI.unique _ _ _ _ _ hq hp
          exact hkey rfl
        rw [itemAt_some hq]
        refine (itemAt_some hq).trans ?_
        rw [hold q hqp]

/-- **A late move of a list pointer** passes only items taken before the one it moves to. -/
theorem HeapInv.swapList (hI : HeapInv n σ g) {w w' : TaggedPointer}
    (hp : (Fact.pending b w p : Fact α T).Holds t σ g) (hw : (σ.buffer b).list = w)
    (hw' : w'.pointer = p) :
    HeapInv n (σ.setList b w') g ∧ (∀ u, Rely u σ g (σ.setList b w') g) := by
  subst hw
  obtain ⟨i, k, hi, hk, hpt, hT⟩ := hp
  have hkeep : ∀ c, ((σ.setList b w').buffer c).index = (σ.buffer c).index ∧
      ((σ.setList b w').buffer c).next = (σ.buffer c).next := by
    intro c
    by_cases hc : c = b
    · subst hc
      simp [Shared.setList]
    · simp [Shared.setList, Function.update_of_ne hc]
  have hold : ∀ c, c ≠ b → (σ.setList b w').buffer c = σ.buffer c := fun c hc =>
    Function.update_of_ne hc ..
  have hself : ((σ.setList b w').buffer b).list.pointer = p := by
    simp [Shared.setList, hw']
  refine ⟨{ hI with
      entryIndex := (hkeep _).1.trans hI.entryIndex
      registered := fun u hu => ?_
      ringNext := fun m c d hc hd => (hkeep d).2.trans (hI.ringNext m c d hc hd)
      entryNext := (hkeep entryBuffer).2 ▸ hI.entryNext
      list := fun c hc => ?_ }, fun u => { Rely.refl u σ g with
      list := fun c m hm => ?_
      unlinked := fun h => ⟨h, (hkeep _).2⟩ }⟩
  · rw [(hkeep _).1]
    exact hI.registered u hu
  · obtain ⟨m, hm, h⟩ := hI.list c hc
    by_cases hcb : c = b
    · subst hcb
      rw [hself]
      obtain rfl : k = m := (hI.unique _ _ _ _ _ hk hm).2
      refine ⟨i, hi, fun j q hj hq => ?_⟩
      rcases Nat.lt_or_ge k j with hkj | hjk
      · exact h j q hkj hq
      · exact (hT j q ⟨hj, hjk⟩ hq).1
    · rw [hold c hcb]
      exact ⟨m, hm, h⟩
  · by_cases hcb : c = b
    · subst hcb
      obtain rfl : k = m := (hI.unique _ _ _ _ _ hk hm).2
      exact ⟨i, p, hi, hself, fun _ => hpt, hT⟩
    · rw [hold c hcb]
      exact (Rely.refl u σ g).list c m hm

/-- A popper remembers a list pointer whose items are all taken. -/
theorem HeapInv.remember (hI : HeapInv n σ g) {i : ℕ} {w : TaggedPointer}
    (hw : (Fact.cleared (bufferOf i) w : Fact α T).Holds t σ g) :
    HeapInv n (σ.setEmptinessCheck t i w) g ∧
      ∀ u, u ≠ t → Rely u σ g (σ.setEmptinessCheck t i w) g := by
  refine ⟨{ hI with remembered := fun u j => ?_ }, fun u hu => { Rely.refl u σ g with
    remembered := Function.update_of_ne hu .. }⟩
  by_cases hu : u = t
  · subst hu
    by_cases hj : j = i
    · subst hj
      obtain ⟨k, hk, h⟩ := hw
      exact Or.inr ⟨k, by simpa [Shared.setEmptinessCheck] using hk, h⟩
    · have he : (σ.setEmptinessCheck u i w).emptinessCheckPointers u j =
          σ.emptinessCheckPointers u j := by simp [Shared.setEmptinessCheck, hj]
      rw [he]
      exact hI.remembered u j
  · have he : (σ.setEmptinessCheck t i w).emptinessCheckPointers u j =
        σ.emptinessCheckPointers u j := by simp [Shared.setEmptinessCheck, hu]
    rw [he]
    exact hI.remembered u j

/-- What the thread saw is no part of the invariant. -/
theorem HeapInv.setSaw (hI : HeapInv n σ g) (t : ℕ) (s : Bool) :
    HeapInv n σ { g with saw := Function.update g.saw t s } ∧
      ∀ u, u ≠ t → Rely u σ g σ { g with saw := Function.update g.saw t s } :=
  ⟨{ hI with }, fun u hu => { Rely.refl u σ g with saw := Function.update_of_ne hu .. }⟩

end Changes

end TSStack

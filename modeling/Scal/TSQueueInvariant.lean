/-
The buffers of the timestamped queue in every reachable state.

* `Ghost` — the items of every buffer and how many of them are removed;
* `HeapInv` — the pointers `insert_[b]`, `remove_[b]` and the remembered emptiness check
  pointers are items of buffer `b`, in this order of positions;
* `Fact` — what a thread knows, however long it is delayed.  A dequeuer that has found
  nothing yet knows that all buffers were empty when its scan began, or that a buffer it
  still has to look at holds an item behind the pointer it remembers (`Fence`);
* `access_ok` — what one access does (`Effect`), and that it keeps all this.
-/
import Scal.TSQueue
import Scal.Chain

open Interleave Linearizability

namespace TSQueue

variable {α : Type} {T : TimeStamp}

/-- The items of buffer `b`, from its sentinel on, the position of `remove_[b]` in them,
the thread that allocated an item, and whether all buffers were empty when a thread's last
scan began. -/
structure Ghost where
  items : ℕ → List ℕ
  removed : ℕ → ℕ
  owner : ℕ → ℕ
  saw : ℕ → Bool

/-- No buffer has an item that is not removed. -/
def Ghost.Empty (g : Ghost) : Prop := ∀ b, (g.items b).length ≤ g.removed b + 1

structure HeapInv (n : ℕ) (σ : Shared α T) (g : Ghost) : Prop where
  bound : ∀ (b k p : ℕ), (g.items b)[k]? = some p → p ≠ 0 ∧ p < σ.alloc
  unique : ∀ (b k b' k' p : ℕ), (g.items b)[k]? = some p → (g.items b')[k']? = some p →
    b = b' ∧ k = k'
  outside : ∀ b, n ≤ b → g.items b = []
  insert : ∀ b < n, (g.items b)[(g.items b).length - 1]? = some (σ.insert b)
  remove : ∀ b < n, (g.items b)[g.removed b]? = some (σ.remove b).pointer
  next : ∀ (b k p q : ℕ), (g.items b)[k]? = some p → (g.items b)[k + 1]? = some q →
    (σ.item p).next = q
  data : ∀ (b k p : ℕ), 1 ≤ k → (g.items b)[k]? = some p →
    g.owner p = b ∧ (σ.item p).data.isSome = true
  remembered : ∀ t b, b < n → (σ.emptinessCheckPointers t b).pointer = 0 ∨
    ∃ k ≤ g.removed b, (g.items b)[k]? = some (σ.emptinessCheckPointers t b).pointer

/-- An item that thread `t` allocated and has not linked yet. -/
structure Own (t p : ℕ) (element : α) (σ : Shared α T) (g : Ghost) : Prop where
  owner : g.owner p = t
  lt : p < σ.alloc
  ne : p ≠ 0
  unlinked : ∀ b, p ∉ g.items b
  item : σ.item p = ⟨0, some element, T.initTopAtomic⟩

/-- An item of thread `t` that is in no buffer, whatever its timestamp is. -/
structure Fresh (t p : ℕ) (element : α) (σ : Shared α T) (g : Ghost) : Prop where
  owner : g.owner p = t
  lt : p < σ.alloc
  ne : p ≠ 0
  unlinked : ∀ b, p ∉ g.items b
  data : (σ.item p).data = some element

/-- What thread `u` relies on about the steps of other threads. -/
structure Rely (u : ℕ) (σ : Shared α T) (g : Ghost) (σ' : Shared α T) (g' : Ghost) : Prop where
  items : ∀ b, g.items b <+: g'.items b
  removed : ∀ b, g.removed b ≤ g'.removed b
  alloc : σ.alloc ≤ σ'.alloc
  data : ∀ p < σ.alloc, (σ'.item p).data = (σ.item p).data
  buffer : g'.items u = g.items u
  insert : σ'.insert u = σ.insert u
  next : ∀ p ∈ g.items u, (σ'.item p).next = (σ.item p).next
  own : ∀ p < σ.alloc, g.owner p = u → g'.owner p = u ∧
    (σ'.item p).timestamp = (σ.item p).timestamp ∧
    ((∀ b, p ∉ g.items b) → (∀ b, p ∉ g'.items b) ∧ σ'.item p = σ.item p)
  remembered : σ'.emptinessCheckPointers u = σ.emptinessCheckPointers u
  saw : g'.saw u = g.saw u

theorem Rely.refl (u : ℕ) (σ : Shared α T) (g : Ghost) : Rely u σ g σ g where
  items _ := List.prefix_refl _
  removed _ := le_rfl
  alloc := le_rfl
  data _ _ := rfl
  buffer := rfl
  insert := rfl
  next _ _ := rfl
  own _ _ ho := ⟨ho, rfl, fun hp => ⟨hp, rfl⟩⟩
  remembered := rfl
  saw := rfl

/-! ### What a thread knows -/

/-- Thread `t` remembers a pointer of buffer `b` before an item of it. -/
def Fence (t b : ℕ) (σ : Shared α T) (g : Ghost) : Prop :=
  ∃ m < (g.items b).length, (σ.emptinessCheckPointers t b).pointer = 0 ∨
    ∃ k < m, (g.items b)[k]? = some (σ.emptinessCheckPointers t b).pointer

/-- All buffers were empty when the scan began, or there is a fence at one of the buffers
from index `i` of the scan on. -/
def Fenced (n t start i : ℕ) (σ : Shared α T) (g : Ghost) : Prop :=
  g.saw t = true ∨ ∃ j, i ≤ j ∧ j < n ∧ Fence t ((start + j) % n) σ g

/-- The item after the one of `w` in buffer `b` is `p`. -/
def Successor (b : ℕ) (w : TaggedPointer) (p : ℕ) (g : Ghost) : Prop :=
  ∃ k, (g.items b)[k]? = some w.pointer ∧ (g.items b)[k + 1]? = some p

/-- Facts that stay true once they are true. -/
inductive Fact (α : Type) (T : TimeStamp) where
  /-- The item is private and holds the element. -/
  | own (p : ℕ) (element : α)
  /-- The item is the thread's last one. -/
  | last (p : ℕ)
  /-- The last item's `next` is this one. -/
  | nextStored (p : ℕ)
  /-- The thread linked the item. -/
  | linked (p : ℕ)
  /-- `remove_[b]` once was this word. -/
  | removeRead (b : ℕ) (w : TaggedPointer)
  /-- And `insert_[b]` was this item later. -/
  | insertRead (b : ℕ) (w : TaggedPointer) (p : ℕ)
  | successor (b : ℕ) (w : TaggedPointer) (p : ℕ)
  /-- If nothing was found yet, there is a fence ahead. -/
  | fenced (s : Scan T)
  /-- If nothing is found in the current buffer either, there is a fence ahead. -/
  | fencedNext (s : Scan T) (w : TaggedPointer) (p : ℕ)
  /-- The oldest item found until now. -/
  | result (s : Scan T)
  /-- The thread removed the item. -/
  | taken (p : ℕ)

def Fact.Holds (n t : ℕ) (σ : Shared α T) (g : Ghost) : Fact α T → Prop
  | .own p x => Own t p x σ g
  | .last p => σ.insert t = p
  | .nextStored p => (σ.item (σ.insert t)).next = p ∧ σ.insert t ∈ g.items t
  | .linked p => p < σ.alloc ∧ g.owner p = t ∧ p ∈ g.items t
  | .removeRead b w => ∃ k ≤ g.removed b, (g.items b)[k]? = some w.pointer
  | .insertRead b w p => ∃ k m, k ≤ m ∧ k ≤ g.removed b ∧ (g.items b)[k]? = some w.pointer ∧
    (g.items b)[m]? = some p
  | .successor b w p => Successor b w p g
  | .fenced s => s.empty = true → Fenced n t s.start s.i σ g
  | .fencedNext s w p => s.empty = true → p = w.pointer →
    σ.emptinessCheckPointers t (s.tmpBufferIndex n) = w → Fenced n t s.start (s.i + 1) σ g
  | .result s => s.result ≠ 0 → s.empty = false ∧ s.bufferIndex < n ∧
    Successor s.bufferIndex s.oldRemove s.result g
  | .taken p => p < σ.alloc ∧ (σ.item p).data.isSome = true

theorem Successor.mono {b p : ℕ} {w : TaggedPointer} {g g' : Ghost} (hs : Successor b w p g)
    (hp : g.items b <+: g'.items b) : Successor b w p g' := by
  obtain ⟨k, hk, hk'⟩ := hs
  exact ⟨k, Chain.getElem?_mono hp hk, Chain.getElem?_mono hp hk'⟩

theorem Fenced.rely {n t start i : ℕ} {σ σ' : Shared α T} {g g' : Ghost}
    (hf : Fenced n t start i σ g) (hr : Rely t σ g σ' g') : Fenced n t start i σ' g' := by
  rcases hf with hs | ⟨j, hij, hj, m, hm, he⟩
  · exact Or.inl (hr.saw.trans hs)
  · refine Or.inr ⟨j, hij, hj, m, hm.trans_le (hr.items _).length_le, ?_⟩
    rw [hr.remembered]
    rcases he with h0 | ⟨k, hk, hget⟩
    · exact Or.inl h0
    · exact Or.inr ⟨k, hk, Chain.getElem?_mono (hr.items _) hget⟩

theorem Fact.Holds.rely {n t : ℕ} {σ σ' : Shared α T} {g g' : Ghost} {F : Fact α T}
    (hF : F.Holds n t σ g) (hr : Rely t σ g σ' g') : F.Holds n t σ' g' := by
  have hget : ∀ {b k p : ℕ}, (g.items b)[k]? = some p → (g'.items b)[k]? = some p := fun h =>
    Chain.getElem?_mono (hr.items _) h
  cases F with
  | own p x =>
    obtain ⟨ho, -, hu⟩ := hr.own p hF.lt hF.owner
    obtain ⟨hc, hi⟩ := hu hF.unlinked
    exact ⟨ho, hF.lt.trans_le hr.alloc, hF.ne, hc, hi.trans hF.item⟩
  | last p => exact hr.insert.trans hF
  | nextStored p =>
    obtain ⟨h, hm⟩ := hF
    show (σ'.item (σ'.insert t)).next = p ∧ σ'.insert t ∈ g'.items t
    rw [hr.insert, hr.buffer, hr.next _ hm]
    exact ⟨h, hm⟩
  | linked p =>
    obtain ⟨hlt, ho, hm⟩ := hF
    exact ⟨hlt.trans_le hr.alloc, (hr.own p hlt ho).1, (hr.items t).subset hm⟩
  | removeRead b w =>
    obtain ⟨k, hk, h⟩ := hF
    exact ⟨k, hk.trans (hr.removed b), hget h⟩
  | insertRead b w p =>
    obtain ⟨k, m, hkm, hk, h, h'⟩ := hF
    exact ⟨k, m, hkm, hk.trans (hr.removed b), hget h, hget h'⟩
  | successor b w p => exact hF.mono (hr.items b)
  | fenced s => exact fun h => (hF h).rely hr
  | fencedNext s w p =>
    intro h hp he
    rw [hr.remembered] at he
    exact (hF h hp he).rely hr
  | result s =>
    intro h
    obtain ⟨he, hb, hs⟩ := hF h
    exact ⟨he, hb, hs.mono (hr.items _)⟩
  | taken p =>
    obtain ⟨hlt, hd⟩ := hF
    refine ⟨hlt.trans_le hr.alloc, ?_⟩
    rw [hr.data p hlt]
    exact hd

/-- What a thread knows at each point of its call. -/
def Local.facts (n : ℕ) : Local α T → List (Fact α T)
  | .newItem _ => []
  | .loadOldInsert x p => [.own p x]
  | .storeNext x p old => [.own p x, .last old]
  | .storeInsert x p => [.own p x, .nextStored p]
  | .setTimestamp _ p _ => [.linked p]
  | .readTime _ => []
  | .loadRemove s => [.result s, .fenced s]
  | .loadInsert s w => [.result s, .fenced s, .removeRead (s.tmpBufferIndex n) w]
  | .loadNext s w p =>
    [.result s, .fencedNext s w p, .insertRead (s.tmpBufferIndex n) w p]
  | .loadTimestamp s w p _ => [.result s, .successor (s.tmpBufferIndex n) w p]
  | .checkRemove s => [.result s]
  | .swapRemove s => [.result s]
  | .loadData p => [.taken p]

/-- What the local variables say without reference to the memory. -/
def Local.Shape (n : ℕ) : Local α T → Prop
  | .loadRemove s => s.i < n
  | .loadInsert s _ => s.i < n
  | .loadNext s _ _ => s.i < n
  | .loadTimestamp s _ _ _ => s.i < n ∧ s.empty = false
  | .checkRemove s => s.result ≠ 0
  | .swapRemove s => s.result ≠ 0
  | _ => True

/-- What thread `t` knows at `l`. -/
def Knows (n t : ℕ) (σ : Shared α T) (g : Ghost) (l : Local α T) : Prop :=
  l.Shape n ∧ AllOf (Fact.Holds n t σ g) (l.facts n)

theorem Knows.rely {n t : ℕ} {σ σ' : Shared α T} {g g' : Ghost} {l : Local α T}
    (hl : Knows n t σ g l) (hr : Rely t σ g σ' g') : Knows n t σ' g' l :=
  ⟨hl.1, hl.2.imp fun _ hF => hF.rely hr⟩

/-! ### Changes of the memory -/

/-- The sentinels are the only items at first. -/
def Ghost.init (n : ℕ) : Ghost where
  items b := if b < n then [sentinel b] else []
  removed _ := 0
  owner _ := 0
  saw _ := false

section Changes

variable {n t p b : ℕ} {σ : Shared α T} {g : Ghost} {x : α}

theorem Ghost.init_items {k : ℕ} (h : ((Ghost.init n).items b)[k]? = some p) :
    b < n ∧ k = 0 ∧ p = sentinel b := by
  have h : (if b < n then [sentinel b] else [])[k]? = some p := h
  split_ifs at h with hb
  · rw [List.getElem?_singleton] at h
    split_ifs at h with hk
    exact ⟨hb, hk, (Option.some.inj h).symm⟩
  · simp at h

theorem init_inv : HeapInv n (.init n : Shared α T) (Ghost.init n) where
  bound b k p h := by
    obtain ⟨hb, -, rfl⟩ := Ghost.init_items h
    show b + 1 ≠ 0 ∧ b + 1 < n + 1
    omega
  unique b k b' k' p h h' := by
    obtain ⟨-, rfl, rfl⟩ := Ghost.init_items h
    obtain ⟨-, rfl, he⟩ := Ghost.init_items h'
    exact ⟨Nat.succ.inj he, rfl⟩
  outside b hb := if_neg (by omega)
  insert b hb := by simp [Ghost.init, Shared.init, hb]
  remove b hb := by simp [Ghost.init, Shared.init, hb]
  next b k p q _ h := by
    obtain ⟨-, h0, -⟩ := Ghost.init_items h
    omega
  data b k p hk h := by
    obtain ⟨-, h0, -⟩ := Ghost.init_items h
    omega
  remembered t b _ := Or.inl rfl

/-- A position of buffer `b` holds one item. -/
theorem HeapInv.pos_eq (hI : HeapInv n σ g) {k k' : ℕ} (h : (g.items b)[k]? = some p)
    (h' : (g.items b)[k']? = some p) : k = k' :=
  (hI.unique b k b k' p h h').2

theorem HeapInv.mem_lt (hI : HeapInv n σ g) (hp : p ∈ g.items b) : p < σ.alloc := by
  obtain ⟨k, hk⟩ := List.mem_iff_getElem?.mp hp
  exact (hI.bound b k p hk).2

theorem HeapInv.lt_of_mem (hI : HeapInv n σ g) (hp : p ∈ g.items b) : b < n := by
  by_contra hb
  rw [hI.outside b (by omega)] at hp
  simp at hp

theorem HeapInv.insert_mem (hI : HeapInv n σ g) (hb : b < n) : σ.insert b ∈ g.items b :=
  List.mem_of_getElem? (hI.insert b hb)

theorem HeapInv.removed_lt (hI : HeapInv n σ g) (hb : b < n) :
    g.removed b < (g.items b).length :=
  Chain.lt_length (hI.remove b hb)

/-- An allocation changes no buffer, and the new item is in none. -/
theorem HeapInv.allocate (hI : HeapInv n σ g) (hpos : 0 < σ.alloc) (t : ℕ) (σ' : Shared α T)
    {new : Item α T} (hitem : σ'.item = Function.update σ.item σ.alloc new)
    (halloc : σ'.alloc = σ.alloc + 1) (hinsert : σ'.insert = σ.insert)
    (hremove : σ'.remove = σ.remove)
    (hremembered : σ'.emptinessCheckPointers = σ.emptinessCheckPointers)
    (hnew : new.data = some x) :
    HeapInv n σ' { g with owner := Function.update g.owner σ.alloc t } ∧
      Fresh t σ.alloc x σ' { g with owner := Function.update g.owner σ.alloc t } ∧
      ∀ u, Rely u σ g σ' { g with owner := Function.update g.owner σ.alloc t } := by
  have hold : ∀ q < σ.alloc, σ'.item q = σ.item q := fun q hq => by
    rw [hitem, Function.update_of_ne (Nat.ne_of_lt hq)]
  have hown : ∀ q < σ.alloc, Function.update g.owner σ.alloc t q = g.owner q := fun q hq =>
    Function.update_of_ne (Nat.ne_of_lt hq) ..
  have hnot : ∀ b, σ.alloc ∉ g.items b := fun b hm => Nat.lt_irrefl _ (hI.mem_lt hm)
  have hlt : σ.alloc < σ'.alloc := halloc ▸ Nat.lt_succ_self _
  refine ⟨⟨fun b k q hq => ?_, hI.unique, hI.outside, fun b hb => ?_, fun b hb => ?_,
    fun b k q r hq hr => ?_, fun b k q hk hq => ?_, fun u b hb => ?_⟩,
    ⟨Function.update_self .., hlt, Nat.ne_of_gt hpos, hnot, ?_⟩, fun u => ?_⟩
  · obtain ⟨h0, hq⟩ := hI.bound b k q hq
    exact ⟨h0, hq.trans hlt⟩
  · rw [hinsert]
    exact hI.insert b hb
  · rw [hremove]
    exact hI.remove b hb
  · rw [hold q (hI.bound b k q hq).2]
    exact hI.next b k q r hq hr
  · have hlt := (hI.bound b k q hq).2
    show Function.update g.owner σ.alloc t q = b ∧ _
    rw [hold q hlt, hown q hlt]
    exact hI.data b k q hk hq
  · rw [hremembered]
    exact hI.remembered u b hb
  · rw [hitem, Function.update_self, hnew]
  · constructor
    · exact fun _ => List.prefix_refl _
    · exact fun _ => le_rfl
    · exact hlt.le
    · exact fun q hq => by rw [hold q hq]
    · rfl
    · rw [hinsert]
    · exact fun q hq => by rw [hold q (hI.mem_lt hq)]
    · intro q hq ho
      exact ⟨(hown q hq).trans ho, by rw [hold q hq], fun hu => ⟨hu, hold q hq⟩⟩
    · rw [hremembered]
    · rfl

theorem Own.fresh (ho : Own t p x σ g) : Fresh t p x σ g :=
  ⟨ho.owner, ho.lt, ho.ne, ho.unlinked, by rw [ho.item]⟩

/-- A new item is in no buffer. -/
theorem HeapInv.newItem (hI : HeapInv n σ g) (hpos : 0 < σ.alloc) (t : ℕ) (x : α) :
    HeapInv n (σ.newItem x) { g with owner := Function.update g.owner σ.alloc t } ∧
      Own t σ.alloc x (σ.newItem x) { g with owner := Function.update g.owner σ.alloc t } ∧
      ∀ u, Rely u σ g (σ.newItem x) { g with owner := Function.update g.owner σ.alloc t } := by
  obtain ⟨hH, hf, hr⟩ := hI.allocate hpos t (σ.newItem x) rfl rfl rfl rfl rfl (x := x) rfl
  exact ⟨hH, ⟨hf.owner, hf.lt, hf.ne, hf.unlinked, Function.update_self ..⟩, hr⟩

/-- The owner of a buffer stores the `next` of its last item. -/
theorem HeapInv.setNext (hI : HeapInv n σ g) (ht : t < n) (p : ℕ) :
    HeapInv n (σ.setNext (σ.insert t) p) g ∧
      ∀ u, u ≠ t → Rely u σ g (σ.setNext (σ.insert t) p) g := by
  have hdata : ∀ q, ((σ.setNext (σ.insert t) p).item q).data = (σ.item q).data ∧
      ((σ.setNext (σ.insert t) p).item q).timestamp = (σ.item q).timestamp := by
    intro q
    by_cases hq : q = σ.insert t
    · subst hq
      simp [Shared.setNext]
    · simp [Shared.setNext, Function.update_of_ne hq]
  have hitem : ∀ q, q ≠ σ.insert t → (σ.setNext (σ.insert t) p).item q = σ.item q :=
    fun q hq => Function.update_of_ne hq ..
  have hlast := hI.insert t ht
  refine ⟨⟨hI.bound, hI.unique, hI.outside, hI.insert, hI.remove, fun b k q r hq hr => ?_,
    fun b k q hk hq => ?_, hI.remembered⟩, fun u hu => ?_⟩
  · -- an item with a successor is not the last one
    rw [hitem q fun h => ?_]
    · exact hI.next b k q r hq hr
    · subst h
      obtain ⟨rfl, rfl⟩ := hI.unique _ _ _ _ _ hq hlast
      have := Chain.lt_length hr
      omega
  · rw [(hdata q).1]
    exact hI.data b k q hk hq
  · constructor
    · exact fun _ => List.prefix_refl _
    · exact fun _ => le_rfl
    · exact le_rfl
    · exact fun q _ => (hdata q).1
    · rfl
    · rfl
    · intro q hq
      obtain ⟨k, hk⟩ := List.mem_iff_getElem?.mp hq
      rw [hitem q fun h => hu (hI.unique _ _ _ _ _ (h ▸ hk) hlast).1]
    · intro q _ ho
      refine ⟨ho, (hdata q).2, fun hun => ⟨hun, hitem q ?_⟩⟩
      rintro rfl
      exact hun t (hI.insert_mem ht)
    · rfl
    · rfl

/-- **Linking** appends an item to the buffer of its owner. -/
theorem HeapInv.link (hI : HeapInv n σ g) (ht : t < n) (ho : Fresh t p x σ g)
    (hnext : (σ.item (σ.insert t)).next = p) :
    HeapInv n (σ.setInsert t p)
      { g with items := Function.update g.items t (g.items t ++ [p]) } ∧
      ∀ u, u ≠ t → Rely u σ g (σ.setInsert t p)
        { g with items := Function.update g.items t (g.items t ++ [p]) } := by
  let items := Function.update g.items t (g.items t ++ [p])
  have hlt := hI.removed_lt ht
  have hlast := hI.insert t ht
  have hpre : ∀ b, g.items b <+: items b := by
    intro b
    by_cases hb : b = t
    · subst hb
      show g.items b <+: Function.update g.items b (g.items b ++ [p]) b
      rw [Function.update_self]
      exact List.prefix_append ..
    · show g.items b <+: Function.update g.items t (g.items t ++ [p]) b
      rw [Function.update_of_ne hb]
  have hmono : ∀ {b k q : ℕ}, (g.items b)[k]? = some q → (items b)[k]? = some q := fun h =>
    Chain.getElem?_mono (hpre _) h
  -- an item is an old one, or it is the new one
  have hcases : ∀ {b k q : ℕ}, (items b)[k]? = some q →
      (g.items b)[k]? = some q ∨ b = t ∧ k = (g.items t).length ∧ q = p := by
    intro b k q h
    by_cases hb : b = t
    · subst hb
      have hi : items b = g.items b ++ [p] := Function.update_self ..
      rw [hi] at h
      exact (getElem?_concat_cases h).imp_right fun h => ⟨rfl, h⟩
    · have hi : items b = g.items b := Function.update_of_ne hb ..
      rw [hi] at h
      exact Or.inl h
  have hnew : ∀ {b k : ℕ}, (g.items b)[k]? ≠ some p := fun {b k} h =>
    ho.unlinked b (List.mem_of_getElem? h)
  refine ⟨⟨fun b k q hq => ?_, fun b k b' k' q hq hq' => ?_, fun b hb => ?_, fun b hb => ?_,
    fun b hb => hmono (hI.remove b hb), fun b k q r hq hr => ?_, fun b k q hk hq => ?_,
    fun u b hb => ?_⟩, fun u hu => ?_⟩
  · rcases hcases hq with hq | ⟨-, -, rfl⟩
    · exact hI.bound b k q hq
    · exact ⟨ho.ne, ho.lt⟩
  · rcases hcases hq with h | ⟨hb, hk, hp⟩
    · rcases hcases hq' with h' | ⟨-, -, hp⟩
      · exact hI.unique b k b' k' q h h'
      · exact absurd (hp ▸ h) hnew
    · rcases hcases hq' with h' | ⟨hb', hk', -⟩
      · exact absurd (hp ▸ h') hnew
      · exact ⟨hb.trans hb'.symm, hk.trans hk'.symm⟩
  · show Function.update g.items t (g.items t ++ [p]) b = []
    rw [Function.update_of_ne (by omega)]
    exact hI.outside b hb
  · show (items b)[(items b).length - 1]? = some (Function.update σ.insert t p b)
    by_cases hbt : b = t
    · subst hbt
      have hi : items b = g.items b ++ [p] := Function.update_self ..
      rw [hi, Function.update_self, List.length_append, List.length_singleton,
        Nat.add_sub_cancel, List.getElem?_concat_length]
    · have hi : items b = g.items b := Function.update_of_ne hbt ..
      rw [hi, Function.update_of_ne hbt]
      exact hI.insert b hb
  · show (σ.item q).next = r
    rcases hcases hr with hr' | ⟨rfl, hk, rfl⟩
    · rcases hcases hq with hq | ⟨rfl, rfl, rfl⟩
      · exact hI.next b k q r hq hr'
      · have := Chain.lt_length hr'
        omega
    · -- the new item comes after the old last one
      rcases hcases hq with hq | ⟨-, h, -⟩
      · have hk' : k = (g.items b).length - 1 := by omega
        rw [hk', hlast] at hq
        obtain rfl := Option.some.inj hq
        exact hnext
      · omega
  · rcases hcases hq with hq | ⟨rfl, -, rfl⟩
    · exact hI.data b k q hk hq
    · refine ⟨ho.owner, ?_⟩
      show (σ.item q).data.isSome = true
      rw [ho.data]
      rfl
  · rcases hI.remembered u b hb with h0 | ⟨k, hk, h⟩
    · exact Or.inl h0
    · exact Or.inr ⟨k, hk, hmono h⟩
  · constructor
    · exact hpre
    · exact fun _ => le_rfl
    · exact le_rfl
    · exact fun _ _ => rfl
    · exact Function.update_of_ne hu ..
    · exact Function.update_of_ne hu ..
    · exact fun _ _ => rfl
    · intro q _ hqo
      refine ⟨hqo, rfl, fun hun => ⟨fun b hm => ?_, rfl⟩⟩
      obtain ⟨k, hk⟩ := List.mem_iff_getElem?.mp hm
      rcases hcases hk with hk | ⟨-, -, rfl⟩
      · exact hun b (List.mem_of_getElem? hk)
      · exact hu (hqo.symm.trans ho.owner)
    · rfl
    · rfl

/-- A thread stores the timestamp of its own item. -/
theorem HeapInv.setStamp (hI : HeapInv n σ g) (hp : (Fact.linked p : Fact α T).Holds n t σ g)
    (clock : T.Clock) (timestamp : T.Stamp) :
    HeapInv n (σ.setStamp p clock timestamp) g ∧
      (Fact.linked p : Fact α T).Holds n t (σ.setStamp p clock timestamp) g ∧
      ∀ u, u ≠ t → Rely u σ g (σ.setStamp p clock timestamp) g := by
  have hkeep : ∀ q, ((σ.setStamp p clock timestamp).item q).data = (σ.item q).data ∧
      ((σ.setStamp p clock timestamp).item q).next = (σ.item q).next := by
    intro q
    by_cases hq : q = p
    · subst hq
      simp [Shared.setStamp]
    · simp [Shared.setStamp, Function.update_of_ne hq]
  have hitem : ∀ q, q ≠ p → (σ.setStamp p clock timestamp).item q = σ.item q :=
    fun q hq => Function.update_of_ne hq ..
  obtain ⟨hlt, howner, hmem⟩ := hp
  refine ⟨⟨hI.bound, hI.unique, hI.outside, hI.insert, hI.remove, fun b k q r hq hr => ?_,
    fun b k q hk hq => ?_, hI.remembered⟩, ⟨hlt, howner, hmem⟩, fun u hu => ?_⟩
  · rw [(hkeep q).2]
    exact hI.next b k q r hq hr
  · rw [(hkeep q).1]
    exact hI.data b k q hk hq
  · constructor
    · exact fun _ => List.prefix_refl _
    · exact fun _ => le_rfl
    · exact le_rfl
    · exact fun q _ => (hkeep q).1
    · rfl
    · rfl
    · exact fun q _ => (hkeep q).2
    · intro q _ ho
      have hqp : q ≠ p := by
        rintro rfl
        exact hu (ho.symm.trans howner)
      exact ⟨ho, by rw [hitem q hqp], fun hun => ⟨hun, hitem q hqp⟩⟩
    · rfl
    · rfl

/-- A dequeuer remembers a remove pointer. -/
theorem HeapInv.remember (hI : HeapInv n σ g) {w : TaggedPointer}
    (hw : (Fact.removeRead b w : Fact α T).Holds n t σ g) :
    HeapInv n (σ.setEmptinessCheck t b w) g ∧
      ∀ u, u ≠ t → Rely u σ g (σ.setEmptinessCheck t b w) g := by
  refine ⟨⟨hI.bound, hI.unique, hI.outside, hI.insert, hI.remove, hI.next, hI.data,
    fun u c hc => ?_⟩, fun u hu => ?_⟩
  · by_cases hu : u = t
    · subst hu
      by_cases hcb : c = b
      · subst hcb
        refine Or.inr ?_
        obtain ⟨k, hk, h⟩ := hw
        exact ⟨k, hk, by simpa [Shared.setEmptinessCheck] using h⟩
      · have := hI.remembered u c hc
        simpa [Shared.setEmptinessCheck, Function.update_of_ne hcb] using this
    · have := hI.remembered u c hc
      simpa [Shared.setEmptinessCheck, Function.update_of_ne hu] using this
  · obtain ⟨h1, h2, h3, h4, h5, h6, h7, h8, -, h10⟩ := Rely.refl u σ g
    exact ⟨h1, h2, h3, h4, h5, h6, h7, h8, Function.update_of_ne hu .., h10⟩

/-- **Removing** the item after the one of `remove_[b]`. -/
theorem HeapInv.removeNext (hI : HeapInv n σ g) (hb : b < n)
    (hs : Successor b (σ.remove b) p g) (w : TaggedPointer) (hw : w.pointer = p) :
    (g.items b)[g.removed b + 1]? = some p ∧
      HeapInv n (σ.setRemove b w)
        { g with removed := Function.update g.removed b (g.removed b + 1) } ∧
      ∀ u, Rely u σ g (σ.setRemove b w)
        { g with removed := Function.update g.removed b (g.removed b + 1) } := by
  have hget : (g.items b)[g.removed b + 1]? = some p := by
    obtain ⟨k, hk, hk'⟩ := hs
    rwa [hI.pos_eq hk (hI.remove b hb)] at hk'
  have hle : ∀ c, g.removed c ≤ Function.update g.removed b (g.removed b + 1) c := by
    intro c
    by_cases hc : c = b
    · subst hc
      rw [Function.update_self]
      exact Nat.le_succ _
    · rw [Function.update_of_ne hc]
  refine ⟨hget, ⟨hI.bound, hI.unique, hI.outside, hI.insert, fun c hc => ?_, hI.next, hI.data,
    fun u c hc => ?_⟩, fun u => ?_⟩
  · show (g.items c)[Function.update g.removed b (g.removed b + 1) c]? =
      some (Function.update σ.remove b w c).pointer
    by_cases hcb : c = b
    · subst hcb
      rw [Function.update_self, Function.update_self, hw]
      exact hget
    · rw [Function.update_of_ne hcb, Function.update_of_ne hcb]
      exact hI.remove c hc
  · rcases hI.remembered u c hc with h0 | ⟨k, hk, h⟩
    · exact Or.inl h0
    · exact Or.inr ⟨k, hk.trans (hle c), h⟩
  · obtain ⟨h1, -, h3, h4, h5, h6, h7, h8, h9, h10⟩ := Rely.refl u σ g
    exact ⟨h1, hle, h3, h4, h5, h6, h7, h8, h9, h10⟩

end Changes

/-- A new call forgets what the thread saw. -/
theorem HeapInv.forget {n : ℕ} {σ : Shared α T} {g : Ghost} (hI : HeapInv n σ g) (t : ℕ) :
    HeapInv n σ { g with saw := Function.update g.saw t false } ∧
      ∀ u, u ≠ t → Rely u σ g σ { g with saw := Function.update g.saw t false } := by
  refine ⟨⟨hI.bound, hI.unique, hI.outside, hI.insert, hI.remove, hI.next, hI.data,
    hI.remembered⟩, fun u hu => ?_⟩
  obtain ⟨h1, h2, h3, h4, h5, h6, h7, h8, h9, -⟩ := Rely.refl u σ g
  exact ⟨h1, h2, h3, h4, h5, h6, h7, h8, h9, Function.update_of_ne hu ..⟩

/-! ### One access -/

/-- How far a call has got. -/
inductive Phase (α : Type) where
  | putting (element : α)
  | linked (element : α)
  | getting
  | taken (p : ℕ)

def Local.phase : Local α T → Phase α
  | .newItem x => .putting x
  | .loadOldInsert x _ => .putting x
  | .storeNext x _ _ => .putting x
  | .storeInsert x _ => .putting x
  | .setTimestamp x _ _ => .linked x
  | .loadData p => .taken p
  | _ => .getting

/-- What an access of thread `t` does to the buffers, and to its call. -/
inductive Effect (t : ℕ) (σ : Shared α T) (g : Ghost) :
    Local α T → Local α T ⊕ BagRet α → Ghost → Prop
  | go {l l' : Local α T} {g' : Ghost} : l'.phase = l.phase → g'.items = g.items →
      g'.removed = g.removed → (g'.saw t = true → g.saw t = true ∨ g.Empty) →
      Effect t σ g l (.inl l') g'
  | link {x : α} {p : ℕ} : p < σ.alloc → (σ.item p).data = some x →
      Effect t σ g (.storeInsert x p) (.inl (.setTimestamp x p (T.setTimestamp t)))
        { g with items := Function.update g.items t (g.items t ++ [p]) }
  | take {s : Scan T} :
      (g.items s.bufferIndex)[g.removed s.bufferIndex + 1]? = some s.result →
      Effect t σ g (.swapRemove s) (.inl (.loadData s.result))
        { g with
          removed :=
            Function.update g.removed s.bufferIndex (g.removed s.bufferIndex + 1) }
  | putDone {x : α} {p : ℕ} {setting : T.Setting} :
      Effect t σ g (.setTimestamp x p setting) (.inr (.put true)) g
  | gotDone {x : α} {p : ℕ} : (σ.item p).data = some x →
      Effect t σ g (.loadData p) (.inr (.got (some x))) g
  | gotNone {l : Local α T} : l.phase = .getting → g.saw t = true →
      Effect t σ g l (.inr (.got none)) g

/-- What is to be shown of every access `a` that thread `t` makes from `l`. -/
def StepOk (n t : ℕ) (σ : Shared α T) (g : Ghost) (l : Local α T)
    (a : Shared α T × (Local α T ⊕ BagRet α)) : Prop :=
  ∃ g', HeapInv n a.1 g' ∧ (∀ u, u ≠ t → Rely u σ g a.1 g') ∧
    (∀ l', a.2 = .inl l' → Knows n t a.1 g' l') ∧ Effect t σ g l a.2 g'

section Access

variable {n addresses t : ℕ} {σ σ' : Shared α T} {g : Ghost} {l l' : Local α T} {s : Scan T}

/-- An access that changes no buffer, after which the call goes on. -/
theorem StepOk.quiet (hH : HeapInv n σ' g) (hr : ∀ u, u ≠ t → Rely u σ g σ' g)
    (hp : l'.phase = l.phase) (hk : Knows n t σ' g l') : StepOk n t σ g l (σ', .inl l') := by
  refine ⟨g, hH, hr, fun m hm => ?_, .go hp rfl rfl fun h => Or.inl h⟩
  obtain rfl := Sum.inl.inj hm
  exact hk

theorem StepOk.read (hI : HeapInv n σ g) (hp : l'.phase = l.phase) (hk : Knows n t σ g l') :
    StepOk n t σ g l (σ, .inl l') :=
  .quiet hI (fun _ _ => .refl ..) hp hk

/-- The call returns. -/
theorem StepOk.stop (hH : HeapInv n σ' g) (hr : ∀ u, u ≠ t → Rely u σ g σ' g) {r : BagRet α}
    (he : Effect t σ g l (.inr r) g) : StepOk n t σ g l (σ', .inr r) :=
  ⟨g, hH, hr, fun _ hm => absurd hm (by simp), he⟩

theorem Fenced.saw {start : ℕ} (hf : Fenced n t start n σ g) : g.saw t = true := by
  rcases hf with hs | ⟨j, hij, hj, -⟩
  · exact hs
  · omega

/-- The scan found no element that it could take. -/
theorem noElement_ok (hH : HeapInv n σ' g) (hr : ∀ u, u ≠ t → Rely u σ g σ' g)
    (hl : l.phase = .getting) (hf : s.empty = true → g.saw t = true) :
    StepOk n t σ g l (σ', noElement s) := by
  rw [noElement]
  split_ifs with he
  · exact .stop hH hr (.gotNone hl (hf he))
  · exact .quiet hH hr hl.symm ⟨trivial, trivial⟩

/-- A buffer was looked at, and the loop goes on. -/
theorem nextBuffer_ok (hH : HeapInv n σ' g) (hr : ∀ u, u ≠ t → Rely u σ g σ' g)
    (hl : l.phase = .getting) (hi : s.i < n)
    (hres : (Fact.result s : Fact α T).Holds n t σ' g)
    (hf : s.empty = true → Fenced n t s.start (s.i + 1) σ' g) :
    StepOk n t σ g l (σ', nextBuffer n s) := by
  rw [nextBuffer, afterLoop]
  split_ifs with hlt hres'
  · exact .quiet hH hr hl.symm ⟨hlt, hres, hf⟩
  · exact .quiet hH hr hl.symm ⟨hres'.1, hres⟩
  · refine noElement_ok hH hr hl fun he => ?_
    have hn : s.i + 1 = n := by omega
    exact (hn ▸ hf he).saw

theorem tmpBufferIndex_lt (hi : s.i < n) : s.tmpBufferIndex n < n :=
  Nat.mod_lt _ (by omega)

/-- When the scan begins all buffers are empty, or there is a fence. -/
theorem startScan_ok (hI : HeapInv n σ g) (ht : t < n) (hl : l.phase = .getting)
    (startTime : T.Time) (start : ℕ) :
    StepOk n t σ g l (σ, .inl (.loadRemove (.init startTime start))) := by
  have hn : 0 < n := by omega
  have hres : (Fact.result (Scan.init startTime start) : Fact α T).Holds n t σ g := fun h =>
    absurd rfl h
  by_cases he : g.Empty
  · -- the empty moment is remembered
    refine ⟨{ g with saw := Function.update g.saw t true },
      ⟨hI.bound, hI.unique, hI.outside, hI.insert, hI.remove, hI.next, hI.data, hI.remembered⟩,
      fun u hu => ?_, fun m hm => ?_, .go hl.symm rfl rfl fun _ => Or.inr he⟩
    · obtain ⟨h1, h2, h3, h4, h5, h6, h7, h8, h9, -⟩ := Rely.refl u σ g
      exact ⟨h1, h2, h3, h4, h5, h6, h7, h8, h9, Function.update_of_ne hu ..⟩
    · obtain rfl := Sum.inl.inj hm
      exact ⟨hn, hres, fun _ => Or.inl (Function.update_self ..)⟩
  · obtain ⟨b, hb⟩ := not_forall.mp he
    rw [not_le] at hb
    have hbn : b < n := by
      by_contra h
      rw [hI.outside b (by omega)] at hb
      simp at hb
    obtain ⟨j, hj, hjb⟩ := exists_index (r := start) hbn
    refine .read hI hl.symm ⟨hn, hres, fun _ => Or.inr ⟨j, Nat.zero_le _, hj, ?_⟩⟩
    -- the remembered pointer is not past `remove_[b]`
    show Fence t ((start + j) % n) σ g
    rw [hjb]
    refine ⟨g.removed b + 1, hb, (hI.remembered t b hbn).imp_right ?_⟩
    rintro ⟨k, hk, h⟩
    exact ⟨k, Nat.lt_succ_of_le hk, h⟩

/-- `insert_[b]` is the last item, so a fence at the current buffer is noticed. -/
theorem fencedNext_of_fenced (hI : HeapInv n σ g) (hi : s.i < n) {w : TaggedPointer}
    (hf : (Fact.fenced s : Fact α T).Holds n t σ g) :
    (Fact.fencedNext s w (σ.insert (s.tmpBufferIndex n)) : Fact α T).Holds n t σ g := by
  intro he hp hw
  rcases hf he with hs | ⟨j, hij, hj, hfence⟩
  · exact Or.inl hs
  · rcases Nat.lt_or_eq_of_le hij with hlt | rfl
    · exact Or.inr ⟨j, hlt, hj, hfence⟩
    · exfalso
      obtain ⟨m, hm, hm'⟩ := hfence
      have hlast := hI.insert _ (tmpBufferIndex_lt (s := s) hi)
      have hbuf : (s.start + s.i) % n = s.tmpBufferIndex n := rfl
      rw [hbuf] at hm hm'
      rw [hw, ← hp] at hm'
      rcases hm' with h0 | ⟨k, hk, hget⟩
      · exact (hI.bound _ _ _ hlast).1 h0
      · have := hI.pos_eq hget hlast
        omega

/-- The pointers of a buffer that is not empty have an item between them. -/
theorem successor_of_insertRead (hI : HeapInv n σ g) {b p : ℕ} {w : TaggedPointer}
    (h : (Fact.insertRead b w p : Fact α T).Holds n t σ g) (hne : w.pointer ≠ p) :
    Successor b w (σ.item w.pointer).next g := by
  obtain ⟨k, m, hkm, -, hk, hm⟩ := h
  have hlt : k < m := by
    rcases Nat.lt_or_eq_of_le hkm with h | rfl
    · exact h
    · exact absurd (Option.some.inj (hk.symm.trans hm)) hne
  have hlen : k + 1 < (g.items b).length := by
    have := Chain.lt_length hm
    omega
  have hget : (g.items b)[k + 1]? = some (g.items b)[k + 1] := List.getElem?_eq_getElem hlen
  refine ⟨k, hk, ?_⟩
  rw [hI.next b k _ _ hk hget]
  exact hget

theorem enqueue_ok (hI : HeapInv n σ g) (ht : t < n) (ch : Choice T)
    {a : Shared α T × (Local α T ⊕ BagRet α)} (hk : Knows n t σ g l)
    (hs : step n addresses t ch σ l = some a) (hl : l.phase ≠ .getting)
    (hl' : ∀ p, l ≠ .loadData p) : StepOk n t σ g l a := by
  cases l with
  | newItem x =>
    simp only [step] at hs
    split_ifs at hs
    obtain rfl := Option.some.inj hs
    have hpos : 0 < σ.alloc := Nat.pos_of_ne_zero fun h => by
      have := (hI.bound _ _ _ (hI.insert t ht)).2
      omega
    obtain ⟨hH, hown, hr⟩ := hI.newItem hpos t x
    refine ⟨_, hH, fun u _ => hr u, fun m hm => ?_, .go rfl rfl rfl fun h => Or.inl h⟩
    obtain rfl := Sum.inl.inj hm
    exact ⟨trivial, hown⟩
  | loadOldInsert x p =>
    obtain rfl := Option.some.inj hs
    exact .read hI rfl ⟨trivial, hk.2, rfl⟩
  | storeNext x p old =>
    obtain rfl := Option.some.inj hs
    obtain ⟨-, hown, hlast⟩ := hk
    obtain rfl : σ.insert t = old := hlast
    obtain ⟨hH, hr⟩ := hI.setNext ht p
    have hne : p ≠ σ.insert t := fun h => hown.unlinked t (h ▸ hI.insert_mem ht)
    refine .quiet hH hr rfl ⟨trivial, ⟨hown.owner, hown.lt, hown.ne, hown.unlinked, ?_⟩, ?_,
      hI.insert_mem ht⟩
    · rw [← hown.item]
      exact Function.update_of_ne hne ..
    · show ((σ.setNext (σ.insert t) p).item (σ.insert t)).next = p
      simp [Shared.setNext]
  | storeInsert x p =>
    obtain rfl := Option.some.inj hs
    obtain ⟨-, hown, hnext, -⟩ := hk
    obtain ⟨hH, hr⟩ := hI.link ht hown.fresh hnext
    refine ⟨_, hH, hr, fun m hm => ?_, .link hown.lt (by rw [hown.item])⟩
    obtain rfl := Sum.inl.inj hm
    refine ⟨trivial, hown.lt, hown.owner, ?_⟩
    show p ∈ Function.update g.items t (g.items t ++ [p]) t
    simp
  | setTimestamp x p setting =>
    simp only [step] at hs
    obtain rfl := Option.some.inj hs
    obtain ⟨hH, hp, hr⟩ := hI.setStamp hk.2
      (T.setStep ch.time σ.clock (σ.item p).timestamp setting).1
      (T.setStep ch.time σ.clock (σ.item p).timestamp setting).2.1
    cases (T.setStep ch.time σ.clock (σ.item p).timestamp setting).2.2 with
    | none => exact .stop hH hr .putDone
    | some setting' => exact .quiet hH hr rfl ⟨trivial, hp⟩
  | loadData p => exact absurd rfl (hl' p)
  | _ => exact absurd rfl hl

/-- A buffer in which no item was found. -/
theorem emptyBuffer_ok (hI : HeapInv n σ g) (hi : s.i < n) {w : TaggedPointer}
    (hres : (Fact.result s : Fact α T).Holds n t σ g)
    (hfence : (Fact.fencedNext s w w.pointer : Fact α T).Holds n t σ g)
    (hread : (Fact.removeRead (s.tmpBufferIndex n) w : Fact α T).Holds n t σ g)
    (hl : l.phase = .getting) {a : Shared α T × (Local α T ⊕ BagRet α)}
    (hs : (if σ.emptinessCheckPointers t (s.tmpBufferIndex n) ≠ w then
        some (σ.setEmptinessCheck t (s.tmpBufferIndex n) w,
          (nextBuffer n { s with empty := false } : Local α T ⊕ BagRet α))
      else some (σ, nextBuffer n s)) = some a) : StepOk n t σ g l a := by
  split_ifs at hs with he
  · obtain rfl := Option.some.inj hs
    obtain ⟨hH, hr⟩ := hI.remember hread
    refine nextBuffer_ok hH hr hl hi (fun h => ?_) fun h => by simp at h
    obtain ⟨-, hb, hsucc⟩ := hres h
    exact ⟨rfl, hb, hsucc⟩
  · obtain rfl := Option.some.inj hs
    exact nextBuffer_ok hI (fun _ _ => .refl ..) hl hi hres fun h =>
      hfence h rfl (not_not.mp he)

/-- The item's timestamp was loaded; it may be the oldest one found until now. -/
theorem compare_ok (hI : HeapInv n σ g) {w : TaggedPointer} {p : ℕ} (hi : s.i < n)
    (he : s.empty = false) (hres : (Fact.result s : Fact α T).Holds n t σ g)
    (hsucc : Successor (s.tmpBufferIndex n) w p g) (hl : l.phase = .getting)
    (time : T.Time) :
    StepOk n t σ g l (σ, nextBuffer n (s.compare (s.tmpBufferIndex n) p time w)) := by
  rw [Scan.compare]
  split_ifs
  · refine nextBuffer_ok hI (fun _ _ => .refl ..) hl hi
      (fun _ => ⟨he, tmpBufferIndex_lt hi, hsucc⟩) fun h => ?_
    exact absurd (he.symm.trans h) (by decide)
  · refine nextBuffer_ok hI (fun _ _ => .refl ..) hl hi hres fun h => ?_
    exact absurd (he.symm.trans h) (by decide)

theorem swapRemove_ok (hI : HeapInv n σ g) (ch : Choice T)
    {a : Shared α T × (Local α T ⊕ BagRet α)} (hk : Knows n t σ g (.swapRemove s))
    (hs : step n addresses t ch σ (.swapRemove s) = some a) :
    StepOk n t σ g (.swapRemove s) a := by
  obtain ⟨hne, hres⟩ := hk
  obtain ⟨he, hb, hsucc⟩ := hres hne
  simp only [step] at hs
  split_ifs at hs with hcas
  · obtain rfl := Option.some.inj hs
    rw [← hcas.1] at hsucc
    obtain ⟨hget, hH, hr⟩ := hI.removeNext hb hsucc (addNextAba s.result s.oldRemove 1) rfl
    refine ⟨_, hH, fun u _ => hr u, fun m hm => ?_, .take hget⟩
    obtain rfl := Sum.inl.inj hm
    exact ⟨trivial, (hI.bound _ _ _ hget).2, (hI.data _ _ _ (Nat.le_add_left ..) hget).2⟩
  · obtain rfl := Option.some.inj hs
    refine noElement_ok hI (fun _ _ => .refl ..) rfl fun h => ?_
    exact absurd (he.symm.trans h) (by decide)

/-- **Every access** of a call that knows its facts keeps the invariant, and all threads
go on knowing theirs. -/
theorem access_ok (hI : HeapInv n σ g) (ht : t < n) (ch : Choice T)
    {a : Shared α T × (Local α T ⊕ BagRet α)} (hk : Knows n t σ g l)
    (hs : step n addresses t ch σ l = some a) : StepOk n t σ g l a := by
  cases l with
  | readTime reading =>
    simp only [step] at hs
    cases hread : T.readStep ch.time σ.clock reading with
    | inl reading' =>
      rw [hread] at hs
      obtain rfl := Option.some.inj hs
      exact .read hI rfl ⟨trivial, trivial⟩
    | inr startTime =>
      rw [hread] at hs
      obtain rfl := Option.some.inj hs
      exact startScan_ok hI ht rfl startTime ch.start
  | loadRemove s =>
    obtain rfl := Option.some.inj hs
    obtain ⟨hi, hres, hf⟩ := hk
    exact .read hI rfl ⟨hi, hres, hf, _, le_rfl, hI.remove _ (tmpBufferIndex_lt hi)⟩
  | loadInsert s w =>
    obtain rfl := Option.some.inj hs
    obtain ⟨hi, hres, hf, k, hk, hget⟩ := hk
    have hlen := Chain.lt_length hget
    exact .read hI rfl ⟨hi, hres, fencedNext_of_fenced hI hi hf, k, _, by omega, hk, hget,
      hI.insert _ (tmpBufferIndex_lt hi)⟩
  | loadNext s w p =>
    obtain ⟨hi, hres, hf, hread⟩ := hk
    simp only [step] at hs
    rcases Decidable.em (w.pointer ≠ p) with hne | hne
    · rw [if_pos hne] at hs
      obtain rfl := Option.some.inj hs
      refine .read hI rfl ⟨⟨hi, rfl⟩, fun h => ?_, successor_of_insertRead hI hread hne⟩
      obtain ⟨-, hb, hsucc⟩ := hres h
      exact ⟨rfl, hb, hsucc⟩
    · rw [if_neg hne] at hs
      obtain rfl := not_not.mp hne
      obtain ⟨k, -, -, hk, hget, -⟩ := hread
      exact emptyBuffer_ok hI hi hres hf ⟨k, hk, hget⟩ rfl hs
  | loadTimestamp s w p loading =>
    obtain ⟨⟨hi, he⟩, hres, hsucc⟩ := hk
    simp only [step] at hs
    cases hload : T.loadStep (σ.item p).timestamp loading with
    | inl loading' =>
      rw [hload] at hs
      obtain rfl := Option.some.inj hs
      exact .read hI rfl ⟨⟨hi, he⟩, hres, hsucc⟩
    | inr time =>
      rw [hload] at hs
      obtain rfl := Option.some.inj hs
      exact compare_ok hI hi he hres hsucc rfl time
  | checkRemove s =>
    obtain ⟨hne, hres⟩ := hk
    simp only [step] at hs
    split_ifs at hs
    · obtain rfl := Option.some.inj hs
      exact .read hI rfl ⟨hne, hres⟩
    · obtain rfl := Option.some.inj hs
      refine noElement_ok hI (fun _ _ => .refl ..) rfl fun h => ?_
      exact absurd ((hres hne).1.symm.trans h) (by decide)
  | swapRemove s => exact swapRemove_ok hI ch hk hs
  | loadData p =>
    obtain ⟨-, -, hd⟩ := hk
    obtain ⟨x, hx⟩ := Option.isSome_iff_exists.mp hd
    simp only [step, hx] at hs
    obtain rfl := Option.some.inj hs
    exact .stop hI (fun _ _ => .refl ..) (.gotDone hx)
  | newItem | loadOldInsert | storeNext | storeInsert | setTimestamp =>
    exact enqueue_ok hI ht ch hk hs (by simp [Local.phase]) (by simp)

end Access

end TSQueue

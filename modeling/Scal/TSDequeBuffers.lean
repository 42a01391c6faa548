/-
The deque that the buffers of the timestamped deque make up between calls, with the atomic
counter.

Every item has a `key`: its timestamp, negated if it was inserted at the left.  The buffers
are sorted by their items' keys, and so is the deque they make up together (`Rep`): an
insert draws a timestamp later than all before, so the new key lies beyond all others on
its side.

* `Buffer` — a buffer is a doubly linked list, and outside the window between its two
  pointers all items are taken;
* `Rep.insert`, `Rep.take`, `Rep.swap` — what the calls make of the deque.
-/
import Scal.TSDeque
import Mathlib.Data.List.Pairwise

open Interleave Linearizability

namespace TSDeque

variable {α : Type}

/-! ### Keys -/

/-- `a` lies further on the given side than `b`. -/
def Ahead : Side → ℤ → ℤ → Prop
  | .left, a, b => a < b
  | .right, a, b => b < a

theorem Ahead.ne {s : Side} {a b : ℤ} (h : Ahead s a b) : a ≠ b := by
  cases s
  · exact ne_of_lt h
  · exact (ne_of_lt h).symm

theorem Ahead.trans {s : Side} {a b c : ℤ} (h : Ahead s a b) (h' : Ahead s b c) : Ahead s a c := by
  cases s
  · exact lt_trans h h'
  · exact lt_trans h' h

theorem Ahead.not {s : Side} {a b : ℤ} (h : Ahead s a b) : ¬ Ahead s b a := fun h' =>
  (h.trans h').ne rfl

theorem ahead_or {a b : ℤ} (s : Side) (h : a ≠ b) : Ahead s a b ∨ Ahead s b a := by
  cases s
  · exact lt_or_gt_of_ne h
  · exact (lt_or_gt_of_ne h).symm

theorem pairwise_view {s : Side} {l : List ℕ} {f : ℕ → ℤ} :
    (s.view l).Pairwise (fun p p' => Ahead s (f p) (f p')) ↔
      l.Pairwise fun p p' => f p < f p' := by
  cases s
  · exact Iff.rfl
  · exact List.pairwise_reverse

theorem beyond_iff {s : Side} {threshold index : ℤ} :
    beyond s threshold index = true ↔ Ahead s threshold index := by
  cases s <;> exact decide_eq_true_iff

/-- What is inserted at a side gets an index, and a key, that lies beyond all others there. -/
theorem ahead_signedIndex {s : Side} {n i : ℤ} (h : -n < i ∧ i < n) :
    Ahead s (signedIndex s n) i := by
  cases s
  · exact h.1
  · exact h.2

/-- The timestamp of an item. -/
def time (i : Item α atomicCounter) : ℕ := i.timestamp

def key (i : Item α atomicCounter) : ℤ := if i.index < 0 then -(time i : ℤ) else time i

theorem key_bound {i : Item α atomicCounter} {n : ℕ} (h : time i < n) :
    -(n : ℤ) < key i ∧ key i < n := by
  unfold key
  split_ifs <;> omega

theorem isMore_iff {s : Side} {i i' : Item α atomicCounter} (hi : i.index ≠ 0)
    (hi' : i'.index ≠ 0) (ht : 0 < time i) (ht' : 0 < time i') :
    isMore atomicCounter s i.index (time i) i'.index (time i') = true ↔
      Ahead s (key i) (key i') := by
  cases s
  · simp only [isMore, inserted, Ahead, key]
    grind
  · simp only [isMore, inserted, Ahead, key]
    grind

/-! ### Buffers -/

/-- The nodes of a buffer from left to right: a window from the left to the right pointer, and
what lies outside of it at the two ends, from the end on. -/
structure Parts where
  outer : Side → List ℕ
  window : List ℕ

def Parts.nodes (g : Parts) : List ℕ := g.outer .left ++ g.window ++ (g.outer .right).reverse

/-- What lies from the pointer of a side on. -/
def Parts.inside (g : Parts) (s : Side) : List ℕ :=
  s.view g.window ++ (g.outer s.other).reverse

theorem Parts.view_nodes (g : Parts) (s : Side) : s.view g.nodes = g.outer s ++ g.inside s := by
  cases s
  · exact List.append_assoc ..
  · simp [Parts.nodes, Parts.inside, Side.view, Side.other]

/-- Buffer `b` in memory. -/
structure Buffer (σ : Shared α atomicCounter) (b : ℕ) (g : Parts) : Prop where
  linked : DoublyLinked (fun s p => (σ.item p).link s) g.nodes
  bound : ∀ p ∈ g.nodes, p ≠ 0 ∧ p < σ.alloc
  pointer : ∀ s, ∃ l, s.view g.window = (σ.pointer s b).pointer :: l
  outer : ∀ s, ∀ p ∈ g.outer s, (σ.item p).taken = true
  index : g.nodes.Pairwise fun p p' => (σ.item p).index < (σ.item p').index
  key : g.nodes.Pairwise fun p p' => key (σ.item p) < key (σ.item p')
  nextIndex : ∀ p ∈ g.nodes, -σ.nextIndex b < (σ.item p).index ∧ (σ.item p).index < σ.nextIndex b
  stamp : ∀ p ∈ g.nodes, time (σ.item p) < σ.clock
  inserted : ∀ p ∈ g.nodes, (σ.item p).taken = false →
    (σ.item p).index ≠ 0 ∧ 0 < time (σ.item p)

/-- The deque `ds`, whose elements are `q`, consists of the items of the buffers that are not
taken. -/
structure Rep (numThreads : ℕ) (σ : Shared α atomicCounter) (g : ℕ → Parts) (ds : List ℕ)
    (q : List α) : Prop where
  buffer : ∀ b < numThreads, Buffer σ b (g b)
  disjoint : ∀ b < numThreads, ∀ b' < numThreads, ∀ p ∈ (g b).nodes, p ∈ (g b').nodes → b = b'
  clock : 0 < σ.clock
  mem : ∀ p, p ∈ ds ↔ ∃ b < numThreads, p ∈ (g b).nodes ∧ (σ.item p).taken = false
  sorted : ds.Pairwise fun p p' => key (σ.item p) < key (σ.item p')
  data : ds.map (fun p => (σ.item p).data) = q.map some

theorem pointer_setPointer_self {T : TimeStamp} (σ : Shared α T) (s : Side) (b : ℕ)
    (w : TaggedPointer) : (σ.setPointer s b w).pointer s b = w := by
  rw [show (σ.setPointer s b w).pointer =
    Function.update σ.pointer s (Function.update (σ.pointer s) b w) from rfl]
  rw [Function.update_self, Function.update_self]

theorem pointer_setPointer_of_ne {T : TimeStamp} (σ : Shared α T) {s s' : Side} {b b' : ℕ}
    (w : TaggedPointer) (h : s' ≠ s ∨ b' ≠ b) :
    (σ.setPointer s b w).pointer s' b' = σ.pointer s' b' := by
  rw [show (σ.setPointer s b w).pointer =
    Function.update σ.pointer s (Function.update (σ.pointer s) b w) from rfl]
  by_cases hs : s' = s
  · subst hs
    rw [Function.update_self, Function.update_of_ne (h.resolve_left fun h => h rfl)]
  · rw [Function.update_of_ne hs]

section Buffer

variable {σ : Shared α atomicCounter} {b p u : ℕ} {g : Parts} {s : Side} {w w₁ w₂ rest : List ℕ}

theorem Buffer.nodup (hB : Buffer σ b g) : g.nodes.Nodup := by
  refine hB.index.imp ?_
  rintro p _ h rfl
  exact lt_irrefl _ h

theorem Parts.mem_inside (hp : p ∈ g.inside s) : p ∈ g.nodes := by
  rw [← Side.mem_view (s := s), g.view_nodes]
  exact List.mem_append_right _ hp

theorem Parts.mem_window (hp : p ∈ g.window) : p ∈ g.nodes :=
  List.mem_append_left _ (List.mem_append_right _ hp)

theorem Parts.mem_of_view (hw : s.view g.window = w₁ ++ p :: w₂) : p ∈ g.window := by
  rw [← Side.mem_view (s := s), hw]
  exact List.mem_append_right _ List.mem_cons_self

theorem Parts.mem_nodes : p ∈ g.nodes ↔ p ∈ g.window ∨ ∃ s, p ∈ g.outer s := by
  constructor
  · intro h
    rcases List.mem_append.mp h with h | h
    · exact (List.mem_append.mp h).elim (fun h => .inr ⟨.left, h⟩) .inl
    · exact .inr ⟨.right, List.mem_reverse.mp h⟩
  · rintro (h | ⟨s, h⟩)
    · exact Parts.mem_window h
    · rw [← Side.mem_view (s := s), g.view_nodes]
      exact List.mem_append_left _ h

theorem Buffer.window_of_untaken (hB : Buffer σ b g) (hp : p ∈ g.nodes)
    (ht : (σ.item p).taken = false) : p ∈ g.window := by
  rcases Parts.mem_nodes.mp hp with h | ⟨s, h⟩
  · exact h
  · rw [hB.outer s p h] at ht
    cases ht

/-- The order of the keys, from a side on. -/
theorem Buffer.key_view (hB : Buffer σ b g) (s : Side) :
    (s.view g.nodes).Pairwise fun p p' => Ahead s (TSDeque.key (σ.item p)) (TSDeque.key (σ.item p')) :=
  pairwise_view.mpr hB.key

theorem Buffer.index_view (hB : Buffer σ b g) (s : Side) :
    (s.view g.nodes).Pairwise fun p p' => Ahead s (σ.item p).index (σ.item p').index :=
  pairwise_view.mpr hB.index

/-- The first item that is not taken is the one furthest on its side. -/
theorem Buffer.first (hB : Buffer σ b g) (hw : s.view g.window = w₁ ++ p :: w₂)
    (htaken : ∀ m ∈ w₁, (σ.item m).taken = true) {p' : ℕ} (hp' : p' ∈ g.nodes)
    (ht' : (σ.item p').taken = false) :
    p' = p ∨ Ahead s (TSDeque.key (σ.item p)) (TSDeque.key (σ.item p')) := by
  have hsorted := hB.key_view s
  rw [g.view_nodes, Parts.inside, hw, List.append_assoc] at hsorted
  have hsorted' := (List.pairwise_append.mp (List.pairwise_append.mp hsorted).2.1).2.1
  have hmem : p' ∈ s.view g.window := Side.mem_view.mpr (hB.window_of_untaken hp' ht')
  rw [hw] at hmem
  rcases List.mem_append.mp hmem with h | h
  · rw [htaken p' h] at ht'
    cases ht'
  · rcases List.mem_cons.mp h with rfl | h
    · exact .inl rfl
    · exact .inr ((List.pairwise_cons.mp hsorted').1 p' (List.mem_append_left _ h))

end Buffer

/-! ### Insertion -/

/-- What an insert of `x` by thread `t` does: a new item, which is linked before item `u`. -/
structure Inserted (σ σ' : Shared α atomicCounter) (s : Side) (t : ℕ) (x : α) (u : ℕ) : Prop where
  alloc : σ'.alloc = σ.alloc + 1
  clock : σ'.clock = σ.clock + 1
  nextIndex : σ'.nextIndex = Function.update σ.nextIndex t (σ.nextIndex t + 1)
  newTaken : (σ'.item σ.alloc).taken = false
  newData : (σ'.item σ.alloc).data = some x
  newTime : time (σ'.item σ.alloc) = σ.clock
  newIndex : (σ'.item σ.alloc).index = signedIndex s (σ.nextIndex t)
  newLink : (σ'.item σ.alloc).link s = σ.alloc ∧ (σ'.item σ.alloc).link s.other = u
  taken : ∀ p ≠ σ.alloc, (σ'.item p).taken = (σ.item p).taken
  data : ∀ p ≠ σ.alloc, (σ'.item p).data = (σ.item p).data
  time : ∀ p ≠ σ.alloc, time (σ'.item p) = time (σ.item p)
  index : ∀ p ≠ σ.alloc, (σ'.item p).index = (σ.item p).index
  link : ∀ p ≠ σ.alloc, ∀ s', (s' = s → p ≠ u) → (σ'.item p).link s' = (σ.item p).link s'
  linkEnd : (σ'.item u).link s = σ.alloc
  pointers : ∀ b ≠ t, ∀ s', σ'.pointer s' b = σ.pointer s' b

section Insert

variable {numThreads t u b : ℕ} {σ σ' : Shared α atomicCounter} {g : ℕ → Parts} {s : Side}
  {ds w rest : List ℕ} {q : List α} {x : α}

theorem Inserted.key (h : Inserted σ σ' s t x u) {p : ℕ} (hp : p ≠ σ.alloc) :
    TSDeque.key (σ'.item p) = TSDeque.key (σ.item p) := by
  rw [TSDeque.key, TSDeque.key, h.index p hp, h.time p hp]

theorem Inserted.newKey (h : Inserted σ σ' s t x u) (hn : 0 < σ.nextIndex t) :
    TSDeque.key (σ'.item σ.alloc) = signedIndex s σ.clock := by
  rw [TSDeque.key, h.newIndex, h.newTime]
  cases s
  · exact if_pos (show -σ.nextIndex t < 0 by omega)
  · exact if_neg (show ¬ σ.nextIndex t < 0 by omega)

/-- The other buffers are as they were. -/
theorem Inserted.buffer (h : Inserted σ σ' s t x u) (hb : b ≠ t) {g : Parts} (hu : u ∉ g.nodes)
    (hB : Buffer σ b g) : Buffer σ' b g := by
  have hne : ∀ p ∈ g.nodes, p ≠ σ.alloc := fun p hp => Nat.ne_of_lt (hB.bound p hp).2
  have hlink : ∀ p ∈ g.nodes, ∀ s', (σ'.item p).link s' = (σ.item p).link s' := fun p hp s' =>
    h.link p (hne p hp) s' fun _ he => hu (he ▸ hp)
  refine ⟨fun s' => (hB.linked s').congr fun p hp => hlink p (Side.mem_view.mp hp) _,
    fun p hp => ⟨(hB.bound p hp).1, ?_⟩, fun s' => ?_, fun s' p hp => ?_, ?_, ?_, fun p hp => ?_,
    fun p hp => ?_, fun p hp ht => ?_⟩
  · have := (hB.bound p hp).2
    have := h.alloc
    omega
  · rw [h.pointers b hb]
    exact hB.pointer s'
  · rw [h.taken p (hne p (Parts.mem_nodes.mpr (.inr ⟨s', hp⟩)))]
    exact hB.outer s' p hp
  · refine hB.index.imp_of_mem fun hp hp' hlt => ?_
    rw [h.index _ (hne _ hp), h.index _ (hne _ hp')]
    exact hlt
  · refine hB.key.imp_of_mem fun hp hp' hlt => ?_
    rw [h.key (hne _ hp), h.key (hne _ hp')]
    exact hlt
  · rw [h.index p (hne p hp), h.nextIndex, Function.update_of_ne hb]
    exact hB.nextIndex p hp
  · rw [h.time p (hne p hp), h.clock]
    exact Nat.lt_succ_of_lt (hB.stamp p hp)
  · rw [h.index p (hne p hp), h.time p (hne p hp)]
    exact hB.inserted p hp (h.taken p (hne p hp) ▸ ht)

theorem Buffer.nextIndex_pos {g : Parts} (hB : Buffer σ b g) : 0 < σ.nextIndex b := by
  obtain ⟨l, hl⟩ := hB.pointer .left
  have hmem : (σ.pointer .left b).pointer ∈ g.window := by
    rw [← Side.mem_view (s := .left), hl]
    exact List.mem_cons_self
  have := hB.nextIndex _ (Parts.mem_window hmem)
  omega

/-- The buffer of the inserting thread: what was before `u` is gone. -/
theorem Inserted.buffer_self (h : Inserted σ σ' s t x u) {g g' : Parts} {pre : List ℕ}
    (hB : Buffer σ t g) (hclock : 0 < σ.clock) (hnodes : s.view g.nodes = pre ++ u :: rest)
    (hnodes' : s.view g'.nodes = σ.alloc :: u :: rest)
    (houter : ∀ s', ∀ p ∈ g'.outer s', p ∈ g.outer s')
    (hpointer : ∀ s', ∃ l, s'.view g'.window = (σ'.pointer s' t).pointer :: l) :
    Buffer σ' t g' := by
  have hpos := hB.nextIndex_pos
  have hold : ∀ p ∈ u :: rest, p ∈ g.nodes := by
    intro p hp
    rw [← Side.mem_view (s := s), hnodes]
    exact List.mem_append_right _ hp
  have hne : ∀ p ∈ g.nodes, p ≠ σ.alloc := fun p hp => Nat.ne_of_lt (hB.bound p hp).2
  have hmem : ∀ p ∈ g'.nodes, p = σ.alloc ∨ p ∈ g.nodes := by
    intro p hp
    rw [← Side.mem_view (s := s), hnodes'] at hp
    exact (List.mem_cons.mp hp).imp id (hold p)
  have halloc : σ.alloc ≠ 0 := by
    have := (hB.bound u (hold u List.mem_cons_self)).2
    omega
  have hindex := hB.index_view s
  have hkey := hB.key_view s
  rw [hnodes] at hindex hkey
  refine ⟨hB.linked.insert hB.nodup hnodes hnodes' (fun s' p hp hu => h.link p (hne p hp) s' hu)
      h.linkEnd h.newLink.1 h.newLink.2,
    fun p hp => ?_, hpointer, fun s' p hp => ?_, ?_, ?_, fun p hp => ?_, fun p hp => ?_,
    fun p hp ht => ?_⟩
  · rcases hmem p hp with rfl | hp
    · exact ⟨halloc, by have := h.alloc; omega⟩
    · have := hB.bound p hp
      exact ⟨this.1, by have := h.alloc; omega⟩
  · have hp' := houter s' p hp
    rw [h.taken p (hne p (Parts.mem_nodes.mpr (.inr ⟨s', hp'⟩)))]
    exact hB.outer s' p hp'
  · refine (pairwise_view (s := s)).mp ?_
    rw [hnodes']
    refine List.pairwise_cons.mpr ⟨fun p hp => ?_,
      (List.pairwise_append.mp hindex).2.1.imp_of_mem fun hp hp' hlt => ?_⟩
    · rw [h.newIndex, h.index p (hne p (hold p hp))]
      exact ahead_signedIndex (hB.nextIndex p (hold p hp))
    · rw [h.index _ (hne _ (hold _ hp)), h.index _ (hne _ (hold _ hp'))]
      exact hlt
  · refine (pairwise_view (s := s)).mp ?_
    rw [hnodes']
    refine List.pairwise_cons.mpr ⟨fun p hp => ?_,
      (List.pairwise_append.mp hkey).2.1.imp_of_mem fun hp hp' hlt => ?_⟩
    · rw [h.newKey hpos, h.key (hne p (hold p hp))]
      exact ahead_signedIndex (key_bound (hB.stamp p (hold p hp)))
    · rw [h.key (hne _ (hold _ hp)), h.key (hne _ (hold _ hp'))]
      exact hlt
  · rw [h.nextIndex, Function.update_self]
    rcases hmem p hp with rfl | hp
    · rw [h.newIndex]
      cases s <;> simp only [signedIndex] <;> omega
    · rw [h.index p (hne p hp)]
      have := hB.nextIndex p hp
      omega
  · rw [h.clock]
    rcases hmem p hp with rfl | hp
    · rw [h.newTime]
      exact Nat.lt_succ_self _
    · rw [h.time p (hne p hp)]
      exact Nat.lt_succ_of_lt (hB.stamp p hp)
  · rcases hmem p hp with rfl | hp
    · rw [h.newIndex, h.newTime]
      refine ⟨?_, hclock⟩
      cases s <;> simp only [signedIndex] <;> omega
    · rw [h.index p (hne p hp), h.time p (hne p hp)]
      exact hB.inserted p hp (h.taken p (hne p hp) ▸ ht)

/-- The walk of an insert has stopped at `u`, the first item that is not taken, or the last of
the buffer. -/
theorem Inserted.exists_parts (h : Inserted σ σ' s t x u) {g : Parts} (hB : Buffer σ t g)
    (hclock : 0 < σ.clock) (hw : g.inside s = w ++ u :: rest)
    (hu : rest = [] ∨ (σ.item u).taken = false) (hp : (σ'.pointer s t).pointer = σ.alloc)
    (ho : (σ'.pointer s.other t).pointer =
      if rest = [] then u else (σ.pointer s.other t).pointer) :
    ∃ g', Buffer σ' t g' ∧ s.view g'.nodes = σ.alloc :: u :: rest := by
  have hnodes : s.view g.nodes = (g.outer s ++ w) ++ u :: rest := by
    rw [g.view_nodes, hw, List.append_assoc]
  by_cases hrest : rest = []
  · subst hrest
    have hnodes' : s.view (Parts.mk (fun _ => []) (s.view [σ.alloc, u])).nodes = [σ.alloc, u] := by
      rw [Parts.view_nodes, Parts.inside, Side.view_view]
      rfl
    refine ⟨_, h.buffer_self hB hclock hnodes hnodes' (fun s' p hp => absurd hp List.not_mem_nil)
      fun s' => ?_, hnodes'⟩
    rcases s.eq_or_eq_other s' with rfl | rfl
    · exact ⟨[u], by rw [Side.view_view, hp]⟩
    · exact ⟨[σ.alloc], by rw [Side.view_other, Side.view_view, ho, if_pos rfl]; rfl⟩
  · have hut : (σ.item u).taken = false := hu.resolve_left hrest
    -- `u` lies in the window
    obtain ⟨w₂, hwin, hw₂⟩ : ∃ w₂, s.view g.window = w ++ u :: w₂ ∧
        rest = w₂ ++ (g.outer s.other).reverse := by
      have hnotMem : u ∉ g.outer s.other := fun hm => by
        rw [hB.outer _ u hm] at hut
        cases hut
      rcases List.append_eq_append_iff.mp hw with ⟨l, hl, hr⟩ | ⟨l, hl, hr⟩
      · refine absurd (List.mem_reverse.mp ?_) hnotMem
        rw [hr]
        exact List.mem_append_right _ List.mem_cons_self
      · cases l with
        | nil =>
          refine absurd (List.mem_reverse.mp ?_) hnotMem
          rw [List.nil_append] at hr
          rw [← hr]
          exact List.mem_cons_self
        | cons m l =>
          obtain ⟨rfl, hrest'⟩ := List.cons.inj hr
          exact ⟨l, hl, hrest'⟩
    have hother : s.other ≠ s := s.other_ne
    have hnodes' : s.view (Parts.mk (fun s' => if s' = s then [] else g.outer s')
        (s.view (σ.alloc :: u :: w₂))).nodes = σ.alloc :: u :: rest := by
      rw [Parts.view_nodes, Parts.inside, Side.view_view, hw₂]
      simp only [if_pos, if_neg hother, List.nil_append, List.cons_append]
    refine ⟨_, h.buffer_self hB hclock hnodes hnodes' (fun s' p hp => ?_) fun s' => ?_, hnodes'⟩
    · change p ∈ (if s' = s then [] else g.outer s') at hp
      by_cases hs : s' = s
      · rw [if_pos hs] at hp
        exact absurd hp List.not_mem_nil
      · rw [if_neg hs] at hp
        exact hp
    · rcases s.eq_or_eq_other s' with rfl | rfl
      · exact ⟨u :: w₂, by rw [Side.view_view, hp]⟩
      · -- the last of the window is as before
        obtain ⟨l, hl⟩ := hB.pointer s.other
        rw [Side.view_other, hwin, List.reverse_append, List.reverse_cons] at hl
        rw [Side.view_other, Side.view_view, ho, if_neg hrest, List.reverse_cons, List.reverse_cons]
        cases hr : w₂.reverse with
        | nil =>
          rw [hr] at hl
          obtain ⟨rfl, -⟩ := List.cons.inj hl
          exact ⟨[σ.alloc], rfl⟩
        | cons m l' =>
          rw [hr] at hl
          obtain ⟨rfl, -⟩ := List.cons.inj hl
          exact ⟨_, rfl⟩

theorem Rep.key_ne (hR : Rep numThreads σ g ds q) {p p' : ℕ} (hp : p ∈ ds) (hp' : p' ∈ ds)
    (hne : p ≠ p') : TSDeque.key (σ.item p) ≠ TSDeque.key (σ.item p') := by
  have hpairwise : ds.Pairwise fun p p' => TSDeque.key (σ.item p) ≠ TSDeque.key (σ.item p') :=
    hR.sorted.imp ne_of_lt
  have : Std.Symm fun p p' => TSDeque.key (σ.item p) ≠ TSDeque.key (σ.item p') :=
    ⟨fun _ _ h => Ne.symm h⟩
  exact hpairwise.forall hp hp' hne

theorem Rep.lt_alloc (hR : Rep numThreads σ g ds q) {p : ℕ} (hp : p ∈ ds) : p < σ.alloc := by
  obtain ⟨b, hb, hpb, -⟩ := (hR.mem p).mp hp
  exact ((hR.buffer b hb).bound p hpb).2

/-- **An insert** puts its element at its end of the deque. -/
theorem Rep.insert (hR : Rep numThreads σ g ds q) (ht : t < numThreads)
    (h : Inserted σ σ' s t x u) (hw : (g t).inside s = w ++ u :: rest)
    (htaken : ∀ p ∈ w, (σ.item p).taken = true) (hu : rest = [] ∨ (σ.item u).taken = false)
    (hp : (σ'.pointer s t).pointer = σ.alloc)
    (ho : (σ'.pointer s.other t).pointer =
      if rest = [] then u else (σ.pointer s.other t).pointer) :
    ∃ g' ds', Rep numThreads σ' g' ds' (s.view (x :: s.view q)) := by
  have hB := hR.buffer t ht
  obtain ⟨g₁, hB₁, hnodes⟩ := h.exists_parts hB hR.clock hw hu hp ho
  have hut : u ∈ (g t).nodes := by
    refine Parts.mem_inside (s := s) ?_
    rw [hw]
    exact List.mem_append_right _ List.mem_cons_self
  have hmem₁ : ∀ p, p ∈ g₁.nodes ↔ p = σ.alloc ∨ p ∈ u :: rest := fun p => by
    rw [← Side.mem_view (s := s), hnodes, List.mem_cons]
  have hrest : ∀ p ∈ u :: rest, p ∈ (g t).nodes := by
    intro p hp
    refine Parts.mem_inside (s := s) ?_
    rw [hw]
    exact List.mem_append_right _ hp
  -- what is gone was taken
  have hkept : ∀ p ∈ (g t).nodes, (σ.item p).taken = false → p ∈ u :: rest := by
    intro p hp hpt
    rw [← Side.mem_view (s := s), Parts.view_nodes, hw] at hp
    rcases List.mem_append.mp hp with hp | hp
    · rw [hB.outer s p hp] at hpt
      cases hpt
    · rcases List.mem_append.mp hp with hp | hp
      · rw [htaken p hp] at hpt
        cases hpt
      · exact hp
  have hne : ∀ b < numThreads, ∀ p ∈ (g b).nodes, p ≠ σ.alloc := fun b hb p hp =>
    Nat.ne_of_lt ((hR.buffer b hb).bound p hp).2
  have hself : Function.update g t g₁ t = g₁ := Function.update_self ..
  have hother : ∀ b ≠ t, Function.update g t g₁ b = g b := fun b hb =>
    Function.update_of_ne hb ..
  have hview : s.view (s.view (σ.alloc :: s.view ds)) = σ.alloc :: s.view ds := Side.view_view ..
  refine ⟨Function.update g t g₁, s.view (σ.alloc :: s.view ds), fun b hb => ?_,
    fun b hb b' hb' p hpb hpb' => ?_, ?_, fun p => ?_, ?_, ?_⟩
  · by_cases hbt : b = t
    · subst hbt
      rw [hself]
      exact hB₁
    · rw [hother b hbt]
      refine h.buffer hbt (fun hub => hbt ?_) (hR.buffer b hb)
      exact hR.disjoint b hb t ht u hub hut
  · by_cases hbt : b = t
    · by_cases hbt' : b' = t
      · rw [hbt, hbt']
      · subst hbt
        rw [hself, hmem₁] at hpb
        rw [hother b' hbt'] at hpb'
        rcases hpb with rfl | hpb
        · exact absurd rfl (hne b' hb' _ hpb')
        · exact hR.disjoint b hb b' hb' p (hrest p hpb) hpb'
    · rw [hother b hbt] at hpb
      by_cases hbt' : b' = t
      · subst hbt'
        rw [hself, hmem₁] at hpb'
        rcases hpb' with rfl | hpb'
        · exact absurd rfl (hne b hb _ hpb)
        · exact hR.disjoint b hb b' hb' p hpb (hrest p hpb')
      · rw [hother b' hbt'] at hpb'
        exact hR.disjoint b hb b' hb' p hpb hpb'
  · rw [h.clock]
    exact Nat.succ_pos _
  · rw [Side.mem_view, List.mem_cons, Side.mem_view]
    constructor
    · rintro (rfl | hp)
      · exact ⟨t, ht, by rw [hself, hmem₁]; exact .inl rfl, h.newTaken⟩
      · obtain ⟨b, hb, hpb, hpt⟩ := (hR.mem p).mp hp
        refine ⟨b, hb, ?_, by rw [h.taken p (hne b hb p hpb)]; exact hpt⟩
        by_cases hbt : b = t
        · subst hbt
          rw [hself, hmem₁]
          exact .inr (hkept p hpb hpt)
        · rw [hother b hbt]
          exact hpb
    · rintro ⟨b, hb, hpb, hpt⟩
      by_cases hpn : p = σ.alloc
      · exact .inl hpn
      · refine .inr ((hR.mem p).mpr ⟨b, hb, ?_, by rw [← h.taken p hpn]; exact hpt⟩)
        by_cases hbt : b = t
        · subst hbt
          rw [hself, hmem₁] at hpb
          exact hrest p (hpb.resolve_left hpn)
        · rw [hother b hbt] at hpb
          exact hpb
  · refine (pairwise_view (s := s)).mp ?_
    rw [hview]
    have hds : ∀ p ∈ s.view ds, p ≠ σ.alloc := fun p hp =>
      Nat.ne_of_lt (hR.lt_alloc (Side.mem_view.mp hp))
    refine List.pairwise_cons.mpr ⟨fun p hp => ?_,
      ((pairwise_view (s := s)).mpr hR.sorted).imp_of_mem fun hp hp' hlt => ?_⟩
    · obtain ⟨b, hb, hpb, -⟩ := (hR.mem p).mp (Side.mem_view.mp hp)
      rw [h.newKey hB.nextIndex_pos, h.key (hds p hp)]
      exact ahead_signedIndex (key_bound ((hR.buffer b hb).stamp p hpb))
    · rw [h.key (hds _ hp), h.key (hds _ hp')]
      exact hlt
  · have hold : (s.view ds).map (fun p => (σ'.item p).data) =
        (s.view ds).map fun p => (σ.item p).data := by
      refine List.map_congr_left fun p hp => h.data p ?_
      exact Nat.ne_of_lt (hR.lt_alloc (Side.mem_view.mp hp))
    rw [← Side.view_map, ← Side.view_map, List.map_cons, List.map_cons, hold, h.newData,
      ← Side.view_map, ← Side.view_map, hR.data]

end Insert

/-! ### Removal -/

/-- But for `taken`, taking an item leaves it as it is. -/
theorem item_take {T : TimeStamp} {σ : Shared α T} {r : ℕ} {β : Type} (f : Item α T → β)
    (hf : ∀ i, f { i with taken := true } = f i) (p : ℕ) : f ((σ.take r).item p) = f (σ.item p) := by
  by_cases hp : p = r
  · subst hp
    have hself : (σ.take p).item p = { σ.item p with taken := true } := Function.update_self ..
    rw [hself, hf]
  · have hne : (σ.take r).item p = σ.item p := Function.update_of_ne hp ..
    rw [hne]

theorem taken_take {T : TimeStamp} {σ : Shared α T} {r p : ℕ} : ((σ.take r).item p).taken = false ↔
    p ≠ r ∧ (σ.item p).taken = false := by
  by_cases hp : p = r
  · subst hp
    have hself : (σ.take p).item p = { σ.item p with taken := true } := Function.update_self ..
    rw [hself]
    exact ⟨fun h => absurd h Bool.noConfusion, fun h => absurd rfl h.1⟩
  · have hne : (σ.take r).item p = σ.item p := Function.update_of_ne hp ..
    rw [hne]
    exact ⟨fun h => ⟨hp, h⟩, fun h => h.2⟩

section Remove

variable {numThreads b c r : ℕ} {σ : Shared α atomicCounter} {g : ℕ → Parts} {s : Side}
  {ds w₁ w₂ : List ℕ} {q : List α}

/-- The emptiness checks are no part of the deque. -/
theorem Rep.check (hR : Rep numThreads σ g ds q) (e : Side → ℕ → ℕ → TaggedPointer) :
    Rep numThreads { σ with emptinessCheck := e } g ds q := by
  refine ⟨fun b hb => ?_, hR.disjoint, hR.clock, hR.mem, hR.sorted, hR.data⟩
  have hB := hR.buffer b hb
  exact ⟨hB.linked, hB.bound, hB.pointer, hB.outer, hB.index, hB.key, hB.nextIndex, hB.stamp,
    hB.inserted⟩

theorem Buffer.take {g : Parts} (hB : Buffer σ b g) : Buffer (σ.take r) b g := by
  have hindex := item_take (σ := σ) (r := r) Item.index fun _ => rfl
  have hkey := item_take (σ := σ) (r := r) TSDeque.key fun _ => rfl
  have htime := item_take (σ := σ) (r := r) TSDeque.time fun _ => rfl
  refine ⟨fun s => (hB.linked s).congr fun p _ =>
      congrFun (item_take (σ := σ) (r := r) Item.link (fun _ => rfl) p) _,
    hB.bound, hB.pointer, fun s p hp => ?_, ?_, ?_, fun p hp => ?_, fun p hp => ?_,
    fun p hp ht => ?_⟩
  · refine Bool.of_not_eq_false fun ht => ?_
    have := (taken_take.mp ht).2
    rw [hB.outer s p hp] at this
    cases this
  · simp only [hindex]
    exact hB.index
  · simp only [hkey]
    exact hB.key
  · rw [hindex]
    exact hB.nextIndex p hp
  · rw [htime]
    exact hB.stamp p hp
  · rw [hindex, htime]
    exact hB.inserted p hp (taken_take.mp ht).2

/-- The last item of the window is the one at which a search from side `s` may end. -/
theorem Buffer.limit {g : Parts} (hB : Buffer σ b g) (s : Side) :
    ∃ l, s.view g.window = l ++ [(σ.pointer s.other b).pointer] := by
  obtain ⟨l, hl⟩ := hB.pointer s.other
  refine ⟨l.reverse, ?_⟩
  rw [Side.view_other] at hl
  rw [← List.reverse_reverse (s.view g.window), hl, List.reverse_cons]

theorem Buffer.not_beyond {g : Parts} (hB : Buffer σ b g) {p : ℕ} (hp : p ∈ g.window) :
    ¬ beyond s (σ.item (σ.pointer s.other b).pointer).index (σ.item p).index = true := by
  rw [beyond_iff]
  obtain ⟨l, hl⟩ := hB.limit s
  have hsorted := hB.index_view s
  rw [g.view_nodes, Parts.inside, hl] at hsorted
  have hsorted' := (List.pairwise_append.mp (List.pairwise_append.mp hsorted).2.1).1
  rw [← Side.mem_view (s := s), hl] at hp
  rcases List.mem_append.mp hp with hp | hp
  · exact ((List.pairwise_append.mp hsorted').2.2 p hp _ List.mem_cons_self).not
  · obtain rfl := List.mem_singleton.mp hp
    exact fun h => h.ne rfl

theorem Buffer.beyond_outer {g : Parts} (hB : Buffer σ b g) {p : ℕ} (hp : p ∈ g.outer s.other) :
    beyond s (σ.item (σ.pointer s.other b).pointer).index (σ.item p).index = true := by
  rw [beyond_iff]
  obtain ⟨l, hl⟩ := hB.limit s
  have hsorted := hB.index_view s
  rw [g.view_nodes, Parts.inside, hl] at hsorted
  refine (List.pairwise_append.mp (List.pairwise_append.mp hsorted).2.1).2.2 _ ?_ p
    (List.mem_reverse.mpr hp)
  exact List.mem_append_right _ List.mem_cons_self

/-- **A removal** takes the element at its end of the deque. -/
theorem Rep.take (hR : Rep numThreads σ g ds q) (hr : r ∈ ds)
    (hfirst : ∀ p ∈ ds, p = r ∨ Ahead s (key (σ.item r)) (key (σ.item p))) :
    ∃ x ds' q', (σ.item r).data = some x ∧ s.view q = x :: s.view q' ∧
      Rep numThreads (σ.take r) g ds' q' := by
  have hsorted : (s.view ds).Pairwise fun p p' => Ahead s (key (σ.item p)) (key (σ.item p')) :=
    pairwise_view.mpr hR.sorted
  obtain ⟨rest, hds⟩ : ∃ rest, s.view ds = r :: rest := by
    have hmem : r ∈ s.view ds := Side.mem_view.mpr hr
    cases hv : s.view ds with
    | nil =>
      rw [hv] at hmem
      exact absurd hmem List.not_mem_nil
    | cons m rest =>
      rw [hv] at hmem hsorted
      have hm : m ∈ ds := by
        rw [← Side.mem_view (s := s), hv]
        exact List.mem_cons_self
      rcases List.mem_cons.mp hmem with rfl | hrest
      · exact ⟨rest, rfl⟩
      · rcases hfirst m hm with rfl | hahead
        · exact ⟨rest, rfl⟩
        · exact absurd ((List.pairwise_cons.mp hsorted).1 r hrest) hahead.not
  rw [hds] at hsorted
  obtain ⟨hr', hsorted'⟩ := List.pairwise_cons.mp hsorted
  have hdata := congrArg s.view hR.data
  rw [Side.view_map, Side.view_map, hds, List.map_cons] at hdata
  obtain ⟨x, l, hq, hx, hl⟩ := List.map_eq_cons_iff.mp hdata.symm
  refine ⟨x, s.view rest, s.view l, hx.symm, by rw [Side.view_view, hq],
    fun b hb => (hR.buffer b hb).take, hR.disjoint, hR.clock, fun p => ?_, ?_, ?_⟩
  · rw [Side.mem_view]
    have hp : p ∈ ds ↔ p = r ∨ p ∈ rest := by
      rw [← Side.mem_view (s := s), hds, List.mem_cons]
    constructor
    · intro hrest
      obtain ⟨b, hb, hpb, hpt⟩ := (hR.mem p).mp (hp.mpr (.inr hrest))
      refine ⟨b, hb, hpb, taken_take.mpr ⟨?_, hpt⟩⟩
      rintro rfl
      exact (hr' p hrest).ne rfl
    · rintro ⟨b, hb, hpb, hpt⟩
      obtain ⟨hne, hpt⟩ := taken_take.mp hpt
      exact (hp.mp ((hR.mem p).mpr ⟨b, hb, hpb, hpt⟩)).resolve_left hne
  · refine (pairwise_view (s := s)).mp ?_
    simp only [item_take (σ := σ) (r := r) key fun _ => rfl, Side.view_view]
    exact hsorted'
  · simp only [item_take (σ := σ) (r := r) Item.data fun _ => rfl]
    rw [← Side.view_map, ← Side.view_map, hl]

/-- The pointer of a side moves to an item before which all are taken. -/
theorem Rep.swap (hR : Rep numThreads σ g ds q) (hw : s.view (g c).window = w₁ ++ r :: w₂)
    (htaken : ∀ p ∈ w₁, (σ.item p).taken = true) (a : ℕ) :
    ∃ g', Rep numThreads (σ.setPointer s c ⟨r, a⟩) g' ds q := by
  have hother := s.other_ne
  let g₁ : Parts := ⟨fun s' => if s' = s then (g c).outer s ++ w₁ else (g c).outer s',
    s.view (r :: w₂)⟩
  have hnodes : g₁.nodes = (g c).nodes := by
    have hview : s.view g₁.nodes = s.view (g c).nodes := by
      rw [Parts.view_nodes, Parts.view_nodes, Parts.inside, Parts.inside, hw]
      simp only [g₁, Side.view_view, if_pos, if_neg hother, List.append_assoc, List.cons_append]
    rw [← Side.view_view s g₁.nodes, hview, Side.view_view]
  have hg : ∀ b, (Function.update g c g₁ b).nodes = (g b).nodes := by
    intro b
    by_cases hb : b = c
    · subst hb
      rw [Function.update_self, hnodes]
    · rw [Function.update_of_ne hb]
  refine ⟨Function.update g c g₁, fun b hb => ?_, fun b hb b' hb' p => ?_, hR.clock, fun p => ?_,
    hR.sorted, hR.data⟩
  · have hB := hR.buffer b hb
    refine ⟨hg b ▸ hB.linked, hg b ▸ hB.bound, fun s' => ?_, fun s' p hp => ?_, hg b ▸ hB.index,
      hg b ▸ hB.key, hg b ▸ hB.nextIndex, hg b ▸ hB.stamp, hg b ▸ hB.inserted⟩
    · by_cases hbc : b = c
      · subst hbc
        rw [Function.update_self]
        rcases s.eq_or_eq_other s' with rfl | rfl
        · refine ⟨w₂, ?_⟩
          rw [pointer_setPointer_self, Side.view_view]
        · -- the last of the window is as before
          obtain ⟨l, hl⟩ := hB.pointer s.other
          rw [Side.view_other, hw, List.reverse_append, List.reverse_cons] at hl
          rw [pointer_setPointer_of_ne _ _ (.inl hother), Side.view_other, Side.view_view,
            List.reverse_cons]
          cases hr : w₂.reverse with
          | nil =>
            rw [hr] at hl
            obtain ⟨rfl, -⟩ := List.cons.inj hl
            exact ⟨[], rfl⟩
          | cons m l' =>
            rw [hr] at hl
            obtain ⟨rfl, -⟩ := List.cons.inj hl
            exact ⟨_, rfl⟩
      · rw [Function.update_of_ne hbc, pointer_setPointer_of_ne _ _ (.inr hbc)]
        exact hB.pointer s'
    · by_cases hbc : b = c
      · subst hbc
        rw [Function.update_self] at hp
        change p ∈ (if s' = s then (g b).outer s ++ w₁ else (g b).outer s') at hp
        by_cases hs : s' = s
        · rw [if_pos hs] at hp
          exact (List.mem_append.mp hp).elim (hB.outer s p) (htaken p)
        · rw [if_neg hs] at hp
          exact hB.outer s' p hp
      · rw [Function.update_of_ne hbc] at hp
        exact hB.outer s' p hp
  · rw [hg, hg]
    exact hR.disjoint b hb b' hb' p
  · simp only [hg]
    exact hR.mem p

end Remove

end TSDeque

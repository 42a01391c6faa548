/-
Double-ended queues.

* `Side`, `Side.view` — a list seen from its left or its right end;
* `dequeSpec` — the sequential specification of a double-ended queue;
* `DoublyLinked` — nodes linked in both directions; the pointer that would leave the
  list at an end node leads back to that node.
-/
import Scal.Linearizable
import Mathlib.Data.List.Nodup
import Mathlib.Logic.Function.Basic

/-- An end of a double-ended queue. -/
inductive Side where
  | left
  | right
  deriving DecidableEq

namespace Side

variable {β γ : Type}

def other : Side → Side
  | left => right
  | right => left

@[simp] theorem other_other (s : Side) : s.other.other = s := by
  cases s <;> rfl

theorem other_ne (s : Side) : s.other ≠ s := by
  cases s <;> decide

theorem eq_or_eq_other (s s' : Side) : s' = s ∨ s' = s.other := by
  cases s <;> cases s' <;> decide

/-- A list, from the given end on. -/
def view : Side → List β → List β
  | left, l => l
  | right, l => l.reverse

theorem view_other (s : Side) (l : List β) : s.other.view l = (s.view l).reverse := by
  cases s
  · rfl
  · exact l.reverse_reverse.symm

@[simp] theorem view_view (s : Side) (l : List β) : s.view (s.view l) = l := by
  cases s
  · rfl
  · exact l.reverse_reverse

@[simp] theorem mem_view {s : Side} {l : List β} {x : β} : x ∈ s.view l ↔ x ∈ l := by
  cases s
  · exact Iff.rfl
  · exact List.mem_reverse

theorem view_map (s : Side) (f : β → γ) (l : List β) : s.view (l.map f) = (s.view l).map f := by
  cases s
  · rfl
  · exact List.map_reverse.symm

theorem nodup_view {s : Side} {l : List β} : (s.view l).Nodup ↔ l.Nodup := by
  cases s
  · exact Iff.rfl
  · exact List.nodup_reverse

end Side

namespace Linearizability

variable {α : Type}

inductive DequeOp (α : Type) where
  | insertLeft (x : α)
  | insertRight (x : α)
  | removeLeft
  | removeRight

/-- What an insert and a remove return; `none` is `false`. -/
inductive DequeRet (α : Type) where
  | inserted (b : Bool)
  | removed (x : Option α)

def DequeStep : List α → DequeOp α → DequeRet α → List α → Prop
  | q, .insertLeft x, .inserted true, q' => q' = x :: q
  | q, .insertRight x, .inserted true, q' => q' = q ++ [x]
  | q, .removeLeft, .removed (some x), q' => q = x :: q'
  | q, .removeRight, .removed (some x), q' => q = q' ++ [x]
  | q, .removeLeft, .removed none, q' => q = [] ∧ q' = []
  | q, .removeRight, .removed none, q' => q = [] ∧ q' = []
  | _, _, _, _ => False

/-- A double-ended queue, its items from the left to the right. -/
def dequeSpec : Spec (DequeOp α) (DequeRet α) (List α) := ⟨[], DequeStep⟩

/-- The insert and the remove at an end. -/
def insertOp : Side → α → DequeOp α
  | .left, x => .insertLeft x
  | .right, x => .insertRight x

def removeOp : Side → DequeOp α
  | .left => .removeLeft
  | .right => .removeRight

section Steps

variable {s : Side} {q q' : List α} {x : α}

theorem DequeStep.insert (h : s.view q' = x :: s.view q) :
    DequeStep q (insertOp s x) (.inserted true) q' := by
  cases s with
  | left => exact h
  | right =>
    have hq : q' = (x :: q.reverse).reverse := List.reverse_eq_iff.mp h
    rw [List.reverse_cons, List.reverse_reverse] at hq
    exact hq

theorem DequeStep.remove (h : s.view q = x :: s.view q') :
    DequeStep q (removeOp s) (.removed (some x)) q' := by
  cases s with
  | left => exact h
  | right =>
    have hq : q = (x :: q'.reverse).reverse := List.reverse_eq_iff.mp h
    rw [List.reverse_cons, List.reverse_reverse] at hq
    exact hq

theorem DequeStep.empty : DequeStep ([] : List α) (removeOp s) (.removed none) [] := by
  cases s
  · exact ⟨rfl, rfl⟩
  · exact ⟨rfl, rfl⟩

end Steps

end Linearizability

/-! ### Doubly linked lists -/

/-- The nodes of the list are linked by `next`; the last one is linked to itself. -/
inductive LinkedPath (next : ℕ → ℕ) : List ℕ → Prop
  | last {p : ℕ} : next p = p → LinkedPath next [p]
  | cons {p n : ℕ} {l : List ℕ} : next p = n → LinkedPath next (n :: l) → LinkedPath next (p :: n :: l)

namespace LinkedPath

variable {next next' : ℕ → ℕ} {p n u : ℕ} {l l' : List ℕ}

theorem congr (h : LinkedPath next l) (hn : ∀ p ∈ l, next' p = next p) : LinkedPath next' l := by
  induction h with
  | @last p hp =>
    exact .last ((hn p List.mem_cons_self).trans hp)
  | @cons p n l hp _ ih =>
    exact .cons ((hn p List.mem_cons_self).trans hp) (ih fun m hm => hn m (List.mem_cons_of_mem _ hm))

theorem tail (h : LinkedPath next (p :: n :: l)) : next p = n ∧ LinkedPath next (n :: l) := by
  cases h with
  | cons hp h => exact ⟨hp, h⟩

theorem next_last (h : LinkedPath next [p]) : next p = p := by
  cases h with
  | last hp => exact hp

/-- What follows a node. -/
theorem suffix (h : LinkedPath next (l ++ p :: l')) : LinkedPath next (p :: l') := by
  induction l with
  | nil => exact h
  | cons m l ih =>
    cases l with
    | nil => exact h.tail.2
    | cons m' l => exact ih h.tail.2

/-- What is before a node, and then a new last node. -/
theorem snoc (h : LinkedPath next (l ++ u :: l')) (hn : ∀ p ∈ l, next' p = next p) (hu : next' u = n)
    (hlast : next' n = n) : LinkedPath next' (l ++ [u, n]) := by
  induction l with
  | nil => exact .cons hu (.last hlast)
  | cons m l ih =>
    have hm : next' m = next m := hn m List.mem_cons_self
    have hrest : ∀ p ∈ l, next' p = next p := fun p hp => hn p (List.mem_cons_of_mem _ hp)
    cases l with
    | nil =>
      obtain ⟨hmu, -⟩ := h.tail
      exact .cons (hm.trans hmu) (.cons hu (.last hlast))
    | cons m' l =>
      obtain ⟨hmm, h⟩ := h.tail
      exact .cons (hm.trans hmm) (ih h hrest)

/-- A node is linked to itself only at the end. -/
theorem next_eq_self (h : LinkedPath next (p :: l)) (hd : (p :: l).Nodup) : next p = p ↔ l = [] := by
  cases l with
  | nil => exact ⟨fun _ => rfl, fun _ => h.next_last⟩
  | cons n l =>
    have hne : n ≠ p := fun he => (List.nodup_cons.mp hd).1 (he ▸ List.mem_cons_self)
    refine ⟨fun he => absurd (h.tail.1.symm.trans he) hne, fun he => ?_⟩
    cases he

/-- Following the links from the first node. -/
theorem iterate (h : LinkedPath next (p :: l)) {k : ℕ} {q : ℕ} (hk : (p :: l)[k]? = some q) :
    next^[k] p = q := by
  induction k generalizing p l with
  | zero => exact Option.some.inj hk
  | succ k ih =>
    cases l with
    | nil => cases hk
    | cons n l =>
      obtain ⟨hn, h⟩ := h.tail
      rw [Function.iterate_succ_apply, hn]
      exact ih h hk

end LinkedPath

/-- The nodes, from left to right, are linked in both directions. -/
def DoublyLinked (next : Side → ℕ → ℕ) (nodes : List ℕ) : Prop :=
  ∀ s : Side, LinkedPath (next s.other) (s.view nodes)

/-- **Insertion at an end**: what is before node `u` is dropped, and the new node `n` put
there. -/
theorem DoublyLinked.insert {next next' : Side → ℕ → ℕ} {nodes nodes' pre rest : List ℕ}
    {s : Side} {u n : ℕ} (h : DoublyLinked next nodes) (hd : nodes.Nodup)
    (hnodes : s.view nodes = pre ++ u :: rest) (hnodes' : s.view nodes' = n :: u :: rest)
    (hold : ∀ s', ∀ p ∈ nodes, (s' = s → p ≠ u) → next' s' p = next s' p)
    (hu : next' s u = n) (hself : next' s n = n) (hn : next' s.other n = u) :
    DoublyLinked next' nodes' := by
  have hmem : ∀ p ∈ u :: rest, p ∈ nodes := by
    intro p hp
    rw [← Side.mem_view (s := s), hnodes]
    exact List.mem_append_right _ hp
  have hnotMem : u ∉ rest := by
    have hd' : (s.view nodes).Nodup := Side.nodup_view.mpr hd
    rw [hnodes] at hd'
    exact (List.nodup_cons.mp (List.nodup_append.mp hd').2.1).1
  intro s'
  rcases s.eq_or_eq_other s' with rfl | rfl
  · -- away from the new node
    rw [hnodes']
    have hpath := h s'
    rw [hnodes] at hpath
    refine .cons hn (hpath.suffix.congr fun p hp => ?_)
    exact hold _ p (hmem p hp) fun hs => absurd hs s'.other_ne
  · -- towards the new node
    rw [Side.other_other, Side.view_other, hnodes', List.reverse_cons, List.reverse_cons,
      List.append_assoc]
    have hpath := h s.other
    rw [Side.other_other, Side.view_other, hnodes, List.reverse_append, List.reverse_cons,
      List.append_assoc] at hpath
    refine hpath.snoc (fun p hp => ?_) hu hself
    have hp' : p ∈ rest := List.mem_reverse.mp hp
    exact hold s p (hmem p (List.mem_cons_of_mem _ hp')) fun _ he => hnotMem (he ▸ hp')

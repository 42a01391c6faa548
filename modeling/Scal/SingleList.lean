/-
The singly-linked list with a sentinel (`datastructures/single_list.h`), for one thread.

`scal::tlget` is assumed to return a new block for every node: with `reuse_memory` it would
start over once the preallocated memory is used up.

* `SingleList.Holds` — the list of its items, from the one that is dequeued next on.
-/
import Scal.SentinelList
import Mathlib.Logic.Function.Basic

/-- The nodes by address, and the address of the next new node. -/
@[ext]
structure SingleList (α : Type) where
  next : ℕ → ℕ
  value : ℕ → α
  alloc : ℕ
  head : ℕ
  tail : ℕ

namespace SingleList

variable {α : Type} {q : SingleList α} {x : α} {l : List α}

/-- A list with a sentinel; nothing is known about a node that is not initialized. -/
def new (next : ℕ → ℕ) (value : ℕ → α) : SingleList α := ⟨next, value, 2, 1, 1⟩

def isEmpty (q : SingleList α) : Bool := q.head = q.tail

def enqueue (q : SingleList α) (item : α) : SingleList α :=
  { q with
    value := Function.update q.value q.alloc item
    next := Function.update q.next q.tail q.alloc
    tail := q.alloc
    alloc := q.alloc + 1 }

/-- `none` if the list is empty. -/
def dequeue (q : SingleList α) : Option α × SingleList α :=
  if q.head = q.tail then (none, q)
  else (some (q.value (q.next q.head)), { q with head := q.next q.head })

/-- The nodes `ns` after the sentinel hold the items `l`. -/
structure Nodes (q : SingleList α) (ns : List ℕ) (l : List α) : Prop where
  list : SentinelList q.next q.value q.head q.tail ns l
  bound : ∀ p ∈ q.head :: ns, p < q.alloc

def Holds (q : SingleList α) (l : List α) : Prop := ∃ ns, q.Nodes ns l

theorem new_holds (next : ℕ → ℕ) (value : ℕ → α) : (new next value).Holds [] := by
  refine ⟨[], .single next value 1, fun p hp => ?_⟩
  rw [List.mem_singleton.mp hp]
  exact Nat.one_lt_two

theorem Holds.enqueue (h : q.Holds l) (x : α) : (q.enqueue x).Holds (l ++ [x]) := by
  obtain ⟨ns, hlist, hb⟩ := h
  have hnew : q.alloc ∉ q.head :: ns := fun hm => Nat.lt_irrefl _ (hb _ hm)
  refine ⟨ns ++ [q.alloc], (hlist.congr (fun p _ hp => ?_) fun p hp => ?_).append ?_ hnew ?_,
    fun p hp => ?_⟩
  · exact Function.update_of_ne hp ..
  · have hne : p ≠ q.alloc := (hb p (List.mem_cons_of_mem _ hp)).ne
    exact Function.update_of_ne hne ..
  · exact Function.update_self ..
  · exact Function.update_self ..
  · rw [← List.cons_append] at hp
    rcases List.mem_append.mp hp with hp | hp
    · exact Nat.lt_succ_of_lt (hb p hp)
    · exact List.mem_singleton.mp hp ▸ Nat.lt_succ_self _

theorem Holds.head_eq_tail (h : q.Holds l) : q.head = q.tail ↔ l = [] := by
  obtain ⟨ns, hlist, -⟩ := h
  exact hlist.head_eq_tail

theorem Holds.dequeue_nil (h : q.Holds []) : q.dequeue = (none, q) := by
  rw [dequeue, if_pos (h.head_eq_tail.mpr rfl)]

/-- The first item, and the list without it. -/
theorem Holds.advance (h : q.Holds (x :: l)) :
    q.value (q.next q.head) = x ∧ Holds { q with head := q.next q.head } l := by
  obtain ⟨ns, hlist, hb⟩ := h
  obtain ⟨hx, ns', rfl, hlist'⟩ := hlist.advance
  exact ⟨hx, ns', hlist', fun p hp => hb p (List.mem_cons_of_mem _ hp)⟩

theorem Holds.dequeue_cons (h : q.Holds (x :: l)) : ∃ q', q.dequeue = (some x, q') ∧
    q'.Holds l := by
  obtain ⟨hx, hl⟩ := h.advance
  refine ⟨_, ?_, hl⟩
  rw [dequeue, if_neg (mt h.head_eq_tail.mp (List.cons_ne_nil x l)), hx]

end SingleList

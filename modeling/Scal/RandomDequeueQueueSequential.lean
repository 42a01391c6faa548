/-
The random dequeue queue, used by one thread at a time.

The items are those of the nodes that are not deleted, in the order of the chain (`Rep`).  All
nodes up to head's are deleted, and a random walk ends less than `quasi_factor` nodes behind
the first one after head.

* `ends_enqueue`, `ends_dequeue` — every call returns; a dequeue that finds its random
  position deleted tries again, at most `max_retries_` times;
* `sequential_kFifo` — sequences of calls are runs of a k-FIFO queue;
* `picksBounded_iff` — the number of random positions is bounded by the argument of the
  constructor only if what was in memory was, or if the first random position is the only one.
-/
import Scal.KFifo
import Scal.RandomDequeueQueueBag
import Scal.Sequential

open Interleave Linearizability

namespace RandomDequeueQueue

variable {α : Type}

/-! ### The items -/

/-- The item of a node that is not deleted. -/
def Shared.itemOf (σ : Shared α) (n : ℕ) : Option α :=
  if (σ.node n).deleted then none else some (σ.node n).value

/-- Between calls: tail is at the end of the chain, whose items are `q`. -/
structure Rep (σ : Shared α) (chain : List ℕ) (q : List α) : Prop where
  heap : HeapInv σ chain
  tail : σ.tail.aba + 1 = chain.length
  items : q = chain.tail.filterMap σ.itemOf

/-- Removing one element from what `filterMap` keeps. -/
theorem filterMap_erase {f f' : ℕ → Option α} {l : List ℕ} {p n : ℕ} {x : α} (hnd : l.Nodup)
    (hp : l[p]? = some n) (hx : f n = some x) (hn : f' n = none)
    (hf : ∀ m, m ≠ n → f' m = f m) :
    (l.filterMap f)[((l.take p).filterMap f).length]? = some x ∧
      l.filterMap f' = (l.filterMap f).eraseIdx ((l.take p).filterMap f).length := by
  obtain ⟨hlt, rfl⟩ := List.getElem?_eq_some_iff.mp hp
  have hsplit : l = l.take p ++ l[p] :: l.drop (p + 1) := by
    rw [← List.drop_eq_getElem_cons hlt, List.take_append_drop]
  have hmem : ∀ a ∈ l.take p ++ l.drop (p + 1), f' a = f a := by
    intro a ha
    refine hf a fun h => ?_
    rw [hsplit, List.nodup_middle, List.nodup_cons] at hnd
    exact hnd.1 (h ▸ ha)
  have hl : l.filterMap f = (l.take p).filterMap f ++ x :: (l.drop (p + 1)).filterMap f := by
    conv_lhs => rw [hsplit, List.filterMap_append, List.filterMap_cons_some hx]
  have hl' : l.filterMap f' = (l.take p).filterMap f ++ (l.drop (p + 1)).filterMap f := by
    conv_lhs => rw [hsplit, List.filterMap_append, List.filterMap_cons_none hn]
    rw [List.filterMap_congr fun a ha => hmem a (List.mem_append_left _ ha),
      List.filterMap_congr fun a ha => hmem a (List.mem_append_right _ ha)]
  rw [hl, hl']
  refine ⟨by rw [List.getElem?_append_right le_rfl, Nat.sub_self]; rfl, ?_⟩
  rw [List.eraseIdx_append_of_length_le le_rfl, Nat.sub_self]
  rfl

section Rep

variable {σ : Shared α} {chain : List ℕ} {q : List α} {n p k : ℕ} {x : α}

theorem init_rep [Inhabited α] : Rep (.init : Shared α) [sentinel] [] := ⟨init_inv, rfl, rfl⟩

/-- No item is at or before head. -/
theorem Rep.passed (hR : Rep σ chain q) : (chain.tail.take σ.head.aba).filterMap σ.itemOf = [] := by
  refine List.filterMap_eq_nil_iff.mpr fun m hm => ?_
  obtain ⟨i, hi⟩ := List.mem_iff_getElem?.mp hm
  have hlt : i < σ.head.aba := by
    have := Chain.lt_length hi
    rw [List.length_take] at this
    omega
  rw [List.getElem?_take_of_lt hlt, List.getElem?_tail] at hi
  rw [Shared.itemOf, if_pos (hR.heap.deleted (i + 1) m (by omega) (by omega) hi)]

/-- When head is at the end, no item is left. -/
theorem Rep.eq_nil (hR : Rep σ chain q) (hlast : σ.head.aba + 1 = chain.length) : q = [] := by
  rw [hR.items, ← hR.passed, List.take_of_length_le]
  rw [List.length_tail]
  omega

/-- The item of a node that is `k` nodes behind head at most is among the `k` oldest. -/
theorem Rep.take (hR : Rep σ chain q) (hp : chain[p]? = some n) (hlt : σ.head.aba < p)
    (hk : p ≤ σ.head.aba + k) (hd : (σ.node n).deleted = false) :
    ∃ i < k, q[i]? = some (σ.node n).value ∧ Rep (σ.delete n) chain (q.eraseIdx i) := by
  obtain ⟨p, rfl⟩ : ∃ p', p = p' + 1 := ⟨p - 1, by omega⟩
  rw [← List.getElem?_tail] at hp
  have hdel := (HeapInv.delete (g := ⟨chain, fun _ => 0, fun _ => .idle⟩) (t := 0) hR.heap
    (List.mem_of_getElem? hp) hd).1
  have hother : ∀ m, m ≠ n → (σ.delete n).itemOf m = σ.itemOf m := by
    intro m hm
    have hnode : (σ.delete n).node m = σ.node m := Function.update_of_ne hm ..
    rw [Shared.itemOf, Shared.itemOf, hnode]
  have hself : (σ.delete n).itemOf n = none := by
    have hnode : (σ.delete n).node n = { σ.node n with deleted := true } :=
      Function.update_self ..
    rw [Shared.itemOf, hnode]
    rfl
  obtain ⟨hget, herase⟩ := filterMap_erase (hR.heap.linked.nodup.tail) hp
    (show σ.itemOf n = some (σ.node n).value by rw [Shared.itemOf, hd]; rfl) hself hother
  refine ⟨((chain.tail.take p).filterMap σ.itemOf).length, ?_, hR.items ▸ hget, hdel, hR.tail, ?_⟩
  · -- those before head do not count
    have hsplit : chain.tail.take p =
        chain.tail.take σ.head.aba ++ (chain.tail.drop σ.head.aba).take (p - σ.head.aba) := by
      rw [← List.take_add, Nat.add_sub_cancel' (by omega)]
    rw [hsplit, List.filterMap_append, hR.passed, List.nil_append]
    have h1 := List.length_filterMap_le σ.itemOf ((chain.tail.drop σ.head.aba).take (p - σ.head.aba))
    rw [List.length_take] at h1
    omega
  · rw [herase, ← hR.items]

/-- Head is not past tail, and where they meet the queue is empty. -/
theorem Rep.head_cases (hR : Rep σ chain q) :
    σ.head.aba + 1 = chain.length ∨ σ.head.aba < σ.tail.aba := by
  have h1 := hR.heap.head_le
  have h2 := hR.tail
  omega

/-- Head moves over a deleted node. -/
theorem Rep.swingHead (hR : Rep σ chain q) (hn : chain[σ.head.aba + 1]? = some n)
    (hd : (σ.node n).deleted = true) :
    Rep { σ with head := ⟨n, σ.head.aba + 1⟩ } chain q := by
  have hlt := Chain.lt_length hn
  exact ⟨(HeapInv.swingHead (g := ⟨chain, fun _ => 0, fun _ => .idle⟩) hR.heap hn hd
    (by have := hR.tail; omega)).1, hR.tail, hR.items⟩

/-- A new node at the end of the chain. -/
theorem Rep.put (hR : Rep σ chain q) (x : α) :
    Rep { (σ.nodeNew x).setNext σ.tail.value ⟨σ.alloc, 1⟩ with
      tail := ⟨σ.alloc, σ.tail.aba + 1⟩ } (chain ++ [σ.alloc]) (q ++ [x]) := by
  obtain ⟨hnew, hown, -, -⟩ :=
    HeapInv.nodeNew (g := ⟨chain, fun _ => 0, fun _ => .idle⟩) hR.heap 0 x
  have hend : σ.tail.value < σ.alloc := hR.heap.linked.lt_alloc hR.heap.tail
  have hold : ∀ m < σ.alloc, (σ.nodeNew x).node m = σ.node m := fun m hm =>
    Function.update_of_ne (Nat.ne_of_lt hm) ..
  have hnext : ((σ.nodeNew x).node σ.tail.value).next = ⟨0, 0⟩ := by
    rw [hold _ hend]
    exact hR.heap.linked.next_none hR.heap.tail
      ((hR.heap.linked.next_eq_zero hR.heap.tail).mpr hR.tail)
  obtain ⟨hlink, -, -, hpos, -⟩ := HeapInv.link
    (g := ⟨chain, Function.update (fun _ => 0) σ.alloc 0, fun _ => .idle⟩) hnew hown
    hR.heap.tail hnext
  refine ⟨(HeapInv.swingTail (g := ⟨chain ++ [σ.alloc], fun _ => 0, fun _ => .idle⟩) hlink hpos).1,
    ?_, ?_⟩
  · rw [List.length_append, List.length_singleton, ← hR.tail]
  · -- the items of the old nodes are the same
    have hsame : ∀ m ∈ chain.tail, Shared.itemOf { (σ.nodeNew x).setNext σ.tail.value ⟨σ.alloc, 1⟩
        with tail := ⟨σ.alloc, σ.tail.aba + 1⟩ } m = σ.itemOf m := by
      intro m hm
      have hlt := (hR.heap.linked.bound m (List.mem_of_mem_tail hm)).2
      by_cases hmt : m = σ.tail.value
      · subst hmt
        simp [Shared.itemOf, Shared.setNext, hold _ hend]
      · simp [Shared.itemOf, Shared.setNext, Function.update_of_ne hmt, hold m hlt]
    have hitem : Shared.itemOf { (σ.nodeNew x).setNext σ.tail.value ⟨σ.alloc, 1⟩
        with tail := ⟨σ.alloc, σ.tail.aba + 1⟩ } σ.alloc = some x := by
      simp [Shared.itemOf, Shared.setNext, Function.update_of_ne (Nat.ne_of_gt hend),
        Shared.nodeNew]
    have hne : chain ≠ [] := by
      rintro rfl
      cases hR.heap.first
    rw [List.tail_append_of_ne_nil hne, List.filterMap_append, List.filterMap_congr hsame,
      ← hR.items, List.filterMap_cons_some hitem]
    rfl

end Rep

/-! ### Calls -/

/-- The number of calls of `pseudorand()` in an access. -/
def picks (maxRetries : ℕ) (σ : Shared α) : Local α → ℕ
  | .deqCheck retries headOld tailOld _ =>
    if σ.head = headOld ∧ headOld.value ≠ tailOld.value ∧ retries < maxRetries then 1 else 0
  | _ => 0

/-- What a call has done when it returns. -/
def Post (quasiFactor : ℕ) (q : List α) (op : BagOp α) (σ : Shared α) (r : BagRet α) : Prop :=
  ∃ q', KFifoStep quasiFactor (fun _ => False) q op r q' ∧ ∃ chain, Rep σ chain q'

section Calls

variable [Inhabited α] {quasiFactor maxRetries t k n p retries : ℕ} {σ : Shared α}
  {chain : List ℕ} {q : List α}

theorem ends_enqueue (hR : Rep σ chain q) (x : α) :
    Ends (machine α quasiFactor maxRetries) t (Post quasiFactor q (.put x)) σ (.enqNew x) := by
  have hend : σ.tail.value < σ.alloc := hR.heap.linked.lt_alloc hR.heap.tail
  have hnext : ((σ.nodeNew x).node σ.tail.value).next = ⟨0, 0⟩ := by
    rw [show (σ.nodeNew x).node σ.tail.value = σ.node σ.tail.value from
      Function.update_of_ne (Nat.ne_of_lt hend) ..]
    exact hR.heap.linked.next_none hR.heap.tail
      ((hR.heap.linked.next_eq_zero hR.heap.tail).mpr hR.tail)
  refine .go (σ.nodeNew x) (.enqTail x σ.alloc) (fun _ => rfl) ?_
  refine .go (σ.nodeNew x) (.enqNext x σ.alloc σ.tail) (fun _ => rfl) ?_
  refine .go (σ.nodeNew x) (.enqCheck x σ.alloc σ.tail ⟨0, 0⟩) (fun _ => ?_) ?_
  · simp only [step, hnext]
  refine .go (σ.nodeNew x) (.enqLink x σ.alloc σ.tail ⟨0, 0⟩) (fun _ => ?_) ?_
  · simp only [step, Shared.nodeNew, if_true]
  refine .go ((σ.nodeNew x).setNext σ.tail.value ⟨σ.alloc, 1⟩) (.enqSwing x σ.alloc σ.tail)
    (fun _ => ?_) ?_
  · simp only [step, hnext, if_true, Nat.zero_add]
  refine .stop _ (.put true) (fun _ => ?_) ⟨q ++ [x], rfl, chain ++ [σ.alloc], hR.put x⟩
  simp only [step, Shared.nodeNew, Shared.setNext, if_true]

/-- The `cas` that takes the item of a node near head. -/
theorem ends_take (hR : Rep σ chain q) (hp : chain[p]? = some n) (hlt : σ.head.aba < p)
    (hk : p ≤ σ.head.aba + quasiFactor) (hd : (σ.node n).deleted = false) :
    EndsWithin (machine α quasiFactor maxRetries) t (picks maxRetries) (Post quasiFactor q .get)
      k σ (.takeTest retries n) := by
  obtain ⟨i, hi, hget, hR'⟩ := hR.take hp hlt hk hd
  refine .go σ (.takeSwing retries n) rfl (fun _ => by simp only [step, hd, if_true]) ?_
  refine .go (σ.delete n) (.takeValue n) rfl (fun _ => by simp only [step, hd, if_true]) ?_
  refine .stop (σ.delete n) (.got (some (σ.node n).value)) rfl (fun _ => ?_)
    ⟨q.eraseIdx i, ⟨i, hi, hget, rfl⟩, chain, hR'⟩
  simp only [step, Shared.delete, Function.update_self]

/-- A dequeue from a queue whose head is at the end. -/
theorem ends_empty (hR : Rep σ chain q) (hlast : σ.head.aba + 1 = chain.length) :
    EndsWithin (machine α quasiFactor maxRetries) t (picks maxRetries) (Post quasiFactor q .get)
      k σ (.deqHead retries) := by
  have heq : σ.head.value = σ.tail.value := by
    have h := hR.heap.head
    rw [show σ.head.aba = σ.tail.aba by have := hR.tail; omega, hR.heap.tail] at h
    exact (Option.some.inj h).symm
  have hnext : (σ.node σ.head.value).next.value = 0 :=
    (hR.heap.linked.next_eq_zero hR.heap.head).mpr hlast
  obtain rfl := hR.eq_nil hlast
  refine .go σ (.deqTail retries σ.head) rfl (fun _ => rfl) ?_
  refine .go σ (.deqNext retries σ.head σ.tail) rfl (fun _ => rfl) ?_
  refine .go σ (.deqCheck retries σ.head σ.tail (σ.node σ.head.value).next) rfl (fun _ => rfl) ?_
  refine .stop σ (.got none) (if_neg fun h => h.2.1 heq) (fun _ => ?_)
    ⟨[], ⟨rfl, rfl⟩, chain, hR⟩
  simp only [step, if_true, if_pos heq, if_pos hnext]

/-- The loop over deleted nodes, which takes the oldest item. -/
theorem ends_skip (hq : 1 ≤ quasiFactor) : ∀ (d : ℕ) {σ : Shared α} {n : ℕ},
    Rep σ chain q → σ.head.aba + 1 + d = σ.tail.aba → chain[σ.head.aba + 1]? = some n →
    EndsWithin (machine α quasiFactor maxRetries) t (picks maxRetries) (Post quasiFactor q .get)
      k σ (.skipTest retries σ.head σ.tail n) := by
  -- `d` nodes are left up to tail's
  intro d
  induction d with
  | zero =>
    intro σ n hR hd hn
    by_cases hdel : (σ.node n).deleted = true
    · have hnt : n = σ.tail.value := by
        rw [hd, hR.heap.tail] at hn
        exact (Option.some.inj hn).symm
      refine .go σ (.skipSwing retries σ.head σ.tail n) rfl
        (fun _ => by simp only [step, if_pos hdel]) ?_
      refine .go { σ with head := ⟨n, σ.head.aba + 1⟩ } (.deqHead retries) rfl
        (fun _ => by simp only [step, if_true, if_pos hnt]) (ends_empty (hR.swingHead hn hdel) ?_)
      show σ.head.aba + 1 + 1 = chain.length
      have := hR.tail
      omega
    · refine .go σ (.takeTest retries n) rfl (fun _ => by simp only [step, if_neg hdel]) ?_
      exact ends_take hR hn (Nat.lt_succ_self _) (by omega) (Bool.eq_false_iff.mpr hdel)
  | succ d ih =>
    intro σ n hR hd hn
    by_cases hdel : (σ.node n).deleted = true
    · have hnt : n ≠ σ.tail.value := by
        rintro rfl
        have := hR.heap.linked.pos_unique hn hR.heap.tail
        omega
      have hnext : (σ.node n).next.value ≠ 0 := by
        intro h0
        have := (hR.heap.linked.next_eq_zero hn).mp h0
        have := hR.tail
        omega
      refine .go σ (.skipSwing retries σ.head σ.tail n) rfl
        (fun _ => by simp only [step, if_pos hdel]) ?_
      refine .go { σ with head := ⟨n, σ.head.aba + 1⟩ }
        (.skipNext retries ⟨n, σ.head.aba + 1⟩ σ.tail) rfl
        (fun _ => by simp only [step, if_true, if_neg hnt]) ?_
      refine .go { σ with head := ⟨n, σ.head.aba + 1⟩ }
        (.skipTest retries ⟨n, σ.head.aba + 1⟩ σ.tail (σ.node n).next.value) rfl
        (fun _ => by simp only [step, skipFrom, if_neg hnext]) ?_
      exact ih (hR.swingHead hn hdel) (by dsimp only; omega)
        (hR.heap.linked.next_some hn hnext)
    · refine .go σ (.takeTest retries n) rfl (fun _ => by simp only [step, if_neg hdel]) ?_
      exact ends_take hR hn (Nat.lt_succ_self _) (by omega) (Bool.eq_false_iff.mpr hdel)

/-- The end of a random walk: a deleted node sends the call back. -/
theorem ends_test (hR : Rep σ chain q) (hp : chain[p]? = some n) (hlt : σ.head.aba < p)
    (hk : p ≤ σ.head.aba + quasiFactor)
    (hback : EndsWithin (machine α quasiFactor maxRetries) t (picks maxRetries)
      (Post quasiFactor q .get) k σ (.deqHead retries)) :
    EndsWithin (machine α quasiFactor maxRetries) t (picks maxRetries) (Post quasiFactor q .get)
      k σ (.takeTest retries n) := by
  by_cases hd : (σ.node n).deleted = false
  · exact ends_take hR hp hlt hk hd
  · exact .go σ (.deqHead retries) rfl (fun _ => by simp only [step, if_neg hd]) hback

/-- The random walk: `d` steps at most are left. -/
theorem ends_walk {randomIndex : ℕ} (hR : Rep σ chain q)
    (hback : EndsWithin (machine α quasiFactor maxRetries) t (picks maxRetries)
      (Post quasiFactor q .get) k σ (.deqHead retries)) :
    ∀ (d : ℕ) {i p n : ℕ}, i + d = randomIndex → chain[p]? = some n → σ.head.aba < p →
      p + d ≤ σ.head.aba + quasiFactor →
      EndsWithin (machine α quasiFactor maxRetries) t (picks maxRetries)
        (Post quasiFactor q .get) k σ (walkFrom retries randomIndex i n) := by
  intro d
  induction d with
  | zero =>
    intro i p n hi hn hlt hk
    rw [walkFrom, if_neg (by omega)]
    exact ends_test hR hn hlt hk hback
  | succ d ih =>
    intro i p n hi hn hlt hk
    rw [walkFrom, if_pos (by omega)]
    by_cases hnext : (σ.node n).next.value ≠ 0
    · refine .go σ (.walkNext retries randomIndex i n) rfl
        (fun _ => by simp only [step, if_pos hnext]) ?_
      refine .go σ (walkFrom retries randomIndex (i + 1) (σ.node n).next.value) rfl
        (fun _ => rfl) ?_
      exact ih (by omega) (hR.heap.linked.next_some hn hnext) (by omega) (by omega)
    · refine .go σ (.takeTest retries n) rfl (fun _ => by simp only [step, if_neg hnext]) ?_
      exact ends_test hR hn hlt (by omega) hback

/-- One round of a dequeue, where head is not at the end; `hback` is what follows a round in
which `pseudorand()` chose a node that is deleted. -/
theorem ends_round (hq : 1 ≤ quasiFactor) {m : ℕ} (hR : Rep σ chain q)
    (hlt : σ.head.aba < σ.tail.aba) (hcost : (if retries < maxRetries then 1 else 0) + m ≤ k)
    (hback : retries < maxRetries → quasiFactor ≠ 1 →
      EndsWithin (machine α quasiFactor maxRetries) t (picks maxRetries)
        (Post quasiFactor q .get) m σ (.deqHead ((retries + 1) % wordSize))) :
    EndsWithin (machine α quasiFactor maxRetries) t (picks maxRetries) (Post quasiFactor q .get)
      k σ (.deqHead retries) := by
  have hne : σ.head.value ≠ σ.tail.value := by
    intro h
    have := hR.heap.linked.pos_unique (h ▸ hR.heap.head) hR.heap.tail
    omega
  have hnext : (σ.node σ.head.value).next.value ≠ 0 := by
    intro h0
    have := (hR.heap.linked.next_eq_zero hR.heap.head).mp h0
    have := hR.tail
    omega
  have hn := hR.heap.linked.next_some hR.heap.head hnext
  refine .go σ (.deqTail retries σ.head) rfl (fun _ => rfl) ?_
  refine .go σ (.deqNext retries σ.head σ.tail) rfl (fun _ => rfl) ?_
  refine .go σ (.deqCheck retries σ.head σ.tail (σ.node σ.head.value).next) rfl (fun _ => rfl) ?_
  refine .draw (m := m) (fun ch : ℕ =>
    if (if maxRetries ≤ retries then 0 else ch % quasiFactor) = 0 then
      .skipTest ((retries + 1) % wordSize) σ.head σ.tail (σ.node σ.head.value).next.value
    else walkFrom ((retries + 1) % wordSize)
      (if maxRetries ≤ retries then 0 else ch % quasiFactor) 0
      (σ.node σ.head.value).next.value) ?_ (fun ch : ℕ => ?_) fun ch : ℕ => ?_
  · simpa only [picks, hne, true_and, ne_eq, not_false_eq_true] using hcost
  · simp only [step, if_true, if_neg hne, skipFrom, if_neg hnext]
    by_cases h0 : (if maxRetries ≤ retries then 0 else ch % quasiFactor) = 0
    · rw [if_pos h0, if_pos h0]
    · rw [if_neg h0, if_neg h0]
  · have hindex : (if maxRetries ≤ retries then 0 else ch % quasiFactor) < quasiFactor := by
      split_ifs
      · exact hq
      · exact Nat.mod_lt _ hq
    have hzero : maxRetries ≤ retries →
        (if maxRetries ≤ retries then 0 else ch % quasiFactor) = 0 := fun h => if_pos h
    generalize (if maxRetries ≤ retries then 0 else ch % quasiFactor) = randomIndex at *
    by_cases h0 : randomIndex = 0
    · rw [if_pos h0]
      exact ends_skip hq (σ.tail.aba - (σ.head.aba + 1)) hR (by omega) hn
    · rw [if_neg h0]
      have hretries : retries < maxRetries := Nat.lt_of_not_le fun h => h0 (hzero h)
      exact ends_walk hR (hback hretries (by omega)) randomIndex (Nat.zero_add _) hn
        (Nat.lt_succ_self _) (by omega)

/-- **A dequeue** picks `max_retries_` random positions at most. -/
theorem ends_dequeue (hq : 1 ≤ quasiFactor) (hm : maxRetries < wordSize) (hR : Rep σ chain q) :
    ∀ (k : ℕ) {retries : ℕ}, maxRetries ≤ retries + k →
      EndsWithin (machine α quasiFactor maxRetries) t (picks maxRetries)
        (Post quasiFactor q .get) k σ (.deqHead retries) := by
  rcases hR.head_cases with hlast | hlt
  · exact fun _ _ _ => ends_empty hR hlast
  · intro k
    induction k with
    | zero =>
      intro retries hle
      refine ends_round (m := 0) hq hR hlt (by rw [if_neg (by omega)]) fun h _ => ?_
      omega
    | succ k ih =>
      intro retries hle
      refine ends_round (m := k) hq hR hlt (by split_ifs <;> omega) fun h _ => ?_
      rw [Nat.mod_eq_of_lt (by omega)]
      exact ih (by omega)

/-- With quasi factor one, there is no other position than the oldest. -/
theorem ends_dequeue_one (hk : 0 < k) (hR : Rep σ chain q) :
    EndsWithin (machine α 1 maxRetries) t (picks maxRetries) (Post 1 q .get) k σ
      (.deqHead retries) := by
  rcases hR.head_cases with hlast | hlt
  · exact ends_empty hR hlast
  · exact ends_round (m := 0) le_rfl hR hlt (by split_ifs <;> omega) fun _ h => absurd rfl h

theorem ends_call (hq : 1 ≤ quasiFactor) (hm : maxRetries < wordSize) (hR : Rep σ chain q)
    (op : BagOp α) :
    Ends (machine α quasiFactor maxRetries) t (Post quasiFactor q op) σ (start op) := by
  cases op with
  | put x => exact ends_enqueue hR x
  | get => exact (ends_dequeue hq hm hR maxRetries (Nat.le_add_left ..)).ends

/-- **The random dequeue queue, used by one thread at a time, is a k-FIFO queue** for its
quasi factor, whatever `max_retries_` is. -/
theorem sequential_kFifo (hq : 1 ≤ quasiFactor) (hm : maxRetries < wordSize) :
    Sequential (machine α quasiFactor maxRetries) (fun _ _ => true)
      (kFifoSpec quasiFactor fun _ => False) :=
  sequential_of_simulation (fun σ q => ∃ chain, Rep σ chain q) ⟨[sentinel], init_rep⟩
    fun _ _ _ op ⟨_, hR⟩ _ => ends_call hq hm hR op

theorem sequential_kFifo_two :
    Sequential (machine ℕ 2 1) (fun _ _ => true) (kFifoSpec 2 fun _ => False) :=
  sequential_kFifo (by decide) (by decide)

/-! ### The number of random positions -/

/-- With `memory` in `max_retries_`, every dequeue that runs alone returns, and picks
`maxRetries` random positions at most. -/
def PicksBounded (α : Type) [Inhabited α] (quasiFactor maxRetries memory : ℕ) : Prop :=
  ∀ as σ L, solos (machine α quasiFactor memory) (fun _ _ => true)
      (machine α quasiFactor memory).init as = some (σ, L) →
    ∀ t, ∀ choice : ℕ → ℕ,
      (∃ n p, solo (machine α quasiFactor memory) t ((List.range n).map choice) σ (start .get) =
        some p) ∧
      ∀ n, spent (machine α quasiFactor memory) t (picks memory) ((List.range n).map choice) σ
        (start .get) ≤ maxRetries

theorem picksBounded_of_ends {memory : ℕ} (hq : 1 ≤ quasiFactor) (hm : memory < wordSize)
    (h : ∀ {σ : Shared α} {chain : List ℕ} {q : List α} (t : ℕ), Rep σ chain q →
      EndsWithin (machine α quasiFactor memory) t (picks memory) (Post quasiFactor q .get)
        maxRetries σ (start .get)) : PicksBounded α quasiFactor maxRetries memory := by
  intro as σ L has t choice
  obtain ⟨q, -, chain, hR⟩ := solos_of_simulation (S := kFifoSpec quasiFactor fun _ => False)
    (R := fun σ q => ∃ chain, Rep σ chain q)
    (fun _ _ _ op ⟨_, hR⟩ _ => ends_call hq hm hR op) as ⟨[sentinel], init_rep⟩ has
  obtain ⟨n, σ', r, hr, -⟩ := (h t hR).ends.returns choice
  exact ⟨⟨n, (σ', r), hr⟩, fun n => (h t hR).spent_le _⟩

/-- Two items, of which the second is deleted. -/
structure Hole (σ : Shared α) : Prop where
  head : σ.head = ⟨1, 0⟩
  tail : σ.tail.value = 3
  first : (σ.node 1).next.value = 2
  second : (σ.node 2).next.value = 3
  deleted : (σ.node 3).deleted = true

/-- The random position one is picked again and again. -/
theorem Hole.spent {memory : ℕ} (hH : Hole σ) (hq : 2 ≤ quasiFactor) (hm : memory < wordSize) :
    ∀ (j : ℕ) {k : ℕ}, k + j ≤ memory →
      spent (machine α quasiFactor memory) t (picks memory) (List.replicate (7 * j) 1) σ
        (.deqHead k) = j := by
  intro j
  induction j with
  | zero =>
    intro k _
    rfl
  | succ j ih =>
    intro k hk
    have hone : 1 % quasiFactor = 1 := Nat.mod_eq_of_lt hq
    have hlt : ¬ memory ≤ k := by omega
    have hpick : k < memory := by omega
    have hnext := ih (k := k + 1) (by omega)
    rw [show 7 * (j + 1) = 7 * j + 7 by omega]
    simp [List.replicate_succ, Interleave.spent, step, picks, hH.head, hH.tail, hH.first,
      hH.second, hH.deleted, hone, hlt, hpick, walkFrom,
      Nat.mod_eq_of_lt (show k + 1 < wordSize by omega), hnext]
    exact Nat.add_comm 1 j

theorem exists_hole {memory : ℕ} (hq : 2 ≤ quasiFactor) (hm : 0 < memory) :
    ∃ as σ L, solos (machine α quasiFactor memory) (fun _ _ => true)
      (machine α quasiFactor memory).init as = some (σ, L) ∧ Hole σ := by
  have hone : 1 % quasiFactor = 1 := Nat.mod_eq_of_lt hq
  refine ⟨[⟨0, .put default, List.replicate 6 0⟩, ⟨0, .put default, List.replicate 6 0⟩,
    ⟨0, .get, List.replicate 9 1⟩], ?_⟩
  simp [solos, solo, step, start, hone, hm.ne', walkFrom, Shared.init, Shared.nodeNew,
    Shared.setNext, Shared.delete, sentinel, List.replicate_succ]
  constructor
  all_goals simp

/-- **The number of random positions is bounded** by the constructor's argument exactly if
`max_retries_`, which the constructor does not set, is, or the only position is tried once. -/
theorem picksBounded_iff {memory : ℕ} (hq : 1 ≤ quasiFactor) (hm : memory < wordSize) :
    PicksBounded α quasiFactor maxRetries memory ↔
      memory ≤ maxRetries ∨ quasiFactor = 1 ∧ 0 < maxRetries := by
  constructor
  · intro h
    by_contra hcond
    have hlt : maxRetries < memory := Nat.lt_of_not_le fun h => hcond (Or.inl h)
    rcases Nat.lt_or_eq_of_le hq with hq2 | rfl
    · obtain ⟨as, σ, L, has, hH⟩ := exists_hole (α := α) hq2 (Nat.zero_lt_of_lt hlt)
      have hle := (h as σ L has 0 fun _ => 1).2 (7 * (maxRetries + 1))
      rw [List.map_const', List.length_range, start,
        hH.spent hq2 hm (maxRetries + 1) (by omega)] at hle
      omega
    · -- the first position counts
      have hzero : maxRetries = 0 := by omega
      have hle := (h [⟨0, .put default, List.replicate 6 0⟩] _ _ rfl 0 fun _ => 0).2 4
      rw [hzero] at hle
      simp [spent, step, picks, start, Shared.init, Shared.nodeNew, Shared.setNext, sentinel,
        List.range_succ] at hle
      omega
  · rintro (hle | ⟨rfl, hpos⟩)
    · exact picksBounded_of_ends hq hm fun t hR => ends_dequeue hq hm hR maxRetries
        (hle.trans (Nat.le_add_left ..))
    · exact picksBounded_of_ends hq hm fun t hR => ends_dequeue_one hpos hR

theorem picksBounded_iff_two : PicksBounded ℕ 2 3 3 ↔ 3 ≤ 3 ∨ 2 = 1 ∧ 0 < 3 :=
  picksBounded_iff (by decide) (by decide)

/-- With one retry wanted, and two in memory. -/
theorem not_picksBounded_two : ¬ PicksBounded ℕ 2 1 2 := by
  intro h
  have hle := (h [⟨0, .put 5, List.replicate 6 0⟩, ⟨0, .put 6, List.replicate 6 0⟩,
    ⟨0, .get, List.replicate 9 1⟩] _ _ rfl 0 fun _ => 1).2 14
  exact absurd hle (by decide)

end Calls

end RandomDequeueQueue

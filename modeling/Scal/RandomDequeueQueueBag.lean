/-
The random dequeue queue is a linearizable bag.

The nodes form one chain, as in a Michael–Scott queue, and the counters of `head_` and
`tail_` are positions in it.  A node's item is in the bag from the `cas` that links the
node until the `cas` that sets `deleted` (`itemAt`).

* `HeapInv` — head is not past tail, and all nodes up to head are deleted, with one
  lemma for each change of the memory;
* `Fact` — what a thread knows, however long it is delayed;
* `not_refused` — every enqueue that returns has put its item;
* `linearizable_bag` — every reachable history is linearizable, and in every reachable
  state no node at or before head's is undeleted, but for the sentinel.
-/
import Scal.RandomDequeueQueue
import Scal.Chain

open Interleave Linearizability

namespace RandomDequeueQueue

variable {α : Type}

/-! ### The memory -/

/-- The nodes linked so far, in order, the thread that allocated each node, and how far
the threads have got. -/
structure Ghost (α : Type) where
  chain : List ℕ
  owner : ℕ → ℕ
  stat : ℕ → Status α

/-- The item that node `n` adds to the bag. -/
def itemAt (σ : Shared α) (chain : List ℕ) (n : ℕ) : Option α :=
  if n ∈ chain.tail ∧ (σ.node n).deleted = false then some (σ.node n).value else none

structure HeapInv (σ : Shared α) (chain : List ℕ) : Prop where
  linked : Chain (fun n => (σ.node n).next) σ.alloc chain
  first : chain[0]? = some sentinel
  head : chain[σ.head.aba]? = some σ.head.value
  tail : chain[σ.tail.aba]? = some σ.tail.value
  head_le : σ.head.aba ≤ σ.tail.aba
  deleted : ∀ k n, 1 ≤ k → k ≤ σ.head.aba → chain[k]? = some n → (σ.node n).deleted = true

section Heap

variable {σ : Shared α} {chain : List ℕ} {n p k : ℕ} {x : α}

/-- The nodes after the first one. -/
theorem mem_tail_iff : n ∈ chain.tail ↔ ∃ k, 1 ≤ k ∧ chain[k]? = some n := by
  constructor
  · intro h
    obtain ⟨k, hk⟩ := List.mem_iff_getElem?.mp h
    rw [List.getElem?_tail] at hk
    exact ⟨k + 1, by omega, hk⟩
  · rintro ⟨k, hk, hget⟩
    obtain ⟨k, rfl⟩ : ∃ m, k = m + 1 := ⟨k - 1, by omega⟩
    rw [← List.getElem?_tail] at hget
    exact List.mem_of_getElem? hget

/-- `follow` walks along the chain. -/
theorem HeapInv.follow_eq (hI : HeapInv σ chain) : ∀ (fuel i : ℕ), i ≤ chain.length →
    chain.length - i ≤ fuel → follow σ.node fuel ((chain[i]?).getD 0) = chain.drop i := by
  intro fuel
  induction fuel with
  | zero =>
    intro i hi hf
    rw [List.drop_eq_nil_of_le (by omega), follow]
  | succ fuel ih =>
    intro i hi hf
    rcases Nat.lt_or_ge i chain.length with hl | hl
    · have hget : chain[i]? = some chain[i] := List.getElem?_eq_getElem hl
      have hnext : (σ.node chain[i]).next.value = (chain[i + 1]?).getD 0 := by
        rw [hI.linked.next i _ hget]
      rw [hget, Option.getD_some, follow, if_neg (hI.linked.ne_zero hget), hnext,
        ih (i + 1) hl (by omega), List.drop_eq_getElem_cons hl]
    · rw [List.getElem?_eq_none hl, List.drop_eq_nil_of_le hl, Option.getD_none, follow,
        if_pos rfl]

theorem HeapInv.nodes_eq (hI : HeapInv σ chain) : σ.nodes = chain := by
  have h := hI.follow_eq σ.alloc 0 (Nat.zero_le _) (by simpa using hI.linked.length_le)
  rwa [hI.first, Option.getD_some, List.drop_zero] at h

/-- When all positions up to the last one are deleted, the bag is empty. -/
theorem HeapInv.itemAt_eq_none (hI : HeapInv σ chain) (hlast : chain.length ≤ σ.head.aba + 1)
    (m : ℕ) : itemAt σ chain m = none := by
  rw [itemAt, if_neg]
  rintro ⟨hm, hd⟩
  obtain ⟨k, hk, hget⟩ := mem_tail_iff.mp hm
  have hlt := Chain.lt_length hget
  rw [hI.deleted k m hk (by omega) hget] at hd
  cases hd

/-- A node that thread `t` allocated and has not linked yet. -/
structure Own (t n : ℕ) (item : α) (σ : Shared α) (g : Ghost α) : Prop where
  owner : g.owner n = t
  lt : n < σ.alloc
  ne : n ≠ 0
  unlinked : n ∉ g.chain
  node : σ.node n = ⟨⟨0, 0⟩, item, false⟩

/-- What thread `u` relies on about the steps of other threads. -/
structure Rely (u : ℕ) (σ : Shared α) (g : Ghost α) (σ' : Shared α) (g' : Ghost α) : Prop where
  chain : g.chain <+: g'.chain
  alloc : σ.alloc ≤ σ'.alloc
  head : σ.head.aba ≤ σ'.head.aba
  tail : σ.tail.aba ≤ σ'.tail.aba
  value : ∀ n < σ.alloc, (σ'.node n).value = (σ.node n).value
  deleted : ∀ n < σ.alloc, (σ.node n).deleted = true → (σ'.node n).deleted = true
  own : ∀ n < σ.alloc, g.owner n = u → n ∉ g.chain →
    g'.owner n = u ∧ n ∉ g'.chain ∧ σ'.node n = σ.node n
  stat : g'.stat u = g.stat u

theorem Rely.refl (u : ℕ) (σ : Shared α) (g : Ghost α) : Rely u σ g σ g :=
  ⟨List.prefix_refl _, le_rfl, le_rfl, le_rfl, fun _ _ => rfl, fun _ _ h => h,
    fun _ _ ho hc => ⟨ho, hc, rfl⟩, rfl⟩

theorem init_inv [Inhabited α] : HeapInv (.init : Shared α) [sentinel] :=
  ⟨.singleton (by decide) (by simp [Shared.init, sentinel]) rfl, rfl, rfl, rfl, le_rfl,
    fun k n h1 h2 => by simp [Shared.init] at h2; omega⟩

end Heap

section Changes

variable {σ : Shared α} {g : Ghost α} {t n p k : ℕ} {x : α}

theorem HeapInv.nodeNew (hI : HeapInv σ g.chain) (t : ℕ) (x : α) :
    HeapInv (σ.nodeNew x) g.chain ∧
      Own t σ.alloc x (σ.nodeNew x) { g with owner := Function.update g.owner σ.alloc t } ∧
      itemAt (σ.nodeNew x) g.chain = itemAt σ g.chain ∧
      ∀ u, Rely u σ g (σ.nodeNew x) { g with owner := Function.update g.owner σ.alloc t } := by
  have hold : ∀ n < σ.alloc, (σ.nodeNew x).node n = σ.node n := fun n hn =>
    Function.update_of_ne (Nat.ne_of_lt hn) ..
  have hlt : ∀ n ∈ g.chain, n < σ.alloc := fun n hn => (hI.linked.bound n hn).2
  have hnot : σ.alloc ∉ g.chain := fun hm => Nat.lt_irrefl _ (hlt _ hm)
  refine ⟨⟨hI.linked.congr (Nat.le_succ _) fun n hn => by rw [hold n (hlt n hn)], hI.first, hI.head,
      hI.tail, hI.head_le, fun k n h1 h2 hn => ?_⟩,
    ⟨by simp, by simp [Shared.nodeNew], hI.linked.alloc, hnot, by simp [Shared.nodeNew]⟩, ?_,
    fun u => ⟨List.prefix_refl _, Nat.le_succ _, le_rfl, le_rfl, fun n hn => by rw [hold n hn],
      fun n hn h => by rwa [hold n hn], fun n hn ho hc => ⟨?_, hc, hold n hn⟩, rfl⟩⟩
  · rw [hold n (hlt n (List.mem_of_getElem? hn))]
    exact hI.deleted k n h1 h2 hn
  · funext m
    by_cases hm : m ∈ g.chain.tail
    · rw [itemAt, itemAt, hold m (hlt m (List.mem_of_mem_tail hm))]
    · simp [itemAt, hm]
  · simpa [Function.update_of_ne (Nat.ne_of_lt hn)] using ho

/-- **Linking** puts the item into the bag. -/
theorem HeapInv.link (hI : HeapInv σ g.chain) (ho : Own t n x σ g) (hp : g.chain[k]? = some p)
    (hw : (σ.node p).next = ⟨0, 0⟩) :
    HeapInv (σ.setNext p ⟨n, 1⟩) (g.chain ++ [n]) ∧ itemAt σ g.chain n = none ∧
      itemAt (σ.setNext p ⟨n, 1⟩) (g.chain ++ [n]) =
        Function.update (itemAt σ g.chain) n (some x) ∧
      (g.chain ++ [n])[k + 1]? = some n ∧
      ∀ st u, u ≠ t → Rely u σ g (σ.setNext p ⟨n, 1⟩)
        { g with chain := g.chain ++ [n], stat := Function.update g.stat t st } := by
  have hnode : ∀ m, m ≠ p → (σ.setNext p ⟨n, 1⟩).node m = σ.node m := fun m hm =>
    Function.update_of_ne hm ..
  have hval : ∀ m, ((σ.setNext p ⟨n, 1⟩).node m).value = (σ.node m).value ∧
      ((σ.setNext p ⟨n, 1⟩).node m).deleted = (σ.node m).deleted := by
    intro m
    by_cases hm : m = p
    · subst hm; simp [Shared.setNext]
    · rw [hnode m hm]
      exact ⟨rfl, rfl⟩
  have hnext : (fun m => ((σ.setNext p ⟨n, 1⟩).node m).next) =
      Function.update (fun m => (σ.node m).next) p ⟨n, 1⟩ := by
    funext m
    by_cases hm : m = p
    · subst hm; simp [Shared.setNext]
    · simp [hnode m hm, Function.update_of_ne hm]
  obtain ⟨hlast, hC⟩ := hI.linked.append hp hw ho.unlinked ho.ne ho.lt (by rw [ho.node])
  have hmono : ∀ {i m : ℕ}, g.chain[i]? = some m → (g.chain ++ [n])[i]? = some m := fun h =>
    Chain.getElem?_mono (List.prefix_append ..) h
  have hhead : σ.head.aba < g.chain.length := Chain.lt_length hI.head
  have htail : (g.chain ++ [n]).tail = g.chain.tail ++ [n] :=
    List.tail_append_of_ne_nil (List.ne_nil_of_mem (List.mem_of_getElem? hp))
  refine ⟨⟨by rw [hnext]; exact hC, hmono hI.first, hmono hI.head, hmono hI.tail, hI.head_le,
    fun i m h1 h2 hm => ?_⟩, ?_, ?_, ?_, fun st u hu => ⟨List.prefix_append _ _, le_rfl, le_rfl,
      le_rfl, fun m _ => (hval m).1, fun m _ h => by rwa [(hval m).2],
      fun m _ hmo hmc => ⟨hmo, fun hm => ?_, hnode m fun h => hmc (h ▸ List.mem_of_getElem? hp)⟩,
      Function.update_of_ne hu ..⟩⟩
  · have hi : i < g.chain.length := lt_of_le_of_lt h2 hhead
    rw [List.getElem?_append_left hi] at hm
    rw [(hval m).2]
    exact hI.deleted i m h1 h2 hm
  · rw [itemAt, if_neg fun h => ho.unlinked (List.mem_of_mem_tail h.1)]
  · funext m
    by_cases hm : m = n
    · subst hm
      rw [Function.update_self, itemAt, (hval m).1, (hval m).2, ho.node, if_pos]
      exact ⟨by rw [htail]; simp, rfl⟩
    · rw [Function.update_of_ne hm, itemAt, itemAt, (hval m).1, (hval m).2, htail]
      simp [hm]
  · rw [hlast, List.getElem?_concat_length]
  · rcases List.mem_append.mp hm with hm | hm
    · exact hmc hm
    · obtain rfl := List.mem_singleton.mp hm
      exact hu (hmo.symm.trans ho.owner)

theorem HeapInv.swingTail (hI : HeapInv σ g.chain)
    (hn : g.chain[σ.tail.aba + 1]? = some n) :
    HeapInv { σ with tail := ⟨n, σ.tail.aba + 1⟩ } g.chain ∧
      ∀ u, Rely u σ g { σ with tail := ⟨n, σ.tail.aba + 1⟩ } g :=
  ⟨⟨hI.linked, hI.first, hI.head, hn, hI.head_le.trans (Nat.le_succ _), hI.deleted⟩, fun _ =>
    ⟨List.prefix_refl _, le_rfl, le_rfl, Nat.le_succ _, fun _ _ => rfl, fun _ _ h => h,
      fun _ _ ho hc => ⟨ho, hc, rfl⟩, rfl⟩⟩

/-- Head moves over a deleted node; tail is ahead, so head does not pass it. -/
theorem HeapInv.swingHead (hI : HeapInv σ g.chain) (hn : g.chain[σ.head.aba + 1]? = some n)
    (hd : (σ.node n).deleted = true) (hlt : σ.head.aba < σ.tail.aba) :
    HeapInv { σ with head := ⟨n, σ.head.aba + 1⟩ } g.chain ∧
      ∀ u, Rely u σ g { σ with head := ⟨n, σ.head.aba + 1⟩ } g := by
  refine ⟨⟨hI.linked, hI.first, hn, hI.tail, hlt, fun k m h1 h2 hm => ?_⟩, fun u =>
    ⟨List.prefix_refl _, le_rfl, Nat.le_succ _, le_rfl, fun _ _ => rfl, fun _ _ h => h,
      fun _ _ ho hc => ⟨ho, hc, rfl⟩, rfl⟩⟩
  rcases Nat.lt_or_eq_of_le h2 with h2 | rfl
  · exact hI.deleted k m h1 (Nat.le_of_lt_succ h2) hm
  · show (σ.node m).deleted = true
    have hnm : n = m := Option.some.inj (hn.symm.trans hm)
    rwa [← hnm]

/-- **Deleting** takes the item out of the bag. -/
theorem HeapInv.delete (hI : HeapInv σ g.chain) (hn : n ∈ g.chain.tail)
    (hd : (σ.node n).deleted = false) :
    HeapInv (σ.delete n) g.chain ∧ itemAt σ g.chain n = some (σ.node n).value ∧
      itemAt (σ.delete n) g.chain = Function.update (itemAt σ g.chain) n none ∧
      (∀ m, ((σ.delete n).node m).value = (σ.node m).value) ∧
      ∀ st u, u ≠ t → Rely u σ g (σ.delete n) { g with stat := Function.update g.stat t st } := by
  have hnode : ∀ m, m ≠ n → (σ.delete n).node m = σ.node m := fun m hm =>
    Function.update_of_ne hm ..
  have hself : (σ.delete n).node n = { σ.node n with deleted := true } :=
    Function.update_self ..
  have hval : ∀ m, ((σ.delete n).node m).value = (σ.node m).value ∧
      ((σ.delete n).node m).next = (σ.node m).next ∧
      ((σ.node m).deleted = true → ((σ.delete n).node m).deleted = true) := by
    intro m
    by_cases hm : m = n
    · subst hm
      rw [hself]
      exact ⟨rfl, rfl, fun _ => rfl⟩
    · rw [hnode m hm]
      exact ⟨rfl, rfl, id⟩
  refine ⟨⟨hI.linked.congr le_rfl fun m _ => (hval m).2.1, hI.first, hI.head, hI.tail, hI.head_le,
    fun k m h1 h2 hm => (hval m).2.2 (hI.deleted k m h1 h2 hm)⟩, if_pos ⟨hn, hd⟩, ?_,
    fun m => (hval m).1, fun st u hu => ⟨List.prefix_refl _, le_rfl, le_rfl, le_rfl,
      fun m _ => (hval m).1, fun m _ => (hval m).2.2, fun m _ ho hc => ⟨ho, hc, hnode m ?_⟩,
      Function.update_of_ne hu ..⟩⟩
  · funext m
    by_cases hm : m = n
    · subst hm
      rw [Function.update_self, itemAt, hself, if_neg (by simp)]
    · rw [Function.update_of_ne hm, itemAt, itemAt, hnode m hm]
  · rintro rfl
    exact hc (List.mem_of_mem_tail hn)

end Changes

/-! ### What a thread knows -/

/-- Facts that stay true once they are true. -/
inductive Fact (α : Type) where
  /-- The call has no effect yet. -/
  | waiting (op : BagOp α)
  | finished (op : BagOp α) (r : BagRet α)
  /-- The call took the item of this node. -/
  | got (n : ℕ)
  /-- If `next` is `NULL` then the bag was empty during the call. -/
  | emptied (next : AtomicPointer)
  /-- The node is private and holds the item. -/
  | own (n : ℕ) (item : α)
  /-- `tail_` once was this word. -/
  | tailRead (w : AtomicPointer)
  /-- `head_` once was this word. -/
  | headRead (w : AtomicPointer)
  /-- The node has this position in the chain. -/
  | link (i n : ℕ)
  /-- The `next` word of the chain's node at position `i` once was `w`. -/
  | nextRead (i : ℕ) (w : AtomicPointer)
  /-- The node is not the sentinel. -/
  | isItem (n : ℕ)
  /-- Nor is it the last node. -/
  | isInner (n : ℕ)
  | deleted (n : ℕ)

def Fact.Holds (t id : ℕ) (σ : Shared α) (g : Ghost α) : Fact α → Prop
  | .waiting op => ∃ s, g.stat t = .pending id op s
  | .finished op r => g.stat t = .done id op r
  | .got n => n < σ.alloc ∧ g.stat t = .done id .get (.got (some (σ.node n).value))
  | .emptied p => p.value = 0 → g.stat t = .pending id .get true
  | .own n item => Own t n item σ g
  | .tailRead p => g.chain[p.aba]? = some p.value ∧ p.aba ≤ σ.tail.aba
  | .headRead p => g.chain[p.aba]? = some p.value ∧ p.aba ≤ σ.head.aba
  | .link i n => g.chain[i]? = some n
  | .nextRead i p => p = ⟨0, 0⟩ ∨ p.value ≠ 0 ∧ g.chain[i + 1]? = some p.value
  | .isItem n => ∃ k, 1 ≤ k ∧ g.chain[k]? = some n
  | .isInner n => ∃ k, 1 ≤ k ∧ g.chain[k]? = some n ∧ k + 1 < g.chain.length
  | .deleted n => n < σ.alloc ∧ (σ.node n).deleted = true

theorem Fact.Holds.rely {t id : ℕ} {σ σ' : Shared α} {g g' : Ghost α} {F : Fact α}
    (hF : F.Holds t id σ g) (hr : Rely t σ g σ' g') : F.Holds t id σ' g' := by
  have hget : ∀ {i n : ℕ}, g.chain[i]? = some n → g'.chain[i]? = some n := fun h =>
    Chain.getElem?_mono hr.chain h
  cases F with
  | waiting op =>
    obtain ⟨s, hs⟩ := hF
    exact ⟨s, hr.stat.trans hs⟩
  | finished op r => exact hr.stat.trans hF
  | got n =>
    refine ⟨hF.1.trans_le hr.alloc, ?_⟩
    rw [hr.value n hF.1]
    exact hr.stat.trans hF.2
  | emptied p => exact fun h0 => hr.stat.trans (hF h0)
  | own n item =>
    obtain ⟨ho, hc, hn⟩ := hr.own n hF.lt hF.owner hF.unlinked
    exact ⟨ho, hF.lt.trans_le hr.alloc, hF.ne, hc, hn.trans hF.node⟩
  | tailRead p => exact ⟨hget hF.1, hF.2.trans hr.tail⟩
  | headRead p => exact ⟨hget hF.1, hF.2.trans hr.head⟩
  | link i n => exact hget hF
  | nextRead i p => exact hF.imp_right fun h => ⟨h.1, hget h.2⟩
  | isItem n =>
    obtain ⟨k, hk, h⟩ := hF
    exact ⟨k, hk, hget h⟩
  | isInner n =>
    obtain ⟨k, hk, h, hlt⟩ := hF
    exact ⟨k, hk, hget h, hlt.trans_le hr.chain.length_le⟩
  | deleted n => exact ⟨hF.1.trans_le hr.alloc, hr.deleted n hF.1 hF.2⟩

/-- What a thread knows at each point of its call. -/
def Local.facts : Local α → List (Fact α)
  | .enqNew x => [.waiting (.put x)]
  | .enqTail x n => [.waiting (.put x), .own n x]
  | .enqNext x n tl => [.waiting (.put x), .own n x, .tailRead tl]
  | .enqCheck x n tl nx => [.waiting (.put x), .own n x, .tailRead tl, .nextRead tl.aba nx]
  | .enqLink x n tl _ => [.waiting (.put x), .own n x, .tailRead tl]
  | .enqHelp x n tl nx => [.waiting (.put x), .own n x, .link (tl.aba + 1) nx.value]
  | .enqSwing x n tl => [.finished (.put x) (.put true), .link (tl.aba + 1) n]
  | .deqHead _ => [.waiting .get]
  | .deqTail _ hd => [.waiting .get, .headRead hd]
  | .deqNext _ hd tl => [.waiting .get, .headRead hd, .tailRead tl]
  | .deqCheck _ hd tl nx =>
    [.waiting .get, .headRead hd, .tailRead tl, .nextRead hd.aba nx, .emptied nx]
  | .deqHelp _ tl nx => [.waiting .get, .link (tl.aba + 1) nx.value]
  | .skipTest _ hd tl n => [.waiting .get, .headRead hd, .tailRead tl, .link (hd.aba + 1) n]
  | .skipSwing _ hd tl n =>
    [.waiting .get, .headRead hd, .tailRead tl, .link (hd.aba + 1) n, .deleted n]
  | .skipNext _ hd tl => [.waiting .get, .headRead hd, .tailRead tl]
  | .walkTest _ _ _ n => [.waiting .get, .isItem n]
  | .walkNext _ _ _ n => [.waiting .get, .isInner n]
  | .takeTest _ n => [.waiting .get, .isItem n]
  | .takeSwing _ n => [.waiting .get, .isItem n]
  | .takeValue n => [.got n]

/-- What the local variables say without reference to the memory. -/
def Local.Shape : Local α → Prop
  | .enqLink _ _ _ nx => nx = ⟨0, 0⟩
  | .deqNext _ hd tl => hd.aba ≤ tl.aba
  | .deqCheck _ hd tl nx => hd.aba ≤ tl.aba ∧ (hd.aba < tl.aba → nx.value ≠ 0)
  | .skipTest _ hd tl _ => hd.aba < tl.aba
  | .skipSwing _ hd tl _ => hd.aba < tl.aba
  | .skipNext _ hd tl => hd.aba < tl.aba
  | _ => True

section Outline

variable [Inhabited α] {quasiFactor maxRetries : ℕ}

structure Inv (w : World (machine α quasiFactor maxRetries) (Ghost α)) : Prop where
  heap : HeapInv w.shared w.ghost.chain
  lin : Lin w.events (itemAt w.shared w.ghost.chain) w.ghost.stat

/-- The proof outline: every pending call knows the facts of its local state. -/
def outline (α : Type) [Inhabited α] (quasiFactor maxRetries : ℕ) :
    Outline (machine α quasiFactor maxRetries) (Ghost α) where
  inv := Inv
  loc t f w := match f with
    | none => w.ghost.stat t = .idle
    | some f => f.loc.Shape ∧ AllOf (Fact.Holds t f.id w.shared w.ghost) f.loc.facts
  rely u w w' := Rely u w.shared w.ghost w'.shared w'.ghost

/-! ### One access -/

variable {w : World (machine α quasiFactor maxRetries) (Ghost α)} {t : ℕ}
  {f : Frame (machine α quasiFactor maxRetries)}

/-- What is to be shown of every access `a` that the call `f` makes. -/
def StepOk (w : World (machine α quasiFactor maxRetries) (Ghost α)) (t : ℕ)
    (f : Frame (machine α quasiFactor maxRetries)) (a : Shared α × (Local α ⊕ BagRet α)) : Prop :=
  (outline α quasiFactor maxRetries).Moves w t
    (Event.ofStep (M := machine α quasiFactor maxRetries) t a.2) a.1 (f.resume a.2)

/-- The call goes on at `l`. -/
theorem StepOk.go {σ : Shared α} {l : Local α} (g : Ghost α) (hH : HeapInv σ g.chain)
    (hl : Lin (w.events ++ [.tau t]) (itemAt σ g.chain) g.stat)
    (hr : ∀ u, u ≠ t → Rely u w.shared w.ghost σ g) (hshape : l.Shape)
    (hfacts : AllOf (Fact.Holds t f.id σ g) l.facts) : StepOk w t f (σ, .inl l) :=
  ⟨g, ⟨hH, by rw [World.record_events]; exact hl⟩, ⟨hshape, hfacts⟩, hr⟩

/-- An access that keeps the items, after which the call goes on. -/
theorem StepOk.quiet (hw : Inv w) {σ : Shared α} {l : Local α} (hH : HeapInv σ w.ghost.chain)
    (hi : itemAt σ w.ghost.chain = itemAt w.shared w.ghost.chain)
    (hr : ∀ u, Rely u w.shared w.ghost σ w.ghost) (hshape : l.Shape)
    (hfacts : AllOf (Fact.Holds t f.id w.shared w.ghost) l.facts) : StepOk w t f (σ, .inl l) := by
  refine .go w.ghost hH ?_ (fun u _ => hr u) hshape (hfacts.imp fun F hF => hF.rely (hr t))
  rw [hi]
  exact hw.lin.tau t

/-- An access that only reads, after which the call goes on. -/
theorem StepOk.read (hw : Inv w) {l : Local α} (hshape : l.Shape)
    (hfacts : AllOf (Fact.Holds t f.id w.shared w.ghost) l.facts) :
    StepOk w t f (w.shared, .inl l) :=
  .quiet hw hw.heap rfl (fun _ => .refl ..) hshape hfacts

/-- The call returns `r`. -/
theorem StepOk.stop {σ : Shared α} {r : BagRet α} (stat : ℕ → Status α)
    (hH : HeapInv σ w.ghost.chain)
    (hl : Lin (w.events ++ [.res t r]) (itemAt σ w.ghost.chain) (Function.update stat t .idle))
    (hr : ∀ u, Rely u w.shared w.ghost σ { w.ghost with stat := stat }) :
    StepOk w t f (σ, .inr r) := by
  refine ⟨{ w.ghost with stat := Function.update stat t .idle },
    ⟨hH, by rw [World.record_events]; exact hl⟩, Function.update_self .., fun u hu => ?_⟩
  obtain ⟨h1, h2, h3, h4, h5, h6, h7, h8⟩ := hr u
  exact ⟨h1, h2, h3, h4, h5, h6, h7, (Function.update_of_ne hu ..).trans h8⟩

/-- The call returns its result after an access that keeps the items. -/
theorem StepOk.answer (hw : Inv w) {σ : Shared α} {op : BagOp α} {r : BagRet α}
    (hH : HeapInv σ w.ghost.chain)
    (hi : itemAt σ w.ghost.chain = itemAt w.shared w.ghost.chain)
    (hr : ∀ u, Rely u w.shared w.ghost σ w.ghost)
    (hd : (Fact.finished op r).Holds t f.id w.shared w.ghost) : StepOk w t f (σ, .inr r) := by
  refine .stop w.ghost.stat hH ?_ hr
  rw [hi]
  exact hw.lin.resDone hd

/-- What a thread at `l` knows. -/
theorem facts_at (hf : f.loc.Shape ∧ AllOf (Fact.Holds t f.id w.shared w.ghost) f.loc.facts)
    {l : Local α} (hl : f.loc = l) :
    l.Shape ∧ AllOf (Fact.Holds t f.id w.shared w.ghost) l.facts := by
  subst hl
  exact hf

theorem nextRead_now (hw : Inv w) (t id : ℕ) {i n : ℕ} (hi : w.ghost.chain[i]? = some n) :
    (Fact.nextRead i (w.shared.node n).next).Holds t id w.shared w.ghost := by
  by_cases h0 : (w.shared.node n).next.value = 0
  · exact .inl (hw.heap.linked.next_none hi h0)
  · exact .inr ⟨h0, hw.heap.linked.next_some hi h0⟩

/-- Before the tail there is always a successor. -/
theorem next_ne_zero (hw : Inv w) {id : ℕ} {p q : AtomicPointer}
    (hp : (Fact.headRead p).Holds t id w.shared w.ghost)
    (hq : (Fact.tailRead q).Holds t id w.shared w.ghost) (hlt : p.aba < q.aba) :
    (w.shared.node p.value).next.value ≠ 0 := by
  intro h0
  have := (hw.heap.linked.next_eq_zero hp.1).mp h0
  have := Chain.lt_length hq.1
  omega

theorem aba_lt_of_value_ne {id : ℕ} {p q : AtomicPointer}
    (hp : (Fact.headRead p).Holds t id w.shared w.ghost)
    (hq : (Fact.tailRead q).Holds t id w.shared w.ghost) (hle : p.aba ≤ q.aba)
    (hne : p.value ≠ q.value) : p.aba < q.aba := by
  rcases Nat.lt_or_eq_of_le hle with h | h
  · exact h
  · have := hp.1
    rw [h, hq.1, Option.some.injEq] at this
    exact absurd this.symm hne

theorem aba_eq_of_value_eq (hw : Inv w) {id : ℕ} {p q : AtomicPointer}
    (hp : (Fact.headRead p).Holds t id w.shared w.ghost)
    (hq : (Fact.tailRead q).Holds t id w.shared w.ghost) (he : p.value = q.value) :
    p.aba = q.aba :=
  hw.heap.linked.pos_unique hp.1 (he ▸ hq.1)

/-! ### The accesses -/

theorem enqueue_ok (hw : Inv w)
    (hf : f.loc.Shape ∧ AllOf (Fact.Holds t f.id w.shared w.ghost) f.loc.facts)
    (ch : ℕ) (l : Local α) :
    match l with
    | .enqNew _ | .enqTail _ _ | .enqNext _ _ _ | .enqCheck _ _ _ _ | .enqLink _ _ _ _
    | .enqHelp _ _ _ _ | .enqSwing _ _ _ =>
      f.loc = l → StepOk w t f (step quasiFactor maxRetries ch w.shared l)
    | _ => True := by
  cases l with
  | enqNew x =>
    intro hl
    obtain ⟨-, hwait⟩ := facts_at hf hl
    obtain ⟨hH, hown, hi, hr⟩ := hw.heap.nodeNew (g := w.ghost) t x
    refine .go { w.ghost with owner := Function.update w.ghost.owner w.shared.alloc t } hH ?_
      (fun u _ => hr u) trivial ⟨hwait, hown⟩
    rw [hi]
    exact hw.lin.tau t
  | enqTail x n =>
    intro hl
    obtain ⟨-, hwait, hown⟩ := facts_at hf hl
    exact .read hw trivial ⟨hwait, hown, hw.heap.tail, le_rfl⟩
  | enqNext x n tl =>
    intro hl
    obtain ⟨-, hwait, hown, htl⟩ := facts_at hf hl
    exact .read hw trivial ⟨hwait, hown, htl, nextRead_now hw t f.id htl.1⟩
  | enqCheck x n tl nx =>
    intro hl
    obtain ⟨-, hwait, hown, htl, hnx⟩ := facts_at hf hl
    simp only [step]
    split_ifs with hcas h0
    · refine .read hw ?_ ⟨hwait, hown, htl⟩
      exact hnx.resolve_right fun h => h.1 h0
    · refine .read hw trivial ⟨hwait, hown, ?_⟩
      exact (hnx.resolve_left fun h => h0 (by rw [h])).2
    · exact .read hw trivial ⟨hwait, hown⟩
  | enqLink x n tl nx =>
    intro hl
    obtain ⟨rfl, ⟨s, hwait⟩, hown, htl⟩ := facts_at hf hl
    simp only [step]
    split_ifs with hcas
    · obtain ⟨hH, hnone, hi, hlast, hr⟩ := hw.heap.link hown htl.1 hcas
      refine .go _ hH ?_ (hr (.done f.id (.put x) (.put true))) trivial
        ⟨Function.update_self .., hlast⟩
      show Lin _ (itemAt _ (w.ghost.chain ++ [n])) _
      rw [hi]
      exact (hw.lin.tau t).put hwait hnone
    · exact .read hw trivial ⟨⟨s, hwait⟩, hown⟩
  | enqHelp x n tl nx =>
    intro hl
    obtain ⟨-, hwait, hown, hlink⟩ := facts_at hf hl
    simp only [step]
    split_ifs with hcas
    · subst hcas
      obtain ⟨hH, hr⟩ := hw.heap.swingTail hlink
      exact .quiet hw hH rfl hr trivial ⟨hwait, hown⟩
    · exact .read hw trivial ⟨hwait, hown⟩
  | enqSwing x n tl =>
    intro hl
    obtain ⟨-, hd, hlink⟩ := facts_at hf hl
    simp only [step]
    split_ifs with hcas
    · subst hcas
      obtain ⟨hH, hr⟩ := hw.heap.swingTail hlink
      exact .answer hw hH rfl hr hd
    · exact .answer hw hw.heap rfl (fun _ => .refl ..) hd
  | _ => trivial

/-- The loop over deleted nodes goes on, since there is a node before the tail. -/
theorem skipFrom_ok (hw : Inv w) {retries n : ℕ} {hd tl : AtomicPointer} (hlt : hd.aba < tl.aba)
    (h0 : n ≠ 0) (hfacts : AllOf (Fact.Holds t f.id w.shared w.ghost)
      (Local.skipTest retries hd tl n : Local α).facts) :
    StepOk w t f (w.shared, skipFrom retries hd tl n) := by
  rw [skipFrom, if_neg h0]
  exact .read hw hlt hfacts

theorem walkFrom_ok (hw : Inv w) {retries randomIndex i n : ℕ}
    (hwait : (Fact.waiting .get).Holds t f.id w.shared w.ghost)
    (hn : (Fact.isItem n).Holds t f.id w.shared w.ghost) :
    StepOk w t f (w.shared, .inl (walkFrom retries randomIndex i n)) := by
  rw [walkFrom]
  split_ifs
  · exact .read hw trivial ⟨hwait, hn⟩
  · exact .read hw trivial ⟨hwait, hn⟩

theorem deqNext_ok (hw : Inv w) {retries : ℕ} {hd tl : AtomicPointer} (hle : hd.aba ≤ tl.aba)
    (hfacts : AllOf (Fact.Holds t f.id w.shared w.ghost)
      (Local.deqNext retries hd tl : Local α).facts) :
    StepOk w t f (w.shared, .inl (.deqCheck retries hd tl (w.shared.node hd.value).next)) := by
  obtain ⟨⟨s, hwait⟩, hhd, htl⟩ := hfacts
  have hnext := nextRead_now hw t f.id hhd.1
  by_cases h0 : (w.shared.node hd.value).next.value = 0
  · -- all nodes are deleted now
    have hend := (hw.heap.linked.next_eq_zero hhd.1).mp h0
    have hempty := hw.heap.itemAt_eq_none (by have := hhd.2; omega)
    refine .go { w.ghost with
        stat := Function.update w.ghost.stat t (.pending f.id .get true) } hw.heap
      ((hw.lin.tau t).observe hwait hempty) (fun u hu => ?_)
      ⟨hle, fun hlt => next_ne_zero hw hhd htl hlt⟩
      ⟨⟨true, Function.update_self ..⟩, hhd, htl, hnext, fun _ => Function.update_self ..⟩
    obtain ⟨h1, h2, h3, h4, h5, h6, h7, -⟩ := Rely.refl u w.shared w.ghost
    exact ⟨h1, h2, h3, h4, h5, h6, h7, Function.update_of_ne hu ..⟩
  · exact .read hw ⟨hle, fun hlt => next_ne_zero hw hhd htl hlt⟩
      ⟨⟨s, hwait⟩, hhd, htl, hnext, fun h => absurd h h0⟩

theorem deqCheck_ok (hw : Inv w) (ch : ℕ) {retries : ℕ} {hd tl nx : AtomicPointer}
    (hshape : (Local.deqCheck retries hd tl nx : Local α).Shape)
    (hfacts : AllOf (Fact.Holds t f.id w.shared w.ghost)
      (Local.deqCheck retries hd tl nx : Local α).facts) :
    StepOk w t f (step quasiFactor maxRetries ch w.shared (.deqCheck retries hd tl nx)) := by
  obtain ⟨hle, hne⟩ := hshape
  obtain ⟨hwait, hhd, htl, hnx, hempty⟩ := hfacts
  simp only [step]
  generalize (if maxRetries ≤ retries then 0 else ch % quasiFactor) = randomIndex
  split_ifs with hcas hval h0 hidx
  · refine .stop w.ghost.stat hw.heap (hw.lin.resNone (hempty h0)) fun u => ?_
    exact .refl ..
  · refine .read hw trivial ⟨hwait, ?_⟩
    rw [← aba_eq_of_value_eq hw hhd htl hval]
    exact (hnx.resolve_left fun h => h0 (by rw [h])).2
  · have hlt := aba_lt_of_value_ne hhd htl hle hval
    have h0 := hne hlt
    have hlink := (hnx.resolve_left fun h => h0 (by rw [h])).2
    exact skipFrom_ok hw hlt h0 ⟨hwait, hhd, htl, hlink⟩
  · have hlt := aba_lt_of_value_ne hhd htl hle hval
    have hlink := (hnx.resolve_left fun h => hne hlt (by rw [h])).2
    exact walkFrom_ok hw hwait ⟨_, Nat.le_add_left .., hlink⟩
  · exact .read hw trivial hwait

theorem skipSwing_ok (hw : Inv w) (ch : ℕ) {retries n : ℕ} {hd tl : AtomicPointer}
    (hlt : hd.aba < tl.aba)
    (hfacts : AllOf (Fact.Holds t f.id w.shared w.ghost)
      (Local.skipSwing retries hd tl n : Local α).facts) :
    StepOk w t f (step quasiFactor maxRetries ch w.shared (.skipSwing retries hd tl n)) := by
  obtain ⟨hwait, hhd, htl, hlink, hdel⟩ := hfacts
  simp only [step]
  split_ifs with hcas hn
  · subst hcas
    obtain ⟨hH, hr⟩ := hw.heap.swingHead hlink hdel.2 (hlt.trans_le htl.2)
    exact .quiet hw hH rfl hr trivial hwait
  · subst hcas
    obtain ⟨hH, hr⟩ := hw.heap.swingHead hlink hdel.2 (hlt.trans_le htl.2)
    refine .go w.ghost hH (hw.lin.tau t) (fun u _ => hr u) ?_ ⟨hwait, ⟨hlink, le_rfl⟩, htl⟩
    -- another node than the one of `tail_old` has another position
    have hne : w.shared.head.aba + 1 ≠ tl.aba := by
      intro h
      have := htl.1
      rw [← h, hlink, Option.some.injEq] at this
      exact hn this
    show w.shared.head.aba + 1 < tl.aba
    omega
  · exact .read hw trivial hwait

theorem takeSwing_ok (hw : Inv w) (ch : ℕ) {retries n : ℕ}
    (hfacts : AllOf (Fact.Holds t f.id w.shared w.ghost)
      (Local.takeSwing retries n : Local α).facts) :
    StepOk w t f (step quasiFactor maxRetries ch w.shared (.takeSwing retries n)) := by
  obtain ⟨⟨s, hwait⟩, hn⟩ := hfacts
  simp only [step]
  split_ifs with hcas
  · obtain ⟨hH, hsome, hi, hval, hr⟩ := hw.heap.delete (t := t) (mem_tail_iff.mpr hn) hcas
    obtain ⟨k, -, hk⟩ := hn
    let stat := Function.update w.ghost.stat t
      (.done f.id .get (.got (some (w.shared.node n).value)))
    refine .go { w.ghost with stat := stat } hH ?_ (hr _) trivial
      ⟨hw.heap.linked.lt_alloc hk, ?_⟩
    · rw [hi]
      exact (hw.lin.tau t).take hwait hsome
    · rw [hval]
      exact Function.update_self ..
  · exact .read hw trivial ⟨s, hwait⟩

theorem dequeue_ok (hw : Inv w)
    (hf : f.loc.Shape ∧ AllOf (Fact.Holds t f.id w.shared w.ghost) f.loc.facts)
    (ch : ℕ) (l : Local α) :
    match l with
    | .deqHead _ | .deqTail _ _ | .deqNext _ _ _ | .deqCheck _ _ _ _ | .deqHelp _ _ _
    | .skipTest _ _ _ _ | .skipSwing _ _ _ _ | .skipNext _ _ _ | .walkTest _ _ _ _
    | .walkNext _ _ _ _ | .takeTest _ _ | .takeSwing _ _ | .takeValue _ =>
      f.loc = l → StepOk w t f (step quasiFactor maxRetries ch w.shared l)
    | _ => True := by
  cases l with
  | deqHead retries =>
    intro hl
    obtain ⟨-, hwait⟩ := facts_at hf hl
    exact .read hw trivial ⟨hwait, hw.heap.head, le_rfl⟩
  | deqTail retries hd =>
    intro hl
    obtain ⟨-, hwait, hhd⟩ := facts_at hf hl
    exact .read hw (hhd.2.trans hw.heap.head_le) ⟨hwait, hhd, hw.heap.tail, le_rfl⟩
  | deqNext retries hd tl =>
    intro hl
    obtain ⟨hle, hfacts⟩ := facts_at hf hl
    exact deqNext_ok hw hle hfacts
  | deqCheck retries hd tl nx =>
    intro hl
    obtain ⟨hshape, hfacts⟩ := facts_at hf hl
    exact deqCheck_ok hw ch hshape hfacts
  | deqHelp retries tl nx =>
    intro hl
    obtain ⟨-, hwait, hlink⟩ := facts_at hf hl
    simp only [step]
    split_ifs with hcas
    · subst hcas
      obtain ⟨hH, hr⟩ := hw.heap.swingTail hlink
      exact .quiet hw hH rfl hr trivial hwait
    · exact .read hw trivial hwait
  | skipTest retries hd tl n =>
    intro hl
    obtain ⟨hlt, hwait, hhd, htl, hlink⟩ := facts_at hf hl
    simp only [step]
    split_ifs with hd
    · exact .read hw hlt ⟨hwait, hhd, htl, hlink, hw.heap.linked.lt_alloc hlink, hd⟩
    · exact .read hw trivial ⟨hwait, _, Nat.le_add_left .., hlink⟩
  | skipSwing retries hd tl n =>
    intro hl
    obtain ⟨hlt, hfacts⟩ := facts_at hf hl
    exact skipSwing_ok hw ch hlt hfacts
  | skipNext retries hd tl =>
    intro hl
    obtain ⟨hlt, hwait, hhd, htl⟩ := facts_at hf hl
    have h0 := next_ne_zero hw hhd htl hlt
    exact skipFrom_ok hw hlt h0 ⟨hwait, hhd, htl, hw.heap.linked.next_some hhd.1 h0⟩
  | walkTest retries randomIndex i n =>
    intro hl
    obtain ⟨-, hwait, hn⟩ := facts_at hf hl
    simp only [step]
    split_ifs with h0
    · obtain ⟨k, hk, hn⟩ := hn
      exact .read hw trivial ⟨hwait, k, hk, hn, Chain.lt_length (hw.heap.linked.next_some hn h0)⟩
    · exact .read hw trivial ⟨hwait, hn⟩
  | walkNext retries randomIndex i n =>
    intro hl
    obtain ⟨-, hwait, k, hk, hn, hlt⟩ := facts_at hf hl
    have h0 : (w.shared.node n).next.value ≠ 0 := fun h0 => by
      have := (hw.heap.linked.next_eq_zero hn).mp h0
      omega
    exact walkFrom_ok hw hwait ⟨_, Nat.le_add_left .., hw.heap.linked.next_some hn h0⟩
  | takeTest retries n =>
    intro hl
    obtain ⟨-, hwait, hn⟩ := facts_at hf hl
    simp only [step]
    split_ifs with hd
    · exact .read hw trivial ⟨hwait, hn⟩
    · exact .read hw trivial hwait
  | takeSwing retries n =>
    intro hl
    exact takeSwing_ok hw ch (facts_at hf hl).2
  | takeValue n =>
    intro hl
    obtain ⟨-, hlt, hgot⟩ := facts_at hf hl
    exact .answer hw hw.heap rfl (fun _ => .refl ..) hgot
  | _ => trivial

/-! ### All runs -/

theorem access_ok (hw : Inv w)
    (hf : f.loc.Shape ∧ AllOf (Fact.Holds t f.id w.shared w.ghost) f.loc.facts) (ch : ℕ) :
    StepOk w t f (step quasiFactor maxRetries ch w.shared f.loc) := by
  have henq := enqueue_ok hw hf ch f.loc
  have hdeq := dequeue_ok hw hf ch f.loc
  cases hl : f.loc with
  | enqNew | enqTail | enqNext | enqCheck | enqLink | enqHelp | enqSwing =>
    rw [hl] at henq
    exact henq rfl
  | _ =>
    rw [hl] at hdeq
    exact hdeq rfl

theorem outline_sound : (outline α quasiFactor maxRetries).Sound always where
  init := by
    refine ⟨⟨[sentinel], fun _ => 0, fun _ => .idle⟩, ⟨init_inv, ?_⟩, fun _ => rfl⟩
    have hempty : itemAt (.init : Shared α) [sentinel] = fun _ => none := by
      funext n
      simp [itemAt]
    show Lin [] (itemAt (.init : Shared α) [sentinel]) _
    rw [hempty]
    exact lin_init
  stable := by
    intro w e σ g t f _ _ hf _ hr
    cases f with
    | none => exact hr.stat.trans hf
    | some f => exact ⟨hf.1, hf.2.imp fun F hF => hF.rely hr⟩
  call := by
    intro w t op hw hidle _
    refine ⟨{ w.ghost with
        stat := Function.update w.ghost.stat t (.pending w.events.length op false) },
      ⟨hw.heap, ?_⟩, ?_, fun u hu => ?_⟩
    · rw [World.record_events]
      exact hw.lin.inv hidle op
    · have hstat : (Fact.waiting op).Holds t w.trace.length w.shared
          { w.ghost with
            stat := Function.update w.ghost.stat t (.pending w.events.length op false) } :=
        ⟨false, by simp⟩
      cases op with
      | put x => exact ⟨trivial, hstat⟩
      | get => exact ⟨trivial, hstat⟩
    · obtain ⟨h1, h2, h3, h4, h5, h6, h7, -⟩ := Rely.refl u w.shared w.ghost
      exact ⟨h1, h2, h3, h4, h5, h6, h7, Function.update_of_ne hu ..⟩
  run := by
    intro w t f ch σ o hw hf _ hs
    have hok := access_ok hw hf ch
    rw [Option.some.inj hs] at hok
    exact hok

end Outline

theorem skipFrom_not_refused {retries node : ℕ} {headOld tailOld : AtomicPointer}
    {r : BagRet α} (h : skipFrom retries headOld tailOld node = .inr r) : r.refused = false := by
  rw [skipFrom] at h
  split_ifs at h
  cases h
  rfl

/-- An enqueue returns true only. -/
theorem step_not_refused (quasiFactor maxRetries ch : ℕ) (σ : Shared α) (l : Local α)
    {r : BagRet α} : (step quasiFactor maxRetries ch σ l).2 = .inr r → r.refused = false := by
  fun_cases step quasiFactor maxRetries ch σ l <;> intro h <;>
    first | exact skipFrom_not_refused h | cases h <;> rfl

theorem not_refused [Inhabited α] {quasiFactor maxRetries : ℕ}
    {c : Config (machine α quasiFactor maxRetries)}
    (hc : Reach (machine α quasiFactor maxRetries) always c) :
    ∀ t r, .res t r ∈ c.events → r.refused = false :=
  hc.responses fun _ _ _ hs =>
    step_not_refused _ _ _ _ _ (congrArg Prod.snd (Option.some.inj hs))

/-- **RandomDequeueQueue is a linearizable bag.**  In every reachable configuration the
history is linearizable, head's node does not come after tail's, and every node up to
head's, but for the sentinel, is deleted. -/
theorem linearizable_bag [Inhabited α] {quasiFactor maxRetries : ℕ}
    {c : Config (machine α quasiFactor maxRetries)}
    (hc : Reach (machine α quasiFactor maxRetries) always c) :
    Linearizable (unboundedBagSpec α) c.events ∧
      ∃ i j, c.shared.nodes[i]? = some c.shared.head.value ∧
        c.shared.nodes[j]? = some c.shared.tail.value ∧ i ≤ j ∧
        ∀ k n, 1 ≤ k → k ≤ i → c.shared.nodes[k]? = some n →
          (c.shared.node n).deleted = true := by
  obtain ⟨g, hw, -⟩ := outline_sound.reach hc
  refine ⟨hw.lin.linearizable.unbounded (not_refused hc), c.shared.head.aba, c.shared.tail.aba, ?_⟩
  rw [show c.shared.nodes = g.chain from hw.heap.nodes_eq]
  exact ⟨hw.heap.head, hw.heap.tail, hw.heap.head_le, hw.heap.deleted⟩

/-- The second item is taken first, and head is then dragged over both. -/
def takenInWindow : List (Action (machine ℕ 2 1)) :=
  List.flatten [[.call 0 (.put 5)], turns 0 0 6, [.call 0 (.put 6)], turns 0 0 6,
    [.call 1 .get], turns 1 1 9, [.call 2 .get], turns 2 0 8, [.call 1 .get], turns 1 0 13]

theorem linearizable_bag_takenInWindow :
    ∃ c : Config (machine ℕ 2 1),
      (c.events.filter fun e => e matches .res _ (.got _)) =
        [.res 1 (.got (some 6)), .res 2 (.got (some 5)), .res 1 (.got none)] ∧
      Linearizable (unboundedBagSpec ℕ) c.events ∧
      ∃ i j, c.shared.nodes[i]? = some c.shared.head.value ∧
        c.shared.nodes[j]? = some c.shared.tail.value ∧ i ≤ j ∧
        ∀ k n, 1 ≤ k → k ≤ i → c.shared.nodes[k]? = some n →
          (c.shared.node n).deleted = true := by
  have h : ∃ c, Reach (machine ℕ 2 1) always c ∧
      decide ((c.events.filter fun e => e matches .res _ (.got _)) =
        [.res 1 (.got (some 6)), .res 2 (.got (some 5)), .res 1 (.got none)]) = true :=
    Reach.exists_of_any always takenInWindow _ (by decide)
  obtain ⟨c, hc, hp⟩ := h
  exact ⟨c, of_decide_eq_true hp, linearizable_bag hc⟩

end RandomDequeueQueue

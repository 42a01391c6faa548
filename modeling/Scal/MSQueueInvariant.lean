/-
The invariant of the Michael–Scott queue.

All nodes ever linked form one chain, from the sentinel of the constructor on
(`Ghost.chain`); `next` leads along it, and the counters of `head_` and `tail_`
are the positions of their nodes in it (`HeapInv`).  Head never passes tail, and
tail lags by at most one node.  Only four kinds of step change the memory:

* `HeapInv.nodeNew` — a fresh private node;
* `HeapInv.link` — the chain grows at its end, the queue by one item;
* `HeapInv.swingTail` — tail moves on by one node, the queue stays;
* `HeapInv.swingHead` — head moves on by one node, the queue loses its first
  item.

Each of them gives the other threads what they rely on (`Ext`).
-/
import Scal.MSQueue
import Scal.Chain

open Interleave

namespace MSQueue

variable {α : Type}

/-- The nodes linked so far, in order, and the thread that allocated each node. -/
structure Ghost where
  chain : List ℕ
  owner : ℕ → ℕ

structure HeapInv (σ : Shared α) (g : Ghost) : Prop where
  chain : Chain (fun n => (σ.node n).next) σ.alloc g.chain
  head : g.chain[σ.head.aba]? = some σ.head.value
  tail : g.chain[σ.tail.aba]? = some σ.tail.value
  head_le : σ.head.aba ≤ σ.tail.aba
  lag : g.chain.length ≤ σ.tail.aba + 2

/-- What thread `u` relies on about the steps of other threads. -/
structure Ext (u : ℕ) (σ : Shared α) (g : Ghost) (σ' : Shared α) (g' : Ghost) : Prop where
  chain : g.chain <+: g'.chain
  alloc : σ.alloc ≤ σ'.alloc
  head : σ.head.aba ≤ σ'.head.aba
  tail : σ.tail.aba ≤ σ'.tail.aba
  value : ∀ n < σ.alloc, (σ'.node n).value = (σ.node n).value
  own : ∀ n < σ.alloc, g.owner n = u → n ∉ g.chain →
    g'.owner n = u ∧ n ∉ g'.chain ∧ σ'.node n = σ.node n

theorem Ext.refl (u : ℕ) (σ : Shared α) (g : Ghost) : Ext u σ g σ g :=
  ⟨List.prefix_refl _, le_rfl, le_rfl, le_rfl, fun _ _ => rfl, fun _ _ ho hc => ⟨ho, hc, rfl⟩⟩

section Chain

variable {σ : Shared α} {g : Ghost}

theorem HeapInv.tail_lt (hI : HeapInv σ g) : σ.tail.aba < g.chain.length :=
  Chain.lt_length hI.tail

theorem HeapInv.head_lt (hI : HeapInv σ g) : σ.head.aba < g.chain.length :=
  Chain.lt_length hI.head

/-! ### The queue -/

/-- `follow` walks along the chain. -/
theorem HeapInv.follow_eq (hI : HeapInv σ g) : ∀ (fuel i : ℕ), i ≤ g.chain.length →
    g.chain.length - i < fuel →
    follow σ.node fuel ((g.chain[i]?).getD 0) =
      (g.chain.drop i).map fun n => (σ.node n).value := by
  intro fuel
  induction fuel with
  | zero => intro i _ h; omega
  | succ fuel ih =>
    intro i hi hf
    rcases Nat.lt_or_ge i g.chain.length with hl | hl
    · have hget : g.chain[i]? = some g.chain[i] := List.getElem?_eq_getElem hl
      have hne := hI.chain.ne_zero hget
      have hnext : (σ.node g.chain[i]).next.value = (g.chain[i + 1]?).getD 0 := by
        rw [hI.chain.next i _ hget]
      rw [hget, Option.getD_some, follow, if_neg hne, hnext, ih (i + 1) hl (by omega),
        List.drop_eq_getElem_cons hl, List.map_cons]
    · rw [List.getElem?_eq_none hl, List.drop_eq_nil_of_le hl, Option.getD_none, follow,
        if_pos rfl, List.map_nil]

/-- The queue is the part of the chain after head's position. -/
theorem HeapInv.queue_eq (hI : HeapInv σ g) :
    σ.queue = (g.chain.drop (σ.head.aba + 1)).map fun n => (σ.node n).value := by
  have hlt := hI.head_lt
  have hle := hI.chain.length_le
  rw [Shared.queue, hI.chain.next _ _ hI.head]
  exact hI.follow_eq _ _ hlt (by omega)

theorem HeapInv.queue_eq_nil (hI : HeapInv σ g) (h : g.chain.length ≤ σ.head.aba + 1) :
    σ.queue = [] := by
  rw [hI.queue_eq, List.drop_eq_nil_of_le h, List.map_nil]

end Chain

/-! ### The four changes of the memory -/

section Changes

variable {σ : Shared α} {g : Ghost} {t : ℕ}

/-- A node that thread `t` allocated and has not linked yet. -/
structure Own (t n : ℕ) (item : α) (σ : Shared α) (g : Ghost) : Prop where
  owner : g.owner n = t
  lt : n < σ.alloc
  ne : n ≠ 0
  unlinked : n ∉ g.chain
  node : σ.node n = ⟨⟨0, 0⟩, item⟩

theorem init_inv [Inhabited α] : HeapInv (.init : Shared α) ⟨[1], fun _ => 0⟩ :=
  ⟨.singleton (by simp) (by simp [Shared.init]) rfl, rfl, rfl, le_rfl, by simp⟩

theorem HeapInv.nodeNew (hI : HeapInv σ g) (t : ℕ) (item : α) :
    HeapInv (σ.nodeNew item) { g with owner := Function.update g.owner σ.alloc t } ∧
      Own t σ.alloc item (σ.nodeNew item)
        { g with owner := Function.update g.owner σ.alloc t } ∧
      (σ.nodeNew item).queue = σ.queue ∧
      ∀ u, Ext u σ g (σ.nodeNew item)
        { g with owner := Function.update g.owner σ.alloc t } := by
  have hold : ∀ n < σ.alloc, (σ.nodeNew item).node n = σ.node n := fun n hn =>
    Function.update_of_ne (Nat.ne_of_lt hn) ..
  have hnot : σ.alloc ∉ g.chain := fun hm => (Nat.lt_irrefl _ (hI.chain.bound _ hm).2)
  have hI' : HeapInv (σ.nodeNew item)
      { g with owner := Function.update g.owner σ.alloc t } := by
    refine ⟨hI.chain.congr (Nat.le_succ _) fun n hn => ?_, hI.head, hI.tail, hI.head_le,
      hI.lag⟩
    rw [hold n (hI.chain.bound n hn).2]
  refine ⟨hI', ⟨by simp, by simp [Shared.nodeNew], hI.chain.alloc, hnot, by simp [Shared.nodeNew]⟩,
    ?_, fun u => ?_⟩
  · rw [hI'.queue_eq, hI.queue_eq]
    refine List.map_congr_left fun n hn => ?_
    rw [hold n (hI.chain.bound n (List.mem_of_mem_drop hn)).2]
  · refine ⟨List.prefix_refl _, Nat.le_succ _, le_rfl, le_rfl, fun n hn => by rw [hold n hn],
      fun n hn ho hc => ⟨?_, hc, hold n hn⟩⟩
    simpa [Function.update_of_ne (Nat.ne_of_lt hn)] using ho

/-- **Linking**: the `cas` on the last node's `next` succeeds. -/
theorem HeapInv.link (hI : HeapInv σ g) {n p k : ℕ} {item : α} {w : AtomicPointer}
    (ho : Own t n item σ g) (hp : g.chain[k]? = some p) (hw : (σ.node p).next = w)
    (h0 : w = ⟨0, 0⟩) (hk : k ≤ σ.tail.aba) :
    HeapInv (σ.setNext p ⟨n, w.aba + 1⟩) { g with chain := g.chain ++ [n] } ∧
      (σ.setNext p ⟨n, w.aba + 1⟩).queue = σ.queue ++ [item] ∧
      (g.chain ++ [n])[k + 1]? = some n ∧
      ∀ u, u ≠ t → Ext u σ g (σ.setNext p ⟨n, w.aba + 1⟩)
        { g with chain := g.chain ++ [n] } := by
  subst h0
  have hval : ∀ m, ((σ.setNext p ⟨n, 0 + 1⟩).node m).value = (σ.node m).value := by
    intro m
    by_cases hm : m = p
    · subst hm; simp [Shared.setNext]
    · simp [Shared.setNext, Function.update_of_ne hm]
  have hnode : ∀ m, m ≠ p → (σ.setNext p ⟨n, 0 + 1⟩).node m = σ.node m := fun m hm =>
    Function.update_of_ne hm ..
  have hnext : (fun m => ((σ.setNext p ⟨n, 0 + 1⟩).node m).next) =
      Function.update (fun m => (σ.node m).next) p ⟨n, 1⟩ := by
    funext m
    by_cases hm : m = p
    · subst hm; simp [Shared.setNext]
    · simp [hnode m hm, Function.update_of_ne hm]
  obtain ⟨hlast, hC⟩ := hI.chain.append hp hw ho.unlinked ho.ne ho.lt (by rw [ho.node])
  have htl := hI.tail_lt
  have hhl := hI.head_lt
  have hI' : HeapInv (σ.setNext p ⟨n, 0 + 1⟩) { g with chain := g.chain ++ [n] } := by
    refine ⟨by rw [hnext]; exact hC, Chain.getElem?_mono (List.prefix_append ..) hI.head,
      Chain.getElem?_mono (List.prefix_append ..) hI.tail, hI.head_le, ?_⟩
    change (g.chain ++ [n]).length ≤ σ.tail.aba + 2
    rw [List.length_append, List.length_singleton]
    omega
  refine ⟨hI', ?_, ?_, fun u hu => ?_⟩
  · rw [hI'.queue_eq, hI.queue_eq]
    change ((g.chain ++ [n]).drop (σ.head.aba + 1)).map _ = _
    rw [List.drop_append_of_le_length (by omega), List.map_append, List.map_singleton, hval n,
      ho.node]
    simp only [hval]
  · rw [hlast, List.getElem?_concat_length]
  · refine ⟨List.prefix_append _ _, le_rfl, le_rfl, le_rfl, fun m _ => hval m,
      fun m _ hmo hmc => ⟨hmo, fun hm => ?_, hnode m fun h => hmc (h ▸ List.mem_of_getElem? hp)⟩⟩
    rcases List.mem_append.mp hm with hm | hm
    · exact hmc hm
    · obtain rfl := List.mem_singleton.mp hm
      exact hu (hmo.symm.trans ho.owner)

/-- **Swinging tail** to the next node: the queue stays as it is. -/
theorem HeapInv.swingTail (hI : HeapInv σ g) {n : ℕ} {w : AtomicPointer} (hw : σ.tail = w)
    (hn : g.chain[w.aba + 1]? = some n) :
    HeapInv { σ with tail := ⟨n, w.aba + 1⟩ } g ∧
      ({ σ with tail := ⟨n, w.aba + 1⟩ } : Shared α).queue = σ.queue ∧
      ∀ u, Ext u σ g { σ with tail := ⟨n, w.aba + 1⟩ } g := by
  subst hw
  have hle := hI.head_le
  have hlag := hI.lag
  refine ⟨⟨hI.chain, hI.head, hn, ?_, ?_⟩, rfl, fun u => ?_⟩
  · change σ.head.aba ≤ σ.tail.aba + 1
    omega
  · change g.chain.length ≤ σ.tail.aba + 1 + 2
    omega
  · exact ⟨List.prefix_refl _, le_rfl, le_rfl, Nat.le_succ _, fun _ _ => rfl,
      fun _ _ ho hc => ⟨ho, hc, rfl⟩⟩

/-- **Swinging head** to the next node: the queue loses its first item, which is
that node's value.  Tail is ahead, so head does not pass it. -/
theorem HeapInv.swingHead (hI : HeapInv σ g) {n : ℕ} {w : AtomicPointer} (hw : σ.head = w)
    (hn : g.chain[w.aba + 1]? = some n) (hlt : w.aba < σ.tail.aba) :
    HeapInv { σ with head := ⟨n, w.aba + 1⟩ } g ∧
      σ.queue = (σ.node n).value :: ({ σ with head := ⟨n, w.aba + 1⟩ } : Shared α).queue ∧
      ∀ u, Ext u σ g { σ with head := ⟨n, w.aba + 1⟩ } g := by
  subst hw
  have hI' : HeapInv { σ with head := ⟨n, σ.head.aba + 1⟩ } g :=
    ⟨hI.chain, hn, hI.tail, hlt, hI.lag⟩
  refine ⟨hI', ?_, fun u => ?_⟩
  · obtain ⟨hl, hget⟩ := List.getElem?_eq_some_iff.mp hn
    rw [hI'.queue_eq, hI.queue_eq, List.drop_eq_getElem_cons hl, List.map_cons, hget]
  · exact ⟨List.prefix_refl _, le_rfl, Nat.le_succ _, le_rfl, fun _ _ => rfl,
      fun _ _ ho hc => ⟨ho, hc, rfl⟩⟩

end Changes

end MSQueue

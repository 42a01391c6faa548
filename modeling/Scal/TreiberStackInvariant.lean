/-
The invariant of the Treiber stack.

The nodes reachable from `*top_` (`Ghost.stack`) are linked by `next` down to `NULL`,
and none of them has an owner any more: only its owner writes the `next` of a node,
so the `next` and the data of a node that was pushed never change (`Inv`, `Rely`).
Four kinds of step change the memory:

* `Inv.nodeNew`, `Inv.setNext` — a private node; the stack stays as it is;
* `Inv.push` — the stack gets an item on top;
* `Inv.pop` — the stack loses its first item.
-/
import Scal.TreiberStack
import Scal.Chain

open Interleave

namespace TreiberStack

variable {α : Type}

/-- The nodes reachable from `*top_`, and the threads whose nodes are not pushed yet. -/
structure Ghost where
  stack : List ℕ
  owner : ℕ → Option ℕ

structure Inv (σ : Shared α) (g : Ghost) : Prop where
  linked : Linked (fun n => (σ.node n).next.value) σ.top.value g.stack
  nodup : g.stack.Nodup
  pushed : ∀ n ∈ g.stack, n < σ.alloc ∧ g.owner n = none
  alloc : σ.alloc ≠ 0

/-- What thread `u` relies on about the steps of other threads. -/
structure Rely (u : ℕ) (σ : Shared α) (g : Ghost) (σ' : Shared α) (g' : Ghost) : Prop where
  alloc : σ.alloc ≤ σ'.alloc
  pushed : ∀ n < σ.alloc, g.owner n = none → g'.owner n = none ∧ σ'.node n = σ.node n
  own : ∀ n < σ.alloc, g.owner n = some u → g'.owner n = some u ∧ σ'.node n = σ.node n

theorem Rely.refl (u : ℕ) (σ : Shared α) (g : Ghost) : Rely u σ g σ g :=
  ⟨le_rfl, fun _ _ h => ⟨h, rfl⟩, fun _ _ h => ⟨h, rfl⟩⟩

/-- A node of thread `t` that is not pushed yet. -/
def Own (t n : ℕ) (x : α) (σ : Shared α) (g : Ghost) : Prop :=
  n ≠ 0 ∧ n < σ.alloc ∧ g.owner n = some t ∧ (σ.node n).data = x

def Pushed (n : ℕ) (σ : Shared α) (g : Ghost) : Prop :=
  n ≠ 0 ∧ n < σ.alloc ∧ g.owner n = none

section Stable

variable {t n : ℕ} {x : α} {σ σ' : Shared α} {g g' : Ghost}

theorem Own.rely (ho : Own t n x σ g) (hr : Rely t σ g σ' g') :
    Own t n x σ' g' ∧ σ'.node n = σ.node n := by
  obtain ⟨h0, hlt, how, hx⟩ := ho
  obtain ⟨how', hn⟩ := hr.own n hlt how
  exact ⟨⟨h0, hlt.trans_le hr.alloc, how', by rw [hn, hx]⟩, hn⟩

theorem Pushed.rely (hp : Pushed n σ g) (hr : Rely t σ g σ' g') :
    Pushed n σ' g' ∧ σ'.node n = σ.node n := by
  obtain ⟨h0, hlt, how⟩ := hp
  obtain ⟨how', hn⟩ := hr.pushed n hlt how
  exact ⟨⟨h0, hlt.trans_le hr.alloc, how'⟩, hn⟩

end Stable

/-! ### The contents -/

section Contents

variable {σ : Shared α} {g : Ghost}

/-- `follow` walks along linked nodes. -/
theorem follow_eq {node : ℕ → Node α} {p : ℕ} {l : List ℕ}
    (hl : Linked (fun n => (node n).next.value) p l) :
    ∀ fuel, l.length ≤ fuel → follow node fuel p = l.map fun n => (node n).data := by
  induction hl with
  | nil =>
    intro fuel _
    cases fuel with
    | zero => rfl
    | succ fuel => simp [follow]
  | @cons p l hp _ ih =>
    intro fuel hfuel
    obtain ⟨fuel, rfl⟩ : ∃ k, fuel = k + 1 := ⟨fuel - 1, by simp at hfuel; omega⟩
    rw [follow, if_neg hp, ih fuel (by simpa using hfuel), List.map_cons]

theorem Inv.length_le (hI : Inv σ g) : g.stack.length ≤ σ.alloc :=
  length_le_of_nodup hI.nodup fun n hn => (hI.pushed n hn).1

theorem Inv.contents_eq (hI : Inv σ g) :
    σ.contents = g.stack.map fun n => (σ.node n).data :=
  follow_eq hI.linked _ hI.length_le

/-- The stack is empty exactly when `*top_` is `NULL`. -/
theorem Inv.contents_eq_nil (hI : Inv σ g) (h0 : σ.top.value = 0) :
    σ.contents = [] := by
  have hl := hI.linked
  rw [h0] at hl
  rw [hI.contents_eq, hl.eq_nil, List.map_nil]

theorem Inv.pushed_top (hI : Inv σ g) (h0 : σ.top.value ≠ 0) : Pushed σ.top.value σ g := by
  obtain ⟨l, hl, -⟩ := hI.linked.cases_of_ne_zero h0
  obtain ⟨hlt, how⟩ := hI.pushed σ.top.value (by simp [hl])
  exact ⟨h0, hlt, how⟩

theorem Inv.contents_congr (hI : Inv σ g) {σ' : Shared α} {g' : Ghost} (hI' : Inv σ' g')
    (hs : g'.stack = g.stack) (hn : ∀ n ∈ g.stack, (σ'.node n).data = (σ.node n).data) :
    σ'.contents = σ.contents := by
  rw [hI'.contents_eq, hI.contents_eq, hs]
  exact List.map_congr_left hn

end Contents

/-! ### The changes of the memory -/

section Changes

variable {t n : ℕ} {x : α} {σ : Shared α} {g : Ghost}

theorem init_inv [Inhabited α] : Inv (.init : Shared α) ⟨[], fun _ => none⟩ :=
  ⟨.nil, List.nodup_nil, by simp, Nat.one_ne_zero⟩

theorem Inv.nodeNew (hI : Inv σ g) (t : ℕ) (x : α) {g' : Ghost}
    (hg : g' = { g with owner := Function.update g.owner σ.alloc (some t) }) :
    Inv (σ.nodeNew x) g' ∧ Own t σ.alloc x (σ.nodeNew x) g' ∧
      (∀ n ∈ g.stack, (σ.nodeNew x).node n = σ.node n) ∧ ∀ u, Rely u σ g (σ.nodeNew x) g' := by
  subst hg
  have hold : ∀ n < σ.alloc, (σ.nodeNew x).node n = σ.node n ∧
      Function.update g.owner σ.alloc (some t) n = g.owner n := fun n hn =>
    ⟨Function.update_of_ne hn.ne .., Function.update_of_ne hn.ne ..⟩
  have hmem : ∀ n ∈ g.stack, (σ.nodeNew x).node n = σ.node n := fun n hn =>
    (hold n (hI.pushed n hn).1).1
  refine ⟨⟨hI.linked.congr fun n hn => by rw [hmem n hn], hI.nodup, fun n hn => ?_,
    Nat.succ_ne_zero _⟩, ⟨hI.alloc, Nat.lt_succ_self _, Function.update_self .., ?_⟩,
    hmem, fun u => ⟨Nat.le_succ _, fun n hn h => ?_, fun n hn h => ?_⟩⟩
  · obtain ⟨hlt, ho⟩ := hI.pushed n hn
    exact ⟨Nat.lt_succ_of_lt hlt, (hold n hlt).2.trans ho⟩
  · simp [Shared.nodeNew]
  · exact ⟨(hold n hn).2.trans h, (hold n hn).1⟩
  · exact ⟨(hold n hn).2.trans h, (hold n hn).1⟩

/-- The owner of a node writes its `next`. -/
theorem Inv.setNext (hI : Inv σ g) (ho : Own t n x σ g) (v : ℕ) :
    Inv (σ.setNext n v) g ∧ Own t n x (σ.setNext n v) g ∧
      ((σ.setNext n v).node n).next.value = v ∧
      (∀ m ∈ g.stack, (σ.setNext n v).node m = σ.node m) ∧
      ∀ u, u ≠ t → Rely u σ g (σ.setNext n v) g := by
  obtain ⟨h0, hlt, how, hx⟩ := ho
  have hother : ∀ m, m ≠ n → (σ.setNext n v).node m = σ.node m := fun m hm =>
    Function.update_of_ne hm ..
  have hmem : ∀ m ∈ g.stack, m ≠ n := by
    rintro m hm rfl
    rw [(hI.pushed m hm).2] at how
    cases how
  refine ⟨⟨hI.linked.congr fun m hm => by rw [hother m (hmem m hm)], hI.nodup, hI.pushed,
    hI.alloc⟩, ⟨h0, hlt, how, ?_⟩, ?_, fun m hm => hother m (hmem m hm),
    fun u hu => ⟨le_rfl, fun m _ h => ⟨h, hother m ?_⟩, fun m _ h => ⟨h, hother m ?_⟩⟩⟩
  · simpa [Shared.setNext] using hx
  · simp [Shared.setNext]
  · rintro rfl
    rw [how] at h
    cases h
  · rintro rfl
    rw [how, Option.some.injEq] at h
    exact hu h.symm

/-- **Pushing** a node. -/
theorem Inv.push (hI : Inv σ g) (ho : Own t n x σ g)
    (hn : (σ.node n).next.value = σ.top.value) {g' : Ghost}
    (hg : g' = ⟨n :: g.stack, Function.update g.owner n none⟩) (a : ℕ) :
    Inv { σ with top := ⟨n, a⟩ } g' ∧ n ∉ g.stack ∧
      ({ σ with top := ⟨n, a⟩ } : Shared α).contents = x :: σ.contents ∧
      ∀ u, u ≠ t → Rely u σ g { σ with top := ⟨n, a⟩ } g' := by
  subst hg
  obtain ⟨h0, hlt, how, hx⟩ := ho
  have hnot : n ∉ g.stack := by
    intro hm
    rw [(hI.pushed n hm).2] at how
    cases how
  have hI' : Inv { σ with top := ⟨n, a⟩ } ⟨n :: g.stack, Function.update g.owner n none⟩ := by
    refine ⟨.cons h0 ?_, List.nodup_cons.mpr ⟨hnot, hI.nodup⟩, fun m hm => ?_, hI.alloc⟩
    · show Linked _ (σ.node n).next.value g.stack
      rw [hn]
      exact hI.linked
    · rcases List.mem_cons.mp hm with rfl | hm
      · exact ⟨hlt, Function.update_self ..⟩
      · obtain ⟨hm', ho'⟩ := hI.pushed m hm
        have hne : m ≠ n := fun h => hnot (h ▸ hm)
        exact ⟨hm', (Function.update_of_ne hne ..).trans ho'⟩
  refine ⟨hI', hnot, ?_, fun u hu => ⟨le_rfl, fun m _ h => ⟨?_, rfl⟩, fun m _ h => ⟨?_, rfl⟩⟩⟩
  · rw [hI'.contents_eq, hI.contents_eq, List.map_cons, hx]
  · by_cases hm : m = n
    · subst hm
      exact Function.update_self ..
    · exact (Function.update_of_ne hm ..).trans h
  · have hm : m ≠ n := by
      rintro rfl
      rw [how, Option.some.injEq] at h
      exact hu h.symm
    exact (Function.update_of_ne hm ..).trans h

/-- **Popping** the first node. -/
theorem Inv.pop (hI : Inv σ g) (hp : σ.top.value ≠ 0) {g' : Ghost}
    (hg : g' = { g with stack := g.stack.tail }) (a : ℕ) :
    Inv { σ with top := ⟨(σ.node σ.top.value).next.value, a⟩ } g' ∧
      g.stack = σ.top.value :: g'.stack ∧
      σ.contents = (σ.node σ.top.value).data ::
        ({ σ with top := ⟨(σ.node σ.top.value).next.value, a⟩ } : Shared α).contents ∧
      ∀ u, Rely u σ g { σ with top := ⟨(σ.node σ.top.value).next.value, a⟩ } g' := by
  subst hg
  obtain ⟨l, hl, hlink⟩ := hI.linked.cases_of_ne_zero hp
  have hnodup := hI.nodup
  rw [hl, List.nodup_cons] at hnodup
  have hI' : Inv { σ with top := ⟨(σ.node σ.top.value).next.value, a⟩ }
      { g with stack := g.stack.tail } := by
    refine ⟨by simpa [hl] using hlink, by simpa [hl] using hnodup.2, fun m hm => ?_, hI.alloc⟩
    exact hI.pushed m (List.mem_of_mem_tail hm)
  refine ⟨hI', by simp [hl], ?_, fun u => ⟨le_rfl, fun m _ h => ⟨h, rfl⟩, fun m _ h => ⟨h, rfl⟩⟩⟩
  rw [hI'.contents_eq, hI.contents_eq, hl]
  rfl

end Changes

end TreiberStack

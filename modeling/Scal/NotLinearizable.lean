/-
Histories that are no linearizable bag.

Two ways in which a pool of items can fail, each with a test that can be run on
a history:

* `not_linearizable_of_lost` — a get finds the bag empty although an item was put
  before it, and nobody can have got that item;
* `not_linearizable_of_duplicated` — two gets return an item that was put once.
-/
import Scal.Linearizable
import Mathlib.Data.Multiset.Count

open Interleave

namespace Linearizability

/-! ### Responses, computed -/

section Response

variable {Op Ret : Type}

/-- The first response of thread `t` in `l`, whose first event has time `j`. -/
def firstResponse (t : ℕ) : List (Event Op Ret) → ℕ → Option (ℕ × Ret)
  | [], _ => none
  | .res u r :: l, j => if u = t then some (j, r) else firstResponse t l (j + 1)
  | _ :: l, j => firstResponse t l (j + 1)

/-- When the call invoked at time `i` returned, and what. -/
def response (h : List (Event Op Ret)) (i : ℕ) : Option (ℕ × Ret) :=
  match h[i]? with
  | some (.inv t _) => firstResponse t (h.drop (i + 1)) (i + 1)
  | _ => none

theorem firstResponse_eq_some {t : ℕ} {l : List (Event Op Ret)} {j₀ j : ℕ} {r : Ret}
    (h : firstResponse t l j₀ = some (j, r)) :
    ∃ m, j = j₀ + m ∧ l[m]? = some (.res t r) ∧ ∀ m' < m, ∀ r', l[m']? ≠ some (.res t r') := by
  induction l generalizing j₀ with
  | nil => simp [firstResponse] at h
  | cons e l ih =>
    have hskip : firstResponse t l (j₀ + 1) = some (j, r) → (∀ r', e ≠ .res t r') →
        ∃ m, j = j₀ + m ∧ (e :: l)[m]? = some (.res t r) ∧
          ∀ m' < m, ∀ r', (e :: l)[m']? ≠ some (.res t r') := by
      intro h he
      obtain ⟨m, rfl, hm, hlt⟩ := ih h
      refine ⟨m + 1, by omega, by simpa using hm, fun m' hm' r' => ?_⟩
      rcases m' with _ | m'
      · simpa using he r'
      · simpa using hlt m' (by omega) r'
    rcases e with ⟨u, op⟩ | u | ⟨u, r₁⟩
    · exact hskip h (by simp)
    · exact hskip h (by simp)
    · rw [firstResponse] at h
      split_ifs at h with hu
      · obtain ⟨rfl, rfl⟩ : j₀ = j ∧ r₁ = r := by simpa using h
        exact ⟨0, rfl, by simp [hu], by simp⟩
      · exact hskip h (by simp [hu])

theorem returns_of_response {h : List (Event Op Ret)} {i j : ℕ} {r : Ret}
    (hr : response h i = some (j, r)) : Returns h i j r := by
  rcases hi : h[i]? with _ | e
  · simp [response, hi] at hr
  · rcases e with ⟨t, op⟩ | t | ⟨t, r'⟩
    · simp only [response, hi] at hr
      obtain ⟨m, rfl, hm, hlt⟩ := firstResponse_eq_some hr
      refine ⟨t, op, hi, by simpa using hm, by omega, fun k r' h1 h2 => ?_⟩
      have := hlt (k - (i + 1)) (by omega) r'
      rwa [List.getElem?_drop, Nat.add_sub_cancel' (by omega)] at this
    · simp [response, hi] at hr
    · simp [response, hi] at hr

end Response

/-! ### Runs of a bag -/

theorem Spec.Run.split {Op Ret State : Type} {S : Spec Op Ret State} {s s' : State}
    {l l' : List (Op × Ret)} (hr : S.Run s (l ++ l') s') :
    ∃ s₁, S.Run s l s₁ ∧ S.Run s₁ l' s' := by
  induction l generalizing s with
  | nil => exact ⟨s, .nil s, hr⟩
  | cons a l ih =>
    rcases hr with _ | ⟨hn, hr⟩
    obtain ⟨s₁, h₁, h₂⟩ := ih hr
    exact ⟨s₁, .cons hn h₁, h₂⟩

section Bag

variable {α : Type} [DecidableEq α] {h : List (Event (BagOp α) (BagRet α))} {x : α}

omit [DecidableEq α] in
/-- Only a get gets an item. -/
theorem Spec.Run.op_eq_get {s s' : Multiset α} {l : List (BagOp α × BagRet α)}
    (hr : (bagSpec α).Run s l s') {op : BagOp α} {y : Option α} (h : (op, .got y) ∈ l) :
    op = .get := by
  induction hr with
  | nil => simp at h
  | @cons s₁ s₂ s₃ op' r l hn _ ih =>
    rcases List.mem_cons.mp h with h | h
    · obtain ⟨rfl, rfl⟩ := Prod.mk.inj h
      rcases op with z | _
      · rcases y with _ | y <;> simp [bagSpec, BagStep] at hn
      · rfl
    · exact ih h

/-- An item that disappears was got. -/
theorem Spec.Run.got {s s' : Multiset α} {l : List (BagOp α × BagRet α)}
    (hr : (bagSpec α).Run s l s') (hx : x ∈ s) (hx' : x ∉ s') :
    (BagOp.get, BagRet.got (some x)) ∈ l := by
  induction hr with
  | nil => exact absurd hx hx'
  | @cons s₁ s₂ s₃ op r l hn _ ih =>
    by_cases hx₂ : x ∈ s₂
    · exact List.mem_cons_of_mem _ (ih hx₂ hx')
    · rcases op with y | _ <;> rcases r with (_ | _) | (_ | y) <;>
        simp only [bagSpec, BagStep] at hn
      · exact absurd (hn ▸ hx) hx₂
      · exact absurd (hn ▸ Multiset.mem_cons_of_mem hx) hx₂
      · simp [hn.1] at hx
      · rw [hn, Multiset.mem_cons] at hx
        rcases hx with rfl | hx
        · exact List.mem_cons_self
        · exact absurd hx hx₂

/-- As many copies are there or were got as were there or were put. -/
theorem Spec.Run.count {s s' : Multiset α} {l : List (BagOp α × BagRet α)}
    (hr : (bagSpec α).Run s l s') (x : α) :
    s'.count x + l.count (.get, .got (some x)) = s.count x + l.count (.put x, .put true) := by
  induction hr with
  | nil => simp
  | @cons s₁ s₂ s₃ op r l hn _ ih =>
    rcases op with y | _ <;> rcases r with (_ | _) | (_ | y) <;>
      simp only [bagSpec, BagStep] at hn
    · subst hn
      simpa using ih
    · subst hn
      by_cases hy : y = x
      · subst hy
        simp at ih ⊢
        omega
      · simp [hy, Ne.symm hy] at ih ⊢
        omega
    · obtain ⟨rfl, rfl⟩ := hn
      simpa using ih
    · subst hn
      by_cases hy : y = x
      · subst hy
        simp at ih ⊢
        omega
      · simp [hy, Ne.symm hy] at ih ⊢
        omega

/-- Every get returned, and none returned `x` after time `i`. -/
def othersGet (h : List (Event (BagOp α) (BagRet α))) (x : α) (i : ℕ) : Bool :=
  (List.range h.length).all fun k => match h[k]? with
    | some (.inv _ .get) => (response h k).any fun p => p.2 ≠ .got (some x) || p.1 < i
    | _ => true

theorem othersGet_spec {i k t : ℕ} (ho : othersGet h x i = true)
    (hk : h[k]? = some (.inv t .get)) :
    ∃ j r, Returns h k j r ∧ (r ≠ .got (some x) ∨ j < i) := by
  have hlt : k < h.length := (List.getElem?_eq_some_iff.mp hk).choose
  have hall := List.all_eq_true.mp ho k (List.mem_range.mpr hlt)
  simp only [hk, Option.any_eq_true] at hall
  obtain ⟨⟨j, r⟩, hr, hor⟩ := hall
  refine ⟨j, r, returns_of_response hr, ?_⟩
  simpa using hor

omit [DecidableEq α] in
/-- The operation of a call in the order is the one that was invoked. -/
theorem Order.op_eq {L : List (Call (BagOp α) (BagRet α))} (ho : Order h L)
    {c : Call (BagOp α) (BagRet α)} (hc : c ∈ L) {t : ℕ} {op : BagOp α}
    (hi : h[c.id]? = some (.inv t op)) : c.op = op := by
  obtain ⟨u, hu⟩ := ho.invoked c hc
  have := hu.symm.trans hi
  simp only [Option.some.injEq, Event.inv.injEq] at this
  exact this.2

/-- **Lost**: the put of `x` at time `i` returned true before the get at time `g` was
invoked, which returned false; but all gets returned, and none with `x` after `i`. -/
theorem not_linearizable_of_lost {t i j g j' : ℕ} (hi : h[i]? = some (.inv t (.put x)))
    (hput : response h i = some (j, .put true)) (hget : response h g = some (j', .got none))
    (hlt : j < g) (ho : othersGet h x i = true) : ¬ Linearizable (bagSpec α) h := by
  rintro ⟨L, s, hL, hacc⟩
  have hput := returns_of_response hput
  obtain ⟨op, hc⟩ := hL.complete _ _ _ hput
  obtain rfl : op = .put x := hL.op_eq hc hi
  obtain ⟨op', hd⟩ := hL.complete _ _ _ (returns_of_response hget)
  have hpre : Precedes h i g := ⟨j, _, hput, hlt⟩
  obtain ⟨M, N, rfl⟩ := List.append_of_mem hc
  have hrt := List.pairwise_append.mp hL.realTime
  have hrt' := List.pairwise_cons.mp hrt.2.1
  -- the get comes after the put
  have hdN : ⟨g, op', .got none⟩ ∈ N := by
    rcases List.mem_append.mp hd with hd | hd
    · exact absurd hpre (hrt.2.2 _ hd _ List.mem_cons_self)
    · rcases List.mem_cons.mp hd with hd | hd
      · simp at hd
      · exact hd
  obtain ⟨N₁, N₂, rfl⟩ := List.append_of_mem hdN
  unfold Spec.Accepts at hacc
  rw [List.map_append, List.map_cons, List.map_append, List.map_cons] at hacc
  obtain ⟨s₁, -, hrun⟩ := hacc.split
  rcases hrun with _ | ⟨hn, hrun⟩
  obtain ⟨s₃, hrun, hrest⟩ := hrun.split
  rcases hrest with _ | ⟨hn', -⟩
  -- between them somebody got `x`
  have hzero : x ∉ s₃ := by
    rcases op' with y | _
    · exact absurd hn' (by simp [bagSpec, BagStep])
    · simp only [bagSpec, BagStep] at hn'
      simp [hn'.1]
  have hx : x ∈ _ := hn ▸ Multiset.mem_cons_self x s₁
  obtain ⟨e, he, heq⟩ := List.mem_map.mp (hrun.got hx hzero)
  have heL : e ∈ M ++ ⟨i, .put x, .put true⟩ :: (N₁ ++ ⟨g, op', .got none⟩ :: N₂) := by
    simp [he]
  obtain ⟨u, hu⟩ := hL.invoked e heL
  have heop : e.op = .get := (Prod.mk.inj heq).1
  have heret : e.ret = .got (some x) := (Prod.mk.inj heq).2
  rw [heop] at hu
  obtain ⟨j₂, r, hret, hor⟩ := othersGet_spec ho hu
  have hre := hL.returned e heL _ _ hret
  rw [heret] at hre
  exact hrt'.1 e (List.mem_append_left _ he) ⟨j₂, r, hret, hor.resolve_left (not_not.mpr hre)⟩

/-- `x` was put only by the call invoked at time `i`. -/
def onePut (h : List (Event (BagOp α) (BagRet α))) (x : α) (i : ℕ) : Bool :=
  (List.range h.length).all fun k => match h[k]? with
    | some (.inv _ (.put y)) => y ≠ x || k = i
    | _ => true

/-- **Duplicated**: two calls got `x`, which only one call put. -/
theorem not_linearizable_of_duplicated {i g g' j j' : ℕ} (hne : g ≠ g')
    (hg : response h g = some (j, .got (some x)))
    (hg' : response h g' = some (j', .got (some x))) (ho : onePut h x i = true) :
    ¬ Linearizable (bagSpec α) h := by
  rintro ⟨L, s, hL, hacc⟩
  have hcount := Spec.Run.count hacc x
  rw [show (bagSpec α).init = 0 from rfl, Multiset.count_zero, List.count_eq_countP,
    List.count_eq_countP, List.countP_map, List.countP_map, List.countP_eq_length_filter,
    List.countP_eq_length_filter] at hcount
  obtain ⟨op, hc⟩ := hL.complete _ _ _ (returns_of_response hg)
  obtain ⟨op', hc'⟩ := hL.complete _ _ _ (returns_of_response hg')
  obtain rfl : op = .get := Spec.Run.op_eq_get hacc (List.mem_map.mpr ⟨_, hc, rfl⟩)
  obtain rfl : op' = .get := Spec.Run.op_eq_get hacc (List.mem_map.mpr ⟨_, hc', rfl⟩)
  -- both gets are in the order, but only one put
  have hgets : [(⟨g, .get, .got (some x)⟩ : Call (BagOp α) (BagRet α)),
      ⟨g', .get, .got (some x)⟩].length ≤
      (L.filter ((fun p => p == (BagOp.get, BagRet.got (some x))) ∘
        fun c : Call (BagOp α) (BagRet α) => (c.op, c.ret))).length :=
    (List.subperm_of_subset (by simp [hne]) (by
      intro c hmem
      rw [List.mem_filter]
      rcases List.mem_cons.mp hmem with rfl | hmem
      · exact ⟨hc, by simp⟩
      · obtain rfl := List.mem_singleton.mp hmem
        exact ⟨hc', by simp⟩)).length_le
  have hputs : (L.filter ((fun p => p == (BagOp.put x, BagRet.put true)) ∘
      fun c : Call (BagOp α) (BagRet α) => (c.op, c.ret))).length ≤ [i].length := by
    rw [← List.length_map (f := (·.id))]
    refine (List.subperm_of_subset (hL.nodup.sublist (List.filter_sublist.map _)) ?_).length_le
    intro k hk
    obtain ⟨c, hcL, rfl⟩ := List.mem_map.mp hk
    obtain ⟨hcL, hceq⟩ := List.mem_filter.mp hcL
    obtain ⟨t, ht⟩ := hL.invoked c hcL
    have hall := List.all_eq_true.mp ho c.id (List.mem_range.mpr (hL.id_lt hcL))
    have hput : c.op = .put x := (Prod.mk.inj (beq_iff_eq.mp hceq)).1
    rw [hput] at ht
    simpa [ht] using hall
  simp only [List.length_cons, List.length_nil] at hgets hputs
  omega

end Bag

end Linearizability

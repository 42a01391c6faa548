/-
Linearizable bags.

`Linearizable S h` — the calls of history `h` have a total order, consistent
with the real-time order of non-overlapping calls, that is a sequential run of
the specification `S`.  Calls that have not returned may be left out, or be
given a result.

There are two specifications of a bag: a get removes one present copy of an item, and a get
that fails finds the bag empty; a put adds one copy of its item, but the puts of `bagSpec` may
also be refused and add nothing, those of `unboundedBagSpec` may not.  For `bagSpec` the file
gives a way to prove it step by step along a run: `Lin h bag stat` says that `h` is
linearizable to a bag that stores, at every key `k`, the item `bag k`, where
`stat t` tells how far thread `t`'s pending call has got.

* `Lin.put`, `Lin.take` — linearization points, taken by any thread on behalf
  of the pending one;
* `Lin.observe` — a moment at which the bag is empty; from then on a pending
  get may fail, and is put into the order at that moment (`Lin.resNone`), long
  after the fact;
* `Lin.linearizable` — whatever is built this way is linearizable;
* `Linearizable.unbounded` — to an unbounded bag, if no put of the history is refused.
-/
import Scal.Interleave
import Mathlib.Data.Finset.Basic
import Mathlib.Data.Multiset.Filter

open Interleave

namespace Linearizability

/-! ### Histories and specifications -/

/-- A sequential object: `next s op r s'` when operation `op` may take state
`s` to `s'` and return `r`. -/
structure Spec (Op Ret State : Type) where
  init : State
  next : State → Op → Ret → State → Prop

variable {Op Ret State : Type}

inductive Spec.Run (S : Spec Op Ret State) : State → List (Op × Ret) → State → Prop
  | nil (s) : S.Run s [] s
  | cons {s₁ s₂ s₃ op r l} : S.next s₁ op r s₂ → S.Run s₂ l s₃ → S.Run s₁ ((op, r) :: l) s₃

/-- A call in a sequential order: its invocation time, operation and result. -/
structure Call (Op Ret : Type) where
  id : ℕ
  op : Op
  ret : Ret

/-- `L` is a total order of calls of `h`, with their results. -/
structure Order (h : List (Event Op Ret)) (L : List (Call Op Ret)) : Prop where
  nodup : (L.map (·.id)).Nodup
  invoked : ∀ c ∈ L, ∃ t, h[c.id]? = some (.inv t c.op)
  returned : ∀ c ∈ L, ∀ j r, Returns h c.id j r → r = c.ret
  complete : ∀ i j r, Returns h i j r → ∃ op, (⟨i, op, r⟩ : Call Op Ret) ∈ L
  realTime : L.Pairwise fun a b => ¬ Precedes h b.id a.id

def Spec.Accepts (S : Spec Op Ret State) (L : List (Call Op Ret)) (s : State) : Prop :=
  S.Run S.init (L.map fun c => (c.op, c.ret)) s

/-- Every call that returned, and possibly some that did not, have a total
order consistent with real time that is a run of `S`. -/
def Linearizable (S : Spec Op Ret State) (h : List (Event Op Ret)) : Prop :=
  ∃ L s, Order h L ∧ S.Accepts L s

theorem Spec.Run.append {S : Spec Op Ret State} {s₁ s₂ s₃ : State} {l l' : List (Op × Ret)}
    (h : S.Run s₁ l s₂) (h' : S.Run s₂ l' s₃) : S.Run s₁ (l ++ l') s₃ := by
  induction h with
  | nil => exact h'
  | cons hn _ ih => exact .cons hn (ih h')

theorem Spec.Accepts.append {S : Spec Op Ret State} {s s' : State} {L L' : List (Call Op Ret)}
    (h : S.Accepts L s) (h' : S.Run s (L'.map fun c => (c.op, c.ret)) s') :
    S.Accepts (L ++ L') s' := by
  unfold Spec.Accepts at h ⊢
  rw [List.map_append]
  exact Spec.Run.append h h'

/-! ### The order, one step of the history at a time -/

section Order

variable {h : List (Event Op Ret)} {L : List (Call Op Ret)}

theorem Order.id_lt (ho : Order h L) {c : Call Op Ret} (hc : c ∈ L) : c.id < h.length := by
  obtain ⟨t, ht⟩ := ho.invoked c hc
  exact (List.getElem?_eq_some_iff.mp ht).choose

/-- A step that is not a response changes no call that was there. -/
theorem Order.extend (ho : Order h L) {e : Event Op Ret} (he : ∀ t r, e ≠ .res t r) :
    Order (h ++ [e]) L := by
  have hret : ∀ i j r, Returns (h ++ [e]) i j r → Returns h i j r := by
    intro i j r hr
    rcases returns_append_cases hr with hr | ⟨-, t, op, rfl, -⟩
    · exact hr
    · exact absurd rfl (he t r)
  refine ⟨ho.nodup, fun c hc => ?_, fun c hc j r hr => ?_, fun i j r hr => ?_, ?_⟩
  · obtain ⟨t, ht⟩ := ho.invoked c hc
    exact ⟨t, by rw [getElem?_append_of_lt (ho.id_lt hc)]; exact ht⟩
  · exact ho.returned c hc j r (hret _ _ _ hr)
  · exact ho.complete i j r (hret _ _ _ hr)
  · refine ho.realTime.imp_of_mem fun {a b} ha _ hab hp => hab ?_
    exact (precedes_append_iff (ho.id_lt ha).le).mp hp

/-- The response of a thread's only pending call, when the call is in the order
with that result. -/
theorem Order.respond (ho : Order h L) {t i : ℕ} {op : Op} {r : Ret}
    (hc : (⟨i, op, r⟩ : Call Op Ret) ∈ L) (hu : ∀ k op', Open h t k op' → k = i) :
    Order (h ++ [.res t r]) L := by
  have hret : ∀ k j r', Returns (h ++ [.res t r]) k j r' →
      Returns h k j r' ∨ (k = i ∧ r' = r) := by
    intro k j r' hr
    rcases returns_append_cases hr with hr | ⟨-, u, op', he, hk⟩
    · exact Or.inl hr
    · simp only [Event.res.injEq] at he
      obtain ⟨rfl, rfl⟩ := he
      exact Or.inr ⟨hu k op' hk, rfl⟩
  refine ⟨ho.nodup, fun c hc' => ?_, fun c hc' j r' hr => ?_, fun k j r' hr => ?_, ?_⟩
  · obtain ⟨u, hu'⟩ := ho.invoked c hc'
    exact ⟨u, by rw [getElem?_append_of_lt (ho.id_lt hc')]; exact hu'⟩
  · rcases hret _ _ _ hr with hr | ⟨hci, rfl⟩
    · exact ho.returned c hc' j r' hr
    · have hcc := List.inj_on_of_nodup_map ho.nodup hc' hc hci
      rw [hcc]
  · rcases hret _ _ _ hr with hr | ⟨rfl, rfl⟩
    · exact ho.complete k j r' hr
    · exact ⟨op, hc⟩
  · refine ho.realTime.imp_of_mem fun {a b} ha _ hab hp => hab ?_
    exact (precedes_append_iff (ho.id_lt ha).le).mp hp

/-- A pending call may be put into the order wherever nothing that preceded it
comes later. -/
theorem Order.insert {L₁ L₂ : List (Call Op Ret)} (ho : Order h (L₁ ++ L₂)) {t : ℕ}
    {c : Call Op Ret} (hc : Open h t c.id c.op) (hnew : ∀ d ∈ L₁ ++ L₂, d.id ≠ c.id)
    (hlate : ∀ d ∈ L₂, ¬ Precedes h d.id c.id) : Order h (L₁ ++ c :: L₂) := by
  have hmem : ∀ d, d ∈ L₁ ++ c :: L₂ ↔ d = c ∨ d ∈ L₁ ++ L₂ := by
    intro d
    simp only [List.mem_append, List.mem_cons]
    tauto
  refine ⟨?_, fun d hd => ?_, fun d hd j r hr => ?_, fun i j r hr => ?_, ?_⟩
  · have hperm : ((L₁ ++ c :: L₂).map (·.id)).Perm (c.id :: (L₁ ++ L₂).map (·.id)) := by
      rw [← List.map_cons]
      exact List.perm_middle.map _
    rw [hperm.nodup_iff, List.nodup_cons]
    refine ⟨fun hm => ?_, ho.nodup⟩
    obtain ⟨d, hd, hdc⟩ := List.mem_map.mp hm
    exact hnew d hd hdc
  · rcases (hmem d).mp hd with rfl | hd
    · exact ⟨t, hc.1⟩
    · exact ho.invoked d hd
  · rcases (hmem d).mp hd with rfl | hd
    · exact absurd hr hc.not_returns
    · exact ho.returned d hd j r hr
  · obtain ⟨op, hop⟩ := ho.complete i j r hr
    exact ⟨op, (hmem _).mpr (Or.inr hop)⟩
  · have hrt := List.pairwise_append.mp ho.realTime
    refine List.pairwise_append.mpr ⟨hrt.1, List.pairwise_cons.mpr ⟨hlate, hrt.2.1⟩, ?_⟩
    intro a ha b hb
    rcases List.mem_cons.mp hb with rfl | hb
    · exact hc.not_precedes
    · exact hrt.2.2 a ha b hb

end Order

/-! ### Bags -/

/-- The operations of a pool of items. -/
inductive BagOp (α : Type) where
  | put (x : α)
  | get
  deriving DecidableEq

/-- Their results: whether the item was put, and the item got, if any. -/
inductive BagRet (α : Type) where
  | put (ok : Bool)
  | got (x : Option α)
  deriving DecidableEq

def BagStep {α : Type} : Multiset α → BagOp α → BagRet α → Multiset α → Prop
  | m, .put x, .put true, m' => m' = x ::ₘ m
  | m, .put _, .put false, m' => m' = m
  | m, .get, .got (some x), m' => m = x ::ₘ m'
  | m, .get, .got none, m' => m = 0 ∧ m' = 0
  | _, _, _, _ => False

theorem BagStep.unique {α : Type} {m m₁ m₂ : Multiset α} {op : BagOp α} {r : BagRet α}
    (h₁ : BagStep m op r m₁) (h₂ : BagStep m op r m₂) : m₁ = m₂ := by
  rcases op with x | _ <;> rcases r with (_ | _) | (_ | x) <;> simp only [BagStep] at h₁ h₂
  · rw [h₁, h₂]
  · rw [h₁, h₂]
  · rw [h₁.2, h₂.2]
  · exact (Multiset.cons_inj_right x).mp (h₁.symm.trans h₂)

/-- A bag: a put that returns true adds one copy of its item and one that
returns false adds nothing; a get removes one present copy of the item it
returns, and fails only on the empty bag. -/
def bagSpec (α : Type) : Spec (BagOp α) (BagRet α) (Multiset α) := ⟨0, BagStep⟩

/-- A bag's contents are determined by the calls that led to them. -/
theorem bag_run_cancel {α : Type} {s s₁ s₂ : Multiset α} {l l' : List (BagOp α × BagRet α)}
    (h : (bagSpec α).Run s l s₁) (h' : (bagSpec α).Run s (l ++ l') s₂) :
    (bagSpec α).Run s₁ l' s₂ := by
  induction h with
  | nil => exact h'
  | cons hn hr ih =>
    cases h' with
    | cons hn' h' =>
      obtain rfl := BagStep.unique hn hn'
      exact ih h'

/-- The steps of a bag that has room for every item. -/
def UnboundedBagStep {α : Type} : Multiset α → BagOp α → BagRet α → Multiset α → Prop
  | m, .put x, .put true, m' => m' = x ::ₘ m
  | m, .get, .got (some x), m' => m = x ::ₘ m'
  | m, .get, .got none, m' => m = 0 ∧ m' = 0
  | _, _, _, _ => False

/-- An unbounded bag: a put adds one copy of its item and returns true; a get removes one
present copy of the item it returns, and fails only on the empty bag. -/
def unboundedBagSpec (α : Type) : Spec (BagOp α) (BagRet α) (Multiset α) :=
  ⟨0, UnboundedBagStep⟩

/-- The result of a put that adds nothing. -/
def BagRet.refused {α : Type} : BagRet α → Bool
  | .put ok => !ok
  | .got _ => false

section Unbounded

variable {α : Type} {m m' : Multiset α} {op : BagOp α} {r : BagRet α}

theorem UnboundedBagStep.bagStep (h : UnboundedBagStep m op r m') : BagStep m op r m' := by
  rcases op with x | _ <;> rcases r with (_ | _) | (_ | x) <;> first | exact h | exact h.elim

theorem BagStep.unbounded (h : BagStep m op r m') (hr : r.refused = false) :
    UnboundedBagStep m op r m' := by
  rcases op with x | _ <;> rcases r with (_ | _) | (_ | x) <;> first | exact h | cases hr

theorem BagStep.eq_of_refused (h : BagStep m op r m') (hr : r.refused = true) : m' = m := by
  rcases op with x | _ <;> rcases r with (_ | _) | (_ | x) <;>
    first | exact h | exact h.elim | cases hr

/-- The puts that are refused may be left out of a run. -/
theorem Spec.Run.unbounded {l : List (BagOp α × BagRet α)} (h : (bagSpec α).Run m l m') :
    (unboundedBagSpec α).Run m (l.filter fun c => !c.2.refused) m' := by
  induction h with
  | nil s => exact .nil s
  | @cons s₁ s₂ s₃ op r l hn _ ih =>
    cases hr : r.refused with
    | true =>
      -- the bag is the same without this call
      obtain rfl := hn.eq_of_refused hr
      rwa [List.filter_cons_of_neg (by simp [hr])]
    | false =>
      rw [List.filter_cons_of_pos (by simp [hr])]
      exact .cons (hn.unbounded hr) ih

theorem Spec.Run.bounded {l : List (BagOp α × BagRet α)} (h : (unboundedBagSpec α).Run m l m') :
    (bagSpec α).Run m l m' := by
  induction h with
  | nil s => exact .nil s
  | cons hn _ ih => exact .cons (UnboundedBagStep.bagStep hn) ih

theorem Linearizable.bounded {h : List (Event (BagOp α) (BagRet α))}
    (hl : Linearizable (unboundedBagSpec α) h) : Linearizable (bagSpec α) h := by
  obtain ⟨L, s, ho, hrun⟩ := hl
  exact ⟨L, s, ho, hrun.bounded⟩

/-- If no put was refused, the bag is an unbounded one. -/
theorem Linearizable.unbounded {h : List (Event (BagOp α) (BagRet α))}
    (hl : Linearizable (bagSpec α) h) (hput : ∀ t r, .res t r ∈ h → r.refused = false) :
    Linearizable (unboundedBagSpec α) h := by
  obtain ⟨L, s, ho, hrun⟩ := hl
  have hsub : (L.filter fun c => !c.ret.refused).Sublist L := List.filter_sublist
  refine ⟨L.filter fun c => !c.ret.refused, s, ⟨?_, fun c hc => ?_, fun c hc => ?_,
    fun i j r hr => ?_, ho.realTime.sublist hsub⟩, ?_⟩
  · exact ho.nodup.sublist (hsub.map _)
  · exact ho.invoked c (hsub.subset hc)
  · exact ho.returned c (hsub.subset hc)
  · -- a call that returned is not one of those left out
    obtain ⟨op, hmem⟩ := ho.complete i j r hr
    obtain ⟨t, -, -, hj, -⟩ := hr
    have hres := hput t r (List.mem_of_getElem? hj)
    exact ⟨op, List.mem_filter.mpr ⟨hmem, by simp [hres]⟩⟩
  · have hrun' := Spec.Run.unbounded hrun
    rw [List.filter_map] at hrun'
    exact hrun'

end Unbounded

section Stores

variable {κ α : Type} [DecidableEq κ]

/-- The items at the keys of `bag` form the multiset `m`. -/
def Stores (bag : κ → Option α) (m : Multiset α) : Prop :=
  ∃ s : Finset κ, (∀ k, k ∈ s ↔ (bag k).isSome) ∧ m = s.val.filterMap bag

omit [DecidableEq κ] in
theorem stores_zero : Stores (fun _ : κ => (none : Option α)) 0 :=
  ⟨∅, by simp, by simp⟩

omit [DecidableEq κ] in
theorem Stores.eq_zero {bag : κ → Option α} {m : Multiset α} (h : Stores bag m)
    (hb : ∀ k, bag k = none) : m = 0 := by
  obtain ⟨s, hs, rfl⟩ := h
  obtain rfl : s = ∅ := Finset.eq_empty_of_forall_notMem fun k hk => by
    simpa [hb k] using (hs k).mp hk
  simp

theorem filterMap_update {s : Finset κ} {bag : κ → Option α} {k : κ} {x : Option α}
    (hk : k ∉ s) : s.val.filterMap (Function.update bag k x) = s.val.filterMap bag := by
  have hoff : ∀ l : List κ, k ∉ l →
      l.filterMap (Function.update bag k x) = l.filterMap bag := by
    intro l
    induction l with
    | nil => simp
    | cons a l ih =>
      intro hl
      rw [List.mem_cons, not_or] at hl
      rw [List.filterMap_cons, List.filterMap_cons, ih hl.2, Function.update_of_ne (Ne.symm hl.1)]
  obtain ⟨⟨l⟩, hl⟩ := s
  exact congrArg _ (hoff l hk)

theorem Stores.put {bag : κ → Option α} {m : Multiset α} (h : Stores bag m) {k : κ}
    (hk : bag k = none) (x : α) : Stores (Function.update bag k (some x)) (x ::ₘ m) := by
  obtain ⟨s, hs, rfl⟩ := h
  have hks : k ∉ s := fun hmem => by simpa [hk] using (hs k).mp hmem
  refine ⟨s.cons k hks, fun k' => ?_, ?_⟩
  · by_cases hkk : k' = k
    · subst hkk; simp
    · simp [hkk, hs]
  · rw [Finset.cons_val, Multiset.filterMap_cons_some _ _ _ (Function.update_self ..),
      filterMap_update hks]

theorem Stores.take {bag : κ → Option α} {m : Multiset α} (h : Stores bag m) {k : κ} {x : α}
    (hk : bag k = some x) : ∃ m', m = x ::ₘ m' ∧ Stores (Function.update bag k none) m' := by
  obtain ⟨s, hs, rfl⟩ := h
  have hks : k ∈ s := (hs k).mpr (by simp [hk])
  refine ⟨(s.erase k).val.filterMap bag, ?_, s.erase k, fun k' => ?_, ?_⟩
  · rw [← Multiset.filterMap_cons_some _ _ _ hk, Finset.erase_val, Multiset.cons_erase hks]
  · by_cases hkk : k' = k
    · subst hkk; simp
    · simp [hkk, hs]
  · rw [filterMap_update (Finset.notMem_erase k s)]

end Stores

/-! ### Linearization step by step -/

/-- How far a thread has got: no call; a pending call without a result, which
may fail if `seen`; a pending call whose result is fixed. -/
inductive Status (α : Type) where
  | idle
  | pending (i : ℕ) (op : BagOp α) (seen : Bool)
  | done (i : ℕ) (op : BagOp α) (r : BagRet α)

def Status.call {α : Type} : Status α → Option (ℕ × BagOp α)
  | .idle => none
  | .pending i op _ => some (i, op)
  | .done i op _ => some (i, op)

section Lin

variable {κ α : Type} {h : List (Event (BagOp α) (BagRet α))} {bag : κ → Option α}
  {stat : ℕ → Status α} {L : List (Call (BagOp α) (BagRet α))} {m : Multiset α}
  {t i : ℕ} {op : BagOp α} {r : BagRet α} {s : Bool}

/-- The bag was empty after a prefix of the order, and nothing after that prefix
precedes the call `i`. -/
def SawEmpty (h : List (Event (BagOp α) (BagRet α))) (L : List (Call (BagOp α) (BagRet α)))
    (m : Multiset α) (i : ℕ) : Prop :=
  ∃ L₁ L₂, L = L₁ ++ L₂ ∧ (bagSpec α).Accepts L₁ 0 ∧
    (bagSpec α).Run 0 (L₂.map fun c => (c.op, c.ret)) m ∧
    ∀ c ∈ L₂, ¬ Precedes h c.id i

/-- What the status of thread `t` says about the history and the order. -/
def Status.Fits (h : List (Event (BagOp α) (BagRet α))) (L : List (Call (BagOp α) (BagRet α)))
    (m : Multiset α) (t : ℕ) : Status α → Prop
  | .idle => True
  | .pending i op seen =>
    Open h t i op ∧ (∀ c ∈ L, c.id ≠ i) ∧ (seen = true → SawEmpty h L m i)
  | .done i op r => Open h t i op ∧ ⟨i, op, r⟩ ∈ L

structure LinInv (h : List (Event (BagOp α) (BagRet α))) (bag : κ → Option α)
    (stat : ℕ → Status α) (L : List (Call (BagOp α) (BagRet α))) (m : Multiset α) : Prop where
  order : Order h L
  accepts : (bagSpec α).Accepts L m
  stores : Stores bag m
  opens : ∀ t i op, Open h t i op → (stat t).call = some (i, op)
  fits : ∀ t, (stat t).Fits h L m t

/-- History `h` is linearizable to the contents `bag`, with pending calls as far
as `stat` says. -/
def Lin (h : List (Event (BagOp α) (BagRet α))) (bag : κ → Option α) (stat : ℕ → Status α) :
    Prop :=
  ∃ L m, LinInv h bag stat L m

theorem Lin.linearizable (hl : Lin h bag stat) : Linearizable (bagSpec α) h := by
  obtain ⟨L, m, hl⟩ := hl
  exact ⟨L, m, hl.order, hl.accepts⟩

theorem lin_init : Lin ([] : List (Event (BagOp α) (BagRet α))) (fun _ : κ => none)
    (fun _ => .idle) := by
  refine ⟨[], 0, ⟨by simp, by simp, by simp, ?_, by simp⟩, .nil _, stores_zero,
    ?_, fun _ => trivial⟩
  · rintro i j r ⟨t, op, hi, -⟩
    simp at hi
  · rintro t i op ⟨hi, -⟩
    simp at hi

theorem SawEmpty.extend {e : Event (BagOp α) (BagRet α)} (hs : SawEmpty h L m i)
    (hi : i ≤ h.length) : SawEmpty (h ++ [e]) L m i := by
  obtain ⟨L₁, L₂, hL, hacc, hrun, hlate⟩ := hs
  exact ⟨L₁, L₂, hL, hacc, hrun, fun c hc hp => hlate c hc ((precedes_append_iff hi).mp hp)⟩

/-- A failing get `c`, put into the order where the bag was empty, leaves the
other witnesses of emptiness in place. -/
theorem SawEmpty.insert {L₁ L₂ : List (Call (BagOp α) (BagRet α))}
    {c : Call (BagOp α) (BagRet α)} (hop : c.op = .get) (hret : c.ret = .got none)
    (hs : SawEmpty h (L₁ ++ L₂) m i) (hacc : (bagSpec α).Accepts L₁ 0)
    (hrun : (bagSpec α).Run 0 (L₂.map fun c => (c.op, c.ret)) m)
    (hc : ¬ Precedes h c.id i) : SawEmpty h (L₁ ++ c :: L₂) m i := by
  have hstep : (bagSpec α).next 0 c.op c.ret 0 := by
    rw [hop, hret]
    exact ⟨rfl, rfl⟩
  obtain ⟨M₁, M₂, hL, hacc', hrun', hlate⟩ := hs
  rcases List.append_eq_append_iff.mp hL with ⟨X, rfl, rfl⟩ | ⟨X, rfl, rfl⟩
  · -- the other moment is later: `c` goes into its prefix
    refine ⟨L₁ ++ c :: X, M₂, by simp, ?_, hrun', hlate⟩
    have hX : (bagSpec α).Run 0 (X.map fun c => (c.op, c.ret))
        0 := by
      unfold Spec.Accepts at hacc hacc'
      rw [List.map_append] at hacc'
      exact bag_run_cancel hacc hacc'
    exact hacc.append (.cons hstep hX)
  · -- the other moment is earlier: `c` goes into its suffix
    refine ⟨M₁, X ++ c :: L₂, by simp, hacc', ?_, fun d hd => ?_⟩
    · unfold Spec.Accepts at hacc hacc'
      rw [List.map_append] at hacc
      rw [List.map_append, List.map_cons]
      exact Spec.Run.append (bag_run_cancel hacc' hacc) (.cons hstep hrun)
    · rcases List.mem_append.mp hd with hd | hd
      · exact hlate d (List.mem_append_left _ hd)
      · rcases List.mem_cons.mp hd with rfl | hd
        · exact hc
        · exact hlate d (List.mem_append_right _ hd)

theorem Status.Fits.extend {st : Status α} {e : Event (BagOp α) (BagRet α)}
    (hf : st.Fits h L m t) (he : ∀ r, e ≠ .res t r) : st.Fits (h ++ [e]) L m t := by
  cases st with
  | idle => trivial
  | pending i op seen =>
    obtain ⟨ho, hn, hs⟩ := hf
    exact ⟨ho.append he, hn, fun hseen => (hs hseen).extend ho.lt_length.le⟩
  | done i op r => exact ⟨hf.1.append he, hf.2⟩

/-- A step of `t` that is not a response, by a thread whose status is kept. -/
theorem Lin.tau (hl : Lin h bag stat) (t : ℕ) : Lin (h ++ [.tau t]) bag stat := by
  obtain ⟨L, m, hl⟩ := hl
  refine ⟨L, m, hl.order.extend (by simp), hl.accepts, hl.stores, fun u i op ho => ?_,
    fun u => (hl.fits u).extend (by simp)⟩
  rcases open_of_append ho with ho | ⟨-, he⟩
  · exact hl.opens u i op ho
  · exact absurd he (by simp)

theorem Lin.inv (hl : Lin h bag stat) (ht : stat t = .idle) (op : BagOp α) :
    Lin (h ++ [.inv t op]) bag
      (Function.update stat t (.pending h.length op false)) := by
  obtain ⟨L, m, hl⟩ := hl
  refine ⟨L, m, hl.order.extend (by simp), hl.accepts, hl.stores, fun u i op' ho => ?_,
    fun u => ?_⟩
  · rcases open_of_append ho with ho | ⟨rfl, he⟩
    · have hc := hl.opens u i op' ho
      have hut : u ≠ t := fun hut => by
        rw [hut, ht] at hc
        simp [Status.call] at hc
      rwa [Function.update_of_ne hut]
    · simp only [Event.inv.injEq] at he
      obtain ⟨rfl, rfl⟩ := he
      simp [Status.call]
  · by_cases hut : u = t
    · subst hut
      rw [Function.update_self]
      refine ⟨open_invoke h u op, fun c hc => (hl.order.id_lt hc).ne, by simp⟩
    · rw [Function.update_of_ne hut]
      exact (hl.fits u).extend (by simp)

/-- **Linearization point**: the pending call of `t` takes effect now. -/
theorem Lin.linearize {bag' : κ → Option α} (hl : Lin h bag stat)
    (ht : stat t = .pending i op s)
    (hn : ∀ m, Stores bag m → ∃ m', BagStep m op r m' ∧ Stores bag' m') :
    Lin h bag' (Function.update stat t (.done i op r)) := by
  obtain ⟨L, m, hl⟩ := hl
  obtain ⟨m', hstep, hst⟩ := hn m hl.stores
  have hfit := hl.fits t
  rw [ht] at hfit
  obtain ⟨ho, hnew, -⟩ := hfit
  have hord : Order h (L ++ [⟨i, op, r⟩]) := by
    have hL : Order h (L ++ []) := by simpa using hl.order
    refine hL.insert ho ?_ (by simp)
    simpa using hnew
  have hrun : (bagSpec α).Run m ([(⟨i, op, r⟩ : Call _ _)].map fun c => (c.op, c.ret)) m' :=
    .cons hstep (.nil _)
  refine ⟨L ++ [⟨i, op, r⟩], m', hord, hl.accepts.append hrun, hst, fun u j op' hu => ?_,
    fun u => ?_⟩
  · by_cases hut : u = t
    · subst hut
      rw [Function.update_self, Status.call, ← hl.opens u j op' hu, ht, Status.call]
    · rw [Function.update_of_ne hut]
      exact hl.opens u j op' hu
  · by_cases hut : u = t
    · subst hut
      rw [Function.update_self]
      exact ⟨ho, by simp⟩
    · rw [Function.update_of_ne hut]
      have hfu := hl.fits u
      cases hsu : stat u with
      | idle => trivial
      | pending j op' seen =>
        rw [hsu] at hfu
        obtain ⟨hou, hnu, hsee⟩ := hfu
        refine ⟨hou, fun c hc => ?_, fun hseen => ?_⟩
        · rcases List.mem_append.mp hc with hc | hc
          · exact hnu c hc
          · obtain rfl := List.mem_singleton.mp hc
            -- calls of different threads have different invocations
            rintro rfl
            have := ho.1.symm.trans hou.1
            simp only [Option.some.injEq, Event.inv.injEq] at this
            exact hut this.1.symm
        · obtain ⟨L₁, L₂, rfl, hacc, hrun, hlate⟩ := hsee hseen
          refine ⟨L₁, L₂ ++ [⟨i, op, r⟩], by simp, hacc, ?_, fun c hc => ?_⟩
          · rw [List.map_append]
            exact Spec.Run.append hrun (.cons hstep (.nil _))
          rcases List.mem_append.mp hc with hc | hc
          · exact hlate c hc
          · obtain rfl := List.mem_singleton.mp hc
            exact ho.not_precedes
      | done j op' r' =>
        rw [hsu] at hfu
        exact ⟨hfu.1, List.mem_append_left _ hfu.2⟩

theorem Lin.put [DecidableEq κ] {x : α} {k : κ} (hl : Lin h bag stat)
    (ht : stat t = .pending i (.put x) s) (hk : bag k = none) :
    Lin h (Function.update bag k (some x))
      (Function.update stat t (.done i (.put x) (.put true))) :=
  hl.linearize ht fun m hm => ⟨x ::ₘ m, rfl, hm.put hk x⟩

theorem Lin.refuse {x : α} (hl : Lin h bag stat) (ht : stat t = .pending i (.put x) s) :
    Lin h bag (Function.update stat t (.done i (.put x) (.put false))) :=
  hl.linearize ht fun m hm => ⟨m, rfl, hm⟩

theorem Lin.take [DecidableEq κ] {x : α} {k : κ} (hl : Lin h bag stat)
    (ht : stat t = .pending i .get s) (hk : bag k = some x) :
    Lin h (Function.update bag k none)
      (Function.update stat t (.done i .get (.got (some x)))) :=
  hl.linearize ht fun m hm => by
    obtain ⟨m', rfl, hm'⟩ := hm.take hk
    exact ⟨m', rfl, hm'⟩

/-- The bag is empty now, so a pending get may fail. -/
theorem Lin.observe (hl : Lin h bag stat) (ht : stat t = .pending i op s)
    (hb : ∀ k, bag k = none) : Lin h bag (Function.update stat t (.pending i op true)) := by
  obtain ⟨L, m, hl⟩ := hl
  have hfit := hl.fits t
  rw [ht] at hfit
  have hacc := hl.accepts
  rw [hl.stores.eq_zero hb] at hacc
  refine ⟨L, m, hl.order, hl.accepts, hl.stores, fun u j op' hu => ?_, fun u => ?_⟩
  · by_cases hut : u = t
    · subst hut
      rw [Function.update_self, Status.call, ← hl.opens u j op' hu, ht, Status.call]
    · rw [Function.update_of_ne hut]
      exact hl.opens u j op' hu
  · by_cases hut : u = t
    · subst hut
      rw [Function.update_self]
      refine ⟨hfit.1, hfit.2.1, fun _ => ⟨L, [], by simp, hacc, ?_, by simp⟩⟩
      rw [hl.stores.eq_zero hb]
      exact .nil _
    · rw [Function.update_of_ne hut]
      exact hl.fits u

/-- After the response of `t` no call of `t` is pending. -/
theorem opens_res (hl : LinInv h bag stat L m) (r : BagRet α) (u j : ℕ) (op' : BagOp α)
    (hu : Open (h ++ [.res t r]) u j op') :
    (Function.update stat t .idle u).call = some (j, op') := by
  have hut : u ≠ t := by
    rintro rfl
    rcases open_of_append hu with ho | ⟨-, he⟩
    · exact hu.2 h.length r ho.lt_length (by simp)
    · exact absurd he (by simp)
  rw [Function.update_of_ne hut]
  rcases open_of_append hu with ho | ⟨-, he⟩
  · exact hl.opens u j op' ho
  · exact absurd he (by simp)

theorem Lin.resDone (hl : Lin h bag stat) (ht : stat t = .done i op r) :
    Lin (h ++ [.res t r]) bag (Function.update stat t .idle) := by
  obtain ⟨L, m, hl⟩ := hl
  have hfit := hl.fits t
  rw [ht] at hfit
  have hu : ∀ k op', Open h t k op' → k = i := by
    intro k op' hk
    have := hl.opens t k op' hk
    rw [ht, Status.call, Option.some.injEq, Prod.mk.injEq] at this
    exact this.1.symm
  refine ⟨L, m, hl.order.respond hfit.2 hu, hl.accepts, hl.stores, opens_res hl r,
    fun u => ?_⟩
  by_cases hut : u = t
  · subst hut
    rw [Function.update_self]
    trivial
  · rw [Function.update_of_ne hut]
    exact (hl.fits u).extend (by simp [Ne.symm hut])

/-- A get that saw the bag empty may fail; it is ordered at that moment. -/
theorem Lin.resNone (hl : Lin h bag stat) (ht : stat t = .pending i .get true) :
    Lin (h ++ [.res t (.got none)]) bag (Function.update stat t .idle) := by
  obtain ⟨L, m, hl⟩ := hl
  have hfit := hl.fits t
  rw [ht] at hfit
  obtain ⟨ho, hnew, hsee⟩ := hfit
  obtain ⟨L₁, L₂, rfl, hacc, hrun, hlate⟩ := hsee rfl
  have hu : ∀ k op', Open h t k op' → k = i := by
    intro k op' hk
    have := hl.opens t k op' hk
    rw [ht, Status.call, Option.some.injEq, Prod.mk.injEq] at this
    exact this.1.symm
  have hord : Order h (L₁ ++ (⟨i, .get, .got none⟩ : Call _ _) :: L₂) :=
    hl.order.insert ho hnew hlate
  have hmem : (⟨i, .get, .got none⟩ : Call (BagOp α) (BagRet α)) ∈
      L₁ ++ ⟨i, .get, .got none⟩ :: L₂ := by simp
  refine ⟨L₁ ++ ⟨i, .get, .got none⟩ :: L₂, m, hord.respond hmem hu,
    hacc.append (.cons ⟨rfl, rfl⟩ hrun), hl.stores, opens_res hl _, fun u => ?_⟩
  by_cases hut : u = t
  · subst hut
    rw [Function.update_self]
    trivial
  · rw [Function.update_of_ne hut]
    have hfu := hl.fits u
    refine Status.Fits.extend ?_ (by simp [Ne.symm hut])
    cases hsu : stat u with
    | idle => trivial
    | pending j op' seen =>
      rw [hsu] at hfu
      refine ⟨hfu.1, fun c hc => ?_, fun hseen =>
        (hfu.2.2 hseen).insert rfl rfl hacc hrun ho.not_precedes⟩
      rcases List.mem_append.mp hc with hc | hc
      · exact hfu.2.1 c (List.mem_append_left _ hc)
      · rcases List.mem_cons.mp hc with rfl | hc
        · rintro rfl
          have := ho.1.symm.trans hfu.1.1
          simp only [Option.some.injEq, Event.inv.injEq] at this
          exact hut this.1.symm
        · exact hfu.2.1 c (List.mem_append_right _ hc)
    | done j op' r' =>
      rw [hsu] at hfu
      refine ⟨hfu.1, ?_⟩
      rcases List.mem_append.mp hfu.2 with hc | hc
      · exact List.mem_append_left _ hc
      · exact List.mem_append_right _ (List.mem_cons_of_mem _ hc)

end Lin

end Linearizability

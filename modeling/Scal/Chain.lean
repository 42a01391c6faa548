/-
Singly linked chains of nodes.

* `Chain next alloc chain` — the nodes `chain`, in this order, are linked by their
  `next` words, the last of which is `NULL`.  A `next` word is written once, by a
  `cas` that appends a node (`Chain.append`); from then on it never changes, so a
  position of the chain, once it exists, always has the same node;
* `follow` — the nodes from an address on, which are those of a chain (`Chain.follow_eq`);
* `Linked next p l` — the nodes `l` are linked from `p` on.  Here a `next` word is
  written before its node is linked, and the chain grows and shrinks at its front.
-/
import Scal.AtomicValue
import Mathlib.Data.List.Nodup
import Mathlib.Data.Finset.Card
import Mathlib.Data.Finset.Range

/-- There are at most `n` different numbers below `n`. -/
theorem length_le_of_nodup {l : List ℕ} {n : ℕ} (hn : l.Nodup) (hl : ∀ m ∈ l, m < n) :
    l.length ≤ n := by
  have hsub : l.toFinset ⊆ Finset.range n := fun m hm =>
    Finset.mem_range.mpr (hl m (List.mem_toFinset.mp hm))
  have hcard := Finset.card_le_card hsub
  rwa [List.toFinset_card_of_nodup hn, Finset.card_range] at hcard

/-- The nodes from address `p` on, along `next`. -/
def follow (next : ℕ → AtomicPointer) : ℕ → ℕ → List ℕ
  | 0, _ => []
  | fuel + 1, p => if p = 0 then [] else p :: follow next fuel (next p).value

structure Chain (next : ℕ → AtomicPointer) (alloc : ℕ) (chain : List ℕ) : Prop where
  nodup : chain.Nodup
  bound : ∀ n ∈ chain, n ≠ 0 ∧ n < alloc
  alloc : alloc ≠ 0
  next : ∀ i n, chain[i]? = some n →
    next n = ⟨(chain[i + 1]?).getD 0, if i + 1 < chain.length then 1 else 0⟩

namespace Chain

variable {next : ℕ → AtomicPointer} {alloc : ℕ} {chain : List ℕ} {i j n p : ℕ}

theorem lt_length (h : chain[i]? = some n) : i < chain.length :=
  (List.getElem?_eq_some_iff.mp h).choose

theorem getElem?_mono {chain' : List ℕ} (hp : chain <+: chain') (h : chain[i]? = some n) :
    chain'[i]? = some n := by
  obtain ⟨r, rfl⟩ := hp
  rw [List.getElem?_append_left (lt_length h)]
  exact h

theorem pos_unique (hC : Chain next alloc chain) (hi : chain[i]? = some n)
    (hj : chain[j]? = some n) : i = j :=
  (List.getElem?_inj (lt_length hi) hC.nodup).mp (hi.trans hj.symm)

theorem length_le (hC : Chain next alloc chain) : chain.length ≤ alloc :=
  length_le_of_nodup hC.nodup fun n hn => (hC.bound n hn).2

theorem ne_zero (hC : Chain next alloc chain) (hi : chain[i]? = some n) : n ≠ 0 :=
  (hC.bound n (List.mem_of_getElem? hi)).1

theorem lt_alloc (hC : Chain next alloc chain) (hi : chain[i]? = some n) : n < alloc :=
  (hC.bound n (List.mem_of_getElem? hi)).2

/-- A `next` word is `NULL` exactly at the end of the chain. -/
theorem next_eq_zero (hC : Chain next alloc chain) (hi : chain[i]? = some n) :
    (next n).value = 0 ↔ i + 1 = chain.length := by
  have hlt := lt_length hi
  rw [hC.next i n hi]
  rcases Nat.lt_or_ge (i + 1) chain.length with hl | hl
  · have hget : chain[i + 1]? = some chain[i + 1] := List.getElem?_eq_getElem hl
    have hne := hC.ne_zero hget
    rw [hget, Option.getD_some]
    exact ⟨fun h => absurd h hne, fun h => by omega⟩
  · rw [List.getElem?_eq_none hl, Option.getD_none]
    exact ⟨fun _ => by omega, fun _ => rfl⟩

theorem next_some (hC : Chain next alloc chain) (hi : chain[i]? = some n)
    (hne : (next n).value ≠ 0) : chain[i + 1]? = some (next n).value := by
  have hlt := lt_length hi
  have hl : i + 1 < chain.length := by
    have := mt (hC.next_eq_zero hi).mpr hne
    omega
  rw [hC.next i n hi, List.getElem?_eq_getElem hl]
  rfl

theorem next_none (hC : Chain next alloc chain) (hi : chain[i]? = some n)
    (h0 : (next n).value = 0) : next n = ⟨0, 0⟩ := by
  have hl := (hC.next_eq_zero hi).mp h0
  rw [hC.next i n hi, List.getElem?_eq_none (by omega), if_neg (by omega)]
  rfl

/-- `follow` walks along the chain. -/
theorem follow_eq (hC : Chain next alloc chain) : ∀ (fuel i : ℕ), i ≤ chain.length →
    chain.length - i < fuel → follow next fuel ((chain[i]?).getD 0) = chain.drop i := by
  intro fuel
  induction fuel with
  | zero =>
    intro i _ h
    omega
  | succ fuel ih =>
    intro i hi hf
    rcases Nat.lt_or_ge i chain.length with hl | hl
    · have hget : chain[i]? = some chain[i] := List.getElem?_eq_getElem hl
      have hnext : (next chain[i]).value = (chain[i + 1]?).getD 0 := by
        rw [hC.next i _ hget]
      rw [hget, Option.getD_some, follow, if_neg (hC.ne_zero hget), hnext,
        ih (i + 1) hl (by omega), List.drop_eq_getElem_cons hl]
    · rw [List.getElem?_eq_none hl, List.drop_eq_nil_of_le hl, Option.getD_none, follow,
        if_pos rfl]

theorem singleton (hp : p ≠ 0) (ha : p < alloc) (hn : next p = ⟨0, 0⟩) :
    Chain next alloc [p] := by
  refine ⟨by simp, by simp [hp, ha], by omega, fun i n hi => ?_⟩
  rcases i with _ | i
  · obtain rfl : p = n := by simpa using hi
    simp [hn]
  · simp at hi

/-- The chain does not depend on nodes that are not in it. -/
theorem congr (hC : Chain next alloc chain) {next' : ℕ → AtomicPointer} {alloc' : ℕ}
    (ha : alloc ≤ alloc') (hn : ∀ n ∈ chain, next' n = next n) : Chain next' alloc' chain := by
  refine ⟨hC.nodup, fun n hmem => ?_, ?_, fun i n hi => ?_⟩
  · obtain ⟨h0, hlt⟩ := hC.bound n hmem
    exact ⟨h0, hlt.trans_le ha⟩
  · have := hC.alloc
    omega
  · rw [hn n (List.mem_of_getElem? hi)]
    exact hC.next i n hi

/-- **Appending**: the last node's `next` becomes a node that was not in the chain. -/
theorem append (hC : Chain next alloc chain) (hp : chain[i]? = some p) (hlast : next p = ⟨0, 0⟩)
    (hmem : n ∉ chain) (h0 : n ≠ 0) (ha : n < alloc) (hn : next n = ⟨0, 0⟩) :
    i + 1 = chain.length ∧ Chain (Function.update next p ⟨n, 1⟩) alloc (chain ++ [n]) := by
  have hend : i + 1 = chain.length := (hC.next_eq_zero hp).mp (by rw [hlast])
  have hpn : p ≠ n := fun h => hmem (h ▸ List.mem_of_getElem? hp)
  refine ⟨hend, ?_, fun m hm => ?_, hC.alloc, fun j m hj => ?_⟩
  · refine List.nodup_append.mpr ⟨hC.nodup, by simp, fun a hac b hb => ?_⟩
    obtain rfl := List.mem_singleton.mp hb
    exact fun h => hmem (h ▸ hac)
  · rcases List.mem_append.mp hm with hm | hm
    · exact hC.bound m hm
    · obtain rfl := List.mem_singleton.mp hm
      exact ⟨h0, ha⟩
  · have hjlt : j < chain.length + 1 := by simpa using lt_length hj
    rw [List.length_append, List.length_singleton]
    rcases Nat.lt_trichotomy (j + 1) chain.length with hl | hl | hl
    · -- before the old last node nothing changes
      rw [List.getElem?_append_left (by omega)] at hj
      have hmp : m ≠ p := fun h => by
        have := hC.pos_unique (h ▸ hj) hp
        omega
      rw [Function.update_of_ne hmp, hC.next j m hj, List.getElem?_append_left hl, if_pos hl,
        if_pos (by omega)]
    · -- the old last node
      rw [List.getElem?_append_left (by omega)] at hj
      obtain rfl : j = i := by omega
      obtain rfl : p = m := by simpa [hp] using hj
      rw [hl, List.getElem?_concat_length, Option.getD_some, if_pos (by omega),
        Function.update_self]
    · -- the new last node
      obtain rfl : j = chain.length := by omega
      rw [List.getElem?_concat_length, Option.some.injEq] at hj
      subst hj
      rw [Function.update_of_ne (Ne.symm hpn), hn, List.getElem?_eq_none (by simp),
        if_neg (by omega)]
      rfl

end Chain

/-- From `p` on, the nodes `l` are linked by `next`. -/
inductive Linked (next : ℕ → ℕ) : ℕ → List ℕ → Prop
  | nil : Linked next 0 []
  | cons {p : ℕ} {l : List ℕ} : p ≠ 0 → Linked next (next p) l → Linked next p (p :: l)

namespace Linked

variable {next next' : ℕ → ℕ} {p : ℕ} {l : List ℕ}

theorem cases_of_ne_zero (hl : Linked next p l) (hp : p ≠ 0) :
    ∃ l', l = p :: l' ∧ Linked next (next p) l' := by
  cases hl with
  | nil => exact absurd rfl hp
  | cons _ h => exact ⟨_, rfl, h⟩

theorem eq_nil (hl : Linked next 0 l) : l = [] := by
  cases hl with
  | nil => rfl
  | cons h _ => exact absurd rfl h

/-- Where the chain starts. -/
theorem eq_head {s : ℕ} (hl : Linked next p (s :: l)) : p = s := by
  cases hl with
  | cons _ _ => rfl

theorem tail {s : ℕ} (hl : Linked next p (s :: l)) : Linked next (next s) l := by
  cases hl with
  | cons _ h => exact h

theorem ne_zero {s : ℕ} (hl : Linked next p (s :: l)) : s ≠ 0 := by
  cases hl with
  | cons h _ => exact h

theorem eq_zero (hl : Linked next p []) : p = 0 := by
  cases hl with
  | nil => rfl

/-- The nodes linked do not depend on other nodes. -/
theorem congr (hl : Linked next p l) (hn : ∀ m ∈ l, next' m = next m) : Linked next' p l := by
  induction hl with
  | nil => exact .nil
  | @cons p l hp _ ih =>
    refine .cons hp ?_
    rw [hn p List.mem_cons_self]
    exact ih fun m hm => hn m (List.mem_cons_of_mem _ hm)

end Linked

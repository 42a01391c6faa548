/-
Singly linked lists with a sentinel.

`SentinelList next value head tail ns q` — from the sentinel `head` on the nodes `ns` are
linked by `next`, up to `tail`, and they hold the values `q`; the value of the sentinel does
not count.

* `SentinelList.congr` — it does not depend on other nodes, nor on the links of its last one;
* `SentinelList.append` — a node that the last one is linked to becomes the last;
* `SentinelList.advance` — the node after the sentinel becomes the sentinel, and its value
  was the first one;
* `valuesTo` — the values from an address on, which are those of a list
  (`SentinelList.valuesTo_eq`).
-/
import Mathlib.Data.List.Chain
import Mathlib.Data.List.Nodup
import Mathlib.Tactic.Common

variable {β : Type}

/-- The values of the nodes after `p`, up to the node `tail`. -/
def valuesTo (next : ℕ → ℕ) (value : ℕ → β) (tail : ℕ) : ℕ → ℕ → List β
  | 0, _ => []
  | fuel + 1, p =>
    if p = tail then [] else value (next p) :: valuesTo next value tail fuel (next p)

structure SentinelList (next : ℕ → ℕ) (value : ℕ → β) (head tail : ℕ) (ns : List ℕ)
    (q : List β) : Prop where
  linked : (head :: ns).IsChain fun p n => next p = n
  last : (head :: ns).getLast? = some tail
  nodup : (head :: ns).Nodup
  values : ns.map value = q

namespace SentinelList

variable {next next' : ℕ → ℕ} {value value' : ℕ → β} {head tail n : ℕ} {ns : List ℕ}
  {q : List β} {x : β}

theorem single (next : ℕ → ℕ) (value : ℕ → β) (p : ℕ) : SentinelList next value p p [] [] :=
  ⟨.singleton _, rfl, List.nodup_singleton _, rfl⟩

theorem tail_mem (h : SentinelList next value head tail ns q) : tail ∈ head :: ns :=
  List.mem_of_getLast? h.last

theorem head_eq_tail (h : SentinelList next value head tail ns q) : head = tail ↔ q = [] := by
  have hv := h.values
  cases ns with
  | nil => exact ⟨fun _ => hv.symm, fun _ => Option.some.inj h.last⟩
  | cons n ns =>
    have hne : head ≠ tail := by
      intro he
      have hm : tail ∈ n :: ns := List.mem_of_getLast? (by rw [← h.last, List.getLast?_cons_cons])
      exact (List.nodup_cons.mp h.nodup).1 (he ▸ hm)
    refine ⟨fun he => absurd he hne, fun he => ?_⟩
    rw [he] at hv
    cases hv

theorem valuesTo_eq (h : SentinelList next value head tail ns q) {fuel : ℕ}
    (hf : ns.length ≤ fuel) : valuesTo next value tail fuel head = q := by
  induction ns generalizing head q fuel with
  | nil =>
    obtain rfl := h.values
    obtain rfl : head = tail := Option.some.inj h.last
    cases fuel <;> simp [valuesTo]
  | cons n ns ih =>
    have hne := mt h.head_eq_tail.mp (by simp [← h.values])
    obtain ⟨hl, hlast, hd, rfl⟩ := h
    obtain ⟨rfl, hl⟩ := List.isChain_cons_cons.mp hl
    rw [List.getLast?_cons_cons] at hlast
    obtain ⟨fuel, rfl⟩ := Nat.exists_eq_succ_of_ne_zero (Nat.ne_zero_of_lt hf)
    rw [valuesTo, if_neg hne, List.map_cons,
      ih ⟨hl, hlast, (List.nodup_cons.mp hd).2, rfl⟩ (Nat.le_of_succ_le_succ hf)]

theorem congr (h : SentinelList next value head tail ns q)
    (hn : ∀ p ∈ head :: ns, p ≠ tail → next' p = next p) (hv : ∀ p ∈ ns, value' p = value p) :
    SentinelList next' value' head tail ns q := by
  refine ⟨?_, h.last, h.nodup, (List.map_congr_left hv).trans h.values⟩
  obtain ⟨hl, hlast, hd, -⟩ := h
  clear hv
  induction ns generalizing head with
  | nil => exact .singleton _
  | cons n ns ih =>
    obtain ⟨hhead, hl⟩ := List.isChain_cons_cons.mp hl
    obtain ⟨hnew, hd⟩ := List.nodup_cons.mp hd
    rw [List.getLast?_cons_cons] at hlast
    -- only the last node is the tail
    have hne : head ≠ tail := fun he => hnew (he ▸ List.mem_of_getLast? hlast)
    refine List.isChain_cons_cons.mpr ⟨(hn head List.mem_cons_self hne).trans hhead, ?_⟩
    exact ih (fun p hp => hn p (List.mem_cons_of_mem _ hp)) hl hlast hd

theorem append (h : SentinelList next value head tail ns q) (hn : next tail = n)
    (hnew : n ∉ head :: ns) (hx : value n = x) :
    SentinelList next value head n (ns ++ [n]) (q ++ [x]) := by
  refine ⟨?_, ?_, ?_, ?_⟩
  · rw [← List.cons_append, List.isChain_append]
    refine ⟨h.linked, .singleton _, fun p hp m hm => ?_⟩
    rw [h.last] at hp
    cases hp
    cases hm
    exact hn
  · rw [← List.cons_append, List.getLast?_concat]
  · rw [← List.cons_append]
    exact List.nodup_append.mpr ⟨h.nodup, List.nodup_singleton _, fun a ha b hb hab =>
      hnew (List.mem_singleton.mp hb ▸ hab ▸ ha)⟩
  · rw [List.map_append, h.values, List.map_singleton, hx]

theorem advance (h : SentinelList next value head tail ns (x :: q)) :
    value (next head) = x ∧ ∃ ns', ns = next head :: ns' ∧
      SentinelList next value (next head) tail ns' q := by
  obtain ⟨hl, hlast, hd, hv⟩ := h
  cases ns with
  | nil => cases hv
  | cons n ns =>
    obtain ⟨rfl, hl⟩ := List.isChain_cons_cons.mp hl
    obtain ⟨hx, hq⟩ := List.cons.inj hv
    refine ⟨hx, ns, rfl, hl, ?_, (List.nodup_cons.mp hd).2, hq⟩
    rwa [List.getLast?_cons_cons] at hlast

end SentinelList

/-
The shares of the producer/consumer benchmark (`benchmark/prodcon/prodcon.cc`).

* `totalGets_eq` — how many items the consumers wait for, all together;
* `allItems_eq` — the items that are put, in order;
* `prodCon_iff` — when the consumers take what the producers put, and the items are distinct and
  not zero.
-/
import Scal.AtomicValue
import Mathlib.Algebra.Order.Group.Nat
import Mathlib.Algebra.Ring.Nat
import Mathlib.Data.List.Nodup
import Mathlib.Tactic.Common

namespace ProdCon

/-! ### The program -/

structure Flags where
  producers : ℕ
  consumers : ℕ
  operations : ℕ

/-- The items that `producer` puts. -/
def producer (flags : Flags) (threadId : ℕ) : List ℕ :=
  (List.range flags.operations).map fun i => (threadId * flags.operations + (i + 1)) % wordSize

/-- How many items `consumer` collects. -/
def consumerOperations (flags : Flags) (threadId : ℕ) : ℕ :=
  let operations := flags.producers * flags.operations % wordSize / flags.consumers
  let rest := flags.producers * flags.operations % wordSize % flags.consumers
  if threadId ≤ rest then (operations + 1) % wordSize else operations

/-- The loop of `consumer`, with the results of `get` from now on; `none` while it still
waits for an item. -/
def collect (operations : ℕ) : List (Option ℕ) → List ℕ → Option (List ℕ)
  | [], got => if got.length < operations then none else some got
  | none :: gets, got => if got.length < operations then collect operations gets got else some got
  | some item :: gets, got =>
    if got.length < operations then collect operations gets (got ++ [item]) else some got

def consumer (flags : Flags) (threadId : ℕ) (gets : List (Option ℕ)) : Option (List ℕ) :=
  collect (consumerOperations flags threadId) gets []

/-- What a thread does. -/
inductive Work where
  | puts (items : List ℕ)
  | gets (operations : ℕ)
  deriving DecidableEq

def benchFunc (flags : Flags) (threadId : ℕ) : Work :=
  if threadId ≤ flags.producers then .puts (producer flags threadId)
  else .gets (consumerOperations flags threadId)

def Work.items : Work → List ℕ
  | .puts items => items
  | .gets _ => []

def Work.operations : Work → ℕ
  | .puts _ => 0
  | .gets operations => operations

/-- All threads; the thread that starts them has the id zero. -/
def threads (flags : Flags) : List Work :=
  (List.range (flags.producers + flags.consumers)).map fun t => benchFunc flags (t + 1)

/-- The items that are put. -/
def allItems (flags : Flags) : List ℕ := (threads flags).flatMap Work.items

/-- The number of items that the consumers wait for. -/
def totalGets (flags : Flags) : ℕ := ((threads flags).map Work.operations).sum

section

variable {flags : Flags} {gets : List (Option ℕ)} {got l : List ℕ}

/-- A consumer returns with as many items as it waits for. -/
theorem collect_length {operations : ℕ} (hgot : got.length ≤ operations)
    (h : collect operations gets got = some l) : l.length = operations := by
  induction gets generalizing got with
  | nil =>
    by_cases hlt : got.length < operations
    · rw [collect, if_pos hlt] at h
      cases h
    · rw [collect, if_neg hlt] at h
      cases h
      omega
  | cons ret gets ih =>
    by_cases hlt : got.length < operations
    · cases ret with
      | none =>
        rw [collect, if_pos hlt] at h
        exact ih hgot h
      | some item =>
        rw [collect, if_pos hlt] at h
        refine ih ?_ h
        rw [List.length_append, List.length_singleton]
        exact hlt
    · -- the loop is left
      have hl : some got = some l := by
        cases ret with
        | none => rwa [collect, if_neg hlt] at h
        | some item => rwa [collect, if_neg hlt] at h
      cases hl
      omega

/-! ### The consumers -/

/-- The threads are first the producers, then the consumers. -/
theorem threads_eq (flags : Flags) :
    threads flags =
      ((List.range flags.producers).map fun t => .puts (producer flags (t + 1))) ++
        (List.range flags.consumers).map fun t =>
          .gets (consumerOperations flags (flags.producers + t + 1)) := by
  rw [threads, List.range_add, List.map_append, List.map_map]
  congr 1
  · refine List.map_congr_left fun t ht => ?_
    exact if_pos (List.mem_range.mp ht)
  · refine List.map_congr_left fun t _ => ?_
    show benchFunc flags (flags.producers + t + 1) = _
    exact if_neg (by omega)

/-- The ids up to `rest`, of `n` ids from `p + 1` on. -/
theorem sum_share (p rest k : ℕ) : ∀ n : ℕ,
    ((List.range n).map fun t => if p + t + 1 ≤ rest then k + 1 else k).sum =
      n * k + min n (rest - p) := by
  intro n
  induction n with
  | zero => simp
  | succ n ih =>
    rw [List.range_succ, List.map_append, List.sum_append, ih, List.map_singleton,
      List.sum_singleton, Nat.add_mul, Nat.one_mul]
    split_ifs
    · omega
    · omega

/-- A consumer takes one item of the rest only if its id is not above it, but the smallest id of
a consumer is that of the last producer plus one. -/
theorem totalGets_eq (hc : 1 ≤ flags.consumers)
    (hfit : flags.producers * flags.operations < wordSize) :
    totalGets flags =
      flags.consumers * (flags.producers * flags.operations / flags.consumers) +
        (flags.producers * flags.operations % flags.consumers - flags.producers) := by
  have hrest := Nat.mod_lt (flags.producers * flags.operations) hc
  have hdiv := Nat.div_add_mod (flags.producers * flags.operations) flags.consumers
  have hle := Nat.mul_le_mul_right (flags.producers * flags.operations / flags.consumers) hc
  rw [totalGets, threads_eq, List.map_append, List.sum_append, List.map_map, List.map_map]
  have hputs : ((List.range flags.producers).map
      (Work.operations ∘ fun t => .puts (producer flags (t + 1)))).sum = 0 := by
    show ((List.range flags.producers).map fun _ => 0).sum = 0
    simp
  have hshare : (Work.operations ∘ fun t =>
      .gets (consumerOperations flags (flags.producers + t + 1))) = fun t =>
      if flags.producers + t + 1 ≤ flags.producers * flags.operations % flags.consumers then
        flags.producers * flags.operations / flags.consumers + 1
      else flags.producers * flags.operations / flags.consumers := by
    funext t
    show consumerOperations flags _ = _
    rw [consumerOperations, Nat.mod_eq_of_lt hfit]
    by_cases hid : flags.producers + t + 1 ≤ flags.producers * flags.operations % flags.consumers
    · rw [if_pos hid, if_pos hid]
      exact Nat.mod_eq_of_lt (by omega)
    · rw [if_neg hid, if_neg hid]
  rw [hputs, hshare, sum_share]
  omega

/-- These are all items only if there is no rest. -/
theorem totalGets_eq_iff (hp : 1 ≤ flags.producers) (hc : 1 ≤ flags.consumers)
    (hfit : flags.producers * flags.operations < wordSize) :
    totalGets flags = flags.producers * flags.operations ↔
      flags.producers * flags.operations % flags.consumers = 0 := by
  have hdiv := Nat.div_add_mod (flags.producers * flags.operations) flags.consumers
  rw [totalGets_eq hc hfit]
  omega

/-! ### The producers -/

theorem flatMap_range (f : ℕ → ℕ) (o : ℕ) : ∀ p : ℕ,
    ((List.range p).flatMap fun t => (List.range o).map fun i => f (t * o + i)) =
      (List.range (p * o)).map f := by
  intro p
  induction p with
  | zero => simp
  | succ p ih =>
    rw [List.range_succ, List.flatMap_append, ih, List.flatMap_singleton, Nat.add_mul, Nat.one_mul,
      List.range_add, List.map_append, List.map_map]
    rfl

/-- The items are consecutive numbers, but that they may overflow. -/
theorem allItems_eq (flags : Flags) :
    allItems flags = (List.range (flags.producers * flags.operations)).map
      fun i => (flags.operations + i + 1) % wordSize := by
  have hgets : ((List.range flags.consumers).map fun t =>
      Work.gets (consumerOperations flags (flags.producers + t + 1))).flatMap Work.items = [] := by
    rw [List.flatMap_eq_nil_iff]
    intro w hw
    obtain ⟨t, -, rfl⟩ := List.mem_map.mp hw
    rfl
  rw [allItems, threads_eq, List.flatMap_append, hgets, List.append_nil, List.flatMap_map,
    ← flatMap_range]
  congr 1
  funext t
  show producer flags (t + 1) = _
  rw [producer]
  refine List.map_congr_left fun i _ => ?_
  rw [Nat.add_mul, Nat.one_mul]
  congr 1
  omega

theorem allItems_nodup (hfit : flags.producers * flags.operations < wordSize) :
    (allItems flags).Nodup := by
  rw [allItems_eq]
  refine List.Nodup.map_on (fun i hi j hj h => ?_) List.nodup_range
  rw [List.mem_range] at hi hj
  rw [wordSize] at h hfit
  omega

/-- Zero is put if the last item overflows. -/
theorem zero_notMem_allItems_iff (hp : 1 ≤ flags.producers)
    (hfit : flags.producers * flags.operations < wordSize) :
    0 ∉ allItems flags ↔ (flags.producers + 1) * flags.operations < wordSize := by
  have hle := Nat.mul_le_mul_right flags.operations hp
  rw [Nat.one_mul] at hle
  rw [allItems_eq, List.mem_map, Nat.add_mul, Nat.one_mul]
  constructor
  · intro h
    by_contra hover
    refine h ⟨wordSize - flags.operations - 1, ?_, ?_⟩
    · rw [List.mem_range]
      omega
    · rw [show flags.operations + (wordSize - flags.operations - 1) + 1 = wordSize by omega,
        Nat.mod_self]
  · rintro h ⟨i, hi, h0⟩
    rw [List.mem_range] at hi
    rw [Nat.mod_eq_of_lt (by omega)] at h0
    omega

end

/-- **The consumers take what the producers put**, and the items are distinct and not zero, just
if there is no rest and no overflow. -/
theorem prodCon_iff (flags : Flags) (hp : 1 ≤ flags.producers) (hc : 1 ≤ flags.consumers)
    (hfit : flags.producers * flags.operations < wordSize) :
    (totalGets flags = flags.producers * flags.operations ∧ (allItems flags).Nodup ∧
      0 ∉ allItems flags) ↔
      flags.producers * flags.operations % flags.consumers = 0 ∧
        (flags.producers + 1) * flags.operations < wordSize := by
  rw [totalGets_eq_iff hp hc hfit, zero_notMem_allItems_iff hp hfit]
  exact ⟨fun h => ⟨h.1, h.2.2⟩, fun h => ⟨h.1, allItems_nodup hfit, h.2⟩⟩

theorem prodCon_iff_two :
    (totalGets ⟨1, 2, 4⟩ = 1 * 4 ∧ (allItems ⟨1, 2, 4⟩).Nodup ∧ 0 ∉ allItems ⟨1, 2, 4⟩) ↔
      1 * 4 % 2 = 0 ∧ (1 + 1) * 4 < wordSize :=
  prodCon_iff ⟨1, 2, 4⟩ (by decide) (by decide) (by decide)

/-- Two consumers of the three items of a producer take one each. -/
theorem totalGets_three : totalGets ⟨1, 2, 3⟩ = 2 ∧ totalGets ⟨1, 2, 3⟩ ≠ 1 * 3 := by decide

end ProdCon

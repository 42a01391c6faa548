/-
The Michael–Scott queue is lock-free.

A loop is run again only because another call has moved `*head_` or `*tail_`, or has linked a
node that `*tail_` lags behind.  An enqueue links one node and a dequeue moves `*head_` once; that
`*tail_` still has to move is a debt of the queue, which any call may pay.

* `Local.cost` — the accesses that a call makes if nobody disturbs it;
* `swingTail_pays`, `link_pays`, `swingHead_pays` — the accesses that disturb others;
* `lockFree_queue` — `k` calls make `k * (11 + 22 * k)` accesses at most, in whatever order they run.
-/
import Scal.MSQueueRefinement
import Scal.Amortized

open Interleave

namespace MSQueue

variable {α : Type}

/-! ### What calls cost -/

/-- `*tail_` is not at the last node. -/
def lagging (σ : Shared α) : Bool := decide ((σ.node σ.tail.value).next.value ≠ 0)

/-- The accesses that a loop takes to move `*tail_` first. -/
def late (σ : Shared α) (k : ℕ) : ℕ := if lagging σ then k else 0

/-- A node is linked and `*tail_` moved, or the loop runs again. -/
def linkCost (σ : Shared α) (tailOld next : AtomicPointer) : ℕ :=
  if (σ.node tailOld.value).next = next then 2 else 6 + late σ 4

/-- The accesses before a call, if no other call disturbs it. -/
def Local.cost (σ : Shared α) : Local α → ℕ
  | .enqNew _ => 6 + late σ 4
  | .enqTail _ _ => 5 + late σ 4
  | .enqNext _ _ tailOld => if σ.tail = tailOld then 4 + late σ 4 else 7 + late σ 4
  | .enqCheck _ _ tailOld next =>
    if σ.tail = tailOld then if next.value = 0 then linkCost σ tailOld next + 1 else 7
    else 6 + late σ 4
  | .enqLink _ _ tailOld next => linkCost σ tailOld next
  | .enqHelp _ _ tailOld _ => if σ.tail = tailOld then 6 else 6 + late σ 4
  | .enqSwing _ _ _ => 1
  | .deqHead _ => 6 + late σ 5
  | .deqTail _ headOld => if σ.head = headOld then 5 + late σ 5 else 9 + late σ 5
  | .deqNext _ headOld tailOld =>
    if σ.head = headOld then if σ.tail = tailOld then 4 + late σ 5 else 9 + late σ 5
    else 8 + late σ 5
  | .deqCheck _ headOld tailOld _ =>
    if σ.head = headOld then if σ.tail = tailOld then 3 + late σ 5 else 8 + late σ 5
    else 7 + late σ 5
  | .deqHelp _ tailOld _ => if σ.tail = tailOld then 7 else 7 + late σ 5
  | .deqItem _ headOld _ _ => if σ.head = headOld then 2 else 8 + late σ 5
  | .deqSwing _ headOld _ _ _ => if σ.head = headOld then 1 else 7 + late σ 5
  | .tryEnqNext _ _ => 5
  | .tryEnqCheck _ _ _ => 4
  | .tryEnqNew _ _ _ => 3
  | .tryEnqLink _ _ _ _ => 2
  | .tryEnqSwing _ _ _ => 1
  | .tryEnqHelp _ _ => 1
  | .tryDeqTail _ => 5
  | .tryDeqNext _ _ => 4
  | .tryDeqCheck _ _ _ => 3
  | .tryDeqHelp _ _ => 1
  | .tryDeqItem _ _ _ => 2
  | .tryDeqSwing _ _ _ _ => 1
  | .readHead => 1
  | .readTail => 1
  | .sizeTail => 2
  | .sizeHead _ => 1

/-- A call that links a node disturbs the others twice: `*tail_` has to move as well. -/
def Local.credit : Local α → ℕ
  | .enqNew _ | .enqTail _ _ | .enqNext _ _ _ | .enqCheck _ _ _ _ | .enqLink _ _ _ _ => 2
  | .enqHelp _ _ _ _ | .tryEnqNext _ _ | .tryEnqCheck _ _ _ | .tryEnqNew _ _ _ => 2
  | .tryEnqLink _ _ _ _ => 2
  | .deqHead _ | .deqTail _ _ | .deqNext _ _ _ | .deqCheck _ _ _ _ | .deqHelp _ _ _ => 1
  | .deqItem _ _ _ _ | .deqSwing _ _ _ _ _ | .tryDeqTail _ | .tryDeqNext _ _ => 1
  | .tryDeqCheck _ _ _ | .tryDeqItem _ _ _ | .tryDeqSwing _ _ _ _ => 1
  | _ => 0

def credits (α : Type) [DecidableEq α] [Inhabited α] : Credits (machine α) where
  cost := Local.cost
  credit := Local.credit
  debt σ := late σ 1

section Cost

variable {σ σ' : Shared α} {l : Local α}

theorem late_le (σ : Shared α) (k : ℕ) : late σ k ≤ k := by
  rw [late]
  split_ifs <;> omega

/-- To be disturbed costs a call eleven accesses at most. -/
theorem cost_le_add (σ σ' : Shared α) (l : Local α) : l.cost σ' ≤ l.cost σ + 11 := by
  have h4 := late_le σ' 4
  have h5 := late_le σ' 5
  cases l <;> simp only [Local.cost, linkCost] <;> (try split_ifs) <;> omega

end Cost

/-! ### Accesses -/

section Access

variable {g : Ghost}

theorem lagging_iff {σ : Shared α} (hI : HeapInv σ g) :
    lagging σ = true ↔ g.chain.length = σ.tail.aba + 2 := by
  have hnext := hI.chain.next_eq_zero hI.tail
  have hlt := hI.tail_lt
  have hlag := hI.lag
  rw [lagging, decide_eq_true_iff, Ne, hnext]
  omega

variable [DecidableEq α] [Inhabited α] {c : Config (machine α)} {t u : ℕ}
  {l : Local α} {o : Local α ⊕ Ret α} {f : Frame (machine α)}

/-- The access brings its call closer to its end, and is paid for. -/
def Pays (c : Config (machine α)) (t : ℕ) (l : Local α) (σ : Shared α) (o : Local α ⊕ Ret α) :
    Prop :=
  (credits α).costLeft σ o + 1 ≤ l.cost c.shared ∧
    ((credits α).Quiet c t σ ∧ late σ 1 + (credits α).creditLeft o ≤ late c.shared 1 + l.credit ∨
      late σ 1 + (credits α).creditLeft o + 1 ≤ late c.shared 1 + l.credit)

/-- The access only reads, and the call goes on. -/
theorem Pays.read {l' : Local α} (hcost : l'.cost c.shared + 1 ≤ l.cost c.shared)
    (hcredit : l'.credit ≤ l.credit) : Pays c t l c.shared (.inl l') :=
  ⟨hcost, .inl ⟨fun _ _ _ _ => le_rfl, Nat.add_le_add_left hcredit _⟩⟩

/-- The access only reads, and the call returns. -/
theorem Pays.answer {r : Ret α} (hcost : 1 ≤ l.cost c.shared) : Pays c t l c.shared (.inr r) :=
  ⟨(Nat.zero_add 1).le.trans hcost,
    .inl ⟨fun _ _ _ _ => le_rfl, Nat.add_le_add_left (Nat.zero_le _) _⟩⟩

/-- `*tail_` moves to the last node: that pays the debt. -/
theorem swingTail_pays (hI : HeapInv c.shared g) {n : ℕ} {tailOld : AtomicPointer}
    (htail : c.shared.tail = tailOld) (hn : g.chain[tailOld.aba + 1]? = some n)
    (hcost : ∀ σ : Shared α, late σ 4 = 0 → late σ 5 = 0 →
      (credits α).costLeft σ o + 1 ≤ l.cost c.shared)
    (hcredit : (credits α).creditLeft o ≤ l.credit) :
    Pays c t l { c.shared with tail := ⟨n, tailOld.aba + 1⟩ } o := by
  obtain ⟨hI', -, -⟩ := hI.swingTail htail hn
  have hlag : lagging c.shared = true := by
    have hlt := Chain.lt_length hn
    have hle := hI.lag
    rw [lagging_iff hI, htail] at *
    omega
  have hdone : lagging { c.shared with tail := ⟨n, tailOld.aba + 1⟩ } = false := by
    refine Bool.eq_false_of_not_eq_true fun h => ?_
    have hlen : g.chain.length = tailOld.aba + 1 + 2 := (lagging_iff hI').mp h
    have hle := hI.lag
    rw [htail] at hle
    omega
  have hlate : ∀ k, late { c.shared with tail := ⟨n, tailOld.aba + 1⟩ } k = 0 := fun k => by
    rw [late, hdone]
    rfl
  refine ⟨hcost _ (hlate 4) (hlate 5), .inr ?_⟩
  rw [hlate, late, if_pos hlag]
  omega

/-- A node is linked: the queue owes that `*tail_` moves. -/
theorem link_pays {p n : ℕ} {w : AtomicPointer} (ho : (credits α).creditLeft o = 0)
    (hcost : ∀ σ, (credits α).costLeft σ o + 1 ≤ l.cost c.shared) (hcredit : l.credit = 2) :
    Pays c t l (c.shared.setNext p ⟨n, w.aba + 1⟩) o := by
  have hle := late_le (c.shared.setNext p ⟨n, w.aba + 1⟩) 1
  refine ⟨hcost _, .inr ?_⟩
  omega

/-- `*head_` moves. -/
theorem swingHead_pays {w : AtomicPointer} {r : Ret α} (hcost : 1 ≤ l.cost c.shared)
    (hcredit : l.credit = 1) : Pays c t l { c.shared with head := w } (.inr r) := by
  have hlate : late { c.shared with head := w } 1 = late c.shared 1 := rfl
  refine ⟨hcost, .inr ?_⟩
  rw [hlate, hcredit]
  rfl

/-- A new node disturbs nobody. -/
theorem nodeNew_pays (hI : HeapInv c.shared g)
    (hk : ∀ u f, c.frames u = some f → Knows u f ⟨c.shared, c.trace, g⟩) {x : α}
    (hcost : ∀ σ : Shared α, (∀ k, late σ k = late c.shared k) →
      (credits α).costLeft σ o + 1 ≤ l.cost c.shared)
    (hcredit : (credits α).creditLeft o ≤ l.credit) : Pays c t l (c.shared.nodeNew x) o := by
  have hold : ∀ i n, g.chain[i]? = some n →
      ((c.shared.nodeNew x).node n).next = (c.shared.node n).next := fun i n hi => by
    have hne : n ≠ c.shared.alloc := (hI.chain.lt_alloc hi).ne
    simp only [Shared.nodeNew, Function.update_of_ne hne]
  have hlag : lagging (c.shared.nodeNew x) = lagging c.shared := by
    refine decide_eq_decide.mpr ?_
    show ((c.shared.nodeNew x).node c.shared.tail.value).next.value ≠ 0 ↔ _
    rw [hold _ _ hI.tail]
  have hlate : ∀ k, late (c.shared.nodeNew x) k = late c.shared k := fun k => by
    rw [late, late, hlag]
  refine ⟨hcost _ hlate, .inl ⟨fun u f _ hf => ?_, ?_⟩⟩
  · have hknows := (hk u f hf).facts
    show f.loc.cost (c.shared.nodeNew x) ≤ f.loc.cost c.shared
    cases hl : f.loc with
    | enqCheck y n tailOld next =>
      rw [hl] at hknows
      have h := hold _ _ hknows.2.1.1
      simp only [Local.cost, linkCost, hlate, h]
      exact le_rfl
    | enqLink y n tailOld next =>
      rw [hl] at hknows
      have h := hold _ _ hknows.2.1
      simp only [Local.cost, linkCost, hlate, h]
      exact le_rfl
    | _ =>
      simp only [Local.cost, hlate]
      exact le_rfl
  · rw [hlate]
    exact Nat.add_le_add_left hcredit _

/-- What `Pays` says of the next access. -/
def StepPays (c : Config (machine α)) (t : ℕ) (l : Local α) : Prop :=
  Pays c t l (step c.shared l).1 (step c.shared l).2

section Enqueue

variable {x : α} {n : ℕ} {tailOld next : AtomicPointer}

theorem enqTail_pays : StepPays c t (.enqTail x n) := by
  rw [StepPays, step]
  refine .read ?_ le_rfl
  show (if c.shared.tail = c.shared.tail then _ else _) + 1 ≤ 5 + late c.shared 4
  rw [if_pos rfl]
  omega

theorem enqNext_pays : StepPays c t (.enqNext x n tailOld) := by
  rw [StepPays, step]
  refine .read ?_ le_rfl
  simp only [Local.cost, linkCost, if_true]
  by_cases htail : c.shared.tail = tailOld
  · rw [if_pos htail, if_pos htail]
    by_cases hnext : (c.shared.node tailOld.value).next.value = 0
    · rw [if_pos hnext]
      omega
    · have hlate : late c.shared 4 = 4 := if_pos (decide_eq_true (htail ▸ hnext))
      rw [if_neg hnext, hlate]
  · rw [if_neg htail, if_neg htail]
    omega

theorem enqCheck_pays : StepPays c t (.enqCheck x n tailOld next) := by
  rw [StepPays, step]
  by_cases htail : c.shared.tail = tailOld
  · rw [if_pos htail.symm]
    by_cases hnext : next.value = 0
    · rw [if_pos hnext]
      refine .read ?_ le_rfl
      simp only [Local.cost, if_pos htail, if_pos hnext]
      exact le_rfl
    · rw [if_neg hnext]
      refine .read ?_ le_rfl
      simp only [Local.cost, if_pos htail, if_neg hnext]
      exact le_rfl
  · rw [if_neg (Ne.symm htail)]
    refine .read ?_ le_rfl
    simp only [Local.cost, if_neg htail]
    omega

theorem enqLink_pays : StepPays c t (.enqLink x n tailOld next) := by
  rw [StepPays, step]
  by_cases hnext : (c.shared.node tailOld.value).next = next
  · rw [if_pos hnext]
    refine link_pays rfl (fun σ => ?_) rfl
    show 1 + 1 ≤ linkCost c.shared tailOld next
    rw [linkCost, if_pos hnext]
  · rw [if_neg hnext]
    refine .read ?_ le_rfl
    show 5 + late c.shared 4 + 1 ≤ linkCost c.shared tailOld next
    rw [linkCost, if_neg hnext]
    omega

theorem enqHelp_pays (hI : HeapInv c.shared g)
    (hn : g.chain[tailOld.aba + 1]? = some next.value) :
    StepPays c t (.enqHelp x n tailOld next) := by
  rw [StepPays, step]
  by_cases htail : c.shared.tail = tailOld
  · rw [if_pos htail]
    refine swingTail_pays hI htail hn (fun σ h4 _ => ?_) le_rfl
    show 5 + late σ 4 + 1 ≤ if c.shared.tail = tailOld then _ else _
    rw [if_pos htail, h4]
  · rw [if_neg htail]
    refine .read ?_ le_rfl
    simp only [Local.cost, if_neg htail]
    omega

end Enqueue

section Dequeue

variable {rt : Bool} {headOld tailOld next : AtomicPointer} {x : α}

theorem deqTail_pays : StepPays c t (.deqTail rt headOld) := by
  rw [StepPays, step]
  refine .read ?_ le_rfl
  simp only [Local.cost, if_true]
  split_ifs <;> omega

theorem deqNext_pays : StepPays c t (.deqNext rt headOld tailOld) := by
  rw [StepPays, step]
  refine .read ?_ le_rfl
  simp only [Local.cost]
  split_ifs <;> omega

/-- Where the queue is found empty but for a node that `*tail_` lags behind, help it on. -/
theorem deqCheck_pays (hI : HeapInv c.shared g)
    (hhead : g.chain[headOld.aba]? = some headOld.value)
    (htail : g.chain[tailOld.aba]? = some tailOld.value)
    (hnext : next = ⟨0, 0⟩ ∨ next.value ≠ 0 ∧ g.chain[headOld.aba + 1]? = some next.value) :
    StepPays c t (.deqCheck rt headOld tailOld next) := by
  rw [StepPays, step]
  by_cases hh : c.shared.head = headOld
  · rw [if_pos hh]
    by_cases he : headOld.value = tailOld.value
    · rw [if_pos he]
      by_cases h0 : next.value = 0
      · rw [if_pos h0]
        refine .answer ?_
        simp only [Local.cost, if_pos hh]
        split_ifs <;> omega
      · rw [if_neg h0]
        refine .read ?_ le_rfl
        simp only [Local.cost, if_pos hh]
        by_cases ht : c.shared.tail = tailOld
        · have haba : headOld.aba = tailOld.aba := hI.chain.pos_unique hhead (he ▸ htail)
          have hlag : lagging c.shared = true := by
            rcases hnext with hnext | ⟨-, hnext⟩
            · exact absurd (by rw [hnext]) h0
            · have hlt := Chain.lt_length hnext
              have hle := hI.lag
              rw [lagging_iff hI, ht]
              rw [ht] at hle
              omega
          have hlate : late c.shared 5 = 5 := if_pos hlag
          rw [if_pos ht, if_pos ht, hlate]
        · rw [if_neg ht, if_neg ht]
          omega
    · rw [if_neg he]
      refine .read ?_ le_rfl
      simp only [Local.cost, if_pos hh]
      split_ifs <;> omega
  · rw [if_neg hh]
    refine .read ?_ le_rfl
    simp only [Local.cost, if_neg hh]
    omega

theorem deqHelp_pays (hI : HeapInv c.shared g)
    (hn : g.chain[tailOld.aba + 1]? = some next.value) :
    StepPays c t (.deqHelp rt tailOld next) := by
  rw [StepPays, step]
  by_cases htail : c.shared.tail = tailOld
  · rw [if_pos htail]
    refine swingTail_pays hI htail hn (fun σ _ h5 => ?_) le_rfl
    show 6 + late σ 5 + 1 ≤ if c.shared.tail = tailOld then _ else _
    rw [if_pos htail, h5]
  · rw [if_neg htail]
    refine .read ?_ le_rfl
    simp only [Local.cost, if_neg htail]
    omega

theorem deqItem_pays : StepPays c t (.deqItem rt headOld tailOld next) := by
  rw [StepPays, step]
  refine .read ?_ le_rfl
  simp only [Local.cost]
  split_ifs <;> omega

theorem deqSwing_pays : StepPays c t (.deqSwing rt headOld tailOld next x) := by
  rw [StepPays, step]
  by_cases hh : c.shared.head = headOld
  · rw [if_pos hh]
    refine swingHead_pays ?_ rfl
    simp only [Local.cost, if_pos hh]
    exact le_rfl
  · rw [if_neg hh]
    refine .read ?_ le_rfl
    simp only [Local.cost, if_neg hh]
    omega

end Dequeue

/-- The last access of a call is a `cas` that moves `*tail_`, or finds it moved. -/
theorem lastSwing_pays (hI : HeapInv c.shared g) {n : ℕ} {tailOld : AtomicPointer} {r r' : Ret α}
    (hn : g.chain[tailOld.aba + 1]? = some n) (hl : l.cost c.shared = 1)
    (hs : step c.shared l = if c.shared.tail = tailOld then
      ({ c.shared with tail := ⟨n, tailOld.aba + 1⟩ }, .inr r) else (c.shared, .inr r')) :
    StepPays c t l := by
  rw [StepPays, hs]
  split_ifs with htail
  · exact swingTail_pays hI htail hn (fun _ _ _ => hl.symm.le) (Nat.zero_le _)
  · exact .answer hl.symm.le

theorem step_pays (hI : HeapInv c.shared g)
    (hk : ∀ u f, c.frames u = some f → Knows u f ⟨c.shared, c.trace, g⟩)
    (hf : c.frames t = some f) : StepPays c t f.loc := by
  have hfacts := (hk t f hf).facts
  cases hl : f.loc with
  | enqNew x =>
    refine nodeNew_pays hI hk (fun σ hlate => ?_) le_rfl
    show 5 + late σ 4 + 1 ≤ 6 + late c.shared 4
    rw [hlate]
    omega
  | enqTail x n => exact enqTail_pays
  | enqNext x n tailOld => exact enqNext_pays
  | enqCheck x n tailOld next => exact enqCheck_pays
  | enqLink x n tailOld next => exact enqLink_pays
  | enqHelp x n tailOld next =>
    rw [hl] at hfacts
    exact enqHelp_pays hI hfacts.2
  | enqSwing x n tailOld =>
    rw [hl] at hfacts
    exact lastSwing_pays hI hfacts rfl rfl
  | deqHead rt =>
    refine .read ?_ le_rfl
    show (if c.shared.head = c.shared.head then _ else _) + 1 ≤ 6 + late c.shared 5
    rw [if_pos rfl]
    omega
  | deqTail rt headOld => exact deqTail_pays
  | deqNext rt headOld tailOld => exact deqNext_pays
  | deqCheck rt headOld tailOld next =>
    rw [hl] at hfacts
    obtain ⟨hhead, htail, hnext, -⟩ := hfacts
    exact deqCheck_pays hI hhead.1 htail.1 hnext
  | deqHelp rt tailOld next =>
    rw [hl] at hfacts
    exact deqHelp_pays hI hfacts
  | deqItem rt headOld tailOld next => exact deqItem_pays
  | deqSwing rt headOld tailOld next x => exact deqSwing_pays
  | tryEnqNext x tailOld => exact .read le_rfl le_rfl
  | tryEnqCheck x tailOld next =>
    rw [StepPays, step]
    split_ifs
    · exact .read le_rfl le_rfl
    · exact .read (Nat.le_add_left 2 2) (Nat.zero_le _)
    · exact .answer (Nat.le_add_left 1 3)
  | tryEnqNew x tailOld next => exact nodeNew_pays hI hk (fun _ _ => le_rfl) le_rfl
  | tryEnqLink x n tailOld next =>
    rw [StepPays, step]
    split_ifs
    · exact link_pays rfl (fun _ => le_rfl) rfl
    · exact .answer (Nat.le_add_left 1 1)
  | tryEnqSwing x n tailOld =>
    rw [hl] at hfacts
    exact lastSwing_pays hI hfacts rfl rfl
  | tryEnqHelp tailOld next =>
    rw [hl] at hfacts
    exact lastSwing_pays hI hfacts rfl rfl
  | tryDeqTail headOld => exact .read le_rfl le_rfl
  | tryDeqNext headOld tailOld => exact .read le_rfl le_rfl
  | tryDeqCheck headOld tailOld next =>
    rw [StepPays, step]
    split_ifs
    · exact .answer (Nat.le_add_left 1 2)
    · exact .read (Nat.le_add_left 2 1) (Nat.zero_le _)
    · exact .read le_rfl le_rfl
    · exact .answer (Nat.le_add_left 1 2)
  | tryDeqHelp tailOld next =>
    rw [hl] at hfacts
    exact lastSwing_pays hI hfacts rfl rfl
  | tryDeqItem headOld tailOld next => exact .read le_rfl le_rfl
  | tryDeqSwing headOld tailOld next x =>
    rw [StepPays, step]
    split_ifs
    · exact swingHead_pays le_rfl rfl
    · exact .answer le_rfl
  | readHead => exact .answer le_rfl
  | readTail => exact .answer le_rfl
  | sizeTail => exact .read le_rfl le_rfl
  | sizeHead tailOld => exact .answer le_rfl

end Access

section Runs

variable [DecidableEq α] [Inhabited α]

theorem credits_sound (α : Type) [DecidableEq α] [Inhabited α] : (credits α).Sound 11 2 11 where
  init := rfl
  call := by
    intro c t op _
    have h4 := late_le c.shared 4
    have h5 := late_le c.shared 5
    cases op <;> simp only [credits, start, Local.cost, Local.credit] <;> omega
  disturb := cost_le_add
  run := by
    intro c t ch f σ o hc hf hs
    obtain ⟨g, hw, hk⟩ := outline_sound.reach hc
    have hk : ∀ u f, c.frames u = some f → Knows u f ⟨c.shared, c.trace, g⟩ :=
      fun u f hu => hk u f hu
    have hpays := step_pays hw.heap hk hf
    rw [StepPays, Option.some.inj hs] at hpays
    exact hpays

/-- **The Michael–Scott queue is lock-free**: `k` calls make `k * (11 + 22 * k)` accesses at most,
however they are scheduled. -/
theorem lockFree_queue {as : List (Action (machine α))} {c : Config (machine α)}
    (h : (Config.init (machine α)).exec always as = some c) :
    runs as ≤ calls as * (11 + 22 * calls as) := by
  have hle := (credits_sound α).lockFree h
  rwa [← Nat.mul_assoc] at hle

/-- Thread 0 is about to link its node when thread 1 does, and helps it to move `*tail_`. -/
def overtaken : List (Action (machine ℕ)) :=
  List.flatten [[.call 0 (.enqueue 5)], turns 0 () 4, [.call 1 (.enqueue 6)], turns 1 () 5,
    turns 0 () 10]

theorem lockFree_queue_overtaken : ∃ c, (Config.init (machine ℕ)).exec always overtaken = some c ∧
    (c.events.getLast? = some (.res 0 (.enqueued true)) ∧ c.shared.queue = [6, 5]) ∧
      runs overtaken ≤ calls overtaken * (11 + 22 * calls overtaken) := by
  have h : ((Config.init (machine ℕ)).exec always overtaken).any fun c =>
      decide (c.events.getLast? = some (.res 0 (.enqueued true)) ∧ c.shared.queue = [6, 5]) := by
    decide
  obtain ⟨c, hc, hp⟩ := (Option.any_eq_true _ _).mp h
  exact ⟨c, hc, of_decide_eq_true hp, lockFree_queue hc⟩

end Runs

end MSQueue

/-
The Treiber stack is lock-free.

A `cas` on `*top_` fails only if another call has moved `*top_` since it was read, which a call
does once; every other call may then have to make three accesses again (`credits_sound`).  So `k`
calls make `k * (4 + 3 * k)` accesses at most, in whatever order they run (`lockFree_stack`).
-/
import Scal.TreiberStack
import Scal.Amortized

open Interleave

namespace TreiberStack

variable {α : Type}

/-- The accesses that are made in vain when `*top_` is not `topOld` any more. -/
def retry (σ : Shared α) (topOld : AtomicPointer) : ℕ := if σ.top = topOld then 0 else 3

/-- The accesses before a call, if no other call moves `*top_`. -/
def Local.cost (σ : Shared α) : Local α → ℕ
  | .pushNew _ => 4
  | .pushTop _ => 3
  | .pushNext _ topOld => 2 + retry σ topOld
  | .pushSwing _ topOld => 1 + retry σ topOld
  | .popTop _ => 4
  | .popNext _ topOld => 3 + retry σ topOld
  | .popSwing _ topOld _ => 2 + retry σ topOld
  | .popData _ _ => 1
  | .readTop => 1

/-- A call moves `*top_` once. -/
def Local.credit : Local α → ℕ
  | .popData _ _ => 0
  | .readTop => 0
  | _ => 1

def credits (α : Type) [Inhabited α] : Credits (machine α) where
  cost := Local.cost
  credit := Local.credit
  debt _ := 0

section Cost

variable {σ σ' : Shared α} {l : Local α}

theorem retry_self (σ : Shared α) : retry σ σ.top = 0 := if_pos rfl

theorem retry_le (σ : Shared α) (topOld : AtomicPointer) : retry σ topOld ≤ 3 := by
  rw [retry]
  split_ifs <;> omega

/-- The cost depends on `*top_` only. -/
theorem cost_congr (h : σ'.top = σ.top) : l.cost σ' = l.cost σ := by
  cases l <;> simp only [Local.cost, retry, h]

/-- To move `*top_` costs another call three accesses at most. -/
theorem cost_le_add (σ σ' : Shared α) (l : Local α) : l.cost σ' ≤ l.cost σ + 3 := by
  have hretry := fun topOld => retry_le σ' topOld
  cases l with
  | pushNext node topOld =>
    have := hretry topOld
    simp only [Local.cost]
    omega
  | pushSwing node topOld =>
    have := hretry topOld
    simp only [Local.cost]
    omega
  | popNext rs topOld =>
    have := hretry topOld
    simp only [Local.cost]
    omega
  | popSwing rs topOld next =>
    have := hretry topOld
    simp only [Local.cost]
    omega
  | _ => exact Nat.le_add_right ..

variable [Inhabited α]

/-- An access makes one access less to make; one that moves `*top_` takes the credit of its
call. -/
theorem step_cost (σ : Shared α) (l : Local α) :
    (credits α).costLeft (step σ l).1 (step σ l).2 + 1 ≤ l.cost σ ∧
      ((step σ l).1.top = σ.top ∧ (credits α).creditLeft (step σ l).2 ≤ l.credit ∨
        (credits α).creditLeft (step σ l).2 + 1 ≤ l.credit) := by
  cases l with
  | pushNew item => exact ⟨le_rfl, .inl ⟨rfl, le_rfl⟩⟩
  | pushTop node =>
    refine ⟨?_, .inl ⟨rfl, le_rfl⟩⟩
    show 2 + retry σ σ.top + 1 ≤ 3
    rw [retry_self]
  | pushNext node topOld =>
    refine ⟨?_, .inl ⟨rfl, le_rfl⟩⟩
    show 1 + retry σ topOld + 1 ≤ 2 + retry σ topOld
    omega
  | pushSwing node topOld =>
    by_cases htop : σ.top = topOld
    · rw [step, if_pos htop]
      exact ⟨Nat.le_add_right .., .inr le_rfl⟩
    · rw [step, if_neg htop]
      refine ⟨?_, .inl ⟨rfl, le_rfl⟩⟩
      show 3 + 1 ≤ 1 + retry σ topOld
      rw [retry, if_neg htop]
  | popTop rs =>
    by_cases hempty : σ.top.value = 0
    · rw [step, if_pos hempty]
      exact ⟨Nat.le_add_left .., .inl ⟨rfl, Nat.zero_le _⟩⟩
    · rw [step, if_neg hempty]
      refine ⟨?_, .inl ⟨rfl, le_rfl⟩⟩
      show 3 + retry σ σ.top + 1 ≤ 4
      rw [retry_self]
  | popNext rs topOld =>
    refine ⟨?_, .inl ⟨rfl, le_rfl⟩⟩
    show 2 + retry σ topOld + 1 ≤ 3 + retry σ topOld
    omega
  | popSwing rs topOld next =>
    by_cases htop : σ.top = topOld
    · rw [step, if_pos htop]
      exact ⟨Nat.le_add_right .., .inr le_rfl⟩
    · rw [step, if_neg htop]
      refine ⟨?_, .inl ⟨rfl, le_rfl⟩⟩
      show 4 + 1 ≤ 2 + retry σ topOld
      rw [retry, if_neg htop]
  | popData rs topOld => exact ⟨le_rfl, .inl ⟨rfl, le_rfl⟩⟩
  | readTop => exact ⟨le_rfl, .inl ⟨rfl, le_rfl⟩⟩

end Cost

theorem credits_sound (α : Type) [Inhabited α] : (credits α).Sound 4 1 3 where
  init := rfl
  call := by
    intro c t op _
    cases op with
    | push item => exact ⟨le_rfl, le_rfl⟩
    | pop => exact ⟨le_rfl, le_rfl⟩
    | getReturnEmptyState => exact ⟨le_rfl, le_rfl⟩
    | emptyState => exact ⟨Nat.le_add_left 1 3, Nat.zero_le 1⟩
  disturb := cost_le_add
  run := by
    intro c t ch f σ o _ _ hs
    obtain ⟨hcost, hcredit⟩ := step_cost c.shared f.loc
    rw [Option.some.inj hs] at hcost hcredit
    refine ⟨hcost, ?_⟩
    show _ ∧ 0 + _ ≤ 0 + f.loc.credit ∨ 0 + _ + 1 ≤ 0 + f.loc.credit
    rw [Nat.zero_add, Nat.zero_add]
    exact hcredit.imp_left fun h => ⟨fun u f' _ _ => (cost_congr h.1).le, h.2⟩

/-- **The Treiber stack is lock-free**: `k` calls make `k * (4 + 3 * k)` accesses at most, however
they are scheduled. -/
theorem lockFree_stack [Inhabited α] {as : List (Action (machine α))} {c : Config (machine α)}
    (h : (Config.init (machine α)).exec always as = some c) :
    runs as ≤ calls as * (4 + 3 * calls as) := by
  have hle := (credits_sound α).lockFree h
  rwa [Nat.one_mul] at hle

/-- Thread 0 has read `*top_` when thread 1 pushes, so its first `cas` fails. -/
def disturbed : List (Action (machine ℕ)) :=
  List.flatten [[.call 0 (.push 5)], turns 0 () 3, [.call 1 (.push 6)], turns 1 () 4, turns 0 () 4]

theorem lockFree_stack_disturbed : ∃ c, (Config.init (machine ℕ)).exec always disturbed = some c ∧
    c.events.getLast? = some (.res 0 (.pushed true)) ∧
      runs disturbed ≤ calls disturbed * (4 + 3 * calls disturbed) := by
  have h : ((Config.init (machine ℕ)).exec always disturbed).any fun c =>
      decide (c.events.getLast? = some (.res 0 (.pushed true))) := by decide
  obtain ⟨c, hc, hp⟩ := (Option.any_eq_true _ _).mp h
  exact ⟨c, hc, of_decide_eq_true hp, lockFree_stack hc⟩

end TreiberStack

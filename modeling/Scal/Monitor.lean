/-
Monitors: a mutex with a condition variable.

* `Monitor` — the thread that owns the mutex, and the threads that wait on the condition
  variable.  `acquire` blocks while the mutex is owned; `release` and `wait` fail for a
  thread that does not own it; `wait` releases the mutex and goes to sleep at once;
* `Monitor.Exclusive` — what every operation of another thread leaves of a monitor: it does
  not take the mutex away from a thread, nor give it to it, nor put that thread to sleep.
-/
import Mathlib.Logic.Function.Basic
import Mathlib.Tactic.Common

structure Monitor where
  owner : Option ℕ
  waiting : ℕ → Bool

namespace Monitor

variable {m m' : Monitor} {t u : ℕ}

def init : Monitor := ⟨none, fun _ => false⟩

/-- Locks the mutex; `none` while it is owned. -/
def acquire (m : Monitor) (t : ℕ) : Option Monitor :=
  if m.owner = none then some ⟨some t, m.waiting⟩ else none

/-- Unlocks the mutex; `none` if `t` does not own it. -/
def release (m : Monitor) (t : ℕ) : Option Monitor :=
  if m.owner = some t then some ⟨none, m.waiting⟩ else none

/-- Unlocks the mutex and waits on the condition variable. -/
def wait (m : Monitor) (t : ℕ) : Option Monitor :=
  if m.owner = some t then some ⟨none, Function.update m.waiting t true⟩ else none

/-- Wakes all the threads that wait. -/
def broadcast (m : Monitor) : Monitor := ⟨m.owner, fun _ => false⟩

/-- `t` stops waiting by itself. -/
def leave (m : Monitor) (t : ℕ) : Monitor := ⟨m.owner, Function.update m.waiting t false⟩

theorem acquire_eq_some : m.acquire t = some m' ↔ m.owner = none ∧ m' = ⟨some t, m.waiting⟩ := by
  rw [acquire, Option.ite_none_right_eq_some, Option.some.injEq, eq_comm (b := m')]

/-- What thread `u` may rely on about the operations of the others. -/
structure Exclusive (u : ℕ) (m m' : Monitor) : Prop where
  owner : m'.owner = some u ↔ m.owner = some u
  waiting : m'.waiting u = true → m.waiting u = true

namespace Exclusive

theorem refl (u : ℕ) (m : Monitor) : Exclusive u m m := ⟨Iff.rfl, id⟩

theorem awake (h : Exclusive u m m') (hu : m.waiting u = false) : m'.waiting u = false := by
  cases hw : m'.waiting u with
  | false => rfl
  | true => exact absurd (h.waiting hw) (by simp [hu])

theorem acquire (hu : u ≠ t) (ho : m.owner = none) : Exclusive u m ⟨some t, m.waiting⟩ := by
  refine ⟨⟨fun h => absurd (Option.some.inj h).symm hu, fun h => ?_⟩, id⟩
  rw [ho] at h
  cases h

theorem release (hu : u ≠ t) (ho : m.owner = some t) : Exclusive u m ⟨none, m.waiting⟩ := by
  refine ⟨⟨fun h => (by cases h), fun h => ?_⟩, id⟩
  rw [ho] at h
  exact absurd (Option.some.inj h).symm hu

theorem wait (hu : u ≠ t) (ho : m.owner = some t) :
    Exclusive u m ⟨none, Function.update m.waiting t true⟩ := by
  refine ⟨(release hu ho).owner, fun h => ?_⟩
  have h : Function.update m.waiting t true u = true := h
  rwa [Function.update_of_ne hu] at h

theorem broadcast : Exclusive u m m.broadcast := ⟨Iff.rfl, fun h => (by cases h)⟩

theorem leave : Exclusive u m (m.leave t) := by
  refine ⟨Iff.rfl, fun h => ?_⟩
  by_cases hu : u = t
  · subst hu
    have h : Function.update m.waiting u false u = true := h
    rw [Function.update_self] at h
    cases h
  · have h : Function.update m.waiting t false u = true := h
    rwa [Function.update_of_ne hu] at h

end Exclusive

end Monitor

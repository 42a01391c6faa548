/-
The helping schedule of the wait-free queue (`HelpRecord`, `help_if_needed` in
`datastructures/wf_queue_ppopp12.h`).

Each thread has a record with a cursor into `state_` and a countdown to its next check.
`reset`, which moves the cursor and starts the countdown again, is called by the constructor
of the record only.  So the countdown passes zero once, and then starts from `2^64 - 1`.

* `Helping.Counted` — the record and the checks of a thread after a number of its calls;
* `Helping.roundRobin_iff` — the schedule is the round-robin one below two periods.
-/
import Scal.AtomicValue
import Mathlib.Data.Int.Notation
import Mathlib.Data.List.Count
import Mathlib.Logic.Function.Basic
import Mathlib.Tactic.Common

namespace Helping

inductive OperationType where
  | enqueue
  | dequeue
  deriving DecidableEq

/-- What `help_if_needed` reads of a descriptor. -/
structure OperationDescriptor where
  phase : ℤ
  pending : Bool
  type : OperationType

def kNoPhase : ℤ := -1

/-- The descriptor every thread starts with. -/
def OperationDescriptor.initial : OperationDescriptor := ⟨kNoPhase, false, .enqueue⟩

/-- The conversions between `int64_t` and `uint64_t`. -/
def toUnsigned (x : ℤ) : ℕ := (x % wordSize).toNat

def toSigned (x : ℕ) : ℤ := if x < wordSize / 2 then x else x - wordSize

structure HelpRecord where
  curThreadId : ℤ
  lastPhase : ℕ
  nextCheck : ℕ

/-- `state_` at some moment. -/
abbrev State := ℕ → OperationDescriptor

namespace HelpRecord

def curThread (rec : HelpRecord) : ℕ := toUnsigned rec.curThreadId

def reset (numThreads helpingDelay : ℕ) (state : State) (rec : HelpRecord) : HelpRecord :=
  let cur := toUnsigned (rec.curThreadId + 1) % numThreads
  ⟨cur, toUnsigned (state cur).phase, helpingDelay⟩

/-- The constructor; no field is set before `reset` but the cursor. -/
def new (numThreads helpingDelay : ℕ) (state : State) (lastPhase nextCheck : ℕ) : HelpRecord :=
  reset numThreads helpingDelay state ⟨-1, lastPhase, nextCheck⟩

def doNextCheck (rec : HelpRecord) : Bool × HelpRecord :=
  (rec.nextCheck = 0, { rec with nextCheck := (rec.nextCheck + (wordSize - 1)) % wordSize })

end HelpRecord

/-- A check of another descriptor, and the call of `help_enq` or `help_deq` it led to. -/
structure Check where
  threadId : ℕ
  lastPhase : ℕ
  help : Option (OperationType × ℕ × ℕ)

/-- `help_if_needed`, which reads `state`. -/
def helpIfNeeded (state : State) (rec : HelpRecord) : HelpRecord × Option Check :=
  match rec.doNextCheck with
  | (false, rec) => (rec, none)
  | (true, rec) =>
    let desc := state rec.curThread
    (rec, some ⟨rec.curThread, rec.lastPhase,
      if desc.pending ∧ desc.phase = toSigned rec.lastPhase then
        some (desc.type, rec.curThread, rec.lastPhase)
      else none⟩)

/-- A call of `enqueue` or `dequeue`: what its thread sees in `state_`, and what is there when
`help_if_needed` returns. -/
structure Call where
  thread : ℕ
  seen : State
  after : State

/-- The records of the threads, and the checks of each of them until now, with their calls. -/
structure System where
  records : ℕ → HelpRecord
  checks : ℕ → List (Check × Call)

/-- The records in memory that held other things before. -/
def start (numThreads helpingDelay : ℕ) (lastPhase nextCheck : ℕ → ℕ) : System where
  records t :=
    .new numThreads helpingDelay (fun _ => .initial) (lastPhase t) (nextCheck t)
  checks _ := []

def step (s : System) (c : Call) : System :=
  match helpIfNeeded c.seen (s.records c.thread) with
  | (rec, check) =>
    ⟨Function.update s.records c.thread rec,
      Function.update s.checks c.thread
        (s.checks c.thread ++ (check.map fun k => (k, c)).toList)⟩

def run (s : System) (calls : List Call) : System := calls.foldl step s

/-- The phase that the descriptor of check `j` had when the cursor moved to it: at the start,
or after the check before. -/
def phaseOf (numThreads : ℕ) (checks : List (Check × Call)) : ℕ → Option ℤ
  | 0 => some kNoPhase
  | j + 1 => checks[j]?.map fun k => (k.2.after ((j + 1) % numThreads)).phase

/-- The checks of thread `t`, which did `c` calls, are those of the round-robin schedule. -/
def RoundRobin (numThreads helpingDelay c : ℕ) (checks : List (Check × Call)) : Prop :=
  checks.length = c / (helpingDelay + 1) ∧
    ∀ j k, checks[j]? = some k → k.1.threadId = j % numThreads ∧
      (phaseOf numThreads checks j).map toUnsigned = some k.1.lastPhase

/-! ### The countdown -/

/-- A thread that did `c` calls has checked the first descriptor once, after `d` of them. -/
structure Counted (d c : ℕ) (rec : HelpRecord) (checks : List (Check × Call)) : Prop where
  cursor : rec.curThreadId = 0
  phase : rec.lastPhase = toUnsigned kNoPhase
  countdown : c ≤ d ∧ rec.nextCheck = d - c ∧ checks = [] ∨
    d < c ∧ rec.nextCheck = wordSize + d - c ∧
      ∃ k, checks = [k] ∧ k.1.threadId = 0 ∧ k.1.lastPhase = toUnsigned kNoPhase

section Counted

variable {n d c t : ℕ} {s : System}

theorem counted_start (n d : ℕ) (lastPhase nextCheck : ℕ → ℕ) (t : ℕ) :
    Counted d 0 ((start n d lastPhase nextCheck).records t)
      ((start n d lastPhase nextCheck).checks t) := by
  have hcur : toUnsigned (-1 + 1) % n = 0 := Nat.zero_mod n
  refine ⟨?_, rfl, Or.inl ⟨Nat.zero_le d, rfl, rfl⟩⟩
  show ((toUnsigned (-1 + 1) % n : ℕ) : ℤ) = 0
  rw [hcur]
  rfl

/-- A call of the thread counts, below `2^64`. -/
theorem Counted.step (h : Counted d c (s.records t) (s.checks t)) (hd : d < wordSize)
    (hc : c + 1 < wordSize) (call : Call) (ht : call.thread = t) :
    Counted d (c + 1) ((Helping.step s call).records t) ((Helping.step s call).checks t) := by
  subst ht
  -- the rest of the record stays as it is
  have hrec : ∀ {rec : HelpRecord} {check : Option Check},
      helpIfNeeded call.seen (s.records call.thread) = (rec, check) →
      (Helping.step s call).records call.thread = rec ∧
        (Helping.step s call).checks call.thread =
          s.checks call.thread ++ (check.map fun k => (k, call)).toList := by
    intro rec check hcheck
    rw [Helping.step, hcheck]
    exact ⟨Function.update_self .., Function.update_self ..⟩
  by_cases hzero : (s.records call.thread).nextCheck = 0
  · -- the check after `d` calls
    have hcd : c = d ∧ s.checks call.thread = [] := by
      rcases h.countdown with ⟨hle, hnext, hnil⟩ | ⟨hlt, hnext, -⟩
      · exact ⟨by omega, hnil⟩
      · omega
    obtain ⟨rfl, hnil⟩ := hcd
    have hcheck : ∃ help, helpIfNeeded call.seen (s.records call.thread) =
        (⟨(s.records call.thread).curThreadId, (s.records call.thread).lastPhase,
            (0 + (wordSize - 1)) % wordSize⟩,
          some ⟨(s.records call.thread).curThread, (s.records call.thread).lastPhase, help⟩) := by
      rw [helpIfNeeded, HelpRecord.doNextCheck, hzero]
      exact ⟨_, rfl⟩
    obtain ⟨help, hcheck⟩ := hcheck
    obtain ⟨hr, hk⟩ := hrec hcheck
    rw [hr, hk]
    refine ⟨h.cursor, h.phase, Or.inr ⟨Nat.lt_succ_self _, ?_,
      (⟨(s.records call.thread).curThread, (s.records call.thread).lastPhase, help⟩, call),
      ?_, ?_, h.phase⟩⟩
    · show (0 + (wordSize - 1)) % wordSize = wordSize + c - (c + 1)
      rw [Nat.zero_add, Nat.mod_eq_of_lt (by decide)]
      omega
    · rw [hnil]
      rfl
    · show toUnsigned (s.records call.thread).curThreadId = 0
      rw [h.cursor]
      rfl
  · obtain ⟨hr, hk⟩ := hrec (by
      rw [helpIfNeeded, HelpRecord.doNextCheck, decide_eq_false hzero])
    have hnext : (s.records call.thread).nextCheck < wordSize := by
      rcases h.countdown with ⟨-, hnext, -⟩ | ⟨hlt, hnext, -⟩
      · omega
      · omega
    have hdown : ((s.records call.thread).nextCheck + (wordSize - 1)) % wordSize =
        (s.records call.thread).nextCheck - 1 := by
      rw [show (s.records call.thread).nextCheck + (wordSize - 1) =
        (s.records call.thread).nextCheck - 1 + wordSize by omega, Nat.add_mod_right,
        Nat.mod_eq_of_lt (by omega)]
    rw [hr, hk]
    refine ⟨h.cursor, h.phase, ?_⟩
    dsimp only [Option.map_none, Option.toList_none]
    rw [List.append_nil, hdown]
    rcases h.countdown with ⟨hle, hnext, hnil⟩ | ⟨hlt, hnext, hk⟩
    · exact Or.inl ⟨by omega, by omega, hnil⟩
    · exact Or.inr ⟨by omega, by omega, hk⟩

theorem step_other (call : Call) (ht : call.thread ≠ t) :
    (step s call).records t = s.records t ∧ (step s call).checks t = s.checks t :=
  ⟨Function.update_of_ne (Ne.symm ht) .., Function.update_of_ne (Ne.symm ht) ..⟩

theorem Counted.run (hd : d < wordSize) : ∀ (calls : List Call) {c : ℕ} {s : System},
    Counted d c (s.records t) (s.checks t) → c + calls.countP (·.thread = t) < wordSize →
    Counted d (c + calls.countP (·.thread = t)) ((Helping.run s calls).records t)
      ((Helping.run s calls).checks t) := by
  intro calls
  induction calls with
  | nil =>
    intro c s h _
    exact h
  | cons call calls ih =>
    intro c s h hc
    rw [List.countP_cons] at hc ⊢
    show Counted d _ ((Helping.run (Helping.step s call) calls).records t)
      ((Helping.run (Helping.step s call) calls).checks t)
    by_cases ht : call.thread = t
    · rw [if_pos (decide_eq_true ht)] at hc ⊢
      have := ih (h.step hd (by omega) call ht) (by omega)
      rwa [Nat.add_right_comm] at this
    · rw [if_neg (by simpa using ht)] at hc ⊢
      obtain ⟨hrec, hchecks⟩ := step_other (s := s) call ht
      exact ih (hrec ▸ hchecks ▸ h) hc

/-- There is one check only, so the schedule is kept up to the second one. -/
theorem Counted.schedule_iff {rec : HelpRecord} {checks : List (Check × Call)}
    (h : Counted d c rec checks) : RoundRobin n d c checks ↔ c < 2 * (d + 1) := by
  rcases h.countdown with ⟨hle, -, rfl⟩ | ⟨hlt, -, k, rfl, hthread, hphase⟩
  · constructor
    · intro _
      omega
    · intro _
      refine ⟨(Nat.div_eq_of_lt (by omega)).symm, fun j k hk => ?_⟩
      cases hk
  · constructor
    · rintro ⟨hlength, -⟩
      by_contra hc
      have h2 : 2 ≤ c / (d + 1) := (Nat.le_div_iff_mul_le (by omega)).mpr (by omega)
      rw [← hlength] at h2
      exact absurd h2 (Nat.not_succ_le_self 1)
    · intro hc
      refine ⟨?_, fun j k' hk => ?_⟩
      · exact (Nat.div_eq_of_lt_le (by rw [List.length_singleton]; omega)
          (by rw [List.length_singleton]; omega)).symm
      · cases j with
        | zero =>
          cases hk
          exact ⟨hthread.trans (Nat.zero_mod n).symm, congrArg some hphase.symm⟩
        | succ j => cases hk

end Counted

/-- **The helping schedule is round-robin below two periods only.** -/
theorem roundRobin_iff (n d : ℕ) (hd : d < wordSize) (lastPhase nextCheck : ℕ → ℕ)
    (calls : List Call) (t : ℕ) (hc : calls.countP (·.thread = t) < wordSize) :
    RoundRobin n d (calls.countP (·.thread = t))
        ((run (start n d lastPhase nextCheck) calls).checks t) ↔
      calls.countP (·.thread = t) < 2 * (d + 1) := by
  have h := Counted.run hd calls (counted_start n d lastPhase nextCheck t) (by rwa [Nat.zero_add])
  rw [Nat.zero_add] at h
  exact h.schedule_iff

/-- Two threads take turns, while the operation of thread 0 is pending in phase 7. -/
def delayedCalls : List Call :=
  [⟨1, pendingOf 0, pendingOf 0⟩, ⟨0, fun _ => .initial, pendingOf 0⟩,
    ⟨1, pendingOf 0, pendingOf 0⟩, ⟨1, pendingOf 0, fun _ => .initial⟩,
    ⟨0, fun _ => .initial, pendingOf 0⟩, ⟨1, pendingOf 0, pendingOf 0⟩,
    ⟨1, pendingOf 0, pendingOf 0⟩]
where
  pendingOf (t : ℕ) : State := Function.update (fun _ => .initial) t ⟨7, true, .dequeue⟩

/-- With three threads and a delay of two calls, thread 1 checks once in its five calls. -/
theorem roundRobin_iff_delayed :
    ((run (start 3 2 id id) delayedCalls).checks 1).length = 1 ∧
      (RoundRobin 3 2 (delayedCalls.countP (·.thread = 1))
          ((run (start 3 2 id id) delayedCalls).checks 1) ↔
        delayedCalls.countP (·.thread = 1) < 2 * (2 + 1)) :=
  ⟨by decide, roundRobin_iff 3 2 (by decide) id id delayedCalls 1 (by decide)⟩

/-- Without a delay every call should check, but the second one of a thread does not. -/
theorem not_roundRobin_twoCalls :
    ¬ RoundRobin 1 0 2 ((run (start 1 0 id id)
        [⟨0, fun _ => .initial, fun _ => .initial⟩,
          ⟨0, fun _ => .initial, fun _ => .initial⟩]).checks 0) := by
  rintro ⟨hlength, -⟩
  exact absurd hlength (by decide)

end Helping

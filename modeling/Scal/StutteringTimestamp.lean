/-
The order that `StutteringTimestamp` gives to calls.

Threads call `set_timestamp`, each time for a new timestamp, and `read_time`.  The clocks are
read and written one at a time.  No clock wraps (`noWrap`).

* `calls` — the calls as a machine;
* `Inv` — the latest clock is not behind any time that was returned, and a call sees at least
  the times that were returned before it began;
* `calls_inOrder` — calls that do not overlap are in the order of their times.
-/
import Scal.TimeStampOrder
import Scal.Calls

open Interleave

namespace Stuttering

inductive Op where
  | setTimestamp
  | readTime
  deriving DecidableEq

inductive Ret where
  | set (time : ℕ)
  | read (time : ℕ)
  deriving DecidableEq

def Ret.time : Ret → ℕ
  | .set time => time
  | .read time => time

/-- The shared access a call makes next; `result` is the timestamp to be set. -/
inductive Local where
  | setting (result : ℕ) (setting : StutteringSetting)
  | reading (reading : StutteringReading)
  deriving DecidableEq

def step (numThreads : ℕ) (clocks : ℕ → ℕ) : Local → (ℕ → ℕ) × (Local ⊕ Ret)
  | .setting result setting =>
    match (stuttering numThreads).setStep () clocks result setting with
    | (clocks', result', some setting') => (clocks', .inl (.setting result' setting'))
    | (clocks', result', none) => (clocks', .inr (.set result'))
  | .reading reading =>
    match (stuttering numThreads).readStep () clocks reading with
    | .inl reading' => (clocks, .inl (.reading reading'))
    | .inr time => (clocks, .inr (.read time))

def start (numThreads t : ℕ) : Op → Local
  | .setTimestamp => .setting uint64Max ((stuttering numThreads).setTimestamp t)
  | .readTime => .reading (stuttering numThreads).readTime

abbrev calls (numThreads : ℕ) : Machine Op Ret where
  Shared := ℕ → ℕ
  Local := Local
  Choice := Unit
  init := (stuttering numThreads).clock
  admits _ t _ := t < numThreads
  start t _ op := start numThreads t op
  step _ _ clocks l := some (step numThreads clocks l)

/-- The access makes no clock wrap. -/
def noWrap (numThreads : ℕ) : ℕ → (calls numThreads).Shared → (calls numThreads).Local → Bool
  | _, _, .setting _ (.tick _ latestTime) => latestTime + 1 < wordSize
  | _, _, _ => true

/-- The time `r` is later than `time`, strictly if it is a timestamp. -/
def Ret.After (time : ℕ) : Ret → Prop
  | .set time' => time < time'
  | .read time' => time ≤ time'

/-- The times of calls that do not overlap are in the order of the calls. -/
def InTime (h : List (Event Op Ret)) : Prop :=
  ∀ i j k m r r', Returns h i j r → Returns h k m r' → j < k → r'.After r.time

variable {n t i : ℕ} {clocks clocks' : ℕ → ℕ} {h : List (Event Op Ret)} {l : Local}

/-- A call that began at time `i` will return a time that is after those returned before. -/
def Sees (n : ℕ) (clocks : ℕ → ℕ) (h : List (Event Op Ret)) (i : ℕ) (l : Local) : Prop :=
  ∀ k j r, Returns h k j r → j < i → match l with
    | .setting _ s => r.time < setLow n clocks s
    | .reading s => r.time ≤ readLow n clocks s

/-- What thread `t` knows about its own variables. -/
def LocalOk (n t : ℕ) (clocks : ℕ → ℕ) : Local → Prop
  | .setting _ s => Ok n t clocks s
  | .reading s => s.i < n ∧ s.latestTime ≤ latest n clocks 0

structure Inv (n : ℕ) (clocks : ℕ → ℕ) (h : List (Event Op Ret)) : Prop where
  bound : ∀ i, clocks i < wordSize
  returned : ∀ i j r, Returns h i j r → r.time ≤ latest n clocks 0
  inTime : InTime h

theorem LocalOk.advance (hl : LocalOk n t clocks l) (ha : Advance t clocks clocks') :
    LocalOk n t clocks' l := by
  cases l with
  | setting result s => exact Ok.advance hl ha
  | reading s => exact ⟨hl.1, hl.2.trans (latest_mono ha.1 0)⟩

theorem Sees.advance (hs : Sees n clocks h i l) (hle : ∀ j, clocks j ≤ clocks' j)
    (hi : i ≤ h.length) (e : Event Op Ret) : Sees n clocks' (h ++ [e]) i l := by
  intro k j r hr hj
  have hr := hs k j r ((returns_append_iff (hj.trans_le hi)).mp hr) hj
  cases l with
  | setting result s => exact hr.trans_le (setLow_mono hle s)
  | reading s => exact hr.trans (max_le_max le_rfl (latest_mono hle s.i))

/-- What an access does: other threads see the clocks advance, and the call that makes it
goes on seeing what it saw, or returns a time after that. -/
structure StepOk (n t : ℕ) (clocks : ℕ → ℕ) (l : Local) (a : (ℕ → ℕ) × (Local ⊕ Ret)) : Prop where
  bound : ∀ i, a.1 i < wordSize
  advance : ∀ u, u ≠ t → Advance u clocks a.1
  latest : latest n clocks 0 ≤ latest n a.1 0
  go : ∀ l', a.2 = .inl l' → LocalOk n t a.1 l' ∧ ∀ h i, Sees n clocks h i l → Sees n a.1 h i l'
  stop : ∀ r, a.2 = .inr r → r.time ≤ Stuttering.latest n a.1 0 ∧
    ∀ h i, Sees n clocks h i l → ∀ k j r', Returns h k j r' → j < i → r.After r'.time

theorem setting_ok {result : ℕ} {s : StutteringSetting} (hbound : ∀ i, clocks i < wordSize)
    (hs : Ok n t clocks s) (hok : noWrap n t clocks (.setting result s) = true) :
    StepOk n t clocks (.setting result s) (step n clocks (.setting result s)) := by
  have hfits : Fits s := by
    cases s with
    | scan u i latestTime => trivial
    | tick u latestTime =>
      have h : decide (latestTime + 1 < wordSize) = true := hok
      show latestTime + 1 < wordSize
      exact of_decide_eq_true h
    | store latestTime => exact hs.2.trans_lt (hbound t)
  rcases he : (stuttering n).setStep () clocks result s with ⟨clocks', result', o⟩
  obtain ⟨hadv, hle, -, hsome, hnone⟩ := setStep_ok hs hfits he
  have hbound' : ∀ i, clocks' i < wordSize := by
    intro i
    by_cases hi : i = t
    · have hs' := hs
      cases s with
      | scan u j latestTime =>
        simp only at he
        split_ifs at he <;> exact (Prod.mk.inj he).1 ▸ hbound i
      | tick u latestTime =>
        obtain rfl := hs'.1
        rw [← (Prod.mk.inj he).1, hi, Function.update_self]
        exact Nat.mod_lt _ (by decide)
      | store latestTime => exact (Prod.mk.inj he).1 ▸ hbound i
    · -- another thread sees its own clock as it was
      exact (hadv i hi).2.trans_lt (hbound i)
  have hstep : step n clocks (.setting result s) =
      (clocks', o.elim (.inr (.set result')) fun s' => .inl (.setting result' s')) := by
    rw [step, he]
    cases o <;> rfl
  rw [hstep]
  refine ⟨hbound', hadv, Nat.le_of_succ_le_succ hle, fun l' hl' => ?_, fun r hr => ?_⟩
  · cases o with
    | none => cases hl'
    | some s' =>
      obtain rfl := Sum.inl.inj hl'
      obtain ⟨-, hok', hlow, -⟩ := hsome s' rfl
      exact ⟨hok', fun h i hs k j r hr hj => (hs k j r hr hj).trans_le hlow⟩
  · cases o with
    | none =>
      obtain rfl := Sum.inr.inj hr
      obtain ⟨hlow, hlt⟩ := hnone rfl
      exact ⟨Nat.le_of_lt_succ hlt, fun h i hs k j r hr hj => (hs k j r hr hj).trans_le hlow⟩
    | some s' => cases hr

theorem reading_ok {s : StutteringReading} (hbound : ∀ i, clocks i < wordSize)
    (hs : LocalOk n t clocks (.reading s)) :
    StepOk n t clocks (.reading s) (step n clocks (.reading s)) := by
  obtain ⟨i, latestTime⟩ := s
  obtain ⟨hi, hl⟩ := hs
  have hnew : max latestTime (clocks i) ≤ latest n clocks 0 := max_le hl (le_latest hi)
  have hadv : ∀ u, u ≠ t → Advance u clocks clocks := fun _ _ => ⟨fun _ => le_rfl, rfl⟩
  rw [step]
  simp only
  split_ifs with hend
  · refine ⟨hbound, hadv, le_rfl, fun l' hl' => ?_, fun r hr => by cases hr⟩
    obtain rfl := Sum.inl.inj hl'
    exact ⟨⟨hend, hnew⟩, fun h j hs k m r hr hm =>
      (hs k m r hr hm).trans (max_latest hi latestTime).le⟩
  · refine ⟨hbound, hadv, le_rfl, (fun l' hl' => by cases hl'), fun r hr => ?_⟩
    obtain rfl := Sum.inr.inj hr
    exact ⟨hnew, fun h j hs k m r hr hm =>
      (hs k m r hr hm).trans (max_latest_end hi hend latestTime).le⟩

/-! ### All runs -/

def Loc (n t : ℕ) (f : Option (Frame (calls n))) (w : World (calls n) Unit) : Prop :=
  match f with
  | none => Idle (history w.trace) t
  | some f => t < n ∧ Running (history w.trace) t f.id f.op ∧ LocalOk n t w.shared f.loc ∧
    Sees n w.shared (history w.trace) f.id f.loc

def outline (n : ℕ) : Outline (calls n) Unit where
  inv w := Inv n w.shared (history w.trace)
  loc := Loc n
  rely u w w' := Advance u w.shared w'.shared

/-- A call's return keeps the order. -/
theorem InTime.append (hI : Inv n clocks h) {e : Event Op Ret}
    (hnew : ∀ i t r, e = .res t r → (∃ op, Open h t i op) →
      ∀ k j r', Returns h k j r' → j < i → r.After r'.time) : InTime (h ++ [e]) := by
  intro i j k m r r' hr hr' hjk
  rcases returns_append_cases hr' with hr' | ⟨-, t, op, rfl, ho⟩
  · have hj : j < h.length := hjk.trans (hr'.lt.trans hr'.lt_length)
    exact hI.inTime i j k m r r' ((returns_append_iff hj).mp hr) hr' hjk
  · have hj : j < h.length := hjk.trans ho.lt_length
    exact hnew k t r' rfl ⟨op, ho⟩ i j r ((returns_append_iff hj).mp hr) hjk

theorem Sees.start (hI : Inv n clocks h) (op : Op) (e : Event Op Ret) :
    Sees n clocks (h ++ [e]) h.length (Stuttering.start n t op) := by
  intro k j r hr hj
  have hr := hI.returned k j r ((returns_append_iff hj).mp hr)
  cases op with
  | setTimestamp => exact Nat.lt_succ_of_le (hr.trans (le_max_right ..))
  | readTime => exact hr.trans (le_max_right ..)

theorem LocalOk.start (ht : t < n) (op : Op) : LocalOk n t clocks (Stuttering.start n t op) := by
  cases op with
  | setTimestamp =>
    exact ⟨rfl, ht, Nat.zero_lt_of_lt ht, Nat.zero_le _, fun h => absurd h (Nat.not_lt_zero _)⟩
  | readTime => exact ⟨Nat.zero_lt_of_lt ht, Nat.zero_le _⟩

theorem outline_sound (n : ℕ) : (outline n).Sound (noWrap n) where
  init := by
    refine ⟨(), ⟨fun _ => (by decide : 1 < wordSize), fun i j r hr => ?_, fun i j k m r r' hr => ?_⟩, fun t => ?_⟩
    · exact absurd hr.lt_length (Nat.not_lt_zero _)
    · exact absurd hr.lt_length (Nat.not_lt_zero _)
    · exact fun i op ho => absurd ho.lt_length (Nat.not_lt_zero _)
  stable := by
    intro w e σ g t f hI hI' hloc he hr
    cases f with
    | none =>
      show Idle (history (w.trace ++ [⟨e, w.shared, σ⟩])) t
      rw [history_append]
      exact Idle.other hloc he
    | some f =>
      obtain ⟨htn, hrun, hl, hs⟩ := hloc
      refine ⟨htn, ?_, hl.advance hr, ?_⟩
      · rw [World.record_trace, history_append]
        exact hrun.append fun h => absurd h he
      · rw [World.record_trace, history_append]
        exact hs.advance hr.1 hrun.1.lt_length.le e
  call := by
    intro w t op hI hloc hadm
    have htn : t < n := of_decide_eq_true hadm
    refine ⟨(), ?_, ⟨htn, ?_, .start htn op, ?_⟩, fun u _ => ⟨fun _ => le_rfl, rfl⟩⟩
    · show Inv n w.shared (history (w.trace ++ [⟨.inv t op, w.shared, w.shared⟩]))
      rw [history_append]
      refine ⟨hI.bound, fun i j r hr => ?_, InTime.append hI fun i u r he => by cases he⟩
      rcases returns_append_cases hr with hr | ⟨-, u, op', he, -⟩
      · exact hI.returned i j r hr
      · cases he
    · rw [World.record_trace, history_append, ← length_history w.trace]
      exact Idle.invoke hloc op
    · rw [World.record_trace, history_append]
      show Sees n w.shared (history w.trace ++ [.inv t op]) w.trace.length (Stuttering.start n t op)
      rw [← length_history w.trace]
      exact .start hI op _
  run := by
    intro w t f ch σ o hI hloc hok hst
    obtain ⟨htn, hrun, hl, hs⟩ := hloc
    have hstep : StepOk n t w.shared f.loc (step n w.shared f.loc) := by
      cases hf : f.loc with
      | setting result s =>
        rw [hf] at hl hok
        exact setting_ok hI.bound hl hok
      | reading s =>
        rw [hf] at hl
        exact reading_ok hI.bound hl
    have hso : step n w.shared f.loc = (σ, o) := Option.some.inj hst
    rw [hso] at hstep
    have hi := hrun.1.lt_length
    refine ⟨(), ?_, ?_, hstep.advance⟩
    · show Inv n σ (history (w.trace ++ [⟨.ofStep t o, w.shared, σ⟩]))
      rw [history_append]
      refine ⟨hstep.bound, fun i j r hr => ?_, InTime.append hI ?_⟩
      · rcases returns_append_cases hr with hr | ⟨-, u, op', he, -⟩
        · exact (hI.returned i j r hr).trans hstep.latest
        · cases o with
          | inl l' => cases he
          | inr r' =>
            obtain rfl : r' = r := (Event.res.inj he).2
            exact (hstep.stop r' rfl).1
      · rintro i u r he ⟨op', ho⟩
        cases o with
        | inl l' => cases he
        | inr r' =>
          obtain ⟨rfl, rfl⟩ : t = u ∧ r' = r := Event.res.inj he
          obtain rfl := hrun.2 i op' ho
          exact (hstep.stop r' rfl).2 _ _ hs
    · cases o with
      | inl l' =>
        obtain ⟨hl', hs'⟩ := hstep.go l' rfl
        refine ⟨htn, ?_, hl', ?_⟩
        · rw [World.record_trace, history_append]
          exact hrun.append fun _ => rfl
        · rw [World.record_trace, history_append]
          intro k j r hr hj
          exact hs' _ _ hs k j r ((returns_append_iff (hj.trans hi)).mp hr) hj
      | inr r =>
        show Idle (history (w.trace ++ [⟨.res t r, w.shared, σ⟩])) t
        rw [history_append]
        exact idle_return _ t r

/-- **StutteringTimestamp orders calls that do not overlap**: a timestamp is later than all
times that were returned before its call began, and a time that is read is not earlier than
they are; for any number of threads, as long as no clock wraps. -/
theorem calls_inOrder {numThreads : ℕ} {c : Config (calls numThreads)}
    (hc : Reach (calls numThreads) (noWrap numThreads) c) : InTime c.events := by
  obtain ⟨g, hI, -⟩ := (outline_sound numThreads).reach hc
  exact hI.inTime

/-- Two overlapping calls of `set_timestamp`, and then one more and a `read_time`. -/
def overlapping : List (Action (calls 2)) :=
  List.flatten [[.call 0 .setTimestamp, .run 0 (), .call 1 .setTimestamp], turns 1 () 4,
    turns 0 () 3, [.call 1 .setTimestamp], turns 1 () 4, [.call 0 .readTime], turns 0 () 2]

theorem calls_inOrder_overlapping :
    ∃ c : Config (calls 2), (c.events.filter fun e => e matches .res _ _) =
      [.res 1 (.set 2), .res 0 (.set 3), .res 1 (.set 4), .res 0 (.read 4)] ∧
      InTime c.events := by
  have h : ∃ c, Reach (calls 2) (noWrap 2) c ∧
      decide ((c.events.filter fun e => e matches .res _ _) =
        [.res 1 (.set 2), .res 0 (.set 3), .res 1 (.set 4), .res 0 (.read 4)]) = true :=
    Reach.exists_of_any (noWrap 2) overlapping _ (by decide +kernel)
  obtain ⟨c, hc, hp⟩ := h
  exact ⟨c, of_decide_eq_true hp, calls_inOrder hc⟩

end Stuttering

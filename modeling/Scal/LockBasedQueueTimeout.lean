/-
A dequeue of the lock-based queue that gives up has waited long enough.

* `deadline_time` — the deadline that `dequeue_timeout` computes, unless `tmp_nsec` overflows;
* `Local.Timed` — what a dequeue knows of its deadline;
* `timeout_elapsed` — when it returns false, its timeout has elapsed since it was invoked, up to
  the microsecond that `gettimeofday` rounds down to.
-/
import Scal.LockBasedQueue
import Scal.Calls
import Scal.NotLinearizable

open Interleave Linearizability

namespace LockBasedQueue

variable {α : Type}

/-- The carry into the seconds changes nothing. -/
theorem carry_time (sec nsec : ℕ) :
    (if 1000000000 ≤ nsec then ⟨sec + nsec / 1000000000, nsec % 1000000000⟩
      else ⟨sec, nsec⟩ : Timespec).time = sec * 1000000000 + nsec := by
  split_ifs
  · simp only [Timespec.time]
    omega
  · rfl

/-- The deadline is the timeout after the time that was read, in whole microseconds. -/
theorem deadline_time {now timeoutMs : ℕ} (h : timeoutMs * 1000000 + 1000000000 ≤ 2 ^ 64) :
    (deadline now timeoutMs).time = now / 1000 * 1000 + timeoutMs * 1000000 := by
  have hlt : now % 1000000000 / 1000 * 1000 + timeoutMs * 1000000 < 2 ^ 64 := by omega
  have hsplit : now / 1000000000 * 1000000000 + now % 1000000000 / 1000 * 1000 =
      now / 1000 * 1000 := by omega
  calc (deadline now timeoutMs).time
      = now / 1000000000 * 1000000000 +
        (now % 1000000000 / 1000 * 1000 + timeoutMs * 1000000) % 2 ^ 64 := carry_time _ _
    _ = now / 1000 * 1000 + timeoutMs * 1000000 := by
      rw [Nat.mod_eq_of_lt hlt, ← Nat.add_assoc, hsplit]

/-! ### What a dequeue knows -/

/-- The deadline was computed at `started` or later. -/
def Variant.Since (timeoutMs started : ℕ) : Variant → Prop
  | .timeout ts => ∃ now, started ≤ now ∧ ts = deadline now timeoutMs
  | _ => False

/-- A timeout that began at `started` or later has elapsed at `now`. -/
def Elapsed (timeoutMs started now : ℕ) : Prop :=
  ∃ began, started ≤ began ∧ (deadline began timeoutMs).time ≤ now

def Local.Timed (timeoutMs started now : ℕ) : Local α → Prop
  | .deqLock v => v.Since timeoutMs started
  | .emptyHead v => v.Since timeoutMs started
  | .emptyTail v _ => v.Since timeoutMs started
  | .unlockEmpty => False
  | .wait v => v.Since timeoutMs started
  | .asleep v => v.Since timeoutMs started
  | .relock v timedOut =>
    v.Since timeoutMs started ∧ (timedOut = true → Elapsed timeoutMs started now)
  | .deqUnlock none => Elapsed timeoutMs started now
  | _ => True

/-- What is left to know when the access is done. -/
def TimedOutcome (timeoutMs started now : ℕ) : Local α ⊕ QueueRet α → Prop
  | .inl l => l.Timed timeoutMs started now
  | .inr r => r = .dequeued none → Elapsed timeoutMs started now

section Access

variable {timeoutMs started now now' t : ℕ} {wake : Wake} {σ σ' : Shared α}
  {l : Local α} {o : Local α ⊕ QueueRet α} {v : Variant}

theorem Elapsed.mono (h : Elapsed timeoutMs started now) (hn : now ≤ now') :
    Elapsed timeoutMs started now' := by
  obtain ⟨began, hb, he⟩ := h
  exact ⟨began, hb, he.trans hn⟩

theorem Local.Timed.mono (h : l.Timed timeoutMs started now) (hn : now ≤ now') :
    l.Timed timeoutMs started now' := by
  cases l with
  | relock v timedOut => exact ⟨h.1, fun hb => (h.2 hb).mono hn⟩
  | deqUnlock r =>
    cases r with
    | none => exact Elapsed.mono h hn
    | some x => exact h
  | _ => exact h

theorem Variant.Since.elapsed (h : v.Since timeoutMs started) (he : v.expired now = true) :
    Elapsed timeoutMs started now := by
  cases v with
  | timeout ts =>
    obtain ⟨began, hb, rfl⟩ := h
    exact ⟨began, hb, of_decide_eq_true he⟩
  | _ => exact h.elim

theorem lock_timed {l' : Local α} (hs : σ.lock t l' = some (σ', o))
    (h : l'.Timed timeoutMs started σ.now) :
    σ'.now = σ.now ∧ TimedOutcome timeoutMs started σ'.now o := by
  obtain ⟨m, -, he⟩ := Option.map_eq_some_iff.mp hs
  obtain ⟨rfl, rfl⟩ := Prod.mk.inj he
  exact ⟨rfl, h⟩

theorem unlock_timed {r : QueueRet α} (hs : σ.unlock t r = (σ', o))
    (h : r = .dequeued none → Elapsed timeoutMs started σ.now) :
    σ'.now = σ.now ∧ TimedOutcome timeoutMs started σ'.now o := by
  rw [Shared.unlock] at hs
  cases hm : σ.globalLock.release t with
  | none =>
    rw [hm] at hs
    obtain ⟨rfl, rfl⟩ := Prod.mk.inj hs
    exact ⟨rfl, trivial⟩
  | some m =>
    rw [hm] at hs
    obtain ⟨rfl, rfl⟩ := Prod.mk.inj hs
    exact ⟨rfl, h⟩

theorem wait_timed [Inhabited α] (hs : access timeoutMs t wake σ (.wait v) = some (σ', o))
    (h : v.Since timeoutMs started) : σ'.now = σ.now ∧ TimedOutcome timeoutMs started σ'.now o := by
  rw [access] at hs
  split_ifs at hs
  · obtain ⟨rfl, rfl⟩ := Prod.mk.inj (Option.some.inj hs)
    exact ⟨rfl, trivial⟩
  · cases hm : σ.globalLock.wait t with
    | none =>
      rw [hm] at hs
      obtain ⟨rfl, rfl⟩ := Prod.mk.inj (Option.some.inj hs)
      exact ⟨rfl, trivial⟩
    | some m =>
      rw [hm] at hs
      obtain ⟨rfl, rfl⟩ := Prod.mk.inj (Option.some.inj hs)
      exact ⟨rfl, h⟩

theorem wake_timed (hs : σ.wake t v wake = some (σ', o)) (h : v.Since timeoutMs started) :
    σ'.now = σ.now ∧ TimedOutcome timeoutMs started σ'.now o := by
  cases wake with
  | woken =>
    obtain ⟨-, he⟩ := Option.ite_none_left_eq_some.mp hs
    obtain ⟨rfl, rfl⟩ := Prod.mk.inj (Option.some.inj he)
    exact ⟨rfl, h, fun hb => (by cases hb)⟩
  | spurious =>
    obtain ⟨rfl, rfl⟩ := Prod.mk.inj (Option.some.inj hs)
    exact ⟨rfl, h, fun hb => (by cases hb)⟩
  | timedOut =>
    obtain ⟨hexp, he⟩ := Option.ite_none_right_eq_some.mp hs
    obtain ⟨rfl, rfl⟩ := Prod.mk.inj (Option.some.inj he)
    exact ⟨rfl, h, fun _ => h.elapsed hexp⟩

theorem access_timed [Inhabited α] (hs : access timeoutMs t wake σ l = some (σ', o))
    (hstart : started ≤ σ.now) (h : l.Timed timeoutMs started σ.now) :
    σ'.now = σ.now ∧ TimedOutcome timeoutMs started σ'.now o := by
  cases l with
  | enqLock n => exact lock_timed hs trivial
  | enqUnlock => exact unlock_timed (Option.some.inj hs) fun hr => (by cases hr)
  | getTime =>
    obtain ⟨rfl, rfl⟩ := Prod.mk.inj (Option.some.inj hs)
    exact ⟨rfl, σ.now, hstart, rfl⟩
  | deqLock v => exact lock_timed hs h
  | emptyHead v =>
    obtain ⟨rfl, rfl⟩ := Prod.mk.inj (Option.some.inj hs)
    exact ⟨rfl, h⟩
  | emptyTail v head =>
    obtain ⟨rfl, rfl⟩ := Prod.mk.inj (Option.some.inj hs)
    refine ⟨rfl, ?_⟩
    cases v with
    | timeout ts => split_ifs <;> first | exact h | trivial
    | _ => exact h.elim
  | unlockEmpty => exact h.elim
  | wait v => exact wait_timed hs h
  | asleep v => exact wake_timed hs h
  | relock v timedOut =>
    cases timedOut with
    | true => exact lock_timed hs (h.2 rfl)
    | false => exact lock_timed hs h.1
  | assertTail head =>
    obtain ⟨rfl, rfl⟩ := Prod.mk.inj (Option.some.inj hs)
    refine ⟨rfl, ?_⟩
    split_ifs <;> trivial
  | deqUnlock r =>
    refine unlock_timed (Option.some.inj hs) fun hr => ?_
    cases r with
    | none => exact h
    | some x => cases hr
  | aborted => cases hs
  | _ =>
    obtain ⟨rfl, rfl⟩ := Prod.mk.inj (Option.some.inj hs)
    exact ⟨rfl, trivial⟩

end Access

/-! ### All runs -/

section Runs

variable [Inhabited α] {timeoutMs : ℕ}

/-- Between the moments `i` and `j` a timeout elapsed. -/
def ElapsedBetween (timeoutMs : ℕ) (tr : List (Moment (machine α 2 timeoutMs))) (i j : ℕ) : Prop :=
  ∃ m m', tr[i]? = some m ∧ tr[j]? = some m' ∧ Elapsed timeoutMs m.before.now m'.after.now

theorem ElapsedBetween.append {tr : List (Moment (machine α 2 timeoutMs))} {i j : ℕ}
    (h : ElapsedBetween timeoutMs tr i j) (m : Moment (machine α 2 timeoutMs)) :
    ElapsedBetween timeoutMs (tr ++ [m]) i j := by
  obtain ⟨m₁, m₂, hi, hj, he⟩ := h
  refine ⟨m₁, m₂, ?_, ?_, he⟩
  · rwa [List.getElem?_append_left (List.getElem?_eq_some_iff.mp hi).choose]
  · rwa [List.getElem?_append_left (List.getElem?_eq_some_iff.mp hj).choose]

/-- What a call knows, or a thread without one. -/
def KnowsTime (timeoutMs : ℕ) (tr : List (Moment (machine α 2 timeoutMs))) (now t : ℕ) :
    Option (Frame (machine α 2 timeoutMs)) → Prop
  | none => Idle (history tr) t
  | some f => Running (history tr) t f.id f.op ∧ ∃ m, tr[f.id]? = some m ∧ m.before.now ≤ now ∧
    f.loc.Timed timeoutMs m.before.now now

def timeOutline (α : Type) [Inhabited α] (timeoutMs : ℕ) :
    Outline (machine α 2 timeoutMs) Unit where
  inv w := ∀ i j, Returns (history w.trace) i j (.dequeued none) →
    ElapsedBetween timeoutMs w.trace i j
  loc t f w := KnowsTime timeoutMs w.trace w.shared.now t f
  rely _ w w' := w.shared.now ≤ w'.shared.now

theorem KnowsTime.keep {tr : List (Moment (machine α 2 timeoutMs))} {now now' t : ℕ}
    {f : Option (Frame (machine α 2 timeoutMs))} (h : KnowsTime timeoutMs tr now t f)
    (m : Moment (machine α 2 timeoutMs)) (hm : m.event.thread ≠ t) (hn : now ≤ now') :
    KnowsTime timeoutMs (tr ++ [m]) now' t f := by
  have hhist : history (tr ++ [m]) = history tr ++ [m.event] := by
    rw [history, List.map_append]
    rfl
  cases f with
  | none =>
    show Idle (history (tr ++ [m])) t
    rw [hhist]
    exact Idle.other h hm
  | some f =>
    obtain ⟨hr, m', hm', hle, ht⟩ := h
    refine ⟨?_, m', ?_, hle.trans hn, ht.mono hn⟩
    · rw [hhist]
      exact hr.append fun he => absurd he hm
    · rwa [List.getElem?_append_left (List.getElem?_eq_some_iff.mp hm').choose]

theorem elapsed_keep {tr : List (Moment (machine α 2 timeoutMs))}
    {m : Moment (machine α 2 timeoutMs)}
    (hw : ∀ i j, Returns (history tr) i j (.dequeued none) → ElapsedBetween timeoutMs tr i j)
    (hm : ∀ t i op, m.event = .res t (.dequeued none) → Open (history tr) t i op →
      ElapsedBetween timeoutMs (tr ++ [m]) i tr.length) :
    ∀ i j, Returns (history (tr ++ [m])) i j (.dequeued none) →
      ElapsedBetween timeoutMs (tr ++ [m]) i j := by
  intro i j hr
  rw [history, List.map_append] at hr
  rcases returns_append_cases hr with hr | ⟨rfl, t, op, he, ho⟩
  · exact (hw i j hr).append m
  · rw [List.length_map]
    exact hm t i op he ho

theorem timeOutline_sound : (timeOutline α timeoutMs).Sound always where
  init := by
    refine ⟨(), fun i j hr => ?_, fun t i op ho => ?_⟩
    · have := hr.lt_length
      simp [history] at this
    · have := ho.lt_length
      simp [history] at this
  stable := fun w e σ _ t f _ _ hf he hr => hf.keep ⟨e, w.shared, σ⟩ he hr
  call := by
    intro w t op hw hidle _
    have hidle : Idle (history w.trace) t := hidle
    refine ⟨(), elapsed_keep hw fun u i op' he => (by cases he),
      ⟨?_, ⟨.inv t op, w.shared, w.shared⟩, List.getElem?_concat_length .., le_rfl, ?_⟩,
      fun u _ => le_rfl⟩
    · rw [World.record_trace, history, List.map_append, ← List.length_map (f := (·.event))]
      exact hidle.invoke op
    · cases op with
      | enqueue item => exact trivial
      | dequeue => exact trivial
  run := by
    intro w t f ch σ o hw hf _ hs
    obtain ⟨hr, m, hm, hle, ht⟩ := hf
    have hlt : f.id < w.trace.length := (List.getElem?_eq_some_iff.mp hm).choose
    have hnow : w.shared.now ≤ (w.shared.tick ch.elapsed).now := Nat.le_add_right ..
    obtain ⟨hsame, hout⟩ := access_timed hs (hle.trans hnow) (ht.mono hnow)
    have hle' : w.shared.now ≤ σ.now := hsame ▸ hnow
    cases o with
    | inl l =>
      refine ⟨(), elapsed_keep hw fun u i op' he => (by cases he),
        ⟨?_, m, ?_, hle.trans hle', hout⟩, fun u _ => hle'⟩
      · rw [World.record_trace, history, List.map_append]
        exact hr.append fun _ => rfl
      · rw [World.record_trace]
        rwa [List.getElem?_append_left hlt]
    | inr r =>
      refine ⟨(), elapsed_keep hw fun u i op' he ho => ?_, ?_, fun u _ => hle'⟩
      · obtain ⟨rfl, rfl⟩ : t = u ∧ r = .dequeued none := by
          cases he
          exact ⟨rfl, rfl⟩
        obtain rfl := hr.2 i op' ho
        refine ⟨m, _, ?_, List.getElem?_concat_length .., hout rfl⟩
        rwa [List.getElem?_append_left hlt]
      · show Idle (history (w.trace ++ _)) t
        rw [history, List.map_append]
        exact idle_return _ t r

/-- **A timed dequeue does not give up early.**  Where `tmp_nsec` does not overflow, a dequeue
that returns false does so after its timeout, counted from the microsecond of its invocation. -/
theorem timeout_elapsed {c : Config (machine α 2 timeoutMs)}
    (hc : Reach (machine α 2 timeoutMs) always c)
    (hover : timeoutMs * 1000000 + 1000000000 ≤ 2 ^ 64) {i j : ℕ}
    (hr : Returns c.events i j (.dequeued none)) :
    ∃ m m', c.trace[i]? = some m ∧ c.trace[j]? = some m' ∧
      m.before.now / 1000 * 1000 + timeoutMs * 1000000 ≤ m'.after.now := by
  obtain ⟨_, hw, -⟩ := timeOutline_sound.reach hc
  obtain ⟨m, m', hm, hm', began, hb, he⟩ := hw i j hr
  refine ⟨m, m', hm, hm', ?_⟩
  rw [deadline_time hover] at he
  have hmicro : m.before.now / 1000 * 1000 ≤ began / 1000 * 1000 :=
    Nat.mul_le_mul_right 1000 (Nat.div_le_div_right hb)
  exact (Nat.add_le_add_right hmicro _).trans he

end Runs

/-- Every access takes a while, and the dequeue gives up as soon as it can. -/
def giveUp : List (Action (machine ℕ 2 1)) :=
  List.flatten [[.call 0 .dequeue], turns 0 ⟨1500, .woken⟩ 5, [.run 0 ⟨993500, .timedOut⟩],
    turns 0 ⟨0, .woken⟩ 2]

theorem timeout_elapsed_giveUp : ∃ (c : Config (machine ℕ 2 1)) (m m' : Moment (machine ℕ 2 1)),
    c.trace[0]? = some m ∧ c.trace[8]? = some m' ∧
      m.before.now / 1000 * 1000 + 1 * 1000000 ≤ m'.after.now := by
  have h : ∃ c, Reach (machine ℕ 2 1) always c ∧
      decide (response c.events 0 = some (8, .dequeued none)) = true :=
    Reach.exists_of_any always giveUp _ (by decide)
  obtain ⟨c, hc, hp⟩ := h
  exact ⟨c, timeout_elapsed hc (by decide) (returns_of_response (of_decide_eq_true hp))⟩

end LockBasedQueue

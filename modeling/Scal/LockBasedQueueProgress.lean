/-
No wakeup is lost in the lock-based queue.

* `Local.cost` — the accesses that a call has before it; an enqueue that has not broadcast yet
  also pays for the threads that it wakes;
* `stuck_asleep` — when no call can go on, unless some thread wakes for no reason or its time
  is up, all of them are dequeues that are asleep, and the queue is empty;
* `drains` — without new calls this is so after a bounded number of accesses.
-/
import Scal.LockBasedQueueFifo
import Scal.Amortized
import Mathlib.Tactic.Ring

open Interleave Linearizability

namespace LockBasedQueue

variable {α : Type}

/-! ### Calls that are stuck -/

section Stuck

variable {σ : Shared α} {t timeoutMs : ℕ} {l : Local α}

/-- A call that holds the lock can go on. -/
theorem isSome_of_holds [Inhabited α] {wake : Wake} (hl : l.holds = true) :
    (access timeoutMs t wake σ l).isSome = true := by
  cases l with
  | wait v =>
    rw [access]
    split_ifs
    · rfl
    · cases σ.globalLock.wait t <;> rfl
  | enqNew | enqLock | getTime | deqLock | asleep | relock | aborted => cases hl
  | _ => rfl

/-- Where the lock is free, a call can go on unless it is asleep. -/
theorem isSome_of_free [Inhabited α] (ho : σ.globalLock.owner = none) (hl : l ≠ .aborted)
    (hsleep : ∀ v, l = .asleep v → σ.globalLock.waiting t = false) :
    (access timeoutMs t .woken σ l).isSome = true := by
  have hlock : ∀ l' : Local α, (σ.lock t l').isSome = true := fun l' => by
    rw [Shared.lock, Monitor.acquire, if_pos ho]
    rfl
  cases hh : l.holds with
  | true => exact isSome_of_holds hh
  | false =>
    cases l with
    | enqNew item => rfl
    | enqLock n => exact hlock _
    | getTime => rfl
    | deqLock v => exact hlock _
    | asleep v =>
      rw [access, Shared.wake, if_neg (by simp [hsleep v rfl])]
      rfl
    | relock v timedOut => exact hlock _
    | aborted => exact absurd rfl hl
    | _ => cases hh

end Stuck

section Runs

variable [Inhabited α] {mode timeoutMs : ℕ} {c c' : Config (machine α mode timeoutMs)}

theorem next_isSome {t : ℕ} {ch : Choice} {f : Frame (machine α mode timeoutMs)}
    (hf : c.frames t = some f)
    (hs : (access timeoutMs t ch.wake (c.shared.tick ch.elapsed) f.loc).isSome = true) :
    (c.next (.run t ch)).isSome = true := by
  obtain ⟨⟨σ, o⟩, hs⟩ := Option.isSome_iff_exists.mp hs
  simp only [Config.next, hf, hs]
  rfl

/-- No call can go on by itself. -/
def Stuck (c : Config (machine α mode timeoutMs)) : Prop :=
  ∀ t elapsed, c.next (.run t ⟨elapsed, .woken⟩) = none

theorem Stuck.access (hs : Stuck c) {t : ℕ} {f : Frame (machine α mode timeoutMs)}
    (hf : c.frames t = some f) :
    ¬(access timeoutMs t .woken (c.shared.tick 0) f.loc).isSome = true := by
  intro h
  have hsome : (c.next (.run t ⟨0, .woken⟩)).isSome = true := next_isSome hf h
  rw [hs t 0] at hsome
  cases hsome

/-- **No wakeup is lost**: when no call can go on by itself, every one of them is a dequeue that
is asleep, and there is nothing in the queue. -/
theorem stuck_asleep (hc : Reach (machine α mode timeoutMs) always c) (hs : Stuck c) {t : ℕ}
    {f : Frame (machine α mode timeoutMs)} (hf : c.frames t = some f) :
    (f.op = .dequeue ∧ ∃ v, f.loc = .asleep v) ∧ c.shared.head = c.shared.tail := by
  classical
  obtain ⟨g, hw, hloc⟩ := outline_sound.reach hc
  have hk : ∀ u, Knows c.shared g u ((c.frames u).map fun f => (f.id, f.op, f.loc)) := fun u =>
    (hloc u).1
  have hcall : ∀ u f', c.frames u = some f' →
      Knows c.shared g u (some (f'.id, f'.op, f'.loc)) := by
    intro u f' hu
    have := hk u
    rwa [hu] at this
  -- the owner of the lock would go on
  have hfree : c.shared.globalLock.owner = none := by
    cases ho : c.shared.globalLock.owner with
    | none => rfl
    | some u =>
      cases hu : c.frames u with
      | none =>
        have hidle := hk u
        rw [hu] at hidle
        cases hidle.1.owner.mp ho
      | some f' =>
        exact absurd (isSome_of_holds ((hcall u f' hu).1.owner.mp ho)) (hs.access hu)
  obtain ⟨hfits, hok⟩ := hcall t f hf
  have hasleep : ∃ v, f.loc = .asleep v ∧ c.shared.globalLock.waiting t = true := by
    by_contra hno
    refine hs.access hf (isSome_of_free hfree (fun ha => ?_) fun v hv => ?_)
    · rw [ha] at hok
      exact hok
    · exact Bool.eq_false_of_not_eq_true fun hw => hno ⟨v, hv, hw⟩
  obtain ⟨v, hv, hwait⟩ := hasleep
  rw [hv] at hok
  refine ⟨⟨hok.1.1, v, hv⟩, ?_⟩
  obtain ⟨ns, hns⟩ := hw.2.nodes
  refine hns.list.head_eq_tail.mpr ?_
  by_contra hne
  exact hw.2.owes (hw.2.wakes t hwait hne) hfree

end Runs

/-! ### How long that takes -/

/-- The accesses before a call, where an enqueue wakes `n` threads at most. -/
def Local.cost (n : ℕ) : Local α → ℕ
  | .enqNew _ => 7 + 13 * n
  | .enqLock _ => 6 + 13 * n
  | .enqTail _ => 5 + 13 * n
  | .enqNext _ _ => 4 + 13 * n
  | .enqSwing _ => 3 + 13 * n
  | .enqBroadcast => 2 + 13 * n
  | .enqUnlock => 1
  | .getTime => 13
  | .deqLock _ => 12
  | .emptyHead _ => 11
  | .emptyTail _ _ => 10
  | .unlockEmpty => 1
  | .wait _ => 1
  | .asleep _ => 13
  | .relock _ _ => 12
  | .assertHead => 9
  | .assertTail _ => 8
  | .itemHead => 7
  | .itemNext _ => 6
  | .itemValue _ => 5
  | .nextHead _ => 4
  | .nextNext _ _ => 3
  | .deqSwing _ _ => 2
  | .deqUnlock _ => 1
  | .aborted => 0

/-- A thread that waits makes no access until somebody wakes it. -/
def charge (α : Type) [Inhabited α] (mode timeoutMs n : ℕ) : Charge (machine α mode timeoutMs) where
  base _ := 0
  weight σ t l := if l.sleeps && σ.globalLock.waiting t then 0 else l.cost n

section Cost

theorem cost_le (n : ℕ) (l : Local α) : l.cost n ≤ 13 + 13 * n := by
  cases l <;> simp only [Local.cost] <;> omega

variable [Inhabited α] {mode timeoutMs n t u : ℕ} {σ σ' : Shared α} {l l' : Local α}
  {o : Local α ⊕ QueueRet α}

theorem weight_le (mode timeoutMs n : ℕ) (σ : Shared α) (t : ℕ) (l : Local α) :
    (charge α mode timeoutMs n).weight σ t l ≤ l.cost n := by
  simp only [charge]
  split_ifs
  · exact Nat.zero_le _
  · exact le_rfl

theorem weight_congr (h : σ'.globalLock.waiting u = σ.globalLock.waiting u) :
    (charge α mode timeoutMs n).weight σ' u l = (charge α mode timeoutMs n).weight σ u l := by
  simp only [charge, h]

/-- To wake a thread costs what it does until it sleeps again. -/
theorem weight_broadcast : (charge α mode timeoutMs n).weight σ' u l ≤
    (charge α mode timeoutMs n).weight σ u l + 13 := by
  cases hl : l.sleeps with
  | false => simp [charge, hl]
  | true =>
    refine (weight_le mode timeoutMs n σ' u l).trans ?_
    cases l with
    | asleep v => exact Nat.le_add_left 13 _
    | _ => cases hl

/-- The access leaves the other threads asleep or awake, and one access less to make. -/
def Spends (mode timeoutMs n t : ℕ) (σ : Shared α) (l : Local α) (σ' : Shared α)
    (o : Local α ⊕ QueueRet α) : Prop :=
  (∀ u, u ≠ t → σ'.globalLock.waiting u = σ.globalLock.waiting u) ∧
    (charge α mode timeoutMs n).outcome σ' t o + 1 ≤ (charge α mode timeoutMs n).weight σ t l

theorem Spends.go (hw : σ'.globalLock.waiting = σ.globalLock.waiting) (hl : l.sleeps = false)
    (hc : l'.cost n + 1 ≤ l.cost n) : Spends mode timeoutMs n t σ l σ' (.inl l') := by
  refine ⟨fun u _ => by rw [hw], ?_⟩
  have hweight : (charge α mode timeoutMs n).weight σ t l = l.cost n := by simp [charge, hl]
  rw [hweight]
  exact (Nat.add_le_add_right (weight_le mode timeoutMs n σ' t l') 1).trans hc

theorem Spends.lock (hs : σ.lock t l' = some (σ', o)) (hl : l.sleeps = false)
    (hc : l'.cost n + 1 ≤ l.cost n) : Spends mode timeoutMs n t σ l σ' o := by
  obtain ⟨m, hm, he⟩ := Option.map_eq_some_iff.mp hs
  obtain ⟨-, rfl⟩ := Monitor.acquire_eq_some.mp hm
  obtain ⟨rfl, rfl⟩ := Prod.mk.inj he
  exact .go rfl hl hc

theorem Spends.unlock {r : QueueRet α} (hs : σ.unlock t r = (σ', o)) (hl : l.sleeps = false)
    (hc : 1 ≤ l.cost n) : Spends mode timeoutMs n t σ l σ' o := by
  have hweight : (charge α mode timeoutMs n).weight σ t l = l.cost n := by simp [charge, hl]
  rw [Shared.unlock] at hs
  cases hm : σ.globalLock.release t with
  | none =>
    rw [hm] at hs
    obtain ⟨rfl, rfl⟩ := Prod.mk.inj hs
    exact .go rfl hl hc
  | some m =>
    rw [hm] at hs
    obtain ⟨rfl, rfl⟩ := Prod.mk.inj hs
    obtain ⟨-, he⟩ := Option.ite_none_right_eq_some.mp hm
    obtain rfl := Option.some.inj he
    refine ⟨fun _ _ => rfl, ?_⟩
    rw [hweight]
    exact hc

theorem Spends.wait {v : Variant}
    (hs : access timeoutMs t .woken σ (.wait v) = some (σ', o)) :
    Spends mode timeoutMs n t σ (.wait v) σ' o := by
  rw [access] at hs
  split_ifs at hs with hv
  · obtain ⟨rfl, rfl⟩ := Prod.mk.inj (Option.some.inj hs)
    exact .go rfl rfl le_rfl
  · cases hm : σ.globalLock.wait t with
    | none =>
      rw [hm] at hs
      obtain ⟨rfl, rfl⟩ := Prod.mk.inj (Option.some.inj hs)
      exact .go rfl rfl le_rfl
    | some m =>
      rw [hm] at hs
      obtain ⟨rfl, rfl⟩ := Prod.mk.inj (Option.some.inj hs)
      obtain ⟨-, he⟩ := Option.ite_none_right_eq_some.mp hm
      obtain rfl := Option.some.inj he
      refine ⟨fun u hu => Function.update_of_ne hu .., ?_⟩
      simp [charge, Charge.outcome, Local.sleeps, Shared.setLock, Local.cost]

theorem spends_of_access (hs : access timeoutMs t .woken σ l = some (σ', o))
    (hl : l ≠ .enqBroadcast) : Spends mode timeoutMs n t σ l σ' o := by
  cases l with
  | enqLock k => exact .lock hs rfl (by simp only [Local.cost]; omega)
  | enqBroadcast => exact absurd rfl hl
  | enqUnlock => exact .unlock (Option.some.inj hs) rfl le_rfl
  | deqLock v => exact .lock hs rfl le_rfl
  | emptyTail v head =>
    obtain ⟨rfl, rfl⟩ := Prod.mk.inj (Option.some.inj hs)
    refine .go rfl rfl ?_
    split_ifs <;> cases v <;> simp [Variant.onEmpty, Variant.onNonempty, Local.cost]
  | unlockEmpty =>
    obtain ⟨rfl, rfl⟩ := Prod.mk.inj (Option.some.inj hs)
    refine ⟨fun u _ => ?_, le_rfl⟩
    rw [Monitor.release]
    split_ifs <;> rfl
  | wait v => exact .wait hs
  | asleep v =>
    obtain ⟨hw, he⟩ := Option.ite_none_left_eq_some.mp hs
    obtain ⟨rfl, rfl⟩ := Prod.mk.inj (Option.some.inj he)
    refine ⟨fun _ _ => rfl, ?_⟩
    simp [charge, Charge.outcome, hw, Local.cost, Local.sleeps]
  | relock v timedOut => exact .lock hs rfl (by cases timedOut <;> simp [Local.cost])
  | assertTail head =>
    obtain ⟨rfl, rfl⟩ := Prod.mk.inj (Option.some.inj hs)
    refine .go rfl rfl ?_
    split_ifs <;> simp [Local.cost]
  | deqUnlock r => exact .unlock (Option.some.inj hs) rfl le_rfl
  | aborted => cases hs
  | _ =>
    obtain ⟨rfl, rfl⟩ := Prod.mk.inj (Option.some.inj hs)
    exact .go rfl rfl (by simp only [Local.cost]; omega)

/-- **Every access pays for what it does.** -/
theorem charge_covers (α : Type) [Inhabited α] (mode timeoutMs n : ℕ) :
    (charge α mode timeoutMs n).Covers (fun ch => ch.wake = .woken) n (13 + 13 * n) where
  call c t op _ := (weight_le mode timeoutMs n c.shared t _).trans (cost_le n _)
  run := by
    intro c t ch f σ o _ _ hP hs
    have hs : access timeoutMs t .woken (c.shared.tick ch.elapsed) f.loc = some (σ, o) := hP ▸ hs
    by_cases hb : f.loc = .enqBroadcast
    · rw [hb] at hs
      obtain ⟨rfl, rfl⟩ := Prod.mk.inj (Option.some.inj hs)
      refine ⟨13, fun u f' _ _ => weight_broadcast, ?_⟩
      rw [hb]
      show 0 + 1 + 1 + 13 * n ≤ 0 + (2 + 13 * n)
      omega
    · have hspends : Spends mode timeoutMs n t (c.shared.tick ch.elapsed) f.loc σ o :=
        spends_of_access hs hb
      refine ⟨0, fun u f' hu _ => (weight_congr (hspends.1 u hu)).le, ?_⟩
      have hweight : (charge α mode timeoutMs n).outcome σ t o + 1 ≤
          (charge α mode timeoutMs n).weight c.shared t f.loc := hspends.2
      show 0 + _ + 1 + 0 * n ≤ 0 + _
      omega

end Cost

/-- **Without new calls the queue comes to rest**: however the `n` pending calls are scheduled,
if none of them wakes for no reason or times out, they make `13 * n * (n + 1)` accesses at
most; and where none of them can go on, all that are left are dequeues that are asleep on an
empty queue. -/
theorem drains [Inhabited α] {mode timeoutMs : ℕ} {c c' : Config (machine α mode timeoutMs)}
    (hc : Reach (machine α mode timeoutMs) always c) {ts : Finset ℕ}
    (hts : ∀ t, c.frames t ≠ none → t ∈ ts) {as : List (Action (machine α mode timeoutMs))}
    (has : ∀ a ∈ as, ∃ t elapsed, a = .run t ⟨elapsed, .woken⟩)
    (h : c.exec always as = some c') :
    as.length ≤ 13 * ts.card * (ts.card + 1) ∧
      (Stuck c' → ∀ t f, c'.frames t = some f →
        (f.op = .dequeue ∧ ∃ v, f.loc = .asleep v) ∧ c'.shared.head = c'.shared.tail) := by
  refine ⟨?_, fun hs t f hf => stuck_asleep (.exec as hc h) hs hf⟩
  have hwoken : ∀ a ∈ as, a.Allowed (fun ch : Choice => ch.wake = .woken) ∧ a.isRun = true := by
    intro a ha
    obtain ⟨t, elapsed, rfl⟩ := has a ha
    exact ⟨rfl, rfl⟩
  have htotal : (charge α mode timeoutMs ts.card).total ts c ≤ 0 + ts.card * (13 + 13 * ts.card) :=
    Charge.total_le fun t f _ => (weight_le mode timeoutMs _ _ t _).trans (cost_le _ _)
  calc as.length ≤ (charge α mode timeoutMs ts.card).total ts c :=
        (charge_covers α mode timeoutMs ts.card).exec_length_le le_rfl hc hts hwoken h
    _ ≤ ts.card * (13 + 13 * ts.card) := by omega
    _ = 13 * ts.card * (ts.card + 1) := by ring

/-- Two dequeues are asleep, and an enqueue begins. -/
def twoAsleep : List (Action (machine ℕ 1 0)) :=
  List.flatten [[.call 0 .dequeue], turns 0 ⟨0, .woken⟩ 4, [.call 2 .dequeue],
    turns 2 ⟨0, .woken⟩ 4, [.call 1 (.enqueue 5)]]

/-- One of them gets the item, the other one goes to sleep again. -/
def oneServed : List (Action (machine ℕ 1 0)) :=
  List.flatten [turns 1 ⟨0, .woken⟩ 7, turns 0 ⟨0, .woken⟩ 13, turns 2 ⟨0, .woken⟩ 5]

theorem drains_oneServed : ∃ c' : Config (machine ℕ 1 0),
    (.res 0 (.dequeued (some 5)) ∈ c'.events ∧ (c'.frames 2).isSome = true) ∧
      oneServed.length ≤ 13 * 3 * (3 + 1) ∧
      (Stuck c' → ∀ t f, c'.frames t = some f →
        (f.op = .dequeue ∧ ∃ v, f.loc = .asleep v) ∧ c'.shared.head = c'.shared.tail) := by
  have h : (((Config.init (machine ℕ 1 0)).exec always twoAsleep).any fun c =>
      (c.exec always oneServed).any fun c' => decide (.res 0 (.dequeued (some 5)) ∈ c'.events ∧
        (c'.frames 2).isSome = true)) = true := by decide
  obtain ⟨c, hc, h⟩ := (Option.any_eq_true _ _).mp h
  obtain ⟨c', hc', h⟩ := (Option.any_eq_true _ _).mp h
  have hts : ∀ t, c.frames t ≠ none → t ∈ ({0, 1, 2} : Finset ℕ) :=
    (Charge.threads_mem (fun t ht => absurd rfl ht) (by decide) hc).2
  refine ⟨c', of_decide_eq_true h, drains (.exec _ .init hc) hts (fun a ha => ?_) hc'⟩
  simp only [oneServed, turns, List.flatten_cons, List.flatten_nil, List.mem_append,
    List.mem_replicate, List.not_mem_nil, or_false] at ha
  rcases ha with ⟨-, rfl⟩ | ⟨-, rfl⟩ | ⟨-, rfl⟩
  · exact ⟨1, 0, rfl⟩
  · exact ⟨0, 0, rfl⟩
  · exact ⟨2, 0, rfl⟩

end LockBasedQueue

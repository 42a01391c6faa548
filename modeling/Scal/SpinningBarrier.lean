/-
The spinning barrier (`util/barrier.h`).

The calls of `wait` draw tickets from one counter; a round is `num` tickets in a row.

* `Rounds` — of a list of the threads that drew the tickets: no thread is a round ahead of
  another one by more than one, or has two tickets in a round;
* `Rounds.draw` — this stays so when a thread draws a ticket after the rounds of its earlier
  tickets are full;
* `wait_separates` — no call returns before all threads are in its round, and one call of
  every round returns true.
-/
import Scal.Interleave
import Mathlib.Algebra.BigOperators.Fin
import Mathlib.Algebra.Order.BigOperators.Group.Finset

open Interleave

namespace SpinningBarrier

/-! ### The program -/

inductive Op where
  | wait
  deriving DecidableEq

/-- The next access is the `__sync_fetch_and_add`, or the next test of `*cnt_`. -/
inductive Local where
  | fetchAndAdd
  | spin (old : ℕ)

/-- What `*cnt_` has to reach. -/
def next (num old : ℕ) : ℕ := old / num * num + num

/-- One access to `*cnt_`. -/
def step (num cnt : ℕ) : Local → ℕ × (Local ⊕ Bool)
  | .fetchAndAdd => (cnt + 1, .inl (.spin cnt))
  | .spin old =>
    if cnt < next num old then (cnt, .inl (.spin old))
    else (cnt, .inr (old = next num old - 1))

/-- `num` threads use the barrier. -/
abbrev machine (num : ℕ) : Machine Op Bool where
  Shared := ℕ
  Local := Local
  Choice := Unit
  init := 0
  admits _ t _ := t < num
  start _ _ _ := .fetchAndAdd
  step _ _ cnt l := some (step num cnt l)

/-! ### Rounds of tickets -/

/-- The threads that drew the tickets, in order. -/
structure Rounds (num : ℕ) (tickets : List ℕ) : Prop where
  lt : ∀ u ∈ tickets, u < num
  ge : ∀ u < num, tickets.length / num ≤ tickets.count u
  le : ∀ u < num, tickets.count u ≤ tickets.length / num + 1
  below : ∀ (i u : ℕ), tickets[i]? = some u → i / num < tickets.count u
  once : ∀ (i j u : ℕ), i < j → tickets[i]? = some u → tickets[j]? = some u → i / num < j / num

section Rounds

variable {num : ℕ} {tickets : List ℕ} {i j t u : ℕ}

theorem Rounds.nil (num : ℕ) : Rounds num [] := by
  refine ⟨fun u hu => ?_, fun u _ => ?_, fun u _ => Nat.zero_le _, fun i u hi => ?_,
    fun i j u _ hi => ?_⟩
  · cases hu
  · rw [List.length_nil, Nat.zero_div]
    exact Nat.zero_le _
  · cases hi
  · cases hi

/-- Every ticket was drawn by one of the threads. -/
theorem sum_count (h : ∀ u ∈ tickets, u < num) :
    ∑ u ∈ Finset.range num, tickets.count u = tickets.length := by
  have := Multiset.sum_count_eq_card (s := Finset.range num) (m := (tickets : Multiset ℕ))
    fun u hu => Finset.mem_range.mpr (h u hu)
  simpa using this

/-- A thread draws a ticket once the rounds of its earlier tickets are full. -/
theorem Rounds.draw (hr : Rounds num tickets) (ht : t < num)
    (hfull : tickets.count t * num ≤ tickets.length) :
    tickets.length / num = tickets.count t ∧ Rounds num (tickets ++ [t]) := by
  have hpos : 0 < num := by omega
  have hround : tickets.length / num = tickets.count t :=
    le_antisymm (hr.ge t ht) ((Nat.le_div_iff_mul_le hpos).mpr hfull)
  have hself : (tickets ++ [t]).count t = tickets.count t + 1 := by
    rw [List.count_append, List.count_singleton_self]
  have hother : ∀ u, u ≠ t → (tickets ++ [t]).count u = tickets.count u := by
    intro u hu
    rw [List.count_append, List.count_singleton, if_neg (by simpa using Ne.symm hu)]
    rfl
  have hlt : ∀ u ∈ tickets ++ [t], u < num := by
    intro u hu
    rw [List.mem_append, List.mem_singleton] at hu
    rcases hu with hu | rfl
    · exact hr.lt u hu
    · exact ht
  have hle : ∀ u < num, (tickets ++ [t]).count u ≤ tickets.length / num + 1 := by
    intro u hu
    by_cases hut : u = t
    · rw [hut, hself, hround]
    · rw [hother u hut]
      exact hr.le u hu
  have hlength : (tickets ++ [t]).length = tickets.length + 1 := by
    rw [List.length_append, List.length_singleton]
  have hmono : tickets.length / num ≤ (tickets ++ [t]).length / num := by
    rw [hlength]
    exact Nat.div_le_div_right (Nat.le_succ _)
  have hlast : ∀ {j u}, tickets.length ≤ j → (tickets ++ [t])[j]? = some u →
      j = tickets.length ∧ u = t := by
    intro j u hge hj
    have hjlt := (List.getElem?_eq_some_iff.mp hj).1
    obtain rfl : j = tickets.length := by omega
    rw [List.getElem?_concat_length, Option.some.injEq] at hj
    exact ⟨rfl, hj.symm⟩
  refine ⟨hround, hlt, fun u hu => ?_, fun u hu => ?_, fun i u hi => ?_, fun i j u hij hi hj => ?_⟩
  · rw [hlength]
    by_cases hsame : (tickets.length + 1) / num = tickets.length / num
    · -- the round goes on
      rw [hsame]
      by_cases hut : u = t
      · rw [hut, hself, hround]
        exact Nat.le_succ _
      · rw [hother u hut]
        exact hr.ge u hu
    · -- the round is full, so every thread has a ticket in it
      have hdiv := Nat.div_add_mod tickets.length num
      have hmod := Nat.mod_lt tickets.length hpos
      have hnext : tickets.length + 1 = (tickets.length / num + 1) * num := by
        have hlt : ¬ tickets.length + 1 < (tickets.length / num + 1) * num := by
          intro hlt
          refine hsame (le_antisymm (Nat.le_of_lt_succ ?_) (hlength ▸ hmono))
          exact (Nat.div_lt_iff_lt_mul hpos).mpr hlt
        rw [Nat.add_mul, Nat.one_mul, Nat.mul_comm] at hlt ⊢
        omega
      have hsum : ∑ u ∈ Finset.range num, (tickets ++ [t]).count u =
          ∑ _u ∈ Finset.range num, (tickets.length / num + 1) := by
        rw [sum_count hlt, hlength, hnext, Finset.sum_const, Finset.card_range, smul_eq_mul,
          Nat.mul_comm]
      have hall := (Finset.sum_eq_sum_iff_of_le fun u hu => hle u (Finset.mem_range.mp hu)).mp hsum
      rw [hall u (Finset.mem_range.mpr hu), hnext, Nat.mul_div_cancel _ hpos]
  · rw [hlength]
    refine (hle u hu).trans (Nat.succ_le_succ ?_)
    exact Nat.div_le_div_right (Nat.le_succ _)
  · rcases Nat.lt_or_ge i tickets.length with hlt | hge
    · rw [List.getElem?_append_left hlt] at hi
      refine (hr.below i u hi).trans_le ?_
      rw [List.count_append]
      exact Nat.le_add_right ..
    · obtain ⟨rfl, rfl⟩ := hlast hge hi
      rw [hself, hround]
      exact Nat.lt_succ_self _
  · have hilt : i < tickets.length := by
      have := (List.getElem?_eq_some_iff.mp hj).1
      rw [hlength] at this
      omega
    rw [List.getElem?_append_left hilt] at hi
    rcases Nat.lt_or_ge j tickets.length with hlt | hge
    · rw [List.getElem?_append_left hlt] at hj
      exact hr.once i j u hij hi hj
    · obtain ⟨rfl, rfl⟩ := hlast hge hj
      rw [hround]
      exact hr.below i u hi

end Rounds

/-! ### The history -/

/-- What the calls of thread `t` returned. -/
def results (h : List (Event Op Bool)) (t : ℕ) : List Bool :=
  h.filterMap fun
    | .res u b => if u = t then some b else none
    | _ => none

/-- How many calls thread `t` has begun. -/
def begun (h : List (Event Op Bool)) (t : ℕ) : ℕ :=
  h.countP fun
    | .inv u _ => u = t
    | _ => false

section History

variable {h : List (Event Op Bool)} {t u : ℕ} {e : Event Op Bool}

theorem results_other (he : e.thread ≠ t) : results (h ++ [e]) t = results h t := by
  rw [results, List.filterMap_append]
  cases e with
  | inv u op => exact List.append_nil _
  | tau u => exact List.append_nil _
  | res u b =>
    have hu : u ≠ t := he
    simp [results, hu]

theorem results_inv (op : Op) : results (h ++ [.inv u op]) t = results h t := by
  rw [results, List.filterMap_append]
  exact List.append_nil _

theorem results_tau : results (h ++ [.tau u]) t = results h t := by
  rw [results, List.filterMap_append]
  exact List.append_nil _

theorem results_res (b : Bool) : results (h ++ [.res t b]) t = results h t ++ [b] := by
  simp [results]

theorem begun_le (h h' : List (Event Op Bool)) (t : ℕ) : begun h t ≤ begun (h ++ h') t := by
  rw [begun, begun, List.countP_append]
  exact Nat.le_add_right ..

theorem begun_inv (op : Op) : begun (h ++ [.inv t op]) t = begun h t + 1 := by
  simp [begun]

theorem begun_tau : begun (h ++ [.tau u]) t = begun h t := by
  rw [begun, List.countP_append]
  rfl

theorem begun_res (b : Bool) : begun (h ++ [.res u b]) t = begun h t := by
  rw [begun, List.countP_append]
  rfl

theorem begun_other (he : e.thread ≠ t) : begun (h ++ [e]) t = begun h t := by
  cases e with
  | inv u op =>
    have hu : u ≠ t := he
    simp [begun, hu]
  | tau u => exact begun_tau
  | res u b => exact begun_res b

end History

/-! ### The invariant -/

section Outline

variable {num : ℕ}

/-- The call of `u` in round `r` may return `b`, when these are the tickets. -/
def Passed (num : ℕ) (tickets : List ℕ) (u r : ℕ) (b : Bool) : Prop :=
  (r + 1) * num ≤ tickets.length ∧ (b = true ↔ tickets[(r + 1) * num - 1]? = some u)

/-- The ghost are the threads that drew the tickets. -/
structure Inv (num : ℕ) (w : World (machine num) (List ℕ)) : Prop where
  rounds : Rounds num w.ghost
  cnt : w.shared = w.ghost.length
  counted : ∀ u, w.ghost.count u ≤ begun w.events u
  returned : ∀ u r b, (results w.events u)[r]? = some b → Passed num w.ghost u r b
  separated : ∀ k t b, w.events[k]? = some (.res t b) → ∀ u < num,
    begun (w.events.take k) t ≤ begun (w.events.take k) u

/-- The tickets of thread `t` are those of its calls that returned, but for the one that it
waits with. -/
def LocalInv (num t : ℕ) (w : World (machine num) (List ℕ)) : Option Local → Prop
  | none => (results w.events t).length = w.ghost.count t ∧
      begun w.events t = (results w.events t).length
  | some .fetchAndAdd => t < num ∧ (results w.events t).length = w.ghost.count t ∧
      begun w.events t = (results w.events t).length + 1
  | some (.spin old) => w.ghost[old]? = some t ∧ old / num = (results w.events t).length ∧
      w.ghost.count t = (results w.events t).length + 1 ∧
      begun w.events t = (results w.events t).length + 1

/-- The other threads draw tickets of their own. -/
def Rely (u : ℕ) (w w' : World (machine num) (List ℕ)) : Prop :=
  ∃ l, w'.ghost = w.ghost ++ l ∧ u ∉ l

def outline (num : ℕ) : Outline (machine num) (List ℕ) where
  inv := Inv num
  loc t f w := LocalInv num t w (f.map Frame.loc)
  rely := Rely

variable {w : World (machine num) (List ℕ)} {e : Event Op Bool} {t u : ℕ} {l : List ℕ}

theorem Passed.append {tickets : List ℕ} {r : ℕ} {b : Bool} (hnum : 0 < num)
    (hp : Passed num tickets u r b) (l : List ℕ) : Passed num (tickets ++ l) u r b := by
  have hpos : 0 < (r + 1) * num := Nat.mul_pos (Nat.succ_pos r) hnum
  have hle := hp.1
  refine ⟨?_, ?_⟩
  · rw [List.length_append]
    omega
  · rw [List.getElem?_append_left (by omega)]
    exact hp.2

/-- What a step has to show for the invariant. -/
theorem Inv.record (hI : Inv num w) (hnum : 0 < num) (hr : Rounds num (w.ghost ++ l))
    (hb : ∀ u, (w.ghost ++ l).count u ≤ begun (w.events ++ [e]) u)
    (hnew : ∀ t b, e = .res t b → Passed num w.ghost t (results w.events t).length b ∧
      ∀ u < num, begun w.events t ≤ begun w.events u) :
    Inv num (w.record e (w.ghost ++ l).length (w.ghost ++ l)) := by
  refine ⟨hr, rfl, fun u => ?_, fun u r b h => ?_, fun k t b h v hv => ?_⟩
  · rw [World.record_events]
    exact hb u
  · rw [World.record_ghost]
    refine Passed.append hnum ?_ l
    rw [World.record_events] at h
    by_cases hres : ∃ b', e = .res u b'
    · obtain ⟨b', rfl⟩ := hres
      rw [results_res] at h
      rcases Nat.lt_or_ge r (results w.events u).length with hlt | hge
      · rw [List.getElem?_append_left hlt] at h
        exact hI.returned u r b h
      · have hrlt := (List.getElem?_eq_some_iff.mp h).1
        rw [List.length_append, List.length_singleton] at hrlt
        obtain rfl : r = (results w.events u).length := by omega
        rw [List.getElem?_concat_length, Option.some.injEq] at h
        exact h ▸ (hnew u b' rfl).1
    · refine hI.returned u r b ?_
      cases e with
      | inv v op => rwa [results_inv] at h
      | tau v => rwa [results_tau] at h
      | res v b' =>
        rwa [results_other fun hvu => hres ⟨b', by rw [← show v = u from hvu]⟩] at h
  · rw [World.record_events] at h ⊢
    have hk := (List.getElem?_eq_some_iff.mp h).1
    rw [List.length_append, List.length_singleton] at hk
    rcases Nat.lt_or_ge k w.events.length with hlt | hge
    · rw [List.getElem?_append_left hlt] at h
      rw [List.take_append_of_le_length hlt.le]
      exact hI.separated k t b h v hv
    · obtain rfl : k = w.events.length := by omega
      rw [List.getElem?_concat_length, Option.some.injEq] at h
      rw [List.take_left' rfl]
      exact (hnew t b h).2 v hv

/-- The rounds of the calls that returned are full. -/
theorem Inv.full (hI : Inv num w) (h : (results w.events t).length = w.ghost.count t) :
    w.ghost.count t * num ≤ w.ghost.length := by
  rw [← h]
  rcases hn : (results w.events t).length with _ | r
  · rw [Nat.zero_mul]
    exact Nat.zero_le _
  · have hlt : r < (results w.events t).length := by omega
    exact (hI.returned t r _ (List.getElem?_eq_getElem hlt)).1

/-- A ticket that is the last of its round. -/
theorem last_iff (hnum : 0 < num) (hr : Rounds num w.ghost) {old : ℕ}
    (hold : w.ghost[old]? = some t) :
    old = next num old - 1 ↔ w.ghost[(old / num + 1) * num - 1]? = some t := by
  have hnext : next num old = (old / num + 1) * num := by
    rw [next, Nat.add_mul, Nat.one_mul]
  have hdiv := Nat.div_add_mod old num
  have hmod := Nat.mod_lt old hnum
  have hmul : (old / num + 1) * num = num * (old / num) + num := by
    rw [Nat.add_mul, Nat.one_mul, Nat.mul_comm]
  rw [hnext]
  constructor
  · intro h
    rwa [← h]
  · intro h
    by_contra hne
    -- otherwise the thread has two tickets in the round
    have hlt : old < (old / num + 1) * num - 1 := by omega
    have hround := hr.once _ _ t hlt hold h
    have hsame : ((old / num + 1) * num - 1) / num ≤ old / num := by
      refine Nat.le_of_lt_succ ((Nat.div_lt_iff_lt_mul hnum).mpr ?_)
      show (old / num + 1) * num - 1 < (old / num + 1) * num
      omega
    omega

theorem outline_sound (hnum : 0 < num) : (outline num).Sound always where
  init := by
    refine ⟨[], ⟨Rounds.nil num, rfl, fun u => Nat.zero_le _, fun u r b h => ?_,
      fun k t b h => ?_⟩, fun t => ⟨rfl, rfl⟩⟩
    · cases h
    · cases h
  stable := by
    rintro w e σ g t f hI hI' hl he ⟨l, hg, hnot⟩
    have hg : g = w.ghost ++ l := hg
    subst hg
    have hcount : (w.ghost ++ l).count t = w.ghost.count t := by
      rw [List.count_append, List.count_eq_zero_of_not_mem hnot, Nat.add_zero]
    show LocalInv num t _ (f.map Frame.loc)
    have hl : LocalInv num t w (f.map Frame.loc) := hl
    generalize f.map Frame.loc = o at hl
    cases o with
    | none =>
      show (results _ t).length = _ ∧ begun _ t = (results _ t).length
      rw [World.record_events, results_other he, begun_other he, World.record_ghost, hcount]
      exact hl
    | some loc =>
      cases loc with
      | fetchAndAdd =>
        show t < num ∧ (results _ t).length = _ ∧ begun _ t = _
        rw [World.record_events, results_other he, begun_other he, World.record_ghost, hcount]
        exact hl
      | spin old =>
        obtain ⟨hold, hround, hcnt⟩ := hl
        show (w.ghost ++ l)[old]? = some t ∧ old / num = (results _ t).length ∧ _ ∧ begun _ t = _
        rw [World.record_events, results_other he, begun_other he, World.record_ghost, hcount,
          List.getElem?_append_left (List.getElem?_eq_some_iff.mp hold).1]
        exact ⟨hold, hround, hcnt⟩
  call := by
    intro w t op hI hl hadm
    have ht : t < num := of_decide_eq_true hadm
    have hrec := hI.record (l := []) (e := .inv t op) hnum
      ((List.append_nil w.ghost).symm ▸ hI.rounds)
      (fun u => by
        rw [List.append_nil]
        exact (hI.counted u).trans (begun_le _ _ u))
      fun t b h => by cases h
    rw [List.append_nil, ← hI.cnt] at hrec
    refine ⟨w.ghost, hrec, ?_, fun u _ => ⟨[], (List.append_nil _).symm, List.not_mem_nil⟩⟩
    obtain ⟨hcnt, hbegun⟩ := hl
    show t < num ∧ (results _ t).length = _ ∧ begun _ t = _
    rw [World.record_events, results_inv, World.record_ghost, begun_inv, hbegun]
    exact ⟨ht, hcnt, rfl⟩
  run := by
    intro w t f ch σ o hI hl _ hs
    have hs : step num w.shared f.loc = (σ, o) := Option.some.inj hs
    have hl : LocalInv num t w (some f.loc) := hl
    have hquiet : ∀ {e : Event Op Bool}, (∀ t b, e = .res t b →
        Passed num w.ghost t (results w.events t).length b ∧
          ∀ u < num, begun w.events t ≤ begun w.events u) →
        Inv num (w.record e w.shared w.ghost) := by
      intro e hnew
      have hrec := hI.record (l := []) (e := e) hnum ((List.append_nil w.ghost).symm ▸ hI.rounds)
        (fun u => by
          rw [List.append_nil]
          exact (hI.counted u).trans (begun_le _ _ u)) hnew
      rwa [List.append_nil, ← hI.cnt] at hrec
    cases hloc : f.loc with
    | fetchAndAdd =>
      rw [hloc] at hl hs
      cases hs
      obtain ⟨ht, hcnt, hbegun⟩ := hl
      obtain ⟨hround, hrounds⟩ := hI.rounds.draw ht (hI.full hcnt)
      have hcount : (w.ghost ++ [t]).count t = w.ghost.count t + 1 := by
        rw [List.count_append, List.count_singleton_self]
      have hrec := hI.record (l := [t]) (e := .tau t) hnum hrounds (fun u => by
          rw [List.count_append]
          by_cases hu : u = t
          · subst hu
            rw [List.count_singleton_self]
            have := begun_le w.events [.tau u] u
            omega
          · rw [List.count_singleton, if_neg (by simpa using Ne.symm hu)]
            exact (hI.counted u).trans (begun_le _ _ u))
        fun t b h => by cases h
      rw [List.length_append, List.length_singleton, ← hI.cnt] at hrec
      refine ⟨w.ghost ++ [t], hrec, ?_, fun u hu => ⟨[t], rfl, by simpa using hu⟩⟩
      show (w.ghost ++ [t])[w.shared]? = some t ∧ w.shared / num = (results _ t).length ∧
        (w.ghost ++ [t]).count t = (results _ t).length + 1 ∧
        begun _ t = (results _ t).length + 1
      rw [World.record_events]
      show _ ∧ _ = (results (w.events ++ [.tau t]) t).length ∧
        _ = (results (w.events ++ [.tau t]) t).length + 1 ∧
        begun (w.events ++ [.tau t]) t = (results (w.events ++ [.tau t]) t).length + 1
      rw [results_tau, begun_tau, hcount, hI.cnt, List.getElem?_concat_length, hround, hcnt]
      exact ⟨rfl, rfl, rfl, hcnt ▸ hbegun⟩
    | spin old =>
      rw [hloc] at hl hs
      rw [step] at hs
      by_cases hlt : w.shared < next num old
      · rw [if_pos hlt] at hs
        cases hs
        refine ⟨w.ghost, hquiet fun t b h => (by cases h), ?_,
          fun u _ => ⟨[], (List.append_nil _).symm, List.not_mem_nil⟩⟩
        show w.ghost[old]? = some t ∧ old / num = (results _ t).length ∧
          w.ghost.count t = (results _ t).length + 1 ∧ begun _ t = (results _ t).length + 1
        rw [World.record_events]
        show _ ∧ _ = (results (w.events ++ [.tau t]) t).length ∧
          _ = (results (w.events ++ [.tau t]) t).length + 1 ∧
          begun (w.events ++ [.tau t]) t = (results (w.events ++ [.tau t]) t).length + 1
        rw [results_tau, begun_tau]
        exact hl
      · rw [if_neg hlt] at hs
        cases hs
        obtain ⟨hold, hround, hcnt, hbegun⟩ := hl
        have hfull : (old / num + 1) * num ≤ w.ghost.length := by
          rw [← hI.cnt, Nat.add_mul, Nat.one_mul]
          exact not_lt.mp hlt
        refine ⟨w.ghost, hquiet fun t' b h => ?_, ?_,
          fun u _ => ⟨[], (List.append_nil _).symm, List.not_mem_nil⟩⟩
        · cases h
          rw [← hround]
          refine ⟨⟨hfull, ?_⟩, fun u hu => ?_⟩
          · rw [decide_eq_true_iff]
            exact last_iff hnum hI.rounds hold
          · -- every thread has drawn a ticket of this round
            have hle : old / num + 1 ≤ w.ghost.length / num :=
              (Nat.le_div_iff_mul_le hnum).mpr hfull
            rw [hbegun, ← hround]
            exact hle.trans ((hI.rounds.ge u hu).trans (hI.counted u))
        · show (results _ t).length = w.ghost.count t ∧ begun _ t = (results _ t).length
          rw [World.record_events]
          show (results (w.events ++ [.res t _]) t).length = _ ∧
            begun (w.events ++ [.res t _]) t = (results (w.events ++ [.res t _]) t).length
          rw [results_res, begun_res, List.length_append, List.length_singleton, hcnt]
          exact ⟨rfl, hbegun⟩

end Outline

/-- **Rounds are separated**: when a call of `wait` returns, every thread has begun as many
calls as the one that returns, and one call of every round returns true. -/
theorem wait_separates (num : ℕ) (hnum : 1 ≤ num) (c : Config (machine num))
    (hc : Reach (machine num) always c) :
    (∀ k t b, c.events[k]? = some (.res t b) → ∀ u < num,
      begun (c.events.take k) t ≤ begun (c.events.take k) u) ∧
    ∀ r, (∀ u < num, r < (results c.events u).length) →
      ∃! u, u < num ∧ (results c.events u)[r]? = some true := by
  obtain ⟨g, hI, -⟩ := (outline_sound hnum).reach hc
  have hI : Inv num ⟨c.shared, c.trace, g⟩ := hI
  refine ⟨hI.separated, fun r hall => ?_⟩
  have hget : ∀ u < num, ∃ b, (results c.events u)[r]? = some b :=
    fun u hu => ⟨_, List.getElem?_eq_getElem (hall u hu)⟩
  have hpos : 0 < (r + 1) * num := Nat.mul_pos (Nat.succ_pos r) hnum
  -- the thread that drew the last ticket of the round
  obtain ⟨b, hb⟩ := hget 0 hnum
  have hfull := (hI.returned 0 r b hb).1
  have hlt : (r + 1) * num - 1 < g.length := by
    have hfull : (r + 1) * num ≤ g.length := hfull
    omega
  have hlast : g[(r + 1) * num - 1]? = some g[(r + 1) * num - 1] := List.getElem?_eq_getElem hlt
  generalize g[(r + 1) * num - 1] = v at hlast
  have hv : v < num := hI.rounds.lt v (List.mem_of_getElem? hlast)
  obtain ⟨b', hb'⟩ := hget v hv
  have htrue : b' = true := (hI.returned v r b' hb').2.mpr hlast
  refine ⟨v, ⟨hv, htrue ▸ hb'⟩, ?_⟩
  rintro u ⟨-, hu⟩
  have hmine := (hI.returned u r true hu).2.mp rfl
  exact Option.some.inj (hmine.symm.trans hlast)

/-- Two threads pass the barrier once, the second one first. -/
def onePass : List (Action (machine 2)) :=
  [.call 0 .wait, .call 1 .wait, .run 0 (), .run 0 (), .run 1 (), .run 1 (), .run 0 ()]

theorem wait_separates_onePass :
    ∃ c, Reach (machine 2) always c ∧ (results c.events 1)[0]? = some true ∧
      (∀ k t b, c.events[k]? = some (.res t b) → ∀ u < 2,
        begun (c.events.take k) t ≤ begun (c.events.take k) u) ∧
      ∀ r, (∀ u < 2, r < (results c.events u).length) →
        ∃! u, u < 2 ∧ (results c.events u)[r]? = some true := by
  obtain ⟨c, hc, hp⟩ := Reach.exists_of_any always onePass
    (fun c => decide ((results c.events 1)[0]? = some true)) (by decide)
  exact ⟨c, hc, of_decide_eq_true hp, wait_separates 2 (by decide) c hc⟩

end SpinningBarrier

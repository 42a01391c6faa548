/-
What a call did.

A step of a run belongs to the call that its thread is in.  A kind of step `A p`, such as
"takes the item `p`", is a predicate of the step alone.

* `Pending` — a call has not returned, and its thread made internal steps only;
* `InCall` — a step belongs to a call;
* `Acts`, `Did` — a call makes a step of a kind;
* `DoneBefore` — the call that did `A p` returned before a time;
* `InOrder` — numbers of items that grow from one call to a later one.
-/
import Scal.Interleave

namespace Interleave

variable {Op Ret : Type}

section History

variable {h h' : List (Event Op Ret)} {t i j k : ℕ} {op : Op} {e : Event Op Ret}

/-- The call invoked at time `i` by thread `t` is the one that the thread is in. -/
def Pending (h : List (Event Op Ret)) (t i : ℕ) (op : Op) : Prop :=
  h[i]? = some (.inv t op) ∧
    ∀ (m : ℕ) (e : Event Op Ret), i < m → h[m]? = some e → e.thread = t → e = .tau t

/-- The step at time `k` belongs to the call invoked at time `i`. -/
def InCall (h : List (Event Op Ret)) (i k : ℕ) : Prop :=
  ∃ t op, Pending (h.take k) t i op ∧ (h[k]? = some (.tau t) ∨ ∃ r, h[k]? = some (.res t r))

theorem Pending.lt_length (hp : Pending h t i op) : i < h.length :=
  (List.getElem?_eq_some_iff.mp hp.1).choose

theorem Pending.open (hp : Pending h t i op) : Open h t i op := by
  refine ⟨hp.1, fun m r hm hr => ?_⟩
  cases hp.2 m _ hm hr rfl

theorem Pending.of_take (hp : Pending (h.take k) t i op) : h[i]? = some (.inv t op) := by
  have hi := hp.1
  rw [List.getElem?_take] at hi
  split_ifs at hi
  exact hi

theorem pending_invoke (h : List (Event Op Ret)) (t : ℕ) (op : Op) :
    Pending (h ++ [.inv t op]) t h.length op := by
  refine ⟨by simp, fun m e hm he => ?_⟩
  rw [List.getElem?_eq_none (by simp; omega)] at he
  cases he

theorem Pending.append (hp : Pending h t i op) (he : e.thread = t → e = .tau t) :
    Pending (h ++ [e]) t i op := by
  refine ⟨by rw [getElem?_append_of_lt hp.lt_length]; exact hp.1, fun m e' hm he' ht => ?_⟩
  have hlt := (List.getElem?_eq_some_iff.mp he').choose
  rw [List.length_append, List.length_singleton] at hlt
  rcases Nat.lt_or_eq_of_le (Nat.le_of_lt_succ hlt) with hlt | rfl
  · rw [getElem?_append_of_lt hlt] at he'
    exact hp.2 m e' hm he' ht
  · rw [List.getElem?_concat_length, Option.some.injEq] at he'
    subst he'
    exact he ht

/-- A thread is in one call at a time. -/
theorem Pending.unique {op' : Op} (hp : Pending h t i op) (hq : Pending h t j op') : i = j := by
  rcases Nat.lt_trichotomy i j with hlt | he | hlt
  · cases hp.2 j _ hlt hq.1 rfl
  · exact he
  · cases hq.2 i _ hlt hp.1 rfl

/-- Thread `t` is in no call. -/
def Idle (h : List (Event Op Ret)) (t : ℕ) : Prop := ∀ i op, ¬ Open h t i op

/-- Thread `t` is in the call invoked at time `i`, and in no other. -/
def Running (h : List (Event Op Ret)) (t i : ℕ) (op : Op) : Prop :=
  Pending h t i op ∧ ∀ j op', Open h t j op' → j = i

theorem Idle.other (hi : Idle h t) (he : e.thread ≠ t) : Idle (h ++ [e]) t := by
  intro i op ho
  rcases open_of_append ho with ho | ⟨-, rfl⟩
  · exact hi i op ho
  · exact he rfl

theorem Idle.invoke (hi : Idle h t) (op : Op) : Running (h ++ [.inv t op]) t h.length op := by
  refine ⟨pending_invoke h t op, fun j op' ho => ?_⟩
  rcases open_of_append ho with ho | ⟨hj, -⟩
  · exact absurd ho (hi j op')
  · exact hj

theorem Running.append (hr : Running h t i op) (he : e.thread = t → e = .tau t) :
    Running (h ++ [e]) t i op := by
  refine ⟨hr.1.append he, fun j op' ho => ?_⟩
  rcases open_of_append ho with ho | ⟨-, rfl⟩
  · exact hr.2 j op' ho
  · cases he rfl

theorem idle_return (h : List (Event Op Ret)) (t : ℕ) (r : Ret) : Idle (h ++ [.res t r]) t := by
  intro j op' ho
  rcases open_of_append ho with ho' | ⟨-, he⟩
  · exact ho.2 h.length r ho'.lt_length (by simp)
  · cases he

/-- If the calls that have not returned are those that their threads are in, then this is so
after an invocation by a thread that is in no call. -/
theorem pending_of_open_invoke {t' : ℕ} {op' : Op}
    (ho : ∀ {t i op}, Open h t i op → Pending h t i op) (hi : Idle h t)
    (hop : Open (h ++ [.inv t op]) t' j op') : Pending (h ++ [.inv t op]) t' j op' := by
  rcases open_of_append hop with hold | ⟨rfl, he⟩
  · refine (ho hold).append fun ht => ?_
    obtain rfl : t = t' := ht
    exact absurd hold (hi j op')
  · cases he
    exact pending_invoke h t op

/-- And after any other step. -/
theorem pending_of_open_step {t' : ℕ} {op' : Op}
    (ho : ∀ {t i op}, Open h t i op → Pending h t i op)
    (he : e = .tau t ∨ ∃ r, e = .res t r) (hop : Open (h ++ [e]) t' j op') :
    Pending (h ++ [e]) t' j op' := by
  rcases open_of_append hop with hold | ⟨-, hinv⟩
  · refine (ho hold).append fun ht => ?_
    rcases he with rfl | ⟨r, rfl⟩
    · obtain rfl : t = t' := ht
      rfl
    · obtain rfl : t = t' := ht
      exact absurd (by simp) (hop.2 h.length r hold.lt_length)
  · rcases he with rfl | ⟨r, rfl⟩ <;> cases hinv

theorem InCall.lt_length (hc : InCall h i k) : k < h.length := by
  obtain ⟨t, op, -, he | ⟨r, he⟩⟩ := hc
  · exact (List.getElem?_eq_some_iff.mp he).choose
  · exact (List.getElem?_eq_some_iff.mp he).choose

theorem InCall.lt (hc : InCall h i k) : i < k := by
  obtain ⟨t, op, hp, -⟩ := hc
  have := hp.lt_length
  rw [List.length_take] at this
  omega

theorem inCall_append_iff (hk : k < h.length) : InCall (h ++ h') i k ↔ InCall h i k := by
  rw [InCall, InCall, List.take_append_of_le_length (Nat.le_of_lt hk), getElem?_append_of_lt hk]

/-- The last step belongs to the call that its thread is in. -/
theorem inCall_last : InCall (h ++ [e]) i h.length ↔
    ∃ t op, Pending h t i op ∧ (e = .tau t ∨ ∃ r, e = .res t r) := by
  rw [InCall, List.take_left' rfl, List.getElem?_concat_length]
  simp only [Option.some.injEq]

/-- A call that returned makes no further step. -/
theorem InCall.not_precedes (hc : InCall h i k) : ¬ Precedes h i k := by
  rintro ⟨j, r, ⟨t', op', hi, hj, hij, -⟩, hjk⟩
  obtain ⟨t, op, ⟨hi', htau⟩, -⟩ := hc
  have hget : ∀ m < k, (h.take k)[m]? = h[m]? := fun m hm => by
    rw [List.getElem?_take, if_pos hm]
  rw [hget i (by omega), hi] at hi'
  obtain ⟨rfl, rfl⟩ : t' = t ∧ op' = op := by simpa using hi'
  cases htau j _ hij ((hget j hjk).trans hj) rfl

end History

/-! ### Calls, computed -/

section Computed

variable {Op Ret : Type} [DecidableEq Op] [DecidableEq Ret] {h : List (Event Op Ret)}

/-- The step at time `k` belongs to the call invoked at time `i`. -/
def inCall (h : List (Event Op Ret)) (i k : ℕ) : Bool :=
  match h[i]?, h[k]? with
  | some (.inv t _), some e => i < k && e.thread = t && !(e matches .inv _ _) &&
    ((h.take k).drop (i + 1)).all fun e => e.thread ≠ t || e = .tau t
  | _, _ => false

theorem inCall_sound {i k : ℕ} (hc : inCall h i k = true) : InCall h i k := by
  rw [inCall] at hc
  split at hc
  · rename_i t op e hi hk
    simp only [Bool.and_eq_true, decide_eq_true_eq, List.all_eq_true, Bool.or_eq_true] at hc
    obtain ⟨⟨⟨hik, rfl⟩, hinv⟩, hall⟩ := hc
    have hget : ∀ m < k, (h.take k)[m]? = h[m]? := fun m hm => by
      rw [List.getElem?_take, if_pos hm]
    refine ⟨e.thread, op, ⟨(hget i hik).trans hi, fun m e' hm he' hte => ?_⟩, ?_⟩
    · have hmem : e' ∈ (h.take k).drop (i + 1) := by
        refine List.mem_iff_getElem?.mpr ⟨m - (i + 1), ?_⟩
        rw [List.getElem?_drop, Nat.add_sub_cancel' (by omega)]
        exact he'
      exact (hall e' hmem).resolve_left (not_not.mpr hte)
    · rw [hk]
      cases e with
      | inv u op' => cases hinv
      | tau u => exact Or.inl rfl
      | res u r => exact Or.inr ⟨r, rfl⟩
  · cases hc

end Computed

variable {M : Machine Op Ret} {A : Moment M → Prop} {tr tr' : List (Moment M)} {m : Moment M}
  {t i j k : ℕ} {op : Op}

/-- The thread that makes a step. -/
theorem Event.thread_of_step {e : Event Op Ret} (he : e = .tau t ∨ ∃ r, e = .res t r) :
    e.thread = t := by
  rcases he with rfl | ⟨r, rfl⟩ <;> rfl

theorem Event.ofStep_cases (t : ℕ) (o : M.Local ⊕ Ret) :
    (Event.ofStep t o : Event Op Ret) = .tau t ∨
      ∃ r, (Event.ofStep t o : Event Op Ret) = .res t r := by
  cases o with
  | inl l => exact Or.inl rfl
  | inr r => exact Or.inr ⟨r, rfl⟩

/-- The events of a run. -/
def history (tr : List (Moment M)) : List (Event Op Ret) := tr.map (·.event)

@[simp] theorem history_append (tr tr' : List (Moment M)) :
    history (tr ++ tr') = history tr ++ history tr' := List.map_append

@[simp] theorem history_singleton (m : Moment M) : history [m] = [m.event] := rfl

@[simp] theorem length_history (tr : List (Moment M)) : (history tr).length = tr.length :=
  List.length_map ..

/-- The call invoked at time `i` makes a step of kind `A` at time `k`. -/
def Acts (A : Moment M → Prop) (tr : List (Moment M)) (i k : ℕ) : Prop :=
  InCall (history tr) i k ∧ ∃ m, tr[k]? = some m ∧ A m

theorem Acts.lt_length (ha : Acts A tr i k) : k < tr.length := by
  rw [← length_history tr]
  exact ha.1.lt_length

theorem acts_append_iff (hk : k < tr.length) : Acts A (tr ++ tr') i k ↔ Acts A tr i k := by
  rw [Acts, Acts, history_append, inCall_append_iff (by rwa [length_history]),
    getElem?_append_of_lt hk]

/-- The last step of a run is one of the call that its thread is in. -/
theorem acts_last : Acts A (tr ++ [m]) i tr.length ↔ A m ∧
    ∃ t op, Pending (history tr) t i op ∧ (m.event = .tau t ∨ ∃ r, m.event = .res t r) := by
  rw [Acts, history_append, history_singleton]
  nth_rewrite 1 [← length_history tr]
  rw [inCall_last, List.getElem?_concat_length, and_comm]
  simp only [Option.some.injEq, exists_eq_left']

theorem acts_concat_iff : Acts A (tr ++ [m]) i k ↔ Acts A tr i k ∨ (k = tr.length ∧ A m ∧
    ∃ t op, Pending (history tr) t i op ∧ (m.event = .tau t ∨ ∃ r, m.event = .res t r)) := by
  constructor
  · intro ha
    have hlt := ha.lt_length
    rw [List.length_append, List.length_singleton] at hlt
    rcases Nat.lt_or_eq_of_le (Nat.le_of_lt_succ hlt) with hlt | rfl
    · exact Or.inl ((acts_append_iff hlt).mp ha)
    · exact Or.inr ⟨rfl, acts_last.mp ha⟩
  · rintro (ha | ⟨rfl, ha⟩)
    · exact (acts_append_iff ha.lt_length).mpr ha
    · exact acts_last.mpr ha

/-- The step of a pending call. -/
theorem acts_step (hp : Pending (history tr) t i op)
    (he : m.event = .tau t ∨ ∃ r, m.event = .res t r) :
    Acts A (tr ++ [m]) j k ↔ Acts A tr j k ∨ (k = tr.length ∧ j = i ∧ A m) := by
  rw [acts_concat_iff]
  refine or_congr_right ⟨?_, ?_⟩
  · rintro ⟨rfl, ha, u, op', hq, he'⟩
    obtain rfl : t = u := (Event.thread_of_step he).symm.trans (Event.thread_of_step he')
    exact ⟨rfl, hq.unique hp, ha⟩
  · rintro ⟨rfl, rfl, ha⟩
    exact ⟨rfl, ha, t, op, hp, he⟩

/-- Invocations are no steps of calls. -/
theorem acts_call (he : m.event = .inv t op) : Acts A (tr ++ [m]) j k ↔ Acts A tr j k := by
  rw [acts_concat_iff, or_iff_left]
  rintro ⟨-, -, u, op', -, hm | ⟨r, hm⟩⟩
  · rw [he] at hm
    cases hm
  · rw [he] at hm
    cases hm

/-- Nor are other threads' steps. -/
theorem acts_other (hp : Pending (history tr) t i op) (he : m.event.thread ≠ t) :
    Acts A (tr ++ [m]) i k ↔ Acts A tr i k := by
  rw [acts_concat_iff, or_iff_left]
  rintro ⟨-, -, u, op', hq, hm⟩
  have hu : m.event.thread = u := Event.thread_of_step hm
  have hiu := hq.1.symm.trans hp.1
  simp only [Option.some.injEq, Event.inv.injEq] at hiu
  exact he (hu.trans hiu.1)

/-! ### What a call did to an item -/

section Items

variable {A : ℕ → Moment M → Prop} {p q : ℕ}

/-- The call invoked at time `i` did `A p`. -/
def Did (A : ℕ → Moment M → Prop) (tr : List (Moment M)) (i p : ℕ) : Prop :=
  ∃ k, Acts (A p) tr i k

theorem Did.append (hd : Did A tr i p) : Did A (tr ++ tr') i p := by
  obtain ⟨k, hk⟩ := hd
  exact ⟨k, (acts_append_iff hk.lt_length).mpr hk⟩

theorem Did.lt_length (hd : Did A tr i p) : i < tr.length := by
  obtain ⟨k, hk⟩ := hd
  exact Nat.lt_trans hk.1.lt hk.lt_length

theorem did_step (hp : Pending (history tr) t i op)
    (he : m.event = .tau t ∨ ∃ r, m.event = .res t r) :
    Did A (tr ++ [m]) j p ↔ Did A tr j p ∨ (j = i ∧ A p m) := by
  simp only [Did, acts_step hp he, exists_or, exists_eq_left]

theorem did_call (he : m.event = .inv t op) : Did A (tr ++ [m]) j p ↔ Did A tr j p := by
  simp only [Did, acts_call he]

theorem did_other (hp : Pending (history tr) t i op) (he : m.event.thread ≠ t) :
    Did A (tr ++ [m]) i p ↔ Did A tr i p := by
  simp only [Did, acts_other hp he]

/-- A call that has just been invoked did nothing yet. -/
theorem not_did_length : ¬ Did A tr tr.length p := fun hd => Nat.lt_irrefl _ hd.lt_length

/-- The call that did `A p` returned before time `k`. -/
def DoneBefore (A : ℕ → Moment M → Prop) (tr : List (Moment M)) (p k : ℕ) : Prop :=
  ∃ i, Did A tr i p ∧ Precedes (history tr) i k

theorem DoneBefore.mono (hd : DoneBefore A tr p j) (hjk : j ≤ k) : DoneBefore A tr p k := by
  obtain ⟨i, hi, n, r, hr, hn⟩ := hd
  exact ⟨i, hi, n, r, hr, Nat.lt_of_lt_of_le hn hjk⟩

/-- Calls that returned do nothing later. -/
theorem doneBefore_append_iff (hk : k ≤ tr.length) :
    DoneBefore A (tr ++ [m]) p k ↔ DoneBefore A tr p k := by
  have hpre : ∀ {i}, Precedes (history (tr ++ [m])) i k ↔ Precedes (history tr) i k := by
    intro i
    rw [history_append]
    exact precedes_append_iff (by rwa [length_history])
  constructor
  · rintro ⟨i, ⟨n, hn⟩, hi⟩
    refine ⟨i, ⟨n, ?_⟩, hpre.mp hi⟩
    rcases acts_concat_iff.mp hn with hn | ⟨-, -, u, op', hq, -⟩
    · exact hn
    · exact absurd (hpre.mp hi) hq.open.not_precedes
  · rintro ⟨i, hd, hi⟩
    exact ⟨i, hd.append, hpre.mpr hi⟩

/-- A call that returns is done. -/
theorem Did.returned (hd : Did A tr i p) (hp : Pending (history tr) t i op) {r : Ret}
    (he : m.event = .res t r) : DoneBefore A (tr ++ [m]) p (tr.length + 1) := by
  refine ⟨i, hd.append, tr.length, r, ?_, Nat.lt_succ_self _⟩
  rw [history_append, history_singleton, he, ← length_history tr]
  exact hp.open.returns

/-- Nothing else makes it done. -/
theorem doneBefore_concat (hd : DoneBefore A (tr ++ [m]) p (tr.length + 1)) :
    DoneBefore A tr p tr.length ∨ ∃ i t op r, Open (history tr) t i op ∧ m.event = .res t r ∧
      Did A (tr ++ [m]) i p := by
  obtain ⟨i, hi, j, r, hr, hj⟩ := hd
  rcases Nat.lt_or_eq_of_le (Nat.le_of_lt_succ hj) with hj | rfl
  · exact Or.inl ((doneBefore_append_iff (Nat.le_refl _)).mp ⟨i, hi, j, r, hr, hj⟩)
  · right
    rw [history_append, history_singleton] at hr
    rcases returns_append_cases hr with hr | ⟨-, t, op, he, ho⟩
    · have := hr.lt_length
      rw [length_history] at this
      exact absurd this (Nat.lt_irrefl _)
    · exact ⟨i, t, op, r, ho, he, hi⟩

theorem doneBefore_running (hr : Running (history tr) t i op) (he : m.event.thread = t)
    (hd : DoneBefore A (tr ++ [m]) p (tr.length + 1)) :
    DoneBefore A tr p tr.length ∨ (∃ r, m.event = .res t r) ∧ Did A (tr ++ [m]) i p := by
  rcases doneBefore_concat hd with hd | ⟨j, u, op', r, ho, hm, hj⟩
  · exact Or.inl hd
  · obtain rfl : u = t := by rw [← he, hm]; rfl
    obtain rfl := hr.2 j op' ho
    exact Or.inr ⟨⟨r, hm⟩, hj⟩

/-- The item `p` of a call has a smaller number than those of later calls, and the numbers
of the items of calls that returned are below `low`. -/
structure InOrder (A : ℕ → Moment M → Prop) (v : ℕ → ℕ) (low : ℕ) (tr : List (Moment M)) :
    Prop where
  once : ∀ {i j p}, Did A tr i p → Did A tr j p → i = j
  done : ∀ {p}, DoneBefore A tr p tr.length → v p < low
  order : ∀ {p q j}, DoneBefore A tr p j → Did A tr j q → v p < v q

variable {v v' : ℕ → ℕ} {low low' : ℕ}

theorem InOrder.nil (A : ℕ → Moment M → Prop) (v : ℕ → ℕ) (low : ℕ) : InOrder A v low [] where
  once h := absurd h.lt_length (Nat.not_lt_zero _)
  done h := by
    obtain ⟨i, hi, -⟩ := h
    exact absurd hi.lt_length (Nat.not_lt_zero _)
  order _ h := absurd h.lt_length (Nat.not_lt_zero _)

theorem InOrder.call (ho : InOrder A v low tr) (he : m.event = .inv t op) :
    InOrder A v low (tr ++ [m]) where
  once h h' := ho.once ((did_call he).mp h) ((did_call he).mp h')
  done h := by
    rw [List.length_append, List.length_singleton] at h
    rcases doneBefore_concat h with h | ⟨i, u, op', r, -, hm, -⟩
    · exact ho.done h
    · rw [he] at hm
      cases hm
  order h h' := by
    have hj := (did_call he).mp h'
    exact ho.order ((doneBefore_append_iff (Nat.le_of_lt hj.lt_length)).mp h) hj

/-- A call may get a new item, with a number from `low` on, and change the number of its
own, which is then still above those of earlier calls. -/
theorem InOrder.step (ho : InOrder A v low tr) (hr : Running (history tr) t i op)
    (he : m.event = .tau t ∨ ∃ r, m.event = .res t r) (hlow : low ≤ low')
    (hnew : ∀ p, A p m → (∀ j, ¬ Did A tr j p) ∧ low ≤ v' p)
    (hkeep : ∀ j q, Did A tr j q →
      v' q = v q ∨ j = i ∧ ∀ p, DoneBefore A tr p i → v p < v' q)
    (hret : ∀ r q, m.event = .res t r → Did A (tr ++ [m]) i q → v' q < low') :
    InOrder A v' low' (tr ++ [m]) := by
  have hthread : m.event.thread = t := Event.thread_of_step he
  -- the numbers of calls that returned stay
  have hold : ∀ {p k}, DoneBefore A tr p k → v' p = v p := by
    rintro p k ⟨j, hj, hjk⟩
    rcases hkeep j p hj with h | ⟨rfl, -⟩
    · exact h
    · exact absurd hjk hr.1.open.not_precedes
  refine ⟨fun {j k p} hj hk => ?_, fun {p} hp => ?_, fun {p q j} hp hq => ?_⟩
  · rcases (did_step hr.1 he).mp hj with hj | ⟨rfl, hj⟩
    · rcases (did_step hr.1 he).mp hk with hk | ⟨rfl, hk⟩
      · exact ho.once hj hk
      · exact absurd hj ((hnew p hk).1 j)
    · rcases (did_step hr.1 he).mp hk with hk | ⟨rfl, hk⟩
      · exact absurd hk ((hnew p hj).1 k)
      · rfl
  · rw [List.length_append, List.length_singleton] at hp
    rcases doneBefore_running hr hthread hp with hp | ⟨⟨r, hm⟩, hp⟩
    · rw [hold hp]
      exact Nat.lt_of_lt_of_le (ho.done hp) hlow
    · exact hret r p hm hp
  · have hle : j ≤ tr.length := by
      have := hq.lt_length
      rw [List.length_append, List.length_singleton] at this
      omega
    have hp := (doneBefore_append_iff hle).mp hp
    rw [hold hp]
    rcases (did_step hr.1 he).mp hq with hq | ⟨rfl, hq⟩
    · rcases hkeep j q hq with h | ⟨rfl, h⟩
      · rw [h]
        exact ho.order hp hq
      · exact h p hp
    · exact Nat.lt_of_lt_of_le (ho.done (hp.mono hle)) (hnew q hq).2

end Items

end Interleave

/-
The order in which items leave a queue.

An item belongs to the enqueue that makes it; a dequeue removes the item whose element it
returns.  `Makes p` and `Removes p` are the kinds of steps that do so to the item `p`.

* `Accounted` — no item is removed twice, every enqueue makes one, and every dequeue that
  returns an element removes an item that was made for it;
* `Fifo` — if an enqueue returned before another one was invoked, its item is removed first;
* `Accounted.step`, `FifoWhere.step` — what an access has to keep;
* `reversed` — two items that are removed in the wrong order, as a test of a run.
-/
import Scal.Calls
import Scal.NotLinearizable

open Linearizability

namespace Interleave

variable {α : Type} {M : Machine (BagOp α) (BagRet α)} {Makes Removes : ℕ → Moment M → Prop}
  {tr : List (Moment M)} {m : Moment M} {t i : ℕ} {op : BagOp α}

structure Accounted (Makes Removes : ℕ → Moment M → Prop) (tr : List (Moment M)) : Prop where
  once : ∀ {p i j k k' : ℕ}, Acts (Removes p) tr i k → Acts (Removes p) tr j k' → k = k'
  enqueued : ∀ {i j : ℕ} {r : Bool}, Returns (history tr) i j (.put r) → ∃ p, Did Makes tr i p
  dequeued : ∀ {i j : ℕ} {x : α}, Returns (history tr) i j (.got (some x)) →
    ∃ p ip t, Did Removes tr i p ∧ (∀ q, Did Removes tr i q → q = p) ∧ Did Makes tr ip p ∧
      (history tr)[ip]? = some (.inv t (.put x))

/-- The items of enqueues that do not overlap are removed in their order, in those cases
that `Q` tells: of the first enqueue `ia`, the second item `b`, and the dequeue `ip` that
removes it at time `k`. -/
def FifoWhere (Q : List (Moment M) → ℕ → ℕ → ℕ → ℕ → Prop)
    (Makes Removes : ℕ → Moment M → Prop) (tr : List (Moment M)) : Prop :=
  ∀ ia ib ip a b k, Did Makes tr ia a → Did Makes tr ib b → Precedes (history tr) ia ib →
    Acts (Removes b) tr ip k → Q tr ia b ip k → ∃ k' < k, ∃ j, Acts (Removes a) tr j k'

abbrev Fifo (Makes Removes : ℕ → Moment M → Prop) (tr : List (Moment M)) : Prop :=
  FifoWhere (fun _ _ _ _ _ => True) Makes Removes tr

theorem Accounted.nil (Makes Removes : ℕ → Moment M → Prop) : Accounted Makes Removes [] where
  once h := absurd h.lt_length (Nat.not_lt_zero _)
  enqueued h := absurd h.lt_length (Nat.not_lt_zero _)
  dequeued h := absurd h.lt_length (Nat.not_lt_zero _)

theorem FifoWhere.nil (Q : List (Moment M) → ℕ → ℕ → ℕ → ℕ → Prop)
    (Makes Removes : ℕ → Moment M → Prop) : FifoWhere Q Makes Removes [] :=
  fun _ _ _ _ _ _ h => absurd h.lt_length (Nat.not_lt_zero _)

theorem Accounted.call (ha : Accounted Makes Removes tr) (he : m.event = .inv t op) :
    Accounted Makes Removes (tr ++ [m]) where
  once h h' := ha.once ((acts_call he).mp h) ((acts_call he).mp h')
  enqueued h := by
    rw [history_append, history_singleton, he] at h
    rcases returns_append_cases h with h | ⟨-, u, op', he', -⟩
    · exact (ha.enqueued h).imp fun _ hp => hp.append
    · cases he'
  dequeued h := by
    rw [history_append, history_singleton, he] at h
    rcases returns_append_cases h with h | ⟨-, u, op', he', -⟩
    · obtain ⟨p, ip, u, hp, hq, hmade, hput⟩ := ha.dequeued h
      refine ⟨p, ip, u, hp.append, fun q h => hq q ((did_call he).mp h), hmade.append, ?_⟩
      rw [history_append, getElem?_append_of_lt]
      · exact hput
      · rw [length_history]
        exact hmade.lt_length
    · cases he'

/-- An access of a pending call removes nothing that was removed before, and when the call
returns it has made an item, or removed one for what it returns. -/
theorem Accounted.step (ha : Accounted Makes Removes tr) (hr : Running (history tr) t i op)
    (he : m.event = .tau t ∨ ∃ r, m.event = .res t r)
    (hnew : ∀ p, Removes p m → ∀ j, ¬ Did Removes tr j p)
    (hput : ∀ r, m.event = .res t (.put r) → ∃ p, Did Makes tr i p)
    (hgot : ∀ x, m.event = .res t (.got (some x)) → (∀ q, ¬ Removes q m) ∧
      ∃ p ip u, Did Removes tr i p ∧ (∀ q, Did Removes tr i q → q = p) ∧ Did Makes tr ip p ∧
        (history tr)[ip]? = some (.inv u (.put x))) :
    Accounted Makes Removes (tr ++ [m]) where
  once {p i j k k'} h h' := by
    rcases (acts_step hr.1 he).mp h with h | ⟨hk, -, hm⟩
    · rcases (acts_step hr.1 he).mp h' with h' | ⟨-, -, hm⟩
      · exact ha.once h h'
      · exact absurd ⟨k, h⟩ (hnew p hm i)
    · rcases (acts_step hr.1 he).mp h' with h' | ⟨hk', -, -⟩
      · exact absurd ⟨k', h'⟩ (hnew p hm j)
      · exact hk.trans hk'.symm
  enqueued {i' j r} h := by
    rw [history_append, history_singleton] at h
    rcases returns_append_cases h with h | ⟨-, u, op', he', ho⟩
    · exact (ha.enqueued h).imp fun _ hp => hp.append
    · obtain rfl : t = u := (Event.thread_of_step he).symm.trans (by rw [he']; rfl)
      obtain rfl := hr.2 i' op' ho
      exact (hput r he').imp fun _ hp => hp.append
  dequeued {i' j x} h := by
    rw [history_append, history_singleton] at h
    have hold : ∀ {p ip u}, Did Makes tr ip p → (history tr)[ip]? = some (.inv u (.put x)) →
        (history tr ++ [m.event])[ip]? = some (.inv u (.put x)) := by
      intro p ip u hmade hinv
      rw [getElem?_append_of_lt]
      · exact hinv
      · rw [length_history]
        exact hmade.lt_length
    rcases returns_append_cases h with h | ⟨-, u, op', he', ho⟩
    · obtain ⟨p, ip, u, hp, hq, hmade, hinv⟩ := ha.dequeued h
      refine ⟨p, ip, u, hp.append, fun q hd => ?_, hmade.append, ?_⟩
      · -- a call that returned removes nothing more
        rcases (did_step hr.1 he).mp hd with hd | ⟨rfl, -⟩
        · exact hq q hd
        · exact absurd h hr.1.open.not_returns
      · rw [history_append]
        exact hold hmade hinv
    · obtain rfl : t = u := (Event.thread_of_step he).symm.trans (by rw [he']; rfl)
      obtain rfl := hr.2 i' op' ho
      obtain ⟨hnone, p, ip, v, hp, hq, hmade, hinv⟩ := hgot x he'
      refine ⟨p, ip, v, hp.append, fun q hd => ?_, hmade.append, ?_⟩
      · rcases (did_step hr.1 he).mp hd with hd | ⟨-, hm⟩
        · exact hq q hd
        · exact absurd hm (hnone q)
      · rw [history_append]
        exact hold hmade hinv

variable {Q : List (Moment M) → ℕ → ℕ → ℕ → ℕ → Prop}

theorem FifoWhere.call (hf : FifoWhere Q Makes Removes tr) (he : m.event = .inv t op)
    (hQ : ∀ ia b ip k, ip < tr.length → k < tr.length → Q (tr ++ [m]) ia b ip k →
      Q tr ia b ip k) : FifoWhere Q Makes Removes (tr ++ [m]) := by
  intro ia ib ip a b k ha hb hab hk hq
  have hb := (did_call he).mp hb
  have hk := (acts_call he).mp hk
  rw [history_append] at hab
  have hab := (precedes_append_iff (by rw [length_history]; exact hb.lt_length.le)).mp hab
  obtain ⟨k', hk', j, hj⟩ := hf ia ib ip a b k ((did_call he).mp ha) hb hab hk
    (hQ ia b ip k (hk.1.lt.trans hk.lt_length) hk.lt_length hq)
  exact ⟨k', hk', j, (acts_call he).mpr hj⟩

/-- An access of a pending call removes an item only when those of earlier enqueues are
removed. -/
theorem FifoWhere.step (hf : FifoWhere Q Makes Removes tr) (hr : Running (history tr) t i op)
    (he : m.event = .tau t ∨ ∃ r, m.event = .res t r)
    (hQ : ∀ ia b ip k, ip < tr.length → k < tr.length → Q (tr ++ [m]) ia b ip k →
      Q tr ia b ip k)
    (hnew : ∀ p, Makes p m → ¬ Removes p m ∧ ∀ j, ¬ Did Removes tr j p)
    (hremove : ∀ b, Removes b m → ∀ ia ib a, Did Makes tr ia a → Did Makes tr ib b →
      Precedes (history tr) ia ib → Q (tr ++ [m]) ia b i tr.length →
        ∃ j, Did Removes tr j a) :
    FifoWhere Q Makes Removes (tr ++ [m]) := by
  intro ia ib ip a b k ha hb hab hk hq
  obtain ⟨n, hn⟩ := hb
  have hlt : ib < tr.length := by
    have h1 := hn.1.lt
    have h2 := hn.lt_length
    rw [List.length_append, List.length_singleton] at h2
    omega
  rw [history_append] at hab
  have hab := (precedes_append_iff (by rw [length_history]; exact hlt.le)).mp hab
  have ha : Did Makes tr ia a := by
    rcases (did_step hr.1 he).mp ha with ha | ⟨rfl, -⟩
    · exact ha
    · exact absurd hab hr.1.open.not_precedes
  rcases (did_step hr.1 he).mp ⟨n, hn⟩ with hb | ⟨-, hb⟩
  · rcases (acts_step hr.1 he).mp hk with hk | ⟨rfl, rfl, hm⟩
    · have hq := hQ ia b ip k (hk.1.lt.trans hk.lt_length) hk.lt_length hq
      obtain ⟨k', hk', j, hj⟩ := hf ia ib ip a b k ha hb hab hk hq
      exact ⟨k', hk', j, (acts_append_iff hj.lt_length).mpr hj⟩
    · obtain ⟨j, k', hj⟩ := hremove b hm ia ib a ha hb hab hq
      exact ⟨k', hj.lt_length, j, (acts_append_iff hj.lt_length).mpr hj⟩
  · -- an item that is made in this step was not removed
    obtain ⟨hnot, hnever⟩ := hnew b hb
    rcases (acts_step hr.1 he).mp hk with hk | ⟨-, -, hm⟩
    · exact absurd ⟨k, hk⟩ (hnever ip)
    · exact absurd hm hnot

/-! ### Reversed items, computed -/

section Computed

variable [DecidableEq α] [∀ p (m : Moment M), Decidable (Makes p m)]
  [∀ p (m : Moment M), Decidable (Removes p m)]

/-- The call invoked at time `i` makes a step of the kind `A` at time `k`. -/
def acts (A : Moment M → Prop) [∀ m, Decidable (A m)] (tr : List (Moment M)) (i k : ℕ) : Bool :=
  inCall (history tr) i k && tr[k]?.any fun m => A m

omit [∀ p (m : Moment M), Decidable (Makes p m)] [∀ p (m : Moment M), Decidable (Removes p m)] in
theorem acts_sound {A : Moment M → Prop} [∀ m, Decidable (A m)] {k : ℕ}
    (h : acts A tr i k = true) : Acts A tr i k := by
  rw [acts, Bool.and_eq_true, Option.any_eq_true] at h
  obtain ⟨hc, m, hm, hA⟩ := h
  exact ⟨inCall_sound hc, m, hm, of_decide_eq_true hA⟩

/-- The enqueue `ia` makes the item `a` and returns before the enqueue `ib`, which makes the
item `b`; and that is removed at time `k`, when `a` was not. -/
def reversed (Makes Removes : ℕ → Moment M → Prop) [∀ p (m : Moment M), Decidable (Makes p m)]
    [∀ p (m : Moment M), Decidable (Removes p m)] (tr : List (Moment M))
    (ia ja a ib jb b ip k : ℕ) : Bool :=
  acts (Makes a) tr ia ja && acts (Makes b) tr ib jb &&
    (response (history tr) ia).any (fun r => r.1 < ib) && acts (Removes b) tr ip k &&
    (tr.take k).all fun m => ¬ Removes a m

theorem not_fifo_of_reversed {ia ja a ib jb b ip k : ℕ}
    (h : reversed Makes Removes tr ia ja a ib jb b ip k = true) : ¬ Fifo Makes Removes tr := by
  intro hf
  simp only [reversed, Bool.and_eq_true, Option.any_eq_true, List.all_eq_true] at h
  obtain ⟨⟨⟨⟨ha, hb⟩, ⟨j, r⟩, hr, hj⟩, hk⟩, hnot⟩ := h
  obtain ⟨k', hk', j', hc, m, hm, hrem⟩ := hf ia ib ip a b k ⟨ja, acts_sound ha⟩
    ⟨jb, acts_sound hb⟩ ⟨j, r, returns_of_response hr, of_decide_eq_true hj⟩ (acts_sound hk)
    trivial
  have hmem : m ∈ tr.take k := by
    refine List.mem_iff_getElem?.mpr ⟨k', ?_⟩
    rw [List.getElem?_take, if_pos hk']
    exact hm
  exact absurd hrem (of_decide_eq_true (hnot m hmem))

end Computed

end Interleave

/-
The words of the item slots of the unbounded-size k-FIFO queue.

`enqueue` and `dequeue` write a slot with the counter they read, plus one.  `committed` takes an
item back with the counter zero, and that is the word with which the slot began.

* `step_slot` — all other accesses leave a slot as it is or increase its counter;
* `slots_neverReturn_iff` — in a run no slot gets a word back, if and only if no `committed`
  takes an item back (`noUndo`);
* `slot_returns_undone` — a run in which one does.
-/
import Scal.UnboundedSizeKFifoBag
import Scal.Recurrence

open Interleave Linearizability

namespace UnboundedSizeKFifo

variable {α : Type} [DecidableEq α] {k : ℕ}

/-- The words that slot `i` holds along a run. -/
def slotWords (c : Config (machine k α)) (i : ℕ × ℕ) : List (AtomicValue (Option α)) :=
  c.states.map (·.slot i)

/-- A slot gets back a word that it has left. -/
def SlotReturns (c : Config (machine k α)) : Prop :=
  ∃ i : ℕ × ℕ, i.2 < k ∧ ¬ NeverReturns (slotWords c i)

/-- A compare-and-swap by which `committed` takes an item back fails. -/
def noUndo (_ : ℕ) (σ : Shared α) : Local α → Bool
  | .comUndo _ slot new _ => σ.slot slot ≠ new
  | _ => true

/-! ### Counters -/

section Counters

omit [DecidableEq α]

variable {u v w : AtomicValue (Option α)} {σ : Shared α} {i j : ℕ × ℕ}

/-- The word `w`, or one with a smaller counter. -/
def UpTo (v w : AtomicValue (Option α)) : Prop := v = w ∨ v.aba < w.aba

theorem UpTo.trans (huv : UpTo u v) (hvw : UpTo v w) : UpTo u w := by
  rcases huv with rfl | huv
  · exact hvw
  · rcases hvw with rfl | hvw
    · exact Or.inr huv
    · exact Or.inr (huv.trans hvw)

theorem UpTo.antisymm (hvw : UpTo v w) (hwv : UpTo w v) : v = w := by
  rcases hvw with h | hvw
  · exact h
  · rcases hwv with h | hwv
    · exact h.symm
    · exact absurd hvw hwv.asymm

/-- A slot is written with a larger counter. -/
theorem upTo_setSlot (h : (σ.slot i).aba < w.aba) (j : ℕ × ℕ) :
    UpTo (σ.slot j) ((σ.setSlot i w).slot j) := by
  rw [slot_setSlot]
  by_cases hj : j = i
  · subst hj
    rw [Function.update_self]
    exact Or.inr h
  · rw [Function.update_of_ne hj]
    exact Or.inl rfl

theorem slot_delete (s : ℕ) : (σ.delete s).slot = σ.slot := by
  funext i
  by_cases h : i.1 = s
  · subst h; simp [Shared.slot, Shared.delete]
  · simp [Shared.slot, Shared.delete, h]

theorem slot_ksegmentNew (h : σ.segment σ.alloc = .new) : σ.ksegmentNew.slot = σ.slot := by
  have hseg : σ.ksegmentNew.segment = σ.segment := by
    rw [Shared.ksegmentNew, ← h]
    exact Function.update_eq_self ..
  funext i
  rw [Shared.slot, Shared.slot, hseg]

end Counters

/-! ### One access -/

/-- **An access leaves a slot as it is or increases its counter**, if it takes no item back. -/
theorem step_slot {t random : ℕ} {σ : Shared α} {l : Local α} (hok : noUndo t σ l)
    (hfresh : σ.segment σ.alloc = .new) (i : ℕ × ℕ) :
    UpTo (σ.slot i) ((step k random σ l).1.slot i) := by
  have hsame : ∀ {σ' : Shared α}, σ'.slot = σ.slot → UpTo (σ.slot i) (σ'.slot i) :=
    fun h => Or.inl (congrFun h i).symm
  cases l with
  | deqTake h found =>
    rw [step]
    split_ifs with hcas
    · refine upTo_setSlot ?_ i
      rw [hcas]
      exact Nat.lt_succ_self _
    · exact hsame rfl
  | enqInsert x tl found =>
    simp only [step]
    split_ifs with hcas
    · refine upTo_setSlot ?_ i
      rw [hcas]
      exact Nat.lt_succ_self _
    · exact hsame rfl
  | comUndo x slot new n =>
    have hne : σ.slot slot ≠ new := of_decide_eq_true hok
    rw [step, if_neg hne]
    exact hsame rfl
  | headDelete h hn => exact hsame (slot_delete _)
  | tailNew c tl nx => exact hsame (slot_ksegmentNew hfresh)
  | tailLink c tl nx s =>
    rw [step]
    split_ifs
    · exact hsame (slot_setNext ..)
    · exact hsame rfl
  | deqCheck h tl found =>
    cases found <;> simp only [step] <;> split_ifs <;> exact hsame rfl
  | enqCheck x tl found =>
    cases found <;> simp only [step] <;> split_ifs <;> exact hsame rfl
  | _ =>
    simp only [step]
    first
      | exact hsame rfl
      | split_ifs <;> exact hsame rfl

/-! ### What `committed` takes back -/

/-- The slots that a call of `enqueue` deals with exist, and `new_item` has an item. -/
def Local.Writes (k : ℕ) : Local α → Prop
  | .enqCheck _ _ (some found) | .enqInsert _ _ found => found.index < k
  | .comSlot x slot new _ | .comHead x slot new _ | .comDeleted x slot new _ _
  | .comBump x slot new _ _ | .comDeletedAgain x slot new _ | .comUndo x slot new _ =>
    slot.2 < k ∧ new.value = some x
  | _ => True

omit [DecidableEq α] in
theorem writes_resume (c : Caller α) : c.resume.Writes k := by
  cases c with
  | enqueue x => trivial
  | dequeue h found => trivial

theorem writes_step (hk : 0 < k) {random : ℕ} {σ σ' : Shared α} {l l' : Local α}
    (hl : l.Writes k) (h : step k random σ l = (σ', .inl l')) : l'.Writes k := by
  cases l with
  | enqFind x tl r j =>
    simp only [step] at h
    split_ifs at h <;> cases h
    · exact Nat.mod_lt _ hk
    · trivial
    · trivial
  | enqCheck x tl found =>
    cases found <;> simp only [step] at h <;> split_ifs at h <;> cases h
    · trivial
    · trivial
    · exact hl
    · trivial
  | enqInsert x tl found =>
    simp only [step] at h
    split_ifs at h <;> cases h
    · exact ⟨hl, rfl⟩
    · trivial
  | comSlot x slot new n =>
    simp only [step] at h
    split_ifs at h <;> cases h
    exact hl
  | comHead x slot new n =>
    cases h
    exact hl
  | comDeleted x slot new n hc =>
    simp only [step] at h
    split_ifs at h <;> cases h <;> exact hl
  | comBump x slot new n hc =>
    simp only [step] at h
    split_ifs at h <;> cases h
    exact hl
  | comDeletedAgain x slot new n =>
    simp only [step] at h
    split_ifs at h <;> cases h
    exact hl
  | comUndo x slot new n =>
    simp only [step] at h
    split_ifs at h <;> cases h
    trivial
  | deqCheck h tl found =>
    cases found <;> simp only [step] at h <;> split_ifs at h <;> cases h <;> trivial
  | _ =>
    simp only [step] at h
    first
      | cases h; trivial
      | split_ifs at h <;> cases h <;> first | trivial | exact writes_resume _

/-! ### All runs -/

theorem undoOwn_of_noUndo {t : ℕ} {σ : Shared α} {l : Local α} (h : noUndo t σ l = true) :
    undoOwn t σ l = true := by
  cases l with
  | comUndo x slot new n => exact Bool.or_eq_true_iff.mpr (Or.inl h)
  | _ => rfl

theorem undo_of_noUndo {t : ℕ} {σ : Shared α} {l : Local α}
    (h : noUndo t σ l = false) :
    ∃ x slot new n, l = .comUndo x slot new n ∧ σ.slot slot = new := by
  cases l with
  | comUndo x slot new n => exact ⟨x, slot, new, n, rfl, by simpa [noUndo] using h⟩
  | _ => cases h

variable {c c' : Config (machine k α)}

/-- Without an item that is taken back, the counters of the slots grow. -/
theorem slotWords_pairwise (hk : 0 < k) (hc : Reach (machine k α) noUndo c) (i : ℕ × ℕ) :
    (slotWords c i).Pairwise UpTo := by
  have hstates : c.states.Pairwise fun σ σ' => UpTo (σ.slot i) (σ'.slot i) := by
    refine hc.pairwise_states (fun _ => Or.inl rfl) (fun _ _ _ => UpTo.trans) ?_
    intro c t random f σ o hc _ hok hs
    obtain ⟨g, hinv, -⟩ := (outline_sound hk).reach (hc.mono fun _ _ _ => undoOwn_of_noUndo)
    have hslot : UpTo (c.shared.slot i) ((step k random c.shared f.loc).1.slot i) :=
      step_slot hok (hinv.fresh _ le_rfl) i
    rwa [Option.some.inj hs] at hslot
  exact List.pairwise_map.mpr hstates

/-- **What `committed` takes back**, it replaces by the word with which the slot began. -/
theorem not_neverReturns_undo (hk : 0 < k) {ok : ℕ → Shared α → Local α → Bool}
    (hc : Reach (machine k α) ok c) {a : Action (machine k α)} (ha : c.allows noUndo a = false)
    (h : c.next a = some c') : SlotReturns c' := by
  cases a with
  | call t op => cases ha
  | run t random =>
    obtain ⟨f, σ, o, hf, hs, rfl⟩ := Config.next_run h
    have hw : f.loc.Writes k := by
      refine hc.local_of_start (fun t j op => ?_) (fun hl hs => ?_) hf
      · cases op <;> trivial
      · exact writes_step hk hl (Option.some.inj hs)
    have ha : noUndo t c.shared f.loc = false := by
      rw [Config.allows, hf] at ha
      exact ha
    obtain ⟨x, slot, new, n, hl, hcas⟩ := undo_of_noUndo ha
    rw [hl] at hs hw
    obtain ⟨hslot, hnew⟩ := hw
    have hnull : σ.slot slot = ⟨none, 0⟩ := by
      have hs := Option.some.inj hs
      rw [step, if_pos hcas] at hs
      have hσ : c.shared.setSlot slot ⟨none, 0⟩ = σ := congrArg Prod.fst hs
      rw [← hσ, slot_setSlot, Function.update_self]
    refine ⟨slot, hslot, ?_⟩
    rw [slotWords, Config.states_record, List.map_append, List.map_singleton, hnull]
    -- the slot began with this word, and holds another one before the step
    refine not_neverReturns_concat (v := new) ?_ List.mem_cons_self ?_
    · rw [List.getLast?_map, hc.getLast_states, Option.map_some, hcas]
    · rintro rfl
      cases hnew

/-- **No slot gets a word back**, if and only if no item is taken back. -/
theorem slots_neverReturn_iff (hk : 0 < k) {as : List (Action (machine k α))}
    (h : (Config.init (machine k α)).exec always as = some c) :
    (∀ i : ℕ × ℕ, i.2 < k → NeverReturns (slotWords c i)) ↔
      (Config.init (machine k α)).exec noUndo as = some c := by
  constructor
  · intro hnever
    have hbad : ∀ {c c' : Config (machine k α)} {a : Action (machine k α)},
        Reach (machine k α) noUndo c → c.allows noUndo a = false → c.next a = some c' →
        SlotReturns c' := fun hc ha h => not_neverReturns_undo hk hc ha h
    refine Reach.exec_of_not hbad ?_ as .init h ?_
    · rintro c c' as h ⟨i, hi, hreturns⟩
      exact ⟨i, hi, fun hn => hreturns (hn.of_prefix ((Config.exec_states as h).map _))⟩
    · rintro ⟨i, hi, hreturns⟩
      exact hreturns (hnever i hi)
  · intro hok i _
    exact .of_pairwise (fun _ _ => UpTo.antisymm) (slotWords_pairwise hk (Reach.exec as .init hok) i)

/-- Thread 0 inserts an item, and thread 1 takes it. -/
def takenOnce : List (Action (machine 2 ℕ)) :=
  List.flatten [[.call 0 (.put 5)], turns 0 0 9, [.call 1 .get], turns 1 0 11]

theorem slots_neverReturn_takenOnce :
    ∃ c : Config (machine 2 ℕ), c.shared.slot (1, 0) = ⟨none, 2⟩ ∧
      ∀ i : ℕ × ℕ, i.2 < 2 → NeverReturns (slotWords c i) := by
  have h : ((Config.init (machine 2 ℕ)).exec always takenOnce).isSome = true := by decide
  refine ⟨((Config.init (machine 2 ℕ)).exec always takenOnce).get h, rfl, ?_⟩
  exact (slots_neverReturn_iff (by decide) (Option.some_get h).symm).mpr rfl

set_option maxRecDepth 2000 in
/-- In `undone` the slot that thread 0 used gets back the word without an item, and then the one
with the item. -/
theorem slot_returns_undone : ∃ c : Config (machine 2 ℕ), Reach (machine 2 ℕ) always c ∧
    ¬ ∀ i : ℕ × ℕ, i.2 < 2 → NeverReturns (slotWords c i) := by
  have h : ((Config.init (machine 2 ℕ)).exec always undone).isSome = true := by decide
  have hbetween : (slotWords (((Config.init (machine 2 ℕ)).exec always undone).get h) (1, 0))[6]? =
      some ⟨some 5, 1⟩ := rfl
  refine ⟨_, Reach.schedule undone h, fun hnever => ?_⟩
  have hword := hnever (1, 0) (by decide) 0 6 22 ⟨none, 0⟩ (by decide) (by decide) rfl rfl
  rw [hbetween] at hword
  cases hword

end UnboundedSizeKFifo

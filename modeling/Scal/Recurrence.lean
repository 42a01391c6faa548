/-
What returns along a run.

* `NeverReturns` — a value of a list that was left does not come back, as in a list that is
  ordered (`NeverReturns.of_pairwise`);
* `Config.states` — the shared states of a run, one after the other;
* `Reach.pairwise_states` — a preorder that every access respects orders the states of a run;
* `Reach.local_of_start` — what holds of the local states of a call, whatever the memory is;
* `Reach.exec_of_not` — a run that does not end in a bad state satisfied `ok`, if every access
  that violates `ok` is bad for good.
-/
import Scal.Interleave
import Mathlib.Data.List.Pairwise
import Mathlib.Order.Nat

namespace Interleave

/-! ### Lists -/

section Lists

variable {β : Type} {l l' : List β}

/-- Between two moments with the same value there is no other one. -/
def NeverReturns (l : List β) : Prop :=
  ∀ (a b c : ℕ) (w : β), a < b → b < c → l[a]? = some w → l[c]? = some w → l[b]? = some w

theorem NeverReturns.of_pairwise {r : β → β → Prop} (hanti : ∀ v w, r v w → r w v → v = w)
    (h : l.Pairwise r) : NeverReturns l := by
  intro a b c w hab hbc ha hc
  obtain ⟨hcl, hc⟩ := List.getElem?_eq_some_iff.mp hc
  obtain ⟨hal, ha⟩ := List.getElem?_eq_some_iff.mp ha
  have hbl : b < l.length := hbc.trans hcl
  have hwb : r w l[b] := ha ▸ List.pairwise_iff_getElem.mp h a b hal hbl hab
  have hbw : r l[b] w := hc ▸ List.pairwise_iff_getElem.mp h b c hbl hcl hbc
  rw [List.getElem?_eq_getElem hbl, hanti w l[b] hwb hbw]

theorem NeverReturns.of_prefix (hl : NeverReturns l') (h : l <+: l') : NeverReturns l := by
  obtain ⟨s, rfl⟩ := h
  intro a b c w hab hbc ha hc
  have hcl : c < l.length := (List.getElem?_eq_some_iff.mp hc).choose
  have hkeep : ∀ {m : ℕ}, m ≤ c → (l ++ s)[m]? = l[m]? :=
    fun hm => List.getElem?_append_left (hm.trans_lt hcl)
  rw [← hkeep hbc.le]
  refine hl a b c w hab hbc ?_ ?_
  · rw [hkeep (hab.trans hbc).le, ha]
  · rw [hkeep le_rfl, hc]

/-- The list comes back to `w` after its last value. -/
theorem not_neverReturns_concat {v w : β} (hlast : l.getLast? = some v) (hw : w ∈ l) (hne : v ≠ w) :
    ¬ NeverReturns (l ++ [w]) := by
  intro h
  obtain ⟨a, ha, haw⟩ := List.getElem_of_mem hw
  rw [List.getLast?_eq_getElem?] at hlast
  have hab : a ≠ l.length - 1 := by
    rintro rfl
    rw [List.getElem?_eq_getElem ha, haw] at hlast
    exact hne (Option.some.inj hlast).symm
  have hb := h a (l.length - 1) l.length w (by omega) (by omega)
    (by rw [List.getElem?_append_left ha, List.getElem?_eq_getElem ha, haw])
    List.getElem?_concat_length
  rw [List.getElem?_append_left (by omega), hlast] at hb
  exact hne (Option.some.inj hb)

end Lists

/-! ### The states of a run -/

variable {Op Ret : Type} {M : Machine Op Ret}

/-- The shared states, from the initial one to that of `c`. -/
def Config.states (c : Config M) : List M.Shared := M.init :: c.trace.map (·.after)

theorem Config.states_record (c : Config M) (t : ℕ) (e : Event Op Ret) (σ : M.Shared)
    (f : Option (Frame M)) : (c.record t e σ f).states = c.states ++ [σ] := by
  simp [Config.states, Config.record]

theorem Config.next_states {c c' : Config M} {a : Action M} (h : c.next a = some c') :
    c'.states = c.states ++ [c'.shared] := by
  cases a with
  | call t op =>
    obtain ⟨-, -, rfl⟩ := Config.next_call h
    exact Config.states_record ..
  | run t ch =>
    obtain ⟨f, σ, o, -, -, rfl⟩ := Config.next_run h
    exact Config.states_record ..

theorem Config.exec_states {ok : ℕ → M.Shared → M.Local → Bool} :
    ∀ (as : List (Action M)) {c c' : Config M}, c.exec ok as = some c' → c.states <+: c'.states := by
  intro as
  induction as with
  | nil =>
    intro c c' h
    obtain rfl : c = c' := by simpa [Config.exec] using h
    exact List.prefix_refl _
  | cons a as ih =>
    intro c c' h
    rw [Config.exec, Option.ite_none_right_eq_some, Option.bind_eq_some_iff] at h
    obtain ⟨-, d, hd, h⟩ := h
    have hprefix : c.states <+: d.states := by
      rw [Config.next_states hd]
      exact List.prefix_append ..
    exact hprefix.trans (ih h)

section Runs

variable {ok : ℕ → M.Shared → M.Local → Bool} {c : Config M}

theorem Reach.mono {ok' : ℕ → M.Shared → M.Local → Bool}
    (h : ∀ t σ l, ok t σ l = true → ok' t σ l = true) (hc : Reach M ok c) : Reach M ok' c := by
  induction hc with
  | init => exact .init
  | call _ hn ih => exact ih.call hn
  | run _ hf hok hn ih => exact ih.run hf (h _ _ _ hok) hn

theorem Reach.getLast_states (hc : Reach M ok c) : c.states.getLast? = some c.shared := by
  cases hc with
  | init => rfl
  | call _ h => rw [Config.next_states h, List.getLast?_concat]
  | run _ _ _ h => rw [Config.next_states h, List.getLast?_concat]

/-- **The states of a run are ordered** by every preorder that its accesses respect. -/
theorem Reach.pairwise_states {R : M.Shared → M.Shared → Prop} (hrefl : ∀ σ, R σ σ)
    (htrans : ∀ σ σ' σ'', R σ σ' → R σ' σ'' → R σ σ'')
    (hstep : ∀ {c : Config M} {t : ℕ} {ch : M.Choice} {f : Frame M} {σ : M.Shared}
      {o : M.Local ⊕ Ret}, Reach M ok c → c.frames t = some f → ok t c.shared f.loc →
      M.step t ch c.shared f.loc = some (σ, o) → R c.shared σ)
    (hc : Reach M ok c) : c.states.Pairwise R := by
  -- the last state is above all
  suffices h : c.states.Pairwise R ∧ ∀ σ ∈ c.states, R σ c.shared from h.1
  have hadd : ∀ {c c' : Config M} {a : Action M}, c.next a = some c' → R c.shared c'.shared →
      (c.states.Pairwise R ∧ ∀ σ ∈ c.states, R σ c.shared) →
      c'.states.Pairwise R ∧ ∀ σ ∈ c'.states, R σ c'.shared := by
    intro c c' a hnext hr ⟨hpair, hlast⟩
    have hall : ∀ σ ∈ c.states, R σ c'.shared := fun σ hσ => htrans _ _ _ (hlast σ hσ) hr
    rw [Config.next_states hnext]
    constructor
    · rw [List.pairwise_append]
      refine ⟨hpair, List.pairwise_singleton .., fun σ hσ σ' hσ' => ?_⟩
      rw [List.mem_singleton.mp hσ']
      exact hall σ hσ
    · intro σ hσ
      rcases List.mem_append.mp hσ with hσ | hσ
      · exact hall σ hσ
      · rw [List.mem_singleton.mp hσ]
        exact hrefl _
  induction hc with
  | init =>
    refine ⟨List.pairwise_singleton .., fun σ hσ => ?_⟩
    rw [List.mem_singleton.mp hσ]
    exact hrefl _
  | call _ h ih =>
    refine hadd h ?_ ih
    obtain ⟨-, -, rfl⟩ := Config.next_call h
    exact hrefl _
  | run hc hf hok h ih =>
    refine hadd h ?_ ih
    obtain ⟨f', σ, o, hf', hs, rfl⟩ := Config.next_run h
    rw [hf, Option.some.injEq] at hf'
    exact hstep hc hf hok (hf' ▸ hs)

/-- A property of local states that calls begin with, and that every access keeps. -/
theorem Reach.local_of_start {p : M.Local → Prop} (hstart : ∀ t i op, p (M.start t i op))
    (hstep : ∀ {t : ℕ} {ch : M.Choice} {σ σ' : M.Shared} {l l' : M.Local}, p l →
      M.step t ch σ l = some (σ', .inl l') → p l')
    (hc : Reach M ok c) {t : ℕ} {f : Frame M} (hf : c.frames t = some f) : p f.loc := by
  induction hc generalizing t f with
  | init => cases hf
  | @call c c' u op _ h ih =>
    obtain ⟨-, -, rfl⟩ := Config.next_call h
    by_cases hu : t = u
    · subst hu
      rw [Config.record_self] at hf
      cases hf
      exact hstart ..
    · rw [Config.record_other c hu] at hf
      exact ih hf
  | @run c c' u ch f' _ _ _ h ih =>
    obtain ⟨f', σ, o, hf', hs, rfl⟩ := Config.next_run h
    by_cases hu : t = u
    · subst hu
      rw [Config.record_self] at hf
      cases o with
      | inl l =>
        cases hf
        exact hstep (ih hf') hs
      | inr r => cases hf
    · rw [Config.record_other c hu] at hf
      exact ih hf

/-- **The run of a schedule satisfied `ok`**, unless it came to a bad state from which there is
no way back. -/
theorem Reach.exec_of_not {bad : Config M → Prop}
    (hbad : ∀ {c c' : Config M} {a : Action M}, Reach M ok c → c.allows ok a = false →
      c.next a = some c' → bad c')
    (hkeep : ∀ {c c' : Config M} (as : List (Action M)), c.exec always as = some c' → bad c →
      bad c') :
    ∀ (as : List (Action M)) {c c' : Config M}, Reach M ok c → c.exec always as = some c' →
      ¬ bad c' → c.exec ok as = some c' := by
  intro as
  induction as with
  | nil =>
    intro c c' _ h _
    exact h
  | cons a as ih =>
    intro c c' hc h hgood
    rw [Config.exec, Option.ite_none_right_eq_some, Option.bind_eq_some_iff] at h
    obtain ⟨-, d, hd, h⟩ := h
    have hok : c.allows ok a = true := by
      by_contra hno
      exact hgood (hkeep as h (hbad hc (by simpa using hno) hd))
    rw [Config.exec, if_pos hok, hd]
    refine ih ?_ h hgood
    cases a with
    | call t op => exact hc.call hd
    | run t ch =>
      obtain ⟨f, -, -, hf, -⟩ := Config.next_run hd
      rw [Config.allows, hf] at hok
      exact hc.run hf hok hd

end Runs

end Interleave

/-
Objects used by one thread at a time.

* `solo` — a call that runs alone from its start to its end;
* `Ends` — total correctness of a call that runs alone: whatever the choices, it
  returns, and its result satisfies a postcondition;
* `Sequential` — in every sequence of calls that do not overlap, every call
  returns and the results are a run of a sequential specification;
* `solos_of_simulation`, `sequential_of_simulation` — the proof rule: an abstraction
  relation that every call keeps;
* `EndsUpTo`, `SequentialUnless` — as `Ends` and `Sequential`, for calls in which an access
  may fail and be tried again, if only finitely many fail;
* `EndsWithin` — as `Ends`, with a bound on what the accesses of the call cost.
-/
import Scal.Linearizable

open Linearizability

namespace Interleave

variable {Op Ret State : Type} {M : Machine Op Ret}

/-- A call of thread `t` at local state `l`, running alone with the choices given;
`none` if it has not returned by then. -/
def solo (M : Machine Op Ret) (t : ℕ) :
    List M.Choice → M.Shared → M.Local → Option (M.Shared × Ret)
  | [], _, _ => none
  | ch :: chs, σ, l =>
    match M.step t ch σ l with
    | none => none
    | some (σ', .inl l') => solo M t chs σ' l'
    | some (σ', .inr r) => some (σ', r)

/-- A call that is to run alone: its thread, operation, and choices. -/
structure SoloCall (M : Machine Op Ret) where
  thread : ℕ
  op : Op
  choices : List M.Choice

/-- Calls that run one after the other, each of which satisfies `ok` when it begins;
with their results. -/
def solos (M : Machine Op Ret) (ok : M.Shared → Op → Bool) :
    M.Shared → List (SoloCall M) → Option (M.Shared × List (Op × Ret))
  | σ, [] => some (σ, [])
  | σ, a :: as =>
    if ok σ a.op then
      match solo M a.thread a.choices σ (M.start a.thread 0 a.op) with
      | none => none
      | some (σ', r) => (solos M ok σ' as).map fun p => (p.1, (a.op, r) :: p.2)
    else none

/-- Calls that do not overlap, each satisfying `ok` when it begins, return the results
of a run of `S`; and a further such call returns, whatever its choices. -/
def Sequential (M : Machine Op Ret) (ok : M.Shared → Op → Bool) (S : Spec Op Ret State) : Prop :=
  ∀ as σ L, solos M ok M.init as = some (σ, L) →
    (∃ s, S.Run S.init L s) ∧
    ∀ t op, ok σ op = true → ∀ choice : ℕ → M.Choice, ∃ m p,
      solo M t ((List.range m).map choice) σ (M.start t 0 op) = some p

/-- From shared state `σ` and local state `l`, a call of thread `t` that runs alone
returns, whatever the choices, and then `Q` holds. -/
inductive Ends (M : Machine Op Ret) (t : ℕ) (Q : M.Shared → Ret → Prop) :
    M.Shared → M.Local → Prop
  | step {σ : M.Shared} {l : M.Local} (out : M.Choice → M.Shared × (M.Local ⊕ Ret)) :
      (∀ ch, M.step t ch σ l = some (out ch)) →
      (∀ ch l', (out ch).2 = .inl l' → Ends M t Q (out ch).1 l') →
      (∀ ch r, (out ch).2 = .inr r → Q (out ch).1 r) → Ends M t Q σ l

namespace Ends

variable {t : ℕ} {Q : M.Shared → Ret → Prop} {σ : M.Shared} {l : M.Local}

theorem go (σ' : M.Shared) (l' : M.Local) (hs : ∀ ch, M.step t ch σ l = some (σ', .inl l'))
    (h : Ends M t Q σ' l') : Ends M t Q σ l := by
  refine .step (fun _ => (σ', .inl l')) hs (fun _ l'' hl => ?_) (fun _ r hr => ?_)
  · obtain rfl : l' = l'' := by simpa using hl
    exact h
  · simp at hr

theorem draw {σ' : M.Shared} {l' : M.Choice → M.Local}
    (hs : ∀ ch, M.step t ch σ l = some (σ', .inl (l' ch)))
    (h : ∀ ch, Ends M t Q σ' (l' ch)) : Ends M t Q σ l := by
  refine .step (fun ch => (σ', .inl (l' ch))) hs (fun ch l'' hl => ?_) (fun _ r hr => ?_)
  · obtain rfl : l' ch = l'' := by simpa using hl
    exact h ch
  · simp at hr

theorem stop (σ' : M.Shared) (r : Ret) (hs : ∀ ch, M.step t ch σ l = some (σ', .inr r)) (h : Q σ' r) :
    Ends M t Q σ l := by
  refine .step (fun _ => (σ', .inr r)) hs (fun _ l'' hl => ?_) (fun _ r' hr => ?_)
  · simp at hl
  · obtain rfl : r = r' := by simpa using hr
    exact h

/-- A loop over `0, ..., k - 1` that leaves at the first hit. -/
theorem scan {k : ℕ} {l : ℕ → M.Local} (hit : ℕ → Prop)
    (hhit : ∀ j < k, hit j → Ends M t Q σ (l j))
    (hmiss : ∀ j, j + 1 < k → ¬ hit j → Ends M t Q σ (l (j + 1)) → Ends M t Q σ (l j))
    (hlast : ∀ j, j + 1 = k → (∀ j' < k, ¬ hit j') → Ends M t Q σ (l j)) (hk : 0 < k) :
    Ends M t Q σ (l 0) := by
  have hloop : ∀ m j, j + m + 1 = k → (∀ j' < j, ¬ hit j') → Ends M t Q σ (l j) := by
    intro m
    induction m with
    | zero =>
      intro j hj hno
      by_cases h : hit j
      · exact hhit j (by omega) h
      · refine hlast j hj fun j' hj' => ?_
        rcases Nat.lt_or_eq_of_le (show j' ≤ j by omega) with h' | rfl
        · exact hno j' h'
        · exact h
    | succ m ih =>
      intro j hj hno
      by_cases h : hit j
      · exact hhit j (by omega) h
      · refine hmiss j (by omega) h (ih (j + 1) (by omega) fun j' hj' => ?_)
        rcases Nat.lt_or_eq_of_le (Nat.le_of_lt_succ hj') with h' | rfl
        · exact hno j' h'
        · exact h
  exact hloop (k - 1) 0 (by omega) (by simp)

/-- A search of `k` slots that starts anywhere, wraps around, and stops at the first hit. -/
theorem find {k : ℕ} {l f : ℕ → M.Local} {missed : M.Local} (random : ℕ) (hit : ℕ → Prop)
    [DecidablePred hit] (hk : 0 < k)
    (hs : ∀ j ch, M.step t ch σ (l j) = some (σ, .inl (
      if hit ((random + j) % k) then f ((random + j) % k)
      else if j + 1 < k then l (j + 1) else missed)))
    (hfound : ∀ i < k, hit i → Ends M t Q σ (f i))
    (hmissed : (∀ i < k, ¬ hit i) → Ends M t Q σ missed) : Ends M t Q σ (l 0) := by
  refine scan (fun j => hit ((random + j) % k)) (fun j hj h => ?_) (fun j hj h ih => ?_)
    (fun j hj hno => ?_) hk
  · refine .go σ (f ((random + j) % k)) (fun ch => ?_) (hfound _ (Nat.mod_lt _ hk) h)
    rw [hs, if_pos h]
  · refine .go σ (l (j + 1)) (fun ch => ?_) ih
    rw [hs, if_neg h, if_pos hj]
  · refine .go σ missed (fun ch => ?_) (hmissed fun i hi => ?_)
    · rw [hs, if_neg (hno j (by omega)), if_neg (by omega)]
    · obtain ⟨j', hj', rfl⟩ := exists_index (r := random) hi
      exact hno j' hj'

/-- The call returns, and the postcondition holds. -/
theorem returns (h : Ends M t Q σ l) : ∀ choice : ℕ → M.Choice, ∃ m σ' r,
    solo M t ((List.range m).map choice) σ l = some (σ', r) ∧ Q σ' r := by
  induction h with
  | @step σ l out hs _ hstop ih =>
    intro choice
    have h0 := hs (choice 0)
    rcases ho : out (choice 0) with ⟨σ₁, l₁ | r⟩
    · obtain ⟨m, σ', r, hm, hQ⟩ := ih (choice 0) l₁ (by rw [ho]) fun i => choice (i + 1)
      refine ⟨m + 1, σ', r, ?_, hQ⟩
      rw [ho] at h0 hm
      rw [List.range_succ_eq_map, List.map_cons, List.map_map, solo, h0]
      exact hm
    · have hQ := hstop (choice 0) r (by rw [ho])
      rw [ho] at h0 hQ
      exact ⟨1, σ₁, r, by simp [solo, h0], hQ⟩

/-- Whatever way the call returns, the postcondition holds. -/
theorem result (h : Ends M t Q σ l) : ∀ {chs : List M.Choice} {σ' : M.Shared} {r : Ret},
    solo M t chs σ l = some (σ', r) → Q σ' r := by
  induction h with
  | @step σ l out hs _ hstop ih =>
    intro chs σ' r hr
    rcases chs with _ | ⟨ch, chs⟩
    · simp [solo] at hr
    · rw [solo, hs ch] at hr
      rcases ho : out ch with ⟨σ₁, l₁ | r₁⟩
      · have hgo : solo M t chs (out ch).1 l₁ = some (σ', r) := by
          rw [ho] at hr ⊢
          exact hr
        exact ih ch l₁ (by rw [ho]) hgo
      · have hQ := hstop ch r₁ (by rw [ho])
        rw [ho] at hr hQ
        obtain ⟨rfl, rfl⟩ : σ₁ = σ' ∧ r₁ = r := by simpa using hr
        exact hQ

end Ends

/-- Calls that keep the relation `R` between the shared state and the state of `S`, one after
the other. -/
theorem solos_of_result {ok : M.Shared → Op → Bool} {S : Spec Op Ret State}
    {R : M.Shared → State → Prop} :
    ∀ (as : List (SoloCall M)) {σ : M.Shared} {s : State} {σ' : M.Shared} {L : List (Op × Ret)},
      (∀ a ∈ as, ∀ σ s, R σ s → ok σ a.op = true → ∀ σ' r,
        solo M a.thread a.choices σ (M.start a.thread 0 a.op) = some (σ', r) →
          ∃ s', S.next s a.op r s' ∧ R σ' s') →
      R σ s → solos M ok σ as = some (σ', L) → ∃ s', S.Run s L s' ∧ R σ' s' := by
  intro as
  induction as with
  | nil =>
    intro σ s σ' L _ hR h
    obtain ⟨rfl, rfl⟩ : σ = σ' ∧ [] = L := by simpa [solos] using h
    exact ⟨s, .nil s, hR⟩
  | cons a as ih =>
    intro σ s σ' L hcall hR h
    rw [solos] at h
    split_ifs at h with hok
    rcases hs : solo M a.thread a.choices σ (M.start a.thread 0 a.op) with _ | ⟨σ₁, r⟩
    · simp [hs] at h
    · obtain ⟨s₁, hn, hR₁⟩ := hcall a List.mem_cons_self σ s hR hok _ _ hs
      simp only [hs, Option.map_eq_some_iff] at h
      obtain ⟨⟨σ₂, L₂⟩, hrest, he⟩ := h
      obtain ⟨rfl, rfl⟩ := Prod.mk.inj he
      obtain ⟨s₂, hrun, hR₂⟩ := ih (fun a ha => hcall a (List.mem_cons_of_mem _ ha)) hR₁ hrest
      exact ⟨s₂, .cons hn hrun, hR₂⟩

theorem solos_of_simulation {ok : M.Shared → Op → Bool} {S : Spec Op Ret State}
    {R : M.Shared → State → Prop}
    (hcall : ∀ σ s t op, R σ s → ok σ op = true →
      Ends M t (fun σ' r => ∃ s', S.next s op r s' ∧ R σ' s') σ (M.start t 0 op)) :
    ∀ (as : List (SoloCall M)) {σ : M.Shared} {s : State} {σ' : M.Shared} {L : List (Op × Ret)},
      R σ s → solos M ok σ as = some (σ', L) → ∃ s', S.Run s L s' ∧ R σ' s' := by
  intro as σ s σ' L hR h
  refine solos_of_result as (fun a _ σ s hR hok σ' r hs => ?_) hR h
  exact (hcall σ s a.thread a.op hR hok).result hs

/-- **Simulation**: if every call, run alone, keeps the relation `R` between the shared
state and the state of `S`, then all sequences of calls are runs of `S`. -/
theorem sequential_of_simulation {ok : M.Shared → Op → Bool} {S : Spec Op Ret State}
    (R : M.Shared → State → Prop) (hinit : R M.init S.init)
    (hcall : ∀ σ s t op, R σ s → ok σ op = true →
      Ends M t (fun σ' r => ∃ s', S.next s op r s' ∧ R σ' s') σ (M.start t 0 op)) :
    Sequential M ok S := by
  intro as σ L h
  obtain ⟨s, hs, hR⟩ := solos_of_simulation hcall as hinit h
  refine ⟨⟨s, hs⟩, fun t op hok choice => ?_⟩
  obtain ⟨m, σ', r, hm, -⟩ := (hcall σ s t op hR hok).returns choice
  exact ⟨m, (σ', r), hm⟩

/-! ### Accesses that may fail -/

/-- As `Ends`, if `n` choices at most are failures. -/
inductive EndsUpTo (M : Machine Op Ret) (fails : M.Choice → Bool) (t : ℕ)
    (Q : M.Shared → Ret → Prop) : ℕ → M.Shared → M.Local → Prop
  | step {n : ℕ} {σ : M.Shared} {l : M.Local} (out : M.Choice → M.Shared × (M.Local ⊕ Ret)) :
      (∀ ch, M.step t ch σ l = some (out ch)) →
      (∀ ch l', fails ch = false → (out ch).2 = .inl l' →
        EndsUpTo M fails t Q n (out ch).1 l') →
      (∀ ch l' m, fails ch = true → m < n → (out ch).2 = .inl l' →
        EndsUpTo M fails t Q m (out ch).1 l') →
      (∀ ch r, (out ch).2 = .inr r → Q (out ch).1 r) → EndsUpTo M fails t Q n σ l

namespace EndsUpTo

variable {fails : M.Choice → Bool} {t n : ℕ} {Q : M.Shared → Ret → Prop} {σ : M.Shared}
  {l : M.Local}

theorem mono (h : EndsUpTo M fails t Q n σ l) : ∀ {m : ℕ}, m ≤ n → EndsUpTo M fails t Q m σ l := by
  induction h with
  | step out hs _ hfail hstop ih _ =>
    intro m hm
    exact .step out hs (fun ch l' hf hl => ih ch l' hf hl hm)
      (fun ch l' m' hf hm' hl => hfail ch l' m' hf (Nat.lt_of_lt_of_le hm' hm) hl) hstop

theorem draw {σ' : M.Shared} {l' : M.Choice → M.Local}
    (hs : ∀ ch, M.step t ch σ l = some (σ', .inl (l' ch)))
    (h : ∀ ch, EndsUpTo M fails t Q n σ' (l' ch)) : EndsUpTo M fails t Q n σ l := by
  have hgo : ∀ ch l'', Sum.inl (l' ch) = (Sum.inl l'' : M.Local ⊕ Ret) →
      EndsUpTo M fails t Q n σ' l'' := by
    intro ch l'' hl
    obtain rfl := Sum.inl.inj hl
    exact h ch
  exact .step (fun ch => (σ', .inl (l' ch))) hs (fun ch l'' _ hl => hgo ch l'' hl)
    (fun ch l'' m _ hm hl => (hgo ch l'' hl).mono (Nat.le_of_lt hm)) (fun _ r hr => by cases hr)

theorem go (σ' : M.Shared) (l' : M.Local) (hs : ∀ ch, M.step t ch σ l = some (σ', .inl l'))
    (h : EndsUpTo M fails t Q n σ' l') : EndsUpTo M fails t Q n σ l :=
  draw hs fun _ => h

theorem stop (σ' : M.Shared) (r : Ret) (hs : ∀ ch, M.step t ch σ l = some (σ', .inr r))
    (h : Q σ' r) : EndsUpTo M fails t Q n σ l := by
  refine .step (fun _ => (σ', .inr r)) hs (fun _ l' _ hl => by cases hl)
    (fun _ l' m _ _ hl => by cases hl) (fun _ r' hr => ?_)
  obtain rfl := Sum.inr.inj hr
  exact h

/-- The call goes on, or returns. -/
theorem next (σ' : M.Shared) (o : M.Local ⊕ Ret) (hs : ∀ ch, M.step t ch σ l = some (σ', o))
    (hgo : ∀ l', o = .inl l' → EndsUpTo M fails t Q n σ' l') (hstop : ∀ r, o = .inr r → Q σ' r) :
    EndsUpTo M fails t Q n σ l := by
  cases o with
  | inl l' => exact .go σ' l' hs (hgo l' rfl)
  | inr r => exact .stop σ' r hs (hstop r rfl)

/-- An access that may fail. -/
theorem attempt (σ₁ : M.Shared) (l₁ : M.Local) (σ₂ : M.Shared) (l₂ : M.Local)
    (hs : ∀ ch, M.step t ch σ l =
      some (if fails ch then (σ₂, .inl l₂) else (σ₁, .inl l₁)))
    (h₁ : EndsUpTo M fails t Q n σ₁ l₁) (h₂ : ∀ m < n, EndsUpTo M fails t Q m σ₂ l₂) :
    EndsUpTo M fails t Q n σ l := by
  refine .step _ hs (fun ch l' hf hl => ?_) (fun ch l' m hf hm hl => ?_) (fun ch r hr => ?_)
  · rw [if_neg (by rw [hf]; exact Bool.false_ne_true)] at hl ⊢
    obtain rfl := Sum.inl.inj hl
    exact h₁
  · rw [if_pos hf] at hl ⊢
    obtain rfl := Sum.inl.inj hl
    exact h₂ m hm
  · by_cases hf : fails ch = true
    · rw [if_pos hf] at hr
      cases hr
    · rw [if_neg hf] at hr
      cases hr

/-- If no choice from the `n`-th on is a failure, the call returns. -/
theorem returns (h : EndsUpTo M fails t Q n σ l) : ∀ choice : ℕ → M.Choice,
    (∀ m ≥ n, fails (choice m) = false) →
      ∃ m p, solo M t ((List.range m).map choice) σ l = some p := by
  induction h with
  | @step n σ l out hs _ _ _ ih ihfail =>
    intro choice hchoice
    have h0 := hs (choice 0)
    rcases ho : out (choice 0) with ⟨σ₁, l₁ | r⟩
    · have hrest : ∃ m p, solo M t ((List.range m).map fun i => choice (i + 1)) σ₁ l₁ = some p := by
        have hl : (out (choice 0)).2 = .inl l₁ := by rw [ho]
        have hσ : (out (choice 0)).1 = σ₁ := by rw [ho]
        by_cases hf : fails (choice 0) = true
        · have hn : n ≠ 0 := by
            rintro rfl
            rw [hchoice 0 (Nat.le_refl 0)] at hf
            exact Bool.false_ne_true hf
          rw [← hσ]
          exact ihfail (choice 0) l₁ (n - 1) hf (by omega) hl (fun i => choice (i + 1))
            fun m hm => hchoice (m + 1) (by omega)
        · rw [← hσ]
          exact ih (choice 0) l₁ (Bool.eq_false_iff.mpr hf) hl (fun i => choice (i + 1))
            fun m hm => hchoice (m + 1) (by omega)
      obtain ⟨m, p, hm⟩ := hrest
      refine ⟨m + 1, p, ?_⟩
      rw [ho] at h0
      rw [List.range_succ_eq_map, List.map_cons, List.map_map, solo, h0]
      exact hm
    · rw [ho] at h0
      exact ⟨1, (σ₁, r), by simp [solo, h0]⟩

/-- If the call returns before the bound is reached, the postcondition holds. -/
theorem result (h : EndsUpTo M fails t Q n σ l) : ∀ {chs : List M.Choice} {σ' : M.Shared}
    {r : Ret}, chs.length ≤ n → solo M t chs σ l = some (σ', r) → Q σ' r := by
  induction h with
  | @step n σ l out hs _ _ hstop ih ihfail =>
    intro chs σ' r hlen hr
    cases chs with
    | nil => simp [solo] at hr
    | cons ch chs =>
      rw [solo, hs ch] at hr
      rw [List.length_cons] at hlen
      rcases ho : out ch with ⟨σ₁, l₁ | r₁⟩
      · have hl : (out ch).2 = .inl l₁ := by rw [ho]
        have hgo : solo M t chs (out ch).1 l₁ = some (σ', r) := by
          rw [ho] at hr ⊢
          exact hr
        by_cases hf : fails ch = true
        · exact ihfail ch l₁ (n - 1) hf (by omega) hl (by omega) hgo
        · exact ih ch l₁ (Bool.eq_false_iff.mpr hf) hl (by omega) hgo
      · have hQ := hstop ch r₁ (by rw [ho])
        rw [ho] at hr hQ
        obtain ⟨rfl, rfl⟩ : σ₁ = σ' ∧ r₁ = r := by simpa using hr
        exact hQ

end EndsUpTo

/-- As `Sequential`, for the threads `0, ..., numThreads - 1`; but a call may try again after
an access that fails, and is sure to return only if its choices are not failures from some
point on. -/
def SequentialUnless (M : Machine Op Ret) (fails : M.Choice → Bool) (numThreads : ℕ)
    (ok : M.Shared → Op → Bool) (S : Spec Op Ret State) : Prop :=
  ∀ as σ L, (∀ a ∈ as, a.thread < numThreads) → solos M ok M.init as = some (σ, L) →
    (∃ s, S.Run S.init L s) ∧
    ∀ t < numThreads, ∀ op, ok σ op = true → ∀ choice : ℕ → M.Choice,
      (∃ n, ∀ m ≥ n, fails (choice m) = false) → ∃ m p,
        solo M t ((List.range m).map choice) σ (M.start t 0 op) = some p

theorem sequentialUnless_of_simulation {fails : M.Choice → Bool} {numThreads : ℕ}
    {ok : M.Shared → Op → Bool} {S : Spec Op Ret State} (R : M.Shared → State → Prop)
    (hinit : R M.init S.init)
    (hcall : ∀ σ s, ∀ t < numThreads, ∀ op n, R σ s → ok σ op = true →
      EndsUpTo M fails t (fun σ' r => ∃ s', S.next s op r s' ∧ R σ' s') n σ (M.start t 0 op)) :
    SequentialUnless M fails numThreads ok S := by
  intro as σ L hthreads h
  obtain ⟨s, hs, hR⟩ := solos_of_result as (fun a ha σ s hR hok _ _ hsolo =>
    (hcall σ s a.thread (hthreads a ha) a.op a.choices.length hR hok).result (Nat.le_refl _)
      hsolo) hinit h
  refine ⟨⟨s, hs⟩, fun t ht op hok choice hchoice => ?_⟩
  obtain ⟨n, hn⟩ := hchoice
  exact (hcall σ s t ht op n hR hok).returns choice hn

/-! ### What a call costs -/

/-- The cost of the accesses of a call of thread `t`, running alone with the choices given. -/
def spent (M : Machine Op Ret) (t : ℕ) (cost : M.Shared → M.Local → ℕ) :
    List M.Choice → M.Shared → M.Local → ℕ
  | [], _, _ => 0
  | ch :: chs, σ, l =>
    cost σ l + match M.step t ch σ l with
      | some (σ', .inl l') => spent M t cost chs σ' l'
      | _ => 0

/-- As `Ends`, and the accesses until then cost `n` at most. -/
inductive EndsWithin (M : Machine Op Ret) (t : ℕ) (cost : M.Shared → M.Local → ℕ)
    (Q : M.Shared → Ret → Prop) : ℕ → M.Shared → M.Local → Prop
  | step {n m : ℕ} {σ : M.Shared} {l : M.Local} (out : M.Choice → M.Shared × (M.Local ⊕ Ret)) :
      cost σ l + m ≤ n → (∀ ch, M.step t ch σ l = some (out ch)) →
      (∀ ch l', (out ch).2 = .inl l' → EndsWithin M t cost Q m (out ch).1 l') →
      (∀ ch r, (out ch).2 = .inr r → Q (out ch).1 r) → EndsWithin M t cost Q n σ l

namespace EndsWithin

variable {t n m : ℕ} {cost : M.Shared → M.Local → ℕ} {Q : M.Shared → Ret → Prop}
  {σ : M.Shared} {l : M.Local}

theorem go (σ' : M.Shared) (l' : M.Local) (hc : cost σ l = 0)
    (hs : ∀ ch, M.step t ch σ l = some (σ', .inl l')) (h : EndsWithin M t cost Q n σ' l') :
    EndsWithin M t cost Q n σ l := by
  refine .step (fun _ => (σ', .inl l')) (by rw [hc, Nat.zero_add]) hs (fun _ l'' hl => ?_)
    (fun _ r hr => ?_)
  · obtain rfl : l' = l'' := Sum.inl.inj hl
    exact h
  · cases hr

theorem draw (l' : M.Choice → M.Local) (hc : cost σ l + m ≤ n)
    (hs : ∀ ch, M.step t ch σ l = some (σ, .inl (l' ch)))
    (h : ∀ ch, EndsWithin M t cost Q m σ (l' ch)) : EndsWithin M t cost Q n σ l := by
  refine .step (fun ch => (σ, .inl (l' ch))) hc hs (fun ch l'' hl => ?_) (fun _ r hr => ?_)
  · obtain rfl : l' ch = l'' := Sum.inl.inj hl
    exact h ch
  · cases hr

theorem stop (σ' : M.Shared) (r : Ret) (hc : cost σ l = 0)
    (hs : ∀ ch, M.step t ch σ l = some (σ', .inr r)) (h : Q σ' r) :
    EndsWithin M t cost Q n σ l := by
  refine .step (m := n) (fun _ => (σ', .inr r)) (by rw [hc, Nat.zero_add]) hs
    (fun _ l'' hl => ?_) (fun _ r' hr => ?_)
  · cases hl
  · obtain rfl : r = r' := Sum.inr.inj hr
    exact h

theorem ends (h : EndsWithin M t cost Q n σ l) : Ends M t Q σ l := by
  induction h with
  | step out _ hs _ hstop ih => exact .step out hs ih hstop

theorem spent_le (h : EndsWithin M t cost Q n σ l) :
    ∀ chs, spent M t cost chs σ l ≤ n := by
  induction h with
  | @step n m σ l out hn hs _ _ ih =>
    intro chs
    cases chs with
    | nil => exact Nat.zero_le n
    | cons ch chs =>
      rw [spent, hs ch]
      rcases ho : out ch with ⟨σ₁, l₁ | r₁⟩
      · have hrest := ih ch l₁ (by rw [ho]) chs
        rw [ho] at hrest
        dsimp only at hrest ⊢
        omega
      · dsimp only
        omega

end EndsWithin

end Interleave

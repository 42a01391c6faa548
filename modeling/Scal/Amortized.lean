/-
What calls cost that get in each other's way.

A `Charge` gives every pending call a weight: the accesses that it will make if nobody
interferes, and what it may still cost the others.  An access pays for itself and for what it
adds to the weights of other calls (`Charge.Covers`); part of that may be owed by the shared
state (`base`).

* `Charge.Covers.exec_le` — the accesses of a schedule are covered by the weights of the calls
  that are pending, and of those that it invokes;
* `Charge.Covers.exec_init_le` — so `k` calls make no more than `k * A` accesses, in whatever
  order they run;
* `Credits.Sound.lockFree` — where every call may disturb the others `D` times, each of which
  costs another call `E` accesses at most, `k` calls make `k * (B + D * E * k)` accesses.
-/
import Scal.Interleave
import Mathlib.Algebra.Order.BigOperators.Group.Finset

namespace Interleave

variable {Op Ret : Type} {M : Machine Op Ret}

/-! ### Schedules -/

namespace Action

/-- The thread that acts. -/
def thread : Action M → ℕ
  | .call t _ => t
  | .run t _ => t

def isCall : Action M → Bool
  | .call _ _ => true
  | .run _ _ => false

def isRun : Action M → Bool
  | .call _ _ => false
  | .run _ _ => true

/-- An access with a choice that `P` allows, or an invocation. -/
def Allowed (P : M.Choice → Prop) : Action M → Prop
  | .call _ _ => True
  | .run _ ch => P ch

end Action

/-- The accesses, and the invocations, of a schedule. -/
def runs (as : List (Action M)) : ℕ := as.countP (·.isRun)

def calls (as : List (Action M)) : ℕ := as.countP (·.isCall)

section Count

variable {t : ℕ} {op : Op} {ch : M.Choice} {as : List (Action M)}

theorem runs_call : runs (.call t op :: as : List (Action M)) = runs as :=
  List.countP_cons_of_neg (by simp [Action.isRun])

theorem runs_run : runs (.run t ch :: as : List (Action M)) = runs as + 1 :=
  List.countP_cons_of_pos rfl

theorem calls_call : calls (.call t op :: as : List (Action M)) = calls as + 1 :=
  List.countP_cons_of_pos rfl

theorem calls_run : calls (.run t ch :: as : List (Action M)) = calls as :=
  List.countP_cons_of_neg (by simp [Action.isCall])

end Count

/-- An action changes the frame of its own thread only. -/
theorem Config.next_other {c d : Config M} {a : Action M} {u : ℕ} (h : c.next a = some d)
    (hu : u ≠ a.thread) : d.frames u = c.frames u := by
  cases a with
  | call t op =>
    obtain ⟨-, -, rfl⟩ := Config.next_call h
    exact Config.record_other c hu ..
  | run t ch =>
    obtain ⟨f, σ, o, -, -, rfl⟩ := Config.next_run h
    exact Config.record_other c hu ..

theorem Config.exec_cons {c c' : Config M} {a : Action M} {as : List (Action M)}
    (h : c.exec always (a :: as) = some c') :
    ∃ d, c.next a = some d ∧ d.exec always as = some c' := by
  rw [Config.exec, Option.ite_none_right_eq_some, Option.bind_eq_some_iff] at h
  exact h.2

/-! ### Charges -/

structure Charge (M : Machine Op Ret) where
  base : M.Shared → ℕ
  weight : M.Shared → ℕ → M.Local → ℕ

namespace Charge

variable {W : Charge M} {P : M.Choice → Prop} {N A : ℕ} {ts : Finset ℕ} {c c' d : Config M}
  {t : ℕ} {as : List (Action M)}

/-- The weight of thread `t`'s pending call, if it has one. -/
def frame (W : Charge M) (σ : M.Shared) (t : ℕ) : Option (Frame M) → ℕ
  | none => 0
  | some f => W.weight σ t f.loc

/-- What is left of a call after an access. -/
def outcome (W : Charge M) (σ : M.Shared) (t : ℕ) : M.Local ⊕ Ret → ℕ
  | .inl l => W.weight σ t l
  | .inr _ => 0

def total (W : Charge M) (ts : Finset ℕ) (c : Config M) : ℕ :=
  W.base c.shared + ∑ t ∈ ts, W.frame c.shared t (c.frames t)

/-- Every access pays one for itself, and `N` times what it adds to the weight of any other
call; a new call has weight `A` at most. -/
structure Covers (W : Charge M) (P : M.Choice → Prop) (N A : ℕ) : Prop where
  call : ∀ c t op, Reach M always c → W.weight c.shared t (M.start t c.trace.length op) ≤ A
  run : ∀ c t ch f σ o, Reach M always c → c.frames t = some f → P ch →
    M.step t ch c.shared f.loc = some (σ, o) →
    ∃ e, (∀ u f', u ≠ t → c.frames u = some f' →
        W.weight σ u f'.loc ≤ W.weight c.shared u f'.loc + e) ∧
      W.base σ + W.outcome σ t o + 1 + e * N ≤ W.base c.shared + W.weight c.shared t f.loc

theorem sum_erase {w : ℕ → ℕ} (ht : t ∈ ts) : ∑ u ∈ ts, w u = w t + ∑ u ∈ ts.erase t, w u :=
  (Finset.add_sum_erase ts w ht).symm

theorem Covers.step_call (hW : W.Covers P N A) (hc : Reach M always c) {op : Op} (ht : t ∈ ts)
    (h : c.next (.call t op) = some d) : W.total ts d ≤ W.total ts c + A := by
  obtain ⟨hf, -, rfl⟩ := Config.next_call h
  have hnew := hW.call c t op hc
  have hrest : ∑ u ∈ ts.erase t, W.frame c.shared u ((c.record t (.inv t op) c.shared
      (some ⟨c.trace.length, op, M.start t c.trace.length op⟩)).frames u) =
      ∑ u ∈ ts.erase t, W.frame c.shared u (c.frames u) :=
    Finset.sum_congr rfl fun u hu => by rw [Config.record_other c (Finset.ne_of_mem_erase hu)]
  show W.base c.shared + ∑ u ∈ ts, W.frame c.shared u _ ≤ _
  rw [total, sum_erase ht, sum_erase (w := fun u => W.frame c.shared u (c.frames u)) ht, hrest,
    Config.record_self, hf]
  simp only [frame]
  omega

theorem Covers.step_run (hW : W.Covers P N A) (hc : Reach M always c) {ch : M.Choice}
    (hP : P ch) (ht : t ∈ ts) (hN : ts.card ≤ N) (h : c.next (.run t ch) = some d) :
    W.total ts d + 1 ≤ W.total ts c := by
  obtain ⟨f, σ, o, hf, hs, rfl⟩ := Config.next_run h
  obtain ⟨e, hothers, hown⟩ := hW.run c t ch f σ o hc hf hP hs
  have hframe : W.frame σ t (f.resume o) = W.outcome σ t o := by
    cases o <;> rfl
  have hrest : ∑ u ∈ ts.erase t, W.frame σ u ((c.record t (.ofStep t o) σ (f.resume o)).frames u) ≤
      ∑ u ∈ ts.erase t, (W.frame c.shared u (c.frames u) + e) := by
    refine Finset.sum_le_sum fun u hu => ?_
    have hut := Finset.ne_of_mem_erase hu
    rw [Config.record_other c hut]
    cases hu' : c.frames u with
    | none => exact Nat.zero_le _
    | some f' => exact hothers u f' hut hu'
  rw [Finset.sum_add_distrib, Finset.sum_const_nat fun _ _ => rfl, Nat.mul_comm] at hrest
  have hcard : e * (ts.erase t).card ≤ e * N :=
    Nat.mul_le_mul_left e ((Finset.card_le_card (ts.erase_subset t)).trans hN)
  show W.base σ + ∑ u ∈ ts, W.frame σ u _ + 1 ≤ _
  rw [total, sum_erase ht, sum_erase (w := fun u => W.frame c.shared u (c.frames u)) ht,
    Config.record_self, hframe, hf]
  simp only [frame] at hrest ⊢
  omega

/-- **Amortized cost of a schedule** of the threads `ts`. -/
theorem Covers.exec_le (hW : W.Covers P N A) (hN : ts.card ≤ N) : ∀ {as c},
    Reach M always c → (∀ a ∈ as, a.Allowed P ∧ a.thread ∈ ts) → c.exec always as = some c' →
    runs as + W.total ts c' ≤ W.total ts c + calls as * A
  | [], c, _, _, h => by
    obtain rfl : c = c' := Option.some.inj h
    simp [runs, calls]
  | a :: as, c, hc, has, h => by
    obtain ⟨d, hd, hexec⟩ := Config.exec_cons h
    obtain ⟨hP, ht⟩ := has a List.mem_cons_self
    have has' := fun b hb => has b (List.mem_cons_of_mem _ hb)
    cases a with
    | call t op =>
      have ih := exec_le hW hN (hc.call hd) has' hexec
      have hstep := hW.step_call hc ht hd
      rw [runs_call, calls_call, Nat.add_mul, Nat.one_mul]
      omega
    | run t ch =>
      obtain ⟨f, -, -, hf, -, -⟩ := Config.next_run hd
      have ih := exec_le hW hN (hc.run hf rfl hd) has' hexec
      have hstep := hW.step_run hc hP ht hN hd
      rw [runs_run, calls_run]
      omega

/-- The threads that a schedule invokes calls of. -/
def callers (as : List (Action M)) : Finset ℕ :=
  ((as.filter (·.isCall)).map (·.thread)).toFinset

theorem card_callers (as : List (Action M)) : (callers as).card ≤ calls as := by
  refine (List.toFinset_card_le _).trans ?_
  rw [List.length_map, calls, List.countP_eq_length_filter]

/-- Only threads that have invoked a call run, and have calls pending. -/
theorem threads_mem : ∀ {as : List (Action M)} {c : Config M}, (∀ t, c.frames t ≠ none → t ∈ ts) →
    (∀ a ∈ as, a.isCall = true → a.thread ∈ ts) → c.exec always as = some c' →
    (∀ a ∈ as, a.thread ∈ ts) ∧ ∀ t, c'.frames t ≠ none → t ∈ ts
  | [], c, hc, _, h => by
    obtain rfl : c = c' := Option.some.inj h
    exact ⟨fun _ hb => (by cases hb), hc⟩
  | a :: as, c, hc, has, h => by
    obtain ⟨d, hd, hexec⟩ := Config.exec_cons h
    have ha : a.thread ∈ ts := by
      cases a with
      | call t op => exact has _ List.mem_cons_self rfl
      | run t ch =>
        obtain ⟨f, -, -, hf, -, -⟩ := Config.next_run hd
        exact hc t (by simp [hf])
    have hframes : ∀ t, d.frames t ≠ none → t ∈ ts := by
      intro t ht
      by_cases hta : t = a.thread
      · exact hta ▸ ha
      · exact hc t (Config.next_other hd hta ▸ ht)
    obtain ⟨hrest, hc'⟩ := threads_mem hframes (fun b hb => has b (List.mem_cons_of_mem _ hb)) hexec
    refine ⟨fun b hb => ?_, hc'⟩
    rcases List.mem_cons.mp hb with rfl | hb
    · exact ha
    · exact hrest b hb

/-- The cost of a schedule without invocations. -/
theorem Covers.exec_length_le (hW : W.Covers P N A) (hN : ts.card ≤ N) (hc : Reach M always c)
    (hts : ∀ t, c.frames t ≠ none → t ∈ ts) (has : ∀ a ∈ as, a.Allowed P ∧ a.isRun = true)
    (h : c.exec always as = some c') : as.length ≤ W.total ts c := by
  have hrun : ∀ a ∈ as, a.isCall ≠ true := by
    intro a ha hcall
    have hr := (has a ha).2
    cases a with
    | call t op => cases hr
    | run t ch => cases hcall
  obtain ⟨hmem, -⟩ := threads_mem hts (fun a ha hcall => absurd hcall (hrun a ha)) h
  have hle := hW.exec_le hN hc (fun a ha => ⟨(has a ha).1, hmem a ha⟩) h
  have hruns : runs as = as.length := List.countP_eq_length.mpr fun a ha => (has a ha).2
  have hcalls : calls as = 0 := List.countP_eq_zero.mpr hrun
  rw [hruns, hcalls, Nat.zero_mul] at hle
  omega

theorem total_le {B : ℕ} (h : ∀ t f, c.frames t = some f → W.weight c.shared t f.loc ≤ B) :
    W.total ts c ≤ W.base c.shared + ts.card * B := by
  refine Nat.add_le_add_left (Finset.sum_le_card_nsmul ts _ B fun t _ => ?_) _
  cases hf : c.frames t with
  | none => exact Nat.zero_le _
  | some f => exact h t f hf

/-- **`k` calls make `k * A` accesses at most**, in whatever order they run. -/
theorem Covers.exec_init_le (hW : W.Covers P (calls as) A) (hbase : W.base M.init = 0)
    (has : ∀ a ∈ as, a.Allowed P) (h : (Config.init M).exec always as = some c) :
    runs as ≤ calls as * A := by
  have hcallers : ∀ a ∈ as, a.isCall = true → a.thread ∈ callers as := fun a ha hcall =>
    List.mem_toFinset.mpr (List.mem_map_of_mem (List.mem_filter.mpr ⟨ha, hcall⟩))
  obtain ⟨hmem, -⟩ := threads_mem (fun t ht => absurd rfl ht) hcallers h
  have hle := hW.exec_le (card_callers as) .init (fun a ha => ⟨has a ha, hmem a ha⟩) h
  have hzero : W.total (callers as) (Config.init M) = 0 := by
    simp [total, Config.init, hbase, frame]
  omega

end Charge

/-! ### Lock freedom -/

/-- The accesses that a call makes if nobody disturbs it, how often it may disturb the others
before it is done, and how often the shared state still has to change on behalf of calls that are
done with it. -/
structure Credits (M : Machine Op Ret) where
  cost : M.Shared → M.Local → ℕ
  credit : M.Local → ℕ
  debt : M.Shared → ℕ

namespace Credits

variable {C : Credits M} {B D E : ℕ} {c : Config M} {as : List (Action M)}

def costLeft (C : Credits M) (σ : M.Shared) : M.Local ⊕ Ret → ℕ
  | .inl l => C.cost σ l
  | .inr _ => 0

def creditLeft (C : Credits M) : M.Local ⊕ Ret → ℕ
  | .inl l => C.credit l
  | .inr _ => 0

/-- The access disturbs nobody. -/
def Quiet (C : Credits M) (c : Config M) (t : ℕ) (σ : M.Shared) : Prop :=
  ∀ u f, u ≠ t → c.frames u = some f → C.cost σ f.loc ≤ C.cost c.shared f.loc

/-- Every access brings its call closer to its end, and takes from its credit, or from the debt,
if it disturbs others. -/
structure Sound (C : Credits M) (B D E : ℕ) : Prop where
  init : C.debt M.init = 0
  call : ∀ c t op, Reach M always c → C.cost c.shared (M.start t c.trace.length op) ≤ B ∧
    C.credit (M.start t c.trace.length op) ≤ D
  disturb : ∀ σ σ' l, C.cost σ' l ≤ C.cost σ l + E
  run : ∀ c t ch f σ o, Reach M always c → c.frames t = some f →
    M.step t ch c.shared f.loc = some (σ, o) → C.costLeft σ o + 1 ≤ C.cost c.shared f.loc ∧
      (C.Quiet c t σ ∧ C.debt σ + C.creditLeft o ≤ C.debt c.shared + C.credit f.loc ∨
        C.debt σ + C.creditLeft o + 1 ≤ C.debt c.shared + C.credit f.loc)

/-- Every credit is worth what it may cost `n` other calls. -/
def charge (C : Credits M) (E n : ℕ) : Charge M where
  base σ := C.debt σ * (E * n)
  weight σ _ l := C.cost σ l + C.credit l * (E * n)

theorem Sound.covers (hC : C.Sound B D E) (n : ℕ) :
    (C.charge E n).Covers (fun _ => True) n (B + D * (E * n)) where
  call := by
    intro c t op hc
    obtain ⟨hcost, hcredit⟩ := hC.call c t op hc
    exact Nat.add_le_add hcost (Nat.mul_le_mul_right _ hcredit)
  run := by
    intro c t ch f σ o hc hf _ hs
    obtain ⟨hcost, hcredit⟩ := hC.run c t ch f σ o hc hf hs
    have hleft : (C.charge E n).outcome σ t o = C.costLeft σ o + C.creditLeft o * (E * n) := by
      cases o with
      | inl l => rfl
      | inr r => simp [Charge.outcome, costLeft, creditLeft]
    show ∃ e, _ ∧ C.debt σ * (E * n) + _ + 1 + e * n ≤
      C.debt c.shared * (E * n) + (C.cost c.shared f.loc + C.credit f.loc * (E * n))
    rw [hleft]
    rcases hcredit with ⟨hquiet, hle⟩ | hlt
    · refine ⟨0, fun u f' hu hu' => ?_, ?_⟩
      · exact Nat.add_le_add_right (hquiet u f' hu hu') _
      · have hmul := Nat.mul_le_mul_right (E * n) hle
        rw [Nat.add_mul, Nat.add_mul] at hmul
        omega
    · refine ⟨E, fun u f' _ _ => ?_, ?_⟩
      · have hdisturb := hC.disturb c.shared σ f'.loc
        show C.cost σ f'.loc + C.credit f'.loc * (E * n) ≤
          C.cost c.shared f'.loc + C.credit f'.loc * (E * n) + E
        omega
      · have hmul := Nat.mul_le_mul_right (E * n) hlt
        rw [Nat.add_mul, Nat.add_mul, Nat.add_mul, Nat.one_mul] at hmul
        omega

/-- **Lock freedom**: `k` calls make `k * (B + D * E * k)` accesses at most, however they are
scheduled. -/
theorem Sound.lockFree (hC : C.Sound B D E) (h : (Config.init M).exec always as = some c) :
    runs as ≤ calls as * (B + D * (E * calls as)) := by
  refine (hC.covers (calls as)).exec_init_le ?_ (fun a _ => ?_) h
  · show C.debt M.init * (E * calls as) = 0
    rw [hC.init, Nat.zero_mul]
  · cases a <;> trivial

end Credits

end Interleave

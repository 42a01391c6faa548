/-
Linearization points for any sequential object.

`Tracks S h L s stat` — the order `L` of calls of history `h` is a run of the
specification `S` that ends in state `s`, and `stat t` tells how far thread `t`'s
pending call has got.  It is kept by every step of a run, with a choice of what the
step means:

* `Tracks.linearize` — any thread lets the pending call of `t` take effect now;
* `Tracks.observe` — a call that would change nothing now may return that result
  later (`Tracks.resSeen`), and is then ordered at this moment, long after the fact.

`Progress.Recorded` says the same about an abstract state `Q` of the memory, along the trace
of a run: a pending call has not changed it, and a call that took effect changed it once, as
`S` says.  Every `Progress.Step` keeps this.

The specification must be functional: operation and result determine the next state.
`queueSpec` is the FIFO queue.
-/
import Scal.Linearizable

open Interleave

namespace Linearizability

variable {Op Ret State : Type}

/-- The state after a call is determined by its result. -/
def Spec.Functional (S : Spec Op Ret State) : Prop :=
  ∀ s op r s₁ s₂, S.next s op r s₁ → S.next s op r s₂ → s₁ = s₂

theorem Spec.Run.cancel {S : Spec Op Ret State} (hS : S.Functional) {s s₁ s₂ : State}
    {l l' : List (Op × Ret)} (h : S.Run s l s₁) (h' : S.Run s (l ++ l') s₂) :
    S.Run s₁ l' s₂ := by
  induction h with
  | nil => exact h'
  | cons hn _ ih =>
    cases h' with
    | cons hn' h' =>
      obtain rfl := hS _ _ _ _ _ hn hn'
      exact ih h'

/-- How far a thread has got: no call; a pending call, which may return what it has
seen; a pending call whose result is fixed. -/
inductive Progress (Op Ret : Type) where
  | idle
  | pending (i : ℕ) (op : Op) (seen : Option Ret)
  | done (i : ℕ) (op : Op) (r : Ret)
  deriving DecidableEq

def Progress.call : Progress Op Ret → Option (ℕ × Op)
  | .idle => none
  | .pending i op _ => some (i, op)
  | .done i op _ => some (i, op)

/-- After a prefix of the order the call `op` with result `r` would change nothing, and
nothing after that prefix precedes the call `i`. -/
def Saw (S : Spec Op Ret State) (h : List (Event Op Ret)) (L : List (Call Op Ret)) (s : State)
    (i : ℕ) (op : Op) (r : Ret) : Prop :=
  ∃ L₁ L₂ s₁, L = L₁ ++ L₂ ∧ S.Accepts L₁ s₁ ∧ S.next s₁ op r s₁ ∧
    S.Run s₁ (L₂.map fun c => (c.op, c.ret)) s ∧ ∀ c ∈ L₂, ¬ Precedes h c.id i

/-- What the progress of thread `t` says about the history and the order. -/
def Progress.Fits (S : Spec Op Ret State) (h : List (Event Op Ret)) (L : List (Call Op Ret))
    (s : State) (t : ℕ) : Progress Op Ret → Prop
  | .idle => True
  | .pending i op seen =>
    Open h t i op ∧ (∀ c ∈ L, c.id ≠ i) ∧ ∀ r ∈ seen, Saw S h L s i op r
  | .done i op r => Open h t i op ∧ ⟨i, op, r⟩ ∈ L

structure Tracks (S : Spec Op Ret State) (h : List (Event Op Ret)) (L : List (Call Op Ret))
    (s : State) (stat : ℕ → Progress Op Ret) : Prop where
  order : Order h L
  accepts : S.Accepts L s
  opens : ∀ t i op, Open h t i op → (stat t).call = some (i, op)
  fits : ∀ t, (stat t).Fits S h L s t

section Tracks

variable {S : Spec Op Ret State} {h : List (Event Op Ret)} {L : List (Call Op Ret)} {s s' : State}
  {stat : ℕ → Progress Op Ret} {t i : ℕ} {op : Op} {r : Ret} {seen : Option Ret}

theorem Tracks.linearizable (ht : Tracks S h L s stat) : Linearizable S h :=
  ⟨L, s, ht.order, ht.accepts⟩

theorem tracks_init (S : Spec Op Ret State) : Tracks S [] [] S.init fun _ => .idle := by
  refine ⟨⟨by simp, by simp, by simp, ?_, by simp⟩, .nil _, ?_, fun _ => trivial⟩
  · rintro i j r ⟨t, op, hi, -⟩
    simp at hi
  · rintro t i op ⟨hi, -⟩
    simp at hi

theorem Saw.extend {e : Event Op Ret} (hs : Saw S h L s i op r) (hi : i ≤ h.length) :
    Saw S (h ++ [e]) L s i op r := by
  obtain ⟨L₁, L₂, s₁, hL, hacc, hn, hrun, hlate⟩ := hs
  exact ⟨L₁, L₂, s₁, hL, hacc, hn, hrun,
    fun c hc hp => hlate c hc ((precedes_append_iff hi).mp hp)⟩

/-- A call that takes effect at the end. -/
theorem Saw.append {c : Call Op Ret} (hs : Saw S h L s i op r) (hn : S.next s c.op c.ret s')
    (hc : ¬ Precedes h c.id i) : Saw S h (L ++ [c]) s' i op r := by
  obtain ⟨L₁, L₂, s₁, rfl, hacc, hn₁, hrun, hlate⟩ := hs
  refine ⟨L₁, L₂ ++ [c], s₁, by simp, hacc, hn₁, ?_, fun d hd => ?_⟩
  · rw [List.map_append]
    exact hrun.append (.cons hn (.nil _))
  · rcases List.mem_append.mp hd with hd | hd
    · exact hlate d hd
    · obtain rfl := List.mem_singleton.mp hd
      exact hc

/-- A call `c` that changes nothing, put into the order where it was seen to, leaves what
others have seen in place. -/
theorem Saw.insert (hS : S.Functional) {L₁ L₂ : List (Call Op Ret)} {s₁ : State} {c : Call Op Ret}
    (hs : Saw S h (L₁ ++ L₂) s i op r) (hacc : S.Accepts L₁ s₁)
    (hn : S.next s₁ c.op c.ret s₁) (hrun : S.Run s₁ (L₂.map fun c => (c.op, c.ret)) s)
    (hc : ¬ Precedes h c.id i) : Saw S h (L₁ ++ c :: L₂) s i op r := by
  obtain ⟨M₁, M₂, s₂, hL, hacc', hn', hrun', hlate⟩ := hs
  rcases List.append_eq_append_iff.mp hL with ⟨X, rfl, rfl⟩ | ⟨X, rfl, rfl⟩
  · -- the other moment is later: `c` goes into its prefix
    refine ⟨L₁ ++ c :: X, M₂, s₂, by simp, ?_, hn', hrun', hlate⟩
    have hX : S.Run s₁ (X.map fun c => (c.op, c.ret)) s₂ := by
      unfold Spec.Accepts at hacc hacc'
      rw [List.map_append] at hacc'
      exact hacc.cancel hS hacc'
    exact hacc.append (.cons hn hX)
  · -- the other moment is earlier: `c` goes into its suffix
    refine ⟨M₁, X ++ c :: L₂, s₂, by simp, hacc', hn', ?_, fun d hd => ?_⟩
    · unfold Spec.Accepts at hacc hacc'
      rw [List.map_append] at hacc
      rw [List.map_append, List.map_cons]
      exact (hacc'.cancel hS hacc).append (.cons hn hrun)
    · rcases List.mem_append.mp hd with hd | hd
      · exact hlate d (List.mem_append_left _ hd)
      · rcases List.mem_cons.mp hd with rfl | hd
        · exact hc
        · exact hlate d (List.mem_append_right _ hd)

theorem Progress.Fits.extend {st : Progress Op Ret} {e : Event Op Ret}
    (hf : st.Fits S h L s t) (he : ∀ r, e ≠ .res t r) : st.Fits S (h ++ [e]) L s t := by
  cases st with
  | idle => trivial
  | pending i op seen =>
    obtain ⟨ho, hn, hs⟩ := hf
    exact ⟨ho.append he, hn, fun r hr => (hs r hr).extend ho.lt_length.le⟩
  | done i op r => exact ⟨hf.1.append he, hf.2⟩

theorem Tracks.tau (ht : Tracks S h L s stat) (t : ℕ) : Tracks S (h ++ [.tau t]) L s stat := by
  refine ⟨ht.order.extend (by simp), ht.accepts, fun u i op ho => ?_,
    fun u => (ht.fits u).extend (by simp)⟩
  rcases open_of_append ho with ho | ⟨-, he⟩
  · exact ht.opens u i op ho
  · exact absurd he (by simp)

theorem Tracks.inv (ht : Tracks S h L s stat) (hidle : stat t = .idle) (op : Op) :
    Tracks S (h ++ [.inv t op]) L s (Function.update stat t (.pending h.length op none)) := by
  refine ⟨ht.order.extend (by simp), ht.accepts, fun u i op' ho => ?_, fun u => ?_⟩
  · rcases open_of_append ho with ho | ⟨rfl, he⟩
    · have hc := ht.opens u i op' ho
      have hut : u ≠ t := fun hut => by
        rw [hut, hidle] at hc
        simp [Progress.call] at hc
      rwa [Function.update_of_ne hut]
    · simp only [Event.inv.injEq] at he
      obtain ⟨rfl, rfl⟩ := he
      simp [Progress.call]
  · by_cases hut : u = t
    · subst hut
      rw [Function.update_self]
      exact ⟨open_invoke h u op, fun c hc => (ht.order.id_lt hc).ne, by simp⟩
    · rw [Function.update_of_ne hut]
      exact (ht.fits u).extend (by simp)

/-- Calls of different threads have different invocations. -/
theorem Open.ne_id {u j : ℕ} {op' : Op} (ho : Open h t i op) (ho' : Open h u j op')
    (hu : u ≠ t) : i ≠ j := by
  rintro rfl
  have := ho.1.symm.trans ho'.1
  simp only [Option.some.injEq, Event.inv.injEq] at this
  exact hu this.1.symm

/-- **Linearization point**: the pending call of `t` takes effect now. -/
theorem Tracks.linearize (ht : Tracks S h L s stat) (hp : stat t = .pending i op seen)
    (hn : S.next s op r s') :
    Tracks S h (L ++ [⟨i, op, r⟩]) s' (Function.update stat t (.done i op r)) := by
  have hfit := ht.fits t
  rw [hp] at hfit
  obtain ⟨ho, hnew, -⟩ := hfit
  have hord : Order h (L ++ [⟨i, op, r⟩]) := by
    have hL : Order h (L ++ []) := by simpa using ht.order
    refine hL.insert ho ?_ (by simp)
    simpa using hnew
  have hrun : S.Run s ([(⟨i, op, r⟩ : Call _ _)].map fun c => (c.op, c.ret)) s' :=
    .cons hn (.nil _)
  refine ⟨hord, ht.accepts.append hrun, fun u j op' hu => ?_, fun u => ?_⟩
  · by_cases hut : u = t
    · subst hut
      rw [Function.update_self, Progress.call, ← ht.opens u j op' hu, hp, Progress.call]
    · rw [Function.update_of_ne hut]
      exact ht.opens u j op' hu
  · by_cases hut : u = t
    · subst hut
      rw [Function.update_self]
      exact ⟨ho, by simp⟩
    · rw [Function.update_of_ne hut]
      have hfu := ht.fits u
      cases hsu : stat u with
      | idle => trivial
      | pending j op' seen' =>
        rw [hsu] at hfu
        obtain ⟨hou, hnu, hsee⟩ := hfu
        refine ⟨hou, fun c hc => ?_, fun r' hr' => (hsee r' hr').append hn ho.not_precedes⟩
        rcases List.mem_append.mp hc with hc | hc
        · exact hnu c hc
        · obtain rfl := List.mem_singleton.mp hc
          exact Open.ne_id ho hou hut
      | done j op' r' =>
        rw [hsu] at hfu
        exact ⟨hfu.1, List.mem_append_left _ hfu.2⟩

/-- A pending call that would change nothing now may return that result. -/
theorem Tracks.observe (ht : Tracks S h L s stat) (hp : stat t = .pending i op seen)
    (hn : S.next s op r s) :
    Tracks S h L s (Function.update stat t (.pending i op (some r))) := by
  have hfit := ht.fits t
  rw [hp] at hfit
  refine ⟨ht.order, ht.accepts, fun u j op' hu => ?_, fun u => ?_⟩
  · by_cases hut : u = t
    · subst hut
      rw [Function.update_self, Progress.call, ← ht.opens u j op' hu, hp, Progress.call]
    · rw [Function.update_of_ne hut]
      exact ht.opens u j op' hu
  · by_cases hut : u = t
    · subst hut
      rw [Function.update_self]
      refine ⟨hfit.1, hfit.2.1, ?_⟩
      rintro r' hr'
      obtain rfl : r = r' := Option.some.inj hr'
      exact ⟨L, [], s, by simp, ht.accepts, hn, .nil _, by simp⟩
    · rw [Function.update_of_ne hut]
      exact ht.fits u

/-- After the response of `t` no call of `t` is pending. -/
theorem Tracks.opens_res (ht : Tracks S h L s stat) {u j : ℕ} {op' : Op}
    (hu : Open (h ++ [.res t r]) u j op') :
    (Function.update stat t .idle u).call = some (j, op') := by
  have hut : u ≠ t := by
    rintro rfl
    rcases open_of_append hu with ho | ⟨-, he⟩
    · exact hu.2 h.length r ho.lt_length (by simp)
    · exact absurd he (by simp)
  rw [Function.update_of_ne hut]
  rcases open_of_append hu with ho | ⟨-, he⟩
  · exact ht.opens u j op' ho
  · exact absurd he (by simp)

theorem Tracks.open_unique (ht : Tracks S h L s stat) (hc : (stat t).call = some (i, op)) {k : ℕ}
    {op' : Op} (hk : Open h t k op') : k = i := by
  have := (ht.opens t k op' hk).symm.trans hc
  simp only [Option.some.injEq, Prod.mk.injEq] at this
  exact this.1

theorem Tracks.resDone (ht : Tracks S h L s stat) (hd : stat t = .done i op r) :
    Tracks S (h ++ [.res t r]) L s (Function.update stat t .idle) := by
  have hfit := ht.fits t
  rw [hd] at hfit
  have hc : (stat t).call = some (i, op) := by rw [hd]; rfl
  have hu : ∀ k op', Open h t k op' → k = i := fun k op' hk => ht.open_unique hc hk
  refine ⟨ht.order.respond hfit.2 hu, ht.accepts, fun u j op' ho => ht.opens_res ho, fun u => ?_⟩
  by_cases hut : u = t
  · subst hut
    rw [Function.update_self]
    trivial
  · rw [Function.update_of_ne hut]
    exact (ht.fits u).extend (by simp [Ne.symm hut])

/-- A call may return what it has seen; it is ordered at that moment. -/
theorem Tracks.resSeen (hS : S.Functional) (ht : Tracks S h L s stat)
    (hp : stat t = .pending i op (some r)) :
    ∃ L', Tracks S (h ++ [.res t r]) L' s (Function.update stat t .idle) := by
  have hfit := ht.fits t
  rw [hp] at hfit
  obtain ⟨ho, hnew, hsee⟩ := hfit
  obtain ⟨L₁, L₂, s₁, rfl, hacc, hn, hrun, hlate⟩ := hsee r rfl
  have hc : (stat t).call = some (i, op) := by rw [hp]; rfl
  have hu : ∀ k op', Open h t k op' → k = i := fun k op' hk => ht.open_unique hc hk
  have hord : Order h (L₁ ++ (⟨i, op, r⟩ : Call _ _) :: L₂) := ht.order.insert ho hnew hlate
  have hmem : (⟨i, op, r⟩ : Call Op Ret) ∈ L₁ ++ ⟨i, op, r⟩ :: L₂ := by simp
  refine ⟨L₁ ++ ⟨i, op, r⟩ :: L₂, hord.respond hmem hu, hacc.append (.cons hn hrun),
    fun u j op' ho => ht.opens_res ho, fun u => ?_⟩
  by_cases hut : u = t
  · subst hut
    rw [Function.update_self]
    trivial
  · rw [Function.update_of_ne hut]
    have hfu := ht.fits u
    refine Progress.Fits.extend ?_ (by simp [Ne.symm hut])
    cases hsu : stat u with
    | idle => trivial
    | pending j op' seen' =>
      rw [hsu] at hfu
      refine ⟨hfu.1, fun c hc => ?_, fun r' hr' =>
        (hfu.2.2 r' hr').insert hS hacc hn hrun ho.not_precedes⟩
      rcases List.mem_append.mp hc with hc | hc
      · exact hfu.2.1 c (List.mem_append_left _ hc)
      · rcases List.mem_cons.mp hc with rfl | hc
        · exact Open.ne_id ho hfu.1 hut
        · exact hfu.2.1 c (List.mem_append_right _ hc)
    | done j op' r' =>
      rw [hsu] at hfu
      refine ⟨hfu.1, ?_⟩
      rcases List.mem_append.mp hfu.2 with hc | hc
      · exact List.mem_append_left _ hc
      · exact List.mem_append_right _ (List.mem_cons_of_mem _ hc)

end Tracks

/-! ### Linearization points in a run -/

/-- What a step of a thread does to the state, from `s` to `s'`, and to the progress of its
call; after it `saw op r` holds of what call `op` may return later. -/
inductive Progress.Step (S : Spec Op Ret State) (s s' : State) (saw : Op → Ret → Prop) :
    Progress Op Ret → Progress Op Ret → Prop
  | same {st : Progress Op Ret} : s' = s → Progress.Step S s s' saw st st
  | effect {i : ℕ} {op : Op} {seen : Option Ret} {r : Ret} : s' ≠ s → S.next s op r s' →
      Progress.Step S s s' saw (.pending i op seen) (.done i op r)
  | observe {i : ℕ} {op : Op} {seen : Option Ret} {r : Ret} : s' = s → saw op r →
      Progress.Step S s s' saw (.pending i op seen) (.pending i op (some r))
  | stop {st : Progress Op Ret} : s' = s → Progress.Step S s s' saw st .idle

theorem Progress.Step.eq_of_idle {S : Spec Op Ret State} {s s' : State}
    {saw : Op → Ret → Prop} {st : Progress Op Ret} (h : Progress.Step S s s' saw st .idle) :
    s' = s := by
  cases h with
  | same hs => exact hs
  | stop hs => exact hs

section Recorded

variable [DecidableEq State] {M : Machine Op Ret} {G : Type} {S : Spec Op Ret State}
  {Q : M.Shared → State} {saw : ℕ → Op → Ret → M.Shared → Prop} {tr : List (Moment M)}
  {w : World M G} {e : Event Op Ret} {σ : M.Shared} {g : G} {t i : ℕ} {op : Op}
  {st st' : Progress Op Ret}

/-- What the progress of thread `t` says about the changes that its call has made to the state
`Q`: none, or one step of the specification.  A call that may return `r` since it saw that it
would change nothing made that observation, `saw t op r`, after its invocation. -/
def Progress.Recorded (S : Spec Op Ret State) (Q : M.Shared → State)
    (saw : ℕ → Op → Ret → M.Shared → Prop) (tr : List (Moment M)) (t : ℕ) :
    Progress Op Ret → Prop
  | .idle => True
  | .pending i op seen =>
    i ≤ tr.length ∧ changes Q tr t i = [] ∧ ∀ r ∈ seen, Since tr i (saw t op r)
  | .done i op r => i ≤ tr.length ∧ ∃ s s', changes Q tr t i = [(s, s')] ∧ S.next s op r s'

/-- The step of another thread. -/
theorem Progress.Recorded.other (h : st.Recorded S Q saw w.trace t) (he : e.thread ≠ t) :
    st.Recorded S Q saw (w.record e σ g).trace t := by
  have hle : ∀ {i}, i ≤ w.trace.length → i ≤ (w.record e σ g).trace.length := fun hi =>
    hi.trans (by simp)
  cases st with
  | idle => trivial
  | pending i op seen =>
    obtain ⟨hi, hc, hs⟩ := h
    exact ⟨hle hi, (changes_other hi he).trans hc, fun r hr => (hs r hr).append⟩
  | done i op r =>
    obtain ⟨hi, s, s', hc, hn⟩ := h
    exact ⟨hle hi, s, s', (changes_other hi he).trans hc, hn⟩

/-- The step of the thread itself. -/
theorem Progress.Step.recorded
    (hstep : Progress.Step S (Q w.shared) (Q σ) (fun op r => saw t op r σ) st st')
    (h : st.Recorded S Q saw w.trace t) (he : e.thread = t) :
    st'.Recorded S Q saw (w.record e σ g).trace t := by
  have hle : ∀ {i}, i ≤ w.trace.length → i ≤ (w.record e σ g).trace.length := fun hi =>
    hi.trans (by simp)
  cases hstep with
  | same hq =>
    cases st with
    | idle => trivial
    | pending i op seen =>
      obtain ⟨hi, hc, hs⟩ := h
      exact ⟨hle hi, (changes_same hi hq).trans hc, fun r hr => (hs r hr).append⟩
    | done i op r =>
      obtain ⟨hi, s, s', hc, hn⟩ := h
      exact ⟨hle hi, s, s', (changes_same hi hq).trans hc, hn⟩
  | effect hq hn =>
    -- there was no change before this one
    obtain ⟨hi, hc, -⟩ := h
    refine ⟨hle hi, _, _, ?_, hn⟩
    rw [changes_own hi he hq, hc, List.nil_append]
  | observe hq hsaw =>
    obtain ⟨hi, hc, -⟩ := h
    refine ⟨hle hi, (changes_same hi hq).trans hc, fun r' hr => ?_⟩
    obtain rfl := Option.some.inj hr
    exact since_record hi hsaw
  | stop hq => trivial

/-- A call begins. -/
theorem Progress.recorded_begin :
    (Progress.pending w.trace.length op none).Recorded S Q saw
      (w.record e w.shared g).trace t := by
  refine ⟨by simp, ?_, by simp⟩
  rw [changes_same le_rfl rfl, changes_nil le_rfl]

end Recorded

/-! ### FIFO queues -/

inductive QueueOp (α : Type) where
  | enqueue (x : α)
  | dequeue
  deriving DecidableEq

/-- Results: whether the item was enqueued, and the item dequeued, if any. -/
inductive QueueRet (α : Type) where
  | enqueued (ok : Bool)
  | dequeued (x : Option α)
  deriving DecidableEq

def QueueStep {α : Type} : List α → QueueOp α → QueueRet α → List α → Prop
  | q, .enqueue x, .enqueued true, q' => q' = q ++ [x]
  | q, .dequeue, .dequeued (some x), q' => q = x :: q'
  | q, .dequeue, .dequeued none, q' => q = [] ∧ q' = []
  | _, _, _, _ => False

/-- An enqueue appends its item; a dequeue removes the first item, and fails only on the
empty queue. -/
def queueSpec (α : Type) : Spec (QueueOp α) (QueueRet α) (List α) := ⟨[], QueueStep⟩

theorem queueSpec_functional (α : Type) : (queueSpec α).Functional := by
  rintro s (x | _) ((_ | _) | (_ | x)) s₁ s₂ h₁ h₂ <;>
    simp only [queueSpec, QueueStep] at h₁ h₂
  · rw [h₁, h₂]
  · rw [h₁.2, h₂.2]
  · exact (List.cons.inj (h₁.symm.trans h₂)).2

end Linearizability

/-
Threads interleaving over one shared state.

A `Machine` is an object in the sense of concurrent data structures: a shared
state, and for every operation a local program that reaches the shared state
one atomic access at a time.  Any number of threads (numbered by `ℕ`) run
calls of it in any order:

* `Config.next` — one action of one thread: invoke an operation, or perform
  the next access of the pending call;
* `Reach ok` — the configurations reached by runs whose steps all satisfy
  `ok`; every reachable configuration carries its complete `trace`;
* `Outline` — a proof outline: a global invariant, an assertion for every
  local state, and what a thread may rely on about steps of the others;
* `Outline.Sound.reach` — a sound outline holds in every reachable
  configuration;
* `Outline.Sound.responses` — what it says of the accesses that return holds of all responses.

Design notes: a call is named by the time of its invocation (an index into the
trace), so "this call returned before that one was invoked" is a statement
about positions of the trace.  Outlines carry a ghost component `G`, chosen by
the proof at every step and invisible to the machine.
-/
import Mathlib.Data.List.Basic
import Mathlib.Logic.Function.Basic
import Mathlib.Tactic.Common

namespace Interleave

/-- A step as an observer outside sees it: thread `t` invokes an operation,
makes an internal step, or returns from its pending call. -/
inductive Event (Op Ret : Type) where
  | inv (t : ℕ) (op : Op)
  | tau (t : ℕ)
  | res (t : ℕ) (r : Ret)
  deriving DecidableEq

/-- The thread that makes the step. -/
def Event.thread {Op Ret : Type} : Event Op Ret → ℕ
  | .inv t _ => t
  | .tau t => t
  | .res t _ => t

/-- A concurrent object.  `start t i op` is the local state in which thread `t`
begins the call invoked at time `i`; `step` performs one atomic access, `none`
meaning that the access is not possible.  `admits` says which calls the
object's callers may make, given what happened so far. -/
structure Machine (Op Ret : Type) where
  Shared : Type
  Local : Type
  Choice : Type
  init : Shared
  admits : List (Event Op Ret) → ℕ → Op → Bool
  start : ℕ → ℕ → Op → Local
  step : ℕ → Choice → Shared → Local → Option (Shared × (Local ⊕ Ret))

variable {Op Ret : Type} {M : Machine Op Ret}

/-- A pending call: when it was invoked, its operation, its local state. -/
structure Frame (M : Machine Op Ret) where
  id : ℕ
  op : Op
  loc : M.Local

/-- What the outcome of an access looks like from outside: the call goes on, or
returns. -/
def Event.ofStep (t : ℕ) : M.Local ⊕ Ret → Event Op Ret
  | .inl _ => .tau t
  | .inr r => .res t r

@[simp] theorem Event.ofStep_thread (t : ℕ) (o : M.Local ⊕ Ret) :
    (Event.ofStep t o : Event Op Ret).thread = t := by
  cases o <;> rfl

def Frame.resume (f : Frame M) : M.Local ⊕ Ret → Option (Frame M)
  | .inl l => some { f with loc := l }
  | .inr _ => none

/-- One step of a run, with the shared state before and after it. -/
structure Moment (M : Machine Op Ret) where
  event : Event Op Ret
  before : M.Shared
  after : M.Shared

structure Config (M : Machine Op Ret) where
  shared : M.Shared
  frames : ℕ → Option (Frame M)
  trace : List (Moment M)

inductive Action (M : Machine Op Ret) where
  | call (t : ℕ) (op : Op)
  | run (t : ℕ) (ch : M.Choice)

namespace Config

def init (M : Machine Op Ret) : Config M := ⟨M.init, fun _ => none, []⟩

def events (c : Config M) : List (Event Op Ret) := c.trace.map (·.event)

/-- Thread `t` makes the step `e` to shared state `σ` and frame `f`. -/
def record (c : Config M) (t : ℕ) (e : Event Op Ret) (σ : M.Shared) (f : Option (Frame M)) :
    Config M :=
  ⟨σ, Function.update c.frames t f, c.trace ++ [⟨e, c.shared, σ⟩]⟩

/-- One action; `none` when it is not possible. -/
def next (c : Config M) : Action M → Option (Config M)
  | .call t op =>
    match c.frames t with
    | some _ => none
    | none =>
      if M.admits c.events t op then
        some (c.record t (.inv t op) c.shared
          (some ⟨c.trace.length, op, M.start t c.trace.length op⟩))
      else none
  | .run t ch =>
    match c.frames t with
    | none => none
    | some f =>
      match M.step t ch c.shared f.loc with
      | none => none
      | some (σ, o) => some (c.record t (.ofStep t o) σ (f.resume o))

/-- The condition `ok` holds of the access that an action makes. -/
def allows (c : Config M) (ok : ℕ → M.Shared → M.Local → Bool) : Action M → Bool
  | .call _ _ => true
  | .run t _ => (c.frames t).any fun f => ok t c.shared f.loc

/-- A whole schedule, if it can be carried out and all its accesses satisfy `ok`. -/
def exec (ok : ℕ → M.Shared → M.Local → Bool) (c : Config M) :
    List (Action M) → Option (Config M)
  | [] => some c
  | a :: as => if c.allows ok a then (c.next a).bind fun c' => c'.exec ok as else none

end Config

/-- Configurations reached by runs in which every access `t` makes from shared
state `σ` and local state `l` satisfies `ok t σ l`. -/
inductive Reach (M : Machine Op Ret) (ok : ℕ → M.Shared → M.Local → Bool) : Config M → Prop
  | init : Reach M ok (Config.init M)
  | call {c c' : Config M} {t : ℕ} {op : Op} :
      Reach M ok c → c.next (.call t op) = some c' → Reach M ok c'
  | run {c c' : Config M} {t : ℕ} {ch : M.Choice} {f : Frame M} :
      Reach M ok c → c.frames t = some f → ok t c.shared f.loc →
      c.next (.run t ch) = some c' → Reach M ok c'

/-- No condition on the steps of a run. -/
def always : ℕ → M.Shared → M.Local → Bool := fun _ _ _ => true

theorem Config.next_call {c c' : Config M} {t : ℕ} {op : Op}
    (h : c.next (.call t op) = some c') :
    c.frames t = none ∧ M.admits c.events t op = true ∧
      c' = c.record t (.inv t op) c.shared
        (some ⟨c.trace.length, op, M.start t c.trace.length op⟩) := by
  rcases hf : c.frames t with _ | f
  · by_cases ha : M.admits c.events t op
    · simp only [Config.next, hf, ha, if_true, Option.some.injEq] at h
      exact ⟨rfl, ha, h.symm⟩
    · simp [Config.next, hf, ha] at h
  · simp [Config.next, hf] at h

theorem Config.next_run {c c' : Config M} {t : ℕ} {ch : M.Choice}
    (h : c.next (.run t ch) = some c') :
    ∃ f σ o, c.frames t = some f ∧ M.step t ch c.shared f.loc = some (σ, o) ∧
      c' = c.record t (.ofStep t o) σ (f.resume o) := by
  rcases hf : c.frames t with _ | f
  · simp [Config.next, hf] at h
  · rcases hs : M.step t ch c.shared f.loc with _ | ⟨σ, o⟩
    · simp [Config.next, hf, hs] at h
    · simp only [Config.next, hf, hs, Option.some.injEq] at h
      exact ⟨f, σ, o, rfl, hs, h.symm⟩

theorem Reach.exec {ok : ℕ → M.Shared → M.Local → Bool} :
    ∀ (as : List (Action M)) {c c' : Config M}, Reach M ok c → c.exec ok as = some c' →
      Reach M ok c' := by
  intro as
  induction as with
  | nil =>
    intro c c' hc h
    obtain rfl : c = c' := by simpa [Config.exec] using h
    exact hc
  | cons a as ih =>
    intro c c' hc h
    rw [Config.exec, Option.ite_none_right_eq_some, Option.bind_eq_some_iff] at h
    obtain ⟨hok, d, hd, h⟩ := h
    refine ih ?_ h
    rcases a with ⟨t, op⟩ | ⟨t, ch⟩
    · exact hc.call hd
    · obtain ⟨f, -, -, hf, -⟩ := Config.next_run hd
      rw [Config.allows, hf] at hok
      exact hc.run hf hok hd

theorem Reach.weaken {ok : ℕ → M.Shared → M.Local → Bool} {c : Config M} (hc : Reach M ok c) :
    Reach M always c := by
  induction hc with
  | init => exact .init
  | call _ h ih => exact ih.call h
  | run _ hf _ h ih => exact ih.run hf rfl h

theorem Config.record_events (c : Config M) (t : ℕ) (e : Event Op Ret) (σ : M.Shared)
    (f : Option (Frame M)) : (c.record t e σ f).events = c.events ++ [e] := by
  simp [Config.events, Config.record]

theorem Config.record_self (c : Config M) (t : ℕ) (e : Event Op Ret) (σ : M.Shared)
    (f : Option (Frame M)) : (c.record t e σ f).frames t = f := Function.update_self ..

theorem Config.record_other (c : Config M) {t u : ℕ} (hu : u ≠ t) (e : Event Op Ret)
    (σ : M.Shared) (f : Option (Frame M)) : (c.record t e σ f).frames u = c.frames u :=
  Function.update_of_ne hu ..

/-- A pending call was invoked. -/
theorem Reach.invoked {ok : ℕ → M.Shared → M.Local → Bool} {c : Config M} (hc : Reach M ok c)
    {t : ℕ} {f : Frame M} (hf : c.frames t = some f) : c.events[f.id]? = some (.inv t f.op) := by
  have hlength : ∀ c : Config M, c.events.length = c.trace.length := fun c => List.length_map ..
  -- a later event does not change the ones before
  have hkeep : ∀ {c : Config M} {i : ℕ} {e e' : Event Op Ret}, c.events[i]? = some e →
      (c.events ++ [e'])[i]? = some e := by
    intro c i e e' h
    rw [List.getElem?_append_left (List.getElem?_eq_some_iff.mp h).1, h]
  induction hc generalizing f with
  | init => cases hf
  | @call c c' u op _ h ih =>
    obtain ⟨-, -, rfl⟩ := Config.next_call h
    rw [Config.record_events]
    by_cases hu : t = u
    · subst hu
      rw [Config.record_self] at hf
      cases hf
      rw [← hlength, List.getElem?_concat_length]
    · rw [Config.record_other c hu] at hf
      exact hkeep (ih hf)
  | @run c c' u ch f' _ _ _ h ih =>
    obtain ⟨f', σ, o, hf', -, rfl⟩ := Config.next_run h
    rw [Config.record_events]
    by_cases hu : t = u
    · subst hu
      rw [Config.record_self] at hf
      cases o with
      | inl l =>
        cases hf
        exact hkeep (ih (f := f') hf')
      | inr r => cases hf
    · rw [Config.record_other c hu] at hf
      exact hkeep (ih hf)

/-- What every access that returns says of the result holds of all responses. -/
theorem Reach.responses {ok : ℕ → M.Shared → M.Local → Bool} {p : Ret → Prop}
    (hp : ∀ {c : Config M} {t : ℕ} {f : Frame M} {ch : M.Choice} {σ : M.Shared} {r : Ret},
      Reach M ok c → c.frames t = some f → ok t c.shared f.loc →
      M.step t ch c.shared f.loc = some (σ, .inr r) → p r)
    {c : Config M} (hc : Reach M ok c) : ∀ t r, .res t r ∈ c.events → p r := by
  induction hc with
  | init => exact fun t r h => (by cases h)
  | call _ h ih =>
    obtain ⟨-, -, rfl⟩ := Config.next_call h
    intro t r hr
    rw [Config.record_events] at hr
    rcases List.mem_append.mp hr with hr | hr
    · exact ih t r hr
    · cases List.mem_singleton.mp hr
  | run hc hf hok h ih =>
    obtain ⟨f', σ, o, hf', hs, rfl⟩ := Config.next_run h
    obtain rfl := Option.some.inj (hf.symm.trans hf')
    intro t r hr
    rw [Config.record_events] at hr
    rcases List.mem_append.mp hr with hr | hr
    · exact ih t r hr
    · -- the step's own event is a response only if it ends the call
      cases o with
      | inl l => cases List.mem_singleton.mp hr
      | inr r' =>
        cases List.mem_singleton.mp hr
        exact hp hc hf hok hs

/-- Thread `t` makes `n` accesses in a row. -/
def turns (t : ℕ) (ch : M.Choice) (n : ℕ) : List (Action M) := List.replicate n (.run t ch)

/-- A schedule that can be carried out leads to a reachable configuration. -/
theorem Reach.schedule {ok : ℕ → M.Shared → M.Local → Bool} (as : List (Action M))
    (h : ((Config.init M).exec ok as).isSome = true) :
    Reach M ok (((Config.init M).exec ok as).get h) :=
  Reach.exec as .init (Option.some_get h).symm

/-- A test that succeeds after a schedule holds of a reachable configuration. -/
theorem Reach.exists_of_any (ok : ℕ → M.Shared → M.Local → Bool) (as : List (Action M))
    (p : Config M → Bool) (h : ((Config.init M).exec ok as).any p = true) :
    ∃ c, Reach M ok c ∧ p c = true := by
  obtain ⟨c, hc, hp⟩ := (Option.any_eq_true _ _).mp h
  exact ⟨c, Reach.exec as .init hc, hp⟩

/-! ### Calls in a history -/

section History

variable {h h' : List (Event Op Ret)} {i j k : ℕ} {r : Ret}

/-- The call invoked at time `i` returned `r` at time `j`. -/
def Returns (h : List (Event Op Ret)) (i j : ℕ) (r : Ret) : Prop :=
  ∃ t op, h[i]? = some (.inv t op) ∧ h[j]? = some (.res t r) ∧ i < j ∧
    ∀ m r', i < m → m < j → h[m]? ≠ some (.res t r')

/-- The call invoked at time `i` returned before time `k`. -/
def Precedes (h : List (Event Op Ret)) (i k : ℕ) : Prop :=
  ∃ j r, Returns h i j r ∧ j < k

theorem Returns.lt (hr : Returns h i j r) : i < j := by
  obtain ⟨t, op, -, -, hij, -⟩ := hr
  exact hij

theorem Returns.lt_length (hr : Returns h i j r) : j < h.length := by
  obtain ⟨t, op, -, hj, -⟩ := hr
  exact (List.getElem?_eq_some_iff.mp hj).choose

theorem getElem?_append_of_lt {α : Type} {l l' : List α} {m : ℕ} (hm : m < l.length) :
    (l ++ l')[m]? = l[m]? := List.getElem?_append_left hm

/-- An element of `l ++ [a]` is one of `l`, or it is `a`. -/
theorem getElem?_concat_cases {α : Type} {l : List α} {a b : α} {m : ℕ}
    (hm : (l ++ [a])[m]? = some b) : l[m]? = some b ∨ m = l.length ∧ b = a := by
  rw [List.getElem?_append] at hm
  split_ifs at hm with hlt
  · exact Or.inl hm
  · rw [List.getElem?_singleton] at hm
    split_ifs at hm with h0
    exact Or.inr ⟨by omega, (Option.some.inj hm).symm⟩

theorem returns_append_iff (hj : j < h.length) :
    Returns (h ++ h') i j r ↔ Returns h i j r := by
  constructor
  · rintro ⟨t, op, hi, hj', hij, hm⟩
    rw [getElem?_append_of_lt (by omega)] at hi
    rw [getElem?_append_of_lt hj] at hj'
    refine ⟨t, op, hi, hj', hij, fun m r' h1 h2 => ?_⟩
    have := hm m r' h1 h2
    rwa [getElem?_append_of_lt (by omega)] at this
  · rintro ⟨t, op, hi, hj', hij, hm⟩
    refine ⟨t, op, ?_, ?_, hij, fun m r' h1 h2 => ?_⟩
    · rwa [getElem?_append_of_lt (by omega)]
    · rwa [getElem?_append_of_lt hj]
    · rw [getElem?_append_of_lt (by omega)]
      exact hm m r' h1 h2

theorem precedes_append_iff (hk : k ≤ h.length) :
    Precedes (h ++ h') i k ↔ Precedes h i k := by
  constructor
  · rintro ⟨j, r, hr, hj⟩
    exact ⟨j, r, (returns_append_iff (by omega)).mp hr, hj⟩
  · rintro ⟨j, r, hr, hj⟩
    exact ⟨j, r, (returns_append_iff (by omega)).mpr hr, hj⟩

theorem Precedes.lt (hp : Precedes h i k) : i < k := by
  obtain ⟨j, r, ⟨t, op, -, -, hij, -⟩, hj⟩ := hp
  omega

/-- The call invoked at time `i` by thread `t` has not returned yet. -/
def Open (h : List (Event Op Ret)) (t i : ℕ) (op : Op) : Prop :=
  h[i]? = some (.inv t op) ∧ ∀ m r, i < m → h[m]? ≠ some (.res t r)

theorem Open.lt_length {t : ℕ} {op : Op} (ho : Open h t i op) : i < h.length :=
  (List.getElem?_eq_some_iff.mp ho.1).choose

theorem Open.not_returns {t : ℕ} {op : Op} (ho : Open h t i op) : ¬ Returns h i j r := by
  rintro ⟨t', op', hi, hj, hij, -⟩
  have := ho.1.symm.trans hi
  simp only [Option.some.injEq, Event.inv.injEq] at this
  obtain ⟨rfl, rfl⟩ := this
  exact ho.2 j r hij hj

theorem Open.not_precedes {t : ℕ} {op : Op} (ho : Open h t i op) : ¬ Precedes h i k := by
  rintro ⟨j, r, hr, -⟩
  exact ho.not_returns hr

theorem Open.append {t : ℕ} {op : Op} {e : Event Op Ret} (ho : Open h t i op)
    (he : ∀ r, e ≠ .res t r) : Open (h ++ [e]) t i op := by
  refine ⟨by rw [getElem?_append_of_lt ho.lt_length]; exact ho.1, fun m r hm hm' => ?_⟩
  rcases Nat.lt_trichotomy m h.length with hlt | rfl | hgt
  · rw [getElem?_append_of_lt hlt] at hm'
    exact ho.2 m r hm hm'
  · simp only [List.getElem?_concat_length, Option.some.injEq] at hm'
    exact he r hm'
  · rw [List.getElem?_eq_none (by simp; omega)] at hm'
    simp at hm'

theorem Open.returns {t : ℕ} {op : Op} (ho : Open h t i op) :
    Returns (h ++ [.res t r]) i h.length r := by
  refine ⟨t, op, ?_, by simp, ho.lt_length, fun m r' h1 h2 => ?_⟩
  · rw [getElem?_append_of_lt ho.lt_length]
    exact ho.1
  · rw [getElem?_append_of_lt h2]
    exact ho.2 m r' h1

theorem open_invoke (h : List (Event Op Ret)) (t : ℕ) (op : Op) :
    Open (h ++ [.inv t op]) t h.length op := by
  refine ⟨by simp, fun m r hm => ?_⟩
  rw [List.getElem?_eq_none (by simp; omega)]
  simp

theorem open_of_append {t : ℕ} {op : Op} {e : Event Op Ret} (ho : Open (h ++ [e]) t i op) :
    Open h t i op ∨ (i = h.length ∧ e = .inv t op) := by
  have hlt := ho.lt_length
  simp only [List.length_append, List.length_cons, List.length_nil] at hlt
  rcases Nat.lt_or_ge i h.length with hi | hi
  · refine Or.inl ⟨by rw [← ho.1, getElem?_append_of_lt hi], fun m r hm hm' => ?_⟩
    refine ho.2 m r hm ?_
    rw [getElem?_append_of_lt (List.getElem?_eq_some_iff.mp hm').choose]
    exact hm'
  · obtain rfl : i = h.length := by omega
    exact Or.inr ⟨rfl, by simpa using ho.1⟩

/-- Only a response of the thread itself makes one of its calls return. -/
theorem returns_append_cases {e : Event Op Ret} (hr : Returns (h ++ [e]) i j r) :
    Returns h i j r ∨ (j = h.length ∧ ∃ t op, e = .res t r ∧ Open h t i op) := by
  rcases Nat.lt_or_ge j h.length with hj | hj
  · exact Or.inl ((returns_append_iff hj).mp hr)
  · have hlt := hr.lt_length
    simp only [List.length_append, List.length_cons, List.length_nil] at hlt
    obtain rfl : j = h.length := by omega
    obtain ⟨t, op, hi, hj', hij, hm⟩ := hr
    rw [getElem?_append_of_lt hij] at hi
    simp only [List.getElem?_concat_length, Option.some.injEq] at hj'
    refine Or.inr ⟨rfl, t, op, hj', hi, fun m r' h1 h2 => ?_⟩
    have hmlt : m < h.length := (List.getElem?_eq_some_iff.mp h2).choose
    refine hm m r' h1 hmlt ?_
    rw [getElem?_append_of_lt hmlt]
    exact h2

end History

/-! ### Circular scans -/

/-- A scan of `k` slots that starts anywhere and wraps around looks at each of them. -/
theorem exists_index {k r j : ℕ} (hj : j < k) : ∃ j' < k, (r + j') % k = j := by
  have hr : r % k < k := Nat.mod_lt _ (by omega)
  by_cases hle : r % k ≤ j
  · refine ⟨j - r % k, by omega, ?_⟩
    rw [← Nat.mod_add_mod, Nat.add_sub_cancel' hle, Nat.mod_eq_of_lt hj]
  · refine ⟨j + k - r % k, by omega, ?_⟩
    rw [← Nat.mod_add_mod, Nat.add_sub_cancel' (by omega), Nat.add_mod_right,
      Nat.mod_eq_of_lt hj]

/-! ### Proof outlines -/

/-- What a proof outline talks about: the shared state, the trace that led to
it, and a ghost value. -/
structure World (M : Machine Op Ret) (G : Type) where
  shared : M.Shared
  trace : List (Moment M)
  ghost : G

def World.events {G : Type} (w : World M G) : List (Event Op Ret) := w.trace.map (·.event)

/-- The world after a step `e` to shared state `σ`, with new ghost value `g`. -/
def World.record {G : Type} (w : World M G) (e : Event Op Ret) (σ : M.Shared) (g : G) :
    World M G :=
  ⟨σ, w.trace ++ [⟨e, w.shared, σ⟩], g⟩

@[simp] theorem World.record_shared {G : Type} (w : World M G) (e : Event Op Ret)
    (σ : M.Shared) (g : G) : (w.record e σ g).shared = σ := rfl

@[simp] theorem World.record_ghost {G : Type} (w : World M G) (e : Event Op Ret)
    (σ : M.Shared) (g : G) : (w.record e σ g).ghost = g := rfl

@[simp] theorem World.record_trace {G : Type} (w : World M G) (e : Event Op Ret)
    (σ : M.Shared) (g : G) : (w.record e σ g).trace = w.trace ++ [⟨e, w.shared, σ⟩] := rfl

@[simp] theorem World.record_events {G : Type} (w : World M G) (e : Event Op Ret)
    (σ : M.Shared) (g : G) : (w.record e σ g).events = w.events ++ [e] := by
  simp [World.events]

@[simp] theorem World.length_events {G : Type} (w : World M G) :
    w.events.length = w.trace.length := by
  simp [World.events]

structure Outline (M : Machine Op Ret) (G : Type) where
  inv : World M G → Prop
  loc : ℕ → Option (Frame M) → World M G → Prop
  rely : ℕ → World M G → World M G → Prop

namespace Outline

variable {G : Type}

/-- Thread `t` may make the step `e` to shared state `σ` and frame `f`: for
some ghost value the invariant and the thread's own assertion hold again, and
every other thread gets what it relies on. -/
def Moves (P : Outline M G) (w : World M G) (t : ℕ) (e : Event Op Ret) (σ : M.Shared)
    (f : Option (Frame M)) : Prop :=
  ∃ g, P.inv (w.record e σ g) ∧ P.loc t f (w.record e σ g) ∧
    ∀ u, u ≠ t → P.rely u w (w.record e σ g)

structure Sound (P : Outline M G) (ok : ℕ → M.Shared → M.Local → Bool) : Prop where
  init : ∃ g, P.inv ⟨M.init, [], g⟩ ∧ ∀ t, P.loc t none ⟨M.init, [], g⟩
  stable : ∀ w e σ g t f, P.inv w → P.inv (w.record e σ g) → P.loc t f w → e.thread ≠ t →
    P.rely t w (w.record e σ g) → P.loc t f (w.record e σ g)
  call : ∀ w t op, P.inv w → P.loc t none w → M.admits w.events t op = true →
    P.Moves w t (.inv t op) w.shared
      (some ⟨w.trace.length, op, M.start t w.trace.length op⟩)
  run : ∀ w t f ch σ o, P.inv w → P.loc t (some f) w → ok t w.shared f.loc →
    M.step t ch w.shared f.loc = some (σ, o) →
    P.Moves w t (.ofStep t o) σ (f.resume o)

/-- The outline holds of a configuration, for some ghost value. -/
def Holds (P : Outline M G) (c : Config M) (g : G) : Prop :=
  P.inv ⟨c.shared, c.trace, g⟩ ∧ ∀ t, P.loc t (c.frames t) ⟨c.shared, c.trace, g⟩

variable {P : Outline M G} {ok : ℕ → M.Shared → M.Local → Bool}

theorem Sound.moves (hP : P.Sound ok) {c : Config M} {g : G} (hc : P.Holds c g) {t : ℕ}
    {e : Event Op Ret} {σ : M.Shared} {f : Option (Frame M)} (he : e.thread = t)
    (hm : P.Moves ⟨c.shared, c.trace, g⟩ t e σ f) : ∃ g', P.Holds (c.record t e σ f) g' := by
  obtain ⟨g', hinv, hloc, hrely⟩ := hm
  refine ⟨g', hinv, fun u => ?_⟩
  by_cases hu : u = t
  · subst hu
    have hf : (c.record u e σ f).frames u = f := Function.update_self ..
    rw [hf]
    exact hloc
  · have hf : (c.record t e σ f).frames u = c.frames u := Function.update_of_ne hu ..
    rw [hf]
    exact hP.stable _ e σ g' u (c.frames u) hc.1 hinv (hc.2 u) (by rw [he]; exact Ne.symm hu)
      (hrely u hu)

/-- **Soundness of proof outlines**: a sound outline holds in every
configuration that runs satisfying `ok` reach. -/
theorem Sound.reach (hP : P.Sound ok) {c : Config M} (hc : Reach M ok c) :
    ∃ g, P.Holds c g := by
  induction hc with
  | init =>
    obtain ⟨g, hinv, hloc⟩ := hP.init
    exact ⟨g, hinv, hloc⟩
  | @call c c' t op _ h ih =>
    obtain ⟨g, hg⟩ := ih
    obtain ⟨hf, ha, rfl⟩ := Config.next_call h
    have hl := hg.2 t
    rw [hf] at hl
    exact hP.moves hg rfl (hP.call ⟨c.shared, c.trace, g⟩ t op hg.1 hl ha)
  | @run c c' t ch f _ hf hok h ih =>
    obtain ⟨g, hg⟩ := ih
    obtain ⟨f', σ, o, hf', hs, rfl⟩ := Config.next_run h
    obtain rfl : f = f' := by simpa [hf] using hf'
    have hl := hg.2 t
    rw [hf] at hl
    exact hP.moves hg (Event.ofStep_thread t o)
      (hP.run ⟨c.shared, c.trace, g⟩ t f ch σ o hg.1 hl hok hs)

theorem Sound.responses (hP : P.Sound ok) {p : Ret → Prop}
    (hp : ∀ {w : World M G} {t : ℕ} {f : Frame M} {ch : M.Choice} {σ : M.Shared} {r : Ret},
      P.inv w → P.loc t (some f) w → ok t w.shared f.loc = true →
      M.step t ch w.shared f.loc = some (σ, .inr r) → p r)
    {c : Config M} (hc : Reach M ok c) : ∀ t r, .res t r ∈ c.events → p r := by
  refine Reach.responses (fun {c t f ch σ r} hc hf hok hs => ?_) hc
  obtain ⟨g, hinv, hloc⟩ := hP.reach hc
  have hl := hloc t
  rw [hf] at hl
  exact hp hinv hl hok hs

end Outline

/-- In configuration `c` the pending call `f` of thread `t` returns `r`, which
leads to `c'`. -/
def Returning (c : Config M) (t : ℕ) (f : Frame M) (r : Ret) (c' : Config M) : Prop :=
  c.frames t = some f ∧ ∃ ch σ, M.step t ch c.shared f.loc = some (σ, .inr r) ∧
    c' = c.record t (.res t r) σ none

/-- What thread `t` is about to return, if its next access ends its call. -/
def nextResult (c : Config M) (t : ℕ) (ch : M.Choice) : Option Ret :=
  (c.frames t).bind fun f => (M.step t ch c.shared f.loc).bind fun p => p.2.getRight?

theorem returning_nextResult {c : Config M} {t : ℕ} {ch : M.Choice} {r : Ret}
    (h : nextResult c t ch = some r) : ∃ f c', Returning c t f r c' := by
  obtain ⟨f, hf, h⟩ := Option.bind_eq_some_iff.mp h
  obtain ⟨⟨σ, o⟩, hs, ho⟩ := Option.bind_eq_some_iff.mp h
  obtain rfl := Sum.getRight?_eq_some_iff.mp ho
  exact ⟨f, _, hf, ch, σ, hs, rfl⟩

/-- All facts of a list hold; a conjunction without a trailing `True`. -/
def AllOf {F : Type} (p : F → Prop) : List F → Prop
  | [] => True
  | [a] => p a
  | a :: b :: l => p a ∧ AllOf p (b :: l)

theorem AllOf.imp {F : Type} {p q : F → Prop} (h : ∀ a, p a → q a) :
    ∀ {l : List F}, AllOf p l → AllOf q l
  | [], _ => trivial
  | [a], ha => h a ha
  | a :: _ :: _, ⟨ha, hl⟩ => ⟨h a ha, AllOf.imp h hl⟩

theorem AllOf.mem {F : Type} {p : F → Prop} {a : F} :
    ∀ {l : List F}, AllOf p l → a ∈ l → p a
  | [], _, hm => absurd hm List.not_mem_nil
  | [b], hb, hm => List.mem_singleton.mp hm ▸ hb
  | b :: c :: l, ⟨hb, hl⟩, hm => by
    rcases List.mem_cons.mp hm with rfl | hm
    · exact hb
    · exact AllOf.mem hl hm

/-! ### What a call did, read off the trace -/

/-- The changes of `Q` made by the steps of thread `t` from time `i` on. -/
def changes {A : Type} [DecidableEq A] (Q : M.Shared → A) (tr : List (Moment M)) (t i : ℕ) :
    List (A × A) :=
  (tr.drop i).filterMap fun m =>
    if m.event.thread = t ∧ Q m.before ≠ Q m.after then some (Q m.before, Q m.after) else none

/-- At some time from `i` on the shared state satisfied `p`. -/
def Since (tr : List (Moment M)) (i : ℕ) (p : M.Shared → Prop) : Prop :=
  ∃ m ∈ tr.drop i, p m.after

theorem Since.append {tr tr' : List (Moment M)} {i : ℕ} {p : M.Shared → Prop}
    (hs : Since tr i p) : Since (tr ++ tr') i p := by
  obtain ⟨m, hm, hp⟩ := hs
  refine ⟨m, ?_, hp⟩
  rw [List.drop_append]
  exact List.mem_append_left _ hm

theorem since_record {G : Type} {w : World M G} {e : Event Op Ret} {σ : M.Shared} {g : G}
    {i : ℕ} {p : M.Shared → Prop} (hi : i ≤ w.trace.length) (hp : p σ) :
    Since (w.record e σ g).trace i p := by
  refine ⟨⟨e, w.shared, σ⟩, ?_, hp⟩
  rw [World.record_trace, List.drop_append_of_le_length hi]
  simp

theorem changes_append {A : Type} [DecidableEq A] {Q : M.Shared → A} {tr : List (Moment M)}
    {m : Moment M} {t i : ℕ} (hi : i ≤ tr.length) :
    changes Q (tr ++ [m]) t i = changes Q tr t i ++
      if m.event.thread = t ∧ Q m.before ≠ Q m.after then [(Q m.before, Q m.after)] else [] := by
  rw [changes, changes, List.drop_append_of_le_length hi, List.filterMap_append]
  by_cases hm : m.event.thread = t ∧ Q m.before ≠ Q m.after <;>
    simp [hm]

section Record

variable {G A : Type} [DecidableEq A] {Q : M.Shared → A} {w : World M G} {t i : ℕ}
  {e : Event Op Ret} {σ : M.Shared} {g : G}

/-- Steps of other threads are not changes made by `t`. -/
theorem changes_other (hi : i ≤ w.trace.length) (he : e.thread ≠ t) :
    changes Q (w.record e σ g).trace t i = changes Q w.trace t i := by
  rw [World.record_trace, changes_append hi, if_neg (fun h => he h.1), List.append_nil]

theorem changes_same (hi : i ≤ w.trace.length) (hq : Q σ = Q w.shared) :
    changes Q (w.record e σ g).trace t i = changes Q w.trace t i := by
  rw [World.record_trace, changes_append hi, if_neg (fun h => h.2 hq.symm), List.append_nil]

theorem changes_own (hi : i ≤ w.trace.length) (he : e.thread = t) (hq : Q σ ≠ Q w.shared) :
    changes Q (w.record e σ g).trace t i =
      changes Q w.trace t i ++ [(Q w.shared, Q σ)] := by
  rw [World.record_trace, changes_append hi, if_pos ⟨he, Ne.symm hq⟩]

end Record

theorem ne_of_mem_changes {A : Type} [DecidableEq A] {Q : M.Shared → A} {tr : List (Moment M)}
    {t i : ℕ} {a b : A} (h : (a, b) ∈ changes Q tr t i) : a ≠ b := by
  obtain ⟨m, -, hm⟩ := List.mem_filterMap.mp h
  obtain ⟨⟨-, hne⟩, hab⟩ := Option.ite_none_right_eq_some.mp hm
  obtain ⟨rfl, rfl⟩ := Prod.mk.inj (Option.some.inj hab)
  exact hne

theorem changes_nil {A : Type} [DecidableEq A] {Q : M.Shared → A} {tr : List (Moment M)}
    {t i : ℕ} (hi : tr.length ≤ i) : changes Q tr t i = [] := by
  rw [changes, List.drop_eq_nil_of_le hi, List.filterMap_nil]

end Interleave

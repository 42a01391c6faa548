/-
A way to prove that an object is a linearizable unbounded bag.

Each item in the bag has a key, and an access puts at most one item at a free key, or takes
the item of one key.  A `BagProof` says what holds of the memory (`inv`), what a thread
knows at each point of its call (`knows`) and between its calls (`ready`), what it relies
on about the steps of others (`rely`), and how far its call has got (`phase`); and it shows
for every access which of the `BagEffect`s it has.  A get that finds nothing must have seen
the bag empty during the call: `saw` says that the thread did.

* `BagProof.not_refused` — every put that returns has put its item;
* `BagProof.linearizable` — every history that runs reach is linearizable.
-/
import Scal.Linearizable

open Interleave

namespace Linearizability

variable {α : Type}

/-- How far a call has got. -/
inductive BagPhase (α : Type) where
  /-- The item is not in the bag yet. -/
  | putting (x : α)
  | put (x : α)
  /-- No item was taken yet. -/
  | getting
  | got (x : α)

/-- The phase in which a call begins. -/
def BagPhase.begin : BagOp α → BagPhase α
  | .put x => .putting x
  | .get => .getting

/-- What an access does to the bag, given the phase of its call, and the outcome `o` of the
access: the phase after it, or the result.  The thread saw the bag empty if `saw`, and
after the access if `saw'`. -/
inductive BagEffect {κ : Type} [DecidableEq κ] (bag bag' : κ → Option α) (saw saw' : Bool) :
    BagPhase α → BagPhase α ⊕ BagRet α → Prop
  | go {φ : BagPhase α} : bag' = bag → (saw' = true → saw = true ∨ ∀ k, bag k = none) →
      BagEffect bag bag' saw saw' φ (.inl φ)
  | put {x : α} {k : κ} : bag k = none → bag' = Function.update bag k (some x) →
      BagEffect bag bag' saw saw' (.putting x) (.inl (.put x))
  | take {x : α} {k : κ} : bag k = some x → bag' = Function.update bag k none →
      BagEffect bag bag' saw saw' .getting (.inl (.got x))
  | putDone {x : α} : bag' = bag → BagEffect bag bag' saw saw' (.put x) (.inr (.put true))
  | gotDone {x : α} : bag' = bag → BagEffect bag bag' saw saw' (.got x) (.inr (.got (some x)))
  | gotNone : bag' = bag → saw = true → BagEffect bag bag' saw saw' .getting (.inr (.got none))

structure BagProof (M : Machine (BagOp α) (BagRet α)) (ok : ℕ → M.Shared → M.Local → Bool)
    (G κ : Type) [DecidableEq κ] where
  inv : M.Shared → G → Prop
  knows : ℕ → M.Shared → G → M.Local → Prop
  ready : ℕ → M.Shared → G → Prop
  rely : ℕ → M.Shared → G → M.Shared → G → Prop
  bag : M.Shared → G → κ → Option α
  phase : M.Shared → M.Local → BagPhase α
  saw : G → ℕ → Bool
  start : ∃ g, inv M.init g ∧ (∀ t, ready t M.init g) ∧ bag M.init g = fun _ => none
  stable : ∀ {t σ g σ' g' l}, knows t σ g l → rely t σ g σ' g' →
    knows t σ' g' l ∧ phase σ' l = phase σ l
  waiting : ∀ {t σ g σ' g'}, ready t σ g → rely t σ g σ' g' → ready t σ' g'
  sees : ∀ {t σ g σ' g'}, rely t σ g σ' g' → saw g' t = saw g t
  call : ∀ {σ g t} (h : List (Event (BagOp α) (BagRet α))) (op : BagOp α), inv σ g →
    ready t σ g → M.admits h t op = true → ∃ g', inv σ g' ∧
      knows t σ g' (M.start t h.length op) ∧ phase σ (M.start t h.length op) = .begin op ∧
      bag σ g' = bag σ g ∧ saw g' t = false ∧ ∀ u, u ≠ t → rely u σ g σ g'
  access : ∀ {σ g t l ch σ' o}, inv σ g → knows t σ g l → ok t σ l = true →
    M.step t ch σ l = some (σ', o) → ∃ g', inv σ' g' ∧ (∀ u, u ≠ t → rely u σ g σ' g') ∧
      (∀ l', o = .inl l' → knows t σ' g' l') ∧ (∀ r, o = .inr r → ready t σ' g') ∧
      BagEffect (bag σ g) (bag σ' g') (saw g t) (saw g' t) (phase σ l)
        (o.map (phase σ') id)

theorem BagEffect.not_refused {κ : Type} [DecidableEq κ] {bag bag' : κ → Option α}
    {saw saw' : Bool} {φ : BagPhase α} {r : BagRet α}
    (h : BagEffect bag bag' saw saw' φ (.inr r)) : r.refused = false := by
  cases h <;> rfl

namespace BagProof

variable {M : Machine (BagOp α) (BagRet α)} {ok : ℕ → M.Shared → M.Local → Bool}
  {G κ : Type} [DecidableEq κ] (P : BagProof M ok G κ)

/-- The status of a thread whose call `id` has got this far. -/
def Fits (id : ℕ) (saw : Bool) : BagPhase α → Status α → Prop
  | .putting x, st => ∃ s, st = .pending id (.put x) s
  | .put x, st => st = .done id (.put x) (.put true)
  | .getting, st => ∃ s, st = .pending id .get s ∧ (saw = true → s = true)
  | .got x, st => st = .done id .get (.got (some x))

structure Inv (w : World M (G × (ℕ → Status α))) : Prop where
  inv : P.inv w.shared w.ghost.1
  lin : Lin w.events (P.bag w.shared w.ghost.1) w.ghost.2

def outline : Outline M (G × (ℕ → Status α)) where
  inv := P.Inv
  loc t f w := match f with
    | none => P.ready t w.shared w.ghost.1 ∧ w.ghost.2 t = .idle
    | some f => P.knows t w.shared w.ghost.1 f.loc ∧
      Fits f.id (P.saw w.ghost.1 t) (P.phase w.shared f.loc) (w.ghost.2 t)
  rely u w w' := P.rely u w.shared w.ghost.1 w'.shared w'.ghost.1 ∧ w'.ghost.2 u = w.ghost.2 u

variable {P} {w : World M (G × (ℕ → Status α))} {t : ℕ} {f : Frame M} {σ : M.Shared} {g : G}

/-- The call goes on, and the status of its thread becomes `st`. -/
theorem moves_go {l : M.Local} (st : Status α) (hI : P.inv σ g)
    (hr : ∀ u, u ≠ t → P.rely u w.shared w.ghost.1 σ g) (hk : P.knows t σ g l)
    (hl : Lin (w.events ++ [.tau t]) (P.bag σ g) (Function.update w.ghost.2 t st))
    (hf : Fits f.id (P.saw g t) (P.phase σ l) st) :
    P.outline.Moves w t (.ofStep (M := M) t (.inl l)) σ (f.resume (.inl l)) := by
  refine ⟨(g, Function.update w.ghost.2 t st), ⟨hI, ?_⟩, ⟨hk, ?_⟩, fun u hu =>
    ⟨hr u hu, Function.update_of_ne hu ..⟩⟩
  · rw [World.record_events]
    exact hl
  · show Fits f.id (P.saw g t) (P.phase σ l) (Function.update w.ghost.2 t st t)
    rw [Function.update_self]
    exact hf

/-- The call returns. -/
theorem moves_stop {r : BagRet α} (hI : P.inv σ g)
    (hr : ∀ u, u ≠ t → P.rely u w.shared w.ghost.1 σ g) (hready : P.ready t σ g)
    (hl : Lin (w.events ++ [.res t r]) (P.bag σ g) (Function.update w.ghost.2 t .idle)) :
    P.outline.Moves w t (.ofStep (M := M) t (.inr r)) σ (f.resume (.inr r)) := by
  refine ⟨(g, Function.update w.ghost.2 t .idle), ⟨hI, ?_⟩,
    ⟨hready, Function.update_self ..⟩, fun u hu => ⟨hr u hu, Function.update_of_ne hu ..⟩⟩
  rw [World.record_events]
  exact hl

/-- The bag and the status of the thread change as the effect says. -/
theorem moves_step (hw : P.Inv w) (hf : Fits f.id (P.saw w.ghost.1 t) (P.phase w.shared f.loc)
      (w.ghost.2 t)) {o : M.Local ⊕ BagRet α} (hI : P.inv σ g)
    (hr : ∀ u, u ≠ t → P.rely u w.shared w.ghost.1 σ g)
    (hk : ∀ l, o = .inl l → P.knows t σ g l) (hready : ∀ r, o = .inr r → P.ready t σ g)
    (heff : BagEffect (P.bag w.shared w.ghost.1) (P.bag σ g) (P.saw w.ghost.1 t) (P.saw g t)
      (P.phase w.shared f.loc) (o.map (P.phase σ) id)) :
    P.outline.Moves w t (.ofStep t o) σ (f.resume o) := by
  have hstat : Function.update w.ghost.2 t (w.ghost.2 t) = w.ghost.2 := by simp
  generalize hφ : P.phase w.shared f.loc = φ at hf heff
  cases o with
  | inl l =>
    have hk := hk l rfl
    generalize hφ' : P.phase σ l = φ' at heff
    have heff : BagEffect (P.bag w.shared w.ghost.1) (P.bag σ g) (P.saw w.ghost.1 t) (P.saw g t) φ
        (.inl φ') := hφ' ▸ heff
    cases heff with
    | go hbag hsaw =>
      by_cases hobs : φ = .getting ∧ ∀ k, P.bag w.shared w.ghost.1 k = none
      · obtain ⟨rfl, he⟩ := hobs
        obtain ⟨s, hst, -⟩ := hf
        refine moves_go (.pending f.id .get true) hI hr hk ?_ ?_
        · rw [hbag]
          exact (hw.lin.tau t).observe hst he
        · rw [hφ']
          exact ⟨true, rfl, fun _ => rfl⟩
      · refine moves_go (w.ghost.2 t) hI hr hk ?_ ?_
        · rw [hbag, hstat]
          exact hw.lin.tau t
        · rw [hφ']
          cases φ with
          | getting =>
            obtain ⟨s, hst, hs⟩ := hf
            exact ⟨s, hst, fun h => hs ((hsaw h).resolve_right fun he => hobs ⟨rfl, he⟩)⟩
          | putting x => exact hf
          | put x => exact hf
          | got x => exact hf
    | put hnone hbag =>
      obtain ⟨s, hst⟩ := hf
      refine moves_go _ hI hr hk ?_ (by rw [hφ']; rfl)
      rw [hbag]
      exact (hw.lin.tau t).put hst hnone
    | take hsome hbag =>
      obtain ⟨s, hst, -⟩ := hf
      refine moves_go _ hI hr hk ?_ (by rw [hφ']; rfl)
      rw [hbag]
      exact (hw.lin.tau t).take hst hsome
  | inr r =>
    refine moves_stop hI hr (hready r rfl) ?_
    have heff : BagEffect (P.bag w.shared w.ghost.1) (P.bag σ g) (P.saw w.ghost.1 t) (P.saw g t) φ
        (.inr r) := heff
    cases heff with
    | putDone hbag =>
      rw [hbag]
      exact hw.lin.resDone hf
    | gotDone hbag =>
      rw [hbag]
      exact hw.lin.resDone hf
    | gotNone hbag hsaw =>
      obtain ⟨s, hst, hs⟩ := hf
      rw [hbag]
      exact hw.lin.resNone (hs hsaw ▸ hst)

theorem outline_sound (P : BagProof M ok G κ) : P.outline.Sound ok where
  init := by
    obtain ⟨g, hI, hready, hbag⟩ := P.start
    refine ⟨(g, fun _ => .idle), ⟨hI, ?_⟩, fun t => ⟨hready t, rfl⟩⟩
    show Lin [] (P.bag M.init g) _
    rw [hbag]
    exact lin_init
  stable := by
    intro w e σ g t f _ _ hf _ hr
    obtain ⟨hr, hs⟩ := hr
    have hs : g.2 t = w.ghost.2 t := hs
    have hsees : P.saw g.1 t = P.saw w.ghost.1 t := P.sees hr
    cases f with
    | none => exact ⟨P.waiting hf.1 hr, hs.trans hf.2⟩
    | some f =>
      obtain ⟨hk, hfit⟩ := hf
      obtain ⟨hk', hφ⟩ := P.stable hk hr
      have hφ : P.phase σ f.loc = P.phase w.shared f.loc := hφ
      refine ⟨hk', ?_⟩
      show Fits f.id (P.saw g.1 t) (P.phase σ f.loc) (g.2 t)
      rw [hsees, hφ, hs]
      exact hfit
  call := by
    intro w t op hw hidle ha
    obtain ⟨g', hI, hk, hφ, hbag, hsaw, hr⟩ := P.call w.events op hw.inv hidle.1 ha
    rw [World.length_events] at hk hφ
    refine ⟨(g', Function.update w.ghost.2 t (.pending w.events.length op false)), ⟨hI, ?_⟩,
      ⟨hk, ?_⟩, fun u hu => ⟨hr u hu, Function.update_of_ne hu ..⟩⟩
    · rw [World.record_events]
      show Lin _ (P.bag w.shared g') _
      rw [hbag]
      exact hw.lin.inv hidle.2 op
    · show Fits w.trace.length (P.saw g' t) (P.phase w.shared (M.start t w.trace.length op))
        (Function.update w.ghost.2 t (.pending w.events.length op false) t)
      rw [hφ, hsaw, Function.update_self, World.length_events]
      cases op with
      | put x => exact ⟨false, rfl⟩
      | get => exact ⟨false, rfl, id⟩
  run := by
    intro w t f ch σ o hw hf hok hs
    obtain ⟨g', hI, hr, hk, hready, heff⟩ := P.access hw.inv hf.1 hok hs
    exact moves_step hw hf.2 hI hr hk hready heff

theorem not_refused (P : BagProof M ok G κ) {c : Config M} (hc : Reach M ok c) :
    ∀ t r, .res t r ∈ c.events → r.refused = false := by
  refine P.outline_sound.responses (fun hw hl hok hs => ?_) hc
  obtain ⟨g', -, -, -, -, heff⟩ := P.access hw.inv hl.1 hok hs
  exact heff.not_refused

/-- **Soundness**: an object with a `BagProof` is a linearizable unbounded bag. -/
theorem linearizable (P : BagProof M ok G κ) {c : Config M} (hc : Reach M ok c) :
    Linearizable (unboundedBagSpec α) c.events := by
  obtain ⟨g, hw, -⟩ := P.outline_sound.reach hc
  exact hw.lin.linearizable.unbounded (P.not_refused hc)

end BagProof

end Linearizability

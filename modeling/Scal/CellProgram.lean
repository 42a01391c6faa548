/-
Programs over cells of a value and an ABA counter.

The cells may have any layout: `Members` has the member functions of a class.  A program works on
variables, and the abstract cell is one of the classes.

* `pair` — the abstract cell, a value and a counter modulo `m`;
* `Refines` — the programs on the cells of a class show what they show on abstract cells;
* `Simulates` — the proof rule: a relation of cells that every member function keeps.
-/
import Scal.AtomicValue
import Mathlib.Logic.Function.Basic

namespace CellProgram

/-! ### Cells and programs -/

/-- The member functions of an `AtomicValue` class, for cells `C` whose words are `W`.
`none` is a loop that does not end. -/
structure Members (C W : Type) where
  default : C
  new : BitVec 64 → BitVec 64 → C
  copy : C → Option C
  assign : C → C → Option C
  value : C → Option (BitVec 64)
  aba : C → Option ℕ
  raw : C → Option W
  setRaw : C → W → Option C
  setValue : C → BitVec 64 → Option C
  weakSetValue : C → BitVec 64 → Option C
  setAba : C → BitVec 64 → Option C
  weakSetAba : C → BitVec 64 → Option C
  cas : C → C → C → C × Bool

/-- A statement about variables that hold cells. -/
inductive Command where
  | default (x : ℕ)
  | new (x : ℕ) (value aba : BitVec 64)
  | copy (x y : ℕ)
  | assign (x y : ℕ)
  | setValue (x : ℕ) (value : BitVec 64)
  | weakSetValue (x : ℕ) (value : BitVec 64)
  | setAba (x : ℕ) (aba : BitVec 64)
  | weakSetAba (x : ℕ) (aba : BitVec 64)
  /-- `x.set_raw(y.raw())`. -/
  | setRaw (x y : ℕ)
  | cas (x expected newcp : ℕ)
  deriving DecidableEq

/-- All values that the statement names satisfy `ok`. -/
def Command.Stores (ok : BitVec 64 → Prop) : Command → Prop
  | .new _ value _ => ok value
  | .setValue _ value => ok value
  | .weakSetValue _ value => ok value
  | _ => True

/-- The variables that were constructed, with their cells. -/
abbrev Store (C : Type) := ℕ → Option C

namespace Members

variable {C W : Type}

/-- `x.f()`, where `f` changes `x`; `none` if `x` was not constructed. -/
def change (s : Store C) (x : ℕ) (f : C → Option C) : Option (Store C × List Bool) :=
  (s x).bind fun c => (f c).map fun c' => (Function.update s x (some c'), [])

/-- A statement; with what `cas` returns. -/
def exec (K : Members C W) (s : Store C) : Command → Option (Store C × List Bool)
  | .default x => some (Function.update s x (some K.default), [])
  | .new x value aba => some (Function.update s x (some (K.new value aba)), [])
  | .copy x y =>
    (s y).bind fun c => (K.copy c).map fun c' => (Function.update s x (some c'), [])
  | .assign x y => (s y).bind fun rhs => change s x fun c => K.assign c rhs
  | .setValue x value => change s x fun c => K.setValue c value
  | .weakSetValue x value => change s x fun c => K.weakSetValue c value
  | .setAba x aba => change s x fun c => K.setAba c aba
  | .weakSetAba x aba => change s x fun c => K.weakSetAba c aba
  | .setRaw x y => (s y).bind fun c' => (K.raw c').bind fun w => change s x fun c => K.setRaw c w
  | .cas x expected newcp =>
    (s x).bind fun c => (s expected).bind fun e => (s newcp).map fun d =>
      (Function.update s x (some (K.cas c e d).1), [(K.cas c e d).2])

/-- A program, and the results of `cas` in order. -/
def run (K : Members C W) : Store C → List Command → Option (Store C × List Bool)
  | s, [] => some (s, [])
  | s, c :: cs =>
    (K.exec s c).bind fun p => (K.run p.1 cs).map fun q => (q.1, p.2 ++ q.2)

end Members

/-- The abstract cell: a value, and a counter modulo `m`. -/
def pair (m : ℕ) : Members (AtomicValue (BitVec 64)) (AtomicValue (BitVec 64)) where
  default := ⟨0, 0⟩
  new value aba := ⟨value, aba.toNat % m⟩
  copy c := some c
  assign _ rhs := some rhs
  value c := some c.value
  aba c := some c.aba
  raw c := some c
  setRaw _ w := some w
  setValue c value := some { c with value := value }
  weakSetValue c value := some { c with value := value }
  setAba c aba := some { c with aba := aba.toNat % m }
  weakSetAba c aba := some { c with aba := aba.toNat % m }
  cas c expected newcp := if c = expected then (newcp, true) else (c, false)

/-- The two components that a cell shows are those of the abstract cell. -/
def Shows {C W : Type} (K : Members C W) (c : C) (p : AtomicValue (BitVec 64)) : Prop :=
  K.value c = some p.value ∧ K.aba c = some p.aba

/-- Every program of values that satisfy `ok` does on the cells of `K` what it does on abstract
cells: afterwards all variables show what these hold, and all `cas` had the same results. -/
def Refines {C W : Type} (K : Members C W) (m : ℕ) (ok : BitVec 64 → Prop) : Prop :=
  ∀ cs : List Command, (∀ c ∈ cs, c.Stores ok) →
    Option.Rel (fun p q => (∀ x, Option.Rel (Shows K) (p.1 x) (q.1 x)) ∧ p.2 = q.2)
      (K.run (fun _ => none) cs) ((pair m).run (fun _ => none) cs)

/-! ### Simulation -/

section Simulation

variable {C C' W W' A A' B B' : Type}

theorem rel_bind {r : A → A' → Prop} {t : B → B' → Prop} {o : Option A} {o' : Option A'}
    {f : A → Option B} {f' : A' → Option B'} (h : Option.Rel r o o')
    (hf : ∀ a a', r a a' → Option.Rel t (f a) (f' a')) :
    Option.Rel t (o.bind f) (o'.bind f') := by
  cases h with
  | some h => exact hf _ _ h
  | none => exact .none

theorem rel_map {r : A → A' → Prop} {t : B → B' → Prop} {o : Option A} {o' : Option A'}
    {f : A → B} {f' : A' → B'} (h : Option.Rel r o o') (hf : ∀ a a', r a a' → t (f a) (f' a')) :
    Option.Rel t (o.map f) (o'.map f') := by
  cases h with
  | some h => exact .some (hf _ _ h)
  | none => exact .none

/-- Cells related by `R` and words related by `Q` are changed alike. -/
structure Simulates (K : Members C W) (L : Members C' W') (ok : BitVec 64 → Prop)
    (R : C → C' → Prop) (Q : W → W' → Prop) : Prop where
  default : R K.default L.default
  new : ∀ v a, ok v → R (K.new v a) (L.new v a)
  copy : ∀ c p, R c p → Option.Rel R (K.copy c) (L.copy p)
  assign : ∀ c p d q, R c p → R d q → Option.Rel R (K.assign c d) (L.assign p q)
  raw : ∀ c p, R c p → Option.Rel Q (K.raw c) (L.raw p)
  setRaw : ∀ c p w w', R c p → Q w w' → Option.Rel R (K.setRaw c w) (L.setRaw p w')
  setValue : ∀ c p v, R c p → ok v → Option.Rel R (K.setValue c v) (L.setValue p v)
  weakSetValue : ∀ c p v, R c p → ok v → Option.Rel R (K.weakSetValue c v) (L.weakSetValue p v)
  setAba : ∀ c p a, R c p → Option.Rel R (K.setAba c a) (L.setAba p a)
  weakSetAba : ∀ c p a, R c p → Option.Rel R (K.weakSetAba c a) (L.weakSetAba p a)
  cas : ∀ c p d q e r, R c p → R d q → R e r →
    R (K.cas c d e).1 (L.cas p q r).1 ∧ (K.cas c d e).2 = (L.cas p q r).2

/-- The stores and the results of related programs. -/
def Related (R : C → C' → Prop) (p : Store C × List Bool) (q : Store C' × List Bool) : Prop :=
  (∀ x, Option.Rel R (p.1 x) (q.1 x)) ∧ p.2 = q.2

variable {K : Members C W} {L : Members C' W'} {ok : BitVec 64 → Prop} {R : C → C' → Prop}
  {Q : W → W' → Prop} {s : Store C} {t : Store C'}

theorem related_update (hs : ∀ x, Option.Rel R (s x) (t x)) (x : ℕ) {c : C} {p : C'} (h : R c p)
    (b : List Bool) :
    Related R (Function.update s x (some c), b) (Function.update t x (some p), b) := by
  refine ⟨fun y => ?_, rfl⟩
  by_cases hy : y = x
  · subst hy
    simp only [Function.update_self]
    exact .some h
  · simp only [Function.update_of_ne hy]
    exact hs y

theorem related_change (hs : ∀ x, Option.Rel R (s x) (t x)) (x : ℕ) {f : C → Option C}
    {f' : C' → Option C'} (hf : ∀ c p, R c p → Option.Rel R (f c) (f' p)) :
    Option.Rel (Related R) (Members.change s x f) (Members.change t x f') :=
  rel_bind (hs x) fun c p h => rel_map (hf c p h) fun _ _ h' => related_update hs x h' []

/-- A statement changes related stores alike. -/
theorem Simulates.exec (h : Simulates K L ok R Q) (hs : ∀ x, Option.Rel R (s x) (t x))
    {c : Command} (hc : c.Stores ok) : Option.Rel (Related R) (K.exec s c) (L.exec t c) := by
  cases c with
  | default x => exact .some (related_update hs x h.default [])
  | new x v a => exact .some (related_update hs x (h.new v a hc) [])
  | copy x y =>
    exact rel_bind (hs y) fun c p hcp =>
      rel_map (h.copy c p hcp) fun _ _ h' => related_update hs x h' []
  | assign x y =>
    exact rel_bind (hs y) fun d q hdq =>
      related_change hs x fun c p hcp => h.assign c p d q hcp hdq
  | setValue x v => exact related_change hs x fun c p hcp => h.setValue c p v hcp hc
  | weakSetValue x v => exact related_change hs x fun c p hcp => h.weakSetValue c p v hcp hc
  | setAba x a => exact related_change hs x fun c p hcp => h.setAba c p a hcp
  | weakSetAba x a => exact related_change hs x fun c p hcp => h.weakSetAba c p a hcp
  | setRaw x y =>
    exact rel_bind (hs y) fun d q hdq => rel_bind (h.raw d q hdq) fun w w' hw =>
      related_change hs x fun c p hcp => h.setRaw c p w w' hcp hw
  | cas x e d =>
    refine rel_bind (hs x) fun c p hcp => rel_bind (hs e) fun c₁ p₁ h₁ =>
      rel_map (hs d) fun c₂ p₂ h₂ => ?_
    obtain ⟨hcas, hret⟩ := h.cas c p c₁ p₁ c₂ p₂ hcp h₁ h₂
    rw [hret]
    exact related_update hs x hcas _

/-- And so does a program. -/
theorem Simulates.run (h : Simulates K L ok R Q) : ∀ (cs : List Command) {s : Store C}
    {t : Store C'}, (∀ x, Option.Rel R (s x) (t x)) → (∀ c ∈ cs, c.Stores ok) →
    Option.Rel (Related R) (K.run s cs) (L.run t cs) := by
  intro cs
  induction cs with
  | nil => exact fun hs _ => .some ⟨hs, rfl⟩
  | cons c cs ih =>
    intro s t hs hok
    refine rel_bind (h.exec hs (hok c List.mem_cons_self)) fun p q hpq => ?_
    refine rel_map (ih hpq.1 fun d hd => hok d (List.mem_cons_of_mem _ hd)) fun p' q' hpq' => ?_
    exact ⟨hpq'.1, congrArg₂ (· ++ ·) hpq.2 hpq'.2⟩

theorem rel_mono {r r' : A → A' → Prop} (hr : ∀ a a', r a a' → r' a a') {o : Option A}
    {o' : Option A'} (h : Option.Rel r o o') : Option.Rel r' o o' := by
  cases h with
  | some h => exact .some (hr _ _ h)
  | none => exact .none

/-- A layout that simulates the abstract cell, and shows what this holds, refines it. -/
theorem Simulates.refines {m : ℕ} {R : C → AtomicValue (BitVec 64) → Prop}
    {Q : W → AtomicValue (BitVec 64) → Prop} (h : Simulates K (pair m) ok R Q)
    (hshow : ∀ c p, R c p → Shows K c p) : Refines K m ok := fun cs hok =>
  rel_mono (fun _ _ hpq => ⟨fun x => rel_mono hshow (hpq.1 x), hpq.2⟩)
    (h.run cs (fun _ => .none) hok)

end Simulation

end CellProgram

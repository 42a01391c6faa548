/-
The distributed queue as a linearizable bag, over verified backends.

A verified backend (`Verified`) says which items it stores (`cells`), what a thread
knows at each point of an operation, and what each of its accesses does (`Turn`): a
put may first link its item and have another thread store it later.  While the word
`empty_state()` stays the same the backend gets no item, and a word that has changed
does not come back (`Steady`).  The second pass of `get` therefore tells whether all
backends were empty at once, when the first pass was over.

* `Verified.not_refused` — every put that returns has put its item;
* `Verified.linearizable` — the distributed queue over `num_queues` copies of a
  verified backend is a linearizable bag.
-/
import Scal.DistributedQueue
import Scal.SlotPool

open Interleave Linearizability

namespace DistributedQueue

variable {α : Type}

/-! ### Verified backends -/

/-- A node of a backend: not there, linked by the put of thread `u` but not stored
yet, or stored. -/
inductive Cell (α : Type) where
  | absent
  | linked (u : ℕ) (x : α)
  | stored (x : α)

def Cell.value : Cell α → Option α
  | .absent => none
  | .linked _ x => some x
  | .stored x => some x

def Cell.mark : Cell α → Mark Unit
  | .absent => .free
  | .linked u _ => .pending u ()
  | .stored _ => .kept ()

/-- How far an operation of a backend has got: a put has not linked its item, or has
linked it as node `n`; a get has no result; the result is fixed; a get found the
backend empty in state `w`. -/
inductive Phase (α : Type) where
  | put (x : α)
  | linked (x : α) (n : ℕ)
  | get
  | done (r : BagRet α)
  | empty (w : AtomicPointer)

/-- What an access of thread `t` does to the nodes, and to its own operation. -/
inductive Turn (t : ℕ) (c c' : ℕ → Cell α) : Phase α → Phase α → Prop
  | same (ph : Phase α) : c' = c → Turn t c c' ph ph
  /-- It stores an item that thread `u` has linked. -/
  | help {ph : Phase α} {n u : ℕ} {x : α} : (∀ y m, ph ≠ .linked y m) → c n = .linked u x →
      c' = Function.update c n (.stored x) → Turn t c c' ph ph
  | link {x : α} {n : ℕ} : c n = .absent → c' = Function.update c n (.linked t x) →
      Turn t c c' (.put x) (.linked x n)
  /-- It links and stores its item at once. -/
  | push {x : α} {n : ℕ} : c n = .absent → c' = Function.update c n (.stored x) →
      Turn t c c' (.put x) (.done (.put true))
  | swing {x : α} {n : ℕ} : c n = .linked t x → c' = Function.update c n (.stored x) →
      Turn t c c' (.linked x n) (.done (.put true))
  /-- It finds its item stored by another thread. -/
  | helped {x : α} {n : ℕ} : c' = c → (∀ y, c n ≠ .linked t y) →
      Turn t c c' (.linked x n) (.done (.put true))
  | take {x : α} {n : ℕ} : c n = .stored x → c' = Function.update c n .absent →
      Turn t c c' .get (.done (.got (some x)))
  | empty {w : AtomicPointer} : c' = c → Turn t c c' .get (.empty w)

/-- The answer of an operation that ends in a phase. -/
def Phase.Answers : Phase α → Answer α → Prop
  | .done (.put ok), .put ok' => ok' = ok
  | .done (.got x), .got y _ => x = some y
  | .empty w, .empty w' => w' = w
  | _, _ => False

/-- Either the word `e` stays the same and no item gets stored, or it is a later one. -/
def Steady (e e' : AtomicPointer) (c c' : ℕ → Cell α) : Prop :=
  (e' = e ∧ ∀ n x, c' n = .stored x → c n = .stored x) ∨ e.aba < e'.aba

/-- The state still is `w` and no item is stored, or the state has changed. -/
def Clear (w e : AtomicPointer) (c : ℕ → Cell α) : Prop :=
  (e = w ∧ ∀ n x, c n ≠ .stored x) ∨ w.aba < e.aba

theorem Steady.of_eq {e : AtomicPointer} {c c' : ℕ → Cell α} (h : c' = c) : Steady e e c c' :=
  .inl ⟨rfl, fun n x hx => by rwa [← h]⟩

theorem Steady.refl (e : AtomicPointer) (c : ℕ → Cell α) : Steady e e c c := .of_eq rfl

theorem Steady.aba_le {e e' : AtomicPointer} {c c' : ℕ → Cell α} (h : Steady e e' c c') :
    e.aba ≤ e'.aba := by
  rcases h with ⟨rfl, -⟩ | h
  · exact le_rfl
  · exact h.le

theorem Clear.steady {w e e' : AtomicPointer} {c c' : ℕ → Cell α} (hc : Clear w e c)
    (hs : Steady e e' c c') : Clear w e' c' := by
  rcases hc with ⟨rfl, hc⟩ | hlt
  · exact hs.imp_left fun ⟨he, hst⟩ => ⟨he, fun n x hx => hc n x (hst n x hx)⟩
  · exact .inr (hlt.trans_le hs.aba_le)

/-- What is said about a backend: an invariant, the nodes, what a thread knows at each
point of an operation, and what it relies on. -/
structure Assertions (B : Backend α) where
  Ghost : Type
  Inv : B.Shared → Ghost → Prop
  cells : B.Shared → Ghost → ℕ → Cell α
  Knows : ℕ → Phase α → B.Local → B.Shared → Ghost → Prop
  Rely : ℕ → B.Shared → Ghost → B.Shared → Ghost → Prop

/-- The access `a` of thread `t` keeps what is said about the backend, and is a turn. -/
def Assertions.Ok {B : Backend α} (A : Assertions B) (t : ℕ) (ph : Phase α) (σ : B.Shared)
    (g : A.Ghost) (a : B.Shared × (B.Local ⊕ Answer α)) : Prop :=
  ∃ g' ph', A.Inv a.1 g' ∧ (∀ u, u ≠ t → A.Rely u σ g a.1 g') ∧
    Turn t (A.cells σ g) (A.cells a.1 g') ph ph' ∧
    Steady (B.emptyState σ) (B.emptyState a.1) (A.cells σ g) (A.cells a.1 g') ∧
    (∀ l, a.2 = .inl l → A.Knows t ph' l a.1 g') ∧ (∀ r, a.2 = .inr r → ph'.Answers r) ∧
    ∀ w, ph' = .empty w → Clear w (B.emptyState a.1) (A.cells a.1 g')

/-- A backend with its proof. -/
structure Verified (B : Backend α) extends Assertions B where
  ghost : Ghost
  refl : ∀ u σ g, Rely u σ g σ g
  init : Inv B.init ghost
  init_cells : ∀ n, cells B.init ghost n = .absent
  put : ∀ t x σ g, Knows t (.put x) (B.put x) σ g
  get : ∀ t σ g, Knows t .get B.getReturnEmptyState σ g
  stable : ∀ {u ph l σ g σ' g'}, Knows u ph l σ g → Rely u σ g σ' g' → Knows u ph l σ' g'
  step : ∀ {t ph l σ g}, Inv σ g → Knows t ph l σ g →
    toAssertions.Ok t ph σ g (B.step σ l)

section Ok

variable {B : Backend α} {A : Assertions B} {t : ℕ} {ph ph' : Phase α} {σ σ' : B.Shared}
  {g g' : A.Ghost}

/-- The operation goes on at `l`. -/
theorem Assertions.Ok.go {l : B.Local} (hI : A.Inv σ' g') (hr : ∀ u, u ≠ t → A.Rely u σ g σ' g')
    (hturn : Turn t (A.cells σ g) (A.cells σ' g') ph ph')
    (hsteady : Steady (B.emptyState σ) (B.emptyState σ') (A.cells σ g) (A.cells σ' g'))
    (hk : A.Knows t ph' l σ' g') (hne : ∀ w, ph' ≠ .empty w) : A.Ok t ph σ g (σ', .inl l) :=
  ⟨g', ph', hI, hr, hturn, hsteady, fun l' hl => Sum.inl.inj hl ▸ hk, fun r hr => (by cases hr),
    fun w hw => absurd hw (hne w)⟩

/-- The operation returns. -/
theorem Assertions.Ok.stop {r : Answer α} (hI : A.Inv σ' g')
    (hr : ∀ u, u ≠ t → A.Rely u σ g σ' g')
    (hturn : Turn t (A.cells σ g) (A.cells σ' g') ph ph')
    (hsteady : Steady (B.emptyState σ) (B.emptyState σ') (A.cells σ g) (A.cells σ' g'))
    (ha : ph'.Answers r) (hempty : ∀ w, ph' = .empty w → Clear w (B.emptyState σ') (A.cells σ' g')) :
    A.Ok t ph σ g (σ', .inr r) :=
  ⟨g', ph', hI, hr, hturn, hsteady, fun l hl => (by cases hl), fun r' hr => Sum.inr.inj hr ▸ ha,
    hempty⟩

end Ok

/-! ### The pool of all nodes -/

section Pool

variable {B : Backend α} {V : Verified B}

/-- The ghosts of the backends, how often each node changed, and the statuses. -/
structure Ghost (V : Verified B) where
  back : ℕ → V.Ghost
  ver : ℕ × ℕ → ℕ
  stat : ℕ → Status α

def Ghost.cells (g : Ghost V) (σ : ℕ → B.Shared) (b : ℕ) : ℕ → Cell α :=
  V.cells (σ b) (g.back b)

/-- Node `i.2` of backend `i.1`. -/
def pool (σ : ℕ → B.Shared) (g : Ghost V) : Pool (ℕ × ℕ) α Unit :=
  ⟨fun i => (g.cells σ i.1 i.2).value, g.ver, fun i => (g.cells σ i.1 i.2).mark, g.stat⟩

/-- The ghost after a step of backend `b`. -/
def Ghost.set (g : Ghost V) (b : ℕ) (s : V.Ghost) (P : Pool (ℕ × ℕ) α Unit) : Ghost V :=
  ⟨Function.update g.back b s, P.ver, P.stat⟩

structure Inv (n : ℕ) (h : List (Event (BagOp α) (BagRet α))) (σ : ℕ → B.Shared) (g : Ghost V) :
    Prop where
  slots : (pool σ g).Inv h
  back : ∀ b, V.Inv (σ b) (g.back b)
  unused : ∀ b, n ≤ b → ∀ m, g.cells σ b m = .absent

/-- What thread `u` relies on about the steps of other threads. -/
structure Rely (u : ℕ) (σ : ℕ → B.Shared) (g : Ghost V) (σ' : ℕ → B.Shared) (g' : Ghost V) :
    Prop where
  slots : Pool.Rely u (pool σ g) (pool σ' g')
  back : ∀ b, V.Rely u (σ b) (g.back b) (σ' b) (g'.back b)
  steady : ∀ b, Steady (B.emptyState (σ b)) (B.emptyState (σ' b)) (g.cells σ b) (g'.cells σ' b)

theorem Rely.refl (u : ℕ) (σ : ℕ → B.Shared) (g : Ghost V) : Rely u σ g σ g :=
  ⟨.refl .., fun _ => V.refl .., fun _ => .refl ..⟩

/-- A step with which only the status of thread `t` changes, after others. -/
theorem Rely.setStat {u t : ℕ} {σ σ' : ℕ → B.Shared} {g g' : Ghost V} (hr : Rely u σ g σ' g')
    {st : Status α} (hu : u ≠ t) :
    Rely u σ g σ' { g' with stat := Function.update g'.stat t st } :=
  ⟨hr.slots.trans (Pool.rely_setStat hu), hr.back, hr.steady⟩

variable {n b : ℕ} {h : List (Event (BagOp α) (BagRet α))} {σ : ℕ → B.Shared} {g : Ghost V}
  {s : B.Shared} {γ : V.Ghost}

theorem cells_set (P : Pool (ℕ × ℕ) α Unit) (b' : ℕ) :
    (g.set b γ P).cells (Function.update σ b s) b' =
      if b' = b then V.cells s γ else g.cells σ b' := by
  by_cases hb : b' = b
  · subst hb
    simp [Ghost.cells, Ghost.set]
  · simp [Ghost.cells, Ghost.set, hb]

/-- The nodes of one backend change as in `P`. -/
theorem pool_set {P : Pool (ℕ × ℕ) α Unit}
    (hv : ∀ i, P.value i = if i.1 = b then (V.cells s γ i.2).value else (pool σ g).value i)
    (hm : ∀ i, P.mark i = if i.1 = b then (V.cells s γ i.2).mark else (pool σ g).mark i) :
    pool (Function.update σ b s) (g.set b γ P) = P := by
  refine Pool.ext (funext fun i => ?_) rfl (funext fun i => ?_) rfl
  · show ((g.set b γ P).cells (Function.update σ b s) i.1 i.2).value = _
    rw [hv, cells_set]
    split_ifs <;> rfl
  · show ((g.set b γ P).cells (Function.update σ b s) i.1 i.2).mark = _
    rw [hm, cells_set]
    split_ifs <;> rfl

theorem pool_same (hc : V.cells s γ = g.cells σ b) :
    pool (Function.update σ b s) (g.set b γ (pool σ g)) = pool σ g := by
  refine pool_set (fun i => ?_) fun i => ?_
  · split_ifs with hi
    · rw [hc, ← hi]
      rfl
    · rfl
  · split_ifs with hi
    · rw [hc, ← hi]
      rfl
    · rfl

/-- One node of one backend changes. -/
theorem pool_change {m : ℕ} {c : Cell α} {P : Pool (ℕ × ℕ) α Unit}
    (hc : V.cells s γ = Function.update (g.cells σ b) m c)
    (hv : P.value = Function.update (pool σ g).value (b, m) c.value)
    (hm : P.mark = Function.update (pool σ g).mark (b, m) c.mark) :
    pool (Function.update σ b s) (g.set b γ P) = P := by
  refine pool_set (fun i => ?_) fun i => ?_
  all_goals
    obtain ⟨b', m'⟩ := i
    by_cases hb : b' = b
    · subst hb
      by_cases hm' : m' = m
      · subst hm'
        simp [hv, hm, hc]
      · simp [hv, hm, hc, hm', pool]
    · simp [hv, hm, hb]

/-- After a step of one backend, whose nodes are now those of `P`. -/
theorem Inv.set (hI : Inv n h σ g) {P : Pool (ℕ × ℕ) α Unit}
    (hpool : pool (Function.update σ b s) (g.set b γ P) = P) (hP : P.Inv h) (hb : b < n)
    (hs : V.Inv s γ) : Inv n h (Function.update σ b s) (g.set b γ P) := by
  refine ⟨by rw [hpool]; exact hP, fun b' => ?_, fun b' hb' m => ?_⟩
  · by_cases hbb : b' = b
    · subst hbb
      simpa [Ghost.set] using hs
    · simpa [Ghost.set, hbb] using hI.back b'
  · rw [cells_set, if_neg (by omega)]
    exact hI.unused b' hb' m

theorem rely_set {u : ℕ} {P : Pool (ℕ × ℕ) α Unit}
    (hpool : pool (Function.update σ b s) (g.set b γ P) = P) (hP : Pool.Rely u (pool σ g) P)
    (hs : V.Rely u (σ b) (g.back b) s γ)
    (hsteady : Steady (B.emptyState (σ b)) (B.emptyState s) (g.cells σ b) (V.cells s γ)) :
    Rely u σ g (Function.update σ b s) (g.set b γ P) := by
  refine ⟨by rw [hpool]; exact hP, fun b' => ?_, fun b' => ?_⟩
  · by_cases hb : b' = b
    · subst hb
      simpa [Ghost.set] using hs
    · simpa [Ghost.set, hb] using V.refl u (σ b') (g.back b')
  · rw [cells_set]
    by_cases hb : b' = b
    · subst hb
      simpa using hsteady
    · simpa [hb] using Steady.refl ..

end Pool

/-! ### One access of a backend -/

section Turn

variable {B : Backend α} {V : Verified B} {n b t id : ℕ} {op : BagOp α}
  {h : List (Event (BagOp α) (BagRet α))} {σ : ℕ → B.Shared} {g : Ghost V} {ph ph' : Phase α}

/-- The phase belongs to the operation. -/
def Phase.Fits (op : BagOp α) : Phase α → Prop
  | .put x => op = .put x
  | .linked x _ => op = .put x
  | .get => op = .get
  | .done (.put ok) => ok = true ∧ ∃ x, op = .put x
  | .done (.got _) => op = .get
  | .empty _ => op = .get

/-- A put is answered with true. -/
theorem Phase.Answers.put {a : Answer α} {x : α} (ha : ph.Answers a) (hfit : ph.Fits (.put x)) :
    ph = .done (.put true) ∧ a = .put true := by
  rcases ph with _ | _ | _ | (ok | y) | w <;> rcases a with ok' | _ | _ <;>
    simp only [Phase.Answers] at ha
  · obtain ⟨rfl, -⟩ := hfit
    exact ⟨rfl, by rw [ha]⟩
  · cases hfit
  · cases hfit

/-- What the phase of an operation of backend `b` says about the pool. -/
def Phase.Holds (b t id : ℕ) (op : BagOp α) (P : Pool (ℕ × ℕ) α Unit) : Phase α → Prop
  | .linked _ n => ∃ v, P.Inserted t id op (b, n) v ()
  | .done r => P.Done t id op r
  | _ => P.Waiting t id op

theorem Phase.Holds.rely {P P' : Pool (ℕ × ℕ) α Unit} (hp : ph.Holds b t id op P)
    (hr : Pool.Rely t P P') : ph.Holds b t id op P' := by
  cases ph with
  | put x => exact Pool.Waiting.rely hp hr
  | linked x n => exact hp.imp fun v hv => hv.rely hr
  | get => exact Pool.Waiting.rely hp hr
  | done r => exact Pool.Done.rely hp hr
  | empty w => exact Pool.Waiting.rely hp hr

/-- A thread that has not linked an item, or whose item was stored, has none pending. -/
theorem Phase.Holds.calm {P : Pool (ℕ × ℕ) α Unit} (hp : ph.Holds b t id op P)
    (hl : ∀ y m, ph ≠ .linked y m) : P.Calm t := by
  cases ph with
  | put x => exact hp.1
  | linked x n => exact absurd rfl (hl x n)
  | get => exact hp.1
  | done r => exact hp.1
  | empty w => exact hp.1

/-- What a turn does to the pool of all nodes. -/
theorem Turn.changes {c' : ℕ → Cell α} (hturn : Turn t (g.cells σ b) c' ph ph')
    (hP : (pool σ g).Inv h) (hph : ph.Holds b t id op (pool σ g)) (hfit : ph.Fits op) :
    ∃ P : Pool (ℕ × ℕ) α Unit, P.Inv h ∧ (∀ u, u ≠ t → Pool.Rely u (pool σ g) P) ∧
      ph'.Holds b t id op P ∧ ph'.Fits op ∧ (P = pool σ g ∧ c' = g.cells σ b ∨
        ∃ m c, c' = Function.update (g.cells σ b) m c ∧
          P.value = Function.update (pool σ g).value (b, m) c.value ∧
          P.mark = Function.update (pool σ g).mark (b, m) c.mark) := by
  have hcell : ∀ {m : ℕ} {c : Cell α}, g.cells σ b m = c →
      (pool σ g).value (b, m) = c.value ∧ (pool σ g).mark (b, m) = c.mark := by
    rintro m c rfl
    exact ⟨rfl, rfl⟩
  cases hturn with
  | same ph hc => exact ⟨_, hP, fun _ _ => .refl .., hph, hfit, .inl ⟨rfl, hc⟩⟩
  | @help ph m u x hl hc hc' =>
    obtain ⟨hv, hm⟩ := hcell hc
    obtain ⟨id', y, s, hs, hy⟩ := hP.pending (b, m) u () hm
    obtain ⟨hP', -, hr⟩ := hP.keepFor hm hs ()
    refine ⟨_, hP', fun v _ => hr v, hph.rely (hr t), hfit,
      .inr ⟨m, .stored x, hc', ?_, rfl⟩⟩
    exact (Function.update_eq_self_iff.mpr hv.symm).symm
  | @link x m hc hc' =>
    obtain ⟨hv, hm⟩ := hcell hc
    have hop : op = .put x := hfit
    obtain ⟨hP', hins, hr⟩ := hP.insert (hop ▸ hph) hv ()
    exact ⟨_, hP', hr, ⟨_, hop ▸ hins⟩, hfit, .inr ⟨m, .linked t x, hc', rfl, rfl⟩⟩
  | @push x m hc hc' =>
    obtain ⟨hv, hm⟩ := hcell hc
    have hop : op = .put x := hfit
    obtain ⟨hP', hins, hr⟩ := hP.insert (hop ▸ hph) hv ()
    rcases hins with ⟨hm', -, s, hs⟩ | ⟨hlt, -⟩
    · obtain ⟨hP'', hd, hr'⟩ := hP'.keep hm' hs ()
      refine ⟨_, hP'', fun u hu => (hr u hu).trans (hr' u hu), hop ▸ hd, ⟨rfl, x, hop⟩,
        .inr ⟨m, .stored x, hc', rfl, ?_⟩⟩
      simp [Pool.keep, Pool.insert, Cell.mark]
    · simp [Pool.insert] at hlt
  | @swing x m hc hc' =>
    obtain ⟨hv, hm⟩ := hcell hc
    have hop : op = .put x := hfit
    obtain ⟨v, ⟨-, -, s, hs⟩ | ⟨-, hd⟩⟩ := hph
    · obtain ⟨hP', hd, hr⟩ := hP.keepFor hm (hop ▸ hs) ()
      refine ⟨_, hP', fun u _ => hr u, hop ▸ hd, ⟨rfl, x, hop⟩,
        .inr ⟨m, .stored x, hc', ?_, rfl⟩⟩
      exact (Function.update_eq_self_iff.mpr hv.symm).symm
    · exact absurd hm (hd.1 (b, m) ())
  | @helped x m hc hno =>
    obtain ⟨v, ⟨hm, -, -⟩ | ⟨-, hd⟩⟩ := hph
    · have hm : (g.cells σ b m).mark = .pending t () := hm
      cases hcm : g.cells σ b m with
      | absent => simp [hcm, Cell.mark] at hm
      | linked u y =>
        obtain rfl : u = t := by simpa [hcm, Cell.mark] using hm
        exact absurd hcm (hno y)
      | stored y => simp [hcm, Cell.mark] at hm
    · exact ⟨_, hP, fun _ _ => .refl .., hd, ⟨rfl, x, hfit⟩, .inl ⟨rfl, hc⟩⟩
  | @take x m hc hc' =>
    obtain ⟨hv, hm⟩ := hcell hc
    have hop : op = .get := hfit
    obtain ⟨hP', hd, hr⟩ := hP.take (hop ▸ hph) hv
    exact ⟨_, hP', hr, hop ▸ hd, hfit, .inr ⟨m, .absent, hc', rfl, rfl⟩⟩
  | empty hc => exact ⟨_, hP, fun _ _ => .refl .., hph, hfit, .inl ⟨rfl, hc⟩⟩

/-- **One access of a backend**, as a step of the distributed queue. -/
theorem backend_step {l : B.Local} (hI : Inv n h σ g) (hb : b < n)
    (hk : V.Knows t ph l (σ b) (g.back b)) (hph : ph.Holds b t id op (pool σ g))
    (hfit : ph.Fits op) {σ' : ℕ → B.Shared} (hσ : σ' = Function.update σ b (B.step (σ b) l).1) :
    ∃ (g' : Ghost V) (ph' : Phase α), Inv n h σ' g' ∧ (∀ u, u ≠ t → Rely u σ g σ' g') ∧
      (∀ b', Steady (B.emptyState (σ b')) (B.emptyState (σ' b')) (g.cells σ b')
        (g'.cells σ' b')) ∧
      ph'.Holds b t id op (pool σ' g') ∧ ph'.Fits op ∧
      (∀ l', (B.step (σ b) l).2 = .inl l' → V.Knows t ph' l' (σ' b) (g'.back b)) ∧
      (∀ a, (B.step (σ b) l).2 = .inr a → ph'.Answers a) ∧
      ∀ w, ph' = .empty w → Clear w (B.emptyState (σ' b)) (g'.cells σ' b) := by
  obtain ⟨γ, ph', hV, hrel, hturn, hsteady, hgo, hstop, hempty⟩ := V.step (hI.back b) hk
  obtain ⟨P, hP, hr, hph', hfit', hor⟩ := hturn.changes hI.slots hph hfit
  have hpool : pool (Function.update σ b (B.step (σ b) l).1) (g.set b γ P) = P := by
    rcases hor with ⟨rfl, hc⟩ | ⟨m, c, hc, hv, hm⟩
    · exact pool_same hc
    · exact pool_change hc hv hm
  have hcells : (g.set b γ P).cells (Function.update σ b (B.step (σ b) l).1) b =
      V.cells (B.step (σ b) l).1 γ := by
    rw [cells_set, if_pos rfl]
  have hback : (g.set b γ P).back b = γ := Function.update_self ..
  subst hσ
  refine ⟨g.set b γ P, ph', hI.set hpool hP hb hV,
    fun u hu => rely_set hpool (hr u hu) (hrel u hu) hsteady, fun b' => ?_, by rw [hpool]; exact hph',
    hfit', ?_, hstop, ?_⟩
  · rw [cells_set]
    by_cases hbb : b' = b
    · subst hbb
      rw [if_pos rfl, Function.update_self]
      exact hsteady
    · rw [if_neg hbb, Function.update_of_ne hbb]
      exact .refl ..
  · rw [hback, Function.update_self]
    exact hgo
  · rw [hcells, Function.update_self]
    exact hempty

end Turn

/-! ### The proof outline -/

section Outline

variable {B : Backend α} {V : Verified B} {n : ℕ}

/-- One of the backends that are still to be looked at has got an item since. -/
def Changed (n start i : ℕ) (tails : ℕ → AtomicPointer) (σ : ℕ → B.Shared) : Prop :=
  ∃ m, i ≤ m ∧ m < n ∧ (tails ((start + m) % n)).aba < (B.emptyState (σ ((start + m) % n))).aba

/-- What a thread knows at each point of its call. -/
def Local.Knows (V : Verified B) (n t id : ℕ) (op : BagOp α) (σ : ℕ → B.Shared) (g : Ghost V) :
    Local B → Prop
  | .putStart x => op = .put x ∧ (pool σ g).Waiting t id op
  | .put b l => (∃ x, op = .put x) ∧ b < n ∧ ∃ ph, V.Knows t ph l (σ b) (g.back b) ∧
    ph.Holds b t id op (pool σ g) ∧ ph.Fits op
  | .getStart => op = .get ∧ (pool σ g).Waiting t id op
  | .getFirst start i l tails => op = .get ∧ start < n ∧ i < n ∧
    (∃ ph, V.Knows t ph l (σ ((start + i) % n)) (g.back ((start + i) % n)) ∧
      ph.Holds ((start + i) % n) t id op (pool σ g) ∧ ph.Fits op) ∧
    ∀ m < i, Clear (tails ((start + m) % n)) (B.emptyState (σ ((start + m) % n)))
      (g.cells σ ((start + m) % n))
  | .getSecond start i tails => op = .get ∧ start < n ∧ i < n ∧ (pool σ g).Waiting t id op ∧
    ((pool σ g).Seen t id ∨ Changed n start i tails σ)

theorem Local.Knows.rely {t id : ℕ} {op : BagOp α} {σ σ' : ℕ → B.Shared} {g g' : Ghost V}
    {l : Local B} (hl : l.Knows V n t id op σ g) (hr : Rely t σ g σ' g') :
    l.Knows V n t id op σ' g' := by
  cases l with
  | putStart x => exact ⟨hl.1, hl.2.rely hr.slots⟩
  | put b l =>
    obtain ⟨hop, hb, ph, hk, hph, hfit⟩ := hl
    exact ⟨hop, hb, ph, V.stable hk (hr.back b), hph.rely hr.slots, hfit⟩
  | getStart => exact ⟨hl.1, hl.2.rely hr.slots⟩
  | getFirst start i l tails =>
    obtain ⟨hop, hs, hi, ⟨ph, hk, hph, hfit⟩, hclear⟩ := hl
    exact ⟨hop, hs, hi, ⟨ph, V.stable hk (hr.back _), hph.rely hr.slots, hfit⟩,
      fun m hm => (hclear m hm).steady (hr.steady _)⟩
  | getSecond start i tails =>
    obtain ⟨hop, hs, hi, hwait, hor⟩ := hl
    refine ⟨hop, hs, hi, hwait.rely hr.slots, hor.imp (fun h => h.rely hr.slots) ?_⟩
    rintro ⟨m, h1, h2, h3⟩
    exact ⟨m, h1, h2, h3.trans_le (hr.steady _).aba_le⟩

/-- The proof outline: every pending call knows what its local state says. -/
def outline (V : Verified B) (n : ℕ) : Outline (machine B n) (Ghost V) where
  inv w := Inv n w.events w.shared w.ghost
  loc t
    | none, w => (pool w.shared w.ghost).Idle t
    | some f, w => f.loc.Knows V n t f.id f.op w.shared w.ghost
  rely u w w' := Rely u w.shared w.ghost w'.shared w'.ghost

variable {w : World (machine B n) (Ghost V)} {t : ℕ} {f : Frame (machine B n)}
  {σ : ℕ → B.Shared} {g : Ghost V} {l : Local B}

/-- What is to be shown of every step `a` that the call `f` makes. -/
def StepOk (w : World (machine B n) (Ghost V)) (t : ℕ) (f : Frame (machine B n))
    (a : (ℕ → B.Shared) × (Local B ⊕ BagRet α)) : Prop :=
  (outline V n).Moves w t (Event.ofStep (M := machine B n) t a.2) a.1 (f.resume a.2)

theorem Inv.setStat {h h' : List (Event (BagOp α) (BagRet α))} {st : Status α}
    (hI : Inv n h σ g) (hP : ((pool σ g).setStat t st).Inv h') :
    Inv n h' σ { g with stat := Function.update g.stat t st } :=
  ⟨hP, hI.back, hI.unused⟩

/-- The call goes on at `l`. -/
theorem StepOk.go (hI : Inv n w.events σ g) (hr : ∀ u, u ≠ t → Rely u w.shared w.ghost σ g)
    (hl : l.Knows V n t f.id f.op σ g) : StepOk w t f (σ, .inl l) := by
  refine ⟨g, ?_, hl, hr⟩
  have hI' : Inv n (w.events ++ [.tau t]) σ g := { hI with slots := hI.slots.tau t }
  simpa [outline, Event.ofStep] using hI'

/-- The call returns a result that is fixed already. -/
theorem StepOk.stop {r : BagRet α} (hI : Inv n w.events σ g)
    (hr : ∀ u, u ≠ t → Rely u w.shared w.ghost σ g)
    (hd : (pool σ g).Done t f.id f.op r) : StepOk w t f (σ, .inr r) := by
  obtain ⟨hP, hidle⟩ := hI.slots.res hd
  refine ⟨{ g with stat := Function.update g.stat t .idle }, ?_, hidle,
    fun u hu => (hr u hu).setStat hu⟩
  simpa [outline, Event.ofStep] using hI.setStat hP

/-- The call returns false, because all backends were empty. -/
theorem StepOk.stopNone (hI : Inv n w.events w.shared w.ghost)
    (hs : (pool w.shared w.ghost).Seen t f.id) : StepOk w t f (w.shared, .inr (.got none)) := by
  obtain ⟨hP, hidle⟩ := hI.slots.resNone hs
  refine ⟨{ w.ghost with stat := Function.update w.ghost.stat t .idle }, ?_, hidle,
    fun u hu => (Rely.refl ..).setStat hu⟩
  simpa [outline, Event.ofStep] using hI.setStat hP

/-- An access that only reads, after which the call goes on. -/
theorem StepOk.read (hI : Inv n w.events w.shared w.ghost)
    (hl : l.Knows V n t f.id f.op w.shared w.ghost) : StepOk w t f (w.shared, .inl l) :=
  .go hI (fun _ _ => .refl ..) hl

/-- After the first pass: if all backends still are in the states in which they were
found empty, then the queue is empty now. -/
theorem second_pass (hI : Inv n w.events σ g) (hr : ∀ u, u ≠ t → Rely u w.shared w.ghost σ g)
    (hop : f.op = .get) {start : ℕ} (hs : start < n) {tails : ℕ → AtomicPointer}
    (hwait : (pool σ g).Waiting t f.id f.op)
    (hclear : ∀ m < n, Clear (tails ((start + m) % n)) (B.emptyState (σ ((start + m) % n)))
      (g.cells σ ((start + m) % n))) :
    StepOk w t f (σ, .inl (.getSecond start 0 tails)) := by
  have hn : 0 < n := by omega
  by_cases hch : Changed n start 0 tails σ
  · exact .go hI hr ⟨hop, hs, hn, hwait, .inr hch⟩
  · -- no state has changed, so no backend stores an item
    have hbag : ∀ i, (pool σ g).bag i = none := by
      rintro ⟨b, m⟩
      have hno : ∀ x, g.cells σ b m ≠ .stored x := by
        intro x hx
        rcases Nat.lt_or_ge b n with hb | hb
        · obtain ⟨i, hi, rfl⟩ := exists_index (r := start) hb
          rcases hclear i hi with ⟨-, hno⟩ | hlt
          · exact hno m x hx
          · exact hch ⟨i, Nat.zero_le i, hi, hlt⟩
        · rw [hI.unused b hb m] at hx
          cases hx
      cases hc : g.cells σ b m with
      | absent => exact Pool.bag_of_free (by simp [pool, hc, Cell.mark])
      | linked u x => exact Pool.bag_of_pending (t := u) (p := ()) (by simp [pool, hc, Cell.mark])
      | stored x => exact absurd hc (hno x)
    obtain ⟨hP, hseen⟩ := hI.slots.observe (hop ▸ hwait) hbag
    refine .go (hI.setStat hP) (fun u hu => (hr u hu).setStat hu) ⟨hop, hs, hn, ?_, .inl hseen⟩
    rw [hop]
    exact hseen.waiting

/-- A pass begins, or goes on to the next backend. -/
theorem first_pass (hI : Inv n w.events σ g) (hr : ∀ u, u ≠ t → Rely u w.shared w.ghost σ g)
    (hop : f.op = .get) {start i : ℕ} (hs : start < n) (hi : i < n) {tails : ℕ → AtomicPointer}
    (hwait : (pool σ g).Waiting t f.id f.op)
    (hclear : ∀ m < i, Clear (tails ((start + m) % n)) (B.emptyState (σ ((start + m) % n)))
      (g.cells σ ((start + m) % n))) :
    StepOk w t f (σ, .inl (.getFirst start i B.getReturnEmptyState tails)) :=
  .go hI hr ⟨hop, hs, hi, ⟨.get, V.get t _ _, hwait, hop⟩, hclear⟩

/-- The last backend of a pass is the one before `start`. -/
theorem last_of_eq_start {start i : ℕ} (hs : start < n) (hi : i < n)
    (he : ((start + i) % n + 1) % n = start) : i + 1 = n := by
  rw [Nat.mod_add_mod, Nat.add_assoc] at he
  rcases Nat.lt_or_ge (start + (i + 1)) n with hlt | hge
  · rw [Nat.mod_eq_of_lt hlt] at he
    omega
  · rw [Nat.mod_eq_sub_mod hge, Nat.mod_eq_of_lt (by omega)] at he
    omega

theorem put_ok (hI : Inv n w.events w.shared w.ghost) {b : ℕ} {l : B.Local}
    (hk : (Local.put b l).Knows V n t f.id f.op w.shared w.ghost) (balance : ℕ) :
    StepOk w t f (step B n balance w.shared (.put b l)) := by
  obtain ⟨⟨x, hop⟩, hb, ph, hk, hph, hfit⟩ := hk
  obtain ⟨g', ph', hI', hr, -, hph', hfit', hgo, hstop, -⟩ := backend_step hI hb hk hph hfit rfl
  simp only [step]
  rcases ho : (B.step (w.shared b) l).2 with l' | a
  · exact .go hI' hr ⟨⟨x, hop⟩, hb, ph', hgo l' ho, hph', hfit'⟩
  · obtain ⟨rfl, rfl⟩ := (hstop a ho).put (hop ▸ hfit')
    exact .stop hI' hr hph'

theorem getFirst_ok (hI : Inv n w.events w.shared w.ghost) {start i : ℕ} {l : B.Local}
    {tails : ℕ → AtomicPointer}
    (hk : (Local.getFirst start i l tails).Knows V n t f.id f.op w.shared w.ghost) (balance : ℕ) :
    StepOk w t f (step B n balance w.shared (.getFirst start i l tails)) := by
  obtain ⟨hop, hs, hi, ⟨ph, hk, hph, hfit⟩, hclear⟩ := hk
  have hb : (start + i) % n < n := Nat.mod_lt _ (by omega)
  simp only [step]
  generalize hσ : Function.update w.shared ((start + i) % n)
    (B.step (w.shared ((start + i) % n)) l).1 = σ'
  obtain ⟨g', ph', hI', hr, hsteady, hph', hfit', hgo, hstop, hempty⟩ :=
    backend_step hI hb hk hph hfit hσ.symm
  rcases ho : (B.step (w.shared ((start + i) % n)) l).2 with l' | a
  · exact .go hI' hr ⟨hop, hs, hi, ⟨ph', hgo l' ho, hph', hfit'⟩,
      fun m hm => (hclear m hm).steady (hsteady _)⟩
  · have ha := hstop a ho
    rcases ph' with _ | _ | _ | (ok | y) | e <;> rcases a with ok' | _ | e' <;>
      simp only [Phase.Answers] at ha
    · obtain ⟨-, x, hx⟩ := hfit'
      rw [hop] at hx
      cases hx
    · subst ha
      exact .stop hI' hr hph'
    · subst ha
      -- the backend answered empty: its state is recorded
      have hclear' : ∀ m < i + 1, Clear
          (Function.update tails ((start + i) % n) e' ((start + m) % n))
          (B.emptyState (σ' ((start + m) % n))) (g'.cells σ' ((start + m) % n)) := by
        intro m hm
        by_cases he : (start + m) % n = (start + i) % n
        · rw [he, Function.update_self]
          exact hempty e' rfl
        · have hmi : m ≠ i := fun h => he (by rw [h])
          rw [Function.update_of_ne he]
          exact (hclear m (by omega)).steady (hsteady _)
      split_ifs with hlt
      · exact first_pass hI' hr hop hs hlt hph' hclear'
      · obtain rfl : i + 1 = n := by omega
        exact second_pass hI' hr hop hs hph' hclear'

theorem getSecond_ok (hI : Inv n w.events w.shared w.ghost) {start i : ℕ}
    {tails : ℕ → AtomicPointer}
    (hk : (Local.getSecond start i tails).Knows V n t f.id f.op w.shared w.ghost)
    (balance : ℕ) : StepOk w t f (step B n balance w.shared (.getSecond start i tails)) := by
  obtain ⟨hop, hs, hi, hwait, hor⟩ := hk
  have hn : 0 < n := by omega
  have hread : ∀ u, u ≠ t → Rely u w.shared w.ghost w.shared w.ghost := fun _ _ => .refl ..
  simp only [step]
  split_ifs with hne hlast hlt
  · exact first_pass hI hread hop (Nat.mod_lt _ hn) hn hwait fun m hm => absurd hm (by omega)
  · rw [not_not] at hne
    refine .stopNone hI (hor.resolve_right ?_)
    rintro ⟨m, h1, h2, h3⟩
    obtain rfl : m = i := by
      have := last_of_eq_start hs hi hlast
      omega
    rw [hne] at h3
    exact Nat.lt_irrefl _ h3
  · rw [not_not] at hne
    refine .read hI ⟨hop, hs, hlt, hwait, hor.imp_right ?_⟩
    rintro ⟨m, h1, h2, h3⟩
    refine ⟨m, Nat.lt_of_le_of_ne h1 ?_, h2, h3⟩
    rintro rfl
    rw [hne] at h3
    exact Nat.lt_irrefl _ h3
  · exact first_pass hI hread hop hs hn hwait fun m hm => absurd hm (by omega)

theorem step_ok (hn : 0 < n) (hI : Inv n w.events w.shared w.ghost)
    (hk : f.loc.Knows V n t f.id f.op w.shared w.ghost) (balance : ℕ) :
    StepOk w t f (step B n balance w.shared f.loc) := by
  have hread : ∀ u, u ≠ t → Rely u w.shared w.ghost w.shared w.ghost := fun _ _ => .refl ..
  cases hl : f.loc with
  | putStart x =>
    rw [hl] at hk
    obtain ⟨hop, hwait⟩ := hk
    exact .read hI ⟨⟨x, hop⟩, Nat.mod_lt _ hn, .put x, V.put t x _ _, hwait, hop⟩
  | put b l =>
    rw [hl] at hk
    exact put_ok hI hk balance
  | getStart =>
    rw [hl] at hk
    exact first_pass hI hread hk.1 (Nat.mod_lt _ hn) hn hk.2 fun m hm => absurd hm (by omega)
  | getFirst start i l tails =>
    rw [hl] at hk
    exact getFirst_ok hI hk balance
  | getSecond start i tails =>
    rw [hl] at hk
    exact getSecond_ok hI hk balance

/-- A put whose backend has answered returns true. -/
theorem step_not_refused {h : List (Event (BagOp α) (BagRet α))} {id : ℕ} {op : BagOp α}
    (hI : Inv n h σ g) (hk : l.Knows V n t id op σ g) (balance : ℕ) {r : BagRet α}
    (hr : (step B n balance σ l).2 = .inr r) : r.refused = false := by
  cases l with
  | putStart x => cases hr
  | put b l =>
    obtain ⟨⟨x, hop⟩, hb, ph, hk, hph, hfit⟩ := hk
    -- the phase of the call in the backend is still that of a put
    obtain ⟨-, ph', -, -, -, -, hfit', -, hstop, -⟩ := backend_step hI hb hk hph hfit rfl
    simp only [step] at hr
    rcases ho : (B.step (σ b) l).2 with l' | a
    · rw [ho] at hr
      cases hr
    · obtain ⟨-, rfl⟩ := (hstop a ho).put (hop ▸ hfit')
      rw [ho] at hr
      cases hr
      rfl
  | getStart => cases hr
  | getFirst start i l tails =>
    simp only [step] at hr
    rcases ho : (B.step (σ ((start + i) % n)) l).2 with l' | (ok | ⟨x, w⟩ | w)
    all_goals rw [ho] at hr
    · cases hr
    · cases hr
      rfl
    · cases hr
      rfl
    · -- an empty backend sends the call on, to the next one or to the second pass
      split_ifs at hr
  | getSecond start i tails =>
    simp only [step] at hr
    split_ifs at hr
    cases hr
    rfl

/-! ### All runs -/

theorem outline_sound (V : Verified B) (hn : 0 < n) : (outline V n).Sound always where
  init := by
    have hpool : pool (fun _ => B.init) (⟨fun _ => V.ghost, fun _ => 0, fun _ => .idle⟩ : Ghost V) =
        ⟨fun _ => none, fun _ => 0, fun _ => .free, fun _ => .idle⟩ := by
      simp [pool, Ghost.cells, V.init_cells, Cell.value, Cell.mark]
    refine ⟨⟨fun _ => V.ghost, fun _ => 0, fun _ => .idle⟩, ⟨?_, fun _ => V.init,
      fun b _ m => V.init_cells m⟩, fun t => ?_⟩
    · show (pool (fun _ => B.init) _).Inv []
      rw [hpool]
      exact Pool.inv_init _
    · show (pool (fun _ => B.init) _).Idle t
      rw [hpool]
      exact ⟨fun _ _ => by simp, rfl⟩
  stable := by
    rintro w e σ g t (_ | f) - - hf - hr
    · exact Pool.Idle.rely hf hr.slots
    · exact Local.Knows.rely hf hr
  call := by
    intro w t op hI hidle _
    obtain ⟨hP, hwait⟩ := hI.slots.inv hidle op
    rw [World.length_events] at hP hwait
    refine ⟨{ w.ghost with
      stat := Function.update w.ghost.stat t (.pending w.trace.length op false) }, ?_, ?_,
      fun u hu => (Rely.refl ..).setStat hu⟩
    · simpa [outline] using hI.setStat hP
    · cases op
      · exact ⟨rfl, hwait⟩
      · exact ⟨rfl, hwait⟩
  run := by
    intro w t f balance σ o hI hf _ hs
    have h := step_ok hn hI hf balance
    rw [Option.some.inj hs] at h
    exact h

theorem Verified.not_refused (V : Verified B) (hn : 0 < n) {c : Config (machine B n)}
    (hc : Reach (machine B n) always c) : ∀ t r, .res t r ∈ c.events → r.refused = false := by
  refine (outline_sound V hn).responses (fun {w t f balance σ r} hinv hl _ hs => ?_) hc
  exact step_not_refused hinv hl balance (congrArg Prod.snd (Option.some.inj hs))

/-- **The distributed queue over a verified backend is a linearizable bag.** -/
theorem Verified.linearizable (V : Verified B) (hn : 0 < n) {c : Config (machine B n)}
    (hc : Reach (machine B n) always c) : Linearizable (unboundedBagSpec α) c.events := by
  obtain ⟨g, hinv, -⟩ := (outline_sound V hn).reach hc
  exact hinv.slots.lin.linearizable.unbounded (V.not_refused hn hc)

end Outline

end DistributedQueue

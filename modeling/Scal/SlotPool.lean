/-
Bags kept in slots.

An item that is inserted into a slot is visible at once, but it is put only
later: the inserting thread keeps it, or withdraws it again.  Until then any
other thread may take it, and the put then takes effect just before the take.

* `Pool` — the slots, with a mark that tells which items are in the bag, and the
  statuses of all threads;
* `Pool.Inv` — the history is linearizable to the kept items, and every slot
  that holds an item which is not kept belongs to one pending put;
* `Pool.insert`, `Pool.keep`, `Pool.keepFor`, `Pool.withdraw`, `Pool.take`,
  `Pool.refuse`, `Pool.observe` — the changes, each with what it preserves and what the other
  threads get (`Pool.Rely`);
* `Pool.Waiting`, `Pool.Inserted` — what a thread knows of its own call.

Design note: `ver` counts the writes of a slot, so a thread that finds the
version it wrote finds its own item, and not an equal one.
-/
import Scal.Linearizable

open Interleave

namespace Linearizability

variable {κ α τ : Type}

/-- How the item of a slot counts; `p` is where the inserting thread saw the
slot (a position, say). -/
inductive Mark (τ : Type) where
  | free
  | pending (t : ℕ) (p : τ)
  | kept (p : τ)

@[ext]
structure Pool (κ α τ : Type) where
  value : κ → Option α
  ver : κ → ℕ
  mark : κ → Mark τ
  stat : ℕ → Status α

/-- The result of a pending call is fixed. -/
def Status.finish (r : BagRet α) : Status α → Status α
  | .pending i op _ => .done i op r
  | st => st

/-- A pending call has seen the bag empty. -/
def Status.see : Status α → Status α
  | .pending i op _ => .pending i op true
  | st => st

namespace Pool

/-- The items in the bag. -/
def bag (P : Pool κ α τ) (i : κ) : Option α :=
  match P.mark i with
  | .kept _ => P.value i
  | _ => none

theorem bag_of_kept {P : Pool κ α τ} {i : κ} {p : τ} (h : P.mark i = .kept p) :
    P.bag i = P.value i := by
  rw [bag, h]

theorem bag_of_pending {P : Pool κ α τ} {i : κ} {t : ℕ} {p : τ} (h : P.mark i = .pending t p) :
    P.bag i = none := by
  rw [bag, h]

theorem bag_of_free {P : Pool κ α τ} {i : κ} (h : P.mark i = .free) : P.bag i = none := by
  rw [bag, h]

/-- No item of thread `u` waits to be kept. -/
def Calm (P : Pool κ α τ) (u : ℕ) : Prop := ∀ i p, P.mark i ≠ .pending u p

structure Inv (h : List (Event (BagOp α) (BagRet α))) (P : Pool κ α τ) : Prop where
  lin : Lin h P.bag P.stat
  free : ∀ i, P.mark i = .free ↔ P.value i = none
  pending : ∀ i u p, P.mark i = .pending u p →
    ∃ id x s, P.stat u = .pending id (.put x) s ∧ P.value i = some x
  unique : ∀ i j u p q, P.mark i = .pending u p → P.mark j = .pending u q → i = j

/-- What thread `u` relies on about the steps of other threads. -/
structure Rely (u : ℕ) (P P' : Pool κ α τ) : Prop where
  same : ∀ i, (P'.ver i = P.ver i ∧ P'.value i = P.value i) ∨ P.ver i < P'.ver i
  kept : ∀ i p, P.mark i = .kept p → P'.ver i = P.ver i → P'.mark i = .kept p
  calm : P.Calm u → P'.Calm u ∧ P'.stat u = P.stat u
  mine : ∀ i p, P.mark i = .pending u p →
    (P'.mark i = .pending u p ∧ P'.ver i = P.ver i ∧ P'.stat u = P.stat u) ∨
    (P'.Calm u ∧ P.ver i < P'.ver i ∧ P'.stat u = (P.stat u).finish (.put true))

theorem Rely.refl (u : ℕ) (P : Pool κ α τ) : Rely u P P :=
  ⟨fun _ => .inl ⟨rfl, rfl⟩, fun _ _ h _ => h, fun h => ⟨h, rfl⟩,
    fun _ _ h => .inl ⟨h, rfl, rfl⟩⟩

theorem Rely.ver_le {u : ℕ} {P P' : Pool κ α τ} (hr : Rely u P P') (i : κ) :
    P.ver i ≤ P'.ver i := by
  rcases hr.same i with ⟨h, -⟩ | h
  · exact h.ge
  · exact h.le

theorem Rely.trans {u : ℕ} {P P' P'' : Pool κ α τ} (h : Rely u P P') (h' : Rely u P' P'') :
    Rely u P P'' := by
  refine ⟨fun i => ?_, fun i p hm hv => ?_, fun hc => ?_, fun i p hm => ?_⟩
  · rcases h.same i with ⟨hv, hx⟩ | hv <;> rcases h'.same i with ⟨hv', hx'⟩ | hv'
    · exact .inl ⟨hv'.trans hv, hx'.trans hx⟩
    · exact .inr (hv ▸ hv')
    · exact .inr (hv'.symm ▸ hv)
    · exact .inr (hv.trans hv')
  · have hle := h.ver_le i
    have hle' := h'.ver_le i
    exact h'.kept i p (h.kept i p hm (by omega)) (by omega)
  · obtain ⟨hc', hs⟩ := h.calm hc
    obtain ⟨hc'', hs'⟩ := h'.calm hc'
    exact ⟨hc'', hs'.trans hs⟩
  · rcases h.mine i p hm with ⟨hm', hv, hs⟩ | ⟨hc, hv, hs⟩
    · rw [← hv, ← hs]
      exact h'.mine i p hm'
    · obtain ⟨hc', hs'⟩ := h'.calm hc
      refine .inr ⟨hc', ?_, hs'.trans hs⟩
      rcases h'.same i with ⟨hv', -⟩ | hv'
      · rwa [hv']
      · exact hv.trans hv'

/-! ### What a thread knows of its own call -/

/-- No call of thread `u` is pending. -/
def Idle (P : Pool κ α τ) (u : ℕ) : Prop := P.Calm u ∧ P.stat u = .idle

/-- The call has no effect yet, and no item in a slot. -/
def Waiting (P : Pool κ α τ) (u id : ℕ) (op : BagOp α) : Prop :=
  P.Calm u ∧ ∃ s, P.stat u = .pending id op s

/-- The call may report that the bag is empty. -/
def Seen (P : Pool κ α τ) (u id : ℕ) : Prop := P.Calm u ∧ P.stat u = .pending id .get true

/-- The call is about to return `r`. -/
def Done (P : Pool κ α τ) (u id : ℕ) (op : BagOp α) (r : BagRet α) : Prop :=
  P.Calm u ∧ P.stat u = .done id op r

/-- The call inserted its item into slot `i`, as version `n`: it is still there and
pending, or somebody took it. -/
def Inserted (P : Pool κ α τ) (u id : ℕ) (op : BagOp α) (i : κ) (n : ℕ) (p : τ) : Prop :=
  (P.mark i = .pending u p ∧ P.ver i = n ∧ ∃ s, P.stat u = .pending id op s) ∨
    n < P.ver i ∧ P.Done u id op (.put true)

section Stable

variable {P P' : Pool κ α τ} {u id n : ℕ} {op : BagOp α} {r : BagRet α} {i : κ} {p : τ}

theorem Seen.waiting (h : P.Seen u id) : P.Waiting u id .get := ⟨h.1, true, h.2⟩

theorem Idle.rely (h : P.Idle u) (hr : Rely u P P') : P'.Idle u :=
  ⟨(hr.calm h.1).1, (hr.calm h.1).2.trans h.2⟩

theorem Waiting.rely (h : P.Waiting u id op) (hr : Rely u P P') : P'.Waiting u id op := by
  obtain ⟨hc, s, hs⟩ := h
  exact ⟨(hr.calm hc).1, s, (hr.calm hc).2.trans hs⟩

theorem Seen.rely (h : P.Seen u id) (hr : Rely u P P') : P'.Seen u id :=
  ⟨(hr.calm h.1).1, (hr.calm h.1).2.trans h.2⟩

theorem Done.rely (h : P.Done u id op r) (hr : Rely u P P') : P'.Done u id op r :=
  ⟨(hr.calm h.1).1, (hr.calm h.1).2.trans h.2⟩

theorem Inserted.rely (h : P.Inserted u id op i n p) (hr : Rely u P P') :
    P'.Inserted u id op i n p := by
  rcases h with ⟨hm, rfl, s, hs⟩ | ⟨hn, hd⟩
  · rcases hr.mine i p hm with ⟨hm', hv, hs'⟩ | ⟨hc, hv, hs'⟩
    · exact .inl ⟨hm', hv, s, hs'.trans hs⟩
    · refine .inr ⟨hv, hc, ?_⟩
      rw [hs', hs, Status.finish]
  · exact .inr ⟨hn.trans_le (hr.ver_le i), hd.rely hr⟩

/-- A mark of `u` that is there now was there before. -/
theorem Rely.pending_of (hr : Rely u P P') (hI : P.Inserted u id op i n p)
    (hm : P'.mark i = .pending u p) : P.mark i = .pending u p := by
  rcases hI with ⟨hm', -, -⟩ | ⟨-, hd⟩
  · exact hm'
  · exact absurd hm ((hr.calm hd.1).1 i p)

end Stable

/-! ### Changes of a status -/

section Status

/-- Thread `t`'s status alone becomes `st`. -/
def setStat (P : Pool κ α τ) (t : ℕ) (st : Status α) : Pool κ α τ :=
  { P with stat := Function.update P.stat t st }

variable {h : List (Event (BagOp α) (BagRet α))} {P : Pool κ α τ} {t id : ℕ} {i : κ} {x : α}
  {p : τ}

theorem rely_setStat {st : Status α} {u : ℕ} (hu : u ≠ t) : Rely u P (P.setStat t st) :=
  ⟨fun _ => .inl ⟨rfl, rfl⟩, fun _ _ hm _ => hm, fun hc => ⟨hc, Function.update_of_ne hu ..⟩,
    fun _ _ hm => .inl ⟨hm, rfl, Function.update_of_ne hu ..⟩⟩

/-- A change that gives thread `t` the status `st`, when `t` has no item waiting. -/
theorem Inv.setStat {h' : List (Event (BagOp α) (BagRet α))} {st : Status α} (hI : Inv h P)
    (hc : P.Calm t) (hl : Lin h' P.bag (Function.update P.stat t st)) :
    Inv h' (P.setStat t st) := by
  refine ⟨hl, hI.free, fun j u q hm => ?_, hI.unique⟩
  have hu : u ≠ t := fun hu => hc j q (hu ▸ hm)
  obtain ⟨id, y, s, hs, hv⟩ := hI.pending j u q hm
  exact ⟨id, y, s, (Function.update_of_ne hu ..).trans hs, hv⟩

/-- The call returns false without having put its item. -/
theorem Inv.refuse (hI : Inv h P) (hw : P.Waiting t id (.put x)) :
    Inv h (P.setStat t (.done id (.put x) (.put false))) ∧
      (P.setStat t (.done id (.put x) (.put false))).Done t id (.put x) (.put false) := by
  obtain ⟨hc, s, hs⟩ := hw
  exact ⟨hI.setStat hc (hI.lin.refuse hs), hc, Function.update_self ..⟩

/-- The bag is empty now. -/
theorem Inv.observe (hI : Inv h P) (hw : P.Waiting t id .get) (hb : ∀ i, P.bag i = none) :
    Inv h (P.setStat t (.pending id .get true)) ∧
      (P.setStat t (.pending id .get true)).Seen t id := by
  obtain ⟨hc, s, hs⟩ := hw
  exact ⟨hI.setStat hc (hI.lin.observe hs hb), hc, Function.update_self ..⟩

/-! ### Events -/

theorem Inv.tau (hI : Inv h P) (t : ℕ) : Inv (h ++ [.tau t]) P :=
  ⟨hI.lin.tau t, hI.free, hI.pending, hI.unique⟩

theorem Inv.inv (hI : Inv h P) (hi : P.Idle t) (op : BagOp α) :
    Inv (h ++ [.inv t op]) (P.setStat t (.pending h.length op false)) ∧
      (P.setStat t (.pending h.length op false)).Waiting t h.length op :=
  ⟨hI.setStat hi.1 (hI.lin.inv hi.2 op), hi.1, false, Function.update_self ..⟩

theorem Inv.res {op : BagOp α} {r : BagRet α} (hI : Inv h P) (hd : P.Done t id op r) :
    Inv (h ++ [.res t r]) (P.setStat t .idle) ∧ (P.setStat t .idle).Idle t :=
  ⟨hI.setStat hd.1 (hI.lin.resDone hd.2), hd.1, Function.update_self ..⟩

theorem Inv.resNone (hI : Inv h P) (hs : P.Seen t id) :
    Inv (h ++ [.res t (.got none)]) (P.setStat t .idle) ∧ (P.setStat t .idle).Idle t :=
  ⟨hI.setStat hs.1 (hI.lin.resNone hs.2), hs.1, Function.update_self ..⟩

theorem inv_init (ver : κ → ℕ) :
    Inv [] (⟨fun _ => none, ver, fun _ => .free, fun _ => .idle⟩ : Pool κ α τ) :=
  ⟨lin_init, by simp, by simp, by simp⟩

end Status

/-! ### Changes of a slot -/

section Changes

variable [DecidableEq κ]

def insert (P : Pool κ α τ) (t : ℕ) (i : κ) (x : α) (p : τ) : Pool κ α τ :=
  { P with
    value := Function.update P.value i (some x)
    ver := Function.update P.ver i (P.ver i + 1)
    mark := Function.update P.mark i (.pending t p) }

def keep (P : Pool κ α τ) (t : ℕ) (i : κ) (p : τ) : Pool κ α τ :=
  { P with
    mark := Function.update P.mark i (.kept p)
    stat := Function.update P.stat t ((P.stat t).finish (.put true)) }

def withdraw (P : Pool κ α τ) (i : κ) : Pool κ α τ :=
  { P with
    value := Function.update P.value i none
    ver := Function.update P.ver i (P.ver i + 1)
    mark := Function.update P.mark i .free }

/-- The statuses after a put that is pending at slot `i`, if any, took effect. -/
def settle (P : Pool κ α τ) (i : κ) : ℕ → Status α :=
  match P.mark i with
  | .pending u _ => Function.update P.stat u ((P.stat u).finish (.put true))
  | _ => P.stat

def take (P : Pool κ α τ) (t : ℕ) (i : κ) : Pool κ α τ :=
  { P.withdraw i with
    stat := Function.update (P.settle i) t ((P.settle i t).finish (.got (P.value i))) }

variable {h : List (Event (BagOp α) (BagRet α))} {P : Pool κ α τ} {t id : ℕ} {i : κ} {x : α}
  {p : τ}

theorem bag_insert (hf : P.mark i = .free) : (P.insert t i x p).bag = P.bag := by
  funext j
  by_cases hj : j = i
  · subst hj
    rw [bag_of_free hf, bag_of_pending (t := t) (p := p)]
    simp [insert]
  · simp [bag, insert, hj]

theorem bag_withdraw : (P.withdraw i).bag = Function.update P.bag i none := by
  funext j
  by_cases hj : j = i
  · subst hj
    rw [Function.update_self, bag_of_free]
    simp [withdraw]
  · simp [bag, withdraw, hj]

theorem bag_keep : (P.keep t i p).bag = Function.update P.bag i (P.value i) := by
  funext j
  by_cases hj : j = i
  · subst hj
    rw [Function.update_self, bag_of_kept (p := p)]
    · rfl
    · simp [keep]
  · simp [bag, keep, hj]

theorem Inv.insert (hI : Inv h P) (hw : P.Waiting t id (.put x)) (hv : P.value i = none) (p : τ) :
    Inv h (P.insert t i x p) ∧
      (P.insert t i x p).Inserted t id (.put x) i (P.ver i + 1) p ∧
      ∀ u, u ≠ t → Rely u P (P.insert t i x p) := by
  have hf := (hI.free i).mpr hv
  obtain ⟨hc, s, hs⟩ := hw
  have hmark : ∀ j u q, (P.insert t i x p).mark j = .pending u q →
      j = i ∧ u = t ∨ j ≠ i ∧ P.mark j = .pending u q := by
    intro j u q hm
    by_cases hj : j = i
    · subst hj
      simp only [Pool.insert, Function.update_self, Mark.pending.injEq] at hm
      exact .inl ⟨rfl, hm.1.symm⟩
    · simp only [Pool.insert, Function.update_of_ne hj] at hm
      exact .inr ⟨hj, hm⟩
  refine ⟨⟨?_, fun j => ?_, fun j u q hm => ?_, fun j k u q q' hj hk => ?_⟩,
    .inl ⟨by simp [Pool.insert], by simp [Pool.insert], s, hs⟩, fun u hu => ⟨fun j => ?_,
    fun j q hm hv => ?_, fun hcu => ⟨fun j q hm => ?_, rfl⟩, fun j q hm => ?_⟩⟩
  · rw [bag_insert hf]
    exact hI.lin
  · by_cases hj : j = i
    · subst hj; simp [Pool.insert]
    · simpa [Pool.insert, hj] using hI.free j
  · rcases hmark j u q hm with ⟨rfl, rfl⟩ | ⟨hj, hm'⟩
    · exact ⟨id, x, s, hs, by simp [Pool.insert]⟩
    · obtain ⟨id', y, s', hs', hv'⟩ := hI.pending j u q hm'
      exact ⟨id', y, s', hs', by simpa [Pool.insert, hj] using hv'⟩
  · rcases hmark j u q hj with ⟨rfl, rfl⟩ | ⟨-, hj'⟩ <;>
      rcases hmark k u q' hk with ⟨hki, hut⟩ | ⟨-, hk'⟩
    · exact hki.symm
    · exact absurd hk' (hc k q')
    · subst hut
      exact absurd hj' (hc j q)
    · exact hI.unique j k u q q' hj' hk'
  · by_cases hj : j = i
    · subst hj
      exact .inr (by simp [Pool.insert])
    · exact .inl (by simp [Pool.insert, hj])
  · have hj : j ≠ i := by
      rintro rfl
      simp [Pool.insert] at hv
    simpa [Pool.insert, hj] using hm
  · rcases hmark j u q hm with ⟨-, rfl⟩ | ⟨-, hm'⟩
    · exact hu rfl
    · exact hcu j q hm'
  · have hj : j ≠ i := by
      rintro rfl
      rw [hf] at hm
      cases hm
    exact .inl ⟨by simpa [Pool.insert, hj] using hm, by simp [Pool.insert, hj], rfl⟩

/-- **Linearization** of a put by its own thread. -/
theorem Inv.keep {s : Bool} (hI : Inv h P) (hm : P.mark i = .pending t p)
    (hs : P.stat t = .pending id (.put x) s) (p' : τ) :
    Inv h (P.keep t i p') ∧ (P.keep t i p').Done t id (.put x) (.put true) ∧
      ∀ u, u ≠ t → Rely u P (P.keep t i p') := by
  obtain ⟨id', y, s', hs', hv⟩ := hI.pending i t p hm
  obtain ⟨rfl, rfl, -⟩ : id = id' ∧ x = y ∧ s = s' := by simpa using hs.symm.trans hs'
  have hmark : ∀ j u q, (P.keep t i p').mark j = .pending u q →
      j ≠ i ∧ u ≠ t ∧ P.mark j = .pending u q := by
    intro j u q hj
    have hji : j ≠ i := by
      rintro rfl
      simp [Pool.keep] at hj
    simp only [Pool.keep, Function.update_of_ne hji] at hj
    exact ⟨hji, fun hu => hji (hI.unique j i t q p (hu ▸ hj) hm), hj⟩
  refine ⟨⟨?_, fun j => ?_, fun j u q hj => ?_, fun j k u q q' hj hk => ?_⟩,
    ⟨fun j q hj => (hmark j t q hj).2.1 rfl, by simp [Pool.keep, hs, Status.finish]⟩, fun u hu =>
    ⟨fun j => .inl ⟨rfl, rfl⟩, fun j q hj _ => ?_,
      fun hcu => ⟨fun j q hj => hcu j q (hmark j u q hj).2.2, ?_⟩,
      fun j q hj => .inl ⟨?_, rfl, ?_⟩⟩⟩
  · rw [bag_keep, hv]
    have := hI.lin.put hs (bag_of_pending hm)
    simpa [Pool.keep, hs, Status.finish] using this
  · by_cases hj : j = i
    · subst hj; simp [Pool.keep, hv]
    · simpa [Pool.keep, hj] using hI.free j
  · obtain ⟨-, hu, hj'⟩ := hmark j u q hj
    obtain ⟨id', y, s', hs', hv'⟩ := hI.pending j u q hj'
    exact ⟨id', y, s', by simpa [Pool.keep, hu] using hs', hv'⟩
  · exact hI.unique j k u q q' (hmark j u q hj).2.2 (hmark k u q' hk).2.2
  · have hji : j ≠ i := by
      rintro rfl
      rw [hm] at hj
      cases hj
    simpa [Pool.keep, hji] using hj
  · simp [Pool.keep, hu]
  · have hji : j ≠ i := by
      rintro rfl
      rw [hm, Mark.pending.injEq] at hj
      exact hu hj.1.symm
    simpa [Pool.keep, hji] using hj
  · simp [Pool.keep, hu]

/-- Any thread keeps the item that thread `u` has pending, and counts that as a write of
the slot. -/
def keepFor (P : Pool κ α τ) (u : ℕ) (i : κ) (p : τ) : Pool κ α τ :=
  { P.keep u i p with ver := Function.update P.ver i (P.ver i + 1) }

/-- **Linearization** of a put by another thread. -/
theorem Inv.keepFor {s : Bool} (hI : Inv h P) (hm : P.mark i = .pending t p)
    (hs : P.stat t = .pending id (.put x) s) (p' : τ) :
    Inv h (P.keepFor t i p') ∧ (P.keepFor t i p').Done t id (.put x) (.put true) ∧
      ∀ u, Rely u P (P.keepFor t i p') := by
  obtain ⟨hP, hd, hr⟩ := hI.keep hm hs p'
  have hsame : ∀ j, ((P.keepFor t i p').ver j = P.ver j ∧
      (P.keepFor t i p').value j = P.value j) ∨ P.ver j < (P.keepFor t i p').ver j := by
    intro j
    by_cases hj : j = i
    · subst hj
      exact .inr (by simp [Pool.keepFor])
    · exact .inl ⟨by simp [Pool.keepFor, hj], rfl⟩
  have hkept : ∀ j q, P.mark j = .kept q → (P.keepFor t i p').mark j = .kept q := by
    intro j q hj
    have hji : j ≠ i := by
      rintro rfl
      rw [hm] at hj
      cases hj
    simpa [Pool.keepFor, Pool.keep, hji] using hj
  refine ⟨⟨hP.lin, hP.free, hP.pending, hP.unique⟩, hd, fun u => ?_⟩
  by_cases hu : u = t
  · subst hu
    refine ⟨hsame, fun j q hj _ => hkept j q hj, fun hc => absurd hm (hc i p), fun j q hj => ?_⟩
    -- the slot is the only one of thread `u`
    obtain rfl := hI.unique j i u q p hj hm
    exact .inr ⟨hd.1, by simp [Pool.keepFor], by simp [Pool.keepFor, Pool.keep]⟩
  · refine ⟨hsame, fun j q hj _ => hkept j q hj, (hr u hu).calm, fun j q hj => .inl ?_⟩
    have hji : j ≠ i := by
      rintro rfl
      rw [hm, Mark.pending.injEq] at hj
      exact hu hj.1.symm
    exact ⟨by simpa [Pool.keepFor, Pool.keep, hji] using hj, by simp [Pool.keepFor, hji],
      by simp [Pool.keepFor, Pool.keep, hu]⟩

theorem mark_withdraw {j : κ} {u : ℕ} {q : τ} (hj : (P.withdraw i).mark j = .pending u q) :
    j ≠ i ∧ P.mark j = .pending u q := by
  have hji : j ≠ i := by
    rintro rfl
    simp [withdraw] at hj
  simp only [withdraw, Function.update_of_ne hji] at hj
  exact ⟨hji, hj⟩

theorem ver_withdraw (j : κ) : ((P.withdraw i).ver j = P.ver j ∧
    (P.withdraw i).value j = P.value j) ∨ P.ver j < (P.withdraw i).ver j := by
  by_cases hj : j = i
  · subst hj
    exact .inr (by simp [withdraw])
  · exact .inl (by simp [withdraw, hj])

theorem kept_withdraw {j : κ} {q : τ} (hj : P.mark j = .kept q)
    (hv : (P.withdraw i).ver j = P.ver j) : (P.withdraw i).mark j = .kept q := by
  have hji : j ≠ i := by
    rintro rfl
    simp [withdraw] at hv
  simpa [withdraw, hji] using hj

theorem free_withdraw (hI : Inv h P) (j : κ) :
    (P.withdraw i).mark j = .free ↔ (P.withdraw i).value j = none := by
  by_cases hj : j = i
  · subst hj; simp [withdraw]
  · simpa [withdraw, hj] using hI.free j

/-- A thread takes its own pending item back. -/
theorem Inv.withdraw {op : BagOp α} {s : Bool} (hI : Inv h P) (hm : P.mark i = .pending t p)
    (hs : P.stat t = .pending id op s) :
    Inv h (P.withdraw i) ∧ (P.withdraw i).Waiting t id op ∧
      ∀ u, u ≠ t → Rely u P (P.withdraw i) := by
  refine ⟨⟨?_, free_withdraw hI, fun j u q hj => ?_, fun j k u q q' hj hk => ?_⟩,
    ⟨fun j q hj => ?_, s, hs⟩, fun u hu => ⟨ver_withdraw, fun _ _ => kept_withdraw, fun hcu => ⟨fun j q hj => ?_, rfl⟩,
      fun j q hj => ?_⟩⟩
  · rw [bag_withdraw, ← bag_of_pending hm, Function.update_eq_self]
    exact hI.lin
  · obtain ⟨hji, hj'⟩ := mark_withdraw hj
    obtain ⟨id', y, s', hs', hv'⟩ := hI.pending j u q hj'
    exact ⟨id', y, s', hs', by simpa [Pool.withdraw, hji] using hv'⟩
  · exact hI.unique j k u q q' (mark_withdraw hj).2 (mark_withdraw hk).2
  · obtain ⟨hji, hj'⟩ := mark_withdraw hj
    exact hji (hI.unique j i t q p hj' hm)
  · exact hcu j q (mark_withdraw hj).2
  · have hji : j ≠ i := by
      rintro rfl
      rw [hm, Mark.pending.injEq] at hj
      exact hu hj.1.symm
    exact .inl ⟨by simpa [Pool.withdraw, hji] using hj, by simp [Pool.withdraw, hji], rfl⟩

/-- **Linearization** of a get, after the put of the item it takes if that is still
pending. -/
theorem Inv.take (hI : Inv h P) (hw : P.Waiting t id .get) (hv : P.value i = some x) :
    Inv h (P.take t i) ∧ (P.take t i).Done t id .get (.got (some x)) ∧
      ∀ u, u ≠ t → Rely u P (P.take t i) := by
  obtain ⟨hc, s, hs⟩ := hw
  have hset : P.settle i t = P.stat t := by
    rcases hm : P.mark i with _ | ⟨u, p⟩ | p
    · rw [settle, hm]
    · have hut : t ≠ u := fun hut => hc i p (hut ▸ hm)
      simp only [settle, hm]
      exact Function.update_of_ne hut ..
    · rw [settle, hm]
  have hstat : ∀ j u q, j ≠ i → P.mark j = .pending u q → (P.take t i).stat u = P.stat u := by
    intro j u q hji hj
    have hut : u ≠ t := fun hut => hc j q (hut ▸ hj)
    rcases hm : P.mark i with _ | ⟨v, p⟩ | p
    · simp [Pool.take, settle, hm, hut]
    · have huv : u ≠ v := fun huv => hji (hI.unique j i u q p hj (huv ▸ hm))
      simp [Pool.take, settle, hm, hut, huv]
    · simp [Pool.take, settle, hm, hut]
  refine ⟨⟨?_, free_withdraw hI, fun j u q hj => ?_, fun j k u q q' hj hk => ?_⟩,
    ⟨fun j q hj => hc j q (mark_withdraw hj).2, ?_⟩, fun u hu => ⟨ver_withdraw,
      fun _ _ => kept_withdraw, fun hcu => ⟨fun j q hj => hcu j q (mark_withdraw hj).2, ?_⟩, fun j q hj => ?_⟩⟩
  · change Lin h (P.withdraw i).bag (P.take t i).stat
    rw [bag_withdraw]
    rcases hm : P.mark i with _ | ⟨u, p⟩ | p
    · rw [(hI.free i).mp hm] at hv
      simp at hv
    · obtain ⟨id', y, s', hs', hv'⟩ := hI.pending i u p hm
      obtain rfl : x = y := by simpa [hv] using hv'
      have hut : t ≠ u := fun hut => hc i p (hut ▸ hm)
      have hput := hI.lin.put hs' (bag_of_pending hm)
      have htake := hput.take (t := t) (k := i) (x := x)
        ((Function.update_of_ne hut ..).trans hs) (Function.update_self ..)
      rw [Function.update_idem] at htake
      have hst : (P.take t i).stat = Function.update (Function.update P.stat u
          (.done id' (.put x) (.put true))) t (.done id .get (.got (some x))) := by
        simp [Pool.take, settle, hm, hs', hs, hv, Status.finish, hut]
      rw [hst]
      exact htake
    · have htake := hI.lin.take (k := i) (x := x) hs ((bag_of_kept hm).trans hv)
      have hst : (P.take t i).stat =
          Function.update P.stat t (.done id .get (.got (some x))) := by
        simp [Pool.take, settle, hm, hs, hv, Status.finish]
      rw [hst]
      exact htake
  · obtain ⟨hji, hj'⟩ := mark_withdraw hj
    obtain ⟨id', y, s', hs', hv'⟩ := hI.pending j u q hj'
    exact ⟨id', y, s', (hstat j u q hji hj').trans hs',
      by simpa [Pool.take, Pool.withdraw, hji] using hv'⟩
  · exact hI.unique j k u q q' (mark_withdraw hj).2 (mark_withdraw hk).2
  · simp [Pool.take, hset, hs, hv, Status.finish]
  · rcases hm : P.mark i with _ | ⟨v, p⟩ | p
    · simp [Pool.take, settle, hm, hu]
    · have huv : u ≠ v := fun huv => hcu i p (huv ▸ hm)
      simp [Pool.take, settle, hm, hu, huv]
    · simp [Pool.take, settle, hm, hu]
  · by_cases hji : j = i
    · subst hji
      refine .inr ⟨fun k q' hk => ?_, by simp [Pool.take, Pool.withdraw], ?_⟩
      · obtain ⟨hkj, hk'⟩ := mark_withdraw hk
        exact hkj (hI.unique k j u q' q hk' hj)
      · simp [Pool.take, settle, hj, hu]
    · exact .inl ⟨by simpa [Pool.take, Pool.withdraw, hji] using hj,
        by simp [Pool.take, Pool.withdraw, hji], hstat j u q hji hj⟩

end Changes

end Pool

end Linearizability

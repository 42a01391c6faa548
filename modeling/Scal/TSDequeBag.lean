/-
The timestamped deque is a linearizable bag, whatever its timestamps are, in every run in which
no stale pointer is restored and no item is missed.

An insert takes effect when its owner stores the end pointer; if a remover takes the item
before, the insert takes effect right before it is taken.  A remove that returns false is
ordered at the moment its last scan began.

* `linearizable_of_unmissed` — every history of a run all of whose accesses are `unmissed` is
  linearizable, for any number of threads and any timestamps.
-/
import Scal.TSDequeAccess

open Interleave Linearizability

namespace TSDeque

variable {α : Type} {T : TimeStamp} {n : ℕ}

/-! ### At the start -/

def Ghost.init (n : ℕ) : Ghost where
  path b _ := [sentinel b]
  home p := if p = 0 ∨ n < p then none else some (p - 1)
  fresh _ := none
  stage _ := .steady
  memo _ _ := .nothing
  owner _ := 0
  saw _ := false

section Init

theorem Ghost.init_home {b p : ℕ} : (Ghost.init n).home p = some b ↔ p = sentinel b ∧ b < n := by
  show (if p = 0 ∨ n < p then none else some (p - 1)) = some b ↔ p = b + 1 ∧ b < n
  split_ifs with h
  · refine ⟨fun h => ?_, fun h' => ?_⟩
    · cases h
    · omega
  · rw [Option.some.injEq]
    omega

theorem Ghost.init_linked {b p : ℕ} : (Ghost.init n).Linked b p ↔ p = sentinel b ∧ b < n := by
  rw [← Ghost.init_home]
  refine ⟨fun h => h.resolve_right fun h => ?_, .inl⟩
  cases h

theorem init_not_live {b q : ℕ} : ¬Live (.init n : Shared α T) (Ghost.init n) b q := fun h => by
  cases h.2

theorem init_buffer {b : ℕ} (hb : b < n) : BufferInv (.init n : Shared α T) (Ghost.init n) b where
  path _ := .last rfl
  sorted _ := List.pairwise_singleton ..
  member hp := Ghost.init_linked.mpr ⟨List.mem_singleton.mp hp, hb⟩
  live hq := absurd hq init_not_live
  home _ := Ghost.init_home.mpr ⟨rfl, hb⟩
  pointer _ := List.mem_singleton.mpr rfl
  clear _ _ hq := absurd hq init_not_live
  stage _ := rfl
  next _ hne := absurd rfl hne
  last {s _} _ _ := by
    cases s
    · exact decide_eq_false (lt_irrefl (0 : ℤ))
    · exact decide_eq_false (lt_irrefl (0 : ℤ))
  index _ := by
    show -(1 : ℤ) < 0 ∧ (0 : ℤ) < 1
    omega
  unique hp hq _ := (Ghost.init_linked.mp hp).1.trans (Ghost.init_linked.mp hq).1.symm
  age _ _ _ hf := absurd rfl hf.ne
  sign hq := absurd hq init_not_live
  fresh hp := by cases hp
  check _ _ := .inl rfl
  memo _ := trivial

theorem init_inv : HeapInv n ((.init n, []) : (machine α T n).logged.Shared) (Ghost.init n) where
  alloc := Nat.succ_pos n
  linked hp := by
    obtain ⟨rfl, hb⟩ := Ghost.init_linked.mp hp
    exact ⟨hb, Nat.succ_ne_zero _, Nat.succ_lt_succ hb, fun h => by cases h⟩
  owner hp := by cases hp
  buffer _ hb := init_buffer hb
  checked _ _ _ := .inl fun _ => rfl

theorem itemAt_init : itemAt (.init n : Shared α T) (Ghost.init n) = fun _ => none := by
  funext p
  rw [itemAt, if_neg]
  exact fun h => by cases h.2

end Init

/-! ### All runs -/

section Outline

/-- A new call forgets what the thread saw. -/
theorem HeapInv.forget {σ : (machine α T n).logged.Shared} {g : Ghost} (hI : HeapInv n σ g) (t : ℕ) :
    HeapInv n σ { g with saw := Function.update g.saw t false } ∧
      ∀ u, u ≠ t → Rely u σ g σ { g with saw := Function.update g.saw t false } := by
  have hsame : ∀ b, Same σ.1 g σ.1 { g with saw := Function.update g.saw t false } b := fun b =>
    .of_eq hI.fresh_untaken (fun _ => rfl) (fun _ _ => rfl) rfl rfl rfl rfl (fun _ => rfl) rfl rfl
  refine ⟨⟨hI.alloc, hI.linked, hI.owner, fun b hb => (hI.buffer b hb).same (hsame b), hI.checked⟩,
    fun u hu => ⟨⟨le_rfl, fun _ _ => rfl, fun _ _ => rfl, fun _ _ h => h, fun h => h,
      fun b => (hsame b).evolves⟩, ?_⟩⟩
  exact .of_same (hsame u) (fun p _ ho => ⟨ho, fun h => ⟨h, rfl⟩⟩) rfl (fun _ _ => rfl)
    (fun _ => .inl rfl) (Function.update_of_ne hu ..)

/-- What the status of thread `t` is when its call `id` has got this far. -/
def Phase.Fits (t id : ℕ) (σ : Shared α T) (g : Ghost) (stat : ℕ → Status α) : Phase α → Prop
  | .putting x => g.fresh t = none ∧ ∃ s, stat t = .pending id (.put x) s
  | .holding p => g.fresh t = none ∧ p < σ.alloc ∧
    ∃ x s, (σ.item p).data = some x ∧ stat t = .pending id (.put x) s
  | .linking p => p < σ.alloc ∧ ∃ x, (σ.item p).data = some x ∧
    (g.fresh t = some p ∧ (∃ s, stat t = .pending id (.put x) s) ∨
      g.home p = some t ∧ stat t = .done id (.put x) (.put true))
  | .inserted => ∃ x, stat t = .done id (.put x) (.put true)
  | .getting => ∃ s, stat t = .pending id .get s ∧ (g.saw t = true → s = true)
  | .taken p => p < σ.alloc ∧ ∃ x, (σ.item p).data = some x ∧
    stat t = .done id .get (.got (some x))

/-- The status of thread `u` stays, or its linked item was taken, and its insert done with it. -/
def Helps (u : ℕ) (g g' : Ghost) (stat stat' : ℕ → Status α) : Prop :=
  stat' u = stat u ∧ g'.fresh u = g.fresh u ∨
    ∃ p i x s, g.fresh u = some p ∧ g'.home p = some u ∧ stat u = .pending i (.put x) s ∧
      stat' u = .done i (.put x) (.put true)

structure BagInv (w : World (machine α T n).logged (Ghost × (ℕ → Status α))) : Prop where
  heap : HeapInv n w.shared w.ghost.1
  lin : Lin (w.events.map bagEvent) (itemAt w.shared.1 w.ghost.1) w.ghost.2
  fresh : ∀ b p, w.ghost.1.fresh b = some p → ∃ i x s,
    w.ghost.2 b = .pending i (.put x) s ∧ (w.shared.1.item p).data = some x

/-- The proof outline: every pending call knows the facts of its local state. -/
def outline (α : Type) (T : TimeStamp) (n : ℕ) :
    Outline (machine α T n).logged (Ghost × (ℕ → Status α)) where
  inv := BagInv
  loc t f w := match f with
    | none => w.ghost.2 t = .idle ∧ w.ghost.1.stage t = .steady
    | some f => t < n ∧ Knows n t w.shared w.ghost.1 f.loc ∧
      f.loc.phase.Fits t f.id w.shared.1 w.ghost.1 w.ghost.2
  rely u w w' := Rely u w.shared w.ghost.1 w'.shared w'.ghost.1 ∧
    Helps u w.ghost.1 w'.ghost.1 w.ghost.2 w'.ghost.2

theorem Phase.Fits.rely {t id : ℕ} {σ σ' : (machine α T n).logged.Shared} {g g' : Ghost}
    {stat stat' : ℕ → Status α} {φ : Phase α} (hf : φ.Fits t id σ.1 g stat)
    (hr : Rely t σ g σ' g') (hs : Helps t g g' stat stat') : φ.Fits t id σ'.1 g' stat' := by
  cases φ with
  | putting x =>
    obtain ⟨hfr, s, h⟩ := hf
    rcases hs with ⟨hs, hfr'⟩ | ⟨p, i, y, s', hp, -⟩
    · exact ⟨hfr'.trans hfr, s, hs.trans h⟩
    · rw [hfr] at hp
      cases hp
  | holding p =>
    obtain ⟨hfr, hlt, x, s, hx, h⟩ := hf
    rcases hs with ⟨hs, hfr'⟩ | ⟨q, i, y, s', hq, -⟩
    · exact ⟨hfr'.trans hfr, hlt.trans_le hr.evolves.alloc, x, s,
        (hr.evolves.data p hlt).trans hx, hs.trans h⟩
    · rw [hfr] at hq
      cases hq
  | linking p =>
    obtain ⟨hlt, x, hx, h⟩ := hf
    refine ⟨hlt.trans_le hr.evolves.alloc, x, (hr.evolves.data p hlt).trans hx, ?_⟩
    rcases h with ⟨hfr, s, h⟩ | ⟨hh, h⟩
    · rcases hs with ⟨hs, hfr'⟩ | ⟨q, i, y, s', hq, hh, hi, hd⟩
      · exact .inl ⟨hfr'.trans hfr, s, hs.trans h⟩
      · have hqp := hfr.symm.trans hq
        have hst := h.symm.trans hi
        cases hqp
        cases hst
        exact .inr ⟨hh, hd⟩
    · refine .inr ⟨(hr.evolves.buffer t).home hh, ?_⟩
      rcases hs with ⟨hs, -⟩ | ⟨q, i, y, s', -, -, hi, -⟩
      · exact hs.trans h
      · rw [h] at hi
        cases hi
  | inserted =>
    obtain ⟨x, h⟩ := hf
    refine ⟨x, ?_⟩
    rcases hs with ⟨hs, -⟩ | ⟨q, i, y, s', -, -, hi, -⟩
    · exact hs.trans h
    · rw [h] at hi
      cases hi
  | getting =>
    obtain ⟨s, h, hsaw⟩ := hf
    refine ⟨s, ?_, fun h' => hsaw (hr.keeps.saw ▸ h')⟩
    rcases hs with ⟨hs, -⟩ | ⟨q, i, y, s', -, -, hi, -⟩
    · exact hs.trans h
    · rw [h] at hi
      cases hi
  | taken p =>
    obtain ⟨hlt, x, hx, h⟩ := hf
    refine ⟨hlt.trans_le hr.evolves.alloc, x, (hr.evolves.data p hlt).trans hx, ?_⟩
    rcases hs with ⟨hs, -⟩ | ⟨q, i, y, s', -, -, hi, -⟩
    · exact hs.trans h
    · rw [h] at hi
      cases hi

variable {w : World (machine α T n).logged (Ghost × (ℕ → Status α))} {t : ℕ}
  {f : Frame (machine α T n).logged} {σ : (machine α T n).logged.Shared} {l : Local α T}

/-- The call goes on, and the threads' status becomes `stat`. -/
theorem moves_go {g : Ghost} (stat : ℕ → Status α) (ht : t < n) (hH : HeapInv n σ g)
    (hr : ∀ u, u ≠ t → Rely u w.shared w.ghost.1 σ g) (hk : Knows n t σ g l)
    (hl : Lin (w.events.map bagEvent ++ [.tau t]) (itemAt σ.1 g) stat)
    (hfresh : ∀ b p, g.fresh b = some p → ∃ i x s,
      stat b = .pending i (.put x) s ∧ (σ.1.item p).data = some x)
    (hs : ∀ u, u ≠ t → Helps u w.ghost.1 g w.ghost.2 stat)
    (hf : l.phase.Fits t f.id σ.1 g stat) :
    (outline α T n).Moves w t (.ofStep (M := (machine α T n).logged) t (.inl l)) σ
      (f.resume (.inl l)) := by
  refine ⟨(g, stat), ⟨hH, ?_, hfresh⟩, ⟨ht, hk, hf⟩, fun u hu => ⟨hr u hu, hs u hu⟩⟩
  rw [World.record_events, List.map_append]
  exact hl

theorem moves_stop {g : Ghost} {r : DequeRet α} (hH : HeapInv n σ g)
    (hr : ∀ u, u ≠ t → Rely u w.shared w.ghost.1 σ g) (hst : g.stage t = .steady)
    (hl : Lin (w.events.map bagEvent ++ [.res t (bagRet r)]) (itemAt σ.1 g)
      (Function.update w.ghost.2 t .idle))
    (hfresh : ∀ b p, g.fresh b = some p → b ≠ t ∧ ∃ i x s,
      w.ghost.2 b = .pending i (.put x) s ∧ (σ.1.item p).data = some x)
    (hs : ∀ u, u ≠ t → g.fresh u = w.ghost.1.fresh u) :
    (outline α T n).Moves w t (.ofStep (M := (machine α T n).logged) t (.inr r)) σ
      (f.resume (.inr r)) := by
  refine ⟨(g, Function.update w.ghost.2 t .idle), ⟨hH, ?_, fun b p hp => ?_⟩,
    ⟨Function.update_self .., hst⟩, fun u hu =>
      ⟨hr u hu, .inl ⟨Function.update_of_ne hu .., hs u hu⟩⟩⟩
  · rw [World.record_events, List.map_append]
    exact hl
  · obtain ⟨hb, hp⟩ := hfresh b p hp
    show ∃ i x s, Function.update w.ghost.2 t Status.idle b = _ ∧ _
    rw [Function.update_of_ne hb]
    exact hp

/-- A thread whose call is a get, or that has done its put, has no fresh item. -/
theorem BagInv.fresh_ne (hw : BagInv w) (h : ∀ i x s, w.ghost.2 t ≠ .pending i (.put x) s)
    {b p : ℕ} (hp : w.ghost.1.fresh b = some p) : b ≠ t := by
  rintro rfl
  obtain ⟨i, x, s, hst, -⟩ := hw.fresh b p hp
  exact h i x s hst

/-- The fresh items are linked, so what they hold does not change. -/
theorem BagInv.fresh_data (hw : BagInv w) {u : ℕ} {g : Ghost}
    (hE : Evolves u w.shared w.ghost.1 σ g) {b p : ℕ} (hp : w.ghost.1.fresh b = some p) :
    ∃ i x s, w.ghost.2 b = .pending i (.put x) s ∧ (σ.1.item p).data = some x := by
  obtain ⟨i, x, s, hst, hx⟩ := hw.fresh b p hp
  exact ⟨i, x, s, hst, (hE.data p (hw.heap.linked_lt (.inr hp))).trans hx⟩

/-- What a thread's own access does to the memory leaves its phase as it was. -/
theorem Phase.Fits.keep {t id u : ℕ} {σ σ' : (machine α T n).logged.Shared} {g g' : Ghost}
    {stat : ℕ → Status α} {φ : Phase α} (hf : φ.Fits t id σ.1 g stat) (hE : Evolves u σ g σ' g')
    (hfresh : g'.fresh = g.fresh) (hs : φ = .getting → g'.saw t = true → g.saw t = true) :
    φ.Fits t id σ'.1 g' stat := by
  cases φ with
  | putting x => exact ⟨(congrFun hfresh t).trans hf.1, hf.2⟩
  | holding p =>
    obtain ⟨hfr, hlt, x, s, hx, h⟩ := hf
    exact ⟨(congrFun hfresh t).trans hfr, hlt.trans_le hE.alloc, x, s, (hE.data p hlt).trans hx, h⟩
  | linking p =>
    obtain ⟨hlt, x, hx, h⟩ := hf
    exact ⟨hlt.trans_le hE.alloc, x, (hE.data p hlt).trans hx,
      h.imp (fun h => ⟨(congrFun hfresh t).trans h.1, h.2⟩) fun h => ⟨(hE.buffer t).home h.1, h.2⟩⟩
  | inserted => exact hf
  | getting =>
    obtain ⟨s, h, hsaw⟩ := hf
    exact ⟨s, h, fun h' => hsaw (hs rfl h')⟩
  | taken p =>
    obtain ⟨hlt, x, hx, h⟩ := hf
    exact ⟨hlt.trans_le hE.alloc, x, (hE.data p hlt).trans hx, h⟩

/-- **One access**: the buffers change as `access_ok` says, and the bag with them. -/
theorem moves_step (hw : BagInv w) (ht : t < n) (hk : Knows n t w.shared w.ghost.1 f.loc)
    (hfit : f.loc.phase.Fits t f.id w.shared.1 w.ghost.1 w.ghost.2) {ch : Choice T}
    (hok : unmissed n t w.shared f.loc = true) {σ' : Shared α T} {o : Local α T ⊕ DequeRet α}
    (hs : step n t ch w.shared.1 f.loc = (σ', o)) :
    (outline α T n).Moves w t (.ofStep (M := (machine α T n).logged) t o)
      (σ', ⟨t, w.shared.1, f.loc⟩ :: w.shared.2) (f.resume o) := by
  obtain ⟨g', hC, hk', hready, heff⟩ := access_ok hw.heap ht ch hk hok
  rw [hs] at hC hk' hready heff
  have hr : ∀ u, u ≠ t → Rely u w.shared w.ghost.1 _ g' := fun u hu => hC.rely hu
  have hE := (hr (t + 1) (Nat.succ_ne_self t)).evolves
  have hdata : ∀ p < w.shared.1.alloc, (σ'.item p).data = (w.shared.1.item p).data := hE.data
  have hkeep : g'.fresh = w.ghost.1.fresh → ∀ {b p}, g'.fresh b = some p → ∃ i x s,
      w.ghost.2 b = .pending i (.put x) s ∧ (σ'.item p).data = some x := fun hfresh b p hp =>
    hw.fresh_data hE (hfresh ▸ hp)
  obtain ⟨id, op, l⟩ := f
  cases heff with
  | @go _ l' hphase hbag hfresh hsaw =>
    have hfit : l'.phase.Fits t id w.shared.1 w.ghost.1 w.ghost.2 := hphase ▸ hfit
    by_cases hobs : l'.phase = .getting ∧ ∀ p, itemAt w.shared.1 w.ghost.1 p = none
    · obtain ⟨hget, he⟩ := hobs
      rw [hget] at hfit
      obtain ⟨s, hst, -⟩ := hfit
      refine moves_go (Function.update w.ghost.2 t (.pending id .get true)) ht hC.heap hr
        (hk' _ rfl) ?_ (fun b p hp => ?_)
        (fun u hu => .inl ⟨Function.update_of_ne hu .., congrFun hfresh u⟩) ?_
      · rw [hbag]
        exact (hw.lin.tau t).observe hst he
      · have hb : b ≠ t := hw.fresh_ne (fun _ _ _ h => by rw [hst] at h; cases h) (hfresh ▸ hp)
        rw [Function.update_of_ne hb]
        exact hkeep hfresh hp
      · rw [hget]
        exact ⟨true, Function.update_self .., fun _ => rfl⟩
    · refine moves_go w.ghost.2 ht hC.heap hr (hk' _ rfl) ?_ (fun b p hp => hkeep hfresh hp)
        (fun u _ => .inl ⟨rfl, congrFun hfresh u⟩) ?_
      · rw [hbag]
        exact hw.lin.tau t
      · exact hfit.keep hE hfresh fun hget h => (hsaw h).resolve_right fun he => hobs ⟨hget, he⟩
  | @alloc s x p hlt hx hbag hfresh =>
    obtain ⟨hfr, b, hst⟩ := hfit
    refine moves_go w.ghost.2 ht hC.heap hr (hk' _ rfl) ?_ (fun b p hp => hkeep hfresh hp)
      (fun u _ => .inl ⟨rfl, congrFun hfresh u⟩)
      ⟨(congrFun hfresh t).trans hfr, hlt, x, b, hx, hst⟩
    rw [hbag]
    exact hw.lin.tau t
  | @link s p new old hbag hfresh =>
    obtain ⟨-, hlt, x, b, hx, hst⟩ := hfit
    have hself : g'.fresh t = some new := by
      rw [hfresh, Function.update_self]
    refine moves_go w.ghost.2 ht hC.heap hr (hk' _ rfl) ?_ (fun c q hq => ?_) (fun u hu => ?_)
      ⟨hlt.trans_le hE.alloc, x, (hdata _ hlt).trans hx, .inl ⟨hself, b, hst⟩⟩
    · rw [hbag]
      exact hw.lin.tau t
    · by_cases hc : c = t
      · subst hc
        obtain rfl := Option.some.inj (hself.symm.trans hq)
        exact ⟨id, x, b, hst, (hdata _ hlt).trans hx⟩
      · rw [hfresh, Function.update_of_ne hc] at hq
        exact hw.fresh_data hE hq
    · refine .inl ⟨rfl, ?_⟩
      rw [hfresh, Function.update_of_ne hu]
  | @put s new old hnone hbag hfresh =>
    obtain ⟨hlt, x, hx, h⟩ := hfit
    obtain ⟨hf, b, hst⟩ := h.resolve_right fun h => by
      rw [hnone] at h
      cases h.1
    refine moves_go (Function.update w.ghost.2 t (.done id (.put x) (.put true))) ht hC.heap hr
      (hk' _ rfl) ?_ (fun c q hq => ?_) (fun u hu => ?_) ⟨x, Function.update_self ..⟩
    · rw [hbag, hx]
      refine (hw.lin.tau t).put hst ?_
      rw [itemAt, if_neg]
      rw [hnone]
      exact fun h => Bool.noConfusion h.1
    · have hc : c ≠ t := by
        rintro rfl
        rw [hfresh, Function.update_self] at hq
        cases hq
      rw [hfresh, Function.update_of_ne hc] at hq
      rw [Function.update_of_ne hc]
      exact hw.fresh_data hE hq
    · refine .inl ⟨Function.update_of_ne hu .., ?_⟩
      rw [hfresh, Function.update_of_ne hu]
  | @putTaken s new old hhome hbag hfresh =>
    obtain ⟨hlt, x, hx, h⟩ := hfit
    obtain ⟨-, hst⟩ := h.resolve_left fun h => by
      have := (hw.heap.fresh_untaken h.1).1
      rw [hhome] at this
      cases this
    refine moves_go w.ghost.2 ht hC.heap hr (hk' _ rfl) ?_ (fun c q hq => ?_) (fun u hu => ?_)
      ⟨x, hst⟩
    · rw [hbag]
      exact hw.lin.tau t
    · have hc : c ≠ t := by
        rintro rfl
        rw [hfresh, Function.update_self] at hq
        cases hq
      rw [hfresh, Function.update_of_ne hc] at hq
      exact hw.fresh_data hE hq
    · refine .inl ⟨rfl, ?_⟩
      rw [hfresh, Function.update_of_ne hu]
  | @take _ s b hphase hlt hd hhome hold hbag hfresh =>
    rw [hphase] at hfit
    obtain ⟨seen, hst, -⟩ := hfit
    obtain ⟨x, hx⟩ := Option.isSome_iff_exists.mp hd
    refine moves_go (Function.update w.ghost.2 t (.done id .get (.got (some x)))) ht hC.heap hr
      (hk' _ rfl) ?_ (fun c q hq => ?_)
      (fun u hu => .inl ⟨Function.update_of_ne hu .., congrFun hfresh u⟩)
      ⟨hlt.trans_le hE.alloc, x, (hdata _ hlt).trans hx, Function.update_self ..⟩
    · rw [hbag]
      exact (hw.lin.tau t).take hst (hold.trans hx)
    · have hc : c ≠ t := hw.fresh_ne (fun _ _ _ h => by rw [hst] at h; cases h) (hfresh ▸ hq)
      rw [Function.update_of_ne hc]
      exact hkeep hfresh hq
  | @takeFresh _ s b hphase hb hlt hd hf hhome hold hbag hfresh =>
    -- the insert takes effect right before its item is taken
    rw [hphase] at hfit
    obtain ⟨seen, hst, -⟩ := hfit
    obtain ⟨i, x, s', hput, hx⟩ := hw.fresh b _ hf
    have hlin := ((hw.lin.tau t).put hput hold).take (t := t) (i := id) (s := seen)
      (by rw [Function.update_of_ne hb.symm]; exact hst) (Function.update_self ..)
    rw [Function.update_idem, ← hold, Function.update_eq_self] at hlin
    refine moves_go _ ht hC.heap hr (hk' _ rfl) (by rw [hbag]; exact hlin) (fun c q hq => ?_)
      (fun u hu => ?_) ⟨hlt.trans_le hE.alloc, x, (hdata _ hlt).trans hx, Function.update_self ..⟩
    · have hcb : c ≠ b := by
        rintro rfl
        rw [hfresh, Function.update_self] at hq
        cases hq
      rw [hfresh, Function.update_of_ne hcb] at hq
      have hc : c ≠ t := hw.fresh_ne (fun _ _ _ h => by rw [hst] at h; cases h) hq
      rw [Function.update_of_ne hc, Function.update_of_ne hcb]
      exact hw.fresh_data hE hq
    · by_cases hub : u = b
      · subst hub
        refine .inr ⟨_, i, x, s', hf, hhome, hput, ?_⟩
        rw [Function.update_of_ne hu, Function.update_self]
      · refine .inl ⟨?_, ?_⟩
        · rw [Function.update_of_ne hu, Function.update_of_ne hub]
        · rw [hfresh, Function.update_of_ne hub]
  | @putDone p setting hbag hfresh =>
    obtain ⟨x, hst⟩ := hfit
    refine moves_stop hC.heap hr (hready _ rfl) ?_ (fun b p hp => ⟨?_, hkeep hfresh hp⟩)
      fun u _ => congrFun hfresh u
    · rw [hbag]
      exact hw.lin.resDone hst
    · exact hw.fresh_ne (fun _ _ _ h => by rw [hst] at h; cases h) (hfresh ▸ hp)
  | @gotDone s x hx hbag hfresh =>
    obtain ⟨-, y, hy, hst⟩ := hfit
    obtain rfl := Option.some.inj (hx.symm.trans hy)
    refine moves_stop hC.heap hr (hready _ rfl) ?_ (fun b p hp => ⟨?_, hkeep hfresh hp⟩)
      fun u _ => congrFun hfresh u
    · rw [hbag]
      exact hw.lin.resDone hst
    · exact hw.fresh_ne (fun _ _ _ h => by rw [hst] at h; cases h) (hfresh ▸ hp)
  | gotNone hphase hsaw hbag hfresh =>
    rw [hphase] at hfit
    obtain ⟨s, hst, hs'⟩ := hfit
    refine moves_stop hC.heap hr (hready _ rfl) ?_ (fun b p hp => ⟨?_, hkeep hfresh hp⟩)
      fun u _ => congrFun hfresh u
    · rw [hbag]
      exact hw.lin.resNone (hs' hsaw ▸ hst)
    · exact hw.fresh_ne (fun _ _ _ h => by rw [hst] at h; cases h) (hfresh ▸ hp)

theorem outline_sound : (outline α T n).Sound (unmissed n) where
  init := by
    refine ⟨(Ghost.init n, fun _ => .idle), ⟨init_inv, ?_, fun b p hp => by cases hp⟩,
      fun _ => ⟨rfl, rfl⟩⟩
    show Lin [] (itemAt (.init n : Shared α T) (Ghost.init n)) _
    rw [itemAt_init]
    exact lin_init
  stable := by
    intro w e σ g t f hw _ hf _ hr
    cases f with
    | none =>
      obtain ⟨hidle, hst⟩ := hf
      refine ⟨?_, hr.1.keeps.stage.trans hst⟩
      rcases hr.2 with ⟨hs, -⟩ | ⟨p, i, x, s, -, -, hi, -⟩
      · exact hs.trans hidle
      · rw [hidle] at hi
        cases hi
    | some f => exact ⟨hf.1, hf.2.1.rely hw.heap hr.1, hf.2.2.rely hr.1 hr.2⟩
  call := by
    intro w t op hw hidle ht
    obtain ⟨hH, hr⟩ := hw.heap.forget t
    have hst : Function.update w.ghost.2 t (.pending (w.events.map bagEvent).length (bagOp op) false)
        t = .pending w.trace.length (bagOp op) false := by
      rw [Function.update_self, List.length_map, World.length_events]
    have hne : ∀ {b p}, w.ghost.1.fresh b = some p → b ≠ t := fun hp =>
      hw.fresh_ne (fun _ _ _ h => by rw [hidle.1] at h; cases h) hp
    have hnone : w.ghost.1.fresh t = none := by
      cases hp : w.ghost.1.fresh t with
      | none => rfl
      | some p => exact absurd rfl (hne hp)
    refine ⟨({ w.ghost.1 with saw := Function.update w.ghost.1.saw t false },
        Function.update w.ghost.2 t (.pending (w.events.map bagEvent).length (bagOp op) false)),
      ⟨hH, ?_, fun b p hp => ?_⟩, ⟨of_decide_eq_true ht, ?_⟩, fun u hu =>
        ⟨hr u hu, .inl ⟨Function.update_of_ne hu .., rfl⟩⟩⟩
    · rw [World.record_events, List.map_append]
      exact hw.lin.inv hidle.1 (bagOp op)
    · show ∃ i x s, Function.update w.ghost.2 t _ b = _ ∧ _
      rw [Function.update_of_ne (hne hp)]
      exact hw.fresh b p hp
    · cases op with
      | insertLeft x => exact ⟨⟨trivial, hidle.2⟩, hnone, false, hst⟩
      | insertRight x => exact ⟨⟨trivial, hidle.2⟩, hnone, false, hst⟩
      | removeLeft =>
        refine ⟨⟨trivial, hidle.2⟩, false, hst, fun h => ?_⟩
        have h : Function.update w.ghost.1.saw t false t = true := h
        rw [Function.update_self] at h
        cases h
      | removeRight =>
        refine ⟨⟨trivial, hidle.2⟩, false, hst, fun h => ?_⟩
        have h : Function.update w.ghost.1.saw t false t = true := h
        rw [Function.update_self] at h
        cases h
  run := by
    intro w t f ch σ o hw hf hok hs
    obtain ⟨rfl, rfl⟩ := Prod.mk.inj (Option.some.inj hs)
    exact moves_step hw hf.1 hf.2.1 hf.2.2 hok rfl

theorem not_refused {c : Config (machine α T n).logged}
    (hc : Reach (machine α T n).logged (unmissed n) c) :
    ∀ t r, .res t r ∈ c.events → (bagRet r).refused = false := by
  refine outline_sound.responses (fun {w t f ch σ r} hw hl hok hs => ?_) hc
  obtain ⟨-, ho⟩ := Prod.mk.inj (Option.some.inj hs)
  obtain ⟨g', -, -, -, heff⟩ := access_ok hw.heap hl.1 ch hl.2.1 hok
  rw [ho] at heff
  -- one case for each access that ends a call
  generalize f.loc = l at heff
  cases heff <;> rfl

theorem bagEvents_not_refused {c : Config (machine α T n).logged}
    (hc : Reach (machine α T n).logged (unmissed n) c) :
    ∀ t r, .res t r ∈ c.events.map bagEvent → r.refused = false := by
  intro t r hr
  obtain ⟨e, he, hre⟩ := List.mem_map.mp hr
  cases e with
  | inv u op => cases hre
  | tau u => cases hre
  | res u r' =>
    obtain ⟨rfl, rfl⟩ := Event.res.inj hre
    exact not_refused hc u r' he

end Outline

/-- **TSDeque is a linearizable bag in every run in which no item is missed.**  In such a run no
`compare_exchange` moves an end pointer that its owner has stored since it was read, and no
emptiness check finds the pointers of a buffer unchanged which it remembers from a search that
missed an item.  Then the history has a total order of its calls, consistent with real time, in
which each insert adds its element, each successful remove removes a present copy of the
element it returns, and each remove that returns false finds the bag empty. -/
theorem linearizable_of_unmissed {numThreads : ℕ} {c : Config (machine α T numThreads).logged}
    (hc : Reach (machine α T numThreads).logged (unmissed numThreads) c) :
    Reach (machine α T numThreads) always c.unlog ∧
      Linearizable (unboundedBagSpec α) (c.unlog.events.map bagEvent) := by
  obtain ⟨g, hw, -⟩ := outline_sound.reach hc
  rw [Config.unlog_events]
  exact ⟨hc.unlogged, hw.lin.linearizable.unbounded (bagEvents_not_refused hc)⟩

/-- An item is taken from the other end, and the next remove needs two scans to find the deque
empty. -/
def takenFromTheRight : List (Action (machine ℕ atomicCounter 2).logged) :=
  List.flatten [[.call 0 (.insertLeft 5)], turns 0 ⟨(), 0, false⟩ 11, [.call 1 .removeRight],
    turns 1 ⟨(), 0, false⟩ 25, [.call 1 .removeLeft], turns 1 ⟨(), 0, false⟩ 39]

theorem linearizable_of_unmissed_takenFromTheRight :
    ∃ c : Config (machine ℕ atomicCounter 2).logged,
      ((c.unlog.events.map bagEvent).filter fun e => e matches .res _ (.got _)) =
        [.res 1 (.got (some 5)), .res 1 (.got none)] ∧
      Reach (machine ℕ atomicCounter 2) always c.unlog ∧
      Linearizable (unboundedBagSpec ℕ) (c.unlog.events.map bagEvent) := by
  have h : ∃ c, Reach (machine ℕ atomicCounter 2).logged (unmissed 2) c ∧
      decide (((c.unlog.events.map bagEvent).filter fun e => e matches .res _ (.got _)) =
        [.res 1 (.got (some 5)), .res 1 (.got none)]) = true :=
    Reach.exists_of_any (unmissed 2) takenFromTheRight _ (by decide +kernel)
  obtain ⟨c, hc, hp⟩ := h
  exact ⟨c, of_decide_eq_true hp, linearizable_of_unmissed hc⟩

end TSDeque

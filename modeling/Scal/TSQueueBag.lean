/-
The timestamped queue is a linearizable bag, whatever its timestamps are.

The bag holds the items of all buffers that are not removed (`itemAt`).  An enqueue takes
effect when it stores `insert_`, a dequeue when its `compare_exchange` moves `remove_`.
A dequeue that returns false is ordered at the moment its last scan began: all buffers
were empty then, since nothing it remembers would have been left behind otherwise.

* `not_refused` — every enqueue that returns has put its item;
* `linearizable_anyTimestamps` — every reachable history is linearizable, with any timestamps.
-/
import Scal.TSQueueInvariant

open Interleave Linearizability

namespace TSQueue

variable {α : Type} {T : TimeStamp}

/-- The item at position `key.2` of buffer `key.1`, if it is not removed. -/
def itemAt (σ : Shared α T) (g : Ghost) (key : ℕ × ℕ) : Option α :=
  if g.removed key.1 < key.2 then
    ((g.items key.1)[key.2]?).bind fun p => (σ.item p).data
  else none

section Bag

variable {n addresses t u : ℕ} {σ σ' : Shared α T} {g g' : Ghost} {l : Local α T}
  {o : Local α T ⊕ BagRet α}

theorem itemAt_init : itemAt (.init n : Shared α T) (Ghost.init n) = fun _ => none := by
  funext ⟨b, k⟩
  rw [itemAt]
  split_ifs with hk
  · rw [Option.bind_eq_none_iff]
    intro p hp
    exact absurd (Ghost.init_items hp).2.1 (by simp only [Ghost.init] at hk; omega)
  · rfl

/-- The bag is empty when no buffer has an item that is not removed. -/
theorem itemAt_of_empty (he : g.Empty) (key : ℕ × ℕ) : itemAt σ g key = none := by
  rw [itemAt]
  split_ifs with hk
  · have := he key.1
    rw [List.getElem?_eq_none (by omega)]
    rfl
  · rfl

/-- Nothing is put or taken. -/
theorem itemAt_same (hI : HeapInv n σ g) (hr : Rely u σ g σ' g') (hitems : g'.items = g.items)
    (hremoved : g'.removed = g.removed) : itemAt σ' g' = itemAt σ g := by
  funext ⟨b, k⟩
  rw [itemAt, itemAt, hitems, hremoved]
  split_ifs
  · cases hp : (g.items b)[k]? with
    | none => rfl
    | some p => exact hr.data p (hI.bound b k p hp).2
  · rfl

theorem itemAt_link (hI : HeapInv n σ g) (ht : t < n) {p : ℕ} {x : α} (hlt : p < σ.alloc)
    (hx : (σ.item p).data = some x)
    (hr : Rely u σ g σ'
      { g with items := Function.update g.items t (g.items t ++ [p]) }) :
    itemAt σ g (t, (g.items t).length) = none ∧
      itemAt σ' { g with items := Function.update g.items t (g.items t ++ [p]) } =
        Function.update (itemAt σ g) (t, (g.items t).length) (some x) := by
  constructor
  · rw [itemAt]
    split_ifs
    · rw [List.getElem?_eq_none le_rfl]
      rfl
    · rfl
  · funext ⟨b, k⟩
    have hdata : ∀ q ∈ g.items b, (σ'.item q).data = (σ.item q).data := fun q hq =>
      hr.data q (hI.mem_lt hq)
    by_cases hb : b = t
    · subst hb
      have hlt' := hI.removed_lt ht
      simp only [itemAt, Function.update_self]
      rcases Nat.lt_trichotomy k (g.items b).length with hk | rfl | hk
      · rw [Function.update_of_ne (by simp; omega), List.getElem?_append_left hk, itemAt,
          List.getElem?_eq_getElem hk]
        exact if_congr Iff.rfl (hdata _ (List.getElem_mem hk)) rfl
      · rw [Function.update_self, if_pos hlt', List.getElem?_concat_length]
        exact (hr.data p hlt).trans hx
      · have hnew : (g.items b ++ [p])[k]? = none := List.getElem?_eq_none (by simp; omega)
        have hold : (g.items b)[k]? = none := List.getElem?_eq_none (by omega)
        rw [Function.update_of_ne (by simp; omega), itemAt, hnew, hold]
        rfl
    · have hne : (b, k) ≠ (t, (g.items t).length) := fun h => hb (congrArg Prod.fst h)
      rw [Function.update_of_ne hne, itemAt, itemAt]
      simp only [Function.update_of_ne hb]
      cases hp : (g.items b)[k]? with
      | none => rfl
      | some q => exact if_congr Iff.rfl (hdata q (List.mem_of_getElem? hp)) rfl

theorem itemAt_take (hI : HeapInv n σ g) {b p : ℕ} (hp : (g.items b)[g.removed b + 1]? = some p)
    (hr : Rely u σ g σ'
      { g with removed := Function.update g.removed b (g.removed b + 1) }) :
    itemAt σ g (b, g.removed b + 1) = (σ.item p).data ∧
      itemAt σ' { g with removed := Function.update g.removed b (g.removed b + 1) } =
        Function.update (itemAt σ g) (b, g.removed b + 1) none := by
  constructor
  · rw [itemAt, if_pos (Nat.lt_succ_self _), hp]
    rfl
  · funext ⟨c, k⟩
    have hdata : ((g.items c)[k]?).bind (fun q => (σ'.item q).data) =
        ((g.items c)[k]?).bind fun q => (σ.item q).data := by
      cases hq : (g.items c)[k]? with
      | none => rfl
      | some q => exact hr.data q (hI.bound c k q hq).2
    by_cases hkey : (c, k) = (b, g.removed b + 1)
    · obtain ⟨rfl, rfl⟩ := Prod.mk.inj hkey
      rw [Function.update_self, itemAt, if_neg]
      show ¬ Function.update g.removed c (g.removed c + 1) c < g.removed c + 1
      rw [Function.update_self]
      exact Nat.lt_irrefl _
    · rw [Function.update_of_ne hkey, itemAt, itemAt]
      refine if_congr ?_ hdata rfl
      show Function.update g.removed b (g.removed b + 1) c < k ↔ g.removed c < k
      by_cases hc : c = b
      · subst hc
        rw [Function.update_self]
        have : k ≠ g.removed c + 1 := fun h => hkey (by rw [h])
        omega
      · rw [Function.update_of_ne hc]

end Bag

/-! ### All runs -/

section Outline

variable {n addresses : ℕ}

/-- What the status of thread `t` is when its call `id` has got this far. -/
def Phase.Fits (t id : ℕ) (σ : Shared α T) (g : Ghost) (stat : ℕ → Status α) : Phase α → Prop
  | .putting x => ∃ s, stat t = .pending id (.put x) s
  | .linked x => stat t = .done id (.put x) (.put true)
  | .getting => ∃ s, stat t = .pending id .get s ∧ (g.saw t = true → s = true)
  | .taken p => p < σ.alloc ∧ ∃ x, (σ.item p).data = some x ∧
    stat t = .done id .get (.got (some x))

structure BagInv (w : World (machine α T n addresses) (Ghost × (ℕ → Status α))) : Prop where
  heap : HeapInv n w.shared w.ghost.1
  lin : Lin w.events (itemAt w.shared w.ghost.1) w.ghost.2

/-- The proof outline: every pending call knows the facts of its local state. -/
def outline (α : Type) (T : TimeStamp) (n addresses : ℕ) :
    Outline (machine α T n addresses) (Ghost × (ℕ → Status α)) where
  inv := BagInv
  loc t f w := match f with
    | none => w.ghost.2 t = .idle
    | some f => t < n ∧ Knows n t w.shared w.ghost.1 f.loc ∧
      f.loc.phase.Fits t f.id w.shared w.ghost.1 w.ghost.2
  rely u w w' := Rely u w.shared w.ghost.1 w'.shared w'.ghost.1 ∧ w'.ghost.2 u = w.ghost.2 u

/-- What a thread's own access does to the memory leaves its phase as it was. -/
theorem Phase.Fits.keep {t id u : ℕ} {σ σ' : Shared α T} {g g' : Ghost}
    {stat : ℕ → Status α} {φ : Phase α} (hf : φ.Fits t id σ g stat) (hr : Rely u σ g σ' g')
    (hs : φ = .getting → g'.saw t = true → g.saw t = true) : φ.Fits t id σ' g' stat := by
  cases φ with
  | putting x => exact hf
  | linked x => exact hf
  | getting =>
    obtain ⟨s, h, hsaw⟩ := hf
    exact ⟨s, h, fun h' => hsaw (hs rfl h')⟩
  | taken p =>
    obtain ⟨hlt, x, hx, h⟩ := hf
    exact ⟨hlt.trans_le hr.alloc, x, (hr.data p hlt).trans hx, h⟩

theorem Phase.Fits.rely {t id : ℕ} {σ σ' : Shared α T} {g g' : Ghost}
    {stat stat' : ℕ → Status α} {φ : Phase α} (hf : φ.Fits t id σ g stat)
    (hr : Rely t σ g σ' g') (hs : stat' t = stat t) : φ.Fits t id σ' g' stat' := by
  cases φ with
  | putting x =>
    obtain ⟨s, h⟩ := hf
    exact ⟨s, hs.trans h⟩
  | linked x => exact hs.trans hf
  | getting =>
    obtain ⟨s, h, hsaw⟩ := hf
    exact ⟨s, hs.trans h, fun h' => hsaw (hr.saw ▸ h')⟩
  | taken p =>
    obtain ⟨hlt, x, hx, h⟩ := hf
    exact ⟨hlt.trans_le hr.alloc, x, (hr.data p hlt).trans hx, hs.trans h⟩

variable {w : World (machine α T n addresses) (Ghost × (ℕ → Status α))} {t : ℕ}
  {f : Frame (machine α T n addresses)} {σ : Shared α T} {l : Local α T}

/-- The call goes on, and the status of its thread becomes `st`. -/
theorem moves_go {g : Ghost} (st : Status α) (ht : t < n) (hH : HeapInv n σ g)
    (hr : ∀ u, u ≠ t → Rely u w.shared w.ghost.1 σ g) (hk : Knows n t σ g l)
    (hl : Lin (w.events ++ [.tau t]) (itemAt σ g) (Function.update w.ghost.2 t st))
    (hf : l.phase.Fits t f.id σ g (Function.update w.ghost.2 t st)) :
    (outline α T n addresses).Moves w t (.ofStep (M := machine α T n addresses) t (.inl l)) σ
      (f.resume (.inl l)) := by
  refine ⟨(g, Function.update w.ghost.2 t st), ⟨hH, ?_⟩, ⟨ht, hk, hf⟩, fun u hu =>
    ⟨hr u hu, Function.update_of_ne hu ..⟩⟩
  rw [World.record_events]
  exact hl

theorem moves_stop {g : Ghost} {r : BagRet α} (hH : HeapInv n σ g)
    (hr : ∀ u, u ≠ t → Rely u w.shared w.ghost.1 σ g)
    (hl : Lin (w.events ++ [.res t r]) (itemAt σ g) (Function.update w.ghost.2 t .idle)) :
    (outline α T n addresses).Moves w t (.ofStep (M := machine α T n addresses) t (.inr r)) σ
      (f.resume (.inr r)) := by
  refine ⟨(g, Function.update w.ghost.2 t .idle), ⟨hH, ?_⟩, Function.update_self .., fun u hu =>
    ⟨hr u hu, Function.update_of_ne hu ..⟩⟩
  rw [World.record_events]
  exact hl

/-- **One access**: the buffers change as `access_ok` says, and the bag with them. -/
theorem moves_step (hw : BagInv w) (ht : t < n) (hk : Knows n t w.shared w.ghost.1 f.loc)
    (hfit : f.loc.phase.Fits t f.id w.shared w.ghost.1 w.ghost.2) {ch : Choice T}
    {o : Local α T ⊕ BagRet α} (hs : step n addresses t ch w.shared f.loc = some (σ, o)) :
    (outline α T n addresses).Moves w t (.ofStep (M := machine α T n addresses) t o) σ
      (f.resume o) := by
  obtain ⟨g', hH, hr, hk', heff⟩ := access_ok hw.heap ht ch hk hs
  have hu : Rely (t + 1) w.shared w.ghost.1 σ g' := hr _ (Nat.succ_ne_self t)
  have hstat : w.ghost.2 = Function.update w.ghost.2 t (w.ghost.2 t) := by simp
  generalize hloc : f.loc = l at hfit heff
  cases heff with
  | @go _ l' _ hphase hitems hremoved hsaw =>
    have hbag : itemAt σ g' = itemAt w.shared w.ghost.1 := itemAt_same hw.heap hu hitems hremoved
    rw [← hphase] at hfit
    by_cases hobs : l'.phase = .getting ∧ w.ghost.1.Empty
    · obtain ⟨hget, he⟩ := hobs
      rw [hget] at hfit
      obtain ⟨s, hst, -⟩ := hfit
      refine moves_go (.pending f.id .get true) ht hH hr (hk' _ rfl) ?_ ?_
      · rw [hbag]
        exact (hw.lin.tau t).observe hst (itemAt_of_empty he)
      · rw [hget]
        exact ⟨true, Function.update_self .., fun _ => rfl⟩
    · refine moves_go (w.ghost.2 t) ht hH hr (hk' _ rfl) ?_ ?_
      · rw [hbag, ← hstat]
        exact hw.lin.tau t
      · rw [← hstat]
        exact hfit.keep hu fun hget h => (hsaw h).resolve_right fun he => hobs ⟨hget, he⟩
  | @link x p hlt hx =>
    obtain ⟨s, hst⟩ := hfit
    obtain ⟨hnone, hbag⟩ := itemAt_link hw.heap ht hlt hx hu
    refine moves_go (.done f.id (.put x) (.put true)) ht hH hr (hk' _ rfl) ?_
      (Function.update_self ..)
    rw [hbag]
    exact (hw.lin.tau t).put hst hnone
  | @take s hget =>
    obtain ⟨s, hst, -⟩ := hfit
    obtain ⟨-, hd⟩ := hw.heap.data _ _ _ (Nat.le_add_left ..) hget
    obtain ⟨x, hx⟩ := Option.isSome_iff_exists.mp hd
    obtain ⟨hsome, hbag⟩ := itemAt_take hw.heap hget hu
    have hlt := (hw.heap.bound _ _ _ hget).2
    refine moves_go (.done f.id .get (.got (some x))) ht hH hr (hk' _ rfl) ?_
      ⟨hlt.trans_le hu.alloc, x, (hu.data _ hlt).trans hx, Function.update_self ..⟩
    rw [hbag]
    exact (hw.lin.tau t).take hst (hsome.trans hx)
  | putDone =>
    have hbag := itemAt_same hw.heap hu rfl rfl
    refine moves_stop hH hr ?_
    rw [hbag]
    exact hw.lin.resDone hfit
  | @gotDone x p hx =>
    obtain ⟨-, y, hy, hst⟩ := hfit
    obtain rfl := Option.some.inj (hx.symm.trans hy)
    have hbag := itemAt_same hw.heap hu rfl rfl
    refine moves_stop hH hr ?_
    rw [hbag]
    exact hw.lin.resDone hst
  | gotNone hphase hsaw =>
    rw [hphase] at hfit
    obtain ⟨s, hst, hs'⟩ := hfit
    have hbag := itemAt_same hw.heap hu rfl rfl
    refine moves_stop hH hr ?_
    rw [hbag]
    exact hw.lin.resNone (hs' hsaw ▸ hst)

theorem outline_sound : (outline α T n addresses).Sound always where
  init := by
    refine ⟨(Ghost.init n, fun _ => .idle), ⟨init_inv, ?_⟩, fun _ => rfl⟩
    show Lin [] (itemAt (.init n : Shared α T) (Ghost.init n)) _
    rw [itemAt_init]
    exact lin_init
  stable := by
    intro w e σ g t f _ _ hf _ hr
    cases f with
    | none => exact hr.2.trans hf
    | some f => exact ⟨hf.1, hf.2.1.rely hr.1, hf.2.2.rely hr.1 hr.2⟩
  call := by
    intro w t op hw hidle ht
    obtain ⟨hH, hr⟩ := hw.heap.forget t
    refine ⟨({ w.ghost.1 with saw := Function.update w.ghost.1.saw t false },
        Function.update w.ghost.2 t (.pending w.events.length op false)), ⟨hH, ?_⟩,
      ⟨of_decide_eq_true ht, ?_⟩, fun u hu => ⟨hr u hu, Function.update_of_ne hu ..⟩⟩
    · rw [World.record_events]
      exact hw.lin.inv hidle op
    · have hst : Function.update w.ghost.2 t (.pending w.events.length op false) t =
          .pending w.trace.length op false := by simp
      cases op with
      | put x => exact ⟨⟨trivial, trivial⟩, false, hst⟩
      | get => exact ⟨⟨trivial, trivial⟩, false, hst, fun h => by simp at h⟩
  run := by
    intro w t f ch σ o hw hf _ hs
    exact moves_step hw hf.1 hf.2.1 hf.2.2 hs

theorem not_refused {c : Config (machine α T n addresses)}
    (hc : Reach (machine α T n addresses) always c) :
    ∀ t r, .res t r ∈ c.events → r.refused = false := by
  refine outline_sound.responses (fun {w t f ch σ r} hw hl _ hs => ?_) hc
  obtain ⟨g', -, -, -, heff⟩ := access_ok hw.heap hl.1 ch hl.2.1 hs
  -- one case for each access that ends a call
  generalize f.loc = l at heff
  cases heff <;> rfl

end Outline

/-- **TSQueue is a linearizable bag.**  Every reachable history has a total order of its
calls, consistent with real time, in which each enqueue adds its element, each successful
dequeue removes a present copy of the element it returns, and each dequeue that returns
false finds the bag empty: for any number of threads and whatever the timestamps are. -/
theorem linearizable_anyTimestamps {numThreads addresses : ℕ}
    {c : Config (machine α T numThreads addresses)}
    (hc : Reach (machine α T numThreads addresses) always c) :
    Linearizable (unboundedBagSpec α) c.events := by
  obtain ⟨g, hw, -⟩ := outline_sound.reach hc
  exact hw.lin.linearizable.unbounded (not_refused hc)

/-- An item is taken, and the next dequeue needs two scans to find all buffers empty. -/
def takenThenEmpty : List (Action (machine ℕ atomicCounter 2 10)) :=
  List.flatten [[.call 0 (.put 5)], turns 0 ⟨(), 0, false⟩ 6, [.call 1 .get],
    turns 1 ⟨(), 0, false⟩ 11, [.call 1 .get], turns 1 ⟨(), 1, false⟩ 14]

theorem linearizable_anyTimestamps_takenThenEmpty :
    ∃ c : Config (machine ℕ atomicCounter 2 10),
      (c.events.filter fun e => e matches .res _ (.got _)) =
        [.res 1 (.got (some 5)), .res 1 (.got none)] ∧
      Linearizable (unboundedBagSpec ℕ) c.events := by
  have h : ∃ c, Reach (machine ℕ atomicCounter 2 10) always c ∧
      decide ((c.events.filter fun e => e matches .res _ (.got _)) =
        [.res 1 (.got (some 5)), .res 1 (.got none)]) = true :=
    Reach.exists_of_any always takenThenEmpty _ (by decide)
  obtain ⟨c, hc, hp⟩ := h
  exact ⟨c, of_decide_eq_true hp, linearizable_anyTimestamps hc⟩

end TSQueue

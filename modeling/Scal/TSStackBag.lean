/-
The timestamped stack is a linearizable bag, whatever its timestamps are.

The bag holds the items that are not taken.  A push takes effect when it stores `list`, a
pop when its `compare_exchange` sets `taken`.  A pop that returns false is ordered at the
moment its last scan began.

* `access_ok` — every access keeps the invariant, and does to the bag what its call may do;
* `linearizable_anyRing` — every reachable history is linearizable, with any timestamps;
* `not_unlinking` — no buffer is ever unlinked from the ring.
-/
import Scal.TSStackInvariant
import Mathlib.Data.Nat.Find

open Interleave Linearizability

namespace TSStack

variable {α : Type} {T : TimeStamp}

/-- How far a call has got. -/
def Local.phase (σ : Shared α T) : Local α T → BagPhase α
  | .newItem x => .putting x
  | .loadSPBuffer x _ => .putting x
  | .register x _ => .putting x
  | .loadEntryNext x _ => .putting x
  | .storeBufferNext x _ _ => .putting x
  | .linkBuffer x _ _ => .putting x
  | .reloadSPBuffer x _ => .putting x
  | .loadOldTop x _ _ => .putting x
  | .topNext x _ _ _ => .putting x
  | .topTaken x _ _ _ => .putting x
  | .topStep x _ _ _ => .putting x
  | .storeNext x _ _ _ => .putting x
  | .listSPBuffer x _ _ => .putting x
  | .storeList x _ _ _ => .putting x
  | .setTimestamp x _ _ => .put x
  | .swapList _ _ _ p => (σ.item p).data.elim .getting .got
  | .loadData _ p => (σ.item p).data.elim .getting .got
  | _ => .getting

/-- Only `storeList` links an item, to the thread's own buffer. -/
def Links (t : ℕ) (l : Local α T) (g g' : Ghost) : Prop :=
  ∀ (b k p : ℕ), (g'.items b)[k + 1]? = some p → (g.items b)[k + 1]? = some p ∨
    b = bufferOf t ∧ k + 1 = (g.items b).length ∧ ∃ x w b', l = .storeList x p w b'

theorem Links.of_eq {t : ℕ} {l : Local α T} {g g' : Ghost} (h : g'.items = g.items) :
    Links t l g g' := fun _ _ _ hp => Or.inl (h ▸ hp)

theorem Links.push {t : ℕ} (g : Ghost) (x : α) (p : ℕ) (w : TaggedPointer) (b' : ℕ) :
    Links t (.storeList x p w b' : Local α T) g (g.push t p) := by
  intro b k q hq
  rcases Ghost.push_items hq with h | ⟨rfl, hk, rfl⟩
  · exact Or.inl h
  · exact Or.inr ⟨rfl, hk, x, w, b', rfl⟩

/-- What is to be shown of every access `a` that thread `t` makes from `l`. -/
def StepOk (n t : ℕ) (σ : Shared α T) (g : Ghost) (l : Local α T)
    (a : Shared α T × (Local α T ⊕ BagRet α)) : Prop :=
  ∃ g', HeapInv n a.1 g' ∧ (∀ u, u ≠ t → Rely u σ g a.1 g') ∧
    (∀ l', a.2 = .inl l' → Knows t a.1 g' l') ∧ (∀ r, a.2 = .inr r → Ready t a.1 g') ∧
    BagEffect (itemAt σ g) (itemAt a.1 g') (g.saw t) (g'.saw t) (l.phase σ)
      (a.2.map (Local.phase a.1) id) ∧ Links t l g g'

section Access

variable {n addresses t : ℕ} {σ σ' : Shared α T} {g : Ghost} {l l' : Local α T} {s : Scan T}

/-- The call goes on. -/
theorem StepOk.go (g' : Ghost) (hH : HeapInv n σ' g') (hl : Links t l g g')
    (hr : ∀ u, u ≠ t → Rely u σ g σ' g') (hk : Knows t σ' g' l')
    (he : BagEffect (itemAt σ g) (itemAt σ' g') (g.saw t) (g'.saw t) (l.phase σ)
      (.inl (l'.phase σ'))) : StepOk n t σ g l (σ', .inl l') := by
  refine ⟨g', hH, hr, fun m hm => ?_, fun _ hm => absurd hm (by simp), he, hl⟩
  obtain rfl := Sum.inl.inj hm
  exact hk

/-- An access that does not change the bag, after which the call goes on. -/
theorem StepOk.quiet (g' : Ghost) (hH : HeapInv n σ' g') (hl : Links t l g g')
    (hr : ∀ u, u ≠ t → Rely u σ g σ' g') (hbag : itemAt σ' g' = itemAt σ g)
    (hsaw : g'.saw t = true → g.saw t = true ∨ ∀ k, itemAt σ g k = none) (hphase : l'.phase σ' = l.phase σ) (hk : Knows t σ' g' l') :
    StepOk n t σ g l (σ', .inl l') := by
  refine .go g' hH hl hr hk ?_
  rw [hphase]
  exact .go hbag hsaw

theorem StepOk.read (hI : HeapInv n σ g) (hphase : l'.phase σ = l.phase σ)
    (hk : Knows t σ g l') : StepOk n t σ g l (σ, .inl l') :=
  .quiet g hI (.of_eq rfl) (fun _ _ => .refl ..) rfl Or.inl hphase hk

/-- The call returns. -/
theorem StepOk.stop (hH : HeapInv n σ' g) (hr : ∀ u, u ≠ t → Rely u σ g σ' g)
    (hready : Ready t σ' g) {r : BagRet α}
    (he : BagEffect (itemAt σ g) (itemAt σ' g) (g.saw t) (g.saw t) (l.phase σ) (.inr r)) :
    StepOk n t σ g l (σ', .inr r) :=
  ⟨g, hH, hr, fun _ hm => absurd hm (by simp), fun _ _ => hready, he, .of_eq rfl⟩

/-! ### Pushing -/

/-- The access belongs to a push. -/
def Local.pushes : Local α T → Bool
  | .newItem _ | .loadSPBuffer _ _ | .register _ _ | .loadEntryNext _ _
  | .storeBufferNext _ _ _ | .linkBuffer _ _ _ | .reloadSPBuffer _ _ | .loadOldTop _ _ _
  | .topNext _ _ _ _ | .topTaken _ _ _ _ | .topStep _ _ _ _ | .storeNext _ _ _ _
  | .listSPBuffer _ _ _ | .storeList _ _ _ _ | .setTimestamp _ _ _ => true
  | _ => false

theorem push_ok (hI : HeapInv n σ g) (htn : t < n) (ch : Choice T)
    {a : Shared α T × (Local α T ⊕ BagRet α)} (hk : Knows t σ g l) (hl : l.pushes = true)
    (hs : step n addresses t ch σ l = some a) : StepOk n t σ g l a := by
  cases l with
  | newItem x =>
    simp only [step] at hs
    split_ifs at hs
    obtain rfl := Option.some.inj hs
    obtain ⟨hH, hown, hr, hbag⟩ := hI.newItem t x
    exact .quiet _ hH (.of_eq rfl) (fun u _ => hr u) hbag Or.inl rfl ⟨trivial, hk.2, hown⟩
  | loadSPBuffer x p =>
    obtain ⟨-, hready, hown⟩ := hk
    simp only [step] at hs
    split_ifs at hs with h0
    · obtain rfl := Option.some.inj hs
      exact .read hI rfl ⟨trivial, h0, hown⟩
    · obtain rfl := Option.some.inj hs
      exact .read hI rfl ⟨trivial, ⟨h0, Or.resolve_left hready h0⟩, hown⟩
  | register x p =>
    obtain ⟨-, h0, hown⟩ := hk
    simp only [step] at hs
    split_ifs at hs
    obtain rfl := Option.some.inj hs
    have hlinks : Links t (.register x p : Local α T) g (g.newBuffer t σ.alloc) := by
      intro b k q hq
      rcases Ghost.newBuffer_items hq with ⟨-, hq⟩ | ⟨-, h0, -⟩
      · exact Or.inl hq
      · omega
    refine .quiet _ (hI.newBuffer_inv h0 htn) hlinks (fun u hu => hI.newBuffer_rely h0 hu)
      (hI.newBuffer_itemAt h0) Or.inl rfl ⟨trivial, ⟨?_, (hI.noItems h0).2⟩, hown.owner,
      Nat.lt_succ_of_lt hown.lt, hown.ne, fun b hm => ?_, ?_⟩
    · simp [Shared.newBuffer, bufferOf]
    · obtain ⟨k, hk⟩ := List.mem_iff_getElem?.mp hm
      rcases Ghost.newBuffer_items hk with ⟨-, hk⟩ | ⟨-, -, h⟩
      · exact hown.unlinked b (List.mem_of_getElem? hk)
      · exact Nat.ne_of_lt hown.lt h
    · rw [← hown.item]
      exact Function.update_of_ne (Nat.ne_of_lt hown.lt) ..
  | loadEntryNext x p =>
    obtain rfl := Option.some.inj hs
    exact .read hI rfl ⟨trivial, hk.2⟩
  | storeBufferNext x p next =>
    obtain rfl := Option.some.inj hs
    obtain ⟨-, hreg, hown⟩ := hk
    obtain ⟨hH, hr, hnext⟩ := hI.setBufferNext hreg.2 next
    exact .quiet g hH (.of_eq rfl) hr rfl Or.inl rfl ⟨trivial, hreg, ⟨hown.owner, hown.lt, hown.ne,
      hown.unlinked, hown.item⟩, fun _ => hnext⟩
  | linkBuffer x p next =>
    obtain ⟨-, hreg, hown, hnext⟩ := hk
    simp only [step] at hs
    split_ifs at hs with hcas
    · obtain rfl := Option.some.inj hs
      obtain ⟨hH, hr⟩ := hI.linkBuffer hreg.1 hreg.2 ((hnext hreg.2).trans hcas.1.symm)
      exact .quiet _ hH (.of_eq rfl) hr rfl Or.inl rfl ⟨trivial, ⟨hreg.1, by simp⟩, hown.owner, hown.lt,
        hown.ne, hown.unlinked, hown.item⟩
    · obtain rfl := Option.some.inj hs
      exact .read hI rfl ⟨trivial, hreg, hown⟩
  | reloadSPBuffer x p =>
    obtain rfl := Option.some.inj hs
    obtain ⟨-, hreg, hown⟩ := hk
    exact .read hI rfl ⟨trivial, hreg, hown, (hI.registered t hreg.1).2.1⟩
  | loadOldTop x p b =>
    obtain rfl := Option.some.inj hs
    obtain ⟨-, hreg, hown, hb⟩ := hk
    obtain rfl : b = bufferOf t := hb
    obtain ⟨k, hk, hT⟩ := hI.list _ (hI.registered t hreg.1).2.2.2
    exact .read hI rfl ⟨trivial, hreg, hown, k, hk, hT⟩
  | topNext x p w top =>
    obtain ⟨-, hreg, hown, habove⟩ := hk
    simp only [step] at hs
    split_ifs at hs
    · obtain rfl := Option.some.inj hs
      exact .read hI rfl ⟨trivial, hreg, hown, habove⟩
    · obtain rfl := Option.some.inj hs
      exact .read hI rfl ⟨trivial, hreg, hown, habove⟩
  | topTaken x p w top =>
    obtain ⟨-, hreg, hown, i, hi, hT⟩ := hk
    simp only [step] at hs
    split_ifs at hs with htaken
    · obtain rfl := Option.some.inj hs
      refine .read hI rfl ⟨trivial, hreg, hown, i, hi, fun m q hm hq => ?_⟩
      rcases Nat.lt_or_eq_of_le hm with hm | rfl
      · exact hT m q hm hq
      · obtain rfl := Option.some.inj (hi.symm.trans hq)
        exact htaken
    · obtain rfl := Option.some.inj hs
      exact .read hI rfl ⟨trivial, hreg, hown, i, hi, hT⟩
  | topStep x p w top =>
    obtain rfl := Option.some.inj hs
    obtain ⟨-, hreg, hown, i, hi, hT⟩ := hk
    refine .read hI rfl ⟨trivial, hreg, hown, ?_⟩
    cases i with
    | zero =>
      rw [(hI.sentinel _ _ hi).2]
      exact ⟨0, hi, fun m q hm hq => hT m q (Nat.zero_le m) hq⟩
    | succ i =>
      -- the items that `next` passes are taken
      obtain ⟨j, q, hj, hq, hn, hT'⟩ := hI.next _ _ _ hi
      rw [hn]
      refine ⟨j, hq, fun m r hm hr => ?_⟩
      rcases Nat.lt_or_ge i m with him | hmi
      · exact hT m r him hr
      · exact hT' m r ⟨hm, hmi⟩ hr
  | storeNext x p w top =>
    obtain rfl := Option.some.inj hs
    obtain ⟨-, hreg, hown, i, hi, hT⟩ := hk
    obtain ⟨hH, hown', hr, hbag⟩ := hI.setNext hown top
    refine .quiet g hH (.of_eq rfl) hr hbag Or.inl rfl ⟨trivial, hreg, i, top, hi, fun m q hm hq => ?_, hown'⟩
    have hqp : q ≠ p := by
      rintro rfl
      exact hown.unlinked _ (List.mem_of_getElem? hq)
    show (Function.update σ.item p _ q).taken = true
    rw [Function.update_of_ne hqp]
    exact hT m q hm hq
  | listSPBuffer x p w =>
    obtain rfl := Option.some.inj hs
    obtain ⟨-, hreg, hnext⟩ := hk
    exact .read hI rfl ⟨trivial, hreg, hnext, (hI.registered t hreg.1).2.1⟩
  | storeList x p w b =>
    obtain rfl := Option.some.inj hs
    obtain ⟨-, hreg, hnext, hb⟩ := hk
    obtain rfl : b = bufferOf t := hb
    obtain ⟨i, top, hi, hT, hown⟩ := hnext
    have hw : (addNextAba p w 1).pointer = p := rfl
    exact .go _ (hown.push_inv hw hI hi hT hreg.1 hreg.2) (.push g x p w _)
      (fun u hu => hown.push_rely hw hu) ⟨trivial, hreg, hown.lt, hown.owner, by simp⟩
      (.put (itemAt_none (List.getElem?_eq_none le_rfl)) hown.push_itemAt)
  | setTimestamp x p setting =>
    simp only [step] at hs
    obtain rfl := Option.some.inj hs
    obtain ⟨-, hreg, hlinked⟩ := hk
    obtain ⟨hH, hr, hbag⟩ := hI.setStamp hlinked
      (T.setStep ch.time σ.clock (σ.item p).timestamp setting).1
      (T.setStep ch.time σ.clock (σ.item p).timestamp setting).2.1
    cases (T.setStep ch.time σ.clock (σ.item p).timestamp setting).2.2 with
    | none => exact .stop hH hr (Or.inr hreg.2) (.putDone hbag)
    | some setting' => exact .quiet g hH (.of_eq rfl) hr hbag Or.inl rfl ⟨trivial, hreg, hlinked⟩
  | _ => cases hl

/-! ### Scanning -/

/-- The scan found no item that it could take. -/
theorem noElement_ok (hH : HeapInv n σ' g) (hr : ∀ u, u ≠ t → Rely u σ g σ' g)
    (hbag : itemAt σ' g = itemAt σ g) (hready : Ready t σ' g) (hl : l.phase σ = .getting)
    (hf : s.empty = true → g.saw t = true) : StepOk n t σ g l (σ', noElement s) := by
  rw [noElement]
  split_ifs with he
  · refine .stop hH hr hready ?_
    rw [hl]
    exact .gotNone hbag (hf he)
  · exact .quiet g hH (.of_eq rfl) hr hbag Or.inl hl.symm ⟨trivial, hready⟩

/-- Nothing is left to visit. -/
theorem Fenced.saw {rest : ℕ → Prop} (hf : Fenced t rest σ g) (hrest : ∀ j, ¬ rest j) :
    g.saw t = true := by
  rcases hf with hs | ⟨j, i, hj, -⟩
  · exact hs
  · exact absurd hj (hrest j)

/-- A buffer was visited. -/
theorem loopEnd_ok (hH : HeapInv n σ' g) (hr : ∀ u, u ≠ t → Rely u σ g σ' g)
    (hbag : itemAt σ' g = itemAt σ g) (hready : Ready t σ' g) (hl : l.phase σ = .getting)
    (hres : (Fact.result s : Fact α T).Holds t σ' g) {c : ℕ} {rest : ℕ → Prop}
    (hv : Visiting g.ring s.startBuffer s.currentBuffer s.entryCounter c rest)
    (hf : s.empty = true → Fenced t rest σ' g) :
    StepOk n t σ g l (σ', loopEnd (σ'.buffer s.currentBuffer).index s) := by
  rcases hv.loopEnd hH with ⟨he, hrest⟩ | ⟨counter, he, hleave⟩
  · rw [he, afterLoop]
    split_ifs with h0
    · exact .quiet g hH (.of_eq rfl) hr hbag Or.inl hl.symm ⟨h0, hready, hres⟩
    · exact noElement_ok hH hr hbag hready hl fun h => (hf h).saw hrest
  · rw [he]
    exact .quiet g hH (.of_eq rfl) hr hbag Or.inl hl.symm ⟨trivial, hready, hres, rest, hleave, hf⟩

/-- The next random step, or the scan begins. -/
theorem skipTo_ok {g' : Ghost} (hH : HeapInv n σ g') (hr : ∀ u, u ≠ t → Rely u σ g σ g')
    (hbag : itemAt σ g' = itemAt σ g)
    (hlinks : Links t l g g') (hsaw : g'.saw t = true → g.saw t = true ∨ ∀ k, itemAt σ g k = none)
    (hready : Ready t σ g') (hl : l.phase σ = .getting) {b : ℕ} (hb : b ∈ g'.ring)
    (hf : Fenced t (fun _ => True) σ g') (time : T.Time) (count : ℕ) :
    StepOk n t σ g l (σ, skipTo σ time count b) := by
  cases count with
  | zero =>
    obtain ⟨counter, rest, he, hleave, hall⟩ := loopHead_init hH hb time
    show StepOk n t σ g l (σ, loopHead (σ.buffer b).index (.init time b))
    rw [he]
    refine .quiet g' hH hlinks hr hbag hsaw hl.symm
      ⟨trivial, hready, fun h => absurd rfl h, rest, hleave, fun _ => hf.imp_right ?_⟩
    rintro ⟨j, i, -, h⟩
    exact ⟨j, i, hall j, h⟩
  | succ count => exact .quiet g' hH hlinks hr hbag hsaw hl.symm ⟨trivial, hready, hb, hf⟩

/-- The oldest item of a buffer that is not taken makes a fence. -/
theorem fence_of_free (hI : HeapInv n σ g) {i k p : ℕ} (hp : (g.items (bufferOf i))[k]? = some p)
    (hfree : (σ.item p).taken = false) : ∃ j : ℕ, g.ring[j]? = some (bufferOf i) ∧ Fence t i σ g := by
  have hex : ∃ m, ∃ q, (g.items (bufferOf i))[m]? = some q ∧ (σ.item q).taken = false :=
    ⟨k, p, hp, hfree⟩
  classical
  obtain ⟨f, hf, hff⟩ := Nat.find_spec hex
  have hmin : ∀ m q, m < Nat.find hex → (g.items (bufferOf i))[m]? = some q →
      (σ.item q).taken = true := by
    intro m q hm hq
    have := Nat.find_min hex hm
    by_contra h
    exact this ⟨q, hq, by simpa using h⟩
  obtain ⟨m, hm⟩ : ∃ m, Nat.find hex = m + 1 := by
    cases h : Nat.find hex with
    | zero =>
      rw [h] at hf
      rw [(hI.sentinel _ _ hf).1] at hff
      cases hff
    | succ m => exact ⟨m, rfl⟩
  rw [hm] at hf hmin
  have hlen := Chain.lt_length hf
  have hone : (g.items (bufferOf i))[1]? = some (g.items (bufferOf i))[1] :=
    List.getElem?_eq_getElem (by omega)
  obtain ⟨j, hj⟩ := List.mem_iff_getElem?.mp (hI.linked _ _ hone)
  refine ⟨j, hj, m, f, hf, fun k q hk hq => ⟨hmin k q (by omega) hq, fun h => ?_⟩, ?_, ?_⟩
  · rw [hff] at h
    cases h
  · -- all items above the list pointer are taken
    obtain ⟨k, hk, hT⟩ := hI.list (bufferOf i) (List.ne_nil_of_mem (List.mem_of_getElem? hf))
    refine ⟨k, ?_, hk⟩
    by_contra h
    rw [hT (m + 1) f (by omega) hf] at hff
    cases hff
  · refine (hI.remembered t i).imp_right ?_
    rintro ⟨k, hk, hT⟩
    refine ⟨k, ?_, hk⟩
    by_contra h
    rw [hT (m + 1) f (by omega) hf] at hff
    cases hff

/-- When the scan begins all items are taken, or there is a fence. -/
theorem loadEntry_ok (hI : HeapInv n σ g) (hready : Ready t σ g) (hl : l.phase σ = .getting)
    (time : T.Time) (count : ℕ) : StepOk n t σ g l (σ, skipTo σ time count entryBuffer) := by
  have hentry : entryBuffer ∈ g.ring := List.mem_of_getElem? hI.entry
  by_cases he : ∀ k, itemAt σ g k = none
  · -- the empty moment is remembered
    obtain ⟨hH, hr⟩ := hI.setSaw t true
    exact skipTo_ok hH hr rfl (.of_eq rfl) (fun _ => Or.inr he) hready hl hentry
      (Or.inl (Function.update_self ..)) time count
  · obtain ⟨⟨b, k⟩, hb⟩ := not_forall.mp he
    cases hp : (g.items b)[k]? with
    | none => exact absurd (itemAt_none hp) hb
    | some p =>
      rw [itemAt_some hp] at hb
      have hfree : (σ.item p).taken = false := by
        by_contra h
        exact hb (if_pos (by simpa using h))
      have hbe : b ≠ entryBuffer := by
        rintro rfl
        have hlt := Chain.lt_length hp
        rw [hI.entryItems] at hlt
        obtain rfl : k = 0 := by omega
        rw [(hI.sentinel _ _ hp).1] at hfree
        cases hfree
      rcases hI.unregistered b (List.ne_nil_of_mem (List.mem_of_getElem? hp)) with h | ⟨i, rfl, -⟩
      · exact absurd h hbe
      · obtain ⟨j, hj, hF⟩ := fence_of_free (t := t) hI hp hfree
        exact skipTo_ok hI (fun _ _ => .refl ..) rfl (.of_eq rfl) Or.inl hready hl hentry
          (Or.inr ⟨j, i, trivial, hj, hF⟩) time count

/-! ### Visiting a buffer -/

theorem HeapInv.items_ne_nil (hI : HeapInv n σ g) {b : ℕ} (hb : b ∈ g.ring) : g.items b ≠ [] := by
  obtain ⟨k, hk⟩ := List.mem_iff_getElem?.mp hb
  cases k with
  | zero =>
    obtain rfl : entryBuffer = b := Option.some.inj (hI.entry.symm.trans hk)
    intro h
    have := hI.entryItems
    rw [h] at this
    cases this
  | succ k =>
    obtain ⟨i, rfl, hi⟩ := hI.ringMem k b hk
    exact (hI.registered i hi).2.2.2

theorem loadBuffer_ok (hI : HeapInv n σ g) (hk : Knows t σ g (.loadBuffer s : Local α T)) :
    StepOk n t σ g (.loadBuffer s)
      (σ, .inl (.loadTop { s with currentBuffer := (σ.buffer s.currentBuffer).next } false)) := by
  obtain ⟨-, hready, hres, rest, hleave, hf⟩ := hk
  obtain ⟨c, rest', hv, hrest⟩ := hleave.step hI
  refine .read hI rfl ⟨(fun h => by cases h), hready, hres, c, rest', hv, fun he => ?_⟩
  refine (hf he).imp_right ?_
  rintro ⟨j, i, hj, hring, hF⟩
  exact ⟨j, i, hrest j (Chain.lt_length hring) hj, hring, hF⟩

/-- The list pointer is at or above a fence, so it is not the one remembered. -/
theorem loadTop_ok (hI : HeapInv n σ g) {again : Bool}
    (hk : Knows t σ g (.loadTop s again : Local α T)) :
    StepOk n t σ g (.loadTop s again)
      (σ, .inl (.loadList s again (σ.buffer s.currentBuffer).list)) := by
  obtain ⟨hshape, hready, hres, c, rest, hv, hf⟩ := hk
  have hc := hv.onRing hI.entry
  obtain ⟨k, hk, -⟩ := hI.list _ (hI.items_ne_nil (List.mem_of_getElem? hc))
  refine .read hI rfl ⟨hshape, hready, hres, ⟨c, rest, hv, fun he hw => ?_⟩, k, hk⟩
  rcases hf he with hs | ⟨j, i, rfl | hj, hring, hF⟩
  · exact Or.inl hs
  · exfalso
    have hcur : s.currentBuffer = bufferOf i := Option.some.inj (hc.symm.trans hring)
    obtain ⟨m, f, -, -, ⟨k', hmk, hk'⟩, he'⟩ := hF
    rw [hw i hcur, hcur] at he'
    rcases he' with h0 | ⟨j', hj', hget⟩
    · exact (hI.bound _ _ _ hk').1 h0
    · have := (hI.unique _ _ _ _ _ hget hk').2
      omega
  · exact Or.inr ⟨j, i, hj, hring, hF⟩

theorem loadNext_ok (hI : HeapInv n σ g) {ch : Choice T} {again : Bool} {w : TaggedPointer}
    {p : ℕ} {a : Shared α T × (Local α T ⊕ BagRet α)}
    (hk : Knows t σ g (.loadNext s again w p : Local α T))
    (hs : step n addresses t ch σ (.loadNext s again w p) = some a) :
    StepOk n t σ g (.loadNext s again w p) a := by
  obtain ⟨hshape, hready, hres, hv, ⟨i, k, hi, hk, hT⟩, m, hm, hp⟩ := hk
  simp only [step] at hs
  cases i with
  | zero =>
    -- the sentinel: all items are taken
    obtain ⟨hp0, hnext⟩ := hI.sentinel _ _ hi
    rw [if_pos hnext] at hs
    obtain rfl := Option.some.inj hs
    refine .read hI rfl ⟨hshape, hready, hres, hv, k, hk, fun j q hj hq => ?_⟩
    rcases Nat.eq_zero_or_pos j with rfl | hpos
    · obtain rfl := Option.some.inj (hi.symm.trans hq)
      exact hp0
    · exact hT j q ⟨hpos, hj⟩ hq
  | succ i =>
    obtain ⟨j, q, hj, hq, hnext, hT'⟩ := hI.next _ _ _ hi
    have hne : q ≠ p := by
      rintro rfl
      have := (hI.unique _ _ _ _ _ hq hi).2
      omega
    rw [if_neg (hnext ▸ hne)] at hs
    obtain rfl := Option.some.inj hs
    refine .read hI rfl ⟨hshape, hready, hres, hv, j, k, hnext ▸ hq, hk, fun m' r hm' hr => ?_⟩
    rcases Nat.lt_trichotomy m' (i + 1) with hlt | rfl | hgt
    · exact hT' m' r ⟨hm'.1, by omega⟩ hr
    · obtain rfl := Option.some.inj (hi.symm.trans hr)
      exact hp
    · exact hT m' r ⟨hgt, hm'.2⟩ hr

/-- No item was found in the current buffer. -/
theorem noItem_ok (hI : HeapInv n σ g) {again : Bool} {w : TaggedPointer}
    (hl : l.phase σ = .getting) (hready : Ready t σ g) (hshape : again = true → s.empty = false)
    (hres : (Fact.result s : Fact α T).Holds t σ g)
    (hvisited : (Fact.visited s w : Fact α T).Holds t σ g)
    (hclear : (Fact.cleared s.currentBuffer w : Fact α T).Holds t σ g) :
    StepOk n t σ g l (noItem t σ s again w) := by
  obtain ⟨c, rest, hv, hf⟩ := hvisited
  have hc := hv.onRing hI.entry
  rw [noItem]
  cases again with
  | true =>
    exact loopEnd_ok hI (fun _ _ => .refl ..) rfl hready hl hres hv fun h =>
      absurd ((hshape rfl).symm.trans h) (by decide)
  | false =>
    rw [if_neg (by decide)]
    cases hindex : (σ.buffer s.currentBuffer).index with
    | none =>
      -- the entry buffer, which never has items
      show StepOk n t σ g l (σ, loopEnd none s)
      rw [← hindex]
      refine loopEnd_ok hI (fun _ _ => .refl ..) rfl hready hl hres hv fun he =>
        hf he fun i hi => ?_
      have hpos : 0 < c := by
        rcases Nat.eq_zero_or_pos c with rfl | h
        · rw [hI.entry, Option.some.injEq] at hc
          exact absurd (hi.symm.trans hc.symm) (bufferOf_ne_entry i)
        · exact h
      obtain ⟨j, -, hj, -⟩ := hI.ring_index hc hpos
      rw [hindex] at hj
      cases hj
    | some i =>
      have hcur : s.currentBuffer = bufferOf i := by
        rcases Nat.eq_zero_or_pos c with rfl | hpos
        · rw [hI.entry, Option.some.injEq] at hc
          rw [← hc, hI.entryIndex] at hindex
          cases hindex
        · obtain ⟨j, hj, hj', -⟩ := hI.ring_index hc hpos
          obtain rfl := Option.some.inj (hindex.symm.trans hj')
          exact hj
      show StepOk n t σ g l (if σ.emptinessCheckPointers t i ≠ w then
        (σ.setEmptinessCheck t i w, loopEnd (some i) { s with empty := false })
        else (σ, loopEnd (some i) s))
      rw [← hindex]
      split_ifs with he
      · obtain ⟨hH, hr⟩ := hI.remember (hcur ▸ hclear)
        exact loopEnd_ok (s := { s with empty := false }) hH hr rfl hready hl
          (fun h => ⟨rfl, (hres h).2⟩) hv fun h => by cases h
      · refine loopEnd_ok hI (fun _ _ => .refl ..) rfl hready hl hres hv fun h =>
          hf h fun j hj => ?_
        obtain rfl : i = j := by
          have := hcur.symm.trans hj
          rw [bufferOf, bufferOf] at this
          omega
        exact not_not.mp he

/-- `compare_exchange` on `taken`: whoever took the item saw the ones above it taken. -/
theorem take_ok (hI : HeapInv n σ g) {b p : ℕ} {w : TaggedPointer} (hready : Ready t σ g)
    (hB : Below b w p σ g) (hfree : (σ.item p).taken = false) (hl : l.phase σ = .getting)
    (time : T.Time) : StepOk n t σ g l (σ.take p, .inl (.swapList time b w p)) := by
  obtain ⟨i, k, hi, hk, hT⟩ := hB
  obtain ⟨hH, hr, hd, hsome, hbag⟩ := hI.take hi hfree
  obtain ⟨x, hx⟩ := Option.isSome_iff_exists.mp hd
  have hself : (σ.take p).item p = { σ.item p with taken := true } := Function.update_self ..
  have hphase : Local.phase (σ.take p) (.swapList time b w p : Local α T) = .got x := by
    simp [Local.phase, hself, hx]
  refine .go _ hH (.of_eq rfl) (fun u _ => hr u) ⟨trivial, hready, ⟨(hI.bound _ _ _ hi).2, ?_⟩, i, k, hi, hk,
    ?_, fun m q hm hq => ?_⟩ ?_
  · rw [hself]
    exact hd
  · rw [hself]
  · have hqt := hT m q hm hq
    have hqp : q ≠ p := by
      rintro rfl
      rw [hfree] at hqt
      cases hqt
    have hold : (σ.take p).item q = σ.item q := Function.update_of_ne hqp ..
    rw [hold]
    refine ⟨hqt, fun _ => ?_⟩
    show Function.update g.time p g.now q < Function.update g.time p g.now p
    rw [Function.update_self, Function.update_of_ne hqp]
    exact hI.time _ _ _ hq hqt
  · rw [hl, hphase]
    exact .take (hsome.trans hx) hbag

theorem pop_ok (hI : HeapInv n σ g) (ch : Choice T)
    {a : Shared α T × (Local α T ⊕ BagRet α)} (hk : Knows t σ g l) (hl : l.pushes = false)
    (hs : step n addresses t ch σ l = some a) : StepOk n t σ g l a := by
  cases l with
  | readTime reading =>
    simp only [step] at hs
    cases hread : T.readStep ch.time σ.clock reading with
    | inl reading' =>
      rw [hread] at hs
      obtain rfl := Option.some.inj hs
      exact .read hI rfl hk
    | inr time =>
      rw [hread] at hs
      obtain rfl := Option.some.inj hs
      exact .read hI rfl hk
  | loadEntry time =>
    obtain rfl := Option.some.inj hs
    exact loadEntry_ok hI hk.2 rfl time (ch.start % n)
  | skip time count b =>
    obtain rfl := Option.some.inj hs
    obtain ⟨-, hready, hb, hf⟩ := hk
    exact skipTo_ok hI (fun _ _ => .refl ..) rfl (.of_eq rfl) Or.inl hready rfl (hI.next_mem hb) hf time count
  | loadBuffer s =>
    obtain rfl := Option.some.inj hs
    exact loadBuffer_ok hI hk
  | loadTop s again =>
    obtain rfl := Option.some.inj hs
    exact loadTop_ok hI hk
  | loadList s again w =>
    obtain rfl := Option.some.inj hs
    obtain ⟨hshape, hready, hres, hv, k, hk⟩ := hk
    obtain ⟨i, hi, hT⟩ := hI.list _ (List.ne_nil_of_mem (List.mem_of_getElem? hk))
    exact .read hI rfl ⟨hshape, hready, hres, hv, i, k, hi, hk, fun m q hm hq => hT m q hm.1 hq⟩
  | loadTaken s again w p =>
    obtain ⟨hshape, hready, hres, hv, i, k, hi, hk, hT⟩ := hk
    simp only [step] at hs
    split_ifs at hs with htaken
    · obtain rfl := Option.some.inj hs
      exact .read hI rfl ⟨hshape, hready, hres, hv, ⟨i, k, hi, hk, hT⟩, i, hi, htaken⟩
    · obtain rfl := Option.some.inj hs
      obtain ⟨c, rest, hv, -⟩ := hv
      exact .read hI rfl ⟨rfl, hready, fun h => ⟨rfl, (hres h).2⟩,
        ⟨c, rest, hv, fun h => by cases h⟩, i, k, hi, hk, hT⟩
  | loadNext s again w p => exact loadNext_ok hI hk hs
  | unlinkSPBuffer s again w =>
    obtain ⟨hshape, hready, hres, hv, hclear⟩ := hk
    have hno := noItem_ok (l := .unlinkSPBuffer s again w) hI rfl hready hshape hres hv hclear
    simp only [step] at hs
    cases hindex : (σ.buffer s.currentBuffer).index with
    | none =>
      rw [hindex] at hs
      obtain rfl := Option.some.inj hs
      exact hno
    | some i =>
      -- no thread unregisters its buffer
      have hi : σ.spBuffers i ≠ 0 := by
        obtain ⟨c, rest, hv, -⟩ := hv
        have hc := hv.onRing hI.entry
        rcases Nat.eq_zero_or_pos c with rfl | hpos
        · rw [hI.entry, Option.some.injEq] at hc
          rw [← hc, hI.entryIndex] at hindex
          cases hindex
        · obtain ⟨j, -, hj, hj'⟩ := hI.ring_index hc hpos
          obtain rfl := Option.some.inj (hindex.symm.trans hj)
          exact hj'
      simp only [hindex, ne_eq, hi, not_false_eq_true, if_true] at hs
      obtain rfl := Option.some.inj hs
      exact hno
  | loadTimestamp s again w p loading =>
    obtain ⟨he, hready, hres, hv, hB⟩ := hk
    simp only [step] at hs
    cases hload : T.loadStep (σ.item p).timestamp loading with
    | inl loading' =>
      rw [hload] at hs
      obtain rfl := Option.some.inj hs
      exact .read hI rfl ⟨he, hready, hres, hv, hB⟩
    | inr time =>
      simp only [hload] at hs
      split_ifs at hs
      · obtain rfl := Option.some.inj hs
        exact .read hI rfl ⟨he, hready, hres, hv, hB⟩
      · obtain rfl := Option.some.inj hs
        obtain ⟨c, rest, hv, -⟩ := hv
        rw [Scan.compare]
        split_ifs
        · exact loopEnd_ok
            (s := { s with result := p, youngestBuffer := s.currentBuffer, timestamp := time,
                           oldTop := w })
            hI (fun _ _ => .refl ..) rfl hready rfl (fun _ => ⟨he, hB⟩) hv fun h =>
              absurd (he.symm.trans h) (by decide)
        · exact loopEnd_ok hI (fun _ _ => .refl ..) rfl hready rfl hres hv fun h =>
            absurd (he.symm.trans h) (by decide)
  | checkItem s w p =>
    obtain ⟨he, hready, hres, hv, hB⟩ := hk
    simp only [step] at hs
    split_ifs at hs
    · obtain rfl := Option.some.inj hs
      exact .read hI rfl ⟨he, hready, hres, hv, hB⟩
    · obtain rfl := Option.some.inj hs
      obtain ⟨c, rest, hv, -⟩ := hv
      exact .read hI rfl ⟨fun _ => he, hready, hres, c, rest, hv, fun h =>
        absurd (he.symm.trans h) (by decide)⟩
  | takeItem s w p =>
    obtain ⟨he, hready, hres, hv, hB⟩ := hk
    simp only [step] at hs
    split_ifs at hs with hcas
    · obtain rfl := Option.some.inj hs
      exact take_ok hI hready hB hcas.1 rfl s.invocationTime
    · obtain rfl := Option.some.inj hs
      obtain ⟨c, rest, hv, -⟩ := hv
      exact .read hI rfl ⟨fun _ => he, hready, hres, c, rest, hv, fun h =>
        absurd (he.symm.trans h) (by decide)⟩
  | checkResult s =>
    obtain ⟨hne, hready, hres⟩ := hk
    simp only [step] at hs
    split_ifs at hs
    · obtain rfl := Option.some.inj hs
      exact .read hI rfl ⟨hne, hready, hres⟩
    · obtain rfl := Option.some.inj hs
      exact noElement_ok hI (fun _ _ => .refl ..) rfl hready rfl fun h =>
        absurd ((hres hne).1.symm.trans h) (by decide)
  | takeResult s =>
    obtain ⟨hne, hready, hres⟩ := hk
    simp only [step] at hs
    split_ifs at hs with hcas
    · obtain rfl := Option.some.inj hs
      exact take_ok hI hready (hres hne).2 hcas.1 rfl s.invocationTime
    · obtain rfl := Option.some.inj hs
      exact noElement_ok hI (fun _ _ => .refl ..) rfl hready rfl fun h =>
        absurd ((hres hne).1.symm.trans h) (by decide)
  | swapList time b w p =>
    obtain ⟨-, hready, hd, hpend⟩ := hk
    simp only [step] at hs
    split_ifs at hs with hcas
    · obtain rfl := Option.some.inj hs
      have hp : (addNextAba p w 0).pointer = p := rfl
      obtain ⟨hH, hr⟩ := hI.swapList hpend hcas.1 hp
      exact .quiet g hH (.of_eq rfl) (fun u _ => hr u) rfl Or.inl rfl ⟨trivial, hready, hd⟩
    · obtain rfl := Option.some.inj hs
      exact .read hI rfl ⟨trivial, hready, hd⟩
  | loadData time p =>
    obtain ⟨-, hready, -, hd⟩ := hk
    obtain ⟨x, hx⟩ := Option.isSome_iff_exists.mp hd
    simp only [step, hx] at hs
    obtain rfl := Option.some.inj hs
    refine .stop hI (fun _ _ => .refl ..) hready ?_
    rw [Local.phase, hx]
    exact .gotDone rfl
  | unlinking => cases hs
  | _ => cases hl

/-- **Every access** of a call that knows its facts keeps the invariant, and all threads
go on knowing theirs. -/
theorem access_ok (hI : HeapInv n σ g) (htn : t < n) (ch : Choice T)
    {a : Shared α T × (Local α T ⊕ BagRet α)} (hk : Knows t σ g l)
    (hs : step n addresses t ch σ l = some a) : StepOk n t σ g l a := by
  cases hl : l.pushes with
  | true => exact push_ok hI htn ch hk hl hs
  | false => exact pop_ok hI ch hk hl hs

end Access

/-! ### All runs -/

theorem Local.phase_rely {t : ℕ} {σ σ' : Shared α T} {g g' : Ghost} {l : Local α T}
    (hk : Knows t σ g l) (hr : Rely t σ g σ' g') : l.phase σ' = l.phase σ := by
  cases l with
  | swapList time b w p =>
    obtain ⟨-, -, ⟨hlt, -⟩, -⟩ := hk
    rw [Local.phase, Local.phase, hr.data p hlt]
  | loadData time p =>
    obtain ⟨-, -, hlt, -⟩ := hk
    rw [Local.phase, Local.phase, hr.data p hlt]
  | _ => rfl

def bagProof (α : Type) (T : TimeStamp) (n addresses : ℕ) :
    BagProof (machine α T n addresses) always Ghost (ℕ × ℕ) where
  inv := HeapInv n
  knows t σ g l := t < n ∧ Knows t σ g l
  ready := Ready
  rely := Rely
  bag := itemAt
  phase := fun σ l => Local.phase σ l
  saw := Ghost.saw
  start := ⟨Ghost.init, init_inv, fun _ => Or.inl rfl, itemAt_init⟩
  stable h hr := ⟨⟨h.1, h.2.rely hr⟩, Local.phase_rely h.2 hr⟩
  waiting h hr := h.rely hr
  sees hr := hr.saw
  call := by
    intro σ g t h op hI hready htn
    obtain ⟨hH, hr⟩ := hI.setSaw t false
    refine ⟨_, hH, ⟨of_decide_eq_true htn, ?_⟩, ?_, rfl, Function.update_self .., hr⟩
    · cases op with
      | put x => exact ⟨trivial, hready⟩
      | get => exact ⟨trivial, hready⟩
    · cases op with
      | put x => rfl
      | get => rfl
  access := by
    intro σ g t l ch σ' o hI hk _ hs
    obtain ⟨g', hH, hr, hk', hready, heff, -⟩ := access_ok hI hk.1 ch hk.2 hs
    exact ⟨g', hH, hr, fun l' hl' => ⟨hk.1, hk' l' hl'⟩, hready, heff⟩

/-- **TSStack is a linearizable bag.**  Every reachable history has a total order of its
calls, consistent with real time, in which each push adds its element, each successful pop
removes a present copy of the element it returns, and each pop that returns false finds the
bag empty: for any number of threads, registering at any time, with pointer counters of
three bits, and whatever the timestamps are. -/
theorem linearizable_anyRing {numThreads addresses : ℕ}
    {c : Config (machine α T numThreads addresses)}
    (hc : Reach (machine α T numThreads addresses) always c) :
    Linearizable (unboundedBagSpec α) c.events :=
  (bagProof α T numThreads addresses).linearizable hc

/-- No pop gets past the guard of `unlink_SPBuffer`, so no buffer leaves the ring. -/
theorem not_unlinking {numThreads addresses : ℕ}
    {c : Config (machine α T numThreads addresses)}
    (hc : Reach (machine α T numThreads addresses) always c) {t : ℕ}
    {f : Frame (machine α T numThreads addresses)} (hf : c.frames t = some f) :
    f.loc ≠ .unlinking := by
  intro hl
  obtain ⟨g, -, hloc⟩ := (bagProof α T numThreads addresses).outline_sound.reach hc
  have hk := hloc t
  rw [hf] at hk
  obtain ⟨⟨-, hshape, -⟩, -⟩ := hk
  rw [hl] at hshape
  exact hshape

/-- Two threads register, the younger item is taken first, and the last pop needs two scans
to find all buffers empty. -/
def takenThenEmpty : List (Action (machine ℕ atomicCounter 2 10)) :=
  List.flatten [[.call 0 (.put 5)], turns 0 ⟨(), 0, false⟩ 14, [.call 1 (.put 6)],
    turns 1 ⟨(), 0, false⟩ 14, [.call 0 .get], turns 0 ⟨(), 0, false⟩ 22, [.call 0 .get],
    turns 0 ⟨(), 0, false⟩ 25, [.call 0 .get], turns 0 ⟨(), 0, false⟩ 47]

theorem linearizable_anyRing_takenThenEmpty :
    ∃ c : Config (machine ℕ atomicCounter 2 10),
      (c.events.filter fun e => e matches .res _ (.got _)) =
        [.res 0 (.got (some 6)), .res 0 (.got (some 5)), .res 0 (.got none)] ∧
      Linearizable (unboundedBagSpec ℕ) c.events := by
  have h : ∃ c, Reach (machine ℕ atomicCounter 2 10) always c ∧
      decide ((c.events.filter fun e => e matches .res _ (.got _)) =
        [.res 0 (.got (some 6)), .res 0 (.got (some 5)), .res 0 (.got none)]) = true :=
    Reach.exists_of_any always takenThenEmpty _ (by decide +kernel)
  obtain ⟨c, hc, hp⟩ := h
  exact ⟨c, of_decide_eq_true hp, linearizable_anyRing hc⟩

end TSStack

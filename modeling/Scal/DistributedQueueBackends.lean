/-
The Michael–Scott queue and the Treiber stack as backends of the distributed queue.

* The items that a Michael–Scott queue stores are those between head and tail: a put
  takes effect when tail moves over its node, whichever thread moves it, and so the
  word of `*tail_` changes at once.  A get that answers empty has read head's position
  from tail.
* The items that a Treiber stack stores are those reachable from `*top_`.

`linearizable_backends` — the distributed queue over either is a linearizable bag.
-/
import Scal.DistributedQueueBag
import Scal.MSQueueInvariant
import Scal.TreiberStackInvariant

open Interleave Linearizability DistributedQueue

/-! ### The Treiber stack -/

namespace TreiberStack

variable {α : Type}

open Classical in
/-- The nodes reachable from `*top_` are stored. -/
noncomputable def cells (σ : Shared α) (g : Ghost) (n : ℕ) : Cell α :=
  if n ∈ g.stack then .stored (σ.node n).data else .absent

/-- What a thread knows at each point of an operation. -/
def Knows (t : ℕ) (ph : Phase α) (l : Local α) (σ : Shared α) (g : Ghost) : Prop :=
  match l with
  | .pushNew x => ph = .put x
  | .pushTop n | .pushNext n _ => ∃ x, ph = .put x ∧ Own t n x σ g
  | .pushSwing n w => ∃ x, ph = .put x ∧ Own t n x σ g ∧ (σ.node n).next.value = w.value
  | .popTop rs => rs = true ∧ ph = .get
  | .popNext rs w => rs = true ∧ ph = .get ∧ Pushed w.value σ g
  | .popSwing rs w nx =>
    rs = true ∧ ph = .get ∧ Pushed w.value σ g ∧ (σ.node w.value).next.value = nx
  | .popData rs w => rs = true ∧ Pushed w.value σ g ∧
    ph = .done (.got (some (σ.node w.value).data))
  | .readTop => False

section Stable

variable {t n : ℕ} {x : α} {σ σ' : Shared α} {g g' : Ghost}

theorem Knows.rely {ph : Phase α} {l : Local α} (hk : Knows t ph l σ g) (hr : Rely t σ g σ' g') :
    Knows t ph l σ' g' := by
  cases l with
  | pushNew x => exact hk
  | pushTop n => exact hk.imp fun x ⟨hp, ho⟩ => ⟨hp, (ho.rely hr).1⟩
  | pushNext n w => exact hk.imp fun x ⟨hp, ho⟩ => ⟨hp, (ho.rely hr).1⟩
  | pushSwing n w =>
    obtain ⟨x, hp, ho, hn⟩ := hk
    exact ⟨x, hp, (ho.rely hr).1, by rw [(ho.rely hr).2, hn]⟩
  | popTop rs => exact hk
  | popNext rs w => exact ⟨hk.1, hk.2.1, (hk.2.2.rely hr).1⟩
  | popSwing rs w nx =>
    obtain ⟨hrs, hp, hpub, hn⟩ := hk
    exact ⟨hrs, hp, (hpub.rely hr).1, by rw [(hpub.rely hr).2, hn]⟩
  | popData rs w =>
    obtain ⟨hrs, hpub, hp⟩ := hk
    exact ⟨hrs, (hpub.rely hr).1, by rw [(hpub.rely hr).2]; exact hp⟩
  | readTop => exact hk

end Stable

section Changes

variable {t n : ℕ} {x : α} {σ : Shared α} {g : Ghost}

theorem cells_congr {σ' : Shared α} {g' : Ghost} (hs : g'.stack = g.stack)
    (hn : ∀ n ∈ g.stack, (σ'.node n).data = (σ.node n).data) : cells σ' g' = cells σ g := by
  funext n
  by_cases hmem : n ∈ g.stack
  · simp [cells, hs, hmem, hn n hmem]
  · simp [cells, hs, hmem]

theorem cells_push (g' : Ghost) (a : ℕ) (hn : n ∉ g.stack) (hs : g'.stack = n :: g.stack)
    (hx : (σ.node n).data = x) : cells σ g n = .absent ∧
      cells { σ with top := ⟨n, a⟩ } g' = Function.update (cells σ g) n (.stored x) := by
  refine ⟨by simp [cells, hn], ?_⟩
  funext m
  by_cases hm : m = n
  · subst hm
    simp [cells, hs, hx]
  · simp [cells, hs, hm]

theorem cells_pop {g' : Ghost} (w : AtomicPointer) (hn : n ∉ g'.stack)
    (hs : g.stack = n :: g'.stack) :
    cells σ g n = .stored (σ.node n).data ∧
      cells { σ with top := w } g' = Function.update (cells σ g) n .absent := by
  refine ⟨by simp [cells, hs], ?_⟩
  funext m
  by_cases hm : m = n
  · subst hm
    simp [cells, hn]
  · simp [cells, hs, hm]

end Changes

/-- The assertions of the proof. -/
noncomputable def assertions (α : Type) [Inhabited α] : Assertions (backend α) where
  Ghost := Ghost
  Inv := Inv
  cells := cells
  Knows := Knows
  Rely := Rely

section Step

variable [Inhabited α] {t : ℕ} {ph : Phase α} {σ : Shared α} {g : Ghost} {l : Local α}

/-- An access that only reads, after which the operation goes on. -/
theorem ok_read (hI : Inv σ g) (hk : Knows t ph l σ g) (hne : ∀ w, ph ≠ .empty w) :
    (assertions α).Ok t ph σ g (σ, .inl l) :=
  .go hI (fun _ _ => .refl ..) (.same ph rfl) (.refl ..) hk hne

theorem step_ok (hI : Inv σ g) (hk : Knows t ph l σ g) :
    (assertions α).Ok t ph σ g ((backend α).step σ l) := by
  cases l with
  | pushNew x =>
    obtain rfl : ph = .put x := hk
    obtain ⟨hI', hown, hn, hr⟩ := hI.nodeNew t x rfl
    have hc := cells_congr (σ := σ) (g := g) rfl fun n h => by rw [hn n h]
    exact .go hI' (fun u _ => hr u) (.same _ hc) (.of_eq hc)
      ⟨x, rfl, hown⟩ (by simp)
  | pushTop n =>
    obtain ⟨x, rfl, hown⟩ := hk
    exact ok_read hI ⟨x, rfl, hown⟩ (by simp)
  | pushNext n w =>
    obtain ⟨x, rfl, hown⟩ := hk
    obtain ⟨hI', hown', hn, hnode, hr⟩ := hI.setNext hown w.value
    have hc : cells (σ.setNext n w.value) g = cells σ g :=
      cells_congr rfl fun n h => by rw [hnode n h]
    exact .go hI' hr (.same _ hc) (.of_eq hc) ⟨x, rfl, hown', hn⟩ (by simp)
  | pushSwing n w =>
    obtain ⟨x, rfl, hown, hn⟩ := hk
    by_cases hcas : σ.top = w
    · subst hcas
      obtain ⟨hI', hnot, -, hr⟩ := hI.push hown hn rfl (σ.top.aba + 1)
      obtain ⟨ha, hc⟩ := cells_push ⟨n :: g.stack, Function.update g.owner n none⟩ (σ.top.aba + 1) hnot rfl
        hown.2.2.2
      have hstep : (backend α).step σ (.pushSwing n σ.top) =
          ({ σ with top := ⟨n, σ.top.aba + 1⟩ }, .inr (.put true)) := by
        simp [step]
      rw [hstep]
      exact .stop hI' hr (.push ha hc) (.inr (Nat.lt_succ_self _)) rfl (by simp)
    · have hstep : (backend α).step σ (.pushSwing n w) = (σ, .inl (.pushTop n)) := by
        simp [step, hcas]
      rw [hstep]
      exact ok_read hI ⟨x, rfl, hown⟩ (by simp)
  | popTop rs =>
    obtain ⟨rfl, rfl⟩ := hk
    by_cases h0 : σ.top.value = 0
    · have hstep : (backend α).step σ (.popTop true) = (σ, .inr (.empty σ.top)) := by
        simp [step, h0, state]
      rw [hstep]
      refine .stop hI (fun _ _ => .refl ..) (.empty rfl) (.refl ..) rfl ?_
      rintro w hw
      obtain rfl : σ.top = w := by simpa using hw
      have hl := hI.linked
      rw [h0] at hl
      refine .inl ⟨rfl, fun n x => ?_⟩
      show cells σ g n ≠ _
      simp [cells, hl.eq_nil]
    · have hstep : (backend α).step σ (.popTop true) = (σ, .inl (.popNext true σ.top)) := by
        simp [step, h0]
      rw [hstep]
      exact ok_read hI ⟨rfl, rfl, hI.pushed_top h0⟩ (by simp)
  | popNext rs w =>
    obtain ⟨rfl, rfl, hpub⟩ := hk
    exact ok_read hI ⟨rfl, rfl, hpub, rfl⟩ (by simp)
  | popSwing rs w nx =>
    obtain ⟨rfl, rfl, hpub, rfl⟩ := hk
    by_cases hcas : σ.top = w
    · subst hcas
      obtain ⟨hI', hs, -, hr⟩ := hI.pop hpub.1 rfl (σ.top.aba + 1)
      have hnodup := hI.nodup
      rw [hs, List.nodup_cons] at hnodup
      obtain ⟨hst, hc⟩ := cells_pop ⟨(σ.node σ.top.value).next.value, σ.top.aba + 1⟩ hnodup.1 hs
      have hstep : (backend α).step σ (.popSwing true σ.top (σ.node σ.top.value).next.value) =
          ({ σ with top := ⟨(σ.node σ.top.value).next.value, σ.top.aba + 1⟩ },
            .inl (.popData true σ.top)) := by
        simp [step]
      rw [hstep]
      exact .go hI' (fun u _ => hr u) (.take hst hc) (.inr (Nat.lt_succ_self _)) ⟨rfl, hpub, rfl⟩
        (by simp)
    · have hstep : (backend α).step σ (.popSwing true w (σ.node w.value).next.value) =
          (σ, .inl (.popTop true)) := by
        simp [step, hcas]
      rw [hstep]
      exact ok_read hI ⟨rfl, rfl⟩ (by simp)
  | popData rs w =>
    obtain ⟨rfl, hpub, rfl⟩ := hk
    exact .stop hI (fun _ _ => .refl ..) (.same _ rfl) (.refl ..) rfl (by simp)
  | readTop => exact hk.elim

end Step

/-- The Treiber stack is a verified backend. -/
noncomputable def verified (α : Type) [Inhabited α] : Verified (backend α) where
  toAssertions := assertions α
  ghost := (⟨[], fun _ => none⟩ : Ghost)
  refl := Rely.refl
  init := init_inv
  init_cells n := by simp [assertions, cells]
  put _ _ _ _ := rfl
  get _ _ _ := ⟨rfl, rfl⟩
  stable := Knows.rely
  step := step_ok

end TreiberStack

/-! ### The Michael–Scott queue -/

namespace MSQueue.AsBackend

variable {α : Type}

/-- The nodes between head and tail are stored, those beyond tail are linked. -/
def cells (σ : MSQueue.Shared α) (g : MSQueue.Ghost) (n : ℕ) : Cell α :=
  if n ∈ g.chain then
    if σ.tail.aba < g.chain.idxOf n then .linked (g.owner n) (σ.node n).value
    else if σ.head.aba < g.chain.idxOf n then .stored (σ.node n).value
    else .absent
  else .absent

/-- What thread `u` relies on about the steps of other threads. -/
structure Rely (u : ℕ) (σ : MSQueue.Shared α) (g : MSQueue.Ghost) (σ' : MSQueue.Shared α)
    (g' : MSQueue.Ghost) : Prop where
  ext : Ext u σ g σ' g'
  owner : ∀ n < σ.alloc, g'.owner n = g.owner n

/-- `w` was the word of `*head_`, or of `*tail_`. -/
def HeadRead (w : AtomicPointer) (σ : MSQueue.Shared α) (g : MSQueue.Ghost) : Prop :=
  g.chain[w.aba]? = some w.value ∧ w.aba ≤ σ.head.aba

def TailRead (w : AtomicPointer) (σ : MSQueue.Shared α) (g : MSQueue.Ghost) : Prop :=
  g.chain[w.aba]? = some w.value ∧ w.aba ≤ σ.tail.aba

/-- The `next` word of the node at position `i` was `w`. -/
def NextRead (i : ℕ) (w : AtomicPointer) (g : MSQueue.Ghost) : Prop :=
  w = ⟨0, 0⟩ ∨ w.value ≠ 0 ∧ g.chain[i + 1]? = some w.value

/-- Thread `t` allocated node `n`, for the item `x`. -/
def Made (t n : ℕ) (x : α) (σ : MSQueue.Shared α) (g : MSQueue.Ghost) : Prop :=
  n < σ.alloc ∧ g.owner n = t ∧ (σ.node n).value = x

/-- What a thread knows at each point of an operation. -/
def Knows (t : ℕ) (ph : Phase α) (l : MSQueue.Local α) (σ : MSQueue.Shared α)
    (g : MSQueue.Ghost) : Prop :=
  match l with
  | .enqNew x => ph = .put x
  | .enqTail x n => ph = .put x ∧ Own t n x σ g
  | .enqNext x n tl => ph = .put x ∧ Own t n x σ g ∧ TailRead tl σ g
  | .enqCheck x n tl nx => ph = .put x ∧ Own t n x σ g ∧ TailRead tl σ g ∧ NextRead tl.aba nx g
  | .enqLink x n tl nx => ph = .put x ∧ nx = ⟨0, 0⟩ ∧ Own t n x σ g ∧ TailRead tl σ g
  | .enqHelp x n tl nx => ph = .put x ∧ Own t n x σ g ∧ g.chain[tl.aba + 1]? = some nx.value
  | .enqSwing x n tl => ph = .linked x n ∧ Made t n x σ g ∧ TailRead tl σ g ∧
    g.chain[tl.aba + 1]? = some n
  | .deqHead rt => (rt = true ∧ ph = .get)
  | .deqTail rt hd => (rt = true ∧ ph = .get) ∧ HeadRead hd σ g
  | .deqNext rt hd tl =>
    (rt = true ∧ ph = .get) ∧ hd.aba ≤ tl.aba ∧ HeadRead hd σ g ∧ TailRead tl σ g
  | .deqCheck rt hd tl nx => (rt = true ∧ ph = .get) ∧ hd.aba ≤ tl.aba ∧
    (hd.aba < tl.aba → nx.value ≠ 0) ∧ HeadRead hd σ g ∧ TailRead tl σ g ∧ NextRead hd.aba nx g
  | .deqHelp rt tl nx => (rt = true ∧ ph = .get) ∧ g.chain[tl.aba + 1]? = some nx.value
  | .deqItem rt hd tl nx => (rt = true ∧ ph = .get) ∧ hd.aba < tl.aba ∧ TailRead tl σ g ∧
    g.chain[hd.aba + 1]? = some nx.value
  | .deqSwing rt hd tl nx x => (rt = true ∧ ph = .get) ∧ hd.aba < tl.aba ∧ TailRead tl σ g ∧
    g.chain[hd.aba + 1]? = some nx.value ∧ nx.value < σ.alloc ∧ (σ.node nx.value).value = x
  | _ => False

section Stable

variable {t n i : ℕ} {x : α} {w : AtomicPointer} {σ σ' : MSQueue.Shared α} {g g' : MSQueue.Ghost}

theorem Rely.refl (u : ℕ) (σ : MSQueue.Shared α) (g : MSQueue.Ghost) : Rely u σ g σ g :=
  ⟨.refl .., fun _ _ => rfl⟩

theorem HeadRead.rely (h : HeadRead w σ g) (hr : Rely t σ g σ' g') : HeadRead w σ' g' :=
  ⟨Chain.getElem?_mono hr.ext.chain h.1, h.2.trans hr.ext.head⟩

theorem TailRead.rely (h : TailRead w σ g) (hr : Rely t σ g σ' g') : TailRead w σ' g' :=
  ⟨Chain.getElem?_mono hr.ext.chain h.1, h.2.trans hr.ext.tail⟩

theorem NextRead.rely (h : NextRead i w g) (hr : Rely t σ g σ' g') : NextRead i w g' :=
  h.imp_right fun h => ⟨h.1, Chain.getElem?_mono hr.ext.chain h.2⟩

theorem Made.rely (h : Made t n x σ g) (hr : Rely t σ g σ' g') : Made t n x σ' g' :=
  ⟨h.1.trans_le hr.ext.alloc, (hr.owner n h.1).trans h.2.1, (hr.ext.value n h.1).trans h.2.2⟩

theorem own_rely (ho : Own t n x σ g) (hr : Rely t σ g σ' g') : Own t n x σ' g' := by
  obtain ⟨h1, h2, h3⟩ := hr.ext.own n ho.lt ho.owner ho.unlinked
  exact ⟨h1, ho.lt.trans_le hr.ext.alloc, ho.ne, h2, h3.trans ho.node⟩

theorem Knows.rely {ph : Phase α} {l : MSQueue.Local α} (hk : Knows t ph l σ g)
    (hr : Rely t σ g σ' g') : Knows t ph l σ' g' := by
  have hmono : ∀ {q m : ℕ}, g.chain[q]? = some m → g'.chain[q]? = some m :=
    Chain.getElem?_mono hr.ext.chain
  cases l with
  | enqNew x => exact hk
  | enqTail x n => exact ⟨hk.1, own_rely hk.2 hr⟩
  | enqNext x n tl => exact ⟨hk.1, own_rely hk.2.1 hr, hk.2.2.rely hr⟩
  | enqCheck x n tl nx =>
    obtain ⟨hp, ho, htl, hnx⟩ := hk
    exact ⟨hp, own_rely ho hr, htl.rely hr, hnx.rely hr⟩
  | enqLink x n tl nx =>
    obtain ⟨hp, h0, ho, htl⟩ := hk
    exact ⟨hp, h0, own_rely ho hr, htl.rely hr⟩
  | enqHelp x n tl nx => exact ⟨hk.1, own_rely hk.2.1 hr, hmono hk.2.2⟩
  | enqSwing x n tl =>
    obtain ⟨hp, hm, htl, hl⟩ := hk
    exact ⟨hp, hm.rely hr, htl.rely hr, hmono hl⟩
  | deqHead rt => exact hk
  | deqTail rt hd => exact ⟨hk.1, hk.2.rely hr⟩
  | deqNext rt hd tl =>
    obtain ⟨hp, hle, hhd, htl⟩ := hk
    exact ⟨hp, hle, hhd.rely hr, htl.rely hr⟩
  | deqCheck rt hd tl nx =>
    obtain ⟨hp, hle, hne, hhd, htl, hnx⟩ := hk
    exact ⟨hp, hle, hne, hhd.rely hr, htl.rely hr, hnx.rely hr⟩
  | deqHelp rt tl nx => exact ⟨hk.1, hmono hk.2⟩
  | deqItem rt hd tl nx =>
    obtain ⟨hp, hlt, htl, hl⟩ := hk
    exact ⟨hp, hlt, htl.rely hr, hmono hl⟩
  | deqSwing rt hd tl nx x =>
    obtain ⟨hp, hlt, htl, hl, hn, hx⟩ := hk
    exact ⟨hp, hlt, htl.rely hr, hmono hl, hn.trans_le hr.ext.alloc, by rw [hr.ext.value _ hn, hx]⟩
  | _ => exact hk

end Stable

section Changes

variable {t n p : ℕ} {x : α} {σ : MSQueue.Shared α} {g : MSQueue.Ghost}

theorem cells_at (hI : HeapInv σ g) (hp : g.chain[p]? = some n) :
    cells σ g n = if σ.tail.aba < p then .linked (g.owner n) (σ.node n).value
      else if σ.head.aba < p then .stored (σ.node n).value else .absent := by
  obtain ⟨hlt, rfl⟩ := List.getElem?_eq_some_iff.mp hp
  rw [cells, if_pos (List.getElem_mem hlt), hI.chain.nodup.idxOf_getElem p hlt]

theorem cells_of_notMem (hn : n ∉ g.chain) : cells σ g n = .absent := by
  rw [cells, if_neg hn]

/-- Nodes are compared one by one, each at its position in the chain. -/
theorem cells_eq {σ' : MSQueue.Shared α} {g' : MSQueue.Ghost} {c : ℕ → Cell α}
    (hin : ∀ m q : ℕ, g.chain[q]? = some m → cells σ' g' m = c m)
    (hout : ∀ m : ℕ, m ∉ g.chain → cells σ' g' m = c m) : cells σ' g' = c := by
  funext m
  by_cases hm : m ∈ g.chain
  · obtain ⟨q, hq⟩ := List.mem_iff_getElem?.mp hm
    exact hin m q hq
  · exact hout m hm

theorem cells_init [Inhabited α] (n : ℕ) :
    cells (.init : MSQueue.Shared α) ⟨[1], fun _ => 0⟩ n = .absent := by
  rcases eq_or_ne n 1 with rfl | hn
  · rfl
  · exact cells_of_notMem (by simpa using hn)

theorem rely_nodeNew (hI : HeapInv σ g) (t : ℕ) (x : α) (u : ℕ) :
    Rely u σ g (σ.nodeNew x) { g with owner := Function.update g.owner σ.alloc t } :=
  ⟨(hI.nodeNew t x).2.2.2 u, fun _ hn => Function.update_of_ne hn.ne ..⟩

theorem cells_nodeNew (hI : HeapInv σ g) (t : ℕ) (x : α) :
    cells (σ.nodeNew x) { g with owner := Function.update g.owner σ.alloc t } = cells σ g := by
  obtain ⟨hI', -, -, -⟩ := hI.nodeNew t x
  refine cells_eq (g := g) (fun m q hq => ?_) fun m hm => ?_
  · have hne : m ≠ σ.alloc := (hI.chain.lt_alloc hq).ne
    rw [cells_at hI hq, cells_at hI' hq]
    simp [MSQueue.Shared.nodeNew, hne]
  · rw [cells_of_notMem hm]
    exact cells_of_notMem hm

/-- **Linking** makes the node known, and stores it not yet. -/
theorem cells_link (hI : HeapInv σ g) {k : ℕ} (ho : Own t n x σ g)
    (hp : g.chain[k]? = some p) (hw : (σ.node p).next = ⟨0, 0⟩) (hk : k ≤ σ.tail.aba) :
    cells (σ.setNext p ⟨n, 1⟩) { g with chain := g.chain ++ [n] } =
      Function.update (cells σ g) n (.linked t x) := by
  obtain ⟨hI', -, hpos, -⟩ := hI.link ho hp hw rfl hk
  have hval : ∀ m, ((σ.setNext p ⟨n, 1⟩).node m).value = (σ.node m).value := by
    intro m
    by_cases hm : m = p
    · subst hm; simp [MSQueue.Shared.setNext]
    · simp [MSQueue.Shared.setNext, hm]
  refine cells_eq (g := g) (fun m q hq => ?_) fun m hm => ?_
  · have hmn : m ≠ n := fun h => ho.unlinked (h ▸ List.mem_of_getElem? hq)
    rw [Function.update_of_ne hmn, cells_at hI hq,
      cells_at hI' (Chain.getElem?_mono (List.prefix_append ..) hq), hval]
    rfl
  · by_cases hmn : m = n
    · subst hmn
      have hlast := (hI.chain.next_eq_zero hp).mp (by rw [hw])
      have htl := hI.tail_lt
      rw [Function.update_self, cells_at hI' hpos, hval]
      have hlt : (σ.setNext p ⟨m, 1⟩).tail.aba < k + 1 := by
        show σ.tail.aba < k + 1
        omega
      rw [if_pos hlt, ho.node]
      show Cell.linked (g.owner m) x = _
      rw [ho.owner]
    · rw [Function.update_of_ne hmn, cells_of_notMem hm]
      exact cells_of_notMem (by simp [hm, hmn])

theorem stored_of_link (hI : HeapInv σ g) {k m : ℕ} {y : α} (ho : Own t n x σ g)
    (hp : g.chain[k]? = some p) (hw : (σ.node p).next = ⟨0, 0⟩) (hk : k ≤ σ.tail.aba)
    (hy : cells (σ.setNext p ⟨n, 1⟩) { g with chain := g.chain ++ [n] } m = .stored y) :
    cells σ g m = .stored y := by
  rw [cells_link hI ho hp hw hk] at hy
  by_cases hm : m = n
  · subst hm
    rw [Function.update_self] at hy
    cases hy
  · rwa [Function.update_of_ne hm] at hy

/-- **Swinging tail** stores the node it moves to. -/
theorem cells_swingTail (hI : HeapInv σ g) (hn : g.chain[σ.tail.aba + 1]? = some n) :
    cells σ g n = .linked (g.owner n) (σ.node n).value ∧
      cells { σ with tail := ⟨n, σ.tail.aba + 1⟩ } g =
        Function.update (cells σ g) n (.stored (σ.node n).value) := by
  have hI' := (hI.swingTail rfl hn).1
  have hle := hI.head_le
  refine ⟨by rw [cells_at hI hn, if_pos (Nat.lt_succ_self _)],
    cells_eq (g := g) (fun m q hq => ?_) fun m hm => ?_⟩
  · rw [cells_at hI' hq]
    by_cases hmn : m = n
    · subst hmn
      obtain rfl := hI.chain.pos_unique hq hn
      rw [Function.update_self, if_neg (Nat.lt_irrefl _), if_pos (Nat.lt_succ_of_le hle)]
    · have hqt : q ≠ σ.tail.aba + 1 := by
        rintro rfl
        exact hmn (Option.some.inj (hq.symm.trans hn))
      rw [Function.update_of_ne hmn, cells_at hI hq]
      by_cases hlt : σ.tail.aba < q
      · rw [if_pos hlt, if_pos (show σ.tail.aba + 1 < q by omega)]
      · rw [if_neg hlt, if_neg (show ¬ σ.tail.aba + 1 < q by omega)]
  · have hmn : m ≠ n := fun h => hm (h ▸ List.mem_of_getElem? hn)
    rw [Function.update_of_ne hmn, cells_of_notMem hm]
    exact (cells_of_notMem hm).symm

/-- Nothing is stored while head is where tail is. -/
theorem no_stored (h : σ.head.aba = σ.tail.aba) {m : ℕ} {y : α} : cells σ g m ≠ .stored y := by
  rw [cells]
  split_ifs <;> first | omega | simp

theorem stored_of_take {c c' : ℕ → Cell α} (hc : c' = Function.update c n .absent) {m : ℕ} {y : α}
    (hy : c' m = .stored y) : c m = .stored y := by
  rw [hc] at hy
  by_cases hm : m = n
  · subst hm
    rw [Function.update_self] at hy
    cases hy
  · rwa [Function.update_of_ne hm] at hy

/-- **Swinging head** removes the node it moves to. -/
theorem cells_swingHead (hI : HeapInv σ g) (hn : g.chain[σ.head.aba + 1]? = some n)
    (hlt : σ.head.aba < σ.tail.aba) :
    cells σ g n = .stored (σ.node n).value ∧
      cells { σ with head := ⟨n, σ.head.aba + 1⟩ } g =
        Function.update (cells σ g) n .absent := by
  have hI' := (hI.swingHead rfl hn hlt).1
  refine ⟨by rw [cells_at hI hn, if_neg (by omega), if_pos (Nat.lt_succ_self _)],
    cells_eq (g := g) (fun m q hq => ?_) fun m hm => ?_⟩
  · rw [cells_at hI' hq]
    by_cases hmn : m = n
    · subst hmn
      obtain rfl := hI.chain.pos_unique hq hn
      rw [Function.update_self, if_neg (show ¬ σ.tail.aba < σ.head.aba + 1 by omega),
        if_neg (Nat.lt_irrefl _)]
    · have hqh : q ≠ σ.head.aba + 1 := by
        rintro rfl
        exact hmn (Option.some.inj (hq.symm.trans hn))
      rw [Function.update_of_ne hmn, cells_at hI hq]
      by_cases hh : σ.head.aba < q
      · rw [if_pos hh, if_pos (show σ.head.aba + 1 < q by omega)]
      · rw [if_neg hh, if_neg (show ¬ σ.head.aba + 1 < q by omega)]
  · have hmn : m ≠ n := fun h => hm (h ▸ List.mem_of_getElem? hn)
    rw [Function.update_of_ne hmn, cells_of_notMem hm]
    exact (cells_of_notMem hm).symm

end Changes

/-- The assertions of the proof. -/
def assertions (α : Type) [Inhabited α] : Assertions (backend α) where
  Ghost := MSQueue.Ghost
  Inv := HeapInv
  cells := cells
  Knows := Knows
  Rely := Rely

section Step

variable [Inhabited α] {t : ℕ} {ph : Phase α} {σ : MSQueue.Shared α} {g : MSQueue.Ghost}
  {l : MSQueue.Local α}

/-- An access that only reads, after which the operation goes on. -/
theorem ok_read (hI : HeapInv σ g) (hk : Knows t ph l σ g) (hne : ∀ w, ph ≠ .empty w) :
    (assertions α).Ok t ph σ g (σ, .inl l) :=
  .go hI (fun _ _ => .refl ..) (.same ph rfl) (.refl ..) hk hne

/-- A thread that has linked no node swings tail. -/
theorem ok_help (hI : HeapInv σ g) {n : ℕ} (hn : g.chain[σ.tail.aba + 1]? = some n)
    (hk : ∀ σ' : MSQueue.Shared α, Rely t σ g σ' g → Knows t ph l σ' g)
    (hl : ∀ y m, ph ≠ .linked y m) (hne : ∀ w, ph ≠ .empty w) :
    (assertions α).Ok t ph σ g ({ σ with tail := ⟨n, σ.tail.aba + 1⟩ }, .inl l) := by
  obtain ⟨hI', -, hx⟩ := hI.swingTail rfl hn
  obtain ⟨hlinked, hc⟩ := cells_swingTail hI hn
  have hr : ∀ u, Rely u σ g { σ with tail := ⟨n, σ.tail.aba + 1⟩ } g := fun u =>
    ⟨hx u, fun _ _ => rfl⟩
  exact .go hI' (fun u _ => hr u) (.help hl hlinked hc) (.inr (Nat.lt_succ_self _))
    (hk _ (hr t)) hne

omit [Inhabited α] in
theorem next_read (hI : HeapInv σ g) {i n : ℕ} (hi : g.chain[i]? = some n) :
    NextRead i (σ.node n).next g := by
  by_cases h0 : (σ.node n).next.value = 0
  · exact .inl (hI.chain.next_none hi h0)
  · exact .inr ⟨h0, hI.chain.next_some hi h0⟩

omit [Inhabited α] in
/-- The word of `*tail_` has changed if it is not the one that was read. -/
theorem tail_lt_of_ne (hI : HeapInv σ g) {w : AtomicPointer} (hw : TailRead w σ g)
    (hne : σ.tail ≠ w) : w.aba < σ.tail.aba := by
  rcases Nat.lt_or_eq_of_le hw.2 with hlt | heq
  · exact hlt
  · refine absurd ?_ hne
    have hv : some w.value = some σ.tail.value := by
      rw [← hw.1, heq]
      exact hI.tail
    cases htail : σ.tail
    cases w
    simp_all

theorem enqueue_ok (hI : HeapInv σ g) (l : MSQueue.Local α) :
    match l with
    | .enqNew _ | .enqTail _ _ | .enqNext _ _ _ | .enqCheck _ _ _ _ | .enqLink _ _ _ _
    | .enqHelp _ _ _ _ | .enqSwing _ _ _ =>
      Knows t ph l σ g → (assertions α).Ok t ph σ g ((backend α).step σ l)
    | _ => True := by
  cases l with
  | enqNew x =>
    intro hk
    obtain rfl : ph = .put x := hk
    obtain ⟨hI', hown, -, -⟩ := hI.nodeNew t x
    exact .go hI' (fun u _ => rely_nodeNew hI t x u) (.same _ (cells_nodeNew hI t x))
      (.of_eq (cells_nodeNew hI t x)) ⟨rfl, hown⟩ (by simp)
  | enqTail x n =>
    rintro ⟨rfl, hown⟩
    exact ok_read hI ⟨rfl, hown, hI.tail, le_rfl⟩ (by simp)
  | enqNext x n tl =>
    rintro ⟨rfl, hown, htl⟩
    exact ok_read hI ⟨rfl, hown, htl, next_read hI htl.1⟩ (by simp)
  | enqCheck x n tl nx =>
    rintro ⟨rfl, hown, htl, hnx⟩
    by_cases hcas : tl = σ.tail
    · by_cases h0 : nx.value = 0
      · have hstep : (backend α).step σ (.enqCheck x n tl nx) =
            (σ, .inl (.enqLink x n tl nx)) := by simp [step, hcas, h0]
        rw [hstep]
        exact ok_read hI ⟨rfl, hnx.resolve_right fun h => h.1 h0, hown, htl⟩ (by simp)
      · have hstep : (backend α).step σ (.enqCheck x n tl nx) =
            (σ, .inl (.enqHelp x n tl nx)) := by simp [step, hcas, h0]
        rw [hstep]
        refine ok_read hI ⟨rfl, hown, (hnx.resolve_left ?_).2⟩ (by simp)
        rintro rfl
        exact h0 rfl
    · have hstep : (backend α).step σ (.enqCheck x n tl nx) = (σ, .inl (.enqTail x n)) := by
        simp [step, hcas]
      rw [hstep]
      exact ok_read hI ⟨rfl, hown⟩ (by simp)
  | enqLink x n tl nx =>
    rintro ⟨rfl, rfl, hown, htl⟩
    by_cases hcas : (σ.node tl.value).next = ⟨0, 0⟩
    · have hstep : (backend α).step σ (.enqLink x n tl ⟨0, 0⟩) =
          (σ.setNext tl.value ⟨n, 1⟩, .inl (.enqSwing x n tl)) := by simp [step, hcas]
      rw [hstep]
      obtain ⟨hI', -, hpos, hx⟩ := hI.link hown htl.1 hcas rfl htl.2
      have hval : ((σ.setNext tl.value ⟨n, 1⟩).node n).value = x := by
        have hne : n ≠ tl.value := fun h =>
          hown.unlinked (h ▸ List.mem_of_getElem? htl.1)
        simp [MSQueue.Shared.setNext, hne, hown.node]
      exact .go hI' (fun u hu => ⟨hx u hu, fun _ _ => rfl⟩)
        (.link (cells_of_notMem hown.unlinked) (cells_link hI hown htl.1 hcas htl.2))
        (.inl ⟨rfl, fun m y hy => stored_of_link hI hown htl.1 hcas htl.2 hy⟩)
        ⟨rfl, ⟨hown.lt, hown.owner, hval⟩,
          ⟨Chain.getElem?_mono (List.prefix_append ..) htl.1, htl.2⟩, hpos⟩ (by simp)
    · have hstep : (backend α).step σ (.enqLink x n tl ⟨0, 0⟩) = (σ, .inl (.enqTail x n)) := by
        simp [step, hcas]
      rw [hstep]
      exact ok_read hI ⟨rfl, hown⟩ (by simp)
  | enqHelp x n tl nx =>
    rintro ⟨rfl, hown, hl⟩
    by_cases hcas : σ.tail = tl
    · subst hcas
      have hstep : (backend α).step σ (.enqHelp x n σ.tail nx) =
          ({ σ with tail := ⟨nx.value, σ.tail.aba + 1⟩ }, .inl (.enqTail x n)) := by simp [step]
      rw [hstep]
      exact ok_help hI hl (fun σ' hr => ⟨rfl, own_rely hown hr⟩) (by simp) (by simp)
    · have hstep : (backend α).step σ (.enqHelp x n tl nx) = (σ, .inl (.enqTail x n)) := by
        simp [step, hcas]
      rw [hstep]
      exact ok_read hI ⟨rfl, hown⟩ (by simp)
  | enqSwing x n tl =>
    rintro ⟨rfl, ⟨hlt, hown, hx⟩, htl, hpos⟩
    by_cases hcas : σ.tail = tl
    · subst hcas
      have hstep : (backend α).step σ (.enqSwing x n σ.tail) =
          ({ σ with tail := ⟨n, σ.tail.aba + 1⟩ }, .inr (.put true)) := by simp [step]
      rw [hstep]
      obtain ⟨hI', -, hext⟩ := hI.swingTail rfl hpos
      obtain ⟨hlinked, hc⟩ := cells_swingTail hI hpos
      rw [hown, hx] at hlinked
      rw [hx] at hc
      exact .stop hI' (fun u _ => ⟨hext u, fun _ _ => rfl⟩) (.swing hlinked hc)
        (.inr (Nat.lt_succ_self _)) rfl (by simp)
    · have hstep : (backend α).step σ (.enqSwing x n tl) = (σ, .inr (.put true)) := by
        simp [step, hcas]
      rw [hstep]
      -- another thread has moved tail over the node
      have hlt := tail_lt_of_ne hI htl hcas
      refine .stop hI (fun _ _ => .refl ..) (.helped rfl fun y => ?_) (.refl ..) rfl (by simp)
      show cells σ g n ≠ _
      rw [cells_at hI hpos, if_neg (by omega)]
      split_ifs <;> simp
  | _ => trivial

theorem dequeue_ok (hI : HeapInv σ g) (l : MSQueue.Local α) :
    match l with
    | .deqHead _ | .deqTail _ _ | .deqNext _ _ _ | .deqCheck _ _ _ _ | .deqHelp _ _ _
    | .deqItem _ _ _ _ | .deqSwing _ _ _ _ _ =>
      Knows t ph l σ g → (assertions α).Ok t ph σ g ((backend α).step σ l)
    | _ => True := by
  cases l with
  | deqHead rt =>
    rintro ⟨rfl, rfl⟩
    exact ok_read hI ⟨⟨rfl, rfl⟩, hI.head, le_rfl⟩ (by simp)
  | deqTail rt hd =>
    rintro ⟨⟨rfl, rfl⟩, hhd⟩
    exact ok_read hI ⟨⟨rfl, rfl⟩, hhd.2.trans hI.head_le, hhd, hI.tail, le_rfl⟩ (by simp)
  | deqNext rt hd tl =>
    rintro ⟨⟨rfl, rfl⟩, hle, hhd, htl⟩
    refine ok_read hI ⟨⟨rfl, rfl⟩, hle, fun hlt h0 => ?_, hhd, htl, next_read hI hhd.1⟩ (by simp)
    have hend := (hI.chain.next_eq_zero hhd.1).mp h0
    have := Chain.lt_length htl.1
    omega
  | deqCheck rt hd tl nx =>
    rintro ⟨⟨rfl, rfl⟩, hle, hne, hhd, htl, hnx⟩
    by_cases hcas : σ.head = hd
    · by_cases hval : hd.value = tl.value
      · have haba : hd.aba = tl.aba := hI.chain.pos_unique hhd.1 (hval ▸ htl.1)
        by_cases h0 : nx.value = 0
        · have hstep : (backend α).step σ (.deqCheck true hd tl nx) = (σ, .inr (.empty tl)) := by
            simp [step, hcas, hval, h0, tailRaw]
          rw [hstep]
          refine .stop hI (fun _ _ => .refl ..) (.empty rfl) (.refl ..) rfl ?_
          rintro w hw
          obtain rfl : tl = w := by simpa using hw
          -- head is where tail was: unless tail has moved on, no node is between them
          by_cases htail : σ.tail = tl
          · refine .inl ⟨htail, fun m x hx => ?_⟩
            exact no_stored (hcas ▸ htail ▸ haba) hx
          · exact .inr (tail_lt_of_ne hI htl htail)
        · have hstep : (backend α).step σ (.deqCheck true hd tl nx) =
              (σ, .inl (.deqHelp true tl nx)) := by simp [step, hcas, hval, h0]
          rw [hstep]
          have hnext := (hnx.resolve_left fun h => h0 (by rw [h])).2
          exact ok_read hI ⟨⟨rfl, rfl⟩, haba ▸ hnext⟩ (by simp)
      · have hstep : (backend α).step σ (.deqCheck true hd tl nx) =
            (σ, .inl (.deqItem true hd tl nx)) := by simp [step, hcas, hval]
        rw [hstep]
        have hlt : hd.aba < tl.aba := by
          refine lt_of_le_of_ne hle fun haba => hval ?_
          exact Option.some.inj (hhd.1.symm.trans (haba ▸ htl.1))
        have hnext := (hnx.resolve_left fun h => hne hlt (by rw [h])).2
        exact ok_read hI ⟨⟨rfl, rfl⟩, hlt, htl, hnext⟩ (by simp)
    · have hstep : (backend α).step σ (.deqCheck true hd tl nx) = (σ, .inl (.deqHead true)) := by
        simp [step, hcas]
      rw [hstep]
      exact ok_read hI ⟨rfl, rfl⟩ (by simp)
  | deqHelp rt tl nx =>
    rintro ⟨⟨rfl, rfl⟩, hnext⟩
    by_cases hcas : σ.tail = tl
    · subst hcas
      have hstep : (backend α).step σ (.deqHelp true σ.tail nx) =
          ({ σ with tail := ⟨nx.value, σ.tail.aba + 1⟩ }, .inl (.deqHead true)) := by
        simp [step]
      rw [hstep]
      exact ok_help hI hnext (fun _ _ => ⟨rfl, rfl⟩) (by simp) (by simp)
    · have hstep : (backend α).step σ (.deqHelp true tl nx) = (σ, .inl (.deqHead true)) := by
        simp [step, hcas]
      rw [hstep]
      exact ok_read hI ⟨rfl, rfl⟩ (by simp)
  | deqItem rt hd tl nx =>
    rintro ⟨⟨rfl, rfl⟩, hlt, htl, hnext⟩
    exact ok_read hI ⟨⟨rfl, rfl⟩, hlt, htl, hnext, hI.chain.lt_alloc hnext, rfl⟩ (by simp)
  | deqSwing rt hd tl nx x =>
    rintro ⟨⟨rfl, rfl⟩, hlt, htl, hnext, -, hx⟩
    by_cases hcas : σ.head = hd
    · subst hcas
      have hstep : (backend α).step σ (.deqSwing true σ.head tl nx x) =
          ({ σ with head := ⟨nx.value, σ.head.aba + 1⟩ }, .inr (.got x tl)) := by
        simp [step, tailRaw]
      rw [hstep]
      have hlt' : σ.head.aba < σ.tail.aba := hlt.trans_le htl.2
      obtain ⟨hI', -, hext⟩ := hI.swingHead rfl hnext hlt'
      obtain ⟨hst, hc⟩ := cells_swingHead hI hnext hlt'
      rw [hx] at hst
      refine .stop hI' (fun u _ => ⟨hext u, fun _ _ => rfl⟩) (.take hst hc)
        (.inl ⟨rfl, fun m y hy => ?_⟩) rfl (by simp)
      exact stored_of_take hc hy
    · have hstep : (backend α).step σ (.deqSwing true hd tl nx x) = (σ, .inl (.deqHead true)) := by
        simp [step, hcas]
      rw [hstep]
      exact ok_read hI ⟨rfl, rfl⟩ (by simp)
  | _ => trivial

theorem step_ok (hI : HeapInv σ g) (hk : Knows t ph l σ g) :
    (assertions α).Ok t ph σ g ((backend α).step σ l) := by
  have hput := @enqueue_ok α _ t ph σ g hI l
  have hget := @dequeue_ok α _ t ph σ g hI l
  cases l with
  | enqNew | enqTail | enqNext | enqCheck | enqLink | enqHelp | enqSwing => exact hput hk
  | deqHead | deqTail | deqNext | deqCheck | deqHelp | deqItem | deqSwing => exact hget hk
  | _ => exact hk.elim

end Step

/-- The Michael–Scott queue is a verified backend. -/
def verified (α : Type) [Inhabited α] : Verified (backend α) where
  toAssertions := assertions α
  ghost := (⟨[1], fun _ => 0⟩ : MSQueue.Ghost)
  refl := Rely.refl
  init := init_inv
  init_cells n := cells_init n
  put _ _ _ _ := rfl
  get _ _ _ := ⟨rfl, rfl⟩
  stable := Knows.rely
  step := step_ok

end MSQueue.AsBackend

/-! ### The distributed queue -/

namespace DistributedQueue

/-- **The distributed queue** over any number of Michael–Scott queues, or of Treiber
stacks, is a linearizable bag: each item that was put is got at most once, and a get
returns false only if at some moment of the call all backends were empty. -/
theorem linearizable_backends {α : Type} [Inhabited α] {n : ℕ} (hn : 0 < n) :
    (∀ c, Reach (machine (MSQueue.backend α) n) always c →
      Linearizable (unboundedBagSpec α) c.events) ∧
    ∀ c, Reach (machine (TreiberStack.backend α) n) always c →
      Linearizable (unboundedBagSpec α) c.events := by
  constructor
  · intro c hc
    exact (MSQueue.AsBackend.verified α).linearizable hn hc
  · intro c hc
    exact (TreiberStack.verified α).linearizable hn hc

/-- A put of `5` to the second backend goes on while thread 1 looks for an item: its
first pass finds both backends empty, and its second pass sees that one has changed. -/
def putBetweenPasses (B : Backend ℕ) (first put rest : ℕ) : List (Action (machine B 2)) :=
  List.flatten [[.call 1 .get], turns 1 0 first, [.call 0 (.put 5)], turns 0 1 put,
    turns 1 0 rest]

theorem linearizable_putBetweenPasses :
    (∃ c : Config (machine (MSQueue.backend ℕ) 2), (.res 1 (.got (some 5))) ∈ c.events ∧
      Linearizable (unboundedBagSpec ℕ) c.events) ∧
    ∃ c : Config (machine (TreiberStack.backend ℕ) 2), (.res 1 (.got (some 5))) ∈ c.events ∧
      Linearizable (unboundedBagSpec ℕ) c.events := by
  constructor
  · obtain ⟨c, hc, hp⟩ := Reach.exists_of_any always (putBetweenPasses (MSQueue.backend ℕ) 9 7 8)
      (fun c => decide ((.res 1 (.got (some 5))) ∈ c.events)) (by decide +kernel)
    exact ⟨c, of_decide_eq_true hp, (linearizable_backends (by decide)).1 c hc⟩
  · obtain ⟨c, hc, hp⟩ := Reach.exists_of_any always (putBetweenPasses (TreiberStack.backend ℕ) 3 5 6)
      (fun c => decide ((.res 1 (.got (some 5))) ∈ c.events)) (by decide +kernel)
    exact ⟨c, of_decide_eq_true hp, (linearizable_backends (by decide)).2 c hc⟩

end DistributedQueue


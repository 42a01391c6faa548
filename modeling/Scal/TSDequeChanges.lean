/-
What an access to the timestamped deque does to the buffers, one kind of change at a time.

* `Same` — a change that leaves a buffer as it is, but for items that are taken;
* `Change` — an access that keeps the invariant, and what the other threads rely on;
* `Change.same`, `Change.own`, `BufferInv.move` — the changes that touch no buffer, only the
  thread's own one, or only the pointers of one.
-/
import Scal.TSDequeInvariant

open Interleave Linearizability

namespace TSDeque

variable {α : Type} {T : TimeStamp} {n : ℕ}

/-! ### Buffers that are left as they are -/

structure Same (σ : Shared α T) (g : Ghost) (σ' : Shared α T) (g' : Ghost) (b : ℕ) : Prop where
  pointer : ∀ s, σ'.pointer s b = σ.pointer s b
  check : ∀ s t, σ'.emptinessCheck s t b = σ.emptinessCheck s t b
  nextIndex : σ.nextIndex b ≤ σ'.nextIndex b
  path : g'.path b = g.path b
  stage : g'.stage b = g.stage b
  memo : ∀ t, g'.memo t b = g.memo t b
  index : ∀ p, g.Linked b p → (σ'.item p).index = (σ.item p).index
  link : ∀ p, g.Linked b p → (σ'.item p).link = (σ.item p).link
  home : ∀ {p}, g.home p = some b → g'.home p = some b
  linked : ∀ {p}, g'.Linked b p ↔ g.Linked b p
  live : ∀ {q}, Live σ' g' b q → Live σ g b q
  fresh : ∀ {p}, g'.fresh b = some p →
    g.fresh b = some p ∧ g'.home p = none ∧ (σ'.item p).taken = false

section Same

variable {σ σ' : Shared α T} {g g' : Ghost} {b : ℕ} {s : Side} {p q : ℕ}

theorem Same.further (h : Same σ g σ' g' b) (hp : g.Linked b p) (hq : g.Linked b q) :
    σ'.Further s p q ↔ σ.Further s p q := by
  rw [Shared.Further, Shared.Further, h.index p hp, h.index q hq]

theorem Same.inward (h : Same σ g σ' g' b) (hp : g.Linked b p) : σ'.inward s p = σ.inward s p := by
  rw [Shared.inward, Shared.inward, h.link p hp]

theorem Same.clear (h : Same σ g σ' g' b) (hp : g.Linked b p) (hc : Clear σ g s b p) :
    Clear σ' g' s b p := by
  intro q hq
  rw [h.further (.inl (h.live hq).1) hp]
  exact hc q (h.live hq)

theorem Same.joined (h : Same σ g σ' g' b) : g'.Joined b ↔ g.Joined b := by
  rw [Ghost.Joined, Ghost.Joined, h.path]

/-- The fresh item is the one that the owner has linked. -/
theorem BufferInv.fresh_eq (hB : BufferInv σ g b) {new : ℕ} (hst : g.stage b = .linked s p new)
    (hq : g.fresh b = some q) : q = new := by
  obtain ⟨-, -, s', p', hst'⟩ := hB.fresh hq
  have := hst.symm.trans hst'
  cases this
  rfl

theorem Same.stageOk (h : Same σ g σ' g' b) (hB : BufferInv σ g b) :
    StageOk σ' g' b (g'.stage b) := by
  have hst := hB.stage
  rw [h.stage]
  cases hg : g.stage b with
  | steady =>
    rw [hg] at hst
    exact h.joined.mpr hst
  | settled s p =>
    rw [hg] at hst
    obtain ⟨hj, hm, hc, hf⟩ := hst
    have hp := hB.member hm
    refine ⟨h.joined.mpr hj, by rw [h.path]; exact hm, h.clear hp hc, ?_⟩
    rw [h.pointer, h.further (.inl (hB.home _)) hp]
    exact hf
  | linked s p new =>
    rw [hg] at hst
    obtain ⟨hp, hl, hn, hi, hf⟩ := hst
    refine ⟨by rw [h.path]; exact hp, h.linked.mpr hl, by rw [h.inward hl]; exact hn,
      by rw [h.index new hl]; exact hi, fun q hq => ?_⟩
    rcases h.linked.mp (.inl hq) with hq | hq
    · rw [h.further hl (.inl hq)]
      exact hf q hq
    · exact .inl (hB.fresh_eq hg hq)

theorem Same.memoOk (h : Same σ g σ' g' b) (hB : BufferInv σ g b) (t : ℕ) :
    MemoOk σ' g' t b (g'.memo t b) := by
  have hm := hB.memo t
  rw [h.memo]
  cases hg : g.memo t b with
  | nothing => exact trivial
  | empty =>
    rw [hg] at hm
    exact fun q hq => hm q (h.live hq)
  | passed s =>
    rw [hg] at hm
    obtain ⟨hlt, hl, hlast⟩ := hm
    rw [MemoOk, h.check, h.pointer, h.path]
    exact ⟨hlt, fun q hq => hl q (h.live hq), hlast⟩

theorem BufferInv.same (hB : BufferInv σ g b) (h : Same σ g σ' g' b) : BufferInv σ' g' b where
  path s := by
    rw [h.path]
    exact (hB.path s).congr fun p hp => h.inward (hB.member hp)
  sorted s := by
    rw [h.path]
    exact (hB.sorted s).imp_of_mem fun hp hq hf =>
      (h.further (hB.member hp) (hB.member hq)).mpr hf
  member hp := by
    rw [h.path] at hp
    exact h.linked.mpr (hB.member hp)
  live hq := by
    rw [h.path]
    exact hB.live (h.live hq)
  home s := by
    rw [h.pointer]
    exact h.home (hB.home s)
  pointer s := by
    rw [h.pointer, h.path]
    exact hB.pointer s
  clear s := by
    rw [h.pointer]
    exact h.clear (.inl (hB.home s)) (hB.clear s)
  stage := h.stageOk hB
  next {s p} hp hne := by
    have hp := h.linked.mp hp
    rw [h.inward hp] at hne ⊢
    obtain ⟨hl, hf, hq⟩ := hB.next hp hne
    refine ⟨h.linked.mpr hl, (h.further hp hl).mpr hf, fun q hlive hpq => ?_⟩
    have hlive := h.live hlive
    rw [h.further (.inl hlive.1) hl]
    exact hq q hlive ((h.further hp (.inl hlive.1)).mp hpq)
  last {s p} hp he := by
    have hp := h.linked.mp hp
    rw [h.inward hp] at he
    rw [h.index p hp]
    exact hB.last hp he
  index {p} hp := by
    have hp := h.linked.mp hp
    have := hB.index hp
    have := h.nextIndex
    rw [h.index p hp]
    omega
  unique {p q} hp hq he := by
    have hp := h.linked.mp hp
    have hq := h.linked.mp hq
    rw [h.index p hp, h.index q hq] at he
    exact hB.unique hp hq he
  age {s p q} hp hq hi hf := by
    have hp := h.linked.mp hp
    have hq := h.linked.mp hq
    rw [h.index q hq] at hi
    exact hB.age hp hq hi ((h.further hp hq).mp hf)
  sign {q} hq := by
    have hq := h.live hq
    rw [h.index q (.inl hq.1)]
    exact hB.sign hq
  fresh {p} hp := by
    obtain ⟨hp, hh, ht⟩ := h.fresh hp
    rw [h.stage]
    exact ⟨hh, ht, (hB.fresh hp).2.2⟩
  check s t := by
    rw [h.check]
    exact (hB.check s t).imp_right h.home
  memo := h.memoOk hB

/-- A thread sees nothing of it. -/
theorem Same.evolves {u : ℕ} {σ σ' : (machine α T n).logged.Shared} (h : Same σ.1 g σ'.1 g' b) :
    BufferEvolves u σ g σ' g' b where
  home := h.home
  linked hp := h.linked.mpr hp
  appears hq hh := absurd (h.live hq).1 hh
  path _ r hr _ := by
    rw [h.path]
    exact hr
  settled _ hv := by
    rw [h.stage] at hv
    exact .inl hv
  passed {s t} _ ht := by
    rw [h.memo] at ht
    exact .inl ⟨ht, h.check s t⟩

end Same

/-! ### Changes that leave all buffers as they are -/

/-- What holds of every access `a` and its change of the memory. -/
structure Grows (σ : (machine α T n).logged.Shared) (g : Ghost)
    (σ' : (machine α T n).logged.Shared) (g' : Ghost) (a : Access (machine α T n)) : Prop where
  log : σ'.2 = a :: σ.2
  alloc : σ.1.alloc ≤ σ'.1.alloc
  data : ∀ p < σ.1.alloc, (σ'.1.item p).data = (σ.1.item p).data
  index : ∀ p < σ.1.alloc, (σ'.1.item p).index = (σ.1.item p).index
  taken : ∀ p < σ.1.alloc, (σ.1.item p).taken = true → (σ'.1.item p).taken = true
  owner : ∀ {b p}, g'.fresh b = some p → g'.owner p = b

section Grows

variable {u t b p : ℕ} {σ σ' : (machine α T n).logged.Shared} {g g' : Ghost}
  {a : Access (machine α T n)}

theorem Grows.storedSince {s : Side} (h : Grows σ g σ' g' a) (hu : reads u s b a = false) :
    storedSince σ'.2 u s b = (stores s b a || storedSince σ.2 u s b) := by
  rw [h.log]
  exact storedSince_cons hu

theorem Grows.evolves (h : Grows σ g σ' g' a) (hu : ∀ s b, reads u s b a = false)
    (hb : ∀ b, BufferEvolves u σ g σ' g' b) : Evolves u σ g σ' g' where
  alloc := h.alloc
  data := h.data
  index := h.index
  taken := h.taken
  stored {s b} hs := by
    rw [h.storedSince (hu s b), hs, Bool.or_true]
  buffer := hb

theorem Remembered.cons (hc : Remembered n σ g t b) (hlog : σ'.2 = a :: σ.2)
    (ha : checks t b a = false)
    (hcheck : ∀ s, σ'.1.emptinessCheck s t b = σ.1.emptinessCheck s t b)
    (hmemo : g.memo t b ≠ .nothing → g'.memo t b ≠ .nothing) : Remembered n σ' g' t b := by
  rcases hc with h0 | ⟨c, hc, hm⟩
  · refine .inl fun s => ?_
    rw [hcheck]
    exact h0 s
  · refine .inr ⟨c, ?_, fun h => hmemo (hm h)⟩
    rw [hlog, lastCheck_cons ha]
    exact hc

/-- A change of buffer `b` only. -/
theorem HeapInv.change (hI : HeapInv n σ g) (h : Grows σ g σ' g' a)
    (hlinked : ∀ {c p}, g'.Linked c p → c < n ∧ p ≠ 0 ∧ p < σ'.1.alloc ∧
      ((σ'.1.item p).taken = false → (σ'.1.item p).data.isSome = true))
    (hsame : ∀ c ≠ b, Same σ.1 g σ'.1 g' c) (hB : b < n → BufferInv σ'.1 g' b)
    (hchecked : ∀ t, ∀ c < n, Remembered n σ' g' t c) : HeapInv n σ' g' where
  alloc := hI.alloc.trans_le h.alloc
  linked := hlinked
  owner := h.owner
  buffer c hc := by
    by_cases hcb : c = b
    · subst hcb
      exact hB hc
    · exact (hI.buffer c hc).same (hsame c hcb)
  checked := hchecked

/-- An item of a buffer stays in it. -/
theorem HeapInv.linked_grows (hI : HeapInv n σ g) (h : Grows σ g σ' g' a) (hp : g.Linked b p) :
    b < n ∧ p ≠ 0 ∧ p < σ'.1.alloc ∧
      ((σ'.1.item p).taken = false → (σ'.1.item p).data.isSome = true) := by
  obtain ⟨hb, h0, hlt, hd⟩ := hI.linked hp
  refine ⟨hb, h0, hlt.trans_le h.alloc, fun ht => ?_⟩
  rw [h.data p hlt]
  refine hd (Bool.eq_false_iff.mpr fun ht' => ?_)
  rw [h.taken p hlt ht'] at ht
  cases ht

theorem HeapInv.same (hI : HeapInv n σ g) (h : Grows σ g σ' g' a)
    (hsame : ∀ b, Same σ.1 g σ'.1 g' b) (ha : ∀ t b, checks t b a = false) : HeapInv n σ' g' :=
  hI.change (b := 0) h (fun hp => hI.linked_grows h ((hsame _).linked.mp hp)) (fun c _ => hsame c)
    (fun hb => (hI.buffer 0 hb).same (hsame 0)) fun t c hc =>
      (hI.checked t c hc).cons h.log (ha t c) (fun s => (hsame c).check s t) fun hm => by
        rw [(hsame c).memo]
        exact hm

/-- What thread `u` keeps in a step of another one that leaves the buffer of `u` as it is. -/
theorem Keeps.of_same (hsame : Same σ.1 g σ'.1 g' u)
    (hown : ∀ p < σ.1.alloc, g.owner p = u → g'.owner p = u ∧
      ((∀ b, ¬g.Linked b p) → (∀ b, ¬g'.Linked b p) ∧ σ'.1.item p = σ.1.item p))
    (hnext : σ'.1.nextIndex u = σ.1.nextIndex u)
    (hcheck : ∀ s b, σ'.1.emptinessCheck s u b = σ.1.emptinessCheck s u b)
    (hmemo : ∀ b, g'.memo u b = g.memo u b ∨ g.memo u b = .empty ∧ ∃ s, g'.memo u b = .passed s)
    (hsaw : g'.saw u = g.saw u) : Keeps u σ g σ' g' where
  own := hown
  path := hsame.path
  stage := hsame.stage
  nextIndex := hnext
  link := hsame.link
  linked hp := hsame.linked.mp hp
  live := hsame.live
  check := hcheck
  memo := hmemo
  saw := hsaw

/-- What thread `u` keeps when no item changes. -/
theorem Keeps.of_eq (hitem : σ'.1.item = σ.1.item) (hnext : σ'.1.nextIndex = σ.1.nextIndex)
    (hhome : g'.home = g.home) (hfresh : g'.fresh = g.fresh) (hpath : g'.path = g.path)
    (hstage : g'.stage = g.stage) (howner : g'.owner = g.owner) (hsaw : g'.saw = g.saw)
    (hcheck : ∀ s b, σ'.1.emptinessCheck s u b = σ.1.emptinessCheck s u b)
    (hmemo : g'.memo u = g.memo u) : Keeps u σ g σ' g' := by
  have hlinked : ∀ b p, g'.Linked b p ↔ g.Linked b p := fun b p => by
    rw [Ghost.Linked, Ghost.Linked, hhome, hfresh]
  constructor
  · intro p _ ho
    rw [howner, hitem]
    exact ⟨ho, fun hu => ⟨fun b hb => hu b ((hlinked b p).mp hb), rfl⟩⟩
  · rw [hpath]
  · rw [hstage]
  · rw [hnext]
  · exact fun p _ => by rw [hitem]
  · exact fun hp => (hlinked _ _).mp hp
  · intro q hq
    rw [Live, hhome, hitem] at hq
    exact hq
  · exact hcheck
  · exact fun b => .inl (by rw [hmemo])
  · rw [hsaw]

/-- The access `a`, with what the other threads rely on. -/
structure Change (n : ℕ) (σ : (machine α T n).logged.Shared) (g : Ghost)
    (σ' : (machine α T n).logged.Shared) (g' : Ghost) (a : Access (machine α T n)) : Prop where
  heap : HeapInv n σ' g'
  evolves : ∀ u, (∀ s b, reads u s b a = false) → Evolves u σ g σ' g'
  keeps : ∀ u, u ≠ a.thread → Keeps u σ g σ' g'

theorem Change.rely (h : Change n σ g σ' g' a) (hu : u ≠ a.thread) : Rely u σ g σ' g' :=
  ⟨h.evolves u fun _ _ => reads_other hu, h.keeps u hu⟩

/-- An access that leaves all buffers as they are. -/
theorem Change.same (hI : HeapInv n σ g) (h : Grows σ g σ' g' a)
    (hsame : ∀ b, Same σ.1 g σ'.1 g' b) (ha : ∀ t b, checks t b a = false)
    (howner : ∀ p < σ.1.alloc, g'.owner p = g.owner p)
    (hitem : ∀ p < σ.1.alloc, g.owner p ≠ a.thread → (∀ b, ¬g.Linked b p) →
      σ'.1.item p = σ.1.item p)
    (hnext : ∀ u, u ≠ a.thread → σ'.1.nextIndex u = σ.1.nextIndex u)
    (hsaw : ∀ u, u ≠ a.thread → g'.saw u = g.saw u) : Change n σ g σ' g' a where
  heap := hI.same h hsame ha
  evolves u hu := h.evolves hu fun b => (hsame b).evolves
  keeps u hu := by
    refine .of_same (hsame u) (fun p hp ho => ?_) (hnext u hu) (fun s b => (hsame b).check s u)
      (fun b => .inl ((hsame b).memo u)) (hsaw u hu)
    refine ⟨(howner p hp).trans ho, fun hl => ⟨fun b hb => hl b ((hsame b).linked.mp hb), ?_⟩⟩
    exact hitem p hp (fun he => hu (ho.symm.trans he)) hl

/-- An access of the owner to its own buffer. -/
theorem Change.own (hI : HeapInv n σ g) (h : Grows σ g σ' g' a) (ha : ∀ t b, checks t b a = false)
    (hlinked : ∀ {c p}, g'.Linked c p → c < n ∧ p ≠ 0 ∧ p < σ'.1.alloc ∧
      ((σ'.1.item p).taken = false → (σ'.1.item p).data.isSome = true))
    (hsame : ∀ c, c ≠ a.thread → Same σ.1 g σ'.1 g' c) (hB : BufferInv σ'.1 g' a.thread)
    (hE : ∀ u, (∀ s b, reads u s b a = false) → BufferEvolves u σ g σ' g' a.thread)
    (hcheck : σ'.1.emptinessCheck = σ.1.emptinessCheck)
    (hmemo : ∀ u b, g'.memo u b = g.memo u b ∨
      g.memo u b = .empty ∧ ∃ s, g'.memo u b = .passed s)
    (howner : g'.owner = g.owner) (hsaw : g'.saw = g.saw)
    (hnext : ∀ u, u ≠ a.thread → σ'.1.nextIndex u = σ.1.nextIndex u)
    (hunlinked : ∀ p, g.owner p ≠ a.thread → (∀ b, ¬g.Linked b p) →
      ¬g'.Linked a.thread p ∧ σ'.1.item p = σ.1.item p) : Change n σ g σ' g' a where
  heap := by
    refine hI.change (b := a.thread) h hlinked hsame (fun _ => hB) fun t c hc =>
      (hI.checked t c hc).cons h.log (ha t c) (fun s => by rw [hcheck]) fun hm => ?_
    rcases hmemo t c with he | ⟨-, s, he⟩
    · rw [he]
      exact hm
    · rw [he]
      exact Memo.noConfusion
  evolves u hu := h.evolves hu fun b => by
    by_cases hb : b = a.thread
    · subst hb
      exact hE u hu
    · exact (hsame b hb).evolves
  keeps u hu := by
    refine .of_same (hsame u hu) (fun p _ ho => ?_) (hnext u hu) (fun s b => by rw [hcheck])
      (hmemo u) (by rw [hsaw])
    refine ⟨by rw [howner]; exact ho, fun hl => ?_⟩
    obtain ⟨hn, he⟩ := hunlinked p (fun he => hu (ho.symm.trans he)) hl
    refine ⟨fun b hb => ?_, he⟩
    by_cases hbt : b = a.thread
    · exact hn (hbt ▸ hb)
    · exact hl b ((hsame b hbt).linked.mp hb)

end Grows

/-! ### Buffers and items -/

section Buffers

variable {t b p new : ℕ} {σ : (machine α T n).logged.Shared} {g : Ghost} {s : Side}

/-- An item is linked in one buffer only. -/
theorem HeapInv.linked_unique (hI : HeapInv n σ g) {c : ℕ} (hb : g.Linked b p)
    (hc : g.Linked c p) : b = c := by
  rcases hb with hb | hb
  · rcases hc with hc | hc
    · exact Option.some.inj (hb.symm.trans hc)
    · have := ((hI.buffer c (hI.linked (.inr hc)).1).fresh hc).1
      rw [hb] at this
      cases this
  · rcases hc with hc | hc
    · have := ((hI.buffer b (hI.linked (.inr hb)).1).fresh hb).1
      rw [hc] at this
      cases this
    · exact (hI.owner hb).symm.trans (hI.owner hc)

theorem BufferInv.nextIndex_pos {σ : Shared α T} (hB : BufferInv σ g b) : 0 < σ.nextIndex b := by
  have := hB.index (.inl (hB.home .left))
  omega

/-- As long as no insert is under way no item is fresh. -/
theorem BufferInv.home_of_linked {σ : Shared α T} (hB : BufferInv σ g b)
    (hst : ∀ s q new, g.stage b ≠ .linked s q new) (hp : g.Linked b p) : g.home p = some b := by
  refine hp.resolve_right fun h => ?_
  obtain ⟨-, -, s, q, he⟩ := hB.fresh h
  exact hst s q p he

/-- A buffer of whose memory and ghost state nothing changed. -/
theorem Same.of_eq {σ σ' : Shared α T} {g' : Ghost} (hI : ∀ {p}, g.fresh b = some p →
      g.home p = none ∧ (σ.item p).taken = false)
    (hpointer : ∀ s, σ'.pointer s b = σ.pointer s b)
    (hcheck : ∀ s t, σ'.emptinessCheck s t b = σ.emptinessCheck s t b)
    (hitem : σ'.item = σ.item) (hnext : σ'.nextIndex = σ.nextIndex) (hpath : g'.path b = g.path b)
    (hstage : g'.stage b = g.stage b) (hmemo : ∀ t, g'.memo t b = g.memo t b)
    (hhome : g'.home = g.home) (hfresh : g'.fresh = g.fresh) : Same σ g σ' g' b where
  pointer := hpointer
  check := hcheck
  nextIndex := by rw [hnext]
  path := hpath
  stage := hstage
  memo := hmemo
  index p _ := by rw [hitem]
  link p _ := by rw [hitem]
  home hp := by
    rw [hhome]
    exact hp
  linked {p} := by
    rw [show g'.Linked b p ↔ g'.home p = some b ∨ g'.fresh b = some p from Iff.rfl, hhome, hfresh]
    exact Iff.rfl
  live hq := by
    rw [Live, hhome, hitem] at hq
    exact hq
  fresh hp := by
    rw [hfresh] at hp
    rw [hhome, hitem]
    exact ⟨hp, hI hp⟩

theorem HeapInv.fresh_untaken (hI : HeapInv n σ g) (hp : g.fresh b = some p) :
    g.home p = none ∧ (σ.1.item p).taken = false := by
  have hf := (hI.buffer b (hI.linked (.inr hp)).1).fresh hp
  exact ⟨hf.1, hf.2.1⟩

/-- Nothing changes, but for the log and what a thread saw. -/
theorem Change.read (hI : HeapInv n σ g) (l : Local α T)
    (hl : ∀ u c, checks u c (⟨t, σ.1, l⟩ : Access (machine α T n)) = false)
    (saw : Bool) : Change n σ g (σ.1, ⟨t, σ.1, l⟩ :: σ.2)
      { g with saw := Function.update g.saw t saw } ⟨t, σ.1, l⟩ := by
  exact .same hI ⟨rfl, le_rfl, fun _ _ => rfl, fun _ _ => rfl, fun _ _ h => h, hI.owner⟩
    (fun b => .of_eq hI.fresh_untaken (fun _ => rfl) (fun _ _ => rfl) rfl rfl rfl rfl (fun _ => rfl)
      rfl rfl)
    hl (fun _ _ => rfl) (fun _ _ _ _ => rfl) (fun _ _ => rfl) fun u hu => Function.update_of_ne hu ..

/-- A buffer whose pointers, stage and emptiness check pointers change. -/
theorem BufferInv.move {σ σ' : Shared α T} {g' : Ghost} (hB : BufferInv σ g b)
    (hitem : σ'.item = σ.item) (hnext : σ'.nextIndex = σ.nextIndex) (hpath : g'.path = g.path)
    (hhome : g'.home = g.home) (hfresh : g'.fresh = g.fresh)
    (home : ∀ s, g.home (σ'.pointer s b).pointer = some b)
    (pointer : ∀ s, (σ'.pointer s b).pointer ∈ g.path b s)
    (clear : ∀ s, Clear σ g s b (σ'.pointer s b).pointer) (stage : StageOk σ' g' b (g'.stage b))
    (fresh : ∀ {p}, g.fresh b = some p → ∃ s q, g'.stage b = .linked s q p)
    (check : ∀ s t, (σ'.emptinessCheck s t b).pointer = 0 ∨
      g.home (σ'.emptinessCheck s t b).pointer = some b)
    (memo : ∀ t, MemoOk σ' g' t b (g'.memo t b)) : BufferInv σ' g' b := by
  obtain ⟨item, alloc, pointer₀, nextIndex, check₀, clock⟩ := σ
  obtain ⟨item', alloc', pointer', nextIndex', check', clock'⟩ := σ'
  obtain ⟨path, home₀, fresh₀, stage₀, memo₀, owner, saw⟩ := g
  obtain ⟨path', home', fresh', stage', memo', owner', saw'⟩ := g'
  obtain rfl : item' = item := hitem
  obtain rfl : nextIndex' = nextIndex := hnext
  obtain rfl : path' = path := hpath
  obtain rfl : home' = home₀ := hhome
  obtain rfl : fresh' = fresh₀ := hfresh
  exact ⟨hB.path, hB.sorted, hB.member, hB.live, home, pointer, clear, stage, hB.next, hB.last,
    hB.index, hB.unique, hB.age, hB.sign,
    fun hp => ⟨(hB.fresh hp).1, (hB.fresh hp).2.1, fresh hp⟩, check, memo⟩

theorem Clear.of_eq {σ σ' : Shared α T} {g' : Ghost} (hc : Clear σ g s b p)
    (hitem : σ'.item = σ.item) (hhome : g'.home = g.home) : Clear σ' g' s b p := by
  intro q hq
  rw [Live, hhome, hitem] at hq
  rw [Shared.Further, hitem]
  exact hc q hq

end Buffers

end TSDeque

/-
The steps of a remove from the timestamped deque, and what they do to the buffers.

* `HeapInv.take` — an item is taken, perhaps before its owner stored a pointer to it;
* `HeapInv.swap` — an end pointer is moved to it;
* `HeapInv.remember` — the emptiness check pointers are stored: `HeapInv.memo_remember` says
  what they tell.
-/
import Scal.TSDequeChanges

open Interleave Linearizability

namespace TSDeque

variable {α : Type} {T : TimeStamp} {n : ℕ}

/-- The ghost state after the linked item `r` of buffer `b` was taken, perhaps before its owner
stored a pointer to it. -/
def Ghost.take (g : Ghost) (b r : ℕ) : Ghost :=
  { g with
    home := Function.update g.home r (some b)
    fresh := Function.update g.fresh b (if g.fresh b = some r then none else g.fresh b) }

section Remove

variable {t b c p r : ℕ} {σ : (machine α T n).logged.Shared} {g : Ghost} {s : Side}
  {tmp tmpOther : TaggedPointer}

theorem Ghost.take_fresh (h : (g.take b r).fresh c = some p) :
    g.fresh c = some p ∧ (c = b → p ≠ r) := by
  have h : Function.update g.fresh b (if g.fresh b = some r then none else g.fresh b) c = some p := h
  by_cases hc : c = b
  · subst hc
    rw [Function.update_self] at h
    split_ifs at h with hr
    exact ⟨h, fun _ he => hr (he ▸ h)⟩
  · rw [Function.update_of_ne hc] at h
    exact ⟨h, fun h => absurd h hc⟩

theorem Ghost.fresh_take (h : g.fresh c = some p) (hp : p ≠ r) :
    (g.take b r).fresh c = some p := by
  show Function.update g.fresh b (if g.fresh b = some r then none else g.fresh b) c = some p
  by_cases hc : c = b
  · subst hc
    rw [Function.update_self, if_neg]
    · exact h
    · rw [h]
      exact fun he => hp (Option.some.inj he)
  · rw [Function.update_of_ne hc]
    exact h

theorem HeapInv.take_home (hI : HeapInv n σ g) (hr : g.Linked b r) (h : g.home p = some c) :
    (g.take b r).home p = some c := by
  show Function.update g.home r (some b) p = some c
  by_cases hp : p = r
  · subst hp
    rw [Function.update_self, hI.linked_unique hr (.inl h)]
  · rw [Function.update_of_ne hp]
    exact h

theorem HeapInv.take_linked (hI : HeapInv n σ g) (hr : g.Linked b r) :
    (g.take b r).Linked c p ↔ g.Linked c p := by
  constructor
  · rintro (h | h)
    · have h : Function.update g.home r (some b) p = some c := h
      by_cases hp : p = r
      · subst hp
        rw [Function.update_self] at h
        exact Option.some.inj h ▸ hr
      · rw [Function.update_of_ne hp] at h
        exact .inl h
    · exact .inr (Ghost.take_fresh h).1
  · rintro (h | h)
    · exact .inl (hI.take_home hr h)
    · by_cases hp : p = r
      · subst hp
        rw [← hI.linked_unique hr (.inr h)]
        exact .inl (Function.update_self ..)
      · exact .inr (Ghost.fresh_take h hp)

/-- **An item is taken.** -/
theorem HeapInv.take (hI : HeapInv n σ g) (l : Local α T)
    (hl : ∀ u c, checks u c (⟨t, σ.1, l⟩ : Access (machine α T n)) = false) (hr : g.Linked b r) :
    Change n σ g (σ.1.take r, ⟨t, σ.1, l⟩ :: σ.2) (g.take b r) ⟨t, σ.1, l⟩ := by
  have hindex : ∀ q, ((σ.1.take r).item q).index = (σ.1.item q).index :=
    item_take (·.index) fun _ => rfl
  have hlink : ∀ q, ((σ.1.take r).item q).link = (σ.1.item q).link := item_take (·.link) fun _ => rfl
  refine .same hI ⟨rfl, le_rfl, fun q _ => item_take (·.data) (fun _ => rfl) q,
      fun q _ => hindex q, fun q _ h => ?_, fun hq => hI.owner (Ghost.take_fresh hq).1⟩
    (fun c => ⟨fun _ => rfl, fun _ _ => rfl, le_rfl, rfl, rfl, fun _ => rfl, fun q _ => hindex q,
      fun q _ => hlink q, hI.take_home hr, hI.take_linked hr, fun {q} hq => ?_, fun {q} hq => ?_⟩)
    hl (fun _ _ => rfl) (fun q _ _ hq => ?_) (fun _ _ => rfl) fun _ _ => rfl
  · refine Bool.eq_true_of_not_eq_false fun hf => ?_
    rw [(taken_take.mp hf).2] at h
    cases h
  · obtain ⟨hne, hu⟩ := taken_take.mp hq.2
    refine ⟨?_, hu⟩
    have h : Function.update g.home r (some b) q = some c := hq.1
    rw [Function.update_of_ne hne] at h
    exact h
  · obtain ⟨hf, hne⟩ := Ghost.take_fresh hq
    have hqr : q ≠ r := fun he => hne (hI.linked_unique (.inr hf) (he ▸ hr)) he
    obtain ⟨hh, hu⟩ := hI.fresh_untaken hf
    exact ⟨hf, (Function.update_of_ne hqr ..).trans hh, taken_take.mpr ⟨hqr, hu⟩⟩
  · have hne : q ≠ r := fun he => hq b (he ▸ hr)
    exact Function.update_of_ne hne ..

/-- An end pointer is moved to an item that was taken. -/
theorem HeapInv.swap (hI : HeapInv n σ g) (l : Local α T)
    (hl : ∀ u c, checks u c (⟨t, σ.1, l⟩ : Access (machine α T n)) = false)
    (hb : b < n) (hH : Held σ.1 g s b (σ.1.pointer s b) r) (hhome : g.home r = some b)
    (w : TaggedPointer) (hw : w.pointer = r) :
    Change n σ g (σ.1.setPointer s b w, ⟨t, σ.1, l⟩ :: σ.2) g ⟨t, σ.1, l⟩ := by
  have hB := hI.buffer b hb
  have hG : Grows σ g (σ.1.setPointer s b w, ⟨t, σ.1, l⟩ :: σ.2) g ⟨t, σ.1, l⟩ :=
    ⟨rfl, le_rfl, fun _ _ => rfl, fun _ _ => rfl, fun _ _ h => h, hI.owner⟩
  have hptr : ((σ.1.setPointer s b w).pointer s b).pointer = r := by
    rw [pointer_setPointer_self]
    exact hw
  have hsame : (σ.1.setPointer s b w).pointer s.other b = σ.1.pointer s.other b :=
    pointer_setPointer_of_ne _ _ (.inl s.other_ne)
  refine ⟨hI.change (b := b) hG (fun hq => hI.linked hq) (fun c hc => .of_eq hI.fresh_untaken
      (fun _ => pointer_setPointer_of_ne _ _ (.inr hc)) (fun _ _ => rfl) rfl rfl rfl rfl
      (fun _ => rfl) rfl rfl) (fun _ => ?_) (fun u c hc => (hI.checked u c hc).cons rfl
      (hl u c) (fun _ => rfl) fun h => h),
    fun u hu => hG.evolves hu fun c => ⟨fun h => h, fun h => h, fun hq hh => absurd hq.1 hh,
      fun _ r hr _ => hr, fun _ hv => .inl hv, fun _ hm => .inl ⟨hm, rfl⟩⟩,
    fun u _ => .of_eq rfl rfl rfl rfl rfl rfl rfl rfl (fun _ _ => rfl) rfl⟩
  · refine hB.move rfl rfl rfl rfl rfl (fun s' => ?_) (fun s' => ?_) (fun s' => ?_) ?_
      (fun hq => (hB.fresh hq).2.2) hB.check fun u => ?_
    · rcases s.eq_or_eq_other s' with rfl | rfl
      · rw [hptr]
        exact hhome
      · rw [hsame]
        exact hB.home s.other
    · rcases s.eq_or_eq_other s' with rfl | rfl
      · rw [hptr]
        exact hH.path
      · rw [hsame]
        exact hB.pointer s.other
    · rcases s.eq_or_eq_other s' with rfl | rfl
      · rw [hptr]
        exact hH.clear
      · rw [hsame]
        exact hB.clear s.other
    · have hst := hB.stage
      cases hg : g.stage b with
      | steady =>
        rw [hg] at hst
        exact hst
      | linked s' p new =>
        rw [hg] at hst
        exact hst
      | settled s' p =>
        rw [hg] at hst
        obtain ⟨hj, hm, hc, hf⟩ := hst
        refine ⟨hj, hm, hc, ?_⟩
        rcases s'.eq_or_eq_other s with rfl | rfl
        · rw [hsame]
          exact hf
        · rw [hptr]
          have := hH.settled p (by rw [Side.other_other]; exact hg)
          rw [Side.other_other] at this
          exact this
    · have hmemo := hB.memo u
      show MemoOk (σ.1.setPointer s b w) g u b (g.memo u b)
      cases hg : g.memo u b with
      | nothing => exact trivial
      | empty =>
        rw [hg] at hmemo
        exact hmemo
      | passed s' =>
        rw [hg] at hmemo
        obtain ⟨hlt, hlive, hlast⟩ := hmemo
        refine ⟨?_, hlive, hlast⟩
        rcases s.eq_or_eq_other s' with rfl | rfl
        · rw [hptr]
          exact hH.passed u hg hlt
        · rw [hsame]
          exact hlt

/-- What lies on the path from an end pointer on can be reached from there. -/
theorem HeapInv.mem_reachable (hI : HeapInv n σ g) (hb : b < n) (hp : p ∈ g.path b s)
    {q : ℕ} (hq : q ∈ g.path b s) (hf : ¬σ.1.Further s q p) : q ∈ σ.1.reachable s p := by
  have hB := hI.buffer b hb
  obtain ⟨pre, rest, hpath⟩ := List.append_of_mem hp
  have hlinked := hB.path s
  have hsorted := hB.sorted s
  rw [hpath] at hlinked hsorted hq
  have hq : q ∈ p :: rest := (List.mem_append.mp hq).resolve_left fun hq =>
    hf ((List.pairwise_append.mp hsorted).2.2 q hq p List.mem_cons_self)
  have hnodup : (p :: rest).Nodup := by
    refine (List.pairwise_append.mp hsorted).2.1.imp ?_
    rintro q _ hf rfl
    exact further_irrefl hf
  have hlen : (p :: rest).length ≤ σ.1.alloc := length_le_of_nodup hnodup fun m hm =>
    hI.linked_lt (hB.member (s := s) (by rw [hpath]; exact List.mem_append_right _ hm))
  obtain ⟨k, hk, hget⟩ := List.getElem_of_mem hq
  refine List.mem_map.mpr ⟨k, List.mem_range.mpr (hk.trans_le hlen), ?_⟩
  exact hlinked.suffix.iterate (List.getElem?_eq_some_iff.mpr ⟨hk, hget⟩)

/-- If the buffer does not hold any such item, none of its items was inserted at the side. -/
theorem HeapInv.not_inserted (hI : HeapInv n σ g) (hb : b < n) (h : σ.1.holds s b = false) {q : ℕ}
    (hq : Live σ.1 g b q) : inserted s (σ.1.item q).index = false := by
  have hB := hI.buffer b hb
  have hmem := hI.mem_reachable hb (hB.pointer s) (hB.live hq) (hB.clear s q hq)
  have := List.any_eq_false.mp h q hmem
  rw [hq.2] at this
  simpa using this

theorem check_set_self {σ : Shared α T} {w : TaggedPointer} :
    (σ.setEmptinessCheck s t b w).emptinessCheck s t b = w := by
  rw [show (σ.setEmptinessCheck s t b w).emptinessCheck = Function.update σ.emptinessCheck s
    (Function.update (σ.emptinessCheck s) t (Function.update (σ.emptinessCheck s t) b w)) from rfl]
  rw [Function.update_self, Function.update_self, Function.update_self]

theorem check_set_of_ne {σ : Shared α T} {w : TaggedPointer} {s' : Side} {t' b' : ℕ}
    (h : s' ≠ s ∨ t' ≠ t ∨ b' ≠ b) :
    (σ.setEmptinessCheck s t b w).emptinessCheck s' t' b' = σ.emptinessCheck s' t' b' := by
  rw [show (σ.setEmptinessCheck s t b w).emptinessCheck = Function.update σ.emptinessCheck s
    (Function.update (σ.emptinessCheck s) t (Function.update (σ.emptinessCheck s t) b w)) from rfl]
  by_cases hs : s' = s
  · subst hs
    rw [Function.update_self]
    by_cases ht : t' = t
    · subst ht
      rw [Function.update_self, Function.update_of_ne]
      exact (h.resolve_left fun h => h rfl).resolve_left fun h => h rfl
    · rw [Function.update_of_ne ht]
  · rw [Function.update_of_ne hs]

/-- The emptiness check pointers of thread `t` for buffer `b` are those of its two ends. -/
def Shared.remember (σ : Shared α T) (s : Side) (t b : ℕ) (tmp tmpOther : TaggedPointer) :
    Shared α T :=
  (σ.setEmptinessCheck s t b tmp).setEmptinessCheck s.other t b tmpOther

theorem check_remember {σ : Shared α T} :
    (σ.remember s t b tmp tmpOther).emptinessCheck s t b = tmp ∧
      (σ.remember s t b tmp tmpOther).emptinessCheck s.other t b = tmpOther :=
  ⟨(check_set_of_ne (.inl s.other_ne.symm)).trans check_set_self, check_set_self⟩

theorem check_remember_of_ne {σ : Shared α T} {s' : Side} {t' b' : ℕ} (h : t' ≠ t ∨ b' ≠ b) :
    (σ.remember s t b tmp tmpOther).emptinessCheck s' t' b' = σ.emptinessCheck s' t' b' :=
  (check_set_of_ne (.inr h)).trans (check_set_of_ne (.inr h))

/-- What the emptiness check pointers tell when they are stored. -/
theorem HeapInv.memo_remember (hI : HeapInv n σ g) (hb : b < n) (hs : Searched s b tmp σ.1 g)
    (tmpOther : TaggedPointer) (t : ℕ) : ∃ m : Memo,
      (∀ g' : Ghost, g'.path = g.path → g'.home = g.home →
        MemoOk (σ.1.remember s t b tmp tmpOther) g' t b m) ∧
      (σ.1.holds s.other b = false → m ≠ .nothing) ∧
      ∀ s', m = .passed s' → ∃ q, Live σ.1 g b q ∧ inserted s' (σ.1.item q).index = true ∧
        ((σ.1.remember s t b tmp tmpOther).emptinessCheck s' t b).pointer < q := by
  have hB := hI.buffer b hb
  by_cases hlive : ∃ q, Live σ.1 g b q
  · cases hh : σ.1.holds s.other b with
    | true =>
      exact ⟨.nothing, fun _ _ _ => trivial, fun h => Bool.noConfusion h, fun _ h => by cases h⟩
    | false =>
      -- all that is there was inserted at the side where the search began
      have hi : ∀ q, Live σ.1 g b q → inserted s (σ.1.item q).index = true := fun q hq =>
        (inserted_or (hB.sign hq) s).resolve_right fun h => by
          rw [hI.not_inserted hb hh hq] at h
          cases h
      obtain ⟨q, hq⟩ := hlive
      have hlt := hs.2 q hq (hi q hq)
      refine ⟨.passed s, fun g' hpath hhome => ⟨?_, fun q' hq' => ?_, fun e he => ?_⟩,
        fun _ => Memo.noConfusion, fun s' hs' => ?_⟩
      · rw [check_remember.1]
        exact hlt.trans_le (hB.le_of_not_further (.inl hq.1) (.inl (hB.home s)) (hi q hq)
          (hB.clear s q hq))
      · rw [check_remember.1]
        rw [Live, hhome] at hq'
        exact hs.2 q' hq' (hi q' hq')
      · rw [check_remember.1]
        rw [hpath] at he
        refine hlt.trans_le ?_
        have hmem := hB.live (s := s.other) hq
        obtain ⟨pre, hpre⟩ := List.getLast?_eq_some_iff.mp he
        have hsorted := hB.sorted s.other
        rw [hpre] at hsorted hmem
        rcases List.mem_append.mp hmem with hmem | hmem
        · have hf := (List.pairwise_append.mp hsorted).2.2 q hmem e List.mem_cons_self
          refine (hB.age ?_ (.inl hq.1) (hi q hq) (further_other.mp hf)).le
          refine hB.member (s := s.other) ?_
          rw [hpre]
          exact List.mem_append_right _ List.mem_cons_self
        · exact (List.mem_singleton.mp hmem).le
      · cases hs'
        exact ⟨q, hq, hi q hq, by rw [check_remember.1]; exact hlt⟩
  · refine ⟨.empty, fun g' _ hhome q hq => hlive ⟨q, ?_⟩, fun _ => Memo.noConfusion,
      fun _ h => by cases h⟩
    rw [Live, hhome] at hq
    exact hq

/-- **The emptiness check pointers are stored.** -/
theorem HeapInv.remember (hI : HeapInv n σ g) (hb : b < n) (sc : Scan T)
    (hbuf : sc.tmpBufferIndex n = b) (hside : sc.side = s) (hs : Searched s b tmp σ.1 g)
    (hother : g.home tmpOther.pointer = some b) :
    ∃ m, Change n σ g (σ.1.remember s t b tmp tmpOther, ⟨t, σ.1, .loadTmpOther sc tmp⟩ :: σ.2)
      { g with memo := Function.update g.memo t (Function.update (g.memo t) b m) }
      ⟨t, σ.1, .loadTmpOther sc tmp⟩ := by
  have hB := hI.buffer b hb
  obtain ⟨m, hm, hnothing, hpassed⟩ := hI.memo_remember hb hs tmpOther t
  set g' : Ghost := { g with memo := Function.update g.memo t (Function.update (g.memo t) b m) }
  have hmself : g'.memo t b = m := by
    show Function.update g.memo t (Function.update (g.memo t) b m) t b = m
    rw [Function.update_self, Function.update_self]
  have hmne : ∀ {u c}, u ≠ t ∨ c ≠ b → g'.memo u c = g.memo u c := fun {u c} h => by
    show Function.update g.memo t (Function.update (g.memo t) b m) u c = g.memo u c
    by_cases hu : u = t
    · subst hu
      rw [Function.update_self, Function.update_of_ne (h.resolve_left fun h => h rfl)]
    · rw [Function.update_of_ne hu]
  have hG : Grows σ g (σ.1.remember s t b tmp tmpOther, ⟨t, σ.1, .loadTmpOther sc tmp⟩ :: σ.2) g'
      ⟨t, σ.1, .loadTmpOther sc tmp⟩ :=
    ⟨rfl, le_rfl, fun _ _ => rfl, fun _ _ => rfl, fun _ _ h => h, hI.owner⟩
  have hsame : ∀ c, c ≠ b → Same σ.1 g (σ.1.remember s t b tmp tmpOther) g' c := fun c hc =>
    .of_eq hI.fresh_untaken (fun _ => rfl) (fun _ _ => check_remember_of_ne (.inr hc)) rfl rfl rfl
      rfl (fun _ => hmne (.inr hc)) rfl rfl
  refine ⟨m, hI.change (b := b) hG (fun hq => hI.linked hq) hsame (fun _ => ?_) fun u c hc => ?_,
    fun u hu => hG.evolves hu fun c => ?_, fun u hu => .of_eq rfl rfl rfl rfl rfl rfl rfl rfl
      (fun _ _ => check_remember_of_ne (.inl hu)) (Function.update_of_ne hu ..)⟩
  · refine hB.move rfl rfl rfl rfl rfl hB.home hB.pointer hB.clear hB.stage
      (fun hq => (hB.fresh hq).2.2) (fun s' u => ?_) fun u => ?_
    · by_cases hu : u = t
      · subst hu
        rcases s.eq_or_eq_other s' with rfl | rfl
        · rw [check_remember.1]
          exact .inr hs.1
        · rw [check_remember.2]
          exact .inr hother
      · rw [check_remember_of_ne (.inl hu)]
        exact hB.check s' u
    · by_cases hu : u = t
      · subst hu
        rw [hmself]
        exact hm g' rfl rfl
      · rw [hmne (.inl hu)]
        have hmemo := hB.memo u
        cases hg : g.memo u b with
        | nothing => exact trivial
        | empty =>
          rw [hg] at hmemo
          exact hmemo
        | passed s' =>
          rw [hg] at hmemo
          rw [MemoOk, check_remember_of_ne (.inl hu)]
          exact hmemo
  · by_cases hut : u = t ∧ c = b
    · obtain ⟨rfl, rfl⟩ := hut
      refine .inr ⟨_, lastCheck_check (decide_eq_true ⟨rfl, hbuf⟩), fun h => ?_⟩
      rw [hmself]
      have h : σ.1.holds sc.side.other c = false := h
      rw [hside] at h
      exact hnothing h
    · have hne : u ≠ t ∨ c ≠ b := Decidable.not_and_iff_or_not.mp hut
      refine (hI.checked u c hc).cons rfl ?_ (fun s' => check_remember_of_ne hne) fun h => ?_
      · refine decide_eq_false fun h => hut ⟨h.1.symm, ?_⟩
        rw [← h.2, hbuf]
      · rw [hmne hne]
        exact h
  · by_cases hc : c = b
    · subst hc
      refine ⟨fun h => h, fun h => h, fun hq hh => absurd hq.1 hh, fun _ r hr _ => hr,
        fun _ hv => .inl hv, fun {s' u'} _ hm' => ?_⟩
      by_cases hut : u' = t
      · subst hut
        rw [hmself] at hm'
        exact .inr (hpassed s' hm')
      · rw [hmne (.inl hut)] at hm'
        exact .inl ⟨hm', check_remember_of_ne (.inl hut)⟩
    · exact (hsame c hc).evolves

end Remove

end TSDeque

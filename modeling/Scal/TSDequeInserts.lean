/-
The steps of an insert into the timestamped deque, and what they do to the buffers.

* `HeapInv.newItem`, `HeapInv.linkNew` — the new item is private;
* `HeapInv.settle`, `HeapInv.storeOther` — the insert has found the item that it will link the
  new one to;
* `HeapInv.linkEnd` — the new item is linked, and what lies beyond is dropped;
* `HeapInv.storePointer` — the pointer of its side is stored.
-/
import Scal.TSDequeChanges

open Interleave Linearizability

namespace TSDeque

variable {α : Type} {T : TimeStamp} {n : ℕ}

section Insert

variable {t b p new : ℕ} {σ : (machine α T n).logged.Shared} {g : Ghost} {s : Side}

/-- A new item is allocated. -/
theorem HeapInv.newItem (hI : HeapInv n σ g) (ht : t < n) (s : Side) (x : α) :
    Change n σ g (σ.1.newItem s t x, ⟨t, σ.1, .newItem s x⟩ :: σ.2)
        { g with owner := Function.update g.owner σ.1.alloc t } ⟨t, σ.1, .newItem s x⟩ ∧
      Own t s σ.1.alloc (σ.1.newItem s t x)
        { g with owner := Function.update g.owner σ.1.alloc t } := by
  have hitem : ∀ p < σ.1.alloc, (σ.1.newItem s t x).item p = σ.1.item p := fun p hp =>
    Function.update_of_ne (Nat.ne_of_lt hp) ..
  have howner : ∀ p < σ.1.alloc, Function.update g.owner σ.1.alloc t p = g.owner p := fun p hp =>
    Function.update_of_ne (Nat.ne_of_lt hp) ..
  have hself : (σ.1.newItem s t x).item σ.1.alloc =
      ⟨Function.update (fun _ => 0) s σ.1.alloc, false, some x, T.initTopAtomic,
        signedIndex s (σ.1.nextIndex t)⟩ := Function.update_self ..
  have hnext : ∀ b, σ.1.nextIndex b ≤ (σ.1.newItem s t x).nextIndex b := by
    intro b
    show σ.1.nextIndex b ≤ Function.update σ.1.nextIndex t (σ.1.nextIndex t + 1) b
    by_cases hb : b = t
    · subst hb
      rw [Function.update_self]
      omega
    · rw [Function.update_of_ne hb]
  constructor
  · refine .same hI ⟨rfl, Nat.le_succ _, fun p hp => ?_, fun p hp => ?_, fun p hp h => ?_,
      fun {b p} hp => ?_⟩ (fun b => ?_) (fun _ _ => rfl) howner (fun p hp _ _ => hitem p hp)
      (fun u hu => Function.update_of_ne hu ..) fun _ _ => rfl
    · rw [hitem p hp]
    · rw [hitem p hp]
    · rw [hitem p hp]
      exact h
    · exact (howner p (hI.linked_lt (.inr hp))).trans (hI.owner hp)
    · refine ⟨fun _ => rfl, fun _ _ => rfl, hnext b, rfl, rfl, fun _ => rfl, fun p hp => ?_,
        fun p hp => ?_, fun h => h, Iff.rfl, fun hq => ?_, fun {p} hp => ⟨hp, ?_⟩⟩
      · rw [hitem p (hI.linked_lt hp)]
      · rw [hitem p (hI.linked_lt hp)]
      · exact ⟨hq.1, by rw [← hitem _ (hI.home_lt hq.1)]; exact hq.2⟩
      · rw [hitem p (hI.linked_lt (.inr hp))]
        exact hI.fresh_untaken hp
  · have hpos := (hI.buffer t ht).nextIndex_pos
    refine ⟨Function.update_self .., Nat.lt_succ_self _, Nat.ne_of_gt hI.alloc, fun b hb => ?_, ?_,
      ?_, ?_, ?_, ?_, fun q hq => ⟨hI.linked_lt hq, ?_⟩⟩
    · exact absurd (hI.linked_lt (g := g) hb) (Nat.lt_irrefl _)
    · rw [hself]
    · rw [hself]
      rfl
    · rw [hself]
      show Function.update (fun _ => 0) s σ.1.alloc s = σ.1.alloc
      rw [Function.update_self]
    · rw [hself]
      cases s
      · exact decide_eq_true (show -σ.1.nextIndex t < 0 by omega)
      · exact decide_eq_true hpos
    · rw [hself, show (σ.1.newItem s t x).nextIndex t = σ.1.nextIndex t + 1 from
        Function.update_self ..]
      cases s <;> simp only [signedIndex] <;> omega
    · rw [Shared.Further, hself, hitem q (hI.linked_lt (g := g) hq)]
      exact ahead_signedIndex ((hI.buffer t ht).index hq)

/-- But for its links, linking an item leaves it as it is. -/
theorem item_setLink {σ : Shared α T} {β : Type} (f : Item α T → β)
    (hf : ∀ i k, f { i with link := k } = f i) (q : ℕ) :
    f ((σ.setLink p s new).item q) = f (σ.item q) := by
  by_cases hq : q = p
  · subst hq
    have hself : (σ.setLink q s new).item q =
        { σ.item q with link := Function.update (σ.item q).link s new } := Function.update_self ..
    rw [hself, hf]
  · have hne : (σ.setLink p s new).item q = σ.item q := Function.update_of_ne hq ..
    rw [hne]

theorem link_setLink_self {σ : Shared α T} : ((σ.setLink p s new).item p).link s = new := by
  have hself : (σ.setLink p s new).item p =
      { σ.item p with link := Function.update (σ.item p).link s new } := Function.update_self ..
  rw [hself]
  exact Function.update_self ..

theorem link_setLink_of_ne {σ : Shared α T} {s' : Side} {q : ℕ} (h : q ≠ p ∨ s' ≠ s) :
    ((σ.setLink p s new).item q).link s' = (σ.item q).link s' := by
  by_cases hq : q = p
  · subst hq
    have hself : (σ.setLink q s new).item q =
        { σ.item q with link := Function.update (σ.item q).link s new } := Function.update_self ..
    rw [hself]
    exact Function.update_of_ne (h.resolve_left fun h => h rfl) ..
  · have hne : (σ.setLink p s new).item q = σ.item q := Function.update_of_ne hq ..
    rw [hne]

/-- The new item is linked to the item `p`. -/
theorem HeapInv.linkNew (hI : HeapInv n σ g) (l : Local α T)
    (hl : ∀ u c, checks u c (⟨t, σ.1, l⟩ : Access (machine α T n)) = false)
    (ho : Own t s new σ.1 g) (p : ℕ) :
    Change n σ g (σ.1.setLink new s.other p, ⟨t, σ.1, l⟩ :: σ.2) g ⟨t, σ.1, l⟩ ∧
      Own t s new (σ.1.setLink new s.other p) g ∧
      (σ.1.setLink new s.other p).inward s new = p := by
  have hitem : ∀ q, q ≠ new → (σ.1.setLink new s.other p).item q = σ.1.item q := fun q hq =>
    Function.update_of_ne hq ..
  have hself : (σ.1.setLink new s.other p).item new =
      { σ.1.item new with link := Function.update (σ.1.item new).link s.other p } :=
    Function.update_self ..
  have hne : ∀ {b q}, g.Linked b q → q ≠ new := fun hq he => ho.unlinked _ (he ▸ hq)
  refine ⟨.same hI ⟨rfl, le_rfl, fun q _ => item_setLink (·.data) (fun _ _ => rfl) q,
      fun q _ => item_setLink (·.index) (fun _ _ => rfl) q, fun q _ h => ?_, hI.owner⟩
      (fun b => ⟨fun _ => rfl, fun _ _ => rfl, le_rfl, rfl, rfl, fun _ => rfl,
        fun q _ => item_setLink (·.index) (fun _ _ => rfl) q, fun q hq => by rw [hitem q (hne hq)],
        fun h => h, Iff.rfl, fun hq => ?_, fun hq => ⟨hq, ?_⟩⟩)
      hl (fun _ _ => rfl) (fun q _ hq _ => ?_) (fun _ _ => rfl) fun _ _ => rfl, ?_, ?_⟩
  · rw [item_setLink (·.taken) (fun _ _ => rfl) q]
    exact h
  · exact ⟨hq.1, by rw [← hitem _ (hne (.inl hq.1))]; exact hq.2⟩
  · rw [hitem _ (hne (.inr hq))]
    exact hI.fresh_untaken hq
  · exact hitem q fun he => hq (he ▸ ho.owner)
  · refine ⟨ho.owner, ho.lt, ho.ne, ho.unlinked, ?_, ?_, ?_, ?_, ?_, fun q hq => ?_⟩
    · rw [hself]
      exact ho.taken
    · rw [hself]
      exact ho.data
    · rw [hself]
      exact (Function.update_of_ne s.other_ne.symm ..).trans ho.link
    · rw [hself]
      exact ho.sign
    · rw [hself]
      exact ho.index
    · refine ⟨(ho.further q hq).1, ?_⟩
      rw [Shared.Further, hself, hitem q (hne hq)]
      exact (ho.further q hq).2
  · rw [Shared.inward, hself]
    exact Function.update_self ..

/-- But for its timestamp, an item is left as it is. -/
theorem item_setStamp {σ : Shared α T} {clock : T.Clock} {stamp : T.Stamp} {β : Type}
    (f : Item α T → β) (hf : ∀ i k, f { i with timestamp := k } = f i) (q : ℕ) :
    f ((σ.setStamp p clock stamp).item q) = f (σ.item q) := by
  by_cases hq : q = p
  · subst hq
    have hself : (σ.setStamp q clock stamp).item q = { σ.item q with timestamp := stamp } :=
      Function.update_self ..
    rw [hself, hf]
  · have hne : (σ.setStamp p clock stamp).item q = σ.item q := Function.update_of_ne hq ..
    rw [hne]

/-- The timestamp of an item is stored. -/
theorem HeapInv.setStamp (hI : HeapInv n σ g) (l : Local α T)
    (hl : ∀ u c, checks u c (⟨t, σ.1, l⟩ : Access (machine α T n)) = false)
    (hp : g.home p = some b) (clock : T.Clock) (stamp : T.Stamp) :
    Change n σ g (σ.1.setStamp p clock stamp, ⟨t, σ.1, l⟩ :: σ.2) g ⟨t, σ.1, l⟩ := by
  have htaken : ∀ q, ((σ.1.setStamp p clock stamp).item q).taken = (σ.1.item q).taken :=
    item_setStamp (·.taken) fun _ _ => rfl
  refine .same hI ⟨rfl, le_rfl, fun q _ => item_setStamp (·.data) (fun _ _ => rfl) q,
      fun q _ => item_setStamp (·.index) (fun _ _ => rfl) q, fun q _ h => ?_, hI.owner⟩
      (fun c => ⟨fun _ => rfl, fun _ _ => rfl, le_rfl, rfl, rfl, fun _ => rfl,
        fun q _ => item_setStamp (·.index) (fun _ _ => rfl) q,
        fun q _ => item_setStamp (·.link) (fun _ _ => rfl) q,
        fun h => h, Iff.rfl, fun hq => ⟨hq.1, (htaken _).symm.trans hq.2⟩, fun hq => ⟨hq, ?_⟩⟩)
      hl (fun _ _ => rfl) (fun q _ _ hq => ?_) (fun _ _ => rfl) fun _ _ => rfl
  · rw [htaken]
    exact h
  · rw [htaken]
    exact hI.fresh_untaken hq
  · have hne : q ≠ p := fun he => hq b (.inl (he ▸ hp))
    exact Function.update_of_ne hne ..

/-- In a settled buffer no item is fresh. -/
theorem BufferInv.fresh_none {σ : Shared α T} (hB : BufferInv σ g b)
    (hst : ∀ s q new, g.stage b ≠ .linked s q new) : g.fresh b ≠ some p := fun h => by
  obtain ⟨-, -, s, q, he⟩ := hB.fresh h
  exact hst s q p he

/-- An insert has come to an item that is not taken, and will link the new item to it. -/
theorem HeapInv.settle (hI : HeapInv n σ g) (ht : t < n) (l : Local α T)
    (hl : ∀ u c, checks u c (⟨t, σ.1, l⟩ : Access (machine α T n)) = false)
    (hst : g.stage t = .steady) (hp : g.Linked t p)
    (hm : p ∈ g.path t s) (hc : Clear σ.1 g s t p) (hu : (σ.1.item p).taken = false) :
    Change n σ g (σ.1, ⟨t, σ.1, l⟩ :: σ.2)
      { g with stage := Function.update g.stage t (.settled s p) } ⟨t, σ.1, l⟩ := by
  have hB := hI.buffer t ht
  have hnew : ∀ s q new, g.stage t ≠ .linked s q new := fun s q new he => by
    rw [hst] at he
    cases he
  have hjoined : g.Joined t := by
    have := hB.stage
    rw [hst] at this
    exact this
  have hlive : Live σ.1 g t p := ⟨hB.home_of_linked hnew hp, hu⟩
  have hself : Function.update g.stage t (.settled s p) t = .settled s p := Function.update_self ..
  refine .own hI ⟨rfl, le_rfl, fun _ _ => rfl, fun _ _ => rfl, fun _ _ h => h, hI.owner⟩
    hl (fun hq => hI.linked hq)
    (fun c hc => .of_eq hI.fresh_untaken (fun _ => rfl) (fun _ _ => rfl) rfl rfl rfl
      (Function.update_of_ne hc ..) (fun _ => rfl) rfl rfl) ?_ (fun u _ => ?_) rfl
    (fun _ _ => .inl rfl) rfl rfl (fun _ _ => rfl) fun q _ hq => ⟨hq t, rfl⟩
  · refine hB.move rfl rfl rfl rfl rfl hB.home hB.pointer hB.clear ?_
      (fun h => absurd h (hB.fresh_none hnew)) hB.check hB.memo
    show StageOk σ.1 _ t (Function.update g.stage t (.settled s p) t)
    rw [hself]
    exact ⟨hjoined, hm, hc.of_eq rfl rfl, fun hf => hB.clear s.other p hlive (further_other.mpr hf)⟩
  · refine ⟨fun h => h, fun h => h, fun hq hh => absurd hq.1 hh, fun _ r hr _ => hr,
      fun {s' v} _ hv => ?_, fun _ hm => .inl ⟨hm, rfl⟩⟩
    have hv : Stage.settled s p = .settled s'.other v := hself.symm.trans hv
    cases hv
    exact .inr hlive

/-- The last item of a path. -/
theorem BufferInv.eq_last {σ : Shared α T} (hB : BufferInv σ g b) (hm : p ∈ g.path b s)
    (he : σ.inward s p = p) : ∃ pre, g.path b s = pre ++ [p] := by
  obtain ⟨pre, rest, hpath⟩ := List.append_of_mem hm
  have hlinked := hB.path s
  have hsorted := hB.sorted s
  rw [hpath] at hlinked hsorted
  have hnodup : (p :: rest).Nodup := by
    refine (List.pairwise_append.mp hsorted).2.1.imp ?_
    rintro q _ hf rfl
    exact further_irrefl hf
  rw [(hlinked.suffix.next_eq_self hnodup).mp he] at hpath
  exact ⟨pre, hpath⟩

theorem stores_storeOther {σ : Shared α T} {old oldOther : TaggedPointer} : stores s.other t
    (⟨t, σ, .storeOther s new old p oldOther⟩ : Access (machine α T n)) = true :=
  decide_eq_true ⟨rfl, rfl⟩

theorem stores_storePointer {σ : Shared α T} {old : TaggedPointer} : stores s t
    (⟨t, σ, .storePointer s new old⟩ : Access (machine α T n)) = true :=
  decide_eq_true ⟨rfl, rfl⟩

/-- An insert has come to the other end of its buffer, in which all items are taken, and stores
the pointer of that end. -/
theorem HeapInv.storeOther (hI : HeapInv n σ g) (ht : t < n) (hst : g.stage t = .steady)
    (hp : g.Linked t p) (hm : p ∈ g.path t s) (hc : Clear σ.1 g s t p) (he : σ.1.inward s p = p)
    (new : ℕ) (old oldOther : TaggedPointer) :
    Change n σ g (σ.1.setPointer s.other t (addNextAba p oldOther 1),
        ⟨t, σ.1, .storeOther s new old p oldOther⟩ :: σ.2)
      { g with stage := Function.update g.stage t (.settled s p) }
      ⟨t, σ.1, .storeOther s new old p oldOther⟩ := by
  have hB := hI.buffer t ht
  have hnew : ∀ s q new, g.stage t ≠ .linked s q new := fun s q new he => by
    rw [hst] at he
    cases he
  have hjoined : g.Joined t := by
    have := hB.stage
    rw [hst] at this
    exact this
  obtain ⟨pre, hpath⟩ := hB.eq_last hm he
  have hsorted := hB.sorted s
  rw [hpath] at hsorted
  -- nothing lies further on the other side
  have hcother : Clear σ.1 g s.other t p := by
    intro q hq hf
    have hq := hB.live (s := s) hq
    rw [hpath] at hq
    rcases List.mem_append.mp hq with hq | hq
    · exact further_asymm ((List.pairwise_append.mp hsorted).2.2 q hq p List.mem_cons_self)
        (further_other.mp hf)
    · exact further_irrefl (List.mem_singleton.mp hq ▸ hf)
  set σ' := σ.1.setPointer s.other t (addNextAba p oldOther 1) with hσ'
  have hptr : (σ'.pointer s.other t).pointer = p := by
    rw [hσ', pointer_setPointer_self]
    rfl
  have hsame : σ'.pointer s t = σ.1.pointer s t :=
    pointer_setPointer_of_ne _ _ (.inl s.other_ne.symm)
  have hself : Function.update g.stage t (.settled s p) t = .settled s p := Function.update_self ..
  refine .own hI ⟨rfl, le_rfl, fun _ _ => rfl, fun _ _ => rfl, fun _ _ h => h, hI.owner⟩
    (fun u b => rfl) (fun hq => hI.linked hq)
    (fun c hc => .of_eq hI.fresh_untaken (fun _ => pointer_setPointer_of_ne _ _ (.inr hc))
      (fun _ _ => rfl) rfl rfl rfl (Function.update_of_ne hc ..) (fun _ => rfl) rfl rfl) ?_
    (fun u hu => ?_) rfl (fun _ _ => .inl rfl) rfl rfl (fun _ _ => rfl) fun q _ hq => ⟨hq t, rfl⟩
  · refine hB.move rfl rfl rfl rfl rfl (fun s' => ?_) (fun s' => ?_) (fun s' => ?_) ?_
      (fun h => absurd h (hB.fresh_none hnew)) hB.check fun u => ?_
    · rcases s.eq_or_eq_other s' with rfl | rfl
      · rw [hsame]
        exact hB.home s'
      · rw [hptr]
        exact hB.home_of_linked hnew hp
    · rcases s.eq_or_eq_other s' with rfl | rfl
      · rw [hsame]
        exact hB.pointer s'
      · rw [hptr, hjoined s]
        exact List.mem_reverse.mpr hm
    · rcases s.eq_or_eq_other s' with rfl | rfl
      · rw [hsame]
        exact hB.clear s'
      · rw [hptr]
        exact hcother
    · show StageOk σ' _ t (Function.update g.stage t (.settled s p) t)
      rw [hself]
      refine ⟨hjoined, hm, hc.of_eq rfl rfl, ?_⟩
      rw [hptr]
      exact further_irrefl
    · have hmemo := hB.memo u
      show MemoOk σ' _ u t (g.memo u t)
      cases hg : g.memo u t with
      | nothing => exact trivial
      | empty =>
        rw [hg] at hmemo
        exact hmemo
      | passed s' =>
        rw [hg] at hmemo
        obtain ⟨hlt, hlive, hlast⟩ := hmemo
        refine ⟨?_, hlive, hlast⟩
        rcases s.eq_or_eq_other s' with rfl | rfl
        · rw [hsame]
          exact hlt
        · rw [hptr]
          rw [Side.other_other, hpath, List.getLast?_concat] at hlast
          exact hlast p rfl
  · refine ⟨fun h => h, fun h => h, fun hq hh => absurd hq.1 hh, fun _ r hr _ => hr,
      fun {s' v} hs hv => ?_, fun _ hm => .inl ⟨hm, rfl⟩⟩
    -- the pointer of the side at which it was settled is stored
    have hv : Stage.settled s p = .settled s'.other v := hself.symm.trans hv
    have hs : storedSince (⟨t, σ.1, .storeOther s new old p oldOther⟩ :: σ.2) u s' t = false := hs
    injection hv with hs' _
    obtain rfl : s' = s.other := by rw [hs', Side.other_other]
    rw [storedSince_cons (hu _ t), stores_storeOther] at hs
    cases hs

/-- The ghost state after the item `new` was linked next to `p`, beyond which lies `rest`. -/
def Ghost.link (g : Ghost) (t : ℕ) (s : Side) (p new : ℕ) (rest : List ℕ) : Ghost :=
  { g with
    path := Function.update g.path t
      (Function.update (g.path t) s.other (rest.reverse ++ [p, new]))
    fresh := Function.update g.fresh t (some new)
    stage := Function.update g.stage t (.linked s p new) }

section Link

variable {rest pre : List ℕ}

theorem Ghost.link_path_self :
    (g.link t s p new rest).path t s.other = rest.reverse ++ [p, new] := by
  show Function.update g.path t _ t s.other = _
  rw [Function.update_self, Function.update_self]

theorem Ghost.link_path_of_ne {c : ℕ} {s' : Side} (h : c ≠ t ∨ s' = s) :
    (g.link t s p new rest).path c s' = g.path c s' := by
  show Function.update g.path t _ c s' = _
  by_cases hc : c = t
  · subst hc
    rw [Function.update_self, Function.update_of_ne]
    rintro rfl
    exact s.other_ne (h.resolve_left fun h => h rfl)
  · rw [Function.update_of_ne hc]

theorem Ghost.link_stage : (g.link t s p new rest).stage t = .linked s p new :=
  Function.update_self ..

/-- What the owner has linked until now, and the new item. -/
theorem Ghost.linked_link {q : ℕ} (h : (g.link t s p new rest).Linked t q) :
    g.home q = some t ∨ q = new := by
  refine h.imp_right fun h => ?_
  have h : Function.update g.fresh t (some new) t = some q := h
  rw [Function.update_self] at h
  exact (Option.some.inj h).symm

/-- What is before the item to be linked, from the other end. -/
structure Settled (σ : Shared α T) (g : Ghost) (t : ℕ) (s : Side) (p : ℕ) (pre rest : List ℕ) :
    Prop where
  stage : g.stage t = .settled s p
  path : g.path t s = pre ++ p :: rest
  other : g.path t s.other = rest.reverse ++ p :: pre.reverse
  clear : Clear σ g s t p
  pointer : ¬σ.Further s (σ.pointer s.other t).pointer p
  before : ∀ q ∈ pre, σ.Further s q p
  after : ∀ q ∈ rest, σ.Further s p q

theorem BufferInv.settled {σ : Shared α T} (hB : BufferInv σ g t) (hst : g.stage t = .settled s p) :
    ∃ pre rest, Settled σ g t s p pre rest := by
  have h := hB.stage
  rw [hst] at h
  obtain ⟨hj, hm, hc, hf⟩ := h
  obtain ⟨pre, rest, hpath⟩ := List.append_of_mem hm
  have hsorted := hB.sorted s
  rw [hpath] at hsorted
  obtain ⟨-, hafter, hbefore⟩ := List.pairwise_append.mp hsorted
  refine ⟨pre, rest, hst, hpath, ?_, hc, hf, fun q hq => hbefore q hq p List.mem_cons_self,
    fun q hq => (List.pairwise_cons.mp hafter).1 q hq⟩
  rw [hj s, hpath, List.reverse_append, List.reverse_cons, List.append_assoc]
  rfl

theorem Settled.unlinked {σ : Shared α T} (h : Settled σ g t s p pre rest) (s' : Side) (q m : ℕ) :
    g.stage t ≠ .linked s' q m := by
  rw [h.stage]
  exact Stage.noConfusion

/-- What is not further than the item lies on the rest of the path. -/
theorem Settled.mem_rest {σ : Shared α T} (h : Settled σ g t s p pre rest) {q : ℕ}
    (hq : q ∈ g.path t s.other) (hf : ¬σ.Further s q p) : q ∈ rest.reverse ++ [p, new] := by
  rw [h.other] at hq
  rcases List.mem_append.mp hq with hq | hq
  · exact List.mem_append_left _ hq
  · rcases List.mem_cons.mp hq with rfl | hq
    · exact List.mem_append_right _ List.mem_cons_self
    · exact absurd (h.before q (List.mem_reverse.mp hq)) hf

/-- The buffer after the new item was linked. -/
theorem BufferInv.linkEnd {σ : Shared α T} (hB : BufferInv σ g t) (hS : Settled σ g t s p pre rest)
    (ho : Own t s new σ g) (hn : σ.inward s new = p) :
    BufferInv (σ.setLink p s new) (g.link t s p new rest) t := by
  set σ' := σ.setLink p s new
  have hindex : ∀ q, (σ'.item q).index = (σ.item q).index := item_setLink (·.index) fun _ _ => rfl
  have htaken : ∀ q, (σ'.item q).taken = (σ.item q).taken := item_setLink (·.taken) fun _ _ => rfl
  have hfurther : ∀ s' q r, σ'.Further s' q r ↔ σ.Further s' q r := fun s' q r => by
    rw [Shared.Further, hindex, hindex, Shared.Further]
  have hlive : ∀ {q}, Live σ' (g.link t s p new rest) t q → Live σ g t q := fun hq =>
    ⟨hq.1, (htaken _).symm.trans hq.2⟩
  have hp : g.Linked t p :=
    hB.member (s := s) (by rw [hS.path]; exact List.mem_append_right _ List.mem_cons_self)
  have hnew : ∀ {q}, g.Linked t q → q ≠ new := fun hq he => ho.unlinked t (he ▸ hq)
  have hinward : ∀ q, σ'.inward s q = σ.inward s q := fun q =>
    link_setLink_of_ne (.inr s.other_ne)
  have hother : ∀ q, q ≠ p → σ'.inward s.other q = σ.inward s.other q := fun q hq =>
    link_setLink_of_ne (.inl hq)
  have hotherp : σ'.inward s.other p = new := by
    rw [Shared.inward, Side.other_other]
    exact link_setLink_self
  have hothernew : σ'.inward s.other new = new := by
    rw [hother new (hnew hp).symm, Shared.inward, Side.other_other]
    exact ho.link
  have hhome : ∀ {q}, g.Linked t q → (g.link t s p new rest).Linked t q := fun hq =>
    .inl (hB.home_of_linked hS.unlinked hq)
  have hlnew : (g.link t s p new rest).Linked t new := .inr (Function.update_self ..)
  have hlinked : ∀ {q}, (g.link t s p new rest).Linked t q → g.Linked t q ∨ q = new := fun hq =>
    (Ghost.linked_link hq).imp_left .inl
  have hfnew : ∀ {q}, g.Linked t q → σ.Further s new q := fun hq => (ho.further _ hq).2
  have hrest : ∀ q ∈ rest, g.Linked t q ∧ q ≠ p := fun q hq =>
    ⟨hB.member (s := s) (by rw [hS.path]; exact List.mem_append_right _ (List.mem_cons_of_mem _ hq)),
      fun he => further_irrefl (he ▸ hS.after q hq)⟩
  constructor
  case path =>
    intro s'
    rcases s.eq_or_eq_other s' with rfl | rfl
    · rw [Ghost.link_path_of_ne (.inr rfl)]
      exact (hB.path s').congr fun q _ => hinward q
    · rw [Ghost.link_path_self]
      have hpath := hB.path s.other
      rw [hS.other] at hpath
      exact hpath.snoc (fun q hq => hother q (hrest q (List.mem_reverse.mp hq)).2) hotherp hothernew
  case sorted =>
    intro s'
    rcases s.eq_or_eq_other s' with rfl | rfl
    · rw [Ghost.link_path_of_ne (.inr rfl)]
      exact (hB.sorted s').imp fun h => (hfurther ..).mpr h
    · rw [Ghost.link_path_self]
      refine List.Pairwise.imp (fun h => (hfurther ..).mpr h) ?_
      have hsorted := hB.sorted s.other
      rw [hS.other] at hsorted
      obtain ⟨hrs, -, hbetween⟩ := List.pairwise_append.mp hsorted
      refine List.pairwise_append.mpr ⟨hrs, List.pairwise_pair.mpr (further_other.mpr (hfnew hp)),
        fun q hq r hr => ?_⟩
      rcases List.mem_cons.mp hr with rfl | hr
      · exact hbetween q hq r List.mem_cons_self
      · rw [List.mem_singleton.mp hr]
        exact further_other.mpr (hfnew (hrest q (List.mem_reverse.mp hq)).1)
  case member =>
    intro s' q hq
    rcases s.eq_or_eq_other s' with rfl | rfl
    · rw [Ghost.link_path_of_ne (.inr rfl)] at hq
      exact hhome (hB.member hq)
    · rw [Ghost.link_path_self] at hq
      rcases List.mem_append.mp hq with hq | hq
      · exact hhome (hrest q (List.mem_reverse.mp hq)).1
      · rcases List.mem_cons.mp hq with rfl | hq
        · exact hhome hp
        · rw [List.mem_singleton.mp hq]
          exact hlnew
  case live =>
    intro s' q hq'
    have hq := hlive hq'
    rcases s.eq_or_eq_other s' with rfl | rfl
    · rw [Ghost.link_path_of_ne (.inr rfl)]
      exact hB.live hq
    · rw [Ghost.link_path_self]
      exact hS.mem_rest (hB.live hq) (hS.clear q hq)
  case home => exact hB.home
  case pointer =>
    intro s'
    rcases s.eq_or_eq_other s' with rfl | rfl
    · rw [Ghost.link_path_of_ne (.inr rfl)]
      exact hB.pointer s'
    · rw [Ghost.link_path_self]
      exact hS.mem_rest (hB.pointer s.other) hS.pointer
  case clear =>
    intro s' q hq
    rw [hfurther]
    exact hB.clear s' q (hlive hq)
  case stage =>
    rw [Ghost.link_stage]
    refine ⟨⟨pre, rest, ?_, Ghost.link_path_self⟩, hlnew, (hinward new).trans hn, ?_,
      fun q hq => .inr ⟨(ho.further q (.inl hq)).1, (hfurther ..).mpr (hfnew (.inl hq))⟩⟩
    · rw [Ghost.link_path_of_ne (.inr rfl)]
      exact hS.path
    · rw [hindex]
      exact ho.sign
  case next =>
    intro s' r hr hne
    rcases s.eq_or_eq_other s' with rfl | rfl
    · rw [hinward] at hne ⊢
      rcases hlinked hr with hr | rfl
      · obtain ⟨hl, hf, hq⟩ := hB.next hr hne
        refine ⟨hhome hl, (hfurther ..).mpr hf, fun q hlq hf => ?_⟩
        rw [hfurther] at hf ⊢
        exact hq q (hlive hlq) hf
      · rw [hn]
        refine ⟨hhome hp, (hfurther ..).mpr (hfnew hp), fun q hlq _ => ?_⟩
        rw [hfurther]
        exact hS.clear q (hlive hlq)
    · by_cases hrp : r = p
      · subst hrp
        rw [hotherp]
        refine ⟨hlnew, (hfurther ..).mpr (further_other.mpr (hfnew hp)), fun q hlq hf => ?_⟩
        rw [hfurther, further_other] at hf
        exact absurd hf (hS.clear q (hlive hlq))
      · rw [hother r hrp] at hne ⊢
        rcases hlinked hr with hr | rfl
        · obtain ⟨hl, hf, hq⟩ := hB.next hr hne
          refine ⟨hhome hl, (hfurther ..).mpr hf, fun q hlq hf => ?_⟩
          rw [hfurther] at hf ⊢
          exact hq q (hlive hlq) hf
        · rw [← hother r hrp] at hne
          exact absurd hothernew hne
  case last =>
    intro s' r hr' he
    rw [hindex]
    rcases s.eq_or_eq_other s' with rfl | rfl
    · rw [hinward] at he
      rcases hlinked hr' with hr | rfl
      · exact hB.last hr he
      · exact absurd (hn.symm.trans he) (hnew hp)
    · rcases hlinked hr' with hr | rfl
      · by_cases hrp : r = p
        · subst hrp
          exact absurd (hotherp.symm.trans he).symm (hnew hr)
        · rw [hother r hrp] at he
          exact hB.last hr he
      · exact not_inserted_other ho.sign
  case index =>
    intro r hr
    rw [hindex]
    rcases hlinked hr with hr | rfl
    · exact hB.index hr
    · exact ho.index
  case unique =>
    intro r r' hr₀ hr₁ he
    rw [hindex, hindex] at he
    rcases hlinked hr₀ with hr | rfl
    · rcases hlinked hr₁ with hr' | rfl
      · exact hB.unique hr hr' he
      · exact absurd he.symm (hfnew hr).ne
    · rcases hlinked hr₁ with hr' | rfl
      · exact absurd he (hfnew hr').ne
      · rfl
  case age =>
    intro s' r r' hr₀ hr₁ hi hf
    rw [hindex] at hi
    rw [hfurther] at hf
    rcases hlinked hr₁ with hr' | rfl
    · rcases hlinked hr₀ with hr | rfl
      · exact hB.age hr hr' hi hf
      · exact (ho.further r' hr').1
    · obtain rfl : s' = s := (s.eq_or_eq_other s').resolve_right fun h => by
        rw [h, not_inserted_other ho.sign] at hi
        cases hi
      rcases hlinked hr₀ with hr | rfl
      · exact absurd hf (further_asymm (hfnew hr))
      · exact absurd hf further_irrefl
  case sign =>
    intro q hq
    rw [hindex]
    exact hB.sign (hlive hq)
  case fresh =>
    intro q hq
    have hq : Function.update g.fresh t (some new) t = some q := hq
    rw [Function.update_self] at hq
    obtain rfl := Option.some.inj hq
    refine ⟨?_, ?_, s, p, Ghost.link_stage⟩
    · rw [Option.eq_none_iff_forall_ne_some]
      exact fun c hc => ho.unlinked c (.inl hc)
    · rw [htaken]
      exact ho.taken
  case check => exact hB.check
  case memo =>
    intro u
    have hmemo := hB.memo u
    show MemoOk σ' (g.link t s p new rest) u t (g.memo u t)
    cases hg : g.memo u t with
    | nothing => exact trivial
    | empty =>
      rw [hg] at hmemo
      exact fun q hq => hmemo q (hlive hq)
    | passed s' =>
      rw [hg] at hmemo
      obtain ⟨hlt, hl, hlast⟩ := hmemo
      refine ⟨hlt, fun q hq => hl q (hlive hq), ?_⟩
      rcases s.eq_or_eq_other s' with rfl | rfl
      · rw [Ghost.link_path_self]
        intro q hq
        rw [List.getLast?_append, List.getLast?_cons_cons, List.getLast?_singleton] at hq
        obtain rfl : new = q := Option.some.inj hq
        exact hlt.trans (ho.further _ (.inl (hB.home s'))).1
      · rw [Side.other_other] at hlast ⊢
        rw [Ghost.link_path_of_ne (.inr rfl)]
        exact hlast

/-- The new item is linked next to the item `p`, and what lies beyond `p` is dropped. -/
theorem HeapInv.linkEnd (hI : HeapInv n σ g) (ht : t < n) (hst : g.stage t = .settled s p)
    (ho : Own t s new σ.1 g) (hn : σ.1.inward s new = p) (old : TaggedPointer) :
    ∃ rest, Change n σ g (σ.1.setLink p s new, ⟨t, σ.1, .linkEnd s new old p⟩ :: σ.2)
      (g.link t s p new rest) ⟨t, σ.1, .linkEnd s new old p⟩ := by
  have hB := hI.buffer t ht
  obtain ⟨pre, rest, hS⟩ := hB.settled hst
  have hp : g.Linked t p :=
    hB.member (s := s) (by rw [hS.path]; exact List.mem_append_right _ List.mem_cons_self)
  have hitem : ∀ q, q ≠ p → (σ.1.setLink p s new).item q = σ.1.item q := fun q hq =>
    Function.update_of_ne hq ..
  have hindex : ∀ q, ((σ.1.setLink p s new).item q).index = (σ.1.item q).index :=
    item_setLink (·.index) fun _ _ => rfl
  have htaken : ∀ q, ((σ.1.setLink p s new).item q).taken = (σ.1.item q).taken :=
    item_setLink (·.taken) fun _ _ => rfl
  have hfresh : ∀ c, c ≠ t → (g.link t s p new rest).fresh c = g.fresh c := fun c hc =>
    Function.update_of_ne hc ..
  refine ⟨rest, .own hI ⟨rfl, le_rfl, fun q _ => item_setLink (·.data) (fun _ _ => rfl) q,
      fun q _ => hindex q, fun q _ h => (htaken q).trans h, fun {c q} hq => ?_⟩
    (fun u c => rfl) (fun {c q} hq => ?_) (fun c hc => ?_) (hB.linkEnd hS ho hn) (fun u _ => ?_) rfl
    (fun _ _ => .inl rfl) rfl rfl (fun _ _ => rfl) fun q hq hu => ⟨fun h => ?_, ?_⟩⟩
  · by_cases hc : c = t
    · subst hc
      have hq : Function.update g.fresh c (some new) c = some q := hq
      rw [Function.update_self] at hq
      rw [← Option.some.inj hq]
      exact ho.owner
    · rw [hfresh c hc] at hq
      exact hI.owner hq
  · have hkeep : ∀ {c q}, g.Linked c q → c < n ∧ q ≠ 0 ∧ q < σ.1.alloc ∧
        (((σ.1.setLink p s new).item q).taken = false →
          ((σ.1.setLink p s new).item q).data.isSome = true) := by
      intro c q hq
      obtain ⟨hc, h0, hlt, hd⟩ := hI.linked hq
      refine ⟨hc, h0, hlt, fun hu => ?_⟩
      rw [item_setLink (·.data) fun _ _ => rfl]
      exact hd ((htaken q).symm.trans hu)
    by_cases hc : c = t
    · subst hc
      rcases Ghost.linked_link hq with hq | rfl
      · exact hkeep (.inl hq)
      · refine ⟨ht, ho.ne, ho.lt, fun _ => ?_⟩
        rw [item_setLink (·.data) fun _ _ => rfl]
        exact ho.data
    · rw [Ghost.Linked, hfresh c hc] at hq
      exact hkeep hq
  · refine ⟨fun _ => rfl, fun _ _ => rfl, le_rfl, Function.update_of_ne hc ..,
      Function.update_of_ne hc .., fun _ => rfl, fun q _ => hindex q, fun q hq => ?_, fun h => h, ?_,
      fun hq => ⟨hq.1, (htaken _).symm.trans hq.2⟩, fun {q} hq => ?_⟩
    · rw [hitem q fun he => hc (hI.linked_unique hq (he ▸ hp))]
    · intro q
      rw [Ghost.Linked, hfresh c hc]
      exact Iff.rfl
    · rw [hfresh c hc] at hq
      rw [htaken]
      exact ⟨hq, hI.fresh_untaken hq⟩
  · refine ⟨fun h => h, fun hq => .inl (hB.home_of_linked hS.unlinked hq),
      fun hq hh => absurd hq.1 hh, fun {s'} _ q hq hset => ?_, fun {s' v} _ hv => ?_,
      fun _ hm => .inl ⟨hm, rfl⟩⟩
    · rcases s.eq_or_eq_other s' with rfl | rfl
      · rw [Ghost.link_path_of_ne (.inr rfl)]
        exact hq
      · rw [Ghost.link_path_self]
        rw [Side.other_other] at hset
        exact hS.mem_rest hq (hset p hS.stage)
    · have := Ghost.link_stage.symm.trans hv
      cases this
  · rcases Ghost.linked_link h with h | rfl
    · exact hu t (.inl h)
    · exact hq ho.owner
  · exact hitem q fun he => hu t (he ▸ hp)

end Link

/-- The ghost state after the pointer of the side was stored: the buffer has the item `new`, and
the pointers that it had when it was empty are gone. -/
def Ghost.put (g : Ghost) (t : ℕ) (s : Side) (new : ℕ) : Ghost :=
  { g with
    path := Function.update g.path t (Function.update (g.path t) s (g.path t s.other).reverse)
    home := Function.update g.home new (some t)
    fresh := Function.update g.fresh t none
    stage := Function.update g.stage t .steady
    memo := fun u b =>
      if b = t ∧ g.home new = none ∧ g.memo u b = .empty then .passed s else g.memo u b }

section Put

theorem Ghost.put_path_self : (g.put t s new).path t s = (g.path t s.other).reverse := by
  show Function.update g.path t _ t s = _
  rw [Function.update_self, Function.update_self]

theorem Ghost.put_path_of_ne {c : ℕ} {s' : Side} (h : c ≠ t ∨ s' = s.other) :
    (g.put t s new).path c s' = g.path c s' := by
  show Function.update g.path t _ c s' = _
  by_cases hc : c = t
  · subst hc
    rw [Function.update_self, Function.update_of_ne]
    rintro rfl
    exact s'.other_ne (h.resolve_left fun h => h rfl).symm
  · rw [Function.update_of_ne hc]

theorem Ghost.put_stage : (g.put t s new).stage t = .steady := Function.update_self ..

theorem Ghost.put_home {q : ℕ} (h : (g.put t s new).home q = some b) :
    q = new ∧ b = t ∨ g.home q = some b := by
  have h : Function.update g.home new (some t) q = some b := h
  by_cases hq : q = new
  · subst hq
    rw [Function.update_self] at h
    exact .inl ⟨rfl, (Option.some.inj h).symm⟩
  · rw [Function.update_of_ne hq] at h
    exact .inr h

theorem Ghost.home_put (hu : ∀ c, g.home new = some c → c = t) {q : ℕ}
    (h : g.home q = some b) : (g.put t s new).home q = some b := by
  show Function.update g.home new (some t) q = some b
  by_cases hq : q = new
  · subst hq
    rw [Function.update_self, hu b h]
  · rw [Function.update_of_ne hq]
    exact h

theorem Ghost.put_memo {u : ℕ} {s' : Side} (h : (g.put t s new).memo u b = .passed s') :
    g.memo u b = .passed s' ∨ b = t ∧ s' = s ∧ g.home new = none ∧ g.memo u b = .empty := by
  have h : (if b = t ∧ g.home new = none ∧ g.memo u b = .empty then .passed s else g.memo u b) =
    Memo.passed s' := h
  split_ifs at h with hc
  · cases h
    exact .inr ⟨hc.1, rfl, hc.2⟩
  · exact .inl h

/-- The buffer after the pointer of the side was stored. -/
theorem BufferInv.put {σ : Shared α T} (hB : BufferInv σ g t) (hst : g.stage t = .linked s p new)
    (hu : ∀ c, g.home new = some c → c = t) (h0 : new ≠ 0) (w : TaggedPointer)
    (hw : w.pointer = new) : BufferInv (σ.setPointer s t w) (g.put t s new) t := by
  set σ' := σ.setPointer s t w
  have hstage := hB.stage
  rw [hst] at hstage
  obtain ⟨⟨pre, rest, hpath, hother⟩, hl, hn, hi, hold⟩ := hstage
  have hpath' : (g.path t s.other).reverse = new :: p :: rest := by
    rw [hother, List.reverse_append, List.reverse_reverse]
    rfl
  have hself : (g.put t s new).home new = some t := Function.update_self ..
  have hhome : ∀ {q}, (g.put t s new).Linked t q → q = new ∨ g.home q = some t := by
    rintro q (hq | hq)
    · exact (Ghost.put_home hq).imp_left And.left
    · have hq : Function.update g.fresh t none t = some q := hq
      rw [Function.update_self] at hq
      cases hq
  have hlinked : ∀ {q}, (g.put t s new).Linked t q → g.Linked t q := fun hq => by
    rcases hhome hq with rfl | hq
    · exact hl
    · exact .inl hq
  have hput : ∀ {q}, g.Linked t q → (g.put t s new).Linked t q := fun {q} hq => by
    rcases hq with hq | hq
    · exact .inl (Ghost.home_put hu hq)
    · rw [hB.fresh_eq hst hq]
      exact .inl hself
  have hlive : ∀ {q}, Live σ' (g.put t s new) t q → q = new ∨ Live σ g t q := fun hq =>
    (hhome (.inl hq.1)).imp_right fun h => ⟨h, hq.2⟩
  have hmem : ∀ {s' q}, q ∈ (g.put t s new).path t s' → q ∈ g.path t s' ∨ q ∈ g.path t s.other := by
    intro s' q hq
    rcases s.eq_or_eq_other s' with rfl | rfl
    · rw [Ghost.put_path_self] at hq
      exact .inr (List.mem_reverse.mp hq)
    · rw [Ghost.put_path_of_ne (.inr rfl)] at hq
      exact .inr hq
  have hnot : ∀ {q}, g.home q = some t → ¬σ.Further s q new := fun hq => by
    rcases hold _ hq with rfl | ⟨-, hf⟩
    · exact further_irrefl
    · exact further_asymm hf
  have hptr : (σ'.pointer s t).pointer = new := by
    rw [pointer_setPointer_self]
    exact hw
  have hsame : σ'.pointer s.other t = σ.pointer s.other t :=
    pointer_setPointer_of_ne _ _ (.inl s.other_ne)
  constructor
  case path =>
    intro s'
    rcases s.eq_or_eq_other s' with rfl | rfl
    · rw [Ghost.put_path_self, hpath']
      have h := hB.path s'
      rw [hpath] at h
      exact .cons hn h.suffix
    · rw [Ghost.put_path_of_ne (.inr rfl)]
      exact hB.path s.other
  case sorted =>
    intro s'
    rcases s.eq_or_eq_other s' with rfl | rfl
    · rw [Ghost.put_path_self, List.pairwise_reverse]
      exact (hB.sorted s'.other).imp further_other.mp
    · rw [Ghost.put_path_of_ne (.inr rfl)]
      exact hB.sorted s.other
  case member =>
    intro s' q hq
    exact hput ((hmem hq).elim hB.member hB.member)
  case live =>
    intro s' q hq
    have hother' : q ∈ g.path t s.other := by
      rcases hlive hq with rfl | hq
      · rw [← List.mem_reverse, hpath']
        exact List.mem_cons_self
      · exact hB.live hq
    rcases s.eq_or_eq_other s' with rfl | rfl
    · rw [Ghost.put_path_self]
      exact List.mem_reverse.mpr hother'
    · rw [Ghost.put_path_of_ne (.inr rfl)]
      exact hother'
  case home =>
    intro s'
    rcases s.eq_or_eq_other s' with rfl | rfl
    · rw [hptr]
      exact hself
    · rw [hsame]
      exact Ghost.home_put hu (hB.home s.other)
  case pointer =>
    intro s'
    rcases s.eq_or_eq_other s' with rfl | rfl
    · rw [hptr, Ghost.put_path_self, hpath']
      exact List.mem_cons_self
    · rw [hsame, Ghost.put_path_of_ne (.inr rfl)]
      exact hB.pointer s.other
  case clear =>
    intro s' q hq
    rcases s.eq_or_eq_other s' with rfl | rfl
    · rw [hptr]
      rcases hlive hq with rfl | hq
      · exact further_irrefl
      · exact hnot hq.1
    · rw [hsame]
      rcases hlive hq with rfl | hq
      · exact fun h => hnot (hB.home s.other) (further_other.mp h)
      · exact hB.clear s.other q hq
  case stage =>
    rw [Ghost.put_stage]
    intro s'
    rcases s.eq_or_eq_other s' with rfl | rfl
    · rw [Ghost.put_path_self, Ghost.put_path_of_ne (.inr rfl), List.reverse_reverse]
    · rw [Side.other_other, Ghost.put_path_self, Ghost.put_path_of_ne (.inr rfl)]
  case next =>
    intro s' r hr₀ hne
    have hr := hlinked hr₀
    obtain ⟨hlr, hf, hq⟩ := hB.next hr hne
    refine ⟨hput hlr, hf, fun q hlq hfq => ?_⟩
    rcases hlive hlq with rfl | hlq
    · -- nothing lies further than the new item on its side
      have hle : ∀ m, g.Linked t m → ¬σ.Further s m q := fun m hm => by
        rcases hm with hm | hm
        · exact hnot hm
        · rw [hB.fresh_eq hst hm]
          exact further_irrefl
      rcases s.eq_or_eq_other s' with rfl | rfl
      · exact absurd hfq (hle r hr)
      · exact fun h => hle _ hlr (further_other.mp h)
    · exact hq q hlq hfq
  case last => exact fun hr he => hB.last (hlinked hr) he
  case index => exact fun hr => hB.index (hlinked hr)
  case unique => exact fun hr hr' he => hB.unique (hlinked hr) (hlinked hr') he
  case age => exact fun hr hr' hi hf => hB.age (hlinked hr) (hlinked hr') hi hf
  case sign =>
    intro q hq
    rcases hlive hq with rfl | hq
    · intro h0
      have h0 : (σ.item q).index = 0 := h0
      rw [h0] at hi
      cases s <;> cases hi
    · exact hB.sign hq
  case fresh =>
    intro q hq
    have hq : Function.update g.fresh t none t = some q := hq
    rw [Function.update_self] at hq
    cases hq
  case check =>
    intro s' u
    exact (hB.check s' u).imp_right (Ghost.home_put hu)
  case memo =>
    intro u
    have hmemo := hB.memo u
    have hle : ∀ {q}, g.home q = some t → q ≤ new := fun hq => by
      rcases hold _ hq with rfl | ⟨hlt, -⟩
      · exact le_rfl
      · exact hlt.le
    cases hm : (g.put t s new).memo u t with
    | nothing => exact trivial
    | empty =>
      have h : (if t = t ∧ g.home new = none ∧ g.memo u t = .empty then .passed s else
        g.memo u t) = Memo.empty := hm
      split_ifs at h with hc
      rw [h] at hmemo
      intro q hq
      rcases hlive hq with rfl | hq
      · -- the item was taken before its owner stored the pointer
        cases hq' : g.home q with
        | none => exact hc ⟨rfl, hq', h⟩
        | some c => exact hmemo q ⟨hu c hq' ▸ hq', hq.2⟩
      · exact hmemo q hq
    | passed s' =>
      rcases Ghost.put_memo hm with h | ⟨-, rfl, hnone, h⟩
      · rw [h] at hmemo
        obtain ⟨hlt, hl', hlast⟩ := hmemo
        have hnew : (σ.emptinessCheck s' u t).pointer < new := hlt.trans_le (hle (hB.home s'))
        refine ⟨?_, fun q hq => ?_, ?_⟩
        · rcases s.eq_or_eq_other s' with rfl | rfl
          · rw [hptr]
            exact hnew
          · rw [hsame]
            exact hlt
        · rcases hlive hq with rfl | hq
          · exact hnew
          · exact hl' q hq
        · rcases s.eq_or_eq_other s' with rfl | rfl
          · rw [Ghost.put_path_of_ne (.inr rfl)]
            exact hlast
          · rw [Side.other_other] at hlast ⊢
            rw [hpath, List.getLast?_append_cons] at hlast
            rw [Ghost.put_path_self, hpath', List.getLast?_cons_cons]
            exact hlast
      · rw [h] at hmemo
        have hnew : (σ.emptinessCheck s' u t).pointer < new := by
          rcases hB.check s' u with h | h
          · rw [h]
            exact Nat.pos_of_ne_zero h0
          · rcases hold _ h with he | ⟨hlt, -⟩
            · rw [he, hnone] at h
              cases h
            · exact hlt
        refine ⟨?_, fun q hq => ?_, fun q hq => ?_⟩
        · rw [hptr]
          exact hnew
        · rcases hlive hq with rfl | hq
          · exact hnew
          · exact absurd hq (hmemo q)
        · rw [Ghost.put_path_of_ne (.inr rfl), hother, List.getLast?_append, List.getLast?_cons_cons,
            List.getLast?_singleton] at hq
          rw [← Option.some.inj hq]
          exact hnew

/-- **The pointer of the side is stored**: the new item is in the buffer, if it was not taken
before. -/
theorem HeapInv.storePointer (hI : HeapInv n σ g) (ht : t < n) (hst : g.stage t = .linked s p new)
    (old : TaggedPointer) :
    Change n σ g (σ.1.setPointer s t (addNextAba new old 1),
      ⟨t, σ.1, .storePointer s new old⟩ :: σ.2) (g.put t s new)
      ⟨t, σ.1, .storePointer s new old⟩ := by
  have hB := hI.buffer t ht
  have hstage := hB.stage
  rw [hst] at hstage
  obtain ⟨⟨pre, rest, hpath, hother⟩, hl, hn, hi, hold⟩ := hstage
  have hu : ∀ c, g.home new = some c → c = t := fun c hc => hI.linked_unique (.inl hc) hl
  have hfresh : ∀ c, c ≠ t → (g.put t s new).fresh c = g.fresh c := fun c hc =>
    Function.update_of_ne hc ..
  have hhome : ∀ {c q}, c ≠ t → (g.put t s new).home q = some c → g.home q = some c :=
    fun hc hq => (Ghost.put_home hq).resolve_left fun h => hc h.2
  have hlinked : ∀ {c q}, (g.put t s new).Linked c q → g.Linked c q := by
    rintro c q (hq | hq)
    · rcases Ghost.put_home hq with ⟨rfl, rfl⟩ | hq
      · exact hl
      · exact .inl hq
    · by_cases hc : c = t
      · subst hc
        have hq : Function.update g.fresh c none c = some q := hq
        rw [Function.update_self] at hq
        cases hq
      · rw [hfresh c hc] at hq
        exact .inr hq
  have hput : ∀ {q}, g.Linked t q → (g.put t s new).Linked t q := fun {q} hq => by
    rcases hq with hq | hq
    · exact .inl (Ghost.home_put hu hq)
    · rw [hB.fresh_eq hst hq]
      exact .inl (Function.update_self ..)
  refine .own hI ⟨rfl, le_rfl, fun _ _ => rfl, fun _ _ => rfl, fun _ _ h => h, fun {c q} hq => ?_⟩
    (fun u c => rfl) (fun hq => hI.linked (hlinked hq)) (fun c hc => ?_)
    (hB.put hst hu (hI.linked hl).2.1 _ rfl) (fun u hread => ?_) rfl (fun u c => ?_) rfl rfl
    (fun _ _ => rfl) fun q _ hq => ⟨fun h => hq t (hlinked h), rfl⟩
  · by_cases hc : c = t
    · subst hc
      have hq : Function.update g.fresh c none c = some q := hq
      rw [Function.update_self] at hq
      cases hq
    · rw [hfresh c hc] at hq
      exact hI.owner hq
  · refine ⟨fun _ => pointer_setPointer_of_ne _ _ (.inr hc), fun _ _ => rfl, le_rfl,
      Function.update_of_ne hc .., Function.update_of_ne hc .., fun u => if_neg fun h => hc h.1,
      fun _ _ => rfl, fun _ _ => rfl, Ghost.home_put hu, ⟨hlinked, fun hq => ?_⟩,
      fun hq => ⟨hhome hc hq.1, hq.2⟩, fun {q} hq => ?_⟩
    · exact hq.imp (Ghost.home_put hu) fun h => (hfresh c hc).trans h
    · rw [hfresh c hc] at hq
      refine ⟨hq, ?_, (hI.fresh_untaken hq).2⟩
      have hne : q ≠ new := fun he => hc (hI.linked_unique (.inr hq) (he ▸ hl))
      exact (Function.update_of_ne hne ..).trans (hI.fresh_untaken hq).1
  · have hs : ∀ {s'}, storedSince (⟨t, σ.1, .storePointer s new old⟩ :: σ.2) u s' t = false →
        s' = s.other := fun {s'} h => by
      rcases s.eq_or_eq_other s' with rfl | rfl
      · rw [storedSince_cons (hread _ t), stores_storePointer] at h
        cases h
      · rfl
    refine ⟨Ghost.home_put hu, hput, fun {q} hq hh => ?_, fun hs' r hr _ => ?_, fun _ hv => ?_,
      fun {s' v} hs' hm => ?_⟩
    · obtain ⟨rfl, -⟩ : q = new ∧ t = t := (Ghost.put_home hq.1).resolve_right hh
      refine ⟨s, ?_, hi, fun r hr => ?_⟩
      · show storedSince (⟨t, σ.1, .storePointer s q old⟩ :: σ.2) u s t = true
        rw [storedSince_cons (hread s t), stores_storePointer]
        rfl
      · rcases hr with hr | hr
        · exact (hold r hr).imp_left fun h => h
        · exact .inl (hB.fresh_eq hst hr)
    · obtain rfl := hs hs'
      rw [Ghost.put_path_of_ne (.inr rfl)]
      exact hr
    · have := Ghost.put_stage.symm.trans hv
      cases this
    · obtain rfl := hs hs'
      rcases Ghost.put_memo hm with h | ⟨-, he, -⟩
      · exact .inl ⟨h, rfl⟩
      · exact absurd he s.other_ne
  · show (if c = t ∧ g.home new = none ∧ g.memo u c = .empty then .passed s else g.memo u c) =
      g.memo u c ∨ _
    split_ifs with hc
    · exact .inr ⟨hc.2.2, s, if_pos hc⟩
    · exact .inl rfl

end Put

end Insert

end TSDeque

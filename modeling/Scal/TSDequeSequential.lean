/-
The timestamped deque with the atomic counter, used by any threads one call at a time.

* `ends_insert`, `ends_remove` — every call, run alone, returns unless its `cas`es fail
  forever.  The loop of a remove finds the item that lies furthest on its side (`Found`),
  and when there is none, a second loop finds the emptiness checks filled;
* `sequential_deque` — sequences of calls are runs of a double-ended queue.
-/
import Scal.TSDequeBuffers
import Scal.Sequential

open Interleave Linearizability

namespace TSDeque

variable {α : Type}

/-- What a call has done when it returns. -/
def Post (numThreads : ℕ) (q : List α) (op : DequeOp α) (σ : Shared α atomicCounter)
    (r : DequeRet α) : Prop :=
  ∃ q', DequeStep q op r q' ∧ ∃ g ds, Rep numThreads σ g ds q'

section Calls

variable {numThreads t u n : ℕ} {σ : Shared α atomicCounter} {g : ℕ → Parts} {s : Side}
  {ds w rest : List ℕ} {q : List α} {x : α} {Q : Shared α atomicCounter → DequeRet α → Prop}

/-- Alone, the accesses of an insert add up. -/
theorem inserted_of_steps (P : Side → ℕ → TaggedPointer) (hP : ∀ b ≠ t, ∀ s', P s' b = σ.pointer s' b)
    (hu : u ≠ σ.alloc) (old : TaggedPointer) (c ts : ℕ) {c' : ℕ} (hc : c' = σ.clock + 1) :
    Inserted σ (((((({ σ.newItem s t x with pointer := P }.setLink σ.alloc s.other u).setLink u s
      σ.alloc).setPointer s t old).setStamp σ.alloc c ts).setStamp σ.alloc c'
        σ.clock)) s t x u := by
  generalize hσ' : (((((({ σ.newItem s t x with pointer := P }.setLink σ.alloc s.other u).setLink u s
      σ.alloc).setPointer s t old).setStamp σ.alloc c ts).setStamp σ.alloc c'
        σ.clock)) = σ'
  have hnew : σ'.item σ.alloc = ⟨Function.update (Function.update (fun _ => 0) s σ.alloc) s.other u,
      false, some x, σ.clock, signedIndex s (σ.nextIndex t)⟩ := by
    subst hσ'
    simp [Shared.setStamp, Shared.setPointer, Shared.setLink, Shared.newItem, hu.symm]
  have hold : ∀ p ≠ σ.alloc, σ'.item p =
      if p = u then { σ.item p with link := Function.update (σ.item p).link s σ.alloc }
      else σ.item p := by
    intro p hp
    subst hσ'
    by_cases hpu : p = u
    · subst hpu
      simp [Shared.setStamp, Shared.setPointer, Shared.setLink, Shared.newItem, hp]
    · simp [Shared.setStamp, Shared.setPointer, Shared.setLink, Shared.newItem, hp, hpu]
  have hfield : ∀ {β : Type} (f : Item α atomicCounter → β),
      (∀ i l, f { i with link := l } = f i) → ∀ p ≠ σ.alloc, f (σ'.item p) = f (σ.item p) := by
    intro β f hf p hp
    rw [hold p hp]
    split_ifs
    · exact hf _ _
    · rfl
  refine ⟨by rw [← hσ']; rfl, by rw [← hσ']; exact hc, by rw [← hσ']; rfl, by rw [hnew], by rw [hnew],
    by rw [hnew]; rfl, by rw [hnew], ?_, hfield Item.taken fun _ _ => rfl,
    hfield Item.data fun _ _ => rfl, hfield TSDeque.time fun _ _ => rfl,
    hfield Item.index fun _ _ => rfl, fun p hp s' hs' => ?_, ?_, fun b hb s' => ?_⟩
  · rw [hnew]
    refine ⟨?_, Function.update_self ..⟩
    exact (Function.update_of_ne s.other_ne.symm ..).trans (Function.update_self ..)
  · rw [hold p hp]
    split_ifs with hpu
    · have hne : s' ≠ s := fun h => hs' h hpu
      exact Function.update_of_ne hne ..
    · rfl
  · rw [hold u hu, if_pos rfl]
    exact Function.update_self ..
  · rw [← hσ', ← hP b hb s']
    exact pointer_setPointer_of_ne _ old (.inr hb)

/-- An insert, from where it links its item. -/
theorem ends_linkNew (P : Side → ℕ → TaggedPointer) (hP : ∀ b ≠ t, ∀ s', P s' b = σ.pointer s' b)
    (hu : u ≠ σ.alloc) (hclock : σ.clock + 1 < wordSize) (old : TaggedPointer)
    (hQ : ∀ σ', Inserted σ σ' s t x u → (σ'.pointer s t).pointer = σ.alloc →
      (σ'.pointer s.other t).pointer = (P s.other t).pointer → Q σ' (.inserted true)) :
    EndsUpTo (machine α atomicCounter numThreads) Choice.spurious t Q n
      { σ.newItem s t x with pointer := P } (.linkNew s σ.alloc old u) := by
  refine .go _ _ (fun _ => rfl) (.go _ _ (fun _ => rfl) (.go _ _ (fun _ => rfl) ?_))
  refine .go _ _ (fun _ => rfl) (.stop _ _ (fun _ => rfl) ?_)
  have hmod : (σ.clock + 1) % wordSize = σ.clock + 1 := Nat.mod_eq_of_lt hclock
  refine hQ _ (inserted_of_steps P hP hu _ _ _ hmod) ?_ ?_
  · exact congrArg TaggedPointer.pointer (pointer_setPointer_self _ s t _)
  · exact congrArg TaggedPointer.pointer (pointer_setPointer_of_ne _ _ (.inl s.other_ne))

/-- The walk of an insert from `u` on; it stops at an item that is not taken, or at the last. -/
theorem ends_walk {new : ℕ} {old : TaggedPointer} (s : Side) :
    ∀ (rest : List ℕ) (u : ℕ), LinkedPath (fun p => (σ.item p).link s.other) (u :: rest) →
      (u :: rest).Nodup →
      (∀ w' u' rest', u :: rest = w' ++ u' :: rest' → (∀ p ∈ w', (σ.item p).taken = true) →
        (rest' = [] ∨ (σ.item u').taken = false) → EndsUpTo (machine α atomicCounter numThreads)
          Choice.spurious t Q n σ (.checkEnd s new old u')) →
      EndsUpTo (machine α atomicCounter numThreads) Choice.spurious t Q n σ
        (.endLink s new old u) := by
  intro rest
  induction rest with
  | nil =>
    intro u hpath _ hdone
    have hlast : (σ.item u).link s.other = u := hpath.next_last
    refine .go σ (.checkEnd s new old u) (fun _ => ?_)
      (hdone [] u [] rfl (fun p hp => absurd hp List.not_mem_nil) (.inl rfl))
    simp only [step, hlast, ne_eq, not_true_eq_false, if_false]
  | cons m rest ih =>
    intro u hpath hnodup hdone
    obtain ⟨hlink, hpath'⟩ := hpath.tail
    have hne : (σ.item u).link s.other ≠ u := fun he =>
      (List.nodup_cons.mp hnodup).1 (he ▸ hlink ▸ List.mem_cons_self)
    refine .go σ (.endTaken s new old u) (fun _ => by simp only [step, if_pos hne]) ?_
    by_cases ht : (σ.item u).taken = true
    · refine .go σ (.endStep s new old u) (fun _ => by simp only [step, if_pos ht]) ?_
      refine .go σ (.endLink s new old m) (fun _ => by simp only [step, hlink]) ?_
      refine ih m hpath' (List.nodup_cons.mp hnodup).2 fun w' u' rest' he hw' hu' => ?_
      refine hdone (u :: w') u' rest' (by rw [he, List.cons_append]) (fun p hp => ?_) hu'
      rcases List.mem_cons.mp hp with rfl | hp
      · exact ht
      · exact hw' p hp
    · refine .go σ (.checkEnd s new old u) (fun _ => by simp only [step, if_neg ht])
        (hdone [] u (m :: rest) rfl (fun p hp => absurd hp List.not_mem_nil) (.inr ?_))
      exact Bool.eq_false_iff.mpr ht

/-- **An insert.** -/
theorem ends_insert (hR : Rep numThreads σ g ds q) (ht : t < numThreads)
    (hclock : σ.clock + 1 < wordSize) :
    EndsUpTo (machine α atomicCounter numThreads) Choice.spurious t
      (Post numThreads q (insertOp s x)) n σ (.newItem s x) := by
  have hB := hR.buffer t ht
  obtain ⟨l, hl⟩ := hB.pointer s
  have hinside : (g t).inside s =
      (σ.pointer s t).pointer :: (l ++ ((g t).outer s.other).reverse) := by
    rw [Parts.inside, hl, List.cons_append]
  have hmem : ∀ p ∈ (g t).inside s, p ≠ σ.alloc := fun p hp =>
    Nat.ne_of_lt (hB.bound p (Parts.mem_inside hp)).2
  have hitem : ∀ p ∈ (g t).inside s, (σ.newItem s t x).item p = σ.item p := fun p hp =>
    Function.update_of_ne (hmem p hp) ..
  have hpath := hB.linked s
  rw [Parts.view_nodes, hinside] at hpath
  have hnodup : (s.view (g t).nodes).Nodup := Side.nodup_view.mpr hB.nodup
  rw [Parts.view_nodes, hinside] at hnodup
  refine .go (σ.newItem s t x) (.loadOld s σ.alloc) (fun _ => rfl) (.go _ _ (fun _ => rfl) ?_)
  refine ends_walk s _ _ (hpath.suffix.congr fun p hp => ?_) (List.nodup_append.mp hnodup).2.1
    fun w u rest hw htaken hu => ?_
  · exact congrArg (fun i => i.link s.other) (hitem p (hinside ▸ hp))
  · replace hw : (g t).inside s = w ++ u :: rest := hinside.trans hw
    have hwmem : ∀ p ∈ w, p ∈ (g t).inside s := fun p hp => hw ▸ List.mem_append_left _ hp
    have humem : u ∈ (g t).inside s := hw ▸ List.mem_append_right _ List.mem_cons_self
    have htaken' : ∀ p ∈ w, (σ.item p).taken = true := fun p hp => by
      rw [← hitem p (hwmem p hp)]
      exact htaken p hp
    have hu' : rest = [] ∨ (σ.item u).taken = false := by
      rw [← hitem u humem]
      exact hu
    have hlink : ((σ.newItem s t x).item u).link s.other = u ↔ rest = [] := by
      rw [hitem u humem]
      rw [← hinside, hw, ← List.append_assoc] at hpath hnodup
      exact hpath.suffix.next_eq_self (List.nodup_append.mp hnodup).2.1
    have hdone : ∀ σ', Inserted σ σ' s t x u → (σ'.pointer s t).pointer = σ.alloc →
        (σ'.pointer s.other t).pointer = (if rest = [] then u else (σ.pointer s.other t).pointer) →
          Post numThreads q (insertOp s x) σ' (.inserted true) := by
      intro σ' h hp ho
      obtain ⟨g', ds', hR'⟩ := hR.insert ht h hw htaken' hu' hp ho
      exact ⟨_, DequeStep.insert (Side.view_view ..), g', ds', hR'⟩
    by_cases hrest : rest = []
    · -- the other pointer is stored too
      refine .go _ (.loadOther s σ.alloc (σ.pointer s t) u)
        (fun _ => by simp only [step, if_pos (hlink.mpr hrest)]; rfl) (.go _ _ (fun _ => rfl) ?_)
      refine .go _ _ (fun _ => rfl) (ends_linkNew
        (σ.setPointer s.other t (addNextAba u (σ.pointer s.other t) 1)).pointer
        (fun b hb s' => pointer_setPointer_of_ne σ _ (.inr hb)) (hmem u humem) hclock _
        fun σ' h hp ho => hdone σ' h hp ?_)
      rw [ho, if_pos hrest, pointer_setPointer_self, addNextAba]
    · refine .go _ (.linkNew s σ.alloc (σ.pointer s t) u)
        (fun _ => by simp only [step, if_neg (mt hlink.mp hrest)]; rfl) ?_
      refine ends_linkNew σ.pointer (fun _ _ _ => rfl) (hmem u humem) hclock _
        fun σ' h hp ho => hdone σ' h hp ?_
      rw [ho, if_neg hrest]

/-! ### Remove -/

/-- `get_left_item` and `get_right_item`, from item `p` of the window on. -/
theorem ends_getItem {b : ℕ} {g : Parts} (hB : Buffer σ b g) {sc : Scan atomicCounter}
    {tmp : TaggedPointer} {threshold : ℤ}
    (hth : threshold = (σ.item (σ.pointer sc.side.other b).pointer).index)
    (hfound : ∀ w₁ p w₂, sc.side.view g.window = w₁ ++ p :: w₂ →
      (∀ m ∈ w₁, (σ.item m).taken = true) → (σ.item p).taken = false →
        EndsUpTo (machine α atomicCounter numThreads) Choice.spurious t Q n σ
          (.loadTimestamp { sc with empty := false } tmp p ()))
    (hnone : (∀ p ∈ g.window, (σ.item p).taken = true) →
      EndsUpTo (machine α atomicCounter numThreads) Choice.spurious t Q n σ
        (.loadTmpOther sc tmp)) :
    ∀ (w₂ w₁ : List ℕ) (p : ℕ), sc.side.view g.window = w₁ ++ p :: w₂ →
      (∀ m ∈ w₁, (σ.item m).taken = true) →
        EndsUpTo (machine α atomicCounter numThreads) Choice.spurious t Q n σ
          (.loadIndex sc tmp threshold p) := by
  intro w₂
  induction w₂ with
  | nil =>
    intro w₁ p hw htaken
    have hp : p ∈ g.window := Parts.mem_of_view hw
    have hin : ¬ beyond sc.side threshold (σ.item p).index = true := hth ▸ hB.not_beyond hp
    refine .go σ (.loadTaken sc tmp threshold p) (fun _ => by simp only [step, if_neg hin]) ?_
    by_cases ht : (σ.item p).taken = true
    · have hall : ∀ m ∈ g.window, (σ.item m).taken = true := by
        intro m hm
        rw [← Side.mem_view (s := sc.side), hw] at hm
        rcases List.mem_append.mp hm with hm | hm
        · exact htaken m hm
        · obtain rfl := List.mem_singleton.mp hm
          exact ht
      refine .go σ (.checkLink sc tmp threshold p) (fun _ => by simp only [step, if_pos ht]) ?_
      have hpath := hB.linked sc.side
      rw [Parts.view_nodes, Parts.inside, hw, List.append_assoc, ← List.append_assoc,
        List.singleton_append] at hpath
      by_cases hlink : (σ.item p).link sc.side.other = p
      · exact .go σ (.loadTmpOther sc tmp) (fun _ => by simp only [step, if_pos hlink]) (hnone hall)
      · -- the next item lies beyond the threshold
        refine .go σ (.loadLink sc tmp threshold p) (fun _ => by simp only [step, if_neg hlink]) ?_
        refine .go σ (.loadIndex sc tmp threshold ((σ.item p).link sc.side.other)) (fun _ => rfl) ?_
        have hout : (σ.item p).link sc.side.other ∈ g.outer sc.side.other := by
          cases ho : (g.outer sc.side.other).reverse with
          | nil =>
            rw [ho] at hpath
            exact absurd hpath.suffix.next_last hlink
          | cons m l =>
            rw [ho] at hpath
            have hm : (σ.item p).link sc.side.other = m := hpath.suffix.tail.1
            rw [hm, ← List.mem_reverse, ho]
            exact List.mem_cons_self
        have hbeyond : beyond sc.side threshold
            (σ.item ((σ.item p).link sc.side.other)).index = true := hth ▸ hB.beyond_outer hout
        exact .go σ (.loadTmpOther sc tmp) (fun _ => by simp only [step, if_pos hbeyond])
          (hnone hall)
    · refine .go σ _ (fun _ => by simp only [step, if_neg ht])
        (hfound w₁ p [] hw htaken (Bool.eq_false_iff.mpr ht))
  | cons m w₂ ih =>
    intro w₁ p hw htaken
    have hp : p ∈ g.window := Parts.mem_of_view hw
    have hin : ¬ beyond sc.side threshold (σ.item p).index = true := hth ▸ hB.not_beyond hp
    refine .go σ (.loadTaken sc tmp threshold p) (fun _ => by simp only [step, if_neg hin]) ?_
    by_cases ht : (σ.item p).taken = true
    · refine .go σ (.checkLink sc tmp threshold p) (fun _ => by simp only [step, if_pos ht]) ?_
      have hpath := hB.linked sc.side
      have hnodup : (sc.side.view g.nodes).Nodup := Side.nodup_view.mpr hB.nodup
      rw [Parts.view_nodes, Parts.inside, hw, List.append_assoc, ← List.append_assoc] at hpath hnodup
      have hlink : (σ.item p).link sc.side.other = m := hpath.suffix.tail.1
      have hne : ¬ (σ.item p).link sc.side.other = p := by
        rw [hlink]
        rintro rfl
        exact (List.nodup_cons.mp (List.nodup_append.mp hnodup).2.1).1 List.mem_cons_self
      refine .go σ (.loadLink sc tmp threshold p) (fun _ => by simp only [step, if_neg hne]) ?_
      refine .go σ (.loadIndex sc tmp threshold m) (fun _ => by simp only [step, hlink]) ?_
      refine ih (w₁ ++ [p]) m (by rw [hw, List.append_assoc, List.singleton_append]) fun m' hm' => ?_
      rcases List.mem_append.mp hm' with hm' | hm'
      · exact htaken m' hm'
      · obtain rfl := List.mem_singleton.mp hm'
        exact ht
    · refine .go σ _ (fun _ => by simp only [step, if_neg ht])
        (hfound w₁ p (m :: w₂) hw htaken (Bool.eq_false_iff.mpr ht))

/-- The emptiness check of thread `t` has seen both pointers of buffer `b`. -/
def Checked (σ : Shared α atomicCounter) (t b : ℕ) : Prop :=
  ∀ s, σ.emptinessCheck s t b = σ.pointer s b

/-- The loop has found an item: the first one of its buffer, and none of the buffers
`start, ..., start + i - 1` has one further on the side. -/
structure Found (numThreads : ℕ) (σ : Shared α atomicCounter) (g : ℕ → Parts) (i : ℕ)
    (sc : Scan atomicCounter) : Prop where
  buffer : sc.bufferIndex < numThreads
  stamp : sc.timestamp = time (σ.item sc.result)
  old : sc.old = σ.pointer sc.side sc.bufferIndex
  taken : (σ.item sc.result).taken = false
  window : ∃ w₁ w₂, sc.side.view (g sc.bufferIndex).window = w₁ ++ sc.result :: w₂ ∧
    ∀ m ∈ w₁, (σ.item m).taken = true
  best : ∀ j < i, ∀ p ∈ (g ((sc.start + j) % numThreads)).nodes, (σ.item p).taken = false →
    p = sc.result ∨ Ahead sc.side (key (σ.item sc.result)) (key (σ.item p))

theorem Found.mem {i : ℕ} {sc : Scan atomicCounter} (hF : Found numThreads σ g i sc) :
    sc.result ∈ (g sc.bufferIndex).nodes := by
  obtain ⟨w₁, w₂, hw, -⟩ := hF.window
  exact Parts.mem_window (Parts.mem_of_view hw)

/-- What the loop of a remove knows after `i` buffers; `checked` tells whether the emptiness
checks had seen all buffers when it began. -/
structure Scanned (numThreads t : ℕ) (checked : Prop) (σ : Shared α atomicCounter)
    (g : ℕ → Parts) (i : ℕ) (sc : Scan atomicCounter) : Prop where
  invocationTime : sc.invocationTime = σ.clock
  startTime : sc.startTime = σ.clock
  none : sc.result = 0 → ∀ j < i, Checked σ t ((sc.start + j) % numThreads) ∧
    ∀ p ∈ (g ((sc.start + j) % numThreads)).nodes, (σ.item p).taken = true
  some : sc.result ≠ 0 → sc.empty = false ∧ Found numThreads σ g i sc
  checked : checked → (∀ b < numThreads, Checked σ t b) ∧ (sc.result = 0 → sc.empty = true)

/-- What the loop makes of an item that `get_left_item` or `get_right_item` returned. -/
def Scan.compare (numThreads : ℕ) (σ : Shared α atomicCounter) (sc : Scan atomicCounter)
    (tmp : TaggedPointer) (p : ℕ) : Scan atomicCounter :=
  if sc.result = 0 ∨ isMore atomicCounter sc.side (σ.item p).index (σ.item p).timestamp
      (σ.item sc.result).index sc.timestamp = true then
    { sc with
      result := p, bufferIndex := sc.tmpBufferIndex numThreads
      timestamp := (σ.item p).timestamp, old := tmp }
  else sc

theorem Scan.compare_fields (numThreads : ℕ) (σ : Shared α atomicCounter) (sc : Scan atomicCounter) (tmp : TaggedPointer) (p : ℕ) :
    (sc.compare numThreads σ tmp p).side = sc.side ∧
      (sc.compare numThreads σ tmp p).invocationTime = sc.invocationTime ∧
      (sc.compare numThreads σ tmp p).startTime = sc.startTime ∧
      (sc.compare numThreads σ tmp p).start = sc.start ∧
      (sc.compare numThreads σ tmp p).i = sc.i ∧
      (sc.compare numThreads σ tmp p).empty = sc.empty := by
  unfold Scan.compare
  split_ifs <;> exact ⟨rfl, rfl, rfl, rfl, rfl, rfl⟩

theorem Scan.tmpBufferIndex_lt (sc : Scan atomicCounter) (hn : 0 < numThreads) :
    sc.tmpBufferIndex numThreads < numThreads :=
  Nat.mod_lt _ hn

/-- A buffer with an item: `p` is its first. -/
theorem Scanned.found {checked : Prop} {sc : Scan atomicCounter} {w₁ w₂ : List ℕ} {p : ℕ}
    (hR : Rep numThreads σ g ds q) (hS : Scanned numThreads t checked σ g sc.i sc)
    (hn : 0 < numThreads)
    (hw : sc.side.view (g (sc.tmpBufferIndex numThreads)).window = w₁ ++ p :: w₂)
    (htaken : ∀ m ∈ w₁, (σ.item m).taken = true) (hpt : (σ.item p).taken = false) :
    Scanned numThreads t checked σ g (sc.i + 1) (Scan.compare numThreads σ
      { sc with empty := false } (σ.pointer sc.side (sc.tmpBufferIndex numThreads)) p) := by
  have hb := sc.tmpBufferIndex_lt hn
  have hB := hR.buffer _ hb
  have hp := Parts.mem_window (Parts.mem_of_view hw)
  have hpds : p ∈ ds := (hR.mem p).mpr ⟨_, hb, hp, hpt⟩
  have hp0 : p ≠ 0 := (hB.bound p hp).1
  obtain ⟨hindex, htime⟩ := hB.inserted p hp hpt
  by_cases hmore : sc.result = 0 ∨ isMore atomicCounter sc.side (σ.item p).index
      (σ.item p).timestamp (σ.item sc.result).index sc.timestamp = true
  · -- `p` is the new result
    have hcompare : Scan.compare numThreads σ { sc with empty := false }
        (σ.pointer sc.side (sc.tmpBufferIndex numThreads)) p =
        { sc with
          empty := false, result := p, bufferIndex := sc.tmpBufferIndex numThreads
          timestamp := (σ.item p).timestamp
          old := σ.pointer sc.side (sc.tmpBufferIndex numThreads) } := if_pos hmore
    rw [hcompare]
    refine ⟨hS.invocationTime, hS.startTime, fun h => absurd h hp0,
      fun _ => ⟨rfl, hb, rfl, rfl, hpt, ⟨w₁, w₂, hw, htaken⟩, fun j hj p' hp' hpt' => ?_⟩,
      fun h => ⟨(hS.checked h).1, fun h0 => absurd h0 hp0⟩⟩
    rcases Nat.lt_or_eq_of_le (Nat.le_of_lt_succ hj) with hj | rfl
    · by_cases h0 : sc.result = 0
      · have := ((hS.none h0 j hj).2 p' hp').symm.trans hpt'
        cases this
      · have hF := (hS.some h0).2
        obtain ⟨hindex', htime'⟩ := (hR.buffer _ hF.buffer).inserted _ hF.mem hF.taken
        have hahead : Ahead sc.side (key (σ.item p)) (key (σ.item sc.result)) := by
          have h := hmore.resolve_left h0
          rw [hF.stamp] at h
          exact (isMore_iff hindex hindex' htime htime').mp h
        rcases hF.best j hj p' hp' hpt' with rfl | h
        · exact .inr hahead
        · exact .inr (hahead.trans h)
    · exact hB.first hw htaken hp' hpt'
  · have h0 : sc.result ≠ 0 := fun h => hmore (.inl h)
    have hcompare : Scan.compare numThreads σ { sc with empty := false }
        (σ.pointer sc.side (sc.tmpBufferIndex numThreads)) p = { sc with empty := false } :=
      if_neg hmore
    rw [hcompare]
    have hF := (hS.some h0).2
    obtain ⟨hindex', htime'⟩ := (hR.buffer _ hF.buffer).inserted _ hF.mem hF.taken
    -- the result is further on the side than `p`, unless it is `p`
    have hahead : p = sc.result ∨ Ahead sc.side (key (σ.item sc.result)) (key (σ.item p)) := by
      by_cases hpr : p = sc.result
      · exact .inl hpr
      · have hrds : sc.result ∈ ds := (hR.mem _).mpr ⟨_, hF.buffer, hF.mem, hF.taken⟩
        refine .inr ((ahead_or sc.side (hR.key_ne hrds hpds (Ne.symm hpr))).resolve_right fun h => ?_)
        refine hmore (.inr ?_)
        rw [hF.stamp]
        exact (isMore_iff hindex hindex' htime htime').mpr h
    refine ⟨hS.invocationTime, hS.startTime, fun h => absurd h h0,
      fun _ => ⟨rfl, hF.buffer, hF.stamp, hF.old, hF.taken, hF.window, fun j hj p' hp' hpt' => ?_⟩,
      fun h => ⟨(hS.checked h).1, fun h' => absurd h' h0⟩⟩
    rcases Nat.lt_or_eq_of_le (Nat.le_of_lt_succ hj) with hj | rfl
    · exact hF.best j hj p' hp' hpt'
    · rcases hB.first hw htaken hp' hpt' with rfl | h
      · exact hahead
      · rcases hahead with rfl | hahead
        · exact .inr h
        · exact .inr (hahead.trans h)

/-- A buffer without items. -/
theorem Scanned.missed {checked : Prop} {sc : Scan atomicCounter} {b : ℕ}
    (hR : Rep numThreads σ g ds q) (hS : Scanned numThreads t checked σ g sc.i sc)
    (hb : b = sc.tmpBufferIndex numThreads) (hn : 0 < numThreads)
    (hall : ∀ p ∈ (g b).window, (σ.item p).taken = true) :
    Scanned numThreads t checked ((σ.setEmptinessCheck sc.side t b (σ.pointer sc.side b)
      ).setEmptinessCheck sc.side.other t b (σ.pointer sc.side.other b)) g (sc.i + 1)
      (if σ.emptinessCheck sc.side t b = σ.pointer sc.side b ∧
        σ.emptinessCheck sc.side.other t b = σ.pointer sc.side.other b then sc
        else { sc with empty := false }) := by
  have hbn : b < numThreads := hb ▸ sc.tmpBufferIndex_lt hn
  have hnodes : ∀ p ∈ (g b).nodes, (σ.item p).taken = true := by
    intro p hp
    rcases Parts.mem_nodes.mp hp with hp | ⟨s, hp⟩
    · exact hall p hp
    · exact (hR.buffer b hbn).outer s p hp
  generalize hσ' : (σ.setEmptinessCheck sc.side t b (σ.pointer sc.side b)
      ).setEmptinessCheck sc.side.other t b (σ.pointer sc.side.other b) = σ'
  have hitem : σ'.item = σ.item := by rw [← hσ']; rfl
  have hpointer : σ'.pointer = σ.pointer := by rw [← hσ']; rfl
  have hclock : σ'.clock = σ.clock := by rw [← hσ']; rfl
  have hcheck : ∀ s b', σ'.emptinessCheck s t b' =
      if b' = b then σ.pointer s b else σ.emptinessCheck s t b' := by
    intro s b'
    subst hσ'
    by_cases hbb : b' = b
    · subst hbb
      rcases sc.side.eq_or_eq_other s with rfl | rfl
      · simp [Shared.setEmptinessCheck, sc.side.other_ne.symm]
      · simp [Shared.setEmptinessCheck]
    · rcases sc.side.eq_or_eq_other s with rfl | rfl
      · simp [Shared.setEmptinessCheck, sc.side.other_ne.symm, hbb]
      · simp [Shared.setEmptinessCheck, sc.side.other_ne, hbb]
  have hself : Checked σ' t b := fun s => by rw [hcheck, if_pos rfl, hpointer]
  have hkeep : ∀ b', Checked σ t b' → Checked σ' t b' := by
    intro b' h s
    rw [hcheck, hpointer]
    split_ifs with hbb
    · rw [hbb]
    · exact h s
  have hrest : ∀ e : Bool, (sc.result ≠ 0 → e = false) → (checked → sc.result = 0 → e = true) →
      Scanned numThreads t checked σ' g (sc.i + 1) { sc with empty := e } := by
    intro e he₁ he₂
    refine ⟨hclock ▸ hS.invocationTime, hclock ▸ hS.startTime, fun h0 j hj => ?_, fun h0 => ?_,
      fun h => ⟨fun b' hb' => hkeep b' ((hS.checked h).1 b' hb'), he₂ h⟩⟩
    · rw [hitem]
      rcases Nat.lt_or_eq_of_le (Nat.le_of_lt_succ hj) with hj | rfl
      · obtain ⟨h, h'⟩ := hS.none h0 j hj
        exact ⟨hkeep _ h, h'⟩
      · rw [show (sc.start + sc.i) % numThreads = b from hb.symm]
        exact ⟨hself, hnodes⟩
    · have hF := (hS.some h0).2
      refine ⟨he₁ h0, hF.buffer, by rw [hitem]; exact hF.stamp, by rw [hpointer]; exact hF.old,
        by rw [hitem]; exact hF.taken, by rw [hitem]; exact hF.window, fun j hj p hp hpt => ?_⟩
      rw [hitem] at hpt ⊢
      rcases Nat.lt_or_eq_of_le (Nat.le_of_lt_succ hj) with hj | rfl
      · exact hF.best j hj p hp hpt
      · have hp' : p ∈ (g b).nodes := hb ▸ hp
        have := (hnodes p hp').symm.trans hpt
        cases this
  split_ifs with hseen
  · exact hrest sc.empty (fun h0 => (hS.some h0).1) fun h => (hS.checked h).2
  · refine hrest false (fun _ => rfl) fun h => absurd ?_ hseen
    have hseen' := (hS.checked h).1 b hbn
    exact ⟨hseen' sc.side, hseen' sc.side.other⟩

/-- A remove, from where it takes the item that the loop has found. -/
theorem ends_takeResult {sc : Scan atomicCounter} (hR : Rep numThreads σ g ds q)
    (hF : Found numThreads σ g numThreads sc) (hempty : sc.empty = false)
    (hinv : sc.invocationTime = σ.clock)
    (hretry : ∀ m < n, EndsUpTo (machine α atomicCounter numThreads) Choice.spurious t
      (Post numThreads q (removeOp sc.side)) m σ (.readStart sc.side σ.clock ())) :
    EndsUpTo (machine α atomicCounter numThreads) Choice.spurious t
      (Post numThreads q (removeOp sc.side)) n σ (.checkResult sc) := by
  obtain ⟨w₁, w₂, hw, htaken⟩ := hF.window
  have hrds : sc.result ∈ ds := (hR.mem _).mpr ⟨_, hF.buffer, hF.mem, hF.taken⟩
  obtain ⟨x, ds', q', hx, hq, hR'⟩ := hR.take (s := sc.side) hrds fun p hp => by
    obtain ⟨b, hb, hpb, hpt⟩ := (hR.mem p).mp hp
    obtain ⟨j, hj, rfl⟩ := exists_index (r := sc.start) hb
    exact hF.best j hj p hpb hpt
  -- whether or not the pointer moves, the item is gone
  have hload : ∀ m σ' g', Rep numThreads σ' g' ds' q' → (σ'.item sc.result).data = some x →
      EndsUpTo (machine α atomicCounter numThreads) Choice.spurious t
        (Post numThreads q (removeOp sc.side)) m σ' (.loadData sc) := by
    intro m σ' g' hR' hx'
    exact .stop σ' (.removed (some x)) (fun _ => by simp only [step, hx'])
      ⟨q', DequeStep.remove hq, g', ds', hR'⟩
  have hx' : ((σ.take sc.result).item sc.result).data = some x :=
    (item_take Item.data (fun _ => rfl) _).trans hx
  refine .go σ (.takeResult sc) (fun _ => by simp only [step, if_pos hF.taken]) ?_
  refine .attempt (σ.take sc.result) (.swapPointer sc) σ (.readStart sc.side σ.clock ())
    (fun ch => ?_) ?_ hretry
  · cases hch : ch.spurious
    · simp [step, hF.taken, hch]
    · simp [step, hch, noElement, hempty, hinv]
  · have hold : (σ.take sc.result).pointer sc.side sc.bufferIndex = sc.old := hF.old.symm
    obtain ⟨g', hR''⟩ := hR'.swap hw (fun m hm => Bool.of_not_eq_false fun h => by
      have := (htaken m hm).symm.trans (taken_take.mp h).2
      cases this) ((sc.old.aba + 0) % 8)
    refine .attempt ((σ.take sc.result).setPointer sc.side sc.bufferIndex
      (addNextAba sc.result sc.old 0)) (.loadData sc) (σ.take sc.result) (.loadData sc)
      (fun ch => ?_) (hload n _ g' hR'' hx')
      fun m _ => hload m _ g hR' hx'
    cases hch : ch.spurious
    · simp [step, hold, hch]
    · simp [step, hch]

/-- What follows the loop. -/
theorem ends_afterLoop {checked : Prop} {sc : Scan atomicCounter} (hR : Rep numThreads σ g ds q)
    (hS : Scanned numThreads t checked σ g numThreads sc)
    (hretry : ∀ m < n, EndsUpTo (machine α atomicCounter numThreads) Choice.spurious t
      (Post numThreads q (removeOp sc.side)) m σ (.readStart sc.side σ.clock ()))
    (hagain : ¬ checked → (∀ b < numThreads, Checked σ t b) →
      EndsUpTo (machine α atomicCounter numThreads) Choice.spurious t
        (Post numThreads q (removeOp sc.side)) n σ (.readStart sc.side σ.clock ())) :
    (∀ l, afterLoop sc = .inl l → EndsUpTo (machine α atomicCounter numThreads) Choice.spurious t
      (Post numThreads q (removeOp sc.side)) n σ l) ∧
    ∀ r, afterLoop sc = .inr r → Post numThreads q (removeOp sc.side) σ r := by
  by_cases h0 : sc.result = 0
  · have hds : ds = [] := by
      refine List.eq_nil_iff_forall_not_mem.mpr fun p hp => ?_
      obtain ⟨b, hb, hpb, hpt⟩ := (hR.mem p).mp hp
      obtain ⟨j, hj, rfl⟩ := exists_index (r := sc.start) hb
      have := ((hS.none h0 j hj).2 p hpb).symm.trans hpt
      cases this
    have hq : q = [] := by
      have := hR.data
      rw [hds] at this
      exact List.map_eq_nil_iff.mp this.symm
    have hafter : (afterLoop sc : Local α atomicCounter ⊕ DequeRet α) = noElement sc :=
      if_neg fun h => h.1 h0
    rw [hafter, noElement]
    by_cases he : sc.empty = true
    · rw [if_pos he]
      refine ⟨(fun l hl => by cases hl), fun r hr => ?_⟩
      obtain rfl := Sum.inr.inj hr
      exact ⟨[], hq ▸ DequeStep.empty, g, ds, hq ▸ hR⟩
    · rw [if_neg he]
      refine ⟨fun l hl => ?_, fun r hr => by cases hr⟩
      obtain rfl := Sum.inl.inj hl
      rw [hS.invocationTime]
      refine hagain (fun h => he ((hS.checked h).2 h0)) fun b hb => ?_
      obtain ⟨j, hj, rfl⟩ := exists_index (r := sc.start) hb
      exact (hS.none h0 j hj).1
  · obtain ⟨he, hF⟩ := hS.some h0
    have hlater : atomicCounter.isLater sc.timestamp sc.startTime = false := by
      have hstamp := (hR.buffer _ hF.buffer).stamp _ hF.mem
      rw [hF.stamp, hS.startTime]
      exact decide_eq_false (Nat.lt_asymm hstamp)
    have hafter : (afterLoop sc : Local α atomicCounter ⊕ DequeRet α) = .inl (.checkResult sc) :=
      if_pos ⟨h0, hlater⟩
    rw [hafter]
    refine ⟨fun l hl => ?_, fun r hr => by cases hr⟩
    obtain rfl := Sum.inl.inj hl
    exact ends_takeResult hR hF he hS.invocationTime hretry

/-- One buffer. -/
theorem ends_buffer {checked : Prop} {sc : Scan atomicCounter} (hn : 0 < numThreads)
    (hR : Rep numThreads σ g ds q) (hS : Scanned numThreads t checked σ g sc.i sc)
    (hnext : ∀ σ' sc', Rep numThreads σ' g ds q →
      Scanned numThreads t checked σ' g (sc.i + 1) sc' → sc'.side = sc.side → sc'.i = sc.i →
      (∀ l, nextBuffer numThreads sc' = .inl l →
        EndsUpTo (machine α atomicCounter numThreads) Choice.spurious t Q n σ' l) ∧
      ∀ r, nextBuffer numThreads sc' = .inr r → Q σ' r) :
    EndsUpTo (machine α atomicCounter numThreads) Choice.spurious t Q n σ (.loadTmp sc) := by
  generalize hb : sc.tmpBufferIndex numThreads = b
  have hbn : b < numThreads := hb ▸ sc.tmpBufferIndex_lt hn
  have hB := hR.buffer b hbn
  obtain ⟨l, hl⟩ := hB.pointer sc.side
  refine .go σ (.loadLimit sc (σ.pointer sc.side b)) (fun _ => by simp only [step, hb]) ?_
  refine .go σ (.loadThreshold sc (σ.pointer sc.side b) (σ.pointer sc.side.other b).pointer)
    (fun _ => by simp only [step, hb]) ?_
  refine .go σ _ (fun _ => rfl) ?_
  refine .go σ (.loadIndex sc (σ.pointer sc.side b) _ (σ.pointer sc.side b).pointer)
    (fun _ => by simp only [step, hb]; rfl) ?_
  refine ends_getItem hB rfl (fun w₁ p w₂ hw htaken hpt => ?_) (fun hall => ?_) l [] _ hl
    fun m hm => absurd hm List.not_mem_nil
  · -- an item
    have hS' := hS.found hR hn (hb ▸ hw) htaken hpt
    rw [hb] at hS'
    obtain ⟨hside, hinv, -, -, hi, -⟩ := Scan.compare_fields numThreads σ
      { sc with empty := false } (σ.pointer sc.side b) p
    have hpn : p ∈ (g b).nodes := Parts.mem_window (Parts.mem_of_view hw)
    obtain ⟨hgo, hstop⟩ := hnext σ _ hR hS' hside hi
    have hlater : ¬ (inserted sc.side (σ.item p).index = true ∧
        atomicCounter.isLater sc.invocationTime (σ.item p).timestamp = false) := by
      rintro ⟨-, h⟩
      rw [hS.invocationTime] at h
      exact absurd (hB.stamp p hpn) (of_decide_eq_false h)
    refine .next σ _ (fun ch => ?_) hgo hstop
    simp only [step, Scan.compare, if_neg hlater]
    split_ifs <;> rfl
  · -- no item
    have hS' := hS.missed hR hb.symm hn hall
    have hR' : Rep numThreads ((σ.setEmptinessCheck sc.side t b (σ.pointer sc.side b)
        ).setEmptinessCheck sc.side.other t b (σ.pointer sc.side.other b)) g ds q := hR.check _
    obtain ⟨hgo, hstop⟩ := hnext _ _ hR' hS' (by split_ifs <;> rfl) (by split_ifs <;> rfl)
    refine .next _ _ (fun ch => ?_) hgo hstop
    simp only [step, hb]

theorem Scanned.next {checked : Prop} {sc : Scan atomicCounter} {i : ℕ}
    (hS : Scanned numThreads t checked σ g i sc) (j : ℕ) :
    Scanned numThreads t checked σ g i { sc with i := j } := by
  refine ⟨hS.invocationTime, hS.startTime, hS.none, fun h0 => ⟨(hS.some h0).1, ?_⟩, hS.checked⟩
  have hF := (hS.some h0).2
  exact ⟨hF.buffer, hF.stamp, hF.old, hF.taken, hF.window, hF.best⟩

/-- The loop; `m` buffers follow. -/
theorem ends_loop {checked : Prop} {side : Side} (hn : 0 < numThreads)
    (hretry : ∀ m < n, ∀ σ, Rep numThreads σ g ds q →
      EndsUpTo (machine α atomicCounter numThreads) Choice.spurious t
        (Post numThreads q (removeOp side)) m σ (.readStart side σ.clock ()))
    (hagain : ¬ checked → ∀ σ, Rep numThreads σ g ds q → (∀ b < numThreads, Checked σ t b) →
      EndsUpTo (machine α atomicCounter numThreads) Choice.spurious t
        (Post numThreads q (removeOp side)) n σ (.readStart side σ.clock ())) :
    ∀ (m : ℕ) (σ : Shared α atomicCounter) (sc : Scan atomicCounter), sc.i + m + 1 = numThreads →
      sc.side = side → Rep numThreads σ g ds q → Scanned numThreads t checked σ g sc.i sc →
        EndsUpTo (machine α atomicCounter numThreads) Choice.spurious t
          (Post numThreads q (removeOp side)) n σ (.loadTmp sc) := by
  intro m
  induction m with
  | zero =>
    intro σ sc hi hside hR hS
    refine ends_buffer hn hR hS fun σ' sc' hR' hS' hside' hi' => ?_
    have hlast : (nextBuffer numThreads sc' : Local α atomicCounter ⊕ DequeRet α) =
        afterLoop sc' := if_neg (by omega)
    obtain rfl : sc'.side = side := hside'.trans hside
    rw [hlast]
    rw [show sc.i + 1 = numThreads by omega] at hS'
    exact ends_afterLoop hR' hS' (fun m hm => hretry m hm σ' hR')
      fun h hall => hagain h σ' hR' hall
  | succ m ih =>
    intro σ sc hi hside hR hS
    refine ends_buffer hn hR hS fun σ' sc' hR' hS' hside' hi' => ?_
    have hmore : (nextBuffer numThreads sc' : Local α atomicCounter ⊕ DequeRet α) =
        .inl (.loadTmp { sc' with i := sc'.i + 1 }) := if_pos (by omega)
    rw [hmore]
    refine ⟨fun l hl => ?_, fun r hr => by cases hr⟩
    obtain rfl := Sum.inl.inj hl
    refine ih σ' { sc' with i := sc'.i + 1 } (by change sc'.i + 1 + m + 1 = _; omega)
      (hside'.trans hside) hR' ?_
    rw [hi']
    exact hS'.next _

/-- `try_remove_left` and `try_remove_right`; after a loop that only fills the emptiness checks,
the next one finds nothing new. -/
theorem ends_readStart {side : Side} (hn : 0 < numThreads)
    (hretry : ∀ m < n, ∀ σ, Rep numThreads σ g ds q →
      EndsUpTo (machine α atomicCounter numThreads) Choice.spurious t
        (Post numThreads q (removeOp side)) m σ (.readStart side σ.clock ()))
    (hR : Rep numThreads σ g ds q) :
    EndsUpTo (machine α atomicCounter numThreads) Choice.spurious t
      (Post numThreads q (removeOp side)) n σ (.readStart side σ.clock ()) := by
  have hstart : ∀ (checked : Prop) (σ : Shared α atomicCounter) start,
      (checked → ∀ b < numThreads, Checked σ t b) →
        Scanned numThreads t checked σ g 0 (Scan.init side σ.clock σ.clock start) := by
    intro checked σ start hall
    exact ⟨rfl, rfl, fun _ j hj => absurd hj (Nat.not_lt_zero j), fun h => absurd rfl h,
      fun h => ⟨hall h, fun _ => rfl⟩⟩
  have hagain : ∀ σ, Rep numThreads σ g ds q → (∀ b < numThreads, Checked σ t b) →
      EndsUpTo (machine α atomicCounter numThreads) Choice.spurious t
        (Post numThreads q (removeOp side)) n σ (.readStart side σ.clock ()) := by
    intro σ hR hall
    refine .draw (fun ch => rfl) fun ch => ?_
    exact ends_loop hn hretry (fun h => absurd trivial h) (numThreads - 1) σ _
      (by change 0 + _ + 1 = _; omega) rfl hR (hstart True σ _ fun _ => hall)
  refine .draw (fun ch => rfl) fun ch => ?_
  exact ends_loop hn hretry (fun _ => hagain) (numThreads - 1) σ _
    (by change 0 + _ + 1 = _; omega) rfl hR (hstart False σ _ False.elim)

/-- **A remove.** -/
theorem ends_remove (side : Side) (hn : 0 < numThreads) (g : ℕ → Parts) (ds : List ℕ)
    (q : List α) : ∀ (n : ℕ) (σ : Shared α atomicCounter), Rep numThreads σ g ds q →
      EndsUpTo (machine α atomicCounter numThreads) Choice.spurious t
        (Post numThreads q (removeOp side)) n σ (.readStart side σ.clock ()) := by
  intro n
  induction n using Nat.strongRecOn with
  | ind n ih =>
    intro σ hR
    exact ends_readStart hn ih hR

theorem init_rep : Rep numThreads (.init numThreads : Shared α atomicCounter)
    (fun b => ⟨fun _ => [], [sentinel b]⟩) [] [] := by
  have hnodes : ∀ b p, p ∈ (Parts.mk (fun _ => []) [sentinel b]).nodes → p = sentinel b := by
    intro b p hp
    exact List.mem_singleton.mp hp
  refine ⟨fun b hb => ⟨fun s => ?_, fun p hp => ?_, fun s => ?_, fun s p hp => ?_, ?_, ?_,
    fun p hp => ?_, fun p hp => ?_, fun p hp ht => ?_⟩, fun b hb b' hb' p hp hp' => ?_,
    Nat.one_pos, fun p => ⟨fun hp => absurd hp List.not_mem_nil, ?_⟩, List.Pairwise.nil, rfl⟩
  · cases s <;> exact .last rfl
  · obtain rfl := hnodes b p hp
    exact ⟨Nat.succ_ne_zero b, Nat.succ_lt_succ hb⟩
  · cases s <;> exact ⟨[], rfl⟩
  · exact absurd hp List.not_mem_nil
  · exact List.pairwise_singleton _ _
  · exact List.pairwise_singleton _ _
  · exact ⟨show (-1 : ℤ) < 0 by decide, show (0 : ℤ) < 1 by decide⟩
  · exact Nat.one_pos
  · cases ht
  · have := (hnodes b p hp).symm.trans (hnodes b' p hp')
    exact Nat.succ.inj this
  · rintro ⟨b, -, -, ht⟩
    cases ht

/-- The counter does not wrap around. -/
def counterFits (σ : Shared α atomicCounter) : DequeOp α → Bool
  | .insertLeft _ => σ.clock + 1 < wordSize
  | .insertRight _ => σ.clock + 1 < wordSize
  | .removeLeft => true
  | .removeRight => true

/-- **The timestamped deque, used by any threads one call at a time, is a double-ended
queue.** -/
theorem sequential_deque (numThreads : ℕ) :
    SequentialUnless (machine α atomicCounter numThreads) Choice.spurious numThreads counterFits
      dequeSpec := by
  refine sequentialUnless_of_simulation
    (fun σ q => ∃ g ds, Rep numThreads σ g ds q) ⟨_, _, init_rep⟩ ?_
  rintro σ q t ht op n ⟨g, ds, hR⟩ hok
  cases op with
  | insertLeft x => exact ends_insert (s := .left) hR ht (of_decide_eq_true hok)
  | insertRight x => exact ends_insert (s := .right) hR ht (of_decide_eq_true hok)
  | removeLeft =>
    exact .go σ (.readStart .left σ.clock ()) (fun _ => rfl)
      (ends_remove .left (Nat.zero_lt_of_lt ht) g ds q n σ hR)
  | removeRight =>
    exact .go σ (.readStart .right σ.clock ()) (fun _ => rfl)
      (ends_remove .right (Nat.zero_lt_of_lt ht) g ds q n σ hR)

end Calls

end TSDeque

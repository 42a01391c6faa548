/-
The Treiber stack refines an atomic LIFO stack.

* `StackStep` — a step changes the contents only at a successful `cas` on `*top_`,
  which puts the calling push's item on top or removes the first item;
* `Effect` — what a call that returns has done: one push of its item, one removal of
  the item it hands back, or nothing, and if it reports empty then the stack was empty
  at some time during the call;
* `StateInv` — after a `get_return_empty_state` that failed, either the contents have
  not changed since, or the counter of `*top_` is greater than the one it returned;
* `refines_stack` — all three, in every reachable configuration.
-/
import Scal.TreiberStackInvariant

open Interleave

namespace TreiberStack

variable {α : Type} [DecidableEq α] [Inhabited α]

/-- The operation that runs the loop of `pop`. -/
def popOp : Bool → Op α
  | false => .pop
  | true => .getReturnEmptyState

/-- What a thread knows at each point of its call `op`, where `cs` are the changes of
the contents that the call has made. -/
def Local.Knows (t : ℕ) (op : Op α) (cs : List (List α × List α)) (σ : Shared α) (g : Ghost) :
    Local α → Prop
  | .pushNew x => op = .push x ∧ cs = []
  | .pushTop n => ∃ x, op = .push x ∧ cs = [] ∧ Own t n x σ g
  | .pushNext n _ => ∃ x, op = .push x ∧ cs = [] ∧ Own t n x σ g
  | .pushSwing n w =>
    ∃ x, op = .push x ∧ cs = [] ∧ Own t n x σ g ∧ (σ.node n).next.value = w.value
  | .popTop rs => op = popOp rs ∧ cs = []
  | .popNext rs w => op = popOp rs ∧ cs = [] ∧ Pushed w.value σ g
  | .popSwing rs w nx =>
    op = popOp rs ∧ cs = [] ∧ Pushed w.value σ g ∧ (σ.node w.value).next.value = nx
  | .popData rs w =>
    op = popOp rs ∧ Pushed w.value σ g ∧ ∃ q, cs = [((σ.node w.value).data :: q, q)]
  | .readTop => op = .emptyState ∧ cs = []

omit [DecidableEq α] [Inhabited α] in
theorem Local.Knows.rely {t : ℕ} {op : Op α} {cs : List (List α × List α)} {σ σ' : Shared α}
    {g g' : Ghost} {l : Local α} (hl : l.Knows t op cs σ g) (hr : Rely t σ g σ' g') :
    l.Knows t op cs σ' g' := by
  cases l with
  | pushNew x => exact hl
  | pushTop n =>
    obtain ⟨x, hop, hcs, ho⟩ := hl
    exact ⟨x, hop, hcs, (ho.rely hr).1⟩
  | pushNext n w =>
    obtain ⟨x, hop, hcs, ho⟩ := hl
    exact ⟨x, hop, hcs, (ho.rely hr).1⟩
  | pushSwing n w =>
    obtain ⟨x, hop, hcs, ho, hn⟩ := hl
    refine ⟨x, hop, hcs, (ho.rely hr).1, ?_⟩
    rw [(ho.rely hr).2, hn]
  | popTop rs => exact hl
  | popNext rs w =>
    obtain ⟨hop, hcs, hp⟩ := hl
    exact ⟨hop, hcs, (hp.rely hr).1⟩
  | popSwing rs w nx =>
    obtain ⟨hop, hcs, hp, hn⟩ := hl
    refine ⟨hop, hcs, (hp.rely hr).1, ?_⟩
    rw [(hp.rely hr).2, hn]
  | popData rs w =>
    obtain ⟨hop, hp, hq⟩ := hl
    refine ⟨hop, (hp.rely hr).1, ?_⟩
    rw [(hp.rely hr).2]
    exact hq
  | readTop => exact hl

/-- What is known of the word `p` that a failed `get_return_empty_state` stored, where
`ms` are the steps since. -/
def Kept (p : AtomicPointer) (ms : List (Moment (machine α))) (σ : Shared α) : Prop :=
  p.aba < σ.top.aba ∨ (σ.top = p ∧ ∀ m ∈ ms, m.after.contents = m.before.contents)

/-- A step leaves `*top_` and the contents as they are, or increases the counter. -/
def Counted (σ σ' : Shared α) : Prop :=
  (σ'.top = σ.top ∧ σ'.contents = σ.contents) ∨ σ'.top.aba = σ.top.aba + 1

def StateInv (w : World (machine α) Ghost) : Prop :=
  ∀ k t p, w.events[k]? = some (.res t (.popped none (some p))) →
    Kept p (w.trace.drop (k + 1)) w.shared

structure RunInv (w : World (machine α) Ghost) : Prop where
  heap : Inv w.shared w.ghost
  state : StateInv w

/-- The proof outline: every pending call knows what its local state says. -/
def outline (α : Type) [DecidableEq α] [Inhabited α] : Outline (machine α) Ghost where
  inv := RunInv
  loc t f w := ∀ f' ∈ f, f'.id ≤ w.trace.length ∧
    f'.loc.Knows t f'.op (changes Shared.contents w.trace t f'.id) w.shared w.ghost
  rely u w w' := Rely u w.shared w.ghost w'.shared w'.ghost

/-- The change of the contents that an access makes, if any: a successful `cas` on
`*top_` pushes the operation's item, or removes the first item. -/
def StackStep (op : Op α) (l : Local α) (σ σ' : Shared α) : Prop :=
  σ'.contents = σ.contents ∨
    (∃ x, l.pushing = some σ.top ∧ op = .push x ∧ σ'.contents = x :: σ.contents) ∨
    ∃ x rs, l.popping = some σ.top ∧ op = popOp rs ∧ σ.contents = x :: σ'.contents

/-- What a call of `op` that returns `r` has done to the stack, where `cs` are the
changes it made and `emptied` says that the stack was empty at some time. -/
def Effect (cs : List (List α × List α)) (emptied : Prop) : Op α → Ret α → Prop
  | .push x, .pushed ok => ok = true ∧ ∃ q, cs = [(q, x :: q)]
  | .pop, .popped (some x) none => ∃ q, cs = [(x :: q, q)]
  | .pop, .popped none none => cs = [] ∧ emptied
  | .getReturnEmptyState, .popped (some x) (some _) => ∃ q, cs = [(x :: q, q)]
  | .getReturnEmptyState, .popped none (some _) => cs = [] ∧ emptied
  | .emptyState, .state _ => cs = []
  | _, _ => False

/-! ### One access -/

variable {w : World (machine α) Ghost} {t : ℕ} {f : Frame (machine α)}

omit [DecidableEq α] in
/-- A failed `get_return_empty_state` stores the word of `*top_`. -/
theorem StateInv.record (hs : StateInv w) {e : Event (Op α) (Ret α)} {σ : Shared α} {g : Ghost}
    (hc : Counted w.shared σ) (he : ∀ u p, e = .res u (.popped none (some p)) → σ.top = p) :
    StateInv (w.record e σ g) := by
  intro k u p hk
  rw [World.record_events] at hk
  rcases Nat.lt_or_ge k w.events.length with hlt | hge
  · rw [List.getElem?_append_left hlt] at hk
    have hlen : k + 1 ≤ w.trace.length := by
      rw [World.length_events] at hlt
      omega
    have hold := hs k u p hk
    rw [World.record_trace, List.drop_append_of_le_length hlen]
    show Kept p _ σ
    rcases hc with ⟨htop, hcont⟩ | hlt
    · rcases hold with h | ⟨h, hms⟩
      · exact .inl (by rwa [htop])
      · refine .inr ⟨htop.trans h, fun m hm => ?_⟩
        rcases List.mem_append.mp hm with hm | hm
        · exact hms m hm
        · obtain rfl := List.mem_singleton.mp hm
          exact hcont
    · left
      rcases hold with h | ⟨h, -⟩
      · omega
      · rw [← h]
        omega
  · -- the word that was stored just now
    obtain rfl : k = w.events.length := by
      have := (List.getElem?_eq_some_iff.mp hk).choose
      simp at this hge
      simpa using by omega
    rw [List.getElem?_concat_length, Option.some.injEq] at hk
    refine .inr ⟨he u p hk, fun m hm => ?_⟩
    rw [World.record_trace, List.drop_eq_nil_of_le (by simp)] at hm
    cases hm

/-- What is to be shown of every access `a` that the call `f` makes. -/
structure StepOk (w : World (machine α) Ghost) (t : ℕ) (f : Frame (machine α))
    (a : Shared α × (Local α ⊕ Ret α)) : Prop where
  moves : (outline α).Moves w t (Event.ofStep (M := machine α) t a.2) a.1 (f.resume a.2)
  stack : StackStep f.op f.loc w.shared a.1
  effect : ∀ r, a.2 = .inr r → ∀ g,
    Effect (changes Shared.contents (w.record (.res t r) a.1 g).trace t f.id)
      (Since (w.record (.res t r) a.1 g).trace f.id fun σ => σ.contents = []) f.op r

/-- The call goes on at `l`. -/
theorem StepOk.go (hw : RunInv w) (hid : f.id ≤ w.trace.length) {σ : Shared α} {l : Local α}
    {g : Ghost} (hI : Inv σ g) (hr : ∀ u, u ≠ t → Rely u w.shared w.ghost σ g)
    (hc : Counted w.shared σ) (hs : StackStep f.op f.loc w.shared σ)
    (hl : l.Knows t f.op (changes Shared.contents (w.record (.tau t) σ g).trace t f.id) σ g) :
    StepOk w t f (σ, .inl l) := by
  refine ⟨⟨g, ⟨hI, hw.state.record hc (by simp [Event.ofStep])⟩, ?_, hr⟩, hs, by simp⟩
  rintro f' hf'
  obtain rfl : { f with loc := l } = f' := by simpa [Frame.resume] using hf'
  exact ⟨hid.trans (by simp), hl⟩

/-- An access that keeps the contents, after which the call goes on. -/
theorem StepOk.quiet (hw : RunInv w) (hid : f.id ≤ w.trace.length) {σ : Shared α} {l : Local α}
    {g : Ghost} (hI : Inv σ g) (hr : ∀ u, u ≠ t → Rely u w.shared w.ghost σ g)
    (htop : σ.top = w.shared.top) (hcont : σ.contents = w.shared.contents)
    (hl : l.Knows t f.op (changes Shared.contents w.trace t f.id) σ g) :
    StepOk w t f (σ, .inl l) := by
  refine .go hw hid hI hr (.inl ⟨htop, hcont⟩) (.inl hcont) ?_
  rwa [changes_same hid hcont]

/-- An access that only reads, after which the call goes on. -/
theorem StepOk.read (hw : RunInv w) (hid : f.id ≤ w.trace.length) {l : Local α}
    (hl : l.Knows t f.op (changes Shared.contents w.trace t f.id) w.shared w.ghost) :
    StepOk w t f (w.shared, .inl l) :=
  .quiet hw hid hw.heap (fun _ _ => .refl ..) rfl rfl hl

/-- The call returns `r` after an access that only reads. -/
theorem StepOk.answer (hw : RunInv w) (hid : f.id ≤ w.trace.length) {r : Ret α}
    (hr : ∀ p, r = .popped none (some p) → w.shared.top = p)
    (heff : ∀ g, Effect (changes Shared.contents w.trace t f.id)
      (Since (w.record (.res t r) w.shared g).trace f.id fun σ => σ.contents = []) f.op r) :
    StepOk w t f (w.shared, .inr r) := by
  refine ⟨⟨w.ghost, ⟨hw.heap, hw.state.record (.inl ⟨rfl, rfl⟩) ?_⟩, ?_, fun _ _ => .refl ..⟩,
    .inl rfl, ?_⟩
  · rintro u p h
    simp only [Event.ofStep, Event.res.injEq] at h
    exact hr p h.2
  · simp [outline, Frame.resume]
  · rintro r' h g
    obtain rfl : r = r' := by simpa using h
    rw [changes_same hid rfl]
    exact heff g

theorem push_ok (hw : RunInv w) (hid : f.id ≤ w.trace.length) (l : Local α) :
    match l with
    | .pushNew _ | .pushTop _ | .pushNext _ _ | .pushSwing _ _ =>
      f.loc = l → l.Knows t f.op (changes Shared.contents w.trace t f.id) w.shared w.ghost →
        StepOk w t f (step w.shared l)
    | _ => True := by
  cases l with
  | pushNew x =>
    rintro - ⟨hop, hcs⟩
    obtain ⟨hI, hown, hn, hr⟩ := hw.heap.nodeNew t x rfl
    have hcont := hw.heap.contents_congr hI rfl fun n h => by rw [hn n h]
    exact .quiet hw hid hI (fun u _ => hr u) rfl hcont ⟨x, hop, hcs, hown⟩
  | pushTop n =>
    rintro - ⟨x, hop, hcs, hown⟩
    exact .read hw hid ⟨x, hop, hcs, hown⟩
  | pushNext n p =>
    rintro - ⟨x, hop, hcs, hown⟩
    obtain ⟨hI, hown', hnext, hn, hr⟩ := hw.heap.setNext hown p.value
    have hcont := hw.heap.contents_congr hI rfl fun n h => by rw [hn n h]
    exact .quiet hw hid hI hr rfl hcont ⟨x, hop, hcs, hown', hnext⟩
  | pushSwing n p =>
    rintro hloc ⟨x, hop, hcs, hown, hnext⟩
    simp only [step]
    split_ifs with hcas
    · subst hcas
      obtain ⟨hI, -, hcont, hr⟩ := hw.heap.push hown hnext rfl (w.shared.top.aba + 1)
      have hne : Shared.contents { w.shared with top := ⟨n, w.shared.top.aba + 1⟩ } ≠
          w.shared.contents := by
        rw [hcont]
        simp
      refine ⟨⟨_, ⟨hI, hw.state.record (.inr rfl) (by simp [Event.ofStep])⟩, ?_, hr⟩,
        .inr (.inl ⟨x, ?_, hop, hcont⟩), ?_⟩
      · simp [outline, Frame.resume]
      · rw [hloc]
        rfl
      · rintro r h g
        obtain rfl : Ret.pushed true = r := by simpa using h
        rw [changes_own (t := t) hid rfl hne, hcs, hcont, hop]
        exact ⟨rfl, _, rfl⟩
    · exact .read hw hid ⟨x, hop, hcs, hown⟩
  | _ => trivial

theorem pop_ok (hw : RunInv w) (hid : f.id ≤ w.trace.length) (l : Local α) :
    match l with
    | .popTop _ | .popNext _ _ | .popSwing _ _ _ | .popData _ _ =>
      f.loc = l → l.Knows t f.op (changes Shared.contents w.trace t f.id) w.shared w.ghost →
        StepOk w t f (step w.shared l)
    | _ => True := by
  cases l with
  | popTop rs =>
    rintro - ⟨hop, hcs⟩
    simp only [step]
    split_ifs with h0
    · refine .answer hw hid (fun p hp => ?_) fun g => ?_
      · cases rs
        · simp [state] at hp
        · simpa [state] using hp
      · have hempty : Since (w.record (.res t (.popped none (state rs w.shared.top)))
            w.shared g).trace f.id fun σ => σ.contents = [] :=
          since_record hid (hw.heap.contents_eq_nil h0)
        rw [hop]
        cases rs
        · exact ⟨hcs, hempty⟩
        · exact ⟨hcs, hempty⟩
    · exact .read hw hid ⟨hop, hcs, hw.heap.pushed_top h0⟩
  | popNext rs p =>
    rintro - ⟨hop, hcs, hp⟩
    exact .read hw hid ⟨hop, hcs, hp, rfl⟩
  | popSwing rs p nx =>
    rintro hloc ⟨hop, hcs, hp, rfl⟩
    simp only [step]
    split_ifs with hcas
    · subst hcas
      obtain ⟨hI, -, hcont, hr⟩ := hw.heap.pop hp.1 rfl (w.shared.top.aba + 1)
      -- the contents lose their first item, and so they change
      have hne : Shared.contents { w.shared with
          top := ⟨(w.shared.node w.shared.top.value).next.value, w.shared.top.aba + 1⟩ } ≠
          w.shared.contents := by
        rw [hcont]
        simp
      refine .go hw hid hI (fun u _ => hr u) (.inr rfl)
        (.inr (.inr ⟨_, rs, ?_, hop, hcont⟩)) ⟨hop, hp, ?_⟩
      · rw [hloc]
        rfl
      · rw [changes_own (t := t) hid rfl hne, hcs, hcont]
        exact ⟨_, rfl⟩
    · exact .read hw hid ⟨hop, hcs⟩
  | popData rs p =>
    rintro - ⟨hop, -, hq⟩
    refine .answer hw hid (fun p h => by simp at h) fun g => ?_
    rw [hop]
    cases rs
    · exact hq
    · exact hq
  | _ => trivial

theorem access_ok (hw : RunInv w) (hid : f.id ≤ w.trace.length)
    (hk : f.loc.Knows t f.op (changes Shared.contents w.trace t f.id) w.shared w.ghost) :
    StepOk w t f (step w.shared f.loc) := by
  have hpush := push_ok (t := t) hw hid f.loc
  have hpop := pop_ok (t := t) hw hid f.loc
  cases hl : f.loc with
  | pushNew | pushTop | pushNext | pushSwing =>
    rw [hl] at hpush hk
    exact hpush rfl hk
  | popTop | popNext | popSwing | popData =>
    rw [hl] at hpop hk
    exact hpop rfl hk
  | readTop =>
    rw [hl] at hk
    obtain ⟨hop, hcs⟩ := hk
    refine .answer hw hid (fun p h => by simp at h) fun g => ?_
    rw [hop]
    exact hcs

omit [DecidableEq α] [Inhabited α] in
/-- An access that returns a state has just read `*top_`. -/
theorem state_of_step {σ σ' : Shared α} {l : Local α} {p : AtomicPointer}
    (h : step σ l = (σ', .inr (.state p))) : σ.top = p := by
  cases l with
  | readTop =>
    simp only [step, Prod.mk.injEq, Sum.inr.injEq, Ret.state.injEq] at h
    exact h.2
  | pushSwing n w =>
    simp only [step] at h
    split_ifs at h <;> simp at h
  | popTop rs =>
    simp only [step] at h
    split_ifs at h <;> simp at h
  | popSwing rs w nx =>
    simp only [step] at h
    split_ifs at h <;> simp at h
  | _ => simp [step] at h

/-! ### All runs -/

theorem outline_sound : (outline α).Sound always where
  init := by
    refine ⟨⟨[], fun _ => none⟩, ⟨init_inv, fun k t p h => ?_⟩, by simp [outline]⟩
    simp [World.events] at h
  stable := by
    rintro w e σ g t f - - hf he hr f' rfl
    obtain ⟨hid, hk⟩ := hf f' rfl
    refine ⟨hid.trans (by simp), ?_⟩
    rw [changes_other hid he]
    exact hk.rely hr
  call := by
    rintro w t op hw - -
    refine ⟨w.ghost, ⟨hw.heap, hw.state.record (.inl ⟨rfl, rfl⟩) (by simp)⟩, ?_,
      fun _ _ => .refl ..⟩
    rintro f' hf'
    obtain rfl : _ = f' := by simpa using hf'
    refine ⟨by simp, ?_⟩
    rw [changes_same le_rfl rfl, changes_nil le_rfl]
    cases op with
    | push x => exact ⟨rfl, rfl⟩
    | pop => exact ⟨rfl, rfl⟩
    | getReturnEmptyState => exact ⟨rfl, rfl⟩
    | emptyState => exact ⟨rfl, rfl⟩
  run := by
    intro w t f ch σ o hw hf _ hs
    obtain ⟨hid, hk⟩ := hf f rfl
    have hok := (access_ok hw hid hk).moves
    rw [Option.some.inj hs] at hok
    exact hok

/-- **TreiberStack refines an atomic LIFO stack.**  In every reachable configuration a
step changes the contents only as `StackStep` says, a call that returns has done to the
stack what its result says, and an `empty_state` that returns the word of an earlier
failed `get_return_empty_state` does so only if the contents have not changed since. -/
theorem refines_stack {c : Config (machine α)} (hc : Reach (machine α) always c) :
    (∀ a c', c.next a = some c' → c'.shared.contents = c.shared.contents ∨
      ∃ t ch f, a = .run t ch ∧ c.frames t = some f ∧
        StackStep f.op f.loc c.shared c'.shared) ∧
    (∀ t f r c', Returning c t f r c' →
      Effect (changes Shared.contents c'.trace t f.id)
        (Since c'.trace f.id fun σ => σ.contents = []) f.op r) ∧
    ∀ k t p, c.events[k]? = some (.res t (.popped none (some p))) →
      ∀ u f c', Returning c u f (.state p) c' →
        ∀ m ∈ c.trace.drop (k + 1), m.after.contents = m.before.contents := by
  obtain ⟨g, hinv, hloc⟩ := outline_sound.reach hc
  refine ⟨?_, ?_, ?_⟩
  · rintro (⟨t, op⟩ | ⟨t, ch⟩) c' h
    · obtain ⟨-, -, rfl⟩ := Config.next_call h
      exact Or.inl rfl
    · obtain ⟨f, σ, o, hf, hs, rfl⟩ := Config.next_run h
      obtain ⟨hid, hk⟩ := hloc t f hf
      have hok := (access_ok hinv hid hk).stack
      rw [Option.some.inj hs] at hok
      exact Or.inr ⟨t, ch, f, rfl, hf, hok⟩
  · rintro t f r c' ⟨hf, ch, σ, hs, rfl⟩
    obtain ⟨hid, hk⟩ := hloc t f hf
    have hok := (access_ok hinv hid hk).effect
    rw [Option.some.inj hs] at hok
    exact hok r rfl g
  · rintro k t p hk u f c' ⟨hf, ch, σ, hs, -⟩
    have htop := state_of_step (Option.some.inj hs)
    rcases hinv.state k t p hk with hlt | ⟨-, hms⟩
    · exact absurd htop fun h => by simp [h] at hlt
    · exact hms

/-- The stack is empty again after a push and a pop, and `*top_` is a later word. -/
def emptiedAgain : List (Action (machine ℕ)) :=
  List.flatten [[.call 1 .getReturnEmptyState], turns 1 () 1, [.call 0 (.push 5)], turns 0 () 4,
    [.call 1 .pop], turns 1 () 4, [.call 2 .emptyState]]

theorem refines_stack_emptiedAgain :
    ∃ c : Config (machine ℕ), c.shared.contents = [] ∧ c.shared.top = ⟨0, 2⟩ ∧
      (∀ t f r c', Returning c t f r c' →
        Effect (changes Shared.contents c'.trace t f.id)
          (Since c'.trace f.id fun σ => σ.contents = []) f.op r) ∧
      ∀ k t p, c.events[k]? = some (.res t (.popped none (some p))) →
        ∀ u f c', Returning c u f (.state p) c' →
          ∀ m ∈ c.trace.drop (k + 1), m.after.contents = m.before.contents := by
  have h : ((Config.init (machine ℕ)).exec always emptiedAgain).isSome = true := by decide
  exact ⟨((Config.init (machine ℕ)).exec always emptiedAgain).get h, rfl, rfl,
    (refines_stack (Reach.schedule emptiedAgain h)).2⟩

end TreiberStack

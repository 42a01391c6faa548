/-
The approximate size of the Michael–Scott queue (`approx_size` in `datastructures/ms_queue.h`).

The counters of `head_` and `tail_` are positions in the chain, and the size is their
difference.  Tail lags behind the end of the chain only while the call that linked the last
node is about to move it.  Between the two reads of `approx_size` head may overtake the tail
that was read; then the unsigned difference wraps around.

* `Makes` — every node but the sentinel was allocated by an enqueue of its own;
* `Lags` — who is about to move tail;
* `Reads` — what `approx_size` has read;
* `approxSize_bound_iff` — the size is bounded by the number of enqueues where head does not
  overtake the tail that was read, and exact if the call is alone.
-/
import Scal.MSQueueRefinement

open Interleave

namespace MSQueue

variable {α : Type}

/-- The call has yet to allocate its node. -/
def Local.allocates : Local α → Bool
  | .enqNew _ => true
  | .tryEnqNext _ _ => true
  | .tryEnqCheck _ _ _ => true
  | .tryEnqNew _ _ _ => true
  | _ => false

/-- The next access is a `cas` that moves `tail_` from this word to the node that the call
linked. -/
def Local.swinging : Local α → Option AtomicPointer
  | .enqSwing _ _ tailOld => some tailOld
  | .tryEnqSwing _ _ tailOld => some tailOld
  | _ => none

/-- Tail is not at the end of the chain. -/
def Lagging (σ : Shared α) : Prop := (σ.node σ.tail.value).next.value ≠ 0

/-- `approx_size` reads a head that is not past the tail it read before. -/
def notOvertaken (_ : ℕ) (σ : Shared α) : Local α → Bool
  | .sizeHead tailOld => σ.head.aba ≤ tailOld.aba
  | _ => true

/-- An invocation of an operation that may append an item. -/
def isEnqueue : Event (Op α) (Ret α) → Bool
  | .inv _ op => op.item.isSome
  | _ => false

/-! ### One access -/

/-- What an access may change: only calls that have a node to allocate do so, only a call that
is about to move tail may link a node, and only to its tail. -/
inductive Change (σ : Shared α) (l : Local α) : Shared α × (Local α ⊕ Ret α) → Prop
  | read {o : Local α ⊕ Ret α} : l.swinging ≠ some σ.tail →
      (∀ l', o = .inl l' → l'.allocates = true → l.allocates = true) → Change σ l (σ, o)
  | take {w : AtomicPointer} {r : Ret α} : l.swinging = none →
      Change σ l ({ σ with head := w }, .inr r)
  | alloc {x : α} {l' : Local α} : l.swinging = none → l.allocates = true →
      l'.allocates = false → Change σ l (σ.nodeNew x, .inl l')
  | link {w tl : AtomicPointer} {l' : Local α} : l.swinging = none → .tailRead tl ∈ l.facts →
      l'.swinging = some tl → l'.allocates = false → Change σ l (σ.setNext tl.value w, .inl l')
  | swing {n : ℕ} {o : Local α ⊕ Ret α} : .link (σ.tail.aba + 1) n ∈ l.facts →
      (∀ l', o = .inl l' → l'.allocates = false) →
      Change σ l ({ σ with tail := ⟨n, σ.tail.aba + 1⟩ }, o)

section Step

variable {σ : Shared α}

theorem Change.stay {l l' : Local α} (hs : l.swinging = none)
    (ha : l'.allocates = true → l.allocates = true) : Change σ l (σ, .inl l') :=
  .read (by rw [hs]; exact Option.some_ne_none _ ∘ Eq.symm) fun _ h => Sum.inl.inj h ▸ ha

theorem Change.answer {l : Local α} {r : Ret α} (hs : l.swinging ≠ some σ.tail) :
    Change σ l (σ, .inr r) :=
  .read hs fun _ h => by cases h

theorem Change.stop {l : Local α} {r : Ret α} (hs : l.swinging = none) :
    Change σ l (σ, .inr r) :=
  .answer (by rw [hs]; exact Option.some_ne_none _ ∘ Eq.symm)

theorem step_change (σ : Shared α) (l : Local α) : Change σ l (step σ l) := by
  cases l with
  | enqNew x => exact .alloc rfl rfl rfl
  | enqCheck x n tl nx =>
    simp only [step]
    split_ifs
    · exact .stay rfl id
    · exact .stay rfl id
    · exact .stay rfl id
  | enqLink x n tl nx =>
    simp only [step]
    split_ifs
    · exact .link rfl (by simp [Local.facts]) rfl rfl
    · exact .stay rfl id
  | enqHelp x n tl nx =>
    simp only [step]
    split_ifs with h
    · subst h
      exact .swing (by simp [Local.facts]) (by rintro _ ⟨⟩; rfl)
    · exact .stay rfl id
  | enqSwing x n tl =>
    simp only [step]
    split_ifs with h
    · subst h
      exact .swing (by simp [Local.facts]) (by rintro _ ⟨⟩)
    · exact .answer fun he => h (Option.some.inj he).symm
  | deqCheck rt hd tl nx =>
    simp only [step]
    split_ifs
    · exact .stop rfl
    · exact .stay rfl id
    · exact .stay rfl id
    · exact .stay rfl id
  | deqHelp rt tl nx =>
    simp only [step]
    split_ifs with h
    · subst h
      exact .swing (by simp [Local.facts]) (by rintro _ ⟨⟩; rfl)
    · exact .stay rfl id
  | deqSwing rt hd tl nx x =>
    simp only [step]
    split_ifs
    · exact .take rfl
    · exact .stay rfl id
  | tryEnqCheck x tl nx =>
    simp only [step]
    split_ifs
    · exact .stay rfl id
    · exact .stay rfl (fun _ => rfl)
    · exact .stop rfl
  | tryEnqNew x tl nx => exact .alloc rfl rfl rfl
  | tryEnqLink x n tl nx =>
    simp only [step]
    split_ifs
    · exact .link rfl (by simp [Local.facts]) rfl rfl
    · exact .stop rfl
  | tryEnqSwing x n tl =>
    simp only [step]
    split_ifs with h
    · subst h
      exact .swing (by simp [Local.facts]) (by rintro _ ⟨⟩)
    · exact .answer fun he => h (Option.some.inj he).symm
  | tryEnqHelp tl nx =>
    simp only [step]
    split_ifs with h
    · subst h
      exact .swing (by simp [Local.facts]) (by rintro _ ⟨⟩)
    · exact .stop rfl
  | tryDeqCheck hd tl nx =>
    simp only [step]
    split_ifs
    · exact .stop rfl
    · exact .stay rfl id
    · exact .stay rfl id
    · exact .stop rfl
  | tryDeqHelp tl nx =>
    simp only [step]
    split_ifs with h
    · subst h
      exact .swing (by simp [Local.facts]) (by rintro _ ⟨⟩)
    · exact .stop rfl
  | tryDeqSwing hd tl nx x =>
    simp only [step]
    split_ifs
    · exact .take rfl
    · exact .stop rfl
  | readHead => exact .stop rfl
  | readTail => exact .stop rfl
  | sizeHead tl => exact .stop rfl
  | _ => exact .stay rfl id

theorem Change.tail_le {l : Local α} {p : Shared α × (Local α ⊕ Ret α)}
    (h : Change σ l p) : σ.tail.aba ≤ p.1.tail.aba := by
  cases h with
  | swing _ _ => exact Nat.le_succ _
  | _ => exact le_rfl

theorem step_sizeHead {σ' : Shared α} {l : Local α} {w : AtomicPointer}
    (h : step σ l = (σ', .inl (.sizeHead w))) : σ' = σ ∧ w = σ.tail := by
  cases l with
  | sizeTail =>
    cases h
    exact ⟨rfl, rfl⟩
  | _ =>
    exfalso
    revert h
    simp only [step]
    repeat' split
    all_goals exact fun h => by cases h

theorem start_ne_sizeHead {op : Op α} {w : AtomicPointer} : start op ≠ .sizeHead w := by
  cases op with
  | _ => exact fun h => by cases h

/-- `approx_size` returns the difference of the tail it read and of head now. -/
theorem step_size {σ' : Shared α} {l : Local α} {n : ℕ}
    (h : step σ l = (σ', .inr (.size n))) : ∃ tailOld, l = .sizeHead tailOld ∧
      n = (tailOld.aba + wordSize - σ.head.aba) % wordSize := by
  cases l with
  | sizeHead tailOld =>
    cases h
    exact ⟨tailOld, rfl, rfl⟩
  | _ =>
    exfalso
    revert h
    simp only [step]
    repeat' split
    all_goals exact fun h => by cases h

end Step

/-! ### Whole runs -/

section Runs

variable [DecidableEq α] [Inhabited α] {c : Config (machine α)}
  {ok : ℕ → Shared α → Local α → Bool}

/-- The nodes but the sentinel were allocated by the calls `makers`, each of them one. -/
structure Makes (c : Config (machine α)) (makers : List ℕ) : Prop where
  alloc : c.shared.alloc = makers.length + 2
  nodup : makers.Nodup
  enqueue : ∀ i ∈ makers, ∃ e, c.events[i]? = some e ∧ isEnqueue e = true
  fresh : ∀ t f, c.frames t = some f → f.loc.allocates = true →
    f.op.item.isSome = true ∧ f.id ∉ makers

theorem Makes.enqueue_append {makers : List ℕ} (hm : Makes c makers)
    (e : Event (Op α) (Ret α)) {i : ℕ} (hi : i ∈ makers) :
    ∃ e', (c.events ++ [e])[i]? = some e' ∧ isEnqueue e' = true := by
  obtain ⟨e', he, hp⟩ := hm.enqueue i hi
  refine ⟨e', ?_, hp⟩
  rw [List.getElem?_append_left (List.getElem?_eq_some_iff.mp he).1, he]

/-- An access that allocates nothing. -/
theorem Makes.same {makers : List ℕ} (hm : Makes c makers) {t : ℕ} {f : Frame (machine α)}
    (hf : c.frames t = some f) {σ : Shared α} {o : Local α ⊕ Ret α}
    (hσ : σ.alloc = c.shared.alloc)
    (ho : ∀ l', o = .inl l' → l'.allocates = true → f.loc.allocates = true) :
    Makes (c.record t (.ofStep (M := machine α) t o) σ (f.resume o)) makers := by
  refine ⟨hσ.trans hm.alloc, hm.nodup, fun i hi => ?_, fun u fu hu ha => ?_⟩
  · rw [Config.record_events]
    exact hm.enqueue_append _ hi
  · by_cases hut : u = t
    · subst hut
      rw [Config.record_self] at hu
      cases o with
      | inl l' =>
        cases hu
        exact hm.fresh u f hf (ho l' rfl ha)
      | inr r => cases hu
    · rw [Config.record_other c hut] at hu
      exact hm.fresh u fu hu ha

theorem makes_reach (hc : Reach (machine α) ok c) : ∃ makers, Makes c makers := by
  induction hc with
  | init => exact ⟨[], ⟨rfl, List.nodup_nil, fun i hi => (by cases hi), fun t f hf => by cases hf⟩⟩
  | @call c c' t op _ h ih =>
    obtain ⟨makers, hm⟩ := ih
    obtain ⟨-, -, rfl⟩ := Config.next_call h
    refine ⟨makers, hm.alloc, hm.nodup, fun i hi => ?_, fun u fu hu ha => ?_⟩
    · rw [Config.record_events]
      exact hm.enqueue_append _ hi
    · by_cases hut : u = t
      · subst hut
        rw [Config.record_self] at hu
        cases hu
        refine ⟨?_, fun hmem => ?_⟩
        · cases op with
          | enqueue x => rfl
          | tryEnqueue x tl => rfl
          | _ => cases ha
        · obtain ⟨e, he, -⟩ := hm.enqueue _ hmem
          have hlt := (List.getElem?_eq_some_iff.mp he).1
          rw [Config.events, List.length_map] at hlt
          exact Nat.lt_irrefl _ hlt
      · rw [Config.record_other c hut] at hu
        exact hm.fresh u fu hu ha
  | @run c c' t ch f hc hf _ h ih =>
    obtain ⟨makers, hm⟩ := ih
    obtain ⟨f', σ, o, hf', hs, rfl⟩ := Config.next_run h
    obtain rfl : f = f' := Option.some.inj (hf.symm.trans hf')
    have hchange := step_change c.shared f.loc
    rw [Option.some.inj hs] at hchange
    cases hchange with
    | read _ ho => exact ⟨makers, hm.same hf rfl ho⟩
    | take _ => exact ⟨makers, hm.same hf rfl fun _ h => by cases h⟩
    | link _ _ _ ho =>
      refine ⟨makers, hm.same hf rfl fun l h ha => ?_⟩
      cases h
      rw [ho] at ha
      cases ha
    | swing _ ho =>
      refine ⟨makers, hm.same hf rfl fun l h ha => ?_⟩
      rw [ho l h] at ha
      cases ha
    | @alloc x l' _ ha hl' =>
      obtain ⟨hitem, hnew⟩ := hm.fresh t f hf ha
      have hinv := hc.invoked hf
      refine ⟨makers ++ [f.id], ?_, ?_, fun i hi => ?_, fun u fu hu hau => ?_⟩
      · show c.shared.alloc + 1 = (makers ++ [f.id]).length + 2
        rw [hm.alloc, List.length_append, List.length_singleton, Nat.add_right_comm]
      · refine List.nodup_append.mpr ⟨hm.nodup, List.nodup_singleton _, fun a ha b hb => ?_⟩
        rw [List.mem_singleton.mp hb]
        rintro rfl
        exact hnew ha
      · rw [Config.record_events]
        rcases List.mem_append.mp hi with hi | hi
        · exact hm.enqueue_append _ hi
        · rw [List.mem_singleton.mp hi]
          refine ⟨.inv t f.op, ?_, hitem⟩
          rw [List.getElem?_append_left (List.getElem?_eq_some_iff.mp hinv).1, hinv]
      · by_cases hut : u = t
        · subst hut
          rw [Config.record_self] at hu
          cases hu
          rw [hl'] at hau
          cases hau
        · rw [Config.record_other c hut] at hu
          obtain ⟨hi, hn⟩ := hm.fresh u fu hu hau
          refine ⟨hi, fun hmem => ?_⟩
          rcases List.mem_append.mp hmem with hmem | hmem
          · exact hn hmem
          · -- the two calls have different threads
            have hinv' := hc.invoked hu
            rw [List.mem_singleton.mp hmem, hinv] at hinv'
            exact hut (Event.inv.inj (Option.some.inj hinv')).1.symm

/-- Counting the positions. -/
theorem countP_range {β : Type} (p : β → Bool) : ∀ l : List β,
    (List.range l.length).countP (fun i => (l[i]?).any p) = l.countP p := by
  intro l
  induction l with
  | nil => rfl
  | cons a l ih =>
    rw [List.length_cons, List.range_succ_eq_map, List.countP_cons, List.countP_map,
      List.countP_cons, ← ih]
    rfl

/-- There are at most as many nodes as enqueues were invoked. -/
theorem length_makers_le {makers : List ℕ} (hm : Makes c makers) :
    makers.length ≤ c.events.countP isEnqueue := by
  have hsub : makers ⊆ (List.range c.events.length).filter fun i =>
      (c.events[i]?).any isEnqueue := by
    intro i hi
    obtain ⟨e, he, hp⟩ := hm.enqueue i hi
    rw [List.mem_filter, List.mem_range, he]
    exact ⟨(List.getElem?_eq_some_iff.mp he).1, hp⟩
  have hle := (List.subperm_of_subset hm.nodup hsub).length_le
  rwa [← List.countP_eq_length_filter, countP_range] at hle

/-- Where tail is not at the end, the call that linked the last node is about to move it. -/
def Lags (c : Config (machine α)) : Prop :=
  Lagging c.shared → ∃ t f, c.frames t = some f ∧ f.loc.swinging = some c.shared.tail

theorem lags_reach (hc : Reach (machine α) ok c) : Lags c := by
  induction hc with
  | init => exact fun h => absurd rfl h
  | @call c c' t op _ h ih =>
    obtain ⟨hnone, -, rfl⟩ := Config.next_call h
    intro hlag
    obtain ⟨u, f, hf, hs⟩ := ih hlag
    have hut : u ≠ t := by
      rintro rfl
      rw [hnone] at hf
      cases hf
    exact ⟨u, f, (Config.record_other c hut ..).trans hf, hs⟩
  | @run c c' t ch f hc hf _ h ih =>
    obtain ⟨f', σ, o, hf', hs, rfl⟩ := Config.next_run h
    obtain rfl : f = f' := Option.some.inj (hf.symm.trans hf')
    obtain ⟨g, hinv, hloc⟩ := outline_sound.reach hc.weaken
    have hknows := hloc t f hf
    have hchange := step_change c.shared f.loc
    rw [Option.some.inj hs] at hchange
    -- another call moves tail, if one was to do so before
    have hother : f.loc.swinging ≠ some c.shared.tail → Lagging c.shared →
        ∃ u fu, (c.record t (.ofStep (M := machine α) t o) σ (f.resume o)).frames u = some fu ∧
          fu.loc.swinging = some c.shared.tail := by
      intro hne hlag
      obtain ⟨u, fu, hu, hsu⟩ := ih hlag
      have hut : u ≠ t := by
        rintro rfl
        obtain rfl := Option.some.inj (hf.symm.trans hu)
        exact hne hsu
      exact ⟨u, fu, (Config.record_other c hut ..).trans hu, hsu⟩
    intro hlag
    cases hchange with
    | read hne _ => exact hother hne hlag
    | take hne => exact hother (by rw [hne]; exact Option.some_ne_none _ ∘ Eq.symm) hlag
    | @alloc x _ hne _ _ =>
      have hlt : c.shared.tail.value < c.shared.alloc := hinv.heap.chain.lt_alloc hinv.heap.tail
      refine hother (by rw [hne]; exact Option.some_ne_none _ ∘ Eq.symm) ?_
      have hnode : (c.shared.nodeNew x).node c.shared.tail.value =
          c.shared.node c.shared.tail.value := Function.update_of_ne (Nat.ne_of_lt hlt) ..
      intro h0
      exact hlag ((congrArg (fun n => n.next.value) hnode).trans h0)
    | @link w tl l' hne hfact hl' _ =>
      have htl := hknows.facts.mem hfact
      by_cases hv : tl.value = c.shared.tail.value
      · -- the last node was linked to tail's
        have haba := hinv.heap.chain.pos_unique htl.1 (hv ▸ hinv.heap.tail)
        refine ⟨t, { f with loc := l' }, Config.record_self .., hl'.trans ?_⟩
        show some tl = some c.shared.tail
        rw [← show AtomicValue.mk tl.value tl.aba = tl from rfl, hv, haba]
      · refine hother (by rw [hne]; exact Option.some_ne_none _ ∘ Eq.symm) ?_
        have hnode : (c.shared.setNext tl.value w).node c.shared.tail.value =
            c.shared.node c.shared.tail.value := Function.update_of_ne (Ne.symm hv) ..
        intro h0
        exact hlag ((congrArg (fun n => n.next.value) hnode).trans h0)
    | @swing n _ hfact _ =>
      -- tail lags by one node at most
      have hn : g.chain[c.shared.tail.aba + 1]? = some n := hknows.facts.mem hfact
      have hlt := Chain.lt_length hn
      have hle : g.chain.length ≤ c.shared.tail.aba + 2 := hinv.heap.lag
      exact absurd ((hinv.heap.chain.next_eq_zero hn).mpr (Nat.le_antisymm hlt hle)) hlag

/-- What a call of `approx_size` has read: a tail that is not ahead, and that is still the same
if no other thread made a step since the call. -/
def Reads (c : Config (machine α)) : Prop :=
  ∀ t f tailOld, c.frames t = some f → f.loc = .sizeHead tailOld →
    tailOld.aba ≤ c.shared.tail.aba ∧
      ((∀ m ∈ c.trace.drop f.id, m.event.thread = t) → tailOld = c.shared.tail)

/-- After a step of thread `t`, another thread's call is no longer the only one. -/
theorem exists_mem_drop (hc : Reach (machine α) ok c) {t u : ℕ} {f : Frame (machine α)}
    (hf : c.frames u = some f) (hut : u ≠ t) {e : Event (Op α) (Ret α)} (he : e.thread = t)
    (σ : Shared α) (f' : Option (Frame (machine α))) :
    ¬ ∀ m ∈ (c.record t e σ f').trace.drop f.id, m.event.thread = u := by
  have hlt := (List.getElem?_eq_some_iff.mp (hc.invoked hf)).1
  rw [Config.events, List.length_map] at hlt
  intro hall
  have := hall ⟨e, c.shared, σ⟩ (by
    rw [Config.record, List.drop_append_of_le_length (Nat.le_of_lt hlt)]
    exact List.mem_append_right _ (List.mem_singleton_self _))
  exact hut (this.symm.trans he)

theorem reads_reach (hc : Reach (machine α) ok c) : Reads c := by
  induction hc with
  | init => exact fun t f w hf => by cases hf
  | @call c c' t op hc h ih =>
    obtain ⟨-, -, rfl⟩ := Config.next_call h
    intro u f w hu hl
    by_cases hut : u = t
    · subst hut
      rw [Config.record_self] at hu
      cases hu
      exact absurd hl start_ne_sizeHead
    · rw [Config.record_other c hut] at hu
      exact ⟨(ih u f w hu hl).1, fun hall => absurd hall (exists_mem_drop hc hu hut rfl _ _)⟩
  | @run c c' t ch f hc hf _ h ih =>
    obtain ⟨f', σ, o, hf', hs, rfl⟩ := Config.next_run h
    obtain rfl : f = f' := Option.some.inj (hf.symm.trans hf')
    have hstep : step c.shared f.loc = (σ, o) := Option.some.inj hs
    intro u fu w hu hl
    by_cases hut : u = t
    · subst hut
      rw [Config.record_self] at hu
      cases o with
      | inl l =>
        cases hu
        dsimp only at hl
        subst hl
        obtain ⟨rfl, rfl⟩ := step_sizeHead hstep
        exact ⟨le_rfl, fun _ => rfl⟩
      | inr r => cases hu
    · rw [Config.record_other c hut] at hu
      have hle := (step_change c.shared f.loc).tail_le
      rw [hstep] at hle
      exact ⟨(ih u fu w hu hl).1.trans hle,
        fun hall => absurd hall (exists_mem_drop hc hu hut (Event.ofStep_thread t o) _ _)⟩

/-- No call of another thread is in progress during the call `f`. -/
def Alone (c : Config (machine α)) (t : ℕ) (f : Frame (machine α)) : Prop :=
  (∀ u, u ≠ t → c.frames u = none) ∧ ∀ m ∈ c.trace.drop f.id, m.event.thread = t

/-- **The approximate size** is at most the number of enqueues invoked if head does not overtake
the tail that was read, and only then as long as this number is below `2 ^ 63`.  It is exact if
no other call is in progress. -/
theorem approxSize_bound_iff (hc : Reach (machine α) always c) {t : ℕ} {f : Frame (machine α)}
    {n : ℕ} {c' : Config (machine α)} (hr : Returning c t f (.size n) c') :
    (notOvertaken t c.shared f.loc = true → n ≤ c.events.countP isEnqueue) ∧
    (2 * c.events.countP isEnqueue < wordSize → n ≤ c.events.countP isEnqueue →
      notOvertaken t c.shared f.loc = true) ∧
    (c.shared.tail.aba < wordSize → Alone c t f → n = c.shared.queue.length) := by
  obtain ⟨hf, ch, σ, hs, -⟩ := hr
  obtain ⟨tailOld, hl, rfl⟩ := step_size (Option.some.inj hs)
  obtain ⟨g, hinv, -⟩ := outline_sound.reach hc
  obtain ⟨makers, hm⟩ := makes_reach hc
  obtain ⟨hle, hsame⟩ := reads_reach hc t f tailOld hf hl
  have htail : c.shared.tail.aba < g.chain.length := Chain.lt_length hinv.heap.tail
  have hhead : c.shared.head.aba ≤ c.shared.tail.aba := hinv.heap.head_le
  have hcount : c.shared.tail.aba ≤ c.events.countP isEnqueue := by
    have hlength : g.chain.length + 1 ≤ c.shared.alloc := by
      refine length_le_of_nodup (l := 0 :: g.chain) ?_ fun m hm => ?_
      · exact List.nodup_cons.mpr ⟨fun h => (hinv.heap.chain.bound 0 h).1 rfl,
          hinv.heap.chain.nodup⟩
      · rcases List.mem_cons.mp hm with rfl | hm
        · exact Nat.pos_of_ne_zero hinv.heap.chain.alloc
        · exact (hinv.heap.chain.bound m hm).2
    have halloc := hm.alloc
    have hmakers := length_makers_le hm
    omega
  rw [hl, notOvertaken, decide_eq_true_iff]
  refine ⟨fun hok => ?_, fun hsmall hn => ?_, fun hwrap halone => ?_⟩
  · have hdiff : tailOld.aba + wordSize - c.shared.head.aba =
        tailOld.aba - c.shared.head.aba + wordSize := by omega
    rw [hdiff, Nat.add_mod_right]
    have := Nat.mod_le (tailOld.aba - c.shared.head.aba) wordSize
    omega
  · -- otherwise the difference wraps around
    by_contra hok
    rw [Nat.mod_eq_of_lt (by omega)] at hn
    omega
  · obtain rfl := hsame halone.2
    -- no call is about to move tail, so it is at the end
    have hend : c.shared.tail.aba + 1 = g.chain.length := by
      refine (hinv.heap.chain.next_eq_zero hinv.heap.tail).mp ?_
      by_contra hlag
      obtain ⟨u, fu, hu, hs⟩ := lags_reach hc hlag
      by_cases hut : u = t
      · subst hut
        obtain rfl := Option.some.inj (hf.symm.trans hu)
        rw [hl] at hs
        cases hs
      · rw [halone.1 u hut] at hu
        cases hu
    have hqueue : c.shared.queue.length = c.shared.tail.aba - c.shared.head.aba := by
      have hq : c.shared.queue = _ := hinv.heap.queue_eq
      rw [hq, List.length_map, List.length_drop]
      show g.chain.length - (c.shared.head.aba + 1) = _
      omega
    have hdiff : c.shared.tail.aba + wordSize - c.shared.head.aba =
        c.shared.tail.aba - c.shared.head.aba + wordSize := by omega
    rw [hqueue, hdiff, Nat.add_mod_right, Nat.mod_eq_of_lt (by omega)]

end Runs

/-- A call of `approx_size` after an enqueue. -/
def sizeOfOne : List (Action (machine ℕ)) :=
  [.call 1 (.enqueue 5)] ++ turns 1 () 6 ++ [.call 0 .approxSize] ++ turns 0 () 1

theorem approxSize_bound_iff_one : ∃ (c c' : Config (machine ℕ)) (f : Frame (machine ℕ)),
    Returning c 0 f (.size 1) c' ∧
      (notOvertaken 0 c.shared f.loc = true → 1 ≤ c.events.countP isEnqueue) ∧
      (2 * c.events.countP isEnqueue < wordSize → 1 ≤ c.events.countP isEnqueue →
        notOvertaken 0 c.shared f.loc = true) ∧
      (c.shared.tail.aba < wordSize → Alone c 0 f → 1 = c.shared.queue.length) := by
  obtain ⟨c, hc, h⟩ := Reach.exists_of_any always sizeOfOne
    (fun c => nextResult c 0 () = some (.size 1)) (by decide +kernel)
  obtain ⟨f, c', hr⟩ := returning_nextResult (of_decide_eq_true h)
  exact ⟨c, c', f, hr, approxSize_bound_iff hc hr⟩

/-- Thread `0` reads tail, thread `1` enqueues and dequeues, thread `0` is about to read head. -/
def overtaking : List (Action (machine ℕ)) :=
  [.call 0 .approxSize] ++ turns 0 () 1 ++ [.call 1 (.enqueue 5)] ++ turns 1 () 6 ++
    [.call 1 .dequeue] ++ turns 1 () 6

/-- **The size wraps around** after one enqueue. -/
theorem approxSize_wraps : ∃ (c c' : Config (machine ℕ)) (f : Frame (machine ℕ)),
    Reach (machine ℕ) always c ∧ Returning c 0 f (.size (wordSize - 1)) c' ∧
      ¬ wordSize - 1 ≤ c.events.countP isEnqueue := by
  obtain ⟨c, hc, h⟩ := Reach.exists_of_any always overtaking
    (fun c => nextResult c 0 () = some (.size (wordSize - 1)) ∧ c.events.countP isEnqueue = 1)
    (by decide +kernel)
  obtain ⟨hn, hcount⟩ := of_decide_eq_true h
  obtain ⟨f, c', hr⟩ := returning_nextResult hn
  exact ⟨c, c', f, hc, hr, by rw [hcount]; decide⟩

end MSQueue

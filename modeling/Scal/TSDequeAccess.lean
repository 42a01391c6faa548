/-
Every access to the timestamped deque keeps what is known of the buffers.

* `StepOk` — what is to be shown of an access: the invariant, what the other threads rely on,
  what the thread knows next, and what has become of the bag (`Effect`);
* `insert_ok`, `search_ok`, `remove_ok` — the accesses of an insert, of the search in a buffer,
  and of what follows it;
* `access_ok` — all of them, if the access is `unmissed`.
-/
import Scal.TSDequeInserts
import Scal.TSDequeRemoves

open Interleave Linearizability

namespace TSDeque

variable {α : Type} {T : TimeStamp} {n : ℕ}

/-- The item at an address, if a buffer has it. -/
def itemAt (σ : Shared α T) (g : Ghost) (p : ℕ) : Option α :=
  if (g.home p).isSome = true ∧ (σ.item p).taken = false then (σ.item p).data else none

/-- How far a call has got. -/
inductive Phase (α : Type) where
  | putting (element : α)
  | holding (p : ℕ)
  | linking (p : ℕ)
  | inserted
  | getting
  | taken (p : ℕ)

def Local.phase : Local α T → Phase α
  | .newItem _ x => .putting x
  | .loadOld _ p => .holding p
  | .endLink _ p _ _ => .holding p
  | .endTaken _ p _ _ => .holding p
  | .endStep _ p _ _ => .holding p
  | .checkEnd _ p _ _ => .holding p
  | .loadOther _ p _ _ => .holding p
  | .storeOther _ p _ _ _ => .holding p
  | .linkNew _ p _ _ => .holding p
  | .linkEnd _ p _ _ => .holding p
  | .storePointer _ p _ => .linking p
  | .setTimestamp _ _ => .inserted
  | .swapPointer s => .taken s.result
  | .loadData s => .taken s.result
  | _ => .getting

/-- What an access of thread `t` does to the bag, and to its call. -/
inductive Effect (t : ℕ) (σ : Shared α T) (g : Ghost) (σ' : Shared α T) (g' : Ghost) :
    Local α T → Local α T ⊕ DequeRet α → Prop
  | go {l l' : Local α T} : l'.phase = l.phase → itemAt σ' g' = itemAt σ g → g'.fresh = g.fresh →
      (g'.saw t = true → g.saw t = true ∨ ∀ p, itemAt σ g p = none) →
      Effect t σ g σ' g' l (.inl l')
  | alloc {s : Side} {x : α} {p : ℕ} : p < σ'.alloc → (σ'.item p).data = some x →
      itemAt σ' g' = itemAt σ g → g'.fresh = g.fresh →
      Effect t σ g σ' g' (.newItem s x) (.inl (.loadOld s p))
  | link {s : Side} {p new : ℕ} {old : TaggedPointer} : itemAt σ' g' = itemAt σ g →
      g'.fresh = Function.update g.fresh t (some new) →
      Effect t σ g σ' g' (.linkEnd s new old p) (.inl (.storePointer s new old))
  | put {s : Side} {new : ℕ} {old : TaggedPointer} : g.home new = none →
      itemAt σ' g' = Function.update (itemAt σ g) new (σ.item new).data →
      g'.fresh = Function.update g.fresh t none →
      Effect t σ g σ' g' (.storePointer s new old)
        (.inl (.setTimestamp new (T.setTimestamp t)))
  | putTaken {s : Side} {new : ℕ} {old : TaggedPointer} : g.home new = some t →
      itemAt σ' g' = itemAt σ g → g'.fresh = Function.update g.fresh t none →
      Effect t σ g σ' g' (.storePointer s new old)
        (.inl (.setTimestamp new (T.setTimestamp t)))
  | take {l : Local α T} {s : Scan T} {b : ℕ} : l.phase = .getting → s.result < σ.alloc →
      (σ.item s.result).data.isSome = true → g.home s.result = some b →
      itemAt σ g s.result = (σ.item s.result).data →
      itemAt σ' g' = Function.update (itemAt σ g) s.result none → g'.fresh = g.fresh →
      Effect t σ g σ' g' l (.inl (.swapPointer s))
  | takeFresh {l : Local α T} {s : Scan T} {b : ℕ} : l.phase = .getting → b ≠ t →
      s.result < σ.alloc → (σ.item s.result).data.isSome = true → g.fresh b = some s.result →
      g'.home s.result = some b → itemAt σ g s.result = none → itemAt σ' g' = itemAt σ g →
      g'.fresh = Function.update g.fresh b none → Effect t σ g σ' g' l (.inl (.swapPointer s))
  | putDone {p : ℕ} {setting : T.Setting} : itemAt σ' g' = itemAt σ g → g'.fresh = g.fresh →
      Effect t σ g σ' g' (.setTimestamp p setting) (.inr (.inserted true))
  | gotDone {s : Scan T} {x : α} : (σ.item s.result).data = some x → itemAt σ' g' = itemAt σ g →
      g'.fresh = g.fresh → Effect t σ g σ' g' (.loadData s) (.inr (.removed (some x)))
  | gotNone {l : Local α T} : l.phase = .getting → g.saw t = true → itemAt σ' g' = itemAt σ g →
      g'.fresh = g.fresh → Effect t σ g σ' g' l (.inr (.removed none))

/-- What is to be shown of every access that thread `t` makes from `l`. -/
def StepOk (n t : ℕ) (σ : (machine α T n).logged.Shared) (g : Ghost) (l : Local α T)
    (a : Shared α T × (Local α T ⊕ DequeRet α)) : Prop :=
  ∃ g', Change n σ g (a.1, ⟨t, σ.1, l⟩ :: σ.2) g' ⟨t, σ.1, l⟩ ∧
    (∀ l', a.2 = .inl l' → Knows n t (a.1, ⟨t, σ.1, l⟩ :: σ.2) g' l') ∧
    (∀ r, a.2 = .inr r → g'.stage t = .steady) ∧ Effect t σ.1 g a.1 g' l a.2

section Access

variable {t b p new : ℕ} {σ : (machine α T n).logged.Shared} {σ' : Shared α T} {g g' : Ghost}
  {l l' : Local α T} {s : Scan T} {side : Side} {tmp : TaggedPointer}

/-- Nothing is put or taken. -/
theorem itemAt_same (hI : HeapInv n σ g) (hhome : g'.home = g.home)
    (hitem : ∀ p < σ.1.alloc, (σ'.item p).taken = (σ.1.item p).taken ∧
      (σ'.item p).data = (σ.1.item p).data) : itemAt σ' g' = itemAt σ.1 g := by
  funext p
  rw [itemAt, itemAt, hhome]
  cases hp : g.home p with
  | none => rw [if_neg fun h => Bool.noConfusion h.1, if_neg fun h => Bool.noConfusion h.1]
  | some b =>
    obtain ⟨ht, hd⟩ := hitem p (hI.home_lt hp)
    rw [ht, hd]

theorem itemAt_of_live (h : ∀ b p, ¬Live σ.1 g b p) (p : ℕ) : itemAt σ.1 g p = none := by
  rw [itemAt, if_neg]
  rintro ⟨hh, ht⟩
  obtain ⟨b, hb⟩ := Option.isSome_iff_exists.mp hh
  exact h b p ⟨hb, ht⟩

theorem Change.log (hI : HeapInv n σ g) (l : Local α T)
    (hl : ∀ u c, checks u c (⟨t, σ.1, l⟩ : Access (machine α T n)) = false)
    :
    Change n σ g (σ.1, ⟨t, σ.1, l⟩ :: σ.2) g ⟨t, σ.1, l⟩ := by
  have h := Change.read (t := t) hI l hl (g.saw t)
  rw [Function.update_eq_self] at h
  exact h

/-- The call goes on. -/
theorem StepOk.goes (hC : Change n σ g (σ', ⟨t, σ.1, l⟩ :: σ.2) g' ⟨t, σ.1, l⟩)
    (hk : Knows n t (σ', ⟨t, σ.1, l⟩ :: σ.2) g' l') (he : Effect t σ.1 g σ' g' l (.inl l')) :
    StepOk n t σ g l (σ', .inl l') := by
  refine ⟨g', hC, fun m hm => ?_, fun r hr => ?_, he⟩
  · obtain rfl := Sum.inl.inj hm
    exact hk
  · cases hr

/-- An access that does not change the memory, after which the call goes on. -/
theorem StepOk.read (hI : HeapInv n σ g)
    (hl : ∀ u c, checks u c (⟨t, σ.1, l⟩ : Access (machine α T n)) = false)
    (hp : l'.phase = l.phase) (hk : Knows n t (σ.1, ⟨t, σ.1, l⟩ :: σ.2) g l') :
    StepOk n t σ g l (σ.1, .inl l') :=
  .goes (.log hI l hl) hk (.go hp rfl rfl .inl)

/-! ### Inserts -/

/-- What lies before an item that is taken. -/
theorem HeapInv.walk_next (hI : HeapInv n σ g) (hp : g.Linked t p) (hm : p ∈ g.path t side)
    (hc : Clear σ.1 g side t p) (ht : (σ.1.item p).taken = true) :
    g.Linked t (σ.1.inward side p) ∧ σ.1.inward side p ∈ g.path t side ∧
      Clear σ.1 g side t (σ.1.inward side p) := by
  have hB := hI.buffer t (hI.linked hp).1
  by_cases he : σ.1.inward side p = p
  · rw [he]
    exact ⟨hp, hm, hc⟩
  · obtain ⟨hl, -, hq⟩ := hB.next hp he
    refine ⟨hl, ?_, fun q hlive => hq q hlive ?_⟩
    · obtain ⟨pre, rest, hpath⟩ := List.append_of_mem hm
      have hlinked := hB.path side
      rw [hpath] at hlinked ⊢
      cases rest with
      | nil => exact absurd hlinked.suffix.next_last he
      | cons m rest =>
        rw [hlinked.suffix.tail.1]
        exact List.mem_append_right _ (List.mem_cons_of_mem _ List.mem_cons_self)
    · refine (ahead_or side fun hi => ?_).resolve_right (hc q hlive)
      obtain rfl := hB.unique hp (.inl hlive.1) hi
      rw [hlive.2] at ht
      cases ht

theorem insert_ok (hI : HeapInv n σ g) (ht : t < n) (ch : Choice T) (hk : Knows n t σ g l)
    (hl : match l with
      | .newItem .. | .loadOld .. | .endLink .. | .endTaken .. | .endStep .. | .checkEnd ..
      | .loadOther .. | .storeOther .. | .linkNew .. | .linkEnd .. | .storePointer ..
      | .setTimestamp .. => True
      | _ => False) : StepOk n t σ g l (step n t ch σ.1 l) := by
  have hB := hI.buffer t ht
  cases l with
  | newItem side x =>
    obtain ⟨-, hst⟩ := hk
    obtain ⟨hC, ho⟩ := hI.newItem ht side x
    have hitem : (σ.1.newItem side t x).item σ.1.alloc =
        ⟨Function.update (fun _ => 0) side σ.1.alloc, false, some x, T.initTopAtomic,
          signedIndex side (σ.1.nextIndex t)⟩ := Function.update_self ..
    refine .goes hC ⟨trivial, ho, hst⟩
      (.alloc ho.lt (by rw [hitem]) (itemAt_same hI rfl fun p hp => ?_) rfl)
    · have hp : (σ.1.newItem side t x).item p = σ.1.item p :=
        Function.update_of_ne (Nat.ne_of_lt hp) ..
      rw [hp]
      exact ⟨rfl, rfl⟩
  | loadOld side new =>
    obtain ⟨-, ho, hst⟩ := hk
    exact .read hI (fun _ _ => rfl) rfl ⟨trivial, ho, hst, .inl (hB.home side),
      hB.pointer side, hB.clear side⟩
  | endLink side new old p =>
    obtain ⟨-, ho, hst, hp, hm, hc⟩ := hk
    simp only [step]
    split_ifs with he
    · exact .read hI (fun _ _ => rfl) rfl ⟨trivial, ho, hst, ⟨hp, hm, hc⟩, hp, he⟩
    · exact .read hI (fun _ _ => rfl) rfl ⟨trivial, ho, hp, .inl ⟨hst, hm, hc, not_not.mp he⟩⟩
  | endTaken side new old p =>
    obtain ⟨-, ho, hst, ⟨hp, hm, hc⟩, -, hne⟩ := hk
    simp only [step]
    split_ifs with htaken
    · exact .read hI (fun _ _ => rfl) rfl
        ⟨trivial, ho, hst, ⟨hp, hm, hc⟩, hI.linked_lt hp, htaken⟩
    · refine .goes (hI.settle ht _ (fun _ _ => rfl) hst hp hm hc
        (Bool.eq_false_of_not_eq_true htaken)) ⟨trivial, ?_, hp, .inr ⟨Function.update_self .., hne⟩⟩
        (.go rfl rfl rfl .inl)
      exact ⟨ho.owner, ho.lt, ho.ne, ho.unlinked, ho.taken, ho.data, ho.link, ho.sign, ho.index,
        ho.further⟩
  | endStep side new old p =>
    obtain ⟨-, ho, hst, ⟨hp, hm, hc⟩, -, htaken⟩ := hk
    exact .read hI (fun _ _ => rfl) rfl ⟨trivial, ho, hst, hI.walk_next hp hm hc htaken⟩
  | checkEnd side new old p =>
    obtain ⟨-, ho, hp, hend⟩ := hk
    simp only [step]
    split_ifs with he
    · obtain ⟨hst, hm, hc, -⟩ := hend.resolve_right fun h => h.2 he
      exact .read hI (fun _ _ => rfl) rfl ⟨trivial, ho, hst, ⟨hp, hm, hc⟩, hp, he⟩
    · obtain ⟨hst, -⟩ := hend.resolve_left fun h => he h.2.2.2
      exact .read hI (fun _ _ => rfl) rfl ⟨trivial, ho, hst⟩
  | loadOther side new old p =>
    obtain ⟨-, hk⟩ := hk
    exact .read hI (fun _ _ => rfl) rfl ⟨trivial, hk⟩
  | storeOther side new old p oldOther =>
    obtain ⟨-, ho, hst, ⟨hp, hm, hc⟩, -, he⟩ := hk
    refine .goes (hI.storeOther ht hst hp hm hc he new old oldOther)
      ⟨trivial, ?_, Function.update_self ..⟩ (.go rfl rfl rfl .inl)
    exact ⟨ho.owner, ho.lt, ho.ne, ho.unlinked, ho.taken, ho.data, ho.link, ho.sign, ho.index,
      ho.further⟩
  | linkNew side new old p =>
    obtain ⟨-, ho, hst⟩ := hk
    obtain ⟨hC, ho', hn⟩ := hI.linkNew (.linkNew side new old p) (fun _ _ => rfl) ho p
    refine .goes hC ⟨trivial, ⟨ho', hn⟩, hst⟩
      (.go rfl (itemAt_same hI rfl fun q _ => ⟨?_, ?_⟩) rfl .inl)
    · exact item_setLink (·.taken) (fun _ _ => rfl) q
    · exact item_setLink (·.data) (fun _ _ => rfl) q
  | linkEnd side new old p =>
    obtain ⟨-, ⟨ho, hn⟩, hst⟩ := hk
    obtain ⟨rest, hC⟩ := hI.linkEnd ht hst ho hn old
    refine .goes hC ⟨trivial, p, Ghost.link_stage⟩
      (.link (itemAt_same hI rfl fun q _ => ⟨?_, ?_⟩) rfl)
    · exact item_setLink (·.taken) (fun _ _ => rfl) q
    · exact item_setLink (·.data) (fun _ _ => rfl) q
  | storePointer side new old =>
    obtain ⟨-, p, hst⟩ := hk
    have hlinked : g.Linked t new := by
      have := hB.stage
      rw [hst] at this
      exact this.2.1
    refine .goes (hI.storePointer ht hst old) ⟨trivial, Ghost.put_stage, Function.update_self ..⟩ ?_
    · rcases hlinked with hh | hf
      · refine .putTaken hh ?_ rfl
        have hhome : (g.put t side new).home = g.home := by
          show Function.update g.home new (some t) = g.home
          rw [← hh, Function.update_eq_self]
        funext q
        rw [itemAt, itemAt, hhome]
        rfl
      · obtain ⟨hh, hu⟩ := hI.fresh_untaken hf
        refine .put hh ?_ rfl
        funext q
        by_cases hq : q = new
        · subst hq
          rw [Function.update_self, itemAt, if_pos]
          · rfl
          · refine ⟨?_, hu⟩
            rw [show (g.put t side q).home q = some t from Function.update_self ..]
            rfl
        · rw [Function.update_of_ne hq, itemAt, itemAt]
          rw [show (g.put t side new).home q = g.home q from Function.update_of_ne hq ..]
          rfl
  | setTimestamp new setting =>
    obtain ⟨-, hst, hh⟩ := hk
    simp only [step]
    have hC := hI.setStamp (t := t) (.setTimestamp new setting) (fun _ _ => rfl) hh
      (T.setStep ch.time σ.1.clock (σ.1.item new).timestamp setting).1
      (T.setStep ch.time σ.1.clock (σ.1.item new).timestamp setting).2.1
    have hkeep : ∀ q, ((σ.1.setStamp new
          (T.setStep ch.time σ.1.clock (σ.1.item new).timestamp setting).1
          (T.setStep ch.time σ.1.clock (σ.1.item new).timestamp setting).2.1).item q).taken =
          (σ.1.item q).taken ∧ ((σ.1.setStamp new
          (T.setStep ch.time σ.1.clock (σ.1.item new).timestamp setting).1
          (T.setStep ch.time σ.1.clock (σ.1.item new).timestamp setting).2.1).item q).data =
          (σ.1.item q).data := fun q =>
      ⟨item_setStamp (·.taken) (fun _ _ => rfl) q, item_setStamp (·.data) (fun _ _ => rfl) q⟩
    have hbag := itemAt_same hI (rfl : g.home = g.home) fun q _ => hkeep q
    refine ⟨g, hC, fun m hm => ?_, fun _ _ => hst, ?_⟩
    · cases hset : (T.setStep ch.time σ.1.clock (σ.1.item new).timestamp setting).2.2 with
      | none =>
        rw [hset] at hm
        cases hm
      | some setting' =>
        rw [hset] at hm
        obtain rfl := Sum.inl.inj hm
        exact ⟨trivial, hst, hh⟩
    · cases (T.setStep ch.time σ.1.clock (σ.1.item new).timestamp setting).2.2 with
      | none => exact .putDone hbag rfl
      | some setting' => exact .go rfl hbag rfl .inl
  | _ => exact hl.elim

/-! ### The search in a buffer -/

theorem tmpBufferIndex_lt (hi : s.i < n) : s.tmpBufferIndex n < n := Nat.mod_lt _ (by omega)

theorem Fenced.saw {start : ℕ} (hf : Fenced n t start n g) : g.saw t = true := by
  rcases hf with hs | ⟨j, hij, hj, -⟩
  · exact hs
  · omega

/-- The scan found no element that it could take. -/
theorem noElement_ok (hC : Change n σ g (σ', ⟨t, σ.1, l⟩ :: σ.2) g' ⟨t, σ.1, l⟩)
    (hl : l.phase = .getting) (hst : g'.stage t = .steady) (hbag : itemAt σ' g' = itemAt σ.1 g)
    (hfresh : g'.fresh = g.fresh) (hsaw : g'.saw = g.saw) (hf : s.empty = true → g.saw t = true) :
    StepOk n t σ g l (σ', noElement s) := by
  rw [noElement]
  split_ifs with he
  · refine ⟨g', hC, fun m hm => ?_, fun _ _ => hst, .gotNone hl (hf he) hbag hfresh⟩
    cases hm
  · exact .goes hC ⟨trivial, hst⟩ (.go hl.symm hbag hfresh fun h => .inl (hsaw ▸ h))

/-- A buffer was looked at, and the loop goes on. -/
theorem nextBuffer_ok (hC : Change n σ g (σ', ⟨t, σ.1, l⟩ :: σ.2) g' ⟨t, σ.1, l⟩)
    (hl : l.phase = .getting) (hst : g'.stage t = .steady) (hbag : itemAt σ' g' = itemAt σ.1 g)
    (hfresh : g'.fresh = g.fresh) (hsaw : g'.saw = g.saw) (hi : s.Good n)
    (hres : (Fact.result s (s.i + 1) : Fact α T).Holds t (σ', ⟨t, σ.1, l⟩ :: σ.2) g')
    (hf : s.empty = true → Fenced n t s.start (s.i + 1) g') :
    StepOk n t σ g l (σ', nextBuffer n s) := by
  have hgo : ∀ {l' : Local α T}, l'.phase = .getting → Effect t σ.1 g σ' g' l (.inl l') := fun h =>
    .go (h.trans hl.symm) hbag hfresh fun h => .inl (hsaw ▸ h)
  rw [nextBuffer, afterLoop]
  split_ifs with hlt hres'
  · exact .goes hC ⟨⟨hlt, hi.2⟩, hst, hres, hf⟩ (hgo rfl)
  · exact .goes hC ⟨⟨hres'.1, hi.2 hres'.1⟩, hst, hres⟩ (hgo rfl)
  · refine noElement_ok hC hl hst hbag hfresh hsaw fun he => ?_
    have hn : s.i + 1 = n := by
      have := hi.1
      omega
    rw [← hsaw]
    exact (hn ▸ hf he).saw

/-- When the scan begins all buffers are empty, or the thread remembers of one that is not
that it was not. -/
theorem startScan_ok (hI : HeapInv n σ g) (ht : t < n)
    (hcheck : ∀ u c, checks u c (⟨t, σ.1, l⟩ : Access (machine α T n)) = false)
    (hl : l.phase = .getting) (hst : g.stage t = .steady) (side : Side)
    (invocationTime startTime : T.Time) (start : ℕ) :
    StepOk n t σ g l (σ.1, .inl (.loadTmp (.init side invocationTime startTime start))) := by
  have hn : 0 < n := by omega
  by_cases he : ∀ b p, ¬Live σ.1 g b p
  · exact .goes (.read hI l hcheck true) ⟨⟨hn, fun h => absurd rfl h⟩, hst, fun h => absurd rfl h,
      fun _ => .inl (Function.update_self ..)⟩ (.go hl.symm rfl rfl fun _ => .inr (itemAt_of_live he))
  · simp only [not_forall, not_not] at he
    obtain ⟨b, p, hlive⟩ := he
    have hb : b < n := (hI.linked (.inl hlive.1)).1
    obtain ⟨j, hj, hjb⟩ := exists_index (r := start) hb
    refine .goes (.log hI l hcheck) ⟨⟨hn, fun h => absurd rfl h⟩, hst, fun h => absurd rfl h,
      fun _ => .inr ⟨j, Nat.zero_le _, hj, ?_⟩⟩ (.go hl.symm rfl rfl .inl)
    intro hm
    have hmemo := (hI.buffer b hb).memo t
    rw [show (Scan.init side invocationTime startTime start).start = start from rfl, hjb] at hm
    rw [hm] at hmemo
    exact hmemo p hlive

/-- What was found in another buffer is not forgotten when an end pointer is read. -/
theorem Spotted.loadTmp {c r : ℕ} {w : TaggedPointer} (hF : Spotted t side c w r σ g) (s : Scan T)
    (hread : reads t side c (⟨t, σ.1, .loadTmp s⟩ : Access (machine α T n)) = false) :
    Spotted t side c w r (σ.1, ⟨t, σ.1, .loadTmp s⟩ :: σ.2) g where
  lt := hF.lt
  read := hF.read
  linked := hF.linked
  data := hF.data
  held h := by
    rw [storedSince_cons hread] at h
    exact hF.held h

theorem Fact.result_mono {k k' : ℕ} (h : (Fact.result s k : Fact α T).Holds t σ g) (hk : k ≤ k') :
    (Fact.result s k' : Fact α T).Holds t σ g := fun hr => by
  obtain ⟨⟨j, hj, hb⟩, hf⟩ := h hr
  exact ⟨⟨j, hj.trans_le hk, hb⟩, hf⟩

theorem Fact.result_evolves {k : ℕ} {σ' : (machine α T n).logged.Shared}
    (h : (Fact.result s k : Fact α T).Holds t σ g) (hI : HeapInv n σ g) (hE : Evolves t σ g σ' g') :
    (Fact.result s k : Fact α T).Holds t σ' g' := fun hr =>
  ⟨(h hr).1, (h hr).2.evolves hI hE⟩

/-- The current buffer is not one of those before it. -/
theorem index_ne {start i j : ℕ} (hji : j < i) (hi : i < n) : (start + j) % n ≠ (start + i) % n := by
  intro h
  have h := Nat.sub_mod_eq_zero_of_mod_eq h.symm
  rw [Nat.add_sub_add_left, Nat.mod_eq_of_lt (by omega)] at h
  omega

/-- The pointer of the current buffer is read. -/
theorem loadTmp_ok (hI : HeapInv n σ g) (hk : Knows n t σ g (.loadTmp s)) :
    StepOk n t σ g (.loadTmp s)
      (σ.1, .inl (.loadLimit s (σ.1.pointer s.side (s.tmpBufferIndex n)))) := by
  obtain ⟨hi, hst, hres, hf⟩ := hk
  have hB := hI.buffer _ (tmpBufferIndex_lt hi.1)
  refine .read hI (fun _ _ => rfl) rfl ⟨hi, hst, fun hr => ?_, fun he => ?_, hB.home s.side⟩
  · obtain ⟨⟨j, hj, hb⟩, hF⟩ := hres hr
    refine ⟨⟨j, hj, hb⟩, hF.loadTmp s (decide_eq_false fun h => ?_)⟩
    have := h.2.2
    rw [hb] at this
    exact index_ne hj hi.1 this.symm
  · rcases hf he with hs | ⟨j, hij, hj, hm⟩
    · exact .inl (.inl hs)
    · rcases Nat.lt_or_eq_of_le hij with hlt | rfl
      · exact .inl (.inr ⟨j, hlt, hj, hm⟩)
      · refine .inr ⟨hm, fun hp he => ?_⟩
        have hmemo := hB.memo t
        rw [hp] at hmemo
        have hlt := hmemo.1
        rw [he] at hlt
        exact Nat.lt_irrefl _ hlt

/-- An item that was inserted at the side lies beyond all that were not, and beyond the
threshold. -/
theorem searched_of_beyond {threshold : ℤ} (hW : Walking t side b tmp p σ g)
    (hlim : Limit side b threshold σ.1 g) (hb : beyond side threshold (σ.1.item p).index = true) :
    Searched side b tmp σ.1 g := by
  refine ⟨hW.read, fun q hq hi => Nat.lt_of_not_le fun hle => hW.behind q hq hle ?_⟩
  obtain ⟨m, -, rfl, hlim⟩ := hlim
  exact Ahead.not_trans (hlim q hq hi) (beyond_iff.mp hb)

theorem searched_of_last (hI : HeapInv n σ g) (hb : b < n) (hW : Walking t side b tmp p σ g)
    (he : σ.1.inward side p = p) : Searched side b tmp σ.1 g := by
  refine ⟨hW.read, fun q hq hi => Nat.lt_of_not_le fun hle => hW.behind q hq hle ?_⟩
  exact ahead_of_inserted hi ((hI.buffer b hb).last (hW.item.imp_right And.left) he)

/-- The search goes on behind an item that is taken. -/
theorem Walking.next (hI : HeapInv n σ g) (hb : b < n) (hW : Walking t side b tmp p σ g)
    (ht : (σ.1.item p).taken = true) : Walking t side b tmp (σ.1.inward side p) σ g := by
  have hB := hI.buffer b hb
  have hp : g.Linked b p := hW.item.imp_right And.left
  by_cases he : σ.1.inward side p = p
  · rw [he]
    exact hW
  · obtain ⟨hl, hf, hq⟩ := hB.next hp he
    have hstep : ∀ q, Live σ.1 g b q → ¬σ.1.Further side q p →
        ¬σ.1.Further side q (σ.1.inward side p) := fun q hlive hn => by
      refine hq q hlive ((ahead_or side fun hi => ?_).resolve_right hn)
      obtain rfl := hB.unique hp (.inl hlive.1) hi
      rw [hlive.2] at ht
      cases ht
    refine ⟨hW.read, hl.imp_right fun hfr => ⟨hfr, ?_⟩, fun q hlive hle =>
      hstep q hlive (hW.behind q hlive hle), fun hs q hlive => hstep q hlive (hW.clear hs q hlive)⟩
    -- the linked item was inserted at the other side, since it lies behind `p`
    obtain ⟨-, -, s', m, hst⟩ := hB.fresh hfr
    have hstage := hB.stage
    rw [hst] at hstage
    obtain ⟨-, -, -, hi, hold⟩ := hstage
    rcases side.eq_or_eq_other s' with rfl | rfl
    · have hh : g.home p = some b := hp.resolve_right fun h => he (hB.fresh_eq hst h).symm
      rcases hold p hh with h | ⟨-, h⟩
      · exact absurd h.symm he
      · exact absurd hf (further_asymm h)
    · exact hi

/-- The item that the search has come to is not taken. -/
theorem Walking.found (hI : HeapInv n σ g) (hb : b < n) (hW : Walking t side b tmp p σ g)
    (hu : (σ.1.item p).taken = false) : Spotted t side b tmp p σ g := by
  have hB := hI.buffer b hb
  have hp : g.Linked b p := hW.item.imp_right And.left
  refine ⟨hb, hW.read, hp, (hI.linked hp).2.2.2 hu, fun hs => ?_⟩
  have hc := hW.clear hs
  rcases hW.item with hh | ⟨hf, hi⟩
  · have hlive : Live σ.1 g b p := ⟨hh, hu⟩
    refine ⟨hB.live hlive, hc, fun q hst => ?_, fun u hm _ => ?_⟩
    · have hstage := hB.stage
      rw [hst] at hstage
      exact hstage.2.2.1 p hlive
    · have hmemo := hB.memo u
      rw [hm] at hmemo
      exact hmemo.2.1 p hlive
  · -- the item is linked from the other side, and its pointer is not stored yet
    obtain ⟨hnone, -, s', m, hst⟩ := hB.fresh hf
    have hstage := hB.stage
    rw [hst] at hstage
    obtain ⟨⟨pre, rest, -, hpath⟩, -, -, hi', hold⟩ := hstage
    obtain rfl : s' = side.other := (side.eq_or_eq_other s').resolve_left fun h => by
      rw [h, ← Side.other_other side, not_inserted_other hi] at hi'
      cases hi'
    rw [Side.other_other] at hpath
    refine ⟨?_, hc, fun q hst' => ?_, fun u _ _ => ?_⟩
    · rw [hpath]
      exact List.mem_append_right _ (List.mem_cons_of_mem _ List.mem_cons_self)
    · have := hst.symm.trans hst'
      cases this
    · rcases hB.check side u with h | h
      · rw [h]
        exact Nat.pos_of_ne_zero (hI.linked hp).2.1
      · rcases hold _ h with he | ⟨hlt, -⟩
        · rw [he, hnone] at h
          cases h
        · exact hlt

theorem search_ok (hI : HeapInv n σ g) (ch : Choice T) (hk : Knows n t σ g l) (hl : match l with
      | .loadLimit .. | .loadThreshold .. | .loadFirst .. | .loadIndex .. | .loadTaken ..
      | .checkLink .. | .loadLink .. => True
      | _ => False) : StepOk n t σ g l (step n t ch σ.1 l) := by
  have hE : ∀ l : Local α T, (∀ u c, checks u c (⟨t, σ.1, l⟩ : Access (machine α T n)) = false) →
      (∀ s b, reads t s b (⟨t, σ.1, l⟩ : Access (machine α T n)) = false) →
      Evolves t σ g (σ.1, ⟨t, σ.1, l⟩ :: σ.2) g := fun l h h' => (Change.log hI l h).evolves t h'
  cases l with
  | loadLimit s tmp =>
    obtain ⟨hi, hst, hres, hf, hread⟩ := hk
    have hB := hI.buffer _ (tmpBufferIndex_lt hi.1)
    have hE := hE (.loadLimit s tmp) (fun _ _ => rfl) fun _ _ => rfl
    refine .read hI (fun _ _ => rfl) rfl ⟨hi, hst, Fact.result_evolves hres hI hE, hf, hread,
      ⟨_, hB.home s.side.other, rfl, fun q hq _ h => ?_⟩, hI.home_lt (hB.home s.side.other)⟩
    exact hB.clear s.side.other q hq (further_other.mpr h)
  | loadThreshold s tmp limit =>
    obtain ⟨hi, hst, hres, hf, hread, hlim, -⟩ := hk
    have hE := hE (.loadThreshold s tmp limit) (fun _ _ => rfl) fun _ _ => rfl
    exact .read hI (fun _ _ => rfl) rfl ⟨hi, hst, Fact.result_evolves hres hI hE, hf, hread, hlim⟩
  | loadFirst s tmp threshold =>
    obtain ⟨hi, hst, hres, hf, hread, hlim⟩ := hk
    have hB := hI.buffer _ (tmpBufferIndex_lt hi.1)
    have hE := hE (.loadFirst s tmp threshold) (fun _ _ => rfl) fun _ _ => rfl
    exact .read hI (fun _ _ => rfl) rfl ⟨hi, hst, Fact.result_evolves hres hI hE, hf, hlim,
      hread, .inl (hB.home s.side), fun q hq _ => hB.clear s.side q hq, fun _ => hB.clear s.side⟩
  | loadIndex s tmp threshold item =>
    obtain ⟨hi, hst, hres, hf, hlim, hW⟩ := hk
    have hE := hE (.loadIndex s tmp threshold item) (fun _ _ => rfl) fun _ _ => rfl
    simp only [step]
    split_ifs with hb
    · have hS : Searched s.side (s.tmpBufferIndex n) tmp σ.1 g := searched_of_beyond hW hlim hb
      exact .read hI (fun _ _ => rfl) rfl ⟨hi, hst, Fact.result_evolves hres hI hE, hf, hS⟩
    · exact .read hI (fun _ _ => rfl) rfl ⟨hi, hst, Fact.result_evolves hres hI hE, hf, hlim,
        hW.evolves hI hE⟩
  | loadTaken s tmp threshold item =>
    obtain ⟨hi, hst, hres, hf, hlim, hW⟩ := hk
    have hE := hE (.loadTaken s tmp threshold item) (fun _ _ => rfl) fun _ _ => rfl
    have hlt := hI.linked_lt (hW.item.imp_right And.left)
    simp only [step]
    split_ifs with htaken
    · exact .read hI (fun _ _ => rfl) rfl ⟨hi, hst, Fact.result_evolves hres hI hE, hf, hlim,
        hW.evolves hI hE, hlt, htaken⟩
    · have hF := hW.found hI (tmpBufferIndex_lt hi.1) (Bool.eq_false_of_not_eq_true htaken)
      exact .read hI (fun _ _ => rfl) rfl ⟨⟨hi.1, rfl⟩, hst, Fact.result_evolves hres hI hE,
        hF.evolves hI hE⟩
  | checkLink s tmp threshold item =>
    obtain ⟨hi, hst, hres, hf, hlim, hW, hlt, htaken⟩ := hk
    have hE := hE (.checkLink s tmp threshold item) (fun _ _ => rfl) fun _ _ => rfl
    simp only [step]
    split_ifs with he
    · have hS : Searched s.side (s.tmpBufferIndex n) tmp σ.1 g :=
        searched_of_last hI (tmpBufferIndex_lt hi.1) hW he
      exact .read hI (fun _ _ => rfl) rfl ⟨hi, hst, Fact.result_evolves hres hI hE, hf, hS⟩
    · exact .read hI (fun _ _ => rfl) rfl ⟨hi, hst, Fact.result_evolves hres hI hE, hf, hlim,
        hW.evolves hI hE, hlt, htaken⟩
  | loadLink s tmp threshold item =>
    obtain ⟨hi, hst, hres, hf, hlim, hW, hlt, htaken⟩ := hk
    have hE := hE (.loadLink s tmp threshold item) (fun _ _ => rfl) fun _ _ => rfl
    exact .read hI (fun _ _ => rfl) rfl ⟨hi, hst, Fact.result_evolves hres hI hE, hf, hlim,
      (hW.next hI (tmpBufferIndex_lt hi.1) htaken).evolves hI hE⟩
  | _ => exact hl.elim

/-! ### What follows the search -/

theorem itemAt_take {r : ℕ} :
    itemAt (σ.1.take r) (g.take b r) = Function.update (itemAt σ.1 g) r none := by
  funext q
  by_cases hq : q = r
  · subst hq
    rw [Function.update_self, itemAt, if_neg]
    exact fun h => (taken_take.mp h.2).1 rfl
  · have hitem : (σ.1.take r).item q = σ.1.item q := Function.update_of_ne hq ..
    rw [Function.update_of_ne hq, itemAt, itemAt, hitem]
    rw [show (g.take b r).home q = g.home q from Function.update_of_ne hq ..]

/-- The `compare_exchange` on `taken` succeeds. -/
theorem take_ok (hI : HeapInv n σ g)
    (hcheck : ∀ u c, checks u c (⟨t, σ.1, l⟩ : Access (machine α T n)) = false)
    (hread : ∀ s b, reads t s b (⟨t, σ.1, l⟩ : Access (machine α T n)) = false)
    (hl : l.phase = .getting) (hst : g.stage t = .steady)
    (hres : (Fact.result s (s.i + 1) : Fact α T).Holds t σ g) (hne : s.result ≠ 0)
    (hu : (σ.1.item s.result).taken = false) :
    StepOk n t σ g l (σ.1.take s.result, .inl (.swapPointer s)) := by
  obtain ⟨-, hF⟩ := hres hne
  have hC := hI.take (t := t) l hcheck hF.linked
  have hE := hC.evolves t hread
  have hlt := hI.linked_lt hF.linked
  have htaken : ((σ.1.take s.result).item s.result).taken = true := by
    have hself : (σ.1.take s.result).item s.result = { σ.1.item s.result with taken := true } :=
      Function.update_self ..
    rw [hself]
  refine .goes hC ⟨hne, hst, Fact.result_evolves hres hI hE, ⟨hlt, htaken⟩, hlt, ?_⟩ ?_
  · rw [item_take (·.data) fun _ => rfl]
    exact hF.data
  · have hbag := itemAt_take (σ := σ) (g := g) (b := s.bufferIndex) (r := s.result)
    rcases hF.linked with hh | hf
    · refine .take hl hlt hF.data hh ?_ hbag ?_
      · rw [itemAt, if_pos]
        exact ⟨by rw [hh]; rfl, hu⟩
      · show Function.update g.fresh s.bufferIndex _ = g.fresh
        rw [if_neg, Function.update_eq_self]
        intro hf
        have := (hI.fresh_untaken hf).1
        rw [hh] at this
        cases this
    · have hnone : itemAt σ.1 g s.result = none := by
        rw [itemAt, if_neg]
        rw [(hI.fresh_untaken hf).1]
        exact fun h => Bool.noConfusion h.1
      refine .takeFresh (b := s.bufferIndex) hl (fun hb => ?_) hlt hF.data hf
        (Function.update_self ..) hnone ?_ ?_
      · obtain ⟨-, -, s', q, hst'⟩ := (hI.buffer _ hF.lt).fresh hf
        rw [hb, hst] at hst'
        cases hst'
      · rw [hbag, ← hnone, Function.update_eq_self]
      · show Function.update g.fresh s.bufferIndex _ = _
        rw [if_pos hf]

/-- The item's timestamp was loaded; it may be the one furthest on its side. -/
theorem compare_ok (hI : HeapInv n σ g) (ch : Choice T) {loading : T.Loading}
    (hk : Knows n t σ g (.loadTimestamp s tmp p loading)) :
    StepOk n t σ g (.loadTimestamp s tmp p loading)
      (step n t ch σ.1 (.loadTimestamp s tmp p loading)) := by
  obtain ⟨⟨hi, he⟩, hst, hres, hF⟩ := hk
  have hF : Spotted t s.side (s.tmpBufferIndex n) tmp p σ g := hF
  have hC := Change.log (t := t) hI (.loadTimestamp s tmp p loading) fun _ _ => rfl
  have hE := hC.evolves t fun _ _ => rfl
  have hres' := Fact.result_evolves (Fact.result_mono hres (Nat.le_succ s.i)) hI hE
  have hne : p ≠ 0 := (hI.linked hF.linked).2.1
  simp only [step]
  cases T.loadStep (σ.1.item p).timestamp loading with
  | inl loading' =>
    exact .read hI (fun _ _ => rfl) rfl ⟨⟨hi, he⟩, hst, Fact.result_evolves hres hI hE,
      hF.evolves hI hE⟩
  | inr itemTimestamp =>
    have hnew : (Fact.result
        { s with
          result := p
          bufferIndex := s.tmpBufferIndex n
          timestamp := itemTimestamp
          old := tmp } (s.i + 1) : Fact α T).Holds t
        (σ.1, ⟨t, σ.1, .loadTimestamp s tmp p loading⟩ :: σ.2) g := fun _ =>
      ⟨⟨s.i, Nat.lt_succ_self _, rfl⟩, hF.evolves hI hE⟩
    have hfenced : ∀ {P : Prop}, s.empty = true → P := fun h => absurd (he.symm.trans h) (by decide)
    dsimp only
    split_ifs
    · exact .read hI (fun _ _ => rfl) rfl ⟨⟨hi, hne, he⟩, hst, hnew⟩
    · exact nextBuffer_ok hC rfl hst rfl rfl rfl ⟨hi, fun _ => he⟩ hnew hfenced
    · exact nextBuffer_ok hC rfl hst rfl rfl rfl ⟨hi, fun _ => he⟩ hres' hfenced

/-- The buffer was found empty twice in a row, or the emptiness check fails. -/
theorem emptinessCheck_ok (hI : HeapInv n σ g) (ch : Choice T)
    (hk : Knows n t σ g (.loadTmpOther s tmp)) (hok : unmissed n t σ (.loadTmpOther s tmp) = true) :
    StepOk n t σ g (.loadTmpOther s tmp) (step n t ch σ.1 (.loadTmpOther s tmp)) := by
  obtain ⟨hi, hst, hres, hf, hS⟩ := hk
  have hS : Searched s.side (s.tmpBufferIndex n) tmp σ.1 g := hS
  have hb := tmpBufferIndex_lt (s := s) hi.1
  have hB := hI.buffer _ hb
  obtain ⟨m, hC⟩ := hI.remember (t := t) hb s rfl rfl hS (hB.home s.side.other)
  have hE := hC.evolves t fun _ _ => rfl
  have hres := Fact.result_evolves (Fact.result_mono hres (Nat.le_succ s.i)) hI hE
  simp only [step]
  split_ifs with hseen
  · refine nextBuffer_ok hC rfl hst rfl rfl rfl hi hres fun he => ?_
    rcases hf he with hf | ⟨hempty, hpassed⟩
    · rcases hf with hs | ⟨j, hij, hj, hm⟩
      · exact .inl hs
      · refine .inr ⟨j, hij, hj, ?_⟩
        have hne : (s.start + j) % n ≠ s.tmpBufferIndex n := (index_ne hij hj).symm
        show Function.update g.memo t (Function.update (g.memo t) (s.tmpBufferIndex n) m) t _ ≠ _
        rw [Function.update_self, Function.update_of_ne hne]
        exact hm
    · -- the remembered pointers belong to a buffer that was not empty
      exfalso
      have hmemo := hB.memo t
      cases hm : g.memo t (s.tmpBufferIndex n) with
      | empty => exact hempty hm
      | passed s' =>
        rw [hm] at hmemo
        rcases s.side.eq_or_eq_other s' with rfl | rfl
        · exact hpassed hm hseen.1
        · have hlt := hmemo.1
          rw [hseen.2] at hlt
          exact Nat.lt_irrefl _ hlt
      | nothing =>
        rcases hI.checked t _ hb with h0 | ⟨c, hc, hmiss⟩
        · have h := h0 s.side
          rw [hseen.1] at h
          exact (hI.linked (.inl hS.1)).2.1 h
        · have hmisses : misses (s.tmpBufferIndex n) c = true :=
            Bool.eq_true_of_not_eq_false fun h => hmiss h hm
          have hok : (!(σ.1.unchanged t s.side (s.tmpBufferIndex n) tmp &&
            (lastCheck σ.2 t (s.tmpBufferIndex n)).any (misses (s.tmpBufferIndex n)))) = true := hok
          rw [hc, Option.any_some, hmisses, Bool.and_true, Bool.not_eq_true'] at hok
          exact of_decide_eq_false hok hseen
  · exact nextBuffer_ok hC rfl hst rfl rfl rfl ⟨hi.1, fun _ => rfl⟩ hres fun h => by cases h

/-- The pointer is moved to the item that was taken, if it is the one that was read. -/
theorem swapPointer_ok (hI : HeapInv n σ g) (ch : Choice T) (hk : Knows n t σ g (.swapPointer s))
    (hok : unmissed n t σ (.swapPointer s) = true) :
    StepOk n t σ g (.swapPointer s) (step n t ch σ.1 (.swapPointer s)) := by
  obtain ⟨hne, hst, hres, ⟨hlt, htaken⟩, hgot⟩ := hk
  obtain ⟨-, hF⟩ := hres hne
  simp only [step]
  split_ifs with hswap
  · obtain ⟨hptr, -⟩ := hswap
    have hok : (!(decide (σ.1.pointer s.side s.bufferIndex = s.old) &&
      storedSince σ.2 t s.side s.bufferIndex)) = true := hok
    rw [decide_eq_true hptr, Bool.true_and, Bool.not_eq_true'] at hok
    have hH := hF.held hok
    rw [← hptr] at hH
    have hhome : g.home s.result = some s.bufferIndex := hF.linked.resolve_right fun hf => by
      rw [(hI.fresh_untaken hf).2] at htaken
      cases htaken
    exact .goes (hI.swap (.swapPointer s) (fun _ _ => rfl) hF.lt hH hhome _ rfl)
      ⟨trivial, hst, hgot⟩ (.go rfl rfl rfl .inl)
  · exact .read hI (fun _ _ => rfl) rfl ⟨trivial, hst, hgot⟩

theorem remove_ok (hI : HeapInv n σ g) (ht : t < n) (ch : Choice T) (hk : Knows n t σ g l)
    (hl : match l with
      | .readTime .. | .readStart .. | .checkItem .. | .takeItem .. | .checkResult ..
      | .takeResult .. | .loadData .. => True
      | _ => False) : StepOk n t σ g l (step n t ch σ.1 l) := by
  cases l with
  | readTime side reading =>
    obtain ⟨-, hst⟩ := hk
    simp only [step]
    cases T.readStep ch.time σ.1.clock reading with
    | inl reading' => exact .read hI (fun _ _ => rfl) rfl ⟨trivial, hst⟩
    | inr invocationTime => exact .read hI (fun _ _ => rfl) rfl ⟨trivial, hst⟩
  | readStart side invocationTime reading =>
    obtain ⟨-, hst⟩ := hk
    simp only [step]
    cases T.readStep ch.time σ.1.clock reading with
    | inl reading' => exact .read hI (fun _ _ => rfl) rfl ⟨trivial, hst⟩
    | inr startTime => exact startScan_ok hI ht (fun _ _ => rfl) rfl hst side _ _ _
  | checkItem s =>
    obtain ⟨⟨hi, hne, he⟩, hst, hres⟩ := hk
    have hC := Change.log (t := t) hI (.checkItem s) fun _ _ => rfl
    have hres' := Fact.result_evolves hres hI (hC.evolves t fun _ _ => rfl)
    simp only [step]
    split_ifs with hu
    · exact .goes hC ⟨⟨hi, hne, he⟩, hst, hres'⟩ (.go rfl rfl rfl .inl)
    · exact nextBuffer_ok hC rfl hst rfl rfl rfl ⟨hi, fun _ => he⟩ hres' fun h =>
        absurd (he.symm.trans h) (by decide)
  | takeItem s =>
    obtain ⟨⟨hi, hne, he⟩, hst, hres⟩ := hk
    have hC := Change.log (t := t) hI (.takeItem s) fun _ _ => rfl
    have hres' := Fact.result_evolves hres hI (hC.evolves t fun _ _ => rfl)
    simp only [step]
    split_ifs with hu
    · exact take_ok hI (fun _ _ => rfl) (fun _ _ => rfl) rfl hst hres hne hu.1
    · exact nextBuffer_ok hC rfl hst rfl rfl rfl ⟨hi, fun _ => he⟩ hres' fun h =>
        absurd (he.symm.trans h) (by decide)
  | checkResult s =>
    obtain ⟨⟨hne, he⟩, hst, hres⟩ := hk
    have hC := Change.log (t := t) hI (.checkResult s) fun _ _ => rfl
    have hres' := Fact.result_evolves hres hI (hC.evolves t fun _ _ => rfl)
    simp only [step]
    split_ifs with hu
    · exact .goes hC ⟨⟨hne, he⟩, hst, hres'⟩ (.go rfl rfl rfl .inl)
    · exact noElement_ok hC rfl hst rfl rfl rfl fun h => absurd (he.symm.trans h) (by decide)
  | takeResult s =>
    obtain ⟨⟨hne, he⟩, hst, hres⟩ := hk
    simp only [step]
    split_ifs with hu
    · exact take_ok hI (fun _ _ => rfl) (fun _ _ => rfl) rfl hst hres hne hu.1
    · exact noElement_ok (.log hI (.takeResult s) fun _ _ => rfl) rfl hst rfl rfl rfl fun h =>
        absurd (he.symm.trans h) (by decide)
  | loadData s =>
    obtain ⟨-, hst, -, hd⟩ := hk
    obtain ⟨x, hx⟩ := Option.isSome_iff_exists.mp hd
    simp only [step, hx]
    refine ⟨g, .log hI _ fun _ _ => rfl, fun m hm => ?_, fun _ _ => hst, .gotDone hx rfl rfl⟩
    cases hm
  | _ => exact hl.elim

/-- **Every access** that is `unmissed`, of a call that knows its facts, keeps the invariant,
and all threads go on knowing theirs. -/
theorem access_ok (hI : HeapInv n σ g) (ht : t < n) (ch : Choice T) (hk : Knows n t σ g l)
    (hok : unmissed n t σ l = true) : StepOk n t σ g l (step n t ch σ.1 l) := by
  cases l with
  | newItem | loadOld | endLink | endTaken | endStep | checkEnd | loadOther | storeOther
  | linkNew | linkEnd | storePointer | setTimestamp =>
    exact insert_ok hI ht ch hk trivial
  | loadLimit | loadThreshold | loadFirst | loadIndex | loadTaken | checkLink | loadLink =>
    exact search_ok hI ch hk trivial
  | readTime | readStart | checkItem | takeItem | checkResult | takeResult | loadData =>
    exact remove_ok hI ht ch hk trivial
  | loadTmp s => exact loadTmp_ok hI hk
  | loadTimestamp s tmp p loading => exact compare_ok hI ch hk
  | loadTmpOther s tmp => exact emptinessCheck_ok hI ch hk hok
  | swapPointer s => exact swapPointer_ok hI ch hk hok

end Access

end TSDeque

/-
The flat combining queue is a linearizable FIFO queue.

The combiner takes the slots one after the other; `Scan.Ok` is what it knows at each
access, `Local.Ok` what a call knows.  A request takes effect when the combiner writes
`tail_` or `head_`, or when it finds the list empty (`apply_go`).

* `scan_ok`, `call_ok` — every access of a combiner, and of any other thread;
* `linearizable_fifo` — in every reachable configuration there is a log of the requests
  that were applied, in this order, which is a run of a FIFO queue; it has every call
  that returned, and each of its entries once.
-/
import Scal.FlatCombiningQueueInvariant

open Interleave Linearizability

namespace FlatCombiningQueue

variable {α : Type} {numOps : ℕ}

/-! ### Assertions -/

/-- Thread `u` is combining, and has got to index `i`; its own request is `op`. -/
structure At (numOps : ℕ) (g : Ghost α) (h : Option ℕ) (u id : ℕ) (op : QueueOp α) (i : ℕ) :
    Prop where
  held : h = some u
  index : i < numOps
  own : InFlight g u id op
  passed : u < i → Answered g u id op
  others : ∀ v, v ≠ i → g.phase v ≠ .applying

/-- The request at index `i` is an enqueue of `x`, or a dequeue. -/
def AtOp (numOps : ℕ) (g : Ghost α) (h : Option ℕ) (u id : ℕ) (op : QueueOp α) (i : ℕ)
    (o : QueueOp α) : Prop :=
  At numOps g h u id op i ∧ ∃ j, Asked g i j o

/-- The request at index `i` has taken effect, and its result is `r`. -/
def AtResult (numOps : ℕ) (g : Ghost α) (h : Option ℕ) (u id : ℕ) (op : QueueOp α) (i : ℕ)
    (r : QueueRet α) : Prop :=
  At numOps g h u id op i ∧ g.phase i = .applying ∧ ∃ j o, g.stat i = .done j o r

def Scan.Ok (numOps : ℕ) (σ : Shared α) (g : Ghost α) (h : Option ℕ) (u id : ℕ)
    (op : QueueOp α) : Scan α → Prop
  | .isEnqueue i => At numOps g h u id op i ∧ g.phase i ≠ .applying
  | .isDequeue i => At numOps g h u id op i ∧ g.phase i ≠ .applying ∧
    (u = i → op = .dequeue ∨ Answered g u id op)
  | .enqData i => ∃ x, AtOp numOps g h u id op i (.enqueue x)
  | .enqNew i item => ∃ x, AtOp numOps g h u id op i (.enqueue x) ∧ item = some x
  | .enqTail i n => ∃ x, AtOp numOps g h u id op i (.enqueue x) ∧ σ.queue.New g.queue n x
  | .enqNext i n tail => ∃ x, AtOp numOps g h u id op i (.enqueue x) ∧
    σ.queue.New g.queue n x ∧ tail = σ.queue.tail
  | .enqSwing i n => ∃ x, AtOp numOps g h u id op i (.enqueue x) ∧
    σ.queue.New g.queue n x ∧ (σ.queue.node σ.queue.tail).next = n
  | .emptyHead i => AtOp numOps g h u id op i .dequeue
  | .emptyTail i head => AtOp numOps g h u id op i .dequeue ∧ head = σ.queue.head
  | .deqHead i => AtOp numOps g h u id op i .dequeue ∧ g.queue ≠ []
  | .deqTail i head =>
    AtOp numOps g h u id op i .dequeue ∧ g.queue ≠ [] ∧ head = σ.queue.head
  | .itemHead i => AtOp numOps g h u id op i .dequeue ∧ g.queue ≠ []
  | .itemNext i head =>
    AtOp numOps g h u id op i .dequeue ∧ g.queue ≠ [] ∧ head = σ.queue.head
  | .itemValue i next => AtOp numOps g h u id op i .dequeue ∧ g.queue ≠ [] ∧
    next = (σ.queue.node σ.queue.head).next
  | .nextHead i item => AtOp numOps g h u id op i .dequeue ∧
    ∃ x q, g.queue = x :: q ∧ item = some x
  | .nextNext i item head => AtOp numOps g h u id op i .dequeue ∧
    (∃ x q, g.queue = x :: q ∧ item = some x) ∧ head = σ.queue.head
  | .deqSwing i item next => AtOp numOps g h u id op i .dequeue ∧
    (∃ x q, g.queue = x :: q ∧ item = some x) ∧ next = (σ.queue.node σ.queue.head).next
  | .setData i data => ∃ r, AtResult numOps g h u id op i r ∧ data = (answer r).data
  | .setOpcode i => ∃ r, AtResult numOps g h u id op i r ∧
    (σ.operations i).data = (answer r).data

def Local.Ok (numOps : ℕ) (σ : Shared α) (g : Ghost α) (h : Option ℕ) (u id : ℕ)
    (fop : QueueOp α) : Local α → Prop
  | .setData op => fop = op ∧ h ≠ some u ∧ g.phase u = .vacant ∧ g.stat u = .pending id op none
  | .setOpcode op => fop = op ∧ h ≠ some u ∧ g.phase u = .vacant ∧
    g.stat u = .pending id op none ∧ (σ.operations u).data = (request op).data
  | .lock op => fop = op ∧ h ≠ some u ∧ InFlight g u id op
  | .poll op => fop = op ∧ h ≠ some u ∧ InFlight g u id op
  | .scan op s => fop = op ∧ s.Ok numOps σ g h u id op
  | .unlock op => fop = op ∧ h = some u ∧ Answered g u id op ∧ ∀ v, g.phase v ≠ .applying
  | .readData => fop = .dequeue ∧ h ≠ some u ∧ Answered g u id .dequeue
  | .clearData item => fop = .dequeue ∧ h ≠ some u ∧ g.phase u = .vacant ∧
    g.stat u = .done id .dequeue (.dequeued item)
  | .clearOpcode item => fop = .dequeue ∧ h ≠ some u ∧ g.phase u = .vacant ∧
    g.stat u = .done id .dequeue (.dequeued item)

/-- No call of thread `u` is pending. -/
def Idle (g : Ghost α) (h : Option ℕ) (u : ℕ) : Prop :=
  h ≠ some u ∧ g.phase u = .vacant ∧ g.stat u = .idle

/-- The proof outline: every pending call knows what its local state says. -/
def outline (α : Type) (numOps : ℕ) : Outline (machine α numOps) (Ghost α) where
  inv := Inv
  loc t f w := match f with
    | none => Idle w.ghost (holder w) t
    | some f => t < numOps ∧ f.loc.Ok numOps w.shared w.ghost (holder w) t f.id f.op
  rely := Rely

/-! ### Stability -/

section Stable

variable {w w' : World (machine α numOps) (Ghost α)} {u id i : ℕ} {op o : QueueOp α}
  {r : QueueRet α}

theorem Rely.not_holder (hr : Rely u w w') (h : holder w ≠ some u) : holder w' ≠ some u :=
  mt hr.lock.mp h

theorem Answered.rely (ha : Answered w.ghost u id op) (hr : Rely u w w') :
    Answered w'.ghost u id op := by
  obtain ⟨h1, r, h2⟩ := ha
  obtain ⟨hp, hs, -⟩ := hr.mine (.inr h1)
  exact ⟨hp.trans h1, r, hs.trans h2⟩

theorem At.rely (ha : At numOps w.ghost (holder w) u id op i) (hr : Rely u w w') :
    At numOps w'.ghost (holder w') u id op i :=
  ⟨hr.lock.mpr ha.held, ha.index, hr.inFlight id op ha.own, fun h => (ha.passed h).rely hr,
    fun v hv h => ha.others v hv (hr.applying ha.held v h)⟩

theorem AtOp.rely (ha : AtOp numOps w.ghost (holder w) u id op i o) (hr : Rely u w w') :
    AtOp numOps w'.ghost (holder w') u id op i o := by
  obtain ⟨hat, j, h1, h2⟩ := ha
  obtain ⟨hp, hs, -⟩ := hr.asked hat.held i (.inl h1)
  exact ⟨hat.rely hr, j, hp.trans h1, hs.trans h2⟩

theorem AtResult.rely (ha : AtResult numOps w.ghost (holder w) u id op i r) (hr : Rely u w w') :
    AtResult numOps w'.ghost (holder w') u id op i r := by
  obtain ⟨hat, h1, j, o, h2⟩ := ha
  obtain ⟨hp, hs, -⟩ := hr.asked hat.held i (.inr h1)
  exact ⟨hat.rely hr, hp.trans h1, j, o, hs.trans h2⟩

theorem Scan.Ok.rely {s : Scan α} (hs : s.Ok numOps w.shared w.ghost (holder w) u id op)
    (hr : Rely u w w') : s.Ok numOps w'.shared w'.ghost (holder w') u id op := by
  cases s with
  | isEnqueue i =>
    obtain ⟨hat, hp⟩ := hs
    exact ⟨hat.rely hr, fun h => hp (hr.applying hat.held i h)⟩
  | isDequeue i =>
    obtain ⟨hat, hp, hu⟩ := hs
    exact ⟨hat.rely hr, fun h => hp (hr.applying hat.held i h),
      fun h => (hu h).imp_right fun h => h.rely hr⟩
  | enqData i =>
    obtain ⟨x, hat⟩ := hs
    exact ⟨x, hat.rely hr⟩
  | enqNew i item =>
    obtain ⟨x, hat, hx⟩ := hs
    exact ⟨x, hat.rely hr, hx⟩
  | emptyHead i => exact AtOp.rely hs hr
  | setData i data =>
    obtain ⟨r, hat, hd⟩ := hs
    exact ⟨r, hat.rely hr, hd⟩
  | setOpcode i =>
    obtain ⟨r, hat, hd⟩ := hs
    refine ⟨r, hat.rely hr, ?_⟩
    rwa [(hr.asked hat.1.held i (.inr hat.2.1)).2.2]
  | enqTail | enqNext | enqSwing =>
    obtain ⟨x, hat, hx⟩ := hs
    obtain ⟨hl, hq⟩ := hr.list hat.1.held
    exact ⟨x, hat.rely hr, by rwa [hl, hq]⟩
  | emptyTail i head =>
    obtain ⟨hat, hx⟩ := hs
    exact ⟨hat.rely hr, by rwa [(hr.list hat.1.held).1]⟩
  | deqHead | itemHead | nextHead =>
    obtain ⟨hat, hx⟩ := hs
    exact ⟨hat.rely hr, by rwa [(hr.list hat.1.held).2]⟩
  | deqTail | itemNext | itemValue | nextNext | deqSwing =>
    obtain ⟨hat, hx⟩ := hs
    obtain ⟨hl, hq⟩ := hr.list hat.1.held
    exact ⟨hat.rely hr, by rwa [hl, hq]⟩

theorem Local.Ok.rely {l : Local α} (hl : l.Ok numOps w.shared w.ghost (holder w) u id op)
    (hr : Rely u w w') : l.Ok numOps w'.shared w'.ghost (holder w') u id op := by
  cases l with
  | setData =>
    obtain ⟨hop, hh, hp, hs⟩ := hl
    obtain ⟨hp', hs', -⟩ := hr.mine (.inl hp)
    exact ⟨hop, hr.not_holder hh, hp'.trans hp, hs'.trans hs⟩
  | setOpcode =>
    obtain ⟨hop, hh, hp, hs, hd⟩ := hl
    obtain ⟨hp', hs', ho⟩ := hr.mine (.inl hp)
    exact ⟨hop, hr.not_holder hh, hp'.trans hp, hs'.trans hs, by rwa [ho]⟩
  | lock => exact ⟨hl.1, hr.not_holder hl.2.1, hr.inFlight _ _ hl.2.2⟩
  | poll => exact ⟨hl.1, hr.not_holder hl.2.1, hr.inFlight _ _ hl.2.2⟩
  | scan op s => exact ⟨hl.1, hl.2.rely hr⟩
  | unlock =>
    obtain ⟨hop, hh, ha, hv⟩ := hl
    exact ⟨hop, hr.lock.mpr hh, ha.rely hr, fun v h => hv v (hr.applying hh v h)⟩
  | readData => exact ⟨hl.1, hr.not_holder hl.2.1, hl.2.2.rely hr⟩
  | clearData =>
    obtain ⟨hop, hh, hp, hs⟩ := hl
    obtain ⟨hp', hs', -⟩ := hr.mine (.inl hp)
    exact ⟨hop, hr.not_holder hh, hp'.trans hp, hs'.trans hs⟩
  | clearOpcode =>
    obtain ⟨hop, hh, hp, hs⟩ := hl
    obtain ⟨hp', hs', -⟩ := hr.mine (.inl hp)
    exact ⟨hop, hr.not_holder hh, hp'.trans hp, hs'.trans hs⟩

end Stable

/-! ### Changes -/

section Changes

variable {w : World (machine α numOps) (Ghost α)} {t i : ℕ} {f : Frame (machine α numOps)}
  {e : Event (QueueOp α) (QueueRet α)} {σ : Shared α} {g : Ghost α} {l : Local α}
  {op o : QueueOp α} {r : QueueRet α}

theorem holder_record (hlock : σ.globalLock = w.shared.globalLock) :
    holder (w.record e σ g) = holder w := by
  rw [holder, World.record_trace, lockHolder_append, if_pos hlock]
  rfl

/-- An access that changes neither the log nor what the slots stand for. -/
theorem Inv.quiet (hw : Inv w) (t : ℕ) {phase : ℕ → Phase}
    (hlist : σ.queue.Holds w.ghost.queue)
    (hslots : ∀ u, SlotOk (σ.operations u) (phase u) (w.ghost.stat u))
    (hlock : σ.globalLock = (holder (w.record (.tau t) σ { w.ghost with phase := phase })).isSome)
    (happ : holder (w.record (.tau t) σ { w.ghost with phase := phase }) = none →
      ∀ u, phase u ≠ .applying) :
    Inv (w.record (.tau t) σ { w.ghost with phase := phase }) := by
  refine ⟨?_, hw.log.extend ?_, hslots, hlist, hlock, happ⟩
  · rw [World.record_events]
    exact hw.tracks.tau t
  · rw [hw.list.items, hlist.items]

/-- An access that only reads. -/
theorem read_go (hw : Inv w) (ht : t < numOps)
    (hl : l.Ok numOps w.shared w.ghost (holder w) t f.id f.op) :
    (outline α numOps).Moves w t (.tau t) w.shared (some { f with loc := l }) := by
  have hh : ∀ {g}, holder (w.record (.tau t) w.shared g) = holder w := holder_record rfl
  refine ⟨w.ghost, hw.quiet t hw.list hw.slots ?_ ?_, ⟨ht, ?_⟩, fun u hu => ?_⟩
  · rw [hh, hw.lock]
  · rw [hh]
    exact hw.applying
  · rw [hh]
    exact hl
  · exact rely_own hu (by rw [hh]) ⟨rfl, rfl⟩ (fun _ _ => ⟨rfl, rfl, rfl⟩) (.inl ⟨rfl, rfl, rfl⟩)

/-- The thread that holds the lock changes the list or the slot `i`. -/
theorem serve_go (ht : t < numOps) (hheld : holder w = some t)
    (hlock : σ.globalLock = w.shared.globalLock) (hI : Inv (w.record (.tau t) σ g))
    (hsame : ∀ v, v ≠ i → g.phase v = w.ghost.phase v ∧ g.stat v = w.ghost.stat v ∧
      σ.operations v = w.shared.operations v)
    (hi : w.ghost.phase i = .asked ∨ w.ghost.phase i = .applying)
    (hflight : ∀ id op, InFlight w.ghost i id op → InFlight g i id op)
    (hl : l.Ok numOps σ g (some t) t f.id f.op) :
    (outline α numOps).Moves w t (.tau t) σ (some { f with loc := l }) := by
  have hh : holder (w.record (.tau t) σ g) = some t := by rw [holder_record hlock, hheld]
  refine ⟨g, hI, ⟨ht, ?_⟩, fun u hu => rely_serve hu hheld hh hsame hi hflight⟩
  rw [hh]
  exact hl

/-- The owner of slot `t` writes it. -/
theorem own_go (ht : t < numOps) (hlock : σ.globalLock = w.shared.globalLock)
    (hI : Inv (w.record (.tau t) σ g))
    (hq : σ.queue = w.shared.queue ∧ g.queue = w.ghost.queue)
    (hsame : ∀ v, v ≠ t → g.phase v = w.ghost.phase v ∧ g.stat v = w.ghost.stat v ∧
      σ.operations v = w.shared.operations v)
    (hmine : w.ghost.phase t = .vacant ∨ w.ghost.phase t = .answered)
    (hmine' : g.phase t ≠ .applying)
    (hl : l.Ok numOps σ g (holder w) t f.id f.op) :
    (outline α numOps).Moves w t (.tau t) σ (some { f with loc := l }) := by
  have hh : holder (w.record (.tau t) σ g) = holder w := holder_record hlock
  refine ⟨g, hI, ⟨ht, ?_⟩, fun u hu => rely_own hu (by rw [hh]) hq hsame (.inr ⟨?_, ?_, hmine'⟩)⟩
  · rw [hh]
    exact hl
  · rcases hmine with h | h <;> simp [h]
  · rcases hmine with h | h <;> simp [h]

/-- **A request takes effect.** -/
theorem apply_go (hw : Inv w) (ht : t < numOps) {list : SingleList α} {q : List α}
    (hat : AtOp numOps w.ghost (holder w) t f.id f.op i o) (hlist : list.Holds q)
    (hstep : QueueStep w.ghost.queue o r q) :
    (outline α numOps).Moves w t (.tau t) { w.shared with queue := list }
      (some { f with loc := .scan f.op (.setData i (answer r).data) }) := by
  obtain ⟨hat, j, hphase, hstat⟩ := hat
  obtain ⟨j', o', hs, hreq⟩ : SlotOk (w.shared.operations i) .asked _ := hphase ▸ hw.slots i
  obtain ⟨rfl, rfl⟩ : j = j' ∧ o = o' := by simpa using hstat.symm.trans hs
  have hfit := hw.tracks.fits i
  rw [hstat] at hfit
  have hopen : Open w.events i j o := hfit.1
  have hh : ∀ {g}, holder (w.record (.tau t) { w.shared with queue := list } g) = holder w :=
    holder_record rfl
  let g : Ghost α := ⟨w.ghost.log ++ [⟨⟨j, o, r⟩, w.trace.length⟩], q,
    Function.update w.ghost.stat i (.done j o r), Function.update w.ghost.phase i .applying⟩
  have hflight : ∀ id op, InFlight w.ghost i id op → InFlight g i id op := by
    rintro id op (⟨-, h⟩ | ⟨h, -⟩ | ⟨h, -⟩)
    · rw [hstat] at h
      obtain ⟨rfl, rfl⟩ : j = id ∧ o = op := by simpa using h
      exact .inr (.inl ⟨Function.update_self .., r, Function.update_self ..⟩)
    · rw [hphase] at h
      cases h
    · rw [hphase] at h
      cases h
  have hI : Inv (w.record (.tau t) { w.shared with queue := list } g) := by
    refine ⟨?_, hw.log.apply rfl hopen (by simp) ⟨i, w.ghost.queue, q, ?_, ?_, hreq,
      hw.list.items, hlist.items, hstep⟩, fun u => ?_, hlist, ?_, ?_⟩
    · show Tracks (queueSpec α) _ (List.map _ (w.ghost.log ++ [_])) _ _
      rw [World.record_events, List.map_append]
      exact (hw.tracks.tau t).linearize hstat hstep
    · show (w.record (.tau t) { w.shared with queue := list } g).events[j]? = _
      rw [World.record_events, List.getElem?_append_left hopen.lt_length]
      exact hopen.1
    · show lockHolder (List.take w.trace.length (w.trace ++ _)) = some t
      rw [List.take_left]
      exact hat.held
    · by_cases hu : u = i
      · subst hu
        simp only [g, World.record_ghost, World.record_shared, Function.update_self]
        exact ⟨j, o, r, rfl, by rw [hreq], matches_of_step hstep⟩
      · simp only [g, World.record_ghost, World.record_shared, Function.update_of_ne hu]
        exact hw.slots u
    · rw [hh]
      exact hw.lock
    · rw [hh, hat.held]
      exact fun h => by cases h
  refine serve_go ht hat.held rfl hI (fun v hv => ⟨?_, ?_, rfl⟩) (.inl hphase) hflight
    ⟨rfl, r, ⟨⟨rfl, hat.index, ?_, fun hlt => ?_, fun v hv => ?_⟩, Function.update_self .., j, o,
      Function.update_self ..⟩, rfl⟩
  · exact Function.update_of_ne hv ..
  · exact Function.update_of_ne hv ..
  · by_cases hti : t = i
    · subst hti
      exact hflight _ _ hat.own
    · have hp : g.phase t = w.ghost.phase t := Function.update_of_ne hti ..
      have hs : g.stat t = w.ghost.stat t := Function.update_of_ne hti ..
      have hown := hat.own
      simp only [InFlight, Asked, Answered] at hown ⊢
      rwa [hp, hs]
  · obtain ⟨h1, h2⟩ := hat.passed hlt
    exact ⟨(Function.update_of_ne hlt.ne ..).trans h1, by
      simpa [g, hlt.ne] using h2⟩
  · simpa [g, hv] using hat.others v hv

/-- The loop goes on at index `i`, or ends. -/
theorem scanFrom_ok (ht : t < numOps) {id : ℕ} (hown : InFlight g t id op)
    (hpassed : t < i → Answered g t id op) (hv : ∀ v, g.phase v ≠ .applying) :
    (Local.scanning op (scanFrom numOps i)).Ok numOps σ g (some t) t id op := by
  rw [scanFrom]
  split_ifs with hi
  · exact ⟨rfl, ⟨rfl, hi, hown, hpassed, fun v _ => hv v⟩, hv i⟩
  · exact ⟨rfl, rfl, hpassed (by omega), hv⟩

/-- The call returns `r`. -/
theorem respond_ok (hw : Inv w) {id : ℕ} (hd : w.ghost.stat t = .done id op r)
    (hmine : w.ghost.phase t = .vacant ∨ w.ghost.phase t = .answered)
    (hq : σ.queue = w.shared.queue)
    (hops : ∀ v, v ≠ t → σ.operations v = w.shared.operations v)
    (hopc : (σ.operations t).opcode = .done)
    (hlock : ∀ g, σ.globalLock = (holder (w.record (.res t r) σ g)).isSome)
    (hnot : ∀ g, holder (w.record (.res t r) σ g) ≠ some t)
    (hh : ∀ g u, u ≠ t → (holder (w.record (.res t r) σ g) = some u ↔ holder w = some u))
    (happ : ∀ g, holder (w.record (.res t r) σ g) = none → ∀ u, w.ghost.phase u ≠ .applying) :
    (outline α numOps).Moves w t (.res t r) σ none := by
  refine ⟨{ w.ghost with
      stat := Function.update w.ghost.stat t .idle
      phase := Function.update w.ghost.phase t .vacant }, ⟨?_, hw.log.extend ?_, fun u => ?_, ?_,
      hlock _, fun h u => ?_⟩, ⟨hnot _, Function.update_self .., Function.update_self ..⟩,
    fun u hu => rely_own hu (hh _ u hu) ⟨hq, rfl⟩ (fun v hv => ⟨?_, ?_, hops v hv⟩)
      (.inr ⟨?_, ?_, ?_⟩)⟩
  · rw [World.record_events]
    exact hw.tracks.resDone hd
  · rw [hq]
  · by_cases hu : u = t
    · subst hu
      simp only [World.record_ghost, World.record_shared, Function.update_self]
      exact hopc
    · simp only [World.record_ghost, World.record_shared, Function.update_of_ne hu, hops u hu]
      exact hw.slots u
  · show σ.queue.Holds _
    rw [hq]
    exact hw.list
  · by_cases hu : u = t
    · subst hu
      simp
    · simpa [hu] using happ _ h u
  · exact Function.update_of_ne hv ..
  · exact Function.update_of_ne hv ..
  · rcases hmine with h | h <;> simp [h]
  · rcases hmine with h | h <;> simp [h]
  · simp

end Changes

/-! ### The combiner -/

section Combiner

variable {w : World (machine α numOps) (Ghost α)} {t i : ℕ} {f : Frame (machine α numOps)}
  {s : Scan α}

/-- A slot whose opcode is not `Done` is asked. -/
theorem Inv.asked (hw : Inv w) (hp : w.ghost.phase i ≠ .applying)
    (ho : (w.shared.operations i).opcode ≠ .done) :
    ∃ j o, Asked w.ghost i j o ∧ w.shared.operations i = request o := by
  have hslot := hw.slots i
  cases hphase : w.ghost.phase i with
  | vacant =>
    rw [hphase] at hslot
    exact absurd hslot ho
  | asked =>
    rw [hphase] at hslot
    obtain ⟨j, o, hs, hreq⟩ := hslot
    exact ⟨j, o, ⟨hphase, hs⟩, hreq⟩
  | applying => exact absurd hphase hp
  | answered =>
    rw [hphase] at hslot
    obtain ⟨j, o, r, -, hans, -⟩ := hslot
    rw [hans] at ho
    cases r <;> exact absurd rfl ho

/-- A published request that is not being applied is asked, or answered. -/
theorem Inv.own (hw : Inv w) {id : ℕ} {op : QueueOp α} (hf : InFlight w.ghost t id op)
    (hp : w.ghost.phase t ≠ .applying) :
    w.shared.operations t = request op ∨ Answered w.ghost t id op := by
  rcases hf with ⟨hphase, hstat⟩ | ⟨h, -⟩ | h
  · obtain ⟨j, o, hs, hreq⟩ : SlotOk (w.shared.operations t) .asked _ := hphase ▸ hw.slots t
    obtain ⟨rfl, rfl⟩ : id = j ∧ op = o := by simpa using hstat.symm.trans hs
    exact .inl hreq
  · exact absurd h hp
  · exact .inr h

theorem AtOp.request {id : ℕ} {op o : QueueOp α} (hw : Inv w)
    (hat : AtOp numOps w.ghost (holder w) t id op i o) :
    w.shared.operations i = request o := by
  obtain ⟨-, j, hphase, hstat⟩ := hat
  obtain ⟨j', o', hs, hreq⟩ : SlotOk (w.shared.operations i) .asked _ := hphase ▸ hw.slots i
  obtain ⟨rfl, rfl⟩ : j = j' ∧ o = o' := by simpa using hstat.symm.trans hs
  exact hreq

/-- The list changes, but not its items. -/
theorem list_go (hw : Inv w) (ht : t < numOps) {o : QueueOp α} {list : SingleList α}
    (hat : AtOp numOps w.ghost (holder w) t f.id f.op i o) (hlist : list.Holds w.ghost.queue)
    (hs : s.Ok numOps { w.shared with queue := list } w.ghost (some t) t f.id f.op) :
    (outline α numOps).Moves w t (.tau t) { w.shared with queue := list }
      (some { f with loc := .scan f.op s }) := by
  have hh : ∀ {g}, holder (w.record (.tau t) { w.shared with queue := list } g) = holder w :=
    holder_record rfl
  refine serve_go (i := i) ht hat.1.held rfl (hw.quiet t hlist hw.slots ?_ ?_)
    (fun _ _ => ⟨rfl, rfl, rfl⟩) (.inl hat.2.choose_spec.1) (fun _ _ h => h) ⟨rfl, hs⟩
  · rw [hh]
    exact hw.lock
  · rw [hh, hat.1.held]
    exact fun h => by cases h

theorem isEnqueue_ok (hw : Inv w) (ht : t < numOps)
    (hs : (Scan.isEnqueue i).Ok numOps w.shared w.ghost (holder w) t f.id f.op) :
    (outline α numOps).Moves w t (.tau t) (scanStep numOps w.shared (.isEnqueue i)).1
      (some { f with loc := .scanning f.op (scanStep numOps w.shared (.isEnqueue i)).2 }) := by
  obtain ⟨hat, hp⟩ := hs
  simp only [scanStep]
  split_ifs with hopc
  · obtain ⟨j, o, hasked, hreq⟩ := hw.asked hp (by simp [hopc])
    rw [hreq] at hopc
    cases o with
    | enqueue x => exact read_go hw ht ⟨rfl, x, hat, j, hasked⟩
    | dequeue => cases hopc
  · refine read_go hw ht ⟨rfl, hat, hp, ?_⟩
    rintro rfl
    rcases hw.own hat.own hp with hreq | h
    · rw [hreq] at hopc
      cases hop : f.op with
      | enqueue x =>
        rw [hop] at hopc
        exact absurd rfl hopc
      | dequeue => exact .inl rfl
    · exact .inr h

theorem isDequeue_ok (hw : Inv w) (ht : t < numOps)
    (hs : (Scan.isDequeue i).Ok numOps w.shared w.ghost (holder w) t f.id f.op) :
    (outline α numOps).Moves w t (.tau t) (scanStep numOps w.shared (.isDequeue i)).1
      (some { f with loc := .scanning f.op (scanStep numOps w.shared (.isDequeue i)).2 }) := by
  obtain ⟨hat, hp, hown⟩ := hs
  simp only [scanStep]
  split_ifs with hopc
  · obtain ⟨j, o, hasked, hreq⟩ := hw.asked hp (by simp [hopc])
    rw [hreq] at hopc
    cases o with
    | enqueue x => cases hopc
    | dequeue => exact read_go hw ht ⟨rfl, hat, j, hasked⟩
  · refine read_go hw ht ?_
    rw [hat.held]
    refine scanFrom_ok ht hat.own (fun hlt => ?_) fun v => ?_
    · rcases Nat.lt_or_eq_of_le (Nat.le_of_lt_succ hlt) with hlt | rfl
      · exact hat.passed hlt
      · -- the own request would have been a dequeue
        rcases hown rfl with hop | h
        · rcases hw.own hat.own hp with hreq | h
          · rw [hreq, hop] at hopc
            exact absurd rfl hopc
          · exact h
        · exact h
    · by_cases hv : v = i
      · rwa [hv]
      · exact hat.others v hv

theorem enqueue_ok (hw : Inv w) (ht : t < numOps) (s : Scan α) :
    match s with
    | .enqData _ | .enqNew _ _ | .enqTail _ _ | .enqNext _ _ _ | .enqSwing _ _ =>
      s.Ok numOps w.shared w.ghost (holder w) t f.id f.op →
        (outline α numOps).Moves w t (.tau t) (scanStep numOps w.shared s).1
          (some { f with loc := .scanning f.op (scanStep numOps w.shared s).2 })
    | _ => True := by
  cases s with
  | enqData i =>
    rintro ⟨x, hat⟩
    refine read_go hw ht ⟨rfl, x, hat, ?_⟩
    rw [hat.request hw]
    rfl
  | enqNew i item =>
    rintro ⟨x, hat, rfl⟩
    have hnew := hw.list.newNode x
    exact list_go hw ht hat hnew.holds ⟨x, hat.1.held ▸ hat, hnew⟩
  | enqTail i n =>
    rintro ⟨x, hat, hnew⟩
    exact read_go hw ht ⟨rfl, x, hat, hnew, rfl⟩
  | enqNext i n tail =>
    rintro ⟨x, hat, hnew, rfl⟩
    obtain ⟨hnew', hnext⟩ := hnew.setNext
    exact list_go hw ht hat hnew'.holds ⟨x, hat.1.held ▸ hat, hnew', hnext⟩
  | enqSwing i n =>
    rintro ⟨x, hat, hnew, hnext⟩
    exact apply_go hw ht (r := .enqueued true) hat (hnew.swing hnext) rfl
  | _ => trivial

theorem dequeue_ok (hw : Inv w) (ht : t < numOps) (s : Scan α) :
    match s with
    | .emptyHead _ | .emptyTail _ _ | .deqHead _ | .deqTail _ _ | .itemHead _ | .itemNext _ _
    | .itemValue _ _ | .nextHead _ _ | .nextNext _ _ _ | .deqSwing _ _ _ =>
      s.Ok numOps w.shared w.ghost (holder w) t f.id f.op →
        (outline α numOps).Moves w t (.tau t) (scanStep numOps w.shared s).1
          (some { f with loc := .scanning f.op (scanStep numOps w.shared s).2 })
    | _ => True := by
  cases s with
  | emptyHead i => exact fun hat => read_go hw ht ⟨rfl, hat, rfl⟩
  | emptyTail i head =>
    rintro ⟨hat, rfl⟩
    simp only [scanStep]
    split_ifs with htail
    · have hempty := hw.list.head_eq_tail.mp htail
      exact apply_go hw ht (r := .dequeued none) hat hw.list ⟨hempty, hempty⟩
    · exact read_go hw ht ⟨rfl, hat, mt hw.list.head_eq_tail.mpr htail⟩
  | deqHead i =>
    rintro ⟨hat, hne⟩
    exact read_go hw ht ⟨rfl, hat, hne, rfl⟩
  | deqTail i head =>
    rintro ⟨hat, hne, rfl⟩
    have htail := mt hw.list.head_eq_tail.mp hne
    simp only [scanStep, if_neg htail]
    exact read_go hw ht ⟨rfl, hat, hne⟩
  | itemHead i =>
    rintro ⟨hat, hne⟩
    exact read_go hw ht ⟨rfl, hat, hne, rfl⟩
  | itemNext i head =>
    rintro ⟨hat, hne, rfl⟩
    exact read_go hw ht ⟨rfl, hat, hne, rfl⟩
  | itemValue i next =>
    rintro ⟨hat, hne, rfl⟩
    obtain ⟨x, q, hq⟩ := List.exists_cons_of_ne_nil hne
    have hlist := hw.list
    rw [hq] at hlist
    exact read_go hw ht ⟨rfl, hat, x, q, hq, hlist.swing.1⟩
  | nextHead i item =>
    rintro ⟨hat, hx⟩
    exact read_go hw ht ⟨rfl, hat, hx, rfl⟩
  | nextNext i item head =>
    rintro ⟨hat, hx, rfl⟩
    exact read_go hw ht ⟨rfl, hat, hx, rfl⟩
  | deqSwing i item next =>
    rintro ⟨hat, ⟨x, q, hq, rfl⟩, rfl⟩
    have hlist := hw.list
    rw [hq] at hlist
    exact apply_go hw ht (r := .dequeued (some x)) hat hlist.swing.2 hq
  | _ => trivial

theorem setData_ok (hw : Inv w) (ht : t < numOps) {data : Option α}
    (hs : (Scan.setData i data).Ok numOps w.shared w.ghost (holder w) t f.id f.op) :
    (outline α numOps).Moves w t (.tau t) (w.shared.setData i data)
      (some { f with loc := .scan f.op (.setOpcode i) }) := by
  obtain ⟨r, ⟨hat, hphase, hstat⟩, rfl⟩ := hs
  have hh : ∀ {g}, holder (w.record (.tau t) (w.shared.setData i (answer r).data) g) = holder w :=
    holder_record rfl
  refine serve_go (i := i) ht hat.held rfl (hw.quiet t hw.list (fun u => ?_) ?_ ?_)
    (fun v hv => ⟨rfl, rfl, ?_⟩) (.inr hphase) (fun _ _ h => h)
    ⟨rfl, r, ⟨hat.held ▸ hat, hphase, hstat⟩, ?_⟩
  · by_cases hu : u = i
    · subst hu
      obtain ⟨j, o, r', hs, ho, hm⟩ : SlotOk (w.shared.operations u) .applying _ :=
        hphase ▸ hw.slots u
      rw [hphase]
      exact ⟨j, o, r', hs, by simpa [Shared.setData] using ho, hm⟩
    · simpa [Shared.setData, hu] using hw.slots u
  · rw [hh]
    exact hw.lock
  · rw [hh, hat.held]
    exact fun h => by cases h
  · simp [Shared.setData, hv]
  · simp [Shared.setData]

theorem setOpcode_ok (hw : Inv w) (ht : t < numOps)
    (hs : (Scan.setOpcode i).Ok numOps w.shared w.ghost (holder w) t f.id f.op) :
    (outline α numOps).Moves w t (.tau t) (w.shared.setOpcode i .done)
      (some { f with loc := .scanning f.op (scanFrom numOps (i + 1)) }) := by
  obtain ⟨r, ⟨hat, hphase, j, o, hstat⟩, hdata⟩ := hs
  let phase := Function.update w.ghost.phase i .answered
  have hh : ∀ {g}, holder (w.record (.tau t) (w.shared.setOpcode i .done) g) = holder w :=
    holder_record rfl
  have hflight : ∀ id op, InFlight w.ghost i id op →
      Answered { w.ghost with phase := phase } i id op := by
    rintro id op (⟨h, -⟩ | ⟨-, hr⟩ | ⟨-, hr⟩)
    · rw [hphase] at h
      cases h
    · exact ⟨Function.update_self .., hr⟩
    · exact ⟨Function.update_self .., hr⟩
  have happ : ∀ v, phase v ≠ .applying := by
    intro v
    by_cases hv : v = i
    · simp [phase, hv]
    · simpa [phase, hv] using hat.others v hv
  -- the own request keeps its phase, or is answered now
  have hown : InFlight { w.ghost with phase := phase } t f.id f.op ∧
      (t < i + 1 → Answered { w.ghost with phase := phase } t f.id f.op) := by
    by_cases hti : t = i
    · subst hti
      exact ⟨.inr (.inr (hflight _ _ hat.own)), fun _ => hflight _ _ hat.own⟩
    · have hp : phase t = w.ghost.phase t := Function.update_of_ne hti ..
      refine ⟨?_, fun hlt => ?_⟩
      · have hown := hat.own
        simp only [InFlight, Asked, Answered] at hown ⊢
        rwa [hp]
      · obtain ⟨h1, h2⟩ := hat.passed (by omega)
        exact ⟨hp.trans h1, h2⟩
  have hI : Inv (w.record (.tau t) (w.shared.setOpcode i .done)
      { w.ghost with phase := phase }) := by
    refine hw.quiet t hw.list (fun u => ?_) ?_ fun _ => happ
    · by_cases hu : u = i
      · subst hu
        obtain ⟨j', o', r', hs, -, hm⟩ : SlotOk (w.shared.operations u) .applying _ :=
          hphase ▸ hw.slots u
        obtain ⟨rfl, rfl, rfl⟩ : j = j' ∧ o = o' ∧ r = r' := by simpa using hstat.symm.trans hs
        have hans : (answer r).opcode = .done := by cases r <;> rfl
        simp only [phase, Function.update_self, Shared.setOpcode]
        exact ⟨j, o, r, hs, Operation.ext hans.symm hdata, hm⟩
      · simpa [Shared.setOpcode, phase, hu] using hw.slots u
    · rw [hh]
      exact hw.lock
  refine serve_go (i := i) ht hat.held rfl hI
    (fun v hv => ⟨Function.update_of_ne hv .., rfl, ?_⟩) (.inr hphase)
    (fun id op h => .inr (.inr (hflight id op h))) (scanFrom_ok ht hown.1 hown.2 happ)
  simp [Shared.setOpcode, hv]

/-- Every access of a combiner. -/
theorem scan_ok (hw : Inv w) (ht : t < numOps)
    (hs : s.Ok numOps w.shared w.ghost (holder w) t f.id f.op) :
    (outline α numOps).Moves w t (.tau t) (scanStep numOps w.shared s).1
      (some { f with loc := .scanning f.op (scanStep numOps w.shared s).2 }) := by
  have henq := enqueue_ok (f := f) hw ht s
  have hdeq := dequeue_ok (f := f) hw ht s
  cases s with
  | isEnqueue i => exact isEnqueue_ok hw ht hs
  | isDequeue i => exact isDequeue_ok hw ht hs
  | setData i data => exact setData_ok hw ht hs
  | setOpcode i => exact setOpcode_ok hw ht hs
  | enqData | enqNew | enqTail | enqNext | enqSwing => exact henq hs
  | _ => exact hdeq hs

end Combiner

/-! ### Calls -/

section Calls

variable {w : World (machine α numOps) (Ghost α)} {t id : ℕ} {f : Frame (machine α numOps)}
  {op : QueueOp α}

/-- The result of an answered request is in its slot. -/
theorem Inv.answer (hw : Inv w) (ha : Answered w.ghost t id op) :
    ∃ r, w.ghost.stat t = .done id op r ∧
      w.shared.operations t = FlatCombiningQueue.answer r ∧ Matches op r := by
  obtain ⟨hphase, r, hstat⟩ := ha
  obtain ⟨j, o, r', hs, hans, hm⟩ : SlotOk (w.shared.operations t) .answered _ := hphase ▸ hw.slots t
  obtain ⟨rfl, rfl, rfl⟩ : id = j ∧ op = o ∧ r = r' := by simpa using hstat.symm.trans hs
  exact ⟨r, hstat, hans, hm⟩

/-- A call whose request has been answered leaves, and may release the lock. -/
theorem leave_ok (hw : Inv w) (ht : t < numOps) {σ : Shared α}
    (ha : Answered w.ghost t f.id f.op) (hq : σ.queue = w.shared.queue)
    (hops : σ.operations = w.shared.operations)
    (hlock : ∀ e g, e.thread = t → σ.globalLock = (holder (w.record e σ g)).isSome)
    (hnot : ∀ e g, e.thread = t → holder (w.record e σ g) ≠ some t)
    (hh : ∀ e g u, e.thread = t → u ≠ t → (holder (w.record e σ g) = some u ↔ holder w = some u))
    (happ : ∀ e g, e.thread = t → holder (w.record e σ g) = none →
      ∀ u, w.ghost.phase u ≠ .applying) :
    (outline α numOps).Moves w t (Event.ofStep (M := machine α numOps) t (leave f.op)) σ
      (f.resume (leave f.op)) := by
  obtain ⟨r, hstat, hans, hm⟩ := hw.answer ha
  cases hop : f.op with
  | enqueue x =>
    rw [hop] at hm hstat
    cases r with
    | enqueued ok =>
      obtain rfl : ok = true := hm
      exact respond_ok hw hstat (.inr ha.1) hq (fun v _ => by rw [hops]) (by rw [hops, hans]; rfl)
        (fun g => hlock _ g rfl) (fun g => hnot _ g rfl) (fun g u => hh _ g u rfl)
        (fun g => happ _ g rfl)
    | dequeued y => exact hm.elim
  | dequeue =>
    have hsame : ∀ v, SameSlot v w (w.record (.tau t) σ w.ghost) := fun v =>
      ⟨rfl, rfl, congrFun hops v⟩
    refine ⟨w.ghost, hw.quiet t (by rw [hq]; exact hw.list) (fun u => ?_) (hlock _ _ rfl)
      (happ _ _ rfl), ⟨ht, hop, hnot _ _ rfl, hop ▸ ha⟩, fun u hu =>
      rely_own hu (hh _ _ u rfl hu) ⟨hq, rfl⟩ (fun v _ => hsame v) (.inl (hsame t))⟩
    rw [hops]
    exact hw.slots u

theorem lock_ok (hw : Inv w) (ht : t < numOps) (hnot : holder w ≠ some t)
    (hf : InFlight w.ghost t f.id f.op) :
    (outline α numOps).Moves w t
      (Event.ofStep (M := machine α numOps) t (step numOps t w.shared (.lock f.op)).2)
      (step numOps t w.shared (.lock f.op)).1 (f.resume (step numOps t w.shared (.lock f.op)).2) := by
  simp only [step]
  split_ifs with hlock
  · exact read_go hw ht ⟨rfl, hnot, hf⟩
  · have hnone : holder w = none := by
      have := hw.lock
      rw [Bool.not_eq_true] at hlock
      rw [hlock] at this
      simpa using this.symm
    have hh : ∀ g, holder (w.record (.tau t) { w.shared with globalLock := true } g) = some t := by
      intro g
      rw [holder, World.record_trace, lockHolder_append, if_neg (fun h => hlock h.symm), if_pos rfl]
      rfl
    have happ := hw.applying hnone
    have hsame : ∀ v, SameSlot v w (w.record (.tau t) { w.shared with globalLock := true } w.ghost) :=
      fun v => ⟨rfl, rfl, rfl⟩
    refine ⟨w.ghost, hw.quiet t hw.list hw.slots ?_ fun h => ?_, ⟨ht, ?_⟩, fun u hu => ?_⟩
    · rw [hh]
      rfl
    · exact happ
    · show Local.Ok numOps _ _
        (holder (w.record (.tau t) { w.shared with globalLock := true } w.ghost)) t _ _ _
      rw [hh]
      exact scanFrom_ok ht hf (fun h => absurd h (Nat.not_lt_zero t)) happ
    · refine rely_own hu ?_ ⟨rfl, rfl⟩ (fun v _ => hsame v) (.inl (hsame t))
      show holder (w.record (.tau t) { w.shared with globalLock := true } w.ghost) = some u ↔ _
      rw [hh, hnone]
      simp [Ne.symm hu]

theorem unlock_ok (hw : Inv w) (ht : t < numOps) (hheld : holder w = some t)
    (ha : Answered w.ghost t f.id f.op) (happ : ∀ v, w.ghost.phase v ≠ .applying) :
    (outline α numOps).Moves w t (Event.ofStep (M := machine α numOps) t (leave f.op))
      { w.shared with globalLock := false } (f.resume (leave f.op)) := by
  have hlock : w.shared.globalLock = true := by rw [hw.lock, hheld]; rfl
  have hh : ∀ e g, holder (w.record e { w.shared with globalLock := false } g) = none := by
    intro e g
    rw [holder, World.record_trace, lockHolder_append, if_neg (by simp [hlock]), if_neg (by simp)]
  refine leave_ok hw ht ha rfl rfl (fun e g _ => ?_) (fun e g _ => ?_) (fun e g u _ hu => ?_)
    fun _ _ _ _ => happ
  · rw [hh]
    rfl
  · rw [hh]
    simp
  · rw [hh, hheld]
    simp [Ne.symm hu]

theorem poll_ok (hw : Inv w) (ht : t < numOps) (hnot : holder w ≠ some t)
    (hf : InFlight w.ghost t f.id f.op) :
    (outline α numOps).Moves w t
      (Event.ofStep (M := machine α numOps) t (step numOps t w.shared (.poll f.op)).2)
      (step numOps t w.shared (.poll f.op)).1 (f.resume (step numOps t w.shared (.poll f.op)).2) := by
  have hh : ∀ e g, holder (w.record e w.shared g) = holder w := fun e g => holder_record rfl
  simp only [step]
  split_ifs with hopc
  · -- the opcode of a request that is asked or being applied is not `Done`
    have hne : ∀ o : QueueOp α, (request o).opcode ≠ .done := by
      intro o
      cases o <;> simp [request]
    have ha : Answered w.ghost t f.id f.op := by
      rcases hf with ⟨hphase, -⟩ | ⟨hphase, -⟩ | ha
      · obtain ⟨j, o, -, hreq⟩ : SlotOk (w.shared.operations t) .asked _ := hphase ▸ hw.slots t
        rw [hreq] at hopc
        exact absurd hopc (hne o)
      · obtain ⟨j, o, r, -, hreq, -⟩ : SlotOk (w.shared.operations t) .applying _ :=
          hphase ▸ hw.slots t
        rw [hreq] at hopc
        exact absurd hopc (hne o)
      · exact ha
    refine leave_ok hw ht ha rfl rfl (fun e g _ => ?_) (fun e g _ => ?_) (fun e g u _ _ => ?_)
      fun e g _ => ?_
    · rw [hh, hw.lock]
    · rwa [hh]
    · rw [hh]
    · rw [hh]
      exact hw.applying
  · exact read_go hw ht ⟨rfl, hnot, hf⟩

/-- The owner of a vacant slot writes it, and keeps it. -/
theorem vacant_go (hw : Inv w) (ht : t < numOps) {σ : Shared α} {l : Local α}
    (hphase : w.ghost.phase t = .vacant) (hlock : σ.globalLock = w.shared.globalLock)
    (hq : σ.queue = w.shared.queue)
    (hops : ∀ v, v ≠ t → σ.operations v = w.shared.operations v)
    (hopc : (σ.operations t).opcode = .done)
    (hl : l.Ok numOps σ w.ghost (holder w) t f.id f.op) :
    (outline α numOps).Moves w t (.tau t) σ (some { f with loc := l }) := by
  have hh : ∀ {g}, holder (w.record (.tau t) σ g) = holder w := holder_record hlock
  refine own_go ht hlock (hw.quiet t (by rw [hq]; exact hw.list) (fun u => ?_) ?_ ?_) ⟨hq, rfl⟩
    (fun v hv => ⟨rfl, rfl, hops v hv⟩) (.inl hphase) (by rw [hphase]; simp) hl
  · by_cases hu : u = t
    · subst hu
      rw [hphase]
      exact hopc
    · rw [hops u hu]
      exact hw.slots u
  · rw [hh, hlock]
    exact hw.lock
  · rw [hh]
    exact hw.applying

theorem publish_ok (hw : Inv w) (ht : t < numOps)
    (hl : (Local.setOpcode f.op).Ok numOps w.shared w.ghost (holder w) t f.id f.op) :
    (outline α numOps).Moves w t (.tau t) (w.shared.setOpcode t (request f.op).opcode)
      (some { f with loc := .lock f.op }) := by
  obtain ⟨-, hnot, hphase, hstat, hdata⟩ := hl
  have hh : ∀ {g}, holder (w.record (.tau t)
      (w.shared.setOpcode t (request f.op).opcode) g) = holder w := holder_record rfl
  refine own_go (g := { w.ghost with phase := Function.update w.ghost.phase t .asked }) ht rfl
    (hw.quiet t hw.list (fun u => ?_) ?_ fun h u => ?_) ⟨rfl, rfl⟩
    (fun v hv => ⟨Function.update_of_ne hv .., rfl, ?_⟩) (.inl hphase) (by simp)
    ⟨rfl, hnot, .inl ⟨Function.update_self .., hstat⟩⟩
  · by_cases hu : u = t
    · subst hu
      simp only [Function.update_self, Shared.setOpcode]
      exact ⟨f.id, f.op, hstat, Operation.ext rfl hdata⟩
    · simpa [Shared.setOpcode, hu] using hw.slots u
  · rw [hh]
    exact hw.lock
  · rw [hh] at h
    by_cases hu : u = t
    · simp [hu]
    · simpa [hu] using hw.applying h u
  · simp [Shared.setOpcode, hv]

/-- The dequeuer reads its result, and takes its slot back. -/
theorem readData_ok (hw : Inv w) (ht : t < numOps) (hop : f.op = .dequeue)
    (hnot : holder w ≠ some t) (ha : Answered w.ghost t f.id .dequeue) :
    (outline α numOps).Moves w t (.tau t) w.shared
      (some { f with loc := .clearData (w.shared.operations t).data }) := by
  obtain ⟨r, hstat, hans, hm⟩ := hw.answer ha
  cases r with
  | enqueued ok => exact hm.elim
  | dequeued x =>
    have hh : ∀ {g}, holder (w.record (.tau t) w.shared g) = holder w := holder_record rfl
    refine own_go (g := { w.ghost with phase := Function.update w.ghost.phase t .vacant }) ht rfl
      (hw.quiet t hw.list (fun u => ?_) ?_ fun h u => ?_) ⟨rfl, rfl⟩
      (fun v hv => ⟨Function.update_of_ne hv .., rfl, rfl⟩) (.inr ha.1) (by simp)
      ⟨hop, hnot, Function.update_self .., ?_⟩
    · by_cases hu : u = t
      · subst hu
        simp only [Function.update_self]
        show (w.shared.operations u).opcode = .done
        rw [hans]
        rfl
      · simpa [hu] using hw.slots u
    · rw [hh]
      exact hw.lock
    · rw [hh] at h
      by_cases hu : u = t
      · simp [hu]
      · simpa [hu] using hw.applying h u
    · rw [hans]
      exact hstat

theorem Inv.vacant (hw : Inv w) (hphase : w.ghost.phase t = .vacant) :
    (w.shared.operations t).opcode = .done := by
  have hslot := hw.slots t
  rwa [hphase] at hslot

/-- Every access of a call. -/
theorem call_ok (hw : Inv w) (ht : t < numOps)
    (hl : f.loc.Ok numOps w.shared w.ghost (holder w) t f.id f.op) :
    (outline α numOps).Moves w t
      (Event.ofStep (M := machine α numOps) t (step numOps t w.shared f.loc).2)
      (step numOps t w.shared f.loc).1 (f.resume (step numOps t w.shared f.loc).2) := by
  cases hloc : f.loc with
  | setData op =>
    rw [hloc] at hl
    obtain ⟨rfl, hnot, hphase, hstat⟩ := hl
    show (outline α numOps).Moves w t (.tau t) (w.shared.setData t (request f.op).data)
      (some { f with loc := .setOpcode f.op })
    refine vacant_go hw ht hphase rfl rfl (fun v hv => ?_) ?_ ⟨rfl, hnot, hphase, hstat, ?_⟩
    · simp [Shared.setData, hv]
    · simpa [Shared.setData] using hw.vacant hphase
    · simp [Shared.setData]
  | setOpcode op =>
    rw [hloc] at hl
    obtain rfl := hl.1
    exact publish_ok hw ht hl
  | lock op =>
    rw [hloc] at hl
    obtain ⟨rfl, hnot, hf⟩ := hl
    exact lock_ok hw ht hnot hf
  | poll op =>
    rw [hloc] at hl
    obtain ⟨rfl, hnot, hf⟩ := hl
    exact poll_ok hw ht hnot hf
  | scan op s =>
    rw [hloc] at hl
    obtain ⟨rfl, hs⟩ := hl
    exact scan_ok hw ht hs
  | unlock op =>
    rw [hloc] at hl
    obtain ⟨rfl, hheld, ha, happ⟩ := hl
    exact unlock_ok hw ht hheld ha happ
  | readData =>
    rw [hloc] at hl
    obtain ⟨hop, hnot, ha⟩ := hl
    exact readData_ok hw ht hop hnot ha
  | clearData item =>
    rw [hloc] at hl
    obtain ⟨hop, hnot, hphase, hstat⟩ := hl
    show (outline α numOps).Moves w t (.tau t) (w.shared.setData t none)
      (some { f with loc := .clearOpcode item })
    refine vacant_go hw ht hphase rfl rfl (fun v hv => ?_) ?_ ⟨hop, hnot, hphase, hstat⟩
    · simp [Shared.setData, hv]
    · simpa [Shared.setData] using hw.vacant hphase
  | clearOpcode item =>
    rw [hloc] at hl
    obtain ⟨hop, hnot, hphase, hstat⟩ := hl
    have hh : ∀ g, holder (w.record (.res t (.dequeued item)) (w.shared.setOpcode t .done) g) =
        holder w := fun g => holder_record rfl
    show (outline α numOps).Moves w t (.res t (.dequeued item)) (w.shared.setOpcode t .done) none
    refine respond_ok hw hstat (.inl hphase) rfl (fun v hv => ?_) ?_ (fun g => ?_) (fun g => ?_)
      (fun g u _ => ?_) fun g => ?_
    · simp [Shared.setOpcode, hv]
    · simp [Shared.setOpcode]
    · rw [hh]
      exact hw.lock
    · rwa [hh]
    · rw [hh]
    · rw [hh]
      exact hw.applying

end Calls

/-! ### All runs -/

theorem outline_sound : (outline α numOps).Sound always where
  init := by
    refine ⟨⟨[], [], fun _ => .idle, fun _ => .vacant⟩,
      ⟨tracks_init _, ⟨by simp, by simp, by simp, by simp⟩, fun _ => rfl, SingleList.holds_init, rfl,
        by simp⟩, fun t => ⟨by simp [holder, lockHolder], rfl, rfl⟩⟩
  stable := by
    intro w e σ g t f _ _ hf _ hr
    cases f with
    | none =>
      obtain ⟨hh, hp, hs⟩ := hf
      obtain ⟨hp', hs', -⟩ := hr.mine (.inl hp)
      exact ⟨hr.not_holder hh, hp'.trans hp, hs'.trans hs⟩
    | some f => exact ⟨hf.1, hf.2.rely hr⟩
  call := by
    intro w t op hw hidle ha
    obtain ⟨hnot, hphase, hstat⟩ := hidle
    have hh : ∀ g, holder (w.record (.inv t op) w.shared g) = holder w := fun g => holder_record rfl
    refine ⟨{ w.ghost with
        stat := Function.update w.ghost.stat t (.pending w.events.length op none) },
      ⟨?_, hw.log.extend rfl, fun u => ?_, hw.list, ?_, ?_⟩,
      ⟨by simpa using ha, rfl, ?_, hphase, ?_⟩, fun u hu => ?_⟩
    · rw [World.record_events]
      exact hw.tracks.inv hstat op
    · by_cases hu : u = t
      · subst hu
        simp only [World.record_ghost, World.record_shared, hphase]
        exact hw.vacant hphase
      · simp only [World.record_ghost, World.record_shared, Function.update_of_ne hu]
        exact hw.slots u
    · rw [hh]
      exact hw.lock
    · rw [hh]
      exact hw.applying
    · rwa [hh]
    · simp
    · refine rely_own hu (by rw [hh]) ⟨rfl, rfl⟩
        (fun v hv => ⟨rfl, Function.update_of_ne hv .., rfl⟩) (.inr ?_)
      simp [hphase]
  run := by
    intro w t f ch σ o hw hf _ hs
    have hok := call_ok hw hf.1 hf.2
    rw [Option.some.inj hs] at hok
    exact hok

/-- **FlatCombiningQueue is a linearizable FIFO queue.**  In every reachable configuration
the requests that were applied to the list, in this order, are a run of a FIFO queue that
ends in the items of the list; every call that returned is one of them, with its result,
and the order is consistent with real time. -/
theorem linearizable_fifo {c : Config (machine α numOps)} (hc : Reach (machine α numOps) always c) :
    ∃ log q, LogOk c.trace log ∧ Order c.events (log.map (·.call)) ∧
      (queueSpec α).Accepts (log.map (·.call)) q ∧ c.shared.queue.items = q.map some := by
  obtain ⟨g, hw, -⟩ := outline_sound.reach hc
  exact ⟨g.log, g.queue, hw.log, hw.tracks.order, hw.tracks.accepts, hw.list.items⟩

/-- Thread 1 combines the requests of both threads. -/
def combinedByOther : List (Action (machine ℕ 2)) :=
  List.flatten [[.call 0 (.enqueue 5)], turns 0 () 2, [.call 1 .dequeue], turns 1 () 25,
    turns 0 () 2, turns 1 () 4]

theorem linearizable_fifo_combinedByOther :
    ∃ c : Config (machine ℕ 2),
      (.res 1 (.dequeued (some 5)) ∈ c.events ∧ .res 0 (.enqueued true) ∈ c.events) ∧
      ∃ log q, LogOk c.trace log ∧ Order c.events (log.map (·.call)) ∧
        (queueSpec ℕ).Accepts (log.map (·.call)) q ∧ c.shared.queue.items = q.map some := by
  have h : ∃ c, Reach (machine ℕ 2) always c ∧ decide (.res 1 (.dequeued (some 5)) ∈ c.events ∧
      .res 0 (.enqueued true) ∈ c.events) = true :=
    Reach.exists_of_any always combinedByOther _ (by decide)
  obtain ⟨c, hc, hp⟩ := h
  exact ⟨c, of_decide_eq_true hp, linearizable_fifo hc⟩

end FlatCombiningQueue

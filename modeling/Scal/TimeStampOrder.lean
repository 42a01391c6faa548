/-
Timestamps that count.

A class of timestamps is `Counting` when every timestamp is a number that no
`set_timestamp` beginning later draws again: `low` is the least number that one beginning
now can store, and `setLow` the least that one under way still can.  Its clocks are written
by their own threads only, and grow by at most one for every item.

* `atomicCounting` — `AtomicCounterTimestamp`: `read_time` may return the number that the
  next item gets;
* `stutteringCounting` — `StutteringTimestamp`: several items may get the same number, but
  none that begins after `read_time` gets the number that it returned (`gap`).
-/
import Scal.TimeStamp
import Mathlib.Order.Interval.Finset.Nat
import Mathlib.Order.Lattice.Nat
import Mathlib.Data.Finset.Lattice.Fold

/-- The number of 8-byte words in the memory that 64-bit pointers can address. -/
def addressSpace : ℕ := 0x2000000000000000

structure Counting (T : TimeStamp) (numThreads : ℕ) where
  value : T.Stamp → ℕ
  time : T.Time → ℕ
  low : T.Clock → ℕ
  setLow : T.Clock → T.Setting → ℕ
  readLow : T.Clock → T.Reading → ℕ
  /-- How much later the timestamps are that are drawn after `read_time`. -/
  gap : ℕ
  /-- What the other threads do to the clock, as thread `u` sees it. -/
  Advance : ℕ → T.Clock → T.Clock → Prop
  SetOk : ℕ → T.Clock → T.Setting → Prop
  ReadOk : T.Clock → T.Reading → Prop
  /-- The clock did not advance for this item yet. -/
  fresh : T.Setting → Bool
  top : value T.initTopAtomic = uint64Max
  initTop : time T.initTop = uint64Max
  load : ∀ s l, ∃ τ, T.loadStep s l = .inr τ ∧ time τ = value s
  isLater : ∀ a b, T.isLater a b = decide (time b < time a)
  clock : low T.clock ≤ 2
  refl : ∀ u c, Advance u c c
  low_le : ∀ {u c c'}, Advance u c c' → low c ≤ low c'
  setLow_le : ∀ {u c c'} s, Advance u c c' → setLow c s ≤ setLow c' s
  readLow_le : ∀ {u c c'} r, Advance u c c' → readLow c r ≤ readLow c' r
  setOk : ∀ {u c c' s}, SetOk u c s → Advance u c c' → SetOk u c' s
  readOk : ∀ {u c c' r}, ReadOk c r → Advance u c c' → ReadOk c' r
  setStart : ∀ {t} c, t < numThreads → SetOk t c (T.setTimestamp t) ∧
    fresh (T.setTimestamp t) = true ∧ low c ≤ setLow c (T.setTimestamp t)
  setStep : ∀ {t ch c st s c' st' o}, SetOk t c s → low c < uint64Max →
    T.setStep ch c st s = (c', st', o) →
    (∀ u, u ≠ t → Advance u c c') ∧ low c ≤ low c' ∧
    (low c' ≤ low c ∨
      low c' ≤ low c + 1 ∧ fresh s = true ∧ ∀ s', o = some s' → fresh s' = false) ∧
    (∀ s', o = some s' → st' = st ∧ SetOk t c' s' ∧ setLow c s ≤ setLow c' s' ∧
      (fresh s' = true → fresh s = true)) ∧
    (o = none → setLow c s ≤ value st' ∧ value st' < low c')
  readStart : ∀ c, 0 < numThreads → ReadOk c T.readTime ∧ low c ≤ readLow c T.readTime + 1
  readStep : ∀ {ch c r}, ReadOk c r →
    (∀ r', T.readStep ch c r = .inl r' → ReadOk c r' ∧ readLow c r ≤ readLow c r') ∧
    (∀ τ, T.readStep ch c r = .inr τ → readLow c r ≤ time τ ∧ time τ + gap ≤ low c)

/-- The clock advances at most once for the item `p`. -/
theorem Counting.tick {T : TimeStamp} {n p : ℕ} (C : Counting T n) {c c' : T.Clock}
    {s : T.Setting} {next : Option T.Setting} {ticked : Finset ℕ}
    (htick : C.low c' ≤ C.low c ∨
      C.low c' ≤ C.low c + 1 ∧ C.fresh s = true ∧ ∀ s', next = some s' → C.fresh s' = false)
    (hkeep : ∀ s', next = some s' → C.fresh s' = true → C.fresh s = true)
    (hp : C.fresh s = true → p ∉ ticked) (hclock : C.low c ≤ ticked.card + 2) :
    ∃ ticked' : Finset ℕ, (∀ q ∈ ticked', q ∈ ticked ∨ q = p) ∧
      C.low c' ≤ ticked'.card + 2 ∧ ∀ s', next = some s' → C.fresh s' = true → p ∉ ticked' := by
  rcases htick with hsame | ⟨hone, hfresh, hthen⟩
  · exact ⟨ticked, fun q hq => Or.inl hq, hsame.trans hclock,
      fun s' hs' hf => hp (hkeep s' hs' hf)⟩
  · refine ⟨insert p ticked, fun q hq => (Finset.mem_insert.mp hq).symm, ?_, fun s' hs' hf => ?_⟩
    · rw [Finset.card_insert_of_notMem (hp hfresh)]
      omega
    · rw [hthen s' hs'] at hf
      cases hf

/-- The clock is below the number of an item that was just drawn. -/
def CounterOk (clock : ℕ) : CounterSetting → Prop
  | .fetchAdd => True
  | .store time => time < clock

def counterLow (clock : ℕ) : CounterSetting → ℕ
  | .fetchAdd => clock
  | .store time => time

def atomicCounting (numThreads : ℕ) : Counting atomicCounter numThreads where
  value := id
  time := id
  low clock := clock
  setLow := counterLow
  readLow clock _ := clock
  gap := 0
  Advance _ c c' := c ≤ c'
  SetOk _ := CounterOk
  ReadOk _ _ := True
  fresh s := s matches .fetchAdd
  top := rfl
  initTop := rfl
  load s _ := ⟨s, rfl, rfl⟩
  isLater _ _ := rfl
  clock := (by decide : (1 : ℕ) ≤ 2)
  refl _ _ := le_rfl
  low_le h := h
  setLow_le s h := by
    cases s with
    | fetchAdd => exact h
    | store time => exact le_rfl
  readLow_le _ h := h
  setOk {u c c' s} hs h := by
    cases s with
    | fetchAdd => trivial
    | store time => exact lt_of_lt_of_le hs h
  readOk _ _ := trivial
  setStart c _ := ⟨trivial, rfl, le_rfl⟩
  setStep := by
    intro t ch c st s c' st' o hs hlow he
    cases s with
    | fetchAdd =>
      obtain ⟨rfl, rfl, rfl⟩ : (c + 1) % wordSize = c' ∧ st = st' ∧ some (.store c) = o := by
        simpa using he
      have hmod : (c + 1) % wordSize = c + 1 := by
        refine Nat.mod_eq_of_lt ?_
        rw [uint64Max] at hlow
        omega
      rw [hmod]
      refine ⟨fun _ _ => Nat.le_succ c, Nat.le_succ c, Or.inr ⟨le_rfl, rfl, fun s' h => ?_⟩,
        fun s' h => ?_, fun h => by cases h⟩
      · obtain rfl := Option.some.inj h
        rfl
      · obtain rfl := Option.some.inj h
        exact ⟨rfl, Nat.lt_succ_self c, le_rfl, fun h => by cases h⟩
    | store time =>
      obtain ⟨rfl, rfl, rfl⟩ : c = c' ∧ time = st' ∧ none = o := by simpa using he
      exact ⟨fun _ _ => le_rfl, le_rfl, Or.inl le_rfl, fun s' h => (by cases h),
        fun _ => ⟨le_rfl, hs⟩⟩
  readStart c _ := ⟨trivial, Nat.le_succ c⟩
  readStep := by
    intro ch c r _
    refine ⟨fun r' h => (by cases h), fun τ h => ?_⟩
    obtain rfl := Sum.inr.inj h
    exact ⟨le_rfl, le_rfl⟩

namespace Stuttering

/-- The latest of the clocks from `i` on. -/
def latest (numThreads : ℕ) (clocks : ℕ → ℕ) (i : ℕ) : ℕ := (Finset.Ico i numThreads).sup clocks

variable {numThreads : ℕ} {clocks clocks' : ℕ → ℕ} {i t : ℕ}

theorem latest_mono (h : ∀ i, clocks i ≤ clocks' i) (i : ℕ) :
    latest numThreads clocks i ≤ latest numThreads clocks' i :=
  Finset.sup_mono_fun fun j _ => h j

/-- One clock after the other. -/
theorem latest_eq (hi : i < numThreads) :
    latest numThreads clocks i = max (clocks i) (latest numThreads clocks (i + 1)) := by
  have hIco : Finset.Ico i numThreads = insert i (Finset.Ico (i + 1) numThreads) := by
    ext j
    rw [Finset.mem_insert, Finset.mem_Ico, Finset.mem_Ico]
    omega
  rw [latest, hIco, Finset.sup_insert]
  rfl

theorem latest_end : latest numThreads clocks numThreads = 0 := by
  rw [latest, Finset.Ico_self, Finset.sup_empty]
  rfl

theorem le_latest (hi : i < numThreads) : clocks i ≤ latest numThreads clocks 0 :=
  Finset.le_sup (f := clocks) (Finset.mem_Ico.mpr ⟨Nat.zero_le i, hi⟩)

/-- What thread `t` knows about its own clock and the others'. -/
def Ok (numThreads t : ℕ) (clocks : ℕ → ℕ) : StutteringSetting → Prop
  | .scan u i latestTime => u = t ∧ t < numThreads ∧ i < numThreads ∧
    latestTime ≤ latest numThreads clocks 0 ∧ (t < i → clocks t ≤ latestTime)
  | .tick u latestTime => u = t ∧ t < numThreads ∧ latestTime ≤ latest numThreads clocks 0 ∧
    clocks t ≤ latestTime
  | .store latestTime => t < numThreads ∧ latestTime + 1 = clocks t

def setLow (numThreads : ℕ) (clocks : ℕ → ℕ) : StutteringSetting → ℕ
  | .scan _ i latestTime => max latestTime (latest numThreads clocks i) + 1
  | .tick _ latestTime => latestTime + 1
  | .store latestTime => latestTime + 1

/-- A clock that a thread's own `store` advances. -/
theorem latest_update {m : ℕ} (hm : m ≤ latest numThreads clocks 0) :
    latest numThreads (Function.update clocks t (m + 1)) 0 ≤ latest numThreads clocks 0 + 1 := by
  refine Finset.sup_le fun j hj => ?_
  by_cases hjt : j = t
  · rw [hjt, Function.update_self]
    exact Nat.succ_le_succ hm
  · rw [Function.update_of_ne hjt]
    exact (le_latest (Finset.mem_Ico.mp hj).2).trans (Nat.le_succ _)

theorem le_update {m : ℕ} (hm : clocks t ≤ m) (i : ℕ) :
    clocks i ≤ Function.update clocks t (m + 1) i := by
  by_cases hi : i = t
  · rw [hi, Function.update_self]
    exact hm.trans (Nat.le_succ m)
  · rw [Function.update_of_ne hi]

/-- What a thread's `read_time` has seen, and what it will still see. -/
def readLow (numThreads : ℕ) (clocks : ℕ → ℕ) (r : StutteringReading) : ℕ :=
  max r.latestTime (latest numThreads clocks r.i)

/-- The thread's own clock stays, and the others grow. -/
def Advance (t : ℕ) (clocks clocks' : ℕ → ℕ) : Prop :=
  (∀ i, clocks i ≤ clocks' i) ∧ clocks' t = clocks t

theorem Ok.advance {s : StutteringSetting} (hs : Ok numThreads t clocks s)
    (h : Advance t clocks clocks') : Ok numThreads t clocks' s := by
  have hle : latest numThreads clocks 0 ≤ latest numThreads clocks' 0 := latest_mono h.1 0
  cases s with
  | scan u i latestTime =>
    obtain ⟨hu, ht, hi, hl, hown⟩ := hs
    refine ⟨hu, ht, hi, hl.trans hle, fun hti => ?_⟩
    rw [h.2]
    exact hown hti
  | tick u latestTime =>
    obtain ⟨hu, ht, hl, hown⟩ := hs
    refine ⟨hu, ht, hl.trans hle, ?_⟩
    rw [h.2]
    exact hown
  | store latestTime => exact ⟨hs.1, hs.2.trans h.2.symm⟩

theorem setLow_mono (h : ∀ i, clocks i ≤ clocks' i) (s : StutteringSetting) :
    setLow numThreads clocks s ≤ setLow numThreads clocks' s := by
  cases s with
  | scan u i latestTime => exact Nat.succ_le_succ (max_le_max le_rfl (latest_mono h i))
  | tick u latestTime => exact le_rfl
  | store latestTime => exact le_rfl

/-- The loop looks at one more clock. -/
theorem max_latest (hi : i < numThreads) (latestTime : ℕ) :
    max latestTime (latest numThreads clocks i) =
      max (max latestTime (clocks i)) (latest numThreads clocks (i + 1)) := by
  rw [latest_eq hi, max_assoc]

theorem max_latest_end (hi : i < numThreads) (hend : ¬ i + 1 < numThreads) (latestTime : ℕ) :
    max latestTime (latest numThreads clocks i) = max latestTime (clocks i) := by
  obtain rfl : numThreads = i + 1 := by omega
  rw [max_latest hi, latest_end, Nat.max_zero]

/-- The clock was not advanced yet. -/
def unticked : StutteringSetting → Bool
  | .store _ => false
  | _ => true

/-- The thread's clock does not wrap. -/
def Fits : StutteringSetting → Prop
  | .scan _ _ _ => True
  | .tick _ latestTime => latestTime + 1 < wordSize
  | .store latestTime => latestTime + 1 < wordSize

/-- `set_timestamp` advances the thread's own clock once, at `tick`, and stores a number that
no other clock had before it began. -/
theorem setStep_ok {c c' : ℕ → ℕ} {ch : Unit} {st st' : ℕ} {s : StutteringSetting}
    {o : Option StutteringSetting} (hs : Ok numThreads t c s) (hfits : Fits s)
    (he : (stuttering numThreads).setStep ch c st s = (c', st', o)) :
    (∀ u, u ≠ t → Advance u c c') ∧ latest numThreads c 0 + 1 ≤ latest numThreads c' 0 + 1 ∧
    (latest numThreads c' 0 + 1 ≤ latest numThreads c 0 + 1 ∨
      latest numThreads c' 0 + 1 ≤ latest numThreads c 0 + 1 + 1 ∧
      unticked s = true ∧ ∀ s', o = some s' → unticked s' = false) ∧
    (∀ s', o = some s' → st' = st ∧ Ok numThreads t c' s' ∧
      setLow numThreads c s ≤ setLow numThreads c' s' ∧
      (unticked s' = true → unticked s = true)) ∧
    (o = none → setLow numThreads c s ≤ st' ∧ st' < latest numThreads c' 0 + 1) := by
  cases s with
  | scan u i latestTime =>
    obtain ⟨rfl, ht, hi, hl, hown⟩ := hs
    have hnew : max latestTime (c i) ≤ latest numThreads c 0 := max_le hl (le_latest hi)
    have hown' : u < i + 1 → c u ≤ max latestTime (c i) := by
      intro hu
      rcases Nat.lt_or_eq_of_le (Nat.le_of_lt_succ hu) with hu | rfl
      · exact (hown hu).trans (le_max_left ..)
      · exact le_max_right ..
    simp only at he
    split_ifs at he with hend
    · obtain ⟨rfl, rfl, rfl⟩ : c = c' ∧ st = st' ∧
          some (.scan u (i + 1) (max latestTime (c i))) = o := by simpa using he
      refine ⟨fun _ _ => ⟨fun _ => le_rfl, rfl⟩, le_rfl, Or.inl le_rfl, fun s' h => ?_,
        fun h => by cases h⟩
      obtain rfl := Option.some.inj h
      exact ⟨rfl, ⟨rfl, ht, hend, hnew, hown'⟩,
        Nat.succ_le_succ (max_latest hi latestTime).le, fun _ => rfl⟩
    · obtain ⟨rfl, rfl, rfl⟩ : c = c' ∧ st = st' ∧
          some (.tick u (max latestTime (c i))) = o := by simpa using he
      refine ⟨fun _ _ => ⟨fun _ => le_rfl, rfl⟩, le_rfl, Or.inl le_rfl, fun s' h => ?_,
        fun h => by cases h⟩
      obtain rfl := Option.some.inj h
      exact ⟨rfl, ⟨rfl, ht, hnew, hown' (by omega)⟩,
        Nat.succ_le_succ (max_latest_end hi hend latestTime).le, fun _ => rfl⟩
  | tick u latestTime =>
    obtain ⟨rfl, ht, hl, hown⟩ := hs
    have hmod : (latestTime + 1) % wordSize = latestTime + 1 := Nat.mod_eq_of_lt hfits
    obtain ⟨rfl, rfl, rfl⟩ : Function.update c u ((latestTime + 1) % wordSize) = c' ∧
        st = st' ∧ some (.store latestTime) = o := by simpa using he
    rw [hmod]
    refine ⟨fun v hv => ⟨le_update hown, Function.update_of_ne hv ..⟩,
      Nat.succ_le_succ (latest_mono (le_update hown) 0),
      Or.inr ⟨Nat.succ_le_succ (latest_update hl), rfl, fun s' h => ?_⟩, fun s' h => ?_,
      fun h => by cases h⟩
    · obtain rfl := Option.some.inj h
      rfl
    · obtain rfl := Option.some.inj h
      exact ⟨rfl, ⟨ht, (Function.update_self u (latestTime + 1) c).symm⟩, le_rfl, fun _ => rfl⟩
  | store latestTime =>
    obtain ⟨ht, hl⟩ := hs
    have hle : latestTime + 1 ≤ latest numThreads c 0 := hl ▸ le_latest ht
    have hmod : (latestTime + 1) % wordSize = latestTime + 1 := Nat.mod_eq_of_lt hfits
    obtain ⟨rfl, rfl, rfl⟩ : c = c' ∧ (latestTime + 1) % wordSize = st' ∧ none = o := by
      simpa using he
    rw [hmod]
    exact ⟨fun _ _ => ⟨fun _ => le_rfl, rfl⟩, le_rfl, Or.inl le_rfl, fun s' h => (by cases h),
      fun _ => ⟨le_rfl, Nat.lt_succ_of_le hle⟩⟩

end Stuttering

open Stuttering in
def stutteringCounting (numThreads : ℕ) : Counting (stuttering numThreads) numThreads where
  value := id
  time := id
  low clocks := latest numThreads clocks 0 + 1
  setLow := setLow numThreads
  readLow := readLow numThreads
  gap := 1
  Advance := Advance
  SetOk t clocks s := Ok numThreads t clocks s
  ReadOk clocks r := r.i < numThreads ∧ r.latestTime ≤ latest numThreads clocks 0
  fresh := unticked
  top := rfl
  initTop := rfl
  load s _ := ⟨s, rfl, rfl⟩
  isLater _ _ := rfl
  clock := Nat.succ_le_succ (Finset.sup_le fun _ _ => le_rfl)
  refl _ _ := ⟨fun _ => le_rfl, rfl⟩
  low_le h := Nat.succ_le_succ (latest_mono h.1 0)
  setLow_le s h := setLow_mono h.1 s
  readLow_le r h := max_le_max le_rfl (latest_mono h.1 r.i)
  setOk h ha := h.advance ha
  readOk h ha := ⟨h.1, h.2.trans (latest_mono ha.1 0)⟩
  setStart {t} c ht := by
    refine ⟨⟨rfl, ht, Nat.zero_lt_of_lt ht, Nat.zero_le _, fun h => absurd h (Nat.not_lt_zero _)⟩,
      rfl, ?_⟩
    show latest numThreads c 0 + 1 ≤ max 0 (latest numThreads c 0) + 1
    rw [Nat.zero_max]
  setStep {t ch c st s c' st' o} hs hlow he := by
    refine setStep_ok hs ?_ he
    rw [uint64Max] at hlow
    cases s with
    | scan u i latestTime => trivial
    | tick u latestTime =>
      have hl := hs.2.2.1
      show latestTime + 1 < wordSize
      omega
    | store latestTime =>
      have hl : latestTime + 1 ≤ latest numThreads c 0 := hs.2 ▸ le_latest hs.1
      show latestTime + 1 < wordSize
      omega
  readStart c hn := by
    refine ⟨⟨hn, Nat.zero_le _⟩, ?_⟩
    show latest numThreads c 0 + 1 ≤ max 0 (latest numThreads c 0) + 1
    rw [Nat.zero_max]
  readStep := by
    rintro ch c ⟨i, latestTime⟩ ⟨hi, hl⟩
    have hnew : max latestTime (c i) ≤ latest numThreads c 0 := max_le hl (le_latest hi)
    refine ⟨fun r' h => ?_, fun τ h => ?_⟩
    · simp only at h
      split_ifs at h with hend
      obtain rfl := Sum.inl.inj h
      exact ⟨⟨hend, hnew⟩, (max_latest hi latestTime).le⟩
    · simp only at h
      split_ifs at h with hend
      obtain rfl := Sum.inr.inj h
      exact ⟨(max_latest_end hi hend latestTime).le, Nat.succ_le_succ hnew⟩


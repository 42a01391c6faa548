/-
The layouts of `AtomicValue` (`util/atomic_value128.h`, `util/atomic_value64_base.h`,
`util/atomic_value64_no_offset.h` and `util/atomic_value64_offset.h`).

The word has 64 bits of value and 64 bits of ABA, or 61 bits and 3 bits: then the value is
shifted (`AtomicValue64NoOffset`), or its own three lowest bits are not kept
(`AtomicValue64Offset`).  `T` is a type of 64 bits.  The loops take a bounded number of passes,
of which a single thread needs one.

* `Encodes` — the word of an abstract cell, in any of the layouts;
* `layouts_refine` — the layouts refine the abstract cell.
-/
import Scal.CellProgram
import Scal.WordFields

open WordFields CellProgram

namespace AtomicLayouts

/-! ### The program -/

/-- `do body while (!done)`, in at most so many passes. -/
def doWhile {S : Type} (body : S → Option (S × Bool)) : ℕ → S → Option S
  | 0, _ => none
  | passes + 1, s =>
    (body s).bind fun p => if p.2 then some p.1 else doWhile body passes p.1

/-- `__sync_bool_compare_and_swap`: the word afterwards, and whether it was replaced. -/
def compareAndSwap {w : ℕ} (memory old new : BitVec w) : BitVec w × Bool :=
  if memory = old then (new, true) else (memory, false)

end AtomicLayouts

open AtomicLayouts

/-- `AtomicValue128`. -/
structure AtomicValue128 where
  memory : BitVec 128
  deriving DecidableEq

namespace AtomicValue128

/-- `UINT128_C(std::numeric_limits<uint64_t>::max())`. -/
def maxAba : BitVec 128 := (BitVec.allOnes 64).setWidth 128

def raw (passes : ℕ) (c : AtomicValue128) : Option (BitVec 128) :=
  doWhile (fun _ =>
    let old := c.memory
    some (old, decide (c.memory = old))) passes 0

def aba (passes : ℕ) (c : AtomicValue128) : Option (BitVec 64) :=
  (c.raw passes).map fun r => (r &&& maxAba).setWidth 64

def value (passes : ℕ) (c : AtomicValue128) : Option (BitVec 64) :=
  (c.raw passes).map fun r : BitVec 128 => (r >>> 64).setWidth 64

def weakSetValue (c : AtomicValue128) (value : BitVec 64) : AtomicValue128 :=
  let newMemory := c.memory &&& maxAba
  ⟨newMemory ||| value.setWidth 128 <<< 64⟩

def weakSetAba (c : AtomicValue128) (aba : BitVec 64) : AtomicValue128 :=
  let newMemory := c.memory &&& (maxAba <<< 64)
  ⟨newMemory ||| aba.setWidth 128⟩

/-- The loop of the setters: the word is read, and replaced by `f` of it. -/
def swap (passes : ℕ) (f : BitVec 128 → BitVec 128) (c : AtomicValue128) : Option AtomicValue128 :=
  doWhile (fun c => (c.raw passes).map fun old =>
    let r := compareAndSwap c.memory old (f old)
    (⟨r.1⟩, r.2)) passes c

def setValue (passes : ℕ) (c : AtomicValue128) (value : BitVec 64) : Option AtomicValue128 :=
  c.swap passes fun old => old &&& maxAba ||| value.setWidth 128 <<< 64

def setAba (passes : ℕ) (c : AtomicValue128) (aba : BitVec 64) : Option AtomicValue128 :=
  c.swap passes fun old => old &&& (maxAba <<< 64) ||| aba.setWidth 128

def setRaw (passes : ℕ) (c : AtomicValue128) (newRaw : BitVec 128) : Option AtomicValue128 :=
  c.swap passes fun _ => newRaw

def cas (c expected newcp : AtomicValue128) : AtomicValue128 × Bool :=
  if c.memory = expected.memory then
    let r := compareAndSwap c.memory expected.memory newcp.memory
    (⟨r.1⟩, r.2)
  else (c, false)

def init (value aba : BitVec 64) : AtomicValue128 :=
  ((⟨0⟩ : AtomicValue128).weakSetValue value).weakSetAba aba

/-- The copy constructors and the assignments read the other cell by `raw`. -/
def members (passes : ℕ) : Members AtomicValue128 (BitVec 128) where
  default := init 0 0
  new := init
  copy c := (c.raw passes).map .mk
  assign _ rhs := (rhs.raw passes).map .mk
  value := value passes
  aba c := (c.aba passes).map (·.toNat)
  raw := raw passes
  setRaw := setRaw passes
  setValue := setValue passes
  weakSetValue c value := some (c.weakSetValue value)
  setAba := setAba passes
  weakSetAba c aba := some (c.weakSetAba aba)
  cas := cas

end AtomicValue128

/-- `AtomicValue64Base`. -/
structure AtomicValue64Base where
  memory : BitVec 64
  deriving DecidableEq

namespace AtomicValue64Base

/-- An `AtomicAba` here, which is a `uint8_t`. -/
def kAbaMax : BitVec 8 := 0x7

def kAbaBits : ℕ := 3

/-- `std::numeric_limits<uint64_t>::max() - kAbaMax`. -/
def valueMask : BitVec 64 := BitVec.allOnes 64 - kAbaMax.setWidth 64

def raw (c : AtomicValue64Base) : BitVec 64 := c.memory

def aba (c : AtomicValue64Base) : BitVec 8 := (c.raw &&& kAbaMax.setWidth 64).setWidth 8

def setAba (c : AtomicValue64Base) (aba : BitVec 8) : AtomicValue64Base :=
  let newMemory := c.memory &&& valueMask
  ⟨newMemory ||| (aba &&& kAbaMax).setWidth 64⟩

def setRaw (_ : AtomicValue64Base) (newRaw : BitVec 64) : AtomicValue64Base := ⟨newRaw⟩

def cas (c expected newcp : AtomicValue64Base) : AtomicValue64Base × Bool :=
  if c.memory = expected.memory then
    let r := compareAndSwap c.memory expected.memory newcp.memory
    (⟨r.1⟩, r.2)
  else (c, false)

/-- `init` of a class with this `set_value`. -/
def init (setValue : AtomicValue64Base → BitVec 64 → AtomicValue64Base) (value : BitVec 64)
    (aba : BitVec 8) : AtomicValue64Base :=
  (setValue ⟨0⟩ value).setAba aba

/-- The class with these virtual functions.  A counter is converted to `AtomicAba`. -/
def members (value : AtomicValue64Base → BitVec 64)
    (setValue : AtomicValue64Base → BitVec 64 → AtomicValue64Base) :
    Members AtomicValue64Base (BitVec 64) where
  default := init setValue 0 0
  new v aba := init setValue v (aba.setWidth 8)
  copy c := some ⟨c.raw⟩
  assign _ rhs := some ⟨rhs.raw⟩
  value c := some (value c)
  aba c := some c.aba.toNat
  raw c := some c.raw
  setRaw c w := some (c.setRaw w)
  setValue c v := some (setValue c v)
  weakSetValue c v := some (setValue c v)
  setAba c aba := some (c.setAba (aba.setWidth 8))
  weakSetAba c aba := some (c.setAba (aba.setWidth 8))
  cas := cas

end AtomicValue64Base

namespace AtomicValue64NoOffset

open AtomicValue64Base

def value (c : AtomicValue64Base) : BitVec 64 := c.raw >>> kAbaBits

def setValue (c : AtomicValue64Base) (value : BitVec 64) : AtomicValue64Base :=
  let newValue := value <<< kAbaBits
  let newMemory := c.memory &&& kAbaMax.setWidth 64
  ⟨newMemory ||| newValue⟩

def members : Members AtomicValue64Base (BitVec 64) := AtomicValue64Base.members value setValue

end AtomicValue64NoOffset

namespace AtomicValue64Offset

open AtomicValue64Base

def value (c : AtomicValue64Base) : BitVec 64 := c.raw &&& valueMask

def setValue (c : AtomicValue64Base) (value : BitVec 64) : AtomicValue64Base :=
  let newValue := value &&& valueMask
  let newMemory := c.memory &&& kAbaMax.setWidth 64
  ⟨newMemory ||| newValue⟩

def members : Members AtomicValue64Base (BitVec 64) := AtomicValue64Base.members value setValue

end AtomicValue64Offset

namespace AtomicLayouts

/-! ### The word of an abstract cell -/

section Encodes

/-- The word holds the value, divided by `d`, above the counter. -/
def Encodes {w : ℕ} (k d : ℕ) (x : BitVec w) (p : AtomicValue (BitVec 64)) : Prop :=
  d ∣ p.value.toNat ∧ Holds k x (p.value.toNat / d) p.aba

variable {w k d : ℕ} {x y z : BitVec w} {p q r : AtomicValue (BitVec 64)}

theorem encodes_zero : Encodes k d (0 : BitVec w) ⟨0, 0⟩ := by
  refine ⟨Nat.dvd_zero d, ?_⟩
  show Holds k 0 (0 / d) 0
  rw [Nat.zero_div]
  exact holds_zero

/-- Words are equal exactly if the abstract cells are. -/
theorem Encodes.eq_iff (hx : Encodes k d x p) (hy : Encodes k d y q) : x = y ↔ p = q := by
  obtain ⟨v, a⟩ := p
  obtain ⟨v', a'⟩ := q
  rw [hx.2.eq_iff hy.2, AtomicValue.mk.injEq]
  refine and_congr_left fun _ => ⟨fun h => ?_, fun h => by rw [h]⟩
  have hv : v.toNat = v'.toNat := by
    rw [← Nat.div_mul_cancel hx.1, ← Nat.div_mul_cancel hy.1]
    exact congrArg (· * d) h
  exact BitVec.eq_of_toNat_eq hv

/-- `cas` succeeds exactly if the abstract cells are equal. -/
theorem Encodes.cas (hx : Encodes k d x p) (hy : Encodes k d y q) (hz : Encodes k d z r) :
    Encodes k d (compareAndSwap x y z).1 (if p = q then (r, true) else (p, false)).1 ∧
      (compareAndSwap x y z).2 = (if p = q then (r, true) else (p, false)).2 := by
  rw [compareAndSwap]
  by_cases h : p = q
  · rw [if_pos ((hx.eq_iff hy).mpr h), if_pos h]
    exact ⟨hz, rfl⟩
  · rw [if_neg (mt (hx.eq_iff hy).mp h), if_neg h]
    exact ⟨hx, rfl⟩

end Encodes

/-! ### One word of 128 bits -/

section Layout128

open AtomicValue128

variable {c : AtomicValue128} {p : AtomicValue (BitVec 64)} {a v : BitVec 64}

theorem doWhile_once {S : Type} {body : S → Option (S × Bool)} {s s' : S} (passes : ℕ)
    (h : body s = some (s', true)) : doWhile body (passes + 1) s = some s' := by
  rw [doWhile, h]
  rfl

theorem raw_eq (passes : ℕ) (c : AtomicValue128) : c.raw (passes + 1) = some c.memory :=
  doWhile_once passes (by simp)

theorem swap_eq (passes : ℕ) (f : BitVec 128 → BitVec 128) (c : AtomicValue128) :
    c.swap (passes + 1) f = some ⟨f c.memory⟩ := by
  refine doWhile_once passes ?_
  rw [raw_eq, Option.map_some, compareAndSwap, if_pos rfl]

theorem isLow_maxAba : IsLow 64 maxAba := by
  show maxAba.toNat = _
  decide

theorem isHigh_maxAba : IsHigh 64 (maxAba <<< 64) := by
  show (maxAba <<< 64).toNat = _
  decide

theorem toNat_value_shift (v : BitVec 64) :
    (v.setWidth 128 <<< 64).toNat = 2 ^ 64 * (v.toNat / 1) := by
  have hv : (v.setWidth 128).toNat = v.toNat :=
    BitVec.toNat_setWidth_of_le (show 64 ≤ 128 by decide)
  have hlt : (v.setWidth 128).toNat < 2 ^ (128 - 64) := by
    rw [hv]
    exact v.isLt
  rw [toNat_shiftLeft_of_lt hlt (by decide), hv, Nat.div_one]

/-- A new value leaves the counter. -/
theorem Encodes.set_value128 {x : BitVec 128} (hx : Encodes 64 1 x p) (v : BitVec 64) :
    Encodes 64 1 (x &&& maxAba ||| v.setWidth 128 <<< 64) { p with value := v } :=
  ⟨Nat.one_dvd _, hx.2.set_high isLow_maxAba (toNat_value_shift v)⟩

/-- A new counter leaves the value. -/
theorem Encodes.set_aba128 {x : BitVec 128} (hx : Encodes 64 1 x p) (a : BitVec 64) :
    Encodes 64 1 (x &&& (maxAba <<< 64) ||| a.setWidth 128)
      { p with aba := a.toNat % wordSize } := by
  have hlt : a.toNat < wordSize := a.isLt
  refine ⟨hx.1, hx.2.set_low (by decide) isHigh_maxAba ?_ (Nat.mod_lt _ (by decide))⟩
  rw [Nat.mod_eq_of_lt hlt]
  exact BitVec.toNat_setWidth_of_le (show 64 ≤ 128 by decide)

theorem shows128 (passes : ℕ) (hc : Encodes 64 1 c.memory p) :
    Shows (AtomicValue128.members (passes + 1)) c p := by
  have hvalue := hc.2.shiftRight
  have haba := hc.2.and_low isLow_maxAba
  have hlt := hc.2.lt
  rw [Nat.div_one] at hvalue
  constructor
  · show (c.raw (passes + 1)).map _ = _
    rw [raw_eq, Option.map_some, Option.some.injEq]
    refine BitVec.eq_of_toNat_eq ?_
    rw [BitVec.toNat_setWidth, hvalue]
    exact Nat.mod_eq_of_lt p.value.isLt
  · show ((c.raw (passes + 1)).map _).map _ = _
    rw [raw_eq, Option.map_some, Option.map_some, Option.some.injEq, BitVec.toNat_setWidth, haba]
    exact Nat.mod_eq_of_lt hlt

theorem simulates128 (passes : ℕ) :
    Simulates (AtomicValue128.members (passes + 1)) (pair wordSize) (fun _ => True)
      (fun c => Encodes 64 1 c.memory) (Encodes 64 1) where
  default := (encodes_zero.set_value128 0).set_aba128 0
  new v a _ := (encodes_zero.set_value128 v).set_aba128 a
  copy c p hc := by
    show Option.Rel _ ((c.raw (passes + 1)).map _) _
    rw [raw_eq]
    exact .some hc
  assign c p d q _ hd := by
    show Option.Rel _ ((d.raw (passes + 1)).map _) _
    rw [raw_eq]
    exact .some hd
  raw c p hc := by
    show Option.Rel _ (c.raw (passes + 1)) _
    rw [raw_eq]
    exact .some hc
  setRaw c p w w' _ hw := by
    show Option.Rel _ (c.swap (passes + 1) _) _
    rw [swap_eq]
    exact .some hw
  setValue c p v hc _ := by
    show Option.Rel _ (c.swap (passes + 1) _) _
    rw [swap_eq]
    exact .some (hc.set_value128 v)
  weakSetValue c p v hc _ := .some (hc.set_value128 v)
  setAba c p a hc := by
    show Option.Rel _ (c.swap (passes + 1) _) _
    rw [swap_eq]
    exact .some (hc.set_aba128 a)
  weakSetAba c p a hc := .some (hc.set_aba128 a)
  cas c p d q e r hc hd he := by
    have h := hc.cas hd he
    show Encodes 64 1 (c.cas d e).1.memory _ ∧ (c.cas d e).2 = _
    rw [AtomicValue128.cas]
    split_ifs with heq
    · exact h
    · rw [compareAndSwap, if_neg heq] at h
      exact h

end Layout128

/-! ### One word of 64 bits -/

section Layout64

open AtomicValue64Base

variable {d : ℕ} {c : AtomicValue64Base} {p : AtomicValue (BitVec 64)} {x : BitVec 64}
  {value : AtomicValue64Base → BitVec 64}
  {setValue : AtomicValue64Base → BitVec 64 → AtomicValue64Base} {ok : BitVec 64 → Prop}

theorem isLow_kAbaMax : IsLow 3 (kAbaMax.setWidth 64) := by
  show (kAbaMax.setWidth 64).toNat = _
  decide

theorem isHigh_valueMask : IsHigh 3 valueMask := by
  show valueMask.toNat = _
  decide

/-- A new counter leaves the value. -/
theorem Encodes.set_aba64 (hc : Encodes 3 d c.memory p) (a : BitVec 8) :
    Encodes 3 d (c.setAba a).memory { p with aba := a.toNat % 8 } := by
  refine ⟨hc.1, hc.2.set_low (by decide) isHigh_valueMask ?_ (Nat.mod_lt _ (by decide))⟩
  have hmod : (a &&& kAbaMax).toNat = a.toNat % 8 := by
    rw [BitVec.toNat_and]
    exact Nat.and_two_pow_sub_one_eq_mod a.toNat 3
  rw [BitVec.toNat_setWidth, hmod]
  exact Nat.mod_eq_of_lt (by omega)

theorem aba_eq (hc : Encodes 3 d c.memory p) : c.aba.toNat = p.aba := by
  have hlt := hc.2.lt
  rw [aba, BitVec.toNat_setWidth, raw, hc.2.and_low isLow_kAbaMax]
  exact Nat.mod_eq_of_lt (by omega)

/-- The class simulates the abstract cell if its virtual functions do. -/
theorem simulates64 (h0 : ok 0)
    (hset : ∀ c p v, Encodes 3 d c.memory p → ok v →
      Encodes 3 d (setValue c v).memory { p with value := v }) :
    Simulates (AtomicValue64Base.members value setValue) (pair 8) ok
      (fun c => Encodes 3 d c.memory) (Encodes 3 d) where
  default := (hset ⟨0⟩ ⟨0, 0⟩ 0 encodes_zero h0).set_aba64 0
  new v a hv := by
    have h := (hset ⟨0⟩ ⟨0, 0⟩ v encodes_zero hv).set_aba64 (a.setWidth 8)
    rwa [BitVec.toNat_setWidth, Nat.mod_mod_of_dvd _ (by decide)] at h
  copy c p hc := .some hc
  assign c p e q _ he := .some he
  raw c p hc := .some hc
  setRaw c p w w' _ hw := .some hw
  setValue c p v hc hv := .some (hset c p v hc hv)
  weakSetValue c p v hc hv := .some (hset c p v hc hv)
  setAba c p a hc := by
    have h := hc.set_aba64 (a.setWidth 8)
    rw [BitVec.toNat_setWidth, Nat.mod_mod_of_dvd _ (by decide)] at h
    exact .some h
  weakSetAba c p a hc := by
    have h := hc.set_aba64 (a.setWidth 8)
    rw [BitVec.toNat_setWidth, Nat.mod_mod_of_dvd _ (by decide)] at h
    exact .some h
  cas c p e q f r hc he hf := by
    have h := hc.cas he hf
    show Encodes 3 d (c.cas e f).1.memory _ ∧ (c.cas e f).2 = _
    rw [AtomicValue64Base.cas]
    split_ifs with heq
    · exact h
    · rw [compareAndSwap, if_neg heq] at h
      exact h

theorem value_noOffset (hc : Encodes 3 1 c.memory p) :
    AtomicValue64NoOffset.value c = p.value := by
  refine BitVec.eq_of_toNat_eq ?_
  rw [AtomicValue64NoOffset.value, raw, kAbaBits, hc.2.shiftRight, Nat.div_one]

theorem setValue_noOffset (hc : Encodes 3 1 c.memory p) {v : BitVec 64} (hv : v.toNat < 2 ^ 61) :
    Encodes 3 1 (AtomicValue64NoOffset.setValue c v).memory { p with value := v } := by
  refine ⟨Nat.one_dvd _, hc.2.set_high isLow_kAbaMax ?_⟩
  rw [kAbaBits, toNat_shiftLeft_of_lt hv (by decide), Nat.div_one]

theorem value_offset (hc : Encodes 3 8 c.memory p) :
    AtomicValue64Offset.value c = p.value := by
  refine BitVec.eq_of_toNat_eq ?_
  rw [AtomicValue64Offset.value, raw, hc.2.and_high (by decide) isHigh_valueMask]
  exact Nat.mul_div_cancel' hc.1

theorem setValue_offset (hc : Encodes 3 8 c.memory p) {v : BitVec 64} (hv : 8 ∣ v.toNat) :
    Encodes 3 8 (AtomicValue64Offset.setValue c v).memory { p with value := v } := by
  refine ⟨hv, hc.2.set_high isLow_kAbaMax ?_⟩
  have hv' : Holds 3 v (v.toNat / 8) 0 := ⟨(Nat.mul_div_cancel' hv).symm, by decide⟩
  exact hv'.and_high (by decide) isHigh_valueMask

end Layout64

/-! ### The layouts refine the abstract cell -/

/-- **The layouts agree**: in every program on variables, cells of 128 bits show what a pair of
value and counter does, and so do cells of 64 bits with a counter modulo 8, shifted for values
below `2 ^ 61` and not shifted for multiples of 8. -/
theorem layouts_refine (passes : ℕ) :
    Refines (AtomicValue128.members (passes + 1)) wordSize (fun _ => True) ∧
      Refines AtomicValue64NoOffset.members 8 (fun v => v.toNat < 2 ^ 61) ∧
      Refines AtomicValue64Offset.members 8 (fun v => 8 ∣ v.toNat) := by
  refine ⟨(simulates128 passes).refines fun c p => shows128 passes, ?_, ?_⟩
  · refine (simulates64 (d := 1) (by decide) fun c p v hc hv => setValue_noOffset hc hv).refines
      fun c p hc => ⟨congrArg some (value_noOffset hc), congrArg some (aba_eq hc)⟩
  · refine (simulates64 (d := 8) (by decide) fun c p v hc hv => setValue_offset hc hv).refines
      fun c p hc => ⟨congrArg some (value_offset hc), congrArg some (aba_eq hc)⟩

/-- A counter of 9 is a counter of 1 in three bits, so that `cas` succeeds. -/
example : (AtomicValue64NoOffset.members.run (fun _ => none)
    [.new 0 5 1, .new 1 5 9, .cas 0 1 1]).map (·.2) = some [true] := by decide

end AtomicLayouts

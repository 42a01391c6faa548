/-
Words of a value and an ABA counter.

Every pointer and every item slot of the lock-free structures is an
`AtomicValue<T>` (`AtomicPointer<T>` when `T` is a pointer): a value together
with a counter, read, written and compared as one word.  Here the counter is a
natural number, so it does not wrap.
-/
import Mathlib.Data.Nat.Notation

/-- `AtomicValue<T>`: the two components `value()` and `aba()` of one word. -/
structure AtomicValue (α : Type) where
  value : α
  aba : ℕ
  deriving DecidableEq

/-- `AtomicPointer<T*>`: addresses are numbers, and `NULL` is `0`. -/
abbrev AtomicPointer := AtomicValue ℕ

/-- The number of values of a `uint64_t`. -/
def wordSize : ℕ := 0x10000000000000000

/-
  Libsd/Basic.lean
  ================
  **C strings, error codes, and the ways a call can fail to return a value.**

  Text is a list of bytes without the terminating NUL.  A function that in C
  returns an error code, or NULL for one, is modelled in `Except Stop`: `.err`
  is the code, and the two other constructors are the ways the C function does
  not return at all.
-/
import Mathlib.Algebra.Ring.Int.Defs
import Mathlib.Algebra.Ring.Nat
import Mathlib.Data.Rat.Defs

namespace Libsd

/-- A NUL-terminated C string, without its NUL. -/
abbrev CStr := List UInt8

/-- The bytes of a source-code string constant. -/
def cstr (s : String) : CStr := s.toUTF8.toList

/-- `SDErrorEnum`, less `SD_ERR_NO_ERROR` and the marker `SD_ERR_MIN`. -/
inductive SDErr where
  | nomem | badFile | unspecified | badXml | badLex | eof | circular
deriving DecidableEq, Repr

/-- Undefined behaviour a call can run into. -/
inductive Undefined where
  | nullDeref          -- a NULL pointer is followed
  | outOfBounds        -- a buffer is read or written outside its bounds
  | argsOverflow       -- `svisit` stores past the end of `args[6]`
  | conversion         -- a double out of range is converted to `size_t`
  | slabRow            -- a row past the end of the slab is accessed
deriving DecidableEq, Repr

/-- Why a call does not produce a value. -/
inductive Stop where
  | err (code : SDErr)
  | undefined (why : Undefined)
  | diverge            -- the recursion outruns every bound the model allows it
deriving DecidableEq, Repr

/-- A value that a computation is seen to return. -/
theorem exists_ok {ε α : Type} {x : Except ε α} {P : α → Bool}
    (h : (match x with | .ok a => P a | .error _ => false) = true) :
      ∃ a, x = .ok a ∧ P a = true := by
  cases x with
  | error e => simp at h
  | ok a => exact ⟨a, rfl, h⟩

/-! ### The count in an `int` -/

/-- The conversion of a `size_t` to `int`. -/
def toInt (n : Nat) : ℤ := Int.bmod n (2 ^ 32)

/-- Taking the balanced remainder makes no natural number larger. -/
theorem bmod_le_self (n m : Nat) : Int.bmod n m ≤ n := by
  have hmod : (n : ℤ) % (m : ℤ) ≤ n := by
    rw [← Int.natCast_emod]
    exact Int.ofNat_le.mpr (Nat.mod_le n m)
  have hm : (0 : ℤ) ≤ m := Int.natCast_nonneg m
  rw [Int.bmod]
  split
  · exact hmod
  · exact Int.le_trans (Int.sub_le_self _ hm) hmod

theorem toInt_le (n : Nat) : toInt n ≤ n := bmod_le_self n _

theorem toInt_lt (n : Nat) : toInt n < 2 ^ 31 := by
  have h : toInt n < (((2 ^ 32 : Nat) : ℤ) + 1) / 2 := Int.bmod_lt (by omega)
  omega

theorem toInt_of_lt {n : Nat} (h : n < 2 ^ 31) : toInt n = n := by
  apply Int.bmod_eq_of_le
  · omega
  · omega

end Libsd

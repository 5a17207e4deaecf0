/-
  Libsd/Libc.lean
  ===============
  **What is used of the C library and of the machine's arithmetic.**

  `strtod` can give a number, an infinity or a NaN.  `isspace` is only defined for a byte; what
  it gives for a rune past that, of which `strtrim` asks it all the same, is anything.
-/
import Libsd.Basic
import Libsd.Lib.Rounding
import Libsd.Utf.Rune

namespace Libsd

open Utf

def COMMA : UInt8 := 0x2C

/-- White space of the C locale. -/
def isWhite (c : UInt8) : Bool := c = 0x20 || decide (0x09 ≤ c ∧ c ≤ 0x0D)

structure Libc where
  arith : Rounding
  isspace : Rune → Bool
  /-- The number at the start of a text, and the text behind it. -/
  strtod : CStr → Double × CStr
  /-- Whether `strtod` sets `errno` to `ERANGE`. -/
  erange : CStr → Bool
  isspace_byte : ∀ c : UInt8, isspace c.toNat = isWhite c
  value : ∀ {s q}, (strtod s).1 = .num q → arith.Value q
  suffix : ∀ s, (strtod s).2 <:+ s
  /-- It stops at the end of the number, and no number goes on behind a comma. -/
  behind : ∀ s t, COMMA ∉ s → strtod (s ++ COMMA :: t) = ((strtod s).1, (strtod s).2 ++ COMMA :: t)
  erange_behind : ∀ s t, COMMA ∉ s → erange (s ++ COMMA :: t) = erange s

end Libsd

/-
  Libsd/Utf/Rune.lean
  ===================
  **Runes and their UTF-8 encoding, from `libutf/rune.c`.**

  The decoder works on the bytes from a position to the end of the string; the
  byte after the last one is the terminating NUL, which is what `getD _ 0` reads.
-/
import Libsd.Basic

namespace Libsd.Utf

/-- `unsigned int` in the source. -/
abbrev Rune := Nat

def Runeerror : Rune := 0xFFFD
def Runemax : Rune := 0x10FFFF

def Tx : Nat := 0x80
def T2 : Nat := 0xC0
def T3 : Nat := 0xE0
def T4 : Nat := 0xF0
def T5 : Nat := 0xF8

def Rune1 : Nat := 0x7F
def Rune2 : Nat := 0x7FF
def Rune3 : Nat := 0xFFFF
def Rune4 : Nat := 0x1FFFFF

def Maskx : Nat := 0x3F
def Testx : Nat := 0xC0

/-- The byte at offset `i`, the terminator included. -/
def byteAt (s : CStr) (i : Nat) : Nat := (s.getD i 0).toNat

/-- The decoded rune and the number of bytes it took; a bad sequence is one byte. -/
def chartorune (s : CStr) : Rune × Nat :=
  let bad := (Runeerror, 1)
  let c := byteAt s 0
  if c < Tx then (c, 1)
  else
    let c1 := byteAt s 1 ^^^ Tx
    if c1 &&& Testx ≠ 0 then bad
    else if c < T3 then
      if c < T2 then bad
      else
        let l := ((c <<< 6) ||| c1) &&& Rune2
        if l ≤ Rune1 then bad else (l, 2)
    else
      let c2 := byteAt s 2 ^^^ Tx
      if c2 &&& Testx ≠ 0 then bad
      else if c < T4 then
        let l := ((((c <<< 6) ||| c1) <<< 6) ||| c2) &&& Rune3
        if l ≤ Rune2 then bad else (l, 3)
      else
        let c3 := byteAt s 3 ^^^ Tx
        if c3 &&& Testx ≠ 0 then bad
        else if c < T5 then
          let l := ((((((c <<< 6) ||| c1) <<< 6) ||| c2) <<< 6) ||| c3) &&& Rune4
          if l ≤ Rune3 then bad else if l > Runemax then bad else (l, 4)
        else bad

theorem chartorune_pos (s : CStr) : 0 < (chartorune s).2 := by
  simp only [chartorune]
  split_ifs <;> exact Nat.succ_pos _

/-- The UTF-8 encoding of a rune. -/
def runetochar (rune : Rune) : CStr :=
  if rune ≤ Rune1 then [UInt8.ofNat rune]
  else if rune ≤ Rune2 then
    [UInt8.ofNat (T2 ||| (rune >>> 6)), UInt8.ofNat (Tx ||| (rune &&& Maskx))]
  else
    let c := if rune > Runemax then Runeerror else rune
    if c ≤ Rune3 then
      [UInt8.ofNat (T3 ||| (c >>> 12)), UInt8.ofNat (Tx ||| ((c >>> 6) &&& Maskx)),
        UInt8.ofNat (Tx ||| (c &&& Maskx))]
    else
      [UInt8.ofNat (T4 ||| (c >>> 18)), UInt8.ofNat (Tx ||| ((c >>> 12) &&& Maskx)),
        UInt8.ofNat (Tx ||| ((c >>> 6) &&& Maskx)), UInt8.ofNat (Tx ||| (c &&& Maskx))]

def runelen (c : Rune) : Nat := (runetochar c).length

theorem runelen_pos (c : Rune) : 0 < runelen c := by
  unfold runelen runetochar
  split
  · simp
  · split
    · simp
    · split
      · dsimp only
        split <;> simp
      · dsimp only
        split <;> simp

/-- Whether the first `n` bytes hold a whole sequence, judged by the first byte. -/
def fullrune (s : CStr) (n : Nat) : Bool :=
  if n = 0 then false
  else
    let c := byteAt s 0
    if c < Tx then true
    else if c < T3 then decide (2 ≤ n)
    else if c < T4 then decide (3 ≤ n)
    else decide (4 ≤ n)

/-- The macro `charntorune(p,s,n)`: nothing is stored when it yields 0.  A negative
    count, which `fullrune` receives as an `int`, behaves as the count 0. -/
def charntorune (s : CStr) (n : Nat) : Option (Rune × Nat) :=
  if fullrune s n then some (chartorune s) else none

theorem charntorune_zero (s : CStr) : charntorune s 0 = none := by
  simp [charntorune, fullrune]

end Libsd.Utf

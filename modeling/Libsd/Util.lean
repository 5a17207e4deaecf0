/-
  Libsd/Util.lean
  ===============
  **The string helpers and the table lookup of `util.c`.**

  `utf8_tolower` rewrites its buffer in place and stores no terminator of its
  own, so what follows the rewritten part is what was there before.  When some
  rune would grow, the buffer it reallocates has no room for a terminator and
  the copy runs into its own input; that case is `none`.
-/
import Libsd.Libc
import Libsd.Utf.RuneType

namespace Libsd

open Utf

/-- The runes read by repeated `charntorune`, each with its byte count, up to the
    end or to the first sequence that is cut short. -/
def runesLoop : Nat → CStr → List (Rune × Nat)
  | 0, _ => []
  | fuel + 1, s =>
    match charntorune s s.length with
    | none => []
    | some (r, n) => (r, n) :: runesLoop fuel (s.drop n)

def runes (s : CStr) : List (Rune × Nat) := runesLoop s.length s

def utf8Tolower (s : CStr) : Option CStr :=
  let us := runes s
  let needsRealloc := us.any fun u => decide (runelen (tolowerrune u.1) > u.2)
  let d := us.flatMap fun u => runetochar (tolowerrune u.1)
  if needsRealloc then none else some (d ++ s.drop d.length)

section
variable (C : Libc)

/-- The first loop of `strtrim`: what is left after the leading white space. -/
def strtrimFront : Nat → CStr → CStr
  | 0, s => s
  | fuel + 1, s =>
    match charntorune s s.length with
    | none => s
    | some (r, n) => if r = 0 || !C.isspace r then s else strtrimFront fuel (s.drop n)

/-- The second loop of `strtrim`: `len` bytes are left, and the last `i` of them are
    tried for a rune. -/
def strtrimBack (s : CStr) : Nat → Nat → Nat → Except Stop Nat
  | 0, _, _ => .error .diverge
  | fuel + 1, len, i =>
    if len = 0 then .ok 0
    else if i > len then .error (.undefined .outOfBounds)
    else
      match charntorune (s.drop (len - i)) i with
      | none => .ok len
      | some (r, _) =>
        if r = Runeerror then strtrimBack s fuel len (i + 1)
        else if !C.isspace r then .ok len
        else strtrimBack s fuel (len - i) 1

def strtrim (s : CStr) : Except Stop CStr := do
  let s := strtrimFront C s.length s
  let len ← strtrimBack C s (s.length + 1) s.length 1
  return s.take len

end

/-- The scan of `strrepl`: what follows a replacement is searched from its end. -/
def strreplLoop (orig new : CStr) : Nat → CStr → CStr
  | 0, s => s
  | fuel + 1, s =>
    if orig.isPrefixOf s then new ++ strreplLoop orig new fuel (s.drop orig.length)
    else
      match s with
      | [] => []
      | c :: rest => c :: strreplLoop orig new fuel rest

def strrepl (s orig new : CStr) : CStr :=
  if orig.length < new.length then s else strreplLoop orig new (s.length + 1) s

/-- `none` is the write at index `len - 2*off` when that is negative, or
    `utf8_tolower` failing. -/
def canonicalize (n : CStr) : Option CStr :=
  let len := n.length
  let quoted := decide (len > 0) && n.head? == some 0x22 && n.getLast? == some 0x22
  let off := if quoted then 1 else 0
  if len < 2 * off then none
  else do
    let result ← utf8Tolower ((n.drop off).take (len - 2 * off))
    let result := strrepl result (cstr "\\\\") (cstr "\\")
    let result := strrepl result (cstr "\\n") (cstr "_")
    let result := strrepl result (cstr "\\r") (cstr "_")
    let result := strrepl result (cstr "\n") (cstr "_")
    let result := strrepl result (cstr "\r") (cstr "_")
    return strrepl result (cstr " ") (cstr "_")

/-- A graphical function: two arrays of `len` doubles. -/
structure Table where
  x : List ℚ
  y : List ℚ
  len_eq : y.length = x.length
deriving DecidableEq, Repr

def Table.len (t : Table) : Nat := t.x.length

/-- The element at `i` of an array of doubles. -/
def elemAt (a : List ℚ) (i : Nat) : Except Stop ℚ :=
  match a[i]? with
  | some v => .ok v
  | none => .error (.undefined .outOfBounds)

/-- The binary search of `lookup`. -/
def lookupSearch (x : List ℚ) (index : ℚ) : Nat → Nat → Nat → Except Stop Nat
  | 0, low, high => if low < high then .error .diverge else .ok low
  | fuel + 1, low, high =>
    if low < high then do
      let mid := low + (high - low) / 2
      let xm ← elemAt x mid
      if xm < index then lookupSearch x index fuel (mid + 1) high
      else lookupSearch x index fuel low mid
    else .ok low

/-- At `i = 0` the C code reads `x[-1]`. -/
def lookup (t : Table) (index : ℚ) : Except Stop ℚ := do
  if t.len = 0 then return 0
  let x0 ← elemAt t.x 0
  let xl ← elemAt t.x (t.len - 1)
  if index < x0 then elemAt t.y 0
  else if index > xl then elemAt t.y (t.len - 1)
  else
    let i ← lookupSearch t.x index t.len 0 t.len
    let xi ← elemAt t.x i
    if xi = index then elemAt t.y i
    else if i = 0 then .error (.undefined .outOfBounds)
    else
      let yi ← elemAt t.y i
      let xp ← elemAt t.x (i - 1)
      let yp ← elemAt t.y (i - 1)
      let slope := (yi - yp) / (xi - xp)
      return (index - xp) * slope + yp

end Libsd

/-
  Libsd/Lexer.lean
  ================
  **The lexer of `parse.c`, over the bytes of the lower-cased equation.**

  A lexer function that returns `none` for the token is the C function returning
  `SD_ERR_EOF`.  Line and column numbers are left out: nothing here reads them.  Texts are
  shorter than 2^31 bytes, so a position or a count keeps its value in an `int`.
-/
import Libsd.Util

namespace Libsd

open Utf

inductive TokenType where
  | token | ident | reserved | number
deriving DecidableEq, Repr

/-- `start` is the text of the token; `len` is its length. -/
structure Token where
  start : CStr
  type : TokenType
deriving DecidableEq, Repr

/-- `tpeek` is present when the source has `havetpeek` set. -/
structure Lexer where
  src : CStr
  peek : Rune
  len : Nat
  pos : Nat
  tpeek : Option Token
deriving DecidableEq, Repr

def rune (c : Char) : Rune := c.toNat

def RESERVED : List CStr := [cstr "if", cstr "then", cstr "else"]

/-- `OP_WORDS`, each with the text of `OP_SHORT` at the same index. -/
def OP_WORDS : List (CStr × CStr) :=
  [(cstr "not", cstr "!"), (cstr "and", cstr "&"), (cstr "or", cstr "|"), (cstr "mod", cstr "%")]

/-- The first rune comes from the caller's string, the later ones from the lowered copy. -/
def lexerInit (src : CStr) : Except Stop Lexer :=
  match utf8Tolower src with
  | none => .error (.undefined .outOfBounds)
  | some s =>
    let peek := match charntorune src s.length with
      | some (r, _) => r
      | none => 0
    .ok { src := s, peek := peek, len := s.length, pos := 0, tpeek := none }

def nextrune (l : Lexer) : Lexer :=
  if l.pos < l.len then
    let pos := l.pos + runelen l.peek
    let peek := match charntorune (l.src.drop pos) (l.len - pos) with
      | some (r, _) => r
      | none => 0
    { l with pos := pos, peek := peek }
  else { l with peek := 0 }

/-- The `do` loop of `skip_whitespace`: `stop` is its `break`, and the comment
    flag is the one the condition `nextrune(l)` is reached with. -/
def skipWhitespaceLoop : Nat → Bool → Lexer → Except Stop Lexer
  | 0, _, _ => .error .diverge
  | fuel + 1, inComment, l =>
    let stop := !inComment && l.peek != rune '\x7b' && !isspacerune l.peek
    let inComment := if inComment then l.peek != rune '\x7d' else l.peek == rune '\x7b'
    if stop then .ok l
    else if (nextrune l).peek = 0 then .ok (nextrune l)
    else skipWhitespaceLoop fuel inComment (nextrune l)

def skipWhitespace (l : Lexer) : Except Stop Lexer := skipWhitespaceLoop (l.len + 1) false l

def isDigit (r : Rune) : Bool := decide (r ≥ rune '0' ∧ r ≤ rune '9')

def numstart (r : Rune) : Bool := isDigit r || r == rune '.'

def identstart (r : Rune) : Bool :=
  !numstart r && (isalpharune r || r == rune '_' || r == rune '\x22')

/-- The bytes copied into a token that started at `pos`; the source buffer ends
    one byte, its terminator, past `len`. -/
def tokenText (l : Lexer) (pos : Nat) : Except Stop CStr :=
  if l.pos ≤ l.len + 1 then .ok ((l.src.drop pos).take (l.pos - pos))
  else .error (.undefined .outOfBounds)

def lexNumberLoop : Nat → Bool → Bool → Bool → Lexer → Except Stop Lexer
  | 0, _, _, _, _ => .error .diverge
  | fuel + 1, haveE, haveDot1, haveDot2, l =>
    let l := nextrune l
    let r := l.peek
    if r = 0 then .ok l
    else if isDigit r then lexNumberLoop fuel haveE haveDot1 haveDot2 l
    else if r = rune '.' then
      if !haveE && !haveDot1 then lexNumberLoop fuel haveE true haveDot2 l
      else if haveE && !haveDot2 then lexNumberLoop fuel haveE haveDot1 true l
      else .ok l
    else if r = rune 'e' then
      if !haveE then lexNumberLoop fuel true haveDot1 haveDot2 l
      else .ok l
    else .ok l

def lexNumber (l : Lexer) : Except Stop (Token × Lexer) := do
  let pos := l.pos
  let l ← lexNumberLoop (l.len + 1) false false false l
  let text ← tokenText l pos
  return ({ start := text, type := .number }, l)

def lexIdentLoop (quoted : Bool) : Nat → Lexer → Except Stop Lexer
  | 0, _ => .error .diverge
  | fuel + 1, l =>
    let l := nextrune l
    let r := l.peek
    if r = 0 then .ok l
    else if isalpharune r then lexIdentLoop quoted fuel l
    else if r = rune '_' then lexIdentLoop quoted fuel l
    else if isDigit r then lexIdentLoop quoted fuel l
    else if quoted && r == rune '\x22' then .ok (nextrune l)
    else if quoted && isspacerune r then lexIdentLoop quoted fuel l
    else .ok l

/-- The type and text a word ends up with: reserved words, then operator words. -/
def classifyWord (text : CStr) : Token :=
  match OP_WORDS.find? (fun w => text == w.1) with
  | some (_, short) => { start := short, type := .token }
  | none => { start := text, type := if RESERVED.contains text then .reserved else .ident }

def lexIdent (l : Lexer) : Except Stop (Token × Lexer) := do
  let quoted := l.peek == rune '\x22'
  let pos := l.pos
  let l := if quoted then nextrune l else l
  let l ← lexIdentLoop quoted (l.len + 1) l
  let text ← tokenText l pos
  return (classifyWord text, l)

/-- Common two-rune operators become the one-rune operator they stand for. -/
def shortenOp (buf : CStr) : CStr :=
  if buf = cstr ">=" then cstr "≥"
  else if buf = cstr "<=" then cstr "≤"
  else if buf = cstr "<>" then cstr "≠"
  else buf

/-- The second runes that extend an operator starting with the given rune. -/
def opTail (r : Rune) : List Rune :=
  if r = rune '=' then [rune '=']
  else if r = rune '<' then [rune '=', rune '>']
  else if r = rune '>' then [rune '=']
  else []

def lexOp (l : Lexer) : Token × Lexer :=
  let pos := l.pos
  let len := runelen l.peek
  let l1 := nextrune l
  let two := (opTail l.peek).contains l1.peek
  let l2 := if two then nextrune l1 else l1
  let len := if two then len + 1 else len
  ({ start := shortenOp ((l.src.drop pos).take len), type := .token }, l2)

def lexerNexttok (l : Lexer) : Except Stop (Option Token × Lexer) :=
  match l.tpeek with
  | some t => .ok (some t, { l with tpeek := none })
  | none => do
    let l ← skipWhitespace l
    if l.peek = 0 then return (none, l)
    if numstart l.peek then
      let (t, l) ← lexNumber l
      return (some t, l)
    if identstart l.peek then
      let (t, l) ← lexIdent l
      return (some t, l)
    let (t, l) := lexOp l
    return (some t, l)

def lexerPeek (l : Lexer) : Except Stop (Option Token × Lexer) :=
  match l.tpeek with
  | some t => .ok (some t, l)
  | none => do
    let (t, l) ← lexerNexttok l
    return (t, { l with tpeek := t })

end Libsd

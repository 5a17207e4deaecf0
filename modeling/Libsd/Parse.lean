/-
  Libsd/Parse.lean
  ================
  **The recursive-descent equation parser of `parse.c`.**

  The parsing functions return what the C functions do, success and the tree,
  with the lexer they leave behind; texts of parse errors are left out, as the
  parser only collects and frees them.  The calls `expr`, `fact` and `call` make
  to each other are counted by a fuel that runs out in `diverge`.
-/
import Libsd.Lexer
import Libsd.Node

namespace Libsd

open Utf

def UNARY : CStr := cstr "+-!"

/-- The operator groups, indexed by level. -/
def BINARY : List CStr :=
  [cstr "^", cstr "!", cstr "*/%", cstr "+-", cstr "><≥≤", cstr "=≠", cstr "&", cstr "|"]

def MAX_BINARY : Nat := BINARY.length

/-- The rune a token text starts with, 0 when it has none. -/
def firstRune (s : CStr) : Rune :=
  match charntorune s s.length with
  | some (r, _) => r
  | none => 0

/-- Peek, and consume the token when it passes the test. -/
def consumeIf (p : Lexer) (test : Token → Bool) : Except Stop (Option Token × Lexer) := do
  let (t, p) ← lexerPeek p
  match t with
  | none => return (none, p)
  | some t =>
    if test t then
      let (_, p) ← lexerNexttok p
      return (some t, p)
    else return (none, p)

def consumeReserved (p : Lexer) (s : CStr) : Except Stop (Bool × Lexer) := do
  let (t, p) ← consumeIf p fun t => t.type == .reserved && t.start == s
  return (t.isSome, p)

def consumeTok (p : Lexer) (r : Rune) : Except Stop (Bool × Lexer) := do
  let (t, p) ← consumeIf p fun t => t.type == .token && firstRune t.start == r
  return (t.isSome, p)

/-- The loop of `consume_any` over the runes of `ops`. -/
def consumeAnyLoop : List (Rune × Nat) → Lexer → Except Stop (Option Rune × Lexer)
  | [], p => .ok (none, p)
  | (r, _) :: ops, p => do
    let (ok, p) ← consumeTok p r
    if ok then return (some r, p) else consumeAnyLoop ops p

def consumeAny (p : Lexer) (ops : CStr) : Except Stop (Option Rune × Lexer) :=
  consumeAnyLoop (runes ops) p

def num (p : Lexer) : Except Stop (Bool × Node × Lexer) := do
  let (t, p) ← consumeIf p fun t => t.type == .number
  match t with
  | none => return (false, .null, p)
  | some t => return (true, .floatlit t.start 0, p)

def ident (p : Lexer) : Except Stop (Bool × Node × Lexer) := do
  let (t, p) ← consumeIf p fun t => t.type == .ident
  match t with
  | none => return (false, .null, p)
  | some t =>
    match canonicalize t.start with
    | none => .error (.undefined .outOfBounds)
    | some name => return (true, .ident name none, p)

/-- The operand `expr` parses on both sides of a level's operators. -/
def operand (fact : Lexer → Except Stop (Bool × Node × Lexer))
    (expr : Nat → Lexer → Except Stop (Bool × Node × Lexer)) (level : Nat) (p : Lexer) :
    Except Stop (Bool × Node × Lexer) :=
  if level + 1 = MAX_BINARY then fact p else expr (level + 1) p

mutual
def expr : Nat → Nat → Lexer → Except Stop (Bool × Node × Lexer)
  | 0, _, _ => .error .diverge
  | fuel + 1, level, p => do
    let (t, p) ← lexerPeek p
    if t.isNone then return (true, .null, p)
    let (ok, lhs, p) ← operand (fact fuel) (expr fuel) level p
    if !ok then return (false, .null, p)
    exprLoop fuel level lhs p

/-- The `while` loop of `expr`. -/
def exprLoop : Nat → Nat → Node → Lexer → Except Stop (Bool × Node × Lexer)
  | 0, _, _, _ => .error .diverge
  | fuel + 1, level, lhs, p => do
    let (op, p) ← consumeAny p (BINARY.getD level [])
    match op with
    | none => return (true, lhs, p)
    | some op =>
      let (ok, rhs, p) ← operand (fact fuel) (expr fuel) level p
      if !ok || rhs.isNull then return (false, .null, p)
      exprLoop fuel level (.binary op lhs rhs) p

def fact : Nat → Lexer → Except Stop (Bool × Node × Lexer)
  | 0, _ => .error .diverge
  | fuel + 1, p => do
    let (ok, p) ← consumeTok p (rune '(')
    if ok then
      let (ok, l, p) ← expr fuel 0 p
      if !ok then return (false, .null, p)
      let (ok, p) ← consumeTok p (rune ')')
      if !ok then return (false, .null, p)
      return (true, .paren l, p)
    let (op, p) ← consumeAny p UNARY
    if let some op := op then
      let (ok, l, p) ← expr fuel 0 p
      if !ok then return (false, .null, p)
      return (true, .unary op l, p)
    let (ok, n, p) ← num p
    if ok then return (true, n, p)
    let (ok, p) ← consumeReserved p (cstr "if")
    if ok then
      let (ok, cond, p) ← expr fuel 0 p
      if !ok then return (false, .null, p)
      let (ok, p) ← consumeReserved p (cstr "then")
      if !ok then return (false, .null, p)
      let (ok, l, p) ← expr fuel 0 p
      if !ok || l.isNull then return (false, .null, p)
      let (ok, p) ← consumeReserved p (cstr "else")
      if !ok then return (true, .ifElse cond l .null, p)
      let (ok, r, p) ← expr fuel 0 p
      if !ok || r.isNull then return (false, .null, p)
      return (true, .ifElse cond l r, p)
    let (ok, x, p) ← ident p
    if ok then
      let (ok, p) ← consumeTok p (rune '(')
      if ok then call fuel x p else return (true, x, p)
    else return (false, .null, p)

def call : Nat → Node → Lexer → Except Stop (Bool × Node × Lexer)
  | 0, _, _ => .error .diverge
  | fuel + 1, fn, p => do
    let (ok, p) ← consumeTok p (rune ')')
    if ok then return (true, .call fn [] none, p)
    callLoop fuel fn [] p

/-- The `while` loop of `call`. -/
def callLoop : Nat → Node → List Node → Lexer → Except Stop (Bool × Node × Lexer)
  | 0, _, _, _ => .error .diverge
  | fuel + 1, fn, args, p => do
    let (ok, arg, p) ← expr fuel 0 p
    if !ok then return (false, .null, p)
    let (ok, p) ← consumeTok p (rune ',')
    if ok then callLoop fuel fn (args ++ [arg]) p
    else
      let (ok, p) ← consumeTok p (rune ')')
      if ok then return (true, .call fn (args ++ [arg]) none, p)
      return (false, .null, p)
end

/-- More calls than any parse makes: each token is consumed below at most one
    descent through the levels. -/
def parseFuel (l : Lexer) : Nat := 10 * l.len + 10

/-- The tree that becomes `v->node`; the equation is not NULL. -/
def avarEqnParse (eqn : CStr) : Except Stop Node := do
  let l ← lexerInit eqn
  let (ok, n, _) ← expr (parseFuel l) 0 l
  if ok then return n else .error (.err .unspecified)

end Libsd

/-
  Libsd/Compile.lean
  ==================
  **Resolving an instance tree: `avar_init`, `module_compile` and the offsets.**

  What these functions write into the `AVar`s is kept beside the tree, in a
  `Store` from paths to the fields they fill.  One walker is shared by all
  levels of an expression and its `curr` is a single pointer, here the address
  of a node in its tree; the child positions are `left` 0, `right` 1, `cond` 2
  and `args[i]` at `3 + i`.
-/
import Libsd.Instance
import Mathlib.Logic.Function.Basic

namespace Libsd

/-- The fields of an `AVar` that compilation fills in. -/
structure AVarData where
  node : Node
  directDeps : List Path
  inflows : List Path
  outflows : List Path
  src : Option Path
  offset : Nat
deriving DecidableEq

abbrev Store := Path → AVarData

/-- The store before compilation: parsed trees, and nothing else set. -/
def initStore (root : List AVar) : Store := fun p =>
  { node := match avarAt root p with
      | some av => av.node
      | none => .null,
    directDeps := [], inflows := [], outflows := [], src := none, offset := 0 }

/-! ### Reading numbers -/

def isDigitByte (c : UInt8) : Bool := decide (0x30 ≤ c ∧ c ≤ 0x39)

def digitsValue (ds : CStr) : Nat := ds.foldl (fun n c => 10 * n + (c.toNat - 0x30)) 0

/-- An optional sign: whether it is minus, and what follows. -/
def signOf : CStr → Bool × CStr
  | 0x2D :: s => (true, s)
  | 0x2B :: s => (false, s)
  | s => (false, s)

/-- A decimal exponent, when a whole one is there: its sign, its size and the rest. -/
def exponentOf (s : CStr) : Option (Bool × Nat × CStr) :=
  match s with
  | c :: t =>
    let (neg, t) := signOf t
    let ds := t.takeWhile isDigitByte
    if (c = 0x65 ∨ c = 0x45) ∧ ds ≠ [] then some (neg, digitsValue ds, t.dropWhile isDigitByte)
    else none
  | [] => none

/-- `strtod` on the decimal numbers that the lexer passes on: the value, exactly, and the text
    after the number. -/
def strtod (s : CStr) : ℚ × CStr :=
  let t := s.dropWhile fun c => c = 0x20 || decide (0x09 ≤ c ∧ c ≤ 0x0D)
  let (neg, t) := signOf t
  let whole := t.takeWhile isDigitByte
  let t := t.dropWhile isDigitByte
  let (frac, t) := match t with
    | 0x2E :: u => (u.takeWhile isDigitByte, u.dropWhile isDigitByte)
    | u => ([], u)
  if whole = [] ∧ frac = [] then (0, s)
  else
    let m : ℚ := digitsValue (whole ++ frac) / (10 ^ frac.length : Nat)
    let m := if neg then -m else m
    match exponentOf t with
    | none => (m, t)
    | some (neg, e, t) => (if neg then m / (10 ^ e : Nat) else m * (10 ^ e : Nat), t)

def atof (s : CStr) : ℚ := (strtod s).1

/-! ### The walker over an equation -/

/-- The module whose variables are being compiled, with its parent's children; a
    root module has no parent. -/
structure Scope where
  base : Path
  avars : List AVar
  parent : Option (List AVar)

/-- `curr` is the node last started, by its address, and whether it is a call;
    `deps` are the entries appended to `direct_deps`. -/
structure AVarWalker where
  curr : List Nat × Bool
  deps : List Path

def RT_FNS : List (CStr × Fn) :=
  [(cstr "pulse", .pulse), (cstr "min", .min), (cstr "max", .max)]

/-- `avar_walker_start`, for the pointer it keeps. -/
def avarWalkerStart (w : AVarWalker) (addr : List Nat) (isCall : Bool) : AVarWalker :=
  { w with curr := (addr, isCall) }

/-- Whether `avar_walker_start_child` returns a walker for the child at an address:
    not for the function name of the call last started. -/
def avarWalkerStartChild (w : AVarWalker) (addr : List Nat) : Bool :=
  !(w.curr.2 && addr == w.curr.1 ++ [0])

/-- Visit a child with the walker `start_child` gave for it. -/
def visitChild (visit : AVarWalker → Except Stop (Node × AVarWalker)) (addr : List Nat)
    (w : AVarWalker) : Except Stop (Node × AVarWalker) :=
  if avarWalkerStartChild w addr then visit w else .error (.undefined .nullDeref)

mutual
/-- `visit`: `avar_walker_start` on the node, then its children in order. -/
def visit (scope : Scope) : List Nat → Node → AVarWalker → Except Stop (Node × AVarWalker)
  | _, .null, _ => .error (.undefined .nullDeref)
  | addr, .paren l, w => do
    let w := avarWalkerStart w addr false
    let (l, w) ← visitChild (visit scope (addr ++ [0]) l) (addr ++ [0]) w
    return (.paren l, w)
  | addr, .floatlit s _, w => .ok (.floatlit s (atof s), avarWalkerStart w addr false)
  | addr, .ident s _, w => do
    let w := avarWalkerStart w addr false
    match ← resolve scope.avars (some s) with
    | none => return (.ident s none, w)  -- `n->av` stays NULL
    | some dep =>
      let path := scope.base ++ dep
      return (.ident s (some path), { w with deps := w.deps ++ [path] })
  | addr, .call l args _, w => do
    let w := avarWalkerStart w addr true
    let s ← match l.sval with
      | none => .error (.undefined .nullDeref)
      | some s => .ok s
    let fn := RT_FNS.lookup s
    let (l, w) ← if avarWalkerStartChild w (addr ++ [0]) then visit scope (addr ++ [0]) l w
      else .ok (l, w)
    let (args, w) ← visitArgs scope addr 3 args w
    return (.call l args fn, w)
  | addr, .unary op l, w => do
    let w := avarWalkerStart w addr false
    let (l, w) ← visitChild (visit scope (addr ++ [0]) l) (addr ++ [0]) w
    return (.unary op l, w)
  | addr, .ifElse c l r, w => do
    let w := avarWalkerStart w addr false
    let (c, w) ← visitChild (visit scope (addr ++ [2]) c) (addr ++ [2]) w
    let (l, w) ← visitChild (visit scope (addr ++ [0]) l) (addr ++ [0]) w
    let (r, w) ← visitChild (visit scope (addr ++ [1]) r) (addr ++ [1]) w
    return (.ifElse c l r, w)
  | addr, .binary op l r, w => do
    let w := avarWalkerStart w addr false
    let (l, w) ← visitChild (visit scope (addr ++ [0]) l) (addr ++ [0]) w
    let (r, w) ← visitChild (visit scope (addr ++ [1]) r) (addr ++ [1]) w
    return (.binary op l r, w)

def visitArgs (scope : Scope) (addr : List Nat) :
    Nat → List Node → AVarWalker → Except Stop (List Node × AVarWalker)
  | _, [], w => .ok ([], w)
  | i, a :: args, w => do
    let (a, w) ← visitChild (visit scope (addr ++ [i]) a) (addr ++ [i]) w
    let (args, w) ← visitArgs scope addr (i + 1) args w
    return (a :: args, w)
end

/-- `node_walk` with a new walker; a NULL tree is refused. -/
def nodeWalk (scope : Scope) (n : Node) : Except Stop (Node × List Path) :=
  if n.isNull then .error (.err .unspecified)
  else do
    let (n, w) ← visit scope [] n { curr := ([], false), deps := [] }
    return (n, w.deps)

/-! ### Compiling modules -/

/-- The loops of `avar_init` over inflow and outflow names. -/
def resolveAll (scope : Scope) : List CStr → Except Stop (List Path)
  | [] => .ok []
  | name :: names => do
    match ← resolve scope.avars (some name) with
    | none => .error (.err .unspecified)
    | some path =>
      let paths ← resolveAll scope names
      return (scope.base ++ path) :: paths

/-- `avar_init` for an `AVar` that is not a module. -/
def avarInitVar (scope : Scope) (path : Path) (v : Var) (st : Store) : Except Stop Store :=
  if v.type = .ref then
    match scope.parent with
    | none => .error (.undefined .nullDeref)
    | some parent => do
      match ← resolve parent v.src with
      | none => .error (.err .unspecified)
      | some src =>
        return Function.update st path { st path with src := some (scope.base.dropLast ++ src) }
  else if v.eqn.isNone && v.name == some (cstr "time") then .ok st
  else do
    let (node, deps) ← nodeWalk scope (st path).node
    let inflows ← resolveAll scope v.inflows
    let outflows ← resolveAll scope v.outflows
    return Function.update st path { st path with
      node := node, directDeps := deps, inflows := inflows, outflows := outflows }

/-- The second loop of `module_compile`: the offset of a ref is its source's. -/
def copyOffsets (base : Path) : Nat → List AVar → Store → Except Stop Store
  | _, [], st => .ok st
  | i, av :: rest, st =>
    if av.v.type = .ref then
      match (st (base ++ [i])).src with
      | none => .error (.undefined .nullDeref)
      | some src =>
        copyOffsets base (i + 1) rest
          (Function.update st (base ++ [i]) { st (base ++ [i]) with offset := (st src).offset })
    else copyOffsets base (i + 1) rest st

/-- What `module_compile` does after its first loop. -/
def moduleCompileEnd (scope : Scope) (r : Store × Nat) : Except Stop Store :=
  if r.2 ≠ 0 then .error (.err .unspecified) else copyOffsets scope.base 0 scope.avars r.1

/-- How the first loop goes on after one `avar_init`: an error is only counted. -/
def countFailed (st : Store) (failed : Nat) : Except Stop Store → Except Stop (Store × Nat)
  | .ok st' => .ok (st', failed)
  | .error (.err _) => .ok (st, failed + 1)
  | .error e => .error e

mutual
def avarInit (scope : Scope) : Nat → AVar → Store → Except Stop Store
  | i, .var v _, st => avarInitVar scope (scope.base ++ [i]) v st
  | i, .module _ avars, st => do
    let scope' : Scope := { base := scope.base ++ [i], avars := avars, parent := some scope.avars }
    let r ← compileLoop scope' 0 avars (st, 0)
    moduleCompileEnd scope' r

/-- The first loop of `module_compile`, with the number of failed variables. -/
def compileLoop (scope : Scope) : Nat → List AVar → Store × Nat → Except Stop (Store × Nat)
  | _, [], r => .ok r
  | i, av :: rest, (st, failed) => do
    let r ← countFailed st failed (avarInit scope i av st)
    compileLoop scope (i + 1) rest r
end

def moduleCompile (scope : Scope) (st : Store) : Except Stop Store := do
  let r ← compileLoop scope 0 scope.avars (st, 0)
  moduleCompileEnd scope r

/-- `avar_init` of the root module. -/
def compileRoot (root : List AVar) : Except Stop Store :=
  moduleCompile { base := [], avars := root, parent := none } (initStore root)

/-! ### Offsets -/

mutual
/-- Everything that is neither a module nor a ref gets the next offset. -/
def assignOffset (path : Path) : AVar → Store × Nat → Store × Nat
  | .module _ avars, r => moduleAssignOffsets path 0 avars r
  | .var _ _, (st, offset) =>
    if (st path).src.isNone then
      (Function.update st path { st path with offset := offset }, offset + 1)
    else (st, offset)

/-- The loop of `module_assign_offsets` over the children of the module at `base`. -/
def moduleAssignOffsets (base : Path) : Nat → List AVar → Store × Nat → Store × Nat
  | _, [], r => r
  | i, av :: rest, r =>
    moduleAssignOffsets base (i + 1) rest (assignOffset (base ++ [i]) av r)
end

end Libsd

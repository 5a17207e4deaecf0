/-
  Libsd/Walker.lean
  =================
  **`node_walk` with an `AVarWalker`, over nodes in memory.**

  `Compile` walks a tree.  Here a node is an object with an address, children are
  pointers, and the one walker that all levels share is an object as well, with its
  reference count and its pointer `curr`; it is gone once the count is 0.

  What a walk reads of a node and does not write is in `Fields`, what it writes is in
  `Memory`, field by field.
-/
import Libsd.Compile
import Mathlib.Logic.Function.Basic

namespace Libsd.Walk

/-- Why a walk does not return. -/
inductive Fault where
  | null
  | dangling
  | resolve (why : Stop)
  | diverge            -- deeper than the model allows
deriving DecidableEq

inductive NodeType where
  | unknown | paren | floatlit | ident | call | binary | unary | ifElse
deriving DecidableEq

/-- The fields of a node that a walk leaves alone. -/
structure Fields where
  left : Option Nat
  right : Option Nat
  cond : Option Nat
  type : NodeType
  op : Nat
  sval : Option CStr
  args : List (Option Nat)

/-- The nodes by their addresses. -/
abbrev Nodes := Nat → Option Fields

structure AVarWalker where
  refcount : Int
  curr : Option Nat

/-- What a walk writes: the walker and the `direct_deps` of its `AVar`, and of the nodes
    `fval`, `av` and `fn`.  `started` logs the calls of `avar_walker_start`. -/
structure Memory where
  walker : Option AVarWalker
  directDeps : List Path
  fval : Nat → ℚ
  av : Nat → Option Path
  fn : Nat → Option Fn
  started : List Nat

/-! ### Access -/

def Memory.deref (m : Memory) : Except Fault AVarWalker :=
  match m.walker with
  | none => .error .dangling
  | some w => .ok w

def Nodes.deref (nodes : Nodes) : Option Nat → Except Fault (Nat × Fields)
  | none => .error .null
  | some a =>
    match nodes a with
    | none => .error .dangling
    | some f => .ok (a, f)

/-- `n->sval` where a text has to be there. -/
def Fields.text (f : Fields) : Except Fault CStr :=
  match f.sval with
  | none => .error .null
  | some s => .ok s

/-! ### The walker -/

/-- A walker from `calloc`, with its first reference. -/
def avarWalkerNew (m : Memory) : Memory :=
  { m with walker := some { refcount := 1, curr := none } }

def avarWalkerRef (m : Memory) : Except Fault Memory := do
  let w ← m.deref
  return { m with walker := some { w with refcount := w.refcount + 1 } }

/-- The last reference frees the walker. -/
def avarWalkerUnref (m : Memory) : Except Fault Memory := do
  let w ← m.deref
  return { m with walker :=
    if w.refcount - 1 ≠ 0 then some { w with refcount := w.refcount - 1 } else none }

/-- The `switch` of `avar_walker_start` on the node `f` at `a`. -/
def startNode (scope : Scope) (nodes : Nodes) (a : Nat) (f : Fields) (m : Memory) :
    Except Fault Memory :=
  match f.type with
  | .ident =>
    match resolve scope.avars f.sval with
    | .error why => .error (.resolve why)
    | .ok none => .ok m
    | .ok (some dep) =>
      .ok { m with
        av := Function.update m.av a (some (scope.base ++ dep)),
        directDeps := m.directDeps ++ [scope.base ++ dep] }
  | .floatlit => do
    let s ← f.text
    return { m with fval := Function.update m.fval a (atof s) }
  | .call => do
    let l ← nodes.deref f.left
    let s ← l.2.text
    match RT_FNS.lookup s with
    | none => return m
    | some fn => return { m with fn := Function.update m.fn a (some fn) }
  | _ => .ok m

def avarWalkerStart (scope : Scope) (nodes : Nodes) (n : Option Nat) (m : Memory) :
    Except Fault Memory := do
  let w ← m.deref
  let f ← nodes.deref n
  startNode scope nodes f.1 f.2
    { m with walker := some { w with curr := n }, started := m.started ++ [f.1] }

/-- Whether the walker comes back, with one more reference, or NULL: the function name of
    the call last started is skipped. -/
def avarWalkerStartChild (nodes : Nodes) (n : Option Nat) (m : Memory) :
    Except Fault (Bool × Memory) := do
  let w ← m.deref
  let curr ← nodes.deref w.curr
  if curr.2.type = .call ∧ n = curr.2.left then return (false, m)
  else
    let m ← avarWalkerRef m
    return (true, m)

/-! ### The walk -/

/-- A child with the walker that `start_child` returned; `end_child` does nothing. -/
def visitWith (visit : Option Nat → Memory → Except Fault (Bool × Memory)) (n : Option Nat)
    (m : Memory) : Except Fault (Bool × Memory) := do
  let (ok, m) ← visit n m
  let m ← avarWalkerUnref m
  return (ok, m)

/-- A child for which `visit` is called whatever `start_child` returned. -/
def visitChild (nodes : Nodes) (visit : Option Nat → Memory → Except Fault (Bool × Memory))
    (n : Option Nat) (m : Memory) : Except Fault (Bool × Memory) := do
  let (given, m) ← avarWalkerStartChild nodes n m
  if given then visitWith visit n m else .error .null

/-- Children one after the other, up to the first that fails. -/
def visitAll (nodes : Nodes) (visit : Option Nat → Memory → Except Fault (Bool × Memory)) :
    List (Option Nat) → Memory → Except Fault (Bool × Memory)
  | [], m => .ok (true, m)
  | n :: ns, m => do
    let (ok, m) ← visitChild nodes visit n m
    if ok then visitAll nodes visit ns m else return (false, m)

/-- The function name of a call: its visit is left out where `start_child` returns NULL. -/
def visitName (nodes : Nodes) (visit : Option Nat → Memory → Except Fault (Bool × Memory))
    (n : Option Nat) (m : Memory) : Except Fault (Bool × Memory) := do
  let (given, m) ← avarWalkerStartChild nodes n m
  if given then visitWith visit n m else return (true, m)

def visit (scope : Scope) (nodes : Nodes) :
    Nat → Option Nat → Memory → Except Fault (Bool × Memory)
  | 0, _, _ => .error .diverge
  | fuel + 1, n, m => do
    let m ← avarWalkerStart scope nodes n m
    let f ← nodes.deref n
    match f.2.type with
    | .paren => visitAll nodes (visit scope nodes fuel) [f.2.left] m
    | .floatlit => return (true, m)
    | .ident => return (true, m)
    | .call =>
      let (ok, m) ← visitName nodes (visit scope nodes fuel) f.2.left m
      if ok then visitAll nodes (visit scope nodes fuel) f.2.args m else return (false, m)
    | .unary => visitAll nodes (visit scope nodes fuel) [f.2.left] m
    | .ifElse => visitAll nodes (visit scope nodes fuel) [f.2.cond, f.2.left, f.2.right] m
    | .binary => visitAll nodes (visit scope nodes fuel) [f.2.left, f.2.right] m
    | .unknown => return (false, m)

def nodeWalk (scope : Scope) (nodes : Nodes) (fuel : Nat) (n : Option Nat) (m : Memory) :
    Except Fault (Bool × Memory) :=
  if n.isNone then .ok (false, m)
  else do
    let m ← avarWalkerRef m
    let (ok, m) ← visit scope nodes fuel n m
    let m ← avarWalkerUnref m
    return (ok, m)

end Libsd.Walk

/-
  Libsd/Instance.lean
  ===================
  **The instance tree that `module` and `avar` build, and `resolve`.**

  An `AVar` is a variable with its parsed equation or an instance of a module;
  the root module is the list of its `AVar`s.  An `AVar` is referred to by its
  path from the root, and `resolve` returns a path below the module it is
  asked in.
-/
import Libsd.Parse
import Libsd.Project
import Mathlib.Algebra.GroupWithZero.Nat

namespace Libsd

inductive AVar where
  | var (v : Var) (node : Node)
  | module (v : Var) (avars : List AVar)

namespace AVar

def v : AVar → Var
  | var v _ => v
  | module v _ => v

def avars : AVar → List AVar
  | var _ _ => []
  | module _ avars => avars

/-- `av->model` is set. -/
def isModule : AVar → Bool
  | var _ _ => false
  | module _ _ => true

/-- The tree as `avar` leaves it, NULL for a module. -/
def node : AVar → Node
  | var _ node => node
  | module _ _ => .null

def isConst (av : AVar) : Bool := av.node.isFloatlit

end AVar

/-- The `AVar` at a path below a module. -/
def avarAt : List AVar → Path → Option AVar
  | _, [] => none
  | avars, i :: path =>
    match avars[i]? with
    | none => none
    | some av => if path.isEmpty then some av else avarAt av.avars path

/-- The children of the module at a path; the root module is at the empty path. -/
def avarsAt (root : List AVar) (m : Path) : List AVar :=
  if m.isEmpty then root
  else
    match avarAt root m with
    | some av => av.avars
    | none => []

/-! ### Instantiation -/

/-- The connection that replaces a variable, if any; names are compared by `strcmp`. -/
def findConn (name : Option CStr) : List Conn → Except Stop (Option Conn)
  | [] => .ok none
  | r :: conns =>
    match name with
    | none => .error (.undefined .nullDeref)
    | some n => if n = r.name then .ok (some r) else findConn name conns

/-- `module` below is the recursive call for the model of a module variable. -/
def avar (p : SDProject) (module : Option Var → SDModel → Except Stop (List AVar)) (v : Var) :
    Except Stop AVar :=
  if v.type = .module then
    match sdProjectGetModel p v.name with
    | none => .error (.err .unspecified)
    | some (_, model) => do
      let avars ← module (some v) model
      return .module v avars
  else
    match v.eqn with
    | none => .ok (.var v .null)
    | some eqn => do
      let node ← avarEqnParse eqn
      return .var v node

/-- The loop of `module` over the variables of a model. -/
def moduleVars (mk : Var → Except Stop AVar) (conns : List Conn) :
    List Var → Except Stop (List AVar)
  | [] => .ok []
  | v :: vars => do
    let r ← findConn v.name conns
    let av ← mk (match r with
      | some r => r.toVar
      | none => v)
    let avars ← moduleVars mk conns vars
    return av :: avars

/-- The children of a new module; the root (`vmodule` NULL) starts with `time`. -/
def module (p : SDProject) : Nat → Option Var → SDModel → Except Stop (List AVar)
  | 0, _, _ => .error .diverge
  | fuel + 1, vmodule, model =>
    match vmodule with
    | none => do
      let avars ← moduleVars (avar p (module p fuel)) [] model.vars
      return .var timeVar .null :: avars
    | some v => moduleVars (avar p (module p fuel)) v.conns model.vars

/-- Nested deeper than this, some module variable is inside an instance of itself. -/
def moduleFuel (p : SDProject) : Nat :=
  ((p.files.flatMap (·.models)).map (·.vars.length)).sum + 2

/-! ### Name resolution -/

/-- A name like `.area` gets resolved to `area`. -/
def skipDot (name : CStr) : CStr :=
  match name with
  | c :: rest => if c = 0x2E then rest else name
  | [] => []

/-- The name before the first dot and what follows it, when there is a dot. -/
def splitDot (name : CStr) : Option (CStr × CStr) :=
  match name.dropWhile (· != 0x2E) with
  | [] => none
  | _ :: sub => some (name.takeWhile (· != 0x2E), sub)

mutual
/-- The search goes on inside a module, for what follows the dot. -/
def resolveSub (sub : CStr) : AVar → Except Stop (Option Path)
  | .var _ _ => .ok none
  | .module _ avars => resolveLoop (skipDot sub) 0 avars

/-- The loop of `resolve`, with the leading dot already skipped; `i` is the index
    of the head of the list. -/
def resolveLoop (name : CStr) : Nat → List AVar → Except Stop (Option Path)
  | _, [] => .ok none
  | i, av :: rest =>
    match av.v.name, splitDot name with
    | none, _ => .error (.undefined .nullDeref)
    | some n, some (head, sub) =>
      if av.isModule && head.isPrefixOf n then do
        let path ← resolveSub sub av
        return path.map (i :: ·)
      else if n = name then .ok (some [i])
      else resolveLoop name (i + 1) rest
    | some n, none => if n = name then .ok (some [i]) else resolveLoop name (i + 1) rest
end

def resolve (avars : List AVar) (name : Option CStr) : Except Stop (Option Path) :=
  match name with
  | none => .ok none
  | some name => resolveLoop (skipDot name) 0 avars

end Libsd

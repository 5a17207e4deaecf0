/-
  Libsd/Sim.lean
  ==============
  **Running a simulation: `svisit`, the calculation passes and the stepping loop.**

  Doubles are exact rationals.  What that leaves open is in `Env`: the number a
  NaN is read as, `pow` of the C library, and whether an access to a slab row is
  held against the number of rows allocated.  A row of the slab is a function of
  the offset.  `s->curr` is always row `save_step`, and `s->next` the row after.
-/
import Libsd.RunLists
import Mathlib.Data.Rat.Floor
import Mathlib.Algebra.Order.Field.Rat

namespace Libsd

structure Env where
  nan : ℚ
  pow : ℚ → ℚ → ℚ
  divZero : ℚ → ℚ
  bounded : Bool

def TIME : Nat := 0

abbrev Row := Nat → ℚ

/-! ### Expressions -/

/-- The `while` loop of `rt_pulse`, with the pulses it can still pass. -/
def pulseLoop (magnitude interval dt time : ℚ) : Nat → ℚ → Except Stop ℚ
  | 0, _ => .error .diverge
  | fuel + 1, nextPulse =>
    if time ≥ nextPulse then
      if time < nextPulse + dt then .ok (magnitude / dt)
      else if interval ≤ 0 then .ok 0
      else pulseLoop magnitude interval dt time fuel (nextPulse + interval)
    else .ok 0

/-- `args` holds the values passed, zeros after them. -/
def rtPulse (dt time : ℚ) (args : List ℚ) : Except Stop ℚ :=
  let magnitude := args.getD 0 0
  let firstPulse := args.getD 1 0
  let interval := if args.length > 2 then args.getD 2 0 else 0
  if time < firstPulse then .ok 0
  else
    pulseLoop magnitude interval dt time
      (((time - firstPulse) / interval).floor.toNat + 2) firstPulse

def rtMin (env : Env) (args : List ℚ) : ℚ :=
  if args.length ≠ 2 then env.nan
  else
    let a := args.getD 0 0
    let b := args.getD 1 0
    if a < b then a else b

def rtMax (env : Env) (args : List ℚ) : ℚ :=
  if args.length ≠ 2 then env.nan
  else
    let a := args.getD 0 0
    let b := args.getD 1 0
    if a > b then a else b

/-- The call through `n->fn`. -/
def callFn (env : Env) (fn : Fn) (dt time : ℚ) (args : List ℚ) : Except Stop ℚ :=
  match fn with
  | .pulse => rtPulse dt time args
  | .min => .ok (rtMin env args)
  | .max => .ok (rtMax env args)

def truth (b : Bool) : ℚ := if b then 1 else 0

def unaryOp (env : Env) (op : Nat) (l : ℚ) : ℚ :=
  if op = rune '+' then l
  else if op = rune '-' then -l
  else if op = rune '!' then truth (l == 0)
  else env.nan

def binaryOp (env : Env) (op : Nat) (l r : ℚ) : ℚ :=
  if op = rune '+' then l + r
  else if op = rune '-' then l - r
  else if op = rune '*' then l * r
  else if op = rune '/' then if r = 0 then env.divZero l else l / r
  else if op = rune '<' then truth (l < r)
  else if op = rune '>' then truth (l > r)
  else if op = rune '&' then truth (l == 1 && r == 1)
  else if op = rune '|' then truth (l == 1 || r == 1)
  else if op = rune '=' then truth (l == r)
  else if op = rune '≠' then truth (l != r)
  else if op = rune '≤' then truth (l ≤ r)
  else if op = rune '≥' then truth (l ≥ r)
  else if op = rune '^' then env.pow l r
  else env.nan

section
variable (env : Env) (read : Path → ℚ) (dt time : ℚ)

mutual
/-- `svisit`, over the function that reads the variable an identifier stands for. -/
def svisit : Node → Except Stop ℚ
  | .null => .error (.undefined .nullDeref)
  | .paren l => svisit l
  | .floatlit _ v => .ok v
  | .ident _ av =>
    match av with
    | none => .error (.undefined .nullDeref)
    | some p => .ok (read p)
  | .call _ args fn => do
    let vs ← svisitArgs 0 args
    match fn with
    | none => .error (.undefined .nullDeref)
    | some fn => callFn env fn dt time vs
  | .ifElse c l r => do
    let cond ← svisit c
    if cond ≠ 0 then svisit l else svisit r
  | .unary op l => do
    let l ← svisit l
    return unaryOp env op l
  | .binary op l r => do
    let l ← svisit l
    let r ← svisit r
    return binaryOp env op l r

/-- The values stored in `args`, which has room for six. -/
def svisitArgs : Nat → List Node → Except Stop (List ℚ)
  | _, [] => .ok []
  | i, a :: args => do
    let v ← svisit a
    if i ≥ 6 then .error (.undefined .argsOverflow)
    let vs ← svisitArgs (i + 1) args
    return v :: vs
end

end

/-! ### The simulation -/

structure SDSim where
  env : Env
  simSpecs : SimSpec           -- of the root model's file
  root : List AVar
  store : Store
  lists : RunLists
  nvars : Nat
  spec : SimSpec
  slab : Nat → Row
  nsaves : Nat
  nsteps : Nat
  step : Nat
  saveStep : Nat
  saveEvery : Nat

namespace SDSim

variable (s : SDSim)

/-- `s->curr`. -/
def curr : Row := s.slab s.saveStep

/-- An access to a row must lie in the `nsaves + 1` rows allocated. -/
def checkRow (row : Nat) : Except Stop Unit :=
  if s.env.bounded ∧ s.nsaves < row then .error (.undefined .slabRow) else .ok ()

def setRow (i : Nat) (row : Row) : SDSim := { s with slab := Function.update s.slab i row }

/-- The offset `svisit` reads for an identifier. -/
def identOffset (p : Path) : Nat :=
  match (s.store p).src with
  | some q => (s.store q).offset
  | none => (s.store p).offset

/-- `svisit` on the current row. -/
def eval (curr : Row) (n : Node) : Except Stop ℚ :=
  svisit s.env (fun p => curr (s.identOffset p)) s.spec.dt (curr TIME) n

def typeAt (p : Path) : Option VarType := (avarAt s.root p).map (·.v.type)

def gfAt (p : Path) : Option Table := (avarAt s.root p).bind (·.v.gf)

end SDSim

/-! ### The calculation passes -/

/-- The value `calc` stores for a variable. -/
def SDSim.calcValue (s : SDSim) (data : Row) (p : Path) : Except Stop ℚ := do
  let v ← s.eval data (s.store p).node
  match s.gfAt p with
  | some t => lookup t v
  | none => return v

/-- The loop of `calc`, with the recursive call it makes for an entry without a
    tree; its `data` is the current row, which `svisit` reads. -/
def SDSim.calcLoop (s : SDSim) (sub : Path → Row → Except Stop Row) :
    List Path → Row → Except Stop Row
  | [], data => .ok data
  | p :: l, data => do
    let data ← if (s.store p).node.isNull then sub p data
      else do
        let v ← s.calcValue data p
        pure (Function.update data (s.store p).offset v)
    s.calcLoop sub l data

/-- `calc` on the `initials` or the `flows`, as `list` says. -/
def SDSim.calc (s : SDSim) (list : Path → List Path) : Nat → List Path → Row → Except Stop Row
  | 0, _, _ => .error .diverge
  | fuel + 1, l, data => s.calcLoop (fun p => SDSim.calc s list fuel (list p)) l data

/-- More than the modules nested in each other. -/
def SDSim.calcFuel (s : SDSim) : Nat := countAVars s.root + 1

/-- The inflows less the outflows of a stock. -/
def SDSim.netFlow (s : SDSim) (curr : Row) (p : Path) : ℚ :=
  (s.store p).outflows.foldl (fun v out => v - curr (s.store out).offset)
    ((s.store p).inflows.foldl (fun v inn => v + curr (s.store inn).offset) 0)

/-- The loop of `calc_stocks`, which writes into the row after the current one. -/
def SDSim.calcStocksLoop (s : SDSim) (curr : Row) (sub : Path → Row → Except Stop Row) :
    List Path → Row → Except Stop Row
  | [], data => .ok data
  | p :: l, data => do
    let data ← match s.typeAt p with
      | none => .error (.undefined .nullDeref)
      | some .stock => do
        s.checkRow (s.saveStep + 1)
        pure (Function.update data (s.store p).offset
          (curr (s.store p).offset + s.netFlow curr p * s.spec.dt))
      | some .module => sub p data
      | some _ => do
        let v ← s.eval curr (s.store p).node
        s.checkRow (s.saveStep + 1)
        pure (Function.update data (s.store p).offset v)
    s.calcStocksLoop curr sub l data

def SDSim.calcStocks (s : SDSim) (curr : Row) : Nat → List Path → Row → Except Stop Row
  | 0, _, _ => .error .diverge
  | fuel + 1, l, data =>
    s.calcStocksLoop curr (fun p => SDSim.calcStocks s curr fuel (s.lists.stocks p)) l data

/-! ### Starting over -/

/-- The conversion of a double to `size_t`. -/
def toSize (q : ℚ) : Except Stop Nat :=
  if q ≤ -1 ∨ q ≥ 2 ^ 64 then .error (.undefined .conversion) else .ok q.floor.toNat

/-- The number of rows that are saved. -/
def savesOf (nsteps saveEvery : Nat) : Nat :=
  nsteps / saveEvery + if nsteps % saveEvery ≠ 0 then 1 else 0

/-- The state `sd_sim_reset` has set up when it comes to the initial values. -/
def SDSim.cleared (s : SDSim) (nsteps saveEvery : Nat) : SDSim :=
  { s with
    spec := s.simSpecs
    step := 0
    saveStep := 0
    nsteps := nsteps
    saveEvery := saveEvery
    nsaves := savesOf nsteps saveEvery
    slab := fun row => if row = 0 then fun c => if c = TIME then s.simSpecs.start else 0
      else fun _ => 0 }

/-- Division by a `dt` of 0 gives a double that no `size_t` holds. -/
def sdSimReset (s : SDSim) : Except Stop SDSim := do
  let spec := s.simSpecs
  if spec.dt = 0 then .error (.undefined .conversion)
  else
    let nsteps ← toSize ((spec.stop - spec.start) / spec.dt + 1)
    let saveEvery ← toSize (spec.savestep / spec.dt + 1 / 2)
    let s := s.cleared nsteps (if saveEvery > 1 then saveEvery else 1)
    let row ← s.calc s.lists.initials s.calcFuel (s.lists.initials []) s.curr
    return s.setRow 0 row

/-! ### Stepping -/

namespace SDSim

/-- `calc` of the flows, on the current row. -/
def flowsPass (s : SDSim) : Except Stop SDSim := do
  let row ← s.calc s.lists.flows s.calcFuel (s.lists.flows []) s.curr
  return s.setRow s.saveStep row

/-- `calc_stocks`, from the current row into the next. -/
def stocksPass (s : SDSim) : Except Stop SDSim := do
  let row ← s.calcStocks s.curr s.calcFuel (s.lists.stocks []) (s.slab (s.saveStep + 1))
  return s.setRow (s.saveStep + 1) row

/-- The time store and the move to the next step: the next row becomes the current
    one, or is copied over it when the current row is not to be kept. -/
def advance (s : SDSim) : Except Stop SDSim := do
  s.checkRow (s.saveStep + 1)
  let next := Function.update (s.slab (s.saveStep + 1)) TIME
    (s.spec.start + (s.step + 1) * s.spec.dt)
  let s' := { s.setRow (s.saveStep + 1) next with step := s.step + 1 }
  if s.step % s.saveEvery ≠ 0 then
    return s'.setRow s.saveStep fun c => if c < s.nvars then next c else s.curr c
  else return { s' with saveStep := s.saveStep + 1 }

/-- The `while` loop of `sd_sim_run_to`, with the steps it can still take. -/
def runLoop (stop : ℚ) : Nat → SDSim → Except Stop SDSim
  | 0, s => .ok s
  | fuel + 1, s =>
    if s.step < s.nsteps then do
      s.checkRow s.saveStep
      if s.curr TIME ≤ stop then
        let s ← s.flowsPass
        let s ← s.stocksPass
        if s.step + 1 = s.nsteps then return s
        else
          let s ← s.advance
          runLoop stop fuel s
      else return s
    else .ok s

end SDSim

def sdSimRunTo (s : SDSim) (stop : ℚ) : Except Stop SDSim :=
  SDSim.runLoop stop (s.nsteps - s.step) s

def sdSimRunToEnd (s : SDSim) : Except Stop SDSim := sdSimRunTo s (s.spec.stop + 1)

/-- A NULL result is an error. -/
def sdSimNew (env : Env) (p : SDProject) (modelName : Option CStr) : Except Stop SDSim :=
  match sdProjectGetModel p modelName with
  | none => .error (.err .unspecified)
  | some (simSpecs, model) => do
    let root ← module p (moduleFuel p) none model
    let store ← compileRoot root
    let (store, nvars) := moduleAssignOffsets [] 0 root (store, 0)
    let sorted ← moduleSortRunlists root store [] .empty
    sdSimReset
      { env := env, simSpecs := simSpecs, root := root, store := store, lists := sorted.lists,
        nvars := nvars, spec := simSpecs, slab := fun _ _ => 0, nsaves := 0, nsteps := 0,
        step := 0, saveStep := 0, saveEvery := 0 }

def sdSimGetValue (s : SDSim) (name : Option CStr) : Except Stop ℚ :=
  match name with
  | none => .error (.err .unspecified)
  | some n =>
    if n = cstr "time" then .ok (s.curr TIME)
    else do
      match ← resolve s.root (some n) with
      | none => .error (.err .unspecified)
      | some p => return s.curr (s.store p).offset

/-! ### Calls on a simulation -/

inductive Call where
  | runTo (stop : ℚ)
  | runToEnd
  | reset
deriving DecidableEq, Repr

def SDSim.call (s : SDSim) : Call → Except Stop SDSim
  | .runTo stop => sdSimRunTo s stop
  | .runToEnd => sdSimRunToEnd s
  | .reset => sdSimReset s

def SDSim.calls (s : SDSim) : List Call → Except Stop SDSim
  | [] => .ok s
  | c :: cs => do
    let s ← s.call c
    s.calls cs

/-! ### Models to try things on -/

/-- An environment that leaves out what a model without `^` and without NaN does not use. -/
def Env.plain (bounded : Bool) : Env :=
  { nan := 0, pow := fun l _ => l, divZero := fun _ => 0, bounded := bounded }

/-- A population that grows by a tenth in each time unit. -/
def growth (simSpecs : SimSpec) : SDProject :=
  .ofModels simSpecs [{ name := none, vars := [
    { Var.ofEquation .stock "population" "100" with inflows := [cstr "births"] },
    Var.ofEquation .flow "births" "population / 10"] }]

example : (do
    let s ← sdSimNew (.plain true) (growth ⟨0, 2, 1, 1⟩) none
    let s ← sdSimRunToEnd s
    return (s.nsaves, s.slab 0 1, s.slab 1 1, s.slab 2 1)) = .ok (3, 100, 110, 121) := by
  decide +kernel

/-- A module declared before the variable that its input is connected to. -/
def moduleFirst (simSpecs : SimSpec) : SDProject :=
  .ofModels simSpecs [
    { name := none, vars := [
      { Var.ofEquation .module "m" "" with eqn := none, conns := [⟨cstr "in", cstr "a"⟩] },
      Var.ofEquation .aux "a" "time + 1"] },
    { name := some (cstr "m"), vars := [
      Var.ofEquation .aux "in" "0",
      Var.ofEquation .aux "x" "in * 2"] }]

end Libsd

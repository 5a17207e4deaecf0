/-
  Libsd/Project.lean
  ==================
  **What a loaded project holds: files, models and their variables.**

  These are the structures the loader fills in, with the fields the simulation
  reads, and `is_nonneg`.  A variable of type `VAR_REF` exists only as a connection of a module,
  with a name and a source and nothing else, so a `Conn` has just these two.
-/
import Libsd.Util

namespace Libsd

inductive VarType where
  | stock | flow | aux | module | ref
deriving DecidableEq, Repr

/-- One `connect` of a module: the input `name` is fed from `src`. -/
structure Conn where
  name : CStr
  src : CStr
deriving DecidableEq, Repr

/-- A NULL pointer is `none`: a variable may lack a name or an equation. -/
structure Var where
  type : VarType
  name : Option CStr
  eqn : Option CStr
  src : Option CStr
  inflows : List CStr
  outflows : List CStr
  conns : List Conn
  gf : Option Table
  isNonneg : Bool
deriving DecidableEq, Repr

/-- The `Var` of type `VAR_REF` that the loader builds for a connection. -/
def Conn.toVar (r : Conn) : Var :=
  { type := .ref, name := some r.name, eqn := none, src := some r.src, inflows := [],
    outflows := [], conns := [], gf := none, isNonneg := false }

/-- The variable `time` that every root module gets. -/
def timeVar : Var :=
  { type := .aux, name := some (cstr "time"), eqn := none, src := none, inflows := [],
    outflows := [], conns := [], gf := none, isNonneg := false }

/-- A variable with an equation and nothing else. -/
def Var.ofEquation (type : VarType) (name eqn : String) : Var :=
  { type := type, name := some (cstr name), eqn := some (cstr eqn), src := none, inflows := [],
    outflows := [], conns := [], gf := none, isNonneg := false }

structure SDModel where
  name : Option CStr
  vars : List Var
deriving DecidableEq, Repr

structure SimSpec where
  start : ℚ
  stop : ℚ
  dt : ℚ
  savestep : ℚ
deriving DecidableEq, Repr

structure File where
  simSpecs : SimSpec
  models : List SDModel
deriving DecidableEq, Repr

structure SDProject where
  files : List File
deriving DecidableEq, Repr

/-- A project of one file, whose first model is the root. -/
def SDProject.ofModels (simSpecs : SimSpec) (models : List SDModel) : SDProject :=
  { files := [{ simSpecs := simSpecs, models := models }] }

/-- The first model whose name matches, both NULL counting as a match, with the
    `sim_specs` of the file it is in. -/
def sdProjectGetModel (p : SDProject) (n : Option CStr) : Option (SimSpec × SDModel) :=
  (p.files.flatMap fun f => f.models.map fun m => (f.simSpecs, m)).find? fun m => m.2.name = n

theorem sdProjectGetModel_mem {p : SDProject} {name : Option CStr} {specs : SimSpec}
    {model : SDModel} (h : sdProjectGetModel p name = some (specs, model)) :
    ∃ f ∈ p.files, model ∈ f.models := by
  have hmem := List.mem_of_find?_eq_some h
  simp only [List.mem_flatMap, List.mem_map, Prod.mk.injEq] at hmem
  obtain ⟨f, hf, m, hm, -, rfl⟩ := hmem
  exact ⟨f, hf, hm⟩

end Libsd

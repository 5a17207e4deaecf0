/-
  Libsd/Loader.lean
  =================
  **Loading a project: from the elements of a file to its models (`xml.c`, `project.c`).**

  Each element directly under the root is handled when it ends, in the order of the file:
  the header, the `sim_specs` and the models with their variables.  `sd_project_open` runs
  the callbacks of the XML parser on the events it gets, and maps what goes wrong to the
  error codes.

  The simulation calculates with numbers only.  A table with an infinity or a NaN among its
  points is none that it can look up in, and `sim_specs` with one are none that it can run on;
  both are `LoadFault.number`.
-/
import Libsd.SimSpecs
import Libsd.TablePoints

namespace Libsd

/-- Why loading does not return. -/
inductive LoadFault where
  | builder (why : BuilderFault)
  | table (why : TableFault)
  | name               -- `canonicalize` does not return a name
  | number             -- what is loaded is no number
deriving DecidableEq, Repr

/-- `Header`, with the fields of its `product`. -/
structure Header where
  smileVersion : Option CStr
  smileNamespace : Option CStr
  name : Option CStr
  uuid : Option CStr
  vendor : Option CStr
  productName : Option CStr
  productVersion : Option CStr
  productLang : Option CStr
deriving DecidableEq, Repr

/-- A file as it is read, with what the simulation does not use. -/
structure LoadedFile where
  simSpecs : LoadedSpecs
  models : List SDModel
  header : Header
  method : Option CStr
  timeUnits : Option CStr
deriving DecidableEq, Repr

/-- The file that `calloc` returns. -/
def LoadedFile.new : LoadedFile :=
  { simSpecs := .new, models := [],
    header := ⟨none, none, none, none, none, none, none, none⟩, method := none, timeUnits := none }

/-- The file that the simulation uses. -/
def LoadedFile.file (f : LoadedFile) : Except LoadFault File :=
  match f.simSpecs.simSpec with
  | some simSpecs => .ok { simSpecs := simSpecs, models := f.models }
  | none => .error .number

def Element.name (e : Element) : Option CStr := e.fields.map (·.name)

/-! ### Variables -/

def canonicalName (n : CStr) : Except LoadFault CStr :=
  match canonicalize n with
  | some s => .ok s
  | none => .error .name

def refFromNodeBuilder (nb : Element) : Except LoadFault (Option Conn) :=
  match nodeBuilderGetAttr nb (cstr "from"), nodeBuilderGetAttr nb (cstr "to") with
  | some src, some dst => do
    let src ← canonicalName src
    let name ← canonicalName dst
    return some { name := name, src := src }
  | _, _ => .ok none

/-- The kind of variable that a tag stands for. -/
def varTypeOf (name : CStr) : Option VarType :=
  if name = cstr "aux" then some .aux
  else if name = cstr "stock" then some .stock
  else if name = cstr "flow" then some .flow
  else if name = cstr "module" then some .module
  else none

section
variable (C : Libc)

def loadTable (nb : Element) : Except LoadFault (Option Table) :=
  match tableFromNodeBuilder C nb with
  | .ok none => .ok none
  | .ok (some t) =>
    match t.table with
    | some gf => .ok (some gf)
    | none => .error .number
  | .error why => .error (.table why)

/-- The turn of the loop of `var_from_node_builder` for one child.  A later `gf` takes the
    place of an earlier one, also when it is NULL. -/
def varChild (v : Var) (child : Element) : Except LoadFault Var :=
  if child.name = some (cstr "inflow") then
    match child.content with
    | some s => do
      let n ← canonicalName s
      return { v with inflows := v.inflows ++ [n] }
    | none => .ok v
  else if child.name = some (cstr "outflow") then
    match child.content with
    | some s => do
      let n ← canonicalName s
      return { v with outflows := v.outflows ++ [n] }
    | none => .ok v
  else if child.name = some (cstr "non_negative") then .ok { v with isNonneg := true }
  else if child.name = some (cstr "gf") then do
    let gf ← loadTable C child
    return { v with gf := gf }
  else if child.name = some (cstr "connect") then do
    match ← refFromNodeBuilder child with
    | some ref => return { v with conns := v.conns ++ [ref] }
    | none => return v
  else .ok v

def varName (nb : Element) : Except LoadFault (Option CStr) :=
  match nodeBuilderGetAttr nb (cstr "name") with
  | some val => do
    let n ← canonicalName val
    return some n
  | none => .ok none

/-- `none` is NULL: the tag is not that of a variable. -/
def varFromNodeBuilder (nb : Element) : Except LoadFault (Option Var) :=
  match nb.name.bind varTypeOf with
  | none => .ok none
  | some type => do
    let name ← varName nb
    let v ← nb.children.foldlM (varChild C)
      { type := type, name := name, eqn := childContent nb (cstr "eqn"), src := none, inflows := [],
        outflows := [], conns := [], gf := none, isNonneg := false }
    return some v

/-! ### Models and files -/

/-- The variables among the children of `variables`. -/
def varsFromNodeBuilders : List Element → Except LoadFault (List Var)
  | [] => .ok []
  | nbvar :: nbvars => do
    let v ← varFromNodeBuilder C nbvar
    let vars ← varsFromNodeBuilders nbvars
    return v.toList ++ vars

/-- The name of a model is not canonicalized. -/
def modelFromNodeBuilder (nb : Element) : Except LoadFault SDModel := do
  let vars ← match nodeBuilderGetFirstChild nb (cstr "variables") with
    | some nbvars => varsFromNodeBuilders C nbvars.children
    | none => .ok []
  return { name := nodeBuilderGetAttr nb (cstr "name"), vars := vars }

/-- What is there is stored over what was there before. -/
def stored (new old : Option CStr) : Option CStr := new.orElse fun _ => old

/-- An attribute of the first child of a name. -/
def childAttr (nb : Element) (name attr : CStr) : Option CStr :=
  (nodeBuilderGetFirstChild nb name).bind fun child => nodeBuilderGetAttr child attr

/-- The branch of `xmile_builder_end_child` for `header`. -/
def xmileEndHeader (h : Header) (nb : Element) : Header where
  smileVersion := stored (childAttr nb (cstr "smile") (cstr "version")) h.smileVersion
  smileNamespace := stored (childAttr nb (cstr "smile") (cstr "namespace")) h.smileNamespace
  name := stored (childContent nb (cstr "name")) h.name
  uuid := stored (childContent nb (cstr "uuid")) h.uuid
  vendor := stored (childContent nb (cstr "vendor")) h.vendor
  productName := stored (childContent nb (cstr "product")) h.productName
  productVersion := stored (childAttr nb (cstr "product") (cstr "version")) h.productVersion
  productLang := stored (childAttr nb (cstr "product") (cstr "lang")) h.productLang

def xmileBuilderEndChild (f : LoadedFile) (tagName : CStr) (child : Element) :
    Except LoadFault LoadedFile :=
  if tagName = cstr "header" then .ok { f with header := xmileEndHeader f.header child }
  else if tagName = cstr "sim_specs" then
    .ok { f with
      simSpecs := xmileEndSimSpecs C f.simSpecs child
      method := stored (nodeBuilderGetAttr child (cstr "method")) f.method
      timeUnits := stored (nodeBuilderGetAttr child (cstr "time_units")) f.timeUnits }
  else if tagName = cstr "model" then do
    let m ← modelFromNodeBuilder C child
    return { f with models := f.models ++ [m] }
  else .ok f

/-- The elements under the root, as they end. -/
def loadGiven : LoadedFile → List (CStr × Element) → Except LoadFault LoadedFile
  | f, [] => .ok f
  | f, child :: given => do
    let f ← xmileBuilderEndChild C f child.1 child.2
    loadGiven f given

/-! ### Opening a project -/

/-- What the XML parser makes of a file: the events up to its end, or up to where it finds
    the text not to be well-formed. -/
structure XmlText where
  events : List XmlEvent
  failed : Bool

/-- An error code, or the file that is added to the project. -/
def projectParseFile (f : XmlText) : Except LoadFault (Except SDErr LoadedFile) :=
  match parseElements C true f.events f.failed with
  | .error why => .error (.builder why)
  | .ok bs => do
    let sdf ← loadGiven C .new bs.given
    if f.failed then return .error .badXml
    else return .ok sdf

/-- `none` is a file that cannot be opened. -/
def sdProjectOpen (f : Option XmlText) : Except LoadFault (Except SDErr SDProject) :=
  match f with
  | none => .ok (.error .badFile)
  | some f => do
    match ← projectParseFile C f with
    | .error _ => return .error .badXml
    | .ok sdf => do
      let file ← sdf.file
      return .ok { files := [file] }

end

def SD_ERROR_MSGS : List String :=
  ["no error", "no memory", "bad file", "unspecified error", "bad XML", "bad equation lex", "EOF",
    "circularity error"]

/-- `SD_ERR_MIN`. -/
def SD_ERR_MIN : ℤ := -8

def sdErrorStr (err : ℤ) : String :=
  if err < 0 ∧ err > SD_ERR_MIN then SD_ERROR_MSGS.getD (-err).toNat "" else "unknown error"

/-- `SDErrorEnum`. -/
def SDErr.code : SDErr → ℤ
  | .nomem => -1
  | .badFile => -2
  | .unspecified => -3
  | .badXml => -4
  | .badLex => -5
  | .eof => -6
  | .circular => -7

end Libsd

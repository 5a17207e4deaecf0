/-
  Libsd/Elements.lean
  ===================
  **XML elements, as the loader reads them (`xml.c`).**

  An element is the tree of builders that `xmile_builder_end_child` is given for it.
-/
import Libsd.BuilderStack

namespace Libsd

open RefHeap

abbrev Element := RefTree BuilderFields

namespace Element

def fields : Element → Option NodeFields
  | .node (.node nb) _ => some nb
  | .node .xmile _ => none

def children : Element → List Element
  | .node _ kids => kids

def content (e : Element) : Option CStr := e.fields.bind (·.content)

def attrs (e : Element) : List (CStr × CStr) :=
  match e.fields with
  | some nb => nb.attrs
  | none => []

/-- An element without children. -/
def leaf (name text : String) : Element :=
  .node (.node { name := cstr name, content := some (cstr text), attrs := [] }) []

/-- An element without text and attributes. -/
def parent (name : String) (children : List Element) : Element :=
  .node (.node { name := cstr name, content := none, attrs := [] }) children

end Element

def nodeBuilderGetFirstChild (nb : Element) (name : CStr) : Option Element :=
  nb.children.find? fun child => child.fields.map (·.name) = some name

def nodeBuilderGetAttr (nb : Element) (name : CStr) : Option CStr := nb.attrs.lookup name

/-- `nbchild && nbchild->content`, for the first child of that name. -/
def childContent (nb : Element) (name : CStr) : Option CStr :=
  (nodeBuilderGetFirstChild nb name).bind (·.content)

end Libsd

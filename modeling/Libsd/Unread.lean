/-
  Libsd/Unread.lean
  =================
  **What the loader does not read.**

  `xmileSchema` lists the elements, attributes and texts that the loader looks at.  A document
  is loaded like the one that has nothing else in it, whatever its root is called
  (`projectParseFile_prune`), as long as it is not too deep for the stack of builders, which
  also holds what nobody looks at.
-/
import Libsd.WrittenFiles

namespace Libsd

/-- What is read of an element: which attributes, whether its text, and which elements in it. -/
structure Schema where
  attrs : List String
  text : Bool
  kids : List (String × Schema)

namespace Schema

def attrsOnly (attrs : List String) : Schema := { attrs := attrs, text := false, kids := [] }

def textOnly : Schema := { attrs := [], text := true, kids := [] }

def kidsOnly (kids : List (String × Schema)) : Schema :=
  { attrs := [], text := false, kids := kids }

variable (s : Schema)

def keep (attrs : List (CStr × CStr)) : List (CStr × CStr) :=
  attrs.filter fun a => decide (a.1 ∈ s.attrs.map cstr)

def child (name : CStr) : Option Schema := (s.kids.map fun k => (cstr k.1, k.2)).lookup name

theorem child_cstr (name : String) : s.child (cstr name) = s.kids.lookup name := by
  rw [child]
  induction s.kids with
  | nil => rfl
  | cons k kids ih =>
    have hkey : (cstr name == cstr k.1) = (name == k.1) := by
      rw [Bool.eq_iff_iff, beq_iff_eq, beq_iff_eq, cstr_inj]
    rw [List.map_cons, List.lookup_cons, ih, hkey, List.lookup_cons]

variable {s} in
theorem child_some {n : CStr} {c : Schema} (h : s.child n = some c) : ∃ k ∈ s.kids, k.2 = c := by
  obtain ⟨l, l', hsplit, -⟩ := List.lookup_eq_some_iff.mp h
  have hmem : (n, c) ∈ s.kids.map fun k => (cstr k.1, k.2) := by
    rw [hsplit]
    exact List.mem_append_right l List.mem_cons_self
  obtain ⟨k, hk, heq⟩ := List.mem_map.mp hmem
  exact ⟨k, hk, congrArg Prod.snd heq⟩

variable {s} in
theorem child_none {n : CStr} (h : s.child n = none) : ∀ k ∈ s.kids, cstr k.1 ≠ n := by
  intro k hk heq
  have hne := List.lookup_eq_none_iff.mp h (cstr k.1, k.2) (List.mem_map_of_mem hk)
  exact bne_iff_ne.mp hne heq.symm

end Schema

def headerSchema : Schema := .kidsOnly [
  ("smile", .attrsOnly ["version", "namespace"]), ("name", .textOnly), ("uuid", .textOnly),
  ("vendor", .textOnly), ("product", { attrs := ["version", "lang"], text := true, kids := [] })]

def simSpecsSchema : Schema where
  attrs := ["method", "time_units"]
  text := false
  kids := [
    ("start", .textOnly), ("stop", .textOnly),
    ("dt", { attrs := ["reciprocal"], text := true, kids := [] }),
    ("savestep", .textOnly), ("save_step", .textOnly)]

def gfSchema : Schema := .kidsOnly [
  ("ypts", .textOnly), ("xpts", .textOnly), ("xscale", .attrsOnly ["min", "max"])]

def varSchema : Schema where
  attrs := ["name"]
  text := false
  kids := [
    ("eqn", .textOnly), ("inflow", .textOnly), ("outflow", .textOnly),
    ("non_negative", .attrsOnly []), ("gf", gfSchema), ("connect", .attrsOnly ["from", "to"])]

def variablesSchema : Schema := .kidsOnly [
  ("aux", varSchema), ("stock", varSchema), ("flow", varSchema), ("module", varSchema)]

def modelSchema : Schema where
  attrs := ["name"]
  text := false
  kids := [("variables", variablesSchema)]

/-- What is read in the root. -/
def xmileSchema : Schema := .kidsOnly [
  ("header", headerSchema), ("sim_specs", simSpecsSchema), ("model", modelSchema)]

namespace XmlItem

mutual
/-- What is read of an item in an element. -/
def prune (s : Schema) : XmlItem → List XmlItem
  | text t => if s.text then [text t] else []
  | element name attrs items =>
    match s.child name with
    | some c => [element name (c.keep attrs) (pruneAll c items)]
    | none => []

def pruneAll (s : Schema) : List XmlItem → List XmlItem
  | [] => []
  | item :: items => prune s item ++ pruneAll s items
end

theorem depthAll_append (items items' : List XmlItem) :
    depthAll (items ++ items') = max (depthAll items) (depthAll items') := by
  induction items with
  | nil => rw [List.nil_append, depthAll, Nat.zero_max]
  | cons item items ih => rw [List.cons_append, depthAll, depthAll, ih, max_assoc]

mutual
theorem depthAll_prune : ∀ (s : Schema) (item : XmlItem), depthAll (prune s item) ≤ item.depth
  | s, text t => by
    rw [prune]
    split
    · rw [depthAll, depth, depthAll, max_self]
    · exact Nat.zero_le _
  | s, element name attrs items => by
    rw [prune]
    split
    · next c _ =>
      rw [depthAll, depth, depth, depthAll, Nat.max_zero]
      exact Nat.succ_le_succ (depthAll_pruneAll c items)
    · exact Nat.zero_le _

theorem depthAll_pruneAll : ∀ (s : Schema) (items : List XmlItem),
    depthAll (pruneAll s items) ≤ depthAll items
  | s, [] => Nat.le_refl _
  | s, item :: items => by
    rw [pruneAll, depthAll_append, depthAll]
    exact max_le_max (depthAll_prune s item) (depthAll_pruneAll s items)
end

theorem contentAfter_pruneAll {C : Libc} {s : Schema} (hs : s.text = true) (c : Option CStr)
    (items : List XmlItem) : contentAfter C c (pruneAll s items) = contentAfter C c items := by
  induction items generalizing c with
  | nil => rw [pruneAll]
  | cons item items ih =>
    cases item with
    | text t =>
      rw [pruneAll, prune, if_pos hs, List.singleton_append, contentAfter, contentAfter, ih]
    | element name attrs kids =>
      rw [pruneAll, prune, contentAfter]
      split
      · rw [List.singleton_append, contentAfter, ih]
      · rw [List.nil_append, ih]

end XmlItem

open XmlItem

/-! ### Elements that are the same to a reader -/

/-- `e'` is what `s` leaves of the element `e`. -/
def Pruned (C : Libc) (s : Schema) (e e' : Element) : Prop :=
  ∃ name attrs items, e = elementOf C name attrs items ∧
    e' = elementOf C name (s.keep attrs) (pruneAll s items)

theorem pruned_elementOf (C : Libc) (s : Schema) (name : CStr) (attrs : List (CStr × CStr))
    (items : List XmlItem) : Pruned C s (elementOf C name attrs items)
      (elementOf C name (s.keep attrs) (pruneAll s items)) :=
  ⟨name, attrs, items, rfl, rfl⟩

theorem lookup_keep {s : Schema} {a : CStr} (ha : a ∈ s.attrs.map cstr)
    (attrs : List (CStr × CStr)) : (s.keep attrs).lookup a = attrs.lookup a := by
  induction attrs with
  | nil => rfl
  | cons x attrs ih =>
    obtain ⟨k, v⟩ := x
    have ih : (attrs.filter fun x => decide (x.1 ∈ s.attrs.map cstr)).lookup a = attrs.lookup a :=
      ih
    rw [Schema.keep, List.filter_cons]
    by_cases hk : k ∈ s.attrs.map cstr
    · rw [if_pos (decide_eq_true hk), List.lookup_cons, List.lookup_cons, ih]
    · have hne : (a == k) = false := by
        rw [beq_eq_false_iff_ne]
        rintro rfl
        exact hk ha
      rw [if_neg (mt of_decide_eq_true hk), List.lookup_cons, hne, ih]

namespace Pruned

variable {C : Libc} {s c : Schema} {e e' : Element} {n : String}

theorem name_eq (h : Pruned C s e e') : e'.name = e.name := by
  obtain ⟨name, attrs, items, rfl, rfl⟩ := h
  rfl

theorem getAttr (h : Pruned C s e e') (hn : n ∈ s.attrs) :
    nodeBuilderGetAttr e' (cstr n) = nodeBuilderGetAttr e (cstr n) := by
  obtain ⟨name, attrs, items, rfl, rfl⟩ := h
  exact lookup_keep (List.mem_map_of_mem hn) attrs

theorem content (h : Pruned C s e e') (hs : s.text = true) : e'.content = e.content := by
  obtain ⟨name, attrs, items, rfl, rfl⟩ := h
  rw [content_elementOf, content_elementOf, contentAfter_pruneAll hs]

/-- The children, one after another: those that are not read are left out. -/
theorem children {P : List Element → List Element → Prop} (h : Pruned C s e e') (hnil : P [] [])
    (hskip : ∀ x kids kids' n, x.name = some n → s.child n = none → P kids kids' →
      P (x :: kids) kids')
    (hcons : ∀ x x' kids kids' n c, x.name = some n → s.child n = some c → Pruned C c x x' →
      P kids kids' → P (x :: kids) (x' :: kids')) : P e.children e'.children := by
  obtain ⟨name, attrs, items, rfl, rfl⟩ := h
  rw [children_elementOf, children_elementOf]
  induction items with
  | nil => rwa [pruneAll, treesOf_nil]
  | cons item items ih =>
    rw [pruneAll, treesOf_append, treesOf_cons]
    cases item with
    | text t =>
      rw [prune]
      split <;> simpa [treeOf] using ih
    | element kid kidAttrs kidItems =>
      rw [treeOf_element, List.singleton_append, prune]
      cases hc : s.child kid with
      | none =>
        exact hskip _ _ _ kid rfl hc (by simpa using ih)
      | some c =>
        rw [treesOf_cons, treeOf_element, treesOf_nil, List.append_nil, List.singleton_append]
        exact hcons _ _ _ _ kid c rfl hc (pruned_elementOf C c kid kidAttrs kidItems) ih

theorem firstChild (h : Pruned C s e e') (hc : s.kids.lookup n = some c) :
    Option.Rel (Pruned C c) (nodeBuilderGetFirstChild e (cstr n))
      (nodeBuilderGetFirstChild e' (cstr n)) := by
  rw [← s.child_cstr] at hc
  have hfind : ∀ (x : Element) (kids : List Element), firstNamed (x :: kids) (cstr n) =
      if x.name = some (cstr n) then some x else firstNamed kids (cstr n) := by
    intro x kids
    rw [firstNamed, List.find?_cons]
    by_cases hx : x.name = some (cstr n)
    · rw [if_pos hx, show decide (x.fields.map (·.name) = some (cstr n)) = true from
        decide_eq_true hx]
    · rw [if_neg hx, show decide (x.fields.map (·.name) = some (cstr n)) = false from
        decide_eq_false hx]
      rfl
  refine h.children (P := fun kids kids' => Option.Rel (Pruned C c) (firstNamed kids (cstr n))
    (firstNamed kids' (cstr n))) .none ?_ ?_
  · intro x kids kids' m hm hx ih
    have hne : x.name ≠ some (cstr n) := by
      intro hname
      obtain rfl : m = cstr n := Option.some.inj (hm.symm.trans hname)
      cases hx.symm.trans hc
    rwa [hfind, if_neg hne]
  · intro x x' kids kids' m d hx hd hpruned ih
    rw [hfind, hfind, hpruned.name_eq, hx]
    by_cases hm : m = cstr n
    · subst hm
      obtain rfl : d = c := Option.some.inj (hd.symm.trans hc)
      rw [if_pos rfl, if_pos rfl]
      exact .some hpruned
    · have hne : some m ≠ some (cstr n) := fun heq => hm (Option.some.inj heq)
      rwa [if_neg hne, if_neg hne]

/-- What is made of the first child of a name, if only what `c` leaves of it matters. -/
theorem bind_firstChild {α : Type} {f : Element → Option α} (h : Pruned C s e e')
    (hc : s.kids.lookup n = some c) (hf : ∀ x x', Pruned C c x x' → f x' = f x) :
    (nodeBuilderGetFirstChild e' (cstr n)).bind f =
      (nodeBuilderGetFirstChild e (cstr n)).bind f := by
  have hrel := h.firstChild hc
  generalize nodeBuilderGetFirstChild e (cstr n) = o at hrel ⊢
  generalize nodeBuilderGetFirstChild e' (cstr n) = o' at hrel ⊢
  cases hrel with
  | none => rfl
  | some hx => exact hf _ _ hx

/-- Which schema a child is pruned by, from its name. -/
theorem of_name {m : CStr} {d : Schema} (h : Pruned C c e e') (hc : s.child m = some c)
    (hm : m = cstr n) (hd : s.kids.lookup n = some d) : Pruned C d e e' := by
  subst hm
  rw [s.child_cstr, hd] at hc
  obtain rfl : d = c := Option.some.inj hc
  exact h

theorem childContent (h : Pruned C s e e') (hc : s.kids.lookup n = some c) (ht : c.text = true) :
    childContent e' (cstr n) = childContent e (cstr n) :=
  h.bind_firstChild hc fun _ _ hx => hx.content ht

theorem childAttr {a : String} (h : Pruned C s e e') (hc : s.kids.lookup n = some c)
    (ha : a ∈ c.attrs) : childAttr e' (cstr n) (cstr a) = childAttr e (cstr n) (cstr a) :=
  h.bind_firstChild hc fun _ _ hx => hx.getAttr ha

end Pruned

/-! ### The loader -/

section
variable {C : Libc} {e e' : Element}

theorem tableFromNodeBuilder_pruned (h : Pruned C gfSchema e e') :
    tableFromNodeBuilder C e' = tableFromNodeBuilder C e := by
  have hypts := h.childContent (n := "ypts") rfl rfl
  have hxpts := h.firstChild (n := "xpts") rfl
  have hxscale := h.firstChild (n := "xscale") rfl
  have hpoints : ∀ n, xPoints C e' n = xPoints C e n := by
    intro n
    rw [xPoints, xPoints]
    generalize nodeBuilderGetFirstChild e (cstr "xpts") = o at hxpts ⊢
    generalize nodeBuilderGetFirstChild e' (cstr "xpts") = o' at hxpts ⊢
    cases hxpts with
    | some hx => simp only [hx.content rfl]
    | none =>
      generalize nodeBuilderGetFirstChild e (cstr "xscale") = o at hxscale ⊢
      generalize nodeBuilderGetFirstChild e' (cstr "xscale") = o' at hxscale ⊢
      cases hxscale with
      | none => rfl
      | some hx =>
        have hmin := hx.getAttr (n := "min") (by decide)
        have hmax := hx.getAttr (n := "max") (by decide)
        simp only [scaleEnd, hmin, hmax]
  simp only [tableFromNodeBuilder, hypts, hpoints]

theorem refFromNodeBuilder_pruned (h : Pruned C (.attrsOnly ["from", "to"]) e e') :
    refFromNodeBuilder e' = refFromNodeBuilder e := by
  have hfrom := h.getAttr (n := "from") (by decide)
  have hto := h.getAttr (n := "to") (by decide)
  rw [refFromNodeBuilder, refFromNodeBuilder, hfrom, hto]

/-- `varChild` goes by the name, and reads what a child of this name is read for. -/
theorem varChild_congr (hname : e'.name = e.name)
    (hinflow : e.name = some (cstr "inflow") → e'.content = e.content)
    (houtflow : e.name = some (cstr "outflow") → e'.content = e.content)
    (hgf : e.name = some (cstr "gf") → tableFromNodeBuilder C e' = tableFromNodeBuilder C e)
    (hconnect : e.name = some (cstr "connect") → refFromNodeBuilder e' = refFromNodeBuilder e)
    (v : Var) : varChild C v e' = varChild C v e := by
  rw [varChild, varChild, hname]
  by_cases h1 : e.name = some (cstr "inflow")
  · rw [if_pos h1, if_pos h1, hinflow h1]
  rw [if_neg h1, if_neg h1]
  by_cases h2 : e.name = some (cstr "outflow")
  · rw [if_pos h2, if_pos h2, houtflow h2]
  rw [if_neg h2, if_neg h2]
  by_cases h3 : e.name = some (cstr "non_negative")
  · rw [if_pos h3, if_pos h3]
  rw [if_neg h3, if_neg h3]
  by_cases h4 : e.name = some (cstr "gf")
  · rw [if_pos h4, if_pos h4, loadTable, loadTable, hgf h4]
  rw [if_neg h4, if_neg h4]
  by_cases h5 : e.name = some (cstr "connect")
  · rw [if_pos h5, if_pos h5, hconnect h5]
  rw [if_neg h5, if_neg h5]

theorem varChild_pruned {c : Schema} {n : CStr} (hn : e.name = some n)
    (hc : varSchema.child n = some c) (h : Pruned C c e e') (v : Var) :
    varChild C v e' = varChild C v e := by
  have hkind : ∀ {name d}, e.name = some (cstr name) → varSchema.kids.lookup name = some d →
      Pruned C d e e' :=
    fun hname hd => h.of_name hc (Option.some.inj (hn.symm.trans hname)) hd
  exact varChild_congr h.name_eq (fun hi => (hkind hi rfl).content rfl)
    (fun ho => (hkind ho rfl).content rfl)
    (fun hg => tableFromNodeBuilder_pruned (hkind hg rfl))
    (fun hr => refFromNodeBuilder_pruned (hkind hr rfl)) v

theorem varChild_unread {n : CStr} (hn : e.name = some n) (hc : varSchema.child n = none)
    (v : Var) : varChild C v e = .ok v := by
  have hne : ∀ k ∈ varSchema.kids, e.name ≠ some (cstr k.1) := by
    intro k hk heq
    exact Schema.child_none hc k hk (Option.some.inj (heq.symm.trans hn))
  simp only [varSchema, List.forall_mem_cons, List.not_mem_nil, false_implies, implies_true,
    and_true] at hne
  obtain ⟨-, hinflow, houtflow, hnonneg, hgf, hconnect⟩ := hne
  rw [varChild, if_neg hinflow, if_neg houtflow, if_neg hnonneg, if_neg hgf, if_neg hconnect]

theorem varFromNodeBuilder_pruned (h : Pruned C varSchema e e') :
    varFromNodeBuilder C e' = varFromNodeBuilder C e := by
  have heqn := h.childContent (n := "eqn") rfl rfl
  have hname : varName e' = varName e := by
    rw [varName, varName, h.getAttr (n := "name") (by decide)]
  have hfold : ∀ v, e'.children.foldlM (varChild C) v = e.children.foldlM (varChild C) v := by
    refine h.children (P := fun kids kids' => ∀ v, kids'.foldlM (varChild C) v =
      kids.foldlM (varChild C) v) (fun v => rfl) ?_ ?_
    · intro x kids kids' n hn hx ih v
      rw [List.foldlM_cons, varChild_unread hn hx, ih]
      rfl
    · intro x x' kids kids' n c hx hc hpruned ih v
      rw [List.foldlM_cons, List.foldlM_cons, varChild_pruned hx hc hpruned]
      exact congrArg _ (funext ih)
  simp only [varFromNodeBuilder, h.name_eq, hname, heqn, hfold]

theorem varsFromNodeBuilders_pruned (h : Pruned C variablesSchema e e') :
    varsFromNodeBuilders C e'.children = varsFromNodeBuilders C e.children := by
  refine h.children (P := fun kids kids' => varsFromNodeBuilders C kids' =
    varsFromNodeBuilders C kids) rfl ?_ ?_
  · intro x kids kids' n hn hx ih
    have hne := Schema.child_none hx
    simp only [variablesSchema, Schema.kidsOnly, List.forall_mem_cons, List.not_mem_nil,
      false_implies, implies_true, and_true] at hne
    obtain ⟨haux, hstock, hflow, hmodule⟩ := hne
    have htype : x.name.bind varTypeOf = none := by
      rw [hn, Option.bind_some, varTypeOf, if_neg haux.symm, if_neg hstock.symm, if_neg hflow.symm,
        if_neg hmodule.symm]
    have hvar : varFromNodeBuilder C x = .ok none := by
      simp only [varFromNodeBuilder, htype]
    simp only [varsFromNodeBuilders, hvar, ih, bind, Except.bind, pure, Except.pure,
      Option.toList_none, List.nil_append]
    cases varsFromNodeBuilders C kids <;> rfl
  · intro x x' kids kids' n c hn hc hpruned ih
    have hall : ∀ k ∈ variablesSchema.kids, k.2 = varSchema := by
      simp [variablesSchema, Schema.kidsOnly]
    obtain ⟨k, hk, rfl⟩ := Schema.child_some hc
    rw [hall k hk] at hpruned
    rw [varsFromNodeBuilders, varsFromNodeBuilders, varFromNodeBuilder_pruned hpruned, ih]

theorem modelFromNodeBuilder_pruned (h : Pruned C modelSchema e e') :
    modelFromNodeBuilder C e' = modelFromNodeBuilder C e := by
  have hname := h.getAttr (n := "name") (by decide)
  have hvars := h.firstChild (n := "variables") rfl
  rw [modelFromNodeBuilder, modelFromNodeBuilder, hname]
  generalize nodeBuilderGetFirstChild e (cstr "variables") = o at hvars ⊢
  generalize nodeBuilderGetFirstChild e' (cstr "variables") = o' at hvars ⊢
  cases hvars with
  | none => rfl
  | some hx => simp only [varsFromNodeBuilders_pruned hx]

theorem xmileEndHeader_pruned (h : Pruned C headerSchema e e') (header : Header) :
    xmileEndHeader header e' = xmileEndHeader header e := by
  have hsmile : ∀ a ∈ ["version", "namespace"],
      childAttr e' (cstr "smile") (cstr a) = childAttr e (cstr "smile") (cstr a) :=
    fun a ha => h.childAttr (n := "smile") rfl ha
  have hproduct : ∀ a ∈ ["version", "lang"],
      childAttr e' (cstr "product") (cstr a) = childAttr e (cstr "product") (cstr a) :=
    fun a ha => h.childAttr (n := "product") rfl ha
  rw [xmileEndHeader, xmileEndHeader, hsmile "version" (by decide), hsmile "namespace" (by decide),
    h.childContent (n := "name") rfl rfl, h.childContent (n := "uuid") rfl rfl,
    h.childContent (n := "vendor") rfl rfl, h.childContent (n := "product") rfl rfl,
    hproduct "version" (by decide), hproduct "lang" (by decide)]

theorem xmileEndSimSpecs_pruned (h : Pruned C simSpecsSchema e e') (specs : LoadedSpecs) :
    xmileEndSimSpecs C specs e' = xmileEndSimSpecs C specs e := by
  have hnumber : ∀ n, simSpecsSchema.kids.lookup n = some .textOnly → ∀ v,
      readNumber C e' (cstr n) v = readNumber C e (cstr n) v := by
    intro n hn v
    rw [readNumber, readNumber, h.childContent hn rfl]
  have hdt := h.firstChild (n := "dt") rfl
  have hdt : ∀ v, readDt C e' v = readDt C e v := by
    intro v
    rw [readDt, readDt]
    generalize nodeBuilderGetFirstChild e (cstr "dt") = o at hdt ⊢
    generalize nodeBuilderGetFirstChild e' (cstr "dt") = o' at hdt ⊢
    cases hdt with
    | none => rfl
    | some hx => simp only [hx.content rfl, hx.getAttr (n := "reciprocal") (by decide)]
  simp only [xmileEndSimSpecs, hdt, hnumber "start" rfl, hnumber "stop" rfl,
    hnumber "savestep" rfl, hnumber "save_step" rfl, h.childContent (n := "savestep") rfl rfl,
    h.childContent (n := "save_step") rfl rfl]

theorem xmileBuilderEndChild_pruned {c : Schema} {n : CStr} (hc : xmileSchema.child n = some c)
    (h : Pruned C c e e') (f : LoadedFile) :
    xmileBuilderEndChild C f n e' = xmileBuilderEndChild C f n e := by
  rw [xmileBuilderEndChild, xmileBuilderEndChild]
  by_cases h1 : n = cstr "header"
  · rw [if_pos h1, if_pos h1, xmileEndHeader_pruned (h.of_name hc h1 rfl)]
  rw [if_neg h1, if_neg h1]
  by_cases h2 : n = cstr "sim_specs"
  · have hspecs : Pruned C simSpecsSchema e e' := h.of_name hc h2 rfl
    rw [if_pos h2, if_pos h2, xmileEndSimSpecs_pruned hspecs,
      hspecs.getAttr (n := "method") (by decide), hspecs.getAttr (n := "time_units") (by decide)]
  rw [if_neg h2, if_neg h2]
  by_cases h3 : n = cstr "model"
  · rw [if_pos h3, if_pos h3, modelFromNodeBuilder_pruned (h.of_name hc h3 rfl)]
  rw [if_neg h3, if_neg h3]

theorem loadGiven_prune (items : List XmlItem) (f : LoadedFile) :
    loadGiven C f (givenFor C (pruneAll xmileSchema items)) = loadGiven C f (givenFor C items) := by
  induction items generalizing f with
  | nil => rw [pruneAll]
  | cons item items ih =>
    cases item with
    | text t =>
      have hnone : prune xmileSchema (.text t) = [] := by
        rw [prune]
        rfl
      rw [pruneAll, hnone, List.nil_append, ih, givenFor]
    | element name attrs kids =>
      rw [pruneAll, prune, givenFor_element, loadGiven]
      cases hc : xmileSchema.child name with
      | none =>
        have hne := Schema.child_none hc
        simp only [xmileSchema, Schema.kidsOnly, List.forall_mem_cons, List.not_mem_nil,
          false_implies, implies_true, and_true] at hne
        obtain ⟨hheader, hspecs, hmodel⟩ := hne
        have hend : xmileBuilderEndChild C f name (elementOf C name attrs kids) = .ok f := by
          rw [xmileBuilderEndChild, if_neg hheader.symm, if_neg hspecs.symm, if_neg hmodel.symm]
        simp only [List.nil_append, ih, hend, bind, Except.bind]
      | some c =>
        simp only [List.singleton_append, givenFor_element, loadGiven,
          xmileBuilderEndChild_pruned hc (pruned_elementOf C c name attrs kids)]
        exact congrArg _ (funext ih)

end

/-- What is in the root of `growthFile`, with notes of an editor. -/
def annotatedItems : List XmlItem := [
  .element (cstr "sim_specs") [(cstr "mode", cstr "normal")] [
    Mdl.tagged "start" [.text (cstr "0")], Mdl.tagged "stop" [.text (cstr "4")],
    Mdl.tagged "dt" [.text (cstr "1")], Mdl.tagged "savestep" [.text (cstr "2")]],
  .text (cstr "drawn by hand"),
  Mdl.tagged "model" [
    Mdl.tagged "variables" [
      .element (cstr "stock") [(cstr "color", cstr "red"), (cstr "name", cstr "Population")] [
        Mdl.tagged "doc" [.text (cstr "hares")], Mdl.tagged "eqn" [.text (cstr "100")],
        Mdl.tagged "inflow" [.text (cstr "births")],
        .element (cstr "non_negative") [(cstr "checked", cstr "yes")] []],
      .element (cstr "flow") [(cstr "name", cstr "births")]
        [Mdl.tagged "eqn" [.text (cstr "population / 10")]],
      .element (cstr "group") [(cstr "name", cstr "animals")] []],
    Mdl.tagged "views" [Mdl.tagged "stock" [Mdl.tagged "eqn" []]]]]

end Libsd

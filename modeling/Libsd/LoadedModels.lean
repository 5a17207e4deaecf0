/-
  Libsd/LoadedModels.lean
  =======================
  **What a file that has been loaded holds, and which of its models are dead.**

  Whatever the document, the variables of a loaded file have a type of their own, trimmed
  equations, tables with points, and names without blanks and line breaks
  (`projectParseFile_accepted`).  The names of models are not rewritten like these, so no
  module finds a model that has a blank in its name: without such models `sd_sim_new` does the
  same (`sdSimNew_spaceless`).
-/
import Libsd.Canonical
import Libsd.Containment
import Libsd.WrittenFiles

namespace Libsd

open Outcome XmlItem

/-! ### Names and texts -/

/-- A name without blanks and line breaks. -/
def Spaceless (n : CStr) : Prop := n.map unspace = n

instance (n : CStr) : Decidable (Spaceless n) := inferInstanceAs (Decidable (_ = _))

theorem unspace_unspace (b : UInt8) : unspace (unspace b) = unspace b := by
  by_cases h : b = 0x0A ∨ b = 0x0D ∨ b = 0x20
  · rw [unspace, unspace, if_pos h]
    rfl
  · have hb : unspace b = b := if_neg h
    rw [hb, hb]

theorem spaceless_unspace (s : CStr) : Spaceless (s.map unspace) := by
  rw [Spaceless, List.map_map]
  exact List.map_congr_left fun b _ => unspace_unspace b

theorem canonicalize_spaceless {n s : CStr} (h : canonicalize n = some s) : Spaceless s := by
  have hlf : cstr "\n" = [0x0A] := by decide +kernel
  have hcr : cstr "\r" = [0x0D] := by decide +kernel
  have hblank : cstr " " = [0x20] := by decide +kernel
  have hunderscore : cstr "_" = [0x5F] := by decide +kernel
  simp only [canonicalize, Option.ite_none_left_eq_some] at h
  obtain ⟨r, -, h⟩ := Option.bind_eq_some_iff.mp h.2
  obtain rfl := Option.some.inj h
  rw [hlf, hcr, hblank, hunderscore, strrepl_byte, strrepl_byte, strrepl_byte, map_unspace]
  exact spaceless_unspace _

theorem canonicalName_spaceless {n s : CStr} (h : canonicalName n = .ok s) : Spaceless s := by
  rw [canonicalName] at h
  split at h
  · next r hr =>
    obtain rfl := Except.ok.inj h
    exact canonicalize_spaceless hr
  · cases h

/-- Texts that are trimmed, one behind the other. -/
theorem PlainText.concat {s t : CStr} (hs : PlainText s) (ht : PlainText t) :
    PlainText (s ++ t) := by
  rw [plainText_iff] at hs ht ⊢
  obtain ⟨hne, hhead, -⟩ := hs
  obtain ⟨hne', -, hlast⟩ := ht
  refine ⟨List.append_ne_nil_of_left_ne_nil hne t, ?_, ?_⟩
  · rwa [List.head?_append_of_ne_nil _ hne]
  · rwa [List.getLast?_append_of_ne_nil _ hne']

theorem plainText_trim {s : CStr} (h : Trim.trim isWhite s ≠ []) :
    PlainText (Trim.trim isWhite s) := by
  refine plainText_iff.mpr ⟨h, ?_, ?_⟩
  · rw [Trim.trim_eq]
    exact Trim.dropWhile_head _
  · exact Trim.rdropWhile_eq_self_iff_last.mp (List.rdropWhile_idempotent isWhite _)

/-- The content of an element is trimmed. -/
theorem plainText_contentAfter {C : Libc} {c : Option CStr} {items : List XmlItem}
    (hc : ∀ s, c = some s → PlainText s) :
    ∀ s, contentAfter C c items = some s → PlainText s := by
  induction items generalizing c with
  | nil => exact hc
  | cons item items ih =>
    cases item with
    | element name attrs kids => exact ih hc
    | text t =>
      refine ih fun s hs => ?_
      split at hs
      · exact hc s hs
      · next ht =>
        obtain rfl := Option.some.inj hs
        cases c with
        | none => exact plainText_trim ht
        | some s => exact (hc s rfl).concat (plainText_trim ht)

/-! ### Elements of a document -/

section
variable {C : Libc}

/-- An element that is made of what stands in a document. -/
def OfDocument (C : Libc) (e : Element) : Prop :=
  ∃ name attrs items, e = elementOf C name attrs items

theorem OfDocument.content {e : Element} (h : OfDocument C e) :
    ∀ s, e.content = some s → PlainText s := by
  obtain ⟨name, attrs, items, rfl⟩ := h
  exact plainText_contentAfter fun s hs => by cases hs

theorem ofDocument_treesOf {items : List XmlItem} : ∀ e ∈ treesOf C items, OfDocument C e := by
  induction items with
  | nil =>
    rw [treesOf_nil]
    exact fun e he => by cases he
  | cons item items ih =>
    intro e he
    rw [treesOf_cons] at he
    rcases List.mem_append.mp he with he | he
    · cases item with
      | text t =>
        rw [treeOf] at he
        cases he
      | element name attrs kids =>
        rw [treeOf_element] at he
        exact ⟨name, attrs, kids, List.mem_singleton.mp he⟩
    · exact ih e he

theorem OfDocument.children {e : Element} (h : OfDocument C e) :
    ∀ x ∈ e.children, OfDocument C x := by
  obtain ⟨name, attrs, items, rfl⟩ := h
  exact ofDocument_treesOf

theorem OfDocument.firstChild {e x : Element} {name : CStr} (h : OfDocument C e)
    (hx : nodeBuilderGetFirstChild e name = some x) : OfDocument C x :=
  h.children x (List.mem_of_find?_eq_some hx)

theorem OfDocument.childContent {e : Element} {name : CStr} (h : OfDocument C e) :
    ∀ s, childContent e name = some s → PlainText s := by
  intro s hs
  obtain ⟨x, hx, hs⟩ := Option.bind_eq_some_iff.mp hs
  exact (h.firstChild hx).content s hs

end

/-! ### What is accepted -/

structure Var.Accepted (v : Var) : Prop where
  type : v.type ≠ .ref
  src : v.src = none
  eqn : ∀ s, v.eqn = some s → PlainText s
  name : ∀ n, v.name = some n → Spaceless n
  inflows : ∀ n ∈ v.inflows, Spaceless n
  outflows : ∀ n ∈ v.outflows, Spaceless n
  conns : ∀ c ∈ v.conns, Spaceless c.src ∧ Spaceless c.name
  points : ∀ t, v.gf = some t → 0 < t.len

structure LoadedFile.Accepted (f : LoadedFile) : Prop where
  header : f.header.Texts PlainText
  vars : ∀ m ∈ f.models, ∀ v ∈ m.vars, v.Accepted

section
variable {C : Libc}

theorem tableFromNodeBuilder_points {nb : Element} {t : LoadedTable}
    (h : tableFromNodeBuilder C nb = .ok (some t)) : 0 < t.len := by
  rw [tableFromNodeBuilder] at h
  split at h
  · cases h
  · obtain ⟨y, -, h⟩ := bind_eq_ok h
    split at h
    · cases h
    · next y =>
      obtain ⟨x, -, h⟩ := bind_eq_ok h
      split at h
      · cases h
      · next x =>
        obtain rfl := Option.some.inj (Except.ok.inj h)
        rw [LoadedTable.len, x.2]
        exact Nat.succ_pos _

theorem LoadedTable.len_table {t : LoadedTable} {gf : Table} (h : t.table = some gf) :
    gf.len = t.len := by
  rw [LoadedTable.table] at h
  split at h
  · next x y _ _ =>
    obtain rfl := Option.some.inj h
    exact x.2
  · cases h

theorem loadTable_points {nb : Element} {gf : Table} (h : loadTable C nb = .ok (some gf)) :
    0 < gf.len := by
  rw [loadTable] at h
  split at h
  · cases h
  · next t hload =>
    split at h
    · next gf' htable =>
      obtain rfl := Option.some.inj (Except.ok.inj h)
      rw [LoadedTable.len_table htable]
      exact tableFromNodeBuilder_points hload
    · cases h
  · cases h

theorem refFromNodeBuilder_spaceless {nb : Element} {c : Conn}
    (h : refFromNodeBuilder nb = .ok (some c)) : Spaceless c.src ∧ Spaceless c.name := by
  rw [refFromNodeBuilder] at h
  split at h
  · obtain ⟨src, hsrc, h⟩ := bind_eq_ok h
    obtain ⟨name, hname, h⟩ := bind_eq_ok h
    cases h
    exact ⟨canonicalName_spaceless hsrc, canonicalName_spaceless hname⟩
  · cases h

theorem varTypeOf_ne_ref {name : CStr} {type : VarType} (h : varTypeOf name = some type) :
    type ≠ .ref := by
  rw [varTypeOf] at h
  split_ifs at h <;> cases h <;> exact fun h => by cases h

/-- The turn of the loop over the children keeps what has been read in order. -/
theorem varChild_accepted {v v' : Var} {child : Element} (hv : v.Accepted)
    (h : varChild C v child = .ok v') : v'.Accepted := by
  have hmem : ∀ {l : List CStr} {n : CStr}, (∀ n ∈ l, Spaceless n) → Spaceless n →
      ∀ x ∈ l ++ [n], Spaceless x := by
    intro l n hl hn x hx
    rcases List.mem_append.mp hx with hx | hx
    · exact hl x hx
    · obtain rfl := List.mem_singleton.mp hx
      exact hn
  rw [varChild] at h
  split at h
  · split at h
    · obtain ⟨n, hn, h⟩ := bind_eq_ok h
      cases h
      exact { hv with inflows := hmem hv.inflows (canonicalName_spaceless hn) }
    · cases h
      exact hv
  split at h
  · split at h
    · obtain ⟨n, hn, h⟩ := bind_eq_ok h
      cases h
      exact { hv with outflows := hmem hv.outflows (canonicalName_spaceless hn) }
    · cases h
      exact hv
  split at h
  · cases h
    exact { hv with }
  split at h
  · obtain ⟨gf, hgf, h⟩ := bind_eq_ok h
    cases h
    refine { hv with points := fun t ht => ?_ }
    obtain rfl : gf = some t := ht
    exact loadTable_points hgf
  split at h
  · obtain ⟨o, ho, h⟩ := bind_eq_ok h
    cases o with
    | none =>
      cases h
      exact hv
    | some c =>
      cases h
      refine { hv with conns := fun x hx => ?_ }
      rcases List.mem_append.mp hx with hx | hx
      · exact hv.conns x hx
      · obtain rfl := List.mem_singleton.mp hx
        exact refFromNodeBuilder_spaceless ho
  · cases h
    exact hv

theorem varFromNodeBuilder_accepted {nb : Element} {v : Var} (hnb : OfDocument C nb)
    (h : varFromNodeBuilder C nb = .ok (some v)) : v.Accepted := by
  rw [varFromNodeBuilder] at h
  split at h
  · cases h
  · next type htype =>
    obtain ⟨name, hname, h⟩ := bind_eq_ok h
    obtain ⟨v', hv', h⟩ := bind_eq_ok h
    obtain rfl := Option.some.inj (Except.ok.inj h)
    refine foldlM_keeps (P := Var.Accepted) (fun v child v' hv h => varChild_accepted hv h) ?_ hv'
    obtain ⟨tag, -, htag⟩ := Option.bind_eq_some_iff.mp htype
    refine ⟨varTypeOf_ne_ref htag, rfl, hnb.childContent, fun n hn => ?_, by simp, by simp, by simp,
      fun t ht => by cases ht⟩
    obtain rfl : name = some n := hn
    rw [varName] at hname
    split at hname
    · obtain ⟨m, hm, hname⟩ := bind_eq_ok hname
      obtain rfl := Option.some.inj (Except.ok.inj hname)
      exact canonicalName_spaceless hm
    · cases hname

theorem varsFromNodeBuilders_accepted {nbs : List Element} {vars : List Var}
    (hnbs : ∀ nb ∈ nbs, OfDocument C nb) (h : varsFromNodeBuilders C nbs = .ok vars) :
    ∀ v ∈ vars, v.Accepted := by
  induction nbs generalizing vars with
  | nil =>
    obtain rfl := Except.ok.inj h
    exact fun v hv => by cases hv
  | cons nb nbs ih =>
    obtain ⟨o, ho, h⟩ := bind_eq_ok h
    obtain ⟨rest, hrest, h⟩ := bind_eq_ok h
    obtain rfl := Except.ok.inj h
    intro v hv
    rcases List.mem_append.mp hv with hv | hv
    · obtain rfl := Option.mem_toList.mp hv
      exact varFromNodeBuilder_accepted (hnbs nb List.mem_cons_self) ho
    · exact ih (fun x hx => hnbs x (List.mem_cons_of_mem nb hx)) hrest v hv

theorem modelFromNodeBuilder_accepted {nb : Element} {m : SDModel} (hnb : OfDocument C nb)
    (h : modelFromNodeBuilder C nb = .ok m) : ∀ v ∈ m.vars, v.Accepted := by
  rw [modelFromNodeBuilder] at h
  split at h
  · next nbvars hkid =>
    obtain ⟨vars, hvars, h⟩ := bind_eq_ok h
    obtain rfl := Except.ok.inj h
    exact varsFromNodeBuilders_accepted (hnb.firstChild hkid).children hvars
  · obtain rfl := Except.ok.inj h
    exact fun v hv => by cases hv

/-- What the header holds of texts is what stood in elements, whichever of them came last. -/
theorem xmileEndHeader_texts {h : Header} {nb : Element} (hh : h.Texts PlainText)
    (hnb : OfDocument C nb) : (xmileEndHeader h nb).Texts PlainText := by
  have hstored : ∀ {new old : Option CStr}, (∀ s, new = some s → PlainText s) →
      (∀ s, old = some s → PlainText s) → ∀ s, stored new old = some s → PlainText s := by
    intro new old hnew hold s hs
    cases new with
    | none => exact hold s hs
    | some t => exact hnew s hs
  exact ⟨hstored hnb.childContent hh.name, hstored hnb.childContent hh.uuid,
    hstored hnb.childContent hh.vendor, hstored hnb.childContent hh.productName⟩

theorem xmileBuilderEndChild_accepted {f f' : LoadedFile} {name : CStr} {child : Element}
    (hf : f.Accepted) (hchild : OfDocument C child)
    (h : xmileBuilderEndChild C f name child = .ok f') : f'.Accepted := by
  rw [xmileBuilderEndChild] at h
  split at h
  · obtain rfl := Except.ok.inj h
    exact ⟨xmileEndHeader_texts hf.header hchild, hf.vars⟩
  split at h
  · obtain rfl := Except.ok.inj h
    exact ⟨hf.header, hf.vars⟩
  split at h
  · obtain ⟨m, hm, h⟩ := bind_eq_ok h
    obtain rfl := Except.ok.inj h
    refine ⟨hf.header, fun x hx => ?_⟩
    rcases List.mem_append.mp hx with hx | hx
    · exact hf.vars x hx
    · obtain rfl := List.mem_singleton.mp hx
      exact modelFromNodeBuilder_accepted hchild hm
  · obtain rfl := Except.ok.inj h
    exact hf

theorem loadGiven_accepted {items : List XmlItem} {f f' : LoadedFile} (hf : f.Accepted)
    (h : loadGiven C f (givenFor C items) = .ok f') : f'.Accepted := by
  induction items generalizing f with
  | nil =>
    obtain rfl := Except.ok.inj h
    exact hf
  | cons item items ih =>
    cases item with
    | text t => exact ih hf h
    | element name attrs kids =>
      rw [givenFor_element, loadGiven] at h
      obtain ⟨f1, h1, h⟩ := bind_eq_ok h
      exact ih (xmileBuilderEndChild_accepted hf ⟨name, attrs, kids, rfl⟩ h1) h

theorem projectParseFile_loadGiven {name : CStr} {attrs : List (CStr × CStr)}
    {items : List XmlItem} {f : LoadedFile}
    (h : projectParseFile C ⟨(XmlItem.element name attrs items).events, false⟩ = .ok (.ok f)) :
    loadGiven C LoadedFile.new (givenFor C items) = .ok f := by
  rw [projectParseFile_document] at h
  split at h
  · obtain ⟨f', hf', heq⟩ := map_eq_ok h
    obtain rfl := Except.ok.inj heq
    exact hf'
  · cases h

theorem new_accepted : LoadedFile.new.Accepted := by
  have hnone : ∀ s, none = some s → PlainText s := fun s hs => by cases hs
  exact ⟨⟨hnone, hnone, hnone, hnone⟩, fun m hm => by cases hm⟩

/-- Whatever the document, what is loaded of it is well formed. -/
theorem projectParseFile_accepted {name : CStr} {attrs : List (CStr × CStr)}
    {items : List XmlItem} {f : LoadedFile}
    (h : projectParseFile C ⟨(XmlItem.element name attrs items).events, false⟩ = .ok (.ok f)) :
    f.Accepted :=
  loadGiven_accepted new_accepted (projectParseFile_loadGiven h)

theorem projectParseFile_accepted_growth : ∃ f,
    projectParseFile plainLibc ⟨Mdl.growthFile.events, false⟩ = .ok (.ok f) ∧ f.Accepted := by
  have h : projectParseFile plainLibc ⟨Mdl.growthFile.events, false⟩ = .ok (.ok
      { simSpecs := ⟨.num 0, .num 4, .num 1, .num 2⟩, models := [growthModel],
        header := LoadedFile.new.header,
        method := none, timeUnits := none }) := by
    decide +kernel
  exact ⟨_, h, projectParseFile_accepted h⟩

end

/-! ### What `sd_sim_new` looks up -/

section
variable {p p' : SDProject} {N : Option CStr → Prop}

/-- The two projects have the same models under the names in `N`, and the modules of these
    models have names in `N`. -/
structure SameModels (p p' : SDProject) (N : Option CStr → Prop) : Prop where
  found : ∀ n, N n → sdProjectGetModel p' n = sdProjectGetModel p n
  closed : ∀ n specs model, N n → sdProjectGetModel p n = some (specs, model) →
    ∀ v ∈ model.vars, v.type = .module → N v.name

theorem SameModels.symm (h : SameModels p p' N) : SameModels p' p N :=
  ⟨fun n hn => (h.found n hn).symm, fun n specs model hn hm =>
    h.closed n specs model hn ((h.found n hn).symm.trans hm)⟩

theorem SameModels.refl (h : SameModels p p' N) : SameModels p p N := ⟨fun _ _ => rfl, h.closed⟩

/-- What ends in the first case ends in the second, in the same way. -/
def EndsToo {α : Type} (x y : Except Stop α) : Prop := x ≠ .error .diverge → y = x

theorem EndsToo.bind {α β : Type} {x y : Except Stop α} {f g : α → Except Stop β}
    (h : EndsToo x y) (hf : ∀ a, EndsToo (f a) (g a)) : EndsToo (x >>= f) (y >>= g) := by
  intro hend
  have hx : x ≠ .error .diverge := by
    rintro rfl
    exact hend rfl
  rw [h hx] at *
  cases x with
  | ok a => exact hf a hend
  | error e => rfl

theorem EndsToo.rfl {α : Type} {x : Except Stop α} : EndsToo x x := fun _ => Eq.refl x

theorem moduleVars_endsToo {mk mk' : Var → Except Stop AVar} {conns : List Conn} {vars : List Var}
    (hvar : ∀ v ∈ vars, EndsToo (mk v) (mk' v))
    (hconn : ∀ r : Conn, EndsToo (mk r.toVar) (mk' r.toVar)) :
    EndsToo (moduleVars mk conns vars) (moduleVars mk' conns vars) := by
  induction vars with
  | nil => exact .rfl
  | cons v vars ih =>
    have hrest := ih fun u hu => hvar u (List.mem_cons_of_mem v hu)
    refine EndsToo.rfl.bind fun o => EndsToo.bind ?_ fun av => hrest.bind fun avars => .rfl
    cases o with
    | none => exact hvar v List.mem_cons_self
    | some r => exact hconn r

theorem SameModels.avar_endsToo (h : SameModels p p' N)
    {sub sub' : Option Var → SDModel → Except Stop (List AVar)} {v : Var}
    (hsub : ∀ specs model, sdProjectGetModel p v.name = some (specs, model) →
      v.type = .module → EndsToo (sub (some v) model) (sub' (some v) model))
    (hv : v.type = .module → N v.name) : EndsToo (avar p sub v) (avar p' sub' v) := by
  rw [avar, avar]
  by_cases ht : v.type = .module
  · rw [if_pos ht, if_pos ht, h.found v.name (hv ht)]
    cases hm : sdProjectGetModel p v.name with
    | none => exact .rfl
    | some m => exact (hsub m.1 m.2 hm ht).bind fun avars => .rfl
  · rw [if_neg ht, if_neg ht]
    exact .rfl

/-- The instances are the same, if there is fuel for those of the first project. -/
theorem SameModels.module_endsToo (h : SameModels p p' N) : ∀ {fuel fuel' : Nat},
    fuel ≤ fuel' → ∀ {vm : Option Var} {model : SDModel},
      (∀ v ∈ model.vars, v.type = .module → N v.name) →
        EndsToo (module p fuel vm model) (module p' fuel' vm model) := by
  intro fuel
  induction fuel with
  | zero => exact fun _ _ _ _ hend => absurd rfl hend
  | succ fuel ih =>
    intro fuel' hle vm model hmodel
    cases fuel' with
    | zero => exact absurd hle (Nat.not_succ_le_zero fuel)
    | succ fuel' =>
      have hle := Nat.le_of_succ_le_succ hle
      have hvar : ∀ v ∈ model.vars,
          EndsToo (avar p (module p fuel) v) (avar p' (module p' fuel') v) :=
        fun v hv => h.avar_endsToo
          (fun specs m hm ht => ih hle (h.closed v.name specs m (hmodel v hv ht) hm)) (hmodel v hv)
      have hconn : ∀ r : Conn,
          EndsToo (avar p (module p fuel) r.toVar) (avar p' (module p' fuel') r.toVar) :=
        fun r => h.avar_endsToo (fun _ _ _ ht => by cases ht) fun ht => by cases ht
      cases vm with
      | none => exact (moduleVars_endsToo hvar hconn).bind fun avars => .rfl
      | some v => exact moduleVars_endsToo hvar hconn

/-- `sd_sim_new` does not depend on models that it does not come to. -/
theorem SameModels.sdSimNew_eq (h : SameModels p p' N) (env : Env) {name : Option CStr}
    (hname : N name) : sdSimNew env p' name = sdSimNew env p name := by
  rw [sdSimNew, sdSimNew, h.found name hname]
  cases hm : sdProjectGetModel p name with
  | none => rfl
  | some m =>
    obtain ⟨specs, model⟩ := m
    have hmodel := h.closed name specs model hname hm
    have hm' : sdProjectGetModel p' name = some (specs, model) := (h.found name hname).trans hm
    have hsame : module p' (moduleFuel p') none model = module p (moduleFuel p) none model := by
      by_cases hrec : Recurs p (none, model.vars)
      · -- the recursion never ends, in neither project
        have hdiv : ∀ fuel, module p fuel none model = .error .diverge := fun fuel => by
          by_contra hend
          exact (module_returns_iff hm).mp ⟨fuel, hend⟩ hrec
        rw [hdiv]
        by_contra hend
        exact hend ((h.symm.module_endsToo (Nat.le_refl _)
          (fun v hv ht => hmodel v hv ht) hend).symm.trans (hdiv _))
      · have hp : module p (moduleFuel p) none model ≠ .error .diverge :=
          fun hdiv => (module_returns hm hrec).of_error hdiv rfl
        have hto := h.module_endsToo (le_max_left (moduleFuel p) (moduleFuel p')) hmodel hp
        have hrec' : ¬ Recurs p' (none, model.vars) :=
          (module_returns_iff hm').mp ⟨_, by rwa [hto]⟩
        have hp' : module p' (moduleFuel p') none model ≠ .error .diverge :=
          fun hdiv => (module_returns hm' hrec').of_error hdiv rfl
        have hup := h.symm.refl.module_endsToo (le_max_right (moduleFuel p) (moduleFuel p'))
          hmodel hp'
        exact hup.symm.trans hto
    simp only [hsame]

end

/-! ### Models that no module finds -/

/-- NULL, or without blanks and line breaks. -/
def SpacelessName (n : Option CStr) : Prop := ∀ s, n = some s → Spaceless s

instance (n : Option CStr) : Decidable (SpacelessName n) :=
  match n with
  | none => isTrue fun s hs => by cases hs
  | some s =>
    decidable_of_iff (Spaceless s) ⟨fun h t ht => Option.some.inj ht ▸ h, fun h => h s rfl⟩

/-- The project without the models whose names have blanks or line breaks. -/
def SDProject.spaceless (p : SDProject) : SDProject where
  files := p.files.map fun f =>
    { f with models := f.models.filter fun m => decide (SpacelessName m.name) }

theorem getModel_spaceless (p : SDProject) {n : Option CStr} (hn : SpacelessName n) :
    sdProjectGetModel p.spaceless n = sdProjectGetModel p n := by
  have hmodels : (p.spaceless.files.flatMap fun f => f.models.map fun m => (f.simSpecs, m)) =
      (p.files.flatMap fun f => f.models.map fun m => (f.simSpecs, m)).filter fun m =>
        decide (SpacelessName m.2.name) := by
    simp only [SDProject.spaceless, List.flatMap_map, List.filter_flatMap, List.filter_map]
    rfl
  rw [sdProjectGetModel, hmodels, List.find?_filter, sdProjectGetModel]
  congr 1
  funext m
  by_cases hm : m.2.name = n
  · simp [hm, hn]
  · simp [hm]

theorem LoadedFile.file_models {f : LoadedFile} {file : File} (h : f.file = .ok file) :
    file.models = f.models := by
  rw [LoadedFile.file] at h
  split at h
  · obtain rfl := Except.ok.inj h
    rfl
  · cases h

/-- Of a project that has been loaded, models with blanks or line breaks in their names can be
    left out. -/
theorem sdSimNew_spaceless {C : Libc} {root : CStr} {attrs : List (CStr × CStr)}
    {items : List XmlItem} {p : SDProject}
    (hopen : sdProjectOpen C (some ⟨(XmlItem.element root attrs items).events, false⟩) =
      .ok (.ok p)) (env : Env) {name : Option CStr} (hname : SpacelessName name) :
    sdSimNew env p.spaceless name = sdSimNew env p name := by
  obtain ⟨r, hr, h⟩ := bind_eq_ok hopen
  split at h
  · cases h
  · next f =>
    obtain ⟨file, hfile, h⟩ := bind_eq_ok h
    obtain rfl := Except.ok.inj (Except.ok.inj h)
    have hf := loadGiven_accepted new_accepted (projectParseFile_loadGiven hr)
    have hmodels := LoadedFile.file_models hfile
    refine SameModels.sdSimNew_eq ⟨fun n hn => getModel_spaceless _ hn, ?_⟩ env hname
    intro n specs model _ hm v hv _ s hs
    obtain ⟨file', hfile', hmem⟩ := sdProjectGetModel_mem hm
    obtain rfl := List.mem_singleton.mp hfile'
    exact (hf.vars model (hmodels ▸ hmem) v hv).name s hs

/-- A root with a module `Big Town`, and two models that it could stand for. -/
def townFile : XmlItem :=
  Mdl.tagged "xmile" [
    Mdl.tagged "sim_specs" [
      Mdl.tagged "start" [.text (cstr "0")], Mdl.tagged "stop" [.text (cstr "4")],
      Mdl.tagged "dt" [.text (cstr "1")]],
    Mdl.tagged "model" [
      Mdl.tagged "variables" [.element (cstr "module") [(cstr "name", cstr "Big Town")] []]],
    .element (cstr "model") [(cstr "name", cstr "Big Town")] [
      Mdl.tagged "variables" [
        .element (cstr "aux") [(cstr "name", cstr "size")] [Mdl.tagged "eqn" [.text (cstr "9")]]]],
    .element (cstr "model") [(cstr "name", cstr "big_town")] [
      Mdl.tagged "variables" [
        .element (cstr "aux") [(cstr "name", cstr "size")] [Mdl.tagged "eqn" [.text (cstr "2")]]]]]

/-- The project of `townFile`. -/
def townProject : SDProject :=
  .ofModels ⟨0, 4, 1, 1⟩ [
    { name := none, vars := [
      { type := .module, name := some (cstr "big_town"), eqn := none, src := none, inflows := [],
        outflows := [], conns := [], gf := none, isNonneg := false }] },
    { name := some (cstr "Big Town"), vars := [Var.ofEquation .aux "size" "9"] },
    { name := some (cstr "big_town"), vars := [Var.ofEquation .aux "size" "2"] }]

theorem townFile_open :
    sdProjectOpen plainLibc (some ⟨townFile.events, false⟩) = .ok (.ok townProject) := by
  decide +kernel

theorem sdSimNew_spaceless_town : townProject.spaceless ≠ townProject ∧
    sdSimNew (.plain true) townProject.spaceless none = sdSimNew (.plain true) townProject none :=
  ⟨by decide +kernel, sdSimNew_spaceless townFile_open (.plain true) (by decide)⟩

end Libsd

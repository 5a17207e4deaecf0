/-
  Libsd/InstanceTree.lean
  =======================
  **The trees that `module` builds.**

  A module has one child for each variable of its model, in the same order, and
  the root has `time` in front of them (`module_root`).  Only variables of type
  `VAR_MODULE` become modules, and the others have their equation as a tree
  (`module_typed`).
-/
import Libsd.InstancePaths
import Libsd.Lib.Outcome
import Mathlib.Data.List.Forall2

namespace Libsd

open Outcome

/-- The variable that a model's variable is instantiated as. -/
def connected (v : Var) (r : Option Conn) : Var :=
  match r with
  | some r => r.toVar
  | none => v

/-- What `avar` makes of a variable. -/
inductive Made (p : SDProject) (sub : Option Var → SDModel → Except Stop (List AVar)) (v : Var) :
    AVar → Prop where
  | module {specs : SimSpec} {model : SDModel} {avars : List AVar} (hv : v.type = .module)
      (hmodel : sdProjectGetModel p v.name = some (specs, model))
      (havars : sub (some v) model = .ok avars) : Made p sub v (.module v avars)
  | var {n : Node} (hv : v.type ≠ .module)
      (hn : (v.eqn = none ∧ n = .null) ∨ ∃ eqn, v.eqn = some eqn ∧ avarEqnParse eqn = .ok n) :
      Made p sub v (.var v n)

theorem avar_made {p : SDProject} {sub : Option Var → SDModel → Except Stop (List AVar)} {v : Var}
    {av : AVar} (h : avar p sub v = .ok av) : Made p sub v av := by
  unfold avar at h
  split at h
  · next hv =>
    split at h
    · simp at h
    · next specs model hmodel =>
      obtain ⟨avars, havars, h⟩ := bind_eq_ok h
      obtain rfl := Except.ok.inj h
      exact .module hv hmodel havars
  · next hv =>
    split at h
    · next he =>
      obtain rfl := Except.ok.inj h
      exact .var hv (.inl ⟨he, rfl⟩)
    · next eqn he =>
      obtain ⟨n, hn, h⟩ := bind_eq_ok h
      obtain rfl := Except.ok.inj h
      exact .var hv (.inr ⟨eqn, he, hn⟩)

theorem moduleVars_forall₂ {mk : Var → Except Stop AVar} {conns : List Conn} {vars : List Var}
    {avars : List AVar} (h : moduleVars mk conns vars = .ok avars) :
    List.Forall₂ (fun v av => ∃ r, findConn v.name conns = .ok r ∧ mk (connected v r) = .ok av)
      vars avars := by
  induction vars generalizing avars with
  | nil =>
    obtain rfl := Except.ok.inj h
    exact .nil
  | cons v vars ih =>
    simp only [moduleVars] at h
    obtain ⟨r, hr, h⟩ := bind_eq_ok h
    obtain ⟨av, hav, h⟩ := bind_eq_ok h
    obtain ⟨rest, hrest, h⟩ := bind_eq_ok h
    obtain rfl := Except.ok.inj h
    exact .cons ⟨r, hr, by cases r <;> exact hav⟩ (ih hrest)

/-- Every child is made of a variable. -/
theorem made_of_mem {p : SDProject} {sub : Option Var → SDModel → Except Stop (List AVar)}
    {conns : List Conn} {vars : List Var} {avars : List AVar}
    (h : moduleVars (avar p sub) conns vars = .ok avars) {av : AVar} (hav : av ∈ avars) :
    ∃ v, Made p sub v av := by
  obtain ⟨i, hi, rfl⟩ := List.getElem_of_mem hav
  have hall := moduleVars_forall₂ h
  obtain ⟨r, -, hmade⟩ := hall.get (hall.length_eq ▸ hi) hi
  exact ⟨_, avar_made hmade⟩

theorem module_none_ok {p : SDProject} {fuel : Nat} {model : SDModel} {root : List AVar}
    (h : module p fuel none model = .ok root) :
    ∃ fuel' rest, fuel = fuel' + 1 ∧ root = .var timeVar .null :: rest ∧
      moduleVars (avar p (module p fuel')) [] model.vars = .ok rest := by
  cases fuel with
  | zero => simp [module] at h
  | succ fuel =>
    simp only [module] at h
    obtain ⟨rest, hrest, h⟩ := bind_eq_ok h
    exact ⟨fuel, rest, rfl, (Except.ok.inj h).symm, hrest⟩

theorem module_root {p : SDProject} {fuel : Nat} {model : SDModel} {root : List AVar}
    (h : module p fuel none model = .ok root) :
    ∃ sub rest, root = .var timeVar .null :: rest ∧
      List.Forall₂ (fun v av => avar p sub v = .ok av) model.vars rest := by
  obtain ⟨fuel', rest, -, hroot, hrest⟩ := module_none_ok h
  refine ⟨module p fuel', rest, hroot, List.Forall₂.imp ?_ (moduleVars_forall₂ hrest)⟩
  rintro v av ⟨r, hr, hav⟩
  obtain rfl : r = none := by simpa [findConn, eq_comm] using hr
  exact hav

/-! ### What every `AVar` of a tree is like -/

@[simp] theorem avarAt_nil_avars (p : Path) : avarAt [] p = none := by
  cases p <;> simp [avarAt]

/-- What is true of the children and of everything below them is true everywhere. -/
theorem avarAt_of_children {P : AVar → Prop} {avars : List AVar}
    (h : ∀ av ∈ avars, P av ∧ ∀ p c, avarAt av.avars p = some c → P c) :
    ∀ p av, avarAt avars p = some av → P av := by
  intro p av hp
  cases p with
  | nil => simp [avarAt] at hp
  | cons i rest =>
    rw [avarAt_cons] at hp
    split at hp
    · exact (h av (List.mem_of_getElem? hp)).1
    · obtain ⟨c, hc, hrest⟩ := Option.bind_eq_some_iff.mp hp
      exact (h c (List.mem_of_getElem? hc)).2 rest av hrest

/-- It is a module when its variable is of that type; otherwise it has the tree of its
    equation, or none when there is no equation. -/
structure AVar.Typed (av : AVar) : Prop where
  isModule_iff : av.isModule = true ↔ av.v.type = .module
  node_null : av.v.eqn = none → av.node = .null
  node_parse : av.isModule = false → ∀ eqn, av.v.eqn = some eqn → avarEqnParse eqn = .ok av.node

def Typed (avars : List AVar) : Prop := ∀ p av, avarAt avars p = some av → av.Typed

/-- An `AVar` is like that, and so is everything below it. -/
def TypedChild (av : AVar) : Prop := av.Typed ∧ Typed av.avars

theorem typed_nil : Typed [] := fun p av h => by simp at h

theorem Made.typedChild {p : SDProject} {sub : Option Var → SDModel → Except Stop (List AVar)}
    {v : Var} {av : AVar} (h : Made p sub v av)
    (hsub : ∀ vm model avars, sub vm model = .ok avars → Typed avars) : TypedChild av := by
  cases h with
  | module hv _ havars =>
    exact ⟨⟨by simp [AVar.isModule, AVar.v, hv], fun _ => rfl, fun hm => by cases hm⟩,
      hsub _ _ _ havars⟩
  | var hv hn =>
    refine ⟨⟨by simp [AVar.isModule, AVar.v, hv], fun he => ?_, fun _ eqn he => ?_⟩, typed_nil⟩
    · rcases hn with ⟨-, rfl⟩ | ⟨eqn, he', -⟩
      · rfl
      · exact absurd (he.symm.trans he') (by simp)
    · rcases hn with ⟨he', -⟩ | ⟨eqn', he', hparse⟩
      · exact absurd (he.symm.trans he') (by simp)
      · obtain rfl := Option.some.inj (he.symm.trans he')
        exact hparse

theorem moduleVars_typed {p : SDProject} {sub : Option Var → SDModel → Except Stop (List AVar)}
    {conns : List Conn} {vars : List Var} {avars : List AVar}
    (hsub : ∀ vm model avars, sub vm model = .ok avars → Typed avars)
    (h : moduleVars (avar p sub) conns vars = .ok avars) : ∀ av ∈ avars, TypedChild av := by
  intro av hav
  obtain ⟨v, hmade⟩ := made_of_mem h hav
  exact hmade.typedChild hsub

theorem module_typed {p : SDProject} : ∀ {fuel : Nat} {vm : Option Var} {model : SDModel}
    {avars : List AVar}, module p fuel vm model = .ok avars → Typed avars := by
  intro fuel
  induction fuel with
  | zero =>
    intro vm model avars h
    simp [module] at h
  | succ fuel ih =>
    intro vm model avars h
    have hsub : ∀ vm model avars, module p fuel vm model = .ok avars → Typed avars :=
      fun _ _ _ => ih
    refine avarAt_of_children fun av hav => ?_
    cases vm with
    | none =>
      obtain ⟨_, rest, ⟨⟩, rfl, hrest⟩ := module_none_ok h
      rcases List.mem_cons.mp hav with rfl | hav
      · refine ⟨⟨by simp [AVar.isModule, AVar.v, timeVar], fun _ => rfl, fun _ eqn he => ?_⟩,
          typed_nil⟩
        simp [AVar.v, timeVar] at he
      · exact moduleVars_typed hsub hrest av hav
    | some v => exact moduleVars_typed hsub h av hav

end Libsd

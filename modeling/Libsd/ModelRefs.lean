/-
  Libsd/ModelRefs.lean
  ====================
  **The references that instantiating a model takes, and gives back.**

  `sd_project_get_model` takes a reference to the model it finds, `module` stores the
  pointer in the instance, and `avar_free` gives the reference back.  The functions
  here build the trees of `Instance.lean` on a heap of counted objects, with the
  pointers in them, and free what has been built when they fail.

  They build the trees that `module` builds, take one reference for each instance, and
  leave the counts as they were when they fail (`module_agrees`).
-/
import Libsd.Containment
import Libsd.Lib.RefCounts
import Libsd.Sim

namespace Libsd.Refs

open RefHeap

/-- An `AVar` with `av->model`, which is NULL for what is no module. -/
inductive RefAVar where
  | var (v : Var) (node : Node)
  | module (v : Var) (model : Nat) (avars : List RefAVar)

namespace RefAVar

mutual
/-- The instance without its pointers. -/
def erase : RefAVar → AVar
  | var v node => .var v node
  | module v _ avars => .module v (eraseAll avars)

def eraseAll : List RefAVar → List AVar
  | [] => []
  | av :: avars => av.erase :: eraseAll avars
end

mutual
/-- The models that an instance and those below it point to, in the order of `avar_free`. -/
def models : RefAVar → List Nat
  | var _ _ => []
  | module _ m avars => m :: modelsAll avars

def modelsAll : List RefAVar → List Nat
  | [] => []
  | av :: avars => av.models ++ modelsAll avars
end

theorem eraseAll_append (avars bvars : List RefAVar) :
    eraseAll (avars ++ bvars) = eraseAll avars ++ eraseAll bvars := by
  induction avars with
  | nil => rfl
  | cons av avars ih => rw [List.cons_append, eraseAll, ih, eraseAll, List.cons_append]

theorem modelsAll_append (avars bvars : List RefAVar) :
    modelsAll (avars ++ bvars) = modelsAll avars ++ modelsAll bvars := by
  induction avars with
  | nil => rfl
  | cons av avars ih => rw [List.cons_append, modelsAll, ih, modelsAll, List.append_assoc]

end RefAVar

open RefAVar

/-- What is counted.  A simulation has `sim->module` and `sim->project` once they are set;
    the root module is its model and its children. -/
inductive Obj where
  | project
  | model
  | sim (module : Option (Nat × List RefAVar)) (project : Option Nat)

/-- The models of all files. -/
def allModels (p : SDProject) : List (SimSpec × SDModel) :=
  p.files.flatMap fun f => f.models.map fun m => (f.simSpecs, m)

def projectPtr : Nat := 0

/-- Where the model with this index is. -/
def modelPtr (i : Nat) : Nat := i + 1

def IsModel (p : SDProject) (q : Nat) : Prop := ∃ i < (allModels p).length, q = modelPtr i

/-! ### Taking and giving back references -/

/-- The loops of `sd_project_get_model`, from the model with index `i` on. -/
def findModel (n : Option CStr) : Nat → List (SimSpec × SDModel) → Option (Nat × SimSpec × SDModel)
  | _, [] => none
  | i, m :: ms => if m.2.name = n then some (i, m) else findModel n (i + 1) ms

/-- It reads `p->files`.  `sd_model_ref` does nothing for NULL. -/
def sdProjectGetModel (p : SDProject) (n : Option CStr) (h : Heap Obj) :
    Except Fault (Option (Nat × SimSpec × SDModel) × Heap Obj) := do
  let _ ← h.get projectPtr
  match findModel n 0 (allModels p) with
  | none => return (none, h)
  | some (i, specs, model) => do
    let h ← h.ref (modelPtr i)
    return (some (modelPtr i, specs, model), h)

mutual
def avarFree (bound : Nat) : RefAVar → Heap Obj → Except Fault (Heap Obj)
  | .var _ _, h => .ok h
  | .module _ m avars, h => do
    let h ← Heap.unref bound h m
    avarFreeAll bound avars h

def avarFreeAll (bound : Nat) : List RefAVar → Heap Obj → Except Fault (Heap Obj)
  | [], h => .ok h
  | av :: avars, h => do
    let h ← avarFree bound av h
    avarFreeAll bound avars h
end

/-- `avar_free` on a module, with its children so far. -/
def moduleFree (bound : Nat) (m : Nat) (avars : List RefAVar) (h : Heap Obj) :
    Except Fault (Heap Obj) := do
  let h ← Heap.unref bound h m
  avarFreeAll bound avars h

/-! ### Instantiation -/

/-- `module` below is the recursive call for the model of a module variable. -/
def avar (p : SDProject)
    (module : Option Var → Nat → SDModel → Heap Obj →
      Except Fault (Except Stop (List RefAVar) × Heap Obj))
    (v : Var) (h : Heap Obj) : Except Fault (Except Stop RefAVar × Heap Obj) :=
  if v.type = .module then do
    let (found, h) ← sdProjectGetModel p v.name h
    match found with
    | none => return (.error (.err .unspecified), h)
    | some (m, _, model) => do
      let (avars, h) ← module (some v) m model h
      return (avars.map (.module v m), h)
  else
    match v.eqn with
    | none => .ok (.ok (.var v .null), h)
    | some eqn => .ok ((avarEqnParse eqn).map (.var v), h)

/-- The loop of `module` over the variables of a model, with the children so far.  It
    returns why it stops early, if it does. -/
def moduleVars (mk : Var → Heap Obj → Except Fault (Except Stop RefAVar × Heap Obj))
    (conns : List Conn) : List Var → List RefAVar → Heap Obj →
    Except Fault (Option Stop × List RefAVar × Heap Obj)
  | [], avars, h => .ok (none, avars, h)
  | v :: vars, avars, h =>
    match findConn v.name conns with
    | .error st => .ok (some st, avars, h)
    | .ok r => do
      let (made, h) ← mk (connected v r) h
      match made with
      | .error st => return (some st, avars, h)
      | .ok av => moduleVars mk conns vars (avars ++ [av]) h

/-- What `module` does with the outcome of its loop. -/
def moduleEnd (bound : Nat) (m : Nat) (stop : Option Stop) (avars : List RefAVar) (h : Heap Obj) :
    Except Fault (Except Stop (List RefAVar) × Heap Obj) :=
  match stop with
  | none => .ok (.ok avars, h)
  | some (.err e) => do
    let h ← moduleFree bound m avars h
    return (.error (.err e), h)
  | some st => .ok (.error st, h)

/-- The children that a module has before those for the variables of its model. -/
def firstAVars (vmodule : Option Var) : List RefAVar :=
  match vmodule with
  | none => [.var timeVar .null]
  | some _ => []

/-- The module takes over the reference to `model`, at `m`. -/
def module (p : SDProject) (bound : Nat) : Nat → Option Var → Nat → SDModel → Heap Obj →
    Except Fault (Except Stop (List RefAVar) × Heap Obj)
  | 0, _, _, _, h => .ok (.error .diverge, h)
  | fuel + 1, vmodule, m, model, h => do
    let (stop, avars, h) ← moduleVars (avar p (module p bound fuel)) (connsOf vmodule) model.vars
      (firstAVars vmodule) h
    moduleEnd bound m stop avars h

/-! ### They agree with `Instance.lean` -/

section Agreement

variable {p : SDProject} {h : Heap Obj}

theorem findModel_bounds {n : Option CStr} {ms : List (SimSpec × SDModel)} {i j : Nat}
    {m : SimSpec × SDModel} (hfind : findModel n i ms = some (j, m)) : j < i + ms.length := by
  induction ms generalizing i with
  | nil => cases hfind
  | cons m' ms ih =>
    rw [findModel] at hfind
    split at hfind
    · cases hfind
      rw [List.length_cons]
      omega
    · have hj := ih hfind
      rw [List.length_cons]
      omega

theorem findModel_find (n : Option CStr) (ms : List (SimSpec × SDModel)) (i : Nat) :
    (findModel n i ms).map Prod.snd = ms.find? fun m => m.2.name = n := by
  induction ms generalizing i with
  | nil => rfl
  | cons m ms ih =>
    rw [findModel, List.find?_cons]
    by_cases hn : m.2.name = n
    · rw [if_pos hn, decide_eq_true hn]
      rfl
    · rw [if_neg hn, decide_eq_false hn]
      exact ih (i + 1)

/-- The project and its models are there, with references to them. -/
structure ProjectLive (p : SDProject) (h : Heap Obj) : Prop where
  project : ∃ c, h.cells projectPtr = some c ∧ 0 < c.refcount
  models : ∀ q, IsModel p q → ∃ c, h.cells q = some c ∧ 0 < c.refcount

/-- `sd_project_get_model` finds what it finds without counts, and refers to it once more. -/
theorem sdProjectGetModel_addRefs (hlive : ProjectLive p h) (n : Option CStr) (qs : List Nat) :
    (Libsd.sdProjectGetModel p n = none ∧
      sdProjectGetModel p n (h.addRefs qs) = .ok (none, h.addRefs qs)) ∨
    ∃ m specs model, Libsd.sdProjectGetModel p n = some (specs, model) ∧ IsModel p m ∧
      sdProjectGetModel p n (h.addRefs qs) = .ok (some (m, specs, model), h.addRefs (m :: qs)) := by
  have hfind : (findModel n 0 (allModels p)).map Prod.snd = Libsd.sdProjectGetModel p n :=
    findModel_find n (allModels p) 0
  obtain ⟨c0, hcell0, -⟩ := hlive.project
  have hget : (h.addRefs qs).get projectPtr =
      .ok { c0 with refcount := c0.refcount + qs.count projectPtr } := by
    apply Heap.get_of_cells
    rw [Heap.addRefs_cells, hcell0]
    rfl
  cases hfound : findModel n 0 (allModels p) with
  | none =>
    left
    rw [hfound] at hfind
    refine ⟨hfind.symm, ?_⟩
    rw [sdProjectGetModel, hget, hfound]
    rfl
  | some found =>
    right
    obtain ⟨i, specs, model⟩ := found
    rw [hfound] at hfind
    have hi := findModel_bounds hfound
    rw [Nat.zero_add] at hi
    have hm : IsModel p (modelPtr i) := ⟨i, hi, rfl⟩
    obtain ⟨c, hcell, -⟩ := hlive.models (modelPtr i) hm
    refine ⟨modelPtr i, specs, model, hfind.symm, hm, ?_⟩
    rw [sdProjectGetModel, hget, hfound]
    simp only [Heap.ref_addRefs hcell, bind, Except.bind]
    rfl

mutual
theorem avarFree_eq (bound : Nat) : ∀ (av : RefAVar) (h : Heap Obj),
    avarFree bound av h = Heap.unrefAll (Heap.unref bound) av.models h
  | .var _ _, _ => rfl
  | .module _ m avars, h => by
    simp only [avarFree, models, Heap.unrefAll, avarFreeAll_eq bound avars]

theorem avarFreeAll_eq (bound : Nat) : ∀ (avars : List RefAVar) (h : Heap Obj),
    avarFreeAll bound avars h = Heap.unrefAll (Heap.unref bound) (modelsAll avars) h
  | [], _ => rfl
  | av :: avars, h => by
    simp only [avarFreeAll, modelsAll, Heap.unrefAll_append, avarFree_eq bound av,
      avarFreeAll_eq bound avars]
end

/-- `avar_free` gives back the references to the models of all instances. -/
theorem moduleFree_eq (bound m : Nat) (avars : List RefAVar) (h : Heap Obj) :
    moduleFree bound m avars h = Heap.unrefAll (Heap.unref bound) (m :: modelsAll avars) h := by
  simp only [moduleFree, Heap.unrefAll, avarFreeAll_eq]

/-- What a function with counts may do where the one without returns `x`: it builds the
    same, with a reference more for each model pointed to, or it fails in the same way
    with the counts of `h.addRefs qs`. -/
inductive Agrees {α β : Type} (p : SDProject) (erase : β → α) (models : β → List Nat)
    (h : Heap Obj) (qs : List Nat) :
    Except Stop α → Except Fault (Except Stop β × Heap Obj) → Prop where
  | built (b : β) (hmodels : ∀ q ∈ models b, IsModel p q) :
      Agrees p erase models h qs (.ok (erase b)) (.ok (.ok b, h.addRefs (models b ++ qs)))
  | failed (e : SDErr) :
      Agrees p erase models h qs (.error (.err e)) (.ok (.error (.err e), h.addRefs qs))
  | crashed (st : Stop) (h' : Heap Obj) (hst : ∀ e, st ≠ .err e) :
      Agrees p erase models h qs (.error st) (.ok (.error st, h'))

/-- The same for the loop of `module`, which has the children `before` already. -/
inductive LoopAgrees (p : SDProject) (h : Heap Obj) (qs : List Nat) (before : List RefAVar) :
    Except Stop (List AVar) → Except Fault (Option Stop × List RefAVar × Heap Obj) → Prop where
  | built (avars : List RefAVar) (hmodels : ∀ q ∈ modelsAll avars, IsModel p q) :
      LoopAgrees p h qs before (.ok (eraseAll avars))
        (.ok (none, before ++ avars, h.addRefs (modelsAll (before ++ avars) ++ qs)))
  | failed (e : SDErr) (avars : List RefAVar) (hmodels : ∀ q ∈ modelsAll avars, IsModel p q) :
      LoopAgrees p h qs before (.error (.err e))
        (.ok (some (.err e), before ++ avars, h.addRefs (modelsAll (before ++ avars) ++ qs)))
  | crashed (st : Stop) (avars : List RefAVar) (h' : Heap Obj) (hst : ∀ e, st ≠ .err e) :
      LoopAgrees p h qs before (.error st) (.ok (some st, avars, h'))

/-- The call of `module` for a module variable. -/
abbrev ModuleAgrees (p : SDProject) (h : Heap Obj)
    (sub : Option Var → SDModel → Except Stop (List AVar))
    (module : Option Var → Nat → SDModel → Heap Obj →
      Except Fault (Except Stop (List RefAVar) × Heap Obj)) : Prop :=
  ∀ (vmodule : Option Var) (m : Nat) (model : SDModel) (qs : List Nat), IsModel p m →
    Agrees p eraseAll (fun avars => m :: modelsAll avars) h qs (sub vmodule model)
      (module vmodule m model (h.addRefs (m :: qs)))

theorem avar_agrees (hlive : ProjectLive p h)
    {sub : Option Var → SDModel → Except Stop (List AVar)}
    {module : Option Var → Nat → SDModel → Heap Obj →
      Except Fault (Except Stop (List RefAVar) × Heap Obj)}
    (hsub : ModuleAgrees p h sub module) (v : Var) (qs : List Nat) :
    Agrees p RefAVar.erase RefAVar.models h qs (Libsd.avar p sub v)
      (avar p module v (h.addRefs qs)) := by
  rw [Libsd.avar, avar]
  by_cases hv : v.type = .module
  · rw [if_pos hv, if_pos hv]
    rcases sdProjectGetModel_addRefs hlive v.name qs
      with ⟨hnone, heq⟩ | ⟨m, specs, model, hsome, hm, heq⟩
    · simp only [hnone, heq, bind, Except.bind]
      exact .failed .unspecified
    · simp only [hsome, heq, bind, Except.bind]
      have hagrees := hsub (some v) m model qs hm
      generalize sub (some v) model = x at hagrees ⊢
      generalize module (some v) m model (h.addRefs (m :: qs)) = y at hagrees ⊢
      cases hagrees with
      | built avars hmodels => exact Agrees.built (RefAVar.module v m avars) hmodels
      | failed e => exact .failed e
      | crashed st h' hst => exact .crashed st h' hst
  · rw [if_neg hv, if_neg hv]
    cases v.eqn with
    | none => exact Agrees.built (RefAVar.var v .null) (by simp [RefAVar.models])
    | some eqn =>
      simp only [bind, Except.bind]
      cases avarEqnParse eqn with
      | ok node => exact Agrees.built (RefAVar.var v node) (by simp [RefAVar.models])
      | error st =>
        by_cases hst : ∃ e, st = .err e
        · obtain ⟨e, rfl⟩ := hst
          exact .failed e
        · exact .crashed st _ (not_exists.mp hst)

/-- The loop stops before it builds anything. -/
theorem LoopAgrees.stopped (qs : List Nat) (before : List RefAVar) (st : Stop) :
    LoopAgrees p h qs before (.error st)
      (.ok (some st, before, h.addRefs (modelsAll before ++ qs))) := by
  by_cases hst : ∃ e, st = .err e
  · obtain ⟨e, rfl⟩ := hst
    have hfailed : LoopAgrees p h qs before (.error (.err e)) (.ok (some (.err e), before ++ [],
        h.addRefs (modelsAll (before ++ []) ++ qs))) := .failed e [] (by simp [modelsAll])
    rwa [List.append_nil] at hfailed
  · exact .crashed st before _ (not_exists.mp hst)

theorem moduleVars_agrees {mk : Var → Except Stop AVar}
    {mkRefs : Var → Heap Obj → Except Fault (Except Stop RefAVar × Heap Obj)}
    (hmk : ∀ v qs, Agrees p RefAVar.erase RefAVar.models h qs (mk v) (mkRefs v (h.addRefs qs)))
    (conns : List Conn) (qs : List Nat) (vars : List Var) (before : List RefAVar) :
    LoopAgrees p h qs before (Libsd.moduleVars mk conns vars)
      (moduleVars mkRefs conns vars before (h.addRefs (modelsAll before ++ qs))) := by
  induction vars generalizing before with
  | nil =>
    have hbuilt : LoopAgrees p h qs before (.ok []) (.ok (none, before ++ [],
        h.addRefs (modelsAll (before ++ []) ++ qs))) := .built [] (by simp [modelsAll])
    rwa [List.append_nil] at hbuilt
  | cons v vars ih =>
    cases hr : findConn v.name conns with
    | error st =>
      rw [Libsd.moduleVars, moduleVars, hr]
      exact .stopped qs before st
    | ok r =>
      have hleft : Libsd.moduleVars mk conns (v :: vars) = (do
          let av ← mk (connected v r)
          let avars ← Libsd.moduleVars mk conns vars
          return av :: avars) := by
        rw [Libsd.moduleVars, hr]
        cases r <;> rfl
      have hagrees := hmk (connected v r) (modelsAll before ++ qs)
      rw [hleft, moduleVars, hr]
      simp only [bind, Except.bind]
      generalize mk (connected v r) = x at hagrees ⊢
      generalize mkRefs (connected v r) (h.addRefs (modelsAll before ++ qs)) = y at hagrees ⊢
      cases hagrees with
      | failed e => exact .stopped qs before (.err e)
      | crashed st h' hst => exact .crashed st before h' hst
      | built av hmodels =>
        have hperm :
            (av.models ++ (modelsAll before ++ qs)).Perm (modelsAll (before ++ [av]) ++ qs) := by
          simp only [modelsAll_append, modelsAll, List.append_nil, List.append_assoc]
          rw [← List.append_assoc, ← List.append_assoc]
          exact List.perm_append_comm.append_right qs
        have hrest := ih (before ++ [av])
        simp only [Heap.addRefs_perm h hperm]
        generalize Libsd.moduleVars mk conns vars = x at hrest ⊢
        generalize moduleVars mkRefs conns vars (before ++ [av])
          (h.addRefs (modelsAll (before ++ [av]) ++ qs)) = y at hrest ⊢
        have hmore : ∀ avars, (∀ q ∈ modelsAll avars, IsModel p q) →
            ∀ q ∈ modelsAll (av :: avars), IsModel p q := by
          intro avars havars q hq
          rcases List.mem_append.mp hq with hq | hq
          · exact hmodels q hq
          · exact havars q hq
        cases hrest with
        | built avars havars =>
          rw [List.append_assoc]
          exact LoopAgrees.built (av :: avars) (hmore avars havars)
        | failed e avars havars =>
          rw [List.append_assoc]
          exact LoopAgrees.failed e (av :: avars) (hmore avars havars)
        | crashed st avars h' hst => exact .crashed st avars h' hst

/-- `module` takes one reference for each instance it builds, that to its own model among
    them, and has given back every reference when it fails. -/
theorem module_agrees (hlive : ProjectLive p h) (bound fuel : Nat) :
    ModuleAgrees p h (Libsd.module p fuel) (module p (bound + 1) fuel) := by
  induction fuel with
  | zero => exact fun vmodule m model qs _ => .crashed .diverge _ (by simp)
  | succ fuel ih =>
    intro vmodule m model qs hm
    have hloop := moduleVars_agrees (avar_agrees hlive ih) (connsOf vmodule) (m :: qs) model.vars
      (firstAVars vmodule)
    have hleft : Libsd.module p (fuel + 1) vmodule model = (do
        let avars ← Libsd.moduleVars (Libsd.avar p (Libsd.module p fuel))
            (connsOf vmodule) model.vars
        return eraseAll (firstAVars vmodule) ++ avars) := by
      cases vmodule with
      | none => rfl
      | some v =>
        rw [module_some, children]
        cases Libsd.moduleVars (Libsd.avar p (Libsd.module p fuel)) (connsOf (some v))
          model.vars <;> rfl
    have hnone : modelsAll (firstAVars vmodule) = [] := by
      cases vmodule <;> rfl
    rw [hnone, List.nil_append] at hloop
    rw [hleft, module]
    generalize Libsd.moduleVars _ (connsOf vmodule) model.vars = x at hloop ⊢
    generalize moduleVars _ (connsOf vmodule) model.vars _ _ = y at hloop ⊢
    -- the reference to the model itself, before those of the children
    have hperm : ∀ ps, h.addRefs (ps ++ m :: qs) = h.addRefs (m :: ps ++ qs) := fun ps =>
      h.addRefs_perm List.perm_middle
    cases hloop with
    | built avars hmodels =>
      simp only [bind, Except.bind, moduleEnd, hperm]
      have hall : ∀ q ∈ m :: modelsAll (firstAVars vmodule ++ avars), IsModel p q := by
        rw [modelsAll_append, hnone, List.nil_append]
        exact List.forall_mem_cons.mpr ⟨hm, hmodels⟩
      exact eraseAll_append (firstAVars vmodule) avars ▸
        Agrees.built (firstAVars vmodule ++ avars) hall
    | failed e avars hmodels =>
      have hall : ∀ q ∈ m :: modelsAll (firstAVars vmodule ++ avars), IsModel p q := by
        rw [modelsAll_append, hnone, List.nil_append]
        exact List.forall_mem_cons.mpr ⟨hm, hmodels⟩
      simp only [bind, Except.bind, moduleEnd, hperm, moduleFree_eq,
        Heap.unrefAll_addRefs fun q hq => hlive.models q (hall q hq)]
      exact .failed e
    | crashed st avars h' hst =>
      simp only [bind, Except.bind]
      cases st with
      | err e => exact absurd rfl (hst e)
      | undefined why => exact .crashed _ h' hst
      | diverge => exact .crashed _ h' hst

end Agreement

end Libsd.Refs

/-
  Libsd/SimRefs.lean
  ==================
  **The references that a simulation holds.**

  `sd_sim_new` makes an object for the simulation, lets it hold the references of its
  instances and one to the project, and gives everything back through `sd_sim_unref`
  when it fails.  It makes a simulation when the function without counts returns one, and
  leaves no trace when it fails (`sdSimNew_agrees`).
-/
import Libsd.ModelRefs

namespace Libsd.Refs

open RefHeap RefAVar

/-! ### Making and freeing simulations -/

/-- What `sd_sim_new` does when `sim->project` is set. -/
def simSetup (env : Env) (simSpecs : SimSpec) (root : List AVar) : Except Stop SDSim := do
  let store ← compileRoot root
  let (store, nvars) := moduleAssignOffsets [] 0 root (store, 0)
  let sorted ← moduleSortRunlists root store [] .empty
  sdSimReset
    { env := env, simSpecs := simSpecs, root := root, store := store, lists := sorted.lists,
      nvars := nvars, spec := simSpecs, slab := fun _ _ => 0, nsaves := 0, nsteps := 0,
      step := 0, saveStep := 0, saveEvery := 0 }

/-- What `sd_sim_unref` frees with the last reference to a simulation. -/
def simFree (bound : Nat) (sim : Obj) (h : Heap Obj) : Except Fault (Heap Obj) :=
  match sim with
  | .sim module project => do
    let h ← match module with
      | none => .ok h
      | some (m, avars) => moduleFree bound m avars h
    match project with
    | none => .ok h
    | some q => Heap.unref bound h q
  | _ => .error .dangling

def sdSimUnref : Nat → Heap Obj → Nat → Except Fault (Heap Obj)
  | 0, _, _ => .error .diverge
  | bound + 1, h, sim => do
    let c ← h.get sim
    let h := h.put sim { c with refcount := c.refcount - 1 }
    if c.refcount - 1 ≠ 0 then return h
    else
      let h ← simFree bound c.val h
      return h.free sim

/-- `sim->module` is set, and then `sim->project`. -/
def simHold (sim m : Nat) (avars : List RefAVar) (h : Heap Obj) : Except Fault (Heap Obj) := do
  let h ← h.hold sim (.sim (some (m, avars)) none) (m :: modelsAll avars)
  let h ← h.ref projectPtr
  h.hold sim (.sim (some (m, avars)) (some projectPtr)) [projectPtr]

/-- `sd_sim_new` up to the error exit: the new simulation, and why it fails when it does. -/
def simBuild (env : Env) (p : SDProject) (bound : Nat) (modelName : Option CStr) (sim : Nat)
    (h : Heap Obj) : Except Fault (Except Stop SDSim × Heap Obj) := do
  let (found, h) ← sdProjectGetModel p modelName h
  match found with
  | none => return (.error (.err .unspecified), h)
  | some (m, simSpecs, model) => do
    let (made, h) ← module p bound (moduleFuel p) none m model h
    match made with
    | .error st => return (.error st, h)
    | .ok avars => do
      let h ← simHold sim m avars h
      return (simSetup env simSpecs (eraseAll avars), h)

/-- It returns the new simulation, or NULL after giving back the only reference to it. -/
def sdSimNew (env : Env) (p : SDProject) (bound : Nat) (modelName : Option CStr) (h : Heap Obj) :
    Except Fault (Except Stop Nat × Heap Obj) := do
  let sim := h.next
  let (made, h) ← simBuild env p bound modelName sim (h.alloc (.sim none none))
  match made with
  | .ok _ => return (.ok sim, h)
  | .error (.err e) => do
    let h ← sdSimUnref bound h sim
    return (.error (.err e), h)
  | .error st => return (.error st, h)

/-! ### The outcomes of `sd_sim_new` -/

section Outcomes

variable {env : Env} {p : SDProject} {h : Heap Obj} {name : Option CStr}

theorem sdSimReset_root {s s' : SDSim} (heq : sdSimReset s = .ok s') : s'.root = s.root := by
  rw [sdSimReset] at heq
  split at heq
  · cases heq
  · obtain ⟨nsteps, -, heq⟩ := Outcome.bind_eq_ok heq
    obtain ⟨saveEvery, -, heq⟩ := Outcome.bind_eq_ok heq
    obtain ⟨row, -, heq⟩ := Outcome.bind_eq_ok heq
    cases heq
    rfl

theorem simSetup_root {simSpecs : SimSpec} {root : List AVar} {s : SDSim}
    (heq : simSetup env simSpecs root = .ok s) : s.root = root := by
  obtain ⟨store, -, heq⟩ := Outcome.bind_eq_ok heq
  obtain ⟨sorted, -, heq⟩ := Outcome.bind_eq_ok heq
  exact sdSimReset_root heq

theorem sdSimNew_none (hmodel : Libsd.sdProjectGetModel p name = none) :
    Libsd.sdSimNew env p name = .error (.err .unspecified) := by
  rw [Libsd.sdSimNew, hmodel]

theorem sdSimNew_some {simSpecs : SimSpec} {model : SDModel}
    (hmodel : Libsd.sdProjectGetModel p name = some (simSpecs, model)) :
    Libsd.sdSimNew env p name = (do
      let root ← Libsd.module p (moduleFuel p) none model
      simSetup env simSpecs root) := by
  rw [Libsd.sdSimNew, hmodel]
  rfl

/-- The references that a simulation holds, in the order of `sd_sim_unref`. -/
def simHolds (module : Option (Nat × List RefAVar)) (project : Option Nat) : List Nat :=
  (module.elim [] fun x => x.1 :: modelsAll x.2) ++ project.toList

theorem simFree_eq (bound : Nat) (module : Option (Nat × List RefAVar)) (project : Option Nat)
    (h : Heap Obj) : simFree bound (.sim module project) h =
      Heap.unrefAll (Heap.unref bound) (simHolds module project) h := by
  rw [simHolds, Heap.unrefAll_append]
  cases module with
  | none =>
    cases project with
    | none => rfl
    | some q =>
      simp only [simFree, Option.elim, Option.toList, Heap.unrefAll, bind, Except.bind]
      cases Heap.unref bound h q <;> rfl
  | some x =>
    obtain ⟨m, avars⟩ := x
    simp only [simFree, moduleFree_eq, Option.elim, bind, Except.bind]
    cases Heap.unrefAll (Heap.unref bound) (m :: modelsAll avars) h with
    | error e => rfl
    | ok g =>
      cases project with
      | none => rfl
      | some q =>
        simp only [Option.toList, Heap.unrefAll, bind, Except.bind]
        cases Heap.unref bound g q <;> rfl

/-- `sd_sim_unref` gives back a reference as `Heap.unref` does. -/
theorem sdSimUnref_eq (bound : Nat) {sim : Nat} {n : Int} {module : Option (Nat × List RefAVar)}
    {project : Option Nat}
    (hcell : h.cells sim = some ⟨n, .sim module project, simHolds module project⟩) :
    sdSimUnref bound h sim = Heap.unref bound h sim := by
  cases bound with
  | zero => rfl
  | succ bound =>
    simp only [sdSimUnref, Heap.unref, Heap.get_of_cells hcell, bind, Except.bind, simFree_eq]

/-- What `sd_sim_new` does with counts where it returns `x` without: it makes a
    simulation that holds its models and the project, or fails and leaves no trace. -/
inductive NewAgrees (p : SDProject) (h : Heap Obj) :
    Except Stop SDSim → Except Fault (Except Stop Nat × Heap Obj) → Prop where
  | built (s : SDSim) (m : Nat) (avars : List RefAVar) (hroot : eraseAll avars = s.root)
      (hmodels : ∀ q ∈ m :: modelsAll avars, IsModel p q) :
      NewAgrees p h (.ok s) (.ok (.ok h.next,
        ((h.alloc (.sim none none)).addRefs (simHolds (some (m, avars)) (some projectPtr))).put
          h.next
          ⟨1, .sim (some (m, avars)) (some projectPtr),
            simHolds (some (m, avars)) (some projectPtr)⟩))
  | failed (e : SDErr) (h' : Heap Obj) (hcells : h'.cells = h.cells)
    (hnext : h'.next = h.next + 1) :
      NewAgrees p h (.error (.err e)) (.ok (.error (.err e), h'))
  | crashed (st : Stop) (h' : Heap Obj) (hst : ∀ e, st ≠ .err e) :
      NewAgrees p h (.error st) (.ok (.error st, h'))

/-- What has been allocated last is no model, nor the project. -/
theorem ProjectLive.alloc (hlive : ProjectLive p h) (hfresh : h.cells h.next = none) (v : Obj) :
    ProjectLive p (h.alloc v) ∧ projectPtr ≠ h.next ∧ ∀ q, IsModel p q → q ≠ h.next := by
  have hne : ∀ q, (∃ c, h.cells q = some c ∧ 0 < c.refcount) → q ≠ h.next := by
    rintro q ⟨c, hcell, -⟩ rfl
    rw [hfresh] at hcell
    cases hcell
  have hkeep : ∀ q, (∃ c, h.cells q = some c ∧ 0 < c.refcount) →
      ∃ c, (h.alloc v).cells q = some c ∧ 0 < c.refcount := by
    intro q hq
    obtain ⟨c, hcell, hpos⟩ := hq
    exact ⟨c, (Function.update_of_ne (hne q ⟨c, hcell, hpos⟩) _ _).trans hcell, hpos⟩
  exact ⟨⟨hkeep _ hlive.project, fun q hq => hkeep q (hlive.models q hq)⟩,
    hne _ hlive.project, fun q hq => hne q (hlive.models q hq)⟩

/-- A new simulation that fails gives back what it holds, and is gone. -/
theorem simUnref_new (g : Heap Obj) (sim : Nat) (module : Option (Nat × List RefAVar))
    (project : Option Nat) (hsim : sim ∉ simHolds module project)
    (hlive : ∀ q ∈ simHolds module project, ∃ c, g.cells q = some c ∧ 0 < c.refcount)
    (bound : Nat) :
    ∃ g', sdSimUnref (bound + 2) ((g.addRefs (simHolds module project)).put sim
        ⟨1, .sim module project, simHolds module project⟩) sim = .ok g' ∧
      g'.cells = Function.update g.cells sim none ∧ g'.next = g.next := by
  rw [sdSimUnref_eq _ (Heap.put_self _ _ _), Heap.unref_put_addRefs hsim hlive]
  exact ⟨_, rfl, Function.update_idem _ _ _, rfl⟩

/-- The references that have been taken are handed on to the simulation. -/
theorem simHold_eq {g : Heap Obj} {sim m : Nat} {avars : List RefAVar} {c0 : Cell Obj}
    (hcell : g.cells sim = some ⟨1, .sim none none, []⟩)
    (hsim : sim ∉ simHolds (some (m, avars)) (some projectPtr))
    (hproject : g.cells projectPtr = some c0) :
    simHold sim m avars (g.addRefs (m :: modelsAll avars)) =
    .ok ((g.addRefs (simHolds (some (m, avars)) (some projectPtr))).put sim
      ⟨1, .sim (some (m, avars)) (some projectPtr),
        simHolds (some (m, avars)) (some projectPtr)⟩) := by
  have hperm :
      (projectPtr :: m :: modelsAll avars).Perm (simHolds (some (m, avars)) (some projectPtr)) :=
    (List.perm_append_singleton _ _).symm
  have hnot : sim ∉ projectPtr :: m :: modelsAll avars := fun hmem => hsim (hperm.mem_iff.mp hmem)
  obtain ⟨hne, hmodels⟩ := not_or.mp (List.mem_cons.not.mp hnot)
  have hput : ∀ c, (g.put sim c).cells projectPtr = some c0 := fun c =>
    (Heap.put_ne (Ne.symm hne) c).trans hproject
  have hfirst : (g.addRefs (m :: modelsAll avars)).cells sim = some ⟨1, .sim none none, []⟩ :=
    (Heap.addRefs_cells_of_notMem hmodels).trans hcell
  simp only [simHold, Heap.hold, Heap.get_of_cells hfirst, bind, Except.bind, pure, Except.pure,
    List.nil_append]
  rw [← Heap.addRefs_put hmodels, Heap.ref_addRefs (hput _), Heap.addRefs_put hnot]
  simp only [Heap.get_of_cells (Heap.put_self _ _ _), Heap.put_put, Heap.addRefs_perm g hperm]
  rfl

theorem sdSimNew_agrees (hlive : ProjectLive p h) (hfresh : h.cells h.next = none) (bound : Nat) :
    NewAgrees p h (Libsd.sdSimNew env p name) (sdSimNew env p (bound + 2) name h) := by
  obtain ⟨hlive1, hproject, hmodel⟩ := hlive.alloc hfresh (.sim none none)
  have hself : (h.alloc (.sim none none)).cells h.next = some ⟨1, .sim none none, []⟩ :=
    Function.update_self _ _ _
  have hgone : Function.update (h.alloc (.sim none none)).cells h.next none = h.cells := by
    refine (Function.update_idem _ _ _).trans ?_
    rw [← hfresh, Function.update_eq_self]
  -- nothing has been taken yet when the model is not found, or cannot be instantiated
  have hnothing : ∃ g', sdSimUnref (bound + 2) (h.alloc (.sim none none)) h.next = .ok g' ∧
      g'.cells = h.cells ∧ g'.next = h.next + 1 := by
    obtain ⟨g', heq, hcells, hnext⟩ := simUnref_new (h.alloc (.sim none none)) h.next none none
      (by simp [simHolds]) (by simp [simHolds]) bound
    refine ⟨g', ?_, hcells.trans hgone, hnext⟩
    rwa [show simHolds none none = [] from rfl, Heap.addRefs_nil, Heap.put_eq_self hself] at heq
  obtain ⟨g0, hunref0, hcells0, hnext0⟩ := hnothing
  rw [sdSimNew, simBuild]
  rcases sdProjectGetModel_addRefs hlive1 name []
    with ⟨hnone, heq⟩ | ⟨m, specs, model, hsome, hm, heq⟩
  · rw [Heap.addRefs_nil] at heq
    rw [sdSimNew_none hnone, heq]
    simp only [bind, Except.bind, pure, Except.pure, hunref0]
    exact .failed .unspecified g0 hcells0 hnext0
  · rw [Heap.addRefs_nil] at heq
    rw [sdSimNew_some hsome, heq]
    have hagrees := module_agrees hlive1 (bound + 1) (moduleFuel p) none m model [] hm
    simp only [bind, Except.bind, pure, Except.pure]
    generalize Libsd.module p (moduleFuel p) none model = x at hagrees ⊢
    generalize module p (bound + 1 + 1) (moduleFuel p) none m model _ = y at hagrees ⊢
    cases hagrees with
    | crashed st h' hst => 
      cases st with
      | err e => exact absurd rfl (hst e)
      | undefined why => exact .crashed _ h' hst
      | diverge => exact .crashed _ h' hst
    | failed e =>
      simp only [Heap.addRefs_nil, hunref0]
      exact .failed e g0 hcells0 hnext0
    | built avars hmodels =>
      have hsim : h.next ∉ simHolds (some (m, avars)) (some projectPtr) := by
        intro hmem
        rcases List.mem_append.mp hmem with hmem | hmem
        · exact hmodel _ (hmodels _ hmem) rfl
        · exact hproject (List.mem_singleton.mp hmem).symm
      have hheld : ∀ q ∈ simHolds (some (m, avars)) (some projectPtr),
          ∃ c, (h.alloc (.sim none none)).cells q = some c ∧ 0 < c.refcount := by
        intro q hq
        rcases List.mem_append.mp hq with hq | hq
        · exact hlive1.models q (hmodels q hq)
        · rw [List.mem_singleton.mp hq]
          exact hlive1.project
      obtain ⟨c0, hcell0, -⟩ := hlive1.project
      simp only [List.append_nil, simHold_eq hself hsim hcell0]
      cases hsetup : simSetup env specs (eraseAll avars) with
      | ok s => exact .built s m avars (simSetup_root hsetup).symm hmodels
      | error st =>
        cases st with
        | err e =>
          obtain ⟨g', hunref, hcells, hnext⟩ := simUnref_new _ h.next (some (m, avars))
            (some projectPtr) hsim hheld bound
          simp only [hunref]
          exact .failed e g' (hcells.trans hgone) hnext
        | undefined why => exact .crashed _ _ (by simp)
        | diverge => exact .crashed _ _ (by simp)

end Outcomes

end Libsd.Refs

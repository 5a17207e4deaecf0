/-
  Libsd/FlatNames.lean
  ====================
  **Names in a model without modules.**

  The root of such a model is `time` and then the variables in the order they are
  declared (`module_flat_iff`).  When they have different names, a name in an
  equation leads to the one variable that has it (`find_flat_iff`).
-/
import Libsd.SingleModule

namespace Libsd

open Outcome

/-- The tree of a variable's equation. -/
def Var.tree (v : Var) : Node :=
  match v.eqn with
  | none => .null
  | some eqn =>
    match avarEqnParse eqn with
    | .ok n => n
    | .error _ => .null

/-- The variables have names, no two of them the same and none of them `time`. -/
structure SDModel.Named (model : SDModel) : Prop where
  name : ∀ v ∈ model.vars, v.name ≠ none
  nodup : (model.vars.map (·.name)).Nodup
  time : ∀ v ∈ model.vars, v.name ≠ some (cstr "time")

/-- The root that `module` makes of a model without modules. -/
def SDModel.flatRoot (model : SDModel) : List AVar :=
  .var timeVar .null :: model.vars.map fun v => .var v v.tree

/-! ### The root -/

theorem avar_flat {p : SDProject} {sub : Option Var → SDModel → Except Stop (List AVar)} {v : Var}
    (hv : v.type ≠ .module) {av : AVar} :
    avar p sub v = .ok av ↔ av = .var v v.tree ∧ ∀ eqn, v.eqn = some eqn →
      avarEqnParse eqn = .ok v.tree := by
  rw [avar, if_neg hv, Var.tree]
  cases v.eqn with
  | none => simp [eq_comm]
  | some eqn =>
    cases hn : avarEqnParse eqn with
    | error e => simp [bind, Except.bind, hn]
    | ok n => simp [bind, Except.bind, pure, Except.pure, eq_comm, hn]

theorem moduleVars_flat {p : SDProject} {sub : Option Var → SDModel → Except Stop (List AVar)}
    {vars : List Var} (hflat : ∀ v ∈ vars, v.type ≠ .module) {avars : List AVar} :
    moduleVars (avar p sub) [] vars = .ok avars ↔
      avars = vars.map (fun v => .var v v.tree) ∧
        ∀ v ∈ vars, ∀ eqn, v.eqn = some eqn → avarEqnParse eqn = .ok v.tree := by
  induction vars generalizing avars with
  | nil => simp [moduleVars, eq_comm]
  | cons v vars ih =>
    have hav : ∀ av, avar p sub v = .ok av ↔ av = .var v v.tree ∧
        ∀ eqn, v.eqn = some eqn → avarEqnParse eqn = .ok v.tree :=
      fun _ => avar_flat (hflat v List.mem_cons_self)
    have hrest := fun avars => @ih (fun w hw => hflat w (List.mem_cons_of_mem v hw)) avars
    simp only [moduleVars, findConn, bind, Except.bind]
    cases hmk : avar p sub v with
    | error e =>
      refine iff_of_false (by simp) fun hc => ?_
      exact absurd ((hav _).mpr ⟨rfl, hc.2 v List.mem_cons_self⟩) (by simp [hmk])
    | ok av =>
      obtain ⟨rfl, hparse⟩ := (hav av).mp hmk
      cases hvars : moduleVars (avar p sub) [] vars with
      | error e =>
        refine iff_of_false (by simp) fun hc => ?_
        have := (hrest _).mpr ⟨rfl, fun w hw => hc.2 w (List.mem_cons_of_mem v hw)⟩
        exact absurd this (by simp [hvars])
      | ok rest =>
        obtain ⟨rfl, hparses⟩ := (hrest rest).mp hvars
        simp only [pure, Except.pure, Except.ok.injEq, List.map_cons, eq_comm, iff_self_and]
        rintro - w hw
        rcases List.mem_cons.mp hw with rfl | hw
        · exact hparse
        · exact hparses w hw

/-- Without modules the tree is made just when every equation can be parsed. -/
theorem module_flat_iff {p : SDProject} {model : SDModel} (hflat : model.Flat) {root : List AVar} :
    module p (moduleFuel p) none model = .ok root ↔
      root = model.flatRoot ∧
        ∀ v ∈ model.vars, ∀ eqn, v.eqn = some eqn → avarEqnParse eqn = .ok v.tree := by
  have hstep : ∀ fuel, module p (fuel + 1) none model = (do
      let avars ← moduleVars (avar p (module p fuel)) [] model.vars
      return .var timeVar .null :: avars) := fun _ => rfl
  rw [moduleFuel, hstep]
  cases hvars : moduleVars (avar p (module p _)) [] model.vars with
  | error e =>
    refine iff_of_false (by simp [bind, Except.bind]) fun hc => ?_
    have hok := hvars.symm.trans ((moduleVars_flat hflat).mpr ⟨rfl, hc.2⟩)
    cases hok
  | ok avars =>
    obtain ⟨rfl, hparses⟩ := (moduleVars_flat hflat).mp hvars
    simp only [bind, Except.bind, pure, Except.pure, Except.ok.injEq, SDModel.flatRoot, eq_comm,
      iff_self_and]
    exact fun _ => hparses

/-! ### Resolving a name -/

/-- Where the first variable of a name is. -/
def nameIndex (avars : List AVar) (name : CStr) : Option Nat :=
  avars.findIdx? fun av => av.v.name == some name

theorem resolveLoop_flat {avars : List AVar} (hflat : ∀ av ∈ avars, av.isModule = false)
    (hname : ∀ av ∈ avars, av.v.name ≠ none) (name : CStr) (i : Nat) :
    resolveLoop name i avars = .ok ((nameIndex avars name).map fun j => [i + j]) := by
  induction avars generalizing i with
  | nil => rfl
  | cons av rest ih =>
    have hrest := ih (fun b hb => hflat b (List.mem_cons_of_mem av hb))
      (fun b hb => hname b (List.mem_cons_of_mem av hb)) (i + 1)
    obtain ⟨n, hn⟩ := Option.ne_none_iff_exists'.mp (hname av List.mem_cons_self)
    have hm := hflat av List.mem_cons_self
    have hstep : resolveLoop name i (av :: rest) =
        if n = name then .ok (some [i]) else resolveLoop name (i + 1) rest := by
      rw [resolveLoop, hn]
      cases splitDot name with
      | none => rfl
      | some r => simp [hm]
    rw [hstep, hrest]
    by_cases heq : n = name
    · simp [nameIndex, List.findIdx?_cons, hn, heq]
    · have hne : (av.v.name == some name) = false := by simpa [hn] using heq
      rw [if_neg heq, nameIndex, nameIndex, List.findIdx?_cons, hne]
      simp only [Bool.false_eq_true, if_false, Option.map_map]
      congr 2
      funext j
      simp only [Function.comp_apply, Nat.add_assoc, Nat.add_comm 1 j]

namespace SDModel

variable {model : SDModel}

theorem flatRoot_time : model.flatRoot[0]? = some (.var timeVar .null) := rfl

theorem flatRoot_var {k : Nat} {v : Var} (hv : model.vars[k]? = some v) :
    model.flatRoot[k + 1]? = some (.var v v.tree) := by
  simp [flatRoot, hv]

/-- A variable is `time`, or one of the model. -/
theorem flatRoot_cases {i : Nat} {av : AVar} (hav : model.flatRoot[i]? = some av) :
    (i = 0 ∧ av = .var timeVar .null) ∨
      ∃ k v, i = k + 1 ∧ model.vars[k]? = some v ∧ av = .var v v.tree := by
  cases i with
  | zero => exact .inl ⟨rfl, (Option.some.inj hav).symm⟩
  | succ k =>
    right
    simp only [flatRoot, List.getElem?_cons_succ, List.getElem?_map, Option.map_eq_some_iff] at hav
    obtain ⟨v, hv, rfl⟩ := hav
    exact ⟨k, v, rfl, hv, rfl⟩

theorem avarAt_flatRoot (i : Nat) : avarAt model.flatRoot [i] = model.flatRoot[i]? := by
  simp [avarAt_cons]

theorem flatRoot_isModule : ∀ av ∈ model.flatRoot, av.isModule = false := by
  intro av hav
  rw [flatRoot] at hav
  rcases List.mem_cons.mp hav with rfl | hav
  · rfl
  · obtain ⟨v, hv, rfl⟩ := List.mem_map.mp hav
    rfl

theorem Named.name_ne_none (hn : model.Named) : ∀ av ∈ model.flatRoot, av.v.name ≠ none := by
  intro av hav
  rw [flatRoot] at hav
  rcases List.mem_cons.mp hav with rfl | hav
  · simp [AVar.v, timeVar]
  · obtain ⟨v, hv, rfl⟩ := List.mem_map.mp hav
    exact hn.name v hv

theorem Named.names_nodup (hn : model.Named) : (model.flatRoot.map (·.v.name)).Nodup := by
  rw [flatRoot, List.map_cons, List.map_map, List.nodup_cons]
  refine ⟨fun hmem => ?_, hn.nodup⟩
  obtain ⟨v, hv, heq⟩ := List.mem_map.mp hmem
  exact hn.time v hv heq

theorem Named.nameIndex_iff (hn : model.Named) {name : CStr} {i : Nat} :
    nameIndex model.flatRoot name = some i ↔
      ∃ av, model.flatRoot[i]? = some av ∧ av.v.name = some name := by
  have hnodup := hn.names_nodup
  constructor
  · intro hi
    obtain ⟨hlt, hname, -⟩ := List.findIdx?_eq_some_iff_getElem.mp hi
    exact ⟨model.flatRoot[i], List.getElem?_eq_getElem hlt, by simpa using hname⟩
  · rintro ⟨av, hav, hname⟩
    obtain ⟨hlt, rfl⟩ := List.getElem?_eq_some_iff.mp hav
    refine List.findIdx?_eq_some_iff_getElem.mpr ⟨hlt, by simpa using hname, fun j hj => ?_⟩
    simp only [beq_iff_eq]
    intro hjn
    have hi : i < (model.flatRoot.map (·.v.name)).length := by simpa using hlt
    have hij : (model.flatRoot.map (·.v.name))[j] = (model.flatRoot.map (·.v.name))[i] := by
      simp only [List.getElem_map, hname, hjn]
    exact absurd ((hnodup.getElem_inj_iff).mp hij) (by omega)

/-- Two variables of one name are one variable. -/
theorem Named.index_unique (hn : model.Named) {name : CStr} {i j : Nat} {av av' : AVar}
    (hi : model.flatRoot[i]? = some av) (hni : av.v.name = some name)
    (hj : model.flatRoot[j]? = some av') (hnj : av'.v.name = some name) : i = j :=
  Option.some.inj ((hn.nameIndex_iff.mpr ⟨av, hi, hni⟩).symm.trans
    (hn.nameIndex_iff.mpr ⟨av', hj, hnj⟩))

theorem Named.resolve_flat (hn : model.Named) (name : CStr) :
    resolve model.flatRoot (some name) =
      .ok ((nameIndex model.flatRoot (skipDot name)).map fun j => [j]) := by
  have hres := resolveLoop_flat flatRoot_isModule hn.name_ne_none (skipDot name) 0
  simp only [Nat.zero_add] at hres
  exact hres

/-- The function that resolves the names in the equations of the model. -/
def find (model : SDModel) : CStr → Option Path := (scopeAt model.flatRoot []).find

theorem Named.find_eq (hn : model.Named) (name : CStr) :
    model.find name = (nameIndex model.flatRoot (skipDot name)).map fun j => [j] := by
  simp only [find, Scope.find, show (scopeAt model.flatRoot []).avars = model.flatRoot from rfl,
    hn.resolve_flat, show (scopeAt model.flatRoot []).base = [] from rfl]
  cases nameIndex model.flatRoot (skipDot name) <;> rfl

/-- A name in an equation leads to the variable that has it, a leading dot apart. -/
theorem Named.find_iff (hn : model.Named) {name : CStr} {p : Path} :
    model.find name = some p ↔
      ∃ i av, p = [i] ∧ model.flatRoot[i]? = some av ∧ av.v.name = some (skipDot name) := by
  rw [hn.find_eq, Option.map_eq_some_iff]
  constructor
  · rintro ⟨i, hi, rfl⟩
    obtain ⟨av, hav, hname⟩ := hn.nameIndex_iff.mp hi
    exact ⟨i, av, rfl, hav, hname⟩
  · rintro ⟨i, av, rfl, hav, hname⟩
    exact ⟨i, hn.nameIndex_iff.mpr ⟨av, hav, hname⟩, rfl⟩

/-- A name that an equation can use: `time`, or that of a variable. -/
def Has (model : SDModel) (name : CStr) : Prop :=
  name = cstr "time" ∨ ∃ v ∈ model.vars, v.name = some name

theorem has_iff {name : CStr} :
    model.Has name ↔ ∃ (i : Nat) (av : AVar), model.flatRoot[i]? = some av ∧
      av.v.name = some name := by
  constructor
  · rintro (rfl | ⟨v, hv, hname⟩)
    · exact ⟨0, _, flatRoot_time, rfl⟩
    · obtain ⟨k, hk⟩ := List.getElem?_of_mem hv
      exact ⟨k + 1, _, flatRoot_var hk, hname⟩
  · rintro ⟨i, av, hav, hname⟩
    rcases flatRoot_cases hav with ⟨-, rfl⟩ | ⟨k, v, -, hv, rfl⟩
    · exact .inl (Option.some.inj hname).symm
    · exact .inr ⟨v, List.mem_of_getElem? hv, hname⟩

theorem Named.find_ne_none_iff (hn : model.Named) {name : CStr} :
    model.find name ≠ none ↔ model.Has (skipDot name) := by
  rw [Option.ne_none_iff_exists', has_iff]
  constructor
  · rintro ⟨p, hp⟩
    obtain ⟨i, av, -, hav, hname⟩ := hn.find_iff.mp hp
    exact ⟨i, av, hav, hname⟩
  · rintro ⟨i, av, hav, hname⟩
    exact ⟨[i], hn.find_iff.mpr ⟨i, av, rfl, hav, hname⟩⟩

end SDModel

/-! ### What compilation leaves -/

theorem resolveAll_forall₂ {scope : Scope} {names : List CStr} {ps : List Path}
    (h : resolveAll scope names = .ok ps) :
    List.Forall₂ (fun name p => scope.find name = some p) names ps := by
  induction names generalizing ps with
  | nil =>
    obtain rfl := Except.ok.inj h
    exact .nil
  | cons name names ih =>
    simp only [resolveAll, bind, Except.bind] at h
    split at h
    · simp at h
    · next rel hrel =>
      cases rel with
      | none => simp at h
      | some rel =>
        simp only at h
        split at h
        · simp at h
        · next rest hrest =>
          obtain rfl := Except.ok.inj h
          exact .cons (by simp [Scope.find, hrel]) (ih hrest)

/-- What compiling a variable of the model has left. -/
theorem compiled_flat {model : SDModel} (hn : model.Named) {st : Store}
    (hc : ∀ p, Compiled model.flatRoot p (st p)) {k : Nat} {v : Var}
    (hv : model.vars[k]? = some v) :
    v.type ≠ .ref ∧ v.eqn ≠ none ∧ v.tree.isNull = false ∧ v.tree.Everywhere Node.Present ∧
      (st [k + 1]).node = v.tree.link model.find ∧
      (st [k + 1]).directDeps = (st [k + 1]).node.idents ∧
      resolveAll (scopeAt model.flatRoot []) v.inflows = .ok (st [k + 1]).inflows ∧
      resolveAll (scopeAt model.flatRoot []) v.outflows = .ok (st [k + 1]).outflows := by
  have hmem := List.mem_of_getElem? hv
  have hc := hc [k + 1]
  simp only [Compiled, SDModel.avarAt_flatRoot, SDModel.flatRoot_var hv] at hc
  generalize st [k + 1] = d at hc
  cases hc with
  | ref _ hparent => simp [scopeAt] at hparent
  | time _ _ hname => exact absurd hname (hn.time v hmem)
  | equation htype _ hnull hpresent hin hout =>
    refine ⟨htype, fun he => ?_, hnull, hpresent, rfl, rfl, hin, hout⟩
    simp [Var.tree, he, Node.isNull] at hnull

end Libsd

/-
  Libsd/DeclOrder.lean
  ====================
  **In a model without modules the order of declaration does not matter.**

  Two models with the same variables are compared by name.  Rows that give the same
  values to the same names stay so through every pass (`Reordered.flowsOf`,
  `Reordered.stocksOf`), hence through a whole run (`permuted_rows`), although the
  columns and the order of calculation differ.
-/
import Libsd.Euler
import Libsd.FlatBuild
import Libsd.NamedResults

namespace Libsd

/-- Simulations of two models with the same variables, in whatever order. -/
structure Reordered (model model' : SDModel) (s s' : SDSim) : Prop where
  left : FlatOf model s
  right : FlatOf model' s'
  vars : ∀ v, v ∈ model.vars ↔ v ∈ model'.vars
  env : s'.env = s.env
  simSpecs : s'.simSpecs = s.simSpecs
  spec : s'.spec = s.spec

/-- The rows give the same values to the same names. -/
def SameRow (s s' : SDSim) (row row' : Row) : Prop := ∃ σ, s.Agrees row σ ∧ s'.Agrees row' σ

theorem SDModel.has_congr {model model' : SDModel} (h : ∀ v, v ∈ model.vars ↔ v ∈ model'.vars)
    {name : CStr} : model.Has name ↔ model'.Has name := by
  simp only [SDModel.Has, h]

namespace Reordered

variable {model model' : SDModel} {s s' : SDSim} (h : Reordered model model' s s')
include h

theorem symm : Reordered model' model s' s :=
  ⟨h.right, h.left, fun v => (h.vars v).symm, h.env.symm, h.simSpecs.symm, h.spec.symm⟩

/-- A variable of one model is a variable of the other. -/
theorem var_right {k : Nat} {v : Var} (hv : model.vars[k]? = some v) :
    ∃ k' : Nat, model'.vars[k']? = some v :=
  List.getElem?_of_mem ((h.vars v).mp (List.mem_of_getElem? hv))

theorem mem_flowLeaves {k k' : Nat} {v : Var} (hv : model.vars[k]? = some v)
    (hv' : model'.vars[k']? = some v) : [k + 1] ∈ s.flowLeaves ↔ [k' + 1] ∈ s'.flowLeaves := by
  rw [h.left.mem_flowLeaves_iff hv, h.right.mem_flowLeaves_iff hv']

/-! ### A variable has the same value in rows that are the same -/

section
variable {row row' : Row} {σ : CStr → ℚ} (hσ : s.Agrees row σ) (hσ' : s'.Agrees row' σ)
include hσ hσ'

theorem read_find (name : CStr) : (model.find name).map (fun p => row (s.identOffset p)) =
    (model'.find name).map fun p => row' (s'.identOffset p) := by
  have hhas : model.find name ≠ none ↔ model'.find name ≠ none := by
    rw [h.left.named.find_ne_none_iff, h.right.named.find_ne_none_iff, SDModel.has_congr h.vars]
  cases hp : model.find name with
  | none =>
    have hp' : model'.find name = none := by
      by_contra hne
      exact hhas.mpr hne hp
    rw [hp']
    rfl
  | some p =>
    obtain ⟨p', hp'⟩ := Option.ne_none_iff_exists'.mp (hhas.mp (by simp [hp]))
    rw [hp', Option.map_some, Option.map_some, h.left.read_find hσ hp, h.right.read_find hσ' hp']

variable {k k' : Nat} {v : Var} (hv : model.vars[k]? = some v) (hv' : model'.vars[k']? = some v)
include hv hv'

theorem eval_eq : s.eval row (s.store [k + 1]).node = s'.eval row' (s'.store [k' + 1]).node := by
  obtain ⟨-, -, -, -, hnode, -⟩ := h.left.compiled hv
  obtain ⟨-, -, -, -, hnode', -⟩ := h.right.compiled hv'
  rw [SDSim.eval, SDSim.eval, hnode, hnode', h.env, h.spec, h.left.agrees_time hσ,
    h.right.agrees_time hσ']
  exact svisit_link_congr _ _ _ (h.read_find hσ hσ') _

theorem calcValue_eq : s.calcValue row [k + 1] = s'.calcValue row' [k' + 1] := by
  have hgf : s.gfAt [k + 1] = v.gf := by simp [SDSim.gfAt, h.left.avarAt_var hv, AVar.v]
  have hgf' : s'.gfAt [k' + 1] = v.gf := by simp [SDSim.gfAt, h.right.avarAt_var hv', AVar.v]
  simp only [SDSim.calcValue, h.eval_eq hσ hσ' hv hv', hgf, hgf']

theorem col_eq : row (s.col [k + 1]) = row' (s'.col [k' + 1]) := by
  obtain ⟨name, hname⟩ := Option.ne_none_iff_exists'.mp
    (h.left.named.name v (List.mem_of_getElem? hv))
  rw [h.left.agrees_var hσ hv hname, h.right.agrees_var hσ' hv' hname]

theorem netFlow_eq : s.netFlow row [k + 1] = s'.netFlow row' [k' + 1] := by
  obtain ⟨-, -, -, -, -, -, hin, hout⟩ := h.left.compiled hv
  obtain ⟨-, -, -, -, -, -, hin', hout'⟩ := h.right.compiled hv'
  rw [SDSim.netFlow, SDSim.netFlow, h.left.foldl_read hσ (fun x y => x + y) hin,
    h.left.foldl_read hσ (fun x y => x - y) hout, h.right.foldl_read hσ' (fun x y => x + y) hin',
    h.right.foldl_read hσ' (fun x y => x - y) hout']

theorem stockValue_eq : s.stockValue row [k + 1] = s'.stockValue row' [k' + 1] := by
  have htype : s.typeAt [k + 1] = some v.type := by
    simp [SDSim.typeAt, h.left.avarAt_var hv, AVar.v]
  have htype' : s'.typeAt [k' + 1] = some v.type := by
    simp [SDSim.typeAt, h.right.avarAt_var hv', AVar.v]
  rw [SDSim.stockValue, SDSim.stockValue, htype, htype', h.eval_eq hσ hσ' hv hv',
    h.netFlow_eq hσ hσ' hv hv', h.spec]
  have hcol := h.col_eq hσ hσ' hv hv'
  cases v.type <;> simp only [hcol]

end

/-! ### A pass takes such rows to such rows -/

/-- Rows with the same time, and the same value for each variable. -/
theorem sameRow_of {row row' : Row} (htime : row TIME = row' TIME)
    (hvars : ∀ k k' v, model.vars[k]? = some v → model'.vars[k']? = some v →
      row (s.col [k + 1]) = row' (s'.col [k' + 1])) : SameRow s s' row row' := by
  obtain ⟨σ, hσ⟩ := h.left.exists_agrees row
  refine ⟨σ, hσ, h.right.agrees_of ?_ fun k' v name hv' hname => ?_⟩
  · rw [← htime, h.left.agrees_time hσ]
  · obtain ⟨k, hv⟩ := h.symm.var_right hv'
    rw [← hvars k k' v hv hv', h.left.agrees_var hσ hv hname]

theorem flowsOf {row row' r : Row} (hrow : SameRow s s' row row') (hrun : s.flowsOf row = .ok r) :
    ∃ r', s'.flowsOf row' = .ok r' ∧ SameRow s s' r r' := by
  obtain ⟨τ, hτ, hτ'⟩ := hrow
  obtain ⟨σ, hσ⟩ := h.left.exists_agrees r
  have hpass := h.right.flowsOf_agrees row' σ
    (fun k' v name hv' hname hmem r' hr' => by
      obtain ⟨k, hv⟩ := h.symm.var_right hv'
      have hval := h.left.flowsOf_value hrun ((h.mem_flowLeaves hv hv').mpr hmem)
      rw [← h.calcValue_eq hσ hr' hv hv', hval, h.left.agrees_var hσ hv hname])
    (by
      rw [h.right.agrees_time hτ', ← h.left.agrees_time hτ, ← h.left.agrees_time hσ]
      exact (flowsOf_frame h.left.sim.built hrun (.inl rfl)).symm)
    (fun k' v name hv' hname hmem => by
      obtain ⟨k, hv⟩ := h.symm.var_right hv'
      rw [← h.col_eq hτ hτ' hv hv', ← h.left.agrees_var hσ hv hname]
      exact (h.left.flowsOf_left hrun hv (mt (h.mem_flowLeaves hv hv').mp hmem)).symm)
  obtain ⟨r', hr', hagrees⟩ := hpass
  exact ⟨r', hr', σ, hσ, hagrees⟩

theorem initialsOf {r : Row} (hrun : s.initialsOf s.startRow = .ok r) :
    ∃ r', s'.initialsOf s'.startRow = .ok r' ∧ SameRow s s' r r' := by
  obtain ⟨σ, hσ⟩ := h.left.exists_agrees r
  have hpass := h.right.initialsOf_agrees σ
    (fun k' v name hv' hname r' hr' => by
      obtain ⟨k, hv⟩ := h.symm.var_right hv'
      have hval := h.left.initialsOf_value hrun hv
      rw [← h.calcValue_eq hσ hr' hv hv', hval, h.left.agrees_var hσ hv hname])
    (by
      rw [h.simSpecs, ← h.left.agrees_time hσ, initialsOf_frame h.left.sim.built hrun (.inl rfl)]
      rfl)
  obtain ⟨r', hr', hagrees⟩ := hpass
  exact ⟨r', hr', σ, hσ, hagrees⟩

theorem stocksOf {row row' n : Row} (hrow : SameRow s s' row row')
    (hrun : s.stocksOf row (fun _ => 0) = .ok n) (time : ℚ) :
    ∃ n', s'.stocksOf row' (fun _ => 0) = .ok n' ∧
      SameRow s s' (Function.update n TIME time) (Function.update n' TIME time) := by
  obtain ⟨σ, hσ, hσ'⟩ := hrow
  have hmem : ∀ {k k' v}, model.vars[k]? = some v → model'.vars[k']? = some v →
      ([k + 1] ∈ s.stockLeaves ↔ [k' + 1] ∈ s'.stockLeaves) := fun hv hv' => by
    rw [h.left.mem_stockLeaves_iff hv, h.right.mem_stockLeaves_iff hv', h.mem_flowLeaves hv hv']
  have hval : ∀ {k k' v}, model.vars[k]? = some v → model'.vars[k']? = some v →
      [k + 1] ∈ s.stockLeaves → s'.stockValue row' [k' + 1] = .ok (n (s.col [k + 1])) :=
    fun hv hv' hk => by
      rw [← h.stockValue_eq hσ hσ' hv hv', stocksOf_value h.left.sim.built hrun hk]
  obtain ⟨n', hrun'⟩ : ∃ n', s'.stocksOf row' (fun _ => 0) = .ok n' := by
    refine Assign.run_ok (fun p hp _ => ?_) _
    obtain ⟨av, hav, -, -, -, hne⟩ := stockLeaf h.right.sim.built hp
    obtain ⟨k', v, rfl, hv', -⟩ := h.right.leaf_var hav hne
    obtain ⟨k, hv⟩ := h.symm.var_right hv'
    exact ⟨_, hval hv hv' ((hmem hv hv').mpr hp)⟩
  refine ⟨n', hrun', h.sameRow_of (by simp) fun k k' v hv hv' => ?_⟩
  rw [Function.update_of_ne (h.left.col_ne_time hv),
    Function.update_of_ne (h.right.col_ne_time hv')]
  by_cases hk : [k + 1] ∈ s.stockLeaves
  · have hval' := stocksOf_value h.right.sim.built hrun' ((hmem hv hv').mp hk)
    exact Except.ok.inj ((hval hv hv' hk).symm.trans hval')
  · rw [h.left.stocksOf_left hrun hv hk, h.right.stocksOf_left hrun' hv' (mt (hmem hv hv').mpr hk)]

/-! ### Whole runs -/

theorem fullRow {init init' : Row} (hinit : SameRow s s' init init') {j : Nat} {row : Row}
    (hrow : s.fullRow init j = .ok row) :
    ∃ row', s'.fullRow init' j = .ok row' ∧ SameRow s s' row row' := by
  have htime : ∀ j, s'.timeAt j = s.timeAt j := fun j => by simp [SDSim.timeAt, h.spec]
  induction j generalizing row with
  | zero => exact h.flowsOf hinit hrow
  | succ j ih =>
    obtain ⟨pre, hpre, hflows⟩ := fullRow_ok hrow
    obtain ⟨full, n, hfull, hn, rfl⟩ := preRow_succ_ok hpre
    obtain ⟨full', hfull', hsame⟩ := ih hfull
    obtain ⟨n', hn', hsame'⟩ := h.stocksOf hsame hn (s.timeAt (j + 1))
    obtain ⟨row', hrow', hsame''⟩ := h.flowsOf hsame' hflows
    refine ⟨row', ?_, hsame''⟩
    simp only [SDSim.fullRow, SDSim.nextRow, hfull', hn', bind, Except.bind, pure, Except.pure,
      htime, hrow']

theorem steps (hinit : SameRow s s' (s.slab 0) (s'.slab 0)) {j : Nat} (hj : Steps s j) :
    Steps s' j := by
  obtain ⟨row, next, hrow, hnext⟩ := hj
  obtain ⟨row', hrow', hsame⟩ := h.fullRow hinit hrow
  obtain ⟨next', hnext', -⟩ := h.stocksOf hsame hnext 0
  exact ⟨row', next', hrow', hnext'⟩

end Reordered

/-! ### Building and resetting -/

/-- What `sd_sim_reset` needs besides a simulation that is built. -/
theorem sdSimReset_ok {s : SDSim} (hw : WellBuilt s) (hdt : s.simSpecs.dt ≠ 0) {nsteps n : Nat}
    (hnsteps : toSize ((s.simSpecs.stop - s.simSpecs.start) / s.simSpecs.dt + 1) = .ok nsteps)
    (hn : toSize (s.simSpecs.savestep / s.simSpecs.dt + 1 / 2) = .ok n) {row : Row}
    (hrow : (s.cleared nsteps (if n > 1 then n else 1)).initialsOf s.startRow = .ok row) :
    ∃ s', sdSimReset s = .ok s' := by
  have hsame : SameSetup s (s.cleared nsteps (if n > 1 then n else 1)) :=
    ⟨rfl, rfl, rfl, rfl, rfl, rfl⟩
  have hcalc := calcInitials_eq (hsame.wellBuilt hw) s.startRow
  rw [hrow] at hcalc
  refine ⟨(s.cleared nsteps (if n > 1 then n else 1)).setRow 0 row, ?_⟩
  simp only [sdSimReset, if_neg hdt, hnsteps, hn, bind, Except.bind]
  rw [show (s.cleared nsteps (if n > 1 then n else 1)).curr = s.startRow from rfl, hcalc]
  rfl

/-- `sd_sim_new` on a model that has been built. -/
theorem sdSimNew_of_built {env : Env} {p : SDProject} {name : Option CStr} {specs : SimSpec}
    {model : SDModel} (hmodel : sdProjectGetModel p name = some (specs, model)) {s : SDSim}
    (h : BuiltFrom p model s) (henv : s.env = env) (hspecs : s.simSpecs = specs) :
    sdSimNew env p name = sdSimReset s := by
  obtain ⟨st, hst, hoff⟩ := h.store
  obtain ⟨sorted, hsorted, hlists⟩ := h.lists
  simp only [sdSimNew, hmodel, h.root, hst, hoff, hsorted, bind, Except.bind]
  exact sdSimReset_congr ⟨henv.symm, hspecs.symm, rfl, rfl, hlists.symm, rfl⟩

theorem sdSimNew_simSpecs {env : Env} {p : SDProject} {name : Option CStr} {specs : SimSpec}
    {model : SDModel} {s : SDSim} (hnew : sdSimNew env p name = .ok s)
    (hmodel : sdProjectGetModel p name = some (specs, model)) : s.simSpecs = specs := by
  obtain ⟨specs', model', s0, hmodel', hbuilt, -, hs0, hr⟩ := sdSimNew_cases hnew
  obtain ⟨-, hsame⟩ := sdSimReset_isReset hbuilt.wellBuilt hr
  obtain ⟨rfl, -⟩ := Prod.mk.inj (Option.some.inj (hmodel.symm.trans hmodel'))
  rw [hsame.simSpecs, hs0]

/-- A model with the same variables is accepted too. -/
theorem SDModel.Accepted.congr {model model' : SDModel} (h : model.Accepted)
    (hvars : ∀ v, v ∈ model.vars ↔ v ∈ model'.vars) : model'.Accepted := by
  have hhas : ∀ {name}, model.Has name ↔ model'.Has name := SDModel.has_congr hvars
  have hrefers : ∀ a b, model'.RefersTo a b → model.RefersTo a b :=
    fun a b ⟨hb, v, hv, hrest⟩ => ⟨hhas.mpr hb, v, (hvars v).mpr hv, hrest⟩
  refine ⟨fun v hv => ?_, fun name hcyc => h.acyclic name (Relation.TransGen.mono hrefers _ _ hcyc)⟩
  have hv := h.vars v ((hvars v).mpr hv)
  exact ⟨hv.parses, hv.notRef, hv.notNull, hv.present, fun n hn => hhas.mp (hv.inflows n hn),
    fun n hn => hhas.mp (hv.outflows n hn)⟩

section
variable {env : Env} {p p' : SDProject} {name : Option CStr} {specs : SimSpec}
  {model model' : SDModel}
  (hmodel : sdProjectGetModel p name = some (specs, model))
  (hmodel' : sdProjectGetModel p' name = some (specs, model')) (hflat : model.Flat)
  (hn : model.Named) (hn' : model'.Named) (hvars : ∀ v, v ∈ model.vars ↔ v ∈ model'.vars)
include hmodel hmodel' hflat hn hn' hvars

theorem sdSimNew_reordered {s s' : SDSim} (hnew : sdSimNew env p name = .ok s)
    (hnew' : sdSimNew env p' name = .ok s') : Reordered model model' s s' := by
  have hflat' : model'.Flat := fun v hv => hflat v ((hvars v).mpr hv)
  obtain ⟨hreset, henv⟩ := sdSimNew_isReset hnew
  obtain ⟨hreset', henv'⟩ := sdSimNew_isReset hnew'
  have hspecs := sdSimNew_simSpecs hnew hmodel
  have hspecs' := sdSimNew_simSpecs hnew' hmodel'
  refine ⟨sdSimNew_flatOf hnew hmodel hflat hn, sdSimNew_flatOf hnew' hmodel' hflat' hn', hvars,
    henv'.trans henv.symm, ?_, ?_⟩
  · rw [hspecs, hspecs']
  · rw [hreset.spec, hreset'.spec, hspecs, hspecs']

theorem sdSimNew_ok_of_reordered {s : SDSim} (hnew : sdSimNew env p name = .ok s) :
    ∃ s', sdSimNew env p' name = .ok s' := by
  have hflat' : model'.Flat := fun v hv => hflat v ((hvars v).mpr hv)
  obtain ⟨specs', model1, s0, hmodel1, hbuilt, henv, hspecs, hr⟩ := sdSimNew_cases hnew
  obtain ⟨hreset, hsame⟩ := sdSimReset_isReset hbuilt.wellBuilt hr
  obtain ⟨rfl, rfl⟩ := Prod.mk.inj (Option.some.inj (hmodel.symm.trans hmodel1))
  have hacc := (builtFrom_flat_iff hflat hn).mp ⟨s0, hbuilt⟩
  obtain ⟨s1, hbuilt1⟩ := (builtFrom_flat_iff (p := p') hflat' hn').mpr (hacc.congr hvars)
  -- the other simulation, with the clock of the first
  let s0' : SDSim := { s1 with env := env, simSpecs := specs }
  have hbuilt' : BuiltFrom p' model' s0' := ⟨hbuilt1.root, hbuilt1.store, hbuilt1.lists⟩
  rw [sdSimNew_of_built hmodel' hbuilt' rfl rfl]
  obtain ⟨n, hn', hevery⟩ := hreset.saveEvery
  have hsimSpecs : s.simSpecs = specs := hsame.simSpecs.trans hspecs
  have hspec : s.spec = specs := hreset.spec.trans hsimSpecs
  have hre : Reordered model model' s (s0'.cleared s.nsteps (if n > 1 then n else 1)) := by
    have hsame' : SameSetup s0' (s0'.cleared s.nsteps (if n > 1 then n else 1)) :=
      ⟨rfl, rfl, rfl, rfl, rfl, rfl⟩
    exact ⟨(hbuilt.flatOf hflat hn).of_same hsame,
      (hbuilt'.flatOf hflat' ‹_›).of_same hsame', hvars,
      (hsame.env.trans henv).symm, hsimSpecs.symm, hspec.symm⟩
  obtain ⟨row, hrow, -⟩ := hre.initialsOf hreset.initial
  have hdt := hreset.dt
  have hnsteps := hreset.nsteps
  rw [hspec] at hdt hnsteps hn'
  exact sdSimReset_ok hbuilt'.wellBuilt hdt hnsteps hn' hrow

end

/-! ### What is saved -/

section
variable {model model' : SDModel} {s s' t t' : SDSim}

theorem runToEnd_moved (h : IsReset s) (hb : s.env.bounded = false)
    (hrun : sdSimRunToEnd s = .ok t) : ∃ slab j m, t = s.moved slab j m := by
  have hwait : Between s (fun _ => True) False s := .inl (waiting_self h)
  have hcall : s.call .runToEnd = .ok t := hrun
  have hbetween := hwait.call (fun _ _ => trivial) (fun _ _ _ _ => trivial) h hb hcall
  rcases hbetween with ⟨j, ⟨slab, ht, -⟩, -⟩ | ⟨-, ⟨slab, ht, -⟩, -⟩
  · exact ⟨_, _, _, ht⟩
  · exact ⟨_, _, _, ht⟩

theorem FlatOf.resolve_eq (h : FlatOf model s) (name : CStr) :
    resolve s.root (some name) = .ok ((nameIndex s.root (skipDot name)).map fun j => [j]) := by
  rw [h.root, h.named.resolve_flat]

/-- The rows saved for a name of the model are its values. -/
theorem FlatOf.series_of_has (h : FlatOf model s) {slab : Nat → Row} {j m len : Nat}
    {σ : Nat → CStr → ℚ} (hσ : ∀ i < len, s.Agrees (slab i) (σ i)) (hlen : len ≤ s.nsaves + 1)
    {name : CStr} (hname : model.Has (skipDot name)) :
    sdSimGetSeries (s.moved slab j m) (some name) len =
      .ok ((List.range len).map fun i => σ i (skipDot name)) := by
  obtain ⟨i, av, hav, hn⟩ := SDModel.has_iff.mp hname
  have hres : resolve s.root (some name) = .ok (some [i]) := by
    rw [h.resolve_eq, h.root, h.named.nameIndex_iff.mpr ⟨av, hav, hn⟩]
    rfl
  have hread := readsColumn_of_resolve h.sim.built hres slab j m
  rw [hread.2 len, SDSim.series, show (s.moved slab j m).nsaves = s.nsaves from rfl,
    Nat.min_eq_right hlen]
  congr 1
  refine List.map_congr_left fun k hk => ?_
  exact hσ k (List.mem_range.mp hk) i av _ (h.root ▸ hav) hn

theorem FlatOf.series_of_not_has (h : FlatOf model s) {slab : Nat → Row} {j m : Nat} (len : Nat)
    {name : CStr} (hname : ¬ model.Has (skipDot name)) :
    sdSimGetSeries (s.moved slab j m) (some name) len = .error (.err .nomem) := by
  have hres : resolve s.root (some name) = .ok none := by
    have hfind := mt h.named.find_ne_none_iff.mp hname
    rw [not_not, h.named.find_eq, Option.map_eq_none_iff] at hfind
    rw [h.resolve_eq, h.root, hfind]
    rfl
  have htime : name ≠ cstr "time" := by
    rintro rfl
    exact hname (.inl (by decide +kernel))
  simp only [sdSimGetSeries, if_neg htime, SDSim.moved, hres, bind, Except.bind]

/-- A row of zeros is the same in any order. -/
theorem sameRow_zero : SameRow s s' (fun _ => 0) fun _ => 0 :=
  ⟨fun _ => 0, fun _ _ _ _ _ => rfl, fun _ _ _ _ _ => rfl⟩

variable (h : Reordered model model' s s') (hr : IsReset s) (hr' : IsReset s')
  (hb : s.env.bounded = false)
include h hr hr'

theorem Reordered.clock : s'.nsteps = s.nsteps ∧ s'.saveEvery = s.saveEvery ∧
    s'.nsaves = s.nsaves := by
  have hn := hr'.nsteps
  rw [h.spec] at hn
  have hsteps : s'.nsteps = s.nsteps := Except.ok.inj (hn.symm.trans hr.nsteps)
  obtain ⟨n, hn, hevery⟩ := hr.saveEvery
  obtain ⟨n', hn', hevery'⟩ := hr'.saveEvery
  rw [h.spec] at hn'
  obtain rfl := Except.ok.inj (hn'.symm.trans hn)
  have he : s'.saveEvery = s.saveEvery := hevery'.trans hevery.symm
  exact ⟨hsteps, he, by rw [hr'.nsaves, hr.nsaves, he, hsteps]⟩

theorem Reordered.initial : SameRow s s' (s.slab 0) (s'.slab 0) := by
  obtain ⟨row, hrow, hsame⟩ := h.initialsOf hr.initial
  rwa [Except.ok.inj (hrow.symm.trans hr'.initial)] at hsame

omit hr hr' in
theorem Reordered.forward_iff : Forward s ↔ Forward s' := by
  rw [Forward, Forward, h.spec]

include hb

theorem Reordered.runToEnd_ok (hrun : sdSimRunToEnd s = .ok t) :
    ∃ t', sdSimRunToEnd s' = .ok t' := by
  have hb' : s'.env.bounded = false := by rw [h.env]; exact hb
  by_cases hf : Forward s
  · have hf' := (h.forward_iff).mp hf
    refine (runToEnd_ok_iff hr' hb' hf').mpr fun i hi => ?_
    rw [(h.clock hr hr').1] at hi
    exact h.steps (h.initial hr hr') ((runToEnd_ok_iff hr hb hf).mp ⟨t, hrun⟩ i hi)
  · exact ⟨s', runToEnd_stay hr' hb' (mt (h.forward_iff).mpr hf)⟩

theorem Reordered.sameRow (hrun : sdSimRunToEnd s = .ok t) (hrun' : sdSimRunToEnd s' = .ok t')
    {i : Nat} (hi : i < s.nsaves) : SameRow s s' (t.slab i) (t'.slab i) := by
  have hb' : s'.env.bounded = false := by rw [h.env]; exact hb
  obtain ⟨-, hevery, hsaves⟩ := h.clock hr hr'
  by_cases hf : Forward s
  · have hrow := runToEnd_row hr hb hf hrun hi
    have hrow' := runToEnd_row hr' hb' ((h.forward_iff).mp hf) hrun' (hsaves ▸ hi)
    rw [hevery] at hrow'
    obtain ⟨row, hfull, hsame⟩ := h.fullRow (h.initial hr hr') hrow
    rwa [Except.ok.inj (hfull.symm.trans hrow')] at hsame
  · -- no step is taken, and the rows are as they were reset
    obtain rfl := Except.ok.inj ((runToEnd_stay hr hb hf).symm.trans hrun)
    obtain rfl := Except.ok.inj
      ((runToEnd_stay hr' hb' (mt (h.forward_iff).mpr hf)).symm.trans hrun')
    cases i with
    | zero => exact h.initial hr hr'
    | succ i =>
      rw [hr.rest (i + 1) (by omega), hr'.rest (i + 1) (by omega)]
      exact sameRow_zero

theorem Reordered.series (hrun : sdSimRunToEnd s = .ok t) (hrun' : sdSimRunToEnd s' = .ok t')
    (name : CStr) :
    sdSimGetSeries t' (some name) s.nsaves = sdSimGetSeries t (some name) s.nsaves := by
  have hb' : s'.env.bounded = false := by rw [h.env]; exact hb
  have hsame : ∀ i, ∃ σ, i < s.nsaves → s.Agrees (t.slab i) σ ∧ s'.Agrees (t'.slab i) σ :=
    fun i => by
    by_cases hi : i < s.nsaves
    · obtain ⟨σ, hσ⟩ := h.sameRow hr hr' hb hrun hrun' hi
      exact ⟨σ, fun _ => hσ⟩
    · exact ⟨fun _ => 0, fun hi' => absurd hi' hi⟩
  choose σ hσ using hsame
  obtain ⟨slab, j, m, rfl⟩ := runToEnd_moved hr hb hrun
  obtain ⟨slab', j', m', rfl⟩ := runToEnd_moved hr' hb' hrun'
  have hsaves := (h.clock hr hr').2.2
  by_cases hname : model.Has (skipDot name)
  · have hname' := (SDModel.has_congr h.vars).mp hname
    have hl : ∀ i < s.nsaves, s.Agrees (slab i) (σ i) := fun i hi => (hσ i hi).1
    have hr : ∀ i < s.nsaves, s'.Agrees (slab' i) (σ i) := fun i hi => (hσ i hi).2
    rw [h.left.series_of_has hl (by omega) hname, h.right.series_of_has hr (by omega) hname']
  · rw [h.left.series_of_not_has _ hname,
      h.right.series_of_not_has _ (mt (SDModel.has_congr h.vars).mpr hname)]

end

/-- Two models without modules that declare the same variables in different orders: both
    are accepted or neither is, and runs to the end save the same values for each name. -/
theorem permuted_rows {env : Env} {p p' : SDProject} {name : Option CStr} {specs : SimSpec}
    {model model' : SDModel} (hmodel : sdProjectGetModel p name = some (specs, model))
    (hmodel' : sdProjectGetModel p' name = some (specs, model')) (hflat : model.Flat)
    (hn : model.Named) (hperm : model'.vars.Perm model.vars) :
    ((∃ s, sdSimNew env p name = .ok s) ↔ ∃ s', sdSimNew env p' name = .ok s') ∧
    ∀ s s', sdSimNew env p name = .ok s → sdSimNew env p' name = .ok s' →
      s'.nsaves = s.nsaves ∧
      (env.bounded = false →
        ((∃ t, sdSimRunToEnd s = .ok t) ↔ ∃ t', sdSimRunToEnd s' = .ok t')) ∧
      ∀ t t', sdSimRunToEnd s = .ok t → sdSimRunToEnd s' = .ok t' → ∀ n,
        sdSimGetSeries t' (some n) s.nsaves = sdSimGetSeries t (some n) s.nsaves := by
  have hvars : ∀ v, v ∈ model.vars ↔ v ∈ model'.vars := fun v => hperm.symm.mem_iff
  have hflat' : model'.Flat := fun v hv => hflat v ((hvars v).mpr hv)
  have hn' : model'.Named := ⟨fun v hv => hn.name v ((hvars v).mpr hv),
    (hperm.map _).nodup_iff.mpr hn.nodup, fun v hv => hn.time v ((hvars v).mpr hv)⟩
  have hvars' : ∀ v, v ∈ model'.vars ↔ v ∈ model.vars := fun v => (hvars v).symm
  refine ⟨⟨fun ⟨s, hs⟩ => sdSimNew_ok_of_reordered hmodel hmodel' hflat hn hn' hvars hs,
    fun ⟨s, hs⟩ => sdSimNew_ok_of_reordered hmodel' hmodel hflat' hn' hn hvars' hs⟩,
    fun s s' hnew hnew' => ?_⟩
  have h := sdSimNew_reordered hmodel hmodel' hflat hn hn' hvars hnew hnew'
  obtain ⟨hr, henv⟩ := sdSimNew_isReset hnew
  obtain ⟨hr', henv'⟩ := sdSimNew_isReset hnew'
  refine ⟨(h.clock hr hr').2.2, fun hb => ⟨fun ⟨t, ht⟩ => ?_, fun ⟨t, ht⟩ => ?_⟩,
    fun t t' hrun hrun' n => ?_⟩
  · exact h.runToEnd_ok hr hr' (henv ▸ hb) ht
  · exact h.symm.runToEnd_ok hr' hr (henv' ▸ hb) ht
  · -- what a slab without bounds holds is what the allocated rows hold
    have hnewU := unbounded_new hnew
    have hnewU' := unbounded_new hnew'
    have hU := sdSimNew_reordered hmodel hmodel' hflat hn hn' hvars hnewU hnewU'
    exact hU.series (sdSimNew_isReset hnewU).1 (sdSimNew_isReset hnewU').1 rfl
      (unbounded_call (c := .runToEnd) hrun) (unbounded_call (c := .runToEnd) hrun') n

/-- The model of `growth` with its variables the other way round. -/
def growthReversed (simSpecs : SimSpec) : SDProject :=
  .ofModels simSpecs [{ growthModel with vars := growthModel.vars.reverse }]

theorem permuted_rows_growth :
    ((∃ s, sdSimNew (.plain true) (growth ⟨0, 4, 1, 2⟩) none = .ok s) ↔
      ∃ s', sdSimNew (.plain true) (growthReversed ⟨0, 4, 1, 2⟩) none = .ok s') ∧
    ∀ s s', sdSimNew (.plain true) (growth ⟨0, 4, 1, 2⟩) none = .ok s →
      sdSimNew (.plain true) (growthReversed ⟨0, 4, 1, 2⟩) none = .ok s' →
      s'.nsaves = s.nsaves ∧
      ((Env.plain true).bounded = false →
        ((∃ t, sdSimRunToEnd s = .ok t) ↔ ∃ t', sdSimRunToEnd s' = .ok t')) ∧
      ∀ t t', sdSimRunToEnd s = .ok t → sdSimRunToEnd s' = .ok t' → ∀ n,
        sdSimGetSeries t' (some n) s.nsaves = sdSimGetSeries t (some n) s.nsaves :=
  permuted_rows rfl rfl growthModel_closed.flat growthModel_closed.named
    (List.reverse_perm growthModel.vars)

end Libsd

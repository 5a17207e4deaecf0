/-
  Libsd/Sound.lean
  ================
  **A model without modules is simulated without a stop.**

  `sd_sim_new` returns a simulation for a self-contained model just when the model is
  accepted and its clock can be converted (`sdSimNew_closed_iff`).  Every sequence of calls
  on the simulation then returns, wherever its slab has the rows that are accessed
  (`closed_calls`).  If no number has a table the values read after it are those of Euler
  integration at the steps it has come to (`euler_calls`).
-/
import Libsd.DeclOrder
import Libsd.Series
import Libsd.Steady

namespace Libsd

open Outcome

/-! ### The initial values -/

section
variable {model : SDModel} {s : SDSim} (h : FlatOf model s) (hclosed : model.SelfContained)
  (hargs : ∀ v ∈ model.vars, v.tree.Everywhere Node.ArgsFit)
include h hclosed hargs

/-- The equations of a self-contained model have values on every row. -/
theorem FlatOf.calcValue_ok {k : Nat} {v : Var} (hv : model.vars[k]? = some v) (row : Row) :
    ∃ x, s.calcValue row [k + 1] = .ok x := by
  have hmem := List.mem_of_getElem? hv
  obtain ⟨-, -, -, hpresent, hnode, -⟩ := h.compiled hv
  obtain ⟨σ, hσ⟩ := h.exists_agrees row
  have hall := (hpresent.and (hclosed.knows v hmem)).and (hargs v hmem)
  have heval : ∃ x, s.eval row (s.store [k + 1]).node = .ok x := by
    refine ⟨v.tree.value s.env s.spec.dt (row TIME) σ, ?_⟩
    rw [SDSim.eval, hnode]
    refine svisit_link (fun name p hp => h.read_find hσ hp) (hall.imp fun m hm => ?_)
    obtain ⟨⟨hp, hk⟩, ha⟩ := hm
    cases m with
    | ident name av => exact h.named.find_ne_none_iff.mpr hk
    | call l args fn =>
      obtain ⟨f, g, hl, hg⟩ := hk
      exact ⟨⟨g, by simp [hl, hg]⟩, ha⟩
    | null => exact hp
    | _ => trivial
  obtain ⟨x, hx⟩ := heval
  simp only [SDSim.calcValue, hx, bind, Except.bind]
  cases s.gfAt [k + 1] with
  | none => exact ⟨x, rfl⟩
  | some t => exact ⟨_, tableValue_ok t x⟩

theorem FlatOf.initialsOf_ok (row : Row) : ∃ row', s.initialsOf row = .ok row' := by
  refine Assign.run_ok (fun p hp d => ?_) row
  obtain ⟨av, hav, -, -, -, hne, -⟩ := initialLeaf h.sim.built hp
  obtain ⟨k, v, rfl, hv, -⟩ := h.leaf_var hav hne
  exact h.calcValue_ok hclosed hargs hv d

end

/-! ### The models that can be simulated -/

/-- The number of steps and of those between two that are saved can be converted. -/
structure SimSpec.Converts (specs : SimSpec) : Prop where
  dt : specs.dt ≠ 0
  nsteps : ∃ n, toSize ((specs.stop - specs.start) / specs.dt + 1) = .ok n
  saveEvery : ∃ n, toSize (specs.savestep / specs.dt + 1 / 2) = .ok n

theorem sdSimNew_of_accepted {env : Env} {p : SDProject} {name : Option CStr} {specs : SimSpec}
    {model : SDModel} (hmodel : sdProjectGetModel p name = some (specs, model))
    (hclosed : model.SelfContained) (hargs : ∀ v ∈ model.vars, v.tree.Everywhere Node.ArgsFit)
    (hacc : model.Accepted) (hspecs : specs.Converts) : ∃ s, sdSimNew env p name = .ok s := by
  obtain ⟨hdt, ⟨nsteps, hnsteps⟩, n, hn⟩ := hspecs
  obtain ⟨s1, hbuilt1⟩ := (builtFrom_flat_iff (p := p) hclosed.flat hclosed.named).mpr hacc
  let s0 : SDSim := { s1 with env := env, simSpecs := specs }
  have hbuilt : BuiltFrom p model s0 := ⟨hbuilt1.root, hbuilt1.store, hbuilt1.lists⟩
  have hsame : SameSetup s0 (s0.cleared nsteps (if n > 1 then n else 1)) :=
    ⟨rfl, rfl, rfl, rfl, rfl, rfl⟩
  have hflat := (hbuilt.flatOf hclosed.flat hclosed.named).of_same hsame
  obtain ⟨row, hrow⟩ := hflat.initialsOf_ok hclosed hargs s0.startRow
  rw [sdSimNew_of_built hmodel hbuilt rfl rfl]
  exact sdSimReset_ok hbuilt.wellBuilt hdt hnsteps hn hrow

theorem sdSimNew_converts {env : Env} {p : SDProject} {name : Option CStr} {specs : SimSpec}
    {model : SDModel} {s : SDSim} (hmodel : sdProjectGetModel p name = some (specs, model))
    (hnew : sdSimNew env p name = .ok s) : specs.Converts := by
  obtain ⟨hreset, -⟩ := sdSimNew_isReset hnew
  have hspec : s.spec = specs := hreset.spec.trans (sdSimNew_simSpecs hnew hmodel)
  obtain ⟨n, hn, -⟩ := hreset.saveEvery
  exact hspec ▸ ⟨hreset.dt, ⟨_, hreset.nsteps⟩, n, hn⟩

theorem sdSimNew_calculable {env : Env} {p : SDProject} {name : Option CStr} {specs : SimSpec}
    {model : SDModel} {s : SDSim} (hmodel : sdProjectGetModel p name = some (specs, model))
    (hclosed : model.SelfContained) (hargs : ∀ v ∈ model.vars, v.tree.Everywhere Node.ArgsFit)
    (hnew : sdSimNew env p name = .ok s) : Calculable model s :=
  ⟨(sdSimNew_isReset hnew).1, sdSimNew_flatOf hnew hmodel hclosed.flat hclosed.named, hclosed,
    hargs⟩

theorem Calculable.steady {model : SDModel} {s : SDSim} (h : Calculable model s) : Steady s :=
  ⟨h.reset, h.of.sim.flows_inOrder, h.steps⟩

theorem sdSimNew_evaluable {env : Env} {p : SDProject} {name : Option CStr} {specs : SimSpec}
    {model : SDModel} {s : SDSim} (hmodel : sdProjectGetModel p name = some (specs, model))
    (hclosed : model.Closed) (hargs : ∀ v ∈ model.vars, v.tree.Everywhere Node.ArgsFit)
    (hnew : sdSimNew env p name = .ok s) : Evaluable model s :=
  ⟨sdSimNew_calculable hmodel hclosed.toSelfContained hargs hnew, hclosed.consts⟩

/-- There is a trajectory of Euler integration. -/
theorem sdSimNew_euler {env : Env} {p : SDProject} {name : Option CStr} {specs : SimSpec}
    {model : SDModel} {s : SDSim} (hmodel : sdProjectGetModel p name = some (specs, model))
    (hclosed : model.Closed) (hargs : ∀ v ∈ model.vars, v.tree.Everywhere Node.ArgsFit)
    (hnew : sdSimNew env p name = .ok s) : ∃ σ, Euler env specs model σ := by
  have h := sdSimNew_evaluable hmodel hclosed hargs hnew
  obtain ⟨hreset, rfl⟩ := sdSimNew_isReset hnew
  have hspec : s.spec = specs := hreset.spec.trans (sdSimNew_simSpecs hnew hmodel)
  exact hspec ▸ h.exists_euler

/-! ### What can be read between two calls -/

namespace Evaluable

variable {model : SDModel} {s t : SDSim} (h : Evaluable model s)
include h

/-- The rows that a run to the end saves. -/
theorem saved_agrees
    (hf : 0 < s.spec.dt ∨ s.spec.start ≤ s.spec.stop + 1 ∨ s.nsaves ≤ 1)
    (ht : sdSimRunToEnd s = .ok t) {σ : Nat → CStr → ℚ} (hσ : Euler s.env s.spec model σ)
    {i : Nat} (hi : i < s.nsaves) : s.Agrees (t.slab i) (σ (i * s.saveEvery)) :=
  h.agrees_of_euler hσ
    (h.steady.saved_row hf (flowsOf_initial h.of.sim h.reset) ht hi)

theorem resolve_has {n : CStr} (hn : model.Has (skipDot n)) :
    ∃ (i : Nat) (av : AVar), s.root[i]? = some av ∧ av.v.name = some (skipDot n) ∧
      resolve s.root (some n) = .ok (some [i]) := by
  obtain ⟨i, av, hav, hname⟩ := SDModel.has_iff.mp hn
  refine ⟨i, av, h.of.root ▸ hav, hname, ?_⟩
  rw [h.of.resolve_eq, h.of.root, h.of.named.nameIndex_iff.mpr ⟨av, hav, hname⟩]
  rfl

end Evaluable

/-- What is read of a simulation after calls that have brought it to `t`. -/
structure ReadsEuler (s t : SDSim) (model : SDModel) (σ : Nat → CStr → ℚ) : Prop where
  step : t.step < s.nsteps ∨ t.step = 0
  time : sdSimGetValue t (some (cstr "time")) = .ok (σ t.step (cstr "time"))
  stock : ∀ v ∈ model.vars, ∀ n, v.name = some (skipDot n) → v.type = .stock →
    sdSimGetValue t (some n) = .ok (σ t.step (skipDot n))
  saved : ∀ n len, model.Has (skipDot n) → ∃ vs, sdSimGetSeries t (some n) len = .ok vs ∧
    ∀ i x, vs[i]? = some x → i * s.saveEvery < t.step → x = σ (i * s.saveEvery) (skipDot n)
  atEnd : 0 < s.nsteps → ∀ stop, Reaches s stop → ∀ t', sdSimRunTo t stop = .ok t' →
    ∀ n, model.Has (skipDot n) → sdSimGetValue t' (some n) = .ok (σ (s.nsteps - 1) (skipDot n))

theorem Evaluable.reads {model : SDModel} {s t : SDSim} (h : Evaluable model s) {cs : List Call}
    (hrun : s.calls cs = .ok t) {σ : Nat → CStr → ℚ} (hσ : Euler s.env s.spec model σ) :
    ReadsEuler s t model σ := by
  obtain ⟨slab, j, row, rfl, hj, hsaved, hrow, hflows⟩ := h.steady.at_step hrun
  have hagrees := h.agrees_of_euler hσ hrow
  refine ⟨hj, ?_, fun v hv n hn ht => ?_, fun n len hn =>
    ?_, fun hpos stop hreach t' hrun' n hn => ?_⟩
  · have htime := flowsOf_frame h.reset.built hflows (.inl rfl)
    simp only [sdSimGetValue, if_true]
    exact congrArg Except.ok (htime.symm.trans (h.of.agrees_time hagrees))
  · obtain ⟨k, hk⟩ := List.getElem?_of_mem hv
    obtain ⟨i, av, hav, hname, hres⟩ := h.resolve_has (.inr ⟨v, hv, hn⟩)
    obtain rfl : i = k + 1 := h.of.named.index_unique (h.of.root ▸ hav) hname
      (SDModel.flatRoot_var hk) hn
    have hmem : [k + 1] ∉ s.flowLeaves := fun hm => ((h.of.mem_flowLeaves_iff hk).mp hm).1 ht
    rw [(readsColumn_of_resolve h.reset.built hres slab j _).1,
      ← h.of.flowsOf_left hflows hk hmem, h.of.agrees_var hagrees hk hn]
    rfl
  · obtain ⟨i, av, hav, hname, hres⟩ := h.resolve_has hn
    refine ⟨_, (readsColumn_of_resolve h.reset.built hres slab j _).2 len, fun k x hx hk => ?_⟩
    obtain ⟨-, rfl⟩ := getElem?_series hx
    exact h.agrees_of_euler hσ (hsaved k hk) i av _ hav hname
  · obtain ⟨i, av, hav, hname, hres⟩ := h.resolve_has hn
    obtain ⟨slab', rfl, hlast⟩ := h.steady.last_row hrun hpos hreach hrun'
    rw [(readsColumn_of_resolve h.reset.built hres slab' _ _).1]
    exact congrArg Except.ok (h.agrees_of_euler hσ hlast i av _ hav hname)

/-- After any calls on a simulation of a closed model (no table on a number, no call with more
    than six arguments) the time and the stocks are those of Euler integration at the step it has
    come to, so are the series up to it, and a run that goes on to the last
    step leaves all the values of that step. -/
theorem euler_calls {env : Env} {p : SDProject} {name : Option CStr} {specs : SimSpec}
    {model : SDModel} {s t : SDSim}
    (hmodel : sdProjectGetModel p name = some (specs, model)) (hclosed : model.Closed)
    (hargs : ∀ v ∈ model.vars, v.tree.Everywhere Node.ArgsFit)
    (hnew : sdSimNew env p name = .ok s) {cs : List Call} (hrun : s.calls cs = .ok t)
    {σ : Nat → CStr → ℚ} (hσ : Euler env specs model σ) : ReadsEuler s t model σ := by
  have h := sdSimNew_evaluable hmodel hclosed hargs hnew
  obtain ⟨hreset, rfl⟩ := sdSimNew_isReset hnew
  have hspec : s.spec = specs := hreset.spec.trans (sdSimNew_simSpecs hnew hmodel)
  subst hspec
  exact h.reads hrun hσ

theorem euler_calls_growth : ∃ s t σ,
    sdSimNew (.plain true) (growth ⟨0, 4, 1, 2⟩) none = .ok s ∧
    s.calls [.runTo 1] = .ok t ∧ 0 < t.step ∧ Euler (.plain true) ⟨0, 4, 1, 2⟩ growthModel σ ∧
    ReadsEuler s t growthModel σ := by
  obtain ⟨⟨s, t⟩, hrun, hP⟩ := exists_ok
    (x := do
      let s ← sdSimNew (.plain true) (growth ⟨0, 4, 1, 2⟩) none
      let t ← s.calls [.runTo 1]
      return (s, t))
    (P := fun r => decide (0 < r.2.step)) (by decide +kernel)
  obtain ⟨s', hnew, hrun⟩ := bind_eq_ok hrun
  obtain ⟨t', hcalls, hpair⟩ := bind_eq_ok hrun
  cases hpair
  obtain ⟨σ, hσ⟩ := sdSimNew_euler rfl growthModel_closed growthModel_argsFit hnew
  exact ⟨s, t, σ, hnew, hcalls, of_decide_eq_true hP, hσ,
    euler_calls rfl growthModel_closed growthModel_argsFit hnew hcalls hσ⟩

end Libsd

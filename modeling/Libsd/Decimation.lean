/-
  Libsd/Decimation.lean
  =====================
  **Keeping every `k`-th row.**

  Two projects that differ in the savestep alone give simulations with the same
  trajectory (`SameDynamics.fullRow_eq`), of which one keeps each row and the other
  each `save_every`-th (`decimated_rows`).
-/
import Libsd.RunToEnd

namespace Libsd

/-! ### Simulations with the same trajectory -/

/-- The two simulations calculate the same, but may keep different rows. -/
structure SameDynamics (s s' : SDSim) : Prop where
  env : s'.env = s.env
  root : s'.root = s.root
  store : s'.store = s.store
  lists : s'.lists = s.lists
  nvars : s'.nvars = s.nvars
  start : s'.spec.start = s.spec.start
  stop : s'.spec.stop = s.spec.stop
  dt : s'.spec.dt = s.spec.dt

namespace SameDynamics

variable {s s' : SDSim} (h : SameDynamics s s')
include h

theorem calcValue_eq (row : Row) (p : Path) : s'.calcValue row p = s.calcValue row p := by
  simp only [SDSim.calcValue, SDSim.eval, SDSim.identOffset, SDSim.gfAt, h.env,
    h.store, h.dt, h.root]

theorem stockValue_eq (row : Row) (p : Path) : s'.stockValue row p = s.stockValue row p := by
  simp only [SDSim.stockValue, SDSim.typeAt, SDSim.col, SDSim.netFlow, SDSim.eval,
    SDSim.identOffset, h.env, h.store, h.dt, h.root]

theorem flowsOf_eq (row : Row) : s'.flowsOf row = s.flowsOf row := by
  have hcol : s'.col = s.col := funext fun p => by simp only [SDSim.col, h.store]
  have hleaves : s'.flowLeaves = s.flowLeaves := by
    have hhollow : s'.hollow = s.hollow := funext fun p => by simp only [SDSim.hollow, h.store]
    simp only [SDSim.flowLeaves, SDSim.calcFuel, hhollow, h.lists, h.root]
  simp only [SDSim.flowsOf, hcol, hleaves, h.calcValue_eq]

theorem initialsOf_eq (row : Row) : s'.initialsOf row = s.initialsOf row := by
  have hcol : s'.col = s.col := funext fun p => by simp only [SDSim.col, h.store]
  have hleaves : s'.initialLeaves = s.initialLeaves := by
    have hhollow : s'.hollow = s.hollow := funext fun p => by simp only [SDSim.hollow, h.store]
    simp only [SDSim.initialLeaves, SDSim.calcFuel, hhollow, h.lists, h.root]
  simp only [SDSim.initialsOf, hcol, hleaves, h.calcValue_eq]

theorem stocksOf_eq (row next : Row) : s'.stocksOf row next = s.stocksOf row next := by
  have hcol : s'.col = s.col := funext fun p => by simp only [SDSim.col, h.store]
  have hleaves : s'.stockLeaves = s.stockLeaves := by
    have hsub : s'.isSub = s.isSub := funext fun p => by
      simp only [SDSim.isSub, SDSim.typeAt, h.root]
    simp only [SDSim.stockLeaves, SDSim.calcFuel, hsub, h.lists, h.root]
  simp only [SDSim.stocksOf, hcol, hleaves, h.stockValue_eq]

theorem timeAt_eq (j : Nat) : s'.timeAt j = s.timeAt j := by
  simp only [SDSim.timeAt, h.start, h.dt]

theorem fullRow_eq (init : Row) (j : Nat) : s'.fullRow init j = s.fullRow init j := by
  induction j with
  | zero => exact h.flowsOf_eq init
  | succ j ih =>
    simp only [SDSim.fullRow, SDSim.nextRow, ih, h.stocksOf_eq, h.timeAt_eq, h.flowsOf_eq]

theorem initial_eq (hr : IsReset s) (hr' : IsReset s') : s'.slab 0 = s.slab 0 := by
  have hstart : s'.startRow = s.startRow := funext fun c => by
    simp only [SDSim.startRow, ← hr.spec, ← hr'.spec, h.start]
  have hinit := hr'.initial
  rw [h.initialsOf_eq, hstart] at hinit
  exact Except.ok.inj (hinit.symm.trans hr.initial)

theorem nsteps_eq (hr : IsReset s) (hr' : IsReset s') : s'.nsteps = s.nsteps := by
  have hn := hr'.nsteps
  rw [h.start, h.stop, h.dt] at hn
  exact Except.ok.inj (hn.symm.trans hr.nsteps)

theorem forward_iff : Forward s' ↔ Forward s := by
  rw [Forward, Forward, h.start, h.stop, h.dt]

theorem steps_iff (hr : IsReset s) (hr' : IsReset s') (j : Nat) : Steps s' j ↔ Steps s j := by
  simp only [Steps, h.initial_eq hr hr', h.fullRow_eq, h.stocksOf_eq]

end SameDynamics

/-! ### Projects that differ in the savestep -/

/-- The same files, but for the savestep in their sim specs. -/
def SameButSavestep (p p' : SDProject) : Prop :=
  List.Forall₂ (fun f f' : File => f'.models = f.models ∧ f'.simSpecs.start = f.simSpecs.start ∧
    f'.simSpecs.stop = f.simSpecs.stop ∧ f'.simSpecs.dt = f.simSpecs.dt) p.files p'.files

/-- A model found, and the one found in the other project. -/
def SameFound (r r' : Option (SimSpec × SDModel)) : Prop :=
  (r = none ∧ r' = none) ∨ ∃ specs specs' model, r = some (specs, model) ∧
    r' = some (specs', model) ∧ specs'.start = specs.start ∧ specs'.stop = specs.stop ∧
    specs'.dt = specs.dt

theorem SameButSavestep.getModel {p p' : SDProject} (h : SameButSavestep p p') (n : Option CStr) :
    SameFound (sdProjectGetModel p n) (sdProjectGetModel p' n) := by
  obtain ⟨files⟩ := p
  obtain ⟨files'⟩ := p'
  change List.Forall₂ _ files files' at h
  unfold sdProjectGetModel
  induction h with
  | nil => exact .inl ⟨rfl, rfl⟩
  | @cons f f' fs fs' hf _ ih =>
    obtain ⟨hmodels, hspecs⟩ := hf
    simp only [List.flatMap_cons, hmodels]
    induction f.models with
    | nil => exact ih
    | cons m ms ihm =>
      simp only [List.map_cons, List.cons_append, List.find?_cons]
      cases decide (m.name = n) with
      | true => exact .inr ⟨_, _, m, rfl, rfl, hspecs⟩
      | false => exact ihm

theorem SameButSavestep.moduleFuel {p p' : SDProject} (h : SameButSavestep p p') :
    moduleFuel p' = moduleFuel p := by
  obtain ⟨files⟩ := p
  obtain ⟨files'⟩ := p'
  change List.Forall₂ _ files files' at h
  have hmodels : files'.flatMap (·.models) = files.flatMap (·.models) := by
    induction h with
    | nil => rfl
    | cons hf _ ih => rw [List.flatMap_cons, List.flatMap_cons, hf.1, ih]
  simp only [Libsd.moduleFuel, hmodels]

theorem SameButSavestep.avar {p p' : SDProject} (h : SameButSavestep p p')
    (sub : Option Var → SDModel → Except Stop (List AVar)) : avar p' sub = avar p sub := by
  funext v
  unfold Libsd.avar
  rcases h.getModel v.name with ⟨h1, h2⟩ | ⟨specs, specs', model, h1, h2, -⟩ <;> rw [h1, h2]

theorem SameButSavestep.module {p p' : SDProject} (h : SameButSavestep p p') (fuel : Nat) :
    module p' fuel = module p fuel := by
  induction fuel with
  | zero => rfl
  | succ fuel ih =>
    funext vm model
    cases vm <;> simp only [Libsd.module, ih, h.avar]

/-- Simulations made from two such projects calculate the same. -/
theorem SameButSavestep.sameDynamics {env : Env} {p p' : SDProject} {name : Option CStr}
    {s s' : SDSim} (hp : SameButSavestep p p') (h : sdSimNew env p name = .ok s)
    (h' : sdSimNew env p' name = .ok s') : SameDynamics s s' := by
  obtain ⟨specs, model, s0, hmodel, hbuilt, henv, hspecs, hreset⟩ := sdSimNew_cases h
  obtain ⟨specs', model', s0', hmodel', hbuilt', henv', hspecs', hreset'⟩ := sdSimNew_cases h'
  obtain ⟨hr, hsame⟩ := sdSimReset_isReset hbuilt.wellBuilt hreset
  obtain ⟨hr', hsame'⟩ := sdSimReset_isReset hbuilt'.wellBuilt hreset'
  rcases hp.getModel name with ⟨h1, -⟩ | ⟨_, _, m, h1, h2, hstart, hstop, hdt⟩
  · simp [h1] at hmodel
  · obtain ⟨rfl, rfl⟩ := Prod.mk.inj (Option.some.inj (h1.symm.trans hmodel))
    obtain ⟨rfl, rfl⟩ := Prod.mk.inj (Option.some.inj (h2.symm.trans hmodel'))
    have hroot : s0'.root = s0.root := by
      have := hbuilt'.root
      rw [hp.moduleFuel, hp.module] at this
      exact Except.ok.inj (this.symm.trans hbuilt.root)
    obtain ⟨hstore, hnvars, hlists⟩ := hbuilt.eq_of_root hbuilt' hroot
    have hspec : s.spec = s0.simSpecs := hr.spec.trans hsame.simSpecs
    have hspec' : s'.spec = s0'.simSpecs := hr'.spec.trans hsame'.simSpecs
    refine ⟨by rw [hsame.env, hsame'.env, henv, henv'], by rw [hsame.root, hsame'.root, hroot],
      by rw [hsame.store, hsame'.store, hstore], by rw [hsame.lists, hsame'.lists, hlists],
      by rw [hsame.nvars, hsame'.nvars, hnvars], ?_, ?_, ?_⟩
    · rw [hspec, hspec', hspecs, hspecs', hstart]
    · rw [hspec, hspec', hspecs, hspecs', hstop]
    · rw [hspec, hspec', hspecs, hspecs', hdt]

/-! ### The kept rows -/

/-- A run that keeps every `save_every`-th row agrees with one that keeps them all; its
    times are the right ones unless time moves backward from far behind `stop`. -/
theorem decimated_rows {env : Env} (hb : env.bounded = false) {p p' : SDProject}
    (hp : SameButSavestep p p') {name : Option CStr} {s s' : SDSim}
    (h : sdSimNew env p name = .ok s) (h' : sdSimNew env p' name = .ok s')
    (hfull : s.saveEvery = 1) :
    ((∃ t, sdSimRunToEnd s = .ok t) ↔ ∃ t', sdSimRunToEnd s' = .ok t') ∧
    (∀ t t', sdSimRunToEnd s = .ok t → sdSimRunToEnd s' = .ok t' →
      (∀ i < s'.nsaves, t'.slab i = t.slab (i * s'.saveEvery)) ∧
      (Forward s' ∨ s'.nsaves ≤ 1 → ∀ i < s'.nsaves,
        t'.slab i TIME = s'.spec.start + i * s'.saveEvery * s'.spec.dt)) ∧
    s'.nsaves = ((List.range s'.nsteps).filter fun j => j % s'.saveEvery = 0).length := by
  obtain ⟨hr, henv⟩ := sdSimNew_isReset h
  obtain ⟨hr', henv'⟩ := sdSimNew_isReset h'
  have hdyn := hp.sameDynamics h h'
  have hb1 : s.env.bounded = false := henv ▸ hb
  have hb2 : s'.env.bounded = false := henv' ▸ hb
  have hinit := hdyn.initial_eq hr hr'
  refine ⟨?_, fun t t' hrun hrun' => ?_, hr'.nsaves.trans (savesOf_eq_count hr'.saveEvery_pos _)⟩
  · by_cases hf : Forward s
    · rw [runToEnd_ok_iff hr hb1 hf, runToEnd_ok_iff hr' hb2 (hdyn.forward_iff.mpr hf),
        hdyn.nsteps_eq hr hr']
      simp only [hdyn.steps_iff hr hr']
    · have hf' := fun hf' => hf (hdyn.forward_iff.mp hf')
      exact ⟨fun _ => ⟨s', runToEnd_stay hr' hb2 hf'⟩, fun _ => ⟨s, runToEnd_stay hr hb1 hf⟩⟩
  · by_cases hf : Forward s
    · have hf' := hdyn.forward_iff.mpr hf
      have hrow' := fun i (hi : i < s'.nsaves) => runToEnd_row hr' hb2 hf' hrun' hi
      refine ⟨fun i hi => ?_, fun _ i hi => ?_⟩
      · have hi1 : i * s'.saveEvery < s.nsaves := by
          rw [hr'.nsaves, lt_savesOf_iff hr'.saveEvery_pos, hdyn.nsteps_eq hr hr'] at hi
          rwa [hr.nsaves, hfull, lt_savesOf_iff Nat.one_pos, Nat.mul_one]
        have hrow := runToEnd_row hr hb1 hf hrun hi1
        rw [hfull, Nat.mul_one] at hrow
        have hdec := hrow' i hi
        rw [hinit, hdyn.fullRow_eq] at hdec
        exact Except.ok.inj (hdec.symm.trans hrow)
      · rw [(fullRow_frame hr'.built hr'.time hr'.high (hrow' i hi)).1, SDSim.timeAt]
        push_cast
        rfl
    · -- no step is taken, and all rows but the first are as they were allocated
      have hf' := fun hf' => hf (hdyn.forward_iff.mp hf')
      obtain rfl := Except.ok.inj ((runToEnd_stay hr hb1 hf).symm.trans hrun)
      obtain rfl := Except.ok.inj ((runToEnd_stay hr' hb2 hf').symm.trans hrun')
      refine ⟨fun i _ => ?_, fun hcase i hi => ?_⟩
      · cases i with
        | zero => rw [Nat.zero_mul, hinit]
        | succ i =>
          rw [hr'.rest _ (Nat.succ_pos i),
            hr.rest _ (Nat.mul_pos (Nat.succ_pos i) hr'.saveEvery_pos)]
      · obtain rfl : i = 0 := by
          have := hcase.resolve_left hf'
          omega
        rw [hr'.time]
        simp

theorem growth_savestep (simSpecs : SimSpec) (savestep : ℚ) :
    SameButSavestep (growth simSpecs) (growth { simSpecs with savestep := savestep }) :=
  .cons ⟨rfl, rfl, rfl, rfl⟩ .nil

theorem runsToEnd_of_do {x : Except Stop SDSim} {s t : SDSim}
    (h : (do
      let s ← x
      let t ← sdSimRunToEnd s
      return (s, t)) = .ok (s, t)) : x = .ok s ∧ sdSimRunToEnd s = .ok t := by
  simp only [bind, Except.bind] at h
  split at h
  · simp at h
  · split at h
    · simp at h
    · next hrun =>
      obtain ⟨rfl, rfl⟩ := Prod.mk.inj (Except.ok.inj h)
      exact ⟨rfl, hrun⟩

theorem decimated_rows_growth : ∃ s s',
    sdSimNew (.plain false) (growth ⟨0, 4, 1, 1⟩) none = .ok s ∧
    sdSimNew (.plain false) (growth ⟨0, 4, 1, 2⟩) none = .ok s' ∧
    ((∃ t, sdSimRunToEnd s = .ok t) ↔ ∃ t', sdSimRunToEnd s' = .ok t') ∧
    (∀ t t', sdSimRunToEnd s = .ok t → sdSimRunToEnd s' = .ok t' →
      (∀ i < s'.nsaves, t'.slab i = t.slab (i * s'.saveEvery)) ∧
      (Forward s' ∨ s'.nsaves ≤ 1 → ∀ i < s'.nsaves,
        t'.slab i TIME = s'.spec.start + i * s'.saveEvery * s'.spec.dt)) ∧
    s'.nsaves = ((List.range s'.nsteps).filter fun j => j % s'.saveEvery = 0).length := by
  obtain ⟨s, h, hfull⟩ := exists_ok (x := sdSimNew (.plain false) (growth ⟨0, 4, 1, 1⟩) none)
    (P := fun s => s.saveEvery == 1) (by decide +kernel)
  obtain ⟨s', h', -⟩ := exists_ok (x := sdSimNew (.plain false) (growth ⟨0, 4, 1, 2⟩) none)
    (P := fun _ => true) (by decide +kernel)
  exact ⟨s, s', h, h', decimated_rows rfl (growth_savestep ⟨0, 4, 1, 1⟩ 2) h h'
    (by simpa using hfull)⟩

/-- Backward from far behind `stop` no step is taken, and the times that were to be
    saved are not there. -/
theorem decimated_time_backward : ∃ s s' t t',
    SameButSavestep (growth ⟨5, 1, -1, -1⟩) (growth ⟨5, 1, -1, -2⟩) ∧
    sdSimNew (.plain false) (growth ⟨5, 1, -1, -1⟩) none = .ok s ∧
    sdSimNew (.plain false) (growth ⟨5, 1, -1, -2⟩) none = .ok s' ∧
    s.saveEvery = 1 ∧ s'.saveEvery = 2 ∧ sdSimRunToEnd s = .ok t ∧ sdSimRunToEnd s' = .ok t' ∧
    1 < s'.nsaves ∧ t'.slab 1 TIME ≠ s'.spec.start + 1 * s'.saveEvery * s'.spec.dt := by
  obtain ⟨⟨s, t⟩, h, hs⟩ := exists_ok (P := fun r : SDSim × SDSim => r.1.saveEvery == 1) (x := do
    let s ← sdSimNew (.plain false) (growth ⟨5, 1, -1, -1⟩) none
    let t ← sdSimRunToEnd s
    return (s, t)) (by decide +kernel)
  obtain ⟨⟨s', t'⟩, h', hs'⟩ := exists_ok (P := fun r : SDSim × SDSim => r.1.saveEvery == 2 &&
      decide (1 < r.1.nsaves) &&
      r.2.slab 1 TIME != r.1.spec.start + 1 * r.1.saveEvery * r.1.spec.dt) (x := do
    let s ← sdSimNew (.plain false) (growth ⟨5, 1, -1, -2⟩) none
    let t ← sdSimRunToEnd s
    return (s, t)) (by decide +kernel)
  obtain ⟨hn, hrun⟩ := runsToEnd_of_do h
  obtain ⟨hn', hrun'⟩ := runsToEnd_of_do h'
  simp only [Bool.and_eq_true, beq_iff_eq, decide_eq_true_eq, bne_iff_ne] at hs hs'
  exact ⟨s, s', t, t', growth_savestep ⟨5, 1, -1, -1⟩ (-2), hn, hn', hs, hs'.1.1, hrun, hrun',
    hs'.1.2, by simpa using hs'.2⟩

end Libsd

/-
  Libsd/Renamed.lean
  ==================
  **What does not matter to a model without modules: its names, and what is not read.**

  A model whose variables have been given other names throughout is accepted just when it
  was before, and every sequence of calls leaves the same values under the other names
  (`renamed_calls`).  Variables that none of the others reads can be left out
  (`restricted_calls`).
-/
import Libsd.Lockstep

namespace Libsd

/-! ### Simulations of a model and of its translation -/

section
variable {f : CStr → Option CStr} {env : Env} {p p' : SDProject} {name name' : Option CStr}
  {specs : SimSpec} {model model' : SDModel}
  (hmodel : sdProjectGetModel p name = some (specs, model))
  (hmodel' : sdProjectGetModel p' name' = some (specs, model')) (hflat : model.Flat)
  (hn : model.Named) (hn' : model'.Named) (h : Translates f model model')
include hmodel hmodel' hflat hn hn' h

theorem linkable_of_new {s s' : SDSim} (hnew : sdSimNew env p name = .ok s)
    (hnew' : sdSimNew env p' name' = .ok s') : Linkable f model model' s s' := by
  obtain ⟨hreset, henv⟩ := sdSimNew_isReset hnew
  obtain ⟨hreset', henv'⟩ := sdSimNew_isReset hnew'
  have hspecs := sdSimNew_simSpecs hnew hmodel
  have hspecs' := sdSimNew_simSpecs hnew' hmodel'
  exact ⟨sdSimNew_flatOf hnew hmodel hflat hn, sdSimNew_flatOf hnew' hmodel' (h.flat hflat) hn', h,
    henv'.trans henv.symm, hspecs'.trans hspecs.symm,
    by rw [hreset'.spec, hreset.spec, hspecs', hspecs]⟩

theorem translated_new {s : SDSim} (hnew : sdSimNew env p name = .ok s) :
    ∃ s', sdSimNew env p' name' = .ok s' := by
  obtain ⟨specs1, model1, s0, hmodel1, hbuilt, henv, hspecs, hr⟩ := sdSimNew_cases hnew
  obtain ⟨hreset, hsame⟩ := sdSimReset_isReset hbuilt.wellBuilt hr
  obtain ⟨rfl, rfl⟩ := Prod.mk.inj (Option.some.inj (hmodel.symm.trans hmodel1))
  have hacc := (builtFrom_flat_iff hflat hn).mp ⟨s0, hbuilt⟩
  obtain ⟨s1, hbuilt1⟩ :=
    (builtFrom_flat_iff (p := p') (h.flat hflat) hn').mpr (h.accepted hacc)
  -- the other simulation, with the clock of the first
  let s0' : SDSim := { s1 with env := env, simSpecs := specs }
  have hbuilt' : BuiltFrom p' model' s0' := ⟨hbuilt1.root, hbuilt1.store, hbuilt1.lists⟩
  rw [sdSimNew_of_built hmodel' hbuilt' rfl rfl]
  obtain ⟨n, hevery, -⟩ := hreset.saveEvery
  have hsimSpecs : s.simSpecs = specs := hsame.simSpecs.trans hspecs
  have hspec : s.spec = specs := hreset.spec.trans hsimSpecs
  have hlink : Linkable f model model' s (s0'.cleared s.nsteps (if n > 1 then n else 1)) := by
    have hsame' : SameSetup s0' (s0'.cleared s.nsteps (if n > 1 then n else 1)) :=
      ⟨rfl, rfl, rfl, rfl, rfl, rfl⟩
    exact ⟨(hbuilt.flatOf hflat hn).of_same hsame,
      (hbuilt'.flatOf (h.flat hflat) hn').of_same hsame', h,
      (hsame.env.trans henv).symm, hsimSpecs.symm, hspec.symm⟩
  obtain ⟨row, hrow, -⟩ := hlink.initialsOf hreset.initial
  have hdt := hreset.dt
  have hnsteps := hreset.nsteps
  rw [hspec] at hdt hnsteps hevery
  exact sdSimReset_ok hbuilt'.wellBuilt hdt hnsteps hevery hrow

/-- The same calls leave both at the same point, where a slab has no limits. -/
theorem translated_calls {s s' t : SDSim} (hnew : sdSimNew env p name = .ok s)
    (hnew' : sdSimNew env p' name' = .ok s') {cs : List Call} (hrun : s.calls cs = .ok t) :
    (env.bounded = false → ∃ t', s'.calls cs = .ok t') ∧
    ∀ t', s'.calls cs = .ok t' → ∀ n n', f (skipDot n) = some (skipDot n') →
      sdSimGetValue t' (some n') = sdSimGetValue t (some n) ∧
      ∀ len, sdSimGetSeries t' (some n') len = sdSimGetSeries t (some n) len := by
  have hpaired : ∀ {env : Env} {s s' : SDSim}, sdSimNew env p name = .ok s →
      sdSimNew env p' name' = .ok s' → env.bounded = false → Paired f model model' s s' := by
    intro env s s' hnew hnew' hb
    obtain ⟨hreset, henv⟩ := sdSimNew_isReset hnew
    exact ⟨linkable_of_new hmodel hmodel' hflat hn hn' h hnew hnew', hreset,
      (sdSimNew_isReset hnew').1, henv.symm ▸ hb⟩
  refine ⟨fun hb => ?_, fun t' hrun' n n' hf => ?_⟩
  · have hp := hpaired hnew hnew' hb
    obtain ⟨t', ht', -⟩ := hp.calls hp.lockstep_reset hrun
    exact ⟨t', ht'⟩
  · have hp := hpaired (unbounded_new hnew) (unbounded_new hnew') rfl
    obtain ⟨u', hu', hlock⟩ := hp.calls hp.lockstep_reset (unbounded_calls hrun)
    obtain rfl := Except.ok.inj (hu'.symm.trans (unbounded_calls hrun'))
    exact hp.reads hlock hf

end

/-! ### Other names -/

/-- The second model is the first one with the names that `g` gives its variables. -/
structure Renamed (g : Equiv.Perm CStr) (model model' : SDModel) : Prop where
  time : g (cstr "time") = cstr "time"
  left : ∀ v ∈ model.vars, ∃ v' ∈ model'.vars, ∃ n, v.name = some n ∧ v'.name = some (g n) ∧
    v.Alike (fun a => some (g a)) v'
  right : ∀ v' ∈ model'.vars, ∃ v ∈ model.vars, ∃ n, v.name = some n ∧ v'.name = some (g n) ∧
    v.Alike (fun a => some (g a)) v'

theorem Var.Alike.symm {f g : CStr → Option CStr} (hg : ∀ a c, f a = some c → g c = some a)
    {v v' : Var} (h : v.Alike f v') : v'.Alike g v :=
  ⟨h.type.symm, h.tree.symm hg, h.const.symm, h.gf.symm, h.inflows.symm hg, h.outflows.symm hg⟩

namespace Renamed

variable {g : Equiv.Perm CStr} {model model' : SDModel} (h : Renamed g model model')
include h

theorem symm : Renamed g.symm model' model := by
  have hg : ∀ a c, some (g a) = some c → some (g.symm c) = some a := by
    intro a c hac
    rw [← Option.some.inj hac, Equiv.symm_apply_apply]
  refine ⟨g.symm_apply_eq.mpr h.time.symm, fun v' hv' => ?_, fun v hv => ?_⟩
  · obtain ⟨v, hv, n, hn, hn', halike⟩ := h.right v' hv'
    exact ⟨v, hv, g n, hn', by rw [hn, Equiv.symm_apply_apply], halike.symm hg⟩
  · obtain ⟨v', hv', n, hn, hn', halike⟩ := h.left v hv
    exact ⟨v', hv', g n, hn', by rw [hn, Equiv.symm_apply_apply], halike.symm hg⟩

theorem translates : Translates (fun a => some (g a)) model model' where
  time := congrArg some h.time
  inj a b c ha hb := g.injective (Option.some.inj (ha.trans hb.symm))
  has a c hac ha := by
    obtain rfl := Option.some.inj hac
    rcases ha with rfl | ⟨v, hv, hname⟩
    · exact .inl h.time
    · obtain ⟨v', hv', n, hn, hn', -⟩ := h.left v hv
      obtain rfl := Option.some.inj (hn.symm.trans hname)
      exact .inr ⟨v', hv', hn'⟩
  var v' hv' := by
    obtain ⟨v, hv, n, hn, hn', halike⟩ := h.right v' hv'
    exact ⟨v, hv, n, g n, hn, hn', rfl, halike⟩

end Renamed

/-- Names do not matter, if they are there, all different and none is `time`: a model without
    modules in which they have been exchanged throughout, and the parentheses and numbers of its
    equations written in another way (a plain number staying one), is accepted too, and any
    calls leave the same values and series under the other names. -/
theorem renamed_calls {env : Env} {p p' : SDProject} {name name' : Option CStr} {specs : SimSpec}
    {model model' : SDModel} {g : Equiv.Perm CStr}
    (hmodel : sdProjectGetModel p name = some (specs, model))
    (hmodel' : sdProjectGetModel p' name' = some (specs, model')) (hflat : model.Flat)
    (hn : model.Named) (hn' : model'.Named) (h : Renamed g model model') :
    ((∃ s, sdSimNew env p name = .ok s) ↔ ∃ s', sdSimNew env p' name' = .ok s') ∧
    ∀ s s', sdSimNew env p name = .ok s → sdSimNew env p' name' = .ok s' → ∀ cs : List Call,
      (env.bounded = false → ((∃ t, s.calls cs = .ok t) ↔ ∃ t', s'.calls cs = .ok t')) ∧
      ∀ t t', s.calls cs = .ok t → s'.calls cs = .ok t' →
        ∀ n n', g (skipDot n) = skipDot n' →
          sdSimGetValue t' (some n') = sdSimGetValue t (some n) ∧
          ∀ len, sdSimGetSeries t' (some n') len = sdSimGetSeries t (some n) len := by
  have hto := h.translates
  have hback := h.symm.translates
  have hflat' := hto.flat hflat
  refine ⟨⟨fun ⟨s, hs⟩ => translated_new hmodel hmodel' hflat hn hn' hto hs,
    fun ⟨s', hs'⟩ => translated_new hmodel' hmodel hflat' hn' hn hback hs'⟩,
    fun s s' hnew hnew' cs => ⟨fun hb => ⟨fun ⟨t, ht⟩ => ?_, fun ⟨t', ht'⟩ => ?_⟩,
      fun t t' ht ht' n n' hg => ?_⟩⟩
  · exact (translated_calls hmodel hmodel' hflat hn hn' hto hnew hnew' ht).1 hb
  · exact (translated_calls hmodel' hmodel hflat' hn' hn hback hnew' hnew ht').1 hb
  · exact (translated_calls hmodel hmodel' hflat hn hn' hto hnew hnew' ht).2 t' ht' n n'
      (congrArg some hg)

/-- The model of `growth` under other names, and written in another way. -/
def fishModel : SDModel :=
  { name := none, vars := [
    Var.ofEquation .flow "born" "(fish) / 1e1",
    { Var.ofEquation .stock "fish" "100.0" with inflows := [cstr ".born"] }] }

/-- The names that are exchanged. -/
def fishNames : Equiv.Perm CStr :=
  Equiv.swap (cstr "population") (cstr "fish") * Equiv.swap (cstr "births") (cstr "born")

theorem fishModel_trees : fishModel.vars.map Var.tree =
    [.binary (rune '/') (.paren (.ident (cstr "fish") none)) (.floatlit (cstr "1e1") 0),
      .floatlit (cstr "100.0") 0] := by
  decide +kernel

theorem renamed_growth : Renamed fishNames growthModel fishModel := by
  have htrees := growthModel_trees
  have htrees' := fishModel_trees
  simp only [growthModel, fishModel, List.map_cons, List.map_nil, List.cons.injEq, and_true]
    at htrees htrees'
  have hstock : ∀ v v', v = growthModel.vars[0] → v' = fishModel.vars[1] →
      v.Alike (fun a => some (fishNames a)) v' := by
    rintro _ _ rfl rfl
    refine ⟨rfl, ?_, ?_, rfl, .cons (by decide +kernel) .nil, .nil⟩
    · exact htrees.1 ▸ htrees'.2 ▸ .floatlit (by decide +kernel)
    · exact htrees.1 ▸ htrees'.2 ▸ rfl
  have hflow : ∀ v v', v = growthModel.vars[1] → v' = fishModel.vars[0] →
      v.Alike (fun a => some (fishNames a)) v' := by
    rintro _ _ rfl rfl
    refine ⟨rfl, ?_, ?_, rfl, .nil, .nil⟩
    · exact htrees.2 ▸ htrees'.1 ▸
        .binary (.parenRight (.ident (by decide +kernel))) (.floatlit (by decide +kernel))
    · exact htrees.2 ▸ htrees'.1 ▸ rfl
  refine ⟨by decide +kernel, fun v hv => ?_, fun v' hv' => ?_⟩
  · rcases List.mem_cons.mp hv with rfl | hv
    · exact ⟨_, List.mem_cons_of_mem _ List.mem_cons_self, _, rfl, by decide +kernel,
        hstock _ _ rfl rfl⟩
    · obtain rfl := List.mem_singleton.mp hv
      exact ⟨_, List.mem_cons_self, _, rfl, by decide +kernel, hflow _ _ rfl rfl⟩
  · rcases List.mem_cons.mp hv' with rfl | hv'
    · exact ⟨_, List.mem_cons_of_mem _ List.mem_cons_self, _, rfl, by decide +kernel,
        hflow _ _ rfl rfl⟩
    · obtain rfl := List.mem_singleton.mp hv'
      exact ⟨_, List.mem_cons_self, _, rfl, by decide +kernel, hstock _ _ rfl rfl⟩

theorem renamed_calls_growth :
    ((∃ s, sdSimNew (.plain true) (growth ⟨0, 4, 1, 2⟩) none = .ok s) ↔
      ∃ s', sdSimNew (.plain true) (.ofModels ⟨0, 4, 1, 2⟩ [fishModel]) none = .ok s') ∧
    ∀ s s', sdSimNew (.plain true) (growth ⟨0, 4, 1, 2⟩) none = .ok s →
      sdSimNew (.plain true) (.ofModels ⟨0, 4, 1, 2⟩ [fishModel]) none = .ok s' →
      ∀ cs : List Call,
      ((Env.plain true).bounded = false →
        ((∃ t, s.calls cs = .ok t) ↔ ∃ t', s'.calls cs = .ok t')) ∧
      ∀ t t', s.calls cs = .ok t → s'.calls cs = .ok t' →
        ∀ n n', fishNames (skipDot n) = skipDot n' →
          sdSimGetValue t' (some n') = sdSimGetValue t (some n) ∧
          ∀ len, sdSimGetSeries t' (some n') len = sdSimGetSeries t (some n) len :=
  renamed_calls rfl rfl growthModel_closed.flat growthModel_closed.named
    ⟨by decide, by decide +kernel, by decide +kernel⟩ renamed_growth

/-! ### Variables that are not read -/

/-- The variables whose names are kept. -/
def SDModel.restrict (model : SDModel) (keep : CStr → Bool) : SDModel :=
  { model with vars := model.vars.filter fun v => v.name.any keep }

/-- What is kept reads, and flows into, nothing but `time` and what is kept. -/
def SDModel.ReadsKept (model : SDModel) (keep : CStr → Bool) : Prop :=
  ∀ v ∈ (model.restrict keep).vars, ∀ n ∈ v.tree.names ++ v.inflows ++ v.outflows,
    skipDot n = cstr "time" ∨ keep (skipDot n) = true

section
variable {model : SDModel} {keep : CStr → Bool}

theorem SDModel.mem_restrict {v : Var} :
    v ∈ (model.restrict keep).vars ↔ v ∈ model.vars ∧ ∃ n, v.name = some n ∧ keep n = true := by
  rw [SDModel.restrict, List.mem_filter, Option.any_eq_true]

theorem SDModel.Named.restrict (hn : model.Named) : (model.restrict keep).Named :=
  ⟨fun v hv => hn.name v (SDModel.mem_restrict.mp hv).1,
    hn.nodup.sublist (List.Sublist.map _ List.filter_sublist),
    fun v hv => hn.time v (SDModel.mem_restrict.mp hv).1⟩

/-- The names that are kept, and `time`. -/
def keptName (keep : CStr → Bool) (n : CStr) : Option CStr :=
  if n = cstr "time" ∨ keep n = true then some n else none

theorem keptName_eq_some {n c : CStr} :
    keptName keep n = some c ↔ c = n ∧ (n = cstr "time" ∨ keep n = true) := by
  unfold keptName
  split
  · next h => exact ⟨fun hc => ⟨(Option.some.inj hc).symm, h⟩, fun hc => congrArg some hc.1.symm⟩
  · next h => exact ⟨fun hc => absurd hc (by simp), fun hc => absurd hc.2 h⟩

theorem translates_restrict (hacc : model.Accepted) (hkeep : model.ReadsKept keep) :
    Translates (keptName keep) model (model.restrict keep) where
  time := keptName_eq_some.mpr ⟨rfl, .inl rfl⟩
  inj a b c ha hb := by rw [← (keptName_eq_some.mp ha).1, ← (keptName_eq_some.mp hb).1]
  has a c hac ha := by
    obtain ⟨rfl, hk⟩ := keptName_eq_some.mp hac
    rcases ha with rfl | ⟨v, hv, hname⟩
    · exact .inl rfl
    · rcases hk with rfl | hk
      · exact .inl rfl
      · exact .inr ⟨v, SDModel.mem_restrict.mpr ⟨hv, c, hname, hk⟩, hname⟩
  var v hv := by
    obtain ⟨hmem, n, hname, hk⟩ := SDModel.mem_restrict.mp hv
    have hself : ∀ s ∈ v.tree.names ++ v.inflows ++ v.outflows,
        keptName keep (skipDot s) = some (skipDot s) :=
      fun s hs => keptName_eq_some.mpr ⟨rfl, hkeep v hv s hs⟩
    refine ⟨v, hmem, n, n, hname, hname, keptName_eq_some.mpr ⟨rfl, .inr hk⟩, rfl, ?_, rfl, rfl,
      Node.alikeNames_self fun s hs => hself s ?_, Node.alikeNames_self fun s hs => hself s ?_⟩
    · refine Node.alike_self (hacc.vars v hmem).present fun s hs => hself s ?_
      exact List.mem_append_left _ (List.mem_append_left _ hs)
    · exact List.mem_append_left _ (List.mem_append_right _ hs)
    · exact List.mem_append_right _ hs

end

/-- What is not read does not matter: when a model without modules, whose names are all there,
    all different and not `time`, is accepted, so is the model with only the variables kept, and
    any calls leave the same values and series of these. -/
theorem restricted_calls {env : Env} {p p' : SDProject} {name name' : Option CStr}
    {specs : SimSpec} {model : SDModel} {keep : CStr → Bool}
    (hmodel : sdProjectGetModel p name = some (specs, model))
    (hmodel' : sdProjectGetModel p' name' = some (specs, model.restrict keep))
    (hflat : model.Flat) (hn : model.Named) (hkeep : model.ReadsKept keep) {s : SDSim}
    (hnew : sdSimNew env p name = .ok s) :
    (∃ s', sdSimNew env p' name' = .ok s') ∧
    ∀ s', sdSimNew env p' name' = .ok s' → ∀ (cs : List Call) t, s.calls cs = .ok t →
      (env.bounded = false → ∃ t', s'.calls cs = .ok t') ∧
      ∀ t', s'.calls cs = .ok t' →
        ∀ n, skipDot n = cstr "time" ∨ keep (skipDot n) = true →
          sdSimGetValue t' (some n) = sdSimGetValue t (some n) ∧
          ∀ len, sdSimGetSeries t' (some n) len = sdSimGetSeries t (some n) len := by
  obtain ⟨specs', model', s0, hmodel1, hbuilt, -, -, -⟩ := sdSimNew_cases hnew
  obtain ⟨rfl, rfl⟩ := Prod.mk.inj (Option.some.inj (hmodel.symm.trans hmodel1))
  have h := translates_restrict ((builtFrom_flat_iff hflat hn).mp ⟨s0, hbuilt⟩) hkeep
  refine ⟨translated_new hmodel hmodel' hflat hn hn.restrict h hnew, fun s' hnew' cs t ht => ?_⟩
  obtain ⟨hok, hsame⟩ := translated_calls hmodel hmodel' hflat hn hn.restrict h hnew hnew' ht
  exact ⟨hok, fun t' ht' n hn => hsame t' ht' n n (keptName_eq_some.mpr ⟨rfl, hn⟩)⟩

/-- The model of `growth` with an auxiliary that nothing reads. -/
def watchedModel : SDModel :=
  { name := none, vars := [Var.ofEquation .aux "watch" "births * 2"] ++ growthModel.vars }

def notWatch (n : CStr) : Bool := n != cstr "watch"

theorem watchedModel_readsKept : watchedModel.ReadsKept notWatch := by
  unfold SDModel.ReadsKept
  decide +kernel

theorem restricted_calls_growth : ∃ s,
    sdSimNew (.plain true) (.ofModels ⟨0, 4, 1, 2⟩ [watchedModel]) none = .ok s ∧
    ((∃ s', sdSimNew (.plain true) (growth ⟨0, 4, 1, 2⟩) none = .ok s') ∧
    ∀ s', sdSimNew (.plain true) (growth ⟨0, 4, 1, 2⟩) none = .ok s' →
      ∀ (cs : List Call) t, s.calls cs = .ok t →
      ((Env.plain true).bounded = false → ∃ t', s'.calls cs = .ok t') ∧
      ∀ t', s'.calls cs = .ok t' →
        ∀ n, skipDot n = cstr "time" ∨ notWatch (skipDot n) = true →
          sdSimGetValue t' (some n) = sdSimGetValue t (some n) ∧
          ∀ len, sdSimGetSeries t' (some n) len = sdSimGetSeries t (some n) len) := by
  obtain ⟨s, hnew, -⟩ := exists_ok
    (x := sdSimNew (.plain true) (.ofModels ⟨0, 4, 1, 2⟩ [watchedModel]) none)
    (P := fun s => decide (s.step = 0)) (by decide +kernel)
  have hmodel' : sdProjectGetModel (growth ⟨0, 4, 1, 2⟩) none =
      some (⟨0, 4, 1, 2⟩, watchedModel.restrict notWatch) := by
    decide +kernel
  exact ⟨s, hnew, restricted_calls rfl hmodel' (by unfold SDModel.Flat; decide)
    ⟨by decide, by decide +kernel, by decide +kernel⟩ watchedModel_readsKept hnew⟩

end Libsd

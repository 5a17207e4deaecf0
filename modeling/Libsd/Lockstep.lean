/-
  Libsd/Lockstep.lean
  ===================
  **Two models that say the same are simulated in lockstep.**

  The columns of two simulations that are `Linkable` correspond, by the names of their
  variables.  Rows that hold the same in them (`SameAlong`) stay so through each pass,
  hence the two slabs do through every call (`Lockstep.call`).  What is calculated for
  the variables the second model does not have is never read for the others.
-/
import Libsd.Alike
import Libsd.DeclOrder

namespace Libsd

open Outcome

/-- Simulations, with the same clock, of a model and of what `f` translates it to. -/
structure Linkable (f : CStr → Option CStr) (model model' : SDModel) (s s' : SDSim) : Prop where
  left : FlatOf model s
  right : FlatOf model' s'
  translates : Translates f model model'
  env : s'.env = s.env
  simSpecs : s'.simSpecs = s.simSpecs
  spec : s'.spec = s.spec

/-- The rows hold the same in the columns of variables that `f` takes to each other. -/
def SameAlong (f : CStr → Option CStr) (s s' : SDSim) (row row' : Row) : Prop :=
  ∀ (i i' : Nat) av av' n n', s.root[i]? = some av → av.v.name = some n →
    s'.root[i']? = some av' → av'.v.name = some n' → f n = some n' →
    row (s.col [i]) = row' (s'.col [i'])

namespace Linkable

variable {f : CStr → Option CStr} {model model' : SDModel} {s s' : SDSim}
  (h : Linkable f model model' s s')
include h

theorem time_eq {row row' : Row} (hrow : SameAlong f s s' row row') : row TIME = row' TIME := by
  have hcol : s.col [0] = TIME := h.left.sim.built.numbered.time.2
  have hcol' : s'.col [0] = TIME := h.right.sim.built.numbered.time.2
  have htime := hrow 0 0 _ _ _ _ h.left.root_time rfl h.right.root_time rfl h.translates.time
  rwa [hcol, hcol'] at htime

/-- A variable of the second simulation is one of the first. -/
theorem var_left {k' : Nat} {v' : Var} {n' : CStr} (hv' : model'.vars[k']? = some v')
    (hn' : v'.name = some n') : ∃ (k : Nat) (v : Var) (n : CStr), model.vars[k]? = some v ∧
      v.name = some n ∧ f n = some n' ∧ v.Alike f v' := by
  obtain ⟨v, hv, n, m, hn, hm, hf, halike⟩ := h.translates.var v' (List.mem_of_getElem? hv')
  obtain ⟨k, hk⟩ := List.getElem?_of_mem hv
  obtain rfl := Option.some.inj (hm.symm.trans hn')
  exact ⟨k, v, n, hk, hn, hf, halike⟩

/-- The rows are the same in the columns when they are in those of `time` and of the
    variables of the second simulation. -/
theorem sameAlong_of {row row' : Row} (htime : row TIME = row' TIME)
    (hvars : ∀ k k' v v' n n', model.vars[k]? = some v → v.name = some n →
      model'.vars[k']? = some v' → v'.name = some n' → f n = some n' → v.Alike f v' →
      row (s.col [k + 1]) = row' (s'.col [k' + 1])) : SameAlong f s s' row row' := by
  intro i i' av av' n n' hav hn hav' hn' hf
  have hcol : s.col [0] = TIME := h.left.sim.built.numbered.time.2
  have hcol' : s'.col [0] = TIME := h.right.sim.built.numbered.time.2
  -- what leads to `n'` is `n`, and one variable only is called so
  have hunique : ∀ {j b m}, s.root[j]? = some b → b.v.name = some m → f m = some n' → j = i := by
    intro j b m hb hm hfm
    obtain rfl := h.translates.inj _ _ _ hfm hf
    exact h.left.named.index_unique (h.left.root ▸ hb) hm (h.left.root ▸ hav) hn
  rcases h.right.root_cases hav' with ⟨rfl, rfl⟩ | ⟨k', v', rfl, hv', rfl⟩
  · obtain rfl : cstr "time" = n' := Option.some.inj hn'
    obtain rfl := hunique h.left.root_time rfl h.translates.time
    rw [hcol, hcol', htime]
  · have hn' : v'.name = some n' := hn'
    obtain ⟨k, v, m, hv, hm, hfm, halike⟩ := h.var_left hv' hn'
    obtain rfl := hunique (h.left.root_var hv) hm hfm
    exact hvars k k' v v' m n' hv hm hv' hn' hfm halike

theorem mem_flowLeaves {k k' : Nat} {v v' : Var} (hv : model.vars[k]? = some v)
    (hv' : model'.vars[k']? = some v') (halike : v.Alike f v') :
    [k + 1] ∈ s.flowLeaves ↔ [k' + 1] ∈ s'.flowLeaves := by
  rw [h.left.mem_flowLeaves_iff hv, h.right.mem_flowLeaves_iff hv', halike.type, halike.const]

theorem mem_stockLeaves {k k' : Nat} {v v' : Var} (hv : model.vars[k]? = some v)
    (hv' : model'.vars[k']? = some v') (halike : v.Alike f v') :
    [k + 1] ∈ s.stockLeaves ↔ [k' + 1] ∈ s'.stockLeaves := by
  rw [h.left.mem_stockLeaves_iff hv, h.right.mem_stockLeaves_iff hv',
    h.mem_flowLeaves hv hv' halike]

/-! ### A variable has the same value in rows that hold the same -/

section
variable {row row' : Row} (hrow : SameAlong f s s' row row')
include hrow

theorem read_find {n n' : CStr} (hf : f (skipDot n) = some (skipDot n')) :
    (model.find n).map (fun p => row (s.identOffset p)) =
      (model'.find n').map fun p => row' (s'.identOffset p) := by
  have hhas : model.find n ≠ none ↔ model'.find n' ≠ none := by
    rw [h.left.named.find_ne_none_iff, h.right.named.find_ne_none_iff, h.translates.has_iff hf]
  cases hp : model.find n with
  | none =>
    have hp' : model'.find n' = none := by
      by_contra hne
      exact hhas.mpr hne hp
    rw [hp']
    rfl
  | some p =>
    obtain ⟨p', hp'⟩ := Option.ne_none_iff_exists'.mp (hhas.mp (by simp [hp]))
    obtain ⟨i, av, rfl, hav, hn⟩ := h.left.named.find_iff.mp hp
    obtain ⟨i', av', rfl, hav', hn'⟩ := h.right.named.find_iff.mp hp'
    rw [hp', Option.map_some, Option.map_some, h.left.sim.identOffset_eq,
      h.right.sim.identOffset_eq]
    exact congrArg some
      (hrow i i' av av' _ _ (h.left.root ▸ hav) hn (h.right.root ▸ hav') hn' hf)

variable {k k' : Nat} {v v' : Var} (hv : model.vars[k]? = some v)
  (hv' : model'.vars[k']? = some v') (halike : v.Alike f v')
include hv hv' halike

theorem eval_eq : s.eval row (s.store [k + 1]).node = s'.eval row' (s'.store [k' + 1]).node := by
  obtain ⟨-, -, -, -, hnode, -⟩ := h.left.compiled hv
  obtain ⟨-, -, -, -, hnode', -⟩ := h.right.compiled hv'
  rw [SDSim.eval, SDSim.eval, hnode, hnode', h.env, h.spec, h.time_eq hrow]
  exact halike.tree.svisit_eq fun n n' hf => h.read_find hrow hf

theorem calcValue_eq : s.calcValue row [k + 1] = s'.calcValue row' [k' + 1] := by
  have hgf : s.gfAt [k + 1] = v.gf := by simp [SDSim.gfAt, h.left.avarAt_var hv, AVar.v]
  have hgf' : s'.gfAt [k' + 1] = v.gf := by
    simp [SDSim.gfAt, h.right.avarAt_var hv', AVar.v, halike.gf]
  simp only [SDSim.calcValue, h.eval_eq hrow hv hv' halike, hgf, hgf']

theorem netFlow_eq : s.netFlow row [k + 1] = s'.netFlow row' [k' + 1] := by
  obtain ⟨-, -, -, -, -, -, hin, hout⟩ := h.left.compiled hv
  obtain ⟨-, -, -, -, -, -, hin', hout'⟩ := h.right.compiled hv'
  have hflows : ∀ {names names' : List CStr} {ps ps' : List Path} (op : ℚ → ℚ → ℚ) (a : ℚ),
      Node.AlikeNames f names names' →
      resolveAll (scopeAt model.flatRoot []) names = .ok ps →
      resolveAll (scopeAt model'.flatRoot []) names' = .ok ps' →
      ps.foldl (fun x p => op x (row (s.store p).offset)) a =
        ps'.foldl (fun x p => op x (row' (s'.store p).offset)) a := by
    intro names names' ps ps' op a halike hps hps'
    have hall := resolveAll_forall₂ hps
    have hall' := resolveAll_forall₂ hps'
    clear hps hps'
    induction halike generalizing ps ps' a with
    | nil =>
      cases hall
      cases hall'
      rfl
    | cons hf _ ih =>
      cases hall with
      | @cons _ p _ ps hp hall =>
      cases hall' with
      | @cons _ p' _ ps' hp' hall' =>
      have hread := h.read_find hrow hf
      simp only [SDModel.find, hp, hp', Option.map_some, Option.some.injEq,
        h.left.sim.identOffset_eq, h.right.sim.identOffset_eq] at hread
      have hread : row (s.store p).offset = row' (s'.store p').offset := hread
      rw [List.foldl_cons, List.foldl_cons, hread]
      exact ih _ hall hall'
  rw [SDSim.netFlow, SDSim.netFlow, hflows (fun x y => x + y) 0 halike.inflows hin hin',
    hflows (fun x y => x - y) _ halike.outflows hout hout']

theorem stockValue_eq (hcol : row (s.col [k + 1]) = row' (s'.col [k' + 1])) :
    s.stockValue row [k + 1] = s'.stockValue row' [k' + 1] := by
  have htype : s.typeAt [k + 1] = some v.type := by
    simp [SDSim.typeAt, h.left.avarAt_var hv, AVar.v]
  have htype' : s'.typeAt [k' + 1] = some v.type := by
    simp [SDSim.typeAt, h.right.avarAt_var hv', AVar.v, halike.type]
  rw [SDSim.stockValue, SDSim.stockValue, htype, htype', h.eval_eq hrow hv hv' halike,
    h.netFlow_eq hrow hv hv' halike, h.spec]
  cases v.type <;> simp only [hcol]

end

/-! ### A pass takes such rows to such rows -/

/-- The row of the second simulation with the values of a row of the first. -/
theorem exists_values (row : Row) : ∃ σ' : CStr → ℚ, ∀ row', s'.Agrees row' σ' ↔
    SameAlong f s s' row row' := by
  obtain ⟨σ, hσ⟩ := h.left.exists_agrees row
  have hsource : ∀ c, ∃ a, model'.Has c → f a = some c ∧ model.Has a := fun c => by
    by_cases hc : model'.Has c
    · exact (h.translates.source hc).imp fun _ ha _ => ha
    · exact ⟨[], fun hc' => absurd hc' hc⟩
  choose source hsource using hsource
  have hhas : ∀ {i' : Nat} {av' : AVar} {n' : CStr}, s'.root[i']? = some av' →
      av'.v.name = some n' → model'.Has n' :=
    fun hav' hn' => SDModel.has_iff.mpr ⟨_, _, h.right.root ▸ hav', hn'⟩
  refine ⟨fun c => σ (source c), fun row' => ⟨fun hrow' => ?_, fun hsame => ?_⟩⟩
  · intro i i' av av' n n' hav hn hav' hn' hf
    obtain ⟨hsf, -⟩ := hsource n' (hhas hav' hn')
    have hval : row' (s'.col [i']) = σ (source n') := hrow' i' av' n' hav' hn'
    rw [hσ i av n hav hn, hval, h.translates.inj _ _ _ hsf hf]
  · intro i' av' n' hav' hn'
    obtain ⟨hsf, hhas⟩ := hsource n' (hhas hav' hn')
    obtain ⟨i, av, hav, hn⟩ := SDModel.has_iff.mp hhas
    have hav : s.root[i]? = some av := h.left.root ▸ hav
    have hval : row (s.col [i]) = σ (source n') := hσ i av _ hav hn
    exact (hsame i i' av av' _ n' hav hn hav' hn' hsf).symm.trans hval

theorem col_eq {row row' : Row} (hrow : SameAlong f s s' row row') {k k' : Nat} {v v' : Var}
    {n n' : CStr} (hv : model.vars[k]? = some v) (hn : v.name = some n)
    (hv' : model'.vars[k']? = some v') (hn' : v'.name = some n') (hf : f n = some n') :
    row (s.col [k + 1]) = row' (s'.col [k' + 1]) :=
  hrow _ _ _ _ _ _ (h.left.root_var hv) hn (h.right.root_var hv') hn' hf

theorem flowsOf {row row' r : Row} (hrow : SameAlong f s s' row row')
    (hrun : s.flowsOf row = .ok r) :
    ∃ r', s'.flowsOf row' = .ok r' ∧ SameAlong f s s' r r' := by
  obtain ⟨σ', hσ'⟩ := h.exists_values r
  obtain ⟨given', hgiven'⟩ : ∃ row', s'.Agrees row' σ' := ⟨_, h.right.rowOf_agrees σ' row'⟩
  have hgiven := (hσ' given').mp hgiven'
  have hpass := h.right.flowsOf_agrees row' σ'
    (fun k' v' name hv' hname hmem r' hr' => by
      obtain ⟨k, v, n, hv, hn, hf, halike⟩ := h.var_left hv' hname
      have hval := h.left.flowsOf_value hrun ((h.mem_flowLeaves hv hv' halike).mpr hmem)
      have hsame := (hσ' r').mp hr'
      rw [← h.calcValue_eq hsame hv hv' halike, hval,
        h.col_eq hsame hv hn hv' hname hf, h.right.agrees_var hr' hv' hname])
    (by
      rw [← h.right.agrees_time hgiven', ← h.time_eq hgiven, ← h.time_eq hrow]
      exact (flowsOf_frame h.left.sim.built hrun (.inl rfl)).symm)
    (fun k' v' name hv' hname hmem => by
      obtain ⟨k, v, n, hv, hn, hf, halike⟩ := h.var_left hv' hname
      rw [← h.col_eq hrow hv hn hv' hname hf, ← h.right.agrees_var hgiven' hv' hname,
        ← h.col_eq hgiven hv hn hv' hname hf]
      exact (h.left.flowsOf_left hrun hv (mt (h.mem_flowLeaves hv hv' halike).mp hmem)).symm)
  obtain ⟨r', hr', hagrees⟩ := hpass
  exact ⟨r', hr', (hσ' r').mp hagrees⟩

theorem initialsOf {r : Row} (hrun : s.initialsOf s.startRow = .ok r) :
    ∃ r', s'.initialsOf s'.startRow = .ok r' ∧ SameAlong f s s' r r' := by
  obtain ⟨σ', hσ'⟩ := h.exists_values r
  have hgiven : s'.Agrees _ σ' := h.right.rowOf_agrees σ' fun _ => 0
  have hpass := h.right.initialsOf_agrees σ'
    (fun k' v' name hv' hname r' hr' => by
      obtain ⟨k, v, n, hv, hn, hf, halike⟩ := h.var_left hv' hname
      have hval := h.left.initialsOf_value hrun hv
      have hsame := (hσ' r').mp hr'
      rw [← h.calcValue_eq hsame hv hv' halike, hval,
        h.col_eq hsame hv hn hv' hname hf, h.right.agrees_var hr' hv' hname])
    (by
      rw [← h.right.agrees_time hgiven, ← h.time_eq ((hσ' _).mp hgiven), h.simSpecs,
        initialsOf_frame h.left.sim.built hrun (.inl rfl)]
      rfl)
  obtain ⟨r', hr', hagrees⟩ := hpass
  exact ⟨r', hr', (hσ' r').mp hagrees⟩

/-- `next` is what stands in the row behind the current one before the pass. -/
theorem stocksOf {row row' next next' r : Row} (hrow : SameAlong f s s' row row')
    (hnext : SameAlong f s s' next next') (hrun : s.stocksOf row next = .ok r) :
    ∃ r', s'.stocksOf row' next' = .ok r' ∧ SameAlong f s s' r r' := by
  have hval : ∀ {k k' v v' n n'}, model.vars[k]? = some v → v.name = some n →
      model'.vars[k']? = some v' → v'.name = some n' → f n = some n' → v.Alike f v' →
      [k + 1] ∈ s.stockLeaves → s'.stockValue row' [k' + 1] = .ok (r (s.col [k + 1])) :=
    fun hv hn hv' hn' hf halike hk => by
      rw [← h.stockValue_eq hrow hv hv' halike (h.col_eq hrow hv hn hv' hn' hf),
        stocksOf_value h.left.sim.built hrun hk]
  obtain ⟨r', hrun'⟩ : ∃ r', s'.stocksOf row' next' = .ok r' := by
    refine Assign.run_ok (fun p hp _ => ?_) _
    obtain ⟨av, hav, -, -, -, hne⟩ := stockLeaf h.right.sim.built hp
    obtain ⟨k', v', rfl, hv', -⟩ := h.right.leaf_var hav hne
    obtain ⟨n', hn'⟩ := Option.ne_none_iff_exists'.mp
      (h.right.named.name v' (List.mem_of_getElem? hv'))
    obtain ⟨k, v, n, hv, hn, hf, halike⟩ := h.var_left hv' hn'
    exact ⟨_, hval hv hn hv' hn' hf halike ((h.mem_stockLeaves hv hv' halike).mpr hp)⟩
  refine ⟨r', hrun', h.sameAlong_of ?_ fun k k' v v' n n' hv hn hv' hn' hf halike => ?_⟩
  · rw [stocksOf_frame h.left.sim.built hrun (.inl rfl),
      stocksOf_frame h.right.sim.built hrun' (.inl rfl), h.time_eq hnext]
  · by_cases hk : [k + 1] ∈ s.stockLeaves
    · have hval' := stocksOf_value h.right.sim.built hrun' ((h.mem_stockLeaves hv hv' halike).mp hk)
      exact Except.ok.inj ((hval hv hn hv' hn' hf halike hk).symm.trans hval')
    · rw [h.left.stocksOf_left hrun hv hk,
        h.right.stocksOf_left hrun' hv' (mt (h.mem_stockLeaves hv hv' halike).mpr hk),
        h.col_eq hnext hv hn hv' hn' hf]

theorem updateTime {row row' : Row} (hrow : SameAlong f s s' row row') (x : ℚ) :
    SameAlong f s s' (Function.update row TIME x) (Function.update row' TIME x) := by
  refine h.sameAlong_of (by simp) fun k k' v v' n n' hv hn hv' hn' hf _ => ?_
  rw [Function.update_of_ne (h.left.col_ne_time hv),
    Function.update_of_ne (h.right.col_ne_time hv')]
  exact h.col_eq hrow hv hn hv' hn' hf

/-- What is copied over the current row when it is not to be kept. -/
theorem copied {row row' next next' : Row} (hnext : SameAlong f s s' next next') :
    SameAlong f s s' (fun c => if c < s.nvars then next c else row c)
      fun c => if c < s'.nvars then next' c else row' c := by
  intro i i' av av' n n' hav hn hav' hn' hf
  simp only [if_pos (col_lt h.left.sim.built [i]), if_pos (col_lt h.right.sim.built [i'])]
  exact hnext i i' av av' n n' hav hn hav' hn' hf

end Linkable

theorem FlatOf.value_of_not_has {model : SDModel} {s : SDSim} (h : FlatOf model s)
    {slab : Nat → Row} {j m : Nat} {name : CStr} (hname : ¬ model.Has (skipDot name)) :
    sdSimGetValue (s.moved slab j m) (some name) = .error (.err .unspecified) := by
  have hres : resolve s.root (some name) = .ok none := by
    have hfind := mt h.named.find_ne_none_iff.mp hname
    rw [not_not, h.named.find_eq, Option.map_eq_none_iff] at hfind
    rw [h.resolve_eq, h.root, hfind]
    rfl
  have htime : name ≠ cstr "time" := by
    rintro rfl
    exact hname (.inl (by decide +kernel))
  simp only [sdSimGetValue, if_neg htime, SDSim.moved, hres, bind, Except.bind]

/-! ### Whole runs -/

/-- Two simulations that have been set up, with the same numbers of steps and rows. -/
structure Paired (f : CStr → Option CStr) (model model' : SDModel) (s s' : SDSim) : Prop
    extends Linkable f model model' s s' where
  reset : IsReset s
  reset' : IsReset s'
  bounded : s.env.bounded = false

/-- The two simulations at the same point of their runs, with slabs that hold the same. -/
def Lockstep (f : CStr → Option CStr) (s s' t t' : SDSim) : Prop :=
  ∃ slab slab' j m, t = s.moved slab j m ∧ t' = s'.moved slab' j m ∧
    ∀ i, SameAlong f s s' (slab i) (slab' i)

theorem sameAlong_update {f : CStr → Option CStr} {s s' : SDSim} {slab slab' : Nat → Row}
    (hslab : ∀ i, SameAlong f s s' (slab i) (slab' i)) {m : Nat} {row row' : Row}
    (hrow : SameAlong f s s' row row') (i : Nat) :
    SameAlong f s s' (Function.update slab m row i) (Function.update slab' m row' i) := by
  by_cases hi : i = m
  · subst hi
    simpa only [Function.update_self] using hrow
  · simpa only [Function.update_of_ne hi] using hslab i

namespace Paired

variable {f : CStr → Option CStr} {model model' : SDModel} {s s' t t' : SDSim}
  (h : Paired f model model' s s')
include h

theorem clock : s'.nsteps = s.nsteps ∧ s'.saveEvery = s.saveEvery ∧ s'.nsaves = s.nsaves := by
  have hn := h.reset'.nsteps
  rw [h.spec] at hn
  have hsteps : s'.nsteps = s.nsteps := Except.ok.inj (hn.symm.trans h.reset.nsteps)
  obtain ⟨n, hn, hevery⟩ := h.reset.saveEvery
  obtain ⟨n', hn', hevery'⟩ := h.reset'.saveEvery
  rw [h.spec] at hn'
  obtain rfl := Except.ok.inj (hn'.symm.trans hn)
  have he : s'.saveEvery = s.saveEvery := hevery'.trans hevery.symm
  exact ⟨hsteps, he, by rw [h.reset'.nsaves, h.reset.nsaves, he, hsteps]⟩

theorem bounded' : s'.env.bounded = false := by rw [h.env, h.bounded]

theorem lockstep_reset : Lockstep f s s' s s' := by
  obtain ⟨row, hrow, hsame⟩ := h.initialsOf h.reset.initial
  rw [Except.ok.inj (hrow.symm.trans h.reset'.initial)] at hsame
  refine ⟨s.slab, s'.slab, 0, 0, h.reset.eq_moved, h.reset'.eq_moved, fun i => ?_⟩
  cases i with
  | zero => exact hsame
  | succ i =>
    intro j j' av av' n n' _ _ _ _ _
    rw [h.reset.rest (i + 1) (by omega), h.reset'.rest (i + 1) (by omega)]

/-- The move to the next step. -/
theorem advanced {slab slab' : Nat → Row} (hslab : ∀ i, SameAlong f s s' (slab i) (slab' i))
    (j m : Nat) : Lockstep f s s' (s.advanced slab j m) (s'.advanced slab' j m) := by
  have htime : s'.timeAt (j + 1) = s.timeAt (j + 1) := by simp [SDSim.timeAt, h.spec]
  have hnext := h.updateTime (hslab (m + 1)) (s.timeAt (j + 1))
  have hrows := sameAlong_update hslab (m := m + 1) hnext
  unfold SDSim.advanced
  rw [h.clock.2.1, htime]
  by_cases hkeep : j % s.saveEvery ≠ 0
  · simp only [if_pos hkeep]
    exact ⟨_, _, _, _, rfl, rfl, sameAlong_update hrows (h.copied hnext)⟩
  · simp only [if_neg hkeep]
    exact ⟨_, _, _, _, rfl, rfl, hrows⟩

/-- The two passes of a step. -/
theorem passes {slab slab' : Nat → Row} (hslab : ∀ i, SameAlong f s s' (slab i) (slab' i))
    {m : Nat} {row next : Row} (hflows : s.flowsOf (slab m) = .ok row)
    (hstocks : s.stocksOf row (slab (m + 1)) = .ok next) :
    ∃ row' next', s'.flowsOf (slab' m) = .ok row' ∧
      s'.stocksOf row' (slab' (m + 1)) = .ok next' ∧
      ∀ i, SameAlong f s s' (Function.update (Function.update slab m row) (m + 1) next i)
        (Function.update (Function.update slab' m row') (m + 1) next' i) := by
  obtain ⟨row', hflows', hrow⟩ := h.flowsOf (hslab m) hflows
  obtain ⟨next', hstocks', hnext⟩ := h.stocksOf hrow (hslab (m + 1)) hstocks
  exact ⟨row', next', hflows', hstocks', sameAlong_update (sameAlong_update hslab hrow) hnext⟩

theorem runLoop {stop : ℚ} {fuel : Nat} (ht : Lockstep f s s' t t') {u : SDSim}
    (hrun : SDSim.runLoop stop fuel t = .ok u) :
    ∃ u', SDSim.runLoop stop fuel t' = .ok u' ∧ Lockstep f s s' u u' := by
  induction fuel generalizing t t' with
  | zero =>
    obtain rfl := Except.ok.inj hrun
    exact ⟨t', rfl, ht⟩
  | succ fuel ih =>
    obtain ⟨slab, slab', j, m, rfl, rfl, hslab⟩ := ht
    rw [runLoop_eq h.bounded h.left.sim.built] at hrun
    rw [runLoop_eq h.bounded' h.right.sim.built, h.clock.1, ← h.time_eq (hslab m)]
    by_cases hgo : j < s.nsteps ∧ slab m TIME ≤ stop
    · rw [if_pos hgo] at hrun ⊢
      obtain ⟨row, hflows, hrun⟩ := bind_eq_ok hrun
      obtain ⟨next, hstocks, hrun⟩ := bind_eq_ok hrun
      obtain ⟨row', next', hflows', hstocks', hrows⟩ := h.passes hslab hflows hstocks
      simp only [hflows', hstocks', bind, Except.bind]
      by_cases hlast : j + 1 = s.nsteps
      · rw [if_pos hlast] at hrun ⊢
        obtain rfl := Except.ok.inj hrun
        exact ⟨_, rfl, _, _, j, m, rfl, rfl, hrows⟩
      · rw [if_neg hlast] at hrun ⊢
        exact ih (h.advanced hrows j m) hrun
    · rw [if_neg hgo] at hrun ⊢
      obtain rfl := Except.ok.inj hrun
      exact ⟨_, rfl, slab, slab', j, m, rfl, rfl, hslab⟩

theorem call {c : Call} (ht : Lockstep f s s' t t') {u : SDSim} (hrun : t.call c = .ok u) :
    ∃ u', t'.call c = .ok u' ∧ Lockstep f s s' u u' := by
  obtain ⟨slab, slab', j, m, rfl, rfl, hslab⟩ := ht
  have hrunTo : ∀ {stop : ℚ}, sdSimRunTo (s.moved slab j m) stop = .ok u →
      ∃ u', sdSimRunTo (s'.moved slab' j m) stop = .ok u' ∧ Lockstep f s s' u u' := by
    intro stop hrun
    rw [sdSimRunTo, show (s'.moved slab' j m).nsteps = s.nsteps from h.clock.1]
    exact h.runLoop ⟨slab, slab', j, m, rfl, rfl, hslab⟩ hrun
  cases c with
  | runTo stop => exact hrunTo hrun
  | runToEnd =>
    have hend : (s'.moved slab' j m).spec.stop = s.spec.stop := congrArg SimSpec.stop h.spec
    rw [SDSim.call, sdSimRunToEnd, hend]
    exact hrunTo hrun
  | reset =>
    have hreset := h.reset.reset_of_same (moved_sameSetup slab j m)
    have hreset' := h.reset'.reset_of_same (moved_sameSetup slab' j m)
    obtain rfl := Except.ok.inj (hreset.symm.trans hrun)
    exact ⟨s', hreset', h.lockstep_reset⟩

theorem calls {cs : List Call} (ht : Lockstep f s s' t t') {u : SDSim}
    (hrun : t.calls cs = .ok u) : ∃ u', t'.calls cs = .ok u' ∧ Lockstep f s s' u u' := by
  induction cs generalizing t t' with
  | nil =>
    obtain rfl := Except.ok.inj hrun
    exact ⟨t', rfl, ht⟩
  | cons c cs ih =>
    obtain ⟨v, hc, hrun⟩ := bind_eq_ok hrun
    obtain ⟨v', hc', hv⟩ := h.call ht hc
    obtain ⟨u', hcs', hu⟩ := ih hv hrun
    refine ⟨u', ?_, hu⟩
    simp only [SDSim.calls, hc', bind, Except.bind, hcs']

/-! ### What is read for a name -/

theorem reads (ht : Lockstep f s s' t t') {n n' : CStr} (hf : f (skipDot n) = some (skipDot n')) :
    sdSimGetValue t' (some n') = sdSimGetValue t (some n) ∧
      ∀ len, sdSimGetSeries t' (some n') len = sdSimGetSeries t (some n) len := by
  obtain ⟨slab, slab', j, m, rfl, rfl, hslab⟩ := ht
  by_cases hname : model.Has (skipDot n)
  · have hname' := (h.translates.has_iff hf).mp hname
    obtain ⟨i, av, hav, hn⟩ := SDModel.has_iff.mp hname
    obtain ⟨i', av', hav', hn'⟩ := SDModel.has_iff.mp hname'
    have hres : resolve s.root (some n) = .ok (some [i]) := by
      rw [h.left.resolve_eq, h.left.root, h.left.named.nameIndex_iff.mpr ⟨av, hav, hn⟩]
      rfl
    have hres' : resolve s'.root (some n') = .ok (some [i']) := by
      rw [h.right.resolve_eq, h.right.root, h.right.named.nameIndex_iff.mpr ⟨av', hav', hn'⟩]
      rfl
    have hcol : ∀ k, slab k (s.col [i]) = slab' k (s'.col [i']) := fun k =>
      hslab k i i' av av' _ _ (h.left.root ▸ hav) hn (h.right.root ▸ hav') hn' hf
    have hread := readsColumn_of_resolve h.left.sim.built hres slab j m
    have hread' := readsColumn_of_resolve h.right.sim.built hres' slab' j m
    refine ⟨by rw [hread.1, hread'.1, hcol], fun len => ?_⟩
    rw [hread.2, hread'.2, SDSim.series, SDSim.series,
      show (s'.moved slab' j m).nsaves = s.nsaves from h.clock.2.2,
      show (s.moved slab j m).nsaves = s.nsaves from rfl]
    exact congrArg Except.ok (List.map_congr_left fun k _ => (hcol k).symm)
  · have hname' := mt (h.translates.has_iff hf).mpr hname
    refine ⟨?_, fun len => ?_⟩
    · rw [h.left.value_of_not_has hname, h.right.value_of_not_has hname']
    · rw [h.left.series_of_not_has len hname, h.right.series_of_not_has len hname']

end Paired

end Libsd

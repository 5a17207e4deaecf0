/-
  Libsd/Euler.lean
  ================
  **Euler integration of a model without modules, as a specification.**

  A trajectory gives every variable a value at every step, by name.  `Euler` says
  what the model demands of it: the time of each step, the initial values, the flows
  and auxiliaries of each step, and the stocks of the next.  The rows of a
  simulation are the one trajectory that meets it (`euler_rows`).
-/
import Libsd.CallArgs
import Libsd.CompleteRow
import Libsd.FlatRows
import Libsd.Values

namespace Libsd

open Outcome

/-- The value a variable has by its equation and table. -/
def Var.value (env : Env) (dt : ℚ) (σ : CStr → ℚ) (v : Var) : ℚ :=
  tableValue v.gf (v.tree.value env dt (σ (cstr "time")) σ)

/-- The inflows less the outflows, by name. -/
def Var.netFlow (σ : CStr → ℚ) (v : Var) : ℚ :=
  (v.inflows.map fun n => σ (skipDot n)).sum - (v.outflows.map fun n => σ (skipDot n)).sum

/-- What the model demands of a trajectory. -/
structure Euler (env : Env) (specs : SimSpec) (model : SDModel) (σ : Nat → CStr → ℚ) : Prop where
  time : ∀ j, σ j (cstr "time") = specs.start + j * specs.dt
  initial : ∀ v ∈ model.vars, ∀ name, v.name = some name → σ 0 name = v.value env specs.dt (σ 0)
  flow : ∀ j, ∀ v ∈ model.vars, ∀ name, v.name = some name → v.type = .flow ∨ v.type = .aux →
    σ j name = v.value env specs.dt (σ j)
  stock : ∀ j, ∀ v ∈ model.vars, ∀ name, v.name = some name → v.type = .stock →
    σ (j + 1) name = σ j name + specs.dt * v.netFlow (σ j)

/-! ### Everything a trajectory needs has a value -/

/-- The variable or the function that a node names is there. -/
def SDModel.Knows (model : SDModel) : Node → Prop
  | .ident s _ => model.Has (skipDot s)
  | .call l _ _ => ∃ s fn, l.sval = some s ∧ RT_FNS.lookup s = some fn
  | _ => True

/-- A model without modules that names nothing but its own variables, `time` and the
    runtime functions.  Its variables have names, all of them different and none `time`, and
    its tables have points. -/
structure SDModel.SelfContained (model : SDModel) : Prop where
  flat : model.Flat
  named : model.Named
  knows : ∀ v ∈ model.vars, v.tree.Everywhere model.Knows
  filled : ∀ v ∈ model.vars, ∀ t, v.gf = some t → t.Filled

/-- Such a model that has no table on a number. -/
structure SDModel.Closed (model : SDModel) : Prop extends model.SelfContained where
  consts : ∀ v ∈ model.vars, v.tree.isFloatlit = true → v.gf = none

/-- A simulation whose equations all have values at every step. -/
structure Calculable (model : SDModel) (s : SDSim) : Prop where
  reset : IsReset s
  of : FlatOf model s
  contained : model.SelfContained
  argsFit : ∀ v ∈ model.vars, v.tree.Everywhere Node.ArgsFit

/-- The constants of such a simulation keep their values. -/
structure Evaluable (model : SDModel) (s : SDSim) : Prop extends Calculable model s where
  consts : ∀ v ∈ model.vars, v.tree.isFloatlit = true → v.gf = none

theorem foldl_add (l : List ℚ) (a : ℚ) : l.foldl (fun x y => x + y) a = a + l.sum := by
  induction l generalizing a with
  | nil => simp
  | cons x l ih =>
    rw [List.foldl_cons, ih, List.sum_cons]
    ring

theorem foldl_sub (l : List ℚ) (a : ℚ) : l.foldl (fun x y => x - y) a = a - l.sum := by
  induction l generalizing a with
  | nil => simp
  | cons x l ih =>
    rw [List.foldl_cons, ih, List.sum_cons]
    ring

namespace Calculable

variable {model : SDModel} {s : SDSim} (h : Calculable model s)
include h

/-! ### Evaluation on a row is evaluation by name -/

section
variable {row : Row} {σ : CStr → ℚ} (hσ : s.Agrees row σ) {k : Nat} {v : Var}
  (hv : model.vars[k]? = some v)
include hσ hv

theorem eval_var : s.eval row (s.store [k + 1]).node =
    .ok (v.tree.value s.env s.spec.dt (σ (cstr "time")) σ) := by
  have hmem := List.mem_of_getElem? hv
  obtain ⟨-, -, -, hpresent, hnode, -⟩ := h.of.compiled hv
  have hall := (hpresent.and (h.contained.knows v hmem)).and (h.argsFit v hmem)
  rw [SDSim.eval, hnode, h.of.agrees_time hσ]
  refine svisit_link (fun name p hp => h.of.read_find hσ hp) (hall.imp fun m hm => ?_)
  obtain ⟨⟨hp, hk⟩, ha⟩ := hm
  cases m with
  | ident name av => exact h.contained.named.find_ne_none_iff.mpr hk
  | call l args fn =>
    obtain ⟨f, g, hl, hg⟩ := hk
    exact ⟨⟨g, by simp [hl, hg]⟩, ha⟩
  | null => exact hp
  | paren => trivial
  | floatlit => trivial
  | binary => trivial
  | unary => trivial
  | ifElse => trivial

theorem calcValue_var : s.calcValue row [k + 1] = .ok (v.value s.env s.spec.dt σ) := by
  have hgf : s.gfAt [k + 1] = v.gf := by simp [SDSim.gfAt, h.of.avarAt_var hv, AVar.v]
  simp only [SDSim.calcValue, h.eval_var hσ hv, hgf, Var.value, bind, Except.bind]
  cases ht : v.gf with
  | none => rfl
  | some t => exact tableValue_ok t _

theorem netFlow_var : s.netFlow row [k + 1] = v.netFlow σ := by
  obtain ⟨-, -, -, -, -, -, hin, hout⟩ := h.of.compiled hv
  rw [SDSim.netFlow, h.of.foldl_read hσ (fun x y => x + y) hin,
    h.of.foldl_read hσ (fun x y => x - y) hout, Var.netFlow, foldl_sub,
    foldl_add, zero_add]

/-- The value `calc_stocks` stores for a stock. -/
theorem stockValue_stock (ht : v.type = .stock) :
    s.stockValue row [k + 1] = .ok (row (s.col [k + 1]) + v.netFlow σ * s.spec.dt) := by
  have htype : s.typeAt [k + 1] = some .stock := by
    simp [SDSim.typeAt, h.of.avarAt_var hv, AVar.v, ht]
  simp only [SDSim.stockValue, htype, h.netFlow_var hσ hv]

/-- What it stores for a constant is the number. -/
theorem stockValue_const (ht : v.type = .flow ∨ v.type = .aux) :
    s.stockValue row [k + 1] = .ok (v.tree.value s.env s.spec.dt (σ (cstr "time")) σ) := by
  have htype : s.typeAt [k + 1] = some v.type := by
    simp [SDSim.typeAt, h.of.avarAt_var hv, AVar.v]
  rw [← h.eval_var hσ hv, SDSim.stockValue, htype]
  rcases ht with ht | ht <;> rw [ht]

theorem stockValue_ok : ∃ x, s.stockValue row [k + 1] = .ok x := by
  rcases h.of.type_cases hv with ht | ht
  · exact ⟨_, h.stockValue_stock hσ hv ht⟩
  · exact ⟨_, h.stockValue_const hσ hv ht⟩

end

/-! ### Every row can be calculated -/

theorem flowsOf_ok (row : Row) : ∃ row', s.flowsOf row = .ok row' := by
  refine Assign.run_ok (fun p hp d => ?_) row
  obtain ⟨av, hav, -, -, -, hne, -⟩ := flowLeaf h.reset.built hp
  obtain ⟨k, v, rfl, hv, -⟩ := h.of.leaf_var hav hne
  obtain ⟨σ, hσ⟩ := h.of.exists_agrees d
  exact ⟨_, h.calcValue_var hσ hv⟩

theorem stocksOf_ok (row next : Row) : ∃ next', s.stocksOf row next = .ok next' := by
  refine Assign.run_ok (fun p hp _ => ?_) next
  obtain ⟨av, hav, -, -, -, hne⟩ := stockLeaf h.reset.built hp
  obtain ⟨k, v, rfl, hv, -⟩ := h.of.leaf_var hav hne
  obtain ⟨σ, hσ⟩ := h.of.exists_agrees row
  exact h.stockValue_ok hσ hv

theorem fullRow_ok (j : Nat) : ∃ row, s.fullRow (s.slab 0) j = .ok row := by
  induction j with
  | zero => exact h.flowsOf_ok _
  | succ j ih =>
    obtain ⟨row, hrow⟩ := ih
    obtain ⟨next, hnext⟩ := h.stocksOf_ok row fun _ => 0
    obtain ⟨row', hrow'⟩ := h.flowsOf_ok (Function.update next TIME (s.timeAt (j + 1)))
    refine ⟨row', ?_⟩
    simp only [SDSim.fullRow, SDSim.nextRow, hrow, hnext, bind, Except.bind, pure, Except.pure,
      hrow']

theorem steps (j : Nat) : Steps s j := by
  obtain ⟨row, hrow⟩ := h.fullRow_ok j
  obtain ⟨next, hnext⟩ := h.stocksOf_ok row fun _ => 0
  exact ⟨row, next, hrow, hnext⟩

/-! ### One step -/

/-- The row of the first step is the initial one. -/
theorem fullRow_zero {row : Row} (hrow : s.fullRow (s.slab 0) 0 = .ok row) : row = s.slab 0 :=
  Except.ok.inj (hrow.symm.trans (flowsOf_initial h.of.sim h.reset))

theorem time_eq {j : Nat} {row : Row} (hrow : s.fullRow (s.slab 0) j = .ok row) :
    row TIME = s.spec.start + j * s.spec.dt :=
  (fullRow_frame h.reset.built h.reset.time h.reset.high hrow).1

section
variable {j : Nat} {row row' : Row} {σ : CStr → ℚ} (hrow : s.fullRow (s.slab 0) j = .ok row)
  (hrow' : s.fullRow (s.slab 0) (j + 1) = .ok row') (hσ : s.Agrees row σ)
include hrow hrow'

/-- What the row of the next step holds for a variable that `calc_stocks` stores. -/
theorem stock_next {k : Nat} {v : Var} (hv : model.vars[k]? = some v)
    (hmem : [k + 1] ∉ s.flowLeaves) :
    s.stockValue row [k + 1] = .ok (row' (s.col [k + 1])) := by
  obtain ⟨pre, hpre, hflows⟩ := Libsd.fullRow_ok hrow'
  obtain ⟨full, next, hfull, hnext, rfl⟩ := preRow_succ_ok hpre
  obtain rfl := Except.ok.inj (hfull.symm.trans hrow)
  rw [h.of.flowsOf_left hflows hv hmem, Function.update_of_ne (h.of.col_ne_time hv)]
  exact stocksOf_value h.reset.built hnext ((h.of.mem_stockLeaves_iff hv).mpr hmem)

include hσ

theorem stock_step {k : Nat} {v : Var} (hv : model.vars[k]? = some v) (ht : v.type = .stock) :
    row' (s.col [k + 1]) = row (s.col [k + 1]) + s.spec.dt * v.netFlow σ := by
  have hmem : [k + 1] ∉ s.flowLeaves := fun hm => ((h.of.mem_flowLeaves_iff hv).mp hm).1 ht
  have hval := h.stock_next hrow hrow' hv hmem
  rw [h.stockValue_stock hσ hv ht] at hval
  rw [← Except.ok.inj hval, mul_comm]

end

end Calculable

namespace Evaluable

variable {model : SDModel} {s : SDSim} (h : Evaluable model s)
include h

/-- A constant keeps its number, whatever the other values are. -/
theorem const_step {j : Nat} {row row' : Row} {σ : CStr → ℚ}
    (hrow : s.fullRow (s.slab 0) j = .ok row) (hrow' : s.fullRow (s.slab 0) (j + 1) = .ok row')
    (hσ : s.Agrees row σ) {k : Nat} {v : Var} (hv : model.vars[k]? = some v)
    (ht : v.type = .flow ∨ v.type = .aux) (hmem : [k + 1] ∉ s.flowLeaves) (τ : CStr → ℚ) :
    row' (s.col [k + 1]) = v.value s.env s.spec.dt τ := by
  have hlit : v.tree.isFloatlit = true := by
    by_contra hlit
    refine hmem ((h.of.mem_flowLeaves_iff hv).mpr ⟨?_, by simpa using hlit⟩)
    rcases ht with ht | ht <;> simp [ht]
  have hval := h.stock_next hrow hrow' hv hmem
  rw [h.stockValue_const hσ hv ht] at hval
  rw [← Except.ok.inj hval, Var.value, h.consts v (List.mem_of_getElem? hv) hlit]
  cases htree : v.tree <;> simp_all [Node.isFloatlit, Node.value, tableValue]

/-! ### The rows are the one trajectory -/

/-- The rows of the simulation, by name, are a trajectory. -/
theorem exists_euler : ∃ σ, Euler s.env s.spec model σ := by
  have hrows : ∀ j, ∃ σ row, s.fullRow (s.slab 0) j = .ok row ∧ s.Agrees row σ := fun j => by
    obtain ⟨row, hrow⟩ := h.fullRow_ok j
    obtain ⟨σ, hσ⟩ := h.of.exists_agrees row
    exact ⟨σ, row, hrow, hσ⟩
  choose σ row hrow hσ using hrows
  refine ⟨σ, ⟨fun j => ?_, fun v hv name hname => ?_, fun j v hv name hname ht => ?_,
    fun j v hv name hname ht => ?_⟩⟩
  · rw [← h.of.agrees_time (hσ j), h.time_eq (hrow j)]
  · obtain ⟨k, hk⟩ := List.getElem?_of_mem hv
    have hval := h.of.initialsOf_value h.reset.initial hk
    rw [← h.fullRow_zero (hrow 0), h.calcValue_var (hσ 0) hk] at hval
    rw [← h.of.agrees_var (hσ 0) hk hname, ← Except.ok.inj hval]
  · obtain ⟨k, hk⟩ := List.getElem?_of_mem hv
    rw [← h.of.agrees_var (hσ j) hk hname]
    by_cases hmem : [k + 1] ∈ s.flowLeaves
    · obtain ⟨pre, -, hflows⟩ := Libsd.fullRow_ok (hrow j)
      have hval := h.of.flowsOf_value hflows hmem
      rw [h.calcValue_var (hσ j) hk] at hval
      exact (Except.ok.inj hval).symm
    · cases j with
      | zero =>
        have hval := h.of.initialsOf_value h.reset.initial hk
        rw [← h.fullRow_zero (hrow 0), h.calcValue_var (hσ 0) hk] at hval
        exact (Except.ok.inj hval).symm
      | succ j => exact h.const_step (hrow j) (hrow (j + 1)) (hσ j) hk ht hmem _
  · obtain ⟨k, hk⟩ := List.getElem?_of_mem hv
    rw [← h.of.agrees_var (hσ j) hk hname, ← h.of.agrees_var (hσ (j + 1)) hk hname,
      h.stock_step (hrow j) (hrow (j + 1)) (hσ j) hk ht]

/-- A trajectory agrees with the rows of the simulation. -/
theorem agrees_of_euler {σ : Nat → CStr → ℚ} (hσ : Euler s.env s.spec model σ) {j : Nat} {row : Row}
    (hrow : s.fullRow (s.slab 0) j = .ok row) : s.Agrees row (σ j) := by
  induction j generalizing row with
  | zero =>
    obtain rfl := h.fullRow_zero hrow
    have hpass := h.of.initialsOf_agrees (σ 0)
      (fun k v name hv hname row hrow => by
        rw [h.calcValue_var hrow hv, hσ.initial v (List.mem_of_getElem? hv) name hname])
      (by rw [hσ.time 0, h.reset.spec, Nat.cast_zero, zero_mul, add_zero])
    obtain ⟨row', hrun, hagrees⟩ := hpass
    obtain rfl := Except.ok.inj (hrun.symm.trans h.reset.initial)
    exact hagrees
  | succ j ih =>
    obtain ⟨full, hfull⟩ := h.fullRow_ok j
    have hagrees := ih hfull
    obtain ⟨pre, -, hflows⟩ := Libsd.fullRow_ok hrow
    have htime : pre TIME = σ (j + 1) (cstr "time") := by
      rw [← flowsOf_frame h.reset.built hflows (.inl rfl), h.time_eq hrow, hσ.time]
    have hpass := h.of.flowsOf_agrees pre (σ (j + 1))
      (fun k v name hv hname hmem r hr => by
        rw [h.calcValue_var hr hv]
        have ht := (h.of.type_cases hv).resolve_left ((h.of.mem_flowLeaves_iff hv).mp hmem).1
        rw [hσ.flow (j + 1) v (List.mem_of_getElem? hv) name hname ht])
      htime fun k v name hv hname hmem => by
        rw [← h.of.flowsOf_left hflows hv hmem]
        rcases h.of.type_cases hv with ht | ht
        · rw [h.stock_step hfull hrow hagrees hv ht, h.of.agrees_var hagrees hv hname,
            hσ.stock j v (List.mem_of_getElem? hv) name hname ht]
        · rw [h.const_step hfull hrow hagrees hv ht hmem (σ (j + 1)),
            hσ.flow (j + 1) v (List.mem_of_getElem? hv) name hname ht]
    obtain ⟨row', hrun, hagrees'⟩ := hpass
    obtain rfl := Except.ok.inj (hrun.symm.trans hflows)
    exact hagrees'

end Evaluable

/-- In a model without modules, after a run to the end row `i` of the slab holds the
    values after `i * save_every` steps of Euler integration. -/
theorem euler_rows {env : Env} {p : SDProject} {name : Option CStr} {specs : SimSpec}
    {model : SDModel} {s : SDSim} (hb : env.bounded = false)
    (hmodel : sdProjectGetModel p name = some (specs, model)) (hclosed : model.Closed)
    (hargs : ∀ v ∈ model.vars, v.tree.Everywhere Node.ArgsFit)
    (hnew : sdSimNew env p name = .ok s)
    (hf : 0 < specs.dt ∨ specs.start ≤ specs.stop + 1 ∨ s.nsaves ≤ 1) :
    ∃ t, sdSimRunToEnd s = .ok t ∧ (∃ σ, Euler env specs model σ) ∧
      ∀ σ, Euler env specs model σ → ∀ i < s.nsaves,
        t.slab i TIME = σ (i * s.saveEvery) (cstr "time") ∧
        ∀ k v n, model.vars[k]? = some v → v.name = some n →
          t.slab i (s.col [k + 1]) = σ (i * s.saveEvery) n := by
  obtain ⟨hreset, rfl⟩ := sdSimNew_isReset hnew
  have hspec : s.spec = specs := by
    obtain ⟨specs', model', s0, hmodel', hbuilt, -, hs0, hr⟩ := sdSimNew_cases hnew
    obtain ⟨-, hsame⟩ := sdSimReset_isReset hbuilt.wellBuilt hr
    obtain ⟨rfl, -⟩ := Prod.mk.inj (Option.some.inj (hmodel.symm.trans hmodel'))
    rw [hreset.spec, hsame.simSpecs, hs0]
  subst hspec
  have h : Evaluable model s :=
    ⟨⟨hreset, sdSimNew_flatOf hnew hmodel hclosed.flat hclosed.named, hclosed.toSelfContained,
      hargs⟩, hclosed.consts⟩
  obtain ⟨t, ht⟩ := (atStep_isReset hreset).runToEnd_ok hreset hb fun i _ _ => h.steps i
  refine ⟨t, ht, h.exists_euler, fun τ hτ i hi => ?_⟩
  have hrow : s.fullRow (s.slab 0) (i * s.saveEvery) = .ok (t.slab i) := by
    by_cases hfwd : Forward s
    · exact runToEnd_row hreset hb hfwd ht hi
    · -- no step is taken, and only the initial row is kept
      have hle : s.nsaves ≤ 1 := by
        rcases hf with hf | hf | hf
        · exact absurd (.inl hf) hfwd
        · exact absurd (.inr hf) hfwd
        · exact hf
      obtain rfl : i = 0 := by omega
      obtain rfl := Except.ok.inj ((runToEnd_stay hreset hb hfwd).symm.trans ht)
      rw [Nat.zero_mul]
      exact flowsOf_initial h.of.sim hreset
  have hagrees := h.agrees_of_euler hτ hrow
  exact ⟨h.of.agrees_time hagrees, fun k v n hv hn => h.of.agrees_var hagrees hv hn⟩

/-! ### Models that meet the conditions, or all but one -/

/-- The model of `growth`. -/
def growthModel : SDModel :=
  { name := none, vars := [
    { Var.ofEquation .stock "population" "100" with inflows := [cstr "births"] },
    Var.ofEquation .flow "births" "population / 10"] }

theorem growthModel_trees : growthModel.vars.map Var.tree =
    [.floatlit (cstr "100") 0,
      .binary (rune '/') (.ident (cstr "population") none) (.floatlit (cstr "10") 0)] := by
  decide +kernel

theorem growthModel_closed : growthModel.Closed where
  flat := by unfold SDModel.Flat; decide
  named := ⟨by decide, by decide +kernel, by decide +kernel⟩
  knows v hv := by
    have htree : v.tree ∈ growthModel.vars.map Var.tree := List.mem_map_of_mem hv
    have hpop : growthModel.Has (skipDot (cstr "population")) :=
      .inr (by decide +kernel)
    simp only [growthModel_trees, List.mem_cons, List.not_mem_nil, or_false] at htree
    rcases htree with h | h <;> rw [h]
    · trivial
    · exact ⟨trivial, hpop, trivial⟩
  filled v hv t ht := by
    have hnone : ∀ v ∈ growthModel.vars, v.gf = none := by decide
    rw [hnone v hv] at ht
    cases ht
  consts v hv _ := by
    have hnone : ∀ v ∈ growthModel.vars, v.gf = none := by decide
    exact hnone v hv

theorem growthModel_argsFit : ∀ v ∈ growthModel.vars, v.tree.Everywhere Node.ArgsFit := by
  intro v hv
  have htree : v.tree ∈ growthModel.vars.map Var.tree := List.mem_map_of_mem hv
  simp only [growthModel_trees, List.mem_cons, List.not_mem_nil, or_false] at htree
  rcases htree with h | h <;> rw [h]
  · trivial
  · exact ⟨trivial, trivial, trivial⟩

theorem euler_rows_growth : ∃ s, sdSimNew (.plain false) (growth ⟨0, 4, 1, 2⟩) none = .ok s ∧
    1 < s.nsaves ∧ ∃ t, sdSimRunToEnd s = .ok t ∧
    (∃ σ, Euler (.plain false) ⟨0, 4, 1, 2⟩ growthModel σ) ∧
    ∀ σ, Euler (.plain false) ⟨0, 4, 1, 2⟩ growthModel σ → ∀ i < s.nsaves,
      t.slab i TIME = σ (i * s.saveEvery) (cstr "time") ∧
      ∀ k v n, growthModel.vars[k]? = some v → v.name = some n →
        t.slab i (s.col [k + 1]) = σ (i * s.saveEvery) n := by
  obtain ⟨s, hnew, hs⟩ := exists_ok (x := sdSimNew (.plain false) (growth ⟨0, 4, 1, 2⟩) none)
    (P := fun s => decide (1 < s.nsaves)) (by decide +kernel)
  exact ⟨s, hnew, by simpa using hs, euler_rows rfl rfl growthModel_closed growthModel_argsFit hnew
    (.inl (by decide))⟩

/-- An auxiliary that calls `max` with seven arguments, from time 1 on. -/
def sevenArgsModel : SDModel :=
  { name := none, vars := [
    Var.ofEquation .aux "x" "if time < 1 then 0 else max(1, 2, 3, 4, 5, 6, 7)"] }

def sevenArgs (simSpecs : SimSpec) : SDProject := .ofModels simSpecs [sevenArgsModel]

theorem sevenArgsModel_closed : sevenArgsModel.Closed where
  flat := by unfold SDModel.Flat; decide
  named := ⟨by decide, by decide +kernel, by decide +kernel⟩
  knows v hv := by
    have htime : skipDot (cstr "time") = cstr "time" := by decide +kernel
    have hmax : ∃ s fn, Node.sval (.ident (cstr "max") none) = some s ∧ RT_FNS.lookup s = some fn :=
      ⟨cstr "max", .max, rfl, by decide +kernel⟩
    have htree : sevenArgsModel.vars.map Var.tree =
        [.ifElse (.binary (rune '<') (.ident (cstr "time") none) (.floatlit (cstr "1") 0))
          (.floatlit (cstr "0") 0)
          (.call (.ident (cstr "max") none)
            (["1", "2", "3", "4", "5", "6", "7"].map fun t => .floatlit (cstr t) 0) none)] := by
      decide +kernel
    have hmem : v.tree ∈ sevenArgsModel.vars.map Var.tree := List.mem_map_of_mem hv
    rw [htree, List.mem_singleton] at hmem
    rw [hmem]
    exact ⟨trivial, ⟨trivial, .inl htime, trivial⟩, trivial, hmax, trivial, trivial,
      trivial, trivial,
      trivial, trivial, trivial, trivial⟩
  filled v hv t ht := by
    have hnone : ∀ v ∈ sevenArgsModel.vars, v.gf = none := by decide
    rw [hnone v hv] at ht
    cases ht
  consts v hv _ := by
    have hnone : ∀ v ∈ sevenArgsModel.vars, v.gf = none := by decide
    exact hnone v hv

/-- Time that moves backward from behind `stop + 1` is not followed, and a call with
    seven arguments is stored past the end of `args[6]`. -/
theorem euler_rows_fail :
    (∃ s t, growthModel.Closed ∧ sdSimNew (.plain false) (growth ⟨10, 0, -1, -1⟩) none = .ok s ∧
      sdSimRunToEnd s = .ok t ∧ 1 < s.nsaves ∧
        ∀ σ, Euler (.plain false) ⟨10, 0, -1, -1⟩ growthModel σ →
        t.slab 1 TIME ≠ σ (1 * s.saveEvery) (cstr "time")) ∧
    (∃ s, sevenArgsModel.Closed ∧ sdSimNew (.plain false) (sevenArgs ⟨0, 1, 1, 1⟩) none = .ok s ∧
      ∀ t, sdSimRunToEnd s ≠ .ok t) := by
  constructor
  · obtain ⟨⟨s, t⟩, h, hs⟩ := exists_ok
      (P := fun r : SDSim × SDSim => decide (1 < r.1.nsaves) && decide (r.1.saveEvery = 1) &&
        decide (r.2.slab 1 TIME = 0))
      (x := do
        let s ← sdSimNew (.plain false) (growth ⟨10, 0, -1, -1⟩) none
        let t ← sdSimRunToEnd s
        return (s, t)) (by decide +kernel)
    obtain ⟨s1, hnew, h⟩ := bind_eq_ok h
    obtain ⟨t1, hrun, h⟩ := bind_eq_ok h
    obtain ⟨rfl, rfl⟩ : s1 = s ∧ t1 = t := by simpa [pure, Except.pure] using h
    simp only [Bool.and_eq_true, decide_eq_true_eq] at hs
    obtain ⟨⟨hsaves, hevery⟩, hslab⟩ := hs
    refine ⟨s1, t1, growthModel_closed, hnew, hrun, hsaves, fun σ hσ => ?_⟩
    rw [hslab, hevery, hσ.time]
    norm_num
  · obtain ⟨s, h, hs⟩ := exists_ok (x := sdSimNew (.plain false) (sevenArgs ⟨0, 1, 1, 1⟩) none)
      (P := fun s => !(sdSimRunToEnd s).isOk) (by decide +kernel)
    refine ⟨s, sevenArgsModel_closed, h, fun t ht => ?_⟩
    rw [ht] at hs
    exact Bool.false_ne_true hs

end Libsd

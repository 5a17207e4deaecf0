/-
  Libsd/FlatRows.lean
  ===================
  **Rows of a model without modules, read by name.**

  A row of the slab gives each variable a value (`SDSim.Agrees`), and what an
  equation makes of the row depends on these values alone.  A pass over a list in
  order finds the values that satisfy its equations (`FlatOf.run_agrees`).
-/
import Libsd.FlatNames

namespace Libsd

/-- A simulation of a model without modules whose variables have different names. -/
structure FlatOf (model : SDModel) (s : SDSim) : Prop where
  sim : FlatSim s
  root : s.root = model.flatRoot
  named : model.Named

theorem BuiltFrom.flatOf {p : SDProject} {model : SDModel} {s : SDSim} (h : BuiltFrom p model s)
    (hflat : model.Flat) (hn : model.Named) : FlatOf model s := by
  have hroot := ((module_flat_iff hflat).mp h.root).1
  exact ⟨⟨h.wellBuilt, hroot ▸ SDModel.flatRoot_isModule⟩, hroot, hn⟩

theorem FlatOf.of_same {model : SDModel} {s s' : SDSim} (h : FlatOf model s)
    (hsame : SameSetup s s') :
    FlatOf model s' :=
  ⟨⟨hsame.wellBuilt h.sim.built, hsame.root ▸ h.sim.flat⟩, hsame.root.trans h.root, h.named⟩

/-- What `sd_sim_new` returns for such a model. -/
theorem sdSimNew_flatOf {env : Env} {p : SDProject} {name : Option CStr} {s : SDSim}
    {specs : SimSpec}
    {model : SDModel} (h : sdSimNew env p name = .ok s)
    (hmodel : sdProjectGetModel p name = some (specs, model)) (hflat : model.Flat)
    (hn : model.Named) :
    FlatOf model s := by
  obtain ⟨specs', model', s0, hmodel', hbuilt, -, -, hreset⟩ := sdSimNew_cases h
  obtain ⟨-, hsame⟩ := sdSimReset_isReset hbuilt.wellBuilt hreset
  obtain ⟨rfl, rfl⟩ := Prod.mk.inj (Option.some.inj (hmodel.symm.trans hmodel'))
  exact (hbuilt.flatOf hflat hn).of_same hsame

/-- The columns of a row hold the values that the variables have by name. -/
def SDSim.Agrees (s : SDSim) (row : Row) (σ : CStr → ℚ) : Prop :=
  ∀ (i : Nat) av name, s.root[i]? = some av → av.v.name = some name → row (s.col [i]) = σ name

namespace FlatOf

variable {model : SDModel} {s : SDSim} (h : FlatOf model s)
include h

theorem root_time : s.root[0]? = some (.var timeVar .null) := h.sim.built.time

theorem root_var {k : Nat} {v : Var} (hv : model.vars[k]? = some v) :
    s.root[k + 1]? = some (.var v v.tree) := by
  rw [h.root, SDModel.flatRoot_var hv]

theorem avarAt_eq (i : Nat) : avarAt s.root [i] = s.root[i]? := by
  rw [h.root, SDModel.avarAt_flatRoot]

theorem avarAt_var {k : Nat} {v : Var} (hv : model.vars[k]? = some v) :
    avarAt s.root [k + 1] = some (.var v v.tree) := by
  rw [h.avarAt_eq, h.root_var hv]

theorem root_cases {i : Nat} {av : AVar} (hav : s.root[i]? = some av) :
    (i = 0 ∧ av = .var timeVar .null) ∨
      ∃ k v, i = k + 1 ∧ model.vars[k]? = some v ∧ av = .var v v.tree :=
  SDModel.flatRoot_cases (h.root ▸ hav)

theorem leaf_var {p : Path} {av : AVar} (hav : avarAt s.root p = some av) (hne : p ≠ [0]) :
    ∃ k v, p = [k + 1] ∧ model.vars[k]? = some v ∧ av = .var v v.tree := by
  obtain ⟨i, rfl⟩ := h.sim.path hav
  rcases h.root_cases ((h.avarAt_eq i).symm.trans hav) with ⟨rfl, -⟩ | ⟨k, v, rfl, hv, hav⟩
  · exact absurd rfl hne
  · exact ⟨k, v, rfl, hv, hav⟩

theorem compiled {k : Nat} {v : Var} (hv : model.vars[k]? = some v) :
    v.type ≠ .ref ∧ v.eqn ≠ none ∧ v.tree.isNull = false ∧ v.tree.Everywhere Node.Present ∧
      (s.store [k + 1]).node = v.tree.link model.find ∧
      (s.store [k + 1]).directDeps = (s.store [k + 1]).node.idents ∧
      resolveAll (scopeAt model.flatRoot []) v.inflows = .ok (s.store [k + 1]).inflows ∧
      resolveAll (scopeAt model.flatRoot []) v.outflows = .ok (s.store [k + 1]).outflows :=
  compiled_flat h.named (h.root ▸ h.sim.built.compiled) hv

theorem hollow {k : Nat} {v : Var} (hv : model.vars[k]? = some v) : s.hollow [k + 1] = false := by
  obtain ⟨-, -, hnull, -, hnode, -⟩ := h.compiled hv
  rw [SDSim.hollow, hnode, Node.isNull_link, hnull]

theorem type_cases {k : Nat} {v : Var} (hv : model.vars[k]? = some v) :
    v.type = .stock ∨ v.type = .flow ∨ v.type = .aux := by
  have href := (h.compiled hv).1
  have hmodule : v.type ≠ .module := fun hm =>
    absurd ((h.sim.built.typed _ _ (h.avarAt_var hv)).isModule_iff.mpr hm) (by simp [AVar.isModule])
  cases ht : v.type <;> simp_all

/-! ### What is on the lists -/

theorem mem_initialLeaves {k : Nat} {v : Var} (hv : model.vars[k]? = some v) :
    [k + 1] ∈ s.initialLeaves := by
  refine h.sim.mem_initialLeaves.mpr ⟨_, h.avarAt_var hv, ?_, h.hollow hv⟩
  rcases h.type_cases hv with ht | ht | ht <;> simp [AVar.wants, AVar.v, ht]

theorem mem_flowLeaves_iff {k : Nat} {v : Var} (hv : model.vars[k]? = some v) :
    [k + 1] ∈ s.flowLeaves ↔ v.type ≠ .stock ∧ v.tree.isFloatlit = false := by
  rw [h.sim.mem_flowLeaves]
  constructor
  · rintro ⟨av, hav, hw, -⟩
    obtain rfl := Option.some.inj ((h.avarAt_var hv).symm.trans hav)
    rcases h.type_cases hv with ht | ht | ht
    · simp [AVar.wants, AVar.v, ht] at hw
    · simpa [AVar.wants, AVar.v, AVar.isConst, AVar.node, ht] using hw
    · simpa [AVar.wants, AVar.v, AVar.isConst, AVar.node, ht] using hw
  · rintro ⟨ht, hlit⟩
    refine ⟨_, h.avarAt_var hv, ?_, h.hollow hv⟩
    rcases h.type_cases hv with ht' | ht' | ht'
    · exact absurd ht' ht
    · simpa [AVar.wants, AVar.v, AVar.isConst, AVar.node, ht'] using hlit
    · simpa [AVar.wants, AVar.v, AVar.isConst, AVar.node, ht'] using hlit

/-- What is not calculated with the flows is stored with the stocks. -/
theorem mem_stockLeaves_iff {k : Nat} {v : Var} (hv : model.vars[k]? = some v) :
    [k + 1] ∈ s.stockLeaves ↔ [k + 1] ∉ s.flowLeaves := by
  rw [h.mem_flowLeaves_iff hv, h.sim.mem_stockLeaves]
  have hwants : (∃ av, avarAt s.root [k + 1] = some av ∧ av.wants .stocks = true) ↔
      (AVar.var v v.tree).wants .stocks = true := by
    rw [h.avarAt_var hv]
    simp
  rw [hwants]
  rcases h.type_cases hv with ht | ht | ht <;>
    simp [AVar.wants, AVar.v, AVar.isConst, AVar.node, ht]

/-! ### Rows and values by name -/

theorem agrees_time {row : Row} {σ : CStr → ℚ} (hσ : s.Agrees row σ) :
    row TIME = σ (cstr "time") := by
  have hcol : s.col [0] = TIME := h.sim.built.numbered.time.2
  rw [← hcol]
  exact hσ 0 _ _ h.root_time rfl

theorem agrees_var {row : Row} {σ : CStr → ℚ} (hσ : s.Agrees row σ) {k : Nat} {v : Var}
    {name : CStr} (hv : model.vars[k]? = some v) (hname : v.name = some name) :
    row (s.col [k + 1]) = σ name :=
  hσ (k + 1) _ _ (h.root_var hv) hname

/-- Agreement is agreement on `time` and on each variable of the model. -/
theorem agrees_of {row : Row} {σ : CStr → ℚ} (htime : row TIME = σ (cstr "time"))
    (hvars : ∀ k v name, model.vars[k]? = some v → v.name = some name →
      row (s.col [k + 1]) = σ name) : s.Agrees row σ := by
  intro i av name hav hname
  rcases h.root_cases hav with ⟨rfl, rfl⟩ | ⟨k, v, rfl, hv, rfl⟩
  · have hcol : s.col [0] = TIME := h.sim.built.numbered.time.2
    obtain rfl := Option.some.inj hname
    rw [hcol, htime]
  · exact hvars k v name hv hname

theorem exists_agrees (row : Row) : ∃ σ, s.Agrees row σ := by
  refine ⟨fun name => (nameIndex s.root name).elim 0 fun i => row (s.col [i]),
    fun i av name hav hname => ?_⟩
  rw [h.root] at hav ⊢
  simp only [h.named.nameIndex_iff.mpr ⟨av, hav, hname⟩, Option.elim_some]

theorem read_find {row : Row} {σ : CStr → ℚ} (hσ : s.Agrees row σ) {name : CStr} {p : Path}
    (hp : model.find name = some p) : row (s.identOffset p) = σ (skipDot name) := by
  obtain ⟨i, av, rfl, hav, hname⟩ := h.named.find_iff.mp hp
  rw [h.sim.identOffset_eq]
  exact hσ i av _ (h.root ▸ hav) hname

theorem foldl_read {row : Row} {σ : CStr → ℚ} (hσ : s.Agrees row σ) {names : List CStr}
    {ps : List Path} (f : ℚ → ℚ → ℚ)
    (hps : resolveAll (scopeAt model.flatRoot []) names = .ok ps) (a : ℚ) :
    ps.foldl (fun x p => f x (row (s.store p).offset)) a =
      (names.map fun n => σ (skipDot n)).foldl f a := by
  have hall := resolveAll_forall₂ hps
  clear hps
  induction hall generalizing a with
  | nil => rfl
  | cons hp _ ih =>
    have hread := h.read_find hσ hp
    rw [h.sim.identOffset_eq] at hread
    rw [List.foldl_cons, List.map_cons, List.foldl_cons, ← hread]
    exact ih _

theorem col_inj {i j : Nat} {av av' : AVar} (hi : s.root[i]? = some av) (hj : s.root[j]? = some av')
    (hcol : s.col [i] = s.col [j]) : i = j := by
  have hcol := h.sim.built.numbered.inj [i] [j]
    (h.sim.isColumn ((h.avarAt_eq i).trans hi)) (h.sim.isColumn ((h.avarAt_eq j).trans hj)) hcol
  simpa using hcol

/-! ### Passes -/

omit h in
/-- The row with the values of `σ` in the columns of variables, and of `base` elsewhere. -/
def rowOf (s : SDSim) (σ : CStr → ℚ) (base : Row) : Row := fun c =>
  match (List.range s.root.length).find? fun i => s.col [i] == c with
  | none => base c
  | some i =>
    match s.root[i]?.bind (·.v.name) with
    | none => base c
    | some name => σ name

theorem rowOf_agrees (σ : CStr → ℚ) (base : Row) : s.Agrees (rowOf s σ base) σ := by
  intro i av name hav hname
  have hlt := (List.getElem?_eq_some_iff.mp hav).1
  have hfind : (List.range s.root.length).find? (fun k => s.col [k] == s.col [i]) = some i := by
    refine List.find?_range_eq_some.mpr ⟨by simp, by simpa using hlt, fun j hj => ?_⟩
    obtain ⟨av', hav'⟩ : ∃ av', s.root[j]? = some av' :=
      ⟨_, List.getElem?_eq_getElem (hj.trans hlt)⟩
    simp only [beq_eq_false_iff_ne, Bool.not_eq_true']
    exact fun hcol => absurd (h.col_inj hav' hav hcol) (by omega)
  simp only [rowOf, hfind, hav, Option.bind_some, hname]

omit h in
theorem rowOf_of_not_col (σ : CStr → ℚ) (base : Row) {c : Nat}
    (hc : ∀ i < s.root.length, s.col [i] ≠ c) : rowOf s σ base c = base c := by
  have hfind : (List.range s.root.length).find? (fun k => s.col [k] == c) = none := by
    rw [List.find?_eq_none]
    intro i hi
    simpa using hc i (List.mem_range.mp hi)
  simp only [rowOf, hfind]

/-- A pass ends in the values that agree with the row it starts from, wherever it does
    not write, and that satisfy the equations it calculates. -/
theorem run_agrees {l : List Path} (row : Row) (σ : CStr → ℚ)
    (hinj : ∀ p ∈ l, ∀ q ∈ l, s.col p = s.col q → p = q)
    (hord : Assign.InOrder s.col s.readCols [] l)
    (hl : ∀ p ∈ l, p ≠ [0] ∧ ∃ av, avarAt s.root p = some av)
    (hσ : ∀ k v name, model.vars[k]? = some v → v.name = some name → [k + 1] ∈ l →
      ∀ row, s.Agrees row σ → s.calcValue row [k + 1] = .ok (σ name))
    (htime : row TIME = σ (cstr "time"))
    (hbase : ∀ k v name, model.vars[k]? = some v → v.name = some name → [k + 1] ∉ l →
      row (s.col [k + 1]) = σ name) :
    ∃ row', Assign.run s.col (fun p d => s.calcValue d p) l row = .ok row' ∧ s.Agrees row' σ := by
  have hagrees := h.rowOf_agrees σ row
  refine ⟨rowOf s σ row, ?_, hagrees⟩
  refine Assign.run_eq_of_satisfies (depends_calcValue s) hinj hord (fun p hp => ?_) fun c hc => ?_
  · obtain ⟨hne, av, hav⟩ := hl p hp
    obtain ⟨k, v, rfl, hv, -⟩ := h.leaf_var hav hne
    obtain ⟨name, hname⟩ := Option.ne_none_iff_exists'.mp (h.named.name v (List.mem_of_getElem? hv))
    rw [Assign.Satisfies, hσ k v name hv hname hp _ hagrees, h.agrees_var hagrees hv hname]
  · by_cases hcol : ∃ i, i < s.root.length ∧ s.col [i] = c
    · obtain ⟨i, hi, rfl⟩ := hcol
      rcases h.root_cases (List.getElem?_eq_getElem hi) with ⟨rfl, -⟩ | ⟨k, v, rfl, hv, -⟩
      · have hcol : s.col [0] = TIME := h.sim.built.numbered.time.2
        rw [hcol, htime, h.agrees_time hagrees]
      · obtain ⟨name, hname⟩ := Option.ne_none_iff_exists'.mp
          (h.named.name v (List.mem_of_getElem? hv))
        rw [h.agrees_var hagrees hv hname]
        exact hbase k v name hv hname fun hmem => hc _ hmem rfl
    · exact (rowOf_of_not_col σ row fun i hi hc => hcol ⟨i, hi, hc⟩).symm

theorem flowsOf_agrees (row : Row) (σ : CStr → ℚ)
    (hσ : ∀ k v name, model.vars[k]? = some v → v.name = some name → [k + 1] ∈ s.flowLeaves →
      ∀ row, s.Agrees row σ → s.calcValue row [k + 1] = .ok (σ name))
    (htime : row TIME = σ (cstr "time"))
    (hbase : ∀ k v name, model.vars[k]? = some v → v.name = some name → [k + 1] ∉ s.flowLeaves →
      row (s.col [k + 1]) = σ name) :
    ∃ row', s.flowsOf row = .ok row' ∧ s.Agrees row' σ := by
  refine h.run_agrees row σ (flowLeaves_inj h.sim.built) h.sim.flows_inOrder (fun p hp => ?_) hσ
    htime hbase
  obtain ⟨av, hav, -, -, -, hne, -⟩ := flowLeaf h.sim.built hp
  exact ⟨hne, av, hav⟩

theorem initialsOf_agrees (σ : CStr → ℚ)
    (hσ : ∀ k v name, model.vars[k]? = some v → v.name = some name →
      ∀ row, s.Agrees row σ → s.calcValue row [k + 1] = .ok (σ name))
    (htime : s.simSpecs.start = σ (cstr "time")) :
    ∃ row', s.initialsOf s.startRow = .ok row' ∧ s.Agrees row' σ := by
  refine h.run_agrees s.startRow σ (initialLeaves_inj h.sim.built) h.sim.initials_inOrder
    (fun p hp => ?_) (fun k v name hv hname _ => hσ k v name hv hname) ?_
    fun k v name hv hname hmem => absurd (h.mem_initialLeaves hv) hmem
  · obtain ⟨av, hav, -, -, -, hne, -⟩ := initialLeaf h.sim.built hp
    exact ⟨hne, av, hav⟩
  · simpa [SDSim.startRow] using htime

/-- What the flows leave alone. -/
theorem flowsOf_left {row row' : Row} (hrun : s.flowsOf row = .ok row') {k : Nat} {v : Var}
    (hv : model.vars[k]? = some v) (hmem : [k + 1] ∉ s.flowLeaves) :
    row' (s.col [k + 1]) = row (s.col [k + 1]) := by
  refine Assign.run_frame hrun fun q hq hqk => hmem ?_
  obtain ⟨av, hav, -, -, hcq, -⟩ := flowLeaf h.sim.built hq
  have := h.sim.built.numbered.inj q [k + 1] hcq (h.sim.isColumn (h.avarAt_var hv)) hqk
  rwa [← this]

theorem stocksOf_left {row next next' : Row} (hrun : s.stocksOf row next = .ok next') {k : Nat}
    {v : Var} (hv : model.vars[k]? = some v) (hmem : [k + 1] ∉ s.stockLeaves) :
    next' (s.col [k + 1]) = next (s.col [k + 1]) := by
  refine Assign.run_frame hrun fun q hq hqk => hmem ?_
  obtain ⟨av, hav, -, -, hcq, -⟩ := stockLeaf h.sim.built hq
  have := h.sim.built.numbered.inj q [k + 1] hcq (h.sim.isColumn (h.avarAt_var hv)) hqk
  rwa [← this]

theorem col_ne_time {k : Nat} {v : Var} (hv : model.vars[k]? = some v) : s.col [k + 1] ≠ TIME :=
  Libsd.col_ne_time h.sim.built (h.sim.isColumn (h.avarAt_var hv)) (by simp)

/-- The row a pass calculates satisfies the equations it calculates. -/
theorem flowsOf_value {row row' : Row} (hrun : s.flowsOf row = .ok row') {k : Nat}
    (hmem : [k + 1] ∈ s.flowLeaves) : s.calcValue row' [k + 1] = .ok (row' (s.col [k + 1])) :=
  Assign.run_satisfies (depends_calcValue s) (flowLeaves_inj h.sim.built) h.sim.flows_inOrder hrun _
    hmem

theorem initialsOf_value {row row' : Row} (hrun : s.initialsOf row = .ok row') {k : Nat} {v : Var}
    (hv : model.vars[k]? = some v) : s.calcValue row' [k + 1] = .ok (row' (s.col [k + 1])) :=
  Assign.run_satisfies (depends_calcValue s) (initialLeaves_inj h.sim.built) h.sim.initials_inOrder
    hrun _ (h.mem_initialLeaves hv)

end FlatOf

end Libsd

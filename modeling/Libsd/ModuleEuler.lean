/-
  Libsd/ModuleEuler.lean
  ======================
  **A tree of modules is integrated as one system.**

  The conditions are about the schedule: every variable is on it once, in the flows pass
  nothing is read before it is calculated, and among the initial values nothing that the
  stocks start from is (`InTime`).  Two modules may well read each other's stocks.  The
  rows of the steps then hold the one trajectory that the modules demand, and so does
  whatever is read of the simulation between two calls (`module_calls`).
-/
import Libsd.DeclOrder
import Libsd.ModuleValues
import Libsd.Schedule
import Libsd.Series
import Libsd.Steady

namespace Libsd

open Assign Outcome

/-- What the stocks start from: they, and what their initial values are calculated from. -/
inductive SDSim.Starts (s : SDSim) : Path → Prop where
  | stock {p : Path} {v : Var} {n : Node} (hv : avarAt s.root p = some (.var v n))
    (ht : v.type = .stock) : s.Starts p
  | read {p q e : Path} (h : s.Starts p) (hq : q ∈ (s.store p).node.idents)
    (he : EndsAt s.store q e) : s.Starts e

/-- The tree is calculated in time: every variable is scheduled once, the flows are calculated
    before they are read, and so are the initial values that the stocks start from. -/
structure InTime (s : SDSim) : Prop where
  scheduled : s.Scheduled
  flows : FlowsOrdered s
  starts : ∀ p, s.Starts p → ∀ b ∈ s.initialLeaves, s.col b ∈ s.readCols p →
    s.initialLeaves.idxOf b < s.initialLeaves.idxOf p

instance (s : SDSim) (p : Path) : Decidable (s.ScheduledOnce p) :=
  inferInstanceAs (Decidable (_ ∧ _))

/-- Scheduling is a question of the paths that the tree has. -/
theorem scheduled_on_paths {s : SDSim} : (∀ p ∈ pathsFrom [] 0 s.root, IsColumn s.root s.store p →
    p ≠ [0] → s.ScheduledOnce p) ↔ s.Scheduled := by
  constructor
  · intro h p hp hne
    obtain ⟨v, n, hv, -⟩ := id hp
    exact h p (mem_paths hv) hp hne
  · exact fun h p _ => h p

instance (s : SDSim) : Decidable s.Scheduled := decidable_of_iff _ scheduled_on_paths

/-- The list has the stocks and what the equations on it read, all calculated in time. -/
structure SDSim.StartsWithin (s : SDSim) (l : List Path) : Prop where
  stocks : ∀ p v n, avarAt s.root p = some (.var v n) → v.type = .stock → p ∈ l
  reads : ∀ p ∈ l, ∀ q ∈ (s.store p).node.idents, (s.store q).src.getD q ∈ l
  first : ∀ p ∈ l, ∀ b ∈ s.initialLeaves, s.col b ∈ s.readCols p →
    s.initialLeaves.idxOf b < s.initialLeaves.idxOf p

theorem startsWithin_iff {s : SDSim} {l : List Path} : ((∀ p ∈ pathsFrom [] 0 s.root,
      ∀ av ∈ avarAt s.root p, av.isModule = false → av.v.type = .stock → p ∈ l) ∧
    (∀ p ∈ l, ∀ q ∈ (s.store p).node.idents, (s.store q).src.getD q ∈ l) ∧
    ∀ p ∈ l, ∀ b ∈ s.initialLeaves, s.col b ∈ s.readCols p →
      s.initialLeaves.idxOf b < s.initialLeaves.idxOf p) ↔ s.StartsWithin l :=
  ⟨fun ⟨a, b, c⟩ => ⟨forall_vars_iff.mp a, b, c⟩, fun ⟨a, b, c⟩ => ⟨forall_vars_iff.mpr a, b, c⟩⟩

instance (s : SDSim) (l : List Path) : Decidable (s.StartsWithin l) :=
  decidable_of_iff _ startsWithin_iff

/-- What the stocks start from is on such a list. -/
theorem SDSim.Starts.mem {s : SDSim} (hw : WellBuilt s) (hwired : Wired s) {l : List Path}
    (hl : s.StartsWithin l) {p : Path} (hp : s.Starts p) : p ∈ l := by
  induction hp with
  | stock hv ht => exact hl.stocks _ _ _ hv ht
  | read _ hq hend ih =>
    obtain ⟨e, hend', -, he, -⟩ := (hwired.readable hw hq).ends
    rw [hend.unique hend', he]
    exact hl.reads _ ih _ hq

/-- A simulation whose modules are calculated in time. -/
structure Timely (s : SDSim) : Prop where
  reset : IsReset s
  wired : Wired s
  inTime : InTime s

/-- Of two members of a list without repetition the one that is first is not behind. -/
theorem pairwise_of_idxOf_lt {l : List Path} (hl : l.Nodup) {a b : Path}
    (h : l.idxOf b < l.idxOf a) : l.Pairwise fun x y => x = a → y ≠ b := by
  refine List.pairwise_iff_getElem.mpr fun i j hi hj hij ha hb => ?_
  rw [← ha, ← hb, hl.idxOf_getElem i hi, hl.idxOf_getElem j hj] at h
  omega

/-- A number has the same value whatever the others are. -/
theorem eqnValue_const {env : Env} {dt : ℚ} {root : List AVar} {p : Path} {v : Var} {n : Node}
    (hlit : n.isFloatlit = true) (hgf : v.gf = none) (τ τ' : Path → ℚ) :
    eqnValue env dt root τ p v n = eqnValue env dt root τ' p v n := by
  cases n with
  | floatlit text x => rw [eqnValue, eqnValue, hgf, Node.value, Node.value]
  | _ => cases hlit

namespace Timely

variable {s : SDSim} (h : Timely s) {p : Path} {v : Var} {n : Node}
include h

/-! ### What is on the lists -/

theorem exists_var (hp : IsColumn s.root s.store p) (hne : p ≠ [0]) :
    ∃ v n, avarAt s.root p = some (.var v n) ∧ v.type ≠ .ref ∧ v.eqn ≠ none ∧
      (v.type = .stock ∨ v.type = .flow ∨ v.type = .aux) :=
  h.wired.exists_var h.reset.built hp hne

theorem mem_initialLeaves (hp : IsColumn s.root s.store p) (hne : p ≠ [0]) :
    p ∈ s.initialLeaves := by
  obtain ⟨v, n, hv, ht, he, -⟩ := h.exists_var hp hne
  have honce := (h.inTime.scheduled p hp hne).1
  rw [initialLeaves_eq h.reset.built]
  refine List.mem_filter.mpr ⟨List.count_pos_iff.mp (by omega), ?_⟩
  rw [Bool.not_eq_true', ← Bool.not_eq_true, hollow_iff_eqn h.reset.built hv ht]
  exact he

theorem initialLeaves_nodup : s.initialLeaves.Nodup := by
  refine List.nodup_iff_count_le_one.mpr fun p => ?_
  by_cases hmem : p ∈ s.initialLeaves
  · obtain ⟨av, -, -, -, hcol, hne, -⟩ := initialLeaf h.reset.built hmem
    rw [initialLeaves_eq h.reset.built, ← (h.inTime.scheduled p hcol hne).1]
    exact List.filter_sublist.count_le p
  · rw [List.count_eq_zero.mpr hmem]
    exact Nat.zero_le 1

section
variable (hv : avarAt s.root p = some (.var v n)) (ht : v.type ≠ .ref) (he : v.eqn ≠ none)
include hv ht he

omit ht in
theorem ne_time : p ≠ [0] := by
  rintro rfl
  cases hv.symm.trans (avarAt_time h.reset.built)
  exact he rfl

theorem mem_flowLeaves_iff : p ∈ s.flowLeaves ↔ v.type ≠ .stock ∧ n.isFloatlit = false := by
  have hw := h.reset.built
  have hcol := isColumn_of_type hw hv ht
  have hne := h.ne_time hv he
  have hkind : v.type = .stock ∨ v.type = .flow ∨ v.type = .aux := by
    obtain ⟨v', n', hv', -, -, hkind⟩ := h.exists_var hcol hne
    cases hv.symm.trans hv'
    exact hkind
  have hwants : (AVar.var v n).wants .flows = true ↔ v.type ≠ .stock ∧ n.isFloatlit = false := by
    rcases hkind with hk | hk | hk <;> simp [AVar.wants, AVar.v, AVar.isConst, AVar.node, hk]
  rw [← hwants]
  constructor
  · intro hmem
    obtain ⟨av, hav, hflows, -⟩ := flowLeaf hw hmem
    cases hv.symm.trans hav
    exact hflows
  · intro hflows
    -- it is on one of the two lists, and not on that of the stocks
    have hnot : p ∉ s.reached .stocks := fun hmem => by
      obtain ⟨av, hav, hstocks, hm, -⟩ := stockLeaf hw (p := p) hmem
      cases hv.symm.trans hav
      rw [wants_flows_not_stocks hm (hw.typed p _ hv) hflows] at hstocks
      cases hstocks
    have honce := (h.inTime.scheduled p hcol hne).2
    rw [List.count_eq_zero.mpr hnot] at honce
    rw [flowLeaves_eq hw]
    refine List.mem_filter.mpr ⟨List.count_pos_iff.mp (by omega), ?_⟩
    rw [Bool.not_eq_true', ← Bool.not_eq_true, hollow_iff_eqn hw hv ht]
    exact he

/-- What is not calculated with the flows is stored with the stocks. -/
theorem mem_stockLeaves (hmem : p ∉ s.flowLeaves) : p ∈ s.stockLeaves := by
  have hw := h.reset.built
  have honce := (h.inTime.scheduled p (isColumn_of_type hw hv ht) (h.ne_time hv he)).2
  have hnot : p ∉ s.reached .flows := fun hr => hmem (by
    rw [flowLeaves_eq hw]
    refine List.mem_filter.mpr ⟨hr, ?_⟩
    rw [Bool.not_eq_true', ← Bool.not_eq_true, hollow_iff_eqn hw hv ht]
    exact he)
  rw [List.count_eq_zero.mpr hnot] at honce
  rw [stockLeaves_eq]
  exact List.count_pos_iff.mp (by omega)

end

/-! ### Every row can be calculated -/

theorem flowsOf_ok (row : Row) : ∃ row', s.flowsOf row = .ok row' := by
  refine run_ok (fun p hp d => ?_) row
  obtain ⟨av, -, -, -, hcol, hne, -⟩ := flowLeaf h.reset.built hp
  obtain ⟨v, n, hv, ht, he, -⟩ := h.exists_var hcol hne
  obtain ⟨τ, hτ⟩ := exists_holds (s := s) d
  exact ⟨_, hτ.calcValue_eq h.reset.built h.wired hv ht he⟩

theorem stocksOf_ok (row next : Row) : ∃ next', s.stocksOf row next = .ok next' := by
  refine run_ok (fun p hp _ => ?_) next
  obtain ⟨av, -, -, -, hcol, hne⟩ := stockLeaf h.reset.built hp
  obtain ⟨v, n, hv, ht, he, hkind⟩ := h.exists_var hcol hne
  obtain ⟨τ, hτ⟩ := exists_holds (s := s) row
  rcases hkind with hk | hk
  · exact ⟨_, hτ.stockValue_stock h.reset.built h.wired hv ht he hk⟩
  · exact ⟨_, hτ.stockValue_const h.reset.built h.wired hv ht he hk⟩

theorem fullRow_ok (j : Nat) : ∃ row, s.fullRow (s.slab 0) j = .ok row := by
  induction j with
  | zero => exact h.flowsOf_ok _
  | succ j ih =>
    obtain ⟨row, hrow⟩ := ih
    obtain ⟨next, hnext⟩ := h.stocksOf_ok row fun _ => 0
    obtain ⟨row', hrow'⟩ := h.flowsOf_ok (Function.update next TIME (s.timeAt (j + 1)))
    refine ⟨row', ?_⟩
    simp only [SDSim.fullRow, SDSim.nextRow, hrow, hnext, bind, Except.bind, pure, Except.pure,
      hrow']

theorem steady : Steady s where
  reset := h.reset
  ordered := h.inTime.flows
  steps j := by
    obtain ⟨row, hrow⟩ := h.fullRow_ok j
    obtain ⟨next, hnext⟩ := h.stocksOf_ok row fun _ => 0
    exact ⟨row, next, hrow, hnext⟩

/-! ### What the stocks start from -/

/-- What an equation reads is the value of a variable, where the connections end. -/
theorem calcValue_congr {row row' : Row} (htime : row TIME = row' TIME)
    (hreads : ∀ q ∈ (s.store p).node.idents, ∀ e, EndsAt s.store q e →
      row (s.col e) = row' (s.col e)) : s.calcValue row p = s.calcValue row' p := by
  refine depends_calcValue s p row row' fun c hc => ?_
  rcases List.mem_cons.mp hc with rfl | hc
  · exact htime
  · obtain ⟨q, hq, rfl⟩ := List.mem_map.mp hc
    obtain ⟨e, hend, -, -, hread⟩ := (h.wired.readable h.reset.built hq).ends
    rw [hread]
    exact hreads q hq e hend

theorem Starts.isColumn (hp : s.Starts p) : IsColumn s.root s.store p := by
  induction hp with
  | stock hv ht => exact isColumn_of_type h.reset.built hv (by simp [ht])
  | read _ hq hend _ =>
    obtain ⟨e, hend', hcol, -⟩ := (h.wired.readable h.reset.built hq).ends
    rwa [hend.unique hend']

/-- Induction in the order in which the initial values are calculated. -/
theorem starts_induction {P : Path → Prop} (hzero : P [0])
    (hstep : ∀ p, s.Starts p → p ≠ [0] →
      (∀ q ∈ (s.store p).node.idents, ∀ e, EndsAt s.store q e → P e) → P p)
    (hp : s.Starts p) : P p := by
  induction hk : s.initialLeaves.idxOf p using Nat.strong_induction_on generalizing p with
  | h k ih =>
    by_cases hne : p = [0]
    · exact hne ▸ hzero
    · refine hstep p hp hne fun q hq e he => ?_
      have hread := hp.read hq he
      by_cases hne' : e = [0]
      · exact hne' ▸ hzero
      · refine ih _ ?_ hread rfl
        rw [← hk]
        refine h.inTime.starts p hp e (h.mem_initialLeaves (Starts.isColumn h hread) hne') ?_
        obtain ⟨e', hend, -, -, hoff⟩ := (h.wired.readable h.reset.built hq).ends
        rw [he.unique hend]
        exact List.mem_cons_of_mem _ (List.mem_map.mpr ⟨q, hq, hoff⟩)

/-- The initial values satisfy the equations that the stocks start from. -/
theorem starts_satisfied (hp : s.Starts p) (hne : p ≠ [0]) :
    s.calcValue (s.slab 0) p = .ok (s.slab 0 (s.col p)) := by
  have hmem := h.mem_initialLeaves (Starts.isColumn h hp) hne
  refine run_satisfies_at (depends_calcValue s) hmem
    (fun b hb => initialLeaves_inj h.reset.built b hb p hmem) (fun c hc b hb hcol => ?_)
    h.reset.initial
  have hlt := h.inTime.starts p hp b hb (hcol ▸ hc)
  exact ⟨fun he => absurd hlt (he ▸ lt_irrefl _), pairwise_of_idxOf_lt h.initialLeaves_nodup hlt⟩

/-- The initial value of a number is the number. -/
theorem const_initial (hv : avarAt s.root p = some (.var v n))
    (hkind : v.type = .flow ∨ v.type = .aux) (he : v.eqn ≠ none) (hlit : n.isFloatlit = true)
    (τ : Path → ℚ) : s.slab 0 (s.col p) = eqnValue s.env s.spec.dt s.root τ p v n := by
  have ht : v.type ≠ .ref := by rcases hkind with hk | hk <;> simp [hk]
  have hmem := h.mem_initialLeaves (isColumn_of_type h.reset.built hv ht) (h.ne_time hv he)
  refine run_fixed h.reset.initial hmem (fun d => ?_) fun b hb =>
    initialLeaves_inj h.reset.built b hb p hmem
  obtain ⟨τ', hτ'⟩ := exists_holds (s := s) d
  rw [hτ'.calcValue_eq h.reset.built h.wired hv ht he,
    eqnValue_const hlit ((h.wired p v n hv).consts hkind hlit) τ' τ]

/-! ### The rows of the steps -/

theorem flow_value {row row' : Row} (hrun : s.flowsOf row = .ok row') (hmem : p ∈ s.flowLeaves) :
    s.calcValue row' p = .ok (row' (s.col p)) :=
  run_satisfies (depends_calcValue s) (flowLeaves_inj h.reset.built) h.inTime.flows hrun p hmem

theorem flow_left {row row' : Row} (hrun : s.flowsOf row = .ok row')
    (hp : IsColumn s.root s.store p) (hmem : p ∉ s.flowLeaves) :
    row' (s.col p) = row (s.col p) := by
  refine run_frame hrun fun q hq hcol => hmem ?_
  obtain ⟨av, -, -, -, hqcol, -⟩ := flowLeaf h.reset.built hq
  rwa [← h.reset.built.numbered.inj q p hqcol hp hcol]

theorem col_ne_time (hp : IsColumn s.root s.store p) (hne : p ≠ [0]) : s.col p ≠ TIME :=
  Libsd.col_ne_time h.reset.built hp hne

/-- The flows of the first step change nothing about what the stocks start from. -/
theorem starts_kept {row : Row} (hrow : s.flowsOf (s.slab 0) = .ok row) (hp : s.Starts p) :
    row (s.col p) = s.slab 0 (s.col p) := by
  have htime : row TIME = s.slab 0 TIME := flowsOf_frame h.reset.built hrow (.inl rfl)
  refine h.starts_induction (P := fun p => row (s.col p) = s.slab 0 (s.col p)) ?_
    (fun p hp hne ih => ?_) hp
  · have hcol : s.col [0] = TIME := h.reset.built.numbered.time.2
    rw [hcol, htime]
  · by_cases hmem : p ∈ s.flowLeaves
    · have hvalue := h.flow_value hrow hmem
      rw [h.calcValue_congr htime ih, h.starts_satisfied hp hne] at hvalue
      exact (Except.ok.inj hvalue).symm
    · exact h.flow_left hrow (Starts.isColumn h hp) hmem

section
variable {j : Nat} {row row' : Row} {τ : Path → ℚ} (hrow : s.fullRow (s.slab 0) j = .ok row)
include hrow

theorem time_eq : row TIME = s.spec.start + j * s.spec.dt :=
  (fullRow_frame h.reset.built h.reset.time h.reset.high hrow).1

/-- What the row of the next step holds for a variable that `calc_stocks` stores. -/
theorem stored_next (hrow' : s.fullRow (s.slab 0) (j + 1) = .ok row')
    (hv : avarAt s.root p = some (.var v n)) (ht : v.type ≠ .ref) (he : v.eqn ≠ none)
    (hmem : p ∉ s.flowLeaves) : s.stockValue row p = .ok (row' (s.col p)) := by
  have hcol := isColumn_of_type h.reset.built hv ht
  obtain ⟨pre, hpre, hflows⟩ := Libsd.fullRow_ok hrow'
  obtain ⟨full, next, hfull, hnext, rfl⟩ := preRow_succ_ok hpre
  obtain rfl := Except.ok.inj (hfull.symm.trans hrow)
  rw [h.flow_left hflows hcol hmem,
    Function.update_of_ne (h.col_ne_time hcol (h.ne_time hv he))]
  exact stocksOf_value h.reset.built hnext (h.mem_stockLeaves hv ht he hmem)

theorem stock_step (hrow' : s.fullRow (s.slab 0) (j + 1) = .ok row') (hτ : s.Holds row τ)
    (hv : avarAt s.root p = some (.var v n)) (hstock : v.type = .stock) (he : v.eqn ≠ none) :
    row' (s.col p) =
      row (s.col p) + s.spec.dt * v.netFlow (nameValue s.root τ p.dropLast) := by
  have ht : v.type ≠ .ref := by simp [hstock]
  have hmem : p ∉ s.flowLeaves := fun hm => ((h.mem_flowLeaves_iff hv ht he).mp hm).1 hstock
  have hval := h.stored_next hrow hrow' hv ht he hmem
  rw [hτ.stockValue_stock h.reset.built h.wired hv ht he hstock] at hval
  rw [← Except.ok.inj hval, mul_comm]

/-- A number keeps its value. -/
theorem const_row (hv : avarAt s.root p = some (.var v n))
    (hkind : v.type = .flow ∨ v.type = .aux) (he : v.eqn ≠ none) (hmem : p ∉ s.flowLeaves)
    (τ : Path → ℚ) : row (s.col p) = eqnValue s.env s.spec.dt s.root τ p v n := by
  have ht : v.type ≠ .ref := by rcases hkind with hk | hk <;> simp [hk]
  have hlit : n.isFloatlit = true := by
    by_contra hlit
    refine hmem ((h.mem_flowLeaves_iff hv ht he).mpr ⟨?_, by simpa using hlit⟩)
    rcases hkind with hk | hk <;> simp [hk]
  have hgf := (h.wired p v n hv).consts hkind hlit
  cases j with
  | zero =>
    rw [h.flow_left hrow (isColumn_of_type h.reset.built hv ht) hmem]
    exact h.const_initial hv hkind he hlit τ
  | succ j =>
    obtain ⟨before, hbefore⟩ := h.fullRow_ok j
    obtain ⟨τ', hτ'⟩ := exists_holds (s := s) before
    have hval := h.stored_next hbefore hrow hv ht he hmem
    rw [hτ'.stockValue_const h.reset.built h.wired hv ht he hkind] at hval
    rw [← Except.ok.inj hval, eqnValue_const hlit hgf τ τ', eqnValue, hgf]
    rfl

end

/-! ### The rows are the one trajectory -/

/-- The rows of the simulation are a trajectory. -/
theorem exists_euler : ∃ σ, ModuleEuler s.env s.spec s.root σ := by
  have hw := h.reset.built
  have hrows : ∀ j, ∃ σ row, s.fullRow (s.slab 0) j = .ok row ∧ s.Holds row σ := fun j => by
    obtain ⟨row, hrow⟩ := h.fullRow_ok j
    obtain ⟨σ, hσ⟩ := exists_holds (s := s) row
    exact ⟨σ, row, hrow, hσ⟩
  choose σ row hrow hσ using hrows
  have hcolumn : ∀ j {p v n}, avarAt s.root p = some (.var v n) → v.type ≠ .ref →
      row j (s.col p) = σ j p := fun j _ _ _ hv ht => (hσ j).column _ (isColumn_of_type hw hv ht)
  have hstockEqn : ∀ {p v n}, avarAt s.root p = some (.var v n) → v.type = .stock →
      v.eqn ≠ none := by
    intro p v n hv hstock he
    exact stock_ne_time hw hv hstock ((h.wired p v n hv).equation (by simp [hstock]) he)
  refine ⟨σ, ⟨fun j => ?_, fun j p v n q hv ht hq => ?_, fun p v n hv hstock => ?_,
    fun j p v n hv hkind he => ?_, fun j p v n hv hstock => ?_⟩⟩
  · rw [← (hσ j).time hw, h.time_eq (hrow j)]
  · exact (hσ j).input p _ (src_of_ref hw hv ht hq)
  · have ht : v.type ≠ .ref := by simp [hstock]
    have hstarts : s.Starts p := .stock hv hstock
    have hne := h.ne_time hv (hstockEqn hv hstock)
    have htime : row 0 TIME = s.slab 0 TIME := flowsOf_frame hw (hrow 0) (.inl rfl)
    have hkept : ∀ e, s.Starts e → row 0 (s.col e) = s.slab 0 (s.col e) :=
      fun e he => h.starts_kept (hrow 0) he
    have hvalue := h.starts_satisfied hstarts hne
    rw [← h.calcValue_congr htime fun q hq e he => hkept e (hstarts.read hq he),
      (hσ 0).calcValue_eq hw h.wired hv ht (hstockEqn hv hstock)] at hvalue
    rw [← hcolumn 0 hv ht, hkept p hstarts]
    exact (Except.ok.inj hvalue).symm
  · have ht : v.type ≠ .ref := by rcases hkind with hk | hk <;> simp [hk]
    rw [← hcolumn j hv ht]
    by_cases hmem : p ∈ s.flowLeaves
    · obtain ⟨pre, -, hflows⟩ := Libsd.fullRow_ok (hrow j)
      have hvalue := h.flow_value hflows hmem
      rw [(hσ j).calcValue_eq hw h.wired hv ht he] at hvalue
      exact (Except.ok.inj hvalue).symm
    · exact h.const_row (hrow j) hv hkind he hmem (σ j)
  · have ht : v.type ≠ .ref := by simp [hstock]
    rw [← hcolumn j hv ht, ← hcolumn (j + 1) hv ht]
    exact h.stock_step (hrow j) (hrow (j + 1)) (hσ j) hv hstock (hstockEqn hv hstock)

/-- A pass over the flows ends in the values that it is handed and that satisfy the equations
    it calculates. -/
theorem flowsOf_holds {pre row : Row} {τ : Path → ℚ}
    (hτ : ∀ p q, (s.store p).src = some q → τ p = τ q)
    (hleft : ∀ p, IsColumn s.root s.store p → p ∉ s.flowLeaves → pre (s.col p) = τ p)
    (hflow : ∀ p v n, avarAt s.root p = some (.var v n) → v.type ≠ .ref → v.eqn ≠ none →
      p ∈ s.flowLeaves → τ p = eqnValue s.env s.spec.dt s.root τ p v n)
    (hrun : s.flowsOf pre = .ok row) : s.Holds row τ := by
  have hw := h.reset.built
  obtain ⟨row', hholds, hout⟩ := exists_row hw hτ pre
  have hrun' : s.flowsOf pre = .ok row' := by
    refine run_eq_of_satisfies (depends_calcValue s) (flowLeaves_inj hw) h.inTime.flows
      (fun p hp => ?_) fun c hc => ?_
    · obtain ⟨av, -, -, -, hcol, hne, -⟩ := flowLeaf hw hp
      obtain ⟨v, n, hv, ht, he, -⟩ := h.exists_var hcol hne
      rw [Satisfies, hholds.calcValue_eq hw h.wired hv ht he, hholds.column p hcol,
        ← hflow p v n hv ht he hp]
    · by_cases hcol : ∃ p, IsColumn s.root s.store p ∧ s.col p = c
      · obtain ⟨p, hp, rfl⟩ := hcol
        rw [hholds.column p hp]
        exact hleft p hp fun hmem => hc p hmem rfl
      · exact (hout c fun p hp he => hcol ⟨p, hp, he⟩).symm
  obtain rfl := Except.ok.inj (hrun.symm.trans hrun')
  exact hholds

/-- A trajectory starts with the values that the stocks start from. -/
theorem starts_of_euler {σ : Nat → Path → ℚ} (hσ : ModuleEuler s.env s.spec s.root σ)
    (hp : s.Starts p) : s.slab 0 (s.col p) = σ 0 p := by
  have hw := h.reset.built
  obtain ⟨row, hholds, -⟩ := exists_row hw (hσ.inputs hw 0) fun _ => 0
  have htime : s.slab 0 TIME = σ 0 [0] := by
    rw [h.reset.time, hσ.time 0, Nat.cast_zero, zero_mul, add_zero]
  refine h.starts_induction (P := fun p => s.slab 0 (s.col p) = σ 0 p) ?_
    (fun p hp hne ih => ?_) hp
  · have hcol : s.col [0] = TIME := hw.numbered.time.2
    rw [hcol, htime]
  · have hcolumn := Starts.isColumn h hp
    obtain ⟨v, n, hv, ht, he, hkind⟩ := h.exists_var hcolumn hne
    have hreads : ∀ q ∈ (s.store p).node.idents, ∀ e, EndsAt s.store q e →
        s.slab 0 (s.col e) = row (s.col e) := fun q hq e hend => by
      rw [ih q hq e hend, hholds.column e (Starts.isColumn h (hp.read hq hend))]
    have hvalue := h.starts_satisfied hp hne
    rw [h.calcValue_congr (htime.trans (hholds.time hw).symm) hreads,
      hholds.calcValue_eq hw h.wired hv ht he] at hvalue
    rw [← Except.ok.inj hvalue]
    rcases hkind with hk | hk
    · exact (hσ.initial p v n hv hk).symm
    · exact (hσ.flow 0 p v n hv hk he).symm

/-- A trajectory agrees with the rows of the simulation. -/
theorem holds_of_euler {σ : Nat → Path → ℚ} (hσ : ModuleEuler s.env s.spec s.root σ) {j : Nat}
    {row : Row} (hrow : s.fullRow (s.slab 0) j = .ok row) : s.Holds row (σ j) := by
  have hw := h.reset.built
  have hflow : ∀ j p v n, avarAt s.root p = some (.var v n) → v.type ≠ .ref → v.eqn ≠ none →
      p ∈ s.flowLeaves → σ j p = eqnValue s.env s.spec.dt s.root (σ j) p v n := by
    intro j p v n hv ht he hmem
    obtain ⟨v', n', hv', -, -, hkind⟩ := h.exists_var (isColumn_of_type hw hv ht) (h.ne_time hv he)
    cases hv.symm.trans hv'
    have hstock := ((h.mem_flowLeaves_iff hv ht he).mp hmem).1
    exact hσ.flow j p v n hv (hkind.resolve_left hstock) he
  have htime : s.col [0] = TIME := hw.numbered.time.2
  induction j generalizing row with
  | zero =>
    refine h.flowsOf_holds (hσ.inputs hw 0) (fun p hp hmem => ?_) (hflow 0) hrow
    by_cases hne : p = [0]
    · rw [hne, htime, h.reset.time, hσ.time 0, Nat.cast_zero, zero_mul, add_zero]
    · obtain ⟨v, n, hv, ht, he, hkind⟩ := h.exists_var hp hne
      rcases hkind with hk | hk
      · exact h.starts_of_euler hσ (.stock hv hk)
      · rw [← h.flow_left hrow hp hmem, h.const_row hrow hv hk he hmem (σ 0)]
        exact (hσ.flow 0 p v n hv hk he).symm
  | succ j ih =>
    obtain ⟨full, hfull⟩ := h.fullRow_ok j
    have hholds := ih hfull
    obtain ⟨pre, -, hflows⟩ := Libsd.fullRow_ok hrow
    refine h.flowsOf_holds (hσ.inputs hw (j + 1)) (fun p hp hmem => ?_) (hflow (j + 1)) hflows
    rw [← h.flow_left hflows hp hmem]
    by_cases hne : p = [0]
    · rw [hne, htime, h.time_eq hrow, hσ.time]
    · obtain ⟨v, n, hv, ht, he, hkind⟩ := h.exists_var hp hne
      rcases hkind with hk | hk
      · rw [h.stock_step hfull hrow hholds hv hk he, hholds.column p hp]
        exact (hσ.stock j p v n hv hk).symm
      · rw [h.const_row hrow hv hk he hmem (σ (j + 1))]
        exact (hσ.flow (j + 1) p v n hv hk he).symm

end Timely

/-! ### What can be read between two calls -/

/-- What is read of a simulation after calls that have brought it to `t`. -/
structure ReadsModules (s t : SDSim) (σ : Nat → Path → ℚ) : Prop where
  step : t.step < s.nsteps ∨ t.step = 0
  time : sdSimGetValue t (some (cstr "time")) = .ok (σ t.step [0])
  stock : ∀ name p v n, resolve s.root (some name) = .ok (some p) →
    avarAt s.root p = some (.var v n) → v.type = .stock →
    sdSimGetValue t (some name) = .ok (σ t.step p)
  saved : ∀ name p len, resolve s.root (some name) = .ok (some p) →
    IsColumn s.root s.store p → ∃ vs, sdSimGetSeries t (some name) len = .ok vs ∧
      ∀ i x, vs[i]? = some x → i * s.saveEvery < t.step → x = σ (i * s.saveEvery) p
  atEnd : 0 < s.nsteps → ∀ stop, Reaches s stop → ∀ t', sdSimRunTo t stop = .ok t' →
    ∀ name p, resolve s.root (some name) = .ok (some p) → IsColumn s.root s.store p →
    sdSimGetValue t' (some name) = .ok (σ (s.nsteps - 1) p)

theorem Timely.reads {s t : SDSim} (h : Timely s) {cs : List Call} (hrun : s.calls cs = .ok t)
    {σ : Nat → Path → ℚ} (hσ : ModuleEuler s.env s.spec s.root σ) : ReadsModules s t σ := by
  have hw := h.reset.built
  obtain ⟨slab, j, row, rfl, hj, hsaved, hrow, hflows⟩ := h.steady.at_step hrun
  have hholds := h.holds_of_euler hσ hrow
  refine ⟨hj, ?_, fun name p v n hres hv hstock => ?_, fun name p len hres hp =>
    ?_, fun hpos stop hreach t' hrun' name p hres hp => ?_⟩
  · have htime := flowsOf_frame hw hflows (.inl rfl)
    simp only [sdSimGetValue, if_true]
    exact congrArg Except.ok (htime.symm.trans (hholds.time hw))
  · have ht : v.type ≠ .ref := by simp [hstock]
    have hcol := isColumn_of_type hw hv ht
    have hleft : p ∉ s.flowLeaves := fun hmem => by
      obtain ⟨av, hav, hwants, -⟩ := flowLeaf hw hmem
      cases hv.symm.trans hav
      simp [AVar.wants, AVar.v, hstock] at hwants
    rw [(readsColumn_of_resolve hw hres slab j _).1, ← h.flow_left hflows hcol hleft,
      hholds.column p hcol]
    rfl
  · refine ⟨_, (readsColumn_of_resolve hw hres slab j _).2 len, fun i x hx hi => ?_⟩
    obtain ⟨-, rfl⟩ := getElem?_series hx
    exact (h.holds_of_euler hσ (hsaved i hi)).column p hp
  · obtain ⟨slab', rfl, hlast⟩ := h.steady.last_row hrun hpos hreach hrun'
    rw [(readsColumn_of_resolve hw hres slab' _ _).1]
    exact congrArg Except.ok ((h.holds_of_euler hσ hlast).column p hp)

/-- Two modules that read each other's stocks. -/
def haresAndLynxes (simSpecs : SimSpec) : SDProject :=
  .ofModels simSpecs [
    { name := none, vars := [
      { Var.ofEquation .module "hares" "" with
        eqn := none
        conns := [⟨cstr "area", cstr ".area"⟩, ⟨cstr "lynxes", cstr "lynxes.lynxes"⟩] },
      { Var.ofEquation .module "lynxes" "" with
        eqn := none
        conns := [⟨cstr "hares", cstr "hares.hares"⟩,
          ⟨cstr "hare_density", cstr "hares.hare_density"⟩] },
      Var.ofEquation .aux "area" "1000"] },
    { name := some (cstr "hares"), vars := [
      { Var.ofEquation .stock "hares" "50000" with
        inflows := [cstr "births"], outflows := [cstr "deaths"] },
      Var.ofEquation .flow "births" "hares * birth_fraction",
      Var.ofEquation .flow "deaths" "lynxes * hare_density",
      Var.ofEquation .aux "birth_fraction" "1.25",
      Var.ofEquation .aux "area" "0",
      Var.ofEquation .aux "hare_density" "hares / area",
      Var.ofEquation .stock "lynxes" "0"] },
    { name := some (cstr "lynxes"), vars := [
      { Var.ofEquation .stock "lynxes" "hares / 40" with
        inflows := [cstr "births"], outflows := [cstr "deaths"] },
      Var.ofEquation .flow "births" "lynxes * birth_fraction",
      Var.ofEquation .flow "deaths" "lynxes / hare_density",
      Var.ofEquation .aux "birth_fraction" "0.25",
      Var.ofEquation .aux "hare_density" "0",
      Var.ofEquation .stock "hares" "0"] }]

end Libsd

/-
  Libsd/Passes.lean
  =================
  **The calculation passes as lists of assignments.**

  `calc` and `calc_stocks` walk lists that contain modules, which stand for lists
  of their own.  On a simulation that `sd_sim_new` has built the walk comes to its
  end, and it executes the leaves of the nested lists as assignments, in order
  (`calc_eq_run`, `calcStocks_eq_run`).  What the passes write are columns of
  variables: never `time`, and never the same column in both.
-/
import Libsd.Lib.Assign
import Libsd.WellBuilt

namespace Libsd

open Assign

namespace SDSim

variable (s : SDSim)

/-- The column of a variable. -/
def col (p : Path) : Nat := (s.store p).offset

/-- `calc` takes an entry without a tree for a module. -/
def hollow (p : Path) : Bool := (s.store p).node.isNull

/-- `calc_stocks` goes by the type. -/
def isSub (p : Path) : Bool := s.typeAt p == some .module

def initialLeaves : List Path :=
  flatten s.hollow s.lists.initials s.calcFuel (s.lists.initials [])

def flowLeaves : List Path := flatten s.hollow s.lists.flows s.calcFuel (s.lists.flows [])

def stockLeaves : List Path := flatten s.isSub s.lists.stocks s.calcFuel (s.lists.stocks [])

/-- The value `calc_stocks` stores for a variable. -/
def stockValue (curr : Row) (p : Path) : Except Stop ℚ :=
  match s.typeAt p with
  | none => .error (.undefined .nullDeref)
  | some .stock => .ok (curr (s.col p) + s.netFlow curr p * s.spec.dt)
  | some _ => s.eval curr (s.store p).node

/-- The initial values, calculated on a row. -/
def initialsOf (row : Row) : Except Stop Row :=
  run s.col (fun p data => s.calcValue data p) s.initialLeaves row

/-- The flows, calculated on a row. -/
def flowsOf (row : Row) : Except Stop Row :=
  run s.col (fun p data => s.calcValue data p) s.flowLeaves row

/-- The stocks of the next row. -/
def stocksOf (curr next : Row) : Except Stop Row :=
  run s.col (fun p _ => s.stockValue curr p) s.stockLeaves next

/-- The columns an equation reads. -/
def readCols (p : Path) : List Nat := TIME :: (s.store p).node.idents.map s.identOffset

end SDSim

variable {s : SDSim}

/-! ### The depth of the run lists -/

theorem countAVars_lt {avars : List AVar} {p : Path} {av : AVar} (h : avarAt avars p = some av) :
    countAVars av.avars < countAVars avars := by
  induction p generalizing avars with
  | nil => simp [avarAt] at h
  | cons i rest ih =>
    rw [avarAt_cons] at h
    split at h
    · exact countAVars_avars_lt h
    · obtain ⟨c, hc, hrest⟩ := Option.bind_eq_some_iff.mp h
      exact (ih hrest).trans (countAVars_avars_lt hc)

theorem deep_lists {root : List AVar} {l : RunLists} (h : ListsWanted root l) (k : ListKind)
    (nested : Path → Bool) {fuel : Nat} {q : Path} (hfuel : countAVars (avarsAt root q) < fuel) :
    Deep nested (l.get k) fuel (l.get k q) := by
  induction fuel generalizing q with
  | zero => omega
  | succ fuel ih =>
    intro p hp _
    obtain ⟨⟨i, rest, rfl⟩, av, hav, -⟩ := h k q p hp
    refine ih ?_
    have hin : avarAt (avarsAt root q) (i :: rest) = some av := by
      rw [← avarAt_append_avarsAt (by simp), hav]
    have hbelow : avarsAt root (q ++ i :: rest) = av.avars := by
      rw [avarsAt, if_neg (by simp), hav]
    rw [hbelow]
    have := countAVars_lt hin
    omega

theorem deep_initials (h : WellBuilt s) :
    Deep s.hollow s.lists.initials s.calcFuel (s.lists.initials []) :=
  deep_lists h.wanted .initials s.hollow (Nat.lt_succ_self _)

theorem deep_flows (h : WellBuilt s) :
    Deep s.hollow s.lists.flows s.calcFuel (s.lists.flows []) :=
  deep_lists h.wanted .flows s.hollow (Nat.lt_succ_self _)

theorem deep_stocks (h : WellBuilt s) :
    Deep s.isSub s.lists.stocks s.calcFuel (s.lists.stocks []) :=
  deep_lists h.wanted .stocks s.isSub (Nat.lt_succ_self _)

/-! ### The passes run assignments -/

theorem calc_eq_run (s : SDSim) (list : Path → List Path) {fuel : Nat} {l : List Path}
    (h : Deep s.hollow list fuel l) (data : Row) :
    s.calc list fuel l data =
      run s.col (fun p data => s.calcValue data p) (flatten s.hollow list fuel l) data := by
  induction fuel generalizing l data with
  | zero => exact absurd h id
  | succ fuel ih =>
    rw [SDSim.calc]
    induction l generalizing data with
    | nil => rfl
    | cons p l ihl =>
      rw [flatten_cons, run_append, SDSim.calcLoop]
      have hhollow : (s.store p).node.isNull = s.hollow p := rfl
      rw [hhollow]
      by_cases hp : s.hollow p = true
      · rw [if_pos hp, if_pos hp, ih (h p List.mem_cons_self hp)]
        cases run s.col (fun p data => s.calcValue data p)
          (flatten s.hollow list fuel (list p)) data with
        | error e => rfl
        | ok d => exact ihl h.tail d
      · rw [if_neg hp, if_neg hp]
        simp only [run, bind, Except.bind]
        cases s.calcValue data p with
        | error e => rfl
        | ok v => exact ihl h.tail _

theorem calcStocks_eq_run (s : SDSim) (curr : Row) {fuel : Nat} {l : List Path}
    (h : Deep s.isSub s.lists.stocks fuel l)
    (hrow : flatten s.isSub s.lists.stocks fuel l ≠ [] → s.checkRow (s.saveStep + 1) = .ok ())
    (data : Row) :
    s.calcStocks curr fuel l data =
      run s.col (fun p _ => s.stockValue curr p) (flatten s.isSub s.lists.stocks fuel l) data := by
  induction fuel generalizing l data with
  | zero => exact absurd h id
  | succ fuel ih =>
    rw [SDSim.calcStocks]
    induction l generalizing data with
    | nil => rfl
    | cons p l ihl =>
      rw [flatten_cons] at hrow
      rw [flatten_cons, run_append, SDSim.calcStocksLoop]
      have htail := ihl h.tail fun hne => hrow (List.append_ne_nil_of_right_ne_nil _ hne)
      by_cases hp : s.isSub p = true
      · have ht : s.typeAt p = some .module := beq_iff_eq.mp hp
        rw [if_pos hp] at hrow
        rw [if_pos hp, ht]
        simp only [ih (h p List.mem_cons_self hp) fun hne =>
          hrow (List.append_ne_nil_of_left_ne_nil hne _)]
        cases run s.col (fun p _ => s.stockValue curr p)
          (flatten s.isSub s.lists.stocks fuel (s.lists.stocks p)) data with
        | error e => rfl
        | ok d => exact htail d
      · rw [if_neg hp] at hrow
        rw [if_neg hp]
        simp only [run, bind, Except.bind, SDSim.stockValue, hrow (List.cons_ne_nil _ _)]
        cases ht : s.typeAt p with
        | none => rfl
        | some t =>
          cases t with
          | module => exact absurd (beq_iff_eq.mpr ht) hp
          | stock => exact htail _
          | flow | aux | ref =>
            simp only
            cases s.eval curr (s.store p).node with
            | error e => rfl
            | ok v => exact htail _

theorem flowsPass_eq (h : WellBuilt s) :
    s.flowsPass = (do
      let row ← s.flowsOf s.curr
      return s.setRow s.saveStep row) := by
  rw [SDSim.flowsPass, calc_eq_run s _ (deep_flows h)]
  rfl

theorem stocksPass_eq (h : WellBuilt s)
    (hrow : s.stockLeaves ≠ [] → s.checkRow (s.saveStep + 1) = .ok ()) :
    s.stocksPass = (do
      let row ← s.stocksOf s.curr (s.slab (s.saveStep + 1))
      return s.setRow (s.saveStep + 1) row) := by
  rw [SDSim.stocksPass, calcStocks_eq_run s _ (deep_stocks h) hrow]
  rfl

theorem calcInitials_eq (h : WellBuilt s) (row : Row) :
    s.calc s.lists.initials s.calcFuel (s.lists.initials []) row = s.initialsOf row :=
  calc_eq_run s _ (deep_initials h) row

/-! ### What they read -/

theorem depends_calcValue (s : SDSim) : Depends (fun p data => s.calcValue data p) s.readCols := by
  intro p d d' hd
  have htime : d TIME = d' TIME := hd TIME List.mem_cons_self
  have heval : s.eval d (s.store p).node = s.eval d' (s.store p).node := by
    rw [SDSim.eval, SDSim.eval, htime]
    exact svisit_congr _ _ _ fun q hq =>
      hd _ (List.mem_cons_of_mem _ (List.mem_map_of_mem hq))
  simp only [SDSim.calcValue, heval]

/-! ### What they write -/

/-- The variable on a leaf of a run list. -/
theorem leaf_wanted (h : WellBuilt s) (k : ListKind) (nested : Path → Bool) {p : Path}
    (hp : p ∈ flatten nested (s.lists.get k) s.calcFuel (s.lists.get k [])) :
    (∃ av, avarAt s.root p = some av ∧ av.wants k = true) ∧ nested p = false :=
  mem_flatten nested (s.lists.get k)
    (P := fun p => ∃ av, avarAt s.root p = some av ∧ av.wants k = true)
    (fun a _ b hb => (h.wanted k a b hb).2) (fun a ha => (h.wanted k [] a ha).2) hp

/-- Variables of any kind but a module and a ref have a column. -/
theorem isColumn_of_type (h : WellBuilt s) {p : Path} {v : Var} {n : Node}
    (hp : avarAt s.root p = some (.var v n)) (hv : v.type ≠ .ref) :
    IsColumn s.root s.store p := by
  have hc := h.compiled p
  simp only [Compiled, hp] at hc
  refine ⟨v, n, hp, ?_⟩
  generalize s.store p = d at hc ⊢
  cases hc with
  | ref href => exact absurd href hv
  | time => rfl
  | equation => rfl

/-- Of the variables that are not connected, `calc` passes over those without an equation. -/
theorem hollow_iff_eqn (h : WellBuilt s) {p : Path} {v : Var} {n : Node}
    (hp : avarAt s.root p = some (.var v n)) (hv : v.type ≠ .ref) :
    s.hollow p = true ↔ v.eqn = none := by
  have hc := h.compiled p
  have htyped := h.typed p _ hp
  simp only [Compiled, hp] at hc
  unfold SDSim.hollow
  generalize s.store p = d at hc ⊢
  cases hc with
  | ref href => exact absurd href hv
  | time _ he _ => simp [AVarData.new, show n = .null from htyped.node_null he, he, Node.isNull]
  | equation _ _ hn =>
    simp only [AVarData.new, Node.isNull_link, hn, Bool.false_eq_true, false_iff]
    intro he
    rw [show n = .null from htyped.node_null he] at hn
    exact absurd hn (by simp [Node.isNull])

/-- Compilation keeps number literals. -/
theorem isFloatlit_node (h : WellBuilt s) {p : Path} {v : Var} {n : Node}
    (hp : avarAt s.root p = some (.var v n)) (hv : v.type ≠ .ref) :
    (s.store p).node.isFloatlit = n.isFloatlit := by
  have hc := h.compiled p
  simp only [Compiled, hp] at hc
  generalize s.store p = d at hc
  cases hc with
  | ref href => exact absurd href hv
  | time => rfl
  | equation => simp [AVarData.new]

theorem hollow_time (h : WellBuilt s) : s.hollow [0] = true := by
  have hc := h.compiled [0]
  have hat : avarAt s.root [0] = some (.var timeVar .null) := by simp [avarAt_cons, h.time]
  simp only [Compiled, hat] at hc
  unfold SDSim.hollow
  generalize s.store [0] = d at hc ⊢
  cases hc with
  | ref hv => simp [timeVar] at hv
  | time => rfl
  | equation _ he => exact absurd ⟨rfl, rfl⟩ he

theorem wants_time (h : WellBuilt s) {av : AVar} (hav : avarAt s.root [0] = some av) :
    av.wants .stocks = false := by
  obtain rfl : .var timeVar .null = av := by simpa [avarAt_cons, h.time] using hav
  rfl

/-- A variable on a run list that is not a module has a column. -/
theorem isColumn_of_wants (h : WellBuilt s) {k : ListKind} {p : Path} {av : AVar}
    (hav : avarAt s.root p = some av) (hw : av.wants k = true) (hm : av.isModule = false) :
    IsColumn s.root s.store p := by
  cases av with
  | module v avars => simp [AVar.isModule] at hm
  | var v n =>
    refine isColumn_of_type h hav fun hr => ?_
    cases k <;> simp [AVar.wants, AVar.v, hr] at hw

theorem not_isModule_of_hollow (h : WellBuilt s) {p : Path} {av : AVar}
    (hav : avarAt s.root p = some av) (hp : s.hollow p = false) : av.isModule = false := by
  cases av with
  | var => rfl
  | module v avars =>
    have hc := h.compiled p
    simp only [Compiled, hav] at hc
    obtain ⟨offset, hd⟩ := hc
    simp [SDSim.hollow, hd, AVarData.new, Node.isNull] at hp

theorem isModule_iff_isSub (h : WellBuilt s) {p : Path} {av : AVar}
    (hav : avarAt s.root p = some av) : av.isModule = s.isSub p := by
  rw [Bool.eq_iff_iff, (h.typed p av hav).isModule_iff]
  simp [SDSim.isSub, SDSim.typeAt, hav]

/-- A leaf of the flows or the initial values. -/
theorem calcLeaf (h : WellBuilt s) {k : ListKind} {p : Path}
    (hp : p ∈ flatten s.hollow (s.lists.get k) s.calcFuel (s.lists.get k [])) :
    ∃ av, avarAt s.root p = some av ∧ av.wants k = true ∧ av.isModule = false ∧
      IsColumn s.root s.store p ∧ p ≠ [0] ∧ s.hollow p = false := by
  obtain ⟨⟨av, hav, hw⟩, hh⟩ := leaf_wanted h k s.hollow hp
  have hm := not_isModule_of_hollow h hav hh
  refine ⟨av, hav, hw, hm, isColumn_of_wants h hav hw hm, ?_, hh⟩
  rintro rfl
  simp [hollow_time h] at hh

/-- A leaf of the stocks. -/
theorem stockLeaf (h : WellBuilt s) {p : Path} (hp : p ∈ s.stockLeaves) :
    ∃ av, avarAt s.root p = some av ∧ av.wants .stocks = true ∧ av.isModule = false ∧
      IsColumn s.root s.store p ∧ p ≠ [0] := by
  obtain ⟨⟨av, hav, hw⟩, hh⟩ := leaf_wanted h .stocks s.isSub hp
  have hm : av.isModule = false := by rw [isModule_iff_isSub h hav, hh]
  refine ⟨av, hav, hw, hm, isColumn_of_wants h hav hw hm, ?_⟩
  rintro rfl
  simp [wants_time h hav] at hw

theorem flowLeaf (h : WellBuilt s) {p : Path} (hp : p ∈ s.flowLeaves) :
    ∃ av, avarAt s.root p = some av ∧ av.wants .flows = true ∧ av.isModule = false ∧
      IsColumn s.root s.store p ∧ p ≠ [0] ∧ s.hollow p = false :=
  calcLeaf (k := .flows) h hp

theorem initialLeaf (h : WellBuilt s) {p : Path} (hp : p ∈ s.initialLeaves) :
    ∃ av, avarAt s.root p = some av ∧ av.wants .initials = true ∧ av.isModule = false ∧
      IsColumn s.root s.store p ∧ p ≠ [0] ∧ s.hollow p = false :=
  calcLeaf (k := .initials) h hp

theorem col_lt (h : WellBuilt s) (p : Path) : s.col p < s.nvars := h.numbered.lt p

theorem col_ne_time (h : WellBuilt s) {p : Path} (hp : IsColumn s.root s.store p) (hne : p ≠ [0]) :
    s.col p ≠ TIME :=
  h.numbered.ne_zero hp hne

theorem flowLeaves_inj (h : WellBuilt s) : ∀ p ∈ s.flowLeaves, ∀ q ∈ s.flowLeaves,
    s.col p = s.col q → p = q := by
  intro p hp q hq hpq
  obtain ⟨_, -, -, -, hcp, -⟩ := flowLeaf h hp
  obtain ⟨_, -, -, -, hcq, -⟩ := flowLeaf h hq
  exact h.numbered.inj p q hcp hcq hpq

/-- What wants to be a flow is neither a stock nor a constant. -/
theorem wants_flows_not_stocks {av : AVar} (hm : av.isModule = false)
    (htyped : av.Typed) (hf : av.wants .flows = true) :
    av.wants .stocks = false := by
  have ht : av.v.type ≠ .module := fun h => by
    simp [htyped.isModule_iff.mpr h] at hm
  cases hv : av.v.type <;> simp_all [AVar.wants]

/-- No column is written by both passes. -/
theorem flow_ne_stock (h : WellBuilt s) {p q : Path} (hp : p ∈ s.flowLeaves)
    (hq : q ∈ s.stockLeaves) : s.col p ≠ s.col q := by
  intro hpq
  obtain ⟨av, hav, hw, hm, hcp, -⟩ := flowLeaf h hp
  obtain ⟨av', hav', hw', -, hcq, -⟩ := stockLeaf h hq
  obtain rfl := h.numbered.inj p q hcp hcq hpq
  obtain rfl : av = av' := Option.some.inj (hav.symm.trans hav')
  rw [wants_flows_not_stocks hm (h.typed p av hav) hw] at hw'
  exact Bool.false_ne_true hw'

theorem stockLeaves_inj (h : WellBuilt s) : ∀ p ∈ s.stockLeaves, ∀ q ∈ s.stockLeaves,
    s.col p = s.col q → p = q := by
  intro p hp q hq hpq
  obtain ⟨_, -, -, -, hcp, -⟩ := stockLeaf h hp
  obtain ⟨_, -, -, -, hcq, -⟩ := stockLeaf h hq
  exact h.numbered.inj p q hcp hcq hpq

/-- What the next row holds for a stock or a constant. -/
theorem stocksOf_value (h : WellBuilt s) {row next n : Row} (hrun : s.stocksOf row next = .ok n)
    {p : Path} (hp : p ∈ s.stockLeaves) : s.stockValue row p = .ok (n (s.col p)) :=
  have hdep : Depends (fun p _ => s.stockValue row p) fun _ => [] := fun _ _ _ _ => rfl
  run_satisfies hdep (stockLeaves_inj h)
    (inOrder_of_split (fun _ _ _ _ _ hc => absurd hc List.not_mem_nil) []) hrun p hp

theorem initialLeaves_inj (h : WellBuilt s) : ∀ p ∈ s.initialLeaves, ∀ q ∈ s.initialLeaves,
    s.col p = s.col q → p = q := by
  intro p hp q hq hpq
  obtain ⟨_, -, -, -, hcp, -⟩ := initialLeaf h hp
  obtain ⟨_, -, -, -, hcq, -⟩ := initialLeaf h hq
  exact h.numbered.inj p q hcp hcq hpq

/-- The passes leave `time` and the columns above the count alone. -/
theorem flowsOf_frame (h : WellBuilt s) {row row' : Row} (hrun : s.flowsOf row = .ok row') {c : Nat}
    (hc : c = TIME ∨ s.nvars ≤ c) : row' c = row c := by
  refine run_frame hrun fun p hp hpc => ?_
  obtain ⟨_, -, -, -, hcol, hne, -⟩ := flowLeaf h hp
  rcases hc with rfl | hc
  · exact col_ne_time h hcol hne hpc
  · exact absurd (col_lt h p) (by omega)

theorem stocksOf_frame (h : WellBuilt s) {curr next next' : Row}
    (hrun : s.stocksOf curr next = .ok next') {c : Nat} (hc : c = TIME ∨ s.nvars ≤ c) :
    next' c = next c := by
  refine run_frame hrun fun p hp hpc => ?_
  obtain ⟨_, -, -, -, hcol, hne⟩ := stockLeaf h hp
  rcases hc with rfl | hc
  · exact col_ne_time h hcol hne hpc
  · exact absurd (col_lt h p) (by omega)

theorem initialsOf_frame (h : WellBuilt s) {row row' : Row} (hrun : s.initialsOf row = .ok row')
    {c : Nat} (hc : c = TIME ∨ s.nvars ≤ c) : row' c = row c := by
  refine run_frame hrun fun p hp hpc => ?_
  obtain ⟨_, -, -, -, hcol, hne, -⟩ := initialLeaf h hp
  rcases hc with rfl | hc
  · exact col_ne_time h hcol hne hpc
  · exact absurd (col_lt h p) (by omega)

end Libsd

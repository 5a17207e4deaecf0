/-
  Libsd/StockUpdate.lean
  ======================
  **`calc_stocks` on the slab as it lies in memory.**

  The slab is one array of doubles, and `s->curr` and `s->next` point into it.  Here
  `calc_stocks` runs on that array: what it reads, it reads from the memory that it is
  writing to.  On rows of `nvars` cells this is the pass of `Libsd/Sim.lean`
  (`calcStocksMem_eq`), so the new stocks are a function of the current row alone,
  whatever the order of the lists (`calcStocksMem_synchronous`).
-/
import Libsd.Trajectory

namespace Libsd

open Assign Outcome

/-- The cells of the slab. -/
abbrev Mem := Nat → ℚ

namespace SDSim

variable (s : SDSim)

/-- `sim_curr`, as an index into the slab. -/
def simCurr : Nat := s.saveStep * s.nvars

/-- `sim_next`. -/
def simNext : Nat := (s.saveStep + 1) * s.nvars

/-- What `s->curr` points to. -/
def currIn (mem : Mem) : Row := fun c => mem (s.simCurr + c)

/-- What `s->next` points to. -/
def nextIn (mem : Mem) : Row := fun c => mem (s.simNext + c)

/-- The loop of `calc_stocks`, with `data` being `s->next`. -/
def calcStocksMemLoop (sub : Path → Mem → Except Stop Mem) : List Path → Mem → Except Stop Mem
  | [], mem => .ok mem
  | p :: l, mem => do
    let mem ← match s.typeAt p with
      | none => .error (.undefined .nullDeref)
      | some .stock => do
        let prev := s.currIn mem (s.store p).offset
        let v := s.netFlow (s.currIn mem) p
        s.checkRow (s.saveStep + 1)
        pure (Function.update mem (s.simNext + (s.store p).offset) (prev + v * s.spec.dt))
      | some .module => sub p mem
      | some _ => do
        let v ← s.eval (s.currIn mem) (s.store p).node
        s.checkRow (s.saveStep + 1)
        pure (Function.update mem (s.simNext + (s.store p).offset) v)
    calcStocksMemLoop sub l mem

def calcStocksMem : Nat → List Path → Mem → Except Stop Mem
  | 0, _, _ => .error .diverge
  | fuel + 1, l, mem =>
    s.calcStocksMemLoop (fun p => calcStocksMem fuel (s.lists.stocks p)) l mem

/-- The memory with another row behind `s->next`. -/
def putNext (mem : Mem) (row : Row) : Mem := fun a =>
  if s.simNext ≤ a then row (a - s.simNext) else mem a

/-- The slab of a simulation, row after row. -/
def flat : Mem := fun a => s.slab (a / s.nvars) (a % s.nvars)

/-- The same simulation with other lists of stocks. -/
def withStocks (stocks : Path → List Path) : SDSim :=
  { s with lists := { s.lists with stocks := stocks } }

/-- A stock, or a variable of which the equation is a number. -/
def Updated (q : Path) : Prop :=
  ∃ v n, avarAt s.root q = some (.var v n) ∧ (v.type = .stock ∨ n.isFloatlit = true)

end SDSim

/-- From `mem` to `mem'` the stocks are updated at once: the current row stays, in the next
    one only columns of stocks and literal-valued variables change, and each gets the value
    that it has by the current row as it was. -/
structure Synchronous (s : SDSim) (mem mem' : Mem) : Prop where
  curr : ∀ c < s.nvars, mem' (s.simCurr + c) = mem (s.simCurr + c)
  frame : ∀ a, mem' a ≠ mem a →
    ∃ q ∈ s.stockLeaves, s.Updated q ∧ s.col q < s.nvars ∧ a = s.simNext + s.col q
  value : ∀ q ∈ s.stockLeaves, s.stockValue (s.currIn mem) q = .ok (mem' (s.simNext + s.col q))

variable {s : SDSim}

/-! ### The rows in the memory -/

@[simp] theorem nextIn_putNext (mem : Mem) (row : Row) : s.nextIn (s.putNext mem row) = row := by
  funext c
  simp [SDSim.nextIn, SDSim.putNext]

@[simp] theorem putNext_nextIn (mem : Mem) : s.putNext mem (s.nextIn mem) = mem := by
  funext a
  by_cases h : s.simNext ≤ a
  · rw [SDSim.putNext, if_pos h, SDSim.nextIn, Nat.add_sub_cancel' h]
  · rw [SDSim.putNext, if_neg h]

theorem update_putNext (mem : Mem) (row : Row) (c : Nat) (v : ℚ) :
    Function.update (s.putNext mem row) (s.simNext + c) v =
      s.putNext mem (Function.update row c v) := by
  funext a
  by_cases ha : a = s.simNext + c
  · subst ha
    simp [SDSim.putNext]
  · rw [Function.update_of_ne ha, SDSim.putNext, SDSim.putNext]
    by_cases h : s.simNext ≤ a
    · rw [if_pos h, if_pos h, Function.update_of_ne (by omega)]
    · rw [if_neg h, if_neg h]

/-- Below `nvars` cells the current row does not reach into the next. -/
theorem simCurr_lt {c : Nat} (hc : c < s.nvars) : s.simCurr + c < s.simNext := by
  rw [SDSim.simCurr, SDSim.simNext, Nat.succ_mul]
  exact Nat.add_lt_add_left hc _

theorem currIn_putNext (mem : Mem) (row : Row) {c : Nat} (hc : c < s.nvars) :
    s.currIn (s.putNext mem row) c = s.currIn mem c := by
  rw [SDSim.currIn, SDSim.putNext, if_neg (Nat.not_le.mpr (simCurr_lt hc))]
  rfl

/-! ### The pass on memory and the pass on rows -/

section
variable {row row' : Row} (hlt : ∀ p, s.col p < s.nvars) (htime : TIME < s.nvars)
  (hrow : ∀ c < s.nvars, row c = row' c)
include hlt hrow

theorem netFlow_congr (p : Path) : s.netFlow row p = s.netFlow row' p := by
  have hcol : ∀ q, row (s.store q).offset = row' (s.store q).offset := fun q => hrow _ (hlt q)
  simp only [SDSim.netFlow, hcol]

include htime

/-- Evaluation reads columns of the row and no cell behind it. -/
theorem eval_congr (n : Node) : s.eval row n = s.eval row' n := by
  rw [SDSim.eval, SDSim.eval, hrow TIME htime]
  refine svisit_congr _ _ _ fun p _ => hrow _ ?_
  unfold SDSim.identOffset
  split
  · exact hlt _
  · exact hlt _

theorem stockValue_congr (p : Path) : s.stockValue row p = s.stockValue row' p := by
  rw [SDSim.stockValue, SDSim.stockValue, eval_congr hlt htime hrow, netFlow_congr hlt hrow,
    hrow _ (hlt p)]

end

section
variable (hlt : ∀ p, s.col p < s.nvars) (htime : TIME < s.nvars)
include hlt htime

/-- On the memory, `calc_stocks` writes the row that it computes from the current one, and
    never reads what it has written. -/
theorem calcStocksMem_eq (mem : Mem) (fuel : Nat) (l : List Path) (data : Row) :
    s.calcStocksMem fuel l (s.putNext mem data) =
      (s.calcStocks (s.currIn mem) fuel l data).map (s.putNext mem) := by
  induction fuel generalizing l data with
  | zero => rfl
  | succ fuel ih =>
    rw [SDSim.calcStocksMem, SDSim.calcStocks]
    induction l generalizing data with
    | nil => rfl
    | cons p l ihl =>
      have hcurr : ∀ c < s.nvars, s.currIn (s.putNext mem data) c = s.currIn mem c :=
        fun c => currIn_putNext mem data
      rw [SDSim.calcStocksMemLoop, SDSim.calcStocksLoop]
      cases ht : s.typeAt p with
      | none => rfl
      | some t =>
        cases t with
        | stock =>
          have hprev : s.currIn (s.putNext mem data) (s.store p).offset =
              s.currIn mem (s.store p).offset := hcurr _ (hlt p)
          simp only [netFlow_congr hlt hcurr, hprev, update_putNext]
          cases s.checkRow (s.saveStep + 1) with
          | error e => rfl
          | ok _ => exact ihl _
        | module =>
          simp only [ih]
          cases s.calcStocks (s.currIn mem) fuel (s.lists.stocks p) data with
          | error e => rfl
          | ok d => exact ihl d
        | flow | aux | ref =>
          simp only [eval_congr hlt htime hcurr, update_putNext]
          cases s.eval (s.currIn mem) (s.store p).node with
          | error e => rfl
          | ok v =>
            cases s.checkRow (s.saveStep + 1) with
            | error e => rfl
            | ok _ => exact ihl _

end

theorem checkRow_of_calcStocks {curr data data' : Row} {fuel : Nat} {l : List Path}
    (h : s.calcStocks curr fuel l data = .ok data')
    (hne : flatten s.isSub s.lists.stocks fuel l ≠ []) : s.checkRow (s.saveStep + 1) = .ok () := by
  induction fuel generalizing l data data' with
  | zero => simp [SDSim.calcStocks] at h
  | succ fuel ih =>
    rw [SDSim.calcStocks] at h
    induction l generalizing data with
    | nil => exact absurd rfl hne
    | cons p l ihl =>
      rw [flatten_cons] at hne
      rw [SDSim.calcStocksLoop] at h
      cases hrow : s.checkRow (s.saveStep + 1) with
      | ok _ => rfl
      | error e =>
        -- only a module is got over, and only one without stocks
        cases ht : s.typeAt p with
        | none => simp [ht, bind, Except.bind] at h
        | some t =>
          cases t with
          | stock => simp [ht, hrow, bind, Except.bind] at h
          | flow | aux | ref =>
            simp only [ht, hrow, bind, Except.bind] at h
            cases hv : s.eval curr (s.store p).node <;> simp [hv] at h
          | module =>
            have hp : s.isSub p = true := beq_iff_eq.mpr ht
            rw [if_pos hp] at hne
            simp only [ht] at h
            obtain ⟨d, hd, h⟩ := bind_eq_ok h
            rw [← hrow]
            by_cases hsub : flatten s.isSub s.lists.stocks fuel (s.lists.stocks p) = []
            · exact ihl h fun hrest => hne (List.append_eq_nil_iff.mpr ⟨hsub, hrest⟩)
            · exact ih hd hsub

/-- A pass that returns has written, unless there was nothing to write. -/
theorem calcStocks_ok_iff {curr data data' : Row} {fuel : Nat} {l : List Path}
    (h : Deep s.isSub s.lists.stocks fuel l) : s.calcStocks curr fuel l data = .ok data' ↔
      (flatten s.isSub s.lists.stocks fuel l ≠ [] → s.checkRow (s.saveStep + 1) = .ok ()) ∧
        run s.col (fun p _ => s.stockValue curr p) (flatten s.isSub s.lists.stocks fuel l) data =
          .ok data' := by
  constructor
  · intro hok
    have hrow := checkRow_of_calcStocks hok
    exact ⟨hrow, by rwa [← calcStocks_eq_run s curr h hrow]⟩
  · rintro ⟨hrow, hrun⟩
    rwa [calcStocks_eq_run s curr h hrow]

/-- What the pass leaves in memory. -/
theorem calcStocksMem_ok_iff (hlt : ∀ p, s.col p < s.nvars) (htime : TIME < s.nvars) {fuel : Nat}
    {l : List Path} (h : Deep s.isSub s.lists.stocks fuel l) {mem mem' : Mem} :
    s.calcStocksMem fuel l mem = .ok mem' ↔
      (flatten s.isSub s.lists.stocks fuel l ≠ [] → s.checkRow (s.saveStep + 1) = .ok ()) ∧
        ∃ row, run s.col (fun p _ => s.stockValue (s.currIn mem) p)
            (flatten s.isSub s.lists.stocks fuel l) (s.nextIn mem) = .ok row ∧
          mem' = s.putNext mem row := by
  have heq := calcStocksMem_eq hlt htime mem fuel l (s.nextIn mem)
  rw [putNext_nextIn] at heq
  rw [heq]
  constructor
  · intro hok
    cases hrow : s.calcStocks (s.currIn mem) fuel l (s.nextIn mem) with
    | error e => simp [hrow, Except.map] at hok
    | ok row =>
      obtain ⟨hcheck, hrun⟩ := (calcStocks_ok_iff h).mp hrow
      rw [hrow] at hok
      exact ⟨hcheck, row, hrun, (Except.ok.inj hok).symm⟩
  · rintro ⟨hcheck, row, hrun, rfl⟩
    rw [(calcStocks_ok_iff h).mpr ⟨hcheck, hrun⟩]
    rfl

/-! ### The slab of a simulation -/

theorem flat_cell {i c : Nat} (hc : c < s.nvars) : s.flat (i * s.nvars + c) = s.slab i c := by
  have hpos : 0 < s.nvars := Nat.zero_lt_of_lt hc
  rw [SDSim.flat, Nat.add_comm, Nat.add_mul_div_right _ _ hpos, Nat.div_eq_of_lt hc, Nat.zero_add,
    Nat.add_mul_mod_self_right, Nat.mod_eq_of_lt hc]

theorem time_lt (hw : WellBuilt s) : TIME < s.nvars := by
  have h := hw.numbered.lt [0]
  rwa [hw.numbered.time.2] at h

/-- What a step of the simulation does to its rows, `calc_stocks` does to its slab. -/
theorem stocksPass_mem (hw : WellBuilt s) {t : SDSim} (h : s.stocksPass = .ok t) :
    ∃ mem, s.calcStocksMem s.calcFuel (s.lists.stocks []) s.flat = .ok mem ∧
      ∀ i, ∀ c < s.nvars, mem (i * s.nvars + c) = t.slab i c := by
  simp only [SDSim.stocksPass] at h
  obtain ⟨row, hrow, h⟩ := bind_eq_ok h
  obtain rfl := Except.ok.inj h
  obtain ⟨hcheck, hrun⟩ := (calcStocks_ok_iff (deep_stocks hw)).mp hrow
  have hcurr : ∀ c < s.nvars, s.curr c = s.currIn s.flat c := fun c hc => (flat_cell hc).symm
  rw [run_congr fun q _ _ => stockValue_congr (col_lt hw) (time_lt hw) hcurr q] at hrun
  obtain ⟨row', hrun', hin, hout⟩ := run_const (fun _ _ _ => rfl) hrun (s.nextIn s.flat)
  refine ⟨s.putNext s.flat row',
    (calcStocksMem_ok_iff (col_lt hw) (time_lt hw) (deep_stocks hw)).mpr ⟨hcheck, row', hrun', rfl⟩,
    fun i c hc => ?_⟩
  have hslab : (s.setRow (s.saveStep + 1) row).slab = Function.update s.slab (s.saveStep + 1) row :=
    rfl
  rw [hslab]
  rcases Nat.lt_trichotomy i (s.saveStep + 1) with hi | rfl | hi
  · have hlt : i * s.nvars + c < s.simNext := by
      have := Nat.mul_le_mul_right s.nvars (Nat.succ_le_of_lt hi)
      rw [Nat.succ_mul] at this
      exact Nat.lt_of_lt_of_le (Nat.add_lt_add_left hc _) this
    rw [Function.update_of_ne hi.ne, SDSim.putNext, if_neg (Nat.not_le.mpr hlt), flat_cell hc]
  · have hcell : s.putNext s.flat row' (s.simNext + c) = row' c :=
      congrFun (nextIn_putNext s.flat row') c
    rw [Function.update_self, show (s.saveStep + 1) * s.nvars = s.simNext from rfl, hcell]
    by_cases hleaf : ∃ q ∈ s.stockLeaves, s.col q = c
    · exact hin c hleaf
    · have hno : ∀ q ∈ s.stockLeaves, s.col q ≠ c := fun q hq hqc => hleaf ⟨q, hq, hqc⟩
      rw [hout c hno, run_frame hrun hno]
      exact flat_cell hc
  · -- the rows further on are behind every column of the next
    have hle : s.simNext + s.nvars ≤ i * s.nvars := by
      have := Nat.mul_le_mul_right s.nvars (Nat.succ_le_of_lt hi)
      rwa [Nat.succ_mul] at this
    have hno : ∀ q ∈ s.stockLeaves, s.col q ≠ i * s.nvars + c - s.simNext := by
      intro q _ hqc
      have := col_lt hw q
      omega
    rw [Function.update_of_ne hi.ne', SDSim.putNext, if_pos (by omega), hout _ hno, SDSim.nextIn,
      Nat.add_sub_cancel' (by omega), flat_cell hc]

/-! ### Every state of every simulation -/

section
variable {s0 : SDSim} {env : Env} {p : SDProject} {name : Option CStr}

theorem updated_of_leaf (hw : WellBuilt s) {q : Path} (hq : q ∈ s.stockLeaves) : s.Updated q := by
  obtain ⟨av, hav, hwants, -, ⟨v, n, hv, -⟩, -⟩ := stockLeaf hw hq
  obtain rfl : av = .var v n := Option.some.inj (hav.symm.trans hv)
  refine ⟨v, n, hv, ?_⟩
  cases ht : v.type with
  | stock => exact .inl rfl
  | flow | aux =>
    exact .inr (by simpa [AVar.wants, AVar.v, AVar.isConst, AVar.node, ht] using hwants)
  | ref => simp [AVar.wants, AVar.v, ht] at hwants
  | module =>
    have htyped := (hw.typed q _ hav).isModule_iff.mpr ht
    simp [AVar.isModule] at htyped

theorem synchronous_of_ok (hw : WellBuilt s) {mem mem' : Mem}
    (h : s.calcStocksMem s.calcFuel (s.lists.stocks []) mem = .ok mem') :
      Synchronous s mem mem' := by
  obtain ⟨-, row, hrun, rfl⟩ :=
    (calcStocksMem_ok_iff (col_lt hw) (time_lt hw) (deep_stocks hw)).mp h
  have hrun : s.stocksOf (s.currIn mem) (s.nextIn mem) = .ok row := hrun
  refine ⟨fun c hc => currIn_putNext mem row hc, fun a ha => ?_, fun q hq => ?_⟩
  · -- a cell that changes is in the next row, and not outside the targets
    have hle : s.simNext ≤ a := by
      by_contra hlt
      exact ha (if_neg hlt)
    obtain ⟨c, rfl⟩ := Nat.exists_eq_add_of_le hle
    by_contra hno
    refine ha ?_
    have hframe : row c = s.nextIn mem c := run_frame hrun fun q hq hqc =>
      hno ⟨q, hq, updated_of_leaf hw hq, col_lt hw q, by rw [← hqc]⟩
    rw [SDSim.putNext, if_pos hle, Nat.add_sub_cancel_left, hframe]
    rfl
  · rw [stocksOf_value hw hrun hq]
    simp [SDSim.putNext]

/-- In every state of a simulation that has been built, whatever is in the slab, the stocks
    are updated synchronously, and to the same memory in every order of every list. -/
theorem calcStocksMem_synchronous (h : sdSimNew env p name = .ok s0) (hs : SameSetup s0 s)
    (mem : Mem) :
    (∀ mem', s.calcStocksMem s.calcFuel (s.lists.stocks []) mem = .ok mem' →
      Synchronous s mem mem') ∧
    ∀ stocks : Path → List Path, (∀ m, (s.lists.stocks m).Perm (stocks m)) → ∀ mem',
      s.calcStocksMem s.calcFuel (s.lists.stocks []) mem = .ok mem' ↔
        (s.withStocks stocks).calcStocksMem s.calcFuel (stocks []) mem = .ok mem' := by
  have hw : WellBuilt s := hs.wellBuilt (sdSimNew_isReset h).1.built
  refine ⟨fun mem' => synchronous_of_ok hw, fun stocks hperm mem' => ?_⟩
  have hmem : ∀ m q, q ∈ s.lists.stocks m ↔ q ∈ stocks m := fun m q => (hperm m).mem_iff
  -- the lists have the same leaves, and a leaf has the same value wherever it comes
  have hleaf : ∀ q, q ∈ s.stockLeaves ↔ q ∈ flatten s.isSub stocks s.calcFuel (stocks []) :=
    mem_flatten_congr s.isSub s.lists.stocks hmem (hmem [])
  have hnil : s.stockLeaves = [] ↔ flatten s.isSub stocks s.calcFuel (stocks []) = [] := by
    simp only [List.eq_nil_iff_forall_not_mem, hleaf]
  have hdeep : Deep s.isSub stocks s.calcFuel (stocks []) :=
    (deep_stocks hw).congr s.isSub s.lists.stocks hmem (hmem [])
  have hlt := col_lt hw
  have htime := time_lt hw
  have hlt' : ∀ q, (s.withStocks stocks).col q < (s.withStocks stocks).nvars := hlt
  have htime' : TIME < (s.withStocks stocks).nvars := htime
  rw [calcStocksMem_ok_iff hlt htime (deep_stocks hw), calcStocksMem_ok_iff hlt' htime' hdeep]
  refine and_congr (imp_congr_left (not_congr hnil)) (exists_congr fun row =>
    and_congr_left fun _ => ?_)
  exact run_const_of_mem (fun _ _ _ => rfl) (stockLeaves_inj hw) hleaf _ _

/-- Two stocks that a flow empties and fills. -/
def exchange (simSpecs : SimSpec) : SDProject :=
  .ofModels simSpecs [{ name := none, vars := [
    { Var.ofEquation .stock "source" "8" with outflows := [cstr "passing"] },
    { Var.ofEquation .stock "sink" "0" with inflows := [cstr "passing"] },
    Var.ofEquation .flow "passing" "source / share",
    Var.ofEquation .aux "share" "2"] }]

theorem calcStocksMem_exchange : ∃ s mem,
    sdSimNew (.plain true) (exchange ⟨0, 2, 1, 1⟩) none = .ok s ∧
    s.calcStocksMem s.calcFuel (s.lists.stocks []) s.flat = .ok mem ∧
    mem (s.simNext + s.col [1]) = 4 ∧ mem (s.simNext + s.col [2]) = 4 ∧
      Synchronous s s.flat mem := by
  obtain ⟨⟨s, mem⟩, h, hs⟩ := exists_ok
    (P := fun r : SDSim × Mem => decide (r.2 (r.1.simNext + r.1.col [1]) = 4 ∧
      r.2 (r.1.simNext + r.1.col [2]) = 4))
    (x := do
      let s ← sdSimNew (.plain true) (exchange ⟨0, 2, 1, 1⟩) none
      let mem ← s.calcStocksMem s.calcFuel (s.lists.stocks []) s.flat
      return (s, mem)) (by decide +kernel)
  obtain ⟨s1, hnew, h⟩ := bind_eq_ok h
  obtain ⟨mem1, hmem, h⟩ := bind_eq_ok h
  obtain ⟨rfl, rfl⟩ : s1 = s ∧ mem1 = mem := by simpa [pure, Except.pure] using h
  obtain ⟨h1, h2⟩ := of_decide_eq_true hs
  have hsame : SameSetup s1 s1 := ⟨rfl, rfl, rfl, rfl, rfl, rfl⟩
  exact ⟨s1, mem1, hnew, hmem, h1, h2,
    (calcStocksMem_synchronous hnew hsame s1.flat).1 mem1 hmem⟩

end

end Libsd

/-
  Libsd/ConnectedInputs.lean
  ==========================
  **Where a connected input is read.**

  `svisit` follows one connection and `calc_stocks` none, and a connected input has
  offset 0, the column of `time`.  So an identifier is read right when its chain of
  connections has one link, a flow of a stock never, except for chains that end at
  `time` (`readsInputs_iff`).
-/
import Libsd.NamedResults

namespace Libsd

open Outcome

/-- `p` is a connected input, and `e` the simulated variable its connections lead to. -/
structure SDSim.LeadsTo (s : SDSim) (p e : Path) : Prop where
  input : (s.store p).src ≠ none
  ends : EndsAt s.store p e
  column : IsColumn s.root s.store e

/-- Reading a connected input gives what stands in the row for the variable it leads to. -/
structure ReadsInputs (s : SDSim) : Prop where
  ident : ∀ v, ∀ p ∈ (s.store v).node.idents, ∀ e, s.LeadsTo p e → ∀ (name : CStr) (row : Row),
    s.eval row (.ident name (some p)) = .ok (row (s.col e))
  /-- The terms that `calc_stocks` adds and subtracts. -/
  flow : ∀ v, ∀ p ∈ (s.store v).inflows ++ (s.store v).outflows, ∀ e, s.LeadsTo p e → ∀ row : Row,
    row (s.store p).offset = row (s.col e)

structure InputsDirect (s : SDSim) : Prop where
  ident : ∀ v, ∀ p ∈ (s.store v).node.idents, ∀ q e, (s.store p).src = some q → s.LeadsTo p e →
    q = e ∨ e = [0]
  flow : ∀ v, ∀ p ∈ (s.store v).inflows ++ (s.store v).outflows, ∀ e, s.LeadsTo p e → e = [0]

variable {s s' : SDSim}

/-- A connected input has no column of its own. -/
theorem col_of_src {p q : Path} (h : WellBuilt s) (hq : (s.store p).src = some q) :
    s.col p = 0 := by
  refine h.numbered.zero p ?_
  rintro ⟨v, n, -, hnone⟩
  rw [hq] at hnone
  cases hnone

/-- Two columns are the same when every row has the same number in both. -/
theorem col_eq_of_rows {a b : Nat} (h : ∀ row : Row, row a = row b) : a = b := by
  exact_mod_cast h fun k => (k : ℚ)

/-- The rest of the chain, behind its first connection. -/
theorem SDSim.LeadsTo.next {p q e : Path} (he : s.LeadsTo p e) (hq : (s.store p).src = some q) :
    EndsAt s.store q e := by
  cases he.ends with
  | here hnone =>
    rw [hq] at hnone
    cases hnone
  | step hq' hend =>
    obtain rfl := Option.some.inj (hq.symm.trans hq')
    exact hend

theorem SDSim.LeadsTo.time_of_col_zero {p e : Path} (h : WellBuilt s) (he : s.LeadsTo p e)
    (h0 : s.col e = 0) : e = [0] := by
  by_contra hne
  exact h.numbered.ne_zero he.column hne h0

/-- `svisit` reads the column at the end of a direct connection. -/
theorem identOffset_of_direct (h : WellBuilt s) {p q e : Path} (hq : (s.store p).src = some q)
    (he : s.LeadsTo p e) (hd : q = e ∨ e = [0]) : s.identOffset p = s.col e := by
  have hread : s.identOffset p = s.col q := by simp [SDSim.identOffset, hq, SDSim.col]
  rw [hread]
  rcases hd with rfl | rfl
  · rfl
  · cases hsrc : (s.store q).src with
    | none => rw [(he.next hq).eq_of_src_none hsrc]
    | some q' => exact (col_of_src h hsrc).trans h.numbered.time.2.symm

theorem readsInputs_of_wellBuilt (h : WellBuilt s) : ReadsInputs s ↔ InputsDirect s := by
  constructor
  · intro hr
    constructor
    · intro v p hp q e hq he
      have hread : ∀ row : Row, row (s.store q).offset = row (s.col e) := by
        intro row
        have hval := hr.ident v p hp e he [] row
        simpa only [SDSim.eval, svisit, SDSim.identOffset, hq, Except.ok.injEq] using hval
      have hcol : s.col q = s.col e := col_eq_of_rows hread
      cases hsrc : (s.store q).src with
      | none => exact .inl ((he.next hq).eq_of_src_none hsrc).symm
      | some q' =>
        rw [col_of_src h hsrc] at hcol
        exact .inr (he.time_of_col_zero h hcol.symm)
    · intro v p hp e he
      have hcol : s.col p = s.col e := col_eq_of_rows (hr.flow v p hp e he)
      obtain ⟨q, hq⟩ := Option.ne_none_iff_exists'.mp he.input
      rw [col_of_src h hq] at hcol
      exact he.time_of_col_zero h hcol.symm
  · intro hd
    constructor
    · intro v p hp e he name row
      obtain ⟨q, hq⟩ := Option.ne_none_iff_exists'.mp he.input
      have hcol := identOffset_of_direct h hq he (hd.ident v p hp q e hq he)
      exact congrArg (fun c => Except.ok (row c)) hcol
    · intro v p hp e he row
      obtain ⟨q, hq⟩ := Option.ne_none_iff_exists'.mp he.input
      obtain rfl := hd.flow v p hp e he
      exact congrArg row ((col_of_src h hq).trans h.numbered.time.2.symm)

/-- In every state of a simulation connected inputs are read right exactly when each one
    that an equation names is connected directly, and none is a flow of a stock, those
    connected to `time` apart. -/
theorem readsInputs_iff {env : Env} {p : SDProject} {model : Option CStr}
    (h : sdSimNew env p model = .ok s) {cs : List Call} (hcs : s.calls cs = .ok s') :
    ReadsInputs s' ↔ InputsDirect s' := by
  have hw := (sdSimNew_isReset h).1.built
  exact readsInputs_of_wellBuilt ((calls_sameSetup hw hcs).wellBuilt hw)

theorem readsInputs_moduleFirst : ∃ s s',
    sdSimNew (.plain true) (moduleFirst ⟨0, 3, 1, 1⟩) none = .ok s ∧
    s.calls [.runToEnd] = .ok s' ∧ (ReadsInputs s' ↔ InputsDirect s') := by
  obtain ⟨⟨s, s'⟩, h, -⟩ := exists_ok (P := fun _ : SDSim × SDSim => true)
    (x := do
      let s ← sdSimNew (.plain true) (moduleFirst ⟨0, 3, 1, 1⟩) none
      let s' ← s.calls [.runToEnd]
      return (s, s')) (by decide +kernel)
  obtain ⟨s1, hnew, h⟩ := bind_eq_ok h
  obtain ⟨s2, hcs, h⟩ := bind_eq_ok h
  obtain ⟨rfl, rfl⟩ : s1 = s ∧ s2 = s' := by simpa [pure, Except.pure] using h
  exact ⟨s1, s2, hnew, hcs, readsInputs_iff hnew hcs⟩

/-- `y` is two connections away from `a`, and the stock `level` has the input `in` of its
    module as inflow. -/
def chained (simSpecs : SimSpec) : SDProject :=
  .ofModels simSpecs [
    { name := none, vars := [
      { Var.ofEquation .module "m" "" with eqn := none, conns := [⟨cstr "in", cstr "a"⟩] },
      Var.ofEquation .aux "a" "time + 1"] },
    { name := some (cstr "m"), vars := [
      Var.ofEquation .aux "in" "0",
      { Var.ofEquation .stock "level" "0" with inflows := [cstr "in"] },
      { Var.ofEquation .module "n" "" with eqn := none, conns := [⟨cstr "in2", cstr "in"⟩] }] },
    { name := some (cstr "n"), vars := [
      Var.ofEquation .aux "in2" "0",
      Var.ofEquation .aux "y" "in2"] }]

/-- `in2` leads to `a`, which is 2 at time 1; `y` is the time there, and `level` has grown
    by the time, 0, where `a` was 1. -/
theorem chained_misread : ∃ s s', sdSimNew (.plain true) (chained ⟨0, 2, 1, 1⟩) none = .ok s ∧
    s.calls [.runToEnd] = .ok s' ∧ s'.LeadsTo [1, 2, 0] [2] ∧ s'.LeadsTo [1, 0] [2] ∧
    s'.slab 0 (s'.col [2]) = 1 ∧ s'.slab 1 (s'.col [2]) = 2 ∧ s'.slab 1 (s'.col [1, 2, 1]) = 1 ∧
    s'.slab 1 (s'.col [1, 1]) = 0 ∧ ¬ ReadsInputs s' := by
  obtain ⟨⟨s, s'⟩, h, hs⟩ := exists_ok
    (P := fun r : SDSim × SDSim => decide ((r.2.store [1, 2, 0]).src = some [1, 0] ∧
        (r.2.store [1, 0]).src = some [2] ∧ (r.2.store [2]).src = none) &&
      decide ((avarAt r.2.root [2]).map AVar.isModule = some false) &&
      decide ([1, 0] ∈ (r.2.store [1, 1]).inflows) &&
      decide (r.2.slab 0 (r.2.col [2]) = 1 ∧ r.2.slab 1 (r.2.col [2]) = 2 ∧
        r.2.slab 1 (r.2.col [1, 2, 1]) = 1 ∧ r.2.slab 1 (r.2.col [1, 1]) = 0))
    (x := do
      let s ← sdSimNew (.plain true) (chained ⟨0, 2, 1, 1⟩) none
      let s' ← s.calls [.runToEnd]
      return (s, s')) (by decide +kernel)
  obtain ⟨s1, hnew, h⟩ := bind_eq_ok h
  obtain ⟨s2, hcs, h⟩ := bind_eq_ok h
  obtain ⟨rfl, rfl⟩ : s1 = s ∧ s2 = s' := by simpa [pure, Except.pure] using h
  simp only [Bool.and_eq_true, decide_eq_true_eq] at hs
  obtain ⟨⟨⟨⟨hin2, hin, ha⟩, hvar⟩, hflow⟩, hrow0, hrow1, hy, hlevel⟩ := hs
  have hcol : IsColumn s2.root s2.store [2] := by
    obtain ⟨av, hav, hmod⟩ := Option.map_eq_some_iff.mp hvar
    cases av with
    | var v n => exact ⟨v, n, hav, ha⟩
    | module => simp [AVar.isModule] at hmod
  have hlink : s2.LeadsTo [1, 0] [2] := ⟨by simp [hin], .step hin (.here ha), hcol⟩
  have hw := (calls_sameSetup (sdSimNew_isReset hnew).1.built hcs).wellBuilt
    (sdSimNew_isReset hnew).1.built
  refine ⟨s1, s2, hnew, hcs, ⟨by simp [hin2], .step hin2 (.step hin (.here ha)), hcol⟩, hlink,
    hrow0, hrow1, hy, hlevel, fun hr => ?_⟩
  have := ((readsInputs_of_wellBuilt hw).mp hr).flow [1, 1] [1, 0]
    (List.mem_append_left _ hflow) [2] hlink
  simp at this

end Libsd

/-
  Libsd/ConsistentRows.lean
  =========================
  **The rows after a pass, and loops through connections.**

  Where every source is listed before its readers (`SourcesFirst`), a reset and every flows
  pass of a run leave a consistent row: the flows are satisfied by the pass itself, and the
  numbers keep the values that the stock pass gives them.  An equation that reads another
  one's variable stands behind it on the list of initial values, so there is no loop.
-/
import Libsd.SourcesFirst

namespace Libsd

open Assign Outcome Relation

variable {s t u u' : SDSim} {p q : Path} {stop : ℚ}

/-! ### Reading through a connection -/

/-- Connected inputs are read in the column that they lead to. -/
theorem SourcesFirst.inputs (hw : WellBuilt s) (hc : SourcesFirst s) (row : Row)
    (hp : s.Calculated p) (hq : q ∈ (s.store p).node.idents) {e : Path} (he : s.LeadsTo q e)
    (name : CStr) : s.eval row (.ident name (some q)) = .ok (row (s.col e)) := by
  obtain ⟨q', hq'⟩ := Option.ne_none_iff_exists'.mp he.input
  have hcol := identOffset_of_direct hw hq' he (hc.direct p hp q hq q' e hq' he)
  exact congrArg (fun c => Except.ok (row c)) hcol

theorem consistent_of_values (hw : WellBuilt s) (hc : SourcesFirst s) {row : Row}
    (h : ∀ p, s.Calculated p → s.calcValue row p = .ok (row (s.col p))) : Consistent s row where
  value p v n hp hv he := h p ⟨v, n, hp, hv, he⟩
  inputs _ hp _ hq _ he name := hc.inputs hw row hp hq he name

/-! ### The initial values -/

theorem consistent_initial {env : Env} {project : SDProject} {name : Option CStr}
    (h : sdSimNew env project name = .ok s) (hc : SourcesFirst s) : Consistent s s.curr := by
  have hr := (sdSimNew_isReset h).1
  refine consistent_of_values hr.built hc fun p hp => ?_
  rw [SDSim.curr, hr.saveStep]
  exact satisfied (k := .initials) hr.built hc hp (initialLeaf_of_calculated h hc hp) hr.initial

/-- A later reset leaves the same row. -/
theorem consistent_afterInitials {env : Env} {project : SDProject} {name : Option CStr}
    (h : sdSimNew env project name = .ok s) (hc : SourcesFirst s) (hu : s.AfterInitials u) :
    Consistent s u.curr := by
  rcases hu with rfl | ⟨cs, t, hcs, hreset⟩
  · exact consistent_initial h hc
  · have hr := (sdSimNew_isReset h).1
    have hsame := hr.reset_of_same (calls_sameSetup hr.built hcs)
    obtain rfl := Except.ok.inj (hsame.symm.trans hreset)
    exact consistent_initial h hc

/-! ### The rows of a run -/

theorem IsReset.calls_moved (hr : IsReset s) {cs : List Call} : ∀ {t t' : SDSim}, s.MovedTo t →
    t.calls cs = .ok t' → s.MovedTo t' := by
  induction cs with
  | nil => exact fun ht h => Except.ok.inj h ▸ ht
  | cons c cs ih =>
    intro t t' ht h
    obtain ⟨t1, h1, h⟩ := bind_eq_ok h
    refine ih ?_ h
    cases c with
    | runTo stop => exact ht.trans (runLoop_moved h1)
    | runToEnd => exact ht.trans (runLoop_moved h1)
    | reset => exact Except.ok.inj ((hr.reset_of_same ht.sameSetup).symm.trans h1) ▸ .refl s

theorem SDSim.Turn.moved (h : SDSim.Turn stop u u') : u.MovedTo u' := by
  obtain ⟨-, -, u1, u2, h1, h2, -, h3⟩ := h
  exact ((flowsPass_moved h1).trans (stocksPass_moved h2)).trans (advance_moved h3)

theorem turns_moved (h : ReflTransGen (SDSim.Turn stop) u u') : u.MovedTo u' := by
  induction h with
  | refl => exact .refl u
  | tail _ hturn ih => exact ih.trans hturn.moved

theorem flowsOf_of_flowsPass (hw : WellBuilt s) (hm : s.MovedTo u) (h : u.flowsPass = .ok u') :
    s.flowsOf u.curr = .ok u'.curr := by
  obtain ⟨slab, j, m, rfl⟩ := hm
  rw [moved_flowsPass hw] at h
  obtain ⟨row, hrow, h⟩ := bind_eq_ok h
  obtain rfl := Except.ok.inj h
  exact hrow.trans (congrArg Except.ok (Function.update_self m row slab).symm)

/-! ### Numbers -/

theorem SDSim.Turn.unbounded (h : SDSim.Turn stop u u') :
    SDSim.Turn stop u.unbounded u'.unbounded := by
  obtain ⟨hstep, hstop, u1, u2, h1, h2, hlast, h3⟩ := h
  exact ⟨hstep, hstop, u1.unbounded, u2.unbounded, unbounded_flowsPass h1, unbounded_stocksPass h2,
    hlast, unbounded_advance h3⟩

/-- In the course of a run a number keeps the value that it has after the reset. -/
theorem literal_kept {env : Env} {project : SDProject} {name : Option CStr}
    (h : sdSimNew env project name = .ok s) {cs : List Call} (hcs : s.calls cs = .ok t)
    (hturns : ReflTransGen (SDSim.Turn stop) t u) {v : Var} {n : Node}
    (hq : avarAt s.root q = some (.var v n)) (hv : v.type = .flow ∨ v.type = .aux) {txt : CStr}
    {x : ℚ} (hnode : (s.store q).node = .floatlit txt x) (hflow : q ∉ s.flowLeaves)
    (hmem : q ∈ s.stockLeaves) (h0 : s.curr (s.col q) = x) : u.curr (s.col q) = x := by
  have hr := (sdSimNew_isReset (unbounded_new h)).1
  obtain ⟨-, -, -, -, hcol, hne⟩ := stockLeaf hr.built hmem
  have hval : ∀ row, s.unbounded.stockValue row q = .ok x := fun row => by
    rw [stockValue_eq_eval (s := s.unbounded) hq hv,
      show (s.unbounded.store q).node = .floatlit txt x from hnode]
    rfl
  have hstart : HoldsUpTo s.unbounded q x 0 s.unbounded.slab := fun i hi => by
    obtain rfl : i = 0 := Nat.le_zero.mp (hi.resolve_right (not_not.mpr hmem))
    rw [← h0, SDSim.curr, show s.saveStep = 0 from hr.saveStep]
    rfl
  have hcs' := unbounded_calls hcs
  rw [hr.eq_moved] at hcs'
  obtain ⟨slab, j, m, ht, hholds⟩ :=
    HoldsUpTo.calls hr.built hcol hne hflow (fun _ => hval) rfl hr hstart hstart hcs'
  have hturns' : ReflTransGen (SDSim.Turn stop) t.unbounded u.unbounded :=
    hturns.lift SDSim.unbounded fun _ _ => SDSim.Turn.unbounded
  rw [ht] at hturns'
  obtain ⟨slab', j', m', hu, hholds'⟩ :=
    hholds.turns hr.built hcol hne hflow (fun _ => hval) rfl hturns'
  have hcurr : u.curr = slab' m' := congrArg SDSim.curr hu
  rw [hcurr]
  exact hholds' m' (.inl le_rfl)

/-! ### The flows -/

theorem consistent_afterFlows {env : Env} {project : SDProject} {name : Option CStr}
    (h : sdSimNew env project name = .ok s) (hc : SourcesFirst s) (hu : s.AfterFlows u') :
    Consistent s u'.curr := by
  obtain ⟨cs, t, stop, u, hcs, hturns, -, -, hpass⟩ := hu
  have hr := (sdSimNew_isReset h).1
  have hmoved := (hr.calls_moved (.refl s) hcs).trans (turns_moved hturns)
  have hrow := flowsOf_of_flowsPass hr.built hmoved hpass
  refine consistent_of_values hr.built hc fun p hp => ?_
  rcases flow_or_literal h hc hp with hmem | ⟨hmem, hflow, txt, x, hnode⟩
  · exact satisfied (k := .flows) hr.built hc hp hmem hrow
  · -- the flows leave numbers alone
    obtain ⟨v, n, hv, ht, he⟩ := id hp
    have hcalc := calcValue_const hc.tables hv ht hnode
    have hfirst := (consistent_initial h hc).value p v n hv ht he
    have h0 : s.curr (s.col p) = x := Except.ok.inj (hfirst.symm.trans (hcalc _))
    have hkept := literal_kept h hcs hturns hv ht hnode hflow hmem h0
    rw [hcalc, flowsOf_other hr.built (hp.isColumn hr.built) hflow hrow, hkept]

/-! ### Loops -/

/-- Of two members the one that never comes behind the other has the smaller index. -/
theorem idxOf_lt_of_pairwise {l : List Path} {a b : Path} (ha : a ∈ l) (hb : b ∈ l) (hne : b ≠ a)
    (h : l.Pairwise fun x y => x = a → y ≠ b) : l.idxOf b < l.idxOf a := by
  have hia := List.idxOf_lt_length_of_mem ha
  have hib := List.idxOf_lt_length_of_mem hb
  rcases Nat.lt_trichotomy (l.idxOf b) (l.idxOf a) with hlt | heq | hlt
  · exact hlt
  · exact absurd (by rw [← List.getElem_idxOf hia, ← List.getElem_idxOf hib]; simp only [heq]) hne
  · have hord := List.pairwise_iff_getElem.mp h _ _ hia hib hlt
    exact absurd (List.getElem_idxOf hib) (hord (List.getElem_idxOf hia))

/-- What an equation has to wait for is listed first. -/
theorem listedFirst_of_calculatedFrom (hw : WellBuilt s) (hc : SourcesFirst s) {e : Path}
    (h : s.CalculatedFrom p e) {k : ListKind} {c : Path} (hlist : p ∈ s.lists.get k c) :
    ListedFirst s.root s.store e p := by
  obtain ⟨hp, he, q, hq, hends⟩ := h
  cases hsrc : (s.store q).src with
  | some q' =>
    exact hc.first p hp q hq e ⟨by simp [hsrc], hends, he.isColumn hw⟩ (not_hollow hw he)
  | none =>
    obtain rfl := hends.eq_of_src_none hsrc
    exact listedFirst_of_dep hw hc.own hlist (dep_of_ident hw hp hq)

theorem no_loop {env : Env} {project : SDProject} {name : Option CStr}
    (h : sdSimNew env project name = .ok s) (hc : SourcesFirst s) (p : Path) :
    ¬ TransGen s.CalculatedFrom p p := by
  have hw := (sdSimNew_isReset h).1.built
  have hstep : ∀ a b, s.CalculatedFrom a b → s.initialLeaves.idxOf b < s.initialLeaves.idxOf a := by
    intro a b hab
    have ha := initialLeaf_of_calculated h hc hab.1
    obtain ⟨c, hlist⟩ := exists_list_of_mem (k := .initials) ha
    have hfirst := listedFirst_of_calculatedFrom hw hc hab hlist
    exact idxOf_lt_of_pairwise ha (initialLeaf_of_calculated h hc hab.2.1) hfirst.ne
      (pairwise_leaves hw hc.own hfirst s.hollow .initials s.calcFuel)
  have hall : ∀ b, TransGen s.CalculatedFrom p b →
      s.initialLeaves.idxOf b < s.initialLeaves.idxOf p := by
    intro b hb
    induction hb with
    | single hab => exact hstep _ _ hab
    | tail _ hbc ih => exact (hstep _ _ hbc).trans ih
  exact fun hloop => lt_irrefl _ (hall p hloop)

/-- **Consistency across modules.**  Where sources come first, every reset and every flows
    pass leaves a consistent row, and there is no loop through equations and connections. -/
theorem consistent_of_sourcesFirst {env : Env} {project : SDProject} {name : Option CStr}
    (h : sdSimNew env project name = .ok s) (hc : SourcesFirst s) :
    (∀ u, s.AfterInitials u → Consistent s u.curr) ∧
    (∀ u, s.AfterFlows u → Consistent s u.curr) ∧
    ∀ p, ¬ TransGen s.CalculatedFrom p p :=
  ⟨fun _ => consistent_afterInitials h hc, fun _ => consistent_afterFlows h hc, no_loop h hc⟩

/-! ### Simple projects -/

theorem exists_of_dep (hw : WellBuilt s) {d : Path} (hd : d ∈ (s.store p).directDeps) :
    ∃ av, avarAt s.root p = some av := by
  have hcomp := hw.compiled p
  cases hav : avarAt s.root p with
  | some av => exact ⟨av, rfl⟩
  | none =>
    simp only [Compiled, hav] at hcomp
    obtain ⟨offset, hnew⟩ := hcomp
    simp [hnew, AVarData.new] at hd

/-- Without tables, names of modules or of variables inside them, and chains of connections,
    there is only the order of the connected variables to look at. -/
theorem sourcesFirst_of_simple (hw : WellBuilt s)
    (hown : ∀ p ∈ pathsFrom [] 0 s.root, ∀ d ∈ (s.store p).directDeps, d.dropLast = p.dropLast ∧
      ((avarAt s.root d).all fun av => !av.isModule) = true)
    (hfirst : ∀ p ∈ pathsFrom [] 0 s.root, ∀ q ∈ (s.store p).node.idents, ∀ e,
      (s.store q).src = some e → (s.store e).src = none ∧ ListedFirst s.root s.store e p)
    (htables : ∀ p ∈ pathsFrom [] 0 s.root, s.gfAt p = none) : SourcesFirst s := by
  have hpaths : ∀ {p}, s.Calculated p → p ∈ pathsFrom [] 0 s.root :=
    fun ⟨_, _, hv, _⟩ => mem_paths hv
  have hend : ∀ {p q q' e}, s.Calculated p → q ∈ (s.store p).node.idents →
      (s.store q).src = some q' → s.LeadsTo q e → q' = e ∧ ListedFirst s.root s.store q' p := by
    intro p q q' e hp hq hq' he
    obtain ⟨hnone, hlisted⟩ := hfirst p (hpaths hp) q hq q' hq'
    exact ⟨((he.next hq').eq_of_src_none hnone).symm, hlisted⟩
  refine ⟨fun p d hd => ?_, fun p hp m j hj hskip => ?_, fun p hp q hq q' e hq' he => ?_,
    fun p hp q hq e he _ => ?_, ?_⟩
  · obtain ⟨av, hav⟩ := exists_of_dep hw hd
    exact (hown p (mem_paths hav) d hd).1
  · -- what is read ahead is named by an equation, and so is no module
    obtain ⟨i, -, hij, hleads⟩ := hskip
    rcases hleads.cases_tail with heq | ⟨c, -, hdep⟩
    · simp only [List.append_cancel_left_eq, List.cons.injEq, and_true] at heq
      omega
    · obtain ⟨av, hav⟩ := exists_of_dep hw hdep
      obtain ⟨-, hplain⟩ := hown c (mem_paths hav) _ hdep
      obtain ⟨v, n, hv, -⟩ := hp
      obtain ⟨-, av', hav'⟩ := (hw.compiled c).dep hdep
      rw [hav', Option.all_some, isModule_of_below hav' hv hj] at hplain
      cases hplain
  · exact .inl (hend hp hq hq' he).1
  · obtain ⟨q', hq'⟩ := Option.ne_none_iff_exists'.mp he.input
    obtain ⟨rfl, hlisted⟩ := hend hp hq hq' he
    exact hlisted
  · intro p v n txt x t hp _ _ ht
    have hnone := htables p (mem_paths hp)
    simp [SDSim.gfAt, hp, AVar.v, ht] at hnone

/-- A module declared behind the variable that its input is connected to. -/
def sourceAbove (simSpecs : SimSpec) : SDProject :=
  .ofModels simSpecs [
    { name := none, vars := [
      Var.ofEquation .aux "a" "1 + 2",
      { Var.ofEquation .module "m" "" with eqn := none, conns := [⟨cstr "in", cstr "a"⟩] }] },
    { name := some (cstr "m"), vars := [
      Var.ofEquation .aux "in" "0",
      Var.ofEquation .aux "x" "in * 2"] }]

theorem consistent_sourceAbove : ∃ s,
    sdSimNew (.plain true) (sourceAbove ⟨0, 2, 1, 1⟩) none = .ok s ∧
    (∀ u, s.AfterInitials u → Consistent s u.curr) ∧
    (∀ u, s.AfterFlows u → Consistent s u.curr) ∧
    ∀ p, ¬ TransGen s.CalculatedFrom p p := by
  obtain ⟨s, hnew, hs⟩ := exists_ok (x := sdSimNew (.plain true) (sourceAbove ⟨0, 2, 1, 1⟩) none)
    (P := fun s => decide ((∀ p ∈ pathsFrom [] 0 s.root, ∀ d ∈ (s.store p).directDeps,
        d.dropLast = p.dropLast ∧ ((avarAt s.root d).all fun av => !av.isModule) = true) ∧
      (∀ p ∈ pathsFrom [] 0 s.root, ∀ q ∈ (s.store p).node.idents, ∀ e ∈ (s.store q).src,
        p = [2, 1] ∧ e = [1]) ∧
      (∀ p ∈ pathsFrom [] 0 s.root, s.gfAt p = none) ∧ (s.store [1]).src = none ∧
      (s.store [1]).directDeps = [] ∧ s.root.length = 3)) (by decide +kernel)
  obtain ⟨hown, hread, htables, hsrc, hdeps, hlen⟩ := of_decide_eq_true hs
  have hfirst : ListedFirst s.root s.store [1] [2, 1] := by
    refine ⟨[], 2, 1, [1], [], rfl, rfl, by decide, ?_⟩
    have hnodes : nodesFrom [] (sortStart []) ((avarsAt s.root []).drop (sortStart [])) =
        [[1], [2]] := by
      simp only [nodesFrom, sortStart, avarsAt, List.isEmpty_nil, if_true, List.length_drop, hlen]
      rfl
    rw [hnodes]
    refine .here .refl fun hreach => ?_
    rcases hreach.cases_head with heq | ⟨d, hd, -⟩
    · simp at heq
    · have hd : d ∈ (s.store [1]).directDeps := hd
      simp [hdeps] at hd
  have hsimple := sourcesFirst_of_simple (sdSimNew_isReset hnew).1.built hown
    (fun p hp q hq e he => by
      obtain ⟨rfl, rfl⟩ := hread p hp q hq e he
      exact ⟨hsrc, hfirst⟩) htables
  exact ⟨s, hnew, consistent_of_sourcesFirst hnew hsimple⟩

/-- Two modules, each with an equation that reads the other's. -/
def crossed (simSpecs : SimSpec) : SDProject :=
  .ofModels simSpecs [
    { name := none, vars := [
      { Var.ofEquation .module "m" "" with eqn := none, conns := [⟨cstr "in", cstr "n.y"⟩] },
      { Var.ofEquation .module "n" "" with eqn := none, conns := [⟨cstr "in", cstr "m.x"⟩] }] },
    { name := some (cstr "m"), vars := [
      Var.ofEquation .aux "in" "0",
      Var.ofEquation .aux "x" "in + 1"] },
    { name := some (cstr "n"), vars := [
      Var.ofEquation .aux "in" "0",
      Var.ofEquation .aux "y" "in + 1"] }]

/-- An auxiliary with an equation, as a test. -/
def SDSim.isAux (s : SDSim) (p : Path) : Bool :=
  (avarAt s.root p).any fun av => !av.isModule && av.v.type == .aux && av.v.eqn.isSome

theorem calculated_of_isAux (h : s.isAux p = true) : s.Calculated p := by
  simp only [SDSim.isAux, Option.any_eq_true, Bool.and_eq_true, beq_iff_eq, Bool.not_eq_true'] at h
  obtain ⟨av, hav, ⟨hm, hv⟩, he⟩ := h
  cases av with
  | module v avars => simp [AVar.isModule] at hm
  | var v n => exact ⟨v, n, hav, .inr hv, fun hnone => by simp [AVar.v, hnone] at he⟩

/-- A module before the source of its input is calculated from a 0, and `crossed` is
    accepted. -/
theorem moduleFirst_inconsistent :
    (∃ s, sdSimNew (.plain true) (moduleFirst ⟨0, 3, 1, 1⟩) none = .ok s ∧
      ¬ Consistent s s.curr) ∧
    ∃ s, sdSimNew (.plain true) (crossed ⟨0, 3, 1, 1⟩) none = .ok s ∧
      TransGen s.CalculatedFrom [1, 1] [1, 1] := by
  constructor
  · obtain ⟨s, hnew, hs⟩ := exists_ok (x := sdSimNew (.plain true) (moduleFirst ⟨0, 3, 1, 1⟩) none)
      (P := fun s => s.isAux [1, 1] &&
        decide (s.calcValue s.curr [1, 1] ≠ .ok (s.curr (s.col [1, 1])))) (by decide +kernel)
    simp only [Bool.and_eq_true, decide_eq_true_eq] at hs
    obtain ⟨haux, hne⟩ := hs
    obtain ⟨v, n, hv, ht, he⟩ := calculated_of_isAux haux
    exact ⟨s, hnew, fun hcon => hne (hcon.value [1, 1] v n hv ht he)⟩
  · obtain ⟨s, hnew, hs⟩ := exists_ok (x := sdSimNew (.plain true) (crossed ⟨0, 3, 1, 1⟩) none)
      (P := fun s => s.isAux [1, 1] && s.isAux [2, 1] &&
        decide ([1, 0] ∈ (s.store [1, 1]).node.idents ∧ (s.store [1, 0]).src = some [2, 1] ∧
          (s.store [2, 1]).src = none ∧ [2, 0] ∈ (s.store [2, 1]).node.idents ∧
          (s.store [2, 0]).src = some [1, 1] ∧ (s.store [1, 1]).src = none)) (by decide +kernel)
    simp only [Bool.and_eq_true, decide_eq_true_eq] at hs
    obtain ⟨⟨hx, hy⟩, hin, hsrc, hend, hin', hsrc', hend'⟩ := hs
    have hx := calculated_of_isAux hx
    have hy := calculated_of_isAux hy
    refine ⟨s, hnew, .tail (.single ⟨hx, hy, [1, 0], hin, .step hsrc (.here hend)⟩) ?_⟩
    exact ⟨hy, hx, [2, 0], hin', .step hsrc' (.here hend')⟩

end Libsd

/-
  Libsd/CompleteRow.lean
  ======================
  **When the current row is complete.**

  In a model without modules the row of a step is complete once the flows are
  calculated (`complete_fullRow`), and the row a reset leaves is (`complete_initial`).
  A run that stops between the first step and the last leaves a row whose flows are
  still to be calculated.  So the current row is complete after any calls of which
  each comes to the end of the run or takes no step (`complete_of_runs`).
-/
import Libsd.SingleModule
import Libsd.Unbounded

namespace Libsd

open Outcome

/-- On the row, every flow and auxiliary has the value of its equation and table. -/
def Complete (s : SDSim) (row : Row) : Prop :=
  ∀ p v n, avarAt s.root p = some (.var v n) → v.type = .flow ∨ v.type = .aux → v.eqn ≠ none →
    s.calcValue row p = .ok (row (s.col p))

/-- A table changes nothing about a flow or auxiliary whose equation is a number. -/
def ConstTables (s : SDSim) : Prop :=
  ∀ p v n txt x t, avarAt s.root p = some (.var v n) → v.type = .flow ∨ v.type = .aux →
    (s.store p).node = .floatlit txt x → v.gf = some t → lookup t x = .ok x

variable {s t t' : SDSim}

/-- A flow or auxiliary with an equation is calculated with the flows, or it is a
    constant and stored with the stocks. -/
theorem flow_or_const (hf : FlatSim s) {p : Path} {v : Var} {n : Node}
    (hp : avarAt s.root p = some (.var v n)) (hv : v.type = .flow ∨ v.type = .aux)
    (he : v.eqn ≠ none) :
    p ∈ s.flowLeaves ∨ (p ∈ s.stockLeaves ∧ ∃ txt x, (s.store p).node = .floatlit txt x) := by
  have hh : s.hollow p = false := by
    rw [← Bool.not_eq_true, hf.hollow_iff hp]
    exact he
  by_cases hlit : n.isFloatlit = true
  · refine .inr ⟨hf.mem_stockLeaves.mpr ⟨_, hp, ?_⟩, ?_⟩
    · rcases hv with hv | hv <;> simpa [AVar.wants, AVar.v, AVar.isConst, AVar.node, hv] using hlit
    · have hnode := isFloatlit_node hf.built hp (by rcases hv with hv | hv <;> simp [hv])
      rw [hlit] at hnode
      cases hn : (s.store p).node with
      | floatlit txt x => exact ⟨txt, x, rfl⟩
      | _ => simp [hn, Node.isFloatlit] at hnode
  · refine .inl (hf.mem_flowLeaves.mpr ⟨_, hp, ?_, hh⟩)
    rcases hv with hv | hv <;> simpa [AVar.wants, AVar.v, AVar.isConst, AVar.node, hv] using hlit

theorem calcValue_const (hconst : ConstTables s) {p : Path} {v : Var} {n : Node} {txt : CStr}
    {x : ℚ}
    (hp : avarAt s.root p = some (.var v n)) (hv : v.type = .flow ∨ v.type = .aux)
    (hn : (s.store p).node = .floatlit txt x) (row : Row) : s.calcValue row p = .ok x := by
  have heval : s.eval row (s.store p).node = .ok x := by
    rw [hn]
    rfl
  have hgf : s.gfAt p = v.gf := by simp [SDSim.gfAt, hp, AVar.v]
  simp only [SDSim.calcValue, heval, hgf]
  cases ht : v.gf with
  | none => rfl
  | some t => exact hconst p v n txt x t hp hv hn ht

/-- The initial values satisfy all equations. -/
theorem initial_satisfies (hf : FlatSim s) (h : IsReset s) {p : Path} {av : AVar}
    (hp : avarAt s.root p = some av) (hw : av.wants .initials = true) (hh : s.hollow p = false) :
    s.calcValue (s.slab 0) p = .ok (s.slab 0 (s.col p)) :=
  Assign.run_satisfies (depends_calcValue s) (initialLeaves_inj h.built)
    hf.initials_inOrder h.initial
    p (hf.mem_initialLeaves.mpr ⟨av, hp, hw, hh⟩)

theorem complete_initial (hf : FlatSim s) (h : IsReset s) : Complete s (s.slab 0) := by
  intro p v n hp hv he
  refine initial_satisfies hf h hp ?_ ?_
  · rcases hv with hv | hv <;> simp [AVar.wants, AVar.v, hv]
  · rw [← Bool.not_eq_true, hf.hollow_iff hp]
    exact he

/-- Calculating the flows on the initial row changes nothing. -/
theorem flowsOf_initial (hf : FlatSim s) (h : IsReset s) :
    s.flowsOf (s.slab 0) = .ok (s.slab 0) := by
  refine Assign.run_of_satisfies fun p hp => ?_
  obtain ⟨av, hav, hw, hh⟩ := hf.mem_flowLeaves.mp hp
  refine initial_satisfies hf h hav ?_ hh
  cases hv : av.v.type <;> simp_all [AVar.wants]

theorem complete_fullRow (hf : FlatSim s) (h : IsReset s) {j : Nat} {row : Row}
    (hconst : ConstTables s ∨ j = 0) (hrow : s.fullRow (s.slab 0) j = .ok row) :
    Complete s row := by
  cases j with
  | zero =>
    obtain rfl := Except.ok.inj ((flowsOf_initial hf h).symm.trans hrow)
    exact complete_initial hf h
  | succ j =>
    have hconst := hconst.resolve_right (Nat.succ_ne_zero j)
    obtain ⟨pre, hpre, hflows⟩ := fullRow_ok hrow
    obtain ⟨full, next, -, hnext, rfl⟩ := preRow_succ_ok hpre
    intro p v n hp hv he
    rcases flow_or_const hf hp hv he with hmem | ⟨hmem, txt, x, hn⟩
    · exact Assign.run_satisfies (depends_calcValue s) (flowLeaves_inj h.built) hf.flows_inOrder
        hflows p hmem
    · -- constants are stored by `calc_stocks`, and the flows leave them alone
      have hne : s.col p ≠ TIME := by
        obtain ⟨_, -, -, -, hcol, hne⟩ := stockLeaf h.built hmem
        exact col_ne_time h.built hcol hne
      have hval := stocksOf_value h.built hnext hmem
      have heval : s.stockValue full p = .ok x := by
        have ht : s.typeAt p = some v.type := by simp [SDSim.typeAt, hp, AVar.v]
        rw [SDSim.stockValue, ht, hn]
        rcases hv with hv | hv <;> rw [hv] <;> rfl
      rw [calcValue_const hconst hp hv hn, Assign.run_frame hflows fun q hq =>
        flow_ne_stock h.built hq hmem, Function.update_of_ne hne]
      exact heval.symm.trans hval

/-! ### Between two calls -/

/-- A call to run to `stop` that takes no step but perhaps the last one, or that comes
    to the last step, or that leaves no flow uncalculated because there is none. -/
def StopsComplete (s t : SDSim) (stop : ℚ) : Prop :=
  t.nsteps ≤ t.step + 1 ∨ stop < t.curr TIME ∨
    (ConstTables s ∧ (s.flowLeaves = [] ∨
      ∀ j, t.step ≤ j → j < t.nsteps → s.timeAt j ≤ stop))

def Call.StopsComplete (s t : SDSim) : Call → Prop
  | .runTo stop => Libsd.StopsComplete s t stop
  | .runToEnd => Libsd.StopsComplete s t (s.spec.stop + 1)
  | .reset => True

/-- Calls that return, each of them such a call. -/
inductive RunsComplete (s : SDSim) : SDSim → List Call → SDSim → Prop where
  | nil {t : SDSim} : RunsComplete s t [] t
  | cons {t t' t'' : SDSim} {c : Call} {cs : List Call} (hc : c.StopsComplete s t)
      (hcall : t.call c = .ok t') (hcs : RunsComplete s t' cs t'') :
      RunsComplete s t (c :: cs) t''

/-- Where such calls can leave a simulation. -/
def CompleteAt (s t : SDSim) : Prop :=
  t = s ∨
  (0 < s.nsteps ∧ (ConstTables s ∨ s.nsteps = 1) ∧
    AtEnd s (fun row => s.fullRow (s.slab 0) (s.nsteps - 1) = .ok row) t) ∨
  (ConstTables s ∧ s.flowLeaves = [] ∧ Waiting s t)

theorem CompleteAt.complete (hf : FlatSim s) (h : IsReset s) (ht : CompleteAt s t) :
    Complete s t.curr := by
  rcases ht with rfl | ⟨hn, hconst, slab, rfl, -, -, hrow⟩ | ⟨hconst, hnil, j,
      ⟨slab, rfl, -, hpre⟩, -⟩
  · rw [SDSim.curr, h.saveStep]
    exact complete_initial hf h
  · refine complete_fullRow hf h ?_ hrow
    exact hconst.imp_right fun h1 => by omega
  · refine complete_fullRow hf h (.inl hconst) ((fullRow_of_preRow hpre).trans ?_)
    rw [SDSim.flowsOf, hnil]
    rfl

theorem CompleteAt.runTo (hf : FlatSim s) (h : IsReset s) (hb : s.env.bounded = false)
    (ht : CompleteAt s t) {stop : ℚ} (hc : StopsComplete s t stop)
    (hrun : sdSimRunTo t stop = .ok t') : CompleteAt s t' := by
  have hagain : ∀ row row', s.fullRow (s.slab 0) (s.nsteps - 1) = .ok row →
      s.flowsOf row = .ok row' → s.fullRow (s.slab 0) (s.nsteps - 1) = .ok row' := by
    intro row row' hrow hflows
    exact lastRow_again h (fun _ => hrow) hflows hf.flows_inOrder
  rcases ht with rfl | ⟨hn, hconst, hend⟩ | ⟨hconst, hnil, hwait⟩
  · have hat := atStep_isReset h
    have htime := hat.time h
    have hstep : t.step = 0 := h.step
    rw [hat.runTo] at hrun
    by_cases hn : 0 < t.nsteps
    · obtain ⟨j', -, hj', hall, hcase⟩ := runLoop_cases h hb hat hn (Nat.le_refl _) hrun
      rcases hcase with ⟨hlt, hstop, hat'⟩ | ⟨rfl, hend⟩
      · -- no step has been taken, unless there is nothing to calculate
        by_cases h0 : j' = 0
        · subst h0
          have hstay := runLoop_stay h hb hat (fun hgo => not_lt.mpr hgo.2 hstop) (t.nsteps - 0)
          exact .inl (Except.ok.inj (hrun.symm.trans hstay))
        · have hle := (hall 0 (Nat.le_refl 0) (Nat.pos_of_ne_zero h0)).1
          rcases hc with hc | hc | ⟨hconst, hnil | hreach⟩
          · omega
          · exact absurd hle (not_le.mpr (htime ▸ hc))
          · have hrun' : sdSimRunTo t stop = .ok t' := by rwa [hat.runTo]
            rcases (waiting_self h).runTo h hb hrun' with hwait | ⟨hn', -, hend⟩
            · exact .inr (.inr ⟨hconst, hnil, hwait⟩)
            · exact .inr (.inl ⟨hn', .inl hconst, hend⟩)
          · exact absurd (hreach j' (by omega) hlt) (not_le.mpr hstop)
      · refine .inr (.inl ⟨hn, ?_, hend⟩)
        rcases hc with hc | hc | ⟨hconst, -⟩
        · exact .inr (by omega)
        · exact absurd (hall 0 (Nat.le_refl 0) hn).1 (not_le.mpr (htime ▸ hc))
        · exact .inl hconst
    · rw [show t.nsteps - 0 = 0 by omega] at hrun
      exact .inl (Except.ok.inj hrun).symm
  · rw [hend.runTo] at hrun
    exact .inr (.inl ⟨hn, hconst, runLoop_end h hb hn hagain hend hrun⟩)
  · rcases hwait.runTo h hb hrun with hwait' | ⟨hn, -, hend⟩
    · exact .inr (.inr ⟨hconst, hnil, hwait'⟩)
    · exact .inr (.inl ⟨hn, .inl hconst, hend⟩)

theorem CompleteAt.spec_eq (ht : CompleteAt s t) : t.spec = s.spec ∧ SameSetup s t := by
  rcases ht with rfl | ⟨-, -, slab, rfl, -⟩ | ⟨-, -, j, ⟨slab, rfl, -⟩, -⟩
  · exact ⟨rfl, rfl, rfl, rfl, rfl, rfl, rfl⟩
  · exact ⟨rfl, moved_sameSetup _ _ _⟩
  · exact ⟨rfl, moved_sameSetup _ _ _⟩

theorem CompleteAt.call (hf : FlatSim s) (h : IsReset s) (hb : s.env.bounded = false)
    (ht : CompleteAt s t) {c : Call} (hc : c.StopsComplete s t) (hrun : t.call c = .ok t') :
    CompleteAt s t' := by
  cases c with
  | runTo stop => exact ht.runTo hf h hb hc hrun
  | runToEnd =>
    have hrun : sdSimRunTo t (t.spec.stop + 1) = .ok t' := hrun
    rw [ht.spec_eq.1] at hrun
    exact ht.runTo hf h hb hc hrun
  | reset => exact .inl (Except.ok.inj (hrun.symm.trans (h.reset_of_same ht.spec_eq.2)))

theorem RunsComplete.completeAt (hf : FlatSim s) (h : IsReset s) (hb : s.env.bounded = false)
    {cs : List Call} (hrun : RunsComplete s t cs t') (ht : CompleteAt s t) : CompleteAt s t' := by
  induction hrun with
  | nil => exact ht
  | cons hc hcall _ ih => exact ih (ht.call hf h hb hc hcall)

/-! ### With and without a bound on the rows -/

theorem Call.StopsComplete.unbounded {c : Call} (h : c.StopsComplete s t) :
    c.StopsComplete s.unbounded t.unbounded := by
  cases c <;> exact h

theorem RunsComplete.unbounded {cs : List Call} (h : RunsComplete s t cs t') :
    RunsComplete s.unbounded t.unbounded cs t'.unbounded := by
  induction h with
  | nil => exact .nil
  | cons hc hcall _ ih => exact .cons hc.unbounded (unbounded_call hcall) ih

theorem complete_of_unbounded {row : Row} (h : Complete s.unbounded row) : Complete s row := by
  intro p v n hp hv he
  rw [← unbounded_calcValue]
  exact h p v n hp hv he

/-- After calls of which none stops between the first step and the last, the current
    row is complete. -/
theorem complete_of_runs {env : Env} {p : SDProject} {name : Option CStr} {specs : SimSpec}
    {model : SDModel} (hnew : sdSimNew env p name = .ok s)
    (hmodel : sdProjectGetModel p name = some (specs, model)) (hflat : model.Flat)
    {cs : List Call} (hrun : RunsComplete s s cs t) : Complete s t.curr := by
  have hnew' := unbounded_new hnew
  obtain ⟨h, -⟩ := sdSimNew_isReset hnew'
  have hf := sdSimNew_flat hnew' hmodel hflat
  have hc : Complete s.unbounded t.unbounded.curr :=
    (hrun.unbounded.completeAt hf h rfl (.inl rfl)).complete hf h
  exact complete_of_unbounded hc

theorem constTables_of_none (hf : FlatSim s) (h : ∀ av ∈ s.root, av.v.gf.isNone) :
    ConstTables s := by
  intro p v n txt x t hp _ _ hgf
  obtain ⟨i, rfl⟩ := hf.path hp
  have hmem : AVar.var v n ∈ s.root := List.mem_of_getElem? (by simpa [avarAt_cons] using hp)
  have hnone := h _ hmem
  simp [AVar.v, hgf] at hnone

theorem complete_of_runs_growth : ∃ s t,
    sdSimNew (.plain true) (growth ⟨0, 4, 1, 1⟩) none = .ok s ∧
    RunsComplete s s [.runToEnd, .reset, .runTo (-1)] t ∧ Complete s t.curr := by
  obtain ⟨⟨s, t1, t2⟩, h, hs⟩ := exists_ok
    (P := fun r : SDSim × SDSim × SDSim =>
      (r.1.root.all fun av => av.v.gf.isNone) && decide (r.1.nsteps = 5) &&
        ((List.range 5).all fun j => r.1.timeAt j ≤ r.1.spec.stop + 1) &&
        decide (-1 < r.2.2.curr TIME))
    (x := do
      let s ← sdSimNew (.plain true) (growth ⟨0, 4, 1, 1⟩) none
      let t1 ← s.call .runToEnd
      let t2 ← t1.call .reset
      let _ ← t2.call (.runTo (-1))
      return (s, t1, t2)) (by decide +kernel)
  simp only [bind, Except.bind] at h
  split at h
  · simp at h
  · next s1 hnew =>
    split at h
    · simp at h
    · next t1' hrun =>
      split at h
      · simp at h
      · next t2' hreset =>
        split at h
        · simp at h
        · next t3 hlast =>
          obtain ⟨rfl, rfl, rfl⟩ : s1 = s ∧ t1' = t1 ∧ t2' = t2 := by
            simpa [pure, Except.pure] using h
          simp only [Bool.and_eq_true, decide_eq_true_eq, List.all_eq_true, List.mem_range] at hs
          obtain ⟨⟨⟨hgf, hn⟩, hreach⟩, htime⟩ := hs
          obtain ⟨specs, model, hmodel, hflat⟩ : ∃ specs model,
              sdProjectGetModel (growth ⟨0, 4, 1, 1⟩) none = some (specs, model) ∧ model.Flat :=
            ⟨_, _, rfl, by simp [SDModel.Flat, Var.ofEquation]⟩
          have hconst := constTables_of_none (sdSimNew_flat hnew hmodel hflat) hgf
          have hruns : RunsComplete s1 s1 [.runToEnd, .reset, .runTo (-1)] t3 :=
            .cons (.inr (.inr ⟨hconst, .inr fun j _ hj => hreach j (hn ▸ hj)⟩)) hrun <|
              .cons trivial hreset <| .cons (.inr (.inl htime)) hlast .nil
          exact ⟨s1, t3, hnew, hruns, complete_of_runs hnew hmodel hflat hruns⟩

/-- A run that stops after three of five steps leaves the births of the last row at zero. -/
theorem stopped_not_complete : ∃ s t,
    sdSimNew (.plain true) (growth ⟨0, 4, 1, 1⟩) none = .ok s ∧
    sdSimRunTo s 2 = .ok t ∧ ¬ Complete s t.curr := by
  obtain ⟨⟨s, t⟩, h, hs⟩ := exists_ok
    (P := fun r : SDSim × SDSim => ((avarAt r.1.root [2]).any fun av =>
        !av.isModule && av.v.type == .flow && av.v.eqn.isSome) &&
      decide (r.1.calcValue r.2.curr [2] ≠ .ok (r.2.curr (r.1.col [2]))))
    (x := do
      let s ← sdSimNew (.plain true) (growth ⟨0, 4, 1, 1⟩) none
      let t ← sdSimRunTo s 2
      return (s, t)) (by decide +kernel)
  obtain ⟨s1, hnew, h⟩ := bind_eq_ok h
  obtain ⟨t1, hrun, h⟩ := bind_eq_ok h
  obtain ⟨rfl, rfl⟩ : s1 = s ∧ t1 = t := by simpa [pure, Except.pure] using h
  refine ⟨s1, t1, hnew, hrun, fun hc => ?_⟩
  simp only [Bool.and_eq_true, decide_eq_true_eq, Option.any_eq_true, beq_iff_eq,
    Bool.not_eq_true'] at hs
  obtain ⟨⟨av, hp, ⟨hm, hv⟩, he⟩, hne⟩ := hs
  cases av with
  | module v avars => simp [AVar.isModule] at hm
  | var v n => exact hne (hc [2] v n hp (.inl hv) fun hnone => by simp [AVar.v, hnone] at he)

end Libsd

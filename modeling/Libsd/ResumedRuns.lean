/-
  Libsd/ResumedRuns.lean
  ======================
  **Stopping, resuming and resetting.**

  Between two calls a simulation is before a step or at its end (`Between`), so a
  final run to the end leaves the rows of the trajectory, whatever was called
  before (`resumed_rows`).  The exception is the last step: it is calculated again
  by each further run, on its own result, which changes nothing when the flows are
  in order (`flowsOf_again`).
-/
import Libsd.RunToEnd

namespace Libsd

open Outcome

variable {s t t' : SDSim}

/-- No flow or auxiliary reads a column that is first calculated with it or after it. -/
def FlowsOrdered (s : SDSim) : Prop := Assign.InOrder s.col s.readCols [] s.flowLeaves

instance (s : SDSim) : Decidable (FlowsOrdered s) :=
  inferInstanceAs (Decidable (Assign.InOrder _ _ _ _))

theorem flowsOf_again (h : WellBuilt s) (hord : FlowsOrdered s) {row row' : Row}
    (hrun : s.flowsOf row = .ok row') : s.flowsOf row' = .ok row' :=
  Assign.run_again (depends_calcValue s) (flowLeaves_inj h) hord hrun

/-! ### Where a simulation is between two calls -/

/-- A run to `stop` comes to the last step, from wherever it starts. -/
def Reaches (s : SDSim) (stop : ℚ) : Prop := ∀ j < s.nsteps, s.timeAt j ≤ stop

/-- Whether the last step has been calculated since the last reset, after a call. -/
def Call.completes (s : SDSim) (done : Prop) : Call → Prop
  | .runTo stop => done ∨ Reaches s stop
  | .runToEnd => done ∨ Reaches s (s.spec.stop + 1)
  | .reset => False

def Completed (s : SDSim) (cs : List Call) : Prop := cs.foldl (Call.completes s) False

/-- Before a step that has not been calculated, as reset if it is the first one; when
    time moves backward, runs stop at the first step only. -/
def Waiting (s t : SDSim) : Prop :=
  ∃ j, AtStep s j t ∧ (j < s.nsteps ∨ j = 0) ∧ (s.spec.dt < 0 → j = 0) ∧ (j = 0 → t = s)

def Between (s : SDSim) (D : Row → Prop) (done : Prop) (t : SDSim) : Prop :=
  Waiting s t ∨ (0 < s.nsteps ∧ AtEnd s D t ∧ done)

theorem waiting_self (h : IsReset s) : Waiting s s :=
  ⟨0, atStep_isReset h, .inr rfl, fun _ => rfl, fun _ => rfl⟩

theorem timeAt_mono (hdt : 0 < s.spec.dt) {i j : Nat} (hij : i ≤ j) : s.timeAt i ≤ s.timeAt j := by
  unfold SDSim.timeAt
  have : (i : ℚ) * s.spec.dt ≤ j * s.spec.dt :=
    mul_le_mul_of_nonneg_right (by exact_mod_cast hij) hdt.le
  linarith

theorem timeAt_anti (hdt : s.spec.dt < 0) {i j : Nat} (hij : i ≤ j) : s.timeAt j ≤ s.timeAt i := by
  unfold SDSim.timeAt
  have : (j : ℚ) * s.spec.dt ≤ i * s.spec.dt :=
    mul_le_mul_of_nonpos_right (by exact_mod_cast hij) hdt.le
  linarith

/-- A run from a waiting simulation leads to a waiting one, or calculates the last step. -/
theorem Waiting.runTo (h : IsReset s) (hb : s.env.bounded = false) (ht : Waiting s t) {stop : ℚ}
    (hrun : sdSimRunTo t stop = .ok t') :
    Waiting s t' ∨ (0 < s.nsteps ∧ Reaches s stop ∧
      AtEnd s (fun row => s.fullRow (s.slab 0) (s.nsteps - 1) = .ok row) t') := by
  obtain ⟨j, hat, hj, hback, hfirst⟩ := ht
  rw [hat.runTo] at hrun
  by_cases hlt : j < s.nsteps
  · obtain ⟨j', hjj', hj'n, hall, hcase⟩ := runLoop_cases h hb hat hlt (Nat.le_refl _) hrun
    rcases hcase with ⟨hj', hstop, hat'⟩ | ⟨rfl, hend⟩
    · left
      rcases Nat.eq_or_lt_of_le hjj' with rfl | hlt'
      · have hstay := runLoop_stay h hb hat (fun hgo => not_lt.mpr hgo.2 hstop) (s.nsteps - j)
        obtain rfl := Except.ok.inj (hstay.symm.trans hrun)
        exact ⟨j, hat, hj, hback, hfirst⟩
      · refine ⟨j', hat', .inl hj', fun hdt => ?_, fun h0 => by omega⟩
        -- time has moved on past the bound, so it does not move backward
        have hle := (hall j (Nat.le_refl j) hlt').1
        exact absurd ((timeAt_anti hdt hjj').trans hle) (not_le.mpr hstop)
    · right
      refine ⟨by omega, fun i hi => ?_, hend⟩
      rcases lt_or_gt_of_ne h.dt with hneg | hpos
      · obtain rfl := hback hneg
        exact (hall i (Nat.zero_le i) hi).1
      · exact (timeAt_mono hpos (by omega)).trans (hall (s.nsteps - 1) (by omega) (by omega)).1
  · left
    rw [show s.nsteps - j = 0 by omega] at hrun
    obtain rfl := Except.ok.inj hrun
    exact ⟨j, hat, hj, hback, hfirst⟩

theorem AtEnd.runTo {D : Row → Prop} (ht : AtEnd s D t) (stop : ℚ) :
    sdSimRunTo t stop = SDSim.runLoop stop (s.nsteps - (s.nsteps - 1)) t := by
  obtain ⟨slab, rfl, -⟩ := ht
  rfl

theorem AtEnd.imp {D D' : Row → Prop} (hD : ∀ row, D row → D' row) (ht : AtEnd s D t) :
    AtEnd s D' t := by
  obtain ⟨slab, rfl, hkept, htime, hrow⟩ := ht
  exact ⟨slab, rfl, hkept, htime, hD _ hrow⟩

theorem spec_of_between {D : Row → Prop} {done : Prop} (ht : Between s D done t) :
    t.spec = s.spec := by
  rcases ht with ⟨j, ⟨slab, rfl, -⟩, -⟩ | ⟨-, ⟨slab, rfl, -⟩, -⟩ <;> rfl

theorem sameSetup_of_between {D : Row → Prop} {done : Prop} (ht : Between s D done t) :
    SameSetup s t := by
  rcases ht with ⟨j, ⟨slab, rfl, -⟩, -⟩ | ⟨-, ⟨slab, rfl, -⟩, -⟩ <;> exact moved_sameSetup _ _ _

section
variable {D : Row → Prop} (hfull : ∀ row, s.fullRow (s.slab 0) (s.nsteps - 1) = .ok row → D row)
  (hagain : ∀ row row', D row → s.flowsOf row = .ok row' → D row')
include hfull hagain

theorem Between.runTo (h : IsReset s) (hb : s.env.bounded = false) {done : Prop}
    (ht : Between s D done t) {stop : ℚ} (hrun : sdSimRunTo t stop = .ok t') :
    Between s D (done ∨ Reaches s stop) t' := by
  rcases ht with hwait | ⟨hn, hend, hdone⟩
  · rcases hwait.runTo h hb hrun with hwait' | ⟨hn, hreach, hend⟩
    · exact .inl hwait'
    · exact .inr ⟨hn, hend.imp hfull, .inr hreach⟩
  · rw [hend.runTo] at hrun
    exact .inr ⟨hn, runLoop_end h hb hn hagain hend hrun, .inl hdone⟩

theorem Between.call (h : IsReset s) (hb : s.env.bounded = false) {done : Prop}
    (ht : Between s D done t) {c : Call} (hrun : t.call c = .ok t') :
    Between s D (c.completes s done) t' := by
  cases c with
  | runTo stop => exact ht.runTo hfull hagain h hb hrun
  | runToEnd =>
    have hrun : sdSimRunTo t (t.spec.stop + 1) = .ok t' := hrun
    rw [spec_of_between ht] at hrun
    exact ht.runTo hfull hagain h hb hrun
  | reset =>
    have hreset := h.reset_of_same (sameSetup_of_between ht)
    obtain rfl := Except.ok.inj (hreset.symm.trans hrun)
    exact .inl (waiting_self h)

/-- Any sequence of calls that returns. -/
theorem Between.calls (h : IsReset s) (hb : s.env.bounded = false) {cs : List Call} {done : Prop}
    (ht : Between s D done t) (hrun : t.calls cs = .ok t') :
    Between s D (cs.foldl (Call.completes s) done) t' := by
  induction cs generalizing t done with
  | nil =>
    obtain rfl := Except.ok.inj hrun
    exact ht
  | cons c cs ih =>
    simp only [SDSim.calls] at hrun
    obtain ⟨t1, ht1, hrun⟩ := bind_eq_ok hrun
    exact ih (ht.call hfull hagain h hb ht1) hrun

end

/-! ### One more run to the end -/

/-- What is kept of the last row: it is the one of the trajectory if the flows are in order. -/
def LastRow (s : SDSim) (row : Row) : Prop :=
  FlowsOrdered s → s.fullRow (s.slab 0) (s.nsteps - 1) = .ok row

theorem lastRow_again (h : IsReset s) {row row' : Row} (hrow : LastRow s row)
    (hrun : s.flowsOf row = .ok row') : LastRow s row' := by
  intro hord
  obtain ⟨pre, -, hflows⟩ := fullRow_ok (hrow hord)
  obtain rfl := Except.ok.inj ((flowsOf_again h.built hord hflows).symm.trans hrun)
  exact hrow hord

/-- With the flows in order, the last step can be calculated again. -/
theorem AtEnd.runTo_ok (h : IsReset s) (hb : s.env.bounded = false) (hn : 0 < s.nsteps)
    (hord : FlowsOrdered s) (hstep : Steps s (s.nsteps - 1)) (ht : AtEnd s (LastRow s) t)
    (stop : ℚ) : ∃ t', sdSimRunTo t stop = .ok t' := by
  rw [ht.runTo, show s.nsteps - (s.nsteps - 1) = 0 + 1 by omega]
  obtain ⟨slab, rfl, hkept, -, hD⟩ := ht
  obtain ⟨row, n, hrow, hn'⟩ := hstep
  have hcurr := Except.ok.inj (hrow.symm.trans (hD hord))
  obtain ⟨pre, -, hflows⟩ := fullRow_ok hrow
  obtain ⟨next, hnext, -⟩ := stocksOf_clean (hkept.clean _ (Nat.lt_succ_self _)) hn'
  rw [runLoop_eq hb h.built]
  split
  · rw [← hcurr, flowsOf_again h.built hord hflows]
    simp only [bind, Except.bind, hnext]
    exact ⟨_, if_pos (by omega)⟩
  · exact ⟨_, rfl⟩

/-- After any calls, a run to the end leaves the rows that it leaves at once, if the
    last step has not been calculated before, or it is calculated again from flows in
    order or for a row that is not kept. -/
theorem resumed_rows {env : Env} (hb : env.bounded = false) {p : SDProject} {name : Option CStr}
    (hnew : sdSimNew env p name = .ok s) {cs : List Call}
    (hcond : ¬ Completed s cs ∨
      (Forward s ∧ (FlowsOrdered s ∨ ¬ s.saveEvery ∣ s.nsteps - 1)))
    {s' : SDSim} (hcs : s.calls cs = .ok s') (hrun : sdSimRunToEnd s = .ok t) :
    (∀ t', sdSimRunToEnd s' = .ok t' → ∀ i < s.nsaves, t'.slab i = t.slab i) ∧
    (¬ Completed s cs ∨ FlowsOrdered s → ∃ t', sdSimRunToEnd s' = .ok t') := by
  obtain ⟨h, henv⟩ := sdSimNew_isReset hnew
  have hb : s.env.bounded = false := henv ▸ hb
  have hbetween : Between s (LastRow s) (Completed s cs) s' :=
    Between.calls (fun row hrow _ => hrow) (fun _ _ => lastRow_again h) h hb
      (.inl (waiting_self h)) hcs
  have hrow : Forward s → ∀ i < s.nsaves, s.fullRow (s.slab 0) (i * s.saveEvery) = .ok (t.slab i) :=
    fun hf i hi => runToEnd_row h hb hf hrun hi
  rcases hbetween with ⟨j, hat, hj, hback, hfirst⟩ | ⟨hn, hend, hdone⟩
  · by_cases hf : Forward s
    · by_cases hlt : j < s.nsteps
      · refine ⟨fun t' hrun' i hi => ?_, fun _ => ?_⟩
        · obtain ⟨hend, -⟩ := hat.runToEnd_atEnd h hb hf hlt hrun'
          rcases hend.rows h (by omega) hi with ⟨-, hi'⟩ | ⟨he, hi'⟩
          · exact Except.ok.inj (hi'.symm.trans (hrow hf i hi))
          · have := hrow hf i hi
            rw [he] at this
            exact Except.ok.inj (hi'.symm.trans this)
        · have hsteps := (runToEnd_ok_iff h hb hf).mp ⟨t, hrun⟩
          exact hat.runToEnd_ok h hb fun i _ hi => hsteps i hi
      · obtain rfl := hfirst (hj.resolve_left hlt)
        refine ⟨fun t' hrun' i _ => ?_, fun _ => ⟨t, hrun⟩⟩
        rw [Except.ok.inj (hrun'.symm.trans hrun)]
    · -- time moves backward from behind the end, and nothing has been calculated
      have hneg : s.spec.dt < 0 := lt_of_le_of_ne (not_lt.mp fun hpos => hf (.inl hpos)) h.dt
      obtain rfl := hfirst (hback hneg)
      refine ⟨fun t' hrun' i _ => ?_, fun _ => ⟨t, hrun⟩⟩
      rw [Except.ok.inj (hrun'.symm.trans hrun)]
  · obtain ⟨hf, hord⟩ := hcond.resolve_left (not_not.mpr hdone)
    have hspec : s'.spec = s.spec := spec_of_between (.inr ⟨hn, hend, hdone⟩)
    refine ⟨fun t' hrun' i hi => ?_, fun hcase => ?_⟩
    · have hrun' : sdSimRunTo s' (s'.spec.stop + 1) = .ok t' := hrun'
      rw [hend.runTo] at hrun'
      have hend' := runLoop_end h hb hn (fun _ _ => lastRow_again h) hend hrun'
      rcases hend'.rows h hn hi with ⟨-, hi'⟩ | ⟨he, hi'⟩
      · exact Except.ok.inj (hi'.symm.trans (hrow hf i hi))
      · have hord := hord.resolve_right (not_not.mpr ⟨i, by rw [Nat.mul_comm, he]⟩)
        have := hrow hf i hi
        rw [he] at this
        exact Except.ok.inj ((hi' hord).symm.trans this)
    · have hord := hcase.resolve_left (not_not.mpr hdone)
      have hsteps := (runToEnd_ok_iff h hb hf).mp ⟨t, hrun⟩
      exact hend.runTo_ok h hb hn hord (hsteps _ (by omega)) _

theorem resumed_rows_growth : ∃ s s' t,
    sdSimNew (.plain false) (growth ⟨0, 4, 1, 2⟩) none = .ok s ∧
    s.calls [.runTo 2, .runToEnd, .reset, .runTo 7] = .ok s' ∧ sdSimRunToEnd s = .ok t ∧
    (∀ t', sdSimRunToEnd s' = .ok t' → ∀ i < s.nsaves, t'.slab i = t.slab i) ∧
    (¬ Completed s [.runTo 2, .runToEnd, .reset, .runTo 7] ∨ FlowsOrdered s →
      ∃ t', sdSimRunToEnd s' = .ok t') := by
  obtain ⟨⟨s, s', t⟩, h, hs⟩ := exists_ok
    (P := fun r : SDSim × SDSim × SDSim => decide (0 < r.1.spec.dt) && decide (FlowsOrdered r.1))
    (x := do
      let s ← sdSimNew (.plain false) (growth ⟨0, 4, 1, 2⟩) none
      let s' ← s.calls [.runTo 2, .runToEnd, .reset, .runTo 7]
      let t ← sdSimRunToEnd s
      return (s, s', t)) (by decide +kernel)
  obtain ⟨s1, hnew, h⟩ := bind_eq_ok h
  obtain ⟨s2, hcalls, h⟩ := bind_eq_ok h
  obtain ⟨t1, hrun, h⟩ := bind_eq_ok h
  obtain ⟨rfl, rfl, rfl⟩ : s1 = s ∧ s2 = s' ∧ t1 = t := by
    simpa [pure, Except.pure] using h
  simp only [Bool.and_eq_true, decide_eq_true_eq] at hs
  exact ⟨s1, s2, t1, hnew, hcalls, hrun,
    resumed_rows rfl hnew (.inr ⟨.inl hs.1, .inl hs.2⟩) hcalls hrun⟩

/-- The module's variable is one pass behind, and the second run lets it catch up. -/
theorem rerun_changes_row : ∃ s s' t t',
    sdSimNew (.plain false) (moduleFirst ⟨0, 3, 1, 1⟩) none = .ok s ∧
    s.calls [.runToEnd] = .ok s' ∧ sdSimRunToEnd s = .ok t ∧ sdSimRunToEnd s' = .ok t' ∧
    3 < s.nsaves ∧ t'.slab 3 ≠ t.slab 3 := by
  obtain ⟨⟨s, s', t'⟩, h, hs⟩ := exists_ok
    (P := fun r : SDSim × SDSim × SDSim => decide (3 < r.1.nsaves) &&
      r.2.2.slab 3 1 != r.2.1.slab 3 1)
    (x := do
      let s ← sdSimNew (.plain false) (moduleFirst ⟨0, 3, 1, 1⟩) none
      let s' ← sdSimRunToEnd s
      let t' ← sdSimRunToEnd s'
      return (s, s', t')) (by decide +kernel)
  simp only [bind, Except.bind] at h
  split at h
  · simp at h
  · next s1 hnew =>
    split at h
    · simp at h
    · next s2 hrun =>
      split at h
      · simp at h
      · next t1 hrun' =>
        obtain ⟨rfl, rfl, rfl⟩ : s1 = s ∧ s2 = s' ∧ t1 = t' := by
          simpa [pure, Except.pure] using h
        simp only [Bool.and_eq_true, decide_eq_true_eq, bne_iff_ne] at hs
        have hcalls : s1.calls [.runToEnd] = .ok s2 := by
          simp only [SDSim.calls, SDSim.call, hrun]
          rfl
        exact ⟨s1, s2, s2, t1, hnew, hcalls, hrun, hrun', hs.1, fun he => hs.2 (congrFun he 1)⟩

end Libsd

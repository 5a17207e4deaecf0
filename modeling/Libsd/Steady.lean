/-
  Libsd/Steady.lean
  =================
  **Simulations whose every step can be calculated.**

  If moreover the flows are in order, every call returns, on a slab without limits or one
  that has the rows (`Steady.returns`), and between two calls the slab holds the rows of
  the trajectory (`Steady.at_step`, `Steady.last_row`).
-/
import Libsd.NamedResults
import Libsd.ResumedRuns
import Libsd.SlabBounds
import Libsd.Unbounded

namespace Libsd

open Outcome

structure Steady (s : SDSim) : Prop where
  reset : IsReset s
  ordered : FlowsOrdered s
  steps : ∀ j, Steps s j

namespace Steady

variable {s t t' : SDSim} (h : Steady s) (hb : s.env.bounded = false)
include h

theorem fullRow_ok (j : Nat) : ∃ row, s.fullRow (s.slab 0) j = .ok row := by
  obtain ⟨row, -, hrow, -⟩ := h.steps j
  exact ⟨row, hrow⟩

/-! ### Every call returns -/

include hb

/-- Where the simulation is after any calls. -/
theorem between {cs : List Call} (hrun : s.calls cs = .ok t) :
    Between s (LastRow s) (Completed s cs) t :=
  Between.calls (fun _ hrow _ => hrow) (fun _ _ => lastRow_again h.reset) h.reset hb
    (.inl (waiting_self h.reset)) hrun

theorem call_ok {done : Prop} (ht : Between s (LastRow s) done t) (c : Call) :
    ∃ t', t.call c = .ok t' := by
  have hrunTo : ∀ stop, ∃ t', sdSimRunTo t stop = .ok t' := by
    intro stop
    rcases ht with ⟨j, hat, -⟩ | ⟨hn, hend, -⟩
    · rw [hat.runTo]
      exact runLoop_ok h.reset hb hat fun i _ _ _ => h.steps i
    · exact hend.runTo_ok h.reset hb hn h.ordered (h.steps _) stop
  cases c with
  | runTo stop => exact hrunTo stop
  | runToEnd => exact hrunTo _
  | reset => exact ⟨s, h.reset.reset_of_same (sameSetup_of_between ht)⟩

theorem calls_ok (cs : List Call) : ∃ t, s.calls cs = .ok t := by
  suffices hall : ∀ t done, Between s (LastRow s) done t → ∃ t', t.calls cs = .ok t' from
    hall s False (.inl (waiting_self h.reset))
  induction cs with
  | nil => exact fun t _ _ => ⟨t, rfl⟩
  | cons c cs ih =>
    intro t done ht
    obtain ⟨t1, h1⟩ := h.call_ok hb ht c
    obtain ⟨t2, h2⟩ := ih t1 _ (ht.call (fun _ hrow _ => hrow)
      (fun _ _ => lastRow_again h.reset) h.reset hb h1)
    refine ⟨t2, ?_⟩
    simp only [SDSim.calls, h1, bind, Except.bind, h2]

/-! ### The rows that the slab holds -/

theorem at_step_unbounded {cs : List Call} (hrun : s.calls cs = .ok t) :
    ∃ slab j row, t = s.moved slab j (savesOf j s.saveEvery) ∧ (j < s.nsteps ∨ j = 0) ∧
      (∀ i, i * s.saveEvery < j → s.fullRow (s.slab 0) (i * s.saveEvery) = .ok (slab i)) ∧
      s.fullRow (s.slab 0) j = .ok row ∧ s.flowsOf (slab (savesOf j s.saveEvery)) = .ok row := by
  rcases h.between hb hrun with
    ⟨j, ⟨slab, ht, hkept, hpre⟩, hj, -⟩ | ⟨hn, ⟨slab, ht, hkept, -, hD⟩, -⟩
  · obtain ⟨row, hrow⟩ := h.fullRow_ok j
    exact ⟨slab, j, row, ht, hj, hkept.saved, hrow, (fullRow_of_preRow hpre).symm.trans hrow⟩
  · have hrow := hD h.ordered
    obtain ⟨pre, -, hflows⟩ := Libsd.fullRow_ok hrow
    exact ⟨slab, s.nsteps - 1, _, ht, .inl (by omega), hkept.saved, hrow,
      flowsOf_again h.reset.built h.ordered hflows⟩

theorem last_row_unbounded {cs : List Call} (hrun : s.calls cs = .ok t) (hpos : 0 < s.nsteps)
    {stop : ℚ} (hreach : Reaches s stop) (hrun' : sdSimRunTo t stop = .ok t') :
    ∃ slab, t' = s.moved slab (s.nsteps - 1) (savesOf (s.nsteps - 1) s.saveEvery) ∧
      s.fullRow (s.slab 0) (s.nsteps - 1) =
        .ok (slab (savesOf (s.nsteps - 1) s.saveEvery)) := by
  have hend : AtEnd s (LastRow s) t' := by
    rcases h.between hb hrun with ⟨j, hat, hj, -⟩ | ⟨-, hend, -⟩
    · rw [hat.runTo] at hrun'
      obtain ⟨j', -, -, -, hcase⟩ := runLoop_cases h.reset hb hat (by omega) (Nat.le_refl _) hrun'
      rcases hcase with ⟨hlt, hstop, -⟩ | ⟨-, hend⟩
      · exact absurd (hreach j' hlt) (not_le.mpr hstop)
      · exact hend.imp fun _ hrow _ => hrow
    · rw [hend.runTo] at hrun'
      exact runLoop_end h.reset hb hpos (fun _ _ => lastRow_again h.reset) hend hrun'
  obtain ⟨slab, rfl, -, -, hD⟩ := hend
  exact ⟨slab, rfl, hD h.ordered⟩

theorem saved_row_unbounded
    (hf : 0 < s.spec.dt ∨ s.spec.start ≤ s.spec.stop + 1 ∨ s.nsaves ≤ 1)
    (hzero : s.flowsOf (s.slab 0) = .ok (s.slab 0)) (ht : sdSimRunToEnd s = .ok t) {i : Nat}
    (hi : i < s.nsaves) : s.fullRow (s.slab 0) (i * s.saveEvery) = .ok (t.slab i) := by
  by_cases hfwd : Forward s
  · exact runToEnd_row h.reset hb hfwd ht hi
  · -- no step is taken, and only the initial row is kept
    have hle : s.nsaves ≤ 1 := by
      rcases hf with hf | hf | hf
      · exact absurd (.inl hf) hfwd
      · exact absurd (.inr hf) hfwd
      · exact hf
    obtain rfl : i = 0 := by omega
    obtain rfl := Except.ok.inj ((runToEnd_stay h.reset hb hfwd).symm.trans ht)
    rw [Nat.zero_mul]
    exact hzero

end Steady

/-! ### Where the slab has the rows -/

theorem unbounded_flowsOf (s : SDSim) (row : Row) : s.unbounded.flowsOf row = s.flowsOf row := by
  have hvalue : (fun (p : Path) (d : Row) => s.unbounded.calcValue d p) =
      fun p d => s.calcValue d p :=
    funext fun p => funext fun d => unbounded_calcValue d p
  rw [SDSim.flowsOf, SDSim.flowsOf, hvalue]
  rfl

theorem unbounded_stocksOf (s : SDSim) (row next : Row) :
    s.unbounded.stocksOf row next = s.stocksOf row next := by
  have hvalue : (fun (p : Path) (_ : Row) => s.unbounded.stockValue row p) =
      fun p _ => s.stockValue row p := by
    funext p _
    have heval := unbounded_eval (s := s) row (s.store p).node
    simp only [SDSim.stockValue, show s.unbounded.typeAt p = s.typeAt p from rfl,
      show s.unbounded.store = s.store from rfl, heval]
    rfl
  rw [SDSim.stocksOf, SDSim.stocksOf, hvalue]
  rfl

section
variable {s t : SDSim} (h : IsReset s) (hfit : SlabFits s)
include h hfit

/-- Such a simulation runs as it would on a slab without limits. -/
theorem runLoop_fits (stop : ℚ) (fuel : Nat) : ∀ {t u : SDSim}, Counted s t →
    SDSim.runLoop stop fuel t.unbounded = .ok u → ∃ t', SDSim.runLoop stop fuel t = .ok t' := by
  induction fuel with
  | zero => exact fun {t u} _ _ => ⟨t, rfl⟩
  | succ fuel ih =>
    rintro t u ⟨slab, j, rfl, hj⟩ hrun
    generalize hm : savesOf j s.saveEvery = m at hrun
    have hbuilt : WellBuilt s.unbounded := ⟨h.built.time, h.built.typed, h.built.compiled,
      h.built.numbered, h.built.wanted, h.built.sorted⟩
    have hrun : SDSim.runLoop stop (fuel + 1) (s.unbounded.moved slab j m) = .ok u := hrun
    rw [runLoop_eq rfl hbuilt] at hrun
    by_cases hlt : j < s.nsteps
    · have hcurr : (s.moved slab j m).checkRow m = .ok () :=
        checkRow_of_le (s := s.moved slab j m) (hm ▸ savesOf_le_nsaves h hlt.le)
      have hnext : j + 1 < s.nsteps ∨ s.stockLeaves ≠ [] → s.checkRow (m + 1) = .ok () := by
        intro hcase
        refine checkRow_of_le (hm ▸ ?_)
        refine (slabFits_row h hfit hlt).resolve_right fun ⟨hlast, hnil⟩ => ?_
        rcases hcase with hc | hc
        · omega
        · exact hc hnil
      rw [SDSim.runLoop, if_pos (show (s.moved slab j m).step < (s.moved slab j m).nsteps from hlt),
        show (s.moved slab j m).saveStep = m from rfl, hcurr,
        show (s.moved slab j m).curr = slab m from rfl]
      simp only [bind, Except.bind]
      by_cases hstop : slab m TIME ≤ stop
      · rw [if_pos (show j < s.unbounded.nsteps ∧ slab m TIME ≤ stop from ⟨hlt, hstop⟩)] at hrun
        obtain ⟨row, hrow, hrun⟩ := bind_eq_ok hrun
        obtain ⟨next, hstocks, hrun⟩ := bind_eq_ok hrun
        rw [unbounded_flowsOf] at hrow
        rw [unbounded_stocksOf] at hstocks
        have hslab : Function.update slab m row (m + 1) = slab (m + 1) :=
          Function.update_of_ne (Nat.succ_ne_self m) _ _
        rw [if_pos hstop, moved_flowsPass h.built, hrow]
        simp only [bind, Except.bind, pure, Except.pure]
        rw [moved_stocksPass h.built _ j m fun hne => hnext (.inr hne), Function.update_self, hslab,
          hstocks]
        simp only [bind, Except.bind, pure, Except.pure]
        by_cases hlast : j + 1 = s.nsteps
        · exact ⟨_, if_pos hlast⟩
        · rw [if_neg (show ¬ j + 1 = s.unbounded.nsteps from hlast)] at hrun
          rw [if_neg (show ¬ (s.moved _ j m).step + 1 = (s.moved _ j m).nsteps from hlast),
            advance_eq (hnext (.inl (by omega)))]
          refine ih (u := u) ?_ ?_
          · exact hm ▸ counted_advanced h _ (by omega)
          · rw [← hrun]
            unfold SDSim.advanced
            simp only [show s.unbounded.saveEvery = s.saveEvery from rfl,
              show s.unbounded.timeAt = s.timeAt from rfl,
              show s.unbounded.nvars = s.nvars from rfl]
            split <;> rfl
      · rw [if_neg hstop]
        exact ⟨_, rfl⟩
    · rw [SDSim.runLoop,
        if_neg (show ¬ (s.moved slab j m).step < (s.moved slab j m).nsteps from hlt)]
      exact ⟨_, rfl⟩

theorem calls_fits {cs : List Call} {u : SDSim} (ht : Counted s t)
    (hrun : t.unbounded.calls cs = .ok u) : ∃ t', t.calls cs = .ok t' := by
  induction cs generalizing t with
  | nil => exact ⟨t, rfl⟩
  | cons c cs ih =>
    obtain ⟨v, hc, hrun⟩ := bind_eq_ok hrun
    have hcall : ∃ t', t.call c = .ok t' := by
      cases c with
      | runTo stop => exact runLoop_fits h hfit stop _ ht hc
      | runToEnd => exact runLoop_fits h hfit _ _ ht hc
      | reset =>
        obtain ⟨slab, j, rfl, -⟩ := ht
        exact ⟨s, h.reset_of_same (moved_sameSetup slab j _)⟩
    obtain ⟨t1, h1⟩ := hcall
    obtain rfl := Except.ok.inj ((unbounded_call h1).symm.trans hc)
    obtain ⟨t2, h2⟩ := ih ((safely_call h hfit c ht).2 t1 h1) hrun
    refine ⟨t2, ?_⟩
    simp only [SDSim.calls, h1, bind, Except.bind, h2]

end

/-! ### Slabs without limits -/

theorem IsReset.unbounded {s : SDSim} (h : IsReset s) : IsReset s.unbounded where
  built := ⟨h.built.time, h.built.typed, h.built.compiled, h.built.numbered, h.built.wanted,
    h.built.sorted⟩
  spec := h.spec
  dt := h.dt
  nsteps := h.nsteps
  saveEvery := h.saveEvery
  nsaves := h.nsaves
  step := h.step
  saveStep := h.saveStep
  rest := h.rest
  initial := by
    have hvalue : (fun (p : Path) (d : Row) => s.unbounded.calcValue d p) =
        fun p d => s.calcValue d p :=
      funext fun p => funext fun d => unbounded_calcValue d p
    rw [SDSim.initialsOf, hvalue]
    exact h.initial
  again := unbounded_reset h.again

theorem unbounded_fullRow (s : SDSim) (init : Row) (j : Nat) :
    s.unbounded.fullRow init j = s.fullRow init j := by
  induction j with
  | zero => exact unbounded_flowsOf s init
  | succ j ih =>
    simp only [SDSim.fullRow, SDSim.nextRow, ih, unbounded_stocksOf, unbounded_flowsOf]
    rfl

theorem Steady.unbounded {s : SDSim} (h : Steady s) : Steady s.unbounded where
  reset := h.reset.unbounded
  ordered := h.ordered
  steps j := by
    obtain ⟨row, n, hrow, hn⟩ := h.steps j
    exact ⟨row, n, (unbounded_fullRow s _ j).trans hrow, (unbounded_stocksOf s row _).trans hn⟩

theorem moved_of_unbounded {s t : SDSim} (hsame : SameSetup s t) {slab : Nat → Row} {j m : Nat}
    (h : t.unbounded = s.unbounded.moved slab j m) : t = s.moved slab j m :=
  calc
    t = { t.unbounded with env := t.env } := rfl
    _ = { s.unbounded.moved slab j m with env := s.env } := by rw [h, hsame.env]
    _ = s.moved slab j m := rfl

namespace Steady

variable {s t t' : SDSim} (h : Steady s)
include h

/-- Given a slab without limits or one that has the rows, every call returns. -/
theorem returns (hfit : s.env.bounded = false ∨ SlabFits s) (cs : List Call) :
    ∃ t, s.calls cs = .ok t := by
  rcases hfit with hb | hfit
  · exact h.calls_ok hb cs
  · obtain ⟨u, hu⟩ := h.unbounded.calls_ok rfl cs
    exact calls_fits h.reset hfit (counted_self h.reset) hu

/-- Between two calls, calculating the flows of the current row gives the row of the step. -/
theorem at_step {cs : List Call} (hrun : s.calls cs = .ok t) :
    ∃ slab j row, t = s.moved slab j (savesOf j s.saveEvery) ∧ (j < s.nsteps ∨ j = 0) ∧
      (∀ i, i * s.saveEvery < j → s.fullRow (s.slab 0) (i * s.saveEvery) = .ok (slab i)) ∧
      s.fullRow (s.slab 0) j = .ok row ∧ s.flowsOf (slab (savesOf j s.saveEvery)) = .ok row := by
  obtain ⟨slab, j, row, ht, hj, hsaved, hrow, hflows⟩ :=
    h.unbounded.at_step_unbounded rfl (unbounded_calls hrun)
  refine ⟨slab, j, row, moved_of_unbounded (calls_sameSetup h.reset.built hrun) ht, hj,
    fun i hi => ?_, ?_, ?_⟩
  · exact (unbounded_fullRow s _ _).symm.trans (hsaved i hi)
  · exact (unbounded_fullRow s _ _).symm.trans hrow
  · exact (unbounded_flowsOf s _).symm.trans hflows

/-- A run that goes on to the last step leaves the row of that step. -/
theorem last_row {cs : List Call} (hrun : s.calls cs = .ok t) (hpos : 0 < s.nsteps) {stop : ℚ}
    (hreach : Reaches s stop) (hrun' : sdSimRunTo t stop = .ok t') :
    ∃ slab, t' = s.moved slab (s.nsteps - 1) (savesOf (s.nsteps - 1) s.saveEvery) ∧
      s.fullRow (s.slab 0) (s.nsteps - 1) =
        .ok (slab (savesOf (s.nsteps - 1) s.saveEvery)) := by
  obtain ⟨slab, ht', hrow⟩ := h.unbounded.last_row_unbounded rfl (unbounded_calls hrun) hpos hreach
    (unbounded_runLoop hrun')
  have hsame : SameSetup s t' :=
    (calls_sameSetup h.reset.built hrun).trans (runLoop_moved hrun').sameSetup
  exact ⟨slab, moved_of_unbounded hsame ht', (unbounded_fullRow s _ _).symm.trans hrow⟩

/-- The rows that a run to the end saves. -/
theorem saved_row (hf : 0 < s.spec.dt ∨ s.spec.start ≤ s.spec.stop + 1 ∨ s.nsaves ≤ 1)
    (hzero : s.flowsOf (s.slab 0) = .ok (s.slab 0)) (ht : sdSimRunToEnd s = .ok t) {i : Nat}
    (hi : i < s.nsaves) : s.fullRow (s.slab 0) (i * s.saveEvery) = .ok (t.slab i) :=
  (unbounded_fullRow s _ _).symm.trans (h.unbounded.saved_row_unbounded rfl hf
    ((unbounded_flowsOf s _).trans hzero) (unbounded_runLoop ht) hi)

end Steady

/-! ### The step that calls come to -/

/-- From step `j` a run up to `stop` comes to step `j'`: the first whose time is beyond
    `stop`, or the last. -/
structure SDSim.ComesTo (s : SDSim) (stop : ℚ) (j j' : Nat) : Prop where
  le : j ≤ j'
  halts : s.nsteps ≤ j' + 1 ∨ stop < s.timeAt j'
  goes : ∀ i, j ≤ i → i < j' → i + 1 < s.nsteps ∧ s.timeAt i ≤ stop

/-- The step after a call, from step `j`. -/
def Call.Step (s : SDSim) (j : Nat) : Call → Nat → Prop
  | .runTo stop => s.ComesTo stop j
  | .runToEnd => s.ComesTo (s.spec.stop + 1) j
  | .reset => (· = 0)

section
variable {s s' t t' : SDSim}

/-- A clock that is the same comes to the same step. -/
theorem SDSim.ComesTo.unique {stop : ℚ} {j i k : Nat} (hnsteps : s'.nsteps = s.nsteps)
    (htime : ∀ i, s'.timeAt i = s.timeAt i) (hi : s.ComesTo stop j i) (hk : s'.ComesTo stop j k) :
    k = i := by
  rcases lt_trichotomy k i with hlt | heq | hlt
  · obtain ⟨hgo, hle⟩ := hi.goes k hk.le hlt
    rcases hk.halts with hn | hstop
    · omega
    · exact absurd (htime k ▸ hstop) (not_lt.mpr hle)
  · exact heq
  · obtain ⟨hgo, hle⟩ := hk.goes i hi.le hlt
    rcases hi.halts with hn | hstop
    · omega
    · exact absurd (htime i ▸ hle) (not_le.mpr hstop)

section
variable (h : IsReset s) (hb : s.env.bounded = false)
include h hb

theorem between_runTo_step {done : Prop} {stop : ℚ} (ht : Between s (fun _ => True) done t)
    (hrun : sdSimRunTo t stop = .ok t') : s.ComesTo stop t.step t'.step := by
  rcases ht with ⟨j, hat, -, hj, hback⟩ | ⟨hn, hend, -⟩
  · rw [hat.runTo] at hrun
    have hstep : t.step = j := by
      obtain ⟨slab, rfl, -⟩ := hat
      rfl
    rw [hstep]
    by_cases hlt : j < s.nsteps
    · obtain ⟨k, hjk, hkn, hall, hcase⟩ := runLoop_cases h hb hat hlt (Nat.le_refl _) hrun
      rcases hcase with ⟨hk, hstop, slab, rfl, -⟩ | ⟨rfl, slab, rfl, -⟩
      · refine ⟨hjk, .inr hstop, fun i hi hik => ?_⟩
        have hik : i < k := hik
        exact ⟨by omega, (hall i hi hik).1⟩
      · refine ⟨Nat.le_sub_one_of_lt hlt, .inl ?_, fun i hi hik => ?_⟩
        · show s.nsteps ≤ s.nsteps - 1 + 1
          omega
        · have hik : i < s.nsteps - 1 := hik
          exact ⟨by omega, (hall i hi (by omega)).1⟩
    · rw [show s.nsteps - j = 0 by omega] at hrun
      obtain rfl := Except.ok.inj hrun
      rw [hstep]
      exact ⟨Nat.le_refl j, .inl (by omega), fun i hi hik => absurd hik (not_lt.mpr hi)⟩
  · have hstep : ∀ u, AtEnd s (fun _ => True) u → u.step = s.nsteps - 1 := by
      rintro u ⟨slab, rfl, -⟩
      rfl
    rw [hend.runTo] at hrun
    rw [hstep t hend, hstep t' (runLoop_end h hb hn (fun _ _ _ _ => trivial) hend hrun)]
    exact ⟨Nat.le_refl _, .inl (by omega), fun i hi hik => absurd hik (not_lt.mpr hi)⟩

theorem between_call_step {done : Prop} {c : Call} (ht : Between s (fun _ => True) done t)
    (hrun : t.call c = .ok t') : c.Step s t.step t'.step := by
  cases c with
  | runTo stop => exact between_runTo_step h hb ht hrun
  | runToEnd =>
    have hrun : sdSimRunTo t (t.spec.stop + 1) = .ok t' := hrun
    rw [spec_of_between ht] at hrun
    exact between_runTo_step h hb ht hrun
  | reset =>
    have hreset := h.reset_of_same (sameSetup_of_between ht)
    obtain rfl := Except.ok.inj (hreset.symm.trans hrun)
    exact h.step

end

/-- Two simulations with the same clock. -/
structure SameClock (s s' : SDSim) : Prop where
  left : IsReset s
  right : IsReset s'
  spec : s'.spec = s.spec

theorem SameClock.nsteps (h : SameClock s s') : s'.nsteps = s.nsteps := by
  have hn := h.right.nsteps
  rw [h.spec] at hn
  exact Except.ok.inj (hn.symm.trans h.left.nsteps)

theorem SameClock.saveEvery (h : SameClock s s') : s'.saveEvery = s.saveEvery := by
  obtain ⟨n, hn, hevery⟩ := h.left.saveEvery
  obtain ⟨n', hn', hevery'⟩ := h.right.saveEvery
  rw [h.spec] at hn'
  obtain rfl := Except.ok.inj (hn'.symm.trans hn)
  exact hevery'.trans hevery.symm

theorem SameClock.step_between (h : SameClock s s') (hb : s.env.bounded = false)
    (hb' : s'.env.bounded = false) {cs : List Call} {u u' : SDSim} {done done' : Prop}
    (ht : Between s (fun _ => True) done t) (ht' : Between s' (fun _ => True) done' t')
    (hstep : t'.step = t.step) (hrun : t.calls cs = .ok u) (hrun' : t'.calls cs = .ok u') :
    u'.step = u.step := by
  have htime : ∀ i, s'.timeAt i = s.timeAt i := fun i => by
    rw [SDSim.timeAt, SDSim.timeAt, h.spec]
  induction cs generalizing t t' done done' with
  | nil =>
    obtain rfl := Except.ok.inj hrun
    obtain rfl := Except.ok.inj hrun'
    exact hstep
  | cons c cs ih =>
    obtain ⟨t1, h1, hrun⟩ := bind_eq_ok hrun
    obtain ⟨t1', h1', hrun'⟩ := bind_eq_ok hrun'
    refine ih (ht.call (fun _ _ => trivial) (fun _ _ _ _ => trivial) h.left hb h1)
      (ht'.call (fun _ _ => trivial) (fun _ _ _ _ => trivial) h.right hb' h1') ?_ hrun hrun'
    have hc := between_call_step h.left hb ht h1
    have hc' := between_call_step h.right hb' ht' h1'
    rw [hstep] at hc'
    cases c with
    | runTo stop => exact hc.unique h.nsteps htime hc'
    | runToEnd =>
      have hc' : s'.ComesTo (s'.spec.stop + 1) t.step t1'.step := hc'
      rw [h.spec] at hc'
      exact SDSim.ComesTo.unique h.nsteps htime hc hc'
    | reset => exact hc'.trans hc.symm

end

/-- The same calls bring both to the same step. -/
theorem SameClock.step_eq {s s' t t' : SDSim} (h : SameClock s s') {cs : List Call}
    (hrun : s.calls cs = .ok t) (hrun' : s'.calls cs = .ok t') : t'.step = t.step := by
  have hu : SameClock s.unbounded s'.unbounded :=
    ⟨h.left.unbounded, h.right.unbounded, h.spec⟩
  have ht : Between s.unbounded (fun _ => True) False s.unbounded := .inl (waiting_self hu.left)
  have ht' : Between s'.unbounded (fun _ => True) False s'.unbounded :=
    .inl (waiting_self hu.right)
  have hstep : t'.unbounded.step = t.unbounded.step :=
    hu.step_between rfl rfl ht ht' (hu.right.step.trans hu.left.step.symm) (unbounded_calls hrun)
      (unbounded_calls hrun')
  exact hstep

end Libsd

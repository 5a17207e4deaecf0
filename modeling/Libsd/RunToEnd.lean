/-
  Libsd/RunToEnd.lean
  ===================
  **Runs to the end.**

  `sd_sim_run_to_end` runs to one time unit behind `stop`.  Where time moves
  forward, or starts no later than that, no step lies beyond it (`timeAt_le`), so
  the run comes to the last step and the kept rows are those of the trajectory
  (`runToEnd_row`); otherwise no step is taken (`runToEnd_stay`).
-/
import Libsd.RunLoop

namespace Libsd

variable {s t : SDSim}

/-- No step lies behind the time that `sd_sim_run_to_end` runs to. -/
def Forward (s : SDSim) : Prop := 0 < s.spec.dt ∨ s.spec.start ≤ s.spec.stop + 1

theorem IsReset.step_le (h : IsReset s) {j : Nat} (hj : j < s.nsteps) :
    (j : ℚ) ≤ (s.spec.stop - s.spec.start) / s.spec.dt := by
  have hn := h.nsteps
  unfold toSize at hn
  split at hn
  · simp at hn
  · rw [← Except.ok.inj hn] at hj
    have hfloor : (j : ℤ) < ⌊(s.spec.stop - s.spec.start) / s.spec.dt + 1⌋ :=
      show (j : ℤ) < Rat.floor _ by omega
    have hlt : ((j : ℤ) : ℚ) + 1 ≤ (s.spec.stop - s.spec.start) / s.spec.dt + 1 := by
      have hle : ((j + 1 : ℤ) : ℚ) ≤ (s.spec.stop - s.spec.start) / s.spec.dt + 1 :=
        Int.le_floor.mp hfloor
      exact_mod_cast hle
    have : ((j : ℤ) : ℚ) = (j : ℚ) := by norm_cast
    linarith

theorem timeAt_le (h : IsReset s) (hf : Forward s) {j : Nat} (hj : j < s.nsteps) :
    s.timeAt j ≤ s.spec.stop + 1 := by
  have hle := h.step_le hj
  unfold SDSim.timeAt
  rcases lt_or_gt_of_ne h.dt with hneg | hpos
  · have hstart := hf.resolve_left (by linarith)
    have : (j : ℚ) * s.spec.dt ≤ 0 := mul_nonpos_of_nonneg_of_nonpos (Nat.cast_nonneg j) hneg.le
    linarith
  · have := (le_div_iff₀ hpos).mp hle
    linarith

theorem timeAt_zero (s : SDSim) : s.timeAt 0 = s.spec.start := by
  simp [SDSim.timeAt]

theorem stop_lt_of_not_forward (hf : ¬ Forward s) : s.spec.stop + 1 < s.timeAt 0 := by
  rw [timeAt_zero]
  exact not_le.mp fun h => hf (.inr h)

theorem AtStep.sameSetup {j : Nat} (ht : AtStep s j t) : SameSetup s t := by
  obtain ⟨slab, rfl, -⟩ := ht
  exact ⟨rfl, rfl, rfl, rfl, rfl, rfl⟩

theorem AtStep.runTo {j : Nat} (ht : AtStep s j t) (stop : ℚ) :
    sdSimRunTo t stop = SDSim.runLoop stop (s.nsteps - j) t := by
  obtain ⟨slab, rfl, -⟩ := ht
  rfl

theorem AtStep.runToEnd {j : Nat} (ht : AtStep s j t) :
    sdSimRunToEnd t = SDSim.runLoop (s.spec.stop + 1) (s.nsteps - j) t := by
  obtain ⟨slab, rfl, -⟩ := ht
  rfl

/-- From any step, a run to the end that returns comes to the last step. -/
theorem AtStep.runToEnd_atEnd (h : IsReset s) (hb : s.env.bounded = false) (hf : Forward s)
    {j : Nat}
    (ht : AtStep s j t) (hj : j < s.nsteps) {t' : SDSim} (hrun : sdSimRunToEnd t = .ok t') :
    AtEnd s (fun row => s.fullRow (s.slab 0) (s.nsteps - 1) = .ok row) t' ∧
      ∀ i, j ≤ i → i < s.nsteps → Steps s i := by
  rw [ht.runToEnd] at hrun
  obtain ⟨j', -, hj', hall, hcase⟩ := runLoop_cases h hb ht hj (Nat.le_refl _) hrun
  rcases hcase with ⟨hlt, hstop, -⟩ | ⟨rfl, hend⟩
  · exact absurd (timeAt_le h hf hlt) (not_le.mpr hstop)
  · exact ⟨hend, fun i hi hi' => (hall i hi hi').2⟩

/-- It returns when the steps to be taken can be calculated. -/
theorem AtStep.runToEnd_ok (h : IsReset s) (hb : s.env.bounded = false) {j : Nat}
    (ht : AtStep s j t) (hsteps : ∀ i, j ≤ i → i < s.nsteps → Steps s i) :
    ∃ t', sdSimRunToEnd t = .ok t' := by
  rw [ht.runToEnd]
  exact runLoop_ok h hb ht fun i hi hi' _ => hsteps i hi hi'

/-- The rows that a run to the end keeps. -/
theorem runToEnd_row (h : IsReset s) (hb : s.env.bounded = false) (hf : Forward s)
    (hrun : sdSimRunToEnd s = .ok t) {i : Nat} (hi : i < s.nsaves) :
    s.fullRow (s.slab 0) (i * s.saveEvery) = .ok (t.slab i) := by
  have hlt : i * s.saveEvery < s.nsteps := by
    rwa [h.nsaves, lt_savesOf_iff h.saveEvery_pos] at hi
  obtain ⟨hend, -⟩ := (atStep_isReset h).runToEnd_atEnd h hb hf (by omega) hrun
  rcases hend.rows h (by omega) hi with ⟨-, hrow⟩ | ⟨he, hrow⟩
  · exact hrow
  · rw [he]
    exact hrow

theorem runToEnd_stay (h : IsReset s) (hb : s.env.bounded = false) (hf : ¬ Forward s) :
    sdSimRunToEnd s = .ok s := by
  rw [(atStep_isReset h).runToEnd]
  exact runLoop_stay h hb (atStep_isReset h) (fun hgo =>
    not_lt.mpr hgo.2 (stop_lt_of_not_forward hf)) _

/-- A run to the end returns when it takes no step, or all steps can be calculated. -/
theorem runToEnd_ok_iff (h : IsReset s) (hb : s.env.bounded = false) (hf : Forward s) :
    (∃ t, sdSimRunToEnd s = .ok t) ↔ ∀ i, i < s.nsteps → Steps s i := by
  constructor
  · rintro ⟨t, hrun⟩ i hi
    exact ((atStep_isReset h).runToEnd_atEnd h hb hf (by omega) hrun).2 i (Nat.zero_le i) hi
  · intro hsteps
    exact (atStep_isReset h).runToEnd_ok h hb fun i _ hi => hsteps i hi

end Libsd

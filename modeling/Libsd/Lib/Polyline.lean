/-
  Libsd/Lib/Polyline.lean
  =======================
  **Piecewise-linear functions through points.**

  The points `(x 0, y 0) … (x n, y n)` have nondecreasing abscissae, which may repeat.
  Between two neighbours the function is the line through them, and outside the first and
  the last it is constant.  Where an abscissa repeats it jumps there, and its value is
  that of the first of the points.
-/
import Mathlib.Algebra.Order.Field.Basic
import Mathlib.Order.Interval.Set.Basic
import Mathlib.Tactic.Linarith
import Mathlib.Tactic.Ring

namespace Polyline

variable {K : Type*} [Field K] [LinearOrder K]

/-- The line through the points `i` and `i + 1`. -/
def line (x y : Nat → K) (i : Nat) (t : K) : K :=
  (t - x i) * ((y (i + 1) - y i) / (x (i + 1) - x i)) + y i

/-- The polyline through the points up to `n`. -/
def polyline (x y : Nat → K) : Nat → K → K
  | 0, _ => y 0
  | n + 1, t =>
    if x n < t then
      if t ≤ x (n + 1) then line x y n t else y (n + 1)
    else polyline x y n t

variable {x y : Nat → K} {n i : Nat} {s t : K}

theorem line_right (h : x i < x (i + 1)) : line x y i (x (i + 1)) = y (i + 1) := by
  have hne : x (i + 1) - x i ≠ 0 := sub_ne_zero.mpr h.ne'
  rw [line, mul_div_cancel₀ _ hne, sub_add_cancel]

theorem polyline_succ_of_le (h : t ≤ x n) : polyline x y (n + 1) t = polyline x y n t :=
  if_neg (not_lt.mpr h)

omit [Field K] in
theorem monotoneOn_pred (hx : MonotoneOn x (Set.Iic (n + 1))) : MonotoneOn x (Set.Iic n) :=
  hx.mono (Set.Iic_subset_Iic.mpr (Nat.le_succ n))

omit [Field K] in
theorem monotoneOn_step (hx : MonotoneOn x (Set.Iic n)) (hi : i < n) : x i ≤ x (i + 1) :=
  hx (Set.mem_Iic.mpr hi.le) (Set.mem_Iic.mpr hi) (Nat.le_succ i)

/-! ### The values of a polyline -/

theorem polyline_of_le_first (hx : MonotoneOn x (Set.Iic n)) (ht : t ≤ x 0) :
    polyline x y n t = y 0 := by
  induction n with
  | zero => rfl
  | succ n ih =>
    have hn : x 0 ≤ x n := hx (Set.mem_Iic.mpr (Nat.zero_le _)) (Set.mem_Iic.mpr (Nat.le_succ n))
      (Nat.zero_le n)
    rw [polyline_succ_of_le (ht.trans hn)]
    exact ih (monotoneOn_pred hx)

theorem polyline_of_last_lt (hx : MonotoneOn x (Set.Iic n)) (ht : x n < t) :
    polyline x y n t = y n := by
  cases n with
  | zero => rfl
  | succ n =>
    have hn : x n < t := (monotoneOn_step hx (Nat.lt_succ_self n)).trans_lt ht
    rw [polyline, if_pos hn, if_neg (not_le.mpr ht)]

/-- Between two neighbours it is the line through them. -/
theorem polyline_of_mem (hx : MonotoneOn x (Set.Iic n)) (hi : i < n) (hlo : x i < t)
    (hhi : t ≤ x (i + 1)) : polyline x y n t = line x y i t := by
  induction n with
  | zero => exact absurd hi (Nat.not_lt_zero i)
  | succ n ih =>
    rcases Nat.eq_or_lt_of_le (Nat.lt_succ_iff.mp hi) with rfl | hlt
    · rw [polyline, if_pos hlo, if_pos hhi]
    · have hn : x (i + 1) ≤ x n := hx (Set.mem_Iic.mpr (by omega)) (Set.mem_Iic.mpr (by omega)) hlt
      rw [polyline_succ_of_le (hhi.trans hn)]
      exact ih (monotoneOn_pred hx) hlt

/-! ### Order -/

section
variable [IsStrictOrderedRing K]

/-- On its stretch a line runs between the ordinates of its two points. -/
theorem line_mem_uIcc (hlo : x i < t) (hhi : t ≤ x (i + 1)) :
    line x y i t ∈ Set.uIcc (y i) (y (i + 1)) := by
  have hpos : 0 < x (i + 1) - x i := sub_pos.mpr (hlo.trans_le hhi)
  -- how far along the stretch `t` is
  have h0 : 0 ≤ (t - x i) / (x (i + 1) - x i) := div_nonneg (sub_nonneg.mpr hlo.le) hpos.le
  have h1 : (t - x i) / (x (i + 1) - x i) ≤ 1 :=
    (div_le_one hpos).mpr (sub_le_sub_right hhi (x i))
  have hline : line x y i t =
      (t - x i) / (x (i + 1) - x i) * (y (i + 1) - y i) + y i := by
    rw [line]
    ring
  rw [hline]
  generalize (t - x i) / (x (i + 1) - x i) = q at h0 h1
  rcases le_total (y i) (y (i + 1)) with hy | hy
  · rw [Set.uIcc_of_le hy]
    constructor <;> nlinarith
  · rw [Set.uIcc_of_ge hy]
    constructor <;> nlinarith

theorem line_mono (hlo : x i < x (i + 1)) (hy : y i ≤ y (i + 1)) (hst : s ≤ t) :
    line x y i s ≤ line x y i t := by
  have hslope : 0 ≤ (y (i + 1) - y i) / (x (i + 1) - x i) :=
    div_nonneg (sub_nonneg.mpr hy) (sub_pos.mpr hlo).le
  exact add_le_add_left (mul_le_mul_of_nonneg_right (sub_le_sub_right hst (x i)) hslope) (y i)

theorem polyline_le_last (hy : MonotoneOn y (Set.Iic n)) : polyline x y n t ≤ y n := by
  induction n with
  | zero => exact le_rfl
  | succ n ih =>
    have hstep : y n ≤ y (n + 1) := monotoneOn_step hy (Nat.lt_succ_self n)
    rw [polyline]
    split_ifs with hlo hhi
    · have hmem := line_mem_uIcc (y := y) hlo hhi
      rw [Set.uIcc_of_le hstep] at hmem
      exact hmem.2
    · exact le_rfl
    · exact (ih (monotoneOn_pred hy)).trans hstep

/-- A polyline through rising points rises. -/
theorem polyline_monotone (hy : MonotoneOn y (Set.Iic n)) : Monotone (polyline x y n) := by
  induction n with
  | zero => exact fun s t _ => le_rfl
  | succ n ih =>
    intro s t hst
    have hstep : y n ≤ y (n + 1) := monotoneOn_step hy (Nat.lt_succ_self n)
    by_cases ht : x n < t
    · by_cases hs : x n < s
      · by_cases hend : t ≤ x (n + 1)
        · -- both on the last stretch
          rw [polyline, polyline, if_pos hs, if_pos (hst.trans hend), if_pos ht, if_pos hend]
          exact line_mono (ht.trans_le hend) hstep hst
        · have hlast : polyline x y (n + 1) t = y (n + 1) := by
            rw [polyline, if_pos ht, if_neg hend]
          rw [hlast]
          exact polyline_le_last hy
      · rw [polyline_succ_of_le (not_lt.mp hs)]
        refine (polyline_le_last (monotoneOn_pred hy)).trans ?_
        rw [polyline, if_pos ht]
        split_ifs with hend
        · have hmem := line_mem_uIcc (y := y) ht hend
          rw [Set.uIcc_of_le hstep] at hmem
          exact hmem.1
        · exact hstep
    · have hs : s ≤ x n := hst.trans (not_lt.mp ht)
      rw [polyline_succ_of_le hs, polyline_succ_of_le (not_lt.mp ht)]
      exact ih (monotoneOn_pred hy) hst

end

end Polyline

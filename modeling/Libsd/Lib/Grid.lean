/-
  Libsd/Lib/Grid.lean
  ===================
  **Points and the steps of a grid that they fall to.**

  The steps are at `a + j * d` for `j < n`.  A point falls to the first step that does not
  come before it, so each point in the half-open interval from `a - d` to the last step
  falls to exactly one (`exists_step`, `Hits.step_unique`); with points at least `d` apart,
  no step has two of them, and a sum over the steps counts the points (`sum_hits`).
-/
import Mathlib.Algebra.BigOperators.Ring.Finset
import Mathlib.Algebra.Order.Floor.Ring
import Mathlib.Algebra.Order.Field.Basic
import Mathlib.Data.Set.Card
import Mathlib.Data.Set.Finite.Range
import Mathlib.Order.Interval.Set.Basic
import Mathlib.Tactic.Linarith
import Mathlib.Tactic.Ring

namespace Grid

variable {K : Type*} [Field K] [LinearOrder K]

/-- The point `p` falls to the step at `t`. -/
def Hits (d p t : K) : Prop := p ≤ t ∧ t < p + d

/-- No two points are nearer to each other than `d`. -/
def Separated (d : K) (P : Set K) : Prop := ∀ p ∈ P, ∀ q ∈ P, p < q → p + d ≤ q

/-- The points that fall to one of the first `n` steps. -/
def window (a d : K) (n : Nat) : Set K := Set.Ioc (a - d) (a + (n - 1) * d)

variable {a d p q t c : K} {P : Set K} {n j k : Nat}

theorem Hits.point_unique (hP : Separated d P) (hp : p ∈ P) (hq : q ∈ P) (h : Hits d p t)
    (h' : Hits d q t) : p = q := by
  rcases lt_trichotomy p q with hlt | heq | hlt
  · exact absurd (h.2.trans_le (hP p hp q hq hlt)) (not_lt.mpr h'.1)
  · exact heq
  · exact absurd (h'.2.trans_le (hP q hq p hp hlt)) (not_lt.mpr h.1)

section
variable [IsStrictOrderedRing K]

/-- The step after one that a point falls to is too late for it. -/
theorem Hits.step_le (hd : 0 < d) (h : Hits d p (a + j * d)) (h' : Hits d p (a + k * d)) :
    k ≤ j := by
  by_contra hlt
  have hle : ((j : K) + 1) * d ≤ k * d := by
    apply mul_le_mul_of_nonneg_right _ hd.le
    exact_mod_cast not_le.mp hlt
  have hlate : p + d ≤ a + k * d := by linarith [h.1]
  exact absurd h'.2 (not_lt.mpr hlate)

theorem Hits.step_unique (hd : 0 < d) (h : Hits d p (a + j * d)) (h' : Hits d p (a + k * d)) :
    j = k :=
  le_antisymm (h'.step_le hd h) (h.step_le hd h')

theorem Hits.mem_window (hd : 0 < d) (hj : j < n) (h : Hits d p (a + j * d)) :
    p ∈ window a d n := by
  have hn : (j : K) + 1 ≤ n := by exact_mod_cast hj
  have h0 : 0 ≤ (j : K) * d := mul_nonneg (Nat.cast_nonneg j) hd.le
  constructor
  · linarith [h.2]
  · have hle : (j : K) * d ≤ (n - 1) * d := mul_le_mul_of_nonneg_right (by linarith) hd.le
    linarith [h.1]

/-- A point of the window falls to the step that is its distance from the start, rounded up. -/
theorem exists_step [FloorRing K] (hd : 0 < d) (hp : p ∈ window a d n) :
    ∃ j < n, Hits d p (a + j * d) := by
  obtain ⟨hlo, hhi⟩ := hp
  have hlow : -1 < (p - a) / d := by
    rw [lt_div_iff₀ hd]
    linarith
  have hhigh : (p - a) / d ≤ n - 1 := by
    rw [div_le_iff₀ hd]
    linarith
  have hceil : 0 ≤ ⌈(p - a) / d⌉ := by
    have h : (-1 : ℤ) < ⌈(p - a) / d⌉ := Int.lt_ceil.mpr (by exact_mod_cast hlow)
    omega
  obtain ⟨j, hj⟩ := Int.eq_ofNat_of_zero_le hceil
  have hcast : ((⌈(p - a) / d⌉ : ℤ) : K) = j := by
    rw [hj]
    exact Int.cast_natCast j
  have hle : (p - a) / d ≤ j := hcast ▸ Int.le_ceil _
  have hlt : (j : K) < (p - a) / d + 1 := hcast ▸ Int.ceil_lt_add_one _
  refine ⟨j, ?_, ?_, ?_⟩
  · have h : (j : K) < n := by linarith
    exact_mod_cast h
  · have h : p - a ≤ j * d := (div_le_iff₀ hd).mp hle
    linarith
  · have h : ((j : K) - 1) * d < p - a := by
      rw [← lt_div_iff₀ hd]
      linarith
    linarith

/-- Every point of the window falls to exactly one step. -/
theorem existsUnique_step [FloorRing K] (hd : 0 < d) (hp : p ∈ window a d n) :
    ∃! j : Nat, j < n ∧ Hits d p (a + j * d) := by
  obtain ⟨j, hj, hit⟩ := exists_step hd hp
  exact ⟨j, ⟨hj, hit⟩, fun k hk => hk.2.step_unique hd hit⟩

/-! ### Counting -/

/-- The steps with a point and the points of the window are equally many. -/
theorem window_count [FloorRing K] (hd : 0 < d) (hP : Separated d P) (S : Finset Nat)
    (hS : ∀ j, j ∈ S ↔ j < n ∧ ∃ p ∈ P, Hits d p (a + j * d)) :
    (P ∩ window a d n).Finite ∧ (P ∩ window a d n).ncard = S.card := by
  classical
  have hpoint : ∀ j : S, ∃ p ∈ P, Hits d p (a + (j : Nat) * d) := fun j => ((hS j).mp j.2).2
  choose point hmem hhit using hpoint
  have hinj : Function.Injective point := by
    intro j k hjk
    have hk := hhit k
    rw [← hjk] at hk
    exact Subtype.ext ((hhit j).step_unique hd hk)
  have himage : P ∩ window a d n = Set.range point := by
    ext p
    constructor
    · rintro ⟨hp, hw⟩
      obtain ⟨j, hj, hit⟩ := exists_step hd hw
      have hjS : j ∈ S := (hS j).mpr ⟨hj, p, hp, hit⟩
      exact ⟨⟨j, hjS⟩, Hits.point_unique hP (hmem _) hp (hhit ⟨j, hjS⟩) hit⟩
    · rintro ⟨j, rfl⟩
      exact ⟨hmem j, (hhit j).mem_window hd ((hS j).mp j.2).1⟩
  rw [himage]
  refine ⟨Set.finite_range point, ?_⟩
  rw [← Set.image_univ, Set.ncard_image_of_injective _ hinj, Set.ncard_univ,
    Nat.card_eq_fintype_card,
    Fintype.card_coe]

/-- A value that is `c` on the steps with a point and 0 on the others sums up to `c` for
    each point. -/
theorem sum_hits [FloorRing K] (value : Nat → K) (hd : 0 < d) (hP : Separated d P)
    (hc : ∀ j < n, (∃ p ∈ P, Hits d p (a + j * d)) → value j = c)
    (h0 : ∀ j < n, (∀ p ∈ P, ¬ Hits d p (a + j * d)) → value j = 0) :
    ∑ j ∈ Finset.range n, value j = c * (P ∩ window a d n).ncard := by
  classical
  let S := (Finset.range n).filter fun j : Nat => ∃ p ∈ P, Hits d p (a + j * d)
  have hS : ∀ j, j ∈ S ↔ j < n ∧ ∃ p ∈ P, Hits d p (a + j * d) := fun j => by
    rw [Finset.mem_filter, Finset.mem_range]
  have hvalue : ∀ j ∈ Finset.range n, value j = if j ∈ S then c else 0 := by
    intro j hj
    rw [Finset.mem_range] at hj
    split_ifs with hjS
    · exact hc j hj ((hS j).mp hjS).2
    · exact h0 j hj fun p hp hit => hjS ((hS j).mpr ⟨hj, p, hp, hit⟩)
  have hsub : (Finset.range n).filter (fun j : Nat => j ∈ S) = S := by
    ext j
    rw [Finset.mem_filter, and_iff_right_iff_imp]
    exact fun h => Finset.mem_of_mem_filter j h
  rw [(window_count hd hP S hS).2, Finset.sum_congr rfl hvalue, ← Finset.sum_filter, hsub,
    Finset.sum_const, nsmul_eq_mul, mul_comm]

end

end Grid

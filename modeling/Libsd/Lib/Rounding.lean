/-
  Libsd/Lib/Rounding.lean
  =======================
  **Floating-point arithmetic, for any rounding.**

  A result is a number, an infinity or not a number.  `Rounding` says what the arithmetic of
  a format comes to: its values, and what an exact result is rounded to.  Exact arithmetic
  meets it (`Rounding.exact`), and so does that of a format with a largest value.

  The points of a scale are rounded three times each.  They rise all the same, just when the
  ends are numbers in this order and their distance is not rounded to an infinity
  (`scale_sorted_iff`).
-/
import Mathlib.Algebra.Order.Field.Basic
import Mathlib.Algebra.Order.Field.Rat
import Mathlib.Tactic.Linarith
import Mathlib.Tactic.Ring

namespace Libsd

/-- What an operation gives.  The sign of a zero is not kept. -/
inductive Double where
  | num (q : ℚ)
  | inf (neg : Bool)
  | nan
deriving DecidableEq, Repr

namespace Double

/-- `<=`, which holds of no NaN. -/
def le : Double → Double → Bool
  | num a, num b => decide (a ≤ b)
  | num _, inf neg => !neg
  | inf neg, num _ => neg
  | inf neg, inf neg' => neg || !neg'
  | nan, _ => false
  | _, nan => false

instance : LE Double := ⟨fun a b => le a b = true⟩

instance (a b : Double) : Decidable (a ≤ b) := inferInstanceAs (Decidable (le a b = true))

/-- The number, if it is one. -/
def number? : Double → Option ℚ
  | num q => some q
  | inf _ => none
  | nan => none

@[simp] theorem num_le_num {a b : ℚ} : num a ≤ num b ↔ a ≤ b := decide_eq_true_iff

theorem not_nan_le {a : Double} : ¬ nan ≤ a := nofun

/-- What is between two numbers is a number. -/
theorem exists_num {a b : ℚ} {d : Double} (ha : num a ≤ d) (hb : d ≤ num b) :
    ∃ q, d = num q := by
  cases d with
  | num q => exact ⟨q, rfl⟩
  | inf neg =>
    cases neg with
    | false => exact absurd hb nofun
    | true => exact absurd ha nofun
  | nan => exact absurd hb nofun

end Double

/-- The arithmetic of a format: its values, the nearest of them, and what a count is
    converted to. -/
structure Rounding where
  Value : ℚ → Prop
  round : ℚ → Double
  size : ℕ → ℚ
  zero : Value 0
  one : Value 1
  ne_nan : ∀ q, round q ≠ .nan
  value : ∀ {q r}, round q = .num r → Value r
  exact_of_value : ∀ {v}, Value v → round v = .num v
  nearest : ∀ {q r}, round q = .num r → ∀ {v}, Value v → |q - r| ≤ |q - v|
  mono : ∀ {a b}, a ≤ b → round a ≤ round b
  /-- The difference of two values is not rounded away. -/
  difference : ∀ {a b d}, Value a → Value b → a ≠ b → round (a - b) = .num d →
    2 * |a - b - d| < |a - b|
  size_mono : Monotone size
  size_zero : size 0 = 0
  size_pos : ∀ {n}, 0 < n → 0 < size n

namespace Rounding

open Double

/-- Nothing is rounded. -/
def exact : Rounding where
  Value _ := True
  round := num
  size n := n
  zero := trivial
  one := trivial
  ne_nan _ := nofun
  value _ := trivial
  exact_of_value _ := rfl
  nearest h _ _ := by
    obtain rfl := Double.num.inj h
    rw [sub_self, abs_zero]
    exact abs_nonneg _
  mono := num_le_num.mpr
  difference _ _ hne h := by
    obtain rfl := Double.num.inj h
    rw [sub_self, abs_zero, mul_zero]
    exact abs_pos.mpr (sub_ne_zero.mpr hne)
  size_mono := Nat.mono_cast
  size_zero := Nat.cast_zero
  size_pos := Nat.cast_pos.mpr

variable (R : Rounding)

/-! ### The operations -/

def add : Double → Double → Double
  | num a, num b => R.round (a + b)
  | num _, inf neg => inf neg
  | inf neg, num _ => inf neg
  | inf neg, inf neg' => if neg = neg' then inf neg else nan
  | nan, _ => nan
  | _, nan => nan

def sub : Double → Double → Double
  | num a, num b => R.round (a - b)
  | num _, inf neg => inf !neg
  | inf neg, num _ => inf neg
  | inf neg, inf neg' => if neg = neg' then nan else inf neg
  | nan, _ => nan
  | _, nan => nan

def mul : Double → Double → Double
  | num a, num b => R.round (a * b)
  | num a, inf neg => if a = 0 then nan else inf (neg != decide (a < 0))
  | inf neg, num a => if a = 0 then nan else inf (neg != decide (a < 0))
  | inf neg, inf neg' => inf (neg != neg')
  | nan, _ => nan
  | _, nan => nan

/-- A divisor of 0 is read as positive. -/
def div : Double → Double → Double
  | num a, num b =>
    if b ≠ 0 then R.round (a / b) else if a = 0 then nan else inf (decide (a < 0))
  | num _, inf _ => num 0
  | inf neg, num a => inf (neg != decide (a < 0))
  | inf _, inf _ => nan
  | nan, _ => nan
  | _, nan => nan

variable {R}

/-- What is between two values is not rounded out of them. -/
theorem exists_round {a b q : ℚ} (ha : R.Value a) (hb : R.Value b) (hle : a ≤ q) (hge : q ≤ b) :
    ∃ r, R.round q = num r ∧ a ≤ r ∧ r ≤ b := by
  have hlow : num a ≤ R.round q := R.exact_of_value ha ▸ R.mono hle
  have hhigh : R.round q ≤ num b := R.exact_of_value hb ▸ R.mono hge
  obtain ⟨r, hr⟩ := exists_num hlow hhigh
  rw [hr] at hlow hhigh
  exact ⟨r, hr, num_le_num.mp hlow, num_le_num.mp hhigh⟩

theorem round_le_of_num {a b q r : ℚ} (hab : a ≤ b) (ha : R.round a = num q)
    (hb : R.round b = num r) : q ≤ r := by
  have h := R.mono hab
  rw [ha, hb] at h
  exact num_le_num.mp h

/-! ### The points of a scale -/

variable (R) in
/-- `i / (n - 1) * (hi - lo) + lo`. -/
def point (n : ℕ) (lo hi : Double) (i : ℕ) : Double :=
  R.add (R.mul (R.div (num (R.size i)) (num (R.size (n - 1)))) (R.sub hi lo)) lo

variable {n : ℕ}

/-- The first point is not a number unless the ends are and their distance is. -/
theorem point_zero {lo hi : Double} (hn : 2 ≤ n) (h : R.point n lo hi 0 ≠ nan) :
    ∃ a b d, lo = num a ∧ hi = num b ∧ R.round (b - a) = num d := by
  have hpos : R.size (n - 1) ≠ 0 := (R.size_pos (by omega)).ne'
  have hzero : R.div (num (R.size 0)) (num (R.size (n - 1))) = num 0 := by
    rw [div, if_pos hpos, R.size_zero, zero_div, R.exact_of_value R.zero]
  rw [point, hzero] at h
  cases lo with
  | num a =>
    cases hi with
    | num b =>
      cases hd : R.round (b - a) with
      | num d => exact ⟨a, b, d, rfl, rfl, hd⟩
      | inf neg => exact absurd (by simp [sub, hd, mul, add]) h
      | nan => exact absurd hd (R.ne_nan _)
    | inf neg => exact absurd (by simp [sub, mul, add]) h
    | nan => exact absurd (by simp [sub, mul, add]) h
  | inf neg =>
    cases hi with
    | num b => exact absurd (by simp [sub, mul, add]) h
    | inf neg' =>
      refine absurd ?_ h
      by_cases hneg : neg' = neg <;> simp [sub, mul, add, hneg]
    | nan => exact absurd (by simp [sub, mul, add]) h
  | nan => 
    refine absurd ?_ h
    cases hi <;> simp [sub, mul, add]

section
variable {a b d : ℚ} (hd : R.round (b - a) = num d)
include hd

/-- Between rising ends, the three roundings keep the order. -/
theorem point_le (hab : a ≤ b) {i j : ℕ} (hij : i ≤ j) (hj : j ≤ n - 1)
    (hn : 2 ≤ n) : R.point n (num a) (num b) i ≤ R.point n (num a) (num b) j := by
  have hpos : 0 < R.size (n - 1) := R.size_pos (by omega)
  have hdv := R.value hd
  have hdn : 0 ≤ d := round_le_of_num (sub_nonneg.mpr hab) (R.exact_of_value R.zero) hd
  have hsize : ∀ {k}, 0 ≤ R.size k := fun {k} => R.size_zero ▸ R.size_mono (Nat.zero_le k)
  have hfrac : ∀ {k}, k ≤ n - 1 → ∃ f, R.round (R.size k / R.size (n - 1)) = num f ∧
      0 ≤ f ∧ f ≤ 1 :=
    fun hk => exists_round R.zero R.one (div_nonneg hsize hpos.le)
      ((div_le_one hpos).mpr (R.size_mono hk))
  obtain ⟨f, hf, hf0, hf1⟩ := hfrac (hij.trans hj)
  obtain ⟨g, hg, hg0, hg1⟩ := hfrac hj
  have hfg : f ≤ g :=
    round_le_of_num (div_le_div_of_nonneg_right (R.size_mono hij) hpos.le) hf hg
  obtain ⟨p, hp, -, -⟩ := exists_round R.zero hdv (mul_nonneg hf0 hdn)
    (mul_le_of_le_one_left hdn hf1)
  obtain ⟨q, hq, -, -⟩ := exists_round R.zero hdv (mul_nonneg hg0 hdn)
    (mul_le_of_le_one_left hdn hg1)
  have hpq : p ≤ q := round_le_of_num (mul_le_mul_of_nonneg_right hfg hdn) hp hq
  simp only [point, div, if_pos hpos.ne', hf, hg, sub, hd, mul, hp, hq, add]
  exact R.mono (add_le_add_left hpq a)

/-- The last point of falling ends is below the first: no rounding takes away more than half
    of their distance. -/
theorem not_first_le_last (hn : 2 ≤ n) (ha : R.Value a) (hb : R.Value b) (hlt : b < a) :
    ¬ R.point n (num a) (num b) 0 ≤ R.point n (num a) (num b) (n - 1) := by
  have hpos : R.size (n - 1) ≠ 0 := (R.size_pos (by omega)).ne'
  have hfirst : R.point n (num a) (num b) 0 = num a := by
    simp only [point, div, if_pos hpos, R.size_zero, zero_div, R.exact_of_value R.zero, sub, hd,
      mul, zero_mul, add, zero_add, R.exact_of_value ha]
  have hlast : R.point n (num a) (num b) (n - 1) = R.round (d + a) := by
    simp only [point, div, if_pos hpos, div_self hpos, R.exact_of_value R.one, sub, hd, mul,
      one_mul, R.exact_of_value (R.value hd), add]
  have hdiff := R.difference hb ha hlt.ne hd
  rw [abs_of_neg (sub_neg.mpr hlt)] at hdiff
  have hneg : d < 0 := by
    have habs := neg_abs_le (b - a - d)
    linarith
  rw [hfirst, hlast]
  cases hr : R.round (d + a) with
  | num r =>
    rw [num_le_num]
    intro hle
    have hnear := R.nearest hr hb
    rw [show d + a - b = -(b - a - d) by ring, abs_neg] at hnear
    have hfar := neg_abs_le (d + a - r)
    linarith [neg_abs_le (b - a - d)]
  | inf neg =>
    cases neg with
    | true => exact nofun
    | false =>
      have hmono : R.round (d + a) ≤ R.round a := R.mono (by linarith)
      rw [hr, R.exact_of_value ha] at hmono
      exact absurd hmono nofun
  | nan => exact absurd hr (R.ne_nan _)

end

/-- The points rise just when the ends are numbers that do, no further apart than a number. -/
theorem scale_sorted_iff (hn : 2 ≤ n) {lo hi : Double} (hlo : ∀ a, lo = num a → R.Value a)
    (hhi : ∀ b, hi = num b → R.Value b) :
    (∀ i j, i ≤ j → j ≤ n - 1 → R.point n lo hi i ≤ R.point n lo hi j) ↔
      ∃ a b d, lo = num a ∧ hi = num b ∧ a ≤ b ∧ R.round (b - a) = num d := by
  constructor
  · intro h
    have hself := h 0 0 (Nat.le_refl 0) (Nat.zero_le _)
    obtain ⟨a, b, d, rfl, rfl, hd⟩ := point_zero hn fun hnan => not_nan_le (hnan ▸ hself)
    refine ⟨a, b, d, rfl, rfl, not_lt.mp fun hlt => ?_, hd⟩
    exact not_first_le_last hd hn (hlo a rfl) (hhi b rfl) hlt (h 0 (n - 1) (Nat.zero_le _)
      (Nat.le_refl _))
  · rintro ⟨a, b, d, rfl, rfl, hab, hd⟩ i j hij hj
    exact point_le hd hab hij hj hn

end Rounding

end Libsd

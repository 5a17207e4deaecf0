/-
  Libsd/Conditions.lean
  =====================
  **What counts as true.**

  `if` and `not` take every number but 0 for true, `and` and `or` only 1.  The laws that
  connect them hold for two conditions just when both evaluate to 0 or 1
  (`oneTruth_iff`).
-/
import Libsd.Parse
import Libsd.Sim

namespace Libsd

/-! ### Conditions as they are parsed -/

def Node.both (a b : Node) : Node := .paren (.binary (rune '&') a b)

def Node.either (a b : Node) : Node := .paren (.binary (rune '|') a b)

def Node.negated (a : Node) : Node := .unary (rune '!') a

example : avarEqnParse (cstr "if (a and b) then x else y") =
    .ok (.ifElse (.both (.ident (cstr "a") none) (.ident (cstr "b") none))
      (.ident (cstr "x") none) (.ident (cstr "y") none)) := by decide +kernel

section
variable {env : Env} {read : Path → ℚ} {dt time : ℚ} {a b x y : Node} {va vb : ℚ}

theorem svisit_both (ha : svisit env read dt time a = .ok va)
    (hb : svisit env read dt time b = .ok vb) :
    svisit env read dt time (.both a b) = .ok (truth (va == 1 && vb == 1)) := by
  simp only [Node.both, svisit, ha, hb, bind, Except.bind]
  rfl

theorem svisit_either (ha : svisit env read dt time a = .ok va)
    (hb : svisit env read dt time b = .ok vb) :
    svisit env read dt time (.either a b) = .ok (truth (va == 1 || vb == 1)) := by
  simp only [Node.either, svisit, ha, hb, bind, Except.bind]
  rfl

theorem svisit_negated (ha : svisit env read dt time a = .ok va) :
    svisit env read dt time (.negated a) = .ok (truth (va == 0)) := by
  simp only [Node.negated, svisit, ha, bind, Except.bind]
  rfl

theorem svisit_ifElse (ha : svisit env read dt time a = .ok va) :
    svisit env read dt time (.ifElse a x y) =
      if va ≠ 0 then svisit env read dt time x else svisit env read dt time y := by
  simp only [svisit, ha, bind, Except.bind]

theorem truth_ne_zero {p : Bool} : truth p ≠ 0 ↔ p = true := by
  cases p <;> decide

theorem truth_beq_one (p : Bool) : (truth p == 1) = p := by
  cases p <;> rfl

/-- Two tests choose the same branch, whatever is in the branches, when they are equivalent. -/
theorem selects_iff {p q : Prop} [Decidable p] [Decidable q] :
    (∀ x y, (if p then svisit env read dt time x else svisit env read dt time y) =
      if q then svisit env read dt time x else svisit env read dt time y) ↔ (p ↔ q) := by
  constructor
  · intro h
    have hone := h (.floatlit [] 1) (.floatlit [] 0)
    by_cases h1 : p <;> by_cases h0 : q
    · exact iff_of_true h1 h0
    · rw [if_pos h1, if_neg h0] at hone
      cases hone
    · rw [if_neg h1, if_pos h0] at hone
      cases hone
    · exact iff_of_false h1 h0
  · intro h x y
    exact if_congr h rfl rfl

/-! ### The laws -/

variable (env read dt time) in
/-- Two conditions have one notion of truth: `and`, `or` and `not` agree with nested `if`s
    and with each other, whatever is chosen between. -/
structure OneTruth (a b : Node) : Prop where
  and_if : ∀ x y, svisit env read dt time (.ifElse (.both a b) x y) =
    svisit env read dt time (.ifElse a (.ifElse b x y) y)
  or_if : ∀ x y, svisit env read dt time (.ifElse (.either a b) x y) =
    svisit env read dt time (.ifElse a x (.ifElse b x y))
  not_and : svisit env read dt time (.negated (.both a b)) =
    svisit env read dt time (.either (.negated a) (.negated b))

/-- As a condition `and` asks for 1 twice, nested `if`s only for something other than 0. -/
theorem and_if_iff (ha : svisit env read dt time a = .ok va)
    (hb : svisit env read dt time b = .ok vb) :
    (∀ x y, svisit env read dt time (.ifElse (.both a b) x y) =
        svisit env read dt time (.ifElse a (.ifElse b x y) y)) ↔
      (va = 1 ∧ vb = 1 ↔ va ≠ 0 ∧ vb ≠ 0) := by
  have hboth : ∀ x y, svisit env read dt time (.ifElse (.both a b) x y) =
      if va = 1 ∧ vb = 1 then svisit env read dt time x else svisit env read dt time y := by
    intro x y
    rw [svisit_ifElse (svisit_both ha hb)]
    simp only [truth_ne_zero, Bool.and_eq_true, beq_iff_eq]
  have hnested : ∀ x y, svisit env read dt time (.ifElse a (.ifElse b x y) y) =
      if va ≠ 0 ∧ vb ≠ 0 then svisit env read dt time x else svisit env read dt time y := by
    intro x y
    rw [svisit_ifElse ha, svisit_ifElse hb, ite_and]
  simp only [hboth, hnested]
  exact selects_iff

theorem or_if_iff (ha : svisit env read dt time a = .ok va)
    (hb : svisit env read dt time b = .ok vb) :
    (∀ x y, svisit env read dt time (.ifElse (.either a b) x y) =
        svisit env read dt time (.ifElse a x (.ifElse b x y))) ↔
      (va = 1 ∨ vb = 1 ↔ va ≠ 0 ∨ vb ≠ 0) := by
  have heither : ∀ x y, svisit env read dt time (.ifElse (.either a b) x y) =
      if va = 1 ∨ vb = 1 then svisit env read dt time x else svisit env read dt time y := by
    intro x y
    rw [svisit_ifElse (svisit_either ha hb)]
    simp only [truth_ne_zero, Bool.or_eq_true, beq_iff_eq]
  have hnested : ∀ x y, svisit env read dt time (.ifElse a x (.ifElse b x y)) =
      if va ≠ 0 ∨ vb ≠ 0 then svisit env read dt time x else svisit env read dt time y := by
    intro x y
    rw [svisit_ifElse ha, svisit_ifElse hb, ite_or]
  simp only [heither, hnested]
  exact selects_iff

/-- `not` of `and` is 1 unless both are 1, `or` of the two `not`s unless neither is 0. -/
theorem not_and_iff (ha : svisit env read dt time a = .ok va)
    (hb : svisit env read dt time b = .ok vb) :
    svisit env read dt time (.negated (.both a b)) =
        svisit env read dt time (.either (.negated a) (.negated b)) ↔
      (va = 1 ∧ vb = 1 ↔ va ≠ 0 ∧ vb ≠ 0) := by
  rw [svisit_negated (svisit_both ha hb), svisit_either (svisit_negated ha) (svisit_negated hb),
    truth_beq_one, truth_beq_one, Except.ok.injEq]
  by_cases h1 : va = 1 ∧ vb = 1 <;> by_cases h0 : va = 0 ∨ vb = 0
  · -- a number cannot be both
    rcases h0 with h0 | h0
    · exact absurd (h1.1.symm.trans h0) one_ne_zero
    · exact absurd (h1.2.symm.trans h0) one_ne_zero
  · simp [h1.1, h1.2, truth]
  · rcases h0 with h0 | h0 <;> simp [h0, truth]
  · obtain ⟨hna, hnb⟩ := not_or.mp h0
    rw [not_and] at h1
    have hne : ¬ (va = 1 ∧ vb = 1) := fun h => h1 h.1 h.2
    simp [hna, hnb, hne, truth]

/-- Both notions agree on the numbers of two conditions just when these are truth values. -/
theorem truth_values_iff :
    ((va = 1 ∧ vb = 1 ↔ va ≠ 0 ∧ vb ≠ 0) ∧ (va = 1 ∨ vb = 1 ↔ va ≠ 0 ∨ vb ≠ 0)) ↔
    (va = 0 ∨ va = 1) ∧ (vb = 0 ∨ vb = 1) := by
  constructor
  · rintro ⟨hand, hor⟩
    constructor
    · by_contra h
      obtain ⟨h0, h1⟩ := not_or.mp h
      rcases hor.mpr (.inl h0) with h | hb1
      · exact h1 h
      · exact h1 (hand.mpr ⟨h0, hb1 ▸ one_ne_zero⟩).1
    · by_contra h
      obtain ⟨h0, h1⟩ := not_or.mp h
      rcases hor.mpr (.inr h0) with ha1 | h
      · exact h1 (hand.mpr ⟨ha1 ▸ one_ne_zero, h0⟩).2
      · exact h1 h
  · rintro ⟨rfl | rfl, rfl | rfl⟩ <;> simp

theorem oneTruth_iff (ha : svisit env read dt time a = .ok va)
    (hb : svisit env read dt time b = .ok vb) :
    OneTruth env read dt time a b ↔ (va = 0 ∨ va = 1) ∧ (vb = 0 ∨ vb = 1) := by
  rw [← truth_values_iff]
  constructor
  · intro h
    exact ⟨(and_if_iff ha hb).mp h.and_if, (or_if_iff ha hb).mp h.or_if⟩
  · rintro ⟨hand, hor⟩
    exact ⟨(and_if_iff ha hb).mpr hand, (or_if_iff ha hb).mpr hor, (not_and_iff ha hb).mpr hand⟩

end

/-- The laws hold for a comparison and a literal 0. -/
theorem oneTruth_iff_comparison :
    OneTruth (.plain true) (fun _ => 0) 1 0
        (.binary (rune '<') (.floatlit [] 1) (.floatlit [] 2)) (.floatlit [] 0) ↔
      ((1 : ℚ) = 0 ∨ (1 : ℚ) = 1) ∧ ((0 : ℚ) = 0 ∨ (0 : ℚ) = 1) :=
  oneTruth_iff (by decide +kernel) rfl

/-- A condition that evaluates to 2 is true for `if` and not for `and`. -/
theorem two_and_one : ¬ ∀ (env : Env) (read : Path → ℚ) (dt time : ℚ) (a b : Node) (va vb : ℚ),
    svisit env read dt time a = .ok va → svisit env read dt time b = .ok vb →
    OneTruth env read dt time a b := by
  intro h
  have hone := h (.plain true) (fun _ => 0) 1 0 (.floatlit [] 2) (.floatlit [] 1) 2 1 rfl rfl
  have hif := hone.and_if (.floatlit [] 1) (.floatlit [] 0)
  revert hif
  decide +kernel

end Libsd

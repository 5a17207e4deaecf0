/-
  Libsd/Lib/Outcome.lean
  ======================
  **Postconditions of computations with errors.**

  `Ends P Q x` holds when `x` returns a value with `P` or stops with an error in `Q`.
  It is composed along `>>=`, so a claim about a program needs one `bind` a step.
-/
import Mathlib.Logic.Basic

namespace Libsd.Outcome

universe u v w

variable {ε : Type u} {α β : Type v}

def Ends (P : α → Prop) (Q : ε → Prop) : Except ε α → Prop
  | .ok a => P a
  | .error e => Q e

variable {P P' : α → Prop} {R : β → Prop} {Q Q' : ε → Prop} {x : Except ε α}

theorem Ends.bind {f : α → Except ε β} (hx : Ends P Q x) (hf : ∀ a, P a → Ends R Q (f a)) :
    Ends R Q (x >>= f) := by
  cases x with
  | ok a => exact hf a hx
  | error e => exact hx

theorem Ends.imp (hx : Ends P Q x) (hP : ∀ a, P a → P' a) (hQ : ∀ e, Q e → Q' e) :
    Ends P' Q' x := by
  cases x with
  | ok a => exact hP a hx
  | error e => exact hQ e hx

/-- Something else that is known of the values returned. -/
theorem Ends.of_values (hx : Ends P Q x) (h : ∀ a, x = .ok a → P' a) : Ends P' Q x := by
  cases x with
  | ok a => exact h a rfl
  | error e => exact hx

theorem Ends.of_forall_ok (h : ∀ a, x = .ok a → P a) : Ends P (fun _ => True) x := by
  cases x with
  | ok a => exact h a rfl
  | error e => trivial

theorem bind_of_ok {a : α} (hx : x = .ok a) (f : α → Except ε β) : x >>= f = f a := by
  rw [hx]
  rfl

/-- What returns has come through its first step. -/
theorem bind_eq_ok {f : α → Except ε β} {b : β} (h : x >>= f = .ok b) :
    ∃ a, x = .ok a ∧ f a = .ok b := by
  cases x with
  | ok a => exact ⟨a, rfl, h⟩
  | error e => cases h

/-- An error that neither step ends in. -/
theorem bind_ne_error {e : ε} {f : α → Except ε β} (hx : x ≠ .error e)
    (hf : ∀ a, x = .ok a → f a ≠ .error e) : x >>= f ≠ .error e := by
  cases x with
  | ok a => exact hf a rfl
  | error e' => exact fun he => hx (congrArg Except.error (Except.error.inj he))

theorem map_eq_ok {f : α → β} {b : β} (h : x.map f = .ok b) : ∃ a, x = .ok a ∧ f a = b := by
  cases x with
  | ok a => exact ⟨a, rfl, Except.ok.inj h⟩
  | error e => cases h

/-- What every step keeps, a fold keeps. -/
theorem foldlM_keeps {ι : Type w} {f : α → ι → Except ε α}
    (hstep : ∀ a i a', P a → f a i = .ok a' → P a') {is : List ι} {a a' : α} (ha : P a)
    (h : is.foldlM f a = .ok a') : P a' := by
  induction is generalizing a with
  | nil =>
    cases h
    exact ha
  | cons i is ih =>
    obtain ⟨a1, h1, h⟩ := bind_eq_ok h
    exact ih (hstep a i a1 ha h1) h

theorem Ends.of_ok (hx : Ends P Q x) {a : α} (h : x = .ok a) : P a := by
  subst h
  exact hx

theorem Ends.of_error (hx : Ends P Q x) {e : ε} (h : x = .error e) : Q e := by
  subst h
  exact hx

end Libsd.Outcome

/-
  Libsd/Lib/Descent.lean
  ======================
  **Recursion by fuel whose calls descend.**

  `body F x` is a function's body at the arguments `x`, with `F` for its recursive calls.
  With `Descends` its outcome depends on `F` at smaller arguments only.  So with enough
  fuel the recursion comes to an end, and more fuel changes nothing (`Descends.returns`,
  `Descends.stable`).
-/
import Libsd.Lib.Outcome

namespace Libsd.Descent

open Outcome

universe u v w

/-! ### Two computations that are alike -/

section
variable {ε : Type u} {α β : Type v}

/-- The computations are the same, and they end in `P` or `Q`. -/
def Alike (P : α → Prop) (Q : ε → Prop) (x y : Except ε α) : Prop := x = y ∧ Ends P Q x

variable {P P' : α → Prop} {R : β → Prop} {Q : ε → Prop} {x y : Except ε α}

theorem Alike.same (h : Ends P Q x) : Alike P Q x x := ⟨rfl, h⟩

theorem Alike.bind {f g : α → Except ε β} (h : Alike P Q x y)
    (hf : ∀ a, P a → Alike R Q (f a) (g a)) : Alike R Q (x >>= f) (y >>= g) := by
  obtain ⟨rfl, hends⟩ := h
  refine ⟨?_, hends.bind fun a ha => (hf a ha).2⟩
  cases x with
  | ok a => exact (hf a hends).1
  | error e => rfl

theorem Alike.imp (h : Alike P Q x y) (hP : ∀ a, P a → P' a) : Alike P' Q x y :=
  ⟨h.1, h.2.imp hP fun _ he => he⟩

end

/-! ### The recursion -/

section
variable {ε : Type u} {α : Type v} {X : Type w}

/-- The arguments are `Good`; what is returned for `x` satisfies `P x`.  Two functions that
    agree below `x` are the same for the body at `x`.  The errors are any that contain those
    the body makes itself; running out of fuel is not one of these. -/
def Descends (body : (X → Except ε α) → X → Except ε α) (stuck : ε) (below : X → X → Prop)
    (Good : X → Prop) (P : X → α → Prop) : Prop :=
  ∀ Q : ε → Prop, (∀ e, e ≠ stuck → Q e) → ∀ F G : X → Except ε α, ∀ x, Good x →
    (∀ y, Good y → below y x → Alike (P y) Q (F y) (G y)) → Alike (P x) Q (body F x) (body G x)

variable {body : (X → Except ε α) → X → Except ε α} {stuck : ε} {below : X → X → Prop}
  {Good : X → Prop} {P : X → α → Prop} {run : Nat → X → Except ε α}
  (hd : Descends body stuck below Good P) (hzero : ∀ x, run 0 x = .error stuck)
  (hsucc : ∀ n x, run (n + 1) x = body (run n) x)
include hd hzero hsucc

/-- Whatever the fuel is, what is returned satisfies `P`. -/
theorem Descends.keeps (n : Nat) {x : X} (hx : Good x) : Ends (P x) (fun _ => True) (run n x) := by
  induction n generalizing x with
  | zero =>
    rw [hzero]
    trivial
  | succ n ih =>
    rw [hsucc]
    exact (hd _ (fun _ _ => trivial) _ _ x hx fun y hy _ => .same (ih hy)).2

/-- The calls that do not descend can be replaced by anything. -/
theorem Descends.determined (n : Nat) {x : X} (hx : Good x) {G : X → Except ε α}
    (hG : ∀ y, Good y → below y x → G y = run n y) : run (n + 1) x = body G x := by
  rw [hsucc]
  refine (hd _ (fun _ _ => trivial) _ _ x hx fun y hy hyx => ?_).1
  rw [hG y hy hyx]
  exact .same (hd.keeps hzero hsucc n hy)

variable {weight : X → Nat} (hweight : ∀ x y, below y x → weight y < weight x)
include hweight

omit hzero in
/-- With more fuel than the weight the recursion does not get stuck. -/
theorem Descends.returns {n : Nat} {x : X} (hx : Good x) (hn : weight x < n) :
    Ends (P x) (· ≠ stuck) (run n x) := by
  induction n generalizing x with
  | zero => exact absurd hn (Nat.not_lt_zero _)
  | succ n ih =>
    rw [hsucc]
    refine (hd _ (fun _ he => he) _ _ x hx fun y hy hyx => .same (ih hy ?_)).2
    exact Nat.lt_of_lt_of_le (hweight x y hyx) (Nat.le_of_lt_succ hn)

omit hzero in
/-- More fuel changes nothing. -/
theorem Descends.stable {n m : Nat} {x : X} (hx : Good x) (hn : weight x < n) (hm : weight x < m) :
    run n x = run m x := by
  induction n generalizing m x with
  | zero => exact absurd hn (Nat.not_lt_zero _)
  | succ n ih =>
    cases m with
    | zero => exact absurd hm (Nat.not_lt_zero _)
    | succ m =>
      rw [hsucc, hsucc]
      refine (hd _ (fun _ he => he) _ _ x hx fun y hy hyx => ?_).1
      have hyn : weight y < n := Nat.lt_of_lt_of_le (hweight x y hyx) (Nat.le_of_lt_succ hn)
      have hym : weight y < m := Nat.lt_of_lt_of_le (hweight x y hyx) (Nat.le_of_lt_succ hm)
      exact ⟨ih hy hyn hym, hd.returns hsucc hweight hy hyn⟩

end

end Libsd.Descent

/-
  Libsd/Lib/Follows.lean
  ======================
  **A computation that goes along with another one.**

  With `Follows exact E R x y`, what `x` ends in is related to something that `y` could end
  in, and if `exact` holds, to what `y` does end in.  So one proof says what `x` keeps in any
  case and that it agrees with `y` when nothing interferes.
-/
import Libsd.Lib.Outcome

namespace Libsd.Outcome

universe u v

variable {ε ε' : Type u} {α β α' β' : Type v}

def Follows (exact : Prop) (E : ε → ε' → Prop) (R : α → β → Prop) (x : Except ε α)
    (y : Except ε' β) : Prop :=
  Ends (fun a => ∃ b, R a b ∧ (exact → y = .ok b))
    (fun e => ∃ e', E e e' ∧ (exact → y = .error e')) x

variable {exact : Prop} {E : ε → ε' → Prop} {R R' : α → β → Prop} {S : α' → β' → Prop}
  {x : Except ε α} {y y' : Except ε' β}

theorem Follows.ok {a : α} {b : β} (h : R a b) : Follows exact E R (.ok a) (.ok b) :=
  ⟨b, h, fun _ => rfl⟩

theorem Follows.error {e : ε} {e' : ε'} (h : E e e') :
    Follows exact E R (.error e : Except ε α) (.error e' : Except ε' β) :=
  ⟨e', h, fun _ => rfl⟩

theorem Follows.bind {f : α → Except ε α'} {g : β → Except ε' β'} (h : Follows exact E R x y)
    (hf : ∀ a b, R a b → Follows exact E S (f a) (g b)) :
    Follows exact E S (x >>= f) (y >>= g) := by
  cases x with
  | ok a =>
    obtain ⟨b, hab, hy⟩ := h
    refine (hf a b hab).imp (fun a' ⟨b', hab', hg⟩ => ⟨b', hab', fun he => ?_⟩)
      fun e ⟨e', hee', hg⟩ => ⟨e', hee', fun he => ?_⟩
    · rw [hy he]
      exact hg he
    · rw [hy he]
      exact hg he
  | error e =>
    obtain ⟨e', hee', hy⟩ := h
    refine ⟨e', hee', fun he => ?_⟩
    rw [hy he]
    rfl

theorem Follows.imp (h : Follows exact E R x y) (hR : ∀ a b, R a b → R' a b) :
    Follows exact E R' x y :=
  Ends.imp h (fun _ ⟨b, hab, hy⟩ => ⟨b, hR _ b hab, hy⟩) fun _ he => he

/-- What is followed matters in the exact case only. -/
theorem Follows.congr (h : Follows exact E R x y) (hy : exact → y' = y) :
    Follows exact E R x y' :=
  Ends.imp h (fun _ ⟨b, hab, h⟩ => ⟨b, hab, fun he => (hy he).trans (h he)⟩)
    fun _ ⟨e', hee', h⟩ => ⟨e', hee', fun he => (hy he).trans (h he)⟩

end Libsd.Outcome

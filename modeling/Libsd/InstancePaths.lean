/-
  Libsd/InstancePaths.lean
  ========================
  **Paths in an instance tree.**

  `Below c p` says that `p` leads into the module at `c`.  The child `i` of the
  module at `m` is at `m ++ [i]` (`avarAt_child`).
-/
import Libsd.Instance

namespace Libsd

/-- The path `p` is strictly below `c`. -/
def Below (c p : Path) : Prop := ∃ i rest, p = c ++ i :: rest

theorem below_child (m : Path) (i : Nat) : Below m (m ++ [i]) := ⟨i, [], rfl⟩

theorem Below.trans {a b c : Path} (h : Below a b) (h' : Below b c) : Below a c := by
  obtain ⟨i, rest, rfl⟩ := h
  obtain ⟨j, rest', rfl⟩ := h'
  exact ⟨i, rest ++ j :: rest', by simp⟩

theorem Below.ne {c p : Path} (h : Below c p) : p ≠ c := by
  obtain ⟨i, rest, rfl⟩ := h
  simp

theorem Below.not_above {c p : Path} (h : Below c p) : ¬ p <+: c := by
  obtain ⟨i, rest, rfl⟩ := h
  rintro ⟨ext, he⟩
  simpa using congrArg List.length he

/-- A path inside a module is the module's or below it. -/
theorem prefix_iff_below {c p : Path} : c <+: p ↔ p = c ∨ Below c p := by
  constructor
  · rintro ⟨ext, rfl⟩
    cases ext with
    | nil => exact .inl (List.append_nil c)
    | cons i rest => exact .inr ⟨i, rest, rfl⟩
  · rintro (rfl | ⟨i, rest, rfl⟩)
    · exact List.prefix_rfl
    · exact List.prefix_append _ _

theorem Below.of_above {a b c : Path} (h : Below a b) (h' : b <+: c) : Below a c := by
  rcases prefix_iff_below.mp h' with rfl | h'
  · exact h
  · exact h.trans h'

theorem Below.above {c p : Path} (h : Below c p) : c <+: p := prefix_iff_below.mpr (.inr h)

theorem child_inj {m : Path} {i j : Nat} (h : m ++ [i] = m ++ [j]) : i = j := by
  simpa using h

/-- Siblings have nothing below both. -/
theorem not_prefix_sibling {m : Path} {i j : Nat} (h : i ≠ j) : ¬ m ++ [i] <+: m ++ [j] := by
  rintro ⟨ext, he⟩
  rw [List.append_assoc, List.append_cancel_left_eq] at he
  simp only [List.singleton_append, List.cons.injEq] at he
  exact h he.1

/-- Nothing is inside two children of a module. -/
theorem not_prefix_both {m p : Path} {i j : Nat} (h : i ≠ j) (hi : m ++ [i] <+: p)
    (hj : m ++ [j] <+: p) : False := by
  obtain ⟨ext, rfl⟩ := hi
  obtain ⟨ext', he⟩ := hj
  rw [List.append_assoc, List.append_assoc, List.append_cancel_left_eq] at he
  simp only [List.singleton_append, List.cons.injEq] at he
  exact h he.1.symm

theorem avarAt_cons (avars : List AVar) (i : Nat) (path : Path) :
    avarAt avars (i :: path) =
      if path.isEmpty then avars[i]? else avars[i]?.bind fun av => avarAt av.avars path := by
  rw [avarAt]
  cases avars[i]? with
  | none => simp
  | some av => rfl

theorem avarsAt_cons (root : List AVar) (i : Nat) (m : Path) :
    avarsAt root (i :: m) = match root[i]? with
      | some av => avarsAt av.avars m
      | none => [] := by
  rw [avarsAt, if_neg (by simp), avarAt_cons]
  cases hi : root[i]? with
  | none => simp
  | some av => cases m <;> simp [avarsAt]

theorem avarAt_child (root : List AVar) (m : Path) (i : Nat) :
    avarAt root (m ++ [i]) = (avarsAt root m)[i]? := by
  induction m generalizing root with
  | nil => simp [avarAt_cons, avarsAt]
  | cons k m ih =>
    rw [List.cons_append, avarAt_cons, if_neg (by simp), avarsAt_cons]
    cases root[k]? with
    | none => simp
    | some av => exact ih av.avars

theorem avarsAt_child {root : List AVar} {m : Path} {i : Nat} {av : AVar}
    (h : (avarsAt root m)[i]? = some av) : avarsAt root (m ++ [i]) = av.avars := by
  rw [avarsAt, if_neg (by simp), avarAt_child, h]

theorem avarAt_append_avarsAt {root : List AVar} {m rel : Path} (h : rel ≠ []) :
    avarAt root (m ++ rel) = avarAt (avarsAt root m) rel := by
  induction m generalizing root with
  | nil => simp [avarsAt]
  | cons k m ih =>
    rw [List.cons_append, avarAt_cons, if_neg (by simp [h]), avarsAt_cons]
    cases root[k]? with
    | none =>
      cases rel with
      | nil => exact absurd rfl h
      | cons i rest => simp [avarAt]
    | some av => exact ih

/-- Below an `AVar`, the search goes on among its children. -/
theorem avarAt_append_cons {root : List AVar} {p : Path} {av : AVar} (h : avarAt root p = some av)
    (i : Nat) (rest : Path) : avarAt root (p ++ i :: rest) = avarAt av.avars (i :: rest) := by
  have hp : p.isEmpty = false := by
    cases p with
    | nil => simp [avarAt] at h
    | cons => rfl
  rw [avarAt_append_avarsAt (by simp), avarsAt, hp, if_neg Bool.false_ne_true, h]

/-- There is nothing below a path that leads nowhere. -/
theorem avarAt_of_prefix_none {root : List AVar} {p q : Path} (h : avarAt root p = none)
    (hp : p ≠ []) (hpq : p <+: q) : avarAt root q = none := by
  rcases prefix_iff_below.mp hpq with rfl | ⟨i, rest, rfl⟩
  · exact h
  · have hne : p.isEmpty = false := by simpa using hp
    rw [avarAt_append_avarsAt (by simp), avarsAt, hne, if_neg Bool.false_ne_true, h]
    simp [avarAt]

/-- Only modules have something below them. -/
theorem isModule_of_below {root : List AVar} {x p : Path} {av pv : AVar}
    (hx : avarAt root x = some av) (hp : avarAt root p = some pv) (h : Below x p) :
    av.isModule = true := by
  obtain ⟨k, rest, rfl⟩ := h
  rw [avarAt_append_cons hx] at hp
  cases av with
  | var v n => simp [AVar.avars, avarAt] at hp
  | module v avars => rfl

end Libsd

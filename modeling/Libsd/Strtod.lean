/-
  Libsd/Strtod.lean
  =================
  **Decimal numbers have what the loader needs of `strtod`.**
-/
import Libsd.Compile

namespace Libsd

/-! ### Decimal numbers -/

theorem dropWhile_comma {p : UInt8 → Bool} (hp : p COMMA = false) (s t : CStr) :
    (s ++ COMMA :: t).dropWhile p = s.dropWhile p ++ COMMA :: t := by
  induction s with
  | nil => simp [hp]
  | cons c s ih =>
    rw [List.cons_append, List.dropWhile_cons, List.dropWhile_cons, ih]
    split
    · rfl
    · rfl

theorem takeWhile_comma {p : UInt8 → Bool} (hp : p COMMA = false) (s t : CStr) :
    (s ++ COMMA :: t).takeWhile p = s.takeWhile p := by
  induction s with
  | nil => simp [hp]
  | cons c s ih => rw [List.cons_append, List.takeWhile_cons, List.takeWhile_cons, ih]

theorem signOf_comma (s t : CStr) :
    signOf (s ++ COMMA :: t) = ((signOf s).1, (signOf s).2 ++ COMMA :: t) := by
  fun_cases signOf s with
  | case1 s => rfl
  | case2 s => rfl
  | case3 s hminus hplus =>
    cases s with
    | nil => rfl
    | cons c s =>
      rw [List.cons_append, signOf]
      · intro u hu
        cases hu
        exact hminus s rfl
      · intro u hu
        cases hu
        exact hplus s rfl

theorem signOf_suffix (s : CStr) : (signOf s).2 <:+ s := by
  fun_cases signOf s with
  | case1 s | case2 s => exact List.suffix_cons _ _
  | case3 s => exact List.suffix_refl s

theorem exponentOf_comma (s t : CStr) :
    exponentOf (s ++ COMMA :: t) = (exponentOf s).map fun r =>
      (r.1, r.2.1, r.2.2 ++ COMMA :: t) := by
  have hcomma : isDigitByte COMMA = false := rfl
  cases s with
  | nil => rfl
  | cons c s =>
    simp only [List.cons_append, exponentOf, signOf_comma, takeWhile_comma hcomma,
      dropWhile_comma hcomma]
    split
    · rfl
    · rfl

theorem exponentOf_suffix {s u : CStr} {neg : Bool} {e : Nat}
    (h : exponentOf s = some (neg, e, u)) :
    u <:+ s := by
  cases s with
  | nil => cases h
  | cons c s =>
    simp only [exponentOf] at h
    split at h
    · cases h
      exact (List.dropWhile_suffix _).trans ((signOf_suffix s).trans (List.suffix_cons c s))
    · cases h

/-- The digits behind a point, and what follows them. -/
def fractionOf (t : CStr) : CStr × CStr :=
  match t with
  | 0x2E :: u => (u.takeWhile isDigitByte, u.dropWhile isDigitByte)
  | u => ([], u)

theorem fractionOf_comma (s t : CStr) :
    fractionOf (s ++ COMMA :: t) = ((fractionOf s).1, (fractionOf s).2 ++ COMMA :: t) := by
  have hcomma : isDigitByte COMMA = false := rfl
  fun_cases fractionOf s with
  | case1 s =>
    simp only [List.cons_append, fractionOf, takeWhile_comma hcomma, dropWhile_comma hcomma]
  | case2 s hpoint =>
    cases s with
    | nil => rfl
    | cons c s =>
      rw [List.cons_append, fractionOf]
      intro u hu
      cases hu
      exact hpoint s rfl

theorem fractionOf_suffix (s : CStr) : (fractionOf s).2 <:+ s := by
  fun_cases fractionOf s with
  | case1 s => exact (List.dropWhile_suffix _).trans (List.suffix_cons _ _)
  | case2 s => exact List.suffix_refl s

/-- `strtod` with its steps by name. -/
theorem strtod_eq (s : CStr) :
    strtod s =
      let sign := signOf (s.dropWhile isWhite)
      let whole := sign.2.takeWhile isDigitByte
      let frac := fractionOf (sign.2.dropWhile isDigitByte)
      if whole = [] ∧ frac.1 = [] then (0, s)
      else
        let m : ℚ := digitsValue (whole ++ frac.1) / (10 ^ frac.1.length : Nat)
        let m := if sign.1 then -m else m
        match exponentOf frac.2 with
        | none => (m, frac.2)
        | some (neg, e, t) => (if neg then m / (10 ^ e : Nat) else m * (10 ^ e : Nat), t) :=
  rfl

theorem strtod_comma (s t : CStr) :
    strtod (s ++ COMMA :: t) = ((strtod s).1, (strtod s).2 ++ COMMA :: t) := by
  have hspace : isWhite COMMA = false := rfl
  have hdigit : isDigitByte COMMA = false := rfl
  rw [strtod_eq, strtod_eq]
  simp only [dropWhile_comma hspace, signOf_comma, takeWhile_comma hdigit, dropWhile_comma hdigit,
    fractionOf_comma, exponentOf_comma]
  generalize signOf (s.dropWhile isWhite) = sign
  generalize fractionOf (sign.2.dropWhile isDigitByte) = frac
  by_cases hnone : sign.2.takeWhile isDigitByte = [] ∧ frac.1 = []
  · rw [if_pos hnone, if_pos hnone]
  · rw [if_neg hnone, if_neg hnone]
    cases exponentOf frac.2 with
    | none => rfl
    | some r => rfl

theorem strtod_suffix (s : CStr) : (strtod s).2 <:+ s := by
  rw [strtod_eq]
  have hfrac := (fractionOf_suffix _).trans ((List.dropWhile_suffix isDigitByte).trans
    ((signOf_suffix _).trans (List.dropWhile_suffix (l := s) isWhite)))
  dsimp only
  split
  · exact List.suffix_refl s
  · split
    · exact hfrac
    · next h => exact (exponentOf_suffix h).trans hfrac

/-- A library for texts whose numbers are decimal and no larger than a double can be, and
    whose white space is that of bytes. -/
def plainLibc : Libc where
  arith := .exact
  isspace r := decide (r < 0x100) && isWhite (UInt8.ofNat r)
  strtod s := (.num (strtod s).1, (strtod s).2)
  erange _ := false
  isspace_byte c := by
    rw [decide_eq_true c.toNat_lt, Bool.true_and, UInt8.ofNat_toNat]
  value _ := trivial
  suffix := strtod_suffix
  behind s t _ := by rw [strtod_comma]
  erange_behind _ _ _ := rfl

end Libsd

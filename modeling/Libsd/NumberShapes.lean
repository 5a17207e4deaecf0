/-
  Libsd/NumberShapes.lean
  =======================
  **The texts of numbers, and what `strtod` reads of them.**

  A `Literal` is a decimal number as it is written: `strtod` reads it whole
  (`Literal.read`).  A `NumberShape` is what `lex_number` may take for one; `strtod` leaves
  nothing of it just when it is the text of a literal (`NumberShape.read_iff`).
-/
import Libsd.Strtod

namespace Libsd

def POINT : UInt8 := 0x2E

def Digits (s : CStr) : Prop := ∀ c ∈ s, isDigitByte c = true

instance (s : CStr) : Decidable (Digits s) :=
  inferInstanceAs (Decidable (∀ c ∈ s, isDigitByte c = true))

/-! ### Literals -/

/-- An exponent: `e` or `E`, a sign if there is one (`true` is minus), and digits. -/
structure Exponent where
  upper : Bool
  sign : Option Bool
  digits : CStr
  allDigits : Digits digits
  nonempty : digits ≠ []

/-- A decimal literal: digits with a fraction, if there is one, and an exponent, if there is
    one; it has a digit in front of the exponent. -/
structure Literal where
  whole : CStr
  frac : Option CStr
  exp : Option Exponent
  wholeDigits : Digits whole
  fracDigits : ∀ f ∈ frac, Digits f
  mantissa : whole ≠ [] ∨ ∃ f ∈ frac, f ≠ []

def fracText : Option CStr → CStr
  | none => []
  | some f => POINT :: f

def signText : Option Bool → CStr
  | none => []
  | some true => [0x2D]
  | some false => [0x2B]

def Exponent.text (e : Exponent) : CStr :=
  (if e.upper then 0x45 else 0x65) :: (signText e.sign ++ e.digits)

def expText : Option Exponent → CStr
  | none => []
  | some e => e.text

def Literal.text (n : Literal) : CStr := n.whole ++ (fracText n.frac ++ expText n.exp)

/-- The literal with `e` for `E`. -/
def Literal.lower (n : Literal) : Literal :=
  { n with exp := n.exp.map fun e => { e with upper := false } }

def Literal.Unsigned (n : Literal) : Prop := ∀ e ∈ n.exp, e.sign = none

/-! ### What a number token looks like -/

/-- A point or a digit first, then digits, a point at most, and digits; and an `e` at most,
    with digits, a point at most, and digits behind it.  A point in the first place does not
    count. -/
structure NumberShape where
  lead : Bool
  whole : CStr
  frac : Option CStr
  exp : Option (CStr × Option CStr)
  wholeDigits : Digits whole
  fracDigits : ∀ f ∈ frac, Digits f
  expDigits : ∀ e ∈ exp, Digits e.1 ∧ ∀ f ∈ e.2, Digits f
  start : lead = true ∨ whole ≠ []

def shapeExpText : Option (CStr × Option CStr) → CStr
  | none => []
  | some (w, f) => 0x65 :: (w ++ fracText f)

def NumberShape.text (n : NumberShape) : CStr :=
  (if n.lead then [POINT] else []) ++ (n.whole ++ (fracText n.frac ++ shapeExpText n.exp))

/-- What is left of the exponent: all of it if it has no digits, or else its fraction. -/
def shapeExpLeft : Option (CStr × Option CStr) → CStr
  | none => []
  | some (w, f) => if w = [] then 0x65 :: (w ++ fracText f) else fracText f

/-- What `strtod` leaves of a number token. -/
def NumberShape.left (n : NumberShape) : CStr :=
  if n.lead then
    if n.whole = [] then n.text
    else
      match n.frac with
      | none => shapeExpLeft n.exp
      | some f => POINT :: (f ++ shapeExpText n.exp)
  else shapeExpLeft n.exp

/-! ### Runs of digits -/

/-- No digit comes first. -/
def NoDigit (s : CStr) : Prop := ∀ c ∈ s.head?, isDigitByte c = false

theorem takeWhile_digits {s t : CStr} (hs : Digits s) (ht : NoDigit t) :
    (s ++ t).takeWhile isDigitByte = s := by
  rw [List.takeWhile_append_of_pos hs]
  cases t with
  | nil => rw [List.takeWhile_nil, List.append_nil]
  | cons c t =>
    have hc : isDigitByte c = false := ht c rfl
    rw [List.takeWhile_cons_of_neg (by rw [hc]; exact Bool.false_ne_true), List.append_nil]

theorem dropWhile_digits {s t : CStr} (hs : Digits s) (ht : NoDigit t) :
    (s ++ t).dropWhile isDigitByte = t := by
  rw [List.dropWhile_append_of_pos hs]
  cases t with
  | nil => rfl
  | cons c t =>
    have hc : isDigitByte c = false := ht c rfl
    exact List.dropWhile_cons_of_neg (by rw [hc]; exact Bool.false_ne_true)

theorem noDigit_fracText {f : Option CStr} {t : CStr} (ht : NoDigit t) :
    NoDigit (fracText f ++ t) := by
  cases f with
  | none => exact ht
  | some f =>
    intro c hc
    obtain rfl : POINT = c := Option.some.inj hc
    rfl

/-- The text is no fraction, and starts with no digit. -/
def NoFraction (s : CStr) : Prop := NoDigit s ∧ ∀ c ∈ s.head?, c ≠ POINT

theorem fractionOf_of_noFraction {s : CStr} (h : NoFraction s) : fractionOf s = ([], s) := by
  fun_cases fractionOf s with
  | case1 s => exact absurd rfl (h.2 POINT rfl)
  | case2 => rfl

theorem fractionOf_fracText {f : Option CStr} {t : CStr} (hf : ∀ g ∈ f, Digits g)
    (ht : NoFraction t) : fractionOf (fracText f ++ t) = (f.getD [], t) := by
  cases f with
  | none => exact fractionOf_of_noFraction ht
  | some g =>
    have hg := hf g rfl
    have heq : fractionOf (POINT :: (g ++ t)) =
        ((g ++ t).takeWhile isDigitByte, (g ++ t).dropWhile isDigitByte) := rfl
    rw [takeWhile_digits hg ht.1, dropWhile_digits hg ht.1] at heq
    exact heq

/-! ### `strtod` -/

theorem isWhite_of_digit {c : UInt8} (h : isDigitByte c = true) : isWhite c = false := by
  have hlo : (0x30 : UInt8) ≤ c := (of_decide_eq_true h).1
  have hlo : 0x30 ≤ c.toNat := UInt8.le_iff_toNat_le.mp hlo
  have hblank : c ≠ 0x20 := by
    rintro rfl
    exact absurd hlo (by decide)
  have hcontrol : ¬ (0x09 ≤ c ∧ c ≤ 0x0D) := by
    rintro ⟨-, hhi⟩
    have hhi : c.toNat ≤ 0x0D := UInt8.le_iff_toNat_le.mp hhi
    exact absurd (hlo.trans hhi) (by decide)
  rw [isWhite, decide_eq_false hblank, decide_eq_false hcontrol]
  rfl

/-- What is left behind the mantissa. -/
def expRest (s : CStr) : CStr :=
  match exponentOf s with
  | none => s
  | some r => r.2.2

/-- A number without a sign: its mantissa is what its first byte starts. -/
theorem strtod_left {c : UInt8} {s : CStr} (hc : isDigitByte c = true ∨ c = POINT) :
    (strtod (c :: s)).2 =
      if (c :: s).takeWhile isDigitByte = [] ∧
          (fractionOf ((c :: s).dropWhile isDigitByte)).1 = [] then c :: s
      else expRest (fractionOf ((c :: s).dropWhile isDigitByte)).2 := by
  have hne : c ≠ 0x2D ∧ c ≠ 0x2B ∧ isWhite c = false := by
    rcases hc with hc | rfl
    · refine ⟨?_, ?_, ?_⟩
      · rintro rfl
        cases hc
      · rintro rfl
        cases hc
      · exact isWhite_of_digit hc
    · decide
  rcases hne with ⟨hminus, hplus, hspace⟩
  have hdrop : (c :: s).dropWhile isWhite = c :: s :=
    List.dropWhile_cons_of_neg (by rw [hspace]; exact Bool.false_ne_true)
  have hsign : signOf (c :: s) = (false, c :: s) := by
    rw [signOf]
    · intro t ht
      exact hminus (List.cons.inj ht).1
    · intro t ht
      exact hplus (List.cons.inj ht).1
  rw [strtod_eq, hdrop, hsign]
  dsimp only
  split
  · rfl
  · rw [expRest]
    cases exponentOf (fractionOf ((c :: s).dropWhile isDigitByte)).2 <;> rfl

/-- The first byte of a text that starts with a digit, if it is not empty. -/
theorem exists_cons_of_digits {s t : CStr} (hs : Digits s) (hne : s ≠ []) :
    ∃ c u, s ++ t = c :: u ∧ isDigitByte c = true := by
  obtain ⟨c, u, rfl⟩ := List.exists_cons_of_ne_nil hne
  exact ⟨c, u ++ t, rfl, hs c List.mem_cons_self⟩

/-- Digits, and a fraction if there is one. -/
theorem strtod_whole {whole t : CStr} {f : Option CStr} (hw : Digits whole) (hne : whole ≠ [])
    (hf : ∀ g ∈ f, Digits g) (ht : NoFraction t) :
    (strtod (whole ++ (fracText f ++ t))).2 = expRest t := by
  obtain ⟨c, u, hcons, hc⟩ := exists_cons_of_digits (t := fracText f ++ t) hw hne
  have hrest : NoDigit (fracText f ++ t) := noDigit_fracText ht.1
  rw [hcons, strtod_left (.inl hc), ← hcons, takeWhile_digits hw hrest, dropWhile_digits hw hrest,
    fractionOf_fracText hf ht, if_neg fun h => hne h.1]

/-- A point, and digits behind it. -/
theorem strtod_point {f t : CStr} (hf : Digits f) (hne : f ≠ []) (ht : NoDigit t) :
    (strtod (POINT :: (f ++ t))).2 = expRest t := by
  have hnone : (POINT :: (f ++ t)).takeWhile isDigitByte = [] := rfl
  have hdrop : (POINT :: (f ++ t)).dropWhile isDigitByte = POINT :: (f ++ t) := rfl
  have hfrac : fractionOf (POINT :: (f ++ t)) =
      ((f ++ t).takeWhile isDigitByte, (f ++ t).dropWhile isDigitByte) := rfl
  rw [takeWhile_digits hf ht, dropWhile_digits hf ht] at hfrac
  rw [strtod_left (.inr rfl), hnone, hdrop, hfrac, if_neg fun h => hne h.2]

/-- A point without digits is no number. -/
theorem strtod_bare {t : CStr} (ht : NoDigit t) : (strtod (POINT :: t)).2 = POINT :: t := by
  have hnone : (POINT :: t).takeWhile isDigitByte = [] := rfl
  have hdrop : (POINT :: t).dropWhile isDigitByte = POINT :: t := rfl
  have hfrac : fractionOf (POINT :: t) = (t.takeWhile isDigitByte, t.dropWhile isDigitByte) := rfl
  have htake : t.takeWhile isDigitByte = [] := takeWhile_digits (s := []) (fun _ h => by cases h) ht
  rw [htake] at hfrac
  rw [strtod_left (.inr rfl), hnone, hdrop, hfrac, if_pos ⟨rfl, rfl⟩]

/-! ### Exponents -/

theorem noFraction_nil : NoFraction [] := by
  refine ⟨fun c hc => ?_, fun c hc => ?_⟩
  · cases hc
  · cases hc

theorem noFraction_expText (e : Option Exponent) : NoFraction (expText e) := by
  cases e with
  | none => exact noFraction_nil
  | some e =>
    have hhead : ∀ c ∈ (expText (some e)).head?, c = 0x45 ∨ c = 0x65 := by
      intro c hc
      obtain rfl := Option.some.inj hc
      split
      · exact .inl rfl
      · exact .inr rfl
    refine ⟨fun c hc => ?_, fun c hc => ?_⟩
    · rcases hhead c hc with rfl | rfl <;> rfl
    · rcases hhead c hc with rfl | rfl <;> decide

theorem noFraction_shapeExpText (e : Option (CStr × Option CStr)) :
    NoFraction (shapeExpText e) := by
  cases e with
  | none => exact noFraction_nil
  | some e =>
    refine ⟨fun c hc => ?_, fun c hc => ?_⟩
    · obtain rfl : 0x65 = c := Option.some.inj hc
      rfl
    · obtain rfl : 0x65 = c := Option.some.inj hc
      decide

theorem noDigit_frac (f : Option CStr) : NoDigit (fracText f) := by
  have h := noDigit_fracText (f := f) noFraction_nil.1
  rwa [List.append_nil] at h

/-- Neither a digit nor a point is a sign. -/
theorem signOf_plain {s : CStr} (h : ∀ c ∈ s.head?, isDigitByte c = true ∨ c = POINT) :
    signOf s = (false, s) := by
  fun_cases signOf s with
  | case1 s =>
    rcases h 0x2D rfl with hc | hc
    · cases hc
    · exact absurd hc (by decide)
  | case2 s =>
    rcases h 0x2B rfl with hc | hc
    · cases hc
    · exact absurd hc (by decide)
  | case3 => rfl

theorem head_digits {s t : CStr} (hs : Digits s)
    (ht : ∀ c ∈ t.head?, isDigitByte c = true ∨ c = POINT) :
    ∀ c ∈ (s ++ t).head?, isDigitByte c = true ∨ c = POINT := by
  cases s with
  | nil => exact ht
  | cons d s =>
    intro c hc
    obtain rfl : d = c := Option.some.inj hc
    exact .inl (hs d List.mem_cons_self)

theorem exponentOf_eq (c : UInt8) {s digits : CStr} {neg : Bool} {rest : CStr}
    (hc : c = 0x65 ∨ c = 0x45) (hsign : signOf s = (neg, digits ++ rest)) (hd : Digits digits)
    (hrest : NoDigit rest) : exponentOf (c :: s) =
      if digits = [] then none else some (neg, digitsValue digits, rest) := by
  rw [exponentOf, hsign]
  simp only [takeWhile_digits hd hrest, dropWhile_digits hd hrest]
  by_cases hnil : digits = []
  · rw [if_neg fun h => h.2 hnil, if_pos hnil]
  · rw [if_pos ⟨hc, hnil⟩, if_neg hnil]

/-- The exponent of a literal is read. -/
theorem expRest_expText (e : Option Exponent) : expRest (expText e) = [] := by
  cases e with
  | none => rfl
  | some e =>
    have hsign : ∃ neg, signOf (signText e.sign ++ e.digits) = (neg, e.digits ++ []) := by
      rw [List.append_nil]
      cases e.sign with
      | none =>
        have hhead := head_digits (t := []) e.allDigits fun _ h => by cases h
        rw [List.append_nil] at hhead
        exact ⟨false, signOf_plain hhead⟩
      | some neg => cases neg <;> exact ⟨_, rfl⟩
    obtain ⟨neg, hsign⟩ := hsign
    have hmark : (if e.upper then 0x45 else 0x65 : UInt8) = 0x65 ∨
        (if e.upper then 0x45 else 0x65 : UInt8) = 0x45 := by
      split
      · exact .inr rfl
      · exact .inl rfl
    have hexp := exponentOf_eq _ hmark hsign e.allDigits noFraction_nil.1
    rw [if_neg e.nonempty] at hexp
    rw [expText, Exponent.text, expRest, hexp]

theorem expRest_shapeExpText {e : Option (CStr × Option CStr)} (he : ∀ d ∈ e, Digits d.1) :
    expRest (shapeExpText e) = shapeExpLeft e := by
  cases e with
  | none => rfl
  | some d =>
    obtain ⟨w, f⟩ := d
    have hw : Digits w := he (w, f) rfl
    have hsign : signOf (w ++ fracText f) = (false, w ++ fracText f) := by
      refine signOf_plain (head_digits hw fun c hc => ?_)
      cases f with
      | none => cases hc
      | some f => exact .inr (Option.some.inj hc).symm
    have hexp := exponentOf_eq 0x65 (.inl rfl) hsign hw (noDigit_frac f)
    rw [shapeExpText, expRest, hexp, shapeExpLeft]
    by_cases hnil : w = []
    · rw [if_pos hnil, if_pos hnil]
    · rw [if_neg hnil, if_neg hnil]

/-! ### What is read of a number -/

/-- A literal is read to its last character. -/
theorem Literal.read (n : Literal) : (strtod n.text).2 = [] := by
  rw [Literal.text]
  by_cases hw : n.whole = []
  · obtain ⟨f, hf, hne⟩ := n.mantissa.resolve_left fun h => h hw
    have hfrac : n.frac = some f := hf
    rw [hw, hfrac]
    have hread := strtod_point (n.fracDigits f hf) hne (noFraction_expText n.exp).1
    exact hread.trans (expRest_expText n.exp)
  · rw [strtod_whole n.wholeDigits hw n.fracDigits (noFraction_expText n.exp)]
    exact expRest_expText n.exp

theorem NumberShape.read (n : NumberShape) : (strtod n.text).2 = n.left := by
  have hexp := expRest_shapeExpText fun d hd => (n.expDigits d hd).1
  have hstop := noFraction_shapeExpText n.exp
  rw [NumberShape.text, NumberShape.left]
  by_cases hlead : n.lead = true
  · rw [if_pos hlead, if_pos hlead]
    by_cases hw : n.whole = []
    · rw [if_pos hw, NumberShape.text, if_pos hlead, hw]
      exact strtod_bare (noDigit_fracText hstop.1)
    · rw [if_neg hw]
      have hread := strtod_point n.wholeDigits hw (noDigit_fracText (f := n.frac) hstop.1)
      refine hread.trans ?_
      cases n.frac with
      | none => exact hexp
      | some f => rfl
  · have hw := n.start.resolve_left hlead
    rw [if_neg hlead, if_neg hlead, List.nil_append,
      strtod_whole n.wholeDigits hw n.fracDigits hstop, hexp]

theorem shapeExpLeft_eq_nil {e : Option (CStr × Option CStr)} (h : shapeExpLeft e = []) :
    e = none ∨ ∃ w, w ≠ [] ∧ e = some (w, none) := by
  cases e with
  | none => exact .inl rfl
  | some d =>
    obtain ⟨w, f⟩ := d
    rw [shapeExpLeft] at h
    by_cases hw : w = []
    · rw [if_pos hw] at h
      cases h
    · rw [if_neg hw] at h
      cases f with
      | none => exact .inr ⟨w, hw, rfl⟩
      | some f => cases h

/-- The exponent, if it leaves nothing, is that of a literal. -/
theorem exists_expText {e : Option (CStr × Option CStr)} (he : ∀ d ∈ e, Digits d.1)
    (h : shapeExpLeft e = []) : ∃ x : Option Exponent, shapeExpText e = expText x := by
  rcases shapeExpLeft_eq_nil h with rfl | ⟨w, hw, rfl⟩
  · exact ⟨none, rfl⟩
  · refine ⟨some ⟨false, none, w, he (w, none) rfl, hw⟩, ?_⟩
    rw [shapeExpText, expText, Exponent.text, fracText, signText, List.append_nil]
    rfl

/-- Nothing is left of a number token just when it is the text of a literal. -/
theorem NumberShape.read_iff (n : NumberShape) :
    (strtod n.text).2 = [] ↔ ∃ lit : Literal, n.text = lit.text := by
  refine ⟨fun hread => ?_, fun ⟨lit, htext⟩ => by rw [htext, lit.read]⟩
  have hleft : n.left = [] := n.read.symm.trans hread
  have hdigits : ∀ d ∈ n.exp, Digits d.1 := fun d hd => (n.expDigits d hd).1
  rw [NumberShape.left] at hleft
  by_cases hlead : n.lead = true
  · rw [if_pos hlead] at hleft
    by_cases hw : n.whole = []
    · rw [if_pos hw, NumberShape.text, if_pos hlead] at hleft
      cases hleft
    · rw [if_neg hw] at hleft
      cases hfrac : n.frac with
      | some f =>
        rw [hfrac] at hleft
        cases hleft
      | none =>
        rw [hfrac] at hleft
        obtain ⟨x, hx⟩ := exists_expText hdigits hleft
        -- the digits behind the leading point are the fraction
        have hwhole : Digits [] := fun _ h => by cases h
        have hfracDigits : ∀ f ∈ some n.whole, Digits f := by
          intro f hf
          obtain rfl : n.whole = f := Option.some.inj hf
          exact n.wholeDigits
        refine ⟨⟨[], some n.whole, x, hwhole, hfracDigits, .inr ⟨n.whole, rfl, hw⟩⟩, ?_⟩
        rw [NumberShape.text, if_pos hlead, hfrac, hx]
        rfl
  · rw [if_neg hlead] at hleft
    obtain ⟨x, hx⟩ := exists_expText hdigits hleft
    have hw := n.start.resolve_left hlead
    refine ⟨⟨n.whole, n.frac, x, n.wholeDigits, n.fracDigits, .inl hw⟩, ?_⟩
    rw [NumberShape.text, if_neg hlead, hx]
    rfl

end Libsd

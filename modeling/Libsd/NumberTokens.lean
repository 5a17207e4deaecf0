/-
  Libsd/NumberTokens.lean
  =======================
  **Number tokens and `atof`.**

  Every number token that `lexer_nexttok` returns, for any bytes in its text, has the form
  of a `NumberShape` (`Emits.shape`); a literal without a sign in its exponent is one token
  (`literal_token`).  A token may go on where `strtod` stops, and a sign ends a token where
  `strtod` goes on.
-/
import Libsd.LexerTotal
import Libsd.LexerWords
import Libsd.NumberShapes

namespace Libsd

open Utf Outcome

/-! ### One-byte runes -/

/-- A rune of one byte that `nextrune` stops at stands in the text. -/
theorem nextrune_front {l : Lexer} (h0 : (nextrune l).peek ≠ 0) (hr : (nextrune l).peek < Tx) :
    ∃ c t, (nextrune l).src.drop (nextrune l).pos = c :: t ∧ c.toNat = (nextrune l).peek := by
  unfold nextrune at h0 hr ⊢
  split
  · next hlt =>
    rw [if_pos hlt] at h0 hr
    dsimp only at h0 hr ⊢
    cases hread : charntorune (l.src.drop (l.pos + runelen l.peek))
        (l.len - (l.pos + runelen l.peek)) with
    | none =>
      rw [hread] at h0
      exact absurd rfl h0
    | some r =>
      rw [hread] at h0 hr
      exact byte_of_charntorune hread h0 hr
  · next hlt =>
    rw [if_neg hlt] at h0
    exact absurd rfl h0

/-- A byte of its own that has no lower case stays in front. -/
theorem utf8Tolower_ascii {c : UInt8} {rest s : CStr} (h : utf8Tolower (c :: rest) = some s)
    (hc : c.toNat < Tx) (hlower : tolowerrune c.toNat = c.toNat) : ∃ t, s = c :: t := by
  have hrunes : runes (c :: rest) = (c.toNat, 1) :: runesLoop rest.length rest := by
    rw [runes, List.length_cons, runesLoop, List.length_cons,
      charntorune_ascii hc (Nat.succ_ne_zero _)]
    rfl
  have hone : runetochar c.toNat = [c] := by
    rw [runetochar_one (Nat.le_of_lt_succ hc), UInt8.ofNat_toNat]
  rw [utf8Tolower, hrunes] at h
  split at h
  · cases h
  · rw [List.flatMap_cons, hlower, hone] at h
    exact ⟨_, (Option.some.inj h).symm⟩

theorem numberRunes_ascii : ∀ r ∈ numberRunes, r ≠ 0 ∧ r < Tx ∧ runelen r = 1 := by
  decide +kernel

/-! ### What `lex_number` takes -/

/-- A rune that starts a number stands in the text. -/
def Lexer.NumberAt (l : Lexer) : Prop :=
  numstart l.peek = true → ∃ c t, l.src.drop l.pos = c :: t ∧ c.toNat = l.peek

theorem nextrune_numberAt (l : Lexer) : (nextrune l).NumberAt := by
  intro hnum
  rcases numberRunes_ascii _ (mem_numberRunes_of_numstart hnum) with ⟨h0, hr, -⟩
  exact nextrune_front h0 hr

theorem iterate_numberAt {l : Lexer} (h : l.NumberAt) (n : Nat) : (nextrune^[n] l).NumberAt := by
  cases n with
  | zero => exact h
  | succ n =>
    rw [Function.iterate_succ_apply']
    exact nextrune_numberAt _

/-- The runes of the loop of `lex_number` stand in the text, one after the other. -/
theorem lexNumberLoop_reads {fuel : Nat} {haveE haveDot1 haveDot2 : Bool} {l l' : Lexer} {c : UInt8}
    {t : CStr} (h : lexNumberLoop fuel haveE haveDot1 haveDot2 l = .ok l') (hlt : l.pos < l.len)
    (hpeek : l.peek ∈ numberRunes) (hdrop : l.src.drop l.pos = c :: t) :
    ∃ s rest, t = s ++ rest ∧ numberRest haveE haveDot1 haveDot2 (s.map UInt8.toNat) = true ∧
      l'.pos = l.pos + (s.length + 1) ∧ l'.src = l.src := by
  induction fuel generalizing haveE haveDot1 haveDot2 l c t with
  | zero => cases h
  | succ fuel ih =>
    have hone := (numberRunes_ascii _ hpeek).2.2
    have hpos : (nextrune l).pos = l.pos + 1 := by rw [nextrune, if_pos hlt, hone]
    have hrest : (nextrune l).src.drop (nextrune l).pos = t := by
      rw [nextrune_src, hpos, ← List.drop_drop, hdrop]
      rfl
    have hstop : (Except.ok (nextrune l) : Except Stop Lexer) = .ok l' →
        ∃ s rest, t = s ++ rest ∧ numberRest haveE haveDot1 haveDot2 (s.map UInt8.toNat) = true ∧
          l'.pos = l.pos + (s.length + 1) ∧ l'.src = l.src := by
      intro h
      obtain rfl := Except.ok.inj h
      exact ⟨[], t, rfl, rfl, hpos, nextrune_src l⟩
    -- one rune more, which leaves these flags
    have hgo : ∀ {e d1 d2}, lexNumberLoop fuel e d1 d2 (nextrune l) = .ok l' →
        (nextrune l).peek ∈ numberRunes →
        (∀ s, numberRest e d1 d2 s = true →
          numberRest haveE haveDot1 haveDot2 ((nextrune l).peek :: s) = true) →
        ∃ s rest, t = s ++ rest ∧ numberRest haveE haveDot1 haveDot2 (s.map UInt8.toNat) = true ∧
          l'.pos = l.pos + (s.length + 1) ∧ l'.src = l.src := by
      intro e d1 d2 h hmem hflags
      rcases numberRunes_ascii _ hmem with ⟨h0, hr, -⟩
      rcases nextrune_front h0 hr with ⟨c', t', hfront, hc'⟩
      rcases ih h (nextrune_atRune l h0) hmem hfront with ⟨s, rest, rfl, haccepted, hpos', hsrc⟩
      refine ⟨c' :: s, rest, hrest.symm.trans hfront, ?_, ?_, hsrc.trans (nextrune_src l)⟩
      · rw [List.map_cons, hc']
        exact hflags _ haccepted
      · rw [hpos', hpos, List.length_cons]
        omega
    simp only [lexNumberLoop] at h
    split_ifs at h with h0 hdigit hdot h1 h2 he h3
    · exact hstop h
    · refine hgo h (mem_numberRunes_of_isDigit hdigit) fun s hs => ?_
      rw [numberRest, if_pos hdigit]
      exact hs
    · refine hgo h (hdot ▸ by decide +kernel) fun s hs => ?_
      rw [numberRest, if_neg hdigit, if_pos hdot, if_pos h1]
      exact hs
    · refine hgo h (hdot ▸ by decide +kernel) fun s hs => ?_
      rw [numberRest, if_neg hdigit, if_pos hdot, if_neg h1, if_pos h2]
      exact hs
    · exact hstop h
    · refine hgo h (he ▸ by decide +kernel) fun s hs => ?_
      rw [numberRest, if_neg hdigit, if_neg hdot, if_pos he, h3]
      exact hs
    · exact hstop h
    · exact hstop h

/-- The text starts as a number does, and goes on as one. -/
def NumberBytes (text : CStr) : Prop :=
  ∃ c s, text = c :: s ∧ numstart c.toNat = true ∧
    numberRest false false false (s.map UInt8.toNat) = true

theorem lexNumber_bytes {l l' : Lexer} {t : Token} (ha : l.AtRune) (hl : l.NumberAt)
    (hnum : numstart l.peek = true) (h : lexNumber l = .ok (t, l')) : NumberBytes t.start := by
  have hmem := mem_numberRunes_of_numstart hnum
  rcases numberRunes_ascii _ hmem with ⟨h0, -, -⟩
  rcases hl hnum with ⟨c, text, hdrop, hc⟩
  rcases bind_eq_ok h with ⟨l1, hloop, h⟩
  rcases bind_eq_ok h with ⟨start, htext, h⟩
  obtain ⟨rfl, rfl⟩ : _ ∧ _ := Prod.mk.inj (Except.ok.inj h)
  rcases lexNumberLoop_reads hloop (ha h0) hmem hdrop with ⟨s, rest, rfl, haccepted, hpos, hsrc⟩
  refine ⟨c, s, ?_, hc ▸ hnum, haccepted⟩
  rw [tokenText, hsrc, hdrop, hpos, Nat.add_sub_cancel_left] at htext
  split at htext
  · rw [← Except.ok.inj htext, List.take_succ_cons, List.take_left]
  · cases htext

/-- The tokens that repeated `lexer_nexttok` returns. -/
inductive Emits : Lexer → Token → Prop where
  | now {l l' : Lexer} {t : Token} (h : lexerNexttok l = .ok (some t, l')) : Emits l t
  | later {l l' : Lexer} {t u : Token} (h : lexerNexttok l = .ok (some u, l')) (ht : Emits l' t) :
      Emits l t

theorem classifyWord_type (text : CStr) : (classifyWord text).type ≠ .number := by
  unfold classifyWord
  split
  · exact fun h => by cases h
  · dsimp only
    split
    · exact fun h => by cases h
    · exact fun h => by cases h

theorem lexerNexttok_bytes {l l' : Lexer} {t : Token} (htpeek : l.tpeek = none) (ha : l.AtRune)
    (hl : l.NumberAt) (h : lexerNexttok l = .ok (some t, l')) (htype : t.type = .number) :
    NumberBytes t.start := by
  obtain ⟨l1, hskip⟩ := skipWhitespace_of_nexttok htpeek h
  rw [lexerNexttok_of_skipped htpeek hskip] at h
  rcases skipWhitespaceLoop_steps hskip with ⟨n, rfl⟩
  have ha1 := (iterate_nextrune n ha).2.2.2
  have hl1 := iterate_numberAt hl n
  split at h
  · cases h
  · split at h
    · next hnum =>
      rcases map_eq_ok h with ⟨⟨u, l2⟩, hlex, h⟩
      cases h
      exact lexNumber_bytes ha1 hl1 hnum hlex
    · split at h
      · rcases map_eq_ok h with ⟨⟨u, l2⟩, hlex, h⟩
        cases h
        rcases bind_eq_ok hlex with ⟨l3, -, hlex⟩
        rcases bind_eq_ok hlex with ⟨text, -, hlex⟩
        obtain ⟨rfl, -⟩ := Prod.mk.inj (Except.ok.inj hlex)
        exact absurd htype (classifyWord_type text)
      · cases h
        cases htype

theorem lexerNexttok_numberAt {l l' : Lexer} {o : Option Token} (htpeek : l.tpeek = none)
    (hl : l.NumberAt) (h : lexerNexttok l = .ok (o, l')) : l'.NumberAt := by
  rcases lexerNexttok_cases htpeek h with ⟨n, ⟨-, rfl, -⟩ | ⟨-, -, m, rfl⟩⟩
  · exact iterate_numberAt hl n
  · rw [Function.iterate_succ_apply']
    exact nextrune_numberAt _

theorem Emits.bytes {l : Lexer} {t : Token} (h : Emits l t) (htpeek : l.tpeek = none)
    (ha : l.AtRune) (hl : l.NumberAt) (htype : t.type = .number) : NumberBytes t.start := by
  induction h with
  | now h => exact lexerNexttok_bytes htpeek ha hl h htype
  | later h _ ih =>
    have ha' := (lexerNexttok_ahead ha h).1
    exact ih (lexerNexttok_tpeek h) ha' (lexerNexttok_numberAt htpeek hl h) htype

/-- Lower case leaves the start of a number where it is. -/
theorem lexerInit_numberAt {src : CStr} {l : Lexer} (h : lexerInit src = .ok l) : l.NumberAt := by
  intro hnum
  rw [lexerInit] at h
  split at h
  · cases h
  · next s hs =>
    obtain rfl := (Except.ok.inj h).symm
    dsimp only at hnum ⊢
    have hmem := mem_numberRunes_of_numstart hnum
    rcases numberRunes_ascii _ hmem with ⟨h0, hr, hone⟩
    have hlower := (numberRunes_plain _ hmem).2.1
    cases hread : charntorune src s.length with
    | none =>
      rw [hread] at h0
      exact absurd rfl h0
    | some r =>
      rw [hread] at hnum hmem h0 hr hone hlower
      rcases byte_of_charntorune hread h0 hr with ⟨c, rest, rfl, hc⟩
      obtain ⟨t, ht⟩ := utf8Tolower_ascii hs (hc ▸ hr) (by rw [hc]; exact hlower)
      exact ⟨c, t, ht, hc⟩

/-! ### The form of a number -/

theorem isDigit_toNat (c : UInt8) : isDigit c.toNat = isDigitByte c := by
  rw [isDigit, isDigitByte]
  refine decide_eq_decide.mpr (and_congr ?_ ?_)
  · exact (UInt8.le_iff_toNat_le (a := 0x30) (b := c)).symm
  · exact (UInt8.le_iff_toNat_le (a := c) (b := 0x39)).symm

theorem toNat_eq_point {c : UInt8} : c.toNat = rune '.' ↔ c = POINT := UInt8.toNat_inj (b := POINT)

theorem toNat_eq_e {c : UInt8} : c.toNat = rune 'e' ↔ c = 0x65 := UInt8.toNat_inj (b := 0x65)

/-- Digits first, and then the end, a point or an `e`. -/
theorem numberRest_span {e d1 d2 : Bool} {s : CStr}
    (h : numberRest e d1 d2 (s.map UInt8.toNat) = true) :
    ∃ w rest, s = w ++ rest ∧ Digits w ∧ (rest = [] ∨
      (∃ u, rest = POINT :: u ∧
        ((e = false ∧ d1 = false ∧ numberRest false true d2 (u.map UInt8.toNat) = true) ∨
          (e = true ∧ d2 = false ∧ numberRest true d1 true (u.map UInt8.toNat) = true))) ∨
      ∃ u, rest = 0x65 :: u ∧ e = false ∧ numberRest true d1 d2 (u.map UInt8.toNat) = true) := by
  have hnil : Digits [] := fun _ h => by cases h
  induction s with
  | nil => exact ⟨[], [], rfl, hnil, .inl rfl⟩
  | cons c s ih =>
    rw [List.map_cons, numberRest] at h
    split_ifs at h with hdigit hdot h1 h2 he
    · rcases ih h with ⟨w, rest, rfl, hw, hrest⟩
      refine ⟨c :: w, rest, rfl, fun b hb => ?_, hrest⟩
      rcases List.mem_cons.mp hb with rfl | hb
      · rw [← isDigit_toNat]
        exact hdigit
      · exact hw b hb
    · obtain rfl := toNat_eq_point.mp hdot
      cases e with
      | true => cases h1
      | false =>
        cases d1 with
        | true => cases h1
        | false => exact ⟨[], POINT :: s, rfl, hnil, .inr (.inl ⟨s, rfl, .inl ⟨rfl, rfl, h⟩⟩)⟩
    · obtain rfl := toNat_eq_point.mp hdot
      cases e with
      | false => cases h2
      | true =>
        cases d2 with
        | true => cases h2
        | false => exact ⟨[], POINT :: s, rfl, hnil, .inr (.inl ⟨s, rfl, .inr ⟨rfl, rfl, h⟩⟩)⟩
    · obtain rfl := toNat_eq_e.mp he
      cases e with
      | true => cases h
      | false => exact ⟨[], 0x65 :: s, rfl, hnil, .inr (.inr ⟨s, rfl, rfl, h⟩)⟩

/-- Behind the second point of the exponent there are digits only. -/
theorem numberRest_last {d1 : Bool} {s : CStr}
    (h : numberRest true d1 true (s.map UInt8.toNat) = true) : Digits s := by
  rcases numberRest_span h with ⟨w, rest, rfl, hw, rfl | ⟨u, -, hu⟩ | ⟨u, -, hu, -⟩⟩
  · rwa [List.append_nil]
  · rcases hu with ⟨he, -⟩ | ⟨-, hd, -⟩
    · cases he
    · cases hd
  · cases hu

theorem numberRest_exp {d1 : Bool} {s : CStr}
    (h : numberRest true d1 false (s.map UInt8.toNat) = true) :
    ∃ w f, s = w ++ fracText f ∧ Digits w ∧ ∀ g ∈ f, Digits g := by
  rcases numberRest_span h with ⟨w, rest, rfl, hw, rfl | ⟨u, rfl, hu⟩ | ⟨u, -, hu, -⟩⟩
  · exact ⟨w, none, rfl, hw, fun g hg => by cases hg⟩
  · rcases hu with ⟨he, -⟩ | ⟨-, -, hu⟩
    · cases he
    · refine ⟨w, some u, rfl, hw, fun g hg => ?_⟩
      obtain rfl : u = g := Option.some.inj hg
      exact numberRest_last hu
  · cases hu

/-- An exponent, if there is one. -/
theorem numberRest_exp_of_e {d1 : Bool} {s : CStr}
    (h : numberRest true d1 false (s.map UInt8.toNat) = true) :
    ∃ x, 0x65 :: s = shapeExpText x ∧ ∀ d ∈ x, Digits d.1 ∧ ∀ f ∈ d.2, Digits f := by
  rcases numberRest_exp h with ⟨w, f, rfl, hw, hf⟩
  refine ⟨some (w, f), rfl, fun d hd => ?_⟩
  obtain rfl : (w, f) = d := Option.some.inj hd
  exact ⟨hw, hf⟩

/-- Behind the point of the mantissa. -/
theorem numberRest_frac {s : CStr}
    (h : numberRest false true false (s.map UInt8.toNat) = true) :
    ∃ w x, s = w ++ shapeExpText x ∧ Digits w ∧ ∀ d ∈ x, Digits d.1 ∧ ∀ f ∈ d.2, Digits f := by
  rcases numberRest_span h with ⟨w, rest, rfl, hw, rfl | ⟨u, -, hu⟩ | ⟨u, rfl, -, hu⟩⟩
  · exact ⟨w, none, rfl, hw, fun d hd => by cases hd⟩
  · rcases hu with ⟨-, hd, -⟩ | ⟨he, -⟩
    · cases hd
    · cases he
  · rcases numberRest_exp_of_e hu with ⟨x, hx, hdigits⟩
    exact ⟨w, x, by rw [hx], hw, hdigits⟩

theorem numberRest_mantissa {s : CStr}
    (h : numberRest false false false (s.map UInt8.toNat) = true) :
    ∃ w f x, s = w ++ (fracText f ++ shapeExpText x) ∧ Digits w ∧ (∀ g ∈ f, Digits g) ∧
      ∀ d ∈ x, Digits d.1 ∧ ∀ f ∈ d.2, Digits f := by
  rcases numberRest_span h with ⟨w, rest, rfl, hw, rfl | ⟨u, rfl, hu⟩ | ⟨u, rfl, -, hu⟩⟩
  · exact ⟨w, none, none, rfl, hw, fun g hg => (by cases hg), fun d hd => (by cases hd)⟩
  · rcases hu with ⟨-, -, hu⟩ | ⟨he, -⟩
    · rcases numberRest_frac hu with ⟨f, x, rfl, hf, hx⟩
      refine ⟨w, some f, x, rfl, hw, fun g hg => ?_, hx⟩
      obtain rfl : f = g := Option.some.inj hg
      exact hf
    · cases he
  · rcases numberRest_exp_of_e hu with ⟨x, hx, hdigits⟩
    exact ⟨w, none, x, by rw [hx]; rfl, hw, fun g hg => (by cases hg), hdigits⟩

/-- The point that a number starts with is not counted. -/
theorem NumberBytes.shape {text : CStr} (h : NumberBytes text) :
    ∃ n : NumberShape, n.text = text := by
  rcases h with ⟨c, s, rfl, hnum, haccepted⟩
  rcases numberRest_mantissa haccepted with ⟨w, f, x, rfl, hw, hf, hx⟩
  rw [numstart, Bool.or_eq_true, beq_iff_eq, isDigit_toNat] at hnum
  rcases hnum with hdigit | hdot
  · have hcw : Digits (c :: w) := by
      intro b hb
      rcases List.mem_cons.mp hb with rfl | hb
      · exact hdigit
      · exact hw b hb
    exact ⟨⟨false, c :: w, f, x, hcw, hf, hx, .inr (List.cons_ne_nil c w)⟩, rfl⟩
  · obtain rfl := toNat_eq_point.mp hdot
    exact ⟨⟨true, w, f, x, hw, hf, hx, .inl rfl⟩, rfl⟩

/-- Every number token has the form of a number. -/
theorem Emits.shape {src : CStr} {l : Lexer} {t : Token} (hl : lexerInit src = .ok l)
    (h : Emits l t) (htype : t.type = .number) : ∃ n : NumberShape, n.text = t.start := by
  rcases lexerInit_spec hl with ⟨htpeek, -, ha⟩
  exact (h.bytes htpeek ha (lexerInit_numberAt hl) htype).shape

/-! ### Literals -/

theorem encode_ascii {s : CStr} (hs : ∀ c ∈ s, c.toNat < Tx) : encode (s.map UInt8.toNat) = s := by
  induction s with
  | nil => rfl
  | cons c s ih =>
    have hc : c.toNat ≤ Rune1 := Nat.le_of_lt_succ (hs c List.mem_cons_self)
    rw [List.map_cons, encode_cons, runetochar_one hc, UInt8.ofNat_toNat,
      ih fun b hb => hs b (List.mem_cons_of_mem c hb)]
    rfl

theorem numberRest_digits {e d1 d2 : Bool} {w t : CStr} (hw : Digits w) :
    numberRest e d1 d2 ((w ++ t).map UInt8.toNat) = numberRest e d1 d2 (t.map UInt8.toNat) := by
  induction w with
  | nil => rfl
  | cons c w ih =>
    have hc : isDigit c.toNat = true := (isDigit_toNat c).trans (hw c List.mem_cons_self)
    rw [List.cons_append, List.map_cons, numberRest, if_pos hc]
    exact ih fun b hb => hw b (List.mem_cons_of_mem c hb)

theorem numberRest_expText {d1 : Bool} {x : Option Exponent}
    (hx : ∀ e ∈ x, e.upper = false ∧ e.sign = none) :
    numberRest false d1 false ((expText x).map UInt8.toNat) = true := by
  cases x with
  | none => rfl
  | some e =>
    rcases hx e rfl with ⟨hlower, hsign⟩
    have htext : expText (some e) = 0x65 :: (e.digits ++ []) := by
      rw [expText, Exponent.text, hlower, hsign, List.append_nil]
      rfl
    have hstep : numberRest false d1 false ((0x65 :: (e.digits ++ [])).map UInt8.toNat) =
        numberRest true d1 false ((e.digits ++ []).map UInt8.toNat) := rfl
    rw [htext, hstep, numberRest_digits e.allDigits]
    rfl

theorem Literal.lower_exp {n : Literal} (hn : n.Unsigned) :
    ∀ e ∈ n.lower.exp, e.upper = false ∧ e.sign = none := by
  intro e he
  rcases Option.map_eq_some_iff.mp he with ⟨x, hx, rfl⟩
  exact ⟨rfl, hn x hx⟩

/-- A literal without a sign is a number for the lexer. -/
theorem Literal.numberText {n : Literal} (hn : n.Unsigned) :
    ∃ t : NumberText, t.runes = n.lower.text.map UInt8.toNat := by
  have hexp : ∀ {d1}, numberRest false d1 false ((expText n.lower.exp).map UInt8.toNat) = true :=
    numberRest_expText (n.lower_exp hn)
  cases hwhole : n.whole with
  | nil =>
    rcases n.mantissa.resolve_left fun h => h hwhole with ⟨f, hf, -⟩
    have hfrac : n.frac = some f := hf
    have htext : n.lower.text = POINT :: (f ++ expText n.lower.exp) := by
      rw [Literal.text, show n.lower.whole = [] from hwhole, show n.lower.frac = some f from hfrac]
      rfl
    refine ⟨⟨rune '.', (f ++ expText n.lower.exp).map UInt8.toNat, by decide, ?_⟩, ?_⟩
    · rw [numberRest_digits (n.fracDigits f hf)]
      exact hexp
    · rw [htext]
      rfl
  | cons c w =>
    have hdigits : Digits (c :: w) := hwhole ▸ n.wholeDigits
    have htext : n.lower.text = c :: (w ++ (fracText n.frac ++ expText n.lower.exp)) := by
      rw [Literal.text, show n.lower.whole = c :: w from hwhole]
      rfl
    have hnum : numstart c.toNat = true := by
      rw [numstart, isDigit_toNat, hdigits c List.mem_cons_self]
      rfl
    refine ⟨⟨c.toNat, (w ++ (fracText n.frac ++ expText n.lower.exp)).map UInt8.toNat,
      hnum, ?_⟩, ?_⟩
    · rw [numberRest_digits fun b hb => hdigits b (List.mem_cons_of_mem c hb)]
      cases hfrac : n.frac with
      | none => exact hexp
      | some f =>
        have hstep : numberRest false false false ((fracText (some f) ++ expText n.lower.exp).map
            UInt8.toNat) = numberRest false true false ((f ++ expText n.lower.exp).map
              UInt8.toNat) := rfl
        rw [hstep, numberRest_digits (n.fracDigits f hfrac)]
        exact hexp
    · rw [htext]
      rfl

/-- What a literal is written with. -/
def literalBytes : CStr := cstr "0123456789.eE+-"

theorem mem_literalBytes_of_digit {c : UInt8} (h : isDigitByte c = true) : c ∈ literalBytes := by
  have hall : ∀ k : Fin 10, UInt8.ofNat (0x30 + k.val) ∈ literalBytes := by decide +kernel
  rcases of_decide_eq_true h with ⟨hlo, hhi⟩
  have hlo : 0x30 ≤ c.toNat := UInt8.le_iff_toNat_le.mp hlo
  have hhi : c.toNat ≤ 0x39 := UInt8.le_iff_toNat_le.mp hhi
  have hk := hall ⟨c.toNat - 0x30, by omega⟩
  have hc : 0x30 + (c.toNat - 0x30) = c.toNat := Nat.add_sub_cancel' hlo
  rwa [hc, UInt8.ofNat_toNat] at hk

theorem Literal.mem_text (n : Literal) : ∀ c ∈ n.text, c ∈ literalBytes := by
  intro c hc
  rw [Literal.text] at hc
  rcases List.mem_append.mp hc with hc | hc
  · exact mem_literalBytes_of_digit (n.wholeDigits c hc)
  · rcases List.mem_append.mp hc with hc | hc
    · cases hfrac : n.frac with
      | none =>
        rw [hfrac] at hc
        cases hc
      | some f =>
        rw [hfrac] at hc
        rcases List.mem_cons.mp hc with rfl | hc
        · decide +kernel
        · exact mem_literalBytes_of_digit (n.fracDigits f hfrac c hc)
    · cases hexp : n.exp with
      | none =>
        rw [hexp] at hc
        cases hc
      | some e =>
        rw [hexp] at hc
        rcases List.mem_cons.mp hc with rfl | hc
        · split <;> decide +kernel
        · rcases List.mem_append.mp hc with hc | hc
          · cases hsign : e.sign with
            | none =>
              rw [hsign] at hc
              cases hc
            | some neg =>
              rw [hsign] at hc
              cases neg with
              | true =>
                obtain rfl := List.mem_singleton.mp hc
                decide +kernel
              | false =>
                obtain rfl := List.mem_singleton.mp hc
                decide +kernel
          · exact mem_literalBytes_of_digit (e.allDigits c hc)

theorem literalBytes_ascii : ∀ c ∈ literalBytes, c.toNat ≠ 0 ∧ c.toNat < Tx := by
  decide +kernel

def lowerByte (c : UInt8) : UInt8 := if c = 0x45 then 0x65 else c

theorem tolowerrune_lowerByte : ∀ c ∈ literalBytes, tolowerrune c.toNat = (lowerByte c).toNat := by
  decide +kernel

theorem map_lowerByte {s : CStr} (hs : Digits s) : s.map lowerByte = s := by
  refine (List.map_congr_left fun c hc => ?_).trans (List.map_id s)
  refine if_neg ?_
  rintro rfl
  cases hs 0x45 hc

theorem Literal.text_lower (n : Literal) : n.lower.text = n.text.map lowerByte := by
  have hfrac : (fracText n.frac).map lowerByte = fracText n.frac := by
    cases hf : n.frac with
    | none => rfl
    | some f =>
      rw [fracText, List.map_cons, map_lowerByte (n.fracDigits f hf)]
      rfl
  have hexp : (expText n.exp).map lowerByte = expText n.lower.exp := by
    cases hx : n.exp with
    | none =>
      rw [Literal.lower, hx]
      rfl
    | some e =>
      have hsign : (signText e.sign).map lowerByte = signText e.sign := by
        cases e.sign with
        | none => rfl
        | some neg => cases neg <;> rfl
      have hmark : lowerByte (if e.upper then 0x45 else 0x65) = 0x65 := by
        cases e.upper <;> rfl
      rw [Literal.lower, hx]
      rw [expText, Exponent.text, List.map_cons, List.map_append, hsign, map_lowerByte e.allDigits,
        hmark]
      rfl
  rw [Literal.text, Literal.text, List.map_append, List.map_append, hfrac, hexp,
    map_lowerByte n.wholeDigits]
  rfl

/-- A literal starts with a digit or a point, in either case. -/
theorem Literal.head (n : Literal) : ∃ c s s', n.text = c :: s ∧ n.lower.text = c :: s' := by
  cases hwhole : n.whole with
  | nil =>
    rcases n.mantissa.resolve_left fun h => h hwhole with ⟨f, hf, -⟩
    have hfrac : n.frac = some f := hf
    refine ⟨POINT, f ++ expText n.exp, f ++ expText n.lower.exp, ?_, ?_⟩
    · rw [Literal.text, hwhole, hfrac]
      rfl
    · rw [Literal.text, show n.lower.whole = [] from hwhole, show n.lower.frac = some f from hfrac]
      rfl
  | cons c w =>
    refine ⟨c, w ++ (fracText n.frac ++ expText n.exp),
      w ++ (fracText n.frac ++ expText n.lower.exp), ?_, ?_⟩
    · rw [Literal.text, hwhole]
      rfl
    · rw [Literal.text, show n.lower.whole = c :: w from hwhole]
      rfl

/-- The lexer starts in front of the literal in lower case. -/
theorem lexerInit_literal (n : Literal) :
    ∃ l, lexerInit n.text = .ok l ∧ l.tpeek = none ∧ l.At n.lower.text := by
  have hascii : ∀ c ∈ n.text, c.toNat ≠ 0 ∧ c.toNat < Tx := fun c hc =>
    literalBytes_ascii c (n.mem_text c hc)
  have hascii' : ∀ c ∈ n.lower.text, c.toNat < Tx := fun c hc =>
    (literalBytes_ascii c (n.lower.mem_text c hc)).2
  have hrune : ∀ r ∈ n.text.map UInt8.toNat, IsRune r := by
    intro r hr
    rcases List.mem_map.mp hr with ⟨c, hc, rfl⟩
    rcases hascii c hc with ⟨h0, hlt⟩
    exact ⟨h0, hlt.le.trans (by decide)⟩
  have hlower : lower (n.text.map UInt8.toNat) = n.lower.text.map UInt8.toNat := by
    rw [lower, n.text_lower, List.map_map, List.map_map]
    exact List.map_congr_left fun c hc => tolowerrune_lowerByte c (n.mem_text c hc)
  have htolower : utf8Tolower n.text = some n.lower.text := by
    have h := utf8Tolower_encode hrune
    have hlen : n.lower.text.length = n.text.length := by rw [n.text_lower, List.length_map]
    rw [hlower, encode_ascii fun c hc => (hascii c hc).2, encode_ascii hascii', hlen,
      List.drop_length, List.append_nil] at h
    exact h
  have hlen : n.lower.text.length = n.text.length := by rw [n.text_lower, List.length_map]
  have hfirst : firstRune n.text = firstRune n.lower.text := by
    rcases n.head with ⟨c, s, s', htext, htext'⟩
    have hc : c.toNat < Tx := by
      have hmem : c ∈ n.text := by
        rw [htext]
        exact List.mem_cons_self
      exact (hascii c hmem).2
    rw [htext, htext', firstRune, firstRune, List.length_cons, List.length_cons,
      charntorune_ascii hc (Nat.succ_ne_zero _), charntorune_ascii hc (Nat.succ_ne_zero _)]
  rw [lexerInit, htolower]
  refine ⟨_, rfl, rfl, ⟨rfl, Nat.zero_le _, rfl, ?_⟩⟩
  rw [← hfirst, hlen]
  rfl

/-- A literal without a sign in its exponent is one token, wherever it stands. -/
theorem literal_token {n : Literal} (hn : n.Unsigned) {l : Lexer} {text : CStr}
    (hend : firstRune text ∉ numberRunes) (htpeek : l.tpeek = none)
    (hl : l.At (n.lower.text ++ text)) : ∃ l', lexerNexttok l =
      .ok (some { start := n.lower.text, type := .number }, l') ∧ l'.At text := by
  rcases Literal.numberText hn with ⟨t, ht⟩
  have hencode : encode t.runes = n.lower.text := by
    have hascii : ∀ c ∈ n.lower.text, c.toNat < Tx := fun c hc =>
      (literalBytes_ascii c (n.lower.mem_text c hc)).2
    rw [ht, encode_ascii hascii]
  rw [← hencode] at hl ⊢
  exact lexerNexttok_numberText t hend htpeek hl

theorem literal_lexes {n : Literal} (hn : n.Unsigned) : ∃ l, lexerInit n.text = .ok l ∧
    Lexes l [{ start := n.lower.text, type := .number }] := by
  rcases lexerInit_literal n with ⟨l, hinit, htpeek, hl⟩
  rw [← List.append_nil n.lower.text] at hl
  have hend : firstRune [] ∉ numberRunes := by decide +kernel
  rcases literal_token hn hend htpeek hl with ⟨l', htok, hl'⟩
  refine ⟨l, hinit, .tok htok (.eof (lexerNexttok_of_peek_zero (lexerNexttok_tpeek htok) ?_))⟩
  exact hl'.peek

/-! ### Where the two grammars meet -/

/-- **`atof` reads a number token to its last character just when it is a decimal literal**,
    and each literal without a sign in its exponent is one number token: alone, and in front
    of anything that does not go on as a number.  (Texts have less than 2^31 bytes.) -/
theorem number_tokens :
    (∀ (src : CStr) (l : Lexer) (t : Token), lexerInit src = .ok l → Emits l t →
      t.type = .number → ((strtod t.start).2 = [] ↔ ∃ n : Literal, t.start = n.text)) ∧
    (∀ n : Literal, (strtod n.text).2 = []) ∧
    (∀ n : Literal, n.Unsigned → ∃ l, lexerInit n.text = .ok l ∧
      Lexes l [{ start := n.lower.text, type := .number }]) ∧
    ∀ (n : Literal) (l : Lexer) (text : CStr), n.Unsigned → firstRune text ∉ numberRunes →
      l.tpeek = none → l.At (n.lower.text ++ text) → ∃ l', lexerNexttok l =
        .ok (some { start := n.lower.text, type := .number }, l') ∧ l'.At text := by
  refine ⟨fun src l t hinit hemits htype => ?_, Literal.read, fun n hn => literal_lexes hn,
    fun n l text hn hend htpeek hl => literal_token hn hend htpeek hl⟩
  rcases hemits.shape hinit htype with ⟨n, hn⟩
  rw [← hn]
  exact n.read_iff

/-- `2.5E3` -/
def upperLiteral : Literal where
  whole := cstr "2"
  frac := some (cstr "5")
  exp := some { upper := true, sign := none, digits := cstr "3",
                allDigits := by decide +kernel, nonempty := by decide +kernel }
  wholeDigits := by decide +kernel
  fracDigits f hf := by
    obtain rfl : cstr "5" = f := Option.some.inj hf
    decide +kernel
  mantissa := .inl (by decide +kernel)

theorem number_tokens_upper : ∃ l, lexerInit upperLiteral.text = .ok l ∧
    Lexes l [{ start := cstr "2.5e3", type := .number }] := by
  have hlower : upperLiteral.lower.text = cstr "2.5e3" := by decide +kernel
  have hn : upperLiteral.Unsigned := by
    intro e he
    obtain rfl := Option.some.inj he
    rfl
  rw [← hlower]
  exact number_tokens.2.2.1 upperLiteral hn

/-- `1e-5` -/
def signedLiteral : Literal where
  whole := cstr "1"
  frac := none
  exp := some { upper := false, sign := some true, digits := cstr "5",
                allDigits := by decide +kernel, nonempty := by decide +kernel }
  wholeDigits := by decide +kernel
  fracDigits f hf := by cases hf
  mantissa := .inl (by decide +kernel)

/-- `lex_number` takes a fraction of the exponent, which `atof` leaves; and it ends in front
    of the sign of an exponent, which `atof` reads. -/
theorem numbers_disagree :
    (¬ ∀ (src : CStr) (l : Lexer) (t : Token), lexerInit src = .ok l → Emits l t →
      t.type = .number → (strtod t.start).2 = []) ∧
    ¬ ∀ n : Literal, ∃ l, lexerInit n.text = .ok l ∧
      Lexes l [{ start := n.lower.text, type := .number }] := by
  constructor
  · intro h
    have hinit : lexerInit (cstr "5.3e4.") =
        .ok { src := cstr "5.3e4.", peek := rune '5', len := 6, pos := 0, tpeek := none } := by
      decide +kernel
    have htok : lexerNexttok
        { src := cstr "5.3e4.", peek := rune '5', len := 6, pos := 0, tpeek := none } =
        .ok (some { start := cstr "5.3e4.", type := .number },
          { src := cstr "5.3e4.", peek := 0, len := 6, pos := 6, tpeek := none }) := by
      decide +kernel
    have hread : (strtod (cstr "5.3e4.")).2 ≠ [] := by decide +kernel
    exact hread (h _ _ _ hinit (.now htok) rfl)
  · intro h
    rcases h signedLiteral with ⟨l, hinit, hlexes⟩
    have hinit' : lexerInit signedLiteral.text =
        .ok { src := cstr "1e-5", peek := rune '1', len := 4, pos := 0, tpeek := none } := by
      decide +kernel
    have htok : lexerNexttok
        { src := cstr "1e-5", peek := rune '1', len := 4, pos := 0, tpeek := none } =
        .ok (some { start := cstr "1e", type := .number },
          { src := cstr "1e-5", peek := rune '-', len := 4, pos := 2, tpeek := none }) := by
      decide +kernel
    obtain rfl := Except.ok.inj (hinit'.symm.trans hinit)
    have hstart : cstr "1e" ≠ signedLiteral.lower.text := by decide +kernel
    cases hlexes with
    | tok hother _ =>
      have htoken := Option.some.inj (Prod.mk.inj (Except.ok.inj (htok.symm.trans hother))).1
      exact hstart (congrArg Token.start htoken)

end Libsd

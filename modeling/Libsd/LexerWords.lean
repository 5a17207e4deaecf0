/-
  Libsd/LexerWords.lean
  =====================
  **Words that the lexer takes whole, with blanks between them.**

  A *lexeme* is a word in lower case that the lexer returns as one token when a blank or the
  end of the text follows it.  Number literals (`number_lexeme`), identifiers
  (`ident_lexeme`) and operators (`op_lexeme`) are lexemes, and a text of lexemes with a
  blank between any two is read as the symbols of the lexemes (`sees_spaced`).
-/
import Libsd.Canonical
import Libsd.LexerText
import Libsd.Symbols

namespace Libsd

open Utf

/-- The word ends in front of such a text. -/
def EndsWord (text : CStr) : Prop := firstRune text = 0 ∨ firstRune text = rune ' '

structure Lexeme (w : List Rune) (s : Symbol) : Prop where
  isRune : ∀ r ∈ w, IsRune r
  lower : lower w = w
  start : ∃ r ∈ w.head?, isspacerune r = false ∧ r ≠ rune '\x7b'
  token : ∀ (l : Lexer) (text : CStr), EndsWord text → l.tpeek = none → l.At (encode w ++ text) →
    ∃ t l', lexerNexttok l = .ok (some t, l') ∧ t.symbol = s ∧ l'.At text

/-! ### White space -/

theorem skipWhitespace_stay {l : Lexer} (hspace : isspacerune l.peek = false)
    (hcomment : l.peek ≠ rune '\x7b') : skipWhitespace l = .ok l := by
  have hstop : (!false && l.peek != rune '\x7b' && !isspacerune l.peek) = true := by
    simp [hspace, hcomment]
  rw [skipWhitespace, skipWhitespaceLoop]
  exact if_pos hstop

/-- One blank is skipped. -/
theorem skipWhitespace_blank {l : Lexer} {text : CStr} {r : Nat} (hr : firstRune text = r)
    (h0 : r ≠ 0) (hspace : isspacerune r = false) (hcomment : r ≠ rune '\x7b')
    (h : l.At (runetochar (rune ' ') ++ text)) : skipWhitespace l = .ok (nextrune l) := by
  obtain ⟨hnext, -⟩ := h.next (by decide)
  have hpeek : l.peek = rune ' ' := h.peek.trans (firstRune_runetochar (by decide) text)
  have hblank : isspacerune (rune ' ') = true := by decide +kernel
  have hopen : (rune ' ' == rune '\x7b') = false := by decide
  have hpeek' : (nextrune l).peek = r := hnext.peek.trans hr
  have hlen : 0 < l.len := by
    have hsub := h.len_sub
    have hpos : 0 < (runetochar (rune ' ')).length := runelen_pos _
    rw [List.length_append] at hsub
    omega
  obtain ⟨k, hk⟩ := Nat.exists_eq_succ_of_ne_zero hlen.ne'
  rw [skipWhitespace, hk]
  rw [skipWhitespaceLoop]
  simp only [hpeek, hblank, hpeek', hopen, Bool.not_true, Bool.and_false, Bool.false_eq_true,
    if_false, if_neg h0]
  rw [skipWhitespaceLoop]
  have hstop :
      (!false && (nextrune l).peek != rune '\x7b' && !isspacerune (nextrune l).peek) = true := by
    simp [hpeek', hspace, hcomment]
  exact if_pos hstop

theorem lexerNexttok_of_skip {l l' : Lexer} (htpeek : l.tpeek = none) (htpeek' : l'.tpeek = none)
    (h : skipWhitespace l = .ok l') (h' : skipWhitespace l' = .ok l') :
    lexerNexttok l = lexerNexttok l' := by
  simp only [lexerNexttok, htpeek, htpeek', h, h']

/-! ### Sequences -/

/-- The words after another one, each with its blank. -/
def behind : List (List Rune) → List Rune
  | [] => []
  | w :: ws => rune ' ' :: (w ++ behind ws)

/-- The words with blanks between them. -/
def spaced : List (List Rune) → List Rune
  | [] => []
  | w :: ws => w ++ behind ws

theorem endsWord_behind (ws : List (List Rune)) : EndsWord (encode (behind ws)) := by
  cases ws with
  | nil => exact .inl rfl
  | cons w ws =>
    refine .inr ?_
    rw [behind, encode_cons]
    exact firstRune_runetochar (by decide) _

theorem Lexeme.firstRune {w : List Rune} {s : Symbol} (hw : Lexeme w s) (text : CStr) :
    ∃ r, Libsd.firstRune (encode w ++ text) = r ∧ r ≠ 0 ∧ isspacerune r = false ∧
      r ≠ rune '\x7b' := by
  obtain ⟨r, hr, hspace, hcomment⟩ := hw.start
  obtain ⟨rest, rfl⟩ : ∃ rest, w = r :: rest := by
    cases w with
    | nil => cases hr
    | cons q rest => exact ⟨rest, by rw [Option.mem_some_iff.mp hr]⟩
  have hrune := hw.isRune r List.mem_cons_self
  refine ⟨r, ?_, hrune.1, hspace, hcomment⟩
  rw [encode_cons, List.append_assoc, firstRune_runetochar hrune]

theorem sees_behind {ws : List (List Rune)} {ss : List Symbol} (h : List.Forall₂ Lexeme ws ss)
    {l : Lexer} (htpeek : l.tpeek = none) (hl : l.At (encode (behind ws))) : Sees l ss none := by
  induction h generalizing l with
  | nil =>
    have hpeek : l.peek = 0 := hl.peek
    exact .ahead (lexerNexttok_of_peek_zero htpeek hpeek) rfl
  | @cons w s ws ss hw _ ih =>
    rw [behind, encode_cons, encode_append] at hl
    obtain ⟨r, hr, h0, hspace, hcomment⟩ := hw.firstRune (encode (behind ws))
    obtain ⟨hnext, -⟩ := hl.next (by decide)
    have hpeek : (nextrune l).peek = r := hnext.peek.trans hr
    have htpeek' : (nextrune l).tpeek = none := (nextrune_tpeek l).trans htpeek
    have hskip :=
      lexerNexttok_of_skip htpeek htpeek' (skipWhitespace_blank hr h0 hspace hcomment hl)
      (skipWhitespace_stay (hpeek ▸ hspace) (hpeek ▸ hcomment))
    obtain ⟨t, l', htok, hsym, hl'⟩ := hw.token _ _ (endsWord_behind ws) htpeek' hnext
    exact .tok (hskip.trans htok) hsym (ih (lexerNexttok_tpeek htok) hl')

/-- Words with blanks between them are read one by one. -/
theorem sees_spaced {ws : List (List Rune)} {ss : List Symbol} (h : List.Forall₂ Lexeme ws ss)
    {l : Lexer} (htpeek : l.tpeek = none) (hl : l.At (encode (spaced ws))) : Sees l ss none := by
  cases h with
  | nil => exact .ahead (lexerNexttok_of_peek_zero htpeek hl.peek) rfl
  | @cons w s ws ss hw hws =>
    rw [spaced, encode_append] at hl
    obtain ⟨t, l', htok, hsym, hl'⟩ := hw.token _ _ (endsWord_behind ws) htpeek hl
    exact .tok htok hsym (sees_behind hws (lexerNexttok_tpeek htok) hl')

/-! ### The kinds of token -/

section
variable {l : Lexer} {r : Nat} (htpeek : l.tpeek = none) (hpeek : l.peek = r) (h0 : r ≠ 0)
  (hspace : isspacerune r = false) (hcomment : r ≠ rune '\x7b')
include htpeek hpeek h0 hspace hcomment

theorem lexerNexttok_number (hnum : numstart r = true) :
    lexerNexttok l = (lexNumber l).map fun p => (some p.1, p.2) := by
  have hskip := skipWhitespace_stay (hpeek ▸ hspace) (hpeek ▸ hcomment)
  rw [lexerNexttok_of_skipped htpeek hskip, hpeek, if_neg h0, if_pos hnum]

theorem lexerNexttok_ident (hident : identstart r = true) :
    lexerNexttok l = (lexIdent l).map fun p => (some p.1, p.2) := by
  have hskip := skipWhitespace_stay (hpeek ▸ hspace) (hpeek ▸ hcomment)
  have hnum : numstart r = false := by
    simp only [identstart, Bool.and_eq_true, Bool.not_eq_true'] at hident
    exact hident.1
  rw [lexerNexttok_of_skipped htpeek hskip, hpeek, if_neg h0, hnum, if_neg Bool.false_ne_true,
    if_pos hident]

theorem lexerNexttok_op (hnum : numstart r = false) (hident : identstart r = false) :
    lexerNexttok l = .ok (some (lexOp l).1, (lexOp l).2) := by
  have hskip := skipWhitespace_stay (hpeek ▸ hspace) (hpeek ▸ hcomment)
  rw [lexerNexttok_of_skipped htpeek hskip, hpeek, if_neg h0, hnum, if_neg Bool.false_ne_true,
    hident, if_neg Bool.false_ne_true]

end

/-! ### Numbers -/

/-- What may follow in a number, with what has been read of it. -/
def numberRest : Bool → Bool → Bool → List Rune → Bool
  | _, _, _, [] => true
  | haveE, haveDot1, haveDot2, r :: s =>
    if isDigit r then numberRest haveE haveDot1 haveDot2 s
    else if r = rune '.' then
      if !haveE && !haveDot1 then numberRest haveE true haveDot2 s
      else if haveE && !haveDot2 then numberRest haveE haveDot1 true s
      else false
    else if r = rune 'e' then !haveE && numberRest true haveDot1 haveDot2 s
    else false

/-- A number literal: a digit or a dot, and digits, dots and an `e` as `lex_number` takes
    them. -/
structure NumberText where
  first : Rune
  rest : List Rune
  start : numstart first = true
  accepted : numberRest false false false rest = true

def NumberText.runes (t : NumberText) : List Rune := t.first :: t.rest

/-- The runes a number consists of. -/
def numberRunes : List Rune := (String.toList "0123456789.e").map rune

theorem mem_numberRunes_of_isDigit {r : Nat} (h : isDigit r = true) : r ∈ numberRunes := by
  have hall : ∀ k : Fin 10, rune '0' + k.val ∈ numberRunes := by decide +kernel
  obtain ⟨hlo, hhi⟩ : 48 ≤ r ∧ r ≤ 57 := of_decide_eq_true h
  have hk := hall ⟨r - 48, by omega⟩
  have hr : rune '0' + (r - 48) = r := Nat.add_sub_cancel' hlo
  rwa [hr] at hk

theorem mem_numberRunes_of_numstart {r : Nat} (h : numstart r = true) : r ∈ numberRunes := by
  rw [numstart, Bool.or_eq_true, beq_iff_eq] at h
  rcases h with h | rfl
  · exact mem_numberRunes_of_isDigit h
  · decide +kernel

theorem mem_numberRunes_of_rest {s : List Rune} {haveE haveDot1 haveDot2 : Bool}
    (h : numberRest haveE haveDot1 haveDot2 s = true) : ∀ r ∈ s, r ∈ numberRunes := by
  induction s generalizing haveE haveDot1 haveDot2 with
  | nil => simp
  | cons q s ih =>
    rw [numberRest] at h
    have hdot : rune '.' ∈ numberRunes := by decide +kernel
    have he : rune 'e' ∈ numberRunes := by decide +kernel
    have hboth : q ∈ numberRunes ∧ ∀ r ∈ s, r ∈ numberRunes := by
      split_ifs at h with hdigit hq h1 h2 hqe
      · exact ⟨mem_numberRunes_of_isDigit hdigit, ih h⟩
      · exact ⟨hq ▸ hdot, ih h⟩
      · exact ⟨hq ▸ hdot, ih h⟩
      · exact ⟨hqe ▸ he, ih (Bool.and_eq_true _ _ ▸ h).2⟩
    intro r hr
    rcases List.mem_cons.mp hr with rfl | hr
    · exact hboth.1
    · exact hboth.2 r hr

theorem NumberText.mem_numberRunes (t : NumberText) : ∀ r ∈ t.runes, r ∈ numberRunes := by
  intro r hr
  rcases List.mem_cons.mp hr with rfl | hr
  · exact mem_numberRunes_of_numstart t.start
  · exact mem_numberRunes_of_rest t.accepted r hr

theorem numberRunes_plain : ∀ r ∈ numberRunes, IsRune r ∧ tolowerrune r = r ∧
    isspacerune r = false ∧ r ≠ rune '\x7b' := by
  decide +kernel

/-- The loop of `lex_number` takes the rest of a number, and stops in front of what is no part
    of one. -/
theorem lexNumberLoop_rest {s : List Rune} {haveE haveDot1 haveDot2 : Bool} {fuel : Nat} {l : Lexer}
    {r : Nat} {text : CStr} (hend : firstRune text ∉ numberRunes) (hr : IsRune r)
    (hs : ∀ q ∈ s, IsRune q)
    (h : numberRest haveE haveDot1 haveDot2 s = true) (hl : l.At (encode (r :: s) ++ text))
    (hfuel : s.length < fuel) : lexNumberLoop fuel haveE haveDot1 haveDot2 l =
      .ok (nextrune^[(r :: s).length] l) := by
  induction s generalizing haveE haveDot1 haveDot2 fuel l r with
  | nil =>
    obtain ⟨fuel, rfl⟩ := Nat.exists_eq_succ_of_ne_zero (Nat.ne_zero_of_lt hfuel)
    rw [encode_cons, List.append_assoc] at hl
    obtain ⟨hnext, -⟩ := hl.next hr
    replace hend : (nextrune l).peek ∉ numberRunes := hnext.peek ▸ hend
    have hdigit : ¬ isDigit (nextrune l).peek = true := fun h => hend (mem_numberRunes_of_isDigit h)
    have hdot : (nextrune l).peek ≠ rune '.' := by
      intro h
      rw [h] at hend
      exact hend (by decide +kernel)
    have he : (nextrune l).peek ≠ rune 'e' := by
      intro h
      rw [h] at hend
      exact hend (by decide +kernel)
    rw [lexNumberLoop]
    simp only [if_neg hdigit, if_neg hdot, if_neg he, ite_self]
    rfl
  | cons q s ih =>
    obtain ⟨fuel, rfl⟩ := Nat.exists_eq_succ_of_ne_zero (Nat.ne_zero_of_lt hfuel)
    have hq := hs q List.mem_cons_self
    rw [encode_cons, List.append_assoc] at hl
    obtain ⟨hnext, -⟩ := hl.next hr
    have hpeek : (nextrune l).peek = q := by
      rw [hnext.peek, encode_cons, List.append_assoc, firstRune_runetochar hq]
    have hgo : ∀ {haveE haveDot1 haveDot2}, numberRest haveE haveDot1 haveDot2 s = true →
        lexNumberLoop fuel haveE haveDot1 haveDot2 (nextrune l) =
          .ok (nextrune^[(r :: q :: s).length] l) := by
      intro haveE haveDot1 haveDot2 h
      exact ih hq (fun p hp => hs p (List.mem_cons_of_mem q hp)) h hnext
        (Nat.lt_of_succ_lt_succ hfuel)
    rw [numberRest] at h
    rw [lexNumberLoop]
    simp only [hpeek, if_neg hq.1]
    split_ifs at h ⊢ with hdigit hdot h1 h2 he h3
    · exact hgo h
    · exact hgo h
    · exact hgo h
    · exact hgo (Bool.and_eq_true _ _ ▸ h).2
    · simp_all

/-- A number is taken whole. -/
theorem lexerNexttok_numberText (t : NumberText) {l : Lexer} {text : CStr}
    (hend : firstRune text ∉ numberRunes) (htpeek : l.tpeek = none)
    (hl : l.At (encode t.runes ++ text)) : ∃ l', lexerNexttok l =
      .ok (some { start := encode t.runes, type := .number }, l') ∧ l'.At text := by
  have hplain : ∀ r ∈ t.runes, IsRune r ∧ tolowerrune r = r ∧ isspacerune r = false ∧
      r ≠ rune '\x7b' :=
    fun r hr => numberRunes_plain r (t.mem_numberRunes r hr)
  have hrune : ∀ r ∈ t.runes, IsRune r := fun r hr => (hplain r hr).1
  obtain ⟨hfirst, -, hspace, hcomment⟩ := hplain t.first List.mem_cons_self
  have hpeek : l.peek = t.first := by
    rw [hl.peek, NumberText.runes, encode_cons, List.append_assoc, firstRune_runetochar hfirst]
  obtain ⟨hl', hpos⟩ := hl.iterate hrune
  have hfuel : t.rest.length < l.len + 1 := by
    have hle := length_le_encode t.runes
    have hsub := hl.len_sub
    have hlen : t.runes.length = t.rest.length + 1 := rfl
    rw [List.length_append] at hsub
    omega
  have hloop := lexNumberLoop_rest hend hfirst
    (fun q hq => hrune q (List.mem_cons_of_mem _ hq)) t.accepted hl hfuel
  have htext := tokenText_at hl hl' (iterate_nextrune_src _ l) hpos
  have hnum : lexNumber l = .ok ({ start := encode t.runes, type := .number },
      nextrune^[t.runes.length] l) := by
    simp only [lexNumber, bind, Except.bind, hloop]
    rw [← NumberText.runes, htext]
    rfl
  rw [lexerNexttok_number htpeek hpeek hfirst.1 hspace hcomment t.start, hnum]
  exact ⟨_, rfl, hl'⟩

theorem EndsWord.not_mem_numberRunes {text : CStr} (h : EndsWord text) :
    firstRune text ∉ numberRunes := by
  rcases h with h | h
  · rw [h]
    decide +kernel
  · rw [h]
    decide +kernel

theorem number_lexeme (t : NumberText) : Lexeme t.runes (.num (encode t.runes)) := by
  have hplain : ∀ r ∈ t.runes, IsRune r ∧ tolowerrune r = r ∧ isspacerune r = false ∧
      r ≠ rune '\x7b' :=
    fun r hr => numberRunes_plain r (t.mem_numberRunes r hr)
  obtain ⟨-, -, hspace, hcomment⟩ := hplain t.first List.mem_cons_self
  refine ⟨fun r hr => (hplain r hr).1, ?_, ⟨t.first, rfl, hspace, hcomment⟩, ?_⟩
  · exact (List.map_congr_left fun r hr => (hplain r hr).2.1).trans (List.map_id _)
  · intro l text hend htpeek hl
    rcases lexerNexttok_numberText t hend.not_mem_numberRunes htpeek hl with ⟨l', htok, hl'⟩
    exact ⟨_, l', htok, rfl, hl'⟩

/-! ### Words -/

/-- A letter or an underscore, and letters, underscores and digits, in lower case. -/
structure WordText where
  runes : List Rune
  start : ∃ r ∈ runes.head?, identstart r = true ∧ r ≠ rune '\x22'
  accepted : ∀ r ∈ runes.tail, identRune r = true
  isRune : ∀ r ∈ runes, IsRune r
  lower : Utf.lower runes = runes

theorem not_identstart_of_isspacerune {r : Nat} (h : isspacerune r = true) :
    identstart r = false := by
  have hall : ∀ r ∈ space2.flatMap (fun p => List.range' p.1 (p.2 + 1 - p.1)),
      identstart r = false := by
    decide +kernel
  rw [isspacerune] at h
  cases hp : bsearch (·.1) r space2 with
  | none =>
    rw [hp] at h
    cases h
  | some p =>
    rw [hp] at h
    obtain ⟨hlo, hhi⟩ : r ≥ p.1 ∧ r ≤ p.2 := of_decide_eq_true h
    refine hall r (List.mem_flatMap.mpr ⟨p, mem_of_bsearch hp, List.mem_range'_1.mpr ⟨hlo, ?_⟩⟩)
    exact Nat.lt_of_le_of_lt hhi (by omega)

theorem plain_of_identstart {r : Nat} (h : identstart r = true) :
    isspacerune r = false ∧ r ≠ rune '\x7b' := by
  constructor
  · rw [Bool.eq_false_iff]
    intro hspace
    rw [not_identstart_of_isspacerune hspace] at h
    cases h
  · rintro rfl
    exact absurd h (by decide +kernel)

theorem word_lexeme (t : WordText) : Lexeme t.runes (classifyWord (encode t.runes)).symbol := by
  obtain ⟨runes, ⟨r, hr, hstart, hquote⟩, haccepted, hrune, hlower⟩ := t
  obtain ⟨rest, rfl⟩ : ∃ rest, runes = r :: rest := by
    cases runes with
    | nil => cases hr
    | cons q rest => exact ⟨rest, by rw [Option.mem_some_iff.mp hr]⟩
  obtain ⟨hspace, hcomment⟩ := plain_of_identstart hstart
  have hfirst := hrune r List.mem_cons_self
  refine ⟨hrune, hlower, ⟨r, rfl, hspace, hcomment⟩, fun l text hend htpeek hl => ?_⟩
  change l.At (encode (r :: rest) ++ text) at hl
  have hpeek : l.peek = r := by
    rw [hl.peek, encode_cons, List.append_assoc, firstRune_runetochar hfirst]
  have hunquoted : (l.peek == rune '\x22') = false := by
    rw [hpeek]
    exact beq_eq_false_iff_ne.mpr hquote
  have hword : ∀ q ∈ rest, IsRune q ∧ wordRune false q = true := by
    intro q hq
    have hq' : identRune q = true := haccepted q hq
    exact ⟨hrune q (List.mem_cons_of_mem r hq), by rw [wordRune, hq', Bool.true_or]⟩
  obtain ⟨hl', hpos⟩ := hl.iterate hrune
  obtain ⟨k, hk⟩ : ∃ k, l.len + 1 = rest.length + (k + 1) := by
    have hle := length_le_encode (r :: rest)
    have hsub := hl.len_sub
    rw [List.length_append] at hsub
    rw [List.length_cons] at hle
    exact ⟨l.len - rest.length, by omega⟩
  have hloop : lexIdentLoop false (l.len + 1) l = .ok (nextrune^[(r :: rest).length] l) := by
    rw [hk, lexIdentLoop_pass hfirst hword hl, lexIdentLoop_stop]
    · rw [← Function.iterate_succ_apply' nextrune]
      rfl
    · rw [← Function.iterate_succ_apply' nextrune]
      have hnext : (nextrune^[(r :: rest).length] l).peek = 0 ∨
          (nextrune^[(r :: rest).length] l).peek = rune ' ' := by
        rw [hl'.peek]
        exact hend
      rw [List.length_cons] at hnext
      rcases hnext with hnext | hnext
      · exact .inl hnext
      · exact .inr ⟨by rw [hnext]; decide +kernel, rfl⟩
  have htext := tokenText_at hl hl' (iterate_nextrune_src _ l) hpos
  have hident : lexIdent l = .ok (classifyWord (encode (r :: rest)),
      nextrune^[(r :: rest).length] l) := by
    simp only [lexIdent, hunquoted, Bool.false_eq_true, if_false, bind, Except.bind, hloop, htext]
    rfl
  rw [lexerNexttok_ident htpeek hpeek hfirst.1 hspace hcomment hstart, hident]
  exact ⟨_, _, rfl, rfl, hl'⟩

/-- A word that is neither reserved nor an operator. -/
structure IdentText extends WordText where
  not_reserved : encode runes ∉ RESERVED
  not_operator : ∀ w ∈ OP_WORDS, encode runes ≠ w.1

theorem ident_lexeme (t : IdentText) : Lexeme t.runes (.ident (encode t.runes)) := by
  have hops : OP_WORDS.find? (fun w => encode t.runes == w.1) = none := by
    rw [List.find?_eq_none]
    intro w hw heq
    exact t.not_operator w hw (beq_iff_eq.mp heq)
  have hreserved : RESERVED.contains (encode t.runes) = false := by
    rw [Bool.eq_false_iff]
    exact fun hmem => t.not_reserved (List.contains_iff_mem.mp hmem)
  have hword : classifyWord (encode t.runes) = { start := encode t.runes, type := .ident } := by
    simp only [classifyWord, hops, hreserved, Bool.false_eq_true, if_false]
  have hlex := word_lexeme t.toWordText
  rw [hword] at hlex
  exact hlex

/-- An identifier is stored as it is written. -/
theorem canonicalize_ident (t : IdentText) :
    canonicalize (encode t.runes) = some (encode t.runes) := by
  obtain ⟨r, hr, hstart, hquote⟩ := t.start
  have hno : ∀ b : UInt8, b.toNat < Tx → identRune b.toNat = false → b.toNat ≠ r →
      b ∉ encode t.runes := by
    intro b hascii hident hne
    refine not_mem_encode t.isRune hascii fun hmem => ?_
    cases hruns : t.runes with
    | nil => simp [hruns] at hmem
    | cons q rest =>
      obtain rfl : q = r := by simpa [hruns] using hr
      rw [hruns] at hmem
      rcases List.mem_cons.mp hmem with h | h
      · exact hne h
      · have hq := t.accepted b.toNat (by rw [hruns]; exact h)
        rw [hident] at hq
        cases hq
  have hne : ∀ b : Nat, identstart b = false → b ≠ r := by
    rintro b hb rfl
    rw [hb] at hstart
    cases hstart
  have hlow : utf8Tolower (encode t.runes) = some (encode t.runes) := by
    rw [utf8Tolower_encode t.isRune, t.lower, List.drop_length, List.append_nil]
  have hhead : (encode t.runes).head? ≠ some 0x22 := fun h =>
    hno 0x22 (by decide) (by decide +kernel) (Ne.symm hquote) (List.mem_of_mem_head? h)
  have hback : (0x5C : UInt8) ∉ encode t.runes :=
    hno 0x5C (by decide) (by decide +kernel) (hne _ (by decide +kernel))
  rw [canonicalize_plain hhead hlow hback]
  refine congrArg some ((List.map_congr_left fun b hb => ?_).trans (List.map_id _))
  refine if_neg ?_
  rintro (rfl | rfl | rfl)
  · exact hno 0x0A (by decide) (by decide +kernel) (hne _ (by decide +kernel)) hb
  · exact hno 0x0D (by decide) (by decide +kernel) (hne _ (by decide +kernel)) hb
  · exact hno 0x20 (by decide) (by decide +kernel) (hne _ (by decide +kernel)) hb

/-! ### Operators and brackets -/

/-- The runes that are tokens by themselves. -/
def symbolRunes : List Rune := (String.toList "^!*/%+-><≥≤=≠&|(),").map rune

/-- The operators of two runes, with what they stand for. -/
def twoRuneOps : List (List Rune × Rune) :=
  [([rune '>', rune '='], rune '≥'), ([rune '<', rune '='], rune '≤'),
    ([rune '<', rune '>'], rune '≠'), ([rune '=', rune '='], rune '=')]

/-- The operators that are words. -/
def wordOps : List (List Rune × Rune) :=
  [((String.toList "not").map rune, rune '!'), ((String.toList "and").map rune, rune '&'),
    ((String.toList "or").map rune, rune '|'), ((String.toList "mod").map rune, rune '%')]

/-- How an operator can be written. -/
def spellings : List (List Rune × Rune) :=
  symbolRunes.map (fun r => ([r], r)) ++ (twoRuneOps ++ wordOps)

theorem symbol_lexeme {r : Rune} (h : r ∈ symbolRunes) : Lexeme [r] (.op r) := by
  have hall : ∀ r ∈ symbolRunes, IsRune r ∧ tolowerrune r = r ∧ isspacerune r = false ∧
      r ≠ rune '\x7b' ∧ numstart r = false ∧ identstart r = false ∧ (opTail r).contains 0 = false ∧
      (opTail r).contains (rune ' ') = false ∧ firstRune (shortenOp (runetochar r)) = r := by
    decide +kernel
  obtain ⟨hrune, hlower, hspace, hcomment, hnum, hident, hzero, hblank, hfirst⟩ := hall r h
  refine ⟨by simpa using hrune, congrArg (fun r => [r]) hlower, ⟨r, rfl, hspace, hcomment⟩,
    fun l text hend htpeek hl => ?_⟩
  rw [encode_cons, encode_nil, List.append_nil] at hl
  have hpeek : l.peek = r := hl.peek.trans (firstRune_runetochar hrune text)
  obtain ⟨hl', -⟩ := hl.next hrune
  have htwo : (opTail r).contains (nextrune l).peek = false := by
    rw [hl'.peek]
    rcases hend with hend | hend
    · rw [hend, hzero]
    · rw [hend, hblank]
  have htake : (runetochar r ++ text).take (runelen r) = runetochar r := List.take_left
  have hop : lexOp l = ({ start := shortenOp (runetochar r), type := .token }, nextrune l) := by
    simp only [lexOp, hpeek, htwo, Bool.false_eq_true, if_false, hl.drop, htake]
  rw [lexerNexttok_op htpeek hpeek hrune.1 hspace hcomment hnum hident, hop]
  exact ⟨_, _, rfl, congrArg Symbol.op hfirst, hl'⟩

theorem twoRune_lexeme {p : List Rune × Rune} (h : p ∈ twoRuneOps) : Lexeme p.1 (.op p.2) := by
  have hall : ∀ p ∈ twoRuneOps, ∃ r ∈ p.1.head?, ∃ q ∈ p.1.getLast?, p.1 = [r, q] ∧ IsRune r ∧
      IsRune q ∧ tolowerrune r = r ∧ tolowerrune q = q ∧ isspacerune r = false ∧ r ≠ rune '\x7b' ∧
      numstart r = false ∧ identstart r = false ∧ (opTail r).contains q = true ∧ runelen q = 1 ∧
      firstRune (shortenOp (encode [r, q])) = p.2 := by
    decide +kernel
  obtain ⟨w, o⟩ := p
  obtain ⟨r, -, q, -, hw, hr, hq, hlr, hlq, hspace, hcomment, hnum, hident, htail, hlen, hfirst⟩ :=
    hall _ h
  obtain rfl : w = [r, q] := hw
  refine ⟨by simpa using ⟨hr, hq⟩, ?_, ⟨r, rfl, hspace, hcomment⟩, fun l text hend htpeek hl => ?_⟩
  · simp only [Utf.lower, List.map_cons, hlr, hlq, List.map_nil]
  have henc : encode [r, q] = runetochar r ++ runetochar q := by
    rw [encode_cons, encode_cons, encode_nil, List.append_nil]
  have hlen' : (encode [r, q]).length = runelen r + 1 := by
    rw [henc, List.length_append]
    exact congrArg (runelen r + ·) hlen
  have hdrop : l.src.drop l.pos = encode [r, q] ++ text := hl.drop
  rw [henc, List.append_assoc] at hl
  have hpeek : l.peek = r := hl.peek.trans (firstRune_runetochar hr _)
  obtain ⟨hl1, -⟩ := hl.next hr
  have hpeek1 : (nextrune l).peek = q := hl1.peek.trans (firstRune_runetochar hq text)
  obtain ⟨hl2, -⟩ := hl1.next hq
  have htake : (encode [r, q] ++ text).take (runelen r + 1) = encode [r, q] := by
    rw [← hlen', List.take_left]
  have hop : lexOp l = ({ start := shortenOp (encode [r, q]), type := .token },
      nextrune (nextrune l)) := by
    simp only [lexOp, hpeek, hpeek1, htail, if_true, hdrop, htake]
  rw [lexerNexttok_op htpeek hpeek hr.1 hspace hcomment hnum hident, hop]
  exact ⟨_, _, rfl, congrArg Symbol.op hfirst, hl2⟩

theorem wordOp_lexeme {p : List Rune × Rune} (h : p ∈ wordOps) : Lexeme p.1 (.op p.2) := by
  have hall : ∀ p ∈ wordOps, (∃ r ∈ p.1.head?, identstart r = true ∧ r ≠ rune '\x22') ∧
      (∀ r ∈ p.1.tail, identRune r = true) ∧ (∀ r ∈ p.1, IsRune r) ∧ Utf.lower p.1 = p.1 ∧
      (classifyWord (encode p.1)).symbol = .op p.2 := by
    decide +kernel
  obtain ⟨hstart, haccepted, hrune, hlower, hsym⟩ := hall p h
  have hlex := word_lexeme ⟨p.1, hstart, haccepted, hrune, hlower⟩
  rw [hsym] at hlex
  exact hlex

theorem op_lexeme {p : List Rune × Rune} (h : p ∈ spellings) : Lexeme p.1 (.op p.2) := by
  rcases List.mem_append.mp h with h | h
  · obtain ⟨r, hr, rfl⟩ := List.mem_map.mp h
    exact symbol_lexeme hr
  · rcases List.mem_append.mp h with h | h
    · exact twoRune_lexeme h
    · exact wordOp_lexeme h

/-- The reserved words. -/
theorem reserved_lexeme {s : String} (h : s ∈ ["if", "then", "else"]) :
    Lexeme (s.toList.map rune) (.word (cstr s)) := by
  have hall : ∀ s ∈ ["if", "then", "else"],
      (∃ r ∈ (s.toList.map rune).head?, identstart r = true ∧ r ≠ rune '\x22') ∧
      (∀ r ∈ (s.toList.map rune).tail, identRune r = true) ∧ (∀ r ∈ s.toList.map rune, IsRune r) ∧
      Utf.lower (s.toList.map rune) = s.toList.map rune ∧
      (classifyWord (encode (s.toList.map rune))).symbol = .word (cstr s) := by
    decide +kernel
  obtain ⟨hstart, haccepted, hrune, hlower, hsym⟩ := hall s h
  have hlex := word_lexeme ⟨s.toList.map rune, hstart, haccepted, hrune, hlower⟩
  rw [hsym] at hlex
  exact hlex

end Libsd

/-
  Libsd/Scanner.lean
  ==================
  **The lexer as a function of the text.**

  `scan` cuts a list of runes into tokens, with no positions, no peeking and no buffers: it
  drops white space and comments, sees by the first rune what kind of token there is, and
  takes as many runes as belong to it.  The lexer returns just these tokens (`lexes_scan`).
-/
import Libsd.LexerTiles
import Libsd.LexerWords

namespace Libsd

open Utf Outcome

/-! ### Scanning -/

/-- The text behind white space and comments; the flag says whether it starts in a comment. -/
def skipGap : Bool → List Rune → List Rune
  | _, [] => []
  | true, r :: s => skipGap (r != rune '\x7d') s
  | false, r :: s =>
    if r = rune '\x7b' then skipGap true s
    else if isspacerune r then skipGap false s
    else r :: s

/-- How many runes go on with a number, of which some has been read. -/
def numberLen : Bool → Bool → Bool → List Rune → Nat
  | _, _, _, [] => 0
  | haveE, haveDot1, haveDot2, r :: s =>
    if isDigit r then numberLen haveE haveDot1 haveDot2 s + 1
    else if r = rune '.' then
      if !haveE && !haveDot1 then numberLen haveE true haveDot2 s + 1
      else if haveE && !haveDot2 then numberLen haveE haveDot1 true s + 1
      else 0
    else if r = rune 'e' then
      if !haveE then numberLen true haveDot1 haveDot2 s + 1
      else 0
    else 0

/-- How many runes go on with a word, with its closing quote. -/
def wordLen (quoted : Bool) : List Rune → Nat
  | [] => 0
  | r :: s =>
    if wordRune quoted r then wordLen quoted s + 1
    else if quoted && r == rune '\x22' then 1
    else 0

/-- How many runes a token has that starts with `r`; whatever is behind an opening quote
    belongs to the word. -/
def tokenLen (r : Rune) (s : List Rune) : Nat :=
  if numstart r then numberLen false false false s + 1
  else if identstart r then
    if r = rune '\x22' then wordLen true s.tail + 2 else wordLen false s + 1
  else if (opTail r).contains (s.headD 0) then 2
  else 1

/-- The token that a run is, by its first rune. -/
def tokenOf (r : Rune) (w : List Rune) : Token :=
  if numstart r then { start := encode w, type := .number }
  else if identstart r then classifyWord (encode w)
  else { start := shortenOp (encode w), type := .token }

def scanToken (s : List Rune) : Option (Token × List Rune) :=
  match skipGap false s with
  | [] => none
  | r :: s => some (tokenOf r ((r :: s).take (tokenLen r s)), (r :: s).drop (tokenLen r s))

def scanFrom : Nat → List Rune → List Token
  | 0, _ => []
  | n + 1, s =>
    match scanToken s with
    | none => []
    | some (t, rest) => t :: scanFrom n rest

/-- Every token takes a rune at least. -/
def scan (s : List Rune) : List Token := scanFrom s.length s

example : (scan ((String.toList "a \x7bb\x7d>= \x22\x7bc\x22").map rune)).map (fun t => t.start) =
    [cstr "a", cstr "≥", cstr "\x22\x7bc\x22"] := by
  decide +kernel

/-! ### What is left is a part of the text -/

theorem skipGap_suffix (c : Bool) (s : List Rune) : skipGap c s <:+ s := by
  induction s generalizing c with
  | nil =>
    cases c <;> exact List.suffix_refl []
  | cons r s ih =>
    cases c with
    | true => exact (ih _).trans (List.suffix_cons r s)
    | false =>
      rw [skipGap]
      split_ifs
      · exact (ih true).trans (List.suffix_cons r s)
      · exact (ih false).trans (List.suffix_cons r s)
      · exact List.suffix_refl _

theorem tokenLen_pos (r : Rune) (s : List Rune) : 0 < tokenLen r s := by
  rw [tokenLen]
  split_ifs <;> omega

theorem scanToken_rest {s rest : List Rune} {t : Token} (h : scanToken s = some (t, rest)) :
    rest <:+ s ∧ rest.length < s.length := by
  rw [scanToken] at h
  split at h
  · cases h
  · next r s1 heq =>
    obtain ⟨-, rfl⟩ := Prod.mk.inj (Option.some.inj h)
    have hsuffix : (r :: s1) <:+ s := heq ▸ skipGap_suffix false s
    have hle := hsuffix.length_le
    have hpos := tokenLen_pos r s1
    refine ⟨(List.drop_suffix _ _).trans hsuffix, ?_⟩
    rw [List.length_drop]
    rw [List.length_cons] at hle ⊢
    omega

/-! ### Gaps -/

theorem skipGap_turn {c : Bool} {r : Rune} {s : List Rune}
    (hgo : (!c && r != rune '\x7b' && !isspacerune r) = false) :
    skipGap c (r :: s) = skipGap (if c then r != rune '\x7d' else r == rune '\x7b') s := by
  cases c with
  | true => rfl
  | false =>
    rw [skipGap]
    by_cases hr : r = rune '\x7b'
    · subst hr
      rfl
    · have hother : (r != rune '\x7b') = true := bne_iff_ne.mpr hr
      have hplain : (r == rune '\x7b') = false := beq_eq_false_iff_ne.mpr hr
      rw [hother] at hgo
      have hspace : isspacerune r = true := by simpa using hgo
      rw [if_neg hr, if_pos hspace, if_neg Bool.false_ne_true, hplain]

theorem skipWhitespaceLoop_skipGap {fuel : Nat} {c : Bool} {s : List Rune}
    (hs : ∀ r ∈ s, IsRune r) {l : Lexer} (h : l.At (encode s)) (hfuel : s.length < fuel)
    (hc : c = true → s ≠ []) :
    ∃ l', skipWhitespaceLoop fuel c l = .ok l' ∧ l'.At (encode (skipGap c s)) ∧
      l'.tpeek = l.tpeek := by
  induction fuel generalizing c s l with
  | zero => exact absurd hfuel (Nat.not_lt_zero _)
  | succ fuel ih =>
    have hpeek := peek_of_at hs h
    cases s with
    | nil =>
      obtain rfl : c = false := by
        cases c with
        | false => rfl
        | true => exact absurd rfl (hc rfl)
      refine ⟨l, ?_, h, rfl⟩
      rw [skipWhitespaceLoop, hpeek]
      rfl
    | cons r s =>
      have hs' : ∀ q ∈ s, IsRune q := fun q hq => hs q (List.mem_cons_of_mem r hq)
      have hnext := passed_nextrune (hs r List.mem_cons_self) h
      rw [List.headD_cons] at hpeek
      rw [skipWhitespaceLoop, hpeek]
      cases hstop : (!c && r != rune '\x7b' && !isspacerune r) with
      | true =>
        obtain ⟨⟨rfl, hr⟩, hspace⟩ : (c = false ∧ r ≠ rune '\x7b') ∧ isspacerune r = false := by
          simpa using hstop
        have hstay : skipGap false (r :: s) = r :: s := by
          rw [skipGap, if_neg hr, hspace, if_neg Bool.false_ne_true]
        exact ⟨l, if_pos rfl, hstay.symm ▸ h, rfl⟩
      | false =>
        rw [if_neg Bool.false_ne_true, peek_of_at hs' hnext.front, skipGap_turn hstop]
        cases s with
        | nil => exact ⟨nextrune l, if_pos rfl, hnext.front, hnext.tpeek⟩
        | cons q s =>
          have hq := hs' q List.mem_cons_self
          rw [List.headD_cons, if_neg hq.1]
          obtain ⟨l', hskip, hl', htpeek⟩ := ih hs' hnext.front (Nat.lt_of_succ_lt_succ hfuel)
            fun _ => List.cons_ne_nil q s
          exact ⟨l', hskip, hl', htpeek.trans hnext.tpeek⟩

/-! ### Tokens -/

/-- What the loops of the lexer find behind the current rune. -/
theorem peek_nextrune {l : Lexer} {s : List Rune} (hs : ∀ r ∈ s, IsRune r)
    (h : l.At (encode s)) : (nextrune l).peek = s.tail.headD 0 ∧
      (nextrune l).At (encode s.tail) := by
  have hpassed := passed_iterate hs h 1
  rw [List.drop_one] at hpassed
  exact ⟨peek_of_at (fun r hr => hs r (List.mem_of_mem_tail hr)) hpassed.front, hpassed.front⟩

theorem lexNumberLoop_numberLen {fuel : Nat} {haveE haveDot1 haveDot2 : Bool} {s : List Rune}
    (hs : ∀ r ∈ s, IsRune r) {l : Lexer} (h : l.At (encode s)) (hfuel : s.tail.length < fuel) :
    lexNumberLoop fuel haveE haveDot1 haveDot2 l =
      .ok (nextrune^[numberLen haveE haveDot1 haveDot2 s.tail + 1] l) := by
  induction fuel generalizing haveE haveDot1 haveDot2 s l with
  | zero => exact absurd hfuel (Nat.not_lt_zero _)
  | succ fuel ih =>
    obtain ⟨hpeek, hnext⟩ := peek_nextrune hs h
    have hs' : ∀ r ∈ s.tail, IsRune r := fun r hr => hs r (List.mem_of_mem_tail hr)
    rw [lexNumberLoop, hpeek]
    generalize s.tail = u at *
    cases u with
    | nil => exact if_pos rfl
    | cons q u =>
      have hq := hs' q List.mem_cons_self
      have hrest : ∀ e d1 d2, lexNumberLoop fuel e d1 d2 (nextrune l) =
          .ok (nextrune^[numberLen e d1 d2 u + 1 + 1] l) :=
        fun e d1 d2 => ih hs' hnext (Nat.lt_of_succ_lt_succ hfuel)
      rw [List.headD_cons, if_neg hq.1, numberLen]
      simp only [hrest]
      split_ifs <;> rfl

theorem lexIdentLoop_wordLen {quoted : Bool} {fuel : Nat} {s : List Rune}
    (hs : ∀ r ∈ s, IsRune r) {l : Lexer} (h : l.At (encode s)) (hfuel : s.tail.length < fuel) :
    lexIdentLoop quoted fuel l = .ok (nextrune^[wordLen quoted s.tail + 1] l) := by
  induction fuel generalizing s l with
  | zero => exact absurd hfuel (Nat.not_lt_zero _)
  | succ fuel ih =>
    obtain ⟨hpeek, hnext⟩ := peek_nextrune hs h
    have hs' : ∀ r ∈ s.tail, IsRune r := fun r hr => hs r (List.mem_of_mem_tail hr)
    generalize s.tail = u at *
    cases u with
    | nil => exact lexIdentLoop_stop (.inl hpeek)
    | cons q u =>
      have hq := hs' q List.mem_cons_self
      rw [List.headD_cons] at hpeek
      rw [wordLen]
      by_cases hword : wordRune quoted q = true
      · rw [lexIdentLoop_step (hpeek ▸ hq.1) (hpeek ▸ hword), if_pos hword]
        exact ih hs' hnext (Nat.lt_of_succ_lt_succ hfuel)
      · rw [if_neg hword]
        cases hquote : quoted && q == rune '\x22' with
        | true =>
          obtain ⟨rfl, rfl⟩ : quoted = true ∧ q = rune '\x22' := by simpa using hquote
          exact lexIdentLoop_quote hpeek
        | false =>
          exact lexIdentLoop_stop (.inr ⟨hpeek ▸ Bool.eq_false_iff.mpr hword, hpeek ▸ hquote⟩)

section
variable {l : Lexer} {r : Nat} {s : List Rune} (hs : ∀ q ∈ r :: s, IsRune q)
  (h : l.At (encode (r :: s)))
include hs h

theorem lexNumber_numberLen : lexNumber l =
    .ok ({ start := encode ((r :: s).take (numberLen false false false s + 1)), type := .number },
      nextrune^[numberLen false false false s + 1] l) := by
  have hsub := h.len_sub
  have hlen := length_le_encode (r :: s)
  have hfuel : s.length < l.len + 1 := by
    rw [List.length_cons] at hlen
    omega
  rw [lexNumber, bind_of_ok (lexNumberLoop_numberLen hs h hfuel)]
  exact bind_of_ok (tokenText_passed hs h _) _

theorem lexIdent_tokenLen (hnum : numstart r = false) (hident : identstart r = true) : lexIdent l =
    .ok (classifyWord (encode ((r :: s).take (tokenLen r s))), nextrune^[tokenLen r s] l) := by
  have hpeek : l.peek = r := peek_of_at hs h
  have hs' : ∀ q ∈ s, IsRune q := fun q hq => hs q (List.mem_cons_of_mem r hq)
  obtain ⟨-, hnext⟩ := peek_nextrune hs h
  have hsub := h.len_sub
  have hlen := length_le_encode (r :: s)
  rw [List.length_cons] at hlen
  rw [lexIdent, hpeek, tokenLen, hnum, if_neg Bool.false_ne_true, if_pos hident]
  by_cases hr : r = rune '\x22'
  · have hquoted : (r == rune '\x22') = true := beq_iff_eq.mpr hr
    have hfuel : s.tail.length < (nextrune l).len + 1 := by
      rw [nextrune_len, List.length_tail]
      omega
    have hloop : lexIdentLoop true ((nextrune l).len + 1) (nextrune l) =
        .ok (nextrune^[wordLen true s.tail + 2] l) := lexIdentLoop_wordLen hs' hnext hfuel
    rw [hquoted, if_pos hr, if_pos rfl, bind_of_ok hloop]
    exact bind_of_ok (tokenText_passed hs h _) _
  · have hplain : (r == rune '\x22') = false := beq_eq_false_iff_ne.mpr hr
    have hfuel : s.length < l.len + 1 := by omega
    have hloop : lexIdentLoop false (l.len + 1) l = .ok (nextrune^[wordLen false s + 1] l) :=
      lexIdentLoop_wordLen hs h hfuel
    rw [hplain, if_neg hr, if_neg Bool.false_ne_true, bind_of_ok hloop]
    exact bind_of_ok (tokenText_passed hs h _) _

theorem lexOp_tokenLen (hnum : numstart r = false) (hident : identstart r = false) : lexOp l =
    ({ start := shortenOp (encode ((r :: s).take (tokenLen r s))), type := .token },
      nextrune^[tokenLen r s] l) := by
  have hpeek : l.peek = r := peek_of_at hs h
  obtain ⟨hpeek', -⟩ := peek_nextrune hs h
  rw [List.tail_cons] at hpeek'
  rw [lexOp, hpeek, hpeek', h.drop, tokenLen, hnum, hident, if_neg Bool.false_ne_true,
    if_neg Bool.false_ne_true]
  cases htwo : (opTail r).contains (s.headD 0) with
  | false =>
    have htext : (encode (r :: s)).take (runelen r) = encode ((r :: s).take 1) := by
      rw [encode_cons, List.take_succ_cons, List.take_zero, encode_cons, encode_nil,
        List.append_nil]
      exact List.take_left
    simp only [Bool.false_eq_true, if_false, htext]
    rfl
  | true =>
    obtain ⟨hrune, hlen⟩ := runelen_opTail (List.contains_iff_mem.mp htwo)
    cases s with
    | nil => exact absurd rfl hrune.1
    | cons q s =>
      rw [List.headD_cons] at hlen
      have htext : (encode (r :: q :: s)).take (runelen r + 1) = encode ((r :: q :: s).take 2) := by
        have hsplit : encode (r :: q :: s) = (runetochar r ++ runetochar q) ++ encode s := by
          rw [encode_cons, encode_cons, List.append_assoc]
        have hboth : runelen r + 1 = (runetochar r ++ runetochar q).length := by
          rw [List.length_append, ← hlen]
          rfl
        rw [hsplit, hboth, List.take_left]
        simp only [List.take_succ_cons, List.take_zero, encode_cons, encode_nil, List.append_nil]
      simp only [if_true, htext]
      rfl

end

theorem lexerNexttok_scanToken {l : Lexer} {s : List Rune} (hs : ∀ r ∈ s, IsRune r)
    (htpeek : l.tpeek = none) (h : l.At (encode s)) :
    match scanToken s with
    | none => ∃ l', lexerNexttok l = .ok (none, l')
    | some (t, rest) =>
      ∃ l', lexerNexttok l = .ok (some t, l') ∧ l'.tpeek = none ∧ l'.At (encode rest) := by
  have hsub := h.len_sub
  have hlen := length_le_encode s
  have hfuel : s.length < l.len + 1 := by omega
  obtain ⟨l1, hskip, hl1, htpeek1⟩ := skipWhitespaceLoop_skipGap (c := false) hs h hfuel
    fun hc => absurd hc Bool.false_ne_true
  have hs1 : ∀ r ∈ skipGap false s, IsRune r := fun r hr => hs r ((skipGap_suffix false s).mem hr)
  have hpeek := peek_of_at hs1 hl1
  have hnext := lexerNexttok_of_skipped htpeek hskip
  rw [scanToken]
  generalize skipGap false s = u at *
  cases u with
  | nil => exact ⟨l1, hnext.trans (if_pos hpeek)⟩
  | cons r u =>
    have hr := hs1 r List.mem_cons_self
    rw [List.headD_cons] at hpeek
    rw [hpeek, if_neg hr.1] at hnext
    have hpassed := passed_iterate hs1 hl1 (tokenLen r u)
    refine ⟨nextrune^[tokenLen r u] l1, ?_, hpassed.tpeek.trans (htpeek1.trans htpeek),
      hpassed.front⟩
    rw [hnext, tokenOf]
    cases hnum : numstart r with
    | true =>
      have hlen : tokenLen r u = numberLen false false false u + 1 := by
        rw [tokenLen, hnum, if_pos rfl]
      rw [if_pos rfl, if_pos rfl, lexNumber_numberLen hs1 hl1, hlen]
      rfl
    | false =>
      rw [if_neg Bool.false_ne_true, if_neg Bool.false_ne_true]
      cases hident : identstart r with
      | true =>
        rw [if_pos rfl, if_pos rfl, lexIdent_tokenLen hs1 hl1 hnum hident]
        rfl
      | false =>
        rw [if_neg Bool.false_ne_true, if_neg Bool.false_ne_true,
          lexOp_tokenLen hs1 hl1 hnum hident]

/-! ### The whole text -/

theorem lexes_scanFrom {n : Nat} {l : Lexer} {s : List Rune} (hs : ∀ r ∈ s, IsRune r)
    (htpeek : l.tpeek = none) (h : l.At (encode s)) (hn : s.length ≤ n) :
    Lexes l (scanFrom n s) := by
  induction n generalizing l s with
  | zero =>
    obtain rfl : s = [] := List.eq_nil_of_length_eq_zero (Nat.le_zero.mp hn)
    obtain ⟨l', hend⟩ := lexerNexttok_scanToken hs htpeek h
    exact .eof hend
  | succ n ih =>
    have htok := lexerNexttok_scanToken hs htpeek h
    rw [scanFrom]
    cases hscan : scanToken s with
    | none =>
      rw [hscan] at htok
      obtain ⟨l', hend⟩ := htok
      exact .eof hend
    | some p =>
      obtain ⟨t, rest⟩ := p
      rw [hscan] at htok
      obtain ⟨l', hok, htpeek', hl'⟩ := htok
      obtain ⟨hsuffix, hlt⟩ := scanToken_rest hscan
      exact .tok hok (ih (fun r hr => hs r (hsuffix.mem hr)) htpeek' hl' (by omega))

theorem Lexes.unique {l : Lexer} {ts ts' : List Token} (h : Lexes l ts) (h' : Lexes l ts') :
    ts = ts' := by
  induction h generalizing ts' with
  | eof h =>
    cases h' with
    | eof => rfl
    | tok h' => cases h.symm.trans h'
  | tok h _ ih =>
    cases h' with
    | eof h' => cases h.symm.trans h'
    | tok h' hs' =>
      cases h.symm.trans h'
      rw [ih hs']

/-- From every state that stands at a rune of its text of less than 2^31 bytes, with nothing
    peeked at, the lexer returns what `scan` cuts the text into. -/
theorem lexes_scan {l : Lexer} {s : List Rune} (hs : ∀ r ∈ s, IsRune r) (htpeek : l.tpeek = none)
    (h : l.At (encode s)) (ts : List Token) : Lexes l ts ↔ ts = scan s := by
  have hscan : Lexes l (scan s) := lexes_scanFrom hs htpeek h (Nat.le_refl _)
  exact ⟨fun hl => hl.unique hscan, fun heq => heq ▸ hscan⟩

theorem lexes_scan_comment : Lexes (atStart ((String.toList "a \x7bb\x7d>=1\x7b").map rune))
      [⟨cstr "a", .ident⟩, ⟨cstr "≥", .token⟩, ⟨cstr "1", .number⟩] ↔
    [⟨cstr "a", .ident⟩, ⟨cstr "≥", .token⟩, ⟨cstr "1", .number⟩] =
      scan ((String.toList "a \x7bb\x7d>=1\x7b").map rune) :=
  lexes_scan (by decide +kernel) rfl ⟨rfl, Nat.zero_le _, rfl, rfl⟩ _

end Libsd

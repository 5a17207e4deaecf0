/-
  Libsd/LowerTokens.lean
  ======================
  **Tokens in lower case.**

  The lexer walks a lowered copy, but takes its first rune from the text as it was given.
  `İ` is the only rune whose lower case is shorter: without it the copy is the lowered text,
  the first rune is passed over alike in either case, and the tokens are the same
  (`sameTokens_of_not_mem`).  With it, bytes of the given text are left over at the end of
  the copy.
-/
import Libsd.LexerTiles
import Libsd.LexerWords

namespace Libsd

open Utf Outcome

/-- The text and the same text in lower case have the same tokens. -/
def SameTokens (s : List Rune) : Prop :=
  ∃ l l' ts, lexerInit (encode s) = .ok l ∧ lexerInit (encode (lower s)) = .ok l' ∧
    Lexes l ts ∧ Lexes l' ts

/-! ### The first rune -/

/-- A letter, or an underscore: it starts a word that is not in quotes. -/
structure WordStart (r : Nat) : Prop where
  ident : identstart r = true
  plain : r ≠ rune '\x22'

theorem lowerPairs_wordStart : ∀ p ∈ lowerPairs,
    (identstart p.1 = true ∧ p.1 ≠ rune '\x22') ∧ identstart p.2 = true ∧ p.2 ≠ rune '\x22' := by
  decide +kernel

/-- Only letters have a lower case, and it is a letter. -/
theorem wordStart_of_tolowerrune {r : Nat} (h : tolowerrune r ≠ r) :
    WordStart r ∧ WordStart (tolowerrune r) := by
  have hpair := (tolowerrune_cases r).resolve_left h
  rcases lowerPairs_wordStart _ hpair with ⟨⟨hident, hplain⟩, hident', hplain'⟩
  exact ⟨⟨hident, hplain⟩, hident', hplain'⟩

/-- `nextrune` asks for the length of the rune only. -/
theorem nextrune_recased {l : Lexer} {q : Rune} (hlen : runelen q = runelen l.peek) :
    nextrune { l with peek := q } = nextrune l := by
  rw [nextrune, nextrune]
  dsimp only
  rw [hlen]

theorem lexIdent_recased {l : Lexer} {q : Rune} (hlen : runelen q = runelen l.peek)
    (hl : l.peek ≠ rune '\x22') (hq : q ≠ rune '\x22') :
    lexIdent { l with peek := q } = lexIdent l := by
  have hloop : lexIdentLoop false (l.len + 1) { l with peek := q } =
      lexIdentLoop false (l.len + 1) l := by
    rw [lexIdentLoop, lexIdentLoop, nextrune_recased hlen]
  have hql : (q == rune '\x22') = false := beq_eq_false_iff_ne.mpr hq
  have hll : (l.peek == rune '\x22') = false := beq_eq_false_iff_ne.mpr hl
  rw [lexIdent, lexIdent]
  simp only [hql, hll, Bool.false_eq_true, if_false]
  rw [hloop]

/-- Letters of one length start the same word. -/
theorem lexerNexttok_recased {l : Lexer} {q : Nat} (htpeek : l.tpeek = none)
    (hlen : runelen q = runelen l.peek) (hl : WordStart l.peek) (hq : WordStart q) :
    lexerNexttok { l with peek := q } = lexerNexttok l := by
  have hzero : ∀ {r : Nat}, WordStart r → r ≠ 0 := by
    rintro r hr rfl
    exact absurd hr.ident (by decide +kernel)
  rcases plain_of_identstart hl.ident with ⟨hspace, hcomment⟩
  rcases plain_of_identstart hq.ident with ⟨hspace', hcomment'⟩
  rw [lexerNexttok_ident htpeek rfl (hzero hl) hspace hcomment hl.ident,
    lexerNexttok_ident (l := { l with peek := q }) htpeek rfl (hzero hq) hspace' hcomment' hq.ident,
    lexIdent_recased hlen hl.plain hq.plain]

theorem Lexes.congr {l l' : Lexer} {ts : List Token} (h : Lexes l ts)
    (heq : lexerNexttok l' = lexerNexttok l) : Lexes l' ts := by
  cases h with
  | eof h => exact .eof (heq.trans h)
  | tok h hs => exact .tok (heq.trans h) hs

/-! ### The copy -/

/-- Where the lexer starts: the copy is the lowered text and what is left over of the text. -/
theorem lexerInit_encode {s : List Rune} (hs : ∀ r ∈ s, IsRune r) :
    ∃ l, lexerInit (encode s) = .ok l ∧ l.tpeek = none ∧ l.pos = 0 ∧ l.len = (encode s).length ∧
      l.src = encode (lower s) ++ (encode s).drop (encode (lower s)).length ∧
      l.peek = s.headD 0 := by
  have hlen : (encode (lower s) ++ (encode s).drop (encode (lower s)).length).length =
      (encode s).length := by
    rw [List.length_append, List.length_drop]
    exact Nat.add_sub_cancel' (length_encode_lower_le s)
  have hpeek : firstRune (encode s) = s.headD 0 := firstRune_encode hs
  rw [lexerInit, utf8Tolower_encode hs]
  refine ⟨_, rfl, rfl, rfl, hlen, rfl, ?_⟩
  rw [← hpeek, hlen]
  rfl

/-- Without `İ` nothing is left over, and only the first rune is not lowered. -/
theorem lexerInit_recased {s : List Rune} (hs : ∀ r ∈ s, IsRune r) (h : dottedI ∉ s) :
    ∃ l, lexerInit (encode (lower s)) = .ok l ∧ l.tpeek = none ∧ l.At (encode (lower s)) ∧
      l.peek = tolowerrune (s.headD 0) ∧
      lexerInit (encode s) = .ok { l with peek := s.headD 0 } := by
  have hlength := (length_encode_lower_iff s).mpr h
  have hsrc : utf8Tolower (encode s) = some (encode (lower s)) := by
    rw [utf8Tolower_encode hs, hlength, List.drop_length, List.append_nil]
  have hsrc' : utf8Tolower (encode (lower s)) = some (encode (lower s)) := by
    rw [utf8Tolower_encode (isRune_lower hs), lower_lower, List.drop_length, List.append_nil]
  have hpeek : firstRune (encode s) = s.headD 0 := firstRune_encode hs
  have hpeek' : firstRune (encode (lower s)) = (lower s).headD 0 :=
    firstRune_encode (isRune_lower hs)
  have hzero : tolowerrune 0 = 0 := by decide +kernel
  have hhead : (lower s).headD 0 = tolowerrune (s.headD 0) := by
    cases s with
    | nil => exact hzero.symm
    | cons r s => rfl
  refine ⟨{ src := encode (lower s), peek := firstRune (encode (lower s)),
            len := (encode (lower s)).length, pos := 0, tpeek := none }, ?_, rfl,
    ⟨rfl, Nat.zero_le _, rfl, rfl⟩, hpeek'.trans hhead, ?_⟩
  · rw [lexerInit, hsrc']
    rfl
  · rw [lexerInit, hsrc, ← hpeek]
    dsimp only
    rw [hlength]
    rfl

/-- **Without `İ` the case of the letters does not matter.** -/
theorem sameTokens_of_not_mem {s : List Rune} (hs : ∀ r ∈ s, IsRune r) (h : dottedI ∉ s) :
    SameTokens s := by
  rcases lexerInit_recased hs h with ⟨l, hinit', htpeek, hl, hpeek, hinit⟩
  rcases tiles_ahead (isRune_lower hs) htpeek hl with ⟨ts, -, hlexes, -⟩
  refine ⟨_, l, ts, hinit, hinit', hlexes.congr ?_, hlexes⟩
  by_cases hfirst : tolowerrune (s.headD 0) = s.headD 0
  · have hsame : { l with peek := s.headD 0 } = l := by rw [← hfirst, ← hpeek]
    rw [hsame]
  · rcases wordStart_of_tolowerrune hfirst with ⟨hupper, hlower⟩
    have hne : s.headD 0 ≠ dottedI := by
      cases s with
      | nil => decide
      | cons r s => exact fun heq => h (heq ▸ List.mem_cons_self)
    refine lexerNexttok_recased htpeek ?_ (hpeek ▸ hlower) hupper
    rw [hpeek]
    exact (runelen_tolowerrune hne).symm

/-- The copy is the lowered text just when there is no `İ`. -/
theorem copy_lower_iff {s : List Rune} (hs : ∀ r ∈ s, IsRune r) :
    (∃ l, lexerInit (encode s) = .ok l ∧ l.src = encode (lower s)) ↔ dottedI ∉ s := by
  rcases lexerInit_encode hs with ⟨l, hinit, -, -, -, hsrc, -⟩
  rw [← length_encode_lower_iff]
  constructor
  · rintro ⟨l', hinit', hsrc'⟩
    obtain rfl := Except.ok.inj (hinit.symm.trans hinit')
    have hlen := congrArg List.length (hsrc.symm.trans hsrc')
    rw [List.length_append, List.length_drop] at hlen
    have hle := length_encode_lower_le s
    omega
  · intro h
    rw [h, List.drop_length, List.append_nil] at hsrc
    exact ⟨l, hinit, hsrc⟩

/-- A text of less than 2^31 bytes and its copy stay in step just when there is no `İ`; and
    then **the case of the letters does not matter**. -/
theorem tokens_lower {s : List Rune} (hs : ∀ r ∈ s, IsRune r) :
    ((∃ l, lexerInit (encode s) = .ok l ∧ l.src = encode (lower s)) ↔ dottedI ∉ s) ∧
      (dottedI ∉ s → SameTokens s) :=
  ⟨copy_lower_iff hs, sameTokens_of_not_mem hs⟩

theorem tokens_lower_upper : SameTokens ((String.toList "Éa NOT ≥ C").map rune) :=
  (tokens_lower (by decide +kernel)).2 (by decide +kernel)

/-- The lowered `aİb` is a byte shorter, and its last byte is there once more. -/
theorem dottedI_not_sameTokens : ¬ SameTokens [rune 'a', dottedI, rune 'b'] := by
  have hinit : lexerInit (encode [rune 'a', dottedI, rune 'b']) =
      .ok { src := cstr "aibb", peek := rune 'a', len := 4, pos := 0, tpeek := none } := by
    decide +kernel
  have hinit' : lexerInit (encode (lower [rune 'a', dottedI, rune 'b'])) =
      .ok { src := cstr "aib", peek := rune 'a', len := 3, pos := 0, tpeek := none } := by
    decide +kernel
  have htok : lexerNexttok
      { src := cstr "aibb", peek := rune 'a', len := 4, pos := 0, tpeek := none } =
      .ok (some { start := cstr "aibb", type := .ident },
        { src := cstr "aibb", peek := 0, len := 4, pos := 4, tpeek := none }) := by
    decide +kernel
  have htok' : lexerNexttok
      { src := cstr "aib", peek := rune 'a', len := 3, pos := 0, tpeek := none } =
      .ok (some { start := cstr "aib", type := .ident },
        { src := cstr "aib", peek := 0, len := 3, pos := 3, tpeek := none }) := by
    decide +kernel
  rintro ⟨l, l', ts, hl, hl', hlexes, hlexes'⟩
  obtain rfl := Except.ok.inj (hinit.symm.trans hl)
  obtain rfl := Except.ok.inj (hinit'.symm.trans hl')
  cases hlexes with
  | eof h => cases htok.symm.trans h
  | tok h _ =>
    obtain ⟨ht, -⟩ := Prod.mk.inj (Except.ok.inj (htok.symm.trans h))
    obtain rfl := Option.some.inj ht
    cases hlexes' with
    | tok h' _ =>
      obtain ⟨ht', -⟩ := Prod.mk.inj (Except.ok.inj (htok'.symm.trans h'))
      have hstart := congrArg Token.start (Option.some.inj ht')
      revert hstart
      decide +kernel

end Libsd

/-
  Libsd/LexerTokens.lean
  ======================
  **The token sequence a lexer is about to produce.**

  `Lexes l ts` holds when repeated `lexerNexttok` on `l` returns the tokens `ts`
  and then `SD_ERR_EOF`.  Peeking does not change the sequence
  (`lexerPeek_cons`, `lexerPeek_nil`), and a sequence is no longer than the text
  that is left (`Lexes.length_le`), because every token starts at a rune inside
  the text and moves past it.
-/
import Libsd.Lib.Outcome
import Libsd.Parse
import Mathlib.Logic.Function.Iterate

namespace Libsd

open Utf Outcome

/-- `Lexes l ts`: the tokens `lexerNexttok` returns from `l` on are `ts`. -/
inductive Lexes : Lexer → List Token → Prop where
  | eof {l l' : Lexer} (h : lexerNexttok l = .ok (none, l')) : Lexes l []
  | tok {l l' : Lexer} {t : Token} {ts : List Token} (h : lexerNexttok l = .ok (some t, l'))
      (hs : Lexes l' ts) : Lexes l (t :: ts)

/-- The token sequence by running the lexer. -/
def lexAll : Nat → Lexer → Option (List Token)
  | 0, _ => none
  | fuel + 1, l =>
    match lexerNexttok l with
    | .ok (none, _) => some []
    | .ok (some t, l') => (lexAll fuel l').map (t :: ·)
    | .error _ => none

theorem Lexes.of_lexAll (fuel : Nat) {l : Lexer} {ts : List Token}
    (h : lexAll fuel l = some ts) : Lexes l ts := by
  induction fuel generalizing l ts with
  | zero => simp [lexAll] at h
  | succ fuel ih =>
    simp only [lexAll] at h
    split at h
    · next h' =>
      obtain rfl : [] = ts := by simpa using h
      exact .eof h'
    · next t l' h' =>
      obtain ⟨us, hus, rfl⟩ := Option.map_eq_some_iff.mp h
      exact .tok h' (ih hus)
    · simp at h

/-! ### Every lexer step is a number of `nextrune` -/

/-- The rune in `peek`, when there is one, is inside the text. -/
def Lexer.AtRune (l : Lexer) : Prop := l.peek ≠ 0 → l.pos < l.len

@[simp] theorem nextrune_len (l : Lexer) : (nextrune l).len = l.len := by
  unfold nextrune; split <;> rfl

@[simp] theorem nextrune_tpeek (l : Lexer) : (nextrune l).tpeek = l.tpeek := by
  unfold nextrune; split <;> rfl

theorem nextrune_pos_le (l : Lexer) : l.pos ≤ (nextrune l).pos := by
  unfold nextrune; split
  · exact Nat.le_add_right _ _
  · exact le_rfl

theorem nextrune_pos_lt {l : Lexer} (h : l.pos < l.len) : l.pos < (nextrune l).pos := by
  rw [nextrune, if_pos h]
  exact Nat.lt_add_of_pos_right (runelen_pos _)

theorem nextrune_atRune (l : Lexer) : (nextrune l).AtRune := by
  intro h
  unfold nextrune at h ⊢
  split at h
  · next hlt =>
    simp only [if_pos hlt]
    -- past the end nothing is decoded, and `peek` is 0
    by_contra hge
    have hsub : l.len - (l.pos + runelen l.peek) = 0 := by omega
    simp [hsub, charntorune_zero] at h
  · simp at h

theorem iterate_nextrune (n : Nat) {l : Lexer} (h : l.AtRune) :
    (nextrune^[n] l).len = l.len ∧ (nextrune^[n] l).tpeek = l.tpeek ∧
      l.pos ≤ (nextrune^[n] l).pos ∧ (nextrune^[n] l).AtRune := by
  induction n with
  | zero => exact ⟨rfl, rfl, le_rfl, h⟩
  | succ n ih =>
    obtain ⟨hlen, htp, hpos, -⟩ := ih
    rw [Function.iterate_succ_apply']
    exact ⟨(nextrune_len _).trans hlen, (nextrune_tpeek _).trans htp,
      hpos.trans (nextrune_pos_le _), nextrune_atRune _⟩

theorem skipWhitespaceLoop_steps {fuel : Nat} {c : Bool} {l l' : Lexer}
    (h : skipWhitespaceLoop fuel c l = .ok l') : ∃ n, l' = nextrune^[n] l := by
  induction fuel generalizing c l with
  | zero => simp [skipWhitespaceLoop] at h
  | succ fuel ih =>
    simp only [skipWhitespaceLoop] at h
    split at h
    · exact ⟨0, (Except.ok.inj h).symm⟩
    · split at h
      · exact ⟨1, (Except.ok.inj h).symm⟩
      · obtain ⟨n, rfl⟩ := ih h
        exact ⟨n + 1, rfl⟩

theorem lexNumberLoop_steps {fuel : Nat} {e d1 d2 : Bool} {l l' : Lexer}
    (h : lexNumberLoop fuel e d1 d2 l = .ok l') : ∃ n, l' = nextrune^[n + 1] l := by
  induction fuel generalizing e d1 d2 l with
  | zero => simp [lexNumberLoop] at h
  | succ fuel ih =>
    have hstop : (Except.ok (nextrune l) : Except Stop Lexer) = .ok l' →
        ∃ n, l' = nextrune^[n + 1] l := fun h => ⟨0, (Except.ok.inj h).symm⟩
    have hgo : ∀ {e d1 d2}, lexNumberLoop fuel e d1 d2 (nextrune l) = .ok l' →
        ∃ n, l' = nextrune^[n + 1] l := by
      intro e d1 d2 h
      obtain ⟨n, rfl⟩ := ih h
      exact ⟨n + 1, rfl⟩
    simp only [lexNumberLoop] at h
    split_ifs at h
    all_goals first | exact hstop h | exact hgo h

theorem lexIdentLoop_steps {q : Bool} {fuel : Nat} {l l' : Lexer}
    (h : lexIdentLoop q fuel l = .ok l') : ∃ n, l' = nextrune^[n + 1] l := by
  induction fuel generalizing l with
  | zero => simp [lexIdentLoop] at h
  | succ fuel ih =>
    have hstop : (Except.ok (nextrune l) : Except Stop Lexer) = .ok l' →
        ∃ n, l' = nextrune^[n + 1] l := fun h => ⟨0, (Except.ok.inj h).symm⟩
    have hgo : lexIdentLoop q fuel (nextrune l) = .ok l' → ∃ n, l' = nextrune^[n + 1] l := by
      intro h
      obtain ⟨n, rfl⟩ := ih h
      exact ⟨n + 1, rfl⟩
    simp only [lexIdentLoop] at h
    split_ifs at h
    all_goals first | exact hstop h | exact hgo h | exact ⟨1, (Except.ok.inj h).symm⟩

theorem lexNumber_steps {l l' : Lexer} {t : Token} (h : lexNumber l = .ok (t, l')) :
    ∃ n, l' = nextrune^[n + 1] l := by
  simp only [lexNumber, bind, Except.bind] at h
  split at h
  · simp at h
  · next l1 hl1 =>
    split at h
    · simp at h
    · obtain ⟨-, rfl⟩ : _ ∧ l1 = l' := by simpa [pure, Except.pure] using h
      exact lexNumberLoop_steps hl1

theorem lexIdent_steps {l l' : Lexer} {t : Token} (h : lexIdent l = .ok (t, l')) :
    ∃ n, l' = nextrune^[n + 1] l := by
  simp only [lexIdent, bind, Except.bind] at h
  split at h
  · simp at h
  · next l1 hl1 =>
    split at h
    · simp at h
    · obtain ⟨-, rfl⟩ : _ ∧ l1 = l' := by simpa [pure, Except.pure] using h
      obtain ⟨n, rfl⟩ := lexIdentLoop_steps hl1
      split
      · exact ⟨n + 1, rfl⟩
      · exact ⟨n, rfl⟩

theorem lexOp_steps (l : Lexer) : ∃ n, (lexOp l).2 = nextrune^[n + 1] l := by
  simp only [lexOp]
  split
  · exact ⟨1, rfl⟩
  · exact ⟨0, rfl⟩

/-- Where the white space ends the kind of the token is decided. -/
theorem lexerNexttok_of_skipped {l l1 : Lexer} (hp : l.tpeek = none)
    (hskip : skipWhitespace l = .ok l1) : lexerNexttok l =
      if l1.peek = 0 then .ok (none, l1)
      else if numstart l1.peek then (lexNumber l1).map fun p => (some p.1, p.2)
      else if identstart l1.peek then (lexIdent l1).map fun p => (some p.1, p.2)
      else .ok (some (lexOp l1).1, (lexOp l1).2) := by
  simp only [lexerNexttok, hp, hskip, bind, Except.bind]
  split
  · rfl
  · split
    · cases lexNumber l1 <;> rfl
    · split
      · cases lexIdent l1 <;> rfl
      · rfl

theorem skipWhitespace_of_nexttok {l : Lexer} {r : Option Token × Lexer} (hp : l.tpeek = none)
    (h : lexerNexttok l = .ok r) : ∃ l1, skipWhitespace l = .ok l1 := by
  rw [lexerNexttok, hp] at h
  rcases bind_eq_ok h with ⟨l1, hskip, -⟩
  exact ⟨l1, hskip⟩

/-- What a call that finds no buffered token does: it skips to a rune that starts
    a token and moves past it, or it skips to the end. -/
theorem lexerNexttok_cases {l l' : Lexer} {o : Option Token} (hp : l.tpeek = none)
    (h : lexerNexttok l = .ok (o, l')) :
    ∃ n, (o = none ∧ l' = nextrune^[n] l ∧ l'.peek = 0) ∨
      (o ≠ none ∧ (nextrune^[n] l).peek ≠ 0 ∧ ∃ m, l' = nextrune^[m + 1] (nextrune^[n] l)) := by
  obtain ⟨l1, hskip⟩ := skipWhitespace_of_nexttok hp h
  obtain ⟨n, rfl⟩ := skipWhitespaceLoop_steps hskip
  refine ⟨n, ?_⟩
  rw [lexerNexttok_of_skipped hp hskip] at h
  split at h
  · next hz =>
    cases h
    exact .inl ⟨rfl, rfl, hz⟩
  · next hz =>
    right
    split at h
    · rcases map_eq_ok h with ⟨r, hr, hok⟩
      cases hok
      exact ⟨Option.some_ne_none _, hz, lexNumber_steps hr⟩
    · split at h
      · rcases map_eq_ok h with ⟨r, hr, hok⟩
        cases hok
        exact ⟨Option.some_ne_none _, hz, lexIdent_steps hr⟩
      · cases h
        exact ⟨Option.some_ne_none _, hz, lexOp_steps _⟩

/-! ### Length -/

/-- A token is taken from the text that is left. -/
theorem lexerNexttok_progress {l l' : Lexer} {t : Token} (hp : l.tpeek = none) (ha : l.AtRune)
    (h : lexerNexttok l = .ok (some t, l')) :
    l'.tpeek = none ∧ l'.AtRune ∧ l'.len - l'.pos < l.len - l.pos := by
  obtain ⟨n, ⟨ho, -⟩ | ⟨-, hz, m, rfl⟩⟩ := lexerNexttok_cases hp h
  · simp at ho
  · obtain ⟨hlen, htp, hpos, ha1⟩ := iterate_nextrune n ha
    obtain ⟨hlen', htp', hpos', ha'⟩ := iterate_nextrune m (nextrune_atRune (nextrune^[n] l))
    have hin := ha1 hz
    have hlt := nextrune_pos_lt hin
    rw [Function.iterate_succ_apply]
    refine ⟨by rw [htp', nextrune_tpeek, htp, hp], ha', ?_⟩
    rw [hlen', nextrune_len]
    omega

theorem Lexes.length_le {l : Lexer} {ts : List Token} (h : Lexes l ts) (hp : l.tpeek = none)
    (ha : l.AtRune) : ts.length ≤ l.len - l.pos := by
  induction h with
  | eof => simp
  | @tok l l' t ts h hs ih =>
    obtain ⟨hp', ha', hlt⟩ := lexerNexttok_progress hp ha h
    have := ih hp' ha'
    rw [List.length_cons]
    omega

theorem lexerInit_spec {src : CStr} {l : Lexer} (h : lexerInit src = .ok l) :
    l.tpeek = none ∧ l.pos = 0 ∧ l.AtRune := by
  simp only [lexerInit] at h
  split at h
  · simp at h
  · next s hs =>
    obtain rfl := (Except.ok.inj h).symm
    refine ⟨rfl, rfl, fun hz => ?_⟩
    by_contra hlen
    obtain hlen : s.length = 0 := by simpa using hlen
    simp [hlen, charntorune_zero] at hz

/-! ### Peeking -/

theorem lexerNexttok_of_tpeek {l : Lexer} {t : Token} (h : l.tpeek = some t) :
    lexerNexttok l = .ok (some t, { l with tpeek := none }) := by
  simp only [lexerNexttok, h]

/-- At the end of the text the lexer stays there. -/
theorem lexerNexttok_of_peek_zero {l : Lexer} (hp : l.tpeek = none) (h : l.peek = 0) :
    lexerNexttok l = .ok (none, l) := by
  have hs : isspacerune 0 = false := by decide
  simp [lexerNexttok, hp, skipWhitespace, skipWhitespaceLoop, h, rune, hs, bind, Except.bind,
    pure, Except.pure]

theorem lexerNexttok_tpeek {l l' : Lexer} {o : Option Token} (h : lexerNexttok l = .ok (o, l')) :
    l'.tpeek = none := by
  cases hp : l.tpeek with
  | some t =>
    rw [lexerNexttok_of_tpeek hp] at h
    cases h
    rfl
  | none =>
    have hn : ∀ n, (nextrune^[n] l).tpeek = none := by
      intro n
      induction n with
      | zero => exact hp
      | succ n ih => rw [Function.iterate_succ_apply', nextrune_tpeek, ih]
    obtain ⟨n, ⟨-, rfl, -⟩ | ⟨-, -, m, rfl⟩⟩ := lexerNexttok_cases hp h
    · exact hn n
    · rw [← Function.iterate_add_apply]
      exact hn _

end Libsd

/-
  Libsd/LexerTotal.lean
  =====================
  **The lexer comes to an end.**

  Each turn of a lexer loop moves at least one byte, and so does each token.
  `tokensLeft l` counts the tokens that the lexer has yet to return.
-/
import Libsd.Lib.Outcome
import Libsd.LexerTokens

namespace Libsd

open Utf Outcome

/-- The call ends; what it returns satisfies `P`. -/
abbrev Returns {α : Type} (P : α → Prop) (x : Except Stop α) : Prop := Ends P (· ≠ .diverge) x

/-! ### The loops of the lexer -/

theorem nextrune_of_end {l : Lexer} (h : ¬ l.pos < l.len) : (nextrune l).peek = 0 := by
  rw [nextrune, if_neg h]

/-- A turn that does not come to the end of the text leaves less of it. -/
theorem nextrune_lt {l : Lexer} (h : (nextrune l).peek ≠ 0) :
    (nextrune l).len - (nextrune l).pos < l.len - l.pos := by
  have hlt : l.pos < l.len := by
    by_contra hge
    exact h (nextrune_of_end hge)
  have hpos := nextrune_pos_lt hlt
  rw [nextrune_len]
  omega

theorem skipWhitespaceLoop_ok {fuel : Nat} {c : Bool} {l : Lexer} (h : l.len - l.pos < fuel) :
    ∃ l', skipWhitespaceLoop fuel c l = .ok l' := by
  induction fuel generalizing c l with
  | zero => omega
  | succ fuel ih =>
    simp only [skipWhitespaceLoop]
    by_cases hz : (nextrune l).peek = 0
    · rw [if_pos hz]
      split_ifs <;> exact ⟨_, rfl⟩
    · have hgo : ∀ c, ∃ l', skipWhitespaceLoop fuel c (nextrune l) = .ok l' := fun _ =>
        ih ((nextrune_lt hz).trans_le (by omega))
      rw [if_neg hz]
      split_ifs
      all_goals first | exact hgo _ | exact ⟨_, rfl⟩

theorem lexNumberLoop_ok {fuel : Nat} {e d1 d2 : Bool} {l : Lexer} (h : l.len - l.pos < fuel) :
    ∃ l', lexNumberLoop fuel e d1 d2 l = .ok l' := by
  induction fuel generalizing e d1 d2 l with
  | zero => omega
  | succ fuel ih =>
    simp only [lexNumberLoop]
    by_cases hz : (nextrune l).peek = 0
    · rw [if_pos hz]
      exact ⟨_, rfl⟩
    · have hgo : ∀ {e d1 d2}, ∃ l', lexNumberLoop fuel e d1 d2 (nextrune l) = .ok l' :=
        ih ((nextrune_lt hz).trans_le (by omega))
      rw [if_neg hz]
      split_ifs
      all_goals first | exact hgo | exact ⟨_, rfl⟩

theorem lexIdentLoop_ok {q : Bool} {fuel : Nat} {l : Lexer} (h : l.len - l.pos < fuel) :
    ∃ l', lexIdentLoop q fuel l = .ok l' := by
  induction fuel generalizing l with
  | zero => omega
  | succ fuel ih =>
    simp only [lexIdentLoop]
    by_cases hz : (nextrune l).peek = 0
    · rw [if_pos hz]
      exact ⟨_, rfl⟩
    · have hgo : ∃ l', lexIdentLoop q fuel (nextrune l) = .ok l' :=
        ih ((nextrune_lt hz).trans_le (by omega))
      rw [if_neg hz]
      split_ifs
      all_goals first | exact hgo | exact ⟨_, rfl⟩

theorem tokenText_returns (l : Lexer) (pos : Nat) : Returns (fun _ => True) (tokenText l pos) := by
  rw [tokenText]
  split_ifs
  · trivial
  · exact fun h => by cases h

theorem lexNumber_returns (l : Lexer) : Returns (fun _ => True) (lexNumber l) := by
  obtain ⟨l1, hl1⟩ : ∃ l1, lexNumberLoop (l.len + 1) false false false l = .ok l1 :=
    lexNumberLoop_ok (by omega)
  rw [lexNumber, bind_of_ok hl1]
  exact (tokenText_returns _ _).bind fun _ _ => trivial

theorem lexIdent_returns (l : Lexer) : Returns (fun _ => True) (lexIdent l) := by
  have hlen : (if l.peek == rune '\x22' then nextrune l else l).len = l.len := by
    split
    · exact nextrune_len l
    · rfl
  obtain ⟨l1, hl1⟩ : ∃ l1, lexIdentLoop (l.peek == rune '\x22')
      ((if l.peek == rune '\x22' then nextrune l else l).len + 1)
      (if l.peek == rune '\x22' then nextrune l else l) = .ok l1 := lexIdentLoop_ok (by omega)
  rw [lexIdent, bind_of_ok hl1]
  exact (tokenText_returns _ _).bind fun _ _ => trivial

theorem lexerNexttok_returns (l : Lexer) : Returns (fun _ => True) (lexerNexttok l) := by
  unfold lexerNexttok
  split
  · trivial
  · obtain ⟨l1, hl1⟩ : ∃ l1, skipWhitespace l = .ok l1 := skipWhitespaceLoop_ok (by omega)
    rw [bind_of_ok hl1]
    split_ifs
    · trivial
    · exact (lexNumber_returns l1).bind fun _ _ => trivial
    · exact (lexIdent_returns l1).bind fun _ _ => trivial
    · trivial

/-! ### The tokens that are left -/

/-- At most so many tokens: one for each byte that is left, and the buffered one. -/
def ahead (l : Lexer) : Nat := l.len - l.pos + if l.tpeek.isSome then 1 else 0

/-- A call of `lexer_nexttok` leaves less in front of it when it returns a token. -/
theorem lexerNexttok_ahead {l l' : Lexer} {o : Option Token} (ha : l.AtRune)
    (h : lexerNexttok l = .ok (o, l')) :
    l'.AtRune ∧ ahead l' + (if o.isSome then 1 else 0) ≤ ahead l := by
  cases hp : l.tpeek with
  | some t =>
    rw [lexerNexttok_of_tpeek hp] at h
    cases h
    refine ⟨ha, ?_⟩
    simp only [ahead, hp, Option.isSome_some, Option.isSome_none, Bool.false_eq_true, if_true,
      if_false, Nat.add_zero, Nat.le_refl]
  | none =>
    have htpeek' := lexerNexttok_tpeek h
    rcases lexerNexttok_cases hp h with ⟨n, ⟨ho, hl', -⟩ | ⟨-, hz, m, hl'⟩⟩
    · rcases iterate_nextrune n ha with ⟨hlen, -, hpos, hat⟩
      rw [← hl'] at hlen hpos hat
      refine ⟨hat, ?_⟩
      simp only [ahead, hp, htpeek', ho, Option.isSome_none, Bool.false_eq_true, if_false]
      omega
    · -- the token starts inside the text and moves past its first byte
      rcases iterate_nextrune n ha with ⟨hlen, -, hpos, hat⟩
      have hin := hat hz
      have hlt := nextrune_pos_lt hin
      rcases iterate_nextrune m (nextrune_atRune (nextrune^[n] l)) with ⟨hlen', -, hpos', hat'⟩
      rw [← Function.iterate_succ_apply, ← hl'] at hlen' hpos' hat'
      refine ⟨hat', ?_⟩
      rw [nextrune_len, hlen] at hlen'
      rw [hlen] at hin
      simp only [ahead, hp, htpeek', Option.isSome_none, Bool.false_eq_true, if_false]
      split <;> omega

/-- The tokens of so many calls of `lexer_nexttok`. -/
def tokensFrom : Nat → Lexer → Nat
  | 0, _ => 0
  | calls + 1, l =>
    match lexerNexttok l with
    | .ok (some _, l') => tokensFrom calls l' + 1
    | _ => 0

/-- The number of tokens that are left. -/
def tokensLeft (l : Lexer) : Nat := tokensFrom (ahead l) l

/-- More calls than there can be tokens do not matter. -/
theorem tokensFrom_of_le {calls calls' : Nat} {l : Lexer} (ha : l.AtRune) (h : ahead l ≤ calls)
    (h' : ahead l ≤ calls') : tokensFrom calls l = tokensFrom calls' l := by
  have hnone : ∀ {l : Lexer}, l.AtRune → ahead l = 0 → ∀ n, tokensFrom n l = 0 := by
    intro l ha hzero n
    cases n with
    | zero => rfl
    | succ n =>
      rw [tokensFrom]
      split
      · next t l' hnext =>
        have hlt := (lexerNexttok_ahead ha hnext).2
        rw [hzero] at hlt
        exact absurd hlt (Nat.not_succ_le_zero _)
      · rfl
  induction calls generalizing calls' l with
  | zero =>
    have hzero := Nat.le_zero.mp h
    rw [hnone ha hzero, hnone ha hzero]
  | succ calls ih =>
    cases calls' with
    | zero =>
      have hzero := Nat.le_zero.mp h'
      rw [hnone ha hzero, hnone ha hzero]
    | succ calls' =>
      rw [tokensFrom, tokensFrom]
      cases hnext : lexerNexttok l with
      | error e => rfl
      | ok r =>
        rcases r with ⟨_ | t, l'⟩
        · rfl
        · rcases lexerNexttok_ahead ha hnext with ⟨ha', hlt⟩
          rw [Option.isSome_some, if_pos rfl] at hlt
          exact congrArg (· + 1) (ih ha' (by omega) (by omega))

/-- There is a token less. -/
theorem tokensLeft_of_some {l l' : Lexer} {t : Token} (ha : l.AtRune)
    (h : lexerNexttok l = .ok (some t, l')) : tokensLeft l = tokensLeft l' + 1 := by
  rcases lexerNexttok_ahead ha h with ⟨ha', hlt⟩
  rw [Option.isSome_some, if_pos rfl] at hlt
  have hmore : tokensLeft l = tokensFrom (ahead l + 1) l :=
    tokensFrom_of_le ha (Nat.le_refl _) (Nat.le_succ _)
  rw [hmore, tokensFrom, h]
  exact congrArg (· + 1) (tokensFrom_of_le ha' (by omega) (Nat.le_refl _))

theorem tokensLeft_of_none {l l' : Lexer} (ha : l.AtRune) (h : lexerNexttok l = .ok (none, l')) :
    tokensLeft l = 0 := by
  have hmore : tokensLeft l = tokensFrom (ahead l + 1) l :=
    tokensFrom_of_le ha (Nat.le_refl _) (Nat.le_succ _)
  rw [hmore, tokensFrom, h]

/-- It is the length of the sequence that the lexer is about to return. -/
theorem Lexes.tokensLeft_eq {l : Lexer} {ts : List Token} (h : Lexes l ts) (ha : l.AtRune) :
    tokensLeft l = ts.length := by
  induction h with
  | eof h => exact tokensLeft_of_none ha h
  | tok h _ ih =>
    rw [tokensLeft_of_some ha h, ih (lexerNexttok_ahead ha h).1]
    rfl

theorem tokensLeft_le_ahead {l : Lexer} (ha : l.AtRune) : tokensLeft l ≤ ahead l := by
  have hfrom : ∀ calls (l : Lexer), l.AtRune → tokensFrom calls l ≤ ahead l := by
    intro calls
    induction calls with
    | zero => exact fun _ _ => Nat.zero_le _
    | succ calls ih =>
      intro l ha
      rw [tokensFrom]
      split
      · next t l' hnext =>
        rcases lexerNexttok_ahead ha hnext with ⟨ha', hlt⟩
        rw [Option.isSome_some, if_pos rfl] at hlt
        exact Nat.le_trans (Nat.succ_le_succ (ih l' ha')) hlt
      · exact Nat.zero_le _
  exact hfrom _ l ha

/-- Peeking takes no token. -/
theorem lexerPeek_tokensLeft {l : Lexer} (ha : l.AtRune) :
    Returns (fun r => r.2.AtRune ∧ tokensLeft r.2 = tokensLeft l ∧ r.2.tpeek = r.1)
      (lexerPeek l) := by
  rw [lexerPeek]
  split
  · next t ht => exact ⟨ha, rfl, ht⟩
  · next hp =>
    have hnext : Returns (fun r => Lexer.AtRune { r.2 with tpeek := r.1 } ∧
        tokensLeft { r.2 with tpeek := r.1 } = tokensLeft l) (lexerNexttok l) := by
      refine (lexerNexttok_returns l).of_values fun r hr => ?_
      obtain ⟨o, l'⟩ := r
      have ha' := (lexerNexttok_ahead ha hr).1
      have htpeek' := lexerNexttok_tpeek hr
      have hback : { l' with tpeek := none } = l' := by rw [← htpeek']
      refine ⟨ha', ?_⟩
      cases o with
      | none =>
        -- the end is found again
        have hzero : l'.peek = 0 := by
          rcases lexerNexttok_cases hp hr with ⟨n, ⟨-, -, hz⟩ | ⟨hno, -⟩⟩
          · exact hz
          · exact absurd rfl hno
        rw [hback, tokensLeft_of_none ha hr]
        exact tokensLeft_of_none ha' (lexerNexttok_of_peek_zero htpeek' hzero)
      | some t =>
        have hagain : lexerNexttok { l' with tpeek := some t } = .ok (some t, l') := by
          rw [lexerNexttok_of_tpeek rfl]
          exact congrArg (fun l => Except.ok (some t, l)) hback
        rw [tokensLeft_of_some ha hr]
        exact tokensLeft_of_some (l := { l' with tpeek := some t }) ha' hagain
    exact hnext.bind fun r hr => ⟨hr.1, hr.2, rfl⟩

end Libsd

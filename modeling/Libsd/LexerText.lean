/-
  Libsd/LexerText.lean
  ====================
  **The lexer over the runes of its text.**

  `l.At text` says that `text` is what the lexer has in front of it, its first rune in
  `peek`.  `nextrune` takes one rune off (`At.next`), and the loop of `lex_ident` passes
  over the runes of a word (`lexIdentLoop_pass`) up to the first that is no part of it.
-/
import Libsd.LexerTokens
import Libsd.Utf.Encode

namespace Libsd

open Utf

/-- What the lexer has in front of it. -/
structure Lexer.At (l : Lexer) (text : CStr) : Prop where
  len : l.len = l.src.length
  pos : l.pos ≤ l.len
  drop : l.src.drop l.pos = text
  peek : l.peek = firstRune text

theorem firstRune_nil : firstRune [] = 0 := rfl

theorem firstRune_runetochar {r : Nat} (h : IsRune r) (text : CStr) :
    firstRune (runetochar r ++ text) = r := by
  have hlen : runelen r ≤ (runetochar r ++ text).length := by
    rw [List.length_append]
    exact Nat.le_add_right _ _
  rw [firstRune, charntorune_runetochar h.2 text hlen]

theorem firstRune_encode {s : List Rune} (h : ∀ r ∈ s, IsRune r) :
    firstRune (encode s) = s.headD 0 := by
  cases s with
  | nil => rfl
  | cons r s => exact firstRune_runetochar (h r List.mem_cons_self) (encode s)

@[simp] theorem nextrune_src (l : Lexer) : (nextrune l).src = l.src := by
  unfold nextrune
  split <;> rfl

namespace Lexer.At

variable {l : Lexer} {r : Nat} {text : CStr}

theorem len_sub (h : l.At text) : l.len - l.pos = text.length := by
  rw [← h.drop, List.length_drop, h.len]

/-- `nextrune` takes one rune off the text. -/
theorem next (h : l.At (runetochar r ++ text)) (hr : IsRune r) :
    (nextrune l).At text ∧ (nextrune l).pos = l.pos + runelen r := by
  have hpeek : l.peek = r := h.peek.trans (firstRune_runetochar hr text)
  have hsub := h.len_sub
  have hlen : (runetochar r ++ text).length = runelen r + text.length := List.length_append
  have hpos : 0 < runelen r := runelen_pos r
  have hdrop : l.src.drop (l.pos + runelen r) = text := by
    rw [← List.drop_drop, h.drop]
    exact List.drop_left
  have hlt : l.pos < l.len := by omega
  have hrest : l.len - (l.pos + runelen r) = text.length := by omega
  have heq : nextrune l = { l with pos := l.pos + runelen r, peek := firstRune text } := by
    simp only [nextrune, if_pos hlt, hpeek, hdrop, hrest]
    rfl
  rw [heq]
  exact ⟨⟨h.len, show l.pos + runelen r ≤ l.len by omega, hdrop, rfl⟩, rfl⟩

/-- A number of runes is taken off. -/
theorem iterate {s : List Rune} (hs : ∀ r ∈ s, IsRune r) (h : l.At (encode s ++ text)) :
    (nextrune^[s.length] l).At text ∧
      (nextrune^[s.length] l).pos = l.pos + (encode s).length := by
  induction s generalizing l with
  | nil => exact ⟨h, rfl⟩
  | cons r s ih =>
    rw [encode_cons, List.append_assoc] at h
    obtain ⟨hnext, hpos⟩ := h.next (hs r List.mem_cons_self)
    obtain ⟨hlast, hend⟩ := ih (fun q hq => hs q (List.mem_cons_of_mem r hq)) hnext
    have hlen : (encode (r :: s)).length = runelen r + (encode s).length := List.length_append
    refine ⟨hlast, ?_⟩
    rw [List.length_cons, Function.iterate_succ_apply, hend, hpos, hlen, Nat.add_assoc]

end Lexer.At

theorem iterate_nextrune_src (n : Nat) (l : Lexer) : (nextrune^[n] l).src = l.src := by
  induction n generalizing l with
  | zero => rfl
  | succ n ih => rw [Function.iterate_succ_apply, ih, nextrune_src]

/-- The text between two positions. -/
theorem tokenText_at {l l' : Lexer} {s text : CStr} (h : l.At (s ++ text))
    (h' : l'.At text) (hsrc : l'.src = l.src) (hpos : l'.pos = l.pos + s.length) :
    tokenText l' l.pos = .ok s := by
  rw [tokenText, if_pos (h'.pos.trans (Nat.le_succ _)), hsrc, h.drop, hpos, Nat.add_sub_cancel_left,
    List.take_left]

/-! ### Words -/

/-- What an identifier consists of, after its first rune. -/
def identRune (r : Rune) : Bool := isalpharune r || r == rune '_' || isDigit r

/-- What the loop of `lex_ident` passes over. -/
def wordRune (quoted : Bool) (r : Rune) : Bool := identRune r || (quoted && isspacerune r)

theorem wordRune_ne_quote {quoted : Bool} {r : Rune} (h : wordRune quoted r = true) :
    r ≠ rune '\x22' := by
  rintro rfl
  revert h
  cases quoted <;> decide +kernel

theorem lexIdentLoop_step {quoted : Bool} {fuel : Nat} {l : Lexer} (h0 : (nextrune l).peek ≠ 0)
    (h : wordRune quoted (nextrune l).peek = true) :
    lexIdentLoop quoted (fuel + 1) l = lexIdentLoop quoted fuel (nextrune l) := by
  have hquote := wordRune_ne_quote h
  simp only [wordRune, identRune, Bool.or_eq_true, beq_iff_eq, Bool.and_eq_true] at h
  rw [lexIdentLoop]
  simp only [if_neg h0]
  rcases h with ((h | h) | h) | ⟨hq, h⟩
  · rw [if_pos h]
  · rw [h, if_neg (by decide +kernel), if_pos rfl]
  · split_ifs <;> simp_all
  · split_ifs <;> simp_all

/-- The runes of a word are passed over. -/
theorem lexIdentLoop_pass {quoted : Bool} {fuel : Nat} {s : List Rune} {l : Lexer} {r : Nat}
    {text : CStr} (hr : IsRune r) (hs : ∀ q ∈ s, IsRune q ∧ wordRune quoted q = true)
    (h : l.At (encode (r :: s) ++ text)) :
    lexIdentLoop quoted (s.length + fuel) l = lexIdentLoop quoted fuel (nextrune^[s.length] l) := by
  induction s generalizing l r with
  | nil => rw [List.length_nil, Nat.zero_add]; rfl
  | cons q s ih =>
    obtain ⟨hq, hword⟩ := hs q List.mem_cons_self
    rw [encode_cons, List.append_assoc] at h
    obtain ⟨hnext, -⟩ := h.next hr
    have hpeek : (nextrune l).peek = q := by
      rw [hnext.peek, encode_cons, List.append_assoc, firstRune_runetochar hq]
    rw [List.length_cons, Nat.add_right_comm, lexIdentLoop_step (hpeek ▸ hq.1) (hpeek ▸ hword),
      ih hq (fun p hp => hs p (List.mem_cons_of_mem q hp)) hnext]
    rfl

/-- The loop stops in front of what is no part of a word, and no closing quote. -/
theorem lexIdentLoop_stop {quoted : Bool} {fuel : Nat} {l : Lexer}
    (h : (nextrune l).peek = 0 ∨ wordRune quoted (nextrune l).peek = false ∧
      (quoted && (nextrune l).peek == rune '\x22') = false) :
    lexIdentLoop quoted (fuel + 1) l = .ok (nextrune l) := by
  rw [lexIdentLoop]
  simp only [wordRune, identRune, Bool.or_eq_false_iff] at h
  rcases h with h | ⟨⟨⟨⟨h1, h2⟩, h3⟩, h4⟩, h5⟩
  · exact if_pos h
  · split_ifs <;> simp_all

/-- A closing quote is passed over, and ends the word. -/
theorem lexIdentLoop_quote {fuel : Nat} {l : Lexer} (h : (nextrune l).peek = rune '\x22') :
    lexIdentLoop true (fuel + 1) l = .ok (nextrune (nextrune l)) := by
  rw [lexIdentLoop]
  simp only [h]
  rw [if_neg (by decide), if_neg (by decide +kernel), if_neg (by decide), if_neg (by decide),
    if_pos (by decide)]

end Libsd

/-
  Libsd/LexerTiles.lean
  =====================
  **The tokens tile the text.**

  From a state that stands at a rune of its text, repeated `lexer_nexttok` comes to the end
  of it.  The text is then cut into the runs of the tokens and the gaps between them, and
  a gap is white space and comments (`lexes_tiles`).  Every routine of the lexer is a number
  of `nextrune`, and each of these takes one rune off (`passed_iterate`), so nothing is left
  out or read twice.
-/
import Libsd.LexerText
import Libsd.LexerTotal

namespace Libsd

open Utf Outcome

/-! ### Gaps and runs -/

/-- White space and comments.  The flags say whether the gap starts, and ends, inside a
    comment. -/
inductive Gap : Bool → List Rune → Bool → Prop where
  | nil {c : Bool} : Gap c [] c
  | space {r : Rune} {s : List Rune} {c : Bool} (hr : isspacerune r = true) (hs : Gap false s c) :
      Gap false (r :: s) c
  | opened {s : List Rune} {c : Bool} (hs : Gap true s c) : Gap false (rune '\x7b' :: s) c
  | inside {r : Rune} {s : List Rune} {c : Bool} (hr : r ≠ rune '\x7d') (hs : Gap true s c) :
      Gap true (r :: s) c
  | closed {s : List Rune} {c : Bool} (hs : Gap false s c) : Gap true (rune '\x7d' :: s) c

/-- `Tiles s ws`: the text is the runs `ws` with gaps before, between and behind them; only
    the last gap may end inside a comment. -/
inductive Tiles : List Rune → List (List Rune) → Prop where
  | done {g : List Rune} {c : Bool} (hg : Gap false g c) : Tiles g []
  | run {b w s : List Rune} {ws : List (List Rune)} (hb : Gap false b false) (hw : w ≠ [])
      (hs : Tiles s ws) : Tiles (b ++ (w ++ s)) (w :: ws)

/-- The token that a run becomes: operator words and operators of two runes are replaced by
    single runes. -/
inductive TokenOf (w : List Rune) : Token → Prop where
  | number : TokenOf w { start := encode w, type := .number }
  | word : TokenOf w (classifyWord (encode w))
  | op : TokenOf w { start := shortenOp (encode w), type := .token }

/-- `l.Front s`: the next token is to be taken from the front of `s`.  A token that has been
    peeked at is the run in front of the position. -/
inductive Lexer.Front (l : Lexer) : List Rune → Prop where
  | ahead {s : List Rune} (htpeek : l.tpeek = none) (h : l.At (encode s)) : l.Front s
  | slot {w s : List Rune} {t : Token} (htpeek : l.tpeek = some t) (hw : w ≠ []) (ht : TokenOf w t)
      (hpos : (encode w).length ≤ l.pos)
      (hdrop : l.src.drop (l.pos - (encode w).length) = encode (w ++ s))
      (h : l.At (encode s)) : l.Front (w ++ s)

/-! ### A number of runes is passed -/

/-- The lexer has passed the runes `w`, and has `s` in front of it. -/
structure Passed (l l' : Lexer) (w s : List Rune) : Prop where
  front : l'.At (encode s)
  src : l'.src = l.src
  tpeek : l'.tpeek = l.tpeek
  pos : l'.pos = l.pos + (encode w).length

theorem Passed.trans {l l' l'' : Lexer} {w w' s s' : List Rune} (h : Passed l l' w s)
    (h' : Passed l' l'' w' s') : Passed l l'' (w ++ w') s' where
  front := h'.front
  src := h'.src.trans h.src
  tpeek := h'.tpeek.trans h.tpeek
  pos := by rw [h'.pos, h.pos, encode_append, List.length_append, Nat.add_assoc]

/-- At the end of the text the lexer stays. -/
theorem Lexer.At.next_nil {l : Lexer} (h : l.At []) : Passed l (nextrune l) [] [] := by
  have hend : ¬ l.pos < l.len := by
    have hsub := h.len_sub
    rw [List.length_nil] at hsub
    omega
  have heq : nextrune l = { l with peek := 0 } := if_neg hend
  rw [heq]
  exact ⟨⟨h.len, h.pos, h.drop, rfl⟩, rfl, rfl, rfl⟩

theorem passed_nextrune {l : Lexer} {r : Nat} {s : List Rune} (hr : IsRune r)
    (h : l.At (encode (r :: s))) : Passed l (nextrune l) [r] s := by
  rw [encode_cons] at h
  obtain ⟨hnext, hpos⟩ := h.next hr
  refine ⟨hnext, nextrune_src l, nextrune_tpeek l, ?_⟩
  rw [hpos, encode_cons, encode_nil, List.append_nil]
  rfl

/-- Each `nextrune` takes one rune off, as long as there are any. -/
theorem passed_iterate {s : List Rune} (hs : ∀ r ∈ s, IsRune r) {l : Lexer} (h : l.At (encode s))
    (n : Nat) : Passed l (nextrune^[n] l) (s.take n) (s.drop n) := by
  induction n generalizing s l with
  | zero => exact ⟨h, rfl, rfl, rfl⟩
  | succ n ih =>
    rw [Function.iterate_succ_apply]
    cases s with
    | nil =>
      have hend := h.next_nil
      have hrest := ih (s := []) hs hend.front
      rw [List.take_nil, List.drop_nil] at hrest ⊢
      exact hend.trans hrest
    | cons r s =>
      have hnext := passed_nextrune (hs r List.mem_cons_self) h
      exact hnext.trans (ih (fun q hq => hs q (List.mem_cons_of_mem r hq)) hnext.front)

theorem peek_of_at {l : Lexer} {s : List Rune} (hs : ∀ r ∈ s, IsRune r) (h : l.At (encode s)) :
    l.peek = s.headD 0 := h.peek.trans (firstRune_encode hs)

/-! ### White space -/

/-- One turn of `skip_whitespace` that does not stop. -/
theorem Gap.turn {c c' : Bool} {r : Rune} {s : List Rune}
    (hgo : (!c && r != rune '\x7b' && !isspacerune r) = false)
    (hs : Gap (if c then r != rune '\x7d' else r == rune '\x7b') s c') : Gap c (r :: s) c' := by
  cases c with
  | true =>
    by_cases hr : r = rune '\x7d'
    · subst hr
      exact .closed hs
    · have hstay : (r != rune '\x7d') = true := bne_iff_ne.mpr hr
      rw [if_pos rfl, hstay] at hs
      exact .inside hr hs
  | false =>
    by_cases hr : r = rune '\x7b'
    · subst hr
      exact .opened hs
    · have hplain : (r == rune '\x7b') = false := beq_eq_false_iff_ne.mpr hr
      have hother : (r != rune '\x7b') = true := bne_iff_ne.mpr hr
      rw [if_neg Bool.false_ne_true, hplain] at hs
      rw [hother] at hgo
      exact .space (by simpa using hgo) hs

/-- `skip_whitespace` passes a gap, up to the end or to a rune that starts a token. -/
theorem skipWhitespaceLoop_gap {fuel : Nat} {c : Bool} {s : List Rune} (hs : ∀ r ∈ s, IsRune r)
    {l : Lexer} (h : l.At (encode s)) (hfuel : s.length < fuel) (hc : c = true → s ≠ []) :
    ∃ b rest l', s = b ++ rest ∧ skipWhitespaceLoop fuel c l = .ok l' ∧ Passed l l' b rest ∧
      ((rest = [] ∧ ∃ c', Gap c b c') ∨ (rest ≠ [] ∧ Gap c b false)) := by
  induction fuel generalizing c s l with
  | zero => exact absurd hfuel (Nat.not_lt_zero _)
  | succ fuel ih =>
    have hpeek := peek_of_at hs h
    cases s with
    | nil =>
      -- at the end nothing is skipped
      obtain rfl : c = false := by
        cases c with
        | false => rfl
        | true => exact absurd rfl (hc rfl)
      refine ⟨[], [], l, rfl, ?_, ⟨h, rfl, rfl, rfl⟩, .inl ⟨rfl, false, .nil⟩⟩
      rw [skipWhitespaceLoop, hpeek]
      rfl
    | cons r s =>
      have hr := hs r List.mem_cons_self
      have hs' : ∀ q ∈ s, IsRune q := fun q hq => hs q (List.mem_cons_of_mem r hq)
      have hnext := passed_nextrune hr h
      rw [List.headD_cons] at hpeek
      rw [skipWhitespaceLoop, hpeek]
      cases hstop : (!c && r != rune '\x7b' && !isspacerune r) with
      | true =>
        obtain rfl : c = false := by
          cases c with
          | false => rfl
          | true => cases hstop
        exact ⟨[], r :: s, l, rfl, if_pos rfl, ⟨h, rfl, rfl, rfl⟩,
          .inr ⟨List.cons_ne_nil r s, .nil⟩⟩
      | false =>
        rw [if_neg Bool.false_ne_true, peek_of_at hs' hnext.front]
        cases s with
        | nil =>
          exact ⟨[r], [], nextrune l, rfl, if_pos rfl, hnext, .inl ⟨rfl, _, .turn hstop .nil⟩⟩
        | cons q s =>
          have hq := hs' q List.mem_cons_self
          rw [List.headD_cons, if_neg hq.1]
          obtain ⟨b, rest, l', heq, hskip, hpassed, hend⟩ := ih hs' hnext.front
            (Nat.lt_of_succ_lt_succ hfuel) fun _ => List.cons_ne_nil q s
          refine ⟨r :: b, rest, l', by rw [heq]; rfl, hskip, hnext.trans hpassed, ?_⟩
          rcases hend with ⟨hrest, c', hgap⟩ | ⟨hrest, hgap⟩
          · exact .inl ⟨hrest, c', .turn hstop hgap⟩
          · exact .inr ⟨hrest, .turn hstop hgap⟩

/-! ### Tokens -/

/-- A routine that returns the text it has moved over. -/
theorem tokenText_passed {l : Lexer} {s : List Rune} (hs : ∀ r ∈ s, IsRune r) (h : l.At (encode s))
    (n : Nat) : tokenText (nextrune^[n] l) l.pos = .ok (encode (s.take n)) := by
  have hpassed := passed_iterate hs h n
  have htext : l.At (encode (s.take n) ++ encode (s.drop n)) := by
    rw [← encode_append, List.take_append_drop]
    exact h
  exact tokenText_at htext hpassed.front hpassed.src hpassed.pos

theorem runelen_opTail {r q : Rune} (h : q ∈ opTail r) : IsRune q ∧ runelen q = 1 := by
  have hq : q = rune '=' ∨ q = rune '>' := by
    unfold opTail at h
    split_ifs at h
    · exact .inl (List.mem_singleton.mp h)
    · simpa using h
    · exact .inl (List.mem_singleton.mp h)
    · cases h
  rcases hq with rfl | rfl
  · exact ⟨by decide, by decide⟩
  · exact ⟨by decide, by decide⟩

section
variable {l : Lexer} {r : Nat} {s : List Rune} (hs : ∀ q ∈ r :: s, IsRune q)
  (h : l.At (encode (r :: s)))
include hs h

theorem lexNumber_run : ∃ n, lexNumber l =
    .ok ({ start := encode ((r :: s).take (n + 1)), type := .number }, nextrune^[n + 1] l) := by
  obtain ⟨l', hloop⟩ : ∃ l', lexNumberLoop (l.len + 1) false false false l = .ok l' :=
    lexNumberLoop_ok (by omega)
  obtain ⟨n, rfl⟩ := lexNumberLoop_steps hloop
  refine ⟨n, ?_⟩
  rw [lexNumber, bind_of_ok hloop, bind_of_ok (tokenText_passed hs h (n + 1))]
  rfl

theorem lexIdent_run : ∃ n, lexIdent l =
    .ok (classifyWord (encode ((r :: s).take (n + 1))), nextrune^[n + 1] l) := by
  obtain ⟨l', hloop⟩ : ∃ l', lexIdentLoop (l.peek == rune '\x22')
      ((if l.peek == rune '\x22' then nextrune l else l).len + 1)
      (if l.peek == rune '\x22' then nextrune l else l) = .ok l' := by
    refine lexIdentLoop_ok ?_
    omega
  -- the opening quote is one step more
  obtain ⟨n, hn⟩ : ∃ n, l' = nextrune^[n + 1] l := by
    obtain ⟨n, rfl⟩ := lexIdentLoop_steps hloop
    split
    · exact ⟨n + 1, rfl⟩
    · exact ⟨n, rfl⟩
  subst hn
  refine ⟨n, ?_⟩
  rw [lexIdent, bind_of_ok hloop, bind_of_ok (tokenText_passed hs h (n + 1))]
  rfl

/-- The length that is counted for an operator is the one that is moved over. -/
theorem lexOp_run : ∃ n, lexOp l =
    ({ start := shortenOp (encode ((r :: s).take (n + 1))), type := .token },
      nextrune^[n + 1] l) := by
  have hpeek : l.peek = r := peek_of_at hs h
  have hs' : ∀ q ∈ s, IsRune q := fun q hq => hs q (List.mem_cons_of_mem r hq)
  have hnext := passed_nextrune (hs r List.mem_cons_self) h
  have hpeek' : (nextrune l).peek = s.headD 0 := peek_of_at hs' hnext.front
  rw [lexOp, hpeek, h.drop]
  cases htwo : (opTail r).contains (nextrune l).peek with
  | false =>
    refine ⟨0, ?_⟩
    have htext : (encode (r :: s)).take (runelen r) = encode ((r :: s).take 1) := by
      rw [encode_cons, List.take_succ_cons, List.take_zero, encode_cons, encode_nil,
        List.append_nil]
      exact List.take_left
    rw [if_neg Bool.false_ne_true, if_neg Bool.false_ne_true, htext]
    rfl
  | true =>
    have hmem : s.headD 0 ∈ opTail r := by
      rw [← hpeek']
      exact List.contains_iff_mem.mp htwo
    obtain ⟨hrune, hlen⟩ := runelen_opTail hmem
    cases s with
    | nil => exact absurd rfl hrune.1
    | cons q s =>
      rw [List.headD_cons] at hlen
      refine ⟨1, ?_⟩
      have htext : (encode (r :: q :: s)).take (runelen r + 1) = encode ((r :: q :: s).take 2) := by
        have hsplit : encode (r :: q :: s) = (runetochar r ++ runetochar q) ++ encode s := by
          rw [encode_cons, encode_cons, List.append_assoc]
        have hboth : runelen r + 1 = (runetochar r ++ runetochar q).length := by
          rw [List.length_append, ← hlen]
          rfl
        rw [hsplit, hboth, List.take_left]
        simp only [List.take_succ_cons, List.take_zero, encode_cons, encode_nil, List.append_nil]
      rw [if_pos rfl, if_pos rfl, htext]
      rfl

end

/-- What one call does: it passes a gap and then a run, or a gap up to the end. -/
theorem lexerNexttok_run {l : Lexer} {s : List Rune} (hs : ∀ r ∈ s, IsRune r)
    (htpeek : l.tpeek = none) (h : l.At (encode s)) :
    (∃ c l', Gap false s c ∧ lexerNexttok l = .ok (none, l')) ∨
      ∃ b w rest t l', s = b ++ (w ++ rest) ∧ Gap false b false ∧ w ≠ [] ∧ TokenOf w t ∧
        lexerNexttok l = .ok (some t, l') ∧ Passed l l' (b ++ w) rest := by
  have hsub := h.len_sub
  have hlen := length_le_encode s
  have hfuel : s.length < l.len + 1 := by omega
  obtain ⟨b, s1, l1, rfl, hskip, hpassed, hend⟩ := skipWhitespaceLoop_gap (c := false) hs h hfuel
    fun hc => absurd hc Bool.false_ne_true
  have hs1 : ∀ r ∈ s1, IsRune r := fun r hr => hs r (List.mem_append_right b hr)
  have hpeek := peek_of_at hs1 hpassed.front
  have hnext := lexerNexttok_of_skipped htpeek hskip
  rcases hend with ⟨rfl, c, hgap⟩ | ⟨hne, hgap⟩
  · refine .inl ⟨c, l1, by rwa [List.append_nil], ?_⟩
    rw [hnext, hpeek]
    exact if_pos rfl
  · right
    obtain ⟨r, s, rfl⟩ := List.exists_cons_of_ne_nil hne
    rw [List.headD_cons] at hpeek
    have hrun : ∀ n t, TokenOf ((r :: s).take (n + 1)) t →
        lexerNexttok l = .ok (some t, nextrune^[n + 1] l1) →
        ∃ b' w rest t l', b ++ r :: s = b' ++ (w ++ rest) ∧ Gap false b' false ∧ w ≠ [] ∧
          TokenOf w t ∧ lexerNexttok l = .ok (some t, l') ∧ Passed l l' (b' ++ w) rest :=
      fun n t ht hok => ⟨b, (r :: s).take (n + 1), (r :: s).drop (n + 1), t, _,
        by rw [List.take_append_drop], hgap, List.cons_ne_nil _ _, ht, hok,
        hpassed.trans (passed_iterate hs1 hpassed.front (n + 1))⟩
    have hr := hs1 r List.mem_cons_self
    rw [hpeek, if_neg hr.1] at hnext
    by_cases hnum : numstart r = true
    · obtain ⟨n, hn⟩ := lexNumber_run hs1 hpassed.front
      refine hrun n _ .number ?_
      rw [hnext, if_pos hnum, hn]
      rfl
    · by_cases hident : identstart r = true
      · obtain ⟨n, hn⟩ := lexIdent_run hs1 hpassed.front
        refine hrun n _ .word ?_
        rw [hnext, if_neg hnum, if_pos hident, hn]
        rfl
      · obtain ⟨n, hn⟩ := lexOp_run hs1 hpassed.front
        refine hrun n _ .op ?_
        rw [hnext, if_neg hnum, if_neg hident, hn]

/-! ### The whole text -/

theorem tiles_ahead {l : Lexer} {s : List Rune} (hs : ∀ r ∈ s, IsRune r) (htpeek : l.tpeek = none)
    (h : l.At (encode s)) : ∃ ts ws, Lexes l ts ∧ Tiles s ws ∧ List.Forall₂ TokenOf ws ts := by
  rcases lexerNexttok_run hs htpeek h with ⟨c, l', hgap, hend⟩ |
    ⟨b, w, rest, t, l', heq, hgap, hw, ht, htok, hpassed⟩
  · exact ⟨[], [], .eof hend, .done hgap, .nil⟩
  · have hlt : rest.length < s.length := by
      have hpos := List.length_pos_iff.mpr hw
      rw [heq, List.length_append, List.length_append]
      omega
    subst heq
    have hrest : ∀ r ∈ rest, IsRune r := fun r hr =>
      hs r (List.mem_append_right b (List.mem_append_right w hr))
    obtain ⟨ts, ws, hlexes, htiles, htokens⟩ := tiles_ahead hrest (hpassed.tpeek.trans htpeek)
      hpassed.front
    exact ⟨t :: ts, w :: ws, .tok htok hlexes, .run hgap hw htiles, .cons ht htokens⟩
termination_by s.length

theorem atRune_of_at {l : Lexer} {text : CStr} (h : l.At text) : l.AtRune := by
  intro hpeek
  by_contra hend
  have hsub := h.len_sub
  have htext : text = [] := List.eq_nil_of_length_eq_zero (by omega)
  rw [h.peek, htext] at hpeek
  exact hpeek firstRune_nil

/-- From every state that stands at a rune of its text of less than 2^31 bytes, a token that has
    been peeked at included, `lexer_nexttok` comes to the end after at most `len` tokens,
      and their runs
    tile the text that was in front of it. -/
theorem lexes_tiles {l : Lexer} {s : List Rune} (hs : ∀ r ∈ s, IsRune r) (h : l.Front s) :
    ∃ ts ws, Lexes l ts ∧ ts.length ≤ l.len ∧ Tiles s ws ∧ List.Forall₂ TokenOf ws ts := by
  cases h with
  | ahead htpeek h =>
    obtain ⟨ts, ws, hlexes, htiles, htokens⟩ := tiles_ahead hs htpeek h
    have hlen := hlexes.length_le htpeek (atRune_of_at h)
    exact ⟨ts, ws, hlexes, by omega, htiles, htokens⟩
  | @slot w s t htpeek hw ht hpos hdrop h =>
    have hs' : ∀ r ∈ s, IsRune r := fun r hr => hs r (List.mem_append_right w hr)
    have htaken : ({ l with tpeek := none } : Lexer).At (encode s) := ⟨h.len, h.pos, h.drop, h.peek⟩
    obtain ⟨ts, ws, hlexes, htiles, htokens⟩ := tiles_ahead hs' rfl htaken
    have hlen : ts.length ≤ l.len - l.pos := hlexes.length_le rfl (atRune_of_at htaken)
    have hrun := length_le_encode w
    have hpositive := List.length_pos_iff.mpr hw
    have hbound := h.pos
    refine ⟨t :: ts, w :: ws, .tok (lexerNexttok_of_tpeek htpeek) hlexes, ?_, .run .nil hw htiles,
      .cons ht htokens⟩
    rw [List.length_cons]
    omega

/-- The lexer in front of its whole text. -/
def atStart (s : List Rune) : Lexer :=
  { src := encode s, peek := firstRune (encode s), len := (encode s).length, pos := 0,
    tpeek := none }

theorem front_atStart (s : List Rune) : (atStart s).Front s :=
  .ahead rfl ⟨rfl, Nat.zero_le _, rfl, rfl⟩

/-- A comment that is closed, an operator of two runes, and a comment that is not closed. -/
theorem lexes_tiles_comments : ∃ ts ws,
    Lexes (atStart ((String.toList "a \x7bb\x7d>=1\x7b").map rune)) ts ∧
    ts.length ≤ (atStart ((String.toList "a \x7bb\x7d>=1\x7b").map rune)).len ∧
    Tiles ((String.toList "a \x7bb\x7d>=1\x7b").map rune) ws ∧ List.Forall₂ TokenOf ws ts :=
  lexes_tiles (by decide +kernel) (front_atStart _)

end Libsd

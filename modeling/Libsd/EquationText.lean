/-
  Libsd/EquationText.lean
  =======================
  **From the text of an equation to its tree.**

  The tokens are those that `scan` cuts the lowered text into, and the parser accepts them
  just when a legal phrase at their start stops at the token behind it (`avarEqnParse_text`).
  So what is inside a comment does not matter (`avarEqnParse_comments`).  Only a brace right
  behind a quote may be a part of a name, and is not taken for a comment here.
-/
import Libsd.AcceptedEqns
import Libsd.LowerTokens
import Libsd.Scanner

namespace Libsd

open Utf Outcome

/-! ### The tokens of an equation -/

theorem nextOf_none (us : List Symbol) : nextOf us none = us.head? := by
  cases us <;> rfl

/-- With all its tokens known, it is known what the parser sees. -/
theorem Lexes.sees_iff {l : Lexer} {ts : List Token} (h : Lexes l ts) (ss : List Symbol)
    (a : Option Symbol) :
    Sees l ss a ↔ ∃ us, ts.map Token.symbol = ss ++ us ∧ us.head? = a := by
  constructor
  · intro hsees
    induction hsees generalizing ts with
    | ahead hnext ha =>
      refine ⟨ts.map Token.symbol, rfl, ?_⟩
      rw [← ha]
      cases h with
      | eof h =>
        cases h.symm.trans hnext
        rfl
      | tok h _ =>
        cases h.symm.trans hnext
        rfl
    | tok hnext ht _ ih =>
      cases h with
      | eof h => cases h.symm.trans hnext
      | tok h hs =>
        cases h.symm.trans hnext
        obtain ⟨us, heq, hus⟩ := ih hs
        refine ⟨us, ?_, hus⟩
        rw [List.map_cons, heq, ht]
        rfl
  · rintro ⟨us, heq, rfl⟩
    have hall := h.sees
    rw [heq] at hall
    rw [← nextOf_none]
    exact hall.take ss

/-- The tokens of an equation, `İ` apart, are those of the lowered text. -/
theorem lexerInit_scan {s : List Rune} (hs : ∀ r ∈ s, IsRune r) (hi : dottedI ∉ s) :
    ∃ l, lexerInit (encode s) = .ok l ∧ Lexes l (scan (lower s)) := by
  obtain ⟨l, l', ts, hinit, hinit', hl, hl'⟩ := sameTokens_of_not_mem hs hi
  obtain ⟨l1, hinit1, htpeek, hat, -, -⟩ := lexerInit_recased hs hi
  obtain rfl := Except.ok.inj (hinit'.symm.trans hinit1)
  obtain rfl : ts = scan (lower s) :=
    hl'.unique (lexes_scanFrom (isRune_lower hs) htpeek hat (Nat.le_refl _))
  exact ⟨l, hinit, hl⟩

/-- What `avar_eqn_parse` makes of a text of less than 2^31 bytes: there are no tokens and no
    tree, or the tokens start with a legal phrase that stops at the token behind it, and the tree
    is that of the phrase. -/
theorem avarEqnParse_text {s : List Rune} (hs : ∀ r ∈ s, IsRune r) (hi : dottedI ∉ s)
    (n : Node) : avarEqnParse (encode s) = .ok n ↔
      n = .null ∧ scan (lower s) = [] ∨
      ∃ (e : Phrase) (us : List Symbol), e.Legal ∧
        (scan (lower s)).map Token.symbol = e.symbols ++ us ∧ e.Stops us.head? ∧ n = e.node := by
  obtain ⟨l, hinit, hl⟩ := lexerInit_scan hs hi
  rw [avarEqnParse_ok_iff hinit]
  refine or_congr (and_congr_right fun _ => ?_) (exists_congr fun e => ?_)
  · rw [hl.sees_iff]
    constructor
    · rintro ⟨us, heq, hus⟩
      rw [List.head?_eq_none_iff.mp hus, List.append_nil] at heq
      exact List.map_eq_nil_iff.mp heq
    · intro hnil
      rw [hnil]
      exact ⟨[], rfl, rfl⟩
  · constructor
    · rintro ⟨a, hlegal, hsees, hstops, hn⟩
      obtain ⟨us, heq, rfl⟩ := (hl.sees_iff _ _).mp hsees
      exact ⟨us, hlegal, heq, hstops, hn⟩
    · rintro ⟨us, hlegal, heq, hstops, hn⟩
      exact ⟨us.head?, hlegal, (hl.sees_iff _ _).mpr ⟨us, heq, rfl⟩, hstops, hn⟩

theorem avarEqnParse_text_growth :
    avarEqnParse (encode ((String.toList "Births *2").map rune)) =
        .ok (.binary (rune '*') (.ident (cstr "births") none) (.floatlit (cstr "2") 0)) ↔
      Node.binary (rune '*') (.ident (cstr "births") none) (.floatlit (cstr "2") 0) = .null ∧
          scan (lower ((String.toList "Births *2").map rune)) = [] ∨
      ∃ (e : Phrase) (us : List Symbol), e.Legal ∧
        (scan (lower ((String.toList "Births *2").map rune))).map Token.symbol =
          e.symbols ++ us ∧ e.Stops us.head? ∧
        Node.binary (rune '*') (.ident (cstr "births") none) (.floatlit (cstr "2") 0) = e.node :=
  avarEqnParse_text (by decide +kernel) (by decide +kernel) _

/-! ### What is inside a comment -/

/-- Where a rune stands. -/
inductive Place where
  | text
  | quote        -- right behind a quote
  | comment
deriving DecidableEq

/-- The place behind a rune that is not inside a comment. -/
def behindRune (r : Rune) : Place := if r = rune '\x22' then .quote else .text

/-- The text with its comments emptied. -/
def emptied : Place → List Rune → List Rune
  | _, [] => []
  | .text, r :: s =>
    if r = rune '\x7b' then r :: emptied .comment s else r :: emptied (behindRune r) s
  | .quote, r :: s => r :: emptied (behindRune r) s
  | .comment, r :: s => if r = rune '\x7d' then r :: emptied .text s else emptied .comment s

example : emptied .text ((String.toList "a\x7bb c\x7d \x22\x7bd\x7d\x22 \x7be").map rune) =
    (String.toList "a\x7b\x7d \x22\x7bd\x7d\x22 \x7b").map rune := by
  decide +kernel

theorem behindRune_ne_comment (r : Rune) : behindRune r ≠ .comment := by
  rw [behindRune]
  split_ifs <;> exact fun h => by cases h

/-- Outside of a comment a rune is kept. -/
theorem emptied_cons {p : Place} (hp : p ≠ .comment) {r : Rune} (s : List Rune)
    (hr : r ≠ rune '\x7b' ∨ p = .quote) : emptied p (r :: s) = r :: emptied (behindRune r) s := by
  cases p with
  | text => exact if_neg (hr.resolve_right fun h => by cases h)
  | quote => rfl
  | comment => exact absurd rfl hp

theorem head_emptied {p : Place} (hp : p ≠ .comment) (s : List Rune) :
    (emptied p s).headD 0 = s.headD 0 := by
  cases s with
  | nil => cases p <;> rfl
  | cons r s =>
    cases p with
    | text =>
      rw [emptied]
      split_ifs <;> rfl
    | quote => rfl
    | comment => exact absurd rfl hp

/-- White space and comments are skipped alike, from inside a comment whatever the place is. -/
theorem skipGap_emptied {c : Bool} {p : Place} (hp : c = false → p ≠ .comment) (s : List Rune) :
    ∃ q, q ≠ .comment ∧ skipGap c (emptied p s) = emptied q (skipGap c s) := by
  have hdone : ∃ q, q ≠ Place.comment ∧ ([] : List Rune) = emptied q [] :=
    ⟨.text, by decide, rfl⟩
  have hbrace : (rune '\x7b' != rune '\x7d') = true := by decide
  induction s generalizing c p with
  | nil => cases c <;> cases p <;> exact hdone
  | cons r s ih =>
    cases c with
    | true =>
      have hrest : ∀ q, (r = rune '\x7d' → q ≠ .comment) →
          ∃ q', q' ≠ .comment ∧ skipGap true (r :: emptied q s) =
            emptied q' (skipGap true (r :: s)) := by
        intro q hq
        rw [skipGap, skipGap]
        refine ih fun hc => hq ?_
        simpa using hc
      cases p with
      | text =>
        rw [emptied]
        split_ifs with hr
        · exact hrest .comment fun hr' => absurd (hr.symm.trans hr') (by decide)
        · exact hrest _ fun _ => behindRune_ne_comment r
      | quote => exact hrest _ fun _ => behindRune_ne_comment r
      | comment =>
        rw [emptied]
        split_ifs with hr
        · exact hrest .text fun _ h => by cases h
        · have hstay : (r != rune '\x7d') = true := bne_iff_ne.mpr hr
          rw [skipGap.eq_2, hstay]
          exact ih fun hc => by cases hc
    | false =>
      have hp' := hp rfl
      by_cases hr : r = rune '\x7b'
      · -- a comment is opened, also where the brace stands behind a quote
        obtain ⟨q, heq⟩ : ∃ q, emptied p (r :: s) = r :: emptied q s := by
          cases p with
          | text => exact ⟨.comment, if_pos hr⟩
          | quote => exact ⟨_, rfl⟩
          | comment => exact absurd rfl hp'
        rw [heq, skipGap, skipGap, if_pos hr, if_pos hr]
        exact ih fun hc => by cases hc
      · rw [emptied_cons hp' s (.inl hr), skipGap, skipGap, if_neg hr, if_neg hr]
        split_ifs with hspace
        · exact ih fun _ => behindRune_ne_comment r
        · exact ⟨.text, by decide, (if_neg hr).symm⟩

/-- The first runes are the same in both texts, and behind them one is the other with its
    comments emptied. -/
structure KeptUpTo (n : Nat) (s u : List Rune) : Prop where
  taken : u.take n = s.take n
  left : ∃ q, q ≠ .comment ∧ u.drop n = emptied q (s.drop n)

theorem KeptUpTo.zero {p : Place} (hp : p ≠ .comment) (s : List Rune) : KeptUpTo 0 s
    (emptied p s) :=
  ⟨rfl, p, hp, rfl⟩

theorem KeptUpTo.succ {n : Nat} {s u : List Rune} (h : KeptUpTo n s u) (r : Rune) :
    KeptUpTo (n + 1) (r :: s) (r :: u) :=
  ⟨congrArg (r :: ·) h.taken, h.left⟩

theorem numberLen_emptied (haveE haveDot1 haveDot2 : Bool) {p : Place} (hp : p ≠ .comment)
    (s : List Rune) :
    numberLen haveE haveDot1 haveDot2 (emptied p s) = numberLen haveE haveDot1 haveDot2 s ∧
      KeptUpTo (numberLen haveE haveDot1 haveDot2 s) s (emptied p s) := by
  induction s generalizing haveE haveDot1 haveDot2 p with
  | nil => cases p <;> exact ⟨rfl, KeptUpTo.zero (p := .text) (by decide) []⟩
  | cons r s ih =>
    by_cases hr : r = rune '\x7b'
    · -- a number does not go on with a brace
      have hstop : ∀ u, numberLen haveE haveDot1 haveDot2 (r :: u) = 0 := by
        intro u
        subst hr
        exact if_neg (by decide)
      obtain ⟨u, hu⟩ : ∃ u, emptied p (r :: s) = r :: u := by
        cases p with
        | text => exact ⟨_, if_pos hr⟩
        | quote => exact ⟨_, rfl⟩
        | comment => exact absurd rfl hp
      rw [hstop, hu, hstop, ← hu]
      exact ⟨rfl, .zero hp _⟩
    · have hrest : ∀ e d1 d2, numberLen e d1 d2 (emptied (behindRune r) s) = numberLen e d1 d2 s ∧
          KeptUpTo (numberLen e d1 d2 s) s (emptied (behindRune r) s) :=
        fun e d1 d2 => ih e d1 d2 (behindRune_ne_comment r)
      have hzero := KeptUpTo.zero hp (r :: s)
      rw [emptied_cons hp s (.inl hr)] at hzero ⊢
      constructor
      · rw [numberLen, numberLen]
        simp only [(hrest _ _ _).1]
      · rw [numberLen]
        split_ifs <;> first | exact hzero | exact (hrest _ _ _).2.succ r

theorem wordLen_emptied (quoted : Bool) {p : Place} (hp : p ≠ .comment) (s : List Rune) :
    wordLen quoted (emptied p s) = wordLen quoted s ∧
      KeptUpTo (wordLen quoted s) s (emptied p s) := by
  induction s generalizing p with
  | nil => cases p <;> exact ⟨rfl, KeptUpTo.zero (p := .text) (by decide) []⟩
  | cons r s ih =>
    by_cases hr : r = rune '\x7b'
    · have hstop : ∀ u, wordLen quoted (r :: u) = 0 := by
        intro u
        subst hr
        cases quoted <;> exact if_neg (by decide +kernel)
      obtain ⟨u, hu⟩ : ∃ u, emptied p (r :: s) = r :: u := by
        cases p with
        | text => exact ⟨_, if_pos hr⟩
        | quote => exact ⟨_, rfl⟩
        | comment => exact absurd rfl hp
      rw [hstop, hu, hstop, ← hu]
      exact ⟨rfl, .zero hp _⟩
    · obtain ⟨hlen, hkept⟩ := ih (behindRune_ne_comment r)
      have hzero := KeptUpTo.zero hp (r :: s)
      have hone := (KeptUpTo.zero (behindRune_ne_comment r) s).succ r
      rw [emptied_cons hp s (.inl hr)] at hzero ⊢
      rw [wordLen, wordLen, hlen]
      refine ⟨rfl, ?_⟩
      split_ifs
      · exact hkept.succ r
      · exact hone
      · exact hzero

theorem skipGap_head {c : Bool} {s u : List Rune} {r : Rune} (h : skipGap c s = r :: u) :
    r ≠ rune '\x7b' := by
  induction s generalizing c with
  | nil => cases c <;> cases h
  | cons q s ih =>
    cases c with
    | true => exact ih h
    | false =>
      rw [skipGap] at h
      split_ifs at h with hq hspace
      · exact ih h
      · exact ih h
      · exact (List.cons.inj h).1 ▸ hq

/-- A token behind its first rune. -/
theorem tokenLen_emptied {r : Rune} (s : List Rune) :
    tokenLen r (emptied (behindRune r) s) = tokenLen r s ∧
      KeptUpTo (tokenLen r s) (r :: s) (r :: emptied (behindRune r) s) := by
  have hp := behindRune_ne_comment r
  rw [tokenLen, tokenLen]
  cases numstart r with
  | true =>
    obtain ⟨hlen, hkept⟩ := numberLen_emptied false false false hp s
    rw [if_pos rfl, if_pos rfl, hlen]
    exact ⟨rfl, hkept.succ r⟩
  | false =>
    rw [if_neg Bool.false_ne_true, if_neg Bool.false_ne_true]
    cases identstart r with
    | true =>
      rw [if_pos rfl, if_pos rfl]
      by_cases hr : r = rune '\x22'
      · rw [if_pos hr, if_pos hr]
        have hquote : behindRune r = .quote := if_pos hr
        rw [hquote]
        cases s with
        | nil => exact ⟨rfl, rfl, .text, by decide, rfl⟩
        | cons q s =>
          -- whatever is behind the quote is taken
          obtain ⟨hlen, hkept⟩ := wordLen_emptied true (behindRune_ne_comment q) s
          have htail : (emptied .quote (q :: s)).tail = emptied (behindRune q) s := rfl
          rw [htail, List.tail_cons, hlen]
          exact ⟨rfl, (hkept.succ q).succ r⟩
      · obtain ⟨hlen, hkept⟩ := wordLen_emptied false hp s
        rw [if_neg hr, if_neg hr, hlen]
        exact ⟨rfl, hkept.succ r⟩
    | false =>
      have hone := (KeptUpTo.zero hp s).succ r
      rw [if_neg Bool.false_ne_true, if_neg Bool.false_ne_true, head_emptied hp]
      refine ⟨rfl, ?_⟩
      split_ifs with htwo
      · obtain ⟨hrune, -⟩ := runelen_opTail (List.contains_iff_mem.mp htwo)
        cases s with
        | nil => exact absurd rfl hrune.1
        | cons q s =>
          have hq : q ≠ rune '\x7b' := by
            have hmem : q ∈ opTail r := List.contains_iff_mem.mp htwo
            rintro rfl
            unfold opTail at hmem
            split_ifs at hmem <;> revert hmem <;> decide
          rw [emptied_cons hp s (.inl hq)]
          exact ((KeptUpTo.zero (behindRune_ne_comment q) s).succ q).succ r
      · exact hone

theorem scanToken_emptied {p : Place} (hp : p ≠ .comment) (s : List Rune) :
    ∃ q, q ≠ .comment ∧
      scanToken (emptied p s) = (scanToken s).map fun x => (x.1, emptied q x.2) := by
  obtain ⟨q, hq, heq⟩ := skipGap_emptied (fun _ => hp) s
  rw [scanToken, scanToken, heq]
  cases hskip : skipGap false s with
  | nil =>
    refine ⟨q, hq, ?_⟩
    cases q <;> rfl
  | cons r u =>
    obtain ⟨hlen, htaken, q', hq', hleft⟩ := tokenLen_emptied (r := r) u
    rw [emptied_cons hq u (.inl (skipGap_head hskip))]
    refine ⟨q', hq', ?_⟩
    dsimp only
    rw [hlen, htaken, hleft]
    rfl

theorem scanFrom_of_none {s : List Rune} (h : scanToken s = none) (n : Nat) :
    scanFrom n s = [] := by
  cases n with
  | zero => rfl
  | succ n => rw [scanFrom, h]

theorem scanFrom_emptied {n m : Nat} {p : Place} (hp : p ≠ .comment) {s : List Rune}
    (hn : s.length ≤ n) (hm : (emptied p s).length ≤ m) :
    scanFrom m (emptied p s) = scanFrom n s := by
  induction n generalizing m p s with
  | zero =>
    obtain rfl : s = [] := List.eq_nil_of_length_eq_zero (Nat.le_zero.mp hn)
    have hnil : emptied p [] = [] := by cases p <;> rfl
    rw [hnil]
    exact scanFrom_of_none rfl m
  | succ n ih =>
    obtain ⟨q, hq, heq⟩ := scanToken_emptied hp s
    cases hscan : scanToken s with
    | none =>
      rw [hscan] at heq
      rw [scanFrom_of_none hscan, scanFrom_of_none heq]
    | some x =>
      obtain ⟨t, rest⟩ := x
      rw [hscan] at heq
      have hlt : rest.length < s.length := (scanToken_rest hscan).2
      have hlt' : (emptied q rest).length < (emptied p s).length := (scanToken_rest heq).2
      cases m with
      | zero => omega
      | succ m =>
        have hrest : scanFrom m (emptied q rest) = scanFrom n rest := ih hq (by omega) (by omega)
        rw [scanFrom, scanFrom, heq, hscan]
        exact congrArg (t :: ·) hrest

/-- Emptying its comments leaves the tokens of a text as they are. -/
theorem scan_emptied (s : List Rune) : scan (emptied .text s) = scan s :=
  scanFrom_emptied (by decide) (Nat.le_refl _) (Nat.le_refl _)

/-- Two equations of less than 2^31 bytes that differ in their comments, and in the case of
    letters, only have the same trees. -/
theorem avarEqnParse_comments {s s' : List Rune} (hs : ∀ r ∈ s, IsRune r)
    (hs' : ∀ r ∈ s', IsRune r) (hi : dottedI ∉ s) (hi' : dottedI ∉ s')
    (h : emptied .text (lower s) = emptied .text (lower s')) (n : Node) :
    avarEqnParse (encode s) = .ok n ↔ avarEqnParse (encode s') = .ok n := by
  obtain ⟨l, hinit, hl⟩ := lexerInit_scan hs hi
  obtain ⟨l', hinit', hl'⟩ := lexerInit_scan hs' hi'
  rw [← scan_emptied, ← h, scan_emptied] at hl'
  rw [avarEqnParse_ok_iff hinit, avarEqnParse_ok_iff hinit']
  simp only [hl.sees_iff, hl'.sees_iff]

theorem avarEqnParse_comments_growth :
    avarEqnParse (encode ((String.toList "Births \x7bper year\x7d * 2 \x7btwice").map rune)) =
        .ok (.binary (rune '*') (.ident (cstr "births") none) (.floatlit (cstr "2") 0)) ↔
      avarEqnParse (encode ((String.toList "births \x7b\x7d * 2 \x7b").map rune)) =
        .ok (.binary (rune '*') (.ident (cstr "births") none) (.floatlit (cstr "2") 0)) :=
  avarEqnParse_comments (by decide +kernel) (by decide +kernel) (by decide +kernel)
    (by decide +kernel) (by decide +kernel) _

end Libsd

/-
  Libsd/Symbols.lean
  ==================
  **What the parser sees of the tokens, and what its elementary steps do with them.**

  The parser asks a token for its type, and for its text or the first rune of it;
  a `Symbol` is what it can learn.  `Sees l ss a` knows the symbols the lexer is about
  to return and the one behind them, and says nothing about the rest of the text, so it
  also speaks about the part of an equation that the parser reads.  `Reads l ss l'`
  is the other direction: `l'` is what is left of `l` behind the symbols `ss`.
-/
import Libsd.LexerTokens

namespace Libsd

open Utf Outcome

inductive Symbol where
  | num (text : CStr)
  | ident (text : CStr)
  | word (text : CStr)      -- a reserved word
  | op (r : Rune)           -- an operator or a bracket, by its first rune
deriving DecidableEq, Repr

def Token.symbol (t : Token) : Symbol :=
  match t.type with
  | .number => .num t.start
  | .ident => .ident t.start
  | .reserved => .word t.start
  | .token => .op (firstRune t.start)

theorem Token.isOp_iff {t : Token} {r : Rune} :
    (t.type == .token && firstRune t.start == r) = true ↔ t.symbol = .op r := by
  obtain ⟨start, type⟩ := t
  cases type <;> simp [Token.symbol]

theorem Token.isWord_iff {t : Token} {s : CStr} :
    (t.type == .reserved && t.start == s) = true ↔ t.symbol = .word s := by
  obtain ⟨start, type⟩ := t
  cases type <;> simp [Token.symbol]

theorem Token.isNum_iff {t : Token} : (t.type == .number) = true ↔ t.symbol = .num t.start := by
  obtain ⟨start, type⟩ := t
  cases type <;> simp [Token.symbol]

theorem Token.isIdent_iff {t : Token} : (t.type == .ident) = true ↔ t.symbol = .ident t.start := by
  obtain ⟨start, type⟩ := t
  cases type <;> simp [Token.symbol]

/-! ### The symbols ahead -/

/-- From `l` the lexer returns tokens seen as `ss`, and then one seen as `a`, or the end
    of the text. -/
inductive Sees : Lexer → List Symbol → Option Symbol → Prop where
  | ahead {l l' : Lexer} {o : Option Token} {a : Option Symbol} (h : lexerNexttok l = .ok (o, l'))
      (ha : o.map Token.symbol = a) : Sees l [] a
  | tok {l l' : Lexer} {t : Token} {s : Symbol} {ss : List Symbol} {a : Option Symbol}
      (h : lexerNexttok l = .ok (some t, l')) (ht : t.symbol = s) (hs : Sees l' ss a) :
      Sees l (s :: ss) a

theorem Lexes.sees {l : Lexer} {ts : List Token} (h : Lexes l ts) :
    Sees l (ts.map Token.symbol) none := by
  induction h with
  | eof h => exact .ahead h rfl
  | tok h _ ih => exact .tok h rfl ih

/-- The next symbol. -/
def nextOf (ss : List Symbol) (a : Option Symbol) : Option Symbol :=
  match ss with
  | [] => a
  | s :: _ => some s

@[simp] theorem nextOf_nil (a : Option Symbol) : nextOf [] a = a := rfl

@[simp] theorem nextOf_cons (s : Symbol) (ss : List Symbol) (a : Option Symbol) :
    nextOf (s :: ss) a = some s := rfl

theorem Sees.length_le {l : Lexer} {ss : List Symbol} {a : Option Symbol} (h : Sees l ss a)
    (hp : l.tpeek = none) (ha : l.AtRune) : ss.length ≤ l.len - l.pos := by
  induction h with
  | ahead => simp
  | @tok l l' t s ss a h ht hs ih =>
    obtain ⟨hp', ha', hlt⟩ := lexerNexttok_progress hp ha h
    have := ih hp' ha'
    rw [List.length_cons]
    omega

/-! ### Peeking -/

/-- `l'` is what is left of `l` behind the symbols `ss`. -/
def Reads (l : Lexer) (ss : List Symbol) (l' : Lexer) : Prop :=
  ∀ us a, Sees l' us a → Sees l (ss ++ us) a

theorem Reads.refl (l : Lexer) : Reads l [] l := fun _ _ h => h

theorem Reads.trans {l l' l'' : Lexer} {ss us : List Symbol} (h : Reads l ss l')
    (h' : Reads l' us l'') : Reads l (ss ++ us) l'' := by
  intro vs a hs
  rw [List.append_assoc]
  exact h _ a (h' vs a hs)

theorem sees_of_tpeek {l : Lexer} {t : Token} (ht : l.tpeek = some t) {ss : List Symbol}
    {a : Option Symbol} :
    Sees l (t.symbol :: ss) a ↔ Sees { l with tpeek := none } ss a := by
  constructor
  · intro h
    cases h with
    | tok h hsym hs =>
      rw [lexerNexttok_of_tpeek ht] at h
      cases h
      exact hs
  · exact fun h => .tok (lexerNexttok_of_tpeek ht) rfl h

/-- What peeking leaves is the same text, with its next token in the buffer. -/
theorem lexerPeek_cases {l l' : Lexer} {o : Option Token} (h : lexerPeek l = .ok (o, l')) :
    Reads l [] l' ∧ Sees l' [] (o.map Token.symbol) ∧ l'.tpeek = o := by
  cases hp : l.tpeek with
  | some t =>
    simp only [lexerPeek, hp] at h
    cases h
    exact ⟨.refl l, .ahead (lexerNexttok_of_tpeek hp) rfl, hp⟩
  | none =>
    simp only [lexerPeek, hp] at h
    obtain ⟨r, hr, h⟩ := bind_eq_ok h
    obtain ⟨o', l1⟩ := r
    obtain ⟨rfl, rfl⟩ : o' = o ∧ { l1 with tpeek := o' } = l' := by
      simpa [pure, Except.pure] using h
    have hl1 : { l1 with tpeek := none } = l1 := by rw [← lexerNexttok_tpeek hr]
    cases o' with
    | none =>
      -- the end of the text is seen again
      rw [hl1]
      have hend : lexerNexttok l1 = .ok (none, l1) := by
        obtain ⟨n, ⟨-, -, hz⟩ | ⟨ho, -⟩⟩ := lexerNexttok_cases hp hr
        · exact lexerNexttok_of_peek_zero (lexerNexttok_tpeek hr) hz
        · exact absurd rfl ho
      refine ⟨fun us a hs => ?_, .ahead hend rfl, lexerNexttok_tpeek hr⟩
      cases hs with
      | ahead h ha =>
        rw [hend] at h
        cases h
        exact .ahead hr ha
      | tok h =>
        rw [hend] at h
        cases h
    | some t =>
      refine ⟨fun us a hs => ?_, .ahead (lexerNexttok_of_tpeek rfl) rfl, rfl⟩
      cases hs with
      | ahead h ha =>
        rw [lexerNexttok_of_tpeek rfl] at h
        cases h
        exact .ahead hr ha
      | tok h ht hs =>
        rw [lexerNexttok_of_tpeek rfl] at h
        cases h
        exact .tok hr ht (hl1 ▸ hs)

/-- Peeking finds the next symbol and changes nothing. -/
theorem Sees.peek {l : Lexer} {ss : List Symbol} {a : Option Symbol} (h : Sees l ss a) :
    ∃ o l', lexerPeek l = .ok (o, l') ∧ o.map Token.symbol = nextOf ss a ∧ l'.tpeek = o ∧
      Sees l' ss a := by
  cases hp : l.tpeek with
  | some t =>
    refine ⟨some t, l, by simp only [lexerPeek, hp], ?_, hp, h⟩
    cases h with
    | ahead h ha =>
      rw [lexerNexttok_of_tpeek hp] at h
      cases h
      exact ha
    | tok h ht =>
      rw [lexerNexttok_of_tpeek hp] at h
      cases h
      exact congrArg some ht
  | none =>
    have hpeek : ∀ {o l1}, lexerNexttok l = .ok (o, l1) →
        lexerPeek l = .ok (o, { l1 with tpeek := o }) := fun h => by
      simp only [lexerPeek, hp, h, bind, Except.bind]
      rfl
    cases h with
    | ahead h ha =>
      obtain ⟨-, hs, -⟩ := lexerPeek_cases (hpeek h)
      exact ⟨_, _, hpeek h, ha, rfl, ha ▸ hs⟩
    | @tok _ l1 _ _ _ _ h ht hs =>
      have hl1 : { l1 with tpeek := none } = l1 := by rw [← lexerNexttok_tpeek h]
      refine ⟨_, _, hpeek h, congrArg some ht, rfl, .tok (lexerNexttok_of_tpeek rfl) ht ?_⟩
      exact hl1.symm ▸ hs

theorem Sees.unique {l : Lexer} {a b : Option Symbol} (ha : Sees l [] a) (hb : Sees l [] b) :
    a = b := by
  cases ha with
  | ahead h ho =>
    cases hb with
    | ahead h' ho' =>
      rw [h] at h'
      cases h'
      exact ho.symm.trans ho'

/-- A part of the symbols, and the one behind it. -/
theorem Sees.take (ss : List Symbol) {l : Lexer} {us : List Symbol} {a : Option Symbol}
    (h : Sees l (ss ++ us) a) :
    Sees l ss (nextOf us a) := by
  induction ss generalizing l with
  | nil =>
    cases us with
    | nil => exact h
    | cons u us =>
      cases h with
      | tok h ht => exact .ahead h (congrArg some ht)
  | cons s ss ih =>
    cases h with
    | tok h ht hs => exact .tok h ht (ih hs)

/-! ### Consuming, when the next symbol is known -/

section
variable {l : Lexer} {ss : List Symbol} {a : Option Symbol}

theorem consumeIf_hit {s : Symbol} (test : Token → Bool) (h : Sees l (s :: ss) a)
    (ht : ∀ t : Token, t.symbol = s → test t = true) :
    ∃ t l', consumeIf l test = .ok (some t, l') ∧ t.symbol = s ∧ Sees l' ss a := by
  obtain ⟨o, l1, hpeek, ho, htp, hs⟩ := h.peek
  obtain ⟨t, rfl, rfl⟩ := Option.map_eq_some_iff.mp ho
  refine ⟨t, { l1 with tpeek := none }, ?_, rfl, (sees_of_tpeek htp).mp hs⟩
  simp only [consumeIf, hpeek, lexerNexttok_of_tpeek htp, bind, Except.bind, ht t rfl, if_true]
  rfl

theorem consumeIf_miss (test : Token → Bool) (h : Sees l ss a)
    (ht : ∀ t : Token, nextOf ss a = some t.symbol → test t = false) :
    ∃ l', consumeIf l test = .ok (none, l') ∧ Sees l' ss a := by
  obtain ⟨o, l1, hpeek, ho, -, hs⟩ := h.peek
  refine ⟨l1, ?_, hs⟩
  cases o with
  | none =>
    simp only [consumeIf, hpeek, bind, Except.bind]
    rfl
  | some t =>
    simp only [consumeIf, hpeek, bind, Except.bind, ht t ho.symm, Bool.false_eq_true, if_false]
    rfl

theorem consumeTok_hit {r : Rune} (h : Sees l (.op r :: ss) a) :
    ∃ l', consumeTok l r = .ok (true, l') ∧ Sees l' ss a := by
  obtain ⟨t, l', hc, -, hs⟩ := consumeIf_hit _ h fun t ht => Token.isOp_iff.mpr ht
  refine ⟨l', ?_, hs⟩
  simp only [consumeTok, hc, bind, Except.bind]
  rfl

theorem consumeTok_miss {r : Rune} (h : Sees l ss a) (hr : nextOf ss a ≠ some (.op r)) :
    ∃ l', consumeTok l r = .ok (false, l') ∧ Sees l' ss a := by
  obtain ⟨l', hc, hs⟩ := consumeIf_miss _ h fun t ht => Bool.eq_false_iff.mpr fun he =>
    hr (ht.trans (congrArg some (Token.isOp_iff.mp he)))
  refine ⟨l', ?_, hs⟩
  simp only [consumeTok, hc, bind, Except.bind]
  rfl

theorem consumeReserved_hit {s : CStr} (h : Sees l (.word s :: ss) a) :
    ∃ l', consumeReserved l s = .ok (true, l') ∧ Sees l' ss a := by
  obtain ⟨t, l', hc, -, hs⟩ := consumeIf_hit _ h fun t ht => Token.isWord_iff.mpr ht
  refine ⟨l', ?_, hs⟩
  simp only [consumeReserved, hc, bind, Except.bind]
  rfl

theorem consumeReserved_miss {s : CStr} (h : Sees l ss a) (hs : nextOf ss a ≠ some (.word s)) :
    ∃ l', consumeReserved l s = .ok (false, l') ∧ Sees l' ss a := by
  obtain ⟨l', hc, hl'⟩ := consumeIf_miss _ h fun t ht => Bool.eq_false_iff.mpr fun he =>
    hs (ht.trans (congrArg some (Token.isWord_iff.mp he)))
  refine ⟨l', ?_, hl'⟩
  simp only [consumeReserved, hc, bind, Except.bind]
  rfl

theorem consumeAnyLoop_miss {ops : List (Rune × Nat)} (h : Sees l ss a)
    (hr : ∀ r ∈ ops.map (·.1), nextOf ss a ≠ some (.op r)) :
    ∃ l', consumeAnyLoop ops l = .ok (none, l') ∧ Sees l' ss a := by
  induction ops generalizing l with
  | nil => exact ⟨l, rfl, h⟩
  | cons p ops ih =>
    obtain ⟨l1, hc, hs⟩ := consumeTok_miss h (hr p.1 List.mem_cons_self)
    obtain ⟨l2, hc2, hs2⟩ := ih hs fun r hr' => hr r (List.mem_cons_of_mem _ hr')
    refine ⟨l2, ?_, hs2⟩
    simp only [consumeAnyLoop, hc, bind, Except.bind, Bool.false_eq_true, if_false, hc2]

theorem consumeAnyLoop_hit {ops : List (Rune × Nat)} {r : Rune} (h : Sees l (.op r :: ss) a)
    (hr : r ∈ ops.map (·.1)) :
    ∃ l', consumeAnyLoop ops l = .ok (some r, l') ∧ Sees l' ss a := by
  induction ops generalizing l with
  | nil => simp at hr
  | cons p ops ih =>
    by_cases hp : r = p.1
    · obtain ⟨l1, hc, hs⟩ := consumeTok_hit (hp ▸ h)
      refine ⟨l1, ?_, hs⟩
      simp only [consumeAnyLoop, hc, bind, Except.bind, if_true, hp]
      rfl
    · obtain ⟨l1, hc, hs⟩ := consumeTok_miss (r := p.1) h (by simpa using hp)
      obtain ⟨l2, hc2, hs2⟩ := ih hs (by simpa [hp] using hr)
      refine ⟨l2, ?_, hs2⟩
      simp only [consumeAnyLoop, hc, bind, Except.bind, Bool.false_eq_true, if_false, hc2]

theorem num_hit {text : CStr} (h : Sees l (.num text :: ss) a) :
    ∃ l', num l = .ok (true, .floatlit text 0, l') ∧ Sees l' ss a := by
  have hnum : ∀ t : Token, t.symbol = .num text → t.type = .number ∧ t.start = text := by
    rintro ⟨start, type⟩ ht
    cases type <;> simp_all [Token.symbol]
  obtain ⟨t, l', hc, ht, hs⟩ := consumeIf_hit (fun t => t.type == .number) h
    fun t ht => by simp [(hnum t ht).1]
  refine ⟨l', ?_, hs⟩
  simp only [num, hc, bind, Except.bind, (hnum t ht).2]
  rfl

theorem num_miss (h : Sees l ss a) (hn : ∀ text, nextOf ss a ≠ some (.num text)) :
    ∃ l', num l = .ok (false, .null, l') ∧ Sees l' ss a := by
  obtain ⟨l', hc, hs⟩ := consumeIf_miss (fun t => t.type == .number) h fun t ht =>
    Bool.eq_false_iff.mpr fun he => hn _ (ht.trans (congrArg some (Token.isNum_iff.mp he)))
  refine ⟨l', ?_, hs⟩
  simp only [num, hc, bind, Except.bind]
  rfl

theorem ident_hit {text name : CStr} (h : Sees l (.ident text :: ss) a)
    (hname : canonicalize text = some name) :
    ∃ l', ident l = .ok (true, .ident name none, l') ∧ Sees l' ss a := by
  have hid : ∀ t : Token, t.symbol = .ident text → t.type = .ident ∧ t.start = text := by
    rintro ⟨start, type⟩ ht
    cases type <;> simp_all [Token.symbol]
  obtain ⟨t, l', hc, ht, hs⟩ := consumeIf_hit (fun t => t.type == .ident) h
    fun t ht => by simp [(hid t ht).1]
  refine ⟨l', ?_, hs⟩
  simp only [ident, hc, bind, Except.bind, (hid t ht).2, hname]
  rfl

end

/-! ### Consuming, when it is known what has been consumed -/

section
variable {l l' : Lexer}

theorem consumeIf_cases {test : Token → Bool} {o : Option Token}
    (h : consumeIf l test = .ok (o, l')) :
    (∃ t, o = some t ∧ test t = true ∧ Sees l [] (some t.symbol) ∧ Reads l [t.symbol] l') ∨
      (o = none ∧ Reads l [] l' ∧
        ∃ o', Sees l' [] (o'.map Token.symbol) ∧ ∀ t, o' = some t → test t = false) := by
  simp only [consumeIf, bind, Except.bind] at h
  split at h
  · simp at h
  · next r hr =>
    obtain ⟨o', l1⟩ := r
    obtain ⟨hreads, hsees, htp⟩ := lexerPeek_cases hr
    cases o' with
    | none =>
      obtain ⟨rfl, rfl⟩ : none = o ∧ l1 = l' := by simpa [pure, Except.pure] using h
      exact .inr ⟨rfl, hreads, none, hsees, by simp⟩
    | some t =>
      simp only at h
      split at h
      · next ht =>
        simp only [lexerNexttok_of_tpeek htp] at h
        obtain ⟨rfl, rfl⟩ : some t = o ∧ { l1 with tpeek := none } = l' := by
          simpa [pure, Except.pure] using h
        refine .inl ⟨t, rfl, ht, hreads [] _ hsees, fun us a hs => ?_⟩
        exact hreads _ a ((sees_of_tpeek htp).mpr hs)
      · next ht =>
        obtain ⟨rfl, rfl⟩ : none = o ∧ l1 = l' := by simpa [pure, Except.pure] using h
        exact .inr ⟨rfl, hreads, some t, hsees, by simpa using ht⟩

theorem consumeTok_cases {r : Rune} {b : Bool} (h : consumeTok l r = .ok (b, l')) :
    (b = true ∧ Sees l [] (some (.op r)) ∧ Reads l [.op r] l' ∧ ∃ text, firstRune text = r) ∨
      (b = false ∧ Reads l [] l' ∧ ∃ a, Sees l' [] a ∧ a ≠ some (.op r)) := by
  simp only [consumeTok] at h
  obtain ⟨o, ho, h⟩ := bind_eq_ok h
  obtain ⟨o, l1⟩ := o
  obtain ⟨rfl, rfl⟩ : o.isSome = b ∧ l1 = l' := by simpa [pure, Except.pure] using h
  rcases consumeIf_cases ho with ⟨t, rfl, ht, hsees, hreads⟩ | ⟨rfl, hreads, o', hsees, ho'⟩
  · rw [Token.isOp_iff.mp ht] at hreads hsees
    refine .inl ⟨rfl, hsees, hreads, t.start, ?_⟩
    simp only [Bool.and_eq_true, beq_iff_eq] at ht
    exact ht.2
  · refine .inr ⟨rfl, hreads, _, hsees, fun he => ?_⟩
    obtain ⟨t, rfl, ht⟩ := Option.map_eq_some_iff.mp he
    have hmiss := ho' t rfl
    rw [Token.isOp_iff.mpr ht] at hmiss
    cases hmiss

theorem consumeReserved_cases {s : CStr} {b : Bool} (h : consumeReserved l s = .ok (b, l')) :
    (b = true ∧ Sees l [] (some (.word s)) ∧ Reads l [.word s] l') ∨
      (b = false ∧ Reads l [] l' ∧ ∃ a, Sees l' [] a ∧ a ≠ some (.word s)) := by
  simp only [consumeReserved] at h
  obtain ⟨o, ho, h⟩ := bind_eq_ok h
  obtain ⟨o, l1⟩ := o
  obtain ⟨rfl, rfl⟩ : o.isSome = b ∧ l1 = l' := by simpa [pure, Except.pure] using h
  rcases consumeIf_cases ho with ⟨t, rfl, ht, hsees, hreads⟩ | ⟨rfl, hreads, o', hsees, ho'⟩
  · rw [Token.isWord_iff.mp ht] at hreads hsees
    exact .inl ⟨rfl, hsees, hreads⟩
  · refine .inr ⟨rfl, hreads, _, hsees, fun he => ?_⟩
    obtain ⟨t, rfl, ht⟩ := Option.map_eq_some_iff.mp he
    have hmiss := ho' t rfl
    rw [Token.isWord_iff.mpr ht] at hmiss
    cases hmiss

theorem consumeAnyLoop_cases {ops : List (Rune × Nat)} {o : Option Rune}
    (h : consumeAnyLoop ops l = .ok (o, l')) :
    (∃ r, o = some r ∧ r ∈ ops.map (·.1) ∧ Sees l [] (some (.op r)) ∧ Reads l [.op r] l' ∧
      ∃ text, firstRune text = r) ∨
      (o = none ∧ Reads l [] l' ∧ (ops ≠ [] → ∃ a, Sees l' [] a) ∧
        ∀ a, Sees l' [] a → ∀ r ∈ ops.map (·.1), a ≠ some (.op r)) := by
  induction ops generalizing l with
  | nil =>
    obtain ⟨rfl, rfl⟩ : none = o ∧ l = l' := by simpa [consumeAnyLoop] using h
    exact .inr ⟨rfl, .refl l, fun hne => absurd rfl hne, by simp⟩
  | cons p ops ih =>
    simp only [consumeAnyLoop] at h
    obtain ⟨b, hb, h⟩ := bind_eq_ok h
    obtain ⟨b, l1⟩ := b
    rcases consumeTok_cases hb with ⟨rfl, hsees, hreads, htext⟩ | ⟨rfl, hreads, a, hsees, ha⟩
    · obtain ⟨rfl, rfl⟩ : some p.1 = o ∧ l1 = l' := by simpa [pure, Except.pure] using h
      exact .inl ⟨p.1, rfl, by simp, hsees, hreads, htext⟩
    · have hrest : consumeAnyLoop ops l1 = .ok (o, l') := h
      rcases ih hrest with ⟨r, rfl, hr, hsees', hreads', htext⟩ | ⟨rfl, hreads', hsees', hnone⟩
      · refine .inl ⟨r, rfl, ?_, hreads [] _ hsees', hreads.trans hreads', htext⟩
        rw [List.map_cons]
        exact List.mem_cons_of_mem _ hr
      · -- the next symbol is still the one that has been compared with `p`
        have hback : ∀ b, Sees l' [] b → b = a := fun b hb => (hreads' [] b hb).unique hsees
        refine .inr ⟨rfl, hreads.trans hreads', fun _ => ?_, fun b hb r hr => ?_⟩
        · by_cases hops : ops = []
          · subst hops
            obtain rfl : l1 = l' := by simpa [consumeAnyLoop] using hrest
            exact ⟨a, hsees⟩
          · exact hsees' hops
        · rw [List.map_cons] at hr
          rcases List.mem_cons.mp hr with rfl | hr
          · exact hback b hb ▸ ha
          · exact hnone b hb r hr

theorem num_cases {b : Bool} {n : Node} (h : num l = .ok (b, n, l')) :
    (b = true ∧ ∃ text, n = .floatlit text 0 ∧ Reads l [.num text] l') ∨
      (b = false ∧ Reads l [] l') := by
  simp only [num] at h
  obtain ⟨o, ho, h⟩ := bind_eq_ok h
  obtain ⟨o, l1⟩ := o
  rcases consumeIf_cases ho with ⟨t, rfl, ht, -, hreads⟩ | ⟨rfl, hreads, -⟩
  · obtain ⟨rfl, rfl, rfl⟩ : true = b ∧ Node.floatlit t.start 0 = n ∧ l1 = l' := by
      simpa [pure, Except.pure] using h
    rw [Token.isNum_iff.mp ht] at hreads
    exact .inl ⟨rfl, _, rfl, hreads⟩
  · obtain ⟨rfl, -, rfl⟩ : false = b ∧ Node.null = n ∧ l1 = l' := by
      simpa [pure, Except.pure] using h
    exact .inr ⟨rfl, hreads⟩

theorem ident_cases {b : Bool} {n : Node} (h : ident l = .ok (b, n, l')) :
    (b = true ∧ ∃ text name, canonicalize text = some name ∧ n = .ident name none ∧
      Reads l [.ident text] l') ∨ b = false := by
  simp only [ident] at h
  obtain ⟨o, ho, h⟩ := bind_eq_ok h
  obtain ⟨o, l1⟩ := o
  rcases consumeIf_cases ho with ⟨t, rfl, ht, -, hreads⟩ | ⟨rfl, -⟩
  · simp only at h
    split at h
    · simp at h
    · next name hname =>
      obtain ⟨rfl, rfl, rfl⟩ : true = b ∧ Node.ident name none = n ∧ l1 = l' := by
        simpa [pure, Except.pure] using h
      rw [Token.isIdent_iff.mp ht] at hreads
      exact .inl ⟨rfl, _, name, hname, rfl, hreads⟩
  · obtain ⟨rfl, -⟩ : false = b ∧ _ := by simpa [pure, Except.pure] using h
    exact .inr rfl

end

end Libsd

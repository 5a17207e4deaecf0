/-
  Libsd/ParseTotal.lean
  =====================
  **The parser comes to an end.**

  `parseBody F` is one call of a parsing function, with `F` for the calls that it makes.
  These are `Smaller`: there are less tokens left, or as many and less operator levels
  (`parse_descends`).  A loop is a call of its own, from the start of a turn on, so each
  turn takes a token.
-/
import Libsd.Lib.Descent
import Libsd.LexerTotal
import Libsd.PhraseSound
import Mathlib.Order.WellFounded

namespace Libsd

open Utf Outcome Descent

/-! ### What the elementary steps take -/

/-- What an elementary step leaves: one token less when it has consumed one. -/
structure Took (consumed : Bool) (l l' : Lexer) : Prop where
  atRune : l'.AtRune
  count : tokensLeft l' + consumed.toNat = tokensLeft l

theorem Took.one {l l' : Lexer} (h : Took true l l') : tokensLeft l' + 1 = tokensLeft l := h.count

theorem Took.none {l l' : Lexer} (h : Took false l l') : tokensLeft l' = tokensLeft l := h.count

section
variable {l : Lexer} (ha : l.AtRune)
include ha

theorem consumeIf_took (test : Token → Bool) :
    Returns (fun r => Took r.1.isSome l r.2) (consumeIf l test) := by
  refine (lexerPeek_tokensLeft ha).bind fun r hr => ?_
  obtain ⟨o, l1⟩ := r
  rcases hr with ⟨ha1, hcount, htp⟩
  cases o with
  | none => exact ⟨ha1, hcount⟩
  | some t =>
    have hnext : lexerNexttok l1 = .ok (some t, { l1 with tpeek := none }) :=
      lexerNexttok_of_tpeek htp
    by_cases ht : test t
    · simp only [ht, if_true]
      rw [bind_of_ok hnext]
      exact ⟨ha1, (tokensLeft_of_some ha1 hnext).symm.trans hcount⟩
    · simp only [ht, Bool.false_eq_true, if_false]
      exact ⟨ha1, hcount⟩

theorem consumeTok_took (r : Rune) : Returns (fun q => Took q.1 l q.2) (consumeTok l r) :=
  (consumeIf_took ha _).bind fun _ hq => hq

theorem consumeReserved_took (s : CStr) :
    Returns (fun q => Took q.1 l q.2) (consumeReserved l s) :=
  (consumeIf_took ha _).bind fun _ hq => hq

theorem consumeAnyLoop_took (ops : List (Rune × Nat)) :
    Returns (fun q => Took q.1.isSome l q.2) (consumeAnyLoop ops l) := by
  induction ops generalizing l with
  | nil => exact ⟨ha, rfl⟩
  | cons p ops ih =>
    refine (consumeTok_took ha p.1).bind fun q hq => ?_
    obtain ⟨ok, l1⟩ := q
    cases ok with
    | true => exact hq
    | false =>
      refine (ih hq.atRune).imp (fun _ hr => ?_) fun _ he => he
      exact ⟨hr.atRune, hr.count.trans hq.none⟩

theorem num_took : Returns (fun q => Took q.1 l q.2.2) (num l) := by
  refine (consumeIf_took ha _).bind fun q hq => ?_
  obtain ⟨o, l1⟩ := q
  cases o with
  | none => exact hq
  | some t => exact hq

theorem ident_took : Returns (fun q => Took q.1 l q.2.2) (ident l) := by
  refine (consumeIf_took ha _).bind fun q hq => ?_
  obtain ⟨o, l1⟩ := q
  cases o with
  | none => exact hq
  | some t =>
    simp only
    split
    · exact fun he => by cases he
    · exact hq

end

/-! ### The calls -/

/-- The parsing functions with their arguments; a loop is entered at each turn. -/
inductive ParseCall where
  | expr (level : Fin MAX_BINARY)
  | exprLoop (level : Fin MAX_BINARY) (lhs : Node)
  | fact
  | call (fn : Node)
  | callLoop (fn : Node) (args : List Node)

abbrev Parsed := Except Stop (Bool × Node × Lexer)

def parseRun (fuel : Nat) : ParseCall × Lexer → Parsed
  | (.expr level, p) => expr fuel level p
  | (.exprLoop level lhs, p) => exprLoop fuel level lhs p
  | (.fact, p) => fact fuel p
  | (.call fn, p) => call fuel fn p
  | (.callLoop fn args, p) => callLoop fuel fn args p

section
variable (F : ParseCall × Lexer → Parsed)

def operandBody (level : Fin MAX_BINARY) (p : Lexer) : Parsed :=
  if h : level.val + 1 = MAX_BINARY then F (.fact, p)
  else F (.expr ⟨level.val + 1, Nat.lt_of_le_of_ne level.isLt h⟩, p)

def exprBody (level : Fin MAX_BINARY) (p : Lexer) : Parsed := do
  let (t, p) ← lexerPeek p
  if t.isNone then return (true, .null, p)
  let (ok, lhs, p) ← operandBody F level p
  if !ok then return (false, .null, p)
  F (.exprLoop level lhs, p)

def exprLoopBody (level : Fin MAX_BINARY) (lhs : Node) (p : Lexer) : Parsed := do
  let (op, p) ← consumeAny p (BINARY.getD level [])
  match op with
  | none => return (true, lhs, p)
  | some op =>
    let (ok, rhs, p) ← operandBody F level p
    if !ok || rhs.isNull then return (false, .null, p)
    F (.exprLoop level (.binary op lhs rhs), p)

/-- `expr` at level 0. -/
def phraseBody (p : Lexer) : Parsed := F (.expr ⟨0, by decide⟩, p)

def factParenBody (p : Lexer) : Parsed := do
  let (ok, l, p) ← phraseBody F p
  if !ok then return (false, .null, p)
  let (ok, p) ← consumeTok p (rune ')')
  if !ok then return (false, .null, p)
  return (true, .paren l, p)

def factUnaryBody (op : Rune) (p : Lexer) : Parsed := do
  let (ok, l, p) ← phraseBody F p
  if !ok then return (false, .null, p)
  return (true, .unary op l, p)

def factThenBody (cond : Node) (p : Lexer) : Parsed := do
  let (ok, l, p) ← phraseBody F p
  if !ok || l.isNull then return (false, .null, p)
  let (ok, p) ← consumeReserved p (cstr "else")
  if !ok then return (true, .ifElse cond l .null, p)
  let (ok, r, p) ← phraseBody F p
  if !ok || r.isNull then return (false, .null, p)
  return (true, .ifElse cond l r, p)

def factIfBody (p : Lexer) : Parsed := do
  let (ok, cond, p) ← phraseBody F p
  if !ok then return (false, .null, p)
  let (ok, p) ← consumeReserved p (cstr "then")
  if !ok then return (false, .null, p)
  factThenBody F cond p

def factNameBody (x : Node) (p : Lexer) : Parsed := do
  let (ok, p) ← consumeTok p (rune '(')
  if ok then F (.call x, p) else return (true, x, p)

def factBody (p : Lexer) : Parsed := do
  let (ok, p) ← consumeTok p (rune '(')
  if ok then factParenBody F p
  else
    let (op, p) ← consumeAny p UNARY
    match op with
    | some op => factUnaryBody F op p
    | _ =>
      let (ok, n, p) ← num p
      if ok then return (true, n, p)
      else
        let (ok, p) ← consumeReserved p (cstr "if")
        if ok then factIfBody F p
        else
          let (ok, x, p) ← ident p
          if ok then factNameBody F x p else return (false, .null, p)

def callBody (fn : Node) (p : Lexer) : Parsed := do
  let (ok, p) ← consumeTok p (rune ')')
  if ok then return (true, .call fn [] none, p)
  F (.callLoop fn [], p)

def callLoopBody (fn : Node) (args : List Node) (p : Lexer) : Parsed := do
  let (ok, arg, p) ← phraseBody F p
  if !ok then return (false, .null, p)
  let (ok, p) ← consumeTok p (rune ',')
  if ok then F (.callLoop fn (args ++ [arg]), p)
  else
    let (ok, p) ← consumeTok p (rune ')')
    if ok then return (true, .call fn (args ++ [arg]) none, p)
    return (false, .null, p)

def parseBody : ParseCall × Lexer → Parsed
  | (.expr level, p) => exprBody F level p
  | (.exprLoop level lhs, p) => exprLoopBody F level lhs p
  | (.fact, p) => factBody F p
  | (.call fn, p) => callBody F fn p
  | (.callLoop fn args, p) => callLoopBody F fn args p

end

theorem operand_eq (fuel : Nat) (level : Fin MAX_BINARY) (p : Lexer) :
    operand (fact fuel) (expr fuel) level p = operandBody (parseRun fuel) level p := by
  rw [operand, operandBody]
  by_cases h : level.val + 1 = MAX_BINARY
  · rw [if_pos h, dif_pos h]
    rfl
  · rw [if_neg h, dif_neg h]
    rfl

/-- The functions of the source are these bodies, with the functions themselves for the calls. -/
theorem parseRun_succ (fuel : Nat) (x : ParseCall × Lexer) :
    parseRun (fuel + 1) x = parseBody (parseRun fuel) x := by
  rcases x with ⟨level | ⟨level, lhs⟩ | _ | fn | ⟨fn, args⟩, p⟩
  · rw [parseRun, expr, parseBody, exprBody]
    simp only [operand_eq]
    rfl
  · rw [parseRun, exprLoop, parseBody, exprLoopBody]
    simp only [operand_eq]
    rfl
  · rw [parseRun, fact_eq]
    rfl
  · rw [parseRun, call]
    rfl
  · rw [parseRun, callLoop]
    rfl

theorem parseRun_zero (x : ParseCall × Lexer) : parseRun 0 x = .error .diverge := by
  rcases x with ⟨level | ⟨level, lhs⟩ | _ | fn | ⟨fn, args⟩, p⟩ <;> rfl

/-! ### Smaller calls -/

/-- The operator levels that are left; the argument loop comes before level 0. -/
def ParseCall.levels : ParseCall → Nat
  | .expr level => MAX_BINARY - level
  | .exprLoop _ _ => 0
  | .fact => 0
  | .callLoop _ _ => MAX_BINARY + 1
  | .call _ => MAX_BINARY + 2

/-- The tokens and the operator levels that are left. -/
def parseMeasure (x : ParseCall × Lexer) : Nat × Nat := (tokensLeft x.2, x.1.levels)

def Smaller (y x : ParseCall × Lexer) : Prop :=
  Prod.Lex (· < ·) (· < ·) (parseMeasure y) (parseMeasure x)

theorem smaller_wf : WellFounded Smaller :=
  InvImage.wf parseMeasure (WellFounded.prod_lex wellFounded_lt wellFounded_lt)

theorem smaller_iff {y x : ParseCall × Lexer} : Smaller y x ↔
    tokensLeft y.2 < tokensLeft x.2 ∨
      tokensLeft y.2 = tokensLeft x.2 ∧ y.1.levels < x.1.levels :=
  Prod.lex_def

/-- The fuel a call needs is less than this. -/
def weight (x : ParseCall × Lexer) : Nat := 10 * tokensLeft x.2 + x.1.levels

def CallBelow (y x : ParseCall × Lexer) : Prop := Smaller y x ∧ weight y < weight x

theorem ParseCall.levels_le (c : ParseCall) : c.levels ≤ 10 := by
  have h8 : MAX_BINARY = 8 := rfl
  cases c <;> simp only [ParseCall.levels] <;> omega

/-- A call after two tokens, or one after a token that is no `call`. -/
theorem below_of_lt {y x : ParseCall × Lexer}
    (h : 10 * tokensLeft y.2 + y.1.levels < 10 * tokensLeft x.2) : CallBelow y x := by
  refine ⟨smaller_iff.mpr (.inl (by omega)), ?_⟩
  rw [weight, weight]
  exact Nat.lt_of_lt_of_le h (Nat.le_add_right _ _)

theorem below_of_le {y x : ParseCall × Lexer} (h : tokensLeft y.2 ≤ tokensLeft x.2)
    (hlevels : y.1.levels < x.1.levels) : CallBelow y x := by
  refine ⟨smaller_iff.mpr ?_, ?_⟩
  · rcases Nat.lt_or_eq_of_le h with hlt | heq
    · exact .inl hlt
    · exact .inr ⟨heq, hlevels⟩
  · rw [weight, weight]
    omega

/-! ### Every call descends -/

/-- What a call with `k` tokens left returns. -/
structure ParseKept (k : Nat) (r : Bool × Node × Lexer) : Prop where
  atRune : r.2.2.AtRune
  count : tokensLeft r.2.2 ≤ k
  null : r.1 = false → r.2.1 = .null

theorem ParseKept.mono {k k' : Nat} {r : Bool × Node × Lexer} (h : ParseKept k r) (hk : k ≤ k') :
    ParseKept k' r :=
  ⟨h.atRune, h.count.trans hk, h.null⟩

section
variable {Q : Stop → Prop} {F G : ParseCall × Lexer → Parsed} {k : Nat} {p : Lexer}
  (ha : p.AtRune) (hp : tokensLeft p ≤ k)
include ha hp

theorem alike_true (n : Node) :
    Alike (ParseKept k) Q (.ok (true, n, p) : Parsed) (.ok (true, n, p)) :=
  .same ⟨ha, hp, fun h => by cases h⟩

theorem alike_false :
    Alike (ParseKept k) Q (.ok (false, .null, p) : Parsed) (.ok (false, .null, p)) :=
  .same ⟨ha, hp, fun _ => rfl⟩

end

section
variable {Q : Stop → Prop} {F G : ParseCall × Lexer → Parsed} {x : ParseCall × Lexer}
  (hbelow : ∀ y, y.2.AtRune → CallBelow y x → Alike (ParseKept (tokensLeft y.2)) Q (F y) (G y))
include hbelow

theorem call_alike {k : Nat} {c : ParseCall} {p : Lexer} (ha : p.AtRune) (hp : tokensLeft p ≤ k)
    (h : CallBelow (c, p) x) : Alike (ParseKept k) Q (F (c, p)) (G (c, p)) :=
  (hbelow (c, p) ha h).imp fun _ hr => hr.mono hp

theorem operand_alike (level : Fin MAX_BINARY) {k : Nat} {p : Lexer} (ha : p.AtRune)
    (hp : tokensLeft p ≤ k)
    (h : ∀ c : ParseCall, c.levels < MAX_BINARY - level → CallBelow (c, p) x) :
    Alike (ParseKept k) Q (operandBody F level p) (operandBody G level p) := by
  have hlevel := level.isLt
  rw [operandBody, operandBody]
  split
  · refine call_alike hbelow ha hp (h _ ?_)
    rw [ParseCall.levels]
    omega
  · refine call_alike hbelow ha hp (h _ ?_)
    simp only [ParseCall.levels]
    omega

/-- Level 0, behind a token. -/
theorem phrase_alike {k : Nat} {p : Lexer} (hk : k < tokensLeft x.2) (ha : p.AtRune)
    (hp : tokensLeft p ≤ k) : Alike (ParseKept k) Q (phraseBody F p) (phraseBody G p) := by
  refine call_alike hbelow ha hp (below_of_lt ?_)
  have hlevels : (ParseCall.expr ⟨0, by decide⟩).levels = 8 := rfl
  rw [hlevels]
  dsimp only
  omega

variable (hQ : ∀ e, e ≠ .diverge → Q e)
include hQ

omit hbelow in
theorem alike_took {α : Type} {P : α → Prop} {y : Except Stop α} (h : Returns P y) :
    Alike P Q y y :=
  .same (h.imp (fun _ hr => hr) hQ)

theorem exprBody_alike {level : Fin MAX_BINARY} {l : Lexer} (hx : x = (.expr level, l))
    (ha : l.AtRune) :
    Alike (ParseKept (tokensLeft l)) Q (exprBody F level l) (exprBody G level l) := by
  subst hx
  have hlevel := level.isLt
  refine (alike_took hQ (lexerPeek_tokensLeft ha)).bind ?_
  rintro ⟨o, l1⟩ ⟨ha1, hcount, -⟩
  cases o with
  | none => exact alike_true ha1 hcount.le _
  | some t =>
    have hless : ∀ c p, tokensLeft p ≤ tokensLeft l → c.levels < MAX_BINARY - level →
        CallBelow (c, p) (.expr level, l) := fun c p hp hc => below_of_le hp hc
    refine (operand_alike hbelow level ha1 hcount.le fun c hc => hless c l1 hcount.le hc).bind ?_
    rintro ⟨ok, lhs, l2⟩ hr
    cases ok with
    | false => exact alike_false hr.atRune hr.count
    | true =>
      refine call_alike hbelow hr.atRune hr.count (hless _ _ hr.count ?_)
      rw [ParseCall.levels]
      omega

theorem exprLoopBody_alike {level : Fin MAX_BINARY} {lhs : Node} {l : Lexer}
    (hx : x = (.exprLoop level lhs, l)) (ha : l.AtRune) :
    Alike (ParseKept (tokensLeft l)) Q (exprLoopBody F level lhs l)
      (exprLoopBody G level lhs l) := by
  subst hx
  refine (alike_took hQ (consumeAnyLoop_took ha _)).bind ?_
  rintro ⟨op, l1⟩ hr
  cases op with
  | none => exact alike_true hr.atRune hr.none.le _
  | some op =>
    -- a turn has taken its operator
    have hone := hr.one
    have h8 : MAX_BINARY = 8 := rfl
    refine (operand_alike hbelow level hr.atRune (k := tokensLeft l1) (Nat.le_refl _)
      fun c hc => below_of_lt ?_).bind ?_
    · dsimp only at hone ⊢
      omega
    rintro ⟨ok, rhs, l2⟩ hr2
    have hcount := hr2.count
    dsimp only at hone hcount ⊢
    split
    · exact alike_false hr2.atRune (by omega)
    · refine call_alike hbelow hr2.atRune (by omega) (below_of_lt ?_)
      simp only [ParseCall.levels]
      omega

theorem factParenBody_alike {k : Nat} {p : Lexer} (hk : k < tokensLeft x.2) (ha : p.AtRune)
    (hp : tokensLeft p ≤ k) : Alike (ParseKept k) Q (factParenBody F p) (factParenBody G p) := by
  refine (phrase_alike hbelow hk ha hp).bind ?_
  rintro ⟨ok, e, l1⟩ hr
  cases ok with
  | false => exact alike_false hr.atRune hr.count
  | true =>
    refine (alike_took hQ (consumeTok_took hr.atRune _)).bind ?_
    rintro ⟨close, l2⟩ hr2
    cases close with
    | false => exact alike_false hr2.atRune (hr2.none.le.trans hr.count)
    | true => exact alike_true hr2.atRune ((Nat.le_of_succ_le hr2.one.le).trans hr.count) _

omit hQ in
theorem factUnaryBody_alike (op : Rune) {k : Nat} {p : Lexer} (hk : k < tokensLeft x.2)
    (ha : p.AtRune) (hp : tokensLeft p ≤ k) :
    Alike (ParseKept k) Q (factUnaryBody F op p) (factUnaryBody G op p) := by
  refine (phrase_alike hbelow hk ha hp).bind ?_
  rintro ⟨ok, e, l1⟩ hr
  cases ok with
  | false => exact alike_false hr.atRune hr.count
  | true => exact alike_true hr.atRune hr.count _

theorem factThenBody_alike (c : Node) {k : Nat} {p : Lexer} (hk : k < tokensLeft x.2)
    (ha : p.AtRune) (hp : tokensLeft p ≤ k) :
    Alike (ParseKept k) Q (factThenBody F c p) (factThenBody G c p) := by
  refine (phrase_alike hbelow hk ha hp).bind ?_
  rintro ⟨ok, t, l1⟩ hr
  dsimp only
  split
  · exact alike_false hr.atRune hr.count
  · refine (alike_took hQ (consumeReserved_took hr.atRune _)).bind ?_
    rintro ⟨els, l2⟩ hr2
    cases els with
    | false => exact alike_true hr2.atRune (hr2.none.le.trans hr.count) _
    | true =>
      have hcount : tokensLeft l2 ≤ k := (Nat.le_succ _).trans (hr2.one.le.trans hr.count)
      refine (phrase_alike hbelow hk hr2.atRune hcount).bind ?_
      rintro ⟨ok', r, l3⟩ hr3
      dsimp only
      split
      · exact alike_false hr3.atRune hr3.count
      · exact alike_true hr3.atRune hr3.count _

theorem factIfBody_alike {k : Nat} {p : Lexer} (hk : k < tokensLeft x.2) (ha : p.AtRune)
    (hp : tokensLeft p ≤ k) : Alike (ParseKept k) Q (factIfBody F p) (factIfBody G p) := by
  refine (phrase_alike hbelow hk ha hp).bind ?_
  rintro ⟨ok, c, l1⟩ hr
  cases ok with
  | false => exact alike_false hr.atRune hr.count
  | true =>
    refine (alike_took hQ (consumeReserved_took hr.atRune _)).bind ?_
    rintro ⟨thn, l2⟩ hr2
    cases thn with
    | false => exact alike_false hr2.atRune (hr2.none.le.trans hr.count)
    | true =>
      have hcount : tokensLeft l2 ≤ k := (Nat.le_succ _).trans (hr2.one.le.trans hr.count)
      exact factThenBody_alike hbelow hQ c hk hr2.atRune hcount

/-- A call has its name and the parenthesis behind it. -/
theorem factNameBody_alike (n : Node) {k : Nat} {p : Lexer} (hk : k < tokensLeft x.2)
    (ha : p.AtRune) (hp : tokensLeft p ≤ k) :
    Alike (ParseKept k) Q (factNameBody F n p) (factNameBody G n p) := by
  refine (alike_took hQ (consumeTok_took ha _)).bind ?_
  rintro ⟨paren, l1⟩ hr
  cases paren with
  | false => exact alike_true hr.atRune (hr.none.le.trans hp) _
  | true =>
    have hone := hr.one
    dsimp only at hone
    refine call_alike hbelow hr.atRune (by omega) (below_of_lt ?_)
    have hlevels := (ParseCall.call n).levels_le
    dsimp only
    omega

theorem factBody_alike {l : Lexer} (hx : x = (.fact, l)) (ha : l.AtRune) :
    Alike (ParseKept (tokensLeft l)) Q (factBody F l) (factBody G l) := by
  have hback : ∀ {k : Nat} {y z : Parsed}, k < tokensLeft x.2 → Alike (ParseKept k) Q y z →
      Alike (ParseKept (tokensLeft l)) Q y z := by
    intro k y z hk h
    subst hx
    exact h.imp fun _ hr => hr.mono hk.le
  have hless : ∀ {l1 l2 : Lexer}, Took true l1 l2 → tokensLeft l1 = tokensLeft l →
      tokensLeft l2 < tokensLeft x.2 := by
    intro l1 l2 hr heq
    subst hx
    exact (Nat.lt_of_succ_le hr.one.le).trans_le heq.le
  refine (alike_took hQ (consumeTok_took ha _)).bind ?_
  rintro ⟨paren, l1⟩ h1
  cases paren with
  | true =>
    have hk := hless h1 rfl
    exact hback hk (factParenBody_alike hbelow hQ hk h1.atRune (Nat.le_refl _))
  | false =>
    refine (alike_took hQ (consumeAnyLoop_took h1.atRune _)).bind ?_
    rintro ⟨op, l2⟩ h2
    cases op with
    | some op =>
      have hk := hless h2 h1.none
      exact hback hk (factUnaryBody_alike hbelow op hk h2.atRune (Nat.le_refl _))
    | none =>
      have heq2 := h2.none.trans h1.none
      refine (alike_took hQ (num_took h2.atRune)).bind ?_
      rintro ⟨isNum, n, l3⟩ h3
      cases isNum with
      | true =>
        have hk := hless h3 heq2
        exact hback hk (alike_true h3.atRune (Nat.le_refl _) n)
      | false =>
        have heq3 := h3.none.trans heq2
        refine (alike_took hQ (consumeReserved_took h3.atRune _)).bind ?_
        rintro ⟨iff, l4⟩ h4
        cases iff with
        | true =>
          have hk := hless h4 heq3
          exact hback hk (factIfBody_alike hbelow hQ hk h4.atRune (Nat.le_refl _))
        | false =>
          have heq4 := h4.none.trans heq3
          refine (alike_took hQ (ident_took h4.atRune)).bind ?_
          rintro ⟨isIdent, n, l5⟩ h5
          cases isIdent with
          | true =>
            have hk := hless h5 heq4
            exact hback hk (factNameBody_alike hbelow hQ n hk h5.atRune (Nat.le_refl _))
          | false => exact alike_false h5.atRune (h5.none.trans heq4).le

theorem callBody_alike {fn : Node} {l : Lexer} (hx : x = (.call fn, l)) (ha : l.AtRune) :
    Alike (ParseKept (tokensLeft l)) Q (callBody F fn l) (callBody G fn l) := by
  subst hx
  refine (alike_took hQ (consumeTok_took ha _)).bind ?_
  rintro ⟨close, l1⟩ hr
  cases close with
  | true => exact alike_true hr.atRune (Nat.le_of_succ_le hr.one.le) _
  | false =>
    have hcount := hr.none.le
    exact call_alike hbelow hr.atRune hcount (below_of_le hcount (Nat.lt_succ_self _))

theorem callLoopBody_alike {fn : Node} {args : List Node} {l : Lexer}
    (hx : x = (.callLoop fn args, l)) (ha : l.AtRune) :
    Alike (ParseKept (tokensLeft l)) Q (callLoopBody F fn args l) (callLoopBody G fn args l) := by
  subst hx
  have hphrase : Alike (ParseKept (tokensLeft l)) Q (phraseBody F l) (phraseBody G l) :=
    call_alike hbelow ha (Nat.le_refl _) (below_of_le (Nat.le_refl _) (Nat.lt_succ_self _))
  refine hphrase.bind ?_
  rintro ⟨ok, arg, l1⟩ hr
  cases ok with
  | false => exact alike_false hr.atRune hr.count
  | true =>
    refine (alike_took hQ (consumeTok_took hr.atRune _)).bind ?_
    rintro ⟨comma, l2⟩ hr2
    cases comma with
    | true =>
      -- the next turn is behind the comma
      have hlt : tokensLeft l2 < tokensLeft l := (Nat.lt_of_succ_le hr2.one.le).trans_le hr.count
      refine call_alike hbelow hr2.atRune hlt.le ⟨smaller_iff.mpr (.inl hlt), ?_⟩
      have hsame : 10 * tokensLeft l2 < 10 * tokensLeft l :=
        Nat.mul_lt_mul_of_pos_left hlt (by decide)
      exact Nat.add_lt_add_right hsame _
    | false =>
      refine (alike_took hQ (consumeTok_took hr2.atRune _)).bind ?_
      rintro ⟨close, l3⟩ hr3
      have hcount := hr2.none.le.trans hr.count
      cases close with
      | true => exact alike_true hr3.atRune ((Nat.le_of_succ_le hr3.one.le).trans hcount) _
      | false => exact alike_false hr3.atRune (hr3.none.le.trans hcount)

end

/-- Every call that a parsing function makes is below it. -/
theorem parseBody_descends :
    Descends parseBody .diverge CallBelow (fun x => x.2.AtRune)
      fun x => ParseKept (tokensLeft x.2) := by
  intro Q hQ F G x ha hbelow
  rcases x with ⟨level | ⟨level, lhs⟩ | _ | fn | ⟨fn, args⟩, l⟩
  · exact exprBody_alike hbelow hQ rfl ha
  · exact exprLoopBody_alike hbelow hQ rfl ha
  · exact factBody_alike hbelow hQ rfl ha
  · exact callBody_alike hbelow hQ rfl ha
  · exact callLoopBody_alike hbelow hQ rfl ha

/-! ### The parser -/

theorem weight_lt : ∀ x y : ParseCall × Lexer, CallBelow y x → weight y < weight x :=
  fun _ _ h => h.2

/-- What the parsing functions return, whatever the fuel is. -/
theorem parseRun_kept (fuel : Nat) {x : ParseCall × Lexer} (ha : x.2.AtRune)
    {r : Bool × Node × Lexer} (h : parseRun fuel x = .ok r) : ParseKept (tokensLeft x.2) r :=
  (parseBody_descends.keeps parseRun_zero parseRun_succ fuel ha).of_ok h

/-- The parsing functions come to an end when they have more fuel than their weight. -/
theorem parseRun_returns {fuel : Nat} {x : ParseCall × Lexer} (ha : x.2.AtRune)
    (hfuel : weight x < fuel) : Returns (ParseKept (tokensLeft x.2)) (parseRun fuel x) :=
  parseBody_descends.returns parseRun_succ weight_lt ha hfuel

theorem weight_phrase {l : Lexer} (ha : l.AtRune) (htpeek : l.tpeek = none) :
    weight (.expr ⟨0, by decide⟩, l) < parseFuel l := by
  have hahead := tokensLeft_le_ahead ha
  have hlevels : (ParseCall.expr ⟨0, by decide⟩).levels = 8 := rfl
  rw [ahead, htpeek] at hahead
  simp only [Option.isSome_none, Bool.false_eq_true, if_false] at hahead
  rw [weight, parseFuel, hlevels]
  dsimp only
  omega

theorem avarEqnParse_returns (eqn : CStr) : Returns (fun _ => True) (avarEqnParse eqn) := by
  unfold avarEqnParse
  cases hl : lexerInit eqn with
  | error e =>
    simp only [lexerInit] at hl
    split at hl
    · obtain rfl := Except.error.inj hl
      exact fun h => by cases h
    · cases hl
  | ok l =>
    rcases lexerInit_spec hl with ⟨htpeek, -, ha⟩
    have hexpr : Returns (ParseKept (tokensLeft l)) (expr (parseFuel l) 0 l) :=
      parseRun_returns (x := (.expr ⟨0, by decide⟩, l)) ha (weight_phrase ha htpeek)
    refine hexpr.bind ?_
    rintro ⟨ok, n, l1⟩ -
    cases ok with
    | true => trivial
    | false => exact fun h => by cases h

/-- What holds of a call `x`: the calls that it makes are smaller, since replacing the others
    changes nothing; with enough fuel it ends, and more fuel changes nothing; and when it fails
    there is no tree. -/
structure ParseDescends (x : ParseCall × Lexer) : Prop where
  calls : ∀ (fuel : Nat) (F : ParseCall × Lexer → Parsed),
    (∀ y, y.2.AtRune → Smaller y x → F y = parseRun fuel y) →
      parseRun (fuel + 1) x = parseBody F x
  ends : ∃ r, r ≠ .error .diverge ∧ ∀ fuel, weight x < fuel → parseRun fuel x = r
  null : ∀ fuel n l', parseRun fuel x = .ok (false, n, l') → n = .null

theorem parseDescends {x : ParseCall × Lexer} (ha : x.2.AtRune) : ParseDescends x where
  calls fuel F hF :=
    parseBody_descends.determined parseRun_zero parseRun_succ fuel ha fun y hy hyx => hF y hy hyx.1
  ends := by
    have hreturns := parseRun_returns ha (Nat.lt_succ_self (weight x))
    refine ⟨parseRun (weight x + 1) x, fun h => hreturns.of_error h rfl, fun fuel hfuel => ?_⟩
    exact parseBody_descends.stable parseRun_succ weight_lt ha hfuel (Nat.lt_succ_self _)
  null fuel n l' h := (parseRun_kept fuel ha h).null rfl

/-- A turn of the operator loop is smaller than the one before when it has less tokens left. -/
theorem smaller_exprLoop (level : Fin MAX_BINARY) (n n' : Node) (l l' : Lexer) :
    Smaller (.exprLoop level n', l') (.exprLoop level n, l) ↔ tokensLeft l' < tokensLeft l :=
  smaller_iff.trans (or_iff_left fun h => Nat.lt_irrefl _ h.2)

theorem smaller_callLoop (fn : Node) (ns ns' : List Node) (l l' : Lexer) :
    Smaller (.callLoop fn ns', l') (.callLoop fn ns, l) ↔ tokensLeft l' < tokensLeft l :=
  smaller_iff.trans (or_iff_left fun h => Nat.lt_irrefl _ h.2)

/-- **The parser terminates**: there is no endless descent, the turns of both loops take a
    token, every call descends, and every equation is parsed or refused. -/
theorem parse_terminates :
    WellFounded Smaller ∧
      (∀ level n n' l l', Smaller (.exprLoop level n', l') (.exprLoop level n, l) →
        tokensLeft l' < tokensLeft l) ∧
      (∀ fn ns ns' l l', Smaller (.callLoop fn ns', l') (.callLoop fn ns, l) →
        tokensLeft l' < tokensLeft l) ∧
      (∀ x : ParseCall × Lexer, x.2.AtRune → ParseDescends x) ∧
      ∀ eqn, avarEqnParse eqn ≠ .error .diverge ∧ ∀ l, lexerInit eqn = .ok l → l.AtRune := by
  refine ⟨smaller_wf, fun _ _ _ _ _ h => (smaller_exprLoop ..).mp h,
    fun _ _ _ _ _ h => (smaller_callLoop ..).mp h, fun x ha => parseDescends ha, fun eqn => ?_⟩
  exact ⟨fun h => (avarEqnParse_returns eqn).of_error h rfl, fun l hl => (lexerInit_spec hl).2.2⟩

/-- A call that the text breaks off in. -/
theorem parse_terminates_open :
    ParseDescends (.expr ⟨0, by decide⟩,
      { src := cstr "f(a,", peek := rune 'f', len := 4, pos := 0, tpeek := none }) :=
  parse_terminates.2.2.2.1 _ fun _ => show 0 < 4 by decide

end Libsd

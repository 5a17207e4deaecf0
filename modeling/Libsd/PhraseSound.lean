/-
  Libsd/PhraseSound.lean
  ======================
  **Where the parser succeeds, it has read a legal phrase.**

  `Yields fuel` says it of each parsing function when it runs with so much fuel.  The
  exception is the end of the equation: there `expr` succeeds with NULL.
-/
import Libsd.PhraseComplete

namespace Libsd

open Utf Precedence OpTree Outcome

/-! ### Sequences in two parts -/

section
variable (qs qs' : List (BinOp × Operand))

theorem operandSymbols_append :
    operandSymbols (qs ++ qs') = operandSymbols qs ++ operandSymbols qs' := by
  induction qs with
  | nil => rfl
  | cons q qs ih => simp only [List.cons_append, operandSymbols, ih, List.append_assoc]

theorem operandNodes_append : operandNodes (qs ++ qs') = operandNodes qs ++ operandNodes qs' := by
  simp only [operandNodes_eq_map, List.map_append]

theorem lastStops_append (p : Prop) (a : Option Symbol) :
    lastStops p (qs ++ qs') a = lastStops (lastStops p qs a) qs' a := by
  induction qs generalizing p with
  | nil => rfl
  | cons q qs ih => exact ih _

theorem operandsLegal_append (st : Option Symbol → Prop) : operandsLegal st (qs ++ qs') ↔
    operandsLegal st qs ∧ operandsLegal (fun a => lastStops (st a) qs a) qs' := by
  induction qs generalizing st with
  | nil => exact ⟨fun h => ⟨trivial, h⟩, fun h => h.2⟩
  | cons q qs ih =>
    simp only [List.cons_append, operandsLegal, lastStops, ih, and_assoc]

end

/-- The operators and operands between `l` and `l'`, behind an operand that stops
    where `st` says. -/
structure Run (level : Nat) (st : Option Symbol → Prop) (l l' : Lexer)
    (rest : List (BinOp × Operand)) : Prop where
  levels : ∀ q ∈ rest, level ≤ q.1.level
  legal : operandsLegal st rest
  reads : Reads l (operandSymbols rest) l'
  stops : ∀ a, Sees l' [] a → lastStops (st a) rest a ∧ NoOp level a

namespace Run

variable {level : Nat} {st : Option Symbol → Prop} {l m l' : Lexer}
  {rest rest' : List (BinOp × Operand)}

/-- What is tighter comes first. -/
theorem append (h : Run (level + 1) st l m rest)
    (h' : Run level (fun a => lastStops (st a) rest a) m l' rest') :
    Run level st l l' (rest ++ rest') where
  levels q hq := by
    rcases List.mem_append.mp hq with hq | hq
    · exact (Nat.le_succ _).trans (h.levels q hq)
    · exact h'.levels q hq
  legal := (operandsLegal_append rest rest' st).mpr ⟨h.legal, h'.legal⟩
  reads := operandSymbols_append rest rest' ▸ h.reads.trans h'.reads
  stops a ha := lastStops_append rest rest' (st a) a ▸ h'.stops a ha

theorem levels_nodes (h : Run level st l l' rest) : ∀ p ∈ operandNodes rest, level ≤ p.1.level := by
  intro p hp
  rw [operandNodes_eq_map] at hp
  obtain ⟨q, hq, rfl⟩ := List.mem_map.mp hp
  exact h.levels q hq

end Run

/-- An operand and the run behind it, with the tree `expr` makes of them. -/
def Sequence (level : Nat) (l : Lexer) (n : Node) (l' : Lexer) : Prop :=
  ∃ (x : Operand) (rest : List (BinOp × Operand)) (m : Lexer), x.Legal ∧ Reads l x.symbols m ∧
    Run level x.Stops m l' rest ∧ n = toNode (build descent x.node (operandNodes rest))

/-- Nothing is left, and nothing has been read. -/
def NothingRead (l : Lexer) (n : Node) (l' : Lexer) : Prop :=
  n = .null ∧ Reads l [] l' ∧ Sees l' [] none

/-- A legal phrase has been read, up to a symbol at which it stops. -/
def PhraseRead (l : Lexer) (n : Node) (l' : Lexer) : Prop :=
  ∃ e : Phrase, e.Legal ∧ n = e.node ∧ Reads l e.symbols l' ∧ ∃ a, Sees l' [] a ∧ e.Stops a

/-- What is known of the results of the parsing functions with so much fuel, when
    they succeed. -/
structure Yields (fuel : Nat) : Prop where
  fact : ∀ (l l' : Lexer) (n : Node), Libsd.fact fuel l = .ok (true, n, l') →
    ∃ x : Operand, x.Legal ∧ n = x.node ∧ Reads l x.symbols l' ∧ ∀ a, Sees l' [] a → x.Stops a
  expr : ∀ level < MAX_BINARY, ∀ (l l' : Lexer) (n : Node),
    Libsd.expr fuel level l = .ok (true, n, l') →
    NothingRead l n l' ∨ Sequence level l n l' ∧ ∃ a, Sees l' [] a
  loop : ∀ level < MAX_BINARY, ∀ (t : OpTree BinOp Node) (st : Option Symbol → Prop)
    (l l' : Lexer) (n : Node), exprLoop fuel level (toNode t) l = .ok (true, n, l') →
    (∀ p ∈ t.rest, level ≤ p.1.level) → (∀ a, Sees l [] a → st a ∧ NoOp (level + 1) a) →
    ∃ rest, Run level st l l' rest ∧ n = toNode ((operandNodes rest).foldl (ins descent) t) ∧
      ∃ a, Sees l' [] a
  call : ∀ (fn : Node) (l l' : Lexer) (n : Node), Libsd.call fuel fn l = .ok (true, n, l') →
    ∃ args, argsLegal args ∧ n = .call fn (phraseNodes args) none ∧ Reads l (argSymbols args) l'
  callLoop : ∀ (fn : Node) (ns : List Node) (l l' : Lexer) (n : Node),
    Libsd.callLoop fuel fn ns l = .ok (true, n, l') →
    ∃ (e : Phrase) (es : List Phrase), argsLegal (e :: es) ∧
      n = .call fn (ns ++ phraseNodes (e :: es)) none ∧
      Reads l (e.symbols ++ moreArgSymbols es) l'

/-! ### Sequences -/

section
variable {fuel : Nat} (ih : Yields fuel)
include ih

theorem Yields.phrase {l l' : Lexer} {n : Node} (h : Libsd.expr fuel 0 l = .ok (true, n, l')) :
    NothingRead l n l' ∨ PhraseRead l n l' := by
  rcases ih.expr 0 (by decide) l l' n h with hend | ⟨⟨x, rest, m, hlegal, hreads, hrun, rfl⟩, a, ha⟩
  · exact .inl hend
  · exact .inr ⟨.mk x rest, ⟨hlegal, hrun.legal⟩, rfl, hreads.trans hrun.reads, a, ha,
      hrun.stops a ha⟩

theorem Yields.operand {level : Nat} (hlevel : level < MAX_BINARY) {l l' : Lexer} {n : Node}
    (h : Libsd.operand (Libsd.fact fuel) (Libsd.expr fuel) level l = .ok (true, n, l')) :
    NothingRead l n l' ∨ Sequence (level + 1) l n l' := by
  rw [Libsd.operand] at h
  split at h
  · next hmax =>
    obtain ⟨x, hlegal, rfl, hreads, hstops⟩ := ih.fact l l' n h
    refine .inr ⟨x, [], l', hlegal, hreads, ?_, rfl⟩
    exact { levels := by simp
            legal := trivial
            reads := .refl l'
            stops := fun a ha => ⟨hstops a ha, fun i hi hi' => absurd hi' (by omega)⟩ }
  · rcases ih.expr (level + 1) (by omega) l l' n h with hend | ⟨hseq, -⟩
    · exact .inl hend
    · exact .inr hseq

theorem Yields.expr_succ : ∀ level < MAX_BINARY, ∀ (l l' : Lexer) (n : Node),
    Libsd.expr (fuel + 1) level l = .ok (true, n, l') →
    NothingRead l n l' ∨ Sequence level l n l' ∧ ∃ a, Sees l' [] a := by
  intro level hlevel l l' n h
  simp only [Libsd.expr] at h
  obtain ⟨r, hr, h⟩ := bind_eq_ok h
  obtain ⟨o, l1⟩ := r
  obtain ⟨hreads, hsees, -⟩ := lexerPeek_cases hr
  cases o with
  | none =>
    obtain ⟨rfl, rfl⟩ : Node.null = n ∧ l1 = l' := by simpa [pure, Except.pure] using h
    exact .inl ⟨rfl, hreads, hsees⟩
  | some t =>
    simp only [Option.isNone_some, Bool.false_eq_true, if_false] at h
    obtain ⟨r, hr, h⟩ := bind_eq_ok h
    obtain ⟨ok, lhs, l2⟩ := r
    cases ok with
    | false => simp [pure, Except.pure] at h
    | true =>
      simp only [Bool.not_true, Bool.false_eq_true, if_false] at h
      rcases ih.operand hlevel hr with ⟨-, hback, hend⟩ | ⟨x, rest, m, hlegal, hx, hrun, rfl⟩
      · -- the symbol just peeked is not the end
        exact absurd ((hback [] none hend).unique hsees) (by simp)
      · obtain ⟨rest', hrun', rfl, hnext⟩ := ih.loop level hlevel
          (build descent x.node (operandNodes rest)) (fun a => lastStops (x.Stops a) rest a)
          l2 l' n h
          (by
            rw [rest_build]
            exact fun p hp => (Nat.le_succ _).trans (hrun.levels_nodes p hp))
          hrun.stops
        refine .inr ⟨⟨x, rest ++ rest', m, hlegal, hreads.trans hx, hrun.append hrun', ?_⟩, hnext⟩
        rw [operandNodes_append, build, build, List.foldl_append]

theorem Yields.loop_succ : ∀ level < MAX_BINARY, ∀ (t : OpTree BinOp Node)
    (st : Option Symbol → Prop) (l l' : Lexer) (n : Node),
    exprLoop (fuel + 1) level (toNode t) l = .ok (true, n, l') →
    (∀ p ∈ t.rest, level ≤ p.1.level) → (∀ a, Sees l [] a → st a ∧ NoOp (level + 1) a) →
    ∃ rest, Run level st l l' rest ∧ n = toNode ((operandNodes rest).foldl (ins descent) t) ∧
      ∃ a, Sees l' [] a := by
  intro level hlevel t st l l' n h ht hst
  simp only [exprLoop, consumeAny] at h
  obtain ⟨r, hr, h⟩ := bind_eq_ok h
  obtain ⟨o, l1⟩ := r
  rcases consumeAnyLoop_cases hr with
    ⟨r, rfl, hmem, hsees, hreads, text, rfl⟩ | ⟨rfl, hreads, hnext, hnone⟩
  · simp only at h
    obtain ⟨q, hq, h⟩ := bind_eq_ok h
    obtain ⟨ok, rhs, l2⟩ := q
    cases ok with
    | false => simp [pure, Except.pure] at h
    | true =>
      cases hnull : rhs.isNull with
      | true => simp [hnull, pure, Except.pure] at h
      | false =>
        simp only [hnull, Bool.not_true, Bool.or_self, Bool.false_eq_true, if_false] at h
        rcases ih.operand hlevel hq with ⟨rfl, -⟩ | ⟨y, rest, m, hlegal, hy, hrun, rfl⟩
        · simp [Node.isNull] at hnull
        · let op : BinOp := { text := text, level := level, level_lt := hlevel, mem_group := hmem }
          obtain ⟨rest', hrun', rfl, hnext⟩ := ih.loop level hlevel
            (.node op t (build descent y.node (operandNodes rest)))
            (fun a => lastStops (y.Stops a) rest a) l2 l' n h
            (by
              intro p hp
              simp only [OpTree.rest, rest_build, List.mem_append, List.mem_cons] at hp
              rcases hp with hp | rfl | hp
              · exact ht p hp
              · exact le_rfl
              · exact (Nat.le_succ _).trans (hrun.levels_nodes p hp))
            hrun.stops
          have hall := hrun.append hrun'
          refine ⟨(op, y) :: (rest ++ rest'), ?_, ?_, hnext⟩
          · exact
              { levels := by
                  intro q hq
                  rcases List.mem_cons.mp hq with rfl | hq
                  · exact le_rfl
                  · exact hall.levels q hq
                legal := ⟨(hst _ hsees).1, hlegal, hall.legal⟩
                reads := hreads.trans (hy.trans hall.reads)
                stops := hall.stops }
          · rw [operandNodes, operandNodes_append, ← List.cons_append, List.foldl_append,
              foldl_ins_split descent (o := op) (fun p hp => ht p hp)
                fun q hq => hrun.levels_nodes q hq]
  · obtain ⟨rfl, rfl⟩ : toNode t = n ∧ l1 = l' := by simpa [pure, Except.pure] using h
    have hgroups : ∀ i < MAX_BINARY, runes (BINARY.getD i []) ≠ [] := by decide +kernel
    refine ⟨[], ?_, rfl, hnext (hgroups level hlevel)⟩
    refine { levels := by simp, legal := trivial, reads := hreads, stops := fun a ha => ?_ }
    obtain ⟨hs, hop⟩ := hst a (hreads [] a ha)
    refine ⟨hs, fun i hi hlt r hr => ?_⟩
    rcases hi.eq_or_lt with rfl | hi
    · exact hnone a ha r hr
    · exact hop i hi hlt r hr

/-! ### Calls -/

theorem Yields.callLoop_succ : ∀ (fn : Node) (ns : List Node) (l l' : Lexer) (n : Node),
    Libsd.callLoop (fuel + 1) fn ns l = .ok (true, n, l') →
    ∃ (e : Phrase) (es : List Phrase), argsLegal (e :: es) ∧
      n = .call fn (ns ++ phraseNodes (e :: es)) none ∧
      Reads l (e.symbols ++ moreArgSymbols es) l' := by
  intro fn ns l l' n h
  simp only [Libsd.callLoop] at h
  obtain ⟨r, hr, h⟩ := bind_eq_ok h
  obtain ⟨ok, arg, l1⟩ := r
  cases ok with
  | false => simp [pure, Except.pure] at h
  | true =>
    simp only [Bool.not_true, Bool.false_eq_true, if_false] at h
    have harg := ih.phrase hr
    obtain ⟨c, hc, h⟩ := bind_eq_ok h
    obtain ⟨comma, l2⟩ := c
    rcases consumeTok_cases hc with ⟨rfl, hsees, hreads, -⟩ | ⟨rfl, hreads, -⟩
    · obtain ⟨e', es, hes, rfl, hreads'⟩ := ih.callLoop fn (ns ++ [arg]) l2 l' n h
      rcases harg with ⟨-, -, hend⟩ | ⟨e, he, rfl, hphrase, a, ha, hstops⟩
      · exact absurd (hend.unique hsees) (by simp)
      · obtain rfl := ha.unique hsees
        refine ⟨e, e' :: es, ⟨he, hstops, hes⟩, ?_, ?_⟩
        · simp only [phraseNodes, List.append_assoc, List.singleton_append]
        · exact hphrase.trans (hreads.trans hreads')
    · simp only [Bool.false_eq_true, if_false] at h
      obtain ⟨d, hd, h⟩ := bind_eq_ok h
      obtain ⟨close, l3⟩ := d
      rcases consumeTok_cases hd with ⟨rfl, hsees, hreads', -⟩ | ⟨rfl, -⟩
      · obtain ⟨rfl, rfl⟩ : Node.call fn (ns ++ [arg]) none = n ∧ l3 = l' := by
          simpa [pure, Except.pure] using h
        have hsees' := hreads [] _ hsees
        rcases harg with ⟨-, -, hend⟩ | ⟨e, he, rfl, hphrase, a, ha, hstops⟩
        · exact absurd (hend.unique hsees') (by simp)
        · obtain rfl := ha.unique hsees'
          exact ⟨e, [], ⟨he, hstops, trivial⟩, rfl, hphrase.trans (hreads.trans hreads')⟩
      · simp [pure, Except.pure] at h

theorem Yields.call_succ : ∀ (fn : Node) (l l' : Lexer) (n : Node),
    Libsd.call (fuel + 1) fn l = .ok (true, n, l') →
    ∃ args, argsLegal args ∧ n = .call fn (phraseNodes args) none ∧
      Reads l (argSymbols args) l' := by
  intro fn l l' n h
  simp only [Libsd.call] at h
  obtain ⟨c, hc, h⟩ := bind_eq_ok h
  obtain ⟨close, l1⟩ := c
  rcases consumeTok_cases hc with ⟨rfl, -, hreads, -⟩ | ⟨rfl, hreads, -⟩
  · obtain ⟨rfl, rfl⟩ : Node.call fn [] none = n ∧ l1 = l' := by
      simpa [pure, Except.pure] using h
    exact ⟨[], trivial, rfl, hreads⟩
  · obtain ⟨e, es, hes, rfl, hreads'⟩ := ih.callLoop fn [] l1 l' n h
    exact ⟨e :: es, hes, rfl, hreads.trans hreads'⟩

end

/-! ### Factors -/

/-- `fact` behind an opening parenthesis. -/
def factParen (fuel : Nat) (p : Lexer) : Except Stop (Bool × Node × Lexer) := do
  let (ok, l, p) ← expr fuel 0 p
  if !ok then return (false, .null, p)
  let (ok, p) ← consumeTok p (rune ')')
  if !ok then return (false, .null, p)
  return (true, .paren l, p)

def factUnary (fuel : Nat) (op : Rune) (p : Lexer) : Except Stop (Bool × Node × Lexer) := do
  let (ok, l, p) ← expr fuel 0 p
  if !ok then return (false, .null, p)
  return (true, .unary op l, p)

/-- `fact` behind a `then`. -/
def factThen (fuel : Nat) (cond : Node) (p : Lexer) : Except Stop (Bool × Node × Lexer) := do
  let (ok, l, p) ← expr fuel 0 p
  if !ok || l.isNull then return (false, .null, p)
  let (ok, p) ← consumeReserved p (cstr "else")
  if !ok then return (true, .ifElse cond l .null, p)
  let (ok, r, p) ← expr fuel 0 p
  if !ok || r.isNull then return (false, .null, p)
  return (true, .ifElse cond l r, p)

def factIf (fuel : Nat) (p : Lexer) : Except Stop (Bool × Node × Lexer) := do
  let (ok, cond, p) ← expr fuel 0 p
  if !ok then return (false, .null, p)
  let (ok, p) ← consumeReserved p (cstr "then")
  if !ok then return (false, .null, p)
  factThen fuel cond p

def factName (fuel : Nat) (x : Node) (p : Lexer) : Except Stop (Bool × Node × Lexer) := do
  let (ok, p) ← consumeTok p (rune '(')
  if ok then call fuel x p else return (true, x, p)

theorem fact_eq (fuel : Nat) (p : Lexer) : fact (fuel + 1) p = (do
    let (ok, p) ← consumeTok p (rune '(')
    if ok then factParen fuel p
    else
      let (op, p) ← consumeAny p UNARY
      match op with
      | some op => factUnary fuel op p
      | _ =>
        let (ok, n, p) ← num p
        if ok then return (true, n, p)
        else
          let (ok, p) ← consumeReserved p (cstr "if")
          if ok then factIf fuel p
          else
            let (ok, x, p) ← ident p
            if ok then factName fuel x p else return (false, .null, p)) := by
  rw [fact]
  rfl

/-- An operand has been read; `l` is already past its first symbol `s`. -/
def OperandRead (s : Symbol) (l : Lexer) (n : Node) (l' : Lexer) : Prop :=
  ∃ (x : Operand) (us : List Symbol), x.Legal ∧ n = x.node ∧ x.symbols = s :: us ∧
    Reads l us l' ∧ ∀ a, Sees l' [] a → x.Stops a

theorem OperandRead.from {s : Symbol} {l m l' : Lexer} {n : Node} (h : OperandRead s m n l')
    (hs : Reads l [s] m) :
    ∃ x : Operand, x.Legal ∧ n = x.node ∧ Reads l x.symbols l' ∧ ∀ a, Sees l' [] a → x.Stops a := by
  obtain ⟨x, us, hlegal, rfl, hsym, hus, hstops⟩ := h
  exact ⟨x, hlegal, rfl, hsym ▸ hs.trans hus, hstops⟩

section
variable {fuel : Nat} (ih : Yields fuel)
include ih

theorem Yields.factParen {l l' : Lexer} {n : Node} (h : factParen fuel l = .ok (true, n, l')) :
    OperandRead symOpen l n l' := by
  simp only [Libsd.factParen] at h
  obtain ⟨r, hr, h⟩ := bind_eq_ok h
  obtain ⟨ok, e, l1⟩ := r
  cases ok with
  | false => simp [pure, Except.pure] at h
  | true =>
    simp only [Bool.not_true, Bool.false_eq_true, if_false] at h
    obtain ⟨c, hc, h⟩ := bind_eq_ok h
    obtain ⟨close, l2⟩ := c
    rcases consumeTok_cases hc with ⟨rfl, hsees, hreads, -⟩ | ⟨rfl, -⟩
    · obtain ⟨rfl, rfl⟩ : Node.paren e = n ∧ l2 = l' := by simpa [pure, Except.pure] using h
      rcases ih.phrase hr with ⟨-, -, hend⟩ | ⟨e, he, rfl, hphrase, a, ha, hstops⟩
      · exact absurd (hend.unique hsees) (by simp)
      · obtain rfl := ha.unique hsees
        exact ⟨.paren e, _, ⟨he, hstops⟩, rfl, rfl, hphrase.trans hreads, fun _ _ => trivial⟩
    · simp [pure, Except.pure] at h

theorem Yields.factUnary (u : UnOp) {l l' : Lexer} {n : Node}
    (h : factUnary fuel u.rune l = .ok (true, n, l')) : OperandRead u.symbol l n l' := by
  simp only [Libsd.factUnary] at h
  obtain ⟨r, hr, h⟩ := bind_eq_ok h
  obtain ⟨ok, e, l1⟩ := r
  cases ok with
  | false => simp [pure, Except.pure] at h
  | true =>
    obtain ⟨rfl, rfl⟩ : Node.unary u.rune e = n ∧ l1 = l' := by simpa [pure, Except.pure] using h
    rcases ih.phrase hr with ⟨rfl, hback, hend⟩ | ⟨e, he, rfl, hphrase, a, ha, hstops⟩
    · exact ⟨.dangling u, [], trivial, rfl, rfl, hback, fun a ha => ha.unique hend⟩
    · exact ⟨.unary u e, _, he, rfl, rfl, hphrase, fun b hb => ha.unique hb ▸ hstops⟩

theorem Yields.factThen (c : Phrase) (hc : c.Legal) (hcs : c.Stops (some symThen))
    {l l' : Lexer} {n : Node} (h : factThen fuel c.node l = .ok (true, n, l')) :
    ∃ (x : Operand) (us : List Symbol), x.Legal ∧ n = x.node ∧
      x.symbols = symIf :: (c.symbols ++ symThen :: us) ∧ Reads l us l' ∧
      ∀ a, Sees l' [] a → x.Stops a := by
  simp only [Libsd.factThen] at h
  obtain ⟨r, hr, h⟩ := bind_eq_ok h
  obtain ⟨ok, t, l1⟩ := r
  cases ok with
  | false => simp [pure, Except.pure] at h
  | true =>
    rcases ih.phrase hr with ⟨rfl, -⟩ | ⟨t, ht, rfl, htr, a, ha, hts⟩
    · simp [Node.isNull, pure, Except.pure] at h
    · simp only [t.node_ne_null, Bool.not_true, Bool.or_self, Bool.false_eq_true, if_false] at h
      obtain ⟨q, hq, h⟩ := bind_eq_ok h
      obtain ⟨els, l2⟩ := q
      rcases consumeReserved_cases hq with ⟨rfl, hsees, hreads⟩ | ⟨rfl, hreads, b, hb, hne⟩
      · simp only [Bool.not_true, Bool.false_eq_true, if_false] at h
        obtain rfl := ha.unique hsees
        obtain ⟨v, hv, h⟩ := bind_eq_ok h
        obtain ⟨ok, r, l3⟩ := v
        cases ok with
        | false => simp [pure, Except.pure] at h
        | true =>
          rcases ih.phrase hv with ⟨rfl, -⟩ | ⟨r, hrl, rfl, hrr, b, hb, hrs⟩
          · simp [Node.isNull, pure, Except.pure] at h
          · obtain ⟨rfl, rfl⟩ : Node.ifElse c.node t.node r.node = n ∧ l3 = l' := by
              simpa [r.node_ne_null, pure, Except.pure] using h
            refine ⟨.ifElse c t r, _, ⟨hc, hcs, ht, hts, hrl⟩, rfl, rfl, ?_,
              fun d hd => hb.unique hd ▸ hrs⟩
            exact htr.trans (hreads.trans hrr)
      · obtain ⟨rfl, rfl⟩ : Node.ifElse c.node t.node .null = n ∧ l2 = l' := by
          simpa [pure, Except.pure] using h
        have hab : a = b := ha.unique (hreads [] b hb)
        refine ⟨.ifThen c t, _, ⟨hc, hcs, ht⟩, rfl, rfl, ?_, fun d hd => ?_⟩
        · simpa using htr.trans hreads
        · obtain rfl := hb.unique hd
          exact ⟨hab ▸ hts, hne⟩

theorem Yields.factIf {l l' : Lexer} {n : Node} (h : factIf fuel l = .ok (true, n, l')) :
    OperandRead symIf l n l' := by
  simp only [Libsd.factIf] at h
  obtain ⟨r, hr, h⟩ := bind_eq_ok h
  obtain ⟨ok, c, l1⟩ := r
  cases ok with
  | false => simp [pure, Except.pure] at h
  | true =>
    simp only [Bool.not_true, Bool.false_eq_true, if_false] at h
    obtain ⟨q, hq, h⟩ := bind_eq_ok h
    obtain ⟨thn, l2⟩ := q
    rcases consumeReserved_cases hq with ⟨rfl, hsees, hreads⟩ | ⟨rfl, -⟩
    · simp only [Bool.not_true, Bool.false_eq_true, if_false] at h
      rcases ih.phrase hr with ⟨-, -, hend⟩ | ⟨c, hc, rfl, hcr, a, ha, hcs⟩
      · exact absurd (hend.unique hsees) (by simp)
      · obtain rfl := ha.unique hsees
        obtain ⟨x, us, hlegal, rfl, hsym, hus, hstops⟩ := ih.factThen c hc hcs h
        exact ⟨x, _, hlegal, rfl, hsym, hcr.trans (hreads.trans hus), hstops⟩
    · simp [pure, Except.pure] at h

theorem Yields.factName {text name : CStr} (hname : canonicalize text = some name) {l l' : Lexer}
    {n : Node} (h : factName fuel (.ident name none) l = .ok (true, n, l')) :
    OperandRead (.ident text) l n l' := by
  simp only [Libsd.factName] at h
  obtain ⟨r, hr, h⟩ := bind_eq_ok h
  obtain ⟨paren, l1⟩ := r
  rcases consumeTok_cases hr with ⟨rfl, -, hreads, -⟩ | ⟨rfl, hreads, b, hb, hne⟩
  · simp only [if_true] at h
    obtain ⟨args, hargs, rfl, hargr⟩ := ih.call _ l1 l' n h
    exact ⟨.call text name hname args, _, hargs, rfl, rfl, hreads.trans hargr, fun _ _ => trivial⟩
  · obtain ⟨rfl, rfl⟩ : Node.ident name none = n ∧ l1 = l' := by
      simpa [pure, Except.pure] using h
    exact ⟨.ident text name hname, _, trivial, rfl, rfl, hreads, fun a ha => ha.unique hb ▸ hne⟩

theorem Yields.fact_succ : ∀ (l l' : Lexer) (n : Node),
    Libsd.fact (fuel + 1) l = .ok (true, n, l') →
    ∃ x : Operand, x.Legal ∧ n = x.node ∧ Reads l x.symbols l' ∧ ∀ a, Sees l' [] a → x.Stops a := by
  intro l l' n h
  simp only [fact_eq, consumeAny, bind, Except.bind] at h
  split at h
  · simp at h
  next r hr =>
  obtain ⟨paren, l1⟩ := r
  rcases consumeTok_cases hr with ⟨rfl, -, hread, -⟩ | ⟨rfl, hread1, -⟩
  · exact (ih.factParen h).from hread
  simp only [Bool.false_eq_true, if_false] at h
  split at h
  · simp at h
  next q hq =>
  obtain ⟨op, l2⟩ := q
  rcases consumeAnyLoop_cases hq with ⟨r, rfl, hmem, -, hread, -⟩ | ⟨rfl, hread2, -⟩
  · exact (ih.factUnary ⟨r, hmem⟩ h).from (hread1.trans hread)
  simp only at h
  split at h
  · simp at h
  next v hv =>
  obtain ⟨ok, num, l3⟩ := v
  rcases num_cases hv with ⟨rfl, text, rfl, hread⟩ | ⟨rfl, hread3⟩
  · obtain ⟨rfl, rfl⟩ : Node.floatlit text 0 = n ∧ l3 = l' := by simpa [pure, Except.pure] using h
    exact ⟨.num text, trivial, rfl, hread1.trans (hread2.trans hread), fun _ _ => trivial⟩
  simp only [Bool.false_eq_true, if_false] at h
  split at h
  · simp at h
  next w hw =>
  obtain ⟨iff, l4⟩ := w
  have hread := hread1.trans (hread2.trans hread3)
  rcases consumeReserved_cases hw with ⟨rfl, -, hread'⟩ | ⟨rfl, hread4, -⟩
  · exact (ih.factIf h).from (hread.trans hread')
  simp only [Bool.false_eq_true, if_false] at h
  split at h
  · simp at h
  next x hx =>
  obtain ⟨ok, id, l5⟩ := x
  rcases ident_cases hx with ⟨rfl, text, name, hname, rfl, hread'⟩ | rfl
  · exact (ih.factName hname h).from (hread.trans (hread4.trans hread'))
  · simp [pure, Except.pure] at h

end

theorem yields : ∀ fuel, Yields fuel
  | 0 =>
    { fact := fun l l' n h => by simp [Libsd.fact] at h
      expr := fun level _ l l' n h => by simp [Libsd.expr] at h
      loop := fun level _ t st l l' n h => by simp [exprLoop] at h
      call := fun fn l l' n h => by simp [Libsd.call] at h
      callLoop := fun fn ns l l' n h => by simp [Libsd.callLoop] at h }
  | fuel + 1 =>
    have ih := yields fuel
    { fact := ih.fact_succ
      expr := ih.expr_succ
      loop := ih.loop_succ
      call := ih.call_succ
      callLoop := ih.callLoop_succ }

end Libsd

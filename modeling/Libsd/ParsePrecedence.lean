/-
  Libsd/ParsePrecedence.lean
  ==========================
  **Which tree the parser builds for a sequence of factors and operators.**

  A `Chain` is an equation of factors joined by binary operators, to any depth
  of parentheses and calls.  `expr` descends from the first group of `BINARY` to
  the last, so the *last* group binds tightest: the tree it returns is the one
  of the reversed precedence (`avarEqnParse_chain`).  It is the conventional
  tree exactly when no sequence of the equation mixes two groups
  (`avarEqnParse_conventional_iff`).
-/
import Libsd.PhraseComplete

namespace Libsd

open Utf Precedence OpTree

/-! ### Chains of factors -/

mutual
inductive Factor where
  | num (text : CStr)
  | ident (text name : CStr) (h : canonicalize text = some name)
  | call (text name : CStr) (h : canonicalize text = some name) (args : List Chain)
  | paren (c : Chain)

inductive Chain where
  | mk (head : Factor) (rest : List (BinOp × Factor))
end

def tokOpen : Token := { start := cstr "(", type := .token }
def tokClose : Token := { start := cstr ")", type := .token }
def tokComma : Token := { start := cstr ",", type := .token }

mutual
/-- The tokens of a factor. -/
def Factor.tokens : Factor → List Token
  | .num text => [{ start := text, type := .number }]
  | .ident text _ _ => [{ start := text, type := .ident }]
  | .call text _ _ args => { start := text, type := .ident } :: tokOpen :: argTokens args
  | .paren c => tokOpen :: (c.tokens ++ [tokClose])

def Chain.tokens : Chain → List Token
  | .mk x rest => x.tokens ++ restTokens rest

def restTokens : List (BinOp × Factor) → List Token
  | [] => []
  | (o, f) :: rest => o.token :: (f.tokens ++ restTokens rest)

/-- The tokens of an argument list, its closing parenthesis included. -/
def argTokens : List Chain → List Token
  | [] => [tokClose]
  | c :: cs => c.tokens ++ moreArgTokens cs

def moreArgTokens : List Chain → List Token
  | [] => [tokClose]
  | c :: cs => tokComma :: (c.tokens ++ moreArgTokens cs)
end

section
variable {R : Type} [LinearOrder R] (rank : BinOp → R)

mutual
/-- The tree of a factor when binary operators bind by `rank`. -/
def Factor.node : Factor → Node
  | .num text => .floatlit text 0
  | .ident _ name _ => .ident name none
  | .call _ name _ args => .call (.ident name none) (argNodes args) none
  | .paren c => .paren c.node

def Chain.node : Chain → Node
  | .mk x rest => toNode (build rank x.node (restNodes rest))

def restNodes : List (BinOp × Factor) → List (BinOp × Node)
  | [] => []
  | (o, f) :: rest => (o, f.node) :: restNodes rest

def argNodes : List Chain → List Node
  | [] => []
  | c :: cs => c.node :: argNodes cs
end

end

mutual
/-- No sequence of operators in the factor mixes two groups. -/
def Factor.OneGroup : Factor → Prop
  | .num _ => True
  | .ident _ _ _ => True
  | .call _ _ _ args => argsOneGroup args
  | .paren c => c.OneGroup

/-- All operators of the sequence belong to one group, and so in every sequence
    inside its parentheses and calls. -/
def Chain.OneGroup : Chain → Prop
  | .mk x rest =>
    (∀ p ∈ rest, ∀ q ∈ rest, p.1.level = q.1.level) ∧ x.OneGroup ∧ restOneGroup rest

def restOneGroup : List (BinOp × Factor) → Prop
  | [] => True
  | (_, f) :: rest => f.OneGroup ∧ restOneGroup rest

def argsOneGroup : List Chain → Prop
  | [] => True
  | c :: cs => c.OneGroup ∧ argsOneGroup cs
end

/-! ### Chains are phrases -/

mutual
def Factor.operand : Factor → Operand
  | .num text => .num text
  | .ident text name h => .ident text name h
  | .call text name h args => .call text name h (phrases args)
  | .paren c => .paren c.phrase

def Chain.phrase : Chain → Phrase
  | .mk x rest => .mk x.operand (operands rest)

def operands : List (BinOp × Factor) → List (BinOp × Operand)
  | [] => []
  | (o, f) :: rest => (o, f.operand) :: operands rest

def phrases : List Chain → List Phrase
  | [] => []
  | c :: cs => c.phrase :: phrases cs
end

theorem symbol_tokOpen : tokOpen.symbol = symOpen := by decide +kernel
theorem symbol_tokClose : tokClose.symbol = symClose := by decide +kernel
theorem symbol_tokComma : tokComma.symbol = symComma := by decide +kernel

mutual
theorem Factor.symbols_tokens : ∀ f : Factor, f.tokens.map Token.symbol = f.operand.symbols
  | .num _ => rfl
  | .ident _ _ _ => rfl
  | .call _ _ _ args => by
    simp only [Factor.tokens, Factor.operand, Operand.symbols, List.map_cons, symbol_tokOpen,
      argSymbols_tokens args]
    rfl
  | .paren c => by
    simp only [Factor.tokens, Factor.operand, Operand.symbols, List.map_cons, List.map_append,
      symbol_tokOpen, symbol_tokClose, List.map_nil, c.symbols_tokens]

theorem Chain.symbols_tokens : ∀ c : Chain, c.tokens.map Token.symbol = c.phrase.symbols
  | .mk x rest => by
    simp only [Chain.tokens, Chain.phrase, Phrase.symbols, List.map_append, x.symbols_tokens,
      operandSymbols_tokens rest]

theorem operandSymbols_tokens : ∀ rest : List (BinOp × Factor),
    (restTokens rest).map Token.symbol = operandSymbols (operands rest)
  | [] => rfl
  | (o, f) :: rest => by
    simp only [restTokens, operands, operandSymbols, List.map_cons, List.map_append,
      f.symbols_tokens, operandSymbols_tokens rest]
    rfl

theorem argSymbols_tokens : ∀ args : List Chain,
    (argTokens args).map Token.symbol = argSymbols (phrases args)
  | [] => by simp only [argTokens, phrases, argSymbols, List.map_cons, List.map_nil,
    symbol_tokClose]
  | c :: cs => by
    simp only [argTokens, phrases, argSymbols, List.map_append, c.symbols_tokens,
      moreArgSymbols_tokens cs]

theorem moreArgSymbols_tokens : ∀ cs : List Chain,
    (moreArgTokens cs).map Token.symbol = moreArgSymbols (phrases cs)
  | [] => by
    simp only [moreArgTokens, phrases, moreArgSymbols, List.map_cons, List.map_nil, symbol_tokClose]
  | c :: cs => by
    simp only [moreArgTokens, phrases, moreArgSymbols, List.map_cons, List.map_append,
      symbol_tokComma, c.symbols_tokens, moreArgSymbols_tokens cs]
end

mutual
theorem Factor.node_operand : ∀ f : Factor, f.operand.node = f.node descent
  | .num _ => rfl
  | .ident _ _ _ => rfl
  | .call _ _ _ args => by simp only [Factor.operand, Operand.node, Factor.node,
    phraseNodes_phrases args]
  | .paren c => by simp only [Factor.operand, Operand.node, Factor.node, c.node_phrase]

theorem Chain.node_phrase : ∀ c : Chain, c.phrase.node = c.node descent
  | .mk x rest => by
    simp only [Chain.phrase, Phrase.node, Chain.node, x.node_operand, operandNodes_operands rest]

theorem operandNodes_operands : ∀ rest : List (BinOp × Factor),
    operandNodes (operands rest) = restNodes descent rest
  | [] => rfl
  | (o, f) :: rest => by
    simp only [operands, operandNodes, restNodes, f.node_operand, operandNodes_operands rest]

theorem phraseNodes_phrases : ∀ cs : List Chain, phraseNodes (phrases cs) = argNodes descent cs
  | [] => rfl
  | c :: cs => by simp only [phrases, phraseNodes, argNodes, c.node_phrase, phraseNodes_phrases cs]
end

theorem Factor.operand_stops (f : Factor) {a : Option Symbol} (ha : a ≠ some symOpen) :
    f.operand.Stops a := by
  cases f with
  | ident => exact ha
  | num | call | paren => trivial

theorem Chain.phrase_stops (c : Chain) {a : Option Symbol} (ha : a ≠ some symOpen)
    (hop : NoOp 0 a) :
    c.phrase.Stops a := by
  obtain ⟨x, rest⟩ := c
  refine ⟨?_, hop⟩
  suffices h : ∀ p : Prop, p → lastStops p (operands rest) a from h _ (x.operand_stops ha)
  induction rest with
  | nil => exact fun p hp => hp
  | cons q rest ih => exact fun p _ => ih _ (q.2.operand_stops ha)

theorem noOp_close : NoOp 0 (some symClose) := by
  intro i _ hi r hr h
  exact (groupRunes_not_bracket i hi r hr).2.1 (by simpa [symClose] using h.symm)

theorem noOp_comma : NoOp 0 (some symComma) := by
  intro i _ hi r hr h
  exact (groupRunes_not_bracket i hi r hr).2.2 (by simpa [symComma] using h.symm)

mutual
theorem Factor.operand_legal : ∀ f : Factor, f.operand.Legal
  | .num _ => trivial
  | .ident _ _ _ => trivial
  | .call _ _ _ args => phrases_legal args
  | .paren c => ⟨c.phrase_legal, c.phrase_stops (by decide) noOp_close⟩

theorem Chain.phrase_legal : ∀ c : Chain, c.phrase.Legal
  | .mk x rest => ⟨x.operand_legal, operands_legal rest x⟩

theorem operands_legal : ∀ (rest : List (BinOp × Factor)) (x : Factor),
    operandsLegal x.operand.Stops (operands rest)
  | [], _ => trivial
  | (o, f) :: rest, x => by
    refine ⟨x.operand_stops fun h => ?_, f.operand_legal, operands_legal rest f⟩
    exact (groupRunes_not_bracket _ o.level_lt _ o.mem_group).1 (by
      simpa [BinOp.symbol, BinOp.rune, symOpen] using h)

theorem phrases_legal : ∀ cs : List Chain, argsLegal (phrases cs)
  | [] => trivial
  | [c] => ⟨c.phrase_legal, c.phrase_stops (by decide) noOp_close, trivial⟩
  | c :: d :: cs => by
    have hcomma : nextOf (moreArgSymbols (phrases (d :: cs))) none = some symComma := rfl
    rw [phrases, argsLegal, hcomma]
    exact ⟨c.phrase_legal, c.phrase_stops (by decide) noOp_comma, phrases_legal (d :: cs)⟩
end

/-- The parser builds the tree of the reversed precedence. -/
theorem avarEqnParse_chain {eqn : CStr} {l : Lexer} {c : Chain} (hl : lexerInit eqn = .ok l)
    (hc : Lexes l c.tokens) : avarEqnParse eqn = .ok (c.node descent) := by
  have hsees : Sees l c.phrase.symbols none := c.symbols_tokens ▸ hc.sees
  have hstops : c.phrase.Stops none := c.phrase_stops (by simp) fun _ _ _ _ _ => by simp
  obtain ⟨l', hexpr, -⟩ := expr_phrase hl c.phrase_legal hsees hstops
  simp only [avarEqnParse, hl, bind, Except.bind, hexpr, if_true, pure, Except.pure, c.node_phrase]

/-! ### Comparing the two precedences -/

def Node.isBinary : Node → Bool
  | .binary _ _ _ => true
  | _ => false

/-- No leaf of the tree is itself a binary node. -/
def Solid (t : OpTree BinOp Node) : Prop :=
  t.first.isBinary = false ∧ ∀ p ∈ t.rest, p.2.isBinary = false

theorem Solid.left {o : BinOp} {l r : OpTree BinOp Node} (h : Solid (.node o l r)) : Solid l :=
  ⟨h.1, fun p hp => h.2 p (List.mem_append_left _ hp)⟩

theorem Solid.right {o : BinOp} {l r : OpTree BinOp Node} (h : Solid (.node o l r)) : Solid r :=
  ⟨h.2 (o, r.first) (List.mem_append_right _ List.mem_cons_self),
    fun p hp => h.2 p (List.mem_append_right _ (List.mem_cons_of_mem _ hp))⟩

theorem length_rest_of_toNode_eq {t t' : OpTree BinOp Node} (ht : Solid t) (ht' : Solid t')
    (h : toNode t = toNode t') : t.rest.length = t'.rest.length := by
  induction t generalizing t' with
  | leaf n =>
    cases t' with
    | leaf n' => rfl
    | node o l r =>
      obtain rfl : n = toNode (.node o l r) := h
      exact absurd ht.1 (by simp [first, toNode, Node.isBinary])
  | node o l r ihl ihr =>
    cases t' with
    | leaf n' =>
      obtain rfl : toNode (.node o l r) = n' := h
      exact absurd ht'.1 (by simp [first, toNode, Node.isBinary])
    | node o' l' r' =>
      simp only [toNode, Node.binary.injEq] at h
      simp [rest, ihl ht.left ht'.left h.2.1, ihr ht.right ht'.right h.2.2]

/-- Over the same operators, equal trees come from equal operator trees. -/
theorem toNode_inj {t t' : OpTree BinOp Node} (ht : Solid t) (ht' : Solid t')
    (hops : t.rest.map (·.1) = t'.rest.map (·.1)) (h : toNode t = toNode t') : t = t' := by
  have hlen := length_rest_of_toNode_eq ht ht' h
  induction t generalizing t' with
  | leaf n =>
    cases t' with
    | leaf n' => exact congrArg _ h
    | node o l r => simp [rest] at hlen
  | node o l r ihl ihr =>
    cases t' with
    | leaf n' => simp [rest] at hlen
    | node o' l' r' =>
      simp only [toNode, Node.binary.injEq] at h
      obtain ⟨-, hl, hr⟩ := h
      have hll := length_rest_of_toNode_eq ht.left ht'.left hl
      have hlr := length_rest_of_toNode_eq ht.right ht'.right hr
      simp only [rest, List.map_append, List.map_cons] at hops
      obtain ⟨hopl, hopr⟩ := List.append_inj hops (by simpa using hll)
      obtain ⟨rfl, hopr'⟩ := List.cons.inj hopr
      rw [ihl ht.left ht'.left hopl hl hll, ihr ht.right ht'.right hopr' hr hlr]

theorem Factor.node_not_binary {R : Type} [LinearOrder R] (rank : BinOp → R) (f : Factor) :
    (f.node rank).isBinary = false := by
  cases f <;> rfl

theorem restNodes_not_binary {R : Type} [LinearOrder R] (rank : BinOp → R)
    (rest : List (BinOp × Factor)) : ∀ p ∈ restNodes rank rest, p.2.isBinary = false := by
  induction rest with
  | nil => simp [restNodes]
  | cons q rest ih => simpa [restNodes, Factor.node_not_binary] using ih

theorem restNodes_ops {R : Type} [LinearOrder R] (rank : BinOp → R)
    (rest : List (BinOp × Factor)) : (restNodes rank rest).map (·.1) = rest.map (·.1) := by
  induction rest with
  | nil => rfl
  | cons q rest ih => simp [restNodes, ih]

theorem solid_build {R : Type} [LinearOrder R] (rank : BinOp → R) (f : Factor)
    (rest : List (BinOp × Factor)) : Solid (build rank (f.node rank) (restNodes rank rest)) := by
  rw [Solid, first_build, rest_build]
  exact ⟨f.node_not_binary rank, restNodes_not_binary rank rest⟩

mutual
theorem Factor.node_descent_eq_iff : ∀ f : Factor,
    f.node descent = f.node conventional ↔ f.OneGroup
  | .num _ => by simp [Factor.node, Factor.OneGroup]
  | .ident _ _ _ => by simp [Factor.node, Factor.OneGroup]
  | .call _ _ _ args => by
    simp [Factor.node, Factor.OneGroup, argNodes_descent_eq_iff args]
  | .paren c => by simp [Factor.node, Factor.OneGroup, Chain.node_descent_eq_iff c]

theorem Chain.node_descent_eq_iff : ∀ c : Chain,
    c.node descent = c.node conventional ↔ c.OneGroup
  | .mk x rest => by
    have hx := Factor.node_descent_eq_iff x
    have hrest := restNodes_descent_eq_iff rest
    have hlevels : (∀ p ∈ restNodes conventional rest, ∀ q ∈ restNodes conventional rest,
        conventional p.1 = conventional q.1) ↔ ∀ p ∈ rest, ∀ q ∈ rest, p.1.level = q.1.level := by
      have hmem : ∀ P : BinOp → Prop, (∀ p ∈ restNodes conventional rest, P p.1) ↔
          ∀ p ∈ rest, P p.1 := by
        intro P
        have h := restNodes_ops conventional rest
        rw [← List.forall_mem_map (f := Prod.fst) (P := P), h, List.forall_mem_map]
      rw [hmem fun o => ∀ q ∈ restNodes conventional rest, conventional o = conventional q.1]
      exact forall₂_congr fun p _ => hmem fun o => conventional p.1 = conventional o
    simp only [Chain.node, Chain.OneGroup]
    constructor
    · intro h
      have ht := toNode_inj (solid_build descent x rest) (solid_build conventional x rest)
        (by rw [rest_build, rest_build, restNodes_ops, restNodes_ops]) h
      have hxe : x.node descent = x.node conventional := by
        simpa only [first_build] using congrArg OpTree.first ht
      have hre : restNodes descent rest = restNodes conventional rest := by
        simpa only [rest_build] using congrArg OpTree.rest ht
      rw [hxe, hre] at ht
      exact ⟨hlevels.mp ((build_eq_dual_iff _ _).mp ht), hx.mp hxe, hrest.mp hre⟩
    · rintro ⟨hl, hox, hor⟩
      rw [hx.mpr hox, hrest.mpr hor]
      exact congrArg toNode ((build_eq_dual_iff _ _).mpr (hlevels.mpr hl))

theorem restNodes_descent_eq_iff : ∀ rest : List (BinOp × Factor),
    restNodes descent rest = restNodes conventional rest ↔ restOneGroup rest
  | [] => by simp [restNodes, restOneGroup]
  | (o, f) :: rest => by
    simp [restNodes, restOneGroup, Factor.node_descent_eq_iff f, restNodes_descent_eq_iff rest]

theorem argNodes_descent_eq_iff : ∀ args : List Chain,
    argNodes descent args = argNodes conventional args ↔ argsOneGroup args
  | [] => by simp [argNodes, argsOneGroup]
  | c :: cs => by
    simp [argNodes, argsOneGroup, Chain.node_descent_eq_iff c, argNodes_descent_eq_iff cs]
end

/-- The parser builds the conventional tree exactly when no sequence of the
    equation, of less than 2^31 bytes, mixes operators of two groups. -/
theorem avarEqnParse_conventional_iff (eqn : CStr) (l : Lexer) (c : Chain)
    (hl : lexerInit eqn = .ok l) (hc : Lexes l c.tokens) :
    avarEqnParse eqn = .ok (c.node conventional) ↔ c.OneGroup := by
  rw [avarEqnParse_chain hl hc, Except.ok.injEq]
  exact c.node_descent_eq_iff

/-! ### Two equations -/

def identFactor (text : CStr) (h : canonicalize text = some text) : Factor := .ident text text h

def addOp : BinOp :=
  { text := cstr "+", level := 3, level_lt := by decide, mem_group := by decide +kernel }
def mulOp : BinOp :=
  { text := cstr "*", level := 2, level_lt := by decide, mem_group := by decide +kernel }
def divOp : BinOp :=
  { text := cstr "/", level := 2, level_lt := by decide, mem_group := by decide +kernel }

def factorA : Factor := identFactor (cstr "a") (by decide +kernel)
def factorB : Factor := identFactor (cstr "b") (by decide +kernel)
def factorC : Factor := identFactor (cstr "c") (by decide +kernel)

/-- The lexer at the start of a lower-case equation of ASCII letters and operators. -/
def lexerAt (src : CStr) : Lexer :=
  { src := src, peek := firstRune src, len := src.length, pos := 0, tpeek := none }

/-- `a / (b + c) * c`, with one group in each of its two sequences. -/
def quotientChain : Chain :=
  .mk factorA [(divOp, .paren (.mk factorB [(addOp, factorC)])), (mulOp, factorC)]

theorem avarEqnParse_conventional_quotient :
    avarEqnParse (cstr "a / (b + c) * c") = .ok (quotientChain.node conventional) :=
  (avarEqnParse_conventional_iff (cstr "a / (b + c) * c") (lexerAt (cstr "a / (b + c) * c"))
    quotientChain (by decide +kernel) (Lexes.of_lexAll 12 (by decide +kernel))).mpr
    (by simp [quotientChain, Chain.OneGroup, Factor.OneGroup, restOneGroup, factorA, factorB,
      factorC, identFactor, divOp, mulOp])

/-- `a + b * c` is read as `(a + b) * c`. -/
theorem avarEqnParse_not_conventional :
    ¬ ∀ (eqn : CStr) (l : Lexer) (c : Chain), lexerInit eqn = .ok l → Lexes l c.tokens →
      avarEqnParse eqn = .ok (c.node conventional) := by
  intro h
  have hconv := h (cstr "a + b * c") (lexerAt (cstr "a + b * c"))
    (.mk factorA [(addOp, factorB), (mulOp, factorC)]) (by decide +kernel)
    (Lexes.of_lexAll 12 (by decide +kernel))
  have hcode : avarEqnParse (cstr "a + b * c") = .ok
      (.binary (rune '*')
        (.binary (rune '+') (.ident (cstr "a") none) (.ident (cstr "b") none))
        (.ident (cstr "c") none)) := by decide +kernel
  rw [hcode] at hconv
  exact absurd hconv (by decide +kernel)

end Libsd

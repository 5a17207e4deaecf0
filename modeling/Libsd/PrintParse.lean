/-
  Libsd/PrintParse.lean
  =====================
  **The parser undoes printing.**

  An `Expr` is an expression tree with every operator in one of its spellings; an operand of
  an operator is an `Atom`, so a compound one stands in parentheses.  Its words, with blanks
  between them, are a phrase of the parser's language (`Expr.phrase`), and what comes back is
  the tree (`avarEqnParse_print`).
-/
import Libsd.LexerWords
import Libsd.PhraseComplete
import Mathlib.Data.List.Forall2

namespace Libsd

open Utf Precedence OpTree

/-- A binary operator as it is written. -/
structure BinWord where
  op : BinOp
  word : List Rune
  mem : (word, op.rune) ∈ spellings

structure UnWord where
  op : UnOp
  word : List Rune
  mem : (word, op.rune) ∈ spellings

/-- Every operator of the parser can be written. -/
theorem exists_spelling {r : Rune}
    (h : (∃ level < MAX_BINARY, r ∈ groupRunes level) ∨ r ∈ (runes UNARY).map (·.1)) :
    ∃ word, (word, r) ∈ spellings := by
  have hbinary : ∀ level < MAX_BINARY, ∀ r ∈ groupRunes level, r ∈ symbolRunes := by decide +kernel
  have hunary : ∀ r ∈ (runes UNARY).map (·.1), r ∈ symbolRunes := by decide +kernel
  have hr : r ∈ symbolRunes := by
    rcases h with ⟨level, hlevel, hr⟩ | hr
    · exact hbinary level hlevel r hr
    · exact hunary r hr
  exact ⟨[r], List.mem_append_left _ (List.mem_map.mpr ⟨r, hr, rfl⟩)⟩

mutual
/-- What is an operand as it stands. -/
inductive Atom where
  | num (t : NumberText)
  | ident (t : IdentText)
  | call (f : IdentText) (args : List Expr)
  | paren (e : Expr)

inductive Expr where
  | atom (x : Atom)
  | unary (u : UnWord) (x : Atom)
  | binary (o : BinWord) (l r : Atom)
  | ifElse (c l r : Expr)
end

mutual
/-- The tree, as the parser makes it. -/
def Atom.node : Atom → Node
  | .num t => .floatlit (encode t.runes) 0
  | .ident t => .ident (encode t.runes) none
  | .call f args => .call (.ident (encode f.runes) none) (exprNodes args) none
  | .paren e => .paren e.node

def Expr.node : Expr → Node
  | .atom x => x.node
  | .unary u x => .unary u.op.rune x.node
  | .binary o l r => .binary o.op.rune l.node r.node
  | .ifElse c l r => .ifElse c.node l.node r.node

def exprNodes : List Expr → List Node
  | [] => []
  | e :: es => e.node :: exprNodes es
end

def wordIf : List Rune := (String.toList "if").map rune
def wordThen : List Rune := (String.toList "then").map rune
def wordElse : List Rune := (String.toList "else").map rune

mutual
/-- The words of the text. -/
def Atom.words : Atom → List (List Rune)
  | .num t => [t.runes]
  | .ident t => [t.runes]
  | .call f args => f.runes :: [rune '('] :: argWords args
  | .paren e => [rune '('] :: (e.words ++ [[rune ')']])

def Expr.words : Expr → List (List Rune)
  | .atom x => x.words
  | .unary u x => u.word :: x.words
  | .binary o l r => l.words ++ o.word :: r.words
  | .ifElse c l r => wordIf :: (c.words ++ wordThen :: (l.words ++ wordElse :: r.words))

/-- The words of an argument list, its closing parenthesis included. -/
def argWords : List Expr → List (List Rune)
  | [] => [[rune ')']]
  | e :: es => e.words ++ moreArgWords es

def moreArgWords : List Expr → List (List Rune)
  | [] => [[rune ')']]
  | e :: es => [rune ','] :: (e.words ++ moreArgWords es)
end

/-- The text of an expression, its words with blanks between them. -/
def Expr.print (e : Expr) : CStr := encode (spaced e.words)

/-! ### The phrase of an expression -/

mutual
def Atom.operand : Atom → Operand
  | .num t => .num (encode t.runes)
  | .ident t => .ident (encode t.runes) (encode t.runes) (canonicalize_ident t)
  | .call f args =>
    .call (encode f.runes) (encode f.runes) (canonicalize_ident f) (exprPhrases args)
  | .paren e => .paren e.phrase

def Expr.phrase : Expr → Phrase
  | .atom x => .mk x.operand []
  | .unary u x => .mk (.unary u.op (.mk x.operand [])) []
  | .binary o l r => .mk l.operand [(o.op, r.operand)]
  | .ifElse c l r => .mk (.ifElse c.phrase l.phrase r.phrase) []

def exprPhrases : List Expr → List Phrase
  | [] => []
  | e :: es => e.phrase :: exprPhrases es
end

mutual
theorem Atom.node_operand : ∀ x : Atom, x.operand.node = x.node
  | .num _ => rfl
  | .ident _ => rfl
  | .call _ args => by
    simp only [Atom.operand, Operand.node, Atom.node, phraseNodes_exprPhrases args]
  | .paren e => by simp only [Atom.operand, Operand.node, Atom.node, e.node_phrase]

theorem Expr.node_phrase : ∀ e : Expr, e.phrase.node = e.node
  | .atom x => x.node_operand
  | .unary u x => congrArg (Node.unary u.op.rune) x.node_operand
  | .binary o l r => by
    rw [Expr.node, ← l.node_operand, ← r.node_operand]
    rfl
  | .ifElse c l r => by
    rw [Expr.node, ← c.node_phrase, ← l.node_phrase, ← r.node_phrase]
    rfl

theorem phraseNodes_exprPhrases : ∀ es : List Expr, phraseNodes (exprPhrases es) = exprNodes es
  | [] => rfl
  | e :: es => by
    simp only [exprPhrases, phraseNodes, exprNodes, e.node_phrase, phraseNodes_exprPhrases es]
end

/-! ### Every word is a lexeme -/

theorem lexeme_open : Lexeme [rune '('] symOpen := symbol_lexeme (by decide +kernel)
theorem lexeme_close : Lexeme [rune ')'] symClose := symbol_lexeme (by decide +kernel)
theorem lexeme_comma : Lexeme [rune ','] symComma := symbol_lexeme (by decide +kernel)
theorem lexeme_if : Lexeme wordIf symIf := reserved_lexeme (by decide)
theorem lexeme_then : Lexeme wordThen symThen := reserved_lexeme (by decide)
theorem lexeme_else : Lexeme wordElse symElse := reserved_lexeme (by decide)

/-- The words are the symbols. -/
abbrev Spells (ws : List (List Rune)) (ss : List Symbol) : Prop := List.Forall₂ Lexeme ws ss

theorem Spells.append {ws ws' : List (List Rune)} {ss ss' : List Symbol} (h : Spells ws ss)
    (h' : Spells ws' ss') : Spells (ws ++ ws') (ss ++ ss') :=
  List.rel_append h h'

mutual
theorem Atom.spells : ∀ x : Atom, Spells x.words x.operand.symbols
  | .num t => .cons (number_lexeme t) .nil
  | .ident t => .cons (ident_lexeme t) .nil
  | .call f args => .cons (ident_lexeme f) (.cons lexeme_open (argWords_spells args))
  | .paren e => .cons lexeme_open (e.spells.append (.cons lexeme_close .nil))

theorem Expr.spells : ∀ e : Expr, Spells e.words e.phrase.symbols
  | .atom x => by
    rw [Expr.words, Expr.phrase, Phrase.symbols, operandSymbols, List.append_nil]
    exact x.spells
  | .unary u x => by
    rw [Expr.words, Expr.phrase, Phrase.symbols, operandSymbols, List.append_nil, Operand.symbols,
      Phrase.symbols, operandSymbols, List.append_nil]
    exact .cons (op_lexeme u.mem) x.spells
  | .binary o l r => by
    rw [Expr.words, Expr.phrase, Phrase.symbols, operandSymbols, operandSymbols, List.append_nil]
    exact l.spells.append (.cons (op_lexeme o.mem) r.spells)
  | .ifElse c l r => by
    rw [Expr.words, Expr.phrase, Phrase.symbols, operandSymbols, List.append_nil, Operand.symbols]
    exact .cons lexeme_if (c.spells.append (.cons lexeme_then
      (l.spells.append (.cons lexeme_else r.spells))))

theorem argWords_spells : ∀ es : List Expr, Spells (argWords es) (argSymbols (exprPhrases es))
  | [] => .cons lexeme_close .nil
  | e :: es => by
    rw [argWords, exprPhrases, argSymbols]
    exact e.spells.append (moreArgWords_spells es)

theorem moreArgWords_spells : ∀ es : List Expr,
    Spells (moreArgWords es) (moreArgSymbols (exprPhrases es))
  | [] => .cons lexeme_close .nil
  | e :: es => by
    rw [moreArgWords, exprPhrases, moreArgSymbols]
    exact .cons lexeme_comma (e.spells.append (moreArgWords_spells es))
end

/-! ### Where the parts of a phrase stop -/

theorem Atom.operand_stops (x : Atom) {a : Option Symbol} (ha : a ≠ some symOpen) :
    x.operand.Stops a := by
  cases x with
  | ident => exact ha
  | num | call | paren => trivial

theorem Expr.phrase_stops : ∀ (e : Expr) {a : Option Symbol}, a ≠ some symOpen → NoOp 0 a →
    e.phrase.Stops a
  | .atom x, _, ha, hop => ⟨x.operand_stops ha, hop⟩
  | .unary _ x, _, ha, hop => ⟨⟨x.operand_stops ha, hop⟩, hop⟩
  | .binary _ _ r, _, ha, hop => ⟨r.operand_stops ha, hop⟩
  | .ifElse _ _ r, _, ha, hop => ⟨r.phrase_stops ha hop, hop⟩

theorem noOp_word (s : CStr) : NoOp 0 (some (.word s)) := by
  intro i _ _ r _ h
  cases h

theorem noOp_bracket {r : Rune} (h : r = rune ')' ∨ r = rune ',') : NoOp 0 (some (.op r)) := by
  intro i _ hi q hq heq
  obtain rfl : r = q := by simpa using heq
  obtain ⟨-, hclose, hcomma⟩ := groupRunes_not_bracket i hi r hq
  rcases h with h | h
  · exact hclose h
  · exact hcomma h

theorem Expr.phrase_stops_word (e : Expr) (s : CStr) : e.phrase.Stops (some (.word s)) :=
  e.phrase_stops (by simp [symOpen]) (noOp_word s)

mutual
theorem Atom.operand_legal : ∀ x : Atom, x.operand.Legal
  | .num _ => trivial
  | .ident _ => trivial
  | .call _ args => exprPhrases_legal args
  | .paren e => ⟨e.phrase_legal, e.phrase_stops (by decide) (noOp_bracket (.inl rfl))⟩

theorem Expr.phrase_legal : ∀ e : Expr, e.phrase.Legal
  | .atom x => ⟨x.operand_legal, trivial⟩
  | .unary _ x => ⟨⟨x.operand_legal, trivial⟩, trivial⟩
  | .binary o l r => by
    refine ⟨l.operand_legal, l.operand_stops fun h => ?_, r.operand_legal, trivial⟩
    exact (groupRunes_not_bracket _ o.op.level_lt _ o.op.mem_group).1 (by
      simpa [BinOp.symbol, BinOp.rune, symOpen] using h)
  | .ifElse c l r => ⟨⟨c.phrase_legal, c.phrase_stops_word _, l.phrase_legal, l.phrase_stops_word _,
      r.phrase_legal⟩, trivial⟩

theorem exprPhrases_legal : ∀ es : List Expr, argsLegal (exprPhrases es)
  | [] => trivial
  | [e] => ⟨e.phrase_legal, e.phrase_stops (by decide) (noOp_bracket (.inl rfl)), trivial⟩
  | e :: d :: es => by
    have hcomma : nextOf (moreArgSymbols (exprPhrases (d :: es))) none = some symComma := rfl
    rw [exprPhrases, argsLegal, hcomma]
    exact ⟨e.phrase_legal, e.phrase_stops (by decide) (noOp_bracket (.inr rfl)),
      exprPhrases_legal (d :: es)⟩
end

/-! ### The whole text -/

theorem behind_plain {ws : List (List Rune)} {ss : List Symbol} (h : Spells ws ss) :
    (∀ r ∈ behind ws, IsRune r) ∧ lower (behind ws) = behind ws := by
  induction h with
  | nil => exact ⟨by simp [behind], rfl⟩
  | @cons w s ws ss hw _ ih =>
    have hblank : tolowerrune (rune ' ') = rune ' ' := by decide +kernel
    have hlower : w.map tolowerrune = w := hw.lower
    refine ⟨fun r hr => ?_, ?_⟩
    · rw [behind, List.mem_cons, List.mem_append] at hr
      rcases hr with rfl | hr | hr
      · decide
      · exact hw.isRune r hr
      · exact ih.1 r hr
    · have hrest : (behind ws).map tolowerrune = behind ws := ih.2
      rw [behind, lower, List.map_cons, List.map_append, hblank, hlower, hrest]

theorem spaced_plain {ws : List (List Rune)} {ss : List Symbol} (h : Spells ws ss) :
    (∀ r ∈ spaced ws, IsRune r) ∧ lower (spaced ws) = spaced ws := by
  cases h with
  | nil => exact ⟨by simp [spaced], rfl⟩
  | @cons w s ws ss hw hws =>
    obtain ⟨hrune, hlower⟩ := behind_plain hws
    have hw' : w.map tolowerrune = w := hw.lower
    have hrest : (behind ws).map tolowerrune = behind ws := hlower
    refine ⟨fun r hr => ?_, ?_⟩
    · exact (List.mem_append.mp hr).elim (hw.isRune r) (hrune r)
    · rw [spaced, lower, List.map_append, hw', hrest]

/-- On a text in lower case the lexer starts at its beginning. -/
theorem lexerInit_lower {s : List Rune} (hs : ∀ r ∈ s, IsRune r) (hlower : lower s = s) :
    ∃ l, lexerInit (encode s) = .ok l ∧ l.tpeek = none ∧ l.At (encode s) := by
  have hlow : utf8Tolower (encode s) = some (encode s) := by
    rw [utf8Tolower_encode hs, hlower, List.drop_length, List.append_nil]
  simp only [lexerInit, hlow]
  exact ⟨_, rfl, rfl, ⟨rfl, Nat.zero_le _, rfl, rfl⟩⟩

/-- Parsing what has been printed, in less than 2^31 bytes, gives the tree back. -/
theorem avarEqnParse_print (e : Expr) : avarEqnParse e.print = .ok e.node := by
  obtain ⟨hrune, hlower⟩ := spaced_plain e.spells
  obtain ⟨l, hinit, htpeek, hl⟩ := lexerInit_lower hrune hlower
  have hsees : Sees l e.phrase.symbols none := sees_spaced e.spells htpeek hl
  have hstops : e.phrase.Stops none := e.phrase_stops (by simp) fun _ _ _ _ _ => by simp
  obtain ⟨l', hexpr, -⟩ := expr_phrase hinit e.phrase_legal hsees hstops
  simp only [Expr.print, avarEqnParse, hinit, bind, Except.bind, hexpr, if_true, pure, Except.pure,
    e.node_phrase]

end Libsd

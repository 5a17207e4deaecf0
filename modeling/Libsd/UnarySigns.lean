/-
  Libsd/UnarySigns.lean
  =====================
  **What the parser applies a unary `+` or `-` to.**

  `fact` reads the operand of a unary operator with `expr` at the first level, so a sign
  takes everything behind it.  `Phrase.applied` groups the same symbols otherwise: a sign
  takes the factor behind it with what binds tighter than `+` and `-`, and gives the rest
  back to the sequence it stands in.  The two trees agree exactly when no sign has anything
  to give back (`appliesSigns_iff`).
-/
import Libsd.AcceptedEqns

namespace Libsd

open Utf Precedence OpTree

/-! ### Signs, and the operators they do not reach over -/

def UnOp.isSign (u : UnOp) : Bool := u.rune == Libsd.rune '+' || u.rune == Libsd.rune '-'

/-- The runes of `BINARY` from the group `+-` on. -/
def LOOSE : List Rune :=
  [rune '+', rune '-', rune '>', rune '<', rune '≥', rune '≤', rune '=', rune '≠',
    rune '&', rune '|']

def BinOp.isLoose (o : BinOp) : Bool := decide (o.rune ∈ LOOSE)

abbrev Ops := List (BinOp × Operand)

def tightPart (rest : Ops) : Ops := rest.takeWhile fun p => !p.1.isLoose
def loosePart (rest : Ops) : Ops := rest.dropWhile fun p => !p.1.isLoose

def Tight (rest : Ops) : Prop := ∀ p ∈ rest, p.1.isLoose = false

theorem tightPart_append_loosePart (rest : Ops) : tightPart rest ++ loosePart rest = rest :=
  List.takeWhile_append_dropWhile

theorem loosePart_eq_nil_iff {rest : Ops} : loosePart rest = [] ↔ Tight rest := by
  rw [loosePart, List.dropWhile_eq_nil_iff]
  simp only [Bool.not_eq_true', Tight]

theorem tightPart_eq_self {rest : Ops} (h : Tight rest) : tightPart rest = rest := by
  have happend := tightPart_append_loosePart rest
  rwa [loosePart_eq_nil_iff.mpr h, List.append_nil] at happend

def Phrase.rest : Phrase → Ops
  | .mk _ rest => rest

mutual
/-- No sign has a loose operator in the sequence behind it. -/
def Operand.SignsTight : Operand → Prop
  | .num _ => True
  | .ident _ _ _ => True
  | .call _ _ _ args => argsSignsTight args
  | .paren e => e.SignsTight
  | .unary u e => (u.isSign = true → Tight e.rest) ∧ e.SignsTight
  | .dangling _ => True
  | .ifThen c l => c.SignsTight ∧ l.SignsTight
  | .ifElse c l r => c.SignsTight ∧ l.SignsTight ∧ r.SignsTight

def Phrase.SignsTight : Phrase → Prop
  | .mk x rest => x.SignsTight ∧ operandsSignsTight rest

def operandsSignsTight : List (BinOp × Operand) → Prop
  | [] => True
  | (_, y) :: rest => y.SignsTight ∧ operandsSignsTight rest

def argsSignsTight : List Phrase → Prop
  | [] => True
  | e :: es => e.SignsTight ∧ argsSignsTight es
end

/-! ### Signs applied to their factors -/

/-- The unary operator on its operand, and what it gives back. -/
def UnOp.apply (u : UnOp) : Phrase → Operand × Ops
  | .mk x rest =>
    if u.isSign then (.unary u (.mk x (tightPart rest)), loosePart rest)
    else (.unary u (.mk x rest), [])

mutual
def Operand.applied : Operand → Operand × List (BinOp × Operand)
  | .num text => (.num text, [])
  | .ident text name h => (.ident text name h, [])
  | .call text name h args => (.call text name h (argsApplied args), [])
  | .paren e => (.paren e.applied, [])
  | .unary u e => u.apply e.applied
  | .dangling u => (.dangling u, [])
  | .ifThen c l => (.ifThen c.applied l.applied, [])
  | .ifElse c l r => (.ifElse c.applied l.applied r.applied, [])

/-- The phrase with each sign applied to its factor only. -/
def Phrase.applied : Phrase → Phrase
  | .mk x rest => .mk x.applied.1 (x.applied.2 ++ operandsApplied rest)

def operandsApplied : List (BinOp × Operand) → List (BinOp × Operand)
  | [] => []
  | (o, y) :: rest => (o, y.applied.1) :: (y.applied.2 ++ operandsApplied rest)

def argsApplied : List Phrase → List Phrase
  | [] => []
  | e :: es => e.applied :: argsApplied es
end

theorem UnOp.symbols_apply (u : UnOp) (e : Phrase) :
    (u.apply e).1.symbols ++ operandSymbols (u.apply e).2 = u.symbol :: e.symbols := by
  obtain ⟨x, rest⟩ := e
  rw [UnOp.apply]
  split
  · rw [Operand.symbols, Phrase.symbols, Phrase.symbols, List.cons_append, List.append_assoc,
      ← operandSymbols_append, tightPart_append_loosePart]
  · rw [operandSymbols, List.append_nil, Operand.symbols]

mutual
/-- The symbols stay as they are. -/
theorem Operand.symbols_applied : ∀ x : Operand,
    x.applied.1.symbols ++ operandSymbols x.applied.2 = x.symbols
  | .num _ => rfl
  | .ident _ _ _ => rfl
  | .call _ _ _ args => by
    simp only [Operand.applied, Operand.symbols, operandSymbols, List.append_nil,
      argSymbols_applied args]
  | .paren e => by
    simp only [Operand.applied, Operand.symbols, operandSymbols, List.append_nil, e.symbols_applied]
  | .unary u e => by rw [Operand.applied, u.symbols_apply, e.symbols_applied, Operand.symbols]
  | .dangling _ => rfl
  | .ifThen c l => by
    simp only [Operand.applied, Operand.symbols, operandSymbols, List.append_nil, c.symbols_applied,
      l.symbols_applied]
  | .ifElse c l r => by
    simp only [Operand.applied, Operand.symbols, operandSymbols, List.append_nil, c.symbols_applied,
      l.symbols_applied, r.symbols_applied]

theorem Phrase.symbols_applied : ∀ e : Phrase, e.applied.symbols = e.symbols
  | .mk x rest => by
    rw [Phrase.applied, Phrase.symbols, operandSymbols_append, ← List.append_assoc,
      x.symbols_applied, operandSymbols_applied rest, Phrase.symbols]

theorem operandSymbols_applied : ∀ rest : List (BinOp × Operand),
    operandSymbols (operandsApplied rest) = operandSymbols rest
  | [] => rfl
  | (o, y) :: rest => by
    rw [operandsApplied, operandSymbols, operandSymbols_append, ← List.append_assoc,
      y.symbols_applied, operandSymbols_applied rest, operandSymbols]

theorem argSymbols_applied : ∀ args : List Phrase, argSymbols (argsApplied args) = argSymbols args
  | [] => rfl
  | e :: es => by rw [argsApplied, argSymbols, argSymbols, e.symbols_applied,
    moreArgSymbols_applied es]

theorem moreArgSymbols_applied : ∀ es : List Phrase,
    moreArgSymbols (argsApplied es) = moreArgSymbols es
  | [] => rfl
  | e :: es => by
    rw [argsApplied, moreArgSymbols, moreArgSymbols, e.symbols_applied, moreArgSymbols_applied es]
end

theorem UnOp.apply_of_tight {u : UnOp} {e : Phrase} (h : u.isSign = true → Tight e.rest) :
    u.apply e = (.unary u e, []) := by
  obtain ⟨x, rest⟩ := e
  rw [UnOp.apply]
  split
  · next hsign =>
    have htight : Tight rest := h hsign
    rw [tightPart_eq_self htight, loosePart_eq_nil_iff.mpr htight]
  · rfl

mutual
/-- Where no sign has anything to give back, nothing changes. -/
theorem Operand.applied_eq : ∀ x : Operand, x.SignsTight → x.applied = (x, [])
  | .num _, _ => rfl
  | .ident _ _ _, _ => rfl
  | .call _ _ _ args, h => by rw [Operand.applied, argsApplied_eq args h]
  | .paren e, h => by rw [Operand.applied, e.applied_eq h]
  | .unary u e, h => by rw [Operand.applied, e.applied_eq h.2, UnOp.apply_of_tight h.1]
  | .dangling _, _ => rfl
  | .ifThen c l, h => by rw [Operand.applied, c.applied_eq h.1, l.applied_eq h.2]
  | .ifElse c l r, h => by
    rw [Operand.applied, c.applied_eq h.1, l.applied_eq h.2.1, r.applied_eq h.2.2]

theorem Phrase.applied_eq : ∀ e : Phrase, e.SignsTight → e.applied = e
  | .mk x rest, h => by
    rw [Phrase.applied, x.applied_eq h.1, operandsApplied_eq rest h.2, List.nil_append]

theorem operandsApplied_eq : ∀ rest : List (BinOp × Operand), operandsSignsTight rest →
    operandsApplied rest = rest
  | [], _ => rfl
  | (o, y) :: rest, h => by
    rw [operandsApplied, y.applied_eq h.1, operandsApplied_eq rest h.2, List.nil_append]

theorem argsApplied_eq : ∀ args : List Phrase, argsSignsTight args → argsApplied args = args
  | [], _ => rfl
  | e :: es, h => by rw [argsApplied, e.applied_eq h.1, argsApplied_eq es h.2]
end

/-! ### Operators below signs -/

namespace Node

mutual
/-- How many binary nodes there are. -/
def binaries : Node → Nat
  | null => 0
  | paren l => l.binaries
  | floatlit _ _ => 0
  | ident _ _ => 0
  | call l args _ => l.binaries + binariesArgs args
  | binary _ l r => l.binaries + r.binaries + 1
  | unary _ l => l.binaries
  | ifElse c l r => c.binaries + l.binaries + r.binaries

def binariesArgs : List Node → Nat
  | [] => 0
  | a :: as => a.binaries + binariesArgs as
end

mutual
/-- How many binary nodes there are below each sign, over all signs. -/
def signed : Node → Nat
  | null => 0
  | paren l => l.signed
  | floatlit _ _ => 0
  | ident _ _ => 0
  | call l args _ => l.signed + signedArgs args
  | binary _ l r => l.signed + r.signed
  | unary op l => (if op = rune '+' ∨ op = rune '-' then l.binaries else 0) + l.signed
  | ifElse c l r => c.signed + l.signed + r.signed

def signedArgs : List Node → Nat
  | [] => 0
  | a :: as => a.signed + signedArgs as
end

end Node

def opsBinaries (rest : Ops) : Nat := (rest.map fun p => p.2.node.binaries + 1).sum
def opsSigned (rest : Ops) : Nat := (rest.map fun p => p.2.node.signed).sum

theorem opsBinaries_append (qs rs : Ops) :
    opsBinaries (qs ++ rs) = opsBinaries qs + opsBinaries rs := by
  simp [opsBinaries]

theorem opsSigned_append (qs rs : Ops) : opsSigned (qs ++ rs) = opsSigned qs + opsSigned rs := by
  simp [opsSigned]

theorem opsSigned_cons (o : BinOp) (y : Operand) (rest : Ops) :
    opsSigned ((o, y) :: rest) = y.node.signed + opsSigned rest := by
  simp [opsSigned]

theorem opsBinaries_cons (o : BinOp) (y : Operand) (rest : Ops) :
    opsBinaries ((o, y) :: rest) = y.node.binaries + 1 + opsBinaries rest := by
  simp [opsBinaries]

theorem tight_of_opsBinaries {rest : Ops} (h : opsBinaries (loosePart rest) = 0) : Tight rest := by
  refine loosePart_eq_nil_iff.mp ?_
  cases hloose : loosePart rest with
  | nil => rfl
  | cons q qs =>
    rw [hloose] at h
    simp [opsBinaries] at h

theorem binaries_toNode (t : OpTree BinOp Node) : (toNode t).binaries =
    t.first.binaries + (t.rest.map fun p => p.2.binaries + 1).sum := by
  induction t with
  | leaf n => simp [toNode, first, OpTree.rest]
  | node o l r ihl ihr =>
    simp only [toNode, Node.binaries, ihl, ihr, first, OpTree.rest, List.map_append, List.map_cons,
      List.sum_append, List.sum_cons]
    omega

theorem signed_toNode (t : OpTree BinOp Node) : (toNode t).signed =
    t.first.signed + (t.rest.map fun p => p.2.signed).sum := by
  induction t with
  | leaf n => simp [toNode, first, OpTree.rest]
  | node o l r ihl ihr =>
    simp only [toNode, Node.signed, ihl, ihr, first, OpTree.rest, List.map_append, List.map_cons,
      List.sum_append, List.sum_cons]
    omega

theorem Phrase.binaries_mk (x : Operand) (rest : Ops) :
    (Phrase.mk x rest).node.binaries = x.node.binaries + opsBinaries rest := by
  rw [Phrase.node, binaries_toNode, first_build, rest_build, operandNodes_eq_map, List.map_map]
  rfl

theorem Phrase.signed_mk (x : Operand) (rest : Ops) :
    (Phrase.mk x rest).node.signed = x.node.signed + opsSigned rest := by
  rw [Phrase.node, signed_toNode, first_build, rest_build, operandNodes_eq_map, List.map_map]
  rfl

/-- What a sign keeps and what it gives back is what it had. -/
theorem UnOp.binaries_apply (u : UnOp) (e : Phrase) :
    (u.apply e).1.node.binaries + opsBinaries (u.apply e).2 = e.node.binaries := by
  obtain ⟨x, rest⟩ := e
  rw [UnOp.apply]
  split
  · rw [Operand.node, Node.binaries, Phrase.binaries_mk, Phrase.binaries_mk, Nat.add_assoc,
      ← opsBinaries_append, tightPart_append_loosePart]
  · rfl

mutual
theorem Operand.binaries_applied : ∀ x : Operand,
    x.applied.1.node.binaries + opsBinaries x.applied.2 = x.node.binaries
  | .num _ => rfl
  | .ident _ _ _ => rfl
  | .call _ _ _ args => by
    simp only [Operand.applied, Operand.node, Node.binaries, binariesArgs_applied args]
    rfl
  | .paren e => e.binaries_applied
  | .unary u e => by
    rw [Operand.applied, u.binaries_apply, e.binaries_applied, Operand.node, Node.binaries]
  | .dangling _ => rfl
  | .ifThen c l => by
    simp only [Operand.applied, Operand.node, Node.binaries, c.binaries_applied, l.binaries_applied]
    rfl
  | .ifElse c l r => by
    simp only [Operand.applied, Operand.node, Node.binaries, c.binaries_applied, l.binaries_applied,
      r.binaries_applied]
    rfl

theorem Phrase.binaries_applied : ∀ e : Phrase, e.applied.node.binaries = e.node.binaries
  | .mk x rest => by
    rw [Phrase.applied, Phrase.binaries_mk, Phrase.binaries_mk, opsBinaries_append, ← Nat.add_assoc,
      x.binaries_applied, opsBinaries_applied rest]

theorem opsBinaries_applied : ∀ rest : List (BinOp × Operand),
    opsBinaries (operandsApplied rest) = opsBinaries rest
  | [] => rfl
  | (o, y) :: rest => by
    have hy := y.binaries_applied
    have hrest := opsBinaries_applied rest
    rw [operandsApplied, opsBinaries_cons, opsBinaries_cons, opsBinaries_append]
    omega

theorem binariesArgs_applied : ∀ args : List Phrase,
    Node.binariesArgs (phraseNodes (argsApplied args)) = Node.binariesArgs (phraseNodes args)
  | [] => rfl
  | e :: es => by
    simp only [argsApplied, phraseNodes, Node.binariesArgs, e.binaries_applied,
      binariesArgs_applied es]
end

theorem UnOp.isSign_iff (u : UnOp) : u.isSign = true ↔ u.rune = Libsd.rune '+' ∨
    u.rune = Libsd.rune '-' := by
  rw [UnOp.isSign, Bool.or_eq_true, beq_iff_eq, beq_iff_eq]

/-- The operators that a sign gives back are no longer below it. -/
theorem UnOp.signed_apply (u : UnOp) (e : Phrase) :
    (u.apply e).1.node.signed + opsSigned (u.apply e).2 +
      (if u.isSign = true then opsBinaries (loosePart e.rest) else 0) =
        (Operand.unary u e).node.signed := by
  obtain ⟨x, rest⟩ := e
  have hsplit := tightPart_append_loosePart rest
  by_cases hsign : u.isSign = true
  · have hbinaries := opsBinaries_append (tightPart rest) (loosePart rest)
    have hsigned := opsSigned_append (tightPart rest) (loosePart rest)
    rw [hsplit] at hbinaries hsigned
    simp only [UnOp.apply, if_pos hsign, Operand.node, Node.signed, if_pos (u.isSign_iff.mp hsign),
      Phrase.signed_mk, Phrase.binaries_mk, Phrase.rest]
    omega
  · simp only [UnOp.apply, if_neg hsign]
    rfl

theorem Operand.signed_unary (u : UnOp) (e : Phrase) : (Operand.unary u e).node.signed =
    (if u.isSign = true then e.node.binaries else 0) + e.node.signed := by
  rw [Operand.node, Node.signed]
  simp only [u.isSign_iff]

mutual
theorem Operand.signed_applied_le : ∀ x : Operand,
    x.applied.1.node.signed + opsSigned x.applied.2 ≤ x.node.signed
  | .num _ => Nat.le_refl _
  | .ident _ _ _ => Nat.le_refl _
  | .call _ _ _ args => by
    have hargs := signedArgs_applied_le args
    simp only [Operand.applied, Operand.node, Node.signed, opsSigned, List.map_nil, List.sum_nil]
    omega
  | .paren e => e.signed_applied_le
  | .unary u e => by
    have happly := u.signed_apply e.applied
    have he := e.signed_applied_le
    rw [Operand.signed_unary, e.binaries_applied] at happly
    rw [Operand.applied, Operand.signed_unary]
    omega
  | .dangling _ => Nat.le_refl _
  | .ifThen c l => by
    have hc := c.signed_applied_le
    have hl := l.signed_applied_le
    simp only [Operand.applied, Operand.node, Node.signed, opsSigned, List.map_nil, List.sum_nil]
    omega
  | .ifElse c l r => by
    have hc := c.signed_applied_le
    have hl := l.signed_applied_le
    have hr := r.signed_applied_le
    simp only [Operand.applied, Operand.node, Node.signed, opsSigned, List.map_nil, List.sum_nil]
    omega

theorem Phrase.signed_applied_le : ∀ e : Phrase, e.applied.node.signed ≤ e.node.signed
  | .mk x rest => by
    have hx := x.signed_applied_le
    have hrest := opsSigned_applied_le rest
    rw [Phrase.applied, Phrase.signed_mk, Phrase.signed_mk, opsSigned_append]
    omega

theorem opsSigned_applied_le : ∀ rest : List (BinOp × Operand),
    opsSigned (operandsApplied rest) ≤ opsSigned rest
  | [] => Nat.le_refl _
  | (o, y) :: rest => by
    have hy := y.signed_applied_le
    have hrest := opsSigned_applied_le rest
    rw [operandsApplied, opsSigned_cons, opsSigned_cons, opsSigned_append]
    omega

theorem signedArgs_applied_le : ∀ args : List Phrase,
    Node.signedArgs (phraseNodes (argsApplied args)) ≤ Node.signedArgs (phraseNodes args)
  | [] => Nat.le_refl _
  | e :: es => by
    have he := e.signed_applied_le
    have hes := signedArgs_applied_le es
    simp only [argsApplied, phraseNodes, Node.signedArgs]
    omega
end

mutual
/-- When no operator has left a sign, no sign had anything to give back. -/
theorem Operand.signsTight_of_signed : ∀ x : Operand,
    x.applied.1.node.signed + opsSigned x.applied.2 = x.node.signed → x.SignsTight
  | .num _, _ => trivial
  | .ident _ _ _, _ => trivial
  | .call _ _ _ args, h => by
    refine argsSignsTight_of_signed args ?_
    simp only [Operand.applied, Operand.node, Node.signed, opsSigned, List.map_nil,
      List.sum_nil] at h
    omega
  | .paren e, h => e.signsTight_of_signed h
  | .unary u e, h => by
    have happly := u.signed_apply e.applied
    have hle := e.signed_applied_le
    rw [Operand.signed_unary, e.binaries_applied] at happly
    rw [Operand.applied, Operand.signed_unary] at h
    have he : e.SignsTight := e.signsTight_of_signed (by omega)
    refine ⟨fun hsign => ?_, he⟩
    rw [e.applied_eq he, if_pos hsign] at happly
    rw [e.applied_eq he] at h
    exact tight_of_opsBinaries (by omega)
  | .dangling _, _ => trivial
  | .ifThen c l, h => by
    have hc := c.signed_applied_le
    have hl := l.signed_applied_le
    simp only [Operand.applied, Operand.node, Node.signed, opsSigned, List.map_nil,
      List.sum_nil] at h
    exact ⟨c.signsTight_of_signed (by omega), l.signsTight_of_signed (by omega)⟩
  | .ifElse c l r, h => by
    have hc := c.signed_applied_le
    have hl := l.signed_applied_le
    have hr := r.signed_applied_le
    simp only [Operand.applied, Operand.node, Node.signed, opsSigned, List.map_nil,
      List.sum_nil] at h
    exact ⟨c.signsTight_of_signed (by omega), l.signsTight_of_signed (by omega),
      r.signsTight_of_signed (by omega)⟩

theorem Phrase.signsTight_of_signed : ∀ e : Phrase, e.applied.node.signed = e.node.signed →
    e.SignsTight
  | .mk x rest, h => by
    have hx := x.signed_applied_le
    have hrest := opsSigned_applied_le rest
    rw [Phrase.applied, Phrase.signed_mk, Phrase.signed_mk, opsSigned_append] at h
    exact ⟨x.signsTight_of_signed (by omega), operandsSignsTight_of_signed rest (by omega)⟩

theorem operandsSignsTight_of_signed : ∀ rest : List (BinOp × Operand),
    opsSigned (operandsApplied rest) = opsSigned rest → operandsSignsTight rest
  | [], _ => trivial
  | (o, y) :: rest, h => by
    have hy := y.signed_applied_le
    have hrest := opsSigned_applied_le rest
    rw [operandsApplied, opsSigned_cons, opsSigned_cons, opsSigned_append] at h
    exact ⟨y.signsTight_of_signed (by omega), operandsSignsTight_of_signed rest (by omega)⟩

theorem argsSignsTight_of_signed : ∀ args : List Phrase,
    Node.signedArgs (phraseNodes (argsApplied args)) = Node.signedArgs (phraseNodes args) →
    argsSignsTight args
  | [], _ => trivial
  | e :: es, h => by
    have he := e.signed_applied_le
    have hes := signedArgs_applied_le es
    simp only [argsApplied, phraseNodes, Node.signedArgs] at h
    exact ⟨e.signsTight_of_signed (by omega), argsSignsTight_of_signed es (by omega)⟩
end

theorem Phrase.node_applied_iff (e : Phrase) : e.applied.node = e.node ↔ e.SignsTight := by
  constructor
  · exact fun h => e.signsTight_of_signed (congrArg Node.signed h)
  · intro h
    rw [e.applied_eq h]

/-! ### Equations -/

/-- The tree of the equation is the one in which each sign is applied to its factor. -/
def AppliesSigns (eqn : CStr) : Prop :=
  ∀ (l : Lexer) (e : Phrase) (a : Option Symbol), lexerInit eqn = .ok l → e.Legal →
    Sees l e.symbols a → e.Stops a → avarEqnParse eqn = .ok e.applied.node

/-- For an equation of less than 2^31 bytes. -/
theorem appliesSigns_iff (eqn : CStr) : AppliesSigns eqn ↔
    ∀ (l : Lexer) (e : Phrase) (a : Option Symbol), lexerInit eqn = .ok l → e.Legal →
      Sees l e.symbols a → e.Stops a → e.SignsTight := by
  have htree : ∀ (l : Lexer) (e : Phrase) (a : Option Symbol), lexerInit eqn = .ok l → e.Legal →
      Sees l e.symbols a → e.Stops a → (avarEqnParse eqn = .ok e.applied.node ↔ e.SignsTight) := by
    intro l e a hl he hs ha
    have hparse := (avarEqnParse_ok_iff hl e.node).mpr (.inr ⟨e, a, he, hs, ha, rfl⟩)
    rw [hparse, ← e.node_applied_iff]
    constructor
    · exact fun h => (Except.ok.inj h).symm
    · exact fun h => congrArg Except.ok h.symm
  constructor
  · exact fun h l e a hl he hs ha => (htree l e a hl he hs ha).mp (h l e a hl he hs ha)
  · exact fun h l e a hl he hs ha => (htree l e a hl he hs ha).mpr (h l e a hl he hs ha)

def minusOp : UnOp := { rune := rune '-', mem_unary := by decide +kernel }

/-- `a + b` behind a sign. -/
def negatedSum : Phrase := .mk (.unary minusOp (Chain.mk factorA [(addOp, factorB)]).phrase) []

/-- `- a + b` is read as `-(a + b)`. -/
theorem minus_a_plus_b :
    avarEqnParse (cstr "- a + b") = .ok (.unary (rune '-') (.binary (rune '+')
      (.ident (cstr "a") none) (.ident (cstr "b") none))) ∧ ¬ AppliesSigns (cstr "- a + b") := by
  have hparse : avarEqnParse (cstr "- a + b") = .ok (.unary (rune '-') (.binary (rune '+')
      (.ident (cstr "a") none) (.ident (cstr "b") none))) := by decide +kernel
  refine ⟨hparse, fun h => ?_⟩
  have hl : lexerInit (cstr "- a + b") = .ok (lexerAt (cstr "- a + b")) := by decide +kernel
  have hlexes : Lexes (lexerAt (cstr "- a + b"))
      ({ start := cstr "-", type := .token } :: (Chain.mk factorA [(addOp, factorB)]).tokens) :=
    Lexes.of_lexAll 5 (by decide +kernel)
  have hsees : Sees (lexerAt (cstr "- a + b")) negatedSum.symbols none := by
    have hsymbols := (Chain.mk factorA [(addOp, factorB)]).symbols_tokens
    have hminus : Token.symbol { start := cstr "-", type := .token } = minusOp.symbol := by
      decide +kernel
    have h := hlexes.sees
    rw [List.map_cons, hsymbols, hminus] at h
    simpa [negatedSum, Phrase.symbols, Operand.symbols, operandSymbols] using h
  have hsum : (Chain.mk factorA [(addOp, factorB)]).phrase.Stops none :=
    Chain.phrase_stops _ (by simp) fun _ _ _ _ _ => by simp
  have htree := h _ negatedSum none hl ⟨Chain.phrase_legal _, trivial⟩ hsees ⟨hsum, hsum.2⟩
  rw [hparse] at htree
  have hne : (Node.unary (rune '-') (.binary (rune '+') (.ident (cstr "a") none)
      (.ident (cstr "b") none))) ≠ negatedSum.applied.node := by decide +kernel
  exact hne (Except.ok.inj htree)

end Libsd

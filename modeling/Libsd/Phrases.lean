/-
  Libsd/Phrases.lean
  ==================
  **The language of the parser, and that the parser reads it.**

  A `Phrase` is a sequence of operands joined by binary operators.  A unary operator
  and an `if` take everything behind them, so they can only be the last operand; both
  can also be cut short, the operator by the end of the equation and the `if` by
  leaving out its `else`.  `Legal` and `Stops` say what may follow what.  On a legal
  phrase that stops, the parser returns its tree (`expr_phrase`).  `expr` descends
  from the first group of `BINARY` to the last, so the last group binds tightest.
-/
import Libsd.Lib.Precedence
import Libsd.Symbols
import Mathlib.Data.List.TakeWhile

namespace Libsd

open Utf Precedence OpTree

/-! ### Operators -/

/-- The runes of one operator group. -/
def groupRunes (level : Nat) : List Rune := (runes (BINARY.getD level [])).map (·.1)

/-- A binary operator as it is written, with its group. -/
structure BinOp where
  text : CStr
  level : Nat
  level_lt : level < MAX_BINARY
  mem_group : firstRune text ∈ groupRunes level

namespace BinOp

def rune (o : BinOp) : Rune := firstRune o.text

def token (o : BinOp) : Token := { start := o.text, type := .token }

def symbol (o : BinOp) : Symbol := .op o.rune

end BinOp

structure UnOp where
  rune : Rune
  mem_unary : rune ∈ (runes UNARY).map (·.1)

def UnOp.symbol (u : UnOp) : Symbol := .op u.rune

def symOpen : Symbol := .op (rune '(')
def symClose : Symbol := .op (rune ')')
def symComma : Symbol := .op (rune ',')
def symIf : Symbol := .word (cstr "if")
def symThen : Symbol := .word (cstr "then")
def symElse : Symbol := .word (cstr "else")

theorem group_unique : ∀ i < MAX_BINARY, ∀ j < MAX_BINARY, ∀ r ∈ groupRunes i,
    r ∈ groupRunes j → i = j := by
  decide +kernel

theorem groupRunes_not_bracket : ∀ i < MAX_BINARY, ∀ r ∈ groupRunes i,
    r ≠ rune '(' ∧ r ≠ rune ')' ∧ r ≠ rune ',' := by
  decide +kernel

theorem UNARY_not_open : ∀ r ∈ (runes UNARY).map (·.1), r ≠ rune '(' := by
  decide +kernel

/-- The groups of `BINARY`, tightest first in the order they are written. -/
def conventional (o : BinOp) : Nat := o.level

/-- The precedence of the recursion: the later the group, the tighter. -/
abbrev descent : BinOp → Natᵒᵈ := reversed conventional

/-- The expression tree of a tree of operators over nodes. -/
def toNode : OpTree BinOp Node → Node
  | .leaf n => n
  | .node o l r => .binary o.rune (toNode l) (toNode r)

/-! ### Phrases -/

mutual
inductive Operand where
  | num (text : CStr)
  | ident (text name : CStr) (h : canonicalize text = some name)
  | call (text name : CStr) (h : canonicalize text = some name) (args : List Phrase)
  | paren (e : Phrase)
  | unary (u : UnOp) (e : Phrase)
  | dangling (u : UnOp)            -- a unary operator with nothing behind it
  | ifThen (c l : Phrase)          -- an `if` without an `else`
  | ifElse (c l r : Phrase)

inductive Phrase where
  | mk (head : Operand) (rest : List (BinOp × Operand))
end

mutual
def Operand.symbols : Operand → List Symbol
  | .num text => [.num text]
  | .ident text _ _ => [.ident text]
  | .call text _ _ args => .ident text :: symOpen :: argSymbols args
  | .paren e => symOpen :: (e.symbols ++ [symClose])
  | .unary u e => u.symbol :: e.symbols
  | .dangling u => [u.symbol]
  | .ifThen c l => symIf :: (c.symbols ++ symThen :: l.symbols)
  | .ifElse c l r => symIf :: (c.symbols ++ symThen :: (l.symbols ++ symElse :: r.symbols))

def Phrase.symbols : Phrase → List Symbol
  | .mk x rest => x.symbols ++ operandSymbols rest

def operandSymbols : List (BinOp × Operand) → List Symbol
  | [] => []
  | (o, y) :: rest => o.symbol :: (y.symbols ++ operandSymbols rest)

/-- The symbols of an argument list, its closing parenthesis included. -/
def argSymbols : List Phrase → List Symbol
  | [] => [symClose]
  | e :: es => e.symbols ++ moreArgSymbols es

def moreArgSymbols : List Phrase → List Symbol
  | [] => [symClose]
  | e :: es => symComma :: (e.symbols ++ moreArgSymbols es)
end

mutual
/-- The tree the parser builds of an operand. -/
def Operand.node : Operand → Node
  | .num text => .floatlit text 0
  | .ident _ name _ => .ident name none
  | .call _ name _ args => .call (.ident name none) (phraseNodes args) none
  | .paren e => .paren e.node
  | .unary u e => .unary u.rune e.node
  | .dangling u => .unary u.rune .null
  | .ifThen c l => .ifElse c.node l.node .null
  | .ifElse c l r => .ifElse c.node l.node r.node

def Phrase.node : Phrase → Node
  | .mk x rest => toNode (build descent x.node (operandNodes rest))

def operandNodes : List (BinOp × Operand) → List (BinOp × Node)
  | [] => []
  | (o, y) :: rest => (o, y.node) :: operandNodes rest

def phraseNodes : List Phrase → List Node
  | [] => []
  | e :: es => e.node :: phraseNodes es
end

/-- The next symbol is no operator of the groups from `level` on. -/
def NoOp (level : Nat) (a : Option Symbol) : Prop :=
  ∀ i, level ≤ i → i < MAX_BINARY → ∀ r ∈ groupRunes i, a ≠ some (.op r)

mutual
/-- With `a` behind it the operand is complete, and `fact` does not go on. -/
def Operand.Stops : Operand → Option Symbol → Prop
  | .num _, _ => True
  | .ident _ _ _, a => a ≠ some symOpen
  | .call _ _ _ _, _ => True
  | .paren _, _ => True
  | .unary _ e, a => e.Stops a
  | .dangling _, a => a = none
  | .ifThen _ l, a => l.Stops a ∧ a ≠ some symElse
  | .ifElse _ _ r, a => r.Stops a

def Phrase.Stops : Phrase → Option Symbol → Prop
  | .mk x rest, a => lastStops (x.Stops a) rest a ∧ NoOp 0 a

/-- The last operand stops; `p` says it of the operand before the list. -/
def lastStops : Prop → List (BinOp × Operand) → Option Symbol → Prop
  | p, [], _ => p
  | _, (_, y) :: rest, a => lastStops (y.Stops a) rest a
end

mutual
/-- Every part of the operand stops where its next part begins. -/
def Operand.Legal : Operand → Prop
  | .num _ => True
  | .ident _ _ _ => True
  | .call _ _ _ args => argsLegal args
  | .paren e => e.Legal ∧ e.Stops (some symClose)
  | .unary _ e => e.Legal
  | .dangling _ => True
  | .ifThen c l => c.Legal ∧ c.Stops (some symThen) ∧ l.Legal
  | .ifElse c l r => c.Legal ∧ c.Stops (some symThen) ∧ l.Legal ∧ l.Stops (some symElse) ∧ r.Legal

def Phrase.Legal : Phrase → Prop
  | .mk x rest => x.Legal ∧ operandsLegal x.Stops rest

/-- `p` says where the operand before the list stops. -/
def operandsLegal : (Option Symbol → Prop) → List (BinOp × Operand) → Prop
  | _, [] => True
  | p, (o, y) :: rest => p (some o.symbol) ∧ y.Legal ∧ operandsLegal y.Stops rest

def argsLegal : List Phrase → Prop
  | [] => True
  | e :: es => e.Legal ∧ e.Stops (nextOf (moreArgSymbols es) none) ∧ argsLegal es
end

/-- What follows an operand inside a phrase that has `b` behind it. -/
def TailLegal (rest : List (BinOp × Operand)) (b : Option Symbol) : Prop :=
  match rest with
  | [] => NoOp 0 b
  | (_, y) :: rest => (Phrase.mk y rest).Legal ∧ (Phrase.mk y rest).Stops b

theorem Phrase.Legal.tail {x : Operand} {rest : List (BinOp × Operand)} {b : Option Symbol}
    (h : (Phrase.mk x rest).Legal) (hb : (Phrase.mk x rest).Stops b) : TailLegal rest b := by
  cases rest with
  | nil => exact hb.2
  | cons q rest =>
    obtain ⟨o, y⟩ := q
    exact ⟨h.2.2, hb⟩

/-- The first operand stops at what follows it. -/
theorem Phrase.Legal.head_stops {x : Operand} {rest : List (BinOp × Operand)} {ss : List Symbol}
    {a : Option Symbol} (h : (Phrase.mk x rest).Legal)
    (hb : (Phrase.mk x rest).Stops (nextOf ss a)) :
    x.Stops (nextOf (operandSymbols rest ++ ss) a) := by
  cases rest with
  | nil => exact hb.1
  | cons q rest =>
    obtain ⟨o, y⟩ := q
    exact h.2.1

/-! ### The part of a sequence that one level takes -/

/-- The part of the sequence `expr` takes at a level: up to the first operator of
    an earlier group. -/
def within {T : Type} (level : Nat) (qs : List (BinOp × T)) : List (BinOp × T) :=
  qs.takeWhile fun q => decide (level ≤ q.1.level)

def beyond {T : Type} (level : Nat) (qs : List (BinOp × T)) : List (BinOp × T) :=
  qs.dropWhile fun q => decide (level ≤ q.1.level)

section
variable {T : Type} {level : Nat}

theorem within_cons {o : BinOp} (h : level ≤ o.level) (y : T) (qs : List (BinOp × T)) :
    within level ((o, y) :: qs) = (o, y) :: within level qs := by
  simp [within, h]

theorem beyond_cons {o : BinOp} (h : level ≤ o.level) (y : T) (qs : List (BinOp × T)) :
    beyond level ((o, y) :: qs) = beyond level qs := by
  simp [beyond, h]

theorem within_stop {q : BinOp × T} (h : ¬ level ≤ q.1.level) (qs : List (BinOp × T)) :
    within level (q :: qs) = [] := by
  simp only [within, List.takeWhile_cons, decide_eq_true_eq, if_neg h]

theorem beyond_stop {q : BinOp × T} (h : ¬ level ≤ q.1.level) (qs : List (BinOp × T)) :
    beyond level (q :: qs) = q :: qs := by
  simp only [beyond, List.dropWhile_cons, decide_eq_true_eq, if_neg h]

/-- The part taken at a level is the part taken one level down, and then what
    that left over. -/
theorem within_succ (level : Nat) (qs : List (BinOp × T)) :
    within level qs = within (level + 1) qs ++ within level (beyond (level + 1) qs) := by
  induction qs with
  | nil => rfl
  | cons q qs ih =>
    by_cases h : level + 1 ≤ q.1.level
    · rw [within_cons h, within_cons (by omega), beyond_cons h, ih, List.cons_append]
    · rw [within_stop h, beyond_stop h, List.nil_append]

theorem beyond_succ (level : Nat) (qs : List (BinOp × T)) :
    beyond level qs = beyond level (beyond (level + 1) qs) := by
  induction qs with
  | nil => rfl
  | cons q qs ih =>
    by_cases h : level + 1 ≤ q.1.level
    · rw [beyond_cons h, beyond_cons (by omega), ih]
    · rw [beyond_stop h]

theorem head_beyond {qs : List (BinOp × T)} :
    ∀ q ∈ (beyond (level + 1) qs).head?, q.1.level ≤ level := by
  intro q hq
  have := List.head?_dropWhile_not (fun q : BinOp × T => decide (level + 1 ≤ q.1.level)) qs
  rw [beyond] at hq
  rw [Option.mem_def] at hq
  rw [hq] at this
  exact Nat.lt_succ_iff.mp (by simpa using this)

theorem beyond_max (qs : List (BinOp × T)) : beyond MAX_BINARY qs = qs := by
  cases qs with
  | nil => rfl
  | cons q qs => simp [beyond, q.1.level_lt]

theorem within_max (qs : List (BinOp × T)) : within MAX_BINARY qs = [] := by
  cases qs with
  | nil => rfl
  | cons q qs => simp [within, q.1.level_lt]

theorem within_zero (qs : List (BinOp × T)) : within 0 qs = qs :=
  List.takeWhile_eq_self_iff.mpr (by simp)

theorem beyond_zero (qs : List (BinOp × T)) : beyond 0 qs = [] :=
  List.dropWhile_eq_nil_iff.mpr (by simp)

end

section
variable {level : Nat}

theorem operandNodes_eq_map (qs : List (BinOp × Operand)) :
    operandNodes qs = qs.map fun q => (q.1, q.2.node) := by
  induction qs with
  | nil => rfl
  | cons q qs ih => simp only [operandNodes, List.map_cons, ih]

theorem level_of_mem_within {qs : List (BinOp × Operand)} {p : BinOp × Node}
    (h : p ∈ operandNodes (within level qs)) : level ≤ p.1.level := by
  rw [operandNodes_eq_map] at h
  obtain ⟨q, hq, rfl⟩ := List.mem_map.mp h
  simpa using List.mem_takeWhile_imp hq

theorem length_operandSymbols_beyond (level : Nat) (qs : List (BinOp × Operand)) :
    (operandSymbols (beyond level qs)).length ≤ (operandSymbols qs).length := by
  induction qs with
  | nil => exact le_rfl
  | cons q qs ih =>
    by_cases h : level ≤ q.1.level
    · rw [beyond_cons h, operandSymbols, List.length_cons, List.length_append]
      omega
    · rw [beyond_stop h]

theorem TailLegal.beyond {qs : List (BinOp × Operand)} {b : Option Symbol} (h : TailLegal qs b)
    (level : Nat) : TailLegal (beyond level qs) b := by
  induction qs with
  | nil => exact h
  | cons q qs ih =>
    by_cases hl : level ≤ q.1.level
    · rw [beyond_cons hl]
      exact ih (h.1.tail h.2)
    · rw [beyond_stop hl]
      exact h

/-- The operator taken by the loop of a level, with everything tighter on its right. -/
theorem foldl_within_cons {o : BinOp} {y : Operand} {qs : List (BinOp × Operand)}
    {t : OpTree BinOp Node} (ht : ∀ p ∈ t.rest, o.level ≤ p.1.level) :
    (operandNodes (within o.level ((o, y) :: qs))).foldl (ins descent) t =
      (operandNodes (within o.level (Libsd.beyond (o.level + 1) qs))).foldl (ins descent)
        (.node o t (build descent y.node (operandNodes (within (o.level + 1) qs)))) := by
  rw [within_cons le_rfl, within_succ, operandNodes_eq_map, List.map_cons, List.map_append,
    ← operandNodes_eq_map, ← operandNodes_eq_map, ← List.cons_append, List.foldl_append]
  congr 1
  exact foldl_ins_split descent (fun p hp => ht p hp) fun q hq => level_of_mem_within hq

end

end Libsd

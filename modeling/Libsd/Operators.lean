/-
  Libsd/Operators.lean
  ====================
  **What `svisit` makes of the operators the parser accepts.**

  `Denotes` is what an operator stands for, on the operands where that is beyond
  dispute, and `Visits` says which nodes `svisit` comes to.  The switch over binary
  operators has no case for two runes of `BINARY`, the `%` that `mod` is turned into
  and the `!` of the second group, so an equation is interpreted exactly when it has
  neither (`interpreted_iff`).
-/
import Libsd.AcceptedEqns

namespace Libsd

open Utf Precedence OpTree

/-! ### Operators and their cases -/

/-- The cases of the switch over `n->op` for a binary node. -/
def BINARY_CASES : List Nat :=
  [rune '+', rune '-', rune '*', rune '/', rune '<', rune '>', rune '&', rune '|', rune '=',
    rune '≠', rune '≤', rune '≥', rune '^']

def UNARY_CASES : List Nat := [rune '+', rune '-', rune '!']

/-- The runes of all groups of `BINARY`. -/
def binaryRunes : List Rune := (List.range MAX_BINARY).flatMap groupRunes

/-- Without a case, `v` stays the NaN it starts as. -/
theorem binaryOp_default (env : Env) {op : Nat} (h : op ∉ BINARY_CASES) (l r : ℚ) :
    binaryOp env op l r = env.nan := by
  simp only [BINARY_CASES, List.mem_cons, List.not_mem_nil, or_false, not_or] at h
  simp only [binaryOp, h, if_false]

/-- `a op b` is `v`.  Division and remainder are left open where the divisor is 0, the
    remainder also for negative operands, and `&` and `|` for what is not a truth value. -/
inductive Denotes (env : Env) : Nat → ℚ → ℚ → ℚ → Prop where
  | add (a b : ℚ) : Denotes env (rune '+') a b (a + b)
  | sub (a b : ℚ) : Denotes env (rune '-') a b (a - b)
  | mul (a b : ℚ) : Denotes env (rune '*') a b (a * b)
  | div (a b : ℚ) (hb : b ≠ 0) : Denotes env (rune '/') a b (a / b)
  | rem (k : ℕ) (b v : ℚ) (hv : 0 ≤ v) (hvb : v < b) : Denotes env (rune '%') (k * b + v) b v
  | lt (a b : ℚ) : Denotes env (rune '<') a b (truth (a < b))
  | gt (a b : ℚ) : Denotes env (rune '>') a b (truth (a > b))
  | le (a b : ℚ) : Denotes env (rune '≤') a b (truth (a ≤ b))
  | ge (a b : ℚ) : Denotes env (rune '≥') a b (truth (a ≥ b))
  | eq (a b : ℚ) : Denotes env (rune '=') a b (truth (a = b))
  | ne (a b : ℚ) : Denotes env (rune '≠') a b (truth (a ≠ b))
  | and (p q : Bool) : Denotes env (rune '&') (truth p) (truth q) (truth (p && q))
  | or (p q : Bool) : Denotes env (rune '|') (truth p) (truth q) (truth (p || q))
  | pow (a b : ℚ) : Denotes env (rune '^') a b (env.pow a b)

/-- `op a` is `v`. -/
inductive DenotesUnary : Nat → ℚ → ℚ → Prop where
  | plus (a : ℚ) : DenotesUnary (rune '+') a a
  | minus (a : ℚ) : DenotesUnary (rune '-') a (-a)
  | not (p : Bool) : DenotesUnary (rune '!') (truth p) (truth !p)

/-- The operator stands for something, and `svisit` calculates that. -/
def Interprets (op : Nat) : Prop :=
  ∀ env : Env, (∃ a b v, Denotes env op a b v) ∧
    ∀ a b v, Denotes env op a b v → binaryOp env op a b = v

def InterpretsUnary (op : Nat) : Prop :=
  ∀ env : Env, (∃ a v, DenotesUnary op a v) ∧ ∀ a v, DenotesUnary op a v → unaryOp env op a = v

theorem Denotes.op_mem {env : Env} {op : Nat} {a b v : ℚ} (h : Denotes env op a b v) :
    op ∈ rune '%' :: BINARY_CASES := by
  cases h <;> decide

theorem Denotes.value {env : Env} {op : Nat} {a b v : ℚ} (h : Denotes env op a b v)
    (hop : op ≠ rune '%') : binaryOp env op a b = v := by
  cases h with
  | rem => exact absurd rfl hop
  | and p q => cases p <;> cases q <;> rfl
  | or p q => cases p <;> cases q <;> rfl
  | add | sub | mul | lt | gt | le | ge | pow => rfl
  | div a b hb => exact if_neg hb
  | eq a b => exact congrArg truth (beq_eq_decide a b)
  | ne a b =>
    have hne : (a != b) = decide (a ≠ b) := by rw [bne, beq_eq_decide, decide_not]
    exact congrArg truth hne

theorem DenotesUnary.value (env : Env) {op : Nat} {a v : ℚ} (h : DenotesUnary op a v) :
    unaryOp env op a = v := by
  cases h with
  | plus | minus => rfl
  | not p => cases p <;> rfl

/-- A case of the switch belongs to an operator that stands for something. -/
theorem exists_denotes (env : Env) : ∀ op ∈ BINARY_CASES, ∃ a b v, Denotes env op a b v := by
  simp only [BINARY_CASES, List.forall_mem_cons]
  exact ⟨⟨_, _, _, .add 0 0⟩, ⟨_, _, _, .sub 0 0⟩, ⟨_, _, _, .mul 0 0⟩,
    ⟨_, _, _, .div 0 1 one_ne_zero⟩, ⟨_, _, _, .lt 0 0⟩, ⟨_, _, _, .gt 0 0⟩,
    ⟨_, _, _, .and true true⟩, ⟨_, _, _, .or true true⟩, ⟨_, _, _, .eq 0 0⟩, ⟨_, _, _, .ne 0 0⟩,
    ⟨_, _, _, .le 0 0⟩, ⟨_, _, _, .ge 0 0⟩, ⟨_, _, _, .pow 0 0⟩, by simp⟩

theorem binaryRunes_cases : ∀ op ∈ binaryRunes, op ∈ BINARY_CASES ∨ op = rune '%' ∨
    op = rune '!' := by
  decide +kernel

theorem not_case_rem : rune '%' ∉ BINARY_CASES := by decide

/-- Of the operators of the parser, `%` and `!` are the ones that are not interpreted. -/
theorem interprets_iff {op : Nat} (hop : op ∈ binaryRunes) :
    Interprets op ↔ op ≠ rune '%' ∧ op ≠ rune '!' := by
  constructor
  · intro h
    refine ⟨?_, ?_⟩
    · rintro rfl
      -- 1 is the remainder of 7 by 3, and the NaN is read as 0
      have hrem := (h (.plain true)).2 _ _ _ (.rem 2 3 1 zero_le_one (by norm_num))
      rw [binaryOp_default _ not_case_rem] at hrem
      exact zero_ne_one hrem
    · rintro rfl
      obtain ⟨a, b, v, hv⟩ := (h (.plain true)).1
      exact absurd hv.op_mem (by decide)
  · rintro ⟨hrem, hnot⟩ env
    have hcase : op ∈ BINARY_CASES := by
      rcases binaryRunes_cases op hop with h | rfl | rfl
      · exact h
      · exact absurd rfl hrem
      · exact absurd rfl hnot
    exact ⟨exists_denotes env op hcase, fun a b v hv => hv.value hrem⟩

theorem interpretsUnary {op : Nat} (hop : op ∈ UNARY_CASES) : InterpretsUnary op := by
  intro env
  refine ⟨?_, fun a v hv => hv.value env⟩
  simp only [UNARY_CASES, List.mem_cons, List.not_mem_nil, or_false] at hop
  rcases hop with rfl | rfl | rfl
  · exact ⟨_, _, .plus 0⟩
  · exact ⟨_, _, .minus 0⟩
  · exact ⟨_, _, .not true⟩

/-! ### The operators of a tree -/

namespace Node

/-- The operator of a node is one of the parser's. -/
def OpParsed : Node → Prop
  | binary op _ _ => op ∈ binaryRunes
  | unary op _ => op ∈ UNARY_CASES
  | _ => True

/-- The node is neither `mod` nor a binary `!`. -/
def OpPlain : Node → Prop
  | binary op _ _ => op ≠ rune '%' ∧ op ≠ rune '!'
  | _ => True

/-- The operator of a node is interpreted. -/
def OpInterpreted : Node → Prop
  | binary op _ _ => Interprets op
  | unary op _ => InterpretsUnary op
  | _ => True

/-- `svisit` would report the node. -/
def Unknown : Node → Prop
  | binary op _ _ => op ∉ BINARY_CASES
  | unary op _ => op ∉ UNARY_CASES
  | _ => False

theorem opInterpreted_iff {n : Node} (h : n.OpParsed) : n.OpInterpreted ↔ n.OpPlain := by
  cases n with
  | binary op l r => exact interprets_iff h
  | unary op l => exact iff_of_true (interpretsUnary h) trivial
  | null | paren | floatlit | ident | call | ifElse => exact Iff.rfl

theorem OpPlain.not_unknown {n : Node} (h : n.OpParsed) (hplain : n.OpPlain) : ¬ n.Unknown := by
  cases n with
  | binary op l r =>
    intro hun
    rcases binaryRunes_cases op h with hcase | rfl | rfl
    · exact hun hcase
    · exact hplain.1 rfl
    · exact hplain.2 rfl
  | unary op l => exact fun hun => hun h
  | null | paren | floatlit | ident | call | ifElse => exact id

end Node

theorem UnOp.mem_cases (u : UnOp) : u.rune ∈ UNARY_CASES := by
  have hrunes : (runes UNARY).map (·.1) = UNARY_CASES := by decide +kernel
  exact hrunes ▸ u.mem_unary

mutual
/-- The operators of the parser's trees are those of its tables. -/
theorem Operand.opParsed : ∀ x : Operand, x.node.Everywhere Node.OpParsed
  | .num _ => trivial
  | .ident _ _ _ => trivial
  | .call _ _ _ args => ⟨trivial, argsParsed args⟩
  | .paren e => ⟨trivial, e.opParsed⟩
  | .unary u e => ⟨u.mem_cases, e.opParsed⟩
  | .dangling u => ⟨u.mem_cases, trivial⟩
  | .ifThen c l => ⟨trivial, c.opParsed, l.opParsed, trivial⟩
  | .ifElse c l r => ⟨trivial, c.opParsed, l.opParsed, r.opParsed⟩

theorem Phrase.opParsed : ∀ e : Phrase, e.node.Everywhere Node.OpParsed
  | .mk x rest => by
    have hop : ∀ (o : BinOp) l r, Node.OpParsed (.binary o.rune l r) := fun o _ _ =>
      List.mem_flatMap.mpr ⟨o.level, List.mem_range.mpr o.level_lt, o.mem_group⟩
    rw [Phrase.node, everywhere_toNode_iff hop, first_build, rest_build]
    exact ⟨x.opParsed, operandsParsed rest⟩

theorem operandsParsed : ∀ rest : List (BinOp × Operand),
    ∀ p ∈ operandNodes rest, p.2.Everywhere Node.OpParsed
  | [] => by simp [operandNodes]
  | (o, y) :: rest => by
    intro p hp
    rcases List.mem_cons.mp hp with rfl | hp
    · exact y.opParsed
    · exact operandsParsed rest p hp

theorem argsParsed : ∀ args : List Phrase,
    Node.EverywhereArgs Node.OpParsed (phraseNodes args)
  | [] => trivial
  | e :: es => ⟨e.opParsed, argsParsed es⟩
end

theorem avarEqnParse_opParsed {eqn : CStr} {n : Node} (h : avarEqnParse eqn = .ok n) :
    n.Everywhere Node.OpParsed := by
  obtain ⟨l, hl⟩ : ∃ l, lexerInit eqn = .ok l := by
    cases hl : lexerInit eqn with
    | error e => simp [avarEqnParse, hl, Bind.bind, Except.bind] at h
    | ok l => exact ⟨l, rfl⟩
  rcases (avarEqnParse_ok_iff hl n).mp h with ⟨rfl, -⟩ | ⟨e, a, -, -, -, rfl⟩
  · trivial
  · exact e.opParsed

/-! ### The nodes that are evaluated -/

section
variable (env : Env) (read : Path → ℚ) (dt time : ℚ)

/-- `svisit` on the first node comes to the second. -/
inductive Visits : Node → Node → Prop where
  | here (n : Node) : Visits n n
  | paren {l k : Node} (h : Visits l k) : Visits (.paren l) k
  | arg {l a k : Node} {args : List Node} {fn : Option Fn} (ha : a ∈ args) (h : Visits a k) :
    Visits (.call l args fn) k
  | cond {c l r k : Node} (h : Visits c k) : Visits (.ifElse c l r) k
  | taken {c l r k : Node} {v : ℚ} (hc : svisit env read dt time c = .ok v) (hv : v ≠ 0)
    (h : Visits l k) : Visits (.ifElse c l r) k
  | notTaken {c l r k : Node} (hc : svisit env read dt time c = .ok 0) (h : Visits r k) :
    Visits (.ifElse c l r) k
  | operand {op : Nat} {l k : Node} (h : Visits l k) : Visits (.unary op l) k
  | left {op : Nat} {l r k : Node} (h : Visits l k) : Visits (.binary op l r) k
  | right {op : Nat} {l r k : Node} (h : Visits r k) : Visits (.binary op l r) k

end

theorem everywhere_of_mem {P : Node → Prop} {args : List Node} {a : Node}
    (h : Node.EverywhereArgs P args) (ha : a ∈ args) : a.Everywhere P := by
  induction args with
  | nil => simp at ha
  | cons b args ih =>
    rcases List.mem_cons.mp ha with rfl | ha
    · exact h.1
    · exact ih h.2 ha

theorem Visits.everywhere {env : Env} {read : Path → ℚ} {dt time : ℚ} {P : Node → Prop}
    {n k : Node} (h : Visits env read dt time n k) (hn : n.Everywhere P) : P k := by
  induction h with
  | here => exact hn.self
  | paren _ ih => exact ih hn.2
  | arg ha _ ih => exact ih (everywhere_of_mem hn.2 ha)
  | cond _ ih => exact ih hn.2.1
  | taken _ _ _ ih => exact ih hn.2.2.1
  | notTaken _ _ ih => exact ih hn.2.2.2
  | operand _ ih => exact ih hn.2
  | left _ ih => exact ih hn.2.1
  | right _ ih => exact ih hn.2.2

/-! ### Equations -/

/-- `svisit` interprets the tree of an equation. -/
structure Node.Interpreted (n : Node) : Prop where
  operators : n.Everywhere Node.OpInterpreted
  /-- Whatever the tree is resolved to, no row leads `svisit` to a node it reports. -/
  known : ∀ (scope : Scope) (m : Node) (deps : List Path), nodeWalk scope n = .ok (m, deps) →
    m.Everywhere Node.Resolved → ∀ env read dt time k, Visits env read dt time m k → ¬ k.Unknown

theorem not_unknown_link {n : Node} (find : CStr → Option Path) (h : ¬ n.Unknown) :
    ¬ (n.link find).Unknown := by
  cases n <;> exact h

theorem Node.interpreted_iff_calculated {n : Node} (hops : n.Everywhere Node.OpParsed) :
    n.Interpreted ↔ n.Everywhere Node.OpPlain := by
  constructor
  · intro h
    exact (hops.and h.operators).imp fun k hk => (Node.opInterpreted_iff hk.1).mp hk.2
  · intro h
    refine ⟨(hops.and h).imp fun k hk => (Node.opInterpreted_iff hk.1).mpr hk.2, ?_⟩
    intro scope m deps hwalk _ env read dt time k hk
    obtain ⟨-, -, he⟩ := nodeWalk_spec hwalk
    obtain ⟨rfl, -⟩ := Prod.mk.inj he
    have hknown : n.Everywhere fun k => ¬ k.Unknown := (hops.and h).imp fun k hk =>
      hk.2.not_unknown hk.1
    have hlinked : (n.link scope.find).Everywhere fun k => ¬ k.Unknown :=
      Node.everywhere_link (P := fun k => ¬ k.Unknown) scope.find
        (fun _ => not_unknown_link scope.find) hknown
    exact hk.everywhere hlinked

/-- An equation of less than 2^31 bytes is interpreted exactly when its tree has no `mod` and
    no binary `!`. -/
theorem interpreted_iff (eqn : CStr) : (∀ n, avarEqnParse eqn = .ok n → n.Interpreted) ↔
    ∀ n, avarEqnParse eqn = .ok n → n.Everywhere Node.OpPlain := by
  constructor
  · exact fun h n hn => (Node.interpreted_iff_calculated (avarEqnParse_opParsed hn)).mp (h n hn)
  · exact fun h n hn => (Node.interpreted_iff_calculated (avarEqnParse_opParsed hn)).mpr (h n hn)

/-- `7 mod 3` is accepted and its value is a NaN. -/
theorem mod_not_interpreted :
    avarEqnParse (cstr "7 mod 3") =
      .ok (.binary (rune '%') (.floatlit (cstr "7") 0) (.floatlit (cstr "3") 0)) ∧
    (∀ env read dt time, svisit env read dt time
      (.binary (rune '%') (.floatlit (cstr "7") 7) (.floatlit (cstr "3") 3)) = .ok env.nan) ∧
    ¬ ∀ eqn n, avarEqnParse eqn = .ok n → n.Interpreted := by
  have hparse : avarEqnParse (cstr "7 mod 3") =
      .ok (.binary (rune '%') (.floatlit (cstr "7") 0) (.floatlit (cstr "3") 0)) := by
    decide +kernel
  refine ⟨hparse, fun env read dt time => ?_, fun h => ?_⟩
  · exact congrArg Except.ok (binaryOp_default env not_case_rem 7 3)
  · have hops := (Node.interpreted_iff_calculated (avarEqnParse_opParsed hparse)).mp (h _ _ hparse)
    exact hops.1.1 rfl

end Libsd

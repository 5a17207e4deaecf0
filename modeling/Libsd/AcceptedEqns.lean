/-
  Libsd/AcceptedEqns.lean
  =======================
  **What `avar_eqn_parse` accepts, and what it makes of it.**

  The equation is accepted when it has no token, or a legal phrase at its start that
  stops at what follows it (`avarEqnParse_ok_iff`).  What follows need not be the end,
  and the phrase may lack parts that the walks over the tree rely on.
-/
import Libsd.FlatBuild
import Libsd.ParsePrecedence
import Libsd.PhraseSound
import Libsd.Values

namespace Libsd

open Utf Precedence OpTree

theorem avarEqnParse_eq {eqn : CStr} {l : Lexer} (hl : lexerInit eqn = .ok l) (n : Node) :
    avarEqnParse eqn = .ok n ↔ ∃ l', expr (parseFuel l) 0 l = .ok (true, n, l') := by
  simp only [avarEqnParse, hl, bind, Except.bind]
  constructor
  · intro h
    split at h
    · simp at h
    · next r hr =>
      obtain ⟨ok, m, l'⟩ := r
      cases ok with
      | false => simp at h
      | true =>
        obtain rfl : m = n := by simpa [pure, Except.pure] using h
        exact ⟨l', hr⟩
  · rintro ⟨l', hr⟩
    rw [hr]
    rfl

/-- The trees of the parser are those of the legal phrases. -/
theorem avarEqnParse_ok_iff {eqn : CStr} {l : Lexer} (hl : lexerInit eqn = .ok l) (n : Node) :
    avarEqnParse eqn = .ok n ↔ n = .null ∧ Sees l [] none ∨
      ∃ (e : Phrase) (a : Option Symbol), e.Legal ∧ Sees l e.symbols a ∧ e.Stops a ∧
        n = e.node := by
  rw [avarEqnParse_eq hl]
  constructor
  · rintro ⟨l', h⟩
    rcases (yields (parseFuel l)).phrase h with ⟨rfl, hback, hend⟩ | ⟨e, he, rfl, hreads, a, ha, hs⟩
    · exact .inl ⟨rfl, hback [] none hend⟩
    · exact .inr ⟨e, a, he, by simpa using hreads [] a ha, hs, rfl⟩
  · rintro (⟨rfl, hend⟩ | ⟨e, a, he, hs, ha, rfl⟩)
    · obtain ⟨l', hexpr, -⟩ := expr_eof (parseFuel l) 0 hend (by simp [parseFuel])
      exact ⟨l', hexpr⟩
    · obtain ⟨l', hexpr, -⟩ := expr_phrase hl he hs ha
      exact ⟨l', hexpr⟩

/-! ### What is left of the equation -/

/-- Where the equation is accepted, the lexer has no token left. -/
def ConsumedWhole (eqn : CStr) : Prop :=
  ∀ l n l', lexerInit eqn = .ok l → expr (parseFuel l) 0 l = .ok (true, n, l') →
    ∃ l'', lexerNexttok l' = .ok (none, l'')

theorem sees_end_iff {l : Lexer} : Sees l [] none ↔ ∃ l', lexerNexttok l = .ok (none, l') := by
  constructor
  · intro h
    cases h with
    | ahead h ha =>
      obtain rfl := Option.map_eq_none_iff.mp ha
      exact ⟨_, h⟩
  · rintro ⟨l', h⟩
    exact .ahead h rfl

/-- The whole equation, of less than 2^31 bytes, is consumed exactly when no legal phrase at
    its start stops at another token. -/
theorem consumedWhole_iff (eqn : CStr) : ConsumedWhole eqn ↔
    ∀ (l : Lexer) (e : Phrase) (t : Symbol), lexerInit eqn = .ok l → e.Legal →
      Sees l e.symbols (some t) → ¬ e.Stops (some t) := by
  constructor
  · intro h l e t hl he hs ht
    obtain ⟨l', hexpr, hl'⟩ := expr_phrase hl he hs ht
    have hend := sees_end_iff.mpr (h l _ l' hl hexpr)
    exact absurd (hl'.unique hend) (by simp)
  · intro h l n l' hl hexpr
    apply sees_end_iff.mp
    rcases (yields (parseFuel l)).phrase hexpr with ⟨-, -, hend⟩ | ⟨e, he, -, hreads, a, ha, hs⟩
    · exact hend
    · cases a with
      | none => exact ha
      | some t =>
        have hsees : Sees l e.symbols (some t) := by simpa using hreads [] _ ha
        exact absurd hs (h l e t hl he hsees)

/-- `a b` is accepted, and `b` is left. -/
theorem consumedWhole_fails : ¬ ∀ eqn, ConsumedWhole eqn := by
  intro h
  have hl : lexerInit (cstr "a b") = .ok (lexerAt (cstr "a b")) := by decide +kernel
  have hlexes : Lexes (lexerAt (cstr "a b"))
      [{ start := cstr "a", type := .ident }, { start := cstr "b", type := .ident }] :=
    Lexes.of_lexAll 4 (by decide +kernel)
  have hb : NoOp 0 (some (.ident (cstr "b"))) := fun _ _ _ _ _ => by simp
  have hsees : Sees (lexerAt (cstr "a b")) (Phrase.mk factorA.operand []).symbols
      (some (.ident (cstr "b"))) := hlexes.sees.take [.ident (cstr "a")]
  have hlegal : (Phrase.mk factorA.operand []).Legal := ⟨trivial, trivial⟩
  obtain ⟨l', hexpr, hl'⟩ := expr_phrase hl hlegal hsees
    ⟨factorA.operand_stops (by simp [symOpen]), hb⟩
  obtain ⟨l'', hend⟩ := h _ _ _ l' hl hexpr
  exact absurd (hl'.unique (.ahead hend rfl)) (by simp)

/-! ### What is missing in a tree -/

/-- A node that is there, and whose left child is an identifier if it is a call. -/
def Node.Complete : Node → Prop
  | .null => False
  | .call l _ _ => ∃ s av, l = .ident s av
  | _ => True

/-- What the walk is to fill in has been filled in. -/
def Node.Resolved : Node → Prop
  | .ident _ av => av ≠ none
  | .call _ _ fn => fn ≠ none
  | _ => True

mutual
/-- Nothing in the operand has been cut short. -/
def Operand.Whole : Operand → Prop
  | .num _ => True
  | .ident _ _ _ => True
  | .call _ _ _ args => argsWhole args
  | .paren e => e.Whole
  | .unary _ e => e.Whole
  | .dangling _ => False
  | .ifThen _ _ => False
  | .ifElse c l r => c.Whole ∧ l.Whole ∧ r.Whole

def Phrase.Whole : Phrase → Prop
  | .mk x rest => x.Whole ∧ operandsWhole rest

def operandsWhole : List (BinOp × Operand) → Prop
  | [] => True
  | (_, y) :: rest => y.Whole ∧ operandsWhole rest

def argsWhole : List Phrase → Prop
  | [] => True
  | e :: es => e.Whole ∧ argsWhole es
end

/-- What holds of all binary nodes of the parser holds of a tree over nodes when it holds of
    the leaves. -/
theorem everywhere_toNode_iff {P : Node → Prop} (hP : ∀ (o : BinOp) l r, P (.binary o.rune l r))
    {t : OpTree BinOp Node} : (toNode t).Everywhere P ↔
      t.first.Everywhere P ∧ ∀ p ∈ t.rest, p.2.Everywhere P := by
  induction t with
  | leaf n => simp [toNode, first, OpTree.rest]
  | node o l r ihl ihr =>
    simp only [toNode, Node.Everywhere, hP, true_and, ihl, ihr, first, OpTree.rest,
      List.mem_append, List.mem_cons]
    constructor
    · rintro ⟨⟨hl, hls⟩, hr, hrs⟩
      refine ⟨hl, ?_⟩
      rintro p (hp | rfl | hp)
      · exact hls p hp
      · exact hr
      · exact hrs p hp
    · rintro ⟨hl, h⟩
      exact ⟨⟨hl, fun p hp => h p (.inl hp)⟩, h (o, r.first) (.inr (.inl rfl)),
        fun p hp => h p (.inr (.inr hp))⟩

mutual
theorem Operand.complete_iff : ∀ x : Operand, x.node.Everywhere Node.Complete ↔ x.Whole
  | .num _ => by simp [Operand.node, Node.Everywhere, Node.Complete, Operand.Whole]
  | .ident _ _ _ => by simp [Operand.node, Node.Everywhere, Node.Complete, Operand.Whole]
  | .call _ _ _ args => by
    simp [Operand.node, Node.Everywhere, Node.Complete, Operand.Whole, argsComplete_iff args]
  | .paren e => by
    simp [Operand.node, Node.Everywhere, Node.Complete, Operand.Whole, e.complete_iff]
  | .unary _ e => by
    simp [Operand.node, Node.Everywhere, Node.Complete, Operand.Whole, e.complete_iff]
  | .dangling _ => by simp [Operand.node, Node.Everywhere, Node.Complete, Operand.Whole]
  | .ifThen _ _ => by simp [Operand.node, Node.Everywhere, Node.Complete, Operand.Whole]
  | .ifElse c l r => by
    simp [Operand.node, Node.Everywhere, Node.Complete, Operand.Whole, c.complete_iff,
      l.complete_iff, r.complete_iff]

theorem Phrase.complete_iff : ∀ e : Phrase, e.node.Everywhere Node.Complete ↔ e.Whole
  | .mk x rest => by
    rw [Phrase.node, everywhere_toNode_iff fun _ _ _ => trivial, first_build, rest_build,
      Phrase.Whole, x.complete_iff, operandsComplete_iff rest]

theorem operandsComplete_iff : ∀ rest : List (BinOp × Operand),
    (∀ p ∈ operandNodes rest, p.2.Everywhere Node.Complete) ↔ operandsWhole rest
  | [] => by simp [operandNodes, operandsWhole]
  | (_, y) :: rest => by
    simp [operandNodes, operandsWhole, y.complete_iff, ← operandsComplete_iff rest]

theorem argsComplete_iff : ∀ args : List Phrase,
    Node.EverywhereArgs Node.Complete (phraseNodes args) ↔ argsWhole args
  | [] => by simp [phraseNodes, Node.EverywhereArgs, argsWhole]
  | e :: es => by simp [phraseNodes, Node.EverywhereArgs, argsWhole, e.complete_iff,
    argsComplete_iff es]
end

/-! ### The walks over a complete tree -/

theorem Node.Complete.present {n : Node} (h : n.Complete) : n.Present := by
  cases n with
  | null => exact h
  | call l args fn =>
    obtain ⟨s, av, rfl⟩ := h
    simp [Node.Present, Node.sval]
  | paren | floatlit | ident | binary | unary | ifElse => trivial

/-- No missing node has been followed. -/
def Safe {α : Type} (r : Except Stop α) : Prop := r ≠ .error (.undefined .nullDeref)

theorem Safe.bind {α β : Type} {r : Except Stop α} {f : α → Except Stop β} (hr : Safe r)
    (hf : ∀ a, Safe (f a)) : Safe (r >>= f) := by
  cases r with
  | error e => simpa [Safe, Bind.bind, Except.bind] using hr
  | ok a => exact hf a

theorem safe_ok {α : Type} (a : α) : Safe (.ok a : Except Stop α) := by simp [Safe]

section
variable {env : Env} {read : Path → ℚ} {dt time : ℚ}

mutual
theorem svisit_safe : ∀ {n : Node}, n.Everywhere (fun m => m.Complete ∧ m.Resolved) →
    Safe (svisit env read dt time n)
  | .null, h => absurd h.1 id
  | .paren l, h => svisit_safe (n := l) h.2
  | .floatlit _ v, _ => safe_ok v
  | .ident _ none, h => absurd rfl h.2
  | .ident _ (some p), _ => safe_ok _
  | .call _ args none, h => absurd rfl h.1.2
  | .call _ args (some fn), h => by
    refine (svisitArgs_safe h.2 0).bind fun vs => ?_
    obtain ⟨v, hv⟩ := callFn_ok env fn dt time vs
    simp only [hv]
    exact safe_ok v
  | .binary op l r, h =>
    (svisit_safe h.2.1).bind fun _ => (svisit_safe h.2.2).bind fun _ => safe_ok _
  | .unary op l, h => (svisit_safe h.2).bind fun _ => safe_ok _
  | .ifElse c l r, h => by
    refine (svisit_safe h.2.1).bind fun v => ?_
    split
    · exact svisit_safe h.2.2.1
    · exact svisit_safe h.2.2.2

theorem svisitArgs_safe : ∀ {args : List Node},
    Node.EverywhereArgs (fun m => m.Complete ∧ m.Resolved) args →
    ∀ i, Safe (svisitArgs env read dt time i args)
  | [], _, _ => safe_ok _
  | a :: args, h, i => by
    refine (svisit_safe h.1).bind fun v => ?_
    by_cases hi : i ≥ 6
    · simp [hi, Safe, Bind.bind, Except.bind]
    · simp only [if_neg hi]
      exact (svisitArgs_safe h.2 (i + 1)).bind fun _ => safe_ok _
end

end

theorem complete_link (find : CStr → Option Path) {n : Node} (h : n.Everywhere Node.Complete) :
    (n.link find).Everywhere Node.Complete := by
  refine Node.everywhere_link find (fun m hm => ?_) h
  cases m with
  | call l args fn => exact hm
  | null | paren | floatlit | ident | binary | unary | ifElse => exact hm

/-- A tree in which nothing is missing, and the walks over it. -/
structure Node.WellFormed (n : Node) : Prop where
  complete : n.Everywhere Node.Complete
  /-- `node_walk` does not follow a missing child. -/
  walk : ∀ scope : Scope, scope.Searchable → ∃ r, nodeWalk scope n = .ok r
  /-- Nor does `svisit`, on the tree that `node_walk` has filled in. -/
  value : ∀ (scope : Scope) (m : Node) (deps : List Path), nodeWalk scope n = .ok (m, deps) →
    m.Everywhere Node.Resolved → ∀ env read dt time, Safe (svisit env read dt time m)

theorem Node.wellFormed_iff {n : Node} : n.WellFormed ↔ n.Everywhere Node.Complete := by
  constructor
  · exact fun h => h.complete
  · intro h
    have hnull : n.isNull = false := by
      cases n with
      | null => exact absurd h id
      | paren | floatlit | ident | call | binary | unary | ifElse => rfl
    refine { complete := h, walk := fun scope hscope => ?_, value := ?_ }
    · exact ⟨_, nodeWalk_ok hscope hnull (h.imp fun _ => Node.Complete.present)⟩
    · intro scope m deps hwalk hres env read dt time
      obtain ⟨-, -, he⟩ := nodeWalk_spec hwalk
      obtain ⟨rfl, -⟩ := Prod.mk.injEq .. ▸ he
      exact svisit_safe ((complete_link _ h).and hres)

/-- An accepted equation of less than 2^31 bytes gives a well-formed tree exactly when no
    legal phrase at its start has been cut short where it stops. -/
theorem avarEqnParse_wellFormed_iff (eqn : CStr) :
    (∀ n, avarEqnParse eqn = .ok n → n = .null ∨ n.WellFormed) ↔
      ∀ (l : Lexer) (e : Phrase) (a : Option Symbol), lexerInit eqn = .ok l → e.Legal →
        Sees l e.symbols a → e.Stops a → e.Whole := by
  constructor
  · intro h l e a hl he hs ha
    have hparse := (avarEqnParse_ok_iff hl e.node).mpr (.inr ⟨e, a, he, hs, ha, rfl⟩)
    rcases h _ hparse with hnull | hwf
    · have := e.node_ne_null
      simp [hnull, Node.isNull] at this
    · exact e.complete_iff.mp (Node.wellFormed_iff.mp hwf)
  · intro h n hparse
    obtain ⟨l, hl⟩ : ∃ l, lexerInit eqn = .ok l := by
      cases hl : lexerInit eqn with
      | error e => simp [avarEqnParse, hl, Bind.bind, Except.bind] at hparse
      | ok l => exact ⟨l, rfl⟩
    rcases (avarEqnParse_ok_iff hl n).mp hparse with ⟨rfl, -⟩ | ⟨e, a, he, hs, ha, rfl⟩
    · exact .inl rfl
    · exact .inr (Node.wellFormed_iff.mpr (e.complete_iff.mpr (h l e a hl he hs ha)))

/-- `-` is accepted, and the operator has no operand. -/
theorem avarEqnParse_not_wellFormed :
    ¬ ∀ eqn n, avarEqnParse eqn = .ok n → n = .null ∨ n.WellFormed := by
  intro h
  have hparse : avarEqnParse (cstr "-") = .ok (.unary (rune '-') .null) := by decide +kernel
  rcases h _ _ hparse with hnull | hwf
  · cases hnull
  · exact hwf.complete.2

end Libsd

/-
  Libsd/PhraseComplete.lean
  =========================
  **The parser returns the tree of every legal phrase that stops.**

  `Parses fuel` says it of each parsing function when it runs with so much fuel; a
  token is worth ten units, which is more than the calls of one descent.
-/
import Libsd.Phrases

namespace Libsd

open Utf Precedence OpTree

theorem Operand.symbols_pos (x : Operand) : 0 < x.symbols.length := by
  cases x <;> simp [Operand.symbols]

theorem Operand.node_ne_null (x : Operand) : x.node.isNull = false := by
  cases x <;> rfl

theorem toNode_ne_null {t : OpTree BinOp Node} (h : t.first.isNull = false) :
    (toNode t).isNull = false := by
  cases t with
  | leaf n => exact h
  | node o l r => rfl

theorem build_ne_null (x : Operand) (qs : List (BinOp × Node)) :
    (toNode (build descent x.node qs)).isNull = false :=
  toNode_ne_null (by rw [first_build, x.node_ne_null])

theorem Phrase.node_ne_null : ∀ e : Phrase, e.node.isNull = false
  | .mk x rest => build_ne_null x (operandNodes rest)

/-- What the parsing functions do with so much fuel, on a lexer whose next symbols
    are known. -/
structure Parses (fuel : Nat) : Prop where
  fact : ∀ (x : Operand) (ss : List Symbol) (a : Option Symbol) (l : Lexer), x.Legal →
    x.Stops (nextOf ss a) → Sees l (x.symbols ++ ss) a → 10 * (x.symbols ++ ss).length + 1 ≤ fuel →
    ∃ l', Libsd.fact fuel l = .ok (true, x.node, l') ∧ Sees l' ss a
  expr : ∀ level < MAX_BINARY, ∀ (x : Operand) (rest : List (BinOp × Operand)) (ss : List Symbol)
    (a : Option Symbol) (l : Lexer), (Phrase.mk x rest).Legal →
    (Phrase.mk x rest).Stops (nextOf ss a) → Sees l (x.symbols ++ (operandSymbols rest ++ ss)) a →
    10 * (x.symbols ++ (operandSymbols rest ++ ss)).length + 9 ≤ fuel + level →
    ∃ l', Libsd.expr fuel level l =
        .ok (true, toNode (build descent x.node (operandNodes (within level rest))), l') ∧
      Sees l' (operandSymbols (beyond level rest) ++ ss) a
  loop : ∀ level < MAX_BINARY, ∀ (t : OpTree BinOp Node) (rest : List (BinOp × Operand))
    (ss : List Symbol) (a : Option Symbol) (l : Lexer), (∀ p ∈ t.rest, level ≤ p.1.level) →
    (∀ q ∈ rest.head?, q.1.level ≤ level) → TailLegal rest (nextOf ss a) →
    Sees l (operandSymbols rest ++ ss) a → 10 * (operandSymbols rest ++ ss).length + 1 ≤ fuel →
    ∃ l', exprLoop fuel level (toNode t) l = .ok (true,
        toNode ((operandNodes (within level rest)).foldl (ins descent) t), l') ∧
      Sees l' (operandSymbols (beyond level rest) ++ ss) a
  call : ∀ (fn : Node) (args : List Phrase) (ss : List Symbol) (a : Option Symbol) (l : Lexer),
    argsLegal args → Sees l (argSymbols args ++ ss) a →
      10 * (argSymbols args ++ ss).length + 11 ≤ fuel →
    ∃ l', Libsd.call fuel fn l = .ok (true, .call fn (phraseNodes args) none, l') ∧ Sees l' ss a
  callLoop : ∀ (fn : Node) (ns : List Node) (e : Phrase) (es : List Phrase) (ss : List Symbol)
    (a : Option Symbol) (l : Lexer), argsLegal (e :: es) →
    Sees l (e.symbols ++ (moreArgSymbols es ++ ss)) a →
    10 * (e.symbols ++ (moreArgSymbols es ++ ss)).length + 10 ≤ fuel →
    ∃ l', Libsd.callLoop fuel fn ns l =
      .ok (true, .call fn (ns ++ phraseNodes (e :: es)) none, l') ∧ Sees l' ss a

/-! ### Sequences -/

section
variable {fuel : Nat} (ih : Parses fuel)
include ih

/-- The operand that `expr` and its loop parse: one level down, or a factor. -/
theorem Parses.operand {level : Nat} (hlevel : level < MAX_BINARY) (x : Operand)
    (rest : List (BinOp × Operand)) (ss : List Symbol) (a : Option Symbol) (l : Lexer)
    (hlegal : (Phrase.mk x rest).Legal) (hstops : (Phrase.mk x rest).Stops (nextOf ss a))
    (hl : Sees l (x.symbols ++ (operandSymbols rest ++ ss)) a)
    (hfuel : 10 * (x.symbols ++ (operandSymbols rest ++ ss)).length + 8 ≤ fuel + level) :
    ∃ l', Libsd.operand (Libsd.fact fuel) (Libsd.expr fuel) level l =
        .ok (true, toNode (build descent x.node (operandNodes (within (level + 1) rest))), l') ∧
      Sees l' (operandSymbols (beyond (level + 1) rest) ++ ss) a := by
  rw [Libsd.operand]
  by_cases hmax : level + 1 = MAX_BINARY
  · have h8 : MAX_BINARY = 8 := rfl
    rw [if_pos hmax, hmax, within_max, beyond_max]
    exact ih.fact x _ a l hlegal.1 (hlegal.head_stops hstops) hl (by omega)
  · rw [if_neg hmax]
    exact ih.expr (level + 1) (by omega) x rest ss a l hlegal hstops hl (by omega)

/-- A whole phrase, up to what it stops at. -/
theorem Parses.phrase (e : Phrase) (ss : List Symbol) (a : Option Symbol) (l : Lexer)
    (hlegal : e.Legal) (hstops : e.Stops (nextOf ss a)) (hl : Sees l (e.symbols ++ ss) a)
    (hfuel : 10 * (e.symbols ++ ss).length + 9 ≤ fuel) :
    ∃ l', Libsd.expr fuel 0 l = .ok (true, e.node, l') ∧ Sees l' ss a := by
  obtain ⟨x, rest⟩ := e
  rw [Phrase.symbols, List.append_assoc] at hl hfuel
  obtain ⟨l', hexpr, hl'⟩ := ih.expr 0 (by decide) x rest ss a l hlegal hstops hl hfuel
  rw [within_zero] at hexpr
  rw [beyond_zero] at hl'
  exact ⟨l', hexpr, hl'⟩

theorem Parses.expr_succ : ∀ level < MAX_BINARY, ∀ (x : Operand) (rest : List (BinOp × Operand))
    (ss : List Symbol) (a : Option Symbol) (l : Lexer), (Phrase.mk x rest).Legal →
    (Phrase.mk x rest).Stops (nextOf ss a) → Sees l (x.symbols ++ (operandSymbols rest ++ ss)) a →
    10 * (x.symbols ++ (operandSymbols rest ++ ss)).length + 9 ≤ fuel + 1 + level →
    ∃ l', Libsd.expr (fuel + 1) level l =
        .ok (true, toNode (build descent x.node (operandNodes (within level rest))), l') ∧
      Sees l' (operandSymbols (beyond level rest) ++ ss) a := by
  intro level hlevel x rest ss a l hlegal hstops hl hfuel
  have hx := x.symbols_pos
  have hb := length_operandSymbols_beyond (level + 1) rest
  simp only [List.length_append] at hfuel
  obtain ⟨o, l1, hpeek, ho, -, hl1⟩ := hl.peek
  have hsome : o.isNone = false := by
    cases hsym : x.symbols with
    | nil => simp [hsym] at hx
    | cons s ss' =>
      obtain ⟨t, rfl, -⟩ := Option.map_eq_some_iff.mp (by simpa [hsym] using ho)
      rfl
  obtain ⟨l2, hop, hl2⟩ := ih.operand hlevel x rest ss a l1 hlegal hstops hl1
    (by simp only [List.length_append]; omega)
  obtain ⟨l3, hloop, hl3⟩ := ih.loop level hlevel
    (build descent x.node (operandNodes (within (level + 1) rest)))
      (beyond (level + 1) rest) ss a l2
    (by
      intro p hp
      rw [rest_build] at hp
      exact (Nat.le_succ _).trans (level_of_mem_within hp))
    head_beyond ((hlegal.tail hstops).beyond _) hl2 (by
      have h8 : MAX_BINARY = 8 := rfl
      simp only [List.length_append]; omega)
  refine ⟨l3, ?_, beyond_succ level rest ▸ hl3⟩
  have hbuild : (operandNodes (within level (beyond (level + 1) rest))).foldl (ins descent)
      (build descent x.node (operandNodes (within (level + 1) rest))) =
      build descent x.node (operandNodes (within level rest)) := by
    rw [within_succ level rest, build, build, operandNodes_eq_map, operandNodes_eq_map,
      operandNodes_eq_map, List.map_append, List.foldl_append]
  rw [hbuild] at hloop
  simp only [Libsd.expr, hpeek, bind, Except.bind, hsome, Bool.false_eq_true, if_false,
    hop, Bool.not_true, hloop]

theorem Parses.loop_succ : ∀ level < MAX_BINARY, ∀ (t : OpTree BinOp Node)
    (rest : List (BinOp × Operand)) (ss : List Symbol) (a : Option Symbol) (l : Lexer),
    (∀ p ∈ t.rest, level ≤ p.1.level) → (∀ q ∈ rest.head?, q.1.level ≤ level) →
    TailLegal rest (nextOf ss a) → Sees l (operandSymbols rest ++ ss) a →
    10 * (operandSymbols rest ++ ss).length + 1 ≤ fuel + 1 →
    ∃ l', exprLoop (fuel + 1) level (toNode t) l = .ok (true,
        toNode ((operandNodes (within level rest)).foldl (ins descent) t), l') ∧
      Sees l' (operandSymbols (beyond level rest) ++ ss) a := by
  intro level hlevel t rest ss a l ht hhead htail hl hfuel
  have hmiss : (∀ r ∈ groupRunes level, nextOf (operandSymbols rest ++ ss) a ≠ some (.op r)) →
      ∃ l', exprLoop (fuel + 1) level (toNode t) l = .ok (true, toNode t, l') ∧
        Sees l' (operandSymbols rest ++ ss) a := by
    intro h
    obtain ⟨l1, hany, hl1⟩ := consumeAnyLoop_miss hl h
    exact ⟨l1, by simp only [exprLoop, consumeAny, hany, bind, Except.bind, pure, Except.pure], hl1⟩
  cases rest with
  | nil => exact hmiss (htail level (Nat.zero_le _) hlevel)
  | cons q rest =>
    obtain ⟨o, y⟩ := q
    rcases (hhead _ rfl : o.level ≤ level).lt_or_eq with hlt | rfl
    · -- an operator of an earlier group is left to the caller
      rw [within_stop (not_le.mpr hlt), beyond_stop (not_le.mpr hlt)]
      refine hmiss fun r hr he => ?_
      obtain rfl : o.rune = r := by simpa [operandSymbols, BinOp.symbol] using he
      exact hlt.ne (group_unique _ o.level_lt _ hlevel _ o.mem_group hr)
    · simp only [operandSymbols, List.cons_append, List.append_assoc, List.length_cons,
        List.length_append] at hl hfuel
      obtain ⟨l1, hany, hl1⟩ := consumeAnyLoop_hit hl o.mem_group
      obtain ⟨l2, hop, hl2⟩ := ih.operand hlevel y rest ss a l1 htail.1 htail.2 hl1
        (by simp only [List.length_append]; omega)
      have hb := length_operandSymbols_beyond (o.level + 1) rest
      obtain ⟨l3, hloop, hl3⟩ := ih.loop o.level hlevel
        (.node o t (build descent y.node (operandNodes (within (o.level + 1) rest))))
        (beyond (o.level + 1) rest) ss a l2
        (by
          intro p hp
          simp only [OpTree.rest, rest_build, List.mem_append, List.mem_cons] at hp
          rcases hp with hp | rfl | hp
          · exact ht p hp
          · exact le_rfl
          · exact (Nat.le_succ _).trans (level_of_mem_within hp))
        head_beyond ((htail.1.tail htail.2).beyond _) hl2 (by simp only [List.length_append]; omega)
      have hrhs := build_ne_null y (operandNodes (within (o.level + 1) rest))
      refine ⟨l3, ?_, ?_⟩
      · rw [foldl_within_cons ht, ← hloop]
        simp only [exprLoop, consumeAny, hany, bind, Except.bind, hop, Bool.not_true, Bool.false_or,
          hrhs, Bool.false_eq_true, if_false]
        rfl
      · rwa [beyond_cons le_rfl, beyond_succ]

/-! ### Calls -/

theorem Parses.callLoop_succ : ∀ (fn : Node) (ns : List Node) (e : Phrase) (es : List Phrase)
    (ss : List Symbol) (a : Option Symbol) (l : Lexer), argsLegal (e :: es) →
    Sees l (e.symbols ++ (moreArgSymbols es ++ ss)) a →
    10 * (e.symbols ++ (moreArgSymbols es ++ ss)).length + 10 ≤ fuel + 1 →
    ∃ l', Libsd.callLoop (fuel + 1) fn ns l =
      .ok (true, .call fn (ns ++ phraseNodes (e :: es)) none, l') ∧ Sees l' ss a := by
  intro fn ns e es ss a l hlegal hl hfuel
  have hnext : nextOf (moreArgSymbols es ++ ss) a = nextOf (moreArgSymbols es) none := by
    cases es <;> rfl
  obtain ⟨l1, hexpr, hl1⟩ := ih.phrase e _ a l hlegal.1 (hnext ▸ hlegal.2.1) hl (by omega)
  cases es with
  | nil =>
    have hne : nextOf (moreArgSymbols [] ++ ss) a ≠ some (.op (rune ',')) := by
      simp only [moreArgSymbols, List.cons_append, nextOf_cons]
      decide
    obtain ⟨l2, hcomma, hl2⟩ := consumeTok_miss hl1 hne
    obtain ⟨l3, hclose, hl3⟩ := consumeTok_hit hl2
    refine ⟨l3, ?_, hl3⟩
    simp only [Libsd.callLoop, hexpr, bind, Except.bind, Bool.not_true,
      Bool.false_eq_true, if_false,
      hcomma, hclose, if_true, pure, Except.pure, phraseNodes]
  | cons e' es =>
    simp only [moreArgSymbols, List.cons_append, List.append_assoc] at hl1
    simp only [moreArgSymbols, List.length_append, List.length_cons] at hfuel
    obtain ⟨l2, hcomma, hl2⟩ := consumeTok_hit hl1
    obtain ⟨l3, hloop, hl3⟩ := ih.callLoop fn (ns ++ [e.node]) e' es ss a l2 hlegal.2.2 hl2
      (by simp only [List.length_append]; omega)
    refine ⟨l3, ?_, hl3⟩
    simp only [Libsd.callLoop, hexpr, bind, Except.bind, Bool.not_true,
      Bool.false_eq_true, if_false,
      hcomma, if_true, hloop, phraseNodes, List.append_assoc, List.singleton_append]

omit ih in
/-- No operand starts with the bracket that closes a call. -/
theorem Phrase.not_close (e : Phrase) {ss : List Symbol} {a : Option Symbol} :
    nextOf (e.symbols ++ ss) a ≠ some (.op (rune ')')) := by
  have hunary : ∀ r ∈ (runes UNARY).map (·.1), r ≠ rune ')' := by decide +kernel
  obtain ⟨x, rest⟩ := e
  cases x with
  | unary u e => simpa [Phrase.symbols, Operand.symbols, UnOp.symbol] using hunary _ u.mem_unary
  | dangling u => simpa [Phrase.symbols, Operand.symbols, UnOp.symbol] using hunary _ u.mem_unary
  | num | ident | call | paren | ifThen | ifElse =>
    simp only [Phrase.symbols, Operand.symbols, List.cons_append, nextOf_cons, ne_eq,
      Option.some.injEq, reduceCtorEq, not_false_eq_true, symOpen, symIf]
    try decide

theorem Parses.call_succ : ∀ (fn : Node) (args : List Phrase) (ss : List Symbol)
    (a : Option Symbol) (l : Lexer), argsLegal args → Sees l (argSymbols args ++ ss) a →
    10 * (argSymbols args ++ ss).length + 11 ≤ fuel + 1 →
    ∃ l', Libsd.call (fuel + 1) fn l = .ok (true, .call fn (phraseNodes args) none, l') ∧
      Sees l' ss a := by
  intro fn args ss a l hlegal hl hfuel
  cases args with
  | nil =>
    obtain ⟨l1, hclose, hl1⟩ := consumeTok_hit hl
    refine ⟨l1, ?_, hl1⟩
    simp only [Libsd.call, hclose, bind, Except.bind, if_true, pure, Except.pure, phraseNodes]
  | cons e es =>
    simp only [argSymbols, List.append_assoc] at hl hfuel
    obtain ⟨l1, hclose, hl1⟩ := consumeTok_miss hl e.not_close
    obtain ⟨l2, hloop, hl2⟩ := ih.callLoop fn [] e es ss a l1 hlegal hl1 (by omega)
    refine ⟨l2, ?_, hl2⟩
    simp only [Libsd.call, hclose, bind, Except.bind, Bool.false_eq_true, if_false, hloop,
      List.nil_append]

/-! ### Factors -/

omit ih in
/-- No branch of `fact` before the one for the next symbol takes it: it is neither a
    bracket nor a unary operator. -/
theorem fact_skip {l : Lexer} {ss : List Symbol} {a : Option Symbol} (h : Sees l ss a)
    (hop : ∀ r, nextOf ss a ≠ some (.op r)) :
    ∃ l1 l2, consumeTok l (rune '(') = .ok (false, l1) ∧
      consumeAnyLoop (runes UNARY) l1 = .ok (none, l2) ∧ Sees l2 ss a := by
  obtain ⟨l1, hopen, hl1⟩ := consumeTok_miss h (hop _)
  obtain ⟨l2, hany, hl2⟩ := consumeAnyLoop_miss hl1 fun r _ => hop r
  exact ⟨l1, l2, hopen, hany, hl2⟩

theorem Parses.fact_paren (e : Phrase) (ss : List Symbol) (a : Option Symbol) (l : Lexer)
    (hlegal : (Operand.paren e).Legal) (hl : Sees l ((Operand.paren e).symbols ++ ss) a)
    (hfuel : 10 * ((Operand.paren e).symbols ++ ss).length + 1 ≤ fuel + 1) :
    ∃ l', Libsd.fact (fuel + 1) l = .ok (true, .paren e.node, l') ∧ Sees l' ss a := by
  simp only [Operand.symbols, symOpen, List.cons_append, List.append_assoc, List.nil_append,
    List.length_cons] at hl hfuel
  obtain ⟨l1, hopen, hl1⟩ := consumeTok_hit hl
  obtain ⟨l2, hexpr, hl2⟩ := ih.phrase e (symClose :: ss) a l1 hlegal.1 hlegal.2 hl1
    (by simp only [symClose, List.length_append, List.length_cons] at hfuel ⊢; omega)
  obtain ⟨l3, hclose, hl3⟩ := consumeTok_hit hl2
  refine ⟨l3, ?_, hl3⟩
  simp only [Libsd.fact, hopen, bind, Except.bind, if_true, hexpr, Bool.not_true,
    Bool.false_eq_true, if_false, hclose]
  rfl

omit ih in
/-- A unary operator takes what `expr` returns behind it. -/
theorem fact_unary {u : UnOp} {l : Lexer} {ss us : List Symbol} {a : Option Symbol} {n : Node}
    (hl : Sees l (u.symbol :: ss) a)
    (hexpr : ∀ l1, Sees l1 ss a → ∃ l2, Libsd.expr fuel 0 l1 = .ok (true, n, l2) ∧ Sees l2 us a) :
    ∃ l', Libsd.fact (fuel + 1) l = .ok (true, .unary u.rune n, l') ∧ Sees l' us a := by
  have hne : nextOf (u.symbol :: ss) a ≠ some (.op (rune '(')) := by
    simpa [UnOp.symbol] using UNARY_not_open _ u.mem_unary
  obtain ⟨l1, hopen, hl1⟩ := consumeTok_miss hl hne
  obtain ⟨l2, hany, hl2⟩ := consumeAnyLoop_hit hl1 u.mem_unary
  obtain ⟨l3, he, hl3⟩ := hexpr l2 hl2
  refine ⟨l3, ?_, hl3⟩
  simp only [Libsd.fact, hopen, bind, Except.bind, Bool.false_eq_true, if_false, consumeAny, hany,
    he, Bool.not_true]
  rfl

omit ih in
/-- At the end of the equation `expr` succeeds with the NULL it was called with. -/
theorem expr_eof (fuel level : Nat) {l : Lexer} (hl : Sees l [] none) (hfuel : 0 < fuel) :
    ∃ l', Libsd.expr fuel level l = .ok (true, .null, l') ∧ Sees l' [] none := by
  obtain ⟨o, l1, hpeek, ho, -, hl1⟩ := hl.peek
  obtain rfl : o = none := by simpa using ho
  obtain ⟨fuel, rfl⟩ := Nat.exists_eq_add_one.mpr hfuel
  refine ⟨l1, ?_, hl1⟩
  simp only [Libsd.expr, hpeek, bind, Except.bind, Option.isNone_none, if_true]
  rfl

omit ih in
/-- `fact` past its first three branches: the next symbol is a word. -/
theorem fact_word {l : Lexer} {w : CStr} {ss : List Symbol} {a : Option Symbol}
    (h : Sees l (.word w :: ss) a) :
    ∃ l1 l2 l3, consumeTok l (rune '(') = .ok (false, l1) ∧
      consumeAnyLoop (runes UNARY) l1 = .ok (none, l2) ∧ num l2 = .ok (false, .null, l3) ∧
      Sees l3 (.word w :: ss) a := by
  obtain ⟨l1, l2, hopen, hany, hl2⟩ := fact_skip h (by simp)
  obtain ⟨l3, hnum, hl3⟩ := num_miss hl2 (by simp)
  exact ⟨l1, l2, l3, hopen, hany, hnum, hl3⟩

theorem Parses.fact_ifThen (c t : Phrase) (ss : List Symbol) (a : Option Symbol) (l : Lexer)
    (hlegal : (Operand.ifThen c t).Legal) (hstops : (Operand.ifThen c t).Stops (nextOf ss a))
    (hl : Sees l ((Operand.ifThen c t).symbols ++ ss) a)
    (hfuel : 10 * ((Operand.ifThen c t).symbols ++ ss).length + 1 ≤ fuel + 1) :
    ∃ l', Libsd.fact (fuel + 1) l = .ok (true, .ifElse c.node t.node .null, l') ∧
      Sees l' ss a := by
  simp only [Operand.symbols, symIf, List.cons_append, List.append_assoc, List.length_cons,
    List.length_append] at hl hfuel
  obtain ⟨l1, l2, l3, hopen, hany, hnum, hl3⟩ := fact_word hl
  obtain ⟨l4, hif, hl4⟩ := consumeReserved_hit hl3
  obtain ⟨l5, hcond, hl5⟩ := ih.phrase c (symThen :: (t.symbols ++ ss)) a l4 hlegal.1 hlegal.2.1 hl4
    (by simp only [List.length_append, List.length_cons]; omega)
  obtain ⟨l6, hthen, hl6⟩ := consumeReserved_hit hl5
  obtain ⟨l7, hexpr, hl7⟩ := ih.phrase t ss a l6 hlegal.2.2 hstops.1 hl6
    (by simp only [List.length_append]; omega)
  obtain ⟨l8, helse, hl8⟩ := consumeReserved_miss hl7 hstops.2
  refine ⟨l8, ?_, hl8⟩
  simp only [Libsd.fact, hopen, bind, Except.bind, Bool.false_eq_true, if_false, consumeAny, hany,
    hnum, hif, if_true, hcond, Bool.not_true, hthen, hexpr, t.node_ne_null, Bool.or_self, helse,
    Bool.not_false]
  rfl

theorem Parses.fact_ifElse (c t r : Phrase) (ss : List Symbol) (a : Option Symbol) (l : Lexer)
    (hlegal : (Operand.ifElse c t r).Legal) (hstops : (Operand.ifElse c t r).Stops (nextOf ss a))
    (hl : Sees l ((Operand.ifElse c t r).symbols ++ ss) a)
    (hfuel : 10 * ((Operand.ifElse c t r).symbols ++ ss).length + 1 ≤ fuel + 1) :
    ∃ l', Libsd.fact (fuel + 1) l = .ok (true, .ifElse c.node t.node r.node, l') ∧
      Sees l' ss a := by
  simp only [Operand.symbols, symIf, List.cons_append, List.append_assoc, List.length_cons,
    List.length_append] at hl hfuel
  obtain ⟨hcl, hcs, htl, hts, hrl⟩ := hlegal
  obtain ⟨l1, l2, l3, hopen, hany, hnum, hl3⟩ := fact_word hl
  obtain ⟨l4, hif, hl4⟩ := consumeReserved_hit hl3
  obtain ⟨l5, hcond, hl5⟩ := ih.phrase c (symThen :: (t.symbols ++ symElse :: (r.symbols ++ ss))) a
    l4 hcl hcs hl4 (by simp only [List.length_append, List.length_cons]; omega)
  obtain ⟨l6, hthen, hl6⟩ := consumeReserved_hit hl5
  obtain ⟨l7, hexpr, hl7⟩ := ih.phrase t (symElse :: (r.symbols ++ ss)) a l6 htl hts hl6
    (by simp only [List.length_append, List.length_cons]; omega)
  obtain ⟨l8, helse, hl8⟩ := consumeReserved_hit hl7
  obtain ⟨l9, hright, hl9⟩ := ih.phrase r ss a l8 hrl hstops hl8
    (by simp only [List.length_append]; omega)
  refine ⟨l9, ?_, hl9⟩
  simp only [Libsd.fact, hopen, bind, Except.bind, Bool.false_eq_true, if_false, consumeAny, hany,
    hnum, hif, if_true, hcond, Bool.not_true, hthen, hexpr, t.node_ne_null, Bool.or_self, helse,
    hright, r.node_ne_null]
  rfl

omit ih in
/-- `fact` up to the identifier. -/
theorem fact_ident (fuel : Nat) {l : Lexer} {text name : CStr} {ss : List Symbol}
    {a : Option Symbol}
    (h : Sees l (.ident text :: ss) a) (hname : canonicalize text = some name) :
    ∃ l', Libsd.fact (fuel + 1) l = (do
        let (ok, p) ← consumeTok l' (rune '(')
        if ok then Libsd.call fuel (.ident name none) p else return (true, .ident name none, p)) ∧
      Sees l' ss a := by
  obtain ⟨l1, l2, hopen, hany, hl2⟩ := fact_skip h (by simp)
  obtain ⟨l3, hnum, hl3⟩ := num_miss hl2 (by simp)
  obtain ⟨l4, hif, hl4⟩ := consumeReserved_miss (s := cstr "if") hl3 (by simp)
  obtain ⟨l5, hident, hl5⟩ := ident_hit hl4 hname
  refine ⟨l5, ?_, hl5⟩
  simp only [Libsd.fact, hopen, bind, Except.bind, Bool.false_eq_true, if_false, consumeAny, hany,
    hnum, hif, hident, if_true]

theorem Parses.fact_succ : ∀ (x : Operand) (ss : List Symbol) (a : Option Symbol) (l : Lexer),
    x.Legal → x.Stops (nextOf ss a) → Sees l (x.symbols ++ ss) a →
    10 * (x.symbols ++ ss).length + 1 ≤ fuel + 1 →
    ∃ l', Libsd.fact (fuel + 1) l = .ok (true, x.node, l') ∧ Sees l' ss a := by
  intro x ss a l hlegal hstops hl hfuel
  cases x with
  | num text =>
    obtain ⟨l1, l2, hopen, hany, hl2⟩ := fact_skip hl (by simp [Operand.symbols])
    obtain ⟨l3, hnum, hl3⟩ := num_hit hl2
    refine ⟨l3, ?_, hl3⟩
    simp only [Libsd.fact, hopen, bind, Except.bind, Bool.false_eq_true, if_false, consumeAny, hany,
      hnum, if_true]
    rfl
  | ident text name hname =>
    obtain ⟨l1, hfact, hl1⟩ := fact_ident fuel hl hname
    obtain ⟨l2, hopen, hl2⟩ := consumeTok_miss hl1 hstops
    refine ⟨l2, ?_, hl2⟩
    rw [hfact, hopen]
    rfl
  | call text name hname args =>
    simp only [Operand.symbols, symOpen, List.cons_append, List.length_cons] at hl hfuel
    obtain ⟨l1, hfact, hl1⟩ := fact_ident fuel hl hname
    obtain ⟨l2, hopen, hl2⟩ := consumeTok_hit hl1
    obtain ⟨l3, hcall, hl3⟩ := ih.call (.ident name none) args ss a l2 hlegal hl2 (by omega)
    refine ⟨l3, ?_, hl3⟩
    rw [hfact, hopen]
    exact hcall
  | paren e => exact ih.fact_paren e ss a l hlegal hl hfuel
  | unary u e =>
    simp only [Operand.symbols, List.cons_append, List.length_cons] at hl hfuel
    exact fact_unary hl fun l1 hl1 => ih.phrase e ss a l1 hlegal hstops hl1 (by omega)
  | dangling u =>
    obtain ⟨rfl, rfl⟩ : ss = [] ∧ a = none := by
      cases ss with
      | nil => exact ⟨rfl, hstops⟩
      | cons s ss => exact absurd hstops (by simp [Operand.Stops])
    simp only [Operand.symbols, List.cons_append, List.length_cons] at hl hfuel
    exact fact_unary hl fun l1 hl1 => expr_eof fuel 0 hl1 (by omega)
  | ifThen c t => exact ih.fact_ifThen c t ss a l hlegal hstops hl hfuel
  | ifElse c t r => exact ih.fact_ifElse c t r ss a l hlegal hstops hl hfuel

end

theorem parses : ∀ fuel, Parses fuel
  | 0 =>
    { fact := fun _ _ _ _ _ _ _ h => by omega
      expr := fun level hlevel x rest ss a l _ _ _ h => by
        have h8 : MAX_BINARY = 8 := rfl
        have hx := x.symbols_pos
        simp only [List.length_append] at h
        omega
      loop := fun _ _ _ _ _ _ _ _ _ _ _ h => by omega
      call := fun _ _ _ _ _ _ _ h => by omega
      callLoop := fun _ _ _ _ _ _ _ _ _ h => by omega }
  | fuel + 1 =>
    have ih := parses fuel
    { fact := ih.fact_succ
      expr := ih.expr_succ
      loop := ih.loop_succ
      call := ih.call_succ
      callLoop := ih.callLoop_succ }

/-- On a legal phrase that stops at what follows it, the parser returns its tree and
    leaves the rest. -/
theorem expr_phrase {eqn : CStr} {l : Lexer} {e : Phrase} {a : Option Symbol}
    (hl : lexerInit eqn = .ok l) (hlegal : e.Legal) (hs : Sees l e.symbols a) (ha : e.Stops a) :
    ∃ l', expr (parseFuel l) 0 l = .ok (true, e.node, l') ∧ Sees l' [] a := by
  obtain ⟨htp, -, hat⟩ := lexerInit_spec hl
  have hlen := hs.length_le htp hat
  refine (parses (parseFuel l)).phrase e [] a l hlegal ha (by simpa using hs) ?_
  simp only [List.append_nil, parseFuel]
  omega

end Libsd

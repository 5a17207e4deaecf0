/-
  Libsd/TokenMemory.lean
  ======================
  **Tokens in memory: `lexer_peek`, `lexer_nexttok` and the lexer's slot.**

  A short text stands in the token's own `buf`, a long one in a block of the heap.
  `lexer_peek` fills the lexer's slot and copies it out, with a block of its own for a
  long text; `lexer_nexttok` moves the slot out.  So no block ever has two tokens that
  point to it, and for every sequence of calls the answers are those of the lexer that is
  never peeked at (`run_expected`).
-/
import Libsd.Lib.Outcome
import Libsd.Lib.Owners
import Libsd.LexerTokens

namespace Libsd.TokenMemory

open Outcome Owners

/-! ### The functions -/

def TOKBUF_LEN : Nat := 8

/-- What `start` points to: NULL, the token's own `buf`, or a block of the heap. -/
inductive Start where
  | null
  | buf
  | block (b : Nat)
deriving DecidableEq, Repr

/-- `Token_s`; `type` is 0 in a token that has not been filled. -/
structure Tok where
  buf : CStr
  start : Start
  len : Nat
  type : Option TokenType
deriving DecidableEq, Repr

def tokenInit : Tok := { buf := [], start := .null, len := 0, type := none }

/-- The lexer and the tokens of its callers; the token `none` is `l->tpeek`.  In `core`
    nothing is buffered. -/
structure Mem (ι : Type) where
  core : Lexer
  havetpeek : Bool
  toks : Option ι → Tok
  heap : Heap CStr

/-- Why a call does not return: the lexer does not, or a block is freed or read that is not
    allocated. -/
inductive Crash where
  | stop (why : Stop)
  | badFree
  | badRead
deriving DecidableEq, Repr

variable {ι : Type} [DecidableEq ι]

def setTok (m : Mem ι) (x : Option ι) (t : Tok) : Mem ι :=
  { m with toks := Function.update m.toks x t }

def tokenFree (m : Mem ι) (x : Option ι) : Except Crash (Mem ι) :=
  match (m.toks x).start with
  | .buf => .ok m
  | .null => .ok m
  | .block b =>
    match m.heap.free b with
    | some heap => .ok (setTok { m with heap := heap } x { m.toks x with start := .null })
    | none => .error .badFree

/-- The end of `lex_number` and `lex_ident`, and of the operators, whose texts are short. -/
def fill (m : Mem ι) (x : Option ι) (t : Token) : Mem ι :=
  if t.start.length < TOKBUF_LEN then
    setTok m x { buf := t.start, start := .buf, len := t.start.length, type := some t.type }
  else
    setTok { m with heap := m.heap.alloc t.start } x
      { buf := (m.toks x).buf, start := .block m.heap.next, len := t.start.length,
        type := some t.type }

/-- `lexer_nexttok` into the token `x` when nothing is buffered: whether it succeeds. -/
def nexttokInto (m : Mem ι) (x : Option ι) : Except Crash (Bool × Mem ι) :=
  match Libsd.lexerNexttok m.core with
  | .error why => .error (.stop why)
  | .ok (none, l) => .ok (false, { m with core := l })
  | .ok (some t, l) => do
    let m ← tokenFree { m with core := l } x
    return (true, fill m x t)

def lexerNexttok (m : Mem ι) (i : ι) : Except Crash (Bool × Mem ι) :=
  if m.havetpeek then do
    let m ← tokenFree m (some i)
    -- `memcpy` with `start` pointing to the token's own `buf` again if it pointed to the slot's
    let m := setTok m (some i) (m.toks none)
    let m := setTok m none { m.toks none with start := .null }
    return (true, { m with havetpeek := false })
  else nexttokInto m (some i)

def textOf (m : Mem ι) (x : Option ι) : Except Crash CStr :=
  match (m.toks x).start with
  | .buf => .ok (m.toks x).buf
  | .null => .error .badRead
  | .block b =>
    match m.heap.cells b with
    | some text => .ok text
    | none => .error .badRead

/-- The slot is filled if it is empty. -/
def fillSlot (m : Mem ι) : Except Crash (Mem ι) :=
  if m.havetpeek then .ok m
  else do
    let (ok, m) ← nexttokInto m none
    return { m with havetpeek := ok }

def lexerPeek (m : Mem ι) (i : ι) : Except Crash (Bool × Mem ι) := do
  let m ← fillSlot m
  if m.havetpeek then
    if (m.toks none).start = .buf then return (true, setTok m (some i) (m.toks none))
    else do
      -- `strdup`
      let text ← textOf m none
      return (true, setTok { m with heap := m.heap.alloc text } (some i)
        { m.toks none with start := .block m.heap.next })
  else return (false, m)

def lexerFree (m : Mem ι) : Except Crash (Mem ι) :=
  if m.havetpeek then tokenFree m none else .ok m

/-! ### Sequences of calls -/

/-- A call, with the token it is given. -/
inductive Call (ι : Type) where
  | peek (i : ι)
  | nexttok (i : ι)
  | free (i : ι)

/-- What the caller finds in the token, or `none` for `SD_ERR_EOF`. -/
def found (i : ι) (r : Bool × Mem ι) : Except Crash (List (Option Token) × Mem ι) :=
  if r.1 then do
    let text ← textOf r.2 (some i)
    match (r.2.toks (some i)).type with
    | some type => return ([some { start := text, type := type }], r.2)
    | none => .error .badRead
  else return ([none], r.2)

def Call.apply (m : Mem ι) : Call ι → Except Crash (List (Option Token) × Mem ι)
  | .peek i => lexerPeek m i >>= found i
  | .nexttok i => lexerNexttok m i >>= found i
  | .free i => (tokenFree m (some i)).map fun m => ([], m)

/-- The answers to a number of calls, and the memory they leave. -/
def run : List (Call ι) → Mem ι → Except Crash (List (Option Token) × Mem ι)
  | [], m => .ok ([], m)
  | c :: cs, m => do
    let (os, m) ← c.apply m
    let (us, m) ← run cs m
    return (os ++ us, m)

/-- After `lexer_init`, with tokens that hold nothing. -/
def fresh (l : Lexer) : Mem ι :=
  { core := l, havetpeek := false, toks := fun _ => tokenInit, heap := .empty }

/-! ### What the calls are to answer -/

/-- The answer to the call `k` of `lexer_nexttok`, counted from 0, when nothing is ever
    peeked at. -/
def nth : Lexer → Nat → Except Stop (Option Token)
  | l, 0 => (Libsd.lexerNexttok l).map Prod.fst
  | l, k + 1 => do
    let (_, l) ← Libsd.lexerNexttok l
    nth l k

/-- The answers after `k` calls of `lexer_nexttok`: a call of `lexer_peek` gets the answer
    that the next call of `lexer_nexttok` will get. -/
def expected (l : Lexer) : Nat → List (Call ι) → Except Stop (List (Option Token))
  | _, [] => .ok []
  | k, .peek _ :: cs => do
    let o ← nth l k
    let os ← expected l k cs
    return o :: os
  | k, .nexttok _ :: cs => do
    let o ← nth l k
    let os ← expected l (k + 1) cs
    return o :: os
  | k, .free _ :: cs => expected l k cs

/-- The block a token points to. -/
def Start.held : Start → Option Nat
  | .block b => some b
  | _ => none

def held (m : Mem ι) (x : Option ι) : Option Nat := (m.toks x).start.held

/-- The calls answer as expected; then no two tokens point to one block, all blocks that are
    pointed to are allocated, and the lexer can be freed. -/
structure AnswersAs (e : Except Stop (List (Option Token)))
    (r : Except Crash (List (Option Token) × Mem ι)) : Prop where
  ok : ∀ os, e = .ok os →
    ∃ m, r = .ok (os, m) ∧ Sound (held m) m.heap ∧ ∃ m', lexerFree m = .ok m'
  error : ∀ why, e = .error why → r = .error (.stop why)

/-! ### Without memory: peeking and consuming -/

section
variable {l : Lexer}

/-- The answers of the lexer that keeps the token it has peeked at. -/
def answers : List (Call ι) → Lexer → Except Stop (List (Option Token))
  | [], _ => .ok []
  | .peek _ :: cs, l => do
    let (o, l) ← Libsd.lexerPeek l
    let os ← answers cs l
    return o :: os
  | .nexttok _ :: cs, l => do
    let (o, l) ← Libsd.lexerNexttok l
    let os ← answers cs l
    return o :: os
  | .free _ :: cs, l => answers cs l

omit [DecidableEq ι] in
/-- Answers are counted from the lexer that is left. -/
theorem expected_succ {l l' : Lexer} {o : Option Token} (h : Libsd.lexerNexttok l = .ok (o, l'))
    (k : Nat) (cs : List (Call ι)) : expected l (k + 1) cs = expected l' k cs := by
  have hnth : ∀ k, nth l (k + 1) = nth l' k := fun k => by rw [nth, bind_of_ok h]
  induction cs generalizing k with
  | nil => rfl
  | cons c cs ih =>
    cases c with
    | peek i => rw [expected, expected, hnth, ih]
    | nexttok i => rw [expected, expected, hnth, ih]
    | free i => rw [expected, expected, ih]

/-- `Peeked c l`: the lexer `l` is `c`, or what peeking makes of it. -/
def Peeked (c l : Lexer) : Prop := l = c ∨ ∃ o, Libsd.lexerPeek c = .ok (o, l)

/-- Peeking asks for the next token, and keeps it. -/
theorem lexerPeek_eq (h : l.tpeek = none) : Libsd.lexerPeek l =
    (Libsd.lexerNexttok l).map fun r => (r.1, { r.2 with tpeek := r.1 }) := by
  simp only [Libsd.lexerPeek, h, bind, Except.bind]
  cases Libsd.lexerNexttok l <;> rfl

theorem set_tpeek_none {l : Lexer} (h : l.tpeek = none) : { l with tpeek := none } = l := by
  rw [← h]

/-- A lexer that has been peeked at answers like the one it was. -/
theorem Peeked.answer {c l : Lexer} (hc : c.tpeek = none) (h : Peeked c l) :
    match Libsd.lexerNexttok c with
    | .ok (o, c') => (∃ l', Libsd.lexerPeek l = .ok (o, l') ∧ Peeked c l') ∧
        ∃ l', Libsd.lexerNexttok l = .ok (o, l') ∧ Peeked c' l'
    | .error why => Libsd.lexerPeek l = .error why ∧ Libsd.lexerNexttok l = .error why := by
  have hpeek := lexerPeek_eq hc
  cases hnext : Libsd.lexerNexttok c with
  | error why =>
    rw [hnext] at hpeek
    rcases h with rfl | ⟨o, ho⟩
    · exact ⟨hpeek, hnext⟩
    · cases hpeek.symm.trans ho
  | ok r =>
    obtain ⟨o, c'⟩ := r
    rw [hnext] at hpeek
    rcases h with rfl | ⟨o', ho⟩
    · exact ⟨⟨_, hpeek, .inr ⟨o, hpeek⟩⟩, c', hnext, .inl rfl⟩
    · obtain ⟨rfl, rfl⟩ : o = o' ∧ { c' with tpeek := o } = l := by
        cases hpeek.symm.trans ho
        exact ⟨rfl, rfl⟩
      have hc' := lexerNexttok_tpeek hnext
      cases o with
      | some t =>
        refine ⟨⟨_, by simp only [Libsd.lexerPeek], .inr ⟨_, hpeek⟩⟩, c', ?_, .inl rfl⟩
        have hagain : Libsd.lexerNexttok { c' with tpeek := some t } =
            .ok (some t, { c' with tpeek := none }) := lexerNexttok_of_tpeek rfl
        rwa [set_tpeek_none hc'] at hagain
      | none =>
        -- the end has been found, and is found again
        rw [set_tpeek_none hc'] at ho ⊢
        have hzero : c'.peek = 0 := by
          obtain ⟨n, ⟨-, -, hz⟩ | ⟨hno, -⟩⟩ := lexerNexttok_cases hc hnext
          · exact hz
          · exact absurd rfl hno
        have hagain := lexerNexttok_of_peek_zero hc' hzero
        have hpeekAgain : Libsd.lexerPeek c' = .ok (none, { c' with tpeek := none }) := by
          rw [lexerPeek_eq hc', hagain]
          rfl
        rw [set_tpeek_none hc'] at hpeekAgain
        exact ⟨⟨c', hpeekAgain, .inr ⟨_, ho⟩⟩, c', hagain, .inl rfl⟩

omit [DecidableEq ι] in
/-- Peeking changes no answer. -/
theorem answers_eq_expected (cs : List (Call ι)) {c l : Lexer} (hc : c.tpeek = none)
    (h : Peeked c l) : answers cs l = expected c 0 cs := by
  induction cs generalizing c l with
  | nil => rfl
  | cons call cs ih =>
    have hstep := h.answer hc
    cases call with
    | free i => exact ih hc h
    | peek i =>
      rw [answers, expected, nth]
      cases hnext : Libsd.lexerNexttok c with
      | error why =>
        rw [hnext] at hstep
        rw [hstep.1]
        rfl
      | ok r =>
        obtain ⟨o, c'⟩ := r
        rw [hnext] at hstep
        obtain ⟨⟨l', hl', hpeeked⟩, -⟩ := hstep
        have hrest := ih hc hpeeked
        rw [bind_of_ok hl']
        exact congrArg (· >>= fun os => pure (o :: os)) hrest
    | nexttok i =>
      rw [answers, expected, nth]
      cases hnext : Libsd.lexerNexttok c with
      | error why =>
        rw [hnext] at hstep
        rw [hstep.2]
        rfl
      | ok r =>
        obtain ⟨o, c'⟩ := r
        rw [hnext] at hstep
        obtain ⟨-, l', hl', hpeeked⟩ := hstep
        have hrest := ih (lexerNexttok_tpeek hnext) hpeeked
        rw [← expected_succ hnext] at hrest
        rw [bind_of_ok hl']
        exact congrArg (· >>= fun os => pure (o :: os)) hrest

end

/-! ### Tokens and their blocks -/

section
variable {m m' : Mem ι} {x y : Option ι} {t : Token}

/-- The token holds this text and type. -/
structure Shows (m : Mem ι) (x : Option ι) (t : Token) : Prop where
  text : textOf m x = .ok t.start
  type : (m.toks x).type = some t.type

/-- All tokens but `x` stay as they are, with their blocks. -/
structure Keeps (m m' : Mem ι) (x : Option ι) : Prop where
  toks : ∀ y, y ≠ x → m'.toks y = m.toks y
  cells : ∀ y b, y ≠ x → held m y = some b → m'.heap.cells b = m.heap.cells b

omit [DecidableEq ι] in
theorem textOf_congr (htok : m'.toks y = m.toks y)
    (hcells : ∀ b, held m y = some b → m'.heap.cells b = m.heap.cells b) :
    textOf m' y = textOf m y := by
  rw [textOf, textOf, htok]
  cases hstart : (m.toks y).start with
  | null => rfl
  | buf => rfl
  | block b =>
    have hheld : held m y = some b := by
      rw [held, hstart]
      rfl
    dsimp only
    rw [hcells b hheld]

omit [DecidableEq ι] in
theorem Shows.keeps (h : Shows m y t) (hk : Keeps m m' x) (hyx : y ≠ x) : Shows m' y t := by
  have htok := hk.toks y hyx
  refine ⟨(textOf_congr htok fun b hb => hk.cells y b hyx hb).trans h.text, ?_⟩
  exact (congrArg Tok.type htok).trans h.type

omit [DecidableEq ι] in
theorem Keeps.trans {m'' : Mem ι} (h : Keeps m m' x) (h' : Keeps m' m'' x) : Keeps m m'' x where
  toks y hy := (h'.toks y hy).trans (h.toks y hy)
  cells y b hy hb := by
    have hb' : held m' y = some b := by rw [held, h.toks y hy]; exact hb
    exact (h'.cells y b hy hb').trans (h.cells y b hy hb)

theorem held_setTok (m : Mem ι) (x : Option ι) (t : Tok) :
    held (setTok m x t) = Function.update (held m) x t.start.held := by
  funext y
  by_cases hy : y = x
  · subst hy
    rw [Function.update_self, held, setTok]
    simp only [Function.update_self]
  · rw [Function.update_of_ne hy, held, setTok]
    simp only [Function.update_of_ne hy]
    rfl

@[simp] theorem setTok_self (m : Mem ι) (x : Option ι) (t : Tok) : (setTok m x t).toks x = t :=
  Function.update_self ..

theorem setTok_of_ne (m : Mem ι) (t : Tok) (h : y ≠ x) : (setTok m x t).toks y = m.toks y :=
  Function.update_of_ne h ..

theorem tokenFree_spec (hs : Sound (held m) m.heap) (x : Option ι) :
    ∃ m', tokenFree m x = .ok m' ∧ Sound (held m') m'.heap ∧ held m' x = none ∧ Keeps m m' x ∧
      m'.core = m.core ∧ m'.havetpeek = m.havetpeek := by
  have hkeep : ∀ {m : Mem ι}, Keeps m m x := ⟨fun _ _ => rfl, fun _ _ _ _ => rfl⟩
  rw [tokenFree]
  cases hstart : (m.toks x).start with
  | null => exact ⟨m, rfl, hs, by rw [held, hstart]; rfl, hkeep, rfl, rfl⟩
  | buf => exact ⟨m, rfl, hs, by rw [held, hstart]; rfl, hkeep, rfl, rfl⟩
  | block b =>
    have hheld : held m x = some b := by
      rw [held, hstart]
      rfl
    obtain ⟨heap, hfree, hsound, hcells⟩ := hs.free hheld
    refine ⟨setTok { m with heap := heap } x { m.toks x with start := .null }, ?_, ?_,
      ?_, ?_, rfl, rfl⟩
    · dsimp only
      rw [hfree]
    · rw [held_setTok]
      exact hsound
    · rw [held, setTok_self]
      rfl
    · exact ⟨fun y hy => setTok_of_ne _ _ hy, fun y c hy hc => hcells y c hy hc⟩

theorem fill_spec (hs : Sound (held m) m.heap) (x : Option ι) (t : Token) :
    Sound (held (fill m x t)) (fill m x t).heap ∧ Shows (fill m x t) x t ∧ Keeps m (fill m x t) x ∧
      ((fill m x t).toks x).start ≠ .null ∧ (fill m x t).core = m.core ∧
      (fill m x t).havetpeek = m.havetpeek := by
  rw [fill]
  split
  · refine ⟨?_, ⟨?_, ?_⟩, ⟨fun y hy => setTok_of_ne _ _ hy, fun _ _ _ _ => rfl⟩, ?_, rfl, rfl⟩
    · rw [held_setTok]
      exact hs.drop x
    · rw [textOf, setTok_self]
    · rw [setTok_self]
    · rw [setTok_self]
      exact Start.noConfusion
  · refine ⟨?_, ⟨?_, ?_⟩, ⟨fun y hy => setTok_of_ne _ _ hy, ?_⟩, ?_, rfl, rfl⟩
    · rw [held_setTok]
      exact hs.alloc x t.start
    · rw [textOf, setTok_self]
      dsimp only
      rw [show (setTok { m with heap := m.heap.alloc t.start } x _).heap.cells m.heap.next =
        some t.start from m.heap.alloc_next t.start]
    · rw [setTok_self]
    · exact fun y b _ hb => hs.alloc_of_held t.start hb
    · rw [setTok_self]
      exact Start.noConfusion

/-- The next token goes into `x`, and into no other. -/
theorem nexttokInto_spec (hs : Sound (held m) m.heap) (x : Option ι) :
    match Libsd.lexerNexttok m.core with
    | .error why => nexttokInto m x = .error (.stop why)
    | .ok (none, l) => nexttokInto m x = .ok (false, { m with core := l })
    | .ok (some t, l) => ∃ m', nexttokInto m x = .ok (true, m') ∧ Sound (held m') m'.heap ∧
        m'.core = l ∧ m'.havetpeek = m.havetpeek ∧ Shows m' x t ∧ Keeps m m' x := by
  rw [nexttokInto]
  cases Libsd.lexerNexttok m.core with
  | error why => rfl
  | ok r =>
    rcases r with ⟨_ | t, l⟩
    · rfl
    · have hfree : ∃ m', tokenFree { m with core := l } x = .ok m' ∧ _ :=
        tokenFree_spec (m := { m with core := l }) hs x
      rcases hfree with ⟨m1, hm1, hs1, -, hk1, hcore1, hflag1⟩
      have hfill := fill_spec hs1 x t
      rcases hfill with ⟨hs2, hshows, hk2, -, hcore2, hflag2⟩
      refine ⟨fill m1 x t, ?_, hs2, hcore2.trans hcore1, hflag2.trans hflag1, hshows, ?_⟩
      · exact bind_of_ok hm1 _
      · exact Keeps.trans ⟨hk1.toks, hk1.cells⟩ hk2

end

/-! ### The calls in memory answer like the lexer -/

section
variable {m m' : Mem ι} {l : Lexer}

/-- The memory holds the lexer, with the token it has peeked at in the slot. -/
structure Holds (m : Mem ι) (l : Lexer) : Prop where
  sound : Sound (held m) m.heap
  core : m.core = { l with tpeek := none }
  flag : m.havetpeek = l.tpeek.isSome
  slot : ∀ t, l.tpeek = some t → Shows m none t

/-- A call with the token `i` succeeds if it finds a token, and `i` holds it then. -/
def Answered (i : ι) (r : Except Stop (Option Token × Lexer)) (s : Except Crash (Bool × Mem ι)) :
    Prop :=
  match r with
  | .ok (o, l') =>
    ∃ m', s = .ok (o.isSome, m') ∧ Holds m' l' ∧ ∀ t, o = some t → Shows m' (some i) t
  | .error why => s = .error (.stop why)

omit [DecidableEq ι] in
theorem Holds.core_of_tpeek (h : Holds m l) (hp : l.tpeek = none) : m.core = l :=
  h.core.trans (set_tpeek_none hp)

omit [DecidableEq ι] in
theorem holds_of_tpeek_none (hs : Sound (held m) m.heap) (hcore : m.core = l)
    (hflag : m.havetpeek = false) (hp : l.tpeek = none) : Holds m l where
  sound := hs
  core := hcore.trans (set_tpeek_none hp).symm
  flag := by rw [hflag, hp]; rfl
  slot t ht := by cases hp.symm.trans ht

theorem Holds.tokenFree (h : Holds m l) (i : ι) :
    ∃ m', tokenFree m (some i) = .ok m' ∧ Holds m' l ∧ Keeps m m' (some i) := by
  rcases tokenFree_spec h.sound (some i) with ⟨m', hm', hs, -, hk, hcore, hflag⟩
  refine ⟨m', hm', ⟨hs, hcore.trans h.core, hflag.trans h.flag, fun t ht => ?_⟩, hk⟩
  exact (h.slot t ht).keeps hk (Option.some_ne_none i).symm

/-- The slot is moved out: its block changes hands. -/
theorem lexerNexttok_moved (h : Holds m l) (i : ι) {t : Token} (hp : l.tpeek = some t) :
    Answered i (Libsd.lexerNexttok l) (lexerNexttok m i) := by
  have hflag : m.havetpeek = true := by rw [h.flag, hp]; rfl
  rcases h.tokenFree i with ⟨m1, hm1, h1, -⟩
  have hne : (none : Option ι) ≠ some i := (Option.some_ne_none i).symm
  let m2 := setTok m1 (some i) (m1.toks none)
  let m3 := setTok m2 none { m2.toks none with start := .null }
  have hcall : lexerNexttok m i = .ok (true, { m3 with havetpeek := false }) := by
    rw [lexerNexttok, if_pos hflag, bind_of_ok hm1]
    rfl
  have hheld : held m3 =
      Function.update (Function.update (held m1) (some i) (held m1 none)) none none := by
    rw [held_setTok, held_setTok]
    rfl
  have htok : m3.toks (some i) = m1.toks none := by
    rw [setTok_of_ne _ _ hne.symm, setTok_self]
  have hslot := h1.slot t hp
  rw [lexerNexttok_of_tpeek hp]
  refine ⟨_, hcall, holds_of_tpeek_none ?_ h1.core rfl rfl, fun u hu => ?_⟩
  · have hmoved : Sound (held m3) m3.heap := by
      rw [hheld]
      exact h1.sound.move hne
    exact hmoved
  · obtain rfl := Option.some.inj hu
    refine ⟨?_, (congrArg Tok.type htok).trans hslot.type⟩
    have htext : textOf { m3 with havetpeek := false } (some i) = textOf m1 none := by
      rw [textOf, textOf]
      dsimp only
      rw [htok]
      rfl
    exact htext.trans hslot.text

theorem lexerNexttok_answered (h : Holds m l) (i : ι) :
    Answered i (Libsd.lexerNexttok l) (lexerNexttok m i) := by
  cases hp : l.tpeek with
  | some t => exact lexerNexttok_moved h i hp
  | none =>
    have hflag : m.havetpeek = false := by rw [h.flag, hp]; rfl
    have hcall : lexerNexttok m i = nexttokInto m (some i) := by
      rw [lexerNexttok, if_neg (by rw [hflag]; exact Bool.false_ne_true)]
    have hinto := nexttokInto_spec h.sound (some i)
    rw [h.core_of_tpeek hp] at hinto
    rw [hcall]
    cases hnext : Libsd.lexerNexttok l with
    | error why =>
      rw [hnext] at hinto
      exact hinto
    | ok r =>
      rcases r with ⟨_ | t, l'⟩
      · rw [hnext] at hinto
        have hp' := lexerNexttok_tpeek hnext
        refine ⟨_, hinto, holds_of_tpeek_none h.sound rfl hflag hp', fun t ht => ?_⟩
        cases ht
      · rw [hnext] at hinto
        have hp' := lexerNexttok_tpeek hnext
        rcases hinto with ⟨m', hm', hs, hcore, hflag', hshows, -⟩
        refine ⟨m', hm', holds_of_tpeek_none hs hcore (hflag'.trans hflag) hp', fun u hu => ?_⟩
        obtain rfl := Option.some.inj hu
        exact hshows

/-- Filling the slot is peeking. -/
theorem fillSlot_spec (h : Holds m l) :
    match Libsd.lexerPeek l with
    | .error why => fillSlot m = .error (.stop why)
    | .ok (o, l') => ∃ m', fillSlot m = .ok m' ∧ Holds m' l' ∧ l'.tpeek = o := by
  cases hp : l.tpeek with
  | some t =>
    have hflag : m.havetpeek = true := by rw [h.flag, hp]; rfl
    have hpeek : Libsd.lexerPeek l = .ok (some t, l) := by simp only [Libsd.lexerPeek, hp]
    rw [hpeek]
    exact ⟨m, by rw [fillSlot, if_pos hflag], h, hp⟩
  | none =>
    have hflag : m.havetpeek = false := by rw [h.flag, hp]; rfl
    have hinto := nexttokInto_spec h.sound none
    rw [h.core_of_tpeek hp] at hinto
    rw [lexerPeek_eq hp, fillSlot, if_neg (by rw [hflag]; exact Bool.false_ne_true)]
    cases hnext : Libsd.lexerNexttok l with
    | error why =>
      rw [hnext] at hinto
      dsimp only at hinto
      rw [hinto]
      rfl
    | ok r =>
      have hp' := lexerNexttok_tpeek hnext
      rcases r with ⟨_ | t, l'⟩
      · rw [hnext] at hinto
        refine ⟨_, bind_of_ok hinto _, ?_, rfl⟩
        exact holds_of_tpeek_none h.sound (set_tpeek_none hp').symm rfl rfl
      · rw [hnext] at hinto
        rcases hinto with ⟨m', hm', hs, hcore, -, hshows, -⟩
        refine ⟨{ m' with havetpeek := true }, bind_of_ok hm' _, ⟨hs, ?_, rfl, fun u hu => ?_⟩, rfl⟩
        · exact hcore.trans (set_tpeek_none hp').symm
        · obtain rfl := Option.some.inj hu
          exact ⟨hshows.text, hshows.type⟩

/-- The slot is copied out, with a block of its own for a text in a block. -/
theorem lexerPeek_answered (h : Holds m l) (i : ι) :
    Answered i (Libsd.lexerPeek l) (lexerPeek m i) := by
  have hfill := fillSlot_spec h
  rw [lexerPeek]
  cases hpeek : Libsd.lexerPeek l with
  | error why =>
    rw [hpeek] at hfill
    dsimp only at hfill
    rw [hfill]
    rfl
  | ok r =>
    obtain ⟨o, l'⟩ := r
    rw [hpeek] at hfill
    rcases hfill with ⟨m1, hm1, h1, ho⟩
    rw [bind_of_ok hm1]
    have hne : (none : Option ι) ≠ some i := (Option.some_ne_none i).symm
    cases o with
    | none =>
      have hflag : m1.havetpeek = false := by rw [h1.flag, ho]; rfl
      rw [if_neg (by rw [hflag]; exact Bool.false_ne_true)]
      exact ⟨m1, rfl, h1, fun t ht => by cases ht⟩
    | some t =>
      have hflag : m1.havetpeek = true := by rw [h1.flag, ho]; rfl
      have hslot := h1.slot t ho
      rw [if_pos hflag]
      by_cases hbuf : (m1.toks none).start = .buf
      · rw [if_pos hbuf]
        refine ⟨_, rfl, ⟨?_, h1.core, h1.flag, fun u hu => ?_⟩, fun u hu => ?_⟩
        · rw [held_setTok, hbuf]
          exact h1.sound.drop (some i)
        · exact (h1.slot u hu).keeps
            ⟨fun y hy => setTok_of_ne _ _ hy, fun _ _ _ _ => rfl⟩ hne
        · obtain rfl := Option.some.inj hu
          refine ⟨?_, by rw [setTok_self]; exact hslot.type⟩
          rw [← hslot.text, textOf, textOf, setTok_self, hbuf]
      · rw [if_neg hbuf, bind_of_ok hslot.text]
        refine ⟨_, rfl, ⟨?_, h1.core, h1.flag, fun u hu => ?_⟩, fun u hu => ?_⟩
        · rw [held_setTok]
          exact h1.sound.alloc (some i) t.start
        · refine (h1.slot u hu).keeps ⟨fun y hy => setTok_of_ne _ _ hy, fun y b _ hb => ?_⟩ hne
          exact h1.sound.alloc_of_held t.start hb
        · obtain rfl := Option.some.inj hu
          refine ⟨?_, by rw [setTok_self]; exact hslot.type⟩
          rw [textOf, setTok_self]
          dsimp only
          rw [show (setTok { m1 with heap := m1.heap.alloc t.start } (some i) _).heap.cells
            m1.heap.next = some t.start from m1.heap.alloc_next t.start]

omit [DecidableEq ι] in
/-- The caller finds the token it has been given. -/
theorem Answered.found {i : ι} {o : Option Token} {l' : Lexer} {s : Except Crash (Bool × Mem ι)}
    (h : Answered i (.ok (o, l')) s) : ∃ m', s >>= found i = .ok ([o], m') ∧ Holds m' l' := by
  rcases h with ⟨m', hm', hholds, hshows⟩
  refine ⟨m', ?_, hholds⟩
  rw [bind_of_ok hm']
  cases o with
  | none => rfl
  | some t =>
    have hshow := hshows t rfl
    have hrest : textOf m' (some i) >>= (fun text => match (m'.toks (some i)).type with
        | some type => .ok ([some { start := text, type := type }], m')
        | none => .error .badRead) = .ok ([some t], m') := by
      rw [bind_of_ok hshow.text, hshow.type]
    exact hrest

omit [DecidableEq ι] in
theorem bind_of_error {α β : Type} {x : Except Crash α} {e : Crash} (h : x = .error e)
    (f : α → Except Crash β) : x >>= f = .error e := by
  rw [h]
  rfl

theorem run_cons {c : Call ι} {cs : List (Call ι)} {m m' m'' : Mem ι} {os us : List (Option Token)}
    (happly : c.apply m = .ok (os, m')) (hrun : run cs m' = .ok (us, m'')) :
    run (c :: cs) m = .ok (os ++ us, m'') := by
  rw [run, bind_of_ok happly]
  exact bind_of_ok hrun _

theorem run_cons_error {c : Call ι} {cs : List (Call ι)} {m m' : Mem ι} {os : List (Option Token)}
    {e : Crash} (happly : c.apply m = .ok (os, m')) (hrun : run cs m' = .error e) :
    run (c :: cs) m = .error e := by
  rw [run, bind_of_ok happly]
  exact bind_of_error hrun _

/-- What a run answers, from any memory that holds the lexer. -/
theorem Holds.run (cs : List (Call ι)) (h : Holds m l) :
    match answers cs l with
    | .ok os => ∃ m' l', run cs m = .ok (os, m') ∧ Holds m' l'
    | .error why => run cs m = .error (.stop why) := by
  induction cs generalizing m l with
  | nil => exact ⟨m, l, rfl, h⟩
  | cons c cs ih =>
    -- one answered call, and the rest
    have hcall : ∀ {i : ι} {r : Except Stop (Option Token × Lexer)}
        {s : Except Crash (Bool × Mem ι)},
        Answered i r s → c.apply m = s >>= TokenMemory.found i →
        match (r >>= fun r => answers cs r.2 >>= fun os => (.ok (r.1 :: os) : Except Stop _)) with
        | .ok os => ∃ m' l', TokenMemory.run (c :: cs) m = .ok (os, m') ∧ Holds m' l'
        | .error why => TokenMemory.run (c :: cs) m = .error (.stop why) := by
      intro i r s hanswered happly
      cases r with
      | error why =>
        have hs : s = .error (.stop why) := hanswered
        rw [TokenMemory.run, happly, hs]
        rfl
      | ok r =>
        obtain ⟨o, l'⟩ := r
        rcases hanswered.found with ⟨m', hm', hholds⟩
        have hrest := ih hholds
        change match (answers cs l' >>= fun os => (.ok (o :: os) : Except Stop _)) with
          | .ok os => _
          | .error why => _
        cases hcs : answers cs l' with
        | error why =>
          rw [hcs] at hrest
          exact run_cons_error (happly.trans hm') hrest
        | ok os =>
          rw [hcs] at hrest
          rcases hrest with ⟨m'', l'', hrun, hholds'⟩
          exact ⟨m'', l'', run_cons (happly.trans hm') hrun, hholds'⟩
    cases c with
    | peek i => exact hcall (lexerPeek_answered h i) rfl
    | nexttok i => exact hcall (lexerNexttok_answered h i) rfl
    | free i =>
      rcases h.tokenFree i with ⟨m', hm', hholds, -⟩
      have hrest := ih hholds
      have happly : Call.apply m (.free i) = .ok ([], m') := by
        rw [Call.apply, hm']
        rfl
      rw [answers]
      cases hcs : answers cs l with
      | error why =>
        rw [hcs] at hrest
        exact run_cons_error happly hrest
      | ok os =>
        rw [hcs] at hrest
        rcases hrest with ⟨m'', l'', hrun, hholds'⟩
        exact ⟨m'', l'', run_cons happly hrun, hholds'⟩

theorem Holds.lexerFree (h : Holds m l) : ∃ m', lexerFree m = .ok m' := by
  rw [TokenMemory.lexerFree]
  split
  · rcases tokenFree_spec h.sound none with ⟨m', hm', -⟩
    exact ⟨m', hm'⟩
  · exact ⟨m, rfl⟩

end

omit [DecidableEq ι] in
theorem fresh_holds {l : Lexer} (hp : l.tpeek = none) : Holds (fresh l : Mem ι) l :=
  holds_of_tpeek_none Sound.empty rfl rfl hp

/-- **Every sequence of calls is answered as if nothing had been peeked at**, and no two
    tokens share a block of the heap. -/
theorem run_expected {l : Lexer} (hp : l.tpeek = none) (cs : List (Call ι)) :
    AnswersAs (expected l 0 cs) (run cs (fresh l)) := by
  have hfresh : Holds (fresh l : Mem ι) l := fresh_holds hp
  have hrun := hfresh.run cs
  rw [answers_eq_expected cs hp (.inl rfl)] at hrun
  refine ⟨fun os hos => ?_, fun why hwhy => ?_⟩
  · rw [hos] at hrun
    rcases hrun with ⟨m', l', hm', hholds⟩
    exact ⟨m', hm', hholds.sound, hholds.lexerFree⟩
  · rw [hwhy] at hrun
    exact hrun

/-- A lexer in front of a text that a token does not hold in its `buf`. -/
def longName : Lexer :=
  { src := cstr "longest_name+b", peek := rune 'l', len := 14, pos := 0, tpeek := none }

/-- The text is peeked at twice, each time into a block of its own, and moved out. -/
theorem run_expected_longName :
    AnswersAs (expected longName 0 [.peek 0, .free 0, .peek 0, .nexttok 1, .peek 1])
      (run [.peek 0, .free 0, .peek 0, .nexttok 1, .peek 1] (fresh longName : Mem Nat)) :=
  run_expected (l := longName) rfl [.peek 0, .free 0, .peek 0, .nexttok 1, .peek 1]

end Libsd.TokenMemory

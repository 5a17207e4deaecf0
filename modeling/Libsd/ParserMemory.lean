/-
  Libsd/ParserMemory.lean
  =======================
  **The parser over nodes in memory, when memory can run out.**

  The allocator answers each request for a node, for the text of a node or for an array of
  arguments in turn; those of the lexer, for its copy of the source and the texts of tokens, are
  granted.  Whatever it refuses, the parser comes to an end
  without reading or freeing a node that is not there; if it fails, all its nodes are gone, and
  if it succeeds there are those of the tree it returns, and `node_free` frees just these
  (`avarEqnParse_owns`).  The exception are arguments of a call that `slice_append` cannot
  take: nobody looks at its error, so they are lost.  When nothing is refused the tree is the
  one of `Libsd.avarEqnParse`.
-/
import Libsd.Lib.Follows
import Libsd.Lib.Region
import Libsd.ParseTotal
import Libsd.Slices
import Libsd.Walker
import Mathlib.Data.List.Perm.Subperm

namespace Libsd.ParserMemory

open Utf Outcome Owners Slices

/-! ### Nodes in memory -/

abbrev Ptr := Option Nat

/-- `Node_s`, with what a walk over the tree fills in left out.  The text and the array of
    arguments are blocks of their own that nothing else points to. -/
structure Cell where
  type : Walk.NodeType
  op : Rune
  sval : Option CStr
  left : Ptr
  right : Ptr
  cond : Ptr
  args : Slice Ptr

/-- What `calloc` returns, with the type set. -/
def Cell.new (type : Walk.NodeType) : Cell :=
  { type := type, op := 0, sval := none, left := none, right := none, cond := none, args := lost }

/-- The requests that the parser makes for its nodes. -/
inductive Request where
  | node
  | text
  | array
deriving DecidableEq, Repr

structure Mem where
  heap : Heap Cell
  allocs : Nat

/-- Why a call does not return: what it is made of does not, or a node is read, written or
    freed that is not allocated. -/
inductive Crash where
  | stop (why : Stop)
  | badRead
  | badWrite
  | badFree

def liftStop {α : Type} : Except Stop α → Except Crash α
  | .ok a => .ok a
  | .error why => .error (.stop why)

def write (b : Nat) (f : Cell → Cell) (m : Mem) : Except Crash Mem :=
  match m.heap.cells b with
  | none => .error .badWrite
  | some c =>
    match m.heap.write b (f c) with
    | some heap => .ok { m with heap := heap }
    | none => .error .badWrite

/-- `node_free`, for trees that are less deep than `fuel`. -/
def nodeFreeLoop : Nat → Ptr → Heap Cell → Except Crash (Heap Cell)
  | 0, _, _ => .error (.stop .diverge)
  | _ + 1, none, h => .ok h
  | fuel + 1, some b, h =>
    match h.cells b with
    | none => .error .badRead
    | some c => do
      let h ← nodeFreeLoop fuel c.left h
      let h ← nodeFreeLoop fuel c.right h
      let h ← nodeFreeLoop fuel c.cond h
      let h ← (contents c.args).foldlM (fun h arg => nodeFreeLoop fuel arg h) h
      match h.free b with
      | some h => .ok h
      | none => .error .badFree

/-- A tree is not deeper than there are blocks. -/
def nodeFree (n : Ptr) (m : Mem) : Except Crash Mem := do
  let h ← nodeFreeLoop (m.heap.next + 1) n m.heap
  return { m with heap := h }

section
variable (served : Nat → Request → Bool)

def node (type : Walk.NodeType) (m : Mem) : Ptr × Mem :=
  if served m.allocs .node then
    (some m.heap.next, { heap := m.heap.alloc (Cell.new type), allocs := m.allocs + 1 })
  else (none, { m with allocs := m.allocs + 1 })

def strdup (s : CStr) (m : Mem) : Option CStr × Mem :=
  (if served m.allocs .text then some s else none, { m with allocs := m.allocs + 1 })

/-- `canonicalize` on the copy that it makes of the name. -/
def canonicalizeCopy (n : CStr) (m : Mem) : Except Crash (Option CStr × Mem) :=
  let (copy, m) := strdup served n m
  match copy with
  | none => .ok (none, m)
  | some s =>
    match canonicalize s with
    | none => .error (.stop (.undefined .outOfBounds))
    | some name => .ok (some name, m)

/-- `slice_append(&x->args, arg)`, whose error is not looked at. -/
def appendArg (x : Nat) (arg : Ptr) (m : Mem) : Except Crash Mem :=
  match m.heap.cells x with
  | none => .error .badRead
  | some c => do
    let r := sliceAppend (fun k => served k .array) m.allocs c.args arg
    let m ← write x (fun c => { c with args := r.slice }) m
    return { m with allocs := r.allocs }

/-! ### The parsing functions -/

/-- What a parsing function returns: whether it succeeds and the node, with the lexer and the
    memory that it leaves behind. -/
abbrev Res := Except Crash (Bool × Ptr × Lexer × Mem)

/-- A node from `node`, filled in by `f`, or the end of a function that cannot get it: the
    nodes that it has are freed. -/
def build (type : Walk.NodeType) (f : Cell → Cell) (owned : List Ptr) (p : Lexer) (m : Mem) :
    Res := do
  let (x, m) := node served type m
  match x with
  | none => do
    let m ← owned.foldlM (fun m n => nodeFree n m) m
    return (false, none, p, m)
  | some b => do
    let m ← write b f m
    return (true, some b, p, m)

/-- The end of a function that fails. -/
def fail (owned : List Ptr) (p : Lexer) (m : Mem) : Res := do
  let m ← owned.foldlM (fun m n => nodeFree n m) m
  return (false, none, p, m)

def num (p : Lexer) (m : Mem) : Res := do
  let (t, p) ← liftStop (consumeIf p fun t => t.type == .number)
  match t with
  | none => return (false, none, p, m)
  | some t =>
    let (x, m) := node served .floatlit m
    match x with
    | none => return (false, none, p, m)
    | some b => do
      let (s, m) := strdup served t.start m
      let m ← write b (fun c => { c with sval := s }) m
      return (true, some b, p, m)

def ident (p : Lexer) (m : Mem) : Res := do
  let (t, p) ← liftStop (consumeIf p fun t => t.type == .ident)
  match t with
  | none => return (false, none, p, m)
  | some t =>
    let (x, m) := node served .ident m
    match x with
    | none => return (false, none, p, m)
    | some b => do
      let (s, m) ← canonicalizeCopy served t.start m
      let m ← write b (fun c => { c with sval := s }) m
      return (true, some b, p, m)

/-- The calls of the parsing functions; a loop is entered at each turn. -/
inductive MemCall where
  | expr (level : Fin MAX_BINARY)
  | exprLoop (level : Fin MAX_BINARY) (lhs : Ptr)
  | fact
  | call (fn : Ptr)
  | callLoop (x : Nat)

theorem topLevel_lt : 0 < MAX_BINARY := by decide

theorem nextLevel_lt {level : Fin MAX_BINARY} (h : level.val + 1 ≠ MAX_BINARY) :
    level.val + 1 < MAX_BINARY :=
  Nat.lt_of_le_of_ne level.isLt h

variable (F : MemCall → Lexer → Mem → Res)

def operand (level : Fin MAX_BINARY) (p : Lexer) (m : Mem) : Res :=
  if h : level.val + 1 = MAX_BINARY then F .fact p m
  else F (.expr ⟨level.val + 1, nextLevel_lt h⟩) p m

def expr (level : Fin MAX_BINARY) (p : Lexer) (m : Mem) : Res := do
  let (t, p) ← liftStop (lexerPeek p)
  if t.isNone then return (true, none, p, m)
  let (ok, lhs, p, m) ← operand F level p m
  if !ok then fail [lhs] p m
  else F (.exprLoop level lhs) p m

/-- The `while` loop of `expr`. -/
def exprLoop (level : Fin MAX_BINARY) (lhs : Ptr) (p : Lexer) (m : Mem) : Res := do
  let (op, p) ← liftStop (consumeAny p (BINARY.getD level []))
  match op with
  | none => return (true, lhs, p, m)
  | some op =>
    let (ok, rhs, p, m) ← operand F level p m
    if !ok || rhs.isNone then fail [lhs, rhs] p m
    else
      let (ok, x, p, m) ← build served .binary
        (fun c => { c with left := lhs, right := rhs, op := op }) [lhs, rhs] p m
      if ok then F (.exprLoop level x) p m else return (false, none, p, m)

/-- `expr` at level 0. -/
def phrase (p : Lexer) (m : Mem) : Res := F (.expr ⟨0, topLevel_lt⟩) p m

def factParen (p : Lexer) (m : Mem) : Res := do
  let (ok, l, p, m) ← phrase F p m
  if !ok then fail [l] p m
  else
    let (ok, p) ← liftStop (consumeTok p (rune ')'))
    if !ok then fail [l] p m
    else build served .paren (fun c => { c with left := l }) [l] p m

def factUnary (op : Rune) (p : Lexer) (m : Mem) : Res := do
  let (ok, l, p, m) ← phrase F p m
  if !ok then fail [l] p m
  else build served .unary (fun c => { c with op := op, left := l }) [l] p m

def factThen (cond : Ptr) (p : Lexer) (m : Mem) : Res := do
  let (ok, l, p, m) ← phrase F p m
  if !ok || l.isNone then fail [l, cond] p m
  else
    let (ok, p) ← liftStop (consumeReserved p (cstr "else"))
    if !ok then
      build served .ifElse (fun c => { c with cond := cond, left := l }) [l, cond] p m
    else
      let (ok, r, p, m) ← phrase F p m
      if !ok || r.isNone then fail [l, r, cond] p m
      else
        build served .ifElse (fun c => { c with cond := cond, left := l, right := r })
          [l, r, cond] p m

def factIf (p : Lexer) (m : Mem) : Res := do
  let (ok, cond, p, m) ← phrase F p m
  if !ok then fail [cond] p m
  else
    let (ok, p) ← liftStop (consumeReserved p (cstr "then"))
    if !ok then fail [cond] p m
    else factThen served F cond p m

def factName (x : Ptr) (p : Lexer) (m : Mem) : Res := do
  let (ok, p) ← liftStop (consumeTok p (rune '('))
  if ok then F (.call x) p m else return (true, x, p, m)

def fact (p : Lexer) (m : Mem) : Res := do
  let (ok, p) ← liftStop (consumeTok p (rune '('))
  if ok then factParen served F p m
  else
    let (op, p) ← liftStop (consumeAny p UNARY)
    match op with
    | some op => factUnary served F op p m
    | none =>
      let (ok, n, p, m) ← num served p m
      if ok then return (true, n, p, m)
      else
        let (ok, p) ← liftStop (consumeReserved p (cstr "if"))
        if ok then factIf served F p m
        else
          let (ok, x, p, m) ← ident served p m
          if ok then factName F x p m else return (false, none, p, m)

def call (fn : Ptr) (p : Lexer) (m : Mem) : Res := do
  let (ok, x, p, m) ← build served .call (fun c => { c with left := fn }) [fn] p m
  match x with
  | none => return (ok, none, p, m)
  | some b =>
    let (ok, p) ← liftStop (consumeTok p (rune ')'))
    if ok then return (true, some b, p, m) else F (.callLoop b) p m

/-- The `while` loop of `call`. -/
def callLoop (x : Nat) (p : Lexer) (m : Mem) : Res := do
  let (ok, arg, p, m) ← phrase F p m
  if !ok then fail [arg, some x] p m
  else
    let m ← appendArg served x arg m
    let (ok, p) ← liftStop (consumeTok p (rune ','))
    if ok then F (.callLoop x) p m
    else
      let (ok, p) ← liftStop (consumeTok p (rune ')'))
      if ok then return (true, some x, p, m) else fail [some x] p m

def body : MemCall → Lexer → Mem → Res
  | .expr level => expr F level
  | .exprLoop level lhs => exprLoop served F level lhs
  | .fact => fact served F
  | .call fn => call served F fn
  | .callLoop x => callLoop served F x

def run : Nat → MemCall → Lexer → Mem → Res
  | 0 => fun _ _ _ => .error (.stop .diverge)
  | fuel + 1 => body served (run fuel)

/-- `none` is `SD_ERR_UNSPECIFIED`, else the node is stored in the `AVar`. -/
def avarEqnParse (eqn : CStr) (m : Mem) : Except Crash (Option Ptr × Mem) := do
  let l ← liftStop (lexerInit eqn)
  let (ok, n, _, m) ← run served (parseFuel l) (.expr ⟨0, topLevel_lt⟩) l m
  if ok then return (some n, m)
  else
    let m ← nodeFree n m
    return (none, m)

end

/-! ### Trees in memory -/

/-- The tree of a node over the trees of its children. -/
def Cell.tree (c : Cell) (left right cond : Node) (args : List Node) : Node :=
  match c.type with
  | .unknown => .null
  | .paren => .paren left
  | .floatlit => .floatlit (c.sval.getD []) 0
  | .ident => .ident (c.sval.getD []) none
  | .call => .call left args none
  | .binary => .binary c.op left right
  | .unary => .unary c.op left
  | .ifElse => .ifElse cond left right

section
variable (cells : Nat → Option Cell)

mutual
/-- `Holds cells p n ids`: there is the tree `n` at `p`, and it consists of the blocks `ids`. -/
inductive Holds : Ptr → Node → List Nat → Prop where
  | null : Holds none .null []
  | node {b : Nat} {c : Cell} {left right cond : Node} {args : List Node} {ls rs cs as : List Nat}
      (cell : cells b = some c) (known : c.type ≠ .unknown) (hleft : Holds c.left left ls)
      (hright : Holds c.right right rs) (hcond : Holds c.cond cond cs)
      (hargs : HoldsAll (contents c.args) args as) :
      Holds (some b) (c.tree left right cond args) (b :: (ls ++ (rs ++ (cs ++ as))))

inductive HoldsAll : List Ptr → List Node → List Nat → Prop where
  | nil : HoldsAll [] [] []
  | cons {p : Ptr} {ps : List Ptr} {n : Node} {ns : List Node} {ids idss : List Nat}
      (head : Holds p n ids) (tail : HoldsAll ps ns idss) :
      HoldsAll (p :: ps) (n :: ns) (ids ++ idss)
end

end

section
variable {cells cells' : Nat → Option Cell}

mutual
theorem Holds.congr {p : Ptr} {n : Node} {ids : List Nat} : Holds cells p n ids →
    (∀ b ∈ ids, cells' b = cells b) → Holds cells' p n ids
  | .null, _ => .null
  | .node cell known hl hr hc ha, h => by
    refine .node ((h _ (by simp)).trans cell) known (hl.congr fun b hb => h b ?_)
      (hr.congr fun b hb => h b ?_) (hc.congr fun b hb => h b ?_) (ha.congr fun b hb => h b ?_) <;>
      simp [hb]

theorem HoldsAll.congr {ps : List Ptr} {ns : List Node} {ids : List Nat} :
    HoldsAll cells ps ns ids → (∀ b ∈ ids, cells' b = cells b) → HoldsAll cells' ps ns ids
  | .nil, _ => .nil
  | .cons head tail, h =>
    .cons (head.congr fun b hb => h b (List.mem_append_left _ hb))
      (tail.congr fun b hb => h b (List.mem_append_right _ hb))
end

mutual
/-- `node_free` takes a tree away, and nothing else. -/
theorem Holds.free {p : Ptr} {n : Node} {ids : List Nat} : Holds cells p n ids →
    ∀ {h : Heap Cell} {fuel : Nat} {A : List Nat}, (∀ b ∈ ids, h.cells b = cells b) →
      ids.length < fuel → h.Region (ids ++ A) →
      ∃ h', nodeFreeLoop fuel p h = .ok h' ∧ h'.Region A ∧ SameCells A h h' ∧ h'.next = h.next
  | .null, h, fuel, A, _, hfuel, hr => by
    obtain ⟨fuel, rfl⟩ := Nat.exists_eq_add_of_lt hfuel
    exact ⟨h, rfl, hr, .refl, rfl⟩
  | @Holds.node _ b c left right cond args ls rs cs as cell known hl hr hc ha, h, fuel, A, hcells,
      hfuel, hregion => by
    cases fuel with
    | zero => cases hfuel
    | succ fuel =>
      simp only [List.length_cons, List.length_append] at hfuel
      have hl0 : ls.length < fuel := by omega
      have hr0 : rs.length < fuel := by omega
      have hc0 : cs.length < fuel := by omega
      have ha0 : as.length < fuel := by omega
      have hb : h.cells b = some c := (hcells b List.mem_cons_self).trans cell
      have hregion : h.Region (ls ++ (rs ++ (cs ++ (as ++ (b :: A))))) := hregion.perm (by
        rw [List.perm_iff_count]
        intro x
        simp only [List.count_append, List.count_cons, List.cons_append]
        omega)
      obtain ⟨h1, heq1, hregion1, hsame1, hnext1⟩ := hl.free
        (fun x hx => hcells x (by simp [hx])) hl0 hregion
      obtain ⟨h2, heq2, hregion2, hsame2, hnext2⟩ := hr.free
        (fun x hx => (hsame1 x (by simp [hx])).trans (hcells x (by simp [hx]))) hr0 hregion1
      have hsame2 := (hsame1.mono fun x hx => List.mem_append_right _ hx).trans hsame2
      obtain ⟨h3, heq3, hregion3, hsame3, hnext3⟩ := hc.free
        (fun x hx => (hsame2 x (by simp [hx])).trans (hcells x (by simp [hx]))) hc0 hregion2
      have hsame3 := (hsame2.mono fun x hx => List.mem_append_right _ hx).trans hsame3
      obtain ⟨h4, heq4, hregion4, hsame4, hnext4⟩ := ha.free
        (fun x hx => (hsame3 x (by simp [hx])).trans (hcells x (by simp [hx]))) ha0 hregion3
      have hsame4 := (hsame3.mono fun x hx => List.mem_append_right _ hx).trans hsame4
      obtain ⟨h5, heq5, hregion5, hsame5, hnext5⟩ := hregion4.free
      refine ⟨h5, ?_, hregion5, (hsame4.mono fun x hx => List.mem_cons_of_mem b hx).trans hsame5,
        by rw [hnext5, hnext4, hnext3, hnext2, hnext1]⟩
      simp only [nodeFreeLoop, hb]
      rw [bind_of_ok heq1, bind_of_ok heq2, bind_of_ok heq3, bind_of_ok heq4, heq5]

theorem HoldsAll.free {ps : List Ptr} {ns : List Node} {ids : List Nat} : HoldsAll cells ps ns ids →
    ∀ {h : Heap Cell} {fuel : Nat} {A : List Nat}, (∀ b ∈ ids, h.cells b = cells b) →
      ids.length < fuel → h.Region (ids ++ A) →
      ∃ h', ps.foldlM (fun h arg => nodeFreeLoop fuel arg h) h = .ok h' ∧ h'.Region A ∧
        SameCells A h h' ∧ h'.next = h.next
  | .nil, h, fuel, A, _, hfuel, hr => ⟨h, rfl, hr, .refl, rfl⟩
  | @HoldsAll.cons _ p ps n ns ids idss head tail, h, fuel, A, hcells, hfuel, hr => by
    rw [List.length_append] at hfuel
    rw [List.append_assoc] at hr
    have hhead : ids.length < fuel := by omega
    have htail : idss.length < fuel := by omega
    obtain ⟨h1, heq1, hr1, hsame1, hnext1⟩ := head.free
      (fun b hb => hcells b (List.mem_append_left _ hb)) hhead hr
    obtain ⟨h2, heq2, hr2, hsame2, hnext2⟩ := tail.free
      (fun b hb => (hsame1 b (List.mem_append_left A hb)).trans
        (hcells b (List.mem_append_right _ hb))) htail hr1
    refine ⟨h2, ?_, hr2, (hsame1.mono fun b hb => List.mem_append_right _ hb).trans hsame2,
      hnext2.trans hnext1⟩
    rw [List.foldlM_cons, bind_of_ok heq1]
    exact heq2
end

end

/-! ### Who has which nodes -/

section
variable (served : Nat → Request → Bool)

def AllServed : Prop := ∀ k r, served k r = true

/-- `slice_append` never fails. -/
def NoLoss : Prop := ∀ k, served k .array = true

/-- Beside the nodes `L` that were there, and are as in `h`, there are the nodes `A` and those
    that are lost. -/
def Owns (L : List Nat) (h : Heap Cell) (m : Mem) (A : List Nat) : Prop :=
  ∃ lost, m.heap.Region (A ++ (lost ++ L)) ∧ SameCells L h m.heap ∧ (NoLoss served → lost = [])

end

section
variable {served : Nat → Request → Bool} {L A B ids : List Nat} {h : Heap Cell} {m m' : Mem}
  {n : Ptr} {tree : Node}

theorem Owns.start (hr : m.heap.Region L) : Owns served L m.heap m [] :=
  ⟨[], hr, .refl, fun _ => rfl⟩

theorem Owns.perm (ho : Owns served L h m A) (hp : A.Perm B) : Owns served L h m B := by
  obtain ⟨lost, hr, hsame, hlost⟩ := ho
  exact ⟨lost, hr.perm (hp.append_right _), hsame, hlost⟩

theorem Owns.lose (hn : ¬ NoLoss served) (ho : Owns served L h m (B ++ A)) :
    Owns served L h m A := by
  obtain ⟨lost, hr, hsame, -⟩ := ho
  refine ⟨B ++ lost, hr.perm ?_, hsame, fun he => absurd he hn⟩
  rw [List.perm_iff_count]
  intro x
  simp only [List.count_append]
  omega

/-- What is done beside the nodes `A` leaves them as they are. -/
theorem Owns.beside (ho : Owns served L h m A) : ∃ L', Owns served L' m.heap m [] ∧
    ∀ m' ids, Owns served L' m.heap m' ids →
      Owns served L h m' (ids ++ A) ∧ SameCells A m.heap m'.heap := by
  obtain ⟨lost, hr, hsame, hlost⟩ := ho
  refine ⟨A ++ (lost ++ L), .start hr, fun m' ids ⟨lost', hr', hsame', hlost'⟩ =>
    ⟨⟨lost' ++ lost, hr'.perm ?_, ?_, fun he => ?_⟩, ?_⟩⟩
  · rw [List.perm_iff_count]
    intro x
    simp only [List.count_append]
    omega
  · exact hsame.trans (hsame'.mono fun b hb =>
      List.mem_append_right _ (List.mem_append_right _ hb))
  · rw [hlost he, hlost' he, List.append_nil]
  · exact hsame'.mono fun b hb => List.mem_append_left _ hb

theorem Owns.node (ho : Owns served L h m A) (type : Walk.NodeType) :
    (∃ b, (node served type m).1 = some b ∧ Owns served L h (node served type m).2 (b :: A) ∧
      SameCells A m.heap (node served type m).2.heap ∧
      (node served type m).2.heap.cells b = some (Cell.new type)) ∨
    (node served type m).1 = none ∧ ¬ AllServed served ∧
      Owns served L h (node served type m).2 A ∧
      SameCells A m.heap (node served type m).2.heap := by
  obtain ⟨lost, hr, hsame, hlost⟩ := ho
  rw [ParserMemory.node]
  split
  · obtain ⟨hr', hsame', hcell⟩ := hr.alloc (Cell.new type)
    refine .inl ⟨m.heap.next, rfl, ⟨lost, hr', ?_, hlost⟩, ?_, hcell⟩
    · exact hsame.trans (hsame'.mono fun b hb =>
        List.mem_append_right _ (List.mem_append_right _ hb))
    · exact hsame'.mono fun b hb => List.mem_append_left _ hb
  · next hserved =>
    exact .inr ⟨rfl, fun hall => hserved (hall _ _), ⟨lost, hr, hsame, hlost⟩, .refl⟩

theorem Owns.write {b : Nat} {c : Cell} (ho : Owns served L h m (b :: A))
    (hc : m.heap.cells b = some c) (f : Cell → Cell) :
    ∃ m', write b f m = .ok m' ∧ Owns served L h m' (b :: A) ∧ SameCells A m.heap m'.heap ∧
      m'.heap.cells b = some (f c) := by
  obtain ⟨lost, hr, hsame, hlost⟩ := ho
  obtain ⟨heap, heq, hr', hother, hcell⟩ := hr.write List.mem_cons_self (f c)
  obtain ⟨hnot, -⟩ := List.nodup_cons.mp hr.nodup
  have hne : ∀ x ∈ A ++ (lost ++ L), x ≠ b := fun x hx he => hnot (he ▸ hx)
  refine ⟨{ m with heap := heap }, ?_, ⟨lost, hr', fun x hx => ?_, hlost⟩, fun x hx => ?_, hcell⟩
  · rw [ParserMemory.write, hc]
    simp only [heq]
  · exact (hother x (hne x (by simp [hx]))).trans (hsame x hx)
  · exact hother x (hne x (by simp [hx]))

/-- A tree consists of no more nodes than there are blocks. -/
theorem Owns.length_le (ho : Owns served L h m A) : A.length ≤ m.heap.next := by
  obtain ⟨lost, hr, -, -⟩ := ho
  have hsub : (A ++ (lost ++ L)).Subperm (List.range m.heap.next) :=
    hr.nodup.subperm fun b hb => List.mem_range.mpr (hr.fresh b hb)
  have hle := hsub.length_le
  rw [List.length_range, List.length_append] at hle
  omega

theorem Owns.free (ho : Owns served L h m (ids ++ A)) (hold : Holds m.heap.cells n tree ids) :
    ∃ m', nodeFree n m = .ok m' ∧ Owns served L h m' A ∧ SameCells A m.heap m'.heap := by
  have hle := ho.length_le
  obtain ⟨lost, hr, hsame, hlost⟩ := ho
  rw [List.length_append] at hle
  have hfuel : ids.length < m.heap.next + 1 := by omega
  obtain ⟨heap, heq, hr', hsame', -⟩ := hold.free (fun _ _ => rfl) hfuel
    (hr.perm (by rw [List.append_assoc]))
  refine ⟨{ m with heap := heap }, ?_, ⟨lost, hr', ?_, hlost⟩, ?_⟩
  · rw [nodeFree, bind_of_ok heq]
    rfl
  · exact hsame.trans (hsame'.mono fun b hb =>
      List.mem_append_right _ (List.mem_append_right _ hb))
  · exact hsame'.mono fun b hb => List.mem_append_left _ hb

end

/-! ### One step -/

/-- A call does not come back where the parser over trees does not. -/
def Stops (e : Crash) (why : Stop) : Prop := e = .stop why ∧ why ≠ .diverge

/-- What a parsing function returns with `k` tokens left, beside what the parser over trees
    does. -/
inductive Made (served : Nat → Request → Bool) (L : List Nat) (h : Heap Cell) (k : Nat) :
    Bool × Ptr × Lexer × Mem → Bool × Node × Lexer → Prop where
  | mk {ok : Bool} {n : Ptr} {tree : Node} {l : Lexer} {m : Mem} {ids : List Nat} (ha : l.AtRune)
      (hk : tokensLeft l ≤ k) (ho : Owns served L h m ids) (hold : Holds m.heap.cells n tree ids)
      (hfailed : ok = false → n = none) :
      Made served L h k (ok, n, l, m) (ok, tree, l)

/-- The same for a call that is made when there are the nodes `A` besides. -/
inductive MadeBeside (served : Nat → Request → Bool) (L : List Nat) (h : Heap Cell) (m : Mem)
    (A : List Nat) (k : Nat) : Bool × Ptr × Lexer × Mem → Bool × Node × Lexer → Prop where
  | mk {ok : Bool} {n : Ptr} {tree : Node} {l : Lexer} {m' : Mem} {ids : List Nat} (ha : l.AtRune)
      (hk : tokensLeft l ≤ k) (ho : Owns served L h m' (ids ++ A))
      (hold : Holds m'.heap.cells n tree ids) (hsame : SameCells A m.heap m'.heap) :
      MadeBeside served L h m A k (ok, n, l, m') (ok, tree, l)

abbrev Along (served : Nat → Request → Bool) (L : List Nat) (h : Heap Cell) (k : Nat) :
    Res → Parsed → Prop :=
  Follows (AllServed served) Stops (Made served L h k)

section
variable {served : Nat → Request → Bool} {L A B ids : List Nat} {h : Heap Cell} {m m' : Mem}
  {k k' : Nat} {n : Ptr} {tree : Node} {owned : List Ptr} {trees : List Node} {l : Lexer}

theorem Along.mono {x : Res} {y : Parsed} (ha : Along served L h k x y) (hk : k ≤ k') :
    Along served L h k' x y :=
  ha.imp fun _ _ ⟨ha, hk', ho, hold, hfailed⟩ => ⟨ha, hk'.trans hk, ho, hold, hfailed⟩

theorem Along.beside {x : Res} {y : Parsed} (ho : Owns served L h m A)
    (hx : ∀ L', Owns served L' m.heap m [] → Along served L' m.heap k x y) :
    Follows (AllServed served) Stops (MadeBeside served L h m A k) x y := by
  obtain ⟨L', ho', hback⟩ := ho.beside
  refine (hx L' ho').imp ?_
  rintro _ _ ⟨ha, hk, ho1, hold, -⟩
  obtain ⟨ho2, hsame⟩ := hback _ _ ho1
  exact ⟨ha, hk, ho2, hold, hsame⟩

theorem follows_lift {α : Type} {P : α → Prop} {y : Except Stop α} (hy : Returns P y) :
    Follows (AllServed served) Stops (fun a b => a = b ∧ P b) (liftStop y) y := by
  cases y with
  | ok a => exact .ok ⟨rfl, hy⟩
  | error why => exact .error ⟨rfl, hy⟩

theorem along_true (ha : l.AtRune) (hk : tokensLeft l ≤ k) (ho : Owns served L h m ids)
    (hold : Holds m.heap.cells n tree ids) :
    Along served L h k (.ok (true, n, l, m)) (.ok (true, tree, l)) :=
  .ok ⟨ha, hk, ho, hold, fun hf => by cases hf⟩

theorem along_false (ha : l.AtRune) (hk : tokensLeft l ≤ k) (ho : Owns served L h m []) :
    Along served L h k (.ok (false, none, l, m)) (.ok (false, .null, l)) :=
  .ok ⟨ha, hk, ho, .null, fun _ => rfl⟩

/-- The trees that a function has are given back. -/
theorem Owns.freeAll (hold : HoldsAll m.heap.cells owned trees ids)
    (ho : Owns served L h m (ids ++ A)) :
    ∃ m', owned.foldlM (fun m n => nodeFree n m) m = .ok m' ∧ Owns served L h m' A := by
  induction owned generalizing m trees ids with
  | nil =>
    cases hold
    exact ⟨m, rfl, ho⟩
  | cons p owned ih =>
    cases hold with
    | @cons _ _ tree trees ids idss head tail =>
      rw [List.append_assoc] at ho
      obtain ⟨m1, heq1, ho1, hsame1⟩ := ho.free head
      obtain ⟨m2, heq2, ho2⟩ := ih
        (tail.congr fun b hb => hsame1 b (List.mem_append_left A hb)) ho1
      refine ⟨m2, ?_, ho2⟩
      rw [List.foldlM_cons, bind_of_ok heq1]
      exact heq2

theorem along_fail (ha : l.AtRune) (hk : tokensLeft l ≤ k)
    (hold : HoldsAll m.heap.cells owned trees ids) (ho : Owns served L h m ids) :
    Along served L h k (fail owned l m) (.ok (false, .null, l)) := by
  obtain ⟨m', heq, ho'⟩ := Owns.freeAll hold (ho.perm (by rw [List.append_nil]))
  rw [fail, bind_of_ok heq]
  exact along_false ha hk ho'

/-- A node of the type filled in by `f` is the tree. -/
def Builds (type : Walk.NodeType) (f : Cell → Cell) (owned : List Ptr) (trees : List Node)
    (tree : Node) : Prop :=
  ∀ (cells : Nat → Option Cell) (b : Nat) (ids : List Nat), cells b = some (f (Cell.new type)) →
    HoldsAll cells owned trees ids → ∃ ids', (b :: ids).Perm ids' ∧ Holds cells (some b) tree ids'

/-- A node over the trees that a function has, or these are given back. -/
theorem build_cases {type : Walk.NodeType} {f : Cell → Cell}
    (hold : HoldsAll m.heap.cells owned trees ids) (ho : Owns served L h m ids)
    (hnode : Builds type f owned trees tree) :
    (∃ b m' ids', build served type f owned l m = .ok (true, some b, l, m') ∧
      Owns served L h m' ids' ∧ Holds m'.heap.cells (some b) tree ids') ∨
    (∃ m', build served type f owned l m = .ok (false, none, l, m') ∧ Owns served L h m' [] ∧
      ¬ AllServed served) := by
  rw [build]
  rcases ho.node type with ⟨b, hb, ho1, hsame1, hcell⟩ | ⟨hnone, hnot, ho1, hsame1⟩
  · obtain ⟨m2, heq, ho2, hsame2, hcell2⟩ := ho1.write hcell f
    have hsame : SameCells ids m.heap m2.heap := hsame1.trans hsame2
    obtain ⟨ids', hperm, hold'⟩ := hnode _ b _ hcell2 (hold.congr hsame)
    refine .inl ⟨b, m2, ids', ?_, ho2.perm hperm, hold'⟩
    simp only [hb, heq, bind, Except.bind]
    rfl
  · obtain ⟨m2, heq, ho2⟩ := Owns.freeAll (hold.congr hsame1) (ho1.perm (by rw [List.append_nil]))
    refine .inr ⟨m2, ?_, ho2, hnot⟩
    simp only [hnone]
    rw [bind_of_ok heq]
    rfl

theorem along_build {type : Walk.NodeType} {f : Cell → Cell} (ha : l.AtRune)
    (hk : tokensLeft l ≤ k) (hold : HoldsAll m.heap.cells owned trees ids)
    (ho : Owns served L h m ids)
    (hnode : Builds type f owned trees tree) :
    Along served L h k (build served type f owned l m) (.ok (true, tree, l)) := by
  rcases build_cases hold ho hnode with ⟨b, m', ids', heq, ho', hold'⟩ | ⟨m', heq, ho', hnot⟩
  · rw [heq]
    exact along_true ha hk ho' hold'
  · rw [heq]
    exact (along_false ha hk ho').congr fun hall => absurd hall hnot

theorem builds_paren (left : Ptr) (tree : Node) :
    Builds .paren (fun c => { c with left := left }) [left] [tree] (.paren tree) := by
  rintro cells b _ hcell (_ | ⟨hl, _ | _⟩)
  have hnode := Holds.node hcell (fun he => by cases he) hl .null .null .nil
  exact ⟨_, .refl _, hnode⟩

theorem builds_unary (op : Rune) (left : Ptr) (tree : Node) :
    Builds .unary (fun c => { c with op := op, left := left }) [left] [tree] (.unary op tree) := by
  rintro cells b _ hcell (_ | ⟨hl, _ | _⟩)
  have hnode := Holds.node hcell (fun he => by cases he) hl .null .null .nil
  exact ⟨_, .refl _, hnode⟩

theorem builds_call (fn : Ptr) (tree : Node) :
    Builds .call (fun c => { c with left := fn }) [fn] [tree] (.call tree [] none) := by
  rintro cells b _ hcell (_ | ⟨hl, _ | _⟩)
  have hnode := Holds.node hcell (fun he => by cases he) hl .null .null .nil
  exact ⟨_, .refl _, hnode⟩

theorem builds_binary (left right : Ptr) (op : Rune) (l r : Node) :
    Builds .binary (fun c => { c with left := left, right := right, op := op }) [left, right] [l, r]
      (.binary op l r) := by
  rintro cells b _ hcell (_ | ⟨hl, _ | ⟨hr, _ | _⟩⟩)
  have hnode := Holds.node hcell (fun he => by cases he) hl hr .null .nil
  exact ⟨_, .refl _, hnode⟩

/-- Without an `else`. -/
theorem builds_if (left cond : Ptr) (l c : Node) :
    Builds .ifElse (fun cell => { cell with cond := cond, left := left }) [left, cond] [l, c]
      (.ifElse c l .null) := by
  rintro cells b _ hcell (_ | ⟨hl, _ | ⟨hc, _ | _⟩⟩)
  have hnode := Holds.node hcell (fun he => by cases he) hl .null hc .nil
  exact ⟨_, .refl _, hnode⟩

theorem builds_ifElse (left right cond : Ptr) (l r c : Node) :
    Builds .ifElse (fun cell => { cell with cond := cond, left := left, right := right })
      [left, right, cond] [l, r, c] (.ifElse c l r) := by
  rintro cells b _ hcell (_ | ⟨hl, _ | ⟨hr, _ | ⟨hc, _ | _⟩⟩⟩)
  have hnode := Holds.node hcell (fun he => by cases he) hl hr hc .nil
  exact ⟨_, .refl _, hnode⟩

/-- A node with a text only. -/
theorem holds_leaf {cells : Nat → Option Cell} {b : Nat} {type : Walk.NodeType} {s : Option CStr}
    (hcell : cells b = some { Cell.new type with sval := s }) (hknown : type ≠ .unknown) :
    Holds cells (some b) (({ Cell.new type with sval := s } : Cell).tree .null .null .null [])
      [b] :=
  .node hcell hknown .null .null .null .nil

/-- A leaf is made and its text stored. -/
theorem along_leaf {type : Walk.NodeType} {s : Option CStr} (hknown : type ≠ .unknown)
    (ha : l.AtRune) (hk : tokensLeft l ≤ k) {b : Nat} (ho : Owns served L h m [b])
    (hcell : m.heap.cells b = some (Cell.new type))
    (htree : AllServed served →
      tree = ({ Cell.new type with sval := s } : Cell).tree .null .null .null []) :
    Along served L h k (do
      let m ← write b (fun c => { c with sval := s }) m
      return (true, some b, l, m)) (.ok (true, tree, l)) := by
  obtain ⟨m1, heq, ho1, -, hcell1⟩ := ho.write hcell fun c => { c with sval := s }
  rw [bind_of_ok heq]
  refine (along_true ha hk ho1 (holds_leaf hcell1 hknown)).congr fun hall => ?_
  rw [htree hall]

/-- What a function returns that has consumed its token if it succeeds. -/
def Took1 (served : Nat → Request → Bool) (L : List Nat) (h : Heap Cell) (l : Lexer)
    (r : Bool × Ptr × Lexer × Mem) (t : Bool × Node × Lexer) : Prop :=
  Made served L h (tokensLeft l) r t ∧ (r.1 = true → tokensLeft t.2.2 < tokensLeft l)

theorem took1_of_along {x : Res} {y : Parsed} {l1 : Lexer} (hlt : tokensLeft l1 < tokensLeft l)
    (hx : Along served L h (tokensLeft l1) x y) :
    Follows (AllServed served) Stops (Took1 served L h l) x y :=
  hx.imp fun _ _ ⟨ha, hk, ho, hold, hfailed⟩ =>
    ⟨⟨ha, hk.trans hlt.le, ho, hold, hfailed⟩, fun _ => Nat.lt_of_le_of_lt hk hlt⟩

theorem took1_false {l1 : Lexer} (ha : l1.AtRune) (hk : tokensLeft l1 ≤ tokensLeft l)
    (ho : Owns served L h m []) :
    Follows (AllServed served) Stops (Took1 served L h l) (.ok (false, none, l1, m))
      (.ok (false, .null, l1)) :=
  .ok ⟨⟨ha, hk, ho, .null, fun _ => rfl⟩, fun hf => by cases hf⟩

theorem num_along (ha : l.AtRune) (ho : Owns served L h m []) :
    Follows (AllServed served) Stops (Took1 served L h l) (num served l m) (Libsd.num l) := by
  refine (follows_lift (consumeIf_took ha _)).bind ?_
  rintro ⟨o, l1⟩ _ ⟨rfl, htook⟩
  cases o with
  | none => exact took1_false htook.atRune htook.none.le ho
  | some t =>
    have hlt : tokensLeft l1 < tokensLeft l := Nat.lt_of_succ_le htook.one.le
    refine took1_of_along hlt ?_
    rcases ho.node .floatlit with ⟨b, hb, ho1, -, hcell⟩ | ⟨hnone, hnot, ho1, -⟩
    · have ho2 : Owns served L h (strdup served t.start (node served .floatlit m).2).2 [b] := ho1
      simp only [hb]
      refine along_leaf (by decide) htook.atRune (Nat.le_refl _) ho2 hcell fun hall => ?_
      rw [strdup, if_pos (hall _ _)]
      rfl
    · simp only [hnone]
      exact (along_false htook.atRune (Nat.le_refl _) ho1).congr fun hall => absurd hall hnot

theorem ident_along (ha : l.AtRune) (ho : Owns served L h m []) :
    Follows (AllServed served) Stops (Took1 served L h l) (ident served l m) (Libsd.ident l) := by
  refine (follows_lift (consumeIf_took ha _)).bind ?_
  rintro ⟨o, l1⟩ _ ⟨rfl, htook⟩
  cases o with
  | none => exact took1_false htook.atRune htook.none.le ho
  | some t =>
    have hlt : tokensLeft l1 < tokensLeft l := Nat.lt_of_succ_le htook.one.le
    refine took1_of_along hlt ?_
    rcases ho.node .ident with ⟨b, hb, ho1, -, hcell⟩ | ⟨hnone, hnot, ho1, -⟩
    · have ho2 : Owns served L h (strdup served t.start (node served .ident m).2).2 [b] := ho1
      have hleaf : ∀ (s : Option CStr) (tree : Node), (AllServed served →
          tree = ({ Cell.new .ident with sval := s } : Cell).tree .null .null .null []) → _ :=
        fun s tree htree =>
          along_leaf (by decide) htook.atRune (Nat.le_refl (tokensLeft l1)) ho2 hcell htree
      simp only [hb, canonicalizeCopy]
      cases hcopy : (strdup served t.start (node served .ident m).2).1 with
      | none =>
        -- the copy has been refused, and the name stays NULL
        have hnot : ¬ AllServed served := by
          intro hall
          rw [strdup, if_pos (hall _ _)] at hcopy
          cases hcopy
        exact (hleaf none (.ident [] none) fun _ => rfl).congr fun hall => absurd hall hnot
      | some s =>
        obtain rfl : t.start = s := by
          rw [strdup] at hcopy
          split at hcopy
          · exact Option.some.inj hcopy
          · cases hcopy
        dsimp only
        cases canonicalize t.start with
        | none =>
          have hstops : Stops (.stop (.undefined .outOfBounds)) (.undefined .outOfBounds) :=
            ⟨rfl, by decide⟩
          exact Follows.error hstops
        | some name => exact hleaf (some name) _ fun _ => rfl
    · simp only [hnone]
      exact (along_false htook.atRune (Nat.le_refl _) ho1).congr fun hall => absurd hall hnot

theorem Cell.tree_call {c : Cell} {left right cond fn : Node} {args args' : List Node}
    (heq : c.tree left right cond args = .call fn args' none) :
    c.type = .call ∧ left = fn ∧ args = args' := by
  rw [Cell.tree] at heq
  split at heq <;> cases heq
  next htype => exact ⟨htype, rfl, rfl⟩

theorem HoldsAll.append {cells : Nat → Option Cell} {ps qs : List Ptr} {ns ts : List Node}
    {ids ids' : List Nat} (hp : HoldsAll cells ps ns ids) (hq : HoldsAll cells qs ts ids') :
    HoldsAll cells (ps ++ qs) (ns ++ ts) (ids ++ ids') := by
  induction ps generalizing ns ids with
  | nil =>
    cases hp
    exact hq
  | cons p ps ih =>
    cases hp with
    | cons head tail =>
      rw [List.append_assoc]
      exact .cons head (ih tail)

/-- A refused request leaves no arguments. -/
theorem contents_refused {n : Nat} {s : Slice Ptr} {e : Ptr} {r : Appended Ptr}
    {requests : Nat → Bool} (hr : Appends requests n s e r) (herr : r.err ≠ none) :
    contents r.slice = [] := by
  cases hr with
  | room => exact absurd rfl herr
  | first => exact absurd rfl herr
  | grown => exact absurd rfl herr
  | firstRefused h0 hserved =>
    have hle := s.len_le
    have hlen : (contents s).length = s.len := length_contents s
    have hempty : contents s = [] := List.eq_nil_of_length_eq_zero (by omega)
    exact hempty
  | grownRefused => rfl

/-- An argument more, or, when its array cannot grow, none. -/
theorem appendArg_holds {x : Nat} {fn arg : Node} {args : List Node} {p : Ptr} {argIds : List Nat}
    (hcall : Holds m.heap.cells (some x) (.call fn args none) ids)
    (harg : Holds m.heap.cells p arg argIds) (ho : Owns served L h m (argIds ++ ids)) :
    ∃ m' args' ids', appendArg served x p m = .ok m' ∧ Owns served L h m' ids' ∧
      Holds m'.heap.cells (some x) (.call fn args' none) ids' ∧
      (AllServed served → args' = args ++ [arg]) := by
  generalize htree : Node.call fn args none = tree at hcall
  cases hcall with
  | @node _ c left right cond args ls rs cs as cell known hl hr hc ha =>
    obtain ⟨htype, rfl, rfl⟩ := Cell.tree_call htree.symm
    have happends := sliceAppend_spec (fun k => served k .array) m.allocs c.args p
    generalize hslice : sliceAppend (fun k => served k .array) m.allocs c.args p = r at happends
    have ho : Owns served L h m (x :: (ls ++ (rs ++ (cs ++ (as ++ argIds))))) := ho.perm (by
      rw [List.perm_iff_count]
      intro y
      simp only [List.count_append, List.count_cons]
      omega)
    obtain ⟨m1, heq, ho1, hsame, hcell⟩ := ho.write cell fun c => { c with args := r.slice }
    have heq' : appendArg served x p m = .ok { m1 with allocs := r.allocs } := by
      simp only [appendArg, cell, hslice, heq, bind, Except.bind, pure, Except.pure]
    have hl1 : Holds m1.heap.cells c.left left ls := hl.congr fun b hb => hsame b (by simp [hb])
    have hr1 : Holds m1.heap.cells c.right right rs := hr.congr fun b hb => hsame b (by simp [hb])
    have hc1 : Holds m1.heap.cells c.cond cond cs := hc.congr fun b hb => hsame b (by simp [hb])
    have ha1 : HoldsAll m1.heap.cells (contents c.args) args as :=
      ha.congr fun b hb => hsame b (by simp [hb])
    have harg1 : Holds m1.heap.cells p arg argIds :=
      harg.congr fun b hb => hsame b (by simp [hb])
    have htree' : ∀ args, ({ c with args := r.slice } : Cell).tree left right cond args =
        .call left args none := by
      intro args
      simp only [Cell.tree, htype]
    by_cases herr : r.err = none
    · have hcontents := happends.contents_of_err herr
      have hall :
          HoldsAll m1.heap.cells (contents r.slice) (args ++ [arg]) (as ++ (argIds ++ [])) :=
        hcontents ▸ ha1.append (.cons harg1 .nil)
      have hnode := Holds.node hcell known hl1 hr1 hc1 hall
      rw [htree', List.append_nil] at hnode
      exact ⟨_, _, _, heq', ho1, hnode, fun _ => rfl⟩
    · have hcontents := contents_refused happends herr
      have hserved := (happends.refused_of_err herr).1
      have hall : HoldsAll m1.heap.cells (contents r.slice) [] [] := hcontents ▸ .nil
      have hnode := Holds.node hcell known hl1 hr1 hc1 hall
      rw [htree', List.append_nil] at hnode
      have hloss : ¬ NoLoss served := fun hn => by
        rw [hn m.allocs] at hserved
        cases hserved
      have ho2 : Owns served L h m1 (x :: (ls ++ (rs ++ cs))) := by
        refine Owns.lose hloss (B := as ++ argIds) (ho1.perm ?_)
        rw [List.perm_iff_count]
        intro y
        simp only [List.count_append, List.count_cons]
        omega
      exact ⟨_, _, _, heq', ho2, hnode, fun hall => absurd (fun k => hall k .array) hloss⟩

theorem HoldsAll.one {cells : Nat → Option Cell} (hold : Holds cells n tree ids) :
    HoldsAll cells [n] [tree] ids := by
  have hall := HoldsAll.cons hold .nil
  rwa [List.append_nil] at hall

theorem HoldsAll.two {cells : Nat → Option Cell} {n' : Ptr} {tree' : Node}
    (hold : Holds cells n tree ids) (hold' : Holds cells n' tree' A) :
    HoldsAll cells [n, n'] [tree, tree'] (ids ++ A) :=
  .cons hold (.one hold')

theorem HoldsAll.three {cells : Nat → Option Cell} {n' n'' : Ptr} {tree' tree'' : Node}
    (hold : Holds cells n tree ids) (hold' : Holds cells n' tree' A)
    (hold'' : Holds cells n'' tree'' B) :
    HoldsAll cells [n, n', n''] [tree, tree', tree''] (ids ++ (A ++ B)) :=
  .cons hold (.two hold' hold'')

theorem Holds.isNull {cells : Nat → Option Cell} (hold : Holds cells n tree ids) :
    n.isNone = tree.isNull := by
  cases hold with
  | null => rfl
  | @node _ c _ _ _ _ _ _ _ _ _ known =>
    rw [Cell.tree]
    split
    · next htype => exact absurd htype known
    all_goals rfl

theorem Holds.of_none {cells : Nat → Option Cell} (hold : Holds cells none tree ids) :
    ids = [] := by
  cases hold
  rfl

end

/-! ### The parsing functions -/

/-- A call of the parser over nodes in memory, and the one over trees that it goes along with. -/
inductive Entered (served : Nat → Request → Bool) (L : List Nat) (h : Heap Cell) (m : Mem) :
    MemCall → ParseCall → Prop where
  | expr {level : Fin MAX_BINARY} (ho : Owns served L h m []) :
      Entered served L h m (.expr level) (.expr level)
  | exprLoop {level : Fin MAX_BINARY} {p : Ptr} {lhs : Node} {ids : List Nat}
      (ho : Owns served L h m ids) (hold : Holds m.heap.cells p lhs ids) :
      Entered served L h m (.exprLoop level p) (.exprLoop level lhs)
  | fact (ho : Owns served L h m []) : Entered served L h m .fact .fact
  | call {p : Ptr} {fn : Node} {ids : List Nat} (ho : Owns served L h m ids)
      (hold : Holds m.heap.cells p fn ids) : Entered served L h m (.call p) (.call fn)
  | callLoop {x : Nat} {fn : Node} {args : List Node} {ids : List Nat} (ho : Owns served L h m ids)
      (hold : Holds m.heap.cells (some x) (.call fn args none) ids) :
      Entered served L h m (.callLoop x) (.callLoop fn args)

/-- The calls below `x` go along with those over trees. -/
def AlongBelow (served : Nat → Request → Bool) (F : MemCall → Lexer → Mem → Res)
    (G : ParseCall × Lexer → Parsed) (x : ParseCall × Lexer) : Prop :=
  ∀ {mc : MemCall} {c : ParseCall} {l : Lexer} {m : Mem} {L : List Nat} {h : Heap Cell},
    Entered served L h m mc c → l.AtRune → CallBelow (c, l) x →
      Along served L h (tokensLeft l) (F mc l m) (G (c, l))

section
variable {served : Nat → Request → Bool} {L A ids : List Nat} {h : Heap Cell} {m : Mem}
  {k : Nat} {n : Ptr} {tree : Node} {l : Lexer} {F : MemCall → Lexer → Mem → Res}
  {G : ParseCall × Lexer → Parsed} {x : ParseCall × Lexer} (hbelow : AlongBelow served F G x)
include hbelow

theorem operand_along {level : Fin MAX_BINARY} (ha : l.AtRune) (hk : tokensLeft l ≤ k)
    (ho : Owns served L h m [])
    (hless : ∀ c : ParseCall, c.levels < MAX_BINARY - level → CallBelow (c, l) x) :
    Along served L h k (operand F level l m) (operandBody G level l) := by
  have hlevel := level.isLt
  rw [operand, operandBody]
  split
  · refine (hbelow (.fact ho) ha (hless _ ?_)).mono hk
    rw [ParseCall.levels]
    omega
  · refine (hbelow (.expr ho) ha (hless _ ?_)).mono hk
    simp only [ParseCall.levels]
    omega

/-- Level 0, behind a token. -/
theorem phrase_along (hlt : k < tokensLeft x.2) (ha : l.AtRune) (hk : tokensLeft l ≤ k)
    (ho : Owns served L h m []) : Along served L h k (phrase F l m) (phraseBody G l) := by
  refine (hbelow (.expr ho) ha (below_of_lt ?_)).mono hk
  have hlevels : (ParseCall.expr ⟨0, by decide⟩).levels = 8 := rfl
  rw [hlevels]
  dsimp only
  omega

theorem expr_along {level : Fin MAX_BINARY} (hx : x = (.expr level, l)) (ha : l.AtRune)
    (ho : Owns served L h m []) :
    Along served L h (tokensLeft l) (expr F level l m) (exprBody G level l) := by
  subst hx
  have hlevel := level.isLt
  refine (follows_lift (lexerPeek_tokensLeft ha)).bind ?_
  rintro ⟨o, l1⟩ _ ⟨rfl, ha1, hcount, -⟩
  cases o with
  | none => exact along_true ha1 hcount.le ho .null
  | some t =>
    have hless : ∀ c p, tokensLeft p ≤ tokensLeft l → c.levels < MAX_BINARY - level →
        CallBelow (c, p) (.expr level, l) := fun c p hp hc => below_of_le hp hc
    refine (operand_along hbelow ha1 hcount.le ho fun c hc => hless c l1 hcount.le hc).bind ?_
    rintro _ _ ⟨ha2, hk2, ho2, hold, -⟩
    rename_i ok lhs tree l2 m2 ids
    cases ok with
    | false => exact along_fail ha2 hk2 (.one hold) ho2
    | true =>
      refine (hbelow (.exprLoop ho2 hold) ha2 (hless _ _ hk2 ?_)).mono hk2
      rw [ParseCall.levels]
      omega

theorem exprLoop_along {level : Fin MAX_BINARY} (hx : x = (.exprLoop level tree, l))
    (ha : l.AtRune) (ho : Owns served L h m ids) (hold : Holds m.heap.cells n tree ids) :
    Along served L h (tokensLeft l) (exprLoop served F level n l m)
      (exprLoopBody G level tree l) := by
  subst hx
  refine (follows_lift (consumeAnyLoop_took ha _)).bind ?_
  rintro ⟨op, l1⟩ _ ⟨rfl, htook⟩
  cases op with
  | none => exact along_true htook.atRune htook.none.le ho hold
  | some op =>
    -- a turn has taken its operator
    have hone := htook.one
    dsimp only at hone
    have h8 : MAX_BINARY = 8 := rfl
    have hoperand : ∀ L', Owns served L' m.heap m [] →
        Along served L' m.heap (tokensLeft l1) (operand F level l1 m) (operandBody G level l1) := by
      refine fun L' ho' => operand_along hbelow htook.atRune (Nat.le_refl _) ho' fun c hc =>
        below_of_lt ?_
      dsimp only
      omega
    refine (Along.beside ho hoperand).bind ?_
    rintro _ _ ⟨ha2, hk2, ho2, hold2, hsame⟩
    rename_i ok rhs tree2 l2 m2 ids2
    have hall : HoldsAll m2.heap.cells [n, rhs] [tree, tree2] (ids ++ ids2) :=
      .two (hold.congr hsame) hold2
    have ho2 := ho2.perm List.perm_append_comm
    dsimp only
    rw [hold2.isNull]
    cases !ok || tree2.isNull with
    | true => exact along_fail ha2 (by omega) hall ho2
    | false =>
      rcases build_cases hall ho2 (builds_binary n rhs op tree tree2) with
        ⟨b, m3, ids3, heq, ho3, hold3⟩ | ⟨m3, heq, ho3, hnot⟩
      · rw [if_neg (by decide), bind_of_ok heq]
        refine (hbelow (.exprLoop ho3 hold3) ha2 (below_of_lt ?_)).mono (by omega)
        simp only [ParseCall.levels]
        omega
      · rw [if_neg (by decide), bind_of_ok heq]
        exact (along_false ha2 (by omega) ho3).congr fun hserved => absurd hserved hnot

theorem factParen_along (hlt : k < tokensLeft x.2) (ha : l.AtRune) (hk : tokensLeft l ≤ k)
    (ho : Owns served L h m []) :
    Along served L h k (factParen served F l m) (factParenBody G l) := by
  refine (phrase_along hbelow hlt ha hk ho).bind ?_
  rintro _ _ ⟨ha1, hk1, ho1, hold, -⟩
  rename_i ok n tree l1 m1 ids
  cases ok with
  | false => exact along_fail ha1 hk1 (.one hold) ho1
  | true =>
    refine (follows_lift (consumeTok_took ha1 _)).bind ?_
    rintro ⟨close, l2⟩ _ ⟨rfl, htook⟩
    cases close with
    | false => exact along_fail htook.atRune (htook.none.le.trans hk1) (.one hold) ho1
    | true =>
      have hk2 : tokensLeft l2 ≤ k := (Nat.le_of_succ_le htook.one.le).trans hk1
      exact along_build htook.atRune hk2 (.one hold) ho1 (builds_paren n tree)

theorem factUnary_along (op : Rune) (hlt : k < tokensLeft x.2) (ha : l.AtRune)
    (hk : tokensLeft l ≤ k) (ho : Owns served L h m []) :
    Along served L h k (factUnary served F op l m) (factUnaryBody G op l) := by
  refine (phrase_along hbelow hlt ha hk ho).bind ?_
  rintro _ _ ⟨ha1, hk1, ho1, hold, -⟩
  rename_i ok n tree l1 m1 ids
  cases ok with
  | false => exact along_fail ha1 hk1 (.one hold) ho1
  | true => exact along_build ha1 hk1 (.one hold) ho1 (builds_unary op n tree)

theorem factThen_along (hlt : k < tokensLeft x.2) (ha : l.AtRune) (hk : tokensLeft l ≤ k)
    (ho : Owns served L h m ids) (hold : Holds m.heap.cells n tree ids) :
    Along served L h k (factThen served F n l m) (factThenBody G tree l) := by
  refine (Along.beside ho fun L' ho' => phrase_along hbelow hlt ha hk ho').bind ?_
  rintro _ _ ⟨ha1, hk1, ho1, hold1, hsame1⟩
  rename_i ok n1 tree1 l1 m1 ids1
  have hc1 := hold.congr hsame1
  dsimp only
  rw [hold1.isNull]
  cases !ok || tree1.isNull with
  | true => exact along_fail ha1 hk1 (.two hold1 hc1) ho1
  | false =>
    refine (follows_lift (consumeReserved_took ha1 _)).bind ?_
    rintro ⟨els, l2⟩ _ ⟨rfl, htook⟩
    cases els with
    | false =>
      exact along_build htook.atRune (htook.none.le.trans hk1) (.two hold1 hc1) ho1
        (builds_if n1 n tree1 tree)
    | true =>
      have hk2 : tokensLeft l2 ≤ k := (Nat.le_of_succ_le htook.one.le).trans hk1
      refine (Along.beside ho1 fun L' ho' => phrase_along hbelow hlt htook.atRune hk2 ho').bind ?_
      rintro _ _ ⟨ha3, hk3, ho3, hold3, hsame3⟩
      rename_i ok3 n3 tree3 l3 m3 ids3
      have hl3 := hold1.congr fun b hb => hsame3 b (List.mem_append_left ids hb)
      have hc3 := hc1.congr fun b hb => hsame3 b (List.mem_append_right ids1 hb)
      have ho3 : Owns served L h m3 (ids1 ++ (ids3 ++ ids)) := ho3.perm (by
        rw [List.perm_iff_count]
        intro y
        simp only [List.count_append]
        omega)
      have hall : HoldsAll m3.heap.cells [n1, n3, n] [tree1, tree3, tree] (ids1 ++ (ids3 ++ ids)) :=
        .three hl3 hold3 hc3
      dsimp only
      rw [hold3.isNull]
      cases !ok3 || tree3.isNull with
      | true => exact along_fail ha3 hk3 hall ho3
      | false => exact along_build ha3 hk3 hall ho3 (builds_ifElse n1 n3 n tree1 tree3 tree)

theorem factIf_along (hlt : k < tokensLeft x.2) (ha : l.AtRune) (hk : tokensLeft l ≤ k)
    (ho : Owns served L h m []) :
    Along served L h k (factIf served F l m) (factIfBody G l) := by
  refine (phrase_along hbelow hlt ha hk ho).bind ?_
  rintro _ _ ⟨ha1, hk1, ho1, hold, -⟩
  rename_i ok n tree l1 m1 ids
  cases ok with
  | false => exact along_fail ha1 hk1 (.one hold) ho1
  | true =>
    refine (follows_lift (consumeReserved_took ha1 _)).bind ?_
    rintro ⟨thn, l2⟩ _ ⟨rfl, htook⟩
    cases thn with
    | false => exact along_fail htook.atRune (htook.none.le.trans hk1) (.one hold) ho1
    | true =>
      have hk2 : tokensLeft l2 ≤ k := (Nat.le_of_succ_le htook.one.le).trans hk1
      exact factThen_along hbelow hlt htook.atRune hk2 ho1 hold

/-- A call has its name and the parenthesis behind it. -/
theorem factName_along (hlt : k < tokensLeft x.2) (ha : l.AtRune) (hk : tokensLeft l ≤ k)
    (ho : Owns served L h m ids) (hold : Holds m.heap.cells n tree ids) :
    Along served L h k (factName F n l m) (factNameBody G tree l) := by
  refine (follows_lift (consumeTok_took ha _)).bind ?_
  rintro ⟨paren, l1⟩ _ ⟨rfl, htook⟩
  cases paren with
  | false => exact along_true htook.atRune (htook.none.le.trans hk) ho hold
  | true =>
    have hone := htook.one
    dsimp only at hone
    have hk1 : tokensLeft l1 ≤ k := by omega
    refine (hbelow (.call ho hold) htook.atRune (below_of_lt ?_)).mono hk1
    have hlevels := (ParseCall.call tree).levels_le
    dsimp only
    omega

theorem fact_along (hx : x = (.fact, l)) (ha : l.AtRune) (ho : Owns served L h m []) :
    Along served L h (tokensLeft l) (fact served F l m) (factBody G l) := by
  have hless : ∀ {l1 l2 : Lexer}, Took true l1 l2 → tokensLeft l1 ≤ tokensLeft l →
      tokensLeft l2 < tokensLeft x.2 := by
    intro l1 l2 hr hle
    subst hx
    exact (Nat.lt_of_succ_le hr.one.le).trans_le hle
  have hle : ∀ {k : Nat}, k < tokensLeft x.2 → k ≤ tokensLeft l := by
    intro k hk
    subst hx
    exact hk.le
  refine (follows_lift (consumeTok_took ha _)).bind ?_
  rintro ⟨paren, l1⟩ _ ⟨rfl, h1⟩
  cases paren with
  | true =>
    have hlt := hless h1 (Nat.le_refl _)
    exact (factParen_along hbelow hlt h1.atRune (Nat.le_refl _) ho).mono (hle hlt)
  | false =>
    refine (follows_lift (consumeAnyLoop_took h1.atRune _)).bind ?_
    rintro ⟨op, l2⟩ _ ⟨rfl, h2⟩
    cases op with
    | some op =>
      have hlt := hless h2 h1.none.le
      exact (factUnary_along hbelow op hlt h2.atRune (Nat.le_refl _) ho).mono (hle hlt)
    | none =>
      have hk2 := (h2.none.trans h1.none).le
      refine (num_along h2.atRune ho).bind ?_
      rintro _ _ ⟨⟨ha3, hk3, ho3, hold3, hnone⟩, -⟩
      rename_i isNum n tree l3 m3 ids3
      cases isNum with
      | true => exact along_true ha3 (hk3.trans hk2) ho3 hold3
      | false =>
        -- a token may be gone, when there is no node for it
        obtain rfl := hnone rfl
        obtain rfl := hold3.of_none
        have hk3 := hk3.trans hk2
        refine (follows_lift (consumeReserved_took ha3 _)).bind ?_
        rintro ⟨iff, l4⟩ _ ⟨rfl, h4⟩
        cases iff with
        | true =>
          have hlt := hless h4 hk3
          exact (factIf_along hbelow hlt h4.atRune (Nat.le_refl _) ho3).mono (hle hlt)
        | false =>
          have hk4 := h4.none.le.trans hk3
          refine (ident_along h4.atRune ho3).bind ?_
          rintro _ _ ⟨⟨ha5, hk5, ho5, hold5, hnone⟩, htook⟩
          rename_i isIdent n tree l5 m5 ids5
          cases isIdent with
          | true =>
            have hlt : tokensLeft l5 < tokensLeft x.2 := by
              subst hx
              exact (htook rfl).trans_le hk4
            exact (factName_along hbelow hlt ha5 (Nat.le_refl _) ho5 hold5).mono (hle hlt)
          | false =>
            obtain rfl := hnone rfl
            obtain rfl := hold5.of_none
            exact along_false ha5 (hk5.trans hk4) ho5

theorem call_along (hx : x = (.call tree, l)) (ha : l.AtRune) (ho : Owns served L h m ids)
    (hold : Holds m.heap.cells n tree ids) :
    Along served L h (tokensLeft l) (call served F n l m) (callBody G tree l) := by
  subst hx
  rw [call]
  rcases build_cases (l := l) (.one hold) ho (builds_call n tree) with
    ⟨b, m1, ids1, heq, ho1, hold1⟩ | ⟨m1, heq, ho1, hnot⟩
  · rw [bind_of_ok heq]
    refine (follows_lift (consumeTok_took ha _)).bind ?_
    rintro ⟨close, l1⟩ _ ⟨rfl, htook⟩
    cases close with
    | true => exact along_true htook.atRune (Nat.le_of_succ_le htook.one.le) ho1 hold1
    | false =>
      have hk := htook.none.le
      have hless : CallBelow (.callLoop tree [], l1) (.call tree, l) :=
        below_of_le hk (Nat.lt_succ_self _)
      exact (hbelow (.callLoop ho1 hold1) htook.atRune hless).mono hk
  · rw [bind_of_ok heq]
    exact (along_false ha (Nat.le_refl _) ho1).congr fun hserved => absurd hserved hnot

theorem callLoop_along {b : Nat} {fn : Node} {args : List Node} (hx : x = (.callLoop fn args, l))
    (ha : l.AtRune) (ho : Owns served L h m ids)
    (hold : Holds m.heap.cells (some b) (.call fn args none) ids) :
    Along served L h (tokensLeft l) (callLoop served F b l m) (callLoopBody G fn args l) := by
  subst hx
  have hphrase : ∀ L', Owns served L' m.heap m [] →
      Along served L' m.heap (tokensLeft l) (phrase F l m) (phraseBody G l) :=
    fun L' ho' => hbelow (.expr ho') ha (below_of_le (Nat.le_refl _) (Nat.lt_succ_self _))
  refine (Along.beside ho hphrase).bind ?_
  rintro _ _ ⟨ha1, hk1, ho1, hold1, hsame1⟩
  rename_i ok arg tree1 l1 m1 ids1
  have hcall1 := hold.congr hsame1
  cases ok with
  | false => exact along_fail ha1 hk1 (.two hold1 hcall1) ho1
  | true =>
    obtain ⟨m2, args2, ids2, heq, ho2, hold2, hargs⟩ := appendArg_holds hcall1 hold1 ho1
    dsimp only
    rw [if_neg (by decide), bind_of_ok heq]
    refine Follows.congr (y := do
      let (ok, p) ← consumeTok l1 (rune ',')
      if ok then G (.callLoop fn args2, p)
      else
        let (ok, p) ← consumeTok p (rune ')')
        if ok then return (true, .call fn args2 none, p)
        return (false, .null, p)) ?_ fun hserved => by rw [hargs hserved]; rfl
    refine (follows_lift (consumeTok_took ha1 _)).bind ?_
    rintro ⟨comma, l2⟩ _ ⟨rfl, h2⟩
    cases comma with
    | true =>
      -- the next turn is behind the comma
      have hlt : tokensLeft l2 < tokensLeft l := (Nat.lt_of_succ_le h2.one.le).trans_le hk1
      have hsame : 10 * tokensLeft l2 < 10 * tokensLeft l :=
        Nat.mul_lt_mul_of_pos_left hlt (by decide)
      exact (hbelow (.callLoop ho2 hold2) h2.atRune
        ⟨smaller_iff.mpr (.inl hlt), Nat.add_lt_add_right hsame _⟩).mono hlt.le
    | false =>
      refine (follows_lift (consumeTok_took h2.atRune _)).bind ?_
      rintro ⟨close, l3⟩ _ ⟨rfl, h3⟩
      have hk2 := h2.none.le.trans hk1
      cases close with
      | true =>
        exact along_true h3.atRune ((Nat.le_of_succ_le h3.one.le).trans hk2) ho2 hold2
      | false => exact along_fail h3.atRune (h3.none.le.trans hk2) (.one hold2) ho2

theorem body_along {mc : MemCall} {c : ParseCall} (hx : x = (c, l))
    (he : Entered served L h m mc c) (ha : l.AtRune) :
    Along served L h (tokensLeft l) (body served F mc l m) (parseBody G (c, l)) := by
  cases he with
  | expr ho => exact expr_along hbelow hx ha ho
  | exprLoop ho hold => exact exprLoop_along hbelow hx ha ho hold
  | fact ho => exact fact_along hbelow hx ha ho
  | call ho hold => exact call_along hbelow hx ha ho hold
  | callLoop ho hold => exact callLoop_along hbelow hx ha ho hold

end

/-- With fuel for the parser over trees there is enough for the one over nodes in memory. -/
theorem run_along {served : Nat → Request → Bool} (fuel : Nat) {mc : MemCall} {c : ParseCall}
    {l : Lexer} {m : Mem} {L : List Nat} {h : Heap Cell} (he : Entered served L h m mc c)
    (ha : l.AtRune) (hfuel : weight (c, l) < fuel) :
    Along served L h (tokensLeft l) (run served fuel mc l m) (parseRun fuel (c, l)) := by
  induction fuel generalizing mc c l m L h with
  | zero => exact absurd hfuel (Nat.not_lt_zero _)
  | succ fuel ih =>
    rw [run, parseRun_succ]
    refine body_along (fun he' ha' hbelow => ih he' ha' ?_) rfl he ha
    exact Nat.lt_of_lt_of_le hbelow.2 (Nat.le_of_lt_succ hfuel)

/-! ### The parser -/

section
variable (served : Nat → Request → Bool) (L : List Nat) (h : Heap Cell) (eqn : CStr)

/-- `avar_eqn_parse` is back: it has no nodes any more, or those of the tree, which `node_free`
    can free. -/
inductive Returned : Option Ptr × Mem → Prop where
  | failed {m : Mem} (owns : Owns served L h m [])
      (same : AllServed served → Libsd.avarEqnParse eqn = .error (.err .unspecified)) :
      Returned (none, m)
  | tree {n : Ptr} {m : Mem} {tree : Node} {ids : List Nat} (owns : Owns served L h m ids)
      (holds : Holds m.heap.cells n tree ids)
      (frees : ∃ m', nodeFree n m = .ok m' ∧ Owns served L h m' [])
      (same : AllServed served → Libsd.avarEqnParse eqn = .ok tree) :
      Returned (some n, m)

/-- It is not back, and no node is to blame. -/
inductive Stuck : Crash → Prop where
  | stop {why : Stop} (ends : why ≠ .diverge)
      (same : AllServed served → Libsd.avarEqnParse eqn = .error why) : Stuck (.stop why)

end

/-- Whatever the allocator refuses of the parser's own requests, and whatever nodes there are
    beside. -/
theorem avarEqnParse_owns (served : Nat → Request → Bool) (eqn : CStr) {m : Mem} {L : List Nat}
    (hr : m.heap.Region L) :
    Ends (Returned served L m.heap eqn) (Stuck served eqn) (avarEqnParse served eqn m) := by
  rw [avarEqnParse]
  cases hl : lexerInit eqn with
  | error why =>
    have hsame : Libsd.avarEqnParse eqn = .error why := by
      rw [Libsd.avarEqnParse, hl]
      rfl
    have hends : why ≠ .diverge := (avarEqnParse_returns eqn).of_error hsame
    exact .stop hends fun _ => hsame
  | ok l =>
    obtain ⟨htpeek, -, ha⟩ := lexerInit_spec hl
    have hrun : Along served L m.heap (tokensLeft l)
        (run served (parseFuel l) (.expr ⟨0, topLevel_lt⟩) l m)
        (parseRun (parseFuel l) (.expr ⟨0, by decide⟩, l)) :=
      run_along (parseFuel l) (.expr (.start hr)) ha (weight_phrase ha htpeek)
    have hparse : ∀ {r : Parsed}, parseRun (parseFuel l) (.expr ⟨0, by decide⟩, l) = r →
        Libsd.avarEqnParse eqn =
          r >>= fun t => if t.1 then .ok t.2.1 else .error (.err .unspecified) := by
      rintro _ rfl
      rw [Libsd.avarEqnParse, hl]
      rfl
    have hlift : liftStop (.ok l) = .ok l := rfl
    rw [bind_of_ok hlift]
    refine Ends.bind (Ends.imp hrun (fun _ hr => hr) ?_) ?_
    · rintro _ ⟨why, ⟨rfl, hends⟩, hsame⟩
      exact .stop hends fun hall => hparse (hsame hall)
    · rintro _ ⟨_, ⟨-, -, ho, hold, hfailed⟩, hsame⟩
      rename_i ok n tree l1 m1 ids
      cases ok with
      | true =>
        have ho' : Owns served L m.heap m1 (ids ++ []) := ho.perm (by rw [List.append_nil])
        obtain ⟨m2, heq, ho2, -⟩ := ho'.free hold
        exact .tree ho hold ⟨m2, heq, ho2⟩ fun hall => hparse (hsame hall)
      | false =>
        obtain rfl := hfailed rfl
        obtain rfl := hold.of_none
        exact .failed ho fun hall => hparse (hsame hall)

def Mem.empty : Mem := { heap := Heap.empty, allocs := 0 }

/-- A call whose arguments get no array. -/
theorem avarEqnParse_owns_call :
    Ends (Returned (fun _ r => r != .array) [] Heap.empty (cstr "f(a, b)"))
      (Stuck (fun _ r => r != .array) (cstr "f(a, b)"))
      (avarEqnParse (fun _ r => r != .array) (cstr "f(a, b)") Mem.empty) :=
  avarEqnParse_owns _ _ Heap.Region.empty

-- the tree consists of two nodes, and two more are lost
example :
    (match avarEqnParse (fun _ r => r != .array) (cstr "f(a, b)") Mem.empty with
      | .ok (n, m) => (n, (List.range 5).filter fun b => (m.heap.cells b).isSome)
      | .error _ => (none, [])) = (some (some 1), [0, 1, 2, 3]) := by
  decide +kernel

end Libsd.ParserMemory

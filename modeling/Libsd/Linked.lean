/-
  Libsd/Linked.lean
  =================
  **What the walker makes of a parsed equation.**

  `visit` puts the number into each literal, the `AVar` into each identifier and
  the runtime function into each call, and collects the `AVar`s it found
  (`visit_spec`).  The value of the result depends on the variables it collected
  and nothing else (`svisit_congr`).
-/
import Libsd.InstancePaths
import Libsd.Lib.Outcome
import Libsd.Sim

namespace Libsd

open Outcome

namespace Node

mutual
/-- A parsed tree with its pointers and numbers filled in; `find` resolves a name. -/
def link (find : CStr → Option Path) : Node → Node
  | null => null
  | paren l => paren (link find l)
  | floatlit s _ => floatlit s (atof s)
  | ident s _ => ident s (find s)
  | call l args _ => call l (linkArgs find args) (l.sval.bind fun s => RT_FNS.lookup s)
  | binary op l r => binary op (link find l) (link find r)
  | unary op l => unary op (link find l)
  | ifElse c l r => ifElse (link find c) (link find l) (link find r)

def linkArgs (find : CStr → Option Path) : List Node → List Node
  | [] => []
  | a :: args => link find a :: linkArgs find args
end

mutual
/-- The variables a tree refers to; the walker visits a condition before the branches. -/
def idents : Node → List Path
  | null => []
  | paren l => idents l
  | floatlit _ _ => []
  | ident _ av => av.toList
  | call _ args _ => identsArgs args
  | binary _ l r => idents l ++ idents r
  | unary _ l => idents l
  | ifElse c l r => idents c ++ idents l ++ idents r

def identsArgs : List Node → List Path
  | [] => []
  | a :: args => idents a ++ identsArgs args
end

@[simp] theorem isNull_link (find : CStr → Option Path) (n : Node) :
    (n.link find).isNull = n.isNull := by
  cases n <;> rfl

@[simp] theorem isFloatlit_link (find : CStr → Option Path) (n : Node) :
    (n.link find).isFloatlit = n.isFloatlit := by
  cases n <;> rfl

mutual
/-- What holds of the nodes of a linked tree. -/
theorem everywhere_link_iff (find : CStr → Option Path) {P : Node → Prop} : ∀ n : Node,
    (link find n).Everywhere P ↔ n.Everywhere fun k => P (link find k)
  | null => Iff.rfl
  | paren l => and_congr Iff.rfl (everywhere_link_iff find l)
  | floatlit _ _ => Iff.rfl
  | ident _ _ => Iff.rfl
  | call _ args _ => and_congr Iff.rfl (everywhereArgs_link_iff find args)
  | binary _ l r => and_congr Iff.rfl
      (and_congr (everywhere_link_iff find l) (everywhere_link_iff find r))
  | unary _ l => and_congr Iff.rfl (everywhere_link_iff find l)
  | ifElse c l r => and_congr Iff.rfl (and_congr (everywhere_link_iff find c)
      (and_congr (everywhere_link_iff find l) (everywhere_link_iff find r)))

theorem everywhereArgs_link_iff (find : CStr → Option Path) {P : Node → Prop} :
    ∀ args : List Node,
    EverywhereArgs P (linkArgs find args) ↔ EverywhereArgs (fun k => P (link find k)) args
  | [] => Iff.rfl
  | a :: args => and_congr (everywhere_link_iff find a) (everywhereArgs_link_iff find args)
end

/-- Linking fills nodes in one by one. -/
theorem everywhere_link {P : Node → Prop} (find : CStr → Option Path)
    (hP : ∀ n : Node, P n → P (n.link find)) {n : Node} (h : n.Everywhere P) :
    (n.link find).Everywhere P :=
  (everywhere_link_iff find n).mpr (h.imp hP)

end Node

/-! ### The walk -/

/-- Where a name leads from a module, or nothing. -/
def Scope.find (scope : Scope) (name : CStr) : Option Path :=
  match resolve scope.avars (some name) with
  | .ok (some rel) => some (scope.base ++ rel)
  | _ => none

theorem visitChild_ok {f : AVarWalker → Except Stop (Node × AVarWalker)} {addr : List Nat}
    {w : AVarWalker} {r : Node × AVarWalker} (h : visitChild f addr w = .ok r) : f w = .ok r := by
  unfold visitChild at h
  split at h
  · exact h
  · simp at h

section
variable {scope : Scope} {addr : List Nat} {w : AVarWalker} {r : Node × AVarWalker}

theorem visit_paren {l : Node} (h : visit scope addr (.paren l) w = .ok r) :
    ∃ r1, visit scope (addr ++ [0]) l (avarWalkerStart w addr false) = .ok r1 ∧
      r = (.paren r1.1, r1.2) := by
  obtain ⟨r1, h1, h⟩ := bind_eq_ok h
  exact ⟨r1, visitChild_ok h1, (Except.ok.inj h).symm⟩

theorem visit_unary {op : Nat} {l : Node} (h : visit scope addr (.unary op l) w = .ok r) :
    ∃ r1, visit scope (addr ++ [0]) l (avarWalkerStart w addr false) = .ok r1 ∧
      r = (.unary op r1.1, r1.2) := by
  obtain ⟨r1, h1, h⟩ := bind_eq_ok h
  exact ⟨r1, visitChild_ok h1, (Except.ok.inj h).symm⟩

theorem visit_ident {s : CStr} {av : Option Path} (h : visit scope addr (.ident s av) w = .ok r) :
    ∃ rel, resolve scope.avars (some s) = .ok rel ∧ r = (.ident s (scope.find s),
      { avarWalkerStart w addr false with deps := w.deps ++ (scope.find s).toList }) := by
  obtain ⟨rel, hrel, h⟩ := bind_eq_ok h
  refine ⟨rel, hrel, ?_⟩
  cases rel with
  | none =>
    obtain rfl := Except.ok.inj h
    simp [Scope.find, hrel, avarWalkerStart]
  | some rel =>
    obtain rfl := Except.ok.inj h
    simp [Scope.find, hrel, avarWalkerStart]

/-- The function name is not visited again. -/
theorem visit_call {l : Node} {args : List Node} {fn : Option Fn}
    (h : visit scope addr (.call l args fn) w = .ok r) :
    ∃ s r1, l.sval = some s ∧ visitArgs scope addr 3 args (avarWalkerStart w addr true) = .ok r1 ∧
      r = (.call l r1.1 (RT_FNS.lookup s), r1.2) := by
  have hskip : avarWalkerStartChild (avarWalkerStart w addr true) (addr ++ [0]) = false := by
    simp [avarWalkerStartChild, avarWalkerStart]
  rw [visit] at h
  cases hl : l.sval with
  | none =>
    rw [hl] at h
    cases h
  | some s =>
    rw [hl] at h
    obtain ⟨_, ⟨⟩, h⟩ := bind_eq_ok h
    simp only [hskip, Bool.false_eq_true, if_false] at h
    obtain ⟨_, ⟨⟩, h⟩ := bind_eq_ok h
    obtain ⟨r1, h1, h⟩ := bind_eq_ok h
    exact ⟨s, r1, rfl, h1, (Except.ok.inj h).symm⟩

theorem visit_binary {op : Nat} {a b : Node} (h : visit scope addr (.binary op a b) w = .ok r) :
    ∃ r1 r2, visit scope (addr ++ [0]) a (avarWalkerStart w addr false) = .ok r1 ∧
      visit scope (addr ++ [1]) b r1.2 = .ok r2 ∧ r = (.binary op r1.1 r2.1, r2.2) := by
  obtain ⟨r1, h1, h⟩ := bind_eq_ok h
  obtain ⟨r2, h2, h⟩ := bind_eq_ok h
  exact ⟨r1, r2, visitChild_ok h1, visitChild_ok h2, (Except.ok.inj h).symm⟩

theorem visit_ifElse {c a b : Node} (h : visit scope addr (.ifElse c a b) w = .ok r) :
    ∃ r1 r2 r3, visit scope (addr ++ [2]) c (avarWalkerStart w addr false) = .ok r1 ∧
      visit scope (addr ++ [0]) a r1.2 = .ok r2 ∧ visit scope (addr ++ [1]) b r2.2 = .ok r3 ∧
      r = (.ifElse r1.1 r2.1 r3.1, r3.2) := by
  obtain ⟨r1, h1, h⟩ := bind_eq_ok h
  obtain ⟨r2, h2, h⟩ := bind_eq_ok h
  obtain ⟨r3, h3, h⟩ := bind_eq_ok h
  exact ⟨r1, r2, r3, visitChild_ok h1, visitChild_ok h2, visitChild_ok h3, (Except.ok.inj h).symm⟩

theorem visitArgs_cons {i : Nat} {a : Node} {args : List Node} {r : List Node × AVarWalker}
    (h : visitArgs scope addr i (a :: args) w = .ok r) :
    ∃ r1 r2, visit scope (addr ++ [i]) a w = .ok r1 ∧
      visitArgs scope addr (i + 1) args r1.2 = .ok r2 ∧ r = (r1.1 :: r2.1, r2.2) := by
  obtain ⟨r1, h1, h⟩ := bind_eq_ok h
  obtain ⟨r2, h2, h⟩ := bind_eq_ok h
  exact ⟨r1, r2, visitChild_ok h1, h2, (Except.ok.inj h).symm⟩

end

/-- What a finished visit has done: the tree is linked, and the variables in it have
    been appended to the dependencies. -/
def Linked (scope : Scope) (n : Node) (w : AVarWalker) (r : Node × AVarWalker) : Prop :=
  r.1 = n.link scope.find ∧ r.2.deps = w.deps ++ (n.link scope.find).idents

theorem Linked.start {scope : Scope} {n : Node} {w : AVarWalker} {addr : List Nat} {isCall : Bool}
    {r : Node × AVarWalker} (h : Linked scope n (avarWalkerStart w addr isCall) r) :
    Linked scope n w r := h

mutual
theorem visit_spec (scope : Scope) : ∀ {addr : List Nat} {n : Node} {w : AVarWalker}
    {r : Node × AVarWalker}, visit scope addr n w = .ok r → Linked scope n w r
  | _, .null, _, _, h => by simp [visit] at h
  | _, .paren l, w, _, h => by
    obtain ⟨r1, h1, rfl⟩ := visit_paren h
    obtain ⟨hn, hd⟩ := (visit_spec scope h1).start
    exact ⟨congrArg Node.paren hn, hd⟩
  | addr, .floatlit s v, w, _, h => by
    obtain rfl := Except.ok.inj h
    exact ⟨rfl, by simp [avarWalkerStart, Node.link, Node.idents]⟩
  | _, .ident s av, w, _, h => by
    obtain ⟨rel, -, rfl⟩ := visit_ident h
    exact ⟨rfl, rfl⟩
  | _, .call l args fn, w, _, h => by
    obtain ⟨s, r1, hs, h1, rfl⟩ := visit_call h
    obtain ⟨hn, hd⟩ := visitArgs_spec scope h1
    exact ⟨by simp only [Node.link, hn, hs, Option.bind_some], hd⟩
  | _, .unary op l, w, _, h => by
    obtain ⟨r1, h1, rfl⟩ := visit_unary h
    obtain ⟨hn, hd⟩ := (visit_spec scope h1).start
    exact ⟨congrArg (Node.unary op) hn, hd⟩
  | _, .ifElse c a b, w, _, h => by
    obtain ⟨r1, r2, r3, h1, h2, h3, rfl⟩ := visit_ifElse h
    obtain ⟨hn1, hd1⟩ := (visit_spec scope h1).start
    obtain ⟨hn2, hd2⟩ := visit_spec scope h2
    obtain ⟨hn3, hd3⟩ := visit_spec scope h3
    refine ⟨by simp only [Node.link, hn1, hn2, hn3], ?_⟩
    simp only [hd3, hd2, hd1, Node.link, Node.idents, List.append_assoc]
  | _, .binary op a b, w, _, h => by
    obtain ⟨r1, r2, h1, h2, rfl⟩ := visit_binary h
    obtain ⟨hn1, hd1⟩ := (visit_spec scope h1).start
    obtain ⟨hn2, hd2⟩ := visit_spec scope h2
    refine ⟨by simp only [Node.link, hn1, hn2], ?_⟩
    simp only [hd2, hd1, Node.link, Node.idents, List.append_assoc]

theorem visitArgs_spec (scope : Scope) : ∀ {addr : List Nat} {i : Nat} {args : List Node}
    {w : AVarWalker} {r : List Node × AVarWalker}, visitArgs scope addr i args w = .ok r →
      r.1 = Node.linkArgs scope.find args ∧
      r.2.deps = w.deps ++ Node.identsArgs (Node.linkArgs scope.find args)
  | _, _, [], w, r, h => by
    obtain rfl := Except.ok.inj h
    exact ⟨rfl, by simp [Node.linkArgs, Node.identsArgs]⟩
  | _, i, a :: args, w, _, h => by
    obtain ⟨r1, r2, h1, h2, rfl⟩ := visitArgs_cons h
    obtain ⟨hn1, hd1⟩ := visit_spec scope h1
    obtain ⟨hn2, hd2⟩ := visitArgs_spec scope h2
    refine ⟨by simp only [Node.linkArgs, hn1, hn2], ?_⟩
    simp only [hd2, hd1, Node.linkArgs, Node.identsArgs, List.append_assoc]
end

/-- What `visit` follows at a node is there. -/
def Node.Present : Node → Prop
  | .null => False
  | .call l _ _ => l.sval ≠ none
  | _ => True

/-- `visit` gets past a node: it is there, and `resolve` returns for its name. -/
def Node.Visitable (scope : Scope) : Node → Prop
  | .null => False
  | .ident s _ => ∃ r, resolve scope.avars (some s) = .ok r
  | .call l _ _ => l.sval ≠ none
  | _ => True

theorem Node.Visitable.present {scope : Scope} {n : Node} (h : n.Visitable scope) : n.Present := by
  cases n with
  | null => exact h
  | call l args fn => exact h
  | _ => trivial

mutual
/-- A visit that returns has got past every node. -/
theorem visit_visitable (scope : Scope) : ∀ {addr : List Nat} {n : Node} {w : AVarWalker}
    {r : Node × AVarWalker}, visit scope addr n w = .ok r → n.Everywhere (Node.Visitable scope)
  | _, .null, _, _, h => by simp [visit] at h
  | _, .paren l, _, _, h => by
    obtain ⟨r1, h1, -⟩ := visit_paren h
    exact ⟨trivial, visit_visitable scope h1⟩
  | _, .floatlit _ _, _, _, _ => trivial
  | _, .ident s av, _, _, h => by
    obtain ⟨rel, hrel, -⟩ := visit_ident h
    exact ⟨rel, hrel⟩
  | _, .call l args fn, _, _, h => by
    obtain ⟨s, r1, hs, h1, -⟩ := visit_call h
    exact ⟨by simp [Node.Visitable, hs], visitArgs_visitable scope h1⟩
  | _, .unary op l, _, _, h => by
    obtain ⟨r1, h1, -⟩ := visit_unary h
    exact ⟨trivial, visit_visitable scope h1⟩
  | _, .ifElse c a b, _, _, h => by
    obtain ⟨r1, r2, r3, h1, h2, h3, -⟩ := visit_ifElse h
    exact ⟨trivial, visit_visitable scope h1, visit_visitable scope h2, visit_visitable scope h3⟩
  | _, .binary op a b, _, _, h => by
    obtain ⟨r1, r2, h1, h2, -⟩ := visit_binary h
    exact ⟨trivial, visit_visitable scope h1, visit_visitable scope h2⟩

theorem visitArgs_visitable (scope : Scope) : ∀ {addr : List Nat} {i : Nat} {args : List Node}
    {w : AVarWalker} {r : List Node × AVarWalker}, visitArgs scope addr i args w = .ok r →
      Node.EverywhereArgs (Node.Visitable scope) args
  | _, _, [], _, _, _ => trivial
  | _, i, a :: args, _, _, h => by
    obtain ⟨r1, r2, h1, h2, -⟩ := visitArgs_cons h
    exact ⟨visit_visitable scope h1, visitArgs_visitable scope h2⟩
end

theorem visit_of_nodeWalk {scope : Scope} {n : Node} {r : Node × List Path}
    (h : nodeWalk scope n = .ok r) :
    n.isNull = false ∧ ∃ r1, visit scope [] n { curr := ([], false), deps := [] } = .ok r1 ∧
      r = (r1.1, r1.2.deps) := by
  unfold nodeWalk at h
  split at h
  · simp at h
  · next hn =>
    obtain ⟨r1, h1, h⟩ := bind_eq_ok h
    exact ⟨by simpa using hn, r1, h1, (Except.ok.inj h).symm⟩

theorem nodeWalk_spec {scope : Scope} {n : Node} {r : Node × List Path}
    (h : nodeWalk scope n = .ok r) :
    n.isNull = false ∧ n.Everywhere Node.Present ∧
      r = (n.link scope.find, (n.link scope.find).idents) := by
  obtain ⟨hn, r1, h1, rfl⟩ := visit_of_nodeWalk h
  obtain ⟨hn1, hd1⟩ := visit_spec scope h1
  exact ⟨hn, (visit_visitable scope h1).imp fun _ hk => hk.present,
    by simp only [hn1, hd1, List.nil_append]⟩

theorem nodeWalk_visitable {scope : Scope} {n : Node} {r : Node × List Path}
    (h : nodeWalk scope n = .ok r) : n.Everywhere (Node.Visitable scope) := by
  obtain ⟨-, r1, h1, -⟩ := visit_of_nodeWalk h
  exact visit_visitable scope h1

/-! ### What a name can lead to -/

mutual
/-- A resolved path leads to an `AVar` of the list that was searched. -/
theorem resolveSub_spec {sub : CStr} : ∀ {av : AVar} {path : Path},
    resolveSub sub av = .ok (some path) → path ≠ [] ∧ ∃ x, avarAt av.avars path = some x
  | .var _ _, path, h => by simp [resolveSub] at h
  | .module _ avars, path, h => by
    obtain ⟨j, rest, rfl, x, hx⟩ := (resolveLoop_spec h :)
    exact ⟨by simp, x, by simpa [AVar.avars] using hx⟩

theorem resolveLoop_spec {name : CStr} : ∀ {avars : List AVar} {i : Nat} {path : Path},
    resolveLoop name i avars = .ok (some path) →
      ∃ j rest, path = (i + j) :: rest ∧ ∃ x, avarAt avars (j :: rest) = some x
  | [], i, path, h => by simp [resolveLoop] at h
  | av :: avars, i, path, h => by
    have hhere : ∃ x, avarAt (av :: avars) [0] = some x := ⟨av, rfl⟩
    have hlater : resolveLoop name (i + 1) avars = .ok (some path) →
        ∃ j rest, path = (i + j) :: rest ∧ ∃ x, avarAt (av :: avars) (j :: rest) = some x := by
      intro h
      obtain ⟨j, rest, rfl, x, hx⟩ := resolveLoop_spec h
      exact ⟨j + 1, rest, by rw [Nat.add_assoc, Nat.add_comm 1 j], x, by simpa [avarAt] using hx⟩
    simp only [resolveLoop] at h
    split at h
    · simp at h
    · next n head sub _ _ =>
      split at h
      · simp only [bind, Except.bind] at h
        split at h
        · simp at h
        · next sub' hsub =>
          obtain ⟨path', rfl, rfl⟩ : ∃ path', sub' = some path' ∧ i :: path' = path := by
            have := Except.ok.inj h
            simpa using this
          obtain ⟨hne, x, hx⟩ := resolveSub_spec hsub
          refine ⟨0, path', rfl, x, ?_⟩
          rw [avarAt_cons, if_neg (by simpa using hne)]
          exact hx
      · split at h
        · exact ⟨0, [], by simpa using (Except.ok.inj h).symm, hhere⟩
        · exact hlater h
    · next n _ _ =>
      split at h
      · exact ⟨0, [], by simpa using (Except.ok.inj h).symm, hhere⟩
      · exact hlater h
end

theorem resolve_spec {avars : List AVar} {name : Option CStr} {path : Path}
    (h : resolve avars name = .ok (some path)) :
    ∃ j rest, path = j :: rest ∧ ∃ x, avarAt avars path = some x := by
  unfold resolve at h
  split at h
  · simp at h
  · obtain ⟨j, rest, rfl, x, hx⟩ := resolveLoop_spec h
    exact ⟨j, rest, by simp, x, by simpa using hx⟩

/-- What an equation refers to lies in its module or deeper, and is there. -/
theorem Scope.find_spec {scope : Scope} {name : CStr} {p : Path} (h : scope.find name = some p) :
    ∃ rel, p = scope.base ++ rel ∧ Below scope.base p ∧ ∃ x, avarAt scope.avars rel = some x := by
  unfold Scope.find at h
  split at h
  · next rel hrel =>
    obtain rfl := Option.some.inj h
    obtain ⟨j, rest, rfl, hx⟩ := resolve_spec hrel
    exact ⟨j :: rest, rfl, ⟨j, rest, rfl⟩, hx⟩
  · simp at h

namespace Node

mutual
theorem mem_idents_link {find : CStr → Option Path} {p : Path} :
    ∀ {n : Node}, p ∈ (n.link find).idents → ∃ s, find s = some p
  | null, h => by simp [link, idents] at h
  | paren l, h => mem_idents_link (n := l) h
  | floatlit _ _, h => by simp [link, idents] at h
  | ident s _, h => ⟨s, by simpa [link, idents] using h⟩
  | call _ args _, h => mem_identsArgs_link args h
  | binary _ l r, h => by
    rcases List.mem_append.mp h with h | h
    · exact mem_idents_link h
    · exact mem_idents_link h
  | unary _ l, h => mem_idents_link (n := l) h
  | ifElse c l r, h => by
    rcases List.mem_append.mp h with h | h
    · rcases List.mem_append.mp h with h | h
      · exact mem_idents_link h
      · exact mem_idents_link h
    · exact mem_idents_link h

theorem mem_identsArgs_link {find : CStr → Option Path} {p : Path} :
    ∀ args : List Node, p ∈ identsArgs (linkArgs find args) → ∃ s, find s = some p
  | [], h => by simp [linkArgs, identsArgs] at h
  | a :: args, h => by
    rcases List.mem_append.mp h with h | h
    · exact mem_idents_link h
    · exact mem_identsArgs_link args h
end

end Node

/-! ### Evaluation depends on the variables referred to -/

section
variable (env : Env) (dt time : ℚ) {read read' : Path → ℚ}

mutual
theorem svisit_congr : ∀ {n : Node}, (∀ p ∈ n.idents, read p = read' p) →
    svisit env read dt time n = svisit env read' dt time n
  | .null, _ => rfl
  | .paren l, h => svisit_congr (n := l) h
  | .floatlit _ _, _ => rfl
  | .ident s av, h => by
    cases av with
    | none => rfl
    | some p => exact congrArg Except.ok (h p (by simp [Node.idents]))
  | .call l args fn, h => by
    simp only [svisit, svisitArgs_congr args h]
  | .binary op l r, h => by
    simp only [svisit, svisit_congr (n := l) fun p hp => h p (List.mem_append_left _ hp),
      svisit_congr (n := r) fun p hp => h p (List.mem_append_right _ hp)]
  | .unary op l, h => by simp only [svisit, svisit_congr (n := l) h]
  | .ifElse c l r, h => by
    have hc := svisit_congr (n := c) fun p hp =>
      h p (List.mem_append_left _ (List.mem_append_left _ hp))
    have hl := svisit_congr (n := l) fun p hp =>
      h p (List.mem_append_left _ (List.mem_append_right _ hp))
    have hr := svisit_congr (n := r) fun p hp => h p (List.mem_append_right _ hp)
    simp only [svisit, hc, hl, hr]

theorem svisitArgs_congr : ∀ (args : List Node) {i : Nat},
    (∀ p ∈ Node.identsArgs args, read p = read' p) →
    svisitArgs env read dt time i args = svisitArgs env read' dt time i args
  | [], _, _ => rfl
  | a :: args, i, h => by
    simp only [svisitArgs, svisit_congr (n := a) fun p hp => h p (List.mem_append_left _ hp),
      svisitArgs_congr args fun p hp => h p (List.mem_append_right _ hp)]
end

/-! ### Evaluation of a linked tree depends on the values its names lead to -/

variable {find find' : CStr → Option Path}

mutual
theorem svisit_link_congr (h : ∀ s, (find s).map read = (find' s).map read') : ∀ n : Node,
    svisit env read dt time (n.link find) = svisit env read' dt time (n.link find')
  | .null => rfl
  | .paren l => svisit_link_congr h l
  | .floatlit _ _ => rfl
  | .ident s _ => by
    have hs := h s
    simp only [Node.link, svisit]
    cases hf : find s with
    | none =>
      obtain hf' : find' s = none := by simpa [hf, eq_comm] using hs
      rw [hf']
    | some p =>
      obtain ⟨p', hf', hp⟩ : ∃ p', find' s = some p' ∧ read' p' = read p := by
        simpa [hf, eq_comm] using hs
      rw [hf']
      exact congrArg Except.ok hp.symm
  | .call _ args _ => by
    simp only [Node.link, svisit, svisitArgs_link_congr h args]
  | .binary _ l r => by
    simp only [Node.link, svisit, svisit_link_congr h l, svisit_link_congr h r]
  | .unary _ l => by simp only [Node.link, svisit, svisit_link_congr h l]
  | .ifElse c l r => by
    simp only [Node.link, svisit, svisit_link_congr h c, svisit_link_congr h l,
      svisit_link_congr h r]

theorem svisitArgs_link_congr (h : ∀ s, (find s).map read = (find' s).map read') :
    ∀ (args : List Node) {i : Nat}, svisitArgs env read dt time i (Node.linkArgs find args) =
      svisitArgs env read' dt time i (Node.linkArgs find' args)
  | [], _ => rfl
  | a :: args, i => by
    simp only [Node.linkArgs, svisitArgs, svisit_link_congr h a, svisitArgs_link_congr h args]
end

end

end Libsd

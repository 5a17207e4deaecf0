/-
  Libsd/FlatBuild.lean
  ====================
  **When a model without modules is accepted.**

  `Accepted` says it of the model itself: each equation can be parsed and walked,
  the flows of each stock are there, and no variable refers back to itself.
  `builtFrom_flat_iff` shows that just these models get as far as `sd_sim_reset`.
-/
import Libsd.FlatNames

namespace Libsd

open Relation

/-! ### The walk of a tree in which nothing is missing -/

/-- A node started deeper than the parent of a child lets the walk go on there. -/
theorem startChild_of_deeper {w : AVarWalker} {addr : List Nat} (i : Nat)
    (hw : addr.length < w.curr.1.length) : avarWalkerStartChild w (addr ++ [i]) = true := by
  have hne : (addr ++ [i] == w.curr.1 ++ [0]) = false := by
    refine beq_eq_false_iff_ne.mpr fun he => ?_
    have := congrArg List.length he
    simp only [List.length_append, List.length_singleton] at this
    omega
  rw [avarWalkerStartChild, hne, Bool.and_false, Bool.not_false]

/-- A visit that returns, with a walker that is at the node or below. -/
def VisitOk {α : Type} (addr : List Nat) (r : Except Stop (α × AVarWalker)) : Prop :=
  ∃ a w, r = .ok (a, w) ∧ addr.length ≤ w.curr.1.length

theorem VisitOk.child {addr : List Nat} {n : Node} {w : AVarWalker} {i : Nat} {scope : Scope}
    (h : VisitOk (addr ++ [i]) (visit scope (addr ++ [i]) n w))
    (hw : avarWalkerStartChild w (addr ++ [i]) = true) :
    ∃ a w', visitChild (visit scope (addr ++ [i]) n) (addr ++ [i]) w = .ok (a, w') ∧
      addr.length < w'.curr.1.length := by
  obtain ⟨a, w', hr, hw'⟩ := h
  rw [List.length_append, List.length_singleton] at hw'
  refine ⟨a, w', ?_, by omega⟩
  simp only [visitChild, hw, if_true, hr]

/-- Every name can be looked up in the module, found or not. -/
def Scope.Searchable (scope : Scope) : Prop := ∀ s, ∃ r, resolve scope.avars (some s) = .ok r

mutual
theorem visit_ok {scope : Scope} : ∀ (addr : List Nat) (n : Node)
    (w : AVarWalker), n.Everywhere (Node.Visitable scope) → VisitOk addr (visit scope addr n w)
  | _, .null, _, h => absurd h id
  | addr, .paren l, w, h => by
    obtain ⟨l', w1, h1, hw1⟩ :=
      (visit_ok (addr ++ [0]) l (avarWalkerStart w addr false) h.2).child rfl
    refine ⟨.paren l', w1, ?_, hw1.le⟩
    simp only [visit, h1, bind, Except.bind]
    rfl
  | addr, .floatlit s _, w, _ => ⟨_, _, rfl, le_refl _⟩
  | addr, .ident s _, w, h => by
    obtain ⟨r, hr⟩ : ∃ r, resolve scope.avars (some s) = .ok r := h
    simp only [visit, hr, bind, Except.bind]
    cases r with
    | none => exact ⟨_, _, rfl, le_refl _⟩
    | some rel => exact ⟨_, _, rfl, le_refl _⟩
  | addr, .call l args fn, w, h => by
    obtain ⟨s, hs⟩ := Option.ne_none_iff_exists'.mp h.1
    have hskip : avarWalkerStartChild (avarWalkerStart w addr true) (addr ++ [0]) = false := by
      simp [avarWalkerStartChild, avarWalkerStart]
    obtain ⟨args', w1, h1, hw1⟩ := visitArgs_ok addr 3 args (avarWalkerStart w addr true)
      (by omega) (.inr rfl) h.2
    refine ⟨.call l args' (RT_FNS.lookup s), w1, ?_, hw1⟩
    simp only [visit, hs, hskip, bind, Except.bind, h1, Bool.false_eq_true, if_false]
    rfl
  | addr, .unary op l, w, h => by
    obtain ⟨l', w1, h1, hw1⟩ :=
      (visit_ok (addr ++ [0]) l (avarWalkerStart w addr false) h.2).child rfl
    refine ⟨.unary op l', w1, ?_, hw1.le⟩
    simp only [visit, h1, bind, Except.bind]
    rfl
  | addr, .ifElse c l r, w, h => by
    obtain ⟨c', w1, h1, hw1⟩ :=
      (visit_ok (addr ++ [2]) c (avarWalkerStart w addr false) h.2.1).child rfl
    obtain ⟨l', w2, h2, hw2⟩ :=
      (visit_ok (addr ++ [0]) l w1 h.2.2.1).child (startChild_of_deeper 0 hw1)
    obtain ⟨r', w3, h3, hw3⟩ :=
      (visit_ok (addr ++ [1]) r w2 h.2.2.2).child (startChild_of_deeper 1 hw2)
    refine ⟨.ifElse c' l' r', w3, ?_, hw3.le⟩
    simp only [visit, h1, h2, h3, bind, Except.bind]
    rfl
  | addr, .binary op l r, w, h => by
    obtain ⟨l', w1, h1, hw1⟩ :=
      (visit_ok (addr ++ [0]) l (avarWalkerStart w addr false) h.2.1).child rfl
    obtain ⟨r', w2, h2, hw2⟩ :=
      (visit_ok (addr ++ [1]) r w1 h.2.2).child (startChild_of_deeper 1 hw1)
    refine ⟨.binary op l' r', w2, ?_, hw2.le⟩
    simp only [visit, h1, h2, bind, Except.bind]
    rfl

theorem visitArgs_ok {scope : Scope} : ∀ (addr : List Nat) (i : Nat)
    (args : List Node) (w : AVarWalker), 0 < i → addr.length < w.curr.1.length ∨ w.curr.1 = addr →
    Node.EverywhereArgs (Node.Visitable scope) args → VisitOk addr (visitArgs scope addr i args w)
  | addr, i, [], w, _, hw, _ => by
    refine ⟨[], w, rfl, ?_⟩
    rcases hw with hw | hw
    · exact hw.le
    · rw [hw]
  | addr, i, a :: args, w, hi, hw, h => by
    have hstart : avarWalkerStartChild w (addr ++ [i]) = true := by
      rcases hw with hw | hw
      · exact startChild_of_deeper i hw
      · have hne : i ≠ 0 := by omega
        simp [avarWalkerStartChild, hw, hne]
    obtain ⟨a', w1, h1, hw1⟩ := (visit_ok (addr ++ [i]) a w h.1).child hstart
    obtain ⟨args', w2, h2, hw2⟩ :=
      visitArgs_ok addr (i + 1) args w1 (by omega) (.inl hw1) h.2
    refine ⟨a' :: args', w2, ?_, hw2⟩
    simp only [visitArgs, h1, h2, bind, Except.bind]
    rfl
end

theorem nodeWalk_of_visitable {scope : Scope} {n : Node} (hn : n.isNull = false)
    (h : n.Everywhere (Node.Visitable scope)) :
    nodeWalk scope n = .ok (n.link scope.find, (n.link scope.find).idents) := by
  obtain ⟨a, w, hr, -⟩ := visit_ok [] n { curr := ([], false), deps := [] } h
  have hok : nodeWalk scope n = .ok (a, w.deps) := by
    simp only [nodeWalk, hn, Bool.false_eq_true, if_false, hr, bind, Except.bind]
    rfl
  rw [hok, (nodeWalk_spec hok).2.2]

theorem Node.Present.visitable {scope : Scope} (hres : scope.Searchable) {n : Node}
    (h : n.Present) : n.Visitable scope := by
  cases n with
  | null => exact h
  | ident s av => exact hres s
  | call l args fn => exact h
  | _ => trivial

theorem nodeWalk_ok {scope : Scope} (hres : scope.Searchable) {n : Node} (hn : n.isNull = false)
    (h : n.Everywhere Node.Present) :
    nodeWalk scope n = .ok (n.link scope.find, (n.link scope.find).idents) :=
  nodeWalk_of_visitable hn (h.imp fun _ hk => hk.visitable hres)

/-! ### Names instead of variables -/

namespace Node

mutual
/-- The names in a tree, in the order in which the walker comes to them. -/
def names : Node → List CStr
  | null => []
  | paren l => names l
  | floatlit _ _ => []
  | ident s _ => [s]
  | call _ args _ => namesArgs args
  | binary _ l r => names l ++ names r
  | unary _ l => names l
  | ifElse c l r => names c ++ names l ++ names r

def namesArgs : List Node → List CStr
  | [] => []
  | a :: args => names a ++ namesArgs args
end

mutual
theorem idents_link (find : CStr → Option Path) : ∀ n : Node,
    (n.link find).idents = n.names.filterMap find
  | null => rfl
  | paren l => idents_link find l
  | floatlit _ _ => rfl
  | ident s _ => by
    simp only [link, idents, names, List.filterMap_cons, List.filterMap_nil]
    cases find s <;> rfl
  | call _ args _ => identsArgs_link find args
  | binary _ l r => by
    simp only [link, idents, names, List.filterMap_append, idents_link find l, idents_link find r]
  | unary _ l => idents_link find l
  | ifElse c l r => by
    simp only [link, idents, names, List.filterMap_append, idents_link find c, idents_link find l,
      idents_link find r]

theorem identsArgs_link (find : CStr → Option Path) : ∀ args : List Node,
    identsArgs (linkArgs find args) = (namesArgs args).filterMap find
  | [] => rfl
  | a :: args => by
    simp only [linkArgs, identsArgs, namesArgs, List.filterMap_append, idents_link find a,
      identsArgs_link find args]
end

end Node

/-! ### The models that are accepted -/

/-- What compilation asks of a variable of the model. -/
structure SDModel.AcceptsVar (model : SDModel) (v : Var) : Prop where
  parses : ∀ eqn, v.eqn = some eqn → avarEqnParse eqn = .ok v.tree
  notRef : v.type ≠ .ref
  notNull : v.tree.isNull = false
  present : v.tree.Everywhere Node.Present
  inflows : ∀ name ∈ v.inflows, model.Has (skipDot name)
  outflows : ∀ name ∈ v.outflows, model.Has (skipDot name)

/-- The variable named `a` has `b` in its equation, and there is such a variable. -/
def SDModel.RefersTo (model : SDModel) (a b : CStr) : Prop :=
  model.Has b ∧ ∃ v ∈ model.vars, v.name = some a ∧ ∃ s ∈ v.tree.names, skipDot s = b

structure SDModel.Accepted (model : SDModel) : Prop where
  vars : ∀ v ∈ model.vars, model.AcceptsVar v
  acyclic : ∀ name, ¬ TransGen model.RefersTo name name

theorem SDModel.AcceptsVar.eqn {model : SDModel} {v : Var} (h : model.AcceptsVar v) :
    v.eqn ≠ none := by
  intro he
  have := h.notNull
  simp [Var.tree, he, Node.isNull] at this

/-! ### Compiling them -/

theorem resolveAll_ok {scope : Scope} {names : List CStr}
    (h : ∀ name ∈ names, scope.find name ≠ none) : ∃ ps, resolveAll scope names = .ok ps := by
  induction names with
  | nil => exact ⟨[], rfl⟩
  | cons name names ih =>
    obtain ⟨ps, hps⟩ := ih fun n hn => h n (List.mem_cons_of_mem name hn)
    have hname := h name List.mem_cons_self
    simp only [Scope.find] at hname
    split at hname
    · next rel hrel =>
      refine ⟨(scope.base ++ rel) :: ps, ?_⟩
      simp only [resolveAll, hrel, hps, bind, Except.bind]
      rfl
    · exact absurd rfl hname

/-- Compiling a variable succeeds, and touches nothing but its own fields. -/
def InitOk (scope : Scope) (i : Nat) (av : AVar) : Prop :=
  ∀ st : Store, (st (scope.base ++ [i])).node = av.node →
    ∃ st', avarInit scope i av st = .ok st' ∧ ∀ p, p ≠ scope.base ++ [i] → st' p = st p

theorem compileLoop_ok {scope : Scope} : ∀ {avars : List AVar} {i : Nat} {st : Store},
    (∀ k av, avars[k]? = some av → InitOk scope (i + k) av) →
    (∀ k av, avars[k]? = some av → (st (scope.base ++ [i + k])).node = av.node) →
    ∃ st', compileLoop scope i avars (st, 0) = .ok (st', 0) := by
  intro avars
  induction avars with
  | nil => intro i st _ _; exact ⟨st, rfl⟩
  | cons av rest ih =>
    intro i st hinit hst
    obtain ⟨st1, h1, hframe⟩ := hinit 0 av rfl st (hst 0 av rfl)
    have hadd : ∀ k, i + 1 + k = i + (k + 1) := fun k => by omega
    have hst1 : ∀ k av, rest[k]? = some av → (st1 (scope.base ++ [i + 1 + k])).node = av.node := by
      intro k av hav
      rw [hframe _ fun he => by have := child_inj he; omega, hadd]
      exact hst (k + 1) av hav
    obtain ⟨st2, h2⟩ := ih (fun k av hav => hadd k ▸ hinit (k + 1) av hav) hst1
    refine ⟨st2, ?_⟩
    rw [Nat.add_zero] at h1
    simp only [compileLoop, h1, countFailed, bind, Except.bind]
    exact h2

theorem copyOffsets_of_no_ref {base : Path} {avars : List AVar} {i : Nat} {st : Store}
    (h : ∀ av ∈ avars, av.v.type ≠ .ref) : copyOffsets base i avars st = .ok st := by
  induction avars generalizing i with
  | nil => rfl
  | cons av rest ih =>
    rw [copyOffsets, if_neg (h av List.mem_cons_self)]
    exact ih fun a ha => h a (List.mem_cons_of_mem av ha)

namespace SDModel

variable {model : SDModel}

theorem Named.searchable (hn : model.Named) : (scopeAt model.flatRoot []).Searchable :=
  fun s => ⟨_, hn.resolve_flat s⟩

theorem Named.initOk_time : InitOk (scopeAt model.flatRoot []) 0 (.var timeVar .null) := by
  intro st _
  have htime : (timeVar.eqn.isNone && timeVar.name == some (cstr "time")) = true := by
    simp [timeVar]
  refine ⟨st, ?_, fun _ _ => rfl⟩
  rw [avarInit, avarInitVar, if_neg (by simp [timeVar]), htime, if_pos rfl]

theorem Named.initOk_var (hn : model.Named) {v : Var} (hv : v ∈ model.vars)
    (h : model.AcceptsVar v) (i : Nat) : InitOk (scopeAt model.flatRoot []) i (.var v v.tree) := by
  intro st hst
  have hst' : (st ([] ++ [i])).node = v.tree := hst
  have hfind : ∀ name, model.Has (skipDot name) → (scopeAt model.flatRoot []).find name ≠ none :=
    fun name hname => hn.find_ne_none_iff.mpr hname
  obtain ⟨ins, hins⟩ := resolveAll_ok fun name hname => hfind name (h.inflows name hname)
  obtain ⟨outs, houts⟩ := resolveAll_ok fun name hname => hfind name (h.outflows name hname)
  have hwalk := nodeWalk_ok hn.searchable h.notNull h.present
  have htime : (v.eqn.isNone && v.name == some (cstr "time")) = false := by
    simp [hn.time v hv]
  refine ⟨Function.update st ([] ++ [i]) { st ([] ++ [i]) with
      node := v.tree.link (scopeAt model.flatRoot []).find
      directDeps := (v.tree.link (scopeAt model.flatRoot []).find).idents
      inflows := ins, outflows := outs }, ?_, fun p hp => Function.update_of_ne hp _ _⟩
  simp only [avarInit, avarInitVar, if_neg h.notRef, htime, Bool.false_eq_true, if_false,
    show (scopeAt model.flatRoot []).base = [] from rfl, hst', hwalk, hins, houts,
      bind, Except.bind]
  rfl

theorem Named.compileRoot_ok (hn : model.Named) (h : ∀ v ∈ model.vars, model.AcceptsVar v) :
    ∃ st, compileRoot model.flatRoot = .ok st := by
  have hinit : ∀ k av, model.flatRoot[k]? = some av →
      InitOk (scopeAt model.flatRoot []) (0 + k) av := by
    intro k av hav
    rw [Nat.zero_add]
    rcases flatRoot_cases hav with ⟨rfl, rfl⟩ | ⟨k, v, rfl, hv, rfl⟩
    · exact initOk_time
    · have hmem := List.mem_of_getElem? hv
      exact hn.initOk_var hmem (h v hmem) _
  have hnode : ∀ k av, model.flatRoot[k]? = some av →
      (initStore model.flatRoot ([] ++ [0 + k])).node = av.node := by
    intro k av hav
    simp [initStore, avarAt_flatRoot, hav]
  obtain ⟨st, hst⟩ := compileLoop_ok hinit hnode
  have href : ∀ av ∈ model.flatRoot, av.v.type ≠ .ref := by
    intro av hav
    obtain ⟨i, hi⟩ := List.getElem?_of_mem hav
    rcases flatRoot_cases hi with ⟨-, rfl⟩ | ⟨k, v, -, hv, rfl⟩
    · simp [AVar.v, timeVar]
    · exact (h v (List.mem_of_getElem? hv)).notRef
  refine ⟨st, ?_⟩
  have hloop : compileLoop { base := [], avars := model.flatRoot, parent := none } 0 model.flatRoot
      (initStore model.flatRoot, 0) = .ok (st, 0) := hst
  simp only [compileRoot, moduleCompile, hloop, bind, Except.bind]
  exact copyOffsets_of_no_ref href

/-- What compilation has accepted. -/
theorem Named.acceptsVar (hn : model.Named) {st : Store}
    (hc : ∀ p, Compiled model.flatRoot p (st p))
    (hparse : ∀ v ∈ model.vars, ∀ eqn, v.eqn = some eqn → avarEqnParse eqn = .ok v.tree) :
    ∀ v ∈ model.vars, model.AcceptsVar v := by
  intro v hv
  obtain ⟨k, hk⟩ := List.getElem?_of_mem hv
  obtain ⟨href, -, hnull, hpresent, -, -, hin, hout⟩ := compiled_flat hn hc hk
  have hhas : ∀ {names ps}, resolveAll (scopeAt model.flatRoot []) names = .ok ps →
      ∀ name ∈ names, model.Has (skipDot name) := by
    intro names ps hps name hname
    obtain ⟨j, hj⟩ := List.getElem?_of_mem hname
    have hall := resolveAll_forall₂ hps
    have hlt := (List.getElem?_eq_some_iff.mp hj).1
    have hget := hall.get hlt (hall.length_eq ▸ hlt)
    have hname : names[j] = name := (List.getElem?_eq_some_iff.mp hj).2
    refine hn.find_ne_none_iff.mp ?_
    rw [← hname]
    exact Option.ne_none_iff_exists'.mpr ⟨_, hget⟩
  exact ⟨hparse v hv, href, hnull, hpresent, hhas hin, hhas hout⟩

/-! ### Sorting them -/

/-- What depends on something is a variable, and so is that. -/
theorem dep_children {st : Store} (hc : ∀ p, Compiled model.flatRoot p (st p)) {p q : Path}
    (h : DepthFirst.Dep (depsOf st) p q) :
    ∃ i j av av', p = [i] ∧ q = [j] ∧ model.flatRoot[i]? = some av ∧
      model.flatRoot[j]? = some av' := by
  have hq := (hc p).dep h
  obtain ⟨-, av', hav'⟩ := hq
  obtain ⟨j, rfl⟩ := path_of_flat flatRoot_isModule hav'
  have hp : ∃ av, avarAt model.flatRoot p = some av := by
    by_contra hnone
    have hc := hc p
    rw [Compiled, Option.eq_none_iff_forall_ne_some.mpr fun av hav => hnone ⟨av, hav⟩] at hc
    obtain ⟨offset, hd⟩ := hc
    rw [DepthFirst.Dep, depsOf, hd] at h
    exact absurd h List.not_mem_nil
  obtain ⟨av, hav⟩ := hp
  obtain ⟨i, rfl⟩ := path_of_flat flatRoot_isModule hav
  exact ⟨i, j, av, av', rfl, rfl, avarAt_flatRoot i ▸ hav, avarAt_flatRoot j ▸ hav'⟩

section
variable (hn : model.Named) {st : Store} (hc : ∀ p, Compiled model.flatRoot p (st p))
include hn hc

/-- A dependency in the store is one variable referring to another by name. -/
theorem Named.dep_iff {i j : Nat} {av av' : AVar} {a b : CStr} (hi : model.flatRoot[i]? = some av)
    (ha : av.v.name = some a) (hj : model.flatRoot[j]? = some av') (hb : av'.v.name = some b) :
    DepthFirst.Dep (depsOf st) [i] [j] ↔ model.RefersTo a b := by
  rcases flatRoot_cases hi with ⟨rfl, rfl⟩ | ⟨k, v, rfl, hv, rfl⟩
  · -- `time` refers to nothing
    obtain rfl : cstr "time" = a := Option.some.inj ha
    refine iff_of_false ?_ fun ⟨_, v, hv, hname, _⟩ => hn.time v hv hname
    rw [DepthFirst.Dep, depsOf_time hc flatRoot_time]
    exact List.not_mem_nil
  · have hmem := List.mem_of_getElem? hv
    obtain ⟨-, -, -, -, hnode, hdeps, -⟩ := compiled_flat hn hc hv
    rw [DepthFirst.Dep, depsOf, hdeps, hnode, Node.idents_link, List.mem_filterMap]
    constructor
    · rintro ⟨s, hs, hfind⟩
      obtain ⟨i', av'', he, hav'', hname⟩ := hn.find_iff.mp hfind
      obtain rfl : j = i' := by simpa using he
      obtain rfl := Option.some.inj (hj.symm.trans hav'')
      have hsb : skipDot s = b := Option.some.inj (hname.symm.trans hb)
      exact ⟨has_iff.mpr ⟨j, av', hj, hb⟩, v, hmem, ha, s, hs, hsb⟩
    · rintro ⟨-, v', hv', hname, s, hs, rfl⟩
      obtain ⟨k', hk'⟩ := List.getElem?_of_mem hv'
      have hkk : k + 1 = k' + 1 := hn.index_unique (flatRoot_var hv) ha (flatRoot_var hk') hname
      obtain rfl : k = k' := by omega
      obtain rfl := Option.some.inj (hv.symm.trans hk')
      exact ⟨s, hs, hn.find_iff.mpr ⟨j, av', rfl, hj, hb⟩⟩

theorem Named.cyclic_iff :
    Cyclic model.flatRoot st [] ↔ ∃ name, TransGen model.RefersTo name name := by
  constructor
  · rintro ⟨p, -, hcyc⟩
    -- a path goes to the name of its variable
    refine ⟨_, hcyc.lift (fun p => ((avarAt model.flatRoot p).bind (·.v.name)).getD []) ?_⟩
    intro a b hab
    obtain ⟨i, j, av, av', rfl, rfl, hi, hj⟩ := dep_children hc hab
    obtain ⟨na, hna⟩ := Option.ne_none_iff_exists'.mp (hn.name_ne_none av (List.mem_of_getElem? hi))
    obtain ⟨nb, hnb⟩ :=
      Option.ne_none_iff_exists'.mp (hn.name_ne_none av' (List.mem_of_getElem? hj))
    simp only [Function.onFun, avarAt_flatRoot, hi, hj, Option.bind_some, hna, hnb,
      Option.getD_some]
    exact (hn.dep_iff hc hi hna hj hnb).mp hab
  · rintro ⟨name, hcyc⟩
    -- and a name to the path of its variable
    have hto : ∀ a b, model.RefersTo a b → DepthFirst.Dep (depsOf st)
        ((nameIndex model.flatRoot a).toList) ((nameIndex model.flatRoot b).toList) := by
      intro a b hab
      have hhas : model.Has a := .inr (hab.2.imp fun v hv => ⟨hv.1, hv.2.1⟩)
      obtain ⟨i, av, hi, hna⟩ := has_iff.mp hhas
      obtain ⟨j, av', hj, hnb⟩ := has_iff.mp hab.1
      rw [hn.nameIndex_iff.mpr ⟨av, hi, hna⟩, hn.nameIndex_iff.mpr ⟨av', hj, hnb⟩]
      exact (hn.dep_iff hc hi hna hj hnb).mpr hab
    have hlift := hcyc.lift _ hto
    obtain ⟨q, hq, -⟩ := TransGen.head'_iff.mp hlift
    obtain ⟨i, -, av, -, hp, -, hi, -⟩ := dep_children hc hq
    exact ⟨_, mem_childrenOf.mpr ⟨i, (List.getElem?_eq_some_iff.mp hi).1, hp⟩, hlift⟩

theorem Named.sort_ok_iff : (∃ s, moduleSortRunlists model.flatRoot st [] .empty = .ok s) ↔
    ∀ name, ¬ TransGen model.RefersTo name name := by
  have hdeps : ∀ p ∈ childrenOf model.flatRoot [], ∀ d ∈ depsOf st p,
      d ∈ childrenOf model.flatRoot [] := by
    intro p _ d hd
    obtain ⟨-, j, -, av, -, rfl, -, hj⟩ := dep_children hc hd
    exact mem_childrenOf.mpr ⟨j, (List.getElem?_eq_some_iff.mp hj).1, rfl⟩
  rw [moduleSortRunlists_ok_iff (scoped_of_compiled hc) hdeps
    (fun _ => depsOf_time hc flatRoot_time) (fun k => by cases k <;> rfl) flatRoot_isModule,
    hn.cyclic_iff hc, not_exists]

end

end SDModel

/-! ### The whole of `sd_sim_new` before `sd_sim_reset` -/

/-- A model without modules gets to `sd_sim_reset` just when it is accepted. -/
theorem builtFrom_flat_iff {p : SDProject} {model : SDModel} (hflat : model.Flat)
    (hn : model.Named) : (∃ s, BuiltFrom p model s) ↔ model.Accepted := by
  constructor
  · rintro ⟨s, h⟩
    obtain ⟨hroot, hparse⟩ := (module_flat_iff hflat).mp h.root
    have hc : ∀ p, Compiled model.flatRoot p (s.store p) := hroot ▸ h.wellBuilt.compiled
    obtain ⟨s', hsort, -⟩ := h.lists
    rw [hroot] at hsort
    exact ⟨hn.acceptsVar hc hparse, (hn.sort_ok_iff hc).mp ⟨s', hsort⟩⟩
  · rintro ⟨hvars, hacyclic⟩
    have hroot := (module_flat_iff hflat (p := p)).mpr ⟨rfl, fun v hv => (hvars v hv).parses⟩
    obtain ⟨st, hst⟩ := hn.compileRoot_ok hvars
    obtain ⟨hcomp, -⟩ := compileRoot_spec hst
    generalize hoff : moduleAssignOffsets [] 0 model.flatRoot (st, 0) = r
    obtain ⟨st', nvars⟩ := r
    obtain ⟨-, honly⟩ := moduleAssignOffsets_spec (compileRoot_spec hst).2
      (isColumn_time hcomp SDModel.flatRoot_time) hoff
    have hc : ∀ p, Compiled model.flatRoot p (st' p) := fun p => honly p ▸ (hcomp p).setOffset _
    obtain ⟨sorted, hsorted⟩ := (hn.sort_ok_iff hc).mpr hacyclic
    let s : SDSim := ⟨.plain false, ⟨0, 0, 0, 0⟩, model.flatRoot, st', sorted.lists, nvars,
      ⟨0, 0, 0, 0⟩, fun _ _ => 0, 0, 0, 0, 0, 0⟩
    exact ⟨s, hroot, ⟨st, hst, hoff⟩, sorted, hsorted, rfl⟩

end Libsd

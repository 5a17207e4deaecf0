/-
  Libsd/Termination.lean
  ======================
  **When `sd_sim_new` comes to an end.**

  Behind the instantiation nothing can go on for ever: the walks are over finite trees,
  the search through dependencies marks what it is at, and the run lists are no deeper
  than the tree.  So `sd_sim_new` ends exactly when the recursion of `module` and `avar`
  does (`sdSimNew_returns_iff`).
-/
import Libsd.Containment
import Libsd.Passes
import Libsd.Values

namespace Libsd

open Outcome Relation Assign

/-! ### Compiling -/

/-- It returns, unless it follows a NULL pointer. -/
abbrev DerefsOnly {α : Type} (x : Except Stop α) : Prop :=
  Ends (fun _ => True) (· = .undefined .nullDeref) x

theorem DerefsOnly.returns {α : Type} {x : Except Stop α} (h : DerefsOnly x) :
    Returns (fun _ => True) x :=
  h.imp (fun _ h => h) fun e he => by rw [he]; simp

mutual
theorem resolveSub_derefs (sub : CStr) : ∀ av : AVar, DerefsOnly (resolveSub sub av)
  | .var _ _ => trivial
  | .module _ avars => resolveLoop_derefs (skipDot sub) 0 avars

theorem resolveLoop_derefs (name : CStr) : ∀ (i : Nat) (avars : List AVar),
    DerefsOnly (resolveLoop name i avars)
  | _, [] => trivial
  | i, av :: rest => by
    rw [resolveLoop]
    split
    · exact rfl
    · split_ifs
      · exact (resolveSub_derefs _ av).bind fun _ _ => trivial
      · trivial
      · exact resolveLoop_derefs name (i + 1) rest
    · split_ifs
      · trivial
      · exact resolveLoop_derefs name (i + 1) rest
end

theorem resolve_derefs (avars : List AVar) (name : Option CStr) :
    DerefsOnly (resolve avars name) := by
  cases name with
  | none => trivial
  | some name => exact resolveLoop_derefs _ 0 avars

theorem visitChild_derefs {f : AVarWalker → Except Stop (Node × AVarWalker)}
    (hf : ∀ w, DerefsOnly (f w)) (addr : List Nat) (w : AVarWalker) :
    DerefsOnly (visitChild f addr w) := by
  rw [visitChild]
  split_ifs
  · exact hf w
  · exact rfl

mutual
theorem visit_derefs (scope : Scope) : ∀ (addr : List Nat) (n : Node) (w : AVarWalker),
    DerefsOnly (visit scope addr n w)
  | _, .null, _ => rfl
  | addr, .paren l, w =>
    (visitChild_derefs (visit_derefs scope _ l) _ _).bind fun _ _ => trivial
  | _, .floatlit _ _, _ => trivial
  | addr, .ident s _, w => by
    refine (resolve_derefs scope.avars (some s)).bind fun r _ => ?_
    cases r with
    | none => trivial
    | some dep => trivial
  | addr, .call l args _, w => by
    rw [visit]
    cases l.sval with
    | none => exact rfl
    | some s =>
      refine Ends.bind (P := fun _ => True) trivial fun _ _ => ?_
      have hargs : ∀ w, DerefsOnly (visitArgs scope addr 3 args w) :=
        visitArgs_derefs scope addr 3 args
      simp only
      split
      · exact (visit_derefs scope _ l _).bind fun r _ => (hargs r.2).bind fun _ _ => trivial
      · exact (hargs _).bind fun _ _ => trivial
  | addr, .unary _ l, w =>
    (visitChild_derefs (visit_derefs scope _ l) _ _).bind fun _ _ => trivial
  | addr, .ifElse c l r, w =>
    (visitChild_derefs (visit_derefs scope _ c) _ _).bind fun _ _ =>
      (visitChild_derefs (visit_derefs scope _ l) _ _).bind fun _ _ =>
        (visitChild_derefs (visit_derefs scope _ r) _ _).bind fun _ _ => trivial
  | addr, .binary _ l r, w =>
    (visitChild_derefs (visit_derefs scope _ l) _ _).bind fun _ _ =>
      (visitChild_derefs (visit_derefs scope _ r) _ _).bind fun _ _ => trivial

theorem visitArgs_derefs (scope : Scope) (addr : List Nat) : ∀ (i : Nat) (args : List Node)
    (w : AVarWalker), DerefsOnly (visitArgs scope addr i args w)
  | _, [], _ => trivial
  | i, a :: args, _ =>
    (visitChild_derefs (visit_derefs scope _ a) _ _).bind fun _ _ =>
      (visitArgs_derefs scope addr (i + 1) args _).bind fun _ _ => trivial
end

theorem nodeWalk_returns (scope : Scope) (n : Node) :
    Returns (fun _ => True) (nodeWalk scope n) := by
  rw [nodeWalk]
  split_ifs
  · exact fun h => by cases h
  · exact (visit_derefs scope [] n _).returns.bind fun _ _ => trivial

theorem resolveAll_returns (scope : Scope) (names : List CStr) :
    Returns (fun _ => True) (resolveAll scope names) := by
  induction names with
  | nil => trivial
  | cons name names ih =>
    refine (resolve_derefs scope.avars (some name)).returns.bind fun r _ => ?_
    cases r with
    | none => exact fun h => by cases h
    | some path => exact ih.bind fun _ _ => trivial

theorem avarInitVar_returns (scope : Scope) (path : Path) (v : Var) (st : Store) :
    Returns (fun _ => True) (avarInitVar scope path v st) := by
  rw [avarInitVar]
  split_ifs
  · cases scope.parent with
    | none => exact fun h => by cases h
    | some parent =>
      refine (resolve_derefs parent v.src).returns.bind fun r _ => ?_
      cases r with
      | none => exact fun h => by cases h
      | some src => trivial
  · trivial
  · exact (nodeWalk_returns scope _).bind fun _ _ =>
      (resolveAll_returns scope _).bind fun _ _ =>
        (resolveAll_returns scope _).bind fun _ _ => trivial

theorem copyOffsets_returns (base : Path) : ∀ (i : Nat) (avars : List AVar) (st : Store),
    Returns (fun _ => True) (copyOffsets base i avars st)
  | _, [], _ => trivial
  | i, av :: rest, st => by
    rw [copyOffsets]
    split_ifs
    · split
      · exact fun h => by cases h
      · exact copyOffsets_returns base (i + 1) rest _
    · exact copyOffsets_returns base (i + 1) rest st

theorem moduleCompileEnd_returns (scope : Scope) (r : Store × Nat) :
    Returns (fun _ => True) (moduleCompileEnd scope r) := by
  rw [moduleCompileEnd]
  split_ifs
  · exact fun h => by cases h
  · exact copyOffsets_returns _ _ _ _

theorem countFailed_returns {st : Store} {failed : Nat} {x : Except Stop Store}
    (h : Returns (fun _ => True) x) : Returns (fun _ => True) (countFailed st failed x) := by
  cases x with
  | ok st' => trivial
  | error e =>
    cases e with
    | err code => trivial
    | undefined why => exact h
    | diverge => exact h

mutual
theorem avarInit_returns (scope : Scope) : ∀ (i : Nat) (av : AVar) (st : Store),
    Returns (fun _ => True) (avarInit scope i av st)
  | _, .var v _, st => avarInitVar_returns scope _ v st
  | _, .module _ avars, st =>
    (compileLoop_returns _ 0 avars (st, 0)).bind fun _ _ => moduleCompileEnd_returns _ _

theorem compileLoop_returns (scope : Scope) : ∀ (i : Nat) (avars : List AVar) (r : Store × Nat),
    Returns (fun _ => True) (compileLoop scope i avars r)
  | _, [], _ => trivial
  | i, av :: rest, (st, _) =>
    (countFailed_returns (avarInit_returns scope i av st)).bind fun r _ =>
      compileLoop_returns scope (i + 1) rest r
end

theorem compileRoot_returns (root : List AVar) : Returns (fun _ => True) (compileRoot root) :=
  (compileLoop_returns _ 0 root _).bind fun _ _ => moduleCompileEnd_returns _ _

/-! ### All paths of a tree -/

mutual
def AVar.paths (path : Path) : AVar → List Path
  | .var _ _ => [path]
  | .module _ avars => path :: pathsFrom path 0 avars

/-- The paths into the children of the module at `base`, the head of the list being at `i`. -/
def pathsFrom (base : Path) : Nat → List AVar → List Path
  | _, [] => []
  | i, av :: rest => av.paths (base ++ [i]) ++ pathsFrom base (i + 1) rest
end

mutual
theorem AVar.length_paths (path : Path) : ∀ av : AVar, (av.paths path).length = av.count
  | .var _ _ => rfl
  | .module _ avars => by
    rw [AVar.paths, AVar.count, List.length_cons, length_pathsFrom path 0 avars]

theorem length_pathsFrom (base : Path) : ∀ (i : Nat) (avars : List AVar),
    (pathsFrom base i avars).length = countAVars avars
  | _, [] => rfl
  | i, av :: rest => by
    rw [pathsFrom, countAVars, List.length_append, AVar.length_paths _ av,
      length_pathsFrom base (i + 1) rest]
end

mutual
theorem AVar.mem_paths (path : Path) : ∀ {av : AVar} {i : Nat} {rest : Path} {x : AVar},
    avarAt av.avars (i :: rest) = some x → path ++ i :: rest ∈ av.paths path
  | .var _ _, _, _, _, h => by simp [AVar.avars, avarAt] at h
  | .module _ avars, i, rest, x, h => by
    have := mem_pathsFrom path 0 h
    rw [Nat.zero_add] at this
    exact List.mem_cons_of_mem _ this

theorem mem_pathsFrom (base : Path) : ∀ (k : Nat) {avars : List AVar} {i : Nat} {rest : Path}
    {x : AVar}, avarAt avars (i :: rest) = some x → base ++ (k + i) :: rest ∈ pathsFrom base k avars
  | _, [], i, rest, x, h => by simp [avarAt] at h
  | k, av :: avars, 0, rest, x, h => by
    refine List.mem_append_left _ ?_
    cases rest with
    | nil => cases av <;> simp [AVar.paths]
    | cons j rest =>
      have hj : avarAt av.avars (j :: rest) = some x := h
      have := AVar.mem_paths (base ++ [k]) hj
      rwa [List.append_assoc] at this
  | k, av :: avars, i + 1, rest, x, h => by
    refine List.mem_append_right _ ?_
    have hi : avarAt avars (i :: rest) = some x := h
    have := mem_pathsFrom base (k + 1) hi
    rwa [Nat.add_right_comm] at this
end

theorem mem_paths {root : List AVar} {p : Path} {av : AVar} (h : avarAt root p = some av) :
    p ∈ pathsFrom [] 0 root := by
  cases p with
  | nil => simp [avarAt] at h
  | cons i rest =>
    have := mem_pathsFrom [] 0 h
    rwa [Nat.zero_add] at this

/-! ### Sorting -/

/-- Whatever a variable depends on is there. -/
def DepsExist (root : List AVar) (st : Store) : Prop :=
  ∀ p, ∀ d ∈ (st p).directDeps, ∃ av, avarAt root d = some av

/-- What was being visited still is. -/
def KeepsVisiting (s s' : SortState) : Prop := ∀ p, s.visiting p = true → s'.visiting p = true

section
variable {root : List AVar} {st : Store}

theorem addDeps_returns {add : Path → SortState → Except Stop SortState} {ds : List Path}
    {s : SortState}
    (hadd : ∀ d ∈ ds, ∀ s', KeepsVisiting s s' → Returns (KeepsVisiting s') (add d s')) :
    Returns (KeepsVisiting s) (addDeps add ds s) := by
  refine addDeps_ends (J := fun _ => KeepsVisiting s) (fun _ _ _ _ h _ => h) ?_ fun _ h => h
  exact fun _ d hd s' hs' => (hadd d hd s' hs').imp (fun s'' h p hp => h p (hs' p hp)) fun _ h => h

/-- What is being visited is on the stack, and the stack is no deeper than the tree. -/
theorem moduleAddToRunlists_returns (hst : DepsExist root st) (m : Path) :
    ∀ {fuel : Nat} {p : Path} {s : SortState} (active : List Path), p ∈ pathsFrom [] 0 root →
      active.Nodup → (∀ q ∈ active, q ∈ pathsFrom [] 0 root ∧ s.visiting q = true) →
      (pathsFrom [] 0 root).length < active.length + fuel →
      Returns (KeepsVisiting s) (moduleAddToRunlists root st m fuel p s) := by
  intro fuel
  induction fuel with
  | zero =>
    intro p s active _ hnodup hactive hfuel
    have := (hnodup.subperm fun q hq => (hactive q hq).1).length_le
    omega
  | succ fuel ih =>
    intro p s active hp hnodup hactive hfuel
    rw [moduleAddToRunlists]
    split_ifs with hvisited hvisiting
    · exact fun _ h => h
    · exact fun h => by cases h
    have hfresh : p ∉ active := fun hmem => hvisiting (hactive p hmem).2
    refine Ends.bind (P := KeepsVisiting { s with visiting := Function.update s.visiting p true })
      (addDeps_returns fun d hd s' hs' => ?_) fun s' hs' => ?_
    · obtain ⟨av, hav⟩ := hst p d hd
      refine ih (p :: active) (mem_paths hav) (List.nodup_cons.mpr ⟨hfresh, hnodup⟩) ?_
        (by rw [List.length_cons]; omega)
      intro q hq
      rcases List.mem_cons.mp hq with rfl | hq
      · exact ⟨hp, hs' q (Function.update_self _ _ _)⟩
      · have hne : q ≠ p := fun he => hfresh (he ▸ hq)
        exact ⟨(hactive q hq).1, hs' q ((Function.update_of_ne hne _ _).trans (hactive q hq).2)⟩
    · cases avarAt root p with
      | none => exact fun h => by cases h
      | some av =>
        intro q hq
        have hne : q ≠ p := fun he => hvisiting (he ▸ hq)
        have hq' := hs' q ((Function.update_of_ne hne _ _).trans hq)
        exact (Function.update_of_ne hne _ _).trans hq'

theorem length_paths_lt_sortFuel (root : List AVar) :
    (pathsFrom [] 0 root).length < sortFuel root := by
  rw [length_pathsFrom, sortFuel]
  omega

mutual
theorem sortSub_returns (hst : DepsExist root st) : ∀ (av : AVar) {path : Path} {s : SortState},
    avarAt root path = some av → Returns (fun _ => True) (sortSub root st path av s)
  | .var _ _, _, _, _ => trivial
  | .module v avars, path, s, h => by
    refine (sortLoop_returns hst avars (m := path) (i := 0) fun j av hav => ?_).bind
      fun _ _ => trivial
    obtain ⟨i, rest, rfl⟩ : ∃ i rest, path = i :: rest := by
      cases path with
      | nil => simp [avarAt] at h
      | cons i rest => exact ⟨i, rest, rfl⟩
    rw [Nat.zero_add, avarAt_append_cons h, avarAt_cons, if_pos (by rfl)]
    exact hav

theorem sortLoop_returns (hst : DepsExist root st) : ∀ (avars : List AVar) {m : Path} {i : Nat}
    {s : SortState}, (∀ j av, avars[j]? = some av → avarAt root (m ++ [i + j]) = some av) →
      Returns (fun _ => True) (sortLoop root st m i avars s)
  | [], _, _, _, _ => trivial
  | av :: rest, m, i, s, h => by
    have hrest : ∀ j av, rest[j]? = some av → avarAt root (m ++ [i + 1 + j]) = some av := by
      intro j av' hav'
      have := h (j + 1) av' hav'
      rwa [← Nat.add_assoc, Nat.add_right_comm] at this
    have hhead : avarAt root (m ++ [i]) = some av := h 0 av rfl
    rw [sortLoop]
    split_ifs
    · exact sortLoop_returns hst rest hrest
    · refine (sortSub_returns hst av hhead).bind fun s _ => ?_
      refine (moduleAddToRunlists_returns hst m [] (mem_paths hhead) List.nodup_nil
        (by simp) ?_).bind fun s _ => sortLoop_returns hst rest hrest
      rw [List.length_nil, Nat.zero_add]
      exact length_paths_lt_sortFuel root
end

theorem moduleSortRunlists_returns (hst : DepsExist root st) (m : Path) (s : SortState) :
    Returns (fun _ => True) (moduleSortRunlists root st m s) := by
  refine (sortLoop_returns hst _ fun j av hav => ?_).bind fun _ _ => trivial
  rw [avarAt_child, ← hav, List.getElem?_drop]

end

/-! ### Evaluating -/

/-- It returns, unless its behaviour is undefined. -/
abbrev UndefinedOnly {α : Type} (x : Except Stop α) : Prop :=
  Ends (fun _ => True) (fun e => ∃ why, e = .undefined why) x

theorem UndefinedOnly.returns {α : Type} {x : Except Stop α} (h : UndefinedOnly x) :
    Returns (fun _ => True) x := by
  refine h.imp (fun _ h => h) ?_
  rintro e ⟨why, rfl⟩
  simp

mutual
theorem svisit_undefinedOnly (env : Env) (read : Path → ℚ) (dt time : ℚ) : ∀ n : Node,
    UndefinedOnly (svisit env read dt time n)
  | .null => ⟨_, rfl⟩
  | .paren l => svisit_undefinedOnly env read dt time l
  | .floatlit _ _ => trivial
  | .ident _ none => ⟨_, rfl⟩
  | .ident _ (some _) => trivial
  | .call _ args none =>
    (svisitArgs_undefinedOnly env read dt time 0 args).bind fun _ _ => ⟨_, rfl⟩
  | .call _ args (some fn) => by
    refine (svisitArgs_undefinedOnly env read dt time 0 args).bind fun vs _ => ?_
    obtain ⟨v, hv⟩ := callFn_ok env fn dt time vs
    show UndefinedOnly (callFn env fn dt time vs)
    rw [hv]
    trivial
  | .ifElse c l r => by
    refine (svisit_undefinedOnly env read dt time c).bind fun cond _ => ?_
    split_ifs
    · exact svisit_undefinedOnly env read dt time l
    · exact svisit_undefinedOnly env read dt time r
  | .unary _ l => (svisit_undefinedOnly env read dt time l).bind fun _ _ => trivial
  | .binary _ l r => (svisit_undefinedOnly env read dt time l).bind fun _ _ =>
      (svisit_undefinedOnly env read dt time r).bind fun _ _ => trivial

theorem svisitArgs_undefinedOnly (env : Env) (read : Path → ℚ) (dt time : ℚ) : ∀ (i : Nat)
    (args : List Node), UndefinedOnly (svisitArgs env read dt time i args)
  | _, [] => trivial
  | i, a :: args => by
    refine (svisit_undefinedOnly env read dt time a).bind fun v _ => ?_
    split_ifs
    · exact ⟨_, rfl⟩
    · exact (svisitArgs_undefinedOnly env read dt time (i + 1) args).bind fun _ _ => trivial
end

theorem calcValue_undefinedOnly (s : SDSim) (data : Row) (p : Path) :
    UndefinedOnly (s.calcValue data p) := by
  refine (svisit_undefinedOnly _ _ _ _ _).bind fun v _ => ?_
  cases s.gfAt p with
  | none => trivial
  | some t =>
    obtain ⟨y, hy⟩ := lookup_ok t v
    show UndefinedOnly (lookup t v)
    rw [hy]
    trivial

theorem toSize_undefinedOnly (q : ℚ) : UndefinedOnly (toSize q) := by
  rw [toSize]
  split_ifs
  · exact ⟨_, rfl⟩
  · trivial

theorem sdSimReset_undefinedOnly {s : SDSim} (h : WellBuilt s) :
    UndefinedOnly (sdSimReset s) := by
  rw [sdSimReset]
  split_ifs
  · exact ⟨_, rfl⟩
  refine (toSize_undefinedOnly _).bind fun nsteps _ =>
    (toSize_undefinedOnly _).bind fun saveEvery _ => ?_
  generalize hs' : s.cleared nsteps (if saveEvery > 1 then saveEvery else 1) = s'
  have hsetup : SameSetup s s' := hs' ▸ ⟨rfl, rfl, rfl, rfl, rfl, rfl⟩
  have hcalc := calcInitials_eq (hsetup.wellBuilt h) s'.curr
  refine Ends.bind (P := fun _ => True) ?_ fun _ _ => trivial
  rw [hcalc]
  cases hrun : s'.initialsOf s'.curr with
  | ok row => trivial
  | error e =>
    obtain ⟨p, -, row, hp⟩ := run_error hrun
    exact (calcValue_undefinedOnly s' row p).of_error hp

/-! ### The whole of `sd_sim_new` -/

theorem sdSimNew_returns {env : Env} {p : SDProject} {name : Option CStr}
    (h : ∀ specs model, sdProjectGetModel p name = some (specs, model) →
      ¬ Recurs p (none, model.vars)) :
    Returns (fun _ => True) (sdSimNew env p name) := by
  rw [sdSimNew]
  cases hmodel : sdProjectGetModel p name with
  | none => exact fun h => by cases h
  | some r =>
    obtain ⟨specs, model⟩ := r
    have hroot := module_returns hmodel (h specs model hmodel)
    refine (hroot.of_values fun _ h => h).bind fun root hroot => ?_
    refine ((compileRoot_returns root).of_values fun _ h => h).bind fun st hst => ?_
    generalize hoff : moduleAssignOffsets [] 0 root (st, 0) = r
    obtain ⟨-, hcomp, -⟩ := compiled_of_assigned hroot hst hoff
    have hdeps : DepsExist root r.1 := fun q d hd => ((hcomp q).dep hd).2
    refine ((moduleSortRunlists_returns hdeps [] _).of_values fun _ h => h).bind
      fun sorted hsorted => (sdSimReset_undefinedOnly (@BuiltFrom.wellBuilt p model _ ?_)).returns
    exact ⟨hroot, ⟨st, hst, hoff⟩, sorted, hsorted, rfl⟩

/-- `sd_sim_new` comes to an end unless a chain of calls of `module` leads back to itself,
    and then no stack is deep enough for the recursion. -/
theorem sdSimNew_returns_iff (env : Env) (p : SDProject) (name : Option CStr) :
    (sdSimNew env p name ≠ .error .diverge ↔
      ∀ specs model, sdProjectGetModel p name = some (specs, model) →
        ¬ Recurs p (none, model.vars)) ∧
    ∀ specs model, sdProjectGetModel p name = some (specs, model) →
      Recurs p (none, model.vars) → ∀ fuel, module p fuel none model = .error .diverge := by
  have hdiverges : ∀ specs model, sdProjectGetModel p name = some (specs, model) →
      Recurs p (none, model.vars) → ∀ fuel, module p fuel none model = .error .diverge := by
    intro specs model hmodel hrec fuel
    by_contra hne
    exact (module_returns_iff hmodel).mp ⟨fuel, hne⟩ hrec
  refine ⟨⟨fun hne specs model hmodel hrec => hne ?_, fun h hdiv => ?_⟩, hdiverges⟩
  · rw [sdSimNew, hmodel]
    simp only [hdiverges specs model hmodel hrec]
    rfl
  · exact (sdSimNew_returns h).of_error hdiv rfl

/-- A model `m` with a module named after it. -/
def nestedInItself : List Var :=
  [{ Var.ofEquation .module "m" "" with eqn := none }]

theorem sdSimNew_nestedInItself :
    let p := SDProject.ofModels ⟨0, 1, 1, 1⟩ [{ name := none, vars := nestedInItself },
      { name := some (cstr "m"), vars := nestedInItself }]
    sdSimNew (.plain true) p none = .error .diverge ∧
      ∀ fuel, module p fuel none { name := none, vars := nestedInItself } = .error .diverge := by
  intro p
  have hmodel : sdProjectGetModel p (some (cstr "m")) =
      some (⟨0, 1, 1, 1⟩, { name := some (cstr "m"), vars := nestedInItself }) := by
    decide +kernel
  have henter : ∀ vm, Unconnected vm { Var.ofEquation .module "m" "" with eqn := none } →
      Calls p (vm, nestedInItself)
        (some { Var.ofEquation .module "m" "" with eqn := none }, nestedInItself) :=
    fun vm hkept => Calls.intro (builds_iff.mpr (by simp : ∀ v ∈ [], _)) hkept rfl hmodel
  have hagain := henter (some { Var.ofEquation .module "m" "" with eqn := none }) rfl
  have hrec : Recurs p (none, nestedInItself) := ⟨_, .single (henter none rfl), .single hagain⟩
  have hroot : sdProjectGetModel p none =
      some (⟨0, 1, 1, 1⟩, { name := none, vars := nestedInItself }) := by
    decide +kernel
  have hdiv : ∀ fuel, module p fuel none { name := none, vars := nestedInItself } =
      .error .diverge := by
    intro fuel
    by_contra hne
    exact (module_returns_iff hroot).mp ⟨fuel, hne⟩ hrec
  refine ⟨?_, hdiv⟩
  rw [sdSimNew, hroot]
  simp only [hdiv]
  rfl

end Libsd

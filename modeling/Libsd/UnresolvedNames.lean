/-
  Libsd/UnresolvedNames.lean
  ==========================
  **What becomes of names that cannot be resolved.**

  `avar_walker_start` prints that a name or a function is unknown, and goes on.  Nothing
  behind it notices, so such a project is rejected only if it would be rejected
  anyway: for a missing tree, source or flow, or for a circularity among the names that
  are known (`rejectsUnresolved_iff`).
-/
import Libsd.CircularSort
import Libsd.CompileOutcome

namespace Libsd

open Outcome Relation DepthFirst

/-! ### The names in a tree of modules -/

/-- The name of an identifier leads to a variable, that of a call to a function. -/
def Node.Known (scope : Scope) : Node → Prop
  | .ident s _ => ∃ path, resolve scope.avars (some s) = .ok (some path)
  | .call l _ _ => ∃ s fn, l.sval = some s ∧ RT_FNS.lookup s = some fn
  | _ => True

/-- An equation names an unknown variable or function. -/
def Unresolved (scope : Scope) (v : Var) (n : Node) : Prop :=
  v.Compiles ∧ ¬ n.Everywhere (Node.Known scope)

/-- The name has been resolved, to what `resolve` finds for it, and the function is set. -/
def Node.ResolvedIn (scope : Scope) : Node → Prop
  | .ident s av => ∃ path, resolve scope.avars (some s) = .ok (some path) ∧
      av = some (scope.base ++ path)
  | .call _ _ fn => fn ≠ none
  | _ => True

instance (v : Var) : Decidable v.Compiles := inferInstanceAs (Decidable (_ ∧ _))

/-- The variables that the equation at a path refers to, as far as they are known. -/
def refersAt (root : List AVar) (p : Path) : List Path :=
  match avarAt root p with
  | some (.var v n) => if v.Compiles then (n.link (scopeAt root p.dropLast).find).idents else []
  | _ => []

/-- The store with these dependencies and nothing else. -/
def referStore (root : List AVar) : Store := fun p =>
  { initStore root p with directDeps := refersAt root p }

/-- The project is rejected whatever becomes of unknown names: a variable is refused, or
    the known names lead to a circularity. -/
def RejectedAnyway (root : List AVar) : Prop :=
  ¬ SomeVar root Broken (fun _ => True) ∧
    (SomeVar root Refused (fun _ => True) ∨ FindsCycle root (referStore root) [])

variable {root : List AVar} {st st' : Store}

/-! ### Dependencies and circularities -/

theorem Compiled.depsOf_eq (h : ∀ p, Compiled root p (st p)) :
    depsOf st = depsOf (referStore root) := by
  funext p
  show (st p).directDeps = refersAt root p
  have hp := h p
  rw [refersAt]
  unfold Compiled at hp
  cases hat : avarAt root p with
  | none =>
    rw [hat] at hp
    obtain ⟨offset, heq⟩ := hp
    rw [heq]
    rfl
  | some av =>
    rw [hat] at hp
    cases av with
    | module v avars =>
      obtain ⟨offset, heq⟩ := hp
      rw [heq]
      rfl
    | var v n =>
      simp only at hp ⊢
      generalize st p = d at hp ⊢
      cases hp with
      | ref hv => rw [if_neg fun hc => hc.1 hv]; rfl
      | time _ he hn => rw [if_neg fun hc => hc.2 ⟨he, hn⟩]; rfl
      | equation hv he => rw [if_pos ⟨hv, he⟩]

theorem SortedFrom.congr (h : depsOf st = depsOf st') {m c : Path} (hc : SortedFrom root st m c) :
    SortedFrom root st' m c := by
  induction hc with
  | self => exact .self
  | child _ hi hmodule hskip ih =>
    refine .child ih hi hmodule ?_
    rwa [Skipped, Leads, ← h]

theorem FindsCycle.congr (h : depsOf st = depsOf st') {m : Path} (hc : FindsCycle root st m) :
    FindsCycle root st' m := by
  obtain ⟨c, hc, i, hi, hcycle⟩ := hc
  refine ⟨c, hc.congr h, i, hi, fun hfree => hcycle ?_⟩
  intro q hq hon
  have hq' : ReflTransGen (Dep (depsOf st)) (c ++ [i]) q := hq
  have hon' : TransGen (Dep (depsOf st)) q q := hon
  rw [h] at hq' hon'
  exact hfree q hq' hon'

/-! ### The outcome of `sd_sim_new` -/

section
variable {env : Env} {p : SDProject} {name : Option CStr} {specs : SimSpec} {model : SDModel}

/-- Behind the instantiation, `sd_sim_new` fails with an error just when the project is
    rejected whatever becomes of unknown names. -/
theorem sdSimNew_rejects_iff (hmodel : sdProjectGetModel p name = some (specs, model))
    (hroot : module p (moduleFuel p) none model = .ok root) :
    (∃ e, sdSimNew env p name = .error (.err e)) ↔ RejectedAnyway root := by
  have hcompile := compileRoot_outcome (module_typed hroot)
  rw [sdSimNew, hmodel]
  simp only [hroot, bind, Except.bind]
  cases hst : compileRoot root with
  | error e =>
    rcases hcompile.of_error hst with ⟨rfl, hrefused, hbroken⟩ | ⟨rfl, hbroken⟩
    · exact iff_of_true ⟨_, rfl⟩ ⟨hbroken, .inl hrefused⟩
    · exact iff_of_false (by rintro ⟨e, ⟨⟩⟩) fun h => h.1 hbroken
  | ok st =>
    obtain ⟨hrefused, hbroken⟩ := hcompile.of_ok hst
    simp only
    cases hoff : moduleAssignOffsets [] 0 root (st, 0) with
    | mk store nvars =>
      obtain ⟨-, hcomp, -⟩ := compiled_of_assigned hroot hst hoff
      have hdeps : DepsExist root store := fun q d hd => ((hcomp q).dep hd).2
      have hsame := Compiled.depsOf_eq hcomp
      simp only
      rcases moduleSortRunlists_outcome (scoped_of_compiled hcomp) hdeps with
        ⟨hsort, hcycle⟩ | ⟨⟨s, hsort⟩, hcycle⟩
      · rw [hsort]
        exact iff_of_true ⟨_, rfl⟩ ⟨hbroken, .inr (hcycle.congr hsame)⟩
      · rw [hsort]
        refine iff_of_false ?_ ?_
        · -- resetting a simulation reports no error
          rintro ⟨e, he⟩
          have hbuilt : ∀ s0 : SDSim, s0.root = root → s0.store = store → s0.nvars = nvars →
              s0.lists = s.lists → BuiltFrom p model s0 := by
            rintro s0 rfl rfl rfl hlists
            exact ⟨hroot, ⟨st, hst, hoff⟩, s, hsort, hlists⟩
          obtain ⟨why, hwhy⟩ :=
            (sdSimReset_undefinedOnly (hbuilt _ rfl rfl rfl rfl).wellBuilt).of_error he
          cases hwhy
        · rintro ⟨-, hmissing | hcycle'⟩
          · exact hrefused hmissing
          · exact hcycle (hcycle'.congr hsame.symm)

end

/-! ### Resolved names -/

/-- Linking resolves the names that are known, and no others. -/
theorem Node.resolvedIn_link_iff {scope : Scope} {n : Node} :
    (n.link scope.find).Everywhere (Node.ResolvedIn scope) ↔ n.Everywhere (Node.Known scope) := by
  have hnode : ∀ k : Node, Node.ResolvedIn scope (k.link scope.find) ↔ Node.Known scope k := by
    intro k
    cases k with
    | ident s av =>
      constructor
      · rintro ⟨path, hpath, -⟩
        exact ⟨path, hpath⟩
      · rintro ⟨path, hpath⟩
        exact ⟨path, hpath, by simp [Scope.find, hpath]⟩
    | call l args fn =>
      show (l.sval.bind fun s => RT_FNS.lookup s) ≠ none ↔ _
      rw [Option.ne_none_iff_exists']
      constructor
      · rintro ⟨fn, h⟩
        obtain ⟨s, hs, hfn⟩ := Option.bind_eq_some_iff.mp h
        exact ⟨s, fn, hs, hfn⟩
      · rintro ⟨s, fn, hs, hfn⟩
        exact ⟨fn, Option.bind_eq_some_iff.mpr ⟨s, hs, hfn⟩⟩
    | _ => exact Iff.rfl
  rw [Node.everywhere_link_iff]
  exact ⟨.imp fun k => (hnode k).mp, .imp fun k => (hnode k).mpr⟩

/-- The tree of `AVar`s that `sd_sim_new` makes for a model of the project. -/
def Instantiated (p : SDProject) (name : Option CStr) (root : List AVar) : Prop :=
  ∃ specs model, sdProjectGetModel p name = some (specs, model) ∧
    module p (moduleFuel p) none model = .ok root

/-- `sd_sim_new` returns a simulation only if every equation is fully resolved: in what it
    returns every name and function is, and a project with an unknown one is rejected. -/
structure RejectsUnresolved (env : Env) (p : SDProject) (name : Option CStr) : Prop where
  returned : ∀ s, sdSimNew env p name = .ok s → ∀ q v n, avarAt s.root q = some (.var v n) →
    v.type ≠ .ref → (s.store q).node.Everywhere (Node.ResolvedIn (scopeAt s.root q.dropLast))
  rejected : ∀ root, Instantiated p name root → SomeVar root Unresolved (fun _ => True) →
    ∃ e, sdSimNew env p name = .error (.err e)

/-- In a compiled tree without unknown names, all are resolved. -/
theorem resolvedIn_of_compiled (htyped : Typed root) (hcomp : ∀ p, Compiled root p (st p))
    (hknown : ¬ SomeVar root Unresolved (fun _ => True)) {q : Path} {v : Var} {n : Node}
    (hq : avarAt root q = some (.var v n)) (hv : v.type ≠ .ref) :
    (st q).node.Everywhere (Node.ResolvedIn (scopeAt root q.dropLast)) := by
  have hc := hcomp q
  simp only [Compiled, hq] at hc
  generalize st q = d at hc ⊢
  cases hc with
  | ref href => exact absurd href hv
  | time _ he hname =>
    have hnull : n = .null := (htyped _ _ hq).node_null he
    rw [hnull]
    trivial
  | equation _ he =>
    apply Node.resolvedIn_link_iff.mpr
    by_contra hn
    exact hknown ⟨q, v, n, trivial, hq, ⟨hv, he⟩, hn⟩

theorem rejectsUnresolved_iff (env : Env) (p : SDProject) (name : Option CStr) :
    RejectsUnresolved env p name ↔ ∀ root, Instantiated p name root →
      ¬ SomeVar root Unresolved (fun _ => True) ∨ RejectedAnyway root := by
  constructor
  · rintro h root ⟨specs, model, hmodel, hroot⟩
    by_cases hun : SomeVar root Unresolved (fun _ => True)
    · have hrej := h.rejected root ⟨specs, model, hmodel, hroot⟩ hun
      exact .inr ((sdSimNew_rejects_iff hmodel hroot).mp hrej)
    · exact .inl hun
  · intro h
    constructor
    · intro s hs q v n hq hv
      obtain ⟨specs, model, s0, hmodel, hbuilt, -, -, hreset⟩ := sdSimNew_cases hs
      obtain ⟨hr, hsame⟩ := sdSimReset_isReset hbuilt.wellBuilt hreset
      have hroot : module p (moduleFuel p) none model = .ok s.root := by
        rw [hsame.root]
        exact hbuilt.root
      rcases h s.root ⟨specs, model, hmodel, hroot⟩ with hknown | hrej
      · exact resolvedIn_of_compiled hr.built.typed hr.built.compiled hknown hq hv
      · have hfails : ∃ e, sdSimNew env p name = .error (.err e) :=
          (sdSimNew_rejects_iff hmodel hroot).mpr hrej
        obtain ⟨e, he⟩ := hfails
        cases hs.symm.trans he
    · rintro root ⟨specs, model, hmodel, hroot⟩ hun
      rcases h root ⟨specs, model, hmodel, hroot⟩ with hknown | hrej
      · exact absurd hun hknown
      · exact (sdSimNew_rejects_iff hmodel hroot).mpr hrej

/-- A model whose only equation names a variable that is not there. -/
def unknownName (simSpecs : SimSpec) : SDProject :=
  .ofModels simSpecs [{ name := none, vars := [Var.ofEquation .aux "x" "foo"] }]

/-- The project is not rejected: the equation is evaluated, and its pointer followed. -/
theorem unknownName_not_rejected :
    ¬ RejectsUnresolved (.plain true) (unknownName ⟨0, 1, 1, 1⟩) none := by
  intro h
  obtain ⟨root, hroot, hP⟩ := exists_ok
    (x := module (unknownName ⟨0, 1, 1, 1⟩) (moduleFuel (unknownName ⟨0, 1, 1, 1⟩)) none
      { name := none, vars := [Var.ofEquation .aux "x" "foo"] })
    (P := fun root => decide ((avarAt root [1]).map (fun av => (av.isModule, av.v, av.node)) =
        some (false, Var.ofEquation .aux "x" "foo", .ident (cstr "foo") none) ∧
      resolve root (some (cstr "foo")) = .ok none)) (by decide +kernel)
  obtain ⟨hx, hfoo⟩ := of_decide_eq_true hP
  obtain ⟨av, hav, heq⟩ := Option.map_eq_some_iff.mp hx
  have hinst : Instantiated (unknownName ⟨0, 1, 1, 1⟩) none root := ⟨_, _, rfl, hroot⟩
  have hun : SomeVar root Unresolved (fun _ => True) := by
    cases av with
    | module v avars => cases heq
    | var v n =>
      obtain ⟨-, rfl, rfl⟩ : _ ∧ _ ∧ _ := by simpa [AVar.v, AVar.node] using heq
      refine ⟨[1], _, _, trivial, hav, ⟨by decide, by decide +kernel⟩, ?_⟩
      rintro ⟨path, hpath⟩
      cases hfoo.symm.trans hpath
  obtain ⟨e, he⟩ := h.rejected root hinst hun
  have hcrash : (sdSimNew (.plain true) (unknownName ⟨0, 1, 1, 1⟩) none).map (fun _ => ()) =
      .error (.undefined .nullDeref) := by
    decide +kernel
  rw [he] at hcrash
  cases hcrash

end Libsd

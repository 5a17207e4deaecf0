/-
  Libsd/CompileOutcome.lean
  =========================
  **When compilation succeeds, fails or follows a NULL pointer.**

  It is a matter of the single variables.  `avar_init` refuses a variable for a missing
  tree, source or flow (`Refused`), and it follows a NULL pointer where the search for a
  name comes to a variable without one (`Broken`).  An error is counted and the loop goes
  on, so compilation fails when some variable is refused and none is broken
  (`compileRoot_outcome`).
-/
import Libsd.FlatBuild
import Libsd.Termination

namespace Libsd

open Outcome

/-! ### One variable -/

/-- A variable that is compiled through its equation: no connected input and not `time`. -/
def Var.Compiles (v : Var) : Prop :=
  v.type ≠ .ref ∧ ¬ (v.eqn = none ∧ v.name = some (cstr "time"))

/-- The search for a name comes to a variable without one. -/
def Unsearchable (avars : List AVar) (name : Option CStr) : Prop :=
  resolve avars name = .error (.undefined .nullDeref)

/-- `resolveAll` ends at a name that leads nowhere. -/
inductive FlowMissing (scope : Scope) : List CStr → Prop where
  | here {name : CStr} {names : List CStr} (h : resolve scope.avars (some name) = .ok none) :
      FlowMissing scope (name :: names)
  | later {name : CStr} {names : List CStr} {path : Path}
      (h : resolve scope.avars (some name) = .ok (some path)) (hrest : FlowMissing scope names) :
      FlowMissing scope (name :: names)

/-- `resolveAll` ends at a name that cannot be searched for. -/
inductive FlowBroken (scope : Scope) : List CStr → Prop where
  | here {name : CStr} {names : List CStr} (h : Unsearchable scope.avars (some name)) :
      FlowBroken scope (name :: names)
  | later {name : CStr} {names : List CStr} {path : Path}
      (h : resolve scope.avars (some name) = .ok (some path)) (hrest : FlowBroken scope names) :
      FlowBroken scope (name :: names)

/-- `avar_init` returns an error for the variable `v` with the tree `n`. -/
inductive Refused (scope : Scope) (v : Var) (n : Node) : Prop where
  | source {parent : List AVar} (hv : v.type = .ref) (hparent : scope.parent = some parent)
      (hsrc : resolve parent v.src = .ok none)
  | tree (hv : v.Compiles) (hn : n.isNull = true)
  | flow (hv : v.Compiles) (hn : n.isNull = false) (hwalk : n.Everywhere (Node.Visitable scope))
      (hflow : FlowMissing scope (v.inflows ++ v.outflows))

/-- `avar_init` follows a NULL pointer. -/
inductive Broken (scope : Scope) (v : Var) (n : Node) : Prop where
  | root (hv : v.type = .ref) (hparent : scope.parent = none)
  | source {parent : List AVar} (hv : v.type = .ref) (hparent : scope.parent = some parent)
      (hsrc : Unsearchable parent v.src)
  | walk (hv : v.Compiles) (hn : n.isNull = false) (hwalk : ¬ n.Everywhere (Node.Visitable scope))
  | flow (hv : v.Compiles) (hn : n.isNull = false) (hwalk : n.Everywhere (Node.Visitable scope))
      (hflow : FlowBroken scope (v.inflows ++ v.outflows))

/-- Both loops over flow names, one after the other. -/
theorem resolveAll_append (scope : Scope) (names names' : List CStr) :
    resolveAll scope (names ++ names') = (do
      let paths ← resolveAll scope names
      let paths' ← resolveAll scope names'
      return paths ++ paths') := by
  induction names with
  | nil =>
    simp only [List.nil_append, resolveAll, bind, Except.bind]
    cases resolveAll scope names' <;> rfl
  | cons name names ih =>
    simp only [List.cons_append, resolveAll, ih, bind, Except.bind]
    cases resolve scope.avars (some name) with
    | error e => rfl
    | ok r =>
      cases r with
      | none => rfl
      | some path =>
        simp only
        cases resolveAll scope names with
        | error e => rfl
        | ok paths =>
          simp only
          cases resolveAll scope names' <;> rfl

theorem resolveAll_outcome (scope : Scope) (names : List CStr) :
    Ends (fun _ => ¬ FlowMissing scope names ∧ ¬ FlowBroken scope names)
      (fun e => (e = .err .unspecified ∧ FlowMissing scope names ∧ ¬ FlowBroken scope names) ∨
        (e = .undefined .nullDeref ∧ FlowBroken scope names)) (resolveAll scope names) := by
  induction names with
  | nil => exact And.intro nofun nofun
  | cons name names ih =>
    have hderefs := resolve_derefs scope.avars (some name)
    rw [resolveAll]
    cases hr : resolve scope.avars (some name) with
    | error e =>
      rw [hr] at hderefs
      exact Or.inr ⟨hderefs, .here (hr.trans (congrArg Except.error hderefs))⟩
    | ok r =>
      cases r with
      | none =>
        refine Or.inl ⟨rfl, .here hr, ?_⟩
        intro h
        cases h with
        | here h => cases hr.symm.trans h
        | later h => cases hr.symm.trans h
      | some path =>
        have hmissing : FlowMissing scope (name :: names) ↔ FlowMissing scope names := by
          refine ⟨fun h => ?_, .later hr⟩
          cases h with
          | here h => cases hr.symm.trans h
          | later _ hrest => exact hrest
        have hbroken : FlowBroken scope (name :: names) ↔ FlowBroken scope names := by
          refine ⟨fun h => ?_, .later hr⟩
          cases h with
          | here h => cases hr.symm.trans h
          | later _ hrest => exact hrest
        rw [hmissing, hbroken]
        show Ends _ _ (do
          let paths ← resolveAll scope names
          return (scope.base ++ path) :: paths)
        exact ih.bind fun _ h => h

section
variable {scope : Scope} {v : Var} {n : Node}

/-- A connected input is refused, or breaks, for its source alone. -/
theorem refused_ref {parent : List AVar} (hv : v.type = .ref)
    (hparent : scope.parent = some parent) :
    Refused scope v n ↔ resolve parent v.src = .ok none := by
  refine ⟨fun h => ?_, .source hv hparent⟩
  cases h with
  | source _ hp hsrc =>
    cases hparent.symm.trans hp
    exact hsrc
  | tree h => exact absurd hv h.1
  | flow h => exact absurd hv h.1

theorem broken_ref {parent : List AVar} (hv : v.type = .ref)
    (hparent : scope.parent = some parent) :
    Broken scope v n ↔ Unsearchable parent v.src := by
  refine ⟨fun h => ?_, .source hv hparent⟩
  cases h with
  | root _ hp => cases hparent.symm.trans hp
  | source _ hp hsrc =>
    cases hparent.symm.trans hp
    exact hsrc
  | walk h => exact absurd hv h.1
  | flow h => exact absurd hv h.1

/-- `time` is neither refused nor does it break. -/
theorem not_refused_time (htime : v.eqn = none ∧ v.name = some (cstr "time")) (hv : v.type ≠ .ref) :
    ¬ Refused scope v n ∧ ¬ Broken scope v n := by
  constructor
  · intro h
    cases h with
    | source h => exact hv h
    | tree h => exact h.2 htime
    | flow h => exact h.2 htime
  · intro h
    cases h with
    | root h => exact hv h
    | source h => exact hv h
    | walk h => exact h.2 htime
    | flow h => exact h.2 htime

/-- With a tree that the walk gets through, the flow names decide. -/
theorem refused_walked (hc : v.Compiles) (hn : n.isNull = false)
    (hwalk : n.Everywhere (Node.Visitable scope)) :
    Refused scope v n ↔ FlowMissing scope (v.inflows ++ v.outflows) := by
  refine ⟨fun h => ?_, .flow hc hn hwalk⟩
  cases h with
  | source h => exact absurd h hc.1
  | tree _ h => rw [hn] at h; cases h
  | flow _ _ _ h => exact h

theorem broken_walked (hc : v.Compiles) (hn : n.isNull = false)
    (hwalk : n.Everywhere (Node.Visitable scope)) :
    Broken scope v n ↔ FlowBroken scope (v.inflows ++ v.outflows) := by
  refine ⟨fun h => ?_, .flow hc hn hwalk⟩
  cases h with
  | root h => exact absurd h hc.1
  | source h => exact absurd h hc.1
  | walk _ _ h => exact absurd hwalk h
  | flow _ _ _ h => exact h

theorem not_broken_null (hc : v.Compiles) (hn : n.isNull = true) : ¬ Broken scope v n := by
  intro h
  cases h with
  | root h => exact hc.1 h
  | source h => exact hc.1 h
  | walk _ h => rw [hn] at h; cases h
  | flow _ h => rw [hn] at h; cases h

/-- A walk that does not get past every node follows a NULL pointer. -/
theorem nodeWalk_of_not_visitable (hn : n.isNull = false)
    (hwalk : ¬ n.Everywhere (Node.Visitable scope)) :
    nodeWalk scope n = .error (.undefined .nullDeref) := by
  have hno : ∀ r, nodeWalk scope n ≠ .ok r := fun r h => hwalk (nodeWalk_visitable h)
  have hderefs := visit_derefs scope [] n { curr := ([], false), deps := [] }
  rw [nodeWalk, hn] at hno ⊢
  simp only [Bool.false_eq_true, if_false, bind, Except.bind] at hno ⊢
  cases hr : visit scope [] n { curr := ([], false), deps := [] } with
  | ok r =>
    rw [hr] at hno
    exact absurd rfl (hno _)
  | error e =>
    rw [hr] at hderefs
    rw [show e = .undefined .nullDeref from hderefs]

/-- What `avar_init` makes of a variable says why. -/
theorem avarInitVar_outcome {path : Path} {st : Store} (hst : (st path).node = n) :
    Ends (fun _ => ¬ Refused scope v n ∧ ¬ Broken scope v n)
      (fun e => (e = .err .unspecified ∧ Refused scope v n ∧ ¬ Broken scope v n) ∨
        (e = .undefined .nullDeref ∧ Broken scope v n)) (avarInitVar scope path v st) := by
  rw [avarInitVar]
  by_cases hv : v.type = .ref
  · rw [if_pos hv]
    cases hparent : scope.parent with
    | none => exact Or.inr ⟨rfl, .root hv hparent⟩
    | some parent =>
      rw [refused_ref hv hparent, broken_ref hv hparent, Unsearchable]
      have hderefs := resolve_derefs parent v.src
      simp only [bind, Except.bind]
      cases hr : resolve parent v.src with
      | error e =>
        rw [hr] at hderefs
        exact Or.inr ⟨hderefs, congrArg Except.error hderefs⟩
      | ok r =>
        cases r with
        | none => exact Or.inl ⟨rfl, rfl, by simp⟩
        | some src => exact And.intro (by simp) (by simp)
  rw [if_neg hv]
  by_cases htime : v.eqn = none ∧ v.name = some (cstr "time")
  · rw [if_pos (by simp [htime.1, htime.2])]
    exact not_refused_time htime hv
  have hcomp : v.Compiles := ⟨hv, htime⟩
  rw [if_neg (by simpa using htime)]
  subst hst
  by_cases hn : (st path).node.isNull = true
  · -- there is nothing to walk
    rw [nodeWalk, if_pos hn]
    exact Or.inl ⟨rfl, .tree hcomp hn, not_broken_null hcomp hn⟩
  rw [Bool.not_eq_true] at hn
  by_cases hwalk : (st path).node.Everywhere (Node.Visitable scope)
  · rw [nodeWalk_of_visitable hn hwalk, refused_walked hcomp hn hwalk, broken_walked hcomp hn hwalk]
    have hflows := resolveAll_outcome scope (v.inflows ++ v.outflows)
    rw [resolveAll_append] at hflows
    simp only [bind, Except.bind, pure, Except.pure] at hflows ⊢
    cases hin : resolveAll scope v.inflows with
    | error e =>
      rw [hin] at hflows
      exact hflows
    | ok ins =>
      rw [hin] at hflows
      simp only at hflows ⊢
      cases hout : resolveAll scope v.outflows with
      | error e =>
        rw [hout] at hflows
        exact hflows
      | ok outs =>
        rw [hout] at hflows
        exact hflows
  · rw [nodeWalk_of_not_visitable hn hwalk]
    exact Or.inr ⟨rfl, .walk hcomp hn hwalk⟩

end

/-! ### All variables -/

/-- Of some variable of the tree, in the scope of its module. -/
def SomeVar (root : List AVar) (P : Scope → Var → Node → Prop) (inside : Path → Prop) : Prop :=
  ∃ p v n, inside p ∧ avarAt root p = some (.var v n) ∧ P (scopeAt root p.dropLast) v n

section
variable {root : List AVar} {P : Scope → Var → Node → Prop} {m : Path} {i : Nat}

/-- There is nothing below a variable. -/
theorem someVar_var {v : Var} {n : Node} (hav : (avarsAt root m)[i]? = some (.var v n)) :
    SomeVar root P (fun p => m ++ [i] <+: p) ↔ P (scopeAt root m) v n := by
  have hat : avarAt root (m ++ [i]) = some (.var v n) := (avarAt_child root m i).trans hav
  constructor
  · rintro ⟨p, v', n', hp, hv', hP⟩
    rcases prefix_iff_below.mp hp with rfl | ⟨j, rest, rfl⟩
    · rw [hat] at hv'
      cases hv'
      rwa [List.dropLast_concat] at hP
    · rw [avarAt_append_cons hat] at hv'
      simp [AVar.avars, avarAt] at hv'
  · exact fun hP => ⟨m ++ [i], v, n, List.prefix_rfl, hat, by rwa [List.dropLast_concat]⟩

/-- The variables of a module are below its children. -/
theorem someVar_module {v : Var} {avars : List AVar}
    (hav : (avarsAt root m)[i]? = some (.module v avars)) :
    SomeVar root P (fun p => m ++ [i] <+: p) ↔
      SomeVar root P (fun p => ∃ j, 0 ≤ j ∧ m ++ [i] ++ [j] <+: p) := by
  constructor
  · rintro ⟨p, v', n', hp, hv', hP⟩
    refine ⟨p, v', n', ?_, hv', hP⟩
    rcases prefix_iff_below.mp hp with rfl | ⟨j, rest, rfl⟩
    · rw [avarAt_child, hav] at hv'
      cases hv'
    · exact ⟨j, Nat.zero_le j, by simp⟩
  · rintro ⟨p, v', n', ⟨j, -, hj⟩, hv', hP⟩
    exact ⟨p, v', n', ((below_child _ j).of_above hj).above, hv', hP⟩

theorem someVar_from : SomeVar root P (fun p => ∃ j, i ≤ j ∧ m ++ [j] <+: p) ↔
    SomeVar root P (fun p => m ++ [i] <+: p) ∨
      SomeVar root P (fun p => ∃ j, i + 1 ≤ j ∧ m ++ [j] <+: p) := by
  constructor
  · rintro ⟨p, v, n, ⟨j, hij, hj⟩, hv, hP⟩
    rcases Nat.eq_or_lt_of_le hij with rfl | hlt
    · exact .inl ⟨p, v, n, hj, hv, hP⟩
    · exact .inr ⟨p, v, n, ⟨j, hlt, hj⟩, hv, hP⟩
  · rintro (⟨p, v, n, hi, hv, hP⟩ | ⟨p, v, n, ⟨j, hj, hjp⟩, hv, hP⟩)
    · exact ⟨p, v, n, ⟨i, Nat.le_refl i, hi⟩, hv, hP⟩
    · exact ⟨p, v, n, ⟨j, by omega, hjp⟩, hv, hP⟩

/-- There is nothing behind the last child. -/
theorem not_someVar_end (hi : (avarsAt root m).length ≤ i) :
    ¬ SomeVar root P (fun p => ∃ j, i ≤ j ∧ m ++ [j] <+: p) := by
  rintro ⟨p, v, n, ⟨j, hij, hj⟩, hv, -⟩
  have hnone : (avarsAt root m)[j]? = none := List.getElem?_eq_none (by omega)
  rw [avarAt_of_prefix_none ((avarAt_child root m j).trans hnone) (by simp) hj] at hv
  cases hv

/-- The second loop of `module_compile` returns when every connected input has its source. -/
theorem copyOffsets_ok {base : Path} : ∀ {avars : List AVar} {i : Nat} {st : Store},
    (∀ j av, avars[j]? = some av → av.v.type = .ref → (st (base ++ [i + j])).src ≠ none) →
    ∃ st', copyOffsets base i avars st = .ok st'
  | [], _, st, _ => ⟨st, rfl⟩
  | av :: rest, i, st, h => by
    have hrest : ∀ st' : Store, (∀ p, (st' p).src = (st p).src) →
        ∃ st'', copyOffsets base (i + 1) rest st' = .ok st'' := by
      intro st' hsame
      apply copyOffsets_ok
      intro j av' hav' href
      rw [hsame, Nat.add_assoc, Nat.add_comm 1 j]
      exact h (j + 1) av' hav' href
    rw [copyOffsets]
    split_ifs with href
    · obtain ⟨src, hsrc⟩ := Option.ne_none_iff_exists'.mp (h 0 av rfl href)
      rw [Nat.add_zero] at hsrc
      rw [hsrc]
      apply hrest
      intro p
      by_cases hp : p = base ++ [i]
      · rw [hp, Function.update_self]
      · rw [Function.update_of_ne hp]
    · exact hrest st fun _ => rfl

/-- What the loop over all children leads to. -/
def CompileEnds (root : List AVar) (inside : Path → Prop) {α : Type} (x : Except Stop α) : Prop :=
  Ends (fun _ => ¬ SomeVar root Refused inside ∧ ¬ SomeVar root Broken inside)
    (fun e => (e = .err .unspecified ∧ SomeVar root Refused inside ∧ ¬ SomeVar root Broken inside) ∨
      (e = .undefined .nullDeref ∧ SomeVar root Broken inside)) x

theorem compileEnd_outcome (htyped : Typed root) {st st1 : Store} {failed : Nat}
    {avars : List AVar} (havars : ∀ k, avars[k]? = (avarsAt root m)[0 + k]?)
    (hfresh : Fresh root m 0 st)
    (hz : ZeroOffsets st) (hrun : compileLoop (scopeAt root m) 0 avars (st, 0) = .ok (st1, failed))
    (hmissing : 0 < failed ↔ SomeVar root Refused (fun p => ∃ j, 0 ≤ j ∧ m ++ [j] <+: p))
    (hbroken : ¬ SomeVar root Broken (fun p => ∃ j, 0 ≤ j ∧ m ++ [j] <+: p)) :
    CompileEnds root (fun p => ∃ j, 0 ≤ j ∧ m ++ [j] <+: p)
      (moduleCompileEnd (scopeAt root m) (st1, failed)) := by
  rw [moduleCompileEnd]
  split_ifs with hfailed
  · exact Or.inl ⟨rfl, hmissing.mp (Nat.pos_of_ne_zero hfailed), hbroken⟩
  · obtain rfl : failed = 0 := by simpa using hfailed
    have hspec := compileLoop_spec havars hfresh hz hrun
    have hcopy : ∃ st', copyOffsets m 0 (avarsAt root m) st1 = .ok st' := by
      apply copyOffsets_ok
      intro j av hav href
      rw [Nat.zero_add]
      have hcomp := hspec.compiled (m ++ [j]) ⟨j, Nat.zero_le j, List.prefix_rfl⟩
      have hat : avarAt root (m ++ [j]) = some av := (avarAt_child root m j).trans hav
      cases av with
      | module v avars' =>
        have hmodule := (htyped _ _ hat).isModule_iff.mp rfl
        rw [href] at hmodule
        cases hmodule
      | var v n =>
        simp only [Compiled, hat] at hcomp
        generalize st1 (m ++ [j]) = d at hcomp ⊢
        cases hcomp with
        | ref => exact Option.some_ne_none _
        | time hv => exact absurd href hv
        | equation hv => exact absurd href hv
    obtain ⟨st', heq⟩ := hcopy
    show CompileEnds root _ (copyOffsets m 0 (avarsAt root m) st1)
    rw [heq]
    exact And.intro (fun h => absurd (hmissing.mpr h) (Nat.lt_irrefl 0)) hbroken

mutual
theorem avarInit_outcome (htyped : Typed root) : ∀ {av : AVar} {m : Path} {i : Nat} {st : Store},
    (avarsAt root m)[i]? = some av → (∀ p, m ++ [i] <+: p → st p = initStore root p) →
    ZeroOffsets st →
    CompileEnds root (fun p => m ++ [i] <+: p) (avarInit (scopeAt root m) i av st)
  | .var v n, m, i, st, hav, hfresh, _ => by
    have hat : avarAt root (m ++ [i]) = some (.var v n) := (avarAt_child root m i).trans hav
    have hst : (st (m ++ [i])).node = n := by
      rw [hfresh _ List.prefix_rfl]
      simp [initStore, hat, AVar.node]
    rw [CompileEnds, someVar_var hav, someVar_var hav]
    exact avarInitVar_outcome hst
  | .module v avars, m, i, st, hav, hfresh, hz => by
    have hsub : ∀ k, avars[k]? = (avarsAt root (m ++ [i]))[0 + k]? := fun k => by
      rw [avarsAt_child hav, Nat.zero_add]
      rfl
    have hfresh' : Fresh root (m ++ [i]) 0 st := fun j _ p hp =>
      hfresh p ((below_child _ j).of_above hp).above
    have hloop := compileLoop_outcome htyped 0 hsub hfresh' hz
    rw [CompileEnds, someVar_module hav, someVar_module hav]
    simp only [avarInit, bind, Except.bind]
    rw [scopeAt_base, scopeAt_child hav]
    cases hrun : compileLoop (scopeAt root (m ++ [i])) 0 avars (st, 0) with
    | error e => exact Or.inr (hloop.of_error hrun)
    | ok r =>
      obtain ⟨st1, failed⟩ := r
      obtain ⟨hbroken, -, hmissing⟩ := hloop.of_ok hrun
      exact compileEnd_outcome htyped hsub hfresh' hz hrun hmissing hbroken

theorem compileLoop_outcome (htyped : Typed root) : ∀ {avars : List AVar} {m : Path} {i : Nat}
    {st : Store} (failed : Nat), (∀ k, avars[k]? = (avarsAt root m)[i + k]?) →
    Fresh root m i st → ZeroOffsets st →
    Ends (fun r => ¬ SomeVar root Broken (fun p => ∃ j, i ≤ j ∧ m ++ [j] <+: p) ∧ failed ≤ r.2 ∧
        (failed < r.2 ↔ SomeVar root Refused (fun p => ∃ j, i ≤ j ∧ m ++ [j] <+: p)))
      (fun e => e = .undefined .nullDeref ∧
        SomeVar root Broken (fun p => ∃ j, i ≤ j ∧ m ++ [j] <+: p))
      (compileLoop (scopeAt root m) i avars (st, failed))
  | [], m, i, st, failed, havars, _, _ => by
    have hend : (avarsAt root m).length ≤ i := by
      have := havars 0
      exact List.getElem?_eq_none_iff.mp this.symm
    have hnone : ∀ P, ¬ SomeVar root P (fun p => ∃ j, i ≤ j ∧ m ++ [j] <+: p) := fun P =>
      not_someVar_end hend
    exact ⟨hnone _, Nat.le_refl _, iff_of_false (Nat.lt_irrefl _) (hnone _)⟩
  | av :: rest, m, i, st, failed, havars, hfresh, hz => by
    have hav : (avarsAt root m)[i]? = some av := (havars 0).symm
    have hrest : ∀ k, rest[k]? = (avarsAt root m)[i + 1 + k]? := fun k => by
      rw [Nat.add_assoc, Nat.add_comm 1 k]
      exact havars (k + 1)
    have hinit := avarInit_outcome htyped hav (hfresh i (Nat.le_refl i)) hz
    have hfrom : ∀ P, SomeVar root P (fun p => ∃ j, i ≤ j ∧ m ++ [j] <+: p) ↔
        SomeVar root P (fun p => m ++ [i] <+: p) ∨
          SomeVar root P (fun p => ∃ j, i + 1 ≤ j ∧ m ++ [j] <+: p) := fun P => someVar_from
    simp only [compileLoop, bind, Except.bind]
    cases hrun : avarInit (scopeAt root m) i av st with
    | ok st1 =>
      obtain ⟨hmissing, hbroken⟩ := hinit.of_ok hrun
      have hspec := avarInit_spec hav (hfresh i (Nat.le_refl i)) hz hrun
      have hfresh1 : Fresh root m (i + 1) st1 := fun j hj p hp => by
        have hout : ¬ m ++ [i] <+: p := fun hi => not_prefix_both (by omega) hi hp
        rw [show st1 p = st p from hspec.frame p hout]
        exact hfresh j (by omega) p hp
      refine (compileLoop_outcome htyped failed hrest hfresh1 hspec.zero).imp ?_ ?_
      · rintro r ⟨hb, hle, hm⟩
        rw [hfrom, hfrom]
        exact ⟨not_or.mpr ⟨hbroken, hb⟩, hle, hm.trans (or_iff_right hmissing).symm⟩
      · exact fun e he => ⟨he.1, (hfrom _).mpr (.inr he.2)⟩
    | error e =>
      rcases hinit.of_error hrun with ⟨rfl, hmissing, hbroken⟩ | ⟨rfl, hbroken⟩
      · -- the error is counted, and the loop goes on
        have hfresh1 : Fresh root m (i + 1) st := fun j hj => hfresh j (by omega)
        refine (compileLoop_outcome htyped (failed + 1) hrest hfresh1 hz).imp ?_ ?_
        · rintro r ⟨hb, hle, -⟩
          rw [hfrom, hfrom]
          exact ⟨not_or.mpr ⟨hbroken, hb⟩, by omega, iff_of_true (by omega) (.inl hmissing)⟩
        · exact fun e he => ⟨he.1, (hfrom _).mpr (.inr he.2)⟩
      · exact ⟨rfl, (hfrom _).mpr (.inl hbroken)⟩
end

/-- The path of a variable leads through a child of the root. -/
theorem someVar_root : SomeVar root P (fun p => ∃ j, 0 ≤ j ∧ [] ++ [j] <+: p) ↔
    SomeVar root P fun _ => True := by
  constructor
  · rintro ⟨p, v, n, -, hv, hP⟩
    exact ⟨p, v, n, trivial, hv, hP⟩
  · rintro ⟨p, v, n, -, hv, hP⟩
    refine ⟨p, v, n, ?_, hv, hP⟩
    cases p with
    | nil => cases hv
    | cons j rest => exact ⟨j, Nat.zero_le j, by simp⟩

/-- Compilation returns when no variable is refused or broken; it fails when one is refused
    and none is broken. -/
theorem compileRoot_outcome (htyped : Typed root) :
    CompileEnds root (fun _ => True) (compileRoot root) := by
  have hsub : ∀ k, root[k]? = (avarsAt root [])[0 + k]? := fun k => by
    rw [Nat.zero_add]
    rfl
  have hfresh : Fresh root [] 0 (initStore root) := fun _ _ _ _ => rfl
  have hz : ZeroOffsets (initStore root) := fun _ => rfl
  have hloop := compileLoop_outcome htyped 0 hsub hfresh hz
  have hscope : ({ base := [], avars := root, parent := none } : Scope) = scopeAt root [] := rfl
  rw [CompileEnds, ← someVar_root, ← someVar_root]
  simp only [compileRoot, moduleCompile, bind, Except.bind, hscope]
  cases hrun : compileLoop (scopeAt root []) 0 root (initStore root, 0) with
  | error e => exact Or.inr (hloop.of_error hrun)
  | ok r =>
    obtain ⟨st1, failed⟩ := r
    obtain ⟨hbroken, -, hmissing⟩ := hloop.of_ok hrun
    exact compileEnd_outcome htyped hsub hfresh hz hrun hmissing hbroken

end

end Libsd

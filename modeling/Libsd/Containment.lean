/-
  Libsd/Containment.lean
  ======================
  **When the recursion of `module` and `avar` ends.**

  A module is named after its model, and nothing keeps a model from containing a module
  of its own name.  `Calls` is the graph of the recursive calls: the variables before a
  module variable have all been made (`Builds`) when it is come to.  The calls end
  exactly when no call that is reached leads back to itself (`module_returns_iff`), and
  `moduleFuel` is then more than enough.
-/
import Libsd.InstanceTree
import Libsd.ParseTotal
import Mathlib.Data.List.Perm.Subperm
import Mathlib.Logic.Relation

namespace Libsd

open Outcome Relation

/-! ### What can be made -/

/-- The connections that `module` looks through for the variables of a model. -/
def connsOf (vm : Option Var) : List Conn :=
  match vm with
  | none => []
  | some v => v.conns

/-- No connection replaces the variable. -/
def Unconnected (vm : Option Var) (v : Var) : Prop := findConn v.name (connsOf vm) = .ok none

/-- All the variables can be made into the children of a module. -/
inductive Builds (p : SDProject) : Option Var → List Var → Prop where
  | intro {vm : Option Var} {vars : List Var}
      (conn : ∀ v ∈ vars, ∃ r, findConn v.name (connsOf vm) = .ok r)
      (eqn : ∀ v ∈ vars, Unconnected vm v → v.type ≠ .module → ∀ eqn, v.eqn = some eqn →
        ∃ n, avarEqnParse eqn = .ok n)
      (found : ∀ v ∈ vars, Unconnected vm v → v.type = .module →
        ∃ specs model, sdProjectGetModel p v.name = some (specs, model))
      (sub : ∀ v ∈ vars, Unconnected vm v → v.type = .module → ∀ specs model,
        sdProjectGetModel p v.name = some (specs, model) → Builds p (some v) model.vars) :
      Builds p vm vars

theorem builds_iff {p : SDProject} {vm : Option Var} {vars : List Var} :
    Builds p vm vars ↔ ∀ v ∈ vars, Builds p vm [v] := by
  constructor
  · rintro ⟨conn, eqn, found, sub⟩ v hv
    constructor
    all_goals
      intro w hw
      rw [List.mem_singleton] at hw
      subst hw
    · exact conn w hv
    · exact eqn w hv
    · exact found w hv
    · exact sub w hv
  · intro h
    refine ⟨fun v hv => ?_, fun v hv => ?_, fun v hv => ?_, fun v hv => ?_⟩
    all_goals obtain ⟨conn, eqn, found, sub⟩ := h v hv
    · exact conn v List.mem_cons_self
    · exact eqn v List.mem_cons_self
    · exact found v List.mem_cons_self
    · exact sub v List.mem_cons_self

/-- The call for `model.vars`, its variables, is made for the module variable `v`, from a
    call for the module `vm`. -/
inductive Calls (p : SDProject) : Option Var × List Var → Option Var × List Var → Prop where
  | intro {vm : Option Var} {before after : List Var} {v : Var} {specs : SimSpec} {model : SDModel}
      (hbefore : Builds p vm before) (hkept : Unconnected vm v) (hv : v.type = .module)
      (hmodel : sdProjectGetModel p v.name = some (specs, model)) :
      Calls p (vm, before ++ v :: after) (some v, model.vars)

/-! ### One child after another -/

section
variable (p : SDProject) (fuel : Nat) (vm : Option Var)

/-- What `module` does for one variable, with so much fuel for a module. -/
def child (v : Var) : Except Stop AVar := do
  let r ← findConn v.name (connsOf vm)
  avar p (module p fuel) (connected v r)

def children (vars : List Var) : Except Stop (List AVar) :=
  moduleVars (avar p (module p fuel)) (connsOf vm) vars

theorem module_some (v : Var) (model : SDModel) :
    module p (fuel + 1) (some v) model = children p fuel (some v) model.vars := rfl

theorem module_none (model : SDModel) : module p (fuel + 1) none model = (do
    let avars ← children p fuel none model.vars
    return .var timeVar .null :: avars) := rfl

theorem children_cons (v : Var) (vars : List Var) : children p fuel vm (v :: vars) = (do
    let av ← child p fuel vm v
    let avars ← children p fuel vm vars
    return av :: avars) := by
  simp only [children, child, moduleVars, bind, Except.bind]
  cases findConn v.name (connsOf vm) with
  | error e => rfl
  | ok r => cases r <;> rfl

theorem children_append (vars vars' : List Var) : children p fuel vm (vars ++ vars') = (do
    let avars ← children p fuel vm vars
    let avars' ← children p fuel vm vars'
    return avars ++ avars') := by
  induction vars with
  | nil =>
    simp only [List.nil_append, children, moduleVars, bind, Except.bind]
    cases moduleVars (avar p (module p fuel)) (connsOf vm) vars' <;> rfl
  | cons v vars ih =>
    rw [List.cons_append, children_cons, children_cons, ih]
    cases child p fuel vm v with
    | error e => rfl
    | ok av =>
      cases children p fuel vm vars with
      | error e => rfl
      | ok avars => cases children p fuel vm vars' <;> rfl

end

section
variable {p : SDProject} {fuel : Nat} {vm : Option Var}

/-- A variable is kept, or a connection takes its place. -/
theorem child_cases (v : Var) (hconn : ∃ r, findConn v.name (connsOf vm) = .ok r) :
    (Unconnected vm v ∧ child p fuel vm v = avar p (module p fuel) v) ∨
      (¬ Unconnected vm v ∧ ∃ av, child p fuel vm v = .ok av) := by
  obtain ⟨r, hr⟩ := hconn
  cases r with
  | none =>
    refine .inl ⟨hr, ?_⟩
    simp only [child, hr, bind, Except.bind]
    rfl
  | some c =>
    refine .inr ⟨fun hk => by simp [Unconnected, hr] at hk, .var c.toVar .null, ?_⟩
    simp only [child, hr, bind, Except.bind]
    rfl

theorem avar_module {sub : Option Var → SDModel → Except Stop (List AVar)} {v : Var}
    {specs : SimSpec} {model : SDModel} (hv : v.type = .module)
    (hmodel : sdProjectGetModel p v.name = some (specs, model)) :
    avar p sub v = (do
      let avars ← sub (some v) model
      return .module v avars) := by
  rw [avar, if_pos hv, hmodel]

theorem avar_var {sub : Option Var → SDModel → Except Stop (List AVar)} {v : Var}
    (hv : v.type ≠ .module) : avar p sub v = (match v.eqn with
      | none => .ok (.var v .null)
      | some eqn => do
        let node ← avarEqnParse eqn
        return .var v node) := by
  rw [avar]
  exact if_neg hv

/-- A child that has been made shows that it can be. -/
theorem child_builds (hsub : ∀ v model avars, module p fuel (some v) model = .ok avars →
    Builds p (some v) model.vars) {v : Var} {av : AVar} (h : child p fuel vm v = .ok av) :
    Builds p vm [v] := by
  have hconn : ∃ r, findConn v.name (connsOf vm) = .ok r := by
    cases hr : findConn v.name (connsOf vm) with
    | error e => simp [child, hr, bind, Except.bind] at h
    | ok r => exact ⟨r, rfl⟩
  have hmade : Unconnected vm v → Made p (module p fuel) v av := by
    intro hk
    rcases child_cases v hconn with ⟨-, hc⟩ | ⟨hn, -⟩
    · exact avar_made (hc ▸ h)
    · exact absurd hk hn
  constructor
  all_goals
    intro w hw
    rw [List.mem_singleton] at hw
    subst hw
  · exact hconn
  · intro hk hv eqn he
    cases hmade hk with
    | module hv' => exact absurd hv' hv
    | var _ hn =>
      rcases hn with ⟨he', -⟩ | ⟨eqn', he', hparse⟩
      · rw [he] at he'
        cases he'
      · obtain rfl := Option.some.inj (he.symm.trans he')
        exact ⟨_, hparse⟩
  · intro hk hv
    cases hmade hk with
    | module _ hmodel => exact ⟨_, _, hmodel⟩
    | var hv' => exact absurd hv hv'
  · intro hk hv specs model hmodel
    cases hmade hk with
    | module _ hmodel' havars =>
      obtain ⟨rfl, rfl⟩ := Prod.mk.inj (Option.some.inj (hmodel.symm.trans hmodel'))
      exact hsub _ _ _ havars
    | var hv' => exact absurd hv hv'

theorem child_of_children {vars : List Var} {avars : List AVar}
    (h : children p fuel vm vars = .ok avars) : ∀ v ∈ vars, ∃ av, child p fuel vm v = .ok av := by
  induction vars generalizing avars with
  | nil => simp
  | cons v vars ih =>
    simp only [children_cons] at h
    obtain ⟨av, hav, h⟩ := bind_eq_ok h
    obtain ⟨rest, hrest, h⟩ := bind_eq_ok h
    intro w hw
    rcases List.mem_cons.mp hw with rfl | hw
    · exact ⟨av, hav⟩
    · exact ih hrest w hw

theorem module_builds : ∀ {fuel : Nat} {v : Var} {model : SDModel} {avars : List AVar},
    module p fuel (some v) model = .ok avars → Builds p (some v) model.vars := by
  intro fuel
  induction fuel with
  | zero =>
    intro v model avars h
    simp [module] at h
  | succ fuel ih =>
    intro v model avars h
    rw [module_some] at h
    refine builds_iff.mpr fun w hw => ?_
    obtain ⟨av, hav⟩ := child_of_children h w hw
    exact child_builds (fun _ _ _ => ih) hav

/-- Children that can be made are made, unless the fuel runs out. -/
theorem Builds.children_ends {vars : List Var} (h : Builds p vm vars) :
    ∀ fuel, Ends (fun _ => True) (· = .diverge) (children p fuel vm vars) := by
  induction h with
  | @intro vm vars conn eqn found sub ih =>
    intro fuel
    have hchild : ∀ v ∈ vars, Ends (fun _ => True) (· = .diverge) (child p fuel vm v) := by
      intro v hv
      rcases child_cases v (conn v hv) with ⟨hk, hc⟩ | ⟨-, av, hav⟩
      · rw [hc]
        by_cases ht : v.type = .module
        · obtain ⟨specs, model, hmodel⟩ := found v hv hk ht
          rw [avar_module ht hmodel]
          refine Ends.bind (P := fun _ => True) ?_ fun _ _ => trivial
          cases fuel with
          | zero => rfl
          | succ fuel => exact ih v hv hk ht specs model hmodel fuel
        · rw [avar_var ht]
          cases he : v.eqn with
          | none => trivial
          | some e =>
            obtain ⟨n, hn⟩ := eqn v hv hk ht e he
            simp only [hn]
            trivial
      · rw [hav]
        trivial
    clear conn eqn found sub ih
    induction vars with
    | nil => trivial
    | cons v vars ihl =>
      rw [children_cons]
      refine (hchild v List.mem_cons_self).bind fun av _ => ?_
      refine (ihl fun w hw => hchild w (List.mem_cons_of_mem _ hw)).bind fun _ _ => trivial

/-! ### Calls that end -/

/-- A call that ends has come to an end in every module it entered. -/
theorem entered_of_children {before after : List Var} {v : Var} {specs : SimSpec} {model : SDModel}
    (hbefore : Builds p vm before) (hkept : Unconnected vm v) (hv : v.type = .module)
    (hmodel : sdProjectGetModel p v.name = some (specs, model))
    (h : children p fuel vm (before ++ v :: after) ≠ .error .diverge) :
    module p fuel (some v) model ≠ .error .diverge := by
  intro hdiv
  apply h
  have hends := hbefore.children_ends fuel
  rw [children_append]
  cases hb : children p fuel vm before with
  | error e =>
    rw [hb] at hends
    obtain rfl : e = .diverge := hends
    rfl
  | ok avars =>
    have hchild : child p fuel vm v = .error .diverge := by
      rcases child_cases v ⟨none, hkept⟩ with ⟨-, hc⟩ | ⟨hn, -⟩
      · rw [hc, avar_module hv hmodel, hdiv]
        rfl
      · exact absurd hkept hn
    rw [children_cons, hchild]
    rfl

/-- There is no endless chain of calls below a call that ends. -/
theorem acc_of_children : ∀ {fuel : Nat} {vm : Option Var} {vars : List Var},
    children p fuel vm vars ≠ .error .diverge → Acc (flip (Calls p)) (vm, vars) := by
  intro fuel
  induction fuel with
  | zero =>
    intro vm vars h
    refine ⟨_, fun y hy => ?_⟩
    cases hy with
    | intro hbefore hkept hv hmodel =>
      exact absurd rfl (entered_of_children hbefore hkept hv hmodel h)
  | succ fuel ih =>
    intro vm vars h
    refine ⟨_, fun y hy => ?_⟩
    cases hy with
    | intro hbefore hkept hv hmodel =>
      exact ih (entered_of_children hbefore hkept hv hmodel h)

/-- The chain of calls from `x` comes back to a call that is still active. -/
def Recurs (p : SDProject) (x : Option Var × List Var) : Prop :=
  ∃ y, ReflTransGen (Calls p) x y ∧ TransGen (Calls p) y y

theorem not_recurs_of_acc {x : Option Var × List Var} (h : Acc (flip (Calls p)) x) :
    ¬ Recurs p x := by
  induction h with
  | intro x _ ih =>
    rintro ⟨y, hxy, hyy⟩
    rcases hxy.cases_head with rfl | ⟨z, hxz, hzy⟩
    · obtain ⟨z, hxz, hzx⟩ := TransGen.head'_iff.mp hyy
      exact ih z hxz ⟨x, hzx, hyy⟩
    · exact ih z hxz ⟨y, hzy, hyy⟩

/-! ### Enough fuel -/

/-- The variables of all models. -/
def SDProject.vars (p : SDProject) : List Var := (p.files.flatMap (·.models)).flatMap (·.vars)

theorem mem_vars {name : Option CStr} {specs : SimSpec} {model : SDModel}
    (h : sdProjectGetModel p name = some (specs, model)) : ∀ v ∈ model.vars, v ∈ p.vars := by
  intro v hv
  obtain ⟨f, hf, hm⟩ := sdProjectGetModel_mem h
  exact List.mem_flatMap.mpr ⟨model, List.mem_flatMap.mpr ⟨f, hf, hm⟩, hv⟩

theorem length_vars_lt : p.vars.length + 1 < moduleFuel p := by
  rw [SDProject.vars, moduleFuel, List.length_flatMap]
  omega

/-- `v` is a module variable whose call is active in the call `x`. -/
def Active (p : SDProject) (x : Option Var × List Var) (v : Var) : Prop :=
  v ∈ p.vars ∧ ∃ specs model, sdProjectGetModel p v.name = some (specs, model) ∧
    ReflTransGen (Calls p) (some v, model.vars) x

theorem Active.enter {vm : Option Var} {vars : List Var} {y : Option Var × List Var} {v : Var}
    (h : Active p (vm, vars) v) (hy : Calls p (vm, vars) y) : Active p y v := by
  obtain ⟨hmem, specs, model, hmodel, hpath⟩ := h
  exact ⟨hmem, specs, model, hmodel, hpath.tail hy⟩

/-- Children are made one after another, so a child has only to be made when those before
    it can be. -/
theorem children_returns_of {vars : List Var}
    (h : ∀ before v after, vars = before ++ v :: after → Builds p vm before →
      Returns (fun _ => True) (child p fuel vm v)) :
    Returns (fun _ => True) (children p fuel vm vars) := by
  suffices hrest : ∀ rest before, vars = before ++ rest → Builds p vm before →
      Returns (fun _ => True) (children p fuel vm rest) from
    hrest vars [] rfl (builds_iff.mpr (by simp))
  intro rest
  induction rest with
  | nil => exact fun _ _ _ => trivial
  | cons v rest ih =>
    intro before hvars hbefore
    rw [children_cons]
    have hv := h before v rest hvars hbefore
    cases hc : child p fuel vm v with
    | error e =>
      rw [hc] at hv
      exact hv
    | ok av =>
      have hnext : Builds p vm (before ++ [v]) := by
        refine builds_iff.mpr fun w hw => ?_
        rcases List.mem_append.mp hw with hw | hw
        · exact builds_iff.mp hbefore w hw
        · obtain rfl := List.mem_singleton.mp hw
          exact child_builds (fun _ _ _ => module_builds) hc
      refine (ih (before ++ [v]) ?_ hnext).bind fun _ _ => trivial
      rw [hvars, List.append_assoc, List.singleton_append]

/-- A child is made when it is no module, or the call for the module ends. -/
theorem child_returns {v : Var} (h : Unconnected vm v → v.type = .module → ∀ specs model,
      sdProjectGetModel p v.name = some (specs, model) →
      Returns (fun _ => True) (module p fuel (some v) model)) :
    Returns (fun _ => True) (child p fuel vm v) := by
  cases hr : findConn v.name (connsOf vm) with
  | error e =>
    have hne : ∀ {name : Option CStr} {conns : List Conn} {e : Stop},
        findConn name conns = .error e → e ≠ .diverge := by
      intro name conns e he
      induction conns with
      | nil => simp [findConn] at he
      | cons c conns ih =>
        cases name with
        | none =>
          obtain rfl := Except.error.inj he
          exact fun h => by cases h
        | some n =>
          simp only [findConn] at he
          split at he
          · simp at he
          · exact ih he
    simp only [child, hr, bind, Except.bind]
    exact hne hr
  | ok r =>
    rcases child_cases v ⟨r, hr⟩ with ⟨hk, hc⟩ | ⟨-, av, hav⟩
    · rw [hc]
      by_cases ht : v.type = .module
      · cases hmodel : sdProjectGetModel p v.name with
        | none =>
          rw [avar, if_pos ht, hmodel]
          exact fun h => by cases h
        | some x =>
          rw [avar_module ht hmodel]
          exact (h hk ht x.1 x.2 hmodel).bind fun _ _ => trivial
      · rw [avar_var ht]
        cases v.eqn with
        | none => trivial
        | some e => exact (avarEqnParse_returns e).bind fun _ _ => trivial
    · rw [hav]
      trivial

theorem not_recurs_enter {x y : Option Var × List Var} (h : ¬ Recurs p x) (hy : Calls p x y) :
    ¬ Recurs p y := fun ⟨z, hyz, hzz⟩ => h ⟨z, hyz.head hy, hzz⟩

/-- Without recursion a module variable that is entered is not active yet. -/
theorem active_cons {x : Option Var × List Var} {v : Var} {specs : SimSpec} {model : SDModel}
    {active : List Var} (hrec : ¬ Recurs p x) (hy : Calls p x (some v, model.vars))
    (hmodel : sdProjectGetModel p v.name = some (specs, model)) (hv : v ∈ p.vars)
    (hnodup : active.Nodup) (hactive : ∀ u ∈ active, Active p x u) :
    (v :: active).Nodup ∧ (∀ u ∈ v :: active, Active p (some v, model.vars) u) ∧
      (v :: active).length ≤ p.vars.length := by
  have hfresh : v ∉ active := by
    intro hmem
    obtain ⟨-, specs', model', hmodel', hpath⟩ := hactive v hmem
    obtain ⟨rfl, rfl⟩ := Prod.mk.inj (Option.some.inj (hmodel.symm.trans hmodel'))
    exact hrec ⟨_, .single hy, TransGen.tail' hpath hy⟩
  have hnodup' : (v :: active).Nodup := List.nodup_cons.mpr ⟨hfresh, hnodup⟩
  have hactive' : ∀ u ∈ v :: active, Active p (some v, model.vars) u := by
    intro u hu
    rcases List.mem_cons.mp hu with rfl | hu
    · exact ⟨hv, specs, model, hmodel, .refl⟩
    · exact (hactive u hu).enter hy
  exact ⟨hnodup', hactive', (hnodup'.subperm fun u hu => (hactive' u hu).1).length_le⟩

/-- With fuel for the module variables that are not active yet, the calls end. -/
theorem children_returns : ∀ {fuel : Nat} {vm : Option Var} {vars active : List Var},
    (∀ v ∈ vars, v ∈ p.vars) → active.Nodup → (∀ v ∈ active, Active p (vm, vars) v) →
    p.vars.length ≤ active.length + fuel → ¬ Recurs p (vm, vars) →
    Returns (fun _ => True) (children p fuel vm vars) := by
  intro fuel
  induction fuel with
  | zero =>
    intro vm vars active hvars hnodup hactive hlen hrec
    refine children_returns_of fun before v after he hbefore => child_returns ?_
    intro hk ht specs model hmodel
    have hy : Calls p (vm, vars) (some v, model.vars) := he ▸ .intro hbefore hk ht hmodel
    obtain ⟨-, -, hle⟩ := active_cons hrec hy hmodel (hvars v (by simp [he])) hnodup hactive
    rw [List.length_cons] at hle
    omega
  | succ fuel ih =>
    intro vm vars active hvars hnodup hactive hlen hrec
    refine children_returns_of fun before v after he hbefore => child_returns ?_
    intro hk ht specs model hmodel
    have hy : Calls p (vm, vars) (some v, model.vars) := he ▸ .intro hbefore hk ht hmodel
    obtain ⟨hnodup', hactive', -⟩ :=
      active_cons hrec hy hmodel (hvars v (by simp [he])) hnodup hactive
    rw [module_some]
    exact ih (mem_vars hmodel) hnodup' hactive' (by rw [List.length_cons]; omega)
      (not_recurs_enter hrec hy)

end

theorem module_returns {p : SDProject} {name : Option CStr} {specs : SimSpec} {model : SDModel}
    (hmodel : sdProjectGetModel p name = some (specs, model)) (h : ¬ Recurs p (none, model.vars)) :
    Returns (fun _ => True) (module p (moduleFuel p) none model) := by
  obtain ⟨k, hk⟩ := Nat.exists_eq_add_of_lt (length_vars_lt (p := p))
  rw [hk, module_none]
  have hfuel : p.vars.length ≤ ([] : List Var).length + (p.vars.length + 1 + k) := by
    rw [List.length_nil]
    omega
  have := children_returns (mem_vars hmodel) List.nodup_nil (by simp) hfuel h
  exact this.bind fun _ _ => trivial

/-- The recursion from a root model ends exactly when no call in it leads back to itself,
    and `moduleFuel` is then enough for it. -/
theorem module_returns_iff {p : SDProject} {name : Option CStr} {specs : SimSpec} {model : SDModel}
    (hmodel : sdProjectGetModel p name = some (specs, model)) :
    (∃ fuel, module p fuel none model ≠ .error .diverge) ↔ ¬ Recurs p (none, model.vars) := by
  constructor
  · rintro ⟨fuel, hfuel⟩
    cases fuel with
    | zero => exact absurd rfl hfuel
    | succ fuel =>
      have hends : children p fuel none model.vars ≠ .error .diverge := by
        intro h
        apply hfuel
        rw [module_none, h]
        rfl
      exact not_recurs_of_acc (acc_of_children hends)
  · exact fun h => ⟨moduleFuel p, fun hdiv => (module_returns hmodel h).of_error hdiv rfl⟩

end Libsd

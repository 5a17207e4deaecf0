/-
  Libsd/Flattened.lean
  ====================
  **A tree of modules and one model that spells it out.**

  A model without modules that has the variables of a tree, each under a name of its own,
  and in their equations these names in place of those that lead through the modules
  (`Flattens`), is accepted, and a simulation of it comes to the same values as one of the
  tree, whatever is called (`flattened_calls`).
-/
import Libsd.Alike
import Libsd.ModuleEuler
import Libsd.Sound
import Libsd.SourcesFirst

namespace Libsd

open Assign Outcome Relation

/-- What the flat model calls that which a name leads to in the module at `m`. -/
def nameIn (root : List AVar) (ν : Path → CStr) (m : Path) (name : CStr) : Option CStr :=
  match resolveLoop name 0 (avarsAt root m) with
  | .ok (some q) => some (ν (m ++ q))
  | _ => none

/-- The variable `w` says, under other names, what `v` says, which has the equation `n`. -/
structure Var.Spells (f : CStr → Option CStr) (v : Var) (n : Node) (w : Var) : Prop where
  type : w.type = v.type
  tree : n.Alike f w.tree
  const : w.tree.isFloatlit = n.isFloatlit
  gf : w.gf = v.gf
  inflows : Node.AlikeNames f v.inflows w.inflows
  outflows : Node.AlikeNames f v.outflows w.outflows

/-- The flat model has the variables of the tree, under the names that `ν` gives them.  A
    connected input goes by the name of what it is connected to. -/
structure Flattens (root : List AVar) (ν : Path → CStr) (flat : SDModel) : Prop where
  time : ν [0] = cstr "time"
  input : ∀ p v n q, avarAt root p = some (.var v n) → v.type = .ref →
    resolve (avarsAt root p.dropLast.dropLast) v.src = .ok (some q) →
    ν p = ν (p.dropLast.dropLast ++ q)
  inj : ∀ p q, IsVariable root p → IsVariable root q → ν p = ν q → p = q
  nodup : (flat.vars.map (·.name)).Nodup
  var : ∀ w ∈ flat.vars, ∃ p v n, avarAt root p = some (.var v n) ∧ v.type ≠ .ref ∧ p ≠ [0] ∧
    w.name = some (ν p) ∧ v.Spells (nameIn root ν p.dropLast) n w
  all : ∀ p, IsVariable root p → p ≠ [0] → ∃ w ∈ flat.vars, w.name = some (ν p)
  consts : ∀ w ∈ flat.vars, w.tree.isFloatlit = true → w.gf = none

/-! ### Equations that are alike -/

namespace Node

section
variable {f : CStr → Option CStr} {env : Env} {dt time : ℚ} {τ τ' : CStr → ℚ}

mutual
/-- They have the same value where their names have. -/
theorem Alike.value_eq (hτ : ∀ a c, f a = some c → τ a = τ' c) : ∀ {n n' : Node},
    n.Alike f n' → n.value env dt time τ = n'.value env dt time τ'
  | _, _, .parenLeft h => h.value_eq hτ
  | _, _, .parenRight h => h.value_eq hτ
  | _, _, .floatlit h => h
  | _, _, .ident h => hτ _ _ h
  | _, _, .call h => by rw [value, value, h.valueArgs_eq hτ]
  | _, _, .binary hl hr => by rw [value, value, hl.value_eq hτ, hr.value_eq hτ]
  | _, _, .unary h => by rw [value, value, h.value_eq hτ]
  | _, _, .ifElse hc hl hr => by
    rw [value, value, hc.value_eq hτ, hl.value_eq hτ, hr.value_eq hτ]

theorem AlikeArgs.valueArgs_eq (hτ : ∀ a c, f a = some c → τ a = τ' c) :
    ∀ {args args' : List Node}, AlikeArgs f args args' →
    valueArgs env dt time τ args = valueArgs env dt time τ' args'
  | _, _, .nil => rfl
  | _, _, .cons h hs => by rw [valueArgs, valueArgs, h.value_eq hτ, hs.valueArgs_eq hτ]
end

theorem AlikeArgs.length_eq {args args' : List Node} (h : AlikeArgs f args args') :
    args.length = args'.length := by
  induction args generalizing args' with
  | nil =>
    cases h
    rfl
  | cons a args ih =>
    cases h with
    | cons _ hs => rw [List.length_cons, List.length_cons, ih hs]

/-- The same names, values for them that are the same. -/
theorem AlikeNames.map_eq (hτ : ∀ a c, f a = some c → τ a = τ' c) {names names' : List CStr}
    (h : AlikeNames f names names') :
    names.map (fun name => τ (skipDot name)) = names'.map fun name => τ' (skipDot name) := by
  induction h with
  | nil => rfl
  | cons h _ ih => rw [List.map_cons, List.map_cons, hτ _ _ h, ih]

variable {find find' : CStr → Option Path}

mutual
/-- What is like an equation that has a value has one where its names lead to something. -/
theorem Alike.evaluates : ∀ {n n' : Node}, n.Alike f n' → n.Everywhere (Evaluates find) →
    (∀ c ∈ n'.names, find' c ≠ none) → n'.Everywhere (Evaluates find')
  | _, _, .parenLeft h, he, hn => h.evaluates he.2 hn
  | _, _, .parenRight h, he, hn => ⟨trivial, h.evaluates he hn⟩
  | _, _, .floatlit _, _, _ => trivial
  | _, _, .ident _, _, hn => hn _ List.mem_cons_self
  | _, _, .call h, he, hn => ⟨⟨he.1.1, h.length_eq ▸ he.1.2⟩, h.evaluates he.2 hn⟩
  | _, _, .binary hl hr, he, hn =>
    ⟨trivial, hl.evaluates he.2.1 fun c hc => hn c (List.mem_append_left _ hc),
      hr.evaluates he.2.2 fun c hc => hn c (List.mem_append_right _ hc)⟩
  | _, _, .unary h, he, hn => ⟨trivial, h.evaluates he.2 hn⟩
  | _, _, .ifElse hc hl hr, he, hn =>
    ⟨trivial,
      hc.evaluates he.2.1 fun c h =>
        hn c (List.mem_append_left _ (List.mem_append_left _ h)),
      hl.evaluates he.2.2.1 fun c h =>
        hn c (List.mem_append_left _ (List.mem_append_right _ h)),
      hr.evaluates he.2.2.2 fun c h => hn c (List.mem_append_right _ h)⟩

theorem AlikeArgs.evaluates : ∀ {args args' : List Node}, AlikeArgs f args args' →
    EverywhereArgs (Evaluates find) args → (∀ c ∈ namesArgs args', find' c ≠ none) →
    EverywhereArgs (Evaluates find') args'
  | _, _, .nil, _, _ => trivial
  | _, _, .cons h hs, he, hn =>
    ⟨h.evaluates he.1 fun c hc => hn c (List.mem_append_left _ hc),
      hs.evaluates he.2 fun c hc => hn c (List.mem_append_right _ hc)⟩
end

end

theorem Evaluates.knows {model : SDModel} (hn : model.Named) {n : Node}
    (h : n.Evaluates model.find) : model.Knows n ∧ n.ArgsFit ∧ n.Present := by
  cases n with
  | ident name av => exact ⟨hn.find_ne_none_iff.mp h, trivial, trivial⟩
  | call l args fn =>
    obtain ⟨⟨g, hg⟩, hargs⟩ := h
    obtain ⟨name, hl, hfn⟩ := Option.bind_eq_some_iff.mp hg
    refine ⟨⟨name, g, hl, hfn⟩, hargs, ?_⟩
    show l.sval ≠ none
    rw [hl]
    exact Option.some_ne_none name
  | null => exact absurd h id
  | _ => exact ⟨trivial, trivial, trivial⟩

end Node

/-! ### What a name leads to -/

section
variable {root : List AVar} {ν : Path → CStr} {m : Path} {c : CStr}

theorem nameIn_some {a : CStr} (h : nameIn root ν m a = some c) :
    ∃ rel, resolveLoop a 0 (avarsAt root m) = .ok (some rel) ∧ c = ν (m ++ rel) := by
  unfold nameIn at h
  cases hrel : resolveLoop a 0 (avarsAt root m) with
  | error e =>
    rw [hrel] at h
    cases h
  | ok found =>
    rw [hrel] at h
    cases found with
    | none => cases h
    | some rel => exact ⟨rel, rfl, (Option.some.inj h).symm⟩

theorem nameIn_value {a : CStr} (h : nameIn root ν m a = some c) (τ : CStr → ℚ) :
    nameValue root (fun p => τ (ν p)) m a = τ c := by
  obtain ⟨rel, hrel, rfl⟩ := nameIn_some h
  simp only [nameValue, hrel]

theorem nameIn_find {name : CStr} (h : nameIn root ν m (skipDot name) = some c) :
    ∃ q, (scopeAt root m).find name = some q ∧ c = ν q := by
  obtain ⟨rel, hrel, rfl⟩ := nameIn_some h
  refine ⟨m ++ rel, ?_, rfl⟩
  simp only [Scope.find, scopeAt, resolve, hrel]

/-- What a name of a list leads to is among what the list has been resolved to. -/
theorem mem_of_resolveAll {scope : Scope} {names : List CStr} {ps : List Path}
    (hps : resolveAll scope names = .ok ps) {name : CStr} (hname : name ∈ names) {q : Path}
    (hq : scope.find name = some q) : q ∈ ps := by
  have hall := resolveAll_forall₂ hps
  clear hps
  induction hall with
  | nil => cases hname
  | cons hq' _ ih =>
    rcases List.mem_cons.mp hname with rfl | hname
    · obtain rfl := Option.some.inj (hq.symm.trans hq')
      exact List.mem_cons_self
    · exact List.mem_cons_of_mem _ (ih hname)

end

theorem Var.Spells.value_eq {root : List AVar} {ν : Path → CStr} {p : Path} {v w : Var} {n : Node}
    (h : v.Spells (nameIn root ν p.dropLast) n w) (htime : ν [0] = cstr "time") (env : Env)
    (dt : ℚ) (τ : CStr → ℚ) :
    w.value env dt τ = eqnValue env dt root (fun q => τ (ν q)) p v n := by
  rw [Var.value, eqnValue, h.gf, htime]
  exact congrArg (tableValue v.gf) (h.tree.value_eq fun a c hin => nameIn_value hin τ).symm

theorem Var.Spells.netFlow_eq {root : List AVar} {ν : Path → CStr} {p : Path} {v w : Var}
    {n : Node} (h : v.Spells (nameIn root ν p.dropLast) n w) (τ : CStr → ℚ) :
    w.netFlow τ = v.netFlow (nameValue root (fun q => τ (ν q)) p.dropLast) := by
  rw [Var.netFlow, Var.netFlow, h.inflows.map_eq fun a c hin => nameIn_value hin τ,
    h.outflows.map_eq fun a c hin => nameIn_value hin τ]

/-! ### The order in which a tree is calculated -/

namespace Timely

variable {s : SDSim} (h : Timely s) {p e : Path}
include h

theorem reads_isColumn (hr : s.Reads p e) : IsColumn s.root s.store e := by
  obtain ⟨q, hq, hend⟩ := hr
  obtain ⟨e', hend', hcol, -⟩ := (h.wired.readable h.reset.built hq).ends
  rwa [hend.unique hend']

theorem reads_col (hr : s.Reads p e) : s.col e ∈ s.readCols p := by
  obtain ⟨q, hq, hend⟩ := hr
  obtain ⟨e', hend', -, -, hoff⟩ := (h.wired.readable h.reset.built hq).ends
  rw [hend.unique hend']
  exact List.mem_cons_of_mem _ (List.mem_map.mpr ⟨q, hq, hoff⟩)

theorem time_idents : (s.store [0]).node.idents = [] := by
  have hcomp := h.reset.built.compiled [0]
  simp only [Compiled, avarAt_time h.reset.built] at hcomp
  generalize s.store [0] = d at hcomp ⊢
  cases hcomp with
  | ref href => cases href
  | time => rfl
  | equation _ hno => exact absurd ⟨rfl, rfl⟩ hno

theorem reads_var (hp : IsColumn s.root s.store p) (hr : s.Reads p e) :
    ∃ v n, avarAt s.root p = some (.var v n) ∧ v.type ≠ .ref ∧ v.eqn ≠ none ∧
      n.isFloatlit = false := by
  obtain ⟨q, hq, -⟩ := hr
  have hne : p ≠ [0] := by
    rintro rfl
    rw [h.time_idents] at hq
    cases hq
  obtain ⟨v, n, hv, ht, he, -⟩ := h.exists_var hp hne
  refine ⟨v, n, hv, ht, he, ?_⟩
  rw [(equation_compiled h.reset.built hv ht he).1] at hq
  cases n with
  | floatlit text x => cases hq
  | _ => rfl

/-- No variable is calculated from itself. -/
theorem no_loop (p : Path) : ¬ TransGen s.Reads p p := by
  classical
  let rank : Path → Nat := fun p =>
    if s.Starts p then s.initialLeaves.idxOf p else s.initialLeaves.length + s.flowLeaves.idxOf p
  have hstep : ∀ a b c, IsColumn s.root s.store a → s.Reads a b → s.Reads b c →
      rank b < rank a := by
    intro a b c hacol hab hbc
    have hcol := h.reads_isColumn hab
    obtain ⟨v, n, hv, ht, he, hlit⟩ := h.reads_var hacol hab
    obtain ⟨v', n', hv', ht', he', hlit'⟩ := h.reads_var hcol hbc
    have hne := h.ne_time hv' he'
    have hmem := h.mem_initialLeaves hcol hne
    by_cases ha : s.Starts a
    · obtain ⟨q, hq, hend⟩ := id hab
      have hb : s.Starts b := ha.read hq hend
      simp only [rank, if_pos ha, if_pos hb]
      exact h.inTime.starts a ha b hmem (h.reads_col hab)
    · by_cases hb : s.Starts b
      · simp only [rank, if_neg ha, if_pos hb]
        exact Nat.lt_add_right _ (List.idxOf_lt_length_iff.mpr hmem)
      · simp only [rank, if_neg ha, if_neg hb]
        refine Nat.add_lt_add_left (h.inTime.flows.idxOf_lt ?_ List.not_mem_nil ?_
          List.not_mem_nil (h.reads_col hab)) _
        · exact (h.mem_flowLeaves_iff hv ht he).mpr ⟨fun hst => ha (.stock hv hst), hlit⟩
        · exact (h.mem_flowLeaves_iff hv' ht' he').mpr ⟨fun hst => hb (.stock hv' hst), hlit'⟩
  have htarget : ∀ b, TransGen s.Reads p b → IsColumn s.root s.store b := by
    intro b hb
    obtain ⟨c, -, hr⟩ := TransGen.tail'_iff.mp hb
    exact h.reads_isColumn hr
  intro hloop
  have hall : ∀ b c, TransGen s.Reads p b → s.Reads b c → rank b < rank p := by
    intro b c hb
    induction hb generalizing c with
    | single hab => exact fun hbc => hstep _ _ _ (htarget p hloop) hab hbc
    | tail hpb hab ih => exact fun hbc => (hstep _ _ _ (htarget _ hpb) hab hbc).trans (ih _ hab)
  obtain ⟨c, hc, -⟩ := TransGen.head'_iff.mp hloop
  exact lt_irrefl _ (hall p c hloop hc)

end Timely

/-! ### The flat model is accepted -/

namespace Flattens

variable {s : SDSim} {ν : Path → CStr} {flat : SDModel} (hf : Flattens s.root ν flat)
  (h : Timely s) {p q e : Path} {v w : Var} {n : Node}
include hf h

theorem src (hq : (s.store p).src = some q) : ν p = ν q := by
  obtain ⟨v, n, rel, hv, ht, hrel, rfl⟩ := input_compiled h.reset.built hq
  exact hf.input p v n rel hv ht hrel

theorem ends (hend : EndsAt s.store q e) : ν q = ν e := by
  induction hend with
  | here => rfl
  | step hq _ ih => exact (hf.src h hq).trans ih

theorem col_inj (hp : IsColumn s.root s.store p) (hq : IsColumn s.root s.store q)
    (heq : ν p = ν q) : p = q :=
  hf.inj p q ((isColumn_iff (h.reset.built.compiled p)).mp hp)
    ((isColumn_iff (h.reset.built.compiled q)).mp hq) heq

theorem has (he : IsColumn s.root s.store e) : flat.Has (ν e) := by
  by_cases hne : e = [0]
  · exact .inl (hne ▸ hf.time)
  · obtain ⟨w, hw, hname⟩ := hf.all e ((isColumn_iff (h.reset.built.compiled e)).mp he) hne
    exact .inr ⟨w, hw, hname⟩

theorem named : flat.Named where
  name w hmem := by
    obtain ⟨p, v, n, -, -, -, hname, -⟩ := hf.var w hmem
    rw [hname]
    exact Option.some_ne_none _
  nodup := hf.nodup
  time w hmem hname := by
    obtain ⟨p, v, n, hv, ht, hne, hname', -⟩ := hf.var w hmem
    have hcol := isColumn_of_type h.reset.built hv ht
    refine hne (hf.col_inj h hcol h.reset.built.numbered.time.1 ?_)
    rw [hf.time]
    exact Option.some.inj (hname'.symm.trans hname)

omit h in
/-- The variable of the flat model that stands for one of the tree. -/
theorem spelled (hv : avarAt s.root p = some (.var v n)) (ht : v.type ≠ .ref) (hne : p ≠ [0]) :
    ∃ w ∈ flat.vars, w.name = some (ν p) ∧ v.Spells (nameIn s.root ν p.dropLast) n w := by
  obtain ⟨w, hmem, hname⟩ := hf.all p ⟨v, n, hv, ht⟩ hne
  obtain ⟨p', v', n', hv', ht', -, hname', hspells⟩ := hf.var w hmem
  obtain rfl := hf.inj p p' ⟨v, n, hv, ht⟩ ⟨v', n', hv', ht'⟩
    (Option.some.inj (hname.symm.trans hname'))
  cases hv.symm.trans hv'
  exact ⟨w, hmem, hname, hspells⟩

section
variable (hv : avarAt s.root p = some (.var v n)) (ht : v.type ≠ .ref) (hne : p ≠ [0])
  (hspells : v.Spells (nameIn s.root ν p.dropLast) n w)
include hv ht hne hspells

/-- A name in the flat model's equation is that of a variable that the tree's reads. -/
theorem name_read {c : CStr} (hc : c ∈ w.tree.names) :
    ∃ e, s.Reads p e ∧ IsColumn s.root s.store e ∧ skipDot c = ν e := by
  have he : v.eqn ≠ none := fun hnone => hne ((h.wired p v n hv).equation ht hnone)
  obtain ⟨name, hname, hin⟩ := hspells.tree.names.of_mem hc
  obtain ⟨q, hq, hcq⟩ := nameIn_find hin
  have hident : q ∈ (s.store p).node.idents := by
    rw [(equation_compiled h.reset.built hv ht he).1, Node.idents_link]
    exact List.mem_filterMap.mpr ⟨name, hname, hq⟩
  obtain ⟨e, hend, hcol, -⟩ := (h.wired.readable h.reset.built hident).ends
  exact ⟨e, ⟨q, hident, hend⟩, hcol, hcq.trans (hf.ends h hend)⟩

theorem evaluates : w.tree.Everywhere (Node.Evaluates flat.find) := by
  have he : v.eqn ≠ none := fun hnone => hne ((h.wired p v n hv).equation ht hnone)
  refine hspells.tree.evaluates ((h.wired p v n hv).evaluates ht he) fun c hc => ?_
  obtain ⟨e, -, hcol, hce⟩ := hf.name_read h hv ht hne hspells hc
  rw [(hf.named h).find_ne_none_iff, hce]
  exact hf.has h hcol

end

/-- The flows of a stock are there. -/
theorem has_flow {names names' : List CStr} {ps : List Path}
    (hps : resolveAll (scopeAt s.root p.dropLast) names = .ok ps)
    (hcol : ∀ q ∈ ps, IsColumn s.root s.store q)
    (halike : Node.AlikeNames (nameIn s.root ν p.dropLast) names names') :
    ∀ c ∈ names', flat.Has (skipDot c) := by
  intro c hc
  obtain ⟨name, hname, hin⟩ := halike.of_mem hc
  obtain ⟨q, hq, hcq⟩ := nameIn_find hin
  rw [hcq]
  exact hf.has h (hcol q (mem_of_resolveAll hps hname hq))

theorem evaluates_var (hmem : w ∈ flat.vars) : w.tree.Everywhere (Node.Evaluates flat.find) := by
  obtain ⟨p, v, n, hv, ht, hne, -, hspells⟩ := hf.var w hmem
  exact hf.evaluates h hv ht hne hspells

theorem closed : flat.Closed where
  flat w hmem := by
    obtain ⟨p, v, n, hv, -, -, -, hspells⟩ := hf.var w hmem
    rw [hspells.type]
    intro hm
    have hmodule := (h.reset.built.typed _ _ hv).isModule_iff.mpr hm
    cases hmodule
  named := hf.named h
  knows w hmem := (hf.evaluates_var h hmem).imp fun _ hm => (hm.knows (hf.named h)).1
  filled w _ t _ := ⟨Nat.le_refl _, t.len_eq.ge⟩
  consts := hf.consts

theorem argsFit (hmem : w ∈ flat.vars) : w.tree.Everywhere Node.ArgsFit :=
  (hf.evaluates_var h hmem).imp fun _ hm => (hm.knows (hf.named h)).2.1

theorem refersTo {a b : CStr} (hr : flat.RefersTo a b) : ∃ p e, IsColumn s.root s.store p ∧
    IsColumn s.root s.store e ∧ a = ν p ∧ b = ν e ∧ s.Reads p e := by
  obtain ⟨-, w, hmem, hname, c, hc, rfl⟩ := hr
  obtain ⟨p, v, n, hv, ht, hne, hname', hspells⟩ := hf.var w hmem
  obtain ⟨e, hread, hcol, hce⟩ := hf.name_read h hv ht hne hspells hc
  exact ⟨p, e, isColumn_of_type h.reset.built hv ht, hcol,
    Option.some.inj (hname.symm.trans hname'), hce, hread⟩

theorem transGen {a b : CStr} (hr : TransGen flat.RefersTo a b) :
    ∃ p e, IsColumn s.root s.store p ∧ IsColumn s.root s.store e ∧ a = ν p ∧ b = ν e ∧
      TransGen s.Reads p e := by
  induction hr with
  | single hr =>
    obtain ⟨p, e, hp, he, ha, hb, hr⟩ := hf.refersTo h hr
    exact ⟨p, e, hp, he, ha, hb, .single hr⟩
  | tail _ hr ih =>
    obtain ⟨p, e, hp, he, ha, hb, htrans⟩ := ih
    obtain ⟨e', g, he', hg, hb', hc, hr⟩ := hf.refersTo h hr
    obtain rfl := hf.col_inj h he he' (hb.symm.trans hb')
    exact ⟨p, g, hp, hg, ha, hc, htrans.tail hr⟩

theorem accepted : flat.Accepted := by
  constructor
  · intro w hmem
    obtain ⟨p, v, n, hv, ht, hne, -, hspells⟩ := hf.var w hmem
    have he : v.eqn ≠ none := fun hnone => hne ((h.wired p v n hv).equation ht hnone)
    obtain ⟨-, hin, hout⟩ := equation_compiled h.reset.built hv ht he
    have hflows := (h.wired p v n hv).flows
    have hpresent : w.tree.Everywhere Node.Present :=
      (hf.evaluates_var h hmem).imp fun _ hm => (hm.knows (hf.named h)).2.2
    have hnull := Node.isNull_of_present hpresent
    refine ⟨fun eqn heqn => ?_, hspells.type ▸ ht, hnull, hpresent,
      hf.has_flow h hin (fun q hq => hflows q (List.mem_append_left _ hq)) hspells.inflows,
      hf.has_flow h hout (fun q hq => hflows q (List.mem_append_right _ hq)) hspells.outflows⟩
    simp only [Var.tree, heqn] at hnull ⊢
    cases hparse : avarEqnParse eqn with
    | ok n => rfl
    | error e =>
      rw [hparse] at hnull
      exact absurd hnull (by simp [Node.isNull])
  · intro name hcyc
    obtain ⟨p, e, hp, he, hname, hname', htrans⟩ := hf.transGen h hcyc
    obtain rfl := hf.col_inj h hp he (hname.symm.trans hname')
    exact h.no_loop p htrans

/-! ### The two have one trajectory -/

theorem moduleEuler {env : Env} {specs : SimSpec} {σ : Nat → CStr → ℚ}
    (hσ : Euler env specs flat σ) : ModuleEuler env specs s.root fun j p => σ j (ν p) := by
  constructor
  · intro j
    rw [hf.time]
    exact hσ.time j
  · intro j p v n q hv ht hq
    exact congrArg (σ j) (hf.input p v n q hv ht hq)
  · intro p v n hv hstock
    obtain ⟨w, hmem, hname, hspells⟩ :=
      hf.spelled hv (by simp [hstock]) (stock_ne_time h.reset.built hv hstock)
    exact (hσ.initial w hmem _ hname).trans (hspells.value_eq hf.time _ _ _)
  · intro j p v n hv hkind he
    obtain ⟨w, hmem, hname, hspells⟩ :=
      hf.spelled hv (by rcases hkind with hk | hk <;> simp [hk]) (h.ne_time hv he)
    exact (hσ.flow j w hmem _ hname (hspells.type ▸ hkind)).trans
      (hspells.value_eq hf.time _ _ _)
  · intro j p v n hv hstock
    obtain ⟨w, hmem, hname, hspells⟩ :=
      hf.spelled hv (by simp [hstock]) (stock_ne_time h.reset.built hv hstock)
    rw [← hspells.netFlow_eq]
    exact hσ.stock j w hmem _ hname (hspells.type.trans hstock)

end Flattens

/-! ### The two simulations -/

/-- What is read of the flat model's simulation, brought to `t'`, is what is read of that of
    the tree, brought to `t`. -/
structure SameValues (s t t' : SDSim) (ν : Path → CStr) : Prop where
  step : t'.step = t.step
  time : sdSimGetValue t' (some (cstr "time")) = sdSimGetValue t (some (cstr "time"))
  stock : ∀ name name' p v n, resolve s.root (some name) = .ok (some p) →
    skipDot name' = ν p → avarAt s.root p = some (.var v n) → v.type = .stock →
    sdSimGetValue t' (some name') = sdSimGetValue t (some name)
  saved : ∀ name name' p len, resolve s.root (some name) = .ok (some p) →
    skipDot name' = ν p → IsVariable s.root p →
    ∃ vs vs', sdSimGetSeries t (some name) len = .ok vs ∧
      sdSimGetSeries t' (some name') len = .ok vs' ∧
      ∀ i x x', vs[i]? = some x → vs'[i]? = some x' → i * s.saveEvery < t.step → x' = x
  atEnd : 0 < s.nsteps → ∀ stop, Reaches s stop → ∀ u u', sdSimRunTo t stop = .ok u →
    sdSimRunTo t' stop = .ok u' → ∀ name name' p, resolve s.root (some name) = .ok (some p) →
    skipDot name' = ν p → IsVariable s.root p →
    sdSimGetValue u' (some name') = sdSimGetValue u (some name)

theorem Flattens.sameValues {s s' t t' : SDSim} {ν : Path → CStr} {flat : SDModel}
    (hf : Flattens s.root ν flat) (h : Timely s) (h' : Evaluable flat s') (henv : s'.env = s.env)
    (hspec : s'.spec = s.spec) {cs : List Call} (hrun : s.calls cs = .ok t)
    (hrun' : s'.calls cs = .ok t') : SameValues s t t' ν := by
  obtain ⟨σ, hσ⟩ := h'.exists_euler
  have hreads' := h'.reads hrun' hσ
  rw [henv, hspec] at hσ
  have hreads := h.reads hrun (hf.moduleEuler h hσ)
  have hclock : SameClock s s' := ⟨h.reset, h'.reset, hspec⟩
  have hnsteps := hclock.nsteps
  have hevery := hclock.saveEvery
  have hstep := hclock.step_eq hrun hrun'
  have hcol : ∀ {p}, IsVariable s.root p → IsColumn s.root s.store p :=
    fun hp => (isColumn_iff (h.reset.built.compiled _)).mpr hp
  constructor
  · exact hstep
  · rw [hreads'.time, hreads.time, hstep, hf.time]
  · intro name name' p v n hres hname hv hstock
    obtain ⟨w, hmem, hw, hspells⟩ :=
      hf.spelled hv (by simp [hstock]) (stock_ne_time h.reset.built hv hstock)
    rw [hreads.stock name p v n hres hv hstock,
      hreads'.stock w hmem name' (hw.trans (congrArg some hname.symm))
        (hspells.type.trans hstock), hstep, hname]
  · intro name name' p len hres hname hp
    obtain ⟨vs, hvs, hval⟩ := hreads.saved name p len hres (hcol hp)
    obtain ⟨vs', hvs', hval'⟩ := hreads'.saved name' len (hname ▸ hf.has h (hcol hp))
    refine ⟨vs, vs', hvs, hvs', fun i x x' hx hx' hi => ?_⟩
    have hi' : i * s'.saveEvery < t'.step := by rwa [hevery, hstep]
    rw [hval i x hx hi, hval' i x' hx' hi', hevery, hname]
  · intro hpos stop hreach u u' hu hu' name name' p hres hname hp
    have hpos' : 0 < s'.nsteps := by rwa [hnsteps]
    have hreach' : Reaches s' stop := fun j hj => by
      rw [SDSim.timeAt, hspec]
      exact hreach j (hnsteps ▸ hj)
    rw [hreads.atEnd hpos stop hreach u hu name p hres (hcol hp),
      hreads'.atEnd hpos' stop hreach' u' hu' name' (hname ▸ hf.has h (hcol hp)), hnsteps, hname]

/-- A test for numbers, names and operators. -/
def Node.spells (f : CStr → Option CStr) : Node → Node → Bool
  | .floatlit s _, .floatlit s' _ => atof s == atof s'
  | .ident s _, .ident s' _ => f (skipDot s) == some (skipDot s')
  | .binary op l r, .binary op' l' r' => op == op' && l.spells f l' && r.spells f r'
  | _, _ => false

theorem Node.alike_of_spells {f : CStr → Option CStr} {n n' : Node} (h : n.spells f n' = true) :
    n.Alike f n' := by
  fun_induction Node.spells f n n' with
  | case1 s _ s' _ => exact .floatlit (by simpa using h)
  | case2 s _ s' _ => exact .ident (by simpa using h)
  | case3 op l r op' l' r' ihl ihr =>
    simp only [Bool.and_eq_true, beq_iff_eq] at h
    obtain ⟨⟨rfl, hl⟩, hr⟩ := h
    exact .binary (ihl hl) (ihr hr)
  | case4 => cases h

instance (f : CStr → Option CStr) (names names' : List CStr) :
    Decidable (Node.AlikeNames f names names') :=
  inferInstanceAs (Decidable (List.Forall₂ _ _ _))

def Var.spells (f : CStr → Option CStr) (v : Var) (n : Node) (w : Var) : Bool :=
  decide (w.type = v.type) && n.spells f w.tree && decide (w.tree.isFloatlit = n.isFloatlit) &&
    decide (w.gf = v.gf) && decide (Node.AlikeNames f v.inflows w.inflows) &&
    decide (Node.AlikeNames f v.outflows w.outflows)

theorem Var.spells_of {f : CStr → Option CStr} {v w : Var} {n : Node}
    (h : v.spells f n w = true) : v.Spells f n w := by
  simp only [Var.spells, Bool.and_eq_true, decide_eq_true_eq] at h
  obtain ⟨⟨⟨⟨⟨htype, htree⟩, hconst⟩, hgf⟩, hin⟩, hout⟩ := h
  exact ⟨htype, Node.alike_of_spells htree, hconst, hgf, hin, hout⟩

/-- Where the tree has been compiled, its paths are what there is to look at. -/
theorem flattens_of_paths {s : SDSim} {ν : Path → CStr} {flat : SDModel} (hw : WellBuilt s)
    (htime : ν [0] = cstr "time") (hnodup : (flat.vars.map (·.name)).Nodup)
    (hconsts : ∀ w ∈ flat.vars, w.tree.isFloatlit = true → w.gf = none)
    (hinput : ∀ p ∈ pathsFrom [] 0 s.root, ∀ q ∈ (s.store p).src, ν p = ν q)
    (hinj : ∀ p ∈ pathsFrom [] 0 s.root, ∀ q ∈ pathsFrom [] 0 s.root,
      IsColumn s.root s.store p → IsColumn s.root s.store q → ν p = ν q → p = q)
    (hvar : ∀ w ∈ flat.vars, ∃ p ∈ pathsFrom [] 0 s.root, p ≠ [0] ∧ w.name = some (ν p) ∧
      IsColumn s.root s.store p ∧ ∃ av ∈ avarAt s.root p,
        av.v.spells (nameIn s.root ν p.dropLast) av.node w = true)
    (hall : ∀ p ∈ pathsFrom [] 0 s.root, IsColumn s.root s.store p → p ≠ [0] →
      ∃ w ∈ flat.vars, w.name = some (ν p)) : Flattens s.root ν flat := by
  have hcol : ∀ {p}, IsVariable s.root p → IsColumn s.root s.store p :=
    fun hp => (isColumn_iff (hw.compiled _)).mpr hp
  have hmem : ∀ {p}, IsVariable s.root p → p ∈ pathsFrom [] 0 s.root := by
    rintro p ⟨v, n, hv, -⟩
    exact mem_paths hv
  refine ⟨htime, fun p v n q hv ht hq => ?_, fun p q hp hq => ?_, hnodup, fun w hw' => ?_,
    fun p hp hne => hall p (hmem hp) (hcol hp) hne, hconsts⟩
  · exact hinput p (mem_paths hv) _ (src_of_ref hw hv ht hq)
  · exact hinj p (hmem hp) q (hmem hq) (hcol hp) (hcol hq)
  · obtain ⟨p, -, hne, hname, hp, av, hav, hspells⟩ := hvar w hw'
    obtain ⟨v, n, hv, ht⟩ := (isColumn_iff (hw.compiled p)).mp hp
    cases hv.symm.trans hav
    exact ⟨p, v, n, hv, ht, hne, hname, Var.spells_of hspells⟩

/-- The variables of both modules, side by side. -/
def haresAndLynxesFlat : SDModel :=
  { name := none, vars := [
    { Var.ofEquation .stock "hares" "50000" with
      inflows := [cstr "hare_births"], outflows := [cstr "hare_deaths"] },
    Var.ofEquation .flow "hare_births" "hares * hare_birth_fraction",
    Var.ofEquation .flow "hare_deaths" "lynxes * hare_density",
    Var.ofEquation .aux "hare_birth_fraction" "1.25",
    Var.ofEquation .aux "hare_density" "hares / area",
    { Var.ofEquation .stock "lynxes" "hares / 40" with
      inflows := [cstr "lynx_births"], outflows := [cstr "lynx_deaths"] },
    Var.ofEquation .flow "lynx_births" "lynxes * lynx_birth_fraction",
    Var.ofEquation .flow "lynx_deaths" "lynxes / hare_density",
    Var.ofEquation .aux "lynx_birth_fraction" "0.25",
    Var.ofEquation .aux "area" "1000"] }

def haresAndLynxesNames : List (Path × CStr) := [
  ([0], cstr "time"), ([1, 0], cstr "hares"), ([1, 1], cstr "hare_births"),
  ([1, 2], cstr "hare_deaths"), ([1, 3], cstr "hare_birth_fraction"), ([1, 4], cstr "area"),
  ([1, 5], cstr "hare_density"), ([1, 6], cstr "lynxes"), ([2, 0], cstr "lynxes"),
  ([2, 1], cstr "lynx_births"), ([2, 2], cstr "lynx_deaths"),
  ([2, 3], cstr "lynx_birth_fraction"), ([2, 4], cstr "hare_density"), ([2, 5], cstr "hares"),
  ([3], cstr "area")]

def haresAndLynxesName (p : Path) : CStr := (haresAndLynxesNames.lookup p).getD []

end Libsd

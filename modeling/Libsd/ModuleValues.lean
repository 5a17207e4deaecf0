/-
  Libsd/ModuleValues.lean
  =======================
  **Euler integration of a tree of modules, as a specification.**

  `ModuleEuler` says what the modules demand of a trajectory.  The names in an equation
  stand for variables of the module that it is in, and a connected input has the value of
  the variable that it is connected to.  Nothing is said of offsets and of the order in
  which things are calculated.

  On a row that holds the values of such a trajectory, the equations have the values that
  it demands (`calcValue_eq`, `netFlow_eq`).
-/
import Libsd.ConnectedInputs
import Libsd.Euler
import Libsd.Termination

namespace Libsd

open Outcome

/-- What a name is worth in the module at `m`; a dot before it has been skipped. -/
def nameValue (root : List AVar) (τ : Path → ℚ) (m : Path) (name : CStr) : ℚ :=
  match resolveLoop name 0 (avarsAt root m) with
  | .ok (some q) => τ (m ++ q)
  | _ => 0

/-- The value that the variable at `p` has by its equation and table. -/
def eqnValue (env : Env) (dt : ℚ) (root : List AVar) (τ : Path → ℚ) (p : Path) (v : Var)
    (n : Node) : ℚ :=
  tableValue v.gf (n.value env dt (τ [0]) (nameValue root τ p.dropLast))

/-- What a tree of modules demands of a trajectory. -/
structure ModuleEuler (env : Env) (specs : SimSpec) (root : List AVar) (σ : Nat → Path → ℚ) :
    Prop where
  time : ∀ j, σ j [0] = specs.start + j * specs.dt
  input : ∀ j p v n q, avarAt root p = some (.var v n) → v.type = .ref →
    resolve (avarsAt root p.dropLast.dropLast) v.src = .ok (some q) →
    σ j p = σ j (p.dropLast.dropLast ++ q)
  initial : ∀ p v n, avarAt root p = some (.var v n) → v.type = .stock →
    σ 0 p = eqnValue env specs.dt root (σ 0) p v n
  flow : ∀ j p v n, avarAt root p = some (.var v n) → v.type = .flow ∨ v.type = .aux →
    v.eqn ≠ none → σ j p = eqnValue env specs.dt root (σ j) p v n
  stock : ∀ j p v n, avarAt root p = some (.var v n) → v.type = .stock →
    σ (j + 1) p = σ j p + specs.dt * v.netFlow (nameValue root (σ j) p.dropLast)

/-! ### What equations name -/

/-- A simulated variable, or an input that is connected to one. -/
def SDSim.Readable (s : SDSim) (q : Path) : Prop :=
  IsColumn s.root s.store q ∨ ∃ e, (s.store q).src = some e ∧ IsColumn s.root s.store e

/-- The variable at `p` has an equation, which names what can be read and calls what there is
    with no more than six arguments; a flow of it is simulated, and if it is a number it has no
    table. -/
structure SDSim.WiredAt (s : SDSim) (p : Path) (v : Var) (n : Node) : Prop where
  equation : v.type ≠ .ref → v.eqn = none → p = [0]
  evaluates : v.type ≠ .ref → v.eqn ≠ none →
    n.Everywhere (Node.Evaluates (scopeAt s.root p.dropLast).find)
  readable : ∀ q ∈ (s.store p).node.idents, s.Readable q
  flows : ∀ q ∈ (s.store p).inflows ++ (s.store p).outflows, IsColumn s.root s.store q
  consts : v.type = .flow ∨ v.type = .aux → n.isFloatlit = true → v.gf = none

def Wired (s : SDSim) : Prop := ∀ p v n, avarAt s.root p = some (.var v n) → s.WiredAt p v n

/-- The columns of a row hold the values, and an input has that of what it is connected to. -/
structure SDSim.Holds (s : SDSim) (row : Row) (τ : Path → ℚ) : Prop where
  column : ∀ p, IsColumn s.root s.store p → row (s.col p) = τ p
  input : ∀ p q, (s.store p).src = some q → τ p = τ q

variable {s : SDSim} {p q : Path} {v : Var} {n : Node} {row : Row} {τ : Path → ℚ}

/-! ### Checking a tree of modules -/

instance decidablePresent : ∀ n : Node, Decidable n.Present
  | .null => inferInstanceAs (Decidable False)
  | .call l _ _ => inferInstanceAs (Decidable (l.sval ≠ none))
  | .paren _ | .floatlit _ _ | .ident _ _ | .binary _ _ _ | .unary _ _ | .ifElse _ _ _ =>
    inferInstanceAs (Decidable True)

instance decidableEvaluates (find : CStr → Option Path) :
    ∀ n : Node, Decidable (n.Evaluates find)
  | .ident name _ => inferInstanceAs (Decidable (find name ≠ none))
  | .call l args _ =>
    have : Decidable (∃ fn, l.sval.bind (fun s => RT_FNS.lookup s) = some fn) :=
      decidable_of_iff _ Option.isSome_iff_exists
    inferInstanceAs (Decidable
      ((∃ fn, l.sval.bind (fun s => RT_FNS.lookup s) = some fn) ∧ args.length ≤ 6))
  | .null => inferInstanceAs (Decidable False)
  | .paren _ | .floatlit _ _ | .binary _ _ _ | .unary _ _ | .ifElse _ _ _ =>
    inferInstanceAs (Decidable True)

mutual
instance decidableEverywhere {P : Node → Prop} [DecidablePred P] :
    ∀ n : Node, Decidable (n.Everywhere P)
  | .null => inferInstanceAs (Decidable (P .null))
  | .paren l =>
    have := decidableEverywhere (P := P) l
    inferInstanceAs (Decidable (P (.paren l) ∧ l.Everywhere P))
  | .floatlit txt x => inferInstanceAs (Decidable (P (.floatlit txt x)))
  | .ident name av => inferInstanceAs (Decidable (P (.ident name av)))
  | .call l args fn =>
    have := decidableEverywhereArgs (P := P) args
    inferInstanceAs (Decidable (P (.call l args fn) ∧ Node.EverywhereArgs P args))
  | .binary op l r =>
    have := decidableEverywhere (P := P) l
    have := decidableEverywhere (P := P) r
    inferInstanceAs (Decidable (P (.binary op l r) ∧ l.Everywhere P ∧ r.Everywhere P))
  | .unary op l =>
    have := decidableEverywhere (P := P) l
    inferInstanceAs (Decidable (P (.unary op l) ∧ l.Everywhere P))
  | .ifElse c l r =>
    have := decidableEverywhere (P := P) c
    have := decidableEverywhere (P := P) l
    have := decidableEverywhere (P := P) r
    inferInstanceAs
      (Decidable (P (.ifElse c l r) ∧ c.Everywhere P ∧ l.Everywhere P ∧ r.Everywhere P))

instance decidableEverywhereArgs {P : Node → Prop} [DecidablePred P] :
    ∀ args : List Node, Decidable (Node.EverywhereArgs P args)
  | [] => inferInstanceAs (Decidable True)
  | a :: args =>
    have := decidableEverywhere (P := P) a
    have := decidableEverywhereArgs (P := P) args
    inferInstanceAs (Decidable (a.Everywhere P ∧ Node.EverywhereArgs P args))
end

/-- What holds of the variables in a tree holds at the paths that the tree has. -/
theorem forall_vars_iff {P : Path → Var → Node → Prop} {root : List AVar} :
    (∀ p ∈ pathsFrom [] 0 root, ∀ av ∈ avarAt root p, av.isModule = false → P p av.v av.node) ↔
      ∀ p v n, avarAt root p = some (.var v n) → P p v n := by
  constructor
  · intro h p v n hv
    exact h p (mem_paths hv) (.var v n) hv rfl
  · intro h p _ av hav hm
    cases av with
    | var v n => exact h p v n hav
    | module v avars => cases hm

theorem isColumn_iff_any {root : List AVar} {st : Store} : IsColumn root st p ↔
    ((avarAt root p).any fun av => !av.isModule) = true ∧ (st p).src = none := by
  constructor
  · rintro ⟨v, n, hv, hsrc⟩
    exact ⟨by simp [hv, AVar.isModule], hsrc⟩
  · rintro ⟨hany, hsrc⟩
    rw [Option.any_eq_true] at hany
    obtain ⟨av, hav, hm⟩ := hany
    cases av with
    | var v n => exact ⟨v, n, hav, hsrc⟩
    | module v avars => cases hm

instance (root : List AVar) (st : Store) (p : Path) : Decidable (IsColumn root st p) :=
  decidable_of_iff _ isColumn_iff_any.symm

theorem readable_iff : (IsColumn s.root s.store q ∨
    ∃ e ∈ (s.store q).src, IsColumn s.root s.store e) ↔ s.Readable q := Iff.rfl

instance (s : SDSim) (q : Path) : Decidable (s.Readable q) := decidable_of_iff _ readable_iff

theorem wiredAt_iff : ((v.type ≠ .ref → v.eqn = none → p = [0]) ∧
    (v.type ≠ .ref → v.eqn ≠ none →
      n.Everywhere (Node.Evaluates (scopeAt s.root p.dropLast).find)) ∧
    (∀ q ∈ (s.store p).node.idents, s.Readable q) ∧
    (∀ q ∈ (s.store p).inflows ++ (s.store p).outflows, IsColumn s.root s.store q) ∧
    (v.type = .flow ∨ v.type = .aux → n.isFloatlit = true → v.gf = none)) ↔ s.WiredAt p v n :=
  ⟨fun ⟨a, b, c, d, e⟩ => ⟨a, b, c, d, e⟩, fun ⟨a, b, c, d, e⟩ => ⟨a, b, c, d, e⟩⟩

instance (s : SDSim) (p : Path) (v : Var) (n : Node) : Decidable (s.WiredAt p v n) :=
  decidable_of_iff _ wiredAt_iff

instance (s : SDSim) : Decidable (Wired s) := decidable_of_iff _ forall_vars_iff

/-! ### What compilation makes of a variable -/

theorem avarAt_time (hw : WellBuilt s) : avarAt s.root [0] = some (.var timeVar .null) := by
  simp [avarAt_cons, hw.time]

theorem stock_ne_time (hw : WellBuilt s) (hv : avarAt s.root p = some (.var v n))
    (hstock : v.type = .stock) : p ≠ [0] := by
  rintro rfl
  cases hv.symm.trans (avarAt_time hw)
  cases hstock

theorem equation_compiled (hw : WellBuilt s) (hv : avarAt s.root p = some (.var v n))
    (ht : v.type ≠ .ref) (he : v.eqn ≠ none) :
    (s.store p).node = n.link (scopeAt s.root p.dropLast).find ∧
      resolveAll (scopeAt s.root p.dropLast) v.inflows = .ok (s.store p).inflows ∧
      resolveAll (scopeAt s.root p.dropLast) v.outflows = .ok (s.store p).outflows := by
  have hcomp := hw.compiled p
  simp only [Compiled, hv] at hcomp
  generalize s.store p = d at hcomp ⊢
  cases hcomp with
  | ref href => exact absurd href ht
  | time _ hnone => exact absurd hnone he
  | equation _ _ _ _ hin hout => exact ⟨rfl, hin, hout⟩

theorem input_compiled (hw : WellBuilt s) (hq : (s.store p).src = some q) :
    ∃ v n rel, avarAt s.root p = some (.var v n) ∧ v.type = .ref ∧
      resolve (avarsAt s.root p.dropLast.dropLast) v.src = .ok (some rel) ∧
      q = p.dropLast.dropLast ++ rel := by
  have hcomp := hw.compiled p
  unfold Compiled at hcomp
  split at hcomp
  · next v n hv =>
    generalize s.store p = d at hcomp hq
    cases hcomp with
    | ref ht hparent hsrc =>
      simp only [scopeAt] at hparent hsrc hq
      split_ifs at hparent
      obtain rfl := Option.some.inj hparent
      exact ⟨v, n, _, hv, ht, hsrc, (Option.some.inj hq).symm⟩
    | time => cases hq
    | equation => cases hq
  · obtain ⟨_, hnew⟩ := hcomp
    rw [hnew] at hq
    cases hq

/-- A connected input is compiled to where its connection leads. -/
theorem src_of_ref (hw : WellBuilt s) (hv : avarAt s.root p = some (.var v n))
    (ht : v.type = .ref) {rel : Path}
    (hrel : resolve (avarsAt s.root p.dropLast.dropLast) v.src = .ok (some rel)) :
    (s.store p).src = some (p.dropLast.dropLast ++ rel) := by
  have hcomp := hw.compiled p
  simp only [Compiled, hv] at hcomp
  generalize s.store p = d at hcomp ⊢
  cases hcomp with
  | ref _ hparent hsrc =>
    simp only [scopeAt] at hparent hsrc ⊢
    split_ifs at hparent
    obtain rfl := Option.some.inj hparent
    obtain rfl := Option.some.inj (Except.ok.inj (hsrc.symm.trans hrel))
    rfl
  | time href => exact absurd ht href
  | equation href => exact absurd ht href

/-- A simulated variable other than `time` has an equation and a kind. -/
theorem Wired.exists_var (hwired : Wired s) (hw : WellBuilt s) (hp : IsColumn s.root s.store p)
    (hne : p ≠ [0]) : ∃ v n, avarAt s.root p = some (.var v n) ∧ v.type ≠ .ref ∧ v.eqn ≠ none ∧
      (v.type = .stock ∨ v.type = .flow ∨ v.type = .aux) := by
  obtain ⟨v, n, hv, hsrc⟩ := hp
  have hcomp := hw.compiled p
  simp only [Compiled, hv] at hcomp
  have href : v.type ≠ .ref := by
    generalize s.store p = d at hcomp hsrc
    cases hcomp with
    | ref => cases hsrc
    | time href => exact href
    | equation href => exact href
  have hmodule : v.type ≠ .module := fun hm =>
    absurd ((hw.typed _ _ hv).isModule_iff.mpr hm) (by simp [AVar.isModule])
  refine ⟨v, n, hv, href, fun he => hne ((hwired p v n hv).equation href he), ?_⟩
  cases ht : v.type <;> simp_all

/-- What is compiled names only what can be read. -/
theorem Wired.readable (hwired : Wired s) (hw : WellBuilt s) (hq : q ∈ (s.store p).node.idents) :
    s.Readable q := by
  have hcomp := hw.compiled p
  unfold Compiled at hcomp
  split at hcomp
  · next v n hv => exact (hwired p v n hv).readable q hq
  · obtain ⟨_, hnew⟩ := hcomp
    rw [hnew] at hq
    cases hq

/-- A name that leads somewhere is worth what is there. -/
theorem nameValue_of_find {m : Path} {name : CStr}
    (hq : (scopeAt s.root m).find name = some q) :
    nameValue s.root τ m (skipDot name) = τ q := by
  simp only [Scope.find, scopeAt, resolve] at hq
  cases hrel : resolveLoop (skipDot name) 0 (avarsAt s.root m) with
  | error e =>
    rw [hrel] at hq
    cases hq
  | ok found =>
    rw [hrel] at hq
    cases found with
    | none => cases hq
    | some rel =>
      obtain rfl := Option.some.inj hq
      simp only [nameValue, hrel]

theorem EndsAt.unique {st : Store} {p e e' : Path} (h : EndsAt st p e) (h' : EndsAt st p e') :
    e = e' := by
  induction h with
  | here hsrc => exact (h'.eq_of_src_none hsrc).symm
  | step hsrc _ ih =>
    cases h' with
    | here hnone => cases hsrc.symm.trans hnone
    | step hsrc' hend =>
      obtain rfl := Option.some.inj (hsrc.symm.trans hsrc')
      exact ih hend

/-- What can be read is where the connections end. -/
theorem SDSim.Readable.ends (hq : s.Readable q) : ∃ e, EndsAt s.store q e ∧
    IsColumn s.root s.store e ∧ e = (s.store q).src.getD q ∧ s.identOffset q = s.col e := by
  rcases hq with hcol | ⟨e, hsrc, hcol⟩
  · obtain ⟨v, n, -, hnone⟩ := id hcol
    refine ⟨q, .here hnone, hcol, ?_, ?_⟩
    · rw [hnone, Option.getD_none]
    · rw [SDSim.identOffset, hnone]
      rfl
  · obtain ⟨v, n, -, hnone⟩ := id hcol
    refine ⟨e, .step hsrc (.here hnone), hcol, ?_, ?_⟩
    · rw [hsrc, Option.getD_some]
    · rw [SDSim.identOffset, hsrc]
      rfl

/-! ### Evaluation -/

namespace SDSim.Holds

variable (hrow : s.Holds row τ)
include hrow

/-- What an identifier reads is the value of the variable that it names. -/
theorem read (hq : s.Readable q) : row (s.identOffset q) = τ q := by
  rcases hq with ⟨v, n, hv, hsrc⟩ | ⟨e, hsrc, he⟩
  · rw [SDSim.identOffset, hsrc]
    exact hrow.column q ⟨v, n, hv, hsrc⟩
  · rw [SDSim.identOffset, hsrc, hrow.input q e hsrc]
    exact hrow.column e he

theorem foldl_names {names : List CStr} {ps : List Path} {m : Path} (f : ℚ → ℚ → ℚ)
    (hps : resolveAll (scopeAt s.root m) names = .ok ps)
    (hcol : ∀ q ∈ ps, IsColumn s.root s.store q) (a : ℚ) :
    ps.foldl (fun x q => f x (row (s.store q).offset)) a =
      (names.map fun name => nameValue s.root τ m (skipDot name)).foldl f a := by
  have hall := resolveAll_forall₂ hps
  clear hps
  induction hall generalizing a with
  | nil => rfl
  | cons hq _ ih =>
    have hread := hrow.column _ (hcol _ List.mem_cons_self)
    rw [List.foldl_cons, List.map_cons, List.foldl_cons, nameValue_of_find hq, ← hread]
    exact ih (fun q hq => hcol q (List.mem_cons_of_mem _ hq)) _

variable (hw : WellBuilt s)
include hw

theorem time : row TIME = τ [0] := by
  rw [← hrow.column [0] hw.numbered.time.1]
  exact congrArg row hw.numbered.time.2.symm

variable (hwired : Wired s) (hv : avarAt s.root p = some (.var v n)) (ht : v.type ≠ .ref)
  (he : v.eqn ≠ none)
include hwired hv ht he

theorem eval_eq : s.eval row (s.store p).node =
    .ok (n.value s.env s.spec.dt (τ [0]) (nameValue s.root τ p.dropLast)) := by
  obtain ⟨hnode, -, -⟩ := equation_compiled hw hv ht he
  have hread : ∀ q ∈ (s.store p).node.idents, row (s.identOffset q) = τ q :=
    fun q hq => hrow.read ((hwired p v n hv).readable q hq)
  rw [SDSim.eval, svisit_congr _ _ _ hread, hrow.time hw, hnode]
  exact svisit_link (fun name q hq => (nameValue_of_find hq).symm)
    ((hwired p v n hv).evaluates ht he)

theorem calcValue_eq :
    s.calcValue row p = .ok (eqnValue s.env s.spec.dt s.root τ p v n) := by
  have hgf : s.gfAt p = v.gf := by simp [SDSim.gfAt, hv, AVar.v]
  simp only [SDSim.calcValue, hrow.eval_eq hw hwired hv ht he, hgf, eqnValue, bind, Except.bind]
  cases v.gf with
  | none => rfl
  | some t => exact tableValue_ok t _

theorem netFlow_eq : s.netFlow row p = v.netFlow (nameValue s.root τ p.dropLast) := by
  obtain ⟨-, hin, hout⟩ := equation_compiled hw hv ht he
  have hflows := (hwired p v n hv).flows
  rw [SDSim.netFlow,
    hrow.foldl_names (fun x y => x + y) hin fun q hq => hflows q (List.mem_append_left _ hq),
    hrow.foldl_names (fun x y => x - y) hout fun q hq => hflows q (List.mem_append_right _ hq),
    Var.netFlow, foldl_sub, foldl_add, zero_add]

theorem stockValue_stock (hstock : v.type = .stock) : s.stockValue row p =
    .ok (row (s.col p) + v.netFlow (nameValue s.root τ p.dropLast) * s.spec.dt) := by
  have htype : s.typeAt p = some .stock := by simp [SDSim.typeAt, hv, AVar.v, hstock]
  simp only [SDSim.stockValue, htype, hrow.netFlow_eq hw hwired hv ht he]

/-- What `calc_stocks` stores for a number is the number. -/
theorem stockValue_const (hflow : v.type = .flow ∨ v.type = .aux) : s.stockValue row p =
    .ok (n.value s.env s.spec.dt (τ [0]) (nameValue s.root τ p.dropLast)) := by
  have htype : s.typeAt p = some v.type := by simp [SDSim.typeAt, hv, AVar.v]
  rw [← hrow.eval_eq hw hwired hv ht he, SDSim.stockValue, htype]
  rcases hflow with hflow | hflow <;> rw [hflow]

end SDSim.Holds

/-! ### Rows and values -/

/-- The values that a row holds. -/
theorem exists_holds (row : Row) : ∃ τ, s.Holds row τ := by
  classical
  have hvalue : ∀ p, ∃ x : ℚ, (∀ e, EndsAt s.store p e → x = row (s.col e)) ∧
      ((∀ e, ¬ EndsAt s.store p e) → x = 0) := by
    intro p
    by_cases h : ∃ e, EndsAt s.store p e
    · obtain ⟨e, he⟩ := h
      exact ⟨row (s.col e), fun e' he' => by rw [he.unique he'], fun hno => absurd he (hno e)⟩
    · exact ⟨0, fun e he => absurd ⟨e, he⟩ h, fun _ => rfl⟩
  choose τ hends hnone using hvalue
  refine ⟨τ, fun p hp => ?_, fun p q hq => ?_⟩
  · obtain ⟨v, n, -, hsrc⟩ := hp
    exact (hends p p (.here hsrc)).symm
  · by_cases h : ∃ e, EndsAt s.store q e
    · obtain ⟨e, he⟩ := h
      rw [hends p e (.step hq he), hends q e he]
    · rw [hnone q fun e he => h ⟨e, he⟩, hnone p fun e he => ?_]
      cases he with
      | here hsrc => cases hq.symm.trans hsrc
      | step hq' hend =>
        obtain rfl := Option.some.inj (hq.symm.trans hq')
        exact h ⟨e, hend⟩

/-- A row with given values in the columns of variables, and those of `base` elsewhere. -/
theorem exists_row (hw : WellBuilt s) (hτ : ∀ p q, (s.store p).src = some q → τ p = τ q)
    (base : Row) : ∃ row, s.Holds row τ ∧
      ∀ c, (∀ p, IsColumn s.root s.store p → s.col p ≠ c) → row c = base c := by
  classical
  have hvalue : ∀ c, ∃ x : ℚ, (∀ p, IsColumn s.root s.store p → s.col p = c → x = τ p) ∧
      ((∀ p, IsColumn s.root s.store p → s.col p ≠ c) → x = base c) := by
    intro c
    by_cases h : ∃ p, IsColumn s.root s.store p ∧ s.col p = c
    · obtain ⟨p, hp, rfl⟩ := h
      refine ⟨τ p, fun q hq hcol => ?_, fun hno => absurd rfl (hno p hp)⟩
      rw [hw.numbered.inj q p hq hp hcol]
    · exact ⟨base c, fun p hp hcol => absurd ⟨p, hp, hcol⟩ h, fun _ => rfl⟩
  choose row hcol hout using hvalue
  exact ⟨row, ⟨fun p hp => hcol _ p hp rfl, hτ⟩, fun c hc => hout c hc⟩

theorem ModuleEuler.inputs {env : Env} {specs : SimSpec} {σ : Nat → Path → ℚ}
    (hσ : ModuleEuler env specs s.root σ) (hw : WellBuilt s) (j : Nat) (p q : Path)
    (hq : (s.store p).src = some q) : σ j p = σ j q := by
  obtain ⟨v, n, rel, hv, ht, hrel, rfl⟩ := input_compiled hw hq
  exact hσ.input j p v n rel hv ht hrel

end Libsd

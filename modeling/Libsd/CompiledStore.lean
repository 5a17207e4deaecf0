/-
  Libsd/CompiledStore.lean
  ========================
  **What compilation leaves in the store.**

  When `module_compile` succeeds on the root, every variable has been compiled in
  the scope of its module (`compileRoot_spec`): a connected input has its source,
  any other variable its linked equation with the variables it refers to.  The
  offsets are still 0 when the second loop of `module_compile` copies them, so
  that loop changes nothing (`copyOffsets_of_zero`).
-/
import Libsd.Linked
import Libsd.RunListsOrder

namespace Libsd

open Outcome

/-- An `AVar` as it is created. -/
def AVarData.new (node : Node) (offset : Nat) : AVarData :=
  { node := node, directDeps := [], inflows := [], outflows := [], src := none, offset := offset }

/-- What compiling a variable with the tree `n` makes of it. -/
inductive CompiledVar (scope : Scope) (v : Var) (n : Node) : AVarData → Prop where
  | ref {parent : List AVar} {rel : Path} {offset : Nat} (hv : v.type = .ref)
      (hparent : scope.parent = some parent) (hsrc : resolve parent v.src = .ok (some rel)) :
      CompiledVar scope v n
        { AVarData.new n offset with src := some (scope.base.dropLast ++ rel) }
  | time {offset : Nat} (hv : v.type ≠ .ref) (he : v.eqn = none)
      (hn : v.name = some (cstr "time")) : CompiledVar scope v n (AVarData.new n offset)
  | equation {ins outs : List Path} {offset : Nat} (hv : v.type ≠ .ref)
      (he : ¬ (v.eqn = none ∧ v.name = some (cstr "time"))) (hn : n.isNull = false)
      (hpresent : n.Everywhere Node.Present)
      (hin : resolveAll scope v.inflows = .ok ins) (hout : resolveAll scope v.outflows = .ok outs) :
      CompiledVar scope v n
        { AVarData.new (n.link scope.find) offset with
          directDeps := (n.link scope.find).idents, inflows := ins, outflows := outs }

/-- The scope in which the variables of the module at `m` are compiled. -/
def scopeAt (root : List AVar) (m : Path) : Scope :=
  { base := m, avars := avarsAt root m,
    parent := if m.isEmpty then none else some (avarsAt root m.dropLast) }

/-- The data of the `AVar` at `p`, if there is one, is as compilation leaves it. -/
def Compiled (root : List AVar) (p : Path) (d : AVarData) : Prop :=
  match avarAt root p with
  | some (.var v n) => CompiledVar (scopeAt root p.dropLast) v n d
  | _ => ∃ offset, d = AVarData.new .null offset

/-- Compilation has not come to the child `i` of the module at `m`, or any later one. -/
def Fresh (root : List AVar) (m : Path) (i : Nat) (st : Store) : Prop :=
  ∀ j, i ≤ j → ∀ p, m ++ [j] <+: p → st p = initStore root p

def ZeroOffsets (st : Store) : Prop := ∀ p, (st p).offset = 0

variable {root : List AVar}

theorem initStore_of_avarAt_none {p : Path} (h : avarAt root p = none) :
    initStore root p = AVarData.new .null 0 := by
  simp [initStore, h, AVarData.new]

/-! ### Compiling one variable -/

theorem avarInitVar_spec {scope : Scope} {path : Path} {v : Var} {n : Node} {st st' : Store}
    (h : avarInitVar scope path v st = .ok st') (hst : st path = AVarData.new n 0) :
    ∃ d, CompiledVar scope v n d ∧ d.offset = 0 ∧ st' = Function.update st path d := by
  unfold avarInitVar at h
  split at h
  · next hv =>
    split at h
    · simp at h
    · next parent hparent =>
      obtain ⟨r, hr, h⟩ := bind_eq_ok h
      cases r with
      | none => simp at h
      | some rel =>
        obtain rfl := Except.ok.inj h
        exact ⟨_, .ref hv hparent hr, rfl, by rw [hst]⟩
  · next hv =>
    split at h
    · next ht =>
      obtain rfl := Except.ok.inj h
      simp only [Bool.and_eq_true, Option.isNone_iff_eq_none, beq_iff_eq] at ht
      exact ⟨_, .time hv ht.1 ht.2, rfl, by rw [← hst, Function.update_eq_self]⟩
    · next ht =>
      simp only [Bool.and_eq_true, Option.isNone_iff_eq_none, beq_iff_eq] at ht
      simp only [hst] at h
      obtain ⟨r, hwalk, h⟩ := bind_eq_ok h
      obtain ⟨hn, hpresent, rfl⟩ := nodeWalk_spec hwalk
      obtain ⟨ins, hin, h⟩ := bind_eq_ok h
      obtain ⟨outs, hout, h⟩ := bind_eq_ok h
      obtain rfl := Except.ok.inj h
      exact ⟨_, .equation hv ht hn hpresent hin hout, rfl, rfl⟩

/-- All offsets are the same when they are copied, so copying changes nothing. -/
theorem copyOffsets_of_zero {base : Path} {avars : List AVar} {i : Nat} {st st' : Store}
    (hz : ZeroOffsets st) (h : copyOffsets base i avars st = .ok st') : st' = st := by
  induction avars generalizing i st with
  | nil => exact (Except.ok.inj h).symm
  | cons av rest ih =>
    simp only [copyOffsets] at h
    split at h
    · split at h
      · simp at h
      · next src _ =>
        have hsame : Function.update st (base ++ [i])
            { st (base ++ [i]) with offset := (st src).offset } = st := by
          rw [hz src, ← hz (base ++ [i])]
          exact Function.update_eq_self _ _
        rw [hsame] at h
        exact ih hz h
    · exact ih hz h

/-! ### Compiling a module -/

theorem scopeAt_base (m : Path) : (scopeAt root m).base = m := rfl

theorem scopeAt_child {m : Path} {i : Nat} {v : Var} {avars : List AVar}
    (h : (avarsAt root m)[i]? = some (.module v avars)) :
    ({ base := m ++ [i], avars := avars, parent := some (scopeAt root m).avars } : Scope) =
      scopeAt root (m ++ [i]) := by
  simp [scopeAt, avarsAt_child h, AVar.avars]

theorem compiled_of_not_var {p : Path} (h : ∀ v n, avarAt root p ≠ some (.var v n)) :
    Compiled root p (initStore root p) := by
  unfold Compiled
  split
  · next v n hv => exact absurd hv (h v n)
  · refine ⟨0, ?_⟩
    cases hp : avarAt root p with
    | none => exact initStore_of_avarAt_none hp
    | some av =>
      cases av with
      | var v n => exact absurd hp (h v n)
      | module v avars => simp [initStore, hp, AVar.node, AVarData.new]

theorem countFailed_ok {st : Store} {failed : Nat} {r : Except Stop Store} {r' : Store × Nat}
    (h : countFailed st failed r = .ok r') :
    failed ≤ r'.2 ∧ (r'.2 = failed → r = .ok r'.1) := by
  cases r with
  | ok st' =>
    obtain rfl := Except.ok.inj h
    exact ⟨Nat.le_refl _, fun _ => rfl⟩
  | error e =>
    cases e with
    | err code =>
      obtain rfl := Except.ok.inj h
      exact ⟨Nat.le_succ _, fun h => absurd h (Nat.succ_ne_self _)⟩
    | undefined why => simp [countFailed] at h
    | diverge => simp [countFailed] at h

theorem compileLoop_failed {scope : Scope} {avars : List AVar} {i : Nat} {st : Store} {failed : Nat}
    {r : Store × Nat} (h : compileLoop scope i avars (st, failed) = .ok r) : failed ≤ r.2 := by
  induction avars generalizing i st failed with
  | nil =>
    obtain rfl := Except.ok.inj h
    exact Nat.le_refl _
  | cons av rest ih =>
    simp only [compileLoop] at h
    obtain ⟨r1, h1, h⟩ := bind_eq_ok h
    have hrest : r1.2 ≤ r.2 := ih h
    exact (countFailed_ok h1).1.trans hrest

/-- A stretch of compilation: what lies below the children from `i` on, or below the
    child `i` alone, is compiled, and nothing else has changed. -/
structure CompiledBelow (root : List AVar) (inside : Path → Prop) (st st' : Store) : Prop where
  compiled : ∀ p, inside p → Compiled root p (st' p)
  frame : ∀ p, ¬ inside p → st' p = st p
  zero : ZeroOffsets st'

mutual
theorem avarInit_spec {m : Path} : ∀ {av : AVar} {i : Nat} {st st' : Store},
    (avarsAt root m)[i]? = some av → (∀ p, m ++ [i] <+: p → st p = initStore root p) →
    ZeroOffsets st → avarInit (scopeAt root m) i av st = .ok st' →
    CompiledBelow root (fun p => m ++ [i] <+: p) st st'
  | .var v n, i, st, st', hav, hfresh, hz, h => by
    have hat : avarAt root (m ++ [i]) = some (.var v n) := (avarAt_child root m i).trans hav
    have hst : st (m ++ [i]) = AVarData.new n 0 := by
      rw [hfresh _ List.prefix_rfl]
      simp [initStore, hat, AVar.node, AVarData.new]
    have hinit : avarInitVar (scopeAt root m) (m ++ [i]) v st = .ok st' := h
    obtain ⟨d, hd, hoff, rfl⟩ := avarInitVar_spec hinit hst
    refine ⟨fun p hp => ?_, fun p hp => ?_, fun p => ?_⟩
    · by_cases hpi : p = m ++ [i]
      · subst hpi
        simpa [Compiled, hat, scopeAt] using hd
      · -- there is nothing below a variable
        obtain ⟨j, rest, rfl⟩ := (prefix_iff_below.mp hp).resolve_left hpi
        rw [Function.update_of_ne hpi, hfresh _ hp]
        refine compiled_of_not_var fun v' n' hv' => ?_
        rw [avarAt_append_cons hat] at hv'
        simp [AVar.avars, avarAt] at hv'
    · refine Function.update_of_ne ?_ _ _
      rintro rfl
      exact hp List.prefix_rfl
    · by_cases hpi : p = m ++ [i]
      · rw [hpi, Function.update_self, hoff]
      · rw [Function.update_of_ne hpi, hz]
  | .module v avars, i, st, st', hav, hfresh, hz, h => by
    simp only [avarInit, bind, Except.bind] at h
    rw [scopeAt_base, scopeAt_child hav] at h
    split at h
    · simp at h
    · next r hr =>
      obtain ⟨st1, failed⟩ := r
      simp only [moduleCompileEnd] at h
      split at h
      · simp at h
      · next hf =>
        obtain rfl : failed = 0 := by simpa using hf
        have hsub : ∀ k, avars[k]? = (avarsAt root (m ++ [i]))[0 + k]? := fun k => by
          rw [avarsAt_child hav, Nat.zero_add]
          rfl
        have hbelow := compileLoop_spec hsub
          (fun j _ p hp => hfresh p ((below_child _ j).of_above hp).above) hz hr
        obtain rfl := copyOffsets_of_zero hbelow.zero h
        refine ⟨fun p hp => ?_, fun p hp => hbelow.frame p fun ⟨j, _, hj⟩ => hp ?_, hbelow.zero⟩
        · rcases prefix_iff_below.mp hp with rfl | ⟨j, rest, rfl⟩
          · -- the module itself
            rw [hbelow.frame _ fun ⟨j, _, hj⟩ => (below_child _ j).not_above hj,
              hfresh _ List.prefix_rfl]
            refine compiled_of_not_var fun v' n' hv' => ?_
            rw [avarAt_child, hav] at hv'
            simp at hv'
          · exact hbelow.compiled _ ⟨j, Nat.zero_le j, by simp⟩
        · exact ((below_child _ j).of_above hj).above

theorem compileLoop_spec {m : Path} : ∀ {avars : List AVar} {i : Nat} {st st' : Store},
    (∀ k, avars[k]? = (avarsAt root m)[i + k]?) → Fresh root m i st → ZeroOffsets st →
    compileLoop (scopeAt root m) i avars (st, 0) = .ok (st', 0) →
    CompiledBelow root (fun p => ∃ j, i ≤ j ∧ m ++ [j] <+: p) st st'
  | [], i, st, st', havars, hfresh, hz, h => by
    obtain rfl : st = st' := congrArg Prod.fst (Except.ok.inj h)
    refine ⟨fun p ⟨j, hij, hp⟩ => ?_, fun _ _ => rfl, hz⟩
    rw [hfresh j hij p hp]
    refine compiled_of_not_var fun v n hv => ?_
    have hnone : (avarsAt root m)[j]? = none := by
      have := havars (j - i)
      rwa [Nat.add_sub_cancel' hij, eq_comm] at this
    rw [avarAt_of_prefix_none ((avarAt_child root m j).trans hnone) (by simp) hp] at hv
    simp at hv
  | av :: rest, i, st, st', havars, hfresh, hz, h => by
    simp only [compileLoop] at h
    obtain ⟨r1, h1, h⟩ := bind_eq_ok h
    obtain ⟨st1, failed⟩ := r1
    obtain rfl : failed = 0 := Nat.le_zero.mp (compileLoop_failed h)
    have hav : (avarsAt root m)[i]? = some av := (havars 0).symm
    have hinit := avarInit_spec hav (hfresh i (Nat.le_refl i)) hz ((countFailed_ok h1).2 rfl)
    have hrest : ∀ k, rest[k]? = (avarsAt root m)[i + 1 + k]? := fun k => by
      rw [Nat.add_assoc, Nat.add_comm 1 k]
      exact havars (k + 1)
    have hfresh1 : Fresh root m (i + 1) st1 := fun j hj p hp => by
      have hout : ¬ m ++ [i] <+: p := fun hi => not_prefix_both (by omega) hi hp
      rw [show st1 p = st p from hinit.frame p hout]
      exact hfresh j (by omega) p hp
    have hloop := compileLoop_spec hrest hfresh1 hinit.zero h
    refine ⟨fun p ⟨j, hij, hp⟩ => ?_, fun p hp => ?_, hloop.zero⟩
    · by_cases hj : i + 1 ≤ j
      · exact hloop.compiled p ⟨j, hj, hp⟩
      · obtain rfl : i = j := by omega
        rw [hloop.frame p fun ⟨k, hk, hkp⟩ => not_prefix_both (by omega) hp hkp]
        exact hinit.compiled p hp
    · rw [hloop.frame p fun ⟨j, hj, hjp⟩ => hp ⟨j, by omega, hjp⟩]
      exact hinit.frame p fun hi => hp ⟨i, Nat.le_refl i, hi⟩
end

theorem compileRoot_spec {st : Store} (h : compileRoot root = .ok st) :
    (∀ p, Compiled root p (st p)) ∧ ZeroOffsets st := by
  simp only [compileRoot, moduleCompile, moduleCompileEnd] at h
  obtain ⟨r, hr, h⟩ := bind_eq_ok h
  obtain ⟨st1, failed⟩ := r
  split at h
  · simp at h
  · next hf =>
    obtain rfl : failed = 0 := by simpa using hf
    have hscope : ({ base := [], avars := root, parent := none } : Scope) = scopeAt root [] := rfl
    rw [hscope] at hr
    have hbelow := compileLoop_spec (m := []) (fun k => by rw [Nat.zero_add]; rfl)
      (fun _ _ _ _ => rfl) (fun _ => rfl) hr
    obtain rfl := copyOffsets_of_zero hbelow.zero h
    refine ⟨fun p => ?_, hbelow.zero⟩
    cases p with
    | nil =>
      rw [hbelow.frame [] fun ⟨j, _, hj⟩ => by simpa using hj.length_le]
      exact compiled_of_not_var fun v n hv => by simp [avarAt] at hv
    | cons j rest => exact hbelow.compiled _ ⟨j, Nat.zero_le j, by simp⟩

/-! ### What a compiled variable depends on -/

theorem CompiledVar.deps {scope : Scope} {v : Var} {n : Node} {d : AVarData}
    (h : CompiledVar scope v n d) : d.directDeps = [] ∨ d.directDeps = d.node.idents := by
  cases h with
  | ref => exact .inl rfl
  | time => exact .inl rfl
  | equation => exact .inr rfl

/-- Whatever a variable depends on is a variable of its module or of one inside it. -/
theorem Compiled.dep {p dep : Path} {d : AVarData} (h : Compiled root p d)
    (hdep : dep ∈ d.directDeps) : Below p.dropLast dep ∧ ∃ av, avarAt root dep = some av := by
  unfold Compiled at h
  split at h
  · next v n hp =>
    cases h with
    | ref => simp [AVarData.new] at hdep
    | time => simp [AVarData.new] at hdep
    | equation =>
      obtain ⟨s, hs⟩ := Node.mem_idents_link hdep
      obtain ⟨rel, rfl, hbelow, av, hav⟩ := Scope.find_spec hs
      exact ⟨hbelow, av, by rwa [avarAt_append_avarsAt (by rintro rfl; simp [avarAt] at hav)]⟩
  · obtain ⟨offset, rfl⟩ := h
    simp [AVarData.new] at hdep

theorem scoped_of_compiled {st : Store} (h : ∀ p, Compiled root p (st p)) : Scoped st :=
  fun p _ hd => ((h p).dep hd).1

/-- The root's `time` depends on nothing. -/
theorem depsOf_time {st : Store} (h : ∀ p, Compiled root p (st p))
    (ht : root[0]? = some (.var timeVar .null)) : depsOf st [0] = [] := by
  have hc := h [0]
  have hat : avarAt root [0] = some (.var timeVar .null) := by simp [avarAt_cons, ht]
  simp only [Compiled, hat] at hc
  unfold depsOf
  generalize st [0] = d at hc
  cases hc with
  | ref => rfl
  | time => rfl
  | equation _ he => exact absurd ⟨rfl, rfl⟩ he

end Libsd

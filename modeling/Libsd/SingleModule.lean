/-
  Libsd/SingleModule.lean
  =======================
  **Models without modules.**

  In such a model everything an equation names is a variable of the root, so the
  run lists are sorted (`FlatSim.sorted`), and nothing is calculated before what it
  reads (`FlatSim.flows_inOrder`, `FlatSim.initials_inOrder`).
-/
import Libsd.ResumedRuns

namespace Libsd

open DepthFirst Relation

/-- No variable is a module; a root has no connections. -/
def SDModel.Flat (model : SDModel) : Prop := ∀ v ∈ model.vars, v.type ≠ .module

/-- A simulation whose root has only variables. -/
structure FlatSim (s : SDSim) : Prop where
  built : WellBuilt s
  flat : ∀ av ∈ s.root, av.isModule = false

theorem sdSimNew_flat {env : Env} {p : SDProject} {name : Option CStr} {s : SDSim} {specs : SimSpec}
    {model : SDModel} (h : sdSimNew env p name = .ok s)
    (hmodel : sdProjectGetModel p name = some (specs, model)) (hflat : model.Flat) : FlatSim s := by
  obtain ⟨specs', model', s0, hmodel', hbuilt, -, -, hreset⟩ := sdSimNew_cases h
  obtain ⟨hr, hsame⟩ := sdSimReset_isReset hbuilt.wellBuilt hreset
  obtain ⟨rfl, rfl⟩ := Prod.mk.inj (Option.some.inj (hmodel.symm.trans hmodel'))
  refine ⟨hr.built, ?_⟩
  obtain ⟨sub, rest, hroot, hall⟩ := module_root hbuilt.root
  rw [hsame.root, hroot]
  intro av hav
  rcases List.mem_cons.mp hav with rfl | hav
  · rfl
  · obtain ⟨i, hi, rfl⟩ := List.getElem_of_mem hav
    have hmade := avar_made (hall.get (hall.length_eq ▸ hi) hi)
    revert hmade
    simp only [List.get_eq_getElem]
    intro hmade
    generalize rest[i] = av at hmade
    cases hmade with
    | module hv => exact absurd hv (hflat _ (List.getElem_mem _))
    | var => rfl

/-- Without modules there is nothing below the children of the root. -/
theorem path_of_flat {root : List AVar} (hflat : ∀ av ∈ root, av.isModule = false) {p : Path}
    {av : AVar} (hav : avarAt root p = some av) : ∃ i, p = [i] := by
  cases p with
  | nil => simp [avarAt] at hav
  | cons i rest =>
    rw [avarAt_cons] at hav
    split at hav
    · next hrest => exact ⟨i, by rw [List.isEmpty_iff.mp hrest]⟩
    · obtain ⟨c, hc, hrest⟩ := Option.bind_eq_some_iff.mp hav
      have := hflat c (List.mem_of_getElem? hc)
      cases c with
      | module => simp [AVar.isModule] at this
      | var => cases rest <;> simp [AVar.avars, avarAt] at hrest

namespace FlatSim

variable {s : SDSim} (h : FlatSim s)
include h

/-- Variables are children of the root. -/
theorem path {p : Path} {av : AVar} (hav : avarAt s.root p = some av) : ∃ i, p = [i] :=
  path_of_flat h.flat hav

theorem isVar {p : Path} {av : AVar} (hav : avarAt s.root p = some av) :
    ∃ v n, av = .var v n := by
  obtain ⟨i, rfl⟩ := h.path hav
  have := h.flat av (List.mem_of_getElem? (by simpa [avarAt_cons] using hav))
  cases av with
  | module => simp [AVar.isModule] at this
  | var v n => exact ⟨v, n, rfl⟩

/-- The root has no connected inputs. -/
theorem src (p : Path) : (s.store p).src = none := by
  have hc := h.built.compiled p
  unfold Compiled at hc
  split at hc
  · next v n hp =>
    obtain ⟨i, rfl⟩ := h.path hp
    generalize s.store [i] = d at hc ⊢
    cases hc with
    | ref _ hparent => simp [scopeAt] at hparent
    | time => rfl
    | equation => rfl
  · obtain ⟨offset, hd⟩ := hc
    rw [hd, AVarData.new]

theorem identOffset_eq (p : Path) : s.identOffset p = s.col p := by
  rw [SDSim.identOffset, h.src p]
  rfl

theorem mem_childrenOf {p : Path} {av : AVar} (hav : avarAt s.root p = some av) :
    p ∈ childrenOf s.root [] := by
  obtain ⟨i, rfl⟩ := h.path hav
  refine Libsd.mem_childrenOf.mpr ⟨i, ?_, rfl⟩
  have : (avarsAt s.root [])[i]? = some av := by rw [← avarAt_child]; exact hav
  exact (List.getElem?_eq_some_iff.mp this).1

theorem isColumn {p : Path} {av : AVar} (hav : avarAt s.root p = some av) :
    IsColumn s.root s.store p := by
  obtain ⟨v, n, rfl⟩ := h.isVar hav
  exact ⟨v, n, hav, h.src p⟩

theorem deps_children : ∀ p ∈ childrenOf s.root [], ∀ d ∈ depsOf s.store p,
    d ∈ childrenOf s.root [] := by
  intro p _ d hd
  obtain ⟨-, av, hav⟩ := (h.built.compiled p).dep hd
  exact h.mem_childrenOf hav

theorem sorted : ListsSorted s.root s.store [] s.lists := by
  obtain ⟨s', hsort, hlists⟩ := h.built.sorted
  rw [hlists]
  exact listsSorted_of_ok (scoped_of_compiled h.built.compiled) h.deps_children
    (fun k => by cases k <;> rfl) hsort

/-- The lists of anything but the root are empty. -/
theorem lists_nil (k : ListKind) {p : Path} (hp : p ≠ []) : s.lists.get k p = [] := by
  refine List.eq_nil_iff_forall_not_mem.mpr fun q hq => ?_
  obtain ⟨⟨i, rest, rfl⟩, av, hav, -⟩ := h.built.wanted k p q hq
  obtain ⟨j, hj⟩ := h.path hav
  have := congrArg List.length hj
  simp only [List.length_append, List.length_cons, List.length_nil] at this
  exact hp (List.eq_nil_of_length_eq_zero (by omega))

/-- What `calc` evaluates: the list of the root, without entries that have no tree. -/
theorem leaves_eq (k : ListKind) :
    Assign.flatten s.hollow (s.lists.get k) s.calcFuel (s.lists.get k []) =
      (s.lists.get k []).filter fun p => !s.hollow p :=
  Assign.flatten_eq_filter _ _ (fun p hp _ => by
    obtain ⟨⟨i, rest, rfl⟩, -⟩ := h.built.wanted k [] p hp
    exact h.lists_nil k (by simp)) _

/-- The dependencies of a variable with a tree are those its equation names. -/
theorem deps_eq {p : Path} (hp : s.hollow p = false) :
    depsOf s.store p = (s.store p).node.idents := by
  have hc := h.built.compiled p
  unfold SDSim.hollow at hp
  unfold depsOf
  unfold Compiled at hc
  split at hc
  · next v n hv =>
    have htime := (h.built.typed p _ hv).node_null
    simp only [AVar.v, AVar.node] at htime
    generalize hd : s.store p = d at hc hp ⊢
    cases hc with
    | ref _ hparent =>
      have := h.src p
      simp [hd] at this
    | time _ he _ => simp [AVarData.new, htime he, Node.isNull] at hp
    | equation => rfl
  · obtain ⟨offset, hd⟩ := hc
    simp [hd, AVarData.new, Node.isNull] at hp

/-! ### The leaves of the run lists -/

theorem hollow_iff {p : Path} {v : Var} {n : Node} (hp : avarAt s.root p = some (.var v n)) :
    s.hollow p = true ↔ v.eqn = none := by
  refine hollow_iff_eqn h.built hp fun hv => ?_
  have hc := h.built.compiled p
  have hsrc := h.src p
  simp only [Compiled, hp] at hc
  generalize s.store p = d at hc hsrc
  cases hc with
  | ref => simp at hsrc
  | time hne => exact hne hv
  | equation hne => exact hne hv

/-- A variable other than `time` is on a list of the root just when it belongs there. -/
theorem mem_list {k : ListKind} {p : Path} {av : AVar} (hav : avarAt s.root p = some av)
    (hne : p ≠ [0]) : p ∈ s.lists.get k [] ↔ av.wants k = true := by
  obtain ⟨i, rfl⟩ := h.path hav
  have hi : 1 ≤ i := Nat.one_le_iff_ne_zero.mpr fun h0 => hne (by rw [h0])
  have hcount := h.sorted.count k i av hi (by rw [← avarAt_child]; exact hav)
  rw [List.nil_append] at hcount
  rw [← List.count_pos_iff, hcount]
  cases av.wants k <;> simp

/-- What `calc` evaluates of a list: the variables that belong there and have an equation. -/
theorem mem_leaves {k : ListKind} {p : Path} :
    p ∈ Assign.flatten s.hollow (s.lists.get k) s.calcFuel (s.lists.get k []) ↔
      ∃ av, avarAt s.root p = some av ∧ av.wants k = true ∧ s.hollow p = false := by
  rw [h.leaves_eq k, List.mem_filter]
  constructor
  · rintro ⟨hp, hh⟩
    obtain ⟨-, av, hav, hw⟩ := h.built.wanted k [] p hp
    exact ⟨av, hav, hw, by simpa using hh⟩
  · rintro ⟨av, hav, hw, hh⟩
    refine ⟨(h.mem_list hav ?_).mpr hw, by simpa using hh⟩
    rintro rfl
    simp [hollow_time h.built] at hh

theorem leaves_nodup (k : ListKind) :
    (Assign.flatten s.hollow (s.lists.get k) s.calcFuel (s.lists.get k [])).Nodup := by
  rw [h.leaves_eq k, List.nodup_iff_count_le_one]
  intro p
  by_cases hp : p ∈ (s.lists.get k []).filter fun p => !s.hollow p
  · obtain ⟨hmem, hh⟩ := List.mem_filter.mp hp
    obtain ⟨-, av, hav, -⟩ := h.built.wanted k [] p hmem
    obtain ⟨i, rfl⟩ := h.path hav
    have hi : 1 ≤ i := Nat.one_le_iff_ne_zero.mpr fun h0 => by
      simp [h0, hollow_time h.built] at hh
    have hcount := h.sorted.count k i av hi (by rw [← avarAt_child]; exact hav)
    rw [List.nil_append] at hcount
    rw [List.count_filter (p := fun p => !s.hollow p) hh, hcount]
    split <;> omega
  · rw [List.count_eq_zero_of_not_mem hp]
    omega

/-- On either list, nothing is calculated before what it reads. -/
theorem leaves_inOrder (k : ListKind) :
    Assign.InOrder s.col s.readCols []
      (Assign.flatten s.hollow (s.lists.get k) s.calcFuel (s.lists.get k [])) := by
  refine Assign.inOrder_of_split (fun pre a post he c hc b hb hbc => ?_) []
  have hnodup := h.leaves_nodup k
  have hmem : ∀ q, q ∈ a :: post →
      q ∈ Assign.flatten s.hollow (s.lists.get k) s.calcFuel (s.lists.get k []) := fun q hq => by
    rw [he]
    exact List.mem_append_right _ hq
  obtain ⟨_, -, -, -, hcolb, hneb, -⟩ := calcLeaf h.built (hmem b hb)
  rcases List.mem_cons.mp hc with rfl | hc
  · exact col_ne_time h.built hcolb hneb hbc
  · obtain ⟨d, hd, rfl⟩ := List.mem_map.mp hc
    obtain ⟨_, hava, hwa, hha⟩ := h.mem_leaves.mp (hmem a List.mem_cons_self)
    have hdep : Dep (depsOf s.store) a d := by rwa [Dep, h.deps_eq hha]
    obtain ⟨-, avd, havd⟩ := (h.built.compiled a).dep hdep
    rw [h.identOffset_eq] at hbc
    obtain rfl := h.built.numbered.inj b d hcolb (h.isColumn havd) hbc
    -- `b` is a dependency of `a`, so it is before `a` and not behind it
    have hab := hmem a List.mem_cons_self
    have hbb := hmem b hb
    rw [h.leaves_eq k] at hab hbb hnodup he
    have hbefore := (h.sorted.after k a (List.mem_filter.mp hab).1 b (List.mem_filter.mp hbb).1
      (.single hdep)).filter (f := fun p => !s.hollow p) (List.mem_filter.mp hbb).2
      (List.mem_filter.mp hab).2
    have hpre := hbefore.mem_of_split hnodup he
    rw [he] at hnodup
    exact (List.nodup_append.mp hnodup).2.2 b hpre b hb rfl

theorem flows_inOrder : FlowsOrdered s := h.leaves_inOrder .flows

theorem initials_inOrder : Assign.InOrder s.col s.readCols [] s.initialLeaves :=
  h.leaves_inOrder .initials

theorem mem_flowLeaves {p : Path} : p ∈ s.flowLeaves ↔
    ∃ av, avarAt s.root p = some av ∧ av.wants .flows = true ∧ s.hollow p = false :=
  h.mem_leaves (k := .flows)

theorem mem_initialLeaves {p : Path} : p ∈ s.initialLeaves ↔
    ∃ av, avarAt s.root p = some av ∧ av.wants .initials = true ∧ s.hollow p = false :=
  h.mem_leaves (k := .initials)

theorem mem_stockLeaves {p : Path} : p ∈ s.stockLeaves ↔
    ∃ av, avarAt s.root p = some av ∧ av.wants .stocks = true := by
  have hsub : ∀ q ∈ s.lists.stocks [], s.isSub q = true → s.lists.stocks q = [] := fun q hq _ => by
    obtain ⟨⟨i, rest, rfl⟩, -⟩ := h.built.wanted .stocks [] q hq
    exact h.lists_nil .stocks (by simp)
  have hflat : s.stockLeaves = (s.lists.stocks []).filter fun q => !s.isSub q :=
    Assign.flatten_eq_filter _ _ hsub _
  have hvar : ∀ {q av}, avarAt s.root q = some av → s.isSub q = false := fun {q av} hav => by
    obtain ⟨v, n, rfl⟩ := h.isVar hav
    rw [← isModule_iff_isSub h.built hav]
    rfl
  rw [hflat, List.mem_filter]
  constructor
  · rintro ⟨hp, -⟩
    exact (h.built.wanted .stocks [] p hp).2
  · rintro ⟨av, hav, hw⟩
    have hne : p ≠ [0] := by
      rintro rfl
      simp [wants_time h.built hav] at hw
    exact ⟨(h.mem_list (k := .stocks) hav hne).mpr hw, by simp [hvar hav]⟩

end FlatSim

end Libsd

/-
  Libsd/WellBuilt.lean
  ====================
  **What `sd_sim_new` guarantees of the simulation it returns.**

  The tree, the store and the run lists are set up once and never change, so the
  facts collected in `WellBuilt` hold for the whole life of a simulation.
-/
import Libsd.InstanceTree
import Libsd.Offsets

namespace Libsd

open Outcome

variable {root : List AVar} {st : Store}

/-! ### What is on the run lists -/

/-- On a run list are variables of the module or of one inside it, of the kinds that
    belong there. -/
def ListsWanted (root : List AVar) (l : RunLists) : Prop :=
  ∀ k q, ∀ p ∈ l.get k q, Below q p ∧ ∃ av, avarAt root p = some av ∧ av.wants k = true

/-- Modules are on all lists. -/
theorem wants_of_isModule {av : AVar} (hty : av.Typed) (hm : av.isModule = true) (k : ListKind) :
    av.wants k = true := by
  have ht := hty.isModule_iff.mp hm
  cases k <;> simp [AVar.wants, ht]

theorem listsWanted_empty : ListsWanted root SortState.empty.lists := by
  intro k q p hp
  cases k <;> simp [SortState.empty, RunLists.get] at hp

theorem ListsWanted.append {l : RunLists} (h : ListsWanted root l) {m path : Path} {av : AVar}
    (hpath : Below m path) (hav : avarAt root path = some av) :
    ListsWanted root (appendToLists l m path av) := by
  intro k q p hp
  rw [appendToLists_get] at hp
  split at hp
  · next hw =>
    by_cases hq : q = m
    · subst hq
      rw [appendAt_self, List.mem_append, List.mem_singleton] at hp
      rcases hp with hp | rfl
      · exact h k q p hp
      · exact ⟨hpath, av, hav, hw⟩
    · rw [appendAt_of_ne hq] at hp
      exact h k q p hp
  · exact h k q p hp

/-! ### What sorting does to the lists -/

/-- `I` is kept when a module's variable, or one inside it, is appended. -/
def KeptByAppend (root : List AVar) (I : RunLists → Prop) : Prop :=
  ∀ l m path av, Below m path → avarAt root path = some av → I l → I (appendToLists l m path av)

variable {I : RunLists → Prop}

theorem addDeps_lists {c : Path} {add : Path → SortState → Except Stop SortState}
    (hadd : ∀ p s s', Below c p → I s.lists → add p s = .ok s' → I s'.lists) {deps : List Path}
    {s s' : SortState} (hdeps : ∀ d ∈ deps, Below c d) (hs : I s.lists)
    (h : addDeps add deps s = .ok s') : I s'.lists := by
  have hrun : Ends (fun s' => I s'.lists) (fun _ => True) (addDeps add deps s) := by
    refine addDeps_ends (J := fun _ s' => I s'.lists) (fun _ _ _ _ h _ => h) ?_ hs
    exact fun _ d hd s1 hs1 => .of_forall_ok fun s2 h2 => hadd d s1 s2 (hdeps d hd) hs1 h2
  exact hrun.of_ok h

/-- Sorting only appends: what that keeps of the lists holds at the end if it did at the
    start. -/
theorem moduleAddToRunlists_lists (hI : KeptByAppend root I) (hst : Scoped st) {m : Path} :
    ∀ {fuel : Nat} {p : Path} {s s' : SortState}, Below m p → I s.lists →
      moduleAddToRunlists root st m fuel p s = .ok s' → I s'.lists := by
  intro fuel
  induction fuel with
  | zero => intro p s s' _ _ h; simp [moduleAddToRunlists] at h
  | succ fuel ih =>
    intro p s s' hp hs h
    simp only [moduleAddToRunlists] at h
    split_ifs at h with hv hing
    · obtain rfl := Except.ok.inj h
      exact hs
    · obtain ⟨s1, h1, h⟩ := bind_eq_ok h
      have hdeps := addDeps_lists (fun p s s' => ih) (fun d hd => below_of_dep hst hp hd)
        (by exact hs) h1
      split at h
      · simp at h
      · next av hav =>
        obtain rfl := Except.ok.inj h
        exact hI _ _ _ _ hp hav hdeps

mutual
theorem sortSub_lists (hI : KeptByAppend root I) (hst : Scoped st) (path : Path) :
    ∀ (av : AVar) {s s' : SortState},
    I s.lists → sortSub root st path av s = .ok s' → I s'.lists
  | .var _ _, s, s', hs, h => by
    obtain rfl := Except.ok.inj h
    exact hs
  | .module _ avars, s, s', hs, h => by
    simp only [sortSub] at h
    obtain ⟨s1, h1, h⟩ := bind_eq_ok h
    obtain rfl := Except.ok.inj h
    have hbegin : I (sortBegin path s).lists := hs
    exact show I s1.lists from sortLoop_lists hI hst path 0 avars hbegin h1

theorem sortLoop_lists (hI : KeptByAppend root I) (hst : Scoped st) (m : Path) :
    ∀ (i : Nat) (avars : List AVar)
    {s s' : SortState}, I s.lists → sortLoop root st m i avars s = .ok s' → I s'.lists
  | i, [], s, s', hs, h => by
    obtain rfl := Except.ok.inj h
    exact hs
  | i, av :: rest, s, s', hs, h => by
    simp only [sortLoop] at h
    split_ifs at h with hv
    · exact sortLoop_lists hI hst m (i + 1) rest hs h
    · obtain ⟨s1, h1, h⟩ := bind_eq_ok h
      obtain ⟨s2, h2, h⟩ := bind_eq_ok h
      have hs1 := sortSub_lists hI hst (m ++ [i]) av hs h1
      have hs2 := moduleAddToRunlists_lists hI hst (below_child m i) hs1 h2
      exact sortLoop_lists hI hst m (i + 1) rest hs2 h
end

theorem moduleSortRunlists_lists (hI : KeptByAppend root I) (hst : Scoped st) {m : Path}
    {s s' : SortState}
    (hs : I s.lists) (h : moduleSortRunlists root st m s = .ok s') : I s'.lists := by
  simp only [moduleSortRunlists] at h
  obtain ⟨s1, h1, h⟩ := bind_eq_ok h
  obtain rfl := Except.ok.inj h
  have hbegin : I (sortBegin m s).lists := hs
  exact show I s1.lists from sortLoop_lists hI hst m _ _ hbegin h1

/-! ### The facts together -/

structure WellBuilt (s : SDSim) : Prop where
  time : s.root[0]? = some (.var timeVar .null)
  typed : Typed s.root
  compiled : ∀ p, Compiled s.root p (s.store p)
  numbered : Numbered s.root s.store s.nvars
  wanted : ListsWanted s.root s.lists
  sorted : ∃ s', moduleSortRunlists s.root s.store [] .empty = .ok s' ∧ s.lists = s'.lists

theorem Compiled.setOffset {p : Path} {d : AVarData} (h : Compiled root p d) (offset : Nat) :
    Compiled root p (d.setOffset offset) := by
  unfold Compiled at h ⊢
  split at h
  · cases h with
    | ref hv hparent hsrc => exact .ref hv hparent hsrc
    | time hv he hn => exact .time hv he hn
    | equation hv he hn hpresent hin hout => exact .equation hv he hn hpresent hin hout
  · obtain ⟨_, rfl⟩ := h
    exact ⟨offset, rfl⟩

/-- The root's `time` has a column. -/
theorem isColumn_time (h : ∀ p, Compiled root p (st p))
    (ht : root[0]? = some (.var timeVar .null)) : IsColumn root st [0] := by
  have hc := h [0]
  have hat : avarAt root [0] = some (.var timeVar .null) := by simp [avarAt_cons, ht]
  simp only [Compiled, hat] at hc
  refine ⟨timeVar, .null, hat, ?_⟩
  generalize st [0] = d at hc ⊢
  cases hc with
  | ref hv => simp [timeVar] at hv
  | time => rfl
  | equation => rfl

/-- The fields that are set up once. -/
structure SameSetup (s s' : SDSim) : Prop where
  env : s'.env = s.env
  simSpecs : s'.simSpecs = s.simSpecs
  root : s'.root = s.root
  store : s'.store = s.store
  lists : s'.lists = s.lists
  nvars : s'.nvars = s.nvars

theorem SameSetup.wellBuilt {s s' : SDSim} (h : SameSetup s s') (hs : WellBuilt s) :
    WellBuilt s' where
  time := by rw [h.root]; exact hs.time
  typed := by rw [h.root]; exact hs.typed
  compiled := by rw [h.root, h.store]; exact hs.compiled
  numbered := by rw [h.root, h.store, h.nvars]; exact hs.numbered
  wanted := by rw [h.root, h.lists]; exact hs.wanted
  sorted := by rw [h.root, h.store, h.lists]; exact hs.sorted

/-- What `sd_sim_new` has built from a model when it calls `sd_sim_reset`. -/
structure BuiltFrom (p : SDProject) (model : SDModel) (s : SDSim) : Prop where
  root : module p (moduleFuel p) none model = .ok s.root
  store : ∃ st, compileRoot s.root = .ok st ∧
    moduleAssignOffsets [] 0 s.root (st, 0) = (s.store, s.nvars)
  lists : ∃ s', moduleSortRunlists s.root s.store [] .empty = .ok s' ∧ s.lists = s'.lists

/-- The store that the sort is given. -/
theorem compiled_of_assigned {p : SDProject} {fuel : Nat} {model : SDModel} {root : List AVar}
    {st store : Store} {nvars : Nat} (hroot : module p fuel none model = .ok root)
    (hst : compileRoot root = .ok st)
    (hoff : moduleAssignOffsets [] 0 root (st, 0) = (store, nvars)) :
    root[0]? = some (.var timeVar .null) ∧ (∀ q, Compiled root q (store q)) ∧
      Numbered root store nvars := by
  obtain ⟨hcomp, hzero⟩ := compileRoot_spec hst
  obtain ⟨sub, rest, hr, -⟩ := module_root hroot
  have htime : root[0]? = some (.var timeVar .null) := by rw [hr]; rfl
  obtain ⟨hnum, honly⟩ := moduleAssignOffsets_spec hzero (isColumn_time hcomp htime) hoff
  exact ⟨htime, fun q => honly q ▸ (hcomp q).setOffset _, hnum⟩

theorem BuiltFrom.wellBuilt {p : SDProject} {model : SDModel} {s : SDSim}
    (h : BuiltFrom p model s) : WellBuilt s := by
  obtain ⟨st, hst, hoff⟩ := h.store
  obtain ⟨htime, hcomp, hnum⟩ := compiled_of_assigned h.root hst hoff
  obtain ⟨s', hsort, hlists⟩ := h.lists
  exact ⟨htime, module_typed h.root, hcomp, hnum,
    hlists ▸ moduleSortRunlists_lists (fun _ _ _ _ hp hav hl => hl.append hp hav)
      (scoped_of_compiled hcomp) listsWanted_empty hsort,
    h.lists⟩

/-- What is built depends on the tree alone. -/
theorem BuiltFrom.eq_of_root {p p' : SDProject} {model model' : SDModel} {s s' : SDSim}
    (h : BuiltFrom p model s) (h' : BuiltFrom p' model' s') (hroot : s'.root = s.root) :
    s'.store = s.store ∧ s'.nvars = s.nvars ∧ s'.lists = s.lists := by
  obtain ⟨st, hst, hoff⟩ := h.store
  obtain ⟨st', hst', hoff'⟩ := h'.store
  rw [hroot] at hst' hoff'
  obtain rfl := Except.ok.inj (hst.symm.trans hst')
  obtain ⟨hstore, hnvars⟩ := Prod.mk.inj (hoff'.symm.trans hoff)
  obtain ⟨r, hsort, hlists⟩ := h.lists
  obtain ⟨r', hsort', hlists'⟩ := h'.lists
  rw [hroot, hstore] at hsort'
  obtain rfl := Except.ok.inj (hsort.symm.trans hsort')
  exact ⟨hstore, hnvars, hlists'.trans hlists.symm⟩

theorem sdSimNew_cases {env : Env} {p : SDProject} {name : Option CStr} {s : SDSim}
    (h : sdSimNew env p name = .ok s) :
    ∃ specs model s0, sdProjectGetModel p name = some (specs, model) ∧ BuiltFrom p model s0 ∧
      s0.env = env ∧ s0.simSpecs = specs ∧ sdSimReset s0 = .ok s := by
  unfold sdSimNew at h
  split at h
  · simp at h
  · next specs model hmodel =>
    obtain ⟨root, hroot, h⟩ := bind_eq_ok h
    obtain ⟨st, hst, h⟩ := bind_eq_ok h
    obtain ⟨sorted, hsorted, h⟩ := bind_eq_ok h
    exact ⟨specs, model, _, hmodel, ⟨hroot, ⟨st, hst, rfl⟩, sorted, hsorted, rfl⟩, rfl, rfl, h⟩

end Libsd

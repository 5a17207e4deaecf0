/-
  Libsd/RunListsOrder.lean
  ========================
  **The run lists are a topological sort.**

  For the module at `m` whose children depend on each other, adding a child to
  the run lists is a depth-first search over `direct_deps`
  (`moduleAddToRunlists_search`): the marks are the finished and the active
  nodes, and each list holds the finished nodes that belong on it.  The sort of a
  nested module leaves the marks and lists of the enclosing one alone
  (`sortSub_frame`).  `moduleSortRunlists_cases` puts the two together.
-/
import Libsd.InstancePaths
import Libsd.Lib.DepthFirst
import Libsd.Lib.Outcome
import Libsd.RunLists

namespace Libsd

open DepthFirst Outcome Relation

/-! ### The three lists alike -/

inductive ListKind where
  | initials | flows | stocks
deriving DecidableEq

def RunLists.get (l : RunLists) : ListKind → Path → List Path
  | .initials => l.initials
  | .flows => l.flows
  | .stocks => l.stocks

/-- Whether the kind of an `AVar` demands that it be on a list. -/
def AVar.wants (av : AVar) : ListKind → Bool
  | .initials => av.v.type != .ref
  | .flows =>
    match av.v.type with
    | .module => true
    | .flow | .aux => !av.isConst
    | .stock | .ref => false
  | .stocks =>
    match av.v.type with
    | .module | .stock => true
    | .flow | .aux => av.isConst
    | .ref => false

/-- The paths of a list whose `AVar` belongs on a run list. -/
def select (root : List AVar) (k : ListKind) (order : List Path) : List Path :=
  order.filter fun p => ((avarAt root p).map (·.wants k)).getD false

theorem appendToLists_get (l : RunLists) (m p : Path) (av : AVar) (k : ListKind) :
    (appendToLists l m p av).get k = if av.wants k then appendAt (l.get k) m p else l.get k := by
  unfold appendToLists
  cases ht : av.v.type <;> cases k <;> simp [AVar.wants, ht, RunLists.get] <;>
    split <;> simp_all

/-- The head and the tail of what is left of a list. -/
theorem of_drop_eq_cons {α : Type} {l rest : List α} {a : α} {i : Nat}
    (h : l.drop i = a :: rest) : l[i]? = some a ∧ l.drop (i + 1) = rest := by
  constructor
  · rw [← List.head?_drop, h]
    rfl
  · rw [← List.drop_drop, h]
    rfl

theorem appendAt_self (l : Path → List Path) (m p : Path) : appendAt l m p m = l m ++ [p] :=
  Function.update_self _ _ _

theorem appendAt_of_ne {l : Path → List Path} {m q : Path} (h : q ≠ m) (p : Path) :
    appendAt l m p q = l q :=
  Function.update_of_ne h _ _

/-- The rule for the loop over the dependencies: `J` says what holds when some of them have
    been gone through. -/
theorem addDeps_ends {Q : Stop → Prop} {J : List Path → SortState → Prop}
    {add : Path → SortState → Except Stop SortState} {deps : List Path} {s : SortState}
    (hskip : ∀ done, ∀ d ∈ deps, ∀ s, J done s → s.visited d = true → J (done ++ [d]) s)
    (hadd : ∀ done, ∀ d ∈ deps, ∀ s, J done s → Ends (J (done ++ [d])) Q (add d s))
    (hs : J [] s) : Ends (J deps) Q (addDeps add deps s) := by
  suffices h : ∀ (rest done : List Path) (s : SortState), done ++ rest = deps → J done s →
      Ends (J deps) Q (addDeps add rest s) from h deps [] s rfl hs
  intro rest
  induction rest with
  | nil =>
    intro done s hdone hs
    obtain rfl : done = deps := by simpa using hdone
    exact hs
  | cons d rest ih =>
    intro done s hdone hs
    have hmem : d ∈ deps := hdone ▸ List.mem_append_right done List.mem_cons_self
    have hnext : (done ++ [d]) ++ rest = deps := by simpa using hdone
    rw [addDeps]
    split_ifs with hd
    · exact ih (done ++ [d]) s hnext (hskip done d hmem s hs hd)
    · exact (hadd done d hmem s hs).bind fun s' hs' => ih (done ++ [d]) s' hnext hs'

/-! ### What a nested sort leaves alone -/

/-- Dependencies lie in the module of the variable that has them, or deeper. -/
def Scoped (st : Store) : Prop := ∀ p, ∀ d ∈ (st p).directDeps, Below p.dropLast d

/-- Marks not strictly below `c`, and the lists of modules that are not inside `c`,
    are the same in both states. -/
structure FrameBelow (c : Path) (s s' : SortState) : Prop where
  visited : ∀ p, ¬ Below c p → s'.visited p = s.visited p
  visiting : ∀ p, ¬ Below c p → s'.visiting p = s.visiting p
  lists : ∀ k q, ¬ c <+: q → s'.lists.get k q = s.lists.get k q

theorem FrameBelow.refl (c : Path) (s : SortState) : FrameBelow c s s :=
  ⟨fun _ _ => rfl, fun _ _ => rfl, fun _ _ _ => rfl⟩

theorem FrameBelow.trans {c : Path} {s s' s'' : SortState} (h : FrameBelow c s s')
    (h' : FrameBelow c s' s'') : FrameBelow c s s'' where
  visited p hp := (h'.visited p hp).trans (h.visited p hp)
  visiting p hp := (h'.visiting p hp).trans (h.visiting p hp)
  lists k q hq := (h'.lists k q hq).trans (h.lists k q hq)

variable {root : List AVar} {st : Store}

theorem below_of_dep (hst : Scoped st) {c p d : Path} (hp : Below c p)
    (hd : d ∈ (st p).directDeps) : Below c d := by
  obtain ⟨i, rest, rfl⟩ := hp
  have hd := hst _ d hd
  rcases List.eq_nil_or_concat rest with rfl | ⟨rest, z, rfl⟩
  · simpa using hd
  · have : (c ++ i :: rest.concat z).dropLast = c ++ i :: rest := by
      rw [List.concat_eq_append, ← List.cons_append, ← List.append_assoc, List.dropLast_concat]
    rw [this] at hd
    exact Below.trans ⟨i, rest, rfl⟩ hd

theorem addDeps_frame {c : Path} {add : Path → SortState → Except Stop SortState}
    (hadd : ∀ p s s', Below c p → add p s = .ok s' → FrameBelow c s s') {deps : List Path}
    {s s' : SortState} (hdeps : ∀ d ∈ deps, Below c d) (h : addDeps add deps s = .ok s') :
    FrameBelow c s s' := by
  have hrun : Ends (FrameBelow c s) (fun _ => True) (addDeps add deps s) := by
    refine addDeps_ends (J := fun _ => FrameBelow c s) (fun _ _ _ _ h _ => h) ?_ (.refl c s)
    exact fun _ d hd s1 hs1 => .of_forall_ok fun s2 h2 =>
      hs1.trans (hadd d s1 s2 (hdeps d hd) h2)
  exact hrun.of_ok h

theorem moduleAddToRunlists_frame (hst : Scoped st) {c : Path} :
    ∀ {fuel : Nat} {p : Path} {s s' : SortState}, Below c p →
      moduleAddToRunlists root st c fuel p s = .ok s' → FrameBelow c s s' := by
  intro fuel
  induction fuel with
  | zero => intro p s s' _ h; simp [moduleAddToRunlists] at h
  | succ fuel ih =>
    intro p s s' hp h
    simp only [moduleAddToRunlists] at h
    split_ifs at h with hv hing
    · obtain rfl := Except.ok.inj h
      exact .refl c s
    · obtain ⟨s1, h1, h⟩ := bind_eq_ok h
      have hdeps := addDeps_frame (fun p s s' => ih) (fun d hd => below_of_dep hst hp hd) h1
      split at h
      · simp at h
      · next av _ =>
        obtain rfl := by simpa [pure, Except.pure] using h
        refine ⟨fun q hq => ?_, fun q hq => ?_, fun k q hq => ?_⟩
        · have hne : q ≠ p := fun he => hq (he ▸ hp)
          show Function.update s1.visited p true q = _
          rw [Function.update_of_ne hne, hdeps.visited q hq]
        · have hne : q ≠ p := fun he => hq (he ▸ hp)
          show Function.update s1.visiting p false q = _
          rw [Function.update_of_ne hne, hdeps.visiting q hq]
          exact Function.update_of_ne hne _ _
        · have hne : q ≠ c := fun he => hq (he ▸ List.prefix_rfl)
          show (appendToLists _ _ _ _).get k q = _
          rw [appendToLists_get, ← hdeps.lists k q hq]
          split
          · exact appendAt_of_ne hne p
          · rfl

/-- What the sort of the module at `c` does to the state around it. -/
structure FrameSub (c : Path) (s s' : SortState) : Prop where
  visited : ∀ p, ¬ c <+: p → s'.visited p = s.visited p
  visiting : ∀ p, ¬ c <+: p → s'.visiting p = s.visiting p
  self_visited : s'.visited c = false
  self_visiting : s'.visiting c = false
  lists : ∀ k q, ¬ c <+: q → s'.lists.get k q = s.lists.get k q

theorem sortBegin_visited (m p : Path) (s : SortState) :
    (sortBegin m s).visited p = if m.isPrefixOf p then false else s.visited p := rfl

theorem sortBegin_visiting (m p : Path) (s : SortState) (h : p ≠ m) :
    (sortBegin m s).visiting p = if m.isPrefixOf p then false else s.visiting p :=
  Function.update_of_ne h _ _

theorem frameSub_of_frameBelow {c : Path} {s s' : SortState} (h : FrameBelow c (sortBegin c s) s') :
    FrameSub c s (sortEnd c s') := by
  have hself : ¬ Below c c := fun h => h.ne rfl
  have hout : ∀ p, ¬ c <+: p → ¬ Below c p ∧ p ≠ c := fun p hp =>
    ⟨fun hb => hp (prefix_iff_below.mpr (.inr hb)), fun he => hp (he ▸ List.prefix_rfl)⟩
  have hpf : ∀ p, ¬ c <+: p → c.isPrefixOf p = false := by
    intro p hp
    rwa [← Bool.not_eq_true, List.isPrefixOf_iff_prefix]
  refine ⟨fun p hp => ?_, fun p hp => ?_, ?_, ?_, fun k q hq => ?_⟩
  · show s'.visited p = _
    rw [h.visited p (hout p hp).1, sortBegin_visited, hpf p hp]
    rfl
  · show Function.update s'.visiting c false p = _
    rw [Function.update_of_ne (hout p hp).2, h.visiting p (hout p hp).1,
      sortBegin_visiting c p s (hout p hp).2, hpf p hp]
    rfl
  · show s'.visited c = _
    rw [h.visited c hself, sortBegin_visited]
    simp
  · show Function.update s'.visiting c false c = _
    rw [Function.update_self]
  · exact h.lists k q hq

theorem FrameSub.frameBelow {m : Path} {i : Nat} {s s' : SortState}
    (h : FrameSub (m ++ [i]) s s') : FrameBelow m s s' where
  visited p hp := h.visited p fun hpre => hp ((below_child m i).of_above hpre)
  visiting p hp := h.visiting p fun hpre => hp ((below_child m i).of_above hpre)
  lists k q hq := h.lists k q fun hpre => hq ((List.prefix_append m [i]).trans hpre)

mutual
theorem sortSub_frame (hst : Scoped st) (path : Path) : ∀ (av : AVar) {s s' : SortState},
    av.isModule = true → sortSub root st path av s = .ok s' → FrameSub path s s'
  | .var _ _, s, s', hm, _ => by simp [AVar.isModule] at hm
  | .module _ avars, s, s', _, h => by
    simp only [sortSub] at h
    obtain ⟨s1, h1, h⟩ := bind_eq_ok h
    obtain rfl : sortEnd path s1 = s' := by simpa [pure, Except.pure] using h
    exact frameSub_of_frameBelow (sortLoop_frame hst path 0 avars h1)

theorem sortLoop_frame (hst : Scoped st) (m : Path) : ∀ (i : Nat) (avars : List AVar)
    {s s' : SortState}, sortLoop root st m i avars s = .ok s' → FrameBelow m s s'
  | i, [], s, s', h => by
    obtain rfl : s = s' := by simpa [sortLoop] using h
    exact .refl m s
  | i, av :: rest, s, s', h => by
    simp only [sortLoop] at h
    split_ifs at h with hv
    · exact sortLoop_frame hst m (i + 1) rest h
    · obtain ⟨s1, h1, h⟩ := bind_eq_ok h
      obtain ⟨s2, h2, h⟩ := bind_eq_ok h
      have hsub : FrameBelow m s s1 := by
        cases av with
        | var v node =>
          obtain rfl : s = s1 := by simpa [sortSub] using h1
          exact .refl m s
        | module v avars =>
          exact (sortSub_frame hst (m ++ [i]) (.module v avars) rfl h1).frameBelow
      exact (hsub.trans (moduleAddToRunlists_frame hst (below_child m i) h2)).trans
        (sortLoop_frame hst m (i + 1) rest h)
end

/-! ### Adding a child is a depth-first search -/

/-- What a node depends on. -/
def depsOf (st : Store) (p : Path) : List Path := (st p).directDeps

/-- The children of the module at `m`, as nodes. -/
def childrenOf (root : List AVar) (m : Path) : List Path :=
  (List.range (avarsAt root m).length).map fun i => m ++ [i]

theorem mem_childrenOf {m p : Path} :
    p ∈ childrenOf root m ↔ ∃ i < (avarsAt root m).length, p = m ++ [i] := by
  simp [childrenOf, eq_comm]

theorem avarAt_of_mem_childrenOf {m p : Path} (h : p ∈ childrenOf root m) :
    ∃ av, avarAt root p = some av := by
  obtain ⟨i, hi, rfl⟩ := mem_childrenOf.mp h
  exact ⟨_, (avarAt_child root m i).trans (List.getElem?_eq_getElem hi)⟩

/-- The marks of the children of `m` and the lists of `m` say what a depth-first
    search has finished and what it is in the middle of. -/
structure Refines (root : List AVar) (m : Path) (s : SortState) (active order : List Path) :
    Prop where
  visited : ∀ p ∈ childrenOf root m, s.visited p = true ↔ p ∈ order
  visiting : ∀ p ∈ childrenOf root m, s.visiting p = true ↔ p ∈ active
  lists : ∀ k, s.lists.get k m = select root k order

theorem Refines.enter {m p : Path} {s : SortState} {active order : List Path}
    (h : Refines root m s active order) :
    Refines root m { s with visiting := Function.update s.visiting p true }
      (p :: active) order where
  visited := h.visited
  visiting q hq := by
    show Function.update s.visiting p true q = true ↔ _
    by_cases hqp : q = p
    · simp [hqp]
    · rw [Function.update_of_ne hqp, h.visiting q hq, List.mem_cons, or_iff_right hqp]
  lists := h.lists

theorem Refines.leave {m p : Path} {s : SortState} {active order : List Path} {av : AVar}
    (h : Refines root m s (p :: active) order) (hp : p ∉ active) (hav : avarAt root p = some av) :
    Refines root m { visited := Function.update s.visited p true,
                     visiting := Function.update s.visiting p false,
                     lists := appendToLists s.lists m p av } active (order ++ [p]) where
  visited q hq := by
    show Function.update s.visited p true q = true ↔ _
    by_cases hqp : q = p
    · simp [hqp]
    · rw [Function.update_of_ne hqp, h.visited q hq, List.mem_append, List.mem_singleton,
        or_iff_left hqp]
  visiting q hq := by
    show Function.update s.visiting p false q = true ↔ _
    by_cases hqp : q = p
    · simp [hqp, hp]
    · rw [Function.update_of_ne hqp, h.visiting q hq, List.mem_cons, or_iff_right hqp]
  lists k := by
    show (appendToLists s.lists m p av).get k m = _
    rw [appendToLists_get, select, List.filter_append, ← select, ← h.lists k]
    cases hw : av.wants k with
    | true => simp [appendAt_self, hav, hw]
    | false => simp [hav, hw]

/-- The outcome of the code against the outcome of the search. -/
inductive Agrees (root : List AVar) (m : Path) (active : List Path) :
    Except Stop SortState → Except Failure (List Path) → Prop where
  | ok {s : SortState} {order : List Path} (h : Refines root m s active order) :
      Agrees root m active (.ok s) (.ok order)
  | cycle : Agrees root m active (.error (.err .circular)) (.error .cycle)
  | fuel : Agrees root m active (.error .diverge) (.error .fuel)

theorem addDeps_agrees {m : Path} {active : List Path}
    {add : Path → SortState → Except Stop SortState}
    {visit : Path → List Path → Except Failure (List Path)}
    (hadd : ∀ p ∈ childrenOf root m, ∀ s order, Refines root m s active order →
      Agrees root m active (add p s) (visit p order)) :
    ∀ {ds : List Path} {s : SortState} {order : List Path}, (∀ d ∈ ds, d ∈ childrenOf root m) →
      Refines root m s active order →
      Agrees root m active (addDeps add ds s) (searchAll visit ds order) := by
  intro ds
  induction ds with
  | nil => intro s order _ h; exact .ok h
  | cons d ds ih =>
    intro s order hds h
    have hd := hds d List.mem_cons_self
    have hrest := fun e he => hds e (List.mem_cons_of_mem d he)
    simp only [addDeps, searchAll]
    by_cases hmem : d ∈ order
    · rw [if_pos ((h.visited d hd).mpr hmem), if_pos hmem]
      exact ih hrest h
    · rw [if_neg (mt (h.visited d hd).mp hmem), if_neg hmem]
      simp only [bind, Except.bind]
      generalize ha : add d s = ra
      generalize hv : visit d order = rv
      have hag := hadd d hd s order h
      rw [ha, hv] at hag
      cases hag with
      | ok h1 => exact ih hrest h1
      | cycle => exact .cycle
      | fuel => exact .fuel

/-- On a module whose children depend on each other, `module_add_to_runlists` is
    the depth-first search. -/
theorem moduleAddToRunlists_search {m : Path}
    (hdeps : ∀ p ∈ childrenOf root m, ∀ d ∈ depsOf st p, d ∈ childrenOf root m) :
    ∀ (fuel : Nat) {p : Path} {s : SortState} {active order : List Path}, p ∈ childrenOf root m →
      Refines root m s active order →
      Agrees root m active (moduleAddToRunlists root st m fuel p s)
        (search (depsOf st) fuel active p order) := by
  intro fuel
  induction fuel with
  | zero => intros; exact .fuel
  | succ fuel ih =>
    intro p s active order hp h
    simp only [moduleAddToRunlists, search]
    by_cases hmem : p ∈ order
    · rw [if_pos ((h.visited p hp).mpr hmem), if_pos hmem]
      exact .ok h
    rw [if_neg (mt (h.visited p hp).mp hmem), if_neg hmem]
    by_cases hact : p ∈ active
    · rw [if_pos ((h.visiting p hp).mpr hact), if_pos hact]
      exact .cycle
    rw [if_neg (mt (h.visiting p hp).mp hact), if_neg hact]
    have hag : Agrees root m (p :: active) _ _ :=
      addDeps_agrees (fun q hq s order hs => @ih q s (p :: active) order hq hs) (hdeps p hp) h.enter
    obtain ⟨av, hav⟩ := avarAt_of_mem_childrenOf hp
    simp only [bind, Except.bind, hav]
    rw [show (st p).directDeps = depsOf st p from rfl]
    generalize addDeps _ (depsOf st p) _ = ra at hag ⊢
    generalize searchAll _ (depsOf st p) order = rv at hag ⊢
    cases hag with
    | ok h1 => exact .ok (h1.leave hact hav)
    | cycle => exact .cycle
    | fuel => exact .fuel

/-! ### The loop over the children -/

/-- The marks of the children and the lists of `m` survive the sort of a child
    that is a module and has not been added yet. -/
theorem Refines.sub {m : Path} {i : Nat} {s s' : SortState} {order : List Path}
    (h : Refines root m s [] order) (hi : m ++ [i] ∉ order) (hf : FrameSub (m ++ [i]) s s') :
    Refines root m s' [] order where
  visited p hp := by
    obtain ⟨j, -, rfl⟩ := mem_childrenOf.mp hp
    by_cases hij : i = j
    · subst hij
      simp [hf.self_visited, hi]
    · rw [hf.visited _ (not_prefix_sibling hij), h.visited _ hp]
  visiting p hp := by
    obtain ⟨j, -, rfl⟩ := mem_childrenOf.mp hp
    by_cases hij : i = j
    · subst hij
      simp [hf.self_visiting]
    · rw [hf.visiting _ (not_prefix_sibling hij), h.visiting _ hp]
  lists k := by
    rw [hf.lists k m (below_child m i).not_above, h.lists]

/-- The error of the sort of child `j`, which the loop from child `i` on came to. -/
def SubError (root : List AVar) (st : Store) (m : Path) (i : Nat) (avars : List AVar)
    (s : SortState) (e : Stop) : Prop :=
  ∃ j av s1, avars[j]? = some av ∧ av.isModule = true ∧
    sortLoop root st m i (avars.take j) s = .ok s1 ∧
    sortSub root st (m ++ [i + j]) av s1 = .error e

theorem length_le_countAVars : ∀ avars : List AVar, avars.length ≤ countAVars avars
  | [] => le_rfl
  | av :: avars => by
    have hav : 1 ≤ av.count := by cases av <;> simp [AVar.count]
    have := length_le_countAVars avars
    rw [List.length_cons, countAVars]
    omega

theorem countAVars_avars_lt {avars : List AVar} {i : Nat} {av : AVar} (h : avars[i]? = some av) :
    countAVars av.avars < countAVars avars := by
  induction avars generalizing i with
  | nil => simp at h
  | cons a avars ih =>
    rw [countAVars]
    cases i with
    | zero =>
      obtain rfl : a = av := by simpa using h
      cases a with
      | var => rw [AVar.count, AVar.avars, countAVars]; omega
      | module => rw [AVar.count, AVar.avars]; omega
    | succ i =>
      have := ih (by simpa using h)
      omega

theorem length_avarsAt_le (root : List AVar) (m : Path) :
    (avarsAt root m).length ≤ countAVars root := by
  induction m generalizing root with
  | nil => exact length_le_countAVars root
  | cons i m ih =>
    rw [avarsAt_cons]
    cases hi : root[i]? with
    | none => simp
    | some av => exact (ih av.avars).trans (countAVars_avars_lt hi).le

theorem length_childrenOf_lt (root : List AVar) (m : Path) :
    (childrenOf root m).length < sortFuel root := by
  have := length_avarsAt_le root m
  simp only [childrenOf, List.length_map, List.length_range, sortFuel]
  omega

/-- The nodes the loop goes through from child `i` on. -/
def nodesFrom (m : Path) (i : Nat) (avars : List AVar) : List Path :=
  (List.range' i avars.length).map fun j => m ++ [j]

theorem nodesFrom_cons (m : Path) (i : Nat) (av : AVar) (avars : List AVar) :
    nodesFrom m i (av :: avars) = (m ++ [i]) :: nodesFrom m (i + 1) avars := rfl

theorem sortSub_var (path : Path) {av : AVar} (h : av.isModule = false) (s : SortState) :
    sortSub root st path av s = .ok s := by
  cases av with
  | var => rfl
  | module => simp [AVar.isModule] at h

/-- The loop of `module_sort_runlists` is the search from all children, unless the
    sort of a nested module fails. -/
theorem sortLoop_cases (hst : Scoped st) {m : Path}
    (hdeps : ∀ p ∈ childrenOf root m, ∀ d ∈ depsOf st p, d ∈ childrenOf root m) :
    ∀ (avars : List AVar) {i : Nat} {s : SortState} {order : List Path},
      (avarsAt root m).drop i = avars → Refines root m s [] order →
      Agrees root m [] (sortLoop root st m i avars s)
          (searchAll (search (depsOf st) (sortFuel root) []) (nodesFrom m i avars) order) ∨
        ∃ e, SubError root st m i avars s e ∧ sortLoop root st m i avars s = .error e := by
  intro avars
  induction avars with
  | nil => intro i s order _ h; exact .inl (.ok h)
  | cons av avars ih =>
    intro i s order hdrop h
    obtain ⟨hi, hdrop'⟩ := of_drop_eq_cons hdrop
    have hp : m ++ [i] ∈ childrenOf root m := by
      refine mem_childrenOf.mpr ⟨i, ?_, rfl⟩
      exact (List.getElem?_eq_some_iff.mp hi).1
    rw [nodesFrom_cons]
    by_cases hmem : m ++ [i] ∈ order
    · have hv := (h.visited _ hp).mpr hmem
      have hstep : ∀ avars, sortLoop root st m i (av :: avars) s =
          sortLoop root st m (i + 1) avars s := by
        intro avars
        rw [sortLoop, if_pos hv]
      rw [hstep, searchAll, if_pos hmem]
      refine (ih hdrop' h).imp id ?_
      rintro ⟨e, ⟨j, av', s1, hj, hm, hrun, hsub⟩, he⟩
      refine ⟨e, ⟨j + 1, av', s1, by simpa using hj, hm, ?_, ?_⟩, he⟩
      · rw [List.take_succ_cons, hstep, hrun]
      · rw [show i + (j + 1) = i + 1 + j by omega]
        exact hsub
    · have hv : ¬ s.visited (m ++ [i]) = true := mt (h.visited _ hp).mp hmem
      have hstep : ∀ avars, sortLoop root st m i (av :: avars) s = (do
          let s ← sortSub root st (m ++ [i]) av s
          let s ← moduleAddToRunlists root st m (sortFuel root) (m ++ [i]) s
          sortLoop root st m (i + 1) avars s) := by
        intro avars
        rw [sortLoop, if_neg hv]
      cases hsub : sortSub root st (m ++ [i]) av s with
      | error e =>
        refine .inr ⟨e, ⟨0, av, s, rfl, ?_, rfl, hsub⟩, by rw [hstep, hsub]; rfl⟩
        by_contra hm
        rw [sortSub_var _ (by simpa using hm)] at hsub
        simp at hsub
      | ok s1 =>
        have h1 : Refines root m s1 [] order := by
          by_cases hm : av.isModule = true
          · exact h.sub hmem (sortSub_frame hst _ av hm hsub)
          · rw [sortSub_var _ (by simpa using hm)] at hsub
            exact Except.ok.inj hsub ▸ h
        have hag := moduleAddToRunlists_search hdeps (sortFuel root) hp h1
        have hnf := search_fuel hdeps order List.nodup_nil (by simp) hp
          (by simpa using length_childrenOf_lt root m)
        have hstep' : ∀ avars, sortLoop root st m i (av :: avars) s = (do
            let s ← moduleAddToRunlists root st m (sortFuel root) (m ++ [i]) s1
            sortLoop root st m (i + 1) avars s) := by
          intro avars
          rw [hstep, hsub]
          rfl
        simp only [hstep', searchAll, if_neg hmem, bind, Except.bind]
        cases ha : moduleAddToRunlists root st m (sortFuel root) (m ++ [i]) s1 with
        | error e =>
          rw [ha] at hag
          generalize search (depsOf st) (sortFuel root) [] (m ++ [i]) order = rv at hag hnf ⊢
          cases hag with
          | cycle => exact .inl .cycle
          | fuel => exact absurd rfl hnf
        | ok s2 =>
          rw [ha] at hag
          generalize search (depsOf st) (sortFuel root) [] (m ++ [i]) order = rv at hag ⊢
          cases hag with
          | ok h2 =>
            refine (ih hdrop' h2).imp id ?_
            rintro ⟨e, ⟨j, av', s3, hj, hm, hrun, hsub'⟩, he⟩
            refine ⟨e, ⟨j + 1, av', s3, by simpa using hj, hm, ?_, ?_⟩, he⟩
            · rw [List.take_succ_cons, hstep', ha]
              exact hrun
            · rw [show i + (j + 1) = i + 1 + j by omega]
              exact hsub'

/-! ### The sort of one module -/

/-- Some variable of the module transitively depends on itself. -/
def Cyclic (root : List AVar) (st : Store) (m : Path) : Prop :=
  ∃ p ∈ childrenOf root m, TransGen (Dep (depsOf st)) p p

/-- The index at which the loop starts. -/
def sortStart (m : Path) : Nat := if m.isEmpty then 1 else 0

/-- The run lists of the module at `m` are what its variables demand, sorted. -/
structure ListsSorted (root : List AVar) (st : Store) (m : Path) (l : RunLists) : Prop where
  /-- Each variable occurs once in each list its kind demands and in no other. -/
  count : ∀ k i av, sortStart m ≤ i → (avarsAt root m)[i]? = some av →
    (l.get k m).count (m ++ [i]) = if av.wants k then 1 else 0
  /-- Nothing but variables of the module is on the lists. -/
  children : ∀ k, ∀ p ∈ l.get k m, p ∈ childrenOf root m
  /-- A variable comes after all members of a list it transitively depends on. -/
  after : ∀ k, ∀ p ∈ l.get k m, ∀ q ∈ l.get k m, TransGen (Dep (depsOf st)) p q →
    Before q p (l.get k m)

/-- The sort of a nested module fails with `e`, after the loop has dealt with the
    children before it. -/
def NestedError (root : List AVar) (st : Store) (m : Path) (s : SortState) (e : Stop) : Prop :=
  ∃ j av s1, (avarsAt root m)[sortStart m + j]? = some av ∧ av.isModule = true ∧
    sortLoop root st m (sortStart m) (((avarsAt root m).drop (sortStart m)).take j)
      (sortBegin m s) = .ok s1 ∧
    moduleSortRunlists root st (m ++ [sortStart m + j]) s1 = .error e

theorem sortSub_eq_moduleSortRunlists {m : Path} {i : Nat} {av : AVar} (s : SortState)
    (hav : (avarsAt root m)[i]? = some av) (hm : av.isModule = true) :
    sortSub root st (m ++ [i]) av s = moduleSortRunlists root st (m ++ [i]) s := by
  cases av with
  | var => simp [AVar.isModule] at hm
  | module v avars =>
    have hstart : (m ++ [i]).isEmpty = false := by simp
    simp only [moduleSortRunlists, avarsAt_child hav, hstart, Bool.false_eq_true, if_false,
      List.drop_zero, AVar.avars]
    rfl

theorem nestedError_of_subError {m : Path} {s : SortState} {e : Stop}
    (h : SubError root st m (sortStart m) ((avarsAt root m).drop (sortStart m)) (sortBegin m s) e) :
    NestedError root st m s e := by
  obtain ⟨j, av, s1, hj, hm, hrun, he⟩ := h
  have hav : (avarsAt root m)[sortStart m + j]? = some av := by rw [← hj, List.getElem?_drop]
  exact ⟨j, av, s1, hav, hm, hrun, by rw [← sortSub_eq_moduleSortRunlists s1 hav hm, he]⟩

theorem mem_nodesFrom_drop {m p : Path} {i : Nat} :
    p ∈ nodesFrom m i ((avarsAt root m).drop i) ↔
      ∃ j, i ≤ j ∧ j < (avarsAt root m).length ∧ p = m ++ [j] := by
  simp only [nodesFrom, List.length_drop, List.mem_map, List.mem_range'_1]
  constructor
  · rintro ⟨j, ⟨hij, hj⟩, rfl⟩
    exact ⟨j, hij, by omega, rfl⟩
  · rintro ⟨j, hij, hj, rfl⟩
    exact ⟨j, ⟨hij, by omega⟩, rfl⟩

theorem refines_sortBegin {m : Path} {s : SortState} (hempty : ∀ k, s.lists.get k m = []) :
    Refines root m (sortBegin m s) [] [] where
  visited p hp := by
    obtain ⟨i, -, rfl⟩ := mem_childrenOf.mp hp
    simp [sortBegin_visited, List.isPrefixOf_iff_prefix.mpr (List.prefix_append m [i])]
  visiting p hp := by
    obtain ⟨i, -, rfl⟩ := mem_childrenOf.mp hp
    rw [sortBegin_visiting _ _ _ (below_child m i).ne]
    simp [List.isPrefixOf_iff_prefix.mpr (List.prefix_append m [i])]
  lists k := hempty k

/-- What a finished search says about the lists. -/
theorem listsSorted_of_search {m : Path}
    (hdeps : ∀ p ∈ childrenOf root m, ∀ d ∈ depsOf st p, d ∈ childrenOf root m)
    {fuel : Nat} {order : List Path} {l : RunLists} (hl : ∀ k, l.get k m = select root k order)
    (hrun : searchAll (search (depsOf st) fuel [])
      (nodesFrom m (sortStart m) ((avarsAt root m).drop (sortStart m))) [] = .ok order) :
    ListsSorted root st m l := by
  have hf := searchAll_found (fun a o o' => search_found) DepSorted.nil hrun
  have hchild : ∀ p ∈ order, p ∈ childrenOf root m := by
    intro p hp
    rcases hf.reached p hp with hp | ⟨a, ha, hap⟩
    · simp at hp
    · obtain ⟨j, -, hj, rfl⟩ := mem_nodesFrom_drop.mp ha
      induction hap with
      | refl => exact mem_childrenOf.mpr ⟨j, hj, rfl⟩
      | tail _ hbc ih =>
        exact hdeps _ (ih (hf.sorted.closed_reach (hf.roots_mem _ ha) ‹_›)) _ hbc
  refine ⟨fun k i av hi hav => ?_, fun k p hp => ?_, fun k p hp q hq hpq => ?_⟩
  · have hat : avarAt root (m ++ [i]) = some av := (avarAt_child root m i).trans hav
    have hmem : m ++ [i] ∈ order := hf.roots_mem _ (mem_nodesFrom_drop.mpr
      ⟨i, hi, (List.getElem?_eq_some_iff.mp hav).1, rfl⟩)
    rw [hl k, select]
    cases hw : av.wants k with
    | true =>
      rw [List.count_filter (by simp [hat, hw]), List.count_eq_one_of_mem hf.sorted.nodup hmem]
      rfl
    | false =>
      rw [List.count_eq_zero_of_not_mem fun h => ?_]
      · rfl
      · simp [hat, hw] at h
  · rw [hl k] at hp
    exact hchild p (List.mem_of_mem_filter hp)
  · rw [hl k] at hp hq ⊢
    have hp' := List.mem_filter.mp hp
    have hq' := List.mem_filter.mp hq
    exact (hf.sorted.before_of_mem hp'.1 hpq).filter hq'.2 hp'.2

/-- The lists of the module at `m` hold what a search from its children comes to, in that
    order. -/
def OrderAt (root : List AVar) (st : Store) (m : Path) (l : RunLists) : Prop :=
  ∃ fuel order, searchAll (search (depsOf st) fuel [])
      (nodesFrom m (sortStart m) ((avarsAt root m).drop (sortStart m))) [] = .ok order ∧
    ∀ k, l.get k m = select root k order

/-- A sort that returns has searched. -/
theorem orderAt_of_ok {m : Path} {s s' : SortState} (hst : Scoped st)
    (hdeps : ∀ p ∈ childrenOf root m, ∀ d ∈ depsOf st p, d ∈ childrenOf root m)
    (hempty : ∀ k, s.lists.get k m = []) (h : moduleSortRunlists root st m s = .ok s') :
    OrderAt root st m s'.lists := by
  simp only [moduleSortRunlists] at h
  obtain ⟨s1, h1, h⟩ := bind_eq_ok h
  obtain rfl := Except.ok.inj h
  rcases sortLoop_cases hst hdeps _ rfl (refines_sortBegin hempty) with hag | ⟨e, -, he⟩
  · generalize hrun : searchAll (search (depsOf st) (sortFuel root) []) _ [] = rv at hag
    rw [h1] at hag
    cases hag with
    | ok h => exact ⟨_, _, hrun, h.lists⟩
  · rw [h1] at he
    simp at he

/-- And so it has sorted the lists. -/
theorem listsSorted_of_ok {m : Path} {s s' : SortState} (hst : Scoped st)
    (hdeps : ∀ p ∈ childrenOf root m, ∀ d ∈ depsOf st p, d ∈ childrenOf root m)
    (hempty : ∀ k, s.lists.get k m = []) (h : moduleSortRunlists root st m s = .ok s') :
    ListsSorted root st m s'.lists := by
  obtain ⟨fuel, order, hrun, hl⟩ := orderAt_of_ok hst hdeps hempty h
  exact listsSorted_of_search hdeps hl hrun

/-- After a finished search there is no cycle. -/
theorem acyclic_of_search {m : Path} (htime : m = [] → depsOf st [0] = []) {fuel : Nat}
    {order : List Path} (hrun : searchAll (search (depsOf st) fuel [])
      (nodesFrom m (sortStart m) ((avarsAt root m).drop (sortStart m))) [] = .ok order) :
    ¬ Cyclic root st m := by
  rintro ⟨p, hp, hcyc⟩
  have hf := searchAll_found (fun a o o' => search_found) DepSorted.nil hrun
  obtain ⟨i, hi, rfl⟩ := mem_childrenOf.mp hp
  by_cases hstart : sortStart m ≤ i
  · exact hf.sorted.acyclic (hf.roots_mem _ (mem_nodesFrom_drop.mpr ⟨i, hstart, hi, rfl⟩)) hcyc
  · -- only the built-in time is left out of the loop
    obtain ⟨rfl, rfl⟩ : m = [] ∧ i = 0 := by
      unfold sortStart at hstart
      split at hstart
      · next hm => exact ⟨List.isEmpty_iff.mp hm, by omega⟩
      · omega
    obtain ⟨d, hd, -⟩ := TransGen.head'_iff.mp hcyc
    simp [Dep, htime rfl] at hd

/-- A search that ends in a cycle has found one. -/
theorem cyclic_of_search {m : Path}
    (hdeps : ∀ p ∈ childrenOf root m, ∀ d ∈ depsOf st p, d ∈ childrenOf root m) {fuel : Nat}
    (hrun : searchAll (search (depsOf st) fuel [])
      (nodesFrom m (sortStart m) ((avarsAt root m).drop (sortStart m))) [] = .error .cycle) :
    Cyclic root st m := by
  obtain ⟨a, ha, b, hab, hb⟩ := searchAll_cycle hrun
  refine ⟨b, ?_, hb⟩
  obtain ⟨j, -, hj, rfl⟩ := mem_nodesFrom_drop.mp ha
  clear ha hb hrun
  induction hab with
  | refl => exact mem_childrenOf.mpr ⟨j, hj, rfl⟩
  | tail _ hbc ih => exact hdeps _ ih _ hbc

theorem search_not_fuel {m : Path}
    (hdeps : ∀ p ∈ childrenOf root m, ∀ d ∈ depsOf st p, d ∈ childrenOf root m) :
    searchAll (search (depsOf st) (sortFuel root) [])
      (nodesFrom m (sortStart m) ((avarsAt root m).drop (sortStart m))) [] ≠ .error .fuel := by
  refine searchAll_fuel hdeps (length_childrenOf_lt root m) fun p hp => ?_
  obtain ⟨j, -, hj, rfl⟩ := mem_nodesFrom_drop.mp hp
  exact mem_childrenOf.mpr ⟨j, hj, rfl⟩

/-- In a module without modules the sort fails just when there is a cycle. -/
theorem moduleSortRunlists_ok_iff {m : Path} {s : SortState} (hst : Scoped st)
    (hdeps : ∀ p ∈ childrenOf root m, ∀ d ∈ depsOf st p, d ∈ childrenOf root m)
    (htime : m = [] → depsOf st [0] = []) (hempty : ∀ k, s.lists.get k m = [])
    (hflat : ∀ av ∈ avarsAt root m, av.isModule = false) :
    (∃ s', moduleSortRunlists root st m s = .ok s') ↔ ¬ Cyclic root st m := by
  have hcode : moduleSortRunlists root st m s = (do
      let s ← sortLoop root st m (sortStart m) ((avarsAt root m).drop (sortStart m)) (sortBegin m s)
      return sortEnd m s) := rfl
  rw [hcode]
  rcases sortLoop_cases hst hdeps _ rfl (refines_sortBegin hempty) with hag | ⟨e, hsub, -⟩
  · generalize hrun : searchAll (search (depsOf st) (sortFuel root) []) _ [] = rv at hag
    generalize sortLoop root st m (sortStart m) _ _ = ra at hag ⊢
    cases hag with
    | ok h => exact iff_of_true ⟨_, rfl⟩ (acyclic_of_search htime hrun)
    | cycle =>
      have hcyc := cyclic_of_search hdeps hrun
      exact iff_of_false (by simp [bind, Except.bind]) fun hno => hno hcyc
    | fuel => exact absurd hrun (search_not_fuel hdeps)
  · obtain ⟨j, av, -, hj, hm, -⟩ := hsub
    have hav : av ∈ avarsAt root m := List.mem_of_mem_drop (List.mem_of_getElem? hj)
    rw [hflat av hav] at hm
    cases hm

/-- `module_sort_runlists` fails with the error of a nested sort, or reports a
    circularity and there is a cycle, or there is no cycle and the lists are sorted. -/
theorem moduleSortRunlists_cases (root : List AVar) (st : Store) (m : Path) (s : SortState)
    (hst : Scoped st)
    (hdeps : ∀ p ∈ childrenOf root m, ∀ d ∈ depsOf st p, d ∈ childrenOf root m)
    (htime : m = [] → depsOf st [0] = []) (hempty : ∀ k, s.lists.get k m = []) :
    (∃ e, NestedError root st m s e ∧ moduleSortRunlists root st m s = .error e) ∨
    (moduleSortRunlists root st m s = .error (.err .circular) ∧ Cyclic root st m) ∨
    (∃ s', moduleSortRunlists root st m s = .ok s' ∧ ¬ Cyclic root st m ∧
      ListsSorted root st m s'.lists) := by
  have hcode : moduleSortRunlists root st m s = (do
      let s ← sortLoop root st m (sortStart m) ((avarsAt root m).drop (sortStart m)) (sortBegin m s)
      return sortEnd m s) := rfl
  rw [hcode]
  rcases sortLoop_cases hst hdeps _ rfl (refines_sortBegin hempty) with hag | ⟨e, hsub, he⟩
  · right
    generalize hrun : searchAll (search (depsOf st) (sortFuel root) []) _ [] = rv at hag
    generalize sortLoop root st m (sortStart m) _ _ = ra at hag ⊢
    cases hag with
    | @ok s' order h =>
      right
      have hsorted := listsSorted_of_search hdeps h.lists hrun
      exact ⟨sortEnd m s', rfl, acyclic_of_search htime hrun, hsorted⟩
    | cycle => exact .inl ⟨rfl, cyclic_of_search hdeps hrun⟩
    | fuel => exact absurd hrun (search_not_fuel hdeps)
  · left
    exact ⟨e, nestedError_of_subError hsub, by rw [he]; rfl⟩

/-- An instance tree with `a`, whose equation names `b`, declared before `b`. -/
def rootReadsLater : List AVar :=
  [.var timeVar .null,
   .var { timeVar with name := some (cstr "a"), eqn := some (cstr "b") } (.ident (cstr "b") none),
   .var { timeVar with name := some (cstr "b"), eqn := some (cstr "1") } (.floatlit (cstr "1") 0)]

theorem moduleSortRunlists_cases_readsLater :
    let st := Function.update (initStore rootReadsLater) [1]
      { initStore rootReadsLater [1] with directDeps := [[2]] }
    (∃ e, NestedError rootReadsLater st [] .empty e ∧
      moduleSortRunlists rootReadsLater st [] .empty = .error e) ∨
    (moduleSortRunlists rootReadsLater st [] .empty = .error (.err .circular) ∧
      Cyclic rootReadsLater st []) ∨
    (∃ s', moduleSortRunlists rootReadsLater st [] .empty = .ok s' ∧
      ¬ Cyclic rootReadsLater st [] ∧ ListsSorted rootReadsLater st [] s'.lists) := by
  intro st
  have hst : ∀ p, (st p).directDeps = if p = [1] then [[2]] else [] := by
    intro p
    by_cases hp : p = [1]
    · subst hp; rfl
    · rw [if_neg hp]
      simp only [st, Function.update_of_ne hp]
      rfl
  refine moduleSortRunlists_cases rootReadsLater st [] .empty ?_ ?_ ?_ fun k => by cases k <;> rfl
  · intro p d hd
    rw [hst] at hd
    split at hd
    · next hp => subst hp; exact ⟨2, [], by simpa using hd⟩
    · simp at hd
  · intro p _ d hd
    rw [depsOf, hst] at hd
    split at hd
    · exact mem_childrenOf.mpr ⟨2, by decide, by simpa using hd⟩
    · simp at hd
  · intro _
    rw [depsOf, hst, if_neg (by decide)]

end Libsd

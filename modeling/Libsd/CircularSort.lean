/-
  Libsd/CircularSort.lean
  =======================
  **Which circularities are found in a tree of modules.**

  An equation may name a variable inside a module, so the search from a module goes on
  below its children, and the sort of a module takes back marks below it.  A marked
  variable still never leads to a cycle (`CycleFreeMarks`), so what the loop over a module has
  gone through leads to none.

  A module that an earlier child of its parent depends on is marked when the loop comes
  to it, and never sorted (`Skipped`).  The sort reports a circularity exactly when a
  child of a sorted module leads to a cycle (`moduleSortRunlists_outcome`).
-/
import Libsd.Termination

namespace Libsd

open Outcome Relation DepthFirst

/-! ### What the sort goes through -/

/-- `p` depends on `q`, directly or indirectly, or is `q`. -/
abbrev Leads (st : Store) : Path → Path → Prop := ReflTransGen (Dep (depsOf st))

abbrev OnCycle (st : Store) (q : Path) : Prop := TransGen (Dep (depsOf st)) q q

/-- Nothing that `p` depends on is on a cycle. -/
def CycleFree (st : Store) (p : Path) : Prop := ∀ q, Leads st p q → ¬ OnCycle st q

/-- The loop of the sort starts at this child or comes to it. -/
def IsLooped (root : List AVar) (m : Path) (i : Nat) : Prop :=
  sortStart m ≤ i ∧ i < (avarsAt root m).length

/-- An earlier child leads to the child `j`. -/
def Skipped (st : Store) (m : Path) (j : Nat) : Prop :=
  ∃ i, sortStart m ≤ i ∧ i < j ∧ Leads st (m ++ [i]) (m ++ [j])

/-- The modules that are sorted with the module at `m`. -/
inductive SortedFrom (root : List AVar) (st : Store) (m : Path) : Path → Prop where
  | self : SortedFrom root st m m
  | child {c : Path} {i : Nat} (hc : SortedFrom root st m c) (hi : IsLooped root c i)
      (hmodule : ∃ v avars, (avarsAt root c)[i]? = some (.module v avars))
      (hskip : ¬ Skipped st c i) : SortedFrom root st m (c ++ [i])

/-- A child of a module sorted with `m` leads to a cycle. -/
def FindsCycle (root : List AVar) (st : Store) (m : Path) : Prop :=
  ∃ c, SortedFrom root st m c ∧ ∃ i, IsLooped root c i ∧ ¬ CycleFree st (c ++ [i])

variable {root : List AVar} {st : Store}

theorem SortedFrom.trans {m c c' : Path} (h : SortedFrom root st m c)
    (h' : SortedFrom root st c c') : SortedFrom root st m c' := by
  induction h' with
  | self => exact h
  | child _ hi hmodule hskip ih => exact .child ih hi hmodule hskip

/-- The first module on the way to one that is sorted. -/
theorem SortedFrom.cases_head {m c : Path} (h : SortedFrom root st m c) :
    c = m ∨ ∃ i, IsLooped root m i ∧ (∃ v avars, (avarsAt root m)[i]? = some (.module v avars)) ∧
      ¬ Skipped st m i ∧ SortedFrom root st (m ++ [i]) c := by
  induction h with
  | self => exact .inl rfl
  | @child c i hc hi hmodule hskip ih =>
    rcases ih with rfl | ⟨j, hj, hjmodule, hjskip, hjc⟩
    · exact .inr ⟨i, hi, hmodule, hskip, .self⟩
    · exact .inr ⟨j, hj, hjmodule, hjskip, .child hjc hi hmodule hskip⟩

/-! ### The marks of a search -/

/-- Among the paths in `Q`, what a marked one depends on is marked. -/
def ClosedFor (st : Store) (Q : Path → Prop) (s : SortState) : Prop :=
  ∀ y, Q y → s.visited y = true → ∀ d ∈ depsOf st y, Q d → s.visited d = true

/-- What a search from some nodes does to the marks, among the paths in `Q` and elsewhere. -/
structure Marks (st : Store) (Q starts : Path → Prop) (s s' : SortState) : Prop where
  kept : ∀ p, s.visited p = true → s'.visited p = true
  new : ∀ p, s'.visited p = true → s.visited p = true ∨ ∃ a, starts a ∧ Leads st a p
  visiting : s'.visiting = s.visiting
  closed : ClosedFor st Q s → ClosedFor st Q s'

theorem Marks.refl (Q starts : Path → Prop) (s : SortState) : Marks st Q starts s s :=
  ⟨fun _ h => h, fun _ h => .inl h, rfl, id⟩

theorem Marks.trans {Q starts : Path → Prop} {s s' s'' : SortState}
    (h : Marks st Q starts s s') (h' : Marks st Q starts s' s'') : Marks st Q starts s s'' where
  kept p hp := h'.kept p (h.kept p hp)
  new p hp := (h'.new p hp).elim (h.new p) .inr
  visiting := h'.visiting.trans h.visiting
  closed := h'.closed ∘ h.closed

theorem Marks.mono {Q starts starts' : Path → Prop} {s s' : SortState}
    (h : Marks st Q starts s s') (hle : ∀ a, starts a → ∃ b, starts' b ∧ Leads st b a) :
    Marks st Q starts' s s' where
  kept := h.kept
  new p hp := by
    rcases h.new p hp with hp | ⟨a, ha, hap⟩
    · exact .inl hp
    · obtain ⟨b, hb, hba⟩ := hle a ha
      exact .inr ⟨b, hb, hba.trans hap⟩
  visiting := h.visiting
  closed := h.closed

/-- A node is marked behind its dependencies. -/
theorem Marks.mark {Q : Path → Prop} {p : Path} {s s' : SortState} (l : RunLists)
    (hvisiting : s.visiting p ≠ true)
    (h : Marks st Q (· ∈ depsOf st p)
      { s with visiting := Function.update s.visiting p true } s')
    (hall : ∀ d ∈ depsOf st p, s'.visited d = true) :
    Marks st Q (· = p) s
      { visited := Function.update s'.visited p true,
        visiting := Function.update s'.visiting p false, lists := l } := by
  have hmark : ∀ q, q ≠ p → Function.update s'.visited p true q = s'.visited q := fun q hq =>
    Function.update_of_ne hq _ _
  have hself : Function.update s'.visited p true p = true := Function.update_self _ _ _
  constructor
  case kept =>
    intro q hq
    by_cases hqp : q = p
    · exact hqp ▸ hself
    · exact (hmark q hqp).trans (h.kept q hq)
  case new =>
    intro q hq
    by_cases hqp : q = p
    · exact .inr ⟨p, rfl, hqp ▸ .refl⟩
    · rcases h.new q ((hmark q hqp).symm.trans hq) with hq | ⟨d, hd, hdq⟩
      · exact .inl hq
      · exact .inr ⟨p, rfl, hdq.head hd⟩
  case visiting =>
    show Function.update s'.visiting p false = s.visiting
    rw [h.visiting, Function.update_idem, ← Bool.eq_false_iff.mpr hvisiting,
      Function.update_eq_self]
  case closed =>
    intro hQ y hy hyv d hd hQd
    by_cases hdp : d = p
    · exact hdp ▸ hself
    · refine (hmark d hdp).trans ?_
      by_cases hyp : y = p
      · exact hall d (hyp ▸ hd)
      · exact h.closed hQ y hy ((hmark y hyp).symm.trans hyv) d hd hQd

/-- A relation between the states before and after a search from some nodes. -/
structure SearchRel (I : (Path → Prop) → SortState → SortState → Prop) : Prop where
  refl : ∀ starts s, I starts s s
  trans : ∀ {starts s s' s''}, I starts s s' → I starts s' s'' → I starts s s''
  mono : ∀ {starts starts' s s'}, I starts s s' → (∀ a, starts a → starts' a) → I starts' s s'
  kept : ∀ {starts s s'}, I starts s s' → ∀ p, s.visited p = true → s'.visited p = true

/-- The loop over the dependencies is a search from all of them, and marks them. -/
theorem SearchRel.addDeps {I : (Path → Prop) → SortState → SortState → Prop} (hI : SearchRel I)
    {Q : Stop → Prop} {add : Path → SortState → Except Stop SortState} {deps : List Path}
    {s : SortState}
    (hadd : ∀ d ∈ deps, ∀ s', I (· ∈ deps) s s' →
      Ends (fun s'' => I (· = d) s' s'' ∧ s''.visited d = true) Q (add d s')) :
    Ends (fun s' => I (· ∈ deps) s s' ∧ ∀ d ∈ deps, s'.visited d = true) Q
      (addDeps add deps s) := by
  refine addDeps_ends
    (J := fun done s' => I (· ∈ deps) s s' ∧ ∀ d ∈ done, s'.visited d = true) ?_ ?_
    ⟨hI.refl _ s, by simp⟩
  · rintro done d - s' ⟨hs', hdone⟩ hd
    refine ⟨hs', fun e he => ?_⟩
    rcases List.mem_append.mp he with he | he
    · exact hdone e he
    · exact List.mem_singleton.mp he ▸ hd
  · rintro done d hmem s' ⟨hs', hdone⟩
    refine (hadd d hmem s' hs').imp ?_ fun _ h => h
    rintro s'' ⟨hs'', hd⟩
    refine ⟨hI.trans hs' (hI.mono hs'' fun a ha => ha ▸ hmem), fun e he => ?_⟩
    rcases List.mem_append.mp he with he | he
    · exact hI.kept hs'' e (hdone e he)
    · exact List.mem_singleton.mp he ▸ hd

/-! ### One search -/

/-- What is marked as visited leads to no cycle. -/
def CycleFreeMarks (st : Store) (s : SortState) : Prop := ∀ p, s.visited p = true → CycleFree st p

/-- Among the children of `m`, what a marked one depends on is marked. -/
def ClosedAt (root : List AVar) (st : Store) (m : Path) (s : SortState) : Prop :=
  ∀ p ∈ childrenOf root m, s.visited p = true → ∀ d ∈ depsOf st p, d ∈ childrenOf root m →
    s.visited d = true

/-- What a finished search does to the marks; `from` are the nodes it started at. -/
structure Searched (root : List AVar) (st : Store) (m : Path) (starts : Path → Prop)
    (s s' : SortState) : Prop where
  kept : ∀ p, s.visited p = true → s'.visited p = true
  new : ∀ p, s'.visited p = true → s.visited p = true ∨ ∃ a, starts a ∧ Leads st a p
  visiting : s'.visiting = s.visiting
  clean : CycleFreeMarks st s → CycleFreeMarks st s'
  closed : ClosedAt root st m s → ClosedAt root st m s'

theorem Searched.marks {m : Path} {starts : Path → Prop} {s s' : SortState}
    (h : Searched root st m starts s s') : Marks st (· ∈ childrenOf root m) starts s s' :=
  ⟨h.kept, h.new, h.visiting, h.closed⟩

theorem Marks.searched {m : Path} {starts : Path → Prop} {s s' : SortState}
    (h : Marks st (· ∈ childrenOf root m) starts s s')
    (hclean : CycleFreeMarks st s → CycleFreeMarks st s') : Searched root st m starts s s' :=
  ⟨h.kept, h.new, h.visiting, hclean, h.closed⟩

theorem Searched.refl (m : Path) (starts : Path → Prop) (s : SortState) :
    Searched root st m starts s s :=
  (Marks.refl _ starts s).searched id

theorem Searched.mono {m : Path} {starts starts' : Path → Prop} {s s' : SortState}
    (h : Searched root st m starts s s')
    (hle : ∀ a, starts a → ∃ b, starts' b ∧ Leads st b a) : Searched root st m starts' s s' :=
  (h.marks.mono hle).searched h.clean

theorem searchRel_searched (m : Path) : SearchRel (Searched root st m) where
  refl := .refl m
  trans h h' := (h.marks.trans h'.marks).searched (h'.clean ∘ h.clean)
  mono h hle := h.mono fun a ha => ⟨a, hle a ha, .refl⟩
  kept h := h.kept

/-- A node whose dependencies lead to no cycle leads to none. -/
theorem Searched.mark {m p : Path} {s s' : SortState} (l : RunLists)
    (hvisiting : s.visiting p ≠ true)
    (h : Searched root st m (· ∈ depsOf st p)
      { s with visiting := Function.update s.visiting p true } s')
    (hall : ∀ d ∈ depsOf st p, s'.visited d = true) :
    Searched root st m (· = p) s
      { visited := Function.update s'.visited p true,
        visiting := Function.update s'.visiting p false, lists := l } := by
  refine (h.marks.mark l hvisiting hall).searched fun hclean q hq => ?_
  have hs' := h.clean hclean
  by_cases hqp : q = p
  · -- a cycle that the node leads to, one of its dependencies leads to
    subst hqp
    intro r hr hcycle
    rcases ReflTransGen.cases_head hr with rfl | ⟨d, hd, hdr⟩
    · obtain ⟨d, hd, hdq⟩ := TransGen.head'_iff.mp hcycle
      exact hs' d (hall d hd) q hdq hcycle
    · exact hs' d (hall d hd) r hdr hcycle
  · exact hs' q ((Function.update_of_ne hqp _ _).symm.trans hq)

/-- What is being visited below `m` leads to `p`. -/
def Stacked (st : Store) (m p : Path) (s : SortState) : Prop :=
  ∀ q, Below m q → s.visiting q = true → TransGen (Dep (depsOf st)) q p

/-- A search that returns has marked its start and leaves no marked way to a cycle; one that
    reports a circularity has come to a cycle. -/
theorem moduleAddToRunlists_searched (hst : Scoped st) (hdeps : DepsExist root st) {m : Path} :
    ∀ {fuel : Nat} {p : Path} {s : SortState}, Below m p → (∃ av, avarAt root p = some av) →
      Stacked st m p s → Ends (fun s' => Searched root st m (· = p) s s' ∧ s'.visited p = true)
        (fun e => e ≠ .diverge → e = .err .circular ∧ ¬ CycleFree st p)
          (moduleAddToRunlists root st m fuel p s) := by
  intro fuel
  induction fuel with
  | zero => exact fun _ _ _ h => absurd rfl h
  | succ fuel ih =>
    intro p s hp hav hstack
    rw [moduleAddToRunlists]
    split_ifs with hvisited hvisiting
    · exact ⟨.refl m _ s, hvisited⟩
    · -- the node is on the stack, and so leads to itself
      exact fun _ => ⟨rfl, fun hclean => hclean p .refl (hstack p hp hvisiting)⟩
    have hadd : Ends
        (fun s' => Searched root st m (· ∈ (st p).directDeps)
          { s with visiting := Function.update s.visiting p true } s' ∧
          ∀ d ∈ (st p).directDeps, s'.visited d = true)
        (fun e => e ≠ .diverge → e = .err .circular ∧ ¬ CycleFree st p)
        (addDeps (moduleAddToRunlists root st m fuel) (st p).directDeps
          { s with visiting := Function.update s.visiting p true }) := by
      refine (searchRel_searched m).addDeps fun d hd s' hs' => ?_
      have hstack' : Stacked st m d s' := by
        intro q hq hqv
        rw [hs'.visiting] at hqv
        by_cases hqp : q = p
        · exact hqp ▸ .single hd
        · have hold : s.visiting q = true := (Function.update_of_ne hqp _ _).symm.trans hqv
          exact (hstack q hq hold).tail hd
      refine (ih (below_of_dep hst hp hd) (hdeps p d hd) hstack').imp (fun _ h => h) ?_
      intro e herr he
      obtain ⟨rfl, hno⟩ := herr he
      exact ⟨rfl, fun hclean => hno fun q hq => hclean q (hq.head hd)⟩
    refine hadd.bind ?_
    rintro s1 ⟨hs1, hall⟩
    obtain ⟨av, hav⟩ := hav
    rw [hav]
    exact ⟨hs1.mark _ hvisiting hall, Function.update_self _ _ _⟩

/-! ### Marks of the children of a module -/

theorem length_le_of_leads (hst : Scoped st) {p q : Path} (h : Leads st p q) :
    p.length ≤ q.length := by
  induction h with
  | refl => exact Nat.le_refl _
  | @tail b c _ hbc ih =>
    obtain ⟨i, rest, rfl⟩ := hst b c hbc
    simp only [List.length_append, List.length_cons, List.length_dropLast]
    omega

theorem below_of_leads (hst : Scoped st) {m p q : Path} (hp : Below m p) (h : Leads st p q) :
    Below m q := by
  induction h with
  | refl => exact hp
  | tail _ hbc ih => exact below_of_dep hst ih hbc

/-- The way from one child of a module to another goes through its children. -/
theorem ClosedAt.leads (hst : Scoped st) (hdeps : DepsExist root st) {m : Path} {s : SortState}
    (hclosed : ClosedAt root st m s) {i j : Nat} (hi : i < (avarsAt root m).length)
    (hvisited : s.visited (m ++ [i]) = true) (h : Leads st (m ++ [i]) (m ++ [j])) :
    s.visited (m ++ [j]) = true := by
  have hall : ∀ q, Leads st (m ++ [i]) q → q.length = m.length + 1 →
      q ∈ childrenOf root m ∧ s.visited q = true := by
    intro q hq
    induction hq with
    | refl => exact fun _ => ⟨mem_childrenOf.mpr ⟨i, hi, rfl⟩, hvisited⟩
    | @tail b c hb hbc ih =>
      intro hlen
      have hle := length_le_of_leads hst hb
      have hle' := length_le_of_leads hst (.single hbc)
      rw [List.length_append, List.length_singleton] at hle
      obtain ⟨hbm, hbv⟩ := ih (by omega)
      obtain ⟨k, rest, rfl⟩ := below_of_dep hst (below_of_leads hst (below_child m i) hb) hbc
      obtain rfl : rest = [] := by
        rw [List.length_append, List.length_cons] at hlen
        exact List.length_eq_zero_iff.mp (by omega)
      obtain ⟨av, hav⟩ := hdeps b _ hbc
      rw [avarAt_child] at hav
      have hchild : m ++ [k] ∈ childrenOf root m :=
        mem_childrenOf.mpr ⟨k, (List.getElem?_eq_some_iff.mp hav).1, rfl⟩
      exact ⟨hchild, hclosed b hbm hbv _ hbc hchild⟩
  exact (hall _ h (by simp)).2

/-! ### The loop over a module -/

/-- The loop over the module at `m` has come to the child `i`. -/
structure LoopAt (root : List AVar) (st : Store) (m : Path) (i : Nat) (s : SortState) : Prop where
  clean : CycleFreeMarks st s
  closed : ClosedAt root st m s
  marked : ∀ j, j < (avarsAt root m).length → (s.visited (m ++ [j]) = true ↔
    ∃ k, sortStart m ≤ k ∧ k < i ∧ Leads st (m ++ [k]) (m ++ [j]))
  idle : ∀ q, Below m q → s.visiting q = false

theorem loopAt_sortBegin {m : Path} {s : SortState} (hclean : CycleFreeMarks st s) :
    LoopAt root st m (sortStart m) (sortBegin m s) where
  clean p hp := by
    rw [sortBegin_visited] at hp
    split at hp
    · cases hp
    · exact hclean p hp
  closed p hp hv := by
    obtain ⟨j, -, rfl⟩ := mem_childrenOf.mp hp
    rw [sortBegin_visited, if_pos (List.isPrefixOf_iff_prefix.mpr (List.prefix_append m [j]))] at hv
    cases hv
  marked j _ := by
    rw [sortBegin_visited, if_pos (List.isPrefixOf_iff_prefix.mpr (List.prefix_append m [j]))]
    refine iff_of_false (by simp) ?_
    rintro ⟨k, hk, hlt, -⟩
    omega
  idle q hq := by
    rw [sortBegin_visiting m q s hq.ne, if_pos (List.isPrefixOf_iff_prefix.mpr hq.above)]

theorem LoopAt.not_skipped {m : Path} {i : Nat} {s : SortState} (h : LoopAt root st m i s)
    (hi : i < (avarsAt root m).length) (hv : s.visited (m ++ [i]) ≠ true) : ¬ Skipped st m i := by
  rintro ⟨k, hk, hlt, hleads⟩
  exact hv ((h.marked i hi).mpr ⟨k, hk, hlt, hleads⟩)

/-- The sort of the child `i` leaves the marks of the other children. -/
theorem LoopAt.sub {m : Path} {i : Nat} {s s' : SortState} (h : LoopAt root st m i s)
    (hi : s.visited (m ++ [i]) ≠ true) (hf : FrameSub (m ++ [i]) s s')
    (hclean : CycleFreeMarks st s')
    (hidle : ∀ q, Below (m ++ [i]) q → s'.visiting q = false) : LoopAt root st m i s' := by
  have hsame : ∀ j, s'.visited (m ++ [j]) = s.visited (m ++ [j]) := by
    intro j
    by_cases hij : i = j
    · subst hij
      rw [hf.self_visited, eq_comm, ← Bool.not_eq_true]
      exact hi
    · exact hf.visited _ (not_prefix_sibling hij)
  refine ⟨hclean, ?_, ?_, ?_⟩
  · intro p hp hv d hd hdm
    obtain ⟨j, -, rfl⟩ := mem_childrenOf.mp hp
    obtain ⟨k, -, rfl⟩ := mem_childrenOf.mp hdm
    rw [hsame] at hv ⊢
    exact h.closed _ hp hv _ hd hdm
  · intro j hj
    rw [hsame]
    exact h.marked j hj
  · intro q hq
    by_cases hqi : m ++ [i] <+: q
    · rcases prefix_iff_below.mp hqi with rfl | hbelow
      · exact hf.self_visiting
      · exact hidle q hbelow
    · rw [hf.visiting q hqi]
      exact h.idle q hq

/-- One child further, once it has been marked. -/
theorem LoopAt.next (hst : Scoped st) (hdeps : DepsExist root st) {m : Path} {i : Nat}
    {s s' : SortState} (h : LoopAt root st m i s) (hi : IsLooped root m i)
    (hs : Searched root st m (· = m ++ [i]) s s') (hv : s'.visited (m ++ [i]) = true) :
    LoopAt root st m (i + 1) s' where
  clean := hs.clean h.clean
  closed := hs.closed h.closed
  marked j hj := by
    constructor
    · intro hjv
      rcases hs.new _ hjv with hold | ⟨a, rfl, hleads⟩
      · obtain ⟨k, hk, hlt, hleads⟩ := (h.marked j hj).mp hold
        exact ⟨k, hk, by omega, hleads⟩
      · exact ⟨i, hi.1, Nat.lt_succ_self i, hleads⟩
    · rintro ⟨k, hk, hlt, hleads⟩
      rcases Nat.lt_succ_iff_lt_or_eq.mp hlt with hlt | rfl
      · exact hs.kept _ ((h.marked j hj).mpr ⟨k, hk, hlt, hleads⟩)
      · exact (hs.closed h.closed).leads hst hdeps hi.2 hv hleads
  idle q hq := by
    rw [hs.visiting]
    exact h.idle q hq

/-- Sorting the child keeps the invariant. -/
theorem LoopAt.afterSub (hst : Scoped st) {m : Path} {i : Nat} {av : AVar} {s s1 : SortState}
    (h : LoopAt root st m i s) (hv : ¬ s.visited (m ++ [i]) = true)
    (hrun : sortSub root st (m ++ [i]) av s = .ok s1) (hclean : CycleFreeMarks st s1)
    (hidle : ∀ q, Below (m ++ [i]) q → s1.visiting q = false) : LoopAt root st m i s1 := by
  by_cases hm : av.isModule = true
  · exact h.sub hv (sortSub_frame hst _ av hm hrun) hclean hidle
  · rw [sortSub_var _ (by simpa using hm)] at hrun
    exact Except.ok.inj hrun ▸ h

/-- The search from the child `i`. -/
theorem LoopAt.searched (hst : Scoped st) (hdeps : DepsExist root st) {m : Path} {i : Nat}
    {s : SortState} (h : LoopAt root st m i s) (hi : IsLooped root m i) :
    Ends (fun s' => Searched root st m (· = m ++ [i]) s s' ∧ s'.visited (m ++ [i]) = true)
      (fun e => e ≠ .diverge → e = .err .circular ∧ ¬ CycleFree st (m ++ [i]))
      (moduleAddToRunlists root st m (sortFuel root) (m ++ [i]) s) := by
  have hstack : Stacked st m (m ++ [i]) s := by
    intro q hq hqv
    rw [h.idle q hq] at hqv
    cases hqv
  have hat : ∃ av, avarAt root (m ++ [i]) = some av :=
    ⟨_, (avarAt_child root m i).trans (List.getElem?_eq_getElem hi.2)⟩
  exact moduleAddToRunlists_searched hst hdeps (below_child m i) hat hstack

/-- What the loop over `m` says about the children from `i` on when it returns. -/
structure LoopDone (root : List AVar) (st : Store) (m : Path) (i : Nat) (s : SortState) : Prop where
  clean : CycleFreeMarks st s
  idle : ∀ q, Below m q → s.visiting q = false
  child : ∀ j, i ≤ j → IsLooped root m j → CycleFree st (m ++ [j])
  module : ∀ j, i ≤ j → IsLooped root m j →
    (∃ v avars, (avarsAt root m)[j]? = some (.module v avars)) →
    ¬ Skipped st m j → ¬ FindsCycle root st (m ++ [j])

/-- No child of a sorted module leads to a cycle after the whole loop. -/
theorem LoopDone.not_findsCycle {m : Path} {s : SortState}
    (h : LoopDone root st m (sortStart m) s) :
    ¬ FindsCycle root st m := by
  rintro ⟨c, hc, i, hi, hcycle⟩
  rcases hc.cases_head with rfl | ⟨j, hj, hmodule, hskip, hjc⟩
  · exact hcycle (h.child i hi.1 hi)
  · exact h.module j hj.1 hj hmodule hskip ⟨c, hjc, i, hi, hcycle⟩

theorem sortStart_child (m : Path) (i : Nat) : sortStart (m ++ [i]) = 0 := by
  simp [sortStart]

theorem drop_child {m : Path} {i : Nat} {v : Var} {avars : List AVar}
    (hav : (avarsAt root m)[i]? = some (.module v avars)) :
    (avarsAt root (m ++ [i])).drop 0 = avars := by
  rw [avarsAt_child hav]
  rfl

mutual
theorem sortSub_searched (hst : Scoped st) (hdeps : DepsExist root st) :
    ∀ {m : Path} {av : AVar} {i : Nat} {s : SortState},
    (avarsAt root m)[i]? = some av → CycleFreeMarks st s →
    (∀ q, Below (m ++ [i]) q → s.visiting q = false) →
    Ends (fun s' => CycleFreeMarks st s' ∧ (∀ q, Below (m ++ [i]) q → s'.visiting q = false) ∧
        (av.isModule = true → ¬ FindsCycle root st (m ++ [i])))
      (fun e => e ≠ .diverge → e = .err .circular ∧ av.isModule = true ∧
        FindsCycle root st (m ++ [i]))
      (sortSub root st (m ++ [i]) av s)
  | m, .var _ _, i, s, _, hclean, hidle => ⟨hclean, hidle, fun h => by cases h⟩
  | m, .module v avars, i, s, hav, hclean, _ => by
    have hdrop := drop_child hav
    have hbegin : LoopAt root st (m ++ [i]) (sortStart (m ++ [i])) (sortBegin (m ++ [i]) s) :=
      loopAt_sortBegin hclean
    rw [sortStart_child] at hbegin
    have hloop :=
      sortLoop_searched hst hdeps avars hdrop (Nat.le_of_eq (sortStart_child m i)) hbegin
    refine Ends.bind (hloop.imp (fun _ h => h) fun e herr he => ⟨(herr he).1, rfl, (herr he).2⟩) ?_
    intro s' hs'
    refine ⟨hs'.clean, ?_, fun _ => ?_⟩
    · intro q hq
      exact (Function.update_of_ne hq.ne _ _).trans (hs'.idle q hq)
    · rw [← sortStart_child m i] at hs'
      exact hs'.not_findsCycle

theorem sortLoop_searched (hst : Scoped st) (hdeps : DepsExist root st) :
    ∀ {m : Path} (avars : List AVar) {i : Nat} {s : SortState},
    (avarsAt root m).drop i = avars → sortStart m ≤ i → LoopAt root st m i s →
    Ends (LoopDone root st m i) (fun e => e ≠ .diverge → e = .err .circular ∧ FindsCycle root st m)
      (sortLoop root st m i avars s)
  | m, [], i, s, hdrop, _, h => by
    have hlen : (avarsAt root m).length ≤ i := List.drop_eq_nil_iff.mp hdrop
    have hnone : ∀ j, i ≤ j → ¬ IsLooped root m j := fun j hij hj => by
      have := hj.2
      omega
    exact ⟨h.clean, h.idle, fun j hij hj => absurd hj (hnone j hij),
      fun j hij hj => absurd hj (hnone j hij)⟩
  | m, av :: rest, i, s, hdrop, hstart, h => by
    obtain ⟨hav, hdrop'⟩ := of_drop_eq_cons hdrop
    have hi : IsLooped root m i := ⟨hstart, (List.getElem?_eq_some_iff.mp hav).1⟩
    -- what is left to say about the child `i` when the rest of the loop is done
    have hfirst : ∀ s', CycleFree st (m ++ [i]) →
        (av.isModule = true → ¬ Skipped st m i → ¬ FindsCycle root st (m ++ [i])) →
        LoopDone root st m (i + 1) s' → LoopDone root st m i s' := by
      intro s' hclean hmodule hdone
      refine ⟨hdone.clean, hdone.idle, ?_, ?_⟩
      · intro j hij hj
        rcases Nat.eq_or_lt_of_le hij with rfl | hlt
        · exact hclean
        · exact hdone.child j hlt hj
      · intro j hij hj hjm
        rcases Nat.eq_or_lt_of_le hij with rfl | hlt
        · obtain ⟨v, avars, hva⟩ := hjm
          rw [hav] at hva
          cases hva
          exact hmodule rfl
        · exact hdone.module j hlt hj hjm
    rw [sortLoop]
    split_ifs with hv
    · -- an earlier child leads to this one
      have hskip : Skipped st m i := (h.marked i hi.2).mp hv
      have hnext := h.next hst hdeps hi (.refl m _ s) hv
      exact (sortLoop_searched hst hdeps rest hdrop' (by omega) hnext).imp
        (fun s' => hfirst s' (h.clean _ hv) fun _ hno => absurd hskip hno) fun _ he => he
    · have hnoskip := h.not_skipped hi.2 hv
      have hidle : ∀ q, Below (m ++ [i]) q → s.visiting q = false := fun q hq =>
        h.idle q ((below_child m i).trans hq)
      have hsub := sortSub_searched hst hdeps hav h.clean hidle
      have hmodule :
          av.isModule = true → ∃ v avars, (avarsAt root m)[i]? = some (.module v avars) := by
        intro hm
        cases av with
        | var v n => cases hm
        | module v avars => exact ⟨v, avars, hav⟩
      cases heq : sortSub root st (m ++ [i]) av s with
      | error e =>
        intro he
        obtain ⟨rfl, hm, c, hc, k, hk, hcycle⟩ := hsub.of_error heq he
        exact ⟨rfl, c, (SortedFrom.child .self hi (hmodule hm) hnoskip).trans hc, k, hk, hcycle⟩
      | ok s1 =>
        obtain ⟨hclean1, hidle1, hdone1⟩ := hsub.of_ok heq
        have h1 := h.afterSub hst hv heq hclean1 hidle1
        have hadd := h1.searched hst hdeps hi
        show Ends _ _ (do
          let s ← moduleAddToRunlists root st m (sortFuel root) (m ++ [i]) s1
          sortLoop root st m (i + 1) rest s)
        refine (hadd.imp (fun _ h => h) fun e herr he =>
          ⟨(herr he).1, m, .self, i, hi, (herr he).2⟩).bind ?_
        rintro s2 ⟨hs2, hv2⟩
        have hnext := h1.next hst hdeps hi hs2 hv2
        exact (sortLoop_searched hst hdeps rest hdrop' (by omega) hnext).imp
          (fun s' => hfirst s' (hnext.clean _ hv2) fun hm _ => hdone1 hm) fun _ he => he
end

/-- One turn of a loop that returns: a child that is not skipped has been sorted, if it is a
    module, and the search from it has gone through it. -/
theorem LoopAt.turn (hst : Scoped st) (hdeps : DepsExist root st) {m : Path} {i : Nat} {av : AVar}
    {rest : List AVar} {s s' : SortState} (h : LoopAt root st m i s)
    (hav : (avarsAt root m)[i]? = some av) (hstart : sortStart m ≤ i)
    (hrun : sortLoop root st m i (av :: rest) s = .ok s') :
    (s.visited (m ++ [i]) = true ∧ LoopAt root st m (i + 1) s ∧
      sortLoop root st m (i + 1) rest s = .ok s') ∨
    (¬ Skipped st m i ∧ ∃ s1 s2, sortSub root st (m ++ [i]) av s = .ok s1 ∧
      moduleAddToRunlists root st m (sortFuel root) (m ++ [i]) s1 = .ok s2 ∧
      LoopAt root st m (i + 1) s2 ∧ sortLoop root st m (i + 1) rest s2 = .ok s') := by
  have hi : IsLooped root m i := ⟨hstart, (List.getElem?_eq_some_iff.mp hav).1⟩
  rw [sortLoop] at hrun
  split_ifs at hrun with hv
  · exact .inl ⟨hv, h.next hst hdeps hi (.refl m _ s) hv, hrun⟩
  · obtain ⟨s1, hrun1, hrest1⟩ := bind_eq_ok hrun
    obtain ⟨s2, hrun2, hrest2⟩ := bind_eq_ok hrest1
    have hidle : ∀ q, Below (m ++ [i]) q → s.visiting q = false := fun q hq =>
      h.idle q ((below_child m i).trans hq)
    obtain ⟨hclean1, hidle1, -⟩ := (sortSub_searched hst hdeps hav h.clean hidle).of_ok hrun1
    have h1 := h.afterSub hst hv hrun1 hclean1 hidle1
    obtain ⟨hs2, hv2⟩ := (h1.searched hst hdeps hi).of_ok hrun2
    exact .inr ⟨h.not_skipped hi.2 hv, s1, s2, hrun1, hrun2, h1.next hst hdeps hi hs2 hv2, hrest2⟩

/-- The sort reports a circularity when a child of a sorted module leads to a cycle, and
    returns otherwise. -/
theorem moduleSortRunlists_outcome (hst : Scoped st) (hdeps : DepsExist root st) :
    (moduleSortRunlists root st [] .empty = .error (.err .circular) ∧ FindsCycle root st []) ∨
      ((∃ s, moduleSortRunlists root st [] .empty = .ok s) ∧ ¬ FindsCycle root st []) := by
  have hclean : CycleFreeMarks st SortState.empty := fun p hp => by cases hp
  have hbegin : LoopAt root st [] (sortStart []) (sortBegin [] .empty) := loopAt_sortBegin hclean
  have hloop := sortLoop_searched hst hdeps _ rfl (Nat.le_refl _) hbegin
  have hreturns := moduleSortRunlists_returns hdeps [] SortState.empty
  have hcode : moduleSortRunlists root st [] .empty = (do
      let s ← sortLoop root st [] (sortStart []) ((avarsAt root []).drop (sortStart []))
        (sortBegin [] .empty)
      return sortEnd [] s) := rfl
  rw [hcode] at hreturns ⊢
  cases hrun : sortLoop root st [] (sortStart []) ((avarsAt root []).drop (sortStart []))
      (sortBegin [] .empty) with
  | ok s => exact .inr ⟨⟨sortEnd [] s, rfl⟩, (hloop.of_ok hrun).not_findsCycle⟩
  | error e =>
    rw [hrun] at hreturns
    obtain ⟨rfl, hcycle⟩ := hloop.of_error hrun hreturns
    exact .inl ⟨rfl, hcycle⟩

end Libsd

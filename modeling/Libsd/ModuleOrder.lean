/-
  Libsd/ModuleOrder.lean
  ======================
  **In which order the passes come to the variables of different modules.**

  Where equations name variables of their own module only, the lists of every sorted
  module hold its children in the order of a search of its own (`orderAt_of_sortedFrom`).
  The passes follow the lists down, so of two variables the one comes first whose child of
  the innermost module that both are in comes first on the lists of that module
  (`pairwise_leaves`).  Connections between the two have no part in it.
-/
import Libsd.Schedule

namespace Libsd

open Assign DepthFirst Outcome Relation

/-- Equations name variables of their own module. -/
def DepsInModule (st : Store) : Prop := ∀ p, ∀ d ∈ (st p).directDeps, d.dropLast = p.dropLast

variable {root : List AVar} {st : Store}

theorem DepsInModule.children (hst : Scoped st) (hdeps : DepsExist root st) (hown : DepsInModule st)
    (m : Path) : ∀ p ∈ childrenOf root m, ∀ d ∈ depsOf st p, d ∈ childrenOf root m := by
  intro p hp d hd
  obtain ⟨i, -, rfl⟩ := mem_childrenOf.mp hp
  have hparent := hown _ d hd
  obtain ⟨k, rest, hrest⟩ := hst _ d hd
  rw [List.dropLast_concat] at hparent hrest
  rcases List.eq_nil_or_concat d with rfl | ⟨c, j, rfl⟩
  · simp at hrest
  · rw [List.concat_eq_append, List.dropLast_concat] at hparent
    subst hparent
    obtain ⟨av, hav⟩ := hdeps _ _ hd
    rw [List.concat_eq_append, avarAt_child] at hav
    rw [List.concat_eq_append]
    exact mem_childrenOf.mpr ⟨j, (List.getElem?_eq_some_iff.mp hav).1, rfl⟩

/-! ### Every sorted module is searched on its own -/

/-- The module at `c` has been sorted, from empty lists, and the lists in it stand. -/
def SortedAt (root : List AVar) (st : Store) (c : Path) (l : RunLists) : Prop :=
  ∃ s0 s1, moduleSortRunlists root st c s0 = .ok s1 ∧ CycleFreeMarks st s0 ∧
    (∀ k q, c <+: q → s0.lists.get k q = []) ∧ ∀ k q, c <+: q → l.get k q = s1.lists.get k q

theorem sortSub_lists_other (hst : Scoped st) {m q : Path} {i : Nat} {av : AVar} {s s' : SortState}
    (h : sortSub root st (m ++ [i]) av s = .ok s') (hq : ¬ m ++ [i] <+: q) (k : ListKind) :
    s'.lists.get k q = s.lists.get k q := by
  by_cases hm : av.isModule = true
  · exact (sortSub_frame hst _ av hm h).lists k q hq
  · rw [sortSub_var _ (by simpa using hm)] at h
    rw [Except.ok.inj h]

theorem moduleAddToRunlists_lists_other {m p q : Path} {fuel : Nat} {s s' : SortState}
    (h : moduleAddToRunlists root st m fuel p s = .ok s') (hq : q ≠ m) (k : ListKind) :
    s'.lists.get k q = s.lists.get k q := by
  have happends : IfOk _ (moduleAddToRunlists root st m fuel p s) := moduleAddToRunlists_appends
  exact (happends.of_ok h).1.others k q hq

/-- The loop leaves the lists inside the children behind it alone. -/
theorem sortLoop_lists_behind (hst : Scoped st) {m : Path} : ∀ (avars : List AVar) {i : Nat}
    {s s' : SortState}, sortLoop root st m i avars s = .ok s' →
    ∀ {j : Nat}, j < i → ∀ k q, m ++ [j] <+: q → s'.lists.get k q = s.lists.get k q
  | [], i, s, s', h, j, _, k, q, _ => by
    rw [sortLoop] at h
    rw [Except.ok.inj h]
  | av :: rest, i, s, s', h, j, hj, k, q, hq => by
    rw [sortLoop] at h
    split_ifs at h with hv
    · exact sortLoop_lists_behind hst rest h (by omega) k q hq
    · obtain ⟨s1, h1, hrest⟩ := bind_eq_ok h
      obtain ⟨s2, h2, hloop⟩ := bind_eq_ok hrest
      have hne : q ≠ m := ((below_child m j).of_above hq).ne
      rw [sortLoop_lists_behind hst rest hloop (by omega) k q hq,
        moduleAddToRunlists_lists_other h2 hne k,
        sortSub_lists_other hst h1 (not_prefix_both (by omega) hq) k]

/-- The loop sorts a module that is not skipped. -/
theorem sortLoop_child (hst : Scoped st) (hdeps : DepsExist root st) {m : Path} {j : Nat}
    {av : AVar} (hav : (avarsAt root m)[j]? = some av) (hmodule : av.isModule = true)
    (hskip : ¬ Skipped st m j) :
    ∀ (avars : List AVar) {i : Nat} {s s' : SortState}, (avarsAt root m).drop i = avars →
    sortStart m ≤ i → i ≤ j → LoopAt root st m i s → sortLoop root st m i avars s = .ok s' →
    (∀ k q, m ++ [j] <+: q → s.lists.get k q = []) → SortedAt root st (m ++ [j]) s'.lists
  | [], i, s, s', hdrop, _, hij, _, _, _ => by
    have hlen : (avarsAt root m).length ≤ i := List.drop_eq_nil_iff.mp hdrop
    have hj := (List.getElem?_eq_some_iff.mp hav).1
    omega
  | child :: rest, i, s, s', hdrop, hstart, hij, h, hrun, hempty => by
    obtain ⟨hchild, hdrop'⟩ := of_drop_eq_cons hdrop
    rcases h.turn hst hdeps hchild hstart hrun with ⟨hv, hnext, hloop⟩ |
      ⟨-, s1, s2, h1, h2, hnext, hloop⟩
    · -- what is marked here is skipped
      have hlt : i < j := by
        refine Nat.lt_of_le_of_ne hij ?_
        rintro rfl
        exact hskip ((h.marked i (List.getElem?_eq_some_iff.mp hav).1).mp hv)
      exact sortLoop_child hst hdeps hav hmodule hskip rest hdrop' (by omega) hlt hnext hloop hempty
    · have hkeep : ∀ k q, m ++ [j] <+: q → s2.lists.get k q = s1.lists.get k q := fun k q hq =>
        moduleAddToRunlists_lists_other h2 ((below_child m j).of_above hq).ne k
      rcases Nat.eq_or_lt_of_le hij with rfl | hlt
      · obtain rfl : child = av := Option.some.inj (hchild.symm.trans hav)
        rw [sortSub_eq_moduleSortRunlists s hav hmodule] at h1
        refine ⟨s, s1, h1, h.clean, hempty, fun k q hq => ?_⟩
        rw [sortLoop_lists_behind hst rest hloop (Nat.lt_succ_self i) k q hq, hkeep k q hq]
      · refine sortLoop_child hst hdeps hav hmodule hskip rest hdrop' (by omega) hlt hnext hloop ?_
        intro k q hq
        have hout : ¬ m ++ [i] <+: q := not_prefix_both (Nat.ne_of_lt hlt).symm hq
        rw [hkeep k q hq, sortSub_lists_other hst h1 hout k]
        exact hempty k q hq

theorem SortedAt.child (hst : Scoped st) (hdeps : DepsExist root st) {c : Path} {l : RunLists}
    (h : SortedAt root st c l) {i : Nat} (hi : IsLooped root c i)
    (hmodule : ∃ v avars, (avarsAt root c)[i]? = some (.module v avars))
    (hskip : ¬ Skipped st c i) :
    SortedAt root st (c ++ [i]) l := by
  obtain ⟨s0, s1, hrun, hclean, hempty, hl⟩ := h
  obtain ⟨s', hloop, hend⟩ := bind_eq_ok hrun
  obtain rfl := Except.ok.inj hend
  obtain ⟨v, avars, hav⟩ := hmodule
  have hin : ∀ q, c ++ [i] <+: q → c <+: q := fun q hq => (List.prefix_append c [i]).trans hq
  obtain ⟨t0, t1, hrun', hclean', hempty', hl'⟩ := sortLoop_child hst hdeps hav rfl hskip _ rfl
    (Nat.le_refl _) hi.1 (loopAt_sortBegin hclean) hloop fun k q hq => hempty k q (hin q hq)
  exact ⟨t0, t1, hrun', hclean', hempty', fun k q hq => (hl k q (hin q hq)).trans (hl' k q hq)⟩

/-- The lists of every sorted module come from a search of its own. -/
theorem orderAt_of_sortedFrom (hst : Scoped st) (hdeps : DepsExist root st) (hown : DepsInModule st)
    {s : SortState} (h : moduleSortRunlists root st [] .empty = .ok s) {c : Path}
    (hc : SortedFrom root st [] c) : OrderAt root st c s.lists := by
  have hat : SortedAt root st c s.lists := by
    induction hc with
    | self =>
      refine ⟨.empty, s, h, fun p hp => ?_, fun k q _ => ?_, fun _ _ _ => rfl⟩
      · cases hp
      · cases k <;> rfl
    | child hc hi hmodule hskip ih => exact ih.child hst hdeps hi hmodule hskip
  obtain ⟨s0, s1, hrun, -, hempty, hl⟩ := hat
  obtain ⟨fuel, order, hsearch, hselect⟩ := orderAt_of_ok hst (hown.children hst hdeps c)
    (fun k => hempty k c List.prefix_rfl) hrun
  exact ⟨fuel, order, hsearch, fun k => (hl k c List.prefix_rfl).trans (hselect k)⟩

/-! ### Which of two variables comes first -/

/-- Of the children of the innermost module that both are in, the one that `e` is or is in
    comes out of the search before the one for `p`. -/
def ListedFirst (root : List AVar) (st : Store) (e p : Path) : Prop :=
  ∃ c i j r r', p = c ++ i :: r ∧ e = c ++ j :: r' ∧ i ≠ j ∧
    Precedes (depsOf st) (c ++ [j]) (c ++ [i])
      (nodesFrom c (sortStart c) ((avarsAt root c).drop (sortStart c)))

section
variable {c : Path} {l : RunLists}

theorem OrderAt.child (hdeps : ∀ p ∈ childrenOf root c, ∀ d ∈ depsOf st p, d ∈ childrenOf root c)
    (h : OrderAt root st c l) {k : ListKind} {x : Path} (hx : x ∈ l.get k c) :
      ∃ i, x = c ++ [i] := by
  obtain ⟨fuel, order, hrun, hl⟩ := h
  obtain ⟨i, -, hi⟩ := mem_childrenOf.mp ((listsSorted_of_search hdeps hl hrun).children k x hx)
  exact ⟨i, hi⟩

theorem OrderAt.nodup (h : OrderAt root st c l) (k : ListKind) : (l.get k c).Nodup := by
  obtain ⟨fuel, order, hrun, hl⟩ := h
  have hf := searchAll_found (fun a o o' => search_found) DepSorted.nil hrun
  rw [hl k]
  exact hf.sorted.nodup.filter _

theorem OrderAt.acyclic (h : OrderAt root st c l) {k : ListKind} {x : Path} (hx : x ∈ l.get k c) :
    ¬ TransGen (Dep (depsOf st)) x x := by
  obtain ⟨fuel, order, hrun, hl⟩ := h
  have hf := searchAll_found (fun a o o' => search_found) DepSorted.nil hrun
  rw [hl k] at hx
  exact hf.sorted.acyclic (List.mem_of_mem_filter hx)

theorem OrderAt.pairwise (h : OrderAt root st c l) {a b : Path}
    (hprec : Precedes (depsOf st) b a
      (nodesFrom c (sortStart c) ((avarsAt root c).drop (sortStart c))))
    {k : ListKind} (ha : a ∈ l.get k c) : (l.get k c).Pairwise fun x y => x = a → y ≠ b := by
  obtain ⟨fuel, order, hrun, hl⟩ := h
  have hf := searchAll_found (fun a o o' => search_found) DepSorted.nil hrun
  rw [hl k] at ha ⊢
  have hbefore := hprec.before DepSorted.nil List.not_mem_nil hrun (List.mem_of_mem_filter ha)
  exact (hbefore.pairwise hf.sorted.nodup).filter _

end

variable {s : SDSim}

/-- A list with something on it is one of a sorted module. -/
theorem orderAt_of_mem (hw : WellBuilt s) (hown : DepsInModule s.store) {k : ListKind} {c x : Path}
    (hx : x ∈ s.lists.get k c) : OrderAt s.root s.store c s.lists := by
  obtain ⟨s', hsort, hlists⟩ := hw.sorted
  have hst := scoped_of_compiled hw.compiled
  have hdeps : DepsExist s.root s.store := fun q d hd => ((hw.compiled q).dep hd).2
  obtain ⟨-, av, hav, -⟩ := hw.wanted k c x hx
  have hpos : 0 < (s'.lists.get k c).count x := by
    rw [← hlists]
    exact List.count_pos_iff.mpr hx
  obtain ⟨hsorted, -⟩ := sort_listedBySort hst hdeps hsort k c x av hav hpos
  rw [hlists]
  exact orderAt_of_sortedFrom hst hdeps hown hsort hsorted

theorem list_child (hw : WellBuilt s) (hown : DepsInModule s.store) {k : ListKind} {c x : Path}
    (hx : x ∈ s.lists.get k c) : ∃ i, x = c ++ [i] :=
  (orderAt_of_mem hw hown hx).child (hown.children (scoped_of_compiled hw.compiled)
    (fun q _ hd => ((hw.compiled q).dep hd).2) c) hx

theorem list_nodup (hw : WellBuilt s) (hown : DepsInModule s.store) (k : ListKind) (c : Path) :
    (s.lists.get k c).Nodup := by
  cases hl : s.lists.get k c with
  | nil => exact List.nodup_nil
  | cons x rest =>
    rw [← hl]
    exact (orderAt_of_mem hw hown (k := k) (x := x) (by simp [hl])).nodup k

/-- What a member of a list contributes is the member, or inside it. -/
theorem prefix_of_mem_piece (hw : WellBuilt s) {nested : Path → Bool} {k : ListKind} {fuel : Nat}
    {x y : Path} (hy : y ∈ if nested x then flatten nested (s.lists.get k) fuel (s.lists.get k x)
      else [x]) : x <+: y := by
  split_ifs at hy
  · exact (mem_flatten nested (s.lists.get k) (P := Below x)
      (fun q hq r hr => hq.trans (hw.wanted k q r hr).1) (fun r hr => (hw.wanted k x r hr).1)
      hy).1.above
  · rw [List.mem_singleton.mp hy]

/-- In the passes no `e` comes behind `p` if it is listed first. -/
theorem pairwise_leaves (hw : WellBuilt s) (hown : DepsInModule s.store) {e p : Path}
    (h : ListedFirst s.root s.store e p) (nested : Path → Bool) (k : ListKind) (fuel : Nat) :
    (flatten nested (s.lists.get k) fuel (s.lists.get k [])).Pairwise fun x y => x = p → y ≠ e := by
  obtain ⟨c, i, j, r, r', hp, he, hij, hprec⟩ := h
  have hcp : c ++ [i] <+: p := hp ▸ prefix_child c i r
  have hce : c ++ [j] <+: e := he ▸ prefix_child c j r'
  suffices hall : ∀ fuel {c'}, c' <+: c →
      (flatten nested (s.lists.get k) fuel (s.lists.get k c')).Pairwise
        fun x y => x = p → y ≠ e from
    hall fuel List.nil_prefix
  clear fuel
  intro fuel
  induction fuel with
  | zero => exact fun _ => List.Pairwise.nil
  | succ fuel ih =>
    intro c' hc'
    rw [flatten, List.pairwise_flatMap]
    rcases prefix_iff_below.mp hc' with rfl | ⟨l, rest, rfl⟩
    · -- here the two part
      have hfirst : ∀ x ∈ s.lists.get k c, x <+: p → x = c ++ [i] := by
        intro x hx hxp
        obtain ⟨l, rfl⟩ := list_child hw hown hx
        rw [way_child hcp hxp]
      have hsecond : ∀ x ∈ s.lists.get k c, x <+: e → x = c ++ [j] := by
        intro x hx hxe
        obtain ⟨l, rfl⟩ := list_child hw hown hx
        rw [way_child hce hxe]
      constructor
      · intro x hx
        refine List.pairwise_of_forall_mem_list fun y hy z hz hyp hze => ?_
        have hi := hfirst x hx (hyp ▸ prefix_of_mem_piece hw hy)
        have hj := hsecond x hx (hze ▸ prefix_of_mem_piece hw hz)
        exact hij (by simpa using hi.symm.trans hj)
      · by_cases hmem : c ++ [i] ∈ s.lists.get k c
        · refine ((orderAt_of_mem hw hown hmem).pairwise hprec hmem).imp_of_mem ?_
          intro x y hx hy hxy z hz w hw' hzp hwe
          exact hxy (hfirst x hx (hzp ▸ prefix_of_mem_piece hw hz))
            (hsecond y hy (hwe ▸ prefix_of_mem_piece hw hw'))
        · refine List.pairwise_of_forall_mem_list fun x hx y _ z hz w _ hzp => ?_
          exact absurd (hfirst x hx (hzp ▸ prefix_of_mem_piece hw hz) ▸ hx) hmem
    · -- both are in the same child
      have hl : c' ++ [l] <+: c' ++ l :: rest := prefix_child c' l rest
      have honly : ∀ x ∈ s.lists.get k c', ∀ q, c' ++ l :: rest <+: q → x <+: q →
          x = c' ++ [l] := by
        intro x hx q hq hxq
        obtain ⟨n, rfl⟩ := list_child hw hown hx
        rw [way_child (hl.trans hq) hxq]
      have hp' : c' ++ l :: rest <+: p := (List.prefix_append _ _).trans hcp
      have he' : c' ++ l :: rest <+: e := (List.prefix_append _ _).trans hce
      constructor
      · intro x hx
        by_cases hxl : x = c' ++ [l]
        · subst hxl
          split_ifs
          · exact ih hl
          · exact List.pairwise_singleton _ _
        · refine List.pairwise_of_forall_mem_list fun y hy z _ hyp => ?_
          exact absurd (honly x hx p hp' (hyp ▸ prefix_of_mem_piece hw hy)) hxl
      · refine (list_nodup hw hown k c').imp_of_mem ?_
        intro x y hx hy hxy z hz w hw' hzp hwe
        have hx' := honly x hx p hp' (hzp ▸ prefix_of_mem_piece hw hz)
        have hy' := honly y hy e he' (hwe ▸ prefix_of_mem_piece hw hw')
        exact hxy (hx'.trans hy'.symm)

end Libsd

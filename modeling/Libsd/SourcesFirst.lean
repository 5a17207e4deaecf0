/-
  Libsd/SourcesFirst.lean
  =======================
  **When a pass is consistent across modules.**

  What a variable reads through a connection is not among its `direct_deps`, so the sort
  does not see it, and whether the pass has come to the source before depends on the order
  of the modules that both are in (`ModuleOrder`).  Where the source is listed first, the
  variable has the value of its equation on the row that the pass leaves (`satisfied`), and
  the equations form no loop.  Numbers are left to the stock pass, as in `ConstantRows`.
-/
import Libsd.CompleteRow
import Libsd.ConnectedInputs
import Libsd.ConstantRows
import Libsd.ModuleOrder

namespace Libsd

open Assign DepthFirst Outcome Relation

/-! ### The passes of a run -/

/-- `s` has been reset, as `sd_sim_new` does, or again after some calls. -/
def SDSim.AfterInitials (s u : SDSim) : Prop :=
  u = s ∨ ∃ cs t, s.calls cs = .ok t ∧ sdSimReset t = .ok u

/-- A call of `sd_sim_run_to` after `cs` has made some turns and calculated the flows of
    the next. -/
def SDSim.AfterFlows (s u' : SDSim) : Prop :=
  ∃ cs t stop u, s.calls cs = .ok t ∧ ReflTransGen (SDSim.Turn stop) t u ∧ u.step < u.nsteps ∧
    u.curr TIME ≤ stop ∧ u.flowsPass = .ok u'

/-! ### Consistent rows -/

/-- A flow or auxiliary that has an equation. -/
def SDSim.Calculated (s : SDSim) (p : Path) : Prop :=
  ∃ v n, avarAt s.root p = some (.var v n) ∧ (v.type = .flow ∨ v.type = .aux) ∧ v.eqn ≠ none

/-- On the row every flow and auxiliary has the value of its equation and table, and in these
    a connected input stands for the variable that it leads to. -/
structure Consistent (s : SDSim) (row : Row) : Prop where
  value : Complete s row
  inputs : ∀ p, s.Calculated p → ∀ q ∈ (s.store p).node.idents, ∀ e, s.LeadsTo q e →
    ∀ name : CStr, s.eval row (.ident name (some q)) = .ok (row (s.col e))

/-- The equation of `p` names `e`, or an input that is connected to it. -/
def SDSim.Reads (s : SDSim) (p e : Path) : Prop :=
  ∃ q ∈ (s.store p).node.idents, EndsAt s.store q e

/-- In every pass `p` has to be calculated from `e`. -/
def SDSim.CalculatedFrom (s : SDSim) (p e : Path) : Prop :=
  s.Calculated p ∧ s.Calculated e ∧ s.Reads p e

/-- What an equation reads through a connection is listed before it. -/
structure SourcesFirst (s : SDSim) : Prop where
  own : DepsInModule s.store
  sorted : ∀ p, s.Calculated p → ∀ m j, Below (m ++ [j]) p → ¬ Skipped s.store m j
  direct : ∀ p, s.Calculated p → ∀ q ∈ (s.store p).node.idents, ∀ q' e,
    (s.store q).src = some q' → s.LeadsTo q e → q' = e ∨ e = [0]
  first : ∀ p, s.Calculated p → ∀ q ∈ (s.store p).node.idents, ∀ e, s.LeadsTo q e →
    s.hollow e = false → ListedFirst s.root s.store e p
  tables : ConstTables s

variable {s t u u' : SDSim} {p : Path}

/-! ### What is calculated is on the lists -/

theorem SDSim.Calculated.type_ne {v : Var} (hv : v.type = .flow ∨ v.type = .aux) :
    v.type ≠ .ref := by
  rcases hv with hv | hv <;> simp [hv]

theorem SDSim.Calculated.ne_time (hw : WellBuilt s) (hp : s.Calculated p) : p ≠ [0] := by
  rintro rfl
  obtain ⟨v, n, hv, ht, he⟩ := hp
  exact he ((hollow_iff_eqn hw hv (type_ne ht)).mp (hollow_time hw))

theorem SDSim.Calculated.isColumn (hw : WellBuilt s) (hp : s.Calculated p) :
    IsColumn s.root s.store p := by
  obtain ⟨v, n, hv, ht, -⟩ := hp
  exact isColumn_of_type hw hv (type_ne ht)

theorem mem_reached {env : Env} {project : SDProject} {name : Option CStr}
    (h : sdSimNew env project name = .ok s) (hc : SourcesFirst s) (hp : s.Calculated p)
    {k : ListKind} (hk : ∀ av, avarAt s.root p = some av → av.wants k = true) :
      p ∈ s.reached k := by
  have hw := (sdSimNew_isReset h).1.built
  obtain ⟨v, n, hv, -⟩ := id hp
  have hs := onSchedule h hv (hp.ne_time hw) (hc.sorted p hp)
  have hroot : Below [] p := by
    cases p with
    | nil => simp [avarAt] at hv
    | cons i rest => exact ⟨i, rest, rfl⟩
  have hdeep : Deep s.isSub (s.lists.get k) s.calcFuel (s.lists.get k []) :=
    deep_lists hw.wanted k s.isSub (Nat.lt_succ_self _)
  exact List.count_pos_iff.mp (hs.le_count (hk _ hv) hdeep hroot)

theorem not_hollow (hw : WellBuilt s) (hp : s.Calculated p) : s.hollow p = false := by
  obtain ⟨v, n, hv, ht, he⟩ := hp
  rw [← Bool.not_eq_true]
  exact fun hh => he ((hollow_iff_eqn hw hv (SDSim.Calculated.type_ne ht)).mp hh)

theorem initialLeaf_of_calculated {env : Env} {project : SDProject} {name : Option CStr}
    (h : sdSimNew env project name = .ok s) (hc : SourcesFirst s) (hp : s.Calculated p) :
    p ∈ s.initialLeaves := by
  have hw := (sdSimNew_isReset h).1.built
  rw [initialLeaves_eq hw]
  refine List.mem_filter.mpr ⟨mem_reached h hc hp fun av hav => ?_, by simp [not_hollow hw hp]⟩
  obtain ⟨v, n, hv, ht, -⟩ := hp
  obtain rfl := Option.some.inj (hv.symm.trans hav)
  rcases ht with ht | ht <;> simp [AVar.wants, AVar.v, ht]

/-- Numbers belong to the stocks, and everything else to the flows. -/
theorem flow_or_literal {env : Env} {project : SDProject} {name : Option CStr}
    (h : sdSimNew env project name = .ok s) (hc : SourcesFirst s) (hp : s.Calculated p) :
    p ∈ s.flowLeaves ∨ (p ∈ s.stockLeaves ∧ p ∉ s.flowLeaves ∧
      ∃ txt x, (s.store p).node = .floatlit txt x) := by
  have hw := (sdSimNew_isReset h).1.built
  obtain ⟨v, n, hv, ht, -⟩ := id hp
  by_cases hlit : n.isFloatlit = true
  · obtain ⟨-, hstock, hflow⟩ := literal_wants ht hlit
    refine .inr ⟨?_, fun hf => ?_, literal_node hw hv ht hlit⟩
    · rw [stockLeaves_eq]
      exact mem_reached h hc hp fun av hav => Option.some.inj (hv.symm.trans hav) ▸ hstock
    · obtain ⟨av, hav, hwants, -⟩ := flowLeaf hw hf
      obtain rfl := Option.some.inj (hv.symm.trans hav)
      rw [hflow] at hwants
      cases hwants
  · refine .inl ?_
    rw [flowLeaves_eq hw]
    refine List.mem_filter.mpr ⟨mem_reached h hc hp fun av hav => ?_, by simp [not_hollow hw hp]⟩
    obtain rfl := Option.some.inj (hv.symm.trans hav)
    rcases ht with ht | ht <;> simpa [AVar.wants, AVar.v, AVar.isConst, AVar.node, ht] using hlit

/-! ### Reading and the order of the lists -/

/-- A dependency in the same module is listed first. -/
theorem listedFirst_of_dep (hw : WellBuilt s) (hown : DepsInModule s.store) {k : ListKind}
    {c q : Path}
    (hp : p ∈ s.lists.get k c) (hq : q ∈ depsOf s.store p) : ListedFirst s.root s.store q p := by
  have hacyclic := (orderAt_of_mem hw hown hp).acyclic hp
  obtain ⟨i, rfl⟩ := list_child hw hown hp
  have hdeps : DepsExist s.root s.store := fun q d hd => ((hw.compiled q).dep hd).2
  obtain ⟨-, av, hav, -⟩ := hw.wanted k c _ hp
  have hchild : c ++ [i] ∈ childrenOf s.root c := by
    rw [avarAt_child] at hav
    exact mem_childrenOf.mpr ⟨i, (List.getElem?_eq_some_iff.mp hav).1, rfl⟩
  obtain ⟨j, -, rfl⟩ := mem_childrenOf.mp
    (hown.children (scoped_of_compiled hw.compiled) hdeps c _ hchild _ hq)
  refine ⟨c, i, j, [], [], rfl, rfl, ?_, .dep (.single hq)⟩
  rintro rfl
  exact hacyclic (.single hq)

theorem dep_of_ident (hw : WellBuilt s) (hp : s.Calculated p) {q : Path}
    (hq : q ∈ (s.store p).node.idents) : q ∈ depsOf s.store p := by
  obtain ⟨v, n, hv, ht, he⟩ := hp
  have hcomp := hw.compiled p
  simp only [Compiled, hv] at hcomp
  unfold depsOf
  generalize s.store p = d at hcomp hq ⊢
  cases hcomp with
  | ref href => exact absurd href (SDSim.Calculated.type_ne ht)
  | time _ hnone => exact absurd hnone he
  | equation => exact hq

/-- What a calculated variable reads from the row has been listed before it. -/
theorem listedFirst_of_read (hw : WellBuilt s) (hc : SourcesFirst s) (hp : s.Calculated p)
    {k : ListKind} {c : Path} (hlist : p ∈ s.lists.get k c) {q b : Path}
    (hq : q ∈ (s.store p).node.idents) (hb : IsColumn s.root s.store b) (hne : b ≠ [0])
    (hh : s.hollow b = false) (hread : s.col b = s.identOffset q) :
      ListedFirst s.root s.store b p := by
  have hcol : ∀ {r}, s.col b = s.col r → b = r := by
    intro r hr
    refine hw.numbered.inj b r hb ?_ hr
    by_contra hno
    exact hw.numbered.ne_zero hb hne (hr.trans (hw.numbered.zero r hno))
  cases hsrc : (s.store q).src with
  | none =>
    obtain rfl : b = q := hcol (by simpa [SDSim.identOffset, hsrc, SDSim.col] using hread)
    exact listedFirst_of_dep hw hc.own hlist (dep_of_ident hw hp hq)
  | some q' =>
    obtain rfl : b = q' := hcol (by simpa [SDSim.identOffset, hsrc, SDSim.col] using hread)
    obtain ⟨v, n, hv, hnone⟩ := id hb
    exact hc.first p hp q hq b ⟨by simp [hsrc], .step hsrc (.here hnone), hb⟩ hh

/-- A member of the leaves is on the list of some module. -/
theorem exists_list_of_mem {nested : Path → Bool} {k : ListKind} {fuel : Nat} {c x : Path}
    (hx : x ∈ flatten nested (s.lists.get k) fuel (s.lists.get k c)) :
    ∃ c', x ∈ s.lists.get k c' :=
  (mem_flatten nested (s.lists.get k) (P := fun x => ∃ c', x ∈ s.lists.get k c')
    (fun q _ _ hr => ⟨q, hr⟩) (fun _ hr => ⟨c, hr⟩) hx).1

theorem ListedFirst.ne {root : List AVar} {st : Store} {e p : Path} (h : ListedFirst root st e p) :
    e ≠ p := by
  rintro rfl
  obtain ⟨c, i, j, r, r', hp, he, hij, -⟩ := h
  have heads := List.append_cancel_left (hp.symm.trans he)
  exact hij (List.cons.inj heads).1

/-- After a pass a variable on its list has the value of its equation. -/
theorem satisfied (hw : WellBuilt s) (hc : SourcesFirst s) (hp : s.Calculated p) {k : ListKind}
    {row row' : Row}
    (hmem : p ∈ flatten s.hollow (s.lists.get k) s.calcFuel (s.lists.get k []))
    (h : run s.col (fun p data => s.calcValue data p)
      (flatten s.hollow (s.lists.get k) s.calcFuel (s.lists.get k [])) row = .ok row') :
    s.calcValue row' p = .ok (row' (s.col p)) := by
  refine run_satisfies_at (depends_calcValue s) hmem (fun b hb heq => ?_)
    (fun c hcol b hb heq => ?_) h
  · obtain ⟨-, -, -, -, hbcol, -⟩ := calcLeaf hw hb
    exact hw.numbered.inj b p hbcol (hp.isColumn hw) heq
  · obtain ⟨-, -, -, -, hbcol, hbne, hbh⟩ := calcLeaf hw hb
    obtain ⟨m, hlist⟩ := exists_list_of_mem hmem
    rcases List.mem_cons.mp hcol with rfl | hcol
    · exact absurd heq (col_ne_time hw hbcol hbne)
    · obtain ⟨q, hq, rfl⟩ := List.mem_map.mp hcol
      have hfirst := listedFirst_of_read hw hc hp hlist hq hbcol hbne hbh heq
      exact ⟨hfirst.ne, pairwise_leaves hw hc.own hfirst s.hollow k s.calcFuel⟩

end Libsd

/-
  Libsd/ConstantRows.lean
  =======================
  **Variables that are evaluated by `calc` once and by `calc_stocks` from then on.**

  `calc` applies the table of a variable to the value of its equation; the default branch
  of `calc_stocks` does not.  This branch is for the flows and the other variables of which
  the equation is a number.  The two agree on what it calculates exactly when no such number
  is moved by its table (`paths_agree_iff`), and then a variable like this has the same value
  in every row that is kept, whatever is called on the simulation.
-/
import Libsd.NamedResults
import Libsd.RunLoop
import Libsd.Unbounded

namespace Libsd

open Assign Outcome Relation

/-- On every row `calc` stores for a variable what the default branch of `calc_stocks`
    stores. -/
def PathsAgree (s : SDSim) (q : Path) : Prop := ∀ row, s.calcValue row q = s.stockValue row q

/-- The variable has one value in all rows up to the current one, after any calls. -/
def SameInAllRows (s : SDSim) (q : Path) : Prop :=
  ∃ c, ∀ cs t, s.calls cs = .ok t → ∀ i ≤ t.saveStep, t.slab i (s.col q) = c

/-- Of a flow or another variable that `calc_stocks` calculates, the table does not move the
    number that its equation is. -/
def NumbersKept (s : SDSim) : Prop :=
  ∀ q ∈ s.stockLeaves, ∀ v txt x, avarAt s.root q = some (.var v (.floatlit txt x)) →
    v.type ≠ .stock → ∀ gf, v.gf = some gf → lookup gf (atof txt) = .ok (atof txt)

variable {s t : SDSim} {q : Path} {v : Var} {n : Node}

theorem stockValue_eq_eval (hq : avarAt s.root q = some (.var v n))
    (hv : v.type = .flow ∨ v.type = .aux) (row : Row) :
    s.stockValue row q = s.eval row (s.store q).node := by
  have ht : s.typeAt q = some v.type := by simp [SDSim.typeAt, hq, AVar.v]
  rw [SDSim.stockValue, ht]
  rcases hv with hv | hv <;> rw [hv]

/-! ### Number literals -/

/-- The tree of a variable that is a number, after compilation. -/
theorem floatlit_node (hw : WellBuilt s) {txt : CStr} {x : ℚ}
    (hq : avarAt s.root q = some (.var v (.floatlit txt x))) (hv : v.type ≠ .ref) :
    (s.store q).node = .floatlit txt (atof txt) := by
  have hc := hw.compiled q
  simp only [Compiled, hq] at hc
  generalize s.store q = d at hc ⊢
  cases hc with
  | ref href => exact absurd href hv
  | time _ he => cases (hw.typed q _ hq).node_null he
  | equation => rfl

theorem literal_node (hw : WellBuilt s) (hq : avarAt s.root q = some (.var v n))
    (hv : v.type = .flow ∨ v.type = .aux) (hn : n.isFloatlit = true) :
    ∃ txt x, (s.store q).node = .floatlit txt x := by
  cases n with
  | floatlit txt x =>
    exact ⟨txt, atof txt, floatlit_node hw hq (by rcases hv with hv | hv <;> simp [hv])⟩
  | _ => cases hn

/-- The two evaluations of a number. -/
theorem pathsAgree_iff (hw : WellBuilt s) {txt : CStr} {x : ℚ}
    (hq : avarAt s.root q = some (.var v (.floatlit txt x))) (hv : v.type = .flow ∨ v.type = .aux) :
    PathsAgree s q ↔ ∀ gf, v.gf = some gf → lookup gf (atof txt) = .ok (atof txt) := by
  have hnode := floatlit_node hw hq (by rcases hv with hv | hv <;> simp [hv])
  have hgf : s.gfAt q = v.gf := by
    rw [SDSim.gfAt, hq]
    rfl
  have hstock : ∀ row, s.stockValue row q = .ok (atof txt) := fun row => by
    rw [stockValue_eq_eval hq hv, hnode]
    rfl
  have heval : ∀ row, s.eval row (.floatlit txt (atof txt)) = .ok (atof txt) := fun _ => rfl
  simp only [PathsAgree, SDSim.calcValue, hnode, hgf, hstock, heval, bind, Except.bind]
  cases v.gf with
  | none => exact iff_of_true (fun _ => rfl) fun _ h => by cases h
  | some gf =>
    constructor
    · rintro h _ ⟨⟩
      exact h fun _ => 0
    · exact fun h _ => h gf rfl

/-- What the default branch of `calc_stocks` calculates is a number. -/
theorem floatlit_of_default (hw : WellBuilt s) (hq : q ∈ s.stockLeaves)
    (ht : s.typeAt q ≠ some .stock) : ∃ v txt x, avarAt s.root q = some (.var v (.floatlit txt x)) ∧
      (v.type = .flow ∨ v.type = .aux) := by
  obtain ⟨av, hav, hwants, hm, -⟩ := stockLeaf hw hq
  cases av with
  | module v avars => simp [AVar.isModule] at hm
  | var v n =>
    have htype : s.typeAt q = some v.type := by simp [SDSim.typeAt, hav, AVar.v]
    have hmodule : v.type ≠ .module := fun hmod => by
      rw [isModule_iff_isSub hw hav, SDSim.isSub, htype, hmod] at hm
      cases hm
    have hstock : v.type ≠ .stock := fun hs => ht (htype.trans (congrArg some hs))
    obtain ⟨hv, hn⟩ : (v.type = .flow ∨ v.type = .aux) ∧ n.isFloatlit = true := by
      cases hk : v.type with
      | module => exact absurd hk hmodule
      | stock => exact absurd hk hstock
      | flow =>
        exact ⟨.inl rfl, by simpa [AVar.wants, AVar.v, AVar.isConst, AVar.node, hk] using hwants⟩
      | aux =>
        exact ⟨.inr rfl, by simpa [AVar.wants, AVar.v, AVar.isConst, AVar.node, hk] using hwants⟩
      | ref => simp [AVar.wants, AVar.v, hk] at hwants
    cases n with
    | floatlit txt x => exact ⟨v, txt, x, hav, hv⟩
    | _ => cases hn

theorem literal_wants (hv : v.type = .flow ∨ v.type = .aux) (hn : n.isFloatlit = true) :
    (AVar.var v n).wants .initials = true ∧ (AVar.var v n).wants .stocks = true ∧
      (AVar.var v n).wants .flows = false := by
  rcases hv with hv | hv <;> simp [AVar.wants, AVar.v, AVar.isConst, AVar.node, hv, hn]

theorem NumbersKept.pathsAgree (hk : NumbersKept s) (hw : WellBuilt s) (hq : q ∈ s.stockLeaves)
    (ht : s.typeAt q ≠ some .stock) : PathsAgree s q := by
  obtain ⟨v, txt, x, hav, hv⟩ := floatlit_of_default hw hq ht
  exact (pathsAgree_iff hw hav hv).mpr
    (hk q hq v txt x hav (by rcases hv with hv | hv <;> simp [hv]))

/-! ### A constant is on the lists of initial values and of stocks, or on none -/

/-- What two lists both want, they both have or both lack. -/
def ListsAlike (root : List AVar) (l : RunLists) : Prop :=
  ∀ k k' q p, ∀ av, avarAt root p = some av → av.wants k = true → av.wants k' = true →
    (p ∈ l.get k q ↔ p ∈ l.get k' q)

theorem listsAlike_append {root : List AVar} : KeptByAppend root (ListsAlike root) := by
  intro l m path av _ hav hl k k' q p av' hav' hk hk'
  have hmem : ∀ k, av'.wants k = true → (p ∈ (appendToLists l m path av).get k q ↔
      p ∈ l.get k q ∨ (p = path ∧ q = m)) := by
    intro k hk
    rw [appendToLists_get]
    by_cases hp : p = path
    · obtain rfl : av = av' := Option.some.inj (hav.symm.trans (hp ▸ hav'))
      rw [if_pos hk]
      by_cases hq : q = m
      · subst hq
        simp [appendAt_self, hp]
      · simp [appendAt_of_ne hq, hq]
    · split
      · by_cases hq : q = m
        · subst hq
          simp [appendAt_self, hp]
        · simp [appendAt_of_ne hq, hq]
      · simp [hp]
  rw [hmem k hk, hmem k' hk', hl k k' q p av' hav' hk hk']

theorem listsAlike (hw : WellBuilt s) : ListsAlike s.root s.lists := by
  obtain ⟨s', hsort, hlists⟩ := hw.sorted
  rw [hlists]
  refine moduleSortRunlists_lists listsAlike_append (scoped_of_compiled hw.compiled) ?_ hsort
  intro k k' q p av _ _ _
  cases k <;> cases k' <;> simp [SortState.empty, RunLists.get]

/-- Only modules have run lists. -/
theorem isModule_of_mem_list (hw : WellBuilt s) {k : ListKind} {a p : Path} {av : AVar}
    (hav : avarAt s.root a = some av) (hp : p ∈ s.lists.get k a) : av.isModule = true := by
  obtain ⟨hbelow, av', hav', -⟩ := hw.wanted k a p hp
  exact isModule_of_below hav hav' hbelow

theorem literal_leaves (hw : WellBuilt s) (hq : avarAt s.root q = some (.var v n))
    (hv : v.type = .flow ∨ v.type = .aux) (hn : n.isFloatlit = true) :
    q ∈ s.initialLeaves ↔ q ∈ s.stockLeaves := by
  obtain ⟨hwi, hws, -⟩ := literal_wants hv hn
  obtain ⟨txt, x, hnode⟩ := literal_node hw hq hv hn
  have hhollow : s.hollow q = false := by simp [SDSim.hollow, hnode, Node.isNull]
  have hsub : s.isSub q = false := (isModule_iff_isSub hw hq).symm
  have halike := listsAlike hw
  -- a module is on both lists of the module that it is in
  have hmod : ∀ {k m a p}, a ∈ s.lists.get k m → p ∈ s.lists.get k a → ∀ k', a ∈ s.lists.get k' m ∧
      s.isSub a = true ∧ s.hollow a = true := by
    intro k m a p ha hp k'
    obtain ⟨-, av, hav, hk⟩ := hw.wanted k m a ha
    have hm := isModule_of_mem_list hw hav hp
    have hall := wants_of_isModule (hw.typed a av hav) hm
    refine ⟨(halike k k' m a av hav (hall k) (hall k')).mp ha, ?_, ?_⟩
    · rw [← isModule_iff_isSub hw hav, hm]
    · by_contra hh
      rw [not_isModule_of_hollow hw hav (by simpa using hh)] at hm
      cases hm
  constructor
  · intro h
    refine mem_flatten_of s.hollow s.lists.initials hsub
      (fun m hm => (halike .initials .stocks m q _ hq hwi hws).mp hm) (fun m a ha _ hne => ?_) h
    obtain ⟨p, hp⟩ := List.exists_mem_of_ne_nil _ hne
    obtain ⟨h1, h2, -⟩ := hmod (k := .initials) ha hp .stocks
    exact ⟨h1, h2⟩
  · intro h
    refine mem_flatten_of s.isSub s.lists.stocks hhollow
      (fun m hm => (halike .stocks .initials m q _ hq hws hwi).mp hm) (fun m a ha _ hne => ?_) h
    obtain ⟨p, hp⟩ := List.exists_mem_of_ne_nil _ hne
    obtain ⟨h1, -, h2⟩ := hmod (k := .stocks) ha hp .initials
    exact ⟨h1, h2⟩

/-! ### The rows of a run -/

/-- `c` is in the column of `q` in the rows up to `m`, and in all rows if the stock pass
    does not write there. -/
def HoldsUpTo (s : SDSim) (q : Path) (c : ℚ) (m : Nat) (slab : Nat → Row) : Prop :=
  ∀ i, i ≤ m ∨ q ∉ s.stockLeaves → slab i (s.col q) = c

section
variable {c : ℚ} (hw : WellBuilt s) (hcol : IsColumn s.root s.store q) (hne : q ≠ [0])
  (hflow : q ∉ s.flowLeaves) (hstock : q ∈ s.stockLeaves → ∀ row, s.stockValue row q = .ok c)
include hw hcol

include hflow in
theorem flowsOf_other {row row' : Row} (h : s.flowsOf row = .ok row') :
    row' (s.col q) = row (s.col q) := by
  refine run_frame h fun p hp hpq => hflow ?_
  obtain ⟨-, -, -, -, hpcol, -⟩ := flowLeaf hw hp
  exact hw.numbered.inj p q hpcol hcol hpq ▸ hp

include hstock in
/-- The stock pass gives the constant its value, or leaves it alone. -/
theorem stocksOf_literal {row next next' : Row} (h : s.stocksOf row next = .ok next')
    (hnext : q ∉ s.stockLeaves → next (s.col q) = c) : next' (s.col q) = c := by
  by_cases hq : q ∈ s.stockLeaves
  · exact (Except.ok.inj ((hstock hq row).symm.trans (stocksOf_value hw h hq))).symm
  · rw [← hnext hq]
    refine run_frame h fun p hp hpq => hq ?_
    obtain ⟨-, -, -, -, hpcol, -⟩ := stockLeaf hw hp
    exact hw.numbered.inj p q hpcol hcol hpq ▸ hp

include hflow hstock in
/-- Both passes: the constant has its value in the row after the current one as well. -/
theorem HoldsUpTo.passes {m : Nat} {slab : Nat → Row} (h : HoldsUpTo s q c m slab) {row next : Row}
    (hrow : s.flowsOf (slab m) = .ok row) (hnext : s.stocksOf row (slab (m + 1)) = .ok next) :
    HoldsUpTo s q c (m + 1)
      (Function.update (Function.update slab m row) (m + 1) next) := by
  intro i hi
  by_cases hi1 : i = m + 1
  · rw [hi1, Function.update_self]
    exact stocksOf_literal hw hcol hstock hnext fun hq => h (m + 1) (.inr hq)
  · rw [Function.update_of_ne hi1]
    by_cases him : i = m
    · rw [him, Function.update_self, flowsOf_other hw hcol hflow hrow]
      exact h m (.inl le_rfl)
    · rw [Function.update_of_ne him]
      exact h i (hi.imp_left fun _ => by omega)

include hne in
theorem HoldsUpTo.advanced {j m : Nat} {slab : Nat → Row} (h : HoldsUpTo s q c (m + 1) slab) :
    ∃ slab' m', s.advanced slab j m = s.moved slab' (j + 1) m' ∧ HoldsUpTo s q c m' slab' := by
  have htime : s.col q ≠ TIME := col_ne_time hw hcol hne
  have hnext : HoldsUpTo s q c (m + 1) (Function.update slab (m + 1)
      (Function.update (slab (m + 1)) TIME (s.timeAt (j + 1)))) := by
    intro i hi
    by_cases hi1 : i = m + 1
    · rw [hi1, Function.update_self, Function.update_of_ne htime]
      exact h (m + 1) (.inl le_rfl)
    · rw [Function.update_of_ne hi1]
      exact h i hi
  unfold SDSim.advanced
  simp only
  split
  · refine ⟨_, m, rfl, fun i hi => ?_⟩
    by_cases him : i = m
    · have := hnext (m + 1) (.inl le_rfl)
      rw [Function.update_self] at this
      rw [him, Function.update_self, if_pos (col_lt hw q)]
      exact this
    · rw [Function.update_of_ne him]
      exact hnext i (hi.imp_left fun _ => by omega)
  · exact ⟨_, m + 1, rfl, hnext⟩

include hflow hstock in
theorem HoldsUpTo.bothPasses (hb : s.env.bounded = false) {slab : Nat → Row} {j m : Nat}
    {u1 u2 : SDSim} (h : HoldsUpTo s q c m slab) (h1 : (s.moved slab j m).flowsPass = .ok u1)
    (h2 : u1.stocksPass = .ok u2) :
    ∃ slab', u2 = s.moved slab' j m ∧ HoldsUpTo s q c (m + 1) slab' := by
  rw [moved_flowsPass hw] at h1
  obtain ⟨row, hrow, h1⟩ := bind_eq_ok h1
  obtain rfl := Except.ok.inj h1
  rw [moved_stocksPass hw _ j m fun _ => checkRow_of_unbounded hb (m + 1)] at h2
  obtain ⟨next, hnext, h2⟩ := bind_eq_ok h2
  rw [Function.update_self, Function.update_of_ne (Nat.succ_ne_self m)] at hnext
  exact ⟨_, (Except.ok.inj h2).symm, h.passes hw hcol hflow hstock hrow hnext⟩

include hne hflow hstock in
/-- A turn keeps the value of a constant. -/
theorem HoldsUpTo.turn (hb : s.env.bounded = false) {stop : ℚ} {slab : Nat → Row} {j m : Nat}
    (h : HoldsUpTo s q c m slab) (hturn : SDSim.Turn stop (s.moved slab j m) t) :
    ∃ slab' j' m', t = s.moved slab' j' m' ∧ HoldsUpTo s q c m' slab' := by
  obtain ⟨-, -, u1, u2, h1, h2, -, h3⟩ := hturn
  obtain ⟨slab1, rfl, hpass⟩ := h.bothPasses hw hcol hflow hstock hb h1 h2
  rw [advance_eq (checkRow_of_unbounded hb (m + 1))] at h3
  obtain ⟨slab', m', hadv, hholds⟩ := hpass.advanced (j := j) hw hcol hne
  exact ⟨slab', j + 1, m', (Except.ok.inj h3).symm.trans hadv, hholds⟩

include hne hflow hstock in
theorem HoldsUpTo.turns (hb : s.env.bounded = false) {stop : ℚ} {slab : Nat → Row} {j m : Nat}
    (h : HoldsUpTo s q c m slab) (hturns : ReflTransGen (SDSim.Turn stop) (s.moved slab j m) t) :
    ∃ slab' j' m', t = s.moved slab' j' m' ∧ HoldsUpTo s q c m' slab' := by
  induction hturns with
  | refl => exact ⟨slab, j, m, rfl, h⟩
  | tail _ hturn ih =>
    obtain ⟨slab1, j1, m1, rfl, h1⟩ := ih
    exact h1.turn hw hcol hne hflow hstock hb hturn

include hne hflow hstock in
theorem HoldsUpTo.runLoop (hb : s.env.bounded = false) {stop : ℚ} {fuel : Nat}
    {slab : Nat → Row} {j m : Nat} (h : HoldsUpTo s q c m slab)
    (hrun : SDSim.runLoop stop fuel (s.moved slab j m) = .ok t) :
    ∃ slab' j' m', t = s.moved slab' j' m' ∧ HoldsUpTo s q c m' slab' := by
  obtain ⟨u, hturns, hend⟩ := runLoop_turns hrun
  obtain ⟨slab1, j1, m1, rfl, h1⟩ := h.turns hw hcol hne hflow hstock hb hturns
  rcases hend with rfl | ⟨u1, -, -, hflows, hstocks, -⟩
  · exact ⟨slab1, j1, m1, rfl, h1⟩
  · -- the last turn ends after the stock pass
    obtain ⟨slab2, rfl, h2⟩ := h1.bothPasses hw hcol hflow hstock hb hflows hstocks
    exact ⟨slab2, j1, m1, rfl, fun i hi => h2 i (hi.imp_left Nat.le_succ_of_le)⟩

include hne hflow hstock in
theorem HoldsUpTo.calls (hb : s.env.bounded = false) (hr : IsReset s)
    (h0 : HoldsUpTo s q c 0 s.slab) {cs : List Call} : ∀ {slab : Nat → Row} {j m : Nat} {t : SDSim},
      HoldsUpTo s q c m slab → (s.moved slab j m).calls cs = .ok t →
      ∃ slab' j' m', t = s.moved slab' j' m' ∧ HoldsUpTo s q c m' slab' := by
  induction cs with
  | nil =>
    intro slab j m t h hcs
    exact ⟨slab, j, m, (Except.ok.inj hcs).symm, h⟩
  | cons call cs ih =>
    intro slab j m t h hcs
    simp only [SDSim.calls] at hcs
    obtain ⟨t1, h1, hcs⟩ := bind_eq_ok hcs
    have hrun : ∀ {stop fuel}, SDSim.runLoop stop fuel (s.moved slab j m) = .ok t1 →
        ∃ slab' j' m', t = s.moved slab' j' m' ∧ HoldsUpTo s q c m' slab' := by
      intro stop fuel hloop
      obtain ⟨slab1, j1, m1, rfl, hholds⟩ := h.runLoop hw hcol hne hflow hstock hb hloop
      exact ih hholds hcs
    cases call with
    | runTo stop => exact hrun h1
    | runToEnd => exact hrun h1
    | reset =>
      obtain rfl : s = t1 := Except.ok.inj
        ((hr.reset_of_same (moved_sameSetup slab j m)).symm.trans h1)
      rw [hr.eq_moved] at hcs
      exact ih h0 hcs

end

/-- A number that the table keeps is the value in all rows; without a place on the lists
    the variable stays at 0. -/
theorem sameInAllRows_of_unbounded (hr : IsReset s) (hb : s.env.bounded = false)
    (hq : avarAt s.root q = some (.var v n)) (hv : v.type = .flow ∨ v.type = .aux)
    (hn : n.isFloatlit = true) (hk : q ∈ s.stockLeaves → PathsAgree s q) : SameInAllRows s q := by
  have hw := hr.built
  obtain ⟨txt, x, hnode⟩ := literal_node hw hq hv hn
  have hval : ∀ row, s.stockValue row q = .ok x := fun row => by
    rw [stockValue_eq_eval hq hv, hnode]
    rfl
  have hcol : IsColumn s.root s.store q :=
    isColumn_of_type hw hq (by rcases hv with hv | hv <;> simp [hv])
  have hne : q ≠ [0] := by
    rintro rfl
    have htime := hollow_time hw
    simp [SDSim.hollow, hnode, Node.isNull] at htime
  have hflow : q ∉ s.flowLeaves := fun hf => by
    obtain ⟨av, hav, hwants, -⟩ := flowLeaf hw hf
    obtain rfl : av = .var v n := Option.some.inj (hav.symm.trans hq)
    simp [(literal_wants hv hn).2.2] at hwants
  have hinit : ∀ p ∈ s.initialLeaves, s.col p = s.col q → p = q := fun p hp hpq => by
    obtain ⟨-, -, -, -, hpcol, -⟩ := initialLeaf hw hp
    exact hw.numbered.inj p q hpcol hcol hpq
  have hrest : ∀ i, 0 < i → s.slab i (s.col q) = 0 := fun i hi => by rw [hr.rest i hi]
  by_cases hleaf : q ∈ s.stockLeaves
  · have hcalc : ∀ row, s.calcValue row q = .ok x := fun row =>
      (hk hleaf row).trans (hval row)
    have h0 : HoldsUpTo s q x 0 s.slab := fun i hi => by
      obtain rfl : i = 0 := Nat.le_zero.mp (hi.resolve_right (not_not.mpr hleaf))
      exact run_fixed hr.initial ((literal_leaves hw hq hv hn).mpr hleaf) hcalc hinit
    refine ⟨x, fun cs t hcs i hi => ?_⟩
    rw [hr.eq_moved] at hcs
    obtain ⟨slab, j, m, rfl, hholds⟩ :=
      HoldsUpTo.calls hw hcol hne hflow (fun _ => hval) hb hr h0 h0 hcs
    exact hholds i (.inl hi)
  · have h0 : HoldsUpTo s q 0 0 s.slab := fun i _ => by
      by_cases hi : i = 0
      · have hfirst : s.slab 0 (s.col q) = s.startRow (s.col q) :=
          run_frame hr.initial fun p hp hpq =>
            hleaf ((literal_leaves hw hq hv hn).mp (hinit p hp hpq ▸ hp))
        rw [hi, hfirst, SDSim.startRow, if_neg (col_ne_time hw hcol hne)]
      · exact hrest i (Nat.pos_of_ne_zero hi)
    refine ⟨0, fun cs t hcs i hi => ?_⟩
    rw [hr.eq_moved] at hcs
    obtain ⟨slab, j, m, rfl, hholds⟩ :=
      HoldsUpTo.calls hw hcol hne hflow (fun hs => absurd hs hleaf) hb hr h0 h0 hcs
    exact hholds i (.inl hi)

/-- In every simulation, the two evaluations agree on all that the default branch of
    `calc_stocks` calculates, and every flow and every other variable of which the equation is a
    number has one value in all rows, exactly when no table moves a number that `calc_stocks`
    calculates. -/
theorem paths_agree_iff {env : Env} {p : SDProject} {name : Option CStr}
    (h : sdSimNew env p name = .ok s) :
    ((∀ q ∈ s.stockLeaves, s.typeAt q ≠ some .stock → PathsAgree s q) ∧
      ∀ q v n, avarAt s.root q = some (.var v n) → v.type = .flow ∨ v.type = .aux →
        n.isFloatlit = true → SameInAllRows s q) ↔ NumbersKept s := by
  have hr := (sdSimNew_isReset (unbounded_new h)).1
  have hw : WellBuilt s := (sdSimNew_isReset h).1.built
  constructor
  · rintro ⟨hagree, -⟩ q hq v txt x hav hv
    have ht : s.typeAt q ≠ some .stock := by simpa [SDSim.typeAt, hav, AVar.v] using hv
    obtain ⟨v', txt', x', hav', hv'⟩ := floatlit_of_default hw hq ht
    cases hav.symm.trans hav'
    exact (pathsAgree_iff hw hav hv').mp (hagree q hq ht)
  · intro hk
    refine ⟨fun q => hk.pathsAgree hw, fun q v n hq hv hn => ?_⟩
    have ht : s.typeAt q ≠ some .stock := by
      rcases hv with hv | hv <;> simp [SDSim.typeAt, hq, AVar.v, hv]
    have hk : NumbersKept s.unbounded := hk
    obtain ⟨c, hc⟩ := sameInAllRows_of_unbounded hr rfl hq hv hn
      fun hleaf => hk.pathsAgree hr.built hleaf ht
    exact ⟨c, fun cs t hcs => hc cs t.unbounded (unbounded_calls hcs)⟩

/-- The number 2 behind a table that makes it 5. -/
def constantTable (simSpecs : SimSpec) : SDProject :=
  .ofModels simSpecs [{ name := none, vars := [
    { Var.ofEquation .aux "price" "2" with gf := some ⟨[0, 4], [1, 9], rfl⟩ }] }]

theorem paths_agree_constantTable : ∃ s,
    sdSimNew (.plain true) (constantTable ⟨0, 2, 1, 1⟩) none = .ok s ∧
    (((∀ q ∈ s.stockLeaves, s.typeAt q ≠ some .stock → PathsAgree s q) ∧
      ∀ q v n, avarAt s.root q = some (.var v n) → v.type = .flow ∨ v.type = .aux →
        n.isFloatlit = true → SameInAllRows s q) ↔ NumbersKept s) := by
  obtain ⟨s, hnew, -⟩ := exists_ok (P := fun _ => true)
    (x := sdSimNew (.plain true) (constantTable ⟨0, 2, 1, 1⟩) none) (by decide +kernel)
  exact ⟨s, hnew, paths_agree_iff hnew⟩

/-- In the first row it is 5, and 2 in the second. -/
theorem constantTable_differs : ∃ s t,
    sdSimNew (.plain true) (constantTable ⟨0, 2, 1, 1⟩) none = .ok s ∧
    s.calls [.runToEnd] = .ok t ∧ 1 ≤ t.saveStep ∧
    t.slab 0 (s.col [1]) = 5 ∧ t.slab 1 (s.col [1]) = 2 ∧
    s.calcValue (s.slab 0) [1] = .ok 5 ∧ s.stockValue (s.slab 0) [1] = .ok 2 ∧
    ¬ (PathsAgree s [1] ∧ SameInAllRows s [1]) := by
  obtain ⟨⟨s, t⟩, h, hs⟩ := exists_ok
    (P := fun r : SDSim × SDSim => decide (1 ≤ r.2.saveStep ∧ r.2.slab 0 (r.1.col [1]) = 5 ∧
      r.2.slab 1 (r.1.col [1]) = 2 ∧ r.1.calcValue (r.1.slab 0) [1] = .ok 5 ∧
      r.1.stockValue (r.1.slab 0) [1] = .ok 2))
    (x := do
      let s ← sdSimNew (.plain true) (constantTable ⟨0, 2, 1, 1⟩) none
      let t ← s.calls [.runToEnd]
      return (s, t)) (by decide +kernel)
  obtain ⟨s1, hnew, h⟩ := bind_eq_ok h
  obtain ⟨t1, hcs, h⟩ := bind_eq_ok h
  obtain ⟨rfl, rfl⟩ : s1 = s ∧ t1 = t := by simpa [pure, Except.pure] using h
  obtain ⟨hsave, h0, h1, hcalc, hstock⟩ := of_decide_eq_true hs
  refine ⟨s1, t1, hnew, hcs, hsave, h0, h1, hcalc, hstock, fun hagree => ?_⟩
  rw [hagree.1 (s1.slab 0), hstock] at hcalc
  exact absurd (Except.ok.inj hcalc) (by decide)

end Libsd

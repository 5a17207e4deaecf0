/-
  Libsd/VarNames.lean
  ===================
  **Offsets and reported names go by the same order.**

  `module_assign_offsets` and `module_get_varnames` are two walks over the instance
  tree, and both come to the variables in the order of `columnsFrom`.  What is written
  for a variable is its qualified name, and that can be made unless the variable, or a
  module around it, is without a name inside a module that has one
  (`sdSimGetVarnames_iff`).
-/
import Libsd.QualNames
import Mathlib.Data.List.Induction

namespace Libsd

/-- The AVar at a path is neither a module nor a connected input. -/
def IsVariable (root : List AVar) (q : Path) : Prop :=
  ∃ v n, avarAt root q = some (.var v n) ∧ v.type ≠ .ref

/-- `av->v->name`. -/
def nameAt (root : List AVar) (q : Path) : Option CStr := (avarAt root q).bind (·.v.name)

/-- From the root's child down to `q`, every AVar has a name. -/
def NamedAlong (root : List AVar) (q : Path) : Prop :=
  ∀ r, r ≠ [] → r <+: q → nameAt root r ≠ none

/-- The names on the way to a variable, joined by dots; NULL when the first one is NULL. -/
def fullName (root : List AVar) (q : Path) : Option CStr :=
  (nameAt root (q.take 1)).map fun _ => dotted root q

/-- The qualified name can be made: every name on the way is there, or the first is not. -/
def Printable (root : List AVar) (q : Path) : Prop :=
  nameAt root (q.take 1) = none ∨ NamedAlong root q

variable {root : List AVar}

/-! ### One qualified name -/

theorem avarQualName_child {q : Path} (hq : q ≠ []) (i : Nat) :
    avarQualName root (q ++ [i]).reverse = (do
      match ← avarQualName root q.reverse with
      | none => return none
      | some parent =>
        match nameAt root (q ++ [i]) with
        | none => .error (.undefined .nullDeref)
        | some name => return some (parent ++ 0x2E :: name)) := by
  obtain ⟨q, j, rfl⟩ := List.eq_nil_or_concat q |>.resolve_left hq
  have hup : (q ++ [j]).reverse = j :: q.reverse := by simp
  have hpath : q ++ [j] ++ [i] = (i :: j :: q.reverse).reverse := by simp
  rw [List.concat_eq_append, hpath, List.reverse_reverse, hup]
  rfl

theorem namedAlong_child {q : Path} {i : Nat} :
    NamedAlong root (q ++ [i]) ↔ NamedAlong root q ∧ nameAt root (q ++ [i]) ≠ none := by
  constructor
  · intro h
    exact ⟨fun r hr hrq => h r hr (hrq.trans (List.prefix_append q [i])),
      h _ (by simp) List.prefix_rfl⟩
  · rintro ⟨hq, hi⟩ r hr hrq
    rcases List.prefix_concat_iff.mp hrq with rfl | hrq
    · exact hi
    · exact hq r hr hrq

theorem namedAlong_nil : NamedAlong root [] := by
  intro r hr hrq
  exact absurd (List.prefix_nil.mp hrq) hr

/-- A parent on the way to an AVar. -/
theorem parent_of_avarAt {q : Path} {i : Nat} {av : AVar} (hq : q ≠ [])
    (h : avarAt root (q ++ [i]) = some av) :
    ∃ parent, avarAt root q = some parent ∧ parent.avars[i]? = some av := by
  rw [avarAt_append_avarsAt (by simp), avarsAt, if_neg (by simpa using hq)] at h
  split at h
  · next b hb => exact ⟨b, hb, by simpa [avarAt_cons] using h⟩
  · simp [avarAt] at h

theorem take_one_child {q : Path} (hq : q ≠ []) (i : Nat) : (q ++ [i]).take 1 = q.take 1 := by
  cases q with
  | nil => exact absurd rfl hq
  | cons j q => rfl

theorem first_named {q : Path} (h : NamedAlong root q) (hq : q ≠ []) :
    nameAt root (q.take 1) ≠ none := by
  refine h _ ?_ (List.take_prefix 1 q)
  cases q with
  | nil => exact absurd rfl hq
  | cons j q => simp

/-- What `avar_qual_name` comes to. -/
inductive QualName (root : List AVar) (q : Path) : Except Stop (Option CStr) → Prop where
  | unnamed (h : nameAt root (q.take 1) = none) : QualName root q (.ok none)
  | named (h : NamedAlong root q) : QualName root q (.ok (some (dotted root q)))
  | crash (hfirst : nameAt root (q.take 1) ≠ none) (h : ¬ NamedAlong root q) :
    QualName root q (.error (.undefined .nullDeref))

theorem avarQualName_cases {q : Path} {av : AVar} (h : avarAt root q = some av) :
    QualName root q (avarQualName root q.reverse) := by
  induction q using List.reverseRecOn generalizing av with
  | nil => simp [avarAt] at h
  | append_singleton q i ih =>
    by_cases hq : q = []
    · subst hq
      have hi : root[i]? = some av := by simpa [avarAt_cons] using h
      have hname : avarQualName root ([] ++ [i]).reverse = .ok (nameAt root [i]) := rfl
      rw [hname]
      cases hn : nameAt root [i] with
      | none => exact .unnamed hn
      | some n =>
        have hav : av.v.name = some n := by
          simpa [nameAt, show avarAt root [i] = some av from h] using hn
        have hlabel : dotted root ([] ++ [i]) = n := by
          rw [List.nil_append, dotted_cons hi, if_pos (by rfl), AVar.label, hav, Option.getD_some]
        rw [← hlabel]
        exact .named (namedAlong_child.mpr ⟨namedAlong_nil, by simp [hn]⟩)
    · obtain ⟨parent, hparent, hchild⟩ := parent_of_avarAt hq h
      have hname : nameAt root (q ++ [i]) = av.v.name := by rw [nameAt, h, Option.bind_some]
      rw [avarQualName_child hq]
      have hq' := ih hparent
      generalize avarQualName root q.reverse = x at hq'
      cases hq' with
      | unnamed hn => exact .unnamed (by rwa [take_one_child hq])
      | crash hfirst hn =>
        refine .crash (by rwa [take_one_child hq]) fun hall => hn (namedAlong_child.mp hall).1
      | named hall =>
        simp only [hname, bind, Except.bind]
        cases hav : av.v.name with
        | none =>
          refine .crash ?_ fun hall' => (namedAlong_child.mp hall').2 (by rw [hname, hav])
          rw [take_one_child hq]
          exact first_named hall hq
        | some n =>
          have hlabel : dotted root (q ++ [i]) = dotted root q ++ 0x2E :: n := by
            rw [dotted_child hparent hchild, AVar.label, hav, Option.getD_some]
          simp only [pure, Except.pure, ← hlabel]
          exact .named (namedAlong_child.mpr ⟨hall, by simp [hname, hav]⟩)

/-- A qualified name is made exactly when it can be, and is then the full name. -/
theorem avarQualName_ok_iff {q : Path} {av : AVar} (h : avarAt root q = some av) :
    avarQualName root q.reverse = .ok (fullName root q) ↔ Printable root q := by
  have hq : q ≠ [] := by
    rintro rfl
    simp [avarAt] at h
  have hcases := avarQualName_cases h
  generalize avarQualName root q.reverse = x at hcases
  cases hcases with
  | unnamed hn => simp [fullName, Printable, hn]
  | crash hfirst hn => simp [Printable, hfirst, hn]
  | named hall =>
    obtain ⟨n, hn⟩ := Option.ne_none_iff_exists'.mp (first_named hall hq)
    simp [fullName, Printable, hn, hall]

/-! ### The list of names, up to its end -/

theorem take_add (l l' : List Path) (max : Nat) :
    (l ++ l').take max = l.take max ++ l'.take (max - (l.take max).length) := by
  rw [List.take_append, List.length_take]
  congr 2
  omega

/-- The names are made one after another. -/
theorem mapM_iff {l : List Path} {f : Path → Except Stop (Option CStr)}
    {names : List (Option CStr)} :
    l.mapM f = .ok names ↔ List.Forall₂ (fun q n => f q = .ok n) l names := by
  induction l generalizing names with
  | nil =>
    rw [List.forall₂_nil_left_iff]
    exact ⟨fun h => (Except.ok.inj h).symm, fun h => h ▸ rfl⟩
  | cons q l ih =>
    rw [List.mapM_cons, List.forall₂_cons_left_iff]
    constructor
    · intro h
      cases hq : f q with
      | error e => simp [hq, bind, Except.bind] at h
      | ok n =>
        cases hl : l.mapM f with
        | error e => simp [hq, hl, bind, Except.bind] at h
        | ok rest =>
          simp only [hq, hl, bind, Except.bind, pure, Except.pure, Except.ok.injEq] at h
          exact ⟨n, rest, rfl, ih.mp hl, h.symm⟩
    · rintro ⟨n, rest, hq, hl, rfl⟩
      rw [hq, ih.mpr hl]
      rfl

mutual
theorem avarGetVarnames_mapM {st : Store} (path : Path) : ∀ (av : AVar) {max : Nat}, 0 < max →
    avarGetVarnames root st path av max =
      ((av.columns st path).take max).mapM fun q => avarQualName root q.reverse
  | .module _ avars, max, _ => moduleGetVarnames_mapM path 0 avars max
  | .var _ _, max, hmax => by
    obtain ⟨max, rfl⟩ := Nat.exists_eq_succ_of_ne_zero hmax.ne'
    simp only [avarGetVarnames, AVar.columns]
    split
    · simp
    · rfl

/-- The budget is carried through nested calls: what is written for a list of AVars is
    the names of the first columns in it. -/
theorem moduleGetVarnames_mapM {st : Store} (base : Path) : ∀ (i : Nat) (avars : List AVar)
    (max : Nat), moduleGetVarnames root st base i avars max =
      ((columnsFrom st base i avars).take max).mapM fun q => avarQualName root q.reverse
  | i, [], max => by simp [moduleGetVarnames, columnsFrom, pure, Except.pure]
  | i, av :: rest, max => by
    simp only [moduleGetVarnames, columnsFrom]
    split
    · next h0 => simp [h0, pure, Except.pure]
    · next h0 =>
      rw [take_add, List.mapM_append, avarGetVarnames_mapM (base ++ [i]) av (Nat.pos_of_ne_zero h0)]
      cases hnames : ((av.columns st (base ++ [i])).take max).mapM
          fun q => avarQualName root q.reverse with
      | error e => rfl
      | ok names =>
        simp only [bind, Except.bind]
        rw [moduleGetVarnames_mapM base (i + 1) rest, ← (mapM_iff.mp hnames).length_eq]
end

theorem sdSimGetVarnames_mapM (s : SDSim) (max : Nat) : sdSimGetVarnames s max =
    ((columnsFrom s.store [] 0 s.root).take max).mapM fun q => avarQualName s.root q.reverse := by
  rw [sdSimGetVarnames]
  split
  · next h0 => simp [h0, pure, Except.pure]
  · exact moduleGetVarnames_mapM [] 0 s.root max

/-! ### The columns in order -/

/-- The variables in the order of their offsets. -/
structure InOffsetOrder (root : List AVar) (st : Store) (nvars : Nat)
    (vars : List Path) : Prop where
  nodup : vars.Nodup
  mem_iff : ∀ q, q ∈ vars ↔ IsVariable root q
  length_eq : vars.length = nvars
  offset : ∀ i q, vars[i]? = some q → (st q).offset = i
  time : vars[0]? = some [0]

theorem isColumn_iff {st : Store} {q : Path} (h : Compiled root q (st q)) :
    IsColumn root st q ↔ IsVariable root q := by
  have hkind : ∀ v n, avarAt root q = some (.var v n) → ((st q).src = none ↔ v.type ≠ .ref) := by
    intro v n hv
    simp only [Compiled, hv] at h
    generalize st q = d at h
    cases h with
    | ref href => simp [href]
    | time href => exact iff_of_true rfl href
    | equation href => exact iff_of_true rfl href
  constructor
  · rintro ⟨v, n, hv, hsrc⟩
    exact ⟨v, n, hv, (hkind v n hv).mp hsrc⟩
  · rintro ⟨v, n, hv, href⟩
    exact ⟨v, n, hv, (hkind v n hv).mpr href⟩

theorem columns_inOffsetOrder {p : SDProject} {fuel : Nat} {model : SDModel} {st store : Store}
    {nvars : Nat} (hroot : module p fuel none model = .ok root) (hst : compileRoot root = .ok st)
    (hoff : moduleAssignOffsets [] 0 root (st, 0) = (store, nvars)) :
    InOffsetOrder root store nvars (columnsFrom store [] 0 root) := by
  obtain ⟨htime, hcomp, hnum⟩ := compiled_of_assigned hroot hst hoff
  have hnone : ∀ k, root[k]? = (avarsAt root [])[0 + k]? := fun k => by
    rw [Nat.zero_add]
    rfl
  have hmem : ∀ q, q ∈ columnsFrom store [] 0 root ↔ IsColumn root store q := by
    intro q
    refine (mem_columnsFrom hnone).trans ⟨And.right, fun hq => ⟨?_, hq⟩⟩
    cases q with
    | nil => exact absurd hq not_isColumn_nil
    | cons j rest => exact ⟨j, Nat.zero_le j, by simp⟩
  have hnodup : (columnsFrom store [] 0 root).Nodup := columnsFrom_nodup hnone
  rw [moduleAssignOffsets_eq] at hoff
  have hcols : columnsFrom st [] 0 root = columnsFrom store [] 0 root := by
    refine columnsFrom_congr (fun q => ?_) [] 0 root
    have := number_src (columnsFrom st [] 0 root) (st, 0) q
    rw [hoff] at this
    exact this.symm
  refine ⟨hnodup, fun q => (hmem q).trans (isColumn_iff (hcomp q)), ?_, ?_, ?_⟩
  · have := number_count (columnsFrom st [] 0 root) (st, 0)
    rw [hoff, hcols, Nat.zero_add] at this
    exact this.symm
  · intro i q hq
    have := number_offset (r := (st, 0)) (hcols ▸ hnodup) (hcols ▸ List.mem_of_getElem? hq)
    rw [hoff, hcols, Nat.zero_add] at this
    rw [this]
    obtain ⟨hi, rfl⟩ := List.getElem?_eq_some_iff.mp hq
    exact hnodup.idxOf_getElem i hi
  · cases hr : root with
    | nil => simp [hr] at htime
    | cons av rest =>
      obtain rfl : av = .var timeVar .null := by simpa [hr] using htime
      have hsrc : (store [0]).src = none := by
        obtain ⟨v, n, -, hsrc⟩ := hnum.time.1
        exact hsrc
      simp [columnsFrom, AVar.columns, hsrc]

/-! ### Names and offsets -/

/-- For every size of the result, so many names are written, each the name of the variable at
    its index. -/
def ReportsNames (s : SDSim) : Prop :=
  ∀ max, ∃ names, sdSimGetVarnames s max = .ok names ∧ names.length = min max s.nvars ∧
    ∀ q, IsVariable s.root q → s.col q < names.length →
      names[s.col q]? = some (fullName s.root q)

/-- The offsets number the variables from `time` on, and the names are reported in that
    order for every size exactly when every one of them can be made. -/
theorem sdSimGetVarnames_iff {p : SDProject} {fuel : Nat} {model : SDModel} {s : SDSim} {st : Store}
    (hroot : module p fuel none model = .ok s.root) (hst : compileRoot s.root = .ok st)
    (hoff : moduleAssignOffsets [] 0 s.root (st, 0) = (s.store, s.nvars)) :
    (∃ vars, InOffsetOrder s.root s.store s.nvars vars) ∧
    (ReportsNames s ↔ ∀ q, IsVariable s.root q → Printable s.root q) := by
  have horder := columns_inOffsetOrder hroot hst hoff
  have hat : ∀ q, IsVariable s.root q → (columnsFrom s.store [] 0 s.root)[s.col q]? = some q := by
    intro q hq
    obtain ⟨i, hi⟩ := List.mem_iff_getElem?.mp ((horder.mem_iff q).mpr hq)
    rwa [SDSim.col, horder.offset i q hi]
  refine ⟨⟨_, horder⟩, fun h q hq => ?_, fun h max => ?_⟩
  · obtain ⟨names, hnames, hlen, hname⟩ := h s.nvars
    rw [sdSimGetVarnames_mapM, List.take_of_length_le horder.length_eq.le, mapM_iff] at hnames
    obtain ⟨hcol, -⟩ := List.getElem?_eq_some_iff.mp (hat q hq)
    have hlt : s.col q < names.length := hnames.length_eq ▸ hcol
    have hmade := List.Forall₂.get hnames hcol hlt
    have hget := hname q hq hlt
    have hthis := hat q hq
    rw [List.getElem?_eq_getElem hlt, Option.some.injEq] at hget
    rw [List.getElem?_eq_getElem hcol, Option.some.injEq] at hthis
    rw [List.get_eq_getElem, List.get_eq_getElem, hget, hthis] at hmade
    obtain ⟨v, n, hv, -⟩ := hq
    exact (avarQualName_ok_iff hv).mp hmade
  · have hall : List.Forall₂ (fun q n => avarQualName s.root q.reverse = .ok n)
        ((columnsFrom s.store [] 0 s.root).take max)
        (((columnsFrom s.store [] 0 s.root).take max).map (fullName s.root)) := by
      refine List.forall₂_map_right_iff.mpr (List.forall₂_same.mpr fun q hq => ?_)
      have hvar := (horder.mem_iff q).mp (List.mem_of_mem_take hq)
      obtain ⟨v, n, hv, -⟩ := id hvar
      exact (avarQualName_ok_iff hv).mpr (h q hvar)
    refine ⟨_, (sdSimGetVarnames_mapM s max).trans (mapM_iff.mpr hall), ?_, fun q hq hlt => ?_⟩
    · rw [List.length_map, List.length_take, horder.length_eq]
    · rw [List.length_map, List.length_take] at hlt
      rw [List.getElem?_map, List.getElem?_take_of_lt (by omega), hat q hq, Option.map_some]

theorem sdSimGetVarnames_prefixNames : ∃ model s, BuiltFrom (prefixNames ⟨0, 1, 1, 1⟩) model s ∧
    (∃ vars, InOffsetOrder s.root s.store s.nvars vars) ∧
    (ReportsNames s ↔ ∀ q, IsVariable s.root q → Printable s.root q) := by
  obtain ⟨s, h, -⟩ := exists_ok (x := sdSimNew (.plain true) (prefixNames ⟨0, 1, 1, 1⟩) none)
    (P := fun _ => true) (by decide +kernel)
  obtain ⟨specs, model, s0, -, hbuilt, -⟩ := sdSimNew_cases h
  obtain ⟨st, hst, hoff⟩ := hbuilt.store
  exact ⟨model, s0, hbuilt, sdSimGetVarnames_iff hbuilt.root hst hoff⟩

/-- A variable without a name, inside a module. -/
def namelessVar (simSpecs : SimSpec) : SDProject :=
  .ofModels simSpecs [
    { name := none, vars := [{ Var.ofEquation .module "m" "" with eqn := none }] },
    { name := some (cstr "m"), vars := [{ Var.ofEquation .aux "" "1" with name := none }] }]

theorem sdSimGetVarnames_nameless :
    ∃ s, sdSimNew (.plain true) (namelessVar ⟨0, 1, 1, 1⟩) none = .ok s ∧ s.nvars = 2 ∧
      sdSimGetVarnames s 1 = .ok [some (cstr "time")] ∧
      sdSimGetVarnames s 2 = .error (.undefined .nullDeref) ∧ ¬ ReportsNames s := by
  obtain ⟨s, h, hs⟩ := exists_ok (x := sdSimNew (.plain true) (namelessVar ⟨0, 1, 1, 1⟩) none)
    (P := fun s =>
      decide (s.nvars = 2) && decide (sdSimGetVarnames s 1 = .ok [some (cstr "time")]) &&
      decide (sdSimGetVarnames s 2 = .error (.undefined .nullDeref))) (by decide +kernel)
  simp only [Bool.and_eq_true, decide_eq_true_eq] at hs
  obtain ⟨⟨hnvars, hone⟩, hcrash⟩ := hs
  refine ⟨s, h, hnvars, hone, hcrash, fun hreports => ?_⟩
  obtain ⟨names, hnames, -⟩ := hreports 2
  rw [hcrash] at hnames
  cases hnames

end Libsd

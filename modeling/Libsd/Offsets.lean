/-
  Libsd/Offsets.lean
  ==================
  **Every variable that is simulated has a column of its own.**

  `module_assign_offsets` numbers the variables without a source in the order in
  which the tree is walked (`moduleAssignOffsets_eq`).  So no two of them share an
  offset, every offset is below the count, and the others keep the offset 0, which
  is the root's `time`.
-/
import Libsd.CompiledStore

namespace Libsd

/-! ### Numbering a list of paths -/

def AVarData.setOffset (d : AVarData) (offset : Nat) : AVarData := { d with offset := offset }

/-- Give the next offsets to the paths of a list. -/
def number : List Path → Store × Nat → Store × Nat
  | [], r => r
  | p :: l, (st, offset) => number l (Function.update st p ((st p).setOffset offset), offset + 1)

theorem number_append (l l' : List Path) (r : Store × Nat) :
    number (l ++ l') r = number l' (number l r) := by
  induction l generalizing r with
  | nil => rfl
  | cons p l ih => exact ih _

theorem number_count (l : List Path) (r : Store × Nat) : (number l r).2 = r.2 + l.length := by
  induction l generalizing r with
  | nil => rfl
  | cons p l ih =>
    rw [number, ih, List.length_cons]
    omega

/-- Numbering sets offsets and nothing else. -/
theorem number_only_offset (l : List Path) (r : Store × Nat) (p : Path) :
    (number l r).1 p = (r.1 p).setOffset ((number l r).1 p).offset := by
  induction l generalizing r with
  | nil => rfl
  | cons q l ih =>
    rw [number, ih]
    by_cases hp : p = q
    · subst hp
      simp [AVarData.setOffset]
    · simp [AVarData.setOffset, Function.update_of_ne hp]

theorem number_of_not_mem {l : List Path} {r : Store × Nat} {p : Path} (h : p ∉ l) :
    (number l r).1 p = r.1 p := by
  induction l generalizing r with
  | nil => rfl
  | cons q l ih =>
    rw [number, ih (List.not_mem_of_not_mem_cons h)]
    exact Function.update_of_ne (List.ne_of_not_mem_cons h) _ _

theorem number_offset {l : List Path} (hl : l.Nodup) {r : Store × Nat} {p : Path} (h : p ∈ l) :
    ((number l r).1 p).offset = r.2 + l.idxOf p := by
  induction l generalizing r with
  | nil => simp at h
  | cons q l ih =>
    obtain ⟨hq, hl⟩ := List.nodup_cons.mp hl
    by_cases hp : p = q
    · subst hp
      rw [number, number_of_not_mem hq, List.idxOf_cons_self]
      simp [AVarData.setOffset]
    · have hmem : p ∈ l := (List.mem_cons.mp h).resolve_left hp
      rw [number, ih hl hmem, List.idxOf_cons_ne _ (Ne.symm hp)]
      omega

/-! ### The walk of `module_assign_offsets` -/

mutual
/-- The variables without a source, in the order of the walk. -/
def AVar.columns (st : Store) (path : Path) : AVar → List Path
  | .module _ avars => columnsFrom st path 0 avars
  | .var _ _ => if (st path).src.isNone then [path] else []

def columnsFrom (st : Store) (base : Path) : Nat → List AVar → List Path
  | _, [] => []
  | i, av :: rest => av.columns st (base ++ [i]) ++ columnsFrom st base (i + 1) rest
end

mutual
theorem columns_congr {st st' : Store} (h : ∀ p, (st p).src = (st' p).src) (path : Path) :
    ∀ av : AVar, av.columns st path = av.columns st' path
  | .module _ avars => columnsFrom_congr h path 0 avars
  | .var _ _ => by simp only [AVar.columns, h]

theorem columnsFrom_congr {st st' : Store} (h : ∀ p, (st p).src = (st' p).src) (base : Path) :
    ∀ (i : Nat) (avars : List AVar), columnsFrom st base i avars = columnsFrom st' base i avars
  | _, [] => rfl
  | i, av :: rest => by
    simp only [columnsFrom, columns_congr h (base ++ [i]) av, columnsFrom_congr h base (i + 1) rest]
end

theorem number_src (l : List Path) (r : Store × Nat) (p : Path) :
    ((number l r).1 p).src = (r.1 p).src := by
  rw [number_only_offset, AVarData.setOffset]

mutual
theorem assignOffset_eq (path : Path) : ∀ (av : AVar) (r : Store × Nat),
    assignOffset path av r = number (av.columns r.1 path) r
  | .module _ avars, r => moduleAssignOffsets_eq path 0 avars r
  | .var _ _, (st, offset) => by
    simp only [assignOffset, AVar.columns]
    split <;> rfl

theorem moduleAssignOffsets_eq (base : Path) : ∀ (i : Nat) (avars : List AVar) (r : Store × Nat),
    moduleAssignOffsets base i avars r = number (columnsFrom r.1 base i avars) r
  | _, [], r => rfl
  | i, av :: rest, r => by
    rw [moduleAssignOffsets, moduleAssignOffsets_eq base (i + 1) rest,
      assignOffset_eq (base ++ [i]) av,
      columnsFrom, number_append, columnsFrom_congr (number_src _ r)]
end

/-! ### Which paths are numbered -/

/-- A variable that has a column of its own. -/
def IsColumn (root : List AVar) (st : Store) (p : Path) : Prop :=
  ∃ v n, avarAt root p = some (.var v n) ∧ (st p).src = none

variable {root : List AVar} {st : Store}

theorem not_isColumn_nil : ¬ IsColumn root st [] := by
  rintro ⟨v, n, h, -⟩
  simp [avarAt] at h

mutual
theorem mem_columns {path : Path} : ∀ {av : AVar}, avarAt root path = some av → ∀ {p : Path},
    p ∈ av.columns st path ↔ path <+: p ∧ IsColumn root st p
  | .module v avars, hav, p => by
    have hne : path ≠ [] := by
      rintro rfl
      simp [avarAt] at hav
    have hsub : ∀ k, avars[k]? = (avarsAt root path)[0 + k]? := fun k => by
      rw [avarsAt, if_neg (by simpa using hne), hav, Nat.zero_add]
      rfl
    refine (mem_columnsFrom hsub).trans ⟨fun ⟨⟨j, _, hj⟩, hp⟩ => ?_, fun ⟨hpre, hp⟩ => ?_⟩
    · exact ⟨((below_child path j).of_above hj).above, hp⟩
    · rcases prefix_iff_below.mp hpre with rfl | ⟨j, rest, rfl⟩
      · obtain ⟨v', n', hv', -⟩ := hp
        rw [hav] at hv'
        simp at hv'
      · exact ⟨⟨j, Nat.zero_le j, by simp⟩, hp⟩
  | .var v n, hav, p => by
    simp only [AVar.columns]
    constructor
    · intro hp
      split at hp
      · next hsrc =>
        obtain rfl := List.mem_singleton.mp hp
        exact ⟨List.prefix_rfl, v, n, hav, by simpa using hsrc⟩
      · simp at hp
    · rintro ⟨hpre, v', n', hv', hsrc⟩
      rcases prefix_iff_below.mp hpre with rfl | ⟨j, rest, rfl⟩
      · simp [hsrc]
      · rw [avarAt_append_cons hav] at hv'
        simp [AVar.avars, avarAt] at hv'

theorem mem_columnsFrom {m : Path} : ∀ {avars : List AVar} {i : Nat},
    (∀ k, avars[k]? = (avarsAt root m)[i + k]?) → ∀ {p : Path},
    p ∈ columnsFrom st m i avars ↔ (∃ j, i ≤ j ∧ m ++ [j] <+: p) ∧ IsColumn root st p
  | [], i, havars, p => by
    simp only [columnsFrom, List.not_mem_nil, false_iff]
    rintro ⟨⟨j, hij, hj⟩, v, n, hv, -⟩
    have hnone : (avarsAt root m)[j]? = none := by
      have := havars (j - i)
      rwa [Nat.add_sub_cancel' hij, eq_comm] at this
    rw [avarAt_of_prefix_none ((avarAt_child root m j).trans hnone) (by simp) hj] at hv
    simp at hv
  | av :: rest, i, havars, p => by
    have hav : avarAt root (m ++ [i]) = some av := (avarAt_child root m i).trans (havars 0).symm
    have hrest : ∀ k, rest[k]? = (avarsAt root m)[i + 1 + k]? := fun k => by
      rw [Nat.add_assoc, Nat.add_comm 1 k]
      exact havars (k + 1)
    rw [columnsFrom, List.mem_append, mem_columns hav, mem_columnsFrom hrest]
    constructor
    · rintro (⟨hi, hp⟩ | ⟨⟨j, hj, hjp⟩, hp⟩)
      · exact ⟨⟨i, Nat.le_refl i, hi⟩, hp⟩
      · exact ⟨⟨j, by omega, hjp⟩, hp⟩
    · rintro ⟨⟨j, hj, hjp⟩, hp⟩
      by_cases hij : i = j
      · exact .inl ⟨hij ▸ hjp, hp⟩
      · exact .inr ⟨⟨j, by omega, hjp⟩, hp⟩
end

mutual
theorem columns_nodup {path : Path} : ∀ {av : AVar}, avarAt root path = some av →
    (av.columns st path).Nodup
  | .module v avars, hav => by
    have hne : path ≠ [] := by
      rintro rfl
      simp [avarAt] at hav
    refine columnsFrom_nodup fun k => ?_
    rw [avarsAt, if_neg (by simpa using hne), hav, Nat.zero_add]
    rfl
  | .var v n, _ => by
    simp only [AVar.columns]
    split <;> simp

theorem columnsFrom_nodup {m : Path} : ∀ {avars : List AVar} {i : Nat},
    (∀ k, avars[k]? = (avarsAt root m)[i + k]?) → (columnsFrom st m i avars).Nodup
  | [], _, _ => List.nodup_nil
  | av :: rest, i, havars => by
    have hav : avarAt root (m ++ [i]) = some av := (avarAt_child root m i).trans (havars 0).symm
    have hrest : ∀ k, rest[k]? = (avarsAt root m)[i + 1 + k]? := fun k => by
      rw [Nat.add_assoc, Nat.add_comm 1 k]
      exact havars (k + 1)
    rw [columnsFrom]
    refine (columns_nodup hav).append (columnsFrom_nodup hrest) fun p hp hp' => ?_
    obtain ⟨⟨j, hj, hjp⟩, -⟩ := (mem_columnsFrom hrest).mp hp'
    exact not_prefix_both (by omega) ((mem_columns hav).mp hp).1 hjp
end

/-! ### The offsets of a compiled tree -/

/-- Offsets below `nvars`, one for each column, and 0 for everything else. -/
structure Numbered (root : List AVar) (st : Store) (nvars : Nat) : Prop where
  lt : ∀ p, (st p).offset < nvars
  zero : ∀ p, ¬ IsColumn root st p → (st p).offset = 0
  inj : ∀ p q, IsColumn root st p → IsColumn root st q → (st p).offset = (st q).offset → p = q
  time : IsColumn root st [0] ∧ (st [0]).offset = 0

/-- Nothing but the root's `time` is stored in its column. -/
theorem Numbered.ne_zero {nvars : Nat} (h : Numbered root st nvars) {p : Path}
    (hp : IsColumn root st p) (hne : p ≠ [0]) : (st p).offset ≠ 0 :=
  fun h0 => hne (h.inj p [0] hp h.time.1 (h0.trans h.time.2.symm))

theorem moduleAssignOffsets_spec {st' : Store} {nvars : Nat} (hz : ZeroOffsets st)
    (ht : IsColumn root st [0]) (h : moduleAssignOffsets [] 0 root (st, 0) = (st', nvars)) :
    Numbered root st' nvars ∧ ∀ p, st' p = (st p).setOffset (st' p).offset := by
  rw [moduleAssignOffsets_eq] at h
  have hmem : ∀ p, p ∈ columnsFrom st [] 0 root ↔ IsColumn root st p := by
    intro p
    refine (mem_columnsFrom (m := []) fun k => by rw [Nat.zero_add]; rfl).trans ?_
    refine ⟨And.right, fun hp => ⟨?_, hp⟩⟩
    cases p with
    | nil => exact absurd hp not_isColumn_nil
    | cons j rest => exact ⟨j, Nat.zero_le j, by simp⟩
  have hnodup : (columnsFrom st [] 0 root).Nodup :=
    columnsFrom_nodup (m := []) fun k => by rw [Nat.zero_add]; rfl
  have honly : ∀ p, st' p = (st p).setOffset (st' p).offset := fun p => by
    have := number_only_offset (columnsFrom st [] 0 root) (st, 0) p
    rwa [h] at this
  have hcol : ∀ p, IsColumn root st' p ↔ IsColumn root st p := fun p => by
    unfold IsColumn
    rw [honly p, AVarData.setOffset]
  have hoff : ∀ p, IsColumn root st p → (st' p).offset = (columnsFrom st [] 0 root).idxOf p := by
    intro p hp
    have := number_offset (r := (st, 0)) hnodup ((hmem p).mpr hp)
    rwa [h, Nat.zero_add] at this
  have hzero : ∀ p, ¬ IsColumn root st p → (st' p).offset = 0 := by
    intro p hp
    have := number_of_not_mem (r := (st, 0)) fun hc => hp ((hmem p).mp hc)
    rw [h] at this
    rw [show st' p = st p from this, hz]
  have hcount : nvars = (columnsFrom st [] 0 root).length := by
    have := number_count (columnsFrom st [] 0 root) (st, 0)
    rwa [h, Nat.zero_add] at this
  have hlt : ∀ p, IsColumn root st p → (st' p).offset < nvars := by
    intro p hp
    rw [hoff p hp, hcount]
    exact List.idxOf_lt_length_of_mem ((hmem p).mpr hp)
  -- `time` is the first child of the root, and so the first of the columns
  have htime : (st' [0]).offset = 0 := by
    rw [hoff [0] ht]
    obtain ⟨v, n, hv, hsrc⟩ := ht
    cases root with
    | nil => simp [avarAt] at hv
    | cons av rest =>
      obtain rfl : av = .var v n := by simpa [avarAt] using hv
      simp [columnsFrom, AVar.columns, hsrc]
  refine ⟨⟨fun p => ?_, fun p hp => hzero p fun hc => hp ((hcol p).mpr hc), fun p q hp hq hpq => ?_,
    (hcol _).mpr ht, htime⟩, honly⟩
  · by_cases hp : IsColumn root st p
    · exact hlt p hp
    · rw [hzero p hp]
      exact Nat.zero_lt_of_lt (hlt [0] ht)
  · rw [hcol] at hp hq
    rw [hoff p hp, hoff q hq] at hpq
    exact (List.idxOf_inj ((hmem p).mpr hp)).mp hpq

end Libsd

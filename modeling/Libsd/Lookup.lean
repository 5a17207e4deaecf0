/-
  Libsd/Lookup.lean
  =================
  **The graphical functions: what `lookup` returns.**

  The binary search keeps the invariant that the element before `low` is less than the
  index and the one at `high` is not, sorted or not (`lookupSearch_ok`).  With the two
  tests before it, an interpolation is always between two different abscissae
  (`lookup_cases`), and on nondecreasing abscissae the result is the polyline
  through the points (`lookup_polyline`).
-/
import Libsd.Lib.Polyline
import Libsd.Util
import Mathlib.Algebra.Order.Field.Rat

namespace Libsd

open Polyline

theorem elemAt_ok {xs : List ℚ} {i : Nat} (h : i < xs.length) : elemAt xs i = .ok xs[i] := by
  simp [elemAt, h]

/-! ### The binary search -/

/-- The search ends at the first element, if that is not less than the index, or
    behind one that is. -/
theorem lookupSearch_ok (x : List ℚ) (index : ℚ) : ∀ (fuel low high : Nat), high ≤ low + fuel →
    low ≤ high → high ≤ x.length →
    ∃ i, lookupSearch x index fuel low high = .ok i ∧ low ≤ i ∧ i ≤ high ∧
      (i = low ∨ ∃ v, x[i - 1]? = some v ∧ v < index) ∧
      (i = high ∨ ∃ v, x[i]? = some v ∧ ¬ v < index) := by
  intro fuel
  induction fuel with
  | zero =>
    intro low high hf hle hx
    refine ⟨low, by simp [lookupSearch, show ¬ low < high by omega], le_refl _, hle, .inl rfl, ?_⟩
    exact .inl (by omega)
  | succ fuel ih =>
    intro low high hf hle hx
    rw [lookupSearch]
    by_cases hlt : low < high
    · have hmid : low + (high - low) / 2 < x.length := by omega
      simp only [if_pos hlt, bind, Except.bind, elemAt_ok hmid]
      split_ifs with hm
      · obtain ⟨i, hi, hlo, hhi, h1, h2⟩ := ih (low + (high - low) / 2 + 1) high
          (by omega) (by omega) hx
        refine ⟨i, hi, by omega, hhi, ?_, h2⟩
        rcases h1 with h1 | h1
        · refine .inr ⟨_, ?_, hm⟩
          rw [h1, Nat.add_sub_cancel]
          exact List.getElem?_eq_getElem hmid
        · exact .inr h1
      · obtain ⟨i, hi, hlo, hhi, h1, h2⟩ := ih low (low + (high - low) / 2)
          (by omega) (by omega) (by omega)
        refine ⟨i, hi, hlo, by omega, h1, ?_⟩
        rcases h2 with h2 | h2
        · refine .inr ⟨_, ?_, hm⟩
          rw [h2]
          exact List.getElem?_eq_getElem hmid
        · exact .inr h2
    · refine ⟨low, by simp [hlt], le_refl _, hle, .inl rfl, .inl (by omega)⟩

/-- More turns than the search takes make no difference. -/
theorem lookupSearch_fuel {x : List ℚ} {index : ℚ} {i : Nat} : ∀ {fuel fuel' low high : Nat},
    lookupSearch x index fuel low high = .ok i → fuel ≤ fuel' →
    lookupSearch x index fuel' low high = .ok i := by
  intro fuel
  induction fuel with
  | zero =>
    intro fuel' low high h _
    rw [lookupSearch] at h
    split_ifs at h with hlt
    cases fuel' with
    | zero => rw [lookupSearch, if_neg hlt, h]
    | succ fuel' => rw [lookupSearch, if_neg hlt, h]
  | succ fuel ih =>
    intro fuel' low high h hle
    obtain ⟨fuel', rfl⟩ := Nat.exists_eq_add_of_le' (Nat.one_le_of_lt hle)
    rw [lookupSearch] at h ⊢
    split_ifs at h ⊢ with hlt
    · simp only [bind, Except.bind] at h ⊢
      cases hmid : elemAt x (low + (high - low) / 2) with
      | error e =>
        rw [hmid] at h
        cases h
      | ok xm =>
        rw [hmid] at h
        simp only at h ⊢
        split_ifs at h ⊢
        · exact ih h (Nat.le_of_succ_le_succ hle)
        · exact ih h (Nat.le_of_succ_le_succ hle)
    · exact h

/-! ### The branches of `lookup` -/

/-- The abscissae and ordinates of a table. -/
def Table.px (t : Table) (i : Nat) : ℚ := t.x.getD i 0

def Table.py (t : Table) (i : Nat) : ℚ := t.y.getD i 0

/-- `lookup` comes to the branch that computes a slope, with this `i`. -/
def Table.InterpolatesAt (t : Table) (index : ℚ) (i : Nat) : Prop :=
  t.px 0 ≤ index ∧ index ≤ t.px (t.len - 1) ∧
    lookupSearch t.x index t.len 0 t.len = .ok i ∧ t.px i ≠ index

section
variable {t : Table} {index : ℚ} {i : Nat}

theorem Table.elemAt_x (h : i < t.len) : elemAt t.x i = .ok (t.px i) := by
  have hx : i < t.x.length := h
  rw [elemAt_ok hx, Table.px, List.getD_eq_getElem?_getD, List.getElem?_eq_getElem hx,
    Option.getD_some]

theorem Table.elemAt_y (h : i < t.len) : elemAt t.y i = .ok (t.py i) := by
  have hy : i < t.y.length := t.len_eq ▸ h
  rw [elemAt_ok hy, Table.py, List.getD_eq_getElem?_getD, List.getElem?_eq_getElem hy,
    Option.getD_some]

/-- Between the first and the last abscissa the search stops in the table, and in front
    of the point it stops at the abscissae are less than the index. -/
theorem Table.search_ok (hlen : 1 ≤ t.len) (hlo : t.px 0 ≤ index) (hhi : index ≤ t.px (t.len - 1)) :
    ∃ i, lookupSearch t.x index t.len 0 t.len = .ok i ∧ i < t.len ∧ index ≤ t.px i ∧
      (t.px i = index ∨ 1 ≤ i) ∧ (1 ≤ i → t.px (i - 1) < index) := by
  have hget : ∀ {j : Nat} {v : ℚ}, t.x[j]? = some v → t.px j = v := fun {j v} hv => by
    rw [Table.px, List.getD_eq_getElem?_getD, hv, Option.getD_some]
  obtain ⟨i, hi, -, hle, h1, h2⟩ := lookupSearch_ok t.x index t.len 0 t.len
    (by omega) (by omega) (Nat.le_refl _)
  have hbefore : 1 ≤ i → t.px (i - 1) < index := by
    intro hpos
    rcases h1 with rfl | ⟨v, hv, hlt⟩
    · exact absurd hpos (by omega)
    · rwa [hget hv]
  have hin : i < t.len := by
    -- the last abscissa is not less than the index
    by_contra hend
    obtain rfl : i = t.len := by omega
    exact absurd (hbefore hlen) (not_lt.mpr hhi)
  have hat : index ≤ t.px i := by
    rcases h2 with rfl | ⟨v, hv, hge⟩
    · exact absurd hin (Nat.lt_irrefl _)
    · rw [hget hv]
      exact not_lt.mp hge
  refine ⟨i, hi, hin, hat, ?_, hbefore⟩
  rcases Nat.eq_zero_or_pos i with rfl | hpos
  · exact .inl (le_antisymm hlo hat)
  · exact .inr hpos

theorem Table.monotoneOn_px_iff (t : Table) :
    MonotoneOn t.px (Set.Iic (t.len - 1)) ↔ t.x.Pairwise (· ≤ ·) := by
  have hpx : ∀ {i : Nat} (hi : i < t.x.length), t.px i = t.x[i] := fun {i} hi => by
    rw [Table.px, List.getD_eq_getElem?_getD, List.getElem?_eq_getElem hi, Option.getD_some]
  rw [List.pairwise_iff_getElem]
  constructor
  · intro h i j hi hj hij
    rw [← hpx hi, ← hpx hj]
    have hlen : t.len = t.x.length := rfl
    exact h (Set.mem_Iic.mpr (by omega)) (Set.mem_Iic.mpr (by omega)) hij.le
  · intro h i hi j hj hij
    rcases Nat.eq_or_lt_of_le hij with rfl | hlt
    · exact le_rfl
    · have hj' : j < t.x.length := by
        have hlen : t.len = t.x.length := rfl
        have := Set.mem_Iic.mp hj
        omega
      rw [hpx hj', hpx (hlt.trans hj')]
      exact h i j (hlt.trans hj') hj' hlt

/-- The four ways through `lookup`. -/
theorem lookup_cases (index : ℚ) (hlen : 1 ≤ t.len) :
    (index < t.px 0 ∧ lookup t index = .ok (t.py 0)) ∨
    (t.px (t.len - 1) < index ∧ lookup t index = .ok (t.py (t.len - 1))) ∨
    (∃ i < t.len, t.px i = index ∧ (1 ≤ i → t.px (i - 1) < index) ∧ lookup t index = .ok (t.py i)) ∨
    (∃ i, i + 1 < t.len ∧ t.px i < index ∧ index < t.px (i + 1) ∧
      lookup t index = .ok (line t.px t.py i index)) := by
  have hne : t.len ≠ 0 := by omega
  have hlast : t.len - 1 < t.len := by omega
  simp only [lookup, if_neg hne, bind, Except.bind, Table.elemAt_x hlen, Table.elemAt_x hlast]
  by_cases hlow : index < t.px 0
  · rw [if_pos hlow, Table.elemAt_y hlen]
    exact .inl ⟨hlow, rfl⟩
  by_cases hhigh : t.px (t.len - 1) < index
  · rw [if_neg hlow, if_pos hhigh, Table.elemAt_y hlast]
    exact .inr (.inl ⟨hhigh, rfl⟩)
  obtain ⟨i, hi, hin, hat, hzero, hbefore⟩ :=
    Table.search_ok hlen (not_lt.mp hlow) (not_lt.mp hhigh)
  rw [if_neg hlow, if_neg hhigh, hi]
  simp only [Table.elemAt_x hin]
  by_cases heq : t.px i = index
  · rw [if_pos heq, Table.elemAt_y hin]
    exact .inr (.inr (.inl ⟨i, hin, heq, hbefore, rfl⟩))
  · have hpos : 1 ≤ i := hzero.resolve_left heq
    have hpred : i - 1 < t.len := by omega
    rw [if_neg heq, if_neg (by omega), Table.elemAt_y hin, Table.elemAt_y hpred]
    simp only [Table.elemAt_x hpred]
    refine .inr (.inr (.inr ⟨i - 1, by omega, hbefore hpos, ?_, ?_⟩))
    · rw [Nat.sub_add_cancel hpos]
      exact lt_of_le_of_ne hat (Ne.symm heq)
    · rw [line, Nat.sub_add_cancel hpos]
      rfl

theorem lookup_ok (t : Table) (index : ℚ) : ∃ v, lookup t index = .ok v := by
  rcases Nat.eq_zero_or_pos t.len with hzero | hlen
  · exact ⟨0, by simp only [lookup, if_pos hzero, pure, Except.pure]⟩
  rcases lookup_cases index hlen with ⟨-, h⟩ | ⟨-, h⟩ | ⟨i, -, -, -, h⟩ | ⟨i, -, -, -, h⟩
  · exact ⟨_, h⟩
  · exact ⟨_, h⟩
  · exact ⟨_, h⟩
  · exact ⟨_, h⟩

/-- On nondecreasing abscissae the result is the polyline through the points. -/
theorem lookup_polyline (hlen : 1 ≤ t.len) (hx : MonotoneOn t.px (Set.Iic (t.len - 1))) :
    lookup t index = .ok (polyline t.px t.py (t.len - 1) index) := by
  rcases lookup_cases index hlen with
    ⟨hlow, h⟩ | ⟨hhigh, h⟩ | ⟨i, hin, heq, hbefore, h⟩ | ⟨i, hin, hlo, hhi, h⟩
  · rw [h, polyline_of_le_first hx hlow.le]
  · rw [h, polyline_of_last_lt hx hhigh]
  · -- a knot ends the stretch in front of it
    rw [h]
    cases i with
    | zero => rw [polyline_of_le_first hx heq.ge]
    | succ i =>
      have hlt : t.px i < index := hbefore (Nat.succ_pos i)
      rw [polyline_of_mem hx (by omega) hlt heq.ge, ← heq, line_right (heq ▸ hlt)]
  · rw [h, polyline_of_mem hx (by omega) hlo hhi.le]

end

/-! ### The contract -/

/-- What `lookup` does with a table: the search ends, an interpolation is between two
    different abscissae, and on nondecreasing ones the value is that of the polyline. -/
structure LooksUp (t : Table) : Prop where
  terminates : ∀ index, ∃ i, ∀ fuel, t.len ≤ fuel → lookupSearch t.x index fuel 0 t.len = .ok i
  defined : ∀ index, ∃ v, lookup t index = .ok v
  interpolates : ∀ index i, t.InterpolatesAt index i →
    1 ≤ i ∧ i < t.len ∧ t.px (i - 1) < index ∧ index ≤ t.px i ∧ t.px i - t.px (i - 1) ≠ 0
  below : ∀ index, index < t.px 0 → lookup t index = .ok (t.py 0)
  above : ∀ index, t.px 0 ≤ index → t.px (t.len - 1) < index →
    lookup t index = .ok (t.py (t.len - 1))
  between : MonotoneOn t.px (Set.Iic (t.len - 1)) → ∀ index i, i + 1 < t.len → t.px i < index →
    index ≤ t.px (i + 1) → ∃ v, lookup t index = .ok v ∧ v = line t.px t.py i index ∧
      v ∈ Set.uIcc (t.py i) (t.py (i + 1))
  polyline : MonotoneOn t.px (Set.Iic (t.len - 1)) → ∀ index,
    lookup t index = .ok (polyline t.px t.py (t.len - 1) index)
  monotone : MonotoneOn t.px (Set.Iic (t.len - 1)) → MonotoneOn t.py (Set.Iic (t.len - 1)) →
    ∀ index index' v v', index ≤ index' → lookup t index = .ok v → lookup t index' = .ok v' → v ≤ v'

theorem lookup_looksUp (t : Table) (hlen : 1 ≤ t.len) : LooksUp t where
  terminates index := by
    obtain ⟨i, hi, -⟩ := lookupSearch_ok t.x index t.len 0 t.len (by omega)
      (by omega) (Nat.le_refl _)
    exact ⟨i, fun fuel hfuel => lookupSearch_fuel hi hfuel⟩
  defined index := lookup_ok t index
  interpolates index i := by
    rintro ⟨hlo, hhi, hsearch, hne⟩
    obtain ⟨j, hj, hin, hat, hzero, hbefore⟩ := Table.search_ok hlen hlo hhi
    obtain rfl : j = i := Except.ok.inj (hj.symm.trans hsearch)
    have hpos : 1 ≤ j := hzero.resolve_left hne
    have hlt : t.px (j - 1) < t.px j := (hbefore hpos).trans_le hat
    exact ⟨hpos, hin, hbefore hpos, hat, sub_ne_zero.mpr hlt.ne'⟩
  below index hlow := by
    have hne : t.len ≠ 0 := by omega
    have hlast : t.len - 1 < t.len := by omega
    simp only [lookup, if_neg hne, bind, Except.bind, Table.elemAt_x hlen, Table.elemAt_x hlast,
      if_pos hlow, Table.elemAt_y hlen]
  above index hlow hhigh := by
    have hne : t.len ≠ 0 := by omega
    have hlast : t.len - 1 < t.len := by omega
    simp only [lookup, if_neg hne, bind, Except.bind, Table.elemAt_x hlen, Table.elemAt_x hlast,
      if_neg (not_lt.mpr hlow), if_pos hhigh, Table.elemAt_y hlast]
  between hx index i hi hlo hhi := by
    refine ⟨_, lookup_polyline hlen hx, polyline_of_mem hx (by omega) hlo hhi, ?_⟩
    rw [polyline_of_mem hx (by omega) hlo hhi]
    exact line_mem_uIcc hlo hhi
  polyline hx _ := lookup_polyline hlen hx
  monotone hx hy index index' v v' hle hv hv' := by
    rw [lookup_polyline hlen hx] at hv hv'
    obtain rfl := Except.ok.inj hv
    obtain rfl := Except.ok.inj hv'
    exact polyline_monotone hy hle

/-- A table with a vertical step, where the first of the two points counts. -/
theorem lookup_looksUp_step :
    1 ≤ (Table.mk [0, 1, 1, 2] [0, 1, 5, 6] rfl).len ∧
      LooksUp (Table.mk [0, 1, 1, 2] [0, 1, 5, 6] rfl) :=
  ⟨by decide, lookup_looksUp _ (by decide)⟩

end Libsd

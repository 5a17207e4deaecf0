/-
  Libsd/Lib/Splits.lean
  =====================
  **The pieces of a text between the occurrences of a pattern.**

  The occurrences are taken from the left, and one that is found is passed over whole, so
  they do not overlap.  Every text has exactly one sequence of pieces
  (`exists_splits`, `Splits.unique`), and with the pattern between them they are the text
  again (`Splits.intercalate_eq`).
-/
import Mathlib.Data.List.Basic
import Mathlib.Data.Nat.Find

namespace Libsd

variable {α : Type}

/-- `Splits pat s ps`: the pieces of `s` are `ps`. -/
inductive Splits (pat : List α) : List α → List (List α) → Prop where
  | last {s : List α} (h : ¬ pat <:+: s) : Splits pat s [s]
  | cut {a t : List α} {ps : List (List α)}
      (hfirst : ∀ b u, a ++ (pat ++ t) = b ++ (pat ++ u) → a.length ≤ b.length)
      (ht : Splits pat t ps) : Splits pat (a ++ (pat ++ t)) (a :: ps)

variable {pat s : List α} {ps qs : List (List α)}

theorem Splits.ne_nil (h : Splits pat s ps) : ps ≠ [] := by
  cases h with
  | last => exact List.cons_ne_nil _ _
  | cut => exact List.cons_ne_nil _ _

theorem infix_cut (a t : List α) : pat <:+: a ++ (pat ++ t) := ⟨a, t, List.append_assoc a pat t⟩

/-- A text with an occurrence is cut at the first one. -/
theorem Splits.of_cut {a t : List α}
    (hfirst : ∀ b u, a ++ (pat ++ t) = b ++ (pat ++ u) → a.length ≤ b.length)
    (h : Splits pat (a ++ (pat ++ t)) ps) : ∃ qs, Splits pat t qs ∧ ps = a :: qs := by
  generalize hs : a ++ (pat ++ t) = s at h
  cases h with
  | last hno => exact absurd (hs ▸ infix_cut a t) hno
  | @cut b u qs hfirst' hu =>
    have hlen : a.length = b.length := Nat.le_antisymm (hfirst b u hs) (hfirst' a t hs.symm)
    obtain ⟨rfl, hrest⟩ := List.append_inj hs hlen
    obtain rfl : t = u := List.append_cancel_left hrest
    exact ⟨qs, hu, rfl⟩

theorem Splits.unique (hp : Splits pat s ps) (hq : Splits pat s qs) : qs = ps := by
  induction hp generalizing qs with
  | last hno =>
    cases hq with
    | last => rfl
    | cut => exact absurd (infix_cut _ _) hno
  | cut hfirst _ ih =>
    obtain ⟨rs, hrs, rfl⟩ := hq.of_cut hfirst
    rw [ih hrs]

/-- Where there is an occurrence, there is a first one. -/
theorem exists_first (h : pat <:+: s) : ∃ a t, s = a ++ (pat ++ t) ∧
    ∀ b u, s = b ++ (pat ++ u) → a.length ≤ b.length := by
  classical
  have hex : ∃ n, ∃ a t, s = a ++ (pat ++ t) ∧ a.length = n := by
    obtain ⟨a, t, rfl⟩ := h
    exact ⟨a.length, a, t, List.append_assoc a pat t, rfl⟩
  obtain ⟨a, t, hs, hlen⟩ := Nat.find_spec hex
  refine ⟨a, t, hs, fun b u hb => ?_⟩
  rw [hlen]
  exact Nat.find_min' hex ⟨b, u, hb, rfl⟩

theorem exists_splits (hpat : pat ≠ []) (s : List α) : ∃ ps, Splits pat s ps := by
  by_cases h : pat <:+: s
  · obtain ⟨a, t, rfl, hfirst⟩ := exists_first h
    have hlt : t.length < (a ++ (pat ++ t)).length := by
      have hpos := List.length_pos_iff.mpr hpat
      simp only [List.length_append]
      omega
    obtain ⟨ps, hps⟩ := exists_splits hpat t
    exact ⟨a :: ps, .cut hfirst hps⟩
  · exact ⟨[s], .last h⟩
termination_by s.length

theorem intercalate_cons (sep a : List α) (hps : ps ≠ []) :
    sep.intercalate (a :: ps) = a ++ (sep ++ sep.intercalate ps) := by
  rw [List.intercalate_cons_of_ne_nil hps, List.append_assoc]

theorem Splits.intercalate_eq (h : Splits pat s ps) : pat.intercalate ps = s := by
  induction h with
  | last => exact List.intercalate_singleton
  | cut _ ht ih => rw [intercalate_cons _ _ ht.ne_nil, ih]

theorem mem_intercalate {sep : List α} {x : α} (h : x ∈ sep.intercalate ps) :
    x ∈ sep ∨ ∃ p ∈ ps, x ∈ p := by
  induction ps with
  | nil => cases h
  | cons a ps ih =>
    rcases eq_or_ne ps [] with rfl | hne
    · rw [List.intercalate_singleton] at h
      exact .inr ⟨a, List.mem_cons_self, h⟩
    · rw [intercalate_cons _ _ hne, List.mem_append, List.mem_append] at h
      rcases h with h | h | h
      · exact .inr ⟨a, List.mem_cons_self, h⟩
      · exact .inl h
      · refine (ih h).imp_right ?_
        rintro ⟨p, hp, hx⟩
        exact ⟨p, List.mem_cons_of_mem a hp, hx⟩

/-- The pieces are parts of the text. -/
theorem Splits.mem_of_mem (h : Splits pat s ps) {p : List α} (hp : p ∈ ps) {x : α} (hx : x ∈ p) :
    x ∈ s := by
  induction h with
  | last =>
    obtain rfl := List.mem_singleton.mp hp
    exact hx
  | cut _ _ ih =>
    rcases List.mem_cons.mp hp with rfl | hp
    · exact List.mem_append_left _ hx
    · exact List.mem_append_right _ (List.mem_append_right _ (ih hp))

/-- A shorter separator makes a shorter text, where there is one. -/
theorem length_intercalate_lt {sep sep' : List α} (hlt : sep.length < sep'.length) {a : List α}
    (hps : ps ≠ []) : (sep.intercalate (a :: ps)).length < (sep'.intercalate (a :: ps)).length := by
  have hle : ∀ ps : List (List α), (sep.intercalate ps).length ≤ (sep'.intercalate ps).length := by
    intro ps
    induction ps with
    | nil => exact Nat.le_refl _
    | cons b ps ih =>
      rcases eq_or_ne ps [] with rfl | hne
      · simp only [List.intercalate_singleton, Nat.le_refl]
      · rw [intercalate_cons _ _ hne, intercalate_cons _ _ hne]
        simp only [List.length_append]
        omega
  rw [intercalate_cons _ _ hps, intercalate_cons _ _ hps]
  simp only [List.length_append]
  have := hle ps
  omega

end Libsd

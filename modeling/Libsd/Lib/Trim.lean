/-
  Libsd/Lib/Trim.lean
  ===================
  **Trimming a text in pieces.**

  `trim p` removes the blanks, the elements for which `p` is true, from both ends
  of a list.  A list that arrives in pieces can be trimmed piece by piece exactly
  when no cut that has text on both sides touches a blank (`flatten_map_trim_iff`).
-/
import Mathlib.Data.List.DropRight
import Mathlib.Data.List.TakeWhile

namespace Libsd.Trim

universe u
variable {α : Type u} (p : α → Bool)

def Blank (x : List α) : Prop := ∀ c ∈ x, p c = true

def trim (x : List α) : List α := (x.dropWhile p).rdropWhile p

/-- When there is text in both parts, the elements next to the cut are no blanks. -/
def Joins (x y : List α) : Prop :=
  ¬ Blank p x → ¬ Blank p y → (∀ c ∈ x.getLast?, p c = false) ∧ ∀ c ∈ y.head?, p c = false

variable {p} {x y : List α}

theorem blank_append : Blank p (x ++ y) ↔ Blank p x ∧ Blank p y := by
  simp only [Blank, List.mem_append, or_imp, forall_and]

theorem dropWhile_eq_nil_iff_blank : x.dropWhile p = [] ↔ Blank p x := List.dropWhile_eq_nil_iff

theorem rdropWhile_append_of_blank (h : Blank p y) : (x ++ y).rdropWhile p = x.rdropWhile p := by
  rw [List.rdropWhile, List.reverse_append, List.dropWhile_append_of_pos fun c hc =>
    h c (List.mem_reverse.mp hc), List.rdropWhile]

theorem rdropWhile_append_of_not_blank (h : ¬ Blank p y) :
    (x ++ y).rdropWhile p = x ++ y.rdropWhile p := by
  have hne : (y.reverse.dropWhile p).isEmpty = false := by
    rw [Bool.eq_false_iff, ne_eq, List.isEmpty_iff, dropWhile_eq_nil_iff_blank]
    exact fun hb => h fun c hc => hb c (List.mem_reverse.mpr hc)
  rw [List.rdropWhile, List.reverse_append, List.dropWhile_append, hne, if_neg Bool.false_ne_true,
    List.reverse_append, List.reverse_reverse, List.rdropWhile]

theorem dropWhile_append_of_not_blank (h : ¬ Blank p x) :
    (x ++ y).dropWhile p = x.dropWhile p ++ y := by
  have hne : (x.dropWhile p).isEmpty = false := by
    rw [Bool.eq_false_iff, ne_eq, List.isEmpty_iff, dropWhile_eq_nil_iff_blank]
    exact h
  rw [List.dropWhile_append, hne, if_neg Bool.false_ne_true]

theorem trim_of_blank (h : Blank p x) : trim p x = [] := by
  rw [trim, dropWhile_eq_nil_iff_blank.mpr h, List.rdropWhile_nil]

theorem trim_append_left (h : Blank p x) : trim p (x ++ y) = trim p y := by
  rw [trim, List.dropWhile_append_of_pos h, trim]

theorem trim_append_right (h : Blank p y) : trim p (x ++ y) = trim p x := by
  by_cases hx : Blank p x
  · rw [trim_append_left hx, trim_of_blank h, trim_of_blank hx]
  · rw [trim, dropWhile_append_of_not_blank hx, rdropWhile_append_of_blank h, trim]

theorem trim_append (hx : ¬ Blank p x) (hy : ¬ Blank p y) :
    trim p (x ++ y) = x.dropWhile p ++ y.rdropWhile p := by
  rw [trim, dropWhile_append_of_not_blank hx, rdropWhile_append_of_not_blank hy]

/-- What is left begins with the first element that is no blank. -/
theorem dropWhile_head (x : List α) : ∀ c ∈ (x.dropWhile p).head?, p c = false := by
  intro c hc
  have := List.head?_dropWhile_not p x
  rw [Option.mem_def.mp hc] at this
  simpa using this

theorem dropWhile_eq_self (h : ∀ c ∈ x.head?, p c = false) : x.dropWhile p = x := by
  cases x with
  | nil => rfl
  | cons c x => rw [List.dropWhile_cons_of_neg (by simp [h c rfl])]

theorem not_blank_dropWhile (h : ¬ Blank p x) : ¬ Blank p (x.dropWhile p) := by
  intro hb
  have := dropWhile_eq_nil_iff_blank.mpr hb
  rw [dropWhile_eq_self (dropWhile_head x), dropWhile_eq_nil_iff_blank] at this
  exact h this

/-- Trimming the end first gives the same. -/
theorem trim_eq (x : List α) : trim p x = (x.rdropWhile p).dropWhile p := by
  by_cases hx : Blank p x
  · rw [trim_of_blank hx, List.rdropWhile_eq_nil_iff.mpr hx, List.dropWhile_nil]
  · have hv := not_blank_dropWhile hx
    have hhead : ∀ c ∈ ((x.dropWhile p).rdropWhile p).head?, p c = false := by
      intro c hc
      refine dropWhile_head x c ?_
      obtain ⟨rest, hrest⟩ := List.rdropWhile_prefix p (x.dropWhile p)
      rw [← hrest, Option.mem_def, List.head?_append, Option.mem_def.mp hc]
      rfl
    conv_rhs => rw [← List.takeWhile_append_dropWhile (p := p) (l := x)]
    rw [rdropWhile_append_of_not_blank hv,
      List.dropWhile_append_of_pos fun c hc => List.mem_takeWhile_imp hc,
      dropWhile_eq_self hhead, trim]

theorem trim_append_sublist (x y : List α) :
    List.Sublist (trim p x ++ trim p y) (trim p (x ++ y)) := by
  by_cases hx : Blank p x
  · rw [trim_of_blank hx, trim_append_left hx, List.nil_append]
  · by_cases hy : Blank p y
    · rw [trim_of_blank hy, trim_append_right hy, List.append_nil]
    · rw [trim_append hx hy, trim_eq y]
      exact (List.rdropWhile_prefix p _).sublist.append (List.dropWhile_sublist p)

theorem getLast?_dropWhile (h : ¬ Blank p x) : (x.dropWhile p).getLast? = x.getLast? := by
  have hne : x.dropWhile p ≠ [] := fun he => h (dropWhile_eq_nil_iff_blank.mp he)
  conv_rhs => rw [← List.takeWhile_append_dropWhile (p := p) (l := x)]
  rw [List.getLast?_append_of_ne_nil _ hne]

theorem head?_rdropWhile (h : ¬ Blank p y) : (y.rdropWhile p).head? = y.head? := by
  have hne : y.rdropWhile p ≠ [] := fun he => h (List.rdropWhile_eq_nil_iff.mp he)
  obtain ⟨rest, hrest⟩ := List.rdropWhile_prefix p y
  conv_rhs => rw [← hrest]
  rw [List.head?_append_of_ne_nil _ hne]

theorem rdropWhile_eq_self_iff_last : x.rdropWhile p = x ↔ ∀ c ∈ x.getLast?, p c = false := by
  rw [List.rdropWhile_eq_self_iff]
  constructor
  · intro h c hc
    obtain ⟨hne, rfl⟩ := List.mem_getLast?_eq_getLast hc
    simpa using h hne
  · intro h hne
    simp [h _ (List.getLast_mem_getLast? hne)]

theorem dropWhile_eq_self_iff_head : x.dropWhile p = x ↔ ∀ c ∈ x.head?, p c = false :=
  ⟨fun h => h ▸ dropWhile_head x, dropWhile_eq_self⟩

/-- Two parts can be trimmed apart exactly when they join. -/
theorem trim_append_trim_iff : trim p x ++ trim p y = trim p (x ++ y) ↔ Joins p x y := by
  by_cases hx : Blank p x
  · rw [trim_of_blank hx, trim_append_left hx, List.nil_append]
    exact iff_of_true rfl fun h => absurd hx h
  · by_cases hy : Blank p y
    · rw [trim_of_blank hy, trim_append_right hy, List.append_nil]
      exact iff_of_true rfl fun _ h => absurd hy h
    · rw [Joins, imp_iff_right hx, imp_iff_right hy, ← getLast?_dropWhile hx, ← head?_rdropWhile hy,
        ← rdropWhile_eq_self_iff_last, ← dropWhile_eq_self_iff_head, trim_append hx hy,
        trim_eq y, trim]
      refine ⟨fun h => ?_, fun ⟨h1, h2⟩ => by rw [h1, h2]⟩
      -- neither part is longer than what it stands for
      have hlen := congrArg List.length h
      have h1 := (List.rdropWhile_prefix p (x.dropWhile p)).sublist
      have h2 := List.dropWhile_sublist p (l := y.rdropWhile p)
      simp only [List.length_append] at hlen
      exact ⟨h1.eq_of_length (by have := h1.length_le; have := h2.length_le; omega),
        h2.eq_of_length (by have := h1.length_le; have := h2.length_le; omega)⟩

/-! ### Any number of pieces -/

theorem flatten_map_trim_sublist (pieces : List (List α)) :
    List.Sublist (pieces.map (trim p)).flatten (trim p pieces.flatten) := by
  induction pieces with
  | nil => exact List.nil_sublist _
  | cons x rest ih =>
    rw [List.map_cons, List.flatten_cons, List.flatten_cons]
    exact (List.Sublist.append (List.Sublist.refl _) ih).trans (trim_append_sublist x rest.flatten)

/-- Every cut of the pieces joins. -/
def AllJoin (p : α → Bool) (pieces : List (List α)) : Prop :=
  ∀ l r, pieces = l ++ r → Joins p l.flatten r.flatten

theorem allJoin_cons {pieces : List (List α)} :
    AllJoin p (x :: pieces) ↔ Joins p x pieces.flatten ∧ AllJoin p pieces := by
  constructor
  · intro h
    refine ⟨by simpa using h [x] pieces rfl, fun l r hlr hl hr => ?_⟩
    have hcut := h (x :: l) r (by rw [hlr]; rfl) (fun hb => hl (blank_append.mp hb).2) hr
    refine ⟨fun c hc => hcut.1 c ?_, hcut.2⟩
    rw [List.flatten_cons, Option.mem_def, List.getLast?_append, Option.mem_def.mp hc]
    rfl
  · rintro ⟨hx, hrest⟩ l r hlr
    cases l with
    | nil => exact fun h => absurd (fun c hc => by simp at hc) h
    | cons a l =>
      obtain ⟨rfl, rfl⟩ : x = a ∧ pieces = l ++ r := List.cons.inj hlr
      intro hl hr
      rw [List.flatten_cons] at hl ⊢
      rw [List.flatten_append] at hx
      by_cases hbl : Blank p l.flatten
      · -- all the text is in `x`, so nothing can come between it and the cut
        have hbx : ¬ Blank p x := fun hb => hl (blank_append.mpr ⟨hb, hbl⟩)
        obtain ⟨hlast, hhead⟩ := hx hbx fun hb => hr (blank_append.mp hb).2
        have hnil : l.flatten = [] := by
          cases hf : l.flatten with
          | nil => rfl
          | cons c t =>
            rw [hf] at hbl hhead
            exact absurd (hbl c List.mem_cons_self) (by simp [hhead c rfl])
        rw [hnil, List.append_nil]
        rw [hnil, List.nil_append] at hhead
        exact ⟨hlast, hhead⟩
      · obtain ⟨hlast, hhead⟩ := hrest l r rfl hbl hr
        refine ⟨fun c hc => hlast c ?_, hhead⟩
        have hne : l.flatten ≠ [] := fun he => hbl (he ▸ fun c hc => by simp at hc)
        rwa [List.getLast?_append_of_ne_nil _ hne] at hc

/-- Trimming the pieces and joining them is trimming the whole exactly when no cut with
    text on both sides touches a blank. -/
theorem flatten_map_trim_iff (pieces : List (List α)) :
    (pieces.map (trim p)).flatten = trim p pieces.flatten ↔ AllJoin p pieces := by
  induction pieces with
  | nil =>
    refine iff_of_true rfl fun l r hlr => ?_
    obtain ⟨rfl, rfl⟩ := List.append_eq_nil_iff.mp hlr.symm
    exact fun h => absurd (fun c hc => by simp at hc) h
  | cons x rest ih =>
    rw [allJoin_cons, ← ih, ← trim_append_trim_iff, List.map_cons, List.flatten_cons,
      List.flatten_cons]
    refine ⟨fun h => ?_, fun ⟨h1, h2⟩ => by rw [h2, h1]⟩
    have hsub := flatten_map_trim_sublist (p := p) rest
    have hsub' := trim_append_sublist (p := p) x rest.flatten
    have hlen := congrArg List.length h
    have hle := hsub'.length_le
    rw [List.length_append] at hlen hle
    have hrest := hsub.eq_of_length (by have := hsub.length_le; omega)
    exact ⟨by rw [← h, hrest], hrest⟩

end Libsd.Trim

/-
  Libsd/Lib/Precedence.lean
  =========================
  **Operator precedence, for left-associative binary operators.**

  A precedence is a `rank` of the operators in a linear order, a lower rank
  binding tighter.  `Binds` says when a tree obeys it, and `eq_build` that the
  sequence of leaves and operators then leaves no choice: the tree is the one
  `build` grows by inserting one operator after another.  `build_eq_dual_iff`
  compares a precedence with the reversed one.
-/
import Mathlib.Order.OrderDual
import Mathlib.Data.List.Basic
import Mathlib.Order.Lattice

namespace Libsd.Precedence

universe u v w

inductive OpTree (O : Type u) (T : Type v) where
  | leaf (t : T)
  | node (op : O) (left right : OpTree O T)

variable {O : Type u} {T : Type v} {R : Type w} [LinearOrder R]

namespace OpTree

/-- The leftmost leaf. -/
def first : OpTree O T → T
  | leaf t => t
  | node _ l _ => l.first

/-- What follows the leftmost leaf, read from left to right. -/
def rest : OpTree O T → List (O × T)
  | leaf _ => []
  | node o l r => l.rest ++ (o, r.first) :: r.rest

/-- Every operator has only operators that bind at least as tightly on its left,
    and only strictly tighter ones on its right. -/
def Binds (rank : O → R) : OpTree O T → Prop
  | leaf _ => True
  | node o l r =>
    (∀ p ∈ l.rest, rank p.1 ≤ rank o) ∧ (∀ p ∈ r.rest, rank p.1 < rank o) ∧
      l.Binds rank ∧ r.Binds rank

/-- Append an operator and its right operand, descending the right spine past the
    operators that bind less tightly. -/
def ins (rank : O → R) : OpTree O T → O × T → OpTree O T
  | leaf x, q => node q.1 (leaf x) (leaf q.2)
  | node o l r, q =>
    if rank o ≤ rank q.1 then node q.1 (node o l r) (leaf q.2) else node o l (r.ins rank q)

end OpTree

open OpTree

/-- The tree of a sequence under a precedence. -/
def build (rank : O → R) (x : T) (qs : List (O × T)) : OpTree O T :=
  qs.foldl (ins rank) (leaf x)

variable (rank : O → R)

/-! ### Insertion -/

@[simp] theorem first_ins (t : OpTree O T) (q : O × T) : (t.ins rank q).first = t.first := by
  cases t with
  | leaf x => rfl
  | node o l r => by_cases h : rank o ≤ rank q.1 <;> simp [ins, h, first]

@[simp] theorem rest_ins (t : OpTree O T) (q : O × T) :
    (t.ins rank q).rest = t.rest ++ [q] := by
  induction t with
  | leaf x => rfl
  | node o l r _ ihr =>
    by_cases h : rank o ≤ rank q.1
    · simp [ins, h, rest, first]
    · simp [ins, h, rest, ihr]

theorem binds_ins {t : OpTree O T} (ht : t.Binds rank) (q : O × T) :
    (t.ins rank q).Binds rank := by
  induction t with
  | leaf x => simp [ins, Binds, rest]
  | node o l r _ ihr =>
    obtain ⟨hl, hr, hbl, hbr⟩ := ht
    by_cases h : rank o ≤ rank q.1
    · -- the new operator becomes the root: everything is on its left
      simp only [ins, if_pos h, Binds, rest, List.mem_append, List.mem_cons]
      refine ⟨?_, by simp, ⟨hl, hr, hbl, hbr⟩, trivial⟩
      rintro p (hp | rfl | hp)
      · exact (hl p hp).trans h
      · exact h
      · exact (hr p hp).le.trans h
    · simp only [ins, if_neg h, Binds, rest_ins, List.mem_append, List.mem_singleton]
      refine ⟨hl, ?_, hbl, ihr hbr⟩
      rintro p (hp | rfl)
      · exact hr p hp
      · exact not_le.mp h

/-- An operator that binds no tighter than any in the tree becomes its root. -/
theorem ins_eq_node {t : OpTree O T} {q : O × T} (h : ∀ p ∈ t.rest, rank p.1 ≤ rank q.1) :
    t.ins rank q = node q.1 t (leaf q.2) := by
  cases t with
  | leaf x => rfl
  | node o l r => exact if_pos (h (o, r.first) (by simp [rest]))

/-- Operators tighter than the root all go below it. -/
theorem foldl_ins_node (o : O) (l r : OpTree O T) (qs : List (O × T))
    (h : ∀ q ∈ qs, rank q.1 < rank o) :
    qs.foldl (ins rank) (node o l r) = node o l (qs.foldl (ins rank) r) := by
  induction qs generalizing r with
  | nil => rfl
  | cons q qs ih =>
    have hq : ¬ rank o ≤ rank q.1 := not_le.mpr (h q List.mem_cons_self)
    rw [List.foldl_cons, ins, if_neg hq, ih _ fun p hp => h p (List.mem_cons_of_mem _ hp)]
    rfl

/-! ### The built tree -/

@[simp] theorem first_foldl_ins (t : OpTree O T) (qs : List (O × T)) :
    (qs.foldl (ins rank) t).first = t.first := by
  induction qs generalizing t with
  | nil => rfl
  | cons q qs ih => rw [List.foldl_cons, ih, first_ins]

@[simp] theorem rest_foldl_ins (t : OpTree O T) (qs : List (O × T)) :
    (qs.foldl (ins rank) t).rest = t.rest ++ qs := by
  induction qs generalizing t with
  | nil => simp
  | cons q qs ih => rw [List.foldl_cons, ih, rest_ins, List.append_assoc, List.singleton_append]

@[simp] theorem first_build (x : T) (qs : List (O × T)) : (build rank x qs).first = x :=
  first_foldl_ins rank _ qs

@[simp] theorem rest_build (x : T) (qs : List (O × T)) : (build rank x qs).rest = qs :=
  rest_foldl_ins rank _ qs

theorem binds_build (x : T) (qs : List (O × T)) : (build rank x qs).Binds rank := by
  suffices h : ∀ t : OpTree O T, t.Binds rank → (qs.foldl (ins rank) t).Binds rank from
    h (leaf x) trivial
  induction qs with
  | nil => exact fun _ ht => ht
  | cons q qs ih => exact fun t ht => ih _ (binds_ins rank ht q)

/-- A sequence split at an operator that is loosest on its left and strictly
    loosest on its right: the operator is the root. -/
theorem foldl_ins_split {t : OpTree O T} {o : O} {y : T} {qs : List (O × T)}
    (ht : ∀ p ∈ t.rest, rank p.1 ≤ rank o) (hqs : ∀ q ∈ qs, rank q.1 < rank o) :
    ((o, y) :: qs).foldl (ins rank) t = node o t (build rank y qs) := by
  rw [List.foldl_cons, ins_eq_node rank ht, foldl_ins_node rank _ _ _ _ hqs]
  rfl

/-- A tree that obeys the precedence is the one built from its sequence. -/
theorem eq_build {t : OpTree O T} (ht : t.Binds rank) : t = build rank t.first t.rest := by
  induction t with
  | leaf x => rfl
  | node o l r ihl ihr =>
    obtain ⟨hl, hr, hbl, hbr⟩ := ht
    calc node o l r
        = node o l (build rank r.first r.rest) := by rw [← ihr hbr]
      _ = ((o, r.first) :: r.rest).foldl (ins rank) l := (foldl_ins_split rank hl hr).symm
      _ = ((o, r.first) :: r.rest).foldl (ins rank) (build rank l.first l.rest) := by
          rw [← ihl hbl]
      _ = build rank l.first (l.rest ++ (o, r.first) :: r.rest) := by
          rw [build, build, List.foldl_append]

/-! ### A precedence and its reversal -/

/-- The same operators with looser and tighter exchanged. -/
def reversed (o : O) : Rᵒᵈ := OrderDual.toDual (rank o)

variable {rank}

/-- A tree whose operators all have one rank obeys a precedence as soon as it
    obeys any: no operator can stand on the right of another. -/
theorem Binds.of_sameRank {R' : Type w} [LinearOrder R'] {rank' : O → R'} {t : OpTree O T}
    (ht : t.Binds rank) (h : ∀ p ∈ t.rest, ∀ q ∈ t.rest, rank p.1 = rank q.1)
    (h' : ∀ p ∈ t.rest, ∀ q ∈ t.rest, rank' p.1 = rank' q.1) : t.Binds rank' := by
  induction t with
  | leaf x => trivial
  | node o l r ihl _ =>
    obtain ⟨_, hr, hbl, hbr⟩ := ht
    simp only [rest, List.mem_append, List.mem_cons] at h h'
    have hleaf : r.rest = [] := by
      refine List.eq_nil_iff_forall_not_mem.mpr fun p hp => ?_
      exact (hr p hp).ne (h p (.inr (.inr hp)) (o, r.first) (.inr (.inl rfl)))
    refine ⟨fun p hp => (h' p (.inl hp) (o, r.first) (.inr (.inl rfl))).le, by simp [hleaf], ?_, ?_⟩
    · exact ihl hbl (fun p hp q hq => h p (.inl hp) q (.inl hq))
        (fun p hp q hq => h' p (.inl hp) q (.inl hq))
    · cases r with
      | leaf y => trivial
      | node => simp [rest] at hleaf

/-- A tree obeying a precedence and its reversal has operators of one rank only. -/
theorem sameRank_of_binds {t : OpTree O T} (ht : t.Binds rank) (ht' : t.Binds (reversed rank)) :
    ∀ p ∈ t.rest, ∀ q ∈ t.rest, rank p.1 = rank q.1 := by
  suffices hroot : ∀ (o : O) (l r : OpTree O T), (node o l r).Binds rank →
      (node o l r).Binds (reversed rank) → ∀ p ∈ (node o l r).rest, rank p.1 = rank o by
    cases t with
    | leaf x => simp [rest]
    | node o l r => exact fun p hp q hq =>
      (hroot o l r ht ht' p hp).trans (hroot o l r ht ht' q hq).symm
  rintro o l r ⟨hl, hr, -, -⟩ ⟨hl', hr', -, -⟩ p hp
  simp only [rest, List.mem_append, List.mem_cons] at hp
  rcases hp with hp | rfl | hp
  · exact le_antisymm (hl p hp) (OrderDual.toDual_le_toDual.mp (hl' p hp))
  · rfl
  · exact absurd (hr p hp) (OrderDual.toDual_lt_toDual.mp (hr' p hp)).not_gt

/-- The two precedences give one tree exactly to the sequences whose operators
    all have the same rank. -/
theorem build_eq_dual_iff (x : T) (qs : List (O × T)) :
    build (reversed rank) x qs = build rank x qs ↔ ∀ p ∈ qs, ∀ q ∈ qs, rank p.1 = rank q.1 := by
  constructor
  · intro h
    have hb := binds_build rank x qs
    have hb' := h ▸ binds_build (reversed rank) x qs
    simpa only [rest_build] using sameRank_of_binds hb hb'
  · intro h
    have hb : (build rank x qs).Binds (reversed rank) := by
      refine Binds.of_sameRank (binds_build rank x qs) (by simpa using h) ?_
      simpa [reversed] using h
    have := eq_build _ hb
    rw [first_build, rest_build] at this
    exact this.symm

end Libsd.Precedence

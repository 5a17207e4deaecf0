/-
  Libsd/Lib/Owners.lean
  =====================
  **Blocks of a heap that have one holder each.**

  `held x` is the block that the holder `x` points to.  With `Sound`, no block has two
  holders and every block that is held is allocated, so it can be read and freed; freeing
  a block, allocating one and handing one over keep it so.
-/
import Mathlib.Logic.Function.Basic

namespace Libsd.Owners

variable {X β : Type}

/-- The blocks that are allocated, with their contents, and the next name for one. -/
structure Heap (β : Type) where
  cells : Nat → Option β
  next : Nat

def Heap.empty : Heap β := { cells := fun _ => none, next := 0 }

def Heap.alloc (h : Heap β) (v : β) : Heap β :=
  { cells := Function.update h.cells h.next (some v), next := h.next + 1 }

/-- Freeing a block that is not allocated fails. -/
def Heap.free (h : Heap β) (b : Nat) : Option (Heap β) :=
  match h.cells b with
  | some _ => some { h with cells := Function.update h.cells b none }
  | none => none

structure Sound (held : X → Option Nat) (h : Heap β) : Prop where
  live : ∀ x b, held x = some b → ∃ v, h.cells b = some v
  apart : ∀ x y b, held x = some b → held y = some b → x = y
  fresh : ∀ b v, h.cells b = some v → b < h.next

variable {held : X → Option Nat} {h : Heap β}

theorem Sound.empty : Sound (fun _ : X => none) (Heap.empty : Heap β) where
  live _ _ hb := by cases hb
  apart _ _ _ hb := by cases hb
  fresh _ _ hv := by cases hv

variable [DecidableEq X]

/-- A holder that lets go of its block, freed or not. -/
theorem Sound.drop (hs : Sound held h) (x : X) : Sound (Function.update held x none) h := by
  have hold : ∀ y b, Function.update held x none y = some b → held y = some b := by
    intro y b hy
    by_cases hyx : y = x
    · subst hyx
      rw [Function.update_self] at hy
      cases hy
    · rwa [Function.update_of_ne hyx] at hy
  refine ⟨fun y b hy => hs.live y b (hold y b hy), fun y z b hy hz => ?_, hs.fresh⟩
  exact hs.apart y z b (hold y b hy) (hold z b hz)

/-- A block that is held can be freed, and the blocks of the others stay. -/
theorem Sound.free (hs : Sound held h) {x : X} {b : Nat} (hx : held x = some b) :
    ∃ h', h.free b = some h' ∧ Sound (Function.update held x none) h' ∧
      ∀ y c, y ≠ x → held y = some c → h'.cells c = h.cells c := by
  obtain ⟨v, hv⟩ := hs.live x b hx
  refine ⟨{ h with cells := Function.update h.cells b none }, by rw [Heap.free, hv], ?_, ?_⟩
  · have hdrop := hs.drop x
    refine ⟨fun y c hy => ?_, hdrop.apart, fun c w hw => ?_⟩
    · have hyx : y ≠ x := by
        rintro rfl
        rw [Function.update_self] at hy
        cases hy
      obtain ⟨w, hw⟩ := hdrop.live y c hy
      rw [Function.update_of_ne hyx] at hy
      have hcb : c ≠ b := by
        rintro rfl
        exact hyx (hs.apart y x c hy hx)
      exact ⟨w, (Function.update_of_ne hcb ..).trans hw⟩
    · have hcb : c ≠ b := by
        rintro rfl
        cases hw.symm.trans (Function.update_self c none h.cells)
      exact hs.fresh c w ((Function.update_of_ne hcb none h.cells).symm.trans hw)
  · intro y c hyx hy
    refine Function.update_of_ne ?_ ..
    rintro rfl
    exact hyx (hs.apart y x c hy hx)

theorem Heap.alloc_next (h : Heap β) (v : β) : (h.alloc v).cells h.next = some v :=
  Function.update_self ..

omit [DecidableEq X] in
/-- The blocks that are held keep their contents when one is allocated. -/
theorem Sound.alloc_of_held (hs : Sound held h) (v : β) {y : X} {c : Nat} (hy : held y = some c) :
    (h.alloc v).cells c = h.cells c := by
  obtain ⟨w, hw⟩ := hs.live y c hy
  refine Function.update_of_ne ?_ ..
  exact Nat.ne_of_lt (hs.fresh c w hw)

/-- A new block has one holder. -/
theorem Sound.alloc (hs : Sound held h) (x : X) (v : β) :
    Sound (Function.update held x (some h.next)) (h.alloc v) := by
  have hother : ∀ y, y ≠ x → ∀ b, Function.update held x (some h.next) y = some b →
      held y = some b ∧ b < h.next := by
    intro y hyx b hy
    rw [Function.update_of_ne hyx] at hy
    obtain ⟨w, hw⟩ := hs.live y b hy
    exact ⟨hy, hs.fresh b w hw⟩
  have hself : ∀ b, Function.update held x (some h.next) x = some b → b = h.next := by
    intro b hb
    rw [Function.update_self] at hb
    exact (Option.some.inj hb).symm
  refine ⟨fun y b hy => ?_, fun y z b hy hz => ?_, fun b w hw => ?_⟩
  · by_cases hyx : y = x
    · subst hyx
      obtain rfl := hself b hy
      exact ⟨v, h.alloc_next v⟩
    · obtain ⟨hy, -⟩ := hother y hyx b hy
      obtain ⟨w, hw⟩ := hs.live y b hy
      exact ⟨w, (hs.alloc_of_held v hy).trans hw⟩
  · by_cases hyx : y = x <;> by_cases hzx : z = x
    · exact hyx.trans hzx.symm
    · subst hyx
      exact absurd (hself b hy) (Nat.ne_of_lt (hother z hzx b hz).2)
    · subst hzx
      exact absurd (hself b hz) (Nat.ne_of_lt (hother y hyx b hy).2)
    · exact hs.apart y z b (hother y hyx b hy).1 (hother z hzx b hz).1
  · by_cases hb : b = h.next
    · rw [hb]
      exact Nat.lt_succ_self _
    · rw [show (h.alloc v).cells b = h.cells b from Function.update_of_ne hb ..] at hw
      exact Nat.lt_succ_of_lt (hs.fresh b w hw)

/-- A block is handed over. -/
theorem Sound.move (hs : Sound held h) {x y : X} (hxy : x ≠ y) :
    Sound (Function.update (Function.update held y (held x)) x none) h := by
  have hback : ∀ z b, Function.update (Function.update held y (held x)) x none z = some b →
      (z = y ∧ held x = some b) ∨ (z ≠ x ∧ z ≠ y ∧ held z = some b) := by
    intro z b hz
    by_cases hzx : z = x
    · rw [hzx, Function.update_self] at hz
      cases hz
    · rw [Function.update_of_ne hzx] at hz
      by_cases hzy : z = y
      · rw [hzy, Function.update_self] at hz
        exact .inl ⟨hzy, hz⟩
      · rw [Function.update_of_ne hzy] at hz
        exact .inr ⟨hzx, hzy, hz⟩
  refine ⟨fun z b hz => ?_, fun z w b hz hw => ?_, hs.fresh⟩
  · rcases hback z b hz with ⟨-, hb⟩ | ⟨-, -, hb⟩
    · exact hs.live x b hb
    · exact hs.live z b hb
  · rcases hback z b hz with ⟨rfl, hb⟩ | ⟨hzx, hzy, hb⟩
    · rcases hback w b hw with ⟨rfl, -⟩ | ⟨hwx, -, hb'⟩
      · rfl
      · exact absurd (hs.apart w x b hb' hb) hwx
    · rcases hback w b hw with ⟨rfl, hb'⟩ | ⟨-, -, hb'⟩
      · exact absurd (hs.apart z x b hb hb') hzx
      · exact hs.apart z w b hb hb'

end Libsd.Owners

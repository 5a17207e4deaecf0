/-
  Libsd/Lib/Region.lean
  =====================
  **The blocks that a heap consists of.**

  With `Region h L`, the blocks that are allocated are those in the list `L`, which has each of
  them once.  A list that is put together of parts says who has which blocks: what is allocated,
  written and freed is a block of one part, and the other parts keep theirs.
-/
import Libsd.Lib.Owners
import Mathlib.Data.List.Nodup
import Mathlib.Data.List.Perm.Basic

namespace Libsd.Owners

variable {β : Type}

structure Heap.Region (h : Heap β) (L : List Nat) : Prop where
  nodup : L.Nodup
  mem : ∀ b, b ∈ L ↔ ∃ v, h.cells b = some v
  fresh : ∀ b ∈ L, b < h.next

/-- Writing to a block that is not allocated fails. -/
def Heap.write (h : Heap β) (b : Nat) (v : β) : Option (Heap β) :=
  match h.cells b with
  | some _ => some { h with cells := Function.update h.cells b (some v) }
  | none => none

/-- The blocks in the list are the same in both heaps. -/
def SameCells (L : List Nat) (h h' : Heap β) : Prop := ∀ b ∈ L, h'.cells b = h.cells b

variable {h h' h'' : Heap β} {L L' : List Nat}

theorem SameCells.refl : SameCells L h h := fun _ _ => rfl

theorem SameCells.trans (hs : SameCells L h h') (hs' : SameCells L h' h'') : SameCells L h h'' :=
  fun b hb => (hs' b hb).trans (hs b hb)

theorem SameCells.mono (hs : SameCells L h h') (hL : ∀ b ∈ L', b ∈ L) : SameCells L' h h' :=
  fun b hb => hs b (hL b hb)

theorem Heap.Region.empty : (Heap.empty : Heap β).Region [] where
  nodup := List.nodup_nil
  mem b := by simp [Heap.empty]
  fresh b hb := by cases hb

theorem Heap.Region.perm (hr : h.Region L) (hp : L.Perm L') : h.Region L' :=
  ⟨hp.nodup_iff.mp hr.nodup, fun b => hp.mem_iff.symm.trans (hr.mem b),
    fun b hb => hr.fresh b (hp.mem_iff.mpr hb)⟩

theorem Heap.Region.next_not_mem (hr : h.Region L) : h.next ∉ L :=
  fun hmem => Nat.lt_irrefl _ (hr.fresh h.next hmem)

theorem Heap.Region.alloc (hr : h.Region L) (v : β) :
    (h.alloc v).Region (h.next :: L) ∧ SameCells L h (h.alloc v) ∧
      (h.alloc v).cells h.next = some v := by
  have hne : ∀ b ∈ L, b ≠ h.next := fun b hb he => hr.next_not_mem (he ▸ hb)
  have hsame : SameCells L h (h.alloc v) := fun b hb => Function.update_of_ne (hne b hb) ..
  refine ⟨⟨List.nodup_cons.mpr ⟨hr.next_not_mem, hr.nodup⟩, fun b => ?_, fun b hb => ?_⟩, hsame,
    Function.update_self ..⟩
  · by_cases hb : b = h.next
    · subst hb
      exact ⟨fun _ => ⟨v, Function.update_self ..⟩, fun _ => List.mem_cons_self⟩
    · have hcell : (h.alloc v).cells b = h.cells b := Function.update_of_ne hb ..
      rw [hcell, List.mem_cons, ← hr.mem b]
      exact or_iff_right hb
  · rcases List.mem_cons.mp hb with rfl | hb
    · exact Nat.lt_succ_self _
    · exact Nat.lt_succ_of_lt (hr.fresh b hb)

theorem Heap.Region.write {b : Nat} (hr : h.Region L) (hb : b ∈ L) (v : β) :
    ∃ h', h.write b v = some h' ∧ h'.Region L ∧ (∀ c, c ≠ b → h'.cells c = h.cells c) ∧
      h'.cells b = some v := by
  obtain ⟨w, hw⟩ := (hr.mem b).mp hb
  have hne : ∀ c, c ≠ b → Function.update h.cells b (some v) c = h.cells c :=
    fun c hc => Function.update_of_ne hc ..
  refine ⟨{ h with cells := Function.update h.cells b (some v) }, by rw [Heap.write, hw],
    ⟨hr.nodup, fun c => ?_, hr.fresh⟩, hne, Function.update_self ..⟩
  by_cases hc : c = b
  · subst hc
    exact ⟨fun _ => ⟨v, Function.update_self ..⟩, fun _ => hb⟩
  · rw [hr.mem c]
    exact (hne c hc).symm ▸ Iff.rfl

theorem Heap.Region.free {b : Nat} (hr : h.Region (b :: L)) :
    ∃ h', h.free b = some h' ∧ h'.Region L ∧ SameCells L h h' ∧ h'.next = h.next := by
  obtain ⟨v, hv⟩ := (hr.mem b).mp List.mem_cons_self
  obtain ⟨hnot, hnodup⟩ := List.nodup_cons.mp hr.nodup
  have hne : ∀ c, c ≠ b → Function.update h.cells b none c = h.cells c :=
    fun c hc => Function.update_of_ne hc ..
  refine ⟨{ h with cells := Function.update h.cells b none }, by rw [Heap.free, hv],
    ⟨hnodup, fun c => ?_, fun c hc => hr.fresh c (List.mem_cons_of_mem b hc)⟩,
    fun c hc => hne c fun he => hnot (he ▸ hc), rfl⟩
  by_cases hc : c = b
  · subst hc
    refine ⟨fun hmem => absurd hmem hnot, ?_⟩
    rintro ⟨w, hw⟩
    cases hw.symm.trans (Function.update_self c none h.cells)
  · rw [show ({ h with cells := Function.update h.cells b none } : Heap β).cells c = h.cells c from
      hne c hc, ← hr.mem c, List.mem_cons]
    exact (or_iff_right hc).symm

end Libsd.Owners

/-
  Libsd/Lib/RoseTree.lean
  =======================
  **Trees with their children in a row, and the order of their nodes.**

  `preorder` lists each node before those below it, and those from left to right.  What
  holds of every subtree is `Everywhere`.
-/
import Mathlib.Data.List.Basic

namespace Libsd

universe u

/-- A label, and the children in order. -/
inductive RoseTree (α : Type u) where
  | node (label : α) (children : List (RoseTree α))

namespace RoseTree

variable {α : Type u}

def label : RoseTree α → α
  | node a _ => a

mutual
/-- The labels, each before those below it. -/
def preorder : RoseTree α → List α
  | node a ts => a :: preorders ts

def preorders : List (RoseTree α) → List α
  | [] => []
  | t :: ts => preorder t ++ preorders ts
end

theorem label_mem_preorder (t : RoseTree α) : t.label ∈ t.preorder := by
  cases t with
  | node a ts => exact List.mem_cons_self

mutual
/-- `P` holds at every node. -/
def Everywhere (P : RoseTree α → Prop) : RoseTree α → Prop
  | node a ts => P (node a ts) ∧ EverywhereIn P ts

def EverywhereIn (P : RoseTree α → Prop) : List (RoseTree α) → Prop
  | [] => True
  | t :: ts => Everywhere P t ∧ EverywhereIn P ts
end

mutual
theorem Everywhere.of_mem {P : RoseTree α → Prop} : ∀ {t : RoseTree α}, t.Everywhere P →
    ∀ {a : α}, a ∈ t.preorder → ∃ ts, P (node a ts)
  | node b ts, h, a, ha => by
    rcases List.mem_cons.mp ha with rfl | ha
    · exact ⟨ts, h.1⟩
    · exact EverywhereIn.of_mem ts h.2 ha

theorem EverywhereIn.of_mem {P : RoseTree α → Prop} : ∀ (ts : List (RoseTree α)),
    EverywhereIn P ts → ∀ {a : α}, a ∈ preorders ts → ∃ us, P (node a us)
  | [], _, a, ha => absurd ha List.not_mem_nil
  | t :: ts, h, a, ha => by
    rcases List.mem_append.mp ha with ha | ha
    · exact h.1.of_mem ha
    · exact EverywhereIn.of_mem ts h.2 ha
end

end RoseTree

end Libsd

/-
  Libsd/Lib/Block.lean
  ====================
  **A block of memory that is written in place.**

  A block is the list of its cells.  A write that does not fit into it fails, and so does
  reading a string that no terminator ends.
-/
import Mathlib.Data.List.TakeWhile

namespace Libsd.Block

variable {β : Type}

/-- The cells from `i` on are overwritten. -/
def store (b : List β) (i : Nat) (vs : List β) : Option (List β) :=
  if i + vs.length ≤ b.length then some (b.take i ++ (vs ++ b.drop (i + vs.length))) else none

/-- What is written behind the first cells lies over the front of the others. -/
theorem store_append (pre post vs : List β) (h : vs.length ≤ post.length) :
    store (pre ++ post) pre.length vs = some (pre ++ (vs ++ post.drop vs.length)) := by
  have hfits : pre.length + vs.length ≤ (pre ++ post).length := by
    rw [List.length_append]
    exact Nat.add_le_add_left h _
  have hdrop : (pre ++ post).drop (pre.length + vs.length) = post.drop vs.length := by
    rw [← List.drop_drop, List.drop_left]
  rw [store, if_pos hfits, List.take_left, hdrop]

/-- `realloc`: new cells have whatever was there. -/
def resize (fresh : Nat → β) (b : List β) (n : Nat) : List β :=
  (List.range n).map fun i => b.getD i (fresh i)

section
variable [DecidableEq β] (nul : β)

/-- The string that starts at `i`. -/
def stringAt (b : List β) (i : Nat) : Option (List β) :=
  if nul ∈ b.drop i then some ((b.drop i).takeWhile fun v => v ≠ nul) else none

theorem stringAt_append (pre s post : List β) (h : nul ∉ s) :
    stringAt nul (pre ++ (s ++ nul :: post)) pre.length = some s := by
  have hmem : nul ∈ s ++ nul :: post := List.mem_append_right _ List.mem_cons_self
  have hs : s.takeWhile (fun v => v ≠ nul) = s := by
    rw [List.takeWhile_eq_self_iff]
    exact fun v hv => by simpa using fun hvn : v = nul => h (hvn ▸ hv)
  rw [stringAt, List.drop_left, if_pos hmem, List.takeWhile_append, hs, if_pos rfl,
    List.takeWhile_cons_of_neg (by simp), List.append_nil]

theorem stringAt_start (s post : List β) (h : nul ∉ s) :
    stringAt nul (s ++ nul :: post) 0 = some s :=
  stringAt_append nul [] s post h

end

end Libsd.Block

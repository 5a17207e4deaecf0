/-
  Libsd/Node.lean
  ===============
  **Expression trees.**

  One constructor stands for one `NodeType`, with the fields of `Node_s` that
  type uses, and `null` for the NULL pointer.  What the tree-walk over a parsed
  equation fills in later starts out as `calloc` leaves it: `fval` 0, `av` and
  `fn` NULL.  A pointer to an `AVar` is its address in the instance tree, the
  list of positions from the root.
-/
import Libsd.Basic

namespace Libsd

/-- Where an `AVar` is in the instance tree. -/
abbrev Path := List Nat

/-- The runtime functions that `RT_FNS` can put in a call node. -/
inductive Fn where
  | pulse | min | max
deriving DecidableEq, Repr

inductive Node where
  | null
  | paren (left : Node)
  | floatlit (sval : CStr) (fval : ℚ)
  | ident (sval : CStr) (av : Option Path)
  | call (left : Node) (args : List Node) (fn : Option Fn)
  | binary (op : Nat) (left right : Node)
  | unary (op : Nat) (left : Node)
  | ifElse (cond left right : Node)
deriving Repr

namespace Node

def isNull : Node → Bool
  | null => true
  | _ => false

/-- `av->is_const` is set for a node of this kind. -/
def isFloatlit : Node → Bool
  | floatlit _ _ => true
  | _ => false

/-- `n->sval`, where the node is not NULL; the types without a text leave it NULL. -/
def sval : Node → Option CStr
  | floatlit s _ => some s
  | ident s _ => some s
  | _ => none

mutual
/-- Equality of trees as a test. -/
def beq : Node → Node → Bool
  | null, null => true
  | paren a, paren b => beq a b
  | floatlit s v, floatlit s' v' => s == s' && v == v'
  | ident s p, ident s' p' => s == s' && p == p'
  | call f as g, call f' as' g' => beq f f' && beqArgs as as' && g == g'
  | binary o a b, binary o' a' b' => o == o' && beq a a' && beq b b'
  | unary o a, unary o' a' => o == o' && beq a a'
  | ifElse c a b, ifElse c' a' b' => beq c c' && beq a a' && beq b b'
  | _, _ => false
def beqArgs : List Node → List Node → Bool
  | [], [] => true
  | a :: as, b :: bs => beq a b && beqArgs as bs
  | _, _ => false
end

mutual
theorem beq_self : ∀ n : Node, beq n n = true
  | null => rfl
  | paren a => by simp only [beq, beq_self a]
  | floatlit _ _ => by simp [beq]
  | ident _ _ => by simp [beq]
  | call f as _ => by simp [beq, beq_self f, beqArgs_self as]
  | binary _ a b => by simp [beq, beq_self a, beq_self b]
  | unary _ a => by simp [beq, beq_self a]
  | ifElse c a b => by simp [beq, beq_self c, beq_self a, beq_self b]
theorem beqArgs_self : ∀ as : List Node, beqArgs as as = true
  | [] => rfl
  | a :: as => by simp [beqArgs, beq_self a, beqArgs_self as]
end

mutual
theorem eq_of_beq_eq : ∀ {a b : Node}, beq a b = true → a = b
  | null, b, h => by cases b <;> simp_all [beq]
  | paren a, b, h => by
    cases b <;> simp only [beq, Bool.false_eq_true] at h
    rw [eq_of_beq_eq h]
  | floatlit _ _, b, h => by cases b <;> simp_all [beq]
  | ident _ _, b, h => by cases b <;> simp_all [beq]
  | call f as g, b, h => by
    cases b <;> simp only [beq, Bool.and_eq_true, beq_iff_eq, Bool.false_eq_true] at h
    rw [eq_of_beq_eq h.1.1, eq_of_beqArgs_eq h.1.2, h.2]
  | binary o a a', b, h => by
    cases b <;> simp only [beq, Bool.and_eq_true, beq_iff_eq, Bool.false_eq_true] at h
    rw [h.1.1, eq_of_beq_eq h.1.2, eq_of_beq_eq h.2]
  | unary o a, b, h => by
    cases b <;> simp only [beq, Bool.and_eq_true, beq_iff_eq, Bool.false_eq_true] at h
    rw [h.1, eq_of_beq_eq h.2]
  | ifElse c a a', b, h => by
    cases b <;> simp only [beq, Bool.and_eq_true, Bool.false_eq_true] at h
    rw [eq_of_beq_eq h.1.1, eq_of_beq_eq h.1.2, eq_of_beq_eq h.2]
theorem eq_of_beqArgs_eq : ∀ {as bs : List Node}, beqArgs as bs = true → as = bs
  | [], bs, h => by cases bs <;> simp_all [beqArgs]
  | a :: as, bs, h => by
    cases bs <;> simp only [beqArgs, Bool.and_eq_true, Bool.false_eq_true] at h
    rw [eq_of_beq_eq h.1, eq_of_beqArgs_eq h.2]
end

instance : DecidableEq Node := fun a b =>
  decidable_of_iff (beq a b = true) ⟨eq_of_beq_eq, fun h => h ▸ beq_self a⟩

/-! ### What holds of all nodes of a tree -/

mutual
/-- `P` holds of a tree and of everything in it, the names of functions left out. -/
def Everywhere (P : Node → Prop) : Node → Prop
  | null => P null
  | paren l => P (paren l) ∧ Everywhere P l
  | floatlit s v => P (floatlit s v)
  | ident s av => P (ident s av)
  | call l args fn => P (call l args fn) ∧ EverywhereArgs P args
  | binary op l r => P (binary op l r) ∧ Everywhere P l ∧ Everywhere P r
  | unary op l => P (unary op l) ∧ Everywhere P l
  | ifElse c l r => P (ifElse c l r) ∧ Everywhere P c ∧ Everywhere P l ∧ Everywhere P r

def EverywhereArgs (P : Node → Prop) : List Node → Prop
  | [] => True
  | a :: args => Everywhere P a ∧ EverywhereArgs P args
end

mutual
theorem Everywhere.imp {P Q : Node → Prop} (hPQ : ∀ m, P m → Q m) :
    ∀ {n : Node}, n.Everywhere P → n.Everywhere Q
  | null, h => hPQ _ h
  | paren _, h => ⟨hPQ _ h.1, h.2.imp hPQ⟩
  | floatlit _ _, h => hPQ _ h
  | ident _ _, h => hPQ _ h
  | call _ _ _, h => ⟨hPQ _ h.1, h.2.imp hPQ⟩
  | binary _ _ _, h => ⟨hPQ _ h.1, h.2.1.imp hPQ, h.2.2.imp hPQ⟩
  | unary _ _, h => ⟨hPQ _ h.1, h.2.imp hPQ⟩
  | ifElse _ _ _, h => ⟨hPQ _ h.1, h.2.1.imp hPQ, h.2.2.1.imp hPQ, h.2.2.2.imp hPQ⟩

theorem EverywhereArgs.imp {P Q : Node → Prop} (hPQ : ∀ m, P m → Q m) :
    ∀ {args : List Node}, EverywhereArgs P args → EverywhereArgs Q args
  | [], _ => trivial
  | _ :: _, h => ⟨h.1.imp hPQ, h.2.imp hPQ⟩
end

mutual
theorem Everywhere.and {P Q : Node → Prop} : ∀ {n : Node}, n.Everywhere P → n.Everywhere Q →
    n.Everywhere fun m => P m ∧ Q m
  | null, hp, hq => ⟨hp, hq⟩
  | paren _, hp, hq => ⟨⟨hp.1, hq.1⟩, hp.2.and hq.2⟩
  | floatlit _ _, hp, hq => ⟨hp, hq⟩
  | ident _ _, hp, hq => ⟨hp, hq⟩
  | call _ _ _, hp, hq => ⟨⟨hp.1, hq.1⟩, hp.2.and hq.2⟩
  | binary _ _ _, hp, hq => ⟨⟨hp.1, hq.1⟩, hp.2.1.and hq.2.1, hp.2.2.and hq.2.2⟩
  | unary _ _, hp, hq => ⟨⟨hp.1, hq.1⟩, hp.2.and hq.2⟩
  | ifElse _ _ _, hp, hq =>
    ⟨⟨hp.1, hq.1⟩, hp.2.1.and hq.2.1, hp.2.2.1.and hq.2.2.1, hp.2.2.2.and hq.2.2.2⟩

theorem EverywhereArgs.and {P Q : Node → Prop} : ∀ {args : List Node}, EverywhereArgs P args →
    EverywhereArgs Q args → EverywhereArgs (fun m => P m ∧ Q m) args
  | [], _, _ => trivial
  | _ :: _, hp, hq => ⟨hp.1.and hq.1, hp.2.and hq.2⟩
end

theorem Everywhere.self {P : Node → Prop} {n : Node} (h : n.Everywhere P) : P n := by
  cases n with
  | null => exact h
  | floatlit | ident => exact h
  | paren | call | binary | unary | ifElse => exact h.1

mutual
/-- What holds of all nodes of a tree holds of all nodes of each of its parts. -/
theorem Everywhere.parts {P : Node → Prop} : ∀ {n : Node}, n.Everywhere P →
    n.Everywhere fun m => m.Everywhere P
  | null, h => h
  | paren _, h => ⟨h, h.2.parts⟩
  | floatlit _ _, h => h
  | ident _ _, h => h
  | call _ _ _, h => ⟨h, h.2.parts⟩
  | binary _ _ _, h => ⟨h, h.2.1.parts, h.2.2.parts⟩
  | unary _ _, h => ⟨h, h.2.parts⟩
  | ifElse _ _ _, h => ⟨h, h.2.1.parts, h.2.2.1.parts, h.2.2.2.parts⟩

theorem EverywhereArgs.parts {P : Node → Prop} : ∀ {args : List Node}, EverywhereArgs P args →
    EverywhereArgs (fun m => m.Everywhere P) args
  | [], _ => trivial
  | _ :: _, h => ⟨h.1.parts, h.2.parts⟩
end

end Node

end Libsd

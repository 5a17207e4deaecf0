/-
  Libsd/Lib/RefHeap.lean
  ======================
  **Reference-counted objects that hold one another.**

  An object has a count, a value, and the objects it holds.  Giving back the last
  reference to an object gives back those to the objects it holds, and releases it
  (`unref`).  In a *forest* every object is held once, by a root or by its parent
  (`Forest`).  Then each count is the number of owners (`Forest.refcount_eq_owners`),
  giving back a root releases its tree and nothing else (`Forest.drop`), and a root can
  become the child of another (`Forest.adopt`).
-/
import Libsd.Lib.Outcome
import Mathlib.Algebra.BigOperators.Group.Finset.Basic
import Mathlib.Algebra.Ring.Nat
import Mathlib.Data.Finset.Range
import Mathlib.Data.List.Nodup

namespace Libsd.RefHeap

structure Cell (α : Type) where
  refcount : Int
  val : α
  children : List Nat

/-- Objects are numbered as they are allocated; `released` counts how often each has been
    released. -/
structure Heap (α : Type) where
  cells : Nat → Option (Cell α)
  next : Nat
  released : Nat → Nat

inductive Fault where
  | dangling           -- an object is accessed that has been released, or never allocated
  | diverge            -- the recursion outruns the bound it is given
deriving DecidableEq, Repr

variable {α : Type}

namespace Heap

def empty : Heap α := { cells := fun _ => none, next := 0, released := fun _ => 0 }

def put (h : Heap α) (p : Nat) (c : Cell α) : Heap α :=
  { h with cells := Function.update h.cells p (some c) }

def get (h : Heap α) (p : Nat) : Except Fault (Cell α) :=
  match h.cells p with
  | some c => .ok c
  | none => .error .dangling

/-- A new object, at `h.next`, with one reference to it. -/
def alloc (h : Heap α) (val : α) : Heap α :=
  { h.put h.next { refcount := 1, val := val, children := [] } with next := h.next + 1 }

def ref (h : Heap α) (p : Nat) : Except Fault (Heap α) := do
  let c ← h.get p
  return h.put p { c with refcount := c.refcount + 1 }

def setVal (h : Heap α) (p : Nat) (val : α) : Except Fault (Heap α) := do
  let c ← h.get p
  return h.put p { c with val := val }

def addChild (h : Heap α) (p q : Nat) : Except Fault (Heap α) := do
  let c ← h.get p
  return h.put p { c with children := c.children ++ [q] }

def free (h : Heap α) (p : Nat) : Heap α :=
  { h with
    cells := Function.update h.cells p none
    released := Function.update h.released p (h.released p + 1) }

def unrefAll (unref : Heap α → Nat → Except Fault (Heap α)) :
    List Nat → Heap α → Except Fault (Heap α)
  | [], h => .ok h
  | p :: ps, h => do
    let h ← unref h p
    unrefAll unref ps h

def unref : Nat → Heap α → Nat → Except Fault (Heap α)
  | 0, _, _ => .error .diverge
  | fuel + 1, h, p => do
    let c ← h.get p
    let h := h.put p { c with refcount := c.refcount - 1 }
    if c.refcount - 1 ≠ 0 then return h
    else
      let h ← unrefAll (unref fuel) c.children h
      return h.free p

/-- The references to `p`: those given out, in `roots`, and those that objects hold. -/
def owners (h : Heap α) (roots : List Nat) (p : Nat) : Nat :=
  roots.count p + (Finset.range h.next).sum fun q =>
    match h.cells q with
    | some c => c.children.count p
    | none => 0

/-- All of `ps` have been released. -/
def release (h : Heap α) (ps : List Nat) : Heap α :=
  { h with
    cells := fun p => if p ∈ ps then none else h.cells p
    released := fun p => h.released p + ps.count p }

theorem get_of_cells {h : Heap α} {p : Nat} {c : Cell α} (hc : h.cells p = some c) :
    h.get p = .ok c := by
  rw [get, hc]

theorem ref_next {h h' : Heap α} {p : Nat} (heq : h.ref p = .ok h') : h'.next = h.next := by
  obtain ⟨c, -, hput⟩ := Outcome.bind_eq_ok heq
  cases hput
  rfl

theorem addChild_next {h h' : Heap α} {p q : Nat} (heq : h.addChild p q = .ok h') :
    h'.next = h.next := by
  obtain ⟨c, -, hput⟩ := Outcome.bind_eq_ok heq
  cases hput
  rfl

theorem release_nil (h : Heap α) : h.release [] = h := by
  simp [release]

theorem release_append (h : Heap α) (ps qs : List Nat) :
    (h.release ps).release qs = h.release (ps ++ qs) := by
  simp only [release, Heap.mk.injEq, true_and]
  constructor
  · funext p
    by_cases hp : p ∈ ps <;> by_cases hq : p ∈ qs <;> simp [hp, hq]
  · funext p
    rw [List.count_append, Nat.add_assoc]

end Heap

/-! ### Trees -/

/-- A value with the trees below it. -/
inductive RefTree (α : Type) where
  | node (val : α) (kids : List (RefTree α))

namespace RefTree

/-- Where the root of a tree is, when its objects are numbered. -/
def ptr : RefTree (Nat × α) → Nat
  | node (p, _) _ => p

mutual
/-- The objects of a tree. -/
def ids : RefTree (Nat × α) → List Nat
  | node (p, _) kids => p :: idsAll kids

def idsAll : List (RefTree (Nat × α)) → List Nat
  | [] => []
  | t :: ts => t.ids ++ idsAll ts
end

mutual
/-- The tree of values alone. -/
def erase : RefTree (Nat × α) → RefTree α
  | node (_, v) kids => node v (eraseAll kids)

def eraseAll : List (RefTree (Nat × α)) → List (RefTree α)
  | [] => []
  | t :: ts => t.erase :: eraseAll ts
end

mutual
/-- The objects of a tree are there, each with a single reference to it. -/
def Held (h : Heap α) : RefTree (Nat × α) → Prop
  | node (p, v) kids => h.cells p = some ⟨1, v, kids.map ptr⟩ ∧ HeldAll h kids

def HeldAll (h : Heap α) : List (RefTree (Nat × α)) → Prop
  | [] => True
  | t :: ts => t.Held h ∧ HeldAll h ts
end

theorem idsAll_append (ts us : List (RefTree (Nat × α))) :
    idsAll (ts ++ us) = idsAll ts ++ idsAll us := by
  induction ts with
  | nil => rfl
  | cons t ts ih => simp only [List.cons_append, idsAll, ih, List.append_assoc]

theorem eraseAll_append (ts us : List (RefTree (Nat × α))) :
    eraseAll (ts ++ us) = eraseAll ts ++ eraseAll us := by
  induction ts with
  | nil => rfl
  | cons t ts ih => simp only [List.cons_append, eraseAll, ih]

theorem heldAll_append {h : Heap α} {ts us : List (RefTree (Nat × α))} :
    HeldAll h (ts ++ us) ↔ HeldAll h ts ∧ HeldAll h us := by
  induction ts with
  | nil => simp [HeldAll]
  | cons t ts ih => simp only [List.cons_append, HeldAll, ih, and_assoc]

mutual
/-- Whether a tree is held depends on its own objects. -/
theorem Held.congr {h h' : Heap α} : ∀ {t : RefTree (Nat × α)}, t.Held h →
    (∀ p ∈ t.ids, h'.cells p = h.cells p) → t.Held h'
  | node (_, _) _, hheld, heq =>
    ⟨(heq _ List.mem_cons_self).trans hheld.1,
      HeldAll.congr hheld.2 fun p hp => heq p (List.mem_cons_of_mem _ hp)⟩

theorem HeldAll.congr {h h' : Heap α} : ∀ {ts : List (RefTree (Nat × α))}, HeldAll h ts →
    (∀ p ∈ idsAll ts, h'.cells p = h.cells p) → HeldAll h' ts
  | [], _, _ => trivial
  | _ :: _, hheld, heq =>
    ⟨hheld.1.congr fun p hp => heq p (List.mem_append_left _ hp),
      HeldAll.congr hheld.2 fun p hp => heq p (List.mem_append_right _ hp)⟩
end

end RefTree

open RefTree

/-! ### Reading and releasing a tree -/

namespace Heap

def readAll (read : Nat → Except Fault (RefTree α)) : List Nat → Except Fault (List (RefTree α))
  | [] => .ok []
  | p :: ps => do
    let t ← read p
    let ts ← readAll read ps
    return t :: ts

/-- The tree of values found from an object on. -/
def read (h : Heap α) : Nat → Nat → Except Fault (RefTree α)
  | 0, _ => .error .diverge
  | fuel + 1, p => do
    let c ← h.get p
    let kids ← readAll (h.read fuel) c.children
    return .node c.val kids

end Heap

mutual
theorem read_held {h : Heap α} : ∀ {t : RefTree (Nat × α)} {fuel : Nat}, t.Held h →
    t.ids.length ≤ fuel → h.read fuel t.ptr = .ok t.erase
  | .node (p, v) kids, fuel, hheld, hfuel => by
    cases fuel with
    | zero => simp [ids] at hfuel
    | succ fuel =>
      have hkids : Heap.readAll (h.read fuel) (kids.map ptr) = .ok (eraseAll kids) :=
        readAll_held hheld.2 (by simpa [ids] using hfuel)
      simp only [Heap.read, ptr, Heap.get_of_cells hheld.1, bind, Except.bind, hkids]
      rfl

theorem readAll_held {h : Heap α} : ∀ {ts : List (RefTree (Nat × α))} {fuel : Nat}, HeldAll h ts →
    (idsAll ts).length ≤ fuel → Heap.readAll (h.read fuel) (ts.map ptr) = .ok (eraseAll ts)
  | [], _, _, _ => rfl
  | t :: ts, fuel, hheld, hfuel => by
    rw [idsAll, List.length_append] at hfuel
    simp only [List.map_cons, Heap.readAll, bind, Except.bind,
      read_held hheld.1 (show t.ids.length ≤ fuel by omega),
      readAll_held hheld.2 (show (idsAll ts).length ≤ fuel by omega)]
    rfl
end

mutual
/-- Giving back the reference to a tree releases all of it, and nothing else. -/
theorem unref_held : ∀ {t : RefTree (Nat × α)} {h : Heap α} {fuel : Nat}, t.Held h → t.ids.Nodup →
    t.ids.length ≤ fuel → Heap.unref fuel h t.ptr = .ok (h.release t.ids)
  | .node (p, v) kids, h, fuel, hheld, hnodup, hfuel => by
    cases fuel with
    | zero => simp [ids] at hfuel
    | succ fuel =>
      rw [ids, List.nodup_cons] at hnodup
      -- the children do not see that the count of their parent has gone
      have hkids : HeldAll (h.put p ⟨0, v, kids.map ptr⟩) kids := hheld.2.congr fun q hq =>
        Function.update_of_ne (by rintro rfl; exact hnodup.1 hq) _ _
      have hall : Heap.unrefAll (Heap.unref fuel) (kids.map ptr) (h.put p ⟨0, v, kids.map ptr⟩) =
          .ok ((h.put p ⟨0, v, kids.map ptr⟩).release (idsAll kids)) :=
        unrefAll_held hkids hnodup.2 (by simpa [ids] using hfuel)
      simp only [Heap.unref, ptr, Heap.get_of_cells hheld.1, bind, Except.bind, Int.sub_self,
        ne_eq, not_true_eq_false, if_false, hall, pure, Except.pure, Except.ok.injEq]
      simp only [Heap.free, Heap.release, Heap.put, Heap.mk.injEq, true_and, ids]
      constructor
      · funext q
        by_cases hq : q = p
        · simp [hq]
        · rw [Function.update_of_ne hq, Function.update_of_ne hq]
          simp [hq]
      · funext q
        by_cases hq : q = p
        · simp [hq, List.count_eq_zero.mpr hnodup.1]
        · rw [Function.update_of_ne hq, List.count_cons_of_ne (Ne.symm hq)]

theorem unrefAll_held : ∀ {ts : List (RefTree (Nat × α))} {h : Heap α} {fuel : Nat}, HeldAll h ts →
    (idsAll ts).Nodup → (idsAll ts).length ≤ fuel →
    Heap.unrefAll (Heap.unref fuel) (ts.map ptr) h = .ok (h.release (idsAll ts))
  | [], h, _, _, _, _ => by rw [idsAll, Heap.release_nil]; rfl
  | t :: ts, h, fuel, hheld, hnodup, hfuel => by
    rw [idsAll, List.length_append] at hfuel
    rw [idsAll, List.nodup_append'] at hnodup
    obtain ⟨hnodup1, hnodup2, hdisj⟩ := hnodup
    have hrest : HeldAll (h.release t.ids) ts := hheld.2.congr fun q hq =>
      if_neg fun hqt => hdisj hqt hq
    simp only [List.map_cons, Heap.unrefAll, bind, Except.bind,
      unref_held hheld.1 hnodup1 (show t.ids.length ≤ fuel by omega),
      unrefAll_held hrest hnodup2 (show (idsAll ts).length ≤ fuel by omega),
      Heap.release_append, idsAll]
end

/-! ### Forests -/

/-- The heap is made up of disjoint trees, and what is no longer in them has been
    released once. -/
structure Forest (h : Heap α) (ts : List (RefTree (Nat × α))) : Prop where
  held : HeldAll h ts
  nodup : (idsAll ts).Nodup
  none : ∀ p, p ∉ idsAll ts → h.cells p = none
  lt : ∀ p ∈ idsAll ts, p < h.next
  once : ∀ p, h.released p = if p < h.next ∧ p ∉ idsAll ts then 1 else 0

variable {h : Heap α} {t : RefTree (Nat × α)} {ts : List (RefTree (Nat × α))}

theorem forest_empty : Forest (Heap.empty : Heap α) [] where
  held := trivial
  nodup := List.nodup_nil
  none _ _ := rfl
  lt p hp := by simp [idsAll] at hp
  once p := by simp [Heap.empty]

/-- No tree has more objects than have been allocated. -/
theorem Forest.length_le (hf : Forest h ts) : (idsAll ts).length ≤ h.next := by
  have hsub : idsAll ts ⊆ List.range h.next := fun p hp => List.mem_range.mpr (hf.lt p hp)
  simpa using (hf.nodup.subperm hsub).length_le

theorem Forest.ids_length_le (hf : Forest h (t :: ts)) : t.ids.length ≤ h.next := by
  have := hf.length_le
  rw [idsAll, List.length_append] at this
  omega

theorem Forest.alloc (hf : Forest h ts) (v : α) :
    Forest (h.alloc v) (.node (h.next, v) [] :: ts) := by
  have hnew : h.next ∉ idsAll ts := fun hp => Nat.lt_irrefl _ (hf.lt _ hp)
  have hids : idsAll (.node (h.next, v) [] :: ts) = h.next :: idsAll ts := rfl
  refine ⟨⟨⟨Function.update_self _ _ _, trivial⟩, hf.held.congr fun p hp => ?_⟩, ?_, ?_, ?_, ?_⟩
  · exact Function.update_of_ne (by rintro rfl; exact hnew hp) _ _
  · rw [hids]
    exact List.nodup_cons.mpr ⟨hnew, hf.nodup⟩
  · intro p hp
    rw [hids, List.mem_cons, not_or] at hp
    exact (Function.update_of_ne hp.1 _ _).trans (hf.none p hp.2)
  · intro p hp
    rw [hids] at hp
    rcases List.mem_cons.mp hp with rfl | hp
    · exact Nat.lt_succ_self _
    · exact Nat.lt_succ_of_lt (hf.lt p hp)
  · intro p
    have hrel : (h.alloc v).released p = h.released p := rfl
    have hnext : (h.alloc v).next = h.next + 1 := rfl
    rw [hrel, hf.once p, hids, hnext]
    refine if_congr ?_ rfl rfl
    simp only [List.mem_cons, not_or]
    have := Nat.lt_irrefl h.next
    constructor
    · rintro ⟨hlt, hp⟩
      exact ⟨by omega, by omega, hp⟩
    · rintro ⟨hlt, hne, hp⟩
      exact ⟨by omega, hp⟩

/-- The same objects in other trees. -/
theorem Forest.rearrange {h' : Heap α} {us : List (RefTree (Nat × α))} (hf : Forest h ts)
    (hperm : (idsAll us).Perm (idsAll ts)) (hheld : HeldAll h' us)
    (hout : ∀ p, p ∉ idsAll ts → h'.cells p = h.cells p) (hnext : h'.next = h.next)
    (hreleased : h'.released = h.released) : Forest h' us where
  held := hheld
  nodup := hperm.nodup_iff.mpr hf.nodup
  none p hp := (hout p fun hm => hp (hperm.mem_iff.mpr hm)).trans
    (hf.none p fun hm => hp (hperm.mem_iff.mpr hm))
  lt p hp := hnext ▸ hf.lt p (hperm.mem_iff.mp hp)
  once p := by simp only [hreleased, hnext, hf.once, hperm.mem_iff]

/-- The root of the first tree is no object of the others, or of the trees below it. -/
theorem Forest.ptr_fresh {p : Nat} {v : α} {kids : List (RefTree (Nat × α))}
    (hf : Forest h (.node (p, v) kids :: ts)) : p ∉ idsAll kids ∧ p ∉ idsAll ts := by
  have hnodup := hf.nodup
  rw [idsAll, ids, List.cons_append, List.nodup_cons, List.mem_append, not_or] at hnodup
  exact hnodup.1

theorem Forest.setVal {p : Nat} {v : α} {kids : List (RefTree (Nat × α))}
    (hf : Forest h (.node (p, v) kids :: ts)) (v' : α) :
    ∃ h', h.setVal p v' = .ok h' ∧ h'.next = h.next ∧ Forest h' (.node (p, v') kids :: ts) := by
  obtain ⟨hk, ht⟩ := hf.ptr_fresh
  have hcell := hf.held.1.1
  refine ⟨h.put p ⟨1, v', kids.map ptr⟩, ?_, rfl, hf.rearrange (List.Perm.refl _) ?_ ?_ rfl rfl⟩
  · simp only [Heap.setVal, Heap.get_of_cells hcell, bind, Except.bind]
    rfl
  · refine ⟨⟨Function.update_self _ _ _, hf.held.1.2.congr fun q hq => ?_⟩,
      hf.held.2.congr fun q hq => ?_⟩
    · exact Function.update_of_ne (by rintro rfl; exact hk hq) _ _
    · exact Function.update_of_ne (by rintro rfl; exact ht hq) _ _
  · intro q hq
    exact Function.update_of_ne (by rintro rfl; exact hq (by simp [idsAll, ids])) _ _

/-- A root becomes the last child of the next: the new owner takes a reference and the
    old one is given back. -/
theorem Forest.adopt {c : RefTree (Nat × α)} {p : Nat} {v : α} {kids : List (RefTree (Nat × α))}
    (hf : Forest h (c :: .node (p, v) kids :: ts)) (fuel : Nat) :
    ∃ h', (do
        let h ← h.ref c.ptr
        let h ← h.addChild p c.ptr
        Heap.unref (fuel + 1) h c.ptr) = .ok h' ∧
      h'.next = h.next ∧ Forest h' (.node (p, v) (kids ++ [c]) :: ts) := by
  cases c with
  | node x ks =>
    obtain ⟨q, w⟩ := x
    obtain ⟨-, hqrest⟩ := hf.ptr_fresh
    have hnodup := hf.nodup
    rw [idsAll, List.nodup_append'] at hnodup
    obtain ⟨-, hrest, hdisj⟩ := hnodup
    rw [idsAll, ids, List.cons_append, List.nodup_cons, List.mem_append, not_or] at hrest
    obtain ⟨⟨hpkids, hpts⟩, -⟩ := hrest
    have hpks : p ∉ idsAll ks := fun hp =>
      hdisj (List.mem_cons_of_mem q hp) (by simp [idsAll, ids])
    have hne : q ≠ p := by
      rintro rfl
      exact hqrest (by simp [idsAll, ids])
    obtain ⟨⟨hcq, hks⟩, ⟨hcp, hkids⟩, hts⟩ := hf.held
    refine ⟨h.put p ⟨1, v, (kids ++ [RefTree.node (q, w) ks]).map ptr⟩, ?_, rfl,
      hf.rearrange ?_ ?_ ?_ rfl rfl⟩
    · -- the count of the child goes up to 2 and back
      have hp1 : (h.put q ⟨1 + 1, w, ks.map ptr⟩).cells p = some ⟨1, v, kids.map ptr⟩ :=
        (Function.update_of_ne hne.symm _ _).trans hcp
      have hq2 : ((h.put q ⟨1 + 1, w, ks.map ptr⟩).put p ⟨1, v, kids.map ptr ++ [q]⟩).cells q =
          some ⟨1 + 1, w, ks.map ptr⟩ :=
        (Function.update_of_ne hne _ _).trans (Function.update_self _ _ _)
      simp only [Heap.ref, Heap.addChild, Heap.unref, ptr, Heap.get_of_cells hcq,
        Heap.get_of_cells hp1, Heap.get_of_cells hq2, bind, Except.bind, pure, Except.pure]
      rw [if_pos (by decide)]
      refine congrArg Except.ok ?_
      simp only [Heap.put, Heap.mk.injEq, and_true, List.map_append, List.map_cons,
        List.map_nil, ptr]
      rw [Function.update_comm hne, Function.update_idem, Function.update_comm hne.symm,
        show (1 + 1 - 1 : Int) = 1 from rfl, ← hcq, Function.update_eq_self]
    · simp only [idsAll, ids, idsAll_append, List.append_nil, List.cons_append, List.append_assoc]
      have hmove : (p :: (idsAll kids ++ (q :: idsAll ks ++ idsAll ts))).Perm
          (q :: idsAll ks ++ p :: (idsAll kids ++ idsAll ts)) := by
        refine (List.Perm.cons p ?_).trans List.perm_middle.symm
        rw [← List.append_assoc, ← List.append_assoc]
        exact List.perm_append_comm.append_right _
      simpa using hmove
    · have hput : ∀ r, r ≠ p →
          (h.put p ⟨1, v, (kids ++ [RefTree.node (q, w) ks]).map ptr⟩).cells r = h.cells r :=
        fun r hr => Function.update_of_ne hr _ _
      refine ⟨⟨Function.update_self _ _ _, heldAll_append.mpr ⟨?_, ⟨?_, ?_⟩, trivial⟩⟩, ?_⟩
      · exact hkids.congr fun r hr => hput r (by rintro rfl; exact hpkids hr)
      · exact (hput q hne).trans hcq
      · exact hks.congr fun r hr => hput r (by rintro rfl; exact hpks hr)
      · exact hts.congr fun r hr => hput r (by rintro rfl; exact hpts hr)
    · intro r hr
      exact Function.update_of_ne (by rintro rfl; exact hr (by simp [idsAll, ids])) _ _

/-- Giving back a root releases its tree. -/
theorem Forest.drop (hf : Forest h (t :: ts)) {fuel : Nat} (hfuel : h.next ≤ fuel) :
    ∃ h', Heap.unref fuel h t.ptr = .ok h' ∧ h'.next = h.next ∧ Forest h' ts := by
  have hnodup := hf.nodup
  rw [idsAll, List.nodup_append'] at hnodup
  obtain ⟨hnodup1, hnodup2, hdisj⟩ := hnodup
  refine ⟨h.release t.ids, unref_held hf.held.1 hnodup1 (hf.ids_length_le.trans hfuel), rfl,
    ⟨hf.held.2.congr fun q hq => if_neg fun hqt => hdisj hqt hq, hnodup2, ?_, ?_, ?_⟩⟩
  · intro q hq
    by_cases hqt : q ∈ t.ids
    · exact if_pos hqt
    · exact (if_neg hqt).trans (hf.none q fun hm => (List.mem_append.mp hm).elim hqt hq)
  · exact fun q hq => hf.lt q (List.mem_append_right _ hq)
  · intro q
    have hrel : (h.release t.ids).released q = h.released q + t.ids.count q := rfl
    have hnext : (h.release t.ids).next = h.next := rfl
    rw [hrel, hf.once q, hnext]
    by_cases hqt : q ∈ t.ids
    · have hlt : q < h.next := hf.lt q (List.mem_append_left _ hqt)
      have hqts : q ∉ idsAll ts := fun hq => hdisj hqt hq
      have hin : q ∈ idsAll (t :: ts) := List.mem_append_left _ hqt
      rw [List.count_eq_one_of_mem hnodup1 hqt, if_neg fun hno => hno.2 hin, if_pos ⟨hlt, hqts⟩]
    · rw [List.count_eq_zero.mpr hqt, Nat.add_zero]
      refine if_congr ?_ rfl rfl
      simp only [idsAll, List.mem_append, hqt, false_or]

/-- Giving back all roots releases everything. -/
theorem Forest.dropAll (hf : Forest h ts) {fuel : Nat} (hfuel : h.next ≤ fuel) :
    ∃ h', Heap.unrefAll (Heap.unref fuel) (ts.map ptr) h = .ok h' ∧ h'.next = h.next ∧
      Forest h' [] := by
  induction ts generalizing h with
  | nil => exact ⟨h, rfl, rfl, hf⟩
  | cons t ts ih =>
    obtain ⟨h1, heq, hnext, hf1⟩ := hf.drop hfuel
    obtain ⟨h2, heq2, hnext2, hf2⟩ := ih hf1 (hnext ▸ hfuel)
    refine ⟨h2, ?_, hnext2.trans hnext, hf2⟩
    simp only [List.map_cons, Heap.unrefAll, heq, bind, Except.bind, heq2]

/-! ### Owners -/

/-- How often an object holds `p`. -/
def holds (h : Heap α) (p q : Nat) : Nat :=
  match h.cells q with
  | some c => c.children.count p
  | none => 0

mutual
/-- In a tree, every object but the root is held by its parent. -/
theorem count_ids {h : Heap α} (p : Nat) : ∀ {t : RefTree (Nat × α)}, t.Held h →
    t.ids.count p = (if t.ptr = p then 1 else 0) + (t.ids.map (holds h p)).sum
  | .node (q, v) kids, hheld => by
    have hq : holds h p q = (kids.map ptr).count p := by rw [holds, hheld.1]
    rw [ids, List.map_cons, List.sum_cons, hq, List.count_cons, count_idsAll p hheld.2, ptr]
    simp only [beq_iff_eq]
    omega

theorem count_idsAll {h : Heap α} (p : Nat) : ∀ {ts : List (RefTree (Nat × α))}, HeldAll h ts →
    (idsAll ts).count p = (ts.map ptr).count p + ((idsAll ts).map (holds h p)).sum
  | [], _ => rfl
  | t :: ts, hheld => by
    rw [idsAll, List.count_append, count_ids p hheld.1, count_idsAll p hheld.2, List.map_append,
      List.sum_append, List.map_cons, List.count_cons]
    simp only [beq_iff_eq]
    omega
end

theorem Forest.owners_eq (hf : Forest h ts) (p : Nat) :
    h.owners (ts.map ptr) p = (idsAll ts).count p := by
  have hsub : (idsAll ts).toFinset ⊆ Finset.range h.next := fun q hq =>
    Finset.mem_range.mpr (hf.lt q (List.mem_toFinset.mp hq))
  have hzero : ∀ q ∈ Finset.range h.next, q ∉ (idsAll ts).toFinset → holds h p q = 0 := by
    intro q _ hq
    rw [holds, hf.none q fun hm => hq (List.mem_toFinset.mpr hm)]
  rw [count_idsAll p hf.held, ← List.sum_toFinset _ hf.nodup, Finset.sum_subset hsub hzero]
  rfl

mutual
theorem refcount_held {h : Heap α} : ∀ {t : RefTree (Nat × α)}, t.Held h → ∀ p ∈ t.ids, ∀ c,
    h.cells p = some c → c.refcount = 1
  | .node (q, v) kids, hheld, p, hp, c, hc => by
    rcases List.mem_cons.mp hp with rfl | hp
    · rw [hheld.1] at hc
      rw [← Option.some.inj hc]
    · exact refcount_heldAll hheld.2 p hp c hc

theorem refcount_heldAll {h : Heap α} : ∀ {ts : List (RefTree (Nat × α))}, HeldAll h ts →
    ∀ p ∈ idsAll ts, ∀ c, h.cells p = some c → c.refcount = 1
  | t :: ts, hheld, p, hp, c, hc => by
    rcases List.mem_append.mp hp with hp | hp
    · exact refcount_held hheld.1 p hp c hc
    · exact refcount_heldAll hheld.2 p hp c hc
end

/-- Every count is the number of owners. -/
theorem Forest.refcount_eq_owners (hf : Forest h ts) {p : Nat} {c : Cell α}
    (hc : h.cells p = some c) : c.refcount = h.owners (ts.map ptr) p := by
  have hp : p ∈ idsAll ts := by
    by_contra hno
    rw [hf.none p hno] at hc
    cases hc
  rw [hf.owners_eq, List.count_eq_one_of_mem hf.nodup hp, refcount_heldAll hf.held p hp c hc]
  rfl

end Libsd.RefHeap

/-
  Libsd/Lib/RefCounts.lean
  ========================
  **Shared reference-counted objects.**

  The objects of `RefHeap` may be held by several others.  A heap is `Counted` when
  each count is the number of owners and what has an owner is live.  That is kept by
  taking a reference, by handing references on to an object, and by giving one back,
  whatever gets released on the way (`Counted.unref`).

  References that are taken on top of others cancel exactly (`Heap.unref_addRefs`).
-/
import Libsd.Lib.RefHeap

namespace Libsd.RefHeap

variable {α : Type}

/-! ### Taking and giving back what stays live -/

namespace Heap

/-- One more reference to each of `ps`. -/
def addRefs (h : Heap α) (ps : List Nat) : Heap α :=
  { h with cells := fun p => (h.cells p).map fun c =>
    { c with refcount := c.refcount + ps.count p } }

/-- The object `p` gets a new value, and the references `ps` to hold. -/
def hold (h : Heap α) (p : Nat) (val : α) (ps : List Nat) : Except Fault (Heap α) := do
  let c ← h.get p
  return h.put p { c with val := val, children := c.children ++ ps }

theorem ext_cells {h h' : Heap α} (hcells : ∀ p, h.cells p = h'.cells p) (hnext : h.next = h'.next)
    (hreleased : h.released = h'.released) : h = h' := by
  cases h
  cases h'
  simp only [mk.injEq]
  exact ⟨funext hcells, hnext, hreleased⟩

theorem put_self (h : Heap α) (p : Nat) (c : Cell α) : (h.put p c).cells p = some c :=
  Function.update_self _ _ _

theorem put_ne {h : Heap α} {p q : Nat} (hq : q ≠ p) (c : Cell α) :
    (h.put p c).cells q = h.cells q :=
  Function.update_of_ne hq _ _

theorem put_eq_self {h : Heap α} {p : Nat} {c : Cell α} (hc : h.cells p = some c) :
    h.put p c = h := by
  refine ext_cells ?_ rfl rfl
  intro q
  by_cases hq : q = p
  · rw [hq, put_self, hc]
  · exact put_ne hq c

theorem put_put (h : Heap α) (p : Nat) (c c' : Cell α) : (h.put p c).put p c' = h.put p c' :=
  ext_cells (fun q => congrFun (Function.update_idem _ _ _) q) rfl rfl

theorem addRefs_cells (h : Heap α) (ps : List Nat) (p : Nat) :
    (h.addRefs ps).cells p =
      (h.cells p).map fun c => { c with refcount := c.refcount + ps.count p } :=
  rfl

theorem addRefs_nil (h : Heap α) : h.addRefs [] = h := by
  refine ext_cells ?_ rfl rfl
  intro p
  rw [addRefs_cells]
  cases h.cells p <;> simp

theorem addRefs_perm (h : Heap α) {ps qs : List Nat} (hperm : ps.Perm qs) :
    h.addRefs ps = h.addRefs qs := by
  refine ext_cells ?_ rfl rfl
  intro p
  rw [addRefs_cells, addRefs_cells, hperm.count_eq]

/-- An object that is given no more references is as before. -/
theorem addRefs_cells_of_notMem {h : Heap α} {ps : List Nat} {p : Nat} (hp : p ∉ ps) :
    (h.addRefs ps).cells p = h.cells p := by
  rw [addRefs_cells, List.count_eq_zero.mpr hp]
  cases h.cells p <;> simp

theorem addRefs_put {h : Heap α} {ps : List Nat} {p : Nat} (hp : p ∉ ps) (c : Cell α) :
    (h.put p c).addRefs ps = (h.addRefs ps).put p c := by
  refine ext_cells ?_ rfl rfl
  intro q
  by_cases hq : q = p
  · rw [hq, addRefs_cells_of_notMem hp, put_self, put_self]
  · rw [put_ne hq, addRefs_cells, addRefs_cells, put_ne hq]

theorem ref_addRefs {h : Heap α} {p : Nat} {c : Cell α} (hc : h.cells p = some c) (ps : List Nat) :
    (h.addRefs ps).ref p = .ok (h.addRefs (p :: ps)) := by
  have hcell : (h.addRefs ps).cells p = some { c with refcount := c.refcount + ps.count p } := by
    rw [addRefs_cells, hc]
    rfl
  simp only [ref, get_of_cells hcell, bind, Except.bind, pure, Except.pure, Except.ok.injEq]
  refine ext_cells ?_ rfl rfl
  intro q
  by_cases hq : q = p
  · have hmore : c.refcount + ps.count p + 1 = c.refcount + (ps.count p + 1 : Nat) := by omega
    rw [hq, put_self, addRefs_cells, hc, Option.map_some, List.count_cons_self, hmore]
  · rw [put_ne hq, addRefs_cells, addRefs_cells, List.count_cons_of_ne (Ne.symm hq)]

theorem unref_shared {h : Heap α} {p : Nat} {c : Cell α} (hc : h.cells p = some c)
    (hne : c.refcount - 1 ≠ 0) (fuel : Nat) :
    unref (fuel + 1) h p = .ok (h.put p { c with refcount := c.refcount - 1 }) := by
  rw [unref, get_of_cells hc]
  exact if_pos hne

theorem unref_last {h h' : Heap α} {p : Nat} {c : Cell α} (hc : h.cells p = some c)
    (hlast : c.refcount = 1) {fuel : Nat}
    (hall : unrefAll (unref fuel) c.children (h.put p { c with refcount := 0 }) = .ok h') :
    unref (fuel + 1) h p = .ok (h'.free p) := by
  rw [unref, get_of_cells hc]
  simp only [hlast, bind, Except.bind, Int.sub_self, ne_eq, not_true_eq_false, if_false, hall]
  rfl

/-- A reference on top of another is given back with nothing released. -/
theorem unref_addRefs {h : Heap α} {p : Nat} {c : Cell α} (hc : h.cells p = some c)
    (hpos : 0 < c.refcount) (fuel : Nat) (ps : List Nat) :
    unref (fuel + 1) (h.addRefs (p :: ps)) p = .ok (h.addRefs ps) := by
  have hcell : (h.addRefs (p :: ps)).cells p =
      some { c with refcount := c.refcount + (ps.count p + 1 : Nat) } := by
    rw [addRefs_cells, hc, List.count_cons_self]
    rfl
  have hne : c.refcount + (ps.count p + 1 : Nat) - 1 ≠ 0 := by omega
  rw [unref_shared hcell hne, Except.ok.injEq]
  refine ext_cells ?_ rfl rfl
  intro q
  by_cases hq : q = p
  · have hback : c.refcount + (ps.count p + 1 : Nat) - 1 = c.refcount + ps.count p := by omega
    rw [hq, put_self, addRefs_cells, hc, Option.map_some, hback]
  · rw [put_ne hq, addRefs_cells, addRefs_cells, List.count_cons_of_ne (Ne.symm hq)]

theorem unrefAll_append (unref : Heap α → Nat → Except Fault (Heap α)) (ps qs : List Nat)
    (h : Heap α) : unrefAll unref (ps ++ qs) h = (do
      let h ← unrefAll unref ps h
      unrefAll unref qs h) := by
  induction ps generalizing h with
  | nil => rfl
  | cons p ps ih =>
    simp only [List.cons_append, unrefAll, bind, Except.bind]
    cases unref h p with
    | error e => rfl
    | ok h1 => exact ih h1

theorem unrefAll_addRefs {h : Heap α} {ps : List Nat}
    (hlive : ∀ p ∈ ps, ∃ c, h.cells p = some c ∧ 0 < c.refcount) (fuel : Nat) (qs : List Nat) :
    unrefAll (unref (fuel + 1)) ps (h.addRefs (ps ++ qs)) = .ok (h.addRefs qs) := by
  induction ps with
  | nil => rfl
  | cons p ps ih =>
    obtain ⟨c, hc, hpos⟩ := hlive p List.mem_cons_self
    have hrest := ih fun q hq => hlive q (List.mem_cons_of_mem p hq)
    rw [List.cons_append]
    simp only [unrefAll, unref_addRefs hc hpos, bind, Except.bind]
    exact hrest

/-- An object that alone holds references on top of others is released, and these are
    given back. -/
theorem unref_put_addRefs {h : Heap α} {p : Nat} {ps : List Nat} {v : α} (hp : p ∉ ps)
    (hlive : ∀ q ∈ ps, ∃ c, h.cells q = some c ∧ 0 < c.refcount) (fuel : Nat) :
    unref (fuel + 2) ((h.addRefs ps).put p ⟨1, v, ps⟩) p = .ok ((h.put p ⟨0, v, ps⟩).free p) := by
  have hcell := put_self (h.addRefs ps) p ⟨1, v, ps⟩
  have hdead : ((h.addRefs ps).put p ⟨1, v, ps⟩).put p ⟨0, v, ps⟩ =
      (h.put p ⟨0, v, ps⟩).addRefs (ps ++ []) := by
    rw [List.append_nil, addRefs_put hp, put_put]
  have hlive' : ∀ q ∈ ps, ∃ c, (h.put p ⟨0, v, ps⟩).cells q = some c ∧ 0 < c.refcount := by
    intro q hq
    obtain ⟨c, hc, hpos⟩ := hlive q hq
    exact ⟨c, (put_ne (by rintro rfl; exact hp hq) _).trans hc, hpos⟩
  have hall := unrefAll_addRefs hlive' fuel []
  rw [← hdead, addRefs_nil] at hall
  exact unref_last hcell rfl hall

end Heap

/-! ### Counts and owners -/

/-- The references to `p` that are not held by the objects in `dying`. -/
def ownersBut (h : Heap α) (dying : Finset Nat) (roots : List Nat) (p : Nat) : Nat :=
  roots.count p + (Finset.range h.next \ dying).sum (holds h p)

/-- Every count is the number of owners, and what has an owner is live.  The objects in
    `dying` have lost their last owner, and are still giving back what they hold. -/
structure Counted (h : Heap α) (dying : Finset Nat) (roots : List Nat) : Prop where
  refcount : ∀ p, p ∉ dying → ∀ c, h.cells p = some c →
    c.refcount = ownersBut h dying roots p ∧ 0 < ownersBut h dying roots p
  live : ∀ p, 0 < ownersBut h dying roots p → p ∉ dying ∧ ∃ c, h.cells p = some c
  lt : ∀ p c, h.cells p = some c → p < h.next
  dyingLt : ∀ p ∈ dying, p < h.next

/-- `h'` has objects of `h` only, and they hold what they held. -/
def Remains (h h' : Heap α) : Prop :=
  h'.next = h.next ∧ ∀ q c', h'.cells q = some c' →
    ∃ c, h.cells q = some c ∧ c'.val = c.val ∧ c'.children = c.children

theorem Remains.refl (h : Heap α) : Remains h h := ⟨rfl, fun _ c hc => ⟨c, hc, rfl, rfl⟩⟩

theorem Remains.trans {h h' h'' : Heap α} (h1 : Remains h h') (h2 : Remains h' h'') :
    Remains h h'' := by
  refine ⟨h2.1.trans h1.1, ?_⟩
  intro q c'' hc''
  obtain ⟨c', hc', hv', hk'⟩ := h2.2 q c'' hc''
  obtain ⟨c, hc, hv, hk⟩ := h1.2 q c' hc'
  exact ⟨c, hc, hv'.trans hv, hk'.trans hk⟩

variable {h h' : Heap α} {dying : Finset Nat} {roots roots' : List Nat} {p : Nat}

theorem holds_of_cells {q : Nat} {c : Cell α} (hc : h.cells q = some c) :
    holds h p q = c.children.count p := by
  rw [holds, hc]

theorem holds_of_none {q : Nat} (hq : h.cells q = none) : holds h p q = 0 := by
  rw [holds, hq]

/-- What an object holds does not depend on its count. -/
theorem holds_put {q r : Nat} {c c' : Cell α} (hc : h.cells q = some c)
    (hk : c'.children = c.children) : holds (h.put q c') p r = holds h p r := by
  by_cases hr : r = q
  · rw [hr, holds_of_cells (Heap.put_self h q c'), holds_of_cells hc, hk]
  · rw [holds, holds, Heap.put_ne hr]

theorem ownersBut_congr (hnext : h'.next = h.next)
    (hholds : ∀ q ∉ dying, holds h' p q = holds h p q) :
    ownersBut h' dying roots p = ownersBut h dying roots p := by
  rw [ownersBut, ownersBut, hnext]
  refine congrArg _ (Finset.sum_congr rfl ?_)
  intro q hq
  exact hholds q (Finset.mem_sdiff.mp hq).2

theorem ownersBut_cons (q : Nat) :
    ownersBut h dying (q :: roots) p = ownersBut h dying roots p + if q = p then 1 else 0 := by
  rw [ownersBut, ownersBut, List.count_cons]
  simp only [beq_iff_eq]
  omega

theorem ownersBut_append (ps : List Nat) :
    ownersBut h dying (ps ++ roots) p = ps.count p + ownersBut h dying roots p := by
  rw [ownersBut, ownersBut, List.count_append, add_assoc]

theorem sum_holds {s : Finset Nat} {q : Nat} (hq : q ∈ s) :
    s.sum (holds h p) = holds h p q + (s.erase q).sum (holds h p) :=
  (Finset.add_sum_erase s (holds h p) hq).symm

/-- What a dying object holds counts as given out. -/
theorem ownersBut_insert {q : Nat} {c : Cell α} (hq : q ∉ dying) (hc : h.cells q = some c)
    (hlt : q < h.next) :
    ownersBut h (insert q dying) (c.children ++ roots) p = ownersBut h dying roots p := by
  have hmem : q ∈ Finset.range h.next \ dying :=
    Finset.mem_sdiff.mpr ⟨Finset.mem_range.mpr hlt, hq⟩
  rw [ownersBut_append, ownersBut, ownersBut, Finset.sdiff_insert, sum_holds hmem,
    holds_of_cells hc]
  omega

theorem Counted.perm (hc : Counted h dying roots) (hperm : roots.Perm roots') :
    Counted h dying roots' := by
  have hown : ∀ q, ownersBut h dying roots' q = ownersBut h dying roots q := by
    intro q
    rw [ownersBut, ownersBut, hperm.count_eq]
  refine ⟨?_, ?_, hc.lt, hc.dyingLt⟩
  · intro q hq c hcell
    rw [hown]
    exact hc.refcount q hq c hcell
  · intro q hq
    rw [hown] at hq
    exact hc.live q hq

/-- A root is live, and has been counted. -/
theorem Counted.root (hc : Counted h dying (p :: roots)) :
    p ∉ dying ∧ ∃ c, h.cells p = some c ∧ c.refcount = ownersBut h dying roots p + 1 := by
  have hown : ownersBut h dying (p :: roots) p = ownersBut h dying roots p + 1 := by
    rw [ownersBut_cons, if_pos rfl]
  obtain ⟨hp, c, hcell⟩ := hc.live p (by omega)
  have hcount := (hc.refcount p hp c hcell).1
  rw [hown] at hcount
  exact ⟨hp, c, hcell, by simpa using hcount⟩

/-- What a live object holds is live. -/
theorem Counted.live_of_holds (hc : Counted h dying roots) {q : Nat} {c : Cell α} (hq : q ∉ dying)
    (hcell : h.cells q = some c) (hp : p ∈ c.children) : ∃ c', h.cells p = some c' := by
  have hmem : q ∈ Finset.range h.next \ dying :=
    Finset.mem_sdiff.mpr ⟨Finset.mem_range.mpr (hc.lt q c hcell), hq⟩
  have hpos := List.count_pos_iff.mpr hp
  refine (hc.live p ?_).2
  rw [ownersBut, sum_holds hmem, holds_of_cells hcell]
  omega

/-! ### Operations -/

theorem Counted.alloc (hc : Counted h ∅ roots) (v : α) :
    Counted (h.alloc v) ∅ (h.next :: roots) := by
  have hfresh : h.cells h.next = none := by
    cases hcell : h.cells h.next with
    | none => rfl
    | some c => exact absurd (hc.lt _ c hcell) (Nat.lt_irrefl _)
  have hother : ∀ q, q ≠ h.next → (h.alloc v).cells q = h.cells q := fun q hq =>
    Function.update_of_ne hq _ _
  have hnew : (h.alloc v).cells h.next = some ⟨1, v, []⟩ := Function.update_self _ _ _
  -- the new object holds nothing
  have hholds : ∀ p q, holds (h.alloc v) p q = holds h p q := by
    intro p q
    by_cases hq : q = h.next
    · rw [hq, holds_of_cells hnew, holds_of_none hfresh]
      rfl
    · rw [holds, holds, hother q hq]
  have hown : ∀ p, ownersBut (h.alloc v) ∅ (h.next :: roots) p =
      ownersBut h ∅ roots p + if h.next = p then 1 else 0 := by
    intro p
    rw [ownersBut_cons]
    refine congrArg (· + _) ?_
    rw [ownersBut, ownersBut, show (h.alloc v).next = h.next + 1 from rfl, Finset.sdiff_empty,
      Finset.sdiff_empty, Finset.sum_range_succ, hholds, holds_of_none hfresh, Nat.add_zero]
    exact congrArg _ (Finset.sum_congr rfl fun q _ => hholds p q)
  have hzero : ownersBut h ∅ roots h.next = 0 := by
    by_contra hne
    obtain ⟨-, c, hcell⟩ := hc.live h.next (Nat.pos_of_ne_zero hne)
    rw [hfresh] at hcell
    cases hcell
  refine ⟨?_, ?_, ?_, fun p hp => absurd hp (Finset.notMem_empty p)⟩
  · intro q hq c hcell
    rw [hown]
    by_cases hqn : q = h.next
    · rw [hqn, hnew] at hcell
      cases hcell
      rw [hqn, hzero, if_pos rfl]
      exact ⟨rfl, Nat.one_pos⟩
    · rw [hother q hqn] at hcell
      rw [if_neg (Ne.symm hqn)]
      exact hc.refcount q hq c hcell
  · intro q hq
    refine ⟨Finset.notMem_empty q, ?_⟩
    by_cases hqn : q = h.next
    · exact ⟨_, hqn ▸ hnew⟩
    · rw [hown, if_neg (Ne.symm hqn)] at hq
      rw [hother q hqn]
      exact (hc.live q hq).2
  · intro q c hcell
    by_cases hqn : q = h.next
    · rw [hqn]
      exact Nat.lt_succ_self _
    · rw [hother q hqn] at hcell
      exact Nat.lt_succ_of_lt (hc.lt q c hcell)

/-- Objects that were allocated and have been released again change no count. -/
theorem Counted.of_cells (hc : Counted h ∅ roots) (hcells : h'.cells = h.cells)
    (hnext : h.next ≤ h'.next) : Counted h' ∅ roots := by
  have hholds : ∀ p q, holds h' p q = holds h p q := fun p q => by rw [holds, holds, hcells]
  have hown : ∀ p, ownersBut h' ∅ roots p = ownersBut h ∅ roots p := by
    intro p
    have hsub : Finset.range h.next \ ∅ ⊆ Finset.range h'.next \ ∅ := by
      rw [Finset.sdiff_empty, Finset.sdiff_empty]
      exact Finset.range_subset_range.mpr hnext
    rw [ownersBut, ownersBut]
    refine congrArg _ (Eq.symm ?_)
    refine (Finset.sum_congr rfl fun q _ => (hholds p q).symm).trans (Finset.sum_subset hsub ?_)
    intro q _ hq
    rw [Finset.sdiff_empty, Finset.mem_range] at hq
    rw [hholds]
    cases hcell : h.cells q with
    | none => exact holds_of_none hcell
    | some c => exact absurd (hc.lt q c hcell) hq
  refine ⟨?_, ?_, ?_, fun p hp => absurd hp (Finset.notMem_empty p)⟩
  · intro q hq c hcell
    rw [hown]
    exact hc.refcount q hq c (hcells ▸ hcell)
  · intro q hq
    rw [hown] at hq
    rw [hcells]
    exact hc.live q hq
  · intro q c hcell
    exact (hc.lt q c (hcells ▸ hcell)).trans_le hnext

theorem Counted.addRefs (hc : Counted h dying roots) {ps : List Nat}
    (hps : ∀ p ∈ ps, p ∉ dying ∧ ∃ c, h.cells p = some c) :
    Counted (h.addRefs ps) dying (ps ++ roots) := by
  have hholds : ∀ p q, holds (h.addRefs ps) p q = holds h p q := by
    intro p q
    rw [holds, holds, Heap.addRefs_cells]
    cases h.cells q <;> rfl
  have hown : ∀ p, ownersBut (h.addRefs ps) dying (ps ++ roots) p =
      ps.count p + ownersBut h dying roots p := by
    intro p
    rw [ownersBut_append]
    exact congrArg _ (ownersBut_congr rfl fun q _ => hholds p q)
  refine ⟨?_, ?_, ?_, hc.dyingLt⟩
  · intro q hq c hcell
    rw [Heap.addRefs_cells, Option.map_eq_some_iff] at hcell
    obtain ⟨c0, hc0, rfl⟩ := hcell
    obtain ⟨hcount, hpos⟩ := hc.refcount q hq c0 hc0
    rw [hown]
    exact ⟨by simp only [hcount]; omega, by omega⟩
  · intro q hq
    rw [hown] at hq
    have hlive : q ∉ dying ∧ ∃ c, h.cells q = some c := by
      by_cases hmem : q ∈ ps
      · exact hps q hmem
      · rw [List.count_eq_zero.mpr hmem, Nat.zero_add] at hq
        exact hc.live q hq
    obtain ⟨hd, c, hcell⟩ := hlive
    refine ⟨hd, { c with refcount := c.refcount + ps.count q }, ?_⟩
    rw [Heap.addRefs_cells, hcell]
    rfl
  · intro q c hcell
    rw [Heap.addRefs_cells, Option.map_eq_some_iff] at hcell
    obtain ⟨c0, hc0, -⟩ := hcell
    exact hc.lt q c0 hc0

theorem Counted.ref (hc : Counted h dying roots) (hp : p ∉ dying) {c : Cell α}
    (hcell : h.cells p = some c) :
    h.ref p = .ok (h.addRefs [p]) ∧ Counted (h.addRefs [p]) dying (p :: roots) := by
  constructor
  · have href := Heap.ref_addRefs hcell []
    rwa [Heap.addRefs_nil] at href
  · exact hc.addRefs fun q hq => List.mem_singleton.mp hq ▸ ⟨hp, c, hcell⟩

/-- References that were given out are handed on to an object. -/
theorem Counted.hold {ps : List Nat} (hc : Counted h dying (ps ++ roots)) (hp : p ∉ dying)
    {c : Cell α} (hcell : h.cells p = some c) (v : α) :
    h.hold p v ps = .ok (h.put p ⟨c.refcount, v, c.children ++ ps⟩) ∧
      Counted (h.put p ⟨c.refcount, v, c.children ++ ps⟩) dying roots := by
  have hself := Heap.put_self h p ⟨c.refcount, v, c.children ++ ps⟩
  have hown : ∀ r, ownersBut (h.put p ⟨c.refcount, v, c.children ++ ps⟩) dying roots r =
      ownersBut h dying (ps ++ roots) r := by
    intro r
    have hmem : p ∈ Finset.range h.next \ dying :=
      Finset.mem_sdiff.mpr ⟨Finset.mem_range.mpr (hc.lt p c hcell), hp⟩
    rw [ownersBut_append, ownersBut, ownersBut,
      show (h.put p ⟨c.refcount, v, c.children ++ ps⟩).next = h.next from rfl,
      sum_holds hmem, sum_holds hmem, holds_of_cells hself, holds_of_cells hcell,
      List.count_append]
    have hrest : ((Finset.range h.next \ dying).erase p).sum
        (holds (h.put p ⟨c.refcount, v, c.children ++ ps⟩) r) =
        ((Finset.range h.next \ dying).erase p).sum (holds h r) := by
      apply Finset.sum_congr rfl
      intro q hq
      rw [holds, holds, Heap.put_ne (Finset.ne_of_mem_erase hq)]
    rw [hrest]
    omega
  constructor
  · simp only [Heap.hold, Heap.get_of_cells hcell, bind, Except.bind]
    rfl
  refine ⟨?_, ?_, ?_, hc.dyingLt⟩
  · intro q hq c' hc'
    rw [hown]
    by_cases hqp : q = p
    · rw [hqp, hself] at hc'
      cases hc'
      exact hqp ▸ hc.refcount p hp c hcell
    · exact hc.refcount q hq c' ((Heap.put_ne hqp _).symm.trans hc')
  · intro q hq
    rw [hown] at hq
    obtain ⟨hd, c', hc'⟩ := hc.live q hq
    refine ⟨hd, ?_⟩
    by_cases hqp : q = p
    · rw [hqp]
      exact ⟨_, hself⟩
    · exact ⟨c', (Heap.put_ne hqp _).trans hc'⟩
  · intro q c' hc'
    by_cases hqp : q = p
    · exact hqp ▸ hc.lt p c hcell
    · exact hc.lt q c' ((Heap.put_ne hqp _).symm.trans hc')

/-- A new object holds references that are taken for it. -/
theorem Counted.allocHolding (hc : Counted h ∅ roots) {ps : List Nat} (v0 v : α)
    (hps : ∀ q ∈ ps, (∃ c, h.cells q = some c) ∧ q ≠ h.next) :
    Counted (((h.alloc v0).addRefs ps).put h.next ⟨1, v, ps⟩) ∅ (h.next :: roots) := by
  have hself : (h.alloc v0).cells h.next = some ⟨1, v0, []⟩ := Function.update_self _ _ _
  have hnot : h.next ∉ ps := fun hmem => (hps _ hmem).2 rfl
  have hcell : ((h.alloc v0).addRefs ps).cells h.next = some ⟨1, v0, []⟩ :=
    (Heap.addRefs_cells_of_notMem hnot).trans hself
  have hadded : Counted ((h.alloc v0).addRefs ps) ∅ (ps ++ h.next :: roots) := by
    apply (hc.alloc v0).addRefs
    intro q hq
    obtain ⟨⟨c, hcq⟩, hne⟩ := hps q hq
    exact ⟨Finset.notMem_empty q, c, (Function.update_of_ne hne _ _).trans hcq⟩
  exact (hadded.hold (Finset.notMem_empty _) hcell v).2

/-- Nothing is released as long as another owner is left. -/
theorem Counted.unref_shared (hc : Counted h dying (p :: roots)) {c : Cell α}
    (hcell : h.cells p = some c) (hne : c.refcount - 1 ≠ 0) :
    Counted (h.put p { c with refcount := c.refcount - 1 }) dying roots := by
  obtain ⟨hp, c0, hc0, hcount⟩ := hc.root
  cases hcell.symm.trans hc0
  have hown : ∀ q, ownersBut (h.put p { c with refcount := c.refcount - 1 }) dying roots q =
      ownersBut h dying roots q := fun q =>
    ownersBut_congr rfl fun r _ => holds_put hcell rfl
  refine ⟨?_, ?_, ?_, hc.dyingLt⟩
  · intro q hq c' hc'
    rw [hown]
    by_cases hqp : q = p
    · rw [hqp, Heap.put_self] at hc'
      cases hc'
      rw [hqp]
      simp only
      omega
    · have hold := hc.refcount q hq c' ((Heap.put_ne hqp _).symm.trans hc')
      rwa [ownersBut_cons, if_neg (Ne.symm hqp)] at hold
  · intro q hq
    rw [hown] at hq
    obtain ⟨hd, c', hc'⟩ := hc.live q (by rw [ownersBut_cons]; omega)
    refine ⟨hd, ?_⟩
    by_cases hqp : q = p
    · rw [hqp]
      exact ⟨_, Heap.put_self h p _⟩
    · exact ⟨c', (Heap.put_ne hqp _).trans hc'⟩
  · intro q c' hc'
    by_cases hqp : q = p
    · exact hqp ▸ hc.lt p c hcell
    · exact hc.lt q c' ((Heap.put_ne hqp _).symm.trans hc')

/-- With its last reference gone, an object begins to give back what it holds. -/
theorem Counted.beginDying (hc : Counted h dying (p :: roots)) {c : Cell α}
    (hcell : h.cells p = some c) (hlast : c.refcount = 1) :
    Counted (h.put p { c with refcount := 0 }) (insert p dying) (c.children ++ roots) := by
  obtain ⟨hp, c0, hc0, hcount⟩ := hc.root
  cases hcell.symm.trans hc0
  have hzero : ownersBut h dying roots p = 0 := by omega
  have hown : ∀ q, ownersBut (h.put p { c with refcount := 0 }) (insert p dying)
      (c.children ++ roots) q = ownersBut h dying roots q := by
    intro q
    rw [← ownersBut_insert hp hcell (hc.lt p c hcell)]
    exact ownersBut_congr rfl fun r _ => holds_put hcell rfl
  refine ⟨?_, ?_, ?_, ?_⟩
  · intro q hq c' hc'
    obtain ⟨hqp, hqd⟩ := not_or.mp (Finset.mem_insert.not.mp hq)
    have hold := hc.refcount q hqd c' ((Heap.put_ne hqp _).symm.trans hc')
    rw [ownersBut_cons, if_neg (Ne.symm hqp)] at hold
    rw [hown]
    exact hold
  · intro q hq
    rw [hown] at hq
    have hqp : q ≠ p := by
      rintro rfl
      omega
    obtain ⟨hd, c', hc'⟩ := hc.live q (by rw [ownersBut_cons]; omega)
    exact ⟨Finset.mem_insert.not.mpr (not_or.mpr ⟨hqp, hd⟩), c', (Heap.put_ne hqp _).trans hc'⟩
  · intro q c' hc'
    by_cases hqp : q = p
    · exact hqp ▸ hc.lt p c hcell
    · exact hc.lt q c' ((Heap.put_ne hqp _).symm.trans hc')
  · intro q hq
    rcases Finset.mem_insert.mp hq with rfl | hq
    · exact hc.lt q c hcell
    · exact hc.dyingLt q hq

/-- A dying object that has given back everything is released. -/
theorem Counted.free (hc : Counted h (insert p dying) roots) (hp : p ∉ dying) :
    Counted (h.free p) dying roots := by
  have hgone : (h.free p).cells p = none := Function.update_self _ _ _
  have hother : ∀ q, q ≠ p → (h.free p).cells q = h.cells q := fun q hq =>
    Function.update_of_ne hq _ _
  have hlt : p < h.next := hc.dyingLt p (Finset.mem_insert_self p dying)
  have hown : ∀ q, ownersBut (h.free p) dying roots q = ownersBut h (insert p dying) roots q := by
    intro q
    have hmem : p ∈ Finset.range h.next \ dying :=
      Finset.mem_sdiff.mpr ⟨Finset.mem_range.mpr hlt, hp⟩
    rw [ownersBut, ownersBut, show (h.free p).next = h.next from rfl, sum_holds hmem,
      holds_of_none hgone, Nat.zero_add, Finset.sdiff_insert]
    refine congrArg _ (Finset.sum_congr rfl ?_)
    intro r hr
    rw [holds, holds, hother r (Finset.ne_of_mem_erase hr)]
  refine ⟨?_, ?_, ?_, fun q hq => hc.dyingLt q (Finset.mem_insert_of_mem hq)⟩
  · intro q hq c hcell
    have hqp : q ≠ p := by
      rintro rfl
      rw [hgone] at hcell
      cases hcell
    rw [hown]
    exact hc.refcount q (Finset.mem_insert.not.mpr (not_or.mpr ⟨hqp, hq⟩)) c
      ((hother q hqp).symm.trans hcell)
  · intro q hq
    rw [hown] at hq
    obtain ⟨hd, c, hcell⟩ := hc.live q hq
    obtain ⟨hqp, hqd⟩ := not_or.mp (Finset.mem_insert.not.mp hd)
    exact ⟨hqd, c, (hother q hqp).trans hcell⟩
  · intro q c hcell
    by_cases hqp : q = p
    · exact hqp ▸ hlt
    · exact hc.lt q c ((hother q hqp).symm.trans hcell)

theorem Remains.put {c c' : Cell α} (hcell : h.cells p = some c) (hv : c'.val = c.val)
    (hk : c'.children = c.children) : Remains h (h.put p c') := by
  refine ⟨rfl, ?_⟩
  intro q d hd
  by_cases hqp : q = p
  · rw [hqp, Heap.put_self] at hd
    cases hd
    exact ⟨c, hqp ▸ hcell, hv, hk⟩
  · exact ⟨d, (Heap.put_ne hqp _).symm.trans hd, rfl, rfl⟩

theorem Remains.addRefs (h : Heap α) (ps : List Nat) : Remains h (h.addRefs ps) := by
  refine ⟨rfl, ?_⟩
  intro q c hcell
  rw [Heap.addRefs_cells, Option.map_eq_some_iff] at hcell
  obtain ⟨c0, hc0, rfl⟩ := hcell
  exact ⟨c0, hc0, rfl, rfl⟩

theorem Remains.free (h : Heap α) (p : Nat) : Remains h (h.free p) := by
  refine ⟨rfl, ?_⟩
  intro q c hcell
  have hqp : q ≠ p := by
    rintro rfl
    have hgone : (h.free q).cells q = none := Function.update_self _ _ _
    rw [hgone] at hcell
    cases hcell
  exact ⟨c, (Function.update_of_ne hqp _ _).symm.trans hcell, rfl, rfl⟩

/-- Giving back a reference leaves a counted heap, whatever it releases.  Each object
    releasing another is dying itself, which bounds the depth of the recursion. -/
theorem Counted.unref {fuel : Nat} (hc : Counted h dying (p :: roots))
    (hfuel : h.next ≤ fuel + dying.card) :
    ∃ h', Heap.unref fuel h p = .ok h' ∧ Counted h' dying roots ∧ Remains h h' := by
  induction fuel generalizing h dying p roots with
  | zero =>
    obtain ⟨hp, c, hcell, -⟩ := hc.root
    have hsub : insert p dying ⊆ Finset.range h.next := by
      intro q hq
      rcases Finset.mem_insert.mp hq with rfl | hq
      · exact Finset.mem_range.mpr (hc.lt q c hcell)
      · exact Finset.mem_range.mpr (hc.dyingLt q hq)
    have hcard := Finset.card_le_card hsub
    rw [Finset.card_insert_of_notMem hp, Finset.card_range] at hcard
    omega
  | succ fuel ih =>
    have hall : ∀ (ps : List Nat) (g : Heap α) (D : Finset Nat), Counted g D (ps ++ roots) →
        g.next ≤ fuel + D.card → ∃ g', Heap.unrefAll (Heap.unref fuel) ps g = .ok g' ∧
          Counted g' D roots ∧ Remains g g' := by
      intro ps
      induction ps with
      | nil => exact fun g D hg _ => ⟨g, rfl, hg, Remains.refl g⟩
      | cons q ps ihps =>
        intro g D hg hcard
        obtain ⟨g1, heq1, hg1, hr1⟩ := ih hg hcard
        obtain ⟨g2, heq2, hg2, hr2⟩ := ihps g1 D hg1 (hr1.1 ▸ hcard)
        refine ⟨g2, ?_, hg2, hr1.trans hr2⟩
        simp only [Heap.unrefAll, heq1, bind, Except.bind, heq2]
    obtain ⟨hp, c, hcell, hcount⟩ := hc.root
    by_cases hlast : c.refcount = 1
    · have hcard : (h.put p { c with refcount := 0 }).next ≤ fuel + (insert p dying).card := by
        rw [Finset.card_insert_of_notMem hp,
          show (h.put p { c with refcount := 0 }).next = h.next from rfl]
        omega
      obtain ⟨h', heq, hc', hr⟩ := hall c.children _ _ (hc.beginDying hcell hlast) hcard
      have hput : Remains h (h.put p { c with refcount := 0 }) := Remains.put hcell rfl rfl
      exact ⟨h'.free p, Heap.unref_last hcell hlast heq, hc'.free hp,
        (hput.trans hr).trans (Remains.free h' p)⟩
    · have hne : c.refcount - 1 ≠ 0 := by omega
      exact ⟨_, Heap.unref_shared hcell hne fuel, hc.unref_shared hcell hne,
        Remains.put hcell rfl rfl⟩

end Libsd.RefHeap

/-
  Libsd/HashTableLoad.lean
  ========================
  **The load of a hash table, in every history.**

  The load is tested only after an insertion that took a free slot, and a doubling
  inserts into a table of which the size starts again from zero.  Between two calls
  the load is bounded all the same (`WithinLoad`), whatever the hash function and
  whichever keys have come to have two slots.  So `ht_index` finds a slot within one
  round (`FindsSlot`), and what an insertion doubles is not doubled again before it
  is filled (`DoublesOnce`).
-/
import Libsd.Basic
import Libsd.HashTableDouble

namespace Libsd.HashTable

open Libsd.LinearProbe

variable {K V : Type}

/-- The table between two calls. -/
structure WithinLoad (ht : SDHashTable K V) : Prop where
  pow : ∃ e, ht.tblSize = 2 ^ e
  init : INIT_SIZE ≤ ht.tblSize
  size : ht.size = (inUseSlots ht ht.tblSize).card
  load : ((ht.size + 1 : Nat) : ℚ) ≤ LOAD_FACTOR * ht.tblSize
  free : ∃ j < ht.tblSize, (ht.tbl j).inUse = false

variable [DecidableEq K]

/-- The slot that the probe `i` of `ht_index` looks at; the sum wraps at 64 bits. -/
def probeSlot (ht : SDHashTable K V) (key : K) (i : Nat) : Nat :=
  (ht.hashFn ht.k1 key + UInt64.ofNat i).toNat % ht.tblSize

/-- The slot is free or holds the key. -/
def Serves (ht : SDHashTable K V) (key : K) (slot : Nat) : Prop :=
  (ht.tbl slot).inUse = false ∨ (ht.tbl slot).key = key

/-- `ht_index` returns the first slot probed that serves, within one round. -/
def FindsSlot (ht : SDHashTable K V) (key : K) : Prop :=
  ∃ d < ht.tblSize, Serves ht key (probeSlot ht key d) ∧
    (∀ i < d, ¬ Serves ht key (probeSlot ht key i)) ∧
    htIndex ht key = .ok (probeSlot ht key d : Int)

variable [Inhabited K] [Inhabited V]

/-- The insertion calls `ht_double_table`, on the table `ht1`. -/
def CallsDouble (ht : SDHashTable K V) (k : K) (v : V) (ht1 : SDHashTable K V) : Prop :=
  ∃ i : Nat, htIndex ht k = .ok (i : Int) ∧ (ht.tbl i).inUse = false ∧ ht1 = putAt ht i k v ∧
    overloaded ht1 = true

/-- The loop of `ht_double_table`, up to slot `i` of the old table. -/
def doubleLoop (old : SDHashTable K V) (i : Nat) : Except Abort (SDHashTable K V) :=
  (List.range i).foldlM (fun ht i =>
      if !(old.tbl i).inUse then .ok ht else insertNested 1 ht (old.tbl i).key (old.tbl i).val)
    { old with size := 0, tblSize := old.tblSize * 2, tbl := fun _ => default }

/-- An insertion that returns has doubled the table once at most, and none of the
    insertions that a doubling makes calls for another. -/
structure DoublesOnce (ht : SDHashTable K V) (k : K) (v : V) : Prop where
  once : ∀ ht', sdHashTableInsert ht k v = .ok ht' →
    ht'.tblSize = ht.tblSize ∨ ((∃ ht1, CallsDouble ht k v ht1) ∧ ht'.tblSize = ht.tblSize * 2)
  inner : ∀ ht1, TriggersDoubling ht k v ht1 → ∀ i < ht1.tblSize, (ht1.tbl i).inUse = true →
    ∃ hti, doubleLoop ht1 i = .ok hti ∧
      ∀ ht2, ¬ CallsDouble hti (ht1.tbl i).key (ht1.tbl i).val ht2

/-- What `ht_double_table` does with its loop. -/
theorem htDoubleTable_eq (old : SDHashTable K V) : htDoubleTable (insertNested 1) old =
    if 2 ^ 64 ≤ ENTRY_SIZE * (old.tblSize * 2) then
      .error (.die "failed to alloc for table doubling\n")
    else (doubleLoop old old.tblSize).bind fun doubled =>
      if doubled.size ≠ old.size then
        .error (.die "expected size to be invariant after doubling\n")
      else .ok doubled := rfl

variable {ht ht' : SDHashTable K V}

omit [DecidableEq K] [Inhabited K] [Inhabited V] in
theorem Counted.withinLoad (h : Counted ht) : WithinLoad ht := by
  obtain ⟨e, -, he⟩ := h.pow
  have hload : (5 * (ht.size + 1) : ℚ) ≤ 3 * ht.tblSize := by exact_mod_cast h.load
  obtain ⟨j, hj, hfree⟩ := exists_free h.size h.size_lt
  refine ⟨⟨e, he⟩, tblSize_ge h.pow, h.size, ?_, j, hj, slot_eq_none.mp hfree⟩
  rw [LOAD_FACTOR]
  push_cast
  linarith

omit [DecidableEq K] [Inhabited K] [Inhabited V] in
theorem serves_iff {k : K} {slot : Nat} : Serves ht k slot ↔
    (layout ht).slot slot = none ∨ (layout ht).slot slot = some k := by
  rw [Serves, slot_eq_none, slot_eq_some]
  cases (ht.tbl slot).inUse <;> simp

omit [DecidableEq K] [Inhabited K] [Inhabited V] in
/-- Reducing modulo the table size absorbs the wrap. -/
theorem probeSlot_eq (h : Counted ht) (k : K) {i : Nat} (hi : i < ht.tblSize) :
    probeSlot ht k i = (layout ht).probe k i := by
  obtain ⟨e, hle, he⟩ := pow_le_of_alloc h.pow h.alloc
  have hlt : i < 2 ^ 64 := by
    have hpow : 2 ^ e ≤ 2 ^ 64 := Nat.pow_le_pow_right (Nat.succ_pos 1) hle
    omega
  rw [probeSlot, UInt64.toNat_add, UInt64.toNat_ofNat_of_lt' hlt]
  exact mod_pow_mod he hle _ _

omit [Inhabited K] [Inhabited V] in
theorem Counted.findsSlot (h : Counted ht) (k : K) : FindsSlot ht k := by
  obtain ⟨d, hd, ⟨hstop, hfirst⟩, hidx⟩ := h.index k
  refine ⟨d, hd, ?_, fun i hi => ?_, ?_⟩
  · rw [probeSlot_eq h k hd, serves_iff]
    exact hstop
  · rw [probeSlot_eq h k (hi.trans hd), serves_iff]
    exact hfirst i hi
  · rw [probeSlot_eq h k hd]
    exact hidx

/-! ### Doubling -/

omit [Inhabited K] [Inhabited V] in
/-- The table that a doubling starts from. -/
theorem CallsDouble.spec (h : Counted ht) {k : K} {v : V} {ht1 : SDHashTable K V}
    (hcall : CallsDouble ht k v ht1) : ht1.tblSize = ht.tblSize ∧
      ht1.size = (inUseSlots ht1 ht1.tblSize).card ∧ 5 * ht1.size ≤ 3 * ht1.tblSize := by
  obtain ⟨i, hidx, hfree, rfl, -⟩ := hcall
  obtain ⟨d, -, -, hidx'⟩ := h.index k
  have hload := h.load
  have hi : i < ht.tblSize := by
    have : i = (layout ht).probe k d := Int.ofNat_inj.mp (Except.ok.inj (hidx.symm.trans hidx'))
    exact this ▸ (layout ht).probe_lt (show 0 < (layout ht).n by rw [layout_n]; omega) k d
  refine ⟨rfl, size_putAt h.size hi k v, ?_⟩
  have hsz : (putAt ht i k v).size = ht.size + 1 := by simp [putAt, hfree]
  rw [hsz]
  exact hload

theorem double_tblSize {old : SDHashTable K V}
    (hsize : old.size = (inUseSlots old old.tblSize).card)
    (hpow : ∃ e, 3 ≤ e ∧ old.tblSize = 2 ^ e) (hload : 5 * old.size ≤ 3 * old.tblSize)
    (hdbl : htDoubleTable (insertNested 1) old = .ok ht') : ht'.tblSize = old.tblSize * 2 := by
  rw [htDoubleTable_eq] at hdbl
  split at hdbl
  · simp at hdbl
  · next halloc =>
    obtain ⟨hti, hloop, -, hts⟩ :=
      reinsert_slots hpow hsize hload (by omega) 0 old.tblSize le_rfl
    rw [show doubleLoop old old.tblSize = .ok hti from hloop] at hdbl
    simp only [Except.bind] at hdbl
    split at hdbl
    · simp at hdbl
    · rw [← Except.ok.inj hdbl]
      exact hts

theorem Counted.doublesOnce (h : Counted ht) (k : K) (v : V) : DoublesOnce ht k v where
  once ht' hins := by
    obtain ⟨d, -, -, hidx⟩ := h.index k
    rw [sdHashTableInsert, insertNested_eq hidx] at hins
    split at hins
    · exact .inl (Except.ok.inj hins ▸ rfl)
    · next hfree =>
      split at hins
      · next hover =>
        have hcall : CallsDouble ht k v (putAt ht ((layout ht).probe k d) k v) :=
          ⟨_, hidx, by simpa using hfree, rfl, hover⟩
        obtain ⟨-, hsize, hload⟩ := hcall.spec h
        have hdbl := double_tblSize hsize h.pow hload hins
        exact .inr ⟨⟨_, hcall⟩, hdbl⟩
      · exact .inl (Except.ok.inj hins ▸ rfl)
  inner ht1 htrig i hi hu := by
    obtain ⟨j, hidx, hfree, he, hover, halloc⟩ := htrig
    obtain ⟨hts, hsize, hload⟩ := CallsDouble.spec h ⟨j, hidx, hfree, he, hover⟩
    have hpow : ∃ e, 3 ≤ e ∧ ht1.tblSize = 2 ^ e := by
      rw [hts]
      exact h.pow
    obtain ⟨hti, hloop, hrep, htsi⟩ := reinsert_slots hpow hsize hload halloc 0 i (by omega)
    refine ⟨hti, hloop, ?_⟩
    rintro ht2 ⟨n, hidx2, -, rfl, hover2⟩
    obtain ⟨d, hd, hstop, hidx2'⟩ := hrep.index hrep.size_lt (ht1.tbl i).key
    obtain rfl : n = (layout hti).probe (ht1.tbl i).key d :=
      Int.ofNat_inj.mp (Except.ok.inj (hidx2.symm.trans hidx2'))
    -- the table being filled has room for all that was in the old one
    have hroom := load_reinsert hsize hload (hts ▸ h.withinLoad.init) htsi hi hu
      (hrep.toHolds.putAt hd hstop (ht1.tbl i).val)
    rw [(overloaded_eq_false (by omega)).mpr hroom] at hover2
    cases hover2

/-! ### In every history -/

/-- A call on such a table that does not return has asked for more memory than there is,
    or found a key in two slots while it doubled the table. -/
theorem apply_error (h : Counted ht) {op : Op K V} {e : Abort} (herr : op.apply ht = .error e) :
    e = .die "failed to alloc for table doubling\n" ∨
      e = .die "expected size to be invariant after doubling\n" := by
  cases op with
  | insert k v =>
    have hins := insert_counted h k v
    rw [show sdHashTableInsert ht k v = .error e from herr] at hins
    exact hins
  | remove k =>
    obtain ⟨ht1, heq, -⟩ := remove_counted h k
    rw [show (Op.remove k : Op K V).apply ht = .ok ht1 from heq] at herr
    cases herr
  | lookup k =>
    obtain ⟨d, -, -, hidx⟩ := h.index k
    simp only [Op.apply, sdHashTableLookup, hidx, bind, Except.bind, Except.map,
      Int.toNat_natCast, if_neg (show ¬ ((layout ht).probe k d : Int) < 0 by omega)] at herr
    split at herr
    · next hval => split at hval <;> simp at hval
    · simp at herr
  | contains k =>
    obtain ⟨d, -, -, hidx⟩ := h.index k
    simp only [Op.apply, sdHashTableContains, hidx, bind, Except.bind, Except.map,
      if_neg (show ¬ ((layout ht).probe k d : Int) < 0 by omega)] at herr
    simp at herr

/-- In every history, whatever the hash function, the load is bounded after each call that
    returns; then `ht_index` finds a slot for every key, the assertion never fails, and an
    insertion doubles the table once at most. -/
theorem run_withinLoad (hashFn : List UInt8 → K → UInt64) (k1 : List UInt8)
    (keyRemovedFn valueRemovedFn : Bool) {ops : List (Op K V)}
    (hrun : run (newTable hashFn k1 keyRemovedFn valueRemovedFn) ops = .ok ht) :
    WithinLoad ht ∧ (∀ k, FindsSlot ht k) ∧
      (∀ (op : Op K V) (e : Abort), op.apply ht = .error e →
        e = .die "failed to alloc for table doubling\n" ∨
          e = .die "expected size to be invariant after doubling\n") ∧
      ∀ k v, DoublesOnce ht k v := by
  have hnew := (newTable_represents (V := V) hashFn k1 keyRemovedFn valueRemovedFn).counted
  have h := run_counted hnew hrun
  exact ⟨h.withinLoad, h.findsSlot, fun op e => apply_error h, h.doublesOnce⟩

/-- Four keys fill a table to its load, and a fifth has it doubled. -/
theorem run_withinLoad_doubled : ∃ ht : SDHashTable UInt64 UInt64,
    run (newTable hashLong (List.replicate 16 0) false false)
      [.insert 1 100, .insert 2 200, .remove 1, .insert 3 300, .insert 4 400, .insert 5 500] =
        .ok ht ∧ ht.tblSize = 16 ∧ WithinLoad ht ∧ ∀ k, FindsSlot ht k := by
  obtain ⟨ht, hrun, hsize⟩ := exists_ok (P := fun ht => decide (ht.tblSize = 16))
    (x := run (newTable hashLong (List.replicate 16 0) false false : SDHashTable UInt64 UInt64)
      [.insert 1 100, .insert 2 200, .remove 1, .insert 3 300, .insert 4 400, .insert 5 500])
    (by decide +kernel)
  obtain ⟨hload, hfinds, -⟩ := run_withinLoad _ _ _ _ hrun
  exact ⟨ht, hrun, of_decide_eq_true hsize, hload, hfinds⟩

end Libsd.HashTable

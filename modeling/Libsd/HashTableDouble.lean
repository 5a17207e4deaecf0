/-
  Libsd/HashTableDouble.lean
  ==========================
  **What a doubling does to a table that any history can have produced.**

  A removal can cut the probe chain of another key, and inserting that key again
  then gives it a second slot.  `Counted` is what remains true of every reachable
  table: its size is the number of slots in use, and its load is bounded.  The
  doubling inserts the slots one by one into an empty table, so it keeps the
  associations and the size exactly when every key is in one slot only
  (`doubling_iff`).
-/
import Libsd.HashTableMap
import Libsd.Lib.Outcome

namespace Libsd.HashTable

open Libsd.LinearProbe

variable {K V : Type}

/-- Some slot associates the key with the value. -/
def Associates (ht : SDHashTable K V) (k : K) (v : V) : Prop :=
  ∃ j < ht.tblSize, ht.tbl j = { inUse := true, key := k, val := v }

/-- A table of which the size and the load are right. -/
structure Counted (ht : SDHashTable K V) : Prop where
  pow : ∃ e, 3 ≤ e ∧ ht.tblSize = 2 ^ e
  alloc : ENTRY_SIZE * ht.tblSize < 2 ^ 64
  size : ht.size = (inUseSlots ht ht.tblSize).card
  load : 5 * (ht.size + 1) ≤ 3 * ht.tblSize

variable {ht ht' : SDHashTable K V}

theorem inUseSlots_putAt {n i : Nat} (hi : i < n) (k : K) (v : V) :
    inUseSlots (putAt ht i k v) n = insert i (inUseSlots ht n) := by
  ext j
  rw [Finset.mem_insert, mem_inUseSlots, mem_inUseSlots]
  by_cases hj : j = i
  · subst hj
    simp [putAt, hi]
  · simp [putAt, hj]

theorem inUseSlots_clearAt [Inhabited K] [Inhabited V] (n i : Nat) :
    inUseSlots (clearAt ht i) n = (inUseSlots ht n).erase i := by
  ext j
  rw [Finset.mem_erase, mem_inUseSlots, mem_inUseSlots]
  by_cases hj : j = i
  · subst hj
    simp [clearAt, default]
  · simp [clearAt, hj]

/-- Writing at a slot counts it, if it was free. -/
theorem size_putAt (hsize : ht.size = (inUseSlots ht ht.tblSize).card) {i : Nat}
    (hi : i < ht.tblSize) (k : K) (v : V) :
    (putAt ht i k v).size = (inUseSlots (putAt ht i k v) ht.tblSize).card := by
  rw [inUseSlots_putAt hi]
  by_cases hu : (ht.tbl i).inUse = true
  · rw [Finset.insert_eq_of_mem (mem_inUseSlots.mpr ⟨hi, hu⟩), ← hsize, putAt, if_pos hu]
  · rw [Finset.card_insert_of_notMem fun hm => hu (mem_inUseSlots.mp hm).2, ← hsize,
      putAt, if_neg hu]

theorem Counted.size_lt (h : Counted ht) : ht.size < ht.tblSize := by
  have := h.load
  omega

variable [DecidableEq K]

theorem Counted.index (h : Counted ht) (k : K) : ∃ d < ht.tblSize, (layout ht).FirstStop k d ∧
    htIndex ht k = .ok ((layout ht).probe k d : Int) :=
  index_of_size h.pow h.alloc h.size h.size_lt k

theorem Represents.counted {m : Finmap fun _ : K => V} (h : Represents ht m) : Counted ht :=
  ⟨h.pow, h.alloc, h.toHolds.size_inUse, h.load⟩

/-! ### A doubling -/

variable [Inhabited K] [Inhabited V]

/-- What a doubling is to do: keep the associations, a slot for each key, and the size. -/
def DoublesWell (ht : SDHashTable K V) : Prop :=
  ∃ ht', htDoubleTable (insertNested 1) ht = .ok ht' ∧ ht'.size = ht.size ∧
    (∀ k v, Associates ht' k v ↔ Associates ht k v) ∧ OneSlotPerKey ht'

/-- A doubling that can be allocated either does that or ends the process. -/
theorem double_cases (hpow : ∃ e, 3 ≤ e ∧ ht.tblSize = 2 ^ e)
    (hsize : ht.size = (inUseSlots ht ht.tblSize).card) (hload : 5 * ht.size ≤ 3 * ht.tblSize)
    (halloc : ENTRY_SIZE * (ht.tblSize * 2) < 2 ^ 64) :
    (OneSlotPerKey ht → ∃ ht', htDoubleTable (insertNested 1) ht = .ok ht' ∧
      Represents ht' (slotsMap ht ht.tblSize) ∧ ht'.size = ht.size) ∧
    (¬ OneSlotPerKey ht → htDoubleTable (insertNested 1) ht =
      .error (.die "expected size to be invariant after doubling\n")) := by
  obtain ⟨ht', hrep, hcard, hdbl⟩ := double_eq hpow hsize hload halloc 0
  refine ⟨fun h => ⟨ht', ?_, hrep, hcard.mpr h⟩, fun h => ?_⟩
  · rw [hdbl, if_neg (not_not.mpr (hcard.mpr h))]
  · rw [hdbl, if_pos fun he => h (hcard.mp he)]

theorem doublesWell_iff (hpow : ∃ e, 3 ≤ e ∧ ht.tblSize = 2 ^ e)
    (hsize : ht.size = (inUseSlots ht ht.tblSize).card) (hload : 5 * ht.size ≤ 3 * ht.tblSize)
    (halloc : ENTRY_SIZE * (ht.tblSize * 2) < 2 ^ 64) : DoublesWell ht ↔ OneSlotPerKey ht := by
  obtain ⟨hgood, hbad⟩ := double_cases hpow hsize hload halloc
  constructor
  · rintro ⟨ht', hdbl, -⟩
    by_contra h
    rw [hbad h] at hdbl
    cases hdbl
  · intro h
    obtain ⟨ht', hdbl, hrep, hs⟩ := hgood h
    exact ⟨ht', hdbl, hs, fun k v =>
      (hrep.entries k v).symm.trans (lookup_slotsMap h le_rfl k v), .of_represents hrep.toHolds⟩

/-! ### Reachable tables -/

/-- The insertion of `k` takes a free slot and then doubles the table `ht1`, which can
    be allocated. -/
def TriggersDoubling (ht : SDHashTable K V) (k : K) (v : V) (ht1 : SDHashTable K V) : Prop :=
  ∃ i : Nat, htIndex ht k = .ok (i : Int) ∧ (ht.tbl i).inUse = false ∧ ht1 = putAt ht i k v ∧
    overloaded ht1 = true ∧ ENTRY_SIZE * (ht1.tblSize * 2) < 2 ^ 64

/-- Some slot holds the key. -/
def Stored (ht : SDHashTable K V) (k : K) : Prop :=
  ∃ j < ht.tblSize, (ht.tbl j).inUse = true ∧ (ht.tbl j).key = k

omit [DecidableEq K] [Inhabited K] [Inhabited V] in
theorem oneSlotPerKey_putAt {i : Nat} (hi : i < ht.tblSize) (hfree : (ht.tbl i).inUse = false)
    (k : K) (v : V) : OneSlotPerKey (putAt ht i k v) ↔ OneSlotPerKey ht ∧ ¬ Stored ht k := by
  have hself : (putAt ht i k v).tbl i = ⟨true, k, v⟩ := Function.update_self ..
  have hne : ∀ j, j ≠ i → (putAt ht i k v).tbl j = ht.tbl j := fun j hj =>
    Function.update_of_ne hj ..
  have hused : ∀ j, (ht.tbl j).inUse = true → j ≠ i := by
    rintro j hj rfl
    rw [hfree] at hj
    cases hj
  constructor
  · intro h
    refine ⟨fun a ha b hb hua hub hk => ?_, ?_⟩
    · have := h a ha b hb
      rw [hne a (hused a hua), hne b (hused b hub)] at this
      exact this hua hub hk
    · rintro ⟨j, hj, hu, hk⟩
      have := h j hj i hi
      rw [hne j (hused j hu), hself] at this
      exact hused j hu (this hu rfl hk)
  · rintro ⟨h, hk⟩ a ha b hb hua hub hkey
    by_cases hai : a = i <;> by_cases hbi : b = i
    · exact hai.trans hbi.symm
    · rw [hai, hself, hne b hbi] at hkey
      rw [hne b hbi] at hub
      exact absurd ⟨b, hb, hub, hkey.symm⟩ hk
    · rw [hbi, hself, hne a hai] at hkey
      rw [hne a hai] at hua
      exact absurd ⟨a, ha, hua, hkey⟩ hk
    · rw [hne a hai] at hua hkey
      rw [hne b hbi] at hub hkey
      exact h a ha b hb hua hub hkey

/-- What the table about to be doubled is like. -/
theorem TriggersDoubling.doublesWell_iff {k : K} {v : V} {ht1 : SDHashTable K V}
    (h : Counted ht) (ht1h : TriggersDoubling ht k v ht1) :
    DoublesWell ht1 ↔ OneSlotPerKey ht ∧ ¬ Stored ht k := by
  obtain ⟨i, hidx, hfree, rfl, -, halloc⟩ := ht1h
  obtain ⟨d, -, -, hidx'⟩ := h.index k
  have hi : i < ht.tblSize := by
    have hn : 0 < ht.tblSize := by have := h.load; omega
    have : i = (layout ht).probe k d := Int.ofNat_inj.mp (Except.ok.inj (hidx.symm.trans hidx'))
    exact this ▸ (layout ht).probe_lt hn k d
  rw [← oneSlotPerKey_putAt hi hfree k v]
  refine HashTable.doublesWell_iff h.pow (size_putAt h.size hi k v) ?_ halloc
  have hload := h.load
  have hsz : (putAt ht i k v).size = ht.size + 1 := by simp [putAt, hfree]
  rw [hsz]
  exact hload

/-- What an insertion does to a reachable table. -/
theorem insert_counted (h : Counted ht) (k : K) (v : V) :
    match sdHashTableInsert ht k v with
    | .ok ht' => Counted ht' ∧
        (OneSlotPerKey ht → (Stored ht k → ∃ i : Nat, htIndex ht k = .ok (i : Int) ∧
          (ht.tbl i).inUse = true) → OneSlotPerKey ht')
    | .error e => e = .die "failed to alloc for table doubling\n" ∨
        e = .die "expected size to be invariant after doubling\n" := by
  obtain ⟨d, hd, hstop, hidx⟩ := h.index k
  have hload := h.load
  have hlt := (layout ht).probe_lt (show 0 < (layout ht).n by rw [layout_n]; omega) k d
  rw [sdHashTableInsert, insertNested_eq hidx]
  have hsize := size_putAt h.size hlt k v
  have hts : (putAt ht ((layout ht).probe k d) k v).tblSize = ht.tblSize := rfl
  cases hu : (ht.tbl ((layout ht).probe k d)).inUse with
  | true =>
    -- the slot found already holds the key
    have hkey : (ht.tbl ((layout ht).probe k d)).key = k := by
      rcases hstop.1 with hnone | hs
      · rw [slot_eq_none.mp hnone] at hu
        cases hu
      · exact (slot_eq_some.mp hs).2
    have hsz : (putAt ht ((layout ht).probe k d) k v).size = ht.size := by simp [putAt, hu]
    refine ⟨⟨h.pow, h.alloc, hsize, by rw [hsz]; exact hload⟩, fun hone _ => ?_⟩
    have hsame : ∀ j, ((putAt ht ((layout ht).probe k d) k v).tbl j).inUse = (ht.tbl j).inUse ∧
        ((putAt ht ((layout ht).probe k d) k v).tbl j).key = (ht.tbl j).key := by
      intro j
      by_cases hj : j = (layout ht).probe k d
      · subst hj
        simp [putAt, hu, hkey]
      · simp [putAt, hj]
    intro a ha b hb hua hub hab
    rw [(hsame a).1] at hua
    rw [(hsame b).1] at hub
    rw [(hsame a).2, (hsame b).2] at hab
    exact hone a ha b hb hua hub hab
  | false =>
    have hsz : (putAt ht ((layout ht).probe k d) k v).size = ht.size + 1 := by simp [putAt, hu]
    cases ho : overloaded (putAt ht ((layout ht).probe k d) k v) with
    | false =>
      refine ⟨⟨h.pow, h.alloc, hsize, (overloaded_eq_false (by rw [hts]; omega)).mp ho⟩,
        fun hone hfind => (oneSlotPerKey_putAt hlt hu k v).mpr ⟨hone, fun hst => ?_⟩⟩
      obtain ⟨i, hi, hui⟩ := hfind hst
      have : i = (layout ht).probe k d := Int.ofNat_inj.mp (Except.ok.inj (hi.symm.trans hidx))
      rw [this, hu] at hui
      cases hui
    | true =>
      rw [if_neg (by simp), if_pos rfl]
      by_cases halloc : 2 ^ 64 ≤ ENTRY_SIZE * (ht.tblSize * 2)
      · rw [htDoubleTable, hts, if_pos halloc]
        exact .inl rfl
      · have hpow : ∃ e, 3 ≤ e ∧ (putAt ht ((layout ht).probe k d) k v).tblSize = 2 ^ e := h.pow
        obtain ⟨hgood, hbad⟩ := double_cases hpow hsize (by rw [hsz, hts]; exact hload)
          (by rw [hts]; omega)
        by_cases hone1 : OneSlotPerKey (putAt ht ((layout ht).probe k d) k v)
        · obtain ⟨ht', hdbl, hrep, -⟩ := hgood hone1
          rw [hdbl]
          exact ⟨hrep.counted, fun _ _ => .of_represents hrep.toHolds⟩
        · rw [hbad hone1]
          exact .inr rfl

theorem remove_counted (h : Counted ht) (k : K) :
    ∃ ht', (sdHashTableRemove ht k).map Prod.fst = .ok ht' ∧ Counted ht' ∧
      (OneSlotPerKey ht → OneSlotPerKey ht') := by
  obtain ⟨d, hd, hstop, hidx⟩ := h.index k
  have hload := h.load
  have hlt := (layout ht).probe_lt (show 0 < (layout ht).n by rw [layout_n]; omega) k d
  simp only [sdHashTableRemove, hidx, bind, Except.bind, Int.toNat_natCast]
  rw [if_neg (by omega)]
  cases hu : (ht.tbl ((layout ht).probe k d)).inUse with
  | false => exact ⟨ht, rfl, h, id⟩
  | true =>
    have hmem : (layout ht).probe k d ∈ inUseSlots ht ht.tblSize := mem_inUseSlots.mpr ⟨hlt, hu⟩
    refine ⟨clearAt ht ((layout ht).probe k d), rfl, ⟨h.pow, h.alloc, ?_, ?_⟩, fun hone => ?_⟩
    · show ht.size - 1 = (inUseSlots (clearAt ht ((layout ht).probe k d)) ht.tblSize).card
      rw [inUseSlots_clearAt, Finset.card_erase_of_mem hmem, h.size]
    · show 5 * (ht.size - 1 + 1) ≤ 3 * ht.tblSize
      omega
    · intro a ha b hb hua hub hab
      have hold : ∀ j, ((clearAt ht ((layout ht).probe k d)).tbl j).inUse = true →
          (clearAt ht ((layout ht).probe k d)).tbl j = ht.tbl j := by
        intro j hj
        refine Function.update_of_ne ?_ _ _
        rintro rfl
        simp [clearAt, default] at hj
      have hea := hold a hua
      have heb := hold b hub
      rw [hea] at hua hab
      rw [heb] at hub hab
      exact hone a ha b hb hua hub hab

theorem apply_counted (h : Counted ht) (op : Op K V) (heq : op.apply ht = .ok ht') :
    Counted ht' ∧ (OneSlotPerKey ht → (∀ k v, op = .insert k v → Stored ht k →
      ∃ i : Nat, htIndex ht k = .ok (i : Int) ∧ (ht.tbl i).inUse = true) → OneSlotPerKey ht') := by
  cases op with
  | insert k v =>
    have hins := insert_counted h k v
    rw [show sdHashTableInsert ht k v = .ok ht' from heq] at hins
    exact ⟨hins.1, fun hone hfind => hins.2 hone (hfind k v rfl)⟩
  | remove k =>
    obtain ⟨ht1, heq1, hcount, hone⟩ := remove_counted h k
    obtain rfl := Except.ok.inj (heq1.symm.trans heq)
    exact ⟨hcount, fun h _ => hone h⟩
  | lookup k =>
    obtain ⟨d, -, -, hidx⟩ := h.index k
    obtain rfl : ht = ht' := by
      simp only [Op.apply, sdHashTableLookup, hidx, bind, Except.bind, Except.map] at heq
      split at heq
      · cases heq
      · exact Except.ok.inj heq
    exact ⟨h, fun hone _ => hone⟩
  | contains k =>
    obtain ⟨d, -, -, hidx⟩ := h.index k
    obtain rfl : ht = ht' := by
      simp only [Op.apply, sdHashTableContains, hidx, bind, Except.bind, Except.map] at heq
      split at heq
      · cases heq
      · exact Except.ok.inj heq
    exact ⟨h, fun hone _ => hone⟩

/-- The run lemma for what every reachable table is like. -/
theorem run_counted (h : Counted ht) {ops : List (Op K V)} (hrun : run ht ops = .ok ht') :
    Counted ht' :=
  Outcome.foldlM_keeps (fun _ op _ h happly => (apply_counted h op happly).1) h hrun

/-- Every insertion in the history of a stored key finds a slot that holds it. -/
def InsertsFind (ht : SDHashTable K V) (ops : List (Op K V)) : Prop :=
  ∀ pre k v, pre ++ [.insert k v] <+: ops → ∀ ht', run ht pre = .ok ht' → Stored ht' k →
    ∃ i : Nat, htIndex ht' k = .ok (i : Int) ∧ (ht'.tbl i).inUse = true

/-- As long as insertions find what is stored, no key gets a second slot. -/
theorem run_oneSlotPerKey (h : Counted ht) (hone : OneSlotPerKey ht) {ops : List (Op K V)}
    (hfind : InsertsFind ht ops) {pre : List (Op K V)} (hpre : pre <+: ops)
    (hrun : run ht pre = .ok ht') : OneSlotPerKey ht' := by
  induction pre using List.reverseRecOn generalizing ht' with
  | nil =>
    obtain rfl := Except.ok.inj hrun
    exact hone
  | append_singleton pre op ih =>
    rw [run_append_singleton] at hrun
    cases hrun1 : run ht pre with
    | error e => rw [hrun1] at hrun; cases hrun
    | ok ht1 =>
      rw [hrun1] at hrun
      refine (apply_counted (run_counted h hrun1) op hrun).2
        (ih ((List.prefix_append pre [op]).trans hpre) hrun1) ?_
      rintro k v rfl hst
      exact hfind pre k v hpre ht1 hrun1 hst

/-- In every history, the doublings keep the associations and the size exactly when at
    each of them every stored key is in one slot, and the inserted key in none. -/
theorem doubling_iff (hashFn : List UInt8 → K → UInt64) (k1 : List UInt8)
    (keyRemovedFn valueRemovedFn : Bool) (ops : List (Op K V)) :
    (∀ pre k v, pre ++ [.insert k v] <+: ops → ∀ ht ht1,
      run (newTable hashFn k1 keyRemovedFn valueRemovedFn) pre = .ok ht →
      TriggersDoubling ht k v ht1 → DoublesWell ht1) ↔
    (∀ pre k v, pre ++ [.insert k v] <+: ops → ∀ ht ht1,
      run (newTable hashFn k1 keyRemovedFn valueRemovedFn) pre = .ok ht →
      TriggersDoubling ht k v ht1 → OneSlotPerKey ht ∧ ¬ Stored ht k) := by
  have hnew := (newTable_represents (V := V) hashFn k1 keyRemovedFn valueRemovedFn).counted
  refine forall₃_congr fun pre k v => forall_congr' fun _ => forall₂_congr fun ht ht1 => ?_
  refine forall_congr' fun hrun => forall_congr' fun htrig => ?_
  exact htrig.doublesWell_iff (run_counted hnew hrun)

/-- Key 9 is stored, and its chain cut, when it is inserted again: the doubling finds
    three keys in four slots. -/
theorem doubling_dies :
    run (newTable hashLong (List.replicate 16 0) false false : SDHashTable UInt64 UInt64)
      [.insert 1 100, .insert 9 900, .remove 1, .insert 9 901, .insert 2 200, .insert 3 300] =
        .error (.die "expected size to be invariant after doubling\n") := by
  have hdie : (match run (newTable hashLong (List.replicate 16 0) false false :
        SDHashTable UInt64 UInt64) [.insert 1 100, .insert 9 900, .remove 1, .insert 9 901,
          .insert 2 200, .insert 3 300] with
      | .ok _ => false
      | .error e => decide (e = .die "expected size to be invariant after doubling\n")) = true := by
    decide +kernel
  split at hdie
  · cases hdie
  · next e he => rw [he, of_decide_eq_true hdie]

end Libsd.HashTable

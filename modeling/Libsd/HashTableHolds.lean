/-
  Libsd/HashTableHolds.lean
  =========================
  **What the slots of a hash table hold.**

  The abstract side is Mathlib's `Finmap`.  `Represents ht m` says that the slots of
  `ht` hold exactly the bindings of `m`, on a valid probing layout, at a load the next
  insertion can take.  Writing a binding at the slot that `ht_index` returns is the
  insertion into the map (`Holds.putAt`).
-/
import Libsd.HashTable
import Libsd.Lib.LinearProbe
import Mathlib.Data.Finmap
import Mathlib.Data.Finset.Card
import Mathlib.Tactic.Linarith

namespace Libsd.HashTable

open Libsd.LinearProbe

variable {K V : Type}

/-! ### The table as a search sees it -/

def layout (ht : SDHashTable K V) : Layout K where
  n := ht.tblSize
  home := fun k => (ht.hashFn ht.k1 k).toNat
  slot := fun i => if (ht.tbl i).inUse then some (ht.tbl i).key else none

@[simp] theorem layout_n (ht : SDHashTable K V) : (layout ht).n = ht.tblSize := rfl

theorem slot_eq_some {ht : SDHashTable K V} {j : Nat} {k : K} :
    (layout ht).slot j = some k ↔ (ht.tbl j).inUse = true ∧ (ht.tbl j).key = k := by
  simp only [layout]
  split <;> simp_all

theorem slot_eq_none {ht : SDHashTable K V} {j : Nat} :
    (layout ht).slot j = none ↔ (ht.tbl j).inUse = false := by
  simp only [layout]
  split <;> simp_all

theorem entry_of_slot {ht : SDHashTable K V} {j : Nat} {k : K}
    (h : (layout ht).slot j = some k) :
    ht.tbl j = { inUse := true, key := k, val := (ht.tbl j).val } := by
  obtain ⟨hu, hk⟩ := slot_eq_some.mp h
  cases he : ht.tbl j with
  | mk u k' v => rw [he] at hu hk; cases hu; cases hk; rfl

theorem slot_of_entry {ht : SDHashTable K V} {j : Nat} {k : K} {v : V}
    (h : ht.tbl j = { inUse := true, key := k, val := v }) :
    (layout ht).slot j = some k := slot_eq_some.mpr (by rw [h]; exact ⟨rfl, rfl⟩)

/-! ### The slots in use -/

section InUse

variable {ht : SDHashTable K V}

/-- The slots in use among the first `n`. -/
def inUseSlots (ht : SDHashTable K V) (n : Nat) : Finset Nat :=
  (Finset.range n).filter fun j => (ht.tbl j).inUse

/-- No two slots in use hold the same key. -/
def OneSlotPerKey (ht : SDHashTable K V) : Prop :=
  ∀ i < ht.tblSize, ∀ j < ht.tblSize, (ht.tbl i).inUse = true → (ht.tbl j).inUse = true →
    (ht.tbl i).key = (ht.tbl j).key → i = j

theorem mem_inUseSlots {n j : Nat} : j ∈ inUseSlots ht n ↔ j < n ∧ (ht.tbl j).inUse = true := by
  simp [inUseSlots]

theorem pow_le_of_alloc (hpow : ∃ e, 3 ≤ e ∧ ht.tblSize = 2 ^ e)
    (halloc : ENTRY_SIZE * ht.tblSize < 2 ^ 64) : ∃ e, e ≤ 64 ∧ ht.tblSize = 2 ^ e := by
  obtain ⟨e, -, he⟩ := hpow
  refine ⟨e, ?_, he⟩
  by_contra hgt
  have : 2 ^ 65 ≤ 2 ^ e := Nat.pow_le_pow_right (by omega) (by omega)
  simp only [ENTRY_SIZE, he] at halloc
  omega

theorem tblSize_ge (hpow : ∃ e, 3 ≤ e ∧ ht.tblSize = 2 ^ e) : 8 ≤ ht.tblSize := by
  obtain ⟨e, h3, he⟩ := hpow
  calc 8 = 2 ^ 3 := rfl
    _ ≤ 2 ^ e := Nat.pow_le_pow_right (by omega) h3
    _ = ht.tblSize := he.symm

/-- With a size below the number of slots, some slot is empty. -/
theorem exists_free (hsize : ht.size = (inUseSlots ht ht.tblSize).card)
    (hlt : ht.size < ht.tblSize) : ∃ j < ht.tblSize, (layout ht).slot j = none := by
  by_contra hfull
  push Not at hfull
  have hall : inUseSlots ht ht.tblSize = Finset.range ht.tblSize := by
    refine Finset.filter_true_of_mem fun j hj => ?_
    have hj := hfull j (Finset.mem_range.mp hj)
    rwa [ne_eq, slot_eq_none, Bool.not_eq_false] at hj
  rw [hall, Finset.card_range] at hsize
  omega

end InUse

/-! ### The search -/

/-- Reducing modulo the table size absorbs the wrap-around at 64 bits. -/
theorem mod_pow_mod {n e : Nat} (hn : n = 2 ^ e) (hle : e ≤ 64) (a b : Nat) :
    ((a + b) % 2 ^ 64) % n = (a + b) % n := by
  apply Nat.mod_mod_of_dvd
  rw [hn]
  exact Nat.pow_dvd_pow 2 hle

variable [DecidableEq K]

/-- The test of `ht_index` at one probe. -/
theorem stops_iff {ht : SDHashTable K V} {key : K} {i : Nat} :
    (!(ht.tbl ((layout ht).probe key i)).inUse ||
      decide (key = (ht.tbl ((layout ht).probe key i)).key)) = true ↔
      (layout ht).Stops key i := by
  rw [Layout.Stops, slot_eq_none, slot_eq_some]
  cases (ht.tbl ((layout ht).probe key i)).inUse <;> simp [eq_comm]

/-- The loop returns the first stop of the search that is within its fuel. -/
theorem htIndexLoop_eq {ht : SDHashTable K V} {key : K} {e : Nat}
    (hn : ht.tblSize = 2 ^ e) (hle : e ≤ 64) {d : Nat} (hd : d < 2 ^ 64)
    (hstop : (layout ht).FirstStop key d) :
    ∀ fuel i, i ≤ d → d < i + fuel →
      htIndexLoop ht key (ht.hashFn ht.k1 key) fuel i = (layout ht).probe key d := by
  intro fuel
  induction fuel with
  | zero => intro i hi hlt; omega
  | succ fuel ih =>
    intro i hi hlt
    have hpos : (ht.hashFn ht.k1 key + UInt64.ofNat i).toNat % ht.tblSize =
        (layout ht).probe key i := by
      rw [UInt64.toNat_add, UInt64.toNat_ofNat_of_lt' (Nat.lt_of_le_of_lt hi hd)]
      exact mod_pow_mod hn hle _ _
    unfold htIndexLoop
    simp only [hpos]
    by_cases hs : (layout ht).Stops key i
    · -- stops are unique, so this is the one
      have : i = d := by
        rcases Nat.lt_or_ge i d with h | h
        · exact absurd hs (hstop.2 i h)
        · omega
      subst this
      rw [if_pos (stops_iff.mpr hs)]
    · have hne : i ≠ d := by
        rintro rfl
        exact hs hstop.1
      rw [if_neg (fun h => hs (stops_iff.mp h))]
      exact ih (i + 1) (by omega) (by omega)

theorem htIndex_eq {ht : SDHashTable K V} {key : K} {e : Nat}
    (hn : ht.tblSize = 2 ^ e) (hle : e ≤ 64) (hsize : ht.size < ht.tblSize) {d : Nat}
    (hd : d < ht.tblSize) (hstop : (layout ht).FirstStop key d) :
    htIndex ht key = .ok ((layout ht).probe key d : Int) := by
  have hpow : ht.tblSize ≤ 2 ^ 64 := by rw [hn]; exact Nat.pow_le_pow_right (by omega) hle
  rw [htIndex, if_pos hsize, htIndexLoop_eq hn hle (by omega) hstop _ 0 (by omega) (by omega)]

/-- A search ends within one round trip, and `ht_index` returns where. -/
theorem index_of_size {ht : SDHashTable K V} (hpow : ∃ e, 3 ≤ e ∧ ht.tblSize = 2 ^ e)
    (halloc : ENTRY_SIZE * ht.tblSize < 2 ^ 64)
    (hsize : ht.size = (inUseSlots ht ht.tblSize).card) (hlt : ht.size < ht.tblSize) (k : K) :
    ∃ d < ht.tblSize, (layout ht).FirstStop k d ∧
      htIndex ht k = .ok ((layout ht).probe k d : Int) := by
  obtain ⟨j, hj, hfree⟩ := exists_free hsize hlt
  obtain ⟨d, hd, hstop⟩ := (layout ht).exists_firstStop k hj hfree
  obtain ⟨e, he, hn⟩ := pow_le_of_alloc hpow halloc
  exact ⟨d, hd, hstop, htIndex_eq hn he hlt hd hstop⟩

/-! ### The representation invariant -/

/-- The slots of `ht` hold exactly the bindings of `m`. -/
structure Holds (ht : SDHashTable K V) (m : Finmap fun _ : K => V) : Prop where
  pow : ∃ e, 3 ≤ e ∧ ht.tblSize = 2 ^ e
  alloc : ENTRY_SIZE * ht.tblSize < 2 ^ 64
  valid : (layout ht).Valid
  entries : ∀ k v, m.lookup k = some v ↔
    ∃ j < ht.tblSize, ht.tbl j = { inUse := true, key := k, val := v }
  size : ht.size = m.keys.card

/-- `Holds`, at a load factor that a further insertion does not exceed. -/
structure Represents (ht : SDHashTable K V) (m : Finmap fun _ : K => V) : Prop
    extends Holds ht m where
  load : 5 * (ht.size + 1) ≤ 3 * ht.tblSize

/-- Every observation of the table is the one the map gives. -/
structure Behaves [Inhabited V] (ht : SDHashTable K V) (m : Finmap fun _ : K => V) : Prop where
  lookup : ∀ k, sdHashTableLookup ht k =
    .ok ((m.lookup k).isSome, (m.lookup k).getD default)
  contains : ∀ k, sdHashTableContains ht k = .ok (m.lookup k).isSome
  size : sdHashTableSize ht = m.keys.card

section Invariant

variable {ht : SDHashTable K V} {m : Finmap fun _ : K => V}

theorem Represents.size_lt (h : Represents ht m) : ht.size < ht.tblSize := by
  have := h.load
  omega

theorem Holds.mem_iff (h : Holds ht m) (k : K) : (layout ht).Mem k ↔ k ∈ m.keys := by
  rw [Finmap.mem_keys, ← Finmap.lookup_isSome, Option.isSome_iff_exists]
  constructor
  · rintro ⟨j, hj, hs⟩
    exact ⟨(ht.tbl j).val, (h.entries k _).mpr ⟨j, hj, entry_of_slot hs⟩⟩
  · rintro ⟨v, hv⟩
    obtain ⟨j, hj, he⟩ := (h.entries k v).mp hv
    exact ⟨j, hj, slot_of_entry he⟩

theorem OneSlotPerKey.of_represents (h : Holds ht m) :
    OneSlotPerKey ht := fun _ hi _ hj hui huj hk =>
  h.valid.uniq hi hj (slot_eq_some.mpr ⟨hui, rfl⟩) (slot_eq_some.mpr ⟨huj, hk.symm⟩)

theorem Holds.keys_eq (h : Holds ht m) :
    m.keys = (inUseSlots ht ht.tblSize).image fun j => (ht.tbl j).key := by
  ext k
  rw [← h.mem_iff, Finset.mem_image]
  constructor
  · rintro ⟨j, hj, hs⟩
    obtain ⟨hu, hk⟩ := slot_eq_some.mp hs
    exact ⟨j, mem_inUseSlots.mpr ⟨hj, hu⟩, hk⟩
  · rintro ⟨j, hj, hk⟩
    obtain ⟨hj, hu⟩ := mem_inUseSlots.mp hj
    exact ⟨j, hj, slot_eq_some.mpr ⟨hu, hk⟩⟩

theorem card_keys_iff : ((inUseSlots ht ht.tblSize).image fun j => (ht.tbl j).key).card =
    (inUseSlots ht ht.tblSize).card ↔ OneSlotPerKey ht := by
  rw [Finset.card_image_iff]
  constructor
  · intro h i hi j hj hui huj hk
    exact h (mem_inUseSlots.mpr ⟨hi, hui⟩) (mem_inUseSlots.mpr ⟨hj, huj⟩) hk
  · intro h i hi j hj hk
    obtain ⟨hi, hui⟩ := mem_inUseSlots.mp hi
    obtain ⟨hj, huj⟩ := mem_inUseSlots.mp hj
    exact h i hi j hj hui huj hk

theorem Holds.size_inUse (h : Holds ht m) : ht.size = (inUseSlots ht ht.tblSize).card := by
  rw [h.size, h.keys_eq]
  exact card_keys_iff.mpr (.of_represents h)

/-- A search in a table that holds a map ends within one round trip. -/
theorem Holds.index (h : Holds ht m) (hsize : ht.size < ht.tblSize) (k : K) :
    ∃ d < ht.tblSize, (layout ht).FirstStop k d ∧
      htIndex ht k = .ok ((layout ht).probe k d : Int) :=
  index_of_size h.pow h.alloc h.size_inUse hsize k

/-- The slot where the search for `k` ends holds the binding of `k`, if any. -/
theorem Holds.entry_at (h : Holds ht m) {k : K} {d : Nat}
    (hstop : (layout ht).FirstStop k d) :
    (m.lookup k).isSome = (ht.tbl ((layout ht).probe k d)).inUse ∧
      ∀ v, m.lookup k = some v → (ht.tbl ((layout ht).probe k d)).val = v := by
  have hn : 0 < (layout ht).n := Nat.lt_of_lt_of_le (by omega) (tblSize_ge h.pow)
  have hmem := h.valid.mem_iff_of_firstStop hn hstop
  cases hu : (ht.tbl ((layout ht).probe k d)).inUse with
  | false =>
    have hno : ¬ (layout ht).Mem k := by
      rw [hmem, slot_eq_some, hu]
      simp
    have hnone : m.lookup k = none := by
      rw [h.mem_iff, Finmap.mem_keys] at hno
      exact Finmap.lookup_eq_none.mpr hno
    simp [hnone]
  | true =>
    have hs : (layout ht).slot ((layout ht).probe k d) = some k := by
      rcases hstop.1 with hnone | hs
      · rw [slot_eq_none.mp hnone] at hu
        cases hu
      · exact hs
    have hlook : m.lookup k = some (ht.tbl ((layout ht).probe k d)).val :=
      (h.entries k _).mpr ⟨_, (layout ht).probe_lt hn k d, entry_of_slot hs⟩
    rw [hlook]
    refine ⟨rfl, ?_⟩
    intro v hv
    exact Option.some.inj hv

theorem Represents.behaves [Inhabited V] (h : Represents ht m) : Behaves ht m := by
  constructor
  · intro k
    obtain ⟨d, -, hstop, hidx⟩ := h.index h.size_lt k
    obtain ⟨hsome, hval⟩ := h.entry_at hstop
    simp only [sdHashTableLookup, hidx, bind, Except.bind, Int.toNat_natCast]
    rw [if_neg (by omega), ← hsome]
    cases hl : m.lookup k with
    | none => rfl
    | some v => simp [hval v hl]
  · intro k
    obtain ⟨d, -, hstop, hidx⟩ := h.index h.size_lt k
    simp only [sdHashTableContains, hidx, bind, Except.bind, Int.toNat_natCast]
    rw [if_neg (by omega), (h.entry_at hstop).1]
  · exact h.size

end Invariant

/-! ### Writing a binding -/

theorem keys_insert (m : Finmap fun _ : K => V) (k : K) (v : V) :
    (m.insert k v).keys = insert k m.keys := by
  ext k'
  simp [Finmap.mem_keys, Finmap.mem_insert]

/-- The table with a binding written at slot `i`. -/
def putAt (ht : SDHashTable K V) (i : Nat) (k : K) (v : V) : SDHashTable K V :=
  { ht with
    tbl := Function.update ht.tbl i { inUse := true, key := k, val := v }
    size := if (ht.tbl i).inUse then ht.size else ht.size + 1 }

omit [DecidableEq K] in
theorem layout_putAt (ht : SDHashTable K V) (i : Nat) (k : K) (v : V) :
    layout (putAt ht i k v) = (layout ht).put i (some k) := by
  simp only [layout, putAt, Layout.put, Layout.mk.injEq, true_and]
  funext j
  by_cases hj : j = i
  · subst hj; simp
  · simp [hj]

section Insert

variable {ht : SDHashTable K V} {m : Finmap fun _ : K => V}

theorem Holds.putAt (h : Holds ht m) {k : K} {d : Nat} (hd : d < ht.tblSize)
    (hstop : (layout ht).FirstStop k d) (v : V) :
    Holds (putAt ht ((layout ht).probe k d) k v) (m.insert k v) := by
  have hn : 0 < (layout ht).n := Nat.lt_of_le_of_lt (Nat.zero_le d) hd
  have hlt := (layout ht).probe_lt hn k d
  -- no other key occupies the slot written
  have hslot : ∀ {k' v'}, ht.tbl ((layout ht).probe k d) = ⟨true, k', v'⟩ → k' = k := by
    intro k' v' he
    rcases hstop.1 with hnone | hs
    · rw [slot_of_entry he] at hnone; cases hnone
    · rw [slot_of_entry he] at hs; exact Option.some.inj hs
  refine ⟨h.pow, h.alloc, ?_, ?_, ?_⟩
  · rw [layout_putAt]
    exact h.valid.set hd hstop
  · intro k' v'
    by_cases hk : k' = k
    · subst hk
      rw [Finmap.lookup_insert]
      constructor
      · intro hv
        cases hv
        exact ⟨_, hlt, Function.update_self ..⟩
      · rintro ⟨j, hj, hjv⟩
        by_cases hjp : j = (layout ht).probe k' d
        · subst hjp
          simp only [HashTable.putAt, Function.update_self, Entry.mk.injEq] at hjv
          rw [hjv.2.2]
        · -- an older slot with this key would be the slot written
          simp only [HashTable.putAt, Function.update_of_ne hjp] at hjv
          have hs := slot_of_entry hjv
          have hhome := (h.valid.mem_iff_of_firstStop hn hstop).mp ⟨j, hj, hs⟩
          exact absurd (h.valid.uniq hj hlt hs hhome) hjp
    · rw [Finmap.lookup_insert_of_ne _ hk, h.entries]
      constructor
      · rintro ⟨j, hj, hjv⟩
        have hjp : j ≠ (layout ht).probe k d := by
          rintro rfl
          exact hk (hslot hjv)
        exact ⟨j, hj, by simp only [HashTable.putAt, Function.update_of_ne hjp, hjv]⟩
      · rintro ⟨j, hj, hjv⟩
        have hjp : j ≠ (layout ht).probe k d := by
          rintro rfl
          simp only [HashTable.putAt, Function.update_self, Entry.mk.injEq] at hjv
          exact hk hjv.2.1.symm
        simp only [HashTable.putAt, Function.update_of_ne hjp] at hjv
        exact ⟨j, hj, hjv⟩
  · have hin : k ∈ m.keys ↔ (ht.tbl ((layout ht).probe k d)).inUse = true := by
      rw [Finmap.mem_keys, ← Finmap.lookup_isSome, (h.entry_at hstop).1]
    rw [keys_insert]
    simp only [HashTable.putAt]
    split
    · rename_i hu
      rw [Finset.insert_eq_of_mem (hin.mpr hu), h.size]
    · rename_i hu
      rw [Finset.card_insert_of_notMem (fun hm => hu (hin.mp hm)), h.size]

omit [DecidableEq K] in
theorem overloaded_eq_false (hpos : 0 < ht.tblSize) :
    overloaded ht = false ↔ 5 * (ht.size + 1) ≤ 3 * ht.tblSize := by
  have hq : (0 : ℚ) < ht.tblSize := by exact_mod_cast hpos
  rw [overloaded, decide_eq_false_iff_not, gt_iff_lt, not_lt, div_le_iff₀ hq, LOAD_FACTOR]
  constructor
  · intro h
    have : (5 * (ht.size + 1) : ℚ) ≤ 3 * ht.tblSize := by push_cast at h; linarith
    exact_mod_cast this
  · intro h
    have : (5 * (ht.size + 1) : ℚ) ≤ 3 * ht.tblSize := by exact_mod_cast h
    push_cast
    linarith

variable [Inhabited K] [Inhabited V]

/-- What an insertion does once `ht_index` has returned slot `i`. -/
theorem insertNested_eq {fuel i : Nat} {k : K} {v : V}
    (hidx : htIndex ht k = .ok (i : Int)) :
    insertNested (fuel + 1) ht k v =
      if (ht.tbl i).inUse then .ok (putAt ht i k v)
      else if overloaded (putAt ht i k v) then
        htDoubleTable (insertNested fuel) (putAt ht i k v)
      else .ok (putAt ht i k v) := by
  simp only [insertNested, hidx, bind, Except.bind, Int.toNat_natCast]
  rw [if_neg (by omega)]
  cases hu : (ht.tbl i).inUse <;> simp [putAt, hu]

end Insert

end Libsd.HashTable

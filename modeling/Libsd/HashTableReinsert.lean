/-
  Libsd/HashTableReinsert.lean
  ============================
  **The loop that doubles a hash table.**

  `ht_double_table` inserts the slots in use one by one into an empty table, which then
  represents the map that they leave behind in this order (`slotsMap`), whatever is in
  them.  The check of the size behind the loop passes where no key had two slots.
-/
import Libsd.HashTableHolds

namespace Libsd.HashTable

open Libsd.LinearProbe

variable {K V : Type} [DecidableEq K] {ht : SDHashTable K V} {m : Finmap fun _ : K => V}

/-! ### Inserting the slots into an empty table -/

/-- The map the first `i` slots leave behind when they are inserted in order. -/
def slotsMap (old : SDHashTable K V) (i : Nat) : Finmap fun _ : K => V :=
  (List.range i).foldl (fun m j =>
    if (old.tbl j).inUse then m.insert (old.tbl j).key (old.tbl j).val else m) ∅

theorem slotsMap_succ (old : SDHashTable K V) (i : Nat) : slotsMap old (i + 1) =
    if (old.tbl i).inUse then (slotsMap old i).insert (old.tbl i).key (old.tbl i).val
    else slotsMap old i := by
  rw [slotsMap, List.range_succ, List.foldl_append]
  rfl

theorem keys_slotsMap (old : SDHashTable K V) (i : Nat) :
    (slotsMap old i).keys = (inUseSlots old i).image fun j => (old.tbl j).key := by
  induction i with
  | zero => rfl
  | succ i ih =>
    rw [slotsMap_succ, inUseSlots, Finset.range_add_one, Finset.filter_insert]
    split
    · rw [keys_insert, ih, Finset.image_insert]
      rfl
    · exact ih

theorem card_slotsMap_le (old : SDHashTable K V) {i : Nat} (hi : i ≤ old.tblSize) :
    (slotsMap old i).keys.card ≤ (inUseSlots old old.tblSize).card := by
  rw [keys_slotsMap]
  refine Finset.card_image_le.trans (Finset.card_le_card fun j hj => ?_)
  obtain ⟨hj, hu⟩ := mem_inUseSlots.mp hj
  exact mem_inUseSlots.mpr ⟨by omega, hu⟩

/-- With one slot for each key, the map has what the slots have. -/
theorem lookup_slotsMap {old : SDHashTable K V} (h : OneSlotPerKey old) {i : Nat}
    (hi : i ≤ old.tblSize) (k : K) (v : V) : (slotsMap old i).lookup k = some v ↔
      ∃ j < i, old.tbl j = { inUse := true, key := k, val := v } := by
  induction i with
  | zero => simp [slotsMap]
  | succ i ih =>
    have ih := ih (by omega)
    have hsucc : (∃ j < i + 1, old.tbl j = { inUse := true, key := k, val := v }) ↔
        (∃ j < i, old.tbl j = { inUse := true, key := k, val := v }) ∨
          old.tbl i = { inUse := true, key := k, val := v } := by
      constructor
      · rintro ⟨j, hj, he⟩
        rcases Nat.lt_succ_iff_lt_or_eq.mp hj with hj | rfl
        · exact .inl ⟨j, hj, he⟩
        · exact .inr he
      · rintro (⟨j, hj, he⟩ | he)
        · exact ⟨j, by omega, he⟩
        · exact ⟨i, by omega, he⟩
    rw [slotsMap_succ, hsucc, ← ih]
    cases hu : (old.tbl i).inUse with
    | false =>
      refine (or_iff_left fun he => ?_).symm
      rw [he] at hu
      cases hu
    | true =>
      have hent : old.tbl i = ⟨true, (old.tbl i).key, (old.tbl i).val⟩ := by rw [← hu]
      rw [if_pos rfl]
      by_cases hk : k = (old.tbl i).key
      · -- an earlier slot with this key would be this one
        have hnone : (slotsMap old i).lookup k ≠ some v := by
          rw [ne_eq, ih]
          rintro ⟨j, hj, he⟩
          have := h j (by omega) i (by omega) (by rw [he]) hu (by rw [he, hk])
          omega
        rw [hk, Finmap.lookup_insert, or_iff_right (hk ▸ hnone), hent]
        simp
      · rw [Finmap.lookup_insert_of_ne _ hk, or_iff_left]
        intro he
        rw [he] at hk
        exact hk rfl

/-- The new table never holds more than the old one did. -/
theorem load_reinsert {old ht : SDHashTable K V}
    (hsize : old.size = (inUseSlots old old.tblSize).card)
    (hload : 5 * old.size ≤ 3 * old.tblSize) (hge : 8 ≤ old.tblSize)
    (hts : ht.tblSize = old.tblSize * 2) {i : Nat} (hi : i < old.tblSize)
    (hu : (old.tbl i).inUse = true) {j : Nat}
    (hput : Holds (putAt ht j (old.tbl i).key (old.tbl i).val)
      ((slotsMap old i).insert (old.tbl i).key (old.tbl i).val)) :
    5 * ((putAt ht j (old.tbl i).key (old.tbl i).val).size + 1) ≤
      3 * (putAt ht j (old.tbl i).key (old.tbl i).val).tblSize := by
  have hle : (putAt ht j (old.tbl i).key (old.tbl i).val).size ≤ old.size := by
    rw [hput.size, hsize]
    have := card_slotsMap_le old hi
    rwa [slotsMap_succ, hu, if_pos rfl] at this
  have hts' : (putAt ht j (old.tbl i).key (old.tbl i).val).tblSize = old.tblSize * 2 := hts
  rw [hts']
  omega

variable [Inhabited K] [Inhabited V]

/-- The loop of `ht_double_table`, whatever is in the old slots. -/
theorem reinsert_slots {old : SDHashTable K V} (hpow : ∃ e, 3 ≤ e ∧ old.tblSize = 2 ^ e)
    (hsize : old.size = (inUseSlots old old.tblSize).card)
    (hload : 5 * old.size ≤ 3 * old.tblSize)
    (halloc : ENTRY_SIZE * (old.tblSize * 2) < 2 ^ 64) (fuel : Nat) :
    ∀ i ≤ old.tblSize, ∃ ht,
      (List.range i).foldlM (fun (ht : SDHashTable K V) i =>
          if !(old.tbl i).inUse then Except.ok ht
          else insertNested (fuel + 1) ht (old.tbl i).key (old.tbl i).val)
        { old with size := 0, tblSize := old.tblSize * 2, tbl := fun _ => default } =
          .ok ht ∧
      Represents ht (slotsMap old i) ∧ ht.tblSize = old.tblSize * 2 := by
  have hge := tblSize_ge hpow
  obtain ⟨e, h3, he⟩ := hpow
  intro i
  induction i with
  | zero =>
    intro _
    refine ⟨_, rfl, ⟨⟨⟨e + 1, by omega, by simp [he, Nat.pow_succ]⟩, halloc, ?_, ?_, rfl⟩,
      by simp; omega⟩, rfl⟩
    · constructor <;> intros <;> simp_all [layout, default]
    · intro k v
      simp [default, slotsMap]
  | succ i ih =>
    intro hi
    obtain ⟨ht, hfold, hrep, hts⟩ := ih (by omega)
    simp only [List.range_succ, List.foldlM_append, hfold, bind, Except.bind, List.foldlM_cons,
      List.foldlM_nil, slotsMap_succ]
    cases hu : (old.tbl i).inUse with
    | false => exact ⟨ht, by simp [pure, Except.pure], hrep, hts⟩
    | true =>
      obtain ⟨d, hd, hstop, hidx⟩ := hrep.index hrep.size_lt (old.tbl i).key
      have hput := hrep.toHolds.putAt hd hstop (old.tbl i).val
      have hts' : (putAt ht ((layout ht).probe (old.tbl i).key d) (old.tbl i).key
          (old.tbl i).val).tblSize = old.tblSize * 2 := hts
      have hload' := load_reinsert hsize hload hge hts hi hu hput
      refine ⟨_, ?_, ⟨hput, hload'⟩, hts'⟩
      rw [insertNested_eq hidx, (overloaded_eq_false (by omega)).mpr hload']
      simp [pure, Except.pure]

/-! ### The check behind the loop -/

/-- The outcome of a doubling that can be allocated. -/
theorem double_eq (hpow : ∃ e, 3 ≤ e ∧ ht.tblSize = 2 ^ e)
    (hsize : ht.size = (inUseSlots ht ht.tblSize).card) (hload : 5 * ht.size ≤ 3 * ht.tblSize)
    (halloc : ENTRY_SIZE * (ht.tblSize * 2) < 2 ^ 64) (fuel : Nat) :
    ∃ ht', Represents ht' (slotsMap ht ht.tblSize) ∧ (ht'.size = ht.size ↔ OneSlotPerKey ht) ∧
      htDoubleTable (insertNested (fuel + 1)) ht =
        if ht'.size ≠ ht.size then .error (.die "expected size to be invariant after doubling\n")
        else .ok ht' := by
  obtain ⟨ht', hfold, hrep, -⟩ := reinsert_slots hpow hsize hload halloc fuel ht.tblSize le_rfl
  refine ⟨ht', hrep, ?_, ?_⟩
  · rw [hrep.size, keys_slotsMap, hsize]
    exact card_keys_iff
  · rw [htDoubleTable, if_neg (by omega)]
    simp only [hfold, bind, Except.bind]

/-- Doubling represents the same map, and its size check passes. -/
theorem double_represents (h : Holds ht m) (hload : 5 * ht.size ≤ 3 * ht.tblSize)
    (halloc : ENTRY_SIZE * (ht.tblSize * 2) < 2 ^ 64) (fuel : Nat) :
    ∃ ht', htDoubleTable (insertNested (fuel + 1)) ht = .ok ht' ∧ Represents ht' m := by
  have hone := OneSlotPerKey.of_represents h
  obtain ⟨ht', hrep, hcard, hdbl⟩ := double_eq h.pow h.size_inUse hload halloc fuel
  have hmap : slotsMap ht ht.tblSize = m := by
    apply Finmap.ext_lookup
    intro k
    apply Option.ext
    intro v
    exact (lookup_slotsMap hone le_rfl k v).trans (h.entries k v).symm
  refine ⟨ht', ?_, hmap ▸ hrep⟩
  rw [hdbl, if_neg (not_not.mpr (hcard.mpr hone))]

end Libsd.HashTable

/-
  Libsd/HashTableMap.lean
  =======================
  **The hash table against the finite map it stands for.**

  A history of calls denotes the map its inserts and removes leave behind (`denote`).
  Insertion keeps `Represents` unconditionally, a doubling included
  (`insert_represents`).  Removal clears its slot without a marker, so it keeps
  `Represents` exactly when no other key is reached through that slot: a broken
  chain is visible at once, as a lookup that misses (`remove_gap_visible`).
-/
import Libsd.HashTableReinsert

namespace Libsd.HashTable

open Libsd.LinearProbe

variable {K V : Type} [DecidableEq K]

/-! ### Insertion -/

section Insert

variable {ht : SDHashTable K V} {m : Finmap fun _ : K => V} [Inhabited K] [Inhabited V]

/-- Insertion refines the map's insertion; the only way it can fail is a doubling
    whose allocation cannot be served. -/
theorem insert_represents (h : Represents ht m) (k : K) (v : V) :
    match sdHashTableInsert ht k v with
    | .ok ht' => Represents ht' (m.insert k v)
    | .error e => e = .die "failed to alloc for table doubling\n" := by
  obtain ⟨d, hd, hstop, hidx⟩ := h.index h.size_lt k
  have hput := h.toHolds.putAt hd hstop v
  have hload := h.load
  have hpos : 0 < ht.tblSize := by omega
  rw [sdHashTableInsert, insertNested_eq hidx]
  cases hu : (ht.tbl ((layout ht).probe k d)).inUse with
  | true =>
    have hsz : (putAt ht ((layout ht).probe k d) k v).size = ht.size := by simp [putAt, hu]
    exact ⟨hput, by rw [hsz]; exact hload⟩
  | false =>
    have hsz : (putAt ht ((layout ht).probe k d) k v).size = ht.size + 1 := by simp [putAt, hu]
    have hts : (putAt ht ((layout ht).probe k d) k v).tblSize = ht.tblSize := rfl
    cases ho : overloaded (putAt ht ((layout ht).probe k d) k v) with
    | false => exact ⟨hput, (overloaded_eq_false (by rw [hts]; exact hpos)).mp ho⟩
    | true =>
      by_cases halloc : 2 ^ 64 ≤ ENTRY_SIZE * (ht.tblSize * 2)
      · rw [if_neg (by simp), if_pos rfl, htDoubleTable, hts, if_pos halloc]
      · obtain ⟨ht', hdbl, hrep⟩ :=
          double_represents hput (by omega) (by rw [hts]; omega) 0
        rw [if_neg (by simp), if_pos rfl, hdbl]
        exact hrep

end Insert

/-! ### Removal -/

/-- The table with slot `i` cleared. -/
def clearAt [Inhabited K] [Inhabited V] (ht : SDHashTable K V) (i : Nat) : SDHashTable K V :=
  { ht with tbl := Function.update ht.tbl i default, size := ht.size - 1 }

/-- No other key's probe chain runs through the slot that holds `k`. -/
def LeavesChains (ht : SDHashTable K V) (k : K) : Prop :=
  ∀ i < ht.tblSize, (layout ht).slot i = some k → ¬ (layout ht).Bridges i

section Remove

variable {ht : SDHashTable K V} {m : Finmap fun _ : K => V} [Inhabited K] [Inhabited V]

omit [DecidableEq K] in
theorem layout_clearAt (ht : SDHashTable K V) (i : Nat) :
    layout (clearAt ht i) = (layout ht).put i none := by
  simp only [layout, clearAt, Layout.put, Layout.mk.injEq, true_and]
  funext j
  by_cases hj : j = i
  · subst hj; simp [default]
  · simp [hj]

/-- The outcomes of a removal: the key is absent and nothing happens, or its one
    slot is cleared. -/
theorem remove_cases (h : Represents ht m) (k : K) :
    ((sdHashTableRemove ht k).map Prod.fst = .ok ht ∧ k ∉ m.keys) ∨
      ∃ i < ht.tblSize, (layout ht).slot i = some k ∧
        (sdHashTableRemove ht k).map Prod.fst = .ok (clearAt ht i) := by
  have hn : 0 < (layout ht).n := Nat.lt_of_lt_of_le (by omega) (tblSize_ge h.pow)
  obtain ⟨d, hd, hstop, hidx⟩ := h.index h.size_lt k
  have hin := (h.entry_at hstop).1
  simp only [sdHashTableRemove, hidx, bind, Except.bind, Int.toNat_natCast]
  rw [if_neg (by omega)]
  cases hu : (ht.tbl ((layout ht).probe k d)).inUse with
  | false =>
    refine Or.inl ⟨rfl, ?_⟩
    rw [Finmap.mem_keys, ← Finmap.lookup_isSome, hin, hu]
    simp
  | true =>
    refine Or.inr ⟨_, (layout ht).probe_lt hn k d, ?_, rfl⟩
    rcases hstop.1 with hnone | hs
    · rw [slot_eq_none.mp hnone] at hu
      cases hu
    · exact hs

/-- Clearing the slot of `k` removes its binding, provided the layout stays valid. -/
theorem Represents.clearAt (h : Represents ht m) {i : Nat} (hi : i < ht.tblSize) {k : K}
    (hs : (layout ht).slot i = some k) (hgap : ¬ (layout ht).Bridges i) :
    Represents (clearAt ht i) (m.erase k) := by
  have hkm : k ∈ m.keys := (h.mem_iff k).mp ⟨i, hi, hs⟩
  have hsize : (HashTable.clearAt ht i).size = (m.erase k).keys.card := by
    rw [Finmap.keys_erase, Finset.card_erase_of_mem hkm, ← h.size]
    rfl
  refine ⟨⟨h.pow, h.alloc, ?_, ?_, hsize⟩, ?_⟩
  · rw [layout_clearAt]
    exact (h.valid.erase_iff i).mpr hgap
  · intro k' v
    by_cases hk : k' = k
    · subst hk
      rw [Finmap.lookup_erase]
      constructor
      · intro hv; cases hv
      · rintro ⟨j, hj, he⟩
        by_cases hji : j = i
        · subst hji
          simp [HashTable.clearAt, default] at he
        · simp only [HashTable.clearAt, Function.update_of_ne hji] at he
          exact absurd (h.valid.uniq hj hi (slot_of_entry he) hs) hji
    · rw [Finmap.lookup_erase_ne hk, h.entries]
      constructor
      · rintro ⟨j, hj, he⟩
        have hji : j ≠ i := by
          rintro rfl
          rw [slot_of_entry he] at hs
          exact hk (Option.some.inj hs)
        exact ⟨j, hj, by simp only [HashTable.clearAt, Function.update_of_ne hji, he]⟩
      · rintro ⟨j, hj, he⟩
        have hji : j ≠ i := by
          rintro rfl
          simp [HashTable.clearAt, default] at he
        simp only [HashTable.clearAt, Function.update_of_ne hji] at he
        exact ⟨j, hj, he⟩
  · have := h.load
    simp only [HashTable.clearAt]
    omega

/-- Clearing a slot that another key is reached through is seen by the next lookup
    of that key: its search now ends at the hole. -/
theorem remove_gap_visible (h : Represents ht m) {i : Nat} (hi : i < ht.tblSize) {k : K}
    (hs : (layout ht).slot i = some k) (hgap : (layout ht).Bridges i) :
    ¬ Behaves (clearAt ht i) (m.erase k) := by
  obtain ⟨k', d, e, hd, he, hsd, hpe⟩ := hgap
  have hn : 0 < (layout ht).n := by omega
  have hdi : (layout ht).probe k' d ≠ i := fun hdi =>
    he.ne ((layout ht).probe_inj (he.trans hd) hd (hpe.trans hdi.symm))
  have hkk : k' ≠ k := by
    rintro rfl
    exact hdi (h.valid.uniq ((layout ht).probe_lt hn k' d) hi hsd hs)
  -- the search for `k'` stops no later than the hole, hence before its slot
  have hhole : (layout (HashTable.clearAt ht i)).slot i = none := by
    rw [layout_clearAt]
    exact Layout.put_slot_same ..
  have hprobe : ∀ x, (layout (HashTable.clearAt ht i)).probe k' x = (layout ht).probe k' x :=
    fun _ => rfl
  obtain ⟨d', hd', hstop⟩ := (layout (HashTable.clearAt ht i)).exists_firstStop k' hi hhole
  have hle : d' ≤ e := by
    by_contra hlt
    exact hstop.2 e (by omega) (Or.inl (by rw [hprobe, hpe, hhole]))
  have hunused : ((HashTable.clearAt ht i).tbl ((layout ht).probe k' d')).inUse = false := by
    rcases hstop.1 with hnone | hsome
    · exact slot_eq_none.mp hnone
    · -- `k'` occurs only at its own slot, which lies further along
      rw [hprobe, layout_clearAt] at hsome
      have hne : (layout ht).probe k' d' ≠ i := by
        intro heq
        rw [heq, Layout.put_slot_same] at hsome
        cases hsome
      rw [Layout.put_slot_ne _ _ hne] at hsome
      have hsame := h.valid.uniq ((layout ht).probe_lt hn k' d') ((layout ht).probe_lt hn k' d)
        hsome hsd
      have := (layout ht).probe_inj (Nat.lt_of_le_of_lt hle (he.trans hd)) hd hsame
      omega
  obtain ⟨x, hx, hxn⟩ := pow_le_of_alloc h.pow h.alloc
  have hidx : htIndex (HashTable.clearAt ht i) k' = .ok ((layout ht).probe k' d' : Int) := by
    have hsize : (HashTable.clearAt ht i).size < (HashTable.clearAt ht i).tblSize := by
      have := h.size_lt
      simp only [HashTable.clearAt]
      omega
    have hpow : (HashTable.clearAt ht i).tblSize = 2 ^ x := hxn
    exact htIndex_eq hpow hx hsize hd' hstop
  intro hbeh
  have hlook := hbeh.contains k'
  simp only [sdHashTableContains, hidx, bind, Except.bind, Int.toNat_natCast] at hlook
  rw [if_neg (by omega), hunused, Finmap.lookup_erase_ne hkk] at hlook
  have hin : k' ∈ m.keys := (h.mem_iff k').mp ⟨_, (layout ht).probe_lt hn k' d, hsd⟩
  rw [Finmap.mem_keys, ← Finmap.lookup_isSome] at hin
  rw [hin] at hlook
  cases hlook

/-- A removal yields a table, and that table behaves as the map without the key
    exactly when no other key's chain ran through the cleared slot. -/
theorem remove_spec (h : Represents ht m) (k : K) :
    ∃ ht', (sdHashTableRemove ht k).map Prod.fst = .ok ht' ∧
      (LeavesChains ht k → Represents ht' (m.erase k)) ∧
      (¬ LeavesChains ht k → ¬ Behaves ht' (m.erase k)) := by
  rcases remove_cases h k with ⟨heq, hk⟩ | ⟨i, hi, hs, heq⟩
  · refine ⟨ht, heq, ?_, ?_⟩
    · have hsame : m.erase k = m := by
        apply Finmap.ext_lookup
        intro k'
        by_cases hkk : k' = k
        · subst hkk
          rw [Finmap.lookup_erase, Finmap.lookup_eq_none.mpr (fun hm =>
            hk (Finmap.mem_keys.mpr hm))]
        · rw [Finmap.lookup_erase_ne hkk]
      intro _
      rw [hsame]
      exact h
    · intro hno
      exact absurd (fun i hi hs => absurd ((h.mem_iff k).mp ⟨i, hi, hs⟩) hk) hno
  · refine ⟨clearAt ht i, heq, fun hsafe => h.clearAt hi hs (hsafe i hi hs), ?_⟩
    intro hno
    apply remove_gap_visible h hi hs
    by_contra hgap
    apply hno
    intro j hj hjs
    rw [h.valid.uniq hj hi hjs hs]
    exact hgap

end Remove

/-! ### Histories -/

/-- The effect of one call on the map. -/
def Op.denote (m : Finmap fun _ : K => V) : Op K V → Finmap fun _ : K => V
  | .insert k v => m.insert k v
  | .remove k => m.erase k
  | .lookup _ => m
  | .contains _ => m

/-- The map a history of calls leaves behind. -/
def denote (ops : List (Op K V)) : Finmap fun _ : K => V := ops.foldl Op.denote ∅

variable [Inhabited K] [Inhabited V]

/-- After every prefix of the history the table behaves as the map the prefix
    denotes; the process ends early only when a doubling cannot be allocated. -/
def BehavesAsMap (ht : SDHashTable K V) (ops : List (Op K V)) : Prop :=
  ∀ pre, pre <+: ops →
    match run ht pre with
    | .ok ht' => Behaves ht' (denote pre)
    | .error e => e = .die "failed to alloc for table doubling\n"

/-- Every removal in the history leaves the chains of the other keys whole. -/
def RemovalsLeaveChains (ht : SDHashTable K V) (ops : List (Op K V)) : Prop :=
  ∀ pre k, pre ++ [.remove k] <+: ops → ∀ ht', run ht pre = .ok ht' → LeavesChains ht' k

theorem newTable_represents (hashFn : List UInt8 → K → UInt64) (k1 : List UInt8)
    (keyRemovedFn valueRemovedFn : Bool) :
    Represents (newTable (V := V) hashFn k1 keyRemovedFn valueRemovedFn) ∅ := by
  refine ⟨⟨⟨3, le_rfl, rfl⟩, ?_, ?_, ?_, rfl⟩, ?_⟩
  · simp [newTable, ENTRY_SIZE, INIT_SIZE]
  · constructor <;> intros <;> simp_all [layout, newTable, default]
  · intro k v
    simp [newTable, default]
  · simp [newTable, INIT_SIZE]

/-- One call keeps the representation, as long as a removal leaves the chains of
    the other keys whole. -/
theorem apply_represents {ht : SDHashTable K V} {m : Finmap fun _ : K => V}
    (h : Represents ht m) (op : Op K V)
    (hsafe : ∀ k, op = .remove k → LeavesChains ht k) :
    match op.apply ht with
    | .ok ht' => Represents ht' (op.denote m)
    | .error e => e = .die "failed to alloc for table doubling\n" := by
  cases op with
  | insert k v => exact insert_represents h k v
  | remove k =>
    obtain ⟨ht', heq, hrep, -⟩ := remove_spec h k
    simp only [Op.apply, heq]
    exact hrep (hsafe k rfl)
  | lookup k =>
    simp only [Op.apply, h.behaves.lookup k, Except.map]
    exact h
  | contains k =>
    simp only [Op.apply, h.behaves.contains k, Except.map]
    exact h

theorem run_append_singleton (ht : SDHashTable K V) (pre : List (Op K V)) (op : Op K V) :
    run ht (pre ++ [op]) = run ht pre >>= fun ht' => op.apply ht' := by
  simp [run, List.foldlM_append]

omit [Inhabited K] [Inhabited V] in
theorem denote_append_singleton (pre : List (Op K V)) (op : Op K V) :
    denote (pre ++ [op]) = op.denote (denote pre) := by simp [denote]

/-- The run lemma: as long as the removals met on the way are safe, the table
    represents the map of every prefix. -/
theorem run_represents {ht : SDHashTable K V} (h : Represents ht ∅) {ops : List (Op K V)}
    (hsafe : ∀ pre k, pre ++ [.remove k] <+: ops → ∀ ht', run ht pre = .ok ht' →
      Represents ht' (denote pre) → LeavesChains ht' k) :
    ∀ pre, pre <+: ops →
      match run ht pre with
      | .ok ht' => Represents ht' (denote pre)
      | .error e => e = .die "failed to alloc for table doubling\n" := by
  intro pre
  induction pre using List.reverseRecOn with
  | nil => intro _; exact h
  | append_singleton pre op ih =>
    intro hpre
    have ih := ih ((List.prefix_append pre [op]).trans hpre)
    rw [run_append_singleton, denote_append_singleton]
    cases hrun : run ht pre with
    | error e => rw [hrun] at ih; exact ih
    | ok ht' =>
      rw [hrun] at ih
      refine apply_represents ih op ?_
      rintro k rfl
      exact hsafe pre k hpre ht' hrun ih

/-- **The hash table is a finite map exactly on the histories whose removals leave
    the other keys' probe chains whole.**  For any hash function and any fresh
    table. -/
theorem newTable_behavesAsMap_iff (hashFn : List UInt8 → K → UInt64) (k1 : List UInt8)
    (keyRemovedFn valueRemovedFn : Bool) (ops : List (Op K V)) :
    BehavesAsMap (newTable hashFn k1 keyRemovedFn valueRemovedFn) ops ↔
      RemovalsLeaveChains (newTable hashFn k1 keyRemovedFn valueRemovedFn) ops := by
  have hnew := newTable_represents (V := V) hashFn k1 keyRemovedFn valueRemovedFn
  constructor
  · intro hbeh
    -- an unsafe removal would be visible in the very next state
    have hsafe : ∀ pre k, pre ++ [Op.remove k] <+: ops → ∀ ht',
        run (newTable hashFn k1 keyRemovedFn valueRemovedFn) pre = .ok ht' →
        Represents ht' (denote pre) → LeavesChains ht' k := by
      intro pre k hpre ht' hrun hrep
      by_contra hgap
      obtain ⟨ht'', heq, -, hbad⟩ := remove_spec hrep k
      have hafter := hbeh _ hpre
      rw [run_append_singleton, hrun, denote_append_singleton] at hafter
      simp only [bind, Except.bind, Op.apply, heq] at hafter
      exact hbad hgap hafter
    intro pre k hpre ht' hrun
    have hrep := run_represents hnew hsafe pre ((List.prefix_append pre _).trans hpre)
    rw [hrun] at hrep
    exact hsafe pre k hpre ht' hrun hrep
  · intro hsafe pre hpre
    have hrep := run_represents hnew
      (fun pre k hpre ht' hrun _ => hsafe pre k hpre ht' hrun) pre hpre
    cases hrun : run (newTable hashFn k1 keyRemovedFn valueRemovedFn) pre with
    | error e => rw [hrun] at hrep; exact hrep
    | ok ht' => rw [hrun] at hrep; exact hrep.behaves

/-- Under `hash_long` with an all-zero random key, 1 and 9 share their home slot.
    Removing 1 puts a hole before 9, and the table no longer contains 9. -/
theorem hashLong_removal_loses_key :
    ¬ BehavesAsMap (newTable hashLong (List.replicate 16 0) false false :
        SDHashTable UInt64 UInt64)
      [.insert 1 100, .insert 9 900, .remove 1] := by
  intro h
  have hafter := h _ (List.prefix_refl _)
  have hmiss : (run (newTable hashLong (List.replicate 16 0) false false :
      SDHashTable UInt64 UInt64) [.insert 1 100, .insert 9 900, .remove 1] >>=
        fun ht => sdHashTableContains ht 9) = .ok false := by decide +kernel
  cases hrun : run (newTable hashLong (List.replicate 16 0) false false :
      SDHashTable UInt64 UInt64) [.insert 1 100, .insert 9 900, .remove 1] with
  | error e => rw [hrun] at hmiss; cases hmiss
  | ok ht =>
    rw [hrun] at hafter hmiss
    have hfound := hafter.contains 9
    simp only [bind, Except.bind] at hmiss
    rw [hmiss] at hfound
    revert hfound
    decide

end Libsd.HashTable

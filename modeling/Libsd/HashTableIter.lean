/-
  Libsd/HashTableIter.lean
  ========================
  **The iterator of `hash_table.c`.**

  On a table that is not modified the calls of `sd_hash_table_iter_next` return the
  entries of the slots in use, in the order of the slots, and as many as
  `sd_hash_table_size` says (`iterCalls_entries`).  Modifications are detected by two
  counters, the size and the number of slots at the start.  They miss those that add as
  many entries as they take away and double nothing (`detects_iff`).
-/
import Libsd.HashTableLoad
import Libsd.Lib.Outcome

namespace Libsd.HashTable

open Libsd.LinearProbe

variable {K V : Type}

/-- `SDHashTableIter_s`, less the pointer to the table. -/
structure SDHashTableIter where
  i : Nat
  size : Nat
  tblSize : Nat
deriving DecidableEq, Repr

def sdHashTableIterInit (ht : SDHashTable K V) : SDHashTableIter :=
  { i := 0, size := ht.size, tblSize := ht.tblSize }

/-- The loop of `sd_hash_table_iter_next`, with `left` slots to look at from `i` on. -/
def iterLoop (ht : SDHashTable K V) : Nat → Nat → Option (K × V) × Nat
  | 0, i => (none, i)
  | left + 1, i =>
    let entry := ht.tbl i
    if !entry.inUse then iterLoop ht left (i + 1)
    else (some (entry.key, entry.val), i + 1)

/-- The key and the value when the call returns true. -/
def sdHashTableIterNext (ht : SDHashTable K V) (it : SDHashTableIter) :
    Option (K × V) × SDHashTableIter :=
  if it.size ≠ ht.size ∨ it.tblSize ≠ ht.tblSize then (none, it)
  else if it.i ≥ it.tblSize then (none, it)
  else
    let found := iterLoop ht (it.tblSize - it.i) it.i
    (found.1, { it with i := found.2 })

/-! ### A table that is not modified -/

/-- What a number of calls return. -/
def iterCalls (ht : SDHashTable K V) : Nat → SDHashTableIter → List (Option (K × V))
  | 0, _ => []
  | n + 1, it => (sdHashTableIterNext ht it).1 :: iterCalls ht n (sdHashTableIterNext ht it).2

/-- The entries in use among `n` slots from `i` on, in the order of the slots. -/
def entriesFrom (ht : SDHashTable K V) (i n : Nat) : List (K × V) :=
  ((List.range' i n).filter fun j => (ht.tbl j).inUse).map fun j => ((ht.tbl j).key, (ht.tbl j).val)

/-- The entries of the table. -/
def entries (ht : SDHashTable K V) : List (K × V) := entriesFrom ht 0 ht.tblSize

variable {ht : SDHashTable K V} {it : SDHashTableIter}

theorem entriesFrom_succ (ht : SDHashTable K V) (i n : Nat) : entriesFrom ht i (n + 1) =
    if (ht.tbl i).inUse then ((ht.tbl i).key, (ht.tbl i).val) :: entriesFrom ht (i + 1) n
    else entriesFrom ht (i + 1) n := by
  rw [entriesFrom, List.range'_succ, List.filter_cons]
  split <;> rfl

/-- The loop returns the first entry, and leaves the others to come. -/
theorem iterLoop_spec (ht : SDHashTable K V) (n i : Nat) :
    (iterLoop ht n i).1 = (entriesFrom ht i n).head? ∧ (iterLoop ht n i).2 ≤ i + n ∧
      entriesFrom ht (iterLoop ht n i).2 (i + n - (iterLoop ht n i).2) =
        (entriesFrom ht i n).tail := by
  induction n generalizing i with
  | zero => exact ⟨rfl, le_rfl, by rw [iterLoop, Nat.add_zero, Nat.sub_self]; rfl⟩
  | succ n ih =>
    rw [entriesFrom_succ, iterLoop]
    cases hu : (ht.tbl i).inUse with
    | true =>
      refine ⟨rfl, show i + 1 ≤ i + (n + 1) by omega, ?_⟩
      show entriesFrom ht (i + 1) (i + (n + 1) - (i + 1)) = entriesFrom ht (i + 1) n
      rw [Nat.add_comm n 1, ← Nat.add_assoc, Nat.add_sub_cancel_left]
    | false =>
      have h := ih (i + 1)
      rw [Nat.add_assoc, Nat.add_comm 1 n] at h
      exact h

/-- The counters are those of the table, and the cursor is no further than its end. -/
structure Fresh (ht : SDHashTable K V) (it : SDHashTableIter) : Prop where
  size : it.size = ht.size
  tblSize : it.tblSize = ht.tblSize
  i : it.i ≤ ht.tblSize

/-- The entries that the iterator has in front of it. -/
def ahead (ht : SDHashTable K V) (it : SDHashTableIter) : List (K × V) :=
  entriesFrom ht it.i (ht.tblSize - it.i)

/-- What one call does to a table that is not modified. -/
theorem iterNext_fresh (h : Fresh ht it) :
    (sdHashTableIterNext ht it).1 = (ahead ht it).head? ∧
      Fresh ht (sdHashTableIterNext ht it).2 ∧
      ahead ht (sdHashTableIterNext ht it).2 = (ahead ht it).tail := by
  have hsame : ¬ (it.size ≠ ht.size ∨ it.tblSize ≠ ht.tblSize) := by simp [h.size, h.tblSize]
  rw [sdHashTableIterNext, if_neg hsame]
  split
  · next hend =>
    have hnone : ahead ht it = [] := by
      rw [ahead, Nat.sub_eq_zero_of_le (h.tblSize ▸ hend)]
      rfl
    rw [hnone]
    exact ⟨rfl, h, rfl⟩
  · rw [h.tblSize]
    obtain ⟨hfound, hle, hrest⟩ := iterLoop_spec ht (ht.tblSize - it.i) it.i
    rw [Nat.add_sub_cancel' h.i] at hle hrest
    exact ⟨hfound, ⟨h.size, rfl, hle⟩, hrest⟩

theorem iterCalls_fresh (n : Nat) (h : Fresh ht it) :
    iterCalls ht n it = (List.range n).map fun k => (ahead ht it)[k]? := by
  induction n generalizing it with
  | zero => rfl
  | succ n ih =>
    obtain ⟨hfound, hfresh, hrest⟩ := iterNext_fresh h
    rw [iterCalls, ih hfresh, hfound, hrest, List.range_succ_eq_map, List.map_cons, List.map_map,
      List.head?_eq_getElem?]
    simp only [List.getElem?_tail, Function.comp_def, Nat.succ_eq_add_one]

theorem fresh_init (ht : SDHashTable K V) : Fresh ht (sdHashTableIterInit ht) :=
  ⟨rfl, rfl, Nat.zero_le _⟩

theorem Counted.length_entries (h : Counted ht) : (entries ht).length = ht.size := by
  rw [h.size, entries, entriesFrom, List.length_map, ← List.range_eq_range', inUseSlots,
    Finset.card_def, Finset.filter_val, Finset.range_val, Multiset.range, Multiset.filter_coe,
    Multiset.coe_card]
  simp only [Bool.decide_eq_true]

/-- In every history: the calls on a table that is not modified return the entries in use
    one by one in the order of their slots, and false from then on; there are as many
    as `sd_hash_table_size` says. -/
theorem iterCalls_entries [DecidableEq K] [Inhabited K] [Inhabited V]
    (hashFn : List UInt8 → K → UInt64) (k1 : List UInt8) (keyRemovedFn valueRemovedFn : Bool)
    {ops : List (Op K V)}
    (hrun : run (newTable hashFn k1 keyRemovedFn valueRemovedFn) ops = .ok ht) :
    (entries ht).length = sdHashTableSize ht ∧ ∀ n,
      iterCalls ht n (sdHashTableIterInit ht) = (List.range n).map fun k => (entries ht)[k]? := by
  have hnew := (newTable_represents (V := V) hashFn k1 keyRemovedFn valueRemovedFn).counted
  exact ⟨(run_counted hnew hrun).length_entries, fun n => iterCalls_fresh n (fresh_init ht)⟩

/-- Three keys, of which one is removed again. -/
theorem iterCalls_entries_hole : ∃ ht : SDHashTable UInt64 UInt64,
    run (newTable hashLong (List.replicate 16 0) false false)
      [.insert 1 100, .insert 2 200, .insert 3 300, .remove 2] = .ok ht ∧
      iterCalls ht 4 (sdHashTableIterInit ht) = (List.range 4).map fun k => (entries ht)[k]? := by
  obtain ⟨ht, hrun, -⟩ := exists_ok (P := fun _ => true)
    (x := run (newTable hashLong (List.replicate 16 0) false false : SDHashTable UInt64 UInt64)
      [.insert 1 100, .insert 2 200, .insert 3 300, .remove 2])
    (by decide +kernel)
  exact ⟨ht, hrun, (iterCalls_entries _ _ _ _ hrun).2 4⟩

/-! ### A table that is modified -/

/-- A step of code that iterates over a table and changes it. -/
inductive Event (K V : Type) where
  | call (op : Op K V)
  | next

section
variable [DecidableEq K] [Inhabited K] [Inhabited V]

def Event.apply (st : SDHashTable K V × SDHashTableIter) :
    Event K V → Except Abort (SDHashTable K V × SDHashTableIter)
  | .call op => (op.apply st.1).map fun ht => (ht, st.2)
  | .next => .ok (st.1, (sdHashTableIterNext st.1 st.2).2)

/-- The table and the iterator after a number of steps. -/
def runEvents (st : SDHashTable K V × SDHashTableIter) (evs : List (Event K V)) :
    Except Abort (SDHashTable K V × SDHashTableIter) := evs.foldlM Event.apply st

/-- The calls that may change the table. -/
def calls (evs : List (Event K V)) : List (Op K V) :=
  evs.filterMap fun
    | .call op => some op
    | .next => none

/-- The two tables have the same keys. -/
def SameKeys (ht ht' : SDHashTable K V) : Prop := ∀ k, Stored ht k ↔ Stored ht' k

/-- At some point of these steps the keys were others than at the start. -/
def KeysDiffered (ht : SDHashTable K V) (evs : List (Event K V)) : Prop :=
  ∃ pre, pre <+: evs ∧ ∃ st, runEvents (ht, sdHashTableIterInit ht) pre = .ok st ∧
    ¬ SameKeys ht st.1

/-- Once the keys have differed, every call of `sd_hash_table_iter_next` returns false. -/
def Detects (ht : SDHashTable K V) (evs : List (Event K V)) : Prop :=
  ∀ pre, pre ++ [.next] <+: evs → ∀ st, runEvents (ht, sdHashTableIterInit ht) pre = .ok st →
    KeysDiffered ht pre → (sdHashTableIterNext st.1 st.2).1 = none

/-- By how much a call changes the number of entries, going by what
    `sd_hash_table_contains` says before it. -/
def Op.gain (ht : SDHashTable K V) : Op K V → ℤ
  | .insert k _ => match sdHashTableContains ht k with
    | .ok false => 1
    | _ => 0
  | .remove k => match sdHashTableContains ht k with
    | .ok true => -1
    | _ => 0
  | _ => 0

/-- The entries that the calls add, less those that they take away. -/
def gains : SDHashTable K V → List (Op K V) → ℤ
  | _, [] => 0
  | ht, op :: ops => op.gain ht + match op.apply ht with
    | .ok ht' => gains ht' ops
    | .error _ => 0

/-- An insertion among the calls doubles the table. -/
def Doubles (ht : SDHashTable K V) (ops : List (Op K V)) : Prop :=
  ∃ pre k v, pre ++ [.insert k v] <+: ops ∧ ∃ ht1 ht2, run ht pre = .ok ht1 ∧
    CallsDouble ht1 k v ht2

/-! ### What the counters see -/

omit [Inhabited K] [Inhabited V] in
theorem contains_of_index {k : K} {i : Nat} (hidx : htIndex ht k = .ok (i : Int)) :
    sdHashTableContains ht k = .ok (ht.tbl i).inUse := by
  simp only [sdHashTableContains, hidx, bind, Except.bind, Int.toNat_natCast]
  exact if_neg (Int.not_lt.mpr (Int.natCast_nonneg i))

theorem double_size {old ht' : SDHashTable K V} (h : htDoubleTable (insertNested 1) old = .ok ht') :
    ht'.size = old.size := by
  rw [htDoubleTable_eq] at h
  split at h
  · cases h
  · cases hloop : doubleLoop old old.tblSize with
    | error e =>
      rw [hloop] at h
      cases h
    | ok doubled =>
      rw [hloop] at h
      simp only [Except.bind] at h
      split at h
      · cases h
      · next heq =>
        rw [← Except.ok.inj h]
        exact not_not.mp heq

/-- The call is an insertion that doubles the table. -/
def Op.doubles (ht : SDHashTable K V) (op : Op K V) : Prop :=
  ∃ k v ht1, op = .insert k v ∧ CallsDouble ht k v ht1

/-- What one call does to the two numbers. -/
structure Counts (ht : SDHashTable K V) (op : Op K V) (ht' : SDHashTable K V) : Prop where
  size : (ht'.size : ℤ) = ht.size + op.gain ht
  le : ht.tblSize ≤ ht'.tblSize
  doubles : ht'.tblSize = ht.tblSize ↔ ¬ op.doubles ht

theorem insert_counts (h : Counted ht) {k : K} {v : V} {ht' : SDHashTable K V}
    (heq : sdHashTableInsert ht k v = .ok ht') : Counts ht (.insert k v) ht' := by
  obtain ⟨d, -, -, hidx⟩ := h.index k
  have hcontains := contains_of_index hidx
  have hload := h.load
  -- the insertion it makes is the only one that could double
  have hcall : (Op.insert k v).doubles ht → (ht.tbl ((layout ht).probe k d)).inUse = false ∧
      overloaded (putAt ht ((layout ht).probe k d) k v) = true := by
    rintro ⟨_, _, ht1, ⟨⟩, i, hi, hfree, rfl, hover⟩
    obtain rfl : i = (layout ht).probe k d := Int.ofNat_inj.mp (Except.ok.inj (hi.symm.trans hidx))
    exact ⟨hfree, hover⟩
  rw [sdHashTableInsert, insertNested_eq hidx] at heq
  split at heq
  · next hu =>
    obtain rfl := Except.ok.inj heq
    refine ⟨?_, le_rfl, iff_of_true rfl fun hd => ?_⟩
    · simp [Op.gain, hcontains, hu, putAt]
    · rw [hu] at hcall
      cases (hcall hd).1
  · next hfree =>
    rw [Bool.not_eq_true] at hfree
    have hgain : (Op.insert k v).gain ht = 1 := by simp only [Op.gain, hcontains, hfree]
    have hsize : ((putAt ht ((layout ht).probe k d) k v).size : ℤ) = ht.size + 1 := by
      simp [putAt, hfree]
    split at heq
    · next hover =>
      have hdoubles : CallsDouble ht k v (putAt ht ((layout ht).probe k d) k v) :=
        ⟨_, hidx, hfree, rfl, hover⟩
      obtain ⟨-, hcard, hload1⟩ := hdoubles.spec h
      have htwice := double_tblSize hcard h.pow hload1 heq
      have htbl : (putAt ht ((layout ht).probe k d) k v).tblSize = ht.tblSize := rfl
      rw [htbl] at htwice
      refine ⟨?_, by omega, iff_of_false (by omega) (not_not.mpr ⟨k, v, _, rfl, hdoubles⟩)⟩
      rw [double_size heq, hsize, hgain]
    · next hroom =>
      obtain rfl := Except.ok.inj heq
      exact ⟨by rw [hsize, hgain], le_rfl, iff_of_true rfl fun hd => hroom (hcall hd).2⟩

theorem remove_counts (h : Counted ht) {k : K} {ht' : SDHashTable K V}
    (heq : (Op.remove k : Op K V).apply ht = .ok ht') : Counts ht (.remove k) ht' := by
  obtain ⟨d, -, -, hidx⟩ := h.index k
  have hcontains := contains_of_index hidx
  have hlt :=
    (layout ht).probe_lt (show 0 < (layout ht).n by have := h.load; rw [layout_n]; omega) k d
  have hno : ¬ (Op.remove k : Op K V).doubles ht := by
    rintro ⟨_, _, _, heq, _⟩
    cases heq
  simp only [Op.apply, sdHashTableRemove, hidx, bind, Except.bind, Int.toNat_natCast] at heq
  rw [if_neg (Int.not_lt.mpr (Int.natCast_nonneg _))] at heq
  cases hu : (ht.tbl ((layout ht).probe k d)).inUse with
  | false =>
    rw [hu] at heq hcontains
    obtain rfl : ht = ht' := Except.ok.inj heq
    exact ⟨by simp only [Op.gain, hcontains, add_zero], le_rfl, iff_of_true rfl hno⟩
  | true =>
    have hmem : (layout ht).probe k d ∈ inUseSlots ht ht.tblSize := mem_inUseSlots.mpr ⟨hlt, hu⟩
    have hpos : 0 < ht.size := by
      rw [h.size]
      exact Finset.card_pos.mpr ⟨_, hmem⟩
    rw [hu] at heq hcontains
    obtain rfl : clearAt ht ((layout ht).probe k d) = ht' := Except.ok.inj heq
    refine ⟨?_, le_rfl, iff_of_true rfl hno⟩
    simp only [Op.gain, hcontains, clearAt]
    omega

/-- The step lemma. -/
theorem apply_counts (h : Counted ht) {op : Op K V} {ht' : SDHashTable K V}
    (heq : op.apply ht = .ok ht') : Counts ht op ht' := by
  have hsame : ∀ op : Op K V, op.gain ht = 0 → ¬ op.doubles ht → ht = ht' → Counts ht op ht' := by
    rintro op hgain hno rfl
    exact ⟨by rw [hgain, add_zero], le_rfl, iff_of_true rfl hno⟩
  cases op with
  | insert k v => exact insert_counts h heq
  | remove k => exact remove_counts h heq
  | lookup k =>
    apply hsame _ rfl
    · rintro ⟨_, _, _, heq, _⟩
      cases heq
    · obtain ⟨-, -, heq⟩ := Outcome.map_eq_ok heq
      exact heq
  | contains k =>
    apply hsame _ rfl
    · rintro ⟨_, _, _, heq, _⟩
      cases heq
    · obtain ⟨-, -, heq⟩ := Outcome.map_eq_ok heq
      exact heq

/-- The run lemma. -/
theorem run_counts (h : Counted ht) {ops : List (Op K V)} {ht' : SDHashTable K V}
    (hrun : run ht ops = .ok ht') : (ht'.size : ℤ) = ht.size + gains ht ops ∧
      ht.tblSize ≤ ht'.tblSize ∧ (ht'.tblSize = ht.tblSize ↔ ¬ Doubles ht ops) := by
  induction ops generalizing ht with
  | nil =>
    obtain rfl := Except.ok.inj hrun
    refine ⟨(add_zero _).symm, le_rfl, iff_of_true rfl ?_⟩
    rintro ⟨pre, k, v, hpre, -⟩
    cases pre <;> cases hpre.subset List.mem_concat_self
  | cons op ops ih =>
    rw [run, List.foldlM_cons] at hrun
    obtain ⟨ht1, hop, hrest⟩ := Outcome.bind_eq_ok hrun
    obtain ⟨hsize1, hle1, hdouble1⟩ := apply_counts h hop
    obtain ⟨hsize, hle, hdouble⟩ := ih (apply_counted h op hop).1 hrest
    refine ⟨?_, hle1.trans hle, ?_⟩
    · simp only [gains, hop]
      omega
    · have hcons : Doubles ht (op :: ops) ↔ op.doubles ht ∨ Doubles ht1 ops := by
        constructor
        · rintro ⟨pre, k, v, hpre, htp, ht2, hrunp, hcall⟩
          cases pre with
          | nil =>
            obtain ⟨rfl, -⟩ := List.cons_prefix_cons.mp hpre
            obtain rfl := Except.ok.inj hrunp
            exact .inl ⟨k, v, ht2, rfl, hcall⟩
          | cons op' pre =>
            obtain ⟨rfl, htail⟩ := List.cons_prefix_cons.mp hpre
            rw [run, List.foldlM_cons] at hrunp
            obtain ⟨ht1', hop', hrunp⟩ := Outcome.bind_eq_ok hrunp
            obtain rfl := Except.ok.inj (hop.symm.trans hop')
            exact .inr ⟨pre, k, v, htail, htp, ht2, hrunp, hcall⟩
        · rintro (⟨k, v, ht2, rfl, hcall⟩ | ⟨pre, k, v, hpre, htp, ht2, hrunp, hcall⟩)
          · exact ⟨[], k, v, List.cons_prefix_cons.mpr ⟨rfl, List.nil_prefix⟩, ht, ht2, rfl, hcall⟩
          · refine ⟨op :: pre, k, v, List.cons_prefix_cons.mpr ⟨rfl, hpre⟩, htp, ht2, ?_, hcall⟩
            rw [run, List.foldlM_cons]
            exact (Outcome.bind_of_ok hop _).trans hrunp
      rw [hcons, not_or, ← hdouble1, ← hdouble]
      constructor
      · intro heq
        exact ⟨by omega, by omega⟩
      · rintro ⟨heq1, heq⟩
        exact heq.trans heq1

/-- The iterator keeps the counters of the start, and its calls leave the table alone. -/
theorem runEvents_spec {it : SDHashTableIter} {evs : List (Event K V)}
    {st : SDHashTable K V × SDHashTableIter} (hrun : runEvents (ht, it) evs = .ok st) :
    run ht (calls evs) = .ok st.1 ∧ st.2.size = it.size ∧ st.2.tblSize = it.tblSize := by
  induction evs generalizing ht it with
  | nil =>
    obtain rfl := Except.ok.inj hrun
    exact ⟨rfl, rfl, rfl⟩
  | cons ev evs ih =>
    rw [runEvents, List.foldlM_cons] at hrun
    obtain ⟨st1, hev, hrest⟩ := Outcome.bind_eq_ok hrun
    cases ev with
    | call op =>
      obtain ⟨ht1, hop, rfl⟩ := Outcome.map_eq_ok hev
      obtain ⟨hcalls, hcounters⟩ := ih hrest
      refine ⟨?_, hcounters⟩
      rw [calls, List.filterMap_cons, run, List.foldlM_cons]
      exact (Outcome.bind_of_ok hop _).trans hcalls
    | next =>
      obtain rfl := Except.ok.inj hev
      obtain ⟨hcalls, hsize, htbl⟩ := ih hrest
      refine ⟨hcalls, hsize.trans ?_, htbl.trans ?_⟩
      · rw [sdHashTableIterNext]
        split_ifs <;> rfl
      · rw [sdHashTableIterNext]
        split_ifs <;> rfl

omit [DecidableEq K] [Inhabited K] [Inhabited V] in
/-- When a call returns false. -/
theorem iterNext_eq_none : (sdHashTableIterNext ht it).1 = none ↔
    (it.size ≠ ht.size ∨ it.tblSize ≠ ht.tblSize) ∨
      ∀ j, it.i ≤ j → j < ht.tblSize → (ht.tbl j).inUse = false := by
  rw [sdHashTableIterNext]
  split
  · next hdiff => exact iff_of_true rfl (.inl hdiff)
  · next hsame =>
    have htbl : it.tblSize = ht.tblSize := by
      by_contra hne
      exact hsame (.inr hne)
    rw [or_iff_right hsame, htbl]
    split
    · next hend => exact iff_of_true rfl fun j hi hj => absurd (hend.trans hi) (Nat.not_le.mpr hj)
    · next hmid =>
      show (iterLoop ht (ht.tblSize - it.i) it.i).1 = none ↔ _
      rw [(iterLoop_spec ht _ _).1, List.head?_eq_none_iff, entriesFrom, List.map_eq_nil_iff,
        List.filter_eq_nil_iff]
      simp only [List.mem_range'_1, Bool.not_eq_true, and_imp]
      refine forall₂_congr fun j _ => ?_
      rw [Nat.add_sub_cancel' (Nat.le_of_not_le hmid)]

/-- In every history, and for every interleaving of calls with an iteration: the
    modifications are detected exactly when every call of `sd_hash_table_iter_next` that
    comes after the keys have differed finds the table doubled, or with more entries
    added than taken away or fewer, or with no entry left in front of it. -/
theorem detects_iff (hashFn : List UInt8 → K → UInt64) (k1 : List UInt8)
    (keyRemovedFn valueRemovedFn : Bool) {ops : List (Op K V)}
    (hrun : run (newTable hashFn k1 keyRemovedFn valueRemovedFn) ops = .ok ht)
    (evs : List (Event K V)) : Detects ht evs ↔
      ∀ pre, pre ++ [.next] <+: evs → ∀ st, runEvents (ht, sdHashTableIterInit ht) pre = .ok st →
        KeysDiffered ht pre → Doubles ht (calls pre) ∨ gains ht (calls pre) ≠ 0 ∨
          ∀ j, st.2.i ≤ j → j < st.1.tblSize → (st.1.tbl j).inUse = false := by
  have hnew := (newTable_represents (V := V) hashFn k1 keyRemovedFn valueRemovedFn).counted
  have hcounted := run_counted hnew hrun
  refine forall₂_congr fun pre _ => forall₂_congr fun st hst => imp_congr_right fun _ => ?_
  obtain ⟨hcalls, hsize, htbl⟩ := runEvents_spec hst
  obtain ⟨hgains, -, hdoubles⟩ := run_counts hcounted hcalls
  rw [iterNext_eq_none, hsize, htbl]
  have h1 : (sdHashTableIterInit ht).size ≠ st.1.size ↔ gains ht (calls pre) ≠ 0 := by
    show ht.size ≠ st.1.size ↔ _
    omega
  have h2 : (sdHashTableIterInit ht).tblSize ≠ st.1.tblSize ↔ Doubles ht (calls pre) := by
    rw [← not_iff_not, not_not, ← hdoubles]
    exact eq_comm
  rw [h1, h2, or_comm (a := gains ht (calls pre) ≠ 0), or_assoc]

end

/-- A key is inserted: no entry is returned after that. -/
theorem detects_insert : ∃ ht : SDHashTable UInt64 UInt64,
    run (newTable hashLong (List.replicate 16 0) false false) [.insert 1 100] = .ok ht ∧
      Detects ht [.call (.insert 2 200), .next] := by
  obtain ⟨ht, hrun, hgains⟩ := exists_ok (P := fun ht => decide (gains ht [.insert 2 200] = 1))
    (x := run (newTable hashLong (List.replicate 16 0) false false : SDHashTable UInt64 UInt64)
      [.insert 1 100])
    (by decide +kernel)
  refine ⟨ht, hrun, (detects_iff _ _ _ _ hrun _).mpr fun pre hpre _ _ _ => .inr (.inl ?_)⟩
  obtain rfl : pre = [.call (.insert 2 200)] := by
    rcases pre with _ | ⟨ev, _ | ⟨ev', pre⟩⟩
    · cases (List.cons_prefix_cons.mp hpre).1
    · rw [(List.cons_prefix_cons.mp hpre).1]
    · have hlen := hpre.length_le
      simp at hlen
  show gains ht [.insert 2 200] ≠ 0
  rw [of_decide_eq_true hgains]
  decide

/-- One key is removed and another one inserted: the next call returns the new entry. -/
theorem exchange_not_detected : ∃ ht : SDHashTable UInt64 UInt64,
    run (newTable hashLong (List.replicate 16 0) false false) [.insert 1 100] = .ok ht ∧
      ¬ Detects ht [.call (.remove 1), .call (.insert 2 200), .next] := by
  obtain ⟨ht, hrun, hbefore⟩ := exists_ok
    (P := fun ht => decide (∃ j < ht.tblSize, (ht.tbl j).inUse = true ∧ (ht.tbl j).key = 1))
    (x := run (newTable hashLong (List.replicate 16 0) false false : SDHashTable UInt64 UInt64)
      [.insert 1 100])
    (by decide +kernel)
  obtain ⟨st, hst, hafter⟩ := exists_ok
    (P := fun st : SDHashTable UInt64 UInt64 × SDHashTableIter =>
      decide ((∀ j < st.1.tblSize, ¬ ((st.1.tbl j).inUse = true ∧ (st.1.tbl j).key = 1)) ∧
        (sdHashTableIterNext st.1 st.2).1 = some (2, 200)))
    (x := do
      let ht ← run (newTable hashLong (List.replicate 16 0) false false) [.insert 1 100]
      runEvents (ht, sdHashTableIterInit ht) [.call (.remove 1), .call (.insert 2 200)])
    (by decide +kernel)
  rw [Outcome.bind_of_ok hrun] at hst
  have hstored : ∃ j < ht.tblSize, (ht.tbl j).inUse = true ∧ (ht.tbl j).key = 1 :=
    of_decide_eq_true hbefore
  obtain ⟨hgone, hyield⟩ := of_decide_eq_true hafter
  refine ⟨ht, hrun, fun hdetects => ?_⟩
  have hnone := hdetects [.call (.remove 1), .call (.insert 2 200)] (List.prefix_refl _) st hst
    ⟨_, List.prefix_refl _, st, hst, fun hkeys => ?_⟩
  · rw [hyield] at hnone
    cases hnone
  · obtain ⟨j, hj, hu⟩ := (hkeys 1).mp hstored
    exact hgone j hj hu

end Libsd.HashTable

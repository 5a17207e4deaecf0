/-
  Libsd/HashTableCallbacks.lean
  =============================
  **The two callbacks of a hash table.**

  `sd_hash_table_remove` tests and calls `key_removed_fn` twice, the second time with the
  value; `value_removed_fn` is stored and never called.  So the callbacks are made as they
  are meant to be only in a history without a successful removal, or without callbacks
  (`callbacksRight_iff`).
-/
import Libsd.Basic
import Libsd.HashTableDouble
import Libsd.Lib.Outcome

namespace Libsd.HashTable

variable {K V : Type} [DecidableEq K] [Inhabited K] [Inhabited V]

/-- The callbacks that a call makes. -/
def Op.callbacks (ht : SDHashTable K V) : Op K V → Except Abort (List (Callback K V))
  | .remove key => (sdHashTableRemove ht key).map Prod.snd
  | op => (op.apply ht).map fun _ => []

/-- The callbacks that a call is meant to make: the key and the value of an entry that is
    removed, each to its own callback if that is set. -/
def Op.expected (ht : SDHashTable K V) : Op K V → List (Callback K V)
  | .remove key => match sdHashTableLookup ht key with
    | .ok (true, val) =>
      (if ht.keyRemovedFn then [.keyRemoved (.inl key)] else []) ++
        (if ht.valueRemovedFn then [.valueRemoved (.inr val)] else [])
    | _ => []
  | _ => []

/-- Every call of the history makes the callbacks it is meant to make. -/
def CallbacksRight (ht : SDHashTable K V) (ops : List (Op K V)) : Prop :=
  ∀ pre op, pre ++ [op] <+: ops → ∀ ht', run ht pre = .ok ht' → ∀ cbs, op.callbacks ht' = .ok cbs →
    cbs.Perm (op.expected ht')

/-- The history removes a key that is present. -/
def RemovesPresent (ht : SDHashTable K V) (ops : List (Op K V)) : Prop :=
  ∃ pre k, pre ++ [.remove k] <+: ops ∧ ∃ ht', run ht pre = .ok ht' ∧
    sdHashTableContains ht' k = .ok true

variable {ht ht' : SDHashTable K V}

/-! ### The callbacks of a table stay what they are -/

/-- Both tables have the same callbacks. -/
def SameCallbacks (ht ht' : SDHashTable K V) : Prop :=
  ht'.keyRemovedFn = ht.keyRemovedFn ∧ ht'.valueRemovedFn = ht.valueRemovedFn

omit [DecidableEq K] [Inhabited K] [Inhabited V] in
theorem SameCallbacks.trans {ht'' : SDHashTable K V} (h : SameCallbacks ht ht')
    (h' : SameCallbacks ht' ht'') : SameCallbacks ht ht'' :=
  ⟨h'.1.trans h.1, h'.2.trans h.2⟩

omit [DecidableEq K] in
theorem htDoubleTable_sameCallbacks
    {insert : SDHashTable K V → K → V → Except Abort (SDHashTable K V)}
    (hinsert : ∀ ht k v ht', insert ht k v = .ok ht' → SameCallbacks ht ht')
    (h : htDoubleTable insert ht = .ok ht') : SameCallbacks ht ht' := by
  rw [htDoubleTable] at h
  split at h
  · cases h
  · obtain ⟨doubled, hloop, h⟩ := Outcome.bind_eq_ok h
    split at h
    · cases h
    · obtain rfl := Except.ok.inj h
      refine Outcome.foldlM_keeps (P := SameCallbacks ht) ?_ ?_ hloop
      · intro ht1 j ht2 h1 h2
        split at h2
        · obtain rfl := Except.ok.inj h2
          exact h1
        · exact h1.trans (hinsert _ _ _ _ h2)
      · exact ⟨rfl, rfl⟩

theorem insertNested_sameCallbacks {fuel : Nat} {k : K} {v : V}
    (h : insertNested fuel ht k v = .ok ht') : SameCallbacks ht ht' := by
  induction fuel generalizing ht ht' k v with
  | zero => cases h
  | succ fuel ih =>
    obtain ⟨i, -, h⟩ := Outcome.bind_eq_ok h
    dsimp only at h
    split_ifs at h
    · -- the moves of a doubling are insertions with less fuel
      have hdouble := htDoubleTable_sameCallbacks (fun _ _ _ _ => ih) h
      exact ⟨hdouble.1, hdouble.2⟩
    · obtain rfl := Except.ok.inj h
      exact ⟨rfl, rfl⟩
    · obtain rfl := Except.ok.inj h
      exact ⟨rfl, rfl⟩

/-- What a removal does once `ht_index` has found a slot. -/
theorem remove_of_index {k : K} {i : ℤ} (hidx : htIndex ht k = .ok i) (hneg : ¬ i < 0) :
    sdHashTableRemove ht k = .ok (if (ht.tbl i.toNat).inUse then
      ({ ht with tbl := Function.update ht.tbl i.toNat default, size := ht.size - 1 },
        if ht.keyRemovedFn then
          [.keyRemoved (.inl (ht.tbl i.toNat).key), .keyRemoved (.inr (ht.tbl i.toNat).val)]
        else [])
      else (ht, [])) := by
  simp only [sdHashTableRemove, hidx, bind, Except.bind, if_neg hneg]
  split <;> rfl

theorem remove_sameCallbacks {k : K} {cbs : List (Callback K V)}
    (h : sdHashTableRemove ht k = .ok (ht', cbs)) : SameCallbacks ht ht' := by
  obtain ⟨i, hidx, hi⟩ := Outcome.bind_eq_ok h
  by_cases hneg : i < 0
  · rw [if_pos hneg] at hi
    cases hi
  · rw [remove_of_index hidx hneg] at h
    obtain rfl := congrArg Prod.fst (Except.ok.inj h)
    split <;> exact ⟨rfl, rfl⟩

theorem apply_sameCallbacks {op : Op K V} (h : op.apply ht = .ok ht') : SameCallbacks ht ht' := by
  cases op with
  | insert k v => exact insertNested_sameCallbacks h
  | remove k =>
    obtain ⟨⟨ht1, cbs⟩, hrem, rfl⟩ := Outcome.map_eq_ok h
    exact remove_sameCallbacks hrem
  | lookup k =>
    obtain ⟨-, -, rfl⟩ := Outcome.map_eq_ok h
    exact ⟨rfl, rfl⟩
  | contains k =>
    obtain ⟨-, -, rfl⟩ := Outcome.map_eq_ok h
    exact ⟨rfl, rfl⟩

theorem run_sameCallbacks {ops : List (Op K V)} (h : run ht ops = .ok ht') : SameCallbacks ht ht' :=
  Outcome.foldlM_keeps (P := SameCallbacks ht)
    (fun _ _ _ h1 h2 => h1.trans (apply_sameCallbacks h2)) ⟨rfl, rfl⟩ h

/-! ### What a removal does -/

/-- A key that is not present: nothing is called, and nothing should be. -/
theorem callbacks_absent {k : K} (hno : sdHashTableContains ht k ≠ .ok true)
    {cbs : List (Callback K V)} (h : (Op.remove k : Op K V).callbacks ht = .ok cbs) :
    cbs = [] ∧ (Op.remove k : Op K V).expected ht = [] := by
  obtain ⟨_, hrem, rfl⟩ := Outcome.map_eq_ok h
  obtain ⟨i, hidx, hi⟩ := Outcome.bind_eq_ok hrem
  by_cases hneg : i < 0
  · rw [if_pos hneg] at hi
    cases hi
  · simp only [sdHashTableContains, hidx, bind, Except.bind, if_neg hneg] at hno
    have hu : (ht.tbl i.toNat).inUse = false :=
      Bool.not_eq_true _ ▸ fun hu => hno (congrArg Except.ok hu)
    rw [remove_of_index hidx hneg, hu] at hrem
    obtain rfl := Except.ok.inj hrem
    refine ⟨rfl, ?_⟩
    simp only [Op.expected, sdHashTableLookup, hidx, bind, Except.bind, if_neg hneg, hu]
    rfl

/-- A key that is present: both calls go to `key_removed_fn`. -/
theorem callbacks_present {k : K} (hyes : sdHashTableContains ht k = .ok true) :
    ∃ k' v, (Op.remove k : Op K V).callbacks ht = .ok
        (if ht.keyRemovedFn then [.keyRemoved (.inl k'), .keyRemoved (.inr v)] else []) ∧
      (Op.remove k : Op K V).expected ht =
        (if ht.keyRemovedFn then [.keyRemoved (.inl k)] else []) ++
          (if ht.valueRemovedFn then [.valueRemoved (.inr v)] else []) := by
  obtain ⟨i, hidx, hi⟩ := Outcome.bind_eq_ok hyes
  by_cases hneg : i < 0
  · rw [if_pos hneg] at hi
    cases hi
  · rw [if_neg hneg] at hi
    have hu : (ht.tbl i.toNat).inUse = true := Except.ok.inj hi
    refine ⟨(ht.tbl i.toNat).key, (ht.tbl i.toNat).val, ?_, ?_⟩
    · rw [Op.callbacks, remove_of_index hidx hneg, hu]
      rfl
    · simp only [Op.expected, sdHashTableLookup, hidx, bind, Except.bind, if_neg hneg, hu, if_true]

/-- In every history: the callbacks are made as they are meant to be exactly when none is
    set or no key that is present is removed. -/
theorem callbacksRight_iff (hashFn : List UInt8 → K → UInt64) (k1 : List UInt8)
    (keyRemovedFn valueRemovedFn : Bool) (ops : List (Op K V)) :
    CallbacksRight (newTable hashFn k1 keyRemovedFn valueRemovedFn) ops ↔
      (keyRemovedFn = false ∧ valueRemovedFn = false) ∨
        ¬ RemovesPresent
          (newTable hashFn k1 keyRemovedFn valueRemovedFn : SDHashTable K V) ops := by
  have hflags : ∀ {pre : List (Op K V)} {ht},
      run (newTable hashFn k1 keyRemovedFn valueRemovedFn) pre = .ok ht →
        ht.keyRemovedFn = keyRemovedFn ∧ ht.valueRemovedFn = valueRemovedFn :=
    fun h => run_sameCallbacks h
  constructor
  · intro h
    by_contra hno
    obtain ⟨hset, hremoves⟩ := not_or.mp hno
    obtain ⟨pre, k, hpre, ht, hrun, hyes⟩ := not_not.mp hremoves
    obtain ⟨hkey, hval⟩ := hflags hrun
    obtain ⟨k', v, hcbs, hexp⟩ := callbacks_present hyes
    have hperm := h pre _ hpre ht hrun _ hcbs
    rw [hexp, hkey, hval] at hperm
    cases hk : keyRemovedFn with
    | true =>
      -- the value went to the callback for keys
      rw [hk] at hperm
      have hmem := hperm.subset (List.mem_cons_of_mem _ List.mem_cons_self)
      revert hmem
      cases valueRemovedFn <;> simp
    | false =>
      have hv : valueRemovedFn = true := by
        cases hv : valueRemovedFn with
        | true => rfl
        | false => exact absurd ⟨hk, hv⟩ hset
      rw [hk, hv] at hperm
      cases hperm.length_eq
  · intro h pre op hpre ht hrun cbs hcbs
    cases op with
    | remove k =>
      by_cases hyes : sdHashTableContains ht k = .ok true
      · rcases h with ⟨hk, hv⟩ | hno
        · obtain ⟨hkey, hval⟩ := hflags hrun
          obtain ⟨k', v, hcbs', hexp⟩ := callbacks_present hyes
          obtain rfl := Except.ok.inj (hcbs'.symm.trans hcbs)
          rw [hexp, hkey, hval, hk, hv]
          exact .refl _
        · exact absurd ⟨pre, k, hpre, ht, hrun, hyes⟩ hno
      · obtain ⟨rfl, hexp⟩ := callbacks_absent hyes hcbs
        rw [hexp]
    | insert k v =>
      obtain ⟨-, -, rfl⟩ := Outcome.map_eq_ok hcbs
      exact .refl _
    | lookup k =>
      obtain ⟨-, -, rfl⟩ := Outcome.map_eq_ok hcbs
      exact .refl _
    | contains k =>
      obtain ⟨-, -, rfl⟩ := Outcome.map_eq_ok hcbs
      exact .refl _

/-- With both callbacks set, the value of a removed key is passed to the one for keys. -/
theorem removal_miscalls : ¬ CallbacksRight
    (newTable hashLong (List.replicate 16 0) true true : SDHashTable UInt64 UInt64)
    [.insert 1 100, .remove 1] := by
  intro h
  obtain ⟨ht, hrun, hexp⟩ := exists_ok
    (P := fun ht => decide ((Op.remove 1).expected ht =
      [.keyRemoved (.inl 1), .valueRemoved (.inr 100)]))
    (x := run (newTable hashLong (List.replicate 16 0) true true : SDHashTable UInt64 UInt64)
      [.insert 1 100])
    (by decide +kernel)
  obtain ⟨cbs, hcbs, hmade⟩ := exists_ok
    (P := fun cbs : List (Callback UInt64 UInt64) =>
      decide (cbs = [.keyRemoved (.inl 1), .keyRemoved (.inr 100)]))
    (x := do
      let ht ← run (newTable hashLong (List.replicate 16 0) true true) [.insert 1 100]
      (Op.remove 1).callbacks ht)
    (by decide +kernel)
  rw [Outcome.bind_of_ok hrun] at hcbs
  have hperm := h [.insert 1 100] (.remove 1) (List.prefix_refl _) ht hrun cbs hcbs
  rw [of_decide_eq_true hexp, of_decide_eq_true hmade] at hperm
  revert hperm
  decide

end Libsd.HashTable

/-
  Libsd/HashTable.lean
  ====================
  **The hash table of `hash_table.c`.**

  Linear probing over a power-of-two array of `Entry` slots, doubled when the
  load passes `LOAD_FACTOR`.  A removal clears its slot and leaves nothing behind
  to mark it, which is the source's own behaviour and what the results about
  histories of operations turn on.

  Every way the code can end the process is a value of `Abort`: the assertion of
  `ht_index`, and `sd_die` with its message.  `sd_hash_table_insert` and
  `ht_double_table` call each other; the number of nested doublings is bounded by
  a fuel argument whose exhaustion is a third `Abort`, shown unreachable with the
  other two in `Libsd/HashTableMap.lean`.
-/
import Mathlib.Data.Rat.Defs
import Mathlib.Algebra.Order.Ring.Rat
import Mathlib.Logic.Function.Basic

namespace Libsd.HashTable

/-- The ways an operation can end the process instead of returning. -/
inductive Abort where
  | assertion                 -- `assert(ht->size < ht->tbl_size)`
  | die (msg : String)        -- `sd_die(msg)`
  | nesting                   -- more nested doublings than the model allows
deriving DecidableEq, Repr

def LOAD_FACTOR : Rat := 6 / 10
def INIT_SIZE : Nat := 8
/-- `sizeof(Entry)`: a `bool` padded to a word, a key pointer, a value pointer. -/
def ENTRY_SIZE : Nat := 24

/-- A slot.  `default` stands for the NULL that `calloc` and a removal leave in
    the key and value fields. -/
structure Entry (K V : Type) where
  inUse : Bool := false
  key : K
  val : V
deriving DecidableEq

instance {K V : Type} [Inhabited K] [Inhabited V] : Inhabited (Entry K V) :=
  ⟨{ key := default, val := default }⟩

/-- `SDHashTable_s`.  The two callbacks are kept as whether they are set; `k1` is
    the random key the hash function is called with. -/
structure SDHashTable (K V : Type) where
  hashFn : List UInt8 → K → UInt64
  keyRemovedFn : Bool
  valueRemovedFn : Bool
  k1 : List UInt8
  size : Nat
  tblSize : Nat
  tbl : Nat → Entry K V

variable {K V : Type} [DecidableEq K] [Inhabited K] [Inhabited V]

/-! ### Construction -/

def FNV_offset_basis : UInt64 := 0xcbf29ce484222325
def FNV_prime : UInt64 := 0x100000001b3

/-- One round of FNV 1-a. -/
def fnvByte (hash : UInt64) (b : UInt8) : UInt64 := (hash ^^^ b.toUInt64) * FNV_prime

/-- The little-endian bytes that `memcpy` reads out of a `long`. -/
def keyBuf (key : UInt64) : List UInt8 :=
  (List.range 8).map fun i => (key >>> (8 * UInt64.ofNat i)).toUInt8

/-- `hash_long`: FNV 1-a over the key's bytes, then over the table's random key. -/
def hashLong (k : List UInt8) (key : UInt64) : UInt64 :=
  (k.take 16).foldl fnvByte ((keyBuf key).foldl fnvByte FNV_offset_basis)

/-- A freshly allocated table around a given hash function. -/
def newTable (hashFn : List UInt8 → K → UInt64) (k1 : List UInt8)
    (keyRemovedFn valueRemovedFn : Bool) : SDHashTable K V where
  hashFn := hashFn
  keyRemovedFn := keyRemovedFn
  valueRemovedFn := valueRemovedFn
  k1 := k1
  size := 0
  tblSize := INIT_SIZE
  tbl := fun _ => default

inductive SDHashTableType where
  | longKey | stringKey | pointerKey
deriving DecidableEq, Repr

/-- `sd_hash_table_new`: only the long-key type is implemented. -/
def sdHashTableNew (type : SDHashTableType) (k1 : List UInt8)
    (keyRemovedFn valueRemovedFn : Bool) : Option (SDHashTable UInt64 V) :=
  match type with
  | .longKey => some (newTable hashLong k1 keyRemovedFn valueRemovedFn)
  | .stringKey => none
  | .pointerKey => none

/-- The table that it returns, if it returns one. -/
theorem sdHashTableNew_eq_some {type : SDHashTableType} {k1 : List UInt8}
    {keyRemovedFn valueRemovedFn : Bool} {ht : SDHashTable UInt64 V} :
    sdHashTableNew type k1 keyRemovedFn valueRemovedFn = some ht ↔
      type = .longKey ∧ ht = newTable hashLong k1 keyRemovedFn valueRemovedFn := by
  cases type with
  | longKey => simp [sdHashTableNew, eq_comm]
  | stringKey | pointerKey => simp [sdHashTableNew]

/-! ### Searching -/

/-- The loop of `ht_index`; `h1 + i` wraps at 64 bits. -/
def htIndexLoop (ht : SDHashTable K V) (key : K) (h1 : UInt64) : Nat → Nat → Int
  | 0, _ => -1
  | fuel + 1, i =>
    let hash := (h1 + UInt64.ofNat i).toNat % ht.tblSize
    let entry := ht.tbl hash
    if !entry.inUse || decide (key = entry.key) then hash
    else htIndexLoop ht key h1 fuel (i + 1)

def htIndex (ht : SDHashTable K V) (key : K) : Except Abort Int :=
  if ht.size < ht.tblSize then
    .ok (htIndexLoop ht key (ht.hashFn ht.k1 key) (ht.tblSize * 16) 0)
  else .error .assertion

/-! ### Insertion and doubling -/

/-- `((float)(size + 1))/tbl_size > LOAD_FACTOR`, read in exact arithmetic. -/
def overloaded (ht : SDHashTable K V) : Bool :=
  decide (((ht.size + 1 : Nat) : Rat) / (ht.tblSize : Rat) > LOAD_FACTOR)

/-- `ht_double_table`, given the insertion it calls for every surviving entry.
    `calloc` cannot serve a request of `2^64` bytes or more. -/
def htDoubleTable (insert : SDHashTable K V → K → V → Except Abort (SDHashTable K V))
    (ht : SDHashTable K V) : Except Abort (SDHashTable K V) :=
  let oldSize := ht.size
  let oldTbl := ht.tbl
  let oldTblSize := ht.tblSize
  if 2 ^ 64 ≤ ENTRY_SIZE * (oldTblSize * 2) then
    .error (.die "failed to alloc for table doubling\n")
  else do
    let empty : SDHashTable K V :=
      { ht with size := 0, tblSize := oldTblSize * 2, tbl := fun _ => default }
    let doubled ← (List.range oldTblSize).foldlM (fun ht i =>
      if !(oldTbl i).inUse then .ok ht
      else insert ht (oldTbl i).key (oldTbl i).val) empty
    if doubled.size ≠ oldSize then
      .error (.die "expected size to be invariant after doubling\n")
    else .ok doubled

/-- `sd_hash_table_insert` with at most `fuel` levels of insertion in flight. -/
def insertNested : Nat → SDHashTable K V → K → V → Except Abort (SDHashTable K V)
  | 0, _, _, _ => .error .nesting
  | fuel + 1, ht, key, val => do
    let i ← htIndex ht key
    if i < 0 then .error (.die "insert: expected ht_index to be gte 0\n")
    else
      let slot := i.toNat
      let entry := ht.tbl slot
      let ht := { ht with
        tbl := Function.update ht.tbl slot { entry with key := key, val := val } }
      if !entry.inUse then
        let ht := { ht with
          tbl := Function.update ht.tbl slot { inUse := true, key := key, val := val }
          size := ht.size + 1 }
        if overloaded ht then htDoubleTable (insertNested fuel) ht else .ok ht
      else .ok ht

/-- One insertion by the caller and one per entry moved by a doubling. -/
def sdHashTableInsert (ht : SDHashTable K V) (key : K) (val : V) :
    Except Abort (SDHashTable K V) :=
  insertNested 2 ht key val

/-! ### Lookup, removal, size -/

/-- The value (NULL when absent) and the flag stored through `ok`. -/
def sdHashTableLookup (ht : SDHashTable K V) (key : K) : Except Abort (Bool × V) := do
  let i ← htIndex ht key
  if i < 0 then .error (.die "lookup: expected ht_index to be gte 0\n")
  else
    let entry := ht.tbl i.toNat
    if entry.inUse then .ok (true, entry.val) else .ok (false, default)

/-- A call made through one of the two callbacks, with the argument it is passed. -/
inductive Callback (K V : Type) where
  | keyRemoved (arg : K ⊕ V)
  | valueRemoved (arg : K ⊕ V)
deriving DecidableEq, Repr

/-- `sd_hash_table_remove`: the table and the callbacks made.  Both calls test and
    use `key_removed_fn`. -/
def sdHashTableRemove (ht : SDHashTable K V) (key : K) :
    Except Abort (SDHashTable K V × List (Callback K V)) := do
  let i ← htIndex ht key
  if i < 0 then .error (.die "remove: expected ht_index to be gte 0\n")
  else
    let slot := i.toNat
    let entry := ht.tbl slot
    if entry.inUse then
      .ok ({ ht with tbl := Function.update ht.tbl slot default, size := ht.size - 1 },
        if ht.keyRemovedFn then
          [.keyRemoved (.inl entry.key), .keyRemoved (.inr entry.val)]
        else [])
    else .ok (ht, [])

def sdHashTableContains (ht : SDHashTable K V) (key : K) : Except Abort Bool := do
  let i ← htIndex ht key
  if i < 0 then .error (.die "contians: expected ht_index to be gte 0\n")
  else .ok (ht.tbl i.toNat).inUse

def sdHashTableSize (ht : SDHashTable K V) : Nat := ht.size

/-! ### Histories -/

/-- One call of the table's interface. -/
inductive Op (K V : Type) where
  | insert (key : K) (val : V)
  | remove (key : K)
  | lookup (key : K)
  | contains (key : K)

/-- The table after one call. -/
def Op.apply (ht : SDHashTable K V) : Op K V → Except Abort (SDHashTable K V)
  | .insert key val => sdHashTableInsert ht key val
  | .remove key => (sdHashTableRemove ht key).map Prod.fst
  | .lookup key => (sdHashTableLookup ht key).map fun _ => ht
  | .contains key => (sdHashTableContains ht key).map fun _ => ht

/-- The table after a history of calls. -/
def run (ht : SDHashTable K V) (ops : List (Op K V)) : Except Abort (SDHashTable K V) :=
  ops.foldlM Op.apply ht

end Libsd.HashTable

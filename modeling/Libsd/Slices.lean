/-
  Libsd/Slices.lean
  =================
  **The slices of `util.c`, when memory can run out.**

  The allocator answers each request in turn, and `served n` says whether the request `n`
  succeeds.  `slice_append` reports a request that is refused, but `realloc` has then
  replaced the old block; `slice_extend` reports nothing, and it does not end as long as
  it appends to the slice it reads.  So the slices hold what was appended to them, and
  failures are reported, only in a history of which every step is `Good`
  (`keepsLists_iff`).
-/
import Libsd.Basic
import Mathlib.Data.List.Basic
import Mathlib.Logic.Function.Basic

namespace Libsd

/-- `elems` is the block of `cap` pointers, which is empty for NULL. -/
structure Slice (α : Type) where
  elems : List α
  len : Nat
  cap : Nat
  size : elems.length = cap
  len_le : len ≤ cap

namespace Slices

variable {α ι : Type}

/-- What a slice denotes. -/
def contents (s : Slice α) : List α := s.elems.take s.len

/-- `s->elems[s->len++] = e`, with room for it. -/
def store (s : Slice α) (e : α) (h : s.len < s.cap) : Slice α where
  elems := s.elems.set s.len e
  len := s.len + 1
  cap := s.cap
  size := by rw [List.length_set, s.size]
  len_le := h

/-- The block after `calloc`, which finds it empty, or after `realloc` and the loop that
    clears the new part. -/
def grow [Inhabited α] (s : Slice α) (newCap : Nat) (h : s.cap < newCap) : Slice α where
  elems := s.elems ++ List.replicate (newCap - s.cap) default
  len := s.len
  cap := newCap
  size := by
    rw [List.length_append, List.length_replicate, s.size]
    exact Nat.add_sub_cancel' h.le
  len_le := s.len_le.trans h.le

/-- What a failed `realloc` leaves behind. -/
def lost : Slice α := { elems := [], len := 0, cap := 0, size := rfl, len_le := le_rfl }

/-- The error code, the slice, and how many requests the allocator has answered. -/
structure Appended (α : Type) where
  err : Option SDErr
  slice : Slice α
  allocs : Nat

def sliceAppend [Inhabited α] (served : Nat → Bool) (n : Nat) (s : Slice α) (e : α) : Appended α :=
  if h0 : s.cap = 0 then
    if served n then
      { err := none
        slice := store (grow s 2 (by omega)) e (show s.len < 2 by have := s.len_le; omega)
        allocs := n + 1 }
    else { err := some .nomem, slice := s, allocs := n + 1 }
  else if h : s.len = s.cap then
    if served n then
      { err := none
        slice := store (grow s (s.cap * 2) (by omega)) e (show s.len < s.cap * 2 by omega)
        allocs := n + 1 }
    else { err := some .nomem, slice := lost, allocs := n + 1 }
  else { err := none, slice := store s e (lt_of_le_of_ne s.len_le h), allocs := n }

/-- Slices by name, and the count of the requests so far. -/
structure Mem (ι α : Type) where
  slices : ι → Slice α
  allocs : Nat

variable [DecidableEq ι]

/-- `slice_append` on a slice by name: the error code and the memory. -/
def appendTo [Inhabited α] (served : Nat → Bool) (m : Mem ι α) (i : ι) (e : α) :
    Option SDErr × Mem ι α :=
  let r := sliceAppend served m.allocs (m.slices i) e
  (r.err, { slices := Function.update m.slices i r.slice, allocs := r.allocs })

/-- The loop of `slice_extend` from `k` on, with the elements of which the append has
    succeeded; `none` when the fuel does not suffice. -/
def extendLoop [Inhabited α] (served : Nat → Bool) (i j : ι) :
    Nat → Nat → Mem ι α → Option (List α × Mem ι α)
  | 0, _, _ => none
  | fuel + 1, k, m =>
    if h : k < (m.slices j).len then
      let e := (m.slices j).elems.get
          ⟨k, by have := (m.slices j).len_le; have := (m.slices j).size; omega⟩
      let r := appendTo served m i e
      (extendLoop served i j fuel (k + 1) r.2).map fun o =>
        (if r.1 = none then e :: o.1 else o.1, o.2)
    else some ([], m)

/-- A call of `slice_append` or `slice_extend`. -/
inductive Op (ι α : Type) where
  | append (s : ι) (e : α)
  | extend (s other : ι)

/-- The slice that is written. -/
def Op.target : Op ι α → ι
  | .append s _ => s
  | .extend s _ => s

/-- What a call returns, the elements it has appended, and the memory. -/
structure Outcome (ι α : Type) where
  err : Option SDErr
  stored : List α
  mem : Mem ι α

def Op.apply [Inhabited α] (served : Nat → Bool) (fuel : Nat) (m : Mem ι α) :
    Op ι α → Option (Outcome ι α)
  | .append s e =>
    let r := appendTo served m s e
    some { err := r.1, stored := if r.1 = none then [e] else [], mem := r.2 }
  | .extend s other =>
    (extendLoop served s other fuel 0 m).map fun o => { err := none, stored := o.1, mem := o.2 }

/-! ### Histories -/

section
variable [Inhabited α] (served : Nat → Bool)

/-- The call returns this. -/
def Returns (m : Mem ι α) (op : Op ι α) (o : Outcome ι α) : Prop :=
  ∃ fuel, op.apply served fuel m = some o

/-- `Runs served m0 ops log m`: the calls `ops` return one after the other and lead from
    `m0` to `m`, and `log` is what they have appended to each slice. -/
inductive Runs (m0 : Mem ι α) : List (Op ι α) → (ι → List α) → Mem ι α → Prop where
  | nil : Runs m0 [] (fun _ => []) m0
  | snoc {ops : List (Op ι α)} {log : ι → List α} {m : Mem ι α} {op : Op ι α} {o : Outcome ι α}
      (h : Runs m0 ops log m) (hop : Returns served m op o) :
      Runs m0 (ops ++ [op]) (Function.update log op.target (log op.target ++ o.stored)) o.mem

/-- A request among these is refused. -/
def Refused (m m' : Mem ι α) : Prop := ∃ a, m.allocs ≤ a ∧ a < m'.allocs ∧ served a = false

/-- In the history every call returns and reports a refused request, and a slice always
    holds what has been appended to it. -/
structure KeepsLists (m0 : Mem ι α) (ops : List (Op ι α)) : Prop where
  returns : ∀ pre op, pre ++ [op] <+: ops → ∀ log m, Runs served m0 pre log m →
    ∃ o, Returns served m op o
  reports : ∀ pre op, pre ++ [op] <+: ops → ∀ log m, Runs served m0 pre log m →
    ∀ o, Returns served m op o → Refused served m o.mem → o.err = some .nomem
  contents : ∀ pre, pre <+: ops → ∀ log m, Runs served m0 pre log m →
    ∀ i, contents (m.slices i) = contents (m0.slices i) ++ log i

end

/-- How many requests it takes to append `k` elements. -/
def growths : Nat → Nat → Nat → Nat
  | _, _, 0 => 0
  | len, cap, k + 1 =>
    if cap = 0 then growths (len + 1) 2 k + 1
    else if len = cap then growths (len + 1) (cap * 2) k + 1
    else growths (len + 1) cap k

/-- No request for a larger block is refused; no request at all in `slice_extend`, and no
    slice with elements is extended by itself. -/
def Op.Good (served : Nat → Bool) (m : Mem ι α) : Op ι α → Prop
  | .append s _ => (m.slices s).cap ≠ 0 → (m.slices s).len = (m.slices s).cap →
      served m.allocs = true
  | .extend s other =>
    if s = other then (m.slices s).len = 0
    else ∀ a < growths (m.slices s).len (m.slices s).cap (m.slices other).len,
      served (m.allocs + a) = true

/-! ### One append -/

section
variable {s : Slice α} {e : α}

omit [DecidableEq ι] in
theorem length_contents (s : Slice α) : (contents s).length = s.len := by
  rw [contents, List.length_take, s.size]
  exact Nat.min_eq_left s.len_le

theorem contents_store {h : s.len < s.cap} : contents (store s e h) = contents s ++ [e] := by
  have hlen : s.len < s.elems.length := s.size.symm ▸ h
  show (s.elems.set s.len e).take (s.len + 1) = s.elems.take s.len ++ [e]
  rw [List.take_succ_eq_append_getElem (by rwa [List.length_set]), List.getElem_set_self,
    List.take_set_of_le le_rfl]

theorem contents_lost : contents (lost : Slice α) = [] := rfl

variable [Inhabited α]

theorem contents_grow {c : Nat} {h : s.cap < c} : contents (grow s c h) = contents s := by
  show (s.elems ++ _).take s.len = s.elems.take s.len
  exact List.take_append_of_le_length (s.size.symm ▸ s.len_le)

end

/-- What `slice_append` can do. -/
inductive Appends (served : Nat → Bool) (n : Nat) (s : Slice α) (e : α) : Appended α → Prop where
  | room {t : Slice α} (h0 : s.cap ≠ 0) (hlen : s.len ≠ s.cap)
      (hcontents : contents t = contents s ++ [e]) (hcap : t.cap = s.cap) :
      Appends served n s e ⟨none, t, n⟩
  | first {t : Slice α} (h0 : s.cap = 0) (hserved : served n = true)
      (hcontents : contents t = contents s ++ [e]) (hcap : t.cap = 2) :
      Appends served n s e ⟨none, t, n + 1⟩
  | grown {t : Slice α} (h0 : s.cap ≠ 0) (hlen : s.len = s.cap) (hserved : served n = true)
      (hcontents : contents t = contents s ++ [e]) (hcap : t.cap = s.cap * 2) :
      Appends served n s e ⟨none, t, n + 1⟩
  | firstRefused (h0 : s.cap = 0) (hserved : served n = false) :
      Appends served n s e ⟨some .nomem, s, n + 1⟩
  | grownRefused (h0 : s.cap ≠ 0) (hlen : s.len = s.cap) (hserved : served n = false) :
      Appends served n s e ⟨some .nomem, lost, n + 1⟩

theorem sliceAppend_spec [Inhabited α] (served : Nat → Bool) (n : Nat) (s : Slice α) (e : α) :
    Appends served n s e (sliceAppend served n s e) := by
  rw [sliceAppend]
  split
  · next h0 =>
    cases hserved : served n with
    | true => exact .first h0 hserved (contents_store.trans (by rw [contents_grow])) rfl
    | false => exact .firstRefused h0 hserved
  · next h0 =>
    split
    · next hlen =>
      cases hserved : served n with
      | true => exact .grown h0 hlen hserved (contents_store.trans (by rw [contents_grow])) rfl
      | false => exact .grownRefused h0 hlen hserved
    · next hlen => exact .room h0 hlen contents_store rfl

namespace Appends

variable {served : Nat → Bool} {n : Nat} {s : Slice α} {e : α} {r : Appended α}

theorem allocs_le (h : Appends served n s e r) : n ≤ r.allocs := by
  cases h <;> simp

/-- An append that succeeds adds its element. -/
theorem contents_of_err (h : Appends served n s e r) (herr : r.err = none) :
    contents r.slice = contents s ++ [e] := by
  cases h with
  | room _ _ hcontents _ => exact hcontents
  | first _ _ hcontents _ => exact hcontents
  | grown _ _ _ hcontents _ => exact hcontents
  | firstRefused => cases herr
  | grownRefused => cases herr

theorem len_of_err (h : Appends served n s e r) (herr : r.err = none) :
    r.slice.len = s.len + 1 := by
  rw [← length_contents, h.contents_of_err herr, List.length_append, length_contents]
  rfl

/-- An append that fails has had its request refused. -/
theorem refused_of_err (h : Appends served n s e r) (herr : r.err ≠ none) :
    served n = false ∧ r.allocs = n + 1 ∧ r.err = some .nomem := by
  cases h with
  | room => exact absurd rfl herr
  | first => exact absurd rfl herr
  | grown => exact absurd rfl herr
  | firstRefused _ hserved => exact ⟨hserved, rfl, rfl⟩
  | grownRefused _ _ hserved => exact ⟨hserved, rfl, rfl⟩

theorem served_of_err (h : Appends served n s e r) (herr : r.err = none) :
    ∀ a, n ≤ a → a < r.allocs → served a = true := by
  intro a hle hlt
  cases h with
  | room => exact absurd hle (Nat.not_le.mpr hlt)
  | first _ hserved =>
    obtain rfl : a = n := Nat.le_antisymm (Nat.le_of_lt_succ hlt) hle
    exact hserved
  | grown _ _ hserved =>
    obtain rfl : a = n := Nat.le_antisymm (Nat.le_of_lt_succ hlt) hle
    exact hserved
  | firstRefused => cases herr
  | grownRefused => cases herr

/-- The requests for `k` elements more: the ones of this append, and the ones after it. -/
theorem growths_succ (h : Appends served n s e r) (herr : r.err = none) (k : Nat) :
    growths s.len s.cap (k + 1) = r.allocs - n + growths r.slice.len r.slice.cap k := by
  rw [h.len_of_err herr, growths]
  cases h with
  | room h0 hlen _ hcap => rw [if_neg h0, if_neg hlen, hcap, Nat.sub_self, Nat.zero_add]
  | first h0 _ _ hcap => rw [if_pos h0, hcap, Nat.add_sub_cancel_left, Nat.add_comm]
  | grown h0 hlen _ _ hcap =>
    rw [if_neg h0, if_pos hlen, hcap, Nat.add_sub_cancel_left, Nat.add_comm]
  | firstRefused => cases herr
  | grownRefused => cases herr

/-- Where the request is refused, at least one was to be made. -/
theorem growths_pos (h : Appends served n s e r) (herr : r.err ≠ none) (k : Nat) :
    0 < growths s.len s.cap (k + 1) := by
  rw [growths]
  cases h with
  | room => exact absurd rfl herr
  | first => exact absurd rfl herr
  | grown => exact absurd rfl herr
  | firstRefused h0 _ => rw [if_pos h0]; exact Nat.succ_pos _
  | grownRefused h0 hlen _ => rw [if_neg h0, if_pos hlen]; exact Nat.succ_pos _

end Appends

/-! ### The loop of `slice_extend` -/

section
variable [Inhabited α] {served : Nat → Bool} {i j : ι} {fuel k : Nat} {m : Mem ι α}
  {o : List α × Mem ι α}

/-- The memory after an append to the slice `i`. -/
def Mem.set (m : Mem ι α) (i : ι) (r : Appended α) : Mem ι α :=
  { slices := Function.update m.slices i r.slice, allocs := r.allocs }

omit [Inhabited α] in
theorem set_self (m : Mem ι α) (i : ι) (r : Appended α) : (m.set i r).slices i = r.slice :=
  Function.update_self ..

omit [Inhabited α] in
theorem set_of_ne (m : Mem ι α) {i i' : ι} (h : i' ≠ i) (r : Appended α) :
    (m.set i r).slices i' = m.slices i' := Function.update_of_ne h ..

theorem extendLoop_stop (h : (m.slices j).len ≤ k)
    (hloop : extendLoop served i j fuel k m = some o) :
    o = ([], m) := by
  cases fuel with
  | zero => cases hloop
  | succ fuel =>
    rw [extendLoop, dif_neg (Nat.not_lt.mpr h)] at hloop
    exact (Option.some.inj hloop).symm

/-- One round of the loop. -/
theorem extendLoop_step (h : k < (m.slices j).len)
    (hloop : extendLoop served i j (fuel + 1) k m = some o) :
    ∃ e r o', (contents (m.slices j)).drop k = e :: (contents (m.slices j)).drop (k + 1) ∧
      Appends served m.allocs (m.slices i) e r ∧
      extendLoop served i j fuel (k + 1) (m.set i r) = some o' ∧
      o = (if r.err = none then e :: o'.1 else o'.1, o'.2) := by
  rw [extendLoop, dif_pos h] at hloop
  obtain ⟨o', hrest, ho⟩ := Option.map_eq_some_iff.mp hloop
  refine ⟨_, _, o', ?_, sliceAppend_spec served m.allocs (m.slices i) _, hrest, ho.symm⟩
  have hlen : k < (contents (m.slices j)).length := by rwa [length_contents]
  rw [List.drop_eq_getElem_cons hlen]
  simp only [contents, List.getElem_take, List.get_eq_getElem]

theorem extendLoop_allocs_le (hloop : extendLoop served i j fuel k m = some o) :
    m.allocs ≤ o.2.allocs := by
  induction fuel generalizing k m o with
  | zero => cases hloop
  | succ fuel ih =>
    rcases Nat.lt_or_ge k (m.slices j).len with h | h
    · obtain ⟨e, r, o', -, hr, hrest, rfl⟩ := extendLoop_step h hloop
      exact hr.allocs_le.trans (ih hrest)
    · rw [extendLoop_stop h hloop]

/-- Only the slice `i` is written. -/
theorem extendLoop_frame (hloop : extendLoop served i j fuel k m = some o) {i' : ι} (hi : i' ≠ i) :
    o.2.slices i' = m.slices i' := by
  induction fuel generalizing k m o with
  | zero => cases hloop
  | succ fuel ih =>
    rcases Nat.lt_or_ge k (m.slices j).len with h | h
    · obtain ⟨e, r, o', -, hr, hrest, rfl⟩ := extendLoop_step h hloop
      exact (ih hrest).trans (set_of_ne m hi r)
    · rw [extendLoop_stop h hloop]

/-- A request refused in one round is refused in the loop. -/
theorem refused_of_err {e : α} {r : Appended α} (hr : Appends served m.allocs (m.slices i) e r)
    (herr : r.err ≠ none) {o : List α × Mem ι α}
    (hrest : extendLoop served i j fuel (k + 1) (m.set i r) = some o) : Refused served m o.2 := by
  obtain ⟨hserved, hallocs, -⟩ := hr.refused_of_err herr
  refine ⟨m.allocs, le_rfl, ?_, hserved⟩
  have hle : r.allocs ≤ o.2.allocs := extendLoop_allocs_le hrest
  omega

omit [Inhabited α] in
theorem refused_of_rest {e : α} {r : Appended α} (hr : Appends served m.allocs (m.slices i) e r)
    {m' : Mem ι α} (h : Refused served (m.set i r) m') : Refused served m m' := by
  obtain ⟨a, hle, hlt, hserved⟩ := h
  exact ⟨a, hr.allocs_le.trans hle, hlt, hserved⟩

/-- A slice that is extended by itself grows ahead of the loop: it ends only when a request
    is refused. -/
theorem extendLoop_self (h : k < (m.slices i).len)
    (hloop : extendLoop served i i fuel k m = some o) : Refused served m o.2 := by
  induction fuel generalizing k m o with
  | zero => cases hloop
  | succ fuel ih =>
    obtain ⟨e, r, o', -, hr, hrest, rfl⟩ := extendLoop_step h hloop
    by_cases herr : r.err = none
    · have hahead : k + 1 < ((m.set i r).slices i).len := by
        rw [set_self, hr.len_of_err herr]
        exact Nat.succ_lt_succ h
      have hrefused := ih hahead hrest
      exact refused_of_rest hr hrefused
    · have hrefused := refused_of_err hr herr hrest
      exact hrefused

/-- A slice that is extended by another one: the loop ends. -/
theorem exists_extendLoop (served : Nat → Bool) (hij : j ≠ i) (d : Nat) {k : Nat} {m : Mem ι α}
    (hd : (m.slices j).len = k + d) : ∃ o, extendLoop served i j (d + 1) k m = some o := by
  induction d generalizing k m with
  | zero => exact ⟨([], m), by rw [extendLoop, dif_neg (by omega)]⟩
  | succ d ih =>
    have h : k < (m.slices j).len := by omega
    rw [extendLoop, dif_pos h]
    have hrest : ∀ r, ((m.set i r).slices j).len = k + 1 + d := by
      intro r
      rw [set_of_ne m hij]
      omega
    exact ⟨_, Option.map_eq_some_iff.mpr ⟨_, (ih (hrest _)).choose_spec, rfl⟩⟩

/-- With all requests served it appends all elements. -/
theorem extendLoop_served (hij : j ≠ i) (hloop : extendLoop served i j fuel k m = some o)
    (hserved : ∀ a < growths (m.slices i).len (m.slices i).cap ((m.slices j).len - k),
      served (m.allocs + a) = true) :
    o.1 = (contents (m.slices j)).drop k ∧
      contents (o.2.slices i) = contents (m.slices i) ++ (contents (m.slices j)).drop k ∧
      ¬ Refused served m o.2 := by
  induction fuel generalizing k m o with
  | zero => cases hloop
  | succ fuel ih =>
    rcases Nat.lt_or_ge k (m.slices j).len with h | h
    · obtain ⟨e, r, o', hdrop, hr, hrest, rfl⟩ := extendLoop_step h hloop
      have hk : (m.slices j).len - k = ((m.slices j).len - (k + 1)) + 1 := by omega
      rw [hk] at hserved
      have herr : r.err = none := by
        by_contra herr
        have hfirst := hserved 0 (hr.growths_pos herr _)
        rw [Nat.add_zero, (hr.refused_of_err herr).1] at hfirst
        cases hfirst
      have hle := hr.allocs_le
      obtain ⟨hstored, hcontents, hrefused⟩ := ih hrest (by
        intro a ha
        rw [set_self, set_of_ne m hij] at ha
        have hlater := hserved (r.allocs - m.allocs + a) (by
          rw [hr.growths_succ herr]
          exact Nat.add_lt_add_left ha _)
        rwa [← Nat.add_assoc, Nat.add_sub_cancel' hle] at hlater)
      rw [set_of_ne m hij] at hstored hcontents
      rw [set_self, hr.contents_of_err herr] at hcontents
      refine ⟨?_, ?_, ?_⟩
      · rw [if_pos herr, hstored, hdrop]
      · rw [hcontents, hdrop, List.append_assoc]
        rfl
      · rintro ⟨a, hma, hao, hno⟩
        rcases Nat.lt_or_ge a r.allocs with hlt | hge
        · rw [hr.served_of_err herr a hma hlt] at hno
          cases hno
        · exact hrefused ⟨a, hge, hao, hno⟩
    · obtain rfl := extendLoop_stop h hloop
      have hnil : (contents (m.slices j)).drop k = [] :=
        List.drop_of_length_le (by rwa [length_contents])
      refine ⟨hnil.symm, by rw [hnil, List.append_nil], ?_⟩
      rintro ⟨a, hma, hao, -⟩
      exact absurd hma (Nat.not_le.mpr hao)

/-- With a request refused that it takes, the loop meets a refused request. -/
theorem extendLoop_refused (hij : j ≠ i) (hloop : extendLoop served i j fuel k m = some o)
    (hno : ∃ a < growths (m.slices i).len (m.slices i).cap ((m.slices j).len - k),
      served (m.allocs + a) = false) : Refused served m o.2 := by
  induction fuel generalizing k m o with
  | zero => cases hloop
  | succ fuel ih =>
    obtain ⟨a, ha, hserved⟩ := hno
    have h : k < (m.slices j).len := by
      by_contra hge
      rw [Nat.sub_eq_zero_of_le (Nat.not_lt.mp hge), growths] at ha
      exact absurd ha (Nat.not_lt_zero a)
    obtain ⟨e, r, o', hdrop, hr, hrest, rfl⟩ := extendLoop_step h hloop
    by_cases herr : r.err = none
    · have hk : (m.slices j).len - k = ((m.slices j).len - (k + 1)) + 1 := by omega
      rw [hk, hr.growths_succ herr] at ha
      have hle := hr.allocs_le
      -- the requests of this round were served, so the refused one comes later
      have hlater : r.allocs ≤ m.allocs + a := by
        by_contra hlt
        rw [hr.served_of_err herr _ (Nat.le_add_right _ _) (Nat.not_le.mp hlt)] at hserved
        cases hserved
      have hrefused := ih hrest ⟨m.allocs + a - r.allocs, by
          rw [set_self, set_of_ne m hij]
          omega, by
          show served (r.allocs + (m.allocs + a - r.allocs)) = false
          rwa [Nat.add_sub_cancel' hlater]⟩
      exact refused_of_rest hr hrefused
    · have hrefused := refused_of_err hr herr hrest
      exact hrefused

end

/-! ### The calls -/

section
variable [Inhabited α] {served : Nat → Bool} {m : Mem ι α} {op : Op ι α} {o : Outcome ι α}

theorem returns_append {i : ι} {e : α} (h : Returns served m (.append i e) o) :
    ∃ r, Appends served m.allocs (m.slices i) e r ∧
      o = { err := r.err, stored := if r.err = none then [e] else [], mem := m.set i r } := by
  obtain ⟨fuel, h⟩ := h
  exact ⟨_, sliceAppend_spec served m.allocs (m.slices i) e, (Option.some.inj h).symm⟩

theorem returns_extend {i j : ι} (h : Returns served m (.extend i j) o) :
    ∃ fuel p, extendLoop served i j fuel 0 m = some p ∧
      o = { err := none, stored := p.1, mem := p.2 } := by
  obtain ⟨fuel, h⟩ := h
  obtain ⟨p, hloop, rfl⟩ := Option.map_eq_some_iff.mp h
  exact ⟨fuel, p, hloop, rfl⟩

/-- Only the target is written. -/
theorem returns_frame (h : Returns served m op o) {i : ι} (hi : i ≠ op.target) :
    o.mem.slices i = m.slices i := by
  cases op with
  | append s e =>
    obtain ⟨r, -, rfl⟩ := returns_append h
    exact set_of_ne m hi r
  | extend s other =>
    obtain ⟨fuel, p, hloop, rfl⟩ := returns_extend h
    exact extendLoop_frame hloop hi

/-- A call that is `Good` returns. -/
theorem exists_returns (hgood : op.Good served m) : ∃ o, Returns served m op o := by
  cases op with
  | append s e => exact ⟨_, 0, rfl⟩
  | extend s other =>
    have hloop : ∃ fuel p, extendLoop served s other fuel 0 m = some p := by
      by_cases hso : s = other
      · subst hso
        have hlen : (m.slices s).len = 0 := by rwa [Op.Good, if_pos rfl] at hgood
        exact ⟨1, ([], m), by rw [extendLoop, dif_neg (by omega)]⟩
      · exact ⟨_, exists_extendLoop served (Ne.symm hso) _ (Nat.zero_add _).symm⟩
    obtain ⟨fuel, p, hp⟩ := hloop
    exact ⟨_, fuel, Option.map_eq_some_iff.mpr ⟨p, hp, rfl⟩⟩

/-- A call that is `Good` appends what it says, and reports what is refused. -/
theorem good_spec (hgood : op.Good served m) (h : Returns served m op o) :
    contents (o.mem.slices op.target) = contents (m.slices op.target) ++ o.stored ∧
      (Refused served m o.mem → o.err = some .nomem) := by
  cases op with
  | append s e =>
    obtain ⟨r, hr, rfl⟩ := returns_append h
    show contents ((m.set s r).slices s) = _ ∧ _
    rw [set_self]
    by_cases herr : r.err = none
    · refine ⟨?_, ?_⟩
      · rw [hr.contents_of_err herr, if_pos herr]
        rfl
      · rintro ⟨a, hle, hlt, hserved⟩
        rw [hr.served_of_err herr a hle hlt] at hserved
        cases hserved
    · refine ⟨?_, fun _ => (hr.refused_of_err herr).2.2⟩
      rw [if_neg herr, List.append_nil]
      cases hr with
      | room => exact absurd rfl herr
      | first => exact absurd rfl herr
      | grown => exact absurd rfl herr
      | firstRefused => rfl
      | grownRefused h0 hlen hserved =>
        rw [hgood h0 hlen] at hserved
        cases hserved
  | extend s other =>
    obtain ⟨fuel, p, hloop, rfl⟩ := returns_extend h
    by_cases hso : s = other
    · subst hso
      have hlen : (m.slices s).len = 0 := by rwa [Op.Good, if_pos rfl] at hgood
      obtain rfl := extendLoop_stop (Nat.le_of_eq hlen) hloop
      refine ⟨(List.append_nil _).symm, ?_⟩
      rintro ⟨a, hle, hlt, -⟩
      exact absurd hle (Nat.not_le.mpr hlt)
    · rw [Op.Good, if_neg hso] at hgood
      obtain ⟨hstored, hcontents, hrefused⟩ := extendLoop_served (Ne.symm hso) hloop hgood
      refine ⟨?_, fun h => absurd h hrefused⟩
      show contents (p.2.slices s) = contents (m.slices s) ++ p.1
      rw [hcontents, hstored]

/-- A call that returns, appends what it says and reports what is refused, is `Good`. -/
theorem good_of_spec (hreturns : ∃ o, Returns served m op o)
    (hcontents : ∀ o, Returns served m op o →
      contents (o.mem.slices op.target) = contents (m.slices op.target) ++ o.stored)
    (hreports : ∀ o, Returns served m op o → Refused served m o.mem → o.err = some .nomem) :
    op.Good served m := by
  obtain ⟨o, ho⟩ := hreturns
  have hcontents := hcontents o ho
  have hreports := hreports o ho
  cases op with
  | append s e =>
    intro h0 hlen
    obtain ⟨r, hr, rfl⟩ := returns_append ho
    change contents ((m.set s r).slices s) = contents (m.slices s) ++ _ at hcontents
    rw [set_self] at hcontents
    cases hr with
    | room _ hne => exact absurd hlen hne
    | first hzero => exact absurd hzero h0
    | grown _ _ hserved => exact hserved
    | firstRefused hzero => exact absurd hzero h0
    | grownRefused =>
      -- the old elements are gone
      have hnone := congrArg List.length hcontents
      rw [contents_lost, List.length_append, length_contents] at hnone
      exact absurd (Nat.eq_zero_of_add_eq_zero_right hnone.symm) (hlen ▸ h0)
  | extend s other =>
    obtain ⟨fuel, p, hloop, rfl⟩ := returns_extend ho
    have hquiet : ¬ Refused served m p.2 := by
      intro h
      cases hreports h
    rw [Op.Good]
    split
    · next hso =>
      subst hso
      by_contra hlen
      exact hquiet (extendLoop_self (Nat.pos_of_ne_zero hlen) hloop)
    · next hso =>
      intro a ha
      by_contra hno
      exact hquiet (extendLoop_refused (Ne.symm hso) hloop ⟨a, ha, Bool.not_eq_true _ ▸ hno⟩)

/-- For all slices, every history and every pattern of refused requests: the calls return,
    report what is refused and append what they say exactly when each of them is `Good`. -/
theorem keepsLists_iff (served : Nat → Bool) (m0 : Mem ι α) (ops : List (Op ι α)) :
    KeepsLists served m0 ops ↔ ∀ pre op, pre ++ [op] <+: ops →
      ∀ log m, Runs served m0 pre log m → op.Good served m := by
  constructor
  · intro h pre op hpre log m hruns
    refine good_of_spec (h.returns pre op hpre log m hruns) (fun o ho => ?_)
      (h.reports pre op hpre log m hruns)
    have hbefore := h.contents pre ((List.prefix_append pre [op]).trans hpre) log m hruns op.target
    have hafter := h.contents _ hpre _ _ (hruns.snoc ho) op.target
    rw [hafter, hbefore, Function.update_self, List.append_assoc]
  · intro h
    refine ⟨fun pre op hpre log m hruns => exists_returns (h pre op hpre log m hruns),
      fun pre op hpre log m hruns o ho => (good_spec (h pre op hpre log m hruns) ho).2, ?_⟩
    intro pre hpre log m hruns
    induction hruns with
    | nil => exact fun i => (List.append_nil _).symm
    | @snoc pre log m op o hruns ho ih =>
      intro i
      have hi := ih ((List.prefix_append pre [op]).trans hpre) i
      by_cases htarget : i = op.target
      · subst htarget
        rw [(good_spec (h pre op hpre log m hruns) ho).1, hi, Function.update_self,
          List.append_assoc]
      · rw [returns_frame ho htarget, hi, Function.update_of_ne htarget]

end

/-- The third append needs a larger block, and does not get it: the first two elements
    are lost. -/
theorem realloc_loses : ¬ KeepsLists (fun n => n == 0) (⟨fun _ => lost, 0⟩ : Mem Unit Nat)
    [.append () 1, .append () 2, .append () 3] := by
  intro h
  have hruns0 : Runs (fun n => n == 0) (⟨fun _ => lost, 0⟩ : Mem Unit Nat) [] _ _ := .nil
  have hruns1 : Runs _ _ [.append () 1] _ _ := hruns0.snoc ⟨0, rfl⟩
  have hruns2 : Runs _ _ [.append () 1, .append () 2] _ _ := hruns1.snoc ⟨0, rfl⟩
  have hruns : Runs _ _ [.append () 1, .append () 2, .append () 3] _ _ := hruns2.snoc ⟨0, rfl⟩
  have hkept := h.contents _ (List.prefix_refl _) _ _ hruns ()
  revert hkept
  decide

end Slices

end Libsd

/-
  Libsd/Lib/LinearProbe.lean
  ==========================
  **Open addressing with linear probing, over any key type.**

  A `Layout` is what a probing hash table looks like to a search: a number of
  slots, the home position of each key, and the key occupying each slot.  The
  search for `k` visits `probe k 0, probe k 1, …` and stops at the first slot
  that is empty or holds `k`.

  A layout is `Valid` when no key sits in two slots and no key has an empty slot
  before it on its own probe chain.  Validity is exactly what makes the first
  stop of a search decide membership (`Valid.mem_of_stop`); writing the key at
  its first stop keeps it (`Valid.set`), and clearing a slot keeps it precisely
  when no other key's chain runs through that slot (`Valid.erase_iff`).
-/
import Mathlib.Data.Nat.Find
import Mathlib.Data.Nat.ModEq
import Mathlib.Logic.Function.Basic
import Mathlib.Tactic.Common

namespace Libsd.LinearProbe

/-- The search-relevant part of a probing table. -/
structure Layout (K : Type*) where
  n : Nat
  home : K → Nat
  slot : Nat → Option K

variable {K : Type*}

namespace Layout

/-- The slot visited by the `d`-th probe for `k`. -/
def probe (t : Layout K) (k : K) (d : Nat) : Nat := (t.home k + d) % t.n

/-- The search for `k` stops at its `d`-th probe. -/
def Stops (t : Layout K) (k : K) (d : Nat) : Prop :=
  t.slot (t.probe k d) = none ∨ t.slot (t.probe k d) = some k

/-- The `d`-th probe is where the search for `k` ends. -/
def FirstStop (t : Layout K) (k : K) (d : Nat) : Prop :=
  t.Stops k d ∧ ∀ e < d, ¬ t.Stops k e

/-- Some slot of the table is occupied by `k`. -/
def Mem (t : Layout K) (k : K) : Prop := ∃ j < t.n, t.slot j = some k

/-- One slot per key, and no hole before a key on its own probe chain. -/
structure Valid (t : Layout K) : Prop where
  uniq : ∀ {i j k}, i < t.n → j < t.n → t.slot i = some k → t.slot j = some k → i = j
  chain : ∀ {k d e}, d < t.n → t.slot (t.probe k d) = some k → e < d →
    t.slot (t.probe k e) ≠ none

/-- Replace the contents of one slot. -/
def put (t : Layout K) (i : Nat) (o : Option K) : Layout K :=
  { t with slot := Function.update t.slot i o }

@[simp] theorem put_n (t : Layout K) (i : Nat) (o : Option K) : (t.put i o).n = t.n := rfl

@[simp] theorem put_probe (t : Layout K) (i : Nat) (o : Option K) (k : K) (d : Nat) :
    (t.put i o).probe k d = t.probe k d := rfl

@[simp] theorem put_slot_same (t : Layout K) (i : Nat) (o : Option K) :
    (t.put i o).slot i = o := by simp [put]

theorem put_slot_ne (t : Layout K) {i j : Nat} (o : Option K) (h : j ≠ i) :
    (t.put i o).slot j = t.slot j := by simp [put, h]

/-! ### The probe sequence -/

theorem probe_lt (t : Layout K) (hn : 0 < t.n) (k : K) (d : Nat) : t.probe k d < t.n :=
  Nat.mod_lt _ hn

/-- Two probes of one round trip visit different slots. -/
theorem probe_inj (t : Layout K) {k : K} {d e : Nat} (hd : d < t.n) (he : e < t.n)
    (h : t.probe k d = t.probe k e) : d = e := by
  have hmod : d ≡ e [MOD t.n] := Nat.ModEq.add_left_cancel' (t.home k) h
  exact Nat.ModEq.eq_of_lt_of_lt hmod hd he

/-- One round trip visits every slot. -/
theorem probe_surj (t : Layout K) (k : K) {j : Nat} (hj : j < t.n) :
    ∃ d < t.n, t.probe k d = j := by
  have hn : 0 < t.n := Nat.lt_of_le_of_lt (Nat.zero_le j) hj
  refine ⟨(j + (t.n - t.home k % t.n)) % t.n, Nat.mod_lt _ hn, ?_⟩
  have hle : t.home k % t.n ≤ t.n := (Nat.mod_lt _ hn).le
  have hsum : t.home k % t.n + (j + (t.n - t.home k % t.n)) = j + t.n := by omega
  calc t.probe k ((j + (t.n - t.home k % t.n)) % t.n)
      = (t.home k % t.n + (j + (t.n - t.home k % t.n))) % t.n := by
        simp [probe, Nat.add_mod]
    _ = j := by rw [hsum, Nat.add_mod_right, Nat.mod_eq_of_lt hj]

/-- A search ends within one round trip as long as some slot is empty. -/
theorem exists_firstStop (t : Layout K) (k : K) {j : Nat} (hj : j < t.n)
    (hfree : t.slot j = none) : ∃ d < t.n, t.FirstStop k d := by
  classical
  obtain ⟨d, hd, hp⟩ := t.probe_surj k hj
  have hex : ∃ e, t.Stops k e := ⟨d, Or.inl (by rw [hp, hfree])⟩
  refine ⟨Nat.find hex, ?_, Nat.find_spec hex, fun e he => Nat.find_min hex he⟩
  exact Nat.lt_of_le_of_lt (Nat.find_min' hex (Or.inl (by rw [hp, hfree]))) hd

theorem FirstStop.unique {t : Layout K} {k : K} {d e : Nat} (hd : t.FirstStop k d)
    (he : t.FirstStop k e) : d = e := by
  rcases Nat.lt_trichotomy d e with h | h | h
  · exact absurd hd.1 (he.2 d h)
  · exact h
  · exact absurd he.1 (hd.2 e h)

/-! ### What a valid layout guarantees -/

/-- In a valid layout the search for a stored key ends at its slot. -/
theorem Valid.firstStop_of_slot {t : Layout K} (hv : t.Valid) {k : K} {d : Nat}
    (hd : d < t.n) (hs : t.slot (t.probe k d) = some k) : t.FirstStop k d := by
  refine ⟨Or.inr hs, ?_⟩
  rintro e he (hnone | hsome)
  · exact hv.chain hd hs he hnone
  · have hn : 0 < t.n := by omega
    have hsame := hv.uniq (t.probe_lt hn k e) (t.probe_lt hn k d) hsome hs
    exact he.ne (t.probe_inj (he.trans hd) hd hsame)

/-- The slot where the search for `k` ends holds `k` exactly when `k` is stored. -/
theorem Valid.mem_iff_of_firstStop {t : Layout K} (hv : t.Valid) {k : K} {d : Nat}
    (hn : 0 < t.n) (hstop : t.FirstStop k d) :
    t.Mem k ↔ t.slot (t.probe k d) = some k := by
  constructor
  · rintro ⟨j, hj, hjk⟩
    obtain ⟨e, he, hpe⟩ := t.probe_surj k hj
    have hstop' : t.FirstStop k e := hv.firstStop_of_slot he (by rw [hpe, hjk])
    rw [hstop.unique hstop', hpe, hjk]
  · intro h
    exact ⟨t.probe k d, t.probe_lt hn k d, h⟩

/-- A search that ends at a slot not holding `k` ends at an empty slot. -/
theorem FirstStop.slot_eq_none {t : Layout K} {k : K} {d : Nat}
    (hstop : t.FirstStop k d) (h : t.slot (t.probe k d) ≠ some k) :
    t.slot (t.probe k d) = none := hstop.1.resolve_right h

/-! ### Writing a key at its first stop -/

theorem Valid.set {t : Layout K} (hv : t.Valid) {k : K} {d : Nat} (hd : d < t.n)
    (hstop : t.FirstStop k d) : (t.put (t.probe k d) (some k)).Valid := by
  have hn : 0 < t.n := by omega
  have hplt := t.probe_lt hn k d
  -- a key other than `k` in a slot of the new table was already there
  have hold : ∀ {i k'}, (t.put (t.probe k d) (some k)).slot i = some k' →
      i ≠ t.probe k d → t.slot i = some k' := fun h hne => by
    rwa [put_slot_ne t _ hne] at h
  -- `k` itself occurred in the old table at most at the slot written
  have hk : ∀ {i}, i < t.n → t.slot i = some k → i = t.probe k d := by
    intro i hi hik
    exact hv.uniq hi hplt hik ((hv.mem_iff_of_firstStop hn hstop).mp ⟨i, hi, hik⟩)
  constructor
  · intro i j k' hi hj hik hjk
    by_cases hip : i = t.probe k d <;> by_cases hjp : j = t.probe k d
    · exact hip.trans hjp.symm
    · rw [hip, put_slot_same] at hik
      cases hik
      exact absurd (hk hj (hold hjk hjp)) hjp
    · rw [hjp, put_slot_same] at hjk
      cases hjk
      exact absurd (hk hi (hold hik hip)) hip
    · exact hv.uniq hi hj (hold hik hip) (hold hjk hjp)
  · intro k' d' e hd' hs he
    rw [put_n] at hd'
    rw [put_probe] at hs ⊢
    by_cases hep : t.probe k' e = t.probe k d
    · rw [hep, put_slot_same]
      exact Option.some_ne_none k
    rw [put_slot_ne t _ hep]
    by_cases hdp : t.probe k' d' = t.probe k d
    · -- the chain of the key just written: no earlier probe was a stop
      rw [hdp, put_slot_same] at hs
      cases hs
      have hdd : d' = d := t.probe_inj hd' hd hdp
      subst hdd
      exact fun hnone => hstop.2 e he (Or.inl hnone)
    · exact hv.chain hd' (hold hs hdp) he

/-! ### Clearing a slot -/

/-- Some key other than the occupant of slot `i` is reached through slot `i`. -/
def Bridges (t : Layout K) (i : Nat) : Prop :=
  ∃ k d e, d < t.n ∧ e < d ∧ t.slot (t.probe k d) = some k ∧ t.probe k e = i

/-- Clearing slot `i` keeps the layout valid exactly when no probe chain runs
    through it. -/
theorem Valid.erase_iff {t : Layout K} (hv : t.Valid) (i : Nat) :
    (t.put i none).Valid ↔ ¬ t.Bridges i := by
  constructor
  · rintro hv' ⟨k, d, e, hd, he, hs, hp⟩
    have hne : t.probe k d ≠ i := fun h =>
      he.ne (t.probe_inj (he.trans hd) hd (hp.trans h.symm))
    refine hv'.chain (k := k) (d := d) (e := e) hd ?_ he ?_
    · rw [put_probe, put_slot_ne t _ hne, hs]
    · rw [put_probe, hp, put_slot_same]
  · intro hgap
    have hold : ∀ {j k}, (t.put i none).slot j = some k → t.slot j = some k := by
      intro j k h
      by_cases hji : j = i
      · rw [hji, put_slot_same] at h; cases h
      · rwa [put_slot_ne t _ hji] at h
    constructor
    · intro j j' k hj hj' h h'
      exact hv.uniq hj hj' (hold h) (hold h')
    · intro k d e hd hs he
      rw [put_n] at hd
      rw [put_probe] at hs ⊢
      have hne : t.probe k e ≠ i := fun h => hgap ⟨k, d, e, hd, he, hold hs, h⟩
      rw [put_slot_ne t _ hne]
      exact hv.chain hd (hold hs) he

theorem mem_erase {t : Layout K} (hv : t.Valid) {i : Nat} (hi : i < t.n) {k : K}
    (hik : t.slot i = some k) {k' : K} :
    (t.put i none).Mem k' ↔ k' ≠ k ∧ t.Mem k' := by
  constructor
  · rintro ⟨j, hj, hjk⟩
    by_cases hji : j = i
    · rw [hji, put_slot_same] at hjk; cases hjk
    · rw [put_slot_ne t _ hji] at hjk
      refine ⟨?_, j, hj, hjk⟩
      rintro rfl
      exact hji (hv.uniq hj hi hjk hik)
  · rintro ⟨hne, j, hj, hjk⟩
    have hji : j ≠ i := by
      rintro rfl
      rw [hik] at hjk
      cases hjk
      exact hne rfl
    exact ⟨j, hj, by rw [put_slot_ne t _ hji, hjk]⟩

end Layout

end Libsd.LinearProbe

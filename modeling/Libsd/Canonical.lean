/-
  Libsd/Canonical.lean
  ====================
  **What `canonicalize` makes of a name without a backslash.**

  Such a name is lower-cased, and its blanks and line breaks become underscores
  (`canonicalize_plain`); quotes around it are taken off first (`canonicalize_quoted`).
-/
import Libsd.Utf.Encode

namespace Libsd

open Utf

/-! ### Replacing -/

theorem strreplLoop_of_not_mem {c : UInt8} {orig new : CStr} {fuel : Nat} {s : CStr} (h : c ∉ s) :
    strreplLoop (c :: orig) new fuel s = s := by
  induction fuel generalizing s with
  | zero => rfl
  | succ fuel ih =>
    cases s with
    | nil => rfl
    | cons d s =>
      rw [List.mem_cons, not_or] at h
      have hne : (c :: orig).isPrefixOf (d :: s) = false := by
        simp [List.isPrefixOf, h.1]
      rw [strreplLoop, hne, if_neg Bool.false_ne_true, ih h.2]

/-- A text that does not have the first byte of what is replaced stays as it is. -/
theorem strrepl_of_not_mem {c : UInt8} {orig new s : CStr} (h : c ∉ s) :
    strrepl s (c :: orig) new = s := by
  rw [strrepl, strreplLoop_of_not_mem h, ite_self]

theorem strreplLoop_byte (c d : UInt8) {fuel : Nat} {s : CStr} (h : s.length ≤ fuel) :
    strreplLoop [c] [d] fuel s = s.map fun b => if b = c then d else b := by
  induction fuel generalizing s with
  | zero =>
    obtain rfl := List.eq_nil_of_length_eq_zero (Nat.le_zero.mp h)
    rfl
  | succ fuel ih =>
    cases s with
    | nil => rfl
    | cons b s =>
      have hs := ih (Nat.le_of_succ_le_succ h)
      rw [strreplLoop, List.map_cons]
      by_cases hb : b = c
      · rw [if_pos (by simp [List.isPrefixOf, hb]), if_pos hb]
        exact congrArg (d :: ·) hs
      · rw [if_neg (by simp [List.isPrefixOf, Ne.symm hb]), if_neg hb, hs]

theorem strrepl_byte (c d : UInt8) (s : CStr) :
    strrepl s [c] [d] = s.map fun b => if b = c then d else b := by
  rw [strrepl, if_neg (by simp), strreplLoop_byte c d (Nat.le_succ _)]

/-! ### Names -/

/-- A blank or a line break is written as an underscore. -/
def unspace (b : UInt8) : UInt8 := if b = 0x0A ∨ b = 0x0D ∨ b = 0x20 then 0x5F else b

theorem map_unspace (s : CStr) : ((s.map fun b => if b = 0x0A then 0x5F else b).map
    fun b => if b = 0x0D then 0x5F else b).map (fun b => if b = 0x20 then 0x5F else b) =
      s.map unspace := by
  rw [List.map_map, List.map_map]
  refine List.map_congr_left fun b _ => ?_
  simp only [Function.comp_apply, unspace]
  split_ifs <;> simp_all

theorem replaced {result : CStr} (h : 0x5C ∉ result) :
    strrepl (strrepl (strrepl (strrepl (strrepl (strrepl result (cstr "\\\\") (cstr "\\"))
      (cstr "\\n") (cstr "_")) (cstr "\\r") (cstr "_")) (cstr "\n") (cstr "_"))
        (cstr "\r") (cstr "_"))
      (cstr " ") (cstr "_") = result.map unspace := by
  have h1 : cstr "\\\\" = 0x5C :: [0x5C] := by decide +kernel
  have h2 : cstr "\\n" = 0x5C :: [0x6E] := by decide +kernel
  have h3 : cstr "\\r" = 0x5C :: [0x72] := by decide +kernel
  have h4 : cstr "\n" = [0x0A] := by decide +kernel
  have h5 : cstr "\r" = [0x0D] := by decide +kernel
  have h6 : cstr " " = [0x20] := by decide +kernel
  have h7 : cstr "_" = [0x5F] := by decide +kernel
  rw [h1, h2, h3, h4, h5, h6, h7, strrepl_of_not_mem h, strrepl_of_not_mem h, strrepl_of_not_mem h,
    strrepl_byte, strrepl_byte, strrepl_byte, map_unspace]

theorem canonicalize_plain {n result : CStr} (hn : n.head? ≠ some 0x22)
    (hlow : utf8Tolower n = some result) (hb : 0x5C ∉ result) :
    canonicalize n = some (result.map unspace) := by
  have hquoted :
      (decide (n.length > 0) && n.head? == some 0x22 && n.getLast? == some 0x22) = false := by
    simp [hn]
  have htake : (n.drop 0).take (n.length - 2 * 0) = n := List.take_length
  simp only [canonicalize, hquoted, Bool.false_eq_true, if_false, Nat.mul_zero, Nat.not_lt_zero]
  rw [Nat.mul_zero] at htake
  rw [htake, hlow]
  simp only [Option.bind_eq_bind, Option.bind_some, replaced hb]
  rfl

theorem canonicalize_quoted {n inner result : CStr} (hn : n = 0x22 :: (inner ++ [0x22]))
    (hlow : utf8Tolower inner = some result) (hb : 0x5C ∉ result) :
    canonicalize n = some (result.map unspace) := by
  have hlen : n.length = inner.length + 2 := by simp [hn]
  have hlast : n.getLast? = some 0x22 := by
    rw [hn, List.getLast?_cons_of_ne_nil (by simp), List.getLast?_concat]
  have hquoted :
      (decide (n.length > 0) && n.head? == some 0x22 && n.getLast? == some 0x22) = true := by
    rw [hlast, hlen, hn]
    simp
  have htake : (n.drop 1).take (n.length - 2 * 1) = inner := by
    rw [hlen, hn]
    simp
  simp only [canonicalize, hquoted, if_true]
  rw [if_neg (by omega), htake, hlow]
  simp only [Option.bind_eq_bind, Option.bind_some, replaced hb]
  rfl

/-! ### The bytes of a name -/

/-- An ASCII byte in an encoding stands for itself. -/
theorem rune_of_mem_runetochar {r : Nat} (h : r ≤ Runemax) {b : UInt8} (hb : b ∈ runetochar r)
    (hascii : b.toNat < Tx) : r = b.toNat := by
  have hcont : ∀ x : Nat, b = UInt8.ofNat (Tx ||| (x &&& Maskx)) → False := by
    rintro x rfl
    have hall : ∀ y : Fin 64, Tx ≤ (UInt8.ofNat (Tx ||| y.val)).toNat := by decide +kernel
    rw [and_maskx] at hascii
    exact absurd (hall ⟨x % 64, Nat.mod_lt x (by decide)⟩) (not_le.mpr hascii)
  have hlead : ∀ mark x : Nat, Tx ≤ mark → (UInt8.ofNat (mark ||| x)).toNat = mark + x →
      b = UInt8.ofNat (mark ||| x) → False := by
    rintro mark x hmark heq rfl
    rw [heq] at hascii
    omega
  by_cases h1 : r ≤ Rune1
  · rw [runetochar_one h1, List.mem_singleton] at hb
    rw [hb, toNat_ofNat_of_lt (Nat.lt_of_le_of_lt h1 (by decide))]
  by_cases h2 : r ≤ Rune2
  · have hr : r ≤ 2047 := h2
    rw [runetochar_two h1 h2, List.mem_cons, List.mem_singleton] at hb
    rcases hb with hb | hb
    · rw [Nat.shiftRight_eq_div_pow] at hb
      exact absurd hb fun hb => hlead T2 _ (by decide)
        (leadByte (i := 6) (a := 3) rfl (by omega) (by rw [T2]; omega)) hb
    · exact absurd hb (hcont r)
  by_cases h3 : r ≤ Rune3
  · have hr : r ≤ 65535 := h3
    rw [runetochar_three h2 h3, List.mem_cons, List.mem_cons, List.mem_singleton] at hb
    rcases hb with hb | hb | hb
    · rw [Nat.shiftRight_eq_div_pow] at hb
      exact absurd hb fun hb => hlead T3 _ (by decide)
        (leadByte (i := 5) (a := 7) rfl (by omega) (by rw [T3]; omega)) hb
    · exact absurd hb (hcont _)
    · exact absurd hb (hcont r)
  · have hr : r ≤ 0x10FFFF := h
    rw [runetochar_four h3 h, List.mem_cons, List.mem_cons, List.mem_cons, List.mem_singleton] at hb
    rcases hb with hb | hb | hb | hb
    · rw [Nat.shiftRight_eq_div_pow] at hb
      exact absurd hb fun hb => hlead T4 _ (by decide)
        (leadByte (i := 4) (a := 15) rfl (by omega) (by rw [T4]; omega)) hb
    · exact absurd hb (hcont _)
    · exact absurd hb (hcont _)
    · exact absurd hb (hcont r)

theorem not_mem_encode {s : List Rune} (hs : ∀ r ∈ s, IsRune r) {b : UInt8} (hascii : b.toNat < Tx)
    (hb : b.toNat ∉ s) : b ∉ encode s := by
  intro hmem
  obtain ⟨r, hr, hbr⟩ := List.mem_flatMap.mp hmem
  exact hb (rune_of_mem_runetochar (hs r hr).2 hbr hascii ▸ hr)

/-- Lower-casing brings in no rune that the tables do not give. -/
theorem not_mem_lower {s : List Rune} {r : Nat} (hr : ∀ p ∈ lowerPairs, p.2 ≠ r) (h : r ∉ s) :
    r ∉ lower s := by
  intro hmem
  obtain ⟨q, hq, rfl⟩ := List.mem_map.mp hmem
  rcases tolowerrune_cases q with heq | hpair
  · rw [heq] at h
    exact h hq
  · exact hr _ hpair rfl

end Libsd

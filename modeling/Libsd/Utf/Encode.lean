/-
  Libsd/Utf/Encode.lean
  =====================
  **Reading back what has been encoded, and lower-casing it.**

  `chartorune` undoes `runetochar`, whatever follows (`chartorune_runetochar`).  What
  `tolowerrune` does is checked on the runes of its tables, as it leaves all others alone
  (`tolowerrune_cases`): lower-casing twice is lower-casing once, and `dottedI`, the
  capital I with a dot, is the only rune whose encoding changes its length.
-/
import Libsd.Util
import Mathlib.Algebra.Ring.Nat

namespace Libsd.Utf

/-- A rune that can stand in a text. -/
def IsRune (r : Rune) : Prop := r ≠ 0 ∧ r ≤ Runemax

instance (r : Rune) : Decidable (IsRune r) := inferInstanceAs (Decidable (_ ∧ _))

/-! ### One rune -/

theorem toNat_ofNat_of_lt {n : Nat} (h : n < 256) : (UInt8.ofNat n).toNat = n := by
  rw [UInt8.toNat_ofNat', Nat.mod_eq_of_lt h]

theorem and_maskx (x : Nat) : x &&& Maskx = x % 64 := Nat.and_two_pow_sub_one_eq_mod x 6

/-- What is left of a continuation byte when its mark is taken off. -/
theorem continuation (x : Nat) : (UInt8.ofNat (Tx ||| (x &&& Maskx))).toNat ^^^ Tx = x % 64 := by
  have hall : ∀ y : Fin 64, (UInt8.ofNat (Tx ||| y.val)).toNat ^^^ Tx = y.val := by decide +kernel
  rw [and_maskx]
  exact hall ⟨x % 64, Nat.mod_lt x (by decide)⟩

theorem continuation_and_testx (x : Nat) : x % 64 &&& Testx = 0 := by
  have hall : ∀ y : Fin 64, y.val &&& Testx = 0 := by decide +kernel
  exact hall ⟨x % 64, Nat.mod_lt x (by decide)⟩

/-- One more group of six bits. -/
theorem shiftLeft_six_or {c d : Nat} (hd : d < 64) : (c <<< 6) ||| d = c * 64 + d := by
  rw [Nat.shiftLeft_eq, Nat.mul_comm, ← Nat.two_pow_add_eq_or_of_lt hd]

theorem mark_or {mark i a b : Nat} (ha : mark = 2 ^ i * a) (hb : b < 2 ^ i) :
    mark ||| b = mark + b := by
  rw [ha, Nat.two_pow_add_eq_or_of_lt hb]

/-- The first byte of a longer sequence: its mark, and the first bits of the rune. -/
theorem leadByte {mark i a b : Nat} (ha : mark = 2 ^ i * a) (hb : b < 2 ^ i)
    (hlt : mark + b < 256) : (UInt8.ofNat (mark ||| b)).toNat = mark + b := by
  rw [mark_or ha hb]
  exact toNat_ofNat_of_lt hlt

theorem and_rune2 (x : Nat) : x &&& Rune2 = x % 2048 := Nat.and_two_pow_sub_one_eq_mod x 11

theorem and_rune3 (x : Nat) : x &&& Rune3 = x % 65536 := Nat.and_two_pow_sub_one_eq_mod x 16

theorem and_rune4 (x : Nat) : x &&& Rune4 = x % 2097152 := Nat.and_two_pow_sub_one_eq_mod x 21

theorem runetochar_one {r : Nat} (h : r ≤ Rune1) : runetochar r = [UInt8.ofNat r] := if_pos h

theorem runetochar_two {r : Nat} (h1 : ¬ r ≤ Rune1) (h : r ≤ Rune2) : runetochar r =
    [UInt8.ofNat (T2 ||| (r >>> 6)), UInt8.ofNat (Tx ||| (r &&& Maskx))] := by
  rw [runetochar, if_neg h1, if_pos h]

theorem runetochar_three {r : Nat} (h2 : ¬ r ≤ Rune2) (h : r ≤ Rune3) : runetochar r =
    [UInt8.ofNat (T3 ||| (r >>> 12)), UInt8.ofNat (Tx ||| ((r >>> 6) &&& Maskx)),
      UInt8.ofNat (Tx ||| (r &&& Maskx))] := by
  have h1 : ¬ r ≤ Rune1 := fun hr => h2 (hr.trans (by decide))
  have hmax : ¬ r > Runemax := not_lt.mpr (h.trans (by decide))
  simp only [runetochar, if_neg h1, if_neg h2, if_neg hmax, if_pos h]

theorem runetochar_four {r : Nat} (h3 : ¬ r ≤ Rune3) (h : r ≤ Runemax) : runetochar r =
    [UInt8.ofNat (T4 ||| (r >>> 18)), UInt8.ofNat (Tx ||| ((r >>> 12) &&& Maskx)),
      UInt8.ofNat (Tx ||| ((r >>> 6) &&& Maskx)), UInt8.ofNat (Tx ||| (r &&& Maskx))] := by
  have h1 : ¬ r ≤ Rune1 := fun hr => h3 (hr.trans (by decide))
  have h2 : ¬ r ≤ Rune2 := fun hr => h3 (hr.trans (by decide))
  simp only [runetochar, if_neg h1, if_neg h2, if_neg (not_lt.mpr h), if_neg h3]

/-- What has been encoded is read back, whatever follows it. -/
theorem chartorune_runetochar {r : Nat} (h : r ≤ Runemax) (text : CStr) :
    chartorune (runetochar r ++ text) = (r, runelen r) := by
  have hmod : ∀ x : Nat, x % 64 < 64 := fun x => Nat.mod_lt x (by decide)
  by_cases h1 : r ≤ Rune1
  · have hr : r < Tx := Nat.lt_succ_of_le h1
    have hbyte : (UInt8.ofNat r).toNat = r := toNat_ofNat_of_lt (hr.trans (by decide))
    simp [runelen, runetochar_one h1, chartorune, byteAt, hbyte, hr]
  by_cases h2 : r ≤ Rune2
  · have hr : 128 ≤ r ∧ r ≤ 2047 := ⟨not_le.mp h1, h2⟩
    have hlead : (UInt8.ofNat (T2 ||| (r >>> 6))).toNat = T2 + r / 64 := by
      rw [Nat.shiftRight_eq_div_pow]
      exact leadByte (i := 6) (a := 3) rfl (by omega) (by rw [T2]; omega)
    have hl : (T2 + r / 64) * 64 + r % 64 &&& Rune2 = r := by
      rw [and_rune2, T2]
      omega
    simp only [runelen, runetochar_two h1 h2, chartorune, byteAt, List.cons_append, List.nil_append,
      List.getD_cons_zero, List.getD_cons_succ, hlead, continuation, continuation_and_testx,
      shiftLeft_six_or (hmod r), hl]
    rw [if_neg (by rw [Tx, T2]; omega), if_neg (by simp), if_pos (by rw [T3, T2]; omega),
      if_neg (by omega), if_neg h1]
    rfl
  by_cases h3 : r ≤ Rune3
  · have hr : 2048 ≤ r ∧ r ≤ 65535 := ⟨not_le.mp h2, h3⟩
    have hlead : (UInt8.ofNat (T3 ||| (r >>> 12))).toNat = T3 + r / 4096 := by
      rw [Nat.shiftRight_eq_div_pow]
      exact leadByte (i := 5) (a := 7) rfl (by omega) (by rw [T3]; omega)
    have hsix : r >>> 6 = r / 64 := Nat.shiftRight_eq_div_pow r 6
    have hl : ((T3 + r / 4096) * 64 + r / 64 % 64) * 64 + r % 64 &&& Rune3 = r := by
      rw [and_rune3, T3]
      omega
    simp only [runelen, runetochar_three h2 h3, chartorune, byteAt, List.cons_append,
      List.nil_append, List.getD_cons_zero, List.getD_cons_succ, hlead, continuation,
      continuation_and_testx, shiftLeft_six_or (hmod _), hsix, hl]
    rw [if_neg (by rw [Tx, T3]; omega), if_neg (by simp), if_neg (by omega), if_neg (by simp),
      if_pos (by rw [T4, T3]; omega), if_neg h2]
    rfl
  · have hr : 65536 ≤ r ∧ r ≤ 0x10FFFF := ⟨not_le.mp h3, h⟩
    have hlead : (UInt8.ofNat (T4 ||| (r >>> 18))).toNat = T4 + r / 262144 := by
      rw [Nat.shiftRight_eq_div_pow]
      exact leadByte (i := 4) (a := 15) rfl (by omega) (by rw [T4]; omega)
    have hsix : r >>> 6 = r / 64 := Nat.shiftRight_eq_div_pow r 6
    have htwelve : r >>> 12 = r / 4096 := Nat.shiftRight_eq_div_pow r 12
    have hl : (((T4 + r / 262144) * 64 + r / 4096 % 64) * 64 + r / 64 % 64) * 64 +
        r % 64 &&& Rune4 =
        r := by
      rw [and_rune4, T4]
      omega
    simp only [runelen, runetochar_four h3 h, chartorune, byteAt, List.cons_append,
      List.nil_append, List.getD_cons_zero, List.getD_cons_succ, hlead, continuation,
      continuation_and_testx, shiftLeft_six_or (hmod _), hsix, htwelve, hl]
    rw [if_neg (by rw [Tx, T4]; omega), if_neg (by simp), if_neg (by rw [T3, T4]; omega),
      if_neg (by simp), if_neg (by omega), if_neg (by simp), if_pos (by rw [T5, T4]; omega),
      if_neg h3, if_neg (not_lt.mpr h)]
    rfl

/-- The first byte tells how many bytes there have to be. -/
theorem fullrune_of_chartorune {s : CStr} {n : Nat} (hn : (chartorune s).2 ≤ n)
    (hlen : byteAt s 0 < Tx ∨ (chartorune s).2 ≠ 1) : fullrune s n = true := by
  by_cases hx : byteAt s 0 < Tx
  · have hone : (chartorune s).2 = 1 := by simp [chartorune, hx]
    have hpos : n ≠ 0 := by omega
    simp [fullrune, hx, hpos]
  · have hne := hlen.resolve_left hx
    revert hn hne
    simp only [chartorune, fullrune, if_neg hx]
    split_ifs <;> simp_all

theorem charntorune_runetochar {r : Nat} (h : r ≤ Runemax) (text : CStr) {n : Nat}
    (hn : runelen r ≤ n) : charntorune (runetochar r ++ text) n = some (r, runelen r) := by
  have hread := chartorune_runetochar h text
  have hfull : fullrune (runetochar r ++ text) n = true := by
    refine fullrune_of_chartorune (by rwa [hread]) ?_
    rw [hread]
    by_cases h1 : r ≤ Rune1
    · have hr : r < Tx := Nat.lt_succ_of_le h1
      have hbyte : (UInt8.ofNat r).toNat = r := toNat_ofNat_of_lt (hr.trans (by decide))
      exact .inl (by simp [runetochar_one h1, byteAt, hbyte, hr])
    · refine .inr ?_
      by_cases h2 : r ≤ Rune2
      · simp [runelen, runetochar_two h1 h2]
      · by_cases h3 : r ≤ Rune3
        · simp [runelen, runetochar_three h2 h3]
        · simp [runelen, runetochar_four h3 h]
  rw [charntorune, hfull, if_pos rfl, hread]

/-! ### Runes of one byte -/

/-- A sequence that does not start with an ASCII byte is no ASCII rune. -/
theorem chartorune_ge {s : CStr} (h : Tx ≤ byteAt s 0) : Tx ≤ (chartorune s).1 := by
  have hbad : Tx ≤ Runeerror := by decide
  have hnot : ¬ byteAt s 0 < Tx := not_lt.mpr h
  have h2 : ∀ l : Nat, ¬ l ≤ Rune1 → Tx ≤ l := fun l hl => not_le.mp hl
  have h3 : ∀ l : Nat, ¬ l ≤ Rune2 → Tx ≤ l := fun l hl => by rw [Rune2] at hl; rw [Tx]; omega
  have h4 : ∀ l : Nat, ¬ l ≤ Rune3 → Tx ≤ l := fun l hl => by rw [Rune3] at hl; rw [Tx]; omega
  simp only [chartorune, if_neg hnot]
  split_ifs with _ _ _ hl2 _ _ hl3 _ _ hl4
  all_goals first | exact hbad | exact h2 _ hl2 | exact h3 _ hl3 | exact h4 _ hl4

theorem charntorune_ascii {c : UInt8} {t : CStr} {n : Nat} (hc : c.toNat < Tx) (hn : n ≠ 0) :
    charntorune (c :: t) n = some (c.toNat, 1) := by
  simp [charntorune, fullrune, chartorune, byteAt, hc, hn]

/-- A rune of one byte is the byte it is read from. -/
theorem byte_of_charntorune {s : CStr} {n k : Nat} {r : Rune} (h : charntorune s n = some (r, k))
    (h0 : r ≠ 0) (hr : r < Tx) : ∃ c t, s = c :: t ∧ c.toNat = r := by
  rw [charntorune] at h
  split at h
  · have hread := Option.some.inj h
    have hrune : (chartorune s).1 = r := congrArg Prod.fst hread
    have hfirst : byteAt s 0 < Tx := by
      by_contra hge
      exact absurd hr (not_lt.mpr (hrune ▸ chartorune_ge (not_lt.mp hge)))
    have hbyte : byteAt s 0 = r := by
      rw [← hrune, chartorune, if_pos hfirst]
    cases s with
    | nil => exact absurd hbyte.symm h0
    | cons c t => exact ⟨c, t, rfl, hbyte⟩
  · cases h

/-! ### Texts -/

def encode (s : List Rune) : CStr := s.flatMap runetochar

@[simp] theorem encode_nil : encode [] = [] := rfl

@[simp] theorem encode_cons (r : Rune) (s : List Rune) :
    encode (r :: s) = runetochar r ++ encode s :=
  rfl

@[simp] theorem encode_append (s t : List Rune) : encode (s ++ t) = encode s ++ encode t :=
  List.flatMap_append

theorem length_le_encode (s : List Rune) : s.length ≤ (encode s).length := by
  induction s with
  | nil => exact le_refl 0
  | cons r s ih =>
    have hpos : 0 < (runetochar r).length := runelen_pos r
    rw [encode_cons, List.length_cons, List.length_append]
    omega

theorem runesLoop_encode {s : List Rune} (h : ∀ r ∈ s, r ≤ Runemax) {fuel : Nat}
    (hfuel : s.length ≤ fuel) : runesLoop fuel (encode s) = s.map fun r => (r, runelen r) := by
  induction s generalizing fuel with
  | nil => cases fuel <;> rfl
  | cons r s ih =>
    obtain ⟨fuel, rfl⟩ := Nat.exists_eq_succ_of_ne_zero (Nat.ne_zero_of_lt hfuel)
    have hlen : runelen r ≤ (runetochar r ++ encode s).length := by
      rw [List.length_append]
      exact Nat.le_add_right _ _
    have hdrop : (runetochar r ++ encode s).drop (runelen r) = encode s := List.drop_left
    rw [runesLoop, encode_cons, charntorune_runetochar (h r List.mem_cons_self) _ hlen]
    simp only [hdrop, List.map_cons]
    rw [ih (fun q hq => h q (List.mem_cons_of_mem r hq)) (Nat.le_of_succ_le_succ hfuel)]

theorem runes_encode {s : List Rune} (h : ∀ r ∈ s, r ≤ Runemax) :
    runes (encode s) = s.map fun r => (r, runelen r) :=
  runesLoop_encode h (length_le_encode s)

/-! ### Lower case -/

/-- The rows of the tables of upper case, one rune each, with what it becomes. -/
def lowerPairs : List (Nat × Nat) :=
  tolower2.flatMap (fun p => (List.range' p.1 (p.2.1 + 1 - p.1)).map fun r =>
    (r, r + p.2.2 - 500)) ++
    tolower1.map fun p => (p.1, p.1 + p.2 - 500)

theorem mem_of_bsearchLoop {α : Type} {key : α → Rune} {c : Rune} {p : α} {fuel : Nat} {t : List α}
    {n : Nat} (h : bsearchLoop key c fuel t n = some p) : p ∈ t := by
  induction fuel generalizing t n with
  | zero => cases h
  | succ fuel ih =>
    unfold bsearchLoop at h
    split at h
    · dsimp only at h
      split at h
      · cases h
      · next q rest hdrop =>
        split at h
        · exact List.mem_of_mem_drop (hdrop ▸ ih h)
        · exact ih h
    · split at h
      · cases h
      · split at h
        · cases h
          exact List.mem_cons_self
        · cases h

theorem mem_of_bsearch {α : Type} {key : α → Rune} {c : Rune} {p : α} {t : List α}
    (h : bsearch key c t = some p) : p ∈ t :=
  mem_of_bsearchLoop h

/-- A rune that is in no table is left alone. -/
theorem tolowerrune_cases (r : Nat) : tolowerrune r = r ∨ (r, tolowerrune r) ∈ lowerPairs := by
  have hsingle : tolowerrune.single r = r ∨ (r, tolowerrune.single r) ∈ lowerPairs := by
    unfold tolowerrune.single
    cases hp : bsearch (·.1) r tolower1 with
    | none => exact .inl rfl
    | some p =>
      dsimp only
      by_cases heq : r = p.1
      · rw [if_pos heq]
        refine .inr (List.mem_append_right _ (List.mem_map.mpr ⟨p, mem_of_bsearch hp, ?_⟩))
        rw [heq]
      · exact .inl (if_neg heq)
  unfold tolowerrune
  cases hp : bsearch (·.1) r tolower2 with
  | none => exact hsingle
  | some p =>
    dsimp only
    by_cases hrange : r ≥ p.1 ∧ r ≤ p.2.1
    · rw [if_pos hrange]
      have hr : r ∈ List.range' p.1 (p.2.1 + 1 - p.1) :=
        List.mem_range'_1.mpr ⟨hrange.1, Nat.lt_of_le_of_lt hrange.2 (by omega)⟩
      refine .inr (List.mem_append_left _ (List.mem_flatMap.mpr ⟨p, mem_of_bsearch hp, ?_⟩))
      exact List.mem_map.mpr ⟨r, hr, rfl⟩
    · rw [if_neg hrange]
      exact hsingle

/-- What holds of a rune and itself, and of the pairs in the tables. -/
theorem tolowerrune_induction {P : Nat → Nat → Prop} (hself : ∀ r, P r r)
    (hpairs : ∀ p ∈ lowerPairs, P p.1 p.2) (r : Nat) : P r (tolowerrune r) := by
  rcases tolowerrune_cases r with h | h
  · rw [h]
    exact hself r
  · exact hpairs _ h

theorem tolowerrune_tolowerrune (r : Nat) : tolowerrune (tolowerrune r) = tolowerrune r := by
  have hall : ∀ p ∈ lowerPairs, tolowerrune p.2 = p.2 := by decide +kernel
  rcases tolowerrune_cases r with h | h
  · rw [h, h]
  · exact hall _ h

/-- The capital I with a dot, which becomes an ASCII letter. -/
def dottedI : Rune := 0x130

theorem runelen_tolowerrune {r : Nat} (h : r ≠ dottedI) : runelen (tolowerrune r) = runelen r :=
  tolowerrune_induction (P := fun r q => r ≠ dottedI → runelen q = runelen r) (fun _ _ => rfl)
    (by decide +kernel) r h

theorem tolowerrune_dottedI : tolowerrune dottedI = 0x69 := by decide +kernel

theorem runelen_tolowerrune_le (r : Nat) : runelen (tolowerrune r) ≤ runelen r := by
  by_cases h : r = dottedI
  · rw [h, tolowerrune_dottedI]
    decide
  · exact (runelen_tolowerrune h).le

theorem isRune_tolowerrune {r : Nat} (h : IsRune r) : IsRune (tolowerrune r) :=
  tolowerrune_induction (P := fun r q => IsRune r → IsRune q) (fun _ h => h) (by decide +kernel) r h

/-- The text in lower case, where no length changes in front of it. -/
def lower (s : List Rune) : List Rune := s.map tolowerrune

theorem lower_lower (s : List Rune) : lower (lower s) = lower s := by
  rw [lower, lower, List.map_map]
  exact List.map_congr_left fun r _ => tolowerrune_tolowerrune r

theorem isRune_lower {s : List Rune} (h : ∀ r ∈ s, IsRune r) : ∀ r ∈ lower s, IsRune r := by
  intro r hr
  obtain ⟨q, hq, rfl⟩ := List.mem_map.mp hr
  exact isRune_tolowerrune (h q hq)

/-- The lowered text, and behind it what is left over of the original. -/
theorem utf8Tolower_encode {s : List Rune} (h : ∀ r ∈ s, IsRune r) : utf8Tolower (encode s) =
    some (encode (lower s) ++ (encode s).drop (encode (lower s)).length) := by
  have hrunes := runes_encode fun r hr => (h r hr).2
  have hd : (s.map fun r => (r, runelen r)).flatMap (fun u => runetochar (tolowerrune u.1)) =
      encode (lower s) := by
    rw [List.flatMap_map, encode, lower, List.flatMap_map]
  have hfits : (s.map fun r => (r, runelen r)).any
      (fun u => decide (runelen (tolowerrune u.1) > u.2)) = false := by
    rw [List.any_eq_false]
    intro u hu
    obtain ⟨r, -, rfl⟩ := List.mem_map.mp hu
    simpa using runelen_tolowerrune_le r
  simp only [utf8Tolower, hrunes, hd, hfits, Bool.false_eq_true, if_false]

theorem length_encode_lower_le (s : List Rune) : (encode (lower s)).length ≤ (encode s).length := by
  induction s with
  | nil => exact le_refl 0
  | cons r s ih =>
    have hr : (runetochar (tolowerrune r)).length ≤ (runetochar r).length :=
      runelen_tolowerrune_le r
    simp only [lower, List.map_cons, encode_cons, List.length_append] at ih ⊢
    omega

/-- The length changes exactly when `dottedI` is there. -/
theorem length_encode_lower_iff (s : List Rune) :
    (encode (lower s)).length = (encode s).length ↔ dottedI ∉ s := by
  induction s with
  | nil => simp [lower]
  | cons r s ih =>
    have hle := length_encode_lower_le s
    simp only [lower, List.map_cons, encode_cons, List.length_append, List.mem_cons,
      not_or] at hle ih ⊢
    by_cases hr : r = dottedI
    · subst hr
      have hlow : (runetochar (tolowerrune dottedI)).length = 1 := by
        rw [tolowerrune_dottedI]
        rfl
      have hup : (runetochar dottedI).length = 2 := rfl
      rw [hlow, hup]
      simp only [not_true_eq_false, false_and, iff_false]
      omega
    · have hlen : (runetochar (tolowerrune r)).length = (runetochar r).length :=
        runelen_tolowerrune hr
      rw [hlen, Nat.add_left_cancel_iff, ih]
      exact ⟨fun h => ⟨Ne.symm hr, h⟩, And.right⟩

end Libsd.Utf

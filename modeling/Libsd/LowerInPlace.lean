/-
  Libsd/LowerInPlace.lean
  =======================
  **`utf8_tolower` on the buffer it rewrites.**

  Both passes read runes until `charntorune` yields 0; the byte count they pass it is an
  `int`.  The second pass writes behind its own read offset (`lowerLoop_encode`), so it
  works on what it has not changed yet, but it stores no terminator, and after a rune that
  has become shorter the end of the old text stays (`lowersInPlace_iff`).
-/
import Libsd.Lib.Block
import Libsd.Lib.Outcome
import Libsd.Canonical

namespace Libsd.InPlace

open Utf

/-- The bytes of an allocated block. -/
abbrev Buffer := List UInt8

def NUL : UInt8 := 0

def store (d : Buffer) (i : Nat) (vs : CStr) : Except Stop Buffer :=
  match Block.store d i vs with
  | some d => .ok d
  | none => .error (.undefined .outOfBounds)

/-- The C string at an offset. -/
def stringAt (d : Buffer) (i : Nat) : Except Stop CStr :=
  match Block.stringAt NUL d i with
  | some s => .ok s
  | none => .error (.undefined .outOfBounds)

/-- The first pass over `s`, of which `len` bytes are left: the length of the result, and
    whether a rune grows. -/
def sizeLoop : Nat → CStr → Nat → Nat → Bool → Except Stop (Nat × Bool)
  | 0, _, _, _, _ => .error .diverge
  | fuel + 1, s, len, dlen, needsRealloc =>
    (charntorune s (toInt len).toNat).elim (.ok (dlen, needsRealloc)) fun r =>
      let l := tolowerrune r.1
      let n := r.2
      sizeLoop fuel (s.drop n) (len - n) (dlen + runelen l) (needsRealloc || decide (runelen l > n))

/-- The second pass reads at `soff`, of which `len` bytes are left, and writes at `doff`. -/
def lowerLoop : Nat → Buffer → Nat → Nat → Nat → Except Stop Buffer
  | 0, _, _, _, _ => .error .diverge
  | fuel + 1, d, soff, len, doff =>
    (charntorune (d.drop soff) (toInt len).toNat).elim (.ok d) fun r =>
      let n := r.2
      if d.length < soff + n then .error (.undefined .outOfBounds)
      else do
        let l := tolowerrune r.1
        let d ← store d doff (runetochar l)
        lowerLoop fuel d (soff + n) (len - n) (doff + runelen l)

/-- `fresh` is what a new block holds behind the part that is copied into it. -/
def utf8Tolower (fresh : Nat → UInt8) (s : Buffer) : Except Stop Buffer := do
  let text ← stringAt s 0
  let slen := text.length
  let (dlen, needsRealloc) ← sizeLoop (slen + 1) s slen 0 false
  let d := if needsRealloc then Block.resize fresh s dlen else s
  lowerLoop (slen + 1) d 0 slen 0

/-! ### Where the passes end -/

/-- How many bytes a sequence can take, by its first byte. -/
theorem chartorune_le (s : CStr) : (chartorune s).2 ≤
    if byteAt s 0 < Tx then 1 else if byteAt s 0 < T3 then 2
    else if byteAt s 0 < T4 then 3 else 4 := by
  by_cases hx : byteAt s 0 < Tx
  · simp only [chartorune, if_pos hx, le_refl]
  by_cases h3 : byteAt s 0 < T3
  · simp only [chartorune, if_neg hx, if_pos h3, apply_ite Prod.snd]
    split_ifs <;> decide
  by_cases h4 : byteAt s 0 < T4
  · simp only [chartorune, if_neg hx, if_neg h3, if_pos h4, apply_ite Prod.snd]
    split_ifs <;> decide
  · simp only [chartorune, if_neg hx, if_neg h3, if_neg h4, apply_ite Prod.snd]
    split_ifs <;> decide

theorem chartorune_le_of_fullrune {s : CStr} {n : Nat} (h : fullrune s n = true) :
    (chartorune s).2 ≤ n := by
  refine (chartorune_le s).trans ?_
  have hpos : n ≠ 0 := by
    rintro rfl
    simp [fullrune] at h
  simp only [fullrune, if_neg hpos] at h
  split_ifs at h ⊢
  · exact Nat.one_le_iff_ne_zero.mpr hpos
  · exact of_decide_eq_true h
  · exact of_decide_eq_true h
  · exact of_decide_eq_true h

theorem charntorune_short {r : Nat} (h : r ≤ Runemax) (text : CStr) {n : Nat} (hn : n < runelen r) :
    charntorune (runetochar r ++ text) n = none := by
  refine if_neg fun hfull => ?_
  have hle := chartorune_le_of_fullrune hfull
  rw [chartorune_runetochar h text] at hle
  exact absurd hn (Nat.not_lt.mpr hle)

/-- The passes come to the rune that a text starts with. -/
def Reaches (r : Rune) (s : List Rune) : Prop := runelen r ≤ (toInt (encode (r :: s)).length).toNat

instance (r : Rune) (s : List Rune) : Decidable (Reaches r s) := inferInstanceAs (Decidable (_ ≤ _))

/-- The runes up to the end of the passes, and those behind it. -/
def reached : List Rune → List Rune
  | [] => []
  | r :: s => if Reaches r s then r :: reached s else []

def unread : List Rune → List Rune
  | [] => []
  | r :: s => if Reaches r s then unread s else r :: s

theorem reached_append_unread (s : List Rune) : reached s ++ unread s = s := by
  induction s with
  | nil => rfl
  | cons r s ih =>
    rw [reached, unread]
    split
    · rw [List.cons_append, ih]
    · rfl

/-- In texts of less than 2 GiB nothing stays behind. -/
theorem unread_eq_nil {s : List Rune} (h : (encode s).length < 2 ^ 31) : unread s = [] := by
  induction s with
  | nil => rfl
  | cons r s ih =>
    have hreaches : Reaches r s := by
      rw [Reaches, toInt_of_lt h, Int.toNat_natCast, encode_cons, List.length_append]
      exact Nat.le_add_right _ _
    rw [encode_cons, List.length_append] at h
    rw [unread, if_pos hreaches, ih (by omega)]

theorem charntorune_encode {r : Rune} (hr : IsRune r) (s : List Rune) (rest : CStr) :
    charntorune (encode (r :: s) ++ rest) (toInt (encode (r :: s)).length).toNat =
      if Reaches r s then some (r, runelen r) else none := by
  rw [encode_cons, List.append_assoc]
  split
  · next h => exact charntorune_runetochar hr.2 _ h
  · next h => exact charntorune_short hr.2 _ (Nat.not_le.mp h)

theorem charntorune_encode_nil (rest : CStr) :
    charntorune (encode [] ++ rest) (toInt (encode []).length).toNat = none := by
  have hzero : (toInt (encode []).length).toNat = 0 := rfl
  rw [hzero, charntorune_zero]

theorem drop_encode (r : Rune) (s : List Rune) (rest : CStr) :
    (encode (r :: s) ++ rest).drop (runelen r) = encode s ++ rest := by
  rw [encode_cons, List.append_assoc]
  exact List.drop_left

theorem length_encode_cons_sub (r : Rune) (s : List Rune) :
    (encode (r :: s)).length - runelen r = (encode s).length := by
  rw [encode_cons, List.length_append, runelen, Nat.add_sub_cancel_left]

theorem sizeLoop_stop {s : CStr} {len : Nat} (h : charntorune s (toInt len).toNat = none)
    (fuel dlen : Nat) (needsRealloc : Bool) :
    sizeLoop (fuel + 1) s len dlen needsRealloc = .ok (dlen, needsRealloc) := by
  rw [sizeLoop, h, Option.elim_none]

theorem sizeLoop_step {s : CStr} {len n : Nat} {u : Rune}
    (h : charntorune s (toInt len).toNat = some (u, n)) (fuel dlen : Nat) (needsRealloc : Bool) :
    sizeLoop (fuel + 1) s len dlen needsRealloc = sizeLoop fuel (s.drop n) (len - n)
      (dlen + runelen (tolowerrune u)) (needsRealloc || decide (runelen (tolowerrune u) > n)) := by
  rw [sizeLoop, h, Option.elim_some]

/-- The first pass over a text: no rune of it grows. -/
theorem sizeLoop_encode {s : List Rune} (hs : ∀ r ∈ s, IsRune r) (rest : CStr) {fuel : Nat}
    (hfuel : s.length < fuel) (dlen : Nat) :
    sizeLoop fuel (encode s ++ rest) (encode s).length dlen false =
      .ok (dlen + (encode (lower (reached s))).length, false) := by
  induction s generalizing fuel dlen with
  | nil =>
    obtain ⟨fuel, rfl⟩ := Nat.exists_eq_succ_of_ne_zero (Nat.ne_zero_of_lt hfuel)
    exact sizeLoop_stop (charntorune_encode_nil rest) fuel dlen false
  | cons r s ih =>
    obtain ⟨fuel, rfl⟩ := Nat.exists_eq_succ_of_ne_zero (Nat.ne_zero_of_lt hfuel)
    have hread := charntorune_encode (hs r List.mem_cons_self) s rest
    by_cases hreaches : Reaches r s
    · have hgrows : decide (runelen (tolowerrune r) > runelen r) = false :=
        decide_eq_false (Nat.not_lt.mpr (runelen_tolowerrune_le r))
      rw [if_pos hreaches] at hread
      rw [sizeLoop_step hread, drop_encode, length_encode_cons_sub, hgrows, Bool.or_false,
        ih (fun q hq => hs q (List.mem_cons_of_mem r hq)) (Nat.lt_of_succ_lt_succ hfuel), reached,
        if_pos hreaches]
      simp only [lower, List.map_cons, encode_cons, List.length_append, runelen, Nat.add_assoc]
    · rw [if_neg hreaches] at hread
      rw [sizeLoop_stop hread, reached, if_neg hreaches]
      rfl

/-! ### The second pass -/

theorem store_front (pre post vs : CStr) (h : vs.length ≤ post.length) :
    store (pre ++ post) pre.length vs = .ok (pre ++ (vs ++ post.drop vs.length)) := by
  rw [store, Block.store_append pre post vs h]

theorem stringAt_start {s : CStr} (h : NUL ∉ s) (rest : CStr) :
    stringAt (s ++ NUL :: rest) 0 = .ok s := by
  rw [stringAt, Block.stringAt_start NUL s rest h]

/-- The buffer when `low` has been written over the front of `old`. -/
def overwritten (low old : CStr) : Buffer := low ++ old.drop low.length

theorem drop_overwritten {low : CStr} {soff : Nat} (h : low.length ≤ soff) (old : CStr) :
    (overwritten low old).drop soff = old.drop soff := by
  rw [overwritten, List.drop_append, List.drop_eq_nil_of_le h, List.nil_append, List.drop_drop,
    Nat.add_sub_cancel' h]

theorem store_overwritten (low old vs : CStr) (h : low.length + vs.length ≤ old.length) :
    store (overwritten low old) low.length vs = .ok (overwritten (low ++ vs) old) := by
  have hfits : vs.length ≤ (old.drop low.length).length := by
    rw [List.length_drop]
    omega
  rw [overwritten, store_front _ _ _ hfits, List.drop_drop, overwritten, List.length_append,
    List.append_assoc]

theorem length_overwritten (low : CStr) {old : CStr} (h : low.length ≤ old.length) :
    (overwritten low old).length = old.length := by
  rw [overwritten, List.length_append, List.length_drop, Nat.add_sub_cancel' h]

theorem lowerLoop_stop {d : Buffer} {soff len : Nat}
    (h : charntorune (d.drop soff) (toInt len).toNat = none) (fuel doff : Nat) :
    lowerLoop (fuel + 1) d soff len doff = .ok d := by
  rw [lowerLoop, h, Option.elim_none]

theorem lowerLoop_step {d d' : Buffer} {soff len doff n : Nat} {u : Rune}
    (h : charntorune (d.drop soff) (toInt len).toNat = some (u, n)) (hin : soff + n ≤ d.length)
    (hstore : store d doff (runetochar (tolowerrune u)) = .ok d') (fuel : Nat) :
    lowerLoop (fuel + 1) d soff len doff =
      lowerLoop fuel d' (soff + n) (len - n) (doff + runelen (tolowerrune u)) := by
  rw [lowerLoop, h, Option.elim_some]
  dsimp only
  rw [if_neg (Nat.not_lt.mpr hin), hstore]
  rfl

/-- The pass writes no further than it has read, so it reads the old text. -/
theorem lowerLoop_encode {s : List Rune} (hs : ∀ r ∈ s, IsRune r) {old rest : CStr} {fuel : Nat}
    (hfuel : s.length < fuel) (low : CStr) {soff : Nat} (hlow : low.length ≤ soff)
    (hold : old.drop soff = encode s ++ rest) :
    lowerLoop fuel (overwritten low old) soff (encode s).length low.length =
      .ok (overwritten (low ++ encode (lower (reached s))) old) := by
  induction s generalizing fuel low soff with
  | nil =>
    obtain ⟨fuel, rfl⟩ := Nat.exists_eq_succ_of_ne_zero (Nat.ne_zero_of_lt hfuel)
    have hread := charntorune_encode_nil rest
    rw [← hold, ← drop_overwritten hlow old] at hread
    rw [lowerLoop_stop hread, reached, lower, List.map_nil, encode_nil, List.append_nil]
  | cons r s ih =>
    obtain ⟨fuel, rfl⟩ := Nat.exists_eq_succ_of_ne_zero (Nat.ne_zero_of_lt hfuel)
    have hread := charntorune_encode (hs r List.mem_cons_self) s rest
    rw [← hold, ← drop_overwritten hlow old] at hread
    by_cases hreaches : Reaches r s
    · have hle : (runetochar (tolowerrune r)).length ≤ runelen r := runelen_tolowerrune_le r
      have hlen : old.length - soff = (encode (r :: s) ++ rest).length := by
        rw [← hold, List.length_drop]
      have hpos : 0 < runelen r := runelen_pos r
      have hin : soff + runelen r ≤ old.length := by
        rw [encode_cons, List.length_append, List.length_append, ← runelen] at hlen
        omega
      have hnext : old.drop (soff + runelen r) = encode s ++ rest := by
        rw [← List.drop_drop, hold, drop_encode]
      have hlow' : (low ++ runetochar (tolowerrune r)).length ≤ soff + runelen r := by
        rw [List.length_append]
        omega
      have hstore := store_overwritten low old (runetochar (tolowerrune r)) (by omega)
      have hend :=
        ih (fun q hq => hs q (List.mem_cons_of_mem r hq)) (Nat.lt_of_succ_lt_succ hfuel) _
        hlow' hnext
      have hdoff : low.length + runelen (tolowerrune r) =
          (low ++ runetochar (tolowerrune r)).length :=
        List.length_append.symm
      rw [if_pos hreaches] at hread
      rw [← length_overwritten low (by omega)] at hin
      rw [lowerLoop_step hread hin hstore, length_encode_cons_sub, hdoff, hend, reached,
        if_pos hreaches]
      simp only [lower, List.map_cons, encode_cons, List.append_assoc]
    · rw [if_neg hreaches] at hread
      rw [lowerLoop_stop hread, reached, if_neg hreaches, lower, List.map_nil, encode_nil,
        List.append_nil]

/-! ### What is left in the buffer -/

/-- The runes that have been read in lower case, and then what was there. -/
def lowered (s : List Rune) : CStr := overwritten (encode (lower (reached s))) (encode s)

theorem length_encode_lower_reached_le (s : List Rune) :
    (encode (lower (reached s))).length ≤ (encode s).length := by
  have hle := length_encode_lower_le (reached s)
  have hs := congrArg (fun t => (encode t).length) (reached_append_unread s)
  simp only [encode_append, List.length_append] at hs
  omega

theorem nul_not_mem_encode {s : List Rune} (hs : ∀ r ∈ s, IsRune r) : NUL ∉ encode s :=
  not_mem_encode hs (by decide) fun h => (hs 0 h).1 rfl

theorem isRune_reached {s : List Rune} (hs : ∀ r ∈ s, IsRune r) : ∀ r ∈ reached s, IsRune r := by
  intro r hr
  refine hs r ?_
  rw [← reached_append_unread s]
  exact List.mem_append_left _ hr

theorem nul_not_mem_lowered {s : List Rune} (hs : ∀ r ∈ s, IsRune r) : NUL ∉ lowered s := by
  rw [lowered, overwritten, List.mem_append, not_or]
  exact ⟨nul_not_mem_encode (isRune_lower (isRune_reached hs)),
    fun h => nul_not_mem_encode hs (List.mem_of_mem_drop h)⟩

/-- The second pass from the start of the buffer. -/
theorem lowerLoop_start {s : List Rune} (hs : ∀ r ∈ s, IsRune r) (spare : CStr) :
    lowerLoop ((encode s).length + 1) (encode s ++ NUL :: spare) 0 (encode s).length 0 =
      .ok (lowered s ++ NUL :: spare) := by
  have hfuel : s.length < (encode s).length + 1 := Nat.lt_succ_of_le (length_le_encode s)
  have hbehind : overwritten (encode (lower (reached s))) (encode s ++ NUL :: spare) =
      lowered s ++ NUL :: spare := by
    rw [overwritten, List.drop_append_of_le_length (length_encode_lower_reached_le s), lowered,
      overwritten, List.append_assoc]
  rw [← hbehind]
  exact lowerLoop_encode hs hfuel [] (Nat.le_refl 0) (List.drop_zero ..)

/-- The buffer keeps its size, its NUL and what is behind it. -/
theorem utf8Tolower_encode {s : List Rune} (hs : ∀ r ∈ s, IsRune r) (fresh : Nat → UInt8)
    (spare : CStr) :
    utf8Tolower fresh (encode s ++ NUL :: spare) = .ok (lowered s ++ NUL :: spare) := by
  have htext := stringAt_start (nul_not_mem_encode hs) spare
  have hfuel : s.length < (encode s).length + 1 := Nat.lt_succ_of_le (length_le_encode s)
  have hsize := sizeLoop_encode hs (NUL :: spare) hfuel 0
  simp only [utf8Tolower, Outcome.bind_of_ok htext, Outcome.bind_of_ok hsize, Bool.false_eq_true,
    if_false, lowerLoop_start hs spare]

/-- In texts of less than 2 GiB the strings are those of `utf8Tolower`. -/
theorem lowered_eq {s : List Rune} (hs : ∀ r ∈ s, IsRune r) (hlen : (encode s).length < 2 ^ 31) :
    Libsd.utf8Tolower (encode s) = some (lowered s) := by
  have hreached := reached_append_unread s
  rw [unread_eq_nil hlen, List.append_nil] at hreached
  rw [Utf.utf8Tolower_encode hs, lowered, hreached, overwritten]

theorem encode_injective {s t : List Rune} (hs : ∀ r ∈ s, IsRune r) (ht : ∀ r ∈ t, IsRune r)
    (h : encode s = encode t) : s = t := by
  have hrunes := congrArg (fun text => (runes text).map (·.1)) h
  simpa [runes_encode fun r hr => (hs r hr).2, runes_encode fun r hr => (ht r hr).2,
    Function.comp_def] using hrunes

/-- `*s` is left as the text in lower case, and nothing is written outside the buffer. -/
def LowersInPlace (s : List Rune) : Prop :=
  ∀ (fresh : Nat → UInt8) (spare : CStr), ∃ d,
    utf8Tolower fresh (encode s ++ NUL :: spare) = .ok d ∧ stringAt d 0 = .ok (encode (lower s))

theorem lowered_eq_iff {s : List Rune} (hs : ∀ r ∈ s, IsRune r) :
    lowered s = encode (lower s) ↔ dottedI ∉ s ∧ lower (unread s) = unread s := by
  have happend := reached_append_unread s
  have hunread : ∀ r ∈ unread s, IsRune r := fun r hr => hs r (by
    rw [← happend]
    exact List.mem_append_right _ hr)
  have hencode : encode s = encode (reached s) ++ encode (unread s) := by
    rw [← encode_append, happend]
  have hlower : encode (lower s) = encode (lower (reached s)) ++ encode (lower (unread s)) := by
    rw [← encode_append, lower, lower, lower, ← List.map_append, happend]
  have hmem : dottedI ∈ s ↔ dottedI ∈ reached s ∨ dottedI ∈ unread s := by
    rw [← List.mem_append, happend]
  rw [lowered, overwritten, hlower, List.append_right_inj]
  constructor
  · intro h
    have hlen := congrArg List.length h
    have hle := length_encode_lower_le (reached s)
    have hle' := length_encode_lower_le (unread s)
    rw [List.length_drop, hencode, List.length_append] at hlen
    have hreached : dottedI ∉ reached s := (length_encode_lower_iff _).mp (by omega)
    have hrest : dottedI ∉ unread s := (length_encode_lower_iff _).mp (by omega)
    refine ⟨fun hd => (hmem.mp hd).elim hreached hrest, ?_⟩
    rw [hencode, (length_encode_lower_iff _).mpr hreached, List.drop_left] at h
    exact (encode_injective hunread (isRune_lower hunread) h).symm
  · rintro ⟨hd, hrest⟩
    have hreached : dottedI ∉ reached s := fun h => hd (hmem.mpr (.inl h))
    rw [hencode, (length_encode_lower_iff _).mpr hreached, List.drop_left, hrest]

theorem lowersInPlace_iff {s : List Rune} (hs : ∀ r ∈ s, IsRune r) :
    LowersInPlace s ↔ dottedI ∉ s ∧ lower (unread s) = unread s := by
  rw [← lowered_eq_iff hs]
  constructor
  · intro h
    obtain ⟨d, hd, htext⟩ := h (fun _ => 0) []
    cases (utf8Tolower_encode hs _ _).symm.trans hd
    rw [stringAt_start (nul_not_mem_lowered hs)] at htext
    exact Except.ok.inj htext
  · intro h fresh spare
    refine ⟨_, utf8Tolower_encode hs fresh spare, ?_⟩
    rw [stringAt_start (nul_not_mem_lowered hs), h]

/-- `ÅBC`, whose first rune has two bytes in either case. -/
theorem lowersInPlace_angstrom : LowersInPlace [0xC5, 0x42, 0x43] :=
  (lowersInPlace_iff (by decide)).mpr ⟨by decide, by decide +kernel⟩

/-- Behind the `i` that `İ` becomes, the second byte of `İ` is left. -/
theorem dottedI_not_lowered :
    utf8Tolower (fun _ => 0) (encode [dottedI] ++ [NUL]) = .ok [0x69, 0xB0, 0] ∧
      ¬ LowersInPlace [dottedI] := by
  have hrun : utf8Tolower (fun _ => 0) (encode [dottedI] ++ [NUL]) = .ok [0x69, 0xB0, 0] := by
    decide +kernel
  refine ⟨hrun, fun h => ?_⟩
  obtain ⟨d, hd, htext⟩ := h (fun _ => 0) []
  cases hrun.symm.trans hd
  have hne : stringAt [0x69, 0xB0, 0] 0 ≠ .ok (encode (lower [dottedI])) := by decide +kernel
  exact hne htext

end Libsd.InPlace

/-
  Libsd/Strrepl.lean
  ==================
  **`strrepl` with its counts in an `int`.**

  The pieces of a string are what lies between the occurrences of `orig`, taken from the
  left.  `strrepl` puts `new` between them and returns how many occurrences there were, as
  long as neither the difference of the two lengths nor the number of replacements is
  changed by the conversion to `int` in a way that matters (`strrepl_iff`).
-/
import Libsd.CanonicalInPlace
import Libsd.Lib.Splits

namespace Libsd.Strrepl

open InPlace

/-! ### The function -/

/-- `replacements++` on an `int`. -/
def increment (replacements : ℤ) : ℤ := Int.bmod (replacements + 1) (2 ^ 32)

/-- `memcpy`, and the `memmove` of the rest of the string with its NUL if `diff` is not 0. -/
def replaceAt (diff : ℤ) (orig new : CStr) (d : Buffer) (found : Nat) : Except Stop Buffer := do
  let d ← store d found new
  if diff = 0 then return d
  else
    let rest ← stringAt d (found + orig.length)
    store d (found + new.length) (rest ++ [NUL])

def strreplLoop (diff : ℤ) (orig new : CStr) : Nat → Buffer → Nat → ℤ → Except Stop (ℤ × Buffer)
  | 0, _, _, _ => .error .diverge
  | fuel + 1, d, s, replacements => do
    let text ← stringAt d s
    match strstr orig text with
    | none => return (replacements, d)
    | some k =>
      let found := s + k
      let d ← replaceAt diff orig new d found
      strreplLoop diff orig new fuel d (found + new.length) (increment replacements)

/-- The number of replacements, and the buffer. -/
def strrepl (d : Buffer) (orig new : CStr) : Except Stop (ℤ × Buffer) :=
  let diff := toInt (sizeSub orig.length new.length)
  if diff < 0 then .ok (0, d) else strreplLoop diff orig new (d.length + 1) d 0 0

/-- The buffer of `s` ends up with `new` between the pieces, and the number of the gaps is
    returned. -/
def Replaces (orig new s spare : CStr) (pieces : List CStr) : Prop :=
  ∃ d, strrepl (s ++ NUL :: spare) orig new = .ok (((pieces.length - 1 : Nat) : ℤ), d) ∧
    Holds d (new.intercalate pieces)

/-! ### Searching -/

section
variable {orig new : CStr}

theorem strstr_le (orig b u : CStr) : ∃ k, strstr orig (b ++ (orig ++ u)) = some k ∧
    k ≤ b.length := by
  induction b with
  | nil =>
    have hstarts : orig.isPrefixOf (orig ++ u) = true :=
      List.isPrefixOf_iff_prefix.mpr (List.prefix_append _ _)
    refine ⟨0, ?_, Nat.le_refl 0⟩
    rw [List.nil_append]
    cases h : orig ++ u with
    | nil => rw [strstr, if_pos (h ▸ hstarts)]
    | cons c s => rw [strstr, if_pos (h ▸ hstarts)]
  | cons c b ih =>
    obtain ⟨k, hk, hle⟩ := ih
    rw [List.cons_append, strstr]
    split
    · exact ⟨0, rfl, Nat.zero_le _⟩
    · exact ⟨k + 1, by rw [hk]; rfl, Nat.succ_le_succ hle⟩

/-- Nothing is found where nothing occurs. -/
theorem strstr_none (horig : orig ≠ []) {s : CStr} (h : ¬ orig <:+: s) : strstr orig s = none := by
  rcases strstr_spec orig horig s with ⟨hnone, -⟩ | ⟨a, t, rfl, -, -⟩
  · exact hnone
  · exact absurd (infix_cut a t) h

/-- The first occurrence is found. -/
theorem strstr_first (horig : orig ≠ []) {a t : CStr}
    (hfirst : ∀ b u, a ++ (orig ++ t) = b ++ (orig ++ u) → a.length ≤ b.length) :
    strstr orig (a ++ (orig ++ t)) = some a.length := by
  obtain ⟨k, hk, hle⟩ := strstr_le orig a t
  rcases strstr_spec orig horig (a ++ (orig ++ t)) with ⟨hnone, -⟩ | ⟨b, u, hs, hsome, -⟩
  · rw [hnone] at hk
    cases hk
  · have hkb : k = b.length := Option.some.inj (hk.symm.trans hsome)
    rw [hk, hkb]
    exact congrArg some (Nat.le_antisymm (hkb ▸ hle) (hfirst b u hs))

end

/-! ### With a difference that is right -/

section
variable {orig new : CStr} {diff : ℤ}

/-- As long as `diff` is 0 only for equal lengths, a replacement is what it is meant to be. -/
theorem replaceAt_eq (hdiff : diff = 0 ↔ orig.length - new.length = 0) (d : Buffer) (found : Nat) :
    replaceAt diff orig new d found = InPlace.replaceAt orig new d found := by
  rw [replaceAt, InPlace.replaceAt]
  simp only [hdiff]

/-- The count after so many replacements. -/
def counted (replacements : ℤ) : Nat → ℤ
  | 0 => replacements
  | n + 1 => counted (increment replacements) n

theorem counted_toInt (k n : Nat) : counted (toInt k) n = toInt (k + n) := by
  induction n generalizing k with
  | zero => rfl
  | succ n ih =>
    have hnext : increment (toInt k) = toInt (k + 1) := by
      unfold increment toInt
      rw [Int.bmod_add_bmod, Nat.cast_succ]
    rw [counted, hnext, ih, Nat.add_assoc, Nat.add_comm 1 n]

/-- From an offset on, `new` comes between the pieces. -/
theorem strreplLoop_splits (horig : orig ≠ []) (hle : new.length ≤ orig.length)
    (hdiff : diff = 0 ↔ orig.length - new.length = 0) {s : CStr} {pieces : List CStr}
    (h : Splits orig s pieces) {fuel : Nat} (pre : CStr) (hs : NUL ∉ s) (rest : CStr)
    (hfuel : s.length < fuel) (replacements : ℤ) :
    ∃ rest', strreplLoop diff orig new fuel (pre ++ (s ++ NUL :: rest)) pre.length replacements =
      .ok (counted replacements (pieces.length - 1),
        pre ++ (new.intercalate pieces ++ NUL :: rest')) := by
  induction h generalizing fuel pre rest replacements with
  | @last s hno =>
    obtain ⟨fuel, rfl⟩ := Nat.exists_eq_succ_of_ne_zero (Nat.ne_zero_of_lt hfuel)
    refine ⟨rest, ?_⟩
    rw [strreplLoop, Outcome.bind_of_ok (stringAt_behind pre hs rest), strstr_none horig hno,
      List.intercalate_singleton]
    rfl
  | @cut a t pieces hfirst ht ih =>
    obtain ⟨fuel, rfl⟩ := Nat.exists_eq_succ_of_ne_zero (Nat.ne_zero_of_lt hfuel)
    have hpos : 0 < orig.length := List.length_pos_iff.mpr horig
    have hnul : NUL ∉ t := fun h =>
      hs (List.mem_append_right _ (List.mem_append_right _ h))
    have hlt : t.length < fuel := by
      simp only [List.length_append] at hfuel
      omega
    obtain ⟨rest₁, hreplaced⟩ := replaceAt_ok hle (pre ++ a) hnul rest
    obtain ⟨rest₂, hloop⟩ := ih ((pre ++ a) ++ new) hnul rest₁ hlt (increment replacements)
    have hbuffer : pre ++ (a ++ (orig ++ t) ++ NUL :: rest) =
        (pre ++ a) ++ (orig ++ (t ++ NUL :: rest)) := by
      simp only [List.append_assoc]
    have hcount : counted replacements ((a :: pieces).length - 1) =
        counted (increment replacements) (pieces.length - 1) := by
      obtain ⟨n, hn⟩ := Nat.exists_eq_succ_of_ne_zero (List.length_pos_iff.mpr ht.ne_nil).ne'
      rw [List.length_cons, Nat.add_sub_cancel, hn]
      rfl
    refine ⟨rest₂, ?_⟩
    rw [strreplLoop, Outcome.bind_of_ok (stringAt_behind pre hs rest), strstr_first horig hfirst,
      hbuffer]
    dsimp only
    rw [replaceAt_eq hdiff, ← List.length_append, Outcome.bind_of_ok hreplaced,
      ← List.length_append,
      hloop, hcount, intercalate_cons _ _ ht.ne_nil]
    simp only [List.append_assoc]

end

/-! ### With a difference cut to 0 -/

section
variable {orig new : CStr}

theorem stringAt_within {s : CStr} (hs : NUL ∉ s) {i : Nat} (hi : i ≤ s.length) (rest : CStr) :
    stringAt (s ++ NUL :: rest) i = .ok (s.drop i) := by
  have hlen : (s.take i).length = i := List.length_take_of_le hi
  have hdrop : NUL ∉ s.drop i := fun hm => hs (List.mem_of_mem_drop hm)
  have h := stringAt_behind (s.take i) hdrop rest
  rwa [hlen, ← List.append_assoc, List.take_append_drop] at h

/-- Nothing is moved up, so the string keeps its length. -/
theorem strreplLoop_keeps (horig : orig ≠ []) (hle : new.length ≤ orig.length) (hnew : NUL ∉ new)
    {fuel : Nat} {s rest : CStr} {i : Nat} {replacements r : ℤ} {d : Buffer} (hs : NUL ∉ s)
    (hi : i ≤ s.length)
    (h : strreplLoop 0 orig new fuel (s ++ NUL :: rest) i replacements = .ok (r, d)) :
    ∃ s', d = s' ++ NUL :: rest ∧ NUL ∉ s' ∧ s'.length = s.length := by
  induction fuel generalizing s i replacements with
  | zero => cases h
  | succ fuel ih =>
    rw [strreplLoop, Outcome.bind_of_ok (stringAt_within hs hi rest)] at h
    rcases strstr_spec new horig (s.drop i) with ⟨hnone, -⟩ | ⟨a, t, hdrop, hsome, -⟩
    · rw [hnone] at h
      cases h
      exact ⟨s, rfl, hs, rfl⟩
    · have hsplit : s = (s.take i ++ a) ++ (orig ++ t) := by
        rw [List.append_assoc, ← hdrop, List.take_append_drop]
      have hlen : (s.take i ++ a).length = i + a.length := by
        rw [List.length_append, List.length_take_of_le hi]
      have hfits : new.length ≤ (orig ++ (t ++ NUL :: rest)).length := by
        rw [List.length_append]
        omega
      have hstore := store_front (s.take i ++ a) (orig ++ (t ++ NUL :: rest)) new hfits
      rw [List.drop_append_of_le_length hle, hlen] at hstore
      have hbuffer : s ++ NUL :: rest = (s.take i ++ a) ++ (orig ++ (t ++ NUL :: rest)) := by
        conv_lhs => rw [hsplit]
        simp only [List.append_assoc]
      rw [hsome, hbuffer] at h
      dsimp only at h
      rw [replaceAt, Outcome.bind_of_ok hstore, if_pos rfl] at h
      have hnext : (s.take i ++ a) ++ (new ++ (orig.drop new.length ++ (t ++ NUL :: rest))) =
          ((s.take i ++ a) ++ (new ++ (orig.drop new.length ++ t))) ++ NUL :: rest := by
        simp only [List.append_assoc]
      obtain ⟨s', hd, hs', hlen'⟩ :=
        ih (s := (s.take i ++ a) ++ (new ++ (orig.drop new.length ++ t)))
        (by
          rw [hsplit] at hs
          simp only [List.mem_append, not_or] at hs ⊢
          exact ⟨hs.1, hnew, fun hm => hs.2.1 (List.mem_of_mem_drop hm), hs.2.2⟩)
        (by
          rw [List.length_append, hlen, List.length_append]
          omega)
        (hnext ▸ h)
      refine ⟨s', hd, hs', hlen'.trans ?_⟩
      conv_rhs => rw [hsplit]
      simp only [List.length_append, List.length_drop]
      omega

end

/-! ### The condition -/

theorem Holds.unique {d : Buffer} {s t : CStr} (hs : Holds d s) (ht : Holds d t) : s = t :=
  Except.ok.inj (hs.stringAt.symm.trans ht.stringAt)

/-- The conversions to `int` do no harm: nothing occurs, or the difference of the lengths
    keeps being positive or 0, and there are fewer than 2^31 occurrences. -/
def FitsInt (orig new : CStr) (pieces : List CStr) : Prop :=
  pieces.length = 1 ∨ ((orig.length = new.length ∨ 0 < toInt (orig.length - new.length)) ∧
    pieces.length ≤ 2 ^ 31)

section
variable {orig new s spare : CStr} {pieces : List CStr} (horig : orig ≠ [])
  (hle : new.length ≤ orig.length) (hnew : NUL ∉ new) (hs : NUL ∉ s) (h : Splits orig s pieces)
include horig hs h

/-- Where nothing occurs, nothing is done, whatever the difference is. -/
theorem replaces_none (hone : pieces.length = 1) : Replaces orig new s spare pieces := by
  cases h with
  | last hno =>
    have hholds : Holds (s ++ NUL :: spare) s := ⟨hs, spare, rfl⟩
    refine ⟨s ++ NUL :: spare, ?_, ?_⟩
    · rw [strrepl]
      split
      · rfl
      · rw [strreplLoop, Outcome.bind_of_ok hholds.stringAt, strstr_none horig hno]
        rfl
    · rwa [List.intercalate_singleton]
  | cut _ ht =>
    rw [List.length_cons, Nat.add_eq_right] at hone
    exact absurd (List.eq_nil_of_length_eq_zero hone) ht.ne_nil

include hle hnew

/-- With a difference that keeps its sign all replacements are made, and counted in an `int`. -/
theorem replaces_right (hdiff : orig.length = new.length ∨ 0 < toInt (orig.length - new.length)) :
    Replaces orig new s spare pieces ↔ pieces.length ≤ 2 ^ 31 := by
  have hsub : sizeSub orig.length new.length = orig.length - new.length := if_pos hle
  have hzero : toInt (orig.length - new.length) = 0 ↔ orig.length - new.length = 0 := by
    constructor
    · intro h0
      rcases hdiff with hsame | hpos
      · rw [hsame, Nat.sub_self]
      · exact absurd h0 (Int.ne_of_gt hpos)
    · intro h0
      rw [h0]
      rfl
  have hsign : ¬ toInt (orig.length - new.length) < 0 := by
    rcases hdiff with hsame | hpos
    · rw [hsame, Nat.sub_self]
      decide
    · exact Int.not_lt.mpr (Int.le_of_lt hpos)
  have hfuel : s.length < (s ++ NUL :: spare).length + 1 := by
    rw [List.length_append]
    omega
  obtain ⟨rest, hloop⟩ := strreplLoop_splits horig hle hzero h [] hs spare hfuel (toInt 0)
  rw [counted_toInt, Nat.zero_add] at hloop
  have hrun : strrepl (s ++ NUL :: spare) orig new =
      .ok (toInt (pieces.length - 1), new.intercalate pieces ++ NUL :: rest) := by
    rw [strrepl, hsub, if_neg hsign]
    exact hloop
  have hnul : NUL ∉ new.intercalate pieces := by
    intro hm
    rcases mem_intercalate hm with hm | ⟨p, hp, hm⟩
    · exact hnew hm
    · exact hs (h.mem_of_mem hp hm)
  constructor
  · rintro ⟨d, hd, -⟩
    rw [hrun] at hd
    have hcount : toInt (pieces.length - 1) = ((pieces.length - 1 : Nat) : ℤ) :=
      (Prod.mk.inj (Except.ok.inj hd)).1
    have hlt := toInt_lt (pieces.length - 1)
    omega
  · intro hfew
    have hpos := List.length_pos_iff.mpr h.ne_nil
    refine ⟨_, ?_, hnul, rest, rfl⟩
    have hcount : pieces.length - 1 < 2 ^ 31 := by omega
    rw [hrun, toInt_of_lt hcount]

/-- With a difference cut to 0 or less, a replacement that is due is not made as it should
    be. -/
theorem not_replaces (hone : pieces.length ≠ 1)
    (hdiff : ¬ (orig.length = new.length ∨ 0 < toInt (orig.length - new.length))) :
    ¬ Replaces orig new s spare pieces := by
  have hsub : sizeSub orig.length new.length = orig.length - new.length := if_pos hle
  obtain ⟨hne, hpos⟩ := not_or.mp hdiff
  rintro ⟨d, hd, hholds⟩
  rw [strrepl, hsub] at hd
  have hsome := List.length_pos_iff.mpr h.ne_nil
  split at hd
  · -- no replacement is made
    have hcount : (0 : ℤ) = ((pieces.length - 1 : Nat) : ℤ) :=
      (Prod.mk.inj (Except.ok.inj hd)).1
    omega
  · next hneg =>
    -- nothing is moved up
    have hzero : toInt (orig.length - new.length) = 0 :=
      Int.le_antisymm (Int.not_lt.mp hpos) (Int.not_lt.mp hneg)
    rw [hzero] at hd
    obtain ⟨s', rfl, hs', hlen⟩ := strreplLoop_keeps horig hle hnew hs (Nat.zero_le _) hd
    have hsame : s' = new.intercalate pieces := Holds.unique ⟨hs', spare, rfl⟩ hholds
    rw [hsame, ← h.intercalate_eq] at hlen
    obtain ⟨p, ps, rfl⟩ := List.exists_cons_of_ne_nil h.ne_nil
    have hps : ps ≠ [] := by
      rintro rfl
      exact hone rfl
    exact absurd hlen (length_intercalate_lt (lt_of_le_of_ne hle (Ne.symm hne)) hps).ne

end

/-- For all strings, `strrepl` with a `new` no longer than `orig` terminates with every
    occurrence replaced and counted exactly when the conversions to `int` do no harm. -/
theorem strrepl_iff {orig new s : CStr} (horig : orig ≠ []) (hle : new.length ≤ orig.length)
    (hnew : NUL ∉ new) (hs : NUL ∉ s) : ∃ pieces, (∀ ps, Splits orig s ps ↔ ps = pieces) ∧
      ∀ spare, Replaces orig new s spare pieces ↔ FitsInt orig new pieces := by
  obtain ⟨pieces, hsplits⟩ := exists_splits horig s
  refine ⟨pieces, fun ps => ⟨hsplits.unique, fun h => h ▸ hsplits⟩, fun spare => ?_⟩
  by_cases hone : pieces.length = 1
  · exact iff_of_true (replaces_none horig hs hsplits hone) (.inl hone)
  · by_cases hdiff : orig.length = new.length ∨ 0 < toInt (orig.length - new.length)
    · rw [replaces_right horig hle hnew hs hsplits hdiff, FitsInt, or_iff_right hone,
        and_iff_right hdiff]
    · refine iff_of_false (not_replaces horig hle hnew hs hsplits hone hdiff) ?_
      rintro (h | h)
      · exact hone h
      · exact hdiff h.1

/-- Two sides of a replacement come together, and are not searched again. -/
theorem strrepl_iff_adjacent : ∃ pieces, (∀ ps, Splits (cstr "ab") (cstr "aabb") ps ↔ ps = pieces) ∧
    ∀ spare, Replaces (cstr "ab") [] (cstr "aabb") spare pieces ↔ FitsInt (cstr "ab") [] pieces :=
  strrepl_iff (by decide +kernel) (by decide +kernel) (by decide) (by decide +kernel)

theorem splits_self {orig : CStr} (horig : orig ≠ []) : Splits orig orig [[], []] := by
  have hnil : ¬ orig <:+: [] := fun h => horig (List.infix_nil.mp h)
  have h : Splits orig ([] ++ (orig ++ [])) [[], []] :=
    .cut (fun _ _ _ => Nat.zero_le _) (.last hnil)
  rwa [List.nil_append, List.append_nil] at h

/-- A string of 2^31 bytes is its own only occurrence, and is not replaced. -/
theorem long_not_replaced :
    Splits (List.replicate (2 ^ 31) (97 : UInt8)) (List.replicate (2 ^ 31) 97) [[], []] ∧
      ¬ Replaces (List.replicate (2 ^ 31) 97) [] (List.replicate (2 ^ 31) 97) [] [[], []] := by
  have hne : (List.replicate (2 ^ 31) 97 : CStr) ≠ [] := by
    rw [ne_eq, List.replicate_eq_nil_iff]
    decide
  have hnul : NUL ∉ (List.replicate (2 ^ 31) 97 : CStr) := by
    rw [List.mem_replicate]
    rintro ⟨-, h⟩
    cases h
  refine ⟨splits_self hne, not_replaces hne (Nat.zero_le _) (List.not_mem_nil) hnul
    (splits_self hne) (by decide) ?_⟩
  rw [List.length_replicate]
  decide

end Libsd.Strrepl

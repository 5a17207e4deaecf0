/-
  Libsd/CanonicalInPlace.lean
  ===========================
  **`canonicalize` on its copy of the name.**

  The copy leaves out an opening quote and is cut off in front of the closing one, at an
  index that is subtracted as a `size_t`.  The six replacements then move the rest of the
  string to the front (`strrepl_holds`).  Only for a name that is one quote is the index
  outside the copy (`canonicalizes_iff`).
-/
import Libsd.LowerInPlace

namespace Libsd.InPlace

open Utf

/-! ### The functions -/

/-- Where `orig` first occurs in a string. -/
def strstr (orig : CStr) : CStr → Option Nat
  | [] => if orig.isPrefixOf [] then some 0 else none
  | c :: s => if orig.isPrefixOf (c :: s) then some 0 else (strstr orig s).map (· + 1)

/-- `memcpy`, and the `memmove` of the rest of the string with its NUL. -/
def replaceAt (orig new : CStr) (d : Buffer) (found : Nat) : Except Stop Buffer := do
  let d ← store d found new
  if orig.length - new.length = 0 then return d
  else
    let rest ← stringAt d (found + orig.length)
    store d (found + new.length) (rest ++ [NUL])

/-- The loop of `strrepl`; `s` is the offset behind the last replacement. -/
def strreplLoop (orig new : CStr) : Nat → Buffer → Nat → Except Stop Buffer
  | 0, _, _ => .error .diverge
  | fuel + 1, d, s => do
    let text ← stringAt d s
    match strstr orig text with
    | none => return d
    | some k =>
      let found := s + k
      let d ← replaceAt orig new d found
      strreplLoop orig new fuel d (found + new.length)

def strrepl (d : Buffer) (orig new : CStr) : Except Stop Buffer :=
  if orig.length < new.length then .ok d else strreplLoop orig new (d.length + 1) d 0

/-- A difference of two `size_t`. -/
def sizeSub (a b : Nat) : Nat := if b ≤ a then a - b else a + 2 ^ 64 - b

def isQuoted (n : CStr) : Bool :=
  decide (n.length > 0) && n.head? == some 0x22 && n.getLast? == some 0x22

/-- The copy is made by `strdup`. -/
def canonicalize (fresh : Nat → UInt8) (n : CStr) : Except Stop Buffer := do
  let len := n.length
  let off := if isQuoted n then 1 else 0
  let result := n.drop off ++ [NUL]
  let result ← store result (sizeSub len (2 * off)) [NUL]
  let result ← utf8Tolower fresh result
  let result ← strrepl result (cstr "\\\\") (cstr "\\")
  let result ← strrepl result (cstr "\\n") (cstr "_")
  let result ← strrepl result (cstr "\\r") (cstr "_")
  let result ← strrepl result (cstr "\n") (cstr "_")
  let result ← strrepl result (cstr "\r") (cstr "_")
  strrepl result (cstr " ") (cstr "_")

/-! ### Replacing -/

section
variable {orig new : CStr}

theorem isPrefixOf_nil (horig : orig ≠ []) : orig.isPrefixOf [] = false := by
  cases orig with
  | nil => exact absurd rfl horig
  | cons c orig => rfl

/-- More fuel than the string is long changes nothing. -/
theorem strreplLoop_fuel (horig : orig ≠ []) {f f' : Nat} {s : CStr} (hf : s.length ≤ f)
    (hf' : s.length ≤ f') : Libsd.strreplLoop orig new f s = Libsd.strreplLoop orig new f' s := by
  have hpos : 0 < orig.length := List.length_pos_iff.mpr horig
  induction f generalizing f' s with
  | zero =>
    obtain rfl := List.eq_nil_of_length_eq_zero (Nat.le_zero.mp hf)
    cases f' with
    | zero => rfl
    | succ f' => rw [Libsd.strreplLoop, Libsd.strreplLoop, isPrefixOf_nil horig, if_neg (by decide)]
  | succ f ih =>
    cases s with
    | nil =>
      have hnil : ∀ f, Libsd.strreplLoop orig new f [] = [] := fun f => by
        cases f with
        | zero => rfl
        | succ f => rw [Libsd.strreplLoop, isPrefixOf_nil horig, if_neg (by decide)]
      rw [hnil, hnil]
    | cons c s =>
      obtain ⟨f', rfl⟩ := Nat.exists_eq_succ_of_ne_zero (Nat.ne_zero_of_lt hf')
      have hs : s.length ≤ f := Nat.le_of_succ_le_succ hf
      have hs' : s.length ≤ f' := Nat.le_of_succ_le_succ hf'
      have hdrop : ((c :: s).drop orig.length).length ≤ s.length := by
        rw [List.length_drop, List.length_cons]
        omega
      rw [Libsd.strreplLoop, Libsd.strreplLoop, ih hs hs', ih (hdrop.trans hs) (hdrop.trans hs')]

/-- All replacements in a string. -/
def replace (orig new s : CStr) : CStr := Libsd.strreplLoop orig new (s.length + 1) s

theorem replace_nil (horig : orig ≠ []) : replace orig new [] = [] := by
  rw [replace, Libsd.strreplLoop, isPrefixOf_nil horig, if_neg (by decide)]

theorem replace_cons (horig : orig ≠ []) {c : UInt8} {s : CStr}
    (h : orig.isPrefixOf (c :: s) = false) :
    replace orig new (c :: s) = c :: replace orig new s := by
  rw [replace, Libsd.strreplLoop, h, if_neg (by decide), List.length_cons,
    strreplLoop_fuel horig (Nat.le_succ _) (Nat.le_succ _), replace]

theorem replace_prefix (horig : orig ≠ []) (t : CStr) :
    replace orig new (orig ++ t) = new ++ replace orig new t := by
  have hstarts : orig.isPrefixOf (orig ++ t) = true :=
    List.isPrefixOf_iff_prefix.mpr (List.prefix_append _ _)
  have hlen : t.length ≤ (orig ++ t).length := by
    rw [List.length_append]
    exact Nat.le_add_left _ _
  have hfuel : Libsd.strreplLoop orig new (orig ++ t).length t = replace orig new t :=
    strreplLoop_fuel horig hlen (Nat.le_succ _)
  have hdrop : (orig ++ t).drop orig.length = t := List.drop_left
  rw [← hfuel]
  conv_lhs => rw [replace, Libsd.strreplLoop.eq_def]
  simp only [hstarts, if_true, hdrop]

/-- `strstr` finds where the first replacement is made. -/
theorem strstr_spec (new : CStr) (horig : orig ≠ []) (s : CStr) :
    (strstr orig s = none ∧ replace orig new s = s) ∨
      ∃ a t, s = a ++ (orig ++ t) ∧ strstr orig s = some a.length ∧
        replace orig new s = a ++ (new ++ replace orig new t) := by
  induction s with
  | nil =>
    refine .inl ⟨?_, replace_nil horig⟩
    rw [strstr, isPrefixOf_nil horig, if_neg (by decide)]
  | cons c s ih =>
    cases hstarts : orig.isPrefixOf (c :: s) with
    | true =>
      obtain ⟨t, ht⟩ := List.isPrefixOf_iff_prefix.mp hstarts
      refine .inr ⟨[], t, ht.symm, ?_, ?_⟩
      · rw [strstr, hstarts, if_pos rfl]
        rfl
      · rw [← ht]
        exact replace_prefix horig t
    | false =>
      rw [strstr, hstarts, if_neg (by decide), replace_cons horig hstarts]
      rcases ih with ⟨hnone, hs⟩ | ⟨a, t, rfl, hsome, hs⟩
      · exact .inl ⟨by rw [hnone]; rfl, by rw [hs]⟩
      · refine .inr ⟨c :: a, t, rfl, ?_, ?_⟩
        · rw [hsome]
          rfl
        · rw [hs]
          rfl

theorem mem_replace {v : UInt8} (horig : orig ≠ []) {s : CStr} (h : v ∈ replace orig new s) :
    v ∈ new ∨ v ∈ s := by
  induction hlen : s.length using Nat.strong_induction_on generalizing s with
  | _ n ih =>
    rcases strstr_spec new horig s with ⟨-, hs⟩ | ⟨a, t, rfl, -, hs⟩
    · exact .inr (hs ▸ h)
    · have hlt : t.length < n := by
        have hpos : 0 < orig.length := List.length_pos_iff.mpr horig
        simp only [List.length_append] at hlen
        omega
      rw [hs, List.mem_append, List.mem_append] at h
      rcases h with h | h | h
      · exact .inr (List.mem_append_left _ h)
      · exact .inl h
      · exact (ih _ hlt h rfl).imp_right fun h =>
          List.mem_append_right _ (List.mem_append_right _ h)

/-! ### Replacing in the buffer -/

theorem stringAt_behind (pre : CStr) {s : CStr} (h : NUL ∉ s) (rest : CStr) :
    stringAt (pre ++ (s ++ NUL :: rest)) pre.length = .ok s := by
  rw [stringAt, Block.stringAt_append NUL pre s rest h]

/-- One replacement, with the rest of the string moved up to it. -/
theorem replaceAt_ok (hle : new.length ≤ orig.length) (pre : CStr) {t : CStr} (ht : NUL ∉ t)
    (rest : CStr) : ∃ rest', replaceAt orig new (pre ++ (orig ++ (t ++ NUL :: rest))) pre.length =
      .ok ((pre ++ new) ++ (t ++ NUL :: rest')) := by
  have hfits : new.length ≤ (orig ++ (t ++ NUL :: rest)).length := by
    rw [List.length_append]
    omega
  have hstore := store_front pre _ new hfits
  rw [List.drop_append_of_le_length hle] at hstore
  rw [replaceAt, Outcome.bind_of_ok hstore]
  by_cases hsame : orig.length - new.length = 0
  · have hnone : orig.drop new.length = [] := List.drop_eq_nil_of_le (by omega)
    refine ⟨rest, ?_⟩
    rw [if_pos hsame, hnone, List.nil_append, List.append_assoc]
    rfl
  · have hread : stringAt (pre ++ (new ++ (orig.drop new.length ++ (t ++ NUL :: rest))))
        (pre.length + orig.length) = .ok t := by
      have hlen : pre.length + orig.length = (pre ++ (new ++ orig.drop new.length)).length := by
        rw [List.length_append, List.length_append, List.length_drop]
        omega
      have h := stringAt_behind (pre ++ (new ++ orig.drop new.length)) ht rest
      rwa [← hlen, List.append_assoc, List.append_assoc] at h
    have hroom : (t ++ [NUL]).length ≤ (orig.drop new.length ++ (t ++ NUL :: rest)).length := by
      simp only [List.length_append, List.length_cons, List.length_nil]
      omega
    have hmove := store_front (pre ++ new) _ (t ++ [NUL]) hroom
    refine ⟨(orig.drop new.length ++ (t ++ NUL :: rest)).drop (t ++ [NUL]).length, ?_⟩
    rw [if_neg hsame, Outcome.bind_of_ok hread, ← List.append_assoc, ← List.length_append, hmove,
      List.append_assoc t, List.singleton_append]

/-- The string behind an offset, with all replacements made. -/
theorem strreplLoop_ok (horig : orig ≠ []) (hle : new.length ≤ orig.length) {fuel : Nat}
    (pre : CStr) {s : CStr} (hs : NUL ∉ s) (rest : CStr) (hfuel : s.length < fuel) :
    ∃ rest', strreplLoop orig new fuel (pre ++ (s ++ NUL :: rest)) pre.length =
      .ok (pre ++ (replace orig new s ++ NUL :: rest')) := by
  induction fuel generalizing pre s rest with
  | zero => exact absurd hfuel (Nat.not_lt_zero _)
  | succ fuel ih =>
    rw [strreplLoop, Outcome.bind_of_ok (stringAt_behind pre hs rest)]
    rcases strstr_spec new horig s with ⟨hnone, hreplace⟩ | ⟨a, t, rfl, hsome, hreplace⟩
    · rw [hnone, hreplace]
      exact ⟨rest, rfl⟩
    · have hpos : 0 < orig.length := List.length_pos_iff.mpr horig
      have ht : NUL ∉ t := fun h =>
        hs (List.mem_append_right _ (List.mem_append_right _ h))
      have hlt : t.length < fuel := by
        simp only [List.length_append] at hfuel
        omega
      obtain ⟨rest₁, hreplaced⟩ := replaceAt_ok hle (pre ++ a) ht rest
      obtain ⟨rest₂, hloop⟩ := ih ((pre ++ a) ++ new) ht rest₁ hlt
      refine ⟨rest₂, ?_⟩
      have hbuffer : pre ++ (a ++ (orig ++ t) ++ NUL :: rest) =
          (pre ++ a) ++ (orig ++ (t ++ NUL :: rest)) := by
        simp only [List.append_assoc]
      rw [hsome, hbuffer]
      dsimp only
      rw [← List.length_append, Outcome.bind_of_ok hreplaced, ← List.length_append, hloop, hreplace]
      simp only [List.append_assoc]

end

/-- The buffer starts with the string and its NUL. -/
structure Holds (d : Buffer) (s : CStr) : Prop where
  noNul : NUL ∉ s
  text : ∃ rest, d = s ++ NUL :: rest

theorem Holds.stringAt {d : Buffer} {s : CStr} (h : Holds d s) : stringAt d 0 = .ok s := by
  obtain ⟨rest, rfl⟩ := h.text
  exact stringAt_start h.noNul rest

theorem Holds.strrepl {d : Buffer} {s : CStr} (h : Holds d s) (orig new : CStr)
    (horig : orig ≠ []) (hnew : NUL ∉ new) (hle : new.length ≤ orig.length) :
    ∃ d', strrepl d orig new = .ok d' ∧ Holds d' (Libsd.strrepl s orig new) := by
  obtain ⟨rest, rfl⟩ := h.text
  have hfuel : s.length < (s ++ NUL :: rest).length + 1 := by
    rw [List.length_append]
    omega
  have hreplace : Libsd.strrepl s orig new = replace orig new s := if_neg (Nat.not_lt.mpr hle)
  obtain ⟨rest', hloop⟩ := strreplLoop_ok horig hle [] h.noNul rest hfuel
  refine ⟨replace orig new s ++ NUL :: rest', ?_, ?_, rest', by rw [hreplace]⟩
  · rw [InPlace.strrepl, if_neg (Nat.not_lt.mpr hle)]
    exact hloop
  · rw [hreplace]
    exact fun hmem => (mem_replace horig hmem).elim hnew h.noNul

/-! ### Names -/

/-- The six replacements of `canonicalize`. -/
def replaced (s : CStr) : CStr :=
  Libsd.strrepl (Libsd.strrepl (Libsd.strrepl (Libsd.strrepl (Libsd.strrepl (Libsd.strrepl s
    (cstr "\\\\") (cstr "\\")) (cstr "\\n") (cstr "_")) (cstr "\\r") (cstr "_"))
      (cstr "\n") (cstr "_"))
    (cstr "\r") (cstr "_")) (cstr " ") (cstr "_")

/-- With an index inside the copy, `canonicalize` ends with the text in front of it. -/
theorem canonicalize_holds {s : List Rune} (hs : ∀ r ∈ s, IsRune r) (fresh : Nat → UInt8) {n : CStr}
    (spare : CStr) (hstore : store (n.drop (if isQuoted n then 1 else 0) ++ [NUL])
      (sizeSub n.length (2 * if isQuoted n then 1 else 0)) [NUL] = .ok (encode s ++ NUL :: spare)) :
    ∃ d, canonicalize fresh n = .ok d ∧ Holds d (replaced (lowered s)) := by
  have h0 : Holds (lowered s ++ NUL :: spare) (lowered s) := ⟨nul_not_mem_lowered hs, spare, rfl⟩
  obtain ⟨d1, h1, h1'⟩ := h0.strrepl (cstr "\\\\") (cstr "\\") (by decide +kernel)
    (by decide +kernel) (by decide +kernel)
  obtain ⟨d2, h2, h2'⟩ := h1'.strrepl (cstr "\\n") (cstr "_") (by decide +kernel)
    (by decide +kernel) (by decide +kernel)
  obtain ⟨d3, h3, h3'⟩ := h2'.strrepl (cstr "\\r") (cstr "_") (by decide +kernel)
    (by decide +kernel) (by decide +kernel)
  obtain ⟨d4, h4, h4'⟩ := h3'.strrepl (cstr "\n") (cstr "_") (by decide +kernel)
    (by decide +kernel) (by decide +kernel)
  obtain ⟨d5, h5, h5'⟩ := h4'.strrepl (cstr "\r") (cstr "_") (by decide +kernel)
    (by decide +kernel) (by decide +kernel)
  obtain ⟨d6, h6, h6'⟩ := h5'.strrepl (cstr " ") (cstr "_") (by decide +kernel)
    (by decide +kernel) (by decide +kernel)
  refine ⟨d6, ?_, h6'⟩
  simp only [canonicalize, Outcome.bind_of_ok hstore,
    Outcome.bind_of_ok (utf8Tolower_encode hs fresh spare), Outcome.bind_of_ok h1,
    Outcome.bind_of_ok h2, Outcome.bind_of_ok h3, Outcome.bind_of_ok h4, Outcome.bind_of_ok h5, h6]

/-- A double quote, and a text in double quotes. -/
def QUOTE : UInt8 := 0x22

def enquote (n : CStr) : CStr := QUOTE :: (n ++ [QUOTE])

theorem isQuoted_enquote (n : CStr) : isQuoted (enquote n) = true := by
  have hlast : (enquote n).getLast? = some QUOTE := by
    rw [enquote, List.getLast?_cons_of_ne_nil (by simp), List.getLast?_concat]
  rw [isQuoted, hlast]
  rfl

theorem canonicalize_plain_holds {s : List Rune} (hs : ∀ r ∈ s, IsRune r) (fresh : Nat → UInt8)
    (hplain : isQuoted (encode s) = false) :
    ∃ d, canonicalize fresh (encode s) = .ok d ∧ Holds d (replaced (lowered s)) := by
  refine canonicalize_holds hs fresh [] ?_
  have hstore := store_front (encode s) [NUL] [NUL] (Nat.le_refl 1)
  rw [hplain]
  exact hstore

theorem canonicalize_enquote_holds {s : List Rune} (hs : ∀ r ∈ s, IsRune r) (fresh : Nat → UInt8) :
    ∃ d, canonicalize fresh (enquote (encode s)) = .ok d ∧ Holds d (replaced (lowered s)) := by
  refine canonicalize_holds hs fresh [NUL] ?_
  have hstore := store_front (encode s) [QUOTE, NUL] [NUL] (by decide)
  have hlen : sizeSub (enquote (encode s)).length (2 * 1) = (encode s).length := by
    rw [enquote, List.length_cons, List.length_append, List.length_singleton, sizeSub,
      if_pos (by omega)]
    omega
  have hcopy : (enquote (encode s)).drop 1 ++ [NUL] = encode s ++ [QUOTE, NUL] := by
    rw [enquote, List.drop_one, List.tail_cons, List.append_assoc]
    rfl
  rw [isQuoted_enquote, if_pos rfl, hlen, hcopy]
  exact hstore

theorem head_mem_runetochar {r : Rune} {s : List Rune} {b : UInt8}
    (h : (encode (r :: s)).head? = some b) : b ∈ runetochar r := by
  have hne : runetochar r ≠ [] := List.ne_nil_of_length_pos (runelen_pos r)
  rw [encode_cons, List.head?_append, List.head?_eq_some_head hne, Option.some_or] at h
  exact Option.some.inj h ▸ List.head_mem hne

theorem last_mem_runetochar {q : Rune} {t : List Rune} {b : UInt8}
    (h : (encode (t ++ [q])).getLast? = some b) : b ∈ runetochar q := by
  have hne : runetochar q ≠ [] := List.ne_nil_of_length_pos (runelen_pos q)
  rw [encode_append, encode_cons, encode_nil, List.append_nil, List.getLast?_append,
    List.getLast?_eq_some_getLast hne, Option.some_or] at h
  exact Option.some.inj h ▸ List.getLast_mem hne

/-- A quoted name of more than one byte has a text between its quotes. -/
theorem exists_enquote {s : List Rune} (hs : ∀ r ∈ s, IsRune r) (h : isQuoted (encode s) = true)
    (hne : encode s ≠ [QUOTE]) :
    ∃ t : List Rune, (∀ r ∈ t, IsRune r) ∧ encode s = enquote (encode t) := by
  obtain ⟨⟨-, hhead⟩, hlast⟩ : (_ ∧ (encode s).head? = some QUOTE) ∧
      (encode s).getLast? = some QUOTE := by
    simpa [isQuoted, QUOTE] using h
  have hquote : ∀ q, IsRune q → QUOTE ∈ runetochar q → q = 0x22 := fun q hq hmem =>
    rune_of_mem_runetochar hq.2 hmem (by decide)
  cases s with
  | nil => cases hhead
  | cons r s =>
    obtain rfl := hquote r (hs r List.mem_cons_self) (head_mem_runetochar hhead)
    rcases List.eq_nil_or_concat s with rfl | ⟨t, q, rfl⟩
    · exact absurd rfl hne
    · have hq : IsRune q := hs q (by simp)
      rw [List.concat_eq_append] at hlast hs
      rw [← List.cons_append] at hlast
      obtain rfl := hquote q hq (last_mem_runetochar hlast)
      refine ⟨t, fun r hr => hs r (by simp [hr]), ?_⟩
      rw [List.concat_eq_append, encode_cons, encode_append]
      rfl

/-- `canonicalize` writes inside its copy only, and ignores quotes around a name. -/
structure Canonicalizes (n : CStr) : Prop where
  inside : ∀ fresh, ∃ d, canonicalize fresh n = .ok d
  unquotes : isQuoted n = false → ∀ fresh, ∃ d d' name, canonicalize fresh n = .ok d ∧
    canonicalize fresh (enquote n) = .ok d' ∧ stringAt d 0 = .ok name ∧ stringAt d' 0 = .ok name

theorem canonicalize_quote (fresh : Nat → UInt8) :
    canonicalize fresh [QUOTE] = .error (.undefined .outOfBounds) := by
  have hstore : store ([QUOTE].drop (if isQuoted [QUOTE] then 1 else 0) ++ [NUL])
      (sizeSub [QUOTE].length (2 * if isQuoted [QUOTE] then 1 else 0)) [NUL] =
        .error (.undefined .outOfBounds) := by decide +kernel
  simp only [canonicalize, hstore]
  rfl

theorem canonicalizes_iff {s : List Rune} (hs : ∀ r ∈ s, IsRune r) :
    Canonicalizes (encode s) ↔ encode s ≠ [QUOTE] := by
  constructor
  · intro h hquote
    obtain ⟨d, hd⟩ := h.inside fun _ => 0
    rw [hquote, canonicalize_quote] at hd
    cases hd
  · intro hne
    cases hquoted : isQuoted (encode s) with
    | true =>
      obtain ⟨t, ht, heq⟩ := exists_enquote hs hquoted hne
      refine ⟨fun fresh => ?_, fun hplain => absurd (hquoted.symm.trans hplain) (by decide)⟩
      obtain ⟨d, hd, -⟩ := canonicalize_enquote_holds ht fresh
      exact ⟨d, heq ▸ hd⟩
    | false =>
      refine ⟨fun fresh => ?_, fun _ fresh => ?_⟩
      · obtain ⟨d, hd, -⟩ := canonicalize_plain_holds hs fresh hquoted
        exact ⟨d, hd⟩
      · obtain ⟨d, hd, hname⟩ := canonicalize_plain_holds hs fresh hquoted
        obtain ⟨d', hd', hname'⟩ := canonicalize_enquote_holds hs fresh
        exact ⟨d, d', _, hd, hd', hname.stringAt, hname'.stringAt⟩

/-- The name `Net Births`, with and without quotes. -/
theorem canonicalizes_netBirths :
    Canonicalizes (encode ((String.toList "Net Births").map fun c => c.toNat)) :=
  (canonicalizes_iff (by decide +kernel)).mpr (by decide +kernel)

/-- For a name that is one quote, the NUL is stored in front of the copy. -/
theorem quote_not_canonicalized : ¬ Canonicalizes (encode [0x22]) := by
  intro h
  obtain ⟨d, hd⟩ := h.inside fun _ => 0
  have hquote : encode [0x22] = [QUOTE] := rfl
  rw [hquote, canonicalize_quote] at hd
  cases hd

/-- `canonicalize` on strings, with its steps by name. -/
theorem canonicalize_string (n : CStr) : Libsd.canonicalize n =
    if n.length < 2 * (if isQuoted n then 1 else 0) then none
    else (Libsd.utf8Tolower ((n.drop (if isQuoted n then 1 else 0)).take
      (n.length - 2 * (if isQuoted n then 1 else 0)))).map replaced := by
  refine congrArg (ite _ none) ?_
  rw [← isQuoted]
  cases Libsd.utf8Tolower _ with
  | none => rfl
  | some result => rfl

/-- In names of less than 2 GiB the strings are those of `canonicalize`. -/
theorem canonicalize_eq {s : List Rune} (hs : ∀ r ∈ s, IsRune r) (hlen : (encode s).length < 2 ^ 31)
    {name : CStr} (h : Libsd.canonicalize (encode s) = some name) (fresh : Nat → UInt8) :
    ∃ d, canonicalize fresh (encode s) = .ok d ∧ Holds d name := by
  rw [canonicalize_string] at h
  cases hquoted : isQuoted (encode s) with
  | true =>
    have hne : encode s ≠ [QUOTE] := by
      intro hquote
      rw [hquote] at h
      cases h
    obtain ⟨t, ht, heq⟩ := exists_enquote hs hquoted hne
    have hinner : ((encode s).drop 1).take ((encode s).length - 2 * 1) = encode t := by
      rw [heq, enquote, List.drop_one, List.tail_cons, List.length_cons, List.length_append]
      exact List.take_left
    have ht' : (encode t).length < 2 ^ 31 := by
      rw [heq, enquote, List.length_cons, List.length_append] at hlen
      omega
    have hlong : ¬ (encode s).length < 2 * 1 := by
      rw [heq, enquote, List.length_cons, List.length_append, List.length_singleton]
      omega
    rw [hquoted, if_pos rfl, if_neg hlong, hinner, lowered_eq ht ht'] at h
    cases h
    rw [heq]
    exact canonicalize_enquote_holds ht fresh
  | false =>
    rw [hquoted, if_neg Bool.false_ne_true, if_neg (Nat.not_lt_zero _), List.drop_zero,
      Nat.mul_zero, Nat.sub_zero, List.take_length, lowered_eq hs hlen] at h
    cases h
    exact canonicalize_plain_holds hs fresh hquoted

end Libsd.InPlace

/-
  Libsd/QuotedNames.lean
  ======================
  **References to a variable by its quoted name.**

  A name goes through `canonicalize` when the file is loaded.  In an equation it stands
  between quotes, is lower-cased with the equation, cut out by `lex_ident`, and then goes
  through `canonicalize` too.  The two meet exactly when the name has, after its first
  character, only letters, digits, underscores and white space, and no capital I with a dot,
  whose lower case is shorter (`refersTo_iff`).
-/
import Libsd.Canonical
import Libsd.LexerText

namespace Libsd

open Utf

/-- A name between quotes. -/
def quoted (s : List Rune) : List Rune := rune '\x22' :: (s ++ [rune '\x22'])

/-- The lexer of an equation with a quoted name in it, at the opening quote. -/
def atReference (before s behind : List Rune) : Except Stop Lexer := do
  let l ← lexerInit (encode (before ++ quoted s ++ behind))
  return { l with pos := (encode (lower before)).length, peek := rune '\x22' }

/-- In every equation, the quoted name is one identifier that ends at the closing quote, and
    the node the parser makes of it has the name under which the variable is stored. -/
def RefersTo (s : List Rune) : Prop :=
  ∀ before behind, (∀ r ∈ before ++ behind, IsRune r) → ∃ l t l' name l'',
    atReference before s behind = .ok l ∧
    lexerNexttok l = .ok (some t, l') ∧ t.type = .ident ∧
    l'.pos = l.pos + (encode (quoted (lower s))).length ∧
    canonicalize (encode s) = some name ∧ ident l = .ok (true, .ident name none, l'')

/-- A name as a file can declare it, less quotes and backslashes. -/
structure NameText (s : List Rune) : Prop where
  ne_nil : s ≠ []
  isRune : ∀ r ∈ s, IsRune r
  no_quote : rune '\x22' ∉ s
  no_backslash : rune '\x5c' ∉ s

theorem isRune_quote : IsRune (rune '\x22') := by decide

theorem isRune_quoted {s : List Rune} (hs : ∀ r ∈ s, IsRune r) : ∀ r ∈ quoted s, IsRune r := by
  intro r hr
  simp only [quoted, List.mem_cons, List.mem_append, List.not_mem_nil, or_false] at hr
  rcases hr with rfl | hr | rfl
  · exact isRune_quote
  · exact hs r hr
  · exact isRune_quote

theorem encode_quoted (s : List Rune) : encode (quoted s) = 0x22 :: (encode s ++ [0x22]) := by
  rw [quoted, encode_cons, encode_append]
  rfl

theorem lower_quoted (s : List Rune) : lower (quoted s) = quoted (lower s) := by
  have hquote : tolowerrune (rune '\x22') = rune '\x22' := by decide +kernel
  simp only [lower, quoted, List.map_cons, List.map_append, hquote, List.map_nil]

/-! ### Where the lexer is -/

/-- At the opening quote the lexer has the lowered name, and what follows, in front of it. -/
theorem atReference_at {before s behind : List Rune} (hs : ∀ r ∈ s, IsRune r)
    (hctx : ∀ r ∈ before ++ behind, IsRune r) : ∃ l text, atReference before s behind = .ok l ∧
      l.tpeek = none ∧ l.peek = rune '\x22' ∧ l.At (encode (quoted (lower s)) ++ text) := by
  have hall : ∀ r ∈ before ++ quoted s ++ behind, IsRune r := by
    intro r hr
    rw [List.mem_append, List.mem_append] at hr
    rcases hr with (hr | hr) | hr
    · exact hctx r (List.mem_append_left _ hr)
    · exact isRune_quoted hs r hr
    · exact hctx r (List.mem_append_right _ hr)
  have hlow : lower (before ++ quoted s ++ behind) = lower before ++ quoted (lower s) ++
      lower behind := by
    rw [← lower_quoted, lower, List.map_append, List.map_append]
    rfl
  have hquote : ∀ text : CStr, firstRune (encode (quoted (lower s)) ++ text) = rune '\x22' := by
    intro text
    rw [quoted, encode_cons, List.append_assoc]
    exact firstRune_runetochar isRune_quote _
  simp only [atReference, lexerInit, utf8Tolower_encode hall, hlow, bind, Except.bind,
    pure, Except.pure]
  refine ⟨_, encode (lower behind) ++
    (encode (before ++ quoted s ++ behind)).drop (encode (lower before ++ quoted (lower s) ++
      lower behind)).length, rfl, rfl, rfl, rfl, ?_, ?_, (hquote _).symm⟩
  · simp only [encode_append, List.length_append]
    omega
  · simp only [encode_append, List.append_assoc, List.drop_left]

/-! ### The token -/

theorem classifyWord_quoted {text : CStr} (h : text.head? = some 0x22) :
    classifyWord text = { start := text, type := .ident } := by
  have hops : OP_WORDS.find? (fun w => text == w.1) = none := by
    rw [List.find?_eq_none]
    intro w hw heq
    rw [beq_iff_eq.mp heq] at h
    have hall : ∀ w ∈ OP_WORDS, w.1.head? ≠ some 0x22 := by decide +kernel
    exact hall w hw h
  have hreserved : RESERVED.contains text = false := by
    rw [Bool.eq_false_iff]
    intro hmem
    have hall : ∀ w ∈ RESERVED, w.head? ≠ some 0x22 := by decide +kernel
    exact hall text (List.contains_iff_mem.mp hmem) h
  simp only [classifyWord, hops, hreserved, Bool.false_eq_true, if_false]

/-- At a quote the next token is what `lex_ident` cuts out. -/
theorem lexerNexttok_quote {l : Lexer} (htpeek : l.tpeek = none) (hpeek : l.peek = rune '\x22') :
    lexerNexttok l = (lexIdent l).map fun r => (some r.1, r.2) := by
  have hskip : skipWhitespace l = .ok l := by
    rw [skipWhitespace, skipWhitespaceLoop, hpeek]
    exact if_pos (by decide +kernel)
  have hzero : ¬ rune '\x22' = 0 := by decide
  have hnum : numstart (rune '\x22') = false := by decide
  have hident : identstart (rune '\x22') = true := by decide +kernel
  simp only [lexerNexttok, htpeek, hskip, bind, Except.bind, hpeek, if_neg hzero, hnum,
    Bool.false_eq_true, if_false, hident, if_true]
  cases lexIdent l <;> rfl

section
variable {l : Lexer} {r : Nat} {s : List Rune} {text : CStr}

/-- The loop has fuel for every rune of the name. -/
theorem loop_fuel (h : l.At (encode (r :: s) ++ text)) : ∃ k, l.len + 1 = s.length + (k + 1) := by
  have hle := length_le_encode (r :: s)
  have hsub := h.len_sub
  rw [List.length_append] at hsub
  rw [List.length_cons] at hle
  exact ⟨l.len - s.length, by omega⟩

/-- Up to the closing quote: the name and both quotes are the token. -/
theorem lexIdent_closed (hpeek : l.peek = rune '\x22') (hr : IsRune r)
    (hs : ∀ q ∈ s, IsRune q ∧ wordRune true q = true)
    (h : l.At (encode (quoted (r :: s)) ++ text)) :
    lexIdent l = .ok ({ start := encode (quoted (r :: s)), type := .ident },
        nextrune^[(quoted (r :: s)).length] l) := by
  have hall : ∀ q ∈ r :: s, IsRune q := List.forall_mem_cons.mpr ⟨hr, fun q hq => (hs q hq).1⟩
  obtain ⟨hend, hpos⟩ := h.iterate (isRune_quoted hall)
  have htext := tokenText_at h hend (iterate_nextrune_src _ l) hpos
  rw [quoted, encode_cons, encode_append, List.append_assoc, List.append_assoc] at h
  obtain ⟨hopen, -⟩ := h.next isRune_quote
  have hclose := (hopen.iterate hall).1
  have hquote : (nextrune^[(r :: s).length] (nextrune l)).peek = rune '\x22' :=
    hclose.peek.trans (firstRune_runetochar isRune_quote text)
  obtain ⟨k, hk⟩ := loop_fuel hopen
  have hloop : lexIdentLoop true ((nextrune l).len + 1) (nextrune l) =
      .ok (nextrune^[(quoted (r :: s)).length] l) := by
    rw [hk, lexIdentLoop_pass hr hs hopen,
      lexIdentLoop_quote (by rwa [← Function.iterate_succ_apply' nextrune])]
    rw [← Function.iterate_succ_apply' nextrune, ← Function.iterate_succ_apply' nextrune,
      ← Function.iterate_succ_apply nextrune]
    simp [quoted]
  have hpeek' : (l.peek == rune '\x22') = true := by rw [hpeek]; rfl
  simp only [lexIdent, hpeek', if_true, bind, Except.bind, hloop, htext, pure, Except.pure]
  rw [classifyWord_quoted (by rw [encode_quoted]; rfl)]

/-- A rune that is no part of a word ends the token in front of it. -/
theorem lexIdent_cut {b : Nat} {more : List Rune} (hpeek : l.peek = rune '\x22') (hr : IsRune r)
    (hs : ∀ q ∈ s, IsRune q ∧ wordRune true q = true) (hb : IsRune b)
    (hbad : wordRune true b = false) (hquote : b ≠ rune '\x22')
    (h : l.At (encode (quoted (r :: (s ++ b :: more))) ++ text)) :
    ∃ t l', lexIdent l = .ok (t, l') ∧
      l'.pos < l.pos + (encode (quoted (r :: (s ++ b :: more)))).length := by
  have hall : ∀ q ∈ r :: s, IsRune q := List.forall_mem_cons.mpr ⟨hr, fun q hq => (hs q hq).1⟩
  have hsplit : encode (quoted (r :: (s ++ b :: more))) ++ text = runetochar (rune '\x22') ++
      (encode (r :: s) ++
        (runetochar b ++ (encode more ++ (runetochar (rune '\x22') ++ text)))) := by
    simp only [quoted, encode_cons, encode_append, encode_nil, List.append_assoc, List.nil_append]
  have hlen := congrArg List.length hsplit
  rw [hsplit] at h
  obtain ⟨hopen, hpos1⟩ := h.next isRune_quote
  obtain ⟨hcut, hpos2⟩ := hopen.iterate hall
  have hrune : (nextrune^[(r :: s).length] (nextrune l)).peek = b :=
    hcut.peek.trans (firstRune_runetochar hb _)
  obtain ⟨k, hk⟩ := loop_fuel hopen
  have hloop : lexIdentLoop true ((nextrune l).len + 1) (nextrune l) =
      .ok (nextrune^[(r :: s).length] (nextrune l)) := by
    rw [hk, lexIdentLoop_pass hr hs hopen, lexIdentLoop_stop]
    · rw [← Function.iterate_succ_apply' nextrune]
      rfl
    · rw [← Function.iterate_succ_apply' nextrune]
      have hno : (b == rune '\x22') = false := beq_eq_false_iff_ne.mpr hquote
      exact .inr ⟨hrune.symm ▸ hbad, by rw [List.length_cons] at hrune; rw [hrune, hno]; rfl⟩
  have hpeek' : (l.peek == rune '\x22') = true := by rw [hpeek]; rfl
  have htext : ∃ start, tokenText (nextrune^[(r :: s).length] (nextrune l)) l.pos = .ok start :=
    ⟨_, if_pos (hcut.pos.trans (Nat.le_succ _))⟩
  obtain ⟨start, htext⟩ := htext
  refine ⟨classifyWord start, nextrune^[(r :: s).length] (nextrune l), ?_, ?_⟩
  · simp only [lexIdent, hpeek', if_true, bind, Except.bind, hloop, htext, pure, Except.pure]
  · have hone : 0 < (runetochar b).length := runelen_pos b
    have hquotelen : runelen (rune '\x22') = (runetochar (rune '\x22')).length := rfl
    simp only [List.length_append] at hlen
    rw [hpos2, hpos1, hquotelen]
    omega

end

/-! ### The name -/

theorem ident_of_nexttok {l l' : Lexer} {t : Token} {name : CStr} (htpeek : l.tpeek = none)
    (h : lexerNexttok l = .ok (some t, l')) (ht : t.type = .ident)
    (hname : canonicalize t.start = some name) :
    ∃ l'', ident l = .ok (true, .ident name none, l'') := by
  have htest : (t.type == .ident) = true := beq_iff_eq.mpr ht
  have hpeek : lexerPeek l = .ok (some t, { l' with tpeek := some t }) := by
    simp only [lexerPeek, htpeek, h, bind, Except.bind, pure, Except.pure]
  have htok := lexerNexttok_of_tpeek (l := { l' with tpeek := some t }) rfl
  refine ⟨{ l' with tpeek := none }, ?_⟩
  simp only [ident, consumeIf, hpeek, htest, if_true, htok, bind, Except.bind, pure,
    Except.pure, hname]

/-- What is stored: the lowered name, and behind it what is left over of the original. -/
theorem canonicalize_name {s : List Rune} (hs : NameText s) : canonicalize (encode s) =
    some ((encode (lower s) ++ (encode s).drop (encode (lower s)).length).map unspace) := by
  have hhead : (encode s).head? ≠ some 0x22 := fun hno =>
    not_mem_encode (b := 0x22) hs.isRune (by decide) hs.no_quote (List.mem_of_mem_head? hno)
  have hlower : rune '\x5c' ∉ lower s := not_mem_lower (by decide +kernel) hs.no_backslash
  refine canonicalize_plain hhead (utf8Tolower_encode hs.isRune) fun hmem => ?_
  rcases List.mem_append.mp hmem with hmem | hmem
  · exact not_mem_encode (b := 0x5C) (isRune_lower hs.isRune) (by decide) hlower hmem
  · exact not_mem_encode (b := 0x5C) hs.isRune (by decide) hs.no_backslash
      (List.mem_of_mem_drop hmem)

/-- What the parser makes of the token: the lowered name. -/
theorem canonicalize_reference {s : List Rune} (hs : NameText s) :
    canonicalize (encode (quoted (lower s))) = some ((encode (lower s)).map unspace) := by
  have hlower : rune '\x5c' ∉ lower s := not_mem_lower (by decide +kernel) hs.no_backslash
  have hlow : utf8Tolower (encode (lower s)) = some (encode (lower s)) := by
    rw [utf8Tolower_encode (isRune_lower hs.isRune), lower_lower, List.drop_length, List.append_nil]
  exact canonicalize_quoted (encode_quoted _) hlow
    (not_mem_encode (b := 0x5C) (isRune_lower hs.isRune) (by decide) hlower)

/-- A quoted name, in an equation of less than 2^31 bytes, refers to the variable exactly when
    each of its characters after the first is, in lower case, one that `lex_ident` takes, and
    none is a capital I with a dot. -/
theorem refersTo_iff {s : List Rune} (hs : NameText s) :
    RefersTo s ↔ (∀ r ∈ s.tail, wordRune true (tolowerrune r) = true) ∧ dottedI ∉ s := by
  obtain ⟨r, rest, rfl⟩ := List.exists_cons_of_ne_nil hs.ne_nil
  have hr : IsRune (tolowerrune r) := isRune_tolowerrune (hs.isRune r List.mem_cons_self)
  have hrest : ∀ q ∈ lower rest, IsRune q :=
    isRune_lower fun q hq => hs.isRune q (List.mem_cons_of_mem r hq)
  have hlower : lower (r :: rest) = tolowerrune r :: lower rest := rfl
  have hname := canonicalize_name hs
  have hsval := canonicalize_reference hs
  constructor
  · intro h
    obtain ⟨l, t, l', name, l'', hat, htok, -, hend, hstored, hident⟩ := h [] [] (by simp)
    obtain ⟨l0, text, hat0, htpeek, hpeek, hreads⟩ := atReference_at hs.isRune
      (show ∀ r ∈ ([] : List Rune) ++ [], IsRune r by simp)
    cases hat.symm.trans hat0
    rw [lexerNexttok_quote htpeek hpeek] at htok
    -- a bad character would end the token in front of the closing quote
    have htail : ∀ q ∈ lower rest, wordRune true q = true := by
      by_contra hno
      obtain ⟨q, hbad⟩ := not_forall.mp hno
      obtain ⟨hq, hbad⟩ := Classical.not_imp.mp hbad
      obtain ⟨b, hb⟩ : ∃ b, (lower rest).find? (fun q => !wordRune true q) = some b :=
        Option.isSome_iff_exists.mp (List.find?_isSome.mpr ⟨q, hq, by simpa using hbad⟩)
      obtain ⟨hb, good, more, hsplit, hgood⟩ := List.find?_eq_some_iff_append.mp hb
      have hbmem : b ∈ lower rest := by rw [hsplit]; simp
      have hquote : b ≠ rune '\x22' := by
        rintro rfl
        have hno : rune '\x22' ∉ rest := fun hmem => hs.no_quote (List.mem_cons_of_mem r hmem)
        exact not_mem_lower (by decide +kernel) hno hbmem
      rw [hlower, hsplit] at hreads hend
      obtain ⟨t', l1, hcut, hshort⟩ := lexIdent_cut hpeek hr
        (fun q hq => ⟨hrest q (by rw [hsplit]; simp [hq]), by simpa using hgood q hq⟩)
        (hrest b hbmem) (by simpa using hb) hquote hreads
      rw [hcut] at htok
      cases htok
      exact absurd hend hshort.ne
    refine ⟨fun q hq => htail _ (List.mem_map_of_mem hq), ?_⟩
    rw [hlower] at hreads
    have hclosed := lexIdent_closed hpeek hr (fun q hq => ⟨hrest q hq, htail q hq⟩) hreads
    have htok' := lexerNexttok_quote htpeek hpeek
    rw [hclosed] at htok'
    obtain ⟨l3, hident'⟩ := ident_of_nexttok htpeek htok' rfl hsval
    cases hident.symm.trans hident'
    have heq := Option.some.inj (hstored.symm.trans hname)
    have hlen := congrArg List.length heq
    have hle := length_encode_lower_le (r :: rest)
    simp only [List.length_map, List.length_append, List.length_drop] at hlen
    exact (length_encode_lower_iff _).mp (by omega)
  · rintro ⟨htail, hdot⟩ before behind hctx
    obtain ⟨l, text, hat, htpeek, hpeek, hreads⟩ := atReference_at hs.isRune hctx
    have hword : ∀ q ∈ lower rest, IsRune q ∧ wordRune true q = true := by
      intro q hq
      refine ⟨hrest q hq, ?_⟩
      obtain ⟨p, hp, rfl⟩ := List.mem_map.mp hq
      exact htail p hp
    have hclosed := lexIdent_closed hpeek hr hword hreads
    have htok := lexerNexttok_quote htpeek hpeek
    rw [hclosed] at htok
    obtain ⟨l'', hident⟩ := ident_of_nexttok htpeek htok rfl hsval
    have hend := (hreads.iterate (isRune_quoted (isRune_lower hs.isRune))).2
    rw [List.drop_of_length_le ((length_encode_lower_iff _).mpr hdot).ge, List.append_nil] at hname
    exact ⟨l, _, _, _, l'', hat, htok, rfl, hend, hname, hident⟩

/-- The runes of a name. -/
def nameRunes (s : String) : List Rune := s.toList.map rune

theorem refersTo_costPerUnit : NameText (nameRunes "Cost per Unit") ∧
    RefersTo (nameRunes "Cost per Unit") := by
  have hs : NameText (nameRunes "Cost per Unit") :=
    ⟨by decide +kernel, by decide +kernel, by decide +kernel, by decide +kernel⟩
  exact ⟨hs, (refersTo_iff hs).mpr ⟨by decide +kernel, by decide +kernel⟩⟩

/-- A name with a hyphen: in the equation the token ends in front of it. -/
theorem not_refersTo_hyphen : NameText (nameRunes "a-b") ∧
    canonicalize (encode (nameRunes "a-b")) = some (cstr "a-b") ∧
    (lexerInit (encode (quoted (nameRunes "a-b")))).bind (fun l => (lexerNexttok l).map (·.1)) =
      .ok (some { start := cstr "\"a", type := .ident }) ∧
    ¬ RefersTo (nameRunes "a-b") := by
  have hs : NameText (nameRunes "a-b") :=
    ⟨by decide +kernel, by decide +kernel, by decide +kernel, by decide +kernel⟩
  refine ⟨hs, by decide +kernel, by decide +kernel, fun h => ?_⟩
  obtain ⟨l, t, l', name, l'', hat, htok, -, hend, -⟩ := h [] [] (by simp)
  have hrun : (atReference [] (nameRunes "a-b") []).bind (fun l => (lexerNexttok l).map (·.2.pos)) =
      .ok 2 := by decide +kernel
  have hstart : (atReference [] (nameRunes "a-b") []).map (·.pos) = .ok 0 := by decide +kernel
  rw [hat] at hrun hstart
  simp only [Except.bind, htok, Except.map, Except.ok.injEq] at hrun hstart
  rw [hrun, hstart] at hend
  exact absurd hend (by decide +kernel)

end Libsd

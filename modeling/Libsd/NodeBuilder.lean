/-
  Libsd/NodeBuilder.lean
  ======================
  **The text of an XML element, from the pieces in which it arrives (`xml.c`).**

  `builder_stack_characters` trims every piece it is handed, and
  `node_builder_characters` appends what is left.  White space next to a cut is
  lost, and so is what a piece begins with if `isspace`, which is asked about whole
  runes, says that it is white space.  The content is the trimmed text exactly when
  no cut between two parts of the text touches white space and no piece begins with
  such a rune (`content_eq_trimmed_iff`).
-/
import Libsd.Lib.Trim
import Libsd.Strtod
import Libsd.Utf.Encode

namespace Libsd

open Utf Trim

/-- The field of a `NodeBuilder` that character data goes to. -/
structure NodeBuilder where
  content : Option CStr
deriving DecidableEq, Repr

/-- What can be on the stack; the `characters` of an `XmileBuilder` are NULL. -/
inductive Builder where
  | xmile
  | node (nb : NodeBuilder)
deriving DecidableEq, Repr

def nodeBuilderNew : NodeBuilder := { content := none }

def nodeBuilderCharacters (nb : NodeBuilder) (contents : CStr) : NodeBuilder :=
  match nb.content with
  | none => { content := some contents }
  | some c => { content := some (c ++ contents) }

def builderCharacters : Builder → CStr → Builder
  | .xmile, _ => .xmile
  | .node nb, contents => .node (nodeBuilderCharacters nb contents)

section
variable (C : Libc)

/-- The handler for a piece of text, with the builder on top of the stack. -/
def builderStackCharacters (b : Builder) (s : CStr) : Except Stop Builder := do
  let s ← strtrim C s
  if s.length ≠ 0 then return builderCharacters b s else return b

/-- The pieces of an element's text, delivered one after another. -/
def deliver : Builder → List CStr → Except Stop Builder
  | b, [] => .ok b
  | b, s :: pieces => do
    let b ← builderStackCharacters C b s
    deliver b pieces

end

/-! ### `strtrim` -/

variable {C : Libc}

theorem isspace_zero : C.isspace 0 = false := C.isspace_byte 0

theorem isWhite_of_not_ascii {c : UInt8} (hc : ¬ c.toNat < Tx) : isWhite c = false := by
  rw [← Bool.not_eq_true]
  intro h
  simp only [isWhite, Bool.or_eq_true, decide_eq_true_eq] at h
  refine hc ?_
  rcases h with rfl | ⟨-, h⟩
  · decide
  · exact Nat.lt_of_le_of_lt (UInt8.le_iff_toNat_le.mp h) (by decide)

theorem charntorune_pos {s : CStr} {n : Nat} {r : Rune} {k : Nat}
    (h : charntorune s n = some (r, k)) : 0 < k := by
  unfold charntorune at h
  split at h
  · obtain rfl : (chartorune s).2 = k := congrArg Prod.snd (Option.some.inj h)
    exact chartorune_pos s
  · cases h

/-- The last byte alone is no whole rune, unless it is ASCII. -/
theorem charntorune_one {c : UInt8} {t : CStr} (hc : ¬ c.toNat < Tx) :
    charntorune (c :: t) 1 = none := by
  have hfull : fullrune (c :: t) 1 = false := by
    simp only [fullrune, byteAt, List.getD_cons_zero, if_neg hc]
    split
    · simp_all
    · split
      · decide
      · split <;> decide
  rw [charntorune, hfull, if_neg Bool.false_ne_true]

/-- The first loop passes over the white space in front. -/
theorem strtrimFront_white (s : CStr) : strtrimFront C s.length s =
    strtrimFront C (s.dropWhile isWhite).length (s.dropWhile isWhite) := by
  induction s with
  | nil => rfl
  | cons c t ih =>
    by_cases hw : isWhite c = true
    · have hc : c.toNat < Tx := by
        by_contra hc
        rw [isWhite_of_not_ascii hc] at hw
        cases hw
      have hz : c.toNat ≠ 0 := by
        intro hz
        obtain rfl : c = 0 := UInt8.toNat_inj.mp hz
        cases hw
      have hsp : C.isspace c.toNat = true := (C.isspace_byte c).trans hw
      rw [List.dropWhile_cons_of_pos hw, ← ih, List.length_cons, strtrimFront,
        charntorune_ascii hc (List.length_pos_of_ne_nil (List.cons_ne_nil c t)).ne']
      simp only [hz, hsp, decide_false, Bool.not_true, Bool.or_self, Bool.false_eq_true, if_false,
        List.drop_succ_cons, List.drop_zero]
    · rw [List.dropWhile_cons_of_neg hw]

theorem strtrimFront_suffix (fuel : Nat) (s : CStr) : strtrimFront C fuel s <:+ s := by
  induction fuel generalizing s with
  | zero => exact List.suffix_refl s
  | succ fuel ih =>
    rw [strtrimFront]
    split
    · exact List.suffix_refl s
    · split
      · exact List.suffix_refl s
      · exact (ih _).trans (List.drop_suffix _ s)

/-- What the first loop leaves does not begin with white space. -/
theorem strtrimFront_head {fuel : Nat} {s : CStr} (h : s.length ≤ fuel) :
    ∀ c ∈ (strtrimFront C fuel s).head?, isWhite c = false := by
  induction fuel generalizing s with
  | zero =>
    obtain rfl := List.eq_nil_of_length_eq_zero (Nat.le_zero.mp h)
    exact nofun
  | succ fuel ih =>
    cases s with
    | nil => exact nofun
    | cons c t =>
      rw [strtrimFront]
      split
      · next hnone =>
        rintro _ ⟨⟩
        refine isWhite_of_not_ascii fun hc => ?_
        rw [charntorune_ascii hc (List.length_pos_of_ne_nil (List.cons_ne_nil c t)).ne'] at hnone
        cases hnone
      · next r n hr =>
        split
        · next hstop =>
          rintro _ ⟨⟩
          by_cases hc : c.toNat < Tx
          · rw [charntorune_ascii hc (List.length_pos_of_ne_nil (List.cons_ne_nil c t)).ne'] at hr
            cases hr
            rw [← C.isspace_byte]
            rcases Bool.or_eq_true _ _ ▸ hstop with hz | hsp
            · rw [of_decide_eq_true hz, isspace_zero]
            · simpa using hsp
          · exact isWhite_of_not_ascii hc
        · refine ih ?_
          have hn : 0 < n := charntorune_pos hr
          rw [List.length_drop]
          omega

/-- One byte is tried at a time: a last byte that is not ASCII ends the loop. -/
theorem strtrimBack_eq {s : CStr} {fuel len : Nat} (hlen : len ≤ s.length) (hfuel : len < fuel) :
    strtrimBack C s fuel len 1 = .ok ((s.take len).rdropWhile isWhite).length := by
  induction fuel generalizing len with
  | zero => omega
  | succ fuel ih =>
    cases len with
    | zero => rfl
    | succ len =>
      have hget : len < s.length := hlen
      have hdrop : s.drop (len + 1 - 1) = s[len] :: s.drop (len + 1) := by
        rw [Nat.add_sub_cancel, List.drop_eq_getElem_cons hget]
      rw [strtrimBack, if_neg (Nat.succ_ne_zero len), if_neg (by omega), hdrop,
        List.take_succ_eq_append_getElem hget]
      by_cases hc : s[len].toNat < Tx
      · have hne : s[len].toNat ≠ Runeerror := by
          rw [Tx] at hc
          rw [Runeerror]
          omega
        rw [charntorune_ascii hc Nat.one_ne_zero]
        have hspace := C.isspace_byte s[len]
        by_cases hw : isWhite s[len] = true
        · simp only [if_neg hne, hspace, hw, Bool.not_true, Bool.false_eq_true, if_false]
          rw [Nat.add_sub_cancel, ih (by omega) (by omega), List.rdropWhile_concat_pos _ _ _ hw]
        · rw [Bool.not_eq_true] at hw
          simp only [if_neg hne, hspace, hw, Bool.not_false, if_true]
          rw [List.rdropWhile_concat_neg _ _ _ (by simp [hw]), List.length_append,
            List.length_take, min_eq_left (by omega), List.length_singleton]
      · rw [charntorune_one hc,
          List.rdropWhile_concat_neg _ _ _ (by simp [isWhite_of_not_ascii hc]),
          List.length_append, List.length_take, min_eq_left (by omega), List.length_singleton]

variable (C) in
/-- What `strtrim` leaves of a text. -/
def strtrimmed (s : CStr) : CStr := trim isWhite (strtrimFront C s.length s)

theorem strtrim_eq (s : CStr) : strtrim C s = .ok (strtrimmed C s) := by
  have hhead := dropWhile_eq_self (strtrimFront_head (C := C) (le_refl s.length))
  simp only [strtrim, bind, Except.bind, strtrimBack_eq (le_refl _) (Nat.lt_succ_self _),
    List.take_length, pure, Except.pure]
  rw [strtrimmed, trim, hhead,
    List.prefix_iff_eq_take.mp (List.rdropWhile_prefix isWhite (strtrimFront C s.length s))]
  simp

/-! ### Runes past a byte -/

variable (C) in
/-- Behind its white space, the text does not begin with a rune that `isspace` takes for
    white space too. -/
def KeepsFirst (s : CStr) : Prop :=
  ∀ u, charntorune (s.dropWhile isWhite) (s.dropWhile isWhite).length = some u →
    C.isspace u.1 = false

/-- The bytes of a text that are not white space. -/
def inked (s : CStr) : Nat := s.countP fun c => !isWhite c

theorem inked_append (s t : CStr) : inked (s ++ t) = inked s + inked t := List.countP_append

theorem inked_dropWhile (s : CStr) : inked (s.dropWhile isWhite) = inked s := by
  induction s with
  | nil => rfl
  | cons c s ih =>
    by_cases hw : isWhite c = true
    · rw [List.dropWhile_cons_of_pos hw, ih, inked, inked, List.countP_cons_of_neg (by simp [hw])]
    · rw [List.dropWhile_cons_of_neg hw]

theorem inked_trim (s : CStr) : inked (trim isWhite s) = inked s := by
  rw [trim, List.rdropWhile, inked, List.countP_reverse, ← inked, inked_dropWhile, inked,
    List.countP_reverse, ← inked, inked_dropWhile]

/-- `strtrim` takes the white space away, and nothing else just when the first rune is kept. -/
theorem strtrimmed_of_keeps {s : CStr} (h : KeepsFirst C s) :
    strtrimmed C s = trim isWhite s := by
  have hfront : strtrimFront C (s.dropWhile isWhite).length (s.dropWhile isWhite) =
      s.dropWhile isWhite := by
    rw [KeepsFirst] at h
    generalize s.dropWhile isWhite = t at h
    cases t with
    | nil => rfl
    | cons c t =>
      rw [List.length_cons, strtrimFront]
      split
      · rfl
      · next r n hr =>
        rw [if_pos (by simp [h _ hr])]
  rw [strtrimmed, strtrimFront_white, hfront, trim, dropWhile_eq_self (dropWhile_head s), trim]

theorem inked_lt_of_not_keeps {s : CStr} (h : ¬ KeepsFirst C s) :
    inked (strtrimmed C s) < inked s := by
  rw [KeepsFirst] at h
  push Not at h
  obtain ⟨⟨r, n⟩, hr, hspace⟩ := h
  replace hspace : C.isspace r = true := by simpa using hspace
  have hhead := dropWhile_head (p := isWhite) s
  rw [strtrimmed, inked_trim, strtrimFront_white, ← inked_dropWhile s]
  generalize s.dropWhile isWhite = t at hr hhead
  cases t with
  | nil => cases hr
  | cons c t =>
    have hz : r ≠ 0 := fun hz => by simp [hz, isspace_zero] at hspace
    have hn : 0 < n := charntorune_pos hr
    have hsuffix : strtrimFront C (c :: t).length (c :: t) <:+ t := by
      rw [List.length_cons, strtrimFront, hr]
      simp only [hz, hspace, decide_false, Bool.not_true, Bool.or_self, Bool.false_eq_true,
        if_false]
      obtain ⟨k, rfl⟩ : ∃ k, n = k + 1 := ⟨n - 1, by omega⟩
      exact (strtrimFront_suffix _ _).trans (List.drop_suffix k t)
    calc inked (strtrimFront C (c :: t).length (c :: t)) ≤ inked t :=
        hsuffix.sublist.countP_le
      _ < inked (c :: t) := by
        rw [inked, inked, List.countP_cons_of_pos (by simp [hhead c rfl])]
        exact Nat.lt_succ_self _

theorem inked_le (s : CStr) : inked (strtrimmed C s) ≤ inked s := by
  by_cases h : KeepsFirst C s
  · rw [strtrimmed_of_keeps h, inked_trim]
  · exact (inked_lt_of_not_keeps h).le

/-! ### Delivering the pieces -/

/-- The text without the white space around it; nothing when it is blank. -/
def trimmed (s : CStr) : Option CStr := if trim isWhite s = [] then none else some (trim isWhite s)

theorem builderStackCharacters_node (c : Option CStr) (s : CStr) :
    builderStackCharacters C (.node ⟨c⟩) s = .ok (.node ⟨
      if strtrimmed C s = [] then c else some (c.getD [] ++ strtrimmed C s)⟩) := by
  simp only [builderStackCharacters, strtrim_eq, bind, Except.bind, ne_eq, List.length_eq_zero_iff]
  by_cases hs : strtrimmed C s = []
  · simp [hs, pure, Except.pure]
  · cases c <;> simp [hs, pure, Except.pure, builderCharacters, nodeBuilderCharacters]

/-- The content is what the trimmed pieces make up, if that is anything. -/
theorem deliver_eq (c : Option CStr) (pieces : List CStr) :
    deliver C (.node ⟨c⟩) pieces = .ok (.node ⟨
      if (pieces.map (strtrimmed C)).flatten = [] then c
      else some (c.getD [] ++ (pieces.map (strtrimmed C)).flatten)⟩) := by
  induction pieces generalizing c with
  | nil => rfl
  | cons s pieces ih =>
    simp only [deliver, builderStackCharacters_node, bind, Except.bind, ih, List.map_cons,
      List.flatten_cons, List.append_eq_nil_iff]
    by_cases hs : strtrimmed C s = []
    · simp [hs]
    · by_cases hrest : (pieces.map (strtrimmed C)).flatten = []
      · simp [hs, hrest]
      · simp [hs, hrest]

theorem inked_flatten_le (pieces : List CStr) :
    inked (pieces.map (strtrimmed C)).flatten ≤ inked pieces.flatten := by
  induction pieces with
  | nil => exact Nat.le_refl _
  | cons s pieces ih =>
    rw [List.map_cons, List.flatten_cons, List.flatten_cons, inked_append, inked_append]
    exact Nat.add_le_add (inked_le s) ih

/-- When no byte but white space is lost, each piece keeps its first rune. -/
theorem keeps_of_inked_le {pieces : List CStr}
    (h : inked pieces.flatten ≤ inked (pieces.map (strtrimmed C)).flatten) :
    ∀ s ∈ pieces, KeepsFirst C s := by
  induction pieces with
  | nil => exact nofun
  | cons s pieces ih =>
    rw [List.map_cons, List.flatten_cons, List.flatten_cons, inked_append, inked_append] at h
    have hle := inked_le (C := C) s
    have hrest := inked_flatten_le (C := C) pieces
    refine List.forall_mem_cons.mpr ⟨?_, ih (by omega)⟩
    by_contra hlost
    have hlt := inked_lt_of_not_keeps hlost
    omega

/-- The content of an element is its trimmed text exactly when no cut with text on both
    sides touches white space, and no piece begins with a rune past a byte that `isspace`
    takes for it. -/
theorem content_eq_trimmed_iff (C : Libc) (pieces : List CStr) :
    deliver C (.node nodeBuilderNew) pieces = .ok (.node ⟨trimmed pieces.flatten⟩) ↔
      AllJoin isWhite pieces ∧ ∀ s ∈ pieces, KeepsFirst C s := by
  have hcontent : deliver C (.node nodeBuilderNew) pieces =
      .ok (.node ⟨trimmed pieces.flatten⟩) ↔
      (pieces.map (strtrimmed C)).flatten = trim isWhite pieces.flatten := by
    rw [nodeBuilderNew, deliver_eq, trimmed]
    simp only [Except.ok.injEq, Builder.node.injEq, NodeBuilder.mk.injEq, Option.getD_none,
      List.nil_append]
    constructor
    · intro h
      split_ifs at h with h1 h2
      · rw [h1, h2]
      · exact Option.some.inj h
    · intro h
      rw [h]
  rw [hcontent]
  constructor
  · intro h
    have hkeeps : ∀ s ∈ pieces, KeepsFirst C s :=
      keeps_of_inked_le (by rw [h, inked_trim])
    refine ⟨?_, hkeeps⟩
    rwa [List.map_congr_left fun s hs => strtrimmed_of_keeps (hkeeps s hs),
      flatten_map_trim_iff] at h
  · rintro ⟨hjoin, hkeeps⟩
    rw [List.map_congr_left fun s hs => strtrimmed_of_keeps (hkeeps s hs)]
    exact (flatten_map_trim_iff pieces).mpr hjoin

/-- A line break between two words is lost. -/
theorem content_loses_lineBreak :
    deliver plainLibc (.node nodeBuilderNew) [cstr "if a", cstr "\n", cstr "then b else c"] =
      .ok (.node ⟨some (cstr "if athen b else c")⟩) ∧
    trimmed [cstr "if a", cstr "\n", cstr "then b else c"].flatten =
      some (cstr "if a\nthen b else c") ∧
    deliver plainLibc (.node nodeBuilderNew) [cstr "if a\nthen b else c"] ≠
      deliver plainLibc (.node nodeBuilderNew) [cstr "if a", cstr "\n", cstr "then b else c"] := by
  decide +kernel

end Libsd

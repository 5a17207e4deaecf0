/-
  Libsd/TablePoints.lean
  ======================
  **Loading a graphical function: `table_from_node_builder` of `xml.c`.**

  The commas of `ypts` say how many points there are, and both lists are read with a
  pointer that moves on past each separator.  The list of the `y`s has as many items as
  that; the list of the `x`s may have fewer, and then the pointer is behind the end of the
  text when it is read next.  What is read may be an infinity or a NaN, and so may the
  points of a scale, which are rounded as they are computed.
-/
import Libsd.Elements

namespace Libsd

/-- Why the loader does not return. -/
inductive TableFault where
  | overread           -- `strtod` is called behind the NUL of a text
  | nullText           -- `strtod` is called on NULL
  | divZero            -- the scale of a single point
deriving DecidableEq, Repr

/-- An array with one element more in front. -/
def pushPoint {α : Type} {n : Nat} (v : α) (a : {a : List α // a.length = n}) :
    {a : List α // a.length = n + 1} :=
  ⟨v :: a.1, by rw [List.length_cons, a.2]⟩

/-- The numbers in an array of doubles, if there is nothing else in it. -/
def numbersOf : (l : List Double) → Option {a : List ℚ // a.length = l.length}
  | [] => some ⟨[], rfl⟩
  | d :: l =>
    match d.number?, numbersOf l with
    | some q, some a => some (pushPoint q a)
    | _, _ => none

/-- A graphical function as it is loaded. -/
structure LoadedTable where
  x : List Double
  y : List Double
  len_eq : y.length = x.length
deriving DecidableEq, Repr

def LoadedTable.len (t : LoadedTable) : Nat := t.x.length

/-- The table, if all its points are numbers. -/
def LoadedTable.table (t : LoadedTable) : Option Table :=
  match numbersOf t.x, numbersOf t.y with
  | some x, some y => some { x := x.1, y := y.1, len_eq := y.2.trans (t.len_eq.trans x.2.symm) }
  | _, _ => none

section
variable (C : Libc)

/-- The loop over one list of points; `pts` is the text behind the pointer, or nothing when
    the pointer is behind the NUL. -/
def scanPoints : (n : Nat) → Option CStr → Except TableFault
    (Option {a : List Double // a.length = n})
  | 0, _ => .ok (some ⟨[], rfl⟩)
  | _ + 1, none => .error .overread
  | n + 1, some s =>
    let v := (C.strtod s).1
    let pts := (C.strtod s).2
    if C.erange s = true ∨ pts ≠ [] ∧ pts.head? ≠ some COMMA then .ok none
    else (scanPoints n (if pts = [] then none else some pts.tail)).map (Option.map (pushPoint v))

/-- An end of the scale, by `atof`: 0 when the attribute is missing. -/
def scaleEnd (xscale : Element) (name : CStr) : Double :=
  match nodeBuilderGetAttr xscale name with
  | some s => (C.strtod s).1
  | none => .num 0

/-- The `x`s computed from the scale. -/
def scalePoints (n : Nat) (xmin xmax : Double) :
    Except TableFault {a : List Double // a.length = n} :=
  if n = 1 then .error .divZero
  else .ok ⟨(List.range n).map (C.arith.point n xmin xmax), by
    rw [List.length_map, List.length_range]⟩

/-- The loop over the `x`s, or the scale in their place. -/
def xPoints (nb : Element) (n : Nat) : Except TableFault
    (Option {a : List Double // a.length = n}) :=
  match nodeBuilderGetFirstChild nb (cstr "xpts") with
  | some xpts =>
    match xpts.content with
    | none => .error .nullText
    | some text => scanPoints C n (some text)
  | none =>
    match nodeBuilderGetFirstChild nb (cstr "xscale") with
    | none => .ok none
    | some xscale => do
      let a ← scalePoints C n (scaleEnd C xscale (cstr "min")) (scaleEnd C xscale (cstr "max"))
      return some a

/-- `none` is NULL. -/
def tableFromNodeBuilder (nb : Element) : Except TableFault (Option LoadedTable) :=
  match childContent nb (cstr "ypts") with
  | none => .ok none
  | some ypts => do
    let n := ypts.count COMMA + 1
    match ← scanPoints C n (some ypts) with
    | none => return none
    | some y =>
      match ← xPoints C nb n with
      | none => return none
      | some x => return some { x := x.1, y := y.1, len_eq := y.2.trans x.2.symm }

end

/-! ### Lists of items -/

/-- What stands between the commas of a text. -/
def items (s : CStr) : List CStr := s.splitOn COMMA

theorem items_of_not_mem {s : CStr} (h : COMMA ∉ s) : items s = [s] := List.splitOn_eq_singleton h

theorem items_append {s t : CStr} (h : COMMA ∉ s) : items (s ++ COMMA :: t) = s :: items t :=
  List.splitOn_append_cons_self_of_not_mem h t

/-- One item more than there are commas. -/
theorem length_items (s : CStr) : (items s).length = s.count COMMA + 1 := by
  induction h : s.length using Nat.strong_induction_on generalizing s with
  | _ n ih =>
    by_cases hmem : COMMA ∈ s
    · obtain ⟨a, t, rfl, ha⟩ := List.eq_append_cons_of_mem hmem
      have hlt : t.length < n := by
        rw [← h, List.length_append, List.length_cons]
        omega
      rw [items_append ha, List.length_cons, ih t.length hlt t rfl, List.count_append,
        List.count_eq_zero.mpr ha, List.count_cons_self, Nat.zero_add]
    · rw [items_of_not_mem hmem, List.count_eq_zero.mpr hmem]
      rfl

section
variable {C : Libc}

/-- The loop returns NULL at such an item: it is out of range, or there is more than a number. -/
def Libc.Bad (C : Libc) (item : CStr) : Prop := C.erange item = true ∨ (C.strtod item).2 ≠ []

instance (item : CStr) : Decidable (C.Bad item) := inferInstanceAs (Decidable (_ ∨ _))

def Libc.number (C : Libc) (item : CStr) : Double := (C.strtod item).1

/-- What the loop makes of the items of a list. -/
inductive Scanned (C : Libc) (n : Nat) (l : List CStr) :
    Except TableFault (Option {a : List Double // a.length = n}) → Prop where
  | bad (h : ∃ item ∈ l.take n, C.Bad item) : Scanned C n l (.ok none)
  | points (a : {a : List Double // a.length = n}) (h : ∀ item ∈ l.take n, ¬ C.Bad item)
      (hn : n ≤ l.length) (ha : a.1 = (l.take n).map C.number) : Scanned C n l (.ok (some a))
  | overread (h : ∀ item ∈ l, ¬ C.Bad item) (hn : l.length < n) : Scanned C n l (.error .overread)

/-- One turn of the loop takes one item. -/
theorem Scanned.cons {n : Nat} {item : CStr} {l : List CStr} (hitem : ¬ C.Bad item)
    {r : Except TableFault (Option {a : List Double // a.length = n})} (h : Scanned C n l r) :
    Scanned C (n + 1) (item :: l) (r.map (Option.map (pushPoint (C.number item)))) := by
  cases h with
  | bad hbad =>
    obtain ⟨b, hb, hb'⟩ := hbad
    exact .bad ⟨b, List.mem_cons_of_mem _ hb, hb'⟩
  | points a hgood hn ha =>
    refine .points _ ?_ (Nat.succ_le_succ hn) ?_
    · rw [List.take_succ_cons, List.forall_mem_cons]
      exact ⟨hitem, hgood⟩
    · rw [List.take_succ_cons, List.map_cons, ← ha]
      rfl
  | overread hgood hn =>
    exact .overread (List.forall_mem_cons.mpr ⟨hitem, hgood⟩) (Nat.succ_lt_succ hn)

/-- Behind the last item there is nothing to read. -/
theorem scanPoints_end (n : Nat) : Scanned C n [] (scanPoints C n none) := by
  cases n with
  | zero => exact .points _ nofun (Nat.le_refl 0) rfl
  | succ n => exact .overread nofun (Nat.succ_pos n)

/-- The number in an item is followed by a comma only if the item is. -/
theorem Libc.head_ne_comma {item : CStr} (h : COMMA ∉ item) (hne : (C.strtod item).2 ≠ [])
    (t : CStr) : ((C.strtod item).2 ++ t).head? ≠ some COMMA := by
  obtain ⟨c, rest, heq⟩ := List.exists_cons_of_ne_nil hne
  have hmem : c ∈ item := (C.suffix item).mem (heq ▸ List.mem_cons_self)
  rw [heq, List.cons_append, List.head?_cons]
  intro hc
  exact h (Option.some.inj hc ▸ hmem)

/-- The loop reads the items one by one. -/
theorem scanPoints_scanned : ∀ (n : Nat) (s : CStr), Scanned C n (items s)
    (scanPoints C n (some s)) := by
  intro n
  induction n with
  | zero => exact fun s => .points _ nofun (Nat.zero_le _) rfl
  | succ n ih =>
    intro s
    rw [scanPoints]
    by_cases hmem : COMMA ∈ s
    · obtain ⟨a, t, rfl, ha⟩ := List.eq_append_cons_of_mem hmem
      rw [items_append ha, C.behind a t ha, C.erange_behind a t ha]
      by_cases hbad : C.Bad a
      · have hstop : C.erange a = true ∨ (C.strtod a).2 ++ COMMA :: t ≠ [] ∧
            ((C.strtod a).2 ++ COMMA :: t).head? ≠ some COMMA :=
          hbad.imp_right fun hne => ⟨by simp, C.head_ne_comma ha hne _⟩
        rw [if_pos hstop]
        exact .bad ⟨a, List.mem_cons_self, hbad⟩
      · obtain ⟨hrange, hrest⟩ := not_or.mp hbad
        rw [not_not] at hrest
        have hgo : ¬ (C.erange a = true ∨ (C.strtod a).2 ++ COMMA :: t ≠ [] ∧
            ((C.strtod a).2 ++ COMMA :: t).head? ≠ some COMMA) := by
          rw [hrest]
          simp [hrange]
        rw [if_neg hgo, hrest, List.nil_append, if_neg (List.cons_ne_nil _ _), List.tail_cons]
        exact (ih t).cons hbad
    · rw [items_of_not_mem hmem]
      by_cases hbad : C.Bad s
      · have hstop : C.erange s = true ∨ (C.strtod s).2 ≠ [] ∧
          (C.strtod s).2.head? ≠ some COMMA := by
          refine hbad.imp_right fun hne => ⟨hne, ?_⟩
          have hhead := C.head_ne_comma hmem hne []
          rwa [List.append_nil] at hhead
        rw [if_pos hstop]
        exact .bad ⟨s, List.mem_cons_self, hbad⟩
      · obtain ⟨hrange, hrest⟩ := not_or.mp hbad
        rw [not_not] at hrest
        have hgo :
            ¬ (C.erange s = true ∨ (C.strtod s).2 ≠ [] ∧ (C.strtod s).2.head? ≠ some COMMA) := by
          rw [hrest]
          simp [hrange]
        rw [if_neg hgo, if_pos hrest]
        exact (scanPoints_end n).cons hbad

/-- The doubles of an array do not fall, and there is no NaN among them. -/
def Nondecreasing (l : List Double) : Prop :=
  ∀ i j : Nat, i ≤ j → ∀ a ∈ l[i]?, ∀ b ∈ l[j]?, a ≤ b

theorem nondecreasing_range {n : Nat} {p : Nat → Double} :
    Nondecreasing ((List.range n).map p) ↔ ∀ i j, i ≤ j → j < n → p i ≤ p j := by
  constructor
  · intro h i j hij hj
    refine h i j hij _ ?_ _ ?_
    · simp [hij.trans_lt hj]
    · simp [hj]
  · intro h i j hij a ha b hb
    obtain ⟨hi, rfl⟩ := List.getElem?_eq_some_iff.mp ha
    obtain ⟨hj, rfl⟩ := List.getElem?_eq_some_iff.mp hb
    rw [List.length_map, List.length_range] at hj
    rw [List.getElem_map, List.getElem_map, List.getElem_range, List.getElem_range]
    exact h i j hij hj

/-- The ends of a scale are in order, and no further apart than a double can be. -/
def Libc.Rises (C : Libc) (xmin xmax : Double) : Prop :=
  ∃ a b d, xmin = .num a ∧ xmax = .num b ∧ a ≤ b ∧ C.arith.round (b - a) = .num d

theorem scaleEnd_value {xscale : Element} {name : CStr} {q : ℚ}
    (h : scaleEnd C xscale name = .num q) : C.arith.Value q := by
  rw [scaleEnd] at h
  split at h
  · exact C.value h
  · cases h
    exact C.arith.zero

/-- The scale rises from its first to its last point if it rises at all. -/
theorem scalePoints_nondecreasing {n : Nat} (hn : 2 ≤ n) {xscale : Element} {lo hi : CStr}
    {a : {a : List Double // a.length = n}}
    (ha : scalePoints C n (scaleEnd C xscale lo) (scaleEnd C xscale hi) = .ok a) :
    Nondecreasing a.1 ↔ C.Rises (scaleEnd C xscale lo) (scaleEnd C xscale hi) := by
  rw [scalePoints, if_neg (by omega)] at ha
  obtain rfl := Except.ok.inj ha
  rw [nondecreasing_range, Libc.Rises, ← Rounding.scale_sorted_iff hn (fun _ => scaleEnd_value)
    fun _ => scaleEnd_value]
  refine forall_congr' fun i => forall_congr' fun j => forall_congr' fun _ => ?_
  rw [show j < n ↔ j ≤ n - 1 by omega]

/-! ### Tables fit for `lookup` -/

/-- The values are those of numbers given in the text, in order from its start. -/
structure Given (C : Libc) (text : CStr) (vs : List Double) : Prop where
  enough : vs.length ≤ (items text).length
  numbers : ∀ item ∈ (items text).take vs.length, item ≠ [] ∧ ¬ C.Bad item
  values : vs = ((items text).take vs.length).map C.number

/-- The table has a point, as many `x`s as `y`s, given in the file or computed from the
    scale, and nondecreasing `x`s. -/
structure FitTable (C : Libc) (nb : Element) (t : LoadedTable) : Prop where
  len : 1 ≤ t.len
  ys : ∃ ypts, childContent nb (cstr "ypts") = some ypts ∧ t.y.length = (items ypts).length ∧
    Given C ypts t.y
  xs : (∃ xpts, childContent nb (cstr "xpts") = some xpts ∧ Given C xpts t.x) ∨
    nodeBuilderGetFirstChild nb (cstr "xpts") = none ∧
    ∃ xscale, nodeBuilderGetFirstChild nb (cstr "xscale") = some xscale ∧
      (scalePoints C t.len (scaleEnd C xscale (cstr "min")) (scaleEnd C xscale (cstr "max"))).map
        Subtype.val = .ok t.x
  sorted : Nondecreasing t.x

/-- NULL is returned, or something like that. -/
def Loads {α : Type} (r : Except TableFault (Option α)) (P : α → Prop) : Prop :=
  r = .ok none ∨ ∃ a, r = .ok (some a) ∧ P a

/-- The loader returns NULL or a table that is fit for `lookup`, and reads nothing behind the
    end of a text. -/
def LoadsFit (C : Libc) (nb : Element) : Prop := Loads (tableFromNodeBuilder C nb) (FitTable C nb)

theorem loads_none {α : Type} {P : α → Prop} : Loads (.ok none) P := .inl rfl

theorem not_loads_error {α : Type} {e : TableFault} {P : α → Prop} : ¬ Loads (.error e) P := by
  intro h
  rcases h with h | ⟨a, h, -⟩
  · cases h
  · cases h

theorem loads_some {α : Type} {a : α} {P : α → Prop} : Loads (.ok (some a)) P ↔ P a := by
  constructor
  · intro h
    rcases h with h | ⟨a', h, ha⟩
    · cases h
    · cases h
      exact ha
  · exact fun h => .inr ⟨a, rfl, h⟩

theorem loads_map {α β : Type} {r : Except TableFault (Option α)} {f : α → β} {P : β → Prop} :
    Loads (r.map (Option.map f)) P ↔ Loads r fun a => P (f a) := by
  cases r with
  | error e => exact iff_of_false not_loads_error not_loads_error
  | ok a =>
    cases a with
    | none => exact iff_of_true loads_none loads_none
    | some a =>
      rw [loads_some]
      exact loads_some

/-- What an element has to give for the `x`s of `n` points. -/
inductive XsSound (C : Libc) (nb : Element) (n : Nat) (ysGiven : Prop) : Prop where
  /-- an item among them that is refused -/
  | refused {xpts : Element} {text : CStr}
      (hxpts : nodeBuilderGetFirstChild nb (cstr "xpts") = some xpts)
      (htext : xpts.content = some text) (hbad : ∃ item ∈ (items text).take n, C.Bad item)
  /-- a list of at least that many numbers, in order -/
  | listed {xpts : Element} {text : CStr}
      (hxpts : nodeBuilderGetFirstChild nb (cstr "xpts") = some xpts)
      (htext : xpts.content = some text) (hys : ysGiven) (hn : n ≤ (items text).length)
      (hnumbers : ∀ item ∈ (items text).take n, item ≠ [] ∧ ¬ C.Bad item)
      (hsorted : Nondecreasing (((items text).take n).map C.number))
  /-- neither a list nor a scale -/
  | missing (hxpts : nodeBuilderGetFirstChild nb (cstr "xpts") = none)
      (hxscale : nodeBuilderGetFirstChild nb (cstr "xscale") = none)
  /-- a scale whose ends are numbers that do not fall, for two points or more -/
  | scaled {xscale : Element} (hxpts : nodeBuilderGetFirstChild nb (cstr "xpts") = none)
      (hxscale : nodeBuilderGetFirstChild nb (cstr "xscale") = some xscale) (hys : ysGiven)
      (hn : 2 ≤ n) (hle : C.Rises (scaleEnd C xscale (cstr "min")) (scaleEnd C xscale (cstr "max")))

/-- When no item of `ypts` is refused, none is missing, and there are `x`s for them. -/
def PointsSound (C : Libc) (nb : Element) : Prop :=
  ∀ ypts, childContent nb (cstr "ypts") = some ypts → (∀ item ∈ items ypts, ¬ C.Bad item) →
    XsSound C nb (items ypts).length (∀ item ∈ items ypts, item ≠ [])

/-! ### When the loader keeps to that -/

theorem given_iff (text : CStr) {n : Nat} (hn : n ≤ (items text).length) :
    Given C text (((items text).take n).map C.number) ↔
      ∀ item ∈ (items text).take n, item ≠ [] ∧ ¬ C.Bad item := by
  have hlen : (((items text).take n).map C.number).length = n := by
    rw [List.length_map, List.length_take, Nat.min_eq_left hn]
  constructor
  · intro h
    have hnumbers := h.numbers
    rwa [hlen] at hnumbers
  · intro h
    refine ⟨hlen.symm ▸ hn, ?_, ?_⟩
    · rwa [hlen]
    · rw [hlen]

/-- The table of some `y`s and `x`s. -/
def tableOf {n : Nat} (y x : {a : List Double // a.length = n}) : LoadedTable :=
  { x := x.1, y := y.1, len_eq := y.2.trans x.2.symm }

/-- Behind the first loop the rest is up to the `x`s. -/
theorem tableFromNodeBuilder_of_ys {nb : Element} {ypts : CStr}
    (hypts : childContent nb (cstr "ypts") = some ypts)
    (hgood : ∀ item ∈ items ypts, ¬ C.Bad item) :
    ∃ y : {a : List Double // a.length = ypts.count COMMA + 1}, y.1 = (items ypts).map C.number ∧
      tableFromNodeBuilder C nb = (xPoints C nb (ypts.count COMMA + 1)).map
        (Option.map (tableOf y)) := by
  have hlen := length_items ypts
  have hscan := scanPoints_scanned (C := C) (ypts.count COMMA + 1) ypts
  have htake : (items ypts).take (ypts.count COMMA + 1) = items ypts :=
    List.take_of_length_le hlen.le
  simp only [tableFromNodeBuilder, hypts, bind, Except.bind]
  generalize scanPoints C (ypts.count COMMA + 1) (some ypts) = r at hscan ⊢
  cases hscan with
  | bad hbad =>
    rw [htake] at hbad
    obtain ⟨item, hitem, hbad⟩ := hbad
    exact absurd hbad (hgood item hitem)
  | points y _ _ hy =>
    rw [htake] at hy
    refine ⟨y, hy, ?_⟩
    cases xPoints C nb (ypts.count COMMA + 1) with
    | error e => rfl
    | ok x => cases x <;> rfl
  | overread _ hlt => exact absurd hlt (by omega)

theorem tableFromNodeBuilder_of_bad {nb : Element} {ypts : CStr}
    (hypts : childContent nb (cstr "ypts") = some ypts) (hbad : ∃ item ∈ items ypts, C.Bad item) :
    tableFromNodeBuilder C nb = .ok none := by
  have hlen := length_items ypts
  have hscan := scanPoints_scanned (C := C) (ypts.count COMMA + 1) ypts
  obtain ⟨item, hitem, hbad⟩ := hbad
  simp only [tableFromNodeBuilder, hypts, bind, Except.bind]
  generalize scanPoints C (ypts.count COMMA + 1) (some ypts) = r at hscan ⊢
  cases hscan with
  | bad => rfl
  | points _ hgood =>
    rw [List.take_of_length_le hlen.le] at hgood
    exact absurd hbad (hgood item hitem)
  | overread hgood => exact absurd hbad (hgood item hitem)

/-- What `xPoints` makes of a list, and of a scale. -/
theorem xPoints_list {nb xpts : Element} {text : CStr} {n : Nat}
    (hxpts : nodeBuilderGetFirstChild nb (cstr "xpts") = some xpts)
    (htext : xpts.content = some text) :
    Scanned C n (items text) (xPoints C nb n) := by
  rw [xPoints, hxpts]
  simp only [htext]
  exact scanPoints_scanned n text

theorem xPoints_scale {nb xscale : Element} {n : Nat}
    (hxpts : nodeBuilderGetFirstChild nb (cstr "xpts") = none)
    (hxscale : nodeBuilderGetFirstChild nb (cstr "xscale") = some xscale) :
    xPoints C nb n =
      (scalePoints C n (scaleEnd C xscale (cstr "min")) (scaleEnd C xscale (cstr "max"))).map
        some := by
  rw [xPoints, hxpts]
  simp only [hxscale]
  cases scalePoints C n (scaleEnd C xscale (cstr "min")) (scaleEnd C xscale (cstr "max")) <;> rfl

/-- The `y`s of the table are given when none of them is missing. -/
theorem ysGiven_iff {nb : Element} {ypts : CStr} {n : Nat} {y : {a : List Double // a.length = n}}
    (hypts : childContent nb (cstr "ypts") = some ypts) (hn : n = (items ypts).length)
    (hgood : ∀ item ∈ items ypts, ¬ C.Bad item) (hy : y.1 = (items ypts).map C.number) :
    (∃ ypts, childContent nb (cstr "ypts") = some ypts ∧ y.1.length = (items ypts).length ∧
      Given C ypts y.1) ↔ ∀ item ∈ items ypts, item ≠ [] := by
  have htake : (items ypts).take n = items ypts := List.take_of_length_le hn.ge
  have hgiven : Given C ypts y.1 ↔ ∀ item ∈ items ypts, item ≠ [] ∧ ¬ C.Bad item := by
    have h := given_iff (C := C) ypts hn.le
    rwa [htake, ← hy] at h
  constructor
  · rintro ⟨ypts', hypts', -, hgiven'⟩
    cases hypts.symm.trans hypts'
    exact fun item hitem => (hgiven.mp hgiven' item hitem).1
  · intro h
    exact ⟨ypts, hypts, y.2.trans hn, hgiven.mpr fun item hitem => ⟨h item hitem, hgood item hitem⟩⟩

/-! What is asked of the `x`s, by where they come from. -/

theorem xsSound_list {nb xpts : Element} {text : CStr} {n : Nat} {ysGiven : Prop}
    (hxpts : nodeBuilderGetFirstChild nb (cstr "xpts") = some xpts)
    (htext : xpts.content = some text) :
    XsSound C nb n ysGiven ↔ (∃ item ∈ (items text).take n, C.Bad item) ∨
      ysGiven ∧ n ≤ (items text).length ∧
        (∀ item ∈ (items text).take n, item ≠ [] ∧ ¬ C.Bad item) ∧
        Nondecreasing (((items text).take n).map C.number) := by
  constructor
  · intro h
    cases h with
    | refused hx ht hbad =>
      cases hxpts.symm.trans hx
      cases htext.symm.trans ht
      exact .inl hbad
    | listed hx ht hys hn hnumbers hsorted =>
      cases hxpts.symm.trans hx
      cases htext.symm.trans ht
      exact .inr ⟨hys, hn, hnumbers, hsorted⟩
    | missing hx | scaled hx => cases hxpts.symm.trans hx
  · rintro (hbad | ⟨hys, hn, hnumbers, hsorted⟩)
    · exact .refused hxpts htext hbad
    · exact .listed hxpts htext hys hn hnumbers hsorted

/-- `strtod` is called on NULL. -/
theorem not_xsSound_nullText {nb xpts : Element} {n : Nat} {ysGiven : Prop}
    (hxpts : nodeBuilderGetFirstChild nb (cstr "xpts") = some xpts)
    (htext : xpts.content = none) : ¬ XsSound C nb n ysGiven := by
  intro h
  cases h with
  | refused hx ht | listed hx ht =>
    cases hxpts.symm.trans hx
    cases htext.symm.trans ht
  | missing hx | scaled hx => cases hxpts.symm.trans hx

theorem xsSound_scale {nb xscale : Element} {n : Nat} {ysGiven : Prop}
    (hxpts : nodeBuilderGetFirstChild nb (cstr "xpts") = none)
    (hxscale : nodeBuilderGetFirstChild nb (cstr "xscale") = some xscale) :
    XsSound C nb n ysGiven ↔ ysGiven ∧ 2 ≤ n ∧
      C.Rises (scaleEnd C xscale (cstr "min")) (scaleEnd C xscale (cstr "max")) := by
  constructor
  · intro h
    cases h with
    | refused hx | listed hx => cases hxpts.symm.trans hx
    | missing _ hs => cases hxscale.symm.trans hs
    | scaled _ hs hys hn hle =>
      cases hxscale.symm.trans hs
      exact ⟨hys, hn, hle⟩
  · rintro ⟨hys, hn, hle⟩
    exact .scaled hxpts hxscale hys hn hle

/-! And when a table of them is fit. -/

theorem fitTable_list {nb xpts : Element} {text : CStr} {n : Nat}
    {y x : {a : List Double // a.length = n}} {ysGiven : Prop} (hn : 1 ≤ n)
    (hys : (∃ ypts, childContent nb (cstr "ypts") = some ypts ∧
      y.1.length = (items ypts).length ∧ Given C ypts y.1) ↔ ysGiven)
    (hxpts : nodeBuilderGetFirstChild nb (cstr "xpts") = some xpts)
    (htext : xpts.content = some text) :
    FitTable C nb (tableOf y x) ↔ ysGiven ∧ Given C text x.1 ∧ Nondecreasing x.1 := by
  have hchild : childContent nb (cstr "xpts") = some text := by
    rw [childContent, hxpts]
    exact htext
  constructor
  · intro hfit
    refine ⟨hys.mp hfit.ys, ?_, hfit.sorted⟩
    rcases hfit.xs with ⟨text', ht, hgiven⟩ | ⟨hnone, -⟩
    · cases hchild.symm.trans ht
      exact hgiven
    · cases hxpts.symm.trans hnone
  · rintro ⟨hgiven, hx, hsorted⟩
    exact ⟨hn.trans_eq x.2.symm, hys.mpr hgiven, .inl ⟨text, hchild, hx⟩, hsorted⟩

theorem fitTable_scale {nb xscale : Element} {n : Nat} {y x : {a : List Double // a.length = n}}
    {ysGiven : Prop} (hn : 1 ≤ n)
    (hys : (∃ ypts, childContent nb (cstr "ypts") = some ypts ∧
      y.1.length = (items ypts).length ∧ Given C ypts y.1) ↔ ysGiven)
    (hxpts : nodeBuilderGetFirstChild nb (cstr "xpts") = none)
    (hxscale : nodeBuilderGetFirstChild nb (cstr "xscale") = some xscale)
    (hx : scalePoints C n (scaleEnd C xscale (cstr "min")) (scaleEnd C xscale (cstr "max")) =
      .ok x) :
    FitTable C nb (tableOf y x) ↔ ysGiven ∧ Nondecreasing x.1 := by
  constructor
  · intro hfit
    exact ⟨hys.mp hfit.ys, hfit.sorted⟩
  · rintro ⟨hgiven, hsorted⟩
    refine ⟨hn.trans_eq x.2.symm, hys.mpr hgiven, .inr ⟨hxpts, xscale, hxscale, ?_⟩, hsorted⟩
    rw [show (tableOf y x).len = n from x.2, hx]
    rfl

/-- The `x`s are a list. -/
theorem xPoints_list_iff {nb xpts : Element} {text : CStr} {n : Nat}
    {y : {a : List Double // a.length = n}} {ysGiven : Prop} (hn : 1 ≤ n)
    (hys : (∃ ypts, childContent nb (cstr "ypts") = some ypts ∧
      y.1.length = (items ypts).length ∧ Given C ypts y.1) ↔ ysGiven)
    (hxpts : nodeBuilderGetFirstChild nb (cstr "xpts") = some xpts)
    (htext : xpts.content = some text) :
    Loads (xPoints C nb n) (fun x => FitTable C nb (tableOf y x)) ↔ XsSound C nb n ysGiven := by
  rw [xsSound_list hxpts htext]
  have hscan : Scanned C n (items text) (xPoints C nb n) := xPoints_list hxpts htext
  generalize xPoints C nb n = r at hscan ⊢
  cases hscan with
  | bad hbad => exact iff_of_true loads_none (.inl hbad)
  | overread hgood hlt =>
    refine iff_of_false not_loads_error ?_
    rintro (⟨item, hitem, hbad⟩ | ⟨-, hn', -⟩)
    · exact hgood item (List.mem_of_mem_take hitem) hbad
    · omega
  | points x hgood hn' hx =>
    have hnobad : ¬ ∃ item ∈ (items text).take n, C.Bad item :=
      fun ⟨item, hitem, hbad⟩ => hgood item hitem hbad
    rw [loads_some, fitTable_list hn hys hxpts htext, hx, given_iff text hn']
    simp only [hnobad, hn', false_or, true_and]

/-- They are computed from the scale: the one point of a scale is divided by 0. -/
theorem xPoints_scale_iff {nb xscale : Element} {n : Nat} {y : {a : List Double // a.length = n}}
    {ysGiven : Prop} (hn : 1 ≤ n)
    (hys : (∃ ypts, childContent nb (cstr "ypts") = some ypts ∧
      y.1.length = (items ypts).length ∧ Given C ypts y.1) ↔ ysGiven)
    (hxpts : nodeBuilderGetFirstChild nb (cstr "xpts") = none)
    (hxscale : nodeBuilderGetFirstChild nb (cstr "xscale") = some xscale) :
    Loads (xPoints C nb n) (fun x => FitTable C nb (tableOf y x)) ↔ XsSound C nb n ysGiven := by
  rw [xPoints_scale hxpts hxscale, xsSound_scale hxpts hxscale]
  by_cases hone : n = 1
  · have hzero : scalePoints C n (scaleEnd C xscale (cstr "min")) (scaleEnd C xscale (cstr "max")) =
        .error .divZero := if_pos hone
    rw [hzero]
    refine iff_of_false not_loads_error ?_
    rintro ⟨-, htwo, -⟩
    omega
  · have htwo : 2 ≤ n := by omega
    obtain ⟨x, hx⟩ : ∃ x, scalePoints C n (scaleEnd C xscale (cstr "min"))
        (scaleEnd C xscale (cstr "max")) = .ok x := ⟨_, if_neg hone⟩
    rw [hx, Except.map, loads_some, fitTable_scale hn hys hxpts hxscale hx,
      scalePoints_nondecreasing htwo hx]
    simp only [htwo, true_and]

/-- With the `y`s read, the rest is up to the `x`s. -/
theorem xPoints_iff {nb : Element} {n : Nat} {y : {a : List Double // a.length = n}}
    {ysGiven : Prop}
    (hn : 1 ≤ n) (hys : (∃ ypts, childContent nb (cstr "ypts") = some ypts ∧
      y.1.length = (items ypts).length ∧ Given C ypts y.1) ↔ ysGiven) :
    Loads (xPoints C nb n) (fun x => FitTable C nb (tableOf y x)) ↔ XsSound C nb n ysGiven := by
  cases hxpts : nodeBuilderGetFirstChild nb (cstr "xpts") with
  | some xpts =>
    cases htext : xpts.content with
    | none =>
      have hnull : xPoints C nb n = .error .nullText := by
        rw [xPoints, hxpts]
        simp only [htext]
      rw [hnull]
      exact iff_of_false not_loads_error (not_xsSound_nullText hxpts htext)
    | some text => exact xPoints_list_iff hn hys hxpts htext
  | none =>
    cases hxscale : nodeBuilderGetFirstChild nb (cstr "xscale") with
    | none =>
      have hmissing : xPoints C nb n = .ok none := by
        rw [xPoints, hxpts]
        simp only [hxscale]
      rw [hmissing]
      exact iff_of_true loads_none (.missing hxpts hxscale)
    | some xscale => exact xPoints_scale_iff hn hys hxpts hxscale

/-- The loader keeps to what it should return exactly when the element gives what the
    points need, or an item is refused. -/
theorem loadsFit_iff (C : Libc) (nb : Element) : LoadsFit C nb ↔ PointsSound C nb := by
  rw [PointsSound]
  cases hypts : childContent nb (cstr "ypts") with
  | none =>
    refine iff_of_true (.inl ?_) nofun
    rw [tableFromNodeBuilder, hypts]
  | some ypts =>
    by_cases hbad : ∃ item ∈ items ypts, C.Bad item
    · refine iff_of_true (.inl (tableFromNodeBuilder_of_bad hypts hbad)) ?_
      rintro ypts' ⟨rfl⟩ hgood
      obtain ⟨item, hitem, hbad⟩ := hbad
      exact absurd hbad (hgood item hitem)
    have hgood : ∀ item ∈ items ypts, ¬ C.Bad item := fun item hitem h => hbad ⟨item, hitem, h⟩
    have hcond : (∀ ypts', some ypts = some ypts' → (∀ item ∈ items ypts', ¬ C.Bad item) →
        XsSound C nb (items ypts').length (∀ item ∈ items ypts', item ≠ [])) ↔
          XsSound C nb (items ypts).length (∀ item ∈ items ypts, item ≠ []) := by
      constructor
      · exact fun h => h ypts rfl hgood
      · rintro h ypts' ⟨rfl⟩ -
        exact h
    rw [hcond]
    have hlen := length_items ypts
    obtain ⟨y, hy, htable⟩ := tableFromNodeBuilder_of_ys hypts hgood
    have hys := ysGiven_iff hypts hlen.symm hgood hy
    rw [hlen, LoadsFit, htable, loads_map]
    exact xPoints_iff (Nat.succ_pos _) hys

end

/-- Three `y`s and two `x`s. -/
def twoXs : Element :=
  .parent "gf" [.leaf "ypts" "1,2,3", .leaf "xpts" "0,1"]

theorem twoXs_not_loadsFit : ¬ LoadsFit plainLibc twoXs := by
  have hload : tableFromNodeBuilder plainLibc twoXs = .error .overread := by decide +kernel
  rw [LoadsFit, hload]
  exact not_loads_error

end Libsd

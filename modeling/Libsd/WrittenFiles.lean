/-
  Libsd/WrittenFiles.lean
  =======================
  **A file written out as a document is loaded as it was.**

  `fileXmile` is the document of a file: its header, its `sim_specs` and its models, with an
  element for everything that the loader reads.  Whatever the file holds, it is read back from
  this document as it is, if its names are in the form that `canonicalize` leaves alone, its
  texts are such that `strtrim` leaves them alone, and its numbers are written so that `strtod`
  reads them (`fileXmile_loaded`).  So `mdl` prints, for
  the document of a model, the table of the Euler integration of this model (`main_written`).
-/
import Libsd.Documents
import Libsd.Mdl

namespace Libsd

/-- Text that is trimmed already. -/
def PlainText (s : CStr) : Prop := s ≠ [] ∧ Trim.trim isWhite s = s

instance (s : CStr) : Decidable (PlainText s) := inferInstanceAs (Decidable (_ ∧ _))

/-- Such text begins and ends with something. -/
theorem plainText_iff {s : CStr} : PlainText s ↔ s ≠ [] ∧
    (∀ c ∈ s.head?, isWhite c = false) ∧ ∀ c ∈ s.getLast?, isWhite c = false := by
  rw [PlainText, ← Trim.dropWhile_eq_self_iff_head, ← Trim.rdropWhile_eq_self_iff_last]
  refine and_congr_right fun _ => ⟨fun h => ?_, fun ⟨h1, h2⟩ => by rw [Trim.trim, h1, h2]⟩
  have hfront : s.dropWhile isWhite = s := by
    refine (List.dropWhile_sublist isWhite).eq_of_length_le ?_
    have hle := (List.rdropWhile_prefix isWhite (s.dropWhile isWhite)).length_le
    rw [← Trim.trim, h] at hle
    exact hle
  refine ⟨hfront, ?_⟩
  rw [Trim.trim, hfront] at h
  exact h

theorem PlainText.append {s t : CStr} (hs : PlainText s) (c : UInt8) (ht : PlainText t) :
    PlainText (s ++ c :: t) := by
  rw [plainText_iff] at hs ht ⊢
  obtain ⟨hne, hhead, -⟩ := hs
  obtain ⟨hne', -, hlast⟩ := ht
  refine ⟨by simp, ?_, ?_⟩
  · rw [List.head?_append_of_ne_nil _ hne]
    exact hhead
  · rw [List.getLast?_append_of_ne_nil _ (List.cons_ne_nil c t), List.getLast?_cons_of_ne_nil hne']
    exact hlast

/-- Text that `strtrim` leaves as it is. -/
def Untrimmed (C : Libc) (s : CStr) : Prop := s ≠ [] ∧ strtrimmed C s = s

instance (C : Libc) (s : CStr) : Decidable (Untrimmed C s) := inferInstanceAs (Decidable (_ ∧ _))

/-- In front of a byte there is nothing that only `isspace` takes for white space. -/
theorem PlainText.untrimmed {C : Libc} {s : CStr} (h : PlainText s)
    (hascii : ∀ c ∈ s.head?, c.toNat < Utf.Tx) : Untrimmed C s := by
  obtain ⟨hne, hhead, -⟩ := plainText_iff.mp h
  refine ⟨hne, (strtrimmed_of_keeps ?_).trans h.2⟩
  rw [KeepsFirst, Trim.dropWhile_eq_self hhead]
  obtain ⟨c, t, rfl⟩ := List.exists_cons_of_ne_nil hne
  rintro u hu
  rw [Utf.charntorune_ascii (hascii c rfl) (List.length_pos_of_ne_nil hne).ne'] at hu
  cases hu
  exact (C.isspace_byte c).trans (hhead c rfl)

/-- `w` writes a double as a text that is read back as it. -/
structure Libc.Writes (C : Libc) (w : Double → CStr) (d : Double) : Prop where
  plain : PlainText (w d)
  ascii : ∀ c ∈ (w d).head?, c.toNat < Utf.Tx
  comma : COMMA ∉ w d
  read : C.strtod (w d) = (d, [])
  inRange : C.erange (w d) = false

/-! ### The document of a file -/

def optAttr (name : String) (s : Option CStr) : List (CStr × CStr) :=
  (s.map fun s => (cstr name, s)).toList

def textXmile (name : String) (s : CStr) : XmlItem := .element (cstr name) [] [.text s]

def optXmile (name : String) (s : Option CStr) : List XmlItem := (s.map (textXmile name)).toList

def connXmile (c : Conn) : XmlItem :=
  .element (cstr "connect") [(cstr "from", c.src), (cstr "to", c.name)] []

def nonnegXmile (isNonneg : Bool) : List XmlItem :=
  if isNonneg then [.element (cstr "non_negative") [] []] else []

/-- The tag of a variable; a `VAR_REF` has none. -/
def VarType.tag : VarType → CStr
  | .stock => cstr "stock"
  | .flow => cstr "flow"
  | .aux => cstr "aux"
  | .module => cstr "module"
  | .ref => []

section
variable (w : Double → CStr)

def pointsText (vs : List Double) : CStr := [COMMA].intercalate (vs.map w)

def pointsXmile (name : String) (vs : List Double) : XmlItem := textXmile name (pointsText w vs)

def gfXmile (t : Table) : XmlItem :=
  .element (cstr "gf") [] [pointsXmile w "xpts" (t.x.map .num), pointsXmile w "ypts" (t.y.map .num)]

def varXmile (v : Var) : XmlItem :=
  .element v.type.tag (optAttr "name" v.name)
    (optXmile "eqn" v.eqn ++ (v.inflows.map (textXmile "inflow") ++
      (v.outflows.map (textXmile "outflow") ++ (nonnegXmile v.isNonneg ++
        (v.conns.map connXmile ++ (v.gf.map (gfXmile w)).toList)))))

def modelXmile (m : SDModel) : XmlItem :=
  .element (cstr "model") (optAttr "name" m.name)
    [.element (cstr "variables") [] (m.vars.map (varXmile w))]

def headerXmile (h : Header) : XmlItem :=
  .element (cstr "header") []
    (.element (cstr "smile")
      (optAttr "version" h.smileVersion ++ optAttr "namespace" h.smileNamespace) [] ::
    (optXmile "name" h.name ++ (optXmile "uuid" h.uuid ++ (optXmile "vendor" h.vendor ++
      [.element (cstr "product")
        (optAttr "version" h.productVersion ++ optAttr "lang" h.productLang)
        (h.productName.map XmlItem.text).toList]))))

def simSpecsXmile (f : LoadedFile) : XmlItem :=
  .element (cstr "sim_specs") (optAttr "method" f.method ++ optAttr "time_units" f.timeUnits)
    [textXmile "start" (w f.simSpecs.start), textXmile "stop" (w f.simSpecs.stop),
      textXmile "dt" (w f.simSpecs.dt), textXmile "savestep" (w f.simSpecs.savestep)]

def itemsXmile (f : LoadedFile) : List XmlItem :=
  headerXmile f.header :: simSpecsXmile w f :: f.models.map (modelXmile w)

def fileXmile (f : LoadedFile) : XmlItem := .element (cstr "xmile") [] (itemsXmile w f)

end

/-! ### What can be written -/

/-- A name that `canonicalize` leaves as it is. -/
def Canonical (n : CStr) : Prop := canonicalize n = some n

instance (n : CStr) : Decidable (Canonical n) := inferInstanceAs (Decidable (_ = _))

section
variable (C : Libc) (w : Double → CStr)

structure Table.Writable (t : Table) : Prop where
  nonempty : t.x ≠ []
  numbers : ∀ q ∈ t.x ++ t.y, C.Writes w (.num q)

structure Var.Writable (v : Var) : Prop where
  type : v.type ≠ .ref
  name : ∀ n, v.name = some n → Canonical n
  eqn : ∀ s, v.eqn = some s → Untrimmed C s
  src : v.src = none
  inflows : ∀ n ∈ v.inflows, Untrimmed C n ∧ Canonical n
  outflows : ∀ n ∈ v.outflows, Untrimmed C n ∧ Canonical n
  conns : ∀ c ∈ v.conns, Canonical c.src ∧ Canonical c.name
  gf : ∀ t, v.gf = some t → t.Writable C w

/-- The texts of elements in a header. -/
structure Header.Texts (P : CStr → Prop) (h : Header) : Prop where
  name : ∀ s, h.name = some s → P s
  uuid : ∀ s, h.uuid = some s → P s
  vendor : ∀ s, h.vendor = some s → P s
  productName : ∀ s, h.productName = some s → P s

structure LoadedFile.Writable (f : LoadedFile) : Prop where
  header : f.header.Texts (Untrimmed C)
  start : C.Writes w f.simSpecs.start
  stop : C.Writes w f.simSpecs.stop
  dt : C.Writes w f.simSpecs.dt
  savestep : C.Writes w f.simSpecs.savestep
  vars : ∀ m ∈ f.models, ∀ v ∈ m.vars, v.Writable C w

end

/-! ### The trees of the document -/

section
variable (C : Libc)

/-- The tree of an element. -/
def elementOf (name : CStr) (attrs : List (CStr × CStr)) (items : List XmlItem) : Element :=
  .node (XmlItem.builderOf C name attrs items) (XmlItem.treesOf C items)

/-- The element of a text. -/
def textElement (name : String) (s : CStr) : Element := elementOf C (cstr name) [] [.text s]

end

section
variable {C : Libc} {w : Double → CStr}

section
variable (name : CStr) (attrs : List (CStr × CStr)) (items : List XmlItem)

@[simp] theorem name_elementOf : (elementOf C name attrs items).name = some name := rfl

@[simp] theorem attrs_elementOf : (elementOf C name attrs items).attrs = attrs := rfl

@[simp] theorem content_elementOf :
    (elementOf C name attrs items).content = XmlItem.contentAfter C none items := rfl

@[simp] theorem children_elementOf :
    (elementOf C name attrs items).children = XmlItem.treesOf C items := rfl

@[simp] theorem treeOf_element :
    (XmlItem.element name attrs items).treeOf C = [elementOf C name attrs items] := by
  rw [XmlItem.treeOf, elementOf]

@[simp] theorem givenFor_element (rest : List XmlItem) :
    XmlItem.givenFor C (.element name attrs items :: rest) =
      (name, elementOf C name attrs items) :: XmlItem.givenFor C rest := by
  rw [XmlItem.givenFor, elementOf]

end

@[simp] theorem treesOf_nil : XmlItem.treesOf C [] = [] := by rw [XmlItem.treesOf]

@[simp] theorem treesOf_cons (item : XmlItem) (items : List XmlItem) :
    XmlItem.treesOf C (item :: items) = item.treeOf C ++ XmlItem.treesOf C items := by
  rw [XmlItem.treesOf]

theorem treesOf_append (items items' : List XmlItem) :
    XmlItem.treesOf C (items ++ items') = XmlItem.treesOf C items ++ XmlItem.treesOf C items' := by
  induction items with
  | nil => rw [treesOf_nil, List.nil_append, List.nil_append]
  | cons item items ih => rw [List.cons_append, treesOf_cons, treesOf_cons, ih, List.append_assoc]

@[simp] theorem treeOf_text (name : String) (s : CStr) :
    (textXmile name s).treeOf C = [textElement C name s] := treeOf_element _ _ _

theorem content_untrimmed {s : CStr} (h : Untrimmed C s) :
    XmlItem.contentAfter C none [.text s] = some s := by
  simp only [XmlItem.contentAfter, h.2, if_neg h.1, Option.getD_none, List.nil_append]

/-- Elements for the members of a list. -/
theorem treesOf_map {α : Type} {f : α → XmlItem} {g : α → Element} (h : ∀ a, (f a).treeOf C = [g a])
    (l : List α) : XmlItem.treesOf C (l.map f) = l.map g := by
  induction l with
  | nil => rw [List.map_nil, treesOf_nil, List.map_nil]
  | cons a l ih => rw [List.map_cons, treesOf_cons, h, ih, List.map_cons, List.singleton_append]

theorem treesOf_option {α : Type} {f : α → XmlItem} {g : α → Element}
    (h : ∀ a, (f a).treeOf C = [g a]) (o : Option α) :
    XmlItem.treesOf C (o.map f).toList = (o.map g).toList := by
  cases o with
  | none => rw [Option.map_none, Option.toList_none, treesOf_nil, Option.map_none,
    Option.toList_none]
  | some a => simp [h]

/-! ### Looking for a child -/

/-- The first element of a name. -/
def firstNamed (kids : List Element) (name : CStr) : Option Element :=
  kids.find? fun child => child.fields.map (·.name) = some name

theorem nodeBuilderGetFirstChild_eq (nb : Element) (name : CStr) :
    nodeBuilderGetFirstChild nb name = firstNamed nb.children name := rfl

theorem childContent_eq (nb : Element) (name : CStr) :
    childContent nb name = (firstNamed nb.children name).bind (·.content) := rfl

theorem firstNamed_nil (name : CStr) : firstNamed [] name = none := rfl

theorem firstNamed_cons (name' name : CStr) (attrs : List (CStr × CStr)) (items : List XmlItem)
    (kids : List Element) : firstNamed (elementOf C name attrs items :: kids) name' =
      if name = name' then some (elementOf C name attrs items) else firstNamed kids name' := by
  have hname : (elementOf C name attrs items).fields.map (·.name) = some name := rfl
  rw [firstNamed, List.find?_cons, hname]
  by_cases h : name = name'
  · simp [h]
  · simp [h, firstNamed]

theorem firstNamed_append (kids kids' : List Element) (name : CStr) :
    firstNamed (kids ++ kids') name = (firstNamed kids name).or (firstNamed kids' name) :=
  List.find?_append

/-- There is none among elements of another name. -/
theorem firstNamed_none {kids : List Element} {name : CStr}
    (h : ∀ e ∈ kids, e.name ≠ some name) : firstNamed kids name = none := by
  exact List.find?_eq_none.mpr fun e he hname => h e he (of_decide_eq_true hname)

/-! ### Tables -/

theorem items_pointsText {vs : List Double} (hne : vs ≠ []) (h : ∀ d ∈ vs, C.Writes w d) :
    items (pointsText w vs) = vs.map w := by
  refine List.splitOn_intercalate COMMA ?_ (by simpa using hne)
  intro s hs
  obtain ⟨d, hd, rfl⟩ := List.mem_map.mp hs
  exact (h d hd).comma

theorem Libc.Writes.good {d : Double} (h : C.Writes w d) : ¬ C.Bad (w d) := by
  rintro (hrange | hrest)
  · rw [h.inRange] at hrange
    cases hrange
  · rw [h.read] at hrest
    exact hrest rfl

theorem numbers_written {vs : List Double} (h : ∀ d ∈ vs, C.Writes w d) :
    (vs.map w).map C.number = vs := by
  rw [List.map_map]
  refine (List.map_congr_left fun d hd => ?_).trans (List.map_id vs)
  rw [Function.comp_apply, Libc.number, (h d hd).read]
  rfl

theorem pointsText_cons (d d' : Double) (vs : List Double) :
    pointsText w (d :: d' :: vs) = w d ++ COMMA :: pointsText w (d' :: vs) := by
  simp [pointsText, List.intercalate]

/-- The text of a list of numbers begins and ends with a number. -/
theorem plain_pointsText {vs : List Double} (hne : vs ≠ []) (h : ∀ d ∈ vs, C.Writes w d) :
    PlainText (pointsText w vs) := by
  induction vs with
  | nil => exact absurd rfl hne
  | cons d vs ih =>
    have hd := (h d List.mem_cons_self).plain
    cases vs with
    | nil => simpa [pointsText] using hd
    | cons d' vs =>
      have hrest := ih (List.cons_ne_nil d' vs) fun x hx => h x (List.mem_cons_of_mem d hx)
      rw [pointsText_cons]
      exact hd.append COMMA hrest

theorem untrimmed_pointsText {vs : List Double} (hne : vs ≠ []) (h : ∀ d ∈ vs, C.Writes w d) :
    Untrimmed C (pointsText w vs) := by
  refine (plain_pointsText hne h).untrimmed fun c hc => ?_
  obtain ⟨d, vs, rfl⟩ := List.exists_cons_of_ne_nil hne
  have hd := h d List.mem_cons_self
  refine hd.ascii c ?_
  cases vs with
  | nil => simpa [pointsText] using hc
  | cons d' vs => rwa [pointsText_cons, List.head?_append_of_ne_nil _ hd.plain.1] at hc

theorem scanPoints_written {vs : List Double} (hne : vs ≠ []) (h : ∀ d ∈ vs, C.Writes w d) :
    ∃ a : {a : List Double // a.length = vs.length},
      scanPoints C vs.length (some (pointsText w vs)) = .ok (some a) ∧ a.1 = vs := by
  have hitems := items_pointsText hne h
  have htake : (vs.map w).take vs.length = vs.map w :=
    List.take_of_length_le (by rw [List.length_map])
  have hgood : ∀ item ∈ vs.map w, ¬ C.Bad item := by
    intro item hitem
    obtain ⟨d, hd, rfl⟩ := List.mem_map.mp hitem
    exact (h d hd).good
  have hscan := scanPoints_scanned (C := C) vs.length (pointsText w vs)
  rw [hitems] at hscan
  generalize scanPoints C vs.length (some (pointsText w vs)) = r at hscan ⊢
  cases hscan with
  | bad hbad =>
    rw [htake] at hbad
    obtain ⟨item, hitem, hbad⟩ := hbad
    exact absurd hbad (hgood item hitem)
  | points a _ _ ha =>
    rw [htake, numbers_written h] at ha
    exact ⟨a, rfl, ha⟩
  | overread _ hlt => exact absurd hlt (by rw [List.length_map]; omega)

theorem numbersOf_map (l : List ℚ) :
    numbersOf (l.map .num) = some ⟨l, by rw [List.length_map]⟩ := by
  induction l with
  | nil => rfl
  | cons q l ih =>
    change numbersOf (.num q :: l.map .num) = _
    rw [numbersOf, Double.number?, ih]
    rfl

/-- A table as it is loaded. -/
def Table.loaded (t : Table) : LoadedTable where
  x := t.x.map .num
  y := t.y.map .num
  len_eq := by rw [List.length_map, List.length_map, t.len_eq]

theorem table_loaded (t : Table) : t.loaded.table = some t := by
  rw [LoadedTable.table, Table.loaded, numbersOf_map, numbersOf_map]

variable (C) in
/-- The element of a table. -/
def gfElement (w : Double → CStr) (t : Table) : Element :=
  elementOf C (cstr "gf") []
    [pointsXmile w "xpts" (t.x.map .num), pointsXmile w "ypts" (t.y.map .num)]

theorem tableFromNodeBuilder_written {t : Table} (h : t.Writable C w) :
    tableFromNodeBuilder C (gfElement C w t) = .ok (some t.loaded) := by
  have hnum : ∀ {l : List ℚ}, l ⊆ t.x ++ t.y → ∀ d ∈ l.map Double.num, C.Writes w d := by
    intro l hl d hd
    obtain ⟨q, hq, rfl⟩ := List.mem_map.mp hd
    exact h.numbers q (hl hq)
  have hx := hnum (List.subset_append_left t.x t.y)
  have hy := hnum (List.subset_append_right t.x t.y)
  have hxne : t.x.map Double.num ≠ [] := mt List.map_eq_nil_iff.mp h.nonempty
  have hyne : t.y.map Double.num ≠ [] := fun hnil => h.nonempty (List.eq_nil_of_length_eq_zero (by
    rw [← t.len_eq, List.map_eq_nil_iff.mp hnil, List.length_nil]))
  have hxkid : nodeBuilderGetFirstChild (gfElement C w t) (cstr "xpts") =
      some (textElement C "xpts" (pointsText w (t.x.map .num))) := by
    simp [nodeBuilderGetFirstChild_eq, gfElement, pointsXmile, textElement, firstNamed_cons]
  have hypts : childContent (gfElement C w t) (cstr "ypts") =
      some (pointsText w (t.y.map .num)) := by
    simp [childContent_eq, gfElement, pointsXmile, textElement, firstNamed_cons, cstr_inj,
      content_untrimmed (untrimmed_pointsText hyne hy)]
  have hcount : (pointsText w (t.y.map .num)).count COMMA + 1 = (t.x.map Double.num).length := by
    rw [← length_items, items_pointsText hyne hy, List.length_map, List.length_map,
      List.length_map, t.len_eq]
  have hgood : ∀ item ∈ items (pointsText w (t.y.map .num)), ¬ C.Bad item := by
    intro item hitem
    rw [items_pointsText hyne hy] at hitem
    obtain ⟨d, hd, rfl⟩ := List.mem_map.mp hitem
    exact (hy d hd).good
  obtain ⟨y, hyval, htable⟩ := tableFromNodeBuilder_of_ys hypts hgood
  rw [items_pointsText hyne hy, numbers_written hy] at hyval
  have hxs : ∀ n, n = (t.x.map Double.num).length → ∃ x : {a : List Double // a.length = n},
      xPoints C (gfElement C w t) n = .ok (some x) ∧ x.1 = t.x.map .num := by
    rintro n rfl
    obtain ⟨x, hscan, hxval⟩ := scanPoints_written hxne hx
    refine ⟨x, ?_, hxval⟩
    have hcontent : (textElement C "xpts" (pointsText w (t.x.map .num))).content =
        some (pointsText w (t.x.map .num)) := content_untrimmed (untrimmed_pointsText hxne hx)
    simp only [xPoints, hxkid, hcontent, hscan]
  obtain ⟨x, hxs, hxval⟩ := hxs _ hcount
  rw [htable, hxs]
  obtain ⟨y, hy'⟩ := y
  obtain ⟨x, hx'⟩ := x
  obtain rfl : y = t.y.map .num := hyval
  obtain rfl : x = t.x.map .num := hxval
  rfl

theorem loadTable_written {t : Table} (h : t.Writable C w) :
    loadTable C (gfElement C w t) = .ok (some t) := by
  simp only [loadTable, tableFromNodeBuilder_written h, table_loaded]

/-! ### Variables -/

theorem foldlM_eqn (o : Option CStr) (v : Var) :
    (o.map (textElement C "eqn")).toList.foldlM (varChild C) v = .ok v := by
  cases o with
  | none => rfl
  | some s => simp [varChild, textElement, cstr_inj, bind, Except.bind, pure, Except.pure]

theorem canonicalName_eq {n : CStr} (h : Canonical n) : canonicalName n = .ok n := by
  have h : canonicalize n = some n := h
  rw [canonicalName, h]

/-- Children of one kind, each of which puts something behind what is there. -/
theorem foldlM_collect {α : Type} {g : α → Element} (put : Var → List α → Var) {l : List α}
    (hnil : ∀ v, put v [] = v) (happend : ∀ v a l, put (put v [a]) l = put v (a :: l))
    (hchild : ∀ a ∈ l, ∀ v, varChild C v (g a) = .ok (put v [a])) (v : Var) :
    (l.map g).foldlM (varChild C) v = .ok (put v l) := by
  induction l generalizing v with
  | nil => rw [hnil]; rfl
  | cons a l ih =>
    rw [List.map_cons, List.foldlM_cons, hchild a List.mem_cons_self v]
    refine (ih (fun b hb => hchild b (List.mem_cons_of_mem a hb)) (put v [a])).trans ?_
    rw [happend]

theorem foldlM_inflows {l : List CStr} (h : ∀ n ∈ l, Untrimmed C n ∧ Canonical n) (v : Var) :
    (l.map (textElement C "inflow")).foldlM (varChild C) v =
      .ok { v with inflows := v.inflows ++ l } := by
  refine foldlM_collect (fun v l => { v with inflows := v.inflows ++ l }) (by simp) (by simp)
    (fun n hn v => ?_) v
  obtain ⟨hplain, hcanon⟩ := h n hn
  simp [varChild, textElement, content_untrimmed hplain, canonicalName_eq hcanon, bind, Except.bind,
    pure, Except.pure]

theorem foldlM_outflows {l : List CStr} (h : ∀ n ∈ l, Untrimmed C n ∧ Canonical n) (v : Var) :
    (l.map (textElement C "outflow")).foldlM (varChild C) v =
      .ok { v with outflows := v.outflows ++ l } := by
  refine foldlM_collect (fun v l => { v with outflows := v.outflows ++ l }) (by simp)
    (by simp) (fun n hn v => ?_) v
  obtain ⟨hplain, hcanon⟩ := h n hn
  simp [varChild, textElement, content_untrimmed hplain, canonicalName_eq hcanon, cstr_inj, bind,
    Except.bind, pure, Except.pure]

variable (C) in
def connElement (c : Conn) : Element :=
  elementOf C (cstr "connect") [(cstr "from", c.src), (cstr "to", c.name)] []

variable (C) in
def nonnegElements (isNonneg : Bool) : List Element :=
  if isNonneg then [elementOf C (cstr "non_negative") [] []] else []

theorem treesOf_nonneg (b : Bool) :
    XmlItem.treesOf C (nonnegXmile b) = nonnegElements C b := by
  cases b <;> simp [nonnegXmile, nonnegElements]

theorem refFromNodeBuilder_written {c : Conn} (hsrc : Canonical c.src) (hname : Canonical c.name) :
    refFromNodeBuilder (connElement C c) = .ok (some c) := by
  have hfrom : nodeBuilderGetAttr (connElement C c) (cstr "from") = some c.src := by
    simp [nodeBuilderGetAttr, connElement]
  have hto : nodeBuilderGetAttr (connElement C c) (cstr "to") = some c.name := by
    have hne : (cstr "to" == cstr "from") = false := by simp [cstr_inj]
    simp [nodeBuilderGetAttr, connElement, List.lookup_cons, hne]
  rw [refFromNodeBuilder, hfrom, hto]
  simp [canonicalName_eq hsrc, canonicalName_eq hname, bind, Except.bind, pure, Except.pure]

theorem foldlM_conns {l : List Conn} (h : ∀ c ∈ l, Canonical c.src ∧ Canonical c.name) (v : Var) :
    (l.map (connElement C)).foldlM (varChild C) v = .ok { v with conns := v.conns ++ l } := by
  refine foldlM_collect (fun v l => { v with conns := v.conns ++ l }) (by simp) (by simp)
    (fun c hc v => ?_) v
  obtain ⟨hsrc, hname⟩ := h c hc
  have href := refFromNodeBuilder_written (C := C) hsrc hname
  rw [connElement] at href ⊢
  simp [varChild, href, cstr_inj, bind, Except.bind, pure, Except.pure]

theorem foldlM_nonneg {b : Bool} {v : Var} (hv : v.isNonneg = false) :
    (nonnegElements C b).foldlM (varChild C) v = .ok { v with isNonneg := b } := by
  obtain ⟨⟩ := v
  cases hv
  cases b with
  | false => rfl
  | true => simp [nonnegElements, varChild, cstr_inj, bind, Except.bind, pure, Except.pure]

theorem foldlM_gf {o : Option Table} (h : ∀ t, o = some t → t.Writable C w) {v : Var}
    (hv : v.gf = none) :
    (o.map (gfElement C w)).toList.foldlM (varChild C) v = .ok { v with gf := o } := by
  cases o with
  | none =>
    obtain ⟨⟩ := v
    cases hv
    rfl
  | some t =>
    have htable := loadTable_written (h t rfl)
    rw [gfElement] at htable
    simp [varChild, gfElement, htable, cstr_inj, bind, Except.bind, pure, Except.pure]

variable (C w) in
/-- The element of a variable. -/
def varElement (v : Var) : Element :=
  elementOf C v.type.tag (optAttr "name" v.name)
    (optXmile "eqn" v.eqn ++ (v.inflows.map (textXmile "inflow") ++
      (v.outflows.map (textXmile "outflow") ++ (nonnegXmile v.isNonneg ++
        (v.conns.map connXmile ++ (v.gf.map (gfXmile w)).toList)))))

theorem children_varElement (v : Var) : (varElement C w v).children =
    (v.eqn.map (textElement C "eqn")).toList ++ (v.inflows.map (textElement C "inflow") ++
      (v.outflows.map (textElement C "outflow") ++ (nonnegElements C v.isNonneg ++
        (v.conns.map (connElement C) ++ (v.gf.map (gfElement C w)).toList)))) := by
  have hconn : ∀ c, (connXmile c).treeOf C = [connElement C c] := fun _ => treeOf_element _ _ _
  have hgf : ∀ t, (gfXmile w t).treeOf C = [gfElement C w t] := fun _ => treeOf_element _ _ _
  rw [varElement, children_elementOf, optXmile, treesOf_append, treesOf_append, treesOf_append,
    treesOf_append, treesOf_append, treesOf_option (treeOf_text "eqn"),
    treesOf_map (treeOf_text "inflow"), treesOf_map (treeOf_text "outflow"), treesOf_nonneg,
    treesOf_map hconn, treesOf_option hgf]

theorem varTypeOf_tag {type : VarType} (h : type ≠ .ref) : varTypeOf type.tag = some type := by
  cases type with
  | ref => exact absurd rfl h
  | _ => simp [varTypeOf, VarType.tag, cstr_inj]

theorem getAttr_opt (tag : CStr) (name : String) (o : Option CStr) (items : List XmlItem) :
    nodeBuilderGetAttr (elementOf C tag (optAttr name o) items) (cstr name) = o := by
  cases o <;> simp [nodeBuilderGetAttr, optAttr]

theorem getAttr_nil (tag name : CStr) (items : List XmlItem) :
    nodeBuilderGetAttr (elementOf C tag [] items) name = none := rfl

/-- Two attributes of different names. -/
theorem getAttr_two (tag : CStr) {name name' : String} (hne : name ≠ name') (o o' : Option CStr)
    (items : List XmlItem) :
    nodeBuilderGetAttr (elementOf C tag (optAttr name o ++ optAttr name' o') items)
      (cstr name) = o ∧
    nodeBuilderGetAttr (elementOf C tag (optAttr name o ++ optAttr name' o') items) (cstr name') =
      o' := by
  have h : (cstr name == cstr name') = false := by simpa [cstr_inj] using hne
  have h' : (cstr name' == cstr name) = false := by simpa [cstr_inj] using hne.symm
  cases o <;> cases o' <;> simp [nodeBuilderGetAttr, optAttr, List.lookup_cons, h, h']

theorem childContent_eqn {v : Var} (h : ∀ s, v.eqn = some s → Untrimmed C s) :
    childContent (varElement C w v) (cstr "eqn") = v.eqn := by
  rw [childContent_eq, children_varElement, firstNamed_append]
  cases heqn : v.eqn with
  | none =>
    have hrest : firstNamed (v.inflows.map (textElement C "inflow") ++
        (v.outflows.map (textElement C "outflow") ++ (nonnegElements C v.isNonneg ++
          (v.conns.map (connElement C) ++ (v.gf.map (gfElement C w)).toList))))
            (cstr "eqn") = none := by
      refine firstNamed_none fun e he => ?_
      simp only [List.mem_append, List.mem_map, Option.mem_toList, Option.map_eq_some_iff] at he
      rcases he with ⟨_, -, rfl⟩ | ⟨_, -, rfl⟩ | hnonneg | ⟨_, -, rfl⟩ | ⟨_, -, rfl⟩
      · simp [textElement, cstr_inj]
      · simp [textElement, cstr_inj]
      · rw [nonnegElements, List.mem_ite_nil_right, List.mem_singleton] at hnonneg
        obtain ⟨-, rfl⟩ := hnonneg
        simp [cstr_inj]
      · simp [connElement, cstr_inj]
      · simp [gfElement, cstr_inj]
    rw [hrest]
    rfl
  | some s =>
    simp [textElement, firstNamed_cons, content_untrimmed (h s heqn)]

theorem varFromNodeBuilder_written {v : Var} (h : v.Writable C w) :
    varFromNodeBuilder C (varElement C w v) = .ok (some v) := by
  have htype : (varElement C w v).name.bind varTypeOf = some v.type := varTypeOf_tag h.type
  have hname : varName (varElement C w v) = .ok v.name := by
    rw [varName, varElement, getAttr_opt]
    cases hn : v.name with
    | none => rfl
    | some n => simp [canonicalName_eq (h.name n hn), bind, Except.bind, pure, Except.pure]
  simp only [varFromNodeBuilder, htype, hname, childContent_eqn h.eqn, children_varElement,
    List.foldlM_append, foldlM_eqn, foldlM_inflows h.inflows, foldlM_outflows h.outflows,
    foldlM_nonneg, foldlM_conns h.conns, foldlM_gf h.gf, bind, Except.bind, pure, Except.pure,
      List.nil_append]
  obtain ⟨⟩ := v
  obtain rfl := h.src
  rfl

/-! ### Models, header and specs -/

theorem varsFromNodeBuilders_written {vars : List Var} (h : ∀ v ∈ vars, v.Writable C w) :
    varsFromNodeBuilders C (vars.map (varElement C w)) = .ok vars := by
  induction vars with
  | nil => rfl
  | cons v vars ih =>
    have hrest := ih fun u hu => h u (List.mem_cons_of_mem v hu)
    simp only [List.map_cons, varsFromNodeBuilders, hrest, bind, Except.bind, pure, Except.pure,
      varFromNodeBuilder_written (h v List.mem_cons_self), Option.toList_some,
        List.singleton_append]

variable (C w) in
def modelElement (m : SDModel) : Element :=
  elementOf C (cstr "model") (optAttr "name" m.name)
    [.element (cstr "variables") [] (m.vars.map (varXmile w))]

theorem modelFromNodeBuilder_written {m : SDModel} (h : ∀ v ∈ m.vars, v.Writable C w) :
    modelFromNodeBuilder C (modelElement C w m) = .ok m := by
  have hname : nodeBuilderGetAttr (modelElement C w m) (cstr "name") = m.name := getAttr_opt _ _ _ _
  have hvars : (elementOf C (cstr "variables") [] (m.vars.map (varXmile w))).children =
      m.vars.map (varElement C w) := treesOf_map (fun _ => treeOf_element _ _ _) _
  have hkid : nodeBuilderGetFirstChild (modelElement C w m) (cstr "variables") =
      some (elementOf C (cstr "variables") [] (m.vars.map (varXmile w))) := by
    simp [nodeBuilderGetFirstChild_eq, modelElement, firstNamed_cons]
  simp only [modelFromNodeBuilder, hname, hkid, hvars, varsFromNodeBuilders_written h, bind,
    Except.bind, pure, Except.pure]

variable (C) in
def headerElement (h : Header) : Element :=
  elementOf C (cstr "header") []
    (.element (cstr "smile")
      (optAttr "version" h.smileVersion ++ optAttr "namespace" h.smileNamespace) [] ::
    (optXmile "name" h.name ++ (optXmile "uuid" h.uuid ++ (optXmile "vendor" h.vendor ++
      [.element (cstr "product")
        (optAttr "version" h.productVersion ++ optAttr "lang" h.productLang)
        (h.productName.map XmlItem.text).toList]))))

theorem xmileEndHeader_written {h : Header} (hw : h.Texts (Untrimmed C)) :
    xmileEndHeader LoadedFile.new.header (headerElement C h) = h := by
  have htext : ∀ (name : String) (o : Option CStr), (∀ s, o = some s → Untrimmed C s) →
      (firstNamed (o.map (textElement C name)).toList (cstr name)).bind (·.content) = o := by
    intro name o ho
    cases o with
    | none => rfl
    | some s => simp [textElement, firstNamed_cons, content_untrimmed (ho s rfl)]
  have hother : ∀ (name name' : String) (o : Option CStr), name ≠ name' →
      firstNamed (o.map (textElement C name)).toList (cstr name') = none := by
    intro name name' o hne
    refine firstNamed_none fun e he => ?_
    simp only [Option.mem_toList, Option.map_eq_some_iff] at he
    obtain ⟨s, -, rfl⟩ := he
    simp [textElement, cstr_inj, hne]
  have hkids : (headerElement C h).children =
      elementOf C (cstr "smile")
        (optAttr "version" h.smileVersion ++ optAttr "namespace" h.smileNamespace) [] ::
      ((h.name.map (textElement C "name")).toList ++ ((h.uuid.map (textElement C "uuid")).toList ++
        ((h.vendor.map (textElement C "vendor")).toList ++
          [elementOf C (cstr "product")
            (optAttr "version" h.productVersion ++ optAttr "lang" h.productLang)
            (h.productName.map XmlItem.text).toList]))) := by
    simp [headerElement, treesOf_append, optXmile, treesOf_option (treeOf_text _)]
  have hproduct : XmlItem.contentAfter C none (h.productName.map XmlItem.text).toList =
      h.productName := by
    cases hp : h.productName with
    | none => rfl
    | some s => exact content_untrimmed (hw.productName s hp)
  obtain ⟨hversion, hnamespace⟩ := getAttr_two (C := C) (cstr "smile")
    (show "version" ≠ "namespace" by decide) h.smileVersion h.smileNamespace []
  obtain ⟨hpversion, hlang⟩ :=
    getAttr_two (C := C) (cstr "product") (show "version" ≠ "lang" by decide)
    h.productVersion h.productLang (h.productName.map XmlItem.text).toList
  have hname := htext "name" h.name hw.name
  have huuid := htext "uuid" h.uuid hw.uuid
  have hvendor := htext "vendor" h.vendor hw.vendor
  simp [xmileEndHeader, childAttr, childContent_eq, nodeBuilderGetFirstChild_eq, hkids,
    firstNamed_cons, firstNamed_append, firstNamed_nil, cstr_inj, hother, hname, huuid, hvendor,
    hproduct, hversion, hnamespace, hpversion, hlang, stored, LoadedFile.new]

variable (C w) in
def simSpecsElement (f : LoadedFile) : Element :=
  elementOf C (cstr "sim_specs") (optAttr "method" f.method ++ optAttr "time_units" f.timeUnits)
    [textXmile "start" (w f.simSpecs.start), textXmile "stop" (w f.simSpecs.stop),
      textXmile "dt" (w f.simSpecs.dt), textXmile "savestep" (w f.simSpecs.savestep)]

theorem Libc.Writes.untrimmed {d : Double} (h : C.Writes w d) : Untrimmed C (w d) :=
  h.plain.untrimmed h.ascii

theorem xmileEndSimSpecs_written {f : LoadedFile} (h : f.Writable C w) (specs : LoadedSpecs) :
    xmileEndSimSpecs C specs (simSpecsElement C w f) = f.simSpecs := by
  have hstart := content_untrimmed h.start.untrimmed
  have hstop := content_untrimmed h.stop.untrimmed
  have hdt := content_untrimmed h.dt.untrimmed
  have hsave := content_untrimmed h.savestep.untrimmed
  simp [xmileEndSimSpecs, readDt, readNumber, childContent_eq, nodeBuilderGetFirstChild_eq,
    simSpecsElement, textElement, firstNamed_cons, firstNamed_nil, cstr_inj, hstart,
      hstop, hdt, hsave,
    h.start.read, h.stop.read, h.dt.read, h.savestep.read, getAttr_nil]

/-! ### The whole file -/

theorem loadGiven_models {models : List SDModel}
    (h : ∀ m ∈ models, ∀ v ∈ m.vars, v.Writable C w) (f : LoadedFile) :
    loadGiven C f (models.map fun m => (cstr "model", modelElement C w m)) =
      .ok { f with models := f.models ++ models } := by
  induction models generalizing f with
  | nil => simp [loadGiven]
  | cons m models ih =>
    have hm := modelFromNodeBuilder_written (h m List.mem_cons_self)
    have hend : xmileBuilderEndChild C f (cstr "model") (modelElement C w m) =
        .ok { f with models := f.models ++ [m] } := by
      simp [xmileBuilderEndChild, hm, cstr_inj, bind, Except.bind, pure, Except.pure]
    simp only [List.map_cons, loadGiven, hend, bind, Except.bind]
    rw [ih fun m' hm' => h m' (List.mem_cons_of_mem m hm')]
    simp

theorem loadGiven_written {f : LoadedFile} (h : f.Writable C w) :
    loadGiven C .new (XmlItem.givenFor C (itemsXmile w f)) = .ok f := by
  have hmodels : XmlItem.givenFor C (f.models.map (modelXmile w)) =
      f.models.map fun m => (cstr "model", modelElement C w m) := by
    induction f.models with
    | nil => rfl
    | cons m models ih => rw [List.map_cons, modelXmile, givenFor_element, ih]; rfl
  have hgiven : XmlItem.givenFor C (itemsXmile w f) = (cstr "header", headerElement C f.header) ::
      (cstr "sim_specs", simSpecsElement C w f) ::
      f.models.map fun m => (cstr "model", modelElement C w m) := by
    rw [itemsXmile, headerXmile, givenFor_element, simSpecsXmile, givenFor_element, hmodels]
    rfl
  have hspecs := xmileEndSimSpecs_written h .new
  obtain ⟨hmethod, hunits⟩ := getAttr_two (C := C) (cstr "sim_specs")
    (show "method" ≠ "time_units" by decide) f.method f.timeUnits
    [textXmile "start" (w f.simSpecs.start), textXmile "stop" (w f.simSpecs.stop),
      textXmile "dt" (w f.simSpecs.dt), textXmile "savestep" (w f.simSpecs.savestep)]
  have hheader : xmileBuilderEndChild C .new (cstr "header") (headerElement C f.header) =
      .ok { LoadedFile.new with header := f.header } := by
    simp [xmileBuilderEndChild, xmileEndHeader_written h.header]
  have hsimSpecs : xmileBuilderEndChild C { LoadedFile.new with header := f.header }
      (cstr "sim_specs") (simSpecsElement C w f) = .ok { LoadedFile.new with
        header := f.header
        simSpecs := f.simSpecs
        method := f.method
        timeUnits := f.timeUnits } := by
    rw [simSpecsElement] at hspecs ⊢
    simp [xmileBuilderEndChild, hspecs, hmethod, hunits, cstr_inj, stored, LoadedFile.new]
  rw [hgiven]
  simp only [loadGiven, hheader, hsimSpecs, loadGiven_models h.vars, bind, Except.bind]
  rfl

/-! ### The depth of the document -/

theorem depthAll_le {items : List XmlItem} {n : Nat} (h : ∀ item ∈ items, item.depth ≤ n) :
    XmlItem.depthAll items ≤ n := by
  induction items with
  | nil => exact Nat.zero_le n
  | cons item items ih =>
    rw [XmlItem.depthAll]
    exact max_le (h item List.mem_cons_self) (ih fun i hi => h i (List.mem_cons_of_mem item hi))

theorem depth_element_le {name : CStr} {attrs : List (CStr × CStr)} {items : List XmlItem} {n : Nat}
    (h : ∀ item ∈ items, item.depth ≤ n) : (XmlItem.element name attrs items).depth ≤ n + 1 := by
  rw [XmlItem.depth]
  exact Nat.succ_le_succ (depthAll_le h)

theorem depth_textXmile (name : String) (s : CStr) : (textXmile name s).depth ≤ 1 := by
  simp [textXmile, XmlItem.depth, XmlItem.depthAll]

theorem depth_optXmile {name : String} {o : Option CStr} {item : XmlItem}
    (h : item ∈ optXmile name o) : item.depth ≤ 1 := by
  simp only [optXmile, Option.mem_toList, Option.map_eq_some_iff] at h
  obtain ⟨s, -, rfl⟩ := h
  exact depth_textXmile name s

theorem depth_varXmile (v : Var) : (varXmile w v).depth ≤ 3 := by
  refine depth_element_le fun item hitem => ?_
  simp only [List.mem_append, List.mem_map, Option.mem_toList, Option.map_eq_some_iff] at hitem
  rcases hitem with h | ⟨n, -, rfl⟩ | ⟨n, -, rfl⟩ | h | ⟨c, -, rfl⟩ | ⟨t, -, rfl⟩
  · exact (depth_optXmile h).trans (by decide)
  · exact (depth_textXmile _ n).trans (by decide)
  · exact (depth_textXmile _ n).trans (by decide)
  · rw [nonnegXmile, List.mem_ite_nil_right, List.mem_singleton] at h
    obtain ⟨-, rfl⟩ := h
    simp [XmlItem.depth, XmlItem.depthAll]
  · simp [connXmile, XmlItem.depth, XmlItem.depthAll]
  · refine depth_element_le fun item hitem => ?_
    simp only [List.mem_cons, List.not_mem_nil, or_false] at hitem
    rcases hitem with rfl | rfl <;> exact depth_textXmile _ _

theorem depth_fileXmile (f : LoadedFile) : (fileXmile w f).depth ≤ 6 := by
  refine depth_element_le fun item hitem => ?_
  simp only [itemsXmile, List.mem_cons, List.mem_map] at hitem
  rcases hitem with rfl | rfl | ⟨m, -, rfl⟩
  · refine (depth_element_le (n := 2) fun item hitem => ?_).trans (by decide)
    simp only [List.mem_cons, List.mem_append, List.not_mem_nil, or_false] at hitem
    rcases hitem with rfl | h | h | h | rfl
    · simp [XmlItem.depth, XmlItem.depthAll]
    · exact (depth_optXmile h).trans (by decide)
    · exact (depth_optXmile h).trans (by decide)
    · exact (depth_optXmile h).trans (by decide)
    · cases f.header.productName <;> simp [XmlItem.depth, XmlItem.depthAll]
  · refine (depth_element_le (n := 1) fun item hitem => ?_).trans (by decide)
    simp only [List.mem_cons, List.not_mem_nil, or_false] at hitem
    rcases hitem with rfl | rfl | rfl | rfl <;> exact depth_textXmile _ _
  · refine depth_element_le fun item hitem => ?_
    obtain rfl := List.mem_singleton.mp hitem
    refine depth_element_le fun item hitem => ?_
    obtain ⟨v, -, rfl⟩ := List.mem_map.mp hitem
    exact depth_varXmile v

/-- The document fits on the stack of builders, whatever is in the file. -/
theorem projectParseFile_fileXmile (f : LoadedFile) :
    projectParseFile C ⟨(fileXmile w f).events, false⟩ =
      (loadGiven C .new (XmlItem.givenFor C (itemsXmile w f))).map .ok := by
  have hdepth : (fileXmile w f).depth ≤ STACKLEN := (depth_fileXmile f).trans (by decide)
  rw [fileXmile] at hdepth ⊢
  rw [projectParseFile_document, if_pos hdepth]

/-- The document of a file that can be written is loaded as the file. -/
theorem fileXmile_loaded {f : LoadedFile} (h : f.Writable C w) :
    projectParseFile C ⟨(fileXmile w f).events, false⟩ = .ok (.ok f) := by
  rw [projectParseFile_fileXmile, loadGiven_written h]
  rfl

/-- What `mdl` prints of a closed model that has been written out, under the conditions of
    `main_euler`, if the specs are numbers. -/
theorem main_written {percentF : ℚ → CStr} {env : Env} {fopen : CStr → Option XmlText}
    {argv0 path : CStr} {f : LoadedFile} {specs : SimSpec} {model : SDModel} {s : SDSim}
    (h : f.Writable C w) (hspecs : f.simSpecs.simSpec = some specs) (hmodels : f.models = [model])
    (hroot : model.name = none) (hclosed : model.Closed)
    (hargs : ∀ v ∈ model.vars, v.tree.Everywhere Node.ArgsFit)
    (hdot : ∀ v ∈ model.vars, ∀ n, v.name = some n → n.head? ≠ some 0x2E)
    (hpath : path.head? ≠ some 0x2D) (hopen : fopen path = some ⟨(fileXmile w f).events, false⟩)
    (hnew : sdSimNew env (.ofModels specs [model]) none = .ok s)
    (hfit : env.bounded = false ∨ SlabFits s)
    (hf : 0 < specs.dt ∨ specs.start ≤ specs.stop + 1 ∨ s.nsaves ≤ 1)
    (hvars : model.vars.length + 1 < 2 ^ 31) (hsaves : s.nsaves < 2 ^ 31) :
    (∃ σ, Euler env specs model σ) ∧ ∀ σ, Euler env specs model σ →
      Mdl.main percentF C env fopen argv0 [path] = .ok
        { status := 0
          stdout := Mdl.table (Mdl.flatLabels model) ((List.range s.nsaves).map fun i =>
            (Mdl.flatLabels model).map fun n => percentF (σ (i * s.saveEvery) n))
          stderr := [] } := by
  have hload : sdProjectOpen C (fopen path) = .ok (.ok (.ofModels specs [model])) := by
    simp only [hopen, sdProjectOpen, projectParseFile_fileXmile, loadGiven_written h, Except.map,
      LoadedFile.file, hspecs, hmodels, bind, Except.bind, pure, Except.pure]
    rfl
  have hmodel : sdProjectGetModel (.ofModels specs [model]) none = some (specs, model) := by
    simp [sdProjectGetModel, SDProject.ofModels, hroot]
  have heval := sdSimNew_evaluable hmodel hclosed hargs hnew
  obtain ⟨t, hrun, hex, hrows⟩ := Mdl.euler_rows_fits hmodel hclosed hargs hnew hfit hf
  exact ⟨hex, fun σ hσ =>
    Mdl.main_of_rows heval hpath hload hnew hdot hrun hvars hsaves (hrows σ hσ)⟩

end

/-! ### A file of every kind of element -/

def integerDigits : Double → CStr
  | .num q => cstr (toString q.num)
  | .inf neg => cstr (if neg then "-inf" else "inf")
  | .nan => cstr "nan"

/-- A reservoir that is filled through a table of its level. -/
def reservoirFile : LoadedFile where
  simSpecs := ⟨.num 0, .num 12, .num 1, .num 3⟩
  models := [{
    name := none
    vars := [
      { type := .stock, name := some (cstr "level"), eqn := some (cstr "10 + level_0"), src := none,
        inflows := [cstr "rain"], outflows := [cstr "use", cstr "leak"], conns := [], gf := none,
        isNonneg := true },
      { type := .aux, name := some (cstr "effect"), eqn := some (cstr "level / 2"), src := none,
        inflows := [], outflows := [], conns := [],
        gf := some ⟨[-5, 0, 20], [1, 2, 0], rfl⟩, isNonneg := false },
      { type := .module, name := some (cstr "town"), eqn := none, src := none,
        inflows := [], outflows := [], conns := [⟨cstr "supply", cstr "level"⟩], gf := none,
        isNonneg := false }] }]
  header :=
    { smileVersion := some (cstr "1.0"), smileNamespace := none, name := some (cstr "reservoir"),
      uuid := none, vendor := none, productName := some (cstr "editor"),
      productVersion := some (cstr "2"), productLang := none }
  method := some (cstr "euler")
  timeUnits := none

theorem integerDigits_writes {q : ℚ} (h : q ∈ [-5, 0, 20, 1, 2, 12, 3]) :
    plainLibc.Writes integerDigits (.num q) := by
  simp only [List.mem_cons, List.not_mem_nil, or_false] at h
  rcases h with rfl | rfl | rfl | rfl | rfl | rfl | rfl <;>
    exact ⟨by decide +kernel, by decide +kernel, by decide +kernel, by decide +kernel,
      by decide +kernel⟩

theorem reservoirFile_writable : reservoirFile.Writable plainLibc integerDigits where
  header := ⟨by rintro _ ⟨rfl⟩; decide +kernel, by rintro _ ⟨⟩, by rintro _ ⟨⟩,
    by rintro _ ⟨rfl⟩; decide +kernel⟩
  start := integerDigits_writes (by decide)
  stop := integerDigits_writes (by decide)
  dt := integerDigits_writes (by decide)
  savestep := integerDigits_writes (by decide)
  vars := by
    intro m hm v hv
    obtain rfl := List.mem_singleton.mp hm
    simp only [List.mem_cons, List.not_mem_nil, or_false] at hv
    rcases hv with rfl | rfl | rfl
    · exact ⟨by decide, by rintro _ ⟨rfl⟩; decide +kernel, by rintro _ ⟨rfl⟩; decide +kernel, rfl,
        by decide +kernel, by decide +kernel, by rintro _ ⟨⟩, by rintro _ ⟨⟩⟩
    · refine ⟨by decide, by rintro _ ⟨rfl⟩; decide +kernel, by rintro _ ⟨rfl⟩; decide +kernel, rfl,
        by rintro _ ⟨⟩, by rintro _ ⟨⟩, by rintro _ ⟨⟩, ?_⟩
      rintro _ ⟨rfl⟩
      exact ⟨by decide, fun q hq => integerDigits_writes (by revert q; decide)⟩
    · exact ⟨by decide, by rintro _ ⟨rfl⟩; decide +kernel, by rintro _ ⟨⟩, rfl,
        by rintro _ ⟨⟩, by rintro _ ⟨⟩, by decide +kernel, by rintro _ ⟨⟩⟩

theorem reservoirFile_loaded :
    projectParseFile plainLibc ⟨(fileXmile integerDigits reservoirFile).events, false⟩ =
      .ok (.ok reservoirFile) :=
  fileXmile_loaded reservoirFile_writable

/-- The file of `growthModel`. -/
def growthLoaded : LoadedFile where
  simSpecs := ⟨.num 0, .num 12, .num 1, .num 3⟩
  models := [growthModel]
  header := LoadedFile.new.header
  method := none
  timeUnits := none

theorem growthLoaded_writable : growthLoaded.Writable plainLibc integerDigits where
  header := ⟨by rintro _ ⟨⟩, by rintro _ ⟨⟩, by rintro _ ⟨⟩, by rintro _ ⟨⟩⟩
  start := integerDigits_writes (by decide)
  stop := integerDigits_writes (by decide)
  dt := integerDigits_writes (by decide)
  savestep := integerDigits_writes (by decide)
  vars := by
    intro m hm v hv
    obtain rfl := List.mem_singleton.mp hm
    simp only [growthModel, List.mem_cons, List.not_mem_nil, or_false] at hv
    rcases hv with rfl | rfl
    · exact ⟨by decide, by rintro _ ⟨rfl⟩; decide +kernel, by rintro _ ⟨rfl⟩; decide +kernel, rfl,
        by decide +kernel, by rintro _ ⟨⟩, by rintro _ ⟨⟩, by rintro _ ⟨⟩⟩
    · exact ⟨by decide, by rintro _ ⟨rfl⟩; decide +kernel, by rintro _ ⟨rfl⟩; decide +kernel, rfl,
        by rintro _ ⟨⟩, by rintro _ ⟨⟩, by rintro _ ⟨⟩, by rintro _ ⟨⟩⟩

theorem main_written_growth :
    ∃ s, sdSimNew (.plain true) (growth ⟨0, 12, 1, 3⟩) none = .ok s ∧
      ∀ σ, Euler (.plain true) ⟨0, 12, 1, 3⟩ growthModel σ →
        Mdl.main Mdl.sixDecimals plainLibc (.plain true)
          (fun _ => some ⟨(fileXmile integerDigits growthLoaded).events, false⟩)
          (cstr "mdl") [cstr "growth.xmile"] = .ok
          { status := 0
            stdout := Mdl.table (Mdl.flatLabels growthModel) ((List.range s.nsaves).map fun i =>
              (Mdl.flatLabels growthModel).map fun n => Mdl.sixDecimals (σ (i * s.saveEvery) n))
            stderr := [] } := by
  obtain ⟨s, hnew, hs⟩ := exists_ok
    (x := sdSimNew (.plain true) (growth ⟨0, 12, 1, 3⟩) none)
    (P := fun s => decide (s.saveEvery ∣ s.nsteps - 1 ∧ s.nsaves < 2 ^ 31)) (by decide +kernel)
  obtain ⟨hdiv, hsaves⟩ := of_decide_eq_true hs
  exact ⟨s, hnew, (main_written growthLoaded_writable rfl rfl rfl growthModel_closed
    growthModel_argsFit (by decide +kernel) (by decide +kernel) rfl hnew (.inr (.inl hdiv))
    (.inl (by decide)) (by decide) hsaves).2⟩

end Libsd

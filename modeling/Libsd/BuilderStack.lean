/-
  Libsd/BuilderStack.lean
  =======================
  **The stack of builders that the elements of a file are read with (`xml.c`).**

  The callbacks of the XML parser allocate a builder for each element, push it, and pop it
  again at its end, when its parent takes a reference or, directly under the root, reads
  what it needs.  Elements are well nested, as the XML parser guarantees: the events are
  those of an element and of what is inside it (`XmlItem.events`).

  Read without a limit, the stack and the counts are right after every prefix of the events,
  and everything is released once, whether the parser comes to the end or stops
  (`parseElements_balanced`).  The stack has `STACKLEN` slots, which no callback checks: it
  stays within them exactly when no more elements than that are open at once
  (`run_within_iff`).
-/
import Libsd.Lib.RefHeap
import Libsd.NodeBuilder

namespace Libsd

open RefHeap

def STACKLEN : Nat := 32

/-- The fields of a `NodeBuilder`, less the children. -/
structure NodeFields extends NodeBuilder where
  name : CStr
  attrs : List (CStr × CStr)
deriving DecidableEq, Repr

inductive BuilderFields where
  | xmile
  | node (nb : NodeFields)
deriving DecidableEq, Repr

abbrev BuilderHeap := Heap BuilderFields

/-- `stack` is listed from the top down.  `given` is what `xmile_builder_end_child` has been
    called with so far: the tag, and the tree that it finds behind `child`.  `bounded` says
    whether a store is held against the slots allocated. -/
structure BuilderStack where
  bounded : Bool
  heap : BuilderHeap
  stack : List Nat
  given : List (CStr × RefTree BuilderFields)

/-- Why a callback does not return. -/
inductive BuilderFault where
  | memory (why : Fault)
  | text (why : Stop)
  | slot               -- a store behind the last slot of the stack
  | empty              -- `stack[-1]` is read
deriving DecidableEq, Repr

/-- An access to a builder. -/
def onHeap {β : Type} (x : Except Fault β) : Except BuilderFault β :=
  match x with
  | .ok b => .ok b
  | .error e => .error (.memory e)

/-- The stack before the first event. -/
def BuilderStack.new (bounded : Bool) : BuilderStack :=
  { bounded := bounded, heap := .empty, stack := [], given := [] }

/-! ### The operations of the builders -/

def nodeBuilderNewOf (name : CStr) (attrs : List (CStr × CStr)) : BuilderFields :=
  .node { nodeBuilderNew with name := name, attrs := attrs }

/-- A bound for the recursion of `unref`, and of reading a tree. -/
def heapFuel (h : BuilderHeap) : Nat := h.next + 1

/-- An `XmileBuilder` leaves it to the caller to make the builder. -/
def builderStartChild (h : BuilderHeap) (b : Nat) (name : CStr) (attrs : List (CStr × CStr)) :
    Except BuilderFault (BuilderHeap × Option Nat) := do
  let c ← onHeap (h.get b)
  match c.val with
  | .xmile => return (h, none)
  | .node _ => return (h.alloc (nodeBuilderNewOf name attrs), some h.next)

/-- A `NodeBuilder` takes a reference to the child, an `XmileBuilder` only looks at it. -/
def builderEndChild (bs : BuilderStack) (b : Nat) (name : CStr) (child : Nat) :
    Except BuilderFault BuilderStack := do
  let c ← onHeap (bs.heap.get b)
  match c.val with
  | .xmile => do
    let t ← onHeap (bs.heap.read (heapFuel bs.heap) child)
    return { bs with given := bs.given ++ [(name, t)] }
  | .node _ => do
    let h ← onHeap (bs.heap.ref child)
    let h ← onHeap (h.addChild b child)
    return { bs with heap := h }

def builderCharactersAt (h : BuilderHeap) (b : Nat) (s : CStr) :
    Except BuilderFault BuilderHeap := do
  let c ← onHeap (h.get b)
  match c.val with
  | .xmile => return h
  | .node nb =>
    onHeap (h.setVal b
      (.node { nb with toNodeBuilder := nodeBuilderCharacters nb.toNodeBuilder s }))

def builderUnref (h : BuilderHeap) (b : Nat) : Except BuilderFault BuilderHeap :=
  onHeap (h.unref (heapFuel h) b)

/-! ### The callbacks -/

namespace BuilderStack

/-- `bs->stack[++bs->stack_top] = b`. -/
def push (bs : BuilderStack) (b : Nat) : Except BuilderFault BuilderStack :=
  if bs.bounded ∧ STACKLEN ≤ bs.stack.length then .error .slot
  else .ok { bs with stack := b :: bs.stack }

def startElement (bs : BuilderStack) (name : CStr) (attrs : List (CStr × CStr)) :
    Except BuilderFault BuilderStack :=
  match bs.stack with
  | [] => push { bs with heap := bs.heap.alloc .xmile } bs.heap.next
  | top :: _ => do
    let (h, b) ← builderStartChild bs.heap top name attrs
    match b with
    | some b => push { bs with heap := h } b
    | none => push { bs with heap := h.alloc (nodeBuilderNewOf name attrs) } h.next

/-- `builder_end_element` does nothing for either kind. -/
def endElement (bs : BuilderStack) (name : CStr) : Except BuilderFault BuilderStack :=
  match bs.stack with
  | [] => .ok bs
  | child :: rest => do
    let bs := { bs with stack := rest }
    let bs ← match rest with
      | [] => pure bs
      | parent :: _ => builderEndChild bs parent name child
    let h ← builderUnref bs.heap child
    return { bs with heap := h }

def characters (C : Libc) (bs : BuilderStack) (s : CStr) : Except BuilderFault BuilderStack :=
  match bs.stack with
  | [] => .error .empty
  | top :: _ =>
    match strtrim C s with
    | .error e => .error (.text e)
    | .ok s =>
      if s.length ≠ 0 then do
        let h ← builderCharactersAt bs.heap top s
        return { bs with heap := h }
      else .ok bs

end BuilderStack

inductive XmlEvent where
  | start (name : CStr) (attrs : List (CStr × CStr))
  | text (s : CStr)
  | stop (name : CStr)
deriving DecidableEq, Repr

section
variable (C : Libc)

def BuilderStack.handle (bs : BuilderStack) : XmlEvent → Except BuilderFault BuilderStack
  | .start name attrs => bs.startElement name attrs
  | .text s => bs.characters C s
  | .stop name => bs.endElement name

def BuilderStack.run (bs : BuilderStack) : List XmlEvent → Except BuilderFault BuilderStack
  | [] => .ok bs
  | e :: evs => do
    let bs ← bs.handle C e
    bs.run evs

/-- What `project_parse_file` does with the events it gets; when `XML_Parse` fails, it gives
    back what is on the stack. -/
def parseElements (bounded : Bool) (evs : List XmlEvent) (failed : Bool) :
    Except BuilderFault BuilderStack := do
  let bs ← (BuilderStack.new bounded).run C evs
  if failed then
    let h ← onHeap (Heap.unrefAll (Heap.unref (heapFuel bs.heap)) bs.stack bs.heap)
    return { bs with heap := h, stack := [] }
  else return bs

end

/-! ### What is in an element -/

/-- A piece of text, or an element with what is inside it. -/
inductive XmlItem where
  | text (s : CStr)
  | element (name : CStr) (attrs : List (CStr × CStr)) (items : List XmlItem)

namespace XmlItem

mutual
def events : XmlItem → List XmlEvent
  | text s => [.text s]
  | element name attrs items => .start name attrs :: (eventsAll items ++ [.stop name])

def eventsAll : List XmlItem → List XmlEvent
  | [] => []
  | item :: items => item.events ++ eventsAll items
end

section
variable (C : Libc)

/-- The content that the pieces of text leave behind `c`. -/
def contentAfter : Option CStr → List XmlItem → Option CStr
  | c, [] => c
  | c, text s :: items =>
    contentAfter
      (if strtrimmed C s = [] then c else some (c.getD [] ++ strtrimmed C s)) items
  | c, element _ _ _ :: items => contentAfter c items

/-- The builder of an element, from the list of the builders of its elements. -/
def builderOf (name : CStr) (attrs : List (CStr × CStr)) (items : List XmlItem) : BuilderFields :=
  .node { name := name, attrs := attrs, content := contentAfter C none items }

mutual
/-- The trees of the elements among the items. -/
def treeOf : XmlItem → List (RefTree BuilderFields)
  | text _ => []
  | element name attrs items => [.node (builderOf C name attrs items) (treesOf items)]

def treesOf : List XmlItem → List (RefTree BuilderFields)
  | [] => []
  | item :: items => item.treeOf ++ treesOf items
end

/-- What is in the root, as it is given to `xmile_builder_end_child`. -/
def givenFor : List XmlItem → List (CStr × RefTree BuilderFields)
  | [] => []
  | text _ :: items => givenFor items
  | element name attrs items :: rest =>
    (name, .node (builderOf C name attrs items) (treesOf C items)) :: givenFor rest

end

end XmlItem

/-! ### One event -/

/-- The builders are those of the trees `ts`, and the stack has their roots. -/
structure OnStack (bs : BuilderStack) (ts : List (RefTree (Nat × BuilderFields))) : Prop where
  forest : Forest bs.heap ts
  stack : bs.stack = ts.map RefTree.ptr

/-- What one callback leaves as it was, apart from `given`. -/
structure SameLimit (bs bs' : BuilderStack) : Prop where
  bounded : bs'.bounded = bs.bounded
  given : bs'.given = bs.given

variable {C : Libc} {bs bs' : BuilderStack} {ts : List (RefTree (Nat × BuilderFields))}

theorem push_unbounded (bs : BuilderStack) (hb : bs.bounded = false) (p : Nat) :
    bs.push p = .ok { bs with stack := p :: bs.stack } := by
  simp [BuilderStack.push, hb]

theorem get_root {t : RefTree (Nat × BuilderFields)} {ts} (h : OnStack bs (t :: ts)) :
    ∃ v kids p, t = .node (p, v) kids ∧ bs.heap.get p = .ok ⟨1, v, kids.map RefTree.ptr⟩ := by
  cases t with
  | node x kids =>
    obtain ⟨p, v⟩ := x
    exact ⟨v, kids, p, rfl, Heap.get_of_cells h.forest.held.1.1⟩

/-- The builder that is made for an element: the `XmileBuilder` for the first, whatever it
    is called. -/
def openedAs (bs : BuilderStack) (name : CStr) (attrs : List (CStr × CStr)) : BuilderFields :=
  if bs.stack.isEmpty then .xmile else nodeBuilderNewOf name attrs

/-- Both kinds of parent come to the same: a new builder is pushed. -/
theorem startElement_eq (h : OnStack bs ts) (name : CStr) (attrs : List (CStr × CStr)) :
    bs.startElement name attrs =
      BuilderStack.push { bs with heap := bs.heap.alloc (openedAs bs name attrs) }
        bs.heap.next := by
  obtain ⟨bounded, heap, stack, given⟩ := bs
  obtain rfl : stack = ts.map RefTree.ptr := h.stack
  cases ts with
  | nil => rfl
  | cons t ts =>
    obtain ⟨v, kids, p, rfl, hget⟩ := get_root h
    simp only [BuilderStack.startElement, List.map_cons, RefTree.ptr,
      builderStartChild, hget, onHeap,
      bind, Except.bind]
    cases v <;> rfl

theorem OnStack.start (h : OnStack bs ts) (hb : bs.bounded = false) (name : CStr)
    (attrs : List (CStr × CStr)) : ∃ bs', bs.startElement name attrs = .ok bs' ∧
      SameLimit bs bs' ∧ OnStack bs' (.node (bs.heap.next, openedAs bs name attrs) [] :: ts) := by
  rw [startElement_eq h]
  have hpush := push_unbounded { bs with heap := bs.heap.alloc (openedAs bs name attrs) } hb
    bs.heap.next
  exact ⟨_, hpush, ⟨rfl, rfl⟩, h.forest.alloc _, congrArg _ h.stack⟩

/-- Text for a builder; an `XmileBuilder` takes none. -/
def BuilderFields.addText (b : BuilderFields) (s : CStr) : BuilderFields :=
  match b with
  | .xmile => .xmile
  | .node nb => .node { nb with toNodeBuilder := nodeBuilderCharacters nb.toNodeBuilder s }

/-- What a piece of text does to a builder. -/
def BuilderFields.withText (C : Libc) (b : BuilderFields) (s : CStr) : BuilderFields :=
  if strtrimmed C s = [] then b else b.addText (strtrimmed C s)

theorem builderCharactersAt_ok {h : BuilderHeap} {p : Nat} {v : BuilderFields} {kids}
    (hf : Forest h (.node (p, v) kids :: ts)) (s : CStr) :
    ∃ h', builderCharactersAt h p s = .ok h' ∧ Forest h' (.node (p, v.addText s) kids :: ts) := by
  have hget : h.get p = .ok ⟨1, v, kids.map RefTree.ptr⟩ := Heap.get_of_cells hf.held.1.1
  simp only [builderCharactersAt, hget, onHeap, bind, Except.bind]
  cases v with
  | xmile => exact ⟨h, rfl, hf⟩
  | node nb =>
    obtain ⟨h', hset, -, hf'⟩ := hf.setVal ((BuilderFields.node nb).addText s)
    refine ⟨h', ?_, hf'⟩
    change onHeap (h.setVal p ((BuilderFields.node nb).addText s)) = .ok h'
    rw [hset]
    rfl

theorem OnStack.text {p : Nat} {v : BuilderFields} {kids} (h : OnStack bs (.node (p, v) kids :: ts))
    (s : CStr) : ∃ bs', bs.characters C s = .ok bs' ∧ SameLimit bs bs' ∧
      OnStack bs' (.node (p, v.withText C s) kids :: ts) := by
  have hs : bs.stack = p :: ts.map RefTree.ptr := h.stack
  simp only [BuilderStack.characters, hs, strtrim_eq, ne_eq, List.length_eq_zero_iff,
    BuilderFields.withText]
  by_cases hblank : strtrimmed C s = []
  · rw [if_neg (not_not.mpr hblank), if_pos hblank]
    exact ⟨bs, rfl, ⟨rfl, rfl⟩, h⟩
  · rw [if_pos hblank, if_neg hblank]
    obtain ⟨heap, hset, hf⟩ := builderCharactersAt_ok h.forest (strtrimmed C s)
    rw [hset]
    exact ⟨_, rfl, ⟨rfl, rfl⟩, hf, rfl⟩

theorem builderUnref_ok {h : BuilderHeap} {t : RefTree (Nat × BuilderFields)}
    (hf : Forest h (t :: ts)) :
    ∃ h', builderUnref h t.ptr = .ok h' ∧ Forest h' ts := by
  obtain ⟨h', heq, -, hf'⟩ := hf.drop (Nat.le_succ h.next)
  refine ⟨h', ?_, hf'⟩
  rw [builderUnref, heapFuel, heq]
  rfl

/-- The end of an element inside another: the parent takes the only reference over. -/
theorem OnStack.stopNested {c : RefTree (Nat × BuilderFields)} {p : Nat} {nb : NodeFields} {kids}
    (h : OnStack bs (c :: .node (p, .node nb) kids :: ts)) (name : CStr) :
    ∃ bs', bs.endElement name = .ok bs' ∧ SameLimit bs bs' ∧
      OnStack bs' (.node (p, .node nb) (kids ++ [c]) :: ts) := by
  have hs : bs.stack = c.ptr :: p :: ts.map RefTree.ptr := h.stack
  obtain ⟨h', heq, -, hf⟩ := h.forest.adopt bs.heap.next
  have hget : bs.heap.get p = .ok ⟨1, .node nb, kids.map RefTree.ptr⟩ :=
    Heap.get_of_cells h.forest.held.2.1.1
  obtain ⟨h1, href, heq⟩ := Outcome.bind_eq_ok heq
  obtain ⟨h2, hadd, hunref⟩ := Outcome.bind_eq_ok heq
  have hfuel : heapFuel h2 = bs.heap.next + 1 := by
    rw [heapFuel, Heap.addChild_next hadd, Heap.ref_next href]
  refine ⟨{ bs with heap := h', stack := p :: ts.map RefTree.ptr }, ?_, ⟨rfl, rfl⟩, hf, rfl⟩
  simp only [BuilderStack.endElement, hs, builderEndChild, hget, href, hadd, builderUnref, hfuel,
    hunref, onHeap, bind, Except.bind, pure, Except.pure]

/-- The end of an element directly under the root: its tree is given away, and released. -/
theorem OnStack.stopUnderRoot {c : RefTree (Nat × BuilderFields)} {p : Nat} {kids}
    (h : OnStack bs (c :: .node (p, .xmile) kids :: ts)) (name : CStr) :
    ∃ bs', bs.endElement name = .ok bs' ∧ bs'.bounded = bs.bounded ∧
      bs'.given = bs.given ++ [(name, c.erase)] ∧ OnStack bs' (.node (p, .xmile) kids :: ts) := by
  have hs : bs.stack = c.ptr :: p :: ts.map RefTree.ptr := h.stack
  have hget : bs.heap.get p = .ok ⟨1, .xmile, kids.map RefTree.ptr⟩ :=
    Heap.get_of_cells h.forest.held.2.1.1
  have hread := read_held h.forest.held.1
    (h.forest.ids_length_le.trans (Nat.le_succ bs.heap.next))
  obtain ⟨h', hunref, hf⟩ := builderUnref_ok h.forest
  simp only [BuilderStack.endElement, hs, builderEndChild, hget, heapFuel, hread, onHeap, bind,
    Except.bind, pure, Except.pure]
  rw [hunref]
  exact ⟨_, rfl, rfl, rfl, hf, rfl⟩

/-- The end of the root. -/
theorem OnStack.stopRoot {c : RefTree (Nat × BuilderFields)} (h : OnStack bs [c]) (name : CStr) :
    ∃ bs', bs.endElement name = .ok bs' ∧ SameLimit bs bs' ∧ OnStack bs' [] := by
  have hs : bs.stack = [c.ptr] := h.stack
  obtain ⟨h', hunref, hf⟩ := builderUnref_ok h.forest
  simp only [BuilderStack.endElement, hs, bind, Except.bind, pure, Except.pure, hunref]
  exact ⟨_, rfl, ⟨rfl, rfl⟩, hf, rfl⟩

/-! ### All events of an element -/

theorem BuilderStack.run_append (bs : BuilderStack) (evs evs' : List XmlEvent) :
    bs.run C (evs ++ evs') = (bs.run C evs).bind fun bs => bs.run C evs' := by
  induction evs generalizing bs with
  | nil => rfl
  | cons e evs ih =>
    simp only [List.cons_append, BuilderStack.run, bind, Except.bind]
    cases bs.handle C e with
    | ok bs1 => exact ih bs1
    | error err => rfl

theorem run_ok_append {evs evs' : List XmlEvent} {bs1 : BuilderStack} (h1 : bs.run C evs = .ok bs1)
    (h2 : bs1.run C evs' = .ok bs') : bs.run C (evs ++ evs') = .ok bs' := by
  rw [BuilderStack.run_append, h1]
  exact h2

theorem run_element {name : CStr} {attrs : List (CStr × CStr)} {items : List XmlItem}
    {bs1 bs2 : BuilderStack} (hstart : bs.startElement name attrs = .ok bs1)
    (hitems : bs1.run C (XmlItem.eventsAll items) = .ok bs2)
      (hstop : bs2.endElement name = .ok bs') :
    bs.run C (XmlItem.element name attrs items).events = .ok bs' := by
  simp only [XmlItem.events, BuilderStack.run, BuilderStack.handle, hstart, bind, Except.bind]
  refine run_ok_append hitems ?_
  simp only [BuilderStack.run, BuilderStack.handle, hstop, bind, Except.bind]

theorem SameLimit.trans {bs1 : BuilderStack} (h : SameLimit bs bs1) (h' : SameLimit bs1 bs') :
    SameLimit bs bs' :=
  ⟨h'.bounded.trans h.bounded, h'.given.trans h.given⟩

/-- The fields after the text in some items. -/
def NodeFields.after (C : Libc) (nb : NodeFields) (items : List XmlItem) : NodeFields :=
  { nb with content := XmlItem.contentAfter C nb.content items }

theorem withText_node (nb : NodeFields) (s : CStr) :
    (BuilderFields.node nb).withText C s = .node (nb.after C [.text s]) := by
  obtain ⟨⟨content⟩, name, attrs⟩ := nb
  simp only [BuilderFields.withText, NodeFields.after, XmlItem.contentAfter]
  by_cases hs : strtrimmed C s = []
  · rw [if_pos hs, if_pos hs]
  · rw [if_neg hs, if_neg hs]
    cases content <;> rfl

theorem after_cons (nb : NodeFields) (item : XmlItem) (items : List XmlItem) :
    (nb.after C [item]).after C items = nb.after C (item :: items) := by
  cases item <;> rfl

theorem openedAs_nested (h : OnStack bs ts) (hts : ts ≠ []) (name : CStr)
    (attrs : List (CStr × CStr)) :
    openedAs bs name attrs = nodeBuilderNewOf name attrs := by
  rw [openedAs, h.stack]
  cases ts with
  | nil => exact absurd rfl hts
  | cons t ts => rfl

mutual
/-- An item inside an element: the builder on top gets its text, or its tree. -/
theorem run_item : ∀ (item : XmlItem) {bs : BuilderStack} {p : Nat} {nb : NodeFields}
    {kids ts : List (RefTree (Nat × BuilderFields))}, OnStack bs (.node (p, .node nb) kids :: ts) →
    bs.bounded = false → ∃ bs' kids', bs.run C item.events = .ok bs' ∧ SameLimit bs bs' ∧
      OnStack bs' (.node (p, .node (nb.after C [item])) (kids ++ kids') :: ts) ∧
      RefTree.eraseAll kids' = item.treeOf C
  | .text s, bs, p, nb, kids, ts, h, _ => by
    obtain ⟨bs', heq, hsame, h'⟩ := h.text s
    rw [withText_node] at h'
    refine ⟨bs', [], ?_, hsame, by rwa [List.append_nil], rfl⟩
    simp only [XmlItem.events, BuilderStack.run, BuilderStack.handle, heq, bind, Except.bind]
  | .element name attrs items, bs, p, nb, kids, ts, h, hb => by
    obtain ⟨bs1, heq1, hsame1, h1⟩ := h.start hb name attrs
    rw [openedAs_nested h (List.cons_ne_nil _ _)] at h1
    obtain ⟨bs2, kids', heq2, hsame2, h2, hkids⟩ := run_items items h1 (hsame1.bounded.trans hb)
    obtain ⟨bs3, heq3, hsame3, h3⟩ := h2.stopNested name
    refine ⟨bs3, [.node (bs.heap.next, XmlItem.builderOf C name attrs items) kids'],
      run_element heq1 heq2 heq3, (hsame1.trans hsame2).trans hsame3, h3, ?_⟩
    simp only [RefTree.eraseAll, RefTree.erase, XmlItem.treeOf, hkids]

theorem run_items : ∀ (items : List XmlItem) {bs : BuilderStack} {p : Nat} {nb : NodeFields}
    {kids ts : List (RefTree (Nat × BuilderFields))}, OnStack bs (.node (p, .node nb) kids :: ts) →
    bs.bounded = false → ∃ bs' kids', bs.run C (XmlItem.eventsAll items) = .ok bs' ∧
      SameLimit bs bs' ∧
      OnStack bs' (.node (p, .node (nb.after C items)) (kids ++ kids') :: ts) ∧
      RefTree.eraseAll kids' = XmlItem.treesOf C items
  | [], bs, p, nb, kids, ts, h, _ => by
    exact ⟨bs, [], rfl, ⟨rfl, rfl⟩, by rwa [List.append_nil], rfl⟩
  | item :: items, bs, p, nb, kids, ts, h, hb => by
    obtain ⟨bs1, kids1, heq1, hsame1, h1, hkids1⟩ := run_item item h hb
    obtain ⟨bs2, kids2, heq2, hsame2, h2, hkids2⟩ := run_items items h1 (hsame1.bounded.trans hb)
    rw [after_cons, List.append_assoc] at h2
    refine ⟨bs2, kids1 ++ kids2, run_ok_append heq1 heq2, hsame1.trans hsame2, h2, ?_⟩
    rw [RefTree.eraseAll_append, hkids1, hkids2, XmlItem.treesOf]
end

/-- An element directly under the root: what is given is its tree, and the stack is as
    before. -/
theorem run_underRoot {p : Nat} {kids} (h : OnStack bs (.node (p, .xmile) kids :: ts))
    (hb : bs.bounded = false) (name : CStr) (attrs : List (CStr × CStr)) (items : List XmlItem) :
    ∃ bs', bs.run C (XmlItem.element name attrs items).events = .ok bs' ∧ bs'.bounded = false ∧
      bs'.given = bs.given ++
        [(name, .node (XmlItem.builderOf C name attrs items) (XmlItem.treesOf C items))] ∧
      OnStack bs' (.node (p, .xmile) kids :: ts) := by
  obtain ⟨bs1, heq1, hsame1, h1⟩ := h.start hb name attrs
  rw [openedAs_nested h (List.cons_ne_nil _ _)] at h1
  obtain ⟨bs2, kids', heq2, hsame2, h2, hkids⟩ := run_items items h1 (hsame1.bounded.trans hb)
  obtain ⟨bs3, heq3, hbounded, hgiven, h3⟩ := h2.stopUnderRoot name
  have hsame := hsame1.trans hsame2
  refine ⟨bs3, run_element heq1 heq2 heq3, (hbounded.trans hsame.bounded).trans hb, ?_, h3⟩
  rw [hgiven, hsame.given, RefTree.erase, ← hkids]
  rfl

/-- The items of the root, one after another. -/
theorem run_root (items : List XmlItem) {p : Nat} {kids}
    (h : OnStack bs (.node (p, .xmile) kids :: ts)) (hb : bs.bounded = false) :
    ∃ bs', bs.run C (XmlItem.eventsAll items) = .ok bs' ∧ bs'.bounded = false ∧
      bs'.given = bs.given ++ XmlItem.givenFor C items ∧
      OnStack bs' (.node (p, .xmile) kids :: ts) := by
  induction items generalizing bs with
  | nil => exact ⟨bs, rfl, hb, (List.append_nil _).symm, h⟩
  | cons item items ih =>
    cases item with
    | text s =>
      obtain ⟨bs1, heq1, hsame1, h1⟩ := h.text s
      have hxmile : BuilderFields.xmile.withText C s = .xmile := ite_self _
      rw [hxmile] at h1
      obtain ⟨bs2, heq2, hb2, hgiven2, h2⟩ := ih h1 (hsame1.bounded.trans hb)
      refine ⟨bs2, ?_, hb2, hgiven2.trans (by rw [hsame1.given]; rfl), h2⟩
      simp only [XmlItem.eventsAll, XmlItem.events, List.cons_append, List.nil_append,
        BuilderStack.run, BuilderStack.handle, heq1, heq2, bind, Except.bind]
    | element name attrs sub =>
      obtain ⟨bs1, heq1, hb1, hgiven1, h1⟩ := run_underRoot h hb name attrs sub
      obtain ⟨bs2, heq2, hb2, hgiven2, h2⟩ := ih h1 hb1
      refine ⟨bs2, run_ok_append heq1 heq2, hb2, ?_, h2⟩
      rw [hgiven2, hgiven1, List.append_assoc]
      rfl

/-! ### A document -/

theorem onStack_new (bounded : Bool) : OnStack (.new bounded) [] :=
  ⟨forest_empty, rfl⟩

/-- The root and what is in it, before its end. -/
theorem run_opened (name : CStr) (attrs : List (CStr × CStr)) (items : List XmlItem) :
    ∃ bs p kids,
      (BuilderStack.new false).run C (.start name attrs :: XmlItem.eventsAll items) = .ok bs ∧
      bs.bounded = false ∧ bs.given = XmlItem.givenFor C items ∧
      OnStack bs [.node (p, .xmile) kids] := by
  obtain ⟨bs1, heq1, hsame1, h1⟩ := (onStack_new false).start rfl name attrs
  obtain ⟨bs2, heq2, hb2, hgiven2, h2⟩ := run_root items h1 hsame1.bounded
  refine ⟨bs2, _, _, ?_, hb2, by rw [hgiven2, hsame1.given]; rfl, h2⟩
  simp only [BuilderStack.run, BuilderStack.handle, heq1, heq2, bind, Except.bind]

theorem run_document (name : CStr) (attrs : List (CStr × CStr)) (items : List XmlItem) :
    ∃ bs, (BuilderStack.new false).run C (XmlItem.element name attrs items).events = .ok bs ∧
      OnStack bs [] := by
  obtain ⟨bs1, p, kids, heq1, -, -, h1⟩ := run_opened name attrs items
  obtain ⟨bs2, heq2, -, h2⟩ := h1.stopRoot name
  refine ⟨bs2, ?_, h2⟩
  have hevents : (XmlItem.element name attrs items).events =
      (.start name attrs :: XmlItem.eventsAll items) ++ [.stop name] := by
    rw [XmlItem.events, List.cons_append]
  rw [hevents]
  refine run_ok_append heq1 ?_
  simp only [BuilderStack.run, BuilderStack.handle, heq2, bind, Except.bind]

/-- How many elements are open after an event. -/
def opened (d : Nat) : XmlEvent → Nat
  | .start _ _ => d + 1
  | .text _ => d
  | .stop _ => d - 1

/-- One callback, whatever it is, keeps the counts right; the stack is as long as elements
    are open. -/
theorem OnStack.handle (h : OnStack bs ts) (hb : bs.bounded = false) {e : XmlEvent}
    (heq : bs.handle C e = .ok bs') :
    bs'.bounded = false ∧ ∃ ts', OnStack bs' ts' ∧ ts'.length = opened ts.length e := by
  cases e with
  | start name attrs =>
    obtain ⟨bs1, heq1, hsame1, h1⟩ := h.start hb name attrs
    cases heq.symm.trans heq1
    exact ⟨hsame1.bounded.trans hb, _, h1, rfl⟩
  | text s =>
    cases ts with
    | nil => simp [BuilderStack.handle, BuilderStack.characters, h.stack] at heq
    | cons t ts =>
      obtain ⟨⟨p, v⟩, kids⟩ := t
      obtain ⟨bs1, heq1, hsame1, h1⟩ := h.text s
      cases heq.symm.trans heq1
      exact ⟨hsame1.bounded.trans hb, _, h1, rfl⟩
  | stop name =>
    cases ts with
    | nil =>
      simp only [BuilderStack.handle, BuilderStack.endElement, h.stack, List.map_nil,
        Except.ok.injEq] at heq
      exact ⟨heq ▸ hb, _, heq ▸ h, rfl⟩
    | cons c ts =>
      cases ts with
      | nil =>
        obtain ⟨bs1, heq1, hsame1, h1⟩ := h.stopRoot name
        cases heq.symm.trans heq1
        exact ⟨hsame1.bounded.trans hb, _, h1, rfl⟩
      | cons t ts =>
        obtain ⟨⟨p, v⟩, kids⟩ := t
        cases v with
        | xmile =>
          obtain ⟨bs1, heq1, hb1, -, h1⟩ := h.stopUnderRoot name
          cases heq.symm.trans heq1
          exact ⟨hb1.trans hb, _, h1, rfl⟩
        | node nb =>
          obtain ⟨bs1, heq1, hsame1, h1⟩ := h.stopNested name
          cases heq.symm.trans heq1
          exact ⟨hsame1.bounded.trans hb, _, h1, rfl⟩

theorem OnStack.run (h : OnStack bs ts) (hb : bs.bounded = false) {evs : List XmlEvent}
    (heq : bs.run C evs = .ok bs') : bs'.bounded = false ∧ ∃ ts', OnStack bs' ts' := by
  induction evs generalizing bs ts with
  | nil =>
    cases heq
    exact ⟨hb, ts, h⟩
  | cons e evs ih =>
    obtain ⟨bs1, heq1, hrest⟩ := Outcome.bind_eq_ok heq
    obtain ⟨hb1, ts1, h1, -⟩ := h.handle hb heq1
    exact ih h1 hb1 hrest

/-- What has been allocated has been released once. -/
def AllReleased (h : BuilderHeap) : Prop :=
  ∀ p, h.released p = if p < h.next then 1 else 0

theorem allReleased_of_forest {h : BuilderHeap} (hf : Forest h []) : AllReleased h := by
  intro p
  rw [hf.once]
  simp [RefTree.idsAll]

/-- After a prefix of the events of a document: the builders are those of some trees. -/
theorem run_prefix (name : CStr) (attrs : List (CStr × CStr)) (items : List XmlItem) (k : Nat) :
    ∃ bs ts,
      (BuilderStack.new false).run C ((XmlItem.element name attrs items).events.take k) = .ok bs ∧
      OnStack bs ts := by
  obtain ⟨bs, heq, -⟩ := run_document name attrs items
  rw [← List.take_append_drop k (XmlItem.element name attrs items).events,
    BuilderStack.run_append] at heq
  obtain ⟨bs1, heq1, -⟩ := Outcome.bind_eq_ok heq
  obtain ⟨-, ts, h1⟩ := (onStack_new false).run rfl heq1
  exact ⟨bs1, ts, heq1, h1⟩

/-- The stack and the counts, with no limit to the stack.

    * An element under the root leaves the stack as it was, and its tree is what is given to
      `xmile_builder_end_child`, after those of the elements before it.
    * After a prefix of the events, the count of each builder is the number of its owners.
    * When the parser stops there, every builder is released, once.
    * So it is at the end of the document. -/
theorem parseElements_balanced (C : Libc) (name : CStr) (attrs : List (CStr × CStr))
    (items : List XmlItem) :
    (∀ before tag tagAttrs sub, ∃ bs bs',
      (BuilderStack.new false).run C (.start name attrs :: XmlItem.eventsAll before) = .ok bs ∧
      bs.run C (XmlItem.element tag tagAttrs sub).events = .ok bs' ∧
      bs'.stack = bs.stack ∧ bs.given = XmlItem.givenFor C before ∧
      bs'.given = bs.given ++
        [(tag, .node (XmlItem.builderOf C tag tagAttrs sub) (XmlItem.treesOf C sub))]) ∧
    (∀ k, ∃ bs,
      (BuilderStack.new false).run C ((XmlItem.element name attrs items).events.take k) = .ok bs ∧
      ∀ p c, bs.heap.cells p = some c → c.refcount = bs.heap.owners bs.stack p) ∧
    (∀ k, ∃ bs,
      parseElements C false ((XmlItem.element name attrs items).events.take k) true = .ok bs ∧
      AllReleased bs.heap) ∧
    ∃ bs, parseElements C false (XmlItem.element name attrs items).events false = .ok bs ∧
      AllReleased bs.heap := by
  refine ⟨fun before tag tagAttrs sub => ?_, fun k => ?_, fun k => ?_, ?_⟩
  · obtain ⟨bs, p, kids, heq, hb, hgiven, h⟩ := run_opened name attrs before
    obtain ⟨bs', heq', -, hgiven', h'⟩ := run_underRoot h hb tag tagAttrs sub
    exact ⟨bs, bs', heq, heq', h'.stack.trans h.stack.symm, hgiven, hgiven'⟩
  · obtain ⟨bs, ts, heq, h⟩ := run_prefix (C := C) name attrs items k
    refine ⟨bs, heq, fun p c hc => ?_⟩
    rw [h.stack]
    exact h.forest.refcount_eq_owners hc
  · obtain ⟨bs, ts, heq, h⟩ := run_prefix (C := C) name attrs items k
    obtain ⟨heap, hdrop, -, hf⟩ := h.forest.dropAll (Nat.le_succ bs.heap.next)
    refine ⟨{ bs with heap := heap, stack := [] }, ?_, allReleased_of_forest hf⟩
    simp only [parseElements, heq, h.stack, heapFuel, hdrop, onHeap, bind, Except.bind, if_true,
      pure, Except.pure]
  · obtain ⟨bs, heq, h⟩ := run_document (C := C) name attrs items
    refine ⟨bs, ?_, allReleased_of_forest h.forest⟩
    simp only [parseElements, heq, bind, Except.bind, Bool.false_eq_true, if_false, pure,
      Except.pure]

/-! ### The slots of the stack -/

/-- The most elements that are open at once. -/
def maxOpen : Nat → List XmlEvent → Nat
  | d, [] => d
  | d, e :: evs => max d (maxOpen (opened d e) evs)

theorem le_maxOpen (d : Nat) (evs : List XmlEvent) : d ≤ maxOpen d evs := by
  cases evs with
  | nil => exact le_refl d
  | cons e evs => exact le_max_left _ _

/-- The same stack, in the slots that are allocated. -/
def BuilderStack.limited (bs : BuilderStack) : BuilderStack := { bs with bounded := true }

theorem characters_limited (bs : BuilderStack) (s : CStr) :
    bs.limited.characters C s = (bs.characters C s).map BuilderStack.limited := by
  obtain ⟨bounded, heap, stack, given⟩ := bs
  cases stack with
  | nil => rfl
  | cons top rest =>
    simp only [BuilderStack.characters, BuilderStack.limited, strtrim_eq]
    by_cases hs : (strtrimmed C s).length ≠ 0
    · rw [if_pos hs, if_pos hs]
      cases builderCharactersAt heap top (strtrimmed C s) <;> rfl
    · rw [if_neg hs, if_neg hs]
      rfl

theorem builderEndChild_limited (bs : BuilderStack) (b : Nat) (name : CStr) (child : Nat) :
    builderEndChild bs.limited b name child =
      (builderEndChild bs b name child).map BuilderStack.limited := by
  obtain ⟨bounded, heap, stack, given⟩ := bs
  simp only [builderEndChild, BuilderStack.limited, bind, Except.bind]
  cases onHeap (heap.get b) with
  | error e => rfl
  | ok c =>
    obtain ⟨refcount, v, children⟩ := c
    cases v with
    | xmile => cases onHeap (heap.read (heapFuel heap) child) <;> rfl
    | node nb =>
      cases onHeap (heap.ref child) with
      | error e => rfl
      | ok h =>
        dsimp only
        cases onHeap (h.addChild b child) <;> rfl

theorem endElement_limited (bs : BuilderStack) (name : CStr) :
    bs.limited.endElement name = (bs.endElement name).map BuilderStack.limited := by
  obtain ⟨bounded, heap, stack, given⟩ := bs
  cases stack with
  | nil => rfl
  | cons child rest =>
    simp only [BuilderStack.endElement, BuilderStack.limited]
    cases rest with
    | nil =>
      simp only [bind, Except.bind, pure, Except.pure]
      cases builderUnref heap child <;> rfl
    | cons parent rest =>
      have hend := builderEndChild_limited ⟨bounded, heap, parent :: rest, given⟩ parent name child
      simp only [BuilderStack.limited] at hend
      simp only [bind, Except.bind, hend]
      cases builderEndChild ⟨bounded, heap, parent :: rest, given⟩ parent name child with
      | error e => rfl
      | ok bs =>
        have hheap : bs.limited.heap = bs.heap := rfl
        simp only [Except.map, hheap]
        cases builderUnref bs.heap child <;> rfl

/-- In the slots that are allocated a callback does the same, unless one more element is
    opened than there are slots. -/
theorem OnStack.handle_limited (h : OnStack bs ts) (hb : bs.bounded = false) {e : XmlEvent}
    (heq : bs.handle C e = .ok bs') (hlen : ts.length ≤ STACKLEN) :
    bs.limited.handle C e =
      if opened ts.length e ≤ STACKLEN then .ok bs'.limited else .error .slot := by
  have hstack : bs.stack.length = ts.length := by rw [h.stack, List.length_map]
  cases e with
  | start name attrs =>
    have hlim : OnStack bs.limited ts := ⟨h.forest, h.stack⟩
    have hpush := push_unbounded { bs with heap := bs.heap.alloc (openedAs bs name attrs) } hb
      bs.heap.next
    cases heq.symm.trans ((startElement_eq h name attrs).trans hpush)
    rw [BuilderStack.handle, startElement_eq hlim, opened]
    by_cases hfull : STACKLEN ≤ ts.length
    · rw [if_neg (by omega), BuilderStack.push]
      exact if_pos ⟨rfl, hstack ▸ hfull⟩
    · rw [if_pos (by omega), BuilderStack.push]
      exact if_neg fun hno => hfull (hstack ▸ hno.2)
  | text s =>
    rw [BuilderStack.handle] at heq
    rw [BuilderStack.handle, characters_limited, heq, opened, if_pos hlen]
    rfl
  | stop name =>
    rw [BuilderStack.handle] at heq
    rw [BuilderStack.handle, endElement_limited, heq, opened, if_pos ((Nat.sub_le _ _).trans hlen)]
    rfl

theorem OnStack.run_limited (h : OnStack bs ts) (hb : bs.bounded = false) {evs : List XmlEvent}
    (heq : bs.run C evs = .ok bs') (hlen : ts.length ≤ STACKLEN) :
    bs.limited.run C evs ≠ .error .slot ↔ maxOpen ts.length evs ≤ STACKLEN := by
  induction evs generalizing bs ts with
  | nil =>
    simp only [BuilderStack.run, maxOpen, hlen, iff_true]
    exact fun hno => nomatch hno
  | cons e evs ih =>
    obtain ⟨bs1, heq1, hrest⟩ := Outcome.bind_eq_ok heq
    obtain ⟨hb1, ts1, h1, hlen1⟩ := h.handle hb heq1
    simp only [BuilderStack.run, bind, Except.bind, h.handle_limited hb heq1 hlen, maxOpen,
      max_le_iff, hlen, true_and]
    by_cases hopen : opened ts.length e ≤ STACKLEN
    · rw [if_pos hopen, ← hlen1]
      exact ih h1 hb1 hrest (hlen1 ▸ hopen)
    · rw [if_neg hopen]
      have hle := le_maxOpen (opened ts.length e) evs
      exact ⟨fun hno => absurd rfl hno, fun hmax => absurd (hle.trans hmax) hopen⟩

/-- The stack stays within its slots exactly when no more elements than that are open at
    once; nothing else is held against a document. -/
theorem run_within_iff (C : Libc) (name : CStr) (attrs : List (CStr × CStr))
    (items : List XmlItem) (k : Nat) :
    (BuilderStack.new true).run C ((XmlItem.element name attrs items).events.take k) ≠
      .error .slot ↔
      maxOpen 0 ((XmlItem.element name attrs items).events.take k) ≤ STACKLEN := by
  obtain ⟨bs, ts, heq, -⟩ := run_prefix name attrs items k
  exact (onStack_new false).run_limited rfl heq (Nat.zero_le STACKLEN)

/-- Groups, one inside another. -/
def nestedGroups : Nat → XmlItem
  | 0 => .element (cstr "group") [] []
  | n + 1 => .element (cstr "group") [] [nestedGroups n]

/-- With 32 elements inside one another in the root, the last is stored behind the stack. -/
theorem nestedGroups_overflow :
    (BuilderStack.new true).run plainLibc (nestedGroups 32).events = .error .slot :=
  rfl

end Libsd

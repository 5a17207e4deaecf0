/-
  Libsd/Documents.lean
  ====================
  **What is loaded of a document: the elements in its root.**

  The loader is given the trees of the elements directly under the root, in order, as long
  as no more than `STACKLEN` elements are inside one another (`projectParseFile_document`).
-/
import Libsd.Loader

namespace Libsd

/-! ### String constants -/

theorem toList_loop (b : ByteArray) : ∀ (n i : Nat) (r : List UInt8), b.size - i = n →
    ByteArray.toList.loop b i r = r.reverse ++ b.data.toList.drop i := by
  have hsize : b.size = b.data.toList.length := by
    cases b
    rfl
  intro n
  induction n with
  | zero =>
    intro i r h
    rw [ByteArray.toList.loop, if_neg (by omega), List.drop_eq_nil_of_le (by omega),
      List.append_nil]
  | succ n ih =>
    intro i r h
    have hlt : i < b.data.toList.length := by omega
    have hget : b.get! i = b.data.toList[i] := by
      obtain ⟨a⟩ := b
      have hlt : i < a.size := by simpa using hlt
      simp [ByteArray.get!, hlt]
    rw [ByteArray.toList.loop, if_pos (by omega), ih (i + 1) _ (by omega),
      List.drop_eq_getElem_cons hlt, hget, List.reverse_cons, List.append_assoc,
      List.singleton_append]

/-- String constants differ when the strings do. -/
theorem cstr_inj {s t : String} : cstr s = cstr t ↔ s = t := by
  have htoList : ∀ b : ByteArray, b.toList = b.data.toList := fun b => by
    rw [ByteArray.toList, toList_loop b _ 0 [] rfl]
    rfl
  constructor
  · intro h
    rw [cstr, cstr, htoList, htoList] at h
    exact String.toByteArray_inj.mp (ByteArray.ext (Array.toList_inj.mp h))
  · rintro rfl
    rfl

/-! ### How deep a document is -/

namespace XmlItem

mutual
/-- How many elements are inside one another. -/
def depth : XmlItem → Nat
  | text _ => 0
  | element _ _ items => depthAll items + 1

def depthAll : List XmlItem → Nat
  | [] => 0
  | item :: items => max item.depth (depthAll items)
end

mutual
theorem maxOpen_events : ∀ (item : XmlItem) (d : Nat) (rest : List XmlEvent),
    maxOpen d (item.events ++ rest) = max (d + item.depth) (maxOpen d rest)
  | text s, d, rest => by
    rw [events, List.singleton_append, maxOpen, opened, depth, Nat.add_zero]
  | element name attrs items, d, rest => by
    have hrest := maxOpen_eventsAll items (d + 1) (.stop name :: rest)
    have hstop : maxOpen (d + 1) (.stop name :: rest) = max (d + 1) (maxOpen d rest) := by
      rw [maxOpen, opened, Nat.add_sub_cancel]
    rw [events, List.cons_append, List.append_assoc, List.singleton_append, maxOpen, opened, hrest,
      hstop, depth]
    omega

theorem maxOpen_eventsAll : ∀ (items : List XmlItem) (d : Nat) (rest : List XmlEvent),
    maxOpen d (eventsAll items ++ rest) = max (d + depthAll items) (maxOpen d rest)
  | [], d, rest => by
    have hle := le_maxOpen d rest
    rw [eventsAll, List.nil_append, depthAll]
    omega
  | item :: items, d, rest => by
    rw [eventsAll, List.append_assoc, maxOpen_events item, maxOpen_eventsAll items, depthAll]
    omega
end

end XmlItem

/-- Within the slots of the stack, a run goes as it would without a limit. -/
theorem OnStack.run_within {C : Libc} {bs bs' : BuilderStack}
    {ts : List (RefHeap.RefTree (Nat × BuilderFields))}
    (h : OnStack bs ts) (hb : bs.bounded = false) {evs : List XmlEvent}
      (heq : bs.run C evs = .ok bs')
    (hmax : maxOpen ts.length evs ≤ STACKLEN) : bs.limited.run C evs = .ok bs'.limited := by
  induction evs generalizing bs ts with
  | nil =>
    cases heq
    rfl
  | cons e evs ih =>
    obtain ⟨bs1, heq1, hrest⟩ := Outcome.bind_eq_ok heq
    obtain ⟨hb1, ts1, h1, hlen1⟩ := h.handle hb heq1
    rw [maxOpen, max_le_iff] at hmax
    have hopen : opened ts.length e ≤ STACKLEN := (le_maxOpen _ _).trans hmax.2
    simp only [BuilderStack.run, bind, Except.bind, h.handle_limited hb heq1 hmax.1, if_pos hopen]
    exact ih h1 hb1 hrest (hlen1 ▸ hmax.2)

/-- The elements of a document's root are given, unless the document is too deep. -/
theorem parseElements_document (C : Libc) (name : CStr) (attrs : List (CStr × CStr))
    (items : List XmlItem) :
    if (XmlItem.element name attrs items).depth ≤ STACKLEN then
      ∃ bs, parseElements C true (XmlItem.element name attrs items).events false = .ok bs ∧
        bs.given = XmlItem.givenFor C items
    else parseElements C true (XmlItem.element name attrs items).events false = .error .slot := by
  obtain ⟨bs1, p, kids, heq1, -, hgiven1, h1⟩ := run_opened (C := C) name attrs items
  obtain ⟨bs2, heq2, hsame2, h2⟩ := h1.stopRoot name
  have hevents : (XmlItem.element name attrs items).events =
      (.start name attrs :: XmlItem.eventsAll items) ++ [.stop name] := by
    rw [XmlItem.events, List.cons_append]
  have hrun :
      (BuilderStack.new false).run C (XmlItem.element name attrs items).events = .ok bs2 := by
    rw [hevents]
    refine run_ok_append heq1 ?_
    simp only [BuilderStack.run, BuilderStack.handle, heq2, bind, Except.bind]
  have hmax : maxOpen 0 (XmlItem.element name attrs items).events =
      (XmlItem.element name attrs items).depth := by
    have h := XmlItem.maxOpen_events (.element name attrs items) 0 []
    rw [List.append_nil, Nat.zero_add, maxOpen, Nat.max_zero] at h
    exact h
  have hnew := onStack_new false
  split
  · next hle =>
    have hlim := hnew.run_within rfl hrun (by rwa [List.length_nil, hmax])
    refine ⟨bs2.limited, ?_, hsame2.given.trans hgiven1⟩
    have hlim : (BuilderStack.new true).run C (XmlItem.element name attrs items).events =
        .ok bs2.limited := hlim
    simp only [parseElements, hlim, bind, Except.bind, Bool.false_eq_true, if_false, pure,
      Except.pure]
  · next hlt =>
    have hslot := mt (hnew.run_limited rfl hrun (Nat.zero_le STACKLEN)).mp
      (by rwa [List.length_nil, hmax])
    have hslot : (BuilderStack.new true).run C (XmlItem.element name attrs items).events =
        .error .slot := not_not.mp hslot
    simp only [parseElements, hslot, bind, Except.bind]

/-- A document is loaded from the elements in its root, unless it is too deep for the stack. -/
theorem projectParseFile_document (C : Libc) (name : CStr) (attrs : List (CStr × CStr))
    (items : List XmlItem) :
    projectParseFile C ⟨(XmlItem.element name attrs items).events, false⟩ =
      if (XmlItem.element name attrs items).depth ≤ STACKLEN then
        (loadGiven C .new (XmlItem.givenFor C items)).map .ok
      else .error (.builder .slot) := by
  have hparse := parseElements_document C name attrs items
  rw [projectParseFile]
  by_cases hle : (XmlItem.element name attrs items).depth ≤ STACKLEN
  · rw [if_pos hle] at hparse ⊢
    obtain ⟨bs, hbs, hgiven⟩ := hparse
    simp only [hbs, hgiven, bind, Except.bind, Bool.false_eq_true, if_false, pure, Except.pure]
    cases loadGiven C .new (XmlItem.givenFor C items) <;> rfl
  · rw [if_neg hle] at hparse ⊢
    simp only [hparse]

end Libsd

/-
  Libsd/LoadedTrees.lean
  ======================
  **The walk in memory is the walk over trees.**

  `load` reads the tree that memory holds.  Walking the nodes in memory turns the tree
  read before into the tree read afterwards as `nodeWalk` does, with the same
  dependencies, and goes wrong where `nodeWalk` does (`load_nodeWalk`).
-/
import Libsd.FlatBuild
import Libsd.WalkOrder

namespace Libsd.Walk

open RoseTree

/-! ### Reading a tree -/

/-- The name of a call, a node with a text that is never visited. -/
def loadName (nodes : Nodes) (m : Memory) (l : Nat) : Node :=
  match (nodes l).bind (·.sval) with
  | none => .null
  | some s => .ident s (m.av l)

/-- The node at `a` over the trees of its children. -/
def Fields.build (nodes : Nodes) (m : Memory) (a : Nat) (f : Fields) (ns : List Node) : Node :=
  match f.type, ns with
  | .paren, [l] => .paren l
  | .floatlit, [] => .floatlit (f.sval.getD []) (m.fval a)
  | .ident, [] => .ident (f.sval.getD []) (m.av a)
  | .call, args => .call ((f.left.map (loadName nodes m)).getD .null) args (m.fn a)
  | .unary, [l] => .unary f.op l
  | .binary, [l, r] => .binary f.op l r
  | .ifElse, [c, l, r] => .ifElse c l r
  | _, _ => .null

mutual
def load (nodes : Nodes) (m : Memory) : RoseTree Nat → Node
  | .node a ts =>
    match nodes a with
    | none => .null
    | some f => f.build nodes m a (loads nodes m ts)

def loads (nodes : Nodes) (m : Memory) : List (RoseTree Nat) → List Node
  | [] => []
  | t :: ts => load nodes m t :: loads nodes m ts
end

variable {scope : Scope} {nodes : Nodes} {m m' : Memory} {a : Nat} {f : Fields}
  {ts : List (RoseTree Nat)} {ns : List Node}

theorem loads_length : (loads nodes m ts).length = ts.length := by
  induction ts with
  | nil => rfl
  | cons t ts ih => simp [loads, ih]

/-- A node has the children that its type asks for. -/
theorem Stored.length (h : Stored nodes (.node a ts)) (hf : nodes a = some f) :
    f.children.length = (loads nodes m ts).length := by
  obtain ⟨f', hf', -, hchildren, -⟩ := h
  obtain rfl := Option.some.inj (hf.symm.trans hf')
  rw [hchildren, List.length_map, loads_length]

/-- The seven types, each with its children. -/
inductive Built (nodes : Nodes) (m : Memory) (a : Nat) (f : Fields) : List Node → Node → Prop where
  | paren {l : Node} (h : f.type = .paren) : Built nodes m a f [l] (.paren l)
  | floatlit (h : f.type = .floatlit) :
      Built nodes m a f [] (.floatlit (f.sval.getD []) (m.fval a))
  | ident (h : f.type = .ident) : Built nodes m a f [] (.ident (f.sval.getD []) (m.av a))
  | call {args : List Node} (h : f.type = .call) :
      Built nodes m a f args (.call ((f.left.map (loadName nodes m)).getD .null) args (m.fn a))
  | unary {l : Node} (h : f.type = .unary) : Built nodes m a f [l] (.unary f.op l)
  | binary {l r : Node} (h : f.type = .binary) : Built nodes m a f [l, r] (.binary f.op l r)
  | ifElse {c l r : Node} (h : f.type = .ifElse) : Built nodes m a f [c, l, r] (.ifElse c l r)

theorem built (m : Memory) (hknown : f.type ≠ .unknown) (hlen : f.children.length = ns.length) :
    Built nodes m a f ns (f.build nodes m a ns) := by
  unfold Fields.build
  unfold Fields.children at hlen
  cases htype : f.type with
  | unknown => exact absurd htype hknown
  | call => exact .call htype
  | paren =>
    rw [htype] at hlen
    obtain ⟨l, rfl⟩ := List.length_eq_one_iff.mp hlen.symm
    exact .paren htype
  | unary =>
    rw [htype] at hlen
    obtain ⟨l, rfl⟩ := List.length_eq_one_iff.mp hlen.symm
    exact .unary htype
  | binary =>
    rw [htype] at hlen
    obtain ⟨l, r, rfl⟩ := List.length_eq_two.mp hlen.symm
    exact .binary htype
  | ifElse =>
    rw [htype] at hlen
    obtain ⟨c, l, r, rfl⟩ := List.length_eq_three.mp hlen.symm
    exact .ifElse htype
  | floatlit =>
    rw [htype] at hlen
    obtain rfl := List.length_eq_zero_iff.mp hlen.symm
    exact .floatlit htype
  | ident =>
    rw [htype] at hlen
    obtain rfl := List.length_eq_zero_iff.mp hlen.symm
    exact .ident htype

/-! ### What a walk makes of it -/

theorem Built.isNull {n : Node} (h : Built nodes m a f ns n) : n.isNull = false := by
  cases h <;> rfl

theorem Built.idents {n : Node} (h : Built nodes m a f ns n) :
    n.idents = (if f.type = .ident then (m.av a).toList else []) ++ Node.identsArgs ns := by
  cases h <;> simp [Node.idents, Node.identsArgs, *]

theorem Built.everywhere {n : Node} (h : Built nodes m a f ns n) {P : Node → Prop} :
    n.Everywhere P ↔ P n ∧ Node.EverywhereArgs P ns := by
  cases h <;> simp [Node.Everywhere, Node.EverywhereArgs]

/-- `n'` is `n` with what a walk fills in at this node. -/
theorem Built.link {n n' : Node} {find : CStr → Option Path} (h : Built nodes m a f ns n)
    (h' : Built nodes m' a f (Node.linkArgs find ns) n')
    (hnum : f.type = .floatlit → m'.fval a = atof (f.sval.getD []))
    (hvar : f.type = .ident → m'.av a = find (f.sval.getD []))
    (hcall : f.type = .call → ∃ l name, f.left = some l ∧ (loadName nodes m l).sval = some name ∧
      loadName nodes m' l = loadName nodes m l ∧ m'.fn a = RT_FNS.lookup name) :
    n' = n.link find := by
  generalize hns : Node.linkArgs find ns = ns' at h'
  cases h with
  | call htype =>
    obtain ⟨l, name, hl, hname, hkeep, hfn⟩ := hcall htype
    cases h' <;> simp_all [Node.link]
  | _ htype => cases h' <;> simp_all [Node.link, Node.linkArgs]

/-- Nothing has been filled in yet. -/
def Fresh (t : RoseTree Nat) (m : Memory) : Prop :=
  ∀ a ∈ t.preorder, m.av a = none ∧ m.fn a = none

theorem Walked.loadName {T : RoseTree Nat} (hw : Walked scope nodes T m m') (ha : a ∈ T.preorder)
    {l : Nat} {name : CStr} (hl : Named nodes a l name) :
    Walk.loadName nodes m' l = Walk.loadName nodes m l := by
  simp only [Walk.loadName, (hw.names a ha l name hl).2]

theorem Named.loadName {l : Nat} {name : CStr} (h : Named nodes a l name) :
    (Walk.loadName nodes m l).sval = some name := by
  obtain ⟨f, g, -, -, -, hg, hname⟩ := h
  simp [Walk.loadName, hg, hname, Node.sval]

/-- The tree of a node that memory holds. -/
theorem load_built (h : Stored nodes (.node a ts)) (m : Memory) : ∃ f, nodes a = some f ∧
    Built nodes m a f (loads nodes m ts) (load nodes m (.node a ts)) := by
  obtain ⟨f, hf, hknown, -⟩ := id h
  refine ⟨f, hf, ?_⟩
  have heq : load nodes m (.node a ts) = f.build nodes m a (loads nodes m ts) := by
    rw [load, hf]
  rw [heq]
  exact built m hknown (h.length hf)

mutual
theorem load_link {T : RoseTree Nat} (hw : Walked scope nodes T m m') (hfresh : Fresh T m) :
    ∀ {t : RoseTree Nat}, t.Everywhere (Stored nodes) → t.preorder ⊆ T.preorder →
      load nodes m' t = (load nodes m t).link scope.find
  | .node a ts, hs, hsub => by
    obtain ⟨ha, hsubs⟩ := List.cons_subset.mp hsub
    obtain ⟨hav, hfn⟩ := hfresh a ha
    obtain ⟨f, hf, hbuilt⟩ := load_built hs.1 m
    obtain ⟨f', hf', hbuilt'⟩ := load_built hs.1 m'
    obtain rfl := Option.some.inj (hf.symm.trans hf')
    obtain ⟨g, hg, -, -, htext, hcall⟩ := hs.1
    obtain rfl := Option.some.inj (hf.symm.trans hg)
    rw [loads_link hw hfresh hs.2 hsubs] at hbuilt'
    refine hbuilt.link hbuilt' ?_ ?_ ?_
    · intro htype
      obtain ⟨s, hs⟩ := htext (.inl htype)
      simpa only [hs, Option.getD_some] using hw.numbers a ha s ⟨f, hf, htype, hs⟩
    · intro htype
      obtain ⟨s, hs⟩ := htext (.inr htype)
      simpa only [hs, hav, Option.or_none, Option.getD_some] using hw.idents a ha s
        ⟨f, hf, htype, hs⟩
    · intro htype
      obtain ⟨l, name, hnamed⟩ := hcall htype
      obtain ⟨f', -, hf', -, hl, -⟩ := id hnamed
      obtain rfl := Option.some.inj (hf.symm.trans hf')
      refine ⟨l, name, hl, hnamed.loadName, hw.loadName ha hnamed, ?_⟩
      simpa only [hfn, Option.or_none] using hw.calls a ha l name hnamed

theorem loads_link {T : RoseTree Nat} (hw : Walked scope nodes T m m') (hfresh : Fresh T m) :
    ∀ {ts : List (RoseTree Nat)}, EverywhereIn (Stored nodes) ts → preorders ts ⊆ T.preorder →
      loads nodes m' ts = Node.linkArgs scope.find (loads nodes m ts)
  | [], _, _ => rfl
  | t :: ts, hs, hsub => by
    obtain ⟨hsub, hsubs⟩ := List.append_subset.mp hsub
    rw [loads, loads, Node.linkArgs, load_link hw hfresh hs.1 hsub,
      loads_link hw hfresh hs.2 hsubs]
end

mutual
theorem load_idents {T : RoseTree Nat} (hw : Walked scope nodes T m m') (hfresh : Fresh T m) :
    ∀ {t : RoseTree Nat}, t.Everywhere (Stored nodes) → t.preorder ⊆ T.preorder →
      (load nodes m' t).idents = t.preorder.filterMap (variableAt scope nodes)
  | .node a ts, hs, hsub => by
    obtain ⟨ha, hsubs⟩ := List.cons_subset.mp hsub
    obtain ⟨f, hf, hbuilt⟩ := load_built hs.1 m'
    have hown : (if f.type = .ident then (m'.av a).toList else []) =
        (variableAt scope nodes a).toList := by
      by_cases htype : f.type = .ident
      · obtain ⟨g, hg, -, -, htext, -⟩ := hs.1
        obtain rfl := Option.some.inj (hf.symm.trans hg)
        obtain ⟨s, hs⟩ := htext (.inr htype)
        have hav := hw.idents a ha s ⟨f, hf, htype, hs⟩
        rw [(hfresh a ha).1, Option.or_none] at hav
        simp [variableAt, hf, htype, hs, hav]
      · simp [variableAt, hf, htype]
    rw [hbuilt.idents, hown, loads_idents hw hfresh hs.2 hsubs, preorder]
    cases hvar : variableAt scope nodes a <;> simp [hvar]

theorem loads_idents {T : RoseTree Nat} (hw : Walked scope nodes T m m') (hfresh : Fresh T m) :
    ∀ {ts : List (RoseTree Nat)}, EverywhereIn (Stored nodes) ts → preorders ts ⊆ T.preorder →
      Node.identsArgs (loads nodes m' ts) = (preorders ts).filterMap (variableAt scope nodes)
  | [], _, _ => rfl
  | t :: ts, hs, hsub => by
    obtain ⟨hsub, hsubs⟩ := List.append_subset.mp hsub
    rw [loads, Node.identsArgs, load_idents hw hfresh hs.1 hsub, loads_idents hw hfresh hs.2 hsubs,
      preorders, List.filterMap_append]
end

/-! ### Where a walk stops -/

/-- `resolve` returns for the name of the node at `a`, if it has one. -/
def Searchable (scope : Scope) (nodes : Nodes) (a : Nat) : Prop :=
  ∀ s, Reads nodes .ident a s → ∃ dep, resolve scope.avars (some s) = .ok dep

theorem Built.visitable_iff (hs : Stored nodes (.node a ts)) (hf : nodes a = some f) {n : Node}
    (h : Built nodes m a f ns n) : n.Visitable scope ↔ Searchable scope nodes a := by
  obtain ⟨g, hg, -, -, htext, hcall⟩ := hs
  obtain rfl := Option.some.inj (hf.symm.trans hg)
  have hother (hne : f.type ≠ .ident) : Searchable scope nodes a := by
    rintro s ⟨g, hg, htype, -⟩
    obtain rfl := Option.some.inj (hf.symm.trans hg)
    exact absurd htype hne
  cases h with
  | ident htype =>
    obtain ⟨s, hs⟩ := htext (.inr htype)
    simp only [Node.Visitable, hs, Option.getD_some]
    constructor
    · rintro hdep s' ⟨g, hg, -, hs'⟩
      obtain rfl := Option.some.inj (hf.symm.trans hg)
      obtain rfl := Option.some.inj (hs.symm.trans hs')
      exact hdep
    · exact fun hsearch => hsearch s ⟨f, hf, htype, hs⟩
  | call htype =>
    obtain ⟨l, name, hnamed⟩ := hcall htype
    obtain ⟨g, -, hg, -, hl, -⟩ := id hnamed
    obtain rfl := Option.some.inj (hf.symm.trans hg)
    refine ⟨fun _ => hother (by simp [htype]), fun _ => ?_⟩
    simp [Node.Visitable, hl, hnamed.loadName]
  | _ htype => exact ⟨fun _ => hother (by simp [htype]), fun _ => trivial⟩

mutual
theorem load_visitable_iff : ∀ {t : RoseTree Nat}, t.Everywhere (Stored nodes) →
    ((load nodes m t).Everywhere (Node.Visitable scope) ↔
      ∀ a ∈ t.preorder, Searchable scope nodes a)
  | .node a ts, hs => by
    obtain ⟨f, hf, hbuilt⟩ := load_built hs.1 m
    rw [hbuilt.everywhere, hbuilt.visitable_iff hs.1 hf, loads_visitable_iff hs.2, preorder,
      List.forall_mem_cons]

theorem loads_visitable_iff : ∀ {ts : List (RoseTree Nat)}, EverywhereIn (Stored nodes) ts →
    (Node.EverywhereArgs (Node.Visitable scope) (loads nodes m ts) ↔
      ∀ a ∈ preorders ts, Searchable scope nodes a)
  | [], _ => by simp [loads, preorders, Node.EverywhereArgs]
  | t :: ts, hs => by
    rw [loads, Node.EverywhereArgs, load_visitable_iff hs.1, loads_visitable_iff hs.2, preorders,
      List.forall_mem_append]
end

/-- **Walking memory is walking the tree it holds.**  A walk with a new walker returns where
    `nodeWalk` does, and what it leaves behind reads as the tree and the dependencies that
    `nodeWalk` returns. -/
theorem load_nodeWalk {t : RoseTree Nat} (ht : ExprTree nodes t) (hm : m.Live)
    (hfresh : Fresh t m) (hdeps : m.directDeps = []) {fuel : Nat}
    (hfuel : t.preorder.length ≤ fuel) :
    (∃ m', nodeWalk scope nodes fuel (some t.label) m = .ok (true, m') ∧
      Libsd.nodeWalk scope (load nodes m t) = .ok (load nodes m' t, m'.directDeps)) ∨
    ∃ why, nodeWalk scope nodes fuel (some t.label) m = .error (.resolve why) ∧
      ∀ r, Libsd.nodeWalk scope (load nodes m t) ≠ .ok r := by
  have hnull : (load nodes m t).isNull = false := by
    cases t with
    | node a ts =>
      obtain ⟨f, -, hbuilt⟩ := load_built ht.stored.1 m
      exact hbuilt.isNull
  obtain ⟨w, hw, -⟩ := id hm
  have heq := nodeWalk_eq scope ht hm hfuel
  rcases startAll_cases scope hw ht.operands.stored with
    ⟨m', hrun, hp⟩ | ⟨a, ha, why, hwhy, hrun⟩
  · have hwalked := hp.walked ht
    refine .inl ⟨m', by rw [heq, hrun]; rfl, ?_⟩
    rw [nodeWalk_of_visitable hnull ((load_visitable_iff ht.stored).mpr hwalked.resolved),
      ← load_link hwalked hfresh ht.stored (List.Subset.refl _),
      load_idents hwalked hfresh ht.stored (List.Subset.refl _), hwalked.directDeps, hdeps,
      List.nil_append]
  · refine .inr ⟨why, by rw [heq, hrun]; rfl, fun r hr => ?_⟩
    obtain ⟨s, hreads, hstop⟩ := hwhy
    obtain ⟨dep, hdep⟩ := (load_visitable_iff ht.stored).mp (nodeWalk_visitable hr) a ha s hreads
    cases hdep.symm.trans hstop

end Libsd.Walk

/-
  Libsd/WalkOrder.lean
  ====================
  **A walk starts each node of an expression once, from left to right.**

  All levels of a walk share one walker, so a child is offered to it with `curr` at
  whatever was started last, somewhere in the sibling before.  Only a call's own function
  name is refused, and none of these is a node of the tree: so every other child is taken
  (`startChild_taken`), and the walk comes down to `avar_walker_start` on the nodes in
  *preorder* (`visit_eq`).
-/
import Libsd.Lib.Outcome
import Libsd.Lib.RoseTree
import Libsd.Linked
import Libsd.Walker

namespace Libsd.Walk

open Outcome RoseTree

/-! ### Expressions in memory -/

/-- The children in the order of the source; the function name of a call is not one of them. -/
def Fields.children (f : Fields) : List (Option Nat) :=
  match f.type with
  | .paren | .unary => [f.left]
  | .binary => [f.left, f.right]
  | .ifElse => [f.cond, f.left, f.right]
  | .call => f.args
  | _ => []

/-- The function name of the call at `a` is the text of the node at `l`. -/
def Named (nodes : Nodes) (a l : Nat) (name : CStr) : Prop :=
  ∃ f g, nodes a = some f ∧ f.type = .call ∧ f.left = some l ∧ nodes l = some g ∧
    g.sval = some name

/-- At `a` is a node of the given type with the text `s`. -/
def Reads (nodes : Nodes) (type : NodeType) (a : Nat) (s : CStr) : Prop :=
  ∃ f, nodes a = some f ∧ f.type = type ∧ f.sval = some s

/-- Memory holds a node of an expression and pointers to its children. -/
def Stored (nodes : Nodes) : RoseTree Nat → Prop
  | .node a ts => ∃ f, nodes a = some f ∧ f.type ≠ .unknown ∧
      f.children = ts.map (fun t => some t.label) ∧
      (f.type = .floatlit ∨ f.type = .ident → ∃ s, f.sval = some s) ∧
      (f.type = .call → ∃ l name, Named nodes a l name)

/-- A well-formed expression: no node has two places in it, and no function name is one of
    the operands. -/
structure ExprTree (nodes : Nodes) (t : RoseTree Nat) : Prop where
  stored : t.Everywhere (Stored nodes)
  distinct : t.preorder.Nodup
  apart : ∀ a ∈ t.preorder, ∀ l name, Named nodes a l name → l ∉ t.preorder

variable {scope : Scope} {nodes : Nodes} {m m' m'' : Memory} {a : Nat} {f : Fields}

/-! ### One node -/

def numberAt (nodes : Nodes) (a : Nat) : Option ℚ :=
  (nodes a).bind fun f => if f.type = .floatlit then f.sval.map atof else none

def variableAt (scope : Scope) (nodes : Nodes) (a : Nat) : Option Path :=
  (nodes a).bind fun f => if f.type = .ident then f.sval.bind scope.find else none

def functionAt (nodes : Nodes) (a : Nat) : Option Fn :=
  (nodes a).bind fun f => if f.type = .call then
    ((f.left.bind nodes).bind (·.sval)).bind fun s => RT_FNS.lookup s else none

/-- A walker that somebody holds. -/
def Memory.Live (m : Memory) : Prop := ∃ w, m.walker = some w ∧ 0 < w.refcount

/-- What the `switch` of `avar_walker_start` leaves behind. -/
def Memory.after (scope : Scope) (nodes : Nodes) (a : Nat) (m : Memory) : Memory :=
  { m with
    directDeps := m.directDeps ++ (variableAt scope nodes a).toList,
    fval := Function.update m.fval a ((numberAt nodes a).getD (m.fval a)),
    av := Function.update m.av a ((variableAt scope nodes a).or (m.av a)),
    fn := Function.update m.fn a ((functionAt nodes a).or (m.fn a)) }

/-- A name at `a` for which `resolve` runs into an `AVar` without a name. -/
def Unresolvable (scope : Scope) (nodes : Nodes) (a : Nat) (why : Stop) : Prop :=
  ∃ s, Reads nodes .ident a s ∧ resolve scope.avars (some s) = .error why

theorem startNode_cases (scope : Scope) {ts : List (RoseTree Nat)} (hs : Stored nodes (.node a ts))
    (m : Memory) :
    ∃ f, nodes a = some f ∧ ((startNode scope nodes a f m = .ok (m.after scope nodes a) ∧
      ∀ s, Reads nodes .ident a s → ∃ dep, resolve scope.avars (some s) = .ok dep) ∨
      ∃ why, Unresolvable scope nodes a why ∧
        startNode scope nodes a f m = .error (.resolve why)) := by
  obtain ⟨f, hf, -, -, htext, hcall⟩ := hs
  refine ⟨f, hf, ?_⟩
  have hother : f.type ≠ .ident → ∀ s, Reads nodes .ident a s →
      ∃ dep, resolve scope.avars (some s) = .ok dep := by
    rintro hne s ⟨f', hf', htype, -⟩
    obtain rfl := Option.some.inj (hf.symm.trans hf')
    exact absurd htype hne
  cases htype : f.type with
  | ident =>
    obtain ⟨s, hs⟩ := htext (.inr htype)
    cases hr : resolve scope.avars (some s) with
    | error why =>
      exact .inr ⟨why, ⟨s, ⟨f, hf, htype, hs⟩, hr⟩, by simp only [startNode, htype, hs, hr]⟩
    | ok dep =>
      refine .inl ⟨?_, ?_⟩
      · cases dep <;>
          simp [startNode, Memory.after, numberAt, variableAt, functionAt, Scope.find, hf, htype,
            hs, hr]
      · rintro s' ⟨f', hf', -, hs'⟩
        obtain rfl := Option.some.inj (hf.symm.trans hf')
        obtain rfl := Option.some.inj (hs.symm.trans hs')
        exact ⟨dep, hr⟩
  | floatlit =>
    obtain ⟨s, hs⟩ := htext (.inl htype)
    refine .inl ⟨?_, hother (by simp [htype])⟩
    simp [startNode, Memory.after, numberAt, variableAt, functionAt, Fields.text, hf, htype, hs]
  | call =>
    obtain ⟨l, name, f', g, hf', -, hl, hg, hname⟩ := hcall htype
    obtain rfl := Option.some.inj (hf.symm.trans hf')
    refine .inl ⟨?_, hother (by simp [htype])⟩
    simp only [startNode, htype, Nodes.deref, hl, hg, Fields.text]
    cases hfn : RT_FNS.lookup name <;>
      simp [Memory.after, numberAt, variableAt, functionAt, hf, htype, hl, hg, hname, hfn, bind,
        Except.bind, pure, Except.pure]
  | _ =>
    refine .inl ⟨?_, hother (by simp [htype])⟩
    simp [startNode, Memory.after, numberAt, variableAt, functionAt, hf, htype]

/-- What starting the nodes of a list does to memory. -/
structure Passed (scope : Scope) (nodes : Nodes) (l : List Nat) (m m' : Memory) : Prop where
  walker : ∃ w w', m.walker = some w ∧ m'.walker = some w' ∧ w'.refcount = w.refcount ∧
    w'.curr = (l.map some).getLastD w.curr
  started : m'.started = m.started ++ l
  directDeps : m'.directDeps = m.directDeps ++ l.filterMap (variableAt scope nodes)
  fval : ∀ b, m'.fval b = if b ∈ l then (numberAt nodes b).getD (m.fval b) else m.fval b
  av : ∀ b, m'.av b = if b ∈ l then (variableAt scope nodes b).or (m.av b) else m.av b
  fn : ∀ b, m'.fn b = if b ∈ l then (functionAt nodes b).or (m.fn b) else m.fn b
  resolved : ∀ b ∈ l, ∀ s, Reads nodes .ident b s → ∃ dep, resolve scope.avars (some s) = .ok dep

theorem Passed.nil {w : AVarWalker} (hw : m.walker = some w) : Passed scope nodes [] m m where
  walker := ⟨w, w, hw, hw, rfl, rfl⟩
  started := (List.append_nil _).symm
  directDeps := (List.append_nil _).symm
  fval _ := rfl
  av _ := rfl
  fn _ := rfl
  resolved _ hb := absurd hb List.not_mem_nil

/-- Starting a node again would change nothing but the log and the dependencies. -/
theorem Passed.append {l l' : List Nat} (h : Passed scope nodes l m m')
    (h' : Passed scope nodes l' m' m'') : Passed scope nodes (l ++ l') m m'' where
  walker := by
    obtain ⟨w, w', hw, hw', href, hcurr⟩ := h.walker
    obtain ⟨v, v', hv, hv', href', hcurr'⟩ := h'.walker
    obtain rfl := Option.some.inj (hw'.symm.trans hv)
    refine ⟨w, v', hw, hv', href'.trans href, ?_⟩
    rw [hcurr', hcurr, List.map_append]
    cases l' with
    | nil => simp
    | cons b l' => simp [List.getLastD_eq_getLast?, List.getLast?_append]
  started := by rw [h'.started, h.started, List.append_assoc]
  directDeps := by rw [h'.directDeps, h.directDeps, List.filterMap_append, List.append_assoc]
  fval b := by
    rw [h'.fval, h.fval]
    by_cases hb : b ∈ l <;> by_cases hb' : b ∈ l' <;> cases numberAt nodes b <;> simp [hb, hb']
  av b := by
    rw [h'.av, h.av]
    by_cases hb : b ∈ l <;> by_cases hb' : b ∈ l' <;> cases variableAt scope nodes b <;>
      simp [hb, hb']
  fn b := by
    rw [h'.fn, h.fn]
    by_cases hb : b ∈ l <;> by_cases hb' : b ∈ l' <;> cases functionAt nodes b <;> simp [hb, hb']
  resolved b hb := (List.mem_append.mp hb).elim (h.resolved b) (h'.resolved b)

/-- Starting a node of an expression; only `resolve` can stop it. -/
theorem start_cases (scope : Scope) {ts : List (RoseTree Nat)} (hs : Stored nodes (.node a ts))
    {w : AVarWalker}
    (hw : m.walker = some w) :
    (∃ m', avarWalkerStart scope nodes (some a) m = .ok m' ∧ Passed scope nodes [a] m m') ∨
      ∃ why, Unresolvable scope nodes a why ∧
        avarWalkerStart scope nodes (some a) m = .error (.resolve why) := by
  obtain ⟨f, hf, h⟩ := startNode_cases scope hs
    { m with walker := some { w with curr := some a }, started := m.started ++ [a] }
  have heq : avarWalkerStart scope nodes (some a) m = startNode scope nodes a f
      { m with walker := some { w with curr := some a }, started := m.started ++ [a] } := by
    simp only [avarWalkerStart, Memory.deref, hw, Nodes.deref, hf]
    rfl
  rcases h with ⟨h, hres⟩ | ⟨why, hwhy, h⟩
  · refine .inl ⟨_, heq.trans h, ⟨w, _, hw, rfl, rfl, rfl⟩, rfl, ?_, ?_, ?_, ?_, ?_⟩
    · cases hv : variableAt scope nodes a <;> simp [Memory.after, hv]
    iterate 3
      · intro b
        by_cases hb : b = a
        · subst hb
          simp [Memory.after]
        · simp [Memory.after, hb]
    · intro b hb
      rw [List.mem_singleton.mp hb]
      exact hres
  · exact .inr ⟨why, hwhy, heq.trans h⟩

/-! ### References -/

def Memory.setWalker (m : Memory) (w : Option AVarWalker) : Memory := { m with walker := w }

/-- The walker with the reference that a child is visited with. -/
def Memory.addRef (m : Memory) : Memory :=
  m.setWalker (m.walker.map fun w => { w with refcount := w.refcount + 1 })

/-- `switch` does not look at the walker. -/
theorem startNode_setWalker (scope : Scope) (nodes : Nodes) (a : Nat) (f : Fields) (m : Memory)
    (w : Option AVarWalker) :
    startNode scope nodes a f (m.setWalker w) =
      (startNode scope nodes a f m).map fun m => m.setWalker w := by
  unfold startNode
  cases f.type with
  | ident =>
    cases resolve scope.avars f.sval with
    | error why => rfl
    | ok dep => cases dep <;> rfl
  | floatlit => cases f.text <;> rfl
  | call =>
    cases nodes.deref f.left with
    | error e => rfl
    | ok l =>
      simp only [bind, Except.bind]
      cases l.2.text with
      | error e => rfl
      | ok s =>
        simp only
        cases RT_FNS.lookup s <;> rfl
  | _ => rfl

theorem startNode_walker (h : startNode scope nodes a f m = .ok m') : m'.walker = m.walker := by
  have hself := startNode_setWalker scope nodes a f m m.walker
  rw [show m.setWalker m.walker = m from rfl, h] at hself
  have heq : m' = m'.setWalker m.walker := Except.ok.inj hself
  exact (congrArg (fun m => m.walker) heq :)

theorem start_walker (h : avarWalkerStart scope nodes (some a) m = .ok m') :
    ∃ w, m.walker = some w ∧ m'.walker = some { w with curr := some a } := by
  unfold avarWalkerStart Memory.deref at h
  cases hw : m.walker with
  | none => simp [hw, bind, Except.bind] at h
  | some w =>
    simp only [hw] at h
    obtain ⟨v, hv, h⟩ := bind_eq_ok h
    obtain rfl := Except.ok.inj hv
    obtain ⟨f, -, h⟩ := bind_eq_ok h
    exact ⟨w, rfl, startNode_walker h⟩

theorem start_addRef {w : AVarWalker} (hw : m.walker = some w) :
    avarWalkerStart scope nodes (some a) m.addRef =
      (avarWalkerStart scope nodes (some a) m).map Memory.addRef := by
  have hw' : m.addRef.walker = some { w with refcount := w.refcount + 1 } := by
    simp [Memory.addRef, Memory.setWalker, hw]
  simp only [avarWalkerStart, Memory.deref, hw, hw']
  cases nodes.deref (some a) with
  | error e => rfl
  | ok f =>
    have hset := startNode_setWalker scope nodes f.1 f.2
      { m with walker := some { w with curr := some a }, started := m.started ++ [f.1] }
      (some { refcount := w.refcount + 1, curr := some a })
    refine hset.trans ?_
    change _ = Except.map Memory.addRef (startNode _ _ _ _ _)
    cases hstart : startNode scope nodes f.1 f.2
        { m with walker := some { w with curr := some a }, started := m.started ++ [f.1] } with
    | error e => rfl
    | ok m' =>
      have hkeep := startNode_walker hstart
      simp [Except.map, Memory.addRef, hkeep]

theorem unref_addRef (hm : m.Live) : avarWalkerUnref m.addRef = .ok m := by
  obtain ⟨w, hw, hpos⟩ := hm
  have hw' : m.addRef.walker = some { w with refcount := w.refcount + 1 } := by
    simp [Memory.addRef, Memory.setWalker, hw]
  have hne : w.refcount ≠ 0 := by omega
  cases m
  simp only at hw
  subst hw
  simp [avarWalkerUnref, Memory.deref, Memory.addRef, Memory.setWalker, hne, bind, Except.bind,
    pure, Except.pure]

/-! ### Nodes in a row -/

def startAll (scope : Scope) (nodes : Nodes) (l : List Nat) (m : Memory) : Except Fault Memory :=
  l.foldlM (fun m a => avarWalkerStart scope nodes (some a) m) m

theorem startAll_append (l l' : List Nat) (m : Memory) :
    startAll scope nodes (l ++ l') m = startAll scope nodes l m >>= startAll scope nodes l' :=
  List.foldlM_append

theorem startAll_addRef {l : List Nat} : ∀ {m : Memory} {w : AVarWalker}, m.walker = some w →
    startAll scope nodes l m.addRef = (startAll scope nodes l m).map Memory.addRef := by
  induction l with
  | nil => exact fun _ => rfl
  | cons a l ih =>
    intro m w hw
    simp only [startAll, List.foldlM_cons]
    rw [start_addRef hw]
    cases hstart : avarWalkerStart scope nodes (some a) m with
    | error e => rfl
    | ok m' =>
      obtain ⟨v, -, hv⟩ := start_walker hstart
      exact ih hv

/-- Started one after the other, the nodes of an expression leave memory as `Passed` says. -/
theorem startAll_cases (scope : Scope) {l : List Nat} :
    ∀ {m : Memory} {w : AVarWalker}, m.walker = some w →
    (∀ a ∈ l, ∃ ts, Stored nodes (.node a ts)) →
    (∃ m', startAll scope nodes l m = .ok m' ∧ Passed scope nodes l m m') ∨
      ∃ a ∈ l, ∃ why, Unresolvable scope nodes a why ∧
        startAll scope nodes l m = .error (.resolve why) := by
  induction l with
  | nil => exact fun hw _ => .inl ⟨_, rfl, .nil hw⟩
  | cons a l ih =>
    intro m w hw hl
    obtain ⟨ts, hs⟩ := hl a List.mem_cons_self
    rcases start_cases scope hs hw with ⟨m', hstart, hp⟩ | ⟨why, hwhy, hstart⟩
    · have heq : startAll scope nodes (a :: l) m = startAll scope nodes l m' := by
        simp only [startAll, List.foldlM_cons, hstart]
        rfl
      obtain ⟨v, -, hv⟩ := start_walker hstart
      rcases ih hv fun b hb => hl b (List.mem_cons_of_mem _ hb) with
        ⟨m'', hrest, hp'⟩ | ⟨b, hb, why, hwhy, hrest⟩
      · exact .inl ⟨m'', heq.trans hrest, hp.append hp'⟩
      · exact .inr ⟨b, List.mem_cons_of_mem _ hb, why, hwhy, heq.trans hrest⟩
    · refine .inr ⟨a, List.mem_cons_self, why, hwhy, ?_⟩
      simp only [startAll, List.foldlM_cons, hstart]
      rfl

/-! ### The walk -/

/-- Between two children `curr` is at some node of the expression. -/
def Held (T : List Nat) (m : Memory) : Prop :=
  ∃ w, m.walker = some w ∧ 0 < w.refcount ∧ ∃ b ∈ T, w.curr = some b

theorem Held.live {T : List Nat} (h : Held T m) : m.Live := by
  obtain ⟨w, hw, hpos, -⟩ := h
  exact ⟨w, hw, hpos⟩

theorem Memory.Live.addRef (h : m.Live) : m.addRef.Live := by
  obtain ⟨w, hw, hpos⟩ := h
  refine ⟨{ w with refcount := w.refcount + 1 }, ?_, Int.lt_trans hpos (Int.lt_succ _)⟩
  simp [Memory.addRef, Memory.setWalker, hw]

theorem Memory.Live.held {T : List Nat} (hm : m.Live) (ha : a ∈ T)
    (h : avarWalkerStart scope nodes (some a) m = .ok m') : Held T m' := by
  obtain ⟨w, hw, hpos⟩ := hm
  obtain ⟨v, hv, hv'⟩ := start_walker h
  obtain rfl := Option.some.inj (hw.symm.trans hv)
  exact ⟨_, hv', hpos, a, ha, rfl⟩

theorem Memory.Live.startAll {l : List Nat} (hm : m.Live) (h : startAll scope nodes l m = .ok m') :
    m'.Live :=
  foldlM_keeps (fun _ a _ hm h => (hm.held (List.mem_singleton_self a) h).live) hm h

theorem Held.startAll {T l : List Nat} (hl : l ⊆ T) : ∀ {m m' : Memory}, Held T m →
    startAll scope nodes l m = .ok m' → Held T m' := by
  induction l with
  | nil =>
    intro m m' hm h
    exact Except.ok.inj h ▸ hm
  | cons a l ih =>
    intro m m' hm h
    obtain ⟨m1, h1, h⟩ := bind_eq_ok h
    obtain ⟨ha, hl⟩ := List.cons_subset.mp hl
    exact ih hl (hm.live.held ha h1) h

/-- The call was started just now, and refuses its name. -/
theorem visitName_skipped {visit : Option Nat → Memory → Except Fault (Bool × Memory)}
    {w : AVarWalker} (hw : m.walker = some w) (hcurr : w.curr = some a) (hf : nodes a = some f)
    (htype : f.type = .call) : visitName nodes visit f.left m = .ok (true, m) := by
  simp [visitName, avarWalkerStartChild, Memory.deref, hw, hcurr, Nodes.deref, hf, htype, bind,
    Except.bind, pure, Except.pure]

/-- Once a node is started, its visit goes through its children. -/
theorem visit_succ {ts : List (RoseTree Nat)} (hs : Stored nodes (.node a ts)) (fuel : Nat)
    (m : Memory) : visit scope nodes (fuel + 1) (some a) m =
      avarWalkerStart scope nodes (some a) m >>=
        visitAll nodes (visit scope nodes fuel) (ts.map fun t => some t.label) := by
  obtain ⟨f, hf, hknown, hchildren, -, -⟩ := hs
  rw [visit]
  cases hstart : avarWalkerStart scope nodes (some a) m with
  | error e => rfl
  | ok m' =>
    obtain ⟨w, -, hw⟩ := start_walker hstart
    change (do
      let f ← nodes.deref (some a)
      _) = visitAll nodes (visit scope nodes fuel) _ m'
    rw [← hchildren]
    simp only [Nodes.deref, hf]
    cases htype : f.type with
    | unknown => exact absurd htype hknown
    | call =>
      simp only [Fields.children, htype, visitName_skipped hw rfl hf htype, bind,
        Except.bind, if_true]
    | _ => simp only [Fields.children, htype, bind, Except.bind, visitAll, pure, Except.pure]

/-- The nodes of an expression, none of which is the name of a call. -/
structure Operands (nodes : Nodes) (T : List Nat) : Prop where
  stored : ∀ a ∈ T, ∃ ts, Stored nodes (.node a ts)
  apart : ∀ a ∈ T, ∀ l name, Named nodes a l name → l ∉ T

/-- Whatever was started last, it is no call that has the child for its name. -/
theorem startChild_taken {T : List Nat} (hT : Operands nodes T) (hm : Held T m) (ha : a ∈ T) :
    avarWalkerStartChild nodes (some a) m = .ok (true, m.addRef) := by
  obtain ⟨w, hw, -, b, hb, hcurr⟩ := hm
  obtain ⟨ts, f, hf, -, -, -, hcall⟩ := hT.stored b hb
  have hother : ¬ (f.type = .call ∧ some a = f.left) := by
    rintro ⟨htype, hleft⟩
    obtain ⟨l, name, hnamed⟩ := hcall htype
    obtain ⟨f', g, hf', -, hl, -⟩ := id hnamed
    obtain rfl := Option.some.inj (hf.symm.trans hf')
    obtain rfl := Option.some.inj (hleft.trans hl)
    exact hT.apart b hb a name hnamed ha
  simp [avarWalkerStartChild, avarWalkerRef, Memory.deref, hw, hcurr, Nodes.deref, hf, hother, bind,
    Except.bind, pure, Except.pure, Memory.addRef, Memory.setWalker]

mutual
/-- The visit of a subtree starts its nodes in preorder. -/
theorem visit_eq (scope : Scope) {T : List Nat} (hT : Operands nodes T) :
    ∀ (t : RoseTree Nat) {fuel : Nat} {m : Memory}, t.Everywhere (Stored nodes) →
    t.preorder ⊆ T → t.preorder.length ≤ fuel → m.Live →
      visit scope nodes fuel (some t.label) m =
        (startAll scope nodes t.preorder m).map fun m => (true, m)
  | .node a ts, 0, m, _, _, hfuel, _ => absurd hfuel (by simp [preorder])
  | .node a ts, fuel + 1, m, hs, hsub, hfuel, hm => by
    obtain ⟨ha, hsub⟩ := List.cons_subset.mp hsub
    refine (visit_succ hs.1 fuel m).trans ?_
    simp only [preorder, startAll, List.foldlM_cons]
    cases hstart : avarWalkerStart scope nodes (some a) m with
    | error e => rfl
    | ok m' =>
      exact visitAll_eq scope hT ts hs.2 hsub (Nat.le_of_succ_le_succ hfuel) (hm.held ha hstart)

/-- So do the visits of siblings, whatever the walker points at in between. -/
theorem visitAll_eq (scope : Scope) {T : List Nat} (hT : Operands nodes T) :
    ∀ (ts : List (RoseTree Nat)) {fuel : Nat} {m : Memory},
    EverywhereIn (Stored nodes) ts → preorders ts ⊆ T → (preorders ts).length ≤ fuel → Held T m →
      visitAll nodes (visit scope nodes fuel) (ts.map fun t => some t.label) m =
        (startAll scope nodes (preorders ts) m).map fun m => (true, m)
  | [], _, _, _, _, _, _ => rfl
  | t :: ts, fuel, m, hs, hsub, hfuel, hm => by
    obtain ⟨hsub, hsubs⟩ := List.append_subset.mp hsub
    rw [preorders, List.length_append] at hfuel
    have htaken := startChild_taken hT hm (hsub t.label_mem_preorder)
    have hvisit := visit_eq scope hT t hs.1 hsub (Nat.le_of_add_right_le hfuel) hm.live.addRef
    obtain ⟨w, hw, -⟩ := hm.live
    rw [startAll_addRef hw] at hvisit
    rw [preorders, startAll_append, List.map_cons, visitAll, visitChild, htaken]
    cases hrun : startAll scope nodes t.preorder m with
    | error e =>
      rw [hrun] at hvisit
      simp only [visitWith, hvisit, bind, Except.bind, Except.map, if_true]
    | ok m' =>
      have hheld := hm.startAll hsub hrun
      rw [hrun] at hvisit
      simp only [visitWith, hvisit, bind, Except.bind, Except.map, if_true, unref_addRef hheld.live,
        pure, Except.pure]
      exact visitAll_eq scope hT ts hs.2 hsubs (Nat.le_of_add_left_le hfuel) hheld
end

/-! ### Whole expressions -/

/-- What a walk of an expression leaves behind. -/
structure Walked (scope : Scope) (nodes : Nodes) (t : RoseTree Nat) (m m' : Memory) : Prop where
  once : m'.started = m.started ++ t.preorder ∧ t.preorder.Nodup
  names : ∀ a ∈ t.preorder, ∀ l name, Named nodes a l name →
    l ∉ t.preorder ∧ m'.av l = m.av l
  numbers : ∀ a ∈ t.preorder, ∀ s, Reads nodes .floatlit a s → m'.fval a = atof s
  calls : ∀ a ∈ t.preorder, ∀ l name, Named nodes a l name →
    m'.fn a = (RT_FNS.lookup name).or (m.fn a)
  idents : ∀ a ∈ t.preorder, ∀ s, Reads nodes .ident a s → m'.av a = (scope.find s).or (m.av a)
  directDeps : m'.directDeps = m.directDeps ++ t.preorder.filterMap (variableAt scope nodes)
  resolved : ∀ a ∈ t.preorder, ∀ s, Reads nodes .ident a s →
    ∃ dep, resolve scope.avars (some s) = .ok dep
  refcount : m'.walker.map (·.refcount) = m.walker.map (·.refcount)
  others : ∀ b, b ∉ t.preorder → m'.fval b = m.fval b ∧ m'.av b = m.av b ∧ m'.fn b = m.fn b

theorem ExprTree.operands {t : RoseTree Nat} (ht : ExprTree nodes t) :
    Operands nodes t.preorder :=
  ⟨fun _ ha => ht.stored.of_mem ha, ht.apart⟩

theorem Passed.walked {t : RoseTree Nat} (ht : ExprTree nodes t)
    (h : Passed scope nodes t.preorder m m') : Walked scope nodes t m m' where
  once := ⟨h.started, ht.distinct⟩
  names a ha l name hl := by
    have hno := ht.apart a ha l name hl
    exact ⟨hno, by rw [h.av, if_neg hno]⟩
  numbers a ha s hs := by
    obtain ⟨f, hf, htype, hs⟩ := hs
    simp [h.fval, ha, numberAt, hf, htype, hs]
  calls a ha l name hl := by
    obtain ⟨f, g, hf, htype, hleft, hg, hname⟩ := hl
    simp [h.fn, ha, functionAt, hf, htype, hleft, hg, hname]
  idents a ha s hs := by
    obtain ⟨f, hf, htype, hs⟩ := hs
    simp [h.av, ha, variableAt, hf, htype, hs]
  directDeps := h.directDeps
  resolved := h.resolved
  refcount := by
    obtain ⟨w, w', hw, hw', href, -⟩ := h.walker
    simp [hw, hw', href]
  others b hb := by simp [h.fval, h.av, h.fn, hb]

/-- A walk starts the nodes in preorder and gives back the reference it takes. -/
theorem nodeWalk_eq (scope : Scope) {t : RoseTree Nat} (ht : ExprTree nodes t) (hm : m.Live)
    {fuel : Nat}
    (hfuel : t.preorder.length ≤ fuel) :
    nodeWalk scope nodes fuel (some t.label) m =
      (startAll scope nodes t.preorder m).map fun m => (true, m) := by
  obtain ⟨w, hw, -⟩ := id hm
  have href : avarWalkerRef m = .ok m.addRef := by
    simp [avarWalkerRef, Memory.deref, hw, Memory.addRef, Memory.setWalker, bind, Except.bind, pure,
      Except.pure]
  have hvisit := visit_eq scope ht.operands t ht.stored (List.Subset.refl _) hfuel hm.addRef
  rw [startAll_addRef hw] at hvisit
  rw [nodeWalk, if_neg (by simp), href]
  cases hrun : startAll scope nodes t.preorder m with
  | error e =>
    rw [hrun] at hvisit
    simp only [hvisit, bind, Except.bind, Except.map]
  | ok m' =>
    rw [hrun] at hvisit
    simp only [hvisit, bind, Except.bind, Except.map, unref_addRef (hm.startAll hrun), pure,
      Except.pure]

/-- **A walk visits the nodes of an expression once each, in order**, and fills them in; or
    `resolve` stops at the name of one. -/
theorem nodeWalk_walked (scope : Scope) {t : RoseTree Nat} (ht : ExprTree nodes t) (hm : m.Live)
    {fuel : Nat} (hfuel : t.preorder.length ≤ fuel) :
    (∃ m', nodeWalk scope nodes fuel (some t.label) m = .ok (true, m') ∧
      Walked scope nodes t m m') ∨
    ∃ a ∈ t.preorder, ∃ why, Unresolvable scope nodes a why ∧
      nodeWalk scope nodes fuel (some t.label) m = .error (.resolve why) := by
  obtain ⟨w, hw, -⟩ := id hm
  have heq := nodeWalk_eq scope ht hm hfuel
  rcases startAll_cases scope hw ht.operands.stored with
    ⟨m', hrun, hp⟩ | ⟨a, ha, why, hwhy, hrun⟩
  · exact .inl ⟨m', by rw [heq, hrun]; rfl, hp.walked ht⟩
  · exact .inr ⟨a, ha, why, hwhy, by rw [heq, hrun]; rfl⟩

/-- A node with nothing but a type and a text. -/
def Fields.leaf (type : NodeType) (sval : Option CStr) : Fields where
  left := none
  right := none
  cond := none
  type := type
  op := 0
  sval := sval
  args := []

/-- `max(min(a, 1), b)`, with the names of the functions at 1 and 3. -/
def nestedCalls : Nodes
  | 0 => some { Fields.leaf .call none with left := some 1, args := [some 2, some 6] }
  | 1 => some (.leaf .ident (some (cstr "max")))
  | 2 => some { Fields.leaf .call none with left := some 3, args := [some 4, some 5] }
  | 3 => some (.leaf .ident (some (cstr "min")))
  | 4 => some (.leaf .ident (some (cstr "a")))
  | 5 => some (.leaf .floatlit (some (cstr "1")))
  | 6 => some (.leaf .ident (some (cstr "b")))
  | _ => none

/-- Memory after `calloc`, with no walker. -/
def Memory.calloc : Memory where
  walker := none
  directDeps := []
  fval _ := 0
  av _ := none
  fn _ := none
  started := []

theorem stored_ident {s : CStr} (hf : nodes a = some (.leaf .ident (some s))) :
    Stored nodes (.node a []) :=
  ⟨_, hf, by simp [Fields.leaf], rfl, fun _ => ⟨s, rfl⟩, by simp [Fields.leaf]⟩

theorem nestedCalls_tree :
    ExprTree nestedCalls (.node 0 [.node 2 [.node 4 [], .node 5 []], .node 6 []]) where
  stored := by
    have hmax : Named nestedCalls 0 1 (cstr "max") := ⟨_, _, rfl, rfl, rfl, rfl, rfl⟩
    have hmin : Named nestedCalls 2 3 (cstr "min") := ⟨_, _, rfl, rfl, rfl, rfl, rfl⟩
    have h0 : Stored nestedCalls (.node 0 [.node 2 [.node 4 [], .node 5 []], .node 6 []]) :=
      ⟨_, rfl, by simp [Fields.leaf], rfl, by simp [Fields.leaf], fun _ => ⟨_, _, hmax⟩⟩
    have h2 : Stored nestedCalls (.node 2 [.node 4 [], .node 5 []]) :=
      ⟨_, rfl, by simp [Fields.leaf], rfl, by simp [Fields.leaf], fun _ => ⟨_, _, hmin⟩⟩
    have h5 : Stored nestedCalls (.node 5 []) :=
      ⟨_, rfl, by simp [Fields.leaf], rfl, fun _ => ⟨_, rfl⟩, by simp [Fields.leaf]⟩
    exact ⟨h0, ⟨h2, ⟨stored_ident rfl, trivial⟩, ⟨h5, trivial⟩, trivial⟩,
      ⟨stored_ident rfl, trivial⟩, trivial⟩
  distinct := by decide
  apart := by
    rintro a ha l name ⟨f, g, hf, htype, hl, -⟩
    have ha : a = 0 ∨ a = 2 ∨ a = 4 ∨ a = 5 ∨ a = 6 := by simpa [preorder, preorders] using ha
    rcases ha with rfl | rfl | rfl | rfl | rfl <;> cases hf <;> cases htype <;> cases hl <;> decide

/-- A root module with the variables `a` and `b`. -/
def twoVars : Scope where
  base := []
  avars := [.var { timeVar with name := some (cstr "a") } .null,
    .var { timeVar with name := some (cstr "b") } .null]
  parent := none

theorem nodeWalk_walked_nestedCalls :
    ∃ m', nodeWalk twoVars nestedCalls 5 (some 0) (avarWalkerNew .calloc) = .ok (true, m') ∧
      Walked twoVars nestedCalls (.node 0 [.node 2 [.node 4 [], .node 5 []], .node 6 []])
        (avarWalkerNew .calloc) m' := by
  have hlive : (avarWalkerNew .calloc).Live := ⟨_, rfl, by decide⟩
  have hlength : 5 ≤ 5 := Nat.le_refl 5
  have hfound : resolve twoVars.avars (some (cstr "a")) = .ok (some [0]) ∧
      resolve twoVars.avars (some (cstr "b")) = .ok (some [1]) := by decide +kernel
  rcases nodeWalk_walked twoVars nestedCalls_tree hlive hlength with
    h | ⟨a, ha, why, ⟨s, ⟨f, hf, htype, hs⟩, hwhy⟩, -⟩
  · exact h
  · have ha : a = 0 ∨ a = 2 ∨ a = 4 ∨ a = 5 ∨ a = 6 := by simpa [preorder, preorders] using ha
    rcases ha with rfl | rfl | rfl | rfl | rfl <;> cases hf <;> cases htype <;> cases hs
    · cases hfound.1.symm.trans hwhy
    · cases hfound.2.symm.trans hwhy

end Libsd.Walk

/-
  Libsd/Sessions.lean
  ===================
  **The references to a project and to its simulations.**

  Callers hold references to a project and to simulations of it.  A `Session` is the
  heap with the references they hold; they take references, make simulations and give
  back what they hold, in any order.

  Then the counts are those of the owners, and what a live simulation uses is live
  (`reachable_counts`).
-/
import Libsd.SimRefs

namespace Libsd.Refs

open RefHeap RefAVar

/-! ### What callers do -/

structure Session where
  heap : Heap Obj
  projectRefs : Nat        -- the references to the project that callers hold
  simRefs : List Nat       -- and those to simulations

inductive ApiCall where
  | projectRef
  | projectUnref
  | simNew (modelName : Option CStr)
  | simRef (sim : Nat)
  | simUnref (sim : Nat)

namespace Session

/-- A project that has been opened: its files refer to the models, the caller to it. -/
def opened (p : SDProject) : Session :=
  { heap :=
      { cells := fun q =>
          if q = projectPtr then
            some ⟨1, .project, (List.range (allModels p).length).map modelPtr⟩
          else if q ≤ (allModels p).length then some ⟨1, .model, []⟩
          else none
        next := (allModels p).length + 1
        released := fun _ => 0 }
    projectRefs := 1
    simRefs := [] }

/-- Whether a caller can get at the project. -/
def Live (w : Session) : Prop := 0 < w.projectRefs ∨ w.simRefs ≠ []

/-- Callers use what is live, and release only what they hold. -/
def Allowed (w : Session) : ApiCall → Prop
  | .projectRef => w.Live
  | .projectUnref => 0 < w.projectRefs
  | .simNew _ => w.Live
  | .simRef sim => sim ∈ w.simRefs
  | .simUnref sim => sim ∈ w.simRefs

/-- No recursion of the calls goes deeper. -/
def bound (w : Session) : Nat := w.heap.next + 2

/-- A call that ends in undefined behaviour has no state after it. -/
def call (env : Env) (p : SDProject) (w : Session) : ApiCall → Except Fault (Except Stop Session)
  | .projectRef => do
    let h ← w.heap.ref projectPtr
    return .ok { w with heap := h, projectRefs := w.projectRefs + 1 }
  | .projectUnref => do
    let h ← Heap.unref w.bound w.heap projectPtr
    return .ok { w with heap := h, projectRefs := w.projectRefs - 1 }
  | .simNew modelName => do
    let (made, h) ← sdSimNew env p w.bound modelName w.heap
    match made with
    | .ok sim => return .ok { w with heap := h, simRefs := sim :: w.simRefs }
    | .error (.err _) => return .ok { w with heap := h }
    | .error st => return .error st
  | .simRef sim => do
    let h ← w.heap.ref sim
    return .ok { w with heap := h, simRefs := sim :: w.simRefs }
  | .simUnref sim => do
    let h ← sdSimUnref w.bound w.heap sim
    return .ok { w with heap := h, simRefs := w.simRefs.erase sim }

/-- The models of the instances in a simulation, each as often as it has instances. -/
def instances (w : Session) (sim : Nat) : List Nat :=
  match w.heap.cells sim with
  | some ⟨_, .sim (some (m, avars)) _, _⟩ => m :: modelsAll avars
  | _ => []

def roots (w : Session) : List Nat := List.replicate w.projectRefs projectPtr ++ w.simRefs

end Session

/-- The sessions that the calls of callers lead to. -/
inductive Reachable (env : Env) (p : SDProject) : Session → Prop where
  | opened : Reachable env p (Session.opened p)
  | call {w w' : Session} {c : ApiCall} (hw : Reachable env p w) (hallowed : w.Allowed c)
      (heq : w.call env p c = .ok (.ok w')) : Reachable env p w'

/-! ### The shape of the heap -/

section Invariant

variable {env : Env} {p : SDProject} {h h' : Heap Obj} {w w' : Session}

/-- What the objects hold: the project its models, a model nothing, a simulation the models of
    its instances and the project.  Its instances are those that `sd_sim_new` makes. -/
structure Shaped (env : Env) (p : SDProject) (h : Heap Obj) : Prop where
  project : ∀ c, h.cells projectPtr = some c →
    c.children = (List.range (allModels p).length).map modelPtr
  model : ∀ q, IsModel p q → ∀ c, h.cells q = some c → c.children = []
  sim : ∀ q c, (allModels p).length < q → h.cells q = some c →
    ∃ m avars, c.val = .sim (some (m, avars)) (some projectPtr) ∧
      c.children = simHolds (some (m, avars)) (some projectPtr) ∧
      (∀ r ∈ m :: modelsAll avars, IsModel p r) ∧
      ∃ name s, Libsd.sdSimNew env p name = .ok s ∧ eraseAll avars = s.root
  next : (allModels p).length < h.next

theorem Shaped.remains (hs : Shaped env p h) (hr : Remains h h') : Shaped env p h' where
  project c' hc' := by
    obtain ⟨c, hc, -, hk⟩ := hr.2 _ c' hc'
    rw [hk]
    exact hs.project c hc
  model q hq c' hc' := by
    obtain ⟨c, hc, -, hk⟩ := hr.2 q c' hc'
    rw [hk]
    exact hs.model q hq c hc
  sim q c' hq hc' := by
    obtain ⟨c, hc, hv, hk⟩ := hr.2 q c' hc'
    rw [hv, hk]
    exact hs.sim q c hq hc
  next := hr.1 ▸ hs.next

theorem Shaped.of_cells (hs : Shaped env p h) (hcells : h'.cells = h.cells)
    (hnext : h.next ≤ h'.next) : Shaped env p h' where
  project c hc := hs.project c (hcells ▸ hc)
  model q hq c hc := hs.model q hq c (hcells ▸ hc)
  sim q c hq hc := hs.sim q c hq (hcells ▸ hc)
  next := hs.next.trans_le hnext

/-- The objects of a session, up to the models. -/
theorem le_length_cases {q : Nat} (hq : q ≤ (allModels p).length) :
    q = projectPtr ∨ IsModel p q := by
  rcases Nat.eq_zero_or_pos q with hzero | hpos
  · exact .inl hzero
  · refine .inr ⟨q - 1, by omega, ?_⟩
    rw [modelPtr]
    omega

theorem IsModel.pos {q : Nat} (hq : IsModel p q) : projectPtr < q ∧ q ≤ (allModels p).length := by
  obtain ⟨i, hi, rfl⟩ := hq
  rw [projectPtr, modelPtr]
  omega

/-- Nothing holds a simulation. -/
theorem Shaped.holds_sim (hs : Shaped env p h) {q : Nat} (hq : (allModels p).length < q) (r : Nat) :
    holds h q r = 0 := by
  cases hcell : h.cells r with
  | none => exact holds_of_none hcell
  | some c =>
    rw [holds_of_cells hcell]
    apply List.count_eq_zero.mpr
    intro hmem
    by_cases hr : r ≤ (allModels p).length
    · rcases le_length_cases hr with rfl | hr
      · rw [hs.project c hcell, List.mem_map] at hmem
        obtain ⟨i, hi, rfl⟩ := hmem
        rw [List.mem_range] at hi
        rw [modelPtr] at hq
        omega
      · rw [hs.model r hr c hcell] at hmem
        cases hmem
    · obtain ⟨m, avars, -, hk, hmodels, -⟩ := hs.sim r c (by omega) hcell
      rw [hk] at hmem
      rcases List.mem_append.mp hmem with hmem | hmem
      · exact absurd (hmodels q hmem).pos.2 (by omega)
      · rw [List.mem_singleton.mp hmem, projectPtr] at hq
        omega

/-- What holds at every point of a session. -/
structure Ok (env : Env) (p : SDProject) (w : Session) : Prop where
  counted : Counted w.heap ∅ w.roots
  shaped : Shaped env p w.heap
  simRefs : ∀ q ∈ w.simRefs, (allModels p).length < q

/-- The models of the project are held once each. -/
theorem count_modelPtrs {q : Nat} (hq : IsModel p q) :
    ((List.range (allModels p).length).map modelPtr).count q = 1 := by
  obtain ⟨i, hi, rfl⟩ := hq
  refine List.count_eq_one_of_mem ?_ (List.mem_map_of_mem (List.mem_range.mpr hi))
  exact List.nodup_range.map fun i j hij => by simpa [modelPtr] using hij

theorem notMem_modelPtrs {q : Nat} (hq : ¬ IsModel p q) :
    q ∉ (List.range (allModels p).length).map modelPtr := by
  intro hmem
  obtain ⟨i, hi, rfl⟩ := List.mem_map.mp hmem
  exact hq ⟨i, List.mem_range.mp hi, rfl⟩

theorem opened_project : (Session.opened p).heap.cells projectPtr =
    some ⟨1, .project, (List.range (allModels p).length).map modelPtr⟩ := by
  simp [Session.opened]

theorem opened_model {q : Nat} (hq : IsModel p q) :
    (Session.opened p).heap.cells q = some ⟨1, .model, []⟩ :=
  (if_neg (Nat.ne_of_gt hq.pos.1)).trans (if_pos hq.pos.2)

theorem opened_none {q : Nat} (hq : (allModels p).length < q) :
    (Session.opened p).heap.cells q = none :=
  (if_neg (by rw [projectPtr]; omega)).trans (if_neg (by omega))

theorem opened_owners (q : Nat) : ownersBut (Session.opened p).heap ∅ (Session.opened p).roots q =
    [projectPtr].count q + ((List.range (allModels p).length).map modelPtr).count q := by
  have hmem : projectPtr ∈ Finset.range (Session.opened p).heap.next \ ∅ := by
    rw [Finset.sdiff_empty]
    exact Finset.mem_range.mpr (Nat.succ_pos _)
  have hrest : ((Finset.range (Session.opened p).heap.next \ ∅).erase projectPtr).sum
      (holds (Session.opened p).heap q) = 0 := by
    apply Finset.sum_eq_zero
    intro r hr
    rcases Nat.lt_or_ge (allModels p).length r with hlt | hle
    · exact holds_of_none (opened_none hlt)
    · rcases le_length_cases hle with rfl | hmodel
      · exact absurd rfl (Finset.ne_of_mem_erase hr)
      · rw [holds_of_cells (opened_model hmodel)]
        rfl
  rw [ownersBut, sum_holds hmem, hrest, holds_of_cells opened_project]
  rfl

theorem opened_ok : Ok env p (Session.opened p) where
  counted := by
    have hproject : projectPtr ∉ (List.range (allModels p).length).map modelPtr :=
      notMem_modelPtrs fun hp => absurd hp.pos.1 (Nat.lt_irrefl _)
    have hmodel : ∀ q, IsModel p q → [projectPtr].count q = 0 := fun q hq =>
      List.count_eq_zero.mpr fun hmem =>
        absurd hq.pos.1 (by rw [List.mem_singleton.mp hmem]; exact Nat.lt_irrefl _)
    refine ⟨?_, ?_, ?_, fun q hq => absurd hq (Finset.notMem_empty q)⟩
    · intro q _ c hc
      rw [opened_owners]
      rcases Nat.lt_or_ge (allModels p).length q with hlt | hle
      · rw [opened_none hlt] at hc
        cases hc
      · rcases le_length_cases hle with rfl | hq
        · rw [opened_project] at hc
          cases hc
          rw [List.count_eq_zero.mpr hproject]
          exact ⟨rfl, Nat.one_pos⟩
        · rw [opened_model hq] at hc
          cases hc
          rw [hmodel q hq, count_modelPtrs hq]
          exact ⟨rfl, Nat.one_pos⟩
    · intro q hq
      rw [opened_owners] at hq
      refine ⟨Finset.notMem_empty q, ?_⟩
      by_cases hqp : q = projectPtr
      · rw [hqp]
        exact ⟨_, opened_project⟩
      · by_cases hqm : IsModel p q
        · exact ⟨_, opened_model hqm⟩
        · rw [List.count_eq_zero.mpr (notMem_modelPtrs hqm),
            List.count_eq_zero.mpr (List.mem_singleton.not.mpr hqp)] at hq
          exact absurd hq (Nat.lt_irrefl 0)
    · intro q c hc
      rcases Nat.lt_or_ge (allModels p).length q with hlt | hle
      · rw [opened_none hlt] at hc
        cases hc
      · exact Nat.lt_succ_of_le hle
  shaped :=
    { project := fun c hc => by
        rw [opened_project] at hc
        cases hc
        rfl
      model := fun q hq c hc => by
        rw [opened_model hq] at hc
        cases hc
        rfl
      sim := fun q c hq hc => by
        rw [opened_none hq] at hc
        cases hc
      next := Nat.lt_succ_self _ }
  simRefs := fun q hq => by cases hq

/-! ### One call -/

theorem Ok.live (hok : Ok env p w) {q : Nat} (hq : q ∈ w.roots) :
    ∃ c, w.heap.cells q = some c ∧ 0 < c.refcount := by
  have hperm := (List.perm_cons_erase hq)
  obtain ⟨-, c, hc, hcount⟩ := (hok.counted.perm hperm).root
  exact ⟨c, hc, by omega⟩

theorem Ok.holder_live (hok : Ok env p w) {q r : Nat} {c : Cell Obj} (hc : w.heap.cells r = some c)
    (hq : q ∈ c.children) : ∃ c', w.heap.cells q = some c' ∧ 0 < c'.refcount := by
  obtain ⟨c', hc'⟩ := hok.counted.live_of_holds (Finset.notMem_empty r) hc hq
  obtain ⟨hcount, hpos⟩ := hok.counted.refcount q (Finset.notMem_empty q) c' hc'
  exact ⟨c', hc', by omega⟩

/-- What a live simulation uses is live. -/
theorem Ok.sim_live (hok : Ok env p w) {s : Nat} (hs : s ∈ w.simRefs) :
    ∃ m avars n, w.heap.cells s = some ⟨n, .sim (some (m, avars)) (some projectPtr),
        simHolds (some (m, avars)) (some projectPtr)⟩ ∧
      (∀ q ∈ m :: modelsAll avars, IsModel p q) ∧
      ∀ q ∈ simHolds (some (m, avars)) (some projectPtr),
        ∃ c, w.heap.cells q = some c ∧ 0 < c.refcount := by
  obtain ⟨c, hc, -⟩ := hok.live (List.mem_append_right _ hs)
  obtain ⟨m, avars, hv, hk, hmodels, -⟩ := hok.shaped.sim s c (hok.simRefs s hs) hc
  refine ⟨m, avars, c.refcount, ?_, hmodels, ?_⟩
  · rw [hc, ← hv, ← hk]
  · intro q hq
    exact hok.holder_live hc (hk ▸ hq)

theorem Ok.projectLive (hok : Ok env p w) (hlive : w.Live) : ProjectLive p w.heap := by
  have hproject : ∃ c, w.heap.cells projectPtr = some c ∧ 0 < c.refcount := by
    rcases hlive with hrefs | hsims
    · apply hok.live
      exact List.mem_append_left _ (List.mem_replicate.mpr ⟨Nat.ne_of_gt hrefs, rfl⟩)
    · obtain ⟨s, hs⟩ := List.exists_mem_of_ne_nil _ hsims
      obtain ⟨m, avars, n, -, -, hheld⟩ := hok.sim_live hs
      exact hheld _ (List.mem_append_right _ List.mem_cons_self)
  refine ⟨hproject, ?_⟩
  intro q hq
  obtain ⟨c, hc, -⟩ := hproject
  apply hok.holder_live hc
  rw [hok.shaped.project c hc]
  obtain ⟨i, hi, rfl⟩ := hq
  exact List.mem_map_of_mem (List.mem_range.mpr hi)

theorem Ok.fresh (hok : Ok env p w) : w.heap.cells w.heap.next = none := by
  cases hc : w.heap.cells w.heap.next with
  | none => rfl
  | some c => exact absurd (hok.counted.lt _ c hc) (Nat.lt_irrefl _)

/-- A reference is taken to what has one already. -/
theorem Ok.ref (hok : Ok env p w) {q : Nat} (hq : ∃ c, w.heap.cells q = some c ∧ 0 < c.refcount) :
    ∃ h', w.heap.ref q = .ok h' ∧ Counted h' ∅ (q :: w.roots) ∧ Shaped env p h' := by
  obtain ⟨c, hc, -⟩ := hq
  obtain ⟨heq, hcounted⟩ := hok.counted.ref (Finset.notMem_empty q) hc
  exact ⟨_, heq, hcounted, hok.shaped.remains (Remains.addRefs w.heap [q])⟩

theorem Ok.unref (hok : Ok env p w) {q : Nat} {roots : List Nat} (hq : w.roots.Perm (q :: roots)) :
    ∃ h', Heap.unref w.bound w.heap q = .ok h' ∧ Counted h' ∅ roots ∧ Shaped env p h' := by
  obtain ⟨h', heq, hcounted, hr⟩ := (hok.counted.perm hq).unref
    (show w.heap.next ≤ w.bound + (∅ : Finset Nat).card by rw [Session.bound]; omega)
  exact ⟨h', heq, hcounted, hok.shaped.remains hr⟩

theorem Shaped.newSim (hs : Shaped env p h) {m : Nat} {avars : List RefAVar}
    (hmodels : ∀ q ∈ m :: modelsAll avars, IsModel p q) {name : Option CStr} {s : SDSim}
    (hnew : Libsd.sdSimNew env p name = .ok s) (hroot : eraseAll avars = s.root) (v0 : Obj) :
    Shaped env p (((h.alloc v0).addRefs (simHolds (some (m, avars)) (some projectPtr))).put h.next
      ⟨1, .sim (some (m, avars)) (some projectPtr),
        simHolds (some (m, avars)) (some projectPtr)⟩) := by
  have hold : ∀ q c, q ≠ h.next →
      (((h.alloc v0).addRefs (simHolds (some (m, avars)) (some projectPtr))).put h.next
        ⟨1, .sim (some (m, avars)) (some projectPtr),
          simHolds (some (m, avars)) (some projectPtr)⟩).cells q = some c →
      ∃ c0, h.cells q = some c0 ∧ c.val = c0.val ∧ c.children = c0.children := by
    intro q c hq hc
    rw [Heap.put_ne hq] at hc
    obtain ⟨c0, hc0, hv, hk⟩ := (Remains.addRefs (h.alloc v0) _).2 q c hc
    exact ⟨c0, (Function.update_of_ne hq _ _).symm.trans hc0, hv, hk⟩
  have hne : ∀ q, q ≤ (allModels p).length → q ≠ h.next := fun q hq => by
    have := hs.next
    omega
  refine ⟨?_, ?_, ?_, Nat.lt_succ_of_lt hs.next⟩
  · intro c hc
    obtain ⟨c0, hc0, -, hk⟩ := hold _ c (hne _ (Nat.zero_le _)) hc
    rw [hk]
    exact hs.project c0 hc0
  · intro q hq c hc
    obtain ⟨c0, hc0, -, hk⟩ := hold q c (hne q hq.pos.2) hc
    rw [hk]
    exact hs.model q hq c0 hc0
  · intro q c hq hc
    by_cases hqn : q = h.next
    · rw [hqn, Heap.put_self] at hc
      cases hc
      exact ⟨m, avars, rfl, rfl, hmodels, name, s, hnew, hroot⟩
    · obtain ⟨c0, hc0, hv, hk⟩ := hold q c hqn hc
      rw [hv, hk]
      exact hs.sim q c0 hq hc0

/-- `sd_sim_new` returns what it returns without counts; NULL leaves every count as it was. -/
theorem Ok.simNew (hok : Ok env p w) (hlive : w.Live) (name : Option CStr) :
    (∃ s h', Libsd.sdSimNew env p name = .ok s ∧
      w.call env p (.simNew name) =
        .ok (.ok { w with heap := h', simRefs := w.heap.next :: w.simRefs }) ∧
      Ok env p { w with heap := h', simRefs := w.heap.next :: w.simRefs }) ∨
    (∃ e h', Libsd.sdSimNew env p name = .error (.err e) ∧
      w.call env p (.simNew name) = .ok (.ok { w with heap := h' }) ∧
      h'.cells = w.heap.cells ∧ Ok env p { w with heap := h' }) ∨
    ∃ st, Libsd.sdSimNew env p name = .error st ∧ (∀ e, st ≠ .err e) ∧
      w.call env p (.simNew name) = .ok (.error st) := by
  have hproject := hok.projectLive hlive
  have hagrees :
      NewAgrees p w.heap (Libsd.sdSimNew env p name) (sdSimNew env p w.bound name w.heap) :=
    sdSimNew_agrees hproject hok.fresh w.heap.next
  rw [Session.call]
  generalize hnew : Libsd.sdSimNew env p name = x at hagrees
  generalize sdSimNew env p w.bound name w.heap = y at hagrees
  cases hagrees with
  | built s m avars hroot hmodels =>
    refine .inl ⟨s, _, rfl, rfl, ?_, hok.shaped.newSim hmodels hnew hroot _,
      List.forall_mem_cons.mpr ⟨hok.shaped.next, hok.simRefs⟩⟩
    have hused : ∀ q ∈ simHolds (some (m, avars)) (some projectPtr),
        (∃ c, w.heap.cells q = some c) ∧ q ≠ w.heap.next := by
      intro q hq
      have hlive : ∃ c, w.heap.cells q = some c ∧ 0 < c.refcount := by
        rcases List.mem_append.mp hq with hq | hq
        · exact hproject.models q (hmodels q hq)
        · rw [List.mem_singleton.mp hq]
          exact hproject.project
      obtain ⟨c, hc, -⟩ := hlive
      refine ⟨⟨c, hc⟩, ?_⟩
      rintro rfl
      rw [hok.fresh] at hc
      cases hc
    exact (hok.counted.allocHolding (.sim none none) _ hused).perm List.perm_middle.symm
  | failed e h' hcells hnext =>
    have hle : w.heap.next ≤ h'.next := by omega
    exact .inr (.inl ⟨e, h', rfl, rfl, hcells, hok.counted.of_cells hcells hle,
      hok.shaped.of_cells hcells hle, hok.simRefs⟩)
  | crashed st h' hst =>
    refine .inr (.inr ⟨st, rfl, hst, ?_⟩)
    cases st with
    | err e => exact absurd rfl (hst e)
    | undefined why => rfl
    | diverge => rfl

/-- A call that is allowed goes through, unless making the simulation itself ends in undefined
    behaviour. -/
theorem Ok.call (hok : Ok env p w) {c : ApiCall} (hc : w.Allowed c) :
    ∃ r, w.call env p c = .ok r ∧ ∀ w', r = .ok w' → Ok env p w' := by
  cases c with
  | projectRef =>
    obtain ⟨h', heq, hcounted, hshaped⟩ := hok.ref (hok.projectLive hc).project
    refine ⟨.ok { w with heap := h', projectRefs := w.projectRefs + 1 }, ?_, ?_⟩
    · simp only [Session.call, heq, bind, Except.bind]
      rfl
    · rintro w' ⟨⟩
      exact ⟨hcounted, hshaped, hok.simRefs⟩
  | projectUnref =>
    have hroots :
        w.roots = projectPtr :: (List.replicate (w.projectRefs - 1) projectPtr ++ w.simRefs) := by
      rw [Session.roots, ← List.cons_append, ← List.replicate_succ,
        Nat.sub_one_add_one_eq_of_pos hc]
    obtain ⟨h', heq, hcounted, hshaped⟩ := hok.unref (List.Perm.of_eq hroots)
    refine ⟨.ok { w with heap := h', projectRefs := w.projectRefs - 1 }, ?_, ?_⟩
    · simp only [Session.call, heq, bind, Except.bind]
      rfl
    · rintro w' ⟨⟩
      exact ⟨hcounted, hshaped, hok.simRefs⟩
  | simNew name =>
    rcases hok.simNew hc name
      with ⟨s, h', -, heq, hok'⟩ | ⟨e, h', -, heq, -, hok'⟩ | ⟨st, -, -, heq⟩
    · exact ⟨_, heq, by rintro w' ⟨⟩; exact hok'⟩
    · exact ⟨_, heq, by rintro w' ⟨⟩; exact hok'⟩
    · exact ⟨_, heq, by rintro w' ⟨⟩⟩
  | simRef s =>
    obtain ⟨h', heq, hcounted, hshaped⟩ := hok.ref (hok.live (List.mem_append_right _ hc))
    refine ⟨.ok { w with heap := h', simRefs := s :: w.simRefs }, ?_, ?_⟩
    · simp only [Session.call, heq, bind, Except.bind]
      rfl
    · rintro w' ⟨⟩
      exact ⟨hcounted.perm List.perm_middle.symm, hshaped,
        List.forall_mem_cons.mpr ⟨hok.simRefs s hc, hok.simRefs⟩⟩
  | simUnref s =>
    have hperm :
        w.roots.Perm (s :: (List.replicate w.projectRefs projectPtr ++ w.simRefs.erase s)) :=
      ((List.perm_cons_erase hc).append_left _).trans List.perm_middle
    obtain ⟨h', heq, hcounted, hshaped⟩ := hok.unref hperm
    obtain ⟨m, avars, n, hcell, -, -⟩ := hok.sim_live hc
    refine ⟨.ok { w with heap := h', simRefs := w.simRefs.erase s }, ?_, ?_⟩
    · simp only [Session.call, sdSimUnref_eq w.bound hcell, heq, bind, Except.bind]
      rfl
    · rintro w' ⟨⟩
      exact ⟨hcounted, hshaped, fun q hq => hok.simRefs q (List.mem_of_mem_erase hq)⟩

theorem Reachable.ok (hw : Reachable env p w) : Ok env p w := by
  induction hw with
  | opened => exact opened_ok
  | call _ hallowed heq ih =>
    obtain ⟨r, heq', hr⟩ := ih.call hallowed
    rw [heq] at heq'
    exact hr _ (Except.ok.inj heq').symm

/-! ### The counts -/

/-- What the counts of a session are, and what follows for its calls.  Every object after the
    models is a simulation. -/
structure Accounted (env : Env) (p : SDProject) (w : Session) : Prop where
  live : ∀ s, s ∈ w.simRefs ↔ (allModels p).length < s ∧ ∃ c, w.heap.cells s = some c
  project : w.Live → ∃ c, w.heap.cells projectPtr = some c ∧
    c.refcount = w.projectRefs + w.simRefs.toFinset.card
  model : w.Live → ∀ i < (allModels p).length, ∃ c, w.heap.cells (modelPtr i) = some c ∧
    c.refcount = 1 + (w.simRefs.toFinset.sum fun s => (w.instances s).count (modelPtr i) : Nat)
  -- the instances of a live simulation are those that `sd_sim_new` makes
  instances : ∀ s ∈ w.simRefs, ∃ m avars name sim, w.instances s = m :: modelsAll avars ∧
    Libsd.sdSimNew env p name = .ok sim ∧ eraseAll avars = sim.root
  used : ∀ s ∈ w.simRefs, ∀ q ∈ projectPtr :: w.instances s, ∃ c, w.heap.cells q = some c
  call : ∀ c, w.Allowed c → ∃ r, w.call env p c = .ok r
  made : w.Live → ∀ name sim, Libsd.sdSimNew env p name = .ok sim →
    ∃ h', w.call env p (.simNew name) =
      .ok (.ok { w with heap := h', simRefs := w.heap.next :: w.simRefs })
  failed : w.Live → ∀ name e, Libsd.sdSimNew env p name = .error (.err e) →
    ∃ h', w.call env p (.simNew name) = .ok (.ok { w with heap := h' }) ∧ h'.cells = w.heap.cells

/-- A simulation that is live is referred to by a caller. -/
theorem Ok.mem_simRefs (hok : Ok env p w) {q : Nat} (hq : (allModels p).length < q) {c : Cell Obj}
    (hc : w.heap.cells q = some c) : q ∈ w.simRefs := by
  have hpos := (hok.counted.refcount q (Finset.notMem_empty q) c hc).2
  have hzero : (Finset.range w.heap.next \ ∅).sum (holds w.heap q) = 0 :=
    Finset.sum_eq_zero fun r _ => hok.shaped.holds_sim hq r
  rw [ownersBut, hzero, Nat.add_zero] at hpos
  rcases List.mem_append.mp (List.count_pos_iff.mp hpos) with hmem | hmem
  · rw [List.eq_of_mem_replicate hmem, projectPtr] at hq
    omega
  · exact hmem

/-- The project and the live simulations are all that hold anything. -/
theorem Ok.owners (hok : Ok env p w) (q : Nat) :
    ownersBut w.heap ∅ w.roots q =
      w.roots.count q + holds w.heap q projectPtr + w.simRefs.toFinset.sum (holds w.heap q) := by
  have hproject : projectPtr ∈ Finset.range w.heap.next \ ∅ := by
    rw [Finset.sdiff_empty]
    exact Finset.mem_range.mpr (Nat.zero_lt_of_lt hok.shaped.next)
  have hsub : w.simRefs.toFinset ⊆ (Finset.range w.heap.next \ ∅).erase projectPtr := by
    intro s hs
    rw [List.mem_toFinset] at hs
    obtain ⟨c, hc, -⟩ := hok.live (List.mem_append_right _ hs)
    have hne : s ≠ projectPtr := Nat.ne_of_gt (Nat.zero_lt_of_lt (hok.simRefs s hs))
    rw [Finset.sdiff_empty]
    exact Finset.mem_erase.mpr ⟨hne, Finset.mem_range.mpr (hok.counted.lt s c hc)⟩
  have hrest : ((Finset.range w.heap.next \ ∅).erase projectPtr).sum (holds w.heap q) =
      w.simRefs.toFinset.sum (holds w.heap q) := by
    symm
    apply Finset.sum_subset hsub
    intro r hr hrs
    cases hc : w.heap.cells r with
    | none => exact holds_of_none hc
    | some c =>
      rcases Nat.lt_or_ge (allModels p).length r with hlt | hle
      · exact absurd (List.mem_toFinset.mpr (hok.mem_simRefs hlt hc)) hrs
      · rcases le_length_cases hle with rfl | hmodel
        · exact absurd rfl (Finset.ne_of_mem_erase hr)
        · rw [holds_of_cells hc, hok.shaped.model r hmodel c hc]
          rfl
  rw [ownersBut, sum_holds hproject, hrest, add_assoc]

theorem Ok.holds_project (hok : Ok env p w) (hlive : w.Live) (q : Nat) :
    holds w.heap q projectPtr = ((List.range (allModels p).length).map modelPtr).count q := by
  obtain ⟨c, hc, -⟩ := (hok.projectLive hlive).project
  rw [holds_of_cells hc, hok.shaped.project c hc]

/-- A live simulation holds the models of its instances, and the project. -/
theorem Ok.holds_sim (hok : Ok env p w) {s : Nat} (hs : s ∈ w.simRefs) (q : Nat) :
    holds w.heap q s = (w.instances s).count q + [projectPtr].count q := by
  obtain ⟨m, avars, n, hc, -⟩ := hok.sim_live hs
  rw [holds_of_cells hc, Session.instances, hc, simHolds, List.count_append]
  rfl

theorem Ok.count_roots (hok : Ok env p w) {q : Nat} (hq : q ≤ (allModels p).length) :
    w.roots.count q = if projectPtr = q then w.projectRefs else 0 := by
  have hsims : w.simRefs.count q = 0 :=
    List.count_eq_zero.mpr fun hmem => absurd (hok.simRefs q hmem) (by omega)
  rw [Session.roots, List.count_append, hsims, List.count_replicate, Nat.add_zero]
  simp only [beq_iff_eq]

theorem Ok.project_count (hok : Ok env p w) (hlive : w.Live) :
    ∃ c, w.heap.cells projectPtr = some c ∧
      c.refcount = w.projectRefs + w.simRefs.toFinset.card := by
  obtain ⟨c, hc, -⟩ := (hok.projectLive hlive).project
  refine ⟨c, hc, ?_⟩
  have hmodels : ((List.range (allModels p).length).map modelPtr).count projectPtr = 0 :=
    List.count_eq_zero.mpr (notMem_modelPtrs fun hp => absurd hp.pos.1 (Nat.lt_irrefl _))
  have hsims : w.simRefs.toFinset.sum (holds w.heap projectPtr) = w.simRefs.toFinset.card := by
    rw [Finset.card_eq_sum_ones]
    apply Finset.sum_congr rfl
    intro s hs
    rw [List.mem_toFinset] at hs
    obtain ⟨m, avars, n, hcell, hmodels, -⟩ := hok.sim_live hs
    have hnone : projectPtr ∉ m :: modelsAll avars := fun hmem =>
      absurd (hmodels _ hmem).pos.1 (Nat.lt_irrefl _)
    rw [holds_of_cells hcell, simHolds, List.count_append]
    exact congrArg (· + 1) (List.count_eq_zero.mpr hnone)
  have hcount := (hok.counted.refcount projectPtr (Finset.notMem_empty _) c hc).1
  rw [hok.owners, hok.holds_project hlive, hmodels, hsims,
    hok.count_roots (show projectPtr ≤ _ from Nat.zero_le _), if_pos rfl] at hcount
  simpa using hcount

theorem Ok.model_count (hok : Ok env p w) (hlive : w.Live) {q : Nat} (hq : IsModel p q) :
    ∃ c, w.heap.cells q = some c ∧
      c.refcount = 1 + (w.simRefs.toFinset.sum fun s => (w.instances s).count q : Nat) := by
  obtain ⟨c, hc, -⟩ := (hok.projectLive hlive).models q hq
  refine ⟨c, hc, ?_⟩
  have hne : projectPtr ≠ q := Nat.ne_of_lt hq.pos.1
  have hsims : w.simRefs.toFinset.sum (holds w.heap q) =
      w.simRefs.toFinset.sum fun s => (w.instances s).count q := by
    apply Finset.sum_congr rfl
    intro s hs
    rw [hok.holds_sim (List.mem_toFinset.mp hs),
      List.count_eq_zero.mpr (List.mem_singleton.not.mpr hne.symm),
      Nat.add_zero]
  have hcount := (hok.counted.refcount q (Finset.notMem_empty _) c hc).1
  rw [hok.owners, hok.holds_project hlive, count_modelPtrs hq, hsims, hok.count_roots hq.pos.2,
    if_neg hne] at hcount
  simpa using hcount

theorem Ok.accounted (hok : Ok env p w) : Accounted env p w where
  live s := by
    constructor
    · intro hs
      obtain ⟨c, hc, -⟩ := hok.live (List.mem_append_right _ hs)
      exact ⟨hok.simRefs s hs, c, hc⟩
    · rintro ⟨hlt, c, hc⟩
      exact hok.mem_simRefs hlt hc
  project := hok.project_count
  model hlive i hi := hok.model_count hlive ⟨i, hi, rfl⟩
  instances s hs := by
    obtain ⟨c, hc, -⟩ := hok.live (List.mem_append_right _ hs)
    obtain ⟨m, avars, hv, -, -, name, sim, hnew, hroot⟩ := hok.shaped.sim s c (hok.simRefs s hs) hc
    refine ⟨m, avars, name, sim, ?_, hnew, hroot⟩
    obtain ⟨n, v, k⟩ := c
    rw [show v = _ from hv] at hc
    rw [Session.instances, hc]
  used s hs q hq := by
    obtain ⟨m, avars, n, hc, -, hheld⟩ := hok.sim_live hs
    rw [Session.instances, hc] at hq
    obtain ⟨c, hcell, -⟩ := hheld q ((List.perm_append_singleton _ _).mem_iff.mpr hq)
    exact ⟨c, hcell⟩
  call c hc := by
    obtain ⟨r, heq, -⟩ := hok.call hc
    exact ⟨r, heq⟩
  made hlive name sim hnew := by
    rcases hok.simNew hlive name with ⟨s, h', -, heq, -⟩ | ⟨e, h', hfail, -⟩ | ⟨st, hfail, -⟩
    · exact ⟨h', heq⟩
    · rw [hnew] at hfail
      cases hfail
    · rw [hnew] at hfail
      cases hfail
  failed hlive name e hnew := by
    rcases hok.simNew hlive name
      with ⟨s, h', hmade, -⟩ | ⟨e', h', -, heq, hcells, -⟩ | ⟨st, hfail, hst, -⟩
    · rw [hnew] at hmade
      cases hmade
    · exact ⟨h', heq, hcells⟩
    · rw [hnew] at hfail
      exact absurd (Except.error.inj hfail).symm (hst e)

/-- Whatever callers do that release only what they hold, each model is referred to by its
    file and by its instances, the project by callers and by the live simulations, and what
    a live simulation uses is live. -/
theorem reachable_accounted (hw : Reachable env p w) : Accounted env p w :=
  hw.ok.accounted

/-- A simulation with a module, after its maker has given back the project. -/
theorem reachable_accounted_simulation :
    ∃ w : Session, w.projectRefs = 0 ∧ w.simRefs ≠ [] ∧
      Accounted (.plain false) (moduleFirst ⟨0, 2, 1, 1⟩) w := by
  obtain ⟨sim, hsim, -⟩ :=
    exists_ok (x := Libsd.sdSimNew (.plain false) (moduleFirst ⟨0, 2, 1, 1⟩) none)
    (P := fun _ => true) (by decide +kernel)
  have hopened : Reachable (.plain false) (moduleFirst ⟨0, 2, 1, 1⟩) (Session.opened _) := .opened
  have hlive : (Session.opened (moduleFirst ⟨0, 2, 1, 1⟩)).Live := .inl Nat.one_pos
  obtain ⟨h1, hmade⟩ := (reachable_accounted hopened).made hlive none sim hsim
  have hallowed : (Session.opened (moduleFirst ⟨0, 2, 1, 1⟩)).Allowed (.simNew none) := hlive
  have hsession := Reachable.call hopened hallowed hmade
  obtain ⟨r, hcall⟩ := (reachable_accounted hsession).call .projectUnref Nat.one_pos
  obtain ⟨h2, hunref, hr⟩ := Outcome.bind_eq_ok hcall
  cases hr
  have hleft := hsession.call (c := .projectUnref) Nat.one_pos hcall
  exact ⟨_, rfl, List.cons_ne_nil _ _, reachable_accounted hleft⟩

end Invariant

end Libsd.Refs

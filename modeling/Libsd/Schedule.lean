/-
  Libsd/Schedule.lean
  ===================
  **Which variables the passes reach, and how often.**

  `reached` follows the modules on a list of the root into their own lists; the passes
  execute what it gives (`initialLeaves_eq`).  A variable is on it once for the way down
  through its modules, and once more wherever a module's list holds it, or a module it is
  in, because an earlier child leads there (`ReadAhead`).  So every variable is scheduled
  once if none is read ahead, and only then where nothing outside a skipped module leads
  into it (`scheduled_iff`).  A module is skipped when an earlier child leads to it, and its
  variables are then on no list.
-/
import Libsd.Passes
import Libsd.ReadAhead
import Libsd.VarNames

namespace Libsd

open Assign Outcome

/-- The variables that are reached from one of the root's lists, with modules followed into
    their own. -/
def SDSim.reached (s : SDSim) (k : ListKind) : List Path :=
  flatten s.isSub (s.lists.get k) s.calcFuel (s.lists.get k [])

/-- Once in the initial values, and once in the flows and stocks together. -/
def SDSim.ScheduledOnce (s : SDSim) (p : Path) : Prop :=
  (s.reached .initials).count p = 1 ∧ (s.reached .flows).count p + (s.reached .stocks).count p = 1

/-- No variable is lost from the schedule, and none is on it twice. -/
def SDSim.Scheduled (s : SDSim) : Prop :=
  ∀ p, IsColumn s.root s.store p → p ≠ [0] → s.ScheduledOnce p

/-- An earlier child of some module leads to `p`, which is inside a later one, or to a module
    that `p` is in. -/
def ReadAhead (st : Store) (p : Path) : Prop :=
  ∃ m j x, Below (m ++ [j]) p ∧ m ++ [j] <+: x ∧ x <+: p ∧ EarlyTo st m j x

variable {s : SDSim}

/-! ### What the passes execute -/

theorem hollow_of_isSub (h : WellBuilt s) {p : Path} (hp : s.isSub p = true) :
    s.hollow p = true := by
  by_contra hhollow
  have ht : s.typeAt p = some .module := beq_iff_eq.mp hp
  rw [SDSim.typeAt, Option.map_eq_some_iff] at ht
  obtain ⟨av, hav, -⟩ := ht
  have hm := not_isModule_of_hollow h hav (by simpa using hhollow)
  rw [isModule_iff_isSub h hav, hp] at hm
  cases hm

/-- Only modules have lists. -/
theorem list_empty (h : WellBuilt s) {p : Path} (hp : s.isSub p = false) (hne : p ≠ [])
    (k : ListKind) : s.lists.get k p = [] := by
  rw [List.eq_nil_iff_forall_not_mem]
  intro q hq
  obtain ⟨hbelow, av, hav, -⟩ := h.wanted k p q hq
  cases hat : avarAt s.root p with
  | none =>
    rw [avarAt_of_prefix_none hat hne hbelow.above] at hav
    cases hav
  | some pv =>
    have hm := isModule_of_below hat hav hbelow
    rw [isModule_iff_isSub h hat, hp] at hm
    cases hm

theorem leaves_eq_filter_reached (h : WellBuilt s) (k : ListKind) :
    flatten s.hollow (s.lists.get k) s.calcFuel (s.lists.get k []) =
      (s.reached k).filter fun p => !s.hollow p := by
  have hne : ∀ q, ∀ p ∈ s.lists.get k q, p ≠ [] := by
    intro q p hp
    obtain ⟨⟨i, rest, rfl⟩, -⟩ := h.wanted k q p hp
    simp
  exact flatten_eq_filter_flatten s.hollow (s.lists.get k) (P := fun p => p ≠ []) (fun q _ => hne q)
    (fun _ _ => hollow_of_isSub h) (fun _ hp _ hsub => list_empty h hsub hp k) _ (hne [])

theorem initialLeaves_eq (h : WellBuilt s) :
    s.initialLeaves = (s.reached .initials).filter fun p => !s.hollow p :=
  leaves_eq_filter_reached h .initials

theorem flowLeaves_eq (h : WellBuilt s) :
    s.flowLeaves = (s.reached .flows).filter fun p => !s.hollow p :=
  leaves_eq_filter_reached h .flows

theorem stockLeaves_eq (s : SDSim) : s.stockLeaves = s.reached .stocks := rfl

/-! ### How often a variable is reached -/

section
variable {p c : Path} {k : ListKind} {fuel : Nat}

/-- What a member of a list contributes. -/
def SDSim.piece (s : SDSim) (k : ListKind) (fuel : Nat) (a : Path) : List Path :=
  if s.isSub a then flatten s.isSub (s.lists.get k) fuel (s.lists.get k a) else [a]

theorem flatten_succ (s : SDSim) (k : ListKind) (fuel : Nat) (c : Path) :
    flatten s.isSub (s.lists.get k) (fuel + 1) (s.lists.get k c) =
      (s.lists.get k c).flatMap (s.piece k fuel) := rfl

theorem piece_sub {a : Path} (ha : s.isSub a = true) :
    s.piece k fuel a = flatten s.isSub (s.lists.get k) fuel (s.lists.get k a) := if_pos ha

theorem piece_leaf {a : Path} (ha : s.isSub a = false) : s.piece k fuel a = [a] := by
  rw [SDSim.piece, ha]
  rfl

/-- Off the way to `p` it is not reached. -/
theorem not_mem_piece (h : WellBuilt s) {a : Path} (ha : ¬ a <+: p) : p ∉ s.piece k fuel a := by
  intro hp
  cases hs : s.isSub a with
  | true =>
    rw [piece_sub hs] at hp
    have hbelow := (mem_flatten s.isSub (s.lists.get k) (P := Below a)
      (fun q hq r hr => hq.trans (h.wanted k q r hr).1) (fun r hr => (h.wanted k a r hr).1) hp).1
    exact ha hbelow.above
  | false =>
    rw [piece_leaf hs, List.mem_singleton] at hp
    exact ha (hp ▸ List.prefix_rfl)

/-- A module on the way down is reached as often as its parent, or more often. -/
theorem count_le_parent {a : Path} (ha : a ∈ s.lists.get k c) (hs : s.isSub a = true) :
    (flatten s.isSub (s.lists.get k) fuel (s.lists.get k a)).count p ≤
      (flatten s.isSub (s.lists.get k) (fuel + 1) (s.lists.get k c)).count p := by
  rw [flatten_succ, ← piece_sub hs]
  exact count_le_flatMap ha p

/-- The variable at `p`, in modules that are not skipped. -/
structure OnSchedule (s : SDSim) (p : Path) (pv : AVar) : Prop where
  built : WellBuilt s
  found : avarAt s.root p = some pv
  leaf : pv.isModule = false
  listed : ∀ c, Below c p → Listed s.root s.store p s.lists c

variable {pv : AVar}

theorem OnSchedule.not_isSub (h : OnSchedule s p pv) : s.isSub p = false := by
  rw [← isModule_iff_isSub h.built h.found]
  exact h.leaf

/-- The way down to `p`, and what is on it. -/
theorem OnSchedule.on_way (h : OnSchedule s p pv) {x : Path} (hne : x ≠ []) (hx : x <+: p) :
    ∃ av, avarAt s.root x = some av ∧ (x ≠ p → s.isSub x = true) ∧
      (av.wants k = true ∨ x = p ∧ av = pv) := by
  rcases prefix_iff_below.mp hx with rfl | hbelow
  · exact ⟨pv, h.found, fun hne => absurd rfl hne, .inr ⟨rfl, rfl⟩⟩
  · cases hat : avarAt s.root x with
    | none =>
      have hnone := avarAt_of_prefix_none hat hne hx
      rw [h.found] at hnone
      cases hnone
    | some av =>
      have hm := isModule_of_below hat h.found hbelow
      refine ⟨av, rfl, fun _ => ?_, .inl (wants_of_isModule (h.built.typed x av hat) hm k)⟩
      rw [← isModule_iff_isSub h.built hat]
      exact hm

/-- Each module above `p` is on the list of its parent. -/
theorem OnSchedule.child_mem (h : OnSchedule s p pv) {m : Path} {j : Nat}
    (hj : Below (m ++ [j]) p) : m ++ [j] ∈ s.lists.get k m ∧ s.isSub (m ++ [j]) = true := by
  obtain ⟨av, hav, hsub, hw⟩ := h.on_way (k := k) (by simp) hj.above
  have hw : av.wants k = true := hw.resolve_right fun hp => hj.ne hp.1.symm
  have hcount := (h.listed m ((below_child m j).trans hj)).found k j [] av hj.above hav (.inl rfl)
  rw [hw] at hcount
  exact ⟨List.count_pos_iff.mp (by rw [hcount]; exact Nat.one_pos), hsub hj.ne.symm⟩

/-- It is reached at least once from every module that it is in. -/
theorem OnSchedule.le_count (h : OnSchedule s p pv) (hw : pv.wants k = true)
    (hdeep : Deep s.isSub (s.lists.get k) fuel (s.lists.get k c)) (hc : Below c p) :
    1 ≤ (flatten s.isSub (s.lists.get k) fuel (s.lists.get k c)).count p := by
  induction fuel generalizing c with
  | zero => exact absurd hdeep id
  | succ fuel ih =>
    obtain ⟨j, r, heq⟩ := id hc
    have hjp : c ++ [j] <+: p := heq ▸ prefix_child c j r
    rcases prefix_iff_below.mp hjp with rfl | hj
    · -- the list is that of its own module
      have hcount := (h.listed c hc).found k j [] pv List.prefix_rfl h.found (.inl rfl)
      rw [hw] at hcount
      have hmem : c ++ [j] ∈ s.lists.get k c :=
        List.count_pos_iff.mp (by rw [hcount]; exact Nat.one_pos)
      have hle := count_le_flatMap (f := s.piece k fuel) hmem (c ++ [j])
      rw [piece_leaf h.not_isSub, List.count_singleton_self] at hle
      exact hle
    · obtain ⟨hmem, hs⟩ := h.child_mem (k := k) hj
      exact (ih (hdeep _ hmem hs) hj).trans (count_le_parent hmem hs)

/-- If it is not read ahead, it is reached just once. -/
theorem OnSchedule.count_eq (h : OnSchedule s p pv) (hno : ¬ ReadAhead s.store p)
    (hdeep : Deep s.isSub (s.lists.get k) fuel (s.lists.get k c)) (hc : Below c p) :
    (flatten s.isSub (s.lists.get k) fuel (s.lists.get k c)).count p = (pv.wants k).toNat := by
  induction fuel generalizing c with
  | zero => exact absurd hdeep id
  | succ fuel ih =>
    obtain ⟨j, r, heq⟩ := id hc
    have hjp : c ++ [j] <+: p := heq ▸ prefix_child c j r
    have honly : ∀ a ∈ s.lists.get k c, a ≠ c ++ [j] → p ∉ s.piece k fuel a := by
      intro a ha hne hmem
      have hap : a <+: p := by
        by_contra hnot
        exact not_mem_piece h.built hnot hmem
      obtain ⟨⟨l, r', rfl⟩, av, hav, -⟩ := h.built.wanted k c a ha
      obtain rfl := way_child hjp hap
      have hr' : r' ≠ [] := by
        rintro rfl
        exact hne rfl
      have hbelow : Below (c ++ [l]) p := by
        obtain ⟨i, rest, rfl⟩ := List.exists_cons_of_ne_nil hr'
        exact Below.of_above ⟨i, rest, by simp⟩ hap
      have hearly : ¬ EarlyTo s.store c l (c ++ l :: r') := fun he =>
        hno ⟨c, l, _, hbelow, prefix_child c l r', hap, he⟩
      have hzero := (h.listed c hc).absent k l r' av hap hav hr' hearly
      exact List.count_eq_zero.mp hzero ha
    rw [flatten_succ, count_flatMap_of_only honly]
    rcases prefix_iff_below.mp hjp with rfl | hj
    · have hcount := (h.listed c hc).found k j [] pv List.prefix_rfl h.found (.inl rfl)
      rw [hcount, piece_leaf h.not_isSub, List.count_singleton_self, Nat.mul_one]
    · obtain ⟨hmem, hs⟩ := h.child_mem (k := k) hj
      obtain ⟨av, hav, -, hw⟩ := h.on_way (k := k) (by simp) hj.above
      have hw : av.wants k = true := hw.resolve_right fun hp => hj.ne hp.1.symm
      have hcount := (h.listed c hc).found k j [] av hj.above hav (.inl rfl)
      rw [hcount, hw, piece_sub hs, ih (hdeep _ hmem hs) hj, Bool.toNat_true, Nat.one_mul]

/-- If it is read ahead in `m`, it is reached twice from the modules above `m`. -/
theorem OnSchedule.two_le_count (h : OnSchedule s p pv) (hw : pv.wants k = true) {m x : Path}
    {j : Nat} (hj : Below (m ++ [j]) p) (hx : x <+: p) (hmx : Below (m ++ [j]) x)
    (hearly : EarlyTo s.store m j x)
    (hdeep : Deep s.isSub (s.lists.get k) fuel (s.lists.get k c)) (hc : c <+: m) :
    2 ≤ (flatten s.isSub (s.lists.get k) fuel (s.lists.get k c)).count p := by
  induction fuel generalizing c with
  | zero => exact absurd hdeep id
  | succ fuel ih =>
    rcases prefix_iff_below.mp hc with rfl | ⟨l, rest, rfl⟩
    · -- the module's list holds the child and what the earlier child leads to
      obtain ⟨hmem, hs⟩ := h.child_mem (k := k) hj
      have hone : 1 ≤ (s.piece k fuel (m ++ [j])).count p := by
        rw [piece_sub hs]
        exact h.le_count hw (hdeep _ hmem hs) hj
      obtain ⟨av, hav, hsub, hwx⟩ := h.on_way (k := k) (x := x) (by
        rintro rfl
        exact hmx.not_above List.nil_prefix) hx
      have hwant : av.wants k = true := hwx.elim id fun hxp => hxp.2 ▸ hw
      have hxmem : x ∈ s.lists.get k m := by
        obtain ⟨i, r, rfl⟩ := hmx
        rw [List.append_assoc, List.singleton_append] at hx hav hearly ⊢
        have hcount := (h.listed m ((below_child m j).trans hj)).found k j (i :: r) av hx hav
          (.inr hearly)
        rw [hwant] at hcount
        exact List.count_pos_iff.mp (by rw [hcount]; exact Nat.one_pos)
      have htwo : 1 ≤ (s.piece k fuel x).count p := by
        by_cases hxp : x = p
        · rw [hxp, piece_leaf h.not_isSub, List.count_singleton_self]
        · rw [piece_sub (hsub hxp)]
          have hbelow : Below x p := (prefix_iff_below.mp hx).resolve_left fun he => hxp he.symm
          exact h.le_count hw (hdeep _ hxmem (hsub hxp)) hbelow
      exact (Nat.add_le_add hone htwo).trans (count_add_le_flatMap hmx.ne.symm hmem hxmem p)
    · have hl : Below (c ++ [l]) p :=
        below_within (prefix_child c l rest) ((below_child _ j).trans hj)
      obtain ⟨hmem, hs⟩ := h.child_mem (k := k) hl
      exact (ih (hdeep _ hmem hs) (prefix_child c l rest)).trans (count_le_parent hmem hs)

end

/-! ### The schedule of a simulation -/

/-- The variables that a model's equations leave in their modules. -/
theorem onSchedule {env : Env} {project : SDProject} {name : Option CStr}
    (h : sdSimNew env project name = .ok s) {p : Path} {v : Var} {n : Node}
    (hp : avarAt s.root p = some (.var v n)) (hne : p ≠ [0])
    (hkept : ∀ m j, Below (m ++ [j]) p → ¬ Skipped s.store m j) : OnSchedule s p (.var v n) := by
  have hw := (sdSimNew_isReset h).1.built
  obtain ⟨s', hsort, hlists⟩ := hw.sorted
  have htime : ¬ [0] <+: p := by
    intro hpre
    rcases prefix_iff_below.mp hpre with rfl | hbelow
    · exact hne rfl
    · have hat : avarAt s.root [0] = some (.var timeVar .null) := by simp [avarAt_cons, hw.time]
      cases isModule_of_below hat hp hbelow
  refine ⟨hw, hp, rfl, fun c hc => ?_⟩
  rw [hlists]
  exact sort_listed (scoped_of_compiled hw.compiled) (fun q d hd => ((hw.compiled q).dep hd).2) hp
    htime hkept hsort hc

/-- A module is skipped when an earlier child leads to it. -/
theorem readAhead_of_skipped {p m : Path} {j : Nat} {st : Store} (hj : Below (m ++ [j]) p)
    (h : Skipped st m j) : ReadAhead st p :=
  ⟨m, j, m ++ [j], hj, List.prefix_rfl, hj.above, h⟩

/-- A simulated variable belongs to the initial values, and either to the flows or to the
    stocks. -/
theorem wants_of_variable {v : Var} {n : Node} (hv : v.type ≠ .ref) (hm : v.type ≠ .module) :
    (AVar.var v n).wants .initials = true ∧
      ((AVar.var v n).wants .flows).toNat + ((AVar.var v n).wants .stocks).toNat = 1 := by
  cases ht : v.type with
  | ref => exact absurd ht hv
  | module => exact absurd ht hm
  | stock => simp [AVar.wants, AVar.v, ht]
  | flow | aux => cases hc : (AVar.var v n).isConst <;> simp [AVar.wants, AVar.v, ht, hc]

theorem scheduledOnce_iff {env : Env} {project : SDProject} {name : Option CStr}
    (h : sdSimNew env project name = .ok s) {p : Path} (hp : IsColumn s.root s.store p)
    (hne : p ≠ [0]) (hkept : ∀ m j, Below (m ++ [j]) p → ¬ Skipped s.store m j) :
    s.ScheduledOnce p ↔ ¬ ReadAhead s.store p := by
  have hw := (sdSimNew_isReset h).1.built
  obtain ⟨v, n, hv, href⟩ := (isColumn_iff (hw.compiled p)).mp hp
  have hm : v.type ≠ .module := fun ht => by
    have hmodule := (hw.typed p _ hv).isModule_iff.mpr ht
    cases hmodule
  obtain ⟨hinitial, hsum⟩ := wants_of_variable (n := n) href hm
  have hs := onSchedule h hv hne hkept
  have hroot : Below [] p := by
    cases p with
    | nil => exact absurd hp not_isColumn_nil
    | cons i rest => exact ⟨i, rest, rfl⟩
  have hdeep : ∀ k, Deep s.isSub (s.lists.get k) s.calcFuel (s.lists.get k []) := fun k =>
    deep_lists hw.wanted k s.isSub (Nat.lt_succ_self _)
  constructor
  · rintro ⟨hcount, -⟩ ⟨m, j, x, hj, hjx, hx, hearly⟩
    have hmx : Below (m ++ [j]) x := by
      rcases prefix_iff_below.mp hjx with rfl | hbelow
      · exact absurd hearly (hkept m j hj)
      · exact hbelow
    have htwo := hs.two_le_count hinitial hj hx hmx hearly (hdeep .initials) List.nil_prefix
    have hone : 2 ≤ 1 := hcount ▸ htwo
    omega
  · intro hno
    have hcount : ∀ k, (s.reached k).count p = ((AVar.var v n).wants k).toNat := fun k =>
      hs.count_eq hno (hdeep k) hroot
    refine ⟨?_, ?_⟩
    · rw [hcount .initials, hinitial, Bool.toNat_true]
    · rw [hcount .flows, hcount .stocks, hsum]

/-- A variable of a skipped module is reached only when something outside leads to it. -/
theorem not_reached {env : Env} {project : SDProject} {name : Option CStr}
    (h : sdSimNew env project name = .ok s) {p : Path} {av : AVar} (hp : avarAt s.root p = some av)
    {m : Path} {j : Nat} (hj : Below (m ++ [j]) p) (hskip : Skipped s.store m j)
    (hout : ∀ y, Leads s.store y p → y.dropLast = p.dropLast) (k : ListKind) : p ∉ s.reached k := by
  have hw := (sdSimNew_isReset h).1.built
  obtain ⟨s', hsort, hlists⟩ := hw.sorted
  have hby := sort_listedBySort (scoped_of_compiled hw.compiled)
    (fun q d hd => ((hw.compiled q).dep hd).2) hsort
  rw [← hlists] at hby
  have hnowhere : ∀ c, p ∉ s.lists.get k c := by
    intro c hpc
    obtain ⟨hsorted, i, hleads⟩ := hby k c p av hp (List.count_pos_iff.mpr hpc)
    have hc : c = p.dropLast := by
      rw [← hout _ hleads, List.dropLast_concat]
    obtain ⟨i, rest, rfl⟩ := hj
    refine not_sortedFrom_of_skipped hskip ?_ hsorted
    rw [hc, List.dropLast_append_of_ne_nil (by simp)]
    exact List.prefix_append _ _
  intro hmem
  exact (mem_flatten s.isSub (s.lists.get k) (P := fun q => q ≠ p)
    (fun q _ r hr hrp => hnowhere q (hrp ▸ hr)) (fun r hr hrp => hnowhere [] (hrp ▸ hr)) hmem).1 rfl

/-- Every variable is scheduled once if none is read ahead; and only then, if nothing
    outside a module leads to a variable of a skipped one. -/
theorem scheduled_iff {env : Env} {project : SDProject} {name : Option CStr}
    (h : sdSimNew env project name = .ok s) :
    ((∀ p, IsColumn s.root s.store p → ¬ ReadAhead s.store p) → s.Scheduled) ∧
    ((∀ p, IsColumn s.root s.store p → ∀ m j, Below (m ++ [j]) p → Skipped s.store m j →
        ∀ y, Leads s.store y p → y.dropLast = p.dropLast) →
      (s.Scheduled ↔ ∀ p, IsColumn s.root s.store p → ¬ ReadAhead s.store p)) := by
  have hif : (∀ p, IsColumn s.root s.store p → ¬ ReadAhead s.store p) → s.Scheduled :=
    fun hno p hp hne => (scheduledOnce_iff h hp hne
      fun m j hj hskip => hno p hp (readAhead_of_skipped hj hskip)).mpr (hno p hp)
  refine ⟨hif, fun hout => ⟨fun hsched p hp => ?_, hif⟩⟩
  by_cases hne : p = [0]
  · -- `time` is not inside a module
    rintro ⟨m, j, x, ⟨i, rest, heq⟩, -⟩
    have hlen := congrArg List.length (hne.symm.trans heq)
    simp only [List.length_append, List.length_cons, List.length_nil] at hlen
    omega
  · have honce := hsched p hp hne
    have hkept : ∀ m j, Below (m ++ [j]) p → ¬ Skipped s.store m j := by
      intro m j hj hskip
      obtain ⟨v, n, hv, -⟩ := id hp
      have hzero := List.count_eq_zero.mpr
        (not_reached h hv hj hskip (hout p hp m j hj hskip) .initials)
      rw [honce.1] at hzero
      cases hzero
    exact (scheduledOnce_iff h hp hne hkept).mp honce

theorem scheduled_moduleFirst : ∃ s,
    sdSimNew (.plain true) (moduleFirst ⟨0, 3, 1, 1⟩) none = .ok s ∧
    ((∀ p, IsColumn s.root s.store p → ¬ ReadAhead s.store p) → s.Scheduled) ∧
    ((∀ p, IsColumn s.root s.store p → ∀ m j, Below (m ++ [j]) p → Skipped s.store m j →
        ∀ y, Leads s.store y p → y.dropLast = p.dropLast) →
      (s.Scheduled ↔ ∀ p, IsColumn s.root s.store p → ¬ ReadAhead s.store p)) := by
  obtain ⟨s, h, -⟩ := exists_ok (P := fun _ => true)
    (x := sdSimNew (.plain true) (moduleFirst ⟨0, 3, 1, 1⟩) none) (by decide +kernel)
  exact ⟨s, h, scheduled_iff h⟩

/-- A variable that names one of a module, declared before the module; the equation is read
    as far as `m`. -/
def namesAhead (simSpecs : SimSpec) : SDProject :=
  .ofModels simSpecs [
    { name := none, vars := [
      Var.ofEquation .aux "a" "m.x",
      { Var.ofEquation .module "m" "" with eqn := none }] },
    { name := some (cstr "m"), vars := [Var.ofEquation .aux "x" "time * 2"] }]

/-- The module is marked when the loop comes to it, and its `x` is on no list. -/
theorem namesAhead_lost : ∃ s, sdSimNew (.plain true) (namesAhead ⟨0, 3, 1, 1⟩) none = .ok s ∧
    s.reached .initials = [[1]] ∧ s.reached .flows = [[1]] ∧ s.reached .stocks = [] ∧
    ¬ s.Scheduled := by
  obtain ⟨s, h, hs⟩ := exists_ok (x := sdSimNew (.plain true) (namesAhead ⟨0, 3, 1, 1⟩) none)
    (P := fun s => decide (s.reached .initials = [[1]]) && decide (s.reached .flows = [[1]]) &&
      decide (s.reached .stocks = []) &&
      (((avarAt s.root [2, 0]).any fun av => !av.isModule) && (s.store [2, 0]).src.isNone))
    (by decide +kernel)
  simp only [Bool.and_eq_true, decide_eq_true_eq, Option.any_eq_true,
    Option.isNone_iff_eq_none] at hs
  obtain ⟨⟨⟨hinitial, hflow⟩, hstock⟩, ⟨av, hav, hm⟩, hsrc⟩ := hs
  refine ⟨s, h, hinitial, hflow, hstock, fun hsched => ?_⟩
  cases av with
  | module v avars => simp [AVar.isModule] at hm
  | var v n =>
    have hone := (hsched [2, 0] ⟨v, n, hav, hsrc⟩ (by simp)).1
    rw [hinitial] at hone
    cases hone

end Libsd

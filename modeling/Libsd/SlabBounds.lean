/-
  Libsd/SlabBounds.lean
  =====================
  **Which rows of the slab a run accesses.**

  `sd_sim_reset` allocates one row more than it saves.  The row after the current
  one is inside the slab as long as `save_step` is below `nsaves`, which it reaches
  before the last step unless `save_every` divides `nsteps - 1`
  (`slabFits_row`).  So a simulation for which it does never accesses a row that
  was not allocated, whatever is called on it (`calls_slab_safe`).
-/
import Libsd.RunLoop

namespace Libsd

/-- The call does not end in an access to a row that was not allocated. -/
def SlabSafe {α : Type} (x : Except Stop α) : Prop := x ≠ .error (.undefined .slabRow)

theorem slabSafe_ok {α : Type} (a : α) : SlabSafe (.ok a : Except Stop α) := by
  simp [SlabSafe]

theorem SlabSafe.bind {α β : Type} {x : Except Stop α} {f : α → Except Stop β} (hx : SlabSafe x)
    (hf : ∀ a, x = .ok a → SlabSafe (f a)) : SlabSafe (x >>= f) :=
  Outcome.bind_ne_error hx hf

/-! ### Evaluation accesses no rows -/

theorem slabSafe_pulseLoop (magnitude interval dt time : ℚ) (fuel : Nat) (next : ℚ) :
    SlabSafe (pulseLoop magnitude interval dt time fuel next) := by
  induction fuel generalizing next with
  | zero => simp [SlabSafe, pulseLoop]
  | succ fuel ih =>
    unfold pulseLoop
    split_ifs
    · exact slabSafe_ok _
    · exact slabSafe_ok _
    · exact ih _
    · exact slabSafe_ok _

theorem slabSafe_callFn (env : Env) (fn : Fn) (dt time : ℚ) (args : List ℚ) :
    SlabSafe (callFn env fn dt time args) := by
  cases fn with
  | pulse =>
    simp only [callFn, rtPulse]
    generalize (if args.length > 2 then args.getD 2 0 else 0) = interval
    split
    · exact slabSafe_ok _
    · exact slabSafe_pulseLoop _ _ _ _ _ _
  | min => exact slabSafe_ok _
  | max => exact slabSafe_ok _

section
variable (env : Env) (read : Path → ℚ) (dt time : ℚ)

mutual
theorem slabSafe_svisit : ∀ n : Node, SlabSafe (svisit env read dt time n)
  | .null => by simp [SlabSafe, svisit]
  | .paren l => slabSafe_svisit l
  | .floatlit _ _ => slabSafe_ok _
  | .ident _ none => by simp [SlabSafe, svisit]
  | .ident _ (some _) => slabSafe_ok _
  | .call _ args fn => by
    refine (slabSafe_svisitArgs 0 args).bind fun vs _ => ?_
    cases fn with
    | none => simp [SlabSafe]
    | some fn => exact slabSafe_callFn env fn dt time vs
  | .ifElse c l r => by
    refine (slabSafe_svisit c).bind fun cond _ => ?_
    split_ifs
    · exact slabSafe_svisit l
    · exact slabSafe_svisit r
  | .unary _ l => (slabSafe_svisit l).bind fun _ _ => slabSafe_ok _
  | .binary _ l r =>
    (slabSafe_svisit l).bind fun _ _ => (slabSafe_svisit r).bind fun _ _ => slabSafe_ok _

theorem slabSafe_svisitArgs : ∀ (i : Nat) (args : List Node),
    SlabSafe (svisitArgs env read dt time i args)
  | _, [] => slabSafe_ok _
  | i, a :: args => by
    refine (slabSafe_svisit a).bind fun v _ => ?_
    split_ifs
    · simp [SlabSafe, bind, Except.bind]
    · exact (slabSafe_svisitArgs (i + 1) args).bind fun _ _ => slabSafe_ok _
end

end

theorem slabSafe_elemAt (a : List ℚ) (i : Nat) : SlabSafe (elemAt a i) := by
  unfold elemAt
  split
  · exact slabSafe_ok _
  · simp [SlabSafe]

theorem slabSafe_lookupSearch (x : List ℚ) (index : ℚ) (fuel low high : Nat) :
    SlabSafe (lookupSearch x index fuel low high) := by
  induction fuel generalizing low high with
  | zero =>
    unfold lookupSearch
    split_ifs
    · simp [SlabSafe]
    · exact slabSafe_ok _
  | succ fuel ih =>
    unfold lookupSearch
    split_ifs
    · refine (slabSafe_elemAt _ _).bind fun xm _ => ?_
      split_ifs
      · exact ih _ _
      · exact ih _ _
    · exact slabSafe_ok _

theorem slabSafe_lookup (t : Table) (index : ℚ) : SlabSafe (lookup t index) := by
  unfold lookup
  split_ifs
  · exact slabSafe_ok _
  · refine (slabSafe_elemAt _ _).bind fun x0 _ => (slabSafe_elemAt _ _).bind fun xl _ => ?_
    split_ifs
    · exact slabSafe_elemAt _ _
    · exact slabSafe_elemAt _ _
    · refine (slabSafe_lookupSearch _ _ _ _ _).bind fun i _ =>
        (slabSafe_elemAt _ _).bind fun xi _ => ?_
      split_ifs
      · exact slabSafe_elemAt _ _
      · simp [SlabSafe]
      · refine (slabSafe_elemAt _ _).bind fun yi _ => (slabSafe_elemAt _ _).bind fun xp _ => ?_
        exact (slabSafe_elemAt _ _).bind fun yp _ => slabSafe_ok _

section
variable {s : SDSim}

theorem slabSafe_calcValue (row : Row) (p : Path) : SlabSafe (s.calcValue row p) := by
  refine (slabSafe_svisit _ _ _ _ _).bind fun v _ => ?_
  cases s.gfAt p with
  | none => exact slabSafe_ok _
  | some t => exact slabSafe_lookup t v

theorem slabSafe_stockValue (row : Row) (p : Path) : SlabSafe (s.stockValue row p) := by
  unfold SDSim.stockValue
  split
  · simp [SlabSafe]
  · exact slabSafe_ok _
  · exact slabSafe_svisit _ _ _ _ _

theorem slabSafe_flowsOf (row : Row) : SlabSafe (s.flowsOf row) := by
  intro he
  obtain ⟨p, -, d, hd⟩ := Assign.run_error he
  exact slabSafe_calcValue d p hd

theorem slabSafe_stocksOf (row next : Row) : SlabSafe (s.stocksOf row next) := by
  intro he
  obtain ⟨p, -, d, hd⟩ := Assign.run_error he
  exact slabSafe_stockValue row p hd

/-! ### The rows that are accessed -/

/-- `save_every` divides the number of the last step, or that step is the only one
    behind the last saved row and it writes nothing into the row after its own. -/
def SlabFits (s : SDSim) : Prop :=
  s.saveEvery ∣ s.nsteps - 1 ∨ ((s.nsteps - 1) % s.saveEvery = 1 ∧ s.stockLeaves = [])

theorem savesOf_le_of_le {i j k : Nat} (hk : 0 < k) (h : i ≤ j) : savesOf i k ≤ savesOf j k := by
  by_contra hlt
  have h1 := (lt_savesOf_iff hk).mp (not_le.mp hlt)
  exact (lt_irrefl _) ((lt_savesOf_iff hk).mpr (h1.trans_le h))

/-- At a step of the loop the row after the current one is inside the slab, except
    perhaps at the last step, when nothing is written into it. -/
theorem slabFits_row (h : IsReset s) (hfit : SlabFits s) {j : Nat} (hj : j < s.nsteps) :
    savesOf j s.saveEvery + 1 ≤ s.nsaves ∨ (j + 1 = s.nsteps ∧ s.stockLeaves = []) := by
  have hk := h.saveEvery_pos
  -- a step that `save_every` divides has its own row, which is saved
  have hdiv : ∀ i, i < s.nsteps → s.saveEvery ∣ i → j ≤ i →
      savesOf j s.saveEvery + 1 ≤ s.nsaves := by
    rintro i hi ⟨q, rfl⟩ hji
    have hle := savesOf_le_of_le hk hji
    rw [Nat.mul_comm, savesOf_mul hk] at hle
    have hlt : q < s.nsaves := by
      rw [h.nsaves, lt_savesOf_iff hk, Nat.mul_comm]
      exact hi
    omega
  rcases hfit with hd | ⟨hmod, hnil⟩
  · exact .inl (hdiv (s.nsteps - 1) (by omega) hd (by omega))
  · by_cases hlast : j + 1 = s.nsteps
    · exact .inr ⟨hlast, hnil⟩
    · refine .inl (hdiv (s.nsteps - 2) (by omega) ?_ (by omega))
      have hmod' := Nat.div_add_mod (s.nsteps - 1) s.saveEvery
      exact ⟨(s.nsteps - 1) / s.saveEvery, by omega⟩

theorem savesOf_le_nsaves (h : IsReset s) {j : Nat} (hj : j ≤ s.nsteps) :
    savesOf j s.saveEvery ≤ s.nsaves := by
  rw [h.nsaves]
  exact savesOf_le_of_le h.saveEvery_pos hj

theorem checkRow_of_le {row : Nat} (h : row ≤ s.nsaves) : s.checkRow row = .ok () :=
  if_neg fun hc => absurd hc.2 (not_lt.mpr h)

/-! ### Runs -/

/-- A state between two calls: `save_step` counts the saved rows of the steps taken. -/
def Counted (s t : SDSim) : Prop :=
  ∃ slab j, t = s.moved slab j (savesOf j s.saveEvery) ∧ (j < s.nsteps ∨ j = 0)

theorem counted_self (h : IsReset s) : Counted s s :=
  ⟨s.slab, 0, by rw [savesOf_zero]; exact h.eq_moved, .inr rfl⟩

/-- The call keeps to the slab, and a result it returns has the property. -/
def Safely {α : Type} (P : α → Prop) (x : Except Stop α) : Prop :=
  SlabSafe x ∧ ∀ a, x = .ok a → P a

theorem Safely.bind {α β : Type} {P : α → Prop} {Q : β → Prop} {x : Except Stop α}
    {f : α → Except Stop β} (hx : Safely P x) (hf : ∀ a, P a → Safely Q (f a)) :
    Safely Q (x >>= f) := by
  refine ⟨hx.1.bind fun a ha => (hf a (hx.2 a ha)).1, fun b hb => ?_⟩
  cases x with
  | error e => cases hb
  | ok a => exact (hf a (hx.2 a rfl)).2 b hb

theorem safely_ok {α : Type} {P : α → Prop} {a : α} (h : P a) : Safely P (.ok a : Except Stop α) :=
  ⟨slabSafe_ok a, fun _ ha => Except.ok.inj ha ▸ h⟩

theorem safely_flowsPass (h : IsReset s) (slab : Nat → Row) (j m : Nat) :
    Safely (fun t => ∃ slab', t = s.moved slab' j m) (s.moved slab j m).flowsPass := by
  rw [moved_flowsPass h.built]
  exact Safely.bind (P := fun _ => True) ⟨slabSafe_flowsOf _, fun _ _ => trivial⟩
    fun row _ => safely_ok ⟨Function.update slab m row, rfl⟩

theorem safely_stocksPass (h : IsReset s) (slab : Nat → Row) (j m : Nat)
    (hrow : s.stockLeaves ≠ [] → s.checkRow (m + 1) = .ok ()) :
    Safely (fun t => ∃ slab', t = s.moved slab' j m) (s.moved slab j m).stocksPass := by
  rw [moved_stocksPass h.built slab j m hrow]
  exact Safely.bind (P := fun _ => True) ⟨slabSafe_stocksOf _ _, fun _ _ => trivial⟩
    fun row _ => safely_ok ⟨Function.update slab (m + 1) row, rfl⟩

theorem counted_advanced (h : IsReset s) (slab : Nat → Row) {j : Nat} (hj : j + 1 < s.nsteps) :
    Counted s (s.advanced slab j (savesOf j s.saveEvery)) := by
  have hsucc := savesOf_succ (j := j) h.saveEvery_pos
  unfold SDSim.advanced
  split
  · next hkeep =>
    rw [if_pos hkeep] at hsucc
    exact ⟨_, j + 1, by rw [hsucc], .inl hj⟩
  · next hkeep =>
    rw [if_neg hkeep] at hsucc
    exact ⟨_, j + 1, by rw [hsucc], .inl hj⟩

theorem safely_runLoop (h : IsReset s) (hfit : SlabFits s) (stop : ℚ) (fuel : Nat) :
    ∀ {t : SDSim}, Counted s t → Safely (Counted s) (SDSim.runLoop stop fuel t) := by
  induction fuel with
  | zero => exact fun ht => safely_ok ht
  | succ fuel ih =>
    rintro t ⟨slab, j, rfl, hj⟩
    generalize hm : savesOf j s.saveEvery = m
    have hcounted : ∀ slab', Counted s (s.moved slab' j m) :=
      fun slab' => ⟨slab', j, by rw [hm], hj⟩
    by_cases hlt : j < s.nsteps
    · have hcurr : (s.moved slab j m).checkRow m = .ok () :=
        checkRow_of_le (s := s.moved slab j m) (hm ▸ savesOf_le_nsaves h hlt.le)
      have hnext : ∀ slab', j + 1 < s.nsteps ∨ s.stockLeaves ≠ [] →
          (s.moved slab' j m).checkRow (m + 1) = .ok () := fun slab' hcase => by
        refine checkRow_of_le (s := s.moved slab' j m) (hm ▸ ?_)
        refine (slabFits_row h hfit hlt).resolve_right fun ⟨hlast, hnil⟩ => ?_
        rcases hcase with hc | hc
        · omega
        · exact hc hnil
      rw [SDSim.runLoop, if_pos (show (s.moved slab j m).step < (s.moved slab j m).nsteps from hlt)]
      rw [show (s.moved slab j m).saveStep = m from rfl, hcurr]
      refine Safely.bind (P := fun _ => True) (safely_ok trivial) fun _ _ => ?_
      split
      · refine (safely_flowsPass h slab j m).bind ?_
        rintro _ ⟨slab1, rfl⟩
        refine (safely_stocksPass h slab1 j m fun hne => hnext slab1 (.inr hne)).bind ?_
        rintro _ ⟨slab2, rfl⟩
        split
        · exact safely_ok (hcounted slab2)
        · next hlast =>
          have hlast : ¬ j + 1 = s.nsteps := hlast
          rw [advance_eq (s := s) (hnext slab2 (.inl (by omega)))]
          exact ih (hm ▸ counted_advanced h slab2 (by omega))
      · exact safely_ok (hcounted slab)
    · rw [SDSim.runLoop,
        if_neg (show ¬ (s.moved slab j m).step < (s.moved slab j m).nsteps from hlt)]
      exact safely_ok (hcounted slab)

theorem safely_call (h : IsReset s) (hfit : SlabFits s) (c : Call) {t : SDSim} (ht : Counted s t) :
    Safely (Counted s) (t.call c) := by
  cases c with
  | runTo stop => exact safely_runLoop h hfit stop _ ht
  | runToEnd => exact safely_runLoop h hfit _ _ ht
  | reset =>
    obtain ⟨slab, j, rfl, -⟩ := ht
    rw [SDSim.call, h.reset_of_same (moved_sameSetup slab j _)]
    exact safely_ok (counted_self h)

/-- Whatever is called on it, such a simulation accesses only rows that were allocated. -/
theorem calls_slab_safe {env : Env} {p : SDProject} {name : Option CStr}
    (h : sdSimNew env p name = .ok s) (hfit : SlabFits s) (cs : List Call) :
    s.calls cs ≠ .error (.undefined .slabRow) := by
  obtain ⟨hr, -⟩ := sdSimNew_isReset h
  suffices hall : ∀ t, Counted s t → SlabSafe (t.calls cs) from hall s (counted_self hr)
  induction cs with
  | nil => exact fun t _ => slabSafe_ok t
  | cons c cs ih =>
    intro t ht
    have hcall := safely_call hr hfit c ht
    exact hcall.1.bind fun t' ht' => ih t' (hcall.2 t' ht')

theorem calls_slab_safe_growth : ∃ s, sdSimNew (.plain true) (growth ⟨0, 4, 1, 2⟩) none = .ok s ∧
    ∀ cs, s.calls cs ≠ .error (.undefined .slabRow) := by
  obtain ⟨s, h, hd⟩ := exists_ok (x := sdSimNew (.plain true) (growth ⟨0, 4, 1, 2⟩) none)
    (P := fun s => decide (s.saveEvery ∣ s.nsteps - 1)) (by decide +kernel)
  exact ⟨s, h, calls_slab_safe h (.inl (of_decide_eq_true hd))⟩

/-- Two steps of which every second is saved: the stock is written behind the slab. -/
theorem calls_leave_slab : ∃ s, sdSimNew (.plain true) (growth ⟨0, 1, 1, 2⟩) none = .ok s ∧
    1 ≤ s.nsteps ∧ 1 ≤ s.saveEvery ∧ s.calls [.runToEnd] = .error (.undefined .slabRow) := by
  obtain ⟨s, h, hs⟩ := exists_ok (x := sdSimNew (.plain true) (growth ⟨0, 1, 1, 2⟩) none)
    (P := fun s => decide (1 ≤ s.nsteps) && decide (1 ≤ s.saveEvery) &&
      match s.calls [.runToEnd] with
      | .error e => e == .undefined .slabRow
      | .ok _ => false) (by decide +kernel)
  simp only [Bool.and_eq_true, decide_eq_true_eq] at hs
  obtain ⟨⟨hn, hk⟩, hcalls⟩ := hs
  refine ⟨s, h, hn, hk, ?_⟩
  cases hc : s.calls [.runToEnd] with
  | ok t => simp [hc] at hcalls
  | error e => simpa [hc] using hcalls

end

end Libsd

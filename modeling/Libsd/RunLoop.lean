/-
  Libsd/RunLoop.lean
  ==================
  **What the stepping loop keeps of the rows it goes through.**

  At the head of the loop with `step = j`, the rows of the steps before `j` that
  `save_every` divides are in the slab, in order, and the current row, behind them,
  is the one step `j` starts from (`Kept`).  One turn of the loop leads from one
  such state to the next (`kept_advance`), so `sd_sim_run_to` stops before a step
  whose time lies beyond its bound, or at the last step (`runLoop_cases`).
-/
import Libsd.Lib.Outcome
import Libsd.Trajectory

namespace Libsd

open Outcome Relation

/-! ### Counting the rows that are kept -/

theorem lt_savesOf_iff {i j k : Nat} (hk : 0 < k) : i < savesOf j k ↔ i * k < j := by
  have hdiv : k * (j / k) + j % k = j := Nat.div_add_mod j k
  have hmod : j % k < k := Nat.mod_lt j hk
  have hle : ∀ a b : Nat, a ≤ b → a * k ≤ k * b := fun a b h => by
    rw [Nat.mul_comm k b]
    exact Nat.mul_le_mul_right k h
  unfold savesOf
  constructor
  · intro h
    split at h
    · have := hle i (j / k) (by omega)
      omega
    · have := hle (i + 1) (j / k) (by omega)
      rw [Nat.succ_mul] at this
      omega
  · intro h
    by_contra hge
    split at hge
    · have : k * (j / k + 1) ≤ i * k := by
        rw [Nat.mul_comm k]
        exact Nat.mul_le_mul_right k (by omega)
      rw [Nat.mul_succ] at this
      omega
    · have : k * (j / k) ≤ i * k := by
        rw [Nat.mul_comm k]
        exact Nat.mul_le_mul_right k (by omega)
      omega

theorem savesOf_mul {i k : Nat} (hk : 0 < k) : savesOf (i * k) k = i :=
  eq_of_forall_lt_iff fun c => by rw [lt_savesOf_iff hk, Nat.mul_lt_mul_right hk]

theorem savesOf_succ {j k : Nat} (hk : 0 < k) :
    savesOf (j + 1) k = if j % k ≠ 0 then savesOf j k else savesOf j k + 1 := by
  split
  · next h =>
    refine eq_of_forall_lt_iff fun c => ?_
    rw [lt_savesOf_iff hk, lt_savesOf_iff hk]
    have hne : c * k ≠ j := fun he => h (by rw [← he, Nat.mul_mod_left])
    omega
  · next h =>
    obtain ⟨i, rfl⟩ : ∃ i, j = i * k :=
      ⟨j / k, (Nat.div_mul_cancel (Nat.dvd_of_mod_eq_zero (not_not.mp h))).symm⟩
    rw [savesOf_mul hk]
    refine eq_of_forall_lt_iff fun c => ?_
    rw [lt_savesOf_iff hk, Nat.lt_succ_iff, Nat.lt_succ_iff, Nat.mul_le_mul_right_iff hk]

/-- `savesOf` counts the steps that `save_every` divides. -/
theorem savesOf_eq_count {k : Nat} (hk : 0 < k) (j : Nat) :
    savesOf j k = ((List.range j).filter fun i => i % k = 0).length := by
  induction j with
  | zero => simp [savesOf]
  | succ j ih =>
    rw [savesOf_succ hk, List.range_succ, List.filter_append, List.length_append, ← ih]
    by_cases h : j % k = 0 <;> simp [h]

/-! ### The turns of a run -/

/-- A turn of the loop of `sd_sim_run_to` that another one can follow. -/
def SDSim.Turn (stop : ℚ) (u u' : SDSim) : Prop :=
  u.step < u.nsteps ∧ u.curr TIME ≤ stop ∧ ∃ u1 u2, u.flowsPass = .ok u1 ∧ u1.stocksPass = .ok u2 ∧
    u2.step + 1 ≠ u2.nsteps ∧ u2.advance = .ok u'

/-- A run makes turns, and perhaps a last one that is not followed by another. -/
theorem runLoop_turns {stop : ℚ} {fuel : Nat} : ∀ {t t' : SDSim},
    SDSim.runLoop stop fuel t = .ok t' → ∃ u, ReflTransGen (SDSim.Turn stop) t u ∧
      (t' = u ∨ ∃ u1, u.step < u.nsteps ∧ u.curr TIME ≤ stop ∧ u.flowsPass = .ok u1 ∧
        u1.stocksPass = .ok t' ∧ t'.step + 1 = t'.nsteps) := by
  induction fuel with
  | zero =>
    intro t t' h
    exact ⟨t, .refl, .inl (Except.ok.inj h).symm⟩
  | succ fuel ih =>
    intro t t' h
    rw [SDSim.runLoop] at h
    split_ifs at h with hstep hstop
    · obtain ⟨-, -, h⟩ := bind_eq_ok h
      obtain ⟨u1, h1, h⟩ := bind_eq_ok h
      obtain ⟨u2, h2, h⟩ := bind_eq_ok h
      split_ifs at h with hlast
      · obtain rfl := Except.ok.inj h
        exact ⟨t, .refl, .inr ⟨u1, hstep, hstop, h1, h2, hlast⟩⟩
      · obtain ⟨u3, h3, h⟩ := bind_eq_ok h
        obtain ⟨u, hu, hend⟩ := ih h
        exact ⟨u, hu.head ⟨hstep, hstop, u1, u2, h1, h2, hlast, h3⟩, hend⟩
    · obtain ⟨-, -, h⟩ := bind_eq_ok h
      exact ⟨t, .refl, .inl (Except.ok.inj h).symm⟩
    · exact ⟨t, .refl, .inl (Except.ok.inj h).symm⟩

/-! ### One turn of the loop -/

section
variable {s : SDSim} {init : Row}

theorem checkRow_of_unbounded (hb : s.env.bounded = false) (row : Nat) :
    s.checkRow row = .ok () := by
  simp [SDSim.checkRow, hb]

/-- What the loop does after the two passes, when it goes on. -/
def SDSim.advanced (s : SDSim) (slab : Nat → Row) (j m : Nat) : SDSim :=
  let next := Function.update (slab (m + 1)) TIME (s.timeAt (j + 1))
  let slab' := Function.update slab (m + 1) next
  if j % s.saveEvery ≠ 0 then
    s.moved (Function.update slab' m fun c => if c < s.nvars then next c else slab m c) (j + 1) m
  else s.moved slab' (j + 1) (m + 1)

theorem advance_eq {slab : Nat → Row} {j m : Nat} (hrow : s.checkRow (m + 1) = .ok ()) :
    (s.moved slab j m).advance = .ok (s.advanced slab j m) := by
  have hrow : (s.moved slab j m).checkRow (m + 1) = .ok () := hrow
  have htime : s.spec.start + ((j : ℚ) + 1) * s.spec.dt = s.timeAt (j + 1) := by
    simp [SDSim.timeAt]
  simp only [SDSim.advance, SDSim.advanced]
  rw [show (s.moved slab j m).saveStep = m from rfl, hrow]
  rw [show (s.moved slab j m).spec = s.spec from rfl,
    show (s.moved slab j m).step = j from rfl, htime]
  simp only [bind, Except.bind, SDSim.setRow, SDSim.moved, SDSim.curr]
  by_cases hkeep : j % s.saveEvery ≠ 0
  · rw [if_pos hkeep]
    exact if_pos hkeep
  · rw [if_neg hkeep]
    exact if_neg hkeep

theorem moved_wellBuilt (hw : WellBuilt s) (slab : Nat → Row) (j m : Nat) :
    WellBuilt (s.moved slab j m) :=
  (moved_sameSetup slab j m).wellBuilt hw

theorem moved_flowsPass (hw : WellBuilt s) (slab : Nat → Row) (j m : Nat) :
    (s.moved slab j m).flowsPass = (do
      let row ← s.flowsOf (slab m)
      return s.moved (Function.update slab m row) j m) :=
  flowsPass_eq (moved_wellBuilt hw slab j m)

theorem moved_stocksPass (hw : WellBuilt s) (slab : Nat → Row) (j m : Nat)
    (hrow : s.stockLeaves ≠ [] → s.checkRow (m + 1) = .ok ()) :
    (s.moved slab j m).stocksPass = (do
      let row ← s.stocksOf (slab m) (slab (m + 1))
      return s.moved (Function.update slab (m + 1) row) j m) :=
  stocksPass_eq (moved_wellBuilt hw slab j m) hrow

theorem runLoop_eq (hb : s.env.bounded = false) (hw : WellBuilt s) (stop : ℚ) (fuel : Nat)
    (slab : Nat → Row) (j m : Nat) :
    SDSim.runLoop stop (fuel + 1) (s.moved slab j m) =
      if j < s.nsteps ∧ slab m TIME ≤ stop then do
        let row ← s.flowsOf (slab m)
        let next ← s.stocksOf row (slab (m + 1))
        let slab' := Function.update (Function.update slab m row) (m + 1) next
        if j + 1 = s.nsteps then return s.moved slab' j m
        else SDSim.runLoop stop fuel (s.advanced slab' j m)
      else .ok (s.moved slab j m) := by
  have hrow : ∀ slab j m r, (s.moved slab j m).checkRow r = .ok () := fun _ _ _ r =>
    checkRow_of_unbounded (s := s.moved _ _ _) hb r
  rw [SDSim.runLoop]
  simp only [show (s.moved slab j m).step = j from rfl,
    show (s.moved slab j m).nsteps = s.nsteps from rfl,
    show (s.moved slab j m).saveStep = m from rfl, show (s.moved slab j m).curr = slab m from rfl,
    hrow, moved_flowsPass hw]
  by_cases hj : j < s.nsteps
  · by_cases ht : slab m TIME ≤ stop
    · have hgo : j < s.nsteps ∧ slab m TIME ≤ stop := ⟨hj, ht⟩
      rw [if_pos hj, if_pos hgo]
      simp only [bind, Except.bind, if_pos ht]
      cases s.flowsOf (slab m) with
      | error e => rfl
      | ok row =>
        have hstocks := fun slab => moved_stocksPass hw slab j m fun _ =>
          checkRow_of_unbounded hb (m + 1)
        simp only [pure, Except.pure, hstocks, bind, Except.bind, Function.update_self,
          Function.update_of_ne (Nat.succ_ne_self m)]
        cases s.stocksOf row (slab (m + 1)) with
        | error e => rfl
        | ok next =>
          simp only [show ∀ slab, (s.moved slab j m).step = j from fun _ => rfl,
            show ∀ slab, (s.moved slab j m).nsteps = s.nsteps from fun _ => rfl,
            advance_eq (checkRow_of_unbounded hb (m + 1))]
    · have hstay : ¬ (j < s.nsteps ∧ slab m TIME ≤ stop) := fun h => ht h.2
      rw [if_pos hj, if_neg hstay]
      simp only [bind, Except.bind, if_neg ht]
      rfl
  · have hstay : ¬ (j < s.nsteps ∧ slab m TIME ≤ stop) := fun h => hj h.1
    rw [if_neg hj, if_neg hstay]

/-! ### The rows kept so far -/

/-- Nothing but columns of stocks and constants, and the time, has been written. -/
def Clean (s : SDSim) (row : Row) : Prop :=
  ∀ c, c ≠ TIME → (∀ p ∈ s.stockLeaves, s.col p ≠ c) → row c = 0

/-- The slab when step `j` is next: the rows to be kept of the steps before it, and
    behind the current row nothing that a flow has written. -/
structure Kept (s : SDSim) (init : Row) (j : Nat) (slab : Nat → Row) : Prop where
  saved : ∀ i, i * s.saveEvery < j → s.fullRow init (i * s.saveEvery) = .ok (slab i)
  clean : ∀ i, savesOf j s.saveEvery < i → Clean s (slab i)

theorem kept_isReset (h : IsReset s) : Kept s (s.slab 0) 0 s.slab where
  saved i hi := absurd hi (Nat.not_lt_zero _)
  clean i hi c _ _ := by rw [h.rest i (Nat.zero_lt_of_lt hi)]

/-- The stocks of the next row do not depend on what is in a clean row before. -/
theorem stocksOf_clean {row next n : Row} (hclean : Clean s next)
    (h : s.stocksOf row (fun _ => 0) = .ok n) :
    ∃ n', s.stocksOf row next = .ok n' ∧ Clean s n' ∧ ∀ c, c ≠ TIME → n' c = n c := by
  obtain ⟨n', hn', hin, hout⟩ := Assign.run_const (fun _ _ _ => rfl) h next
  refine ⟨n', hn', fun c hc hno => by rw [hout c hno, hclean c hc hno], fun c hc => ?_⟩
  by_cases hw : ∃ p ∈ s.stockLeaves, s.col p = c
  · exact hin c hw
  · have hno : ∀ p ∈ s.stockLeaves, s.col p ≠ c := fun p hp hpc => hw ⟨p, hp, hpc⟩
    rw [hout c hno, hclean c hc hno, Assign.run_frame h hno]

theorem stocksOf_zero {row next n' : Row} (h : s.stocksOf row next = .ok n') :
    ∃ n, s.stocksOf row (fun _ => 0) = .ok n := by
  obtain ⟨n, hn, -⟩ := Assign.run_const (fun _ _ _ => rfl) h fun _ => 0
  exact ⟨n, hn⟩

/-- After the two passes the rows kept are the same, and the one behind is clean. -/
theorem Kept.passes {j : Nat} {slab : Nat → Row} (h : Kept s init j slab) (hk : 0 < s.saveEvery)
    (row : Row) {next : Row} (hnext : Clean s next) :
    Kept s init j (Function.update (Function.update slab (savesOf j s.saveEvery) row)
      (savesOf j s.saveEvery + 1) next) where
  saved i hi := by
    have hlt := (lt_savesOf_iff hk).mpr hi
    rw [Function.update_of_ne (by omega), Function.update_of_ne (by omega)]
    exact h.saved i hi
  clean i hi := by
    by_cases hi1 : i = savesOf j s.saveEvery + 1
    · rw [hi1, Function.update_self]
      exact hnext
    · rw [Function.update_of_ne hi1, Function.update_of_ne (by omega)]
      exact h.clean i hi

/-- One turn of the loop: the row of step `j` is kept when `save_every` divides `j`, and
    the current row is the one the next step starts from. -/
theorem kept_advance (hk : 0 < s.saveEvery) {j : Nat} {slab : Nat → Row} {row next n : Row}
    (h : Kept s init j slab) (hrow : s.fullRow init j = .ok row)
    (hhigh : ∀ c, s.nvars ≤ c → row c = 0 ∧ next c = 0 ∧ c ≠ TIME)
    (hn : s.stocksOf row (fun _ => 0) = .ok n) (hclean : Clean s next)
    (heq : ∀ c, c ≠ TIME → next c = n c) :
    ∃ slab', s.advanced (Function.update (Function.update slab (savesOf j s.saveEvery) row)
        (savesOf j s.saveEvery + 1) next) j (savesOf j s.saveEvery) =
        s.moved slab' (j + 1) (savesOf (j + 1) s.saveEvery) ∧
      Kept s init (j + 1) slab' ∧
      s.preRow init (j + 1) = .ok (slab' (savesOf (j + 1) s.saveEvery)) := by
  generalize hm : savesOf j s.saveEvery = m
  have hsucc := savesOf_succ (j := j) hk
  rw [hm] at hsucc
  -- the next row is the one the trajectory has for step `j + 1`
  have hpre : s.preRow init (j + 1) = .ok (Function.update next TIME (s.timeAt (j + 1))) := by
    rw [preRow_succ_of_fullRow hrow, SDSim.nextRow, hn]
    refine congrArg Except.ok (funext fun c => ?_)
    by_cases hc : c = TIME
    · rw [hc, Function.update_self, Function.update_self]
    · rw [Function.update_of_ne hc, Function.update_of_ne hc, heq c hc]
  have hnext : Clean s (Function.update next TIME (s.timeAt (j + 1))) := fun c hc hno => by
    rw [Function.update_of_ne hc]
    exact hclean c hc hno
  simp only [SDSim.advanced, Function.update_self, Function.update_idem]
  by_cases hkeep : j % s.saveEvery ≠ 0
  · -- the current row is overwritten
    rw [if_pos hkeep] at hsucc ⊢
    refine ⟨_, by rw [hsucc], ⟨fun i hi => ?_, fun i hi => ?_⟩, ?_⟩
    · have hne : i * s.saveEvery ≠ j := fun he => hkeep (by rw [← he, Nat.mul_mod_left])
      have hij : i * s.saveEvery < j := by omega
      have hlt : i < m := hm ▸ (lt_savesOf_iff hk).mpr hij
      rw [Function.update_of_ne (by omega), Function.update_of_ne (by omega),
        Function.update_of_ne (by omega)]
      exact h.saved i hij
    · rw [hsucc] at hi
      rw [Function.update_of_ne (by omega)]
      by_cases hi1 : i = m + 1
      · rw [hi1, Function.update_self]
        exact hnext
      · rw [Function.update_of_ne hi1, Function.update_of_ne (by omega)]
        exact h.clean i (by omega)
    · rw [hsucc, Function.update_self, hpre]
      refine congrArg Except.ok (funext fun c => ?_)
      by_cases hc : c < s.nvars
      · rw [if_pos hc]
      · obtain ⟨h1, h2, h3⟩ := hhigh c (by omega)
        rw [if_neg hc, Function.update_of_ne h3, h2, Function.update_of_ne (by omega),
          Function.update_self, h1]
  · -- the current row is kept
    rw [if_neg hkeep] at hsucc ⊢
    refine ⟨_, by rw [hsucc], ⟨fun i hi => ?_, fun i hi => ?_⟩, ?_⟩
    · by_cases hij : i * s.saveEvery < j
      · have hlt : i < m := hm ▸ (lt_savesOf_iff hk).mpr hij
        rw [Function.update_of_ne (by omega), Function.update_of_ne (by omega)]
        exact h.saved i hij
      · obtain rfl : i * s.saveEvery = j := by omega
        obtain rfl : i = m := by rw [← hm, savesOf_mul hk]
        rw [Function.update_of_ne (by omega), Function.update_self]
        exact hrow
    · rw [hsucc] at hi
      rw [Function.update_of_ne (by omega), Function.update_of_ne (by omega)]
      exact h.clean i (by omega)
    · rw [hsucc, Function.update_self]
      exact hpre

/-! ### Whole runs -/

/-- Step `j` is next, and its row has not been calculated. -/
def AtStep (s : SDSim) (j : Nat) (t : SDSim) : Prop :=
  ∃ slab, t = s.moved slab j (savesOf j s.saveEvery) ∧ Kept s (s.slab 0) j slab ∧
    s.preRow (s.slab 0) j = .ok (slab (savesOf j s.saveEvery))

/-- The last step has been calculated; `D` is what is known of its row. -/
def AtEnd (s : SDSim) (D : Row → Prop) (t : SDSim) : Prop :=
  ∃ slab, t = s.moved slab (s.nsteps - 1) (savesOf (s.nsteps - 1) s.saveEvery) ∧
    Kept s (s.slab 0) (s.nsteps - 1) slab ∧
    slab (savesOf (s.nsteps - 1) s.saveEvery) TIME = s.timeAt (s.nsteps - 1) ∧
    D (slab (savesOf (s.nsteps - 1) s.saveEvery))

/-- Step `j` can be calculated. -/
def Steps (s : SDSim) (j : Nat) : Prop :=
  ∃ row n, s.fullRow (s.slab 0) j = .ok row ∧ s.stocksOf row (fun _ => 0) = .ok n

theorem savesOf_zero (k : Nat) : savesOf 0 k = 0 := by
  simp [savesOf]

theorem atStep_isReset (h : IsReset s) : AtStep s 0 s := by
  refine ⟨s.slab, ?_, kept_isReset h, ?_⟩
  · rw [savesOf_zero]
    exact h.eq_moved
  · rw [savesOf_zero]
    rfl

theorem time_ne_of_high (h : IsReset s) {c : Nat} (hc : s.nvars ≤ c) : c ≠ TIME := by
  rintro rfl
  exact absurd (h.built.numbered.lt [0]) (by rw [h.built.numbered.time.2]; exact Nat.not_lt.mpr hc)

theorem AtStep.time (h : IsReset s) {j : Nat} {t : SDSim} (ht : AtStep s j t) :
    t.curr TIME = s.timeAt j := by
  obtain ⟨slab, rfl, -, hpre⟩ := ht
  exact (preRow_frame h.built h.time h.high hpre).1

theorem AtStep.step {j : Nat} {t : SDSim} (ht : AtStep s j t) : t.step = j := by
  obtain ⟨slab, rfl, -⟩ := ht
  rfl

/-- A turn of the loop that can be calculated. -/
theorem runLoop_turn (h : IsReset s) (hb : s.env.bounded = false) {j : Nat} {t : SDSim}
    (ht : AtStep s j t) (hj : j < s.nsteps) {stop : ℚ} (hstop : s.timeAt j ≤ stop) {row n : Row}
    (hrow : s.fullRow (s.slab 0) j = .ok row) (hn : s.stocksOf row (fun _ => 0) = .ok n)
    (fuel : Nat) :
    (j + 1 = s.nsteps ∧ ∃ t', SDSim.runLoop stop (fuel + 1) t = .ok t' ∧ AtEnd s (· = row) t') ∨
    (j + 1 < s.nsteps ∧ ∃ t', AtStep s (j + 1) t' ∧
      SDSim.runLoop stop (fuel + 1) t = SDSim.runLoop stop fuel t') := by
  have hk := h.saveEvery_pos
  have htime := (ht.time h).le.trans hstop
  obtain ⟨slab, rfl, hkept, hpre⟩ := ht
  have hgo : j < s.nsteps ∧ slab (savesOf j s.saveEvery) TIME ≤ stop := ⟨hj, htime⟩
  have hflows : s.flowsOf (slab (savesOf j s.saveEvery)) = .ok row :=
    (fullRow_of_preRow hpre).symm.trans hrow
  obtain ⟨next, hnext, hclean, heq⟩ :=
    stocksOf_clean (hkept.clean (savesOf j s.saveEvery + 1) (Nat.lt_succ_self _)) hn
  obtain ⟨hrowtime, hrowhigh⟩ := fullRow_frame h.built h.time h.high hrow
  rw [runLoop_eq hb h.built, if_pos hgo, hflows]
  simp only [bind, Except.bind, hnext]
  by_cases hlast : j + 1 = s.nsteps
  · left
    have hj' : s.nsteps - 1 = j := by omega
    refine ⟨hlast, _, if_pos hlast, _, by rw [hj'], ?_, ?_, ?_⟩
    · rw [hj']
      exact hkept.passes hk row hclean
    · rw [hj', Function.update_of_ne (by omega), Function.update_self]
      exact hrowtime
    · rw [hj', Function.update_of_ne (by omega), Function.update_self]
  · right
    have hhigh : ∀ c, s.nvars ≤ c → row c = 0 ∧ next c = 0 ∧ c ≠ TIME := fun c hc => by
      refine ⟨hrowhigh c hc, ?_, time_ne_of_high h hc⟩
      rw [heq c (time_ne_of_high h hc), stocksOf_frame h.built hn (.inr hc)]
    obtain ⟨slab', hadv, hkept', hpre'⟩ := kept_advance hk hkept hrow hhigh hn hclean heq
    refine ⟨by omega, _, ⟨slab', hadv, hkept', hpre'⟩, ?_⟩
    rw [if_neg hlast]

/-- A turn that is taken has been calculated. -/
theorem steps_of_runLoop (h : IsReset s) (hb : s.env.bounded = false) {j : Nat} {t t' : SDSim}
    (ht : AtStep s j t) (hj : j < s.nsteps) {stop : ℚ} (hstop : s.timeAt j ≤ stop) {fuel : Nat}
    (hrun : SDSim.runLoop stop (fuel + 1) t = .ok t') : Steps s j := by
  have htime := (ht.time h).le.trans hstop
  obtain ⟨slab, rfl, hkept, hpre⟩ := ht
  have hgo : j < s.nsteps ∧ slab (savesOf j s.saveEvery) TIME ≤ stop := ⟨hj, htime⟩
  rw [runLoop_eq hb h.built, if_pos hgo] at hrun
  obtain ⟨row, hrow, hrun⟩ := bind_eq_ok hrun
  obtain ⟨next, hnext, hrun⟩ := bind_eq_ok hrun
  obtain ⟨n, hn⟩ := stocksOf_zero hnext
  exact ⟨row, n, (fullRow_of_preRow hpre).trans hrow, hn⟩

theorem runLoop_stay (h : IsReset s) (hb : s.env.bounded = false) {j : Nat} {t : SDSim}
    (ht : AtStep s j t) {stop : ℚ} (hstop : ¬ (j < s.nsteps ∧ s.timeAt j ≤ stop)) (fuel : Nat) :
    SDSim.runLoop stop fuel t = .ok t := by
  cases fuel with
  | zero => rfl
  | succ fuel =>
    have htime := ht.time h
    obtain ⟨slab, rfl, -, -⟩ := ht
    rw [runLoop_eq hb h.built, if_neg]
    exact fun hgo => hstop ⟨hgo.1, htime ▸ hgo.2⟩

/-- Where a run that returns has come to: before a step whose time is beyond the
    bound, or to the last step. -/
theorem runLoop_cases (h : IsReset s) (hb : s.env.bounded = false) {stop : ℚ} {fuel : Nat} :
    ∀ {j : Nat} {t t' : SDSim}, AtStep s j t → j < s.nsteps → s.nsteps - j ≤ fuel →
      SDSim.runLoop stop fuel t = .ok t' →
      ∃ j', j ≤ j' ∧ j' ≤ s.nsteps ∧ (∀ i, j ≤ i → i < j' → s.timeAt i ≤ stop ∧ Steps s i) ∧
        ((j' < s.nsteps ∧ stop < s.timeAt j' ∧ AtStep s j' t') ∨
          (j' = s.nsteps ∧
            AtEnd s (fun row => s.fullRow (s.slab 0) (s.nsteps - 1) = .ok row) t')) := by
  induction fuel with
  | zero =>
    intro j t t' _ hj hfuel
    omega
  | succ fuel ih =>
    intro j t t' ht hj hfuel hrun
    by_cases hstop : s.timeAt j ≤ stop
    · have hstep := steps_of_runLoop h hb ht hj hstop hrun
      have hhere : ∀ i, j ≤ i → i < j + 1 → s.timeAt i ≤ stop ∧ Steps s i := by
        intro i hi hi'
        obtain rfl : i = j := by omega
        exact ⟨hstop, hstep⟩
      obtain ⟨row, n, hrow, hn⟩ := hstep
      rcases runLoop_turn h hb ht hj hstop hrow hn fuel
        with ⟨hlast, t1, ht1, hend⟩ | ⟨hj1, t1, ht1, heq⟩
      · obtain rfl := Except.ok.inj (ht1.symm.trans hrun)
        refine ⟨j + 1, by omega, by omega, hhere, .inr ⟨hlast, ?_⟩⟩
        obtain ⟨slab, hs, hkept, htime, hD⟩ := hend
        refine ⟨slab, hs, hkept, htime, ?_⟩
        rw [show s.nsteps - 1 = j by omega] at hD ⊢
        rw [hD, hrow]
      · obtain ⟨j', hjj', hj'n, hall, hcase⟩ := ih ht1 hj1 (by omega) (heq ▸ hrun)
        refine ⟨j', by omega, hj'n, fun i hi hi' => ?_, hcase⟩
        by_cases hij : i < j + 1
        · exact hhere i hi hij
        · exact hall i (by omega) hi'
    · have hstay := runLoop_stay h hb ht (fun hgo => hstop hgo.2) (fuel + 1)
      obtain rfl := Except.ok.inj (hstay.symm.trans hrun)
      exact ⟨j, Nat.le_refl j, by omega, fun i hi hi' => by omega,
        .inl ⟨hj, not_le.mp hstop, ht⟩⟩

/-- A run whose steps can be calculated returns. -/
theorem runLoop_ok (h : IsReset s) (hb : s.env.bounded = false) {stop : ℚ} {fuel : Nat} :
    ∀ {j : Nat} {t : SDSim}, AtStep s j t →
      (∀ i, j ≤ i → i < s.nsteps → s.timeAt i ≤ stop → Steps s i) →
      ∃ t', SDSim.runLoop stop fuel t = .ok t' := by
  induction fuel with
  | zero => exact fun {j t} _ _ => ⟨t, rfl⟩
  | succ fuel ih =>
    intro j t ht hsteps
    by_cases hgo : j < s.nsteps ∧ s.timeAt j ≤ stop
    · obtain ⟨row, n, hrow, hn⟩ := hsteps j (Nat.le_refl j) hgo.1 hgo.2
      rcases runLoop_turn h hb ht hgo.1 hgo.2 hrow hn fuel with ⟨_, t1, ht1, _⟩ | ⟨_, t1, ht1, heq⟩
      · exact ⟨t1, ht1⟩
      · rw [heq]
        exact ih ht1 fun i hi => hsteps i (by omega)
    · exact ⟨t, runLoop_stay h hb ht hgo _⟩

/-- Another turn at the last step calculates its row once more. -/
theorem runLoop_end (h : IsReset s) (hb : s.env.bounded = false) (hn : 0 < s.nsteps)
    {D : Row → Prop} (hD : ∀ row row', D row → s.flowsOf row = .ok row' → D row') {t t' : SDSim}
    (ht : AtEnd s D t) {stop : ℚ} {fuel : Nat} (hrun : SDSim.runLoop stop fuel t = .ok t') :
    AtEnd s D t' := by
  have hk := h.saveEvery_pos
  cases fuel with
  | zero =>
    obtain rfl := Except.ok.inj hrun
    exact ht
  | succ fuel =>
    obtain ⟨slab, rfl, hkept, htime, hDrow⟩ := ht
    rw [runLoop_eq hb h.built] at hrun
    split at hrun
    · obtain ⟨row, hrow, hrun⟩ := bind_eq_ok hrun
      obtain ⟨next, hnext, hrun⟩ := bind_eq_ok hrun
      rw [if_pos (by omega)] at hrun
      obtain rfl := Except.ok.inj hrun
      obtain ⟨n, hn0⟩ := stocksOf_zero hnext
      obtain ⟨next', hnext', hclean, -⟩ :=
        stocksOf_clean (hkept.clean _ (Nat.lt_succ_self _)) hn0
      obtain rfl := Except.ok.inj (hnext.symm.trans hnext')
      refine ⟨_, rfl, hkept.passes hk row hclean, ?_, ?_⟩
      · rw [Function.update_of_ne (by omega), Function.update_self,
          flowsOf_frame h.built hrow (.inl rfl), htime]
      · rw [Function.update_of_ne (by omega), Function.update_self]
        exact hD _ _ hDrow hrow
    · obtain rfl := Except.ok.inj hrun
      exact ⟨slab, rfl, hkept, htime, hDrow⟩

/-- The rows a run to the last step leaves. -/
theorem AtEnd.rows (h : IsReset s) (hn : 0 < s.nsteps) {D : Row → Prop} {t : SDSim}
    (ht : AtEnd s D t) {i : Nat} (hi : i < s.nsaves) :
    (i * s.saveEvery < s.nsteps - 1 ∧ s.fullRow (s.slab 0) (i * s.saveEvery) = .ok (t.slab i)) ∨
      (i * s.saveEvery = s.nsteps - 1 ∧ D (t.slab i)) := by
  have hk := h.saveEvery_pos
  obtain ⟨slab, rfl, hkept, -, hD⟩ := ht
  rw [h.nsaves, lt_savesOf_iff hk] at hi
  by_cases hlt : i * s.saveEvery < s.nsteps - 1
  · exact .inl ⟨hlt, hkept.saved i hlt⟩
  · have he : i * s.saveEvery = s.nsteps - 1 := by omega
    rw [← he, savesOf_mul hk] at hD
    exact .inr ⟨he, hD⟩

end

end Libsd

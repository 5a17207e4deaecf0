/-
  Libsd/Trajectory.lean
  =====================
  **The rows a simulation goes through, whatever it keeps of them.**

  `fullRow init j` is the row of step `j` when the initial row is `init`: the
  stocks and constants of the step before, its time, and then the flows.  It does
  not depend on how many rows are kept, or on how the run is cut into calls.
-/
import Libsd.Passes

namespace Libsd

open Outcome

namespace SDSim

variable (s : SDSim)

/-- The same simulation at another point of its run. -/
def moved (slab : Nat → Row) (step saveStep : Nat) : SDSim :=
  { s with slab := slab, step := step, saveStep := saveStep }

/-- The time of a step. -/
def timeAt (j : Nat) : ℚ := s.spec.start + j * s.spec.dt

/-- The row step `j + 1` starts from, after the row of step `j`. -/
def nextRow (j : Nat) (row : Row) : Except Stop Row := do
  let next ← s.stocksOf row fun _ => 0
  return Function.update next TIME (s.timeAt (j + 1))

/-- The row of step `j`, with everything calculated. -/
def fullRow (init : Row) : Nat → Except Stop Row
  | 0 => s.flowsOf init
  | j + 1 => do
    let row ← fullRow init j
    let next ← s.nextRow j row
    s.flowsOf next

/-- The row step `j` starts from. -/
def preRow (init : Row) : Nat → Except Stop Row
  | 0 => .ok init
  | j + 1 => do
    let row ← s.fullRow init j
    s.nextRow j row

/-- A row as `sd_sim_reset` has it before the initial values. -/
def startRow : Row := fun c => if c = TIME then s.simSpecs.start else 0

end SDSim

variable {s : SDSim} {init : Row}

theorem nextRow_ok {j : Nat} {row next : Row} (h : s.nextRow j row = .ok next) :
    ∃ n, s.stocksOf row (fun _ => 0) = .ok n ∧
      next = Function.update n TIME (s.timeAt (j + 1)) := by
  simp only [SDSim.nextRow] at h
  obtain ⟨n, hn, h⟩ := bind_eq_ok h
  exact ⟨n, hn, (Except.ok.inj h).symm⟩

theorem fullRow_eq (j : Nat) : s.fullRow init j = (s.preRow init j).bind s.flowsOf := by
  cases j with
  | zero => rfl
  | succ j =>
    simp only [SDSim.fullRow, SDSim.preRow, bind, Except.bind]
    cases s.fullRow init j with
    | error e => rfl
    | ok row => rfl

theorem fullRow_of_preRow {j : Nat} {row : Row} (h : s.preRow init j = .ok row) :
    s.fullRow init j = s.flowsOf row := by
  rw [fullRow_eq, h]
  rfl

theorem preRow_succ_of_fullRow {j : Nat} {row : Row} (h : s.fullRow init j = .ok row) :
    s.preRow init (j + 1) = s.nextRow j row := by
  simp only [SDSim.preRow, h]
  rfl

theorem fullRow_ok {j : Nat} {row : Row} (h : s.fullRow init j = .ok row) :
    ∃ pre, s.preRow init j = .ok pre ∧ s.flowsOf pre = .ok row := by
  rw [fullRow_eq] at h
  cases hp : s.preRow init j with
  | error e => simp [hp, Except.bind] at h
  | ok pre => exact ⟨pre, rfl, by simpa [hp, Except.bind] using h⟩

theorem preRow_succ_ok {j : Nat} {pre : Row} (h : s.preRow init (j + 1) = .ok pre) :
    ∃ row n, s.fullRow init j = .ok row ∧ s.stocksOf row (fun _ => 0) = .ok n ∧
      pre = Function.update n TIME (s.timeAt (j + 1)) := by
  simp only [SDSim.preRow] at h
  obtain ⟨row, hrow, h⟩ := bind_eq_ok h
  obtain ⟨n, hn, rfl⟩ := nextRow_ok h
  exact ⟨row, n, hrow, hn, rfl⟩

/-- The time of a row is that of its step, and it is 0 above the last column. -/
theorem preRow_frame (hw : WellBuilt s) (htime : init TIME = s.spec.start)
    (hhigh : ∀ c, s.nvars ≤ c → init c = 0) {j : Nat} {row : Row} (h : s.preRow init j = .ok row) :
    row TIME = s.timeAt j ∧ ∀ c, s.nvars ≤ c → row c = 0 := by
  cases j with
  | zero =>
    obtain rfl := Except.ok.inj h
    exact ⟨by simp [htime, SDSim.timeAt], hhigh⟩
  | succ j =>
    obtain ⟨full, n, -, hn, rfl⟩ := preRow_succ_ok h
    refine ⟨Function.update_self _ _ _, fun c hc => ?_⟩
    have hne : c ≠ TIME := by
      rintro rfl
      exact absurd (hw.numbered.lt [0]) (by rw [hw.numbered.time.2]; exact Nat.not_lt.mpr hc)
    rw [Function.update_of_ne hne, stocksOf_frame hw hn (.inr hc)]

theorem fullRow_frame (hw : WellBuilt s) (htime : init TIME = s.spec.start)
    (hhigh : ∀ c, s.nvars ≤ c → init c = 0) {j : Nat} {row : Row} (h : s.fullRow init j = .ok row) :
    row TIME = s.timeAt j ∧ ∀ c, s.nvars ≤ c → row c = 0 := by
  obtain ⟨pre, hpre, hf⟩ := fullRow_ok h
  obtain ⟨ht, hh⟩ := preRow_frame hw htime hhigh hpre
  refine ⟨?_, fun c hc => ?_⟩
  · rw [flowsOf_frame hw hf (.inl rfl), ht]
  · rw [flowsOf_frame hw hf (.inr hc), hh c hc]

/-! ### What `sd_sim_reset` sets up -/

structure IsReset (s : SDSim) : Prop where
  built : WellBuilt s
  spec : s.spec = s.simSpecs
  dt : s.spec.dt ≠ 0
  nsteps : toSize ((s.spec.stop - s.spec.start) / s.spec.dt + 1) = .ok s.nsteps
  saveEvery : ∃ n, toSize (s.spec.savestep / s.spec.dt + 1 / 2) = .ok n ∧
    s.saveEvery = if n > 1 then n else 1
  nsaves : s.nsaves = savesOf s.nsteps s.saveEvery
  step : s.step = 0
  saveStep : s.saveStep = 0
  rest : ∀ i, 0 < i → s.slab i = fun _ => 0
  initial : s.initialsOf s.startRow = .ok (s.slab 0)
  again : sdSimReset s = .ok s

theorem IsReset.saveEvery_pos (h : IsReset s) : 0 < s.saveEvery := by
  obtain ⟨n, -, hn⟩ := h.saveEvery
  rw [hn]
  split <;> omega

theorem IsReset.eq_moved (h : IsReset s) : s = s.moved s.slab 0 0 := by
  obtain ⟨_, _, _, _, _, _, _, _, _, _, _, _, _⟩ := s
  obtain rfl := h.step
  obtain rfl := h.saveStep
  rfl

theorem IsReset.time (h : IsReset s) : s.slab 0 TIME = s.spec.start := by
  rw [initialsOf_frame h.built h.initial (.inl rfl), h.spec]
  rfl

theorem IsReset.high (h : IsReset s) (c : Nat) (hc : s.nvars ≤ c) : s.slab 0 c = 0 := by
  rw [initialsOf_frame h.built h.initial (.inr hc), SDSim.startRow, if_neg]
  rintro rfl
  exact absurd (h.built.numbered.lt [0]) (by rw [h.built.numbered.time.2]; exact Nat.not_lt.mpr hc)

/-- What a reset does depends on the setup and nothing else. -/
theorem sdSimReset_congr {s' : SDSim} (h : SameSetup s s') : sdSimReset s' = sdSimReset s := by
  have hcleared : ∀ a b, s'.cleared a b = s.cleared a b := by
    intro a b
    simp only [SDSim.cleared, h.env, h.simSpecs, h.root, h.store, h.lists, h.nvars]
  simp only [sdSimReset, hcleared, h.simSpecs]

theorem sdSimReset_isReset {s0 : SDSim} (hw : WellBuilt s0) (h : sdSimReset s0 = .ok s) :
    IsReset s ∧ SameSetup s0 s := by
  have hreset := h
  simp only [sdSimReset, bind, Except.bind] at h
  split at h
  · simp at h
  · next hdt =>
    split at h
    · simp at h
    · next nsteps hnsteps =>
      split at h
      · simp at h
      · next n hn =>
        split at h
        · simp at h
        · next row hrow =>
          have hcleared : SameSetup s0 (s0.cleared nsteps (if n > 1 then n else 1)) :=
            ⟨rfl, rfl, rfl, rfl, rfl, rfl⟩
          rw [calcInitials_eq (hcleared.wellBuilt hw)] at hrow
          obtain rfl := Except.ok.inj h
          have hsame : SameSetup s0 ((s0.cleared nsteps (if n > 1 then n else 1)).setRow 0 row) :=
            ⟨rfl, rfl, rfl, rfl, rfl, rfl⟩
          refine ⟨⟨hsame.wellBuilt hw, rfl, hdt, hnsteps, ⟨n, hn, rfl⟩, rfl, rfl, rfl,
            fun i hi => ?_, ?_, (sdSimReset_congr hsame).trans hreset⟩, hsame⟩
          · have hne : i ≠ 0 := by omega
            simp only [SDSim.setRow, Function.update_of_ne hne, SDSim.cleared, if_neg hne]
          · simp only [SDSim.setRow, Function.update_self]
            exact hrow

theorem moved_sameSetup (slab : Nat → Row) (step saveStep : Nat) :
    SameSetup s (s.moved slab step saveStep) :=
  ⟨rfl, rfl, rfl, rfl, rfl, rfl⟩

theorem IsReset.reset_of_same {s' : SDSim} (h : IsReset s) (hsame : SameSetup s s') :
    sdSimReset s' = .ok s :=
  (sdSimReset_congr hsame).trans h.again

theorem sdSimNew_isReset {env : Env} {p : SDProject} {name : Option CStr}
    (h : sdSimNew env p name = .ok s) : IsReset s ∧ s.env = env := by
  obtain ⟨_, _, s0, -, hbuilt, henv, -, hreset⟩ := sdSimNew_cases h
  obtain ⟨hr, hsame⟩ := sdSimReset_isReset hbuilt.wellBuilt hreset
  exact ⟨hr, hsame.env.trans henv⟩

end Libsd

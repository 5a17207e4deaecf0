/-
  Libsd/Pulse.lean
  ================
  **When `pulse` delivers.**

  The loop goes through the pulse times and stops at the first that is not a whole `dt`
  back, so the result is `magnitude / dt` just when the time is in the window of some pulse
  (`rtPulse_hit`, `rtPulse_quiet`).  On the steps of a run each pulse is delivered once
  (`rtPulse_delivers`).
-/
import Libsd.Lib.Grid
import Libsd.Sim
import Mathlib.Algebra.Order.Archimedean.Basic

namespace Libsd

open Grid

/-! ### The loop -/

/-- The loop ends: with a positive interval it passes any time. -/
theorem pulseLoop_ok {magnitude interval dt time : ℚ} : ∀ {fuel : Nat} {nextPulse : ℚ},
    interval ≤ 0 ∨ time < nextPulse + fuel * interval →
    ∃ v, pulseLoop magnitude interval dt time (fuel + 1) nextPulse = .ok v := by
  intro fuel
  induction fuel with
  | zero =>
    intro nextPulse h
    simp only [pulseLoop]
    split_ifs with h1 h2 h3
    · exact ⟨_, rfl⟩
    · exact ⟨_, rfl⟩
    · have := h.resolve_left h3
      simp only [Nat.cast_zero, zero_mul, add_zero] at this
      exact absurd this (not_lt.mpr h1)
    · exact ⟨_, rfl⟩
  | succ fuel ih =>
    intro nextPulse h
    rw [pulseLoop]
    split_ifs with h1 h2 h3
    · exact ⟨_, rfl⟩
    · exact ⟨_, rfl⟩
    · refine ih (.inr ?_)
      have := h.resolve_left h3
      push_cast at this
      linarith
    · exact ⟨_, rfl⟩

theorem rtPulse_ok (dt time : ℚ) (args : List ℚ) : ∃ v, rtPulse dt time args = .ok v := by
  simp only [rtPulse]
  generalize (if args.length > 2 then args.getD 2 0 else 0) = interval
  generalize args.getD 1 0 = first
  split
  · exact ⟨_, rfl⟩
  · refine pulseLoop_ok ?_
    by_cases hi : interval ≤ 0
    · exact .inl hi
    · right
      have hpos := not_le.mp hi
      have hfloor : (time - first) / interval < ⌊(time - first) / interval⌋ + 1 :=
        Int.lt_floor_add_one _
      have hle : ((⌊(time - first) / interval⌋ : ℤ) : ℚ) ≤
          ((⌊(time - first) / interval⌋.toNat : ℕ) : ℚ) := by
        exact_mod_cast Int.self_le_toNat _
      have hlt : (time - first) / interval < (⌊(time - first) / interval⌋.toNat : ℕ) + 1 := by
        linarith
      have := (div_lt_iff₀ hpos).mp hlt
      have hfl : ((time - first) / interval).floor = ⌊(time - first) / interval⌋ := rfl
      rw [hfl]
      push_cast
      linarith

/-- The times of the pulses; without a positive interval there is only the first. -/
def pulseTimes (first interval : ℚ) : Set ℚ :=
  {p | ∃ k : Nat, p = first + k * interval ∧ (interval ≤ 0 → k = 0)}

section
variable {first interval dt time magnitude v : ℚ}

theorem first_mem_pulseTimes : first ∈ pulseTimes first interval :=
  ⟨0, by simp, fun _ => rfl⟩

/-- No pulse comes before the first. -/
theorem first_le_of_mem {p : ℚ} (h : p ∈ pulseTimes first interval) : first ≤ p := by
  obtain ⟨k, rfl, hk⟩ := h
  rcases le_or_gt interval 0 with hle | hpos
  · simp [hk hle]
  · have h0 : 0 ≤ (k : ℚ) * interval := mul_nonneg (Nat.cast_nonneg k) hpos.le
    linarith

/-- Behind the first pulse the times go on from the next one. -/
theorem mem_pulseTimes_next (hpos : 0 < interval) {p : ℚ} :
    p ∈ pulseTimes first interval ↔ p = first ∨ p ∈ pulseTimes (first + interval) interval := by
  have hnot : ¬ interval ≤ 0 := not_le.mpr hpos
  constructor
  · rintro ⟨k, rfl, -⟩
    cases k with
    | zero => exact .inl (by simp)
    | succ k =>
      refine .inr ⟨k, ?_, fun h => absurd h hnot⟩
      push_cast
      ring
  · rintro (rfl | ⟨k, rfl, -⟩)
    · exact first_mem_pulseTimes
    · refine ⟨k + 1, ?_, fun h => absurd h hnot⟩
      push_cast
      ring

theorem eq_first_of_mem (hle : interval ≤ 0) {p : ℚ} (h : p ∈ pulseTimes first interval) :
    p = first := by
  obtain ⟨k, rfl, hk⟩ := h
  simp [hk hle]

/-- What the loop returns, from any of the pulses on. -/
theorem pulseLoop_spec : ∀ {fuel : Nat} {first : ℚ},
    pulseLoop magnitude interval dt time fuel first = .ok v →
    ((∃ p ∈ pulseTimes first interval, Hits dt p time) → v = magnitude / dt) ∧
      ((∀ p ∈ pulseTimes first interval, ¬ Hits dt p time) → v = 0) := by
  intro fuel
  induction fuel with
  | zero => exact fun h => by cases h
  | succ fuel ih =>
    intro first h
    rw [pulseLoop] at h
    split_ifs at h with hge hlt hle
    · obtain rfl := Except.ok.inj h
      exact ⟨fun _ => rfl, fun hno => absurd ⟨hge, hlt⟩ (hno first first_mem_pulseTimes)⟩
    · -- the only pulse is over
      obtain rfl := Except.ok.inj h
      refine ⟨?_, fun _ => rfl⟩
      rintro ⟨p, hp, hit⟩
      rw [eq_first_of_mem hle hp] at hit
      exact absurd hit.2 hlt
    · have hpos : 0 < interval := not_le.mp hle
      obtain ⟨hdelivered, hquiet⟩ := ih h
      constructor
      · rintro ⟨p, hp, hit⟩
        rcases (mem_pulseTimes_next hpos).mp hp with rfl | hnext
        · exact absurd hit.2 hlt
        · exact hdelivered ⟨p, hnext, hit⟩
      · exact fun hno => hquiet fun p hp => hno p ((mem_pulseTimes_next hpos).mpr (.inr hp))
    · -- the time is before every pulse that is left
      obtain rfl := Except.ok.inj h
      refine ⟨?_, fun _ => rfl⟩
      rintro ⟨p, hp, hit⟩
      exact absurd ((first_le_of_mem hp).trans hit.1) hge

end

/-! ### `rt_pulse` -/

/-- The interval of a call; it may be left out. -/
def pulseInterval (args : List ℚ) : ℚ := if args.length > 2 then args.getD 2 0 else 0

/-- The times of the pulses that a call with these arguments asks for. -/
def pulsesOf (args : List ℚ) : Set ℚ := pulseTimes (args.getD 1 0) (pulseInterval args)

section
variable {dt time : ℚ} {args : List ℚ}

theorem rtPulse_spec {v : ℚ} (h : rtPulse dt time args = .ok v) :
    ((∃ p ∈ pulsesOf args, Hits dt p time) → v = args.getD 0 0 / dt) ∧
      ((∀ p ∈ pulsesOf args, ¬ Hits dt p time) → v = 0) := by
  simp only [rtPulse] at h
  split at h
  · next hbefore =>
    obtain rfl := Except.ok.inj h
    refine ⟨?_, fun _ => rfl⟩
    rintro ⟨p, hp, hit⟩
    exact absurd ((first_le_of_mem hp).trans hit.1) (not_le.mpr hbefore)
  · exact pulseLoop_spec h

theorem rtPulse_hit {p : ℚ} (hp : p ∈ pulsesOf args) (hit : Hits dt p time) :
    rtPulse dt time args = .ok (args.getD 0 0 / dt) := by
  obtain ⟨v, hv⟩ := rtPulse_ok dt time args
  rw [hv, (rtPulse_spec hv).1 ⟨p, hp, hit⟩]

theorem rtPulse_quiet (hno : ∀ p ∈ pulsesOf args, ¬ Hits dt p time) :
    rtPulse dt time args = .ok 0 := by
  obtain ⟨v, hv⟩ := rtPulse_ok dt time args
  rw [hv, (rtPulse_spec hv).2 hno]

/-- Pulses are at least an interval apart. -/
theorem separated_pulsesOf (hd : 0 < dt) (h : pulseInterval args ≤ 0 ∨ dt ≤ pulseInterval args) :
    Separated dt (pulsesOf args) := by
  intro p hp q hq hlt
  rcases h with hle | hge
  · rw [eq_first_of_mem hle hp, eq_first_of_mem hle hq] at hlt
    exact absurd hlt (lt_irrefl _)
  · obtain ⟨k, rfl, -⟩ := hp
    obtain ⟨l, rfl, -⟩ := hq
    have hpos : 0 < pulseInterval args := hd.trans_le hge
    have hkl : (k : ℚ) < l := by
      by_contra hle
      have hmul := mul_le_mul_of_nonneg_right (not_lt.mp hle) hpos.le
      linarith
    have hsucc : (k : ℚ) + 1 ≤ l := by exact_mod_cast hkl
    have hmul := mul_le_mul_of_nonneg_right hsucc hpos.le
    linarith

/-! ### A whole run -/

/-- What `pulse` does with these arguments in a run with step `dt`: at any time it returns
    the magnitude over `dt` or 0, as a pulse falls to that time or not, and on the steps of
    a grid every pulse counts once. -/
structure DeliversPulses (dt : ℚ) (args : List ℚ) : Prop where
  delivered : ∀ time, (∃ p ∈ pulsesOf args, p ≤ time ∧ time < p + dt) →
    rtPulse dt time args = .ok (args.getD 0 0 / dt)
  quiet : ∀ time, (¬ ∃ p ∈ pulsesOf args, p ≤ time ∧ time < p + dt) →
    rtPulse dt time args = .ok 0
  once : ∀ (start : ℚ) (n : Nat), ∀ p ∈ pulsesOf args, start - dt < p → p ≤ start + (n - 1) * dt →
    ∃! j : Nat, j < n ∧ p ≤ start + j * dt ∧ start + j * dt < p + dt
  total : pulseInterval args ≤ 0 ∨ dt ≤ pulseInterval args →
    ∀ (start : ℚ) (n : Nat) (value : Nat → ℚ),
    (∀ j < n, rtPulse dt (start + j * dt) args = .ok (value j)) →
    (pulsesOf args ∩ Set.Ioc (start - dt) (start + (n - 1) * dt)).Finite ∧
      ∑ j ∈ Finset.range n, value j * dt =
        args.getD 0 0 * (pulsesOf args ∩ Set.Ioc (start - dt) (start + (n - 1) * dt)).ncard

theorem rtPulse_delivers (dt : ℚ) (args : List ℚ) (hdt : 0 < dt) : DeliversPulses dt args where
  delivered time := by
    rintro ⟨p, hp, hit⟩
    exact rtPulse_hit hp hit
  quiet time hno := rtPulse_quiet fun p hp hit => hno ⟨p, hp, hit⟩
  once start n p _ hlo hhi := existsUnique_step hdt ⟨hlo, hhi⟩
  total hinterval start n value hvalue := by
    have hsep := separated_pulsesOf hdt hinterval
    classical
    refine ⟨(window_count (a := start) (n := n) hdt hsep ((Finset.range n).filter
      fun j : Nat => ∃ p ∈ pulsesOf args, Hits dt p (start + j * dt)) ?_).1, ?_⟩
    · intro j
      rw [Finset.mem_filter, Finset.mem_range]
    · refine sum_hits (fun j => value j * dt) hdt hsep ?_ ?_
      · rintro j hj ⟨p, hp, hit⟩
        have hv := Except.ok.inj ((hvalue j hj).symm.trans (rtPulse_hit hp hit))
        rw [hv, div_mul_cancel₀ _ hdt.ne']
      · intro j hj hno
        have hv := Except.ok.inj ((hvalue j hj).symm.trans (rtPulse_quiet hno))
        rw [hv, zero_mul]

/-- A pulse of 3 at time 1 and every 2 after it, with steps of a quarter. -/
theorem rtPulse_delivers_quarter : (0 : ℚ) < 1 / 4 ∧ DeliversPulses (1 / 4) [3, 1, 2] :=
  ⟨by norm_num, rtPulse_delivers (1 / 4) [3, 1, 2] (by norm_num)⟩

end

end Libsd

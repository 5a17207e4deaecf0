/-
  Libsd/Series.lean
  =================
  **How many values `sd_sim_get_series` returns.**

  The slab has one row more than there are saved steps, and the loop of
  `sd_sim_get_series` goes up to it, so a caller gets the saved rows and nothing
  else just when it asks for no more than `sd_sim_get_stepcount` (`series_iff`).
-/
import Libsd.Lib.Outcome
import Libsd.NamedResults

namespace Libsd

def sdSimGetStepcount (s : SDSim) : ℤ := toInt s.nsaves

/-- The offset that is read for a name. -/
def SeriesColumn (s : SDSim) (name : CStr) (c : Nat) : Prop :=
  (name = cstr "time" ∧ c = TIME) ∨
    (name ≠ cstr "time" ∧ ∃ p, resolve s.root (some name) = .ok (some p) ∧ c = s.col p)

/-- A series of that length is what the saved rows hold: it is as long as the buffer or as
    many steps as there are, the count returned says so, and the `i`-th value is that of
    saved row `i`. -/
def ReturnsSavedRows (s : SDSim) (name : CStr) (len : Nat) : Prop :=
  ∃ vs c, sdSimGetSeries s (some name) len = .ok vs ∧ SeriesColumn s name c ∧
    (vs.length : ℤ) = min (len : ℤ) (sdSimGetStepcount s) ∧
    toInt vs.length = min (len : ℤ) (sdSimGetStepcount s) ∧
    ∀ i v, vs[i]? = some v → i < s.nsaves ∧ v = s.slab i c

section
variable {s : SDSim} {name : CStr} {len c : Nat} {vs : List ℚ}

theorem length_series : (s.series c len).length = min (s.nsaves + 1) len := by
  rw [SDSim.series, List.length_map, List.length_range]

theorem getElem?_series {i : Nat} {v : ℚ} (h : (s.series c len)[i]? = some v) :
    i < min (s.nsaves + 1) len ∧ v = s.slab i c := by
  rw [SDSim.series, List.getElem?_map, Option.map_eq_some_iff] at h
  obtain ⟨k, hk, rfl⟩ := h
  obtain ⟨hlt, rfl⟩ := List.getElem?_eq_some_iff.mp hk
  rw [List.length_range] at hlt
  rw [List.getElem_range]
  exact ⟨hlt, rfl⟩

/-- The loop runs over one row more than are saved. -/
theorem sdSimGetSeries_ok (h : sdSimGetSeries s (some name) len = .ok vs) :
    ∃ c, SeriesColumn s name c ∧ vs = s.series c len := by
  by_cases htime : name = cstr "time"
  · rw [sdSimGetSeries, if_pos htime] at h
    exact ⟨TIME, .inl ⟨htime, rfl⟩, (Except.ok.inj h).symm⟩
  · simp only [sdSimGetSeries, if_neg htime, bind, Except.bind] at h
    cases hres : resolve s.root (some name) with
    | error e =>
      rw [hres] at h
      cases h
    | ok r =>
      rw [hres] at h
      cases r with
      | none => cases h
      | some p =>
        exact ⟨s.col p, .inr ⟨htime, p, hres, rfl⟩, (Except.ok.inj h).symm⟩

/-- Where the name is accepted, the series is that of the saved rows exactly when the buffer
    is no longer than the step count. -/
theorem series_iff (haccepted : ∃ vs, sdSimGetSeries s (some name) len = .ok vs) :
    ReturnsSavedRows s name len ↔ (len : ℤ) ≤ sdSimGetStepcount s := by
  have hle : sdSimGetStepcount s ≤ s.nsaves := toInt_le s.nsaves
  have hlt : sdSimGetStepcount s < 2 ^ 31 := toInt_lt s.nsaves
  obtain ⟨vs, hvs⟩ := haccepted
  obtain ⟨c, hcol, hseries⟩ := sdSimGetSeries_ok hvs
  have hlength : vs.length = min (s.nsaves + 1) len := hseries ▸ length_series
  constructor
  · rintro ⟨vs', -, hvs', -, hcount, -⟩
    obtain rfl : vs' = vs := Except.ok.inj (hvs'.symm.trans hvs)
    -- a longer buffer gets the row behind the last saved one too
    omega
  · intro hshort
    have hshort' : vs.length = len := by omega
    refine ⟨vs, c, hvs, hcol, ?_, ?_, ?_⟩
    · rw [hshort', min_eq_left hshort]
    · rw [hshort', toInt_of_lt (by omega), min_eq_left hshort]
    · intro i v hi
      rw [hseries] at hi
      obtain ⟨hin, rfl⟩ := getElem?_series hi
      exact ⟨by omega, rfl⟩

end

/-- A buffer for the two saved steps. -/
theorem series_iff_growth : ∃ s t, sdSimNew (.plain true) (growth ⟨0, 1, 1, 1⟩) none = .ok s ∧
    sdSimRunToEnd s = .ok t ∧
    (ReturnsSavedRows t (cstr "population") 2 ↔ ((2 : Nat) : ℤ) ≤ sdSimGetStepcount t) := by
  obtain ⟨⟨s, t⟩, hrun, hseries⟩ := exists_ok
    (x := do
      let s ← sdSimNew (.plain true) (growth ⟨0, 1, 1, 1⟩) none
      let t ← sdSimRunToEnd s
      return (s, t))
    (P := fun r => decide (sdSimGetSeries r.2 (some (cstr "population")) 2 = .ok [100, 110]))
    (by decide +kernel)
  obtain ⟨s', hnew, hrun⟩ := Outcome.bind_eq_ok hrun
  obtain ⟨t', hend, hpair⟩ := Outcome.bind_eq_ok hrun
  cases hpair
  exact ⟨s, t, hnew, hend, series_iff ⟨_, of_decide_eq_true hseries⟩⟩

/-- A buffer for three values gets the stock as it would be a step after the end. -/
theorem series_past_end : ∃ s t, sdSimNew (.plain true) (growth ⟨0, 1, 1, 1⟩) none = .ok s ∧
    sdSimRunToEnd s = .ok t ∧ sdSimGetStepcount t = 2 ∧
    sdSimGetSeries t (some (cstr "population")) 3 = .ok [100, 110, 121] ∧
    ¬ ReturnsSavedRows t (cstr "population") 3 := by
  obtain ⟨⟨s, t⟩, hrun, hP⟩ := exists_ok
    (x := do
      let s ← sdSimNew (.plain true) (growth ⟨0, 1, 1, 1⟩) none
      let t ← sdSimRunToEnd s
      return (s, t))
    (P := fun r => decide (sdSimGetStepcount r.2 = 2 ∧
      sdSimGetSeries r.2 (some (cstr "population")) 3 = .ok [100, 110, 121])) (by decide +kernel)
  obtain ⟨s', hnew, hrun⟩ := Outcome.bind_eq_ok hrun
  obtain ⟨t', hend, hpair⟩ := Outcome.bind_eq_ok hrun
  cases hpair
  obtain ⟨hcount, hseries⟩ := of_decide_eq_true hP
  refine ⟨s, t, hnew, hend, hcount, hseries, ?_⟩
  rintro ⟨vs, c, hvs, -, hlength, -⟩
  rw [hseries] at hvs
  cases hvs
  rw [hcount] at hlength
  revert hlength
  decide

end Libsd

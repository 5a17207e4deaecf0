/-
  Libsd/NamedResults.lean
  =======================
  **Which column a name gives: `sd_sim_get_value` and `sd_sim_get_series`.**

  Both resolve the name and index the slab by the `offset` of what they find.  Only
  variables that are simulated have a column; the offset of a module or a connected
  input is 0, the column of `time`.  So a name gives what it denotes exactly when
  that is a simulated variable, or an input whose connections lead to `time`
  (`readsNamed_iff`).
-/
import Libsd.Lib.Outcome
import Libsd.Trajectory

namespace Libsd

open Outcome

/-- The rows of a column copied into `results`, which has room for `len` of them. -/
def SDSim.series (s : SDSim) (off len : Nat) : List ℚ :=
  (List.range (min (s.nsaves + 1) len)).map fun i => s.slab i off

/-- The result and its length; -1 is `SD_ERR_NOMEM` among the error codes. -/
def sdSimGetSeries (s : SDSim) (name : Option CStr) (len : Nat) : Except Stop (List ℚ) :=
  match name with
  | none => .error (.err .nomem)
  | some n =>
    if n = cstr "time" then .ok (s.series TIME len)
    else do
      match ← resolve s.root (some n) with
      | none => .error (.err .nomem)
      | some p => return s.series (s.store p).offset len

/-! ### What a name denotes -/

/-- The connections lead from `p` to `e`, which is not connected to anything. -/
inductive EndsAt (st : Store) : Path → Path → Prop where
  | here {e : Path} (h : (st e).src = none) : EndsAt st e e
  | step {p q e : Path} (h : (st p).src = some q) (hq : EndsAt st q e) : EndsAt st p e

/-- The column of the variable at `p`: its own, or that of the variable at the end of
    its connections. -/
def HasColumn (s : SDSim) (p : Path) (c : Nat) : Prop :=
  ∃ e, EndsAt s.store p e ∧ IsColumn s.root s.store e ∧ c = s.col e

/-- One of the two functions returns a result for the name. -/
def Accepts (s : SDSim) (name : CStr) : Prop :=
  (∃ v, sdSimGetValue s (some name) = .ok v) ∨ ∃ len vs, sdSimGetSeries s (some name) len = .ok vs

/-- Both functions read column `c` for the name, whatever is in the slab. -/
def ReadsColumn (s : SDSim) (name : CStr) (c : Nat) : Prop :=
  ∀ slab step saveStep, sdSimGetValue (s.moved slab step saveStep) (some name) =
    .ok (slab saveStep c) ∧
    ∀ len, sdSimGetSeries (s.moved slab step saveStep) (some name) len =
      .ok ((s.moved slab step saveStep).series c len)

/-- A name that is accepted denotes a variable, and its column is read. -/
def ReadsNamed (s : SDSim) (name : CStr) : Prop :=
  Accepts s name →
    ∃ p c, resolve s.root (some name) = .ok (some p) ∧ HasColumn s p c ∧ ReadsColumn s name c

variable {s s' : SDSim} {name : CStr}

theorem EndsAt.eq_of_src_none {st : Store} {p e : Path} (h : EndsAt st p e)
    (hp : (st p).src = none) : e = p := by
  cases h with
  | here => rfl
  | step hq => simp [hp] at hq

/-- The root's `time` is the first match for its name. -/
theorem resolve_time (h : WellBuilt s) : resolve s.root (some (cstr "time")) = .ok (some [0]) := by
  have ht := h.time
  cases hroot : s.root with
  | nil => simp [hroot] at ht
  | cons av rest =>
    obtain rfl : av = .var timeVar .null := by simpa [hroot] using ht
    have hskip : skipDot (cstr "time") = cstr "time" := by decide +kernel
    have hsplit : splitDot (cstr "time") = none := by decide +kernel
    rw [resolve, hskip, resolveLoop]
    simp [AVar.v, timeVar, hsplit]

/-- What both functions do for a name that resolves. -/
theorem readsColumn_of_resolve (h : WellBuilt s) {p : Path}
    (hp : resolve s.root (some name) = .ok (some p)) : ReadsColumn s name (s.col p) := by
  intro slab step saveStep
  by_cases hn : name = cstr "time"
  · subst hn
    obtain rfl : [0] = p := Option.some.inj (Except.ok.inj ((resolve_time h).symm.trans hp))
    rw [show s.col [0] = TIME from h.numbered.time.2]
    exact ⟨if_pos rfl, fun _ => if_pos rfl⟩
  · simp only [sdSimGetValue, sdSimGetSeries, if_neg hn, SDSim.moved, hp, bind, Except.bind]
    exact ⟨rfl, fun _ => rfl⟩

theorem ReadsColumn.unique {c c' : Nat} (h : ReadsColumn s name c) (h' : ReadsColumn s name c') :
    c = c' := by
  have hc := (h (fun _ k => k) 0 0).1
  have hc' := (h' (fun _ k => k) 0 0).1
  exact_mod_cast Except.ok.inj (hc.symm.trans hc')

/-- A name is accepted exactly when it denotes something. -/
theorem accepts_iff (h : WellBuilt s) :
    Accepts s name ↔ ∃ p, resolve s.root (some name) = .ok (some p) := by
  constructor
  · intro hacc
    by_cases hn : name = cstr "time"
    · exact ⟨[0], hn ▸ resolve_time h⟩
    · rcases hacc with ⟨v, hv⟩ | ⟨len, vs, hvs⟩
      · simp only [sdSimGetValue, if_neg hn] at hv
        obtain ⟨r, hr, hv⟩ := bind_eq_ok hv
        cases r with
        | none => simp at hv
        | some p => exact ⟨p, hr⟩
      · simp only [sdSimGetSeries, if_neg hn] at hvs
        obtain ⟨r, hr, hvs⟩ := bind_eq_ok hvs
        cases r with
        | none => simp at hvs
        | some p => exact ⟨p, hr⟩
  · rintro ⟨p, hp⟩
    exact .inl ⟨_, (readsColumn_of_resolve h hp s.slab s.step s.saveStep).1⟩

theorem readsNamed_of_wellBuilt (h : WellBuilt s) : ReadsNamed s name ↔
    ∀ p, resolve s.root (some name) = .ok (some p) →
      IsColumn s.root s.store p ∨ EndsAt s.store p [0] := by
  have hnum := h.numbered
  constructor
  · intro hreads p hp
    obtain ⟨p', c, hp', ⟨e, he, hcol, hc⟩, hread⟩ := hreads ((accepts_iff h).mpr ⟨p, hp⟩)
    obtain rfl : p = p' := Option.some.inj (Except.ok.inj (hp.symm.trans hp'))
    by_cases hown : IsColumn s.root s.store p
    · exact .inl hown
    · -- offset 0 is read, so the variable at the end has it
      have h0 : s.col p = 0 := hnum.zero p hown
      have hce : s.col e = 0 := by
        rw [← hc, hread.unique (readsColumn_of_resolve h hp), h0]
      have : e = [0] := by
        by_contra hne
        exact hnum.ne_zero hcol hne hce
      exact .inr (this ▸ he)
  · intro hall hacc
    obtain ⟨p, hp⟩ := (accepts_iff h).mp hacc
    refine ⟨p, s.col p, hp, ?_, readsColumn_of_resolve h hp⟩
    rcases hall p hp with hown | hend
    · obtain ⟨v, n, hv, hsrc⟩ := hown
      exact ⟨p, .here hsrc, ⟨v, n, hv, hsrc⟩, rfl⟩
    · refine ⟨[0], hend, hnum.time.1, ?_⟩
      by_cases hown : IsColumn s.root s.store p
      · obtain ⟨v, n, -, hsrc⟩ := hown
        rw [hend.eq_of_src_none hsrc]
      · exact (hnum.zero p hown).trans hnum.time.2.symm

/-! ### In every state of a simulation -/

/-- `t` is `s` at another point of its run. -/
def SDSim.MovedTo (s t : SDSim) : Prop := ∃ slab j m, t = s.moved slab j m

theorem SDSim.MovedTo.refl (s : SDSim) : s.MovedTo s := ⟨s.slab, s.step, s.saveStep, rfl⟩

theorem SDSim.MovedTo.trans {t : SDSim} (h : s.MovedTo s') (h' : s'.MovedTo t) : s.MovedTo t := by
  obtain ⟨slab, j, m, rfl⟩ := h
  obtain ⟨slab', j', m', rfl⟩ := h'
  exact ⟨slab', j', m', rfl⟩

theorem SDSim.MovedTo.sameSetup (h : s.MovedTo s') : SameSetup s s' := by
  obtain ⟨slab, j, m, rfl⟩ := h
  exact moved_sameSetup slab j m

theorem flowsPass_moved (h : s.flowsPass = .ok s') : s.MovedTo s' := by
  obtain ⟨row, -, h⟩ := bind_eq_ok h
  exact ⟨_, _, _, (Except.ok.inj h).symm⟩

theorem stocksPass_moved (h : s.stocksPass = .ok s') : s.MovedTo s' := by
  obtain ⟨row, -, h⟩ := bind_eq_ok h
  exact ⟨_, _, _, (Except.ok.inj h).symm⟩

theorem advance_moved (h : s.advance = .ok s') : s.MovedTo s' := by
  obtain ⟨-, -, h⟩ := bind_eq_ok h
  simp only at h
  split_ifs at h <;> exact ⟨_, _, _, (Except.ok.inj h).symm⟩

theorem runLoop_moved {stop : ℚ} {fuel : Nat} (h : SDSim.runLoop stop fuel s = .ok s') :
    s.MovedTo s' := by
  induction fuel generalizing s with
  | zero => exact Except.ok.inj h ▸ .refl s
  | succ fuel ih =>
    rw [SDSim.runLoop] at h
    split_ifs at h
    · obtain ⟨-, -, h⟩ := bind_eq_ok h
      obtain ⟨s1, h1, h⟩ := bind_eq_ok h
      obtain ⟨s2, h2, h⟩ := bind_eq_ok h
      have h12 := (flowsPass_moved h1).trans (stocksPass_moved h2)
      split_ifs at h
      · exact Except.ok.inj h ▸ h12
      · obtain ⟨s3, h3, h⟩ := bind_eq_ok h
        exact (h12.trans (advance_moved h3)).trans (ih h)
    · obtain ⟨-, -, h⟩ := bind_eq_ok h
      exact Except.ok.inj h ▸ .refl s
    · exact Except.ok.inj h ▸ .refl s

theorem SameSetup.refl (s : SDSim) : SameSetup s s := ⟨rfl, rfl, rfl, rfl, rfl, rfl⟩

theorem SameSetup.trans {t : SDSim} (h : SameSetup s s') (h' : SameSetup s' t) : SameSetup s t :=
  ⟨h'.env.trans h.env, h'.simSpecs.trans h.simSpecs, h'.root.trans h.root, h'.store.trans h.store,
    h'.lists.trans h.lists, h'.nvars.trans h.nvars⟩

theorem calls_sameSetup {cs : List Call} (hw : WellBuilt s) (h : s.calls cs = .ok s') :
    SameSetup s s' := by
  induction cs generalizing s with
  | nil =>
    obtain rfl := Except.ok.inj h
    exact .refl s
  | cons c cs ih =>
    simp only [SDSim.calls] at h
    obtain ⟨s1, h1, h⟩ := bind_eq_ok h
    have hsame : SameSetup s s1 := by
      cases c with
      | runTo stop => exact (runLoop_moved h1).sameSetup
      | runToEnd => exact (runLoop_moved h1).sameSetup
      | reset => exact (sdSimReset_isReset hw h1).2
    exact hsame.trans (ih (hsame.wellBuilt hw) h)

/-- After any calls, an accepted name gives the column of what it denotes exactly when
    it denotes a simulated variable, or an input connected to `time`. -/
theorem readsNamed_iff {env : Env} {p : SDProject} {model : Option CStr}
    (h : sdSimNew env p model = .ok s) {cs : List Call} (hcs : s.calls cs = .ok s')
    (name : CStr) : ReadsNamed s' name ↔
      ∀ q, resolve s'.root (some name) = .ok (some q) →
        IsColumn s'.root s'.store q ∨ EndsAt s'.store q [0] := by
  have hw := (sdSimNew_isReset h).1.built
  exact readsNamed_of_wellBuilt ((calls_sameSetup hw hcs).wellBuilt hw)

theorem readsNamed_growth : ∃ s s', sdSimNew (.plain true) (growth ⟨0, 4, 1, 1⟩) none = .ok s ∧
    s.calls [.runToEnd] = .ok s' ∧ (ReadsNamed s' (cstr "births") ↔
      ∀ q, resolve s'.root (some (cstr "births")) = .ok (some q) →
        IsColumn s'.root s'.store q ∨ EndsAt s'.store q [0]) := by
  obtain ⟨⟨s, s'⟩, h, -⟩ := exists_ok (P := fun _ : SDSim × SDSim => true)
    (x := do
      let s ← sdSimNew (.plain true) (growth ⟨0, 4, 1, 1⟩) none
      let s' ← s.calls [.runToEnd]
      return (s, s')) (by decide +kernel)
  obtain ⟨s1, hnew, h⟩ := bind_eq_ok h
  obtain ⟨s2, hcs, h⟩ := bind_eq_ok h
  obtain ⟨rfl, rfl⟩ : s1 = s ∧ s2 = s' := by simpa [pure, Except.pure] using h
  exact ⟨s1, s2, hnew, hcs, readsNamed_iff hnew hcs _⟩

/-- The module's input `in` is connected to `a`, which is 1; its name gives the time, 0,
    and so does the name of the module itself. -/
theorem named_gives_time : ∃ s, sdSimNew (.plain true) (moduleFirst ⟨0, 3, 1, 1⟩) none = .ok s ∧
    sdSimGetValue s (some (cstr "m.in")) = .ok 0 ∧ (s.store [1, 0]).src = some [2] ∧
    sdSimGetValue s (some (cstr "a")) = .ok 1 ∧ sdSimGetValue s (some (cstr "m")) = .ok 0 ∧
    ¬ ReadsNamed s (cstr "m.in") ∧ ¬ ReadsNamed s (cstr "m") := by
  obtain ⟨s, h, hs⟩ := exists_ok (x := sdSimNew (.plain true) (moduleFirst ⟨0, 3, 1, 1⟩) none)
    (P := fun s => decide (sdSimGetValue s (some (cstr "m.in")) = .ok 0) &&
      decide ((s.store [1, 0]).src = some [2] ∧ (s.store [2]).src = none) &&
      decide (sdSimGetValue s (some (cstr "a")) = .ok 1) &&
      decide (sdSimGetValue s (some (cstr "m")) = .ok 0) &&
      decide (resolve s.root (some (cstr "m.in")) = .ok (some [1, 0])) &&
      decide (resolve s.root (some (cstr "m")) = .ok (some [1])) &&
      decide ((avarAt s.root [1]).map AVar.isModule = some true) &&
      decide ((s.store [1]).src = none)) (by decide +kernel)
  simp only [Bool.and_eq_true, decide_eq_true_eq] at hs
  obtain ⟨⟨⟨⟨⟨⟨⟨hin, hsrc, hend⟩, ha⟩, hm⟩, hrin⟩, hrm⟩, hmod⟩, hmsrc⟩ := hs
  have hw := (sdSimNew_isReset h).1.built
  refine ⟨s, h, hin, hsrc, ha, hm, fun hreads => ?_, fun hreads => ?_⟩
  · rcases (readsNamed_of_wellBuilt hw).mp hreads _ hrin with ⟨_, _, -, hnone⟩ | hz
    · simp [hsrc] at hnone
    · cases hz with
      | step hq hq' =>
        obtain rfl := Option.some.inj (hsrc.symm.trans hq)
        exact absurd (hq'.eq_of_src_none hend) (by simp)
  · rcases (readsNamed_of_wellBuilt hw).mp hreads _ hrm with ⟨_, _, hv, -⟩ | hz
    · simp [hv, AVar.isModule] at hmod
    · exact absurd (hz.eq_of_src_none hmsrc) (by simp)

end Libsd

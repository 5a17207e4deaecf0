/-
  Libsd/SimSpecs.lean
  ===================
  **The arithmetic of `sd_sim_reset`, on whatever `sim_specs` a file has.**

  The loader takes the numbers as they are (`xmileEndSimSpecs`) and `sd_sim_new` does not
  look at them, so the quotients, the number of rows and the size of the slab are what
  they should be just when the numbers are sound (`resetDefined_iff`); otherwise only a
  project that is rejected for another reason is kept from them (`opensSafely_iff`).

  `strtod` may give an infinity or a NaN for any of the numbers, and the reciprocal of a `dt`
  of 0 is an infinity.  There is no arithmetic of rational numbers on these, so the specs have
  to be numbers in the end, whatever was read before it was stored over.
-/
import Libsd.Elements
import Libsd.UnresolvedNames
import Mathlib.Data.Rat.Floor

namespace Libsd

/-! ### Loading -/

/-- The numbers of `SimSpec`, as they are loaded. -/
structure LoadedSpecs where
  start : Double
  stop : Double
  dt : Double
  savestep : Double
deriving DecidableEq, Repr

/-- The specs that `calloc` returns. -/
def LoadedSpecs.new : LoadedSpecs :=
  { start := .num 0, stop := .num 0, dt := .num 0, savestep := .num 0 }

/-- The specs, if they are all numbers. -/
def LoadedSpecs.simSpec (specs : LoadedSpecs) : Option SimSpec := do
  let start ← specs.start.number?
  let stop ← specs.stop.number?
  let dt ← specs.dt.number?
  let savestep ← specs.savestep.number?
  return { start := start, stop := stop, dt := dt, savestep := savestep }

section
variable (C : Libc)

/-- `strtod` of a child's text, if there is any, over the value from before. -/
def readNumber (nb : Element) (name : CStr) (v : Double) : Double :=
  match childContent nb name with
  | some s => (C.strtod s).1
  | none => v

/-- The child `dt`, with its attribute `reciprocal`. -/
def readDt (nb : Element) (v : Double) : Double :=
  match nodeBuilderGetFirstChild nb (cstr "dt") with
  | none => v
  | some child =>
    match child.content with
    | none => v
    | some s =>
      if nodeBuilderGetAttr child (cstr "reciprocal") = some (cstr "true") then
        C.arith.div (.num 1) (C.strtod s).1
      else (C.strtod s).1

/-- The branch of `xmile_builder_end_child` for `sim_specs`, for the numbers it reads. -/
def xmileEndSimSpecs (specs : LoadedSpecs) (nb : Element) : LoadedSpecs :=
  let dt := readDt C nb specs.dt
  let haveSavestep := (childContent nb (cstr "savestep")).isSome ||
    (childContent nb (cstr "save_step")).isSome
  let savestep :=
    readNumber C nb (cstr "save_step") (readNumber C nb (cstr "savestep") specs.savestep)
  { start := readNumber C nb (cstr "start") specs.start
    stop := readNumber C nb (cstr "stop") specs.stop
    dt := dt
    savestep := if haveSavestep then savestep else dt }

/-- The specs of a file, from the elements under its root. -/
def simSpecsOf (given : List (CStr × Element)) : LoadedSpecs :=
  given.foldl (fun specs child =>
    if child.1 = cstr "sim_specs" then xmileEndSimSpecs C specs child.2 else specs) .new

end

example : (simSpecsOf plainLibc [(cstr "sim_specs", .parent "sim_specs"
      [.leaf "start" "1", .leaf "stop" "12", .leaf "dt" ".5"])]).simSpec =
    some ⟨1, 12, 1 / 2, 1 / 2⟩ := by
  decide +kernel

/-! ### Conversions -/

theorem toSize_eq_ok {q : ℚ} {n : Nat} : toSize q = .ok n ↔ -1 < q ∧ q < 2 ^ 64 ∧ n = ⌊q⌋₊ := by
  have hfloor : q.floor.toNat = ⌊q⌋₊ := rfl
  rw [toSize, hfloor]
  split_ifs with h
  · constructor
    · intro heq
      cases heq
    · rintro ⟨hlo, hhi, -⟩
      rcases h with h | h
      · exact absurd hlo (not_lt.mpr h)
      · exact absurd hhi (not_lt.mpr h)
  · obtain ⟨hlo, hhi⟩ := not_or.mp h
    constructor
    · intro heq
      exact ⟨not_le.mp hlo, not_le.mp hhi, (Except.ok.inj heq).symm⟩
    · rintro ⟨-, -, rfl⟩
      rfl

/-- As many rows as there are multiples of the saving interval. -/
theorem savesOf_eq_ceil (n : Nat) {k : Nat} (hk : 0 < k) : savesOf n k = ⌈(n : ℚ) / k⌉₊ := by
  have hkq : (0 : ℚ) < k := Nat.cast_pos.mpr hk
  have hdiv : k * (n / k) + n % k = n := Nat.div_add_mod n k
  have hcast : (k : ℚ) * ((n / k : Nat) : ℚ) + ((n % k : Nat) : ℚ) = n := by exact_mod_cast hdiv
  have hlt : ((n % k : Nat) : ℚ) < k := by exact_mod_cast Nat.mod_lt n hk
  symm
  rw [savesOf]
  by_cases hrem : n % k = 0
  · rw [if_neg (not_not.mpr hrem), Nat.add_zero]
    rw [hrem, Nat.cast_zero, add_zero] at hcast
    rw [← hcast, mul_div_cancel_left₀ _ hkq.ne', Nat.ceil_natCast]
  · rw [if_pos hrem]
    have hpos : (0 : ℚ) < ((n % k : Nat) : ℚ) := Nat.cast_pos.mpr (Nat.pos_of_ne_zero hrem)
    refine (Nat.ceil_eq_iff (Nat.add_one_ne_zero (n / k))).mpr ⟨?_, ?_⟩
    · rw [Nat.add_sub_cancel, lt_div_iff₀ hkq]
      linarith
    · rw [div_le_iff₀ hkq, Nat.cast_add, Nat.cast_one]
      linarith

/-! ### What `sd_sim_reset` computes -/

/-- The number of doubles in the slab. -/
def slabSize (nvars nsaves : Nat) : Nat := (if nvars = 0 then 1 else nvars) * (nsaves + 1)

/-- The arithmetic of `sd_sim_reset` is defined: it does not divide by 0, what it converts is
    not negative and fits, there is a row, and the size of the slab does not wrap. -/
def ResetDefined (spec : SimSpec) (nvars : Nat) : Prop :=
  spec.dt ≠ 0 ∧ 0 ≤ (spec.stop - spec.start) / spec.dt + 1 ∧ 0 ≤ spec.savestep / spec.dt + 1 / 2 ∧
    ∃ nsteps saveEvery nsaves, toSize ((spec.stop - spec.start) / spec.dt + 1) = .ok nsteps ∧
      toSize (spec.savestep / spec.dt + 1 / 2) = .ok saveEvery ∧
      nsaves = savesOf nsteps (if saveEvery > 1 then saveEvery else 1) ∧
      1 ≤ nsaves ∧ slabSize nvars nsaves < 2 ^ 64

/-- The numbers are sound for a model with that many columns: time runs from `start` to
    `stop` in steps of `dt`, and `savestep` along with it, and nothing is too large. -/
structure SimSpec.Sound (spec : SimSpec) (columns : Nat) : Prop where
  dt : spec.dt ≠ 0
  forward : 0 ≤ (spec.stop - spec.start) / spec.dt
  steps : (spec.stop - spec.start) / spec.dt < 2 ^ 64 - 1
  along : -(1 / 2) ≤ spec.savestep / spec.dt
  every : spec.savestep / spec.dt < 2 ^ 64 - 1 / 2
  size : max 1 columns * (⌈((⌊(spec.stop - spec.start) / spec.dt⌋₊ + 1 : Nat) : ℚ) /
    (max 1 ⌊spec.savestep / spec.dt + 1 / 2⌋₊ : Nat)⌉₊ + 1) < 2 ^ 64

theorem resetDefined_iff (spec : SimSpec) (columns : Nat) :
    ResetDefined spec columns ↔ spec.Sound columns := by
  have hslots : (if columns = 0 then 1 else columns) = max 1 columns := by
    split_ifs <;> omega
  have hevery : ∀ n : Nat, (if n > 1 then n else 1) = max 1 n := fun n => by
    split_ifs <;> omega
  constructor
  · rintro ⟨hdt, -, hsave, nsteps, saveEvery, nsaves, hn, hk, rfl, hpos, hsize⟩
    obtain ⟨-, hsteps, rfl⟩ := toSize_eq_ok.mp hn
    obtain ⟨-, hevery', rfl⟩ := toSize_eq_ok.mp hk
    rw [hevery] at hpos hsize
    have hmax : 0 < max 1 ⌊spec.savestep / spec.dt + 1 / 2⌋₊ := by omega
    -- without a step there is no row
    have hone : 1 ≤ ⌊(spec.stop - spec.start) / spec.dt + 1⌋₊ := by
      by_contra hzero
      obtain hzero : ⌊(spec.stop - spec.start) / spec.dt + 1⌋₊ = 0 := by omega
      rw [hzero, savesOf, Nat.zero_div, Nat.zero_mod] at hpos
      exact absurd hpos (by decide)
    have hforward : 0 ≤ (spec.stop - spec.start) / spec.dt := by
      have h := (Nat.one_le_floor_iff _).mp hone
      linarith
    refine ⟨hdt, hforward, by linarith, by linarith, by linarith, ?_⟩
    rwa [slabSize, hslots, savesOf_eq_ceil _ hmax, Nat.floor_add_one hforward] at hsize
  · intro h
    have hn : toSize ((spec.stop - spec.start) / spec.dt + 1) =
        .ok ⌊(spec.stop - spec.start) / spec.dt + 1⌋₊ :=
      toSize_eq_ok.mpr ⟨by linarith [h.forward], by linarith [h.steps], rfl⟩
    have hk : toSize (spec.savestep / spec.dt + 1 / 2) = .ok ⌊spec.savestep / spec.dt + 1 / 2⌋₊ :=
      toSize_eq_ok.mpr ⟨by linarith [h.along], by linarith [h.every], rfl⟩
    have hmax : 0 < max 1 ⌊spec.savestep / spec.dt + 1 / 2⌋₊ := by omega
    refine ⟨h.dt, by linarith [h.forward], by linarith [h.along], _, _, _, hn, hk, rfl, ?_, ?_⟩
    · rw [hevery, savesOf_eq_ceil _ hmax, Nat.floor_add_one h.forward]
      refine Nat.one_le_ceil_iff.mpr (div_pos ?_ (Nat.cast_pos.mpr hmax))
      exact Nat.cast_pos.mpr (Nat.succ_pos _)
    · rw [slabSize, hslots, hevery, savesOf_eq_ceil _ hmax, Nat.floor_add_one h.forward]
      exact h.size

/-! ### Opening a project -/

mutual
/-- The variables with a column of their own: neither modules nor connected inputs. -/
def AVar.columnCount : AVar → Nat
  | .module _ avars => columnCount avars
  | .var v _ => if v.type = .ref then 0 else 1

def columnCount : List AVar → Nat
  | [] => 0
  | av :: avars => av.columnCount + columnCount avars
end

section
variable {root : List AVar} {st : Store}

mutual
theorem length_columns (hcomp : ∀ p, Compiled root p (st p)) : ∀ {av : AVar} {path : Path},
    avarAt root path = some av → (av.columns st path).length = av.columnCount
  | .module v avars, path, hav => by
    rw [AVar.columns, AVar.columnCount]
    refine length_columnsFrom hcomp fun k => ?_
    rw [Nat.zero_add, ← avarAt_child, avarAt_append_cons hav]
    simp [avarAt_cons, AVar.avars]
  | .var v n, path, hav => by
    have hc := hcomp path
    simp only [Compiled, hav] at hc
    rw [AVar.columns, AVar.columnCount]
    generalize st path = d at hc
    cases hc with
    | ref hv => rw [if_pos hv]; rfl
    | time hv => rw [if_neg hv]; rfl
    | equation hv => rw [if_neg hv]; rfl

theorem length_columnsFrom (hcomp : ∀ p, Compiled root p (st p)) : ∀ {avars : List AVar} {m : Path}
    {i : Nat}, (∀ k, avars[k]? = (avarsAt root m)[i + k]?) →
    (columnsFrom st m i avars).length = columnCount avars
  | [], _, _, _ => rfl
  | av :: rest, m, i, h => by
    have hav : avarAt root (m ++ [i]) = some av := by
      rw [avarAt_child]
      exact (h 0).symm
    rw [columnsFrom, List.length_append, length_columns hcomp hav, columnCount,
      length_columnsFrom hcomp fun k => ?_]
    rw [Nat.add_assoc, Nat.add_comm 1 k]
    exact h (k + 1)
end

/-- The number that `sd_sim_new` keeps as `nvars`. -/
theorem BuiltFrom.nvars_eq {p : SDProject} {model : SDModel} {s : SDSim} (h : BuiltFrom p model s) :
    s.nvars = columnCount s.root := by
  obtain ⟨st, hst, hoff⟩ := h.store
  obtain ⟨hcomp, -⟩ := compileRoot_spec hst
  have hcount : s.nvars = (number (columnsFrom st [] 0 s.root) (st, 0)).2 := by
    rw [← moduleAssignOffsets_eq [] 0 s.root (st, 0), hoff]
  rw [hcount, number_count, Nat.zero_add]
  exact length_columnsFrom hcomp fun k => by rw [Nat.zero_add]; rfl

end

/-- A project of one file with these models and these elements under its root: it is
    rejected, or its specs are numbers on which the arithmetic of `sd_sim_reset` is defined.
    What is rejected is so whatever the specs are.  A rejection for want of memory is not
    modelled, and does not count. -/
def OpensSafely (C : Libc) (env : Env) (models : List SDModel) (given : List (CStr × Element))
    (name : Option CStr) : Prop :=
  ∀ specs root, (simSpecsOf C given).simSpec = some specs ∨ (simSpecsOf C given).simSpec = none →
    Instantiated (.ofModels specs models) name root →
    (∃ e, sdSimNew env (.ofModels specs models) name = .error (.err e)) ∨
      ((simSpecsOf C given).simSpec = some specs ∧ ResetDefined specs (columnCount root))

theorem opensSafely_iff (C : Libc) (env : Env) (models : List SDModel)
    (given : List (CStr × Element)) (name : Option CStr) :
    OpensSafely C env models given name ↔
      ∀ specs root,
        (simSpecsOf C given).simSpec = some specs ∨ (simSpecsOf C given).simSpec = none →
        Instantiated (.ofModels specs models) name root →
        RejectedAnyway root ∨
          ((simSpecsOf C given).simSpec = some specs ∧ specs.Sound (columnCount root)) := by
  refine forall_congr' fun specs => forall_congr' fun root => forall_congr' fun _ =>
    forall_congr' fun hroot => ?_
  obtain ⟨specs', model, hmodel, hmodule⟩ := hroot
  rw [sdSimNew_rejects_iff hmodel hmodule, resetDefined_iff]

/-- Without `sim_specs` the step is 0, and a project with nothing else wrong is divided by it. -/
theorem no_simSpecs_not_safe : ¬ OpensSafely plainLibc (.plain true)
    [{ name := none, vars := [Var.ofEquation .aux "x" "1"] }] [] none := by
  intro h
  obtain ⟨root, hroot, -⟩ := exists_ok
    (x := module (.ofModels ⟨0, 0, 0, 0⟩ [{ name := none, vars := [Var.ofEquation .aux "x" "1"] }])
      (moduleFuel
        (.ofModels ⟨0, 0, 0, 0⟩ [{ name := none, vars := [Var.ofEquation .aux "x" "1"] }]))
      none { name := none, vars := [Var.ofEquation .aux "x" "1"] })
    (P := fun _ => true) (by decide +kernel)
  rcases h ⟨0, 0, 0, 0⟩ root (.inl rfl) ⟨_, _, rfl, hroot⟩ with ⟨e, he⟩ | ⟨-, hdt, -⟩
  · have hstop : (sdSimNew (.plain true) (.ofModels ⟨0, 0, 0, 0⟩
        [{ name := none, vars := [Var.ofEquation .aux "x" "1"] }]) none).map (fun _ => ()) =
        .error (.undefined .conversion) := by
      decide +kernel
    rw [he] at hstop
    cases hstop
  · exact hdt rfl

end Libsd

/-
  Libsd/Mdl.lean
  ==============
  **The `mdl` tool: a simulation printed as a table (`mdl.c`).**

  `main` opens the project it is given, simulates the root model to the end, and prints the
  series of every variable under the name that `sd_sim_get_varnames` reports.  It looks each
  series up by that name again, so a column holds what the name leads to, which is the
  variable itself just when nothing hides it (`main_prints`).  For a model without modules the
  table is that of Euler integration (`main_euler`).
-/
import Libsd.Loader
import Libsd.Sound
import Libsd.VarNames

namespace Libsd

def sdSimGetVarcount (s : SDSim) : ℤ := toInt s.nvars

namespace Mdl

/-- A process that has ended: its exit status and what it has written. -/
structure Exit where
  status : Nat
  stdout : CStr
  stderr : CStr
deriving DecidableEq, Repr

/-- Why `main` does not come to its end. -/
inductive MdlFault where
  | load (why : LoadFault)
  | sim (why : Stop)
deriving DecidableEq, Repr

def EXIT_FAILURE : Nat := 1

/-- `die`, behind what has been written before. -/
def die (stdout stderr msg : CStr) : Exit :=
  { status := EXIT_FAILURE, stdout := stdout, stderr := stderr ++ msg }

def usage (argv0 stderr : CStr) : Exit :=
  die [] stderr (cstr "Usage: " ++ argv0 ++ cstr " [OPTION...] PATH\n" ++
    cstr "Simulate system dynamics models.\n\n" ++
    cstr "Options:\n" ++
    cstr "  -help:\tshow this message\n")

/-- The loop over the arguments, with the path found so far. -/
def mainArgs (argv0 : CStr) : Option CStr → List CStr → Except Exit CStr
  | some path, [] => .ok path
  | none, [] => .error (usage argv0 (cstr "specify a single path to a model\n"))
  | path, arg :: args =>
    if arg = cstr "-help" then .error (usage argv0 [])
    else if arg.head? = some 0x2D then
      .error (usage argv0 (cstr "unknown arg '" ++ arg ++ cstr "'\n"))
    else
      match path with
      | none => mainArgs argv0 (some arg) args
      | some _ => .error (usage argv0 (cstr "specify a single path to a model\n"))

/-- `%d`. -/
def decimal (n : ℤ) : CStr := cstr (toString n)

/-- What stands behind field `v` of a line. -/
def fieldEnd (v : Nat) (nvars : ℤ) : CStr := if (v : ℤ) = nvars - 1 then cstr "\n" else cstr "\t"

/-- The count that `sd_sim_get_series` returns, and the series; the buffer is NULL when there
    is none of that size. -/
def readSeries (s : SDSim) (name : CStr) (nsteps : ℤ) : Except Stop (ℤ × List ℚ) :=
  if nsteps < 0 then .ok (-1, [])
  else
    match sdSimGetSeries s (some name) nsteps.toNat with
    | .ok series => .ok (toInt series.length, series)
    | .error (.err _) => .ok (-1, [])
    | .error why => .error why

/-- The loop over the names, which prints the header while it reads the series; a name that
    is NULL is printed either way. -/
def seriesLoop (s : SDSim) (nvars nsteps : ℤ) :
    Nat → List (Option CStr) → CStr → Except Stop (Except Exit (CStr × List (List ℚ)))
  | _, [], out => .ok (.ok (out, []))
  | _, none :: _, _ => .error (.undefined .nullDeref)
  | v, some name :: names, out => do
    let (n, series) ← readSeries s name nsteps
    if n ≠ nsteps then
      return .error (die out [] (cstr "short series read of " ++ decimal n ++ cstr " for '" ++ name
        ++ cstr "' (" ++ decimal v ++ cstr "/" ++ decimal nvars ++ cstr ")\n"))
    else
      match ← seriesLoop s nvars nsteps (v + 1) names (out ++ name ++ fieldEnd v nvars) with
      | .error e => return .error e
      | .ok (out, results) => return .ok (out, series :: results)

section
variable (percentF : ℚ → CStr)

/-- The values of step `i`, from field `v` on. -/
def printStep (nvars : ℤ) (i : Nat) : Nat → List (List ℚ) → CStr
  | _, [] => []
  | v, series :: results =>
    percentF (series.getD i 0) ++ fieldEnd v nvars ++ printStep nvars i (v + 1) results

/-- What `main` does with the simulation when it has been run. -/
def printResults (s : SDSim) : Except Stop Exit :=
  let nsteps := sdSimGetStepcount s
  let nvars := sdSimGetVarcount s
  -- `calloc` of a negative number of elements
  if nvars < 0 then .ok (die [] [] (cstr "out of memory\n"))
  else do
    let names ← sdSimGetVarnames s nvars.toNat
    if toInt names.length ≠ nvars then
      return die [] [] (cstr "get_varnames unexpected result != " ++ decimal nvars ++ cstr "\n")
    else
      match ← seriesLoop s nvars nsteps 0 names [] with
      | .error e => return e
      | .ok (out, results) =>
        let steps := (List.range nsteps.toNat).map fun i => printStep percentF nvars i 0 results
        return { status := 0, stdout := out ++ steps.flatten, stderr := [] }

/-- Simulating the root model; `sd_sim_run_to_end` returns no error code. -/
def simulate (env : Env) (p : SDProject) : Except Stop Exit :=
  match sdSimNew env p none with
  | .error (.err _) => .ok (die [] [] (cstr "couldn't create simulation context\n"))
  | .error why => .error why
  | .ok s => do
    let s ← sdSimRunToEnd s
    printResults percentF s

/-- `percentF` writes a number as `%f` does, and `fopen` gives what the XML parser makes of
    a file. -/
def main (C : Libc) (env : Env) (fopen : CStr → Option XmlText) (argv0 : CStr)
    (args : List CStr) : Except MdlFault Exit :=
  match mainArgs argv0 none args with
  | .error e => .ok e
  | .ok path =>
    match sdProjectOpen C (fopen path) with
    | .error why => .error (.load why)
    | .ok (.error e) =>
      .ok (die [] [] (cstr "error opening project: " ++ cstr (sdErrorStr e.code) ++ cstr "\n"))
    | .ok (.ok p) => (simulate percentF env p).mapError .sim

end

/-! ### The arguments -/

/-- There is a path just when it is the only argument, and no option. -/
theorem mainArgs_ok_iff {argv0 : CStr} {args : List CStr} {path : CStr} :
    mainArgs argv0 none args = .ok path ↔ args = [path] ∧ path.head? ≠ some 0x2D := by
  have hhelp : (cstr "-help").head? = some 0x2D := by decide +kernel
  cases args with
  | nil => simp [mainArgs]
  | cons arg args =>
    by_cases hopt : arg.head? = some 0x2D
    · have herr : ∃ e, mainArgs argv0 none (arg :: args) = .error e := by
        rw [mainArgs, if_pos hopt]
        split <;> exact ⟨_, rfl⟩
      obtain ⟨e, he⟩ := herr
      rw [he]
      refine iff_of_false (fun h => by cases h) ?_
      rintro ⟨hargs, hpath⟩
      obtain ⟨rfl, -⟩ := List.cons.inj hargs
      exact hpath hopt
    · have hne : arg ≠ cstr "-help" := fun he => hopt (he ▸ hhelp)
      rw [mainArgs, if_neg hne, if_neg hopt]
      cases args with
      | nil =>
        simp only [mainArgs, Except.ok.injEq, List.cons.injEq, and_true]
        exact ⟨fun h => ⟨h, h ▸ hopt⟩, And.left⟩
      | cons arg' args =>
        have herr : ∃ e, mainArgs argv0 (some arg) (arg' :: args) = .error e := by
          rw [mainArgs]
          split
          · exact ⟨_, rfl⟩
          · split <;> exact ⟨_, rfl⟩
        obtain ⟨e, he⟩ := herr
        rw [he]
        simp

/-! ### The table -/

/-- The fields of a line. -/
def line : List CStr → CStr
  | [] => []
  | [f] => f ++ cstr "\n"
  | f :: g :: fs => f ++ cstr "\t" ++ line (g :: fs)

def table (names : List CStr) (rows : List (List CStr)) : CStr :=
  line names ++ (rows.map line).flatten

/-- The column that is read for a name. -/
def columnOf (s : SDSim) (n : CStr) : Option Nat :=
  match resolve s.root (some n) with
  | .ok (some p) => some (s.col p)
  | _ => none

/-- What is printed before a name that leads nowhere, and the complaint about it. -/
def shortRead (names : List CStr) (before : List CStr) : Exit :=
  die (before.map (· ++ cstr "\t")).flatten []
    (cstr "short series read of " ++ decimal (-1) ++ cstr " for '" ++ names.getD before.length [] ++
      cstr "' (" ++ decimal before.length ++ cstr "/" ++ decimal names.length ++ cstr ")\n")

/-- The table of the series that the names lead to, or the complaint about the first name that
    leads nowhere. -/
def printed (percentF : ℚ → CStr) (s : SDSim) (names : List CStr) : Exit :=
  if ∀ n ∈ names, columnOf s n ≠ none then
    { status := 0
      stdout := table names ((List.range s.nsaves).map fun i =>
        names.map fun n => percentF (s.slab i ((columnOf s n).getD 0)))
      stderr := [] }
  else shortRead names (names.takeWhile fun n => (columnOf s n).isSome)

section
variable {s : SDSim} {n : CStr}

theorem readSeries_eq (hw : WellBuilt s) (hsaves : s.nsaves < 2 ^ 31) {r : Option Path}
    (hr : resolve s.root (some n) = .ok r) : readSeries s n s.nsaves = .ok
      (match columnOf s n with
        | some c => ((s.nsaves : ℤ), (List.range s.nsaves).map fun i => s.slab i c)
        | none => (-1, [])) := by
  rw [readSeries, if_neg (by omega), Int.toNat_natCast, columnOf, hr]
  cases r with
  | none =>
    have hne : n ≠ cstr "time" := fun he => by
      rw [he, resolve_time hw] at hr
      cases hr
    simp only [sdSimGetSeries, if_neg hne, hr, bind, Except.bind]
  | some p =>
    have hseries := (readsColumn_of_resolve hw hr s.slab s.step s.saveStep).2 s.nsaves
    have hself : s.moved s.slab s.step s.saveStep = s := rfl
    rw [hself] at hseries
    have hmin : min (s.nsaves + 1) s.nsaves = s.nsaves := min_eq_right (Nat.le_succ _)
    simp only [hseries, SDSim.series, hmin, List.length_map, List.length_range,
      toInt_of_lt hsaves]

/-- The loop up to its end, when every name leads somewhere. -/
theorem seriesLoop_found (hw : WellBuilt s) (hsaves : s.nsaves < 2 ^ 31) {names : List CStr}
    {cols : List Nat} (h : List.Forall₂ (fun n c => columnOf s n = some c) names cols)
    {v nvars : Nat} (hv : v + names.length = nvars) (out : CStr) :
    seriesLoop s nvars s.nsaves v (names.map some) out = .ok (.ok (out ++ line names,
      cols.map fun c => (List.range s.nsaves).map fun i => s.slab i c)) := by
  induction h generalizing v out with
  | nil => simp [seriesLoop, line]
  | @cons n c names cols hc _ ih =>
    obtain ⟨r, hr⟩ : ∃ r, resolve s.root (some n) = .ok r := by
      unfold columnOf at hc
      split at hc
      · exact ⟨_, by assumption⟩
      · cases hc
    have hend : out ++ n ++ fieldEnd v nvars ++ line names = out ++ line (n :: names) := by
      cases names with
      | nil =>
        have hlast : (v : ℤ) = nvars - 1 := by
          simp only [List.length_cons, List.length_nil] at hv
          omega
        simp [fieldEnd, line, hlast]
      | cons m names =>
        have hmore : ¬ (v : ℤ) = nvars - 1 := by
          simp only [List.length_cons] at hv
          omega
        simp [fieldEnd, line, hmore]
    have hrest := ih (v := v + 1) (by simp only [List.length_cons] at hv; omega)
      (out ++ n ++ fieldEnd v nvars)
    simp only [List.map_cons, seriesLoop, readSeries_eq hw hsaves hr, hc, bind, Except.bind, ne_eq,
      not_true_eq_false, if_false, hrest, hend, pure, Except.pure]

/-- The loop up to the first name that leads nowhere. -/
theorem seriesLoop_short (hw : WellBuilt s) (hsaves : s.nsaves < 2 ^ 31) {before after : List CStr}
    (hfound : ∀ m ∈ before, columnOf s m ≠ none) (hn : resolve s.root (some n) = .ok none)
    {v nvars : Nat} (hv : v + (before.length + (after.length + 1)) = nvars) (out : CStr) :
    seriesLoop s nvars s.nsaves v ((before ++ n :: after).map some) out = .ok (.error
      (die (out ++ (before.map (· ++ cstr "\t")).flatten) []
        (cstr "short series read of " ++ decimal (-1) ++ cstr " for '" ++ n ++ cstr "' (" ++
          decimal (v + before.length : Nat) ++ cstr "/" ++ decimal nvars ++ cstr ")\n"))) := by
  induction before generalizing v out with
  | nil =>
    have hnone : columnOf s n = none := by rw [columnOf, hn]
    have hne : (-1 : ℤ) ≠ s.nsaves := by omega
    simp [seriesLoop, readSeries_eq hw hsaves hn, hnone, hne, bind, Except.bind, pure, Except.pure]
  | cons m before ih =>
    obtain ⟨c, hc⟩ := Option.ne_none_iff_exists'.mp (hfound m List.mem_cons_self)
    obtain ⟨r, hr⟩ : ∃ r, resolve s.root (some m) = .ok r := by
      unfold columnOf at hc
      split at hc
      · exact ⟨_, by assumption⟩
      · cases hc
    have hend : fieldEnd v nvars = cstr "\t" :=
      if_neg (by simp only [List.length_cons] at hv; omega)
    have hrest := ih (v := v + 1) (fun k hk => hfound k (List.mem_cons_of_mem m hk))
      (by simp only [List.length_cons] at hv; omega) (out ++ m ++ cstr "\t")
    have hcount : v + 1 + before.length = v + (m :: before).length := by
      rw [List.length_cons]
      omega
    rw [hcount] at hrest
    simp only [List.cons_append, List.map_cons, seriesLoop, readSeries_eq hw hsaves hr, hc, bind,
      Except.bind, ne_eq, not_true_eq_false, if_false, hend, hrest, pure, Except.pure]
    rw [List.flatten_cons]
    simp only [List.append_assoc]

end

/-! ### What is printed -/

section
variable {percentF : ℚ → CStr} {s : SDSim}

/-- One line of the table, from field `v` on. -/
theorem printStep_eq {nvars i : Nat} (hi : i < s.nsaves) (cols : List Nat) {v : Nat}
    (hv : v + cols.length = nvars) :
    printStep percentF nvars i v (cols.map fun c => (List.range s.nsaves).map fun j => s.slab j c) =
      line (cols.map fun c => percentF (s.slab i c)) := by
  induction cols generalizing v with
  | nil => rfl
  | cons c cols ih =>
    have hget : ((List.range s.nsaves).map fun j => s.slab j c).getD i 0 = s.slab i c := by
      simp [hi]
    rw [List.map_cons, printStep, hget, ih (v := v + 1) (by rw [List.length_cons] at hv; omega)]
    cases cols with
    | nil =>
      have hend : fieldEnd v nvars = cstr "\n" :=
        if_pos (by simp only [List.length_cons, List.length_nil] at hv; omega)
      simp [line, hend]
    | cons d cols =>
      have hend : fieldEnd v nvars = cstr "\t" :=
        if_neg (by simp only [List.length_cons] at hv; omega)
      simp [line, hend]

/-- What is left when nothing goes wrong before the first series is read. -/
theorem printResults_of {k n : Nat} {names : List (Option CStr)} (hcount : sdSimGetVarcount s = k)
    (hsteps : sdSimGetStepcount s = n) (hnames : sdSimGetVarnames s k = .ok names)
    (hlen : toInt names.length = k) :
    printResults percentF s = (do
      match ← seriesLoop s k n 0 names [] with
      | .error e => return e
      | .ok (out, results) =>
        let steps := (List.range n).map fun i => printStep percentF k i 0 results
        return { status := 0, stdout := out ++ steps.flatten, stderr := [] }) := by
  have hk : ¬ (k : ℤ) < 0 := by omega
  unfold printResults
  rw [hcount, hsteps]
  simp only [hk, if_false, Int.toNat_natCast, hnames, bind, Except.bind, hlen, ne_eq,
    not_true_eq_false]

theorem printResults_eq (hw : WellBuilt s) (hvars : s.nvars < 2 ^ 31) (hsaves : s.nsaves < 2 ^ 31)
    {names : List CStr} (hlen : names.length = s.nvars)
    (hnames : sdSimGetVarnames s s.nvars = .ok (names.map some))
    (hres : ∀ n ∈ names, ∃ r, resolve s.root (some n) = .ok r) :
    printResults percentF s = .ok (printed percentF s names) := by
  have hcount : sdSimGetVarcount s = s.nvars := toInt_of_lt hvars
  have hsteps : sdSimGetStepcount s = s.nsaves := toInt_of_lt hsaves
  have hnvars : toInt (names.map some).length = s.nvars := by
    rw [List.length_map, hlen, toInt_of_lt hvars]
  rw [printResults_of hcount hsteps hnames hnvars, printed]
  by_cases hall : ∀ n ∈ names, columnOf s n ≠ none
  · rw [if_pos hall]
    have hcols : List.Forall₂ (fun n c => columnOf s n = some c) names
        (names.map fun n => (columnOf s n).getD 0) := by
      refine List.forall₂_map_right_iff.mpr (List.forall₂_same.mpr fun n hn => ?_)
      obtain ⟨c, hc⟩ := Option.ne_none_iff_exists'.mp (hall n hn)
      rw [hc, Option.getD_some]
    have hloop := seriesLoop_found hw hsaves hcols (v := 0) (by rw [Nat.zero_add, hlen]) []
    have hlines : ((List.range s.nsaves).map fun i => printStep percentF s.nvars i 0
        ((names.map fun n => (columnOf s n).getD 0).map fun c =>
          (List.range s.nsaves).map fun j => s.slab j c)) =
        ((List.range s.nsaves).map fun i =>
          names.map fun n => percentF (s.slab i ((columnOf s n).getD 0))).map line := by
      rw [List.map_map (f := fun i => names.map _)]
      refine List.map_congr_left fun i hi => ?_
      rw [printStep_eq (List.mem_range.mp hi) _ (by rw [Nat.zero_add, List.length_map, hlen]),
        List.map_map]
      rfl
    simp only [hloop, List.nil_append, pure, Except.pure, bind, Except.bind, hlines, table]
  · rw [if_neg hall]
    have hsplit :=
      List.takeWhile_append_dropWhile (p := fun n => (columnOf s n).isSome) (l := names)
    cases hrest : names.dropWhile fun n => (columnOf s n).isSome with
    | nil =>
      refine absurd (fun n hn => ?_) hall
      have := List.dropWhile_eq_nil_iff.mp hrest n hn
      rwa [Option.isSome_iff_ne_none] at this
    | cons n after =>
      have hnone : columnOf s n = none := by
        have hhead := List.head?_dropWhile_not (fun n => (columnOf s n).isSome) names
        rw [hrest] at hhead
        simpa using hhead
      have hmem : n ∈ names := by
        rw [← hsplit, hrest]
        exact List.mem_append_right _ List.mem_cons_self
      have hn : resolve s.root (some n) = .ok none := by
        obtain ⟨r, hr⟩ := hres n hmem
        cases r with
        | none => exact hr
        | some p => simp [columnOf, hr] at hnone
      rw [hrest] at hsplit
      generalize hbefore : names.takeWhile (fun n => (columnOf s n).isSome) = before at hsplit ⊢
      have hfound : ∀ m ∈ before, columnOf s m ≠ none := fun m hm => by
        rw [← hbefore] at hm
        have hsome := List.mem_takeWhile_imp (p := fun n => (columnOf s n).isSome) hm
        exact Option.isSome_iff_ne_none.mp hsome
      have hget : names.getD before.length [] = n := by
        rw [← hsplit]
        simp
      have hcount : 0 + (before.length + (after.length + 1)) = s.nvars := by
        rw [← hlen, ← hsplit]
        simp
      have hloop := seriesLoop_short hw hsaves hfound hn hcount []
      rw [hsplit, List.nil_append, Nat.zero_add] at hloop
      simp only [hloop, bind, Except.bind, pure, Except.pure]
      rw [shortRead, hget, hlen]

end

/-! ### A file to try -/

/-- An element without attributes. -/
def tagged (name : String) (items : List XmlItem) : XmlItem := .element (cstr name) [] items

/-- The file of `growth`. -/
def growthFile : XmlItem :=
  tagged "xmile" [
    tagged "sim_specs" [
      tagged "start" [.text (cstr "0")], tagged "stop" [.text (cstr "4")],
      tagged "dt" [.text (cstr "1")], tagged "savestep" [.text (cstr "2")]],
    tagged "model" [
      tagged "variables" [
        .element (cstr "stock") [(cstr "name", cstr "Population")]
          [tagged "eqn" [.text (cstr "100")], tagged "inflow" [.text (cstr "births")]],
        .element (cstr "flow") [(cstr "name", cstr "births")]
          [tagged "eqn" [.text (cstr "population / 10")]]]]]

theorem growthFile_open :
    sdProjectOpen plainLibc (some ⟨growthFile.events, false⟩) =
      .ok (.ok (growth ⟨0, 4, 1, 2⟩)) := by
  decide +kernel

/-- `%f`, on numbers that six decimals are enough for. -/
def sixDecimals (q : ℚ) : CStr :=
  let n := ⌊|q| * 10 ^ 6⌋.toNat
  let decimals := (toString (10 ^ 6 + n % 10 ^ 6)).drop 1
  (if q < 0 then cstr "-" else []) ++ cstr (toString (n / 10 ^ 6)) ++ cstr "." ++
    cstr decimals.toString

example : (sixDecimals (-121 / 4)) = cstr "-30.250000" := by decide +kernel

theorem growth_plain (simSpecs : SimSpec) : (growth simSpecs).PlainNames := by
  intro f hf m hm
  obtain rfl : f = _ := List.mem_singleton.mp hf
  obtain rfl : m = _ := List.mem_singleton.mp hm
  refine ⟨fun v hv => ?_, by decide +kernel⟩
  simp only [List.mem_cons, List.not_mem_nil, or_false] at hv
  rcases hv with rfl | rfl <;> exact ⟨_, rfl, by decide +kernel⟩

/-! ### A project on the command line -/

theorem simulate_eq {percentF : ℚ → CStr} {env : Env} {p : SDProject} {s t : SDSim}
    (hnew : sdSimNew env p none = .ok s) (hrun : sdSimRunToEnd s = .ok t) :
    simulate percentF env p = printResults percentF t := by
  rw [simulate, hnew]
  simp only [hrun, bind, Except.bind]

/-- `main` for the one path of a project that can be run to its end. -/
theorem main_eq {percentF : ℚ → CStr} {C : Libc} {env : Env} {fopen : CStr → Option XmlText}
    {argv0 path : CStr} {p : SDProject} {s t : SDSim} {e : Exit} (hpath : path.head? ≠ some 0x2D)
    (hopen : sdProjectOpen C (fopen path) = .ok (.ok p)) (hnew : sdSimNew env p none = .ok s)
    (hrun : sdSimRunToEnd s = .ok t) (hprint : printResults percentF t = .ok e) :
    main percentF C env fopen argv0 [path] = .ok e := by
  have hargs : mainArgs argv0 none [path] = .ok path := mainArgs_ok_iff.mpr ⟨rfl, hpath⟩
  rw [main, hargs]
  dsimp only
  rw [hopen]
  dsimp only
  rw [simulate_eq hnew hrun, hprint]
  rfl

mutual
/-- Among named variables every search comes to an end. -/
theorem resolveSub_ok (sub : CStr) : ∀ {av : AVar}, Plain av.avars → PlainBelow av.avars →
    ∃ r, resolveSub sub av = .ok r
  | .var _ _, _, _ => ⟨none, rfl⟩
  | .module _ avars, hplain, hbelow =>
    resolveLoop_ok (skipDot sub) 0 hplain.named fun av hav => by
      obtain ⟨i, hi⟩ := List.mem_iff_getElem?.mp hav
      exact hbelow.child hi

theorem resolveLoop_ok (name : CStr) : ∀ (i : Nat) {avars : List AVar}, (∀ av ∈ avars, av.Named) →
    (∀ av ∈ avars, Plain av.avars ∧ PlainBelow av.avars) → ∃ r, resolveLoop name i avars = .ok r
  | _, [], _, _ => ⟨none, rfl⟩
  | i, av :: rest, hn, hbelow => by
    have hcons := resolveLoop_cons name i rest (hn av List.mem_cons_self)
    by_cases hhit : Hits name av
    · by_cases hent : Enters name av
      · obtain ⟨head, sub, hsplit, hm, hpre⟩ := hent
        obtain ⟨hplain, hchild⟩ := hbelow av List.mem_cons_self
        obtain ⟨r, hr⟩ := resolveSub_ok sub hplain hchild
        exact ⟨_, by rw [hcons.1 head sub hsplit hm hpre, hr]; rfl⟩
      · exact ⟨_, hcons.2.1 hent (hhit.resolve_left hent)⟩
    · rw [hcons.2.2 hhit]
      exact resolveLoop_ok name (i + 1) (fun b hb => hn b (List.mem_cons_of_mem av hb))
        fun b hb => hbelow b (List.mem_cons_of_mem av hb)
end

theorem resolve_ok {root : List AVar} (hn : ∀ av ∈ root, av.Named) (h : PlainBelow root)
    (n : CStr) : ∃ r, resolve root (some n) = .ok r :=
  resolveLoop_ok (skipDot n) 0 hn fun av hav => by
    obtain ⟨i, hi⟩ := List.mem_iff_getElem?.mp hav
    exact h.child hi

/-- The names of the columns, in their order. -/
def labels (s : SDSim) : List CStr := (columnsFrom s.store [] 0 s.root).map (dotted s.root)

section
variable {s t : SDSim}

theorem columnOf_moved (h : s.MovedTo t) : columnOf t = columnOf s := by
  obtain ⟨slab, j, m, rfl⟩ := h
  rfl

/-- The name of a variable leads to its own column just when it leads to the variable. -/
theorem columnOf_dotted_iff (hw : WellBuilt s) (hn : ∀ av ∈ s.root, av.Named)
    (h : PlainBelow s.root) {q : Path} (hq : IsColumn s.root s.store q) :
    columnOf s (dotted s.root q) = some (s.col q) ↔ Findable s.root q := by
  obtain ⟨v, n, hv, -⟩ := id hq
  rw [← resolve_dotted_iff hn h hv]
  constructor
  · intro hcol
    rw [columnOf] at hcol
    split at hcol
    · next p hp =>
      rw [hp]
      have hoff : s.col p = s.col q := Option.some.inj hcol
      by_cases hown : IsColumn s.root s.store p
      · rw [hw.numbered.inj p q hown hq hoff]
      · -- what has no column of its own is read in that of `time`
        have hzero : s.col q = 0 := hoff.symm.trans (hw.numbered.zero p hown)
        obtain rfl : q = [0] := by
          by_contra hne
          exact hw.numbered.ne_zero hq hne hzero
        have hdot : dotted s.root [0] = cstr "time" := by rw [dotted_cons hw.time]; rfl
        rw [hdot, resolve_time hw] at hp
        exact hp.symm
    · cases hcol
  · intro hres
    rw [columnOf, hres]

theorem labels_spec {env : Env} {p : SDProject} {model : Option CStr} (hnames : p.PlainNames)
    (hnew : sdSimNew env p model = .ok s) :
    (∀ av ∈ s.root, av.Named) ∧ PlainBelow s.root ∧
      InOffsetOrder s.root s.store s.nvars (columnsFrom s.store [] 0 s.root) ∧
      sdSimGetVarnames s s.nvars = .ok ((labels s).map some) := by
  obtain ⟨specs, m, s0, hmodel, hbuilt, -, -, hreset⟩ := sdSimNew_cases hnew
  obtain ⟨f, hf, hm⟩ := sdProjectGetModel_mem hmodel
  obtain ⟨-, hsame⟩ := sdSimReset_isReset hbuilt.wellBuilt hreset
  obtain ⟨hn, hbelow⟩ := root_plain hnames (hnames f hf m hm) hbuilt.root
  obtain ⟨st, hst, hoff⟩ := hbuilt.store
  have horder := columns_inOffsetOrder hbuilt.root hst hoff
  rw [← hsame.root] at hn hbelow
  rw [← hsame.root, ← hsame.store, ← hsame.nvars] at horder
  refine ⟨hn, hbelow, horder, ?_⟩
  have hroot : ∀ k, s.root[k]? = (avarsAt s.root [])[0 + k]? := fun k => by
    rw [Nat.zero_add]
    rfl
  have hall : moduleGetVarnames s.root s.store [] 0 s.root s.nvars =
      .ok (((columnsFrom s.store [] 0 s.root).take s.nvars).map fun p => some (dotted s.root p)) :=
    moduleGetVarnames_eq hn hbelow hroot
  rw [List.take_of_length_le horder.length_eq.le] at hall
  rw [sdSimGetVarnames, labels, List.map_map]
  split
  · next h0 =>
    have hnil : columnsFrom s.store [] 0 s.root = [] :=
      List.eq_nil_of_length_eq_zero (horder.length_eq.trans h0)
    rw [hnil]
    rfl
  · exact hall

end

/-- For names that are there, have no dots and are different in each model, `mdl` prints, under
    the name of each variable, what the name leads to, and complains about the first name that
    leads nowhere.  The table is that of the variables themselves just
    when no earlier sibling hides one of them, or a module around it. -/
theorem main_prints {percentF : ℚ → CStr} {C : Libc} {env : Env} {fopen : CStr → Option XmlText}
    {argv0 path : CStr} {p : SDProject} {s t : SDSim} (hpath : path.head? ≠ some 0x2D)
    (hopen : sdProjectOpen C (fopen path) = .ok (.ok p)) (hnames : p.PlainNames)
    (hnew : sdSimNew env p none = .ok s) (hrun : sdSimRunToEnd s = .ok t)
    (hvars : s.nvars < 2 ^ 31) (hsaves : s.nsaves < 2 ^ 31) :
    main percentF C env fopen argv0 [path] = .ok (printed percentF t (labels s)) ∧
    (∀ q, IsColumn s.root s.store q →
      (columnOf t (dotted s.root q) = some (s.col q) ↔ Findable s.root q)) ∧
    ((∀ q, IsColumn s.root s.store q → Findable s.root q) →
      printed percentF t (labels s) =
        { status := 0
          stdout := table (labels s) ((List.range s.nsaves).map fun i =>
            (List.range s.nvars).map fun c => percentF (t.slab i c))
          stderr := [] }) := by
  obtain ⟨hn, hbelow, horder, hlabels⟩ := labels_spec hnames hnew
  have hmoved : s.MovedTo t := runLoop_moved hrun
  have hw := (sdSimNew_isReset hnew).1.built
  have hlen : (labels s).length = s.nvars := by rw [labels, List.length_map, horder.length_eq]
  refine ⟨?_, fun q hq => ?_, fun hfind => ?_⟩
  · obtain ⟨slab, j, m, rfl⟩ := hmoved
    refine main_eq hpath hopen hnew hrun ?_
    exact printResults_eq ((moved_sameSetup slab j m).wellBuilt hw) hvars hsaves hlen hlabels
      fun n _ => resolve_ok hn hbelow n
  · rw [columnOf_moved hmoved]
    exact columnOf_dotted_iff hw hn hbelow hq
  · have hcol : ∀ q ∈ columnsFrom s.store [] 0 s.root,
        columnOf t (dotted s.root q) = some (s.col q) := fun q hq => by
      have hcolumn := (isColumn_iff (hw.compiled q)).mpr ((horder.mem_iff q).mp hq)
      rw [columnOf_moved hmoved]
      exact (columnOf_dotted_iff hw hn hbelow hcolumn).mpr (hfind q hcolumn)
    have hfound : ∀ n ∈ labels s, columnOf t n ≠ none := by
      intro n hmem
      obtain ⟨q, hq, rfl⟩ := List.mem_map.mp hmem
      rw [hcol q hq]
      exact Option.some_ne_none _
    have hrange : (columnsFrom s.store [] 0 s.root).map s.col = List.range s.nvars := by
      refine List.ext_getElem (by rw [List.length_map, List.length_range, horder.length_eq]) ?_
      intro i h1 h2
      rw [List.getElem_map, List.getElem_range]
      exact horder.offset i _ (List.getElem?_eq_getElem _)
    have hsteps : t.nsaves = s.nsaves := by
      obtain ⟨slab, j, m, rfl⟩ := hmoved
      rfl
    rw [printed, if_pos hfound, hsteps, ← hrange]
    congr 2
    refine List.map_congr_left fun i _ => ?_
    rw [labels, List.map_map, List.map_map]
    refine List.map_congr_left fun q hq => ?_
    simp only [Function.comp_apply, hcol q hq, Option.getD_some]

theorem main_prints_growth : ∃ s t, sdSimNew (.plain true) (growth ⟨0, 4, 1, 2⟩) none = .ok s ∧
    sdSimRunToEnd s = .ok t ∧
    main sixDecimals plainLibc (.plain true) (fun _ => some ⟨growthFile.events, false⟩)
      (cstr "mdl") [cstr "growth.xmile"] = .ok (printed sixDecimals t (labels s)) := by
  obtain ⟨⟨s, t⟩, hrun, hP⟩ := exists_ok
    (x := do
      let s ← sdSimNew (.plain true) (growth ⟨0, 4, 1, 2⟩) none
      let t ← sdSimRunToEnd s
      return (s, t))
    (P := fun r => decide (r.1.nvars < 2 ^ 31 ∧ r.1.nsaves < 2 ^ 31)) (by decide +kernel)
  obtain ⟨s', hnew, hrun⟩ := Outcome.bind_eq_ok hrun
  obtain ⟨t', hend, hpair⟩ := Outcome.bind_eq_ok hrun
  cases hpair
  obtain ⟨hvars, hsaves⟩ := of_decide_eq_true hP
  exact ⟨s, t, hnew, hend, (main_prints (by decide +kernel) growthFile_open (growth_plain _) hnew
    hend hvars hsaves).1⟩

/-- The names of the columns of a model without modules. -/
def flatLabels (model : SDModel) : List CStr := cstr "time" :: model.vars.filterMap (·.name)

theorem mem_flatLabels {model : SDModel} {n : CStr} : n ∈ flatLabels model ↔ model.Has n := by
  simp only [flatLabels, List.mem_cons, List.mem_filterMap, SDModel.Has]

section
variable {model : SDModel} {s : SDSim}

/-- Without modules the names are those of the children of the root. -/
theorem moduleGetVarnames_flat {root avars : List AVar} {st : Store} (hsrc : ∀ p, (st p).src = none)
    (hflat : ∀ av ∈ avars, av.isModule = false) : ∀ {i max : Nat},
    (∀ k, avars[k]? = root[i + k]?) → avars.length ≤ max →
    moduleGetVarnames root st [] i avars max = .ok (avars.map (·.v.name)) := by
  induction avars with
  | nil => exact fun _ _ => rfl
  | cons av rest ih =>
    intro i max hroot hmax
    simp only [List.length_cons] at hmax
    have hhead : avarAt root [i] = some av := by
      rw [avarAt_cons]
      exact (hroot 0).symm
    have hname : avarGetVarnames root st ([] ++ [i]) av max = .ok [av.v.name] := by
      cases av with
      | module => exact absurd (hflat _ List.mem_cons_self) (by simp [AVar.isModule])
      | var v n =>
        simp [avarGetVarnames, hsrc, avarQualName, hhead, bind, Except.bind, pure, Except.pure,
          AVar.v]
    have hrest : moduleGetVarnames root st [] (i + 1) rest (max - 1) =
        .ok (rest.map (·.v.name)) :=
      ih (fun b hb => hflat b (List.mem_cons_of_mem av hb)) (fun k => by
        rw [Nat.add_assoc, Nat.add_comm 1 k]
        exact hroot (k + 1)) (by omega)
    simp only [moduleGetVarnames, if_neg (show ¬ max = 0 by omega), hname, bind, Except.bind,
      List.length_singleton, hrest, pure, Except.pure]
    rfl

theorem flat_names (h : FlatOf model s) :
    s.root.map (·.v.name) = (flatLabels model).map some := by
  have hvars : ∀ vars : List Var, (∀ v ∈ vars, v.name ≠ none) →
      vars.map (·.name) = (vars.filterMap (·.name)).map some := by
    intro vars hnone
    induction vars with
    | nil => rfl
    | cons v vars ih =>
      obtain ⟨n, hv⟩ := Option.ne_none_iff_exists'.mp (hnone v List.mem_cons_self)
      rw [List.map_cons, hv, List.filterMap_cons_some hv, List.map_cons,
        ih fun w hw => hnone w (List.mem_cons_of_mem v hw)]
  rw [h.root, SDModel.flatRoot, List.map_cons, List.map_map, flatLabels, List.map_cons,
    ← hvars model.vars h.named.name]
  rfl

theorem flat_varnames (h : FlatOf model s) (hn : s.nvars = model.vars.length + 1) :
    sdSimGetVarnames s s.nvars = .ok ((flatLabels model).map some) := by
  have hnames := flat_names h
  have hlen : s.root.length ≤ s.nvars := by
    rw [hn, h.root, SDModel.flatRoot, List.length_cons, List.length_map]
  rw [sdSimGetVarnames, if_neg (by omega), ← hnames]
  exact moduleGetVarnames_flat h.sim.src h.sim.flat (fun k => by rw [Nat.zero_add]) hlen

/-- Every variable has a column. -/
theorem columnCount_flat {avars : List AVar} (hflat : ∀ av ∈ avars, av.isModule = false)
    (href : ∀ av ∈ avars, av.v.type ≠ .ref) : columnCount avars = avars.length := by
  induction avars with
  | nil => rfl
  | cons av rest ih =>
    have hone : av.columnCount = 1 := by
      cases av with
      | module => exact absurd (hflat _ List.mem_cons_self) (by simp [AVar.isModule])
      | var v n => exact if_neg (href (.var v n) List.mem_cons_self)
    rw [columnCount, hone, ih (fun b hb => hflat b (List.mem_cons_of_mem av hb))
      fun b hb => href b (List.mem_cons_of_mem av hb), List.length_cons, Nat.add_comm]

theorem flat_nvars {env : Env} {p : SDProject} {name : Option CStr} (h : FlatOf model s)
    (hnew : sdSimNew env p name = .ok s) : s.nvars = model.vars.length + 1 := by
  obtain ⟨specs, m, s0, -, hbuilt, -, -, hreset⟩ := sdSimNew_cases hnew
  obtain ⟨-, hsame⟩ := sdSimReset_isReset hbuilt.wellBuilt hreset
  rw [hsame.nvars, hbuilt.nvars_eq, ← hsame.root, columnCount_flat h.sim.flat ?_, h.root,
    SDModel.flatRoot, List.length_cons, List.length_map]
  intro av hav
  obtain ⟨i, hi⟩ := List.getElem?_of_mem hav
  rcases h.root_cases hi with ⟨-, rfl⟩ | ⟨k, v, -, hv, rfl⟩
  · exact fun htime => VarType.noConfusion htime
  · exact (h.compiled hv).1

end

/-! ### The table of Euler integration -/

/-- After a run to the end the rows are those of the trajectory, also on a slab that has just
    the rows that are accessed. -/
theorem euler_rows_fits {env : Env} {p : SDProject} {name : Option CStr} {specs : SimSpec}
    {model : SDModel} {s : SDSim} (hmodel : sdProjectGetModel p name = some (specs, model))
    (hclosed : model.Closed) (hargs : ∀ v ∈ model.vars, v.tree.Everywhere Node.ArgsFit)
    (hnew : sdSimNew env p name = .ok s) (hfit : env.bounded = false ∨ SlabFits s)
    (hf : 0 < specs.dt ∨ specs.start ≤ specs.stop + 1 ∨ s.nsaves ≤ 1) :
    ∃ t, sdSimRunToEnd s = .ok t ∧ (∃ σ, Euler env specs model σ) ∧
      ∀ σ, Euler env specs model σ → ∀ i < s.nsaves,
        t.slab i TIME = σ (i * s.saveEvery) (cstr "time") ∧
        ∀ k v n, model.vars[k]? = some v → v.name = some n →
          t.slab i (s.col [k + 1]) = σ (i * s.saveEvery) n := by
  have h := sdSimNew_evaluable hmodel hclosed hargs hnew
  obtain ⟨hreset, rfl⟩ := sdSimNew_isReset hnew
  have hspec : s.spec = specs := hreset.spec.trans (sdSimNew_simSpecs hnew hmodel)
  subst hspec
  obtain ⟨t, hrun⟩ := h.steady.returns hfit [.runToEnd]
  obtain ⟨t', ht, hrun⟩ := Outcome.bind_eq_ok hrun
  obtain rfl := Except.ok.inj hrun
  refine ⟨t', ht, h.exists_euler, fun σ hσ i hi => ?_⟩
  have hagrees := h.saved_agrees hf ht hσ hi
  exact ⟨h.of.agrees_time hagrees, fun k v n hv hn => h.of.agrees_var hagrees hv hn⟩

/-- What `mdl` prints when the rows that the simulation saves are known. -/
theorem main_of_rows {percentF : ℚ → CStr} {C : Libc} {env : Env}
    {fopen : CStr → Option XmlText} {argv0 path : CStr} {p : SDProject} {model : SDModel}
    {s t : SDSim} (h : Evaluable model s) (hpath : path.head? ≠ some 0x2D)
    (hopen : sdProjectOpen C (fopen path) = .ok (.ok p)) (hnew : sdSimNew env p none = .ok s)
    (hdot : ∀ v ∈ model.vars, ∀ n, v.name = some n → n.head? ≠ some 0x2E)
    (hrun : sdSimRunToEnd s = .ok t) (hvars : model.vars.length + 1 < 2 ^ 31)
    (hsaves : s.nsaves < 2 ^ 31) {σ : Nat → CStr → ℚ}
    (hrows : ∀ i < s.nsaves, t.slab i TIME = σ (i * s.saveEvery) (cstr "time") ∧
      ∀ k v n, model.vars[k]? = some v → v.name = some n →
        t.slab i (s.col [k + 1]) = σ (i * s.saveEvery) n) :
    main percentF C env fopen argv0 [path] = .ok
      { status := 0
        stdout := table (flatLabels model) ((List.range s.nsaves).map fun i =>
          (flatLabels model).map fun n => percentF (σ (i * s.saveEvery) n))
        stderr := [] } := by
  have hn := flat_nvars h.of hnew
  have hskip : ∀ n ∈ flatLabels model, skipDot n = n := by
    intro n hmem
    have hhead : n.head? ≠ some 0x2E := by
      rcases mem_flatLabels.mp hmem with rfl | ⟨v, hv, hname⟩
      · decide +kernel
      · exact hdot v hv n hname
    cases n with
    | nil => rfl
    | cons c n => exact if_neg fun hc => hhead (congrArg some hc)
  have hmoved : s.MovedTo t := runLoop_moved hrun
  have hcol : ∀ n ∈ flatLabels model, ∃ c, columnOf t n = some c ∧
      ∀ i < s.nsaves, t.slab i c = σ (i * s.saveEvery) n := by
    intro n hmem
    obtain ⟨i, av, hav, hname, hres⟩ := h.resolve_has (n := n) (by
      rw [hskip n hmem]
      exact mem_flatLabels.mp hmem)
    rw [hskip n hmem] at hname
    refine ⟨s.col [i], by rw [columnOf_moved hmoved, columnOf, hres], fun j hj => ?_⟩
    obtain ⟨htime, hvar⟩ := hrows j hj
    rcases h.of.root_cases hav with ⟨rfl, rfl⟩ | ⟨k, v, rfl, hv, rfl⟩
    · obtain rfl : cstr "time" = n := Option.some.inj hname
      rw [show s.col [0] = TIME from h.reset.built.numbered.time.2]
      exact htime
    · exact hvar k v n hv hname
  have hlabels := flat_varnames h.of hn
  have hlen : (flatLabels model).length = s.nvars := by
    have hcount := congrArg List.length (flat_names h.of)
    rw [List.length_map, List.length_map, h.of.root, SDModel.flatRoot, List.length_cons,
      List.length_map] at hcount
    rw [hn, hcount]
  have hprint : printResults percentF t = .ok (printed percentF t (flatLabels model)) := by
    have hw := hmoved.sameSetup.wellBuilt h.reset.built
    obtain ⟨slab, j, m, rfl⟩ := hmoved
    exact printResults_eq hw (hn ▸ hvars) hsaves hlen hlabels fun n _ => ⟨_, h.of.resolve_eq n⟩
  have hfound : ∀ n ∈ flatLabels model, columnOf t n ≠ none := fun n hn => by
    obtain ⟨c, hc, -⟩ := hcol n hn
    rw [hc]
    exact Option.some_ne_none c
  have hsteps : t.nsaves = s.nsaves := by
    obtain ⟨slab, j, m, rfl⟩ := hmoved
    rfl
  have htable : ((List.range t.nsaves).map fun i =>
      (flatLabels model).map fun n => percentF (t.slab i ((columnOf t n).getD 0))) =
      (List.range s.nsaves).map fun i =>
        (flatLabels model).map fun n => percentF (σ (i * s.saveEvery) n) := by
    rw [hsteps]
    refine List.map_congr_left fun i hi => List.map_congr_left fun n hn => ?_
    obtain ⟨c, hc, hval⟩ := hcol n hn
    rw [hc, Option.getD_some, hval i (List.mem_range.mp hi)]
  rw [main_eq hpath hopen hnew hrun hprint, printed, if_pos hfound, htable]

/-- For a closed model (no table on a number, no call with more than six arguments) without
    leading dots in its names, on a slab that has the rows, `mdl` prints the table of Euler
    integration: a line for each step that is saved, and under each name its values. -/
theorem main_euler {percentF : ℚ → CStr} {C : Libc} {env : Env} {fopen : CStr → Option XmlText}
    {argv0 path : CStr} {p : SDProject} {specs : SimSpec} {model : SDModel} {s : SDSim}
    (hpath : path.head? ≠ some 0x2D) (hopen : sdProjectOpen C (fopen path) = .ok (.ok p))
    (hmodel : sdProjectGetModel p none = some (specs, model)) (hclosed : model.Closed)
    (hargs : ∀ v ∈ model.vars, v.tree.Everywhere Node.ArgsFit)
    (hdot : ∀ v ∈ model.vars, ∀ n, v.name = some n → n.head? ≠ some 0x2E)
    (hnew : sdSimNew env p none = .ok s) (hfit : env.bounded = false ∨ SlabFits s)
    (hf : 0 < specs.dt ∨ specs.start ≤ specs.stop + 1 ∨ s.nsaves ≤ 1)
    (hvars : model.vars.length + 1 < 2 ^ 31) (hsaves : s.nsaves < 2 ^ 31) :
    (∃ σ, Euler env specs model σ) ∧ ∀ σ, Euler env specs model σ →
      main percentF C env fopen argv0 [path] = .ok
        { status := 0
          stdout := table (flatLabels model) ((List.range s.nsaves).map fun i =>
            (flatLabels model).map fun n => percentF (σ (i * s.saveEvery) n))
          stderr := [] } := by
  have h := sdSimNew_evaluable hmodel hclosed hargs hnew
  obtain ⟨t, hrun, hex, hrows⟩ := euler_rows_fits hmodel hclosed hargs hnew hfit hf
  exact ⟨hex, fun σ hσ => main_of_rows h hpath hopen hnew hdot hrun hvars hsaves (hrows σ hσ)⟩

theorem main_euler_growth : ∃ s, sdSimNew (.plain true) (growth ⟨0, 4, 1, 2⟩) none = .ok s ∧
    ∀ σ, Euler (.plain true) ⟨0, 4, 1, 2⟩ growthModel σ →
      main sixDecimals plainLibc (.plain true) (fun _ => some ⟨growthFile.events, false⟩)
        (cstr "mdl") [cstr "growth.xmile"] = .ok
        { status := 0
          stdout := table (flatLabels growthModel) ((List.range s.nsaves).map fun i =>
            (flatLabels growthModel).map fun n => sixDecimals (σ (i * s.saveEvery) n))
          stderr := [] } := by
  obtain ⟨s, hnew, hs⟩ := exists_ok (x := sdSimNew (.plain true) (growth ⟨0, 4, 1, 2⟩) none)
    (P := fun s => decide (s.saveEvery ∣ s.nsteps - 1 ∧ s.nsaves < 2 ^ 31)) (by decide +kernel)
  obtain ⟨hdiv, hsaves⟩ := of_decide_eq_true hs
  exact ⟨s, hnew, (main_euler (by decide +kernel) growthFile_open rfl growthModel_closed
    growthModel_argsFit (by decide +kernel) hnew (.inr (.inl hdiv)) (.inl (by decide)) (by decide)
    hsaves).2⟩

example : main sixDecimals plainLibc (.plain true)
    (fun _ => some ⟨growthFile.events, false⟩) (cstr "mdl") [cstr "growth.xmile"] = .ok
    { status := 0
      stdout := cstr "time\tpopulation\tbirths\n0.000000\t100.000000\t10.000000\n" ++
        cstr "2.000000\t121.000000\t12.100000\n4.000000\t146.410000\t14.641000\n"
      stderr := [] } := by
  decide +kernel

end Mdl

end Libsd

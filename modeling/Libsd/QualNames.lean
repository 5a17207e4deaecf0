/-
  Libsd/QualNames.lean
  ====================
  **Qualified names, and whether `resolve` leads back from them.**

  `avar_qual_name` joins the names of the modules around a variable with dots, and
  `resolve` takes such a name apart again.  For each part it commits itself to the
  first module whose name *starts* with that part, so the way back is found exactly
  when no module on it has an earlier sibling of a longer name (`qualName_iff`).
-/
import Libsd.NamedResults
import Mathlib.Data.List.TakeWhile

namespace Libsd

open Outcome

/-- The name for the path that is given backwards, from the variable up to the root. -/
def avarQualName (root : List AVar) : List Nat → Except Stop (Option CStr)
  | [] => .ok (some (cstr "<main>"))
  | [i] => .ok ((avarAt root [i]).bind (·.v.name))
  | i :: j :: up => do
    match ← avarQualName root (j :: up) with
    | none => return none
    | some parent =>
      match (avarAt root (i :: j :: up).reverse).bind (·.v.name) with
      | none => .error (.undefined .nullDeref)
      | some name => return some (parent ++ 0x2E :: name)

mutual
def avarGetVarnames (root : List AVar) (st : Store) (path : Path) :
    AVar → Nat → Except Stop (List (Option CStr))
  | .module _ avars, max => moduleGetVarnames root st path 0 avars max
  | .var _ _, _ =>
    if (st path).src.isNone then do
      let name ← avarQualName root path.reverse
      return [name]
    else .ok []

/-- The loop of `module_get_varnames`, with the room that is left in `result`. -/
def moduleGetVarnames (root : List AVar) (st : Store) (base : Path) :
    Nat → List AVar → Nat → Except Stop (List (Option CStr))
  | _, [], _ => .ok []
  | i, av :: rest, max =>
    if max = 0 then .ok []
    else do
      let names ← avarGetVarnames root st (base ++ [i]) av max
      let more ← moduleGetVarnames root st base (i + 1) rest (max - names.length)
      return names ++ more
end

def sdSimGetVarnames (s : SDSim) (max : Nat) : Except Stop (List (Option CStr)) :=
  if max = 0 then .ok [] else moduleGetVarnames s.root s.store [] 0 s.root max

/-! ### Names without dots -/

def AVar.Named (av : AVar) : Prop := ∃ n, av.v.name = some n ∧ 0x2E ∉ n

/-- Variables with names that contain no dot, no two of them the same. -/
structure SDModel.PlainNames (model : SDModel) : Prop where
  named : ∀ v ∈ model.vars, ∃ n, v.name = some n ∧ 0x2E ∉ n
  nodup : (model.vars.map (·.name)).Nodup

def SDProject.PlainNames (p : SDProject) : Prop := ∀ f ∈ p.files, ∀ m ∈ f.models, m.PlainNames

structure Plain (avars : List AVar) : Prop where
  named : ∀ av ∈ avars, av.Named
  nodup : (avars.map (·.v.name)).Nodup

/-- The children of every module below are like that. -/
def PlainBelow (avars : List AVar) : Prop := ∀ p av, avarAt avars p = some av → Plain av.avars

def AVar.label (av : AVar) : CStr := av.v.name.getD []

/-- The names along a path, joined by dots. -/
def dotted : List AVar → Path → CStr
  | _, [] => []
  | avars, i :: rest =>
    match avars[i]? with
    | none => []
    | some av => if rest.isEmpty then av.label else av.label ++ 0x2E :: dotted av.avars rest

variable {avars root : List AVar}

theorem AVar.Named.label {av : AVar} (h : av.Named) :
    av.v.name = some av.label ∧ 0x2E ∉ av.label := by
  obtain ⟨n, hn, hdot⟩ := h
  simpa [AVar.label, hn] using hdot

theorem dotted_cons {i : Nat} {av : AVar} (h : avars[i]? = some av) (rest : Path) :
    dotted avars (i :: rest) =
      if rest.isEmpty then av.label else av.label ++ 0x2E :: dotted av.avars rest := by
  rw [dotted, h]

theorem dotted_child {p : Path} {av c : AVar} {i : Nat} (h : avarAt avars p = some av)
    (hc : av.avars[i]? = some c) : dotted avars (p ++ [i]) = dotted avars p ++ 0x2E :: c.label := by
  induction p generalizing avars with
  | nil => simp [avarAt] at h
  | cons j p ih =>
    rw [avarAt_cons] at h
    split at h
    · next hp =>
      obtain rfl := List.isEmpty_iff.mp hp
      rw [List.cons_append, dotted_cons h, dotted_cons h, List.nil_append, dotted_cons hc]
      simp
    · next hp =>
      obtain ⟨b, hb, hrest⟩ := Option.bind_eq_some_iff.mp h
      rw [List.cons_append, dotted_cons hb, dotted_cons hb, ih hrest]
      simp [hp]

theorem PlainBelow.child {i : Nat} {av : AVar} (h : PlainBelow avars) (hav : avars[i]? = some av) :
    Plain av.avars ∧ PlainBelow av.avars := by
  refine ⟨h [i] av (by simp [avarAt_cons, hav]), fun p c hc => h (i :: p) c ?_⟩
  cases p with
  | nil => simp [avarAt] at hc
  | cons j p => simpa [avarAt_cons, hav] using hc

theorem named_of_avarAt (hn : ∀ av ∈ avars, av.Named) (h : PlainBelow avars) {p : Path} {av : AVar}
    (hp : avarAt avars p = some av) : av.Named := by
  induction p generalizing avars with
  | nil => simp [avarAt] at hp
  | cons i p ih =>
    rw [avarAt_cons] at hp
    split at hp
    · exact hn _ (List.mem_of_getElem? hp)
    · obtain ⟨b, hb, hrest⟩ := Option.bind_eq_some_iff.mp hp
      have hchild := h.child hb
      exact ih hchild.1.named hchild.2 hrest

/-- The name that is built from the variable up is the one read from the root down. -/
theorem avarQualName_eq (hn : ∀ av ∈ root, av.Named) (h : PlainBelow root) {up : List Nat}
    {av : AVar} (hp : avarAt root up.reverse = some av) :
    avarQualName root up = .ok (some (dotted root up.reverse)) := by
  induction up generalizing av with
  | nil => simp [avarAt] at hp
  | cons i up ih =>
    have hlabel := (named_of_avarAt hn h hp).label.1
    cases up with
    | nil =>
      have hi : root[i]? = some av := by simpa [avarAt_cons] using hp
      simp [avarQualName, show avarAt root [i] = some av from hp, hlabel, dotted, hi]
    | cons j up =>
      rw [List.reverse_cons] at hp ⊢
      obtain ⟨parent, hparent, hchild⟩ :
          ∃ parent, avarAt root (j :: up).reverse = some parent ∧ parent.avars[i]? = some av := by
        rw [avarAt_append_avarsAt (by simp), avarsAt, if_neg (by simp)] at hp
        split at hp
        · next b hb => exact ⟨b, hb, by simpa [avarAt_cons] using hp⟩
        · simp [avarAt] at hp
      rw [dotted_child hparent hchild]
      simp only [avarQualName, ih hparent, bind, Except.bind, List.reverse_cons, pure, Except.pure]
      rw [List.reverse_cons] at hp
      rw [hp]
      simp [hlabel]

/-! ### The list of names -/

mutual
theorem avarGetVarnames_eq {st : Store} (hn : ∀ av ∈ root, av.Named) (h : PlainBelow root)
    {path : Path} : ∀ {av : AVar} {max : Nat}, avarAt root path = some av → 0 < max →
    avarGetVarnames root st path av max =
      .ok (((av.columns st path).take max).map fun p => some (dotted root p))
  | .module v avars, max, hav, _ => by
    have hne : path.isEmpty = false := by
      cases path with
      | nil => simp [avarAt] at hav
      | cons => rfl
    refine moduleGetVarnames_eq hn h fun k => ?_
    rw [avarsAt, hne, if_neg Bool.false_ne_true, hav, Nat.zero_add]
    rfl
  | .var v n, max, hav, hmax => by
    obtain ⟨max, rfl⟩ := Nat.exists_eq_succ_of_ne_zero hmax.ne'
    simp only [avarGetVarnames, AVar.columns]
    split
    · have hback : avarAt root path.reverse.reverse = some (.var v n) := by
        rwa [List.reverse_reverse]
      rw [avarQualName_eq hn h hback, List.reverse_reverse]
      simp [bind, Except.bind, pure, Except.pure]
    · rfl

theorem moduleGetVarnames_eq {st : Store} (hn : ∀ av ∈ root, av.Named) (h : PlainBelow root)
    {m : Path} : ∀ {avars : List AVar} {i max : Nat},
    (∀ k, avars[k]? = (avarsAt root m)[i + k]?) →
    moduleGetVarnames root st m i avars max =
      .ok (((columnsFrom st m i avars).take max).map fun p => some (dotted root p))
  | [], i, max, _ => by simp [moduleGetVarnames, columnsFrom]
  | av :: rest, i, max, havars => by
    have hav : avarAt root (m ++ [i]) = some av := (avarAt_child root m i).trans (havars 0).symm
    have hrest : ∀ k, rest[k]? = (avarsAt root m)[i + 1 + k]? := fun k => by
      rw [Nat.add_assoc, Nat.add_comm 1 k]
      exact havars (k + 1)
    simp only [moduleGetVarnames, columnsFrom]
    split
    · next h0 => simp [h0]
    · next h0 =>
      rw [avarGetVarnames_eq hn h hav (Nat.pos_of_ne_zero h0)]
      simp only [bind, Except.bind]
      rw [moduleGetVarnames_eq hn h hrest]
      simp only [pure, Except.pure, List.take_append, List.map_append, List.length_map,
        List.length_take, Except.ok.injEq, List.append_cancel_left_eq]
      -- the room left is what the names of `av` do not take
      congr 2
      omega
end

/-! ### Taking a dotted name apart -/

theorem splitDot_of_not_mem {name : CStr} (h : 0x2E ∉ name) : splitDot name = none := by
  have hall : name.dropWhile (· != 0x2E) = [] := by
    rw [List.dropWhile_eq_nil_iff]
    intro c hc
    simpa using fun he : c = 0x2E => h (he ▸ hc)
  simp [splitDot, hall]

theorem splitDot_append {head : CStr} (h : 0x2E ∉ head) (sub : CStr) :
    splitDot (head ++ 0x2E :: sub) = some (head, sub) := by
  have hall : ∀ c ∈ head, (c != 0x2E) = true := by
    intro c hc
    simpa using fun he : c = 0x2E => h (he ▸ hc)
  simp [splitDot, List.dropWhile_append_of_pos hall, List.takeWhile_append_of_pos hall]

theorem splitDot_eq {name head sub : CStr} (h : splitDot name = some (head, sub)) :
    name = head ++ 0x2E :: sub ∧ 0x2E ∉ head := by
  unfold splitDot at h
  split at h
  · simp at h
  · next c sub' hdrop =>
    obtain ⟨rfl, rfl⟩ : name.takeWhile (· != 0x2E) = head ∧ sub' = sub := by simpa using h
    have hc : c = 0x2E := by
      have := List.head?_dropWhile_not (fun c : UInt8 => c != 0x2E) name
      rw [hdrop] at this
      simpa using this
    refine ⟨?_, fun hmem => ?_⟩
    · conv_lhs =>
        rw [← List.takeWhile_append_dropWhile (p := fun c : UInt8 => c != 0x2E) (l := name)]
      rw [hdrop, hc]
    · simpa using List.mem_takeWhile_imp hmem

theorem skipDot_append {head : CStr} (hne : head ≠ []) (h : 0x2E ∉ head) (sub : CStr) :
    skipDot (head ++ sub) = head ++ sub := by
  cases head with
  | nil => exact absurd rfl hne
  | cons c head =>
    have hc : c ≠ 0x2E := fun he => h (he ▸ List.mem_cons_self)
    simp [skipDot, hc]

theorem skipDot_of_not_mem {name : CStr} (h : 0x2E ∉ name) : skipDot name = name := by
  cases name with
  | nil => rfl
  | cons c name =>
    have hc : c ≠ 0x2E := fun he => h (he ▸ List.mem_cons_self)
    simp [skipDot, hc]

/-- The search for a name goes into this child. -/
def Enters (name : CStr) (av : AVar) : Prop :=
  ∃ head sub, splitDot name = some (head, sub) ∧ av.isModule = true ∧ head <+: av.label

/-- The search for a name stops at this child. -/
def Hits (name : CStr) (av : AVar) : Prop := Enters name av ∨ av.label = name

theorem resolveLoop_cons (name : CStr) (i : Nat) {av : AVar} (rest : List AVar) (hn : av.Named) :
    (∀ head sub, splitDot name = some (head, sub) → av.isModule = true → head <+: av.label →
      resolveLoop name i (av :: rest) = (resolveSub sub av).map fun path => path.map (i :: ·)) ∧
    (¬ Enters name av → av.label = name → resolveLoop name i (av :: rest) = .ok (some [i])) ∧
    (¬ Hits name av → resolveLoop name i (av :: rest) = resolveLoop name (i + 1) rest) := by
  have hlabel := hn.label.1
  refine ⟨fun head sub hsplit hm hpre => ?_, fun hne heq => ?_, fun hmiss => ?_⟩
  · have hpre' : head.isPrefixOf av.label = true := List.isPrefixOf_iff_prefix.mpr hpre
    rw [resolveLoop, hlabel, hsplit]
    simp only [hm, hpre', Bool.and_self, if_true, bind, Except.bind, Except.map, pure, Except.pure]
  · rw [resolveLoop, hlabel]
    split
    · simp_all
    · next n head sub hn' hsplit =>
      obtain rfl := Option.some.inj hn'
      rw [if_neg, if_pos heq]
      intro hc
      simp only [Bool.and_eq_true, List.isPrefixOf_iff_prefix] at hc
      exact hne ⟨head, sub, hsplit, hc.1, hc.2⟩
    · next n hn' _ =>
      obtain rfl := Option.some.inj hn'
      rw [if_pos heq]
  · have hne : ¬ Enters name av := fun he => hmiss (.inl he)
    have heq : av.label ≠ name := fun he => hmiss (.inr he)
    rw [resolveLoop, hlabel]
    split
    · simp_all
    · next n head sub hn' hsplit =>
      obtain rfl := Option.some.inj hn'
      rw [if_neg, if_neg heq]
      intro hc
      simp only [Bool.and_eq_true, List.isPrefixOf_iff_prefix] at hc
      exact hne ⟨head, sub, hsplit, hc.1, hc.2⟩
    · next n hn' _ =>
      obtain rfl := Option.some.inj hn'
      rw [if_neg heq]

/-- The search stops at the first child it can. -/
theorem resolveLoop_first {name : CStr} (hn : ∀ av ∈ avars, av.Named) {j : Nat} {av : AVar}
    (hj : avars[j]? = some av) (hfirst : ∀ k < j, ∀ b, avars[k]? = some b → ¬ Hits name b)
    (i : Nat) :
    resolveLoop name i avars = resolveLoop name (i + j) (av :: avars.drop (j + 1)) := by
  induction avars generalizing i j with
  | nil => simp at hj
  | cons b rest ih =>
    cases j with
    | zero =>
      obtain rfl : b = av := by simpa using hj
      rfl
    | succ j =>
      have hb := hfirst 0 (Nat.succ_pos j) b rfl
      rw [(resolveLoop_cons _ _ _ (hn b List.mem_cons_self)).2.2 hb,
        ih (fun c hc => hn c (List.mem_cons_of_mem b hc)) (by simpa using hj)
          (fun k hk c hc => hfirst (k + 1) (by omega) c (by simpa using hc)), List.drop_succ_cons,
        Nat.add_assoc, Nat.add_comm 1 j]

theorem exists_first_hit {name : CStr} {path : Path} {i : Nat} (hn : ∀ av ∈ avars, av.Named)
    (h : resolveLoop name i avars = .ok (some path)) :
    ∃ j av rest, path = (i + j) :: rest ∧ avars[j]? = some av ∧ Hits name av ∧
      ∀ k < j, ∀ b, avars[k]? = some b → ¬ Hits name b := by
  induction avars generalizing i with
  | nil => simp [resolveLoop] at h
  | cons av rest ih =>
    have hcons := resolveLoop_cons name i rest (hn av List.mem_cons_self)
    by_cases hhit : Hits name av
    · have hhead : ∃ path', path = i :: path' := by
        by_cases hent : Enters name av
        · obtain ⟨head, sub, hsplit, hm, hpre⟩ := hent
          rw [hcons.1 head sub hsplit hm hpre] at h
          cases hsub : resolveSub sub av with
          | error e => simp [hsub, Except.map] at h
          | ok r =>
            cases r with
            | none => simp [hsub, Except.map] at h
            | some path' => exact ⟨path', by simpa [hsub, Except.map, eq_comm] using h⟩
        · rw [hcons.2.1 hent (hhit.resolve_left hent)] at h
          exact ⟨[], by simpa [eq_comm] using h⟩
      obtain ⟨path', rfl⟩ := hhead
      exact ⟨0, av, path', rfl, rfl, hhit, fun k hk => by omega⟩
    · rw [hcons.2.2 hhit] at h
      obtain ⟨j, c, path', rfl, hj, hc, hfirst⟩ :=
        ih (fun c hc => hn c (List.mem_cons_of_mem av hc)) h
      refine ⟨j + 1, c, path', by rw [Nat.add_assoc, Nat.add_comm 1 j], hj, hc, fun k hk b hb => ?_⟩
      cases k with
      | zero =>
        obtain rfl : av = b := by simpa using hb
        exact hhit
      | succ k => exact hfirst k (by omega) b hb

/-! ### The way back -/

/-- No module on the path has an empty name or an earlier sibling module whose name
    starts with its own, and no earlier sibling of the variable has its name. -/
def Findable : List AVar → Path → Prop
  | _, [] => True
  | avars, i :: rest =>
    match avars[i]? with
    | none => True
    | some av =>
      if rest.isEmpty then ∀ k < i, ∀ b, avars[k]? = some b → b.label ≠ av.label
      else av.label ≠ [] ∧
        (∀ k < i, ∀ b, avars[k]? = some b → b.isModule = true → ¬ av.label <+: b.label) ∧
        Findable av.avars rest

theorem findable_cons {i : Nat} {av : AVar} (h : avars[i]? = some av) (rest : Path) :
    Findable avars (i :: rest) ↔
      if rest.isEmpty then ∀ k < i, ∀ b, avars[k]? = some b → b.label ≠ av.label
      else av.label ≠ [] ∧
        (∀ k < i, ∀ b, avars[k]? = some b → b.isModule = true → ¬ av.label <+: b.label) ∧
        Findable av.avars rest := by
  rw [Findable, h]

/-- Each level of a path that is found costs the name a dot. -/
theorem resolveLoop_length (hn : ∀ av ∈ avars, av.Named) (h : PlainBelow avars) {name : CStr}
    {path : Path} {i : Nat} (hres : resolveLoop name i avars = .ok (some path)) :
    path.length ≤ name.count 0x2E + 1 := by
  induction hlen : path.length generalizing avars name i path with
  | zero => omega
  | succ len ih =>
    obtain ⟨j, av, rest, rfl, hj, hhit, hfirst⟩ := exists_first_hit hn hres
    rw [resolveLoop_first hn hj hfirst] at hres
    have hav := hn av (List.mem_of_getElem? hj)
    have hcons := resolveLoop_cons name (i + j) (avars.drop (j + 1)) hav
    by_cases hent : Enters name av
    · obtain ⟨head, sub, hsplit, hm, hpre⟩ := hent
      rw [hcons.1 head sub hsplit hm hpre] at hres
      cases av with
      | var v n => simp [AVar.isModule] at hm
      | module v avars' =>
        have hchild := h.child hj
        have hsub : resolveLoop (skipDot sub) 0 avars' = .ok (some rest) := by
          cases hr : resolveSub sub (.module v avars') with
          | error e => simp [hr, Except.map] at hres
          | ok r =>
            rw [← resolveSub, hr]
            simpa [hr, Except.map] using hres
        have := ih hchild.1.named hchild.2 hsub (by simpa using hlen)
        have hskip : (skipDot sub).count 0x2E ≤ sub.count 0x2E := by
          cases sub with
          | nil => exact Nat.le_refl _
          | cons c sub =>
            simp only [skipDot]
            split
            · exact (List.sublist_cons_self c sub).count_le _
            · exact Nat.le_refl _
        have hname : name.count 0x2E = sub.count 0x2E + 1 := by
          obtain ⟨hname, hdot⟩ := splitDot_eq hsplit
          rw [hname, List.count_append, List.count_cons_self, List.count_eq_zero_of_not_mem hdot]
          omega
        omega
    · rw [hcons.2.1 hent (hhit.resolve_left hent)] at hres
      obtain rfl : rest = [] := by simpa using hres
      simp at hlen
      omega

theorem count_dotted (hn : ∀ av ∈ avars, av.Named) (h : PlainBelow avars) {p : Path} {av : AVar}
    (hp : avarAt avars p = some av) : (dotted avars p).count 0x2E + 1 = p.length := by
  induction p generalizing avars with
  | nil => simp [avarAt] at hp
  | cons i rest ih =>
    rw [avarAt_cons] at hp
    split at hp
    · next hrest =>
      obtain rfl := List.isEmpty_iff.mp hrest
      have hdot := (hn av (List.mem_of_getElem? hp)).label.2
      rw [dotted_cons hp, if_pos hrest, List.count_eq_zero_of_not_mem hdot]
      rfl
    · next hrest =>
      obtain ⟨b, hb, hsub⟩ := Option.bind_eq_some_iff.mp hp
      have hdot := (hn b (List.mem_of_getElem? hb)).label.2
      have hchild := h.child hb
      rw [dotted_cons hb, if_neg hrest, List.count_append, List.count_cons_self,
        List.count_eq_zero_of_not_mem hdot, List.length_cons, ← ih hchild.1.named hchild.2 hsub]
      omega

theorem not_enters_of_not_mem {name : CStr} (h : 0x2E ∉ name) (av : AVar) : ¬ Enters name av := by
  rintro ⟨head, sub, hsplit, -⟩
  simp [splitDot_of_not_mem h] at hsplit

/-- `resolve` leads back from a dotted name exactly when nothing on the path is hidden
    by an earlier sibling. -/
theorem resolve_dotted_iff (hn : ∀ av ∈ avars, av.Named) (h : PlainBelow avars) {p : Path}
    {av : AVar} (hp : avarAt avars p = some av) :
    resolve avars (some (dotted avars p)) = .ok (some p) ↔ Findable avars p := by
  induction p generalizing avars with
  | nil => simp [avarAt] at hp
  | cons i rest ih =>
    rw [avarAt_cons] at hp
    split at hp
    · next hrest =>
      -- the variable itself
      obtain rfl := List.isEmpty_iff.mp hrest
      have hlabel := (hn av (List.mem_of_getElem? hp)).label.2
      have hmiss : ∀ b, Hits av.label b ↔ b.label = av.label := fun b =>
        or_iff_right (not_enters_of_not_mem hlabel b)
      rw [findable_cons hp, if_pos hrest, dotted_cons hp, if_pos hrest, resolve,
        skipDot_of_not_mem hlabel]
      constructor
      · intro hres
        obtain ⟨j, b, rest, hpath, -, -, hfirst⟩ := exists_first_hit hn hres
        obtain ⟨rfl, -⟩ : i = j ∧ rest = [] := by simpa [eq_comm] using hpath
        exact fun k hk c hc heq => hfirst k hk c hc ((hmiss c).mpr heq)
      · intro hfirst
        rw [resolveLoop_first hn hp fun k hk b hb hhit => hfirst k hk b hb ((hmiss b).mp hhit),
          Nat.zero_add]
        exact (resolveLoop_cons _ _ _ (hn av (List.mem_of_getElem? hp))).2.1
          (not_enters_of_not_mem hlabel av) rfl
    · next hrest =>
      -- a module on the way to it
      obtain ⟨b, hb, hsub⟩ := Option.bind_eq_some_iff.mp hp
      have hbn := hn b (List.mem_of_getElem? hb)
      have hbdot := hbn.label.2
      have hchild := h.child hb
      have hm : b.isModule = true := by
        cases b with
        | module => rfl
        | var => cases rest <;> simp [AVar.avars, avarAt] at hsub
      rw [findable_cons hb, if_neg hrest, dotted_cons hb, if_neg hrest,
        ← ih hchild.1.named hchild.2 hsub,
        resolve]
      by_cases hne : b.label = []
      · -- the leading dot is skipped, and a level is lost
        refine iff_of_false (fun hres => ?_) fun hc => hc.1 hne
        rw [hne, List.nil_append, skipDot, if_pos rfl] at hres
        have hlen := resolveLoop_length hn h hres
        have hcount := count_dotted hchild.1.named hchild.2 hsub
        rw [List.length_cons] at hlen
        omega
      · rw [skipDot_append hne hbdot]
        have hsplit := splitDot_append hbdot (dotted b.avars rest)
        have hhits : ∀ c ∈ avars, Hits (b.label ++ 0x2E :: dotted b.avars rest) c ↔
            c.isModule = true ∧ b.label <+: c.label := by
          intro c hc
          have hdot : c.label ≠ b.label ++ 0x2E :: dotted b.avars rest := fun he =>
            (hn c hc).label.2 (he ▸ by simp)
          refine (or_iff_left hdot).trans ⟨?_, ?_⟩
          · rintro ⟨head, sub, hs, hcm, hpre⟩
            obtain ⟨rfl, -⟩ := Prod.mk.inj (Option.some.inj (hsplit.symm.trans hs))
            exact ⟨hcm, hpre⟩
          · rintro ⟨hcm, hpre⟩
            exact ⟨_, _, hsplit, hcm, hpre⟩
        have hgo : ∀ (l : List AVar) (k : Nat),
            resolveLoop (b.label ++ 0x2E :: dotted b.avars rest) k (b :: l) =
              (resolve b.avars (some (dotted b.avars rest))).map fun path => path.map (k :: ·) := by
          intro l k
          rw [(resolveLoop_cons _ _ _ hbn).1 _ _ hsplit hm List.prefix_rfl]
          cases b with
          | var v n => simp [AVar.isModule] at hm
          | module v avars' => rw [resolveSub, resolve, AVar.avars]
        constructor
        · intro hres
          obtain ⟨j, c, rest', hpath, hj, -, hfirst⟩ := exists_first_hit hn hres
          obtain ⟨rfl, -⟩ : i = j ∧ rest = rest' := by simpa using hpath
          rw [resolveLoop_first hn hb hfirst, hgo, Nat.zero_add] at hres
          refine ⟨hne, fun k hk d hd hdm hpre => ?_, ?_⟩
          · exact hfirst k hk d hd ((hhits d (List.mem_of_getElem? hd)).mpr ⟨hdm, hpre⟩)
          · cases hr : resolve b.avars (some (dotted b.avars rest)) with
            | error e => simp [hr, Except.map] at hres
            | ok r => simpa [hr, Except.map] using hres
        · rintro ⟨-, hfirst, hres⟩
          rw [resolveLoop_first hn hb fun k hk d hd hhit => ?_, hgo, hres, Nat.zero_add]
          · rfl
          · obtain ⟨hdm, hpre⟩ := (hhits d (List.mem_of_getElem? hd)).mp hhit
            exact hfirst k hk d hd hdm hpre

/-! ### The names of a project -/

theorem findConn_name {name : Option CStr} {conns : List Conn} {r : Conn}
    (h : findConn name conns = .ok (some r)) : name = some r.name := by
  induction conns with
  | nil => simp [findConn] at h
  | cons c conns ih =>
    cases name with
    | none => simp [findConn] at h
    | some n =>
      rw [findConn] at h
      split at h
      · next hn =>
        obtain rfl : c = r := by simpa using h
        rw [hn]
      · exact ih h

theorem connected_name {v : Var} {conns : List Conn} {r : Option Conn}
    (h : findConn v.name conns = .ok r) : (connected v r).name = v.name := by
  cases r with
  | none => rfl
  | some r => exact (findConn_name h).symm

theorem Made.v_eq {p : SDProject} {sub : Option Var → SDModel → Except Stop (List AVar)} {v : Var}
    {av : AVar} (h : Made p sub v av) : av.v = v := by
  cases h <;> rfl

/-- Instances keep the names of the model. -/
theorem names_of_made {p : SDProject} {sub : Option Var → SDModel → Except Stop (List AVar)}
    {conns : List Conn} {vars : List Var} {avars : List AVar}
    (h : moduleVars (avar p sub) conns vars = .ok avars) :
    avars.map (·.v.name) = vars.map (·.name) := by
  have hall := moduleVars_forall₂ h
  clear h
  induction hall with
  | nil => rfl
  | cons hav _ ih =>
    obtain ⟨r, hr, hav⟩ := hav
    rw [List.map_cons, List.map_cons, ih, (avar_made hav).v_eq, connected_name hr]

theorem plain_of_made {p : SDProject} {sub : Option Var → SDModel → Except Stop (List AVar)}
    {conns : List Conn} {model : SDModel} {avars : List AVar} (hm : model.PlainNames)
    (h : moduleVars (avar p sub) conns model.vars = .ok avars) : Plain avars := by
  have hnames := names_of_made h
  refine ⟨fun av hav => ?_, hnames ▸ hm.nodup⟩
  have hmem : av.v.name ∈ model.vars.map (·.name) := hnames ▸ List.mem_map.mpr ⟨av, hav, rfl⟩
  obtain ⟨v, hv, hname⟩ := List.mem_map.mp hmem
  obtain ⟨n, hn, hdot⟩ := hm.named v hv
  exact ⟨n, hname ▸ hn, hdot⟩

theorem plain_nil : Plain [] := ⟨by simp, List.nodup_nil⟩

theorem plainBelow_nil : PlainBelow [] := fun p av h => by simp at h

theorem moduleVars_plainBelow {p : SDProject} {sub : Option Var → SDModel → Except Stop (List AVar)}
    (hp : p.PlainNames)
    (hsub : ∀ v model avars, model.PlainNames → sub (some v) model = .ok avars →
      Plain avars ∧ PlainBelow avars) {conns : List Conn} {vars : List Var} {avars : List AVar}
    (h : moduleVars (avar p sub) conns vars = .ok avars) : PlainBelow avars := by
  refine avarAt_of_children fun av hav => ?_
  obtain ⟨v, hmade⟩ := made_of_mem h hav
  cases hmade with
  | module hv hmodel havars =>
    obtain ⟨f, hf, hm⟩ := sdProjectGetModel_mem hmodel
    exact hsub _ _ _ (hp f hf _ hm) havars
  | var => exact ⟨plain_nil, plainBelow_nil⟩

theorem module_plain {p : SDProject} (hp : p.PlainNames) :
    ∀ {fuel : Nat} {v : Var} {model : SDModel} {avars : List AVar}, model.PlainNames →
      module p fuel (some v) model = .ok avars →
    Plain avars ∧ PlainBelow avars := by
  intro fuel
  induction fuel with
  | zero =>
    intro v model avars _ h
    simp [module] at h
  | succ fuel ih =>
    intro v model avars hm h
    exact ⟨plain_of_made hm h, moduleVars_plainBelow hp (fun _ _ _ => ih) h⟩

theorem root_plain {p : SDProject} (hp : p.PlainNames) {fuel : Nat} {model : SDModel}
    (hm : model.PlainNames) (h : module p fuel none model = .ok root) :
    (∀ av ∈ root, av.Named) ∧ PlainBelow root := by
  obtain ⟨fuel', rest, -, rfl, hrest⟩ := module_none_ok h
  have hbelow := moduleVars_plainBelow hp (fun v _ _ => module_plain hp) hrest
  refine ⟨fun av hav => ?_, avarAt_of_children fun av hav => ?_⟩
  · rcases List.mem_cons.mp hav with rfl | hav
    · exact ⟨cstr "time", rfl, by decide +kernel⟩
    · exact (plain_of_made hm hrest).named av hav
  · rcases List.mem_cons.mp hav with rfl | hav
    · exact ⟨plain_nil, plainBelow_nil⟩
    · obtain ⟨i, hi⟩ := List.mem_iff_getElem?.mp hav
      exact hbelow.child hi

/-! ### Names handed out and handed back -/

variable {s s' : SDSim}

/-- The name leads back to the variable, and to its column. -/
def FindsBack (s : SDSim) (n : CStr) (q : Path) : Prop :=
  resolve s.root (some n) = .ok (some q) ∧
    ∀ len, sdSimGetSeries s (some n) len = .ok (s.series (s.col q) len)

/-- The names reported are the qualified names of the columns, in order, and the name of
    a variable leads back to it exactly when no earlier sibling hides it or a module
    around it. -/
theorem qualName_iff {env : Env} {p : SDProject} {model : Option CStr} (hnames : p.PlainNames)
    (h : sdSimNew env p model = .ok s) {cs : List Call} (hcs : s.calls cs = .ok s') :
    (∀ max, ∃ names, sdSimGetVarnames s' max = .ok names ∧
      List.Forall₂ (fun q n => IsColumn s'.root s'.store q ∧
          avarQualName s'.root q.reverse = .ok n)
        ((columnsFrom s'.store [] 0 s'.root).take max) names) ∧
    ∀ q, IsColumn s'.root s'.store q → ∃ n, avarQualName s'.root q.reverse = .ok (some n) ∧
      (FindsBack s' n q ↔ Findable s'.root q) := by
  obtain ⟨specs, m, s0, hmodel, hbuilt, -, -, hreset⟩ := sdSimNew_cases h
  obtain ⟨f, hf, hm⟩ := sdProjectGetModel_mem hmodel
  obtain ⟨hr, hsame⟩ := sdSimReset_isReset hbuilt.wellBuilt hreset
  have hsame' := calls_sameSetup hr.built hcs
  have hw := hsame'.wellBuilt hr.built
  have hroot : s'.root = s0.root := hsame'.root.trans hsame.root
  obtain ⟨hn, hbelow⟩ := root_plain hnames (hnames f hf m hm) hbuilt.root
  rw [← hroot] at hn hbelow
  have hqual : ∀ q, IsColumn s'.root s'.store q →
      avarQualName s'.root q.reverse = .ok (some (dotted s'.root q)) := by
    rintro q ⟨v, n, hv, -⟩
    have hback : avarAt s'.root q.reverse.reverse = some (.var v n) := by simpa using hv
    have := avarQualName_eq hn hbelow hback
    rwa [List.reverse_reverse] at this
  refine ⟨fun max => ?_, fun q hq => ⟨_, hqual q hq, ?_⟩⟩
  · have hnone : ∀ k, s'.root[k]? = (avarsAt s'.root [])[0 + k]? := fun k => by
      rw [Nat.zero_add]
      rfl
    have hlist : sdSimGetVarnames s' max = .ok
        (((columnsFrom s'.store [] 0 s'.root).take max).map fun q => some (dotted s'.root q)) := by
      rw [sdSimGetVarnames]
      split
      · next h0 => simp [h0]
      · exact moduleGetVarnames_eq hn hbelow hnone
    refine ⟨_, hlist, List.forall₂_map_right_iff.mpr (List.forall₂_same.mpr fun q hq => ?_)⟩
    have hcol := ((mem_columnsFrom hnone).mp (List.mem_of_mem_take hq)).2
    exact ⟨hcol, hqual q hcol⟩
  · obtain ⟨v, n, hv, -⟩ := hq
    rw [← resolve_dotted_iff hn hbelow hv]
    refine ⟨And.left, fun hres => ⟨hres, ?_⟩⟩
    exact (readsColumn_of_resolve hw hres s'.slab s'.step s'.saveStep).2

/-- Two modules with an `x` each, the longer name declared first. -/
def prefixNames (simSpecs : SimSpec) : SDProject :=
  .ofModels simSpecs [
    { name := none, vars := [
      { Var.ofEquation .module "ab" "" with eqn := none },
      { Var.ofEquation .module "a" "" with eqn := none }] },
    { name := some (cstr "ab"), vars := [Var.ofEquation .aux "x" "1"] },
    { name := some (cstr "a"), vars := [Var.ofEquation .aux "x" "2"] }]

theorem prefixNames_plain (simSpecs : SimSpec) : (prefixNames simSpecs).PlainNames := by
  intro f hf m hm
  obtain rfl : f = _ := List.mem_singleton.mp hf
  simp only [List.mem_cons, List.not_mem_nil, or_false] at hm
  rcases hm with rfl | rfl | rfl
  · refine ⟨fun v hv => ?_, by decide +kernel⟩
    simp only [List.mem_cons, List.not_mem_nil, or_false] at hv
    rcases hv with rfl | rfl <;> exact ⟨_, rfl, by decide +kernel⟩
  · exact ⟨fun v hv => by obtain rfl := List.mem_singleton.mp hv; exact ⟨_, rfl, by decide +kernel⟩,
      by decide +kernel⟩
  · exact ⟨fun v hv => by obtain rfl := List.mem_singleton.mp hv; exact ⟨_, rfl, by decide +kernel⟩,
      by decide +kernel⟩

theorem qualName_prefixNames : ∃ s s',
    sdSimNew (.plain true) (prefixNames ⟨0, 1, 1, 1⟩) none = .ok s ∧
    s.calls [.runToEnd] = .ok s' ∧ ∃ n, avarQualName s'.root [0, 1] = .ok (some n) ∧
      (FindsBack s' n [1, 0] ↔ Findable s'.root [1, 0]) := by
  obtain ⟨⟨s, s'⟩, h, hs⟩ := exists_ok
    (P := fun r : SDSim × SDSim => ((avarAt r.2.root [1, 0]).any fun av => !av.isModule) &&
      (r.2.store [1, 0]).src.isNone)
    (x := do
      let s ← sdSimNew (.plain true) (prefixNames ⟨0, 1, 1, 1⟩) none
      let s' ← s.calls [.runToEnd]
      return (s, s')) (by decide +kernel)
  obtain ⟨s1, hnew, h⟩ := bind_eq_ok h
  obtain ⟨s2, hcs, h⟩ := bind_eq_ok h
  obtain ⟨rfl, rfl⟩ : s1 = s ∧ s2 = s' := by simpa [pure, Except.pure] using h
  refine ⟨s1, s2, hnew, hcs, (qualName_iff (prefixNames_plain _) hnew hcs).2 [1, 0] ?_⟩
  simp only [Bool.and_eq_true, Option.any_eq_true, Option.isNone_iff_eq_none] at hs
  obtain ⟨⟨av, hv, hm⟩, hsrc⟩ := hs
  cases av with
  | module v avars => simp [AVar.isModule] at hm
  | var v n => exact ⟨v, n, hv, hsrc⟩

/-- The name `a.x` is handed out for the second module's variable and leads to the first's. -/
theorem qualName_other_module : (prefixNames ⟨0, 1, 1, 1⟩).PlainNames ∧
    ∃ s, sdSimNew (.plain true) (prefixNames ⟨0, 1, 1, 1⟩) none = .ok s ∧
    avarQualName s.root [0, 2] = .ok (some (cstr "a.x")) ∧
    resolve s.root (some (cstr "a.x")) = .ok (some [1, 0]) ∧
    sdSimGetSeries s (some (cstr "a.x")) 1 = .ok [1] ∧ s.series (s.col [2, 0]) 1 = [2] := by
  obtain ⟨s, h, hs⟩ := exists_ok (x := sdSimNew (.plain true) (prefixNames ⟨0, 1, 1, 1⟩) none)
    (P := fun s => decide (avarQualName s.root [0, 2] = .ok (some (cstr "a.x"))) &&
      decide (resolve s.root (some (cstr "a.x")) = .ok (some [1, 0])) &&
      decide (sdSimGetSeries s (some (cstr "a.x")) 1 = .ok [1]) &&
      decide (s.series (s.col [2, 0]) 1 = [2])) (by decide +kernel)
  simp only [Bool.and_eq_true, decide_eq_true_eq] at hs
  obtain ⟨⟨⟨hname, hres⟩, hseries⟩, hcol⟩ := hs
  exact ⟨prefixNames_plain _, s, h, hname, hres, hseries, hcol⟩

end Libsd

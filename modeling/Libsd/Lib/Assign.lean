/-
  Libsd/Lib/Assign.lean
  =====================
  **Assignments executed one after another.**

  An assignment has a target and a right-hand side that is evaluated on the
  current valuation and may fail.  A list of them is *in order* when nothing an
  assignment reads is its own target or the target of one that is first executed
  after it.  A run of a list in order ends in a valuation that satisfies every
  assignment as an equation (`run_satisfies`), and it ends in the only such
  valuation (`run_eq_of_satisfies`); so a second run changes nothing (`run_again`).

  The last section is about assignments given by nested lists.
-/
import Mathlib.Data.List.Basic
import Mathlib.Data.List.Flatten
import Mathlib.Data.List.Perm.Subperm
import Mathlib.Logic.Function.Basic

namespace Libsd.Assign

variable {ι κ V E : Type} [DecidableEq κ]
variable (target : ι → κ) (value : ι → (κ → V) → Except E V)

def run : List ι → (κ → V) → Except E (κ → V)
  | [], d => .ok d
  | a :: l, d => do
    let v ← value a d
    run l (Function.update d (target a) v)

variable {target value}

theorem run_cons {a : ι} {l : List ι} {d d' : κ → V} (h : run target value (a :: l) d = .ok d') :
    ∃ v, value a d = .ok v ∧ run target value l (Function.update d (target a) v) = .ok d' := by
  simp only [run, bind, Except.bind] at h
  split at h
  · simp at h
  · next v hv => exact ⟨v, hv, h⟩

theorem run_cons_of_ok {a : ι} {l : List ι} {d : κ → V} {v : V} (h : value a d = .ok v) :
    run target value (a :: l) d = run target value l (Function.update d (target a) v) := by
  rw [run, h]
  rfl

theorem run_append (l l' : List ι) (d : κ → V) :
    run target value (l ++ l') d = (run target value l d).bind (run target value l') := by
  induction l generalizing d with
  | nil => rfl
  | cons a l ih =>
    simp only [List.cons_append, run, bind, Except.bind]
    cases value a d with
    | error e => rfl
    | ok v => exact ih _

/-- A valuation is changed at targets only. -/
theorem run_frame {l : List ι} {d d' : κ → V} (h : run target value l d = .ok d') {c : κ}
    (hc : ∀ a ∈ l, target a ≠ c) : d' c = d c := by
  induction l generalizing d with
  | nil => rw [Except.ok.inj h]
  | cons a l ih =>
    obtain ⟨v, -, h⟩ := run_cons h
    rw [ih h fun b hb => hc b (List.mem_cons_of_mem a hb)]
    exact Function.update_of_ne (hc a List.mem_cons_self).symm _ _

theorem run_ok {l : List ι} (hval : ∀ a ∈ l, ∀ d, ∃ v, value a d = .ok v) (d : κ → V) :
    ∃ d', run target value l d = .ok d' := by
  induction l generalizing d with
  | nil => exact ⟨d, rfl⟩
  | cons a l ih =>
    obtain ⟨v, hv⟩ := hval a List.mem_cons_self d
    rw [run_cons_of_ok hv]
    exact ih (fun b hb => hval b (List.mem_cons_of_mem a hb)) _

/-- A target that one assignment has to itself ends with its value, if that is always
    the same. -/
theorem run_fixed {l : List ι} {d d' : κ → V} (h : run target value l d = .ok d') {a : ι} {v : V}
    (ha : a ∈ l) (hv : ∀ d, value a d = .ok v) (hinj : ∀ b ∈ l, target b = target a → b = a) :
    d' (target a) = v := by
  induction l generalizing d with
  | nil => simp at ha
  | cons b l ih =>
    obtain ⟨w, hw, h⟩ := run_cons h
    by_cases hal : a ∈ l
    · exact ih h hal fun b hb => hinj b (List.mem_cons_of_mem _ hb)
    · obtain rfl := (List.mem_cons.mp ha).resolve_right hal
      rw [hv d] at hw
      have hlast : ∀ b ∈ l, target b ≠ target a := fun b hb he =>
        hal (hinj b (List.mem_cons_of_mem a hb) he ▸ hb)
      rw [run_frame h hlast, Function.update_self, Except.ok.inj hw]

/-- A run fails because some right-hand side does. -/
theorem run_error {l : List ι} {d : κ → V} {e : E} (h : run target value l d = .error e) :
    ∃ a ∈ l, ∃ d', value a d' = .error e := by
  induction l generalizing d with
  | nil => simp [run] at h
  | cons a l ih =>
    simp only [run, bind, Except.bind] at h
    split at h
    · next e' he =>
      obtain rfl := Except.error.inj h
      exact ⟨a, List.mem_cons_self, d, he⟩
    · obtain ⟨b, hb, hd⟩ := ih h
      exact ⟨b, List.mem_cons_of_mem a hb, hd⟩

theorem run_congr {value' : ι → (κ → V) → Except E V} {l : List ι}
    (h : ∀ a ∈ l, ∀ d, value a d = value' a d) (d : κ → V) :
    run target value l d = run target value' l d := by
  induction l generalizing d with
  | nil => rfl
  | cons a l ih =>
    simp only [run, h a List.mem_cons_self]
    congr 1
    funext v
    exact ih (fun b hb => h b (List.mem_cons_of_mem a hb)) _

/-! ### Assignments in order -/

variable (target) in
/-- After the assignments in `done`, no assignment reads its own target or the target
    of a later one, those that are only executed once more left out. -/
def InOrder (reads : ι → List κ) : List ι → List ι → Prop
  | _, [] => True
  | done, a :: l =>
    (a ∉ done → ∀ c ∈ reads a, ∀ b ∈ a :: l, b ∉ done → target b ≠ c) ∧
      InOrder reads (a :: done) l

instance InOrder.decidable [DecidableEq ι] (reads : ι → List κ) :
    ∀ done l, Decidable (InOrder target reads done l)
  | _, [] => isTrue trivial
  | done, a :: l =>
    have := InOrder.decidable reads (a :: done) l
    inferInstanceAs (Decidable ((a ∉ done → ∀ c ∈ reads a, ∀ b ∈ a :: l, b ∉ done → target b ≠ c) ∧
      InOrder target reads (a :: done) l))

variable (value) in
/-- A right-hand side depends on what it reads and nothing else. -/
def Depends (reads : ι → List κ) : Prop :=
  ∀ a d d', (∀ c ∈ reads a, d c = d' c) → value a d = value a d'

variable (target value) in
/-- The valuation satisfies an assignment as an equation. -/
def Satisfies (d : κ → V) (a : ι) : Prop := value a d = .ok (d (target a))

variable (target) in
/-- Nothing that the finished assignments read is still to be written. -/
def Settled (reads : ι → List κ) (done l : List ι) : Prop :=
  ∀ a ∈ done, ∀ c ∈ reads a, ∀ b ∈ l, b ∉ done → target b ≠ c

variable (target) in
/-- No two assignments have the same target. -/
def Separate (done l : List ι) : Prop :=
  ∀ a b, a ∈ done ∨ a ∈ l → b ∈ done ∨ b ∈ l → target a = target b → a = b

variable {reads : ι → List κ}

omit [DecidableEq κ] in
theorem Separate.step {done l : List ι} {a : ι} (h : Separate target done (a :: l)) :
    Separate target (a :: done) l := by
  have hmem : ∀ b, b ∈ a :: done ∨ b ∈ l → b ∈ done ∨ b ∈ a :: l := by
    intro b hb
    simp only [List.mem_cons] at hb ⊢
    tauto
  exact fun b c hb hc => h b c (hmem b hb) (hmem c hc)

omit [DecidableEq κ] in
theorem separate_nil {l : List ι} (h : ∀ a ∈ l, ∀ b ∈ l, target a = target b → a = b) :
    Separate target [] l :=
  fun a b ha hb => h a (ha.resolve_left List.not_mem_nil) b (hb.resolve_left List.not_mem_nil)

omit [DecidableEq κ] in
/-- A list is in order if whatever an assignment reads is not written from there on. -/
theorem inOrder_of_split {l : List ι}
    (h : ∀ pre a post, l = pre ++ a :: post → ∀ c ∈ reads a, ∀ b ∈ a :: post, target b ≠ c)
    (done : List ι) : InOrder target reads done l := by
  induction l generalizing done with
  | nil => trivial
  | cons a l ih =>
    refine ⟨fun _ c hc b hb _ => h [] a l rfl c hc b hb, ih (fun pre b post he => ?_) (a :: done)⟩
    exact h (a :: pre) b post (by rw [he, List.cons_append])

omit [DecidableEq κ] in
/-- What an assignment in order reads is written before it. -/
theorem InOrder.idxOf_lt [BEq ι] [LawfulBEq ι] {done l : List ι}
    (hord : InOrder target reads done l)
    {a b : ι} (ha : a ∈ l) (had : a ∉ done) (hb : b ∈ l) (hbd : b ∉ done)
    (hread : target b ∈ reads a) : l.idxOf b < l.idxOf a := by
  induction l generalizing done with
  | nil => exact absurd ha List.not_mem_nil
  | cons x l ih =>
    by_cases hax : a = x
    · subst hax
      exact absurd rfl (hord.1 had _ hread b hb hbd)
    · rw [List.idxOf_cons_ne l (Ne.symm hax)]
      by_cases hbx : b = x
      · rw [hbx, List.idxOf_cons_self]
        exact Nat.succ_pos _
      · rw [List.idxOf_cons_ne l (Ne.symm hbx)]
        refine Nat.succ_lt_succ (ih hord.2 ((List.mem_cons.mp ha).resolve_left hax) ?_
          ((List.mem_cons.mp hb).resolve_left hbx) ?_)
        · exact fun hd => had ((List.mem_cons.mp hd).resolve_left hax)
        · exact fun hd => hbd ((List.mem_cons.mp hd).resolve_left hbx)

omit [DecidableEq κ] in
theorem Settled.step {done l : List ι} {a : ι} (h : Settled target reads done (a :: l))
    (hord : InOrder target reads done (a :: l)) : Settled target reads (a :: done) l := by
  intro b hb c hc e he hne
  have hne' : e ∉ done := fun hd => hne (List.mem_cons_of_mem a hd)
  by_cases hbd : b ∈ done
  · exact h b hbd c hc e (List.mem_cons_of_mem a he) hne'
  · obtain rfl := (List.mem_cons.mp hb).resolve_right hbd
    exact hord.1 hbd c hc e (List.mem_cons_of_mem b he) hne'

/-- One assignment more: it and those before it hold as equations. -/
theorem satisfies_step (hdep : Depends value reads) {done l : List ι} {a : ι} {d : κ → V} {v : V}
    (hsep : Separate target done (a :: l)) (hord : InOrder target reads done (a :: l))
    (hset : Settled target reads done (a :: l)) (hsat : ∀ b ∈ done, Satisfies target value d b)
    (hv : value a d = .ok v) :
    ∀ b ∈ a :: done, Satisfies target value (Function.update d (target a) v) b := by
  by_cases had : a ∈ done
  · -- it holds already, so executing it again changes nothing
    have hself : v = d (target a) := Except.ok.inj (hv.symm.trans (hsat a had))
    rw [hself, Function.update_eq_self]
    intro b hb
    rcases List.mem_cons.mp hb with rfl | hb
    · exact hsat b had
    · exact hsat b hb
  · intro b hb
    rcases List.mem_cons.mp hb with rfl | hb
    · rw [Satisfies, Function.update_self, ← hv]
      refine hdep b _ _ fun c hc => Function.update_of_ne ?_ _ _
      exact (hord.1 had c hc b List.mem_cons_self had).symm
    · have hne : target b ≠ target a := fun he =>
        had (hsep b a (.inl hb) (.inr List.mem_cons_self) he ▸ hb)
      rw [Satisfies, Function.update_of_ne hne, ← hsat b hb]
      refine hdep b _ _ fun c hc => Function.update_of_ne ?_ _ _
      exact (hset b hb c hc a List.mem_cons_self had).symm

theorem run_satisfies_from (hdep : Depends value reads) {done l : List ι} {d d' : κ → V}
    (hsep : Separate target done l) (hord : InOrder target reads done l)
    (hset : Settled target reads done l) (hsat : ∀ b ∈ done, Satisfies target value d b)
    (h : run target value l d = .ok d') : ∀ a, a ∈ done ∨ a ∈ l → Satisfies target value d' a := by
  induction l generalizing done d with
  | nil =>
    obtain rfl := Except.ok.inj h
    exact fun a ha => hsat a (ha.resolve_right List.not_mem_nil)
  | cons b l ih =>
    obtain ⟨v, hv, h⟩ := run_cons h
    intro a ha
    refine ih hsep.step hord.2 (hset.step hord) (satisfies_step hdep hsep hord hset hsat hv) h a ?_
    simp only [List.mem_cons] at ha ⊢
    tauto

/-- After a run, all assignments hold as equations. -/
theorem run_satisfies (hdep : Depends value reads) {l : List ι} {d d' : κ → V}
    (hinj : ∀ a ∈ l, ∀ b ∈ l, target a = target b → a = b) (hord : InOrder target reads [] l)
    (h : run target value l d = .ok d') : ∀ a ∈ l, Satisfies target value d' a :=
  fun a ha => run_satisfies_from hdep (separate_nil hinj) hord (fun _ hb =>
    absurd hb List.not_mem_nil)
    (fun _ hb => absurd hb List.not_mem_nil) h a (.inr ha)

/-- One assignment holds after a run if nothing that it reads is its own target, or
    written behind it. -/
theorem run_satisfies_at (hdep : Depends value reads) {l : List ι} {d d' : κ → V} {a : ι}
    (ha : a ∈ l) (hinj : ∀ b ∈ l, target b = target a → b = a)
    (hreads : ∀ c ∈ reads a, ∀ b ∈ l, target b = c → b ≠ a ∧ l.Pairwise fun x y => x = a → y ≠ b)
    (h : run target value l d = .ok d') : Satisfies target value d' a := by
  induction l generalizing d with
  | nil => exact absurd ha List.not_mem_nil
  | cons x l ih =>
    obtain ⟨v, hv, hrest⟩ := run_cons h
    by_cases hal : a ∈ l
    · refine ih hal (fun b hb => hinj b (List.mem_cons_of_mem x hb)) (fun c hc b hb he => ?_) hrest
      obtain ⟨hne, hpair⟩ := hreads c hc b (List.mem_cons_of_mem x hb) he
      exact ⟨hne, hpair.of_cons⟩
    · obtain rfl := (List.mem_cons.mp ha).resolve_right hal
      -- this is the last time that it is executed
      have hlast : ∀ b ∈ l, target b ≠ target a := fun b hb he =>
        hal (hinj b (List.mem_cons_of_mem a hb) he ▸ hb)
      rw [Satisfies, run_frame hrest hlast, Function.update_self, ← hv]
      refine hdep a _ _ fun c hc => ?_
      have hself : target a ≠ c := fun he => (hreads c hc a List.mem_cons_self he).1 rfl
      rw [run_frame hrest fun b hb he => ?_, Function.update_of_ne hself.symm]
      obtain ⟨-, hpair⟩ := hreads c hc b (List.mem_cons_of_mem a hb) he
      exact (List.pairwise_cons.mp hpair).1 b hb rfl rfl

theorem run_eq_of_satisfies_from (hdep : Depends value reads) {done l : List ι} {d d' : κ → V}
    (hsep : Separate target done l) (hord : InOrder target reads done l)
    (hset : Settled target reads done l)
    (hsat : ∀ a, a ∈ done ∨ a ∈ l → Satisfies target value d' a)
    (hoff : ∀ c, (∀ a ∈ l, a ∉ done → target a ≠ c) → d c = d' c) :
    run target value l d = .ok d' := by
  induction l generalizing done d with
  | nil =>
    have : d = d' := funext fun c => hoff c (by simp)
    rw [this]
    rfl
  | cons a l ih =>
    have hv : value a d = .ok (d' (target a)) := by
      rw [← hsat a (.inr List.mem_cons_self)]
      refine hdep a d d' fun c hc => hoff c fun b hb hbd => ?_
      by_cases had : a ∈ done
      · exact hset a had c hc b hb hbd
      · exact hord.1 had c hc b hb hbd
    rw [run_cons_of_ok hv]
    refine ih hsep.step hord.2 (hset.step hord) (fun b hb => hsat b ?_) fun c hc => ?_
    · simp only [List.mem_cons] at hb ⊢
      tauto
    · by_cases hac : target a = c
      · rw [← hac, Function.update_self]
      · rw [Function.update_of_ne (Ne.symm hac)]
        refine hoff c fun b hb hbd => ?_
        rcases List.mem_cons.mp hb with rfl | hb
        · exact hac
        · by_cases hba : b = a
          · exact hba ▸ hac
          · exact hc b hb fun hm => (List.mem_cons.mp hm).elim hba hbd

/-- A run ends in any valuation that satisfies all assignments and differs from the
    first one at targets only. -/
theorem run_eq_of_satisfies (hdep : Depends value reads) {l : List ι} {d d' : κ → V}
    (hinj : ∀ a ∈ l, ∀ b ∈ l, target a = target b → a = b) (hord : InOrder target reads [] l)
    (hsat : ∀ a ∈ l, Satisfies target value d' a)
    (hoff : ∀ c, (∀ a ∈ l, target a ≠ c) → d c = d' c) : run target value l d = .ok d' :=
  run_eq_of_satisfies_from hdep (separate_nil hinj) hord (fun _ hb => absurd hb List.not_mem_nil)
    (fun a ha => hsat a (ha.resolve_left List.not_mem_nil))
    fun c hc => hoff c fun a ha => hc a ha List.not_mem_nil

/-- Assignments that hold already change nothing. -/
theorem run_of_satisfies {l : List ι} {d : κ → V} (hsat : ∀ a ∈ l, Satisfies target value d a) :
    run target value l d = .ok d := by
  induction l with
  | nil => rfl
  | cons a l ih =>
    rw [run_cons_of_ok (hsat a List.mem_cons_self), Function.update_eq_self]
    exact ih fun b hb => hsat b (List.mem_cons_of_mem a hb)

theorem run_again (hdep : Depends value reads) {l : List ι} {d d' : κ → V}
    (hinj : ∀ a ∈ l, ∀ b ∈ l, target a = target b → a = b) (hord : InOrder target reads [] l)
    (h : run target value l d = .ok d') : run target value l d' = .ok d' :=
  run_of_satisfies (run_satisfies hdep hinj hord h)

/-! ### Right-hand sides that do not read the valuation -/

/-- A run from another valuation fails alike, or ends in the same values at the targets. -/
theorem run_const (hval : ∀ a d d', value a d = value a d') {l : List ι} {d d' : κ → V}
    (h : run target value l d = .ok d') (e : κ → V) :
    ∃ e', run target value l e = .ok e' ∧ (∀ c, (∃ a ∈ l, target a = c) → e' c = d' c) ∧
      ∀ c, (∀ a ∈ l, target a ≠ c) → e' c = e c := by
  induction l generalizing d e with
  | nil => exact ⟨e, rfl, by simp, fun _ _ => rfl⟩
  | cons a l ih =>
    obtain ⟨v, hv, h⟩ := run_cons h
    obtain ⟨e', he, hin, hout⟩ := ih h (Function.update e (target a) v)
    rw [hval a d e] at hv
    refine ⟨e', by rw [run_cons_of_ok hv, he], fun c hc => ?_, fun c hc => ?_⟩
    · by_cases hlater : ∃ b ∈ l, target b = c
      · exact hin c hlater
      · have hno : ∀ b ∈ l, target b ≠ c := fun b hb hbc => hlater ⟨b, hb, hbc⟩
        obtain ⟨b, hb, rfl⟩ := hc
        obtain rfl := (List.mem_cons.mp hb).resolve_right fun hb => hlater ⟨b, hb, rfl⟩
        rw [hout _ hno, run_frame h hno, Function.update_self, Function.update_self]
    · rw [hout c fun b hb => hc b (List.mem_cons_of_mem a hb)]
      exact Function.update_of_ne (hc a List.mem_cons_self).symm _ _

/-- So a run ends in the valuation that has the values at the targets and is the old one
    elsewhere, in whatever order the assignments are executed. -/
theorem run_const_iff (hval : ∀ a d d', value a d = value a d') {l : List ι} {d d' : κ → V}
    (hinj : ∀ a ∈ l, ∀ b ∈ l, target a = target b → a = b) : run target value l d = .ok d' ↔
      (∀ a ∈ l, Satisfies target value d' a) ∧ ∀ c, (∀ a ∈ l, target a ≠ c) → d c = d' c := by
  have hdep : Depends value fun _ : ι => ([] : List κ) := fun a d d' _ => hval a d d'
  have hord : InOrder target (fun _ => []) [] l :=
    inOrder_of_split (fun _ _ _ _ _ hc => absurd hc List.not_mem_nil) []
  constructor
  · intro h
    exact ⟨run_satisfies hdep hinj hord h, fun c hc => (run_frame h hc).symm⟩
  · rintro ⟨hsat, hoff⟩
    exact run_eq_of_satisfies hdep hinj hord hsat hoff

theorem run_const_of_mem (hval : ∀ a d d', value a d = value a d') {l l' : List ι}
    (hinj : ∀ a ∈ l, ∀ b ∈ l, target a = target b → a = b) (hmem : ∀ a, a ∈ l ↔ a ∈ l')
    (d d' : κ → V) : run target value l d = .ok d' ↔ run target value l' d = .ok d' := by
  rw [run_const_iff hval hinj, run_const_iff hval]
  · simp only [hmem]
  · exact fun a ha b hb => hinj a ((hmem a).mpr ha) b ((hmem b).mpr hb)

/-! ### Nested lists -/

section
variable (nested : ι → Bool) (sub : ι → List ι)

/-- The members of a list, with those that stand for a list of their own replaced by
    the members of that, to a limited depth. -/
def flatten : Nat → List ι → List ι
  | 0, _ => []
  | depth + 1, l => l.flatMap fun a => if nested a then flatten depth (sub a) else [a]

/-- The limit is enough for a list. -/
def Deep : Nat → List ι → Prop
  | 0, _ => False
  | depth + 1, l => ∀ a ∈ l, nested a = true → Deep depth (sub a)

theorem flatten_cons (depth : Nat) (a : ι) (l : List ι) :
    flatten nested sub (depth + 1) (a :: l) =
      (if nested a then flatten nested sub depth (sub a) else [a]) ++
        flatten nested sub (depth + 1) l := rfl

theorem flatten_nil (depth : Nat) : flatten nested sub depth [] = [] := by
  cases depth <;> rfl

/-- Lists that stand for nothing are left out. -/
theorem flatten_eq_filter {l : List ι} (h : ∀ a ∈ l, nested a = true → sub a = []) (depth : Nat) :
    flatten nested sub (depth + 1) l = l.filter fun a => !nested a := by
  induction l with
  | nil => rfl
  | cons a l ih =>
    rw [flatten_cons, ih fun b hb => h b (List.mem_cons_of_mem a hb), List.filter_cons]
    by_cases ha : nested a = true
    · rw [if_pos ha, h a List.mem_cons_self ha, flatten_nil, ha]
      rfl
    · have hfalse : nested a = false := by simpa using ha
      rw [if_neg ha, hfalse]
      rfl

/-- Where a member of the flat list comes from. -/
theorem mem_flatten {P : ι → Prop} (hsub : ∀ a, P a → ∀ b ∈ sub a, P b) {depth : Nat} {l : List ι}
    (hl : ∀ a ∈ l, P a) {b : ι} (hb : b ∈ flatten nested sub depth l) : P b ∧ nested b = false := by
  induction depth generalizing l with
  | zero => simp [flatten] at hb
  | succ depth ih =>
    obtain ⟨a, ha, hb⟩ := List.mem_flatMap.mp hb
    split at hb
    · exact ih (hsub a (hl a ha)) hb
    · next hn =>
      obtain rfl := List.mem_singleton.mp hb
      exact ⟨hl b ha, by simpa using hn⟩

/-- A leaf stays one in other nested lists, if they have it where the first have it, and
    have all that these are nested in. -/
theorem mem_flatten_of {nested' : ι → Bool} {sub' : ι → List ι} {b : ι} (hb : nested' b = false)
    (hleaf : ∀ q, b ∈ sub q → b ∈ sub' q)
    (hnest : ∀ q, ∀ a ∈ sub q, nested a = true → sub a ≠ [] → a ∈ sub' q ∧ nested' a = true)
    {depth : Nat} {q : ι} (h : b ∈ flatten nested sub depth (sub q)) :
    b ∈ flatten nested' sub' depth (sub' q) := by
  induction depth generalizing q with
  | zero => simp [flatten] at h
  | succ depth ih =>
    obtain ⟨a, ha, hba⟩ := List.mem_flatMap.mp h
    split at hba
    · next hn =>
      have hne : sub a ≠ [] := fun he => by simp [he, flatten_nil] at hba
      obtain ⟨ha', hn'⟩ := hnest q a ha hn hne
      exact List.mem_flatMap.mpr ⟨a, ha', by rw [if_pos hn']; exact ih hba⟩
    · obtain rfl := List.mem_singleton.mp hba
      exact List.mem_flatMap.mpr ⟨b, hleaf q ha, by rw [hb]; simp⟩

/-- Nested lists with the same members, in any order, have the same leaves. -/
theorem mem_flatten_congr {sub' : ι → List ι} (hsub : ∀ a b, b ∈ sub a ↔ b ∈ sub' a) {depth : Nat}
    {l l' : List ι} (hl : ∀ a, a ∈ l ↔ a ∈ l') (b : ι) :
    b ∈ flatten nested sub depth l ↔ b ∈ flatten nested sub' depth l' := by
  induction depth generalizing l l' with
  | zero => rfl
  | succ depth ih =>
    simp only [flatten, List.mem_flatMap, hl]
    refine exists_congr fun a => and_congr_right fun _ => ?_
    split
    · exact ih (hsub a)
    · rfl

theorem Deep.congr {sub' : ι → List ι} (hsub : ∀ a b, b ∈ sub a ↔ b ∈ sub' a) {depth : Nat}
    {l l' : List ι} (hl : ∀ a, a ∈ l ↔ a ∈ l') (h : Deep nested sub depth l) :
    Deep nested sub' depth l' := by
  induction depth generalizing l l' with
  | zero => exact h
  | succ depth ih => exact fun a ha hn => ih (hsub a) (h a ((hl a).mpr ha) hn)

theorem Deep.tail {depth : Nat} {a : ι} {l : List ι} (h : Deep nested sub depth (a :: l)) :
    Deep nested sub depth l := by
  cases depth with
  | zero => exact h
  | succ depth => exact fun b hb => h b (List.mem_cons_of_mem a hb)

/-! ### How often a leaf occurs -/

/-- With a finer notion of what stands for a list, members that stand for nothing are leaves
    too. -/
theorem flatten_eq_filter_flatten {nested' : ι → Bool} {P : ι → Prop}
    (hsub : ∀ a, P a → ∀ b ∈ sub a, P b) (hle : ∀ a, P a → nested' a = true → nested a = true)
    (hempty : ∀ a, P a → nested a = true → nested' a = false → sub a = []) (depth : Nat)
    {l : List ι} (hl : ∀ a ∈ l, P a) :
    flatten nested sub depth l = (flatten nested' sub depth l).filter fun a => !nested a := by
  induction depth generalizing l with
  | zero => rfl
  | succ depth ih =>
    induction l with
    | nil => rfl
    | cons a l ihl =>
      have ha := hl a List.mem_cons_self
      rw [flatten_cons, flatten_cons, ihl fun b hb => hl b (List.mem_cons_of_mem a hb),
        List.filter_append]
      congr 1
      by_cases hn' : nested' a = true
      · rw [if_pos hn', if_pos (hle a ha hn'), ih (hsub a ha)]
      · rw [if_neg hn']
        by_cases hn : nested a = true
        · rw [if_pos hn, hempty a ha hn (by simpa using hn'), flatten_nil]
          simp [hn]
        · rw [if_neg hn]
          simp [hn]

variable [BEq ι]

theorem count_flatMap_of_only [LawfulBEq ι] {f : ι → List ι} {l : List ι} {a b : ι}
    (h : ∀ c ∈ l, c ≠ a → b ∉ f c) : (l.flatMap f).count b = l.count a * (f a).count b := by
  induction l with
  | nil => simp
  | cons c l ih =>
    rw [List.flatMap_cons, List.count_append, ih fun d hd => h d (List.mem_cons_of_mem c hd)]
    by_cases hc : c = a
    · subst hc
      rw [List.count_cons_self, Nat.succ_mul, Nat.add_comm]
    · rw [List.count_cons_of_ne hc, List.count_eq_zero_of_not_mem (h c List.mem_cons_self hc),
        Nat.zero_add]

theorem count_le_flatMap {f : ι → List ι} {l : List ι} {a : ι} (ha : a ∈ l) (b : ι) :
    (f a).count b ≤ (l.flatMap f).count b := by
  have hsub : List.Sublist ([a].flatMap f) (l.flatMap f) :=
    (List.singleton_sublist.mpr ha).flatMap f
  simpa using hsub.count_le b

/-- Two members of a list both have their part in it. -/
theorem count_add_le_flatMap {f : ι → List ι} {l : List ι} {a c : ι} (hne : a ≠ c) (ha : a ∈ l)
    (hc : c ∈ l) (b : ι) : (f a).count b + (f c).count b ≤ (l.flatMap f).count b := by
  have hpair : List.Subperm [a, c] l := List.Nodup.subperm (by simp [hne]) (by simp [ha, hc])
  obtain ⟨l', hperm, hsub⟩ := hpair
  have hcount : (l'.flatMap f).count b = (f a).count b + (f c).count b := by
    rw [(hperm.flatMap_right f).count_eq b]
    simp
  rw [← hcount]
  exact (hsub.flatMap f).count_le b

end

end Libsd.Assign

/-
  Libsd/CallArgs.lean
  ===================
  **The arguments of a call, and the room `svisit` has for them.**

  The parser takes any number of arguments, the walker does not count them, and
  `svisit` stores them in an array of six.  So an equation that is walked keeps to that
  array just when none of its calls has more than six arguments (`argsInside_iff`).
-/
import Libsd.FlatBuild
import Libsd.Lib.Outcome
import Libsd.Values

namespace Libsd

/-- A call has no more arguments than `svisit` has room for. -/
def Node.ArgsFit : Node → Prop
  | .call _ args _ => args.length ≤ 6
  | _ => True

theorem Node.length_linkArgs (find : CStr → Option Path) (args : List Node) :
    (Node.linkArgs find args).length = args.length := by
  induction args with
  | nil => rfl
  | cons a args ih => rw [Node.linkArgs, List.length_cons, List.length_cons, ih]

theorem Node.argsFit_link {find : CStr → Option Path} {n : Node} :
    (n.link find).ArgsFit ↔ n.ArgsFit := by
  cases n with
  | call l args fn =>
    show (Node.linkArgs find args).length ≤ 6 ↔ args.length ≤ 6
    rw [Node.length_linkArgs]
  | _ => exact Iff.rfl

/-- The walk neither adds nor drops arguments. -/
theorem Node.everywhere_argsFit_link {find : CStr → Option Path} {n : Node} :
    (n.link find).Everywhere Node.ArgsFit ↔ n.Everywhere Node.ArgsFit := by
  rw [Node.everywhere_link_iff]
  exact ⟨.imp fun _ => Node.argsFit_link.mp, .imp fun _ => Node.argsFit_link.mpr⟩

/-- No argument has been stored behind the array. -/
def StoresInside {α : Type} (r : Except Stop α) : Prop := r ≠ .error (.undefined .argsOverflow)

theorem storesInside_ok {α : Type} (a : α) : StoresInside (.ok a : Except Stop α) := by
  rintro ⟨⟩

theorem StoresInside.bind {α β : Type} {r : Except Stop α} {f : α → Except Stop β}
    (hr : StoresInside r) (hf : ∀ a, StoresInside (f a)) : StoresInside (r >>= f) :=
  Outcome.bind_ne_error hr fun a _ => hf a

section
variable {env : Env} {read : Path → ℚ} {dt time : ℚ}

mutual
theorem svisit_storesInside : ∀ {n : Node}, n.Everywhere Node.ArgsFit →
    StoresInside (svisit env read dt time n)
  | .null, _ => by rintro ⟨⟩
  | .paren l, h => svisit_storesInside (n := l) h.2
  | .floatlit _ v, _ => storesInside_ok v
  | .ident _ none, _ => by rintro ⟨⟩
  | .ident _ (some p), _ => storesInside_ok _
  | .call _ args fn, h => by
    have hlen : args.length ≤ 6 := h.1
    refine (svisitArgs_storesInside h.2 0 (by omega)).bind fun vs => ?_
    cases fn with
    | none => rintro ⟨⟩
    | some fn =>
      obtain ⟨v, hv⟩ := callFn_ok env fn dt time vs
      simp only [hv]
      exact storesInside_ok v
  | .binary op l r, h =>
    (svisit_storesInside h.2.1).bind fun _ => (svisit_storesInside h.2.2).bind fun _ =>
      storesInside_ok _
  | .unary op l, h => (svisit_storesInside h.2).bind fun _ => storesInside_ok _
  | .ifElse c l r, h => by
    refine (svisit_storesInside h.2.1).bind fun v => ?_
    split
    · exact svisit_storesInside h.2.2.1
    · exact svisit_storesInside h.2.2.2

/-- The arguments from index `i` on, when the last one still has its place. -/
theorem svisitArgs_storesInside : ∀ {args : List Node}, Node.EverywhereArgs Node.ArgsFit args →
    ∀ i, i + args.length ≤ 6 → StoresInside (svisitArgs env read dt time i args)
  | [], _, _, _ => storesInside_ok _
  | a :: args, h, i, hi => by
    rw [List.length_cons] at hi
    refine (svisit_storesInside h.1).bind fun v => ?_
    have hlt : ¬ i ≥ 6 := by omega
    simp only [if_neg hlt]
    exact (svisitArgs_storesInside h.2 (i + 1) (by omega)).bind fun _ => storesInside_ok _
end

end

/-! ### From the equation to the array -/

/-- The calls of an accepted equation: one with more than six arguments is rejected by the
    walk that every equation goes through before it is evaluated, and in no row is an
    argument of a call stored at index 6. -/
structure ArgsInside (eqn : CStr) : Prop where
  rejected : ∀ n scope m deps, avarEqnParse eqn = .ok n → nodeWalk scope n = .ok (m, deps) →
    m.Everywhere Node.ArgsFit
  stored : ∀ n scope m deps, avarEqnParse eqn = .ok n → nodeWalk scope n = .ok (m, deps) →
    m.Everywhere fun k => ∀ env read dt time, StoresInside (svisit env read dt time k)

/-- The scope of a module without variables. -/
def Scope.empty : Scope := { base := [], avars := [], parent := none }

theorem Scope.empty_searchable : Scope.empty.Searchable := fun _ => ⟨none, rfl⟩

/-- For an equation of less than 2^31 bytes. -/
theorem argsInside_iff (eqn : CStr) : ArgsInside eqn ↔
    ∀ n, avarEqnParse eqn = .ok n → n.Everywhere Node.Present → n.Everywhere Node.ArgsFit := by
  constructor
  · intro h n hn hpresent
    have hnull : n.isNull = false := by
      cases n with
      | null => exact absurd hpresent id
      | paren | floatlit | ident | call | binary | unary | ifElse => rfl
    have hwalk := nodeWalk_ok Scope.empty_searchable hnull hpresent
    exact Node.everywhere_argsFit_link.mp (h.rejected n _ _ _ hn hwalk)
  · intro h
    have hfits : ∀ n scope m deps, avarEqnParse eqn = .ok n → nodeWalk scope n = .ok (m, deps) →
        m.Everywhere Node.ArgsFit := by
      intro n scope m deps hn hwalk
      obtain ⟨-, hpresent, heq⟩ := nodeWalk_spec hwalk
      cases heq
      exact Node.everywhere_argsFit_link.mpr (h n hn hpresent)
    refine ⟨hfits, ?_⟩
    intro n scope m deps hn hwalk
    exact (hfits n scope m deps hn hwalk).parts.imp fun k hk env read dt time =>
      svisit_storesInside hk

/-- Seven arguments are parsed and walked, and the last one is stored behind the array. -/
theorem sevenArguments_not_inside : ¬ ArgsInside (cstr "max(1, 2, 3, 4, 5, 6, 7)") := by
  intro h
  obtain ⟨n, hn, hP⟩ := exists_ok (x := avarEqnParse (cstr "max(1, 2, 3, 4, 5, 6, 7)"))
    (P := fun n => decide ((nodeWalk .empty n).map
        (fun r => svisit (.plain true) (fun _ => 0) 1 0 r.1) =
      .ok (.error (.undefined .argsOverflow)))) (by decide +kernel)
  have hvisit := of_decide_eq_true hP
  cases hwalk : nodeWalk .empty n with
  | error e =>
    rw [hwalk] at hvisit
    cases hvisit
  | ok r =>
    obtain ⟨m, deps⟩ := r
    rw [hwalk] at hvisit
    have hstored := (h.stored n .empty m deps hn hwalk).self
    exact hstored (.plain true) (fun _ => 0) 1 0 (Except.ok.inj hvisit)

end Libsd

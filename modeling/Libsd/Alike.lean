/-
  Libsd/Alike.lean
  ================
  **Models that say the same, about other names.**

  `Node.Alike f` holds of two equations that differ in the names `f` takes to each
  other, in parentheses and in how a number is written.  They have the same value
  where these names have (`Node.Alike.svisit_eq`).  `Translates f` says it of two models:
  each variable of the second is one of the first under another name, and the first may
  have more of them.
-/
import Libsd.FlatBuild
import Libsd.Values

namespace Libsd

open Relation

variable {f g : CStr → Option CStr}

mutual
inductive Node.Alike (f : CStr → Option CStr) : Node → Node → Prop
  | parenLeft {l n : Node} (h : Node.Alike f l n) : Node.Alike f (.paren l) n
  | parenRight {n l : Node} (h : Node.Alike f n l) : Node.Alike f n (.paren l)
  | floatlit {s s' : CStr} {v v' : ℚ} (h : atof s = atof s') :
    Node.Alike f (.floatlit s v) (.floatlit s' v')
  | ident {s s' : CStr} {av av' : Option Path} (h : f (skipDot s) = some (skipDot s')) :
    Node.Alike f (.ident s av) (.ident s' av')
  | call {l : Node} {args args' : List Node} {fn fn' : Option Fn}
    (h : Node.AlikeArgs f args args') : Node.Alike f (.call l args fn) (.call l args' fn')
  | binary {op : Nat} {l l' r r' : Node} (hl : Node.Alike f l l') (hr : Node.Alike f r r') :
    Node.Alike f (.binary op l r) (.binary op l' r')
  | unary {op : Nat} {l l' : Node} (h : Node.Alike f l l') :
    Node.Alike f (.unary op l) (.unary op l')
  | ifElse {c c' l l' r r' : Node} (hc : Node.Alike f c c') (hl : Node.Alike f l l')
    (hr : Node.Alike f r r') : Node.Alike f (.ifElse c l r) (.ifElse c' l' r')

inductive Node.AlikeArgs (f : CStr → Option CStr) : List Node → List Node → Prop
  | nil : Node.AlikeArgs f [] []
  | cons {a a' : Node} {args args' : List Node} (h : Node.Alike f a a')
    (hs : Node.AlikeArgs f args args') : Node.AlikeArgs f (a :: args) (a' :: args')
end

namespace Node

section
variable {env : Env} {dt time : ℚ} {find find' : CStr → Option Path} {read read' : Path → ℚ}

mutual
/-- What `svisit` makes of them, over names that have the same values. -/
theorem Alike.svisit_eq (hread : ∀ s s', f (skipDot s) = some (skipDot s') →
    (find s).map read = (find' s').map read') : ∀ {n n' : Node}, n.Alike f n' →
    svisit env read dt time (n.link find) = svisit env read' dt time (n'.link find')
  | _, _, .parenLeft h => h.svisit_eq hread
  | _, _, .parenRight h => h.svisit_eq hread
  | _, _, .floatlit h => congrArg Except.ok h
  | .ident s _, .ident s' _, .ident h => by
    have hs := hread s s' h
    simp only [link, svisit]
    cases hp : find s with
    | none =>
      have hp' : find' s' = none := by simpa [hp, eq_comm] using hs
      rw [hp']
    | some p =>
      obtain ⟨p', hp', hpp⟩ : ∃ p', find' s' = some p' ∧ read' p' = read p := by
        simpa [hp, eq_comm] using hs
      rw [hp']
      exact congrArg Except.ok hpp.symm
  | _, _, .call h => by simp only [link, svisit, h.svisitArgs_eq hread 0]
  | _, _, .binary hl hr => by simp only [link, svisit, hl.svisit_eq hread, hr.svisit_eq hread]
  | _, _, .unary h => by simp only [link, svisit, h.svisit_eq hread]
  | _, _, .ifElse hc hl hr => by
    simp only [link, svisit, hc.svisit_eq hread, hl.svisit_eq hread, hr.svisit_eq hread]

theorem AlikeArgs.svisitArgs_eq (hread : ∀ s s', f (skipDot s) = some (skipDot s') →
    (find s).map read = (find' s').map read') : ∀ {args args' : List Node},
    AlikeArgs f args args' → ∀ i, svisitArgs env read dt time i (linkArgs find args) =
      svisitArgs env read' dt time i (linkArgs find' args')
  | _, _, .nil, _ => rfl
  | _, _, .cons h hs, i => by
    simp only [linkArgs, svisitArgs, h.svisit_eq hread, hs.svisitArgs_eq hread (i + 1)]
end

end

/-- The names that `f` takes to each other, a leading dot apart. -/
def AlikeNames (f : CStr → Option CStr) : List CStr → List CStr → Prop :=
  List.Forall₂ fun s s' => f (skipDot s) = some (skipDot s')

theorem AlikeNames.of_mem {names names' : List CStr} (h : AlikeNames f names names') {s' : CStr}
    (hs : s' ∈ names') : ∃ s ∈ names, f (skipDot s) = some (skipDot s') := by
  induction h with
  | nil => exact absurd hs List.not_mem_nil
  | cons h _ ih =>
    rcases List.mem_cons.mp hs with rfl | hs
    · exact ⟨_, List.mem_cons_self, h⟩
    · obtain ⟨s, hmem, hs⟩ := ih hs
      exact ⟨s, List.mem_cons_of_mem _ hmem, hs⟩

theorem AlikeNames.append {a a' b b' : List CStr} (ha : AlikeNames f a a')
    (hb : AlikeNames f b b') : AlikeNames f (a ++ b) (a' ++ b') := by
  induction ha with
  | nil => exact hb
  | cons h _ ih => exact .cons h ih

theorem AlikeNames.symm (hg : ∀ a c, f a = some c → g c = some a) {names names' : List CStr}
    (h : AlikeNames f names names') : AlikeNames g names' names :=
  (List.Forall₂.imp (fun _ _ h => hg _ _ h) h).flip

theorem alikeNames_self {names : List CStr}
    (h : ∀ s ∈ names, f (skipDot s) = some (skipDot s)) : AlikeNames f names names :=
  List.forall₂_same.mpr h

mutual
theorem Alike.names : ∀ {n n' : Node}, n.Alike f n' → AlikeNames f n.names n'.names
  | _, _, .parenLeft h => h.names
  | _, _, .parenRight h => h.names
  | _, _, .floatlit _ => .nil
  | _, _, .ident h => .cons h .nil
  | _, _, .call h => h.names
  | _, _, .binary hl hr => hl.names.append hr.names
  | _, _, .unary h => h.names
  | _, _, .ifElse hc hl hr => (hc.names.append hl.names).append hr.names

theorem AlikeArgs.names : ∀ {args args' : List Node}, AlikeArgs f args args' →
    AlikeNames f (namesArgs args) (namesArgs args')
  | _, _, .nil => .nil
  | _, _, .cons h hs => h.names.append hs.names
end

mutual
theorem Alike.symm (hg : ∀ a c, f a = some c → g c = some a) : ∀ {n n' : Node}, n.Alike f n' →
    n'.Alike g n
  | _, _, .parenLeft h => .parenRight (h.symm hg)
  | _, _, .parenRight h => .parenLeft (h.symm hg)
  | _, _, .floatlit h => .floatlit h.symm
  | _, _, .ident h => .ident (hg _ _ h)
  | _, _, .call h => .call (h.symm hg)
  | _, _, .binary hl hr => .binary (hl.symm hg) (hr.symm hg)
  | _, _, .unary h => .unary (h.symm hg)
  | _, _, .ifElse hc hl hr => .ifElse (hc.symm hg) (hl.symm hg) (hr.symm hg)

theorem AlikeArgs.symm (hg : ∀ a c, f a = some c → g c = some a) : ∀ {args args' : List Node},
    AlikeArgs f args args' → AlikeArgs g args' args
  | _, _, .nil => .nil
  | _, _, .cons h hs => .cons (h.symm hg) (hs.symm hg)
end

mutual
/-- An equation is like itself when its names stay as they are. -/
theorem alike_self : ∀ {n : Node}, n.Everywhere Present →
    (∀ s ∈ n.names, f (skipDot s) = some (skipDot s)) → n.Alike f n
  | .null, h, _ => absurd h id
  | .paren _, h, hn => .parenLeft (.parenRight (alike_self h.2 hn))
  | .floatlit _ _, _, _ => .floatlit rfl
  | .ident _ _, _, hn => .ident (hn _ List.mem_cons_self)
  | .call _ _ _, h, hn => .call (alikeArgs_self h.2 hn)
  | .binary _ _ _, h, hn =>
    .binary (alike_self h.2.1 fun s hs => hn s (List.mem_append_left _ hs))
      (alike_self h.2.2 fun s hs => hn s (List.mem_append_right _ hs))
  | .unary _ _, h, hn => .unary (alike_self h.2 hn)
  | .ifElse _ _ _, h, hn =>
    .ifElse (alike_self h.2.1 fun s hs => hn s (List.mem_append_left _ (List.mem_append_left _ hs)))
      (alike_self h.2.2.1 fun s hs =>
        hn s (List.mem_append_left _ (List.mem_append_right _ hs)))
      (alike_self h.2.2.2 fun s hs => hn s (List.mem_append_right _ hs))

theorem alikeArgs_self : ∀ {args : List Node}, EverywhereArgs Present args →
    (∀ s ∈ namesArgs args, f (skipDot s) = some (skipDot s)) → AlikeArgs f args args
  | [], _, _ => .nil
  | _ :: _, h, hn =>
    .cons (alike_self h.1 fun s hs => hn s (List.mem_append_left _ hs))
      (alikeArgs_self h.2 fun s hs => hn s (List.mem_append_right _ hs))
end

mutual
theorem Alike.present : ∀ {n n' : Node}, n.Alike f n' → n.Everywhere Present →
    n'.Everywhere Present
  | _, _, .parenLeft h, hp => h.present hp.2
  | _, _, .parenRight h, hp => ⟨trivial, h.present hp⟩
  | _, _, .floatlit _, _ => trivial
  | _, _, .ident _, _ => trivial
  | _, _, .call h, hp => ⟨hp.1, h.present hp.2⟩
  | _, _, .binary hl hr, hp => ⟨trivial, hl.present hp.2.1, hr.present hp.2.2⟩
  | _, _, .unary h, hp => ⟨trivial, h.present hp.2⟩
  | _, _, .ifElse hc hl hr, hp =>
    ⟨trivial, hc.present hp.2.1, hl.present hp.2.2.1, hr.present hp.2.2.2⟩

theorem AlikeArgs.present : ∀ {args args' : List Node}, AlikeArgs f args args' →
    EverywhereArgs Present args → EverywhereArgs Present args'
  | _, _, .nil, _ => trivial
  | _, _, .cons h hs, hp => ⟨h.present hp.1, hs.present hp.2⟩
end

theorem isNull_of_present {n : Node} (h : n.Everywhere Present) : n.isNull = false := by
  cases n with
  | null => exact absurd h id
  | _ => rfl

end Node

/-! ### Variables and models -/

/-- Variables of the same kind with equations that are alike. -/
structure Var.Alike (f : CStr → Option CStr) (v v' : Var) : Prop where
  type : v'.type = v.type
  tree : v.tree.Alike f v'.tree
  const : v'.tree.isFloatlit = v.tree.isFloatlit
  gf : v'.gf = v.gf
  inflows : Node.AlikeNames f v.inflows v'.inflows
  outflows : Node.AlikeNames f v.outflows v'.outflows

/-- Under the names that `f` gives them, some of the variables of the first model are all
    of the second. -/
structure Translates (f : CStr → Option CStr) (model model' : SDModel) : Prop where
  time : f (cstr "time") = some (cstr "time")
  inj : ∀ a b c, f a = some c → f b = some c → a = b
  has : ∀ a c, f a = some c → model.Has a → model'.Has c
  var : ∀ v' ∈ model'.vars, ∃ v ∈ model.vars, ∃ n n', v.name = some n ∧ v'.name = some n' ∧
    f n = some n' ∧ v.Alike f v'

namespace Translates

variable {model model' : SDModel} (h : Translates f model model')
include h

/-- A name of the second model is that of something in the first. -/
theorem source {c : CStr} (hc : model'.Has c) : ∃ a, f a = some c ∧ model.Has a := by
  rcases hc with rfl | ⟨v', hv', hc⟩
  · exact ⟨_, h.time, .inl rfl⟩
  · obtain ⟨v, hv, n, n', hn, hn', hf, -⟩ := h.var v' hv'
    obtain rfl := Option.some.inj (hc.symm.trans hn')
    exact ⟨n, hf, .inr ⟨v, hv, hn⟩⟩

theorem has_iff {a c : CStr} (hf : f a = some c) : model.Has a ↔ model'.Has c := by
  refine ⟨h.has a c hf, fun hc => ?_⟩
  obtain ⟨b, hb, hhas⟩ := h.source hc
  rwa [h.inj a b c hf hb]

/-- The variable that has the name in the first model. -/
theorem refersTo {a' b' : CStr} (hr : model'.RefersTo a' b') :
    ∃ a b, f a = some a' ∧ f b = some b' ∧ model.RefersTo a b := by
  obtain ⟨hhas, v', hv', hname', s', hs', rfl⟩ := hr
  obtain ⟨v, hv, n, n', hn, hn', hf, halike⟩ := h.var v' hv'
  obtain rfl := Option.some.inj (hname'.symm.trans hn')
  obtain ⟨s, hs, hss⟩ := halike.tree.names.of_mem hs'
  exact ⟨n, skipDot s, hf, hss, (h.has_iff hss).mpr hhas, v, hv, hn, s, hs, rfl⟩

theorem transGen {a' b' : CStr} (hr : TransGen model'.RefersTo a' b') :
    ∃ a b, f a = some a' ∧ f b = some b' ∧ TransGen model.RefersTo a b := by
  induction hr with
  | single hr =>
    obtain ⟨a, b, ha, hb, hr⟩ := h.refersTo hr
    exact ⟨a, b, ha, hb, .single hr⟩
  | tail _ hr ih =>
    obtain ⟨a, b, ha, hb, htrans⟩ := ih
    obtain ⟨b1, c, hb1, hc, hr⟩ := h.refersTo hr
    obtain rfl := h.inj _ _ _ hb hb1
    exact ⟨a, c, ha, hc, htrans.tail hr⟩

/-- The second model is accepted when the first one is. -/
theorem accepted (hacc : model.Accepted) : model'.Accepted := by
  have hflows : ∀ {names names' : List CStr}, Node.AlikeNames f names names' →
      (∀ n ∈ names, model.Has (skipDot n)) → ∀ n' ∈ names', model'.Has (skipDot n') := by
    intro names names' halike hall n' hn'
    obtain ⟨n, hn, hf⟩ := halike.of_mem hn'
    exact (h.has_iff hf).mp (hall n hn)
  constructor
  · intro v' hv'
    obtain ⟨v, hv, -, -, -, -, -, halike⟩ := h.var v' hv'
    have hvar := hacc.vars v hv
    have hpresent := halike.tree.present hvar.present
    have hnull := Node.isNull_of_present hpresent
    refine ⟨fun eqn heqn => ?_, halike.type ▸ hvar.notRef, hnull, hpresent,
      hflows halike.inflows hvar.inflows, hflows halike.outflows hvar.outflows⟩
    -- an equation that cannot be parsed has no tree
    simp only [Var.tree, heqn] at hnull ⊢
    cases hparse : avarEqnParse eqn with
    | ok n => rfl
    | error e =>
      rw [hparse] at hnull
      exact absurd hnull (by simp [Node.isNull])
  · intro name hcyc
    obtain ⟨a, b, ha, hb, htrans⟩ := h.transGen hcyc
    obtain rfl := h.inj _ _ _ ha hb
    exact hacc.acyclic a htrans

theorem flat (hflat : model.Flat) : model'.Flat := by
  intro v' hv'
  obtain ⟨v, hv, -, -, -, -, -, halike⟩ := h.var v' hv'
  rw [halike.type]
  exact hflat v hv

end Translates

end Libsd

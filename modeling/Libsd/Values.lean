/-
  Libsd/Values.lean
  =================
  **The value of an equation, over values by name.**

  `Node.value` is a total function.  `svisit` returns it when every name it comes to
  is known and every call has room for its arguments (`svisit_link`): the loops of
  `rt_pulse` and of the search in a table always end.
-/
import Libsd.Linked
import Libsd.Lookup
import Libsd.Pulse

namespace Libsd

/-! ### The value of an equation -/

section
variable (env : Env) (dt time : ℚ)

def Fn.value (fn : Option Fn) (args : List ℚ) : ℚ :=
  match fn with
  | none => 0
  | some fn =>
    match callFn env fn dt time args with
    | .ok v => v
    | .error _ => 0

variable (σ : CStr → ℚ)

mutual
/-- The value of an equation over the values of the variables by name. -/
def Node.value : Node → ℚ
  | .null => 0
  | .paren l => l.value
  | .floatlit s _ => atof s
  | .ident s _ => σ (skipDot s)
  | .call l args _ =>
    Fn.value env dt time (l.sval.bind fun s => RT_FNS.lookup s) (Node.valueArgs args)
  | .ifElse c l r => if c.value ≠ 0 then l.value else r.value
  | .unary op l => unaryOp env op l.value
  | .binary op l r => binaryOp env op l.value r.value

def Node.valueArgs : List Node → List ℚ
  | [] => []
  | a :: args => a.value :: Node.valueArgs args
end

end

/-- A graphical function, if there is one, applied to a value. -/
def tableValue (gf : Option Table) (v : ℚ) : ℚ :=
  match gf with
  | none => v
  | some t =>
    match lookup t v with
    | .ok y => y
    | .error _ => 0

/-! ### Runtime functions -/

theorem callFn_ok (env : Env) (fn : Fn) (dt time : ℚ) (args : List ℚ) :
    ∃ v, callFn env fn dt time args = .ok v := by
  cases fn with
  | pulse => exact rtPulse_ok dt time args
  | min => exact ⟨_, rfl⟩
  | max => exact ⟨_, rfl⟩

/-! ### Tables -/

/-- The arrays of a table are as long as it says. -/
def Table.Filled (t : Table) : Prop := t.len ≤ t.x.length ∧ t.len ≤ t.y.length

theorem tableValue_ok (t : Table) (v : ℚ) : lookup t v = .ok (tableValue (some t) v) := by
  obtain ⟨y, hy⟩ := lookup_ok t v
  simp only [tableValue, hy]

/-! ### Equations -/

/-- The names at a node lead to something, and its arguments fit. -/
def Node.Evaluates (find : CStr → Option Path) : Node → Prop
  | .ident s _ => find s ≠ none
  | .call l args _ => (∃ fn, l.sval.bind (fun s => RT_FNS.lookup s) = some fn) ∧ args.length ≤ 6
  | m => m.Present

section
variable {env : Env} {dt time : ℚ} {σ : CStr → ℚ} {find : CStr → Option Path} {read : Path → ℚ}

mutual
/-- `svisit` returns the value of the equation. -/
theorem svisit_link (hread : ∀ s p, find s = some p → read p = σ (skipDot s)) :
    ∀ {n : Node}, n.Everywhere (Node.Evaluates find) →
    svisit env read dt time (n.link find) = .ok (n.value env dt time σ)
  | .null, h => absurd h (by simp [Node.Everywhere, Node.Evaluates, Node.Present])
  | .paren l, h => svisit_link hread (n := l) h.2
  | .floatlit _ _, _ => rfl
  | .ident s _, h => by
    obtain ⟨p, hp⟩ := Option.ne_none_iff_exists'.mp h
    simp only [Node.link, hp, svisit, Node.value, hread s p hp]
  | .call l args fn, h => by
    obtain ⟨⟨⟨f, hf⟩, hlen⟩, hargs⟩ := h
    obtain ⟨v, hv⟩ := callFn_ok env f dt time (Node.valueArgs env dt time σ args)
    have hvs := svisitArgs_link hread hargs 0 (by omega)
    simp only [Node.link, svisit, bind, Except.bind, hvs, hf, Node.value, Fn.value, hv]
  | .binary op l r, h => by
    simp only [Node.link, svisit, svisit_link hread h.2.1, svisit_link hread h.2.2,
      Node.value, bind,
      Except.bind, pure, Except.pure]
  | .unary op l, h => by
    simp only [Node.link, svisit, svisit_link hread h.2, Node.value, bind, Except.bind, pure,
      Except.pure]
  | .ifElse c l r, h => by
    simp only [Node.link, svisit, svisit_link hread h.2.1, svisit_link hread h.2.2.1,
      svisit_link hread h.2.2.2, Node.value, bind, Except.bind]
    split <;> rfl

theorem svisitArgs_link (hread : ∀ s p, find s = some p → read p = σ (skipDot s)) :
    ∀ {args : List Node}, Node.EverywhereArgs (Node.Evaluates find) args →
    ∀ i, i + args.length ≤ 6 →
    svisitArgs env read dt time i (Node.linkArgs find args) =
      .ok (Node.valueArgs env dt time σ args)
  | [], _, _, _ => rfl
  | a :: args, h, i, hi => by
    rw [List.length_cons] at hi
    have hlt : ¬ i ≥ 6 := by omega
    simp only [Node.linkArgs, svisitArgs, svisit_link hread h.1, bind, Except.bind,
      if_neg hlt, pure,
      Except.pure, svisitArgs_link hread h.2 (i + 1) (by omega), Node.valueArgs]
end

end

end Libsd

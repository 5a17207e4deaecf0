/-
  Libsd/Unbounded.lean
  ====================
  **A slab without limits.**

  A call that keeps to the rows that were allocated does the same when the number of
  rows is not held against it (`unbounded_call`).
-/
import Libsd.Trajectory

namespace Libsd

def Env.unbounded (env : Env) : Env := { env with bounded := false }

section
variable (env : Env) (read : Path → ℚ) (dt time : ℚ)

theorem callFn_unbounded (fn : Fn) (args : List ℚ) :
    callFn env.unbounded fn dt time args = callFn env fn dt time args := by
  cases fn <;> rfl

mutual
/-- Evaluation does not depend on the bound. -/
theorem svisit_unbounded : ∀ n : Node,
    svisit env.unbounded read dt time n = svisit env read dt time n
  | .null => rfl
  | .paren l => svisit_unbounded l
  | .floatlit _ _ => rfl
  | .ident _ none => rfl
  | .ident _ (some _) => rfl
  | .call _ args fn => by simp only [svisit, svisitArgs_unbounded 0 args, callFn_unbounded]
  | .ifElse c l r => by
    simp only [svisit, svisit_unbounded c, svisit_unbounded l, svisit_unbounded r]
  | .unary op l => by
    simp only [svisit, svisit_unbounded l]
    rfl
  | .binary op l r => by
    simp only [svisit, svisit_unbounded l, svisit_unbounded r]
    rfl

theorem svisitArgs_unbounded : ∀ (i : Nat) (args : List Node),
    svisitArgs env.unbounded read dt time i args = svisitArgs env read dt time i args
  | _, [] => rfl
  | i, a :: args => by
    simp only [svisitArgs, svisit_unbounded a, svisitArgs_unbounded (i + 1) args]
end

end

def SDSim.unbounded (s : SDSim) : SDSim := { s with env := s.env.unbounded }

variable {s t : SDSim}

theorem unbounded_eval (row : Row) (n : Node) : s.unbounded.eval row n = s.eval row n :=
  svisit_unbounded _ _ _ _ n

theorem unbounded_calcValue (row : Row) (p : Path) :
    s.unbounded.calcValue row p = s.calcValue row p := by
  simp only [SDSim.calcValue, unbounded_eval]
  rfl

theorem unbounded_calc (list : Path → List Path) (fuel : Nat) (l : List Path) (row : Row) :
    s.unbounded.calc list fuel l row = s.calc list fuel l row := by
  induction fuel generalizing l row with
  | zero => rfl
  | succ fuel ih =>
    rw [SDSim.calc, SDSim.calc]
    induction l generalizing row with
    | nil => rfl
    | cons p l ihl =>
      have hnode : (s.unbounded.store p).node = (s.store p).node := rfl
      have hoffset : (s.unbounded.store p).offset = (s.store p).offset := rfl
      simp only [SDSim.calcLoop, ih, ihl, unbounded_calcValue, hnode, hoffset]

theorem unbounded_checkRow (row : Nat) : s.unbounded.checkRow row = .ok () := by
  simp [SDSim.checkRow, SDSim.unbounded, Env.unbounded]

theorem unbounded_calcStocks {curr : Row} {fuel : Nat} {l : List Path} {row row' : Row}
    (h : s.calcStocks curr fuel l row = .ok row') :
    s.unbounded.calcStocks curr fuel l row = .ok row' := by
  induction fuel generalizing l row row' with
  | zero => simp [SDSim.calcStocks] at h
  | succ fuel ih =>
    rw [SDSim.calcStocks] at h ⊢
    induction l generalizing row with
    | nil => exact h
    | cons p l ihl =>
      simp only [SDSim.calcStocksLoop, unbounded_eval, unbounded_checkRow] at h ⊢
      simp only [show s.unbounded.typeAt p = s.typeAt p from rfl,
        show s.unbounded.lists = s.lists from rfl]
      simp only [bind, Except.bind] at h ⊢
      split at h
      · simp at h
      · split at h
        · simp at h
        · exact ihl h
      · split at h
        · simp at h
        · next row1 h1 =>
          rw [ih h1]
          exact ihl h
      · split at h
        · simp at h
        · next v hv =>
          rw [show s.eval curr (s.unbounded.store p).node = .ok v from hv]
          split at h
          · simp at h
          · exact ihl h

/-! ### The calls -/

theorem unbounded_flowsPass (h : s.flowsPass = .ok t) :
    s.unbounded.flowsPass = .ok t.unbounded := by
  simp only [SDSim.flowsPass, unbounded_calc, bind, Except.bind] at h ⊢
  simp only [show s.unbounded.lists = s.lists from rfl,
    show s.unbounded.calcFuel = s.calcFuel from rfl, show s.unbounded.curr = s.curr from rfl]
  split at h
  · simp at h
  · obtain rfl := Except.ok.inj h
    rfl

theorem unbounded_stocksPass (h : s.stocksPass = .ok t) :
    s.unbounded.stocksPass = .ok t.unbounded := by
  simp only [SDSim.stocksPass, bind, Except.bind] at h ⊢
  split at h
  · simp at h
  · next row hrow =>
    obtain rfl := Except.ok.inj h
    have := unbounded_calcStocks hrow
    simp only [show s.unbounded.lists = s.lists from rfl, show s.unbounded.slab = s.slab from rfl,
      show s.unbounded.calcFuel = s.calcFuel from rfl, show s.unbounded.curr = s.curr from rfl,
      show s.unbounded.saveStep = s.saveStep from rfl, this]
    rfl

theorem unbounded_advance (h : s.advance = .ok t) : s.unbounded.advance = .ok t.unbounded := by
  simp only [SDSim.advance, unbounded_checkRow, bind, Except.bind] at h ⊢
  split at h
  · simp at h
  · by_cases hkeep : s.step % s.saveEvery ≠ 0
    · rw [if_pos hkeep] at h
      obtain rfl := Except.ok.inj h
      exact if_pos hkeep
    · rw [if_neg hkeep] at h
      obtain rfl := Except.ok.inj h
      exact if_neg hkeep

theorem unbounded_runLoop {stop : ℚ} {fuel : Nat} (h : SDSim.runLoop stop fuel s = .ok t) :
    SDSim.runLoop stop fuel s.unbounded = .ok t.unbounded := by
  induction fuel generalizing s with
  | zero =>
    obtain rfl := Except.ok.inj h
    rfl
  | succ fuel ih =>
    rw [SDSim.runLoop] at h ⊢
    by_cases hlt : s.step < s.nsteps
    · rw [if_pos hlt] at h
      rw [if_pos (show s.unbounded.step < s.unbounded.nsteps from hlt), unbounded_checkRow]
      simp only [bind, Except.bind] at h ⊢
      split at h
      · simp at h
      · by_cases hstop : s.curr TIME ≤ stop
        · rw [if_pos hstop] at h
          rw [if_pos (show s.unbounded.curr TIME ≤ stop from hstop)]
          split at h
          · simp at h
          · next t1 h1 =>
            rw [unbounded_flowsPass h1]
            split at h
            · simp at h
            · next t2 h2 =>
              simp only [unbounded_stocksPass h2]
              by_cases hlast : t2.step + 1 = t2.nsteps
              · rw [if_pos hlast] at h
                obtain rfl := Except.ok.inj h
                exact if_pos hlast
              · rw [if_neg hlast] at h
                rw [if_neg (show ¬ t2.unbounded.step + 1 = t2.unbounded.nsteps from hlast)]
                split at h
                · simp at h
                · next t3 h3 =>
                  rw [unbounded_advance h3]
                  exact ih h
        · rw [if_neg hstop] at h
          obtain rfl := Except.ok.inj h
          exact if_neg hstop
    · rw [if_neg hlt] at h
      obtain rfl := Except.ok.inj h
      exact if_neg hlt

theorem unbounded_reset (h : sdSimReset s = .ok t) : sdSimReset s.unbounded = .ok t.unbounded := by
  have hcleared : ∀ a b, s.unbounded.cleared a b = (s.cleared a b).unbounded := fun _ _ => rfl
  simp only [sdSimReset, hcleared, unbounded_calc, show s.unbounded.simSpecs = s.simSpecs from rfl]
    at h ⊢
  split at h
  · simp at h
  · next hdt =>
    rw [if_neg hdt]
    simp only [bind, Except.bind] at h ⊢
    split at h
    · simp at h
    · split at h
      · simp at h
      · split at h
        · simp at h
        · next row hrow =>
          obtain rfl := Except.ok.inj h
          simp only [show ∀ t : SDSim, t.unbounded.lists = t.lists from fun _ => rfl,
            show ∀ t : SDSim, t.unbounded.calcFuel = t.calcFuel from fun _ => rfl,
            show ∀ t : SDSim, t.unbounded.curr = t.curr from fun _ => rfl, hrow]
          rfl

theorem unbounded_call {c : Call} (h : s.call c = .ok t) :
    s.unbounded.call c = .ok t.unbounded := by
  cases c with
  | runTo stop => exact unbounded_runLoop h
  | runToEnd => exact unbounded_runLoop h
  | reset => exact unbounded_reset h

theorem unbounded_calls {cs : List Call} (h : s.calls cs = .ok t) :
    s.unbounded.calls cs = .ok t.unbounded := by
  induction cs generalizing s with
  | nil =>
    obtain rfl := Except.ok.inj h
    rfl
  | cons c cs ih =>
    simp only [SDSim.calls, bind, Except.bind] at h ⊢
    split at h
    · simp at h
    · next s1 h1 =>
      rw [unbounded_call h1]
      exact ih h

theorem unbounded_new {p : SDProject} {name : Option CStr} {env : Env}
    (h : sdSimNew env p name = .ok s) : sdSimNew env.unbounded p name = .ok s.unbounded := by
  unfold sdSimNew at h ⊢
  split at h
  · simp at h
  · simp only [bind, Except.bind] at h ⊢
    split at h
    · simp at h
    · split at h
      · simp at h
      · split at h
        · simp at h
        · exact unbounded_reset h

end Libsd

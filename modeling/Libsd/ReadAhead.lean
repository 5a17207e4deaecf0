/-
  Libsd/ReadAhead.lean
  ====================
  **What the run lists hold of the modules above a variable.**

  The search from a child of a module appends everything it marks to the lists of that
  module, the variables inside a later module too; when the loop comes to the later
  module, these marks are taken back and the variables are appended once more, to the
  lists of their own module.  For a variable at `p`, `EarlyTo` says which of the paths that
  lead down to `p` a module has appended in this way, and `sort_listed` that its lists
  hold these and the child that `p` is in, and of the way to `p` nothing else.
-/
import Libsd.CircularSort

namespace Libsd

open Outcome Relation DepthFirst

/-- A child before the child `j` leads to `x`. -/
def EarlyTo (st : Store) (m : Path) (j : Nat) (x : Path) : Prop :=
  ∃ i, sortStart m ≤ i ∧ i < j ∧ Leads st (m ++ [i]) x

/-- A postcondition of what returns. -/
abbrev IfOk {α : Type} (P : α → Prop) (x : Except Stop α) : Prop := Ends P (fun _ => True) x

variable {root : List AVar} {st : Store}

/-! ### One search, mark by mark -/

/-- What a search that returns does for the module at `m`: what it marks, it has appended. -/
structure Appends (root : List AVar) (st : Store) (m : Path) (starts : Path → Prop)
    (s s' : SortState) : Prop where
  kept : ∀ p, s.visited p = true → s'.visited p = true
  new : ∀ p, s'.visited p = true → s.visited p = true ∨ ∃ a, starts a ∧ Leads st a p
  visiting : s'.visiting = s.visiting
  active : ∀ p, s.visiting p = true → s'.visited p = s.visited p
  closed : ∀ Q, ClosedFor st Q s → ClosedFor st Q s'
  others : ∀ k q, q ≠ m → s'.lists.get k q = s.lists.get k q
  count : ∀ k p av, avarAt root p = some av → (s'.lists.get k m).count p =
    (s.lists.get k m).count p + (!s.visited p && s'.visited p && av.wants k).toNat

theorem Appends.marks {m : Path} {starts : Path → Prop} {s s' : SortState}
    (h : Appends root st m starts s s') (Q : Path → Prop) : Marks st Q starts s s' :=
  ⟨h.kept, h.new, h.visiting, h.closed Q⟩

theorem Appends.refl (m : Path) (starts : Path → Prop) (s : SortState) :
    Appends root st m starts s s where
  kept _ hp := hp
  new _ hp := .inl hp
  visiting := rfl
  active _ _ := rfl
  closed _ hQ := hQ
  others _ _ _ := rfl
  count k p av _ := by cases s.visited p <;> rfl

theorem Appends.trans {m : Path} {starts : Path → Prop} {s s' s'' : SortState}
    (h : Appends root st m starts s s') (h' : Appends root st m starts s' s'') :
    Appends root st m starts s s'' where
  kept p hp := h'.kept p (h.kept p hp)
  new p hp := (h'.new p hp).elim (h.new p) .inr
  visiting := h'.visiting.trans h.visiting
  active p hp := (h'.active p (h.visiting ▸ hp)).trans (h.active p hp)
  closed Q hQ := h'.closed Q (h.closed Q hQ)
  others k q hq := (h'.others k q hq).trans (h.others k q hq)
  count k p av hav := by
    rw [h'.count k p av hav, h.count k p av hav, Nat.add_assoc]
    have hkept := h.kept p
    have hkept' := h'.kept p
    revert hkept hkept'
    cases s.visited p <;> cases s'.visited p <;> cases s''.visited p <;> simp

theorem Appends.mono {m : Path} {starts starts' : Path → Prop} {s s' : SortState}
    (h : Appends root st m starts s s') (hle : ∀ a, starts a → ∃ b, starts' b ∧ Leads st b a) :
    Appends root st m starts' s s' :=
  { h with new := ((h.marks fun _ => True).mono hle).new }

theorem searchRel_appends (m : Path) : SearchRel (Appends root st m) where
  refl := .refl m
  trans := .trans
  mono h hle := h.mono fun a ha => ⟨a, hle a ha, .refl⟩
  kept h := h.kept

/-- Marking a node behind its dependencies. -/
theorem Appends.mark {m p : Path} {av : AVar} {s s' : SortState}
    (hvisited : s.visited p ≠ true) (hvisiting : s.visiting p ≠ true)
    (hav : avarAt root p = some av)
    (h : Appends root st m (· ∈ depsOf st p)
      { s with visiting := Function.update s.visiting p true } s')
    (hall : ∀ d ∈ depsOf st p, s'.visited d = true) :
    Appends root st m (· = p) s
      { visited := Function.update s'.visited p true,
        visiting := Function.update s'.visiting p false,
        lists := appendToLists s'.lists m p av } := by
  have hmark : ∀ q, q ≠ p → Function.update s'.visited p true q = s'.visited q := fun q hq =>
    Function.update_of_ne hq _ _
  have hself : Function.update s'.visited p true p = true := Function.update_self _ _ _
  -- the search below a node that is being visited does not mark it
  have hnot : s'.visited p = false :=
    (h.active p (Function.update_self _ _ _)).trans (by simpa using hvisited)
  have hm := fun Q => (h.marks Q).mark (appendToLists s'.lists m p av) hvisiting hall
  constructor
  case kept => exact (hm fun _ => True).kept
  case new => exact (hm fun _ => True).new
  case visiting => exact (hm fun _ => True).visiting
  case active =>
    intro q hq
    have hqp : q ≠ p := by
      rintro rfl
      exact hvisiting hq
    exact (hmark q hqp).trans (h.active q ((Function.update_of_ne hqp _ _).trans hq))
  case closed => exact fun Q => (hm Q).closed
  case others =>
    intro k q hq
    show (appendToLists _ _ _ _).get k q = _
    rw [appendToLists_get, ← h.others k q hq]
    split
    · exact appendAt_of_ne hq p
    · rfl
  case count =>
    intro k q av' hav'
    show ((appendToLists _ _ _ _).get k m).count q = _
    have hcount : (s'.lists.get k m).count q = (s.lists.get k m).count q +
        (!s.visited q && s'.visited q && av'.wants k).toNat := h.count k q av' hav'
    have happend : ((appendToLists s'.lists m p av).get k m).count q =
        (s'.lists.get k m).count q + (decide (q = p) && av.wants k).toNat := by
      rw [appendToLists_get]
      cases av.wants k with
      | false => simp
      | true =>
        rw [if_pos rfl, appendAt_self, List.count_append, List.count_singleton]
        by_cases hqp : q = p
        · simp [hqp]
        · simp [hqp, Ne.symm hqp]
    rw [happend, hcount, Nat.add_assoc]
    show _ = _ + (!s.visited q && Function.update s'.visited p true q && av'.wants k).toNat
    by_cases hqp : q = p
    · subst hqp
      obtain rfl : av = av' := Option.some.inj (hav.symm.trans hav')
      rw [hself, hnot, Bool.eq_false_iff.mpr hvisited]
      simp
    · rw [hmark q hqp]
      simp [hqp]

theorem moduleAddToRunlists_appends {m : Path} : ∀ {fuel : Nat} {p : Path} {s : SortState},
    IfOk (fun s' => Appends root st m (· = p) s s' ∧ s'.visited p = true)
      (moduleAddToRunlists root st m fuel p s) := by
  intro fuel
  induction fuel with
  | zero => exact trivial
  | succ fuel ih =>
    intro p s
    rw [moduleAddToRunlists]
    split_ifs with hvisited hvisiting
    · exact ⟨.refl m _ s, hvisited⟩
    · trivial
    refine ((searchRel_appends m).addDeps fun d _ s' _ => ih).bind ?_
    rintro s1 ⟨hs1, hall⟩
    cases hav : avarAt root p with
    | none => trivial
    | some av => exact ⟨hs1.mark hvisited hvisiting hav hall, Function.update_self _ _ _⟩

/-! ### Beside the way to a variable -/

theorem below_within {a b c : Path} (hab : a <+: b) (h : Below b c) : Below a c := by
  rcases prefix_iff_below.mp hab with rfl | hab
  · exact h
  · exact hab.trans h

theorem prefix_child (m : Path) (l : Nat) (r : Path) : m ++ [l] <+: m ++ l :: r := ⟨r, by simp⟩

/-- There is one way down to `p`. -/
theorem way_child {m p : Path} {j l : Nat} {r : Path} (hj : m ++ [j] <+: p)
    (hl : m ++ l :: r <+: p) : l = j := by
  by_contra hne
  exact not_prefix_both hne ((prefix_child m l r).trans hl) hj

/-- A child of a module that `p` is in. -/
def Alongside (p y : Path) : Prop := ∃ c l, y = c ++ [l] ∧ Below c p

variable {p : Path}

theorem alongside_above {x : Path} (hne : x ≠ []) (h : x <+: p) : Alongside p x := by
  rcases List.eq_nil_or_concat x with rfl | ⟨c, l, rfl⟩
  · exact absurd rfl hne
  · rw [List.concat_eq_append] at h ⊢
    exact ⟨c, l, rfl, (below_child c l).of_above h⟩

/-- What leads to something beside the way is beside the way. -/
theorem Alongside.of_leads (hst : Scoped st) {b y : Path} (hb : b ≠ []) (h : Leads st b y)
    (hy : Alongside p y) : Alongside p b := by
  obtain ⟨c, l, rfl, hc⟩ := hy
  rcases List.eq_nil_or_concat b with rfl | ⟨c', l', rfl⟩
  · exact absurd rfl hb
  · rw [List.concat_eq_append] at h ⊢
    refine ⟨c', l', rfl, below_within ?_ hc⟩
    obtain ⟨i, rest, hrest⟩ := below_of_leads hst (below_child c' l') h
    have hlen : c'.length ≤ c.length := by
      have := congrArg List.length hrest
      simp only [List.length_append, List.length_cons, List.length_nil] at this
      omega
    exact List.prefix_of_prefix_length_le (hrest ▸ List.prefix_append c' (i :: rest))
      (List.prefix_append c [l]) hlen

/-- What is deeper inside a child of `m` is beside the way to `p` only if `p` is in there. -/
theorem Alongside.below_child {m : Path} {l : Nat} {r : Path} (h : Alongside p (m ++ l :: r))
    (hr : r ≠ []) : Below (m ++ [l]) p := by
  obtain ⟨c, i, hc, hp⟩ := h
  refine below_within ?_ hp
  obtain ⟨r', i', rfl⟩ : ∃ r' i', r = r' ++ [i'] := ⟨_, _, (List.dropLast_append_getLast hr).symm⟩
  have : m ++ l :: r' = c := by
    have hc' : (m ++ l :: r') ++ [i'] = c ++ [i] := by simpa using hc
    exact (List.append_inj' hc' rfl).1
  exact ⟨r', by rw [← this]; simp⟩

/-- Below `m`, beside the way to `p`. -/
def Near (m p y : Path) : Prop := Below m y ∧ Alongside p y

/-- Marks lead on to what is near. -/
theorem ClosedFor.leads (hst : Scoped st) {m : Path} {s : SortState}
    (h : ClosedFor st (Near m p) s) {a y : Path} (ha : Near m p a) (hv : s.visited a = true)
    (hleads : Leads st a y) (hy : Near m p y) : s.visited y = true := by
  induction hleads using ReflTransGen.head_induction_on with
  | refl => exact hv
  | @head a b hab hby ih =>
    have hb : Below m b := below_of_dep hst ha.1 hab
    have hbne : b ≠ [] := by
      obtain ⟨i, rest, rfl⟩ := hb
      simp
    have hbnear : Near m p b := ⟨hb, hy.2.of_leads hst hbne hby⟩
    exact ih hbnear (h a ha hv b hab hbnear)

/-! ### The lists of a module above a variable -/

/-- Of the way to `p`, the lists of the module at `c` hold the child that `p` is in and what
    an earlier child leads to. -/
structure Listed (root : List AVar) (st : Store) (p : Path) (l : RunLists) (c : Path) : Prop where
  found : ∀ k j r av, c ++ j :: r <+: p → avarAt root (c ++ j :: r) = some av →
    r = [] ∨ EarlyTo st c j (c ++ j :: r) → (l.get k c).count (c ++ j :: r) = (av.wants k).toNat
  absent : ∀ k j r av, c ++ j :: r <+: p → avarAt root (c ++ j :: r) = some av →
    r ≠ [] → ¬ EarlyTo st c j (c ++ j :: r) → (l.get k c).count (c ++ j :: r) = 0

/-- The loop over the module at `m` has come to the child `i`; `p` is in the child `j`. -/
structure LoopAlong (root : List AVar) (st : Store) (p m : Path) (j i : Nat) (s : SortState) :
    Prop where
  reached : ∀ l r, Alongside p (m ++ l :: r) → s.visited (m ++ l :: r) = true →
    (sortStart m ≤ l ∧ l < i) ∨ EarlyTo st m i (m ++ l :: r)
  visited : ∀ l r av, Alongside p (m ++ l :: r) → avarAt root (m ++ l :: r) = some av →
    (sortStart m ≤ l ∧ l < i) ∨ EarlyTo st m i (m ++ l :: r) → s.visited (m ++ l :: r) = true
  marked : i ≤ j → ∀ k r av, m ++ j :: r <+: p → avarAt root (m ++ j :: r) = some av →
    (s.lists.get k m).count (m ++ j :: r) = (s.visited (m ++ j :: r) && av.wants k).toNat
  empty : i ≤ j → ∀ c, m ++ [j] <+: c → Below c p → ∀ k, s.lists.get k c = []
  listed : j < i → ∀ c, m <+: c → Below c p → Listed root st p s.lists c

/-- Before its own search, the child `i` has been sorted if it is a module. -/
structure ChildSorted (root : List AVar) (st : Store) (p m : Path) (j i : Nat)
    (s s' : SortState) : Prop where
  same : ∀ l r, Alongside p (m ++ l :: r) → l ≠ i ∨ r = [] →
    s'.visited (m ++ l :: r) = s.visited (m ++ l :: r)
  inside : ∀ r av, Alongside p (m ++ i :: r) → r ≠ [] → avarAt root (m ++ i :: r) = some av →
    s'.visited (m ++ i :: r) = true
  self : ∀ k, s'.lists.get k m = s.lists.get k m
  others : j ≠ i → ∀ c, m ++ [j] <+: c → Below c p → ∀ k, s'.lists.get k c = s.lists.get k c
  listed : j = i → ∀ c, m ++ [j] <+: c → Below c p → Listed root st p s'.lists c

theorem Listed.congr {l l' : RunLists} {c : Path} (h : Listed root st p l c)
    (heq : ∀ k, l'.get k c = l.get k c) : Listed root st p l' c where
  found k j r av hpre hav hin := by
    rw [heq]
    exact h.found k j r av hpre hav hin
  absent k j r av hpre hav hr hno := by
    rw [heq]
    exact h.absent k j r av hpre hav hr hno

section
variable {m : Path} {j i : Nat} {s s' s'' : SortState}

theorem EarlyTo.mono {j' : Nat} {x : Path} (h : EarlyTo st m j x) (hle : j ≤ j') :
    EarlyTo st m j' x := by
  obtain ⟨k, hk, hlt, hleads⟩ := h
  exact ⟨k, hk, by omega, hleads⟩

theorem EarlyTo.tail {x d : Path} (h : EarlyTo st m j x) (hd : d ∈ depsOf st x) :
    EarlyTo st m j d := by
  obtain ⟨k, hk, hlt, hleads⟩ := h
  exact ⟨k, hk, hlt, hleads.tail hd⟩

theorem sort_near_child (hj : m ++ [j] <+: p) (l : Nat) : Near m p (m ++ [l]) :=
  ⟨below_child m l, m, l, rfl, (below_child m j).of_above hj⟩

/-- Dependencies of what is inside the child `l` are inside it. -/
theorem dep_inside (hst : Scoped st) {l : Nat} {r d : Path} (hr : r ≠ [])
    (hd : d ∈ depsOf st (m ++ l :: r)) : ∃ r', r' ≠ [] ∧ d = m ++ l :: r' := by
  obtain ⟨k, rest, rfl⟩ := hst _ d hd
  refine ⟨r.dropLast ++ k :: rest, by simp, ?_⟩
  rw [List.dropLast_append_of_ne_nil (by simp), List.dropLast_cons_of_ne_nil hr]
  simp

theorem LoopAlong.visited_after (h : LoopAlong root st p m j i s)
    (hc : ChildSorted root st p m j i s s') {l : Nat} {r : Path} {av : AVar}
    (hy : Alongside p (m ++ l :: r)) (hav : avarAt root (m ++ l :: r) = some av)
    (hin : (sortStart m ≤ l ∧ l < i) ∨ EarlyTo st m i (m ++ l :: r)) :
    s'.visited (m ++ l :: r) = true := by
  by_cases hsame : l ≠ i ∨ r = []
  · rw [hc.same l r hy hsame]
    exact h.visited l r av hy hav hin
  · rw [not_or, not_not] at hsame
    obtain ⟨rfl, hr⟩ := hsame
    exact hc.inside r av hy hr hav

theorem LoopAlong.closed (hst : Scoped st) (hdeps : DepsExist root st)
    (h : LoopAlong root st p m j i s) (hc : ChildSorted root st p m j i s s') :
    ClosedFor st (Near m p) s' := by
  rintro y ⟨⟨l, r, rfl⟩, hy⟩ hv d hd ⟨⟨l', r', hd'⟩, hdp⟩
  obtain ⟨av, hav⟩ := hdeps _ d hd
  by_cases hsame : l ≠ i ∨ r = []
  · rw [hc.same l r hy hsame] at hv
    rcases h.reached l r hy hv with ⟨hstart, hlt⟩ | hearly
    · by_cases hr : r = []
      · -- the child itself leads to what it depends on
        have hearly : EarlyTo st m i d := ⟨l, hstart, hlt, .single (hr ▸ hd)⟩
        subst hd'
        exact h.visited_after hc hdp hav (.inr hearly)
      · obtain ⟨r'', -, rfl⟩ := dep_inside hst hr hd
        exact h.visited_after hc hdp hav (.inl ⟨hstart, hlt⟩)
    · have hearly' := hearly.tail hd
      subst hd'
      exact h.visited_after hc hdp hav (.inr hearly')
  · rw [not_or, not_not] at hsame
    obtain ⟨rfl, hr⟩ := hsame
    obtain ⟨r'', hr'', rfl⟩ := dep_inside hst hr hd
    exact hc.inside r'' av hdp hr'' hav

/-- The lists of the module itself, when the loop has gone through the child `p` is in. -/
theorem LoopAlong.next_listed (hj : m ++ [j] <+: p) (hstartj : sortStart m ≤ j)
    (h : LoopAlong root st p m j i s) (hc : ChildSorted root st p m j i s s')
    (ha : Appends root st m (· = m ++ [i]) s' s'') (hv : s''.visited (m ++ [i]) = true)
    (hji : j < i + 1) : Listed root st p s''.lists m := by
  -- what has been marked before the search from the child is not appended by it
  have hold : ∀ k {x av}, avarAt root x = some av → s'.visited x = true →
      (s''.lists.get k m).count x = (s.lists.get k m).count x := by
    intro k x av hav hx
    rw [ha.count k x av hav, hc.self k, hx]
    simp
  have hinside : ∀ {r av}, m ++ j :: r <+: p → avarAt root (m ++ j :: r) = some av → r ≠ [] →
      s'.visited (m ++ j :: r) = true := by
    intro r av hr hav hne
    have hy := alongside_above (by simp) hr
    by_cases hij : j = i
    · subst hij
      exact hc.inside r av hy hne hav
    · exact h.visited_after hc hy hav (.inl ⟨hstartj, by omega⟩)
  rcases Nat.lt_succ_iff_lt_or_eq.mp hji with hlt | rfl
  · have hm := h.listed hlt m List.prefix_rfl ((below_child m j).of_above hj)
    have hvisited : ∀ {r av}, m ++ j :: r <+: p → avarAt root (m ++ j :: r) = some av →
        s'.visited (m ++ j :: r) = true := fun hr hav =>
      h.visited_after hc (alongside_above (by simp) hr) hav (.inl ⟨hstartj, hlt⟩)
    constructor
    case found =>
      intro k l r av hr hav hin
      obtain rfl := way_child hj hr
      rw [hold k hav (hvisited hr hav)]
      exact hm.found k _ r av hr hav hin
    case absent =>
      intro k l r av hr hav hne hno
      obtain rfl := way_child hj hr
      rw [hold k hav (hvisited hr hav)]
      exact hm.absent k _ r av hr hav hne hno
  · have hcount := h.marked (Nat.le_refl j)
    constructor
    case found =>
      intro k l r av hr hav hin
      obtain rfl := way_child hj hr
      by_cases hne : r = []
      · subst hne
        rw [ha.count k _ av hav, hc.self k, hcount k [] av hr hav, hv,
          hc.same l [] (alongside_above (by simp) hr) (.inr rfl)]
        cases s.visited (m ++ [l]) <;> simp
      · have hearly := hin.resolve_left hne
        rw [hold k hav (hinside hr hav hne), hcount k r av hr hav,
          h.visited l r av (alongside_above (by simp) hr) hav (.inr hearly), Bool.true_and]
    case absent =>
      intro k l r av hr hav hne hno
      obtain rfl := way_child hj hr
      have hunvisited : s.visited (m ++ l :: r) = false := by
        rw [← Bool.not_eq_true]
        intro hx
        rcases h.reached l r (alongside_above (by simp) hr) hx with ⟨-, hlt⟩ | hearly
        · exact absurd hlt (Nat.lt_irrefl l)
        · exact hno hearly
      rw [hold k hav (hinside hr hav hne), hcount k r av hr hav, hunvisited]
      rfl

/-- One child further: it has been sorted, and the search from it has marked it. -/
theorem LoopAlong.next (hst : Scoped st) (hdeps : DepsExist root st) (hj : m ++ [j] <+: p)
    (hstartj : sortStart m ≤ j) (hstart : sortStart m ≤ i) (h : LoopAlong root st p m j i s)
    (hc : ChildSorted root st p m j i s s') (ha : Appends root st m (· = m ++ [i]) s' s'')
    (hv : s''.visited (m ++ [i]) = true) : LoopAlong root st p m j (i + 1) s'' := by
  have hclosed := ha.closed _ (h.closed hst hdeps hc)
  have halong : ∀ r, m ++ j :: r <+: p → Alongside p (m ++ j :: r) := fun r hr =>
    alongside_above (by simp) hr
  have hother : ∀ c, m ++ [j] <+: c → c ≠ m := fun c hmc => (below_child m j).of_above hmc |>.ne
  constructor
  case reached =>
    intro l r hy hyv
    rcases ha.new _ hyv with hold | ⟨_, rfl, hleads⟩
    · by_cases hsame : l ≠ i ∨ r = []
      · rw [hc.same l r hy hsame] at hold
        rcases h.reached l r hy hold with ⟨hl, hlt⟩ | hearly
        · exact .inl ⟨hl, by omega⟩
        · exact .inr (hearly.mono (by omega))
      · rw [not_or, not_not] at hsame
        exact .inl ⟨hsame.1 ▸ hstart, by omega⟩
    · exact .inr ⟨i, hstart, by omega, hleads⟩
  case visited =>
    intro l r av hy hav hin
    have hold : (sortStart m ≤ l ∧ l < i) ∨ EarlyTo st m i (m ++ l :: r) →
        s''.visited (m ++ l :: r) = true := fun hin => ha.kept _ (h.visited_after hc hy hav hin)
    rcases hin with ⟨hl, hlt⟩ | ⟨k, hk, hlt, hleads⟩
    · rcases Nat.lt_succ_iff_lt_or_eq.mp hlt with hlt | rfl
      · exact hold (.inl ⟨hl, hlt⟩)
      · by_cases hr : r = []
        · exact hr ▸ hv
        · exact ha.kept _ (hc.inside r av hy hr hav)
    · rcases Nat.lt_succ_iff_lt_or_eq.mp hlt with hlt | rfl
      · exact hold (.inr ⟨k, hk, hlt, hleads⟩)
      · exact hclosed.leads hst (sort_near_child hj k) hv hleads ⟨⟨l, r, rfl⟩, hy⟩
  case marked =>
    intro hij k r av hr hav
    rw [ha.count k _ av hav, hc.self k, h.marked (by omega) k r av hr hav,
      ← hc.same j r (halong r hr) (.inl (by omega))]
    have hkept := ha.kept (m ++ j :: r)
    revert hkept
    cases s'.visited (m ++ j :: r) <;> cases s''.visited (m ++ j :: r) <;> simp
  case empty =>
    intro hij c hjc hcp k
    rw [ha.others k c (hother c hjc), hc.others (by omega) c hjc hcp]
    exact h.empty (by omega) c hjc hcp k
  case listed =>
    intro hji c hmc hcp
    rcases prefix_iff_below.mp hmc with rfl | ⟨l, rest, rfl⟩
    · exact h.next_listed hj hstartj hc ha hv hji
    · obtain rfl := way_child hj hcp.above
      have hjc := prefix_child m l rest
      refine Listed.congr (l := s'.lists) ?_ fun k => ha.others k _ (hother _ hjc)
      by_cases hij : l = i
      · exact hc.listed hij _ hjc hcp
      · exact (h.listed (by omega) _ hmc hcp).congr (hc.others hij _ hjc hcp)

/-! ### The sort on the way down -/

theorem loopAlong_sortBegin (hstartj : sortStart m ≤ j) (hj : m ++ [j] <+: p)
    (hempty : ∀ c, m <+: c → Below c p → ∀ k, s.lists.get k c = []) :
    LoopAlong root st p m j (sortStart m) (sortBegin m s) := by
  have hmarks : ∀ l r, (sortBegin m s).visited (m ++ l :: r) = false := fun l r => by
    rw [sortBegin_visited, if_pos (List.isPrefixOf_iff_prefix.mpr (List.prefix_append m _))]
  have hnone : ∀ x, ¬ EarlyTo st m (sortStart m) x := by
    rintro x ⟨k, hk, hlt, -⟩
    omega
  constructor
  case reached =>
    intro l r _ hv
    rw [hmarks] at hv
    cases hv
  case visited =>
    rintro l r _ _ _ (⟨hl, hlt⟩ | hearly)
    · omega
    · exact absurd hearly (hnone _)
  case marked =>
    intro _ k r av _ _
    rw [hmarks]
    show ((s.lists.get k m).count _) = 0
    rw [hempty m List.prefix_rfl ((below_child m j).of_above hj) k]
    rfl
  case empty => exact fun _ c hjc hcp k => hempty c ((List.prefix_append m [j]).trans hjc) hcp k
  case listed => exact fun hlt => absurd hlt (by omega)

/-- A child that `p` is not inside. -/
theorem childSorted_var (hout : ¬ Below (m ++ [i]) p) : ChildSorted root st p m j i s s where
  same _ _ _ _ := rfl
  inside _ _ hy hr _ := absurd (hy.below_child hr) hout
  self _ := rfl
  others _ _ _ _ _ := rfl
  listed hji _ hjc hcp := absurd (below_within (hji ▸ hjc) hcp) hout

theorem FrameSub.childSorted (hf : FrameSub (m ++ [i]) s s') (hv : s.visited (m ++ [i]) ≠ true)
    (hmarks : ∀ r av, Alongside p (m ++ i :: r) → r ≠ [] → avarAt root (m ++ i :: r) = some av →
      s'.visited (m ++ i :: r) = true)
    (hlisted : ∀ c, m ++ [i] <+: c → Below c p → Listed root st p s'.lists c) :
    ChildSorted root st p m j i s s' where
  same l r _ hsame := by
    by_cases hl : l = i
    · obtain rfl := hsame.resolve_left (fun h => h hl)
      rw [hl, hf.self_visited, Bool.eq_false_iff.mpr hv]
    · exact hf.visited _ fun hi => hl (way_child hi List.prefix_rfl)
  inside := hmarks
  self k := hf.lists k m (below_child m i).not_above
  others hji c hjc _ k := hf.lists k c fun hi => not_prefix_both hji hjc hi
  listed hji c hjc hcp := hlisted c (hji ▸ hjc) hcp

/-- What the sort of the module at `m` has done for `p`, which is in it. -/
structure SortedAlong (root : List AVar) (st : Store) (p m : Path) (s : SortState) : Prop where
  marks : ∀ l r av, sortStart m ≤ l → Alongside p (m ++ l :: r) →
    avarAt root (m ++ l :: r) = some av → s.visited (m ++ l :: r) = true
  listed : ∀ c, m <+: c → Below c p → Listed root st p s.lists c

theorem exists_child {x : Path} {l : Nat} {r : Path} {av : AVar}
    (h : avarAt root (x ++ l :: r) = some av) : ∃ child, (avarsAt root x)[l]? = some child := by
  cases hl : (avarsAt root x)[l]? with
  | some child => exact ⟨child, rfl⟩
  | none =>
    rw [avarAt_of_prefix_none ((avarAt_child root x l).trans hl) (by simp)
      (prefix_child x l r)] at h
    cases h

theorem LoopAlong.sortedAlong {av : AVar} (hp : avarAt root p = some av) (hj : m ++ [j] <+: p)
    (hlen : (avarsAt root m).length ≤ i) (h : LoopAlong root st p m j i s) :
    SortedAlong root st p m s := by
  have hlength : ∀ {l r av}, avarAt root (m ++ l :: r) = some av → l < i := by
    intro l r av hav
    obtain ⟨child, hchild⟩ := exists_child hav
    exact (List.getElem?_eq_some_iff.mp hchild).1.trans_le hlen
  constructor
  case marks => exact fun l r av hl hy hav => h.visited l r av hy hav (.inl ⟨hl, hlength hav⟩)
  case listed =>
    obtain ⟨ext, rfl⟩ := hj
    rw [List.append_assoc, List.singleton_append] at hp
    exact h.listed (hlength hp)

end

mutual
theorem sortSub_along (hst : Scoped st) (hdeps : DepsExist root st)
    (hkept : ∀ m j, Below (m ++ [j]) p → ¬ Skipped st m j) {pv : AVar}
    (hp : avarAt root p = some pv) :
    ∀ {m : Path} {av : AVar} {i : Nat} {s : SortState}, (avarsAt root m)[i]? = some av →
    Below (m ++ [i]) p → (∀ c, m ++ [i] <+: c → Below c p → ∀ k, s.lists.get k c = []) →
    IfOk (SortedAlong root st p (m ++ [i])) (sortSub root st (m ++ [i]) av s)
  | m, .var v n, i, s, hav, hi, _ => by
    cases isModule_of_below ((avarAt_child root m i).trans hav) hp hi
  | m, .module v avars, i, s, hav, hi, hempty => by
    have hdrop := drop_child hav
    obtain ⟨j, rest, heq⟩ := hi
    have hj : m ++ [i] ++ [j] <+: p := heq ▸ prefix_child _ j rest
    have hstartj : sortStart (m ++ [i]) ≤ j := by
      rw [sortStart_child]
      exact Nat.zero_le j
    have hbegin : LoopAlong root st p (m ++ [i]) j 0 (sortBegin (m ++ [i]) s) := by
      rw [← sortStart_child m i]
      exact loopAlong_sortBegin hstartj hj hempty
    have hloop := sortLoop_along hst hdeps hkept hp avars hdrop
      (Nat.le_of_eq (sortStart_child m i)) hj hstartj hbegin
    exact hloop.bind fun s' hs' => ⟨hs'.marks, hs'.listed⟩

/-- Once the child that `p` is in has been gone through, the rest of the loop keeps what has
    been said of it. -/
theorem sortLoop_along (hst : Scoped st) (hdeps : DepsExist root st)
    (hkept : ∀ m j, Below (m ++ [j]) p → ¬ Skipped st m j) {pv : AVar}
    (hp : avarAt root p = some pv) :
    ∀ {m : Path} (avars : List AVar) {i j : Nat} {s : SortState}, (avarsAt root m).drop i = avars →
    sortStart m ≤ i → m ++ [j] <+: p → sortStart m ≤ j → LoopAlong root st p m j i s →
    IfOk (SortedAlong root st p m) (sortLoop root st m i avars s)
  | m, [], i, j, s, hdrop, _, hj, _, h => h.sortedAlong hp hj (List.drop_eq_nil_iff.mp hdrop)
  | m, av :: rest, i, j, s, hdrop, hstart, hj, hstartj, h => by
    obtain ⟨hav, hdrop'⟩ := of_drop_eq_cons hdrop
    have hrest : ∀ {s'}, LoopAlong root st p m j (i + 1) s' →
        IfOk (SortedAlong root st p m) (sortLoop root st m (i + 1) rest s') := fun h' =>
      sortLoop_along hst hdeps hkept hp rest hdrop' (by omega) hj hstartj h'
    rw [sortLoop]
    split_ifs with hv
    · -- a module that an earlier child leads to is not on the way
      have hout : ¬ Below (m ++ [i]) p := by
        intro hi
        obtain rfl := way_child hj hi.above
        rcases h.reached i [] ⟨m, i, rfl, (below_child m i).trans hi⟩ hv with ⟨-, hlt⟩ | hskip
        · exact absurd hlt (Nat.lt_irrefl i)
        · exact hkept m i hi hskip
      exact hrest (h.next hst hdeps hj hstartj hstart (childSorted_var hout) (.refl m _ s) hv)
    · have hsub : IfOk (ChildSorted root st p m j i s) (sortSub root st (m ++ [i]) av s) := by
        cases hrun : sortSub root st (m ++ [i]) av s with
        | error e => trivial
        | ok s1 =>
          by_cases hm : av.isModule = true
          · have hf := sortSub_frame hst _ av hm hrun
            by_cases hi : Below (m ++ [i]) p
            · obtain rfl := way_child hj hi.above
              have hdone := (sortSub_along hst hdeps hkept hp hav hi
                (h.empty (Nat.le_refl i))).of_ok hrun
              refine hf.childSorted hv (fun r av hy hr hat => ?_) hdone.listed
              obtain ⟨l, r', rfl⟩ := List.exists_cons_of_ne_nil hr
              have hstep : m ++ i :: l :: r' = m ++ [i] ++ l :: r' := by simp
              rw [hstep] at hy hat ⊢
              exact hdone.marks l r' av (by rw [sortStart_child]; exact Nat.zero_le l) hy hat
            · exact hf.childSorted hv (fun r _ hy hr _ => absurd (hy.below_child hr) hi)
                fun c hc hcp => absurd (below_within hc hcp) hi
          · rw [sortSub_var _ (by simpa using hm)] at hrun
            obtain rfl := Except.ok.inj hrun
            have hat : avarAt root (m ++ [i]) = some av := (avarAt_child root m i).trans hav
            exact childSorted_var fun hi => hm (isModule_of_below hat hp hi)
      refine hsub.bind fun s1 hs1 => ?_
      refine moduleAddToRunlists_appends.bind ?_
      rintro s2 ⟨hs2, hv2⟩
      exact hrest (h.next hst hdeps hj hstartj hstart hs1 hs2 hv2)
end

/-- When no module that `p` is in is skipped, the lists of all of them are as `Listed` says;
    `p` is not at the root's `time`. -/
theorem sort_listed (hst : Scoped st) (hdeps : DepsExist root st) {pv : AVar}
    (hp : avarAt root p = some pv) (htime : ¬ [0] <+: p)
    (hkept : ∀ m j, Below (m ++ [j]) p → ¬ Skipped st m j) {s : SortState}
    (h : moduleSortRunlists root st [] .empty = .ok s) {c : Path} (hc : Below c p) :
    Listed root st p s.lists c := by
  obtain ⟨j, rest, heq⟩ : ∃ j rest, p = j :: rest := by
    obtain ⟨i, rest, rfl⟩ := hc
    exact List.exists_cons_of_ne_nil (by simp)
  have hj : [] ++ [j] <+: p := heq ▸ prefix_child [] j rest
  have hstartj : sortStart [] ≤ j := by
    refine Nat.one_le_iff_ne_zero.mpr ?_
    rintro rfl
    exact htime hj
  obtain ⟨s1, hrun, hs⟩ := bind_eq_ok h
  obtain rfl := Except.ok.inj hs
  have hbegin : LoopAlong root st p [] j (sortStart []) (sortBegin [] .empty) :=
    loopAlong_sortBegin hstartj hj fun c _ _ k => by cases k <;> rfl
  have hloop := sortLoop_along hst hdeps hkept hp _ rfl (Nat.le_refl _) hj hstartj hbegin
  exact (hloop.of_ok hrun).listed c List.nil_prefix hc

/-! ### Modules that are not sorted -/

/-- Lists are filled when their module is sorted, with what its children lead to. -/
def ListedBySort (root : List AVar) (st : Store) (l : RunLists) : Prop :=
  ∀ k c x av, avarAt root x = some av → 0 < (l.get k c).count x →
    SortedFrom root st [] c ∧ ∃ i, Leads st (c ++ [i]) x

theorem Appends.listedBySort {m : Path} {i : Nat} {s s' : SortState}
    (h : Appends root st m (· = m ++ [i]) s s') (hm : SortedFrom root st [] m)
    (hl : ListedBySort root st s.lists) : ListedBySort root st s'.lists := by
  intro k c x av hav hpos
  by_cases hc : c = m
  · subst hc
    by_cases hold : 0 < (s.lists.get k c).count x
    · exact hl k c x av hav hold
    · -- it has been appended in this search, which has marked it
      rw [h.count k x av hav, Nat.eq_zero_of_not_pos hold, Nat.zero_add,
        Nat.pos_iff_ne_zero, ne_eq, Bool.toNat_eq_zero, Bool.not_eq_false,
        Bool.and_eq_true, Bool.and_eq_true, Bool.not_eq_true'] at hpos
      rcases h.new x hpos.1.2 with hx | ⟨_, rfl, hleads⟩
      · rw [hpos.1.1] at hx
        cases hx
      · exact ⟨hm, i, hleads⟩
  · rw [h.others k c hc] at hpos
    exact hl k c x av hav hpos

mutual
theorem sortSub_listedBySort (hst : Scoped st) (hdeps : DepsExist root st) :
    ∀ {m : Path} {av : AVar} {i : Nat} {s : SortState}, (avarsAt root m)[i]? = some av →
    (av.isModule = true → SortedFrom root st [] (m ++ [i])) → CycleFreeMarks st s →
    ListedBySort root st s.lists →
    IfOk (fun s' => ListedBySort root st s'.lists) (sortSub root st (m ++ [i]) av s)
  | m, .var _ _, i, s, _, _, _, hl => hl
  | m, .module v avars, i, s, hav, hsorted, hclean, hl => by
    have hdrop := drop_child hav
    have hbegin : LoopAt root st (m ++ [i]) (sortStart (m ++ [i])) (sortBegin (m ++ [i]) s) :=
      loopAt_sortBegin hclean
    rw [sortStart_child] at hbegin
    exact (sortLoop_listedBySort hst hdeps avars hdrop (Nat.le_of_eq (sortStart_child m i))
      (hsorted rfl) hbegin hl).bind fun s' hs' => hs'

theorem sortLoop_listedBySort (hst : Scoped st) (hdeps : DepsExist root st) :
    ∀ {m : Path} (avars : List AVar) {i : Nat} {s : SortState}, (avarsAt root m).drop i = avars →
    sortStart m ≤ i → SortedFrom root st [] m → LoopAt root st m i s →
    ListedBySort root st s.lists →
    IfOk (fun s' => ListedBySort root st s'.lists) (sortLoop root st m i avars s)
  | m, [], i, s, _, _, _, _, hl => hl
  | m, av :: rest, i, s, hdrop, hstart, hm, h, hl => by
    obtain ⟨hav, hdrop'⟩ := of_drop_eq_cons hdrop
    cases hrun : sortLoop root st m i (av :: rest) s with
    | error e => trivial
    | ok s' =>
      rcases h.turn hst hdeps hav hstart hrun with ⟨-, hnext, hloop⟩ |
        ⟨hskip, s1, s2, h1, h2, hnext, hloop⟩
      · exact (sortLoop_listedBySort hst hdeps rest hdrop' (by omega) hm hnext hl).of_ok hloop
      · have hi : IsLooped root m i := ⟨hstart, (List.getElem?_eq_some_iff.mp hav).1⟩
        have hsorted : av.isModule = true → SortedFrom root st [] (m ++ [i]) := by
          intro hmod
          cases av with
          | var v n => cases hmod
          | module v avars => exact .child hm hi ⟨v, avars, hav⟩ hskip
        have hlisted := (sortSub_listedBySort hst hdeps hav hsorted h.clean hl).of_ok h1
        have happends : IfOk _ (moduleAddToRunlists root st m (sortFuel root) (m ++ [i]) s1) :=
          moduleAddToRunlists_appends
        have hl2 := (happends.of_ok h2).1.listedBySort hm hlisted
        exact (sortLoop_listedBySort hst hdeps rest hdrop' (by omega) hm hnext hl2).of_ok hloop
end

theorem sort_listedBySort (hst : Scoped st) (hdeps : DepsExist root st) {s : SortState}
    (h : moduleSortRunlists root st [] .empty = .ok s) : ListedBySort root st s.lists := by
  obtain ⟨s1, hrun, hs⟩ := bind_eq_ok h
  obtain rfl := Except.ok.inj hs
  have hclean : CycleFreeMarks st SortState.empty := fun p hp => by cases hp
  have hempty : ListedBySort root st SortState.empty.lists := by
    intro k c x av _ hpos
    cases k <;> cases hpos
  have hloop := sortLoop_listedBySort hst hdeps _ rfl (Nat.le_refl _) .self
    (loopAt_sortBegin hclean) hempty
  exact show ListedBySort root st s1.lists from hloop.of_ok hrun

/-- A module inside a skipped one is not sorted. -/
theorem not_sortedFrom_of_skipped {m c : Path} {j : Nat} (hskip : Skipped st m j)
    (hc : m ++ [j] <+: c) : ¬ SortedFrom root st [] c := by
  intro h
  induction h with
  | self => exact absurd (List.prefix_nil.mp hc) (by simp)
  | @child c i _ _ _ hno ih =>
    rcases prefix_iff_below.mp hc with heq | ⟨k, rest, heq⟩
    · obtain ⟨rfl, hi⟩ := List.append_inj' heq rfl
      obtain rfl : i = j := by simpa using hi
      exact hno hskip
    · refine ih (List.prefix_of_prefix_length_le hc (List.prefix_append c [i]) ?_)
      have hlen := congrArg List.length heq
      simp only [List.length_append, List.length_cons, List.length_nil] at hlen ⊢
      omega

end Libsd

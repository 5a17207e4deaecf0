/-
  Libsd/Lib/DepthFirst.lean
  =========================
  **Depth-first search in post-order, as a topological sort.**

  `search` appends a node behind everything it depends on, refusing a node that
  is on the path it came by; `searchAll` does so for a list of nodes.  A list
  that comes out is sorted by dependency (`DepSorted`), holds what the nodes
  reach and nothing else that is new, and a refusal exhibits a cycle; over a
  finite closed set of nodes the fuel suffices (`searchAll_total`).  `Precedes`
  tells from the graph and the order of the roots which of two nodes comes out
  first.
-/
import Mathlib.Data.List.Basic
import Mathlib.Data.List.Nodup
import Mathlib.Data.List.Perm.Subperm
import Mathlib.Logic.Relation

namespace Libsd.DepthFirst

universe u

open Relation

/-- Why a search ends without a list. -/
inductive Failure where
  | cycle
  | fuel
deriving DecidableEq

variable {α : Type u} (deps : α → List α)

/-- `a` depends on `b`. -/
def Dep (a b : α) : Prop := b ∈ deps a

/-- A list without repetition in which all dependencies of a node stand before it. -/
inductive DepSorted : List α → Prop where
  | nil : DepSorted []
  | snoc {l : List α} {a : α} (hl : DepSorted l) (ha : a ∉ l) (hd : ∀ d ∈ deps a, d ∈ l) :
      DepSorted (l ++ [a])

namespace DepSorted

variable {deps}

theorem nodup {l : List α} (h : DepSorted deps l) : l.Nodup := by
  induction h with
  | nil => exact List.nodup_nil
  | snoc _ ha _ ih =>
    exact ih.append (List.nodup_singleton _) (List.disjoint_singleton.mpr ha)

theorem closed {l : List α} (h : DepSorted deps l) : ∀ a ∈ l, ∀ d ∈ deps a, d ∈ l := by
  induction h with
  | nil => simp
  | @snoc l a _ _ hd ih =>
    intro b hb d hdb
    rcases List.mem_append.mp hb with hb | hb
    · exact List.mem_append_left _ (ih b hb d hdb)
    · obtain rfl := List.mem_singleton.mp hb
      exact List.mem_append_left _ (hd d hdb)

theorem closed_reach {l : List α} (h : DepSorted deps l) {a b : α} (ha : a ∈ l)
    (hab : ReflTransGen (Dep deps) a b) : b ∈ l := by
  induction hab with
  | refl => exact ha
  | tail _ hbc ih => exact h.closed _ ih _ hbc

/-- What a node transitively depends on stands before it. -/
theorem before {l : List α} (h : DepSorted deps l) : ∀ {pre : List α} {a : α} {post : List α},
    l = pre ++ a :: post → ∀ {b : α}, TransGen (Dep deps) a b → b ∈ pre := by
  induction h with
  | nil => intro pre a post he; simp at he
  | @snoc l c hl hc hd ih =>
    intro pre a post he b hab
    rcases List.eq_nil_or_concat post with rfl | ⟨post, z, rfl⟩
    · obtain ⟨rfl, h1⟩ := List.append_inj' he rfl
      obtain rfl : c = a := List.singleton_inj.mp h1
      obtain ⟨d, hd1, hd2⟩ := TransGen.head'_iff.mp hab
      exact hl.closed_reach (hd d hd1) hd2
    · rw [List.concat_eq_append, ← List.cons_append, ← List.append_assoc] at he
      exact ih (List.append_inj' he rfl).1 hab

theorem acyclic {l : List α} (h : DepSorted deps l) {a : α} (ha : a ∈ l) :
    ¬ TransGen (Dep deps) a a := by
  intro hcyc
  obtain ⟨pre, post, rfl⟩ := List.append_of_mem ha
  have hpre := h.before rfl hcyc
  have hnd := h.nodup
  rw [List.nodup_append] at hnd
  exact hnd.2.2 a hpre a List.mem_cons_self rfl

end DepSorted

/-! ### What a search yields -/

/-- What is known of a list that came out of a search from `roots`. -/
structure Found (active roots order order' : List α) : Prop where
  sorted : DepSorted deps order'
  grows : order <+: order'
  roots_mem : ∀ a ∈ roots, a ∈ order'
  reached : ∀ x ∈ order', x ∈ order ∨ ∃ a ∈ roots, ReflTransGen (Dep deps) a x
  active_fresh : ∀ x ∈ active, x ∉ order → x ∉ order'

variable {deps}

theorem Found.refl {active order : List α} (h : DepSorted deps order) :
    Found deps active [] order order :=
  ⟨h, List.prefix_rfl, by simp, fun _ hx => .inl hx, fun _ _ hx => hx⟩

theorem Found.of_mem {active order : List α} {a : α} (h : DepSorted deps order) (ha : a ∈ order) :
    Found deps active [a] order order :=
  ⟨h, List.prefix_rfl, by simpa using ha, fun _ hx => .inl hx, fun _ _ hx => hx⟩

theorem Found.cons {active roots o₁ o₂ o₃ : List α} {a : α} (h₁ : Found deps active [a] o₁ o₂)
    (h₂ : Found deps active roots o₂ o₃) : Found deps active (a :: roots) o₁ o₃ where
  sorted := h₂.sorted
  grows := h₁.grows.trans h₂.grows
  roots_mem := by
    intro b hb
    rcases List.mem_cons.mp hb with rfl | hb
    · exact h₂.grows.subset (h₁.roots_mem _ List.mem_cons_self)
    · exact h₂.roots_mem b hb
  reached := by
    intro x hx
    rcases h₂.reached x hx with hx | ⟨b, hb, hbx⟩
    · rcases h₁.reached x hx with hx | ⟨b, hb, hbx⟩
      · exact .inl hx
      · obtain rfl := List.mem_singleton.mp hb
        exact .inr ⟨_, List.mem_cons_self, hbx⟩
    · exact .inr ⟨b, List.mem_cons_of_mem _ hb, hbx⟩
  active_fresh := fun x hx hn => h₂.active_fresh x hx (h₁.active_fresh x hx hn)

/-! ### The search -/

variable (deps) [DecidableEq α]

/-- One search after another for the nodes that are not listed yet, each continuing
    the list of the one before. -/
def searchAll (visit : α → List α → Except Failure (List α)) :
    List α → List α → Except Failure (List α)
  | [], order => .ok order
  | a :: as, order =>
    if a ∈ order then searchAll visit as order
    else do
      let order ← visit a order
      searchAll visit as order

/-- Append `a` behind its dependencies; `active` is the path that led to it. -/
def search : Nat → List α → α → List α → Except Failure (List α)
  | 0, _, _, _ => .error .fuel
  | fuel + 1, active, a, order =>
    if a ∈ order then .ok order
    else if a ∈ active then .error .cycle
    else do
      let order ← searchAll (search fuel (a :: active)) (deps a) order
      return order ++ [a]

variable {deps}

theorem searchAll_cons {visit : α → List α → Except Failure (List α)} {k : α}
    {roots order order' : List α} (h : searchAll visit (k :: roots) order = .ok order') :
    k ∈ order ∧ searchAll visit roots order = .ok order' ∨
      k ∉ order ∧ ∃ o, visit k order = .ok o ∧ searchAll visit roots o = .ok order' := by
  simp only [searchAll] at h
  split at h
  · next hk => exact .inl ⟨hk, h⟩
  · next hk =>
    simp only [bind, Except.bind] at h
    split at h
    · simp at h
    · next o ho => exact .inr ⟨hk, o, ho, h⟩

theorem searchAll_found {active : List α} {visit : α → List α → Except Failure (List α)}
    (hvisit : ∀ a order order', DepSorted deps order → visit a order = .ok order' →
      Found deps active [a] order order') :
    ∀ {roots order order' : List α}, DepSorted deps order →
      searchAll visit roots order = .ok order' → Found deps active roots order order' := by
  intro roots
  induction roots with
  | nil =>
    intro order order' hs h
    obtain rfl : order = order' := by simpa [searchAll] using h
    exact .refl hs
  | cons a roots ih =>
    intro order order' hs h
    rcases searchAll_cons h with ⟨ha, h⟩ | ⟨-, o, ho, h⟩
    · exact (Found.of_mem hs ha).cons (ih hs h)
    · have h1 := hvisit a order o hs ho
      exact h1.cons (ih h1.sorted h)

theorem search_found {fuel : Nat} {active : List α} {a : α} {order order' : List α}
    (hs : DepSorted deps order) (h : search deps fuel active a order = .ok order') :
    Found deps active [a] order order' := by
  induction fuel generalizing active a order order' with
  | zero => simp [search] at h
  | succ fuel ih =>
    simp only [search] at h
    split_ifs at h with hmem hact
    · obtain rfl := Except.ok.inj h
      exact .of_mem hs hmem
    · simp only [bind, Except.bind] at h
      split at h
      · simp at h
      · next o ho =>
        obtain rfl : o ++ [a] = order' := by simpa [pure, Except.pure] using h
        have hf := searchAll_found (fun b o o' => @ih (a :: active) b o o') hs ho
        refine ⟨.snoc hf.sorted (hf.active_fresh a List.mem_cons_self hmem) hf.roots_mem,
          hf.grows.trans (List.prefix_append _ _), by simp, ?_, ?_⟩
        · intro x hx
          rcases List.mem_append.mp hx with hx | hx
          · rcases hf.reached x hx with hx | ⟨d, hd, hdx⟩
            · exact .inl hx
            · exact .inr ⟨a, List.mem_singleton_self a, .head hd hdx⟩
          · obtain rfl := List.mem_singleton.mp hx
            exact .inr ⟨x, List.mem_singleton_self x, .refl⟩
        · intro x hx hn hx'
          rcases List.mem_append.mp hx' with hx' | hx'
          · exact hf.active_fresh x (List.mem_cons_of_mem _ hx) hn hx'
          · exact hact (List.mem_singleton.mp hx' ▸ hx)

/-- A refusal comes from a node that transitively depends on itself. -/
theorem search_cycle {fuel : Nat} {active : List α} {a : α} {order : List α}
    (hpath : ∀ x ∈ active, TransGen (Dep deps) x a)
    (h : search deps fuel active a order = .error .cycle) :
    ∃ b, ReflTransGen (Dep deps) a b ∧ TransGen (Dep deps) b b := by
  induction fuel generalizing active a order with
  | zero => simp [search] at h
  | succ fuel ih =>
    simp only [search] at h
    split_ifs at h with hmem hact
    · exact ⟨a, .refl, hpath a hact⟩
    · have hall : ∀ ds : List α, (∀ d ∈ ds, d ∈ deps a) → ∀ o,
          searchAll (search deps fuel (a :: active)) ds o = .error .cycle →
          ∃ b, ReflTransGen (Dep deps) a b ∧ TransGen (Dep deps) b b := by
        intro ds
        induction ds with
        | nil => intro _ o ho; simp [searchAll] at ho
        | cons d ds ihd =>
          intro hds o ho
          have hd : Dep deps a d := hds d List.mem_cons_self
          have hrest := fun e he => hds e (List.mem_cons_of_mem d he)
          simp only [searchAll] at ho
          split at ho
          · exact ihd hrest _ ho
          · simp only [bind, Except.bind] at ho
            split at ho
            · next e he =>
              obtain rfl := Except.error.inj ho
              have hpath' : ∀ x ∈ a :: active, TransGen (Dep deps) x d := by
                intro x hx
                rcases List.mem_cons.mp hx with rfl | hx
                · exact .single hd
                · exact (hpath x hx).tail hd
              obtain ⟨b, hdb, hb⟩ := ih hpath' he
              exact ⟨b, .head hd hdb, hb⟩
            · exact ihd hrest _ ho
      simp only [bind, Except.bind] at h
      split at h
      · next e he =>
        obtain rfl := Except.error.inj h
        exact hall (deps a) (fun _ hd => hd) _ he
      · simp [pure, Except.pure] at h

/-- Over a finite closed set of nodes a search does not run out of fuel. -/
theorem search_fuel {univ : List α} (hclosed : ∀ a ∈ univ, ∀ d ∈ deps a, d ∈ univ)
    {fuel : Nat} {active : List α} {a : α} (order : List α) (hact : active.Nodup)
    (hsub : ∀ x ∈ active, x ∈ univ) (ha : a ∈ univ) (hfuel : univ.length < fuel + active.length) :
    search deps fuel active a order ≠ .error .fuel := by
  induction fuel generalizing active a order with
  | zero =>
    have := (hact.subperm hsub).length_le
    omega
  | succ fuel ih =>
    simp only [search]
    split_ifs with hmem hac
    · simp
    · simp
    · have hall : ∀ ds : List α, (∀ d ∈ ds, d ∈ deps a) → ∀ o,
          searchAll (search deps fuel (a :: active)) ds o ≠ .error .fuel := by
        intro ds
        induction ds with
        | nil => intro _ o; simp [searchAll]
        | cons d ds ihd =>
          intro hds o
          have hstep : search deps fuel (a :: active) d o ≠ .error .fuel := by
            refine ih _ (List.nodup_cons.mpr ⟨hac, hact⟩) ?_
              (hclosed a ha d (hds d List.mem_cons_self)) (by rw [List.length_cons]; omega)
            intro x hx
            rcases List.mem_cons.mp hx with rfl | hx
            · exact ha
            · exact hsub x hx
          have hrest := fun e he => hds e (List.mem_cons_of_mem d he)
          simp only [searchAll]
          split
          · exact ihd hrest _
          · simp only [bind, Except.bind]
            split
            · next e he => exact fun hc => hstep (he.trans hc)
            · exact ihd hrest _
      simp only [bind, Except.bind]
      split
      · next e he => exact fun hc => hall (deps a) (fun _ hd => hd) order (he.trans hc)
      · simp [pure, Except.pure]

theorem searchAll_fuel {univ : List α} (hclosed : ∀ a ∈ univ, ∀ d ∈ deps a, d ∈ univ)
    {fuel : Nat} (hfuel : univ.length < fuel) {roots order : List α}
    (hroots : ∀ a ∈ roots, a ∈ univ) :
    searchAll (search deps fuel []) roots order ≠ .error .fuel := by
  induction roots generalizing order with
  | nil => simp [searchAll]
  | cons a roots ih =>
    have hrest := fun o => @ih o fun b hb => hroots b (List.mem_cons_of_mem a hb)
    have ha := search_fuel hclosed order List.nodup_nil (by simp)
      (hroots a List.mem_cons_self) (by simpa using hfuel)
    simp only [searchAll]
    split
    · exact hrest order
    · simp only [bind, Except.bind]
      split
      · next e he => exact fun hc => ha (he.trans hc)
      · exact hrest _

/-! ### Which of two nodes comes first -/

/-- `b` stands before `a`. -/
def Before (b a : α) (l : List α) : Prop := ∃ pre post, l = pre ++ a :: post ∧ b ∈ pre

/-- `b` comes out of a search from `roots` before `a` does: `a` depends on it, or
    the first root that reaches one of them reaches only `b`, or it reaches both
    and `b` comes first among its dependencies. -/
inductive Precedes (deps : α → List α) (b a : α) : List α → Prop where
  | dep {roots : List α} (h : TransGen (Dep deps) a b) : Precedes deps b a roots
  | here {k : α} {roots : List α} (hb : ReflTransGen (Dep deps) k b)
      (ha : ¬ ReflTransGen (Dep deps) k a) : Precedes deps b a (k :: roots)
  | skip {k : α} {roots : List α} (ha : ¬ ReflTransGen (Dep deps) k a)
      (h : Precedes deps b a roots) : Precedes deps b a (k :: roots)
  | inside {k : α} {roots : List α} (hne : k ≠ a) (ha : ReflTransGen (Dep deps) k a)
      (h : Precedes deps b a (deps k)) : Precedes deps b a (k :: roots)

omit [DecidableEq α] in
theorem Before.mono {b a : α} {l l' : List α} (h : Before b a l) (hl : l <+: l') :
    Before b a l' := by
  obtain ⟨pre, post, rfl, hb⟩ := h
  obtain ⟨ext, rfl⟩ := hl
  exact ⟨pre, post ++ ext, by simp, hb⟩

omit [DecidableEq α] in
theorem Before.filter {b a : α} {l : List α} (h : Before b a l) {f : α → Bool} (hb : f b = true)
    (ha : f a = true) : Before b a (l.filter f) := by
  obtain ⟨pre, post, rfl, hmem⟩ := h
  refine ⟨pre.filter f, post.filter f, ?_, List.mem_filter.mpr ⟨hmem, hb⟩⟩
  rw [List.filter_append, List.filter_cons, if_pos ha]

omit [DecidableEq α] in
/-- In a list without repetition it is clear what stands before `a`. -/
theorem Before.mem_of_split {b a : α} {l pre post : List α} (h : Before b a l) (hnodup : l.Nodup)
    (he : l = pre ++ a :: post) : b ∈ pre := by
  obtain ⟨pre', post', he', hb⟩ := h
  have hsplit := he.symm.trans he'
  rw [he] at hnodup
  rcases List.append_eq_append_iff.mp hsplit with ⟨as, rfl, htail⟩ | ⟨as, rfl, htail⟩
  · cases as with
    | nil => simpa using hb
    | cons c as =>
      obtain ⟨rfl, -⟩ := List.cons.inj htail
      rw [hsplit] at hnodup
      exact absurd rfl ((List.nodup_append.mp hnodup).2.2 a (by simp) a List.mem_cons_self)
  · exact List.mem_append_left _ hb

omit [DecidableEq α] in
/-- And it does not stand behind it as well. -/
theorem Before.pairwise {b a : α} {l : List α} (h : Before b a l) (hnodup : l.Nodup) :
    l.Pairwise fun x y => x = a → y ≠ b := by
  obtain ⟨pre, post, rfl, hb⟩ := h
  obtain ⟨-, -, hdisj⟩ := List.nodup_append.mp hnodup
  refine List.pairwise_append.mpr ⟨?_, ?_, ?_⟩
  · refine List.pairwise_of_forall_mem_list fun x hx y _ hxa => ?_
    exact absurd hxa (hdisj x hx a List.mem_cons_self)
  · refine List.pairwise_of_forall_mem_list fun x _ y hy _ hyb => ?_
    exact hdisj b hb y hy hyb.symm
  · intro x hx y _ hxa
    exact absurd hxa (hdisj x hx a List.mem_cons_self)

omit [DecidableEq α] in
theorem DepSorted.before_of_mem {b a : α} {l : List α} (h : DepSorted deps l) (ha : a ∈ l)
    (hab : TransGen (Dep deps) a b) : Before b a l := by
  obtain ⟨pre, post, rfl⟩ := List.append_of_mem ha
  exact ⟨pre, post, rfl, h.before rfl hab⟩

omit [DecidableEq α] in
/-- What stands in a prefix without `a` stands before `a`. -/
theorem before_of_grows {b a : α} {l l' : List α} (hl : l <+: l') (hb : b ∈ l) (ha : a ∉ l)
    (ha' : a ∈ l') : Before b a l' := by
  obtain ⟨ext, rfl⟩ := hl
  obtain ⟨pre, post, rfl⟩ := List.append_of_mem ((List.mem_append.mp ha').resolve_left ha)
  exact ⟨l ++ pre, post, by simp, List.mem_append_left _ hb⟩

omit [DecidableEq α] in
theorem not_mem_of_not_reach {active order o : List α} {a k : α}
    (hf : Found deps active [k] order o) (hn : a ∉ order)
    (ha : ¬ ReflTransGen (Dep deps) k a) : a ∉ o := by
  intro hao
  rcases hf.reached a hao with h | ⟨k', hk', h⟩
  · exact hn h
  · exact ha (List.mem_singleton.mp hk' ▸ h)

theorem Precedes.before {b a : α} {roots : List α} (h : Precedes deps b a roots) :
    ∀ {fuel : Nat} {active order order' : List α}, DepSorted deps order → a ∉ order →
      searchAll (search deps fuel active) roots order = .ok order' → a ∈ order' →
      Before b a order' := by
  induction h with
  | dep h =>
    intro fuel active order order' hs _ hrun ha'
    have hf := searchAll_found (fun c o o' => search_found) hs hrun
    exact hf.sorted.before_of_mem ha' h
  | @here k roots hb ha =>
    intro fuel active order order' hs hn hrun ha'
    rcases searchAll_cons hrun with ⟨hk, hrun⟩ | ⟨-, o, ho, hrun⟩
    · have hf := searchAll_found (fun c o o' => search_found) hs hrun
      exact before_of_grows hf.grows (hs.closed_reach hk hb) hn ha'
    · have hf := search_found hs ho
      have hf' := searchAll_found (fun c o o' => search_found) hf.sorted hrun
      exact before_of_grows hf'.grows (hf.sorted.closed_reach (hf.roots_mem k (by simp)) hb)
        (not_mem_of_not_reach hf hn ha) ha'
  | @skip k roots ha _ ih =>
    intro fuel active order order' hs hn hrun ha'
    rcases searchAll_cons hrun with ⟨-, hrun⟩ | ⟨-, o, ho, hrun⟩
    · exact ih hs hn hrun ha'
    · have hf := search_found hs ho
      exact ih hf.sorted (not_mem_of_not_reach hf hn ha) hrun ha'
  | @inside k roots hne ha _ ih =>
    intro fuel active order order' hs hn hrun ha'
    rcases searchAll_cons hrun with ⟨hk, -⟩ | ⟨hk, o, ho, hrun⟩
    · exact absurd (hs.closed_reach hk ha) hn
    · have hf := search_found hs ho
      have hf' := searchAll_found (fun c o o' => search_found) hf.sorted hrun
      refine Before.mono ?_ hf'.grows
      cases fuel with
      | zero => simp [search] at ho
      | succ fuel =>
        simp only [search, if_neg hk] at ho
        split at ho
        · simp at ho
        · -- the search of `k` is one of its dependencies, and then `k` itself
          simp only [bind, Except.bind] at ho
          split at ho
          · simp at ho
          · next o' ho' =>
            obtain rfl : o' ++ [k] = o := by simpa [pure, Except.pure] using ho
            have hao : a ∈ o' ++ [k] := hf.sorted.closed_reach (by simp) ha
            have hao' : a ∈ o' := (List.mem_append.mp hao).resolve_right
              fun h => hne (List.mem_singleton.mp h).symm
            exact (ih hs hn ho' hao').mono (List.prefix_append _ _)

/-- A refusal of the search from several roots comes from a cycle that one of
    them leads to. -/
theorem searchAll_cycle {fuel : Nat} {roots order : List α}
    (h : searchAll (search deps fuel []) roots order = .error .cycle) :
    ∃ a ∈ roots, ∃ b, ReflTransGen (Dep deps) a b ∧ TransGen (Dep deps) b b := by
  induction roots generalizing order with
  | nil => simp [searchAll] at h
  | cons a roots ih =>
    have hrest : ∀ o, searchAll (search deps fuel []) roots o = .error .cycle →
        ∃ c ∈ a :: roots, ∃ b, ReflTransGen (Dep deps) c b ∧ TransGen (Dep deps) b b := by
      intro o ho
      obtain ⟨c, hc, hb⟩ := ih ho
      exact ⟨c, List.mem_cons_of_mem a hc, hb⟩
    simp only [searchAll] at h
    split at h
    · exact hrest _ h
    · simp only [bind, Except.bind] at h
      split at h
      · next e he =>
        obtain rfl := Except.error.inj h
        exact ⟨a, List.mem_cons_self, search_cycle (by simp) he⟩
      · exact hrest _ h

end Libsd.DepthFirst

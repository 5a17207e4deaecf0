/-
  Libsd/RunLists.lean
  ===================
  **Sorting the variables of each module into its run lists.**

  Marks and lists belong to `AVar`s, so they are functions of a path; the lists
  of a module are those at its path.  A module's children are added one after
  another, each behind the dependencies it has not seen yet; the depth of that
  recursion is counted by a fuel.
-/
import Libsd.Compile

namespace Libsd

/-- The run lists of every module. -/
structure RunLists where
  initials : Path → List Path
  flows : Path → List Path
  stocks : Path → List Path

structure SortState where
  visited : Path → Bool
  visiting : Path → Bool
  lists : RunLists

/-- The state before sorting. -/
def SortState.empty : SortState :=
  { visited := fun _ => false, visiting := fun _ => false,
    lists := { initials := fun _ => [], flows := fun _ => [], stocks := fun _ => [] } }

/-- `slice_append` to the list at a path. -/
def appendAt (l : Path → List Path) (m av : Path) : Path → List Path :=
  Function.update l m (l m ++ [av])

/-- The lists of module `m` after a variable or module has been appended to those
    its kind demands. -/
def appendToLists (l : RunLists) (m path : Path) (av : AVar) : RunLists :=
  match av.v.type with
  | .module =>
    { initials := appendAt l.initials m path, flows := appendAt l.flows m path,
      stocks := appendAt l.stocks m path }
  | .stock =>
    { l with initials := appendAt l.initials m path, stocks := appendAt l.stocks m path }
  | .ref => l
  | .flow | .aux =>
    if av.isConst then
      { l with initials := appendAt l.initials m path, stocks := appendAt l.stocks m path }
    else { l with initials := appendAt l.initials m path, flows := appendAt l.flows m path }

/-- Everything in the module `m`, itself included, becomes unvisited. -/
def moduleClearVisited (m : Path) (s : SortState) : SortState :=
  { s with
    visited := fun p => if m.isPrefixOf p then false else s.visited p,
    visiting := fun p => if m.isPrefixOf p then false else s.visiting p }

/-- The loop over `direct_deps`. -/
def addDeps (add : Path → SortState → Except Stop SortState) :
    List Path → SortState → Except Stop SortState
  | [], s => .ok s
  | dep :: deps, s =>
    if s.visited dep then addDeps add deps s
    else do
      let s ← add dep s
      addDeps add deps s

def moduleAddToRunlists (root : List AVar) (st : Store) (m : Path) :
    Nat → Path → SortState → Except Stop SortState
  | 0, _, _ => .error .diverge
  | fuel + 1, path, s =>
    if s.visited path then .ok s
    else if s.visiting path then .error (.err .circular)
    else do
      let s := { s with visiting := Function.update s.visiting path true }
      let s ← addDeps (moduleAddToRunlists root st m fuel) (st path).directDeps s
      match avarAt root path with
      | none => .error (.undefined .nullDeref)
      | some av =>
        return { visited := Function.update s.visited path true,
                 visiting := Function.update s.visiting path false,
                 lists := appendToLists s.lists m path av }

mutual
/-- The number of `AVar`s in a tree. -/
def AVar.count : AVar → Nat
  | .var _ _ => 1
  | .module _ avars => countAVars avars + 1

def countAVars : List AVar → Nat
  | [] => 0
  | av :: avars => av.count + countAVars avars
end

/-- One frame for each `AVar`, and one more. -/
def sortFuel (root : List AVar) : Nat := countAVars root + 1

/-- What `module_sort_runlists` does before its loop. -/
def sortBegin (m : Path) (s : SortState) : SortState :=
  let s := moduleClearVisited m s
  { s with visiting := Function.update s.visiting m true }

def sortEnd (m : Path) (s : SortState) : SortState :=
  { s with visiting := Function.update s.visiting m false }

mutual
/-- The part of the loop for one child that is a module: it is sorted first. -/
def sortSub (root : List AVar) (st : Store) (path : Path) :
    AVar → SortState → Except Stop SortState
  | .var _ _, s => .ok s
  | .module _ avars, s => do
    let s ← sortLoop root st path 0 avars (sortBegin path s)
    return sortEnd path s

/-- The loop of `module_sort_runlists`; `i` is the index of the head of the list. -/
def sortLoop (root : List AVar) (st : Store) (m : Path) :
    Nat → List AVar → SortState → Except Stop SortState
  | _, [], s => .ok s
  | i, av :: rest, s =>
    if s.visited (m ++ [i]) then sortLoop root st m (i + 1) rest s
    else do
      let s ← sortSub root st (m ++ [i]) av s
      let s ← moduleAddToRunlists root st m (sortFuel root) (m ++ [i]) s
      sortLoop root st m (i + 1) rest s
end

/-- The root module starts at index 1, behind its `time`. -/
def moduleSortRunlists (root : List AVar) (st : Store) (m : Path) (s : SortState) :
    Except Stop SortState := do
  let off := if m.isEmpty then 1 else 0
  let s ← sortLoop root st m off ((avarsAt root m).drop off) (sortBegin m s)
  return sortEnd m s

end Libsd

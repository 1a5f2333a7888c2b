import Pathologist.PointsTo.Pag

/-!
# The state of the solver

Points-to facts and memory contents are lists of pairs in the order they are found, and only
ever grow. `delta` holds what a node gained since it was last processed; the worklist is a
stack. The iteration order of a hash set is a parameter: a rearrangement of what the set holds.
-/
open Function
namespace Pathologist.PointsTo

/-- The values recorded for a key, in order. -/
def valuesAt (facts : List (ℕ × ℕ)) (key : ℕ) : List ℕ :=
  (facts.filter fun fact => fact.1 == key).map Prod.snd

/-- The most locations that a summary's memory takes in. -/
def summaryMemCap : ℕ := 1024

/-- The order in which a hash set with these members is walked. -/
structure SetOrder where
  walk : List ℕ → List ℕ
  perm : ∀ members, (walk members).Perm members

/-- Occasions on which a step of the solver finds nothing that obliges a later step to complete
its work. They are noted beside the run, which never reads them. -/
inductive Lapse
  /-- A copy is added while its source holds `loc`, which is not pending there and which the
  destination does not hold. -/
  | copy (src dst : NodeId) (loc : LocId)
  /-- A variable gets its own location while the pointer of a store of it holds the target
  `loc`, which is not pending there. -/
  | ownLocation (src : NodeId) (loc : LocId)
  /-- An effect of a model finds its pair of nodes wired, though by no effect of its own kind. -/
  | modelEdge (kind : ConstraintKind) (src dst : NodeId)
  /-- A cell takes in `loc` while a field access that was pointed at it does not hold `loc`. -/
  | cell (dst : NodeId) (cell loc : LocId)
  deriving DecidableEq

structure Solver (P : Program) where
  pag : Pag P
  pts : List (NodeId × LocId) := []
  delta : NodeId → List LocId := fun _ => []
  memory : List (LocId × LocId) := []
  worklist : List NodeId := []
  seenOnce : List NodeId := []
  /-- The cells that each field access was pointed at. -/
  designated : List (NodeId × LocId) := []
  wiredCopies : List (NodeId × NodeId) := []
  wiredModelEdges : List (NodeId × NodeId) := []
  /-- The kind of constraint that each of these pairs was wired by; noted, and never read. -/
  wiredKinds : List (ConstraintKind × NodeId × NodeId) := []
  epollRegistered : List NodeId := []
  epollWaiting : List NodeId := []
  slotGuard : LocId → Option SlotGuard := fun _ => none
  /-- How much of a cell's memory has been merged into a node. -/
  mergeSizes : NodeId → LocId → ℕ := fun _ _ => 0
  addrTaken : List LocId := []
  syncedCell : NodeId → Option LocId := fun _ => none
  cellOwner : LocId → Option NodeId := fun _ => none
  callEdges : List (CallGraphEdge P) := []
  resolvedIndirect : List (P.Site × P.Fn) := []
  invokeWatch : List (NodeId × P.Site × Invoked) := []
  /-- An `expect` of the source has failed. -/
  panicked : Bool := false
  lapses : List Lapse := []

/-- Which function values a memory cell admits. -/
inductive FnFilter
  | any | none | arity (n : ℕ)
  deriving DecidableEq

namespace FnFilter
variable {P : Program}

def ofGuard : Option SlotGuard → FnFilter
  | .none => any
  | some .notFnPtr => none
  | some (.fnParams n) => arity n

/-- Function values are filtered; everything else passes. A function without parameters is an
old-style declaration and fits any signature. -/
def admits (filter : FnFilter) (pag : Pag P) (loc : LocId) : Bool :=
  match filter with
  | any => true
  | none => (pag.fnForLoc loc).isNone
  | arity n => (pag.fnForLoc loc).isNone || (pag.fnArity loc).all (· == n)

end FnFilter

namespace Solver
variable {P : Program}

def ptsOf (s : Solver P) (node : NodeId) : List LocId := valuesAt s.pts node

def memoryOf (s : Solver P) (cell : LocId) : List LocId := valuesAt s.memory cell

/-- The nodes that point to a location. -/
def holders (s : Solver P) (loc : LocId) : List NodeId :=
  (s.pts.filter fun fact => fact.2 == loc).map Prod.fst

/-- Whether a cell's own guard lets `loc` in and out. -/
def admits (s : Solver P) (cell loc : LocId) : Bool :=
  (FnFilter.ofGuard (s.slotGuard cell)).admits s.pag loc

def push (node : NodeId) (s : Solver P) : Solver P :=
  if node ∈ s.worklist then s else { s with worklist := node :: s.worklist }

def recordDelta (node : NodeId) (loc : LocId) (s : Solver P) : Solver P :=
  if loc ∈ s.delta node then s
  else { s with delta := update s.delta node (s.delta node ++ [loc]) }

/-- A node gains a location, which is recorded for propagation. -/
def addPts (node : NodeId) (s : Solver P) (loc : LocId) : Solver P :=
  if (node, loc) ∈ s.pts then s
  else ({ s with pts := s.pts ++ [(node, loc)] }.recordDelta node loc).push node

def propagateLocs (dst : NodeId) (locs : List LocId) (s : Solver P) : Solver P :=
  locs.foldl (addPts dst) s

/-- A memory write changed a cell: the nodes that load from it are processed again. -/
def touchLocHolders (ord : SetOrder) (loc : LocId) (s : Solver P) : Solver P :=
  ((ord.walk (s.holders loc)).filter s.pag.isLoadSrc).foldl
    (fun s node => (s.recordDelta node loc).push node) s

/-- A cell's memory, as it stands, counts as merged into `dst`. -/
def countMerged (dst : NodeId) (cell : LocId) (s : Solver P) : Solver P :=
  let sizes := update (s.mergeSizes dst) cell (s.memoryOf cell).length
  { s with mergeSizes := update s.mergeSizes dst sizes }

/-- What a cell gained since it was last merged into `dst` reaches `dst`. -/
def mergeMemoryIntoIfGrown (dst : NodeId) (cell : LocId) (s : Solver P) : Solver P :=
  let seen := s.mergeSizes dst cell
  if (s.memoryOf cell).length ≤ seen then s
  else (s.countMerged dst cell).propagateLocs dst
    (((s.memoryOf cell).drop seen).filter (s.admits cell))

/-- The field accesses that were pointed at `cell` and do not hold `loc`, which it admits. -/
def cellLapses (s : Solver P) (cell loc : LocId) : List Lapse :=
  (s.designated.filter fun d => d.2 = cell ∧ s.admits cell loc ∧ (d.1, loc) ∉ s.pts).map fun d =>
    .cell d.1 cell loc

def writeOne (cell : LocId) (s : Solver P) (loc : LocId) : Solver P :=
  if (cell, loc) ∈ s.memory then s
  else { s with
    memory := s.memory ++ [(cell, loc)]
    lapses := s.lapses ++ s.cellLapses cell loc }

/-- The one write path into cell memory. -/
def writeMemory (cell : LocId) (locs : List LocId) (s : Solver P) : Solver P :=
  locs.foldl (writeOne cell) s

/-- Whether a write has grown a memory cell. -/
def grewSince (s t : Solver P) : Bool := s.memory.length < t.memory.length

/-- Write `locs` into a cell, filtered like a store, and requeue its loaders if it grew. -/
def writeToCell (ord : SetOrder) (cell : LocId) (locs : List LocId) (s : Solver P) : Solver P :=
  let t := s.writeMemory cell (locs.filter (s.admits cell))
  if s.grewSince t then t.touchLocHolders ord cell else t

/-- What a variable gains is written into its own cell. -/
def syncVarToCell (ord : SetOrder) (node : NodeId) (locs : List LocId) (s : Solver P) : Solver P :=
  match s.syncedCell node with
  | some cell => s.writeToCell ord cell locs
  | none => s

/-- A store that grew a variable's cell reaches the variable. -/
def syncCellToVar (cell : LocId) (s : Solver P) : Solver P :=
  match s.cellOwner cell with
  | some node => s.mergeMemoryIntoIfGrown node cell
  | none => s

/-- A field access points its destination at the cells it designates, and at what they hold. -/
def pointGepAt (dst : NodeId) (cells : List LocId) (s : Solver P) : Solver P :=
  let s := { s with designated := s.designated ++ cells.map (dst, ·) }
  cells.foldl (fun s cell => s.mergeMemoryIntoIfGrown dst cell) (s.propagateLocs dst cells)

/-- One location that the pointer of a load holds: a function is loaded as itself, anything
else contributes what its cell holds. -/
def loadLoc (dst : NodeId) (s : Solver P) (loc : LocId) : Solver P :=
  if (s.pag.fnForLoc loc).isSome then s.addPts dst loc
  else if s.pag.isStringLit loc then s
  else s.mergeMemoryIntoIfGrown dst loc

def loadInto (dst : NodeId) (locs : List LocId) (s : Solver P) : Solver P :=
  locs.foldl (loadLoc dst) s

/-- Start keeping a pointer variable's own cell in step with its node. -/
def registerSyncedCell (ord : SetOrder) (cell : LocId) (s : Solver P) : Solver P :=
  match s.pag.locations[cell]?.bind (·.var) with
  | none => s
  | some v =>
    if s.pag.varLocation v ≠ some cell ∨ P.varIsPointerLike v = false then s
    else
      match s.pag.varNode v with
      | none => s
      | some node =>
        let s := { s with
          syncedCell := update s.syncedCell node (some cell)
          cellOwner := update s.cellOwner cell (some node) }
        let held := (s.ptsOf node).mergeSort (· ≤ ·)
        (s.writeToCell ord cell held).mergeMemoryIntoIfGrown node cell

/-- The first time that a location's address is taken it gets its guard, if it has none, and a
pointer variable's cell is kept in step from then on. -/
def takeAddress (ord : SetOrder) (loc : LocId) (s : Solver P) : Solver P :=
  if loc ∈ s.addrTaken then s
  else
    let guard := (s.slotGuard loc).or (s.pag.locations[loc]?.bind fun l => P.slotGuardFor l.typeId)
    { s with
      addrTaken := s.addrTaken ++ [loc]
      slotGuard := update s.slotGuard loc guard }.registerSyncedCell ord loc

def seedAddrOf (ord : SetOrder) (s : Solver P) (c : Constraint P) : Solver P :=
  match c.kind, s.pag.nodeLoc c.src with
  | .addrOf, some loc => (s.takeAddress ord loc).addPts c.dst loc
  | _, _ => s

end Solver
end Pathologist.PointsTo

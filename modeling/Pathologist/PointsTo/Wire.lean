import Pathologist.PointsTo.Returns
import Pathologist.PointsTo.State

/-!
# Stores, arguments and models

What a step of the solver does at a store and at a resolved call: it writes the cells that a
pointer holds, wires actuals to formals, expands what the callee returns, and applies the
callee's model.
-/
namespace Pathologist.PointsTo
namespace Solver
variable {P : Program}

/-- A store in progress: the summaries it has written, and the cells whose loaders are to be
requeued. -/
structure StoreRun (P : Program) where
  solver : Solver P
  summariesWritten : List LocId := []
  requeues : List LocId := []

/-- Write the values `src` into the memory of one target. A filter can only reject functions. -/
def StoreRun.writeTarget (src own : List LocId) (srcHasFns : Bool) (run : StoreRun P)
    (loc : LocId) :
    StoreRun P :=
  let s := run.solver
  let filter := if srcHasFns then FnFilter.ofGuard (s.slotGuard loc) else .any
  let t := s.writeMemory loc (src.filter (filter.admits s.pag) ++ own)
  { run with
    solver := t
    requeues := run.requeues ++ if s.grewSince t then [loc] else [] }

/-- Mirror the write into the summary of a field cell, once for each store and up to its cap. A
summary distinguishes functions from other values only. -/
def StoreRun.writeSummary (src own : List LocId) (srcHasFns : Bool) (run : StoreRun P)
    (loc : LocId) :
    StoreRun P :=
  let s := run.solver
  match s.pag.fieldLocToSummary loc with
  | none => run
  | some summary =>
    if (s.memoryOf summary).length < summaryMemCap ∧ summary ∉ run.summariesWritten then
      let filter := if srcHasFns ∧ s.slotGuard summary = some .notFnPtr then FnFilter.none else .any
      let t := s.writeMemory summary (src.filter (filter.admits s.pag) ++ own)
      { solver := t
        summariesWritten := run.summariesWritten ++ [summary]
        requeues := run.requeues ++ if s.grewSince t then [summary] else [] }
    else run

def StoreRun.storeTo (src own : List LocId) (srcHasFns : Bool) (run : StoreRun P) (loc : LocId) :
    StoreRun P :=
  if run.solver.pag.isCell loc then
    (run.writeTarget src own srcHasFns loc).writeSummary src own srcHasFns loc
  else run

/-- The loaders of a written cell, and the variable it belongs to. -/
def requeue (ord : SetOrder) (s : Solver P) (cell : LocId) : Solver P :=
  (s.touchLocHolders ord cell).syncCellToVar cell

/-- Store through `c`: into `targets`, or into all that its pointer holds; the values `written`,
or all that its source holds. -/
def applyStoreToTargets (ord : SetOrder) (c : Constraint P) (targets written : Option (List LocId))
    (s : Solver P) : Solver P :=
  let own := (s.pag.selfLoc c.src).toList
  if s.ptsOf c.src = [] ∧ own = [] then s
  else
    let targets := targets.getD (ord.walk (s.ptsOf c.dst))
    let src := written.getD (ord.walk (s.ptsOf c.src))
    let srcHasFns := src.any fun l => (s.pag.fnForLoc l).isSome
    let run := targets.foldl (StoreRun.storeTo src own srcHasFns) { solver := s }
    run.requeues.eraseDups.foldl (requeue ord) run.solver

def panic (s : Solver P) : Solver P := { s with panicked := true }

/-- Add a copy; its source is processed again if it holds anything. -/
def ensureParamCopy (actual formal : NodeId) (s : Solver P) : Solver P :=
  let t := { s with pag := s.pag.addCopy formal actual }
  if s.ptsOf actual = [] then t else t.push actual

/-- Add a copy for a pair of nodes that has none yet. -/
def wireCopy (actual formal : NodeId) (s : Solver P) : Solver P :=
  if (actual, formal) ∈ s.wiredCopies then s
  else { s with wiredCopies := s.wiredCopies ++ [(actual, formal)] }.ensureParamCopy actual formal

/-- Wire the actual at position `index` of a call to a formal. -/
def wireActual (ord : SetOrder) (site : P.Site) (formal : P.Var) (index : ℕ) (s : Solver P) :
    Solver P :=
  match P.actualAt site index with
  | some actual =>
    match s.pag.varNode formal, s.pag.varNode actual with
    | some formalNode, some actualNode =>
      let s := if P.varMayHoldPointee actual && P.varMayHoldPointee formal
        then s.wireCopy actualNode formalNode else s
      s.propagateLocs formalNode (ord.walk (s.ptsOf actualNode))
    | _, _ => s.panic
  | none =>
    let named := argsAt (P.fnArgs site) index
    if named.isEmpty then s
    else
      match s.pag.varNode formal with
      | some formalNode => s.propagateLocs formalNode (named.filterMap s.pag.fnLocations)
      | none => s.panic

/-- Wire actuals to the formals of `callee`: formal `i` takes the actual at `actualOf i`. -/
def wireActuals (ord : SetOrder) (site : P.Site) (callee : P.Fn) (actualOf : ℕ → Option ℕ)
    (s : Solver P) : Solver P :=
  (P.params callee).zipIdx.foldl (fun s formal =>
      match actualOf formal.2 with
      | some index => s.wireActual ord site formal.1 index
      | none => s) s

def wireParams (ord : SetOrder) (site : P.Site) (callee : P.Fn) (s : Solver P) : Solver P :=
  s.wireActuals ord site callee some

/-- The functions a variable may hold, in its points-to set's order. -/
def heldFunctions (ord : SetOrder) (s : Solver P) (v : P.Var) : List P.Fn :=
  match s.pag.varNode v with
  | some node => (ord.walk (s.ptsOf node)).filterMap s.pag.fnForLoc
  | none => []

/-- Wire the arguments a model forwards to the definitions of a callback, in each way that they
can take them. -/
def wireCallback (ord : SetOrder) (site : P.Site) (invoked : Invoked) (s : Solver P)
    (callback : P.Fn) : Solver P :=
  (P.invokeTargets site callback invoked).foldl (fun s target => target.2.foldl
      (fun s skip => s.wireActuals ord site target.1 fun formal =>
        if formal < skip then none
        else (invoked.args.actualFor (formal - skip)).map (P.invokeSiteIndex site)) s) s

/-- A callback passed in a variable is wired for what the variable holds, in a fixed order, and
watched for what it gains. -/
def watchCallback (ord : SetOrder) (site : P.Site) (invoked : Invoked) (s : Solver P) (v : P.Var) :
    Solver P :=
  match s.pag.varNode v with
  | none => s
  | some node =>
    if (node, site, invoked) ∈ s.invokeWatch then s
    else
      let held := (s.heldFunctions ord v).mergeSort (· ≤ ·)
      held.foldl (wireCallback ord site invoked)
        { s with invokeWatch := s.invokeWatch ++ [(node, site, invoked)] }

def wireInvocation (ord : SetOrder) (site : P.Site) (s : Solver P) (invoked : Invoked) : Solver P :=
  if invoked.args.isEmpty || !P.invocationApplies site invoked then s
  else
    let index := P.invokeSiteIndex site invoked.param
    (argsAt (P.varArgs site) index).foldl (watchCallback ord site invoked)
      ((argsAt (P.fnArgs site) index).foldl (wireCallback ord site invoked) s)

def wireInvocations (ord : SetOrder) (site : P.Site) (callee : P.Fn) (s : Solver P) : Solver P :=
  (P.invocations callee).foldl (wireInvocation ord site) s

/-- Note what a copy added now would miss. -/
def noteCopy (src dst : NodeId) (s : Solver P) : Solver P :=
  { s with
    lapses := s.lapses ++
      ((s.ptsOf src).filter fun l => !(s.delta src).contains l && !s.pts.contains (dst, l)).map
        (.copy src dst) }

/-- Note the stores of a variable that had no location in the graph `before`, and has one now. -/
def noteOwnLocations (before : Pag P) (s : Solver P) : Solver P :=
  { s with
    lapses := s.lapses ++ (s.pag.constraints.filter fun c => c.kind = .store ∧
        before.selfLoc c.src = none ∧ (s.pag.selfLoc c.src).isSome).flatMap fun c =>
          ((s.ptsOf c.dst).filter fun l => l ∉ s.delta c.dst ∧ s.pag.isCell l).map
            (.ownLocation c.src) }

/-- Note the kind of constraint that wires a pair. -/
def noteKind (kind : ConstraintKind) (src dst : NodeId) (s : Solver P) : Solver P :=
  { s with wiredKinds := s.wiredKinds ++ [(kind, src, dst)] }

/-- Note an effect whose pair is wired, though not by an effect of its own kind. -/
def noteWired (kind : ConstraintKind) (src dst : NodeId) (s : Solver P) : Solver P :=
  if (kind, src, dst) ∈ s.wiredKinds then s
  else { s with lapses := s.lapses ++ [.modelEdge kind src dst] }

/-- A copy between the two sides of an alias or a bulk copy, once for each pair. -/
def wireModelCopy (src dst : NodeId) (s : Solver P) : Solver P :=
  if (src, dst) ∈ s.wiredModelEdges then s.noteWired .copy src dst
  else
    let s := { s with wiredModelEdges := s.wiredModelEdges ++ [(src, dst)] }
    ((s.noteCopy src dst).ensureParamCopy src dst).noteKind .copy src dst

def wireModelCopyArgs (site : P.Site) (dst src : ℕ) (s : Solver P) : Solver P :=
  match s.pag.argNode site dst, s.pag.argNode site src with
  | some d, some v => s.wireModelCopy (s.pag.modelCopySide v) (s.pag.modelCopySide d)
  | _, _ => s

/-- A new endpoint's copy is seeded with what its source holds. -/
def wireEpollCopy (ord : SetOrder) (src dst : NodeId) (s : Solver P) : Solver P :=
  let s := s.ensureParamCopy src dst
  s.propagateLocs dst (ord.walk (s.ptsOf src))

/-- A decayed array denotes its storage. -/
def seedArray (node : NodeId) (s : Solver P) : Solver P :=
  match s.pag.nodeVar node with
  | some v =>
    if P.varIsArray v then
      let (loc, pag) := s.pag.ensureVarLoc v
      ({ s with pag }.noteOwnLocations s.pag).addPts node loc
    else s
  | none => s

def epollRegister (ord : SetOrder) (node : NodeId) (s : Solver P) : Solver P :=
  if node ∈ s.pag.nullTemps then s
  else
    let s := s.seedArray node
    if node ∈ s.epollRegistered then s
    else s.epollWaiting.foldl (fun s dst => s.wireEpollCopy ord node dst)
      { s with epollRegistered := s.epollRegistered ++ [node] }

def epollWait (ord : SetOrder) (node : NodeId) (s : Solver P) : Solver P :=
  if node ∈ s.epollWaiting then s
  else s.epollRegistered.foldl (fun s src => s.wireEpollCopy ord src node)
    { s with epollWaiting := s.epollWaiting ++ [node] }

/-- A store that a model stands for, fired once with all that both sides hold. -/
def contentStore (ord : SetOrder) (ptr value : NodeId) (s : Solver P) : Solver P :=
  if (value, ptr) ∈ s.wiredModelEdges then s.noteWired .store value ptr
  else
    let c : Constraint P := { kind := .store, dst := ptr, src := value }
    let s := { s with
      wiredModelEdges := s.wiredModelEdges ++ [(value, ptr)]
      pag := s.pag.addConstraint c }
    (s.applyStoreToTargets ord c none none).noteKind .store value ptr

def applyEffect (ord : SetOrder) (site : P.Site) (s : Solver P) : Effect → Solver P
  -- A member's address may still name its base variable, so it takes no part in an alias.
  | .alias dst src =>
    if dst ∈ P.addrOfMemberArgs site ∨ src ∈ P.addrOfMemberArgs site then s
    else s.wireModelCopyArgs site dst src
  | .memCopy dst src => s.wireModelCopyArgs site dst src
  | .epollRegister param =>
    match s.pag.argNode site param with
    | some node => s.epollRegister ord node
    | none => s
  | .epollWait param =>
    match s.pag.argNode site param with
    | some node => s.epollWait ord (s.pag.modelCopySide node)
    | none => s
  | .contentStore ptr value =>
    match s.pag.argNode site ptr, s.pag.argNode site value with
    | some p, some v => s.contentStore ord p v
    | _, _ => s
  | _ => s

def applyFnModel (ord : SetOrder) (site : P.Site) (callee : P.Fn) (s : Solver P) : Solver P :=
  (P.argEffects callee).foldl (applyEffect ord site) s

end Solver
end Pathologist.PointsTo

import Pathologist.PointsTo.Build
import Pathologist.PointsTo.Wire

/-!
# The solver's loop

A node is popped and what it gained is pushed through every constraint it takes part in. New
locations, constraints and call edges appear on the way: fields of pointed-to objects, the
parameters and results of the callees that an indirect call is found to have. The loop ends
when the worklist is empty or a budget is exhausted.
-/
namespace Pathologist.PointsTo
namespace Solver
variable {P : Program}

/-- The type-keyed summary that a field access falls back to. -/
def gepFallback (s : Solver P) (c : Constraint P) : Solver P :=
  match c.fieldInfo, s.pag.nodeVar c.src with
  | some access, some base =>
    let (summary, pag) := s.pag.ensureFallbackSummary base access
    { s with pag }.pointGepAt c.dst summary.toList
  | _, _ => s

/-- A field access in progress. -/
structure GepRun (P : Program) where
  solver : Solver P
  /-- Some pointee has yielded a field cell. -/
  producedCell : Bool := false
  /-- The members of a table pass once for each step. -/
  tablePassed : Bool := false

/-- The field of a pointee that an access means: none if its struct has another one there. Where
layouts of several configurations were merged the name is looked up. -/
def effectiveField (s : Solver P) (access : FieldAccess P) (loc : LocId) : Option P.Field :=
  if (s.pag.fnForLoc loc).isSome then some access.field
  else
    (s.pag.structTypeForLoc loc).bind fun parentType =>
      if (P.layout parentType access.field).map (·.name) = some access.fieldName then
        some access.field
      else if P.layoutsUnioned then P.fieldIdByName parentType access.fieldName
      else none

/-- A function that the base holds: a table's members pass, any other one only into a slot of
its own signature. -/
def GepRun.function (c : Constraint P) (f : P.Fn) (field : P.Field) (run : GepRun P) (loc : LocId) :
    GepRun P :=
  let s := run.solver
  match (s.pag.nodeVar c.src).bind s.pag.arrayFnMembers with
  | some members =>
    if run.tablePassed then run
    else { run with solver := s.propagateLocs c.dst members, tablePassed := true }
  | none =>
    if (P.params f).length ≠ 0 ∧ s.pag.fieldSlotArity loc field = some (P.params f).length then
      { run with solver := s.addPts c.dst loc }
    else run

/-- An object that the base holds: the access points at its field cell and the summary, and at
the functions parked in an array that it belongs to. -/
def GepRun.object (c : Constraint P) (field : P.Field) (run : GepRun P) (loc : LocId) : GepRun P :=
  let (cell, pag) := run.solver.pag.ensureFieldLoc loc field
  let s := { run.solver with pag }
  match cell with
  | none => { run with solver := s }
  | some cell =>
    let s := s.pointGepAt c.dst (cell :: (pag.fieldLocToSummary cell).toList)
    let members := (pag.locations[loc]?.bind (·.var)).bind pag.arrayFnMembers
    { run with solver := s.propagateLocs c.dst (members.getD []), producedCell := true }

def GepRun.step (c : Constraint P) (access : FieldAccess P) (run : GepRun P) (loc : LocId) :
    GepRun P :=
  match run.solver.effectiveField access loc with
  | none => run
  | some field =>
    match run.solver.pag.fnForLoc loc with
    | some f => run.function c f field loc
    | none => run.object c field loc

def gepStep (delta : List LocId) (s : Solver P) (c : Constraint P) : Solver P :=
  match c.fieldInfo with
  | none => s
  | some access =>
    let run := delta.foldl (GepRun.step c access) { solver := s }
    if run.solver.ptsOf c.src = [] ∨ run.producedCell = false then run.solver.gepFallback c
    else run.solver

/-- The nodes a new constraint is pushed with. -/
def srcsOf (c : Constraint P) : List NodeId :=
  if c.kind = .store then [c.src, c.dst] else [c.src]

def noteConstraint (s : Solver P) (c : Constraint P) : Solver P :=
  if c.kind = .copy then s.noteCopy c.src c.dst else s

/-- What `callee` returns reaches the destination `dst` of an indirect call. Addresses that it
hands out are seeded like those present at the start. -/
def expandIndirectReturn (ord : SetOrder) (callee : P.Fn) (s : Solver P) (dst : NodeId) :
    Solver P :=
  let pag := (expandReturnFlows dst callee { visited := [], pag := s.pag }).2.pag
  let added := pag.constraints.drop s.pag.constraints.length
  let noted := added.foldl noteConstraint ({ s with pag }.noteOwnLocations s.pag)
  (added.flatMap srcsOf).foldl (fun s node => s.push node) (added.foldl (seedAddrOf ord) noted)

def expandIndirectReturns (ord : SetOrder) (site : P.Site) (callee : P.Fn) (s : Solver P) :
    Solver P :=
  match P.calleeVar site with
  | some v => (s.pag.indirectReturnDst v).foldl (expandIndirectReturn ord callee) s
  | none => s

def edgeOf (site : P.Site) (callee : P.Fn) (resolution : ResolutionKind) : CallGraphEdge P :=
  { callSite := some site, caller := P.caller site, callee, resolution }

/-- A callee that an indirect call is found to have, taken up once. -/
def resolveCallee (ord : SetOrder) (site : P.Site) (s : Solver P) (callee : P.Fn) : Solver P :=
  if (site, callee) ∈ s.resolvedIndirect then s
  else
    let s := { s with
      resolvedIndirect := s.resolvedIndirect ++ [(site, callee)]
      callEdges := s.callEdges ++ [edgeOf site callee .indirect] }
    (((s.wireParams ord site callee).expandIndirectReturns ord site callee).applyFnModel ord site
      callee).wireInvocations ord site callee

def resolveSite (ord : SetOrder) (delta : List LocId) (s : Solver P) (site : P.Site) : Solver P :=
  let callees := (delta.filterMap s.pag.fnForLoc).flatMap fun f =>
    P.reachedDefinitions f (P.fnTarget (P.caller site))
  callees.foldl (resolveCallee ord site) s

/-- A callback variable gained functions: what the model forwards reaches their parameters. -/
def notifyWatcher (ord : SetOrder) (delta : List LocId) (s : Solver P)
    (watcher : NodeId × P.Site × Invoked) : Solver P :=
  (delta.filterMap s.pag.fnForLoc).foldl (wireCallback ord watcher.2.1 watcher.2.2) s

def seedNode (node : NodeId) (s : Solver P) : Solver P :=
  s.propagateLocs node ((s.pag.byDst .addrOf node).filterMap fun c => s.pag.nodeLoc c.src)

/-- A node without news: the effects that depend on no pointee, once. -/
def processOnce (node : NodeId) (s : Solver P) : Solver P :=
  if node ∈ s.seenOnce then s
  else
    let s := { s with seenOnce := s.seenOnce ++ [node] }.seedNode node
    (s.pag.bySrc .gep node).foldl gepFallback s

def copyStep (delta : List LocId) (s : Solver P) (c : Constraint P) : Solver P :=
  s.propagateLocs c.dst delta

/-- A smart pointer's receiver takes the objects of its pointee type. -/
def unwrapAdmits (pag : Pag P) (c : Constraint P) (loc : LocId) : Bool :=
  match pag.nodeVar c.dst, pag.locations[loc]? with
  | some receiver, some l =>
    l.kind ≠ .function ∧ l.kind ≠ .stringLit ∧
      P.objectTypeIsPointee l.typeId (P.unwrapPointee receiver)
  | _, _ => false

def unwrapStep (delta : List LocId) (s : Solver P) (c : Constraint P) : Solver P :=
  s.propagateLocs c.dst (delta.filter (unwrapAdmits s.pag c))

def loadStep (delta : List LocId) (s : Solver P) (c : Constraint P) : Solver P :=
  s.loadInto c.dst delta

/-- The functions of the destination's link image with the name that a string spells. -/
def dlsymTargets (pag : Pag P) (c : Constraint P) (loc : LocId) : List LocId :=
  match pag.locations[loc]? with
  | some l =>
    if l.kind = .stringLit then
      ((P.functionsNamed l.desc).filter fun f => P.fnTarget f = pag.nodeTarget c.dst).filterMap
        pag.fnLocations
    else []
  | none => []

def dlsymStep (delta : List LocId) (s : Solver P) (c : Constraint P) : Solver P :=
  s.propagateLocs c.dst (delta.flatMap (dlsymTargets s.pag c))

/-- The values that `node` newly holds, through its copies, unwraps and loads. -/
def flowStep (ord : SetOrder) (node : NodeId) (delta : List LocId) (s : Solver P) : Solver P :=
  let s := s.syncVarToCell ord node delta
  let s := (s.pag.bySrc .copy node).foldl (copyStep delta) s
  let s := (s.pag.bySrc .unwrapPointer node).foldl (unwrapStep delta) s
  let s := s.seedNode node
  (s.pag.bySrc .load node).foldl (loadStep delta) s

/-- Its stores: into the targets that it newly holds, and of the values that it newly holds. -/
def storeStep (ord : SetOrder) (node : NodeId) (delta : List LocId) (s : Solver P) : Solver P :=
  let s := (s.pag.byDst .store node).foldl
    (fun s c => s.applyStoreToTargets ord c (some delta) none) s
  let new := (ord.walk (s.ptsOf node)).filter (· ∈ delta)
  (s.pag.bySrc .store node).foldl (fun s c => s.applyStoreToTargets ord c none (some new)) s

/-- Its indirect calls and watched callbacks. -/
def callStep (ord : SetOrder) (node : NodeId) (delta : List LocId) (s : Solver P) : Solver P :=
  let s := (s.pag.indirectByTarget node).foldl (resolveSite ord delta) s
  (s.invokeWatch.filter fun w => w.1 == node).foldl (notifyWatcher ord delta) s

def processDelta (ord : SetOrder) (node : NodeId) (delta : List LocId) (s : Solver P) : Solver P :=
  let s := s.flowStep ord node delta
  let s := s.storeStep ord node delta
  let s := (s.pag.bySrc .gep node).foldl (gepStep delta) s
  let s := (s.pag.bySrc .dlsym node).foldl (dlsymStep delta) s
  s.callStep ord node delta

def takeDelta (node : NodeId) (s : Solver P) : Solver P :=
  { s with delta := Function.update s.delta node [] }

def process (ord : SetOrder) (node : NodeId) (s : Solver P) : Solver P :=
  if s.delta node = [] then s.processOnce node
  else (s.takeDelta node).processDelta ord node (s.delta node)

end Solver

/-! ## The whole solve -/

/-- The limits in force during a solve. `pops` is absent for a requested budget of 0, `timeUp` tells
at a checkpoint whether the time is used up. -/
structure Budget where
  pops : Option ℕ := none
  timeUp : ℕ → Bool := fun _ => false

def Budget.exhausted (budget : Budget) (pops : ℕ) : Bool :=
  budget.pops.any (· ≤ pops) || (decide (0 < pops ∧ pops % 10000 = 0) && budget.timeUp pops)

structure SolveOutcome (P : Program) where
  converged : Bool
  pops : ℕ
  solver : Solver P

namespace Solver
variable {P : Program}

/-- The loop; `none` if the fuel runs out. A node popped when the budget is exhausted is
dropped. -/
def solveLoop (ord : SetOrder) (budget : Budget) : ℕ → ℕ → Solver P → Option (SolveOutcome P)
  | 0, _, _ => none
  | fuel + 1, pops, s =>
    match s.worklist with
    | [] => some { converged := true, pops, solver := s }
    | node :: rest =>
      let s := { s with worklist := rest }
      if budget.exhausted pops then some { converged := false, pops, solver := s }
      else solveLoop ord budget fuel (pops + 1) (s.process ord node)

/-- A static object's name denotes its storage. -/
def seedOwnLocation (s : Solver P) (v : P.Var) : Solver P :=
  match P.seedsOwnLocation v, s.pag.varLocation v, s.pag.varNode v with
  | true, some loc, some node => s.addPts node loc
  | true, some _, none => s.panic
  | _, _, _ => s

def resolveDirect (ord : SetOrder) (site : P.Site) (s : Solver P) (callee : P.Fn) : Solver P :=
  let edge := edgeOf site callee (if P.isDefined callee then .direct else .external)
  let s := { s with callEdges := s.callEdges ++ [edge] }
  let s := if (P.params callee).isEmpty then s else s.wireParams ord site callee
  (s.applyFnModel ord site callee).wireInvocations ord site callee

def resolveDirectSite (ord : SetOrder) (s : Solver P) (site : P.Site) : Solver P :=
  if P.unevaluated site then s else (P.calleesOf site).foldl (resolveDirect ord site) s

/-- The state before the loop: guards, the nodes of all constraints, the addresses and static
objects, and the calls that are resolved by name. -/
def start (ord : SetOrder) (pag : Pag P) : Solver P :=
  let s : Solver P :=
    { pag, slotGuard := fun loc => pag.locations[loc]?.bind fun l => P.slotGuardFor l.typeId }
  let s := pag.constraints.foldl (fun s c => (s.push c.dst).push c.src) s
  let s := pag.constraints.foldl (seedAddrOf ord) s
  let s := { s with seenOnce := (pag.constraints.filter fun c => c.kind = .addrOf).map (·.dst) }
  let s := P.vars.foldl seedOwnLocation s
  P.callSites.foldl (resolveDirectSite ord) s

/-- The callbacks handed to a modelled callee at a call, by name or in a variable. -/
def callbackTargets (ord : SetOrder) (s : Solver P) (edge : CallGraphEdge P) :
    List (P.Site × P.Fn) :=
  match edge.callSite with
  | none => []
  | some site =>
    ((P.invocations edge.callee).filter (P.invocationApplies site)).flatMap fun invoked =>
      let index := P.invokeSiteIndex site invoked.param
      (argsAt (P.fnArgs site) index ++ (argsAt (P.varArgs site) index).flatMap
        (s.heldFunctions ord)).flatMap
        fun callback => (P.invokeTargets site callback invoked).map fun target => (site, target.1)

/-- The pairs not seen before, each once. -/
def unseen (seen found : List (P.Site × P.Fn)) : List (P.Site × P.Fn) :=
  found.foldl (fun fresh pair => if pair ∈ seen ∨ pair ∈ fresh then fresh else fresh ++ [pair]) []

def siteCalleeLe (a b : P.Site × P.Fn) : Bool := a.1 < b.1 ∨ (a.1 = b.1 ∧ a.2 ≤ b.2)

/-- Edges for the callbacks that a model invokes, in a fixed order. A callback that the call
graph already holds at the site keeps the edge it has. -/
def callbackEdges (ord : SetOrder) (s : Solver P) : List (CallGraphEdge P) :=
  let seen := s.callEdges.filterMap fun edge => edge.callSite.map fun site => (site, edge.callee)
  ((unseen seen (s.callEdges.flatMap (s.callbackTargets ord))).mergeSort siteCalleeLe).map
    fun pair =>
    edgeOf pair.1 pair.2 .indirect

def bridgeEdges (P : Program) : List (CallGraphEdge P) :=
  P.ipcBridges.map fun bridge =>
    { callSite := none, caller := bridge.1, callee := bridge.2, resolution := .ipcBridge }

end Solver

/-- What a solve reports of the call graph. -/
def SolveOutcome.callEdges {P : Program} (ord : SetOrder) (out : SolveOutcome P) :
    List (CallGraphEdge P) :=
  out.solver.callEdges ++ out.solver.callbackEdges ord ++ Solver.bridgeEdges P

/-- Solve a graph with fuel for `fuel` pops. -/
def solve {P : Program} (ord : SetOrder) (budget : Budget) (fuel : ℕ) (pag : Pag P) :
    Option (SolveOutcome P) :=
  (Solver.start ord pag).solveLoop ord budget fuel 0

/-- Build the graph of a program and solve it. -/
def analyze (P : Program) (ord : SetOrder) (budget : Budget) (fuel : ℕ) : Option (SolveOutcome P) :=
  solve ord budget fuel (Pag.build P)

end Pathologist.PointsTo

import Pathologist.PointsTo.Returns

/-!
# Building the graph

The graph of a program before it is solved: a node for every variable and a location for every
static one that a fact names, a location for every function, the constraints of the recorded
facts, and a target node for every indirect call.
-/
open Function
namespace Pathologist.PointsTo
variable {P : Program}

namespace Pag

def buildVariable (pag : Pag P) (v : P.Var) : Pag P :=
  if P.hasStaticStorage v && !P.isNamed v then pag
  else
    let pag := (pag.varNodeId v).2
    if P.hasStaticStorage v then pag.allocVarLoc v else pag

def buildFunctionLocation (pag : Pag P) (f : P.Fn) : Pag P :=
  match pag.fnLocations f with
  | some _ => pag
  | none =>
    let loc := pag.locations.length
    let pag := (pag.allocLoc
      { kind := .function, var := none, fnId := some f, field := none, typeId := P.returnType f,
        desc := P.fnName f }).setLocationTarget loc (P.fnTarget f)
    { pag with fnLocations := update pag.fnLocations f (some loc) }

def internStringLoc (value : String) (pag : Pag P) : LocId × Pag P :=
  match pag.stringLocs value with
  | some loc => (loc, pag)
  | none =>
    let loc := pag.locations.length
    let pag := pag.allocLoc
      { kind := .stringLit, var := none, fnId := none, field := none, typeId := P.charType,
        desc := value }
    (loc, { pag with stringLocs := update pag.stringLocs value (some loc) })

/-- The interned null value. -/
def nullNodeId (pag : Pag P) : NodeId × Pag P :=
  match pag.nullNode with
  | some node => (node, pag)
  | none =>
    (pag.nodes.length, { pag.allocNode .nullPointer with nullNode := some pag.nodes.length })

/-- A constraint between the nodes of two variables. -/
def addBetween (kind : ConstraintKind) (dst src : P.Var) (fieldInfo : Option (FieldAccess P))
    (pag : Pag P) : Pag P :=
  let (dstNode, pag) := pag.varNodeId dst
  let (srcNode, pag) := pag.varNodeId src
  pag.addConstraint { kind, dst := dstNode, src := srcNode, fieldInfo }

/-- The returns of the candidates of one call into `dst`, and failing those its model. -/
def expandCandidates (dst : NodeId) (candidates : List P.Fn) (model : Option (String × List Effect))
    (params : Option (List P.Var)) (pag : Pag P) : Expansion P :=
  let r := Expansion.all (expandReturnFlows dst) candidates { visited := [], pag }
  if r.1 then r.2
  else
    match model with
    | some model =>
      { r.2 with
        pag := r.2.pag.applyReturnModel dst model params
        modelUses := r.2.modelUses ++ [⟨candidates, []⟩] }
    | none => r.2

def buildFlowConstraint (pag : Pag P) : FlowConstraint P.Var P.Fn P.Field → Pag P
  | .copy dst src => pag.addBetween .copy dst src none
  | .addrOfVar dst src =>
    let (dstNode, pag) := pag.varNodeId dst
    let (loc, pag) := pag.ensureVarLoc src
    pag.addAddrOf dstNode loc
  | .addrOfFn dst callee =>
    let (dstNode, pag) := pag.varNodeId dst
    match pag.fnLocations callee with
    | some loc => pag.addAddrOf dstNode loc
    | none => pag
  | .load dst src => pag.addBetween .load dst src none
  | .store dst src => pag.addBetween .store dst src none
  | .gepField dst base field fieldName => pag.addBetween .gep dst base (some { field, fieldName })
  | .arrayFnMember array callee =>
    let (arrayNode, pag) := pag.varNodeId array
    match pag.fnLocations callee with
    | some loc =>
      let pag := pag.addAddrOf arrayNode loc
      { pag with
        arrayFnMembers :=
          update pag.arrayFnMembers array (some ((pag.arrayFnMembers array).getD [] ++ [loc])) }
    | none => pag
  | .callReturn dst calleeName caller =>
    let (dstNode, pag) := pag.varNodeId dst
    let candidates := P.callReturnCandidates caller dst calleeName
    (pag.expandCandidates dstNode candidates (P.returnModel calleeName)
      (firstParams P candidates)).pag
  | .callReturnResolved dst callee =>
    let (dstNode, pag) := pag.varNodeId dst
    (expandReturnFlows dstNode callee { visited := [], pag }).2.pag
  | .callReturnIndirect dst calleeVar =>
    let (dstNode, pag) := pag.varNodeId dst
    if dstNode ∈ pag.indirectReturnDst calleeVar then pag
    else
      { pag with
        indirectReturnDst := update pag.indirectReturnDst calleeVar
          (pag.indirectReturnDst calleeVar ++ [dstNode]) }
  | .newHeap dst =>
    let (dstNode, pag) := pag.varNodeId dst
    let loc := pag.locations.length
    let pag := pag.allocLoc
      { kind := .heap, var := none, fnId := none, field := none, typeId := P.varType dst,
        desc := "new heap" }
    (pag.setLocationTarget loc (P.varTarget dst)).addAddrOf dstNode loc
  | .nullPointer dst =>
    let (dstNode, pag) := pag.varNodeId dst
    let pag := if P.varIsTemp dst then { pag with nullTemps := pag.nullTemps ++ [dstNode] } else pag
    let (nullNode, pag) := pag.nullNodeId
    pag.addCopy dstNode nullNode
  | .stringConst dst value =>
    let (dstNode, pag) := pag.varNodeId dst
    let (loc, pag) := pag.internStringLoc value
    pag.addAddrOf dstNode loc
  | .unwrapPointer dst src => pag.addBetween .unwrapPointer dst src none

/-- The member and virtual calls whose result is expanded by call site. -/
def returningSites (P : Program) : List P.Site :=
  P.callSites.filter fun site =>
    !P.unevaluated site && (P.hasReceiverClass site || P.argsBoundPastThis site) &&
      (P.returnDst site).isSome

/-- Whether two sites are candidates of one written call. -/
def sameCall (P : Program) (a b : P.Site) : Bool :=
  P.returnDst a == P.returnDst b && P.caller a == P.caller b && P.occurrence a == P.occurrence b

/-- The calls, each with the sites that are its candidates. -/
def calls (P : Program) : List (List P.Site) :=
  let callKeys := (returningSites P).foldl
    (fun keys site => if keys.any (sameCall P site) then keys else keys ++ [site]) []
  callKeys.map fun key => (returningSites P).filter (sameCall P key)

/-- The returns of one written call; the model is the first that a candidate's name has. -/
def expandCall (pag : Pag P) (sites : List P.Site) : Pag P :=
  match sites.head?.bind P.returnDst with
  | none => pag
  | some dst =>
    let (dstNode, pag) := pag.varNodeId dst
    let modelled := sites.find? fun site => (P.returnModel (P.calleeName site)).isSome
    (pag.expandCandidates dstNode (sites.flatMap P.calleesOf)
      (modelled.bind fun site => P.returnModel (P.calleeName site))
      (modelled.bind fun site => (P.calleeFnId site).map P.params)).pag

/-- A lookup by name: the result gains the functions that the strings of the argument name. -/
def buildDlsymConstraint (pag : Pag P) (site : P.Site) : Pag P :=
  let nameParam := (P.dlsymEffects site).findSome? fun
    | .dlsym nameParam => some nameParam
    | _ => none
  match P.unevaluated site, P.returnDst site, nameParam.bind (P.actualAt site) with
  | false, some dst, some name => pag.addBetween .dlsym dst name none
  | _, _, _ => pag

def callTargetNode (site : P.Site) (pag : Pag P) : NodeId × Pag P :=
  match pag.callTargets site with
  | some node => (node, pag)
  | none =>
    (pag.nodes.length, { pag.allocNode (.callTarget site) with
        callTargets := update pag.callTargets site (some pag.nodes.length) })

def ensureStaticVar (v : P.Var) (pag : Pag P) : Pag P :=
  if P.hasStaticStorage v then (pag.ensureVarLoc v).2 else pag

/-- The target node of an indirect call, fed by the variable it is made through. A callee that
is spelled as a member holds the function itself. -/
def buildCallConstraint (pag : Pag P) (site : P.Site) : Pag P :=
  if P.isDirect site || P.unevaluated site then pag
  else
    match P.calleeVar site with
    | some v =>
      let (target, pag) := pag.callTargetNode site
      let (src, pag) := pag.varNodeId v
      let name := (P.calleeName site).toList
      let kind : ConstraintKind :=
        if name.tails.any (['-', '>'].isPrefixOf ·) || name.contains '.' then .copy else .load
      pag.addConstraint { kind, dst := target, src }
    | none =>
      if P.calleeNameIsAFunction site then pag
      else
        let (target, pag) := pag.callTargetNode site
        match P.calleeNameVar site with
        | some v =>
          let (src, pag) := (pag.ensureStaticVar v).varNodeId v
          pag.addConstraint { kind := .load, dst := target, src }
        | none => pag

/-- What is read off the finished list of constraints. -/
def buildIndices (pag : Pag P) : Pag P :=
  { pag with
    nullTemps := pag.nullTemps.filter fun node =>
      !pag.constraints.any fun c =>
        c.dst = node ∧ (c.kind ≠ .copy ∨ some c.src ≠ pag.nullNode)
    indirectByTarget := fun node => P.callSites.filter fun site =>
      !P.isDirect site && !P.unevaluated site && pag.callTargets site == some node }

def build (P : Program) : Pag P :=
  let pag : Pag P := P.vars.foldl buildVariable {}
  let pag := P.functions.foldl buildFunctionLocation pag
  let pag := P.flow.foldl buildFlowConstraint pag
  let pag := (calls P).foldl expandCall pag
  let pag := P.callSites.foldl buildDlsymConstraint pag
  let pag := P.callSites.foldl buildCallConstraint pag
  pag.buildIndices

end Pag
end Pathologist.PointsTo

import Mathlib.Data.Finite.Defs
import Mathlib.Data.List.Sort

/-!
# The analysed program

What the points-to solver asks of a merged program. The ids of its tables are types of the
program, finite for a real one; types, names and function models are asked through queries
that depend on nothing else.
-/
namespace Pathologist.PointsTo

/-- What a function model says a call does. -/
inductive Effect
  | alias (dst src : ℕ)
  | memCopy (dst src : ℕ)
  | contentStore (ptr value : ℕ)
  | epollRegister (param : ℕ)
  | epollWait (param : ℕ)
  | returnAlias (param : ℕ)
  | returnHeap
  | dlsym (nameParam : ℕ)
  | clears (param : ℕ)
  /-- `invoke`, `entry` and `ipc`, which the effects of a call pass over. -/
  | other
  deriving DecidableEq

/-- The arguments a model forwards to a callback. -/
inductive InvokeArgs
  | listed (args : List ℕ)
  | rest (start : ℕ)
  deriving DecidableEq

namespace InvokeArgs

/-- The callee parameter passed as the callback's `formal`-th parameter. -/
def actualFor : InvokeArgs → ℕ → Option ℕ
  | listed args, formal => args[formal]?
  | rest start, formal => some (start + formal)

def isEmpty : InvokeArgs → Bool
  | listed args => args.isEmpty
  | rest _ => false

end InvokeArgs

/-- The test a call's argument must pass for an `invoke` effect to apply. -/
structure ArgType where
  param : ℕ
  className : String
  is : Bool
  deriving DecidableEq

inductive ContextKind
  | ipcHandler | poolTask | serialTask | thread | unknown
  deriving DecidableEq

/-- One `invoke` effect of a modelled callee. -/
structure Invoked where
  param : ℕ
  args : InvokeArgs
  /-- A class the callee passes ahead of `args` to a callback that takes it. -/
  supplies : Option String
  when : Option ArgType
  context : ContextKind
  model : String
  deriving DecidableEq

/-- What a function returns. -/
inductive ReturnFlow (Var Fn : Type)
  | addrOfVar (src : Var)
  | addrOfFn (callee : Fn)
  | copy (src : Var)
  | call (calleeName : String)

/-- The variable the return names, if any. -/
def ReturnFlow.var {Var Fn : Type} : ReturnFlow Var Fn → Option Var
  | addrOfVar src | copy src => some src
  | addrOfFn _ | call _ => none

/-- The facts lowering records for a program. -/
inductive FlowConstraint (Var Fn Field : Type)
  | copy (dst src : Var)
  | addrOfVar (dst src : Var)
  | addrOfFn (dst : Var) (callee : Fn)
  | load (dst src : Var)
  | store (dst src : Var)
  | gepField (dst base : Var) (field : Field) (fieldName : String)
  | arrayFnMember (array : Var) (callee : Fn)
  | callReturn (dst : Var) (calleeName : String) (caller : Option Fn)
  | callReturnResolved (dst : Var) (callee : Fn)
  | callReturnIndirect (dst calleeVar : Var)
  | newHeap (dst : Var)
  | nullPointer (dst : Var)
  | stringConst (dst : Var) (value : String)
  | unwrapPointer (dst src : Var)

/-- Every variable the fact names, destination first. -/
def FlowConstraint.vars {Var Fn Field : Type} : FlowConstraint Var Fn Field → List Var
  | copy dst src | load dst src | store dst src | addrOfVar dst src | unwrapPointer dst src =>
    [dst, src]
  | gepField dst base _ _ => [dst, base]
  | callReturnIndirect dst calleeVar => [dst, calleeVar]
  | arrayFnMember array _ => [array]
  | addrOfFn dst _ | callReturn dst _ _ | callReturnResolved dst _ | newHeap dst
  | stringConst dst _ | nullPointer dst => [dst]

inductive LocKind
  | global | fileStatic | fnStatic | local | heap | field | fieldSummary | arraySummary
  | function | stringLit
  deriving DecidableEq

inductive StorageClass
  | global | fileStatic | fnStatic | local | param
  deriving DecidableEq

/-- The kind of location a variable of this storage class has. -/
def StorageClass.locKind : StorageClass → LocKind
  | .global => .global
  | .fileStatic => .fileStatic
  | .fnStatic => .fnStatic
  | .local | .param => .local

/-- The declared content of a memory cell, as far as it is known. -/
inductive SlotGuard
  /-- A function pointer with this many parameters. -/
  | fnParams (n : ℕ)
  /-- A concrete type that is no function pointer. -/
  | notFnPtr
  deriving DecidableEq

structure FieldLayout (Ty : Type) where
  typeId : Ty
  name : String

/-- A merged program. Each id type holds the ids of one table, so it is finite; the tables that
are walked whole are lists of all their ids. -/
structure Program where
  Var : Type
  Fn : Type
  Ty : Type
  Field : Type
  Target : Type
  Site : Type
  [decVar : DecidableEq Var]
  [linFn : LinearOrder Fn]
  [decTy : DecidableEq Ty]
  [decField : DecidableEq Field]
  [decTarget : DecidableEq Target]
  [linSite : LinearOrder Site]
  [finTy : Finite Ty]
  [finField : Finite Field]
  [finTarget : Finite Target]
  flow : List (FlowConstraint Var Fn Field)
  -- Variables.
  vars : List Var
  mem_vars : ∀ v, v ∈ vars
  varType : Var → Ty
  varName : Var → String
  storage : Var → StorageClass
  varFn : Var → Option Fn
  varTarget : Var → Option Target
  varIsTemp : Var → Bool
  varIsPointerLike : Var → Bool
  varMayHoldPointee : Var → Bool
  varIsArray : Var → Bool
  /-- Whether the variable holds a value of the class, where its type tells. -/
  varIsValueOf : Var → String → Option Bool
  -- Functions.
  functions : List Fn
  mem_functions : ∀ f, f ∈ functions
  fnName : Fn → String
  returnType : Fn → Ty
  params : Fn → List Var
  isDefined : Fn → Bool
  fnTarget : Fn → Option Target
  hasThisParam : Fn → Bool
  explicitArity : Fn → Option ℕ
  defaultArgs : Fn → ℕ
  variadic : Fn → Bool
  isStaticMember : Fn → Bool
  declaredInClass : Fn → Bool
  hasTargetScopes : Bool
  /-- The functions a declaration's name and file may mean in a link image. -/
  candidates : Fn → Option Target → List Fn
  /-- The entries of the global namespace with this name. -/
  functionsNamed : String → List Fn
  fnReturns : Fn → Option (List (ReturnFlow Var Fn))
  returnFlowCandidates : Fn → String → List Fn
  callReturnCandidates : Option Fn → Var → String → List Fn
  -- Call sites.
  callSites : List Site
  mem_callSites : ∀ site, site ∈ callSites
  caller : Site → Fn
  calleeName : Site → String
  calleeFnId : Site → Option Fn
  isDirect : Site → Bool
  unevaluated : Site → Bool
  varArgs : Site → List (ℕ × Var)
  fnArgs : Site → List (ℕ × Fn)
  calleeVar : Site → Option Var
  returnDst : Site → Option Var
  addrOfMemberArgs : Site → List ℕ
  argsBoundPastThis : Site → Bool
  hasReceiverClass : Site → Bool
  /-- The source occurrence of the call, numbered. -/
  occurrence : Site → ℕ
  calleesOf : Site → List Fn
  calleeNameIsAFunction : Site → Bool
  /-- The variable the callee's name means in the calling function. -/
  calleeNameVar : Site → Option Var
  -- Types.
  unknownType : Ty
  charType : Ty
  layoutsUnioned : Bool
  /-- The struct a variable's declared type is, points to or is made of. -/
  structTypeFromTypeId : Ty → Option Ty
  /-- The same for the type recorded at a location without a variable. -/
  structTypeOfLocType : Ty → Option Ty
  structName : Ty → String
  layout : Ty → Field → Option (FieldLayout Ty)
  fieldIdByName : Ty → String → Option Field
  tagIdentity : Ty → Ty
  /-- The parameter count of a function pointer type. -/
  fnPtrArity : Ty → Option ℕ
  slotGuardFor : Ty → Option SlotGuard
  objectTypeIsPointee : Ty → Ty → Bool
  /-- The declaration that the receiver of an unwrap points to. -/
  unwrapPointee : Var → Ty
  -- Models, by the effect group they are asked for.
  argEffects : Fn → List Effect
  returnModel : String → Option (String × List Effect)
  dlsymEffects : Site → List Effect
  invocations : Fn → List Invoked
  ipcBridges : List (Fn × Fn)

attribute [instance] Program.decVar Program.linFn Program.decTy Program.decField Program.decTarget
  Program.linSite Program.finTy Program.finField Program.finTarget

/-- The values recorded at position `index`: several when a name has overloads. -/
def argsAt {α : Type} (args : List (ℕ × α)) (index : ℕ) : List α :=
  (args.filter fun a => a.1 == index).map Prod.snd

namespace Program
variable (P : Program)

/-- Storage that outlives a call, and so has a location of its own. -/
def hasStaticStorage (v : P.Var) : Bool :=
  P.storage v = .global || P.storage v = .fileStatic || P.storage v = .fnStatic

/-- Whether the solver starts the variable's node out holding the variable's own location. -/
def seedsOwnLocation (v : P.Var) : Bool :=
  P.hasStaticStorage v && !P.varIsPointerLike v

/-- The functions an indirect call from a caller in the link image `callerTarget` reaches
through `f`: the definitions a declaration stands for, and `f` itself. -/
def reachedDefinitions (f : P.Fn) (callerTarget : Option P.Target) : List P.Fn :=
  if P.hasTargetScopes && decide (P.fnTarget f ≠ callerTarget) then []
  else
    (if P.isDefined f then [] else (P.candidates f callerTarget).filter fun c => P.isDefined c) ++
      [f]

/-- The declaration member a field's summary is keyed by. -/
def declaredMember (structType : P.Ty) (field : P.Field) : P.Ty × P.Field :=
  match P.layout structType field with
  | none => (structType, field)
  | some member =>
    let declared := P.tagIdentity structType
    match P.fieldIdByName declared member.name with
    | some field' => if declared ≠ structType then (declared, field') else (structType, field)
    | none => (structType, field)

/-- The variable passed at position `index`, if one is. -/
def actualAt (site : P.Site) (index : ℕ) : Option P.Var :=
  ((P.varArgs site).find? fun a => a.1 == index).map Prod.snd

/-- The variables the facts, returns and call sites name. -/
def isNamed (v : P.Var) : Bool :=
  P.flow.any (fun c => c.vars.contains v) ||
  P.functions.any (fun f => ((P.fnReturns f).getD []).any fun r => r.var == some v) ||
  P.callSites.any fun site =>
    P.calleeVar site == some v || P.returnDst site == some v ||
      ((P.varArgs site).map Prod.snd).contains v

/-- Where the site records the explicit argument `param`: a member's arguments are recorded
past its `this`. -/
def invokeSiteIndex (site : P.Site) (param : ℕ) : ℕ :=
  param + if P.argsBoundPastThis site then 1 else 0

/-- An effect with an argument test applies unless every recorded value tells, and tells the
same, and it is not what the test asks for. -/
def invocationApplies (site : P.Site) (invoked : Invoked) : Bool :=
  match invoked.when with
  | none => true
  | some test =>
    let index := P.invokeSiteIndex site test.param
    match (argsAt (P.fnArgs site) index).map (fun _ => some false) ++
        (argsAt (P.varArgs site) index).map (P.varIsValueOf · test.className) with
    | some is :: values => if values.all (· == some is) then is == test.is else true
    | _ => true

/-- Whether the formal at `skip` takes the supplied value: without one, behind one, or both
where its type does not tell. -/
def leads (target : P.Fn) (supplies : Option String) (skip : ℕ) : Option ℕ × Option ℕ :=
  let supplied := match supplies with
    | none => some false
    | some className =>
      match (P.params target)[skip]? with
      | none => some false
      | some formal => P.varIsValueOf formal className
  (if supplied = some true then none else some 0, if supplied = some false then none else some 1)

/-- The ways among `typed` that there is room for; arguments that leave no room for a supplied
value are forwarded as given. -/
def admitWays (typed : Option ℕ × Option ℕ) (fits : ℕ → Bool) : Option ℕ × Option ℕ :=
  let cells := (typed.1.filter fits, typed.2.filter fits)
  if cells.1.isNone && cells.2.isNone && typed.2.isSome && fits 0 then (some 0, cells.2) else cells

/-- The ways a grid of formals to skip admits, row by row, each once. -/
def alignmentsOfGrid (grid : List (Option ℕ)) : List ℕ :=
  (grid.filterMap id).foldl (fun skips skip =>
    if skips.contains skip then skips else skips ++ [skip]) []

/-- The ways `target` can be called with the arguments an effect forwards, each as the number
of leading formals that they skip. -/
def invokeAlignments (site : P.Site) (target : P.Fn) (invoked : Invoked) : List ℕ :=
  let this := if P.hasThisParam target then 1 else 0
  let unlisted := (P.explicitArity target).isNone && (P.params target).isEmpty
  let declared := (P.explicitArity target).getD ((P.params target).length - this)
  match invoked.args with
  -- A listed form passes exactly these, never a receiver.
  | .listed list =>
    let fits := fun lead =>
      let n := list.length + lead
      unlisted || (declared ≤ n + P.defaultArgs target && (n ≤ declared || P.variadic target))
    let row := admitWays (P.leads target invoked.supplies this) fits
    alignmentsOfGrid [row.1.map (this + ·), row.2.map (this + ·)]
  | .rest start =>
    let first := P.invokeSiteIndex site start
    let last := ((P.varArgs site).map Prod.fst ++ (P.fnArgs site).map Prod.fst).max?
    -- The last argument recorded is a lower bound on how many there are.
    let passed := match last with
      | some last => if first ≤ last then last - first + 1 else 0
      | none => 0
    let room := fun slots lead => unlisted || P.variadic target || decide (passed + lead ≤ slots)
    let row := fun (skip slots : ℕ) (admitted : Bool) =>
      if admitted then
        let cells := admitWays (P.leads target invoked.supplies skip) (room slots)
        [cells.1.map (skip + ·), cells.2.map (skip + ·)]
      else []
    let skipsThis := this == 1 && (P.isStaticMember target || !P.declaredInClass target)
    alignmentsOfGrid
      (row 0 (declared + this) (!P.isStaticMember target) ++ row 1 declared skipsThis)

/-- The definitions a callback runs when a model invokes it, each with the ways that it takes
the arguments. -/
def invokeTargets (site : P.Site) (callback : P.Fn) (invoked : Invoked) : List (P.Fn × List ℕ) :=
  (P.reachedDefinitions callback (P.fnTarget (P.caller site))).filterMap fun target =>
    let alignments := P.invokeAlignments site target invoked
    if alignments.isEmpty then none else some (target, alignments)

end Program

/-! ## The graph's vocabulary -/

/-- Positions in the graph's tables of nodes and of locations. -/
abbrev NodeId := ℕ

abbrev LocId := ℕ

inductive PagNodeKind (P : Program)
  | var (v : P.Var)
  | nullPointer
  | loc (l : LocId)
  | callTarget (site : P.Site)

structure AbstractLocation (P : Program) where
  kind : LocKind
  var : Option P.Var
  fnId : Option P.Fn
  field : Option P.Field
  typeId : P.Ty
  desc : String

inductive ConstraintKind
  | copy | addrOf | load | store | gep | dlsym | unwrapPointer
  deriving DecidableEq

structure FieldAccess (P : Program) where
  field : P.Field
  fieldName : String

structure Constraint (P : Program) where
  kind : ConstraintKind
  dst : NodeId
  src : NodeId
  fieldInfo : Option (FieldAccess P) := none

inductive ResolutionKind
  | direct | indirect | ambiguous | external | ipcBridge
  deriving DecidableEq

/-- An edge of the call graph; a bridge between processes has no call site. -/
structure CallGraphEdge (P : Program) where
  callSite : Option P.Site
  caller : P.Fn
  callee : P.Fn
  resolution : ResolutionKind

end Pathologist.PointsTo

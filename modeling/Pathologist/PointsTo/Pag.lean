import Pathologist.PointsTo.Program

/-!
# The pointer assignment graph

Nodes, constraints and abstract locations, numbered in the order they are created. A location
is given to a variable, a function, a string or an allocation, to a field of another location,
or to a field of a struct type as the summary of all its instances. The adjacency indices of
the solver are read off the list of constraints.
-/
open Function
namespace Pathologist.PointsTo

structure Pag (P : Program) where
  nodes : List (PagNodeKind P) := []
  constraints : List (Constraint P) := []
  locations : List (AbstractLocation P) := []
  varNode : P.Var → Option NodeId := fun _ => none
  locNode : LocId → Option NodeId := fun _ => none
  callTargets : P.Site → Option NodeId := fun _ => none
  nullNode : Option NodeId := none
  /-- Synthetic null values with no other producer. -/
  nullTemps : List NodeId := []
  fnLocations : P.Fn → Option LocId := fun _ => none
  varLocation : P.Var → Option LocId := fun _ => none
  stringLocs : String → Option LocId := fun _ => none
  fieldLoc : LocId × P.Field → Option LocId := fun _ => none
  fieldDepth : LocId → ℕ := fun _ => 0
  fieldSummary : Option P.Target × P.Ty × P.Field → Option LocId := fun _ => none
  fieldLocToSummary : LocId → Option LocId := fun _ => none
  locationTargets : LocId → Option P.Target := fun _ => none
  /-- Functions that the initialisers of an array variable park in it. -/
  arrayFnMembers : P.Var → Option (List LocId) := fun _ => none
  /-- The nodes that receive the result of calls through a variable. -/
  indirectReturnDst : P.Var → List NodeId := fun _ => []
  indirectByTarget : NodeId → List P.Site := fun _ => []

/-- The depth past which a field of a field is folded into its summary. -/
def fieldLocDepthCap : ℕ := 4

namespace Pag
variable {P : Program}

def fnForLoc (pag : Pag P) (loc : LocId) : Option P.Fn :=
  match pag.locations[loc]? with
  | some l => if l.kind = .function then l.fnId else none
  | none => none

def isStringLit (pag : Pag P) (loc : LocId) : Bool :=
  (pag.locations[loc]?.map (·.kind)) == some .stringLit

/-- Whether a location has memory: functions and string literals have none. -/
def isCell (pag : Pag P) (loc : LocId) : Bool :=
  (pag.fnForLoc loc).isNone && !pag.isStringLit loc

/-- The parameter count of a function location, where it has parameters. -/
def fnArity (pag : Pag P) (loc : LocId) : Option ℕ :=
  (pag.fnForLoc loc).bind fun f =>
    if (P.params f).isEmpty then none else some (P.params f).length

/-- The constraints of a kind with this source, in the order they were added. -/
def bySrc (pag : Pag P) (kind : ConstraintKind) (node : NodeId) : List (Constraint P) :=
  pag.constraints.filter fun c => c.kind = kind ∧ c.src = node

def byDst (pag : Pag P) (kind : ConstraintKind) (node : NodeId) : List (Constraint P) :=
  pag.constraints.filter fun c => c.kind = kind ∧ c.dst = node

def isLoadSrc (pag : Pag P) (node : NodeId) : Bool :=
  pag.constraints.any fun c => c.kind = .load ∧ c.src = node

/-- Whether a constraint of this kind joins two nodes. -/
def joins (pag : Pag P) (kind : ConstraintKind) (dst src : NodeId) : Bool :=
  pag.constraints.any fun c => c.kind = kind ∧ c.dst = dst ∧ c.src = src

def nodeLoc (pag : Pag P) (node : NodeId) : Option LocId :=
  match pag.nodes[node]? with
  | some (.loc l) => some l
  | _ => none

def nodeVar (pag : Pag P) (node : NodeId) : Option P.Var :=
  match pag.nodes[node]? with
  | some (.var v) => some v
  | _ => none

/-- The location of a variable whose name denotes its storage, which a store of it writes. -/
def selfLoc (pag : Pag P) (node : NodeId) : Option LocId :=
  (pag.nodeVar node).bind fun v => if P.varIsPointerLike v then none else pag.varLocation v

def nodeTarget (pag : Pag P) (node : NodeId) : Option P.Target :=
  if P.hasTargetScopes then
    match pag.nodes[node]? with
    | some (.var v) => P.varTarget v
    | some (.loc l) => pag.locationTargets l
    | some (.callTarget site) => P.fnTarget (P.caller site)
    | _ => none
  else none

def structTypeForLoc (pag : Pag P) (loc : LocId) : Option P.Ty :=
  pag.locations[loc]?.bind fun l =>
    match l.var with
    | some v => P.structTypeFromTypeId (P.varType v)
    | none => P.structTypeOfLocType l.typeId

/-- The declared parameter count of the function pointer field of a location. -/
def fieldSlotArity (pag : Pag P) (base : LocId) (field : P.Field) : Option ℕ :=
  (pag.structTypeForLoc base).bind fun parentType =>
    (P.layout parentType field).bind fun member => P.fnPtrArity member.typeId

/-- The variable whose address a node was assigned, if any. -/
def addressedVar (pag : Pag P) (node : NodeId) : Option P.Var :=
  (pag.byDst .addrOf node).findSome? fun c =>
    (pag.nodeLoc c.src).bind fun l => pag.locations[l]?.bind (·.var)

/-- The node of the variable passed at position `index` of a call. -/
def argNode (pag : Pag P) (site : P.Site) (index : ℕ) : Option NodeId :=
  (P.actualAt site index).bind pag.varNode

/-- The object behind an address argument, and a pointer argument's own node. -/
def modelCopySide (pag : Pag P) (node : NodeId) : NodeId :=
  ((pag.addressedVar node).bind pag.varNode).getD node

def allocNode (kind : PagNodeKind P) (pag : Pag P) : Pag P :=
  { pag with nodes := pag.nodes ++ [kind] }

/-- A new location, whose id is the number of those before it, and its node. -/
def allocLoc (loc : AbstractLocation P) (pag : Pag P) : Pag P :=
  { pag with
    nodes := pag.nodes ++ [.loc pag.locations.length]
    locNode := update pag.locNode pag.locations.length (some pag.nodes.length)
    locations := pag.locations ++ [loc] }

def addConstraint (c : Constraint P) (pag : Pag P) : Pag P :=
  { pag with constraints := pag.constraints ++ [c] }

def addCopy (dst src : NodeId) (pag : Pag P) : Pag P :=
  pag.addConstraint { kind := .copy, dst, src }

/-- `dst` is assigned the address of the location `loc`. -/
def addAddrOf (dst : NodeId) (loc : LocId) (pag : Pag P) : Pag P :=
  match pag.locNode loc with
  | some src => pag.addConstraint { kind := .addrOf, dst, src }
  | none => pag

def setLocationTarget (loc : LocId) (target : Option P.Target) (pag : Pag P) : Pag P :=
  match target with
  | some t => { pag with locationTargets := update pag.locationTargets loc (some t) }
  | none => pag

def varNodeId (v : P.Var) (pag : Pag P) : NodeId × Pag P :=
  match pag.varNode v with
  | some node => (node, pag)
  | none =>
    (pag.nodes.length, { pag.allocNode (.var v) with
        varNode := update pag.varNode v (some pag.nodes.length) })

/-- A location for a variable without one. -/
def allocVarLoc (v : P.Var) (pag : Pag P) : Pag P :=
  let loc := pag.locations.length
  let pag := (pag.allocLoc
    { kind := (P.storage v).locKind, var := some v, fnId := P.varFn v, field := none,
      typeId := P.varType v,
      desc := P.varName v }).setLocationTarget loc (P.varTarget v)
  { pag with varLocation := update pag.varLocation v (some loc) }

/-- The variable's location, created on first use along with its node. -/
def ensureVarLoc (v : P.Var) (pag : Pag P) : LocId × Pag P :=
  match pag.varLocation v with
  | some loc => (loc, pag)
  | none =>
    let pag := (pag.varNodeId v).2
    (pag.locations.length, pag.allocVarLoc v)

/-- Fresh anonymous storage. -/
def allocHeapLoc (desc : String) (pag : Pag P) : Pag P :=
  pag.allocLoc
    { kind := .heap, var := none, fnId := none, field := none, typeId := P.unknownType, desc }

/-- A cell for a field of `parent`, in the parent's storage. -/
def allocFieldLoc (parent : LocId) (field : P.Field) (fieldType : P.Ty) (name : String)
    (pag : Pag P) : LocId × Pag P :=
  match pag.fieldLoc (parent, field) with
  | some loc => (loc, pag)
  | none =>
    let loc := pag.locations.length
    let owner := pag.locations[parent]?
    let grown := (pag.allocLoc
      { kind := .field, var := owner.bind (·.var), fnId := owner.bind (·.fnId), field := some field,
        typeId := fieldType, desc := name }).setLocationTarget loc (pag.locationTargets parent)
    (loc, { grown with
        fieldDepth := update pag.fieldDepth loc (pag.fieldDepth parent + 1)
        fieldLoc := update pag.fieldLoc (parent, field) (some loc) })

/-- The location that stands for a field of every instance of a struct type in a link image. -/
def ensureFieldSummaryLoc (structType : P.Ty) (target : Option P.Target) (field : P.Field)
    (fieldType : P.Ty) (name : String) (pag : Pag P) : LocId × Pag P :=
  let key := (target, P.declaredMember structType field)
  match pag.fieldSummary key with
  | some loc => (loc, pag)
  | none =>
    let loc := pag.locations.length
    let grown := (pag.allocLoc
      { kind := .fieldSummary, var := none, fnId := none, field := some key.2.2,
        typeId := fieldType,
        desc := "summary:" ++ P.structName key.2.1 ++ "." ++ name }).setLocationTarget loc target
    (loc, { grown with fieldSummary := update pag.fieldSummary key (some loc) })

/-- The cell for a field of `parent`. Below the cap on nesting it is the parent's own, kept
together with its summary; past the cap it is the summary alone. -/
def ensureFieldLoc (parent : LocId) (field : P.Field) (pag : Pag P) : Option LocId × Pag P :=
  match pag.fieldLoc (parent, field) with
  | some loc => (some loc, pag)
  | none =>
    match pag.structTypeForLoc parent with
    | none => (none, pag)
    | some parentType =>
      match P.layout parentType field with
      | none => (none, pag)
      | some member =>
        let target := pag.locationTargets parent
        if fieldLocDepthCap ≤ pag.fieldDepth parent then
          let (summary, pag) :=
            pag.ensureFieldSummaryLoc parentType target field member.typeId member.name
          (some summary, pag)
        else
          let (loc, pag) := pag.allocFieldLoc parent field member.typeId member.name
          let (summary, pag) :=
            pag.ensureFieldSummaryLoc parentType target field member.typeId member.name
          (some loc, { pag with
              fieldLocToSummary := update pag.fieldLocToSummary loc (some summary) })

/-- The summary of a field of a variable's struct type. A name that the layout has at another
position than `field` decides, where one is expected. -/
def ensureFieldSummaryForVarNamed (v : P.Var) (field : P.Field) (expected : Option String)
    (pag : Pag P) : Option LocId × Pag P :=
  match P.structTypeFromTypeId (P.varType v) with
  | none => (none, pag)
  | some structType =>
    let positional := P.layout structType field
    let byName := expected.bind fun name =>
      if name = "" ∨ positional.map (·.name) = some name then none
      else P.fieldIdByName structType name
    let resolved := byName.getD field
    match P.layout structType resolved with
    | none => (none, pag)
    | some member =>
      let (summary, pag) :=
        pag.ensureFieldSummaryLoc structType (P.varTarget v) resolved member.typeId member.name
      (some summary, pag)

/-- The summary a field access falls back to. Names are looked up only once layouts of several
configurations have been merged. -/
def ensureFallbackSummary (v : P.Var) (access : FieldAccess P) (pag : Pag P) :
    Option LocId × Pag P :=
  pag.ensureFieldSummaryForVarNamed v access.field
    (if P.layoutsUnioned then some access.fieldName else none)

end Pag
end Pathologist.PointsTo

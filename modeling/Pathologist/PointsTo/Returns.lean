import Pathologist.PointsTo.Pag

/-!
# Return values

What a callee returns, as constraints into the destination of a call. A callee that returns
the result of another call is followed, each function once; a name none of whose candidates
returns anything falls back to its model.
-/
namespace Pathologist.PointsTo
variable {P : Program}

namespace Pag

/-- One effect of the model of a callee without a body on the destination of a call. -/
def applyReturnEffect (dst : NodeId) (model : String) (params : Option (List P.Var)) (pag : Pag P) :
    Effect → Pag P
  | .returnAlias param =>
    match params.bind (·[param]?) with
    | some formal =>
      let (src, pag) := pag.varNodeId formal
      pag.addCopy dst src
    | none => pag
  | .returnHeap =>
    let loc := pag.locations.length
    let grown := pag.allocHeapLoc (model ++ "() storage")
    (grown.setLocationTarget loc (grown.nodeTarget dst)).addAddrOf dst loc
  | _ => pag

def applyReturnModel (dst : NodeId) (model : String × List Effect) (params : Option (List P.Var))
    (pag : Pag P) : Pag P :=
  model.2.foldl (applyReturnEffect dst model.1 params) pag

end Pag

/-- A name whose model was applied for want of a return: its candidates, and the functions that
had been expanded when the name was met. -/
structure ModelUse (P : Program) where
  candidates : List P.Fn
  visited : List P.Fn

/-- The graph together with the functions whose returns have been expanded into it. The uses of
models are noted beside the expansion, which never reads them. -/
structure Expansion (P : Program) where
  visited : List P.Fn
  pag : Pag P
  modelUses : List (ModelUse P) := []

/-- The parameters of the first candidate that has any. -/
def firstParams (P : Program) (candidates : List P.Fn) : Option (List P.Var) :=
  (candidates.find? fun c => !(P.params c).isEmpty).map P.params

namespace Expansion

/-- Expand each of `items` in turn; the result says whether one of them applied. -/
def all {α : Type} (expand : α → Expansion P → Bool × Expansion P) (items : List α)
    (e : Expansion P) : Bool × Expansion P :=
  items.foldl (fun acc item => let r := expand item acc.2; (acc.1 || r.1, r.2)) (false, e)

/-- One return of `callee` into `dst`, with `expand` for the callees whose result it returns. -/
def returnFlow (expand : P.Fn → Expansion P → Bool × Expansion P) (dst : NodeId) (callee : P.Fn) :
    ReturnFlow P.Var P.Fn → Expansion P → Bool × Expansion P
  | .addrOfVar src, e =>
    let (loc, pag) := e.pag.ensureVarLoc src
    (true, { e with pag := pag.addAddrOf dst loc })
  | .addrOfFn f, e =>
    match e.pag.fnLocations f with
    | some loc => (true, { e with pag := e.pag.addAddrOf dst loc })
    | none => (false, e)
  | .copy src, e =>
    let (node, pag) := e.pag.varNodeId src
    (true, { e with pag := pag.addCopy dst node })
  | .call name, e =>
    let candidates := P.returnFlowCandidates callee name
    let r := all expand candidates e
    if r.1 then r
    else
      match P.returnModel name with
      | some model =>
        (true, { r.2 with
          pag := r.2.pag.applyReturnModel dst model (firstParams P candidates)
          modelUses := r.2.modelUses ++ [⟨candidates, e.visited⟩] })
      | none => (false, r.2)

/-- The returns of `callee` into `dst`. A call chain visits each function at most once, so the
number of functions bounds its depth. -/
def returnFlows : ℕ → NodeId → P.Fn → Expansion P → Bool × Expansion P
  | 0, _, _, e => (false, e)
  | fuel + 1, dst, callee, e =>
    if callee ∈ e.visited then (false, e)
    else
      let e := { e with visited := callee :: e.visited }
      match P.fnReturns callee with
      | some flows => all (returnFlow (returnFlows fuel dst) dst callee) flows e
      | none => (false, e)

end Expansion

/-- Whether `callee` has real return facts for `dst`, which are added. -/
def expandReturnFlows (dst : NodeId) (callee : P.Fn) (e : Expansion P) : Bool × Expansion P :=
  e.returnFlows (P.functions.length + 1) dst callee

end Pathologist.PointsTo

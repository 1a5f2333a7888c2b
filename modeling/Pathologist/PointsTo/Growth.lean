import Pathologist.Lib.Fold
import Pathologist.PointsTo.Returns

/-!
# How the graph grows while it is solved

The solver only adds to the graph: nodes, locations that are neither functions nor strings, and
constraints that are copies, addresses or stores. `Extends` says so for a later graph, and
`Valid` that ids stay within the tables they index and that every cell made for a field can be
found under its parent or its type.
-/
open List
namespace Pathologist.PointsTo
variable {P : Program}

namespace Pag
variable (p : Pag P)

/-- The graph `q` is a later stage of the graph `p`. -/
structure Extends (p q : Pag P) : Prop where
  nodes : p.nodes <+: q.nodes
  locations : p.locations <+: q.locations
  constraints : p.constraints <+: q.constraints
  added :
      ∀ c ∈ q.constraints, c ∈ p.constraints ∨ c.kind = .copy ∨ c.kind = .addrOf ∨ c.kind = .store
  varNode : ∀ {v n}, p.varNode v = some n → q.varNode v = some n
  varLocation : ∀ {v l}, p.varLocation v = some l → q.varLocation v = some l
  fnLocations : q.fnLocations = p.fnLocations
  arrayFnMembers : q.arrayFnMembers = p.arrayFnMembers
  indirectReturnDst : q.indirectReturnDst = p.indirectReturnDst
  indirectByTarget : q.indirectByTarget = p.indirectByTarget
  fnForLoc : ∀ l, q.fnForLoc l = p.fnForLoc l
  isStringLit : ∀ l, q.isStringLit l = p.isStringLit l

namespace Extends
variable {p q r : Pag P}

@[refl] lemma refl (p : Pag P) : Extends p p where
  nodes := prefix_refl _
  locations := prefix_refl _
  constraints := prefix_refl _
  added := fun _ hc => .inl hc
  varNode := id
  varLocation := id
  fnLocations := rfl
  arrayFnMembers := rfl
  indirectReturnDst := rfl
  indirectByTarget := rfl
  fnForLoc := fun _ => rfl
  isStringLit := fun _ => rfl

lemma trans (h₁ : Extends p q) (h₂ : Extends q r) : Extends p r where
  nodes := h₁.nodes.trans h₂.nodes
  locations := h₁.locations.trans h₂.locations
  constraints := h₁.constraints.trans h₂.constraints
  added := fun c hc => (h₂.added c hc).elim (h₁.added c) .inr
  varNode := fun h => h₂.varNode (h₁.varNode h)
  varLocation := fun h => h₂.varLocation (h₁.varLocation h)
  fnLocations := h₂.fnLocations.trans h₁.fnLocations
  arrayFnMembers := h₂.arrayFnMembers.trans h₁.arrayFnMembers
  indirectReturnDst := h₂.indirectReturnDst.trans h₁.indirectReturnDst
  indirectByTarget := h₂.indirectByTarget.trans h₁.indirectByTarget
  fnForLoc := fun l => (h₂.fnForLoc l).trans (h₁.fnForLoc l)
  isStringLit := fun l => (h₂.isStringLit l).trans (h₁.isStringLit l)

section
variable (h : Extends p q)
include h

lemma mem_constraints {c} (hc : c ∈ p.constraints) : c ∈ q.constraints := h.constraints.subset hc

lemma isCell (l : LocId) : q.isCell l = p.isCell l := by
  simp [Pag.isCell, h.fnForLoc, h.isStringLit]

lemma locations_length_le : p.locations.length ≤ q.locations.length :=
  h.locations.length_le

lemma nodeVar {n : NodeId} {v : P.Var} (hn : p.nodeVar n = some v) : q.nodeVar n = some v := by
  obtain ⟨rest, hr⟩ := h.nodes
  unfold Pag.nodeVar at hn ⊢
  rw [← hr, getElem?_append]
  split_ifs with hlt
  · exact hn
  · rw [getElem?_eq_none (not_lt.mp hlt)] at hn
    exact absurd hn (by simp)

/-- A location that a store of a node writes stays the one. -/
lemma selfLoc {n : NodeId} {l : LocId} (hl : p.selfLoc n = some l) : q.selfLoc n = some l := by
  unfold Pag.selfLoc at hl ⊢
  obtain ⟨v, hv, hvl⟩ := Option.bind_eq_some_iff.mp hl
  rw [h.nodeVar hv, Option.bind_some]
  split_ifs at hvl ⊢ with hp
  exact h.varLocation hvl

lemma isLoadSrc (n : NodeId) : q.isLoadSrc n = p.isLoadSrc n := by
  have hiff : q.isLoadSrc n = true ↔ p.isLoadSrc n = true := by
    simp only [Pag.isLoadSrc, any_eq_true, decide_eq_true_eq]
    constructor
    · rintro ⟨c, hc, hk, hn⟩
      rcases h.added c hc with hold | hkind | hkind | hkind
      · exact ⟨c, hold, hk, hn⟩
      all_goals exact absurd (hkind.symm.trans hk) (by decide)
    · rintro ⟨c, hc, hk, hn⟩
      exact ⟨c, h.mem_constraints hc, hk, hn⟩
  exact Bool.eq_iff_iff.mpr hiff

end

/-- New tables of nodes and locations, with the constraints as they were. -/
lemma of_append (ns : List (PagNodeKind P)) (ls : List (AbstractLocation P))
    (hn : q.nodes = p.nodes ++ ns) (hl : q.locations = p.locations ++ ls)
    (hk : ∀ l ∈ ls, l.kind ≠ .function ∧ l.kind ≠ .stringLit) (hc : q.constraints = p.constraints)
    (hv : ∀ {v n}, p.varNode v = some n → q.varNode v = some n)
    (hvl : ∀ {v l}, p.varLocation v = some l → q.varLocation v = some l)
    (hf : q.fnLocations = p.fnLocations) (ha : q.arrayFnMembers = p.arrayFnMembers)
    (hi : q.indirectReturnDst = p.indirectReturnDst)
    (ht : q.indirectByTarget = p.indirectByTarget) : Extends p q where
  nodes := hn ▸ prefix_append _ _
  locations := hl ▸ prefix_append _ _
  constraints := hc ▸ prefix_refl _
  added := fun c h => .inl (hc ▸ h)
  varNode := hv
  varLocation := hvl
  fnLocations := hf
  arrayFnMembers := ha
  indirectReturnDst := hi
  indirectByTarget := ht
  fnForLoc := by
    intro l
    unfold Pag.fnForLoc
    rw [hl, getElem?_append]
    split_ifs with hlt
    · rfl
    rw [getElem?_eq_none (not_lt.mp hlt)]
    cases hloc : ls[l - p.locations.length]? with
    | none => rfl
    | some loc => simp [(hk loc (mem_of_getElem? hloc)).1]
  isStringLit := by
    intro l
    unfold Pag.isStringLit
    rw [hl, getElem?_append]
    split_ifs with hlt
    · rfl
    rw [getElem?_eq_none (not_lt.mp hlt)]
    cases hloc : ls[l - p.locations.length]? with
    | none => rfl
    | some loc =>
      have := (hk loc (mem_of_getElem? hloc)).2
      simpa using this

end Extends

lemma joins_iff {p : Pag P} {kind} {dst src : NodeId} :
    p.joins kind dst src ↔ ∃ c ∈ p.constraints, c.kind = kind ∧ c.dst = dst ∧ c.src = src := by
  simp [joins]

lemma Extends.joins {p q : Pag P} (h : p.Extends q) {kind} {dst src : NodeId}
    (hj : p.joins kind dst src) : q.joins kind dst src := by
  obtain ⟨c, hc, hr⟩ := joins_iff.mp hj
  exact joins_iff.mpr ⟨c, h.mem_constraints hc, hr⟩

lemma joins_addConstraint (c : Constraint P) : (p.addConstraint c).joins c.kind c.dst c.src :=
  joins_iff.mpr ⟨c, mem_append_right _ (mem_singleton_self c), rfl, rfl, rfl⟩

section Operations
variable (p : Pag P) (v : P.Var)

lemma extends_addConstraint {c} (hk : c.kind = .copy ∨ c.kind = .addrOf ∨ c.kind = .store) :
    Extends p (p.addConstraint c) where
  nodes := prefix_refl _
  locations := prefix_refl _
  constraints := prefix_append _ _
  added := by
    intro d hd
    rcases mem_append.mp hd with hd | hd
    · exact .inl hd
    · exact .inr (mem_singleton.mp hd ▸ hk)
  varNode := id
  varLocation := id
  fnLocations := rfl
  arrayFnMembers := rfl
  indirectReturnDst := rfl
  indirectByTarget := rfl
  fnForLoc := fun _ => rfl
  isStringLit := fun _ => rfl

lemma extends_addCopy (dst src : NodeId) : Extends p (p.addCopy dst src) :=
  p.extends_addConstraint (.inl rfl)

lemma extends_addAddrOf (dst : NodeId) (loc : LocId) : Extends p (p.addAddrOf dst loc) := by
  unfold addAddrOf
  split
  · exact p.extends_addConstraint (.inr (.inl rfl))
  · exact .refl p

lemma extends_setLocationTarget (loc : LocId) (target : Option P.Target) :
    Extends p (p.setLocationTarget loc target) := by
  unfold setLocationTarget
  split
  · exact .of_append [] [] (by simp) (by simp) (by simp) rfl id id rfl rfl rfl rfl
  · exact .refl p

lemma extends_allocLoc (loc : AbstractLocation P) (hf : loc.kind ≠ .function)
    (hs : loc.kind ≠ .stringLit) : Extends p (p.allocLoc loc) :=
  .of_append [.loc p.locations.length] [loc] rfl rfl (by simp [hf, hs]) rfl id id rfl rfl rfl rfl

lemma extends_varNodeId : Extends p (p.varNodeId v).2 := by
  unfold varNodeId
  split
  · exact .refl p
  next h =>
  refine .of_append [.var v] [] rfl (by simp [allocNode]) (by simp) rfl ?_ id rfl rfl rfl rfl
  intro w n hw
  have hne : w ≠ v := by
    rintro rfl
    simp [h] at hw
  simpa [hne] using hw

lemma locKind_ne (c : StorageClass) : c.locKind ≠ .function ∧ c.locKind ≠ .stringLit := by
  cases c <;> decide

lemma extends_allocVarLoc {v : P.Var} (hv : p.varLocation v = none) :
    Extends p (p.allocVarLoc v) := by
  have halloc := (p.extends_allocLoc ⟨(P.storage v).locKind, some v, P.varFn v, none, P.varType v,
    P.varName v⟩ (locKind_ne _).1 (locKind_ne _).2).trans
      (extends_setLocationTarget _ p.locations.length (P.varTarget v))
  refine halloc.trans
    (.of_append [] [] (by simp [allocVarLoc]) (by simp [allocVarLoc]) (by simp) rfl id ?_
      rfl rfl rfl rfl)
  intro w l hw
  have hne : w ≠ v := by
    rintro rfl
    have : (p.varLocation w) = some l := by
      unfold setLocationTarget at hw
      split at hw <;> exact hw
    simp [hv] at this
  simpa [allocVarLoc, hne] using hw

lemma extends_ensureVarLoc : Extends p (p.ensureVarLoc v).2 := by
  unfold ensureVarLoc
  split
  · exact .refl p
  next h =>
  have hnode := p.extends_varNodeId v
  refine hnode.trans (extends_allocVarLoc _ ?_)
  unfold varNodeId
  split <;> exact h

lemma extends_allocHeapLoc (desc : String) : Extends p (p.allocHeapLoc desc) :=
  p.extends_allocLoc _ (by simp) (by simp)

/-! The operations that add no constraint. -/

@[simp] lemma setLocationTarget_constraints (loc : LocId) (target : Option P.Target) :
    (p.setLocationTarget loc target).constraints = p.constraints := by
  unfold setLocationTarget
  split <;> rfl

@[simp] lemma allocLoc_constraints (loc : AbstractLocation P) :
    (p.allocLoc loc).constraints = p.constraints := rfl

@[simp] lemma varNodeId_constraints : (p.varNodeId v).2.constraints = p.constraints := by
  unfold varNodeId
  split <;> rfl

@[simp] lemma allocVarLoc_constraints : (p.allocVarLoc v).constraints = p.constraints := by
  simp [allocVarLoc]

@[simp] lemma ensureVarLoc_constraints : (p.ensureVarLoc v).2.constraints = p.constraints := by
  unfold ensureVarLoc
  split <;> simp

@[simp] lemma allocFieldLoc_constraints (parent : LocId) (field : P.Field) (ty : P.Ty)
    (name : String) : (p.allocFieldLoc parent field ty name).2.constraints = p.constraints := by
  unfold allocFieldLoc
  split <;> simp

@[simp] lemma ensureFieldSummaryLoc_constraints (structType : P.Ty) (target : Option P.Target)
    (field : P.Field) (ty : P.Ty) (name : String) :
    (p.ensureFieldSummaryLoc structType target field ty name).2.constraints = p.constraints := by
  unfold ensureFieldSummaryLoc
  dsimp only
  split <;> simp

@[simp] lemma ensureFieldLoc_constraints (parent : LocId) (field : P.Field) :
    (p.ensureFieldLoc parent field).2.constraints = p.constraints := by
  unfold ensureFieldLoc
  split
  · rfl
  split
  · rfl
  · split
    · rfl
    · split_ifs <;> simp

@[simp] lemma ensureFallbackSummary_constraints (access : FieldAccess P) :
    (p.ensureFallbackSummary v access).2.constraints = p.constraints := by
  unfold ensureFallbackSummary ensureFieldSummaryForVarNamed
  split
  · rfl
  · dsimp only
    split <;> simp

end Operations

/-! ### Fields

Cells for fields are all that the graph gains, copies apart, from a step that takes up no new
callee. -/

/-- The number of locations that are no cells of fields. -/
def rootCount (p : Pag P) : ℕ :=
  p.locations.countP fun l => l.kind ≠ .field ∧ l.kind ≠ .fieldSummary

/-- The later graph `q` has more cells of fields and more constraints, and nothing else. -/
structure Refines (p q : Pag P) : Prop extends Extends p q where
  selfLoc_eq : ∀ n, q.selfLoc n = p.selfLoc n
  rootCount_eq : q.rootCount = p.rootCount
  nodes_locations : q.nodes.length + p.locations.length = p.nodes.length + q.locations.length

namespace Refines
variable {p q r : Pag P}

@[refl] lemma refl (p : Pag P) : Refines p p where
  toExtends := .refl p
  selfLoc_eq := fun _ => rfl
  rootCount_eq := rfl
  nodes_locations := rfl

lemma trans (h₁ : Refines p q) (h₂ : Refines q r) : Refines p r where
  toExtends := h₁.toExtends.trans h₂.toExtends
  selfLoc_eq := fun n => (h₂.selfLoc_eq n).trans (h₁.selfLoc_eq n)
  rootCount_eq := h₂.rootCount_eq.trans h₁.rootCount_eq
  nodes_locations := by
    have := h₁.nodes_locations
    have := h₂.nodes_locations
    omega

end Refines

lemma refines_addCopy (dst src : NodeId) : Refines p (p.addCopy dst src) where
  toExtends := p.extends_addCopy dst src
  selfLoc_eq := fun _ => rfl
  rootCount_eq := rfl
  nodes_locations := rfl

lemma refines_setLocationTarget (loc : LocId) (target : Option P.Target) :
    Refines p (p.setLocationTarget loc target) := by
  refine ⟨p.extends_setLocationTarget loc target, ?_, ?_, ?_⟩
  all_goals
    unfold setLocationTarget
    split
  all_goals first | rfl | exact fun _ => rfl

/-- A cell for a field is a location without a variable's node. -/
lemma refines_allocLoc {loc} (hk : loc.kind = .field ∨ loc.kind = .fieldSummary) :
    Refines p (p.allocLoc loc) where
  toExtends := p.extends_allocLoc _ (by rcases hk with h | h <;> simp [h])
    (by rcases hk with h | h <;> simp [h])
  selfLoc_eq := by
    intro n
    have hvar : (p.allocLoc loc).nodeVar n = p.nodeVar n := by
      unfold nodeVar allocLoc
      rw [getElem?_append]
      split_ifs with hlt
      · rfl
      rw [getElem?_eq_none (not_lt.mp hlt)]
      cases h :
        ([PagNodeKind.loc p.locations.length] : List (PagNodeKind P))[n - p.nodes.length]? with
      | none => rfl
      | some k =>
        have := mem_of_getElem? h
        simp only [mem_singleton] at this
        rw [this]
    unfold selfLoc
    rw [hvar]
    rfl
  rootCount_eq := by
    unfold rootCount allocLoc
    rcases hk with h | h <;> simp [h]
  nodes_locations := by
    simp only [allocLoc, length_append, length_singleton]
    omega

lemma refines_allocFieldLoc (parent : LocId) (field : P.Field) (ty : P.Ty) (name : String) :
    Refines p (p.allocFieldLoc parent field ty name).2 := by
  unfold allocFieldLoc
  split
  · exact .refl p
  · exact (((p.refines_allocLoc (.inl rfl)).trans (refines_setLocationTarget _ _ _)).trans
      ⟨.of_append [] [] (by simp) (by simp) (by simp) rfl id id rfl rfl rfl rfl,
        fun _ => rfl, rfl, rfl⟩)

lemma refines_ensureFieldSummaryLoc (structType : P.Ty) (target : Option P.Target) (field : P.Field)
    (ty : P.Ty) (name : String) :
    Refines p (p.ensureFieldSummaryLoc structType target field ty name).2 := by
  unfold ensureFieldSummaryLoc
  dsimp only
  split
  · exact .refl p
  · exact (((p.refines_allocLoc (.inr rfl)).trans (refines_setLocationTarget _ _ _)).trans
      ⟨.of_append [] [] (by simp) (by simp) (by simp) rfl id id rfl rfl rfl rfl,
        fun _ => rfl, rfl, rfl⟩)

lemma refines_ensureFieldLoc (parent : LocId) (field : P.Field) :
    Refines p (p.ensureFieldLoc parent field).2 := by
  unfold ensureFieldLoc
  split
  · exact .refl p
  split
  · exact .refl p
  split
  · exact .refl p
  split_ifs
  · exact p.refines_ensureFieldSummaryLoc _ _ _ _ _
  exact ((p.refines_allocFieldLoc _ _ _ _).trans (refines_ensureFieldSummaryLoc _ _ _ _ _ _)).trans
      ⟨.of_append [] [] (by simp) (by simp) (by simp) rfl id id rfl rfl rfl rfl,
        fun _ => rfl, rfl, rfl⟩

lemma refines_ensureFallbackSummary (v : P.Var) (access : FieldAccess P) :
    Refines p (p.ensureFallbackSummary v access).2 := by
  unfold ensureFallbackSummary ensureFieldSummaryForVarNamed
  split
  · exact .refl p
  dsimp only
  split
  · exact .refl p
  · exact p.refines_ensureFieldSummaryLoc _ _ _ _ _

/-- The later graph `q` has gained no constraints but copies and addresses. -/
structure Receives (p q : Pag P) : Prop extends Extends p q where
  received : ∀ c ∈ q.constraints, c ∈ p.constraints ∨ c.kind = .copy ∨ c.kind = .addrOf

namespace Receives
variable {p q r : Pag P}

@[refl] lemma refl (p : Pag P) : Receives p p := ⟨.refl p, fun _ => .inl⟩

lemma trans (h₁ : Receives p q) (h₂ : Receives q r) : Receives p r :=
  ⟨h₁.toExtends.trans h₂.toExtends, fun c hc => (h₂.received c hc).elim (h₁.received c) .inr⟩

lemma of_constraints (h : Extends p q) (hc : q.constraints = p.constraints) : Receives p q :=
  ⟨h, fun _ h => .inl (hc ▸ h)⟩

lemma addCopy (p : Pag P) (dst src : NodeId) : Receives p (p.addCopy dst src) := by
  refine ⟨p.extends_addCopy dst src, fun c hc => ?_⟩
  rcases mem_append.mp hc with hc | hc
  · exact .inl hc
  · exact .inr (.inl (mem_singleton.mp hc ▸ rfl))

lemma addAddrOf (p : Pag P) (dst : NodeId) (loc : LocId) : Receives p (p.addAddrOf dst loc) := by
  refine ⟨p.extends_addAddrOf dst loc, fun c hc => ?_⟩
  unfold Pag.addAddrOf at hc
  split at hc
  · rcases mem_append.mp hc with hc | hc
    · exact .inl hc
    · exact .inr (.inr (mem_singleton.mp hc ▸ rfl))
  · exact .inl hc

lemma varNodeId (p : Pag P) (v : P.Var) : Receives p (p.varNodeId v).2 :=
  of_constraints (p.extends_varNodeId v) (by simp)

lemma applyReturnEffect (dst : NodeId) (model : String) (params : Option (List P.Var)) (p : Pag P)
    (e : Effect) : Receives p (p.applyReturnEffect dst model params e) := by
  unfold Pag.applyReturnEffect
  split
  · split
    · exact (varNodeId p _).trans (addCopy _ _ _)
    · exact .refl p
  · have hheap := (p.extends_allocHeapLoc (model ++ "() storage")).trans
      (extends_setLocationTarget _ p.locations.length
        ((p.allocHeapLoc (model ++ "() storage")).nodeTarget dst))
    exact (of_constraints hheap (by simp [allocHeapLoc])).trans (addAddrOf _ _ _)
  · exact .refl p

lemma applyReturnModel (dst : NodeId) (model : String × List Effect) (params : Option (List P.Var))
    (p : Pag P) : Receives p (p.applyReturnModel dst model params) :=
  Lib.Fold.foldl_rel (R := Receives) trans model.2 (.refl p) fun q _ e _ =>
    applyReturnEffect dst model.1 params q e

end Receives
end Pag

namespace Expansion

lemma receives_all {α : Type} {expand}
    (he : ∀ a (e : Expansion P), e.pag.Receives (expand a e).2.pag) (items : List α)
    (e : Expansion P) : e.pag.Receives (all expand items e).2.pag := by
  have h := Lib.Fold.foldl_rel (R := fun a b : Bool × Expansion P => a.2.pag.Receives b.2.pag)
    Pag.Receives.trans (f := fun acc item => let r := expand item acc.2; (acc.1 || r.1, r.2))
    items (s := (false, e)) (.refl _) fun a _ item _ => he item a.2
  exact h

lemma receives_returnFlow {expand} (he : ∀ f (e : Expansion P), e.pag.Receives (expand f e).2.pag)
    (dst : NodeId) (callee : P.Fn) (flow : ReturnFlow P.Var P.Fn) (e : Expansion P) :
    e.pag.Receives (returnFlow expand dst callee flow e).2.pag := by
  cases flow with
  | addrOfVar src =>
    exact (Pag.Receives.of_constraints (e.pag.extends_ensureVarLoc src) (by simp)).trans
      (Pag.Receives.addAddrOf _ _ _)
  | addrOfFn f =>
    simp only [returnFlow]
    split
    · exact Pag.Receives.addAddrOf _ _ _
    · exact .refl _
  | copy src => exact (Pag.Receives.varNodeId e.pag src).trans (Pag.Receives.addCopy _ _ _)
  | call name =>
    have hall := receives_all he (P.returnFlowCandidates callee name) e
    simp only [returnFlow]
    split_ifs
    · exact hall
    · split
      · exact hall.trans (Pag.Receives.applyReturnModel _ _ _ _)
      · exact hall

lemma receives_returnFlows (fuel : ℕ) (dst : NodeId) (callee : P.Fn) (e : Expansion P) :
    e.pag.Receives (returnFlows fuel dst callee e).2.pag := by
  induction fuel generalizing callee e with
  | zero => exact .refl _
  | succ fuel ih =>
    unfold returnFlows
    split_ifs
    · exact .refl _
    split
    · next flows _ =>
      exact receives_all (fun flow e => receives_returnFlow ih dst callee flow e) flows
        { e with visited := callee :: e.visited }
    · exact .refl _

end Expansion

lemma receives_expandReturnFlows (dst : NodeId) (callee : P.Fn) (e : Expansion P) :
    e.pag.Receives (expandReturnFlows dst callee e).2.pag :=
  Expansion.receives_returnFlows _ dst callee e

end Pathologist.PointsTo

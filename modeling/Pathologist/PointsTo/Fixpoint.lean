import Mathlib.Data.Fintype.EquivFin
import Pathologist.PointsTo.Run

/-!
# Converged solves

What a solve that drains its worklist has established of its constraints. Copies, stores and
field accesses are complete except where a step added to the graph behind a node that had
settled; those occasions are the lapses of the run.
-/
namespace Pathologist.PointsTo
open Lib.Fold

namespace Pag
variable {P : Program}

/-- The nodes of variables stay. -/
def KeepsNodes (p q : Pag P) : Prop := ∀ v n, p.varNode v = some n → q.varNode v = some n

lemma KeepsNodes.refl (p : Pag P) : KeepsNodes p p := fun _ _ => id

lemma KeepsNodes.trans {p q r : Pag P} (h₁ : KeepsNodes p q) (h₂ : KeepsNodes q r) :
    KeepsNodes p r := fun v n h => h₂ v n (h₁ v n h)

lemma Extends.keepsNodes {p q : Pag P} (h : p.Extends q) : KeepsNodes p q := fun _ _ => h.varNode

/-- Tables other than that of the variables' nodes do not matter. -/
lemma KeepsNodes.of_eq {p q : Pag P} (h : q.varNode = p.varNode) : KeepsNodes p q :=
  fun v n hv => by rw [h]; exact hv

section Build
variable (p : Pag P)

@[simp] lemma setLocationTarget_varNode (loc : LocId) (target : Option P.Target) :
    (p.setLocationTarget loc target).varNode = p.varNode := by
  unfold setLocationTarget
  split <;> rfl

@[simp] lemma allocVarLoc_varNode (v : P.Var) : (p.allocVarLoc v).varNode = p.varNode := by
  simp [allocVarLoc, allocLoc]

lemma keepsNodes_addBetween (kind : ConstraintKind) (dst src : P.Var)
    (fieldInfo : Option (FieldAccess P)) : KeepsNodes p (p.addBetween kind dst src fieldInfo) :=
  ((p.extends_varNodeId dst).keepsNodes.trans (extends_varNodeId _ src).keepsNodes).trans
    (.of_eq rfl)

lemma keepsNodes_expandCandidates (dst : NodeId) (candidates : List P.Fn)
    (model : Option (String × List Effect)) (params : Option (List P.Var)) :
    KeepsNodes p (p.expandCandidates dst candidates model params).pag := by
  have hall := (Expansion.receives_all (fun f e => receives_expandReturnFlows dst f e) candidates
    { visited := [], pag := p }).toExtends.keepsNodes
  unfold expandCandidates
  dsimp only
  split_ifs
  · exact hall
  · split
    · exact hall.trans (Receives.applyReturnModel dst _ _ _).toExtends.keepsNodes
    · exact hall

lemma keepsNodes_buildVariable (v : P.Var) : KeepsNodes p (p.buildVariable v) := by
  unfold buildVariable
  split_ifs
  · exact .refl p
  · exact (p.extends_varNodeId v).keepsNodes.trans (.of_eq (allocVarLoc_varNode _ v))
  · exact (p.extends_varNodeId v).keepsNodes

lemma keepsNodes_buildFunctionLocation (f : P.Fn) : KeepsNodes p (p.buildFunctionLocation f) := by
  unfold buildFunctionLocation
  split
  · exact .refl p
  · exact .of_eq (by simp [allocLoc])

lemma keepsNodes_addAddrOf (dst : NodeId) (loc : LocId) : KeepsNodes p (p.addAddrOf dst loc) :=
  (p.extends_addAddrOf dst loc).keepsNodes

lemma keepsNodes_nullNodeId : KeepsNodes p p.nullNodeId.2 := by
  unfold nullNodeId
  split <;> exact .of_eq rfl

lemma keepsNodes_internStringLoc (value : String) : KeepsNodes p (p.internStringLoc value).2 := by
  unfold internStringLoc
  split <;> exact .of_eq rfl

lemma keepsNodes_allocLoc (l : AbstractLocation P) (loc : LocId) (target : Option P.Target) :
    KeepsNodes p ((p.allocLoc l).setLocationTarget loc target) := .of_eq (by simp [allocLoc])

lemma keepsNodes_buildFlowConstraint (c : FlowConstraint P.Var P.Fn P.Field) :
    KeepsNodes p (p.buildFlowConstraint c) := by
  cases c with
  | copy dst src | load dst src | store dst src | gepField dst base field name =>
    exact p.keepsNodes_addBetween _ _ _ _
  | addrOfVar dst src =>
    exact ((p.extends_varNodeId dst).trans (extends_ensureVarLoc _ src)).keepsNodes.trans
      (keepsNodes_addAddrOf _ _ _)
  | addrOfFn dst callee =>
    refine (p.extends_varNodeId dst).keepsNodes.trans ?_
    simp only [buildFlowConstraint]
    split
    · exact keepsNodes_addAddrOf _ _ _
    · exact .refl _
  | arrayFnMember array callee =>
    refine (p.extends_varNodeId array).keepsNodes.trans ?_
    simp only [buildFlowConstraint]
    split
    · exact (keepsNodes_addAddrOf _ _ _).trans (.of_eq rfl)
    · exact .refl _
  | callReturn dst calleeName caller =>
    exact (p.extends_varNodeId dst).keepsNodes.trans (keepsNodes_expandCandidates _ _ _ _ _)
  | callReturnResolved dst callee =>
    have hreceive := receives_expandReturnFlows (p.varNodeId dst).1 callee
      { visited := [], pag := (p.varNodeId dst).2 }
    exact (p.extends_varNodeId dst).keepsNodes.trans hreceive.toExtends.keepsNodes
  | callReturnIndirect dst calleeVar =>
    refine (p.extends_varNodeId dst).keepsNodes.trans ?_
    simp only [buildFlowConstraint]
    split_ifs
    · exact .refl _
    · exact .of_eq rfl
  | newHeap dst =>
    exact ((p.extends_varNodeId dst).keepsNodes.trans (keepsNodes_allocLoc _ _ _ _)).trans
      (keepsNodes_addAddrOf _ _ _)
  | nullPointer dst =>
    have htemps : KeepsNodes (p.varNodeId dst).2 (if P.varIsTemp dst then
        { (p.varNodeId dst).2 with
          nullTemps := (p.varNodeId dst).2.nullTemps ++ [(p.varNodeId dst).1] }
        else (p.varNodeId dst).2) := by
      split_ifs <;> exact .of_eq rfl
    exact (((p.extends_varNodeId dst).keepsNodes.trans htemps).trans
      (keepsNodes_nullNodeId _)).trans (.of_eq rfl)
  | stringConst dst value =>
    exact ((p.extends_varNodeId dst).keepsNodes.trans (keepsNodes_internStringLoc _ value)).trans
      (keepsNodes_addAddrOf _ _ _)
  | unwrapPointer dst src => exact p.keepsNodes_addBetween _ _ _ _

lemma keepsNodes_expandCall (sites : List P.Site) : KeepsNodes p (p.expandCall sites) := by
  unfold expandCall
  split
  · exact .refl p
  · exact (p.extends_varNodeId _).keepsNodes.trans (keepsNodes_expandCandidates _ _ _ _ _)

lemma keepsNodes_buildDlsymConstraint (site : P.Site) :
    KeepsNodes p (p.buildDlsymConstraint site) := by
  unfold buildDlsymConstraint
  dsimp only
  split
  · exact p.keepsNodes_addBetween _ _ _ _
  · exact .refl p

lemma keepsNodes_callTargetNode (site : P.Site) : KeepsNodes p (p.callTargetNode site).2 := by
  unfold callTargetNode
  split <;> exact .of_eq rfl

lemma keepsNodes_buildCallConstraint (site : P.Site) :
    KeepsNodes p (p.buildCallConstraint site) := by
  have htarget := p.keepsNodes_callTargetNode site
  unfold buildCallConstraint
  split
  · exact .refl p
  split
  · exact (htarget.trans (extends_varNodeId _ _).keepsNodes).trans (.of_eq rfl)
  split
  · exact .refl p
  dsimp only
  split
  · next v _ =>
    have hstatic :
        KeepsNodes (p.callTargetNode site).2 ((p.callTargetNode site).2.ensureStaticVar v) := by
      unfold ensureStaticVar
      split_ifs
      · exact (extends_ensureVarLoc _ v).keepsNodes
      · exact .refl _
    exact ((htarget.trans hstatic).trans (extends_varNodeId _ v).keepsNodes).trans (.of_eq rfl)
  · exact htarget

lemma buildVariable_varNode {v : P.Var} (hv : P.isNamed v) :
    ∃ n, (p.buildVariable v).varNode v = some n := by
  have hnode : ∃ n, (p.varNodeId v).2.varNode v = some n := by
    unfold varNodeId
    split
    · next n h => exact ⟨n, h⟩
    · exact ⟨p.nodes.length, by simp⟩
  unfold buildVariable
  simp only [hv, Bool.not_true, Bool.and_false, Bool.false_eq_true, if_false]
  split_ifs
  · rwa [allocVarLoc_varNode]
  · exact hnode

end Build

/-- A variable that a fact, a return or a call names has a node. -/
lemma varNode_build {v : P.Var} (hv : P.isNamed v) : ∃ n, (build P).varNode v = some n := by
  have hvars := foldl_all (R := KeepsNodes) KeepsNodes.trans
    (Q := fun (w : P.Var) (q : Pag P) => P.isNamed w → ∃ n, q.varNode w = some n)
    (f := buildVariable) P.vars (.refl ({} : Pag P)) (fun q _ w _ => q.keepsNodes_buildVariable w)
    (fun q _ w _ hw => q.buildVariable_varNode hw)
    (fun w q r h hq hw => (hq hw).imp fun n hn => h w n hn) v (P.mem_vars v) hv
  have hfold : ∀ {α} {f : Pag P → α → Pag P}, (∀ q x, KeepsNodes q (f q x)) → ∀ (xs : List α) q,
      KeepsNodes q (xs.foldl f q) := fun h xs q =>
    foldl_rel (R := KeepsNodes) KeepsNodes.trans xs (.refl q) fun r _ x _ => h r x
  set p₁ := P.vars.foldl buildVariable ({} : Pag P)
  have hfns : KeepsNodes p₁ (P.functions.foldl buildFunctionLocation p₁) :=
    hfold keepsNodes_buildFunctionLocation _ p₁
  set p₂ := P.functions.foldl buildFunctionLocation p₁
  have hflow : KeepsNodes p₂ (P.flow.foldl buildFlowConstraint p₂) :=
    hfold keepsNodes_buildFlowConstraint _ p₂
  set p₃ := P.flow.foldl buildFlowConstraint p₂
  have hcalls : KeepsNodes p₃ ((calls P).foldl expandCall p₃) :=
    hfold keepsNodes_expandCall _ p₃
  set p₄ := (calls P).foldl expandCall p₃
  have hsyms : KeepsNodes p₄ (P.callSites.foldl buildDlsymConstraint p₄) :=
    hfold keepsNodes_buildDlsymConstraint _ p₄
  set p₅ := P.callSites.foldl buildDlsymConstraint p₄
  have htargets : KeepsNodes p₅ (P.callSites.foldl buildCallConstraint p₅) :=
    hfold keepsNodes_buildCallConstraint _ p₅
  obtain ⟨n, hn⟩ := hvars
  exact ⟨n, ((((hfns.trans hflow).trans hcalls).trans hsyms).trans htargets) v n hn⟩

/-- So an argument of a call keeps the node it has when the graph is built. -/
lemma argNode_eq {q : Pag P} (h : (build P).Extends q) (site : P.Site) (index : ℕ) :
    q.argNode site index = (build P).argNode site index := by
  unfold argNode
  cases hv : P.actualAt site index with
  | none => rfl
  | some v =>
    have hnamed : P.isNamed v := by
      obtain ⟨⟨i, w⟩, hf, rfl⟩ := Option.map_eq_some_iff.mp hv
      have hmem : (i, w) ∈ P.varArgs site := List.mem_of_find?_eq_some hf
      have harg : w ∈ (P.varArgs site).map Prod.snd := List.mem_map.mpr ⟨(i, w), hmem, rfl⟩
      unfold Program.isNamed
      simp only [Bool.or_eq_true]
      refine .inr (List.any_eq_true.mpr ⟨site, P.mem_callSites site, ?_⟩)
      simp only [Bool.or_eq_true, List.contains_iff_mem]
      exact .inr harg
    obtain ⟨n, hn⟩ := varNode_build hnamed
    simp [hn, h.varNode hn]

end Pag

/-- Names for the variables, the functions and the call sites of a small program. -/
inductive Label
  | a | b | c | d | e
  deriving DecidableEq

namespace Label

def rank : Label → ℕ
  | a => 0
  | b => 1
  | c => 2
  | d => 3
  | e => 4

lemma rank_injective : Function.Injective rank := by
  intro x y h
  cases x <;> cases y <;> first | rfl | cases h

instance : LinearOrder Label := LinearOrder.lift' rank rank_injective

def all : List Label := [a, b, c, d, e]

lemma mem_all (x : Label) : x ∈ all := by
  cases x <;> decide

end Label

/-- A program in one file and without types. Calls are made in the function `a`; those that are
given no callee do nothing. -/
structure Sketch where
  flow : List (FlowConstraint Label Label Unit) := []
  isPointer : Label → Bool := fun _ => true
  params : Label → List Label := fun _ => []
  returns : Label → Option (List (ReturnFlow Label Label)) := fun _ => none
  named : String → List Label := fun _ => []
  returnModel : String → Option (String × List Effect) := fun _ => none
  effects : Label → List Effect := fun _ => []
  invocations : Label → List Invoked := fun _ => []
  calleeVar : Label → Option Label := fun _ => none
  callees : Label → List Label := fun _ => []
  varArgs : Label → List (ℕ × Label) := fun _ => []

def Sketch.program (sketch : Sketch) : Program where
  Var := Label
  Fn := Label
  Ty := Unit
  Field := Unit
  Target := Unit
  Site := Label
  flow := sketch.flow
  vars := Label.all
  mem_vars := Label.mem_all
  varType := fun _ => ()
  varName := fun _ => ""
  storage := fun _ => .local
  varFn := fun _ => none
  varTarget := fun _ => none
  varIsTemp := fun _ => false
  varIsPointerLike := sketch.isPointer
  varMayHoldPointee := fun _ => true
  varIsArray := fun _ => false
  varIsValueOf := fun _ _ => none
  functions := Label.all
  mem_functions := Label.mem_all
  fnName := fun _ => ""
  returnType := fun _ => ()
  params := sketch.params
  isDefined := fun _ => true
  fnTarget := fun _ => none
  hasThisParam := fun _ => false
  explicitArity := fun _ => none
  defaultArgs := fun _ => 0
  variadic := fun _ => false
  isStaticMember := fun _ => false
  declaredInClass := fun _ => false
  hasTargetScopes := false
  candidates := fun _ _ => []
  functionsNamed := sketch.named
  fnReturns := sketch.returns
  returnFlowCandidates := fun _ => sketch.named
  callReturnCandidates := fun _ _ => sketch.named
  callSites := Label.all
  mem_callSites := Label.mem_all
  caller := fun _ => .a
  calleeName := fun _ => ""
  calleeFnId := fun _ => none
  isDirect := fun site => (sketch.calleeVar site).isNone
  unevaluated := fun _ => false
  varArgs := sketch.varArgs
  fnArgs := fun _ => []
  calleeVar := sketch.calleeVar
  returnDst := fun _ => none
  addrOfMemberArgs := fun _ => []
  argsBoundPastThis := fun _ => false
  hasReceiverClass := fun _ => false
  occurrence := fun _ => 0
  calleesOf := sketch.callees
  calleeNameIsAFunction := fun _ => false
  calleeNameVar := fun _ => none
  unknownType := ()
  charType := ()
  layoutsUnioned := false
  structTypeFromTypeId := fun _ => some ()
  structTypeOfLocType := fun _ => none
  structName := fun _ => ""
  layout := fun _ _ => some { typeId := (), name := "" }
  fieldIdByName := fun _ _ => none
  tagIdentity := id
  fnPtrArity := fun _ => none
  slotGuardFor := fun _ => none
  objectTypeIsPointee := fun _ _ => false
  unwrapPointee := fun _ => ()
  argEffects := sketch.effects
  returnModel := sketch.returnModel
  dlsymEffects := fun _ => []
  invocations := sketch.invocations
  ipcBridges := []

/-- Sets are walked in the order their members were found. -/
def SetOrder.asFound : SetOrder := ⟨id, fun _ => .refl _⟩

/-- A fact of the outcome that evaluation finds. -/
lemma exists_outcome {P : Program} {ord} {budget : Budget} {fuel : ℕ}
    {Q} [DecidablePred Q] (h : (analyze P ord budget fuel).any (fun out => decide (Q out)) = true) :
    ∃ out, analyze P ord budget fuel = some out ∧ Q out := by
  cases hout : analyze P ord budget fuel with
  | none => simp [hout] at h
  | some out => exact ⟨out, rfl, by simpa [hout] using h⟩

namespace Solver
variable {P : Program}

lemma Settled.copies {base : Pag P} {s} (hs : Settled base (fun _ _ => False) s)
    {c} (hc : c ∈ s.pag.constraints) (hk : c.kind = .copy) {l : LocId}
    (hl : (c.src, l) ∈ s.pts) : (c.dst, l) ∈ s.pts ∨ Lapse.copy c.src c.dst l ∈ s.lapses :=
  ((hs.constraints c hc).1 hk l hl).resolve_left id

end Solver

/-- In a run in which every copy is added while what its source has settled on is at its
destination already, all copies are complete at the end. -/
theorem copies_closed {P : Program} {ord : SetOrder} {budget : Budget} {fuel : ℕ}
    {out : SolveOutcome P} (hrun : analyze P ord budget fuel = some out)
    (hconverged : out.converged = true)
    (hcopies : ∀ src dst l, Lapse.copy src dst l ∉ out.solver.lapses) :
    ∀ c ∈ out.solver.pag.constraints, c.kind = .copy →
      out.solver.ptsOf c.src ⊆ out.solver.ptsOf c.dst := by
  intro c hc hk l hl
  have hsettled := Solver.settled_solve hrun hconverged
  simp only [Solver.mem_ptsOf] at hl ⊢
  exact (hsettled.copies hc hk hl).resolve_right (hcopies _ _ _)

/-- `fp = f; t = &x; q = t; fp(p, q);` where the model of `f` aliases its first argument to its
second. The call is resolved after `q` has been processed. -/
def lateAlias : Program := Sketch.program
  { flow := [.addrOfFn .c .b, .addrOfVar .e .d, .copy .b .e]
    effects := fun _ => [.alias 0 1]
    calleeVar := fun site => if site = .a then some .c else none
    varArgs := fun site => if site = .a then [(0, .a), (1, .b)] else [] }

theorem copy_not_closed_of_lateAlias : ∃ out, analyze lateAlias .asFound {} 20 = some out ∧
    out.converged = true ∧ ∃ c ∈ out.solver.pag.constraints, c.kind = .copy ∧
      ∃ l ∈ out.solver.ptsOf c.src, l ∉ out.solver.ptsOf c.dst :=
  exists_outcome (by decide +kernel)

/-- `fp = f; q = &x; fp(q);` -/
def pointerCall : Program := Sketch.program
  { flow := [.addrOfVar .a .b, .addrOfFn .c .b]
    params := fun f => if f = .b then [.d] else []
    calleeVar := fun site => if site = .a then some .c else none
    varArgs := fun site => if site = .a then [(0, .a)] else [] }

theorem copies_closed_of_pointerCall : ∃ out, analyze pointerCall .asFound {} 20 = some out ∧
    out.solver.lapses = [] ∧ ∀ c ∈ out.solver.pag.constraints, c.kind = .copy →
      out.solver.ptsOf c.src ⊆ out.solver.ptsOf c.dst := by
  obtain ⟨out, hrun, hconverged, hlapses⟩ : ∃ out, analyze pointerCall .asFound {} 20 = some out ∧
      out.converged = true ∧ out.solver.lapses = [] := exists_outcome (by decide +kernel)
  exact ⟨out, hrun, hlapses, copies_closed hrun hconverged fun _ _ _ h => by simp [hlapses] at h⟩

/-- The stores of a run that gives no variable a location of its own after a store of it was
applied are complete at the end, and so are all loads. -/
theorem memory_closed {P : Program} {ord : SetOrder} {budget : Budget} {fuel : ℕ} {pag : Pag P}
    {out : SolveOutcome P} (hrun : solve ord budget fuel pag = some out)
    (hconverged : out.converged = true)
    (hown : ∀ src l, Lapse.ownLocation src l ∉ out.solver.lapses) :
    (∀ c ∈ out.solver.pag.constraints, c.kind = .store →
      ∀ l ∈ out.solver.ptsOf c.dst, out.solver.pag.isCell l →
        (∀ x ∈ out.solver.ptsOf c.src, out.solver.admits l x → x ∈ out.solver.memoryOf l) ∧
        ∀ own, out.solver.pag.selfLoc c.src = some own → own ∈ out.solver.memoryOf l) ∧
    ∀ c ∈ out.solver.pag.constraints, c.kind = .load → ∀ l ∈ out.solver.ptsOf c.src,
      ((out.solver.pag.fnForLoc l).isSome → l ∈ out.solver.ptsOf c.dst) ∧ (out.solver.pag.isCell l →
        ∀ x ∈ out.solver.memoryOf l, out.solver.admits l x → x ∈ out.solver.ptsOf c.dst) := by
  have hsettled := Solver.settled_solve hrun hconverged
  simp only [Solver.mem_ptsOf, Solver.mem_memoryOf]
  constructor
  · intro c hc hk l hl hcell
    obtain ⟨hvalues, hself⟩ := ((hsettled.constraints c hc).2.2 hk l hl hcell).resolve_left id
    exact ⟨fun x hx hadm => (hvalues x hx hadm).resolve_left id,
      fun own hsome => (hself own hsome).resolve_right (hown _ _)⟩
  · intro c hc hk l hl
    exact ((hsettled.constraints c hc).2.1 hk l hl).resolve_left id

/-- `fp = f; p = &o; *p = s; r = fp();` where `f` returns `&s`, which is what gives the object `s`
its location. -/
def lateLocation : Program := Sketch.program
  { flow := [.addrOfFn .d .b, .addrOfVar .a .b, .store .a .c, .callReturnIndirect .e .d]
    isPointer := fun v => v != .c
    returns := fun _ => some [.addrOfVar .c]
    calleeVar := fun site => if site = .a then some .d else none }

theorem store_not_closed_of_lateLocation :
    ∃ out, analyze lateLocation .asFound {} 20 = some out ∧ out.converged = true ∧
      ∃ c ∈ out.solver.pag.constraints, c.kind = .store ∧ ∃ l ∈ out.solver.ptsOf c.dst,
        out.solver.pag.isCell l ∧ ∃ own, out.solver.pag.selfLoc c.src = some own ∧
          own ∉ out.solver.memoryOf l := by
  obtain ⟨out, hrun, hconverged, h⟩ : ∃ out, analyze lateLocation .asFound {} 20 = some out ∧
      out.converged = true ∧ ∃ c ∈ out.solver.pag.constraints, c.kind = .store ∧
        ∃ l ∈ out.solver.ptsOf c.dst, out.solver.pag.isCell l ∧
          (out.solver.pag.selfLoc c.src).isSome ∧ out.solver.memoryOf l = [] :=
    exists_outcome (by decide +kernel)
  obtain ⟨c, hc, hk, l, hl, hcell, hself, hempty⟩ := h
  obtain ⟨own, hown⟩ := Option.isSome_iff_exists.mp hself
  exact ⟨out, hrun, hconverged, c, hc, hk, l, hl, hcell, own, hown, by simp [hempty]⟩

/-- `p = &o; q = &x; *p = q; r = *p;` -/
def storeAndLoad : Program := Sketch.program
  { flow := [.addrOfVar .a .b, .addrOfVar .c .d, .store .a .c, .load .e .a] }

theorem memory_closed_of_storeAndLoad :
    ∃ out, solve .asFound {} 20 (Pag.build storeAndLoad) = some out ∧ out.solver.lapses = [] ∧
      ∀ c ∈ out.solver.pag.constraints, c.kind = .load → ∀ l ∈ out.solver.ptsOf c.src,
        out.solver.pag.isCell l →
          ∀ x ∈ out.solver.memoryOf l, out.solver.admits l x → x ∈ out.solver.ptsOf c.dst := by
  obtain ⟨out, hrun, hconverged, hlapses⟩ : ∃ out, analyze storeAndLoad .asFound {} 20 = some out ∧
      out.converged = true ∧ out.solver.lapses = [] := exists_outcome (by decide +kernel)
  have hclosed := memory_closed hrun hconverged fun _ _ h => by simp [hlapses] at h
  exact ⟨out, hrun, hlapses, fun c hc hk l hl => (hclosed.2 c hc hk l hl).2⟩

/-- In a run in which a cell takes in only what the accesses pointed at it hold already, every
access holds at the end what its cells hold. -/
theorem cells_closed {P : Program} {ord : SetOrder} {budget : Budget} {fuel : ℕ} {pag : Pag P}
    {out : SolveOutcome P} (hrun : solve ord budget fuel pag = some out)
    (hconverged : out.converged = true)
    (hcells : ∀ dst cell l, Lapse.cell dst cell l ∉ out.solver.lapses) :
    ∀ dst cell, (dst, cell) ∈ out.solver.designated → cell ∈ out.solver.ptsOf dst ∧
      ∀ x ∈ out.solver.memoryOf cell, out.solver.admits cell x → x ∈ out.solver.ptsOf dst := by
  intro dst cell hd
  obtain ⟨hcell, hvalues⟩ := (Solver.settled_solve hrun hconverged).cells hd
  simp only [Solver.mem_ptsOf, Solver.mem_memoryOf]
  exact ⟨hcell, fun x hx hadm => (hvalues x hx hadm).resolve_right (hcells _ _ _)⟩

/-- `p = &o; r = &x; p->f = r;`: the access is pointed at the field before the store fills it. -/
def fieldStore : Program := Sketch.program
  { flow := [.addrOfVar .a .b, .addrOfVar .d .e, .gepField .c .a () "", .store .c .d] }

theorem cell_not_closed_of_fieldStore : ∃ out, analyze fieldStore .asFound {} 20 = some out ∧
    out.converged = true ∧ ∃ pair ∈ out.solver.designated,
      (∃ c ∈ out.solver.pag.constraints, c.kind = .gep ∧ c.dst = pair.1) ∧
      ∃ x ∈ out.solver.memoryOf pair.2, out.solver.admits pair.2 x ∧ x ∉ out.solver.ptsOf pair.1 :=
  exists_outcome (by decide +kernel)

/-- `p = &o; q = p->f;` -/
def fieldRead : Program := Sketch.program
  { flow := [.addrOfVar .a .b, .gepField .c .a () ""] }

theorem cells_closed_of_fieldRead :
    ∃ out, solve .asFound {} 20 (Pag.build fieldRead) = some out ∧ out.solver.designated ≠ [] ∧
      ∀ dst cell, (dst, cell) ∈ out.solver.designated → cell ∈ out.solver.ptsOf dst ∧
        ∀ x ∈ out.solver.memoryOf cell, out.solver.admits cell x → x ∈ out.solver.ptsOf dst := by
  obtain ⟨out, hrun, hconverged, hlapses, hsome⟩ :
      ∃ out, analyze fieldRead .asFound {} 20 = some out ∧
      out.converged = true ∧ out.solver.lapses = [] ∧ out.solver.designated ≠ [] :=
    exists_outcome (by decide +kernel)
  exact ⟨out, hrun, hsome, cells_closed hrun hconverged fun _ _ _ h => by simp [hlapses] at h⟩

/-- Whether the nodes of an effect exist does not change while the graph is solved. -/
lemma Pag.effectEdge_isSome {P : Program} {q : Pag P} (h : (build P).Extends q) (site : P.Site)
    (e : Effect) : (q.effectEdge site e).isSome = ((build P).effectEdge site e).isSome := by
  have hcopy : ∀ d v, (effectEdge.copyEdge q site d v).isSome =
      (effectEdge.copyEdge (build P) site d v).isSome := by
    intro d v
    unfold effectEdge.copyEdge
    rw [argNode_eq h, argNode_eq h]
    split <;> rfl
  match e with
  | .alias d v =>
    simp only [effectEdge]
    split_ifs
    · rfl
    · exact hcopy d v
  | .memCopy d v => exact hcopy d v
  | .contentStore p v =>
    simp only [effectEdge]
    rw [argNode_eq h, argNode_eq h]
  | .epollRegister _ | .epollWait _ | .returnAlias _ | .returnHeap | .dlsym _ | .clears _ |
    .other => rfl

/-- In a run in which an effect finds its two nodes wired only if an effect of its own kind has
wired them, every alias, copy and content store of every resolved call has its constraint, however
the run ends. Which nodes those are is asked in the graph `p` that the effect is applied in. -/
theorem effects_joined {P : Program} {ord : SetOrder} {budget : Budget} {fuel : ℕ}
    {out : SolveOutcome P} (hrun : analyze P ord budget fuel = some out)
    (hedges : ∀ kind src dst, Lapse.modelEdge kind src dst ∉ out.solver.lapses) :
    ∀ edge ∈ out.solver.callEdges, ∀ site, edge.callSite = some site →
      ∀ e ∈ P.argEffects edge.callee, (out.solver.pag.effectEdge site e).isSome →
        ∃ p, (Pag.build P).Extends p ∧ p.Extends out.solver.pag ∧
          ∃ c ∈ out.solver.pag.constraints, p.effectEdge site e = some (c.kind, c.dst, c.src) := by
  intro edge hedge site hsite e he hnodes
  obtain ⟨t, hsettled, heq⟩ := Solver.settled_outcome hrun
  rw [heq] at hedge hedges hnodes ⊢
  obtain ⟨p, hbase, hp, hwired⟩ := hsettled.models edge hedge site hsite e he
  rw [Pag.effectEdge_isSome (hbase.trans hp), ← Pag.effectEdge_isSome hbase] at hnodes
  obtain ⟨⟨kind, dst, src⟩, hfound⟩ := Option.isSome_iff_exists.mp hnodes
  have hkind := (hwired kind dst src hfound).resolve_right (hedges _ _ _)
  obtain ⟨c, hc, hk, hd, hs⟩ := Pag.joins_iff.mp (hsettled.kinds hkind)
  exact ⟨p, hbase, hp, c, hc, by rw [hfound, hk, hd, hs]⟩

/-- `f(p, q);` where the model of `f` aliases `p` to `q` and stores `q` through `p`. -/
def aliasAndStore : Program := Sketch.program
  { effects := fun _ => [.alias 0 1, .contentStore 0 1]
    callees := fun site => if site = .a then [.b] else []
    varArgs := fun site => if site = .a then [(0, .a), (1, .b)] else [] }

theorem effect_not_joined_of_aliasAndStore :
    ∃ out, analyze aliasAndStore .asFound {} 20 = some out ∧ out.converged = true ∧
      ∃ edge ∈ out.solver.callEdges, ∃ site ∈ aliasAndStore.callSites, edge.callSite = some site ∧
        ∃ e ∈ aliasAndStore.argEffects edge.callee,
          out.solver.pag.effectEdge site e = some (.store, 0, 1) ∧
          ∀ c ∈ out.solver.pag.constraints, ¬ (c.kind = .store ∧ c.dst = 0 ∧ c.src = 1) :=
  exists_outcome (by decide +kernel)

/-- `p = &x; q = &y; f(p, q);` where the model of `f` stores `q` through `p`. -/
def storeOnly : Program := Sketch.program
  { flow := [.addrOfVar .a .c, .addrOfVar .b .d]
    effects := fun _ => [.contentStore 0 1]
    callees := fun site => if site = .a then [.b] else []
    varArgs := fun site => if site = .a then [(0, .a), (1, .b)] else [] }

theorem effects_joined_of_storeOnly :
    ∃ out, analyze storeOnly .asFound { pops := some 1 } 20 = some out ∧ out.converged = false ∧
      ∃ edge ∈ out.solver.callEdges, ∃ site, edge.callSite = some site ∧
        ∃ e ∈ storeOnly.argEffects edge.callee, ∃ p : Pag storeOnly, p.Extends out.solver.pag ∧
          ∃ c ∈ out.solver.pag.constraints, p.effectEdge site e = some (c.kind, c.dst, c.src) := by
  obtain ⟨out, hrun, hstopped, hlapses, edge, hedge, site, -, hsite, e, he, hnodes⟩ :
      ∃ out, analyze storeOnly .asFound { pops := some 1 } 20 = some out ∧ out.converged = false ∧
        out.solver.lapses = [] ∧ ∃ edge ∈ out.solver.callEdges, ∃ site ∈ storeOnly.callSites,
          edge.callSite = some site ∧ ∃ e ∈ storeOnly.argEffects edge.callee,
            (out.solver.pag.effectEdge site e).isSome :=
    exists_outcome (by decide +kernel)
  obtain ⟨p, -, hp, hc⟩ := effects_joined hrun (fun _ _ _ h => by simp [hlapses] at h)
    edge hedge site hsite e he hnodes
  exact ⟨out, hrun, hstopped, edge, hedge, site, hsite, e, he, p, hp, hc⟩

end Pathologist.PointsTo

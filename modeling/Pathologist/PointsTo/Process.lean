import Pathologist.PointsTo.Effects
import Pathologist.PointsTo.Solve

/-!
# Taking up callees

A step that finds a new callee of an indirect call wires its parameters, expands its returns
and applies its model. `Advance` adds to growth what then holds of every call edge: its
parameters are wired, and each effect of its model has its constraint.
-/
open List
namespace Pathologist.PointsTo
open Lib.Fold
variable {P : Program}

namespace Pag

/-- The constraint that an effect of a model stands for at a call: its kind, destination and
source. -/
def effectEdge (pag : Pag P) (site : P.Site) : Effect → Option (ConstraintKind × NodeId × NodeId)
  | .alias dst src =>
    if dst ∈ P.addrOfMemberArgs site ∨ src ∈ P.addrOfMemberArgs site then none
    else copyEdge dst src
  | .memCopy dst src => copyEdge dst src
  | .contentStore ptr value =>
    match pag.argNode site ptr, pag.argNode site value with
    | some p, some v => some (.store, p, v)
    | _, _ => none
  | _ => none
where copyEdge (dst src : ℕ) : Option (ConstraintKind × NodeId × NodeId) :=
    match pag.argNode site dst, pag.argNode site src with
    | some d, some v => some (.copy, pag.modelCopySide d, pag.modelCopySide v)
    | _, _ => none

section Edges
variable {pag : Pag P} {site : P.Site} {edge : ConstraintKind × NodeId × NodeId}

lemma copyEdge_eq_some {dst src : ℕ} (h : effectEdge.copyEdge pag site dst src = some edge) :
    ∃ d v, pag.argNode site dst = some d ∧ pag.argNode site src = some v ∧
      edge = (.copy, pag.modelCopySide d, pag.modelCopySide v) := by
  unfold effectEdge.copyEdge at h
  split at h
  · next d v hd hv => exact ⟨d, v, hd, hv, (Option.some.inj h).symm⟩
  · cases h

lemma contentStore_eq_some {ptr value : ℕ}
    (h : pag.effectEdge site (.contentStore ptr value) = some edge) :
    ∃ p v, pag.argNode site ptr = some p ∧ pag.argNode site value = some v ∧
      edge = (.store, p, v) := by
  simp only [effectEdge] at h
  split at h
  · next p v hp hv => exact ⟨p, v, hp, hv, (Option.some.inj h).symm⟩
  · cases h

end Edges

end Pag

namespace Solver

section Fields
variable (s : Solver P) (c : Constraint P)

lemma quiet_gepFallback : Quiet s (s.gepFallback c) := by
  unfold gepFallback
  split
  · exact (quiet_of_refines (s.pag.refines_ensureFallbackSummary _ _) (by simp)).trans
      (quiet_pointGepAt _ _ _)
  · exact .refl s

lemma GepRun.quiet_function (f : P.Fn) (field : P.Field) (run : GepRun P) (loc : LocId) :
    Quiet run.solver (run.function c f field loc).solver := by
  unfold GepRun.function
  dsimp only
  split
  · split_ifs
    · exact .refl _
    · exact run.solver.quiet_propagateLocs _ _
  · split_ifs
    · exact run.solver.quiet_addPts _ _
    · exact .refl _

lemma GepRun.quiet_object (field : P.Field) (run : GepRun P) (loc : LocId) :
    Quiet run.solver (run.object c field loc).solver := by
  have hpag := quiet_of_refines (run.solver.pag.refines_ensureFieldLoc loc field) (by simp)
  unfold GepRun.object
  dsimp only
  split
  · exact hpag
  · exact (hpag.trans (quiet_pointGepAt _ _ _)).trans (quiet_propagateLocs _ _ _)

lemma GepRun.quiet_step (access : FieldAccess P) (run : GepRun P) (loc : LocId) :
    Quiet run.solver (run.step c access loc).solver := by
  unfold GepRun.step
  split
  · exact .refl _
  · split
    · exact run.quiet_function c _ _ loc
    · exact run.quiet_object c _ loc

lemma quiet_gepStep (delta : List LocId) : Quiet s (s.gepStep delta c) := by
  unfold gepStep
  split
  · exact .refl s
  next access _ =>
  have hrun : Quiet s (delta.foldl (GepRun.step c access) { solver := s }).solver :=
    foldl_rel (R := fun a b : GepRun P => Quiet a.solver b.solver) Quiet.trans delta
      (s := { solver := s }) (.refl s) fun run _ loc _ => run.quiet_step c access loc
  dsimp only
  split_ifs
  · exact hrun.trans (quiet_gepFallback _ c)
  · exact hrun

end Fields

section Returns
variable (ord : SetOrder) (s : Solver P)

lemma quiet_noteConstraint (c : Constraint P) : Quiet s (s.noteConstraint c) := by
  unfold noteConstraint
  split_ifs
  · exact s.quiet_noteLapses _
  · exact .refl s

/-- A copy that has been noted is complete up to what was noted. -/
lemma copyDone_noteConstraint {c} (hk : c.kind = .copy) :
    (s.noteConstraint c).CopyDone (s.noteConstraint c).Pending c := by
  unfold noteConstraint
  rw [if_pos hk]
  intro l hl
  by_cases hd : l ∈ s.delta c.src
  · exact .inl hd
  by_cases hp : (c.dst, l) ∈ s.pts
  · exact .inr (.inl hp)
  · refine .inr (.inr (mem_append_right _ (mem_map.mpr ⟨l, mem_filter.mpr ⟨?_, ?_⟩, rfl⟩)))
    · exact mem_ptsOf.mpr hl
    · simpa using ⟨hd, hp⟩

lemma inner_expandIndirectReturn (callee : P.Fn) (dst : NodeId) :
    Inner (fun _ => False) s (s.expandIndirectReturn ord callee dst) := by
  have hreceive := receives_expandReturnFlows dst callee { visited := [], pag := s.pag }
  set q := (expandReturnFlows dst callee { visited := [], pag := s.pag }).2.pag with hq
  set added := q.constraints.drop s.pag.constraints.length with ha
  set m := { s with pag := q }.noteOwnLocations s.pag
  have hnoteStep : ∀ t, Quiet m t → ∀ c ∈ added, Quiet t (t.noteConstraint c) :=
    fun t _ c _ => t.quiet_noteConstraint c
  have hnote : Quiet m (added.foldl noteConstraint m) :=
    foldl_rel (R := Quiet) Quiet.trans added (.refl m) hnoteStep
  have hcopies : ∀ c ∈ added, c.kind = .copy →
      (added.foldl noteConstraint m).CopyDone (added.foldl noteConstraint m).Pending c :=
    foldl_all (R := Quiet) Quiet.trans
      (Q := fun (c : Constraint P) (t : Solver P) => c.kind = .copy → t.CopyDone t.Pending c)
      added (.refl m) hnoteStep (fun t _ c _ hk => t.copyDone_noteConstraint hk)
      fun c t u h hc hk => h.copyDone (fun hp => h.delta _ hp) id (hc hk)
  have hseed : Quiet (added.foldl noteConstraint m)
      (added.foldl (seedAddrOf ord) (added.foldl noteConstraint m)) :=
    quiet_fold _ (fun t c => t.quiet_seedAddrOf ord c) added
  have hpush := (added.foldl (seedAddrOf ord) (added.foldl noteConstraint m)).inner_fold
    (fun t node => t.inner_push node fun _ => False) (added.flatMap srcsOf)
  have hlater := hseed.toInner.trans hpush
  refine inner_of_extends hreceive.toExtends (hnote.toInner.trans hlater) fun c hc hnew => ?_
  have hmem : c ∈ added := by
    obtain ⟨rest, hr⟩ := hreceive.constraints
    have hdrop : added = rest := by
      rw [ha, ← hr, drop_left]
    rw [hdrop]
    rw [← hr] at hc
    exact (mem_append.mp hc).resolve_left hnew
  have hkind := (hreceive.received c hc).resolve_left hnew
  refine ⟨fun hk => hlater.copyDone (fun hp => hlater.delta _ hp) id (hcopies c hmem hk), ?_, ?_⟩
  · intro hk
    rcases hkind with h | h <;> exact absurd (h.symm.trans hk) (by decide)
  · intro hk
    rcases hkind with h | h <;> exact absurd (h.symm.trans hk) (by decide)

lemma inner_expandIndirectReturns (site : P.Site) (callee : P.Fn) :
    Inner (fun _ => False) s (s.expandIndirectReturns ord site callee) := by
  unfold expandIndirectReturns
  split
  · exact s.inner_fold (fun t dst => t.inner_expandIndirectReturn ord callee dst) _
  · exact .refl _ s

end Returns

/-- An effect has wired the nodes that it found in some graph since `base`. -/
def Applied (base : Pag P) (t : Solver P) (site : P.Site) (e : Effect) : Prop :=
  ∃ p : Pag P, base.Extends p ∧ p.Extends t.pag ∧
    ∀ kind dst src, p.effectEdge site e = some (kind, dst, src) →
      (kind, src, dst) ∈ t.wiredKinds ∨ Lapse.modelEdge kind src dst ∈ t.lapses

variable {s t : Solver P} {base : Pag P} {site : P.Site}

lemma Grows.applied {untold} (h : Grows untold s t) {e : Effect} (hs : s.Applied base site e) :
    t.Applied base site e := by
  obtain ⟨p, hb, hp, he⟩ := hs
  exact ⟨p, hb, hp.trans h.pag, fun kind dst src heq =>
    (he kind dst src heq).imp (fun hk => h.wiredKinds hk) fun hl => h.lapses hl⟩

lemma Applied.weaken {base' : Pag P} {e : Effect} (h : t.Applied base' site e)
    (hb : base.Extends base') : t.Applied base site e := by
  obtain ⟨p, hp, hr⟩ := h
  exact ⟨p, hb.trans hp, hr⟩

section Effects
variable (ord : SetOrder) (site : P.Site) (s : Solver P)

lemma noteWired_wires (kind : ConstraintKind) (src dst : NodeId) :
    (kind, src, dst) ∈ (s.noteWired kind src dst).wiredKinds ∨
      Lapse.modelEdge kind src dst ∈ (s.noteWired kind src dst).lapses := by
  unfold noteWired
  split_ifs with h
  · exact .inl h
  · exact .inr (by simp)

lemma wireModelCopy_wires (src dst : NodeId) :
    (.copy, src, dst) ∈ (s.wireModelCopy src dst).wiredKinds ∨
      Lapse.modelEdge .copy src dst ∈ (s.wireModelCopy src dst).lapses := by
  unfold wireModelCopy
  split_ifs
  · exact s.noteWired_wires _ _ _
  · exact .inl (mem_append_right _ mem_cons_self)

lemma contentStore_wires (ptr value : NodeId) :
    (.store, value, ptr) ∈ (s.contentStore ord ptr value).wiredKinds ∨
      Lapse.modelEdge .store value ptr ∈ (s.contentStore ord ptr value).lapses := by
  unfold contentStore
  split_ifs
  · exact s.noteWired_wires _ _ _
  · exact .inl (mem_append_right _ mem_cons_self)

lemma applyEffect_applied (e : Effect) : (s.applyEffect ord site e).Applied s.pag site e := by
  refine ⟨s.pag, .refl _, (s.inner_applyEffect ord site e).pag, fun kind dst src he => ?_⟩
  have hcopy : ∀ d v, Pag.effectEdge.copyEdge s.pag site d v = some (kind, dst, src) →
      (kind, src, dst) ∈ (s.wireModelCopyArgs site d v).wiredKinds ∨
        Lapse.modelEdge kind src dst ∈ (s.wireModelCopyArgs site d v).lapses := by
    intro d v h
    obtain ⟨dn, vn, hd, hv, heq⟩ := Pag.copyEdge_eq_some h
    obtain ⟨rfl, rfl, rfl⟩ : _ ∧ _ ∧ _ := by simpa using heq
    have hargs : s.wireModelCopyArgs site d v =
        s.wireModelCopy (s.pag.modelCopySide vn) (s.pag.modelCopySide dn) := by
      simp [wireModelCopyArgs, hd, hv]
    rw [hargs]
    exact s.wireModelCopy_wires _ _
  match e, he with
  | .alias d v, he =>
    simp only [Pag.effectEdge] at he
    simp only [applyEffect]
    split_ifs at he ⊢
    exact hcopy d v he
  | .memCopy d v, he => exact hcopy d v he
  | .contentStore ptr value, he =>
    obtain ⟨p, v, hp, hv, heq⟩ := Pag.contentStore_eq_some he
    obtain ⟨rfl, rfl, rfl⟩ : _ ∧ _ ∧ _ := by simpa using heq
    have hstore :
        s.applyEffect ord site (.contentStore ptr value) = s.contentStore ord dst src := by
      simp [applyEffect, hp, hv]
    rw [hstore]
    exact s.contentStore_wires ord _ _

lemma applyFnModel_applied (callee : P.Fn) :
    ∀ e ∈ P.argEffects callee, (s.applyFnModel ord site callee).Applied s.pag site e := by
  refine foldl_all (R := Inner fun _ => False) Inner.trans
    (Q := fun (e : Effect) (t : Solver P) => t.Applied s.pag site e) _ (.refl _ s)
    (fun t _ e _ => t.inner_applyEffect ord site e) ?_ fun e t u h hq => h.applied hq
  intro t ht e _
  exact (t.applyEffect_applied ord site e).weaken ht.pag

end Effects

/-- The parameters of a callee are wired at a call. -/
def ParamsWired (s : Solver P) (site : P.Site) (callee : P.Fn) : Prop :=
  ∀ formal ∈ (P.params callee).zipIdx, s.WiredAt site formal.1 formal.2

/-- The model of an edge's callee has been applied at its call. -/
def ModelApplied (base : Pag P) (s : Solver P) (edge : CallGraphEdge P) : Prop :=
  ∀ site, edge.callSite = some site → ∀ e ∈ P.argEffects edge.callee, s.Applied base site e

/-- The indirect edges are those of the resolved pairs, each of which is resolved once. -/
def EdgesResolved (s : Solver P) : Prop :=
  s.callEdges.filter (fun edge => edge.resolution = .indirect) =
    s.resolvedIndirect.map (fun pair => edgeOf pair.1 pair.2 .indirect) ∧ s.resolvedIndirect.Nodup

/-- Growth that may take up callees. -/
structure Advance (s t : Solver P) : Prop extends Grows (fun _ => False) s t where
  callEdges : s.callEdges <+: t.callEdges
  resolvedIndirect : s.resolvedIndirect <+: t.resolvedIndirect
  edgesResolved : s.EdgesResolved → t.EdgesResolved
  newEdges : ∀ edge ∈ t.callEdges, edge ∈ s.callEdges ∨ t.ModelApplied s.pag edge
  newResolved : ∀ pair ∈ t.resolvedIndirect, pair ∈ s.resolvedIndirect ∨ t.ParamsWired pair.1 pair.2

namespace Advance
variable {s t u : Solver P}

lemma modelApplied (h : Advance s t) {edge} (hs : s.ModelApplied base edge) :
    t.ModelApplied base edge :=
  fun site hsite e he => h.applied (hs site hsite e he)

lemma paramsWired (h : Advance s t) {callee : P.Fn} (hs : s.ParamsWired site callee) :
    t.ParamsWired site callee := fun formal hf => h.wiredAt (hs formal hf)

lemma trans (h₁ : Advance s t) (h₂ : Advance t u) : Advance s u where
  toGrows := h₁.toGrows.trans h₂.toGrows
  callEdges := h₁.callEdges.trans h₂.callEdges
  resolvedIndirect := h₁.resolvedIndirect.trans h₂.resolvedIndirect
  edgesResolved := fun h => h₂.edgesResolved (h₁.edgesResolved h)
  newEdges := by
    intro edge hedge
    rcases h₂.newEdges edge hedge with hmid | hnew
    · exact (h₁.newEdges edge hmid).imp id h₂.modelApplied
    · exact .inr fun site hs e he => (hnew site hs e he).weaken h₁.pag
  newResolved := by
    intro pair hp
    rcases h₂.newResolved pair hp with hmid | hnew
    · exact (h₁.newResolved pair hmid).imp id h₂.paramsWired
    · exact .inr hnew

end Advance

lemma Inner.advance (h : Inner (fun _ => False) s t) : Advance s t where
  toGrows := h.toGrows
  callEdges := h.callEdges ▸ prefix_refl _
  resolvedIndirect := h.resolvedIndirect ▸ prefix_refl _
  edgesResolved := by
    intro hs
    unfold EdgesResolved
    rw [h.callEdges, h.resolvedIndirect]
    exact hs
  newEdges := fun edge he => .inl (h.callEdges ▸ he)
  newResolved := fun pair hp => .inl (h.resolvedIndirect ▸ hp)

/-- An advance of one pop: it takes up a callee, or the graph gains no more than cells of fields
and copies, and no node is queued unless something has been found. -/
structure Turn (s t : Solver P) : Prop extends Advance s t where
  seenOnce : t.seenOnce = s.seenOnce
  quiet : t.resolvedIndirect = s.resolvedIndirect →
    s.pag.Refines t.pag ∧ (t.worklist = s.worklist ∨ s.size < t.size)

lemma Quiet.turn (h : Quiet s t) : Turn s t :=
  ⟨h.toInner.advance, h.seenOnce, fun _ => ⟨h.refines, h.work⟩⟩

lemma Turn.trans {u} (h₁ : Turn s t) (h₂ : Turn t u) : Turn s u where
  toAdvance := h₁.toAdvance.trans h₂.toAdvance
  seenOnce := h₂.seenOnce.trans h₁.seenOnce
  quiet := by
    intro hs
    have hlen₁ := h₁.resolvedIndirect.length_le
    have hlen₂ := h₂.resolvedIndirect.length_le
    rw [hs] at hlen₂
    have hmid : t.resolvedIndirect = s.resolvedIndirect :=
      (h₁.resolvedIndirect.eq_of_length (le_antisymm hlen₁ hlen₂)).symm
    obtain ⟨hr₁, hw₁⟩ := h₁.quiet hmid
    obtain ⟨hr₂, hw₂⟩ := h₂.quiet (hs.trans hmid.symm)
    refine ⟨hr₁.trans hr₂, ?_⟩
    have := h₁.size_le
    have := h₂.size_le
    rcases hw₁ with hw₁ | hlt
    · rcases hw₂ with hw₂ | hlt
      · exact .inl (hw₂.trans hw₁)
      · exact .inr (by omega)
    · exact .inr (by omega)

section Callees
variable (ord : SetOrder) (site : P.Site) (s : Solver P) (callee : P.Fn) (delta : List LocId)

/-- The steps that take up a callee, without its edge. -/
def takeUp (callee : P.Fn) (s : Solver P) : Solver P :=
  (((s.wireParams ord site callee).expandIndirectReturns ord site callee).applyFnModel ord site
    callee).wireInvocations ord site callee

lemma inner_takeUp : Inner (fun _ => False) s (s.takeUp ord site callee) :=
  (((s.quiet_wireParams ord site callee).toInner.trans
    (inner_expandIndirectReturns ord _ site callee)).trans
      (inner_applyFnModel ord site _ callee)).trans
      (quiet_wireInvocations ord site _ callee).toInner

lemma takeUp_paramsWired : (s.takeUp ord site callee).ParamsWired site callee := by
  intro formal hf
  have hlater := ((inner_expandIndirectReturns ord (s.wireParams ord site callee) site callee).trans
    (inner_applyFnModel ord site _ callee)).trans (quiet_wireInvocations ord site _ callee).toInner
  exact hlater.wiredAt (s.wireActuals_wiredAt ord site callee some formal hf formal.2 rfl)

lemma takeUp_applied :
    ∀ e ∈ P.argEffects callee, (s.takeUp ord site callee).Applied s.pag site e := by
  intro e he
  have hbefore := (s.quiet_wireParams ord site callee).toInner.trans
    (inner_expandIndirectReturns ord _ site callee)
  exact (quiet_wireInvocations ord site _ callee).applied
    ((applyFnModel_applied ord site _ callee e he).weaken hbefore.pag)

lemma turn_resolveCallee : Turn s (s.resolveCallee ord site callee) := by
  unfold resolveCallee
  split_ifs with hin
  · exact (Quiet.refl s).turn
  set m : Solver P := { s with
    resolvedIndirect := s.resolvedIndirect ++ [(site, callee)]
    callEdges := s.callEdges ++ [edgeOf site callee .indirect] } with hm
  change Turn s (m.takeUp ord site callee)
  have htake := m.inner_takeUp ord site callee
  set t := m.takeUp ord site callee
  have hgrows : Grows (fun _ => False) s t := { htake.toGrows with }
  refine ⟨⟨hgrows, ?_, ?_, ?_, ?_, ?_⟩, htake.seenOnce, ?_⟩
  · exact htake.callEdges ▸ prefix_append _ _
  · exact htake.resolvedIndirect ▸ prefix_append _ _
  · rintro ⟨hedges, hn⟩
    unfold EdgesResolved
    rw [htake.callEdges, htake.resolvedIndirect]
    refine ⟨?_, ?_⟩
    · simp [hm, hedges, edgeOf]
    exact nodup_append.mpr ⟨hn, nodup_singleton _, by
      intro a ha b hb
      rw [mem_singleton.mp hb]
      exact fun hab => hin (hab ▸ ha)⟩
  · intro edge hedge
    rw [htake.callEdges] at hedge
    rcases mem_append.mp hedge with hold | hnew
    · exact .inl hold
    refine .inr fun site' hs e he => ?_
    rw [mem_singleton.mp hnew] at hs he
    obtain rfl : site = site' := by simpa [edgeOf] using hs
    exact m.takeUp_applied ord site callee e he
  · intro pair hp
    rw [htake.resolvedIndirect] at hp
    rcases mem_append.mp hp with hold | hnew
    · exact .inl hold
    · rw [mem_singleton.mp hnew]
      exact .inr (m.takeUp_paramsWired ord site callee)
  · intro hsame
    rw [htake.resolvedIndirect] at hsame
    exact absurd hsame (by simp [hm])

lemma mem_resolveCallee : (site, callee) ∈ (s.resolveCallee ord site callee).resolvedIndirect := by
  unfold resolveCallee
  split_ifs with hin
  · exact hin
  set m : Solver P := { s with
    resolvedIndirect := s.resolvedIndirect ++ [(site, callee)]
    callEdges := s.callEdges ++ [edgeOf site callee .indirect] }
  have htake := m.inner_takeUp ord site callee
  change (site, callee) ∈ (m.takeUp ord site callee).resolvedIndirect
  rw [htake.resolvedIndirect]
  exact mem_append_right _ (mem_singleton_self _)

lemma turn_resolveSite : Turn s (s.resolveSite ord delta site) :=
  foldl_rel (R := Turn) Turn.trans _ (Quiet.refl s).turn fun t _ callee _ =>
    t.turn_resolveCallee ord site callee

lemma mem_resolveSite {l : LocId} (hl : l ∈ delta) {f : P.Fn} (hf : s.pag.fnForLoc l = some f) :
    ∀ callee ∈ P.reachedDefinitions f (P.fnTarget (P.caller site)),
      (site, callee) ∈ (s.resolveSite ord delta site).resolvedIndirect := by
  intro callee hcallee
  refine foldl_all (R := Turn) Turn.trans
    (Q := fun (callee : P.Fn) (t : Solver P) => (site, callee) ∈ t.resolvedIndirect) _
    (Quiet.refl s).turn (fun t _ c _ => t.turn_resolveCallee ord site c)
    (fun t _ c _ => t.mem_resolveCallee ord site c)
    (fun c t u h hc => h.resolvedIndirect.subset hc) callee ?_
  exact mem_flatMap.mpr ⟨f, mem_filterMap.mpr ⟨l, hl, hf⟩, hcallee⟩

lemma quiet_notifyWatcher (watcher : NodeId × P.Site × Invoked) :
    Quiet s (s.notifyWatcher ord delta watcher) :=
  s.quiet_fold (fun t callback => t.quiet_wireCallback ord watcher.2.1 watcher.2.2 callback) _

lemma quiet_notifyWatchers (node : NodeId) (delta : List LocId) :
    Quiet s ((s.invokeWatch.filter fun w => w.1 == node).foldl (notifyWatcher ord delta) s) :=
  s.quiet_fold (fun t w => t.quiet_notifyWatcher ord delta w) _

lemma turn_callStep (node : NodeId) (delta : List LocId) : Turn s (s.callStep ord node delta) := by
  have hsites : Turn s ((s.pag.indirectByTarget node).foldl (resolveSite ord delta) s) :=
    foldl_rel (R := Turn) Turn.trans _ (Quiet.refl s).turn fun t _ site _ =>
      t.turn_resolveSite ord site delta
  exact hsites.trans (quiet_notifyWatchers ord _ node delta).turn

end Callees
end Solver
end Pathologist.PointsTo

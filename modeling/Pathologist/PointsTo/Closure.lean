import Pathologist.PointsTo.Process

/-!
# What a pop completes

A pop takes a node's news out of its delta and pushes them through every constraint of the node.
In between, what is in flight counts as pending; at the end every constraint has had its effect
up to what the deltas hold. `Settled` is that invariant of the loop.
-/
namespace Pathologist.PointsTo
open Lib.Fold
variable {P : Program}

namespace Pag

@[simp] lemma mem_bySrc {p : Pag P} {kind} {node : NodeId} {c} :
    c ∈ p.bySrc kind node ↔ c ∈ p.constraints ∧ c.kind = kind ∧ c.src = node := by
  simp [bySrc]

@[simp] lemma mem_byDst {p : Pag P} {kind} {node : NodeId} {c} :
    c ∈ p.byDst kind node ↔ c ∈ p.constraints ∧ c.kind = kind ∧ c.dst = node := by
  simp [byDst]

end Pag

namespace Solver

section Growth
variable (ord : SetOrder) (node : NodeId) (delta : List LocId) (s : Solver P) (c : Constraint P)

lemma quiet_seedNode : Quiet s (s.seedNode node) := s.quiet_propagateLocs _ _

lemma quiet_copyStep : Quiet s (s.copyStep delta c) :=
  s.quiet_propagateLocs _ _

lemma quiet_unwrapStep : Quiet s (s.unwrapStep delta c) :=
  s.quiet_propagateLocs _ _

lemma quiet_loadStep : Quiet s (s.loadStep delta c) := s.quiet_loadInto _ _

lemma quiet_dlsymStep : Quiet s (s.dlsymStep delta c) :=
  s.quiet_propagateLocs _ _

/-- The part of `flowStep` after the copies. -/
def flowRest (s : Solver P) : Solver P :=
  let s := (s.pag.bySrc .unwrapPointer node).foldl (unwrapStep delta) s
  let s := s.seedNode node
  (s.pag.bySrc .load node).foldl (loadStep delta) s

lemma quiet_flowRest : Quiet s (s.flowRest node delta) :=
  ((s.quiet_fold (quiet_unwrapStep delta) _).trans (quiet_seedNode node _)).trans
    (quiet_fold _ (quiet_loadStep delta) _)

lemma quiet_copies :
    Quiet s (((s.syncVarToCell ord node delta).pag.bySrc .copy node).foldl (copyStep delta)
      (s.syncVarToCell ord node delta)) :=
  (s.quiet_syncVarToCell ord node delta).trans (quiet_fold _ (quiet_copyStep delta) _)

lemma quiet_flowStep : Quiet s (s.flowStep ord node delta) :=
  (s.quiet_copies ord node delta).trans (quiet_flowRest node delta _)

lemma quiet_storeStep : Quiet s (s.storeStep ord node delta) :=
  (s.quiet_fold (fun t c => t.quiet_applyStoreToTargets ord c _ none) _).trans
    (quiet_fold _ (fun t c => t.quiet_applyStoreToTargets ord c none _) _)

/-- The field accesses and symbol lookups of a pop. -/
def accessStep (s : Solver P) : Solver P :=
  let s := (s.pag.bySrc .gep node).foldl (gepStep delta) s
  (s.pag.bySrc .dlsym node).foldl (dlsymStep delta) s

lemma quiet_accessStep : Quiet s (s.accessStep node delta) :=
  (s.quiet_fold (fun t c => t.quiet_gepStep c delta) _).trans
    (quiet_fold _ (quiet_dlsymStep delta) _)

/-- Everything a pop does before the calls. -/
def beforeCalls (s : Solver P) : Solver P :=
  ((s.flowStep ord node delta).storeStep ord node delta).accessStep node delta

lemma quiet_afterStore : Quiet ((s.flowStep ord node delta).storeStep ord node delta)
    (s.beforeCalls ord node delta) := quiet_accessStep node delta _

lemma quiet_afterFlow : Quiet (s.flowStep ord node delta) (s.beforeCalls ord node delta) :=
  (quiet_storeStep ord node delta _).trans (s.quiet_afterStore ord node delta)

lemma quiet_beforeCalls : Quiet s (s.beforeCalls ord node delta) :=
  (s.quiet_flowStep ord node delta).trans (s.quiet_afterFlow ord node delta)

lemma processDelta_eq :
    s.processDelta ord node delta = (s.beforeCalls ord node delta).callStep ord node delta := rfl

lemma turn_processDelta : Turn s (s.processDelta ord node delta) :=
  (s.quiet_beforeCalls ord node delta).turn.trans (turn_callStep ord _ node delta)

end Growth

/-- What is pending while the news `delta` of a node are on their way. -/
def InFlight (s : Solver P) (node : NodeId) (delta : List LocId) (n : NodeId) (l : LocId) : Prop :=
  l ∈ s.delta n ∨ (n = node ∧ l ∈ delta)

section Flight
variable {ord : SetOrder} {node : NodeId} {delta : List LocId} {s t : Solver P}

lemma Grows.inFlight {untold} (h : Grows untold s t) {n : NodeId} {l : LocId}
    (hf : s.InFlight node delta n l) : t.InFlight node delta n l :=
  hf.imp (fun hd => h.delta n hd) id

variable {c : Constraint P}

lemma flowStep_copies (hc : c ∈ s.pag.constraints) (hk : c.kind = .copy) (hsrc : c.src = node) :
    ∀ l ∈ delta, (c.dst, l) ∈ (s.flowStep ord node delta).pts := by
  set m := s.syncVarToCell ord node delta
  have hmem : c ∈ m.pag.bySrc .copy node :=
    Pag.mem_bySrc.mpr ⟨(s.quiet_syncVarToCell ord node delta).pag.mem_constraints hc, hk, hsrc⟩
  have hcopies := foldl_all (R := Quiet) Quiet.trans
    (Q := fun (c : Constraint P) (t : Solver P) => ∀ l ∈ delta, (c.dst, l) ∈ t.pts)
    (f := copyStep delta) (m.pag.bySrc .copy node) (.refl m)
    (fun t _ c _ => quiet_copyStep delta t c) (fun t _ c _ => t.mem_propagateLocs c.dst delta)
    (fun c t u h hq l hl => h.pts.subset (hq l hl)) c hmem
  intro l hl
  exact (quiet_flowRest node delta _).pts.subset (hcopies l hl)

/-- The loads of the node read what lies behind its news. -/
lemma flowStep_loads (hm : s.Merged) (hc : c ∈ s.pag.constraints) (hk : c.kind = .load)
    (hsrc : c.src = node) (hs : s.LoadDone (s.InFlight node delta) c) :
    (s.flowStep ord node delta).LoadDone (s.flowStep ord node delta).Pending c := by
  set m := (((((s.syncVarToCell ord node delta).pag.bySrc .copy node).foldl (copyStep delta)
    (s.syncVarToCell ord node delta)).pag.bySrc .unwrapPointer node).foldl (unwrapStep delta)
      (((s.syncVarToCell ord node delta).pag.bySrc .copy node).foldl (copyStep delta)
        (s.syncVarToCell ord node delta))).seedNode node
  have hbefore : Quiet s m := ((s.quiet_copies ord node delta).trans
    (quiet_fold _ (quiet_unwrapStep delta) _)).trans (quiet_seedNode node _)
  have hmem : c ∈ m.pag.bySrc .load node :=
    Pag.mem_bySrc.mpr ⟨hbefore.pag.mem_constraints hc, hk, hsrc⟩
  refine foldl_all (R := Quiet) Quiet.trans
    (Q := fun (d : Constraint P) (t : Solver P) => d ∈ t.pag.constraints ∧ d.kind = .load ∧
      (d = c → t.LoadDone t.Pending d))
    (f := loadStep delta) (m.pag.bySrc .load node) (.refl m)
    (fun t _ c _ => quiet_loadStep delta t c) ?_ ?_ c hmem |>.2.2 rfl
  · intro t ht d hd
    obtain ⟨hd, hdk, -⟩ := Pag.mem_bySrc.mp hd
    have hstep := quiet_loadStep delta t d
    refine ⟨hstep.pag.mem_constraints (ht.pag.mem_constraints hd), hdk, ?_⟩
    rintro rfl l hl
    have hgrow := hbefore.trans (ht.trans hstep)
    rcases hgrow.loadDone (fun hf => hgrow.inFlight hf) (fun hd => .inl hd) hc hk hs l hl with
      (hp | ⟨-, hp⟩) | hdone
    · exact .inl hp
    · have hsame := t.sameMemory_loadInto d.dst delta
      have hread := t.loadInto_complete (ht.merged (hbefore.merged hm)) d.dst delta l hp
      unfold loadStep at hl ⊢
      refine .inr ⟨?_, ?_⟩
      · rw [hsame.pag]
        exact hread.1
      · rw [hsame.pag, hsame.memory]
        intro hcell x hx hadm
        exact hread.2 hcell x hx (hsame.admits l x ▸ hadm)
    · exact .inr hdone
  · rintro d t u h ⟨hd, hdk, hdone⟩
    exact ⟨h.pag.mem_constraints hd, hdk, fun heq =>
      h.loadDone (fun hp => h.delta _ hp) id hd hdk (hdone heq)⟩

section
variable (hc : c ∈ s.pag.constraints)
include hc

section
variable (hk : c.kind = .store)
include hk

/-- The stores through the node reach the targets that it newly holds. -/
lemma storeTargets_done (hs : s.StoreDone (s.InFlight node delta) (s.InFlight node delta) c)
    (hg : Quiet s t) : (t.applyStoreToTargets ord c (some delta) none).StoreDone
      (t.applyStoreToTargets ord c (some delta) none).Pending
      ((t.applyStoreToTargets ord c (some delta) none).InFlight node delta) c := by
  have hstep := t.quiet_applyStoreToTargets ord c (some delta) none
  have hlater := hg.trans hstep
  have hkept := hlater.storeDone (fun hf => hlater.inFlight hf) (fun hd => .inl hd)
    (fun hf => hlater.inFlight hf) (fun hd => .inl hd) hc hk hs
  intro l hl hcell
  rcases hkept l hl hcell with (hp | ⟨-, hp⟩) | hdone
  · exact .inl hp
  · rw [hstep.pag.isCell] at hcell
    have hwritten := t.mem_applyStoreToTargets ord c (some delta) none (l := l) hp hcell
    refine .inr ⟨fun x hx hadm => ?_, fun own hown => .inl (hwritten.2 own ?_)⟩
    · rcases hstep.fresh hx with hold | hnew
      · exact .inr (hwritten.1 x hold (fun w hw => absurd hw (by simp)) (hstep.admits hadm))
      · exact .inl (.inl hnew)
    · exact hstep.refines.selfLoc_eq c.src ▸ hown
  · exact .inr hdone

/-- The stores of the node write the values that it newly holds. -/
lemma storeValues_done (hs : s.StoreDone s.Pending (s.InFlight node delta) c) (hg : Quiet s t) {new}
    (hnew : ∀ x ∈ delta, (node, x) ∈ s.pts → x ∈ new) :
    (t.applyStoreToTargets ord c none (some new)).StoreDone
      (t.applyStoreToTargets ord c none (some new)).Pending
      (t.applyStoreToTargets ord c none (some new)).Pending c := by
  have hstep := t.quiet_applyStoreToTargets ord c none (some new)
  set u := t.applyStoreToTargets ord c none (some new)
  have hlater := hg.trans hstep
  have hkept : u.StoreDone u.Pending (u.InFlight node delta) c :=
    hlater.storeDone (fun hd => hlater.delta _ hd) (fun hd => hd) (fun hf => hlater.inFlight hf)
      (fun hd => .inl hd) hc hk hs
  intro l hl hcell
  rcases hkept l hl hcell with hp | ⟨hv, hown⟩
  · exact .inl hp
  rcases hstep.fresh hl with hlt | hpend
  swap
  · exact .inl hpend
  refine .inr ⟨fun x hx hadm => ?_, hown⟩
  rcases hv x hx hadm with (hp | ⟨hsrc, hp⟩) | hmem
  · exact .inl hp
  · rcases hlater.fresh hx with hold | hpend
    · rw [hstep.pag.isCell] at hcell
      have hwritten := t.mem_applyStoreToTargets ord c none (some new) (l := l)
        (by simpa using hlt) hcell
      refine .inr (hwritten.1 x (hg.pts.subset hold) ?_ (hstep.admits hadm))
      rintro w ⟨⟩
      exact hnew x hp (hsrc ▸ hold)
    · exact .inl hpend
  · exact .inr hmem

lemma storeStep_stores (hs : s.StoreDone (s.InFlight node delta) (s.InFlight node delta) c) :
    (s.storeStep ord node delta).StoreDone (s.storeStep ord node delta).Pending
      (s.storeStep ord node delta).Pending c := by
  have htargets : Quiet s ((s.pag.byDst .store node).foldl
      (fun s c => s.applyStoreToTargets ord c (some delta) none) s) :=
    s.quiet_fold (fun t c => t.quiet_applyStoreToTargets ord c _ none) _
  set m := (s.pag.byDst .store node).foldl
    (fun s c => s.applyStoreToTargets ord c (some delta) none) s
  have hmid : m.StoreDone m.Pending (m.InFlight node delta) c := by
    by_cases hdst : c.dst = node
    · refine foldl_all (R := Quiet) Quiet.trans
        (Q := fun (d : Constraint P) (t : Solver P) => c ∈ t.pag.constraints ∧
          (d = c → t.StoreDone t.Pending (t.InFlight node delta) c))
        (s.pag.byDst .store node) (.refl s)
        (fun t _ c _ => t.quiet_applyStoreToTargets ord c _ none) ?_ ?_ c
        (Pag.mem_byDst.mpr ⟨hc, hk, hdst⟩) |>.2 rfl
      · intro t ht d _
        refine ⟨(t.quiet_applyStoreToTargets ord d _ none).pag.mem_constraints
          (ht.pag.mem_constraints hc), ?_⟩
        rintro rfl
        exact storeTargets_done hc hk hs ht
      · rintro d t u h ⟨hct, hdone⟩
        exact ⟨h.pag.mem_constraints hct, fun heq => h.storeDone (fun hd => h.delta _ hd)
          (fun hd => hd) (fun hf => h.inFlight hf) (fun hd => .inl hd) hct hk (hdone heq)⟩
    · intro l hl hcell
      refine (htargets.storeDone (fun hf => htargets.inFlight hf) (fun hd => .inl hd)
        (fun hf => htargets.inFlight hf) (fun hd => .inl hd) hc hk hs l hl hcell).imp ?_ id
      rintro (hp | ⟨heq, -⟩)
      · exact hp
      · exact absurd heq hdst
  have hcm := htargets.pag.mem_constraints hc
  set new := (ord.walk (m.ptsOf node)).filter (· ∈ delta) with hnew
  have hnewmem : ∀ x ∈ delta, (node, x) ∈ m.pts → x ∈ new := by
    intro x hx hpts
    simp [hnew, hx, hpts]
  by_cases hsrc : c.src = node
  · refine foldl_all (R := Quiet) Quiet.trans
      (Q := fun (d : Constraint P) (t : Solver P) => c ∈ t.pag.constraints ∧
        (d = c → t.StoreDone t.Pending t.Pending c))
      (m.pag.bySrc .store node) (.refl m)
      (fun t _ c _ => t.quiet_applyStoreToTargets ord c none _) ?_ ?_ c
      (Pag.mem_bySrc.mpr ⟨hcm, hk, hsrc⟩) |>.2 rfl
    · intro t ht d _
      refine ⟨(t.quiet_applyStoreToTargets ord d none _).pag.mem_constraints
        (ht.pag.mem_constraints hcm), ?_⟩
      rintro rfl
      exact storeValues_done hcm hk hmid ht hnewmem
    · rintro d t u h ⟨hct, hdone⟩
      exact ⟨h.pag.mem_constraints hct, fun heq => h.storeDone (fun hd => h.delta _ hd)
        (fun hd => hd) (fun hd => h.delta _ hd) (fun hd => hd) hct hk (hdone heq)⟩
  have hvalues : Quiet m ((m.pag.bySrc .store node).foldl
      (fun s c => s.applyStoreToTargets ord c none (some new)) m) :=
    m.quiet_fold (fun t c => t.quiet_applyStoreToTargets ord c none _) _
  set t := (m.pag.bySrc .store node).foldl
    (fun s c => s.applyStoreToTargets ord c none (some new)) m
  have hkept : t.StoreDone t.Pending (t.InFlight node delta) c :=
    hvalues.storeDone (fun hd => hvalues.delta _ hd) (fun hd => hd)
      (fun hf => hvalues.inFlight hf) (fun hd => .inl hd) hcm hk hmid
  intro l hl hcell
  refine (hkept l hl hcell).imp id ?_
  refine And.imp_left fun hv x hx hadm => (hv x hx hadm).imp ?_ id
  rintro (hp | ⟨heq, -⟩)
  · exact hp
  · exact absurd heq hsrc

end

/-- What the steps before the calls make of the copies that leave the node. -/
lemma beforeCalls_copies (hk : c.kind = .copy) (hsrc : c.src = node) :
    ∀ l ∈ delta, (c.dst, l) ∈ (s.beforeCalls ord node delta).pts :=
  fun l hl => (s.quiet_afterFlow ord node delta).pts.subset (flowStep_copies hc hk hsrc l hl)

end

/-- Before the calls every constraint that was complete up to the news is complete. -/
lemma beforeCalls_done (hm : s.Merged) (hc : c ∈ s.pag.constraints)
    (hs : s.Done (s.InFlight node delta) c) :
    (s.beforeCalls ord node delta).Done (s.beforeCalls ord node delta).Pending c := by
  have hall := s.quiet_beforeCalls ord node delta
  have hkept : (s.beforeCalls ord node delta).Done
      ((s.beforeCalls ord node delta).InFlight node delta) c :=
    hall.done (fun hf => hall.inFlight hf) (fun hd => .inl hd) hc hs
  refine ⟨fun hk l hl => ?_, fun hk => ?_, fun hk => ?_⟩
  · rcases hkept.1 hk l hl with (hp | ⟨hsrc, hp⟩) | hdone
    · exact .inl hp
    · exact .inr (.inl (beforeCalls_copies hc hk hsrc l hp))
    · exact .inr hdone
  · by_cases hsrc : c.src = node
    · have hflow := s.quiet_flowStep ord node delta
      have hafter := s.quiet_afterFlow ord node delta
      exact hafter.loadDone (fun hd => hafter.delta _ hd) id (hflow.pag.mem_constraints hc) hk
        (flowStep_loads hm hc hk hsrc (hs.2.1 hk))
    intro l hl
    refine (hkept.2.1 hk l hl).imp_left ?_
    rintro (hp | ⟨heq, -⟩)
    · exact hp
    · exact absurd heq hsrc
  · have hflow := s.quiet_flowStep ord node delta
    have hstore := quiet_storeStep ord node delta (s.flowStep ord node delta)
    have hafter := s.quiet_afterStore ord node delta
    have hcm := hflow.pag.mem_constraints hc
    have hmid := hflow.storeDone (fun hf => hflow.inFlight hf) (fun hd => .inl hd)
      (fun hf => hflow.inFlight hf) (fun hd => .inl hd) hc hk (hs.2.2 hk)
    exact hafter.storeDone (fun hd => hafter.delta _ hd) id (fun hd => hafter.delta _ hd) id
      (hstore.pag.mem_constraints hcm) hk (storeStep_stores hcm hk hmid)

/-- The indirect calls through the node take up the functions among its news. -/
lemma callStep_resolves {site : P.Site} (hs : site ∈ s.pag.indirectByTarget node) {l : LocId}
    (hl : l ∈ delta) {f : P.Fn} (hf : s.pag.fnForLoc l = some f) {callee : P.Fn}
    (hcallee : callee ∈ P.reachedDefinitions f (P.fnTarget (P.caller site))) :
    (site, callee) ∈ (s.callStep ord node delta).resolvedIndirect := by
  have hsites := foldl_all (R := Turn) Turn.trans
    (Q := fun (site' : P.Site) (t : Solver P) => site' = site → (site, callee) ∈ t.resolvedIndirect)
    (f := resolveSite ord delta) (s.pag.indirectByTarget node) (Quiet.refl s).turn
    (fun t _ site _ => t.turn_resolveSite ord site delta) (fun t ht site' _ heq => by
      subst heq
      exact t.mem_resolveSite ord _ delta hl ((ht.pag.fnForLoc l).trans hf) callee hcallee)
    (fun site' t u h hq heq => h.resolvedIndirect.subset (hq heq)) site hs rfl
  rw [callStep, (quiet_notifyWatchers ord _ node delta).resolvedIndirect]
  exact hsites

end Flight

/-- Every constraint has had its effect up to what is pending, and every call its callees. The
graph has grown from `base`. -/
structure Settled (base : Pag P) (pending : NodeId → LocId → Prop) (s : Solver P) : Prop where
  pag : base.Extends s.pag
  constraints : ∀ c ∈ s.pag.constraints, s.Done pending c
  cells : ∀ {dst cell}, (dst, cell) ∈ s.designated → s.CellDone dst cell
  wired : ∀ pair ∈ s.wiredCopies, s.WiredDone pending pair
  kinds : ∀ {kind src dst}, (kind, src, dst) ∈ s.wiredKinds → s.pag.joins kind dst src = true
  calls : ∀ {n site l f}, site ∈ s.pag.indirectByTarget n → (n, l) ∈ s.pts →
    s.pag.fnForLoc l = some f → pending n l ∨
      ∀ callee ∈ P.reachedDefinitions f (P.fnTarget (P.caller site)),
        (site, callee) ∈ s.resolvedIndirect
  merged : s.Merged
  queued : s.Queued
  edgesResolved : s.EdgesResolved
  models : ∀ edge ∈ s.callEdges, s.ModelApplied base edge
  params : ∀ pair ∈ s.resolvedIndirect, s.ParamsWired pair.1 pair.2

namespace Settled
variable {base : Pag P} {pend pend' : NodeId → LocId → Prop} {s t : Solver P}

lemma imp (hs : Settled base pend s) (himp : ∀ {n l}, pend n l → pend' n l) :
    Settled base pend' s := by
  refine { hs with constraints := ?_, wired := ?_, calls := ?_ }
  · exact fun c hc => ⟨fun hk l hl => ((hs.constraints c hc).1 hk l hl).imp_left himp,
      fun hk l hl => ((hs.constraints c hc).2.1 hk l hl).imp_left himp,
      fun hk l hl hcell => ((hs.constraints c hc).2.2 hk l hl hcell).imp himp
        (And.imp_left fun hv x hx hadm => (hv x hx hadm).imp_left himp)⟩
  · exact fun pair hp => (hs.wired pair hp).imp_right fun hw l hl => (hw l hl).imp_left himp
  · exact fun hsite hl hf => (hs.calls hsite hl hf).imp_left himp

lemma advance (hs : Settled base pend s) (h : Advance s t) (himp : ∀ {n l}, pend n l → pend' n l)
    (hdelta : ∀ {n l}, l ∈ t.delta n → pend' n l) : Settled base pend' t where
  pag := hs.pag.trans h.pag
  constraints := by
    intro c hc
    rcases h.newConstraints hc with hold | hnew
    · exact h.done himp hdelta hold (hs.constraints c hold)
    · exact (Grows.refl (fun _ => False) t).done hdelta hdelta hc hnew
  cells := by
    intro dst cell hd
    rcases h.newCells hs.merged hd with hold | hnew
    · exact h.cellDone hold (hs.cells hold)
    · exact hnew
  wired := by
    intro pair hp
    rcases h.newWired hp with hold | hnew
    · exact h.wiredDone himp hdelta (hs.wired pair hold)
    · exact (Grows.refl (fun _ => False) t).wiredDone hdelta hdelta hnew
  kinds := fun hk => (h.newKinds hk).elim (fun hold => h.pag.joins (hs.kinds hold)) id
  calls := by
    intro n site l f hsite hl hf
    rw [h.pag.indirectByTarget] at hsite
    rw [h.pag.fnForLoc] at hf
    rcases h.fresh hl with hold | hnew
    · exact (hs.calls hsite hold hf).imp himp fun hc callee hcallee =>
        h.resolvedIndirect.subset (hc callee hcallee)
    · exact .inl (hdelta hnew)
  merged := h.merged hs.merged
  queued := h.queued hs.queued
  edgesResolved := h.edgesResolved hs.edgesResolved
  models := by
    intro edge hedge
    rcases h.newEdges edge hedge with hold | hnew
    · exact h.modelApplied (hs.models edge hold)
    · exact fun site hsite e he => (hnew site hsite e he).weaken hs.pag
  params := by
    intro pair hpair
    rcases h.newResolved pair hpair with hold | hnew
    · exact h.paramsWired (hs.params pair hold)
    · exact hnew

end Settled

section Pop
variable {ord : SetOrder} {base : Pag P} {node : NodeId} {delta : List LocId} {s : Solver P}

/-- Once a node's news have been processed, they are no longer in flight. -/
lemma Settled.processDelta (hs : Settled base (s.InFlight node delta) s) :
    Settled base (s.processDelta ord node delta).Pending (s.processDelta ord node delta) := by
  have hbefore := s.quiet_beforeCalls ord node delta
  have hcall := turn_callStep ord (s.beforeCalls ord node delta) node delta
  rw [← processDelta_eq] at hcall
  have hall := s.turn_processDelta ord node delta
  have hkept : Settled base ((s.processDelta ord node delta).InFlight node delta)
      (s.processDelta ord node delta) :=
    hs.advance hall.toAdvance (fun hf => hall.inFlight hf) fun hd => .inl hd
  refine { hkept with constraints := ?_, wired := ?_, calls := ?_ }
  · intro c hc
    rcases hall.newConstraints hc with hold | hnew
    · exact hcall.done (fun hd => hcall.delta _ hd) id (hbefore.pag.mem_constraints hold)
        (beforeCalls_done hs.merged hold (hs.constraints c hold))
    · exact hnew
  · intro pair hpair
    rcases hall.newWired hpair with hold | hnew
    swap
    · exact hnew
    refine ⟨(hkept.wired pair hpair).1, fun l hl => ?_⟩
    rcases (hkept.wired pair hpair).2 l hl with (hp | ⟨hsrc, hp⟩) | hdone
    · exact .inl hp
    · -- The pair has its copy, which has carried the news.
      obtain ⟨c, hc, hk, hdst, hcsrc⟩ := Pag.joins_iff.mp (hs.wired pair hold).1
      exact .inr (hcall.pts.subset (hdst ▸ beforeCalls_copies hc hk (hcsrc.trans hsrc) l hp))
    · exact .inr hdone
  · intro n site l f hsite hl hf
    rcases hkept.calls hsite hl hf with (hp | ⟨rfl, hp⟩) | hdone
    · exact .inl hp
    · rw [hcall.pag.indirectByTarget] at hsite
      rw [hcall.pag.fnForLoc] at hf
      rw [processDelta_eq]
      exact .inr fun callee hcallee => callStep_resolves hsite hp hf hcallee
    · exact .inr hdone

lemma advance_processOnce : Advance s (s.processOnce node) := by
  unfold processOnce
  split_ifs
  · exact (Inner.refl _ s).advance
  set m : Solver P := { s with seenOnce := s.seenOnce ++ [node] }
  have hseen : Advance s m := { (Inner.refl (fun _ => False) s).advance with }
  exact hseen.trans ((quiet_seedNode node m).trans
    (quiet_fold _ quiet_gepFallback _)).toInner.advance

lemma Settled.process {rest} (hs : Settled base s.Pending s) (hw : s.worklist = node :: rest) :
    Settled base ({ s with worklist := rest }.process ord node).Pending
      ({ s with worklist := rest }.process ord node) := by
  unfold Solver.process
  set r : Solver P := { s with worklist := rest }
  have hqueued : ∀ n, s.delta n ≠ [] → n ≠ node → n ∈ rest := by
    intro n hn hne
    have := hw ▸ hs.queued n hn
    exact (List.mem_cons.mp this).resolve_left hne
  split_ifs with he
  · have hrs : Settled base r.Pending r := by
      refine { hs with queued := fun n hn => hqueued n hn ?_ }
      rintro rfl
      exact hn he
    exact hrs.advance advance_processOnce (fun hd => advance_processOnce.delta _ hd) id
  refine Settled.processDelta ?_
  have hpend : ∀ {n l}, s.Pending n l → (r.takeDelta node).InFlight node (r.delta node) n l := by
    intro n l hp
    by_cases hn : n = node
    · exact .inr ⟨hn, hn ▸ hp⟩
    · refine .inl ?_
      simp only [takeDelta, Function.update_of_ne hn]
      exact hp
  have hsub := hs.imp hpend
  refine { hsub with queued := fun n hn => ?_ }
  by_cases hne : n = node
  · subst hne
    simp [takeDelta] at hn
  · refine hqueued n ?_ hne
    simpa only [takeDelta, Function.update_of_ne hne] using hn

end Pop
end Solver
end Pathologist.PointsTo

import Pathologist.PointsTo.Extension
import Pathologist.PointsTo.Wire

/-!
# Stores and calls are growth

The parts of a step that write memory and wire calls keep what `Grows` says. A store writes all
its cells before it tells their loaders; a wired actual is complete because the copy is seeded.
-/
open List
namespace Pathologist.PointsTo
open Lib.Fold
namespace Solver
variable {P : Program}

namespace StoreRun

/-- A store that has written the memory of `s₀`, and noted each cell that grew. -/
structure From (s₀ : Solver P) (run : StoreRun P) : Prop where
  inner : Inner (· ∈ run.requeues) s₀ run.solver
  solver : ∃ memory lapses, run.solver = { s₀ with memory, lapses }
  grown : run.requeues ≠ [] → s₀.memory.length < run.solver.memory.length

variable {s₀ : Solver P} {run : StoreRun P}

lemma From.init (s₀ : Solver P) : From s₀ { solver := s₀ } :=
  ⟨.refl _ s₀, ⟨_, _, rfl⟩, by simp⟩

lemma From.write (h : From s₀ run) (cell : LocId) (locs summaries : List LocId) : From s₀ {
      solver := run.solver.writeMemory cell locs
      summariesWritten := summaries
      requeues := run.requeues ++
        if run.solver.grewSince (run.solver.writeMemory cell locs) then [cell] else [] } := by
  set t := run.solver.writeMemory cell locs with ht
  have hwrite : Inner (· = cell) run.solver t := run.solver.inner_writeMemory cell locs rfl
  have hle := hwrite.memory.length_le
  refine ⟨?_, ?_, ?_⟩
  · refine (h.inner.mono fun c hc => mem_append_left _ hc).trans (hwrite.tell ?_)
    rintro c rfl
    cases hg : run.solver.grewSince t with
    | false =>
      have hmem := memory_eq_of_not_grewSince run.solver hwrite.memory hg
      exact .inr (.inr fun x hx => hmem ▸ hx)
    | true => exact .inl (by simp)
  · obtain ⟨memory, lapses, hs⟩ := h.solver
    obtain ⟨memory', lapses', hw⟩ := run.solver.writeMemory_eq cell locs
    exact ⟨memory', lapses', by rw [ht, hw, hs]⟩
  intro hne
  by_cases hold : run.requeues = []
  · have hg : run.solver.grewSince t = true := by
      by_contra hg
      simp [hold, hg] at hne
    have hlt : run.solver.memory.length < t.memory.length := by simpa [grewSince] using hg
    exact lt_of_le_of_lt h.inner.memory.length_le hlt
  · exact lt_of_lt_of_le (h.grown hold) hle

lemma From.storeTo (h : From s₀ run) (src own : List LocId) (srcHasFns : Bool) (loc : LocId) :
    From s₀ (run.storeTo src own srcHasFns loc) := by
  unfold StoreRun.storeTo
  split_ifs
  · have htarget : From s₀ (run.writeTarget src own srcHasFns loc) := h.write loc _ _
    unfold writeSummary
    dsimp only
    split
    · exact htarget
    · split
      · exact htarget.write _ _ _
      · exact htarget
  · exact h

lemma memory_prefix_writeSummary (src own : List LocId) (srcHasFns : Bool) (run : StoreRun P)
    (loc : LocId) :
    run.solver.memory <+: (run.writeSummary src own srcHasFns loc).solver.memory := by
  unfold writeSummary
  dsimp only
  split
  · exact prefix_refl _
  · split
    · exact run.solver.memory_prefix_writeMemory _ _
    · exact prefix_refl _

lemma memory_prefix_storeTo (src own : List LocId) (srcHasFns : Bool) (run : StoreRun P)
    (loc : LocId) :
    run.solver.memory <+: (run.storeTo src own srcHasFns loc).solver.memory := by
  unfold storeTo
  split_ifs
  · refine .trans ?_ (memory_prefix_writeSummary src own srcHasFns _ loc)
    exact run.solver.memory_prefix_writeMemory loc _
  · exact prefix_refl _

/-- A cell holds what a store writes to it: the values that its guard admits, and the source's
own location. -/
lemma From.mem_storeTo (h : From s₀ run) {src own} {srcHasFns : Bool} {loc : LocId}
    (hc : s₀.pag.isCell loc) :
    (∀ x ∈ src, s₀.admits loc x → (loc, x) ∈ (run.storeTo src own srcHasFns loc).solver.memory) ∧
      ∀ x ∈ own, (loc, x) ∈ (run.storeTo src own srcHasFns loc).solver.memory := by
  obtain ⟨memory, lapses, hs⟩ := h.solver
  have hpag : run.solver.pag = s₀.pag := by rw [hs]
  have hguard : run.solver.slotGuard = s₀.slotGuard := by rw [hs]
  have hstore : run.storeTo src own srcHasFns loc =
      (run.writeTarget src own srcHasFns loc).writeSummary src own srcHasFns loc := by
    unfold StoreRun.storeTo
    rw [hpag, if_pos hc]
  rw [hstore]
  have hsub :=
    (memory_prefix_writeSummary src own srcHasFns (run.writeTarget src own srcHasFns loc)
      loc).subset
  constructor
  · intro x hx hadm
    refine hsub (mem_writeMemory _ loc _ x (mem_append_left _ (mem_filter.mpr ⟨hx, ?_⟩)))
    rw [hpag, hguard]
    cases srcHasFns with
    | true => exact hadm
    | false => rfl
  · intro x hx
    exact hsub (mem_writeMemory _ loc _ x (mem_append_right _ hx))

end StoreRun

section Stores
variable (ord : SetOrder) (s : Solver P)

/-- The loaders of each cell that grew are told, and its owner takes in what it holds. -/
lemma quiet_requeues (cells : List LocId) {s₀} (h : Inner (· ∈ cells) s₀ s) :
    Inner (fun _ => False) s₀ (cells.foldl (requeue ord) s) := by
  have hstep : ∀ t, Inner (· ∈ cells) s t → ∀ c ∈ cells, Inner (· ∈ cells) t (t.requeue ord c) :=
    fun t _ c _ => (t.inner_touchLocHolders ord c _).trans
      ((quiet_syncCellToVar _ c).toInner.mono fun _ hf => hf.elim)
  have hfold : Inner (· ∈ cells) s (cells.foldl (requeue ord) s) :=
    foldl_rel (R := Inner (· ∈ cells)) Inner.trans cells (.refl _ s) hstep
  have htold : ∀ c ∈ cells, (cells.foldl (requeue ord) s).Told c := by
    refine foldl_all (R := Inner (· ∈ cells)) Inner.trans (Q := fun c t => t.Told c) cells
      (.refl _ s) hstep ?_ fun c t u h hc => h.told_of_told hc
    intro t _ c _
    exact (quiet_syncCellToVar _ c).told_of_told (t.touchLocHolders_told ord c)
  exact (h.trans hfold).tell fun c hc => .inr (.inl (htold c hc))

lemma refines_requeues (cells : List LocId) : s.pag.Refines (cells.foldl (requeue ord) s).pag :=
  foldl_rel (R := fun a b : Solver P => a.pag.Refines b.pag) Pag.Refines.trans cells
    (.refl _) fun t _ c _ => by
      have := (t.sameMemory_touchLocHolders ord c).pag
      exact (this ▸ .refl _ : t.pag.Refines _).trans (quiet_syncCellToVar _ c).refines

lemma storeRun_from (src own : List LocId) (srcHasFns : Bool) (targets : List LocId) :
    StoreRun.From s (targets.foldl (StoreRun.storeTo src own srcHasFns) { solver := s }) :=
  foldl_rel (R := fun _ (run : StoreRun P) => StoreRun.From s run) (fun _ h => h) targets
    (s := { solver := s }) (StoreRun.From.init s) fun _ hrun loc _ =>
      hrun.storeTo src own srcHasFns loc

lemma quiet_applyStoreToTargets (c : Constraint P) (targets written : Option (List LocId)) :
    Quiet s (s.applyStoreToTargets ord c targets written) := by
  unfold applyStoreToTargets
  dsimp only
  split_ifs
  · exact .refl s
  set run := List.foldl _ ({ solver := s } : StoreRun P) _
  have hfrom : StoreRun.From s run := storeRun_from s _ _ _ _
  obtain ⟨memory, lapses, hs⟩ := hfrom.solver
  have hcells : Inner (· ∈ run.requeues.eraseDups) s run.solver :=
    hfrom.inner.mono fun c hc => mem_eraseDups.mpr hc
  have hinner := quiet_requeues ord run.solver run.requeues.eraseDups hcells
  refine ⟨hinner, ?_, ?_⟩
  · have := refines_requeues ord run.solver run.requeues.eraseDups
    rwa [show run.solver.pag = s.pag by rw [hs]] at this
  by_cases hnil : run.requeues = []
  · rw [hnil]
    refine .inl ?_
    rw [eraseDups_nil, foldl_nil, hs]
  have hlt := hfrom.grown hnil
  have hgrow :
      Inner (fun _ => True) run.solver (run.requeues.eraseDups.foldl (requeue ord) run.solver) :=
    inner_fold _ (fun t c => (t.inner_touchLocHolders ord c _).trans
      ((quiet_syncCellToVar _ c).toInner.mono fun _ hf => hf.elim)) _
  have hle := hgrow.memory.length_le
  have := hinner.pts.length_le
  have := hinner.pag.locations_length_le
  have := hinner.wiredCopies.length_le
  unfold size
  omega

/-- The cells that a store goes to hold what it writes. -/
lemma mem_applyStoreToTargets (c : Constraint P) (targets written : Option (List LocId)) {l : LocId}
    (hl : l ∈ targets.getD (ord.walk (s.ptsOf c.dst))) (hc : s.pag.isCell l) :
    (∀ x, (c.src, x) ∈ s.pts → (∀ w, written = some w → x ∈ w) → s.admits l x →
      (l, x) ∈ (s.applyStoreToTargets ord c targets written).memory) ∧
    ∀ own, s.pag.selfLoc c.src = some own →
      (l, own) ∈ (s.applyStoreToTargets ord c targets written).memory := by
  unfold applyStoreToTargets
  dsimp only
  split_ifs with he
  · refine ⟨fun x hx => ?_, fun own hown => ?_⟩
    · exact absurd (mem_ptsOf.mpr hx) (by simp [he.1])
    · simp [hown] at he
  set src := written.getD (ord.walk (s.ptsOf c.src)) with hsrc
  set own := (s.pag.selfLoc c.src).toList with hown
  set srcHasFns := src.any fun l => (s.pag.fnForLoc l).isSome
  set targets' := targets.getD (ord.walk (s.ptsOf c.dst))
  set run := targets'.foldl (StoreRun.storeTo src own srcHasFns) { solver := s }
  have hsub : run.solver.memory ⊆ (run.requeues.eraseDups.foldl (requeue ord) run.solver).memory :=
    (foldl_rel (R := fun a b : Solver P => a.memory <+: b.memory) IsPrefix.trans _
      (prefix_refl _) fun t _ cell _ =>
        ((t.inner_touchLocHolders ord cell fun _ => False).trans
          (quiet_syncCellToVar _ cell).toInner).memory).subset
  have hwritten : (∀ x ∈ src, s.admits l x → (l, x) ∈ run.solver.memory) ∧
      ∀ x ∈ own, (l, x) ∈ run.solver.memory := by
    refine foldl_all
      (R := fun a b : StoreRun P => StoreRun.From s b ∧ a.solver.memory <+: b.solver.memory)
      (fun h₁ h₂ => ⟨h₂.1, h₁.2.trans h₂.2⟩)
      (Q := fun l (run : StoreRun P) => s.pag.isCell l →
        (∀ x ∈ src, s.admits l x → (l, x) ∈ run.solver.memory) ∧
          ∀ x ∈ own, (l, x) ∈ run.solver.memory)
      targets' (s := { solver := s }) ⟨StoreRun.From.init s, prefix_refl _⟩ ?_ ?_ ?_ l hl hc
    · intro r hr loc _
      exact ⟨hr.1.storeTo src own srcHasFns loc, r.memory_prefix_storeTo src own srcHasFns loc⟩
    · intro r hr loc _ hloc
      exact hr.1.mem_storeTo hloc
    · intro loc a b hab hq hloc
      exact ⟨fun x hx hadm => hab.2.subset ((hq hloc).1 x hx hadm),
        fun x hx => hab.2.subset ((hq hloc).2 x hx)⟩
  refine ⟨fun x hx hw hadm => hsub (hwritten.1 x ?_ hadm), fun o ho =>
    hsub (hwritten.2 o (by simp [hown, ho]))⟩
  rw [hsrc]
  cases written with
  | none => simpa using hx
  | some w => exact hw w rfl

end Stores

section Copies
variable (s : Solver P)

lemma quiet_note {lapses} (hl : s.lapses ⊆ lapses) {panicked : Bool} (h : s.panicked → panicked) :
    Quiet s { s with lapses, panicked } where
  toInner := ⟨{ Grows.refl _ s with
    lapses := hl
    panicked := h
    cells := .inl
    ownLocation := fun _ _ hn own hs => absurd (hn.symm.trans hs) (by simp)
    newConstraints := .inl
    newCells := fun _ => .inl }, rfl, rfl, rfl⟩
  refines := .refl _
  work := .inl rfl

lemma quiet_noteLapses (noted : List Lapse) : Quiet s { s with lapses := s.lapses ++ noted } :=
  s.quiet_note (subset_append_left _ _) id

lemma quiet_panic : Quiet s s.panic := s.quiet_note (Subset.refl _) fun _ => rfl

/-- Growth after a constraint has been added, which is complete at the end. -/
lemma inner_of_addConstraint {untold} {s t : Solver P} {c}
    (hk : c.kind = .copy ∨ c.kind = .addrOf ∨ c.kind = .store)
    (h : Inner untold { s with pag := s.pag.addConstraint c } t) (hdone : t.Done t.Pending c) :
    Inner untold s t := by
  refine { h with
    pag := (s.pag.extends_addConstraint hk).trans h.pag
    ownLocation := fun hc => h.ownLocation (mem_append_left _ hc)
    newConstraints := fun {d} hd => ?_ }
  rcases h.newConstraints hd with hold | hnew
  · rcases mem_append.mp hold with hold | hnew
    · exact .inl hold
    · exact .inr (mem_singleton.mp hnew ▸ hdone)
  · exact .inr hnew

/-- Growth after a pair has been counted as wired, which is complete at the end. -/
lemma inner_of_wiredCopy {untold} {s t : Solver P} {pair}
    (h : Inner untold { s with wiredCopies := s.wiredCopies ++ [pair] } t)
    (hd : t.WiredDone t.Pending pair) : Inner untold s t := by
  refine { h with
    wiredCopies := (prefix_append _ _).trans h.wiredCopies
    newWired := fun {p} hp => ?_ }
  rcases h.newWired hp with hold | hnew
  · rcases mem_append.mp hold with hold | hnew
    · exact .inl hold
    · exact .inr (mem_singleton.mp hnew ▸ hd)
  · exact .inr hnew

variable (actual formal : NodeId)

/-- A copy is added, and its source may be queued. -/
lemma ensureParamCopy_frame : ∃ worklist,
    s.ensureParamCopy actual formal = { s with pag := s.pag.addCopy formal actual, worklist } := by
  unfold ensureParamCopy push
  dsimp only
  split_ifs <;> exact ⟨_, rfl⟩

/-- A copy added now is done once what its source holds has been propagated. -/
lemma inner_ensureParamCopy {t} (h : Inner (fun _ => False) (s.ensureParamCopy actual formal) t)
    (hd : ∀ l, (actual, l) ∈ s.pts →
      l ∈ t.delta actual ∨ (formal, l) ∈ t.pts ∨ Lapse.copy actual formal l ∈ t.lapses) :
    Inner (fun _ => False) s t := by
  have hcopy : Inner (fun _ => False) { s with pag := s.pag.addCopy formal actual } t := by
    unfold ensureParamCopy at h
    split_ifs at h
    · exact h
    · exact (inner_push _ actual _).trans h
  refine inner_of_addConstraint (.inl rfl) hcopy
    ⟨fun _ l hl => ?_, fun hk => absurd hk (by simp), fun hk => absurd hk (by simp)⟩
  rcases hcopy.fresh hl with hold | hnew
  · exact hd l hold
  · exact .inl hnew

end Copies

section Arguments
variable (ord : SetOrder) (site : P.Site) (s : Solver P) (callee : P.Fn) (actualOf : ℕ → Option ℕ)
variable (invoked : Invoked)

/-- A wired actual reaches the formal at once. -/
lemma quiet_wireCopy (actual formal : NodeId) :
    Quiet s ((s.wireCopy actual formal).propagateLocs formal
      (ord.walk ((s.wireCopy actual formal).ptsOf actual))) := by
  by_cases hwired : (actual, formal) ∈ s.wiredCopies
  · rw [wireCopy, if_pos hwired]
    exact s.quiet_propagateLocs formal _
  set w : Solver P := { s with wiredCopies := s.wiredCopies ++ [(actual, formal)] } with hw
  have hwire : s.wireCopy actual formal = w.ensureParamCopy actual formal := by
    rw [wireCopy, if_neg hwired]
  rw [hwire]
  set m := w.ensureParamCopy actual formal with hm
  set t := m.propagateLocs formal (ord.walk (m.ptsOf actual))
  obtain ⟨worklist, hf⟩ := w.ensureParamCopy_frame actual formal
  have hmpts : m.pts = s.pts := by rw [hm, hf]
  have hpag : m.pag = s.pag.addCopy formal actual := by rw [hm, hf]
  have hquiet : Quiet m t := m.quiet_propagateLocs formal _
  have hreached : ∀ l, (actual, l) ∈ s.pts → (formal, l) ∈ t.pts := fun l hl =>
    m.mem_propagateLocs formal _ l (by simpa [hmpts] using hl)
  have hinner : Inner (fun _ => False) w t :=
    w.inner_ensureParamCopy actual formal hquiet.toInner fun l hl => .inr (.inl (hreached l hl))
  refine ⟨inner_of_wiredCopy hinner ⟨?_, fun l hl => ?_⟩, ?_, .inr ?_⟩
  · exact hquiet.pag.joins (hpag ▸ Pag.joins_addConstraint s.pag _)
  · exact (hinner.fresh hl).elim (fun hold => .inr (hreached l hold)) .inl
  · exact (s.pag.refines_addCopy formal actual).trans (hpag ▸ hquiet.refines)
  have := hinner.pts.length_le
  have := hinner.memory.length_le
  have := hinner.pag.locations_length_le
  have hlen := hinner.wiredCopies.length_le
  simp only [hw, length_append, length_singleton] at *
  unfold size
  omega

lemma quiet_wireActual (formal : P.Var) (index : ℕ) :
    Quiet s (s.wireActual ord site formal index) := by
  unfold wireActual
  split
  · split
    · split_ifs
      · exact s.quiet_wireCopy ord _ _
      · exact s.quiet_propagateLocs _ _
    · exact s.quiet_panic
  dsimp only
  split_ifs
  · exact .refl s
  · split
    · exact s.quiet_propagateLocs _ _
    · exact s.quiet_panic

/-- A formal has been wired to the actual at a position, unless the solve has failed. -/
def WiredAt (s : Solver P) (site : P.Site) (formal : P.Var) (index : ℕ) : Prop :=
  s.panicked = true ∨ ∀ actual, P.actualAt site index = some actual →
    ∃ a f, s.pag.varNode actual = some a ∧ s.pag.varNode formal = some f ∧
      (P.varMayHoldPointee actual → P.varMayHoldPointee formal → (a, f) ∈ s.wiredCopies)

lemma Grows.wiredAt {untold s t} (h : Grows untold s t) {site : P.Site} {formal : P.Var} {index : ℕ}
    (hs : s.WiredAt site formal index) : t.WiredAt site formal index := by
  rcases hs with hp | hw
  · exact .inl (h.panicked hp)
  · refine .inr fun actual hactual => ?_
    obtain ⟨a, f, ha, hf, hwired⟩ := hw actual hactual
    exact ⟨a, f, h.pag.varNode ha, h.pag.varNode hf, fun h₁ h₂ =>
      h.wiredCopies.subset (hwired h₁ h₂)⟩

lemma wireActual_wiredAt (formal : P.Var) (index : ℕ) :
    (s.wireActual ord site formal index).WiredAt site formal index := by
  unfold wireActual
  split
  · next actual hactual =>
    split
    · next f a hf ha =>
      refine .inr fun actual' hac' => ?_
      obtain rfl : actual = actual' := Option.some.inj (hactual.symm.trans hac')
      have hmem : (a, f) ∈ (s.wireCopy a f).wiredCopies := by
        unfold wireCopy ensureParamCopy push
        dsimp only
        split_ifs with hin <;> simp_all
      have hwirePag :
          ∀ v n, s.pag.varNode v = some n → (s.wireCopy a f).pag.varNode v = some n := by
        intro v n hv
        unfold wireCopy ensureParamCopy push
        dsimp only
        split_ifs <;> exact hv
      split_ifs with hmay
      · have hquiet := (s.wireCopy a f).quiet_propagateLocs f (ord.walk ((s.wireCopy a f).ptsOf a))
        exact ⟨a, f, hquiet.pag.varNode (hwirePag _ _ ha), hquiet.pag.varNode (hwirePag _ _ hf),
          fun _ _ => hquiet.wiredCopies.subset hmem⟩
      have hquiet := s.quiet_propagateLocs f (ord.walk (s.ptsOf a))
      refine ⟨a, f, hquiet.pag.varNode ha, hquiet.pag.varNode hf, fun h₁ h₂ => absurd ?_ hmay⟩
      rw [h₁, h₂]
      rfl
    · exact .inl rfl
  · next hn =>
    refine .inr fun actual hactual => ?_
    exact absurd (hn.symm.trans hactual) (by simp)

lemma quiet_wireFormal (formal : P.Var × ℕ) : Quiet s (match actualOf formal.2 with
      | some index => s.wireActual ord site formal.1 index
      | none => s) := by
  split
  · exact s.quiet_wireActual ord site _ _
  · exact .refl s

lemma quiet_wireActuals : Quiet s (s.wireActuals ord site callee actualOf) :=
  s.quiet_fold (fun t formal => t.quiet_wireFormal ord site actualOf formal) _

lemma wireActuals_wiredAt :
    ∀ formal ∈ (P.params callee).zipIdx, ∀ index, actualOf formal.2 = some index →
      (s.wireActuals ord site callee actualOf).WiredAt site formal.1 index := by
  refine foldl_all (R := Quiet) Quiet.trans
    (Q := fun (formal : P.Var × ℕ) (t : Solver P) => ∀ index, actualOf formal.2 = some index →
      t.WiredAt site formal.1 index) _ (.refl s)
        (fun t _ formal _ => t.quiet_wireFormal ord site actualOf formal) ?_
    fun formal t u h hq index hi => h.wiredAt (hq index hi)
  intro t _ formal _ index hindex
  simp only [hindex]
  exact t.wireActual_wiredAt ord site formal.1 index

lemma quiet_wireParams : Quiet s (s.wireParams ord site callee) :=
  s.quiet_wireActuals ord site callee some

lemma quiet_wireCallback (callback : P.Fn) : Quiet s (s.wireCallback ord site invoked callback) :=
  foldl_rel (R := Quiet) Quiet.trans _ (.refl s) fun t _ target _ =>
    t.quiet_fold (fun u _ => u.quiet_wireActuals ord site target.1 _) _

lemma quiet_watchCallback (v : P.Var) : Quiet s (s.watchCallback ord site invoked v) := by
  unfold watchCallback
  split
  · exact .refl s
  next node _ =>
  split_ifs
  · exact .refl s
  have hwatch : Quiet s { s with invokeWatch := s.invokeWatch ++ [(node, site, invoked)] } :=
    SameMemory.quiet ⟨rfl, rfl, rfl, rfl, rfl, rfl, rfl, rfl, rfl, rfl, rfl⟩ rfl rfl rfl rfl
  exact hwatch.trans (quiet_fold _ (fun t callback =>
    t.quiet_wireCallback ord site invoked callback) _)

lemma quiet_wireInvocation : Quiet s (s.wireInvocation ord site invoked) := by
  unfold wireInvocation
  split_ifs
  · exact .refl s
  have hnamed : Quiet s ((argsAt (P.fnArgs site) (P.invokeSiteIndex site invoked.param)).foldl
      (wireCallback ord site invoked) s) :=
    s.quiet_fold (fun t callback => t.quiet_wireCallback ord site invoked callback) _
  exact hnamed.trans (quiet_fold _ (fun t v => t.quiet_watchCallback ord site invoked v) _)

lemma quiet_wireInvocations : Quiet s (s.wireInvocations ord site callee) :=
  s.quiet_fold (fun t invoked => t.quiet_wireInvocation ord site invoked) _

end Arguments

section Graphs
variable {s : Solver P}

lemma admits_of_extends {p q : Pag P} (h : p.Extends q) (filter : FnFilter) (x : LocId) :
    filter.admits q x = filter.admits p x := by
  unfold FnFilter.admits Pag.fnArity
  simp [h.fnForLoc]

lemma admits_withPag {q : Pag P} (hq : s.pag.Extends q) {cell x : LocId} :
    ({ s with pag := q } : Solver P).admits cell x = s.admits cell x := admits_of_extends hq _ x

lemma merged_withPag {q : Pag P} (hq : s.pag.Extends q) (hm : s.Merged) :
    ({ s with pag := q } : Solver P).Merged := fun n cell =>
  ⟨(hm n cell).1, fun x hx hadm => (hm n cell).2 x hx (admits_withPag hq ▸ hadm)⟩

/-- Growth after the graph has been extended, the stores of new locations having been noted. The
constraints that the graph gains are complete at the end. -/
lemma inner_of_extends {untold} {q : Pag P} {t} (hq : s.pag.Extends q)
    (h : Inner untold ({ s with pag := q }.noteOwnLocations s.pag) t)
    (hdone : ∀ c ∈ q.constraints, c ∉ s.pag.constraints → t.Done t.Pending c) :
    Inner untold s t := by
  have hmerged : s.Merged → ({ s with pag := q }.noteOwnLocations s.pag).Merged :=
    fun hm => merged_withPag (s := s) hq hm
  refine { h with
    pag := hq.trans h.pag
    lapses := fun _ hl => h.lapses (mem_append_left _ hl)
    admits := fun hx => admits_withPag hq ▸ h.admits hx
    merged := fun hm => h.merged (hmerged hm)
    newCells := fun hm => h.newCells (hmerged hm)
    ownLocation := fun {c} hc hk hn own hs l hl hcell => ?_
    newConstraints := fun {c} hc => ?_ }
  · have hcq : c ∈ q.constraints := hq.mem_constraints hc
    cases hmid : q.selfLoc c.src with
    | none => exact h.ownLocation hcq hk hmid own hs l hl hcell
    | some own' =>
      rcases h.fresh hl with hold | hnew
      swap
      · exact .inl hnew
      by_cases hd : l ∈ s.delta c.dst
      · exact .inl (h.delta _ hd)
      refine .inr (h.lapses (mem_append_right _ ?_))
      refine mem_flatMap.mpr ⟨c, mem_filter.mpr ⟨hcq, ?_⟩, ?_⟩
      · simp [hk, hn, hmid]
      · refine mem_map.mpr ⟨l, mem_filter.mpr ⟨mem_ptsOf.mpr hold, ?_⟩, rfl⟩
        have hce' : q.isCell l = true := h.pag.isCell l ▸ hcell
        simpa [hd] using hce'
  · rcases h.newConstraints hc with hmid | hnew
    · by_cases hold : c ∈ s.pag.constraints
      · exact .inl hold
      · exact .inr (hdone c hmid hold)
    · exact .inr hnew

/-- A graph with more cells of fields, where no location is new to a store. -/
lemma quiet_of_refines {q : Pag P} (hq : s.pag.Refines q) (hc : q.constraints = s.pag.constraints) :
    Quiet s { s with pag := q } where
  toInner := ⟨{
    Grows.refl (fun _ => False) s with
    pag := hq.toExtends
    admits := fun hx => admits_withPag hq.toExtends ▸ hx
    merged := merged_withPag hq.toExtends
    told := .inl
    cells := .inl
    ownLocation := by
      intro c _ _ hn own hs
      rw [hq.selfLoc_eq, hn] at hs
      exact absurd hs (by simp)
    newConstraints := fun {c} h => .inl (hc ▸ h)
    newCells := fun _ => .inl
    newWired := .inl
    newKinds := .inl }, rfl, rfl, rfl⟩
  refines := hq
  work := .inl rfl

end Graphs

section Models
variable (ord : SetOrder) (site : P.Site) (s : Solver P)

lemma quiet_noteWired (kind : ConstraintKind) (src dst : NodeId) :
    Quiet s (s.noteWired kind src dst) := by
  unfold noteWired
  split_ifs
  · exact .refl s
  · exact s.quiet_noteLapses _

/-- A pair is wired by a constraint that the graph has. -/
lemma quiet_noteKind {kind : ConstraintKind} {src dst : NodeId}
    (h : s.pag.joins kind dst src = true) : Quiet s (s.noteKind kind src dst) := by
  refine ⟨⟨{ Grows.refl (fun _ => False) s with
    wiredKinds := subset_append_left _ _
    told := .inl
    cells := .inl
    newConstraints := .inl
    newCells := fun _ => .inl
    newWired := .inl
    newKinds := fun hk => ?_ }, rfl, rfl, rfl⟩, .refl _, .inl rfl⟩
  rcases mem_append.mp hk with hold | hnew
  · exact .inl hold
  · cases mem_singleton.mp hnew
    exact .inr h

lemma ensureParamCopy_joins (src dst : NodeId) :
    (s.ensureParamCopy src dst).pag.joins .copy dst src = true := by
  unfold ensureParamCopy push
  dsimp only
  split_ifs <;> exact Pag.joins_addConstraint _ _

lemma inner_wireModelCopy (src dst : NodeId) :
    Inner (fun _ => False) s (s.wireModelCopy src dst) := by
  unfold wireModelCopy
  split_ifs
  · exact (s.quiet_noteWired _ _ _).toInner
  set w : Solver P := { s with wiredModelEdges := s.wiredModelEdges ++ [(src, dst)] }
  have hwire : Quiet s w :=
    SameMemory.quiet ⟨rfl, rfl, rfl, rfl, rfl, rfl, rfl, rfl, rfl, rfl, rfl⟩ rfl rfl rfl rfl
  have hnote : Quiet w (w.noteCopy src dst) := w.quiet_noteLapses _
  have hkind := quiet_noteKind _ ((w.noteCopy src dst).ensureParamCopy_joins src dst)
  refine ((hwire.trans hnote).toInner.trans
    (inner_ensureParamCopy _ src dst (.refl _ _) fun l hl => ?_)).trans hkind.toInner
  obtain ⟨worklist, hf⟩ := (w.noteCopy src dst).ensureParamCopy_frame src dst
  rw [hf]
  by_cases hd : l ∈ w.delta src
  · exact .inl hd
  by_cases hp : (dst, l) ∈ w.pts
  · exact .inr (.inl hp)
  · refine .inr (.inr (mem_append_right _ (mem_map.mpr ⟨l, mem_filter.mpr ⟨?_, ?_⟩, rfl⟩)))
    · exact mem_ptsOf.mpr hl
    · simpa using ⟨hd, hp⟩

lemma inner_wireModelCopyArgs (dst src : ℕ) :
    Inner (fun _ => False) s (s.wireModelCopyArgs site dst src) := by
  unfold wireModelCopyArgs
  split
  · exact s.inner_wireModelCopy _ _
  · exact .refl _ s

lemma inner_wireEpollCopy (src dst : NodeId) :
    Inner (fun _ => False) s (s.wireEpollCopy ord src dst) := by
  have hpts : (s.ensureParamCopy src dst).pts = s.pts := by
    obtain ⟨worklist, hf⟩ := s.ensureParamCopy_frame src dst
    rw [hf]
  refine s.inner_ensureParamCopy src dst (quiet_propagateLocs _ dst _).toInner fun l hl =>
    .inr (.inl ?_)
  refine mem_propagateLocs _ dst _ l ?_
  simpa [hpts] using hl

lemma inner_seedArray (node : NodeId) : Inner (fun _ => False) s (s.seedArray node) := by
  unfold seedArray
  split
  · next v _ =>
    split_ifs
    · refine inner_of_extends (s.pag.extends_ensureVarLoc v) (quiet_addPts _ node _).toInner ?_
      intro c hc hnew
      exact absurd (s.pag.ensureVarLoc_constraints v ▸ hc) hnew
    · exact .refl _ s
  · exact .refl _ s

lemma inner_epollRegister (node : NodeId) :
    Inner (fun _ => False) s (s.epollRegister ord node) := by
  unfold epollRegister
  dsimp only
  split_ifs
  · exact .refl _ s
  · exact s.inner_seedArray node
  set m := s.seedArray node
  have hreg : Quiet m { m with epollRegistered := m.epollRegistered ++ [node] } :=
    SameMemory.quiet ⟨rfl, rfl, rfl, rfl, rfl, rfl, rfl, rfl, rfl, rfl, rfl⟩ rfl rfl rfl rfl
  exact ((s.inner_seedArray node).trans hreg.toInner).trans
    (inner_fold _ (fun t dst => t.inner_wireEpollCopy ord node dst) _)

lemma inner_epollWait (node : NodeId) : Inner (fun _ => False) s (s.epollWait ord node) := by
  unfold epollWait
  split_ifs
  · exact .refl _ s
  have hreg : Quiet s { s with epollWaiting := s.epollWaiting ++ [node] } :=
    SameMemory.quiet ⟨rfl, rfl, rfl, rfl, rfl, rfl, rfl, rfl, rfl, rfl, rfl⟩ rfl rfl rfl rfl
  exact hreg.toInner.trans (inner_fold _ (fun t src => t.inner_wireEpollCopy ord src node) _)

/-- A store that has been fired with all that both of its sides hold is complete. -/
lemma storeDone_applyStoreToTargets (c : Constraint P) :
    (s.applyStoreToTargets ord c none none).StoreDone
      (s.applyStoreToTargets ord c none none).Pending
      (s.applyStoreToTargets ord c none none).Pending c := by
  have hquiet := s.quiet_applyStoreToTargets ord c none none
  intro l hl hc
  rcases hquiet.fresh hl with hold | hnew
  swap
  · exact .inl hnew
  rw [hquiet.pag.isCell] at hc
  have hmem := s.mem_applyStoreToTargets ord c none none (l := l) (by simpa using hold) hc
  refine .inr ⟨fun x hx hadm => ?_, fun own hown => .inl (hmem.2 own ?_)⟩
  · rcases hquiet.fresh hx with hxold | hxnew
    · exact .inr (hmem.1 x hxold (fun w hw => absurd hw (by simp)) (hquiet.admits hadm))
    · exact .inl hxnew
  · exact hquiet.refines.selfLoc_eq c.src ▸ hown

lemma inner_contentStore (ptr value : NodeId) :
    Inner (fun _ => False) s (s.contentStore ord ptr value) := by
  unfold contentStore
  split_ifs
  · exact (s.quiet_noteWired _ _ _).toInner
  set w : Solver P := { s with wiredModelEdges := s.wiredModelEdges ++ [(value, ptr)] }
  have hwire : Quiet s w :=
    SameMemory.quiet ⟨rfl, rfl, rfl, rfl, rfl, rfl, rfl, rfl, rfl, rfl, rfl⟩ rfl rfl rfl rfl
  set c : Constraint P := { kind := .store, dst := ptr, src := value }
  set stored := { w with pag := w.pag.addConstraint c }.applyStoreToTargets ord c none none
  have hsto : Quiet { w with pag := w.pag.addConstraint c } stored :=
    quiet_applyStoreToTargets ord _ c none none
  have hkind : Quiet stored (stored.noteKind .store value ptr) :=
    quiet_noteKind _ (hsto.pag.joins (Pag.joins_addConstraint _ c))
  refine (hwire.toInner.trans (inner_of_addConstraint (s := w) (.inr (.inr rfl)) hsto.toInner
    ⟨?_, ?_, fun _ => ?_⟩)).trans hkind.toInner
  · exact fun hk => absurd hk (by simp [c])
  · exact fun hk => absurd hk (by simp [c])
  · exact storeDone_applyStoreToTargets ord _ _

lemma inner_applyEffect (e : Effect) : Inner (fun _ => False) s (s.applyEffect ord site e) := by
  unfold applyEffect
  split
  · split_ifs
    · exact .refl _ s
    · exact s.inner_wireModelCopyArgs site _ _
  · exact s.inner_wireModelCopyArgs site _ _
  · split
    · exact s.inner_epollRegister ord _
    · exact .refl _ s
  · split
    · exact s.inner_epollWait ord _
    · exact .refl _ s
  · split
    · exact s.inner_contentStore ord _ _
    · exact .refl _ s
  · exact .refl _ s

lemma inner_applyFnModel (callee : P.Fn) :
    Inner (fun _ => False) s (s.applyFnModel ord site callee) :=
  s.inner_fold (fun t e => t.inner_applyEffect ord site e) _

end Models
end Solver
end Pathologist.PointsTo

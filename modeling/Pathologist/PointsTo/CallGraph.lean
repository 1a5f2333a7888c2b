import Pathologist.PointsTo.Fixpoint

/-!
# The call graph of a solve

The call graph is found while the points-to sets are. At the end every indirect call has one
edge for each definition that its target may hold, with its arguments passed on; and a larger
budget only continues the run of a smaller one.
-/
open List
namespace Pathologist.PointsTo
variable {P : Program}

namespace Solver

lemma notMem_of_mem_unseen {seen found : List (P.Site × P.Fn)} {pair : P.Site × P.Fn}
    (h : pair ∈ unseen seen found) : pair ∉ seen := by
  have hfresh : ∀ (xs fresh : List (P.Site × P.Fn)), (∀ p ∈ fresh, p ∉ seen) →
      ∀ p ∈ xs.foldl (fun fresh pair => if pair ∈ seen ∨
        pair ∈ fresh then fresh else fresh ++ [pair])
        fresh, p ∉ seen := by
    intro xs
    induction xs with
    | nil => exact fun _ h => h
    | cons x xs ih =>
      intro fresh hf
      refine ih _ ?_
      dsimp only
      split_ifs with hx
      · exact hf
      intro p hp
      rcases mem_append.mp hp with hp | hp
      · exact hf p hp
      · rw [mem_singleton.mp hp]
        exact fun hs => hx (.inl hs)
  exact hfresh found [] (by simp) pair h

/-- A callback edge is none of the calls that the solver has found. -/
lemma not_found_of_mem_callbackEdges {ord : SetOrder} {s : Solver P} {edge}
    (h : edge ∈ s.callbackEdges ord) {found} (hf : found ∈ s.callEdges)
    (hs : found.callSite = edge.callSite) : found.callee ≠ edge.callee := by
  obtain ⟨⟨site, callee⟩, hp, rfl⟩ := mem_map.mp h
  have hnew := notMem_of_mem_unseen (mem_mergeSort.mp hp)
  rintro heq
  refine hnew (mem_filterMap.mpr ⟨found, hf, ?_⟩)
  simp only [edgeOf] at hs heq
  simp [hs, heq]

/-- A resolved pair has one indirect edge among those that the solver has found. -/
lemma EdgesResolved.countP_eq_one {s : Solver P} (hs : s.EdgesResolved) {site : P.Site}
    {callee : P.Fn} (hp : (site, callee) ∈ s.resolvedIndirect) :
    s.callEdges.countP (fun edge => edge.callSite = some site ∧ edge.callee = callee ∧
      edge.resolution = .indirect) = 1 := by
  have hsplit : s.callEdges.countP (fun edge => edge.callSite = some site ∧ edge.callee = callee ∧
      edge.resolution = .indirect) =
      (s.callEdges.filter fun edge => edge.resolution = .indirect).countP
        fun edge => edge.callSite = some site ∧ edge.callee = callee := by
    rw [countP_filter]
    refine countP_congr fun edge _ => ?_
    simp [and_assoc]
  rw [hsplit, hs.1, countP_map]
  have hcount := count_eq_one_of_mem hs.2 hp
  rw [← hcount]
  refine countP_congr fun pair _ => ?_
  obtain ⟨site', callee'⟩ := pair
  simp [edgeOf]

end Solver

/-- A converged solve has closed the call graph: each definition that the target of an indirect
call may hold has one edge there, and its formals hold what the actuals hold. -/
theorem indirect_calls_closed {ord : SetOrder} {budget : Budget} {fuel : ℕ} {out : SolveOutcome P}
    (hrun : analyze P ord budget fuel = some out) (hconverged : out.converged = true)
    (hreturns : out.solver.panicked = false) {site : P.Site} {target : NodeId}
    (htarget : site ∈ out.solver.pag.indirectByTarget target) {l : LocId}
    (hl : l ∈ out.solver.ptsOf target) {f : P.Fn} (hf : out.solver.pag.fnForLoc l = some f)
    {callee : P.Fn} (hcallee : callee ∈ P.reachedDefinitions f (P.fnTarget (P.caller site))) :
    (out.callEdges ord).countP (fun edge => edge.callSite = some site ∧ edge.callee = callee ∧
      edge.resolution = .indirect) = 1 ∧
    ∀ formal ∈ (P.params callee).zipIdx, ∀ actual, P.actualAt site formal.2 = some actual →
      P.varMayHoldPointee actual → P.varMayHoldPointee formal.1 →
        ∃ a n, out.solver.pag.varNode actual = some a ∧ out.solver.pag.varNode formal.1 = some n ∧
          out.solver.ptsOf a ⊆ out.solver.ptsOf n := by
  have hsettled := Solver.settled_solve hrun hconverged
  have hpair : (site, callee) ∈ out.solver.resolvedIndirect :=
    (hsettled.calls htarget (Solver.mem_ptsOf.mp hl) hf).resolve_left id callee hcallee
  have hone := hsettled.edgesResolved.countP_eq_one hpair
  constructor
  · have hcallbacks : (out.solver.callbackEdges ord).countP (fun edge => edge.callSite = some site ∧
        edge.callee = callee ∧ edge.resolution = .indirect) = 0 := by
      refine countP_eq_zero.mpr fun edge hedge hsame => ?_
      simp only [decide_eq_true_eq] at hsame
      obtain ⟨found, hfound, hfs⟩ := countP_pos_iff.mp (hone ▸ Nat.one_pos)
      simp only [decide_eq_true_eq] at hfs
      exact Solver.not_found_of_mem_callbackEdges hedge hfound (hfs.1.trans hsame.1.symm)
        (hfs.2.1.trans hsame.2.1.symm)
    have hbridges : (Solver.bridgeEdges P).countP (fun edge => edge.callSite = some site ∧
        edge.callee = callee ∧ edge.resolution = .indirect) = 0 := by
      refine countP_eq_zero.mpr fun edge hedge => ?_
      obtain ⟨bridge, -, rfl⟩ := mem_map.mp hedge
      simp
    unfold SolveOutcome.callEdges
    rw [countP_append, countP_append, hone, hcallbacks, hbridges]
  · intro formal hformal actual hactual hpa hpf
    rcases hsettled.params _ hpair formal hformal with hpanic | hwired
    · exact absurd (hpanic.symm.trans hreturns) (by simp)
    obtain ⟨a, n, ha, hn, hcopy⟩ := hwired actual hactual
    refine ⟨a, n, ha, hn, fun x hx => ?_⟩
    simp only [Solver.mem_ptsOf] at hx ⊢
    exact ((hsettled.wired _ (hcopy hpa hpf)).2 x hx).resolve_left id

theorem indirect_calls_closed_of_pointerCall :
    ∃ out, analyze pointerCall .asFound {} 20 = some out ∧ ∃ site callee,
      (out.callEdges .asFound).countP (fun edge => edge.callSite = some site ∧
        edge.callee = callee ∧ edge.resolution = .indirect) = 1 ∧
      pointerCall.params callee ≠ [] := by
  obtain ⟨out, hrun, hconverged, hreturns, site, -, target, -, htarget, l, hl, f, -, hf, hcallee,
      hparams⟩ :
      ∃ out, analyze pointerCall .asFound {} 20 = some out ∧ out.converged = true ∧
        out.solver.panicked = false ∧ ∃ site ∈ pointerCall.callSites, ∃ target ∈ List.range 20,
          site ∈ out.solver.pag.indirectByTarget target ∧ ∃ l ∈ out.solver.ptsOf target,
            ∃ f ∈ pointerCall.functions, out.solver.pag.fnForLoc l = some f ∧
              f ∈ pointerCall.reachedDefinitions f
                (pointerCall.fnTarget (pointerCall.caller site)) ∧
              pointerCall.params f ≠ [] :=
    exists_outcome (by decide +kernel)
  exact ⟨out, hrun, site, f,
    (indirect_calls_closed hrun hconverged hreturns htarget hl hf hcallee).1, hparams⟩

namespace Solver

/-- What a later state of a run has kept. -/
structure Later (s t : Solver P) : Prop where
  pts : s.pts <+: t.pts
  callEdges : s.callEdges <+: t.callEdges

lemma Later.refl (s : Solver P) : Later s s := ⟨prefix_refl _, prefix_refl _⟩

variable {s : Solver P}

lemma Later.trans {t u} (h₁ : Later s t) (h₂ : Later t u) : Later s u :=
  ⟨h₁.pts.trans h₂.pts, h₁.callEdges.trans h₂.callEdges⟩

lemma Advance.later {t} (h : Advance s t) : Later s t := ⟨h.pts, h.callEdges⟩

lemma later_process (ord : SetOrder) (node : NodeId) (s : Solver P) :
    Later s (s.process ord node) := by
  unfold process
  split_ifs
  · exact advance_processOnce.later
  · have hturn := (s.takeDelta node).turn_processDelta ord node (s.delta node)
    exact ⟨hturn.pts, hturn.callEdges⟩

section Loop
variable {ord : SetOrder} {budget : Budget} {fuel pops : ℕ} {out : SolveOutcome P}

lemma later_solveLoop (hrun : s.solveLoop ord budget fuel pops = some out) :
    Later s out.solver := by
  have hstep (t : Solver P) (node rest) (ht : Later s t) :
      Later s ({ t with worklist := rest }.process ord node) :=
    have hprocess := later_process ord node { t with worklist := rest }
    ht.trans ⟨hprocess.pts, hprocess.callEdges⟩
  rcases solveLoop_invariant (fun t node rest ht _ => hstep t node rest ht) (.refl s) hrun with
    ⟨-, h, -⟩ | ⟨-, t, -, h, -, heq⟩
  · exact h
  · rw [heq]
    exact ⟨h.pts, h.callEdges⟩

lemma solveLoop_pops_le {n : ℕ} (hb : budget.pops = some n) (hp : pops ≤ n)
    (hrun : s.solveLoop ord budget fuel pops = some out) : out.pops ≤ n := by
  induction fuel generalizing pops s with
  | zero => exact absurd hrun (by simp [solveLoop])
  | succ fuel ih =>
    rw [solveLoop] at hrun
    split at hrun
    · cases hrun
      exact hp
    split_ifs at hrun with hout
    · cases hrun
      exact hp
    · refine ih ?_ hrun
      simp [Budget.exhausted, hb] at hout
      omega

/-- A run goes through the states of a run with a budget that is exhausted earlier. -/
lemma solveLoop_continues {budget' : Budget} (hle : ∀ k, budget'.exhausted k → budget.exhausted k)
    {fuel' : ℕ} {out'} (hrun : s.solveLoop ord budget fuel pops = some out)
    (hrun' : s.solveLoop ord budget' fuel' pops = some out') :
    Later out.solver out'.solver ∧ (out.converged = true → out = out') := by
  induction fuel generalizing fuel' pops s with
  | zero => exact absurd hrun (by simp [solveLoop])
  | succ fuel ih =>
    cases fuel' with
    | zero => exact absurd hrun' (by simp [solveLoop])
    | succ fuel' =>
      have hlater := later_solveLoop hrun'
      rw [solveLoop] at hrun hrun'
      cases hw : s.worklist with
      | nil =>
        simp only [hw] at hrun hrun'
        cases hrun
        cases hrun'
        exact ⟨.refl _, fun _ => rfl⟩
      | cons node rest =>
        simp only [hw] at hrun hrun'
        by_cases hout : budget.exhausted pops
        · rw [if_pos hout] at hrun
          cases hrun
          exact ⟨⟨hlater.pts, hlater.callEdges⟩, fun h => absurd h (by simp)⟩
        · rw [if_neg hout] at hrun
          rw [if_neg fun h => hout (hle pops h)] at hrun'
          exact ih hrun hrun'

end Loop
end Solver

/-- A larger budget of pops continues the run of a smaller one: points-to sets grow, and the call
edges that the loop finds are those of the smaller budget and then others. -/
theorem solve_continues {ord : SetOrder} {n m : Option ℕ} (hle : ∀ k ∈ m, ∃ j ∈ n, j ≤ k)
    {fuel fuel' : ℕ} {out out' : SolveOutcome P}
    (hrun : analyze P ord { pops := n } fuel = some out)
    (hrun' : analyze P ord { pops := m } fuel' = some out') :
    (∀ k ∈ n, out.pops ≤ k) ∧ (∀ node, out.solver.ptsOf node ⊆ out'.solver.ptsOf node) ∧
      out.solver.callEdges <+: out'.solver.callEdges ∧ (out.converged = true → out = out') := by
  have hexhausted : ∀ k, Budget.exhausted { pops := m } k → Budget.exhausted { pops := n } k := by
    intro k hk
    simp only [Budget.exhausted, Bool.and_false, Bool.or_false, Option.any_eq_true] at hk ⊢
    obtain ⟨b, hb, hbk⟩ := hk
    obtain ⟨j, hj, hjb⟩ := hle b hb
    exact ⟨j, hj, by simpa using hjb.trans (by simpa using hbk)⟩
  obtain ⟨hlater, hsame⟩ := Solver.solveLoop_continues hexhausted hrun hrun'
  refine ⟨fun k hk => Solver.solveLoop_pops_le hk (Nat.zero_le k) hrun, fun node l hl => ?_,
    hlater.callEdges, hsame⟩
  simp only [Solver.mem_ptsOf] at hl ⊢
  exact hlater.pts.subset hl

/-- `cb = h; fp = f; g(cb); fp();` where the model of `g` invokes its argument. -/
def callbackAndCall : Program := Sketch.program
  { flow := [.addrOfFn .a .c, .addrOfFn .b .d]
    callees := fun site => if site = .a then [.b] else []
    calleeVar := fun site => if site = .b then some .b else none
    varArgs := fun site => if site = .a then [(0, .a)] else []
    invocations := fun f => if f = .b then
      [{ param := 0, args := .listed [], supplies := none, when := none, context := .unknown,
         model := "" }] else [] }

/-- The edge of a callback comes after all others, so a larger run has others in its place. -/
theorem callEdges_not_prefix_of_callbackAndCall :
    ∃ out out', analyze callbackAndCall .asFound { pops := some 1 } 20 = some out ∧
      analyze callbackAndCall .asFound {} 20 = some out' ∧
      (∀ edge ∈ out.callEdges .asFound ++ out'.callEdges .asFound,
        edge.resolution = .direct ∨ edge.resolution = .indirect) ∧
      ¬ out.callEdges .asFound <+: out'.callEdges .asFound := by
  obtain ⟨out, hrun, h⟩ : ∃ out, analyze callbackAndCall .asFound { pops := some 1 } 20 = some out ∧
      (analyze callbackAndCall .asFound {} 20).any (fun out' => decide
        ((∀ edge ∈ out.callEdges .asFound ++ out'.callEdges .asFound,
          edge.resolution = .direct ∨ edge.resolution = .indirect) ∧
        ¬ (out.callEdges .asFound).map (·.callSite) <+: (out'.callEdges .asFound).map
          (·.callSite))) =
          true := exists_outcome (by decide +kernel)
  obtain ⟨out', hrun', hkinds, hsites⟩ := exists_outcome h
  exact ⟨out, out', hrun, hrun', hkinds, fun hpre => hsites (hpre.map _)⟩

theorem solve_continues_of_pointerCall :
    ∃ out out', analyze pointerCall .asFound { pops := some 1 } 20 = some out ∧
      analyze pointerCall .asFound {} 20 = some out' ∧ out.pops ≤ 1 ∧
      out.solver.callEdges <+: out'.solver.callEdges := by
  obtain ⟨out, hrun, -⟩ : ∃ out, analyze pointerCall .asFound { pops := some 1 } 20 = some out ∧
      out.converged = false := exists_outcome (by decide +kernel)
  obtain ⟨out', hrun', -⟩ : ∃ out, analyze pointerCall .asFound {} 20 = some out ∧
      out.converged = true := exists_outcome (by decide +kernel)
  obtain ⟨hpops, -, hedges, -⟩ := solve_continues (by simp) hrun hrun'
  exact ⟨out, out', hrun, hrun', hpops 1 rfl, hedges⟩

end Pathologist.PointsTo

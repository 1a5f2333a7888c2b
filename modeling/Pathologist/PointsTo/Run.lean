import Pathologist.PointsTo.Closure

/-!
# Whole runs of the solver

The invariant of the loop holds at the start, where no node points anywhere, and every pop keeps
it. A run that drains the worklist leaves nothing pending, so what held up to pending news then
holds outright.
-/
open List
namespace Pathologist.PointsTo
variable {P : Program}

namespace Solver

section Start
variable (ord : SetOrder) (s : Solver P)

lemma quiet_seedOwnLocation (v : P.Var) : Quiet s (s.seedOwnLocation v) := by
  unfold seedOwnLocation
  split
  · exact s.quiet_addPts _ _
  · exact s.quiet_panic
  · exact .refl s

/-- A call resolved by name takes up its callee with an edge that is not an indirect one. -/
lemma advance_resolveDirect (site : P.Site) (callee : P.Fn) :
    Advance s (s.resolveDirect ord site callee) := by
  set edge := edgeOf site callee (if P.isDefined callee then .direct else .external) with hedge
  set m : Solver P := { s with callEdges := s.callEdges ++ [edge] } with hm
  have hparams : Inner (fun _ => False) m
      (if (P.params callee).isEmpty then m else m.wireParams ord site callee) := by
    split_ifs
    · exact .refl _ m
    · exact (m.quiet_wireParams ord site callee).toInner
  set w := if (P.params callee).isEmpty then m else m.wireParams ord site callee
  have hmodel := w.inner_applyFnModel ord site callee
  have hinvoke := (quiet_wireInvocations ord site (w.applyFnModel ord site callee) callee)
  have hinner := (hparams.trans hmodel).trans hinvoke.toInner
  change Advance s ((w.applyFnModel ord site callee).wireInvocations ord site callee)
  set t := (w.applyFnModel ord site callee).wireInvocations ord site callee
  have hgrows : Grows (fun _ => False) s t := { hinner.toGrows with }
  refine ⟨hgrows, ?_, ?_, ?_, ?_, ?_⟩
  · exact hinner.callEdges ▸ prefix_append _ _
  · exact hinner.resolvedIndirect ▸ prefix_refl _
  · rintro ⟨hedges, hn⟩
    have hdirect : edge.resolution ≠ .indirect := by
      simp only [hedge, edgeOf]
      split_ifs <;> simp
    refine ⟨?_, hinner.resolvedIndirect ▸ hn⟩
    rw [hinner.callEdges, hinner.resolvedIndirect]
    simpa [hm, hdirect] using hedges
  · intro e he
    rw [hinner.callEdges] at he
    rcases mem_append.mp he with hold | hnew
    · exact .inl hold
    refine .inr fun site' hs effect heffect => ?_
    rw [mem_singleton.mp hnew] at hs heffect
    obtain rfl : site = site' := by simpa [hedge, edgeOf] using hs
    exact hinvoke.applied ((applyFnModel_applied ord site w callee effect heffect).weaken
      hparams.pag)
  · exact fun pair hp => .inl (hinner.resolvedIndirect ▸ hp)

lemma advance_resolveDirectSite (site : P.Site) : Advance s (s.resolveDirectSite ord site) := by
  unfold resolveDirectSite
  split_ifs
  · exact (Inner.refl _ s).advance
  · exact Lib.Fold.foldl_rel (R := Advance) Advance.trans _ (Inner.refl _ s).advance
      fun t _ callee _ => t.advance_resolveDirect ord site callee

variable (pag : Pag P)

/-- The state that holds a graph and nothing else. -/
def initial : Solver P :=
  { pag, slotGuard := fun loc => pag.locations[loc]?.bind fun l => P.slotGuardFor l.typeId }

lemma advance_start : Advance (initial pag) (start ord pag) := by
  have hpush : Inner (fun _ => False) (initial pag)
      (pag.constraints.foldl (fun s c => (s.push c.dst).push c.src) (initial pag)) :=
    inner_fold _ (fun t (c : Constraint P) => (t.inner_push c.dst _).trans (inner_push _ c.src _)) _
  set m₁ := pag.constraints.foldl (fun s c => (s.push c.dst).push c.src) (initial pag)
  have hseed : Quiet m₁ (pag.constraints.foldl (seedAddrOf ord) m₁) :=
    m₁.quiet_fold (fun t c => t.quiet_seedAddrOf ord c) _
  set m₂ := pag.constraints.foldl (seedAddrOf ord) m₁
  set m₃ : Solver P := { m₂ with
    seenOnce := (pag.constraints.filter fun c => c.kind = .addrOf).map (·.dst) }
  have hseen : Advance m₂ m₃ := { (Inner.refl (fun _ => False) m₂).advance with }
  have hown : Quiet m₃ (P.vars.foldl seedOwnLocation m₃) := m₃.quiet_fold quiet_seedOwnLocation _
  set m₄ := P.vars.foldl seedOwnLocation m₃
  have hdirect : Advance m₄ (P.callSites.foldl (resolveDirectSite ord) m₄) :=
    Lib.Fold.foldl_rel (R := Advance) Advance.trans _ (Inner.refl _ m₄).advance
      fun t _ site _ => t.advance_resolveDirectSite ord site
  exact ((((hpush.trans hseed.toInner).advance.trans hseen).trans hown.toInner.advance).trans
    hdirect)

lemma settled_initial : Settled pag (initial pag).Pending (initial pag) where
  pag := .refl pag
  constraints := fun _ _ => ⟨fun _ _ hl => absurd hl not_mem_nil,
    fun _ _ hl => absurd hl not_mem_nil, fun _ _ hl => absurd hl not_mem_nil⟩
  cells := fun hd => absurd hd not_mem_nil
  wired := fun _ hp => absurd hp not_mem_nil
  kinds := fun hk => absurd hk not_mem_nil
  calls := fun _ hl => absurd hl not_mem_nil
  merged := fun _ _ => ⟨Nat.zero_le _, fun _ hx => absurd hx (by simp [initial])⟩
  queued := fun _ hn => absurd rfl hn
  edgesResolved := ⟨rfl, nodup_nil⟩
  models := fun _ he => absurd he not_mem_nil
  params := fun _ hp => absurd hp not_mem_nil

lemma settled_start : Settled pag (start ord pag).Pending (start ord pag) :=
  (settled_initial pag).advance (advance_start ord pag)
    (fun hd => (advance_start ord pag).delta _ hd) id

end Start

section Loop
variable {ord : SetOrder} {budget : Budget} {fuel pops : ℕ} {s : Solver P} {out : SolveOutcome P}

/-- The rule of the loop: what every pop keeps holds of the outcome. A budget may drop one node
from the worklist. -/
lemma solveLoop_invariant {I : Solver P → Prop}
    (hpop : ∀ (t : Solver P) node rest, I t → t.worklist = node :: rest →
      I ({ t with worklist := rest }.process ord node))
    (hs : I s) (hrun : s.solveLoop ord budget fuel pops = some out) :
    (out.converged = true ∧ I out.solver ∧ out.solver.worklist = []) ∨
      (out.converged = false ∧ ∃ t node, I t ∧ t.worklist = node :: out.solver.worklist ∧
        out.solver = { t with worklist := out.solver.worklist }) := by
  induction fuel generalizing pops s with
  | zero => exact absurd hrun (by simp [solveLoop])
  | succ fuel ih =>
    rw [solveLoop] at hrun
    split at hrun
    · next he =>
      cases hrun
      exact .inl ⟨rfl, hs, he⟩
    next node rest hw =>
    split_ifs at hrun
    · cases hrun
      exact .inr ⟨rfl, s, node, hs, hw, rfl⟩
    · exact ih (hpop s node rest hs hw) hrun

/-- However a solve ends, only its worklist tells its outcome from a state that the loop keeps. -/
lemma settled_outcome {pag : Pag P} (hrun : solve ord budget fuel pag = some out) :
    ∃ t : Solver P, Settled pag t.Pending t ∧
      out.solver = { t with worklist := out.solver.worklist } := by
  obtain ⟨-, hs, -⟩ | ⟨-, t, -, hs, -, heq⟩ := solveLoop_invariant
    (I := fun s => Settled pag s.Pending s) (fun t node rest ht hw => ht.process hw)
    (settled_start ord pag) hrun
  · exact ⟨out.solver, hs, rfl⟩
  · exact ⟨t, hs, heq⟩

lemma settled_solve {pag : Pag P} (hrun : solve ord budget fuel pag = some out)
    (hc : out.converged = true) : Settled pag (fun _ _ => False) out.solver := by
  obtain ⟨-, hs, he⟩ | ⟨hnot, -⟩ := solveLoop_invariant
    (I := fun s => Settled pag s.Pending s) (fun t node rest ht hw => ht.process hw)
    (settled_start ord pag) hrun
  · refine hs.imp fun {n l} hp => ?_
    have hnode := hs.queued n (ne_nil_of_mem hp)
    rw [he] at hnode
    exact absurd hnode not_mem_nil
  · exact absurd (hnot.symm.trans hc) (by simp)

end Loop
end Solver
end Pathologist.PointsTo

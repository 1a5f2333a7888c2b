import Pathologist.PointsTo.Fixpoint
import Pathologist.Worklist.State

/-!
# What is pending, queued and held agrees

The steps of the solver write the points-to sets, the deltas with their dedup set, the worklist
with its own, and the index from locations to holders one after another. After each step they
say the same: what is pending was gained, is noted once, and its node waits on the worklist.
-/
open List Function
namespace Pathologist.Worklist

open PointsTo (NodeId LocId Pag Program Sketch)

variable {P : Program}

/-- The queues and indices agree with each other and with what the nodes hold. Only `exempt`
nodes may have something pending without waiting on the worklist. -/
structure Consistent (exempt : NodeId → Prop) (holds : NodeId → LocId → Prop) (a : Agenda) :
    Prop where
  pending : ∀ node loc, (node, loc) ∈ a.deltaPending ↔ loc ∈ a.delta node
  delta_nodup : ∀ node, (a.delta node).Nodup
  waits : ∀ node, a.delta node ≠ [] → node ∈ a.worklist ∨ exempt node
  queued : ∀ node, node ∈ a.queued ↔ node ∈ a.worklist
  worklist_nodup : a.worklist.Nodup
  gained : ∀ node loc, loc ∈ a.delta node → holds node loc
  holders : ∀ loc node, node ∈ a.holdersOf loc ↔ holds node loc

namespace Consistent

variable {exempt exempt' : NodeId → Prop} {holds holds' : NodeId → LocId → Prop} {a : Agenda}
  {node : NodeId} {loc : LocId}

lemma mono (h : Consistent exempt holds a) (hle : ∀ n, exempt n → exempt' n) :
    Consistent exempt' holds a :=
  { h with waits := fun n hn => (h.waits n hn).imp_right (hle n) }

lemma congr (h : Consistent exempt holds a) (hiff : ∀ n l, holds n l ↔ holds' n l) :
    Consistent exempt holds' a :=
  { h with
    gained := fun n l hl => (hiff n l).mp (h.gained n l hl)
    holders := fun l n => (h.holders l n).trans (hiff n l) }

lemma empty : Consistent exempt (fun _ _ => False) {} where
  pending := fun _ _ => by simp
  delta_nodup := fun _ => nodup_nil
  waits := fun _ hn => absurd rfl hn
  queued := fun _ => by simp
  worklist_nodup := nodup_nil
  gained := fun _ _ hl => absurd hl not_mem_nil
  holders := fun _ _ => by simp [Agenda.holdersOf]

lemma push (h : Consistent (fun n => exempt n ∨ n = node) holds a) :
    Consistent exempt holds (a.push node) := by
  unfold Agenda.push
  split
  · next hin =>
    refine { h with waits := fun n hn => ?_ }
    rcases h.waits n hn with hw | he | rfl
    · exact .inl hw
    · exact .inr he
    · exact .inl ((h.queued n).mp hin)
  next hnot =>
  refine { h with waits := fun n hn => ?_, queued := fun n => ?_, worklist_nodup := ?_ }
  · rcases h.waits n hn with hw | he | rfl
    · exact .inl (mem_cons_of_mem _ hw)
    · exact .inr he
    · exact .inl mem_cons_self
  · simp [h.queued]
  · exact nodup_cons.mpr ⟨fun hw => hnot ((h.queued node).mpr hw), h.worklist_nodup⟩

variable (h : Consistent exempt holds a)
include h

lemma recordOne (he : exempt node) (hh : holds node loc) :
    Consistent exempt holds (a.recordOne node loc) := by
  unfold Agenda.recordOne
  split
  · exact h
  next hnot =>
  have hnew : loc ∉ a.delta node := fun hin => hnot ((h.pending node loc).mpr hin)
  refine { h with pending := fun n l => ?_, delta_nodup := fun n => ?_, waits := fun n hn => ?_,
                  gained := fun n l hl => ?_ }
  · rcases eq_or_ne n node with rfl | hne
    · simp [h.pending, or_comm]
    · simp [h.pending, hne]
  · dsimp only
    rcases eq_or_ne n node with rfl | hne
    · rw [update_self]
      refine nodup_append.mpr ⟨h.delta_nodup n, nodup_singleton loc, fun l hl l' hl' => ?_⟩
      rintro rfl
      exact hnew (mem_singleton.mp hl' ▸ hl)
    · rw [update_of_ne hne]
      exact h.delta_nodup n
  · rcases eq_or_ne n node with rfl | hne
    · exact .inr he
    · exact h.waits n (by simpa [hne] using hn)
  dsimp only at hl
  rcases eq_or_ne n node with rfl | hne
  · rw [update_self] at hl
    rcases mem_append.mp hl with hl | hl
    · exact h.gained n l hl
    · rwa [mem_singleton.mp hl]
  · exact h.gained n l (by rwa [update_of_ne hne] at hl)

variable {locs : List LocId}

lemma recordDelta (he : exempt node) (hh : ∀ loc ∈ locs, holds node loc) :
    Consistent exempt holds (a.recordDelta node locs) := by
  induction locs generalizing a with
  | nil => exact h
  | cons loc locs ih =>
    obtain ⟨hloc, hl⟩ := forall_mem_cons.mp hh
    exact ih (h.recordOne he hloc) hl

/-- What a node holds may be recorded and the node queued. -/
lemma requeue (hh : ∀ loc ∈ locs, holds node loc) :
    Consistent exempt holds ((a.recordDelta node locs).push node) := by
  have hweak : Consistent (fun n => exempt n ∨ n = node) holds a := h.mono fun _ => Or.inl
  exact (hweak.recordDelta (.inr rfl) hh).push

lemma requeueAll {nodes : List NodeId} (hh : ∀ n ∈ nodes, holds n loc) :
    Consistent exempt holds (nodes.foldl (fun a n => (a.recordDelta n [loc]).push n) a) := by
  induction nodes generalizing a with
  | nil => exact h
  | cons n rest ih =>
    obtain ⟨hn, hr⟩ := forall_mem_cons.mp hh
    exact ih (h.requeue (by simpa using hn)) hr

lemma addHolder (node : NodeId) (loc : LocId) :
    Consistent exempt (fun n l => holds n l ∨ n = node ∧ l = loc) (a.addHolder node loc) := by
  refine { h with gained := fun n l hl => .inl (h.gained n l hl), holders := fun l n => ?_ }
  rw [← h.holders]
  unfold Agenda.addHolder Agenda.holdersOf
  rcases eq_or_ne l loc with rfl | hne
  · cases a.locNodes l <;> simp [LocationHolders.insert, LocationHolders.empty]
  · simp [hne]

lemma addHolders (locs : List LocId) :
    Consistent exempt (fun n l => holds n l ∨ n = node ∧ l ∈ locs)
      (locs.foldl (Agenda.addHolder node) a) := by
  induction locs generalizing a holds with
  | nil => exact h.congr fun n l => by simp
  | cons loc locs ih =>
    refine (ih (h.addHolder node loc)).congr fun n l => ?_
    simp only [mem_cons]
    tauto

/-- The nodes that gain locations come to hold them. -/
lemma commitFresh (fresh : List LocId) :
    Consistent exempt (fun n l => holds n l ∨ n = node ∧ l ∈ fresh) (a.commitFresh node fresh) := by
  unfold Agenda.commitFresh
  split
  · next he =>
    rw [isEmpty_iff.mp he]
    exact h.congr fun n l => by simp
  · exact (h.addHolders fresh).requeue fun loc hloc => .inr ⟨rfl, hloc⟩

lemma touchLocHolders (order : WalkOrder) (pag : Pag P) (loc : LocId) :
    Consistent exempt holds (a.touchLocHolders order pag loc) := by
  unfold Agenda.touchLocHolders
  cases hnodes : a.locNodes loc with
  | none => exact h
  | some holders =>
    have hloaders : ∀ n ∈ (holders.loading order pag).loaders, holds n loc := fun n hn => by
      rw [← h.holders, Agenda.holdersOf, hnodes, Option.elim_some,
        ← holders.nodes_loading order pag]
      exact LocationHolders.loaders_subset _ hn
    refine requeueAll ?_ hloaders
    refine { h with holders := fun l n => ?_ }
    rw [← h.holders]
    unfold Agenda.holdersOf
    rcases eq_or_ne l loc with rfl | hne
    · simp [hnodes]
    · simp [hne]

/-- A node that is dropped from the worklist may keep something pending. -/
lemma drop : Consistent (fun n => exempt n ∨ a.worklist.head? = some n) holds a.drop := by
  cases hw : a.worklist with
  | nil =>
    have hsame : a.drop = a := by
      cases a
      simp_all [Agenda.drop]
    rw [hsame]
    exact h.mono fun _ => Or.inl
  | cons top rest =>
    have hnodup := h.worklist_nodup
    rw [hw] at hnodup
    obtain ⟨htop, hr⟩ := nodup_cons.mp hnodup
    have hqueued := h.queued
    have hwaits := h.waits
    rw [hw] at hqueued hwaits
    refine { h with waits := fun n hn => ?_, queued := fun n => ?_, worklist_nodup := ?_ }
    · simp only [Agenda.drop, hw]
      rcases hwaits n hn with hin | he
      · rcases mem_cons.mp hin with rfl | hin
        · exact .inr (.inr rfl)
        · exact .inl hin
      · exact .inr (.inl he)
    · simp only [Agenda.drop, hw, head?_cons, Option.elim_some, Finset.mem_erase,
        hqueued, mem_cons]
      constructor
      · rintro ⟨hne, rfl | hin⟩
        · exact absurd rfl hne
        · exact hin
      · exact fun hin => ⟨fun heq => htop (heq ▸ hin), .inr hin⟩
    · rwa [Agenda.drop, hw]

omit h in
lemma mem_foldl_erase {pending : Finset (NodeId × LocId)} {pair : NodeId × LocId} :
    pair ∈ locs.foldl (fun pending l => pending.erase (node, l)) pending ↔
      pair ∈ pending ∧ ¬(pair.1 = node ∧ pair.2 ∈ locs) := by
  induction locs generalizing pending with
  | nil => simp
  | cons l locs ih =>
    rw [foldl_cons, ih, Finset.mem_erase, Ne, Prod.ext_iff, mem_cons]
    tauto

/-- A node that is popped takes all that is pending for it. -/
lemma pop : Consistent exempt holds a.pop := by
  unfold Agenda.pop
  cases htop : a.worklist.head? with
  | none => exact h
  | some top =>
    have hdrop := h.drop
    rw [Option.elim_some]
    refine { hdrop with
      pending := fun n l => ?_
      delta_nodup := fun n => ?_
      waits := fun n hn => ?_
      gained := fun n l hl => ?_ }
    · rw [mem_foldl_erase, h.pending]
      rcases eq_or_ne n top with rfl | hne
      · simp
      · simp [hne]
    · dsimp only
      rcases eq_or_ne n top with rfl | hne
      · rw [update_self]
        exact nodup_nil
      · rw [update_of_ne hne]
        exact h.delta_nodup n
    · dsimp only at hn
      rcases eq_or_ne n top with rfl | hne
      · exact absurd (update_self ..) hn
      rw [update_of_ne hne] at hn
      rcases hdrop.waits n hn with hin | he | hh
      · exact .inl hin
      · exact .inr he
      · exact absurd (Option.some.inj (hh.symm.trans htop)) hne
    · dsimp only at hl
      rcases eq_or_ne n top with rfl | hne
      · rw [update_self] at hl
        exact absurd hl not_mem_nil
      · rw [update_of_ne hne] at hl
        exact h.gained n l hl

end Consistent

/-- What a state's nodes point to, and its queues and indices, agree. -/
def Facts.Agrees (exempt : NodeId → Prop) (s : Facts) : Prop :=
  Consistent exempt (fun node loc => loc ∈ s.held node) s.toAgenda

namespace Facts
variable {exempt : NodeId → Prop} {s : Facts}

/-- The rule for a step that inserts and then commits what was new. -/
lemma Agrees.commit (h : s.Agrees exempt) {sets : Sets} {dst : NodeId} {fresh : List LocId}
    (hg : s.toSets.Gains sets dst fresh) :
    Agrees exempt { toSets := sets, toAgenda := s.toAgenda.commitFresh dst fresh } :=
  (Consistent.commitFresh h fresh).congr fun n l => (hg n l).symm

lemma Agrees.addPts (h : s.Agrees exempt) (node : NodeId) (loc : LocId) :
    (s.addPts node loc).Agrees exempt := by
  unfold Facts.addPts
  split
  · next hin => exact h.commit (Sets.gains_insertAll_of_mem (contains_iff_mem.mp hin))
  · exact h.commit (s.toSets.gains_insertAll node [loc])

end Facts

lemma SolverState.agrees_call {exempt : NodeId → Prop} {st : SolverState} (h : st.Agrees exempt)
    (order : WalkOrder) (pag : Pag P) (c : Call) : (st.call order pag c).Agrees exempt := by
  cases c with
  | push node => exact Consistent.push (Consistent.mono h fun _ => Or.inl)
  | addPts node loc =>
    change (st.addPts order node loc).toFacts.Agrees exempt
    rw [toFacts_addPts]
    exact h.addPts node loc
  | propagateLocs dst locs =>
    change (st.propagateLocs order dst locs).toFacts.Agrees exempt
    rw [toFacts_propagateLocs]
    exact h.commit (st.toSets.gains_insertAll dst _)
  | mergeMemoryIntoIfGrown dst cell =>
    change (st.mergeMemoryIntoIfGrown order pag dst cell).toFacts.Agrees exempt
    rw [toFacts_mergeMemoryIntoIfGrown]
    exact h.commit (st.toSets.gains_merge _ pag dst cell)
  | loadInto dst locs =>
    change (st.loadInto order pag dst locs).toFacts.Agrees exempt
    rw [toFacts_loadInto]
    exact h.commit (st.toSets.gains_loadAll _ pag dst locs)
  | writeMemory cell locs =>
    change (st.writeMemory cell locs).toFacts.Agrees exempt
    unfold writeMemory
    split
    · exact h
    · dsimp only
      split <;> exact h
  | touchLocHolders loc => exact Consistent.touchLocHolders h order pag loc
  | guard loc guard => exact h
  | pop => exact Consistent.pop h

lemma SolverState.agrees_run (order : WalkOrder) (calls : List (Pag P × Call)) :
    (run order calls {}).Agrees fun _ => False := by
  have hstart : ({} : SolverState).Agrees fun _ => False :=
    Consistent.empty.congr fun _ _ => by simp [Sets.held]
  exact Lib.Fold.foldl_rel (R := fun _ st => st.Agrees fun _ => False) (s := ({} : SolverState))
    (fun _ h => h) calls hstart fun st h c _ => agrees_call h order c.1 c.2

/-- After any calls everything agrees. The pop that finds its budget used up ends the run; only
the node it takes may then have something pending that no entry of the worklist stands for. -/
theorem SolverState.agrees_of_calls (order : WalkOrder) (calls : List (Pag P × Call)) :
    (run order calls {}).Agrees (fun _ => False) ∧
      Consistent (fun node => (run order calls {}).worklist.head? = some node)
        (fun node loc => loc ∈ (run order calls {}).held node)
          (run order calls {}).toAgenda.drop := by
  have hrun := agrees_run order calls
  exact ⟨hrun, (Consistent.drop hrun).mono fun _ hexempt => hexempt.resolve_left id⟩

/-- The dropped node leaves the worklist and keeps its delta. -/
theorem SolverState.pending_of_drop :
    ∃ (order : WalkOrder) (calls : List (Pag (Sketch.program {}) × Call)) (node : NodeId),
      (run order calls {}).toAgenda.drop.delta node ≠ [] ∧
        node ∉ (run order calls {}).toAgenda.drop.worklist := by
  refine ⟨⟨List.dedup, fun _ => .refl _⟩, [({}, .addPts 0 0)], 0, ?_⟩
  have hfacts (order : WalkOrder) : (run order [(({} : Pag (Sketch.program {})), .addPts 0 0)]
      {}).toFacts = ({} : Facts).addPts 0 0 := toFacts_addPts order {} 0 0
  decide

end Pathologist.Worklist

import Pathologist.Worklist.State

/-!
# A load in one call

`loadInto` steps over all the locations of a load before it commits anything: mirrors, holders,
deltas and the worklist are brought up to date once, at the end. No merge reads what the commits
write but for the mirror of the destination, and for a location that the destination does not
hold the mirror answers as it did before the load. So the load does what one step for each
location would do.
-/
open List
namespace Pathologist.Worklist

open PointsTo (NodeId LocId Pag Program)

variable {P : Program}

namespace Agenda
variable (a : Agenda) (dst : NodeId)

lemma push_push : (a.push dst).push dst = a.push dst := by
  have hin : dst ∈ (a.push dst).queued := by
    unfold push
    split
    · assumption
    · exact Finset.mem_insert_self _ _
  rw [push, if_pos hin]

lemma addHolders_recordDelta (fresh more : List LocId) :
    more.foldl (addHolder dst) (a.recordDelta dst fresh) =
      (more.foldl (addHolder dst) a).recordDelta dst fresh := by
  refine foldl_hom (recordDelta dst fresh) fun b loc => ?_
  refine (foldl_hom (addHolder dst · loc) fun c l => ?_).symm
  unfold recordOne addHolder
  split <;> rfl

variable {a dst}

lemma commitFresh_of_ne_nil {fresh : List LocId} (hne : fresh ≠ []) :
    a.commitFresh dst fresh = ((fresh.foldl (addHolder dst) a).recordDelta dst fresh).push dst := by
  rw [commitFresh, if_neg (mt List.isEmpty_iff.mp hne)]

@[simp] lemma commitFresh_nil : a.commitFresh dst [] = a := rfl

lemma commitFresh_append (fresh more : List LocId) :
    a.commitFresh dst (fresh ++ more) = (a.commitFresh dst fresh).commitFresh dst more := by
  by_cases hf : fresh = []
  · simp [hf]
  by_cases hm : more = []
  · simp [hm]
  rw [commitFresh_of_ne_nil (append_ne_nil_of_left_ne_nil hf _), commitFresh_of_ne_nil hf,
    commitFresh_of_ne_nil hm]
  set b := (fresh.foldl (addHolder dst) a).recordDelta dst fresh with hb
  -- the first push moves to the end, where the second one absorbs it
  have hpush : (more.foldl (addHolder dst) (b.push dst)).recordDelta dst more =
      ((more.foldl (addHolder dst) b).recordDelta dst more).push dst := by
    have hholder (c : Agenda) (loc) :
        (c.push dst).addHolder dst loc = (c.addHolder dst loc).push dst := by
      unfold push addHolder
      split <;> rfl
    rw [foldl_hom (push dst) hholder]
    refine foldl_hom (push dst) fun c loc => ?_
    unfold push recordOne
    split <;> split <;> simp_all
  rw [hpush, push_push, hb, addHolders_recordDelta]
  simp [recordDelta]

end Agenda

namespace SolverState
variable {order : WalkOrder} {st : SolverState} {dst : NodeId}

/-- The mirror of `dst` answers as `known` for a location that `dst` does not hold. -/
def AnswersAs (known : LocId → Bool) (dst : NodeId) (st : SolverState) : Prop :=
  ∀ loc, loc ∉ st.held dst → (st.ptsBits dst).any (st.locBits.test · loc) = known loc

lemma AnswersAs.mirrorPts {known} {added : List LocId} (h : st.AnswersAs known dst)
    (ha : ∀ loc ∈ added, loc ∈ st.held dst) :
    (st.mirrorPts order dst added).AnswersAs known dst := by
  intro loc hloc
  replace hloc : loc ∉ st.held dst := by simpa using hloc
  have hbefore := h loc hloc
  unfold SolverState.mirrorPts
  split
  · next bits hb =>
    rw [hb, Option.any_some] at hbefore
    simpa [LocBits.test_setAll_of_notMem _ _ (mt (ha loc) hloc)] using hbefore
  next hb =>
  split
  · have hwalk : loc ∉ order.walk (st.held dst) := fun hin =>
      hloc (mem_dedup.mp ((order.perm _).mem_iff.mp hin))
    rw [hb] at hbefore
    simpa [LocBits.mirror, LocBits.test_setAll_of_notMem _ _ hwalk] using hbefore
  · exact hbefore

lemma AnswersAs.finish {known} {sets : Sets} {fresh : List LocId} (h : st.AnswersAs known dst)
    (hg : st.toSets.Gains sets dst fresh) :
    ({ st with toSets := sets }.finishMerge order dst fresh).AnswersAs known dst := by
  have hsets : { st with toSets := sets }.AnswersAs known dst := fun loc hloc =>
    h loc fun hin => hloc ((hg dst loc).mpr (.inl hin))
  unfold finishMerge
  split
  · exact hsets
  · have hadded : ∀ loc ∈ fresh, loc ∈ sets.held dst :=
      fun loc hloc => (hg dst loc).mpr (.inr ⟨rfl, hloc⟩)
    exact hsets.mirrorPts hadded

/-- One location that a load steps over, in a call of its own. -/
def loadOne (order : WalkOrder) (pag : Pag P) (dst : NodeId) (st : SolverState) (loc : LocId) :
    SolverState :=
  if (pag.fnForLoc loc).isSome then st.addPts order dst loc
  else if pag.isStringLit loc then st
  else st.mergeMemoryIntoIfGrown order pag dst loc

/-- A call for one location inserts what the load would, and commits it at once. -/
lemma loadOne_eq (pag : Pag P) (loc : LocId) : st.loadOne order pag dst loc =
      { st with toSets := (st.toSets.loadLoc (st.ptsKnown dst) pag dst loc).1 }.finishMerge order
        dst
        (st.toSets.loadLoc (st.ptsKnown dst) pag dst loc).2 := by
  unfold loadOne Sets.loadLoc
  split
  · unfold addPts
    split <;> rfl
  · split <;> rfl

end SolverState

lemma gained_congr {known known' : Lookup} {held locs : List LocId}
    (h : ∀ loc, loc ∉ held → known held loc = known' held loc) :
    gained known held locs = gained known' held locs := by
  refine filter_congr fun loc _ => ?_
  by_cases hloc : loc ∈ held
  · simp [hloc]
  · rw [h loc hloc]

/-- A load in one call does what a call for each of its locations would do, in any state. -/
theorem SolverState.loadInto_eq_foldl_loadOne (order : WalkOrder) (pag : Pag P) (dst : NodeId)
    (locs : List LocId) (st : SolverState) :
    (st.loadInto order pag dst locs).toFacts = (locs.foldl (loadOne order pag dst) st).toFacts := by
  -- the mirror is asked as it stood at the start of the load; a call asks it as it stands
  suffices h : ∀ (known : LocId → Bool) (t : SolverState), t.AnswersAs known dst →
      t.toFacts.loadInto (fun _ => known) pag dst locs =
        (locs.foldl (loadOne order pag dst) t).toFacts by
    rw [toFacts_loadInto]
    exact h _ st fun _ _ => rfl
  induction locs with
  | nil => exact fun _ _ _ => rfl
  | cons loc locs ih =>
    intro known t ht
    have hstep : t.toSets.loadLoc (fun _ => known) pag dst loc =
        t.toSets.loadLoc (t.ptsKnown dst) pag dst loc := by
      unfold Sets.loadLoc Sets.merge
      dsimp only
      rw [@gained_congr (fun _ => known) (t.ptsKnown dst) _ _ fun l hl => (ht l hl).symm]
    have hnext : (t.loadOne order pag dst loc).AnswersAs known dst := by
      rw [loadOne_eq]
      exact ht.finish (t.toSets.gains_loadLoc _ pag dst loc)
    rw [foldl_cons, ← ih known _ hnext, loadOne_eq]
    simp [Facts.loadInto, Sets.loadAll, toFacts_finishMerge, Agenda.commitFresh_append, hstep]

end Pathologist.Worklist

import Pathologist.Worklist.LoadBatch

/-!
# The mirrors change nothing

A mirror answers for just the locations of its set, so a lookup in it may be replaced by a test
of the set. The run with mirrors and the run with tests of the sets then go through the same
facts, whatever the solver decides to do next from what it sees of them.
-/
open List Function
namespace Pathologist.Worklist

open PointsTo (NodeId LocId Pag Program)

variable {P : Program}

/-- Every mirror has the bits of just the locations of its set. -/
structure Mirrored (st : SolverState) : Prop where
  pts :
      ∀ node bits, st.ptsBits node = some bits → st.locBits.Mirrors bits {loc | loc ∈ st.held node}
  memory : ∀ cell bits, st.memoryBits cell = some bits →
    st.locBits.Mirrors bits {loc | loc ∈ st.memoryPts cell}

namespace Mirrored
variable {st : SolverState} {order : WalkOrder} {dst : NodeId}

lemma not_known (h : Mirrored st) (loc : LocId) (hloc : loc ∉ st.held dst) :
    (st.ptsBits dst).any (st.locBits.test · loc) = false := by
  cases hb : st.ptsBits dst with
  | none => rfl
  | some bits =>
    rw [Option.any_some, Bool.eq_false_iff, Ne, (h.pts dst bits hb).test_iff]
    exact hloc

variable {sets : Sets} {fresh : List LocId} {nb : LocBits}

section
variable (h : Mirrored st)
include h

/-- The rule for a step that inserts into one points-to set: only its own mirror is to follow. -/
lemma setPts {mirror} (hg : st.toSets.Gains sets dst fresh) (hm : sets.memoryPts = st.memoryPts)
    (hext : st.locBits.Extends nb)
    (hdst : ∀ bits, mirror = some bits → nb.Mirrors bits {loc | loc ∈ sets.held dst}) :
    Mirrored { st with toSets := sets, locBits := nb, ptsBits := update st.ptsBits dst mirror }
      where
  pts node bits hb := by
    dsimp only at hb ⊢
    rcases eq_or_ne node dst with rfl | hne
    · rw [update_self] at hb
      exact hdst bits hb
    rw [update_of_ne hne] at hb
    have hsame : {loc | loc ∈ sets.held node} = {loc | loc ∈ st.held node} := by
      ext loc
      exact (hg node loc).trans (by simp [hne])
    rw [hsame]
    exact (h.pts node bits hb).extends hext
  memory cell bits hb := by
    rw [hm]
    exact (h.memory cell bits hb).extends hext

/-- Once what a set gained is mirrored, its mirror follows it. -/
lemma insertFresh (order : WalkOrder) (hg : st.toSets.Gains sets dst fresh)
    (hm : sets.memoryPts = st.memoryPts) :
    Mirrored ({ st with toSets := sets }.mirrorPts order dst fresh) := by
  unfold SolverState.mirrorPts
  split
  · next bits hb =>
    refine h.setPts hg hm (LocBits.extends_setAll _ _ _) fun bits' hb' => ?_
    cases hb'
    have hset : {loc | loc ∈ sets.held dst} = {loc | loc ∈ st.held dst} ∪ {loc | loc ∈ fresh} := by
      ext loc
      exact (hg dst loc).trans (by simp)
    rw [hset]
    exact (h.pts dst bits hb).setAll fresh
  next hb =>
  split
  · refine h.setPts hg hm (LocBits.extends_setAll _ _ _) fun bits' hb' => ?_
    cases hb'
    have hset : {loc | loc ∈ sets.held dst} = {loc | loc ∈ order.walk (sets.held dst)} := by
      ext loc
      exact mem_dedup.symm.trans (order.perm _).mem_iff.symm
    rw [hset]
    exact LocBits.mirrors_mirror _ _
  · have hsame : ({ st with toSets := sets } : SolverState) =
        { st with toSets := sets, ptsBits := update st.ptsBits dst none } := by
      rw [← hb, update_eq_self]
    rw [hsame]
    exact h.setPts hg hm (.refl _) fun _ hb' => absurd hb' (by simp)

lemma insertNone (hg : st.toSets.Gains sets dst []) (hm : sets.memoryPts = st.memoryPts) :
    Mirrored { st with toSets := sets } where
  pts node bits hb := by
    have hsame : {loc | loc ∈ sets.held node} = {loc | loc ∈ st.held node} := by
      ext loc
      exact (hg node loc).trans (by simp)
    exact hsame ▸ h.pts node bits hb
  memory cell bits hb := by
    rw [hm]
    exact h.memory cell bits hb

lemma finishMerge (hg : st.toSets.Gains sets dst fresh) (hm : sets.memoryPts = st.memoryPts) :
    Mirrored ({ st with toSets := sets }.finishMerge order dst fresh) := by
  unfold SolverState.finishMerge
  split
  · next he =>
    rw [isEmpty_iff.mp he] at hg
    exact h.insertNone hg hm
  · have := h.insertFresh order hg hm
    exact ⟨this.pts, this.memory⟩

end

lemma mem_insertNew {entry : List LocId} {loc l : LocId} :
    l ∈ insertNew entry loc ↔ l = loc ∨ l ∈ entry := by
  unfold insertNew
  split
  · next hin =>
    have hloc : loc ∈ entry := contains_iff_mem.mp hin
    exact ⟨.inr, fun h => h.elim (fun h => h ▸ hloc) id⟩
  · rw [mem_append, mem_singleton, or_comm]

/-- A cell with a mirror takes in what one without would. -/
lemma writeBits {entry : List LocId} {bits : Mirror} (h : nb.Mirrors bits {loc | loc ∈ entry})
    (locs : List LocId) :
    let written := locs.foldl SolverState.writeBit (entry, nb, bits)
    written.1 = locs.foldl insertNew entry ∧ nb.Extends written.2.1 ∧
      written.2.1.Mirrors written.2.2 {loc | loc ∈ written.1} := by
  induction locs generalizing entry nb bits with
  | nil => exact ⟨rfl, .refl nb, h⟩
  | cons loc locs ih =>
    rw [foldl_cons, foldl_cons]
    by_cases hin : loc ∈ entry
    · have hstep :
          SolverState.writeBit (entry, nb, bits) loc = (insertNew entry loc, nb, bits) := by
        rw [SolverState.writeBit, if_pos (h.test_iff.mpr hin), insertNew,
          if_pos (contains_iff_mem.mpr hin)]
      have hset : insertNew entry loc = entry := if_pos (contains_iff_mem.mpr hin)
      rw [hstep, hset]
      exact ih h
    have hstep :
        SolverState.writeBit (entry, nb, bits) loc = (insertNew entry loc, nb.set bits loc) := by
      rw [SolverState.writeBit, if_neg (mt h.test_iff.mp hin)]
    have hset : insert loc {l | l ∈ entry} = {l | l ∈ insertNew entry loc} := by
      ext l
      exact mem_insertNew.symm
    rw [hstep]
    obtain ⟨he, hext, hm⟩ := ih (hset ▸ h.set loc)
    exact ⟨he, (nb.extends_set bits loc).trans hext, hm⟩

/-- The rule for a step that writes one cell: only its own mirror is to follow. -/
lemma setMemory (h : Mirrored st) (cell : LocId) (entry : List LocId) {mirror}
    (hext : st.locBits.Extends nb)
    (hc : ∀ bits, mirror = some bits → nb.Mirrors bits {loc | loc ∈ entry}) :
    Mirrored { st with
      memoryPts := update st.memoryPts cell entry
      locBits := nb
      memoryBits := update st.memoryBits cell mirror } where
  pts node bits hb := (h.pts node bits hb).extends hext
  memory c bits hb := by
    dsimp only at hb ⊢
    rcases eq_or_ne c cell with rfl | hne
    · rw [update_self] at hb ⊢
      exact hc bits hb
    · rw [update_of_ne hne] at hb ⊢
      exact (h.memory c bits hb).extends hext

lemma writeMemory (h : Mirrored st) (cell : LocId) (locs : List LocId) :
    Mirrored (st.writeMemory cell locs) ∧
      (st.writeMemory cell locs).toFacts = st.toFacts.writeMemory cell locs := by
  unfold SolverState.writeMemory Facts.writeMemory
  dsimp only
  split
  · next bits hb =>
    obtain ⟨he, hext, hm⟩ := writeBits (h.memory cell bits hb) locs
    refine ⟨h.setMemory _ _ hext fun bits' hb' => Option.some.inj hb' ▸ hm, ?_⟩
    rw [he]
  next hb =>
  split
  · refine ⟨h.setMemory _ _ (LocBits.extends_setAll _ _ _) fun bits' hb' => ?_, rfl⟩
    exact Option.some.inj hb' ▸ LocBits.mirrors_mirror _ _
  refine ⟨?_, rfl⟩
  have hnone := h.setMemory cell (locs.foldl insertNew (st.memoryPts cell)) (.refl _)
    fun (bits : Mirror) (hb' : none = some bits) => absurd hb' (by simp)
  rwa [← hb, update_eq_self] at hnone

end Mirrored

/-- A first test that answers only for what the set holds. -/
def SoundFor (known : LocId → Bool) (held : List LocId) : Prop :=
  ∀ loc, loc ∉ held → known loc = false

variable {known : LocId → Bool}

lemma gained_plain {held : List LocId} (h : SoundFor known held) (locs : List LocId) :
    gained (fun _ => known) held locs = gained plainLookup held locs :=
  gained_congr fun loc hloc => by simp [h loc hloc, plainLookup, hloc]

lemma Sets.merge_plain {dst : NodeId} {s : Sets} (h : SoundFor known (s.held dst)) (pag : Pag P)
    (cell : LocId) : s.merge (fun _ => known) pag dst cell = s.merge plainLookup pag dst cell := by
  unfold merge
  simp [gained_plain h]

lemma Sets.loadAll_plain {dst : NodeId} {s : Sets} (h : SoundFor known (s.held dst)) (pag : Pag P)
    (locs : List LocId) :
    s.loadAll (fun _ => known) pag dst locs = s.loadAll plainLookup pag dst locs := by
  induction locs generalizing s with
  | nil => rfl
  | cons loc locs ih =>
    have hstep : s.loadLoc (fun _ => known) pag dst loc = s.loadLoc plainLookup pag dst loc := by
      unfold loadLoc
      rw [merge_plain h]
    have hnext : SoundFor known ((s.loadLoc plainLookup pag dst loc).1.held dst) := fun l hl =>
      h l fun hin => hl ((s.gains_loadLoc plainLookup pag dst loc dst l).mpr (.inl hin))
    simp [loadAll, hstep, ih hnext]

namespace SolverState
variable {st : SolverState}

lemma call_plain (h : Mirrored st) (order : WalkOrder) (pag : Pag P) (c : Call) :
    Mirrored (st.call order pag c) ∧ (st.call order pag c).toFacts =
      st.toFacts.call plainLookup order pag c := by
  have hsound :
      ∀ dst, SoundFor (fun loc => (st.ptsBits dst).any (st.locBits.test · loc)) (st.held dst) :=
    fun dst => h.not_known
  cases c with
  | push node | touchLocHolders loc | guard loc guard | pop => exact ⟨⟨h.pts, h.memory⟩, rfl⟩
  | addPts node loc =>
    refine ⟨?_, st.toFacts_addPts order node loc⟩
    change Mirrored (st.addPts order node loc)
    unfold addPts
    split
    · next hin => exact h.insertNone (Sets.gains_insertAll_of_mem (contains_iff_mem.mp hin)) rfl
    · have hfresh := h.insertFresh order (st.toSets.gains_insertAll node [loc]) rfl
      exact ⟨hfresh.pts, hfresh.memory⟩
  | propagateLocs dst locs =>
    have hfresh := h.insertFresh order
      (st.toSets.gains_insertAll dst (gained (st.ptsKnown dst) (st.held dst) locs)) rfl
    refine ⟨⟨hfresh.pts, hfresh.memory⟩, (st.toFacts_propagateLocs order dst locs).trans ?_⟩
    simp only [Facts.propagateLocs, Facts.call]
    rw [← gained_plain (hsound dst)]
    rfl
  | mergeMemoryIntoIfGrown dst cell =>
    refine ⟨h.finishMerge (st.toSets.gains_merge _ pag dst cell)
      (Sets.memoryPts_merge _ pag dst cell _), ?_⟩
    refine (st.toFacts_mergeMemoryIntoIfGrown order pag dst cell).trans ?_
    simp only [Facts.mergeMemoryIntoIfGrown, Facts.call]
    rw [← Sets.merge_plain (hsound dst)]
    rfl
  | loadInto dst locs =>
    refine ⟨h.finishMerge (st.toSets.gains_loadAll _ pag dst locs)
      (Sets.memoryPts_loadAll _ pag dst locs _), ?_⟩
    refine (st.toFacts_loadInto order pag dst locs).trans ?_
    simp only [Facts.loadInto, Facts.call]
    rw [← Sets.loadAll_plain (hsound dst)]
    rfl
  | writeMemory cell locs => exact h.writeMemory cell locs

end SolverState

/-- What the solver does between its calls: from its own state and the facts it sees, its next
state, the graph, and the next call. The mirrors are not among the facts. -/
structure Control (P : Program) (σ : Type) where
  next : σ → Facts → Option (σ × Pag P × Call)

namespace Control
variable {σ : Type} (control : Control P σ) (order : WalkOrder)

/-- A run of some steps, with mirrors. -/
def run : ℕ → σ → SolverState → σ × SolverState
  | 0, c, st => (c, st)
  | steps + 1, c, st => (control.next c st.toFacts).elim (c, st) fun act =>
    run steps act.1 (st.call order act.2.1 act.2.2)

/-- The same run with every lookup in a mirror replaced by a test of the set. -/
def runPlain : ℕ → σ → Facts → σ × Facts
  | 0, c, s => (c, s)
  | steps + 1, c, s => (control.next c s).elim (c, s) fun act =>
    runPlain steps act.1 (s.call plainLookup order act.2.1 act.2.2)

lemma run_plain {st} (h : Mirrored st) (steps : ℕ) (c : σ) :
    Mirrored (control.run order steps c st).2 ∧
      ((control.run order steps c st).1, (control.run order steps c st).2.toFacts) =
        control.runPlain order steps c st.toFacts := by
  induction steps generalizing c st with
  | zero => exact ⟨h, rfl⟩
  | succ steps ih =>
    unfold run runPlain
    cases control.next c st.toFacts with
    | none => exact ⟨h, rfl⟩
    | some act =>
      obtain ⟨hc, hf⟩ := SolverState.call_plain h order act.2.1 act.2.2
      simp only [Option.elim_some]
      rw [← hf]
      exact ih hc act.1

lemma mirrored_empty : Mirrored {} :=
  ⟨fun _ _ h => absurd h (by simp), fun _ _ h => absurd h (by simp)⟩

/-- Along every run the lookups answer just for what the sets hold, and the solver sees the same
facts, and is in the same state of its own, as in the run without mirrors. -/
theorem run_eq_runPlain (control : Control P σ) (order : WalkOrder) (steps : ℕ) (c : σ) :
    (control.run order steps c {}).1 = (control.runPlain order steps c {}).1 ∧
      (control.run order steps c {}).2.toFacts = (control.runPlain order steps c {}).2 ∧
      (∀ node bits loc, (control.run order steps c {}).2.ptsBits node = some bits →
        ((control.run order steps c {}).2.locBits.test bits loc = true ↔
          loc ∈ (control.run order steps c {}).2.held node)) ∧
      ∀ cell bits loc, (control.run order steps c {}).2.memoryBits cell = some bits →
        ((control.run order steps c {}).2.locBits.test bits loc = true ↔
          loc ∈ (control.run order steps c {}).2.memoryPts cell) := by
  obtain ⟨hmirrored, heq⟩ := control.run_plain order mirrored_empty steps c
  obtain ⟨hcontrol, hfacts⟩ := Prod.mk.inj heq
  refine ⟨hcontrol, hfacts, fun node bits loc hbits => ?_, fun cell bits loc hbits => ?_⟩
  · exact (hmirrored.pts node bits hbits).test_iff
  · exact (hmirrored.memory cell bits hbits).test_iff

end Control
end Pathologist.Worklist

import Mathlib.Data.Finset.Basic
import Pathologist.PointsTo.State
import Pathologist.Worklist.Bits

/-!
# The sets, queues and mirrors of the solver

The solver's state as its steps update it. `Sets` is what a merge of memory reads and writes;
`Agenda` is what is left to propagate and who is to be told of a change. Beside them the solver
keeps bit mirrors of its large sets.

A hash set is the list of the `insert` calls made on it, those that found their element
included: a set may be rearranged by any of them, so the order of a walk may depend on all.
-/
open Function
namespace Pathologist.Worklist

open PointsTo (NodeId LocId SlotGuard Pag Program FnFilter)

variable {P : Program}

/-- The order in which a hash set is walked after these calls of `insert`. -/
structure WalkOrder where
  walk : List ℕ → List ℕ
  perm : ∀ calls, (walk calls).Perm calls.dedup

def loadSources (pag : Pag P) : List NodeId :=
  ((pag.constraints.filter fun c => c.kind = .load).map (·.src)).dedup

structure LocationHolders where
  nodes : List NodeId
  /-- The holders that load, as of the last walk. -/
  loaders : List NodeId
  /-- How many nodes loaded then; none if the holders have changed since. -/
  cachedLoadSources : Option ℕ
  loaders_subset : loaders ⊆ nodes

namespace LocationHolders

def empty : LocationHolders := ⟨[], [], none, List.Subset.refl _⟩

def insert (node : NodeId) (h : LocationHolders) : LocationHolders where
  nodes := h.nodes ++ [node]
  loaders := h.loaders
  cachedLoadSources := if h.nodes.contains node then h.cachedLoadSources else none
  loaders_subset := fun _ hn => List.mem_append_left _ (h.loaders_subset hn)

/-- Bring `loaders` up to date. -/
def loading (order : WalkOrder) (pag : Pag P) (h : LocationHolders) : LocationHolders :=
  if h.cachedLoadSources = some (loadSources pag).length then h
  else
    { nodes := h.nodes
      loaders := (order.walk h.nodes).filter ((loadSources pag).contains ·)
      cachedLoadSources := some (loadSources pag).length
      loaders_subset := fun _ hn =>
        List.mem_dedup.mp ((order.perm h.nodes).mem_iff.mp (List.mem_of_mem_filter hn)) }

@[simp] lemma nodes_loading (order : WalkOrder) (pag : Pag P) (h : LocationHolders) :
    (h.loading order pag).nodes = h.nodes := by
  unfold loading
  split <;> rfl

end LocationHolders

structure Agenda where
  /-- What a node gained since it was last processed. An entry that is not there reads as an
  empty one. -/
  delta : NodeId → List LocId := fun _ => []
  deltaPending : Finset (NodeId × LocId) := ∅
  locNodes : LocId → Option LocationHolders := fun _ => none
  /-- A stack, its top first. -/
  worklist : List NodeId := []
  queued : Finset NodeId := ∅

namespace Agenda

/-- The nodes that are entered as holders of a location. -/
def holdersOf (a : Agenda) (loc : LocId) : List NodeId := (a.locNodes loc).elim [] (·.nodes)

def push (node : NodeId) (a : Agenda) : Agenda :=
  if node ∈ a.queued then a
  else { a with queued := insert node a.queued, worklist := node :: a.worklist }

def recordOne (node : NodeId) (a : Agenda) (loc : LocId) : Agenda :=
  if (node, loc) ∈ a.deltaPending then a
  else { a with
    deltaPending := insert (node, loc) a.deltaPending
    delta := update a.delta node (a.delta node ++ [loc]) }

/-- Record locations for difference propagation. -/
def recordDelta (node : NodeId) (newLocs : List LocId) (a : Agenda) : Agenda :=
  newLocs.foldl (recordOne node) a

def addHolder (node : NodeId) (a : Agenda) (loc : LocId) : Agenda :=
  { a with locNodes := update a.locNodes loc (some (((a.locNodes loc).getD .empty).insert node)) }

/-- Finish a step that added `fresh` to what `dst` points to. -/
def commitFresh (dst : NodeId) (fresh : List LocId) (a : Agenda) : Agenda :=
  if fresh.isEmpty then a
  else ((fresh.foldl (addHolder dst) a).recordDelta dst fresh).push dst

/-- A memory write changed `loc`: the nodes that hold it and load are processed again. -/
def touchLocHolders (order : WalkOrder) (pag : Pag P) (loc : LocId) (a : Agenda) : Agenda :=
  (a.locNodes loc).elim a fun h =>
    (h.loading order pag).loaders.foldl (fun a node => (a.recordDelta node [loc]).push node)
      { a with locNodes := update a.locNodes loc (some (h.loading order pag)) }

/-- Take a node from the worklist, unprocessed: the work budget has run out. -/
def drop (a : Agenda) : Agenda :=
  { a with worklist := a.worklist.tail, queued := a.worklist.head?.elim a.queued a.queued.erase }

/-- Take a node from the worklist, and what it gained. -/
def pop (a : Agenda) : Agenda :=
  a.worklist.head?.elim a fun node =>
    { a.drop with
      delta := update a.delta node []
      deltaPending :=
        (a.delta node).foldl (fun pending loc => pending.erase (node, loc)) a.deltaPending }

end Agenda

structure Sets where
  pts : NodeId → Option (List LocId) := fun _ => none
  /-- The members of a cell, in the order they came; a cell that is not there reads as empty. -/
  memoryPts : LocId → List LocId := fun _ => []
  /-- How much of a cell has been merged into a node; an entry is never left at zero. -/
  mergeSizes : NodeId → LocId → ℕ := fun _ _ => 0
  slotGuard : LocId → Option SlotGuard := fun _ => none

/-- A first test of membership, given what the set holds. -/
abbrev Lookup := List LocId → LocId → Bool

/-- The test of the set itself. -/
def plainLookup : Lookup := fun held loc => held.contains loc

/-- What a set gains: a first pass tests each location against the set as it was. -/
def gained (known : Lookup) (held locs : List LocId) : List LocId :=
  locs.filter fun loc => !known held loc && !held.contains loc

namespace Sets

def held (s : Sets) (node : NodeId) : List LocId := (s.pts node).getD []

/-- Insert locations, in order, into what a node points to. -/
def insertAll (node : NodeId) (locs : List LocId) (s : Sets) : Sets :=
  { s with pts := update s.pts node (some (s.held node ++ locs)) }

/-- Add to `dst` what a cell gained since it was last merged into it; also what was new there. -/
def merge (known : Lookup) (pag : Pag P) (dst : NodeId) (cell : LocId) (s : Sets) :
    Sets × List LocId :=
  let seen := s.mergeSizes dst cell
  if (s.memoryPts cell).length ≤ seen then (s, [])
  else
    let sizes := update (s.mergeSizes dst) cell (s.memoryPts cell).length
    let filter := FnFilter.ofGuard (s.slotGuard cell)
    let fresh :=
      gained known (s.held dst) (((s.memoryPts cell).drop seen).filter (filter.admits pag))
    ({ s with mergeSizes := update s.mergeSizes dst sizes }.insertAll dst fresh, fresh)

/-- One location that a load steps over. -/
def loadLoc (known : Lookup) (pag : Pag P) (dst : NodeId) (loc : LocId) (s : Sets) :
    Sets × List LocId :=
  if (pag.fnForLoc loc).isSome then
    (s.insertAll dst [loc], if (s.held dst).contains loc then [] else [loc])
  else if pag.isStringLit loc then (s, [])
  else s.merge known pag dst loc

/-- The locations a load steps over, with everything that was new at `dst`. -/
def loadAll (known : Lookup) (pag : Pag P) (dst : NodeId) : List LocId → Sets → Sets × List LocId
  | [], s => (s, [])
  | loc :: locs, s =>
    let first := s.loadLoc known pag dst loc
    let rest := first.1.loadAll known pag dst locs
    (rest.1, first.2 ++ rest.2)

end Sets

/-- `t` differs from `s` in that `dst` points to `fresh` as well. -/
def Sets.Gains (s t : Sets) (dst : NodeId) (fresh : List LocId) : Prop :=
  ∀ node loc, loc ∈ t.held node ↔ loc ∈ s.held node ∨ node = dst ∧ loc ∈ fresh

namespace Sets
variable (known : Lookup) (pag : Pag P) (dst : NodeId)

lemma gains_insertAll (s : Sets) (node : NodeId) (locs : List LocId) :
    s.Gains (s.insertAll node locs) node locs := by
  intro n loc
  rcases eq_or_ne n node with rfl | hne
  · simp [held, insertAll]
  · simp [held, insertAll, hne]

lemma gains_insertAll_of_mem {s : Sets} {node : NodeId} {loc : LocId} (hin : loc ∈ s.held node) :
    s.Gains (s.insertAll node [loc]) node [] := by
  intro n l
  rw [s.gains_insertAll]
  simp only [List.mem_singleton, List.not_mem_nil, and_false, or_false, or_iff_left_iff_imp]
  rintro ⟨rfl, rfl⟩
  exact hin

lemma gains_merge (cell : LocId) (s : Sets) :
    s.Gains (s.merge known pag dst cell).1 dst (s.merge known pag dst cell).2 := by
  unfold merge
  dsimp only
  split
  · intro n loc
    simp
  · exact gains_insertAll { s with mergeSizes := _ } dst _

lemma gains_loadLoc (loc : LocId) (s : Sets) :
    s.Gains (s.loadLoc known pag dst loc).1 dst (s.loadLoc known pag dst loc).2 := by
  unfold loadLoc
  split
  · split
    · next hin => exact gains_insertAll_of_mem (List.contains_iff_mem.mp hin)
    · exact s.gains_insertAll dst [loc]
  split
  · intro n l
    simp
  · exact s.gains_merge known pag dst loc

lemma gains_loadAll (locs : List LocId) (s : Sets) :
    s.Gains (s.loadAll known pag dst locs).1 dst (s.loadAll known pag dst locs).2 := by
  induction locs generalizing s with
  | nil =>
    intro n l
    simp [loadAll]
  | cons loc locs ih =>
    intro n l
    simp only [loadAll]
    rw [ih, s.gains_loadLoc known pag dst loc, List.mem_append]
    tauto

/-! What a load leaves alone. -/

lemma memoryPts_merge (cell : LocId) (s : Sets) :
    (s.merge known pag dst cell).1.memoryPts = s.memoryPts := by
  unfold merge
  dsimp only
  split <;> rfl

lemma memoryPts_loadLoc (loc : LocId) (s : Sets) :
    (s.loadLoc known pag dst loc).1.memoryPts = s.memoryPts := by
  unfold loadLoc
  split
  · rfl
  · split
    · rfl
    · exact memoryPts_merge known pag dst loc s

lemma memoryPts_loadAll (locs : List LocId) (s : Sets) :
    (s.loadAll known pag dst locs).1.memoryPts = s.memoryPts := by
  induction locs generalizing s with
  | nil => rfl
  | cons loc locs ih => exact (ih _).trans (s.memoryPts_loadLoc known pag dst loc)

end Sets

/-- Insert into a set that keeps the order in which its members came. -/
def insertNew (entry : List LocId) (loc : LocId) : List LocId :=
  if entry.contains loc then entry else entry ++ [loc]

/-- All that the solver computes with, its mirrors apart. -/
structure Facts extends Sets, Agenda

/-- How large a set is before it gets a mirror. -/
def mirrorMin : ℕ := 64

structure SolverState extends Facts where
  ptsBits : NodeId → Option Mirror := fun _ => none
  memoryBits : LocId → Option Mirror := fun _ => none
  locBits : LocBits := .empty

namespace SolverState
variable (order : WalkOrder)

/-- The lookup in a node's mirror, as it stands. -/
def ptsKnown (st : SolverState) (dst : NodeId) : Lookup := fun _ loc =>
  (st.ptsBits dst).any (st.locBits.test · loc)

/-- Keep a node's mirror in step with what was `added`, creating it once the set is large. -/
def mirrorPts (dst : NodeId) (added : List LocId) (st : SolverState) : SolverState :=
  match st.ptsBits dst with
  | some bits =>
    let set := st.locBits.setAll bits added
    { st with locBits := set.1, ptsBits := update st.ptsBits dst (some set.2) }
  | none =>
    if mirrorMin ≤ (st.held dst).dedup.length then
      let mirror := st.locBits.mirror (order.walk (st.held dst))
      { st with locBits := mirror.1, ptsBits := update st.ptsBits dst (some mirror.2) }
    else st

def commitFresh (dst : NodeId) (fresh : List LocId) (st : SolverState) : SolverState :=
  { st with toAgenda := st.toAgenda.commitFresh dst fresh }

def finishMerge (dst : NodeId) (fresh : List LocId) (st : SolverState) : SolverState :=
  if fresh.isEmpty then st else (st.mirrorPts order dst fresh).commitFresh dst fresh

def addPts (node : NodeId) (loc : LocId) (st : SolverState) : SolverState :=
  let t := { st with toSets := st.toSets.insertAll node [loc] }
  if (st.held node).contains loc then t
  else (t.mirrorPts order node [loc]).commitFresh node [loc]

def propagateLocs (dst : NodeId) (locs : List LocId) (st : SolverState) : SolverState :=
  let fresh := gained (st.ptsKnown dst) (st.held dst) locs
  ({ st with toSets := st.toSets.insertAll dst fresh }.mirrorPts order dst fresh).commitFresh dst
    fresh

def mergeMemoryIntoIfGrown (pag : Pag P) (dst : NodeId) (cell : LocId) (st : SolverState) :
    SolverState :=
  let merged := st.toSets.merge (st.ptsKnown dst) pag dst cell
  { st with toSets := merged.1 }.finishMerge order dst merged.2

/-- A load that steps over `locs` in one call: the mirror is asked as it stood before, and what
was new is committed at the end. -/
def loadInto (pag : Pag P) (dst : NodeId) (locs : List LocId) (st : SolverState) : SolverState :=
  let loaded := st.toSets.loadAll (st.ptsKnown dst) pag dst locs
  { st with toSets := loaded.1 }.finishMerge order dst loaded.2

/-- Insert a location that a cell's mirror does not answer for. -/
def writeBit (acc : List LocId × LocBits × Mirror) (loc : LocId) : List LocId × LocBits × Mirror :=
  if acc.2.1.test acc.2.2 loc then acc else (insertNew acc.1 loc, acc.2.1.set acc.2.2 loc)

def writeMemory (cell : LocId) (locs : List LocId) (st : SolverState) : SolverState :=
  match st.memoryBits cell with
  | some bits =>
    let written := locs.foldl writeBit (st.memoryPts cell, st.locBits, bits)
    { st with
      memoryPts := update st.memoryPts cell written.1
      locBits := written.2.1
      memoryBits := update st.memoryBits cell (some written.2.2) }
  | none =>
    let entry := locs.foldl insertNew (st.memoryPts cell)
    let t := { st with memoryPts := update st.memoryPts cell entry }
    if mirrorMin ≤ entry.length then
      let mirror := st.locBits.mirror entry
      { t with locBits := mirror.1, memoryBits := update st.memoryBits cell (some mirror.2) }
    else t

end SolverState

/-! ## The steps without mirrors

The same steps with another first test in place of the one in the mirrors. -/

namespace Facts

def addPts (node : NodeId) (loc : LocId) (s : Facts) : Facts where
  toSets := s.toSets.insertAll node [loc]
  toAgenda := if (s.held node).contains loc then s.toAgenda else s.toAgenda.commitFresh node [loc]

def propagateLocs (known : Lookup) (dst : NodeId) (locs : List LocId) (s : Facts) : Facts :=
  let fresh := gained known (s.held dst) locs
  { toSets := s.toSets.insertAll dst fresh, toAgenda := s.toAgenda.commitFresh dst fresh }

def mergeMemoryIntoIfGrown (known : Lookup) (pag : Pag P) (dst : NodeId) (cell : LocId)
    (s : Facts) : Facts :=
  let merged := s.toSets.merge known pag dst cell
  { toSets := merged.1, toAgenda := s.toAgenda.commitFresh dst merged.2 }

def loadInto (known : Lookup) (pag : Pag P) (dst : NodeId) (locs : List LocId) (s : Facts) :
    Facts :=
  let loaded := s.toSets.loadAll known pag dst locs
  { toSets := loaded.1, toAgenda := s.toAgenda.commitFresh dst loaded.2 }

def writeMemory (cell : LocId) (locs : List LocId) (s : Facts) : Facts :=
  { s with memoryPts := update s.memoryPts cell (locs.foldl insertNew (s.memoryPts cell)) }

end Facts

/-! ## The steps of the solver -/

/-- The calls by which the solver reads and updates its state. -/
inductive Call
  | push (node : NodeId)
  | addPts (node : NodeId) (loc : LocId)
  | propagateLocs (dst : NodeId) (locs : List LocId)
  | mergeMemoryIntoIfGrown (dst : NodeId) (cell : LocId)
  | loadInto (dst : NodeId) (locs : List LocId)
  | writeMemory (cell : LocId) (locs : List LocId)
  | touchLocHolders (loc : LocId)
  /-- A location gets its guard. -/
  | guard (loc : LocId) (guard : SlotGuard)
  /-- A node is taken from the worklist to be processed. -/
  | pop

def SolverState.call (order : WalkOrder) (pag : Pag P) (st : SolverState) : Call → SolverState
  | .push node => { st with toAgenda := st.toAgenda.push node }
  | .addPts node loc => st.addPts order node loc
  | .propagateLocs dst locs => st.propagateLocs order dst locs
  | .mergeMemoryIntoIfGrown dst cell => st.mergeMemoryIntoIfGrown order pag dst cell
  | .loadInto dst locs => st.loadInto order pag dst locs
  | .writeMemory cell locs => st.writeMemory cell locs
  | .touchLocHolders loc => { st with toAgenda := st.toAgenda.touchLocHolders order pag loc }
  | .guard loc guard => { st with slotGuard := update st.slotGuard loc (some guard) }
  | .pop => { st with toAgenda := st.toAgenda.pop }

/-- Any calls one after another, each with the graph as it then is. -/
def SolverState.run (order : WalkOrder) (calls : List (Pag P × Call)) (st : SolverState) :
    SolverState :=
  calls.foldl (fun st c => st.call order c.1 c.2) st

/-- The same call with another first test in place of the lookup in the mirrors. -/
def Facts.call (known : Lookup) (order : WalkOrder) (pag : Pag P) (s : Facts) : Call → Facts
  | .push node => { s with toAgenda := s.toAgenda.push node }
  | .addPts node loc => s.addPts node loc
  | .propagateLocs dst locs => s.propagateLocs known dst locs
  | .mergeMemoryIntoIfGrown dst cell => s.mergeMemoryIntoIfGrown known pag dst cell
  | .loadInto dst locs => s.loadInto known pag dst locs
  | .writeMemory cell locs => s.writeMemory cell locs
  | .touchLocHolders loc => { s with toAgenda := s.toAgenda.touchLocHolders order pag loc }
  | .guard loc guard => { s with slotGuard := update s.slotGuard loc (some guard) }
  | .pop => { s with toAgenda := s.toAgenda.pop }

namespace SolverState
variable (order : WalkOrder) (st : SolverState)

@[simp] lemma toFacts_mirrorPts (dst : NodeId) (added : List LocId) :
    (st.mirrorPts order dst added).toFacts = st.toFacts := by
  unfold mirrorPts
  split
  · rfl
  · split <;> rfl

lemma toFacts_finishMerge (dst : NodeId) (fresh : List LocId) :
    (st.finishMerge order dst fresh).toFacts =
      { st.toFacts with toAgenda := st.toAgenda.commitFresh dst fresh } := by
  unfold finishMerge
  split
  · next he => rw [Agenda.commitFresh, if_pos he]
  · simp [commitFresh]

@[simp] lemma toFacts_addPts (node : NodeId) (loc : LocId) :
    (st.addPts order node loc).toFacts = st.toFacts.addPts node loc := by
  unfold addPts Facts.addPts
  split <;> simp [commitFresh]

@[simp] lemma toFacts_propagateLocs (dst : NodeId) (locs : List LocId) :
    (st.propagateLocs order dst locs).toFacts =
      st.toFacts.propagateLocs (st.ptsKnown dst) dst locs := by
  simp [propagateLocs, Facts.propagateLocs, commitFresh]

@[simp] lemma toFacts_mergeMemoryIntoIfGrown (pag : Pag P) (dst : NodeId) (cell : LocId) :
    (st.mergeMemoryIntoIfGrown order pag dst cell).toFacts =
      st.toFacts.mergeMemoryIntoIfGrown (st.ptsKnown dst) pag dst cell := by
  simp [mergeMemoryIntoIfGrown, Facts.mergeMemoryIntoIfGrown, toFacts_finishMerge]

@[simp] lemma toFacts_loadInto (pag : Pag P) (dst : NodeId) (locs : List LocId) :
    (st.loadInto order pag dst locs).toFacts =
      st.toFacts.loadInto (st.ptsKnown dst) pag dst locs := by
  simp [loadInto, Facts.loadInto, toFacts_finishMerge]

end SolverState
end Pathologist.Worklist

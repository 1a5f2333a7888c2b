import Pathologist.Lib.Breadth
import Pathologist.Lib.Distinct
import Mathlib.Data.List.Sort

/-!
# The calls around a function

`call_graph` walks the call edges of a database breadth first from a function. It lists what lies
within the depth it is given, and says whether something lies beyond. Repeated edges are dropped
only where they are adjacent, which the order of the rows decides.
-/
namespace Pathologist.Calls
open List Lib Breadth Distinct

inductive Direction
  | down | up
deriving DecidableEq

structure EdgeSite where
  path : String := ""
  line : ℤ := 0
  col : ℤ := 0
deriving DecidableEq

/-- What an edge is shown with. -/
inductive Label
  | direct | indirect | ambiguous | external | ipc | call | unresolved
deriving DecidableEq

def leakResolution : String → Label
  | "direct" => .direct
  | "indirect" => .indirect
  | "ambiguous" => .ambiguous
  | "external" => .external
  | "ipc" => .ipc
  | _ => .call

/-- A row of `call_edges`. -/
structure CallEdge where
  callSiteId : Option ℤ
  callerFnId : ℤ
  calleeFnId : ℤ
  resolution : String

/-- A row of `call_sites`. -/
structure CallSite where
  id : ℤ
  callerFnId : ℤ
  fileId : ℤ
  line : ℤ
  col : ℤ
  calleeText : String
  isDirect : Bool

/-- The tables, with their keys. The functions are those with a file. -/
structure CallDb where
  functions : List ℤ
  files : List (ℤ × String)
  callSites : List CallSite
  callEdges : List CallEdge
  nonneg : ∀ id ∈ functions, 0 ≤ id
  site_ids : (callSites.map (·.id)).Nodup
  sites : ∀ s ∈ callSites, 0 ≤ s.id ∧ s.callerFnId ∈ functions
  edges : ∀ e ∈ callEdges, e.callerFnId ∈ functions ∧ e.calleeFnId ∈ functions

structure Neighbor where
  id : ℤ
  label : Label
  site : EdgeSite
deriving DecidableEq

abbrev Adjacency := ℤ → List Neighbor

/-- The end that an edge is followed from, and the other. -/
def Direction.ends (e : CallEdge) : Direction → ℤ × ℤ
  | down => (e.callerFnId, e.calleeFnId)
  | up => (e.calleeFnId, e.callerFnId)

namespace CallDb
variable (db : CallDb)

def position (s : CallSite) : Option EdgeSite :=
  (db.files.lookup s.fileId).map (⟨·, s.line, s.col⟩)

def edgeSite (e : CallEdge) : EdgeSite :=
  (e.callSiteId.bind fun id => (db.callSites.find? (·.id = id)).bind db.position).getD {}

def loadCallAdjacency (dir : Direction) : Adjacency := fun id =>
  (db.callEdges.filter fun e => (dir.ends e).1 = id).map fun e =>
    ⟨(dir.ends e).2, leakResolution e.resolution, db.edgeSite e⟩

/-- The indirect sites that no edge names, in the order of their ids. -/
def unresolvedRows : List (CallSite × EdgeSite) :=
  ((db.callSites.insertionSort (·.id ≤ ·.id)).filter fun s =>
    !s.isDirect && (db.position s).isSome && !db.callEdges.any (·.callSiteId = some s.id)).map
      fun s => (s, (db.position s).getD {})

/-- Of the sites that are alike the first is kept. -/
def keepFirst : List (ℤ × String × EdgeSite) → List (CallSite × EdgeSite) → List (ℤ × Neighbor)
  | _, [] => []
  | seen, (s, site) :: rows =>
    if (s.callerFnId, s.calleeText, site) ∈ seen then keepFirst seen rows
    else (s.callerFnId, ⟨-s.id - 1, .unresolved, site⟩) ::
      keepFirst ((s.callerFnId, s.calleeText, site) :: seen) rows

def unresolved (dir : Direction) : List (ℤ × Neighbor) :=
  if dir = .down then keepFirst [] db.unresolvedRows else []

def adjacency (dir : Direction) : Adjacency := fun id =>
  db.loadCallAdjacency dir id ++ ((db.unresolved dir).filter (·.1 = id)).map (·.2)

end CallDb

structure GraphEdge where
  src : ℤ
  dst : ℤ
  label : Label
  site : EdgeSite
deriving DecidableEq

structure GraphWalk extends Walk ℤ where
  edges : List GraphEdge := []
  truncated : Bool := false

/-- The edges out of a node. -/
def block (adj : Adjacency) (id : ℤ) : List GraphEdge :=
  (adj id).map fun n => ⟨id, n.id, n.label, n.site⟩

def targets (adj : Adjacency) (id : ℤ) : List ℤ := (adj id).map (·.id)

def GraphWalk.step (adj : Adjacency) (maxDepth : ℕ) (g : GraphWalk) : Option GraphWalk :=
  match g.queue with
  | [] => none
  | (id, depth) :: queue =>
    let listed : Walk ℤ := ⟨g.order ++ [(id, depth)], queue⟩
    if depth = maxDepth then
      some { g with
        toWalk := listed
        truncated := g.truncated || (targets adj id).any (· ∉ g.visited) }
    else
      some { g with
        toWalk := listed.visit (depth + 1) (targets adj id)
        edges := g.edges ++ block adj id }

structure QueryGraph where
  order : List (ℤ × ℕ)
  edges : List GraphEdge
  truncated : Bool

namespace CallDb
variable (db : CallDb) (root : ℤ) (dir : Direction) (maxDepth : ℕ)

def walk : GraphWalk :=
  Loop.run (GraphWalk.step (db.adjacency dir) maxDepth)
    (1 + (db.callEdges.length + (db.unresolved dir).length)) { toWalk := .start [root] }

def labels : List ℤ := db.functions ++ (db.unresolved dir).map (·.2.id)

/-- A node without a label ends the query. -/
def callGraph : Option QueryGraph :=
  let g := db.walk root dir maxDepth
  if root ∈ db.functions ∧ g.order.all (·.1 ∈ db.labels dir) then
    some ⟨g.order, g.edges.destutter (· ≠ ·), g.truncated⟩
  else none

/-- The least number of calls from `root` to `id`. -/
def Distance (id : ℤ) (depth : ℕ) : Prop :=
  IsLeast {d | Layer (targets (db.adjacency dir)) [root] d id} depth

end CallDb

section Walks
variable {adj : Adjacency} {root : ℤ} {maxDepth : ℕ} {g g' : GraphWalk}

/-- The walk's own lists, and what it has made of them. -/
structure Sound (adj : Adjacency) (root : ℤ) (maxDepth : ℕ) (g : GraphWalk) : Prop where
  level : Level (targets adj) (some maxDepth) [root] g.toWalk
  edges : g.edges = (g.order.filter (·.2 ≠ maxDepth)).flatMap fun e => block adj e.1
  truncated : g.truncated = true ↔ ∃ id, (id, maxDepth) ∈ g.order ∧
    ∃ other ∈ targets adj id, other ∉ g.visited

lemma map_step (hg : Sound adj root maxDepth g) :
    (g.step adj maxDepth).map (·.toWalk) = g.toWalk.step (targets adj) (some maxDepth) := by
  unfold GraphWalk.step Walk.step
  cases hq : g.queue with
  | nil => rfl
  | cons e queue =>
    obtain ⟨id, depth⟩ := e
    have hle : depth ≤ maxDepth :=
      (hg.level.layer (mem_append_right _ (hq ▸ mem_cons_self))).1 maxDepth rfl
    by_cases hd : depth = maxDepth
    · simp [hd, Walk.visit]
    · simp [hd, hle.lt_of_ne hd]

lemma Sound.step (hg : Sound adj root maxDepth g) (h : g.step adj maxDepth = some g') :
    Sound adj root maxDepth g' := by
  have hlevel := hg.level.step ((map_step hg).symm.trans (by rw [h]; rfl))
  unfold GraphWalk.step at h
  split at h
  · cases h
  rename_i id depth queue hq
  have hv : Walk.visited ⟨g.order ++ [(id, depth)], queue⟩ = g.visited := by
    simp [Walk.visited, Walk.entries, hq]
  have hsorted : ∀ e ∈ g.order, e.2 ≤ depth := fun e he =>
    (pairwise_append.mp hg.level.sorted).2.2 e he _ (hq ▸ mem_cons_self)
  obtain ⟨new, ha, -⟩ := exists_visit (w := ⟨g.order ++ [(id, depth)], queue⟩) (depth + 1)
    (targets adj id) (hv ▸ hg.level.nodup)
  split at h
  · cases h
    subst depth
    refine ⟨hlevel, by simp [hg.edges], ?_⟩
    simp only [Bool.or_eq_true, hg.truncated, hv]
    simp [or_and_right, exists_or]
  · -- Nothing is listed at the last level as long as a node is expanded.
    rename_i hd
    have hnone : ∀ other, (other, maxDepth) ∉ g.order := by
      intro other ho
      have hle := (hg.level.layer (mem_append_right _ (hq ▸ mem_cons_self))).1 maxDepth rfl
      exact hd (hle.antisymm (hsorted _ ho))
    cases h
    rw [ha] at hlevel ⊢
    refine ⟨hlevel, by simp [hg.edges, hd], ?_⟩
    simp [hg.truncated, hnone, Ne.symm hd]

lemma sound_start : Sound adj root maxDepth { toWalk := .start [root] } :=
  ⟨level_start [root], rfl, by simp [Walk.start, Walk.visit, Walk.visited, Walk.entries]⟩

end Walks

namespace CallDb
variable {db : CallDb} {root id : ℤ} {dir : Direction} {maxDepth depth : ℕ}

/-- The nodes that the walk may come to. -/
def ends (db : CallDb) (root : ℤ) (dir : Direction) : List ℤ :=
  root :: (db.callEdges.map (fun e => (dir.ends e).2) ++ (db.unresolved dir).map (·.2.id))

lemma mem_ends_of_layer (h : Layer (targets (db.adjacency dir)) [root] depth id) :
    id ∈ db.ends root dir := by
  cases depth with
  | zero => exact mem_cons.mpr (.inl (mem_singleton.mp h))
  | succ d =>
    obtain ⟨x, -, hid⟩ := h
    refine mem_cons_of_mem _ ?_
    simp only [targets, adjacency, loadCallAdjacency, mem_map, mem_append, mem_filter] at hid ⊢
    obtain ⟨n, ⟨e, ⟨he, -⟩, rfl⟩ | ⟨u, ⟨hu, -⟩, rfl⟩, rfl⟩ := hid
    · exact .inl ⟨e, he, rfl⟩
    · exact .inr ⟨u, hu, rfl⟩

lemma ends_subset_labels (h : root ∈ db.functions) : db.ends root dir ⊆ db.labels dir := by
  intro id hid
  simp only [ends, mem_cons, mem_append, mem_map] at hid
  obtain rfl | ⟨e, he, rfl⟩ | hu := hid
  · exact mem_append_left _ h
  · have hends := db.edges e he
    cases dir
    exacts [mem_append_left _ hends.2, mem_append_left _ hends.1]
  · exact mem_append_right _ (mem_map.mpr hu)

lemma sound_walk : Sound (db.adjacency dir) root maxDepth (db.walk root dir maxDepth) :=
  Loop.run_invariant (fun _ _ hg h => hg.step h) _ sound_start

lemma queue_walk : (db.walk root dir maxDepth).queue = [] := by
  have hrun : (db.walk root dir maxDepth).toWalk = _ :=
    Loop.run_map (fun _ _ hg h => hg.step h) (fun _ hg => map_step hg) _
      (@sound_start (db.adjacency dir) root maxDepth)
  rw [hrun]
  refine (level_start [root]).toInv.queue_eq_nil (S := db.ends root dir) ?_ fun id hid => ?_
  · simp [ends, Nat.add_comm]
  · rw [← hrun] at hid
    obtain ⟨⟨id, d⟩, he, rfl⟩ := mem_map.mp hid
    exact mem_ends_of_layer (sound_walk.level.layer he).2

lemma visited_walk :
    (db.walk root dir maxDepth).visited = (db.walk root dir maxDepth).order.map Prod.fst := by
  simp [Walk.visited, Walk.entries, queue_walk]

lemma mem_order_walk : (id, depth) ∈ (db.walk root dir maxDepth).order ↔
    depth ≤ maxDepth ∧ db.Distance root dir id depth := by
  rw [sound_walk.level.mem_order queue_walk]
  simp [Distance]

lemma callGraph_eq (h : root ∈ db.functions) : db.callGraph root dir maxDepth =
    some ⟨(db.walk root dir maxDepth).order, (db.walk root dir maxDepth).edges.destutter (· ≠ ·),
      (db.walk root dir maxDepth).truncated⟩ := by
  refine if_pos ⟨h, all_eq_true.mpr fun ⟨id, d⟩ he => decide_eq_true ?_⟩
  exact ends_subset_labels h (mem_ends_of_layer (mem_order_walk.mp he).2.1)

lemma truncated_walk : (db.walk root dir maxDepth).truncated = true ↔
    ∃ id, db.Distance root dir id (maxDepth + 1) := by
  rw [sound_walk.truncated, visited_walk]
  constructor
  · rintro ⟨x, hx, id, hid, hnot⟩
    have hlayer : Layer (targets (db.adjacency dir)) [root] (maxDepth + 1) id :=
      ⟨x, (mem_order_walk.mp hx).2.1, hid⟩
    obtain ⟨d, hle, hd⟩ := exists_isLeast hlayer
    obtain rfl : d = maxDepth + 1 := hle.eq_of_not_lt fun hlt =>
      hnot (mem_map.mpr ⟨(id, d), mem_order_walk.mpr ⟨Nat.le_of_lt_succ hlt, hd⟩, rfl⟩)
    exact ⟨id, hd⟩
  · rintro ⟨id, ⟨x, hx, hid⟩, hleast⟩
    obtain ⟨d, hle, hd⟩ := exists_isLeast hx
    have hnext : Layer (targets (db.adjacency dir)) [root] (d + 1) id := ⟨x, hd.1, hid⟩
    obtain rfl : d = maxDepth := hle.antisymm (Nat.le_of_succ_le_succ (hleast hnext))
    refine ⟨x, mem_order_walk.mpr ⟨le_rfl, hd⟩, id, hid, fun hmem => ?_⟩
    obtain ⟨⟨id, k⟩, hk, rfl⟩ := mem_map.mp hmem
    obtain ⟨hk, hlayer, -⟩ := mem_order_walk.mp hk
    exact (hleast hlayer).not_gt (Nat.lt_succ_of_le hk)

lemma mem_keepFirst {seen rows} {u : ℤ × Neighbor} (h : u ∈ keepFirst seen rows) :
    ∃ r ∈ rows, u = (r.1.callerFnId, ⟨-r.1.id - 1, .unresolved, r.2⟩) := by
  fun_induction keepFirst seen rows with
  | case1 => cases h
  | case2 _ _ _ _ _ ih =>
    obtain ⟨r, hr, rfl⟩ := ih h
    exact ⟨r, mem_cons_of_mem _ hr, rfl⟩
  | case3 _ s site _ _ ih =>
    rcases mem_cons.mp h with rfl | h
    · exact ⟨(s, site), mem_cons_self, rfl⟩
    obtain ⟨r, hr, rfl⟩ := ih h
    exact ⟨r, mem_cons_of_mem _ hr, rfl⟩

lemma mem_unresolved {u : ℤ × Neighbor} (h : u ∈ db.unresolved dir) :
    ∃ s ∈ db.callSites, u.1 = s.callerFnId ∧ u.2.id = -s.id - 1 ∧ u.2.label = .unresolved := by
  unfold unresolved at h
  split at h
  · obtain ⟨r, hr, rfl⟩ := mem_keepFirst h
    obtain ⟨s, hs, rfl⟩ := mem_map.mp hr
    exact ⟨s, (mem_insertionSort _).mp (mem_filter.mp hs).1, rfl, rfl, rfl⟩
  · cases h

/-- Two inputs keep one call of a header, and another call of its function comes between. -/
def headerCall : CallDb where
  functions := [0, 1, 2]
  files := [(0, "a.h")]
  callSites := [⟨0, 0, 0, 3, 5, "f", true⟩, ⟨1, 0, 0, 4, 5, "g", true⟩, ⟨2, 0, 0, 3, 5, "f", true⟩]
  callEdges := [⟨some 0, 0, 1, "direct"⟩, ⟨some 1, 0, 2, "direct"⟩, ⟨some 2, 0, 1, "direct"⟩]
  nonneg := by decide
  site_ids := by decide
  sites := by decide
  edges := by decide

/-- A graph that is not truncated lacks no node that a search of any other depth has. -/
theorem callGraph_complete (other : ℕ) (h : root ∈ db.functions) :
    ∃ g g', db.callGraph root dir maxDepth = some g ∧ db.callGraph root dir other = some g' ∧
      (g.truncated = false → g'.order ⊆ g.order) := by
  refine ⟨_, _, callGraph_eq h, callGraph_eq h, fun ht ⟨id, d⟩ hd => ?_⟩
  have hnear (k : ℕ) {x : ℤ} (hx : Layer (targets (db.adjacency dir)) [root] k x) :
      ∃ d ≤ maxDepth, db.Distance root dir x d := by
    induction k generalizing x with
    | zero => exact ⟨0, Nat.zero_le _, hx, fun _ _ => Nat.zero_le _⟩
    | succ k ih =>
      obtain ⟨y, hy, hxy⟩ := hx
      obtain ⟨d, hd, hdist⟩ := ih hy
      obtain ⟨e, he, hleast⟩ := exists_isLeast (n := d + 1) ⟨y, hdist.1, hxy⟩
      have hne : e ≠ maxDepth + 1 := by
        rintro rfl
        exact Bool.false_ne_true (ht.symm.trans (truncated_walk.mpr ⟨x, hleast⟩))
      exact ⟨e, by omega, hleast⟩
  obtain ⟨-, hdist⟩ := mem_order_walk.mp hd
  obtain ⟨e, he, hleast⟩ := hnear d hdist.1
  exact mem_order_walk.mpr ⟨(hdist.2 hleast.1).trans he, hdist⟩

theorem headerCall_complete : ∃ g g', headerCall.callGraph 0 .down 2 = some g ∧
    headerCall.callGraph 0 .down 9 = some g' ∧ (g.truncated = false → g'.order ⊆ g.order) :=
  callGraph_complete 9 (by decide)

lemma sublist_keepFirst (seen) (rows : List (CallSite × EdgeSite)) :
    (keepFirst seen rows).map (·.2.id) <+ rows.map fun r => -r.1.id - 1 := by
  fun_induction keepFirst seen rows with
  | case1 => simp
  | case2 _ _ _ _ _ ih => exact ih.cons _
  | case3 _ _ _ _ _ ih => exact ih.cons_cons _

lemma nodup_unresolved : ((db.unresolved dir).map (·.2.id)).Nodup := by
  unfold unresolved
  split
  · refine (sublist_keepFirst _ _).nodup ?_
    have hids : ((db.callSites.insertionSort (·.id ≤ ·.id)).map (·.id)).Nodup :=
      ((perm_insertionSort ..).map _).nodup_iff.mpr db.site_ids
    have hneg : Function.Injective fun id : ℤ => -id - 1 := fun a b h => by simpa using h
    rw [unresolvedRows, map_map]
    refine Nodup.sublist (filter_sublist.map _) ?_
    have hmap := hids.map hneg
    rw [map_map] at hmap
    exact hmap
  · exact nodup_nil

lemma together_adjacency :
    Together (db.adjacency dir id) ↔ Together (db.loadCallAdjacency dir id) := by
  have hnodup : (((db.unresolved dir).filter (·.1 = id)).map (·.2)).Nodup := by
    refine .of_map (·.id) ?_
    rw [map_map]
    exact (filter_sublist.map _).nodup nodup_unresolved
  rw [adjacency, together_append, and_iff_left (together_of_nodup hnodup)]
  intro n hn hu
  obtain ⟨e, -, rfl⟩ := mem_map.mp hn
  obtain ⟨u, hu, heq⟩ := mem_map.mp hu
  obtain ⟨s, -, -, -, hlabel⟩ := mem_unresolved (mem_filter.mp hu).1
  have hleak : leakResolution e.resolution ≠ .unresolved := by
    unfold leakResolution
    split <;> nofun
  exact hleak (by rw [heq] at hlabel; exact hlabel)

lemma together_block {adj : Adjacency} : Together (block adj id) ↔ Together (adj id) :=
  together_map fun ⟨_, _, _⟩ ⟨_, _, _⟩ h => by simpa using h

/-- The edges of each node stand together. -/
lemma together_flatMap {adj : Adjacency} {l : List (ℤ × ℕ)} (h : (l.map Prod.fst).Nodup) :
    Together (l.flatMap fun e => block adj e.1) ↔ ∀ e ∈ l, Together (adj e.1) := by
  induction l with
  | nil => simp [together_of_nodup]
  | cons e l ih =>
    obtain ⟨he, hl⟩ := nodup_cons.mp h
    rw [flatMap_cons, together_append, together_block, ih hl, forall_mem_cons]
    intro a ha hb
    obtain ⟨n, -, rfl⟩ := mem_map.mp ha
    obtain ⟨e', he', hb⟩ := mem_flatMap.mp hb
    obtain ⟨n', -, heq⟩ := mem_map.mp hb
    exact he (mem_map.mpr ⟨e', he', congrArg GraphEdge.src heq⟩)

/-- No edge is listed twice exactly if the rows that repeat a call stand together among those of
their function, for every function whose calls are listed. -/
theorem callGraph_edges_nodup_iff (db : CallDb) (root : ℤ) (dir : Direction) (maxDepth : ℕ)
    (h : root ∈ db.functions) : ∃ g, db.callGraph root dir maxDepth = some g ∧ (g.edges.Nodup ↔
      ∀ id depth, depth < maxDepth → db.Distance root dir id depth →
        Together (db.loadCallAdjacency dir id)) := by
  refine ⟨_, callGraph_eq h, ?_⟩
  have hnodup : ((db.walk root dir maxDepth).order.map Prod.fst).Nodup :=
    visited_walk ▸ sound_walk.level.nodup
  rw [nodup_destutter_ne, sound_walk.edges,
    together_flatMap (hnodup.sublist (filter_sublist.map _))]
  simp only [mem_filter, decide_eq_true_eq, together_adjacency, Prod.forall, mem_order_walk]
  refine forall₂_congr fun id depth => ⟨fun ht hlt hd => ht ⟨⟨hlt.le, hd⟩, hlt.ne⟩, ?_⟩
  rintro ht ⟨⟨hle, hd⟩, hne⟩
  exact ht (hle.lt_of_ne hne) hd

theorem callGraph_repeats_headerCall :
    (headerCall.callGraph 0 .down 1).any (fun g => decide ¬ g.edges.Nodup) = true := by
  decide +kernel

theorem callGraph_headerCall_nodup : ∃ g, headerCall.callGraph 1 .up 1 = some g ∧ (g.edges.Nodup ↔
    ∀ id depth, depth < 1 → headerCall.Distance 1 .up id depth →
      Together (headerCall.loadCallAdjacency .up id)) :=
  callGraph_edges_nodup_iff headerCall 1 .up 1 (by decide)

end CallDb
end Pathologist.Calls

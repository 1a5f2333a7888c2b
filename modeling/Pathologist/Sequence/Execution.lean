import Pathologist.Sequence.Relate

/-!
# Executions of a graph

An execution walks the blocks from the entry and invokes their events. A block is
left by a normal edge after all of its events, by an exception edge after some of
them, and by a transfer the graph does not model where one is recorded: at an
event under a control-hiding gap, once everything ordered before that event was
invoked, or through an `unsupported` edge, after all events of the block. Such a
transfer lands at the start of any block that is first in its segment.
-/
open Relation
namespace Pathologist.Sequence
open Pathologist.Cfg Pathologist.Lib.Digraph Pathologist.Lib.Dominators

/-- Where an execution stands: the block, the events invoked since the block was
entered, and all events invoked so far. -/
structure Execution where
  block : ℕ
  done : List ℕ
  trace : List ℕ
deriving Repr, DecidableEq

namespace LoadedCfg
variable {g : LoadedCfg} {s s' : Execution} {dom : Dominance}

/-- Every event that comes immediately before `e` in the local order was invoked. -/
def Ready (g : LoadedCfg) (done : List ℕ) (e : ℕ) : Prop :=
  ∀ p ∈ g.graph.order, p.2 = e → p.1 ∈ done

/-- Every event of the block was invoked. -/
def AllDone (g : LoadedCfg) (s : Execution) : Prop :=
  ∀ e < g.graph.events.length, g.blockOf e = s.block → e ∈ s.done

/-- Control may leave the block here without an edge. -/
def MayTransfer (g : LoadedCfg) (s : Execution) : Prop :=
  (∃ h ∈ hiddenTransferEvents g.graph, g.blockOf h = s.block ∧ g.Ready s.done h) ∨
    (∃ e ∈ g.graph.edges, e.kind = .unsupported ∧ e.src = s.block ∧ g.AllDone s)

inductive Step (g : LoadedCfg) : Execution → Execution → Prop
  | invoke {s : Execution} {e : ℕ} : e < g.graph.events.length → g.blockOf e = s.block →
      e ∉ s.done → g.Ready s.done e → Step g s ⟨s.block, s.done ++ [e], s.trace ++ [e]⟩
  | leave {s : Execution} {edge : CfgEdge} : edge ∈ g.graph.edges → edge.src = s.block →
      edge.kind ≠ .exception → g.AllDone s → Step g s ⟨edge.dst, [], s.trace⟩
  | throws {s : Execution} {edge : CfgEdge} : edge ∈ g.graph.edges → edge.src = s.block →
      edge.kind = .exception → s.done ≠ [] → Step g s ⟨edge.dst, [], s.trace⟩
  | transfer {s : Execution} {b : ℕ} : g.MayTransfer s → b < g.graph.blocks.length →
      (g.segment b).2 = 0 → Step g s ⟨b, [], s.trace⟩

/-- The execution that has just entered the function. -/
def start (g : LoadedCfg) : Execution := ⟨g.graph.entry, [], []⟩

/-- An execution of the function, up to some moment. -/
def Runs (g : LoadedCfg) (s : Execution) : Prop := ReflTransGen g.Step g.start s

/-- In a trace, every invocation of `b` comes after one of `a`. -/
def InvokedEarlier (a b : ℕ) (trace : List ℕ) : Prop :=
  ∀ before after, trace = before ++ b :: after → a ∈ before

/-- What holds at a start and over each step holds of every execution. -/
lemma runs_induction {P : Execution → Prop} (hstart : P g.start)
    (hstep : ∀ s s', g.Runs s → P s → g.Step s s' → P s') (h : g.Runs s) : P s := by
  induction h with
  | refl => exact hstart
  | tail hr hs ih => exact hstep _ _ hr ih hs

/-- What every execution keeps about the block it is in. -/
structure VisitInv (g : LoadedCfg) (s : Execution) : Prop where
  block_lt : s.block < g.graph.blocks.length
  closed : ∀ p ∈ g.graph.order, p.2 ∈ s.done → p.1 ∈ s.done
  inBlock : ∀ e ∈ s.done, e < g.graph.events.length ∧ g.blockOf e = s.block
  traced : ∀ e ∈ s.done, e ∈ s.trace

lemma VisitInv.enter {b : ℕ} {trace : List ℕ} (hb : b < g.graph.blocks.length) :
    VisitInv g ⟨b, [], trace⟩ :=
  ⟨hb, by simp, by simp, by simp⟩

lemma visitInv_of_runs (h : g.Runs s) : VisitInv g s := by
  refine runs_induction (VisitInv.enter g.wellFormed.entry_lt) ?_ h
  intro s s' _ hinv hs
  cases hs with
  | @invoke e he hblock _ hr =>
    refine ⟨hinv.block_lt, ?_, ?_, ?_⟩
    · intro p hp hd
      rcases List.mem_append.mp hd with hd | hd
      · exact List.mem_append_left _ (hinv.closed p hp hd)
      · exact List.mem_append_left _ (hr p hp (by simpa using hd))
    · intro x hx
      rcases List.mem_append.mp hx with hx | hx
      · exact hinv.inBlock x hx
      · obtain rfl : x = e := by simpa using hx
        exact ⟨he, hblock⟩
    · intro x hx
      rcases List.mem_append.mp hx with hx | hx
      · exact List.mem_append_left _ (hinv.traced x hx)
      · exact List.mem_append_right _ hx
  | leave hedge _ _ _ | throws hedge _ _ _ => exact VisitInv.enter (g.wellFormed.edge_lt _ hedge).2
  | transfer _ hb _ => exact VisitInv.enter hb

/-- `y` follows `x` in the local order of their block. -/
def Before (g : LoadedCfg) : ℕ → ℕ → Prop := TransGen fun x y => (x, y) ∈ g.graph.order

lemma before_of_search {x y : ℕ} (h : TransGen (fun a b => b ∈ next g.nextEvents a) x y) :
    g.Before x y := by
  induction h with
  | single hab => exact .single (edge_adjacency.mp hab).2
  | tail _ hbc ih => exact ih.tail (edge_adjacency.mp hbc).2

lemma mem_done_of_before {done : List ℕ} {x y : ℕ}
    (hc : ∀ p ∈ g.graph.order, p.2 ∈ done → p.1 ∈ done) (h : g.Before x y) (hy : y ∈ done) :
    x ∈ done := by
  induction h using TransGen.head_induction_on with
  | single hxy => exact hc _ hxy hy
  | head hxz _ ih => exact hc _ hxz ih

lemma mem_done_of_ready {done : List ℕ} {x y : ℕ}
    (hc : ∀ p ∈ g.graph.order, p.2 ∈ done → p.1 ∈ done) (h : g.Before x y) (hr : g.Ready done y) :
    x ∈ done := by
  cases h with
  | single hxy => exact hr _ hxy rfl
  | tail hxz hzy => exact mem_done_of_before hc hxz (hr _ hzy rfl)

/-- It is enough to look at the moments at which `b` is about to be invoked. -/
lemma invokedEarlier_of_ready {a b : ℕ}
    (hready : ∀ s, g.Runs s → g.blockOf b = s.block → g.Ready s.done b →
      b < g.graph.events.length → a ∈ s.trace) (h : g.Runs s) : InvokedEarlier a b s.trace := by
  refine runs_induction (P := fun s => InvokedEarlier a b s.trace) ?_ ?_ h
  · intro before after ht
    simp [start] at ht
  intro s s' hr ih hs
  cases hs with
  | @invoke e he hb _ hre =>
    intro before after ht
    rcases List.eq_nil_or_concat after with rfl | ⟨rest, last, rfl⟩
    · obtain ⟨rfl, rfl⟩ : s.trace = before ∧ e = b := by
        simpa using List.append_inj' ht rfl
      exact hready s hr hb hre he
    · have ht' : s.trace ++ [e] = (before ++ b :: rest) ++ [last] := by simpa using ht
      exact ih before rest (List.append_inj' ht' rfl).1
  | leave | throws | transfer => exact ih

/-- The block each block continues. -/
def cont (g : LoadedCfg) : List (Option ℕ) := continues g.graph g.pred

lemma previous_lt {v w : ℕ} (h : previous g.cont w = some v) : v < g.graph.blocks.length := by
  obtain ⟨-, e, he, -, rfl, -⟩ := continues_spec h
  exact (g.wellFormed.edge_lt e he).1

lemma segment_numbered {v : ℕ} (hv : v < g.graph.blocks.length) : Numbered g.cont v (g.segment v) :=
  segments_spec (fun _ _ h => previous_lt h) hv

lemma segment_eq_of_chain {r k v : ℕ} (hv : v < g.graph.blocks.length) (h : Chain g.cont r k v) :
    g.segment v = (r, k) := by
  rcases segment_numbered hv with hc | ⟨hnot, _⟩
  · obtain ⟨h1, h2⟩ := hc.unique h
    exact Prod.ext h1 h2
  · exact absurd ⟨r, k, h⟩ hnot

/-- The one edge into a block that continues another is the `sequenced` one. -/
lemma edge_of_previous {u v : ℕ} {e : CfgEdge} (h : previous g.cont v = some u)
    (he : e ∈ g.graph.edges) (hdst : e.dst = v) : e.src = u ∧ e.kind = .sequenced := by
  obtain ⟨hl, e', he', hk, rfl, hdst'⟩ := continues_spec h
  have hv : v < g.graph.blocks.length := hdst ▸ (g.wellFormed.edge_lt e he).2
  have hone : (g.graph.edges.filter (fun e => e.dst = v)).length = 1 := by
    rw [pred, next_adjacency _ hv, List.filter_map] at hl
    simpa [Function.comp_def] using hl
  obtain ⟨x, hx⟩ := List.length_eq_one_iff.mp hone
  have hmem : ∀ y ∈ g.graph.edges, y.dst = v → y = x := by
    intro y hy hyv
    have : y ∈ g.graph.edges.filter (fun e => e.dst = v) := by simp [hy, hyv]
    simpa [hx] using this
  rw [hmem e he hdst, ← hmem e' he' hdst']
  exact ⟨rfl, hk⟩

lemma previous_injective {u v w : ℕ} (hv : previous g.cont v = some u)
    (hw : previous g.cont w = some u) : v = w := by
  obtain ⟨-, e, he, hk, hsrc, rfl⟩ := continues_spec hv
  obtain ⟨-, e', he', hk', hsrc', rfl⟩ := continues_spec hw
  exact g.wellFormed.sequenced_unique e he e' he' hk hk' (hsrc.trans hsrc'.symm)

lemma chain_injective {r k v w : ℕ} (hv : Chain g.cont r k v) (hw : Chain g.cont r k w) :
    v = w := by
  induction k generalizing v w with
  | zero =>
    cases hv
    cases hw
    rfl
  | succ k ih =>
    cases hv with
    | next hv hsv =>
      cases hw with
      | next hw hsw =>
        obtain rfl := ih hv hw
        exact previous_injective hsv hsw

/-- The block an execution is in belongs to a chain with a first block, and every
event of the chain before that block was invoked. -/
structure SegmentInv (g : LoadedCfg) (s : Execution) : Prop where
  chained : Chained g.cont s.block
  earlier : ∀ e < g.graph.events.length,
    (g.segment (g.blockOf e)).1 = (g.segment s.block).1 →
    (g.segment (g.blockOf e)).2 < (g.segment s.block).2 → e ∈ s.trace

lemma SegmentInv.first {b : ℕ} {done trace : List ℕ} (hb : b < g.graph.blocks.length)
    (h : previous g.cont b = none) : SegmentInv g ⟨b, done, trace⟩ := by
  have hc : Chain g.cont b 0 b := .first h
  refine ⟨⟨b, 0, hc⟩, ?_⟩
  intro e _ _ hlt
  rw [segment_eq_of_chain hb hc] at hlt
  omega

lemma blockOf_lt {e : ℕ} (he : e < g.graph.events.length) :
    g.blockOf e < g.graph.blocks.length := by
  have hget : g.graph.events[e]? = some g.graph.events[e] := by simp
  have := g.wellFormed.block_lt e _ hget
  simpa [blockOf, Sequence.blockOf, hget] using this

lemma mem_blockEvents {e : ℕ} (he : e < g.graph.events.length) :
    e ∈ ((g.graph.blocks[g.blockOf e]?).map Block.events).getD [] := by
  have hget : g.graph.events[e]? = some g.graph.events[e] := by simp
  have hlt := blockOf_lt he
  have hblock : g.graph.blocks[g.blockOf e]? = some g.graph.blocks[g.blockOf e] := by simp
  rw [hblock, Option.map_some]
  refine g.wellFormed.listed e _ _ hget ?_
  simp [blockOf, Sequence.blockOf, hget]

/-- The continuation of a block whose events were all invoked. -/
lemma SegmentInv.continue {v : ℕ} (hinv : SegmentInv g s) (hvisit : VisitInv g s)
    (hp : previous g.cont v = some s.block) (hall : g.AllDone s) (hv : v < g.graph.blocks.length) :
    SegmentInv g ⟨v, [], s.trace⟩ := by
  obtain ⟨r, k, hc⟩ := hinv.chained
  have hcv := hc.next hp
  have hseg := segment_eq_of_chain hvisit.block_lt hc
  have hsegv := segment_eq_of_chain hv hcv
  refine ⟨⟨r, k + 1, hcv⟩, ?_⟩
  intro e he hh hlt
  rw [hsegv] at hh hlt
  rcases segment_numbered (blockOf_lt he) with hce | ⟨_, hr, _⟩
  · by_cases hl : (g.segment (g.blockOf e)).2 = k
    · -- the event is of the block just left
      rw [hh, hl] at hce
      exact hvisit.traced e (hall e he (chain_injective hce hc))
    refine hinv.earlier e he ?_ ?_
    · rw [hseg, hh]
    · rw [hseg]
      omega
  · rw [hh] at hr
    exact absurd ⟨r, 0, hc.root⟩ hr

lemma segmentInv_of_runs (h : g.Runs s) : SegmentInv g s := by
  refine runs_induction ?_ ?_ h
  · refine SegmentInv.first g.wellFormed.entry_lt ?_
    cases hp : previous g.cont g.graph.entry with
    | none => rfl
    | some u =>
      obtain ⟨-, e, he, hk, -, hdst⟩ := continues_spec hp
      exact absurd hdst (g.wellFormed.sequenced_entry e he hk)
  intro s s' hr hinv hs
  cases hs with
  | invoke =>
    refine ⟨hinv.chained, ?_⟩
    intro x hx hh hlt
    exact List.mem_append_left _ (hinv.earlier x hx hh hlt)
  | @leave edge hedge hsrc hk hall =>
    have hdst := (g.wellFormed.edge_lt _ hedge).2
    cases hp : previous g.cont edge.dst with
    | none => exact SegmentInv.first hdst hp
    | some u =>
      obtain ⟨hu, -⟩ := edge_of_previous hp hedge rfl
      refine hinv.continue (visitInv_of_runs hr) ?_ hall hdst
      rw [hp, ← hu, hsrc]
  | @throws edge hedge _ hk _ =>
    cases hp : previous g.cont edge.dst with
    | none => exact SegmentInv.first (g.wellFormed.edge_lt _ hedge).2 hp
    | some u =>
      have hseq := (edge_of_previous hp hedge rfl).2
      simp [hk] at hseq
  | @transfer b _ hb hf =>
    refine SegmentInv.first hb ?_
    rcases segment_numbered hb with hc | ⟨_, _, hpos⟩
    · rw [hf] at hc
      generalize (g.segment b).1 = r at hc
      cases hc with
      | first hn => exact hn
    · omega

lemma edge_succ {e : CfgEdge} (he : e ∈ g.graph.edges) : Edge g.succ e.src e.dst :=
  edge_adjacency.mpr ⟨(g.wellFormed.edge_lt e he).1, List.mem_map.mpr ⟨e, he, rfl⟩⟩

lemma inRange_succ : InRange g.succ := by
  intro x y h
  obtain ⟨-, hmem⟩ := edge_adjacency.mp h
  obtain ⟨e, he, hxy⟩ := List.mem_map.mp hmem
  cases hxy
  simpa [succ] using (g.wellFormed.edge_lt e he).2

lemma mem_pred_of_edge {x y : ℕ} (h : Edge g.succ x y) : x ∈ next g.pred y := by
  obtain ⟨-, hmem⟩ := edge_adjacency.mp h
  obtain ⟨e, he, hxy⟩ := List.mem_map.mp hmem
  cases hxy
  exact edge_adjacency.mpr ⟨(g.wellFormed.edge_lt e he).2, List.mem_map.mpr ⟨e, he, rfl⟩⟩

lemma not_avoiding {fuel v c : ℕ} (hdom : g.dominators fuel = some dom)
    (h : dominates dom.idom v c = true) : ¬ AvoidingWalk g.succ g.graph.entry v c := by
  unfold LoadedCfg.dominators at hdom
  cases hi : Lib.Dominators.dominators fuel g.graph.entry g.succ g.pred with
  | none => simp [hi] at hdom
  | some idom =>
    simp only [hi] at hdom
    split at hdom
    · simp at hdom
    · cases hdom
      exact not_avoiding_of_dominates inRange_succ (by simpa [succ] using g.wellFormed.entry_lt)
        (fun _ _ => mem_pred_of_edge) hi h

/-- A block that an execution may leave without an edge is marked as escaping. -/
lemma escapes_of_mayTransfer (hv : VisitInv g s) (h : g.MayTransfer s) :
    marked g.control.escapes s.block = true := by
  have hmarked : marked g.control.escapes s.block = decide (s.block ∈
      (g.graph.edges.filter (fun e => e.kind = .unsupported)).map CfgEdge.src ++
        (hiddenTransferEvents g.graph).map (Sequence.blockOf g.graph)) :=
    marked_marks _ hv.block_lt
  rw [hmarked, decide_eq_true_eq, List.mem_append]
  rcases h with ⟨h, hh, hb, _⟩ | ⟨e, he, hk, hsrc, _⟩
  · exact .inr (List.mem_map.mpr ⟨h, hh, hb⟩)
  · exact .inl (List.mem_map.mpr ⟨e, by simp [he, hk], hsrc⟩)

/-- What `escapesFollow` checks: every escaping block is `a`'s or dominated by it,
and every early exit of `a`'s block is `a` or follows it. -/
lemma escapesFollow_spec {a : ℕ} (h : g.escapesFollow a dom = true) :
    (∀ b, marked g.control.escapes b = true →
      b = g.blockOf a ∨ dominates dom.idom (g.blockOf a) b = true) ∧
    (∀ e ∈ g.earlyExits (g.blockOf a), e = a ∨ g.Before a e) := by
  unfold escapesFollow at h
  dsimp only at h
  split at h
  · simp at h
  rename_i hd
  have hall : ∀ b, (true, b) ∈ g.control.escapes.zipIdx → ¬ b = g.blockOf a →
      dominates dom.idom (g.blockOf a) b = true := by simpa using hd
  refine ⟨?_, ?_⟩
  · intro b hb
    have hget : g.control.escapes[b]? = some true := by
      unfold marked at hb
      cases hopt : g.control.escapes[b]? with
      | none => simp [hopt] at hb
      | some x => simpa [hopt] using hb
    by_cases hba : b = g.blockOf a
    · exact .inl hba
    · exact .inr (hall b (List.mk_mem_zipIdx_iff_getElem?.mpr hget) hba)
  intro e he
  split at h
  · rename_i hs
    left
    simpa using List.all_eq_true.mp hs e he
  have := List.all_eq_true.mp h e he
  rcases (by simpa using this : e = a ∨ _) with hea | hmark
  · exact .inl hea
  right
  rcases search_reaches.2 _ hmark with hm | hr
  · simp at hm
  · exact before_of_search hr

lemma mem_earlyExits_of_hidden {h : ℕ} (hh : h ∈ hiddenTransferEvents g.graph) :
    h ∈ g.earlyExits (g.blockOf h) := by
  have hlt := (mem_hiddenTransferEvents.mp hh).1
  unfold earlyExits
  split
  · exact mem_blockEvents hlt
  · exact edge_adjacency.mpr ⟨blockOf_lt hlt, List.mem_map.mpr ⟨h, hh, rfl⟩⟩

lemma mem_earlyExits_of_throws {e : ℕ} {edge : CfgEdge} (he : e < g.graph.events.length)
    (hedge : edge ∈ g.graph.edges) (hk : edge.kind = .exception) (hsrc : edge.src = g.blockOf e) :
    e ∈ g.earlyExits (g.blockOf e) := by
  have hthrows : marked g.control.throws (g.blockOf e) = true := by
    have : marked g.control.throws (g.blockOf e) = decide (g.blockOf e ∈
        (g.graph.edges.filter (fun e => e.kind = .exception)).map CfgEdge.src) :=
      marked_marks _ (blockOf_lt he)
    rw [this, decide_eq_true_eq]
    exact List.mem_map.mpr ⟨edge, by simp [hedge, hk], hsrc⟩
  rw [earlyExits, if_pos hthrows]
  exact mem_blockEvents he

/-- Until `a` was invoked, the execution is in `a`'s block or has come to where it
is over edges alone, without meeting that block. -/
def GuardInv (g : LoadedCfg) (a : ℕ) (s : Execution) : Prop :=
  a ∈ s.trace ∨ s.block = g.blockOf a ∨ AvoidingWalk g.succ g.graph.entry (g.blockOf a) s.block

/-- Following an edge into a block. -/
lemma GuardInv.edge {a : ℕ} {e : CfgEdge} (hinv : GuardInv g a s) (he : e ∈ g.graph.edges)
    (hsrc : e.src = s.block) (hl : s.block = g.blockOf a → a ∈ s.trace) :
    GuardInv g a ⟨e.dst, [], s.trace⟩ := by
  rcases hinv with ht | hb | hw
  · exact .inl ht
  · exact .inl (hl hb)
  by_cases hdst : e.dst = g.blockOf a
  · exact .inr (.inl hdst)
  · have hedge : Edge g.succ s.block e.dst := hsrc ▸ edge_succ he
    exact .inr (.inr (hw.step hedge hdst))

lemma guardInv_step {fuel a : ℕ} (hdom : g.dominators fuel = some dom)
    (ha : a < g.graph.events.length) (hidden : a ∉ hiddenTransferEvents g.graph)
    (hf : g.escapesFollow a dom = true) (hr : g.Runs s) (hinv : GuardInv g a s) (hs : g.Step s s') :
    GuardInv g a s' := by
  obtain ⟨hescapes, hexits⟩ := escapesFollow_spec hf
  have hvisit := visitInv_of_runs hr
  cases hs with
  | invoke => exact hinv.imp_left (List.mem_append_left _)
  | leave hedge hsrc _ hall =>
    exact hinv.edge hedge hsrc fun hb => hvisit.traced a (hall a ha hb.symm)
  | throws hedge hsrc hk hne =>
    refine hinv.edge hedge hsrc fun hb => ?_
    obtain ⟨e, he⟩ := List.exists_mem_of_ne_nil _ hne
    obtain ⟨hlt, hbe⟩ := hvisit.inBlock e he
    have hexit := mem_earlyExits_of_throws hlt hedge hk (by rw [hsrc, hbe])
    rw [hbe, hb] at hexit
    rcases hexits e hexit with rfl | hbefore
    · exact hvisit.traced e he
    · exact hvisit.traced a (mem_done_of_before hvisit.closed hbefore he)
  | @transfer b hmay _ _ =>
    left
    rcases hinv with ht | hb | hw
    · exact ht
    · rcases hmay with ⟨h, hh, hbh, hready⟩ | ⟨_, _, _, _, hall⟩
      · have hexit := mem_earlyExits_of_hidden hh
        rw [hbh, hb] at hexit
        rcases hexits h hexit with rfl | hbefore
        · exact absurd hh hidden
        · exact hvisit.traced a (mem_done_of_ready hvisit.closed hbefore hready)
      · exact hvisit.traced a (hall a ha hb.symm)
    · rcases hescapes s.block (escapes_of_mayTransfer hvisit hmay) with hb | hd
      · exact absurd hb hw.ne
      · exact absurd hw (not_avoiding hdom hd)

/-- A guaranteed event was invoked whenever the block it dominates is reached. -/
lemma mem_trace_of_guarantees {fuel a b : ℕ} (hdom : g.dominators fuel = some dom)
    (ha : a < g.graph.events.length) (hidden : a ∉ hiddenTransferEvents g.graph)
    (h : g.guarantees a b dom = true) (hne : b ≠ g.blockOf a) (hr : g.Runs s) (hb : s.block = b) :
    a ∈ s.trace := by
  unfold guarantees at h
  dsimp only at h
  split at h
  · simp at h
  simp only [Bool.and_eq_true] at h
  obtain ⟨⟨-, hd⟩, hf⟩ := h
  have hinv : GuardInv g a s := by
    refine runs_induction (P := GuardInv g a) ?_
      (fun _ _ hr' hi hs => guardInv_step hdom ha hidden hf hr' hi hs) hr
    by_cases he : g.graph.entry = g.blockOf a
    · exact .inr (.inl he)
    · exact .inr (.inr ⟨he, ReflTransGen.refl⟩)
  rcases hinv with ht | hblock | hw
  · exact ht
  · exact absurd (hb.symm.trans hblock) hne
  · exact absurd (hb ▸ hw) (not_avoiding hdom hd)

end LoadedCfg
end Pathologist.Sequence

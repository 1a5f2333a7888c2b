import Pathologist.Sequence.Execution

/-!
# What an ordering answer promises

The two answers that claim an order, `sequenced_before` and `guaranteed_before`,
hold of every execution: whenever the second event is invoked, the first was
invoked earlier.
-/
open Relation
namespace Pathologist.Sequence
open Pathologist.Cfg Pathologist.Lib.Digraph Pathologist.Lib.Dominators

namespace LoadedCfg
variable {g : LoadedCfg} {s : Execution} {a b : ℕ} {forward : List Bool} {dom : Dominance}

/-- An ordering answer leaves both ends free of control-hiding gaps and is what
the blocks show. -/
lemma relate_orders {r : Relation} (hr : r = .sequencedBefore ∨ r = .guaranteedBefore)
    (h : (g.relate a b forward dom).1 = r) :
    (g.eventGaps a).hidesControl = none ∧
      ∃ loosened, g.shown a b forward dom = some (r, loosened) := by
  unfold relate at h
  dsimp only at h
  split at h
  · rcases hr with rfl | rfl <;> simp at h
  rename_i hgaps
  have hnone : (g.eventGaps a).hidesControl = none := by
    cases hg : (g.eventGaps a).hidesControl with
    | none => rfl
    | some kind => simp [hg] at hgaps
  refine ⟨hnone, ?_⟩
  split at h
  · rcases hr with rfl | rfl <;> simp at h
  split at h
  · rcases hr with rfl | rfl <;> simp at h
  rename_i relation loosened hs
  refine ⟨loosened, ?_⟩
  rw [hs]
  split at h
  · rcases hr with rfl | rfl <;> simp at h
  split at h
  · split at h
    · rcases hr with rfl | rfl <;> simp at h
    · rw [← h]
  · rw [← h]

/-- `sequenced_before` is shown within a segment, from the local order, and `guaranteed_before`
across segments, from dominance. -/
lemma shown_orders {r : Relation} {loosened : Bool}
    (hr : r = .sequencedBefore ∨ r = .guaranteedBefore)
    (h : g.shown a b forward dom = some (r, loosened)) :
    (g.segment (g.blockOf a)).1 = (g.segment (g.blockOf b)).1 ∧ g.orderReaches a b = true ∨
      (g.segment (g.blockOf a)).1 ≠ (g.segment (g.blockOf b)).1 ∧
        g.guarantees a (g.blockOf b) dom = true := by
  unfold shown at h
  dsimp only at h
  split at h
  · rename_i hs
    refine .inl ⟨hs, ?_⟩
    split_ifs at h with _ _ hreaches
    · cases h; simp at hr
    · exact hreaches
    · cases h; simp at hr
    · cases h; simp at hr
  · rename_i hs
    refine .inr ⟨hs, ?_⟩
    split at h
    · cases h; simp at hr
    · split_ifs at h with hg
      · exact hg
      · cases h; simp at hr
    · cases h; simp at hr
    · cases h; simp at hr

lemma eventGaps_eq (ha : a < g.graph.events.length) : g.eventGaps a = eventGapsOf g.graph a := by
  simp [eventGaps, control, ControlFacts.of, ha]

lemma not_hidden_of_eventGaps (ha : a < g.graph.events.length)
    (h : (g.eventGaps a).hidesControl = none) : a ∉ hiddenTransferEvents g.graph := by
  intro hmem
  have hsome := eventGapsOf_hidesControl hmem
  rw [← eventGaps_eq ha, h] at hsome
  simp at hsome

/-- An event that the local order of its segment puts before `b` was invoked when
`b` is about to be. -/
lemma mem_trace_of_orderReaches (ha : a < g.graph.events.length)
    (hs : (g.segment (g.blockOf a)).1 = (g.segment (g.blockOf b)).1) (h : g.orderReaches a b = true)
    (hr : g.Runs s) (hb : g.blockOf b = s.block) (hready : g.Ready s.done b) : a ∈ s.trace := by
  have hvisit := visitInv_of_runs hr
  unfold orderReaches at h
  dsimp only at h
  split at h
  · refine (segmentInv_of_runs hr).earlier a ha ?_ ?_
    · rw [hs, hb]
    · rw [← hb]
      simpa using h
  · obtain ⟨y, hreach, hy⟩ := search_reaches.1 h
    obtain rfl : y = b := by simpa using hy
    exact hvisit.traced a (mem_done_of_ready hvisit.closed (before_of_search hreach) hready)

/-- When the query answers `sequenced_before` or `guaranteed_before`, every
execution that invokes `b` invoked `a` earlier. -/
theorem relation_invokedEarlier (g : LoadedCfg) (fuel a b : ℕ) (ha : a < g.graph.events.length)
    (h : g.relationOf fuel a b = some .sequencedBefore ∨
      g.relationOf fuel a b = some .guaranteedBefore) (s : Execution) (hs : g.Runs s) :
    InvokedEarlier a b s.trace := by
  refine invokedEarlier_of_ready ?_ hs
  intro s hr hblock hready _
  unfold relationOf at h
  cases hdom : g.dominators fuel with
  | none => simp [hdom] at h
  | some dom =>
    simp only [hdom, Option.map_some, Option.some.injEq] at h
    obtain ⟨hgaps, loosened, hshown⟩ := relate_orders h rfl
    rcases shown_orders h hshown with ⟨hsegment, hreaches⟩ | ⟨hsegment, hguarantees⟩
    · exact mem_trace_of_orderReaches ha hsegment hreaches hr hblock hready
    have hne : g.blockOf b ≠ g.blockOf a := fun heq => hsegment (by rw [heq])
    exact mem_trace_of_guarantees hdom ha (not_hidden_of_eventGaps ha hgaps) hguarantees hne hr
      hblock.symm

/-- A call that may throw to a handler, and a second call after it. The handler
joins the exit without meeting the second call. -/
def throwingPair : LoadedCfg where
  graph := {
    function := 0, tu := none, variant := 0, entry := 0, exit := 3, exceptionalExit := none
    blocks := [⟨.entry, none, []⟩, ⟨.ordinary, none, [0]⟩, ⟨.ordinary, none, [1]⟩,
      ⟨.exit, none, []⟩, ⟨.landing, none, []⟩]
    edges := [⟨0, 1, .fallthrough⟩, ⟨1, 4, .exception⟩, ⟨1, 2, .fallthrough⟩,
      ⟨2, 3, .return_⟩, ⟨4, 3, .fallthrough⟩]
    events := [⟨1, .call, ⟨⟨0, 1, 1⟩, none, 0⟩, [0]⟩, ⟨2, .call, ⟨⟨0, 2, 1⟩, none, 0⟩, [1]⟩]
    order := []
    gaps := [] }
  wellFormed := {
    entry_lt := by decide
    edge_lt := by decide
    block_lt := by
      intro i ev h
      match i with
      | 0 | 1 => obtain rfl := Option.some.inj h; decide
      | _ + 2 => simp at h
    listed := by
      intro i ev blk h hb
      match i with
      | 0 | 1 =>
        cases h
        cases hb
        decide
      | _ + 2 => simp at h
    order_local := by simp
    sequenced_unique := by decide
    sequenced_entry := by decide }

lemma throwingPair_runs : throwingPair.Runs ⟨2, [1], [0, 1]⟩ := by
  have henter : throwingPair.Step ⟨0, [], []⟩ ⟨1, [], []⟩ :=
    @Step.leave throwingPair ⟨0, [], []⟩ ⟨0, 1, .fallthrough⟩ (by decide) rfl (by decide)
      (by unfold AllDone; decide)
  have hfirst : throwingPair.Step ⟨1, [], []⟩ ⟨1, [0], [0]⟩ :=
    Step.invoke (e := 0) (by decide) rfl (by decide) (by unfold Ready; decide)
  have hleave : throwingPair.Step ⟨1, [0], [0]⟩ ⟨2, [], [0]⟩ :=
    @Step.leave throwingPair ⟨1, [0], [0]⟩ ⟨1, 2, .fallthrough⟩ (by decide) rfl (by decide)
      (by unfold AllDone; decide)
  have hsecond : throwingPair.Step ⟨2, [], [0]⟩ ⟨2, [1], [0, 1]⟩ :=
    Step.invoke (e := 1) (by decide) rfl (by decide) (by unfold Ready; decide)
  exact (((ReflTransGen.single henter).tail hfirst).tail hleave).tail hsecond

theorem throwingPair_invokedEarlier : throwingPair.relationOf 20 0 1 = some .guaranteedBefore ∧
      InvokedEarlier 0 1 [0, 1] :=
  have hanswer : throwingPair.relationOf 20 0 1 = some .guaranteedBefore := by decide +kernel
  ⟨hanswer, relation_invokedEarlier throwingPair 20 0 1 (by decide) (.inr hanswer) _
    throwingPair_runs⟩

end LoadedCfg
end Pathologist.Sequence

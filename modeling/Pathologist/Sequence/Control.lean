import Pathologist.Cfg
import Pathologist.Lib.Digraph
import Pathologist.Sequence.Segment

/-!
# Where control may move without an edge

The facts `ControlFacts::of` derives once from a loaded graph: the blocks control
may leave for anywhere, those an exception edge leaves, the events under a
control-hiding gap, the gaps over each event, and each block's segment, the chain
of `sequenced` edges it continues.
-/
namespace Pathologist.Sequence
open Pathologist.Cfg Pathologist.Lib.Digraph List

/-- A gap of this kind may hide a control transfer. -/
def hidesControl : GapKind → Bool
  | .parseError | .depthExceeded | .unsupportedConstruct | .unresolvedGoto => true
  | _ => false

/-- Gap `g`'s event range holds `event`. -/
def covers (g : Gap) (event : ℕ) : Bool :=
  match g.events with
  | some (a, b) => decide (a ≤ event ∧ event ≤ b)
  | none => false

/-- The events under a gap that may hide a control transfer. -/
def hiddenTransferEvents (g : FunctionCfg) : List ℕ :=
  ((g.gaps.filter (fun gap => hidesControl gap.kind)).filterMap Gap.events).flatMap
    fun r => List.range' r.1 (min (r.2 + 1) g.events.length - r.1)

def blockOf (g : FunctionCfg) (e : ℕ) : ℕ := ((g.events[e]?).map CallEvent.block).getD 0

/-- The gaps over one event, by what they leave unmodelled. -/
structure EventGaps where
  /-- The kind of the first gap over it that may hide a control transfer. -/
  hidesControl : Option GapKind := none
  /-- The kind of the first gap over it other than `unordered_branch`. -/
  unorders : Option GapKind := none
  /-- The `unordered_branch` gaps over it, by index in the graph. -/
  unorderedBranch : List ℕ := []
  /-- An `unevaluated` gap is over it: the call never runs. -/
  unevaluated : Bool := false
deriving Repr, DecidableEq

/-- Gap number `i`, of kind `kind`, lies over the event. -/
def EventGaps.note (acc : EventGaps) (kind : GapKind) (i : ℕ) : EventGaps where
  hidesControl :=
    if Sequence.hidesControl kind then acc.hidesControl.or (some kind) else acc.hidesControl
  unorders := if kind = .unorderedBranch then acc.unorders else acc.unorders.or (some kind)
  unorderedBranch :=
    if kind = .unorderedBranch then acc.unorderedBranch ++ [i] else acc.unorderedBranch
  unevaluated := acc.unevaluated || decide (kind = .unevaluated)

/-- The source walks each gap's range of events; one event's record is the same
walk over the gaps that cover it. -/
def eventGapsOf (g : FunctionCfg) (e : ℕ) : EventGaps :=
  g.gaps.zipIdx.foldl (fun acc gap => if covers gap.1 e then acc.note gap.1.kind gap.2 else acc) {}

/-- A `sequenced` edge continues its source only as its target's one way in. -/
def continues (g : FunctionCfg) (pred : Adjacency) : List (Option ℕ) :=
  g.edges.foldl (fun t e =>
      if e.kind = .sequenced ∧ (next pred e.dst).length = 1 then t.set e.dst (some e.src) else t)
    (List.replicate g.blocks.length none)

/-- Where control may move without an edge in one graph. -/
structure ControlFacts where
  escapes : List Bool
  loose : List Bool
  throws : List Bool
  hidden : List (List ℕ)
  eventGaps : List EventGaps
  segment : List (ℕ × ℕ)
deriving Repr

/-- The blocks an unmodelled transfer may come back before. -/
def resumedOf (g : FunctionCfg) (succ : Adjacency) : List Bool :=
  (hiddenTransferEvents g).foldl (fun resumed e =>
      let b := blockOf g e
      if marked resumed b then resumed
      else (search b (resumed.set b true) (next succ) (fun _ => false)).2)
    (List.replicate g.blocks.length false)

/-- Blocks with an `unsupported` edge, or with an event under a control-hiding gap. -/
def escapesOf (g : FunctionCfg) : List Bool :=
  marks g.blocks.length ((g.edges.filter (fun e => e.kind = .unsupported)).map CfgEdge.src ++
      (hiddenTransferEvents g).map (blockOf g))

/-- The escaping blocks and those reaching one. -/
def reachingOf (g : FunctionCfg) (pred : Adjacency) : List Bool :=
  ((List.range g.blocks.length).filter (marked (escapesOf g))).foldl
    (fun loose b => (search b loose (next pred) (fun _ => false)).2) (escapesOf g)

def ControlFacts.of (g : FunctionCfg) (succ pred : Adjacency) : ControlFacts where
  escapes := escapesOf g
  loose := List.zipWith (· || ·) (reachingOf g pred) (resumedOf g succ)
  throws := marks g.blocks.length ((g.edges.filter (fun e => e.kind = .exception)).map CfgEdge.src)
  hidden := adjacency g.blocks.length ((hiddenTransferEvents g).map fun e => (blockOf g e, e))
  eventGaps := (List.range g.events.length).map (eventGapsOf g)
  segment := segments (continues g pred) g.blocks.length

lemma mem_hiddenTransferEvents {g} {e : ℕ} : e ∈ hiddenTransferEvents g ↔
      e < g.events.length ∧ ∃ gap ∈ g.gaps, hidesControl gap.kind = true ∧ covers gap e = true := by
  simp only [hiddenTransferEvents, mem_flatMap, mem_filterMap, mem_filter, mem_range'_1]
  constructor
  · rintro ⟨⟨lo, hi⟩, ⟨gap, ⟨hgap, hk⟩, he⟩, hlo, hhi⟩
    refine ⟨by omega, gap, hgap, hk, ?_⟩
    simp only [covers, he, decide_eq_true_eq]
    exact ⟨hlo, by omega⟩
  rintro ⟨hlt, gap, hgap, hk, hc⟩
  cases he : gap.events with
  | none => simp [covers, he] at hc
  | some r =>
    obtain ⟨lo, hi⟩ := r
    obtain ⟨hlo, hhi⟩ : lo ≤ e ∧ e ≤ hi := by simpa [covers, he] using hc
    exact ⟨(lo, hi), ⟨gap, ⟨hgap, hk⟩, he⟩, hlo, by dsimp only; omega⟩

lemma note_hidesControl {acc : EventGaps} {kind : GapKind} {i : ℕ}
    (h : acc.hidesControl.isSome ∨ hidesControl kind = true) :
    (acc.note kind i).hidesControl.isSome := by
  unfold EventGaps.note
  by_cases hk : hidesControl kind = true
  · simp [hk]
  · have hover : acc.hidesControl.isSome := h.resolve_right hk
    simpa [hk] using hover

/-- An event under a control-hiding gap says so in its record. -/
lemma eventGapsOf_hidesControl {g} {e : ℕ} (h : e ∈ hiddenTransferEvents g) :
    (eventGapsOf g e).hidesControl.isSome := by
  obtain ⟨-, gap, hgap, hk, hc⟩ := mem_hiddenTransferEvents.mp h
  suffices hf : ∀ (l : List (Gap × ℕ)) (acc : EventGaps),
      (acc.hidesControl.isSome ∨ ∃ p ∈ l, p.1 = gap) →
      (l.foldl (fun acc gap => if covers gap.1 e then acc.note gap.1.kind gap.2 else acc)
        acc).hidesControl.isSome by
    refine hf _ _ (.inr ?_)
    obtain ⟨i, hi⟩ := mem_iff_getElem?.mp hgap
    exact ⟨(gap, i), mk_mem_zipIdx_iff_getElem?.mpr hi, rfl⟩
  intro l
  induction l with
  | nil => intro acc h; simpa using h
  | cons p ps ih =>
    intro acc h
    rw [foldl_cons]
    refine ih _ ?_
    rcases h with h | ⟨q, hq, hqg⟩
    · left
      split
      · exact note_hidesControl (.inl h)
      · exact h
    rcases mem_cons.mp hq with rfl | hq
    · left
      rw [hqg, if_pos hc]
      exact note_hidesControl (.inr hk)
    · exact .inr ⟨q, hq, hqg⟩

/-- A block continues the source of the one edge into it, a `sequenced` one. -/
lemma continues_spec {g} {pred : Adjacency} {u v : ℕ} (h : previous (continues g pred) v = some u) :
    (next pred v).length = 1 ∧ ∃ e ∈ g.edges, e.kind = .sequenced ∧ e.src = u ∧ e.dst = v := by
  suffices hf : ∀ (l : List CfgEdge) (t : List (Option ℕ)), (∀ e ∈ l, e ∈ g.edges) →
      previous (l.foldl (fun t e => if e.kind = .sequenced ∧ (next pred e.dst).length = 1
        then t.set e.dst (some e.src) else t) t) v = some u →
      previous t v = some u ∨ ((next pred v).length = 1 ∧
        ∃ e ∈ g.edges, e.kind = .sequenced ∧ e.src = u ∧ e.dst = v) by
    refine (hf g.edges _ (fun e he => he) h).resolve_left ?_
    by_cases hv : v < g.blocks.length <;> simp [previous, hv]
  intro l
  induction l with
  | nil => intro t _ h; exact .inl h
  | cons e es ih =>
    intro t hmem h
    rw [foldl_cons] at h
    rcases ih _ (fun x hx => hmem x (mem_cons_of_mem _ hx)) h with ht | hr
    · split at ht
      · rename_i hseq
        by_cases hev : e.dst = v
        · subst hev
          right
          by_cases hlt : e.dst < t.length
          · obtain rfl : e.src = u := by
              simpa [previous, hlt] using ht
            exact ⟨hseq.2, e, hmem e mem_cons_self, hseq.1, rfl, rfl⟩
          · simp [previous, hlt] at ht
        · left
          simpa [previous, hev] using ht
      · exact .inl ht
    · exact .inr hr

end Pathologist.Sequence

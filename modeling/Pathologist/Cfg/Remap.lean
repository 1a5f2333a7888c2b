import Pathologist.Cfg
import Pathologist.Cfg.Splice
import Pathologist.Lib.Distinct
import Pathologist.Lib.Numbering

/-!
# A graph in another program's ids

`FunctionCfg.remap` carries a graph over to the ids of the program it is merged
into. An event none of whose sites is carried is spliced out: the events before
it in the local order are joined to those after it, and the rest are renumbered.
Between the events that survive, the local order reaches exactly what it reached
before.
-/
namespace Pathologist.Cfg
open Relation Lib.Distinct Lib.Elimination Lib.Numbering List

/-- The rest of a list of sites through `site`, where `before` was read already. -/
def mappedSitesFrom (site : ℕ → Option ℕ) (before : List ℕ) : List ℕ → List ℕ
  | [] => []
  | s :: rest =>
    match site s with
    | none => mappedSitesFrom site (before ++ [s]) rest
    | some t =>
      if before.any (fun p => site p == some t) then mappedSitesFrom site (before ++ [s]) rest
      else t :: mappedSitesFrom site (before ++ [s]) rest

/-- `sites` through `site`, without those it does not map; records of one
invocation that name one merged site are listed once, where the first is. -/
def mappedSites (site : ℕ → Option ℕ) (sites : List ℕ) : List ℕ :=
  mappedSitesFrom site [] sites

def Span.map (file : ℕ → ℕ) (s : Span) : Span := { s with file := file s.file }

def CallOccurrence.map (file : ℕ → ℕ) (o : CallOccurrence) : CallOccurrence :=
  { o with span := o.span.map file, expansionSpan := o.expansionSpan.map (Span.map file) }

/-- An event as the new graph lists it. -/
def CallEvent.remap (site : ℕ → Option ℕ) (file : ℕ → ℕ) (e : CallEvent) : CallEvent :=
  { e with occurrence := e.occurrence.map file, sites := mappedSites site e.sites }

/-- Some site of the event is mapped. -/
def CallEvent.survives (site : ℕ → Option ℕ) (e : CallEvent) : Bool :=
  !(mappedSites site e.sites).isEmpty

/-- The events that survive, remapped, in order. -/
def mapEvents (site : ℕ → Option ℕ) (file : ℕ → ℕ) (events : List CallEvent) : List CallEvent :=
  (events.filter (CallEvent.survives site)).map (CallEvent.remap site file)

/-- Old event position to new, `none` once spliced out. -/
def FunctionCfg.renumber (g : FunctionCfg) (site : ℕ → Option ℕ) : List (Option ℕ) :=
  number (CallEvent.survives site) 0 g.events

/-- Where each spliced event was. -/
def omittedSpans (site : ℕ → Option ℕ) (file : ℕ → ℕ) (events : List CallEvent) : List Span :=
  (events.filter fun e => !e.survives site).map fun e => e.occurrence.span.map file

/-- The events of an inclusive range that survive, in order. -/
def keptRange (renumber : List (Option ℕ)) (first last : ℕ) : List ℕ :=
  (List.range' first (last + 1 - first)).filterMap fun e => renumber.getD e none

/-- A gap's range shrunk to the events still in it. -/
def shrinkRange (renumber : List (Option ℕ)) (range : ℕ × ℕ) : Option (ℕ × ℕ) := do
  let first ← (keptRange renumber range.1 range.2).head?
  let last ← (keptRange renumber range.1 range.2).getLast?
  some (first, last)

/-- The positions of events that `remap` reads are positions of events. Reading
another panics; a reversed gap range is never read. -/
def FunctionCfg.EventsInRange (g : FunctionCfg) : Prop :=
  (∀ p ∈ g.order, p.1 < g.events.length ∧ p.2 < g.events.length) ∧
    (∀ b ∈ g.blocks, ∀ e ∈ b.events, e < g.events.length) ∧
    (∀ gap ∈ g.gaps, ∀ range ∈ gap.events, range.1 ≤ range.2 → range.2 < g.events.length)

instance (g : FunctionCfg) : Decidable g.EventsInRange :=
  inferInstanceAs (Decidable (_ ∧ _ ∧ _))

/-- The local order in the new positions. -/
def FunctionCfg.remapOrder (g : FunctionCfg) (site : ℕ → Option ℕ) : List (ℕ × ℕ) :=
  let renumber := g.renumber site
  let order := if renumber.all Option.isSome then g.order else spliceOrder g.order renumber
  order.filterMap fun p => do
    let a ← renumber.getD p.1 none
    let b ← renumber.getD p.2 none
    some (a, b)

def Block.remap (renumber : List (Option ℕ)) (file : ℕ → ℕ) (b : Block) : Block where
  kind := b.kind
  span := b.span.map (Span.map file)
  events := b.events.filterMap fun e => renumber.getD e none

def Gap.remap (renumber : List (Option ℕ)) (file : ℕ → ℕ) (gap : Gap) : Gap where
  kind := gap.kind
  span := gap.span.map (Span.map file)
  events := gap.events.bind (shrinkRange renumber)

def omittedGap (span : Span) : Gap where
  kind := .omittedSites
  span := some span
  events := none

/-- The graph `remap` builds when no read is out of range. -/
def FunctionCfg.remapped (g : FunctionCfg) (function : ℕ) (site : ℕ → Option ℕ) (file : ℕ → ℕ) :
    FunctionCfg where
  function := function
  tu := g.tu.map file
  variant := g.variant
  entry := g.entry
  exit := g.exit
  exceptionalExit := g.exceptionalExit
  blocks := g.blocks.map (Block.remap (g.renumber site) file)
  edges := g.edges
  events := mapEvents site file g.events
  order := g.remapOrder site
  gaps := g.gaps.map (Gap.remap (g.renumber site) file) ++
    (omittedSpans site file g.events).map omittedGap

/-- The graph in another program's ids: `function` for its function, sites
through `site` and files through `file`; `none` when an out-of-range read panics. -/
def FunctionCfg.remap (g : FunctionCfg) (function : ℕ) (site : ℕ → Option ℕ) (file : ℕ → ℕ) :
    Option FunctionCfg :=
  if g.EventsInRange then some (g.remapped function site file) else none

lemma mappedSitesFrom_eq (site : ℕ → Option ℕ) (before sites : List ℕ) :
    mappedSitesFrom site before sites = ((sites.filterMap site).filter fun t =>
      !before.any fun p => site p == some t).eraseDups := by
  induction sites generalizing before with
  | nil => rfl
  | cons s rest ih =>
    unfold mappedSitesFrom
    cases hs : site s with
    | none => simp [ih, hs]
    | some t =>
      have hmore : ∀ u, (!(before ++ [s]).any fun p => site p == some u) =
          (decide (u ≠ t) && !before.any fun p => site p == some u) := by
        intro u
        by_cases hu : u = t
        · simp [hs, hu]
        · simp [hs, hu, Ne.symm hu]
      simp only [filterMap_cons, hs]
      by_cases hseen : before.any (fun p => site p == some t)
      · rw [if_pos hseen, ih, filter_cons_of_neg (by rw [hseen]; decide)]
        congr 2
        funext u
        rw [hmore]
        by_cases hu : u = t
        · simp [hu, hseen]
        · simp [hu]
      · rw [if_neg hseen, ih, eraseDups_filter_cons (by simpa using hseen)]
        simp only [hmore]

lemma mappedSites_eq (site : ℕ → Option ℕ) (sites : List ℕ) :
    mappedSites site sites = (sites.filterMap site).eraseDups := by
  simp [mappedSites, mappedSitesFrom_eq]

lemma mappedSites_eq_nil {site} {sites : List ℕ} :
    mappedSites site sites = [] ↔ ∀ s ∈ sites, site s = none := by
  rw [mappedSites_eq, ← filterMap_eq_nil_iff]
  cases sites.filterMap site with
  | nil => simp
  | cons t ts => simp [eraseDups_cons]

lemma survives_iff {site} {e : CallEvent} :
    e.survives site = true ↔ ∃ s ∈ e.sites, (site s).isSome := by
  simp [CallEvent.survives, mappedSites_eq_nil, Option.isSome_iff_ne_none]

/-- Where an event of `g` stands in the new graph, if it survives. -/
def FunctionCfg.newPosition (g : FunctionCfg) (site : ℕ → Option ℕ) (i : ℕ) : Option ℕ :=
  position (CallEvent.survives site) g.events i

namespace FunctionCfg
variable {g : FunctionCfg} {site : ℕ → Option ℕ}

lemma remapOrder_transGen (hg : g.EventsInRange) {i j i' j' : ℕ}
    (hi : g.newPosition site i = some i') (hj : g.newPosition site j = some j') :
    TransGen (fun x y => (x, y) ∈ g.remapOrder site) i' j' ↔
      TransGen (fun x y => (x, y) ∈ g.order) i j := by
  -- the pairs the renumbering reads
  let order := if (g.renumber site).all Option.isSome then g.order
    else spliceOrder g.order (g.renumber site)
  have hpairs : ∀ x' y', (x', y') ∈ g.remapOrder site ↔ ∃ x y,
      g.newPosition site x = some x' ∧ g.newPosition site y = some y' ∧ (x, y) ∈ order := by
    intro x' y'
    simp only [remapOrder, mem_filterMap, Prod.exists, Option.bind_eq_bind,
      Option.bind_eq_some_iff, Option.some.injEq, Prod.mk.injEq]
    constructor
    · rintro ⟨x, y, hmem, a, ha, b, hb, rfl, rfl⟩
      exact ⟨x, y, ha, hb, hmem⟩
    · rintro ⟨x, y, ha, hb, hmem⟩
      exact ⟨x, y, hmem, x', ha, y', hb, rfl, rfl⟩
  have hlen : (g.renumber site).length = g.events.length := length_number _ _
  rw [transGen_renamed (f := g.newPosition site) (fun x y z => position_inj) hpairs hi hj]
  by_cases hall : (g.renumber site).all Option.isSome
  · -- no event is spliced out: every pair is between survivors
    have hamong : among (fun x => (g.newPosition site x).isSome) (fun x y => (x, y) ∈ order) =
        fun x y => (x, y) ∈ g.order := by
      have hsome : ∀ x, x < g.events.length → (g.newPosition site x).isSome := by
        intro x hx
        rw [← hlen] at hx
        have hmem : (g.renumber site)[x] ∈ g.renumber site := getElem_mem hx
        show ((g.renumber site).getD x none).isSome
        simpa [hx] using all_eq_true.mp hall _ hmem
      funext x y
      simp only [order, hall, eq_iff_iff]
      exact ⟨fun h => h.2.2, fun h => ⟨hsome x (hg.1 _ h).1, hsome y (hg.1 _ h).2, h⟩⟩
    rw [hamong]
  · have horder : order = spliceOrder g.order (g.renumber site) := if_neg hall
    rw [horder]
    refine spliceOrder_transGen (fun p hp => hlen ▸ hg.1 p hp) ?_ ?_
    · exact Option.isSome_iff_exists.mpr ⟨i', hi⟩
    · exact Option.isSome_iff_exists.mpr ⟨j', hj⟩

/-- `remap` answers exactly when its reads are in range, and then, for the events
that survive, the sequenced-before relation, the blocks and the order inside each
block are those of the graph it was given. -/
theorem remap_keeps_order (g : FunctionCfg) (function : ℕ) (site : ℕ → Option ℕ)
    (file : ℕ → ℕ) :
    ((g.remap function site file).isSome ↔ g.EventsInRange) ∧
      ∀ r, g.remap function site file = some r → (∀ i, (g.newPosition site i).isSome ↔
          ∃ e, g.events[i]? = some e ∧ ∃ s ∈ e.sites, (site s).isSome) ∧
        (∀ i i', g.newPosition site i = some i' → ∃ e e', g.events[i]? = some e ∧
          r.events[i']? = some e' ∧ e'.block = e.block ∧ e'.kind = e.kind) ∧
        (∀ i j i' j', g.newPosition site i = some i' → g.newPosition site j = some j' →
          (TransGen (fun x y => (x, y) ∈ r.order) i' j' ↔
            TransGen (fun x y => (x, y) ∈ g.order) i j)) ∧
        (∀ i j i' j', g.newPosition site i = some i' → g.newPosition site j = some j' →
          (i < j ↔ i' < j')) ∧
        r.blocks.map Block.events =
          g.blocks.map fun b => b.events.filterMap (g.newPosition site) := by
  constructor
  · unfold remap
    split <;> simp [*]
  intro r hr
  have hg : g.EventsInRange := by
    by_contra hg
    simp [remap, hg] at hr
  obtain rfl : g.remapped function site file = r := by simpa [remap, hg] using hr
  refine ⟨fun i => ?_, fun i i' hi => ?_, fun i j i' j' => remapOrder_transGen hg,
    fun i j i' j' => position_lt_iff, ?_⟩
  · simp [newPosition, position_isSome, survives_iff]
  · obtain ⟨e, he, -, hget⟩ := position_spec hi
    refine ⟨e, e.remap site file, he, ?_, rfl, rfl⟩
    simp [remapped, mapEvents, hget]
  · simp only [remapped, List.map_map]
    rfl

/-- Three calls of one block in a row, each with the site of its position. -/
def threeCalls : FunctionCfg where
  function := 0
  tu := none
  variant := 0
  entry := 0
  exit := 0
  exceptionalExit := none
  blocks := [⟨.ordinary, none, [0, 1, 2]⟩]
  edges := []
  events := [⟨0, .call, ⟨⟨0, 1, 1⟩, none, 0⟩, [0]⟩, ⟨0, .call, ⟨⟨0, 2, 1⟩, none, 0⟩, [1]⟩,
    ⟨0, .call, ⟨⟨0, 3, 1⟩, none, 0⟩, [2]⟩]
  order := [(0, 1), (1, 2)]
  gaps := []

/-- With the middle call dropped, the first is still sequenced before the last. -/
theorem threeCalls_remap :
    (threeCalls.remap 5 (fun s => if s = 1 then none else some s) id).isSome ∧
      ∀ r, threeCalls.remap 5 (fun s => if s = 1 then none else some s) id = some r →
        TransGen (fun x y => (x, y) ∈ r.order) 0 1 := by
  have h := remap_keeps_order threeCalls 5 (fun s => if s = 1 then none else some s) id
  refine ⟨h.1.mpr (by decide), fun r hr => ?_⟩
  refine ((h.2 r hr).2.2.1 0 2 0 1 rfl rfl).mpr ?_
  exact (TransGen.single (by decide : (0, 1) ∈ threeCalls.order)).tail
    (by decide : (1, 2) ∈ threeCalls.order)

end FunctionCfg

end Pathologist.Cfg

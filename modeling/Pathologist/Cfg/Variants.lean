import Pathologist.Cfg.Remap

/-!
# One graph per distinct body

`add_variant` keeps a graph, in another program's ids, as one more configuration
variant of a function unless an equal one is kept. Graphs are compared by the keys
of their sites. A graph that loses no event is compared through the mappings and
built only when it is new; a fingerprint per variant, when given, saves
comparisons.
-/
namespace Pathologist.Cfg
open Lib.Distinct Lib.Numbering List CallEvent

/-- A graph as `remap` would build it when that splices out no event. -/
structure Mapped where
  cfg : FunctionCfg
  function : ℕ
  site : ℕ → Option ℕ
  file : ℕ → ℕ

/-- A gap's range as remapped: a reversed range keeps no event. -/
def Gap.mappedEvents (gap : Gap) : Option (ℕ × ℕ) := gap.events.filter fun r => r.1 ≤ r.2

/-- What `structurallyEqual` compares, both sides mapped. -/
def Mapped.equals (x y : Mapped) : Bool :=
  x.function = y.function && x.cfg.entry = y.cfg.entry && x.cfg.exit = y.cfg.exit &&
    x.cfg.exceptionalExit = y.cfg.exceptionalExit && x.cfg.edges = y.cfg.edges &&
    x.cfg.order = y.cfg.order && x.cfg.blocks.length = y.cfg.blocks.length &&
    (x.cfg.blocks.zip y.cfg.blocks).all (fun b => b.1.kind = b.2.kind &&
      b.1.span.map (Span.map x.file) = b.2.span.map (Span.map y.file) &&
      b.1.events = b.2.events) &&
    x.cfg.events.length = y.cfg.events.length &&
    (x.cfg.events.zip y.cfg.events).all (fun e => e.1.block = e.2.block && e.1.kind = e.2.kind &&
      e.1.occurrence.map x.file = e.2.occurrence.map y.file &&
      mappedSites x.site e.1.sites = mappedSites y.site e.2.sites) &&
    x.cfg.gaps.length = y.cfg.gaps.length &&
    (x.cfg.gaps.zip y.cfg.gaps).all (fun p => p.1.kind = p.2.kind &&
      p.1.span.map (Span.map x.file) = p.2.span.map (Span.map y.file) &&
      p.1.mappedEvents = p.2.mappedEvents)

/-- What the hasher is fed, in order. -/
inductive Fed
  | header (function entry exit : ℕ) (exceptionalExit : Option ℕ) (edges : List CfgEdge)
      (order : List (ℕ × ℕ))
  | length (n : ℕ)
  | block (kind : BlockKind) (span : Option Span) (events : List ℕ)
  | event (block : ℕ) (kind : EventKind) (occurrence : CallOccurrence)
  | site (s : ℕ)
  | gap (kind : GapKind) (span : Option Span) (events : Option (ℕ × ℕ))

/-- What is hashed of a graph: what `equals` compares. -/
def Mapped.feed (x : Mapped) : List Fed :=
  [.header x.function x.cfg.entry x.cfg.exit x.cfg.exceptionalExit x.cfg.edges x.cfg.order,
    .length x.cfg.blocks.length] ++
    x.cfg.blocks.map (fun b => .block b.kind (b.span.map (Span.map x.file)) b.events) ++
    [.length x.cfg.events.length] ++
    x.cfg.events.flatMap (fun e =>
      .event e.block e.kind (e.occurrence.map x.file) ::
        (mappedSites x.site e.sites).map .site ++ [.length (mappedSites x.site e.sites).length]) ++
    [.length x.cfg.gaps.length] ++
    x.cfg.gaps.map (fun p => .gap p.kind (p.span.map (Span.map x.file)) p.mappedEvents)

/-! ## Finding and adding a variant -/

/-- Same body structure, whichever unit or variant slot it came from. -/
def FunctionCfg.structurallyEqual (g h : FunctionCfg) : Bool :=
  g.function = h.function && g.entry = h.entry && g.exit = h.exit &&
    g.exceptionalExit = h.exceptionalExit && g.blocks = h.blocks && g.edges = h.edges &&
    g.events = h.events && g.order = h.order && g.gaps = h.gaps

/-- Whether `remap` through `site` splices out an event. -/
def FunctionCfg.splices (g : FunctionCfg) (site : ℕ → Option ℕ) : Bool :=
  g.events.any fun e => (mappedSites site e.sites).isEmpty

section
variable {Digest : Type} [DecidableEq Digest] (hash : List Fed → Digest)

/-- Whether a comparison with variant `i` is due: without fingerprints it always is. -/
def fingerprintMatches (hashes : Option (List Digest)) (digest : Option Digest) (i : ℕ) : Bool :=
  match hashes, digest with
  | some hs, some d => hs[i]? = some d
  | _, _ => true

/-- The position of the variant equal to `graph` once each variant names its sites
by their keys, or `graph`'s fingerprint when there is none. -/
def findVariant (variants : List FunctionCfg) (hashes : Option (List Digest)) (graph : Mapped)
    (rekey : ℕ → ℕ) : Except (Option Digest) ℕ :=
  let digest := hashes.map fun _ => hash graph.feed
  match variants.zipIdx.findIdx? (fun v =>
    fingerprintMatches hashes digest v.2 && graph.equals
      ⟨v.1, v.1.function, fun s => some (rekey s), id⟩) with
  | some i => .ok i
  | none => .error digest

/-- Enter a new variant's fingerprint, where fingerprints are kept. -/
def pushHash (hashes : Option (List Digest)) (digest : Option Digest) : Option (List Digest) :=
  match hashes, digest with
  | some hs, some d => some (hs ++ [d])
  | hs, _ => hs

/-- The position of the variant equal to `graph`, or the variants with `kept`, the
graph it stands for, added last. -/
def findOrKeep (variants : List FunctionCfg) (hashes : Option (List Digest)) (graph : Mapped)
    (rekey : ℕ → ℕ) (kept : Option FunctionCfg) :
    Option (Except ℕ (List FunctionCfg × Option (List Digest))) :=
  match findVariant hash variants hashes graph rekey with
  | .ok i => some (.error i)
  | .error digest => kept.map fun g =>
      .ok (variants ++ [{ g with variant := variants.length }], pushHash hashes digest)

/-- Keep `cfg` in another program's ids as one more variant, or say which variant
is equal to it. `none` when the graph cannot be built: an index out of range. -/
def addVariant (variants : List FunctionCfg) (hashes : Option (List Digest)) (cfg : FunctionCfg)
    (function : ℕ) (site : ℕ → Option ℕ) (file : ℕ → ℕ) (rekey : ℕ → ℕ) :
    Option (Except ℕ (List FunctionCfg × Option (List Digest))) :=
  if cfg.splices site then
    -- an event spliced out renumbers the rest, so the graph is built first
    (cfg.remap function site file).bind fun g =>
      findOrKeep hash variants hashes ⟨g, function, fun s => some (rekey s), id⟩ rekey (some g)
  else
    findOrKeep hash variants hashes ⟨cfg, function, fun s => (site s).map rekey, file⟩ rekey
      (cfg.remap function site file)

end

/-- List further sites of an invocation after those it lists; a site it already
lists is not repeated. -/
def CallEvent.addAlternativeSites (e : CallEvent) (sites : List ℕ) : CallEvent :=
  { e with sites := sites.foldl (fun l s => if l.contains s then l else l ++ [s]) e.sites }

/-- Match events with lists of further sites, as far as both go. -/
def addAlternatives : List CallEvent → List (List ℕ) → List CallEvent
  | e :: events, sites :: rest => e.addAlternativeSites sites :: addAlternatives events rest
  | events, _ => events

/-- List the sites of each event of `other`, through `site`, as alternatives of the
matching event here; an event `site` splices out matches none. -/
def FunctionCfg.addAlternativesFrom (g other : FunctionCfg) (site : ℕ → Option ℕ) : FunctionCfg :=
  let kept := (other.events.map fun e => mappedSites site e.sites).filter fun s => !s.isEmpty
  { g with events := addAlternatives g.events kept }

lemma zip_all_iff {α γ : Type*} {p : α → α → Bool} {f h : α → γ} {l m : List α}
    (hp : ∀ a b, p a b = true ↔ f a = h b) :
    (l.length = m.length ∧ (l.zip m).all (fun x => p x.1 x.2) = true) ↔ l.map f = m.map h := by
  induction l generalizing m with
  | nil => cases m <;> simp
  | cons a l ih =>
    cases m with
    | nil => simp
    | cons b m =>
      simp only [length_cons, Nat.add_right_cancel_iff, zip_cons_cons, all_cons,
        Bool.and_eq_true, hp, map_cons, cons.injEq, ← ih]
      tauto

/-- The graph a mapped view stands for, without its unit and its slot. -/
def Mapped.view (x : Mapped) : FunctionCfg where
  function := x.function
  tu := none
  variant := 0
  entry := x.cfg.entry
  exit := x.cfg.exit
  exceptionalExit := x.cfg.exceptionalExit
  blocks := x.cfg.blocks.map fun b => { b with span := b.span.map (Span.map x.file) }
  edges := x.cfg.edges
  events := x.cfg.events.map (CallEvent.remap x.site x.file)
  order := x.cfg.order
  gaps := x.cfg.gaps.map fun p =>
    { p with span := p.span.map (Span.map x.file), events := p.mappedEvents }

lemma Mapped.equals_iff {x y : Mapped} : x.equals y = true ↔ x.view = y.view := by
  have hblocks := zip_all_iff (l := x.cfg.blocks) (m := y.cfg.blocks)
    (p := fun a b => a.kind = b.kind &&
      a.span.map (Span.map x.file) = b.span.map (Span.map y.file) && a.events = b.events)
    (f := fun b => ({ b with span := b.span.map (Span.map x.file) } : Block))
    (h := fun b => ({ b with span := b.span.map (Span.map y.file) } : Block))
    (by simp [and_assoc])
  have hevents := zip_all_iff (l := x.cfg.events) (m := y.cfg.events)
    (p := fun a b => a.block = b.block && a.kind = b.kind &&
      a.occurrence.map x.file = b.occurrence.map y.file &&
      mappedSites x.site a.sites = mappedSites y.site b.sites)
    (f := CallEvent.remap x.site x.file) (h := CallEvent.remap y.site y.file)
    (by simp [CallEvent.remap, and_assoc])
  have hgaps := zip_all_iff (l := x.cfg.gaps) (m := y.cfg.gaps) (p := fun a b => a.kind = b.kind &&
      a.span.map (Span.map x.file) = b.span.map (Span.map y.file) &&
      a.mappedEvents = b.mappedEvents)
    (f := fun b => ({ b with span := b.span.map (Span.map x.file), events := b.mappedEvents } :
      Gap))
    (h := fun b => ({ b with span := b.span.map (Span.map y.file), events := b.mappedEvents } :
      Gap))
    (by simp [and_assoc])
  simp only [Mapped.equals, Mapped.view, Bool.and_eq_true, decide_eq_true_eq,
    FunctionCfg.mk.injEq]
  tauto

/-- The feed as a function of the view. -/
def FunctionCfg.fed (g : FunctionCfg) : List Fed :=
  [.header g.function g.entry g.exit g.exceptionalExit g.edges g.order,
    .length g.blocks.length] ++
    g.blocks.map (fun b => .block b.kind b.span b.events) ++ [.length g.events.length] ++
    g.events.flatMap (fun e => .event e.block e.kind e.occurrence :: e.sites.map .site ++
      [.length e.sites.length]) ++
    [.length g.gaps.length] ++ g.gaps.map (fun p => .gap p.kind p.span p.events)

lemma Mapped.feed_eq (x : Mapped) : x.feed = x.view.fed := by
  simp [Mapped.feed, FunctionCfg.fed, Mapped.view, flatMap_map, Function.comp_def, CallEvent.remap]

/-- The graph with its sites replaced by their keys. -/
def FunctionCfg.keyed (g : FunctionCfg) (rekey : ℕ → ℕ) : FunctionCfg :=
  { g with events := g.events.map fun e =>
      { e with sites := mappedSites (fun s => some (rekey s)) e.sites } }

/-- What `remap` makes: the events named are there, and no gap range is reversed. -/
structure FunctionCfg.Tidy (g : FunctionCfg) : Prop where
  inRange : g.EventsInRange
  forward : ∀ gap ∈ g.gaps, ∀ range ∈ gap.events, range.1 ≤ range.2

/-- The graph without its unit and its slot: what `structurallyEqual` reads. -/
def FunctionCfg.body (g : FunctionCfg) : FunctionCfg := { g with tu := none, variant := 0 }

lemma structurallyEqual_eq (g h : FunctionCfg) :
    g.structurallyEqual h = decide (g.body = h.body) := by
  rw [Bool.eq_iff_iff]
  simp only [FunctionCfg.structurallyEqual, FunctionCfg.body, Bool.and_eq_true, decide_eq_true_eq,
    FunctionCfg.mk.injEq]
  tauto

@[simp] lemma Span.map_id : Span.map id = id := rfl

@[simp] lemma CallOccurrence.map_id (o : CallOccurrence) : o.map id = o := by
  simp [CallOccurrence.map]

/-- A kept graph seen through its keys is its keyed body. -/
lemma FunctionCfg.Tidy.view_eq {g} (hg : g.Tidy) (rekey : ℕ → ℕ) (function : ℕ)
    (hfn : g.function = function) :
    (Mapped.mk g function (fun s => some (rekey s)) id).view = (g.keyed rekey).body := by
  have hblocks : g.blocks.map (fun b => { b with span := b.span.map (Span.map id) }) =
      g.blocks := by
    simp
  have hgaps : g.gaps.map (fun p =>
      { p with span := p.span.map (Span.map id), events := p.mappedEvents }) = g.gaps := by
    refine (map_congr_left fun p hp => ?_).trans (map_id g.gaps)
    have hevents : p.mappedEvents = p.events := by
      unfold Gap.mappedEvents
      cases hr : p.events with
      | none => rfl
      | some r => simp [hg.forward p hp r hr]
    simp [hevents]
  have hevents : g.events.map (CallEvent.remap (fun s => some (rekey s)) id) =
      (g.keyed rekey).events :=
    map_congr_left fun e _ => by simp [CallEvent.remap]
  simp only [Mapped.view, FunctionCfg.body, FunctionCfg.keyed, hblocks, hgaps, hfn] at hevents ⊢
  rw [hevents]

lemma mappedSites_mappedSites (site : ℕ → Option ℕ) (rekey : ℕ → ℕ) (sites : List ℕ) :
    mappedSites (fun s => some (rekey s)) (mappedSites site sites) =
      mappedSites (fun s => (site s).map rekey) sites := by
  rw [mappedSites_eq, mappedSites_eq, mappedSites_eq, filterMap_eq_map', eraseDups_map_eraseDups,
    map_filterMap]

lemma filterMap_eq_self {α : Type*} {f : α → Option α} {l : List α} (h : ∀ a ∈ l, f a = some a) :
    l.filterMap f = l :=
  (filterMap_congr h).trans filterMap_some

namespace FunctionCfg
variable {g : FunctionCfg} {site : ℕ → Option ℕ} {file : ℕ → ℕ} {function : ℕ}

lemma newPosition_lt_length {i j : ℕ} (h : g.newPosition site i = some j) :
    j < (g.remapped function site file).events.length := by
  obtain ⟨e, -, -, he⟩ := position_spec h
  simpa [remapped, mapEvents] using (List.getElem?_eq_some_iff.mp he).1

lemma keptRange_pairwise (first last : ℕ) :
    (keptRange (g.renumber site) first last).Pairwise (· < ·) := by
  unfold keptRange
  rw [pairwise_filterMap]
  have hlt : (List.range' first (last + 1 - first)).Pairwise (· < ·) := pairwise_lt_range'
  refine hlt.imp ?_
  intro a b hab x hx y hy
  exact (position_lt_iff (show g.newPosition site a = some x from hx) hy).mp hab

lemma head_le_getLast {l : List ℕ} (hl : l.Pairwise (· < ·)) {a b : ℕ} (ha : l.head? = some a)
    (hb : l.getLast? = some b) : a ≤ b := by
  obtain ⟨l', rfl⟩ := head?_eq_some_iff.mp ha
  rcases mem_cons.mp (mem_of_getLast? hb) with rfl | hmem
  · exact Nat.le_refl _
  · exact Nat.le_of_lt (rel_of_pairwise_cons hl hmem)

/-- What `remap` builds names its own events, and reverses no range. -/
lemma remapped_tidy (g : FunctionCfg) (function : ℕ) (site : ℕ → Option ℕ) (file : ℕ → ℕ) :
    (g.remapped function site file).Tidy := by
  have hgap : ∀ gap ∈ (g.remapped function site file).gaps, ∀ range ∈ gap.events,
      range.1 ≤ range.2 ∧ range.2 < (g.remapped function site file).events.length := by
    intro gap hgap range hrange
    rcases mem_append.mp hgap with hgap | hgap
    · obtain ⟨gap₀, -, rfl⟩ := mem_map.mp hgap
      obtain ⟨r, -, hr⟩ := Option.bind_eq_some_iff.mp hrange
      simp only [shrinkRange, Option.bind_eq_bind, Option.bind_eq_some_iff, Option.some.injEq] at hr
      obtain ⟨first, hf, last, hl, rfl⟩ := hr
      refine ⟨head_le_getLast (keptRange_pairwise _ _) hf hl, ?_⟩
      obtain ⟨e, -, he⟩ := mem_filterMap.mp (mem_of_getLast? hl)
      exact newPosition_lt_length he
    · obtain ⟨span, -, rfl⟩ := mem_map.mp hgap
      cases hrange
  refine ⟨⟨fun p hp => ?_, fun b hb e he => ?_, fun gap h range hr _ => (hgap gap h range hr).2⟩,
    fun gap h range hr => (hgap gap h range hr).1⟩
  · simp only [remapped, remapOrder, mem_filterMap, Option.bind_eq_bind,
      Option.bind_eq_some_iff, Option.some.injEq] at hp
    obtain ⟨q, -, a, ha, b, hb, rfl⟩ := hp
    exact ⟨newPosition_lt_length ha, newPosition_lt_length hb⟩
  · obtain ⟨b₀, -, rfl⟩ := mem_map.mp hb
    obtain ⟨e₀, -, he⟩ := mem_filterMap.mp he
    exact newPosition_lt_length he

/-- Keys change neither which events survive nor how they are numbered. -/
lemma remapped_keyed (g : FunctionCfg) (function : ℕ) (site : ℕ → Option ℕ) (file : ℕ → ℕ)
    (rekey : ℕ → ℕ) :
    g.remapped function (fun s => (site s).map rekey) file =
      (g.remapped function site file).keyed rekey := by
  have hsurvives : survives (fun s => (site s).map rekey) = survives site := by
    funext e
    rw [Bool.eq_iff_iff, survives_iff, survives_iff]
    simp
  have hrenumber : g.renumber (fun s => (site s).map rekey) = g.renumber site := by
    rw [renumber, hsurvives, renumber]
  have hevents : mapEvents (fun s => (site s).map rekey) file g.events =
      ((g.remapped function site file).keyed rekey).events := by
    simp only [keyed, remapped, mapEvents, hsurvives, map_map]
    simp [CallEvent.remap, mappedSites_mappedSites]
  simp only [remapped, keyed, remapOrder, hrenumber, omittedSpans, hsurvives] at hevents ⊢
  rw [hevents]

section NoSplice

section
variable (h : g.splices site = false)
include h

lemma survives_of_not_splices : ∀ e ∈ g.events, e.survives site = true := by
  intro e he
  simpa [survives] using any_eq_false.mp h e he

lemma newPosition_of_not_splices {i : ℕ} (hi : i < g.events.length) :
    (g.renumber site).getD i none = some i :=
  position_all (survives_of_not_splices h) hi

lemma remapOrder_of_not_splices (hg : g.EventsInRange) : g.remapOrder site = g.order := by
  have hall : (g.renumber site).all Option.isSome = true := by
    rw [renumber, number_all _ _ (survives_of_not_splices h)]
    simp
  simp only [remapOrder, hall]
  refine filterMap_eq_self fun p hp => ?_
  obtain ⟨h₁, h₂⟩ := hg.1 p hp
  rw [newPosition_of_not_splices h h₁, newPosition_of_not_splices h h₂]
  rfl

lemma shrinkRange_of_not_splices {r : ℕ × ℕ} (hr : r.1 ≤ r.2 → r.2 < g.events.length) :
    shrinkRange (g.renumber site) r = if r.1 ≤ r.2 then some r else none := by
  have hkept : keptRange (g.renumber site) r.1 r.2 = List.range' r.1 (r.2 + 1 - r.1) := by
    refine filterMap_eq_self fun e he => ?_
    rw [mem_range'_1] at he
    exact newPosition_of_not_splices h (by have := hr (by omega); omega)
  unfold shrinkRange
  rw [hkept]
  by_cases hle : r.1 ≤ r.2
  · rw [if_pos hle]
    obtain ⟨n, hn⟩ : ∃ n, r.2 + 1 - r.1 = n + 1 := ⟨r.2 - r.1, by omega⟩
    have hlast : r.1 + n = r.2 := by omega
    rw [hn, getLast?_range']
    simp [range'_succ, hlast]
  · have hzero : r.2 + 1 - r.1 = 0 := by omega
    simp [hle, hzero]

/-- A graph that loses no event, seen through the mappings, is the graph `remap`
builds, keyed. -/
lemma view_of_not_splices (hg : g.EventsInRange) (rekey : ℕ → ℕ) :
    (Mapped.mk g function (fun s => (site s).map rekey) file).view =
      ((g.remapped function site file).keyed rekey).body := by
  have hblocks : g.blocks.map (fun b => { b with span := b.span.map (Span.map file) }) =
      g.blocks.map (Block.remap (g.renumber site) file) := by
    refine map_congr_left fun b hb => ?_
    have hevents : b.events.filterMap (fun e => (g.renumber site).getD e none) = b.events :=
      filterMap_eq_self fun e he => newPosition_of_not_splices h (hg.2.1 b hb e he)
    rw [Block.remap, hevents]
  have hgaps : g.gaps.map (fun p =>
      { p with span := p.span.map (Span.map file), events := p.mappedEvents }) =
      g.gaps.map (Gap.remap (g.renumber site) file) := by
    refine map_congr_left fun p hp => ?_
    have hevents : p.mappedEvents = p.events.bind (shrinkRange (g.renumber site)) := by
      unfold Gap.mappedEvents
      cases hr : p.events with
      | none => rfl
      | some r =>
        rw [Option.bind_some, shrinkRange_of_not_splices h (hg.2.2 p hp r hr)]
        simp [Option.filter]
    rw [Gap.remap, hevents]
  have homitted : omittedSpans site file g.events = [] := by
    rw [omittedSpans, map_eq_nil_iff, filter_eq_nil_iff]
    intro e he
    simp [survives_of_not_splices h e he]
  have hfilter : g.events.filter (survives site) = g.events :=
    filter_eq_self.mpr (survives_of_not_splices h)
  have hevents : g.events.map (CallEvent.remap (fun s => (site s).map rekey) file) =
      ((g.remapped function site file).keyed rekey).events := by
    rw [keyed, remapped, mapEvents, hfilter, map_map]
    simp [CallEvent.remap, mappedSites_mappedSites]
  simp only [Mapped.view, body, keyed, remapped, homitted, map_nil, append_nil,
    remapOrder_of_not_splices h hg, hblocks, hgaps] at hevents ⊢
  rw [hevents]

end

/-- A view equal to a tidy graph names events that are there. -/
lemma eventsInRange_of_view {g₀ : FunctionCfg} (hg₀ : g₀.Tidy) {rekey : ℕ → ℕ}
    (h : (Mapped.mk g function site file).view = (g₀.keyed rekey).body) : g.EventsInRange := by
  have hlen : g.events.length = g₀.events.length := by
    simpa [Mapped.view, body, keyed] using congrArg (·.events.length) h
  have horder := congrArg FunctionCfg.order h
  have hblocks := congrArg FunctionCfg.blocks h
  have hgaps := congrArg FunctionCfg.gaps h
  simp only [Mapped.view, body, keyed] at horder hblocks hgaps
  rw [EventsInRange, hlen, horder]
  refine ⟨hg₀.inRange.1, fun b hb e he => ?_, fun p hp r hr hle => ?_⟩
  · have hmem : { b with span := b.span.map (Span.map file) } ∈ g₀.blocks := by
      rw [← hblocks]
      exact mem_map_of_mem hb
    exact hg₀.inRange.2.1 _ hmem e he
  have hmem : { p with span := p.span.map (Span.map file), events := p.mappedEvents } ∈
      g₀.gaps := by
    rw [← hgaps]
    exact mem_map_of_mem hp
  refine hg₀.inRange.2.2 _ hmem r ?_ hle
  rw [Option.mem_def] at hr ⊢
  simp [Gap.mappedEvents, hr, hle]

end NoSplice

end FunctionCfg

lemma findIdx?_congr {α : Type*} {p q} {l : List α} (h : ∀ a ∈ l, p a = q a) :
    l.findIdx? p = l.findIdx? q := by
  induction l with
  | nil => rfl
  | cons a l ih =>
    obtain ⟨ha, hl⟩ := forall_mem_cons.mp h
    rw [findIdx?_cons, findIdx?_cons, ha, ih hl]

section
variable {Digest : Type} [DecidableEq Digest] {hash : List Fed → Digest} {rekey : ℕ → ℕ}
  {variants : List FunctionCfg} {hashes : Option (List Digest)}

/-- A list of variants as it is kept: graphs `remap` built, and the fingerprint of
each keyed graph. -/
structure InStep (hash : List Fed → Digest) (rekey : ℕ → ℕ) (variants : List FunctionCfg)
    (hashes : Option (List Digest)) : Prop where
  tidy : ∀ v ∈ variants, v.Tidy
  fingerprints : ∀ hs ∈ hashes, hs = variants.map fun v => hash (v.keyed rekey).body.fed

/-- The first variant whose keyed body is `body`. -/
def firstVariant (variants : List FunctionCfg) (rekey : ℕ → ℕ) (body : FunctionCfg) : Option ℕ :=
  variants.findIdx? fun v => (v.keyed rekey).body = body

lemma firstVariant_spec {body v} {i : ℕ} (h : firstVariant variants rekey body = some i)
    (hv : variants[i]? = some v) : (v.keyed rekey).body = body := by
  obtain ⟨hi, hb, -⟩ := findIdx?_eq_some_iff_getElem.mp h
  obtain ⟨-, rfl⟩ := List.getElem?_eq_some_iff.mp hv
  exact of_decide_eq_true hb

lemma firstVariant_eq_some {r : FunctionCfg} {i : ℕ} :
    firstVariant variants rekey (r.keyed rekey).body = some i ↔
      (∃ v, variants[i]? = some v ∧ (v.keyed rekey).structurallyEqual (r.keyed rekey) = true) ∧
      ∀ j v, j < i → variants[j]? = some v →
        (v.keyed rekey).structurallyEqual (r.keyed rekey) = false := by
  simp only [firstVariant, structurallyEqual_eq, findIdx?_eq_some_iff_getElem]
  constructor
  · rintro ⟨hi, heq, hl⟩
    refine ⟨⟨_, List.getElem?_eq_getElem hi, heq⟩, fun j v hj hv => ?_⟩
    obtain ⟨hj', rfl⟩ := List.getElem?_eq_some_iff.mp hv
    simpa using hl j hj
  rintro ⟨⟨v, hv, heq⟩, hl⟩
  obtain ⟨hi, rfl⟩ := List.getElem?_eq_some_iff.mp hv
  refine ⟨hi, heq, fun j hj => ?_⟩
  simpa using hl j _ hj (List.getElem?_eq_getElem (hj.trans hi))

omit [DecidableEq Digest] in
lemma InStep.unhashed (h : InStep hash rekey variants hashes) (key : ℕ → ℕ) :
    InStep hash key variants none :=
  ⟨h.tidy, by simp⟩

omit [DecidableEq Digest] in
lemma InStep.rekeyed (h : InStep hash rekey variants hashes) {key}
    (hkey : hashes = none ∨ key = rekey) : InStep hash key variants hashes := by
  rcases hkey with rfl | rfl
  · exact h.unhashed key
  · exact h

/-- Fingerprints change no answer of the search. -/
lemma findVariant_eq (h : InStep hash rekey variants hashes) (graph : Mapped) :
    findVariant hash variants hashes graph rekey =
      match firstVariant variants rekey graph.view with
      | some i => .ok i
      | none => .error (hashes.map fun _ => hash graph.view.fed) := by
  have hmatch : ∀ v ∈ variants.zipIdx,
      (fingerprintMatches hashes (hashes.map fun _ => hash graph.feed) v.2 &&
        graph.equals ⟨v.1, v.1.function, fun s => some (rekey s), id⟩) =
      decide ((v.1.keyed rekey).body = graph.view) := by
    rintro ⟨v, i⟩ hv
    have hget : variants[i]? = some v := mem_zipIdx_iff_getElem?.mp hv
    have hequals : graph.equals ⟨v, v.function, fun s => some (rekey s), id⟩ =
        decide ((v.keyed rekey).body = graph.view) := by
      rw [Bool.eq_iff_iff, Mapped.equals_iff, decide_eq_true_iff,
        (h.tidy v (mem_of_getElem? hget)).view_eq rekey v.function rfl]
      exact eq_comm
    cases hh : hashes with
    | none => simp [fingerprintMatches, hequals]
    | some hs =>
      have hdigest : hs[i]? = some (hash (v.keyed rekey).body.fed) := by
        rw [h.fingerprints hs hh, getElem?_map, hget]
        rfl
      simp only [fingerprintMatches, Option.map_some, hequals, hdigest, Mapped.feed_eq]
      by_cases heq : (v.keyed rekey).body = graph.view <;> simp [heq]
  have hfirst : variants.zipIdx.findIdx? (fun v => decide ((v.1.keyed rekey).body = graph.view)) =
      firstVariant variants rekey graph.view := by
    conv_rhs => rw [← zipIdx_map_fst 0 variants]
    rw [firstVariant, findIdx?_map]
    rfl
  unfold findVariant
  simp only []
  rw [findIdx?_congr hmatch, hfirst]
  cases firstVariant variants rekey graph.view with
  | none => simp [Mapped.feed_eq]
  | some i => rfl

/-- What `addVariant` answers for the graph `r` that `remap` built. -/
def keepUnlessEqual (hash : List Fed → Digest) (rekey : ℕ → ℕ) (variants : List FunctionCfg)
    (hashes : Option (List Digest)) (r : FunctionCfg) :
    Except ℕ (List FunctionCfg × Option (List Digest)) :=
  match firstVariant variants rekey (r.keyed rekey).body with
  | some i => .error i
  | none => .ok (variants ++ [{ r with variant := variants.length }],
      hashes.map (· ++ [hash (r.keyed rekey).body.fed]))

lemma findOrKeep_eq (h : InStep hash rekey variants hashes) {graph : Mapped} {r}
    (hv : graph.view = (r.keyed rekey).body) :
    findOrKeep hash variants hashes graph rekey (some r) =
      some (keepUnlessEqual hash rekey variants hashes r) := by
  rw [findOrKeep, findVariant_eq h, hv, keepUnlessEqual]
  cases firstVariant variants rekey (r.keyed rekey).body with
  | some i => rfl
  | none => cases hashes <;> rfl

/-- `add_variant` is materialise, then compare: whichever way the comparison is
made, and with or without fingerprints. -/
lemma addVariant_eq (h : InStep hash rekey variants hashes) (cfg : FunctionCfg) (function : ℕ)
    (site : ℕ → Option ℕ) (file : ℕ → ℕ) :
    addVariant hash variants hashes cfg function site file rekey =
      (cfg.remap function site file).map (keepUnlessEqual hash rekey variants hashes) := by
  by_cases hr : cfg.EventsInRange
  · have hremap : cfg.remap function site file = some (cfg.remapped function site file) :=
      if_pos hr
    rw [addVariant, hremap]
    split
    · exact findOrKeep_eq h ((cfg.remapped_tidy function site file).view_eq rekey function rfl)
    · rename_i hs
      exact findOrKeep_eq h (FunctionCfg.view_of_not_splices (by simpa using hs) hr rekey)
  have hremap : cfg.remap function site file = none := if_neg hr
  rw [addVariant, hremap]
  split
  · rfl
  -- an index out of range is in no kept graph: the search fails, and so does `remap`
  have hnone : firstVariant variants rekey
      (Mapped.mk cfg function (fun s => (site s).map rekey) file).view = none := by
    rw [firstVariant, findIdx?_eq_none_iff]
    intro v hv
    rw [decide_eq_false_iff_not]
    exact fun heq => hr (FunctionCfg.eventsInRange_of_view (h.tidy v hv) heq.symm)
  rw [findOrKeep, findVariant_eq h, hnone]
  rfl

/-! ## Lists built by `add_variant` -/

/-- A list of variants as its owner builds it: graphs are added, the unit of a kept
graph may be set, and a graph found equal leaves its sites as alternatives. Where
fingerprints are kept, every call keys sites by `rekey`. -/
inductive Built (hash : List Fed → Digest) (rekey : ℕ → ℕ) :
    List FunctionCfg → Option (List Digest) → Prop
  | plain : Built hash rekey [] none
  | hashed : Built hash rekey [] (some [])
  | add {variants variants' : List FunctionCfg} {hashes hashes' : Option (List Digest)}
      {cfg : FunctionCfg} {function : ℕ} {site : ℕ → Option ℕ} {file key : ℕ → ℕ}
      (h : Built hash rekey variants hashes) (hkey : hashes = none ∨ key = rekey)
      (hadd : addVariant hash variants hashes cfg function site file key =
        some (.ok (variants', hashes'))) : Built hash rekey variants' hashes'
  | setUnit {variants : List FunctionCfg} {hashes : Option (List Digest)} (i : ℕ)
      (tu : Option ℕ) (h : Built hash rekey variants hashes) :
      Built hash rekey (variants.modify i fun v => { v with tu := tu }) hashes
  | absorb {variants : List FunctionCfg} {hashes : Option (List Digest)} {cfg : FunctionCfg}
      {function i : ℕ} {site : ℕ → Option ℕ} {file key : ℕ → ℕ}
      (h : Built hash rekey variants hashes) (hkey : hashes = none ∨ key = rekey)
      (hadd : addVariant hash variants hashes cfg function site file key = some (.error i)) :
      Built hash rekey (variants.modify i fun v => v.addAlternativesFrom cfg site) hashes

omit [DecidableEq Digest] in
/-- A kept graph may change in what no comparison reads. -/
lemma InStep.modify (h : InStep hash rekey variants hashes) {i : ℕ} {f}
    (hf : ∀ v, variants[i]? = some v →
      (f v).Tidy ∧ (hashes ≠ none → ((f v).keyed rekey).body = (v.keyed rekey).body)) :
    InStep hash rekey (variants.modify i f) hashes := by
  constructor
  · intro v hv
    obtain ⟨k, hk⟩ := mem_iff_getElem?.mp hv
    rw [getElem?_modify] at hk
    obtain ⟨w, hw, rfl⟩ := Option.map_eq_some_iff.mp hk
    split
    · rename_i hik
      exact (hf w (hik ▸ hw)).1
    · exact h.tidy w (mem_of_getElem? hw)
  intro hs hhs
  rw [h.fingerprints hs hhs]
  refine ext_getElem? fun k => ?_
  rw [getElem?_map, getElem?_map, getElem?_modify]
  cases hw : variants[k]? with
  | none => rfl
  | some w =>
    by_cases hik : i = k
    · subst hik
      have hne : hashes ≠ none := by
        rw [Option.mem_def.mp hhs]
        exact Option.some_ne_none hs
      simp [(hf w hw).2 hne]
    · simp [hik]

lemma addAlternativeSites_eq (l sites : List ℕ) : ∃ new, new ⊆ sites ∧
      sites.foldl (fun l s => if l.contains s then l else l ++ [s]) l = l ++ new := by
  induction sites generalizing l with
  | nil => exact ⟨[], by simp, by simp⟩
  | cons s rest ih =>
    rw [foldl_cons]
    split
    · obtain ⟨new, hnew, heq⟩ := ih l
      exact ⟨new, Subset.trans hnew (subset_cons_self _ _), heq⟩
    · obtain ⟨new, hnew, heq⟩ := ih (l ++ [s])
      refine ⟨s :: new, cons_subset_cons s hnew, ?_⟩
      rw [heq, append_assoc, singleton_append]

/-- Alternatives with the same keys change no key. -/
lemma mappedSites_addAlternativeSites {e : CallEvent} {sites : List ℕ}
    (h : mappedSites (fun s => some (rekey s)) e.sites =
      mappedSites (fun s => some (rekey s)) sites) :
    mappedSites (fun s => some (rekey s)) (e.addAlternativeSites sites).sites =
      mappedSites (fun s => some (rekey s)) e.sites := by
  obtain ⟨new, hnew, heq⟩ := addAlternativeSites_eq e.sites sites
  have hsub : new.filterMap (fun s => some (rekey s)) ⊆
      e.sites.filterMap fun s => some (rekey s) := by
    intro t ht
    have hin : t ∈ sites.filterMap fun s => some (rekey s) := by
      obtain ⟨s, hs, hst⟩ := mem_filterMap.mp ht
      exact mem_filterMap.mpr ⟨s, hnew hs, hst⟩
    rwa [← mem_eraseDups, ← mappedSites_eq, ← h, mappedSites_eq, mem_eraseDups] at hin
  rw [mappedSites_eq, mappedSites_eq, addAlternativeSites, heq, filterMap_append,
    eraseDups_append_of_subset hsub]

lemma length_addAlternatives (events : List CallEvent) (sites : List (List ℕ)) :
    (addAlternatives events sites).length = events.length := by
  induction events generalizing sites with
  | nil => rfl
  | cons e events ih =>
    cases sites with
    | nil => rfl
    | cons s rest => simp [addAlternatives, ih]

/-- Matching events of equal keys keep their keyed form. -/
lemma map_addAlternatives {key : CallEvent → CallEvent}
    (hkey : key = fun e => { e with sites := mappedSites (fun s => some (rekey s)) e.sites })
    {events others : List CallEvent} (h : events.map key = others.map key) :
    (addAlternatives events (others.map sites)).map key = events.map key := by
  induction events generalizing others with
  | nil => rfl
  | cons e events ih =>
    cases others with
    | nil => rfl
    | cons o others =>
      rw [map_cons, map_cons, cons.injEq] at h
      have hsites := congrArg sites h.1
      rw [hkey] at hsites
      have hhead : key (e.addAlternativeSites o.sites) = key e := by
        have hsame := mappedSites_addAlternativeSites hsites
        simp only [hkey] at hsame ⊢
        rw [hsame]
        rfl
      rw [map_cons, addAlternatives, map_cons, map_cons, hhead, ih h.2]

/-- The alternatives a graph found equal leaves change no keyed form. -/
lemma keyed_addAlternativesFrom {v cfg : FunctionCfg} {function : ℕ} {site : ℕ → Option ℕ}
    {file : ℕ → ℕ} (h : (v.keyed rekey).body = ((cfg.remapped function site file).keyed rekey).body)
    : ((v.addAlternativesFrom cfg site).keyed rekey).body = (v.keyed rekey).body := by
  have hkept : ((cfg.events.map fun e => mappedSites site e.sites).filter fun s => !s.isEmpty) =
      (cfg.remapped function site file).events.map sites := by
    simp only [FunctionCfg.remapped, mapEvents, map_map]
    rw [filter_map]
    rfl
  have hevents := congrArg FunctionCfg.events h
  have hmap := map_addAlternatives rfl hevents
  simp only [FunctionCfg.addAlternativesFrom, hkept, FunctionCfg.keyed]
  rw [hmap]

lemma remap_eq_some {cfg r : FunctionCfg} {function : ℕ} {site : ℕ → Option ℕ} {file : ℕ → ℕ}
    (h : cfg.remap function site file = some r) :
    cfg.EventsInRange ∧ cfg.remapped function site file = r := by
  simpa [FunctionCfg.remap] using h

lemma Built.inStep (h : Built hash rekey variants hashes) : InStep hash rekey variants hashes := by
  induction h with
  | plain | hashed => exact ⟨by simp, by simp⟩
  | @add variants variants' hashes hashes' cfg function site file key _ hkey hadd ih =>
    rw [addVariant_eq (ih.rekeyed hkey)] at hadd
    obtain ⟨r, hr, hkeep⟩ := Option.map_eq_some_iff.mp hadd
    obtain ⟨-, rfl⟩ := remap_eq_some hr
    have htidy := cfg.remapped_tidy function site file
    unfold keepUnlessEqual at hkeep
    split at hkeep
    · cases hkeep
    obtain ⟨rfl, rfl⟩ := Prod.mk.inj (Except.ok.inj hkeep)
    constructor
    · intro v hv
      rcases mem_append.mp hv with hv | hv
      · exact ih.tidy v hv
      · rw [mem_singleton.mp hv]
        exact ⟨htidy.inRange, htidy.forward⟩
    intro hs hhs
    obtain ⟨hs₀, hhs₀, rfl⟩ := Option.map_eq_some_iff.mp hhs
    obtain rfl : key = rekey := hkey.resolve_left (by simp [hhs₀])
    rw [ih.fingerprints hs₀ hhs₀, map_append]
    rfl
  | setUnit i tu _ ih =>
    refine ih.modify fun v hv => ?_
    have htidy := ih.tidy v (mem_of_getElem? hv)
    exact ⟨⟨htidy.inRange, htidy.forward⟩, fun _ => rfl⟩
  | @absorb variants hashes cfg function i site file key _ hkey hadd ih =>
    refine ih.modify fun v hv => ?_
    have htidy := ih.tidy v (mem_of_getElem? hv)
    have hlen : (v.addAlternativesFrom cfg site).events.length = v.events.length :=
      length_addAlternatives _ _
    refine ⟨⟨by rw [FunctionCfg.EventsInRange, hlen]; exact htidy.inRange, htidy.forward⟩,
      fun hne => ?_⟩
    obtain rfl : key = rekey := hkey.resolve_left hne
    rw [addVariant_eq ih] at hadd
    obtain ⟨r, hr, hkeep⟩ := Option.map_eq_some_iff.mp hadd
    obtain ⟨-, rfl⟩ := remap_eq_some hr
    unfold keepUnlessEqual at hkeep
    split at hkeep
    · rename_i k hk
      cases hkeep
      exact keyed_addAlternativesFrom (firstVariant_spec hk hv)
    · cases hkeep

/-- For every list its owner built, every graph and every mapping: the answer is
the least variant whose keyed graph is structurally equal to the keyed remapped
graph, and that graph is appended when there is none. The answer does not depend
on fingerprints, nor on whether the mapped view or the built graph is compared. -/
theorem addVariant_least {key : ℕ → ℕ} (h : Built hash key variants hashes)
    (hkey : hashes = none ∨ rekey = key) (cfg : FunctionCfg) (function : ℕ)
    (site : ℕ → Option ℕ) (file : ℕ → ℕ) :
    (cfg.remap function site file = none →
        addVariant hash variants hashes cfg function site file rekey = none) ∧
      ∀ r, cfg.remap function site file = some r →
        cfg.remap function (fun s => (site s).map rekey) file = some (r.keyed rekey) ∧
        (∀ i, addVariant hash variants hashes cfg function site file rekey = some (.error i) ↔
          (∃ v, variants[i]? = some v ∧ (v.keyed rekey).structurallyEqual (r.keyed rekey) = true) ∧
          ∀ j v, j < i → variants[j]? = some v →
            (v.keyed rekey).structurallyEqual (r.keyed rekey) = false) ∧
        ((∀ v ∈ variants, (v.keyed rekey).structurallyEqual (r.keyed rekey) = false) →
          ∃ hashes', addVariant hash variants hashes cfg function site file rekey =
            some (.ok (variants ++ [{ r with variant := variants.length }], hashes'))) ∧
        (addVariant hash variants hashes cfg function site file rekey).map (Except.map Prod.fst) =
          (addVariant hash variants none cfg function site file rekey).map (Except.map Prod.fst) ∧
        findOrKeep hash variants hashes ⟨r, function, fun s => some (rekey s), id⟩ rekey (some r) =
          addVariant hash variants hashes cfg function site file rekey := by
  have hstep := h.inStep.rekeyed hkey
  have heq := addVariant_eq hstep cfg function site file
  refine ⟨fun hr => by rw [heq, hr]; rfl, fun r hr => ?_⟩
  obtain ⟨hrange, rfl⟩ := remap_eq_some hr
  rw [hr, Option.map_some] at heq
  set r := cfg.remapped function site file
  refine ⟨?_, fun i => ?_, fun hnone => ?_, ?_, ?_⟩
  · rw [FunctionCfg.remap, if_pos hrange, FunctionCfg.remapped_keyed]
  · rw [heq, ← firstVariant_eq_some]
    unfold keepUnlessEqual
    cases firstVariant variants rekey (r.keyed rekey).body <;> simp
  · have hfirst : firstVariant variants rekey (r.keyed rekey).body = none := by
      rw [firstVariant, findIdx?_eq_none_iff]
      intro v hv
      rw [← structurallyEqual_eq, hnone v hv]
    exact ⟨_, by rw [heq, keepUnlessEqual, hfirst]⟩
  · rw [heq, addVariant_eq (hstep.unhashed rekey), hr]
    simp only [Option.map_some, keepUnlessEqual]
    cases firstVariant variants rekey (r.keyed rekey).body <;> rfl
  · rw [heq]
    exact findOrKeep_eq hstep ((cfg.remapped_tidy function site file).view_eq rekey function rfl)

end

/-- Every site but the middle one's. -/
def exceptMiddle (s : ℕ) : Option ℕ := if s = 1 then none else some s

/-- The same body met again is the variant kept for it. -/
theorem addVariant_least_again : ∃ variants hashes, Built List.length id variants hashes ∧
      addVariant List.length variants hashes FunctionCfg.threeCalls 5 exceptMiddle id id =
        some (.error 0) := by
  have hadd : addVariant List.length [] (some []) FunctionCfg.threeCalls 5 exceptMiddle id id =
      some (.ok ([FunctionCfg.threeCalls.remapped 5 exceptMiddle id], some [12])) := rfl
  have hbuilt := Built.add .hashed (.inr rfl) hadd
  refine ⟨_, _, hbuilt, ?_⟩
  have h := addVariant_least hbuilt (.inr rfl) FunctionCfg.threeCalls 5 exceptMiddle id
  exact ((h.2 _ rfl).2.1 0).mpr ⟨⟨_, rfl, rfl⟩, by simp⟩

end Pathologist.Cfg

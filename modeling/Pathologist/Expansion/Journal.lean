import Pathologist.Lib.UndoLog
import Pathologist.Expansion.Cache

/-!
# Deferred publishing

A run whose publishing is deferred keeps its entries back and writes down what it
read of the shared cache, and when. `ExpansionJournal.commit` checks the record
against the cache of the moment and publishes the entries when it still holds.
-/
namespace Pathologist.Expansion
variable {Name Path Def Rest : Type*}

/-- Where a shown variant came from. -/
inductive Source
  /-- In the shared cache, at this index. -/
  | stored (n : ℕ)
  /-- Among the entries kept back by a journal ahead. -/
  | ahead (journal n : ℕ)
  deriving DecidableEq

structure Shown (Name Path : Type*) where
  id : ℕ
  signature : ℕ
  deps : MacroFingerprint Name Path
  source : Source

def Shown.of (entry : IncludeExpansion Name Path Rest) (source : Source) : Shown Name Path :=
  ⟨entry.id, entry.signature, entry.deps, source⟩

def Shown.handle (variant : Shown Name Path) : Handle :=
  match variant.source with
  | .stored index => .index index
  | .ahead _ _ => .provisional variant.id

/-- `view` with one more variant, unless it holds that already. -/
def addUnshown (view : List (Shown Name Path)) (variant : Shown Name Path) :
    List (Shown Name Path) :=
  if view.any fun v => decide (v.id = variant.id) then view else view ++ [variant]

structure Lookup where
  /-- The run's history point when it looked. -/
  point : ℕ
  /-- The position in the view it took; `none` for its own entry or none. -/
  took : Option ℕ

/-- One header's variants as the run was shown them, and its lookups there. -/
structure Seen (Name Path : Type*) where
  view : List (Shown Name Path)
  lookups : List Lookup

def Seen.shows (seen : Seen Name Path) (id : ℕ) : Bool :=
  seen.view.any fun v => decide (v.id = id)

/-- What a name or a path was bound to before a change. -/
inductive Change (Name Path Def : Type*)
  | binding (name : Name) (before : Option (Def × Bool))
  | header (path : Path) (before : Option ℕ)

/-- What a change of `name` found it bound to. -/
def Change.bindingBefore [DecidableEq Name] (name : Name) :
    Change Name Path Def → Option (Option (Def × Bool))
  | .binding other before => if other = name then some before else none
  | .header _ _ => none

/-- What a change of `path` found it at. -/
def Change.headerBefore [DecidableEq Path] (path : Path) : Change Name Path Def → Option (Option ℕ)
  | .header other before => if other = path then some before else none
  | .binding _ _ => none

def Change.isNewHeader : Change Name Path Def → Bool
  | .header _ none => true
  | _ => false

/-- A run's environment at every point of its history: the one it ended with, and
before each change the binding the name had. -/
structure MacroHistory (Name Path Def : Type*) where
  undo : List (Change Name Path Def)
  lastHeaders : AList fun _ : Path => ℕ
  last : Name → Option Def
  lastFallbacks : Name → Bool

namespace MacroHistory
variable [DecidableEq Name] [DecidableEq Path]

/-- The first change of `name` at or after `point` saw the binding `point` had. -/
def bindingAt (history : MacroHistory Name Path Def) (name : Name) (point : ℕ) :
    Option (Def × Bool) :=
  UndoLog.rewind (Change.bindingBefore name) (history.undo.drop point)
    ((history.last name).map fun definition => (definition, history.lastFallbacks name))

def headerAt (history : MacroHistory Name Path Def) (path : Path) (point : ℕ) : Option ℕ :=
  UndoLog.rewind (Change.headerBefore path) (history.undo.drop point)
    (history.lastHeaders.lookup path)

/-- How many headers were new before `point`. -/
def headerAdditions (history : MacroHistory Name Path Def) (point : ℕ) : ℕ :=
  (history.undo.take point).countP Change.isNewHeader

/-- Whether the environment at `point` satisfies `deps`. -/
def satisfies (hash : Def → Bool → ℕ) (history : MacroHistory Name Path Def)
    (deps : MacroFingerprint Name Path) (point : ℕ) : Bool :=
  deps.satisfiedBy (fun name => (history.bindingAt name point).map fun b => hash b.1 b.2)
    (fun names => names.any fun name => (history.bindingAt name point).isSome)
    (fun path => history.headerAt path point) (history.headerAdditions point)

end MacroHistory

/-- What a run under deferred publishing read from the shared cache and would have
published to it. -/
structure ExpansionJournal (Name Path Def Rest : Type*) where
  seen : AList fun _ : ExpansionKey Path => Seen Name Path
  pending : AList fun _ : ExpansionKey Path => List (IncludeExpansion Name Path Rest)
  cap : ℕ
  language : Language
  history : MacroHistory Name Path Def

namespace ExpansionJournal
variable [DecidableEq Name] [DecidableEq Path]

/-- The journal of a run that has not started. -/
def new (cap : ℕ) (language : Language) : ExpansionJournal Name Path Def Rest where
  seen := ∅
  pending := ∅
  cap := cap
  language := language
  history := ⟨[], ∅, fun _ => none, fun _ => false⟩

def own (j : ExpansionJournal Name Path Def Rest) (key : ExpansionKey Path) :
    List (IncludeExpansion Name Path Rest) :=
  (j.pending.lookup key).getD []

/-- What the journals ahead keep back for `key`. -/
def keptAhead (ahead : List (ExpansionJournal Name Path Def Rest)) (key : ExpansionKey Path) :
    List (Shown Name Path) :=
  ahead.zipIdx.flatMap fun (j, journal) =>
    (j.own key).zipIdx.map fun (entry, n) => Shown.of entry (.ahead journal n)

/-- The run's view of `key` on its first look: the stored list, then what the
journals ahead would append that it does not already hold. -/
def firstView (cache : Cache Name Path Rest) (ahead : List (ExpansionJournal Name Path Def Rest))
    (key : ExpansionKey Path) : List (Shown Name Path) :=
  (keptAhead ahead key).foldl addUnshown
    ((cache key).zipIdx.map fun (entry, n) => Shown.of entry (.stored n))

/-- The run's view of `key`, built on its first look. -/
def seenOf (j : ExpansionJournal Name Path Def Rest) (cache : Cache Name Path Rest)
    (ahead : List (ExpansionJournal Name Path Def Rest)) (key : ExpansionKey Path) :
    Seen Name Path :=
  (j.seen.lookup key).getD ⟨firstView cache ahead key, []⟩

/-- Record that `name` changed, having been bound to `before`. -/
def recordMacroChange (j : ExpansionJournal Name Path Def Rest) (name : Name)
    (before : Option (Def × Bool)) : ExpansionJournal Name Path Def Rest :=
  { j with history := { j.history with undo := j.history.undo ++ [.binding name before] } }

def recordHeader (j : ExpansionJournal Name Path Def Rest) (path : Path) (signature : ℕ) :
    ExpansionJournal Name Path Def Rest :=
  if j.history.lastHeaders.lookup path = some signature then j
  else
    { j with
      history := { j.history with
        lastHeaders := j.history.lastHeaders.insert path signature
        undo := j.history.undo ++ [.header path (j.history.lastHeaders.lookup path)] } }

/-- Record the table the run ended with. -/
def finish (j : ExpansionJournal Name Path Def Rest) (macros : Name → Option Def)
    (fallbacks : Name → Bool) : ExpansionJournal Name Path Def Rest :=
  { j with history := { j.history with last := macros, lastFallbacks := fallbacks } }

/-- The entry a nested record names, without another look at the environment. -/
def recordedEntry (j : ExpansionJournal Name Path Def Rest) (key : ExpansionKey Path)
    (handle : Handle) (cache : Cache Name Path Rest)
    (ahead : List (ExpansionJournal Name Path Def Rest)) :
    Option (IncludeExpansion Name Path Rest) :=
  match handle with
  | .provisional id => ((j :: ahead).flatMap fun j => j.own key).find? fun e => decide (e.id = id)
  | .index n => (cache key)[n]?

/-- The first variant of `key`, shown or kept back, that `accepts`, with the handle to
record for it. -/
def lookup (j : ExpansionJournal Name Path Def Rest) (key : ExpansionKey Path)
    (cache : Cache Name Path Rest) (ahead : List (ExpansionJournal Name Path Def Rest))
    (accepts : MacroFingerprint Name Path → Bool) :
    Option (Handle × IncludeExpansion Name Path Rest) × ExpansionJournal Name Path Def Rest :=
  let seen := j.seenOf cache ahead key
  let own := j.own key
  let found := (seen.view.map Shown.deps ++ own.map IncludeExpansion.deps).findIdx? accepts
  let j' := { j with
    seen := j.seen.insert key { seen with
      lookups := seen.lookups ++
        [⟨j.history.undo.length, found.filter fun n => decide (n < seen.view.length)⟩] } }
  (found.bind fun n =>
    match seen.view[n]? with
    | none => own[n - seen.view.length]?.map fun entry => (.provisional entry.id, entry)
    | some variant =>
      match variant.source with
      | .stored index => (cache key)[index]?.map fun entry => (.index index, entry)
      | .ahead journal kept => (ahead[journal]?.bind fun a => (a.own key)[kept]?).map
          fun entry => (.provisional variant.id, entry), j')

/-- Keep `entry` back as a variant of `key`, if the list the run sees admits it.
The handle names the entry, or the variant that already holds its signature. -/
def publish (j : ExpansionJournal Name Path Def Rest) (key : ExpansionKey Path)
    (cache : Cache Name Path Rest) (ahead : List (ExpansionJournal Name Path Def Rest))
    (entry : IncludeExpansion Name Path Rest) :
    Option Handle × ExpansionJournal Name Path Def Rest :=
  let seen := j.seenOf cache ahead key
  let own := j.own key
  let signatures := seen.view.map Shown.signature ++ own.map IncludeExpansion.signature
  let j' := { j with seen := j.seen.insert key seen }
  if admitsVariant signatures j.cap entry.signature then
    (some (.provisional entry.id), { j' with pending := j.pending.insert key (own ++ [entry]) })
  else
    ((seen.view.find? fun v => decide (v.signature = entry.signature)).map Shown.handle <|>
      (own.find? fun e => decide (e.signature = entry.signature)).map fun e => .provisional e.id,
      { j' with pending := j.pending.insert key own })

/-- Where each shown variant is stored, in the order it was shown; `none` when that
order is not the stored one, or, with `complete`, when one is not stored. -/
def positions (complete : Bool) (list : List (IncludeExpansion Name Path Rest)) :
    Option ℕ → List (Shown Name Path) → Option (List (Option ℕ))
  | _, [] => some []
  | last, shown :: view =>
    match list.findIdx? fun e => decide (e.id = shown.id) with
    | some p =>
      if last.any fun last => decide (p ≤ last) then none
      else (positions complete list (some p) view).map (some p :: ·)
    | none => if complete then none else (positions complete list last view).map (none :: ·)

/-- The variants of `list` the run was not shown, with their indices. -/
def unshown (seen : Seen Name Path) (list : List (IncludeExpansion Name Path Rest)) :
    List (IncludeExpansion Name Path Rest × ℕ) :=
  list.zipIdx.filter fun e => !seen.shows e.1.id

/-- Whether a lookup would have taken a variant it was not shown. -/
def takenInstead (hash : Def → Bool → ℕ) (history : MacroHistory Name Path Def)
    (seen : Seen Name Path) (list : List (IncludeExpansion Name Path Rest))
    (positions : List (Option ℕ)) (lookup : Lookup) : Bool :=
  match lookup.took.elim (some list.length) fun n => positions[n]?.join with
  | none => false
  | some before => ((unshown seen list).takeWhile fun e => decide (e.2 < before)).any fun e =>
      history.satisfies hash e.1.deps lookup.point

/-- Does the stored `list` of `key` leave the run's part there as a publishing
preprocess against it would have it? -/
def agreesAt (hash : Def → Bool → ℕ) (j : ExpansionJournal Name Path Def Rest)
    (complete : Bool) (key : ExpansionKey Path) (seen : Seen Name Path)
    (list : List (IncludeExpansion Name Path Rest)) : Bool :=
  let own := j.own key
  if list.length + own.length > j.cap then false
  else if list.map IncludeExpansion.id = seen.view.map Shown.id then true
  else
    match positions complete list none seen.view with
    | none => false
    | some positions =>
      !seen.lookups.any (takenInstead hash j.history seen list positions) &&
        !(unshown seen list).any fun e => own.any fun o => decide (o.signature = e.1.signature)

/-- Does `stored` leave this run as the run a publishing preprocess against it would
be? Without `complete`, a shown variant that is not stored yet is given the benefit of
the doubt. -/
def agrees (hash : Def → Bool → ℕ) (j : ExpansionJournal Name Path Def Rest)
    (stored : Cache Name Path Rest) (complete : Bool) : Bool :=
  j.seen.entries.all fun entry => agreesAt hash j complete entry.1 entry.2 (stored entry.1)

/-- Whether the cache already rules this run out. -/
def isContradicted (hash : Def → Bool → ℕ) (j : ExpansionJournal Name Path Def Rest)
    (cache : Cache Name Path Rest) : Bool :=
  !agrees hash j cache false

/-- Whether the run clashes with `later`, committed after it, leaving out the entries
for which `skip` holds. -/
def clashes (hash : Def → Bool → ℕ) (j later : ExpansionJournal Name Path Def Rest)
    (skip : ExpansionKey Path → IncludeExpansion Name Path Rest → Bool) : Bool :=
  j.pending.entries.any fun entry =>
    match later.seen.lookup entry.1 with
    | none => false
    | some seen =>
      let theirs := later.own entry.1
      let unseen := entry.2.filter fun e => !seen.shows e.id
      let exposed := (seen.lookups.filter fun l => l.took.all fun n =>
        seen.view[n]?.any fun v => match v.source with
          | .ahead _ _ => true
          | .stored _ => false).map Lookup.point
      (!theirs.isEmpty && decide (seen.view.length + unseen.length + theirs.length > later.cap)) ||
        (unseen.filter fun e => !skip entry.1 e).any fun e =>
          (exposed.any fun point => later.history.satisfies hash e.deps point) ||
            theirs.any fun t => decide (t.signature = e.signature)

/-- Whether this run, committed before `later`, rules `later` out. -/
def rulesOut (hash : Def → Bool → ℕ) (j later : ExpansionJournal Name Path Def Rest) : Bool :=
  clashes hash j later fun _ _ => false

/-- `rulesOut` for this run taken as a guess at its unit's next run: an entry whose
signature is stored by now is left out. -/
def likelyRulesOut (hash : Def → Bool → ℕ) (j later : ExpansionJournal Name Path Def Rest)
    (cache : Cache Name Path Rest) : Bool :=
  clashes hash j later fun key entry =>
    (cache key).any fun e => decide (e.signature = entry.signature)

/-- Whether `later` was shown an entry this run would publish. -/
def feeds (j later : ExpansionJournal Name Path Def Rest) : Bool :=
  j.pending.entries.any fun entry =>
    (later.seen.lookup entry.1).any fun seen => entry.2.any fun e => seen.shows e.id

end ExpansionJournal

/-- The indices of the ids met so far. -/
abbrev Indices := ℕ → Option ℕ

def Indices.remember (indices : Indices) (place : ℕ × ℕ) : Indices :=
  Function.update indices place.1 (some place.2)

section Commit
variable [DecidableEq Path]

/-- The index `handle` of a record of `path` stands for, searched among the stored
variants and remembered. -/
def resolve (language : Language) (stored : Cache Name Path Rest) (indices : Indices)
    (path : Path) : Handle → Option (ℕ × Indices)
  | .index n => some (n, indices)
  | .provisional id =>
    match indices id with
    | some n => some (n, indices)
    | none => ((stored (path, language)).findIdx? fun e => decide (e.id = id)).map fun n =>
        (n, indices.remember (id, n))

/-- The records with their handles turned into indices. -/
def resolveAll (language : Language) (stored : Cache Name Path Rest) :
    Indices → List (Path × Handle) → Option (List (Path × Handle) × Indices)
  | indices, [] => some ([], indices)
  | indices, (path, handle) :: records =>
    (resolve language stored indices path handle).bind fun (n, indices) =>
      (resolveAll language stored indices records).map fun (records, indices) =>
        ((path, .index n) :: records, indices)

def Handle.isProvisional : Handle → Bool
  | .index _ => false
  | .provisional _ => true

/-- `entry` with the handles among its nested variants turned into indices. -/
def withIndices (language : Language) (stored : Cache Name Path Rest) (indices : Indices)
    (entry : IncludeExpansion Name Path Rest) :
    Option (IncludeExpansion Name Path Rest × Indices) :=
  if entry.nestedVariants.any fun record => record.2.isProvisional then
    (resolveAll language stored indices entry.nestedVariants).map fun (nested, indices) =>
      ({ entry with nestedVariants := nested }, indices)
  else some (entry, indices)

def withIndicesAll (language : Language) (stored : Cache Name Path Rest) :
    Indices → List (IncludeExpansion Name Path Rest) →
      Option (List (IncludeExpansion Name Path Rest) × Indices)
  | indices, [] => some ([], indices)
  | indices, entry :: entries =>
    (withIndices language stored indices entry).bind fun (entry, indices) =>
      (withIndicesAll language stored indices entries).map fun (entries, indices) =>
        (entry :: entries, indices)

/-- What is published: the kept-back entries of each header, in the order the map
of pending entries is walked. -/
def publishedOf (language : Language) (stored : Cache Name Path Rest) :
    Indices → List ((_ : ExpansionKey Path) × List (IncludeExpansion Name Path Rest)) →
      Option (List (ExpansionKey Path × List (IncludeExpansion Name Path Rest)))
  | _, [] => some []
  | indices, ⟨key, entries⟩ :: pending =>
    (withIndicesAll language stored indices entries).bind fun (entries, indices) =>
      (publishedOf language stored indices pending).map fun published =>
        (key, entries) :: published

/-- The id of each kept-back entry with the index it is about to get. -/
def ownPlaces (stored : Cache Name Path Rest)
    (pending : List ((_ : ExpansionKey Path) × List (IncludeExpansion Name Path Rest))) :
    List (ℕ × ℕ) :=
  pending.flatMap fun entry => entry.2.zipIdx.map fun e =>
    (e.1.id, (stored entry.1).length + e.2)

def ownIndices (stored : Cache Name Path Rest)
    (pending : List ((_ : ExpansionKey Path) × List (IncludeExpansion Name Path Rest))) : Indices :=
  (ownPlaces stored pending).foldl Indices.remember fun _ => none

def extendWith (stored : Cache Name Path Rest)
    (published : List (ExpansionKey Path × List (IncludeExpansion Name Path Rest))) :
    Cache Name Path Rest :=
  published.foldl (fun stored entry =>
    Function.update stored entry.1 (stored entry.1 ++ entry.2)) stored

/-- Check the run against the cache and, when it is the run a publishing preprocess
against the cache would be, publish its entries and turn the handles in `replayed`
into indices. `pending` is the journal's map in the order it is walked. -/
def ExpansionJournal.commit [DecidableEq Name] (hash : Def → Bool → ℕ)
    (j : ExpansionJournal Name Path Def Rest)
    (pending : List ((_ : ExpansionKey Path) × List (IncludeExpansion Name Path Rest)))
    (stored : Cache Name Path Rest) (replayed : List (Path × Handle)) :
    Bool × Cache Name Path Rest × List (Path × Handle) :=
  if !agrees hash j stored true then (false, stored, replayed)
  else
    match resolveAll j.language stored (ownIndices stored pending) replayed with
    | none => (false, stored, replayed)
    | some (resolved, indices) =>
      match publishedOf j.language stored indices pending with
      | none => (false, stored, replayed)
      | some published => (true, extendWith stored published, resolved)

end Commit
end Pathologist.Expansion

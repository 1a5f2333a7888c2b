import Pathologist.Expansion.Journal

/-!
# One run, twice

What a preprocessing run does with the cache, as a list of operations, and the two
ways to carry them out: deferred, against a journal and the caches of the moment, or
directly on the writable cache. The handles a run records come from earlier answers,
so an operation names them by the answer they came with.
-/
namespace Pathologist.Expansion
variable {Name Path Def Rest : Type*}

/-- The `k`-th record of the `i`-th answer. -/
abbrev Ref := ℕ × ℕ

/-- An entry to publish, its nested records taken from earlier answers. -/
structure Draft (Name Path Rest : Type*) where
  id : ℕ
  signature : ℕ
  deps : MacroFingerprint Name Path
  nested : List Ref
  rest : Rest

inductive Op (Name Path Def Rest : Type*)
  | define (name : Name) (definition : Def)
  | undef (name : Name)
  | provideSystemHeader (path : Path) (signature : ℕ)
  | matchingVariant (path : Path)
  | publishVariant (path : Path) (draft : Draft Name Path Rest)
  /-- Read the entry a record names, without a lookup. -/
  | recordedEntry (record : Ref)
  /-- Compare two records as they are spelled. -/
  | sameRecord (a b : Ref)

inductive Answer (Name Path Rest : Type*)
  | quiet
  | found (path : Path) (taken : Option (Handle × IncludeExpansion Name Path Rest))
  | published (path : Path) (handle : Option Handle)
  | recorded (entry : Option (IncludeExpansion Name Path Rest))
  | compared (same : Bool)

/-- The records an answer brings. -/
def Answer.records : Answer Name Path Rest → List (Path × Handle)
  | .quiet | .compared _ => []
  | .found path taken => taken.elim [] fun t => (path, t.1) :: t.2.nestedVariants
  | .published path handle => handle.toList.map fun h => (path, h)
  | .recorded entry => entry.elim [] IncludeExpansion.nestedVariants

def recordOf (answers : List (Answer Name Path Rest)) (r : Ref) : Option (Path × Handle) :=
  answers[r.1]?.bind fun a => a.records[r.2]?

/-- The records these references name. -/
def recordsOf (answers : List (Answer Name Path Rest)) (refs : List Ref) : List (Path × Handle) :=
  refs.filterMap (recordOf answers)

def Draft.entry (draft : Draft Name Path Rest) (answers : List (Answer Name Path Rest)) :
    IncludeExpansion Name Path Rest :=
  ⟨draft.id, draft.signature, draft.deps, recordsOf answers draft.nested, draft.rest⟩

section
variable [DecidableEq Name] [DecidableEq Path]

/-- What an operation does to the environment of the run. -/
def MacroEnv.after (env : MacroEnv Name Path Def) : Op Name Path Def Rest → MacroEnv Name Path Def
  | .define name definition => env.insertMacro name definition
  | .undef name => env.removeMacro name
  | .provideSystemHeader path signature => env.provideSystemHeader path signature
  | _ => env

/-- A run under deferred publishing. -/
structure Deferred (Name Path Def Rest : Type*) where
  env : MacroEnv Name Path Def
  journal : ExpansionJournal Name Path Def Rest
  answers : List (Answer Name Path Rest)

namespace Deferred
variable (hash : Def → Bool → ℕ) (ahead : List (ExpansionJournal Name Path Def Rest))

/-- The answer to an operation against the cache of the moment, and the journal after it. -/
def answer (cache : Cache Name Path Rest) (d : Deferred Name Path Def Rest) :
    Op Name Path Def Rest → Answer Name Path Rest × ExpansionJournal Name Path Def Rest
  | .define name _ | .undef name => (.quiet, d.journal.recordMacroChange name (d.env.binding name))
  | .provideSystemHeader path signature => (.quiet, d.journal.recordHeader path signature)
  | .matchingVariant path =>
    let (taken, journal) := d.journal.lookup (path, d.journal.language) cache ahead
      (d.env.satisfies hash)
    (.found path taken, journal)
  | .publishVariant path draft =>
    if draft.deps.incompatible then (.published path none, d.journal)
    else
      let (handle, journal) := d.journal.publish (path, d.journal.language) cache ahead
        (draft.entry d.answers)
      (.published path handle, journal)
  | .recordedEntry record =>
    (.recorded ((recordOf d.answers record).bind fun r =>
      d.journal.recordedEntry (r.1, d.journal.language) r.2 cache ahead), d.journal)
  | .sameRecord a b =>
    (.compared (decide (recordOf d.answers a = recordOf d.answers b)), d.journal)

def step (d : Deferred Name Path Def Rest)
    (o : Cache Name Path Rest × Op Name Path Def Rest) : Deferred Name Path Def Rest where
  env := d.env.after o.2
  journal := (d.answer hash ahead o.1 o.2).2
  answers := d.answers ++ [(d.answer hash ahead o.1 o.2).1]

/-- Each operation meets the cache of its own moment. -/
def run (d : Deferred Name Path Def Rest)
    (ops : List (Cache Name Path Rest × Op Name Path Def Rest)) : Deferred Name Path Def Rest :=
  ops.foldl (step hash ahead) d

/-- A run that has not started. -/
def start (cap : ℕ) (language : Language) (macros : Name → Option Def) (fallbacks : Name → Bool) :
    Deferred Name Path Def Rest where
  env := ⟨macros, fallbacks, ∅⟩
  journal := .new cap language
  answers := []

/-- The journal the run hands over. -/
def finished (d : Deferred Name Path Def Rest) : ExpansionJournal Name Path Def Rest :=
  d.journal.finish d.env.macros d.env.fallbacks

end Deferred

/-- A run that publishes directly. -/
structure Direct (Name Path Def Rest : Type*) where
  env : MacroEnv Name Path Def
  cache : Cache Name Path Rest
  answers : List (Answer Name Path Rest)

namespace Direct
variable (hash : Def → Bool → ℕ) (cap : ℕ) (language : Language)

/-- The answer to an operation, and the cache after it. -/
def answer (d : Direct Name Path Def Rest) :
    Op Name Path Def Rest → Answer Name Path Rest × Cache Name Path Rest
  | .define _ _ | .undef _ | .provideSystemHeader _ _ => (.quiet, d.cache)
  | .matchingVariant path =>
    (.found path (d.cache.matchingVariant hash d.env (path, language)), d.cache)
  | .publishVariant path draft =>
    let (handle, cache) := d.cache.publishVariant cap (path, language) (draft.entry d.answers)
    (.published path handle, cache)
  | .recordedEntry record =>
    (.recorded ((recordOf d.answers record).bind fun r =>
      match r.2 with
      | .index n => (d.cache (r.1, language))[n]?
      | .provisional _ => none), d.cache)
  | .sameRecord a b =>
    (.compared (decide (recordOf d.answers a = recordOf d.answers b)), d.cache)

def step (d : Direct Name Path Def Rest) (op : Op Name Path Def Rest) :
    Direct Name Path Def Rest where
  env := d.env.after op
  cache := (d.answer hash cap language op).2
  answers := d.answers ++ [(d.answer hash cap language op).1]

def run (d : Direct Name Path Def Rest) (ops : List (Op Name Path Def Rest)) :
    Direct Name Path Def Rest :=
  ops.foldl (step hash cap language) d

def start (macros : Name → Option Def) (fallbacks : Name → Bool) (cache : Cache Name Path Rest) :
    Direct Name Path Def Rest where
  env := ⟨macros, fallbacks, ∅⟩
  cache := cache
  answers := []

end Direct
end
end Pathologist.Expansion

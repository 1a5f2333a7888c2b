import Pathologist.Discovery.Standing
import Pathologist.Expansion.Course

/-!
# The units of a pass

What the pass runs, with the expansion cache as the cache and deferred publishing as
the runs, and the pass it stands for: the units one by one, each on the cache the
units before it left.
-/
namespace Pathologist.Discovery
open Expansion
variable {Name Path Def Rest Text : Type*} [DecidableEq Name] [DecidableEq Path]

inductive SourceUnit (Name Path Def Rest Text : Type*)
  /-- Read as it is; `none` when it cannot be read. -/
  | asIs (text : Option Text)
  | preprocessed (unit : TranslationUnit Name Path Def Rest Text)

/-- The run of a unit, between two exchanges with the cache. -/
inductive UnitRun (Name Path Def Rest Text : Type*)
  | asIs (text : Option Text)
  | preprocessing (tag : ℕ) (ahead : List (ExpansionJournal Name Path Def Rest))
      (program : Program Name Path Def Rest Text) (state : Deferred Name Path Def Rest)

/-- The ids of a worker's run are its own. -/
def workerTag (run : ℕ) : ℕ := Nat.pair 0 run

/-- The ids of the committing thread's run of a unit are its own. -/
def hereTag (unit : ℕ) : ℕ := Nat.pair 1 unit

section
variable (hash : Def → Bool → ℕ) (cap : ℕ) (order : ExpansionJournal Name Path Def Rest →
    List ((_ : ExpansionKey Path) × List (IncludeExpansion Name Path Rest)))
  (units : ℕ → SourceUnit Name Path Def Rest Text)

def UnitRun.start (unit tag : ℕ) (ahead : List (ExpansionJournal Name Path Def Rest)) :
    UnitRun Name Path Def Rest Text :=
  match units unit with
  | .asIs text => .asIs text
  | .preprocessed u => .preprocessing tag ahead u.program
      (.start cap u.language u.macros u.fallbacks)

/-- One exchange with the cache of the moment. -/
def UnitRun.advance (cache : Cache Name Path Rest) :
    UnitRun Name Path Def Rest Text → UnitRun Name Path Def Rest Text
  | .preprocessing tag ahead (.act op next) d =>
    .preprocessing tag ahead
      (next (d.answer hash ahead cache (op.withId (Nat.pair tag d.answers.length))).1.observe)
      (d.step hash ahead (cache, op.withId (Nat.pair tag d.answers.length)))
  | r => r

/-- What the run hands over. A run that fails hands over nothing: its journal is
dropped with it. -/
def UnitRun.outcome : UnitRun Name Path Def Rest Text →
    Option (Option (Product Text Path × Option (ExpansionJournal Name Path Def Rest)))
  | .asIs text => some (text.map fun text => ((text, []), none))
  | .preprocessing _ _ .fail _ => some none
  | .preprocessing _ _ (.done text replayed) d =>
    some (some ((text, recordsOf d.answers replayed), some d.finished))
  | .preprocessing _ _ (.act _ _) _ => none

/-- The pass over `units`. `order` is the order in which a commit goes through the
entries a journal keeps back. -/
def expansionPass : Preprocessing (Product Text Path) (ExpansionJournal Name Path Def Rest)
    (Cache Name Path Rest) (UnitRun Name Path Def Rest Text) where
  ops := ⟨ExpansionJournal.feeds, ExpansionJournal.rulesOut hash,
    ExpansionJournal.likelyRulesOut hash, ExpansionJournal.isContradicted hash⟩
  start := fun unit run ahead =>
    UnitRun.start cap units unit (run.elim (hereTag unit) workerTag) ahead
  advance := fun r cache => r.advance hash cache
  outcome := UnitRun.outcome
  commit := fun src j cache =>
    let (committed, cache', replayed) := j.commit hash (order j) cache src.2
    if committed then some ((src.1, replayed), cache') else none

/-- The unit on the writable cache: what it produces, and the cache it leaves. -/
def SourceUnit.direct (ids : ℕ → ℕ) (unit : SourceUnit Name Path Def Rest Text)
    (cache : Cache Name Path Rest) : Option (Product Text Path) × Cache Name Path Rest :=
  match unit with
  | .asIs text => (text.map fun text => (text, []), cache)
  | .preprocessed u => u.direct hash cap ids cache

/-- The cache the first `n` units leave. The entries of unit `u` take the ids
`ids u`. -/
def serialCache (ids : ℕ → ℕ → ℕ) (cache : Cache Name Path Rest) : ℕ → Cache Name Path Rest
  | 0 => cache
  | n + 1 => ((units n).direct hash cap (ids n) (serialCache ids cache n)).2

/-- What the unit `n` produces after the units before it. -/
def serialProduct (ids : ℕ → ℕ → ℕ) (cache : Cache Name Path Rest) (n : ℕ) :
    Option (Product Text Path) :=
  ((units n).direct hash cap (ids n) (serialCache hash cap units ids cache n)).1

end

/-- The next exchange reads only what the spelling of its records tells. -/
def UnitRun.Legible (cache : Cache Name Path Rest) : UnitRun Name Path Def Rest Text → Prop
  | .preprocessing tag ahead (.act op _) d =>
    (op.withId (Nat.pair tag d.answers.length)).Legible ahead cache cache d
  | _ => True

/-- If the run has failed, it had kept nothing back. -/
def UnitRun.FailsClean : UnitRun Name Path Def Rest Text → Prop
  | .preprocessing _ _ .fail d => ∀ key, d.journal.own key = []
  | _ => True

/-- A pass over units that share an expansion cache. -/
abbrev Pass (Name Path Def Rest Text : Type*) (jobs : ℕ) :=
  System (Product Text Path) (ExpansionJournal Name Path Def Rest) (Cache Name Path Rest)
    (UnitRun Name Path Def Rest Text) jobs

/-- A step of the pass in which whoever makes an exchange reads it right, and the
committing thread drops no entry with a run that fails. -/
structure Heeds {jobs : ℕ} (s s' : Pass Name Path Def Rest Text jobs) : Prop where
  worker : ∀ i unit id shown r r', s.workers i = .running unit id shown r →
    s'.workers i = .running unit id shown r' → r' ≠ r → r.Legible s.cache
  here : ∀ unit r r', s.committer = .running unit r → s'.committer = .running unit r' →
    r' ≠ r → r.Legible s.cache
  fails : ∀ unit r, s.committer = .running unit r → s'.committer = .recording unit none none →
    r.FailsClean

/-- The passes over `n` units all of whose steps heed this. -/
inductive HeedingRuns {jobs : ℕ} (hash : Def → Bool → ℕ) (cap : ℕ)
    (order : ExpansionJournal Name Path Def Rest →
      List ((_ : ExpansionKey Path) × List (IncludeExpansion Name Path Rest)))
    (units : ℕ → SourceUnit Name Path Def Rest Text) (n window : ℕ)
    (initial : Cache Name Path Rest) :
    List ℕ → Pass Name Path Def Rest Text jobs → Prop
  | start : HeedingRuns hash cap order units n window initial [] (System.init n window initial)
  | step {log : List ℕ} {label : Option ℕ} {s s' : Pass Name Path Def Rest Text jobs} :
      HeedingRuns hash cap order units n window initial log s →
      System.Step (expansionPass hash cap order units) s label s' → Heeds s s' →
      HeedingRuns hash cap order units n window initial (log ++ label.toList) s'

end Pathologist.Discovery

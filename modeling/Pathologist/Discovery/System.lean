import Pathologist.Discovery.Board

/-!
# Workers and the committing thread

Every interleaving of a discovery pass: each step is what one thread does while
it holds the board's lock, or one exchange of a running unit with the shared
cache, which needs no lock of the board. What a unit's preprocessing does is left
to `Preprocessing`: it starts from the journals it is shown, exchanges questions
and answers with the cache of the moment, and ends with a source and a journal,
or in failure.
-/
open Function
namespace Pathologist.Discovery

/-- What a pass runs. `R` is the state of a unit's preprocessing. -/
structure Preprocessing (S J C R : Type*) where
  ops : JournalOps J C
  /-- The run of a unit that is shown these journals ahead. A worker's run has an
  id; the committing thread's own has none. -/
  start : ℕ → Option ℕ → List J → R
  /-- One exchange with the cache as it is now. -/
  advance : R → C → R
  /-- `none` while it runs, `some none` when it fails. -/
  outcome : R → Option (Option (S × Option J))
  /-- Commit a deferred run against the cache; `none`, changing nothing, when it
  does not stand. -/
  commit : S → J → C → Option (S × C)

/-- Where a worker stands between two of its steps. -/
inductive Worker (S J R : Type*)
  | idle
  | running (unit id : ℕ) (shown : List (Shown J)) (state : R)
  /-- The run is done; the commit count is read next. -/
  | ran (run : Run S J)
  | sampled (run : Run S J) (commits : ℕ)
  /-- The cache was asked, without the board. -/
  | checked (run : Run S J) (commits : ℕ) (contradicted : Bool)
  /-- The worker saw that all units have committed and returned. -/
  | gone

/-- Where the committing thread stands between two of its steps. -/
inductive Committer (S J R : Type*)
  /-- In `commit_unit`'s loop; past the last unit, the pass is over. -/
  | waiting (unit : ℕ)
  | taken (unit run : ℕ) (src : S) (journal : Option J)
  /-- In `run_here`. -/
  | running (unit : ℕ) (state : R)
  | recording (unit : ℕ) (run : Option ℕ) (own : Option J)
  /-- The assertion of `run_here` failed. -/
  | panicked (unit : ℕ)

/-- The unit a worker was handed and has not handed back. -/
def Worker.unit? {S J R : Type*} : Worker S J R → Option ℕ
  | .idle | .gone => none
  | .running unit _ _ _ => some unit
  | .ran run | .sampled run _ | .checked run _ _ => some run.unit

@[simp] lemma Worker.unit?_idle {S J R : Type*} : (idle : Worker S J R).unit? = none := rfl

@[simp] lemma Worker.unit?_gone {S J R : Type*} : (gone : Worker S J R).unit? = none := rfl

/-- The unit the committing thread runs itself, until it is recorded. -/
def Committer.ownUnit? {S J R : Type*} : Committer S J R → Option ℕ
  | .running unit _ | .recording unit none _ | .panicked unit => some unit
  | _ => none

@[simp] lemma Committer.ownUnit?_waiting {S J R : Type*} (unit : ℕ) :
    (waiting unit : Committer S J R).ownUnit? = none := rfl

/-- The unit the committing thread is at. -/
def Committer.unit {S J R : Type*} : Committer S J R → ℕ
  | .waiting unit | .taken unit _ _ _ | .running unit _ | .recording unit _ _
  | .panicked unit => unit

/-- A pass in progress. -/
structure System (S J C R : Type*) (jobs : ℕ) where
  board : Board S J
  cache : C
  workers : Fin jobs → Worker S J R
  committer : Committer S J R
  /-- The source stored for each committed unit. -/
  stored : ℕ → Option S
  /-- What each run was shown when it was claimed. No step reads it. -/
  history : ℕ → List (Shown J)

/-- Nobody is running `unit`: the committing thread takes it over. -/
def Board.takeOver {S J : Type*} (b : Board S J) (unit : ℕ) : Board S J :=
  let b' :=
    if unit ∈ b.failed then { b with failed := b.failed.erase unit }
    else if unit ∈ b.requeued then { b with requeued := b.requeued.erase unit }
    else b
  { b' with next := max b'.next (unit + 1) }

/-- The committing thread starts to run a unit itself. -/
def Board.noteInOrder {S J : Type*} (b : Board S J) : Board S J :=
  { b with stats := { b.stats with inOrder := b.stats.inOrder + 1 } }

namespace System
variable {S J C R : Type*} {jobs : ℕ}

/-- A pass over `n` units that nobody has started. -/
def init (n window : ℕ) (cache : C) : System S J C R jobs where
  board := Board.init n window
  cache := cache
  workers := fun _ => .idle
  committer := .waiting 0
  stored := fun _ => none
  history := fun _ => []

def withWorker (s : System S J C R jobs) (i : Fin jobs) (w : Worker S J R) :
    System S J C R jobs :=
  { s with workers := update s.workers i w }

/-- One step of the pass. The label names the unit when it is recorded as
committed. -/
inductive Step (m : Preprocessing S J C R) :
    System S J C R jobs → Option ℕ → System S J C R jobs → Prop
  | claim {s : System S J C R jobs} {i : Fin jobs} {unit id : ℕ} {shown : List (Shown J)}
      {b : Board S J} : s.workers i = .idle → s.board.committed < s.board.n →
      s.board.claim = some ((unit, id, shown), b) →
      Step m s none { s.withWorker i
        (.running unit id shown (m.start unit (some id) (shown.map Shown.journal))) with
        board := b, history := update s.history id shown }
  | leave {s : System S J C R jobs} {i : Fin jobs} : s.workers i = .idle →
      s.board.n ≤ s.board.committed → Step m s none (s.withWorker i .gone)
  | advance {s : System S J C R jobs} {i : Fin jobs} {unit id : ℕ} {shown : List (Shown J)}
      {r : R} : s.workers i = .running unit id shown r → m.outcome r = none →
      Step m s none (s.withWorker i (.running unit id shown (m.advance r s.cache)))
  | ran {s : System S J C R jobs} {i : Fin jobs} {unit id : ℕ} {shown : List (Shown J)}
      {r : R} {src : S} {journal : Option J} : s.workers i = .running unit id shown r →
      m.outcome r = some (some (src, journal)) →
      Step m s none (s.withWorker i (.ran ⟨unit, id, src, journal, shown⟩))
  | failed {s : System S J C R jobs} {i : Fin jobs} {unit id : ℕ} {shown : List (Shown J)}
      {r : R} : s.workers i = .running unit id shown r → m.outcome r = some none →
      Step m s none { s.withWorker i .idle with board := s.board.fail unit }
  | sample {s : System S J C R jobs} {i : Fin jobs} {run : Run S J} :
      s.workers i = .ran run →
      Step m s none (s.withWorker i (.sampled run s.board.committed))
  | check {s : System S J C R jobs} {i : Fin jobs} {run : Run S J} {commits : ℕ} :
      s.workers i = .sampled run commits →
      Step m s none (s.withWorker i (.checked run commits
        (run.journal.any fun j => m.ops.isContradicted j s.cache)))
  | finish {s : System S J C R jobs} {i : Fin jobs} {run : Run S J} {commits : ℕ}
      {contradicted : Bool} : s.workers i = .checked run commits contradicted →
      contradicted = true ∨ s.board.committed = commits →
      Step m s none { s.withWorker i .idle with
        board := s.board.finish m.ops s.cache run contradicted }
  | resample {s : System S J C R jobs} {i : Fin jobs} {run : Run S J} {commits : ℕ}
      {contradicted : Bool} : s.workers i = .checked run commits contradicted →
      ¬ (contradicted = true ∨ s.board.committed = commits) →
      Step m s none (s.withWorker i (.ran run))
  | take {s : System S J C R jobs} {unit : ℕ} {f : Finished S J} {src : S} :
      s.committer = .waiting unit → unit < s.board.n → s.board.finished unit = some f →
      f.src = some src →
      Step m s none { s with
        committer := .taken unit f.run src f.journal
        board := { s.board with
          finished := update s.board.finished unit (some { f with src := none }) } }
  | takeOver {s : System S J C R jobs} {unit : ℕ} : s.committer = .waiting unit →
      unit < s.board.n → (s.board.finished unit).bind Finished.src = none →
      unit ∈ s.board.failed ∨ unit ∈ s.board.requeued ∨ s.board.next = unit →
      Step m s none { s with
        committer := .running unit (m.start unit none [])
        board := (s.board.takeOver unit).noteInOrder }
  | commitRaw {s : System S J C R jobs} {unit run : ℕ} {src : S} :
      s.committer = .taken unit run src none →
      Step m s none { s with
        committer := .recording unit (some run) none
        stored := update s.stored unit (some src) }
  | commit {s : System S J C R jobs} {unit run : ℕ} {src src' : S} {j : J} {cache' : C} :
      s.committer = .taken unit run src (some j) →
      m.commit src j s.cache = some (src', cache') →
      Step m s none { s with
        committer := .recording unit (some run) none
        cache := cache'
        stored := update s.stored unit (some src') }
  | refused {s : System S J C R jobs} {unit run : ℕ} {src : S} {j : J} :
      s.committer = .taken unit run src (some j) → m.commit src j s.cache = none →
      Step m s none { s with
        committer := .running unit (m.start unit none [])
        board := (let b := s.board.discard m.ops s.cache unit
          { b with requeued := b.requeued.erase unit }).noteInOrder }
  | advanceHere {s : System S J C R jobs} {unit : ℕ} {r : R} :
      s.committer = .running unit r → m.outcome r = none →
      Step m s none { s with committer := .running unit (m.advance r s.cache) }
  | hereFailed {s : System S J C R jobs} {unit : ℕ} {r : R} :
      s.committer = .running unit r → m.outcome r = some none →
      Step m s none { s with committer := .recording unit none none }
  | hereRaw {s : System S J C R jobs} {unit : ℕ} {r : R} {src : S} :
      s.committer = .running unit r → m.outcome r = some (some (src, none)) →
      Step m s none { s with
        committer := .recording unit none none
        stored := update s.stored unit (some src) }
  | hereCommit {s : System S J C R jobs} {unit : ℕ} {r : R} {src src' : S} {j : J} {cache' : C} :
      s.committer = .running unit r → m.outcome r = some (some (src, some j)) →
      m.commit src j s.cache = some (src', cache') →
      Step m s none { s with
        committer := .recording unit none (some j)
        cache := cache'
        stored := update s.stored unit (some src') }
  | herePanics {s : System S J C R jobs} {unit : ℕ} {r : R} {src : S} {j : J} :
      s.committer = .running unit r → m.outcome r = some (some (src, some j)) →
      m.commit src j s.cache = none →
      Step m s none { s with committer := .panicked unit }
  | record {s : System S J C R jobs} {unit : ℕ} {run : Option ℕ} {own : Option J} :
      s.committer = .recording unit run own →
      Step m s (some unit) { s with
        committer := .waiting (unit + 1)
        board := s.board.commit m.ops s.cache unit run own }

/-- The passes over `n` units with a given window, up to some moment, with the
units recorded as committed so far. -/
inductive Runs (m : Preprocessing S J C R) (n window : ℕ) (cache : C) :
    List ℕ → System S J C R jobs → Prop
  | start : Runs m n window cache [] (init n window cache)
  | step {log : List ℕ} {label : Option ℕ} {s s' : System S J C R jobs} :
      Runs m n window cache log s → Step m s label s' →
      Runs m n window cache (log ++ label.toList) s'

end System
end Pathologist.Discovery

import Mathlib.Order.Interval.Finset.Nat

/-!
# The board of parallel discovery

The state the discovery workers and the committing thread share, and the
operations each performs while it holds the board's lock. A unit is named by its
place in the commit order. What journals say about each other is asked through
`JournalOps`; the board itself only schedules.
-/
open Function
namespace Pathologist.Discovery

/-- The questions the board asks of journals, one against the shared cache. -/
structure JournalOps (J C : Type*) where
  /-- The second was shown an entry the first would publish. -/
  feeds : J → J → Bool
  /-- The first, committed before the second, rules it out. -/
  rulesOut : J → J → Bool
  /-- The guess of the same for the first unit's next run. -/
  likelyRulesOut : J → J → C → Bool
  /-- The cache already rules the run out. -/
  isContradicted : J → C → Bool

/-- A finished run's journal, as shown to a later run. -/
structure Shown (J : Type*) where
  unit : ℕ
  run : ℕ
  journal : J

/-- A run that finished and has been neither committed nor discarded. -/
structure Finished (S J : Type*) where
  run : ℕ
  /-- Taken when the unit reaches the commit point. -/
  src : Option S
  /-- `none` for a source read as-is, which reads and publishes nothing. -/
  journal : Option J

/-- What one discovery pass did. -/
structure DiscoveryStats where
  discarded : ℕ := 0
  inOrder : ℕ := 0

structure Board (S J : Type*) where
  n : ℕ
  window : ℕ
  /-- Lowest unit never handed out. -/
  next : ℕ
  /-- Units whose run was discarded, to run again. -/
  requeued : Finset ℕ
  /-- Units a worker could not run; the committing thread runs them. -/
  failed : Finset ℕ
  /-- Units committed, all in order. -/
  committed : ℕ
  /-- The run each committed unit committed, when a worker ran it. -/
  committedRuns : ℕ → Option ℕ
  nextRun : ℕ
  /-- Finished runs of uncommitted units, and of the unit being committed. -/
  finished : ℕ → Option (Finished S J)
  /-- Each queued unit's discarded journal: a guess at its next run. -/
  discarded : ℕ → Option J
  /-- Per queued unit, the unfinished units ahead it waits for. -/
  blockers : ℕ → Option (Finset ℕ)
  stats : DiscoveryStats

/-- A worker's finished run, as handed to the board. -/
structure Run (S J : Type*) where
  unit : ℕ
  id : ℕ
  src : S
  journal : Option J
  shown : List (Shown J)

namespace Board
variable {S J C : Type*}

/-- The board before the first claim. -/
def init (n window : ℕ) : Board S J where
  n := n
  window := window
  next := 0
  requeued := ∅
  failed := ∅
  committed := 0
  committedRuns := fun _ => none
  nextRun := 0
  finished := fun _ => none
  discarded := fun _ => none
  blockers := fun _ => none
  stats := {}

/-- The first queued unit that waits for nothing. -/
def queued (b : Board S J) : Option ℕ :=
  (List.range b.n).find? fun u =>
    decide (u ∈ b.requeued) && (b.blockers u).all fun waiting => decide (waiting = ∅)

/-- The finished runs ahead of `unit` that have journals, in order. -/
def shownTo (b : Board S J) (unit : ℕ) : List (Shown J) :=
  (List.range' b.committed (unit - b.committed)).filterMap fun u =>
    (b.finished u).bind fun f => f.journal.map fun j => ⟨u, f.run, j⟩

/-- The next unit to run, a fresh id for the run, and the finished runs ahead of
it to show it; `none` when nothing is worth starting. -/
def claim (b : Board S J) : Option ((ℕ × ℕ × List (Shown J)) × Board S J) :=
  match b.queued with
  | some unit =>
    let b' := { b with requeued := b.requeued.erase unit, nextRun := b.nextRun + 1 }
    some ((unit, b'.nextRun, b'.shownTo unit), b')
  | none =>
    if b.next < b.n ∧ b.next < b.committed + b.window then
      let b' := { b with next := b.next + 1, nextRun := b.nextRun + 1 }
      some ((b.next, b'.nextRun, b'.shownTo b.next), b')
    else none

/-- Whether the run `shown` came from is still finished, or committed. -/
def stands (b : Board S J) (shown : Shown J) : Bool :=
  (b.finished shown.unit).any (fun f => decide (f.run = shown.run)) ||
    decide (b.committedRuns shown.unit = some shown.run)

/-- Queue `unit` to run again, waiting for the unfinished units ahead of it whose
own discarded run likely rules its last run out. -/
def requeue (ops : JournalOps J C) (cache : C) (b : Board S J) (unit : ℕ) (journal : Option J) :
    Board S J :=
  let b' := { b with
    stats := { b.stats with discarded := b.stats.discarded + 1 }
    requeued := insert unit b.requeued }
  match journal with
  | none => b'
  | some j =>
    let blockers := (Finset.Ico b.committed unit).filter fun u =>
      (b.finished u).isNone ∧ (b.discarded u).any fun ahead => ops.likelyRulesOut ahead j cache
    { b' with
      blockers := update b.blockers unit (some blockers)
      discarded := update b.discarded unit (some j) }

/-- The finished units after `unit` whose journal satisfies `p`. -/
def behind (b : Board S J) (unit : ℕ) (p : J → Bool) : List ℕ :=
  (List.range' (unit + 1) (b.n - (unit + 1))).filter fun u =>
    (b.finished u).any fun f => f.journal.any p

/-- The finished units after `unit` that were shown what `journal` would publish. -/
def fedBy (ops : JournalOps J C) (b : Board S J) (unit : ℕ) : Option J → List ℕ
  | some j => b.behind unit (ops.feeds j)
  | none => []

/-- The loop of `discard`: the fuel bounds the pops, each of which removes a
finished run or shortens the queue. -/
def discardLoop (ops : JournalOps J C) (cache : C) : ℕ → List ℕ → Board S J → Board S J
  | 0, _, b => b
  | _ + 1, [], b => b
  | fuel + 1, u :: queue, b =>
    match b.finished u with
    | none => discardLoop ops cache fuel queue b
    | some run =>
      let b' := { b with finished := update b.finished u none }
      discardLoop ops cache fuel ((fedBy ops b' u run.journal).reverse ++ queue)
        (requeue ops cache b' u run.journal)

/-- Throw away `unit`'s finished run and queue the unit again, along with every
finished run behind it that was shown what it would publish. -/
def discard (ops : JournalOps J C) (cache : C) (b : Board S J) (unit : ℕ) : Board S J :=
  discardLoop ops cache (b.n * (b.n + 1) + 2) [unit] b

/-- Discard the finished runs behind `unit` that `journal` rules out. -/
def discardBehind (ops : JournalOps J C) (cache : C) (b : Board S J) (unit : ℕ) (journal : J) :
    Board S J :=
  (b.behind unit (ops.rulesOut journal)).foldl (discard ops cache) b

/-- Nothing waits for `unit` any more: it finished, failed or committed. -/
def unblock (b : Board S J) (unit : ℕ) : Board S J :=
  { b with blockers := fun u => (b.blockers u).map fun waiting => waiting.erase unit }

/-- What rules a run out as it is handed over: the cache, a run it was shown that
has since been discarded, or a finished run ahead of it. -/
def ruledOut (ops : JournalOps J C) (b : Board S J) (run : Run S J) (contradicted : Bool) : Bool :=
  contradicted || run.journal.any fun j =>
    run.shown.any (fun s => !b.stands s && ops.feeds s.journal j) ||
      (List.range' b.committed (run.unit - b.committed)).any fun u =>
        (b.finished u).any fun ahead => ahead.journal.any fun a => ops.rulesOut a j

/-- Take a worker's run, unless something already rules it out. -/
def finish (ops : JournalOps J C) (cache : C) (b : Board S J) (run : Run S J)
    (contradicted : Bool) : Board S J :=
  if run.unit < b.committed then b
  else if ruledOut ops b run contradicted then requeue ops cache b run.unit run.journal
  else
    let b₁ := match run.journal with
      | some j => discardBehind ops cache b run.unit j
      | none => b
    let b₂ := b₁.unblock run.unit
    { b₂ with
      finished := update b₂.finished run.unit (some ⟨run.id, some run.src, run.journal⟩) }

/-- A worker could not run `unit`. -/
def fail (b : Board S J) (unit : ℕ) : Board S J :=
  { b with failed := insert unit b.failed }.unblock unit

/-- Record `unit` as committed: by the worker run `run`, or by a run of the
committing thread's own with `journal`. -/
def commit (ops : JournalOps J C) (cache : C) (b : Board S J) (unit : ℕ) (run : Option ℕ)
    (journal : Option J) : Board S J :=
  let b₁ := match journal with
    | some j => discardBehind ops cache b unit j
    | none => b
  { b₁ with
    committed := unit + 1
    committedRuns := update b₁.committedRuns unit run
    finished := update b₁.finished unit none
    discarded := update b₁.discarded unit none
    blockers := update b₁.blockers unit none }.unblock unit

end Board
end Pathologist.Discovery

import Mathlib.Algebra.BigOperators.Intervals

/-!
# The indexing window

Workers take units in order and park what they made of them; the merge runs on its own thread and
takes the parked units in order. A unit is admitted if the window has room for it and its charge
fits the byte budget, and its charge is returned once it has been merged.

A step below is what a thread does between two moments at which the lock is free, or a signal it
sends outside the lock. A worker or the merge that waits on a condition variable sleeps until it
is signalled; it may also wake for no reason. Nothing panics here, so nothing is cancelled.
-/
open Function
namespace Pathologist.Index

def maxChargeDivisor : ℕ := 4
def minBytes : ℕ := 8 * 1024
def perWorker : ℕ := 16
def windowMin : ℕ := 4
def windowMax : ℕ := 256

def clamp (value low high : ℕ) : ℕ :=
  if value < low then low else if high < value then high else value

def indexWindow (jobs : ℕ) : ℕ := clamp (max jobs 1 * perWorker) windowMin windowMax

def configuredIndexWindow (jobs : ℕ) : ℕ := clamp (max jobs 1 * 2) 4 32

/-- The bounds of a run, and what each unit is charged. -/
structure Plan where
  window : ℕ
  budget : ℕ
  charges : List ℕ

variable {I T : Type*}

def Plan.of (items : List I) (jobs : ℕ) (byteBudget : Option ℕ) (estimateBytes : I → ℕ) : Plan :=
  match byteBudget with
  | some budget =>
    let budget := max budget minBytes
    let maxCharge := max (budget / maxChargeDivisor) minBytes
    ⟨indexWindow jobs, budget, items.map fun item => clamp (estimateBytes item) minBytes maxCharge⟩
  | none => ⟨configuredIndexWindow jobs, 0, List.replicate items.length 0⟩

/-! ## The threads -/

structure Window (T : Type*) where
  next : ℕ := 0
  merged : ℕ := 0
  bytes : ℕ := 0
  done : ℕ → Option T := fun _ => none

inductive Worker
  | ready
  | asleep
  | indexing (i : ℕ)
  /-- A unit is parked and the merge has not been told yet. -/
  | parked
  | returned
  deriving DecidableEq

inductive Merger (T : Type*)
  | wanting (i : ℕ)
  | asleep (i : ℕ)
  | merging (i : ℕ) (unit : T)
  /-- The unit is merged and its charge not yet returned. -/
  | holding (i : ℕ)
  /-- The window has moved and the workers have not been told yet. -/
  | moved (i : ℕ)
  | finished

structure State (jobs : ℕ) (T : Type*) where
  st : Window T := {}
  workers : Fin jobs → Worker := fun _ => .ready
  merger : Merger T
  /-- The units that were merged, in order. -/
  log : List T := []

/-- The merge at the head of its loop. -/
def Merger.turn (plan : Plan) (i : ℕ) : Merger T :=
  if i < plan.charges.length then .wanting i else .finished

/-- Where the merge is, and how much it has merged. -/
def Merger.Position (plan : Plan) (next merged logged : ℕ) : Merger T → Prop
  | .wanting i | .asleep i => i = merged ∧ i < plan.charges.length ∧ logged = merged
  | .merging i _ => i = merged ∧ i < next ∧ logged = merged
  | .holding i => i = merged ∧ i < next ∧ logged = merged + 1
  | .moved i => i + 1 = merged ∧ logged = merged
  | .finished => merged = plan.charges.length ∧ logged = merged

def State.start (jobs : ℕ) (plan : Plan) : State jobs T := { merger := .turn plan 0 }

def Plan.charge (plan : Plan) (i : ℕ) : ℕ := plan.charges.getD i 0

/-- The next unit does not fit. -/
def Window.Blocked (plan : Plan) (st : Window T) : Prop :=
  plan.window ≤ st.next - st.merged ∨ plan.budget - st.bytes < plan.charge st.next

instance (plan : Plan) (st : Window T) : Decidable (st.Blocked plan) :=
  inferInstanceAs (Decidable (_ ∨ _))

inductive Action (jobs : ℕ) (T : Type*)
  | poll (w : Fin jobs)
  | finish (w : Fin jobs) (unit : T)
  | signal (w : Fin jobs)
  | wakeWorker (w : Fin jobs)
  | take
  | merge
  | release
  | notify
  | wakeMerger

namespace State
variable {jobs : ℕ}

def setWorker (s : State jobs T) (w : Fin jobs) (worker : Worker) : State jobs T :=
  { s with workers := update s.workers w worker }

def act (plan : Plan) (s : State jobs T) : Action jobs T → Option (State jobs T)
  | .poll w =>
    match s.workers w with
    | .ready =>
      if plan.charges.length ≤ s.st.next then some (s.setWorker w .returned)
      else if s.st.Blocked plan then some (s.setWorker w .asleep)
      else
        some ({ s with st := { s.st with
          bytes := s.st.bytes + plan.charge s.st.next
          next := s.st.next + 1 } }.setWorker w (.indexing s.st.next))
    | _ => none
  | .finish w unit =>
    match s.workers w with
    | .indexing i =>
      some ({ s with st := { s.st with
        done := update s.st.done i (some unit) } }.setWorker w .parked)
    | _ => none
  | .signal w =>
    match s.workers w with
    | .parked =>
      let s := s.setWorker w .ready
      match s.merger with
      | .asleep i => some { s with merger := .wanting i }
      | _ => some s
    | _ => none
  | .wakeWorker w =>
    match s.workers w with
    | .asleep => some (s.setWorker w .ready)
    | _ => none
  | .take =>
    match s.merger with
    | .wanting i =>
      match s.st.done i with
      | some unit =>
        some { s with
          st := { s.st with done := update s.st.done i none }
          merger := .merging i unit }
      | none => some { s with merger := .asleep i }
    | _ => none
  | .merge =>
    match s.merger with
    | .merging i unit => some { s with log := s.log ++ [unit], merger := .holding i }
    | _ => none
  | .release =>
    match s.merger with
    | .holding i =>
      some { s with
        st := { s.st with bytes := s.st.bytes - plan.charge i, merged := i + 1 }
        merger := .moved i }
    | _ => none
  | .notify =>
    match s.merger with
    | .moved i =>
      some { s with
        workers := fun w => if s.workers w = .asleep then .ready else s.workers w
        merger := .turn plan (i + 1) }
    | _ => none
  | .wakeMerger =>
    match s.merger with
    | .asleep i => some { s with merger := .wanting i }
    | _ => none

/-- One action of a thread; a worker makes a unit of the item it took. -/
def Does (plan : Plan) (items : List I) (yields : I → T → Prop) (s : State jobs T)
    (action : Action jobs T) (s' : State jobs T) : Prop :=
  s.act plan action = some s' ∧ ∀ w unit i, action = .finish w unit → s.workers w = .indexing i →
      ∃ item, items[i]? = some item ∧ yields item unit

def Step (plan : Plan) (items : List I) (yields : I → T → Prop) (s s' : State jobs T) : Prop :=
  ∃ action, s.Does plan items yields action s'

/-- The states that the threads lead to, in whatever order they act. -/
def Reachable (plan : Plan) (items : List I) (yields : I → T → Prop) : State jobs T → Prop :=
  Relation.ReflTransGen (Step plan items yields) (start jobs plan)

/-- The steps, with what each requires. -/
inductive Moves (plan : Plan) (items : List I) (yields : I → T → Prop) (s : State jobs T) :
    Action jobs T → State jobs T → Prop
  | stop (w : Fin jobs) (hw : s.workers w = .ready) (hend : plan.charges.length ≤ s.st.next) :
    Moves plan items yields s (.poll w) (s.setWorker w .returned)
  | sleep (w : Fin jobs) (hw : s.workers w = .ready) (hnext : s.st.next < plan.charges.length)
    (hblocked : s.st.Blocked plan) :
    Moves plan items yields s (.poll w) (s.setWorker w .asleep)
  | accept (w : Fin jobs) (hw : s.workers w = .ready) (hnext : s.st.next < plan.charges.length)
    (hfits : ¬ s.st.Blocked plan) :
    Moves plan items yields s (.poll w) ({ s with st := { s.st with
      bytes := s.st.bytes + plan.charge s.st.next
      next := s.st.next + 1 } }.setWorker w (.indexing s.st.next))
  | park (w : Fin jobs) (i : ℕ) (unit : T) (hw : s.workers w = .indexing i)
    (hunit : ∃ item, items[i]? = some item ∧ yields item unit) :
    Moves plan items yields s (.finish w unit) ({ s with st := { s.st with
      done := update s.st.done i (some unit) } }.setWorker w .parked)
  | signal (w : Fin jobs) (hw : s.workers w = .parked) (hmerger : ∀ i, s.merger ≠ .asleep i) :
    Moves plan items yields s (.signal w) (s.setWorker w .ready)
  | rouse (w : Fin jobs) (i : ℕ) (hw : s.workers w = .parked) (hmerger : s.merger = .asleep i) :
    Moves plan items yields s (.signal w) { s.setWorker w .ready with merger := .wanting i }
  | wakeWorker (w : Fin jobs) (hw : s.workers w = .asleep) :
    Moves plan items yields s (.wakeWorker w) (s.setWorker w .ready)
  | take (i : ℕ) (unit : T) (hmerger : s.merger = .wanting i) (hdone : s.st.done i = some unit) :
    Moves plan items yields s .take { s with
      st := { s.st with done := update s.st.done i none }
      merger := .merging i unit }
  | wait (i : ℕ) (hmerger : s.merger = .wanting i) (hdone : s.st.done i = none) :
    Moves plan items yields s .take { s with merger := .asleep i }
  | merge (i : ℕ) (unit : T) (hmerger : s.merger = .merging i unit) :
    Moves plan items yields s .merge { s with log := s.log ++ [unit], merger := .holding i }
  | release (i : ℕ) (hmerger : s.merger = .holding i) : Moves plan items yields s .release { s with
      st := { s.st with bytes := s.st.bytes - plan.charge i, merged := i + 1 }
      merger := .moved i }
  | notify (i : ℕ) (hmerger : s.merger = .moved i) : Moves plan items yields s .notify { s with
      workers := fun w => if s.workers w = .asleep then .ready else s.workers w
      merger := .turn plan (i + 1) }
  | wakeMerger (i : ℕ) (hmerger : s.merger = .asleep i) :
    Moves plan items yields s .wakeMerger { s with merger := .wanting i }

variable {plan : Plan} {items : List I} {yields : I → T → Prop} {s s' : State jobs T}
  {action : Action jobs T}

lemma Does.moves (h : s.Does plan items yields action s') :
    Moves plan items yields s action s' := by
  obtain ⟨hact, hu⟩ := h
  cases action with
  | poll w =>
    simp only [act] at hact
    split at hact
    · split_ifs at hact with hend hb <;> cases hact
      · exact .stop w ‹_› hend
      · exact .sleep w ‹_› (Nat.lt_of_not_le hend) hb
      · exact .accept w ‹_› (Nat.lt_of_not_le hend) hb
    · cases hact
  | finish w unit =>
    simp only [act] at hact
    split at hact <;> cases hact
    exact .park w _ unit ‹_› (hu w unit _ rfl ‹_›)
  | signal w =>
    simp only [act] at hact
    split at hact
    · split at hact <;> cases hact
      · exact .rouse w _ ‹_› ‹_›
      · exact .signal w ‹_› ‹_›
    · cases hact
  | wakeWorker w =>
    simp only [act] at hact
    split at hact <;> cases hact
    exact .wakeWorker w ‹_›
  | take =>
    simp only [act] at hact
    split at hact
    · split at hact <;> cases hact
      · exact .take _ _ ‹_› ‹_›
      · exact .wait _ ‹_› ‹_›
    · cases hact
  | merge =>
    simp only [act] at hact
    split at hact <;> cases hact
    exact .merge _ _ ‹_›
  | release =>
    simp only [act] at hact
    split at hact <;> cases hact
    exact .release _ ‹_›
  | notify =>
    simp only [act] at hact
    split at hact <;> cases hact
    exact .notify _ ‹_›
  | wakeMerger =>
    simp only [act] at hact
    split at hact <;> cases hact
    exact .wakeMerger _ ‹_›

/-- A worker's item or a parked unit was admitted, and what is parked or merged was made of its
item. -/
structure Custody (items : List I) (yields : I → T → Prop) (s : State jobs T) : Prop where
  indexing : ∀ {w i}, s.workers w = .indexing i → i < s.st.next
  done : ∀ {i unit}, s.st.done i = some unit →
    i < s.st.next ∧ ∃ item, items[i]? = some item ∧ yields item unit
  merging :
      ∀ {i unit}, s.merger = .merging i unit → ∃ item, items[i]? = some item ∧ yields item unit

@[simp] lemma setWorker_self (s : State jobs T) (w : Fin jobs) (worker : Worker) :
    (s.setWorker w worker).workers w = worker := update_self _ _ _

lemma setWorker_of_ne (s : State jobs T) {w w' : Fin jobs} (worker : Worker) (h : w' ≠ w) :
    (s.setWorker w worker).workers w' = s.workers w' := update_of_ne h _ _

/-- The worker that acted has its new phase, and the others have theirs. -/
lemma setWorker_eq {w w' : Fin jobs} {worker worker' : Worker}
    (h : (s.setWorker w worker).workers w' = worker') :
    w' = w ∧ worker = worker' ∨ w' ≠ w ∧ s.workers w' = worker' := by
  by_cases hw : w' = w
  · subst hw
    rw [setWorker_self] at h
    exact .inl ⟨rfl, h⟩
  · rw [setWorker_of_ne s worker hw] at h
    exact .inr ⟨hw, h⟩

lemma Custody.setWorker (h : Custody items yields s) {w : Fin jobs} {worker : Worker}
    (hworker : ∀ i, worker = .indexing i → i < s.st.next) :
    Custody items yields (s.setWorker w worker) := by
  refine ⟨fun {w' i} hw' => ?_, h.done, h.merging⟩
  obtain ⟨-, heq⟩ | ⟨-, hw'⟩ := setWorker_eq hw'
  · exact hworker i heq
  · exact h.indexing hw'

lemma Custody.moves (h : Custody items yields s) (hmove : Moves plan items yields s action s') :
    Custody items yields s' := by
  cases hmove with
  | stop w | sleep w | signal w | wakeWorker w => exact h.setWorker nofun
  | accept w hw hn hf =>
    have hadmitted : Custody items yields { s with st := { s.st with
        bytes := s.st.bytes + plan.charge s.st.next
        next := s.st.next + 1 } } :=
      ⟨fun hw => Nat.lt_succ_of_lt (h.indexing hw),
        fun hd => ⟨Nat.lt_succ_of_lt (h.done hd).1, (h.done hd).2⟩, h.merging⟩
    refine hadmitted.setWorker fun i hi => ?_
    cases hi
    exact Nat.lt_succ_self _
  | park w i unit hw hu =>
    have hparked : Custody items yields { s with st := { s.st with
        done := update s.st.done i (some unit) } } := by
      refine ⟨h.indexing, fun {j other} hj => ?_, h.merging⟩
      dsimp only at hj
      by_cases hji : j = i
      · subst hji
        rw [update_self] at hj
        cases hj
        exact ⟨h.indexing hw, hu⟩
      · rw [update_of_ne hji] at hj
        exact h.done hj
    exact hparked.setWorker nofun
  | rouse w i hw hm =>
    have hready : Custody items yields (s.setWorker w .ready) := h.setWorker nofun
    exact ⟨hready.indexing, hready.done, nofun⟩
  | take i unit hm hd =>
    refine ⟨h.indexing, fun {j other} hj => ?_, fun {j other} hj => ?_⟩
    · dsimp only at hj
      by_cases hji : j = i
      · subst hji
        rw [update_self] at hj
        cases hj
      · rw [update_of_ne hji] at hj
        exact h.done hj
    · cases hj
      exact (h.done hd).2
  | wait i | merge i unit | release i | wakeMerger i => exact ⟨h.indexing, h.done, nofun⟩
  | notify i hm =>
    refine ⟨fun {w j} hw => ?_, h.done, fun {j unit} hj => ?_⟩
    · dsimp only at hw
      split at hw
      · cases hw
      · exact h.indexing hw
    · dsimp only [Merger.turn] at hj
      split at hj <;> cases hj

/-- The counters agree with each other and keep to the bounds. -/
structure Accounts (plan : Plan) (s : State jobs T) : Prop where
  merged_le : s.st.merged ≤ s.st.next
  next_le : s.st.next ≤ plan.charges.length
  bytes_eq : s.st.bytes = ∑ i ∈ Finset.Ico s.st.merged s.st.next, plan.charge i
  bytes_le : s.st.bytes ≤ plan.budget
  window_le : s.st.next - s.st.merged ≤ plan.window
  position : s.merger.Position plan s.st.next s.st.merged s.log.length

section
variable (h : Accounts plan s)
include h

lemma Accounts.setWorker (w : Fin jobs) (worker : Worker) : Accounts plan (s.setWorker w worker) :=
  ⟨h.merged_le, h.next_le, h.bytes_eq, h.bytes_le, h.window_le, h.position⟩

/-- The merge goes on while the counters stay. -/
lemma Accounts.setMerger {merger : Merger T}
    (hm : merger.Position plan s.st.next s.st.merged s.log.length) :
    Accounts plan { s with merger := merger } :=
  ⟨h.merged_le, h.next_le, h.bytes_eq, h.bytes_le, h.window_le, hm⟩

lemma Accounts.moves (hc : Custody items yields s) (hmove : Moves plan items yields s action s') :
    Accounts plan s' := by
  have hposition := h.position
  cases hmove with
  | stop w | sleep w | signal w | wakeWorker w => exact h.setWorker w _
  | park w i unit hw hu =>
    exact ⟨h.merged_le, h.next_le, h.bytes_eq, h.bytes_le, h.window_le, hposition⟩
  | accept w hw hn hf =>
    obtain ⟨hwindow, hb⟩ := not_or.mp hf
    have hle := h.merged_le
    have hbudget := h.bytes_le
    have hadmitted : Accounts plan { s with st := { s.st with
        bytes := s.st.bytes + plan.charge s.st.next
        next := s.st.next + 1 } } := by
      refine ⟨by dsimp only; omega, hn, ?_, by dsimp only; omega, by dsimp only; omega, ?_⟩
      · rw [Finset.sum_Ico_succ_top hle, h.bytes_eq]
      cases hm : s.merger with
      | merging i unit | holding i =>
        rw [hm] at hposition
        exact ⟨hposition.1, Nat.lt_succ_of_lt hposition.2.1, hposition.2.2⟩
      | wanting i | asleep i | moved i | finished =>
        rw [hm] at hposition
        exact hposition
    exact hadmitted.setWorker w _
  | rouse w i hw hm =>
    rw [hm] at hposition
    exact (h.setWorker w .ready).setMerger hposition
  | wait i hm | wakeMerger i hm =>
    rw [hm] at hposition
    exact h.setMerger hposition
  | take i unit hm hd =>
    rw [hm] at hposition
    refine ⟨h.merged_le, h.next_le, h.bytes_eq, h.bytes_le, h.window_le, ?_⟩
    exact ⟨hposition.1, (hc.done hd).1, hposition.2.2⟩
  | merge i unit hm =>
    rw [hm] at hposition
    refine ⟨h.merged_le, h.next_le, h.bytes_eq, h.bytes_le, h.window_le, hposition.1, hposition.2.1,
      ?_⟩
    rw [List.length_append, List.length_singleton, hposition.2.2]
  | release i hm =>
    rw [hm] at hposition
    obtain ⟨rfl, hlt, hlog⟩ := hposition
    have hwindow := h.window_le
    have hsum : s.st.bytes - plan.charge s.st.merged =
        ∑ i ∈ Finset.Ico (s.st.merged + 1) s.st.next, plan.charge i := by
      rw [h.bytes_eq, Finset.sum_eq_sum_Ico_succ_bot hlt, Nat.add_sub_cancel_left]
    refine ⟨hlt, h.next_le, hsum, (Nat.sub_le _ _).trans h.bytes_le, ?_, rfl, hlog⟩
    dsimp only
    omega
  | notify i hm =>
    rw [hm] at hposition
    obtain ⟨hmerged, hlog⟩ := hposition
    refine ⟨h.merged_le, h.next_le, h.bytes_eq, h.bytes_le, h.window_le, ?_⟩
    dsimp [Merger.turn]
    split
    · exact ⟨hmerged, ‹_›, hlog⟩
    · have hle := h.merged_le.trans h.next_le
      exact ⟨by omega, hlog⟩

end

/-- The units are merged in order, and one that is admitted is with a worker, parked, or with the
merge. -/
structure Kept (items : List I) (yields : I → T → Prop) (s : State jobs T) : Prop where
  log : List.Forall₂ yields (items.take s.log.length) s.log
  held : ∀ {i}, s.st.merged ≤ i → i < s.st.next → (∃ w, s.workers w = .indexing i) ∨
    (s.st.done i).isSome = true ∨ (∃ unit, s.merger = .merging i unit) ∨ s.merger = .holding i

variable (h : Kept items yields s)
include h

lemma Kept.setWorker {w : Fin jobs} {worker : Worker} (hw : ∀ i, s.workers w ≠ .indexing i) :
    Kept items yields (s.setWorker w worker) := by
  refine ⟨h.log, fun {i} hle hlt => ?_⟩
  refine (h.held hle hlt).imp_left fun ⟨w', hw'⟩ => ⟨w', ?_⟩
  have hne : w' ≠ w := by
    rintro rfl
    exact hw i hw'
  rw [setWorker_of_ne s worker hne]
  exact hw'

section
variable (hmerging : ∀ i unit, s.merger ≠ .merging i unit)
include hmerging

variable (hholding : ∀ i, s.merger ≠ .holding i)
include hholding

/-- While the merge has no unit, those admitted lie with a worker or parked. -/
lemma Kept.held_apart {i : ℕ} (hle : s.st.merged ≤ i) (hlt : i < s.st.next) :
    (∃ w, s.workers w = .indexing i) ∨ (s.st.done i).isSome = true := by
  obtain hw | hp | ⟨unit, hu⟩ | hh := h.held hle hlt
  · exact .inl hw
  · exact .inr hp
  · exact absurd hu (hmerging i unit)
  · exact absurd hh (hholding i)

lemma Kept.setMerger {merger : Merger T} : Kept items yields { s with merger := merger } :=
  ⟨h.log, fun hle hlt => (h.held_apart hmerging hholding hle hlt).imp_right .inl⟩

end

lemma Kept.moves (hc : Custody items yields s) (ha : Accounts plan s)
    (hmove : Moves plan items yields s action s') : Kept items yields s' := by
  have hposition := ha.position
  cases hmove with
  | stop w hw | sleep w hw hn | signal w hw | wakeWorker w hw =>
    exact h.setWorker fun i => by rw [hw]; exact nofun
  | accept w hw hn hf =>
    refine ⟨h.log, fun {i} hle hlt => ?_⟩
    by_cases hi : i = s.st.next
    · subst hi
      exact .inl ⟨w, setWorker_self _ _ _⟩
    have hlt' : i < s.st.next := lt_of_le_of_ne (Nat.lt_succ_iff.mp hlt) hi
    refine (h.held hle hlt').imp_left fun ⟨w', hw'⟩ => ⟨w', ?_⟩
    have hne : w' ≠ w := by
      rintro rfl
      exact absurd (hw.symm.trans hw') nofun
    rw [setWorker_of_ne _ _ hne]
    exact hw'
  | park w i unit hw hu =>
    refine ⟨h.log, fun {j} hle hlt => ?_⟩
    by_cases hj : j = i
    · subst hj
      refine .inr (.inl ?_)
      dsimp [State.setWorker]
      rw [update_self]
      rfl
    obtain ⟨w', hw'⟩ | hd | hm := h.held hle hlt
    · have hne : w' ≠ w := by
        rintro rfl
        exact hj (Worker.indexing.inj (hw'.symm.trans hw))
      refine .inl ⟨w', ?_⟩
      rw [setWorker_of_ne _ _ hne]
      exact hw'
    · refine .inr (.inl ?_)
      dsimp [State.setWorker]
      rw [update_of_ne hj]
      exact hd
    · exact .inr (.inr hm)
  | rouse w i hw hm =>
    have hready : Kept items yields (s.setWorker w .ready) :=
      h.setWorker fun i => by rw [hw]; exact nofun
    exact hready.setMerger (fun _ _ => hm.trans_ne nofun) fun _ => hm.trans_ne nofun
  | take i unit hm hd =>
    refine ⟨h.log, fun {j} hle hlt => ?_⟩
    by_cases hj : j = i
    · subst hj
      exact .inr (.inr (.inl ⟨unit, rfl⟩))
    refine (h.held_apart (fun _ _ => hm.trans_ne nofun) (fun _ => hm.trans_ne nofun) hle
      hlt).imp_right fun hp => .inl ?_
    dsimp only
    rw [update_of_ne hj]
    exact hp
  | wait i hm hd | wakeMerger i hm =>
    exact h.setMerger (fun _ _ => hm.trans_ne nofun) fun _ => hm.trans_ne nofun
  | merge i unit hm =>
    rw [hm] at hposition
    obtain ⟨rfl, -, hlog⟩ := hposition
    obtain ⟨item, hitem, hy⟩ := hc.merging hm
    refine ⟨?_, fun {j} hle hlt => ?_⟩
    · rw [List.length_append, List.length_singleton, List.take_add_one, hlog, hitem]
      exact List.rel_append (hlog ▸ h.log) (.cons hy .nil)
    obtain hw | hp | ⟨other, ho⟩ | hh := h.held hle hlt
    · exact .inl hw
    · exact .inr (.inl hp)
    · obtain ⟨rfl, -⟩ := Merger.merging.inj (hm.symm.trans ho)
      exact .inr (.inr (.inr rfl))
    · exact absurd (hm.symm.trans hh) nofun
  | release i hm =>
    rw [hm] at hposition
    obtain ⟨rfl, -, -⟩ := hposition
    refine ⟨h.log, fun {j} hle hlt => ?_⟩
    obtain hw | hp | ⟨other, ho⟩ | hh := h.held (Nat.le_of_succ_le hle) hlt
    · exact .inl hw
    · exact .inr (.inl hp)
    · exact absurd (hm.symm.trans ho) nofun
    · obtain rfl := Merger.holding.inj (hm.symm.trans hh)
      exact absurd hle (Nat.not_succ_le_self _)
  | notify i hm =>
    refine ⟨h.log, fun {j} hle hlt => ?_⟩
    refine (h.held_apart (fun _ _ => hm.trans_ne nofun) (fun _ => hm.trans_ne nofun) hle
      hlt).imp (fun ⟨w, hw⟩ => ⟨w, ?_⟩) .inl
    dsimp only
    rw [hw, if_neg nofun]

end State

end Pathologist.Index

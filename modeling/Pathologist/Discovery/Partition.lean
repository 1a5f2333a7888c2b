import Pathologist.Discovery.System

/-!
# Every unit is in one place

Along every pass each unit is committed, finished, queued again, failed, run by
one worker, run by the committing thread, or not handed out yet, and in only one
of these. A discard may move several units at once, but only units behind the one
whose run caused it, so the unit being committed stays where it is.
-/
open List Function
namespace Pathologist.Discovery
open Board Committer
variable {S J C R : Type*} {jobs : ℕ}

namespace Board
variable (ops : JournalOps J C) (cache : C) {b b' b'' : Board S J} (unit : ℕ)

/-- `b'` is `b` after the finished runs of the units in `D` were discarded and
their units queued again. -/
structure Discards (b b' : Board S J) (D : Set ℕ) : Prop where
  gone : ∀ u ∈ D, b'.finished u = none
  kept : ∀ u ∉ D, b'.finished u = b.finished u
  was : ∀ u ∈ D, (b.finished u).isSome
  requeued : ∀ u, u ∈ b'.requeued ↔ u ∈ b.requeued ∨ u ∈ D
  n : b'.n = b.n
  next : b'.next = b.next
  failed : b'.failed = b.failed
  committed : b'.committed = b.committed
  committedRuns : b'.committedRuns = b.committedRuns
  nextRun : b'.nextRun = b.nextRun

variable {u : ℕ}

lemma Discards.finished_of {D : Set ℕ} (h : Discards b b' D) {f} (hf : b'.finished u = some f) :
    b.finished u = some f := by
  by_cases hu : u ∈ D
  · rw [h.gone u hu] at hf
    cases hf
  · rwa [h.kept u hu] at hf

lemma Discards.isSome_iff {D : Set ℕ} (h : Discards b b' D) :
    (b'.finished u).isSome ↔ (b.finished u).isSome ∧ u ∉ D := by
  by_cases hu : u ∈ D
  · simp [h.gone u hu, hu]
  · simp [h.kept u hu, hu]

lemma Discards.refl (b : Board S J) : Discards b b ∅ where
  gone := by simp
  kept := by simp
  was := by simp
  requeued := by simp
  n := rfl
  next := rfl
  failed := rfl
  committed := rfl
  committedRuns := rfl
  nextRun := rfl

lemma Discards.trans {D E : Set ℕ} (h : Discards b b' D) (h' : Discards b' b'' E) :
    Discards b b'' (D ∪ E) where
  gone u hu := by
    by_cases hE : u ∈ E
    · exact h'.gone u hE
    · rw [h'.kept u hE]
      exact h.gone u (hu.resolve_right hE)
  kept u hu := by
    rw [h'.kept u (fun hE => hu (.inr hE)), h.kept u (fun hD => hu (.inl hD))]
  was u hu := by
    by_cases hD : u ∈ D
    · exact h.was u hD
    · rw [← h.kept u hD]
      exact h'.was u (hu.resolve_left hD)
  requeued u := by rw [h'.requeued u, h.requeued u, Set.mem_union, or_assoc]
  n := h'.n.trans h.n
  next := h'.next.trans h.next
  failed := h'.failed.trans h.failed
  committed := h'.committed.trans h.committed
  committedRuns := h'.committedRuns.trans h.committedRuns
  nextRun := h'.nextRun.trans h.nextRun

/-- Queueing a unit again changes nothing but the queue and its guesses. -/
lemma requeue_frame (journal : Option J) :
    (requeue ops cache b unit journal).finished = b.finished ∧
      (requeue ops cache b unit journal).requeued = insert unit b.requeued ∧
      (requeue ops cache b unit journal).n = b.n ∧
      (requeue ops cache b unit journal).next = b.next ∧
      (requeue ops cache b unit journal).failed = b.failed ∧
      (requeue ops cache b unit journal).committed = b.committed ∧
      (requeue ops cache b unit journal).committedRuns = b.committedRuns ∧
      (requeue ops cache b unit journal).nextRun = b.nextRun := by
  cases journal <;> exact ⟨rfl, rfl, rfl, rfl, rfl, rfl, rfl, rfl⟩

/-- One pop of the discard loop that finds a finished run. -/
lemma discards_one {run} (h : b.finished u = some run) : Discards b (requeue ops cache
      { b with finished := update b.finished u none } u run.journal) {u} := by
  obtain ⟨h1, h2, h3, h4, h5, h6, h7, h8⟩ :=
    requeue_frame ops cache (b := { b with finished := update b.finished u none }) u run.journal
  refine ⟨?_, ?_, ?_, ?_, h3, h4, h5, h6, h7, h8⟩
  · simp [h1]
  · intro v (hne : v ≠ u)
    simp [h1, hne]
  · rintro v rfl
    simp [h]
  · simp [h2, or_comm]

lemma lt_of_mem_behind {unit : ℕ} {p : J → Bool} (h : u ∈ b.behind unit p) : unit < u := by
  have := (mem_filter.mp h).1
  rw [mem_range'_1] at this
  omega

lemma lt_of_mem_fedBy {unit : ℕ} {journal : Option J} (h : u ∈ fedBy ops b unit journal) :
    unit < u := by
  cases journal with
  | none => simp [fedBy] at h
  | some j => exact lt_of_mem_behind h

/-- The discard loop discards finished runs at or behind those it was given. -/
lemma discardLoop_discards (fuel : ℕ) (queue : List ℕ) (b : Board S J) :
    ∃ D, Discards b (discardLoop ops cache fuel queue b) D ∧ ∀ u ∈ D, ∃ q ∈ queue, q ≤ u := by
  induction fuel generalizing queue b with
  | zero => exact ⟨∅, Discards.refl b, by simp⟩
  | succ fuel ih =>
    cases queue with
    | nil => exact ⟨∅, Discards.refl b, by simp⟩
    | cons v queue =>
      unfold discardLoop
      cases hv : b.finished v with
      | none =>
        obtain ⟨D, hD, hle⟩ := ih queue b
        refine ⟨D, hD, ?_⟩
        intro u hu
        obtain ⟨q, hq, hqu⟩ := hle u hu
        exact ⟨q, mem_cons_of_mem _ hq, hqu⟩
      | some run =>
        obtain ⟨D, hD, hle⟩ := ih _ (requeue ops cache
          { b with finished := update b.finished v none } v run.journal)
        refine ⟨{v} ∪ D, (discards_one ops cache hv).trans hD, ?_⟩
        intro u hu
        rcases hu with hu | hu
        · exact ⟨v, mem_cons_self, le_of_eq (Eq.symm hu)⟩
        obtain ⟨q, hq, hqu⟩ := hle u hu
        rcases mem_append.mp hq with hq | hq
        · have := lt_of_mem_fedBy ops (mem_reverse.mp hq)
          exact ⟨v, mem_cons_self, by omega⟩
        · exact ⟨q, mem_cons_of_mem _ hq, hqu⟩

lemma discard_discards (b : Board S J) :
    ∃ D, Discards b (discard ops cache b unit) D ∧ ∀ u ∈ D, unit ≤ u := by
  obtain ⟨D, hD, hle⟩ := discardLoop_discards ops cache (b.n * (b.n + 1) + 2) [unit] b
  refine ⟨D, hD, ?_⟩
  intro u hu
  obtain ⟨q, hq, hqu⟩ := hle u hu
  obtain rfl : q = unit := by simpa using hq
  exact hqu

lemma discard_finished_self (b : Board S J) : (discard ops cache b unit).finished unit = none := by
  unfold discard discardLoop
  cases hv : b.finished unit with
  | none =>
    obtain ⟨D, hD, hle⟩ := discardLoop_discards ops cache (b.n * (b.n + 1) + 1) [] b
    have : unit ∉ D := fun hu => by simpa using hle unit hu
    rw [hD.kept unit this, hv]
  | some run =>
    obtain ⟨D, hD, -⟩ := discardLoop_discards ops cache (b.n * (b.n + 1) + 1) _ (requeue ops cache
        { b with finished := update b.finished unit none } unit run.journal)
    exact ((discards_one ops cache hv).trans hD).gone unit (.inl rfl)

lemma discardBehind_discards (journal : J) (b : Board S J) :
    ∃ D, Discards b (discardBehind ops cache b unit journal) D ∧ ∀ u ∈ D, unit < u := by
  unfold discardBehind
  have hlt : ∀ u ∈ b.behind unit (ops.rulesOut journal), unit < u := fun u => lt_of_mem_behind
  generalize b.behind unit (ops.rulesOut journal) = units at hlt
  induction units generalizing b with
  | nil => exact ⟨∅, Discards.refl b, by simp⟩
  | cons v units ih =>
    obtain ⟨D, hD, hle⟩ := discard_discards ops cache v b
    obtain ⟨E, hE, hgt⟩ := ih (discard ops cache b v) (fun u hu => hlt u (mem_cons_of_mem _ hu))
    refine ⟨D ∪ E, hD.trans hE, ?_⟩
    intro u hu
    rcases hu with hu | hu
    · have := hlt v mem_cons_self
      have := hle u hu
      omega
    · exact hgt u hu

/-- What `finish` does to a unit that is not committed: it is queued again, or
its run joins the finished ones and some finished runs behind it are discarded. -/
lemma finish_cases (run : Run S J) (contradicted : Bool) (hu : ¬ run.unit < b.committed) :
    (b.finish ops cache run contradicted = requeue ops cache b run.unit run.journal) ∨
      ∃ b' D, Discards b b' D ∧ (∀ u ∈ D, run.unit < u) ∧
        b.finish ops cache run contradicted = { b'.unblock run.unit with
          finished := update b'.finished run.unit (some ⟨run.id, some run.src, run.journal⟩) } := by
  unfold finish
  rw [if_neg hu]
  split
  · exact .inl rfl
  right
  cases hj : run.journal with
  | none => exact ⟨b, ∅, Discards.refl b, by simp, rfl⟩
  | some j =>
    obtain ⟨D, hD, hlt⟩ := discardBehind_discards ops cache run.unit j b
    exact ⟨_, D, hD, hlt, rfl⟩

/-- What recording a commit does besides moving the commit point. -/
lemma commit_cases (run : Option ℕ) (own : Option J) (b : Board S J) :
    ∃ b' D, Discards b b' D ∧ (∀ u ∈ D, unit < u) ∧
      (b' = b ∨ ∃ j, b' = discardBehind ops cache b unit j) ∧
      b.commit ops cache unit run own = { b' with
        committed := unit + 1
        committedRuns := update b'.committedRuns unit run
        finished := update b'.finished unit none
        discarded := update b'.discarded unit none
        blockers := update b'.blockers unit none }.unblock unit := by
  cases own with
  | none => exact ⟨b, ∅, Discards.refl b, by simp, .inl rfl, rfl⟩
  | some j =>
    obtain ⟨D, hD, hlt⟩ := discardBehind_discards ops cache unit j b
    exact ⟨_, D, hD, hlt, .inr ⟨j, rfl⟩, rfl⟩

lemma takeOver_frame (b : Board S J) (unit : ℕ) :
    (b.takeOver unit).n = b.n ∧ (b.takeOver unit).finished = b.finished ∧
      (b.takeOver unit).committedRuns = b.committedRuns ∧
      (b.takeOver unit).committed = b.committed ∧ (b.takeOver unit).nextRun = b.nextRun := by
  unfold takeOver
  split
  · exact ⟨rfl, rfl, rfl, rfl, rfl⟩
  · split <;> exact ⟨rfl, rfl, rfl, rfl, rfl⟩

lemma claim_cases {unit id : ℕ} {shown} (h : b.claim = some ((unit, id, shown), b')) :
    (unit ∈ b.requeued ∧ id = b.nextRun + 1 ∧ shown = b.shownTo unit ∧
        b' = { b with requeued := b.requeued.erase unit, nextRun := b.nextRun + 1 }) ∨
      (unit = b.next ∧ b.next < b.n ∧ id = b.nextRun + 1 ∧ shown = b.shownTo unit ∧
        b' = { b with next := b.next + 1, nextRun := b.nextRun + 1 }) := by
  unfold claim at h
  cases hq : b.queued with
  | some u =>
    simp only [hq, Option.some.injEq, Prod.mk.injEq] at h
    obtain ⟨⟨rfl, rfl, rfl⟩, rfl⟩ := h
    have hmem := find?_some hq
    simp only [Bool.and_eq_true, decide_eq_true_eq] at hmem
    exact .inl ⟨hmem.1, rfl, rfl, rfl⟩
  | none =>
    simp only [hq] at h
    split at h
    · rename_i hn
      obtain ⟨⟨rfl, rfl, rfl⟩, rfl⟩ := h
      exact .inr ⟨rfl, hn.1, rfl, rfl, rfl⟩
    · simp at h

end Board

/-- Where a unit can be. -/
inductive Place (jobs : ℕ)
  | committed
  | finished
  | requeued
  | failed
  /-- Run by this worker. -/
  | worker (i : Fin jobs)
  /-- Run by the committing thread. -/
  | committer
  | unhanded

namespace System

def InPlace (s : System S J C R jobs) (u : ℕ) : Place jobs → Prop
  | .committed => u < s.board.committed
  | .finished => (s.board.finished u).isSome
  | .requeued => u ∈ s.board.requeued
  | .failed => u ∈ s.board.failed
  | .worker i => (s.workers i).unit? = some u
  | .committer => s.committer.ownUnit? = some u
  | .unhanded => s.board.next ≤ u

variable {s s' : System S J C R jobs}

/-- A unit that moves from one place to another stays in one place. -/
lemma existsUnique_of_move {u : ℕ} {p q : Place jobs} (h : ∃! r, s.InPlace u r) (hp : s.InPlace u p)
    (hm : ∀ r, s'.InPlace u r ↔ r = q ∨ (s.InPlace u r ∧ r ≠ p)) : ∃! r, s'.InPlace u r := by
  refine ⟨q, (hm q).mpr (.inl rfl), ?_⟩
  intro r hr
  rcases (hm r).mp hr with hrq | ⟨hold, hne⟩
  · exact hrq
  · exact absurd (h.unique hold hp) hne

lemma existsUnique_of_same {u : ℕ} (h : ∃! r, s.InPlace u r)
    (hs : ∀ r, s'.InPlace u r ↔ s.InPlace u r) : ∃! r, s'.InPlace u r := by
  simpa only [hs] using h

/-- The unit `u` moves from one place to another while the finished runs of the units in `D` are
discarded. -/
lemma existsUnique_of_moves {u : ℕ} {p q : Place jobs} {D : Set ℕ} (h : ∀ v, ∃! r, s.InPlace v r)
    (hp : s.InPlace u p) (hu : u ∉ D) (hwas : ∀ v ∈ D, s.InPlace v .finished)
    (hm : ∀ v r, s'.InPlace v r ↔ (v = u ∧ r = q) ∨ (v ∈ D ∧ r = .requeued) ∨
      (s.InPlace v r ∧ ¬ (v = u ∧ r = p) ∧ ¬ (v ∈ D ∧ r = .finished))) (v : ℕ) :
    ∃! r, s'.InPlace v r := by
  by_cases hv : v = u
  · subst hv
    refine existsUnique_of_move (p := p) (q := q) (h v) hp fun r => ?_
    simp [hm, hu]
  by_cases hvD : v ∈ D
  · refine existsUnique_of_move (p := .finished) (q := .requeued) (h v) (hwas v hvD) fun r => ?_
    simp [hm, hv, hvD]
  · refine existsUnique_of_same (h v) fun r => ?_
    simp [hm, hv, hvD]

@[simp] lemma withWorker_board (i : Fin jobs) (w : Worker S J R) :
    (s.withWorker i w).board = s.board := rfl

@[simp] lemma withWorker_committer (i : Fin jobs) (w : Worker S J R) :
    (s.withWorker i w).committer = s.committer := rfl

lemma withWorker_workers (i j : Fin jobs) (w : Worker S J R) :
    (s.withWorker i w).workers j = if j = i then w else s.workers j := by
  simp [withWorker, update_apply]

end System

/-- The unit and the run whose source the committing thread took from the board
and has not recorded yet. -/
def Committer.held? : Committer S J R → Option (ℕ × ℕ)
  | .taken unit run _ _ | .recording unit (some run) _ => some (unit, run)
  | _ => none

lemma held?_unit {c : Committer S J R} {u r : ℕ} (h : c.held? = some (u, r)) : u = c.unit := by
  cases c with
  | taken => simpa [Committer.unit, eq_comm] using (Prod.mk.inj (Option.some.inj h)).1
  | recording unit run own =>
    cases run with
    | none => simp [held?] at h
    | some run => exact (Prod.mk.inj (Option.some.inj h)).1.symm
  | waiting | running | panicked => simp [held?] at h

namespace System
variable {s s' : System S J C R jobs} {n : ℕ}

/-- What every step of a pass keeps. -/
structure Inv (n : ℕ) (s : System S J C R jobs) : Prop where
  one : ∀ u, ∃! p, s.InPlace u p
  units : s.board.n = n
  point : s.board.committed = s.committer.unit
  next_le : s.board.next ≤ n
  point_le : s.committer.unit ≤ n
  active : (∀ u, s.committer ≠ .waiting u) → s.committer.unit < n
  /-- The run it took is still among the finished, without its source. -/
  held : ∀ u r, s.committer.held? = some (u, r) →
    ∃ f, s.board.finished u = some f ∧ f.run = r ∧ f.src = none

/-- Away from its loop the committing thread is at a unit of the pass. -/
lemma Inv.unit_lt {c} (h : Inv n s) (hc : s.committer = c) (hne : ∀ u, c ≠ .waiting u) :
    c.unit < n := by
  subst hc
  exact h.active hne

lemma Inv.not_other {u : ℕ} {p q : Place jobs} (h : Inv n s) (hp : s.InPlace u p) (hne : q ≠ p) :
    ¬ s.InPlace u q := fun hq => hne ((h.one u).unique hq hp)

lemma inv_init (window : ℕ) (cache : C) : Inv n (init n window cache : System S J C R jobs) where
  one u := by
    refine ⟨.unhanded, Nat.zero_le u, ?_⟩
    intro p hp
    cases p <;> simp [InPlace, init, Board.init] at hp ⊢
  units := rfl
  point := rfl
  next_le := Nat.zero_le n
  point_le := Nat.zero_le n
  active h := absurd rfl (h 0)
  held _ _ := nofun

lemma Inv.of_same (h : Inv n s) (hn : s'.board.n = s.board.n)
    (hc : s'.board.committed = s.board.committed) (hnext : s'.board.next = s.board.next)
    (hf : ∀ u, (s'.board.finished u).isSome = (s.board.finished u).isSome)
    (hr : s'.board.requeued = s.board.requeued) (hfailed : s'.board.failed = s.board.failed)
    (hw : ∀ i, (s'.workers i).unit? = (s.workers i).unit?)
    (hown : s'.committer.ownUnit? = s.committer.ownUnit?)
    (hu : s'.committer.unit = s.committer.unit)
    (ha : (∀ u, s'.committer ≠ .waiting u) → s'.committer.unit < n)
    (hh : ∀ u r, s'.committer.held? = some (u, r) →
      ∃ f, s'.board.finished u = some f ∧ f.run = r ∧ f.src = none) : Inv n s' where
  one u := by
    refine existsUnique_of_same (h.one u) ?_
    intro p
    cases p <;> simp [InPlace, hc, hnext, hf, hr, hfailed, hw, hown]
  units := hn.trans h.units
  point := by rw [hc, hu, h.point]
  next_le := by rw [hnext]; exact h.next_le
  point_le := by rw [hu]; exact h.point_le
  active := ha
  held := hh

variable {i : Fin jobs}

lemma Inv.of_worker (h : Inv n s) {w} (hw : w.unit? = (s.workers i).unit?) :
    Inv n (s.withWorker i w) := by
  refine h.of_same rfl rfl rfl (fun _ => rfl) rfl rfl ?_ rfl rfl h.active h.held
  intro j
  by_cases hji : j = i <;> simp [withWorker_workers, hji, hw]

variable {unit : ℕ}

/-- A step of the committing thread inside `run_here`. -/
lemma Inv.of_running {r : R} {c} (h : Inv n s) (hrun : s.committer = .running unit r)
    (hc : s'.committer = c) (hb : s'.board = s.board)
    (hwait : c.ownUnit? = some unit ∧ c.held? = none ∧ c.unit = unit)
    (hw : s'.workers = s.workers) : Inv n s' := by
  obtain ⟨hown, hh, hu⟩ := hwait
  refine h.of_same (by rw [hb]) (by rw [hb]) (by rw [hb]) (by simp [hb])
    (by rw [hb]) (by rw [hb]) (by simp [hw]) ?_ ?_ ?_ ?_
  · rw [hc, hown, hrun]
    rfl
  · rw [hc, hu, hrun]
    rfl
  · rw [hc, hu]
    exact fun _ => h.unit_lt hrun (by simp)
  · rw [hc, hh]
    exact nofun

lemma inv_claim {id : ℕ} {shown} {b : Board S J} {w history} (h : Inv n s)
    (hidle : s.workers i = .idle) (hc : s.board.claim = some ((unit, id, shown), b))
    (hw : w.unit? = some unit) :
    Inv n { s.withWorker i w with board := b, history := history } := by
  have hworkers : ∀ u j, ((s.withWorker i w).workers j).unit? = some u ↔
      (j = i ∧ u = unit) ∨ (s.workers j).unit? = some u := by
    intro u j
    by_cases hji : j = i <;> simp [withWorker_workers, hji, hw, hidle, eq_comm]
  rcases claim_cases hc with ⟨hmem, -, -, rfl⟩ | ⟨rfl, hlt, -, -, rfl⟩
  · refine ⟨?_, h.units, h.point, h.next_le, h.point_le, h.active, h.held⟩
    refine existsUnique_of_moves (p := .requeued) (q := .worker i) (D := ∅) h.one hmem (by simp)
      (by simp) fun v r => ?_
    cases r with
    | worker j => simp [InPlace, hworkers, and_comm]
    | requeued => simp [InPlace, and_comm]
    | committed | finished | failed | committer | unhanded => simp [InPlace]
  refine ⟨?_, h.units, h.point, ?_, h.point_le, h.active, h.held⟩
  · refine existsUnique_of_moves (p := .unhanded) (q := .worker i) (D := ∅) h.one (le_refl _)
      (by simp) (by simp) fun v r => ?_
    cases r with
    | worker j => simp [InPlace, hworkers, and_comm]
    | unhanded =>
      simp [InPlace]
      omega
    | requeued | committed | finished | failed | committer => simp [InPlace]
  · have := h.units
    simp only
    omega

/-- A worker hands its unit back to place `q` of the board, while the finished
runs of the units in `D` are discarded. -/
lemma Inv.handBack {u : ℕ} {q : Place jobs} {D : Set ℕ} {b : Board S J} (h : Inv n s)
    (hi : (s.workers i).unit? = some u) (hq : q = .finished ∨ q = .requeued ∨ q = .failed)
    (hn : b.n = s.board.n) (hc : b.committed = s.board.committed) (hnext : b.next = s.board.next)
    (hwas : ∀ v ∈ D, (s.board.finished v).isSome) (hb : ∀ v ∈ D, u < v)
    (hfinished : ∀ v, (b.finished v).isSome ↔
      (v = u ∧ .finished = q) ∨ ((s.board.finished v).isSome ∧ v ∉ D))
    (hr : ∀ v, v ∈ b.requeued ↔ (v = u ∧ .requeued = q) ∨ v ∈ D ∨ v ∈ s.board.requeued)
    (hfailed : ∀ v, v ∈ b.failed ↔ (v = u ∧ .failed = q) ∨ v ∈ s.board.failed)
    (hk : ∀ v ∉ D, v ≠ u → b.finished v = s.board.finished v) :
    Inv n { s.withWorker i .idle with board := b } := by
  have hworker : s.InPlace u (.worker i) := hi
  have hworkers : ∀ v j, ((s.withWorker i .idle).workers j).unit? = some v ↔
      (s.workers j).unit? = some v ∧ ¬ (v = u ∧ j = i) := by
    intro v j
    by_cases hji : j = i <;> simp [withWorker_workers, hji, hi, eq_comm]
  have huncommitted : s.board.committed ≤ u :=
    Nat.not_lt.mp (h.not_other hworker (q := .committed) (by simp))
  refine ⟨?_, hn.trans h.units, hc.trans h.point, hnext ▸ h.next_le, h.point_le,
    h.active, ?_⟩
  · refine existsUnique_of_moves (p := .worker i) (q := q) h.one hworker
      (fun hu => absurd (hb u hu) (lt_irrefl u)) hwas fun v r => ?_
    cases r with
    | worker j => rcases hq with rfl | rfl | rfl <;> simp [InPlace, hworkers]
    | finished => simp [InPlace, hfinished]
    | requeued => simp [InPlace, hr]
    | failed => simp [InPlace, hfailed]
    | committed => rcases hq with rfl | rfl | rfl <;> simp [InPlace, hc]
    | committer => rcases hq with rfl | rfl | rfl <;> simp [InPlace]
    | unhanded => rcases hq with rfl | rfl | rfl <;> simp [InPlace, hnext]
  intro v r hv
  obtain ⟨f, hf, hrun, hsrc⟩ := h.held v r hv
  have hvpoint : v = s.board.committed := h.point ▸ held?_unit hv
  have hvD : v ∉ D := fun hmem => absurd (hb v hmem) (by omega)
  have hvu : v ≠ u := by
    intro heq
    subst heq
    exact h.not_other hworker (q := .finished) (by simp) (by simp [InPlace, hf])
  exact ⟨f, by rw [← hf]; exact hk v hvD hvu, hrun, hsrc⟩

lemma inv_failed {u : ℕ} (h : Inv n s) (hi : (s.workers i).unit? = some u) :
    Inv n { s.withWorker i .idle with board := s.board.fail u } := by
  refine h.handBack (q := .failed) (D := ∅) hi (by simp) rfl rfl rfl (by simp) (by simp) ?_ ?_ ?_ ?_
  · simp [fail, unblock]
  · simp [fail, unblock]
  · simp [fail, unblock]
  · intro v _ _
    rfl

variable {ops : JournalOps J C} {cache : C}

lemma inv_finish {run : Run S J} {contradicted : Bool} (h : Inv n s)
    (hi : (s.workers i).unit? = some run.unit) : Inv n { s.withWorker i .idle with
      board := s.board.finish ops cache run contradicted } := by
  have hunit : ¬ run.unit < s.board.committed :=
    h.not_other (p := .worker i) (q := .committed) hi (by simp)
  rcases finish_cases ops cache run contradicted hunit with heq | ⟨b, D, hD, hlt, heq⟩
  · rw [heq]
    obtain ⟨h1, h2, h3, h4, h5, h6, -, -⟩ :=
      requeue_frame ops cache (b := s.board) run.unit run.journal
    refine h.handBack (q := .requeued) (D := ∅) hi (by simp) h3 h6 h4 (by simp)
      (by simp) ?_ ?_ ?_ ?_
    · simp [h1]
    · simp [h2]
    · simp [h5]
    · intro v _ _
      rw [h1]
  rw [heq]
  refine h.handBack (q := .finished) (D := D) hi (by simp) hD.n hD.committed hD.next hD.was hlt
    ?_ ?_ ?_ ?_
  · intro v
    by_cases hv : v = run.unit
    · simp [hv]
    · simp [hv, hD.isSome_iff]
  · intro v
    simpa [unblock, or_comm] using hD.requeued v
  · simp [unblock, hD.failed]
  · intro v hvD hvu
    simp [hvu, hD.kept v hvD]

lemma inv_takeOver {r : R} (h : Inv n s) (hw : s.committer = .waiting unit)
    (hlt : unit < s.board.n)
    (hfree : unit ∈ s.board.failed ∨ unit ∈ s.board.requeued ∨ s.board.next = unit) :
    Inv n { s with
      committer := .running unit r
      board := (s.board.takeOver unit).noteInOrder } := by
  have hpoint : s.board.committed = unit := by rw [h.point, hw]; rfl
  have hn := h.units
  -- the place the unit comes from, and what the board has of every unit afterwards
  obtain ⟨p, hp, hb⟩ : ∃ p : Place jobs, s.InPlace unit p ∧
      (∀ v, (s.board.takeOver unit).finished v = s.board.finished v) ∧
      (∀ v, v ∈ (s.board.takeOver unit).failed ↔ v ∈ s.board.failed ∧ ¬ (v = unit ∧ p = .failed)) ∧
      (∀ v, v ∈ (s.board.takeOver unit).requeued ↔
        v ∈ s.board.requeued ∧ ¬ (v = unit ∧ p = .requeued)) ∧
      (∀ v, (s.board.takeOver unit).next ≤ v ↔
        s.board.next ≤ v ∧ ¬ (v = unit ∧ p = .unhanded)) ∧ (s.board.takeOver unit).next ≤ n ∧
      (p = .failed ∨ p = .requeued ∨ p = .unhanded) := by
    by_cases hf : unit ∈ s.board.failed
    · have hhanded : ¬ s.board.next ≤ unit :=
        h.not_other (p := .failed) (q := .unhanded) hf (by simp)
      have hmax : max s.board.next (unit + 1) = s.board.next := by omega
      refine ⟨.failed, hf, ?_, ?_, ?_, ?_, ?_, .inl rfl⟩
      · simp [takeOver, hf]
      · simp [takeOver, hf, and_comm]
      · simp [takeOver, hf]
      · simp [takeOver, hf, hmax]
      · simpa [takeOver, hf, hmax] using h.next_le
    by_cases hr : unit ∈ s.board.requeued
    · have hhanded : ¬ s.board.next ≤ unit :=
        h.not_other (p := .requeued) (q := .unhanded) hr (by simp)
      have hmax : max s.board.next (unit + 1) = s.board.next := by omega
      refine ⟨.requeued, hr, ?_, ?_, ?_, ?_, ?_, .inr (.inl rfl)⟩
      · simp [takeOver, hf, hr]
      · simp [takeOver, hf, hr]
      · simp [takeOver, hf, hr, and_comm]
      · simp [takeOver, hf, hr, hmax]
      · simpa [takeOver, hf, hr, hmax] using h.next_le
    have hnext : s.board.next = unit := (hfree.resolve_left hf).resolve_left hr
    refine ⟨.unhanded, le_of_eq hnext, ?_, ?_, ?_, ?_, ?_, .inr (.inr rfl)⟩
    · simp [takeOver, hf, hr]
    · simp [takeOver, hf, hr]
    · simp [takeOver, hf, hr]
    · simp [takeOver, hf, hr, hnext]
      omega
    · simp [takeOver, hf, hr, hnext]
      omega
  obtain ⟨hfinished, hf, hr, hnext, hnextle, hplace⟩ := hb
  obtain ⟨hu, -, -, hc, -⟩ := s.board.takeOver_frame unit
  refine ⟨?_, hu.trans hn, ?_, hnextle, ?_, ?_, fun _ _ => nofun⟩
  · refine existsUnique_of_moves (q := .committer) (D := ∅) h.one hp (by simp) (by simp)
      fun v r => ?_
    rcases hplace with rfl | rfl | rfl <;>
    · cases r <;> simp [InPlace, noteInOrder, hfinished, hf, hr, hnext, hc,
          ownUnit?, hw, eq_comm (a := unit)]
  · simpa [noteInOrder, hc, Committer.unit] using hpoint
  · simp only [Committer.unit]
    omega
  · simp only [Committer.unit]
    omega

lemma inv_refused {run : ℕ} {src : S} {j : Option J} {r : R}
    (h : Inv n s) (ht : s.committer = .taken unit run src j) :
    Inv n { s with
      committer := .running unit r
      board := (let b := s.board.discard ops cache unit
        { b with requeued := b.requeued.erase unit }).noteInOrder } := by
  obtain ⟨D, hD, hle⟩ := discard_discards ops cache unit s.board
  have hself := discard_finished_self ops cache unit s.board
  obtain ⟨f, hf, -, -⟩ := h.held unit run (by rw [ht]; rfl)
  have hplace : s.InPlace unit .finished := by simp [InPlace, hf]
  have hactive : unit < n := h.unit_lt ht (by simp)
  refine ⟨?_, hD.n.trans h.units, ?_, ?_, le_of_lt hactive, fun _ => hactive, fun _ _ => nofun⟩
  · refine existsUnique_of_moves (p := .finished) (q := .committer) (D := D \ {unit}) h.one hplace
      (by simp) (fun v hv => hD.was v hv.1) fun v r' => ?_
    have hnot : unit ∉ s.board.requeued := h.not_other hplace (q := .requeued) (by simp)
    cases r' with
    | committed => simp [InPlace, noteInOrder, hD.committed]
    | finished =>
      by_cases hv : v = unit
      · simp [InPlace, noteInOrder, hv, hself]
      · simp [InPlace, noteInOrder, hD.isSome_iff, hv]
    | requeued =>
      by_cases hv : v = unit
      · simp [InPlace, noteInOrder, hv, hnot]
      · simp [InPlace, noteInOrder, hD.requeued, hv, or_comm]
    | failed => simp [InPlace, noteInOrder, hD.failed]
    | worker i => simp [InPlace]
    | committer => simp [InPlace, ownUnit?, ht, eq_comm]
    | unhanded => simp [InPlace, noteInOrder, hD.next]
  · have := h.point
    rw [ht] at this
    exact hD.committed.trans this
  · exact (le_of_eq hD.next).trans h.next_le

lemma inv_record {run : Option ℕ} {own : Option J}
    (h : Inv n s) (hrec : s.committer = .recording unit run own) :
    Inv n { s with
      committer := .waiting (unit + 1)
      board := s.board.commit ops cache unit run own } := by
  obtain ⟨b, D, hD, hlt, -, heq⟩ := commit_cases ops cache unit run own s.board
  rw [heq]
  have hpoint : s.board.committed = unit := by rw [h.point, hrec]; rfl
  have hactive : unit < n := h.unit_lt hrec (by simp)
  have hunitD : unit ∉ D := fun hmem => absurd (hlt unit hmem) (by omega)
  -- the unit was finished, or was run by the committing thread
  obtain ⟨p, hp, hpp⟩ : ∃ p : Place jobs, s.InPlace unit p ∧ (p = .finished ∨ p = .committer) := by
    cases run with
    | none => exact ⟨.committer, by simp [InPlace, hrec, ownUnit?], .inr rfl⟩
    | some r =>
      obtain ⟨f, hf, -⟩ := h.held unit r (by rw [hrec]; rfl)
      exact ⟨.finished, by simp [InPlace, hf], .inl rfl⟩
  have hown : ∀ v, v ≠ unit → s.committer.ownUnit? ≠ some v := by
    intro v hv
    rw [hrec]
    cases run <;> simp [ownUnit?, Ne.symm hv]
  have hothers : ∀ q, q ≠ p → ¬ s.InPlace unit q := fun q hq => h.not_other hp hq
  refine ⟨?_, hD.n.trans h.units, rfl, (le_of_eq hD.next).trans h.next_le, hactive,
    fun hne => absurd rfl (hne (unit + 1)), fun _ _ => nofun⟩
  · refine existsUnique_of_moves (q := .committed) h.one hp hunitD hD.was fun v r' => ?_
    cases r' with
    | committed =>
      · simp [InPlace, unblock]
        omega
    | finished =>
      by_cases hv : v = unit
      · subst hv
        rcases hpp with rfl | rfl
        · simp [InPlace, unblock]
        · have := hothers .finished (by simp)
          simp only [InPlace] at this
          simp [InPlace, unblock, this]
      · simp [InPlace, unblock, hv, hD.isSome_iff]
    | requeued =>
      rcases hpp with rfl | rfl <;> simp [InPlace, unblock, hD.requeued, or_comm]
    | failed => rcases hpp with rfl | rfl <;> simp [InPlace, unblock, hD.failed]
    | worker i => rcases hpp with rfl | rfl <;> simp [InPlace]
    | committer =>
      by_cases hv : v = unit
      · subst hv
        rcases hpp with rfl | rfl
        · have := hothers .committer (by simp)
          simp only [InPlace] at this
          simp [InPlace, this]
        · simp [InPlace]
      · simp [InPlace, hown v hv]
    | unhanded => rcases hpp with rfl | rfl <;> simp [InPlace, unblock, hD.next]

variable {m : Preprocessing S J C R}

lemma inv_step {label : Option ℕ} (h : Inv n s) (hstep : Step m s label s') : Inv n s' := by
  cases hstep with
  | claim hidle _ hclaim => exact inv_claim h hidle hclaim rfl
  | leave hidle _ => exact h.of_worker (by rw [hidle]; rfl)
  | advance hrun _ | ran hrun _ => exact h.of_worker (by rw [hrun]; rfl)
  | failed hrun _ => exact inv_failed h (by rw [hrun]; rfl)
  | sample hran => exact h.of_worker (by rw [hran]; rfl)
  | check hs => exact h.of_worker (by rw [hs]; rfl)
  | finish hc _ => exact inv_finish h (by rw [hc]; rfl)
  | resample hc _ => exact h.of_worker (by rw [hc]; rfl)
  | @take unit f src hw hlt hf hsrc =>
    have hn := h.units
    refine h.of_same rfl rfl rfl ?_ rfl rfl (fun _ => rfl) (by rw [hw]; rfl)
      (by rw [hw]; rfl) (fun _ => by simp only [Committer.unit]; omega) ?_
    · intro u
      by_cases hu : u = unit
      · subst hu
        simp [hf]
      · simp [hu]
    · intro u r hr
      cases hr
      exact ⟨{ f with src := none }, by simp, rfl, rfl⟩
  | takeOver hw hlt _ hfree => exact inv_takeOver h hw hlt hfree
  | commitRaw ht | commit ht =>
    refine h.of_same rfl rfl rfl (fun _ => rfl) rfl rfl (fun _ => rfl) (by rw [ht]; rfl)
      (by rw [ht]; rfl) (fun _ => ?_) ?_
    · have hlt := h.unit_lt ht (by simp)
      exact hlt
    · intro u r hr
      exact h.held u r (by rw [ht]; exact hr)
  | refused ht _ => exact inv_refused h ht
  | advanceHere hrun | hereFailed hrun | hereRaw hrun | hereCommit hrun | herePanics hrun =>
    exact h.of_running hrun rfl rfl ⟨rfl, rfl, rfl⟩ rfl
  | record hrec => exact inv_record h hrec

lemma inv_of_runs {window : ℕ} {log : List ℕ} (h : Runs m n window cache log s) : Inv n s := by
  induction h with
  | start => exact inv_init window cache
  | step _ hs ih => exact inv_step ih hs

/-- Only recording a commit moves the commit point, by the unit it names. -/
lemma committed_of_step {label : Option ℕ} (h : Inv n s) (hs : Step m s label s') :
    (label = none ∧ s'.board.committed = s.board.committed) ∨
      (label = some s.board.committed ∧ s'.board.committed = s.board.committed + 1) := by
  have hboard := h.point
  cases hs with
  | claim _ _ hclaim =>
    rcases claim_cases hclaim with ⟨-, -, -, rfl⟩ | ⟨-, -, -, -, rfl⟩ <;> exact .inl ⟨rfl, rfl⟩
  | @finish i run commits contradicted hc _ =>
    have hunit : ¬ run.unit < s.board.committed :=
      h.not_other (p := .worker i) (q := .committed) (by simp [InPlace, hc, Worker.unit?])
        (by simp)
    rcases finish_cases m.ops s.cache run contradicted hunit with heq | ⟨b, D, hD, -, heq⟩
    · have hframe := requeue_frame m.ops s.cache (b := s.board) run.unit run.journal
      simpa [heq] using hframe.2.2.2.2.2.1
    · simpa [heq, unblock] using hD.committed
  | @takeOver unit _ _ _ _ => exact .inl ⟨rfl, (s.board.takeOver_frame unit).2.2.2.1⟩
  | @refused unit run src j _ _ =>
    obtain ⟨D, hD, -⟩ := discard_discards m.ops s.cache unit s.board
    exact .inl ⟨rfl, hD.committed⟩
  | @record unit run own hrec =>
    obtain ⟨b, D, hD, -, -, heq⟩ := commit_cases m.ops s.cache unit run own s.board
    rw [hrec] at hboard
    simp [heq, unblock, hboard, Committer.unit]
  | _ => exact .inl ⟨rfl, rfl⟩

lemma log_eq_range {window : ℕ} {log : List ℕ} (h : Runs m n window cache log s) :
    log = List.range s.board.committed := by
  induction h with
  | start => rfl
  | step hr hs ih =>
    rcases committed_of_step (inv_of_runs hr) hs with ⟨rfl, heq⟩ | ⟨rfl, heq⟩
    · simp [heq, ih]
    · simp [heq, ih, range_succ]

/-- At every moment of every pass each unit is in exactly one place, no two
threads run one unit, the committing thread takes a unit over only when nobody
runs it, and the units recorded as committed are `0, 1, …` in order, each once. -/
theorem pass_partition (m : Preprocessing S J C R) (n window : ℕ) (cache : C) (log : List ℕ)
    (s : System S J C R jobs) (h : Runs m n window cache log s) : (∀ u < n, ∃! p, s.InPlace u p) ∧
      (∀ u i, (s.workers i).unit? = some u →
        (∀ j, (s.workers j).unit? = some u → j = i) ∧ s.committer.ownUnit? ≠ some u) ∧
      (∀ u, s.committer = .waiting u → u < n →
        (u ∈ s.board.failed ∨ u ∈ s.board.requeued ∨ s.board.next = u) →
        (∀ i, (s.workers i).unit? ≠ some u) ∧ s.board.finished u = none) ∧
      log = List.range s.board.committed ∧ s.board.committed ≤ n := by
  have hinv := inv_of_runs h
  refine ⟨fun u _ => hinv.one u, ?_, ?_, log_eq_range h, ?_⟩
  · intro u i hi
    have hplace : s.InPlace u (.worker i) := hi
    refine ⟨?_, fun hown => hinv.not_other hplace (q := .committer) (by simp) hown⟩
    intro j hj
    have : Place.worker j = Place.worker i := (hinv.one u).unique hj hplace
    simpa using this
  · intro u _ _ hfree
    obtain ⟨p, hp, hpw, hpf⟩ : ∃ p : Place jobs, s.InPlace u p ∧ (∀ i, Place.worker i ≠ p) ∧
        Place.finished ≠ p := by
      rcases hfree with hf | hr | hn
      · exact ⟨.failed, hf, by simp, by simp⟩
      · exact ⟨.requeued, hr, by simp, by simp⟩
      · exact ⟨.unhanded, le_of_eq hn, by simp, by simp⟩
    refine ⟨fun i hi => hinv.not_other hp (hpw i) hi, ?_⟩
    simpa [InPlace] using hinv.not_other hp hpf
  · rw [hinv.point]
    exact hinv.point_le

/-- Units read as they are: each run ends at once, with no journal. -/
def rawUnits : Preprocessing ℕ Unit Unit ℕ where
  ops := ⟨fun _ _ => false, fun _ _ => false, fun _ _ _ => false, fun _ _ => false⟩
  start := fun unit _ _ => unit
  advance := fun r _ => r
  outcome := fun r => some (some (r, none))
  commit := fun src _ cache => some (src, cache)

/-- A worker has claimed the first of three units. -/
def oneClaimed : System ℕ Unit Unit ℕ 2 :=
  { (init 3 8 () : System ℕ Unit Unit ℕ 2).withWorker 0 (.running 0 1 [] 0) with
    board := { Board.init 3 8 with next := 1, nextRun := 1 }
    history := update (fun _ => []) 1 [] }

/-- The other worker has claimed the second. -/
def twoClaimed : System ℕ Unit Unit ℕ 2 :=
  { oneClaimed.withWorker 1 (.running 1 2 [] 1) with
    board := { oneClaimed.board with next := 2, nextRun := 2 }
    history := update oneClaimed.history 2 [] }

lemma twoClaimed_runs : Runs rawUnits 3 8 () [] twoClaimed := by
  have hfirst : Step rawUnits (init 3 8 ()) none oneClaimed :=
    Step.claim rfl (by decide) rfl
  have hsecond : Step rawUnits oneClaimed none twoClaimed :=
    Step.claim rfl (by decide) rfl
  exact (Runs.start.step hfirst).step hsecond

theorem twoClaimed_partition : (∀ u < 3, ∃! p, twoClaimed.InPlace u p) ∧
    twoClaimed.committer.ownUnit? ≠ some 0 :=
  have h := pass_partition rawUnits 3 8 () [] twoClaimed twoClaimed_runs
  ⟨h.1, (h.2.1 0 0 rfl).2⟩

end System
end Pathologist.Discovery

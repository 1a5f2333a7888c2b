import Pathologist.Discovery.Partition

/-!
# What the finished runs rest on

Between two steps of a pass no finished run rules out a finished run behind it,
and every run that fed a finished run still stands. A discard can take a run away
that fed others; its loop then queues those, and the loop ends only when nobody is
left whose source of entries is gone.
-/
open List Function
namespace Pathologist.Discovery
variable {S J C R : Type*} {jobs : ℕ}

namespace Board
variable (ops : JournalOps J C) (cache : C) {b b' : Board S J}

/-- A run among the finished was fed by one that no longer stands. `shownTo` says
what each run was shown. -/
def Orphan (shownTo : ℕ → List (Shown J)) (b : Board S J) (v : ℕ) : Prop :=
  ∃ f j, b.finished v = some f ∧ f.journal = some j ∧
    ∃ s ∈ shownTo f.run, ops.feeds s.journal j = true ∧ b.stands s = false

/-- What the records of shown runs say of the finished ones. -/
structure Shows (shownTo : ℕ → List (Shown J)) (b : Board S J) : Prop where
  /-- Only units of the pass are finished. -/
  lt : ∀ v, (b.finished v).isSome → v < b.n
  /-- A shown run is of an earlier unit. -/
  earlier : ∀ v f, b.finished v = some f → ∀ s ∈ shownTo f.run, s.unit < v
  /-- A shown run that is still finished has the journal that was shown. -/
  same : ∀ id, ∀ s ∈ shownTo id, ∀ f, b.finished s.unit = some f → f.run = s.run →
    f.journal = some s.journal

lemma stands_iff {s : Shown J} : b.stands s = true ↔
    (∃ f, b.finished s.unit = some f ∧ f.run = s.run) ∨ b.committedRuns s.unit = some s.run := by
  unfold stands
  cases hf : b.finished s.unit <;> simp

variable {shownTo : ℕ → List (Shown J)}

lemma Shows.of_discards {D : Set ℕ} (h : Shows shownTo b) (hD : Discards b b' D) :
    Shows shownTo b' := by
  refine ⟨?_, fun v f hf => h.earlier v f (hD.finished_of hf),
    fun id s hs f hf => h.same id s hs f (hD.finished_of hf)⟩
  intro v hv
  obtain ⟨f, hf⟩ := Option.isSome_iff_exists.mp hv
  rw [hD.n]
  exact h.lt v (by simp [hD.finished_of hf])

/-- How many units of the pass are finished. -/
def finishedCount (b : Board S J) : ℕ :=
  ((Finset.range b.n).filter fun v => (b.finished v).isSome).card

lemma finishedCount_remove {u : ℕ} {run} (hrun : b.finished u = some run) (hu : u < b.n)
    (hD : Discards b b' {u}) : b'.finishedCount + 1 = b.finishedCount := by
  unfold finishedCount
  have hset : (Finset.range b'.n).filter (fun v => (b'.finished v).isSome) =
      ((Finset.range b.n).filter fun v => (b.finished v).isSome).erase u := by
    ext v
    rw [hD.n]
    by_cases hv : v = u
    · subst hv
      simp [hD.gone v rfl]
    · simp [hv, hD.kept v hv]
  rw [hset]
  refine Finset.card_erase_add_one ?_
  simp [hu, hrun]

lemma length_fedBy_le (u : ℕ) (journal : Option J) : (fedBy ops b u journal).length ≤ b.n := by
  cases journal with
  | none => simp [fedBy]
  | some j =>
    have := length_filter_le (fun v => (b.finished v).any fun f => f.journal.any (ops.feeds j))
      (List.range' (u + 1) (b.n - (u + 1)))
    simp only [fedBy, behind]
    simp at this ⊢
    omega

/-- Removing one finished run orphans only the runs it fed, all behind it. -/
lemma orphan_of_remove {u w : ℕ} {run} (hshows : Shows shownTo b) (hu : b.finished u = some run)
    (hD : Discards b b' {u}) (hw : Orphan ops shownTo b' w) : w ≠ u ∧ (Orphan ops shownTo b w ∨
      w ∈ fedBy ops { b with finished := update b.finished u none } u run.journal) := by
  obtain ⟨f, j, hf, hj, s, hs, hfeeds, hstands⟩ := hw
  have hwu : w ≠ u := by
    rintro rfl
    simp [hD.gone w rfl] at hf
  have hfw : b.finished w = some f := by rwa [hD.kept w hwu] at hf
  have hnot : ¬ b'.stands s = true := by simp [hstands]
  refine ⟨hwu, ?_⟩
  by_cases hold : b.stands s = true
  · right
    -- the run that fed `w` stood before and not now, so it is the one removed
    have hsu : s.unit = u ∧ run.run = s.run := by
      rcases stands_iff.mp hold with ⟨f', hf', hrun⟩ | hc
      · by_cases hsu : s.unit = u
        · rw [hsu, hu] at hf'
          cases hf'
          exact ⟨hsu, hrun⟩
        · exact absurd (stands_iff.mpr (.inl ⟨f', by rw [hD.kept _ hsu]; exact hf', hrun⟩)) hnot
      · exact absurd (stands_iff.mpr (.inr (by rw [hD.committedRuns]; exact hc))) hnot
    have hjournal := hshows.same f.run s hs run (by rw [hsu.1]; exact hu) hsu.2
    have hearlier := hshows.earlier w f hfw s hs
    have hwn := hshows.lt w (by simp [hfw])
    rw [hjournal]
    refine mem_filter.mpr ⟨?_, ?_⟩
    · rw [mem_range'_1]
      dsimp only
      omega
    · simp [hwu, hfw, hj, hfeeds]
  · exact .inl ⟨f, j, hfw, hj, s, hs, hfeeds, by simpa using hold⟩

/-- Nobody is left without the run that fed it once the queue holds all that are
and the loop has fuel for every pop. -/
lemma discardLoop_no_orphan {fuel : ℕ} {queue : List ℕ} (hs : Shows shownTo b)
    (ho : ∀ v, Orphan ops shownTo b v → v ∈ queue)
    (hfuel : b.finishedCount * (b.n + 1) + queue.length < fuel) (v : ℕ) :
    ¬ Orphan ops shownTo (discardLoop ops cache fuel queue b) v := by
  induction fuel generalizing queue b with
  | zero => omega
  | succ fuel ih =>
    cases queue with
    | nil =>
      intro h
      simpa using ho v h
    | cons u queue =>
      unfold discardLoop
      simp only [length_cons] at hfuel
      cases hu : b.finished u with
      | none =>
        refine ih hs ?_ (by omega)
        intro w hw
        rcases mem_cons.mp (ho w hw) with rfl | hmem
        · obtain ⟨f, j, hf, -⟩ := hw
          simp [hu] at hf
        · exact hmem
      | some run =>
        have hD := discards_one ops cache hu
        have hlength := length_fedBy_le ops
          (b := { b with finished := update b.finished u none }) u run.journal
        have hcount := finishedCount_remove hu (hs.lt u (by simp [hu])) hD
        have hmul := congrArg (· * (b.n + 1)) hcount
        simp only [Nat.add_mul, Nat.one_mul] at hmul
        refine ih (hs.of_discards hD) ?_ ?_
        · intro w hw
          obtain ⟨hwu, hc⟩ := orphan_of_remove ops hs hu hD hw
          rcases hc with hold | hfed
          · rcases mem_cons.mp (ho w hold) with h | h
            · exact absurd h hwu
            · exact mem_append_right _ h
          · exact mem_append_left _ (mem_reverse.mpr hfed)
        · rw [hD.n]
          simp only [length_append, length_reverse]
          dsimp only at hlength
          omega

lemma finishedCount_le : b.finishedCount ≤ b.n := by
  have := Finset.card_filter_le (Finset.range b.n) fun v => (b.finished v).isSome
  simpa [finishedCount] using this

lemma discard_no_orphan (hs : Shows shownTo b) (hn : ∀ v, ¬ Orphan ops shownTo b v) (unit v : ℕ) :
    ¬ Orphan ops shownTo (discard ops cache b unit) v := by
  refine discardLoop_no_orphan ops cache hs (fun w hw => absurd hw (hn w)) ?_ v
  have := Nat.mul_le_mul_right (b.n + 1) (finishedCount_le (b := b))
  simp only [length_cons, length_nil]
  omega

/-- Discarding what a journal rules out leaves no orphan, and nothing behind the
unit that the journal rules out. -/
lemma discardBehind_spec (hs : Shows shownTo b) (hn : ∀ v, ¬ Orphan ops shownTo b v) (unit : ℕ)
    (journal : J) : (∀ v, ¬ Orphan ops shownTo (discardBehind ops cache b unit journal) v) ∧
      ∀ v f j, unit < v → (discardBehind ops cache b unit journal).finished v = some f →
        f.journal = some j → ops.rulesOut journal j = false := by
  have hfold : ∀ (units : List ℕ) (b : Board S J), Shows shownTo b →
      (∀ v, ¬ Orphan ops shownTo b v) →
      (∀ v, ¬ Orphan ops shownTo (units.foldl (discard ops cache) b) v) ∧
        ∃ D, Discards b (units.foldl (discard ops cache) b) D ∧
          ∀ u ∈ units, (units.foldl (discard ops cache) b).finished u = none := by
    intro units
    induction units with
    | nil => exact fun b _ hn => ⟨hn, ∅, Discards.refl b, by simp⟩
    | cons u units ih =>
      intro b hs hn
      obtain ⟨D, hD, -⟩ := discard_discards ops cache u b
      obtain ⟨hno, E, hE, hg⟩ := ih (discard ops cache b u) (hs.of_discards hD)
        (discard_no_orphan ops cache hs hn u)
      refine ⟨hno, D ∪ E, hD.trans hE, ?_⟩
      intro w hw
      rcases mem_cons.mp hw with rfl | hw
      · have hself := discard_finished_self ops cache w b
        by_cases hwE : w ∈ E
        · exact hE.gone w hwE
        · rw [foldl_cons, hE.kept w hwE, hself]
      · exact hg w hw
  obtain ⟨hno, D, hD, hg⟩ := hfold (b.behind unit (ops.rulesOut journal)) b hs hn
  refine ⟨hno, ?_⟩
  intro v f j hv hf hj
  by_contra hr
  have hfb : b.finished v = some f := hD.finished_of hf
  have hlt := hs.lt v (by simp [hfb])
  have hmem : v ∈ b.behind unit (ops.rulesOut journal) := by
    refine mem_filter.mpr ⟨?_, ?_⟩
    · rw [mem_range'_1]
      omega
    · simpa [hfb, hj] using hr
  have := hg v hmem
  rw [discardBehind, this] at hf
  simp at hf

/-- The board between two steps, `shownTo` saying what each run was shown. -/
structure Settled (shownTo : ℕ → List (Shown J)) (b : Board S J) : Prop where
  runLe : ∀ u f, b.finished u = some f → f.run ≤ b.nextRun
  shownLe : ∀ id, ∀ s ∈ shownTo id, s.run ≤ b.nextRun
  recorded : ∀ u r, b.committedRuns u = some r → u < b.committed
  shows : Shows shownTo b
  noOrphan : ∀ v, ¬ Orphan ops shownTo b v
  noRulesOut : ∀ u v fu fv ju jv, u < v → b.finished u = some fu → b.finished v = some fv →
    fu.journal = some ju → fv.journal = some jv → ops.rulesOut ju jv = false

variable {shownTo : ℕ → List (Shown J)}

/-- A board on which no run is finished that was not, and no orphan is left. Of a finished run
only its id and its journal matter. -/
lemma Settled.of_finished (h : Settled ops shownTo b) (hn : b'.n = b.n)
    (hold : ∀ u f', b'.finished u = some f' →
      ∃ f, b.finished u = some f ∧ f.run = f'.run ∧ f.journal = f'.journal)
    (hrecorded : ∀ u r, b'.committedRuns u = some r → u < b'.committed)
    (hnext : b'.nextRun = b.nextRun)
    (hno : ∀ v, ¬ Orphan ops shownTo b' v) : Settled ops shownTo b' := by
  refine ⟨?_, hnext ▸ h.shownLe, hrecorded, ⟨?_, ?_, ?_⟩, hno, ?_⟩
  · intro u f' hf'
    obtain ⟨f, hf, hrun, -⟩ := hold u f' hf'
    rw [hnext, ← hrun]
    exact h.runLe u f hf
  · intro v hv
    obtain ⟨f', hf'⟩ := Option.isSome_iff_exists.mp hv
    obtain ⟨f, hf, -⟩ := hold v f' hf'
    rw [hn]
    exact h.shows.lt v (by simp [hf])
  · intro v f' hf'
    obtain ⟨f, hf, hrun, -⟩ := hold v f' hf'
    rw [← hrun]
    exact h.shows.earlier v f hf
  · intro id s hs f' hf' hr
    obtain ⟨f, hf, hrun, hj⟩ := hold s.unit f' hf'
    rw [← hj]
    exact h.shows.same id s hs f hf (hrun.trans hr)
  intro u v fu' fv' ju jv huv hu' hv' hju hjv
  obtain ⟨fu, hu, -, hju'⟩ := hold u fu' hu'
  obtain ⟨fv, hv, -, hjv'⟩ := hold v fv' hv'
  exact h.noRulesOut u v fu fv ju jv huv hu hv (hju'.trans hju) (hjv'.trans hjv)

/-- Where what stood still stands, no new orphan appears. -/
lemma not_orphan_of_stands (hno : ∀ v, ¬ Orphan ops shownTo b v)
    (hold : ∀ u f', b'.finished u = some f' →
      ∃ f, b.finished u = some f ∧ f.run = f'.run ∧ f.journal = f'.journal)
    (hstands : ∀ s, b.stands s = true → b'.stands s = true) (v : ℕ) :
    ¬ Orphan ops shownTo b' v := by
  rintro ⟨f', j, hf', hj', s, hs, hfeeds, hnot⟩
  obtain ⟨f, hf, hrun, hj⟩ := hold v f' hf'
  refine hno v ⟨f, j, hf, hj.trans hj', s, by rwa [hrun], hfeeds, ?_⟩
  by_contra hstood
  rw [hstands s (by simpa using hstood)] at hnot
  cases hnot

section
variable (h : Settled ops shownTo b)
include h

/-- Only these parts of the board matter. -/
lemma Settled.congr (hn : b'.n = b.n) (hold : ∀ u f', b'.finished u = some f' →
      ∃ f, b.finished u = some f ∧ f.run = f'.run ∧ f.journal = f'.journal)
    (hk : ∀ u f, b.finished u = some f → ∃ f', b'.finished u = some f' ∧ f'.run = f.run)
    (hruns : b'.committedRuns = b.committedRuns) (hcommitted : b'.committed = b.committed)
    (hnext : b'.nextRun = b.nextRun) : Settled ops shownTo b' := by
  refine h.of_finished ops hn hold (by rw [hruns, hcommitted]; exact h.recorded) hnext
    (not_orphan_of_stands ops h.noOrphan hold fun s hs => ?_)
  rcases stands_iff.mp hs with ⟨g, hg, hr⟩ | hc
  · obtain ⟨g', hg', hrun'⟩ := hk s.unit g hg
    exact stands_iff.mpr (.inl ⟨g', hg', hrun'.trans hr⟩)
  · exact stands_iff.mpr (.inr (by rw [hruns]; exact hc))

/-- The queues, the blockers and the counters play no part. -/
lemma Settled.of_queues (hn : b'.n = b.n) (hfinished : b'.finished = b.finished)
    (hr : b'.committedRuns = b.committedRuns) (hc : b'.committed = b.committed)
    (hnext : b'.nextRun = b.nextRun) : Settled ops shownTo b' := by
  refine h.congr ops hn ?_ ?_ hr hc hnext
  · intro u f hf
    exact ⟨f, by rwa [hfinished] at hf, rfl, rfl⟩
  · intro u f hf
    exact ⟨f, by rwa [hfinished], rfl⟩

/-- Discards keep everything but the absence of orphans, which is theirs to show. -/
lemma Settled.of_discards {D : Set ℕ} (hD : Discards b b' D)
    (hno : ∀ v, ¬ Orphan ops shownTo b' v) : Settled ops shownTo b' :=
  h.of_finished ops hD.n (fun _ f hf => ⟨f, hD.finished_of hf, rfl, rfl⟩)
    (by rw [hD.committedRuns, hD.committed]; exact h.recorded) hD.nextRun hno

lemma Settled.discard (unit : ℕ) : Settled ops shownTo (discard ops cache b unit) := by
  obtain ⟨D, hD, -⟩ := discard_discards ops cache unit b
  exact h.of_discards ops hD (discard_no_orphan ops cache h.shows h.noOrphan unit)

lemma Settled.discardBehind (unit : ℕ) (journal : J) :
    Settled ops shownTo (discardBehind ops cache b unit journal) := by
  obtain ⟨D, hD, -⟩ := discardBehind_discards ops cache unit journal b
  exact h.of_discards ops hD (discardBehind_spec ops cache h.shows h.noOrphan unit journal).1

end

variable {unit : ℕ}

section
variable (h : Settled ops shownTo b)
include h

/-- A run joins the finished ones: nothing ahead rules it out, it rules out nothing
behind, and what fed it stands. -/
lemma Settled.insert (f : Finished S J) (hfresh : b.finished unit = none) (hlt : unit < b.n)
    (hrun : f.run ≤ b.nextRun) (he : ∀ s ∈ shownTo f.run, s.unit < unit)
    (hnew : ∀ id, ∀ s ∈ shownTo id, s.run ≠ f.run)
    (ha : ∀ u fu ju j, u < unit → b.finished u = some fu → fu.journal = some ju →
      f.journal = some j → ops.rulesOut ju j = false)
    (hb : ∀ v fv jv j, unit < v → b.finished v = some fv → fv.journal = some jv →
      f.journal = some j → ops.rulesOut j jv = false)
    (hfed : ∀ j, f.journal = some j → ∀ s ∈ shownTo f.run, ops.feeds s.journal j = true →
      b.stands s = true) :
    Settled ops shownTo { b with finished := update b.finished unit (some f) } := by
  have hstands : ∀ s : Shown J, b.stands s = true →
      ({ b with finished := update b.finished unit (some f) } : Board S J).stands s = true := by
    intro s hs
    rcases stands_iff.mp hs with ⟨f', hf', hr⟩ | hc
    · have hne : s.unit ≠ unit := by
        intro heq
        simp [heq, hfresh] at hf'
      exact stands_iff.mpr (.inl ⟨f', by simp [hne, hf'], hr⟩)
    · exact stands_iff.mpr (.inr hc)
  have hcases : ∀ v fv, update b.finished unit (some f) v = some fv →
      (v = unit ∧ fv = f) ∨ (v ≠ unit ∧ b.finished v = some fv) := by
    intro v fv hv
    rw [update_apply, ite_eq_iff, Option.some.injEq] at hv
    exact hv.imp_left (And.imp_right Eq.symm)
  refine ⟨?_, h.shownLe, h.recorded, ⟨?_, ?_, ?_⟩, ?_, ?_⟩
  · intro u fu hu
    rcases hcases u fu hu with ⟨-, rfl⟩ | ⟨-, hold⟩
    · exact hrun
    · exact h.runLe u fu hold
  · intro v hv
    obtain ⟨fv, hfv⟩ := Option.isSome_iff_exists.mp hv
    rcases hcases v fv hfv with ⟨rfl, -⟩ | ⟨-, hold⟩
    · exact hlt
    · exact h.shows.lt v (by simp [hold])
  · intro v fv hv
    rcases hcases v fv hv with ⟨rfl, rfl⟩ | ⟨-, hold⟩
    · exact he
    · exact h.shows.earlier v fv hold
  · intro id s hs fv hv hr
    rcases hcases s.unit fv hv with ⟨-, rfl⟩ | ⟨-, hold⟩
    · exact absurd hr.symm (hnew id s hs)
    · exact h.shows.same id s hs fv hold hr
  · rintro v ⟨fv, j, hv, hj, s, hs, hfeeds, hnot⟩
    rcases hcases v fv hv with ⟨rfl, rfl⟩ | ⟨-, hold⟩
    · have := hstands s (hfed j hj s hs hfeeds)
      simp [hnot] at this
    by_cases hs' : b.stands s = true
    · have := hstands s hs'
      simp [hnot] at this
    · exact h.noOrphan v ⟨fv, j, hold, hj, s, hs, hfeeds, by simpa using hs'⟩
  intro u v fu fv ju jv huv hu hv hju hjv
  rcases hcases u fu hu with ⟨rfl, rfl⟩ | ⟨hune, hu'⟩
  · rcases hcases v fv hv with ⟨rfl, rfl⟩ | ⟨-, hv'⟩
    · omega
    · exact hb v fv jv ju huv hv' hjv hju
  · rcases hcases v fv hv with ⟨rfl, rfl⟩ | ⟨-, hv'⟩
    · exact ha u fu ju jv huv hu' hju hjv
    · exact h.noRulesOut u v fu fv ju jv huv hu' hv' hju hjv

lemma Settled.finish {run : Run S J} (hp : ∀ u f, b.finished u = some f → b.committed ≤ u)
    (hunit : ¬ run.unit < b.committed) (hfresh : b.finished run.unit = none) (hlt : run.unit < b.n)
    (hid : run.id ≤ b.nextRun) (hshown : shownTo run.id = run.shown)
    (he : ∀ s ∈ run.shown, s.unit < run.unit) (hnew : ∀ id, ∀ s ∈ shownTo id, s.run ≠ run.id)
    (contradicted : Bool) : Settled ops shownTo (b.finish ops cache run contradicted) := by
  unfold Board.finish
  rw [if_neg hunit]
  split
  · obtain ⟨hfinished, -, hn, -, -, hcommitted, hruns, hnext⟩ :=
      requeue_frame ops cache (b := b) run.unit run.journal
    exact h.of_queues ops hn hfinished hruns hcommitted hnext
  rename_i hruled
  cases hj : run.journal with
  | none =>
    have := h.insert ops ⟨run.id, some run.src, none⟩ hfresh hlt hid
      (by simpa only [hshown] using he) hnew (by simp) (by simp) (by simp)
    exact this.of_queues ops rfl rfl rfl rfl rfl
  | some j =>
    obtain ⟨D, hD, hgt⟩ := discardBehind_discards ops cache run.unit j b
    have hfree := (discardBehind_spec ops cache h.shows h.noOrphan run.unit j).2
    -- what the discards took away is behind the unit; everything ahead is as it was
    have hsame : ∀ u, u ≤ run.unit →
        (Board.discardBehind ops cache b run.unit j).finished u = b.finished u := by
      intro u hu
      exact hD.kept u fun hmem => by have := hgt u hmem; omega
    simp only [ruledOut, hj, Option.any_some, Bool.or_eq_true, not_or, any_eq_true,
      Bool.and_eq_true, Bool.not_eq_true', not_exists, not_and, Bool.not_eq_true] at hruled
    obtain ⟨-, hfed, ha⟩ := hruled
    have := (h.discardBehind ops cache run.unit j).insert ops
      ⟨run.id, some run.src, some j⟩ ((hsame _ le_rfl).trans hfresh)
      (by rw [hD.n]; exact hlt) (by rw [hD.nextRun]; exact hid)
      (by simpa only [hshown] using he) hnew ?_ ?_ ?_
    · exact this.of_queues ops rfl rfl rfl rfl rfl
    · intro u fu ju j' hu hfu hju hj'
      cases hj'
      rw [hsame u hu.le] at hfu
      have hle := hp u fu hfu
      have := ha u (by rw [mem_range'_1]; omega)
      simpa [hfu, hju] using this
    · intro v fv jv j' hv hfv hjv hj'
      cases hj'
      exact hfree v fv jv hv hfv hjv
    intro j' hj' s hs hfeeds
    cases hj'
    rw [hshown] at hs
    have hstands : b.stands s = true := by
      by_contra hnot
      have := hfed s hs (by simpa using hnot)
      simp [hfeeds] at this
    rcases stands_iff.mp hstands with ⟨f, hf, hr⟩ | hc
    · exact stands_iff.mpr (.inl ⟨f, by rw [hsame _ (he s hs).le]; exact hf, hr⟩)
    · exact stands_iff.mpr (.inr (by rw [hD.committedRuns]; exact hc))

/-- The unit at the commit point is recorded: with the run that is finished, or
with none when none is. -/
lemma Settled.commit {run : Option ℕ} (hp : b.committed = unit)
    (hrun : ∀ f, b.finished unit = some f → run = some f.run) (own : Option J) :
    Settled ops shownTo (b.commit ops cache unit run own) := by
  obtain ⟨b₁, D, hD, hgt, hb₁, heq⟩ := commit_cases ops cache unit run own b
  have h₁ : Settled ops shownTo b₁ := by
    rcases hb₁ with rfl | ⟨j, rfl⟩
    · exact h
    · exact h.discardBehind ops cache unit j
  have hself : b₁.finished unit = b.finished unit :=
    hD.kept unit fun hmem => by have := hgt unit hmem; omega
  have hnone : b₁.committedRuns unit = none := by
    by_contra hsome
    obtain ⟨r, hr⟩ := Option.ne_none_iff_exists'.mp hsome
    have := h₁.recorded unit r hr
    rw [hD.committed] at this
    omega
  have hold : ∀ v f, update b₁.finished unit none v = some f →
      ∃ g, b₁.finished v = some g ∧ g.run = f.run ∧ g.journal = f.journal := by
    intro v f hf
    rcases eq_or_ne v unit with rfl | hv
    · simp at hf
    · exact ⟨f, by rwa [update_of_ne hv] at hf, rfl, rfl⟩
  rw [heq]
  refine h₁.of_finished ops rfl hold ?_ rfl
    (not_orphan_of_stands ops h₁.noOrphan hold fun s hs => ?_)
  · intro u r hr
    dsimp only [unblock] at hr ⊢
    by_cases hu : u = unit
    · omega
    rw [update_of_ne hu] at hr
    have := h₁.recorded u r hr
    rw [hD.committed] at this
    omega
  -- a run of this unit that stood is the one now recorded
  refine stands_iff.mpr ?_
  dsimp [unblock]
  rcases stands_iff.mp hs with ⟨g, hg, hr⟩ | hc
  · by_cases hsu : s.unit = unit
    · right
      rw [hsu] at hg ⊢
      rw [hself] at hg
      simp [hrun g hg, hr]
    · exact .inl ⟨g, by rw [update_of_ne hsu]; exact hg, hr⟩
  right
  have hsu : s.unit ≠ unit := by
    intro hsu
    simp [hsu, hnone] at hc
  rw [update_of_ne hsu]
  exact hc

end

lemma mem_shownTo {s : Shown J} (hs : s ∈ b.shownTo unit) :
    s.unit < unit ∧ ∃ f, b.finished s.unit = some f ∧ f.run = s.run ∧
      f.journal = some s.journal := by
  simp only [Board.shownTo, mem_filterMap, Option.bind_eq_some_iff, Option.map_eq_some_iff] at hs
  obtain ⟨u, hu, f, hf, j, hj, rfl⟩ := hs
  rw [mem_range'_1] at hu
  exact ⟨by dsimp only; omega, f, hf, rfl, hj⟩

/-- A new run is handed out and shown what is finished ahead of it. -/
lemma Settled.claim (h : Settled ops shownTo b) (hn : b'.n = b.n)
    (hfinished : b'.finished = b.finished)
    (hruns : b'.committedRuns = b.committedRuns) (hc : b'.committed = b.committed)
    (hnext : b'.nextRun = b.nextRun + 1) :
    Settled ops (update shownTo (b.nextRun + 1) (b.shownTo unit)) b' := by
  have hother : ∀ u f, b.finished u = some f →
      update shownTo (b.nextRun + 1) (b.shownTo unit) f.run = shownTo f.run := by
    intro u f hf
    have := h.runLe u f hf
    exact update_of_ne (by omega) _ _
  have hcases : ∀ id, ∀ s ∈ update shownTo (b.nextRun + 1) (b.shownTo unit) id,
      s ∈ shownTo id ∨ s ∈ b.shownTo unit := by
    intro id s hs
    by_cases hid : id = b.nextRun + 1
    · subst hid
      exact .inr (by simpa using hs)
    · exact .inl (by rwa [update_of_ne hid] at hs)
  refine ⟨?_, ?_, ?_, ⟨?_, ?_, ?_⟩, ?_, ?_⟩
  · intro u f hf
    rw [hfinished] at hf
    have := h.runLe u f hf
    omega
  · intro id s hs
    rcases hcases id s hs with hs | hs
    · have := h.shownLe id s hs
      omega
    · obtain ⟨-, f, hf, hr, -⟩ := mem_shownTo hs
      have := h.runLe _ f hf
      omega
  · rw [hruns, hc]
    exact h.recorded
  · rw [hfinished, hn]
    exact h.shows.lt
  · intro v f hf
    rw [hfinished] at hf
    rw [hother v f hf]
    exact h.shows.earlier v f hf
  · intro id s hs f hf hr
    rw [hfinished] at hf
    rcases hcases id s hs with hs | hs
    · exact h.shows.same id s hs f hf hr
    obtain ⟨-, f', hf', -, hj'⟩ := mem_shownTo hs
    rw [hf] at hf'
    cases hf'
    exact hj'
  · rintro v ⟨f, j, hf, hj, s, hs, hfeeds, hnot⟩
    rw [hfinished] at hf
    rw [hother v f hf] at hs
    refine h.noOrphan v ⟨f, j, hf, hj, s, hs, hfeeds, ?_⟩
    simpa only [stands, hfinished, hruns] using hnot
  · rw [hfinished]
    exact h.noRulesOut

end Board

/-- The unit, the id and the shown runs of what a worker was handed. -/
def Worker.claim? : Worker S J R → Option (ℕ × ℕ × List (Shown J))
  | .idle | .gone => none
  | .running unit id shown _ => some (unit, id, shown)
  | .ran run | .sampled run _ | .checked run _ _ => some (run.unit, run.id, run.shown)

lemma Worker.unit?_eq (w : Worker S J R) : w.unit? = w.claim?.map Prod.fst := by
  cases w <;> rfl

namespace System
variable {s s' : System S J C R jobs} {n : ℕ} {ops : JournalOps J C}

/-- The finished runs are settled, and the runs of the workers are new to them. -/
structure Standing (ops : JournalOps J C) (s : System S J C R jobs) : Prop where
  settled : Board.Settled ops s.history s.board
  idLe : ∀ i u id shown, (s.workers i).claim? = some (u, id, shown) → id ≤ s.board.nextRun
  distinct : ∀ i j u v id shown shown', (s.workers i).claim? = some (u, id, shown) →
    (s.workers j).claim? = some (v, id, shown') → i = j
  notFinished : ∀ i u id shown, (s.workers i).claim? = some (u, id, shown) →
    ∀ v f, s.board.finished v = some f → f.run ≠ id
  notShown : ∀ i u id shown, (s.workers i).claim? = some (u, id, shown) →
    ∀ other, ∀ r ∈ s.history other, r.run ≠ id
  shown : ∀ i u id shown, (s.workers i).claim? = some (u, id, shown) →
    s.history id = shown ∧ ∀ r ∈ shown, r.unit < u

lemma standing_init (window : ℕ) (cache : C) :
    Standing ops (init n window cache : System S J C R jobs) where
  settled := by
    refine ⟨?_, ?_, ?_, ⟨?_, ?_, ?_⟩, ?_, ?_⟩ <;> simp [init, Board.init, Board.Orphan]
  idLe := by simp [init, Worker.claim?]
  distinct := by simp [init, Worker.claim?]
  notFinished := by simp [init, Worker.claim?]
  notShown := by simp [init]
  shown := by simp [init, Worker.claim?]

/-- A step that hands no run out: the workers keep theirs or hand them back, and
whatever is new among the finished is the run of a worker no longer. -/
lemma Standing.of_handBack (h : Standing ops s) (hh : s'.history = s.history)
    (hs : Board.Settled ops s.history s'.board) (hn : s'.board.nextRun = s.board.nextRun)
    (hw : ∀ i c, (s'.workers i).claim? = some c → (s.workers i).claim? = some c)
    (hfinished : ∀ v f', s'.board.finished v = some f' →
      (∃ f, s.board.finished v = some f ∧ f.run = f'.run) ∨
        ∀ i u shown, (s'.workers i).claim? ≠ some (u, f'.run, shown)) : Standing ops s' where
  settled := by rwa [hh]
  idLe i u id shown hi := by
    rw [hn]
    exact h.idLe i u id shown (hw i _ hi)
  distinct i j u v id shown shown' hi hj :=
    h.distinct i j u v id shown shown' (hw i _ hi) (hw j _ hj)
  notFinished i u id shown hi v f' hf' := by
    rcases hfinished v f' hf' with ⟨f, hf, hrun⟩ | hnone
    · rw [← hrun]
      exact h.notFinished i u id shown (hw i _ hi) v f hf
    · rintro rfl
      exact hnone i u shown hi
  notShown i u id shown hi := by
    rw [hh]
    exact h.notShown i u id shown (hw i _ hi)
  shown i u id shown hi := by
    rw [hh]
    exact h.shown i u id shown (hw i _ hi)

variable {i : Fin jobs}

/-- A step of one worker that keeps its run. -/
lemma Standing.of_worker (h : Standing ops s) {w}
    (hw : ∀ c, w.claim? = some c → (s.workers i).claim? = some c) :
    Standing ops (s.withWorker i w) := by
  refine h.of_handBack rfl h.settled rfl ?_ fun v f hf => .inl ⟨f, hf, rfl⟩
  intro j c hc
  rw [withWorker_workers] at hc
  split at hc
  · rename_i hji
    subst hji
    exact hw c hc
  · exact hc

/-- A step that leaves the workers alone and no more runs finished than were. -/
lemma Standing.of_board (h : Standing ops s) (hh : s'.history = s.history)
    (hw : s'.workers = s.workers) (hs : Board.Settled ops s.history s'.board)
    (hn : s'.board.nextRun = s.board.nextRun) (hfinished : ∀ v f', s'.board.finished v = some f' →
      ∃ f, s.board.finished v = some f ∧ f.run = f'.run) : Standing ops s' := by
  refine h.of_handBack hh hs hn ?_ fun v f' hf' => .inl (hfinished v f' hf')
  intro i c hc
  rwa [hw] at hc

variable {unit : ℕ}

lemma standing_claim {id : ℕ} {shown} {b : Board S J} {w} (h : Standing ops s)
    (hclaim : s.board.claim = some ((unit, id, shown), b))
    (hw : w.claim? = some (unit, id, shown)) :
    Standing ops { s.withWorker i w with board := b, history := update s.history id shown } := by
  obtain ⟨rfl, rfl, hn, hfinished, hruns, hc, hnext⟩ : id = s.board.nextRun + 1 ∧
      shown = s.board.shownTo unit ∧ b.n = s.board.n ∧ b.finished = s.board.finished ∧
      b.committedRuns = s.board.committedRuns ∧ b.committed = s.board.committed ∧
      b.nextRun = s.board.nextRun + 1 := by
    rcases Board.claim_cases hclaim with ⟨-, hid, hs, rfl⟩ | ⟨-, -, hid, hs, rfl⟩ <;>
      exact ⟨hid, hs, rfl, rfl, rfl, rfl, rfl⟩
  have hcases : ∀ j u id shown, ((s.withWorker i w).workers j).claim? = some (u, id, shown) →
      (j = i ∧ u = unit ∧ id = s.board.nextRun + 1 ∧ shown = s.board.shownTo unit) ∨
        (id ≤ s.board.nextRun ∧ (s.workers j).claim? = some (u, id, shown)) := by
    intro j u id shown hj
    rw [withWorker_workers] at hj
    split at hj
    · rename_i hji
      rw [hw, Option.some.injEq, Prod.mk.injEq, Prod.mk.injEq] at hj
      exact .inl ⟨hji, hj.1.symm, hj.2.1.symm, hj.2.2.symm⟩
    · exact .inr ⟨h.idLe j u id shown hj, hj⟩
  have hshownTo : ∀ r ∈ s.board.shownTo unit, r.run ≤ s.board.nextRun ∧
      ∃ f, s.board.finished r.unit = some f ∧ f.run = r.run := by
    intro r hr
    obtain ⟨-, f, hf, hrun, -⟩ := Board.mem_shownTo hr
    have := h.settled.runLe _ f hf
    exact ⟨by omega, f, hf, hrun⟩
  refine ⟨h.settled.claim ops hn hfinished hruns hc hnext, ?_, ?_, ?_, ?_, ?_⟩
  · intro j u id shown hj
    dsimp only
    rcases hcases j u id shown hj with ⟨-, -, rfl, -⟩ | ⟨hle, -⟩ <;> omega
  · intro j k u v id shown shown' hj hk
    rcases hcases j u id shown hj with ⟨hji, -, hid, -⟩ | ⟨hle, hj⟩
    · rcases hcases k v id shown' hk with ⟨hki, -, -, -⟩ | ⟨hle, -⟩
      · rw [hji, hki]
      · omega
    · rcases hcases k v id shown' hk with ⟨-, -, hid, -⟩ | ⟨-, hk⟩
      · omega
      · exact h.distinct j k u v id shown shown' hj hk
  · intro j u id shown hj v f hf
    rw [hfinished] at hf
    rcases hcases j u id shown hj with ⟨-, -, hid, -⟩ | ⟨-, hj⟩
    · have := h.settled.runLe v f hf
      omega
    · exact h.notFinished j u id shown hj v f hf
  · intro j u id shown hj other r hr
    dsimp only at hr
    by_cases ho : other = s.board.nextRun + 1
    · subst ho
      rw [update_self] at hr
      obtain ⟨hle, f, hf, hrun⟩ := hshownTo r hr
      rcases hcases j u id shown hj with ⟨-, -, hid, -⟩ | ⟨-, hj⟩
      · omega
      · rw [← hrun]
        exact h.notFinished j u id shown hj _ f hf
    · rw [update_of_ne ho] at hr
      rcases hcases j u id shown hj with ⟨-, -, hid, -⟩ | ⟨-, hj⟩
      · have := h.settled.shownLe other r hr
        omega
      · exact h.notShown j u id shown hj other r hr
  · intro j u id shown hj
    dsimp only
    rcases hcases j u id shown hj with ⟨-, rfl, rfl, rfl⟩ | ⟨hle, hj⟩
    · exact ⟨update_self .., fun r hr => (Board.mem_shownTo hr).1⟩
    · rw [update_of_ne (by omega)]
      exact h.shown j u id shown hj

variable {cache : C}

lemma standing_finish {run : Run S J} {contradicted : Bool} (hinv : Inv n s) (h : Standing ops s)
    (hi : (s.workers i).claim? = some (run.unit, run.id, run.shown)) :
    Standing ops { s.withWorker i .idle with
      board := s.board.finish ops cache run contradicted } := by
  have hplace : s.InPlace run.unit (.worker i) := by
    simp [InPlace, Worker.unit?_eq, hi]
  have hunit : ¬ run.unit < s.board.committed := hinv.not_other hplace (q := .committed) (by simp)
  have hfresh : s.board.finished run.unit = none := by
    simpa [InPlace] using hinv.not_other hplace (q := .finished) (by simp)
  have hlt : run.unit < s.board.n := by
    have hhanded := hinv.not_other hplace (q := .unhanded) (by simp)
    have := hinv.next_le
    rw [hinv.units]
    simp only [InPlace] at hhanded
    omega
  have hpoint : ∀ u f, s.board.finished u = some f → s.board.committed ≤ u := by
    intro u f hf
    have := hinv.not_other (u := u) (p := .finished) (q := .committed) (by simp [InPlace, hf])
      (by simp)
    simpa [InPlace] using this
  obtain ⟨hs, he⟩ := h.shown i _ _ _ hi
  have hsettled := h.settled.finish ops cache hpoint hunit hfresh hlt (h.idLe i _ _ _ hi) hs
    he (h.notShown i _ _ _ hi) contradicted
  have hothers : ∀ j c, ((s.withWorker i (.idle : Worker S J R)).workers j).claim? = some c →
      j ≠ i ∧ (s.workers j).claim? = some c := by
    intro j c hc
    rw [withWorker_workers] at hc
    split at hc
    · simp [Worker.claim?] at hc
    · exact ⟨‹_›, hc⟩
  refine h.of_handBack rfl hsettled ?_ (fun j c hc => (hothers j c hc).2) ?_
  · rcases Board.finish_cases ops cache run contradicted hunit with heq | ⟨b, D, hD, -, heq⟩
    · have hframe := Board.requeue_frame ops cache (b := s.board) run.unit run.journal
      simpa only [heq] using hframe.2.2.2.2.2.2.2
    · simpa only [heq, Board.unblock] using hD.nextRun
  intro v f' hf'
  rcases Board.finish_cases ops cache run contradicted hunit with heq | ⟨b, D, hD, -, heq⟩
  · rw [heq, (Board.requeue_frame ops cache run.unit run.journal).1] at hf'
    exact .inl ⟨f', hf', rfl⟩
  rw [heq] at hf'
  dsimp only at hf'
  by_cases hv : v = run.unit
  · subst hv
    rw [update_self, Option.some.injEq] at hf'
    subst hf'
    right
    intro j u shown hj
    obtain ⟨hne, hj⟩ := hothers j _ hj
    exact hne (h.distinct j i _ _ _ _ _ hj hi)
  · rw [update_of_ne hv] at hf'
    exact .inl ⟨f', hD.finished_of hf', rfl⟩

variable {c : Committer S J R}

lemma standing_record {run : Option ℕ} {own : Option J}
    (hinv : Inv n s) (h : Standing ops s) (hrec : s.committer = .recording unit run own) :
    Standing ops { s with
      committer := c
      board := s.board.commit ops cache unit run own } := by
  have hpoint : s.board.committed = unit := by rw [hinv.point, hrec]; rfl
  have hrun : ∀ f, s.board.finished unit = some f → run = some f.run := by
    intro f hf
    cases run with
    | none =>
      have := hinv.not_other (u := unit) (p := .committer) (q := .finished)
        (by simp [InPlace, hrec, Committer.ownUnit?]) (by simp)
      simp [InPlace, hf] at this
    | some r =>
      obtain ⟨f', hf', hr, -⟩ := hinv.held unit r (by rw [hrec]; rfl)
      rw [hf] at hf'
      rw [Option.some.inj hf', hr]
  obtain ⟨b, D, hD, -, -, heq⟩ := Board.commit_cases ops cache unit run own s.board
  refine h.of_board rfl rfl (h.settled.commit ops cache hpoint hrun own) ?_ ?_
  · simpa only [heq, Board.unblock] using hD.nextRun
  intro v f hf
  simp only [heq, Board.unblock] at hf
  by_cases hv : v = unit
  · simp [hv] at hf
  · rw [update_of_ne hv] at hf
    exact ⟨f, hD.finished_of hf, rfl⟩

lemma standing_take {f} (h : Standing ops s) (hf : s.board.finished unit = some f) :
    Standing ops { s with
      committer := c
      board := { s.board with
        finished := update s.board.finished unit (some { f with src := none }) } } := by
  have hold : ∀ v g', update s.board.finished unit (some { f with src := none }) v =
      some g' → ∃ g, s.board.finished v = some g ∧ g.run = g'.run ∧ g.journal = g'.journal := by
    intro v g' hg'
    by_cases hv : v = unit
    · subst hv
      rw [update_self, Option.some.injEq] at hg'
      exact ⟨f, hf, by rw [← hg'], by rw [← hg']⟩
    · exact ⟨g', by rwa [update_of_ne hv] at hg', rfl, rfl⟩
  have hkept : ∀ v g, s.board.finished v = some g → ∃ g',
      update s.board.finished unit (some { f with src := none }) v = some g' ∧ g'.run = g.run := by
    intro v g hg
    by_cases hv : v = unit
    · subst hv
      rw [hf, Option.some.injEq] at hg
      exact ⟨_, update_self .., by rw [← hg]⟩
    · exact ⟨g, by rwa [update_of_ne hv], rfl⟩
  refine h.of_board rfl rfl (h.settled.congr ops rfl hold hkept rfl rfl rfl) rfl ?_
  intro v g' hg'
  obtain ⟨g, hg, hrun, -⟩ := hold v g' hg'
  exact ⟨g, hg, hrun⟩

lemma standing_takeOver (h : Standing ops s) : Standing ops { s with
      committer := c
      board := (s.board.takeOver unit).noteInOrder } := by
  obtain ⟨hn, hfinished, hr, hc, hnext⟩ := s.board.takeOver_frame unit
  refine h.of_board rfl rfl (h.settled.of_queues ops hn hfinished hr hc hnext) hnext ?_
  intro v f hf
  exact ⟨f, by simpa only [Board.noteInOrder, hfinished] using hf, rfl⟩

lemma standing_refused (h : Standing ops s) : Standing ops { s with
      committer := c
      board := (let b := s.board.discard ops cache unit
        { b with requeued := b.requeued.erase unit }).noteInOrder } := by
  obtain ⟨D, hD, -⟩ := Board.discard_discards ops cache unit s.board
  refine h.of_board rfl rfl ((h.settled.discard ops cache unit).of_queues ops rfl rfl rfl rfl rfl)
    hD.nextRun fun v f hf => ⟨f, hD.finished_of hf, rfl⟩

lemma standing_step {m} {label : Option ℕ} (hinv : Inv n s) (h : Standing m.ops s)
    (hstep : Step m s label s') : Standing m.ops s' := by
  cases hstep with
  | claim _ _ hclaim => exact standing_claim h hclaim rfl
  | leave hidle _ => exact h.of_worker (by simp [Worker.claim?])
  | advance hrun _ | ran hrun _ => exact h.of_worker (by simp [hrun, Worker.claim?])
  | @failed i _ _ _ _ _ _ =>
    have hidle := h.of_worker (i := i) (w := .idle) (by simp [Worker.claim?])
    exact hidle.of_board rfl rfl (h.settled.of_queues m.ops rfl rfl rfl rfl rfl) rfl
      fun v f hf => ⟨f, hf, rfl⟩
  | sample hran => exact h.of_worker (by simp [hran, Worker.claim?])
  | check hs => exact h.of_worker (by simp [hs, Worker.claim?])
  | finish hc _ => exact standing_finish hinv h (by rw [hc]; rfl)
  | resample hc _ => exact h.of_worker (by simp [hc, Worker.claim?])
  | take _ _ hf _ => exact standing_take h hf
  | takeOver _ _ _ _ => exact standing_takeOver h
  | refused _ _ => exact standing_refused h
  | record hrec => exact standing_record hinv h hrec
  | _ => exact h.of_board rfl rfl h.settled rfl fun v f hf => ⟨f, hf, rfl⟩

lemma standing_of_runs {m} {window : ℕ} {log : List ℕ} (h : Runs m n window cache log s) :
    Standing m.ops s := by
  induction h with
  | start => exact standing_init window cache
  | step hr hs ih => exact standing_step (inv_of_runs hr) ih hs

/-- Whenever the lock is free, no finished run rules out a finished run behind it,
and each run that fed a finished one is committed or still finished. -/
theorem finished_stand (m : Preprocessing S J C R) (n window : ℕ) (cache : C) (log : List ℕ)
    (s : System S J C R jobs) (h : Runs m n window cache log s) :
    (∀ u v fu fv ju jv, u < v → s.board.finished u = some fu → s.board.finished v = some fv →
        fu.journal = some ju → fv.journal = some jv → m.ops.rulesOut ju jv = false) ∧
      ∀ v f j, s.board.finished v = some f → f.journal = some j →
        ∀ shown ∈ s.history f.run, m.ops.feeds shown.journal j = true →
          (shown.unit < s.board.committed ∧ s.board.committedRuns shown.unit = some shown.run) ∨
            ∃ f', s.board.finished shown.unit = some f' ∧ f'.run = shown.run := by
  have hsettled := (standing_of_runs h).settled
  refine ⟨hsettled.noRulesOut, ?_⟩
  intro v f j hf hj shown hshown hfeeds
  have hstands : s.board.stands shown = true := by
    by_contra hnot
    exact hsettled.noOrphan v ⟨f, j, hf, hj, shown, hshown, hfeeds, by simpa using hnot⟩
  rcases Board.stands_iff.mp hstands with hfin | hcommitted
  · exact .inr hfin
  · exact .inl ⟨hsettled.recorded _ _ hcommitted, hcommitted⟩

/-- Units that each publish one entry, shown to every unit behind. -/
def chainedUnits : Preprocessing ℕ ℕ Unit ℕ where
  ops := ⟨fun a b => decide (a < b), fun _ _ => false, fun _ _ _ => false, fun _ _ => false⟩
  start := fun unit _ _ => unit
  advance := fun r _ => r
  outcome := fun r => some (some (r, some r))
  commit := fun src _ cache => some (src, cache)

/-- One worker runs both units, the second shown the run of the first. -/
lemma chainedPair_runs : ∃ s : System ℕ ℕ Unit ℕ 1, Runs chainedUnits 2 8 () [] s ∧
    s.board.finished 1 = some ⟨2, some 1, some 1⟩ ∧ s.history 2 = [⟨0, 1, 0⟩] := by
  have h₀ : Runs chainedUnits 2 8 () [] (init 2 8 () : System ℕ ℕ Unit ℕ 1) := .start
  have h₁ := h₀.step (Step.claim (i := 0) rfl (by decide) rfl)
  have h₂ := h₁.step (Step.ran (i := 0) rfl rfl)
  have h₃ := h₂.step (Step.sample (i := 0) rfl)
  have h₄ := h₃.step (Step.check (i := 0) rfl)
  have h₅ := h₄.step (Step.finish (i := 0) rfl (.inr rfl))
  have h₆ := h₅.step (Step.claim (i := 0) rfl (by decide) rfl)
  have h₇ := h₆.step (Step.ran (i := 0) rfl rfl)
  have h₈ := h₇.step (Step.sample (i := 0) rfl)
  have h₉ := h₈.step (Step.check (i := 0) rfl)
  exact ⟨_, h₉.step (Step.finish (i := 0) rfl (.inr rfl)), rfl, rfl⟩

theorem chainedPair_stand : ∃ s : System ℕ ℕ Unit ℕ 1, Runs chainedUnits 2 8 () [] s ∧
    ((0 < s.board.committed ∧ s.board.committedRuns 0 = some 1) ∨
      ∃ f', s.board.finished 0 = some f' ∧ f'.run = 1) := by
  obtain ⟨s, hruns, hfinished, hshown⟩ := chainedPair_runs
  exact ⟨s, hruns, (finished_stand chainedUnits 2 8 () [] s hruns).2 1 _ 1 hfinished rfl
    ⟨0, 1, 0⟩ (by simp [hshown]) rfl⟩

end System
end Pathologist.Discovery

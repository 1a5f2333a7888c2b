import Pathologist.Discovery.Steps

/-!
# Parallel discovery is the serial pass

At every moment of a pass that heeds what `Heeds` asks, the cache holds the lists the
committed units leave one by one, and the stored texts are theirs. A unit that publishes
and then fails is one that does not heed it: its entry is lost.
-/
namespace Pathologist.Discovery
open Expansion Function System.Step
variable {Name Path Def Rest Text : Type*} [DecidableEq Name] [DecidableEq Path]
  {hash : Def → Bool → ℕ} {cap : ℕ} {units : ℕ → SourceUnit Name Path Def Rest Text}
  {ids : ℕ → ℕ → ℕ} {initial : Cache Name Path Rest} {jobs n : ℕ}
  {s s' : Pass Name Path Def Rest Text jobs}
  {order : ExpansionJournal Name Path Def Rest →
    List ((_ : ExpansionKey Path) × List (IncludeExpansion Name Path Rest))}

/-- The cache a pass starts with: one that commits left, its ids none of those the pass
hands out. -/
structure Initial (cap : ℕ) (cache : Cache Name Path Rest) : Prop where
  named : ∃ ident, cache.Named ident
  valid : cache.Valid cap
  closed : cache.Closed
  earlier : ∀ key, ∀ e ∈ cache key, ∀ t m, e.id ≠ Nat.pair (workerTag t) m ∧
    e.id ≠ Nat.pair (hereTag t) m

lemma faithful_init (window : ℕ) (hinitial : Initial cap initial) :
    ∃ ident journals, Faithful hash cap units ids initial ident journals
      (System.init n window initial : Pass Name Path Def Rest Text jobs) := by
  obtain ⟨ident, hn⟩ := hinitial.named
  refine ⟨ident, fun _ => none, ⟨hn, hinitial.valid, hinitial.closed⟩, ?_, ?_, ?_, ?_, ?_, ?_,
    trivial, rfl, ?_⟩
  · exact fun key e he t m hid => absurd hid (hinitial.earlier key e he t m).1
  · exact fun key e he t m hid => absurd hid (hinitial.earlier key e he t m).2
  · simp
  · simp [System.init]
  · simp [System.init, Board.init]
  · exact fun _ => trivial
  · intro v
    exact (if_neg (Nat.not_lt_zero v)).symm

variable {window : ℕ} {log : List ℕ}

lemma HeedingRuns.runs (h : HeedingRuns hash cap order units n window initial log s) :
    System.Runs (expansionPass hash cap order units) n window initial log s := by
  induction h with
  | start => exact .start
  | step _ hs _ ih => exact ih.step hs

lemma faithful_of_runs (ids : ℕ → ℕ → ℕ) (ho : ∀ j, (order j).Perm j.pending.entries)
    (hinitial : Initial cap initial) (h : HeedingRuns hash cap order units n window initial log s) :
    ∃ ident journals, Faithful hash cap units ids initial ident journals s := by
  induction h with
  | start => exact faithful_init window hinitial
  | step hr hs hh ih =>
    obtain ⟨ident, journals, hf⟩ := ih
    exact faithful_step ho (System.inv_of_runs hr.runs)
      (System.standing_of_runs hr.runs) hf hs hh

/-- The program looks up and publishes, and does not fail. -/
def Program.Plain : Program Name Path Def Rest Text → Prop
  | .fail => False
  | .done _ _ => True
  | .act op next => op.Plain ∧ ∀ observation, Program.Plain (next observation)

def SourceUnit.Plain : SourceUnit Name Path Def Rest Text → Prop
  | .asIs _ => True
  | .preprocessed u => Program.Plain u.program

def UnitRun.Plain : UnitRun Name Path Def Rest Text → Prop
  | .asIs _ => True
  | .preprocessing _ _ program _ => Program.Plain program

variable {r : UnitRun Name Path Def Rest Text}

omit [DecidableEq Name] in
lemma UnitRun.Plain.legible (h : r.Plain) (cache : Cache Name Path Rest) : r.Legible cache := by
  cases r with
  | asIs text => trivial
  | preprocessing tag ahead program d =>
    cases program with
    | fail | done text refs => trivial
    | act op next =>
      have hop := h.1
      cases op <;> trivial

omit [DecidableEq Name] in
lemma UnitRun.Plain.failsClean (h : r.Plain) : r.FailsClean := by
  cases r with
  | asIs text => trivial
  | preprocessing tag ahead program d =>
    cases program with
    | fail => exact absurd h id
    | done text refs | act op next => trivial

lemma UnitRun.Plain.advance (h : r.Plain) (cache : Cache Name Path Rest) :
    (r.advance hash cache).Plain := by
  cases r with
  | asIs text => trivial
  | preprocessing tag ahead program d =>
    cases program with
    | fail | done text refs => exact h
    | act op next => exact h.2 _

omit [DecidableEq Name] [DecidableEq Path] in
lemma UnitRun.Plain.start (hunits : ∀ u, (units u).Plain) (unit tag : ℕ)
    (ahead : List (ExpansionJournal Name Path Def Rest)) :
    (UnitRun.start cap units unit tag ahead).Plain := by
  have hunit := hunits unit
  unfold UnitRun.start
  cases hu : units unit with
  | asIs text => trivial
  | preprocessed u =>
    rw [hu] at hunit
    exact hunit

/-- Whatever runs looks up and publishes. -/
structure PlainRuns (s : Pass Name Path Def Rest Text jobs) : Prop where
  workers : ∀ i unit id shown r, s.workers i = .running unit id shown r → r.Plain
  committer : ∀ unit r, s.committer = .running unit r → r.Plain

omit [DecidableEq Name] in
lemma PlainRuns.heeds (h : PlainRuns s) : Heeds s s' where
  worker i unit id shown r _ hi _ _ := (h.workers i unit id shown r hi).legible s.cache
  here unit r _ hc _ _ := (h.committer unit r hc).legible s.cache
  fails unit r hc _ := (h.committer unit r hc).failsClean

omit [DecidableEq Name] [DecidableEq Path] in
lemma PlainRuns.of_worker (h : PlainRuns s) {i : Fin jobs} {w}
    (hw : ∀ unit id shown r, w = .running unit id shown r → r.Plain)
    (hworkers : s'.workers = update s.workers i w) (hc : s'.committer = s.committer) :
    PlainRuns s' := by
  refine ⟨?_, by rw [hc]; exact h.committer⟩
  intro j unit id shown r hj
  rw [hworkers, update_apply] at hj
  split at hj
  · exact hw unit id shown r hj
  · exact h.workers j unit id shown r hj

lemma plainRuns_step {label : Option ℕ} (hu : ∀ u, (units u).Plain) (h : PlainRuns s)
    (hs : System.Step (expansionPass hash cap order units) s label s') : PlainRuns s' := by
  cases hs with
  | claim _ _ _ =>
    refine h.of_worker ?_ rfl rfl
    intro unit id shown r heq
    cases heq
    exact .start hu ..
  | advance hi _ =>
    refine h.of_worker ?_ rfl rfl
    intro unit id shown r heq
    cases heq
    exact (h.workers _ _ _ _ _ hi).advance s.cache
  | leave _ _ | ran _ _ | failed _ _ | sample _ | check _ | finish _ _ =>
    exact h.of_worker (by simp) rfl rfl
  | resample _ _ => exact h.of_worker (by simp) rfl rfl
  | takeOver _ _ _ _ | refused _ _ =>
    refine ⟨h.workers, fun unit r heq => ?_⟩
    cases heq
    exact .start hu ..
  | advanceHere hc _ =>
    refine ⟨h.workers, fun unit r heq => ?_⟩
    cases heq
    exact (h.committer _ _ hc).advance s.cache
  | take _ _ _ _ | commitRaw _ | commit _ _ | hereFailed _ _ | hereRaw _ _ =>
    exact ⟨h.workers, by simp⟩
  | hereCommit _ _ _ | herePanics _ _ _ | record _ => exact ⟨h.workers, by simp⟩

/-- Every pass over such units heeds what `Heeds` asks. -/
lemma heedingRuns_of_plain (hu : ∀ u, (units u).Plain)
    (h : System.Runs (expansionPass hash cap order units) n window initial log s) :
    HeedingRuns hash cap order units n window initial log s ∧ PlainRuns s := by
  induction h with
  | start => exact ⟨.start, by simp [System.init], by simp [System.init]⟩
  | step _ hs ih => exact ⟨ih.1.step hs ih.2.heeds, plainRuns_step hu ih.2 hs⟩

/-- In a pass whose steps heed what `Heeds` asks, the assertion of `run_here` never
fails, the cache holds at every moment the lists that the units committed so far leave
one by one, and what is stored for them is what they produce so; when the pass is over,
that is all of them. -/
theorem heeding_pass_serial (hash : Def → Bool → ℕ) (cap : ℕ)
    (order : ExpansionJournal Name Path Def Rest →
      List ((_ : ExpansionKey Path) × List (IncludeExpansion Name Path Rest)))
    (horder : ∀ j, (order j).Perm j.pending.entries)
    (units : ℕ → SourceUnit Name Path Def Rest Text) (ids : ℕ → ℕ → ℕ) (n window : ℕ)
    (initial : Cache Name Path Rest) (hinitial : Initial cap initial) (log : List ℕ)
    (s : Pass Name Path Def Rest Text jobs)
    (h : HeedingRuns hash cap order units n window initial log s) :
    (∀ unit, s.committer ≠ .panicked unit) ∧
      s.cache.erase = (serialCache hash cap units ids initial s.committer.applied).erase ∧
      (∀ v, s.stored v = if v < s.committer.applied then
        serialProduct hash cap units ids initial v else none) ∧
      (s.committer = .waiting n →
        s.cache.erase = (serialCache hash cap units ids initial n).erase ∧
        ∀ v < n, s.stored v = serialProduct hash cap units ids initial v) := by
  obtain ⟨ident, journals, hfaithful⟩ := faithful_of_runs ids horder hinitial h
  refine ⟨?_, hfaithful.cache_eq, hfaithful.stored_eq, ?_⟩
  · intro unit hpanicked
    have hcommitter := hfaithful.committer
    rw [hpanicked] at hcommitter
    exact hcommitter
  intro hover
  have hcache := hfaithful.cache_eq
  have hstored := hfaithful.stored_eq
  rw [hover] at hcache hstored
  refine ⟨hcache, fun v hv => ?_⟩
  rw [hstored v]
  exact if_pos hv

/-- The expansion of header `0`, which nothing it reads can change. -/
def headerDraft : Draft ℕ ℕ Unit := ⟨0, 5, ⟨false, [], [], [], none⟩, [], ()⟩

/-- The entries of a journal in the order of its table. -/
def tableOrder (j : ExpansionJournal ℕ ℕ ℕ Unit) :
    List ((_ : ExpansionKey ℕ) × List (IncludeExpansion ℕ ℕ Unit)) := j.pending.entries

/-- A unit that publishes the header, and one that looks it up and replays it. -/
def sharingUnits : ℕ → SourceUnit ℕ ℕ ℕ Unit ℕ
  | 0 => .preprocessed ⟨.c, fun _ => none, fun _ => false,
      .act (.publishVariant 0 headerDraft) fun _ => .done 1 []⟩
  | _ => .preprocessed ⟨.c, fun _ => none, fun _ => false,
      .act (.matchingVariant 0) fun _ => .done 2 [(0, 0)]⟩

lemma sharing_runs_first : ∃ s : Pass ℕ ℕ ℕ Unit ℕ 2,
    System.Runs (expansionPass (fun d _ => d) 8 tableOrder sharingUnits) 2 8 (fun _ => [])
      [0] s ∧ s.committer = .waiting 1 ∧ s.board.n = 2 ∧ s.board.next = 1 ∧
    s.board.finished 1 = none ∧ s.cache = update (fun _ => []) (0, .c)
      [⟨Nat.pair (workerTag 1) 0, 5, ⟨false, [], [], [], none⟩, [], ()⟩] := by
  have h₀ : System.Runs (expansionPass (fun d _ => d) 8 tableOrder sharingUnits) 2 8
      (fun _ => []) [] (System.init 2 8 (fun _ => []) : Pass ℕ ℕ ℕ Unit ℕ 2) := .start
  have h₁ := h₀.step (claim (i := 0) rfl (by decide) rfl)
  have h₂ := h₁.step (advance (i := 0) rfl rfl)
  have h₃ := h₂.step (ran (i := 0) rfl rfl)
  have h₄ := h₃.step (sample (i := 0) rfl)
  have h₅ := h₄.step (check (i := 0) rfl)
  have h₆ := h₅.step (finish (i := 0) rfl (.inr rfl))
  have h₇ := h₆.step (take rfl (by decide) rfl rfl)
  have h₈ := h₇.step (commit rfl rfl)
  exact ⟨_, h₈.step (record rfl), rfl, rfl, rfl, rfl, rfl⟩

lemma sharing_runs : ∃ s : Pass ℕ ℕ ℕ Unit ℕ 2,
    System.Runs (expansionPass (fun d _ => d) 8 tableOrder sharingUnits) 2 8 (fun _ => [])
      [0, 1] s ∧ s.committer = .waiting 2 ∧ s.stored 1 = some (2, [(0, .index 0)]) := by
  obtain ⟨⟨board, cache, workers, committer, stored, history⟩, h₀, hc, hn, hnext, hf,
    hcache⟩ := sharing_runs_first
  dsimp only at hc hn hnext hf hcache
  subst hc hcache
  have h₁ := h₀.step (takeOver rfl (by rw [hn]; decide) (by simp [hf]) (.inr (.inr hnext)))
  have h₂ := h₁.step (advanceHere rfl rfl)
  have h₃ := h₂.step (hereCommit rfl rfl rfl)
  exact ⟨_, h₃.step (record rfl), rfl, rfl⟩

lemma initial_empty : Initial 8 (fun _ => [] : Cache ℕ ℕ Unit) where
  named := ⟨fun _ => ⟨(0, .c), 0, ⟨false, [], [], [], none⟩, ()⟩, by simp [Cache.Named]⟩
  valid := by constructor <;> simp
  closed := by simp [Cache.Closed]
  earlier := by simp

lemma sharing_plain (u : ℕ) : (sharingUnits u).Plain := by
  cases u <;> exact ⟨trivial, fun _ => trivial⟩

theorem sharing_pass_serial : ∃ s : Pass ℕ ℕ ℕ Unit ℕ 2,
    s.committer = .waiting 2 ∧ s.stored 1 = some (2, [(0, .index 0)]) ∧ s.cache.erase =
      (serialCache (fun d _ => d) 8 sharingUnits (fun _ m => m) (fun _ => []) 2).erase := by
  obtain ⟨s, hruns, hover, hstored⟩ := sharing_runs
  have hserial := heeding_pass_serial (fun d _ => d) 8 tableOrder (fun j => List.Perm.refl _)
    sharingUnits (fun _ m => m) 2 8 (fun _ => []) initial_empty [0, 1] s
    (heedingRuns_of_plain sharing_plain hruns).1
  exact ⟨s, hover, hstored, (hserial.2.2.2 hover).1⟩

/-- Every pass over units that look up and publish and do not fail is the serial one. -/
theorem plain_pass_serial (ho : ∀ j, (order j).Perm j.pending.entries) (hu : ∀ u, (units u).Plain)
    (ids : ℕ → ℕ → ℕ) (hinitial : Initial cap initial)
    (h : System.Runs (expansionPass hash cap order units) n window initial log s)
    (hover : s.committer = .waiting n) :
    s.cache.erase = (serialCache hash cap units ids initial n).erase ∧
      ∀ v < n, s.stored v = serialProduct hash cap units ids initial v := by
  obtain ⟨ident, journals, hf⟩ :=
    faithful_of_runs ids ho hinitial (heedingRuns_of_plain hu h).1
  have hcache := hf.cache_eq
  have hstored := hf.stored_eq
  rw [hover] at hcache hstored
  exact ⟨hcache, fun v hv => (hstored v).trans (if_pos hv)⟩

theorem sharing_pass_plain : ∃ s : Pass ℕ ℕ ℕ Unit ℕ 2, s.cache.erase =
    (serialCache (fun d _ => d) 8 sharingUnits (fun _ m => m) (fun _ => []) 2).erase := by
  obtain ⟨s, hruns, hover, -⟩ := sharing_runs
  exact ⟨s, (plain_pass_serial (fun _ => .refl _) sharing_plain _ initial_empty hruns hover).1⟩

/-- At every moment the cache is within its bounds and knows what its entries name. -/
theorem stock_of_heedingRuns (ho : ∀ j, (order j).Perm j.pending.entries)
    (hin : Initial cap initial)
    (h : HeedingRuns hash cap order units n window initial log s) :
    ∃ ident, Stock cap ident s.cache := by
  obtain ⟨ident, journals, hf⟩ := faithful_of_runs (fun _ m => m) ho hin h
  exact ⟨ident, hf.stock⟩

theorem stock_of_sharing : ∃ s : Pass ℕ ℕ ℕ Unit ℕ 2,
    s.stored 1 = some (2, [(0, .index 0)]) ∧ ∃ ident, Stock 8 ident s.cache := by
  obtain ⟨s, hruns, -, hstored⟩ := sharing_runs
  exact ⟨s, hstored, stock_of_heedingRuns (fun _ => .refl _) initial_empty
    (heedingRuns_of_plain sharing_plain hruns).1⟩

/-- A unit that publishes a header it is forced to include and then cannot be read, and
a unit that is read as it is. -/
def unreadableUnits : ℕ → SourceUnit ℕ ℕ ℕ Unit ℕ
  | 0 => .preprocessed ⟨.c, fun _ => none, fun _ => false,
      .act (.publishVariant 0 headerDraft) fun _ => .fail⟩
  | _ => .asIs (some 7)

/-- The committing thread runs both units: the entry of the first goes with its journal,
and the cache stays empty where one by one the units leave the header's expansion. -/
theorem unreadable_pass_loses_entry : ∃ s : Pass ℕ ℕ ℕ Unit ℕ 2,
    System.Runs (expansionPass (fun d _ => d) 8 tableOrder unreadableUnits) 2 8 (fun _ => [])
      [0, 1] s ∧ s.committer = .waiting 2 ∧ s.cache (0, .c) = [] ∧
    (serialCache (fun d _ => d) 8 unreadableUnits (fun _ m => m) (fun _ => []) 2 (0, .c)).length
      = 1 := by
  have h₀ : System.Runs (expansionPass (fun d _ => d) 8 tableOrder unreadableUnits) 2 8
      (fun _ => []) [] (System.init 2 8 (fun _ => []) : Pass ℕ ℕ ℕ Unit ℕ 2) := .start
  have h₁ := h₀.step (takeOver rfl (by decide) rfl (.inr (.inr rfl)))
  have h₂ := h₁.step (advanceHere rfl rfl)
  have h₃ := h₂.step (hereFailed rfl rfl)
  have h₄ := h₃.step (record rfl)
  have h₅ := h₄.step (takeOver rfl (by decide) rfl (.inr (.inr rfl)))
  have h₆ := h₅.step (hereRaw rfl rfl)
  exact ⟨_, h₆.step (record rfl), rfl, rfl, rfl⟩

end Pathologist.Discovery

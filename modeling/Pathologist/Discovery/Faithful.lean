import Pathologist.Discovery.Units

/-!
# What a pass has done so far

Every run of the pass is the course of its unit against the caches it met, every
journal that was handed over is stored resolved or not at all, and the cache is the
one the committed units leave one by one.
-/
namespace Pathologist.Discovery
open Expansion Function
variable {Name Path Def Rest Text : Type*} [DecidableEq Name] [DecidableEq Path]

section
variable (hash : Def → Bool → ℕ) (cap : ℕ)

/-- `r` is a run of `unit`, so far. -/
def UnitRun.Follows (ident : ℕ → Identity Name Path Rest)
    (unit : SourceUnit Name Path Def Rest Text) (tag : ℕ)
    (ahead : List (ExpansionJournal Name Path Def Rest)) (cache : Cache Name Path Rest)
    (r : UnitRun Name Path Def Rest Text) : Prop :=
  match unit with
  | .asIs text => r = .asIs text
  | .preprocessed u => ∃ met program ops,
      r = .preprocessing tag ahead program (u.deferred hash cap ahead ops) ∧
      Course hash cap u tag ahead met program ops ∧ met.Grows cache ∧
      ∀ o ∈ ops, o.2.Named ident u.language

/-- A run of `unit` handed over `product` and `journal`. -/
def HandsOver (ident : ℕ → Identity Name Path Rest)
    (unit : SourceUnit Name Path Def Rest Text) (tag : ℕ)
    (ahead : List (ExpansionJournal Name Path Def Rest)) (cache : Cache Name Path Rest)
    (product : Product Text Path) (journal : Option (ExpansionJournal Name Path Def Rest)) :
    Prop :=
  match unit with
  | .asIs text => text.map (fun text => (text, [])) = some product ∧ journal = none
  | .preprocessed u => ∃ met text refs ops,
      Course hash cap u tag ahead met (.done text refs) ops ∧ met.Grows cache ∧
      (∀ o ∈ ops, o.2.Named ident u.language) ∧
      product = (text, recordsOf (u.deferred hash cap ahead ops).answers refs) ∧
      journal = some (u.deferred hash cap ahead ops).finished

end

/-- A journal that was handed over by the worker run `run`: its entries are what their
ids stand for, and those stored by now are stored with their records by index. -/
structure Kept (ident : ℕ → Identity Name Path Rest) (cache : Cache Name Path Rest) (run : ℕ)
    (j : ExpansionJournal Name Path Def Rest) : Prop where
  named : ∀ key, ∀ e ∈ j.own key, Names ident key e
  closed : j.Closed cache
  tagged : ∀ key, ∀ e ∈ j.own key, ∃ n, e.id = Nat.pair (workerTag run) n
  stored : ∀ key, ∀ e ∈ j.own key, ∀ e' ∈ cache key, e'.id = e.id → Resolved cache.ids key.2 e e'

/-- The expansion cache between two commits. -/
structure Stock (cap : ℕ) (ident : ℕ → Identity Name Path Rest) (cache : Cache Name Path Rest) :
    Prop where
  named : cache.Named ident
  valid : cache.Valid cap
  closed : cache.Closed

section
variable {hash : Def → Bool → ℕ} {cap : ℕ} {ident : ℕ → Identity Name Path Rest}
  {unit : SourceUnit Name Path Def Rest Text} {tag : ℕ}
  {ahead : List (ExpansionJournal Name Path Def Rest)} {cache cache' : Cache Name Path Rest}
  {product : Product Text Path} {journal : Option (ExpansionJournal Name Path Def Rest)}
  {r : UnitRun Name Path Def Rest Text} {u : TranslationUnit Name Path Def Rest Text}

lemma UnitRun.Follows.mono (h : r.Follows hash cap ident unit tag ahead cache)
    (hg : cache.Grows cache') : r.Follows hash cap ident unit tag ahead cache' := by
  cases unit with
  | asIs text => exact h
  | preprocessed u =>
    obtain ⟨met, program, ops, hr, hc, hmet, hops⟩ := h
    exact ⟨met, program, ops, hr, hc, hmet.trans hg, hops⟩

lemma HandsOver.mono (h : HandsOver hash cap ident unit tag ahead cache product journal)
    (hg : cache.Grows cache') : HandsOver hash cap ident unit tag ahead cache' product journal := by
  cases unit with
  | asIs text => exact h
  | preprocessed u =>
    obtain ⟨met, text, refs, ops, hc, hmet, hr⟩ := h
    exact ⟨met, text, refs, ops, hc, hmet.trans hg, hr⟩

lemma follows_start (units : ℕ → SourceUnit Name Path Def Rest Text) (n : ℕ) :
    (UnitRun.start cap units n tag ahead).Follows hash cap ident (units n) tag ahead cache := by
  unfold UnitRun.start
  cases units n with
  | asIs text => rfl
  | preprocessed u =>
    exact ⟨fun _ => [], u.program, [], rfl, .start, fun _ => List.nil_prefix, by simp⟩

lemma UnitRun.Follows.handsOver (h : r.Follows hash cap ident unit tag ahead cache)
    (hd : r.outcome = some (some (product, journal))) :
    HandsOver hash cap ident unit tag ahead cache product journal := by
  cases unit with
  | asIs text =>
    subst h
    cases text with
    | none => simp [UnitRun.outcome] at hd
    | some text =>
      obtain ⟨rfl, rfl⟩ := hd
      exact ⟨rfl, rfl⟩
  | preprocessed u =>
    obtain ⟨met, program, ops, rfl, hc, hmet, hops⟩ := h
    cases program with
    | fail | act op next => simp [UnitRun.outcome] at hd
    | done text refs =>
      obtain ⟨rfl, rfl⟩ := hd
      exact ⟨met, text, refs, ops, hc, hmet, hops, rfl, rfl⟩

variable {ident' : ℕ → Identity Name Path Rest}

lemma named_retitle {met program} {ops} (hc : Course hash cap u tag ahead met program ops)
    (hs : ∀ n < ops.length, ident' (Nat.pair tag n) = ident (Nat.pair tag n))
    (hops : ∀ o ∈ ops, o.2.Named ident u.language) : ∀ o ∈ ops, o.2.Named ident' u.language := by
  rintro ⟨cache, op⟩ ho
  have hnamed := hops _ ho
  cases op with
  | publishVariant path draft =>
    obtain ⟨n, hn, hid⟩ := hc.draft_id ho
    simp only [Op.Named, hid] at hnamed ⊢
    rw [hs n hn]
    exact hnamed
  | define | undef | provideSystemHeader | matchingVariant | recordedEntry | sameRecord =>
    trivial

lemma UnitRun.Follows.retitle (h : r.Follows hash cap ident unit tag ahead cache)
    (hs : ∀ n, ident' (Nat.pair tag n) = ident (Nat.pair tag n)) :
    r.Follows hash cap ident' unit tag ahead cache := by
  cases unit with
  | asIs text => exact h
  | preprocessed u =>
    obtain ⟨met, program, ops, hr, hc, hmet, hops⟩ := h
    exact ⟨met, program, ops, hr, hc, hmet, named_retitle hc (fun n _ => hs n) hops⟩

lemma HandsOver.retitle (h : HandsOver hash cap ident unit tag ahead cache product journal)
    (hs : ∀ n, ident' (Nat.pair tag n) = ident (Nat.pair tag n)) :
    HandsOver hash cap ident' unit tag ahead cache product journal := by
  cases unit with
  | asIs text => exact h
  | preprocessed u =>
    obtain ⟨met, text, refs, ops, hc, hmet, hops, hr⟩ := h
    exact ⟨met, text, refs, ops, hc, hmet,
      named_retitle hc (fun n _ => hs n) hops, hr⟩

variable {j : ExpansionJournal Name Path Def Rest}

omit [DecidableEq Name] in
lemma Kept.retitle {run : ℕ} (h : Kept ident cache run j)
    (hs : ∀ n, ident' (Nat.pair (workerTag run) n) = ident (Nat.pair (workerTag run) n)) :
    Kept ident' cache run j := by
  refine ⟨fun key e he => ?_, h.closed, h.tagged, h.stored⟩
  obtain ⟨n, hn⟩ := h.tagged key e he
  have hid : ident' e.id = ident e.id := by rw [hn]; exact hs n
  exact hid.trans (h.named key e he)

/-- An exchange of a run, its new id given to the entry it publishes. -/
lemma UnitRun.Follows.advance (h : r.Follows hash cap ident unit tag ahead cache)
    (hr : r.outcome = none) (hl : r.Legible cache) (hranged : Ranged ahead cache) :
    ∃ ident' n, (∀ id, id ≠ Nat.pair tag n → ident' id = ident id) ∧
      r.Follows hash cap ident' unit tag ahead cache ∧
      (r.advance hash cache).Follows hash cap ident' unit tag ahead cache := by
  cases unit with
  | asIs text =>
    subst h
    simp [UnitRun.outcome] at hr
  | preprocessed u =>
    obtain ⟨met, program, ops, rfl, hc, hmet, hops⟩ := h
    cases program with
    | fail | done text refs => simp [UnitRun.outcome] at hr
    | act op next =>
      have hlength : (u.deferred hash cap ahead ops).answers.length = ops.length :=
        TranslationUnit.deferred_answers_length
      simp only [UnitRun.Legible, hlength] at hl
      obtain ⟨ident', hother, hnamed⟩ : ∃ ident' : ℕ → Identity Name Path Rest,
          (∀ id, id ≠ Nat.pair tag ops.length → ident' id = ident id) ∧
          (op.withId (Nat.pair tag ops.length)).Named ident' u.language := by
        cases op with
        | publishVariant path draft =>
          refine ⟨update ident (Nat.pair tag ops.length)
            ⟨(path, u.language), draft.signature, draft.deps, draft.rest⟩, ?_, ?_⟩
          · exact fun id hid => update_of_ne hid ..
          · exact update_self ..
        | define | undef | provideSystemHeader | matchingVariant | recordedEntry | sameRecord =>
          exact ⟨ident, fun _ _ => rfl, trivial⟩
      have hops' : ∀ o ∈ ops, o.2.Named ident' u.language := by
        refine named_retitle hc (fun n hn => hother _ ?_) hops
        rw [Ne, Nat.pair_eq_pair]
        omega
      refine ⟨ident', ops.length, hother, ⟨met, _, ops, rfl, hc, hmet, hops'⟩, ?_⟩
      refine ⟨cache, _, ops ++ [(cache, op.withId (Nat.pair tag ops.length))], ?_,
        hc.act hmet hranged hl, .refl _, ?_⟩
      · simp [UnitRun.advance, hlength, TranslationUnit.deferred_append]
      intro o ho
      rcases List.mem_append.mp ho with ho | ho
      · exact hops' o ho
      · rw [List.mem_singleton.mp ho]
        exact hnamed

/-- The journals a run was shown were handed over by workers. -/
def AllKept (ident : ℕ → Identity Name Path Rest) (cache : Cache Name Path Rest)
    (ahead : List (ExpansionJournal Name Path Def Rest)) : Prop :=
  ∀ a ∈ ahead, ∃ run, Kept ident cache run a

omit [DecidableEq Name] in
lemma AllKept.setting (h : AllKept ident cache ahead) (hs : Stock cap ident cache)
    (language : Language) : Setting cap language ident ahead cache where
  named := hs.named
  valid := hs.valid
  aheadNamed a ha := by
    obtain ⟨run, hk⟩ := h a ha
    exact hk.named
  aheadStored a ha path := by
    obtain ⟨run, hk⟩ := h a ha
    exact hk.stored (path, language)

omit [DecidableEq Name] in
lemma AllKept.ranged (h : AllKept ident cache ahead) (hs : Stock cap ident cache) :
    Ranged ahead cache := by
  refine ⟨hs.closed, fun a ha => ?_⟩
  obtain ⟨run, hk⟩ := h a ha
  exact hk.closed

/-- The journal of a run none of whose entries is stored yet. -/
lemma HandsOver.kept {run : ℕ}
    (h : HandsOver hash cap ident unit (workerTag run) ahead cache product (some j))
    (hs : Stock cap ident cache) (ha : AllKept ident cache ahead)
    (hf : ∀ key, ∀ e ∈ cache key, ∀ n, e.id ≠ Nat.pair (workerTag run) n) :
    Kept ident cache run j := by
  cases unit with
  | asIs text => exact absurd h.2 (by simp)
  | preprocessed u =>
    obtain ⟨met, text, refs, ops, hcourse, hmet, hops, -, hj⟩ := h
    cases hj
    have hsetting := ha.setting hs u.language
    obtain ⟨hk, hc⟩ := hcourse.known_consistent
      (fun key e he => hs.named key e ((hmet key).subset he)) hsetting.aheadNamed hops
    have htagged : ∀ key, ∀ e ∈ (u.deferred hash cap ahead ops).finished.own key,
        ∃ n, e.id = Nat.pair (workerTag run) n := by
      intro key e he
      obtain ⟨-, n, -, hid⟩ := hcourse.own_ids he
      exact ⟨n, hid⟩
    refine ⟨hc.ownNamed, (hk.mono hmet).journal, htagged, ?_⟩
    intro key e he e' he' hid
    obtain ⟨n, hn⟩ := htagged key e he
    exact absurd (hid.trans hn) (hf key e' he' n)

/-- A journal that agrees with the cache commits, and leaves what its unit, run on the
cache, leaves. -/
lemma HandsOver.commit (h : HandsOver hash cap ident unit tag ahead cache product (some j))
    (hs : Stock cap ident cache) (hahead : AllKept ident cache ahead)
    (ha : j.agrees hash cache true = true) {pending} (hp : pending.Perm j.pending.entries) :
    ∃ u cache' replayed, unit = .preprocessed u ∧
      j.commit hash pending cache product.2 = (true, cache', replayed) ∧
      Committed hash cap u tag ident cache cache' j (product.1, replayed) := by
  cases unit with
  | asIs text => exact absurd h.2 (by simp)
  | preprocessed u =>
    obtain ⟨met, text, refs, ops, hcourse, hmet, hops, rfl, hj⟩ := h
    cases hj
    obtain ⟨cache', replayed, hcommit, hc⟩ := hcourse.commit hmet
      (hahead.setting hs u.language) hs.closed hops ha hp
    exact ⟨u, cache', replayed, rfl, hcommit, hc⟩

/-- A commit, of the run that handed it over or of another. -/
lemma Kept.committed {run : ℕ} {j'} (h : Kept ident cache run j')
    (hc : Committed hash cap u tag ident cache cache' j product)
    (ho : tag = workerTag run → j = j') : Kept ident cache' run j' where
  named := h.named
  closed := h.closed.mono hc.grows
  tagged := h.tagged
  stored key e he e' he' hid := by
    by_cases htag : tag = workerTag run
    · rw [← ho htag] at he
      exact hc.resolved key e he e' he' hid
    rcases hc.new key e' he' with hold | ⟨n, hn⟩
    · refine (h.stored key e he e' hold hid).mono fun k => ?_
      exact (hc.grows k).map _
    · obtain ⟨m, hm⟩ := h.tagged key e he
      rw [hm, hn, Nat.pair_eq_pair] at hid
      exact absurd hid.1 htag

end

section
variable {hash : Def → Bool → ℕ} {cap : ℕ} {units : ℕ → SourceUnit Name Path Def Rest Text}
  {ids : ℕ → ℕ → ℕ} {initial cache cache' : Cache Name Path Rest}

lemma SourceUnit.direct_erase (unit : SourceUnit Name Path Def Rest Text)
    (ids : ℕ → ℕ) (cache : Cache Name Path Rest) :
    unit.direct hash cap (fun _ => 0) cache.erase =
      ((unit.direct hash cap ids cache).1, (unit.direct hash cap ids cache).2.erase) := by
  cases unit with
  | asIs text => rfl
  | preprocessed u => exact u.program.direct_erase ids (.start u.macros u.fallbacks cache)

/-- One more unit: only the lists matter, not the ids in them. -/
lemma serial_step {n : ℕ} {tag} {product}
    (hc : cache.erase = (serialCache hash cap units ids initial n).erase)
    (hd : (units n).direct hash cap tag cache = (product, cache')) :
    serialProduct hash cap units ids initial n = product ∧
      cache'.erase = (serialCache hash cap units ids initial (n + 1)).erase := by
  have hours : (units n).direct hash cap (fun _ => 0) cache.erase = _ :=
    (units n).direct_erase tag cache
  rw [hd, hc, (units n).direct_erase (ids n)] at hours
  simp only [Prod.mk.injEq] at hours
  exact ⟨hours.1, hours.2.symm⟩

end

section
variable (hash : Def → Bool → ℕ) (cap : ℕ) (units : ℕ → SourceUnit Name Path Def Rest Text)
  (ident : ℕ → Identity Name Path Rest)
  (journals : ℕ → Option (ExpansionJournal Name Path Def Rest)) (cache : Cache Name Path Rest)
  (history : ℕ → List (Shown (ExpansionJournal Name Path Def Rest)))

def Worker.Faithful : Worker (Product Text Path) (ExpansionJournal Name Path Def Rest)
    (UnitRun Name Path Def Rest Text) → Prop
  | .idle | .gone => True
  | .running unit id shown r =>
    r.Follows hash cap ident (units unit) (workerTag id) (shown.map Shown.journal) cache
  | .ran run | .sampled run _ | .checked run _ _ =>
    HandsOver hash cap ident (units run.unit) (workerTag run.id) (run.shown.map Shown.journal)
      cache run.src run.journal

/-- The run handed over what it says, and `journals` knows its journal. -/
def HandedOver (unit run : ℕ) (product : Product Text Path)
    (journal : Option (ExpansionJournal Name Path Def Rest)) : Prop :=
  HandsOver hash cap ident (units unit) (workerTag run) ((history run).map Shown.journal) cache
    product journal ∧ ∀ j, journal = some j → journals run = some j

def Finished.Faithful (unit : ℕ)
    (f : Finished (Product Text Path) (ExpansionJournal Name Path Def Rest)) : Prop :=
  ∃ product, (∀ src, f.src = some src → src = product) ∧
    HandedOver hash cap units ident journals cache history unit f.run product f.journal

/-- The run has been shown the cache as it is, all along. -/
def UnitRun.Here (cache : Cache Name Path Rest) : UnitRun Name Path Def Rest Text → Prop
  | .asIs _ => True
  | .preprocessing _ _ _ d => Undisturbed cache d.journal

def Committer.Faithful : Committer (Product Text Path) (ExpansionJournal Name Path Def Rest)
    (UnitRun Name Path Def Rest Text) → Prop
  | .waiting _ | .recording _ _ _ => True
  | .taken unit run src journal =>
    HandedOver hash cap units ident journals cache history unit run src journal
  | .running unit r =>
    r.Follows hash cap ident (units unit) (hereTag unit) [] cache ∧ r.Here cache
  | .panicked _ => False

end

/-- How many units the cache has the entries of. -/
def Committer.applied {S J R : Type*} : Committer S J R → ℕ
  | .recording unit _ _ => unit + 1
  | c => c.unit

/-- The run was handed out, and no worker has it any more. -/
def System.Spent {S J C R : Type*} {jobs : ℕ} (s : System S J C R jobs) (run : ℕ) : Prop :=
  run ≤ s.board.nextRun ∧ ∀ i u shown, (s.workers i).claim? ≠ some (u, run, shown)

/-- The pass so far. `ident` says what the ids handed out stand for, `journals` what
each worker run handed over. -/
structure Faithful {jobs : ℕ} (hash : Def → Bool → ℕ) (cap : ℕ)
    (units : ℕ → SourceUnit Name Path Def Rest Text) (ids : ℕ → ℕ → ℕ)
    (initial : Cache Name Path Rest) (ident : ℕ → Identity Name Path Rest)
    (journals : ℕ → Option (ExpansionJournal Name Path Def Rest))
    (s : Pass Name Path Def Rest Text jobs) : Prop where
  stock : Stock cap ident s.cache
  workerTags : ∀ key, ∀ e ∈ s.cache key, ∀ run n, e.id = Nat.pair (workerTag run) n → s.Spent run
  hereTags : ∀ key, ∀ e ∈ s.cache key, ∀ u n, e.id = Nat.pair (hereTag u) n →
    u < s.committer.applied
  kept : ∀ run j, journals run = some j → s.Spent run ∧ Kept ident s.cache run j
  shown : ∀ id, ∀ w ∈ s.history id, journals w.run = some w.journal
  finished : ∀ u f, s.board.finished u = some f →
    f.Faithful hash cap units ident journals s.cache s.history u
  workers : ∀ i, (s.workers i).Faithful hash cap units ident s.cache
  committer : s.committer.Faithful hash cap units ident journals s.cache s.history
  cache_eq : s.cache.erase = (serialCache hash cap units ids initial s.committer.applied).erase
  stored_eq : ∀ v, s.stored v =
    if v < s.committer.applied then serialProduct hash cap units ids initial v else none

end Pathologist.Discovery

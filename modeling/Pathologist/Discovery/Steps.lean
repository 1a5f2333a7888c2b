import Pathologist.Discovery.Faithful

/-!
# The steps of a faithful pass

Each step of a pass that heeds what `Heeds` asks keeps `Faithful`: what a thread does
alone, an exchange and the id it hands out, a run that joins the finished ones, a commit.
-/
namespace Pathologist.Discovery
open Expansion Function
variable {Name Path Def Rest Text : Type*} [DecidableEq Name] [DecidableEq Path]
  {hash : Def → Bool → ℕ} {cap : ℕ} {units : ℕ → SourceUnit Name Path Def Rest Text}
  {ids : ℕ → ℕ → ℕ} {initial : Cache Name Path Rest} {ident : ℕ → Identity Name Path Rest}
  {journals : ℕ → Option (ExpansionJournal Name Path Def Rest)} {jobs n : ℕ}
  {s s' : Pass Name Path Def Rest Text jobs}
  {ops : JournalOps (ExpansionJournal Name Path Def Rest) (Cache Name Path Rest)}
variable {ahead : List (ExpansionJournal Name Path Def Rest)}
  {unit : SourceUnit Name Path Def Rest Text}

lemma System.Spent.of_claims {S J C R : Type*} {s s' : System S J C R jobs} {run : ℕ}
    (h : s.Spent run) (hn : s.board.nextRun ≤ s'.board.nextRun)
    (hc : ∀ i u shown, (s'.workers i).claim? = some (u, run, shown) →
      (s.workers i).claim? = some (u, run, shown)) : s'.Spent run :=
  ⟨h.1.trans hn, fun i u shown hi => h.2 i u shown (hc i u shown hi)⟩

lemma System.Standing.spent {S J C R : Type*} {s : System S J C R jobs} {ops : JournalOps J C}
    (h : System.Standing ops s) {u : ℕ} {f : Finished S J} (hf : s.board.finished u = some f) :
    s.Spent f.run :=
  ⟨h.settled.runLe u f hf, fun i v shown hi => h.notFinished i v f.run shown hi u f hf rfl⟩

lemma workerTag_ne_hereTag (run unit : ℕ) : workerTag run ≠ hereTag unit := fun heq => by
  simpa using (Nat.pair_eq_pair.mp heq).1

section
variable {unit : SourceUnit Name Path Def Rest Text} {tag : ℕ} {cache : Cache Name Path Rest}
  {r : UnitRun Name Path Def Rest Text}

lemma deferred_agrees {u : TranslationUnit Name Path Def Rest Text}
    {opsMade : List (Cache Name Path Rest × Op Name Path Def Rest)}
    (hhere : Undisturbed cache (u.deferred hash cap [] opsMade).journal) (hv : cache.Valid cap) :
    (u.deferred hash cap [] opsMade).finished.agrees hash cache true = true := by
  have hundisturbed : Undisturbed cache (u.deferred hash cap [] opsMade).finished :=
    ⟨hhere.view, hhere.room⟩
  refine hundisturbed.agrees ?_
  have hcap : (u.deferred hash cap [] opsMade).finished.cap = cap :=
    (Deferred.grows_run (Deferred.start cap u.language u.macros u.fallbacks) opsMade).cap
  rw [hcap]
  exact hv

omit [DecidableEq Name] in
lemma UnitRun.Here.start (n : ℕ) : (UnitRun.start cap units n tag []).Here cache := by
  unfold UnitRun.start
  cases units n with
  | asIs text => trivial
  | preprocessed u => exact Undisturbed.new cap u.language

variable (hhere : r.Here cache)
include hhere

variable (hfollows : r.Follows hash cap ident unit tag [] cache)
include hfollows

lemma UnitRun.Here.advance : (r.advance hash cache).Here cache := by
  cases unit with
  | asIs text =>
    subst hfollows
    trivial
  | preprocessed u =>
    obtain ⟨met, program, made, rfl, -⟩ := hfollows
    cases program with
    | fail | done text refs => exact hhere
    | act op next => exact Undisturbed.step hhere _

/-- Nothing is committed while the committing thread runs a unit, so its run stands. -/
lemma UnitRun.Here.agrees (hv : cache.Valid cap) {product : Product Text Path}
    {j : ExpansionJournal Name Path Def Rest} (hd : r.outcome = some (some (product, some j))) :
    j.agrees hash cache true = true := by
  cases unit with
  | asIs text =>
    subst hfollows
    simp [UnitRun.outcome] at hd
  | preprocessed u =>
    obtain ⟨met, program, made, rfl, -⟩ := hfollows
    cases program with
    | fail | act op next => simp [UnitRun.outcome] at hd
    | done text refs =>
      simp only [UnitRun.outcome, Option.some.injEq, Prod.mk.injEq] at hd
      rw [← hd.2]
      exact deferred_agrees hhere hv

/-- A run of the committing thread that fails having kept nothing back. -/
lemma UnitRun.Here.fails (hs : Stock cap ident cache) (hd : r.outcome = some none)
    (hclean : r.FailsClean) : unit.direct hash cap (Nat.pair tag) cache = (none, cache) := by
  cases unit with
  | asIs text =>
    subst hfollows
    cases text with
    | none => rfl
    | some text => simp [UnitRun.outcome] at hd
  | preprocessed u =>
    obtain ⟨met, program, made, rfl, hc, hmet, hn⟩ := hfollows
    cases program with
    | done text refs | act op next => simp [UnitRun.outcome] at hd
    | fail =>
      have hkept : AllKept ident cache ([] : List (ExpansionJournal Name Path Def Rest)) := by
        simp [AllKept]
      exact hc.direct_fail hmet (hkept.setting hs u.language) hn
        (deferred_agrees hhere hs.valid) hclean

end

/-- The run the committing thread took is handed out no longer. -/
lemma System.Standing.taken_spent {S J C R : Type*} {s : System S J C R jobs} {ops : JournalOps J C}
    (h : System.Standing ops s) (hinv : System.Inv n s) {u run : ℕ} {src : S} {journal : Option J}
    (hc : s.committer = .taken u run src journal) : s.Spent run := by
  obtain ⟨f, hf, rfl, -⟩ := hinv.held u run (by rw [hc]; rfl)
  exact h.spent hf

section
variable {ident' : ℕ → Identity Name Path Rest} {cache cache' : Cache Name Path Rest}
  {journals' : ℕ → Option (ExpansionJournal Name Path Def Rest)}
  {history history' : ℕ → List (Shown (ExpansionJournal Name Path Def Rest))}

/-- What was handed over stays so in a later pass that says the same of the run. -/
lemma HandedOver.later {unit run : ℕ} {product} {journal}
    (h : HandedOver hash cap units ident journals cache history unit run product journal)
    (hident : ∀ m, ident' (Nat.pair (workerTag run) m) = ident (Nat.pair (workerTag run) m))
    (hj : journals' run = journals run) (hg : cache.Grows cache')
    (hh : history' run = history run) :
    HandedOver hash cap units ident' journals' cache' history' unit run product journal := by
  unfold HandedOver
  rw [hh, hj]
  exact ⟨(h.1.mono hg).retitle hident, h.2⟩

lemma Finished.Faithful.later {unit : ℕ}
    {f : Finished (Product Text Path) (ExpansionJournal Name Path Def Rest)}
    (h : f.Faithful hash cap units ident journals cache history unit)
    (hident : ∀ m, ident' (Nat.pair (workerTag f.run) m) = ident (Nat.pair (workerTag f.run) m))
    (hj : journals' f.run = journals f.run) (hg : cache.Grows cache')
    (hh : history' f.run = history f.run) :
    f.Faithful hash cap units ident' journals' cache' history' unit := by
  obtain ⟨product, hp, ho⟩ := h
  exact ⟨product, hp, ho.later hident hj hg hh⟩

lemma Worker.Faithful.later {w : Worker (Product Text Path) (ExpansionJournal Name Path Def Rest)
      (UnitRun Name Path Def Rest Text)} (h : w.Faithful hash cap units ident cache)
    (hident : ∀ u id shown, w.claim? = some (u, id, shown) → ∀ m,
      ident' (Nat.pair (workerTag id) m) = ident (Nat.pair (workerTag id) m))
    (hg : cache.Grows cache') : w.Faithful hash cap units ident' cache' := by
  cases w with
  | idle | gone => trivial
  | running unit id shown r =>
    exact UnitRun.Follows.retitle (UnitRun.Follows.mono h hg) (hident unit id shown rfl)
  | ran run | sampled run commits | checked run commits contradicted =>
    exact HandsOver.retitle (HandsOver.mono h hg) (hident _ _ _ rfl)

/-- The committing thread, while it takes no step, in a later pass with the same cache. -/
lemma Committer.Faithful.later
    {c : Committer (Product Text Path) (ExpansionJournal Name Path Def Rest)
      (UnitRun Name Path Def Rest Text)}
    (h : c.Faithful hash cap units ident journals cache history)
    (hident : ∀ u run src journal, c = .taken u run src journal → ∀ m,
      ident' (Nat.pair (workerTag run) m) = ident (Nat.pair (workerTag run) m))
    (hhere : ∀ u m, ident' (Nat.pair (hereTag u) m) = ident (Nat.pair (hereTag u) m))
    (ht : ∀ u run src journal, c = .taken u run src journal →
      journals' run = journals run ∧ history' run = history run) :
    c.Faithful hash cap units ident' journals' cache history' := by
  cases c with
  | waiting unit | recording unit run own => trivial
  | taken unit run src journal =>
    obtain ⟨hj, hh⟩ := ht unit run src journal rfl
    exact HandedOver.later h (hident unit run src journal rfl) hj (.refl _) hh
  | running unit r => exact ⟨h.1.retitle (hhere unit), h.2⟩
  | panicked unit => exact h

end

variable {cache : Cache Name Path Rest}

lemma UnitRun.advance_ne {r : UnitRun Name Path Def Rest Text} (hr : r.outcome = none) :
    r.advance hash cache ≠ r := by
  cases r with
  | asIs text => simp [UnitRun.outcome] at hr
  | preprocessing tag ahead program d =>
    cases program with
    | fail | done text refs => simp [UnitRun.outcome] at hr
    | act op next =>
      intro heq
      simp only [UnitRun.advance, UnitRun.preprocessing.injEq] at heq
      have hlength := congrArg (fun d => d.answers.length) heq.2.2.2
      simp [Deferred.step] at hlength

variable {order : ExpansionJournal Name Path Def Rest →
  List ((_ : ExpansionKey Path) × List (IncludeExpansion Name Path Rest))}

lemma HandsOver.expansionPass (units : ℕ → SourceUnit Name Path Def Rest Text) {tag : ℕ} {src j}
    (h : HandsOver hash cap ident unit tag ahead cache src (some j)) (hs : Stock cap ident cache)
    (hahead : AllKept ident cache ahead) (ha : j.agrees hash cache true = true)
    (ho : (order j).Perm j.pending.entries) : ∃ u src' cache', unit = .preprocessed u ∧
      (Discovery.expansionPass hash cap order units).commit src j cache = some (src', cache') ∧
      Committed hash cap u tag ident cache cache' j src' := by
  obtain ⟨u, cache', replayed, hu, hcommit, hc⟩ := h.commit hs hahead ha ho
  refine ⟨u, (src.1, replayed), cache', hu, ?_, hc⟩
  simp [Discovery.expansionPass, hcommit]

namespace Faithful
variable (h : Faithful hash cap units ids initial ident journals s)
variable {run : Run (Product Text Path) (ExpansionJournal Name Path Def Rest)}
variable {shown : List (Shown (ExpansionJournal Name Path Def Rest))}
variable {product : Option (Product Text Path)}
include h

/-- A step that leaves the cache as it is and commits nothing. -/
lemma frame (hc : s'.cache = s.cache) (hh : s'.history = s.history) (hs : s'.stored = s.stored)
    (ha : s'.committer.applied = s.committer.applied) (hn : s'.board.nextRun = s.board.nextRun)
    (hclaims : ∀ i c, (s'.workers i).claim? = some c → (s.workers i).claim? = some c)
    (hf : ∀ u f, s'.board.finished u = some f →
      f.Faithful hash cap units ident journals s.cache s.history u)
    (hw : ∀ i, (s'.workers i).Faithful hash cap units ident s.cache)
    (hcommitter : s'.committer.Faithful hash cap units ident journals s.cache s.history) :
    Faithful hash cap units ids initial ident journals s' := by
  have hspent : ∀ run, s.Spent run → s'.Spent run := fun run hrun =>
    hrun.of_claims hn.ge fun i u shown => hclaims i _
  refine ⟨hc ▸ h.stock, ?_, ?_, ?_, hh ▸ h.shown, ?_, hc ▸ hw, ?_, ?_, ?_⟩
  · rw [hc]
    exact fun key e he run m hid => hspent run (h.workerTags key e he run m hid)
  · rw [hc, ha]
    exact h.hereTags
  · rw [hc]
    exact fun run j hj => ⟨hspent run (h.kept run j hj).1, (h.kept run j hj).2⟩
  · rw [hc, hh]
    exact hf
  · rw [hc, hh]
    exact hcommitter
  · rw [hc, ha]
    exact h.cache_eq
  · rw [hs, ha]
    exact h.stored_eq

variable {i : Fin jobs}

lemma of_worker {w} (hclaim : ∀ c, w.claim? = some c → (s.workers i).claim? = some c)
    (hw : w.Faithful hash cap units ident s.cache) :
    Faithful hash cap units ids initial ident journals (s.withWorker i w) := by
  refine h.frame rfl rfl rfl rfl rfl ?_ h.finished ?_ h.committer
  · intro j c hc
    rw [System.withWorker_workers] at hc
    split at hc
    · next hji => exact hji ▸ hclaim c hc
    · exact hc
  · intro j
    rw [System.withWorker_workers]
    split
    · exact hw
    · exact h.workers j

/-- The journals a run was shown were handed over. -/
lemma allKept (id : ℕ) : AllKept ident s.cache ((s.history id).map Shown.journal) := by
  intro a ha
  obtain ⟨w, hw, rfl⟩ := List.mem_map.mp ha
  exact ⟨w.run, (h.kept w.run w.journal (h.shown id w hw)).2⟩

variable {b : Board (Product Text Path) (ExpansionJournal Name Path Def Rest)}

/-- A step of the committing thread that commits nothing. Finished runs may go. -/
lemma of_board {c} (hn : b.nextRun = s.board.nextRun)
    (hfinished : ∀ u f, b.finished u = some f → s.board.finished u = some f)
    (ha : c.applied = s.committer.applied)
    (hcommitter : c.Faithful hash cap units ident journals s.cache s.history) :
    Faithful hash cap units ids initial ident journals { s with board := b, committer := c } :=
  h.frame rfl rfl rfl ha hn (fun _ _ hc => hc)
    (fun u f hf => h.finished u f (hfinished u f hf)) h.workers hcommitter

variable {unit : ℕ}

lemma claim (hinv : System.Inv n s) (hs : System.Standing ops s) {id : ℕ}
    (hclaim : s.board.claim = some ((unit, id, shown), b)) :
    Faithful hash cap units ids initial ident journals { s.withWorker i (.running unit id shown
          (UnitRun.start cap units unit (workerTag id) (shown.map Shown.journal))) with
        board := b, history := update s.history id shown } := by
  obtain ⟨rfl, rfl, hfinished, hn⟩ : id = s.board.nextRun + 1 ∧
      shown = s.board.shownTo unit ∧ b.finished = s.board.finished ∧
      b.nextRun = s.board.nextRun + 1 := by
    rcases Board.claim_cases hclaim with ⟨-, hid, hshown, rfl⟩ | ⟨-, -, hid, hshown, rfl⟩ <;>
      exact ⟨hid, hshown, rfl, rfl⟩
  have hold : ∀ run, run ≤ s.board.nextRun → update s.history (s.board.nextRun + 1)
      (s.board.shownTo unit) run = s.history run := fun run hrun => update_of_ne (by omega) ..
  have hspent : ∀ run, s.Spent run → System.Spent { s.withWorker i (.running unit
      (s.board.nextRun + 1) (s.board.shownTo unit) (UnitRun.start cap units unit
        (workerTag (s.board.nextRun + 1)) ((s.board.shownTo unit).map Shown.journal))) with
      board := b, history := update s.history (s.board.nextRun + 1)
        (s.board.shownTo unit) } run := by
    intro run hrun
    refine hrun.of_claims (by rw [hn]; omega) ?_
    intro j u shown hj
    rw [System.withWorker_workers] at hj
    split at hj
    · simp only [Worker.claim?, Option.some.injEq, Prod.mk.injEq] at hj
      have := hrun.1
      omega
    · exact hj
  refine ⟨h.stock, fun key e he run m hid => hspent run (h.workerTags key e he run m hid),
    h.hereTags, fun run j hj => ⟨hspent run (h.kept run j hj).1, (h.kept run j hj).2⟩, ?_, ?_, ?_,
    ?_, h.cache_eq, h.stored_eq⟩
  · intro id w hw
    dsimp only at hw
    by_cases hid : id = s.board.nextRun + 1
    · rw [hid, update_self] at hw
      obtain ⟨-, f, hf, hrun, hjournal⟩ := Board.mem_shownTo hw
      obtain ⟨-, -, -, hk⟩ := h.finished w.unit f hf
      exact hrun ▸ hk w.journal hjournal
    · rw [update_of_ne hid] at hw
      exact h.shown id w hw
  · intro u f hf
    rw [hfinished] at hf
    exact (h.finished u f hf).later (fun _ => rfl) rfl (.refl _)
      (hold f.run (hs.settled.runLe u f hf))
  · intro j
    rw [System.withWorker_workers]
    split
    · exact follows_start units unit
    · exact h.workers j
  · refine h.committer.later (fun _ _ _ _ _ _ => rfl) (fun _ _ => rfl) ?_
    intro u run src journal hc
    exact ⟨rfl, hold run (hs.taken_spent hinv hc).1⟩

/-- The ids a step hands out leave what was handed out before as it was. -/
lemma retitle (hs : System.Standing ops s) {ident'} {tag m : ℕ}
    (ho : ∀ id, id ≠ Nat.pair tag m → ident' id = ident id)
    (hspent : ∀ run, s.Spent run → workerTag run ≠ tag)
    (hcache : ∀ key, ∀ e ∈ s.cache key, e.id ≠ Nat.pair tag m)
    (hw : ∀ i, (s.workers i).Faithful hash cap units ident' s.cache)
    (hc : s.committer.Faithful hash cap units ident' journals s.cache s.history) :
    Faithful hash cap units ids initial ident' journals s := by
  have hsame : ∀ run, s.Spent run → ∀ k,
      ident' (Nat.pair (workerTag run) k) = ident (Nat.pair (workerTag run) k) :=
    fun run hrun k => ho _ fun heq => hspent run hrun (Nat.pair_eq_pair.mp heq).1
  refine ⟨⟨?_, h.stock.valid, h.stock.closed⟩, h.workerTags, h.hereTags, ?_, h.shown, ?_, hw,
    hc, h.cache_eq, h.stored_eq⟩
  · intro key e he
    exact (ho e.id (hcache key e he)).trans (h.stock.named key e he)
  · intro run j hj
    obtain ⟨hrun, hk⟩ := h.kept run j hj
    exact ⟨hrun, hk.retitle (hsame run hrun)⟩
  · intro u f hf
    exact (h.finished u f hf).later (hsame f.run (hs.spent hf)) rfl (.refl _) rfl

variable {r : UnitRun Name Path Def Rest Text}

lemma advance (hinv : System.Inv n s) (hs : System.Standing ops s) {id : ℕ}
    (hi : s.workers i = .running unit id shown r) (hr : r.outcome = none) (hl : r.Legible s.cache) :
    ∃ ident', Faithful hash cap units ids initial ident' journals
      (s.withWorker i (.running unit id shown (r.advance hash s.cache))) := by
  have hclaim : (s.workers i).claim? = some (unit, id, shown) := by rw [hi]; rfl
  have hfollows := hi ▸ h.workers i
  have hkept := h.allKept id
  rw [(hs.shown i unit id shown hclaim).1] at hkept
  obtain ⟨ident', m, ho, hb, ha⟩ := UnitRun.Follows.advance hfollows hr
    hl (hkept.ranged h.stock)
  have hspent : ∀ run, s.Spent run → workerTag run ≠ workerTag id := by
    intro run hrun heq
    rw [(Nat.pair_eq_pair.mp heq).2] at hrun
    exact hrun.2 i unit shown hclaim
  have htag : ∀ tag k, tag ≠ workerTag id →
      ident' (Nat.pair tag k) = ident (Nat.pair tag k) := fun tag k hne =>
    ho _ fun heq => hne (Nat.pair_eq_pair.mp heq).1
  have hretitled : Faithful hash cap units ids initial ident' journals s := by
    refine h.retitle hs ho hspent ?_ ?_ ?_
    · intro key e he heq
      exact (h.workerTags key e he id m heq).2 i unit shown hclaim
    · intro j
      by_cases hj : j = i
      · rw [hj, hi]
        exact hb
      refine (h.workers j).later (fun u id' shown' hcla' k => htag _ k fun heq => hj ?_) (.refl _)
      rw [(Nat.pair_eq_pair.mp heq).2] at hcla'
      exact hs.distinct j i _ _ _ _ _ hcla' hclaim
    · exact h.committer.later
        (fun u run src journal hc k => htag _ k (hspent run (hs.taken_spent hinv hc)))
        (fun u k => htag _ k (workerTag_ne_hereTag id u).symm) fun _ _ _ _ _ => ⟨rfl, rfl⟩
  refine ⟨ident', hretitled.of_worker ?_ ha⟩
  intro c hc
  rw [hclaim]
  exact hc

lemma handOver (hinv : System.Inv n s) (hs : System.Standing ops s)
    (hclaim : (s.workers i).claim? = some (run.unit, run.id, run.shown))
    (ho : HandsOver hash cap ident (units run.unit) (workerTag run.id)
      (run.shown.map Shown.journal) s.cache run.src run.journal) (hn : b.nextRun = s.board.nextRun)
    (hfinished : ∀ u f, b.finished u = some f → s.board.finished u = some f ∨
      (u = run.unit ∧ f = ⟨run.id, some run.src, run.journal⟩)) :
    Faithful hash cap units ids initial ident (update journals run.id run.journal)
      { s.withWorker i .idle with board := b } := by
  have hshown := (hs.shown i _ _ _ hclaim).1
  have hclaims : ∀ j c, ((s.withWorker i
      (.idle : Worker (Product Text Path) (ExpansionJournal Name Path Def Rest)
        (UnitRun Name Path Def Rest Text))).workers j).claim? = some c →
      j ≠ i ∧ (s.workers j).claim? = some c := by
    intro j c hc
    rw [System.withWorker_workers] at hc
    split at hc
    · simp [Worker.claim?] at hc
    · exact ⟨‹_›, hc⟩
  have hspent : ∀ r, s.Spent r → System.Spent { s.withWorker i .idle with board := b } r :=
    fun r hr => hr.of_claims hn.ge fun j u shown hj => (hclaims j _ hj).2
  have hlive : ∀ r, s.Spent r → r ≠ run.id := by
    rintro r hr rfl
    exact hr.2 i _ _ hclaim
  have hold : ∀ r, s.Spent r → update journals run.id run.journal r = journals r :=
    fun r hr => update_of_ne (hlive r hr) ..
  refine ⟨h.stock, fun key e he r m hid => hspent r (h.workerTags key e he r m hid), h.hereTags,
    ?_, ?_, ?_, ?_, ?_, h.cache_eq, h.stored_eq⟩
  · intro r j hj
    by_cases hr : r = run.id
    · subst hr
      rw [update_self] at hj
      rw [hj] at ho
      refine ⟨⟨?_, ?_⟩, ho.kept h.stock ?_ ?_⟩
      · exact (hs.idLe i _ _ _ hclaim).trans hn.ge
      · intro k u shown hk
        obtain ⟨hne, hk⟩ := hclaims k _ hk
        exact hne (hs.distinct k i _ _ _ _ _ hk hclaim)
      · rw [← hshown]
        exact h.allKept run.id
      · intro key e he m hid
        exact hlive run.id (h.workerTags key e he run.id m hid) rfl
    · rw [update_of_ne hr] at hj
      exact ⟨hspent r (h.kept r j hj).1, (h.kept r j hj).2⟩
  · intro id w hw
    rw [update_of_ne (hs.notShown i _ _ _ hclaim id w hw)]
    exact h.shown id w hw
  · intro u f hf
    rcases hfinished u f hf with hf | ⟨rfl, rfl⟩
    · exact (h.finished u f hf).later (fun _ => rfl) (hold f.run (hs.spent hf)) (.refl _) rfl
    refine ⟨run.src, fun src hsrc => (Option.some.inj hsrc).symm, ?_, fun j hj => ?_⟩
    · rw [show (s.withWorker i .idle).history run.id = run.shown from hshown]
      exact ho
    · exact (update_self ..).trans hj
  · intro j
    rw [System.withWorker_workers]
    split
    · trivial
    · exact h.workers j
  · refine h.committer.later (fun _ _ _ _ _ _ => rfl) (fun _ _ => rfl) ?_
    intro u r src journal hc
    exact ⟨hold r (hs.taken_spent hinv hc), rfl⟩

variable {cache' : Cache Name Path Rest}

/-- The next unit's lists and text are those of the serial pass. -/
lemma serial {tag} (hu : s.committer.applied = unit)
    (hd : (units unit).direct hash cap tag s.cache = (product, cache')) :
    cache'.erase = (serialCache hash cap units ids initial (unit + 1)).erase ∧
      ∀ v, update s.stored unit product v =
        if v < unit + 1 then serialProduct hash cap units ids initial v else none := by
  subst hu
  obtain ⟨hp, hc⟩ := serial_step h.cache_eq hd
  refine ⟨hc, fun v => ?_⟩
  by_cases hv : v = s.committer.applied
  · rw [hv, update_self, if_pos (Nat.lt_succ_self _), hp]
  rw [update_of_ne hv, h.stored_eq v]
  by_cases hlt : v < s.committer.applied
  · rw [if_pos hlt, if_pos (hlt.trans (Nat.lt_succ_self _))]
  · rw [if_neg hlt, if_neg (by omega)]

/-- A unit that leaves the cache as it was is done. -/
lemma passed {tag} (hu : s.committer.applied = unit)
    (hd : (units unit).direct hash cap tag s.cache = (product, s.cache)) (run : Option ℕ)
    (own : Option (ExpansionJournal Name Path Def Rest)) :
    Faithful hash cap units ids initial ident journals { s with
      committer := .recording unit run own
      stored := update s.stored unit product } := by
  obtain ⟨hc, hs⟩ := h.serial hu hd
  refine ⟨h.stock, h.workerTags, ?_, h.kept, h.shown, h.finished, h.workers, trivial, hc,
    hs⟩
  intro key e he u m hid
  exact (hu ▸ h.hereTags key e he u m hid).trans (Nat.lt_succ_self _)

variable {j : ExpansionJournal Name Path Def Rest}

lemma committed {tag : ℕ}
    {u product} (hunit : s.committer.applied = unit) (hu : units unit = .preprocessed u)
    (hc : Committed hash cap u tag ident s.cache cache' j product)
    (htag : (∃ run, tag = workerTag run ∧ s.Spent run ∧ journals run = some j) ∨
      tag = hereTag unit) (run : Option ℕ)
    (own : Option (ExpansionJournal Name Path Def Rest)) :
    Faithful hash cap units ids initial ident journals { s with
      committer := .recording unit run own
      cache := cache'
      stored := update s.stored unit (some product) } := by
  have hdirect : (units unit).direct hash cap (Nat.pair tag) s.cache = (some product, cache') := by
    rw [hu]
    exact hc.direct
  obtain ⟨hcache, hs⟩ := h.serial hunit hdirect
  refine ⟨⟨hc.named, hc.valid, hc.closed⟩, ?_, ?_, ?_, h.shown, ?_, ?_,
    trivial, hcache, hs⟩
  · intro key e he r m hid
    rcases hc.new key e he with hold | ⟨k, hk⟩
    · exact h.workerTags key e hold r m hid
    rw [hk, Nat.pair_eq_pair] at hid
    rcases htag with ⟨r', htag, hspent, -⟩ | htag
    · rw [htag] at hid
      exact (Nat.pair_eq_pair.mp hid.1).2 ▸ hspent
    · exact absurd (hid.1.symm.trans htag) (workerTag_ne_hereTag r unit)
  · intro key e he u' m hid
    dsimp [Committer.applied]
    rcases hc.new key e he with hold | ⟨k, hk⟩
    · have := h.hereTags key e hold u' m hid
      omega
    rw [hk, Nat.pair_eq_pair] at hid
    rcases htag with ⟨r', htag, -, -⟩ | htag
    · exact absurd (htag.symm.trans hid.1) (workerTag_ne_hereTag r' u')
    · have := (Nat.pair_eq_pair.mp (htag.symm.trans hid.1)).2
      omega
  · intro r j' hj'
    refine ⟨(h.kept r j' hj').1, (h.kept r j' hj').2.committed hc ?_⟩
    intro heq
    rcases htag with ⟨r', htag, -, hj⟩ | htag
    · rw [(Nat.pair_eq_pair.mp (htag.symm.trans heq)).2, hj'] at hj
      exact (Option.some.inj hj).symm
    · exact absurd (heq.symm.trans htag) (workerTag_ne_hereTag r unit)
  · intro v f hf
    exact (h.finished v f hf).later (fun _ => rfl) rfl hc.grows rfl
  · intro i
    exact (h.workers i).later (fun _ _ _ _ _ => rfl) hc.grows

lemma running (hc : s.committer = .running unit r) :
    r.Follows hash cap ident (units unit) (hereTag unit) [] s.cache ∧ r.Here s.cache := by
  have hcommitter := hc ▸ h.committer
  exact hcommitter

lemma advanceHere (hs : System.Standing ops s) (hc : s.committer = .running unit r)
    (hr : r.outcome = none) (hl : r.Legible s.cache) :
    ∃ ident', Faithful hash cap units ids initial ident' journals
      { s with committer := .running unit (r.advance hash s.cache) } := by
  obtain ⟨hfollows, hhere⟩ := h.running hc
  have hkept : AllKept ident s.cache ([] : List (ExpansionJournal Name Path Def Rest)) := by
    simp [AllKept]
  obtain ⟨ident', m, ho, hb, ha⟩ := hfollows.advance hr hl
    (hkept.ranged h.stock)
  have hretitled : Faithful hash cap units ids initial ident' journals s := by
    refine h.retitle hs ho (fun run _ => workerTag_ne_hereTag run unit) ?_ ?_ ?_
    · intro key e he heq
      have := h.hereTags key e he unit m heq
      rw [hc] at this
      exact lt_irrefl unit this
    · intro i
      refine (h.workers i).later
        (fun u id shown _ k => ho _ fun heq => workerTag_ne_hereTag id unit ?_) (.refl _)
      exact (Nat.pair_eq_pair.mp heq).1
    · rw [hc]
      exact ⟨hb, hhere⟩
  refine ⟨ident', hretitled.of_board rfl (fun _ _ hf => hf) (by rw [hc]; rfl) ?_⟩
  exact ⟨ha, hhere.advance hfollows⟩

/-- A worker hands its run to the board, which takes it or queues the unit again. -/
lemma finish (hinv : System.Inv n s) (hs : System.Standing ops s) {contradicted : Bool}
    (hclaim : (s.workers i).claim? = some (run.unit, run.id, run.shown))
    (ho : HandsOver hash cap ident (units run.unit) (workerTag run.id)
      (run.shown.map Shown.journal) s.cache run.src run.journal) :
    ∃ journals', Faithful hash cap units ids initial ident journals' { s.withWorker i .idle with
        board := s.board.finish ops s.cache run contradicted } := by
  have hplace : s.InPlace run.unit (.worker i) := by
    simp [System.InPlace, Worker.unit?_eq, hclaim]
  have hunit : ¬ run.unit < s.board.committed := hinv.not_other hplace (q := .committed) (by simp)
  rcases Board.finish_cases ops s.cache run contradicted hunit with heq | ⟨b, D, hD, -, heq⟩
  · have hidle := h.of_worker (i := i) (w := .idle) (by simp [Worker.claim?]) trivial
    have hframe := Board.requeue_frame ops s.cache (b := s.board) run.unit run.journal
    rw [heq]
    exact ⟨journals, hidle.frame rfl rfl rfl rfl hframe.2.2.2.2.2.2.2 (fun _ _ hc => hc)
      (fun u f hf => h.finished u f (by rwa [hframe.1] at hf)) hidle.workers hidle.committer⟩
  rw [heq]
  refine ⟨_, h.handOver hinv hs hclaim ho hD.nextRun ?_⟩
  intro u f hf
  dsimp only at hf
  by_cases hu : u = run.unit
  · subst hu
    rw [update_self, Option.some.injEq] at hf
    exact .inr ⟨rfl, hf.symm⟩
  · rw [update_of_ne hu] at hf
    exact .inl (hD.finished_of hf)

variable {src : Product Text Path}

lemma take {f} (hc : s.committer = .waiting unit)
    (hf : s.board.finished unit = some f) (hsrc : f.src = some src) :
    Faithful hash cap units ids initial ident journals { s with
      committer := .taken unit f.run src f.journal
      board := { s.board with
        finished := update s.board.finished unit (some { f with src := none }) } } := by
  obtain ⟨product, hp, ho⟩ := h.finished unit f hf
  refine h.frame rfl rfl rfl (by rw [hc]; rfl) rfl (fun _ _ hc => hc) ?_ h.workers ?_
  · intro u f' hf'
    dsimp only at hf'
    by_cases hu : u = unit
    · subst hu
      rw [update_self, Option.some.injEq] at hf'
      subst hf'
      exact ⟨product, by simp, ho⟩
    · rw [update_of_ne hu] at hf'
      exact h.finished u f' hf'
  · rw [hp src hsrc]
    exact ho

lemma commit (hinv : System.Inv n s) (hs : System.Standing ops s) {run : ℕ}
    {src'} (ho : (order j).Perm j.pending.entries)
    (hc : s.committer = .taken unit run src (some j))
    (hcommit : (expansionPass hash cap order units).commit src j s.cache = some (src', cache')) :
    Faithful hash cap units ids initial ident journals { s with
      committer := .recording unit (some run) none
      cache := cache'
      stored := update s.stored unit (some src') } := by
  obtain ⟨hover, hj⟩ : HandedOver hash cap units ident journals s.cache s.history unit run
      src (some j) := by
    have hcommitter := hc ▸ h.committer
    exact hcommitter
  have htrue : (j.commit hash (order j) s.cache src.2).1 = true := by
    by_contra hnot
    simp [expansionPass, hnot] at hcommit
  obtain ⟨u, src'', cache'', hu, hco', hcomm⟩ := hover.expansionPass units
    h.stock (h.allKept run) (agrees_of_commit htrue) ho
  rw [hcommit, Option.some.injEq, Prod.mk.injEq] at hco'
  obtain ⟨rfl, rfl⟩ := hco'
  exact h.committed (by rw [hc]; rfl) hu hcomm
    (.inl ⟨run, rfl, hs.taken_spent hinv hc, hj j rfl⟩) _ _

lemma hereCommits (ho : ∀ j, (order j).Perm j.pending.entries) (hc : s.committer = .running unit r)
    (hd : r.outcome = some (some (src, some j))) : ∃ u src' cache', units unit = .preprocessed u ∧
      (expansionPass hash cap order units).commit src j s.cache = some (src', cache') ∧
      Committed hash cap u (hereTag unit) ident s.cache cache' j src' := by
  obtain ⟨hfollows, hhere⟩ := h.running hc
  exact (hfollows.handsOver hd).expansionPass units h.stock (by simp [AllKept])
    (hhere.agrees hfollows h.stock.valid hd) (ho j)

end Faithful

lemma HandsOver.direct_raw {tag : ℕ} {src}
    (h : HandsOver hash cap ident unit tag ahead cache src none) (names : ℕ → ℕ) :
    unit.direct hash cap names cache = (some src, cache) := by
  cases unit with
  | asIs text => exact Prod.ext h.1 rfl
  | preprocessed u =>
    obtain ⟨met, text, refs, made, -, -, -, -, hj⟩ := h
    cases hj

lemma faithful_step {label : Option ℕ} (ho : ∀ j, (order j).Perm j.pending.entries)
    (hinv : System.Inv n s) (hs : System.Standing (expansionPass hash cap order units).ops s)
    (h : Faithful hash cap units ids initial ident journals s)
    (hstep : System.Step (expansionPass hash cap order units) s label s') (hh : Heeds s s') :
    ∃ ident' journals', Faithful hash cap units ids initial ident' journals' s' := by
  cases hstep with
  | claim _ _ hclaim => exact ⟨ident, journals, h.claim hinv hs hclaim⟩
  | leave hidle _ => exact ⟨ident, journals, h.of_worker (by simp [Worker.claim?]) trivial⟩
  | @advance i unit id shown r hi hr =>
    have hlegible : r.Legible s.cache :=
      hh.worker i unit id shown r _ hi (update_self ..) (UnitRun.advance_ne hr)
    obtain ⟨ident', h'⟩ := h.advance hinv hs hi hr hlegible
    exact ⟨ident', journals, h'⟩
  | @ran i unit id shown r src journal hi hd =>
    have hfollows := hi ▸ h.workers i
    refine ⟨ident, journals, h.of_worker (by simp [hi, Worker.claim?]) ?_⟩
    exact UnitRun.Follows.handsOver hfollows hd
  | @failed i unit id shown r hi hfails =>
    have hidle := h.of_worker (i := i) (w := .idle) (by simp [Worker.claim?]) trivial
    exact ⟨ident, journals, hidle.frame rfl rfl rfl rfl rfl (fun _ _ hc => hc) hidle.finished
      hidle.workers hidle.committer⟩
  | @sample i run hi | @check i run commits hi | @resample i run commits contradicted hi _ =>
    have hover := hi ▸ h.workers i
    exact ⟨ident, journals, h.of_worker (by simp [hi, Worker.claim?]) hover⟩
  | @finish i run commits contradicted hi _ =>
    have hover := hi ▸ h.workers i
    obtain ⟨journals', h'⟩ := h.finish hinv hs (by rw [hi]; rfl) hover
    exact ⟨ident, journals', h'⟩
  | take hc _ hf hsrc => exact ⟨ident, journals, h.take hc hf hsrc⟩
  | @takeOver unit hc _ _ _ =>
    obtain ⟨-, hfinished, -, -, hn⟩ := s.board.takeOver_frame unit
    refine ⟨ident, journals, h.of_board hn ?_ (by rw [hc]; rfl)
      ⟨follows_start units unit, .start unit⟩⟩
    intro u f hf
    rwa [Board.noteInOrder, hfinished] at hf
  | @commitRaw unit run src hc =>
    have hover := hc ▸ h.committer
    exact ⟨ident, journals, h.passed (by rw [hc]; rfl) (hover.1.direct_raw (fun _ => 0)) _ _⟩
  | commit hc hcommit =>
    exact ⟨ident, journals, h.commit hinv hs (ho _) hc hcommit⟩
  | @refused unit run src j hc _ =>
    obtain ⟨D, hD, -⟩ := Board.discard_discards (expansionPass hash cap order units).ops s.cache
      unit s.board
    exact ⟨ident, journals, h.of_board hD.nextRun (fun u f hf => hD.finished_of hf)
      (by rw [hc]; rfl) ⟨follows_start units unit, .start unit⟩⟩
  | @advanceHere unit r hc hr =>
    have hlegible : r.Legible s.cache :=
      hh.here unit r _ hc rfl (UnitRun.advance_ne hr)
    obtain ⟨ident', h'⟩ := h.advanceHere hs hc hr hlegible
    exact ⟨ident', journals, h'⟩
  | @hereFailed unit r hc hfails =>
    obtain ⟨hfollows, hhere⟩ := h.running hc
    have hdirect := hhere.fails hfollows h.stock hfails (hh.fails unit r hc rfl)
    have hnone : s.stored unit = none := by
      rw [h.stored_eq, if_neg (by rw [hc]; exact lt_irrefl unit)]
    have hpassed := h.passed (by rw [hc]; rfl) hdirect none none
    rw [← hnone, update_eq_self] at hpassed
    exact ⟨ident, journals, hpassed⟩
  | @hereRaw unit r src hc hd =>
    obtain ⟨hfollows, -⟩ := h.running hc
    exact ⟨ident, journals, h.passed (by rw [hc]; rfl)
      ((hfollows.handsOver hd).direct_raw (fun _ => 0)) _ _⟩
  | hereCommit hc hd hcommit =>
    obtain ⟨u, src'', cache'', hu, hco', hcommitted⟩ := h.hereCommits ho hc hd
    rw [hcommit, Option.some.injEq, Prod.mk.injEq] at hco'
    obtain ⟨rfl, rfl⟩ := hco'
    exact ⟨ident, journals, h.committed (by rw [hc]; rfl) hu hcommitted (.inr rfl) _ _⟩
  | herePanics hc hd hrefused =>
    obtain ⟨u, src', cache', -, hcommit, -⟩ := h.hereCommits ho hc hd
    rw [hrefused] at hcommit
    cases hcommit
  | @record unit run own hc =>
    obtain ⟨b, D, hD, -, -, heq⟩ := Board.commit_cases (expansionPass hash cap order units).ops
      s.cache unit run own s.board
    rw [heq]
    refine ⟨ident, journals, h.of_board hD.nextRun ?_ (by rw [hc]; rfl) trivial⟩
    intro u f hf
    simp only [Board.unblock] at hf
    by_cases hu : u = unit
    · simp [hu] at hf
    · rw [update_of_ne hu] at hf
      exact hD.finished_of hf

end Pathologist.Discovery

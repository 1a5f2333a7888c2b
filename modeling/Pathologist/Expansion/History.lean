import Pathologist.Expansion.Replay

/-!
# The environment of a run, afterwards

The journal keeps the environment a run ended with and what each change replaced.
At any point of its history that gives back the environment of that moment, so a
fingerprint checked after the run is answered as it was during the run.
-/
namespace Pathologist.Expansion
open UndoLog List
variable {Name Path Def Rest : Type*} [DecidableEq Path]
variable {hash : Def → Bool → ℕ} {ahead : List (ExpansionJournal Name Path Def Rest)}

lemma length_insert (headers : AList fun _ : Path => ℕ) (path : Path) (signature : ℕ) :
    (headers.insert path signature).entries.length =
      headers.entries.length + if headers.lookup path = none then 1 else 0 := by
  have hkeys : ∀ s : AList fun _ : Path => ℕ, s.keys.length = s.entries.length := by
    intro s
    simp [AList.keys, List.keys]
  rw [← hkeys, ← hkeys, AList.keys_insert, length_cons]
  by_cases hmem : path ∈ headers
  · have hpos := length_pos_of_mem (AList.mem_keys.mp hmem)
    have hsome : headers.lookup path ≠ none := by
      rw [Ne, AList.lookup_eq_none]
      simpa using hmem
    rw [length_erase_of_mem (AList.mem_keys.mp hmem), if_neg hsome]
    omega
  · have hnone : headers.lookup path = none := AList.lookup_eq_none.mpr hmem
    rw [erase_of_not_mem (fun h => hmem (AList.mem_keys.mpr h)), if_pos hnone]

namespace Deferred

/-- The journal's record of headers is the one of the run. -/
structure HeadersKept (d : Deferred Name Path Def Rest) : Prop where
  same : ∀ path, d.journal.history.lastHeaders.lookup path = d.env.headers.lookup path
  additions : d.journal.history.undo.countP Change.isNewHeader = d.env.headers.entries.length

lemma headersKept_start (cap : ℕ) (language : Language) (macros : Name → Option Def)
    (fallbacks : Name → Bool) :
    HeadersKept (start cap language macros fallbacks : Deferred Name Path Def Rest) :=
  ⟨fun _ => rfl, rfl⟩

variable [DecidableEq Name] {d d' d'' : Deferred Name Path Def Rest}

/-- From `d` to `d'` the history only grew, and what it grew by tells how each
binding and each header was before. -/
def Written (d d' : Deferred Name Path Def Rest) : Prop :=
  ∃ written, d'.journal.history.undo = d.journal.history.undo ++ written ∧
    (∀ name, Recorded (Change.bindingBefore name) (d.env.binding name) written
      (d'.env.binding name)) ∧
    ∀ path, Recorded (Change.headerBefore path) (d.env.headers.lookup path) written
      (d'.env.headers.lookup path)

lemma Written.refl (d : Deferred Name Path Def Rest) : Written d d :=
  ⟨[], by simp, fun _ => .nil _, fun _ => .nil _⟩

lemma Written.trans (h : Written d d') (h' : Written d' d'') : Written d d'' := by
  obtain ⟨log, hu, hn, hp⟩ := h
  obtain ⟨log', hu', hn', hp'⟩ := h'
  exact ⟨log ++ log', by rw [hu', hu, append_assoc],
    fun name => (hn name).append (hn' name), fun path => (hp path).append (hp' path)⟩

/-- An operation that changes neither the environment nor the history. -/
lemma written_of_quiet (h : HeadersKept d) (henv : d'.env = d.env)
    (hh : d'.journal.history = d.journal.history) : HeadersKept d' ∧ Written d d' := by
  refine ⟨⟨?_, ?_⟩, [], ?_, ?_, ?_⟩ <;> simp [henv, hh]
  · exact h.same
  · exact h.additions
  · exact fun _ => .nil _
  · exact fun _ => .nil _

/-- An operation that binds `name` anew. -/
lemma written_of_binding (h : HeadersKept d) {name : Name} (hh : d'.env.headers = d.env.headers)
    (hothers : ∀ other, other ≠ name → d'.env.binding other = d.env.binding other)
    (hj : d'.journal = d.journal.recordMacroChange name (d.env.binding name)) :
    HeadersKept d' ∧ Written d d' := by
  refine ⟨⟨?_, ?_⟩, [.binding name (d.env.binding name)], by rw [hj]; rfl, ?_, ?_⟩
  · rw [hj, hh]
    exact h.same
  · rw [hj, hh, ← h.additions]
    simp [ExpansionJournal.recordMacroChange, Change.isNewHeader]
  · intro other
    by_cases ho : other = name
    · subst ho
      exact .change (by simp [Change.bindingBefore]) (.nil _)
    · rw [hothers other ho]
      exact .other (by simp [Change.bindingBefore, Ne.symm ho]) (.nil _)
  · rw [hh]
    exact fun _ => .other rfl (.nil _)

/-- A system header is supplied; a signature already known writes nothing. -/
lemma written_of_header (h : HeadersKept d) {path : Path} {signature : ℕ}
    (henv : d'.env = d.env.provideSystemHeader path signature)
    (hj : d'.journal = d.journal.recordHeader path signature) : HeadersKept d' ∧ Written d d' := by
  by_cases hs : d.journal.history.lastHeaders.lookup path = some signature
  · have hlookup : ∀ other, (d.env.headers.insert path signature).lookup other =
        d.env.headers.lookup other := by
      intro other
      by_cases ho : other = path
      · subst ho
        rw [AList.lookup_insert, ← h.same, hs]
      · rw [AList.lookup_insert_ne ho]
    have hkept : d.journal.recordHeader path signature = d.journal := by
      rw [ExpansionJournal.recordHeader, if_pos hs]
    refine ⟨⟨?_, ?_⟩, [], ?_, ?_, ?_⟩ <;>
      simp only [henv, hj, hkept, MacroEnv.provideSystemHeader, hlookup, append_nil]
    · exact h.same
    · rw [length_insert, ← h.same, hs, h.additions]
      simp
    · exact fun _ => .nil _
    · exact fun _ => .nil _
  have hnew : (d.journal.recordHeader path signature).history = { d.journal.history with
      lastHeaders := d.journal.history.lastHeaders.insert path signature
      undo := d.journal.history.undo ++ [.header path (d.env.headers.lookup path)] } := by
    rw [ExpansionJournal.recordHeader, if_neg hs, h.same]
  refine ⟨⟨?_, ?_⟩, [.header path (d.env.headers.lookup path)], ?_, ?_, ?_⟩ <;>
    simp only [henv, hj, hnew, MacroEnv.provideSystemHeader]
  · intro other
    by_cases ho : other = path
    · subst ho
      rw [AList.lookup_insert, AList.lookup_insert]
    · rw [AList.lookup_insert_ne ho, AList.lookup_insert_ne ho, h.same]
  · rw [countP_append, h.additions, length_insert]
    cases d.env.headers.lookup path <;> simp [Change.isNewHeader]
  · exact fun _ => .other rfl (.nil _)
  intro other
  by_cases ho : other = path
  · subst ho
    exact .change (by simp [Change.headerBefore]) (.nil _)
  · rw [AList.lookup_insert_ne ho]
    exact .other (by simp [Change.headerBefore, Ne.symm ho]) (.nil _)

variable (hash) (ahead)

lemma written_step (h : HeadersKept d) (o : Cache Name Path Rest × Op Name Path Def Rest) :
    HeadersKept (d.step hash ahead o) ∧ Written d (d.step hash ahead o) := by
  obtain ⟨cache, op⟩ := o
  cases op with
  | define name definition =>
    refine written_of_binding h rfl ?_ rfl
    intro other ho
    simp [step, MacroEnv.after, MacroEnv.insertMacro, MacroEnv.binding, ho]
  | undef name =>
    refine written_of_binding h rfl ?_ rfl
    intro other ho
    simp [step, MacroEnv.after, MacroEnv.removeMacro, MacroEnv.binding, ho]
  | provideSystemHeader path signature => exact written_of_header h rfl rfl
  | matchingVariant path | recordedEntry record | sameRecord a b => exact written_of_quiet h rfl rfl
  | publishVariant path draft =>
    refine written_of_quiet h rfl ?_
    simp only [step, answer]
    split
    · rfl
    · unfold ExpansionJournal.publish
      dsimp only
      split <;> rfl

lemma written_run (h : HeadersKept d) (ops : List (Cache Name Path Rest × Op Name Path Def Rest)) :
    HeadersKept (d.run hash ahead ops) ∧ Written d (d.run hash ahead ops) := by
  induction ops generalizing d with
  | nil => exact ⟨h, Written.refl d⟩
  | cons o ops ih =>
    obtain ⟨hk, hw⟩ := written_step hash ahead h o
    obtain ⟨hk', hw'⟩ := ih hk
    exact ⟨hk', hw.trans hw'⟩

variable {hash}

/-- The history has at `point` the bindings and the headers of `env`. -/
structure Recalls (history : MacroHistory Name Path Def) (point : ℕ)
    (env : MacroEnv Name Path Def) : Prop where
  binding : ∀ name, history.bindingAt name point = env.binding name
  header : ∀ path, history.headerAt path point = env.headers.lookup path
  count : history.headerAdditions point = env.headers.entries.length

/-- The journal handed over has the moment of `d` as the environment of `d` was. -/
lemma finished_recalls (hk : HeadersKept d) (hk' : HeadersKept d') (h : Written d d') :
    Recalls d'.finished.history d.journal.history.undo.length d.env := by
  obtain ⟨log, hu, hn, hp⟩ := h
  have hdrop : d'.finished.history.undo.drop d.journal.history.undo.length = log := by
    simp [finished, ExpansionJournal.finish, hu]
  refine ⟨fun name => ?_, fun path => ?_, ?_⟩
  · rw [MacroHistory.bindingAt, hdrop]
    exact (hn name).rewind_eq
  · rw [MacroHistory.headerAt, hdrop]
    have hlast : d'.finished.history.lastHeaders.lookup path = d'.env.headers.lookup path :=
      hk'.same path
    rw [hlast]
    exact (hp path).rewind_eq
  · rw [← hk.additions, MacroHistory.headerAdditions]
    simp [finished, ExpansionJournal.finish, hu]

/-- Whatever a run did before and after a moment, its history recalls that moment. -/
theorem history_recalls_moment (hash : Def → Bool → ℕ)
    (ahead : List (ExpansionJournal Name Path Def Rest)) (cap : ℕ) (language : Language)
    (macros : Name → Option Def) (fallbacks : Name → Bool)
    (before after : List (Cache Name Path Rest × Op Name Path Def Rest)) :
    let moment := (start cap language macros fallbacks).run hash ahead before
    Recalls (moment.run hash ahead after).finished.history moment.journal.history.undo.length
      moment.env := by
  intro moment
  have hkept : HeadersKept moment :=
    (written_run hash ahead (headersKept_start cap language macros fallbacks) before).1
  obtain ⟨hkept', hwritten⟩ := written_run hash ahead hkept after
  exact finished_recalls hkept hkept' hwritten

lemma finished_satisfies (hk : HeadersKept d) (hk' : HeadersKept d') (h : Written d d')
    (deps : MacroFingerprint Name Path) :
    d'.finished.history.satisfies hash deps d.journal.history.undo.length =
      d.env.satisfies hash deps := by
  obtain ⟨hb, hh, hc⟩ := finished_recalls hk hk' h
  have hbound : ∀ name, (d.env.binding name).isSome = (d.env.macros name).isSome := by
    simp [MacroEnv.binding]
  simp [MacroHistory.satisfies, MacroEnv.satisfies, hb, hh, hc, hbound]

end Deferred
end Pathologist.Expansion

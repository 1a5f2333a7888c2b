import Pathologist.Expansion.Commit

/-!
# A unit's preprocessing

A unit is a program that asks the cache and goes on by what it is told, until it has a
text or fails. It sees of an entry everything but the handles and ids, so the same
program runs deferred, against the caches of the moment, and directly, on the writable
cache.
-/
namespace Pathologist.Expansion
open Direct
variable {Name Path Def Rest Text : Type*} (answers : List (Answer Name Path Rest))

/-- What a program sees of an entry: all but its id and the handles it records. -/
def IncludeExpansion.visible (e : IncludeExpansion Name Path Rest) :
    ℕ × MacroFingerprint Name Path × List Path × Rest :=
  (e.signature, e.deps, e.nestedVariants.map Prod.fst, e.rest)

/-- What a program sees of an answer. -/
inductive Observation (Name Path Rest : Type*)
  | quiet
  | found (entry : Option (ℕ × MacroFingerprint Name Path × List Path × Rest))
  | published (listed : Bool)
  | recorded (entry : Option (ℕ × MacroFingerprint Name Path × List Path × Rest))
  | compared (same : Bool)

def Answer.observe : Answer Name Path Rest → Observation Name Path Rest
  | .quiet => .quiet
  | .found _ taken => .found (taken.map fun t => t.2.visible)
  | .published _ handle => .published handle.isSome
  | .recorded entry => .recorded (entry.map IncludeExpansion.visible)
  | .compared same => .compared same

/-- The exchanges of a unit with the cache. -/
inductive Program (Name Path Def Rest Text : Type*)
  /-- The unit could not be preprocessed. -/
  | fail
  /-- The text, and the variants replayed for it. -/
  | done (text : Text) (replayed : List Ref)
  | act (op : Op Name Path Def Rest)
      (next : Observation Name Path Rest → Program Name Path Def Rest Text)

/-- A published entry takes the next id. -/
def Op.withId (id : ℕ) : Op Name Path Def Rest → Op Name Path Def Rest
  | .publishVariant path draft => .publishVariant path { draft with id := id }
  | op => op

lemma Op.withId_withId (op : Op Name Path Def Rest) (id id' : ℕ) :
    (op.withId id).withId id' = op.withId id' := by
  cases op <;> rfl

lemma Op.withId_id {op : Op Name Path Def Rest} {id : ℕ} {path : Path}
    {draft : Draft Name Path Rest} (h : op.withId id = .publishVariant path draft) :
    draft.id = id := by
  cases op with
  | publishVariant path' draft' =>
    simp only [Op.withId, Op.publishVariant.injEq] at h
    rw [← h.2]
  | define | undef | provideSystemHeader | matchingVariant | recordedEntry | sameRecord =>
    simp [Op.withId] at h

/-- A unit to preprocess: its options, and what it does from then on. -/
structure TranslationUnit (Name Path Def Rest Text : Type*) where
  language : Language
  macros : Name → Option Def
  fallbacks : Name → Bool
  program : Program Name Path Def Rest Text

/-- A preprocessed text and the variants replayed for it. -/
abbrev Product (Text Path : Type*) := Text × List (Path × Handle)

section
variable [DecidableEq Name] [DecidableEq Path]

/-- The program on the writable cache: what it produces, and the cache it leaves. The
`n`-th exchange publishes under the id `ids n`. -/
def Program.direct (hash : Def → Bool → ℕ) (cap : ℕ) (language : Language) (ids : ℕ → ℕ) :
    Program Name Path Def Rest Text → Direct Name Path Def Rest →
      Option (Product Text Path) × Cache Name Path Rest
  | .fail, d => (none, d.cache)
  | .done text replayed, d => (some (text, recordsOf d.answers replayed), d.cache)
  | .act op next, d =>
    (next (d.answer hash cap language (op.withId (ids d.answers.length))).1.observe).direct
      hash cap language ids (d.step hash cap language (op.withId (ids d.answers.length)))

/-- The unit preprocessed on `cache`, as a pass that publishes as it goes does. -/
def TranslationUnit.direct (hash : Def → Bool → ℕ) (cap : ℕ) (ids : ℕ → ℕ)
    (unit : TranslationUnit Name Path Def Rest Text) (cache : Cache Name Path Rest) :
    Option (Product Text Path) × Cache Name Path Rest :=
  unit.program.direct hash cap unit.language ids (.start unit.macros unit.fallbacks cache)

end

/-- The entry with no id. -/
def IncludeExpansion.erase (e : IncludeExpansion Name Path Rest) :
    IncludeExpansion Name Path Rest :=
  { e with id := 0 }

def Cache.erase (cache : Cache Name Path Rest) : Cache Name Path Rest :=
  fun key => (cache key).map IncludeExpansion.erase

def Answer.erase : Answer Name Path Rest → Answer Name Path Rest
  | .found path taken => .found path (taken.map fun t => (t.1, t.2.erase))
  | .recorded entry => .recorded (entry.map IncludeExpansion.erase)
  | answer => answer

def Direct.erase (d : Direct Name Path Def Rest) : Direct Name Path Def Rest :=
  ⟨d.env, d.cache.erase, d.answers.map Answer.erase⟩

lemma Answer.records_erase (a : Answer Name Path Rest) : a.erase.records = a.records := by
  cases a with
  | found path taken => cases taken <;> rfl
  | recorded entry => cases entry <;> rfl
  | quiet => rfl
  | published path handle => rfl
  | compared same => rfl

lemma Answer.observe_erase (a : Answer Name Path Rest) : a.erase.observe = a.observe := by
  cases a with
  | found path taken => cases taken <;> rfl
  | recorded entry => cases entry <;> rfl
  | quiet => rfl
  | published path handle => rfl
  | compared same => rfl

lemma recordOf_erase (r : Ref) : recordOf (answers.map Answer.erase) r = recordOf answers r := by
  unfold recordOf
  rw [List.getElem?_map]
  cases answers[r.1]? with
  | none => rfl
  | some a => simp [a.records_erase]

lemma recordsOf_erase (refs : List Ref) :
    recordsOf (answers.map Answer.erase) refs = recordsOf answers refs := by
  exact List.filterMap_congr fun r _ => recordOf_erase answers r

section
variable [DecidableEq Name] [DecidableEq Path] {hash : Def → Bool → ℕ} {cap : ℕ}
  {language : Language}

omit [DecidableEq Name] in
lemma Cache.matchingVariant_erase (cache : Cache Name Path Rest) (env : MacroEnv Name Path Def)
    (key : ExpansionKey Path) : cache.erase.matchingVariant hash env key =
      (cache.matchingVariant hash env key).map fun t => (t.1, t.2.erase) := by
  have hsame : (fun e : IncludeExpansion Name Path Rest => env.satisfies hash e.deps) ∘
      IncludeExpansion.erase = fun e => env.satisfies hash e.deps := rfl
  unfold Cache.matchingVariant Cache.erase
  rw [List.findIdx?_map, hsame]
  cases (cache key).findIdx? fun e => env.satisfies hash e.deps with
  | none => rfl
  | some n =>
    simp only [Option.bind_some, List.getElem?_map, Option.map_map]
    rfl

omit [DecidableEq Name] in
lemma Cache.publishVariant_erase (cache : Cache Name Path Rest) (key : ExpansionKey Path)
    (entry : IncludeExpansion Name Path Rest) : cache.erase.publishVariant cap key entry.erase =
      ((cache.publishVariant cap key entry).1, (cache.publishVariant cap key entry).2.erase) := by
  have hsignatures : (cache.erase key).map IncludeExpansion.signature =
      (cache key).map IncludeExpansion.signature := by
    simp only [Cache.erase, List.map_map]
    rfl
  have hlength : (cache.erase key).length = (cache key).length := List.length_map _
  have hfind : (cache.erase key).findIdx? (fun e => decide (e.signature = entry.signature)) =
      (cache key).findIdx? fun e => decide (e.signature = entry.signature) :=
    List.findIdx?_map ..
  have hdeps : entry.erase.deps = entry.deps := rfl
  have hsignature : entry.erase.signature = entry.signature := rfl
  unfold Cache.publishVariant
  rw [hdeps, hsignature, hsignatures, hlength, hfind]
  split
  · rfl
  split
  · refine Prod.ext rfl (funext fun k => ?_)
    by_cases hk : k = key
    · subst hk
      simp [Cache.erase]
    · simp [Cache.erase, hk]
  · rfl

omit [DecidableEq Name] in
lemma Direct.answer_erase (d : Direct Name Path Def Rest) (op : Op Name Path Def Rest) :
    d.erase.answer hash cap language (op.withId 0) =
      ((d.answer hash cap language op).1.erase, (d.answer hash cap language op).2.erase) := by
  cases op with
  | define name definition => rfl
  | undef name => rfl
  | provideSystemHeader path signature => rfl
  | matchingVariant path =>
    simp only [answer, erase, Cache.matchingVariant_erase]
    rfl
  | publishVariant path draft =>
    have hentry : ({ draft with id := 0 } : Draft Name Path Rest).entry
        (d.answers.map Answer.erase) = (draft.entry d.answers).erase := by
      simp only [Draft.entry, recordsOf_erase]
      rfl
    simp only [Op.withId, answer, erase, hentry, Cache.publishVariant_erase]
    rfl
  | recordedEntry record =>
    simp only [Op.withId, answer, erase, recordOf_erase, Answer.erase]
    cases recordOf d.answers record with
    | none => rfl
    | some r =>
      obtain ⟨path, handle⟩ := r
      cases handle with
      | index n => simp [Cache.erase]
      | provisional id => rfl
  | sameRecord a b =>
    simp only [answer, erase, recordOf_erase]
    rfl

lemma Direct.step_erase (d : Direct Name Path Def Rest) (op : Op Name Path Def Rest) :
    d.erase.step hash cap language (op.withId 0) = (d.step hash cap language op).erase := by
  have henv : d.env.after (op.withId 0) = d.env.after op := by cases op <;> rfl
  have hanswer : d.erase.answer hash cap language (op.withId 0) = _ := d.answer_erase op
  unfold step
  rw [hanswer]
  simp [erase, henv]

/-- What a unit produces and the lists it leaves do not depend on the ids. -/
lemma Program.direct_erase (ids : ℕ → ℕ) (program : Program Name Path Def Rest Text)
    (d : Direct Name Path Def Rest) :
    program.direct hash cap language (fun _ => 0) d.erase =
      ((program.direct hash cap language ids d).1,
        (program.direct hash cap language ids d).2.erase) := by
  induction program generalizing d with
  | fail => rfl
  | done text replayed =>
    simp [Program.direct, erase, recordsOf_erase]
  | act op next ih =>
    have hop : op.withId 0 = (op.withId (ids d.answers.length)).withId 0 :=
      (op.withId_withId _ _).symm
    simp only [Program.direct]
    rw [hop, step_erase, answer_erase]
    simp only [Answer.observe_erase]
    exact ih _ _

end
end Pathologist.Expansion

import Pathologist.Expansion.Simulation

/-!
# Whole runs

The operations of a run, carried out deferred and directly, stay mirrored step by
step: the direct cache is the stored one with the entries kept back so far, and every
answer is the deferred answer with its records by index.
-/
open List
namespace Pathologist.Expansion
open Deferred
variable {Name Path Def Rest : Type*} [DecidableEq Path]
variable {hash : Def → Bool → ℕ} {cap : ℕ} {language : Language}
  {ident : ℕ → Identity Name Path Rest} {ahead : List (ExpansionJournal Name Path Def Rest)}
  {stored : Cache Name Path Rest} {j : ExpansionJournal Name Path Def Rest}

/-- The two ways to carry out the operations so far. -/
structure Mirrors (language : Language) (stored : Cache Name Path Rest)
    (d : Deferred Name Path Def Rest) (t : Direct Name Path Def Rest) : Prop where
  env : t.env = d.env
  cache : ∀ key, ∃ own', t.cache key = stored key ++ own' ∧
    List.Forall₂ (Resolved (extendedIds stored d.journal) language) (d.journal.own key) own'
  answers : List.Forall₂ (Answer.Resolved (extendedIds stored d.journal) language)
    d.answers t.answers

/-- Whether the spelling of records tells what they name: a record that is read is
stored, kept back by the run or by a journal ahead, and records that are compared are
spelled alike unless they name different variants. -/
def Op.Legible (ahead : List (ExpansionJournal Name Path Def Rest))
    (cache stored : Cache Name Path Rest) (d : Deferred Name Path Def Rest) :
    Op Name Path Def Rest → Prop
  | .recordedEntry record => ∀ r, recordOf d.answers record = some r →
      (d.journal.recordedEntry (r.1, d.journal.language) r.2 cache ahead).isSome
  | .sameRecord a b => ∀ path n id, ¬ ((recordOf d.answers a = some (path, .index n) ∧
          recordOf d.answers b = some (path, .provisional id) ∨
        recordOf d.answers a = some (path, .provisional id) ∧
          recordOf d.answers b = some (path, .index n)) ∧
        (extendedIds stored d.journal (path, d.journal.language))[n]? = some id)
  | _ => True

lemma extendedIds_mono {d d' : ExpansionJournal Name Path Def Rest} (h : d.Grows d')
    (key : ExpansionKey Path) : extendedIds stored d key <+: extendedIds stored d' key := by
  rw [extendedIds, extendedIds, map_append, map_append]
  exact prefix_append_right_inj _ |>.mpr ((h.own key).map _)

section
variable {ids ids' : ExpansionKey Path → List ℕ}

omit [DecidableEq Path] in
lemma Answer.Resolved.mono (hids : ∀ key, ids key <+: ids' key) {a a' : Answer Name Path Rest}
    (h : Answer.Resolved ids language a a') : Answer.Resolved ids' language a a' := by
  cases h with
  | quiet => exact .quiet
  | missed => exact .missed
  | found hd hr => exact .found (hd.mono hids) (hr.mono hids)
  | refused => exact .refused
  | published hd => exact .published (hd.mono hids)
  | unrecorded => exact .unrecorded
  | recorded hr => exact .recorded (hr.mono hids)
  | compared same => exact .compared same

omit [DecidableEq Path] in
lemma Answer.Resolved.of_rel {path : Path} {a b}
    (h : Option.Rel (fun a b => Denotes ids language (path, a) (path, b)) a b) :
    Answer.Resolved ids language (.published path a : Answer Name Path Rest)
      (.published path b) := by
  cases h with
  | some h => exact .published h
  | none => exact .refused

end

namespace Mirrors
variable {d : Deferred Name Path Def Rest} {t : Direct Name Path Def Rest}

/-- A step that keeps no entry back. -/
lemma of_same {d' : Deferred Name Path Def Rest} {t' : Direct Name Path Def Rest}
    {a a' : Answer Name Path Rest} (h : Mirrors language stored d t) (henv : t'.env = d'.env)
    (hown : ∀ key, d'.journal.own key = d.journal.own key) (hc : t'.cache = t.cache)
    (hanswers : d'.answers = d.answers ++ [a]) (han' : t'.answers = t.answers ++ [a'])
    (ha : Answer.Resolved (extendedIds stored d.journal) language a a') :
    Mirrors language stored d' t' := by
  have hids : extendedIds stored d'.journal = extendedIds stored d.journal := by
    funext key
    simp [extendedIds, hown]
  refine ⟨henv, ?_, ?_⟩
  · intro key
    rw [hids, hown, hc]
    exact h.cache key
  · rw [hids, hanswers, han']
    exact rel_append h.answers (.cons ha .nil)

lemma covers_self (d : ExpansionJournal Name Path Def Rest) :
    Covers (extendedIds stored d) stored d := fun _ => prefix_rfl

/-- An entry is kept back, and appended directly. -/
lemma of_kept {d' t'} (path : Path) {entry entry'} (h : Mirrors language stored d t)
    (henv : t'.env = d'.env) (hg : d.journal.Grows d'.journal)
    (hown : ∀ k, d'.journal.own k = d.journal.own k ++ if k = (path, language) then [entry] else [])
    (hc : ∀ k, t'.cache k = t.cache k ++ if k = (path, language) then [entry'] else [])
    (he : Resolved (extendedIds stored d.journal) language entry entry')
    (ha : d'.answers = d.answers ++ [.published path (some (.provisional entry.id))])
    (ha' : t'.answers = t.answers ++
      [.published path (some (.index (t.cache (path, language)).length))]) :
    Mirrors language stored d' t' := by
  have hmono : ∀ key, extendedIds stored d.journal key <+: extendedIds stored d'.journal key :=
    extendedIds_mono hg
  refine ⟨henv, ?_, ?_⟩
  · intro k
    obtain ⟨own', hc', hown'⟩ := h.cache k
    refine ⟨own' ++ if k = (path, language) then [entry'] else [], ?_, ?_⟩
    · rw [hc, hc', append_assoc]
    rw [hown]
    refine rel_append (hown'.imp fun _ _ => Resolved.mono hmono) ?_
    split
    · exact .cons (he.mono hmono) .nil
    · exact .nil
  · rw [ha, ha']
    refine rel_append (h.answers.imp fun _ _ => Answer.Resolved.mono hmono) (.cons ?_ .nil)
    obtain ⟨own', hc', hown'⟩ := h.cache (path, language)
    refine .published ⟨rfl, _, rfl, .inr ⟨_, rfl, ?_⟩⟩
    rw [hc', length_append, ← hown'.length_eq]
    refine (covers_self d'.journal).own ?_
    rw [hown, if_pos rfl]
    simp

end Mirrors

/-- The caches the operations meet, from `cache` on, grow into the stored one. -/
def Timely (stored : Cache Name Path Rest) :
    Cache Name Path Rest → List (Cache Name Path Rest × Op Name Path Def Rest) → Prop
  | cache, [] => cache.Grows stored
  | cache, (cache', _) :: ops => cache.Grows cache' ∧ Timely stored cache' ops

variable {ops : List (Cache Name Path Rest × Op Name Path Def Rest)}

omit [DecidableEq Path] in
lemma Timely.grows {cache} (h : Timely stored cache ops) : cache.Grows stored := by
  induction ops generalizing cache with
  | nil => exact h
  | cons o ops ih => exact h.1.trans (ih h.2)

lemma Deferred.grows_finished (d : Deferred Name Path Def Rest) : d.journal.Grows d.finished :=
  .congr rfl rfl rfl rfl

variable [DecidableEq Name]

namespace Mirrors
variable {d : Deferred Name Path Def Rest} {t : Direct Name Path Def Rest}

/-- What is known of a deferred run `d` that goes on to hand over `j`, when an
operation meets `cache`. -/
structure Moment (hash : Def → Bool → ℕ) (cap : ℕ) (language : Language)
    (ident : ℕ → Identity Name Path Rest) (ahead : List (ExpansionJournal Name Path Def Rest))
    (stored : Cache Name Path Rest) (j : ExpansionJournal Name Path Def Rest)
    (d : Deferred Name Path Def Rest) (cache : Cache Name Path Rest) : Prop where
  grows : cache.Grows stored
  consistent : Consistent ident ahead cache d.journal
  language : d.journal.language = language
  cap : d.journal.cap = cap
  satisfies : ∀ deps, j.history.satisfies hash deps d.journal.history.undo.length =
    d.env.satisfies hash deps

variable {cache : Cache Name Path Rest} {path : Path}

/-- What a record by id reads from the run's own entries and the journals ahead is
what its index reads directly. -/
lemma recordedEntry_mirrors (haccepted : Accepted hash cap language ident ahead stored j)
    (hl : d.journal.Grows j) (h : Mirrors language stored d t) {id n : ℕ}
    (hid : (extendedIds stored d.journal (path, language))[n]? = some id) {e}
    (he : d.journal.recordedEntry (path, language) (.provisional id) cache ahead = some e) :
    ∃ e', (t.cache (path, language))[n]? = some e' ∧
      Resolved (extendedIds stored d.journal) language e e' := by
  obtain ⟨own', hc, hown⟩ := h.cache (path, language)
  have hnodup : (extendedIds stored d.journal (path, language)).Nodup :=
    (haccepted.nodup_extendedIds (path, language)).sublist
      (extendedIds_mono hl (path, language)).sublist
  simp only [extendedIds, getElem?_map, Option.map_eq_some_iff] at hid
  obtain ⟨e₀, he₀, hid₀⟩ := hid
  have hunique : ∀ (m : ℕ) e₁, (stored (path, language) ++ d.journal.own (path, language))[m]? =
      some e₁ → e₁.id = id → m = n := fun m e₁ he₁ hid₁ =>
    index_unique hnodup he₁ he₀ (hid₁.trans hid₀.symm)
  simp only [ExpansionJournal.recordedEntry, flatMap_cons, find?_append] at he
  rw [hc]
  by_cases hn : n < (stored (path, language)).length
  · -- the variant is stored by now, so it is none of the run's own
    rw [List.getElem?_append_left hn] at he₀ ⊢
    have hnone : (d.journal.own (path, language)).find? (fun e => decide (e.id = id)) = none := by
      rw [find?_eq_none]
      intro e₁ he₁ hid₁
      obtain ⟨m, hm⟩ := mem_iff_getElem?.mp he₁
      have := hunique ((stored (path, language)).length + m) e₁ (by
        rw [getElem?_append_right (by omega), Nat.add_sub_cancel_left, hm])
        (by simpa using hid₁)
      omega
    rw [hnone] at he
    have heid : e.id = id := by simpa using find?_some he
    obtain ⟨a, ha, hmem⟩ := mem_flatMap.mp (mem_of_find?_eq_some he)
    refine ⟨e₀, he₀, ?_⟩
    exact (haccepted.setting.aheadStored a ha path e hmem e₀ (mem_of_getElem? he₀)
      (hid₀.trans heid.symm)).mono (covers_self d.journal).storedIds
  rw [getElem?_append_right (by omega)] at he₀ ⊢
  obtain ⟨e', he', hr⟩ := forall₂_getElem? hown he₀
  refine ⟨e', he', ?_⟩
  have hfind : (d.journal.own (path, language)).find? (fun e => decide (e.id = id)) = some e₀ := by
    rw [List.find?_eq_some_iff_getElem]
    obtain ⟨hlt, heq⟩ := List.getElem?_eq_some_iff.mp he₀
    refine ⟨by simpa using hid₀, _, hlt, heq, ?_⟩
    intro m hm
    simp only [Bool.not_eq_true', decide_eq_false_iff_not]
    intro hidm
    have := hunique ((stored (path, language)).length + m) _ (by
      rw [getElem?_append_right (by omega), Nat.add_sub_cancel_left]
      exact getElem?_eq_getElem (hm.trans hlt)) hidm
    omega
  rw [hfind, Option.some_or, Option.some.injEq] at he
  rw [← he]
  exact hr

omit [DecidableEq Path] in
/-- Records spelled alike name one variant just when they are equal. -/
lemma denotes_eq_iff {ids : ExpansionKey Path → List ℕ} {a b a' b' : Path × Handle}
    (hnodup : ∀ key, (ids key).Nodup) (ha : Denotes ids language a a')
    (hb : Denotes ids language b b')
    (hl : ∀ path n id, ¬ ((a = (path, .index n) ∧ b = (path, .provisional id) ∨
      a = (path, .provisional id) ∧ b = (path, .index n)) ∧
        (ids (path, language))[n]? = some id)) : a = b ↔ a' = b' := by
  obtain ⟨pa, ha₂⟩ := a
  obtain ⟨pb, hb₂⟩ := b
  obtain ⟨pa', ha₂'⟩ := a'
  obtain ⟨pb', hb₂'⟩ := b'
  obtain ⟨hpa, m, hm, hc⟩ := ha
  obtain ⟨hpb, n, hn, hc'⟩ := hb
  subst hpa hpb hm hn
  simp only [Prod.mk.injEq, Handle.index.injEq]
  rcases hc with rfl | ⟨id, rfl, hid⟩
  · rcases hc' with rfl | ⟨id', rfl, hid'⟩
    · simp
    · refine ⟨by simp, ?_⟩
      rintro ⟨rfl, rfl⟩
      exact absurd ⟨.inl ⟨rfl, rfl⟩, hid'⟩ (hl pa m id')
  rcases hc' with rfl | ⟨id', rfl, hid'⟩
  · refine ⟨by simp, ?_⟩
    rintro ⟨rfl, rfl⟩
    exact absurd ⟨.inr ⟨rfl, rfl⟩, hid⟩ (hl pa m id)
  simp only [Handle.provisional.injEq]
  constructor
  · rintro ⟨rfl, rfl⟩
    refine ⟨rfl, (List.getElem?_inj ?_ (hnodup (pa, language))).mp (hid.trans hid'.symm)⟩
    exact (List.getElem?_eq_some_iff.mp hid).1
  · rintro ⟨rfl, rfl⟩
    rw [hid, Option.some.injEq] at hid'
    exact ⟨rfl, hid'⟩

section Step
variable (haccepted : Accepted hash cap language ident ahead stored j)
  (hmoment : Moment hash cap language ident ahead stored j d cache)
  (h : Mirrors language stored d t)
include haccepted hmoment h

lemma step_matchingVariant
    (hl : (d.step hash ahead (cache, .matchingVariant path)).journal.Grows j) :
    Mirrors language stored (d.step hash ahead (cache, .matchingVariant path))
      (t.step hash cap language (.matchingVariant path)) := by
  obtain ⟨own', hc, hown⟩ := h.cache (path, language)
  simp only [Deferred.step, Deferred.answer, hmoment.language] at hl
  have hmirrors := lookup_mirrors haccepted (covers_self d.journal) hmoment.grows
    hmoment.consistent hl hmoment.satisfies hown
  refine h.of_same h.env (fun _ => ?_) rfl rfl rfl ?_
  · rfl
  · simp only [Deferred.answer, Direct.answer, Cache.matchingVariant, hmoment.language, hc,
      h.env]
    exact hmirrors

lemma step_publishVariant {draft}
    (hlater : (d.step hash ahead (cache, .publishVariant path draft)).journal.Grows j) :
    Mirrors language stored (d.step hash ahead (cache, .publishVariant path draft))
      (t.step hash cap language (.publishVariant path draft)) := by
  by_cases hincompatible : draft.deps.incompatible = true
  · refine h.of_same h.env (fun _ => ?_) ?_ ?_ ?_
      (.refused : Answer.Resolved _ _ (.published path none) (.published path none)) <;>
      simp [Deferred.step, Deferred.answer, Direct.step, Direct.answer, Cache.publishVariant,
        Draft.entry, hincompatible]
  obtain ⟨own', hc, hown⟩ := h.cache (path, language)
  have hentry : Resolved _ language (draft.entry d.answers) (draft.entry t.answers) :=
    ⟨rfl, rfl, rfl, rfl, recordsOf_forall₂ h.answers draft.nested⟩
  have hgrows : d.journal.Grows (d.step hash ahead (cache, .publishVariant path draft)).journal :=
    grows_step d cache _
  have hanswer : d.answer hash ahead cache (.publishVariant path draft) =
      (.published path (d.journal.publish (path, language) cache ahead (draft.entry d.answers)).1,
      (d.journal.publish (path, language) cache ahead (draft.entry d.answers)).2) := by
    simp [Deferred.answer, hincompatible, hmoment.language]
  have hans' : t.answer hash cap language (.publishVariant path draft) =
      (.published path (t.cache.publishVariant cap (path, language) (draft.entry t.answers)).1,
      (t.cache.publishVariant cap (path, language) (draft.entry t.answers)).2) := rfl
  have hcompatible : (draft.entry t.answers).deps.incompatible ≠ true := hincompatible
  have hlat' := hlater.own (path, language)
  simp only [Deferred.step, hanswer] at hlat'
  rcases publish_cases ahead d.journal (path, language) cache (draft.entry d.answers) with
    ⟨hadmits, heq⟩ | ⟨hr, heq⟩
  · have hkept : ∀ k, (d.journal.publish (path, language) cache ahead
        (draft.entry d.answers)).2.own k = d.journal.own k ++
          if k = (path, language) then [draft.entry d.answers] else [] := by
      intro k
      rw [heq]
      exact own_insert_append d.journal (path, language) k _
    rw [hkept, if_pos rfl] at hlat'
    rw [admitsVariant_iff] at hadmits
    have hadm' := publish_mirrors_kept haccepted hlat' hentry hown (by
      intro e he hs
      exact hadmits.1 (mem_append_right _ (mem_map.mpr ⟨e, he, hs⟩)))
    rw [← hc] at hadm'
    have hdirect : t.cache.publishVariant cap (path, language) (draft.entry t.answers) =
        (some (.index (t.cache (path, language)).length), Function.update t.cache
          (path, language) (t.cache (path, language) ++ [draft.entry t.answers])) := by
      rw [Cache.publishVariant, if_neg hcompatible, if_pos hadm']
    refine h.of_kept path h.env hgrows ?_ ?_ hentry ?_ ?_
    · simp only [Deferred.step, hanswer]
      exact hkept
    · intro k
      simp only [Direct.step, hans', hdirect]
      by_cases hk : k = (path, language)
      · subst hk
        simp
      · simp [hk]
    · simp [Deferred.step, hanswer, heq]
    · simp [Direct.step, hans', hdirect]
  have hkept : ∀ k, (d.journal.publish (path, language) cache ahead
      (draft.entry d.answers)).2.own k = d.journal.own k := by
    intro k
    rw [heq]
    refine (own_insert_append d.journal (path, language) k []).trans ?_
    simp
  rw [hkept] at hlat'
  obtain ⟨seen, hseen, hview, -⟩ := hlater.seen (path, language)
    (d.journal.seenOf cache ahead (path, language))
    (by simp only [Deferred.step, hanswer, heq]; exact AList.lookup_insert ..)
  have hnamed : cache.Named ident := fun key e he =>
    haccepted.setting.named key e ((hmoment.grows key).subset he)
  have hsound : ∀ v ∈ seen.view, v.Sound ident ahead cache (path, language) := by
    rw [hview]
    exact fun v hv =>
      hmoment.consistent.seenOf_view hnamed haccepted.setting.aheadNamed hv
  rw [← hview, hmoment.cap] at hr
  obtain ⟨hr', hrel⟩ := publish_mirrors_found haccepted (covers_self d.journal)
    hmoment.grows hseen hsound hlat' hown hr
  rw [← hc] at hr' hrel
  have hdirect : t.cache.publishVariant cap (path, language) (draft.entry t.answers) =
      (((t.cache (path, language)).findIdx? fun e =>
        decide (e.signature = (draft.entry t.answers).signature)).map .index, t.cache) := by
    rw [Cache.publishVariant, if_neg hcompatible, if_neg]
    exact Bool.eq_false_iff.mp hr'
  refine h.of_same h.env ?_ ?_ rfl rfl ?_
  · simp only [Deferred.step, hanswer]
    exact hkept
  · simp [Direct.step, hans', hdirect]
  · simp only [hanswer, hans', hdirect, heq, ← hview]
    exact .of_rel hrel

lemma step_recordedEntry {record : Ref} (hlater : d.journal.Grows j)
    (hl : (Op.recordedEntry record).Legible ahead cache stored d) :
    Mirrors language stored (d.step hash ahead (cache, .recordedEntry record))
      (t.step hash cap language (.recordedEntry record)) := by
  refine h.of_same h.env (fun _ => rfl) rfl rfl rfl ?_
  simp only [Deferred.answer, Direct.answer, hmoment.language]
  have hrel := recordOf_rel h.answers record
  cases hr : recordOf d.answers record with
  | none =>
    cases hr' : recordOf t.answers record with
    | none => exact .unrecorded
    | some _ => rw [hr, hr'] at hrel; cases hrel
  | some r =>
    cases hr' : recordOf t.answers record with
    | none => rw [hr, hr'] at hrel; cases hrel
    | some r' =>
      rw [hr, hr'] at hrel
      obtain ⟨path, handle⟩ := r
      obtain ⟨path', handle'⟩ := r'
      cases hrel with
      | some hd =>
        obtain ⟨hp, n, hn, hc⟩ := hd
        subst hp hn
        obtain ⟨e, he⟩ := Option.isSome_iff_exists.mp (hl _ hr)
        rw [hmoment.language] at he
        simp only [Option.bind_some, he]
        rcases hc with rfl | ⟨id, rfl, hid⟩
        · obtain ⟨own', hcache, -⟩ := h.cache (path, language)
          have hat := hmoment.grows.getElem? he
          rw [hcache, List.getElem?_append_left (List.getElem?_eq_some_iff.mp hat).1, hat]
          exact .recorded (haccepted.resolved_stored (mem_of_getElem? hat))
        · obtain ⟨e', he', hresolved⟩ := recordedEntry_mirrors haccepted hlater h hid he
          rw [he']
          exact .recorded hresolved

lemma step_sameRecord {a b : Ref} (hlater : d.journal.Grows j)
    (hl : (Op.sameRecord a b).Legible ahead cache stored d) :
    Mirrors language stored (d.step hash ahead (cache, .sameRecord a b))
      (t.step hash cap language (.sameRecord a b)) := by
  have hnodup : ∀ key, (extendedIds stored d.journal key).Nodup := fun key =>
    (haccepted.nodup_extendedIds key).sublist (extendedIds_mono hlater key).sublist
  have hsame : recordOf d.answers a = recordOf d.answers b ↔
      recordOf t.answers a = recordOf t.answers b := by
    have hrel := recordOf_rel h.answers a
    have hrel' := recordOf_rel h.answers b
    simp only [Op.Legible, hmoment.language] at hl
    generalize recordOf d.answers a = ra at hrel hl ⊢
    generalize recordOf t.answers a = ra' at hrel ⊢
    generalize recordOf d.answers b = rb at hrel' hl ⊢
    generalize recordOf t.answers b = rb' at hrel' ⊢
    cases hrel with
    | none => cases hrel' <;> simp
    | some ha =>
      cases hrel' with
      | none => simp
      | some hb =>
        simp only [Option.some.injEq] at hl ⊢
        exact denotes_eq_iff hnodup ha hb hl
  refine h.of_same h.env (fun _ => rfl) rfl rfl rfl ?_
  simp only [Deferred.answer, hsame]
  exact .compared _

lemma step {op} (hlater : (d.step hash ahead (cache, op)).journal.Grows j)
    (hl : op.Legible ahead cache stored d) :
    Mirrors language stored (d.step hash ahead (cache, op)) (t.step hash cap language op) := by
  have hlat' : d.journal.Grows j := (grows_step d cache op).trans hlater
  cases op with
  | define name definition =>
    exact h.of_same (congrArg (·.insertMacro name definition) h.env) (fun _ => rfl) rfl rfl rfl
      .quiet
  | undef name =>
    exact h.of_same (congrArg (·.removeMacro name) h.env) (fun _ => rfl) rfl rfl rfl .quiet
  | provideSystemHeader path signature =>
    refine h.of_same (congrArg (·.provideSystemHeader path signature) h.env) (fun _ => ?_) rfl
      rfl rfl .quiet
    simp only [Deferred.step, Deferred.answer, ExpansionJournal.recordHeader]
    split <;> rfl
  | matchingVariant path => exact step_matchingVariant haccepted hmoment h hlater
  | publishVariant path draft => exact step_publishVariant haccepted hmoment h hlater
  | recordedEntry record => exact step_recordedEntry haccepted hmoment h hlat' hl
  | sameRecord a b => exact step_sameRecord haccepted hmoment h hlat' hl

end Step
end Mirrors

/-- Every operation of the run is legible when its turn comes. -/
def Legible (hash : Def → Bool → ℕ) (ahead : List (ExpansionJournal Name Path Def Rest))
    (stored : Cache Name Path Rest) :
    Deferred Name Path Def Rest → List (Cache Name Path Rest × Op Name Path Def Rest) → Prop
  | _, [] => True
  | d, o :: ops => o.2.Legible ahead o.1 stored d ∧
      Legible hash ahead stored (d.step hash ahead o) ops

namespace Deferred
variable {d : Deferred Name Path Def Rest} {cache : Cache Name Path Rest}

lemma grows_run (d : Deferred Name Path Def Rest)
    (ops : List (Cache Name Path Rest × Op Name Path Def Rest)) :
    d.journal.Grows (d.run hash ahead ops).journal := by
  induction ops generalizing d with
  | nil => exact .refl _
  | cons o ops ih => exact (grows_step d o.1 o.2).trans (ih (d.step hash ahead o))

lemma consistent_run (hn : stored.Named ident)
    (ha : ∀ j ∈ ahead, ∀ key, ∀ e ∈ j.own key, Names ident key e)
    (h : Consistent ident ahead cache d.journal) {ops} (ht : Timely stored cache ops)
    (hops : ∀ o ∈ ops, o.2.Named ident d.journal.language) :
    Consistent ident ahead stored (d.run hash ahead ops).journal := by
  induction ops generalizing d cache with
  | nil => exact h.mono ht
  | cons o ops ih =>
    obtain ⟨cache', op⟩ := o
    have hcache : cache'.Named ident := fun key e he =>
      hn key e ((ht.2.grows key).subset he)
    have hstep : Consistent ident ahead cache' (d.step hash ahead (cache', op)).journal :=
      consistent_step (h.mono ht.1) hcache ha (hops (cache', op) mem_cons_self)
    refine ih hstep ht.2 ?_
    have hgrows : d.journal.Grows (d.step hash ahead (cache', op)).journal :=
      grows_step d cache' op
    rw [hgrows.language]
    exact fun o ho => hops o (mem_cons_of_mem _ ho)

end Deferred

variable {d : Deferred Name Path Def Rest}

lemma legible_append {o} (h : Legible hash ahead stored d ops)
    (ho : o.2.Legible ahead o.1 stored (d.run hash ahead ops)) :
    Legible hash ahead stored d (ops ++ [o]) := by
  induction ops generalizing d with
  | nil => exact ⟨ho, trivial⟩
  | cons _ ops ih => exact ⟨h.1, ih h.2 ho⟩

lemma Legible.of_append {rest} (h : Legible hash ahead stored d (ops ++ rest)) :
    Legible hash ahead stored d ops := by
  induction ops generalizing d with
  | nil => trivial
  | cons _ ops ih => exact ⟨h.1, ih h.2⟩

/-- A deferred run whose final journal agrees with the stored cache, and the direct run
on that cache, are mirrored all along. -/
lemma mirrors_run {t} {cache all} (hall : ops <+: all)
    (haccepted : Accepted hash cap language ident ahead stored (d.run hash ahead all).finished)
    (hk : d.HeadersKept) (hc : Consistent ident ahead cache d.journal)
    (ht : Timely stored cache all) (hops : ∀ o ∈ ops, o.2.Named ident language)
    (hl : Legible hash ahead stored d ops) (h : Mirrors language stored d t) :
    Mirrors language stored (d.run hash ahead ops)
      (t.run hash cap language (ops.map Prod.snd)) := by
  obtain ⟨rest, rfl⟩ := hall
  induction ops generalizing d t cache with
  | nil => exact h
  | cons o ops ih =>
    obtain ⟨cache', op⟩ := o
    rw [cons_append] at haccepted ht
    have hlater : (d.step hash ahead (cache', op)).journal.Grows
        (d.run hash ahead ((cache', op) :: (ops ++ rest))).finished :=
      (grows_run _ (ops ++ rest)).trans (grows_finished _)
    have hfirst := (grows_step d cache' op).trans hlater
    have hlanguage : d.journal.language = language := by
      rw [← hfirst.language, haccepted.language]
    have hnamed : cache'.Named ident := fun key e he =>
      haccepted.setting.named key e ((ht.2.grows key).subset he)
    obtain ⟨hk', -⟩ := written_step hash ahead hk (cache', op)
    obtain ⟨hk'', hw⟩ := written_run hash ahead hk ((cache', op) :: (ops ++ rest))
    have hmoment : Mirrors.Moment hash cap language ident ahead stored
        (d.run hash ahead ((cache', op) :: (ops ++ rest))).finished d cache' :=
      { grows := ht.2.grows
        consistent := hc.mono ht.1
        language := hlanguage
        cap := by rw [← hfirst.cap, haccepted.cap]
        satisfies := finished_satisfies hk hk'' hw }
    refine ih hk' ?_ (fun o ho => hops o (mem_cons_of_mem _ ho)) hl.2
      (h.step haccepted hmoment hlater hl.1) haccepted ht.2
    refine consistent_step (hc.mono ht.1) hnamed haccepted.setting.aheadNamed ?_
    rw [hlanguage]
    exact hops (cache', op) mem_cons_self

end Pathologist.Expansion

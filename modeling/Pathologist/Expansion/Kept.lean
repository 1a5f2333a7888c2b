import Pathologist.Expansion.Identity

/-!
# What a journal keeps during its run

A journal only grows: a header's view is fixed by the first look, lookups and entries
are appended. Every shown variant is one of the cache or of a journal ahead, and the
entries kept back have signatures of their own.
-/
open List
namespace Pathologist.Expansion
open ExpansionJournal
variable {Name Path Def Rest : Type*} [DecidableEq Path]
variable {ident : ℕ → Identity Name Path Rest} {hash : Def → Bool → ℕ}
variable {ahead : List (ExpansionJournal Name Path Def Rest)}
variable {cache cache' : Cache Name Path Rest} {key : ExpansionKey Path} {v : Shown Name Path}

/-- The entry a shown variant was made from. -/
def Source.entry (ahead : List (ExpansionJournal Name Path Def Rest)) (cache : Cache Name Path Rest)
    (key : ExpansionKey Path) : Source → Option (IncludeExpansion Name Path Rest)
  | .stored n => (cache key)[n]?
  | .ahead journal n => ahead[journal]?.bind fun j => (j.own key)[n]?

/-- The variant was made from an entry that is still where it came from. -/
def Shown.Sound (ident : ℕ → Identity Name Path Rest)
    (ahead : List (ExpansionJournal Name Path Def Rest)) (cache : Cache Name Path Rest)
    (key : ExpansionKey Path) (v : Shown Name Path) : Prop :=
  ∃ e, Names ident key e ∧ v = Shown.of e v.source ∧ v.source.entry ahead cache key = some e

lemma Shown.Sound.mono (hg : cache.Grows cache') (h : v.Sound ident ahead cache key) :
    v.Sound ident ahead cache' key := by
  obtain ⟨e, hn, hv, he⟩ := h
  refine ⟨e, hn, hv, ?_⟩
  cases hs : v.source with
  | stored n =>
    rw [hs] at he
    exact hg.getElem? he
  | ahead journal n =>
    rw [hs] at he
    exact he

omit [DecidableEq Path] in
lemma mem_foldl_addUnshown {candidates view : List (Shown Name Path)}
    (h : v ∈ candidates.foldl addUnshown view) : v ∈ view ∨ v ∈ candidates := by
  induction candidates generalizing view with
  | nil => exact .inl h
  | cons c candidates ih =>
    rcases ih h with hv | hmem
    · unfold addUnshown at hv
      split at hv
      · exact .inl hv
      · rcases mem_append.mp hv with hv | hc
        · exact .inl hv
        · exact .inr (mem_cons.mpr (.inl (mem_singleton.mp hc)))
    · exact .inr (mem_cons_of_mem _ hmem)

lemma firstView_sound (hn : cache.Named ident)
    (ha : ∀ j ∈ ahead, ∀ key, ∀ e ∈ j.own key, Names ident key e)
    (h : v ∈ firstView cache ahead key) : v.Sound ident ahead cache key := by
  rcases mem_foldl_addUnshown h with hs | hk
  · obtain ⟨⟨e, n⟩, hmem, rfl⟩ := mem_map.mp hs
    have hat := mem_zipIdx_iff_getElem?.mp hmem
    exact ⟨e, hn key e (mem_of_getElem? hat), rfl, hat⟩
  obtain ⟨⟨j, journal⟩, hj, hmem⟩ := mem_flatMap.mp hk
  obtain ⟨⟨e, n⟩, he, rfl⟩ := mem_map.mp hmem
  have hjournal := mem_zipIdx_iff_getElem?.mp hj
  have hat := mem_zipIdx_iff_getElem?.mp he
  refine ⟨e, ha j (mem_of_getElem? hjournal) key e (mem_of_getElem? hat), rfl, ?_⟩
  simp only [Shown.of, Source.entry]
  rw [hjournal, Option.bind_some, hat]

/-- What holds of a journal at every moment of its run. -/
structure Consistent (ident : ℕ → Identity Name Path Rest)
    (ahead : List (ExpansionJournal Name Path Def Rest)) (cache : Cache Name Path Rest)
    (j : ExpansionJournal Name Path Def Rest) : Prop where
  shown : ∀ key seen, j.seen.lookup key = some seen → ∀ v ∈ seen.view, v.Sound ident ahead cache key
  ownNamed : ∀ key, ∀ e ∈ j.own key, Names ident key e
  ownSeen : ∀ key, j.own key ≠ [] → (j.seen.lookup key).isSome
  ownDistinct : ∀ key, ((j.own key).map IncludeExpansion.signature).Nodup
  ownNew : ∀ key seen, j.seen.lookup key = some seen → ∀ e ∈ j.own key, ∀ v ∈ seen.view,
    e.signature ≠ v.signature

lemma consistent_new (cap : ℕ) (language : Language) :
    Consistent ident ahead cache (.new cap language : ExpansionJournal Name Path Def Rest) := by
  constructor <;> simp [new, ExpansionJournal.own]

lemma own_insert_append (j : ExpansionJournal Name Path Def Rest) (key k : ExpansionKey Path)
    (more : List (IncludeExpansion Name Path Rest)) :
    ({ j with pending := j.pending.insert key (j.own key ++ more) } :
      ExpansionJournal Name Path Def Rest).own k = j.own k ++ if k = key then more else [] := by
  unfold ExpansionJournal.own
  by_cases hk : k = key
  · subst hk
    simp
  · simp [hk]

namespace Consistent
variable {j j' : ExpansionJournal Name Path Def Rest} (h : Consistent ident ahead cache j)
include h

lemma mono (hg : cache.Grows cache') : Consistent ident ahead cache' j :=
  ⟨fun key seen hs v hv => (h.shown key seen hs v hv).mono hg, h.ownNamed, h.ownSeen,
    h.ownDistinct, h.ownNew⟩

/-- The history plays no part. -/
lemma congr (hs : j'.seen = j.seen) (hown : ∀ key, j'.own key = j.own key) :
    Consistent ident ahead cache j' := by
  exact ⟨by rw [hs]; exact h.shown, by simpa only [hown] using h.ownNamed,
    by simpa only [hown, hs] using h.ownSeen, by simpa only [hown] using h.ownDistinct,
    by simpa only [hown, hs] using h.ownNew⟩

/-- The view of a first look is the view of every look. -/
lemma seenOf_view (hn : cache.Named ident)
    (ha : ∀ j ∈ ahead, ∀ key, ∀ e ∈ j.own key, Names ident key e) {v}
    (hv : v ∈ (j.seenOf cache ahead key).view) : v.Sound ident ahead cache key := by
  unfold seenOf at hv
  cases hs : j.seen.lookup key with
  | none =>
    rw [hs] at hv
    exact firstView_sound hn ha hv
  | some seen =>
    rw [hs] at hv
    exact h.shown key seen hs v hv

lemma seenOf_new {e} (he : e ∈ j.own key) {v} (hv : v ∈ (j.seenOf cache ahead key).view) :
    e.signature ≠ v.signature := by
  obtain ⟨seen, hs⟩ := Option.isSome_iff_exists.mp (h.ownSeen key (ne_nil_of_mem he))
  rw [seenOf, hs] at hv
  exact h.ownNew key seen hs e he v hv

/-- A look at `key` that keeps its view. -/
lemma insert_seen (hn : cache.Named ident)
    (ha : ∀ j ∈ ahead, ∀ key, ∀ e ∈ j.own key, Names ident key e) {seen}
    (hview : seen.view = (j.seenOf cache ahead key).view) :
    Consistent ident ahead cache { j with seen := j.seen.insert key seen } := by
  refine ⟨?_, h.ownNamed, ?_, h.ownDistinct, ?_⟩
  · intro k s hs v hv
    by_cases hk : k = key
    · subst hk
      rw [AList.lookup_insert, Option.some.injEq] at hs
      rw [← hs, hview] at hv
      exact h.seenOf_view hn ha hv
    · rw [AList.lookup_insert_ne hk] at hs
      exact h.shown k s hs v hv
  · intro k hk
    by_cases hkey : k = key
    · subst hkey
      simp
    · rw [AList.lookup_insert_ne hkey]
      exact h.ownSeen k hk
  intro k s hs e he v hv
  by_cases hk : k = key
  · subst hk
    rw [AList.lookup_insert, Option.some.injEq] at hs
    rw [← hs, hview] at hv
    exact h.seenOf_new he hv
  · rw [AList.lookup_insert_ne hk] at hs
    exact h.ownNew k s hs e he v hv

/-- Another entry is kept back, of a signature that neither the view nor the run's
own entries have. -/
lemma insert_own {seen} (hseen : j.seen.lookup key = some seen) {entry} (hn : Names ident key entry)
    (hview : ∀ v ∈ seen.view, entry.signature ≠ v.signature)
    (hown : ∀ e ∈ j.own key, e.signature ≠ entry.signature) : Consistent ident ahead cache
      { j with pending := j.pending.insert key (j.own key ++ [entry]) } := by
  have hcases : ∀ k, ∀ e ∈ (j.own k ++ if k = key then [entry] else []),
      e ∈ j.own k ∨ (k = key ∧ e = entry) := by
    intro k e he
    rcases mem_append.mp he with he | he
    · exact .inl he
    split at he
    · rename_i hk
      exact .inr ⟨hk, mem_singleton.mp he⟩
    · simp at he
  refine ⟨h.shown, ?_, ?_, ?_, ?_⟩ <;> simp only [own_insert_append]
  · intro k e he
    rcases hcases k e he with he | ⟨rfl, rfl⟩
    · exact h.ownNamed k e he
    · exact hn
  · intro k hk
    by_cases hkey : k = key
    · subst hkey
      simp [hseen]
    · rw [if_neg hkey, append_nil] at hk
      exact h.ownSeen k hk
  · intro k
    split
    · rename_i hk
      subst hk
      rw [map_append, nodup_append]
      refine ⟨h.ownDistinct k, by simp, ?_⟩
      intro a ha b hb
      obtain ⟨e, he, rfl⟩ := mem_map.mp ha
      simp only [map_cons, map_nil, mem_singleton] at hb
      rw [hb]
      exact hown e he
    · rw [append_nil]
      exact h.ownDistinct k
  · intro k s hs e he v hv
    rcases hcases k e he with he | ⟨rfl, rfl⟩
    · exact h.ownNew k s hs e he v hv
    · rw [hseen, Option.some.injEq] at hs
      rw [← hs] at hv
      exact hview v hv

end Consistent

/-- `j'` is a later state of the journal `j`. -/
structure ExpansionJournal.Grows (j j' : ExpansionJournal Name Path Def Rest) : Prop where
  seen : ∀ key seen, j.seen.lookup key = some seen → ∃ seen', j'.seen.lookup key = some seen' ∧
    seen'.view = seen.view ∧ seen.lookups <+: seen'.lookups
  own : ∀ key, j.own key <+: j'.own key
  cap : j'.cap = j.cap
  language : j'.language = j.language

namespace ExpansionJournal.Grows
variable {a b c : ExpansionJournal Name Path Def Rest}

lemma refl (a : ExpansionJournal Name Path Def Rest) : a.Grows a :=
  ⟨fun _ seen h => ⟨seen, h, rfl, prefix_rfl⟩, fun _ => prefix_rfl, rfl, rfl⟩

lemma trans (h : a.Grows b) (h' : b.Grows c) : a.Grows c := by
  refine ⟨?_, fun key => (h.own key).trans (h'.own key), h'.cap.trans h.cap,
    h'.language.trans h.language⟩
  intro key seen hs
  obtain ⟨seen', hs', hv, hl⟩ := h.seen key seen hs
  obtain ⟨seen'', hs'', hv', hl'⟩ := h'.seen key seen' hs'
  exact ⟨seen'', hs'', hv'.trans hv, hl.trans hl'⟩

lemma congr (hs : b.seen = a.seen) (hp : b.pending = a.pending) (hcap : b.cap = a.cap)
    (hl : b.language = a.language) : a.Grows b := by
  refine ⟨?_, ?_, hcap, hl⟩
  · intro key seen h
    exact ⟨seen, by rw [hs]; exact h, rfl, prefix_rfl⟩
  intro key
  have hown : a.own key = b.own key := by
    rw [ExpansionJournal.own, ExpansionJournal.own, hp]
  exact hown ▸ prefix_rfl

/-- A look at `key` keeps its view and appends to its lookups. -/
lemma insert_seen {seen} (hv : seen.view = (a.seenOf cache ahead key).view)
    (hl : (a.seenOf cache ahead key).lookups <+: seen.lookups) :
    a.Grows { a with seen := a.seen.insert key seen } := by
  refine ⟨?_, fun _ => prefix_rfl, rfl, rfl⟩
  intro k s hs
  by_cases hk : k = key
  · subst hk
    rw [seenOf, hs, Option.getD_some] at hv hl
    exact ⟨seen, AList.lookup_insert .., hv, hl⟩
  · exact ⟨s, by rw [AList.lookup_insert_ne hk]; exact hs, rfl, prefix_rfl⟩

lemma insert_own (more : List (IncludeExpansion Name Path Rest)) :
    a.Grows { a with pending := a.pending.insert key (a.own key ++ more) } := by
  refine ⟨fun k s hs => ⟨s, hs, rfl, prefix_rfl⟩, ?_, rfl, rfl⟩
  intro k
  rw [own_insert_append]
  exact prefix_append _ _

end ExpansionJournal.Grows

/-- A publication keeps an entry back, or finds the variant that stands for it. -/
lemma publish_cases (ahead : List (ExpansionJournal Name Path Def Rest))
    (j : ExpansionJournal Name Path Def Rest) (key : ExpansionKey Path)
    (cache : Cache Name Path Rest) (entry : IncludeExpansion Name Path Rest) :
    let seen := j.seenOf cache ahead key
    (admitsVariant (seen.view.map Shown.signature ++ (j.own key).map IncludeExpansion.signature)
        j.cap entry.signature = true ∧
      j.publish key cache ahead entry = (some (.provisional entry.id), { j with
          seen := j.seen.insert key seen
          pending := j.pending.insert key (j.own key ++ [entry]) })) ∨
    (admitsVariant (seen.view.map Shown.signature ++ (j.own key).map IncludeExpansion.signature)
        j.cap entry.signature = false ∧
      j.publish key cache ahead entry =
        ((seen.view.find? fun v => decide (v.signature = entry.signature)).map Shown.handle <|>
          ((j.own key).find? fun e => decide (e.signature = entry.signature)).map
            fun e => .provisional e.id,
        { j with
          seen := j.seen.insert key seen
          pending := j.pending.insert key (j.own key ++ []) })) := by
  intro seen
  unfold publish
  dsimp only
  split
  · rename_i ha
    exact .inl ⟨ha, rfl⟩
  · rename_i ha
    exact .inr ⟨by simpa using ha, by rw [append_nil]⟩

/-- A published entry is what its id stands for. -/
def Op.Named (ident : ℕ → Identity Name Path Rest) (language : Language) :
    Op Name Path Def Rest → Prop
  | .publishVariant path draft =>
    ident draft.id = ⟨(path, language), draft.signature, draft.deps, draft.rest⟩
  | _ => True

variable [DecidableEq Name]

namespace Deferred
variable {d : Deferred Name Path Def Rest} {op : Op Name Path Def Rest}

lemma grows_step (d : Deferred Name Path Def Rest) (cache : Cache Name Path Rest)
    (op : Op Name Path Def Rest) : d.journal.Grows (d.step hash ahead (cache, op)).journal := by
  cases op with
  | define name definition | undef name => exact .congr rfl rfl rfl rfl
  | provideSystemHeader path signature =>
    simp only [step, answer, recordHeader]
    split
    · exact .refl _
    · exact .congr rfl rfl rfl rfl
  | matchingVariant path => exact .insert_seen rfl (prefix_append _ _)
  | publishVariant path draft =>
    simp only [step, answer]
    split
    · exact .refl _
    rcases publish_cases ahead d.journal (path, d.journal.language) cache
      (draft.entry d.answers) with ⟨-, heq⟩ | ⟨-, heq⟩ <;>
    · simp only [heq]
      exact (ExpansionJournal.Grows.insert_seen rfl prefix_rfl).trans (.insert_own _)
  | recordedEntry record | sameRecord a b => exact .refl _

lemma consistent_step (h : Consistent ident ahead cache d.journal) (hn : cache.Named ident)
    (hahead : ∀ j ∈ ahead, ∀ key, ∀ e ∈ j.own key, Names ident key e)
    (hop : op.Named ident d.journal.language) :
    Consistent ident ahead cache (d.step hash ahead (cache, op)).journal := by
  cases op with
  | define name definition | undef name => exact h.congr rfl fun _ => rfl
  | provideSystemHeader path signature =>
    simp only [step, answer, recordHeader]
    split
    · exact h
    · exact h.congr rfl fun _ => rfl
  | matchingVariant path => exact h.insert_seen hn hahead rfl
  | publishVariant path draft =>
    simp only [step, answer]
    split
    · exact h
    have hseen : Consistent ident ahead cache { d.journal with
        seen := d.journal.seen.insert (path, d.journal.language)
          (d.journal.seenOf cache ahead (path, d.journal.language)) } :=
      h.insert_seen hn hahead rfl
    rcases publish_cases ahead d.journal (path, d.journal.language) cache
      (draft.entry d.answers) with ⟨ha, heq⟩ | ⟨-, heq⟩
    · simp only [heq]
      simp only [admitsVariant, Bool.and_eq_true, Bool.not_eq_true', contains_eq_mem,
        decide_eq_false_iff_not, mem_append, mem_map, not_or, not_exists,
        not_and] at ha
      refine hseen.insert_own (AList.lookup_insert ..) hop ?_ ?_
      · intro v hv heq
        exact ha.1.1 v hv heq.symm
      · exact ha.1.2
    · simp only [heq]
      refine hseen.congr rfl fun k => ?_
      refine (own_insert_append d.journal (path, d.journal.language) k []).trans ?_
      simp [ExpansionJournal.own]
  | recordedEntry record | sameRecord a b => exact h

end Deferred
end Pathologist.Expansion

import Mathlib.Data.Nat.Pairing
import Pathologist.Expansion.Program

/-!
# The course of a deferred run

Which exchanges a deferred run has made, against which caches, and why it stands for
the run on the cache it commits to: the program, told the same things in both, makes
the same exchanges.
-/
open List
namespace Pathologist.Expansion
open Deferred TranslationUnit
variable {Name Path Def Rest Text : Type*}

/-- The record, when it names a variant by index, names one that is stored. -/
def Known (cache : Cache Name Path Rest) (language : Language) (r : Path × Handle) : Prop :=
  ∀ n, r.2 = .index n → n < (cache (r.1, language)).length

/-- The nested records of the stored entries are known to the cache. -/
def Cache.Closed (cache : Cache Name Path Rest) : Prop :=
  ∀ key, ∀ e ∈ cache key, ∀ r ∈ e.nestedVariants, Known cache key.2 r

section
variable {cache cache' stored stored' : Cache Name Path Rest} {language : Language}
  {r r' : Path × Handle} {ids : ExpansionKey Path → List ℕ} {e e' : IncludeExpansion Name Path Rest}
  {ops : List (Cache Name Path Rest × Op Name Path Def Rest)}

lemma Known.mono (hg : cache.Grows cache') (h : Known cache language r) : Known cache' language r :=
  fun n hn => (h n hn).trans_le (hg _).length_le

lemma known_provisional (path : Path) (id : ℕ) : Known cache language (path, .provisional id) := by
  intro n hn
  cases hn

lemma Resolved.visible (h : Resolved ids language e e') : e.visible = e'.visible := by
  have hpaths : ∀ {l l' : List (Path × Handle)}, List.Forall₂ (Denotes ids language) l l' →
      l.map Prod.fst = l'.map Prod.fst := by
    intro l l' hl
    induction hl with
    | nil => rfl
    | cons hd _ ih => rw [map_cons, map_cons, hd.1, ih]
  rw [IncludeExpansion.visible, IncludeExpansion.visible, h.signature, h.deps, h.rest,
    hpaths h.nested]

/-- A program cannot tell a direct answer from the deferred one. -/
lemma Answer.Resolved.observe {a a' : Answer Name Path Rest}
    (h : Answer.Resolved ids language a a') :
    a.observe = a'.observe := by
  cases h with
  | quiet => rfl
  | missed => rfl
  | found _ hr | recorded hr =>
    simp [Answer.observe, hr.visible]
  | refused => rfl
  | published _ => rfl
  | unrecorded => rfl
  | compared same => rfl

lemma timely_append {op} (h : Timely stored cache ops) (hg : stored.Grows stored') :
    Timely stored' cache (ops ++ [(stored, op)]) := by
  induction ops generalizing cache with
  | nil => exact ⟨h, hg⟩
  | cons o ops ih => exact ⟨h.1, ih h.2⟩

lemma Timely.mono (h : Timely stored cache ops) (hg : stored.Grows stored') :
    Timely stored' cache ops := by
  induction ops generalizing cache with
  | nil => exact Cache.Grows.trans h hg
  | cons o ops ih => exact ⟨h.1, ih h.2⟩

lemma Names.resolved {key ident} (h : Names ident key e) (hr : Resolved ids language e e') :
    Names ident key e' := by
  rw [Names, hr.id, hr.signature, hr.deps, hr.rest]
  exact h

lemma Denotes.known (h : Denotes stored.ids language r r') (hk : Known stored language r) :
    Known stored language r' := by
  obtain ⟨hp, n, hn, hc⟩ := h
  intro m hm
  obtain rfl : n = m := Handle.index.inj (hn.symm.trans hm)
  rw [← hp]
  rcases hc with hindex | ⟨id, -, hat⟩
  · exact hk n hindex
  · simpa [Cache.ids] using (List.getElem?_eq_some_iff.mp hat).1

lemma exists_of_mem_right {α β : Type*} {r} {l : List α} {l' : List β} (h : List.Forall₂ r l l')
    {b : β} (hb : b ∈ l') : ∃ a ∈ l, r a b := by
  induction h with
  | nil => simp at hb
  | cons hab _ ih =>
    rcases mem_cons.mp hb with rfl | hb
    · exact ⟨_, mem_cons_self, hab⟩
    · obtain ⟨a, ha, hab⟩ := ih hb
      exact ⟨a, mem_cons_of_mem _ ha, hab⟩

end

variable [DecidableEq Path]

/-- The nested records of the entries kept back are known to `cache`. -/
def ExpansionJournal.Closed (cache : Cache Name Path Rest)
    (j : ExpansionJournal Name Path Def Rest) : Prop :=
  ∀ key, ∀ e ∈ j.own key, ∀ r ∈ e.nestedVariants, Known cache key.2 r

section
variable {cache cache' : Cache Name Path Rest} {language : Language} {r : Path × Handle}

variable {j : ExpansionJournal Name Path Def Rest}

lemma ExpansionJournal.Closed.mono (hg : cache.Grows cache') (h : j.Closed cache) :
    j.Closed cache' :=
  fun key e he r hr => (h key e he r hr).mono hg

/-- The records a deferred run has been given are known to the cache of the moment. -/
structure Deferred.Known (cache : Cache Name Path Rest) (d : Deferred Name Path Def Rest) :
    Prop where
  answers : ∀ a ∈ d.answers, ∀ r ∈ a.records, Expansion.Known cache d.journal.language r
  journal : d.journal.Closed cache

variable {d : Deferred Name Path Def Rest}

lemma Deferred.Known.record (h : d.Known cache) {ref : Ref} (hr : recordOf d.answers ref = some r) :
    Expansion.Known cache d.journal.language r := by
  obtain ⟨a, ha, hmem⟩ := Option.bind_eq_some_iff.mp hr
  exact h.answers a (mem_of_getElem? ha) r (mem_of_getElem? hmem)

lemma Deferred.Known.mono (hg : cache.Grows cache') (h : d.Known cache) : d.Known cache' :=
  ⟨fun a ha r hr => (h.answers a ha r hr).mono hg, h.journal.mono hg⟩

variable {hash : Def → Bool → ℕ}
  {ahead : List (ExpansionJournal Name Path Def Rest)} {ident : ℕ → Identity Name Path Rest}

/-- Every entry a run can be shown has its nested records in range. -/
structure Ranged (ahead : List (ExpansionJournal Name Path Def Rest))
    (cache : Cache Name Path Rest) : Prop where
  stored : cache.Closed
  kept : ∀ j ∈ ahead, j.Closed cache

variable {path : Path} {e : IncludeExpansion Name Path Rest}

lemma handle_known {v : Shown Name Path}
    (h : v.source.entry ahead cache (path, language) = some e) :
    Known cache language (path, v.handle) := by
  cases hs : v.source with
  | stored n =>
    rw [hs] at h
    have hn : n < (cache (path, language)).length := (List.getElem?_eq_some_iff.mp h).1
    simp only [Shown.handle, hs, Known, Handle.index.injEq]
    rintro m rfl
    exact hn
  | ahead journal n =>
    simp only [Shown.handle, hs]
    exact known_provisional path v.id

variable {key : ExpansionKey Path}

lemma Ranged.source (hr : Ranged ahead cache) {source : Source}
    (h : source.entry ahead cache key = some e) :
    ∀ r ∈ e.nestedVariants, Known cache key.2 r := by
  cases source with
  | stored n => exact hr.stored key e (mem_of_getElem? h)
  | ahead journal n =>
    obtain ⟨j, hj, he⟩ := Option.bind_eq_some_iff.mp h
    exact hr.kept j (mem_of_getElem? hj) key e (mem_of_getElem? he)

lemma lookup_known {accepts} (hranged : Ranged ahead cache) (hj : j.Closed cache)
    (hr : r ∈ (Answer.found path (j.lookup (path, language) cache ahead accepts).1).records) :
    Known cache language r := by
  obtain ⟨⟨h, e⟩, htaken, hmem⟩ : ∃ t, (j.lookup (path, language) cache ahead accepts).1 = some t ∧
      r ∈ (path, t.1) :: t.2.nestedVariants := by
    cases ht : (j.lookup (path, language) cache ahead accepts).1 with
    | none => rw [ht] at hr; simp [Answer.records] at hr
    | some t => rw [ht] at hr; exact ⟨t, rfl, hr⟩
  suffices hb : Known cache language (path, h) ∧
      ∀ r ∈ e.nestedVariants, Known cache language r by
    rcases mem_cons.mp hmem with rfl | hmem
    · exact hb.1
    · exact hb.2 r hmem
  rw [lookup_fst] at htaken
  split at htaken
  · obtain ⟨v, -, hv⟩ := Option.bind_eq_some_iff.mp htaken
    obtain ⟨e', he', heq⟩ := Option.map_eq_some_iff.mp hv
    cases heq
    exact ⟨handle_known he', hranged.source he'⟩
  obtain ⟨m, -, hm⟩ := Option.bind_eq_some_iff.mp htaken
  obtain ⟨e', he', heq⟩ := Option.map_eq_some_iff.mp hm
  cases heq
  exact ⟨known_provisional path _, hj _ _ (mem_of_getElem? he')⟩

lemma publish_known {entry} (hc : Consistent ident ahead cache j) (hn : cache.Named ident)
    (ha : ∀ j ∈ ahead, ∀ key, ∀ e ∈ j.own key, Names ident key e) {h : Handle}
    (hh : (j.publish (path, language) cache ahead entry).1 = some h) :
    Known cache language (path, h) := by
  rcases publish_cases ahead j (path, language) cache entry with ⟨-, heq⟩ | ⟨-, heq⟩
  · rw [heq] at hh
    cases hh
    exact known_provisional path _
  rw [heq] at hh
  rw [Option.orElse_eq_orElse, Option.orElse_eq_or, Option.or_eq_some_iff] at hh
  rcases hh with hview | ⟨-, hown⟩
  · obtain ⟨v, hv, rfl⟩ := Option.map_eq_some_iff.mp hview
    obtain ⟨e, -, -, he⟩ := hc.seenOf_view hn ha (mem_of_find?_eq_some hv)
    exact handle_known he
  · obtain ⟨e, -, rfl⟩ := Option.map_eq_some_iff.mp hown
    exact known_provisional path _

lemma recordedEntry_known {handle : Handle} (hranged : Ranged ahead cache) (hj : j.Closed cache)
    (he : j.recordedEntry key handle cache ahead = some e) (hr : r ∈ e.nestedVariants) :
    Known cache key.2 r := by
  cases handle with
  | index n => exact hranged.stored key e (mem_of_getElem? he) r hr
  | provisional id =>
    obtain ⟨k, hk, hmem⟩ := mem_flatMap.mp (mem_of_find?_eq_some he)
    rcases mem_cons.mp hk with rfl | hk
    · exact hj key e hmem r hr
    · exact hranged.kept k hk key e hmem r hr

/-- What was legible against the cache of its moment is so against any later one. -/
lemma Op.Legible.later {op : Op Name Path Def Rest} {stored : Cache Name Path Rest}
    (h : op.Legible ahead cache cache d) (hk : d.Known cache) (hg : cache.Grows stored) :
    op.Legible ahead cache stored d := by
  cases op with
  | sameRecord a b =>
    intro path n id ⟨hr, hat⟩
    refine h path n id ⟨hr, ?_⟩
    have hn : n < (cache (path, d.journal.language)).length := by
      rcases hr with ⟨hindex, -⟩ | ⟨-, hindex⟩ <;>
        exact hk.record hindex n rfl
    obtain ⟨rest, hrest⟩ := hg (path, d.journal.language)
    simp only [extendedIds, ← hrest, append_assoc, getElem?_map,
      getElem?_append_left hn] at hat ⊢
    exact hat
  | recordedEntry record => exact h
  | define name definition | undef name | provideSystemHeader path signature => trivial
  | matchingVariant path | publishVariant path draft => trivial

variable [DecidableEq Name]

/-- An exchange keeps nothing back, or the entry it publishes. -/
lemma Deferred.own_step (d : Deferred Name Path Def Rest) (cache : Cache Name Path Rest)
    (op : Op Name Path Def Rest) :
    (∀ key, (d.step hash ahead (cache, op)).journal.own key = d.journal.own key) ∨
    ∃ path draft, op = .publishVariant path draft ∧
      ∀ key, (d.step hash ahead (cache, op)).journal.own key = d.journal.own key ++
        if key = (path, d.journal.language) then [draft.entry d.answers] else [] := by
  cases op with
  | define name definition | undef name | matchingVariant path | recordedEntry record =>
    exact .inl fun _ => rfl
  | provideSystemHeader path signature =>
    left
    intro key
    simp only [step, answer, ExpansionJournal.recordHeader]
    split <;> rfl
  | publishVariant path draft =>
    by_cases hincompatible : draft.deps.incompatible = true
    · left
      intro key
      simp [step, answer, if_pos hincompatible]
    rcases publish_cases ahead d.journal (path, d.journal.language) cache
      (draft.entry d.answers) with ⟨-, heq⟩ | ⟨-, heq⟩
    · refine .inr ⟨path, draft, rfl, fun key => ?_⟩
      simp only [step, answer, if_neg hincompatible, heq]
      exact own_insert_append d.journal (path, d.journal.language) key _
    left
    intro key
    simp only [step, answer, if_neg hincompatible, heq]
    refine (own_insert_append d.journal (path, d.journal.language) key []).trans ?_
    simp
  | sameRecord a b => exact .inl fun _ => rfl

lemma Deferred.mem_own_step {op} (h : e ∈ (d.step hash ahead (cache, op)).journal.own key) :
    e ∈ d.journal.own key ∨ ∃ path draft, op = .publishVariant path draft ∧
      key = (path, d.journal.language) ∧ e = draft.entry d.answers := by
  rcases d.own_step cache op with hs | ⟨path, draft, rfl, hown⟩
  · rw [hs] at h
    exact .inl h
  rw [hown] at h
  rcases mem_append.mp h with h | h
  · exact .inl h
  by_cases hkey : key = (path, d.journal.language)
  · rw [if_pos hkey] at h
    exact .inr ⟨path, draft, rfl, hkey, mem_singleton.mp h⟩
  · simp [hkey] at h

lemma Deferred.Known.step (h : d.Known cache) (hc : Consistent ident ahead cache d.journal)
    (hn : cache.Named ident) (hahead : ∀ j ∈ ahead, ∀ key, ∀ e ∈ j.own key, Names ident key e)
    (hranged : Ranged ahead cache) (op : Op Name Path Def Rest) :
    (d.step hash ahead (cache, op)).Known cache := by
  have hlanguage : (d.step hash ahead (cache, op)).journal.language = d.journal.language :=
    (grows_step d cache op).language
  have hanswer : ∀ r ∈ (d.answer hash ahead cache op).1.records,
      Expansion.Known cache d.journal.language r := by
    intro r hr
    cases op with
    | define name definition | undef name | provideSystemHeader path signature =>
      simp [answer, Answer.records] at hr
    | matchingVariant path => exact lookup_known hranged h.journal hr
    | publishVariant path draft =>
      simp only [answer] at hr
      split at hr
      · simp [Answer.records] at hr
      · simp only [Answer.records, mem_map, Option.mem_toList] at hr
        obtain ⟨handle, hh, rfl⟩ := hr
        exact publish_known hc hn hahead hh
    | recordedEntry record =>
      cases he : (recordOf d.answers record).bind fun r =>
        d.journal.recordedEntry (r.1, d.journal.language) r.2 cache ahead with
      | none => simp [answer, Answer.records, he] at hr
      | some e =>
        obtain ⟨named, -, hentry⟩ := Option.bind_eq_some_iff.mp he
        simp only [answer, he, Answer.records] at hr
        exact recordedEntry_known hranged h.journal hentry hr
    | sameRecord a b => simp [answer, Answer.records] at hr
  refine ⟨?_, ?_⟩
  · rw [hlanguage]
    intro a ha
    rcases mem_append.mp ha with ha | ha
    · exact h.answers a ha
    · rw [mem_singleton.mp ha]
      exact hanswer
  · intro key e he r hr
    rcases mem_own_step he with he | ⟨path, draft, rfl, rfl, rfl⟩
    · exact h.journal key e he r hr
    · obtain ⟨ref, -, href⟩ := mem_filterMap.mp hr
      exact h.record href

end

/-- A run with nothing ahead, shown one cache throughout. -/
structure Undisturbed (stored : Cache Name Path Rest) (j : ExpansionJournal Name Path Def Rest) :
    Prop where
  view : ∀ key seen, j.seen.lookup key = some seen →
    seen.view.map Shown.id = (stored key).map IncludeExpansion.id
  room : ∀ key, j.own key = [] ∨ (stored key).length + (j.own key).length ≤ j.cap

namespace Undisturbed
variable {stored : Cache Name Path Rest} {j : ExpansionJournal Name Path Def Rest}

lemma new (cap : ℕ) (language : Language) :
    Undisturbed stored (.new cap language : ExpansionJournal Name Path Def Rest) := by
  constructor <;> simp [ExpansionJournal.new, ExpansionJournal.own]

variable (h : Undisturbed stored j)
include h

lemma seenOf (key : ExpansionKey Path) :
    (j.seenOf stored [] key).view.map Shown.id = (stored key).map IncludeExpansion.id := by
  unfold ExpansionJournal.seenOf
  cases hs : j.seen.lookup key with
  | some seen => exact h.view key seen hs
  | none =>
    simp only [Option.getD_none, ExpansionJournal.firstView, ExpansionJournal.keptAhead,
      zipIdx_nil, flatMap_nil, foldl_nil, map_map]
    have hcomp : (Shown.id ∘ fun p : IncludeExpansion Name Path Rest × ℕ =>
        Shown.of p.1 (.stored p.2)) = IncludeExpansion.id ∘ Prod.fst := rfl
    rw [hcomp, ← map_map, zipIdx_map_fst]

/-- Another look, at a view of its own. -/
lemma look {key seen} (hv : seen.view = (j.seenOf stored [] key).view) :
    Undisturbed stored { j with seen := j.seen.insert key seen } := by
  refine ⟨?_, h.room⟩
  intro k seen' hs
  by_cases hk : k = key
  · subst hk
    rw [AList.lookup_insert, Option.some.injEq] at hs
    rw [← hs, hv]
    exact h.seenOf k
  · rw [AList.lookup_insert_ne hk] at hs
    exact h.view k seen' hs

/-- More entries are kept back, with room for them. -/
lemma keep {j' : ExpansionJournal Name Path Def Rest}
    {key : ExpansionKey Path} {more : List (IncludeExpansion Name Path Rest)}
    (hs : j'.seen = j.seen) (hcap : j'.cap = j.cap)
    (hown : ∀ k, j'.own k = j.own k ++ if k = key then more else [])
    (hm : more = [] ∨ (stored key).length + (j.own key).length + more.length ≤ j.cap) :
    Undisturbed stored j' := by
  refine ⟨by rw [hs]; exact h.view, fun k => ?_⟩
  rw [hown, hcap]
  by_cases hk : k = key
  · subst hk
    rw [if_pos rfl]
    rcases hm with rfl | hm
    · simpa using h.room k
    · rw [length_append]
      omega
  · simpa [hk] using h.room k

end Undisturbed

section
variable [DecidableEq Name] (hash : Def → Bool → ℕ) (cap : ℕ)

/-- The unit's run deferred, after these exchanges. -/
def TranslationUnit.deferred (unit : TranslationUnit Name Path Def Rest Text)
    (ahead : List (ExpansionJournal Name Path Def Rest))
    (ops : List (Cache Name Path Rest × Op Name Path Def Rest)) : Deferred Name Path Def Rest :=
  (Deferred.start cap unit.language unit.macros unit.fallbacks).run hash ahead ops

/-- The unit's run on the writable cache, after the same exchanges. -/
def TranslationUnit.onto (unit : TranslationUnit Name Path Def Rest Text)
    (stored : Cache Name Path Rest)
    (ops : List (Cache Name Path Rest × Op Name Path Def Rest)) : Direct Name Path Def Rest :=
  (Direct.start unit.macros unit.fallbacks stored).run hash cap unit.language (ops.map Prod.snd)

/-- The exchanges a deferred run of `unit` can have made, the last against `cache`, and
the program it is left with. The `n`-th publishes under the id that `tag` and `n` make. -/
inductive Course (unit : TranslationUnit Name Path Def Rest Text) (tag : ℕ)
    (ahead : List (ExpansionJournal Name Path Def Rest)) :
    Cache Name Path Rest → Program Name Path Def Rest Text →
      List (Cache Name Path Rest × Op Name Path Def Rest) → Prop
  | start : Course unit tag ahead (fun _ => []) unit.program []
  | act {cache cache' : Cache Name Path Rest} {op : Op Name Path Def Rest}
      {next : Observation Name Path Rest → Program Name Path Def Rest Text}
      {ops : List (Cache Name Path Rest × Op Name Path Def Rest)} :
      Course unit tag ahead cache (.act op next) ops → cache.Grows cache' →
      Ranged ahead cache' →
      (op.withId (Nat.pair tag ops.length)).Legible ahead cache' cache'
        (unit.deferred hash cap ahead ops) →
      Course unit tag ahead cache'
        (next ((unit.deferred hash cap ahead ops).answer hash ahead cache'
          (op.withId (Nat.pair tag ops.length))).1.observe)
        (ops ++ [(cache', op.withId (Nat.pair tag ops.length))])

end

section
variable [DecidableEq Name] {hash : Def → Bool → ℕ} {cap : ℕ}
  {unit : TranslationUnit Name Path Def Rest Text} {tag : ℕ}
  {ahead : List (ExpansionJournal Name Path Def Rest)} {cache stored : Cache Name Path Rest}
  {program : Program Name Path Def Rest Text} {ident : ℕ → Identity Name Path Rest}
  {ops : List (Cache Name Path Rest × Op Name Path Def Rest)}
variable (o : Cache Name Path Rest × Op Name Path Def Rest)

lemma TranslationUnit.deferred_append : unit.deferred hash cap ahead (ops ++ [o]) =
      (unit.deferred hash cap ahead ops).step hash ahead o := by
  simp [deferred, run]

lemma TranslationUnit.onto_append : unit.onto hash cap stored (ops ++ [o]) =
      (unit.onto hash cap stored ops).step hash cap unit.language o.2 := by
  simp [onto, Direct.run]

lemma TranslationUnit.deferred_language :
    (unit.deferred hash cap ahead ops).journal.language = unit.language :=
  (grows_run _ ops).language

lemma TranslationUnit.deferred_answers_length :
    (unit.deferred hash cap ahead ops).answers.length = ops.length := by
  induction ops using reverseRecOn with
  | nil => rfl
  | append_singleton ops o ih =>
    rw [deferred_append, length_append, ← ih]
    simp [Deferred.step]

namespace Course
variable (h : Course hash cap unit tag ahead cache program ops)
include h

lemma timely : Timely cache (fun _ => []) ops := by
  induction h with
  | start => exact .refl _
  | act _ hg _ _ ih => exact timely_append (ih.mono hg) (.refl _)

lemma own_ids {key e} (he : e ∈ (unit.deferred hash cap ahead ops).journal.own key) :
    key.2 = unit.language ∧ ∃ n < ops.length, e.id = Nat.pair tag n := by
  induction h with
  | start =>
    simp [deferred, run, Deferred.start, ExpansionJournal.own, ExpansionJournal.new] at he
  | @act cache cache' op next ops _ _ _ _ ih =>
    rw [deferred_append] at he
    rw [length_append, length_singleton]
    rcases mem_own_step he with he | ⟨path, draft, hop, rfl, rfl⟩
    · obtain ⟨hkey, n, hn, hid⟩ := ih he
      exact ⟨hkey, n, by omega, hid⟩
    · exact ⟨deferred_language, ops.length, by omega, Op.withId_id hop⟩

/-- At every moment the run knows its records, and its journal is consistent. -/
lemma known_consistent (hn : cache.Named ident)
    (ha : ∀ j ∈ ahead, ∀ key, ∀ e ∈ j.own key, Names ident key e)
    (hops : ∀ o ∈ ops, o.2.Named ident unit.language) :
    (unit.deferred hash cap ahead ops).Known cache ∧
      Consistent ident ahead cache (unit.deferred hash cap ahead ops).journal := by
  induction h with
  | start =>
    refine ⟨?_, consistent_new cap unit.language⟩
    constructor <;> simp [deferred, run, Deferred.start, ExpansionJournal.Closed,
      ExpansionJournal.new, ExpansionJournal.own]
  | @act cache cache' op next ops _ hg hr _ ih =>
    obtain ⟨hk, hc⟩ := ih
      (fun key e he => hn key e ((hg key).subset he))
      (fun o ho => hops o (mem_append_left _ ho))
    have hop := hops _ (mem_append_right _ mem_cons_self)
    rw [← @deferred_language _ _ _ _ _ _ _ hash cap unit ahead ops] at hop
    rw [deferred_append]
    exact ⟨(hk.mono hg).step (hc.mono hg) hn ha hr _,
      consistent_step (hc.mono hg) hn ha hop⟩

lemma legible (hg : cache.Grows stored) (hnamed : stored.Named ident)
    (ha : ∀ j ∈ ahead, ∀ key, ∀ e ∈ j.own key, Names ident key e)
    (hops : ∀ o ∈ ops, o.2.Named ident unit.language) : Legible hash ahead stored
      (Deferred.start cap unit.language unit.macros unit.fallbacks) ops := by
  induction h with
  | start => trivial
  | @act cache cache' op next ops hc hg' hr hl ih =>
    have hops' : ∀ o ∈ ops, o.2.Named ident unit.language :=
      fun o ho => hops o (mem_append_left _ ho)
    have hnam' : cache.Named ident := fun key e he =>
      hnamed key e (((hg'.trans hg) key).subset he)
    refine legible_append (ih (hg'.trans hg) hops') ?_
    exact hl.later ((hc.known_consistent hnam' ha hops').1.mono hg') hg

/-- The program, told the same things, makes the same exchanges on the cache. -/
lemma direct_eq {all} (hall : ops <+: all) (hm : ∀ ops, ops <+: all → Mirrors unit.language stored
      (unit.deferred hash cap ahead ops) (unit.onto hash cap stored ops)) :
    unit.direct hash cap (Nat.pair tag) stored =
      program.direct hash cap unit.language (Nat.pair tag) (unit.onto hash cap stored ops) := by
  induction h with
  | start => rfl
  | @act cache cache' op next ops _ _ _ _ ih =>
    have hbefore : ops <+: all := (prefix_append _ _).trans hall
    have hlength : (unit.onto hash cap stored ops).answers.length = ops.length := by
      rw [← (hm ops hbefore).answers.length_eq, deferred_answers_length]
    have hanswers := forall₂_reverse_iff.mpr (hm _ hall).answers
    rw [deferred_append, onto_append] at hanswers
    simp only [Deferred.step, Direct.step, reverse_append, reverse_singleton,
      singleton_append, forall₂_cons] at hanswers
    rw [ih hbefore, Program.direct, hlength, onto_append, hanswers.1.observe]

/-- A deferred run whose journal agrees with the stored cache is the run on it. -/
lemma mirrors (hg : cache.Grows stored) (hs : Setting cap unit.language ident ahead stored)
    (hops : ∀ o ∈ ops, o.2.Named ident unit.language)
    (ha : (unit.deferred hash cap ahead ops).finished.agrees hash stored true = true) :
    Accepted hash cap unit.language ident ahead stored (unit.deferred hash cap ahead ops).finished ∧
    Mirrors unit.language stored (unit.deferred hash cap ahead ops)
      (unit.onto hash cap stored ops) ∧ unit.direct hash cap (Nat.pair tag) stored =
      program.direct hash cap unit.language (Nat.pair tag) (unit.onto hash cap stored ops) := by
  have htimely := h.timely.mono hg
  have haccepted := accepted_of_run hs htimely hops ha
  have hlegible := h.legible hg hs.named hs.aheadNamed hops
  have hmirrors : ∀ ops', ops' <+: ops → Mirrors unit.language stored
      (unit.deferred hash cap ahead ops') (unit.onto hash cap stored ops') := by
    intro ops' hp
    refine mirrors_run hp haccepted (headersKept_start ..)
      (consistent_new cap unit.language) htimely (fun o ho => hops o (hp.subset ho)) ?_
      (mirrors_start unit.macros unit.fallbacks)
    obtain ⟨rest, rfl⟩ := hp
    exact hlegible.of_append
  exact ⟨haccepted, hmirrors ops prefix_rfl, h.direct_eq prefix_rfl hmirrors⟩

end Course

/-- What a commit of `journal`, the journal of a run of `unit`, makes of `stored`: the
cache its run on the writable cache leaves, the run's own entries resolved in it. -/
structure Committed (hash : Def → Bool → ℕ) (cap : ℕ)
    (unit : TranslationUnit Name Path Def Rest Text) (tag : ℕ)
    (ident : ℕ → Identity Name Path Rest) (stored cache : Cache Name Path Rest)
    (journal : ExpansionJournal Name Path Def Rest) (product : Product Text Path) : Prop where
  direct : unit.direct hash cap (Nat.pair tag) stored = (some product, cache)
  grows : stored.Grows cache
  named : cache.Named ident
  valid : cache.Valid cap
  closed : cache.Closed
  new : ∀ key, ∀ e ∈ cache key, e ∈ stored key ∨ ∃ n, e.id = Nat.pair tag n
  resolved : ∀ key, ∀ e ∈ journal.own key, ∀ e' ∈ cache key, e'.id = e.id →
    Resolved cache.ids key.2 e e'

lemma Course.commit {text : Text} {refs : List Ref}
    (h : Course hash cap unit tag ahead cache (.done text refs) ops) (hg : cache.Grows stored)
    (hs : Setting cap unit.language ident ahead stored) (hclosed : stored.Closed)
    (hops : ∀ o ∈ ops, o.2.Named ident unit.language)
    (hagrees : (unit.deferred hash cap ahead ops).finished.agrees hash stored true = true) {pending}
    (hp : pending.Perm (unit.deferred hash cap ahead ops).finished.pending.entries) :
    ∃ cache' replayed', (unit.deferred hash cap ahead ops).finished.commit hash pending stored
        (recordsOf (unit.deferred hash cap ahead ops).answers refs) = (true, cache', replayed') ∧
      Committed hash cap unit tag ident stored cache' (unit.deferred hash cap ahead ops).finished
        (text, replayed') := by
  obtain ⟨ha, hm, hdirect⟩ := h.mirrors hg hs hops hagrees
  obtain ⟨hextends, hv, hids⟩ := ha.valid_extended hm.cache
  have hknown := (h.known_consistent (fun key e he =>
    hs.named key e ((hg key).subset he)) hs.aheadNamed hops).1.mono hg
  have hfrom : ∀ key, ∀ e ∈ (unit.onto hash cap stored ops).cache key, e ∈ stored key ∨
      ∃ e₀ ∈ (unit.deferred hash cap ahead ops).journal.own key,
        Resolved (unit.onto hash cap stored ops).cache.ids unit.language e₀ e := by
    intro key e he
    obtain ⟨own', hc, hown⟩ := hm.cache key
    rw [hc] at he
    rcases mem_append.mp he with he | he
    · exact .inl he
    · obtain ⟨e₀, he₀, hresolved⟩ := exists_of_mem_right hown he
      exact .inr ⟨e₀, he₀, hids ▸ hresolved⟩
  choose own' hc hown using hm.cache
  have hcommit := ha.commit_eq hp hown (recordsOf_forall₂ hm.answers refs)
  rw [← funext hc] at hcommit
  refine ⟨_, _, hcommit, ?_⟩
  exact
    { direct := hdirect
      grows := hextends
      named := by
        intro key e he
        rcases hfrom key e he with he | ⟨e₀, he₀, hresolved⟩
        · exact hs.named key e he
        · exact (ha.consistent.ownNamed key e₀ he₀).resolved hresolved
      valid := hv
      closed := by
        intro key e he r hr
        rcases hfrom key e he with he | ⟨e₀, he₀, hresolved⟩
        · exact (hclosed key e he r hr).mono hextends
        obtain ⟨r₀, hr₀, hd⟩ := exists_of_mem_right hresolved.nested hr
        have hlanguage := (h.own_ids he₀).1
        have hkno₀ := (hknown.journal key e₀ he₀ r₀ hr₀).mono hextends
        rw [hlanguage] at hkno₀ ⊢
        exact hd.known hkno₀
      new := by
        intro key e he
        rcases hfrom key e he with he | ⟨e₀, he₀, hresolved⟩
        · exact .inl he
        · obtain ⟨-, n, -, hid⟩ := h.own_ids he₀
          exact .inr ⟨n, hresolved.id.trans hid⟩
      resolved := by
        intro key e he e' he' hid
        have hnodup := ha.nodup_extendedIds key
        rw [extendedIds, map_append, nodup_append] at hnodup
        rcases hfrom key e' he' with he' | ⟨e₀, he₀, hresolved⟩
        · exact absurd hid (hnodup.2.2 _ (mem_map_of_mem he') _ (mem_map_of_mem he))
        have heq : e₀ = e := inj_on_of_nodup_map hnodup.2.1 he₀ he
          (hresolved.id.symm.trans hid)
        rw [← heq, (h.own_ids he₀).1]
        exact hresolved }

namespace Undisturbed
variable {j : ExpansionJournal Name Path Def Rest}

lemma step {d : Deferred Name Path Def Rest} (h : Undisturbed stored d.journal)
    (op : Op Name Path Def Rest) : Undisturbed stored (d.step hash [] (stored, op)).journal := by
  cases op with
  | define name definition | undef name => exact ⟨h.view, h.room⟩
  | provideSystemHeader path signature =>
    simp only [Deferred.step, Deferred.answer, ExpansionJournal.recordHeader]
    split
    · exact h
    · exact ⟨h.view, h.room⟩
  | matchingVariant path => exact h.look rfl
  | publishVariant path draft =>
    simp only [Deferred.step, Deferred.answer]
    split
    · exact h
    have hlook : Undisturbed stored { d.journal with
        seen := d.journal.seen.insert (path, d.journal.language)
          (d.journal.seenOf stored [] (path, d.journal.language)) } := h.look rfl
    rcases publish_cases [] d.journal (path, d.journal.language) stored
      (draft.entry d.answers) with ⟨ha, heq⟩ | ⟨-, heq⟩
    · simp only [heq]
      refine hlook.keep rfl rfl
        (own_insert_append d.journal (path, d.journal.language) · _) (.inr ?_)
      have hlength := congrArg List.length (h.seenOf (path, d.journal.language))
      rw [admitsVariant_iff] at ha
      simp only [length_map, length_append] at hlength ha
      simp only [ExpansionJournal.own, length_singleton] at ha ⊢
      omega
    · simp only [heq]
      exact hlook.keep rfl rfl
        (own_insert_append d.journal (path, d.journal.language) · _) (.inl rfl)
  | recordedEntry record | sameRecord a b => exact h

lemma agrees (h : Undisturbed stored j) (hv : stored.Valid j.cap) :
    j.agrees hash stored true = true := by
  rw [ExpansionJournal.agrees, all_eq_true]
  intro entry he
  have hview := h.view entry.1 entry.2 (AList.mem_lookup_iff.mpr he)
  have hroom : (stored entry.1).length + (j.own entry.1).length ≤ j.cap := by
    rcases h.room entry.1 with hn | hroom
    · rw [hn, length_nil]
      exact hv.within entry.1
    · exact hroom
  simp only [ExpansionJournal.agreesAt]
  rw [if_neg (by omega), if_pos hview.symm]

end Undisturbed

namespace Course

/-- A publication takes an id that no earlier exchange of the run took. -/
lemma draft_id (h : Course hash cap unit tag ahead cache program ops) {path : Path} {draft cache'}
    (hmem : (cache', Op.publishVariant path draft) ∈ ops) :
    ∃ n < ops.length, draft.id = Nat.pair tag n := by
  induction h with
  | start => simp at hmem
  | @act cache cache' op next ops _ _ _ _ ih =>
    rw [length_append, length_singleton]
    rcases mem_append.mp hmem with hmem | hmem
    · obtain ⟨n, hn, hid⟩ := ih hmem
      exact ⟨n, by omega, hid⟩
    · refine ⟨ops.length, by omega, ?_⟩
      simp only [mem_singleton, Prod.mk.injEq] at hmem
      exact Op.withId_id hmem.2.symm

lemma direct_fail (h : Course hash cap unit tag ahead cache .fail ops) (hg : cache.Grows stored)
    (hs : Setting cap unit.language ident ahead stored)
    (hops : ∀ o ∈ ops, o.2.Named ident unit.language)
    (ha : (unit.deferred hash cap ahead ops).finished.agrees hash stored true = true)
    (hn : ∀ key, (unit.deferred hash cap ahead ops).journal.own key = []) :
    unit.direct hash cap (Nat.pair tag) stored = (none, stored) := by
  obtain ⟨-, hm, hd⟩ := h.mirrors hg hs hops ha
  have hcache : (unit.onto hash cap stored ops).cache = stored := by
    funext key
    obtain ⟨own', hcache, hown⟩ := hm.cache key
    rw [hn, forall₂_nil_left_iff] at hown
    rw [hcache, hown, append_nil]
  rw [hd, Program.direct, hcache]

end Course
end
end Pathologist.Expansion

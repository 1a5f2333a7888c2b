import Pathologist.Expansion.Agreement

/-!
# A deferred run mirrors a direct one

Against a stored cache that its final journal agrees with, a deferred run is answered
as a direct run on that cache is: the same variants, named by id where the direct run
has an index. The direct cache is the stored one with the entries kept back so far,
their records by index.
-/
open List
namespace Pathologist.Expansion
variable {Name Path Def Rest : Type*} [DecidableEq Name] [DecidableEq Path]
variable {list : List (IncludeExpansion Name Path Rest)}

/-- The stored variants of each header and the ones `j` keeps back, by id. -/
def extendedIds (stored : Cache Name Path Rest) (j : ExpansionJournal Name Path Def Rest)
    (key : ExpansionKey Path) : List ℕ :=
  (stored key ++ j.own key).map IncludeExpansion.id

/-- A run is over and its journal agrees with the stored cache. -/
structure Accepted (hash : Def → Bool → ℕ) (cap : ℕ) (language : Language)
    (ident : ℕ → Identity Name Path Rest) (ahead : List (ExpansionJournal Name Path Def Rest))
    (stored : Cache Name Path Rest) (j : ExpansionJournal Name Path Def Rest) : Prop where
  setting : Setting cap language ident ahead stored
  consistent : Consistent ident ahead stored j
  cap : j.cap = cap
  language : j.language = language
  agrees : j.agrees hash stored true = true

variable {hash : Def → Bool → ℕ} {cap : ℕ} {language : Language}
  {ident : ℕ → Identity Name Path Rest} {ahead : List (ExpansionJournal Name Path Def Rest)}
  {stored : Cache Name Path Rest} {j : ExpansionJournal Name Path Def Rest}
  {key : ExpansionKey Path} {ids : ExpansionKey Path → List ℕ}

/-- `ids` lists the stored variants, then the entries kept back so far. -/
def Covers (ids : ExpansionKey Path → List ℕ) (stored : Cache Name Path Rest)
    (d : ExpansionJournal Name Path Def Rest) : Prop :=
  ∀ key, extendedIds stored d key <+: ids key

variable {d : ExpansionJournal Name Path Def Rest}

omit [DecidableEq Name] in
lemma Covers.storedIds (h : Covers ids stored d) (key : ExpansionKey Path) :
    stored.ids key <+: ids key := by
  refine IsPrefix.trans ?_ (h key)
  rw [extendedIds, map_append]
  exact prefix_append _ _

variable {e : IncludeExpansion Name Path Rest}

omit [DecidableEq Name] in
lemma Covers.own (h : Covers ids stored d) {m : ℕ} (he : (d.own key)[m]? = some e) :
    (ids key)[(stored key).length + m]? = some e.id := by
  obtain ⟨rest, hr⟩ := h key
  have hm := (List.getElem?_eq_some_iff.mp he).1
  rw [← hr, List.getElem?_append_left (by simp [extendedIds, hm]), extendedIds,
    List.getElem?_map, List.getElem?_append_right (by omega), Nat.add_sub_cancel_left, he]
  rfl

namespace Accepted
variable (h : Accepted hash cap language ident ahead stored j)
include h

lemma nodup_stored_ids (key : ExpansionKey Path) : ((stored key).map IncludeExpansion.id).Nodup :=
  nodup_ids (h.setting.named key) (h.setting.valid.distinct key)

lemma agreement {seen} (hs : j.seen.lookup key = some seen) :
    ∃ f, Agreement hash j key seen (stored key) f := by
  have hall := all_eq_true.mp h.agrees ⟨key, seen⟩ (AList.mem_lookup_iff.mp hs)
  exact agreement_of_agreesAt (h.nodup_stored_ids key) hall

lemma part_named {seen} (hseen : j.seen.lookup key = some seen) {f}
    (hp : Part (fun e v => e.id = v.id) (stored key) seen.view f) :
    Part (fun e v => e.id = v.id ∧ e.deps = v.deps ∧ e.signature = v.signature)
      (stored key) seen.view f := by
  refine hp.imp ?_
  intro e he v hv hid
  obtain ⟨e', hn, hof, -⟩ := h.consistent.shown key seen hseen v hv
  have hid' : e.id = e'.id := by rw [hid, hof]; rfl
  obtain ⟨-, hs, hd, -⟩ := (h.setting.named key e he).congr hn hid'
  rw [hof]
  exact ⟨hid', hd, hs⟩

lemma room (key : ExpansionKey Path) : (stored key).length + (j.own key).length ≤ cap := by
  by_cases hown : j.own key = []
  · simpa [hown] using h.setting.valid.within key
  obtain ⟨seen, hs⟩ := Option.isSome_iff_exists.mp (h.consistent.ownSeen key hown)
  obtain ⟨f, ha⟩ := h.agreement hs
  have := ha.room
  rwa [h.cap] at this

variable {e : IncludeExpansion Name Path Rest}

lemma signature_ne {o} (ho : o ∈ j.own key) (he : e ∈ stored key) : o.signature ≠ e.signature := by
  obtain ⟨seen, hseen⟩ := Option.isSome_iff_exists.mp (h.consistent.ownSeen key (ne_nil_of_mem ho))
  obtain ⟨f, ha⟩ := h.agreement hseen
  obtain ⟨k, hk⟩ := mem_iff_getElem?.mp he
  by_cases hshown : ∃ i, i < seen.view.length ∧ f i = k
  · obtain ⟨i, hi, rfl⟩ := hshown
    obtain ⟨e', he', -, -, hs⟩ :=
      (h.part_named hseen ha.part).sits i _ (List.getElem?_eq_getElem hi)
    rw [hk, Option.some.injEq] at he'
    rw [he', hs]
    exact h.consistent.ownNew key seen hseen o ho _ (getElem_mem hi)
  · exact ha.own k e hk (fun i hi hik => hshown ⟨i, hi, hik⟩) o ho

lemma nodup_signatures (key : ExpansionKey Path) :
    ((stored key ++ j.own key).map IncludeExpansion.signature).Nodup := by
  rw [map_append, nodup_append]
  refine ⟨h.setting.valid.distinct key, h.consistent.ownDistinct key, ?_⟩
  intro a ha b hb
  obtain ⟨e, he, rfl⟩ := mem_map.mp ha
  obtain ⟨o, ho, rfl⟩ := mem_map.mp hb
  exact (h.signature_ne ho he).symm

lemma names_extended (he : e ∈ stored key ++ j.own key) : Names ident key e := by
  rcases mem_append.mp he with he | he
  · exact h.setting.named key e he
  · exact h.consistent.ownNamed key e he

lemma nodup_extendedIds (key : ExpansionKey Path) : (extendedIds stored j key).Nodup :=
  nodup_ids (fun _ => h.names_extended) (h.nodup_signatures key)

lemma resolved_stored (he : e ∈ stored key) : Resolved ids language e e := by
  refine ⟨rfl, rfl, rfl, rfl, ?_⟩
  rw [forall₂_same]
  exact fun r hr => denotes_self (h.setting.valid.indexed key e he r hr)

/-- What a shown variant is stored as: its handle names the index, and the entry the
run was handed is the stored one, its records by index. -/
lemma shown_stored (hids : ∀ key, stored.ids key <+: ids key) {path : Path}
    {cache : Cache Name Path Rest} (hg : cache.Grows stored) {v : Shown Name Path}
    (hv : v.Sound ident ahead cache (path, language)) {n : ℕ}
    (he : (stored (path, language))[n]? = some e)
    (hid : e.id = v.id) : Denotes ids language (path, v.handle) (path, .index n) ∧
      ∃ e', v.source.entry ahead cache (path, language) = some e' ∧ Resolved ids language e' e := by
  obtain ⟨e', -, hof, hentry⟩ := hv
  have hid' : e'.id = v.id := by rw [hof]; rfl
  have hmem := mem_of_getElem? he
  cases hs : v.source with
  | stored index =>
    rw [hs] at hentry
    have he' := hg.getElem? hentry
    have hn := index_unique (h.nodup_stored_ids _) he' he (hid'.trans hid.symm)
    subst hn
    rw [he, Option.some.injEq] at he'
    subst he'
    exact ⟨⟨rfl, index, rfl, .inl (by simp [Shown.handle, hs])⟩, e, hentry, h.resolved_stored hmem⟩
  | ahead journal kept =>
    rw [hs] at hentry
    obtain ⟨a, ha, hk⟩ := Option.bind_eq_some_iff.mp hentry
    refine ⟨⟨rfl, n, rfl, .inr ⟨v.id, by simp [Shown.handle, hs], ?_⟩⟩, e', hentry, ?_⟩
    · obtain ⟨rest, hr⟩ := hids (path, language)
      rw [← hr, List.getElem?_append_left (by simpa [Cache.ids] using
        (List.getElem?_eq_some_iff.mp he).1)]
      simp [Cache.ids, he, hid]
    · exact (h.setting.aheadStored a (mem_of_getElem? ha) path e'
        (mem_of_getElem? hk) e hmem (hid.trans hid'.symm)).mono hids

end Accepted

/-- The direct answer is the deferred one, its records by index. -/
inductive Answer.Resolved (ids : ExpansionKey Path → List ℕ) (language : Language) :
    Answer Name Path Rest → Answer Name Path Rest → Prop
  | quiet : Resolved ids language .quiet .quiet
  | missed {path : Path} : Resolved ids language (.found path none) (.found path none)
  | found {path : Path} {h h' : Handle} {e e' : IncludeExpansion Name Path Rest} :
      Denotes ids language (path, h) (path, h') → Expansion.Resolved ids language e e' →
      Resolved ids language (.found path (some (h, e))) (.found path (some (h', e')))
  | refused {path : Path} : Resolved ids language (.published path none) (.published path none)
  | published {path : Path} {h h' : Handle} : Denotes ids language (path, h) (path, h') →
      Resolved ids language (.published path (some h)) (.published path (some h'))
  | unrecorded : Resolved ids language (.recorded none) (.recorded none)
  | recorded {e e' : IncludeExpansion Name Path Rest} : Expansion.Resolved ids language e e' →
      Resolved ids language (.recorded (some e)) (.recorded (some e'))
  | compared (same : Bool) : Resolved ids language (.compared same) (.compared same)

variable {own own' : List (IncludeExpansion Name Path Rest)} {signature : ℕ}

section
variable {answers answers' : List (Answer Name Path Rest)}
omit [DecidableEq Name] [DecidableEq Path]

lemma getElem?_rel {α β : Type*} {r : α → β → Prop} {l l'} (h : List.Forall₂ r l l') (i : ℕ) :
    Option.Rel r l[i]? l'[i]? := by
  induction h generalizing i with
  | nil => exact .none
  | cons hh _ ih =>
    cases i with
    | zero => exact .some hh
    | succ i => exact ih i

lemma Answer.Resolved.records {a a' : Answer Name Path Rest}
    (h : Answer.Resolved ids language a a') :
    List.Forall₂ (Denotes ids language) a.records a'.records := by
  cases h with
  | quiet | missed | refused | unrecorded | compared => exact .nil
  | found hd hr => exact .cons hd hr.nested
  | published hd => exact .cons hd .nil
  | recorded hr => exact hr.nested

/-- References into mirrored answers name mirrored records. -/
lemma recordOf_rel (h : List.Forall₂ (Answer.Resolved ids language) answers answers') (r : Ref) :
    Option.Rel (Denotes ids language) (recordOf answers r) (recordOf answers' r) := by
  unfold recordOf
  have hat := getElem?_rel h r.1
  generalize answers[r.1]? = a, answers'[r.1]? = a' at hat ⊢
  cases hat with
  | none => exact .none
  | some hr => exact getElem?_rel hr.records r.2

lemma recordsOf_forall₂ (h : List.Forall₂ (Answer.Resolved ids language) answers answers')
    (refs : List Ref) :
    List.Forall₂ (Denotes ids language) (recordsOf answers refs) (recordsOf answers' refs) := by
  refine rel_filterMap (R := Eq) ?_ (forall₂_refl refs)
  rintro r _ rfl
  exact recordOf_rel h r

lemma forall₂_getElem? (h : List.Forall₂ (Resolved ids language) own own') {m : ℕ}
    (he : own[m]? = some e) : ∃ e', own'[m]? = some e' ∧ Resolved ids language e e' := by
  have hat := getElem?_rel h m
  rw [he] at hat
  generalize own'[m]? = a at hat ⊢
  cases hat with
  | some hr => exact ⟨_, rfl, hr⟩

lemma findIdx?_forall₂ {p} (h : List.Forall₂ (Resolved ids language) own own')
    (hp : ∀ e e', Resolved ids language e e' → p e' = p e) : own'.findIdx? p = own.findIdx? p := by
  induction h with
  | nil => rfl
  | cons hh _ ih => simp [findIdx?_cons, hp _ _ hh, ih]

lemma findIdx?_label {label : IncludeExpansion Name Path Rest → ℕ} (hnodup : (list.map label).Nodup)
    {n : ℕ} (he : list[n]? = some e) :
    list.findIdx? (fun e' => decide (label e' = label e)) = some n := by
  obtain ⟨hn, rfl⟩ := List.getElem?_eq_some_iff.mp he
  rw [List.findIdx?_eq_some_iff_getElem]
  refine ⟨hn, by simp, ?_⟩
  intro k hk heq
  have hkn : k = n := by
    refine (getElem?_inj (by simpa using hk.trans hn) hnodup).mp ?_
    simp only [decide_eq_true_eq] at heq
    simp [List.getElem?_eq_getElem hn, List.getElem?_eq_getElem (hk.trans hn), heq]
  omega

lemma exists_resolved (h : List.Forall₂ (Resolved ids language) own own') {e'} (he' : e' ∈ own') :
    ∃ e ∈ own, Resolved ids language e e' := by
  induction h with
  | nil => simp at he'
  | cons hh _ ih =>
    rcases mem_cons.mp he' with rfl | he'
    · exact ⟨_, mem_cons_self, hh⟩
    · obtain ⟨e, he, hr⟩ := ih he'
      exact ⟨e, mem_cons_of_mem _ he, hr⟩

lemma findIdx?_signature_eq_none (h : ∀ e ∈ list, e.signature ≠ signature) :
    list.findIdx? (fun e => decide (e.signature = signature)) = none := by
  rw [findIdx?_eq_none_iff]
  exact fun e he => decide_eq_false (h e he)

lemma admitsVariant_iff {signatures : List ℕ} : admitsVariant signatures cap signature = true ↔
      signature ∉ signatures ∧ signatures.length < cap := by
  simp [admitsVariant]

end

omit [DecidableEq Name] in
/-- A lookup takes a shown variant, or one of the run's own entries. -/
lemma lookup_fst (d : ExpansionJournal Name Path Def Rest) (cache : Cache Name Path Rest)
    (accepts : MacroFingerprint Name Path → Bool) :
    (d.lookup key cache ahead accepts).1 =
      match (d.seenOf cache ahead key).view.findIdx? fun v => accepts v.deps with
      | some n => (d.seenOf cache ahead key).view[n]?.bind fun v =>
          (v.source.entry ahead cache key).map fun e => (v.handle, e)
      | none => ((d.own key).findIdx? fun e => accepts e.deps).bind fun m =>
          (d.own key)[m]?.map fun e => (.provisional e.id, e) := by
  unfold ExpansionJournal.lookup
  dsimp only
  rw [findIdx?_append, findIdx?_map, findIdx?_map, Function.comp_def, Function.comp_def]
  cases hv : (d.seenOf cache ahead key).view.findIdx? (fun v => accepts v.deps) with
  | some n =>
    have hn := (List.findIdx?_eq_some_iff_getElem.mp hv).1
    simp only [Option.some_or, Option.bind_some, List.getElem?_eq_getElem hn]
    cases hs : (d.seenOf cache ahead key).view[n].source with
    | stored index | ahead journal kept => simp [Source.entry, Shown.handle, hs]
  | none =>
    simp only [Option.none_or, length_map]
    cases (d.own key).findIdx? fun e => accepts e.deps with
    | none => rfl
    | some m => simp

/-- What a lookup took is what a direct lookup takes from the stored list and the
entries kept back so far. -/
lemma lookup_mirrors (h : Accepted hash cap language ident ahead stored j) {cache} {path : Path}
    {accepts} (hids : Covers ids stored d)
    (hg : cache.Grows stored) (hc : Consistent ident ahead cache d)
    (hlater : (d.lookup (path, language) cache ahead accepts).2.Grows j)
    (hs : ∀ deps, j.history.satisfies hash deps d.history.undo.length = accepts deps)
    (hown : List.Forall₂ (Resolved ids language) (d.own (path, language)) own') :
    Answer.Resolved ids language
      (.found path (d.lookup (path, language) cache ahead accepts).1)
      (.found path (((stored (path, language) ++ own').findIdx? fun e => accepts e.deps).bind
        fun n => (stored (path, language) ++ own')[n]?.map fun e => (.index n, e))) := by
  obtain ⟨seen, hseen, hv, hl⟩ := hlater.seen (path, language) _ (AList.lookup_insert ..)
  obtain ⟨f, ha⟩ := h.agreement hseen
  have hpart := h.part_named hseen ha.part
  have hnamed : cache.Named ident := fun key e he =>
    h.setting.named key e ((hg key).subset he)
  have hdeps : ∀ (e : IncludeExpansion Name Path Rest) (v : Shown Name Path),
      e.id = v.id ∧ e.deps = v.deps ∧ e.signature = v.signature →
      accepts e.deps = accepts v.deps := fun e v hev => by rw [hev.2.1]
  -- what this lookup recorded keeps the stored variants outside the part from matching
  have hrest := ha.lookups _ (hl.subset (mem_append_right _ (mem_singleton_self _)))
  simp only [hs] at hrest
  rw [lookup_fst, findIdx?_append, ← hv]
  rw [findIdx?_append, findIdx?_map, findIdx?_map, ← hv, Function.comp_def] at hrest
  cases hf : seen.view.findIdx? (fun v => accepts v.deps) with
  | some n =>
    have hn := (List.findIdx?_eq_some_iff_getElem.mp hf).1
    rw [hf] at hrest
    have hfirst := hpart.findIdx?_eq_some hdeps hf fun k e hk he hnone =>
      hrest k e he hnone (by simp [hk])
    obtain ⟨e, he, hid, -⟩ := hpart.sits n _ (List.getElem?_eq_getElem hn)
    have hsound : (seen.view[n]).Sound ident ahead cache (path, language) :=
      hc.seenOf_view hnamed h.setting.aheadNamed (hv ▸ getElem_mem hn)
    obtain ⟨hd, e', he', hr⟩ := h.shown_stored hids.storedIds hg hsound he hid
    have hlt := (List.getElem?_eq_some_iff.mp he).1
    simp only [hfirst, Option.some_or, Option.bind_some, List.getElem?_eq_getElem hn, he',
      Option.map_some, List.getElem?_append_left hlt, he]
    exact .found hd hr
  | none =>
    rw [hf] at hrest
    have hnone := hpart.findIdx?_eq_none hdeps hf fun k e he hnone =>
      hrest k e he hnone (by
        intro n hn
        rw [Option.none_or, Option.filter_eq_some_iff] at hn
        obtain ⟨hmap, hlt⟩ := hn
        obtain ⟨m, -, rfl⟩ := Option.map_eq_some_iff.mp hmap
        simp only [length_map, hv, decide_eq_true_eq] at hlt
        omega)
    have hsame := findIdx?_forall₂ (p := fun e => accepts e.deps) hown
      fun e e' hee' => by rw [hee'.deps]
    simp only [hnone, hsame, Option.none_or]
    cases hm : (d.own (path, language)).findIdx? fun e => accepts e.deps with
    | none => exact .missed
    | some m =>
      have hlt := (List.findIdx?_eq_some_iff_getElem.mp hm).1
      obtain ⟨e', he', hr⟩ := forall₂_getElem? hown (List.getElem?_eq_getElem hlt)
      simp only [Option.map_some, Option.bind_some, List.getElem?_eq_getElem hlt]
      rw [List.getElem?_append_right (by omega), Nat.add_sub_cancel, he']
      refine .found ⟨rfl, m + (stored (path, language)).length, rfl, .inr ⟨_, rfl, ?_⟩⟩ hr
      rw [Nat.add_comm]
      exact hids.own (List.getElem?_eq_getElem hlt)

variable (h : Accepted hash cap language ident ahead stored j)
include h

/-- A publication that is kept back is admitted by the stored list with the entries
kept back so far. -/
lemma publish_mirrors_kept {entry entry'} (hl : own ++ [entry] <+: j.own key)
    (hentry : Resolved ids language entry entry')
    (hown : List.Forall₂ (Resolved ids language) own own')
    (hnew : ∀ e ∈ own, e.signature ≠ entry.signature) :
    admitsVariant ((stored key ++ own').map IncludeExpansion.signature) cap entry'.signature =
      true := by
  have hroom := h.room key
  have hlength := hl.length_le
  have hlen' := hown.length_eq
  have hmem : entry ∈ j.own key := hl.subset (by simp)
  simp only [length_append, length_cons] at hlength
  rw [admitsVariant_iff]
  refine ⟨?_, by simp only [length_map, length_append]; omega⟩
  rw [hentry.signature, map_append, mem_append, mem_map, mem_map]
  rintro (⟨e, he, heq⟩ | ⟨e', he', heq⟩)
  · exact h.signature_ne hmem he heq.symm
  obtain ⟨e, he, hr⟩ := exists_resolved hown he'
  exact hnew e he (by rw [← hr.signature, heq])

/-- A publication that is not kept back is not admitted by the stored list either, and
the same variant stands for it there, if one does. -/
lemma publish_mirrors_found {cache} {path : Path}
    (hids : Covers ids stored d) (hg : cache.Grows stored) {seen}
    (hseen : j.seen.lookup (path, language) = some seen)
    (hs : ∀ v ∈ seen.view, v.Sound ident ahead cache (path, language))
    (hl : d.own (path, language) <+: j.own (path, language))
    (hown : List.Forall₂ (Resolved ids language) (d.own (path, language)) own')
    (hr : admitsVariant (seen.view.map Shown.signature ++
      (d.own (path, language)).map IncludeExpansion.signature) cap signature = false) :
    admitsVariant ((stored (path, language) ++ own').map IncludeExpansion.signature) cap
        signature = false ∧
      Option.Rel (fun a b => Denotes ids language (path, a) (path, b))
        ((seen.view.find? fun v => decide (v.signature = signature)).map Shown.handle <|>
          ((d.own (path, language)).find? fun e => decide (e.signature = signature)).map
            fun e => .provisional e.id)
        (((stored (path, language) ++ own').findIdx? fun e =>
          decide (e.signature = signature)).map .index) := by
  obtain ⟨f, hagree⟩ := h.agreement hseen
  have hpart := h.part_named hseen hagree.part
  have hlength := hown.length_eq
  have hsame := findIdx?_forall₂ (p := fun e => decide (e.signature = signature)) hown
    fun e e' hee' => by rw [hee'.signature]
  have hcontains : ∀ e ∈ stored (path, language) ++ own', e.signature = signature →
      admitsVariant ((stored (path, language) ++ own').map IncludeExpansion.signature) cap
        signature = false := by
    intro e he heq
    rw [← Bool.not_eq_true, admitsVariant_iff]
    exact fun ha => ha.1 (mem_map.mpr ⟨e, he, heq⟩)
  rw [find?_eq_bind_findIdx?_getElem?, find?_eq_bind_findIdx?_getElem?, findIdx?_append, hsame]
  cases hn : seen.view.findIdx? (fun v => decide (v.signature = signature)) with
  | some n =>
    -- a shown variant has the signature, and it is stored
    obtain ⟨hlt, hsignature, -⟩ := List.findIdx?_eq_some_iff_getElem.mp hn
    obtain ⟨e, he, hid, -, heq⟩ := hpart.sits n _ (List.getElem?_eq_getElem hlt)
    have hsignature : e.signature = signature := by simpa [heq] using hsignature
    refine ⟨hcontains e (mem_append_left _ (mem_of_getElem? he)) hsignature, ?_⟩
    subst hsignature
    rw [findIdx?_label (h.setting.valid.distinct _) he]
    simp only [Option.bind_some, List.getElem?_eq_getElem hlt, Option.map_some, Option.some_or]
    exact .some (h.shown_stored hids.storedIds hg (hs _ (getElem_mem hlt)) he hid).1
  | none =>
    rw [findIdx?_eq_none_iff] at hn
    cases hm : (d.own (path, language)).findIdx? (fun e => decide (e.signature = signature)) with
    | some m =>
      -- one of the run's own has it, so no stored one does
      obtain ⟨hlt, hsignature, -⟩ := List.findIdx?_eq_some_iff_getElem.mp hm
      have hsignature : (d.own (path, language))[m].signature = signature := by
        simpa using hsignature
      obtain ⟨e', he', hresolved⟩ := forall₂_getElem? hown (List.getElem?_eq_getElem hlt)
      refine ⟨hcontains e' (mem_append_right _ (mem_of_getElem? he'))
        (hresolved.signature.trans hsignature), ?_⟩
      have hnone : ∀ e ∈ stored (path, language), e.signature ≠ signature := by
        intro e he heq
        exact h.signature_ne (hl.subset (getElem_mem hlt)) he (hsignature.trans heq.symm)
      rw [findIdx?_signature_eq_none hnone]
      simp only [Option.bind_none, Option.map_none, Option.bind_some,
        List.getElem?_eq_getElem hlt, Option.map_some, Option.none_or]
      refine .some ⟨rfl, _, rfl, .inr ⟨_, rfl, ?_⟩⟩
      rw [Nat.add_comm]
      exact hids.own (List.getElem?_eq_getElem hlt)
    | none =>
      -- the list is full, so everything stored was shown
      rw [findIdx?_eq_none_iff] at hm
      have hfull : cap ≤ seen.view.length + (d.own (path, language)).length := by
        rw [← Bool.not_eq_true, admitsVariant_iff, not_and, Nat.not_lt] at hr
        have := hr (by
          simp only [mem_append, mem_map, not_or, not_exists, not_and]
          exact ⟨fun v hv => by simpa using hn v hv, fun e he => by simpa using hm e he⟩)
        simpa using this
      have hroom := h.room (path, language)
      have hle := hl.length_le
      have hnone : ∀ e ∈ stored (path, language), e.signature ≠ signature := by
        intro e he heq
        obtain ⟨k, hk⟩ := mem_iff_getElem?.mp he
        obtain ⟨i, hi, rfl⟩ := hpart.exists_eq_of_length_le (by omega)
          (List.getElem?_eq_some_iff.mp hk).1
        obtain ⟨e', he', -, -, hsignature⟩ := hpart.sits i _ (List.getElem?_eq_getElem hi)
        rw [hk, Option.some.injEq] at he'
        have := hn _ (getElem_mem hi)
        simp only [decide_eq_false_iff_not] at this
        exact this (by rw [← hsignature, ← he', heq])
      rw [findIdx?_signature_eq_none hnone]
      have hpartle := hpart.length_le
      refine ⟨?_, by simp⟩
      rw [← Bool.not_eq_true, admitsVariant_iff, not_and, Nat.not_lt]
      intro _
      simp only [length_map, length_append]
      omega

end Pathologist.Expansion

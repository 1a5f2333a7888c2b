import Pathologist.Expansion.Mirrors

/-!
# Committing is replaying

When a journal agrees with the stored cache, every record it made resolves, and
committing it leaves the cache that the same operations leave when they are carried
out directly.
-/
open List Function
namespace Pathologist.Expansion
open Deferred ExpansionJournal Indices
variable {Name Path Def Rest : Type*} [DecidableEq Name] [DecidableEq Path]
variable {hash : Def → Bool → ℕ} {cap : ℕ} {language : Language}
  {ident : ℕ → Identity Name Path Rest} {ahead : List (ExpansionJournal Name Path Def Rest)}
  {stored : Cache Name Path Rest} {j : ExpansionJournal Name Path Def Rest}
  {indices : Indices} {ops : List (Cache Name Path Rest × Op Name Path Def Rest)}
variable {records records' : List (Path × Handle)} {ids : ExpansionKey Path → List ℕ}

omit [DecidableEq Name] [DecidableEq Path] in
/-- Records by index resolve to themselves. -/
lemma records_eq_of_index (h : List.Forall₂ (Denotes ids language) records records')
    (hindex : ∀ r ∈ records, r.2.isProvisional = false) : records' = records := by
  induction h with
  | nil => rfl
  | @cons r r' records records' hd _ ih =>
    rw [ih fun q hq => hindex q (mem_cons_of_mem _ hq)]
    obtain ⟨path, handle⟩ := r
    obtain ⟨path', handle'⟩ := r'
    obtain ⟨hp, n, hn, hc⟩ := hd
    have hnot := hindex _ mem_cons_self
    dsimp only at hp hn hc hnot
    rcases hc with rfl | ⟨id, rfl, -⟩
    · rw [hp, hn]
    · simp [Handle.isProvisional] at hnot

/-- The remembered indices are right, and every entry kept back has one. -/
structure Indices.Good (stored : Cache Name Path Rest) (j : ExpansionJournal Name Path Def Rest)
    (indices : Indices) : Prop where
  right : ∀ id n, indices id = some n → ∃ key, (extendedIds stored j key)[n]? = some id
  own : ∀ key, ∀ e ∈ j.own key, (indices e.id).isSome

namespace Accepted
variable (h : Accepted hash cap language ident ahead stored j)
include h

lemma place_unique {key key'} {m n id : ℕ} (hm : (extendedIds stored j key)[m]? = some id)
    (hn : (extendedIds stored j key')[n]? = some id) : key = key' ∧ m = n := by
  have hkey : key = key' := by
    simp only [extendedIds, getElem?_map, Option.map_eq_some_iff] at hm hn
    obtain ⟨e, he, hid⟩ := hm
    obtain ⟨e', he', hid'⟩ := hn
    exact ((h.names_extended (mem_of_getElem? he)).congr
      (h.names_extended (mem_of_getElem? he')) (hid.trans hid'.symm)).1
  subst hkey
  refine ⟨rfl, (List.getElem?_inj ?_ (h.nodup_extendedIds key)).mp (hm.trans hn.symm)⟩
  exact (List.getElem?_eq_some_iff.mp hm).1

variable (hgood : indices.Good stored j)
include hgood

lemma resolve_eq {path : Path} {handle : Handle} {n : ℕ}
    (hd : Denotes (extendedIds stored j) language (path, handle) (path, .index n)) :
    ∃ indices', resolve language stored indices path handle = some (n, indices') ∧
      Indices.Good stored j indices' := by
  obtain ⟨-, n', hn', hc⟩ := hd
  obtain rfl : n = n' := by simpa using hn'
  rcases hc with rfl | ⟨id, rfl, hid⟩
  · exact ⟨indices, rfl, hgood⟩
  cases hk : indices id with
  | some m =>
    obtain ⟨key, hkey⟩ := hgood.right id m hk
    obtain ⟨-, rfl⟩ := h.place_unique hkey hid
    exact ⟨indices, by simp [resolve, hk], hgood⟩
  | none =>
    -- not one of the run's own, so it is among the stored ones
    obtain ⟨e, he, hide⟩ : ∃ e, (stored (path, language))[n]? = some e ∧ e.id = id := by
      simp only [extendedIds, getElem?_map, Option.map_eq_some_iff] at hid
      obtain ⟨e, he, hide⟩ := hid
      rcases Nat.lt_or_ge n (stored (path, language)).length with hlt | hge
      · exact ⟨e, by rwa [getElem?_append_left hlt] at he, hide⟩
      rw [getElem?_append_right hge] at he
      have := hgood.own _ e (mem_of_getElem? he)
      simp [hide, hk] at this
    have hfind := findIdx?_label (h.nodup_stored_ids (path, language)) he
    rw [hide] at hfind
    refine ⟨indices.remember (id, n), by simp [resolve, hk, hfind], ?_, ?_⟩
    · intro id' m hm
      by_cases hid' : id' = id
      · subst hid'
        rw [remember, update_self, Option.some.injEq] at hm
        subst hm
        exact ⟨_, hid⟩
      · rw [remember, update_of_ne hid'] at hm
        exact hgood.right id' m hm
    · intro key e he
      by_cases hid' : e.id = id
      · rw [hid', remember, update_self]
        rfl
      · rw [remember, update_of_ne hid']
        exact hgood.own key e he

lemma resolveAll_eq {records records'}
    (hr : List.Forall₂ (Denotes (extendedIds stored j) language) records records') :
    ∃ indices', resolveAll language stored indices records = some (records', indices') ∧
      Indices.Good stored j indices' := by
  induction hr generalizing indices with
  | nil => exact ⟨indices, rfl, hgood⟩
  | @cons r r' records records' hd _ ih =>
    obtain ⟨path', handle'⟩ := r'
    obtain ⟨hp, n, hn, -⟩ := id hd
    subst hp hn
    obtain ⟨indices₁, heq, hgoo₁⟩ := h.resolve_eq hgood hd
    obtain ⟨indices₂, heq₂, hgoo₂⟩ := ih hgoo₁
    exact ⟨indices₂, by simp [resolveAll, heq, heq₂], hgoo₂⟩

lemma withIndices_eq {e e'} (hr : Resolved (extendedIds stored j) language e e') :
    ∃ indices', withIndices language stored indices e = some (e', indices') ∧
      Indices.Good stored j indices' := by
  obtain ⟨hid, hs, hd, hrest, hn⟩ := hr
  obtain ⟨id', signature', deps', nested', rest'⟩ := e'
  dsimp only at hid hs hd hrest hn
  subst hid hs hd hrest
  unfold withIndices
  split
  · obtain ⟨indices₁, heq, hgoo₁⟩ := h.resolveAll_eq hgood hn
    exact ⟨indices₁, by simp [heq], hgoo₁⟩
  rename_i hnone
  refine ⟨indices, ?_, hgood⟩
  simp only [any_eq_true, not_exists, not_and, Bool.not_eq_true] at hnone
  rw [records_eq_of_index hn hnone]

lemma withIndicesAll_eq {entries entries'}
    (he : List.Forall₂ (Resolved (extendedIds stored j) language) entries entries') :
    ∃ indices', withIndicesAll language stored indices entries = some (entries', indices') ∧
      Indices.Good stored j indices' := by
  induction he generalizing indices with
  | nil => exact ⟨indices, rfl, hgood⟩
  | cons hr _ ih =>
    obtain ⟨indices₁, heq, hgoo₁⟩ := h.withIndices_eq hgood hr
    obtain ⟨indices₂, heq₂, hgoo₂⟩ := ih hgoo₁
    exact ⟨indices₂, by simp [withIndicesAll, heq, heq₂], hgoo₂⟩

lemma publishedOf_eq
    {pending : List ((_ : ExpansionKey Path) × List (IncludeExpansion Name Path Rest))}
    {own' : ExpansionKey Path → List (IncludeExpansion Name Path Rest)} (hp : ∀ p ∈ pending,
      List.Forall₂ (Resolved (extendedIds stored j) language) p.2 (own' p.1)) :
    publishedOf language stored indices pending = some (pending.map fun p => (p.1, own' p.1)) := by
  induction pending generalizing indices with
  | nil => rfl
  | cons p pending ih =>
    obtain ⟨indices₁, heq, hgoo₁⟩ := h.withIndicesAll_eq hgood (hp p mem_cons_self)
    have htail := ih hgoo₁ fun q hq => hp q (mem_cons_of_mem _ hq)
    simp [publishedOf, heq, htail]

end Accepted

/-- What remembering a list of places leaves known. -/
lemma foldl_remember (places : List (ℕ × ℕ)) (indices : Indices) :
    (∀ id n, places.foldl remember indices id = some n → (id, n) ∈ places ∨ indices id = some n) ∧
      ∀ id, (indices id).isSome ∨ id ∈ places.map Prod.fst →
        (places.foldl remember indices id).isSome := by
  induction places generalizing indices with
  | nil => simp
  | cons place places ih =>
    obtain ⟨hr, hk⟩ := ih (indices.remember place)
    refine ⟨?_, ?_⟩
    · intro id n h
      rcases hr id n h with hmem | hold
      · exact .inl (mem_cons_of_mem _ hmem)
      by_cases hid : id = place.1
      · subst hid
        rw [remember, update_self, Option.some.injEq] at hold
        exact .inl (by simp [← hold])
      · rw [remember, update_of_ne hid] at hold
        exact .inr hold
    intro id h
    refine hk id ?_
    by_cases hid : id = place.1
    · subst hid
      exact .inl (by simp [remember])
    rw [remember, update_of_ne hid]
    rcases h with h | h
    · exact .inl h
    · exact .inr (by simpa [hid] using h)

variable {pending : List ((_ : ExpansionKey Path) × List (IncludeExpansion Name Path Rest))}

omit [DecidableEq Name] in
lemma own_eq_of_mem (hpending : pending.Perm j.pending.entries) {p} (hp : p ∈ pending) :
    j.own p.1 = p.2 := by
  have : j.pending.lookup p.1 = some p.2 := AList.mem_lookup_iff.mpr (hpending.mem_iff.mp hp)
  rw [own, this, Option.getD_some]

omit [DecidableEq Name] in
lemma good_ownIndices (hpending : pending.Perm j.pending.entries) :
    Indices.Good stored j (ownIndices stored pending) := by
  obtain ⟨hr, hk⟩ := foldl_remember (ownPlaces stored pending) fun _ => none
  refine ⟨?_, ?_⟩
  · intro id n h
    rcases hr id n h with hmem | hn
    · obtain ⟨p, hp, hmem⟩ := mem_flatMap.mp hmem
      obtain ⟨⟨e, m⟩, he, heq⟩ := mem_map.mp hmem
      cases heq
      refine ⟨p.1, (show Covers (extendedIds stored j) stored j from
        fun _ => prefix_rfl).own ?_⟩
      rw [own_eq_of_mem hpending hp]
      exact mem_zipIdx_iff_getElem?.mp he
    · simp at hn
  intro key e he
  refine hk e.id (.inr ?_)
  cases hl : j.pending.lookup key with
  | none => simp [own, hl] at he
  | some entries =>
    have hmem := hpending.mem_iff.mpr (AList.mem_lookup_iff.mp hl)
    rw [own, hl, Option.getD_some] at he
    obtain ⟨m, hm⟩ := mem_iff_getElem?.mp he
    refine mem_map.mpr ⟨(e.id, (stored key).length + m), ?_, rfl⟩
    refine mem_flatMap.mpr ⟨⟨key, entries⟩, hmem, ?_⟩
    exact mem_map.mpr ⟨(e, m), mem_zipIdx_iff_getElem?.mpr hm, rfl⟩

omit [DecidableEq Name] in
lemma extendWith_apply
    (hn : (pending.map Sigma.fst).Nodup)
    (own' : ExpansionKey Path → List (IncludeExpansion Name Path Rest))
    (stored : Cache Name Path Rest) (key : ExpansionKey Path) :
    extendWith stored (pending.map fun p => (p.1, own' p.1)) key =
      stored key ++ if key ∈ pending.map Sigma.fst then own' key else [] := by
  induction pending generalizing stored with
  | nil => simp [extendWith]
  | cons p pending ih =>
    obtain ⟨hnot, hn⟩ := nodup_cons.mp hn
    have hstep : extendWith stored ((p :: pending).map fun p => (p.1, own' p.1)) =
        extendWith (update stored p.1 (stored p.1 ++ own' p.1))
          (pending.map fun p => (p.1, own' p.1)) := rfl
    rw [hstep, ih hn]
    by_cases hkey : key = p.1
    · subst hkey
      simp [hnot]
    · simp only [update_of_ne hkey, map_cons, mem_cons, hkey, false_or]

variable {replayed : List (Path × Handle)}

/-- A journal that agrees commits: it appends its entries, their records by index. -/
lemma Accepted.commit_eq (h : Accepted hash cap language ident ahead stored j)
    (hpending : pending.Perm j.pending.entries)
    {own' : ExpansionKey Path → List (IncludeExpansion Name Path Rest)}
    (hown : ∀ key, List.Forall₂ (Resolved (extendedIds stored j) language) (j.own key) (own' key))
    {replayed' : List (Path × Handle)}
    (hr : List.Forall₂ (Denotes (extendedIds stored j) language) replayed replayed') :
    j.commit hash pending stored replayed =
      (true, fun key => stored key ++ own' key, replayed') := by
  obtain ⟨indices, heq, hgood⟩ := h.resolveAll_eq (good_ownIndices hpending) hr
  have hpublished : publishedOf language stored indices pending =
      some (pending.map fun p => (p.1, own' p.1)) := by
    refine h.publishedOf_eq hgood ?_
    intro p hp
    have := hown p.1
    rwa [own_eq_of_mem hpending hp] at this
  have hnodup : (pending.map Sigma.fst).Nodup :=
    (hpending.map Sigma.fst).nodup_iff.mpr j.pending.nodupKeys
  unfold commit
  rw [h.agrees, h.language, heq]
  simp only [Bool.not_true, Bool.false_eq_true, if_false, hpublished]
  refine Prod.ext rfl (Prod.ext ?_ rfl)
  funext key
  dsimp only
  rw [extendWith_apply hnodup]
  split
  · rfl
  rename_i hkey
  have hnone : j.own key = [] := by
    cases hl : j.pending.lookup key with
    | none => rw [own, hl, Option.getD_none]
    | some entries =>
      exact absurd (mem_map.mpr ⟨⟨key, entries⟩,
        hpending.mem_iff.mpr (AList.mem_lookup_iff.mp hl), rfl⟩) hkey
  have := hown key
  rw [hnone, forall₂_nil_left_iff] at this
  rw [this]

omit [DecidableEq Name] [DecidableEq Path] in
lemma not_provisional_of_denotes (h : List.Forall₂ (Denotes ids language) records records') {r}
    (hr : r ∈ records') : r.2.isProvisional = false := by
  induction h with
  | nil => simp at hr
  | cons hd _ ih =>
    rcases mem_cons.mp hr with rfl | hr
    · obtain ⟨-, n, hn, -⟩ := hd
      rw [hn]
      rfl
    · exact ih hr

/-- The cache after the commit keeps what every cache keeps. -/
lemma Accepted.valid_extended (h : Accepted hash cap language ident ahead stored j) {cache}
    (hc : ∀ key, ∃ own', cache key = stored key ++ own' ∧
      List.Forall₂ (Resolved (extendedIds stored j) language) (j.own key) own') :
    stored.Grows cache ∧ cache.Valid cap ∧ cache.ids = extendedIds stored j := by
  have hmap : ∀ {α : Type} (g : IncludeExpansion Name Path Rest → α)
      {own own' : List (IncludeExpansion Name Path Rest)},
      (∀ e e', Resolved (extendedIds stored j) language e e' → g e' = g e) →
      List.Forall₂ (Resolved (extendedIds stored j) language) own own' →
      own'.map g = own.map g := by
    intro α g own own' hg hown
    induction hown with
    | nil => rfl
    | cons hee' _ ih => rw [map_cons, map_cons, hg _ _ hee', ih]
  refine ⟨?_, ⟨?_, ?_, ?_⟩, ?_⟩
  · intro key
    obtain ⟨own', heq, -⟩ := hc key
    rw [heq]
    exact prefix_append _ _
  · intro key
    obtain ⟨own', heq, hown⟩ := hc key
    rw [heq, length_append, ← hown.length_eq]
    exact h.room key
  · intro key
    obtain ⟨own', heq, hown⟩ := hc key
    rw [heq, map_append, hmap _ (fun e e' hee' => hee'.signature) hown, ← map_append]
    exact h.nodup_signatures key
  · intro key e he r hr
    obtain ⟨own', heq, hown⟩ := hc key
    rw [heq] at he
    rcases mem_append.mp he with he | he
    · exact h.setting.valid.indexed key e he r hr
    obtain ⟨e', -, hresolved⟩ := exists_resolved hown he
    exact not_provisional_of_denotes hresolved.nested hr
  · funext key
    obtain ⟨own', heq, hown⟩ := hc key
    rw [Cache.ids, heq, map_append, hmap _ (fun e e' hee' => hee'.id) hown,
      ← map_append, extendedIds]

/-- Macro and header changes, lookups and publications. -/
def Op.Plain : Op Name Path Def Rest → Prop
  | .recordedEntry _ | .sameRecord _ _ => False
  | _ => True

lemma legible_of_plain {d} (h : ∀ o ∈ ops, o.2.Plain) : Legible hash ahead stored d ops := by
  induction ops generalizing d with
  | nil => trivial
  | cons o ops ih =>
    refine ⟨?_, ih fun o ho => h o (mem_cons_of_mem _ ho)⟩
    have hplain := h o mem_cons_self
    obtain ⟨cache, op⟩ := o
    cases op <;> trivial

omit [DecidableEq Name] in
lemma mirrors_start (macros : Name → Option Def) (fallbacks : Name → Bool) : Mirrors language stored
      (.start cap language macros fallbacks : Deferred Name Path Def Rest)
      (.start macros fallbacks stored) := by
  refine ⟨rfl, fun key => ⟨[], (append_nil _).symm, ?_⟩, .nil⟩
  simp [start, new, own]

/-- The journal of a run that agrees with the stored cache. -/
lemma accepted_of_run {macros fallbacks} (hs : Setting cap language ident ahead stored)
    (ht : Timely stored (fun _ => []) ops) (hn : ∀ o ∈ ops, o.2.Named ident language)
    (ha : ((start cap language macros fallbacks).run hash ahead ops).finished.agrees
      hash stored true = true) :
    Accepted hash cap language ident ahead stored
      ((start cap language macros fallbacks).run hash ahead ops).finished := by
  have hgrows : (start cap language macros fallbacks).journal.Grows
      ((start cap language macros fallbacks).run hash ahead ops).finished :=
    (grows_run _ ops).trans (grows_finished _)
  exact
    { setting := hs
      consistent := (consistent_run hs.named hs.aheadNamed
        (consistent_new cap language) ht hn).congr rfl fun _ => rfl
      cap := hgrows.cap
      language := hgrows.language
      agrees := ha }

lemma commit_false (h : (j.commit hash pending stored replayed).1 = false) :
    (j.commit hash pending stored replayed).2 = (stored, replayed) := by
  unfold commit at h ⊢
  split
  · rfl
  rename_i ha
  rw [if_neg ha] at h
  split
  · rfl
  rename_i heq
  rw [heq] at h
  dsimp only at h
  split
  · rfl
  · rename_i heq'
    rw [heq'] at h
    simp at h

lemma agrees_of_commit (h : (j.commit hash pending stored replayed).1 = true) :
    j.agrees hash stored true = true := by
  by_contra hnot
  rw [Bool.not_eq_true] at hnot
  simp [commit, hnot] at h

/-- Committing the journal of a run is replaying its operations on the writable cache:
they take the same variants and leave the same lists, which are only appended to and
stay within the cap, of distinct signatures, without a provisional handle. A commit
that fails changes nothing. -/
theorem commit_replays (hash : Def → Bool → ℕ) (cap : ℕ) (language : Language)
    (macros : Name → Option Def) (fallbacks : Name → Bool)
    (ident : ℕ → Identity Name Path Rest) (ahead : List (ExpansionJournal Name Path Def Rest))
    (stored : Cache Name Path Rest)
    (ops : List (Cache Name Path Rest × Op Name Path Def Rest)) (replayed : List Ref)
    (pending : List ((_ : ExpansionKey Path) × List (IncludeExpansion Name Path Rest)))
    (hsetting : Setting cap language ident ahead stored)
    (htimely : Timely stored (fun _ => []) ops) (hnamed : ∀ o ∈ ops, o.2.Named ident language)
    (hplain : ∀ o ∈ ops, o.2.Plain)
    (hpending : pending.Perm
      ((Deferred.start cap language macros fallbacks).run hash ahead
        ops).finished.pending.entries) :
    let d := (start cap language macros fallbacks).run hash ahead ops
    let t := (Direct.start macros fallbacks stored).run hash cap language (ops.map Prod.snd)
    let result := d.finished.commit hash pending stored (recordsOf d.answers replayed)
    (result.1 = true →
      List.Forall₂ (Answer.Resolved t.cache.ids language) d.answers t.answers ∧
      result.2 = (t.cache, recordsOf t.answers replayed) ∧
      stored.Grows t.cache ∧ t.cache.Valid cap ∧
      ∀ r ∈ result.2.2, r.2.isProvisional = false) ∧
    (result.1 = false → result.2 = (stored, recordsOf d.answers replayed)) := by
  intro d t result
  refine ⟨?_, commit_false⟩
  intro htrue
  have haccepted := accepted_of_run hsetting htimely hnamed (agrees_of_commit htrue)
  have hmirrors : Mirrors language stored d t :=
    mirrors_run prefix_rfl haccepted (headersKept_start ..)
      (consistent_new cap language) htimely hnamed (legible_of_plain hplain)
      (mirrors_start macros fallbacks)
  obtain ⟨hgrows, hvalid, hids⟩ := haccepted.valid_extended hmirrors.cache
  have hreplayed := recordsOf_forall₂ hmirrors.answers replayed
  have hresult : result = (true, t.cache, recordsOf t.answers replayed) := by
    choose own' hcache hown using hmirrors.cache
    have := haccepted.commit_eq hpending hown hreplayed
    rwa [← funext hcache] at this
  refine ⟨?_, by rw [hresult], hgrows, hvalid, ?_⟩
  · rw [hids]
    exact hmirrors.answers
  · rw [hresult]
    exact fun r hr => not_provisional_of_denotes hreplayed hr

/-- Two variants of header `0`: one for a unit that binds `7` to `5`, one for a unit
that leaves `7` unbound. -/
def twoVariants : Cache ℕ ℕ Unit := fun key =>
  if key = (0, .c) then
    [⟨1, 10, ⟨false, [(7, 5)], [], [], none⟩, [], ()⟩, ⟨2, 11, ⟨false, [], [7], [], none⟩, [], ()⟩]
  else []

/-- What the ids of the sample stand for. -/
def sampleIdentity (id : ℕ) : Identity ℕ ℕ Unit :=
  if id = 1 then ⟨(0, .c), 10, ⟨false, [(7, 5)], [], [], none⟩, ()⟩
  else if id = 2 then ⟨(0, .c), 11, ⟨false, [], [7], [], none⟩, ()⟩
  else ⟨(1, .c), 20, ⟨false, [(7, 5)], [], [], none⟩, ()⟩

/-- A run that was shown the first variant only: it binds `7`, takes the variant, and
keeps an entry of header `1` back that records it. -/
def sampleOps : List (Cache ℕ ℕ Unit × Op ℕ ℕ ℕ Unit) :=
  let shown : Cache ℕ ℕ Unit := fun key => (twoVariants key).take 1
  [(shown, .define 7 5), (shown, .matchingVariant 0),
    (twoVariants, .publishVariant 1 ⟨3, 20, ⟨false, [(7, 5)], [], [], none⟩, [(1, 0)], ()⟩),
    (twoVariants, .matchingVariant 1)]

lemma sample_setting : Setting 8 .c sampleIdentity ([] : List (ExpansionJournal ℕ ℕ ℕ Unit))
    twoVariants := by
  have hcases : ∀ key, ∀ e ∈ twoVariants key, key = (0, Language.c) ∧
      (e = ⟨1, 10, ⟨false, [(7, 5)], [], [], none⟩, [], ()⟩ ∨
        e = ⟨2, 11, ⟨false, [], [7], [], none⟩, [], ()⟩) := by
    intro key e he
    unfold twoVariants at he
    split at he
    · exact ⟨‹_›, by simpa using he⟩
    · simp at he
  refine ⟨?_, ⟨?_, ?_, ?_⟩, by simp, by simp⟩
  · intro key e he
    obtain ⟨rfl, rfl | rfl⟩ := hcases key e he <;> rfl
  · intro key
    unfold twoVariants
    split <;> simp
  · intro key
    unfold twoVariants
    split <;> simp
  · intro key e he r hr
    obtain ⟨-, rfl | rfl⟩ := hcases key e he <;> simp at hr

theorem sample_commit_replays :
    let d := (start 8 .c (fun _ => none) fun _ => false).run (fun n _ => n) [] sampleOps
    let t := (Direct.start (fun _ => none) (fun _ => false) twoVariants).run (fun n _ => n) 8 .c
      (sampleOps.map Prod.snd)
    let result := d.finished.commit (fun n _ => n) d.finished.pending.entries twoVariants
      (recordsOf d.answers [(3, 0)])
    result.1 = true ∧ result.2 = (t.cache, recordsOf t.answers [(3, 0)]) ∧
      t.cache (1, .c) = [⟨3, 20, ⟨false, [(7, 5)], [], [], none⟩, [(0, .index 0)], ()⟩] := by
  intro d t result
  have hgrows : Cache.Grows (fun key => (twoVariants key).take 1) twoVariants :=
    fun key => take_prefix _ _
  have h := commit_replays (fun n _ => n) 8 .c (fun _ => none) (fun _ => false) sampleIdentity []
    twoVariants sampleOps [(3, 0)] d.finished.pending.entries sample_setting
    ⟨fun _ => nil_prefix, Cache.Grows.refl _, hgrows, Cache.Grows.refl _, Cache.Grows.refl _⟩
    (by simp [sampleOps, Op.Named, sampleIdentity]) (by simp [sampleOps, Op.Plain]) (.refl _)
  have hcommit : result.1 = true := by rfl
  exact ⟨hcommit, (h.1 hcommit).2.1, rfl⟩

end Pathologist.Expansion

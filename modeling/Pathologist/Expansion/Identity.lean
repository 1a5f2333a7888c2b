import Pathologist.Expansion.History

/-!
# What ids and handles name

An id names one expansion for the life of the process: its header, fingerprint and
content. Handles name variants by index or by id. What a run's journal holds of the
cache and of the journals ahead, said in those terms, and kept by every operation.
-/
namespace Pathologist.Expansion
variable {Name Path Def Rest : Type*}

/-- What an id stands for. -/
structure Identity (Name Path Rest : Type*) where
  key : ExpansionKey Path
  signature : ℕ
  deps : MacroFingerprint Name Path
  rest : Rest

/-- `entry`, a variant of `key`, is the expansion its id stands for. -/
def Names (ident : ℕ → Identity Name Path Rest) (key : ExpansionKey Path)
    (entry : IncludeExpansion Name Path Rest) : Prop :=
  ident entry.id = ⟨key, entry.signature, entry.deps, entry.rest⟩

section
variable {ident : ℕ → Identity Name Path Rest} {key key' : ExpansionKey Path}
  {e e' : IncludeExpansion Name Path Rest}

lemma Names.congr (h : Names ident key e) (h' : Names ident key' e') (hid : e.id = e'.id) :
    key = key' ∧ e.signature = e'.signature ∧ e.deps = e'.deps ∧ e.rest = e'.rest := by
  unfold Names at h h'
  rw [hid, h'] at h
  simp only [Identity.mk.injEq] at h
  obtain ⟨hkey, hs, hd, hr⟩ := h
  exact ⟨hkey.symm, hs.symm, hd.symm, hr.symm⟩

lemma nodup_ids {list : List (IncludeExpansion Name Path Rest)} (hn : ∀ e ∈ list, Names ident key e)
    (hd : (list.map IncludeExpansion.signature).Nodup) : (list.map IncludeExpansion.id).Nodup := by
  have hpairs := List.pairwise_map.mp hd
  refine List.pairwise_map.mpr (hpairs.imp_of_mem ?_)
  intro e e' he he' hne hid
  exact hne ((hn e he).congr (hn e' he') hid).2.1

end

namespace Cache

/-- Every stored entry is what its id stands for. -/
def Named (ident : ℕ → Identity Name Path Rest) (cache : Cache Name Path Rest) : Prop :=
  ∀ key, ∀ e ∈ cache key, Names ident key e

/-- What a cache keeps: lists within the cap, of distinct signatures, that name
their nested variants by index. -/
structure Valid (cap : ℕ) (cache : Cache Name Path Rest) : Prop where
  within : ∀ key, (cache key).length ≤ cap
  distinct : ∀ key, ((cache key).map IncludeExpansion.signature).Nodup
  indexed : ∀ key, ∀ e ∈ cache key, ∀ r ∈ e.nestedVariants, r.2.isProvisional = false

/-- The lists of `cache` were only appended to. -/
def Grows (cache cache' : Cache Name Path Rest) : Prop :=
  ∀ key, cache key <+: cache' key

lemma Grows.refl (cache : Cache Name Path Rest) : cache.Grows cache :=
  fun _ => List.prefix_rfl

lemma Grows.trans {a b c : Cache Name Path Rest} (h : a.Grows b) (h' : b.Grows c) : a.Grows c :=
  fun key => (h key).trans (h' key)

lemma Grows.getElem? {a b : Cache Name Path Rest} (h : a.Grows b) {key : ExpansionKey Path} {n : ℕ}
    {e : IncludeExpansion Name Path Rest} (he : (a key)[n]? = some e) : (b key)[n]? = some e := by
  obtain ⟨rest, hr⟩ := h key
  rw [← hr, List.getElem?_append_left (List.getElem?_eq_some_iff.mp he).1]
  exact he

def ids (cache : Cache Name Path Rest) (key : ExpansionKey Path) : List ℕ :=
  (cache key).map IncludeExpansion.id

end Cache

/-- The record `r'`, by index, names the variant that `r` names. -/
def Denotes (ids : ExpansionKey Path → List ℕ) (language : Language) (r r' : Path × Handle) :
    Prop :=
  r.1 = r'.1 ∧ ∃ n, r'.2 = .index n ∧
    (r.2 = .index n ∨ ∃ id, r.2 = .provisional id ∧ (ids (r.1, language))[n]? = some id)

/-- `e'` is `e` with its nested records by index. -/
structure Resolved (ids : ExpansionKey Path → List ℕ) (language : Language)
    (e e' : IncludeExpansion Name Path Rest) : Prop where
  id : e'.id = e.id
  signature : e'.signature = e.signature
  deps : e'.deps = e.deps
  rest : e'.rest = e.rest
  nested : List.Forall₂ (Denotes ids language) e.nestedVariants e'.nestedVariants

section
variable {ids ids' : ExpansionKey Path → List ℕ} {language : Language}

lemma Denotes.mono (hids : ∀ key, ids key <+: ids' key) {r r'} (h : Denotes ids language r r') :
    Denotes ids' language r r' := by
  obtain ⟨hp, n, hn, hc⟩ := h
  refine ⟨hp, n, hn, ?_⟩
  rcases hc with hindex | ⟨id, hid, hat⟩
  · exact .inl hindex
  obtain ⟨rest, hr⟩ := hids (r.1, language)
  refine .inr ⟨id, hid, ?_⟩
  rw [← hr, List.getElem?_append_left (List.getElem?_eq_some_iff.mp hat).1]
  exact hat

lemma Resolved.mono (hids : ∀ key, ids key <+: ids' key) {e e' : IncludeExpansion Name Path Rest}
    (h : Resolved ids language e e') : Resolved ids' language e e' :=
  ⟨h.id, h.signature, h.deps, h.rest, h.nested.imp fun _ _ => Denotes.mono hids⟩

lemma denotes_self {r} (h : r.2.isProvisional = false) : Denotes ids language r r := by
  obtain ⟨path, handle⟩ := r
  cases handle with
  | index n => exact ⟨rfl, n, rfl, .inl rfl⟩
  | provisional id => simp [Handle.isProvisional] at h

end

/-- The cache a run commits to, and the journals it was shown ahead of it. An entry
kept back ahead may be stored by now; it is stored with its records by index. -/
structure Setting (cap : ℕ) (language : Language) (ident : ℕ → Identity Name Path Rest)
    (ahead : List (ExpansionJournal Name Path Def Rest)) (stored : Cache Name Path Rest)
    [DecidableEq Path] : Prop where
  named : stored.Named ident
  valid : stored.Valid cap
  aheadNamed : ∀ j ∈ ahead, ∀ key, ∀ e ∈ j.own key, Names ident key e
  aheadStored : ∀ j ∈ ahead, ∀ path, ∀ e ∈ j.own (path, language),
    ∀ e' ∈ stored (path, language), e'.id = e.id → Resolved stored.ids language e e'

end Pathologist.Expansion

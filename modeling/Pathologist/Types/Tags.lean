import Pathologist.Types.Runs

/-!
# The tags of a table

A table keeps its tags settled if the tag of every name that is not just a guess is the richest
entry interned under the name, and a guessed name has no tag. Interning and the unions of
layouts keep them settled. A guess, a declaration and a merge do so under conditions on the
table before them, which the main theorem shows to be exact.
-/
open List
namespace Pathologist.Types

open TypeTable Lib.Stateful

namespace TypeTable

def Interned (t : TypeTable) (d : TypeDesc) : Prop := (t.interned d).isSome = true

/-- The tags of a name: for each kind in which the name is interned the richest such entry, and
no tag at all while the name is a guess. -/
structure SettledAt (t : TypeTable) (n : Ident) : Prop where
  registered : ¬ t.IsGuessed n → ∀ {k d}, t.Interned d → d.tag = some (k, n) →
    ∃ id info, t.tags k n = some id ∧ t.types[id]? = some info ∧ info.desc.tag = some (k, n) ∧
      t.Interned info.desc ∧
      ∀ {e}, t.Interned e → e.tag = some (k, n) → e.fields.length ≤ info.desc.fields.length
  guessed : t.IsGuessed n → ∀ k, t.tags k n = none

def TagsSettled (t : TypeTable) : Prop := ∀ n, t.SettledAt n

/-- The entry withheld from a guessed name is of every kind in which the name is interned, and
the richest. -/
def WithheldRichest (t : TypeTable) (n : Ident) : Prop :=
  ∀ {k d}, t.Interned d → d.tag = some (k, n) →
    ∃ id, t.untagged n = some id ∧ (t.desc id).tag = some (k, n) ∧
      d.fields.length ≤ (t.desc id).fields.length

/-- The condition on a table and an operation under which its tags stay settled. -/
def KeepsTags (t : TypeTable) : Op → Prop
  | .noteGuessedClass n =>
    t.IsGuessed n ∨ n ∈ t.declaredStructs ∨ t.tags .struct n = none ∨ t.tags .union n = none
  | .declareStruct n => t.IsGuessed n → t.WithheldRichest n
  | .defineStruct n => n ∈ t.definedStructs ∨ (t.IsGuessed n → t.WithheldRichest n)
  | .mergeStructDeclarations other =>
    (∀ n ∈ other.declaredStructs, t.IsGuessed n → t.WithheldRichest n) ∧
      ∀ n ∈ other.guessedTags, ¬ t.IsGuessed n → ¬ n ∈ t.declaredStructs →
        ¬ n ∈ other.declaredStructs → ∀ k, t.tags k n = none
  | _ => True

/-- Entries laid out with all their members and interned under their descriptors. -/
structure Full (t : TypeTable) : Prop where
  laid : ∀ {id}, id < t.types.length → (t.layoutFields id).length = (t.desc id).fields.length
  keyed : ∀ {id}, id < t.types.length → t.Interned (t.desc id)
  narrower : ∀ {d id}, t.interned d = some id → d.fields.length ≤ (t.desc id).fields.length

variable {t : TypeTable}

lemma Full.tagRichness_eq (hf : t.Full) {id : TypeId} (hid : id < t.types.length) :
    tagRichness (t.info id) = (t.desc id).fields.length := by
  have hlaid : (t.info id).layout.fields.length = (t.desc id).fields.length := hf.laid hid
  rw [tagRichness, hlaid]
  exact Nat.max_self _

/-- The tag of a kind and name covers a descriptor if its entry has as many members. -/
def Covers (t : TypeTable) (k : TagKind) (n : Ident) (d : TypeDesc) : Prop :=
  ∃ id, t.tags k n = some id ∧ d.fields.length ≤ (t.desc id).fields.length

/-- Settled tags, said of one descriptor at a time. -/
structure CoveredAt (t : TypeTable) (n : Ident) : Prop where
  covers : ¬ t.IsGuessed n → ∀ {k d}, t.Interned d → d.tag = some (k, n) → t.Covers k n d
  guessed : t.IsGuessed n → ∀ k, t.tags k n = none

variable {n : Ident}

lemma settledAt_iff (hs : t.Sound) (hf : t.Full) : t.SettledAt n ↔ t.CoveredAt n := by
  constructor
  · intro h
    refine ⟨fun hn k d hd hdtag => ?_, h.guessed⟩
    obtain ⟨id, info, hid, hinfo, -, -, hmax⟩ := h.registered hn hd hdtag
    refine ⟨id, hid, ?_⟩
    rw [desc, TypeTable.info, getD_eq_getElem?_getD, hinfo]
    exact hmax hd hdtag
  intro h
  refine ⟨fun hn k d hd hdtag => ?_, h.guessed⟩
  obtain ⟨id, hid, -⟩ := h.covers hn hd hdtag
  obtain ⟨hlt, htag⟩ := hs.tagged hid
  refine ⟨id, t.info id, hid, ?_, htag, hf.keyed hlt, fun {e} he hetag => ?_⟩
  · rw [TypeTable.info, getD_eq_getElem _ _ hlt, getElem?_eq_getElem hlt]
  · obtain ⟨id', hid', hle⟩ := h.covers hn he hetag
    cases hid.symm.trans hid'
    exact hle

/-- Where only the entry `id` may be richer than the tag of its name, noting it settles the
tags. -/
lemma coveredAt_noteNamedTag {id : TypeId} (hs : t.Sound) (hf : t.Full) (hid : id < t.types.length)
    (hcov : ¬ t.IsGuessed n → ∀ {k d}, t.Interned d → d.tag = some (k, n) →
      t.Covers k n d ∨ (t.desc id).tag = some (k, n) ∧ d.fields.length ≤ (t.desc id).fields.length)
    (hg : t.IsGuessed n → ∀ k, t.tags k n = none) : (t.noteNamedTag id).CoveredAt n := by
  have hguess_iff : (t.noteNamedTag id).IsGuessed n ↔ t.IsGuessed n :=
    (extends_noteNamedTag t id).isGuessed_iff
  refine ⟨fun hn k d hd hdtag => ?_, fun hn k => ?_⟩
  · rw [Interned, noteNamedTag_interned] at hd
    replace hn := mt hguess_iff.mpr hn
    unfold Covers
    obtain ⟨heq, hr⟩ | ⟨k', n', htag, hn', hr, heq⟩ := noteNamedTag_tags t id
    · simp only [heq, noteNamedTag_desc]
      obtain h | ⟨h, hle⟩ := hcov hn hd hdtag
      · exact h
      obtain ⟨old, hold, hr⟩ := (hr h).resolve_left hn
      rw [hf.tagRichness_eq hid, hf.tagRichness_eq (hs.tagged hold).1] at hr
      exact ⟨old, hold, hle.trans hr⟩
    simp only [heq, noteNamedTag_desc]
    by_cases hkn : k = k' ∧ n = n'
    · obtain ⟨rfl, rfl⟩ := hkn
      refine ⟨id, by simp [setTag], ?_⟩
      obtain ⟨j, hj, hle⟩ | ⟨-, hle⟩ := hcov hn' hd hdtag
      · have hlt := hr j hj
        rw [hf.tagRichness_eq hid, hf.tagRichness_eq (hs.tagged hj).1] at hlt
        exact hle.trans hlt.le
      · exact hle
    · simp only [setTag, hkn]
      obtain h | ⟨h, -⟩ := hcov hn hd hdtag
      · exact h
      · cases htag.symm.trans h
        exact absurd ⟨rfl, rfl⟩ hkn
  · rw [tags_noteNamedTag_of_guessed (hguess_iff.mp hn)]
    exact hg (hguess_iff.mp hn) k

lemma full_noteNamedTag (hf : t.Full) (id : TypeId) : (t.noteNamedTag id).Full where
  laid {j} hj := by
    rw [noteNamedTag_types] at hj
    rw [layoutFields, desc, noteNamedTag_info]
    exact hf.laid hj
  keyed {j} hj := by
    rw [noteNamedTag_types] at hj
    rw [Interned, desc, noteNamedTag_info, noteNamedTag_interned]
    exact hf.keyed hj
  narrower {d j} h := by
    rw [noteNamedTag_interned] at h
    rw [desc, noteNamedTag_info]
    exact hf.narrower h

section Append
variable {t : TypeTable} {desc : TypeDesc} {layout : Layout}

lemma interned_update {t' : TypeTable} {id : TypeId}
    (h : t'.interned = fun d => if d = desc then some id else t.interned d) {d : TypeDesc} :
    t'.Interned d ↔ d = desc ∨ t.Interned d := by
  unfold Interned
  rw [h]
  by_cases hd : d = desc <;> simp [hd]

lemma interned_append {d : TypeDesc} :
    (t.append desc layout).Interned d ↔ d = desc ∨ t.Interned d := interned_update rfl

lemma Full.append (hf : t.Full) (hs : layout.fields.length = desc.fields.length) :
    (t.append desc layout).Full := by
  have hlast {j : TypeId} (hj : j < (t.append desc layout).types.length) :
      j < t.types.length ∨ j = t.types.length := by
    rw [length_append] at hj
    exact Nat.lt_succ_iff_lt_or_eq.mp hj
  refine ⟨fun {j} hj => ?_, fun {j} hj => ?_, fun {d j} h => ?_⟩
  · rcases hlast hj with hlt | rfl
    · rw [layoutFields, TypeTable.desc, info_append_of_lt hlt]
      exact hf.laid hlt
    · rw [layoutFields, TypeTable.desc, info_append_self]
      exact hs
  · rw [interned_append]
    rcases hlast hj with hlt | rfl
    · rw [TypeTable.desc, info_append_of_lt hlt]
      exact .inr (hf.keyed hlt)
    · rw [TypeTable.desc, info_append_self]
      exact .inl rfl
  simp only [TypeTable.append] at h
  split at h
  · cases h
    rw [TypeTable.desc, info_append_self, ‹d = desc›]
  by_cases hlt : j < t.types.length
  · rw [TypeTable.desc, info_append_of_lt hlt]
    exact hf.narrower h
  have hle := hf.narrower h
  rw [TypeTable.desc, info_of_length_le (Nat.le_of_not_lt hlt)] at hle
  exact hle.trans (Nat.zero_le _)

end Append

variable {t' : TypeTable}

lemma Move.full (h : Move t t') (hf : t.Full) : t'.Full := by
  cases h with
  | need | remember key id hid => exact ⟨hf.laid, hf.keyed, hf.narrower⟩
  | push desc layout hs hh hnew hneed => exact full_noteNamedTag (hf.append hs) _
  | complete i field id hid hn =>
    have hext := extends_setFieldType t i field id
    refine ⟨fun {j} hj => ?_, fun {j} hj => ?_, fun {d j} h => ?_⟩
    · rw [length_setFieldType] at hj
      rw [hext.size_eq hj, desc_setFieldType]
      exact hf.laid hj
    · rw [length_setFieldType] at hj
      rw [desc_setFieldType]
      exact hf.keyed hj
    · rw [desc_setFieldType]
      exact hf.narrower h

lemma Move.coveredAt (h : Move t t') (hs : t.Sound) (hf : t.Full) (hn : t.CoveredAt n) :
    t'.CoveredAt n := by
  cases h with
  | need | remember key id hid => exact ⟨hn.covers, hn.guessed⟩
  | complete i field id hid hneeds =>
    refine ⟨fun hg k d hd hdtag => ?_, hn.guessed⟩
    obtain ⟨j, hj, hle⟩ := hn.covers hg hd hdtag
    exact ⟨j, hj, by rw [desc_setFieldType]; exact hle⟩
  | push desc layout hsize hh hnew hneed =>
    have hlast : (t.append desc layout).desc t.types.length = desc := by
      rw [TypeTable.desc, info_append_self]
    refine coveredAt_noteNamedTag (hs.append (fun f hf => (hh f hf).toHolds) hnew)
      (hf.append hsize) (by rw [length_append]; exact Nat.lt_succ_self _) ?_ hn.guessed
    intro hg k d hd hdtag
    rcases interned_append.mp hd with rfl | hd
    · exact .inr ⟨by rw [hlast]; exact hdtag, by rw [hlast]⟩
    · obtain ⟨j, hj, hle⟩ := hn.covers hg hd hdtag
      exact .inl ⟨j, hj, by rw [(extends_append hnew).desc_eq (hs.tagged hj).1]; exact hle⟩

lemma Moves.full (h : Moves t t') (hf : t.Full) : t'.Full := by
  induction h with
  | refl => exact hf
  | tail _ h ih => exact h.full ih

lemma Moves.coveredAt (h : Moves t t') (hs : t.Sound) (hf : t.Full) (hn : t.CoveredAt n) :
    t'.CoveredAt n := by
  induction h with
  | refl => exact hn
  | tail hm h ih => exact h.coveredAt (Moves.sound hm hs) (Moves.full hm hf) ih

section Widening
variable {t : TypeTable} {id : TypeId} {desc : TypeDesc} {layout : Layout}
  {tag : TagKind × Ident} (hid : id < t.types.length) (hold : (t.desc id).tag = some tag)
  (hnew : desc.tag = some tag)

lemma interned_replace {d : TypeDesc} :
    (t.replace id desc layout).Interned d ↔ d = desc ∨ t.Interned d := interned_update rfl

include hid

lemma length_fields_replace (hg : (t.desc id).fields.length ≤ desc.fields.length) (j : TypeId) :
    (t.desc j).fields.length ≤ ((t.replace id desc layout).desc j).fields.length := by
  unfold TypeTable.desc at hg ⊢
  by_cases hj : j = id
  · subst hj
    rw [info_replace_self hid]
    exact hg
  · rw [info_replace_of_ne hj]

lemma Full.replace (hf : t.Full) (hg : (t.desc id).fields.length ≤ desc.fields.length)
    (hs : layout.fields.length = desc.fields.length) : (t.replace id desc layout).Full := by
  refine ⟨fun {j} hj => ?_, fun {j} hj => ?_, fun {d j} h => ?_⟩
  · rw [length_replace] at hj
    by_cases hji : j = id
    · subst hji
      rw [layoutFields, TypeTable.desc, info_replace_self hid]
      exact hs
    · rw [layoutFields, TypeTable.desc, info_replace_of_ne hji]
      exact hf.laid hj
  · rw [length_replace] at hj
    rw [interned_replace]
    by_cases hji : j = id
    · subst hji
      rw [TypeTable.desc, info_replace_self hid]
      exact .inl rfl
    · rw [TypeTable.desc, info_replace_of_ne hji]
      exact .inr (hf.keyed hj)
  · simp only [TypeTable.replace] at h
    split at h
    · cases h
      rw [TypeTable.desc, info_replace_self hid, ‹d = desc›]
    · exact (hf.narrower h).trans (length_fields_replace hid hg j)

include hold hnew

lemma coveredAt_widen (hs : t.Sound) (hf : t.Full) (hh : ∀ f ∈ layout.fields, t.Holds f.typeId)
    (hgrow : (t.desc id).fields.length ≤ desc.fields.length)
    (hsize : layout.fields.length = desc.fields.length) (hn : t.CoveredAt n) :
    (t.widen id desc layout).CoveredAt n := by
  have hself : (t.replace id desc layout).desc id = desc := by
    rw [TypeTable.desc, info_replace_self hid]
  have hnoted : ((t.replace id desc layout).noteNamedTag id).CoveredAt n := by
    refine coveredAt_noteNamedTag (hs.replace hid hold hnew hh) (hf.replace hid hgrow hsize)
      (by rw [length_replace]; exact hid) ?_ hn.guessed
    intro hg k d hd hdtag
    rcases interned_replace.mp hd with rfl | hd
    · exact .inr ⟨by rw [hself]; exact hdtag, by rw [hself]⟩
    · obtain ⟨j, hj, hle⟩ := hn.covers hg hd hdtag
      exact .inl ⟨j, hj, hle.trans (length_fields_replace hid hgrow j)⟩
  exact ⟨hnoted.covers, hnoted.guessed⟩

end Widening

section Declarations
variable {t : TypeTable} {name n : Ident}

lemma Full.declareStruct (hf : t.Full) (name : Ident) : (t.declareStruct name).Full := by
  obtain ⟨tags, untagged, declared, h⟩ := declareStruct_frame t name
  rw [h]
  exact ⟨hf.laid, hf.keyed, hf.narrower⟩

/-- Whether a name is covered depends on its own tags and on the entries. -/
lemma coveredAt_congr (ht : ∀ k, t'.tags k n = t.tags k n) (hinterned : t'.interned = t.interned)
    (hdesc : ∀ id, t'.desc id = t.desc id) (hg : t'.IsGuessed n ↔ t.IsGuessed n) :
    t'.CoveredAt n ↔ t.CoveredAt n := by
  have hcovers (k : TagKind) (d : TypeDesc) : t'.Covers k n d ↔ t.Covers k n d := by
    unfold Covers
    simp [ht, hdesc]
  have hint (d : TypeDesc) : t'.Interned d ↔ t.Interned d := by
    unfold Interned
    rw [hinterned]
  constructor
  · intro h
    exact ⟨fun hn k d hd hdtag => (hcovers k d).mp (h.covers (mt hg.mp hn) ((hint d).mpr hd) hdtag),
      fun hn k => (ht k) ▸ h.guessed (hg.mpr hn) k⟩
  · intro h
    exact ⟨fun hn k d hd hdtag => (hcovers k d).mpr
      (h.covers (mt hg.mpr hn) ((hint d).mp hd) hdtag),
      fun hn k => (ht k).trans (h.guessed (hg.mp hn) k)⟩

lemma coveredAt_declareStruct_of_ne (hs : t.Sound) (hne : n ≠ name) :
    (t.declareStruct name).CoveredAt n ↔ t.CoveredAt n :=
  coveredAt_congr (declareStruct_of_ne hs hne).1 interned_declareStruct desc_declareStruct
    (isGuessed_declareStruct_of_ne hne)

/-- A declaration settles the tags of a guessed name exactly where the richest entry of the name
was withheld. -/
lemma coveredAt_declareStruct_self (hs : t.Sound) (hf : t.Full) (hn : t.CoveredAt name) :
    (t.declareStruct name).CoveredAt name ↔ (t.IsGuessed name → t.WithheldRichest name) := by
  obtain ⟨hdecl, h⟩ | ⟨hdecl, hnone, h⟩ | ⟨hdecl, id, hid, h⟩ := declareStruct_cases t name
  · rw [h]
    exact iff_of_true hn fun hguess => absurd hdecl hguess.2
  · have hnot : ¬ (t.declareStruct name).IsGuessed name := fun hguess =>
      hguess.2 (mem_declaredStructs_declareStruct.mpr (.inl rfl))
    have htags : (t.declareStruct name).tags = t.tags := by rw [h]
    constructor
    · intro hcov hguess k d hd hdtag
      obtain ⟨j, hj, -⟩ :=
        hcov.covers hnot (by rw [Interned, interned_declareStruct]; exact hd) hdtag
      rw [htags, hn.guessed hguess k] at hj
      cases hj
    intro hr
    refine ⟨fun _ k d hd hdtag => ?_, fun hguess => absurd hguess hnot⟩
    rw [Interned, interned_declareStruct] at hd
    by_cases hguess : t.IsGuessed name
    · obtain ⟨j, hj, -⟩ := hr hguess hd hdtag
      rw [hnone] at hj
      cases hj
    · obtain ⟨j, hj, hle⟩ := hn.covers hguess hd hdtag
      exact ⟨j, by rw [htags]; exact hj, by rw [desc_declareStruct]; exact hle⟩
  obtain ⟨hlt, ⟨k', htag⟩, hguess⟩ := hs.withheld hid
  have hnot : ¬ (t.takeWithheld name).IsGuessed name := fun hg => hg.2 mem_cons_self
  constructor
  · intro hcov _ k d hd hdtag
    rw [h] at hcov
    have hnot' : ¬ ((t.takeWithheld name).noteNamedTag id).IsGuessed name :=
      mt (extends_noteNamedTag _ id).isGuessed_iff.mp hnot
    obtain ⟨j, hj, hle⟩ :=
      hcov.covers hnot' (by rw [Interned, noteNamedTag_interned]; exact hd) hdtag
    rw [desc, noteNamedTag_info] at hle
    have hset :
        (t.takeWithheld name).noteNamedTag id = (t.takeWithheld name).setTag k' name id := by
      obtain ⟨hnone, -⟩ | ⟨k₁, n₁, htag₁, hc⟩ := noteNamedTag_cases (t.takeWithheld name) id
      · cases htag.symm.trans hnone
      cases htag.symm.trans htag₁
      obtain ⟨hg, -⟩ | ⟨-, ⟨old, hold, -⟩, -⟩ | ⟨-, -, heq⟩ := hc
      · exact absurd hg hnot
      · cases (hn.guessed hguess k').symm.trans hold
      · exact heq
    rw [hset] at hj
    by_cases hk : k = k'
    · subst hk
      cases (if_pos ⟨rfl, rfl⟩).symm.trans hj
      exact ⟨id, hid, htag, hle⟩
    · cases (hn.guessed hguess k).symm.trans ((if_neg fun h => hk h.1).symm.trans hj)
  · intro hr
    rw [h]
    refine coveredAt_noteNamedTag (hs.takeWithheld name) ⟨hf.laid, hf.keyed, hf.narrower⟩ hlt ?_
      fun hg => absurd hg hnot
    intro _ k d hd hdtag
    obtain ⟨j, hj, hjtag, hle⟩ := hr hguess hd hdtag
    cases hid.symm.trans hj
    exact .inr ⟨hjtag, hle⟩

lemma coveredAt_foldl_declareStruct (hs : t.Sound) (hf : t.Full) (names : List Ident)
    (hn : t.CoveredAt n) : (names.foldl TypeTable.declareStruct t).CoveredAt n ↔
      (n ∈ names → t.IsGuessed n → t.WithheldRichest n) := by
  refine foldl_declareStruct_iff (I := Full) (P := fun t => t.CoveredAt n)
    (Q := fun t => t.IsGuessed n → t.WithheldRichest n) (fun name hf => hf.declareStruct name)
    coveredAt_declareStruct_of_ne (fun {t name} hs hne => ?_)
      coveredAt_declareStruct_self hs hf hn names
  have hrich : (t.declareStruct name).WithheldRichest n ↔ t.WithheldRichest n := by
    unfold WithheldRichest Interned
    rw [(declareStruct_of_ne hs hne).2]
    simp
  rw [isGuessed_declareStruct_of_ne hne, hrich]

lemma Full.foldl_declareStruct (hf : t.Full) (names : List Ident) :
    (names.foldl TypeTable.declareStruct t).Full :=
  foldlRecOn names _ hf fun _ hf name _ => hf.declareStruct name

end Declarations

section Guesses
variable {t : TypeTable} {name n : Ident} (names : List Ident)

/-- A guess of a class withdraws its tag unless the name has one of each kind. -/
lemma coveredAt_noteGuessedClass (hn : t.CoveredAt n) : (t.noteGuessedClass name).CoveredAt n ↔
    (n = name → t.IsGuessed n ∨ n ∈ t.declaredStructs ∨ t.tags .struct n = none ∨
      t.tags .union n = none) := by
  obtain ⟨hmem, h⟩ | ⟨hmem, hkept, h⟩ | ⟨hmem, hdecl, kind, id, hid, hu, h⟩ :=
    noteGuessedClass_cases t name
  · rw [h]
    refine iff_of_true hn fun heq => ?_
    subst heq
    exact or_iff_not_imp_right.mpr fun hnot => ⟨hmem, fun hd => hnot (.inl hd)⟩
  · by_cases hne : n = name
    · subst hne
      rw [h]
      refine iff_of_true ⟨fun hguess => ?_, fun hguess => ?_⟩ fun _ => ?_
      · exact hn.covers fun hg => hguess ⟨mem_cons_of_mem _ hg.1, hg.2⟩
      · exact hkept.resolve_left hguess.2
      · exact .inr (hkept.imp_right fun hnone => .inl (hnone .struct))
    · have hsame : (t.noteGuessedClass name).CoveredAt n ↔ t.CoveredAt n := by
        refine coveredAt_congr (fun _ => by rw [h]) (by rw [h]) (fun _ => by rw [h]; rfl) ?_
        rw [h]
        exact and_congr_left fun _ => mem_cons.trans (or_iff_right hne)
      exact iff_of_true (hsame.mpr hn) fun heq => absurd heq hne
  by_cases hne : n = name
  · subst hne
    have hguess : (t.noteGuessedClass n).IsGuessed n := by
      rw [h]
      exact ⟨mem_cons_self, hdecl⟩
    have htags (k : TagKind) (hk : k ≠ kind) : (t.noteGuessedClass n).tags k n = t.tags k n := by
      rw [h]
      exact if_neg fun hkn => hk hkn.1
    have hwithdrawn : (t.noteGuessedClass n).tags kind n = none := by
      rw [h]
      exact if_pos ⟨rfl, rfl⟩
    constructor
    · intro hcov _
      cases kind with
      | struct => exact .inr (.inr (.inr (htags .union nofun ▸ hcov.guessed hguess .union)))
      | union => exact .inr (.inr (.inl (hu rfl)))
    intro hc
    refine ⟨fun hnot => absurd hguess hnot, fun _ k => ?_⟩
    by_cases hk : k = kind
    · exact hk ▸ hwithdrawn
    rw [htags k hk]
    obtain hg | hd | hnone | hnone := hc rfl
    · exact absurd hg.1 hmem
    · exact absurd hd hdecl
    · cases k with
      | struct => exact hnone
      | union =>
        cases kind with
        | struct => cases hnone.symm.trans hid
        | union => exact absurd rfl hk
    cases k with
    | union => exact hnone
    | struct =>
      cases kind with
      | union => cases hnone.symm.trans hid
      | struct => exact absurd rfl hk
  · have hsame : (t.noteGuessedClass name).CoveredAt n ↔ t.CoveredAt n := by
      refine coveredAt_congr (fun k => ?_) (by rw [h]) (fun _ => by rw [h]; rfl) ?_
      · rw [h]
        exact if_neg fun hkn => hne hkn.2
      · rw [h]
        exact and_congr_left fun _ => mem_cons.trans (or_iff_right hne)
    exact iff_of_true (hsame.mpr hn) fun heq => absurd heq hne

lemma Full.noteGuessedClass (hf : t.Full) (name : Ident) : (t.noteGuessedClass name).Full := by
  obtain ⟨-, h⟩ | ⟨-, -, h⟩ | ⟨-, -, kind, id, -, -, h⟩ := noteGuessedClass_cases t name
  all_goals
    rw [h]
    exact ⟨hf.laid, hf.keyed, hf.narrower⟩

lemma isGuessed_foldl_declareStruct :
    (names.foldl declareStruct t).IsGuessed n ↔ t.IsGuessed n ∧ ¬ n ∈ names := by
  induction names generalizing t with
  | nil => exact (and_iff_left not_mem_nil).symm
  | cons name rest ih =>
    rw [foldl_cons, ih, mem_cons, not_or]
    by_cases hne : n = name
    · subst hne
      refine iff_of_false ?_ fun h => h.2.1 rfl
      exact fun h => h.1.2 (mem_declaredStructs_declareStruct.mpr (.inl rfl))
    · rw [isGuessed_declareStruct_of_ne hne, ← and_assoc, and_iff_left hne]

lemma mem_declaredStructs_foldl :
    n ∈ (names.foldl declareStruct t).declaredStructs ↔ n ∈ names ∨ n ∈ t.declaredStructs := by
  induction names generalizing t with
  | nil => exact (or_iff_right not_mem_nil).symm
  | cons name rest ih =>
    rw [foldl_cons, ih, mem_declaredStructs_declareStruct, mem_cons]
    exact or_left_comm.trans or_assoc.symm

lemma guessedTags_foldl : (names.foldl declareStruct t).guessedTags = t.guessedTags := by
  induction names generalizing t with
  | nil => rfl
  | cons name rest ih => rw [foldl_cons, ih, guessedTags_declareStruct]

lemma tags_foldl_of_notMem (hs : t.Sound) {names : List Ident} (hn : n ∉ names) (k : TagKind) :
    (names.foldl declareStruct t).tags k n = t.tags k n := by
  induction names generalizing t with
  | nil => rfl
  | cons name rest ih =>
    obtain ⟨hne, hr⟩ := ne_and_not_mem_of_not_mem_cons hn
    rw [foldl_cons, ih (hs.declareStruct name) hr]
    exact (declareStruct_of_ne hs hne).1 k

/-- A merge settles the tags of a name that it declares where the richest entry was withheld,
and those of a name that it only guesses where there is no tag. -/
lemma coveredAt_mergeStructDeclarations (hs : t.Sound) (hf : t.Full) {other : TypeTable}
    (hn : t.CoveredAt n) : (t.mergeStructDeclarations other).CoveredAt n ↔
      (n ∈ other.declaredStructs → t.IsGuessed n → t.WithheldRichest n) ∧
        (n ∈ other.guessedTags → ¬ t.IsGuessed n → ¬ n ∈ t.declaredStructs →
          ¬ n ∈ other.declaredStructs → ∀ k, t.tags k n = none) := by
  let u : TypeTable := other.declaredStructs.foldl TypeTable.declareStruct t
  have hcov : u.CoveredAt n ↔ (n ∈ other.declaredStructs → t.IsGuessed n → t.WithheldRichest n) :=
    coveredAt_foldl_declareStruct hs hf other.declaredStructs hn
  have hguess : (t.mergeStructDeclarations other).IsGuessed n ↔
      (n ∈ other.guessedTags ∨ n ∈ t.guessedTags) ∧
        ¬ (n ∈ other.declaredStructs ∨ n ∈ t.declaredStructs) := by
    unfold IsGuessed mergeStructDeclarations
    rw [mem_append, guessedTags_foldl, mem_declaredStructs_foldl]
  by_cases hnew : n ∈ other.guessedTags ∧ ¬ t.IsGuessed n ∧ ¬ n ∈ t.declaredStructs ∧
      ¬ n ∈ other.declaredStructs
  · -- the merge only guesses the name: it becomes a guess without an entry withheld
    obtain ⟨ho, hnot, hd, hd'⟩ := hnew
    have hguessed := hguess.mpr ⟨.inl ho, not_or.mpr ⟨hd', hd⟩⟩
    have htags (k : TagKind) : (t.mergeStructDeclarations other).tags k n = t.tags k n :=
      tags_foldl_of_notMem hs hd' k
    constructor
    · intro h
      exact ⟨fun hmem => absurd hmem hd', fun _ _ _ _ k => htags k ▸ h.guessed hguessed k⟩
    · rintro ⟨-, h⟩
      exact ⟨fun hng => absurd hguessed hng,
        fun _ k => (htags k).trans (h ho hnot hd hd' k)⟩
  · have hsame : (t.mergeStructDeclarations other).IsGuessed n ↔ u.IsGuessed n := by
      refine hguess.trans (Iff.trans ?_ (isGuessed_foldl_declareStruct _).symm)
      unfold IsGuessed at hnew ⊢
      tauto
    have hmerged : (t.mergeStructDeclarations other).CoveredAt n ↔ u.CoveredAt n :=
      coveredAt_congr (fun _ => rfl) rfl (fun _ => rfl) hsame
    rw [hmerged, hcov]
    refine ⟨fun h => ⟨h, fun h₁ h₂ h₃ h₄ => absurd ⟨h₁, h₂, h₃, h₄⟩ hnew⟩, fun h => h.1⟩

end Guesses

end TypeTable

section Steps
variable {t t' : TypeTable} {op : Op}

lemma Op.Yields.full (h : op.Yields t t') (hop : op ≠ .compactForHeaderMerge) (hs : t.Sound)
    (hf : t.Full) : t'.Full := by
  cases h.does with
  | intern hid => exact (interns_intern _ hs hid).1.full hf
  | noteGuessedClass name => exact hf.noteGuessedClass name
  | declareStruct name => exact hf.declareStruct name
  | defineStruct name =>
    have hdeclare := hf.declareStruct name
    unfold TypeTable.defineStruct
    split
    · exact hf
    · exact ⟨hdeclare.laid, hdeclare.keyed, hdeclare.narrower⟩
  | @unionLayout _ _ _ _ id _ hid =>
    obtain hm | ⟨t₁, desc, layout, htag, hm, -, hg, hsize, -, rfl⟩ :=
      unionAggregateLayout_eq_some hs hid
    · exact hm.full hf
    have hlt := (hs.tagged htag).1
    have hreplace : (t₁.replace id desc layout).Full := by
      refine (hm.full hf).replace (hlt.trans_le hm.extends.length_le) ?_ hsize
      rw [hm.extends.desc_eq hlt, ← hf.laid hlt]
      exact hg
    exact (Move.need _).full (full_noteNamedTag hreplace id)
  | mergeStructDeclarations other =>
    have hdeclare := hf.foldl_declareStruct other.declaredStructs
    exact ⟨hdeclare.laid, hdeclare.keyed, hdeclare.narrower⟩
  | completeNestedTags h =>
    obtain rfl | ⟨-, t₁, hm, rfl⟩ := completeNestedTags_eq_some hs h
    · exact hf
    · have hmoved := hm.full hf
      exact ⟨hmoved.laid, hmoved.keyed, hmoved.narrower⟩
  | compactForHeaderMerge => exact absurd rfl hop

/-- One operation keeps the names covered exactly under the condition on the table before it. -/
lemma Op.Yields.coveredAt_iff (h : op.Yields t t') (hop : op ≠ .compactForHeaderMerge)
    (hs : t.Sound) (hf : t.Full) (hcov : ∀ n, t.CoveredAt n) :
    (∀ n, t'.CoveredAt n) ↔ t.KeepsTags op := by
  have hdeclare (name : Ident) : (∀ n, (t.declareStruct name).CoveredAt n) ↔
      (t.IsGuessed name → t.WithheldRichest name) := by
    have hself := coveredAt_declareStruct_self hs hf (hcov name)
    refine ⟨fun h => hself.mp (h name), fun h n => ?_⟩
    by_cases hne : n = name
    · exact hne ▸ hself.mpr h
    · exact (coveredAt_declareStruct_of_ne hs hne).mpr (hcov n)
  cases h.does with
  | intern hid =>
    exact iff_of_true (fun n => (interns_intern _ hs hid).1.coveredAt hs hf (hcov n)) trivial
  | noteGuessedClass name =>
    have hcov' (n : Ident) := @coveredAt_noteGuessedClass t name n (hcov n)
    rw [forall_congr' hcov']
    exact ⟨fun h => h name rfl, fun h n heq => heq ▸ h⟩
  | declareStruct name => exact hdeclare name
  | defineStruct name =>
    by_cases hdef : name ∈ t.definedStructs
    · rw [show t.defineStruct name = t from if_pos hdef]
      exact iff_of_true hcov (.inl hdef)
    have hdefine (n : Ident) :
        (t.defineStruct name).CoveredAt n ↔ (t.declareStruct name).CoveredAt n := by
      rw [TypeTable.defineStruct, if_neg hdef]
      exact coveredAt_congr (fun _ => rfl) rfl (fun _ => rfl) Iff.rfl
    rw [forall_congr' hdefine]
    exact (hdeclare name).trans (or_iff_right hdef).symm
  | unionLayout hid =>
    refine iff_of_true (fun n => ?_) trivial
    obtain hm | ⟨t₁, desc, layout, htag, hm, hd, hg, hsize, hfields, rfl⟩ :=
      unionAggregateLayout_eq_some hs hid
    · exact hm.coveredAt hs hf (hcov n)
    obtain ⟨hlt, hold⟩ := hs.tagged htag
    refine coveredAt_widen (hlt.trans_le hm.extends.length_le) ?_ hd (hm.sound hs)
      (hm.full hf) (fun f hf => (hfields f hf).toHolds) ?_ hsize (hm.coveredAt hs hf (hcov n))
    · rw [hm.extends.desc_eq hlt, hold]
    · rw [hm.extends.desc_eq hlt, ← hf.laid hlt]
      exact hg
  | mergeStructDeclarations other =>
    have hcov' (n : Ident) := @coveredAt_mergeStructDeclarations t n hs hf other (hcov n)
    rw [forall_congr' hcov']
    exact forall_and
  | completeNestedTags h =>
    refine iff_of_true (fun n => ?_) trivial
    obtain rfl | ⟨-, t₁, hm, rfl⟩ := completeNestedTags_eq_some hs h
    · exact hcov n
    · have hmoved := hm.coveredAt hs hf (hcov n)
      exact ⟨hmoved.covers, hmoved.guessed⟩
  | compactForHeaderMerge => exact absurd rfl hop

end Steps

lemma full_new : TypeTable.new.Sound ∧ TypeTable.new.Full ∧ ∀ n, TypeTable.new.CoveredAt n := by
  refine new_of_interning (P := fun t => t.Full ∧ ∀ n, t.CoveredAt n) ?_ ?_
  · refine ⟨⟨?_, ?_, ?_⟩, fun n => ⟨?_, ?_⟩⟩
    · exact fun h => absurd h (Nat.not_lt_zero _)
    · exact fun h => absurd h (Nat.not_lt_zero _)
    · exact fun h => by cases h
    · exact fun _ {k d} h => by cases h
    · exact fun h => by cases h.1
  · rintro kind t id t' hs ⟨hf, hcov⟩ h
    have hmoves := (interns_intern 1 hs h).1
    exact ⟨hmoves.full hf, fun n => hmoves.coveredAt hs hf (hcov n)⟩

/-- The tags stay settled throughout exactly those runs in which each operation meets its
condition. -/
theorem tagsSettled_throughout_iff (ops : List Op) (hops : .compactForHeaderMerge ∉ ops) :
    Throughout Op.Yields TagsSettled ops .new ↔ EachStep Op.Yields KeepsTags ops .new := by
  have hsettled {t : TypeTable} (hs : t.Sound) (hf : t.Full) :
      t.TagsSettled ↔ ∀ n, t.CoveredAt n := forall_congr' fun n => settledAt_iff hs hf
  obtain ⟨hs, hf, hcov⟩ := full_new
  refine throughout_iff (I := fun t => t.Sound ∧ t.Full)
    (A := fun op => op ≠ .compactForHeaderMerge) ?_ ?_ ?_ ⟨hs, hf⟩ ((hsettled hs hf).mpr hcov)
  · exact fun hop hI h => ⟨h.sound hI.1, h.full hop hI.1 hI.2⟩
  · intro op t t' hop hI hQ h
    rw [hsettled (h.sound hI.1) (h.full hop hI.1 hI.2)]
    exact h.coveredAt_iff hop hI.1 hI.2 ((hsettled hI.1 hI.2).mp hQ)
  · exact fun op hmem heq => hops (heq ▸ hmem)

/-- A class that is declared before it is guessed keeps its tag. -/
theorem tagsSettled_of_declared_first : Throughout Op.Yields TagsSettled
    [.declareStruct ['N'], .intern (.struct ['N'] []), .noteGuessedClass ['N']] .new := by
  refine (tagsSettled_throughout_iff _ ?_).mpr ?_
  · rintro (_ | ⟨_, _ | ⟨_, _ | ⟨_, ⟨⟩⟩⟩⟩)
  rintro t₁ ⟨fuel₁, h₁⟩
  obtain rfl : t₁ = TypeTable.new.declareStruct ['N'] := modify_eq_some h₁
  refine ⟨fun hguess => absurd hguess.1 (by decide +kernel), fun t₂ h₂ => ⟨trivial, fun t₃ _ => ?_⟩⟩
  obtain ⟨fuel₂, h₂⟩ := h₂
  obtain ⟨id, hid⟩ := discard_eq_some h₂
  have hmoves := (interns_intern fuel₂ (full_new.1.declareStruct ['N']) hid).1
  refine ⟨.inr (.inl ?_), trivial⟩
  rw [hmoves.extends.declared]
  exact mem_declaredStructs_declareStruct.mpr (.inl rfl)

/-- A guess that comes with a merge after the class was spelled leaves the tag registered. -/
theorem tags_of_merged_guess : ¬ Throughout Op.Yields TagsSettled
    [.intern (.struct ['N'] []), .mergeStructDeclarations { guessedTags := [['N']] }] .new := by
  rintro ⟨-, h⟩
  have hsome : (intern 1 (.struct ['N'] []) .new).isSome = true := by decide +kernel
  obtain ⟨⟨id, t₁⟩, hid⟩ := Option.isSome_iff_exists.mp hsome
  have htag : (intern 1 (.struct ['N'] []) .new).map (fun r => (r.2.tags .struct ['N']).isSome &&
      !r.2.declaredStructs.contains ['N']) = some true := by decide +kernel
  rw [hid, Option.map_some, Option.some.injEq, Bool.and_eq_true] at htag
  have hyields : Op.Yields (.intern (.struct ['N'] [])) .new t₁ := ⟨1, discard_of_eq hid⟩
  have hdecl : ¬ ['N'] ∈ t₁.declaredStructs := by simpa using htag.2
  have hmerged := (h t₁ hyields).2 _ ⟨0, rfl⟩ ['N']
  have hnone : t₁.tags .struct ['N'] = none :=
    hmerged.guessed ⟨mem_cons_self, hdecl⟩ .struct
  rw [hnone] at htag
  exact absurd htag.1 nofun

end Pathologist.Types

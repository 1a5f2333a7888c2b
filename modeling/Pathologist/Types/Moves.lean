import Mathlib.Data.List.GetD
import Pathologist.Lib.Stateful
import Pathologist.Types.Table

/-!
# What interning does to a table

A run of `intern` is a sequence of moves: the need for completion is noted, an answer is
remembered, an entry is pushed. Each move keeps the table sound, keeps the entries there are,
and pushes an entry only with fields that the table holds. The rest of the development argues
about the moves and not about the recursion.
-/
open List
namespace Pathologist.Types

namespace TypeTable

/-- An entry of the table; a pointer is interned under one entry only. -/
structure Holds (t : TypeTable) (id : TypeId) : Prop where
  lt : id < t.types.length
  ptr : ∀ {x}, t.desc id = .ptr x → t.interned (.ptr x) = some id

/-- What interning returns: an entry that the completion walk will look at if it has a tag. -/
structure Answers (t : TypeTable) (id : TypeId) : Prop extends t.Holds id where
  needs : (t.desc id).hasNamedTag = true → t.needsTagCompletion = true

structure Sound (t : TypeTable) : Prop where
  tagged : ∀ {k n id}, t.tags k n = some id → id < t.types.length ∧ (t.desc id).tag = some (k, n)
  withheld : ∀ {n id}, t.untagged n = some id →
    id < t.types.length ∧ (∃ k, (t.desc id).tag = some (k, n)) ∧ t.IsGuessed n
  entry : ∀ {d id}, t.interned d = some id → id < t.types.length ∧ d.Resembles (t.desc id)
  cached : ∀ {key answer}, t.canonical key = some answer → t.Holds answer.id
  fields : ∀ {i f}, f ∈ t.layoutFields i → t.Holds f.typeId

/-- The entries stay, and with them what is known about pointers, guesses and the need. -/
structure Extends (t t' : TypeTable) : Prop where
  length_le : t.types.length ≤ t'.types.length
  desc_eq : ∀ {id}, id < t.types.length → t'.desc id = t.desc id
  size_eq : ∀ {id}, id < t.types.length → (t'.layoutFields id).length = (t.layoutFields id).length
  ptr_eq : ∀ {x id}, t.interned (.ptr x) = some id → t'.interned (.ptr x) = some id
  needs : t.needsTagCompletion = true → t'.needsTagCompletion = true
  guessed : t'.guessedTags = t.guessedTags
  declared : t'.declaredStructs = t.declaredStructs

namespace Extends

lemma refl (t : TypeTable) : Extends t t :=
  ⟨le_rfl, fun _ => rfl, fun _ => rfl, fun h => h, fun h => h, rfl, rfl⟩

lemma trans {t₁ t₂ t₃ : TypeTable} (h : Extends t₁ t₂) (h' : Extends t₂ t₃) : Extends t₁ t₃ where
  length_le := h.length_le.trans h'.length_le
  desc_eq hid := (h'.desc_eq (hid.trans_le h.length_le)).trans (h.desc_eq hid)
  size_eq hid := (h'.size_eq (hid.trans_le h.length_le)).trans (h.size_eq hid)
  ptr_eq hx := h'.ptr_eq (h.ptr_eq hx)
  needs hn := h'.needs (h.needs hn)
  guessed := h'.guessed.trans h.guessed
  declared := h'.declared.trans h.declared

variable {t t' : TypeTable} (h : Extends t t')
include h

lemma isGuessed_iff {n : Ident} : t'.IsGuessed n ↔ t.IsGuessed n := by
  unfold IsGuessed
  rw [h.guessed, h.declared]

lemma holds {id : TypeId} (hid : t.Holds id) : t'.Holds id where
  lt := hid.lt.trans_le h.length_le
  ptr hx := h.ptr_eq (hid.ptr (h.desc_eq hid.lt ▸ hx))

lemma answers {id : TypeId} (hid : t.Answers id) : t'.Answers id where
  toHolds := h.holds hid.toHolds
  needs hn := h.needs (hid.needs (h.desc_eq hid.lt ▸ hn))

end Extends

variable {id : TypeId} {t : TypeTable}

lemma Sound.holds_of_tag (hs : t.Sound) {k : TagKind} {n : Ident} (h : t.tags k n = some id) :
    t.Holds id where
  lt := (hs.tagged h).1
  ptr hx := absurd hx (TypeDesc.not_ptr_of_tag (hs.tagged h).2)

section Frames
variable (t : TypeTable) (id : TypeId)

lemma noteNamedTag_cases :
    ((t.desc id).tag = none ∧ t.noteNamedTag id = t) ∨
    ∃ k n, (t.desc id).tag = some (k, n) ∧ ((t.IsGuessed n ∧ t.noteNamedTag id = { t with
          untagged := fun m => if m = n then some ((t.untagged n).getD id) else t.untagged m }) ∨
        (¬ t.IsGuessed n ∧ (∃ old, t.tags k n = some old ∧
          tagRichness (t.info id) ≤ tagRichness (t.info old)) ∧ t.noteNamedTag id = t) ∨
        (¬ t.IsGuessed n ∧ (∀ old, t.tags k n = some old →
          tagRichness (t.info old) < tagRichness (t.info id)) ∧
          t.noteNamedTag id = t.setTag k n id)) := by
  unfold noteNamedTag
  cases htag : (t.desc id).tag with
  | none => exact .inl ⟨rfl, rfl⟩
  | some tag =>
    obtain ⟨k, n⟩ := tag
    refine .inr ⟨k, n, rfl, ?_⟩
    by_cases hg : t.IsGuessed n
    · exact .inl ⟨hg, by simp [hg]⟩
    simp only [hg, typeIdByTag]
    cases hold : t.tags k n with
    | none => exact .inr (.inr ⟨not_false, nofun, rfl⟩)
    | some old =>
      by_cases hr : tagRichness (t.info id) ≤ tagRichness (t.info old)
      · exact .inr (.inl ⟨not_false, ⟨old, rfl, hr⟩, by simp [hr]⟩)
      · refine .inr (.inr ⟨not_false, fun _ h => ?_, by simp [hr]⟩)
        exact Option.some.inj h ▸ Nat.lt_of_not_le hr

/-- Only the tags and what is withheld from them may change. -/
lemma noteNamedTag_frame : ∃ tags untagged,
    t.noteNamedTag id = { t with tags := tags, untagged := untagged } := by
  obtain ⟨-, h⟩ | ⟨k, n, -, ⟨-, h⟩ | ⟨-, -, h⟩ | ⟨-, -, h⟩⟩ := noteNamedTag_cases t id
  all_goals exact ⟨_, _, h⟩

@[simp] lemma noteNamedTag_types : (t.noteNamedTag id).types = t.types := by
  obtain ⟨_, _, h⟩ := noteNamedTag_frame t id
  rw [h]

@[simp] lemma noteNamedTag_interned : (t.noteNamedTag id).interned = t.interned := by
  obtain ⟨_, _, h⟩ := noteNamedTag_frame t id
  rw [h]

@[simp] lemma noteNamedTag_canonical : (t.noteNamedTag id).canonical = t.canonical := by
  obtain ⟨_, _, h⟩ := noteNamedTag_frame t id
  rw [h]

@[simp] lemma noteNamedTag_guessedTags : (t.noteNamedTag id).guessedTags = t.guessedTags := by
  obtain ⟨_, _, h⟩ := noteNamedTag_frame t id
  rw [h]

@[simp] lemma noteNamedTag_declaredStructs :
    (t.noteNamedTag id).declaredStructs = t.declaredStructs := by
  obtain ⟨_, _, h⟩ := noteNamedTag_frame t id
  rw [h]

@[simp] lemma noteNamedTag_needsTagCompletion :
    (t.noteNamedTag id).needsTagCompletion = t.needsTagCompletion := by
  obtain ⟨_, _, h⟩ := noteNamedTag_frame t id
  rw [h]

lemma info_of_types {t t' : TypeTable} (h : t'.types = t.types) (j : TypeId) :
    t'.info j = t.info j :=
  congrArg (List.getD · j default) h

@[simp] lemma noteNamedTag_info (j : TypeId) : (t.noteNamedTag id).info j = t.info j :=
  info_of_types (noteNamedTag_types t id) j

@[simp] lemma noteNamedTag_desc (j : TypeId) : (t.noteNamedTag id).desc j = t.desc j :=
  congrArg TypeInfo.desc (noteNamedTag_info t id j)

/-- The tags are as they were if there is one as rich, or the entry's is set. -/
lemma noteNamedTag_tags : (t.noteNamedTag id).tags = t.tags ∧
      (∀ {k n}, (t.desc id).tag = some (k, n) → t.IsGuessed n ∨ ∃ old, t.tags k n = some old ∧
        tagRichness (t.info id) ≤ tagRichness (t.info old)) ∨
    ∃ k n, (t.desc id).tag = some (k, n) ∧ ¬ t.IsGuessed n ∧
      (∀ old, t.tags k n = some old → tagRichness (t.info old) < tagRichness (t.info id)) ∧
      (t.noteNamedTag id).tags = (t.setTag k n id).tags := by
  obtain ⟨hnone, heq⟩ | ⟨k, n, htag, ⟨hn, heq⟩ | ⟨-, hold, heq⟩ | ⟨hn, hr, heq⟩⟩ :=
    noteNamedTag_cases t id
  · exact .inl ⟨by rw [heq], fun h => nomatch hnone.symm.trans h⟩
  · refine .inl ⟨by rw [heq], fun h => ?_⟩
    cases htag.symm.trans h
    exact .inl hn
  · refine .inl ⟨by rw [heq], fun h => ?_⟩
    cases htag.symm.trans h
    exact .inr hold
  · exact .inr ⟨k, n, htag, hn, hr, by rw [heq]⟩

variable {t id} {k : TagKind} {n : Ident} {j : TypeId}

lemma tags_noteNamedTag (h : (t.noteNamedTag id).tags k n = some j) :
    t.tags k n = some j ∨ j = id ∧ (t.desc id).tag = some (k, n) ∧ ¬ t.IsGuessed n ∧
      ∀ old, t.tags k n = some old → tagRichness (t.info old) < tagRichness (t.info id) := by
  obtain ⟨heq, -⟩ | ⟨k', n', htag, hn', hr, heq⟩ := noteNamedTag_tags t id
  · exact .inl (heq ▸ h)
  rw [heq] at h
  simp only [setTag] at h
  split at h
  · obtain ⟨rfl, rfl⟩ := ‹k = k' ∧ n = n'›
    exact .inr ⟨(Option.some.inj h).symm, htag, hn', hr⟩
  · exact .inl h

lemma tags_noteNamedTag_of_guessed (hn : t.IsGuessed n) :
    (t.noteNamedTag id).tags k n = t.tags k n := by
  obtain ⟨heq, -⟩ | ⟨k', n', -, hn', -, heq⟩ := noteNamedTag_tags t id
  · rw [heq]
  · have hne : ¬ (k = k' ∧ n = n') := fun h => hn' (h.2 ▸ hn)
    rw [heq]
    simp [setTag, hne]

lemma untagged_noteNamedTag (h : (t.noteNamedTag id).untagged n = some j) :
    t.untagged n = some j ∨ j = id ∧ (∃ k, (t.desc id).tag = some (k, n)) ∧ t.IsGuessed n := by
  obtain ⟨-, heq⟩ | ⟨k, n', htag, ⟨hn', heq⟩ | ⟨-, -, heq⟩ | ⟨-, -, heq⟩⟩ := noteNamedTag_cases t id
  · exact .inl (heq ▸ h)
  · rw [heq] at h
    dsimp only at h
    split at h
    · subst n
      cases hold : t.untagged n' with
      | none =>
        rw [hold] at h
        exact .inr ⟨(Option.some.inj h).symm, ⟨k, htag⟩, hn'⟩
      | some old =>
        rw [hold] at h
        exact .inl h
    · exact .inl h
  · exact .inl (heq ▸ h)
  · rw [heq] at h
    exact .inl h

end Frames

section Entries
variable {t : TypeTable} {desc : TypeDesc} {layout : Layout}

lemma info_append_of_lt (h : id < t.types.length) : (t.append desc layout).info id = t.info id := by
  simp only [info, append, getD_append _ _ _ _ h]

@[simp] lemma info_append_self : (t.append desc layout).info t.types.length = ⟨desc, layout⟩ := by
  simp [info, append]

@[simp] lemma length_append : (t.append desc layout).types.length = t.types.length + 1 := by
  simp [append]

lemma info_of_length_le (h : t.types.length ≤ id) : t.info id = default :=
  getD_eq_default _ _ h

lemma mem_layoutFields_append {i : ℕ} {f} (h : f ∈ (t.append desc layout).layoutFields i) :
    f ∈ t.layoutFields i ∨ f ∈ layout.fields := by
  unfold layoutFields at h ⊢
  rcases lt_trichotomy i t.types.length with hlt | rfl | hlt
  · exact .inl (info_append_of_lt hlt ▸ h)
  · rw [info_append_self] at h
    exact .inr h
  · rw [info_of_length_le (by rw [length_append]; exact hlt)] at h
    cases h

lemma extends_append (hnew : ∀ {x}, desc = .ptr x → t.interned desc = none) :
    Extends t (t.append desc layout) where
  length_le := by rw [length_append]; exact Nat.le_succ _
  desc_eq hid := congrArg TypeInfo.desc (info_append_of_lt hid)
  size_eq hid := congrArg (·.layout.fields.length) (info_append_of_lt hid)
  ptr_eq {x id} hx := by
    have hne : (.ptr x : TypeDesc) ≠ desc := by
      rintro rfl
      rw [hnew rfl] at hx
      cases hx
    simp [append, hne, hx]
  needs h := h
  guessed := rfl
  declared := rfl

lemma extends_noteNamedTag (t : TypeTable) (id : TypeId) : Extends t (t.noteNamedTag id) where
  length_le := by rw [noteNamedTag_types]
  desc_eq _ := congrArg TypeInfo.desc (noteNamedTag_info t id _)
  size_eq _ := congrArg (·.layout.fields.length) (noteNamedTag_info t id _)
  ptr_eq h := by rw [noteNamedTag_interned]; exact h
  needs h := by rw [noteNamedTag_needsTagCompletion]; exact h
  guessed := noteNamedTag_guessedTags t id
  declared := noteNamedTag_declaredStructs t id

end Entries

section FieldTypes
variable (t : TypeTable) (i field : ℕ) (id : TypeId)

lemma info_setFieldType (j : TypeId) : (t.setFieldType i field id).info j =
    if i = j ∧ j < t.types.length then
      { t.info j with layout := { (t.info j).layout with
        fields := (t.layoutFields j).modify field fun f => { f with typeId := id } } }
    else t.info j := by
  unfold info setFieldType layoutFields info
  simp only [getD_eq_getElem?_getD, getElem?_modify]
  by_cases hlt : j < t.types.length
  · by_cases hij : i = j
    · simp [hlt]
    · simp [hij]
  · simp [hlt]

@[simp] lemma desc_setFieldType (j : TypeId) : (t.setFieldType i field id).desc j = t.desc j := by
  rw [desc, info_setFieldType]
  split <;> rfl

lemma layoutFields_setFieldType (j : TypeId) : (t.setFieldType i field id).layoutFields j =
    if i = j ∧ j < t.types.length then
      (t.layoutFields j).modify field fun f => { f with typeId := id }
    else t.layoutFields j := by
  rw [layoutFields, info_setFieldType]
  split <;> rfl

@[simp] lemma length_setFieldType : (t.setFieldType i field id).types.length = t.types.length := by
  simp [setFieldType]

lemma mem_layoutFields_setFieldType {j : TypeId} {f}
    (h : f ∈ (t.setFieldType i field id).layoutFields j) :
    f ∈ t.layoutFields j ∨ f.typeId = id := by
  rw [layoutFields_setFieldType] at h
  split at h
  · obtain ⟨m, hm⟩ := mem_iff_getElem?.mp h
    rw [getElem?_modify] at hm
    obtain ⟨g, hg, rfl⟩ := Option.map_eq_some_iff.mp hm
    split
    · exact .inr rfl
    · exact .inl (mem_of_getElem? hg)
  · exact .inl h

lemma extends_setFieldType : Extends t (t.setFieldType i field id) where
  length_le := by rw [length_setFieldType]
  desc_eq _ := desc_setFieldType t i field id _
  size_eq _ := by
    rw [layoutFields_setFieldType]
    split
    · rw [length_modify]
    · rfl
  ptr_eq h := h
  needs h := h
  guessed := rfl
  declared := rfl

end FieldTypes

namespace Sound
variable {t : TypeTable} (hs : t.Sound)
include hs

lemma noteNamedTag (hid : id < t.types.length) : (t.noteNamedTag id).Sound := by
  have hext := extends_noteNamedTag t id
  refine ⟨?_, ?_, ?_, ?_, ?_⟩
  · intro k n j h
    rw [noteNamedTag_types, noteNamedTag_desc]
    obtain h | ⟨rfl, htag, -⟩ := tags_noteNamedTag h
    · exact hs.tagged h
    · exact ⟨hid, htag⟩
  · intro n j h
    rw [noteNamedTag_types, noteNamedTag_desc, hext.isGuessed_iff]
    obtain h | ⟨rfl, hw⟩ := untagged_noteNamedTag h
    · exact hs.withheld h
    · exact ⟨hid, hw⟩
  · intro d j h
    rw [noteNamedTag_types, noteNamedTag_desc]
    exact hs.entry (noteNamedTag_interned t id ▸ h)
  · intro key answer h
    exact hext.holds (hs.cached (noteNamedTag_canonical t id ▸ h))
  intro i f h
  unfold layoutFields at h
  rw [noteNamedTag_info] at h
  exact hext.holds (hs.fields h)

lemma append {desc : TypeDesc} {layout : Layout} (hh : ∀ f ∈ layout.fields, t.Holds f.typeId)
    (hnew : ∀ {x}, desc = .ptr x → t.interned desc = none) : (t.append desc layout).Sound := by
  have hext : Extends t (t.append desc layout) := extends_append hnew
  refine ⟨?_, ?_, ?_, ?_, ?_⟩
  · intro k n j h
    obtain ⟨hlt, htag⟩ := hs.tagged h
    exact ⟨hlt.trans_le hext.length_le, by rw [hext.desc_eq hlt, htag]⟩
  · intro n j h
    obtain ⟨hlt, ⟨k, htag⟩, hn⟩ := hs.withheld h
    exact ⟨hlt.trans_le hext.length_le, ⟨k, by rw [hext.desc_eq hlt, htag]⟩, hn⟩
  · intro d j h
    simp only [TypeTable.append] at h
    split at h
    · cases h
      refine ⟨by rw [length_append]; exact Nat.lt_succ_self _, ?_⟩
      rw [TypeTable.desc, info_append_self, ‹d = desc›]
      exact .refl _
    · obtain ⟨hlt, hd⟩ := hs.entry h
      exact ⟨hlt.trans_le hext.length_le, by rw [hext.desc_eq hlt]; exact hd⟩
  · exact fun h => hext.holds (hs.cached h)
  intro i f h
  rcases mem_layoutFields_append h with h | h
  · exact hext.holds (hs.fields h)
  · exact hext.holds (hh f h)

lemma setFieldType (i field : ℕ) (hid : t.Holds id) : (t.setFieldType i field id).Sound := by
  have hext := extends_setFieldType t i field id
  refine ⟨fun h => ?_, fun h => ?_, fun h => ?_, fun h => hext.holds (hs.cached h), fun h => ?_⟩
  · rw [length_setFieldType, desc_setFieldType]
    exact hs.tagged h
  · rw [length_setFieldType, desc_setFieldType]
    exact hs.withheld h
  · rw [length_setFieldType, desc_setFieldType]
    exact hs.entry h
  · rcases mem_layoutFields_setFieldType t i field id h with h | h
    · exact hext.holds (hs.fields h)
    · exact hext.holds (h ▸ hid)

end Sound

inductive Move : TypeTable → TypeTable → Prop
  | need (t : TypeTable) : Move t t.setNeedsTagCompletion
  | remember (t : TypeTable) (key : TypeDesc) (id : TypeId) (hid : t.Holds id) :
    Move t (t.rememberCanonical key id)
  | push (t : TypeTable) (desc : TypeDesc) (layout : Layout)
    (hsize : layout.fields.length = desc.fields.length)
    (hheld : ∀ f ∈ layout.fields, t.Answers f.typeId)
    (hnew : ∀ {x}, desc = .ptr x → t.interned desc = none)
    (hneed : desc.hasNamedTag = true → t.needsTagCompletion = true) : Move t (t.push desc layout)
  | complete (t : TypeTable) (i field : ℕ) (id : TypeId) (hid : t.Holds id)
    (hneeds : t.needsTagCompletion = true) : Move t (t.setFieldType i field id)

def Moves : TypeTable → TypeTable → Prop := Relation.ReflTransGen Move

variable {t' : TypeTable}

lemma Move.moves (h : Move t t') : Moves t t' := Relation.ReflTransGen.single h

lemma Move.extends (h : Move t t') : Extends t t' := by
  cases h with
  | need => exact ⟨le_rfl, fun _ => rfl, fun _ => rfl, fun h => h, fun _ => rfl, rfl, rfl⟩
  | remember key id hid =>
    exact ⟨le_rfl, fun _ => rfl, fun _ => rfl, fun h => h, fun h => h, rfl, rfl⟩
  | complete i field id hid hn => exact extends_setFieldType t i field id
  | push desc layout hsize hh hnew hneed =>
    exact (extends_append hnew).trans (extends_noteNamedTag _ _)

lemma Move.sound (h : Move t t') (hs : t.Sound) : t'.Sound := by
  have hext := h.extends
  cases h with
  | need =>
    exact ⟨hs.tagged, hs.withheld, hs.entry, fun h => hext.holds (hs.cached h),
      fun h => hext.holds (hs.fields h)⟩
  | remember key id hid =>
    refine ⟨hs.tagged, hs.withheld, hs.entry, ?_, fun h => hext.holds (hs.fields h)⟩
    intro key' answer h
    simp only [rememberCanonical] at h
    split at h
    · cases h
      exact hext.holds hid
    · exact hext.holds (hs.cached h)
  | complete i field id hid hn => exact hs.setFieldType i field hid
  | push desc layout hsize hh hnew hneed =>
    refine (hs.append (fun f hf => (hh f hf).toHolds) hnew).noteNamedTag ?_
    rw [length_append]
    exact Nat.lt_succ_self _

lemma Moves.extends (h : Moves t t') : Extends t t' := by
  induction h with
  | refl => exact .refl t
  | tail _ h ih => exact ih.trans h.extends

lemma Moves.sound (h : Moves t t') (hs : t.Sound) : t'.Sound := by
  induction h with
  | refl => exact hs
  | tail _ h ih => exact h.sound ih

end TypeTable

open TypeTable Lib.Stateful

/-- A way to intern that makes moves only and answers with an entry. -/
def Interns (intern : TypeDesc → TableM TypeId) : Prop :=
  ∀ {d t id t'}, t.Sound → intern d t = some (id, t') → Moves t t' ∧ t'.Answers id

section Layouts
variable {intern : TypeDesc → TableM TypeId}

mutual
lemma moves_computeLayout (hintern : Interns intern) :
    ∀ (d : TypeDesc) {t t' : TypeTable} {layout : Layout}, t.Sound →
    computeLayout intern d t = some (layout, t') → Moves t t' ∧
      layout.fields.length = d.fields.length ∧ ∀ f ∈ layout.fields, t'.Answers f.typeId
  | .scalar kind, t, t', layout, hs, h => by
    cases pure_eq_some.mp h
    have hnil : kind.layout.fields = [] := by cases kind <;> rfl
    rw [hnil]
    exact ⟨.refl, rfl, nofun⟩
  | .ptr _, t, t', layout, hs, h | .fnPtr _ _, t, t', layout, hs, h => by
    cases pure_eq_some.mp h
    exact ⟨.refl, rfl, nofun⟩
  | .array elem size, t, t', layout, hs, h => by
    obtain ⟨inner, t₁, hinner, hpure⟩ := bind_eq_some.mp h
    cases pure_eq_some.mp hpure
    exact ⟨(moves_computeLayout hintern elem hs hinner).1, rfl, nofun⟩
  | .struct _ fields, t, t', layout, hs, h | .union _ fields, t, t', layout, hs, h => by
    obtain ⟨p, t₁, hp, hpure⟩ := bind_eq_some.mp h
    cases pure_eq_some.mp hpure
    obtain ⟨hm, hlen, hf⟩ := moves_placeFields hintern fields (p := {}) hs nofun hp
    exact ⟨hm, hlen.trans (Nat.zero_add _), hf⟩
lemma moves_placeFields (hintern : Interns intern) :
    ∀ (fields : List (Ident × TypeDesc)) {t t' : TypeTable}
    {p p' : Placement}, t.Sound → (∀ f ∈ p.fields, t.Answers f.typeId) →
    placeFields intern fields p t = some (p', t') → Moves t t' ∧
      p'.fields.length = p.fields.length + fields.length ∧ ∀ f ∈ p'.fields, t'.Answers f.typeId
  | [], t, t', p, p', hs, hp, h => by
    cases pure_eq_some.mp h
    exact ⟨.refl, rfl, hp⟩
  | (name, d) :: rest, t, t', p, p', hs, hp, h => by
    obtain ⟨id, t₁, hid, h⟩ := bind_eq_some.mp h
    obtain ⟨inner, t₂, hinner, h⟩ := bind_eq_some.mp h
    obtain ⟨hmov₁, ha⟩ := hintern hs hid
    obtain ⟨hmov₂, -⟩ := moves_computeLayout hintern d (hmov₁.sound hs) hinner
    have hmoves : Moves t t₂ := hmov₁.trans hmov₂
    have hplaced : ∀ f ∈ (p.place name id inner).fields, t₂.Answers f.typeId := by
      intro f hf
      rcases mem_append.mp hf with hf | hf
      · exact hmoves.extends.answers (hp f hf)
      · obtain rfl := mem_singleton.mp hf
        exact hmov₂.extends.answers ha
    obtain ⟨hmov₃, hlen, hfields⟩ := moves_placeFields hintern rest (hmoves.sound hs) hplaced h
    refine ⟨hmoves.trans hmov₃, hlen.trans ?_, hfields⟩
    simp only [Placement.place, List.length_append, List.length_cons, List.length_nil]
    omega
end

end Layouts

section Interning
variable {t t' : TypeTable} {d : TypeDesc} {r : Option TypeId}

lemma noteNeed_eq_some {named : Bool} {u : Unit} (h : noteNeed named t = some (u, t')) :
    t' = if named then t.setNeedsTagCompletion else t := (Prod.mk.inj (Option.some.inj h)).2.symm

/-- A note of the need is a move, after which the need is noted if it was to be. -/
lemma moves_noteNeed {named : Bool} {u : Unit} (h : noteNeed named t = some (u, t')) :
    Moves t t' ∧ (named = true → t'.needsTagCompletion = true) := by
  obtain rfl := noteNeed_eq_some h
  cases named with
  | false => exact ⟨.refl, nofun⟩
  | true => exact ⟨(Move.need t).moves, fun _ => rfl⟩

lemma internedAsIs_eq_some (h : internedAsIs d t = some (r, t')) :
    (r = none ∧ t' = t ∧ (d.canonicalizeMayRewrite = false → t.interned d = none)) ∨
    ∃ id, r = some id ∧ d.canonicalizeMayRewrite = false ∧ t.interned d = some id ∧
      noteNeed d.hasNamedTag t = some ((), t') := by
  unfold internedAsIs at h
  cases hr : d.canonicalizeMayRewrite with
  | true =>
    simp only [hr] at h
    cases pure_eq_some.mp h
    exact .inl ⟨rfl, rfl, nofun⟩
  | false =>
    simp only [hr, Bool.false_eq_true, if_false] at h
    rw [get_bind] at h
    cases hd : t.interned d with
    | none =>
      rw [hd] at h
      cases pure_eq_some.mp h
      exact .inl ⟨rfl, rfl, fun _ => rfl⟩
    | some id =>
      rw [hd] at h
      obtain ⟨⟨⟩, t₁, hn, h⟩ := bind_eq_some.mp h
      cases pure_eq_some.mp h
      exact .inr ⟨id, rfl, rfl, rfl, hn⟩

lemma internedAsTag_eq_some (h : internedAsTag d t = some (r, t')) :
    (r = none ∧ t' = t ∧ t.lookupTagRef d = none) ∨
    ∃ id, r = some id ∧ t.lookupTagRef d = some id ∧ t' = t.setNeedsTagCompletion := by
  rw [internedAsTag, get_bind] at h
  cases hd : t.lookupTagRef d with
  | none =>
    rw [hd] at h
    cases pure_eq_some.mp h
    exact .inl ⟨rfl, rfl, rfl⟩
  | some id =>
    rw [hd] at h
    obtain ⟨⟨⟩, t₁, hn, h⟩ := bind_eq_some.mp h
    cases pure_eq_some.mp h
    exact .inr ⟨id, rfl, rfl, noteNeed_eq_some hn⟩

lemma internedBefore_eq_some (h : internedBefore d t = some (r, t')) : (r = none ∧ t' = t) ∨
    ∃ answer, r = some answer.id ∧ d.canonicalizeMayRewrite = true ∧ t.canonical d = some answer ∧
      (answer.tag, answer.tagDesc, answer.epoch) = t.canonicalState d ∧
      t' = t.setNeedsTagCompletion := by
  rw [internedBefore, get_bind] at h
  cases hr : d.canonicalizeMayRewrite with
  | false =>
    simp only [hr, Bool.false_eq_true] at h
    cases pure_eq_some.mp h
    exact .inl ⟨rfl, rfl⟩
  | true =>
    simp only [hr, if_true] at h
    cases hd : t.canonical d with
    | none =>
      simp only [hd] at h
      cases pure_eq_some.mp h
      exact .inl ⟨rfl, rfl⟩
    | some answer =>
      simp only [hd] at h
      split at h
      · obtain ⟨⟨⟩, t₁, hn, h⟩ := bind_eq_some.mp h
        cases pure_eq_some.mp h
        exact .inr ⟨answer, rfl, rfl, rfl, ‹_›, noteNeed_eq_some hn⟩
      · cases pure_eq_some.mp h
        exact .inl ⟨rfl, rfl⟩

lemma internShared_eq_some {layoutOf : TypeDesc → TableM Layout} {id : TypeId}
    (h : internShared layoutOf d t = some (id, t')) :
    ∃ layout t₁, layoutOf d t = some (layout, t₁) ∧ id = t₁.types.length ∧
      t' = t₁.push d layout := by
  obtain ⟨layout, t₁, hl, h⟩ := bind_eq_some.mp h
  rw [get_bind] at h
  obtain ⟨⟨⟩, _, hm, h⟩ := bind_eq_some.mp h
  cases hm
  cases pure_eq_some.mp h
  exact ⟨layout, t₁, hl, rfl, rfl⟩

variable {layoutOf : TypeDesc → TableM Layout} {id : TypeId}

lemma internLiteral_eq_some (h : internLiteral layoutOf d t = some (id, t')) :
    (t.interned d = some id ∧ t' = t) ∨
      (t.interned d = none ∧ internShared layoutOf d t = some (id, t')) := by
  rw [internLiteral, get_bind] at h
  cases hd : t.interned d with
  | none =>
    rw [hd] at h
    exact .inr ⟨rfl, h⟩
  | some id' =>
    rw [hd] at h
    cases pure_eq_some.mp h
    exact .inl ⟨rfl, rfl⟩

lemma internCanonical_eq_some (h : internCanonical layoutOf d t = some (id, t')) :
    ∃ t₁ t₂, noteNeed (t.canonicalize d).hasNamedTag t = some ((), t₁) ∧
      (t₁.interned (t.canonicalize d) = some id ∧ t₂ = t₁ ∨ t₁.interned (t.canonicalize d) = none ∧
          internShared layoutOf (t.canonicalize d) t₁ = some (id, t₂)) ∧
      t' = if d.canonicalizeMayRewrite then t₂.rememberCanonical d id else t₂ := by
  rw [internCanonical, get_bind] at h
  obtain ⟨⟨⟩, t₁, hn, h⟩ := bind_eq_some.mp h
  obtain ⟨id', t₂, hid, h⟩ := bind_eq_some.mp h
  obtain ⟨⟨⟩, _, hm, h⟩ := bind_eq_some.mp h
  cases hm
  cases pure_eq_some.mp h
  exact ⟨t₁, t₂, hn, internLiteral_eq_some hid, rfl⟩

/-- The four ways in which a descriptor is interned. -/
lemma internWith_eq_some (h : internWith layoutOf d t = some (id, t')) :
    (d.canonicalizeMayRewrite = false ∧ t.interned d = some id ∧
      noteNeed d.hasNamedTag t = some ((), t')) ∨
    (t.lookupTagRef d = some id ∧ t' = t.setNeedsTagCompletion) ∨
    (∃ answer, id = answer.id ∧ d.canonicalizeMayRewrite = true ∧ t.canonical d = some answer ∧
      (answer.tag, answer.tagDesc, answer.epoch) = t.canonicalState d ∧
      t' = t.setNeedsTagCompletion) ∨
    (t.lookupTagRef d = none ∧ internCanonical layoutOf d t = some (id, t')) := by
  obtain ⟨r₁, t₁, h₁, hre₁⟩ := bind_eq_some.mp h
  obtain ⟨rfl, rfl, -⟩ | ⟨id', rfl, hr, hd, hn⟩ := internedAsIs_eq_some h₁
  swap
  · cases pure_eq_some.mp hre₁
    exact .inl ⟨hr, hd, hn⟩
  obtain ⟨r₂, t₂, h₂, hre₂⟩ := bind_eq_some.mp hre₁
  obtain ⟨rfl, rfl, hnone⟩ | ⟨id', rfl, hd, rfl⟩ := internedAsTag_eq_some h₂
  swap
  · cases pure_eq_some.mp hre₂
    exact .inr (.inl ⟨hd, rfl⟩)
  obtain ⟨r₃, t₃, h₃, hre₃⟩ := bind_eq_some.mp hre₂
  obtain ⟨rfl, rfl⟩ | ⟨answer, rfl, hr, hd, hstate, rfl⟩ := internedBefore_eq_some h₃
  swap
  · cases pure_eq_some.mp hre₃
    exact .inr (.inr (.inl ⟨answer, rfl, hr, hd, hstate, rfl⟩))
  exact .inr (.inr (.inr ⟨hnone, hre₃⟩))

lemma tag_of_lookupTagRef (h : t.lookupTagRef d = some id) :
    ∃ k n, d.emptyTag = some (k, n) ∧ t.tags k n = some id := by
  obtain ⟨⟨k, n⟩, htag, hid⟩ := Option.bind_eq_some_iff.mp h
  exact ⟨k, n, htag, hid⟩

lemma canonicalize_of_lookupTagRef (h : t.lookupTagRef d = some id) :
    t.canonicalize d = t.desc id := by
  obtain ⟨k, n, htag, -⟩ := tag_of_lookupTagRef h
  cases d with
  | struct _ _ | union _ _ => simp [canonicalize, h]
  | scalar _ | ptr _ | array _ _ | fnPtr _ _ => cases (TypeDesc.tag_of_emptyTag htag).2

lemma answers_of_interned (hs : t.Sound) (hd : t.interned d = some id)
    (hneeds : d.hasNamedTag = true → t.needsTagCompletion = true) : t.Answers id where
  lt := (hs.entry hd).1
  ptr hx := by
    have hd' : d = .ptr _ := (hx ▸ (hs.entry hd).2).eq_of_ptr
    rw [← hd', hd]
  needs hn := hneeds ((hs.entry hd).2.hasNamedTag_eq ▸ hn)

lemma interns_internCanonical (hl : ∀ (e : TypeDesc) {u u' : TypeTable} {layout : Layout},
      u.Sound → layoutOf e u = some (layout, u') → Moves u u' ∧
        layout.fields.length = e.fields.length ∧ ∀ f ∈ layout.fields, u'.Answers f.typeId)
    (hptr : ∀ {x u u' layout}, layoutOf (.ptr x) u = some (layout, u') → u' = u) (hs : t.Sound)
    (h : internCanonical layoutOf d t = some (id, t')) : Moves t t' ∧ t'.Answers id := by
  obtain ⟨t₁, t₂, hnote, hid, rfl⟩ := internCanonical_eq_some h
  obtain ⟨hm₁, hneeds⟩ := moves_noteNeed hnote
  have hs₁ := hm₁.sound hs
  -- the answer before it is remembered
  have hcore : Moves t₁ t₂ ∧ t₂.Answers id := by
    obtain ⟨hd, rfl⟩ | ⟨hd, hshared⟩ := hid
    · exact ⟨.refl, answers_of_interned hs₁ hd hneeds⟩
    obtain ⟨layout, t₃, hlaid, rfl, rfl⟩ := internShared_eq_some hshared
    obtain ⟨hm₃, hlen, hf⟩ := hl _ hs₁ hlaid
    have hnee₃ := fun hn => hm₃.extends.needs (hneeds hn)
    have hpush : Move t₃ (t₃.push (t.canonicalize d) layout) := by
      refine .push t₃ _ layout hlen hf (fun {x} hx => ?_) hnee₃
      obtain rfl := hptr (hx ▸ hlaid)
      exact hd
    have hs₄ := hpush.sound (hm₃.sound hs₁)
    refine ⟨hm₃.trans hpush.moves, answers_of_interned (d := t.canonicalize d) hs₄ ?_ ?_⟩
    · simp [push, TypeTable.append]
    · exact fun hn => hpush.extends.needs (hnee₃ hn)
  split
  · have hremember : Move t₂ (t₂.rememberCanonical d id) := .remember t₂ d id hcore.2.toHolds
    exact ⟨(hm₁.trans hcore.1).trans hremember.moves, hremember.extends.answers hcore.2⟩
  · exact ⟨hm₁.trans hcore.1, hcore.2⟩

/-- Interning makes moves only, whatever fuel it runs on. -/
lemma interns_intern (fuel : ℕ) : Interns (intern fuel) := by
  induction fuel with
  | zero => exact fun _ h => by cases h
  | succ fuel ih =>
    intro d t id t' hs h
    obtain ⟨-, hd, hnote⟩ | ⟨hd, rfl⟩ | ⟨answer, rfl, -, hd, -, rfl⟩ | ⟨-, h⟩ :=
      internWith_eq_some h
    · obtain ⟨hm, hn⟩ := moves_noteNeed hnote
      refine ⟨hm, answers_of_interned (hm.sound hs) (d := d) ?_ hn⟩
      rw [noteNeed_eq_some hnote]
      split <;> exact hd
    · obtain ⟨k, n, -, hid⟩ := tag_of_lookupTagRef hd
      have hmove : Move t t.setNeedsTagCompletion := .need t
      exact ⟨hmove.moves, hmove.extends.holds (hs.holds_of_tag hid), fun _ => rfl⟩
    · have hmove : Move t t.setNeedsTagCompletion := .need t
      exact ⟨hmove.moves, hmove.extends.holds (hs.cached hd), fun _ => rfl⟩
    · refine interns_internCanonical (fun e => moves_computeLayout ih e) ?_ hs h
      intro x u u' layout hl
      exact (Prod.mk.inj (pure_eq_some.mp hl)).2

end Interning

end Pathologist.Types

import Pathologist.Types.Runs

/-!
# Completion of nested tags

The walk leaves every field with the entry that completes its type, and leaves a table alone
whose fields all have it. The flag that a table keeps lets the walk be skipped. Interning and the
unions of layouts set it whenever a field could gain a completion. A declaration that registers a
withheld tag does not, and the shortcut is sound exactly in the runs where no such declaration
completes a field.
-/
namespace Pathologist.Types
open TypeDesc

open TypeTable Lib.Stateful

namespace TypeTable

/-- A type that is an empty tag, or points to one, for which a tag with fields is registered. -/
def Incomplete (t : TypeTable) (id : TypeId) : Prop :=
  ∃ k n j, (t.desc id).emptyTagReferred = some (k, n) ∧ t.tags k n = some j ∧ (t.desc j).fields ≠ []

/-- No field of a layout is of an incomplete type. -/
def Complete (t : TypeTable) : Prop := ∀ ⦃i f⦄, f ∈ t.layoutFields i → ¬ t.Incomplete f.typeId

/-- Completion leaves no incomplete field, and where it is skipped the walk would change nothing. -/
structure CompletionSound (t : TypeTable) : Prop where
  completes : ∀ fuel, ∃ t', completeNestedTags (fuel + 1) t = some ((), t') ∧ t'.Complete
  skipped : t.needsTagCompletion = false → ∀ fuel, completeFields (fuel + 1) t = some ((), t)

/-- The entry withheld from a name would be registered with the tag of its kind. -/
def WouldRegister (t : TypeTable) (n : Ident) (k : TagKind) (id : TypeId) : Prop :=
  t.untagged n = some id ∧ (t.desc id).tag = some (k, n) ∧
    ∀ old, t.tags k n = some old → tagRichness (t.info old) < tagRichness (t.info id)

/-- A declaration of the name completes no field of a table that is not to be walked: the fields
of the empty tag have the entry that is registered, and none points to the empty tag if that
entry has members. -/
def DeclaresQuietly (t : TypeTable) (n : Ident) : Prop :=
  t.needsTagCompletion = false → ∀ ⦃k id⦄, t.WouldRegister n k id → ∀ ⦃i f⦄, f ∈ t.layoutFields i →
    ((t.desc f.typeId).emptyTag = some (k, n) → f.typeId = id) ∧
      ∀ {inner}, t.desc f.typeId = .ptr inner → inner.emptyTag = some (k, n) →
        (t.desc id).fields = []

/-- The condition on a table and an operation under which the shortcut stays sound. -/
def KeepsCompletion (t : TypeTable) : Op → Prop
  | .declareStruct n => t.DeclaresQuietly n
  | .defineStruct n => n ∈ t.definedStructs ∨ t.DeclaresQuietly n
  | .mergeStructDeclarations other => ∀ n ∈ other.declaredStructs, t.DeclaresQuietly n
  | _ => True

/-- An entry that the tags of a name do not complete. -/
structure FinalAt (t : TypeTable) (n : Ident) (id : TypeId) : Prop where
  tag : ∀ {k j}, (t.desc id).emptyTag = some (k, n) → t.tags k n = some j → j = id
  ptr : ∀ {inner k j}, t.desc id = .ptr inner → inner.emptyTag = some (k, n) → t.tags k n = some j →
    (t.desc j).fields = []

/-- The tags of a name complete no field. -/
def FinishedAt (t : TypeTable) (n : Ident) : Prop :=
  ∀ ⦃i f⦄, f ∈ t.layoutFields i → t.FinalAt n f.typeId

/-- A table without the need for completion has no field to complete. -/
def Flagged (t : TypeTable) : Prop := t.needsTagCompletion = false → ∀ n, t.FinishedAt n

variable {t : TypeTable}

lemma FinalAt.of_tags {t' : TypeTable} {n : Ident} {id : TypeId} (h : t.FinalAt n id)
    (hdesc : ∀ j, t'.desc j = t.desc j) (ht : ∀ {k j}, t'.tags k n = some j → t.tags k n = some j) :
    t'.FinalAt n id where
  tag htag hj := h.tag (hdesc id ▸ htag) (ht hj)
  ptr hd htag hj := by
    rw [hdesc] at hd ⊢
    exact h.ptr hd htag (ht hj)

lemma FinalAt.of_extends {t' : TypeTable} {n : Ident} {id : TypeId} (h : t.FinalAt n id)
    (hext : Extends t t') (hs : t.Sound) (ht : t'.tags = t.tags) (hid : id < t.types.length) :
    t'.FinalAt n id := by
  refine ⟨fun {k j} htag hj => ?_, fun {inner k j} hd htag hj => ?_⟩
  · rw [hext.desc_eq hid] at htag
    rw [ht] at hj
    exact h.tag htag hj
  rw [hext.desc_eq hid] at hd
  rw [ht] at hj
  rw [hext.desc_eq (hs.tagged hj).1]
  exact h.ptr hd htag hj

lemma not_incomplete_of_final {id : TypeId} (h : ∀ n, t.FinalAt n id) : ¬ t.Incomplete id := by
  rintro ⟨k, n, j, hr, hj, hf⟩
  have hempty (hd : (t.desc id).emptyTag = some (k, n)) : False := by
    obtain rfl := (h n).tag hd hj
    exact hf (tag_of_emptyTag hd).1
  cases hdesc : t.desc id with
  | ptr inner =>
    rw [hdesc] at hr
    exact hf ((h n).ptr hdesc hr hj)
  | scalar _ | array _ _ | struct _ _ | union _ _ | fnPtr _ _ =>
    rw [hdesc] at hr hempty
    exact hempty hr

lemma complete_of_finished (h : ∀ n, t.FinishedAt n) : t.Complete :=
  fun _ _ hf => not_incomplete_of_final fun n => h n hf

lemma emptyTag_of_canonicalize {d : TypeDesc} {k : TagKind} {n : Ident} {j : TypeId}
    (hd : d.emptyTag = some (k, n)) (hj : t.tags k n = some j) : t.canonicalize d = t.desc j := by
  refine canonicalize_of_lookupTagRef ?_
  rw [lookupTagRef, hd]
  exact hj

/-- A descriptor with members after its completion was completed or had them before. -/
lemma canonicalize_cases {d : TypeDesc} (h : (t.canonicalize d).fields ≠ []) :
    (∃ k n j, d.emptyTag = some (k, n) ∧ t.tags k n = some j ∧ t.canonicalize d = t.desc j) ∨
      t.canonicalize d = d := by
  cases hl : t.lookupTagRef d with
  | some j =>
    obtain ⟨k, n, hd, hj⟩ := tag_of_lookupTagRef hl
    exact .inl ⟨k, n, j, hd, hj, canonicalize_of_lookupTagRef hl⟩
  | none =>
    cases d with
    | ptr _ | array _ _ => exact absurd rfl h
    | scalar _ | struct _ _ | union _ _ | fnPtr _ _ =>
      simp [canonicalize, hl]

end TypeTable

section Pointers
variable {t : TypeTable} {c : TypeDesc} (hc : c.fields ≠ []) (fuel : ℕ)

lemma frame_need (t : TypeTable) (named : Bool) :
    (if named then t.setNeedsTagCompletion else t).interned = t.interned ∧
      (if named then t.setNeedsTagCompletion else t).types = t.types := by
  cases named <;> exact ⟨rfl, rfl⟩

include hc

lemma canonicalizeMayRewrite_ptr : (ptr c).canonicalizeMayRewrite = false :=
  canonicalizeMayRewrite_eq_false (d := c) hc

lemma intern_ptr_of_interned {id : TypeId} (h : t.interned (.ptr c) = some id) :
    intern (fuel + 1) (.ptr c) t =
      some (id, if c.hasNamedTag then t.setNeedsTagCompletion else t) := by
  have hasIs : internedAsIs (.ptr c) t =
      some (some id, if c.hasNamedTag then t.setNeedsTagCompletion else t) := by
    simp only [internedAsIs, canonicalizeMayRewrite_ptr hc, Bool.false_eq_true, if_false]
    rw [get_bind, h]
    rfl
  rw [intern, internWith, bind_of_eq hasIs]
  rfl

lemma intern_ptr_of_none (h : t.interned (.ptr c) = none) :
    intern (fuel + 1) (.ptr c) t = some (t.types.length,
      (if c.hasNamedTag then t.setNeedsTagCompletion else t).append (.ptr c) ⟨8, 8, []⟩) := by
  have hrewrite := canonicalizeMayRewrite_ptr hc
  have hasIs : internedAsIs (.ptr c) t = some (none, t) := by
    simp only [internedAsIs, hrewrite, Bool.false_eq_true, if_false]
    rw [get_bind, h]
    rfl
  have hasT : internedAsTag (.ptr c) t = some (none, t) := rfl
  have hbefore : internedBefore (.ptr c) t = some (none, t) := by
    rw [internedBefore]
    simp only [hrewrite]
    rfl
  have hcanon : t.canonicalize (.ptr c) = .ptr c := by
    have hlookup : t.lookupTagRef c = none := by
      rw [lookupTagRef, emptyTag, if_neg hc]
      rfl
    cases c with
    | ptr _ | array _ _ => exact absurd rfl hc
    | scalar _ | struct _ _ | union _ _ | fnPtr _ _ =>
      simp [canonicalize, hlookup]
  let u := if c.hasNamedTag then t.setNeedsTagCompletion else t
  have hnote : noteNeed (ptr c).hasNamedTag t = some ((), u) := rfl
  have hliteral : internLiteral (computeLayout (intern fuel)) (.ptr c) u =
      some (t.types.length, u.append (.ptr c) ⟨8, 8, []⟩) := by
    have hpush : u.push (.ptr c) ⟨8, 8, []⟩ = u.append (.ptr c) ⟨8, 8, []⟩ := by
      rw [push, noteNamedTag, TypeTable.desc, info_append_self]
      rfl
    obtain ⟨hinterned, ht⟩ := frame_need t c.hasNamedTag
    rw [internLiteral, get_bind, hinterned, h, ← hpush, ← ht]
    rfl
  rw [intern, internWith, bind_of_eq hasIs]
  dsimp only
  rw [bind_of_eq hasT]
  dsimp only
  rw [bind_of_eq hbefore]
  dsimp only
  rw [internCanonical, get_bind]
  rw [hcanon, bind_of_eq hnote, bind_of_eq hliteral]
  simp only [hrewrite, Bool.false_eq_true]
  rfl

end Pointers

/-- What a round of the walk changes beside the field it completes: entries of pointers may be
added and the need noted. -/
structure Tidies (t t' : TypeTable) : Prop where
  extends_ : Extends t t'
  tags : t'.tags = t.tags
  layout : ∀ j, t'.layoutFields j = t.layoutFields j

lemma Tidies.refl (t : TypeTable) : Tidies t t := ⟨.refl t, rfl, fun _ => rfl⟩

section Rounds
variable {t : TypeTable}

lemma tidies_need (named : Bool) : Tidies t (if named then t.setNeedsTagCompletion else t) := by
  cases named with
  | false => exact .refl t
  | true => exact ⟨(Move.need t).extends, rfl, fun _ => rfl⟩

lemma tidies_append_ptr {c : TypeDesc} (h : t.interned (.ptr c) = none) :
    Tidies t (t.append (.ptr c) ⟨8, 8, []⟩) := by
  refine ⟨extends_append fun _ => h, rfl, fun j => ?_⟩
  unfold layoutFields
  rcases lt_trichotomy j t.types.length with hlt | rfl | hlt
  · rw [info_append_of_lt hlt]
  · rw [info_append_self, info_of_length_le le_rfl]
    rfl
  · rw [info_of_length_le hlt.le, info_of_length_le (by rw [length_append]; exact hlt)]

lemma Tidies.trans {t₁ t₂ t₃ : TypeTable} (h : Tidies t₁ t₂) (h' : Tidies t₂ t₃) : Tidies t₁ t₃ :=
  ⟨h.extends_.trans h'.extends_, h'.tags.trans h.tags, fun j => (h'.layout j).trans (h.layout j)⟩

lemma intern_ptr (hs : t.Sound) {c : TypeDesc} (hc : c.fields ≠ []) (fuel : ℕ) :
    ∃ id t', intern (fuel + 1) (.ptr c) t = some (id, t') ∧ Tidies t t' ∧ t'.desc id = .ptr c := by
  let u := if c.hasNamedTag then t.setNeedsTagCompletion else t
  have hneed : Tidies t u := tidies_need c.hasNamedTag
  cases hd : t.interned (.ptr c) with
  | some id =>
    refine ⟨id, u, intern_ptr_of_interned hc fuel hd, hneed, ?_⟩
    obtain ⟨hlt, hdesc⟩ := hs.entry hd
    rw [hneed.extends_.desc_eq hlt]
    obtain heq | ⟨hsome, -⟩ := hdesc
    · exact heq.symm
    · cases hsome
  | none =>
    obtain ⟨hinterned, ht⟩ := frame_need t c.hasNamedTag
    refine ⟨t.types.length, _, intern_ptr_of_none hc fuel hd,
      hneed.trans (tidies_append_ptr (hinterned ▸ hd)), ?_⟩
    rw [TypeTable.desc, ← ht, info_append_self]

/-- The completion of a type is found, and it is final. -/
lemma completeTypeId_final (hs : t.Sound) (old : TypeId) (fuel : ℕ) : ∃ id t',
    completeTypeId (fuel + 1) old t = some (id, t') ∧ Tidies t t' ∧ ∀ n, t'.FinalAt n id := by
  obtain ⟨inner, hdesc, hf, hrun⟩ | ⟨inner, -, hf, hrun⟩ | ⟨hptr, hrun⟩ :=
    completeTypeId_cases (fuel + 1) old t
  · refine ⟨old, t, hrun, .refl t, fun n => ⟨fun htag => ?_, fun {inner' k j} hd htag hj => ?_⟩⟩
    · rw [hdesc] at htag
      cases (tag_of_emptyTag htag).2
    · obtain rfl := ptr.inj (hdesc.symm.trans hd)
      rw [← emptyTag_of_canonicalize htag hj]
      exact hf
  · obtain ⟨id, t', hid, ht, hdesc⟩ := intern_ptr hs hf fuel
    refine ⟨id, t', hrun.trans hid, ht, fun n =>
      ⟨fun htag => ?_, fun {inner' k j} hd htag hj => ?_⟩⟩
    · rw [hdesc] at htag
      cases (tag_of_emptyTag htag).2
    · obtain rfl := ptr.inj (hdesc.symm.trans hd)
      exact absurd (tag_of_emptyTag htag).1 hf
  refine ⟨_, t, hrun, .refl t, fun n => ?_⟩
  cases hd : t.lookupTagRef (t.desc old) with
  | none =>
    refine ⟨fun {k j} htag hj => ?_, fun hdesc => absurd hdesc (hptr _)⟩
    rw [Option.getD_none] at htag
    rw [lookupTagRef, htag] at hd
    cases hd.symm.trans hj
  | some j =>
    obtain ⟨k, m, -, hj⟩ := tag_of_lookupTagRef hd
    have hjtag := (hs.tagged hj).2
    refine ⟨fun {k' j'} htag hj' => ?_, fun hdesc => absurd hdesc (not_ptr_of_tag hjtag)⟩
    cases hjtag.symm.trans (tag_of_emptyTag htag).2
    exact Option.some.inj (hj'.symm.trans hj)

variable {completed : List (Option TypeId)}

lemma completeField_of_found {fuel i m old : ℕ} {id : TypeId} (hold : t.fieldType i m = some old)
    (hf : completed[old]? = some (some id)) :
    completeField fuel i completed m t =
      some (completed, if id = old then t else t.setFieldType i m id) := by
  rw [completeField, get_bind, liftM_bind hold, liftM_bind hf]
  rfl

lemma completeField_of_computed {fuel i m old : ℕ} {id : TypeId} {t₁ : TypeTable}
    (hold : t.fieldType i m = some old) (hn : completed[old]? = some none)
    (hid : completeTypeId fuel old t = some (id, t₁)) :
    completeField fuel i completed m t = some (completed.set old (some id),
      if id = old then t₁ else t₁.setFieldType i m id) := by
  rw [completeField, get_bind, liftM_bind hold, liftM_bind hn]
  dsimp only
  rw [bind_of_eq hid]
  rfl

end Rounds

/-- An entry that no tag completes any more. -/
structure Completed (t : TypeTable) (id : TypeId) : Prop extends t.Holds id where
  final : ∀ n, t.FinalAt n id

variable {t t' : TypeTable} {id : TypeId}

lemma Tidies.completed (h : Tidies t t') (hs : t.Sound) (hid : Completed t id) : Completed t' id :=
  ⟨h.extends_.holds hid.toHolds, fun n => (hid.final n).of_extends h.extends_ hs h.tags hid.lt⟩

/-- The walk over a table, after the fields that are done. -/
structure Walking (t₀ t : TypeTable) (completed : List (Option TypeId)) (done : ℕ → ℕ → Prop) :
    Prop where
  sound : t.Sound
  extends_ : Extends t₀ t
  tags : t.tags = t₀.tags
  later : ∀ {j}, t₀.types.length ≤ j → t.layoutFields j = []
  length : completed.length = t₀.types.length
  answers : ∀ {id}, some id ∈ completed → Completed t id
  finished : ∀ {i m f}, done i m → (t.layoutFields i)[m]? = some f → Completed t f.typeId
  rest : ∀ {i m}, ¬ done i m → (t.layoutFields i)[m]? = (t₀.layoutFields i)[m]?

namespace Walking
variable {t₀ t : TypeTable} {completed : List (Option TypeId)} {done : ℕ → ℕ → Prop}

section
variable (h : Walking t₀ t completed done)
include h

lemma mono {done'} (heq : ∀ i m, done' i m ↔ done i m) : Walking t₀ t completed done' :=
  { h with
    finished := fun hd => h.finished ((heq _ _).mp hd)
    rest := fun hd => h.rest (mt (heq _ _).mpr hd) }

lemma tidy (ht : Tidies t t') (hs : t'.Sound) : Walking t₀ t' completed done where
  sound := hs
  extends_ := h.extends_.trans ht.extends_
  tags := ht.tags.trans h.tags
  later hj := (ht.layout _).trans (h.later hj)
  length := h.length
  answers hid := ht.completed h.sound (h.answers hid)
  finished hd hf := ht.completed h.sound (h.finished hd (by rw [← ht.layout]; exact hf))
  rest hd := by rw [ht.layout]; exact h.rest hd

lemma answer (hid : Completed t id) (old : ℕ) : Walking t₀ t (completed.set old (some id)) done :=
  { h with
    length := by rw [List.length_set]; exact h.length
    answers := fun hmem => by
      rcases List.mem_or_eq_of_mem_set hmem with hmem | heq
      · exact h.answers hmem
      · exact Option.some.inj heq ▸ hid }

end

variable {i m id : ℕ}

lemma completed_setFieldType {j : ℕ} (hj : Completed t j) :
    Completed (t.setFieldType i m id) j where
  toHolds := (extends_setFieldType t i m id).holds hj.toHolds
  final n := (hj.final n).of_tags (desc_setFieldType t i m id) fun hj => hj

lemma getElem?_setFieldType_of_ne {i' m' : ℕ} (hpos : ¬ (i' = i ∧ m' = m)) :
    ((t.setFieldType i m id).layoutFields i')[m']? = (t.layoutFields i')[m']? := by
  rw [layoutFields_setFieldType]
  split
  · obtain ⟨rfl, -⟩ := ‹i = i' ∧ _›
    have hne : m ≠ m' := fun heq => hpos ⟨rfl, heq.symm⟩
    rw [List.getElem?_modify_ne _ _ hne]
  · rfl

variable (h : Walking t₀ t completed done)
include h

/-- A field gets the entry that completes its type. -/
lemma set (hid : Completed t id) :
    Walking t₀ (t.setFieldType i m id) completed fun i' m' => done i' m' ∨ i' = i ∧ m' = m where
  sound := h.sound.setFieldType i m hid.toHolds
  extends_ := h.extends_.trans (extends_setFieldType t i m id)
  tags := h.tags
  later hj := by
    rw [layoutFields_setFieldType, h.later hj]
    split
    · rw [List.modify_nil]
    · rfl
  length := h.length
  answers hmem := completed_setFieldType (h.answers hmem)
  finished {i' m' f} hd hf := by
    by_cases hpos : i' = i ∧ m' = m
    · obtain ⟨rfl, rfl⟩ := hpos
      rw [layoutFields_setFieldType] at hf
      by_cases hlt : i' < t.types.length
      · rw [if_pos ⟨rfl, hlt⟩, List.getElem?_modify] at hf
        simp only [if_true] at hf
        obtain ⟨g, -, rfl⟩ := Option.map_eq_some_iff.mp hf
        exact completed_setFieldType hid
      · rw [if_neg fun h => hlt h.2, layoutFields, info_of_length_le (Nat.le_of_not_lt hlt)] at hf
        cases hf
    · rw [getElem?_setFieldType_of_ne hpos] at hf
      exact completed_setFieldType (h.finished (hd.resolve_right hpos) hf)
  rest {i' m'} hd := by
    obtain ⟨hdone, hpos⟩ := not_or.mp hd
    rw [getElem?_setFieldType_of_ne hpos, h.rest hdone]

/-- One round of the walk, at a field that is not done. -/
lemma round (hs : t₀.Sound) (hm : m < (t₀.layoutFields i).length) (hpos : ¬ done i m) (fuel : ℕ) :
    ∃ completed' t', completeField (fuel + 1) i completed m t = some (completed', t') ∧
      Walking t₀ t' completed' fun i' m' => done i' m' ∨ i' = i ∧ m' = m := by
  let f := (t₀.layoutFields i)[m]
  have hfield : (t.layoutFields i)[m]? = some f := by
    rw [h.rest hpos, List.getElem?_eq_getElem hm]
  have hread : t.fieldType i m = some f.typeId := by
    rw [fieldType, hfield]
    rfl
  have hlt : f.typeId < t₀.types.length := (hs.fields (List.getElem_mem hm)).lt
  -- the field may have its completion already
  have hset {u : TypeTable} {answers : List (Option TypeId)} {id : TypeId}
      (hu : Walking t₀ u answers done) (hid : Completed u id) :
      Walking t₀ (if id = f.typeId then u else u.setFieldType i m id) answers
        fun i' m' => done i' m' ∨ i' = i ∧ m' = m := by
    split
    · refine { hu with
        finished := fun {i' m' g} hd hg => ?_
        rest := fun hd => hu.rest (mt .inl hd) }
      by_cases hdone : done i' m'
      · exact hu.finished hdone hg
      obtain ⟨rfl, rfl⟩ := hd.resolve_left hdone
      rw [hu.rest hpos, List.getElem?_eq_getElem hm] at hg
      cases hg
      exact ‹id = f.typeId› ▸ hid
    · exact hu.set hid
  obtain ⟨answer, ha⟩ : ∃ answer, completed[f.typeId]? = some answer :=
    ⟨_, List.getElem?_eq_getElem (h.length ▸ hlt)⟩
  cases answer with
  | some id =>
    exact ⟨_, _, completeField_of_found hread ha,
      hset h (h.answers (List.mem_of_getElem? ha))⟩
  | none =>
    obtain ⟨id, t₁, hrun, ht, hf⟩ := completeTypeId_final h.sound f.typeId fuel
    have hold : t.Holds f.typeId := h.sound.fields (List.mem_of_getElem? hfield)
    obtain ⟨hmoves, hh⟩ := moves_completeTypeId h.sound hold hrun
    have hid : Completed t₁ id := ⟨hh, hf⟩
    exact ⟨_, _, completeField_of_computed hread ha hrun,
      hset ((h.tidy ht (hmoves.sound h.sound)).answer hid _) hid⟩

end Walking

/-- The walk reaches its end with an invariant that each of its rounds establishes for the next
field, and the last field of an entry for the next entry. -/
lemma completeFields_rule (fuel : ℕ) (R : ℕ → ℕ → List (Option TypeId) → TypeTable → Prop)
    (hs : R 0 0 (List.replicate t.types.length none) t)
    (hsize : ∀ {i answers u}, i < t.types.length → R i 0 answers u →
      (u.layoutFields i).length = (t.layoutFields i).length)
    (hr : ∀ {i m answers u}, m < (t.layoutFields i).length → R i m answers u →
      ∃ answers' u', completeField fuel i answers m u = some (answers', u') ∧
        R i (m + 1) answers' u')
    (hrow : ∀ {i answers u}, i < t.types.length → R i (t.layoutFields i).length answers u →
      R (i + 1) 0 answers u) :
    ∃ answers u, completeFields fuel t = some ((), { u with needsTagCompletion := false }) ∧
      R t.types.length 0 answers u := by
  let row (answers : List (Option TypeId)) (i : ℕ) : TableM (List (Option TypeId)) := do
    let fields := ((← get).layoutFields i).length
    (List.range fields).foldlM (completeField fuel i) answers
  have hrun : ∀ i < t.types.length, ∀ answers u, R i 0 answers u →
      ∃ answers' u', row answers i u = some (answers', u') ∧ R (i + 1) 0 answers' u' := by
    intro i hi answers u hu
    obtain ⟨answers', u', hrun, hu'⟩ := foldlM_range (R i) hu fun m hm answers u hu => hr hm hu
    refine ⟨answers', u', get_bind.trans ?_, hrow hi hu'⟩
    rw [hsize hi hu]
    exact hrun
  obtain ⟨answers, u, hw, hu⟩ := foldlM_range (fun i => R i 0) hs hrun
  refine ⟨answers, u, ?_, hu⟩
  rw [completeFields, get_bind, bind_of_eq hw]
  rfl

/-- The walk ends, and leaves every field with the entry that completes its type. -/
lemma completeFields_finished (hs : t.Sound) (fuel : ℕ) :
    ∃ t', completeFields (fuel + 1) t = some ((), t') ∧ t'.needsTagCompletion = false ∧
      ∀ n, t'.FinishedAt n := by
  let done (i m i' m' : ℕ) : Prop := i' < i ∨ i' = i ∧ m' < m
  have hstart : Walking t t (List.replicate t.types.length none) (done 0 0) :=
    { sound := hs
      extends_ := .refl t
      tags := rfl
      later := fun hj => by
        rw [layoutFields, info_of_length_le hj]
        rfl
      length := List.length_replicate
      answers := fun hmem => by cases List.eq_of_mem_replicate hmem
      finished := fun hd => by simp only [done] at hd; omega
      rest := fun _ => rfl }
  obtain ⟨completed, u, hrun, hu⟩ := completeFields_rule (fuel + 1)
    (fun i m answers u => Walking t u answers (done i m)) hstart
      (fun hi hu => hu.extends_.size_eq hi)
    (fun {i m answers u} hm hu => by
      obtain ⟨answers', u', hrun, hu'⟩ := hu.round hs hm (by simp only [done]; omega) fuel
      refine ⟨answers', u', hrun, hu'.mono fun i' m' => ?_⟩
      omega)
    (fun {i answers u} hi hu => by
      refine { hu with
        finished := fun {i' m' f} hd hf => hu.finished ?_ hf
        rest := fun hd => hu.rest ?_ }
      · obtain hlt | ⟨-, hlt⟩ := hd
        · obtain hlt | rfl := Nat.lt_succ_iff_lt_or_eq.mp hlt
          · exact .inl hlt
          · exact .inr ⟨rfl, hu.extends_.size_eq hi ▸ (List.getElem?_eq_some_iff.mp hf).1⟩
        · exact absurd hlt (Nat.not_lt_zero _)
      · omega)
  refine ⟨{ u with needsTagCompletion := false }, hrun, rfl, fun n i f hf => ?_⟩
  obtain ⟨m, hm⟩ := List.mem_iff_getElem?.mp hf
  by_cases hi : i < t.types.length
  · exact ((hu.finished (.inl hi) hm).final n).of_tags (fun _ => rfl) fun hj => hj
  have hnil : u.layoutFields i = [] := hu.later (Nat.le_of_not_lt hi)
  change f ∈ u.layoutFields i at hf
  rw [hnil] at hf
  cases hf

/-- The walk over a table without a field to complete: only the need may be noted. -/
structure Idle (t u : TypeTable) (completed : List (Option TypeId)) : Prop where
  same : u = { t with needsTagCompletion := u.needsTagCompletion }
  length : completed.length = t.types.length
  answers : ∀ {x id : ℕ}, completed[x]? = some (some id) → id = x

section Idle
variable {t u : TypeTable} {completed : List (Option TypeId)}

lemma completeTypeId_of_final (hid : t.Holds id) (hfinal : ∀ n, t.FinalAt n id)
    (hu : u = { t with needsTagCompletion := u.needsTagCompletion }) (fuel : ℕ) :
    ∃ u', completeTypeId (fuel + 1) id u = some (id, u') ∧
      u' = { t with needsTagCompletion := u'.needsTagCompletion } := by
  have hdesc (j : TypeId) : u.desc j = t.desc j := by rw [hu]; rfl
  have htags : u.tags = t.tags := by rw [hu]
  have hinterned : u.interned = t.interned := by rw [hu]
  obtain ⟨inner, -, -, hrun⟩ | ⟨inner, hd, hf, hrun⟩ | ⟨-, hrun⟩ :=
    completeTypeId_cases (fuel + 1) id u
  · exact ⟨u, hrun, hu⟩
  · rw [hdesc] at hd
    have hsame : u.canonicalize inner = inner := by
      obtain ⟨k, n, j, htag, hj, heq⟩ | heq := canonicalize_cases hf
      · rw [heq, hdesc] at hf
        exact absurd ((hfinal n).ptr hd htag (htags ▸ hj)) hf
      · exact heq
    have hknown : u.interned (.ptr inner) = some id := by
      rw [hinterned]
      exact hid.ptr hd
    rw [hsame] at hf hrun
    refine ⟨_, hrun.trans (intern_ptr_of_interned hf fuel hknown), ?_⟩
    split
    · rw [hu]
      rfl
    · exact hu
  · refine ⟨u, hrun.trans ?_, hu⟩
    cases hj : u.lookupTagRef (u.desc id) with
    | none => rfl
    | some j =>
      obtain ⟨k, n, htag, hj⟩ := tag_of_lookupTagRef hj
      exact congrArg (fun j => some (j, u)) ((hfinal n).tag (hdesc id ▸ htag) (htags ▸ hj))

lemma Idle.layoutFields_eq (h : Idle t u completed) (i : ℕ) :
    u.layoutFields i = t.layoutFields i := by
  rw [h.same]
  rfl

lemma Idle.round (h : Idle t u completed) (hs : t.Sound) (hfin : ∀ n, t.FinishedAt n) {i m : ℕ}
    (hm : m < (t.layoutFields i).length) (fuel : ℕ) :
    ∃ completed' u', completeField (fuel + 1) i completed m u = some (completed', u') ∧
      Idle t u' completed' := by
  let f := (t.layoutFields i)[m]
  have hf : f ∈ t.layoutFields i := List.getElem_mem hm
  have hread : u.fieldType i m = some f.typeId := by
    rw [fieldType, h.layoutFields_eq, List.getElem?_eq_getElem hm]
    rfl
  have hholds : t.Holds f.typeId := hs.fields hf
  obtain ⟨answer, ha⟩ : ∃ answer, completed[f.typeId]? = some answer :=
    ⟨_, List.getElem?_eq_getElem (h.length ▸ hholds.lt)⟩
  cases answer with
  | some id =>
    obtain rfl := h.answers ha
    refine ⟨_, _, completeField_of_found hread ha, ?_⟩
    rw [if_pos rfl]
    exact h
  | none =>
    obtain ⟨u', hrun, hu'⟩ := completeTypeId_of_final hholds (fun n => hfin n hf) h.same fuel
    refine ⟨_, _, completeField_of_computed hread ha hrun, ?_⟩
    rw [if_pos rfl]
    refine ⟨hu', by rw [List.length_set]; exact h.length, fun {x id} hx => ?_⟩
    by_cases heq : f.typeId = x
    · rw [heq, List.getElem?_set_self (heq ▸ h.length ▸ hholds.lt)] at hx
      exact (Option.some.inj (Option.some.inj hx)).symm
    · rw [List.getElem?_set_ne heq] at hx
      exact h.answers hx

/-- The walk leaves a table alone that has no field to complete. -/
lemma completeFields_of_finished (hs : t.Sound) (hfin : ∀ n, t.FinishedAt n) (fuel : ℕ) :
    completeFields (fuel + 1) t = some ((), { t with needsTagCompletion := false }) := by
  have hstart : Idle t t (List.replicate t.types.length none) :=
    ⟨rfl, List.length_replicate, fun hx => by
      cases List.eq_of_mem_replicate (List.mem_of_getElem? hx)⟩
  obtain ⟨completed, u, hrun, hu⟩ := completeFields_rule (fuel + 1)
    (fun _ _ answers u => Idle t u answers) hstart (fun {i _ _} _ hu => by rw [hu.layoutFields_eq])
    (fun hm hu => hu.round hs hfin hm fuel) fun _ hu => hu
  rw [hrun, hu.same]

end Idle

/-- The shortcut is sound for a table exactly if a table that is not to be walked has no field to
complete. -/
lemma completionSound_iff (hs : t.Sound) : t.CompletionSound ↔ t.Flagged := by
  constructor
  · intro h hn
    obtain ⟨t', hrun, -, hfin⟩ := completeFields_finished hs 0
    cases (h.skipped hn 0).symm.trans hrun
    exact hfin
  intro h
  refine ⟨fun fuel => ?_, fun hn fuel => ?_⟩
  · rw [completeNestedTags, get_bind]
    cases hn : t.needsTagCompletion with
    | true =>
      obtain ⟨t', hrun, -, hfin⟩ := completeFields_finished hs fuel
      exact ⟨t', hrun, complete_of_finished hfin⟩
    | false => exact ⟨t, rfl, complete_of_finished (h hn)⟩
  · rw [completeFields_of_finished hs (h hn)]
    rw [← hn]

namespace TypeTable

/-- Whether the tags of a name complete a field depends on those tags and on the entries. -/
lemma finishedAt_congr {n : Ident} (htags : ∀ k, t'.tags k n = t.tags k n)
    (ht : t'.types = t.types) : t'.FinishedAt n ↔ t.FinishedAt n := by
  have hinfo (id : TypeId) : t'.info id = t.info id := info_of_types ht id
  have hdesc (id : TypeId) : t'.desc id = t.desc id := congrArg TypeInfo.desc (hinfo id)
  have hfinal (id : TypeId) : t'.FinalAt n id ↔ t.FinalAt n id := by
    refine ⟨fun h => h.of_tags (fun j => (hdesc j).symm) fun {k j} hj => ?_,
      fun h => h.of_tags hdesc fun {k j} hj => ?_⟩
    · exact (htags k).trans hj
    · exact (htags k).symm.trans hj
  unfold FinishedAt layoutFields
  simp [hinfo, hfinal]

lemma Move.flagged (h : Move t t') (hs : t.Sound) (hflag : t.Flagged) : t'.Flagged := by
  cases h with
  | need => exact fun hneeds => by cases hneeds
  | remember key id hid =>
    intro hneeds n
    have hsame : (t.rememberCanonical key id).FinishedAt n ↔ t.FinishedAt n :=
      finishedAt_congr (fun _ => rfl) rfl
    exact hsame.mpr (hflag hneeds n)
  | complete i field id hid hneeds => exact fun hfalse => by cases hneeds.symm.trans hfalse
  | push desc layout hsize hh hnew hneed =>
    intro hneeds
    rw [TypeTable.push, noteNamedTag_needsTagCompletion] at hneeds
    have hunnamed {d : TypeDesc} (hd : d.hasNamedTag = true → t.needsTagCompletion = true) :
        d.hasNamedTag = false := Bool.eq_false_iff.mpr fun hn => by cases (hd hn).symm.trans hneeds
    have htag : ((t.append desc layout).desc t.types.length).tag = none := by
      rw [TypeTable.desc, info_append_self]
      refine Option.eq_none_iff_forall_ne_some.mpr fun tag htag => ?_
      cases (hasNamedTag_of_tag htag).symm.trans (hunnamed hneed)
    have hpush : t.push desc layout = t.append desc layout := by
      rw [TypeTable.push, noteNamedTag, htag]
    rw [hpush]
    have hext : Extends t (t.append desc layout) := extends_append hnew
    intro n i f hf
    rcases mem_layoutFields_append hf with hf | hf
    · exact (hflag hneeds n hf).of_extends hext hs rfl (hs.fields hf).lt
    have hfield := hh f hf
    have hnamed := hunnamed hfield.needs
    rw [← hext.desc_eq hfield.lt] at hnamed
    refine ⟨fun htag => ?_, fun hd htag => ?_⟩
    · cases (hasNamedTag_of_tag (tag_of_emptyTag htag).2).symm.trans hnamed
    · rw [hd] at hnamed
      cases (hasNamedTag_of_tag (tag_of_emptyTag htag).2).symm.trans hnamed

lemma Moves.flagged (h : Moves t t') (hs : t.Sound) (hf : t.Flagged) : t'.Flagged := by
  induction h with
  | refl => exact hf
  | tail hm h ih => exact h.flagged (Moves.sound hm hs) ih

section Declarations
variable {t : TypeTable} {name n : Ident}

lemma finishedAt_declareStruct_of_ne (hs : t.Sound) (hne : n ≠ name) :
    (t.declareStruct name).FinishedAt n ↔ t.FinishedAt n :=
  finishedAt_congr (declareStruct_of_ne hs hne).1 types_declareStruct

/-- A declaration completes no field of the name exactly if it is quiet. -/
lemma finishedAt_declareStruct_self (hs : t.Sound) (hn : t.needsTagCompletion = false)
    (hfin : t.FinishedAt name) :
    (t.declareStruct name).FinishedAt name ↔ t.DeclaresQuietly name := by
  obtain ⟨hdecl, h⟩ | ⟨hdecl, hnone, h⟩ | ⟨hdecl, id, hid, h⟩ := declareStruct_cases t name
  · rw [h]
    refine iff_of_true hfin fun _ k id hreg => ?_
    exact absurd hdecl (hs.withheld hreg.1).2.2.2
  · refine iff_of_true ((finishedAt_congr (fun _ => by rw [h]) types_declareStruct).mpr hfin) ?_
    exact fun _ k id hreg => by cases hnone.symm.trans hreg.1
  obtain ⟨-, ⟨k', htag⟩, -⟩ := hs.withheld hid
  have hreg_eq {k : TagKind} {j : TypeId} (hreg : t.WouldRegister name k j) : j = id ∧ k = k' := by
    cases hid.symm.trans hreg.1
    exact ⟨rfl, (Prod.mk.inj (Option.some.inj (hreg.2.1.symm.trans htag))).1⟩
  obtain ⟨hnone, -⟩ | ⟨k₁, n₁, htag₁, hcases⟩ := noteNamedTag_cases (t.takeWithheld name) id
  · cases htag.symm.trans hnone
  cases htag.symm.trans htag₁
  obtain ⟨hg, -⟩ | ⟨-, ⟨old, hold, hr⟩, heq⟩ | ⟨-, hr, heq⟩ := hcases
  · exact absurd List.mem_cons_self hg.2
  · -- the tag there is already is as rich
    refine iff_of_true ((finishedAt_congr (fun _ => by rw [h, heq]; rfl)
      types_declareStruct).mpr hfin) fun _ k j hreg => ?_
    obtain ⟨rfl, rfl⟩ := hreg_eq hreg
    exact absurd hr (Nat.not_le_of_lt (hreg.2.2 old hold))
  -- the withheld entry is registered
  have hset : t.declareStruct name = (t.takeWithheld name).setTag k' name id := h.trans heq
  have hself : (t.declareStruct name).tags k' name = some id := by
    rw [hset]
    exact if_pos ⟨rfl, rfl⟩
  have hother (k : TagKind) (hk : k ≠ k') : (t.declareStruct name).tags k name = t.tags k name := by
    rw [hset]
    exact if_neg fun hkn => hk hkn.1
  have hfields (i : ℕ) : (t.declareStruct name).layoutFields i = t.layoutFields i :=
    congrArg (·.layout.fields) (info_of_types types_declareStruct i)
  constructor
  · intro hfin' _ k j hreg i f hf
    obtain ⟨rfl, rfl⟩ := hreg_eq hreg
    rw [← hfields] at hf
    have hfinal := hfin' hf
    refine ⟨fun he => (hfinal.tag (by rw [desc_declareStruct]; exact he) hself).symm,
      fun hd he => ?_⟩
    have hnil := hfinal.ptr ((desc_declareStruct _).trans hd) he hself
    rw [desc_declareStruct] at hnil
    exact hnil
  intro hq i f hf
  rw [hfields] at hf
  have hreg : t.WouldRegister name k' id := ⟨hid, htag, hr⟩
  obtain ⟨htag', hptr'⟩ := hq hn hreg hf
  have hfinal := hfin hf
  refine ⟨fun {k j} he hj => ?_, fun {inner k j} hd he hj => ?_⟩
  · rw [desc_declareStruct] at he
    by_cases hk : k = k'
    · subst hk
      cases hself.symm.trans hj
      exact (htag' he).symm
    · exact hfinal.tag he ((hother k hk).symm.trans hj)
  rw [desc_declareStruct] at hd ⊢
  by_cases hk : k = k'
  · subst hk
    cases hself.symm.trans hj
    exact hptr' hd he
  · exact hfinal.ptr hd he ((hother k hk).symm.trans hj)

lemma needs_declareStruct : (t.declareStruct name).needsTagCompletion = t.needsTagCompletion := by
  obtain ⟨_, _, _, h⟩ := declareStruct_frame t name
  rw [h]

lemma declaresQuietly_of_ne (hs : t.Sound) (hne : n ≠ name) :
    (t.declareStruct name).DeclaresQuietly n ↔ t.DeclaresQuietly n := by
  have hinfo (id : TypeId) : (t.declareStruct name).info id = t.info id :=
    info_of_types types_declareStruct id
  unfold DeclaresQuietly WouldRegister layoutFields
  simp [needs_declareStruct, hinfo, (declareStruct_of_ne hs hne).1, (declareStruct_of_ne hs hne).2]

lemma finishedAt_foldl_declareStruct (hs : t.Sound) (hn : t.needsTagCompletion = false)
    (names : List Ident) (hfin : t.FinishedAt n) :
    (names.foldl declareStruct t).FinishedAt n ↔ (n ∈ names → t.DeclaresQuietly n) :=
  foldl_declareStruct_iff (I := fun t => t.needsTagCompletion = false)
    (P := fun t => t.FinishedAt n) (Q := fun t => t.DeclaresQuietly n)
    (fun _ hn => needs_declareStruct.trans hn) finishedAt_declareStruct_of_ne
    declaresQuietly_of_ne finishedAt_declareStruct_self hs hn hfin names

lemma needs_foldl_declareStruct (names : List Ident) :
    (names.foldl declareStruct t).needsTagCompletion = t.needsTagCompletion := by
  induction names generalizing t with
  | nil => rfl
  | cons name rest ih => rw [List.foldl_cons, ih, needs_declareStruct]

/-- The declarations of a list of names keep a table flagged exactly if each is quiet. -/
lemma flagged_foldl_declareStruct (hs : t.Sound) (hf : t.Flagged) (names : List Ident) :
    (names.foldl declareStruct t).Flagged ↔ ∀ n ∈ names, t.DeclaresQuietly n := by
  unfold Flagged
  rw [needs_foldl_declareStruct]
  constructor
  · intro h n hn hneeds
    exact (finishedAt_foldl_declareStruct hs hneeds names (hf hneeds n)).mp (h hneeds n) hn hneeds
  · intro h hneeds n
    exact (finishedAt_foldl_declareStruct hs hneeds names (hf hneeds n)).mpr (h n)

end Declarations

/-- A table with the same entries and the same need, and no more tags. -/
lemma Flagged.of_tags (h : t.Flagged) (ht : t'.types = t.types)
    (hn : t'.needsTagCompletion = t.needsTagCompletion)
    (htags : ∀ {k n j}, t'.tags k n = some j → t.tags k n = some j) : t'.Flagged := by
  intro hfalse n i f hf
  have hinfo (id : TypeId) : t'.info id = t.info id := info_of_types ht id
  unfold layoutFields at hf
  rw [hinfo] at hf
  exact (h (hn.symm.trans hfalse) n hf).of_tags (fun id => congrArg TypeInfo.desc (hinfo id)) htags

lemma flagged_noteGuessedClass (h : t.Flagged) (name : Ident) :
    (t.noteGuessedClass name).Flagged := by
  obtain ⟨-, heq⟩ | ⟨-, -, heq⟩ | ⟨-, -, kind, id, -, -, heq⟩ := noteGuessedClass_cases t name
  · rw [heq]
    exact h
  · rw [heq]
    exact h.of_tags rfl rfl fun hj => hj
  rw [heq]
  refine h.of_tags rfl rfl fun hj => ?_
  dsimp only at hj
  split at hj
  · cases hj
  · exact hj

end TypeTable

section Steps
variable {t t' : TypeTable} {op : Op}

/-- One operation keeps the shortcut sound exactly under the condition on the table before it. -/
lemma Op.Yields.flagged_iff (h : op.Yields t t') (hs : t.Sound) (hflag : t.Flagged) :
    t'.Flagged ↔ t.KeepsCompletion op := by
  cases h.does with
  | intern hid => exact iff_of_true ((interns_intern _ hs hid).1.flagged hs hflag) trivial
  | noteGuessedClass name => exact iff_of_true (flagged_noteGuessedClass hflag name) trivial
  | declareStruct name =>
    exact (flagged_foldl_declareStruct hs hflag [name]).trans List.forall_mem_singleton
  | defineStruct name =>
    by_cases hdef : name ∈ t.definedStructs
    · rw [TypeTable.defineStruct, if_pos hdef]
      exact iff_of_true hflag (.inl hdef)
    have hdefine : (t.defineStruct name).Flagged ↔ (t.declareStruct name).Flagged := by
      rw [TypeTable.defineStruct, if_neg hdef]
      exact ⟨fun h => h.of_tags rfl rfl fun hj => hj, fun h => h.of_tags rfl rfl fun hj => hj⟩
    rw [hdefine]
    refine ((flagged_foldl_declareStruct hs hflag [name]).trans List.forall_mem_singleton).trans ?_
    exact (or_iff_right hdef).symm
  | unionLayout hid =>
    refine iff_of_true ?_ trivial
    obtain hm | ⟨t₁, desc, layout, -, -, -, -, -, -, rfl⟩ := unionAggregateLayout_eq_some hs hid
    · exact hm.flagged hs hflag
    · exact fun hn => by cases hn
  | mergeStructDeclarations other =>
    have hmerge : (t.mergeStructDeclarations other).Flagged ↔
        (other.declaredStructs.foldl TypeTable.declareStruct t).Flagged :=
      ⟨fun h => h.of_tags rfl rfl fun hj => hj, fun h => h.of_tags rfl rfl fun hj => hj⟩
    exact hmerge.trans (flagged_foldl_declareStruct hs hflag other.declaredStructs)
  | completeNestedTags h =>
    refine iff_of_true ?_ trivial
    rw [Types.completeNestedTags, get_bind] at h
    split at h
    · obtain ⟨u, hrun, -, hfin⟩ := completeFields_finished hs _
      cases hrun.symm.trans h
      exact fun _ => hfin
    · cases pure_eq_some.mp h
      exact hflag
  | compactForHeaderMerge =>
    refine iff_of_true (fun _ n i f hf => ?_) trivial
    rw [layoutFields_compact] at hf
    cases hf

end Steps

lemma flagged_new : TypeTable.new.Sound ∧ TypeTable.new.Flagged := by
  refine new_of_interning (P := TypeTable.Flagged) (fun _ n i f hf => ?_) ?_
  · cases hf
  · intro kind t id t' hs hflag h
    exact (interns_intern 1 hs h).1.flagged hs hflag

/-- Completion and its shortcut are sound throughout exactly those runs in which no declaration
completes a field of a table that is not to be walked. -/
theorem completionSound_throughout_iff (ops : List Op) :
    Throughout Op.Yields CompletionSound ops .new ↔
      EachStep Op.Yields KeepsCompletion ops .new := by
  obtain ⟨hs, hflag⟩ := flagged_new
  refine throughout_iff (I := TypeTable.Sound) (A := fun _ => True) ?_ ?_ (fun _ _ => trivial) hs
    ((completionSound_iff hs).mpr hflag)
  · exact fun _ hs h => h.sound hs
  · intro op t t' _ hs hQ h
    rw [completionSound_iff (h.sound hs)]
    exact h.flagged_iff hs ((completionSound_iff hs).mp hQ)

/-- A class is guessed, spelled with a member and used as a member of another before the nested
tags are completed and the class is declared. -/
def lateDeclaration : List Op :=
  [.noteGuessedClass ['N'], .intern (.struct ['N'] [(['x'], .scalar .int)]),
    .intern (.struct ['P'] [(['f'], .struct ['N'] [])]), .completeNestedTags, .declareStruct ['N']]

/-- The declaration registers the tag and does not ask for completion, so a field of the empty
tag stays. -/
theorem completionSound_fails_of_lateDeclaration :
    ¬ Throughout Op.Yields CompletionSound lateDeclaration .new := by
  intro h
  -- the member is of the empty entry 12, and the tag maps to the entry 11, which has a member
  have hrun : (runAll (Op.apply 2) lateDeclaration .new).map (fun t =>
      t.needsTagCompletion == false && decide (t.desc 12 = .struct ['N'] []) &&
        decide (t.tags .struct ['N'] = some 11) && !(t.desc 11).fields.isEmpty &&
        (t.layoutFields 13).any fun f => f.typeId == 12) = some true := by decide +kernel
  obtain ⟨t, ht, hcheck⟩ := Option.map_eq_some_iff.mp hrun
  simp only [Bool.and_eq_true, beq_iff_eq, decide_eq_true_eq,
    List.any_eq_true] at hcheck
  obtain ⟨⟨⟨⟨hneeds, hdesc⟩, htag⟩, hfields⟩, f, hf, htype⟩ := hcheck
  have hsound : t.CompletionSound := h.last (fun hop => ⟨2, hop⟩) ht
  obtain ⟨t', hcomplete, hdone⟩ := hsound.completes 0
  have hsame : Types.completeNestedTags 1 t = some ((), t) := by
    rw [Types.completeNestedTags, get_bind, hneeds]
    rfl
  cases hsame.symm.trans hcomplete
  refine hdone hf ⟨.struct, ['N'], 11, ?_, htag, ?_⟩
  · rw [htype, hdesc]
    rfl
  · intro hnil
    rw [hnil] at hfields
    cases hfields

end Pathologist.Types

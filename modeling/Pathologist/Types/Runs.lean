import Pathologist.Types.Moves

/-!
# Runs of operations on a table

Each operation is a sequence of moves, an entry widened in place after some moves, or a change
of the declarations and the tags. All of them keep a table sound, so every table reached from a
new one is.
-/
open List
namespace Pathologist.Types

open TypeTable Lib.Stateful

namespace TypeTable

/-- The table in which a class is declared and the entry withheld from it is taken out. -/
def takeWithheld (t : TypeTable) (name : Ident) : TypeTable :=
  { t with
    declaredStructs := name :: t.declaredStructs
    untagged := fun n => if n = name then none else t.untagged n }

section Declarations
variable (t : TypeTable) (name : Ident)

lemma declareStruct_cases :
    (name ∈ t.declaredStructs ∧ t.declareStruct name = t) ∨
    (name ∉ t.declaredStructs ∧ t.untagged name = none ∧
      t.declareStruct name = { t with declaredStructs := name :: t.declaredStructs }) ∨
    (name ∉ t.declaredStructs ∧ ∃ id, t.untagged name = some id ∧
      t.declareStruct name = (t.takeWithheld name).noteNamedTag id) := by
  unfold declareStruct
  by_cases hd : name ∈ t.declaredStructs
  · exact .inl ⟨hd, if_pos hd⟩
  simp only [hd, tagDeclaredGuess]
  cases hw : t.untagged name with
  | none => exact .inr (.inl ⟨not_false, rfl, rfl⟩)
  | some id => exact .inr (.inr ⟨not_false, id, rfl, rfl⟩)

/-- Only the declarations, the tags and what is withheld from them may change. -/
lemma declareStruct_frame : ∃ tags untagged declared, t.declareStruct name =
      { t with tags := tags, untagged := untagged, declaredStructs := declared } := by
  obtain ⟨-, h⟩ | ⟨-, -, h⟩ | ⟨-, id, -, h⟩ := declareStruct_cases t name
  · exact ⟨_, _, _, h⟩
  · exact ⟨_, _, _, h⟩
  · obtain ⟨tags, untagged, hn⟩ := noteNamedTag_frame (t.takeWithheld name) id
    exact ⟨tags, untagged, _, h.trans hn⟩

lemma noteGuessedClass_cases :
    ((name ∈ t.guessedTags ∧ t.noteGuessedClass name = t)) ∨
    (name ∉ t.guessedTags ∧ (name ∈ t.declaredStructs ∨ ∀ k, t.tags k name = none) ∧
      t.noteGuessedClass name = { t with guessedTags := name :: t.guessedTags }) ∨
    (name ∉ t.guessedTags ∧ name ∉ t.declaredStructs ∧ ∃ kind id, t.tags kind name = some id ∧
      (kind = .union → t.tags .struct name = none) ∧
      t.noteGuessedClass name = { t with
        guessedTags := name :: t.guessedTags
        tags := fun k n => if k = kind ∧ n = name then none else t.tags k n
        untagged := fun n => if n = name then some id else t.untagged n }) := by
  unfold noteGuessedClass
  by_cases hg : name ∈ t.guessedTags
  · exact .inl ⟨hg, if_pos hg⟩
  refine .inr ?_
  simp only [hg, not_false_eq_true, true_and]
  by_cases hd : name ∈ t.declaredStructs
  · exact .inl ⟨.inl hd, if_pos hd⟩
  simp only [hd, false_or, not_false_eq_true, true_and]
  cases hstruct : t.tags .struct name with
  | some id => exact .inr ⟨.struct, id, hstruct, nofun, rfl⟩
  | none =>
    cases hu : t.tags .union name with
    | some id => exact .inr ⟨.union, id, hu, fun _ => rfl, rfl⟩
    | none =>
      refine .inl ⟨fun k => ?_, rfl⟩
      cases k with
      | struct => exact hstruct
      | union => exact hu

end Declarations

namespace Sound
variable {t : TypeTable} (hs : t.Sound) (name : Ident)
include hs

/-- Tags may go and declarations change as long as what is withheld stays guessed. -/
lemma of_frame {tags : TagKind → Ident → Option TypeId} {untagged : Ident → Option TypeId}
    {declared guessed defined} (ht : ∀ {k n id}, tags k n = some id → t.tags k n = some id)
    (hu : ∀ {n id}, untagged n = some id →
      id < t.types.length ∧ (∃ k, (t.desc id).tag = some (k, n)) ∧ n ∈ guessed ∧ ¬ n ∈ declared) :
    Sound { t with
      tags := tags, untagged := untagged, declaredStructs := declared, guessedTags := guessed
      definedStructs := defined } where
  tagged h := hs.tagged (ht h)
  withheld h := hu h
  entry := hs.entry
  cached h := ⟨(hs.cached h).lt, (hs.cached h).ptr⟩
  fields h := ⟨(hs.fields h).lt, (hs.fields h).ptr⟩

lemma takeWithheld : (t.takeWithheld name).Sound := by
  refine hs.of_frame (fun h => h) fun {n id} hn => ?_
  split at hn
  · cases hn
  obtain ⟨hlt, htag, hg, hd⟩ := hs.withheld hn
  refine ⟨hlt, htag, hg, ?_⟩
  rintro (_ | ⟨_, hmem⟩)
  · contradiction
  · exact hd hmem

lemma declareStruct : (t.declareStruct name).Sound := by
  obtain ⟨-, h⟩ | ⟨-, hnone, h⟩ | ⟨-, id, hid, h⟩ := declareStruct_cases t name
  · rw [h]
    exact hs
  · rw [h]
    refine hs.of_frame (fun h => h) fun {n id} hn => ?_
    obtain ⟨hlt, htag, hg, hd⟩ := hs.withheld hn
    refine ⟨hlt, htag, hg, ?_⟩
    rintro (_ | ⟨_, hmem⟩)
    · rw [hnone] at hn
      cases hn
    · exact hd hmem
  · rw [h]
    exact noteNamedTag (hs.takeWithheld name) (hs.withheld hid).1

lemma noteGuessedClass : (t.noteGuessedClass name).Sound := by
  have hold {n : Ident} {id : TypeId} (hn : t.untagged n = some id) : id < t.types.length ∧
      (∃ k, (t.desc id).tag = some (k, n)) ∧ n ∈ name :: t.guessedTags ∧
      ¬ n ∈ t.declaredStructs := by
    obtain ⟨hlt, htag, hg, hd⟩ := hs.withheld hn
    exact ⟨hlt, htag, mem_cons_of_mem _ hg, hd⟩
  obtain ⟨-, h⟩ | ⟨-, -, h⟩ | ⟨-, hd, kind, id, hid, -, h⟩ := noteGuessedClass_cases t name
  · rw [h]
    exact hs
  · rw [h]
    exact hs.of_frame (fun h => h) hold
  rw [h]
  refine hs.of_frame (fun h => ?_) fun {n j} hn => ?_
  · split at h
    · cases h
    · exact h
  split at hn
  · subst n
    cases hn
    exact ⟨(hs.tagged hid).1, ⟨kind, (hs.tagged hid).2⟩, mem_cons_self, hd⟩
  · exact hold hn

lemma defineStruct : (t.defineStruct name).Sound := by
  unfold TypeTable.defineStruct
  split
  · exact hs
  · have hdeclare := hs.declareStruct name
    exact hdeclare.of_frame (fun h => h) fun h => hdeclare.withheld h

lemma foldl_declareStruct (names : List Ident) : (names.foldl TypeTable.declareStruct t).Sound :=
  foldlRecOn names _ hs fun _ hs name _ => hs.declareStruct name

lemma mergeStructDeclarations (other : TypeTable) : (t.mergeStructDeclarations other).Sound := by
  have hdeclare := hs.foldl_declareStruct other.declaredStructs
  refine hdeclare.of_frame (fun h => h) fun h => ?_
  obtain ⟨hlt, htag, hg, hd⟩ := hdeclare.withheld h
  exact ⟨hlt, htag, mem_append_right _ hg, hd⟩

lemma clearNeeds : Sound { t with needsTagCompletion := false } where
  tagged := hs.tagged
  withheld := hs.withheld
  entry := hs.entry
  cached h := ⟨(hs.cached h).lt, (hs.cached h).ptr⟩
  fields h := ⟨(hs.fields h).lt, (hs.fields h).ptr⟩

end Sound

section Declared
variable {t : TypeTable} {name n : Ident}

@[simp] lemma interned_declareStruct : (t.declareStruct name).interned = t.interned := by
  obtain ⟨_, _, _, h⟩ := declareStruct_frame t name
  rw [h]

@[simp] lemma types_declareStruct : (t.declareStruct name).types = t.types := by
  obtain ⟨_, _, _, h⟩ := declareStruct_frame t name
  rw [h]

@[simp] lemma guessedTags_declareStruct : (t.declareStruct name).guessedTags = t.guessedTags := by
  obtain ⟨_, _, _, h⟩ := declareStruct_frame t name
  rw [h]

@[simp] lemma desc_declareStruct (id : TypeId) : (t.declareStruct name).desc id = t.desc id :=
  congrArg TypeInfo.desc (info_of_types types_declareStruct id)

lemma mem_declaredStructs_declareStruct :
    n ∈ (t.declareStruct name).declaredStructs ↔ n = name ∨ n ∈ t.declaredStructs := by
  obtain ⟨hmem, h⟩ | ⟨-, -, h⟩ | ⟨-, id, -, h⟩ := declareStruct_cases t name
  · rw [h, or_iff_right_of_imp fun heq => heq ▸ hmem]
  · rw [h, mem_cons]
  · rw [h, noteNamedTag_declaredStructs]
    exact mem_cons

lemma noteNamedTag_of_ne {id : TypeId} {k : TagKind} {m : Ident}
    (htag : (t.desc id).tag = some (k, m)) (hne : n ≠ m) :
    (∀ k, (t.noteNamedTag id).tags k n = t.tags k n) ∧
      (t.noteNamedTag id).untagged n = t.untagged n := by
  obtain ⟨-, h⟩ | ⟨k', n', htag', ⟨-, h⟩ | ⟨-, -, h⟩ | ⟨-, -, h⟩⟩ := noteNamedTag_cases t id
  · rw [h]
    exact ⟨fun _ => rfl, rfl⟩
  · cases htag.symm.trans htag'
    rw [h]
    exact ⟨fun _ => rfl, if_neg hne⟩
  · rw [h]
    exact ⟨fun _ => rfl, rfl⟩
  · cases htag.symm.trans htag'
    rw [h]
    exact ⟨fun k => if_neg fun hk => hne hk.2, rfl⟩

lemma declareStruct_of_ne (hs : t.Sound) (hne : n ≠ name) :
    (∀ k, (t.declareStruct name).tags k n = t.tags k n) ∧
      (t.declareStruct name).untagged n = t.untagged n := by
  obtain ⟨-, h⟩ | ⟨-, -, h⟩ | ⟨-, id, hid, h⟩ := declareStruct_cases t name
  · rw [h]
    exact ⟨fun _ => rfl, rfl⟩
  · rw [h]
    exact ⟨fun _ => rfl, rfl⟩
  obtain ⟨-, ⟨k, htag⟩, -⟩ := hs.withheld hid
  rw [h]
  obtain ⟨ht, hu⟩ := noteNamedTag_of_ne (t := t.takeWithheld name) htag hne
  exact ⟨ht, hu.trans (if_neg hne)⟩

lemma isGuessed_declareStruct_of_ne (hne : n ≠ name) :
    (t.declareStruct name).IsGuessed n ↔ t.IsGuessed n := by
  unfold IsGuessed
  rw [guessedTags_declareStruct, mem_declaredStructs_declareStruct, or_iff_right hne]

/-- A property of a name that only the first declaration of the name changes, which it does under
a condition that the other declarations leave alone. -/
lemma foldl_declareStruct_iff {I P Q : TypeTable → Prop}
    (hI : ∀ {t} name, I t → I (t.declareStruct name))
    (hP : ∀ {t name}, t.Sound → n ≠ name → (P (t.declareStruct name) ↔ P t))
    (hQ : ∀ {t name}, t.Sound → n ≠ name → (Q (t.declareStruct name) ↔ Q t))
    (hself : ∀ {t}, t.Sound → I t → P t → (P (t.declareStruct n) ↔ Q t)) (hs : t.Sound) (hinv : I t)
    (hn : P t) (names : List Ident) : P (names.foldl declareStruct t) ↔ (n ∈ names → Q t) := by
  -- a name that is declared stays as it is
  have hdeclared (names : List Ident) {t : TypeTable} (hs : t.Sound)
      (hmem : n ∈ t.declaredStructs) :
      P (names.foldl declareStruct t) ↔ P t := by
    induction names generalizing t with
    | nil => exact Iff.rfl
    | cons name rest ih =>
      refine (ih (hs.declareStruct name) (mem_declaredStructs_declareStruct.mpr
        (.inr hmem))).trans ?_
      by_cases hne : n = name
      · subst hne
        rw [declareStruct, if_pos hmem]
      · exact hP hs hne
  induction names generalizing t with
  | nil => exact iff_of_true hn nofun
  | cons name rest ih =>
    by_cases hne : n = name
    · subst hne
      have hmem : n ∈ (t.declareStruct n).declaredStructs :=
        mem_declaredStructs_declareStruct.mpr (.inl rfl)
      refine (hdeclared rest (hs.declareStruct n) hmem).trans ((hself hs hinv hn).trans ?_)
      exact ⟨fun h _ => h, fun h => h mem_cons_self⟩
    · refine (ih (hs.declareStruct name) (hI name hinv) ((hP hs hne).mpr hn)).trans ?_
      rw [hQ hs hne, mem_cons, or_iff_right hne]

end Declared

section Compaction
variable (t : TypeTable) (id : TypeId)

@[simp] lemma length_compact : t.compactForHeaderMerge.types.length = t.types.length :=
  length_map ..

@[simp] lemma desc_compact : t.compactForHeaderMerge.desc id = t.desc id := by
  simp only [desc, info, compactForHeaderMerge, getD_eq_getElem?_getD, getElem?_map]
  cases t.types[id]? <;> rfl

@[simp] lemma layoutFields_compact : t.compactForHeaderMerge.layoutFields id = [] := by
  simp only [layoutFields, info, compactForHeaderMerge, getD_eq_getElem?_getD, getElem?_map]
  cases t.types[id]? <;> rfl

lemma Sound.compactForHeaderMerge {t : TypeTable} (hs : t.Sound) :
    t.compactForHeaderMerge.Sound where
  tagged := nofun
  withheld h := by
    rw [length_compact, desc_compact]
    exact hs.withheld h
  entry := nofun
  cached := nofun
  fields h := by
    rw [layoutFields_compact] at h
    cases h

end Compaction

section Widening
variable {t : TypeTable} {id : TypeId} {desc : TypeDesc} {layout : Layout}

@[simp] lemma length_replace : (t.replace id desc layout).types.length = t.types.length :=
  length_set ..

lemma info_replace_self (h : id < t.types.length) :
    (t.replace id desc layout).info id = ⟨desc, layout⟩ := by
  simp [info, replace, getElem?_set_self h]

lemma info_replace_of_ne {j : TypeId} (h : j ≠ id) :
    (t.replace id desc layout).info j = t.info j := by
  simp [info, replace, getElem?_set_ne h.symm]

variable {tag : TagKind × Ident} (hid : id < t.types.length) (hold : (t.desc id).tag = some tag)
  (hnew : desc.tag = some tag)
include hid hold hnew

lemma tag_desc_replace (j : TypeId) : ((t.replace id desc layout).desc j).tag = (t.desc j).tag := by
  by_cases hj : j = id
  · subst hj
    rw [TypeTable.desc, info_replace_self hid, hold, hnew]
  · rw [TypeTable.desc, info_replace_of_ne hj]
    rfl

lemma holds_replace {j : TypeId} (h : t.Holds j) : (t.replace id desc layout).Holds j where
  lt := by
    rw [length_replace]
    exact h.lt
  ptr {x} hx := by
    have hne : j ≠ id := by
      rintro rfl
      have htag : ((t.replace j desc layout).desc j).tag = (t.desc j).tag :=
        tag_desc_replace hid hold hnew j
      rw [hx, hold] at htag
      cases htag
    have hkey : (.ptr x : TypeDesc) ≠ desc := fun heq => TypeDesc.not_ptr_of_tag hnew heq.symm
    rw [TypeTable.desc, info_replace_of_ne hne] at hx
    simp only [replace, hkey]
    exact h.ptr hx

lemma Sound.replace (hs : t.Sound) (hh : ∀ f ∈ layout.fields, t.Holds f.typeId) :
    (t.replace id desc layout).Sound := by
  have htag (j : TypeId) : ((t.replace id desc layout).desc j).tag = (t.desc j).tag :=
    tag_desc_replace hid hold hnew j
  refine ⟨?_, ?_, ?_, fun h => holds_replace hid hold hnew (hs.cached h), ?_⟩
  · intro k n j h
    rw [length_replace, htag]
    exact hs.tagged h
  · intro n j h
    rw [length_replace, htag]
    exact hs.withheld h
  · intro d j h
    rw [length_replace]
    simp only [TypeTable.replace] at h
    split at h
    · cases h
      refine ⟨hid, .inl ?_⟩
      rw [TypeTable.desc, info_replace_self hid]
      assumption
    obtain ⟨hlt, hd⟩ := hs.entry h
    refine ⟨hlt, ?_⟩
    by_cases hj : j = id
    · subst hj
      have hdtag : d.tag = some tag := hd.tag_eq.trans hold
      exact .inr ⟨hdtag ▸ rfl, by rw [htag, hold, hdtag]⟩
    · rw [TypeTable.desc, info_replace_of_ne hj]
      exact hd
  · intro i f h
    refine holds_replace hid hold hnew ?_
    by_cases hi : i = id
    · subst hi
      rw [layoutFields, info_replace_self hid] at h
      exact hh f h
    · rw [layoutFields, info_replace_of_ne hi] at h
      exact hs.fields h

lemma Sound.widen (hs : t.Sound) (hh : ∀ f ∈ layout.fields, t.Holds f.typeId) :
    (t.widen id desc layout).Sound := by
  have hreplaced : ((t.replace id desc layout).noteNamedTag id).Sound :=
    (hs.replace hid hold hnew hh).noteNamedTag (by rw [length_replace]; exact hid)
  exact (Move.need _).sound hreplaced

end Widening

end TypeTable

/-- What an operation that returns has done to a table. -/
inductive Op.Does (t : TypeTable) : Op → TypeTable → Prop
  | intern {fuel desc id t'} (h : Types.intern fuel desc t = some (id, t')) :
    Does t (.intern desc) t'
  | noteGuessedClass (name : Ident) : Does t (.noteGuessedClass name) (t.noteGuessedClass name)
  | declareStruct (name : Ident) : Does t (.declareStruct name) (t.declareStruct name)
  | defineStruct (name : Ident) : Does t (.defineStruct name) (t.defineStruct name)
  | unionLayout {fuel kind name fields id t'}
    (h : unionAggregateLayout fuel kind name fields t = some (id, t')) :
    Does t (.unionLayout kind name fields) t'
  | mergeStructDeclarations (other : TypeTable) :
    Does t (.mergeStructDeclarations other) (t.mergeStructDeclarations other)
  | completeNestedTags {fuel t'} (h : Types.completeNestedTags (fuel + 1) t = some ((), t')) :
    Does t .completeNestedTags t'
  | compactForHeaderMerge : Does t .compactForHeaderMerge t.compactForHeaderMerge

section Operations
variable {t t' : TypeTable} {id : TypeId} {fuel : ℕ}
variable {kind : TagKind} {name : Ident} {fields : List (Ident × TypeDesc)}

lemma tag_aggregateDesc (h : name ≠ []) :
    (aggregateDesc kind name fields).tag = some (kind, name) := by
  cases kind <;> simp [aggregateDesc, TypeDesc.tag, h]

@[simp] lemma fields_aggregateDesc {kind : TagKind} {name : Ident}
    {fields : List (Ident × TypeDesc)} : (aggregateDesc kind name fields).fields = fields := by
  cases kind <;> rfl

lemma length_le_foldl_addMember (incoming merged : List (Ident × TypeDesc)) :
    merged.length ≤ (incoming.foldl addMember merged).length := by
  induction incoming generalizing merged with
  | nil => exact le_rfl
  | cons field rest ih =>
    refine le_trans ?_ (ih (addMember merged field))
    unfold addMember
    split
    · exact le_rfl
    · rw [List.length_append]
      exact Nat.le_add_right _ _

/-- A union of layouts interns, has nothing to add, or widens the entry that the tag maps to. -/
lemma unionAggregateLayout_cases
    (h : unionAggregateLayout fuel kind name fields t = some (id, t')) :
    (∃ desc, intern fuel desc t = some (id, t')) ∨ t' = t ∨
      ∃ t₁ desc layout, t.tags kind name = some id ∧
        computeLayout (intern fuel) desc t = some (layout, t₁) ∧ desc.tag = some (kind, name) ∧
        (t.layoutFields id).length ≤ desc.fields.length ∧ t' = t₁.widen id desc layout := by
  rw [unionAggregateLayout, get_bind] at h
  by_cases hn : name = []
  · simp only [hn] at h
    exact .inl ⟨_, h⟩
  simp only [hn, if_false, typeIdByTag] at h
  cases htag : t.tags kind name with
  | none =>
    simp only [htag] at h
    exact .inl ⟨_, h⟩
  | some existing =>
    simp only [htag] at h
    split at h
    · exact .inr (.inl (Prod.mk.inj (pure_eq_some.mp h)).2)
    obtain ⟨layout, t₁, hl, h⟩ := bind_eq_some.mp h
    obtain ⟨⟨⟩, _, hm, h⟩ := bind_eq_some.mp h
    cases hm
    cases pure_eq_some.mp h
    refine .inr (.inr ⟨t₁, _, layout, rfl, hl, tag_aggregateDesc hn, ?_, rfl⟩)
    rw [fields_aggregateDesc]
    refine le_trans (le_of_eq ?_) (length_le_foldl_addMember _ _)
    exact (length_map ..).symm

/-- A union of layouts makes moves, and may then widen the entry that the tag maps to. -/
lemma unionAggregateLayout_eq_some (hs : t.Sound)
    (h : unionAggregateLayout fuel kind name fields t = some (id, t')) :
    Moves t t' ∨ ∃ t₁ desc layout, t.tags kind name = some id ∧ Moves t t₁ ∧
      desc.tag = some (kind, name) ∧ (t.layoutFields id).length ≤ desc.fields.length ∧
      layout.fields.length = desc.fields.length ∧ (∀ f ∈ layout.fields, t₁.Answers f.typeId) ∧
      t' = t₁.widen id desc layout := by
  obtain ⟨desc, hid⟩ | rfl | ⟨t₁, desc, layout, htag, hl, hd, hle, rfl⟩ :=
    unionAggregateLayout_cases h
  · exact .inl (interns_intern fuel hs hid).1
  · exact .inl .refl
  · obtain ⟨hm, hlen, hf⟩ := moves_computeLayout (interns_intern fuel) _ hs hl
    exact .inr ⟨t₁, desc, layout, htag, hm, hd, hle, hlen, hf, rfl⟩

/-- A pointer stays or is interned anew. Any other entry gives way to the one that its empty tag
is registered with. -/
lemma completeTypeId_cases (fuel : ℕ) (old : TypeId) (t : TypeTable) :
    (∃ inner, t.desc old = .ptr inner ∧ (t.canonicalize inner).fields = [] ∧
      completeTypeId fuel old t = some (old, t)) ∨
    (∃ inner, t.desc old = .ptr inner ∧ (t.canonicalize inner).fields ≠ [] ∧
      completeTypeId fuel old t = intern fuel (.ptr (t.canonicalize inner)) t) ∨
    ((∀ inner, t.desc old ≠ .ptr inner) ∧
      completeTypeId fuel old t = some ((t.lookupTagRef (t.desc old)).getD old, t)) := by
  rw [completeTypeId, get_bind]
  cases t.desc old with
  | ptr inner =>
    by_cases hf : (t.canonicalize inner).fields = []
    · exact .inl ⟨inner, rfl, hf, congrFun (if_pos hf) t⟩
    · exact .inr (.inl ⟨inner, rfl, hf, congrFun (if_neg hf) t⟩)
  | scalar _ | array _ _ | struct _ _ | union _ _ | fnPtr _ _ => exact .inr (.inr ⟨nofun, rfl⟩)

lemma moves_completeTypeId {old : TypeId} (hs : t.Sound) (hold : t.Holds old)
    (h : completeTypeId fuel old t = some (id, t')) : Moves t t' ∧ t'.Holds id := by
  obtain ⟨inner, -, -, heq⟩ | ⟨inner, -, -, heq⟩ | ⟨-, heq⟩ := completeTypeId_cases fuel old t
  · cases heq.symm.trans h
    exact ⟨.refl, hold⟩
  · obtain ⟨hm, hid⟩ := interns_intern fuel hs (heq.symm.trans h)
    exact ⟨hm, hid.toHolds⟩
  cases heq.symm.trans h
  refine ⟨.refl, ?_⟩
  cases hd : t.lookupTagRef (t.desc old) with
  | none => exact hold
  | some id =>
    obtain ⟨k, n, -, hid⟩ := tag_of_lookupTagRef hd
    exact hs.holds_of_tag hid

lemma liftM_eq_some {α : Type} {o} {a : α} (h : (liftM o : TableM α) t = some (a, t')) :
    o = some a ∧ t' = t := by
  cases o with
  | none => cases h
  | some b =>
    cases h
    exact ⟨rfl, rfl⟩

variable {completed completed' : List (Option TypeId)}

/-- One round of the walk: the answer for the field's type, found or computed, is set. -/
lemma completeField_eq_some {i field : ℕ}
    (h : completeField fuel i completed field t = some (completed', t')) :
    ∃ old id t₁, t.fieldType i field = some old ∧
      ((completed[old]? = some (some id) ∧ completed' = completed ∧ t₁ = t) ∨
        (completed[old]? = some none ∧ completeTypeId fuel old t = some (id, t₁) ∧
          completed' = completed.set old (some id))) ∧
      t' = if id = old then t₁ else t₁.setFieldType i field id := by
  rw [completeField, get_bind] at h
  obtain ⟨old, _, hr, h₂⟩ := bind_eq_some.mp h
  obtain ⟨hold, rfl⟩ := liftM_eq_some hr
  obtain ⟨answer, _, hr', h₃⟩ := bind_eq_some.mp h₂
  obtain ⟨ha, rfl⟩ := liftM_eq_some hr'
  cases answer with
  | some id =>
    obtain ⟨_, _, hp, h₄⟩ := bind_eq_some.mp h₃
    cases pure_eq_some.mp hp
    obtain ⟨⟨⟩, _, hm, h₅⟩ := bind_eq_some.mp h₄
    cases hm
    cases pure_eq_some.mp h₅
    exact ⟨old, id, _, hold, .inl ⟨ha, rfl, rfl⟩, rfl⟩
  | none =>
    obtain ⟨id, t₁, hid, h₄⟩ := bind_eq_some.mp h₃
    obtain ⟨_, _, hp, h₅⟩ := bind_eq_some.mp h₄
    cases pure_eq_some.mp hp
    obtain ⟨⟨⟩, _, hm, h₆⟩ := bind_eq_some.mp h₅
    cases hm
    cases pure_eq_some.mp h₆
    exact ⟨old, id, _, hold, .inr ⟨ha, hid, rfl⟩, rfl⟩

/-- A table that moves from another lead to, with answers it holds. -/
structure Walked (t : TypeTable) (completed : List (Option TypeId)) (t' : TypeTable) : Prop where
  moves : Moves t t'
  holds : ∀ {id}, some id ∈ completed → t'.Holds id

lemma walked_completeField {i field : ℕ} {t₀ : TypeTable} (hs : t₀.Sound)
    (hn : t₀.needsTagCompletion = true) (hw : Walked t₀ completed t)
    (h : completeField fuel i completed field t = some (completed', t')) :
    Walked t₀ completed' t' := by
  have hst := hw.moves.sound hs
  obtain ⟨old, id, t₁, hold, ha, rfl⟩ := completeField_eq_some h
  have hheld : t.Holds old := by
    obtain ⟨f, hf, rfl⟩ := Option.map_eq_some_iff.mp hold
    exact hst.fields (mem_of_getElem? hf)
  -- the answers after the lookup
  obtain ⟨hw₁, hid⟩ : Walked t₀ completed' t₁ ∧ t₁.Holds id := by
    obtain ⟨hfound, rfl, rfl⟩ | ⟨-, hc, rfl⟩ := ha
    · exact ⟨hw, hw.holds (mem_of_getElem? hfound)⟩
    obtain ⟨hm, hid⟩ := moves_completeTypeId hst hheld hc
    refine ⟨⟨hw.moves.trans hm, fun hmem => ?_⟩, hid⟩
    rcases mem_or_eq_of_mem_set hmem with hmem | heq
    · exact hm.extends.holds (hw.holds hmem)
    · exact Option.some.inj heq ▸ hid
  split
  · exact hw₁
  · have hset : Move t₁ (t₁.setFieldType i field id) :=
      .complete t₁ i field id hid (hw₁.moves.extends.needs hn)
    exact ⟨hw₁.moves.trans hset.moves, fun hmem => hset.extends.holds (hw₁.holds hmem)⟩

/-- The walk that completes the nested tags keeps what each of its rounds keeps, and then settles
the need. -/
lemma completeNestedTags_invariant {P : List (Option TypeId) → TypeTable → Prop} {u : Unit}
    (hr : t.needsTagCompletion = true → ∀ {i field completed completed' t₁ t₂}, P completed t₁ →
      completeField fuel i completed field t₁ = some (completed', t₂) → P completed' t₂)
    (hstart : P (List.replicate t.types.length none) t)
    (h : completeNestedTags fuel t = some (u, t')) :
    t' = t ∨ t.needsTagCompletion = true ∧ ∃ completed t₁, P completed t₁ ∧
      t' = { t₁ with needsTagCompletion := false } := by
  rw [completeNestedTags, get_bind] at h
  split at h
  swap
  · exact .inl (Prod.mk.inj (pure_eq_some.mp h)).2
  rw [completeFields, get_bind] at h
  obtain ⟨completed, t₁, hw, hset⟩ := bind_eq_some.mp h
  cases hset
  refine .inr ⟨‹_›, completed, t₁, foldlM_invariant (P := P) ?_ hstart hw, rfl⟩
  intro completed i u completed' u' hP hrow
  refine foldlM_invariant (P := P) ?_ hP hrow
  exact fun completed field u completed' u' hP hrun => hr ‹_› hP hrun

lemma walked_start (t : TypeTable) : Walked t (List.replicate t.types.length none) t :=
  ⟨.refl, fun hmem => by cases eq_of_mem_replicate hmem⟩

/-- Completing the nested tags makes moves and then settles the need. -/
lemma completeNestedTags_eq_some {u : Unit} (hs : t.Sound)
    (h : completeNestedTags fuel t = some (u, t')) :
    t' = t ∨ t.needsTagCompletion = true ∧ ∃ t₁, Moves t t₁ ∧
      t' = { t₁ with needsTagCompletion := false } := by
  obtain rfl | ⟨hn, completed, t₁, hw, rfl⟩ := completeNestedTags_invariant
    (fun hn {i field completed completed' t₁ t₂} hw hrun => walked_completeField hs hn hw hrun)
    (walked_start t) h
  · exact .inl rfl
  · exact .inr ⟨hn, t₁, hw.moves, rfl⟩

lemma Op.Yields.does {op : Op} (h : op.Yields t t') : op.Does t t' := by
  obtain ⟨fuel, h⟩ := h
  cases op with
  | intern desc =>
    obtain ⟨id, hid⟩ := discard_eq_some h
    exact .intern hid
  | unionLayout kind name fields =>
    obtain ⟨id, hid⟩ := discard_eq_some h
    exact .unionLayout hid
  | completeNestedTags => exact .completeNestedTags h
  | noteGuessedClass _ | declareStruct _ | defineStruct _ | mergeStructDeclarations _
  | compactForHeaderMerge =>
    obtain rfl := modify_eq_some h
    constructor

lemma Op.Yields.sound {op : Op} (h : op.Yields t t') (hs : t.Sound) : t'.Sound := by
  cases h.does with
  | intern hid => exact (interns_intern _ hs hid).1.sound hs
  | noteGuessedClass name => exact hs.noteGuessedClass name
  | declareStruct name => exact hs.declareStruct name
  | defineStruct name => exact hs.defineStruct name
  | unionLayout hid =>
    obtain hm | ⟨t₁, desc, layout, htag, hm, hd, -, -, hfields, rfl⟩ :=
      unionAggregateLayout_eq_some hs hid
    · exact hm.sound hs
    obtain ⟨hlt, hold⟩ := hs.tagged htag
    refine (hm.sound hs).widen (hlt.trans_le hm.extends.length_le) ?_ hd
      fun f hf => (hfields f hf).toHolds
    rw [hm.extends.desc_eq hlt, hold]
  | mergeStructDeclarations other => exact hs.mergeStructDeclarations other
  | completeNestedTags h =>
    obtain rfl | ⟨-, t₁, hm, rfl⟩ := completeNestedTags_eq_some hs h
    · exact hs
    · exact (hm.sound hs).clearNeeds
  | compactForHeaderMerge => exact hs.compactForHeaderMerge

end Operations

/-- A property of the table without entries that interning keeps is one of the new table. -/
lemma TypeTable.new_of_interning {P : TypeTable → Prop} (he : P {})
    (hintern : ∀ {kind t id t'}, t.Sound → P t → intern 1 (.scalar kind) t = some (id, t') → P t') :
    TypeTable.new.Sound ∧ P .new := by
  have hrun (kinds : List Scalar) {t t' : TypeTable} {u : Unit} (hs : t.Sound) (hP : P t)
      (h : (kinds.forM fun kind => discard (intern 1 (.scalar kind)) : TableM Unit) t =
        some (u, t')) :
      t'.Sound ∧ P t' := by
    induction kinds generalizing t with
    | nil =>
      cases pure_eq_some.mp h
      exact ⟨hs, hP⟩
    | cons kind kinds ih =>
      obtain ⟨_, t₁, hf, hr⟩ := bind_eq_some.mp h
      obtain ⟨id, hid⟩ := discard_eq_some hf
      exact ih ((interns_intern 1 hs hid).1.sound hs) (hintern hs hP hid) hr
  have hsound : ({} : TypeTable).Sound :=
    ⟨nofun, nofun, nofun, nofun, fun {i f} h => by
      cases h⟩
  unfold TypeTable.new
  cases h : (Scalar.prelude.forM fun kind => discard (intern 1 (.scalar kind)) : TableM Unit) {}
    with
  | none => exact ⟨hsound, he⟩
  | some r => exact hrun _ hsound he h

/-- Whatever refers to an entry, by tag, descriptor, cache or layout, finds one that answers it. -/
theorem sound_throughout (ops : List Op) : Throughout Op.Yields Sound ops .new := by
  have hrun {t : TypeTable} (hs : t.Sound) : Throughout Op.Yields Sound ops t := by
    induction ops generalizing t with
    | nil => exact hs
    | cons op ops ih => exact ⟨hs, fun t' h => ih (h.sound hs)⟩
  exact hrun (new_of_interning trivial fun _ _ _ => trivial).1

end Pathologist.Types

import Pathologist.Types.Fresh
import Pathologist.Types.Tags

/-!
# Interning without shortcuts

The plain definition completes the tag at the end of a chain, looks the result up and appends it
if it is missing. `intern` answers earlier where it can: descriptors that are not rewritten are
looked up as they are, tags are answered by their entry, answers are kept, and shared
descriptors are known by their address. On every table that operations lead to, a compacted
header apart, both return the same and leave the same entries, index and tags.
-/
namespace Pathologist.Types

open TypeTable Lib.Stateful

/-- The plain definition of interning. -/
def internPlain : ℕ → TypeDesc → TableM TypeId
  | 0, _ => failure
  | fuel + 1, desc => do
    let canonical := (← get).canonicalize desc
    internLiteral (computeLayout (internPlain fuel)) canonical

namespace TypeTable

/-- Tables that differ in the need for completion and in the answers that are kept. -/
def Same (t u : TypeTable) : Prop :=
  u = { t with canonical := u.canonical, needsTagCompletion := u.needsTagCompletion }

namespace Same
variable {t u : TypeTable}

lemma refl (t : TypeTable) : Same t t := rfl

variable (h : Same t u)
include h

lemma trans {v : TypeTable} (h' : Same u v) : Same t v := by
  obtain ⟨memo, need, rfl⟩ : ∃ memo need, u = { t with
    canonical := memo, needsTagCompletion := need } := ⟨_, _, h⟩
  exact h'

lemma types_eq : u.types = t.types := by rw [h]

lemma interned_eq : u.interned = t.interned := by rw [h]

lemma info_eq (id : TypeId) : u.info id = t.info id := info_of_types h.types_eq id

lemma desc_eq (id : TypeId) : u.desc id = t.desc id :=
  congrArg TypeInfo.desc (h.info_eq id)

lemma tags_eq : u.tags = t.tags := by rw [h]

lemma canonicalize_eq : u.canonicalize = t.canonicalize := by
  have hdesc : u.desc = t.desc := funext h.desc_eq
  funext d
  rw [TypeTable.canonicalize_eq, TypeTable.canonicalize_eq]
  simp [canonicalState, typeIdByTag, h.tags_eq, hdesc]

lemma rememberCanonical (key : TypeDesc) (id : TypeId) : Same (t.rememberCanonical key id) u := h

lemma noteNamedTag (id : TypeId) : Same (t.noteNamedTag id) (u.noteNamedTag id) := by
  obtain ⟨memo, need, rfl⟩ : ∃ memo need, u = { t with
    canonical := memo, needsTagCompletion := need } := ⟨_, _, h⟩
  have hguess (n : Ident) : ({ t with canonical := memo, needsTagCompletion := need } :
    TypeTable).IsGuessed n ↔ t.IsGuessed n := Iff.rfl
  unfold TypeTable.noteNamedTag
  rw [h.desc_eq]
  cases (t.desc id).tag with
  | none => rfl
  | some tag =>
    obtain ⟨kind, name⟩ := tag
    dsimp only
    by_cases hn : t.IsGuessed name
    · rw [if_pos hn, if_pos ((hguess name).mpr hn)]
      rfl
    rw [if_neg hn, if_neg (mt (hguess name).mp hn)]
    dsimp [typeIdByTag]
    cases t.tags kind name with
    | none => rfl
    | some old =>
      dsimp only
      rw [h.info_eq, h.info_eq]
      split <;> rfl

lemma push (d : TypeDesc) (layout : Layout) : Same (t.push d layout) (u.push d layout) := by
  have happend : Same (t.append d layout) (u.append d layout) := by
    rw [h]
    rfl
  rw [TypeTable.push, TypeTable.push, h.types_eq]
  exact happend.noteNamedTag _

end Same

end TypeTable

/-- Two ways to intern that agree on the indexed tables. -/
def Refines (intern intern' : TypeDesc → TableM TypeId) : Prop :=
  ∀ {d t u}, t.Sound → t.Indexed → Same t u → Agree Same (intern d t) (intern' d u)

section Refinement
variable {intern intern' : TypeDesc → TableM TypeId}

mutual
lemma agree_computeLayout (hintern : Interns intern) (hindexes : Indexes intern)
    (hr : Refines intern intern') : ∀ (d : TypeDesc) {t u : TypeTable}, t.Sound → t.Indexed →
      Same t u → Agree Same (computeLayout intern d t) (computeLayout intern' d u)
  | .scalar _, _, _, _, _, hsame | .ptr _, _, _, _, _, hsame | .fnPtr _ _, _, _, _, _, hsame =>
    .of_pure _ hsame
  | .array elem _, _, _, hs, h, hsame =>
    (agree_computeLayout hintern hindexes hr elem hs h hsame).bind fun _ hsame => .of_pure _ hsame
  | .struct _ fields, _, _, hs, h, hsame | .union _ fields, _, _, hs, h, hsame =>
    (agree_placeFields hintern hindexes hr fields {} hs h hsame).bind fun _ hsame =>
      .of_pure _ hsame
lemma agree_placeFields (hintern : Interns intern) (hindexes : Indexes intern)
    (hr : Refines intern intern') : ∀ (fields : List (Ident × TypeDesc)) (p : Placement)
      {t u : TypeTable}, t.Sound → t.Indexed → Same t u →
      Agree Same (placeFields intern fields p t) (placeFields intern' fields p u)
  | [], p, _, _, _, _, hsame => .of_pure p hsame
  | (name, d) :: rest, p, t, u, hs, h, hsame => by
    refine (hr hs h hsame).bind fun {id t₁ u₁} hid hsa₁ => ?_
    have hs₁ := (hintern hs hid).1.sound hs
    have h₁ := (hindexes hs h hid).1.indexed
    refine (agree_computeLayout hintern hindexes hr d hs₁ h₁ hsa₁).bind
      fun {inner t₂ u₂} hinner hsa₂ => ?_
    have hadds := adds_visits hintern hindexes hs₁ h₁ (Visits.of_computeLayout hinner)
    exact agree_placeFields hintern hindexes hr rest _ (hadds.2.sound hs₁) hadds.1.indexed hsa₂
end

lemma agree_internLiteral {layoutOf layoutOf' : TypeDesc → TableM Layout} {d : TypeDesc}
    {t u : TypeTable} (hl : Agree Same (layoutOf d t) (layoutOf' d u)) (hs : Same t u) :
    Agree Same (internLiteral layoutOf d t) (internLiteral layoutOf' d u) := by
  rw [internLiteral, internLiteral, get_bind, get_bind, hs.interned_eq]
  cases t.interned d with
  | some id => exact .of_pure id hs
  | none =>
    refine hl.bind fun {layout t₁ u₁} _ hs₁ => ?_
    rw [get_bind, get_bind, hs₁.types_eq]
    exact .some ⟨rfl, hs₁.push d layout⟩

end Refinement

section Shortcuts
variable {t : TypeTable}

lemma exists_internedAsIs (d : TypeDesc) (t : TypeTable) :
    ∃ r t', internedAsIs d t = some (r, t') := by
  unfold internedAsIs
  split
  · exact ⟨_, _, rfl⟩
  · rw [get_bind]
    cases t.interned d <;> exact ⟨_, _, rfl⟩

lemma exists_internedAsTag (d : TypeDesc) (t : TypeTable) :
    ∃ r t', internedAsTag d t = some (r, t') := by
  rw [internedAsTag, get_bind]
  cases t.lookupTagRef d <;> exact ⟨_, _, rfl⟩

lemma exists_internedBefore (d : TypeDesc) (t : TypeTable) :
    ∃ r t', internedBefore d t = some (r, t') := by
  rw [internedBefore, get_bind]
  cases if d.canonicalizeMayRewrite then t.canonical d else none with
  | none => exact ⟨_, _, rfl⟩
  | some answer =>
    dsimp only
    split <;> exact ⟨_, _, rfl⟩

lemma same_noteNeed {named : Bool} {t' : TypeTable} (h : noteNeed named t = some ((), t')) :
    Same t' t := by
  rw [noteNeed_eq_some h]
  split <;> rfl

/-- A shortcut answers with the entry of the canonical form, and otherwise there is none. -/
lemma internWith_cases (layoutOf : TypeDesc → TableM Layout) (d : TypeDesc) (h : t.Indexed) :
    (∃ id t', internWith layoutOf d t = some (id, t') ∧ t.interned (t.canonicalize d) = some id ∧
      Same t' t) ∨ internWith layoutOf d t = internCanonical layoutOf d t := by
  obtain ⟨r₁, t₁, h₁⟩ := exists_internedAsIs d t
  rw [internWith, bind_of_eq h₁]
  obtain ⟨rfl, rfl, -⟩ | ⟨id, rfl, hr, hd, hn⟩ := internedAsIs_eq_some h₁
  swap
  · refine .inl ⟨id, t₁, rfl, ?_, same_noteNeed hn⟩
    rw [t.canonicalize_of_not_mayRewrite hr]
    exact hd
  obtain ⟨r₂, t₂, h₂⟩ := exists_internedAsTag d t₁
  dsimp only
  rw [bind_of_eq h₂]
  obtain ⟨rfl, rfl, -⟩ | ⟨id, rfl, hd, rfl⟩ := internedAsTag_eq_some h₂
  swap
  · exact .inl ⟨id, _, rfl, interned_of_lookupTagRef h hd, rfl⟩
  obtain ⟨r₃, t₃, h₃⟩ := exists_internedBefore d t₂
  dsimp only
  rw [bind_of_eq h₃]
  obtain ⟨rfl, rfl⟩ | ⟨answer, rfl, -, hd, hs, rfl⟩ := internedBefore_eq_some h₃
  swap
  · exact .inl ⟨answer.id, _, rfl, interned_of_cached h hd hs, rfl⟩
  exact .inr rfl

end Shortcuts

lemma refines_intern (fuel : ℕ) : Refines (intern fuel) (internPlain fuel) := by
  induction fuel with
  | zero => exact fun _ _ _ => .none
  | succ fuel ih =>
    intro d t u hs h hsame
    rw [intern, internPlain, get_bind, hsame.canonicalize_eq]
    obtain ⟨id, t', hrun, hid, hsa'⟩ | hrun := internWith_cases (computeLayout (intern fuel)) d h
    · rw [hrun, internLiteral, get_bind, hsame.interned_eq, hid]
      exact .some ⟨rfl, hsa'.trans hsame⟩
    rw [hrun, internCanonical, get_bind]
    obtain ⟨t₁, hn⟩ : ∃ t₁, noteNeed (t.canonicalize d).hasNamedTag t = some ((), t₁) := ⟨_, rfl⟩
    have hs₁ := (moves_noteNeed hn).1.sound hs
    have h₁ := (adds_noteNeed h hn).indexed
    have hsa₁ := (same_noteNeed hn).trans hsame
    have hlayout := agree_computeLayout (interns_intern fuel) (indexes_intern fuel) ih
      (t.canonicalize d) hs₁ h₁ hsa₁
    rw [bind_of_eq hn]
    refine (agree_internLiteral hlayout hsa₁).bind_modify fun {id t₂ u₂} hsa₂ => ?_
    split
    · exact hsa₂.rememberCanonical d id
    · exact hsa₂

lemma internRef_eq (fuel : ℕ) (d : TypeDesc) (t : TypeTable) :
    internRef fuel d t = intern (fuel + 1) d t := by
  obtain ⟨r₁, t₁, h₁⟩ := exists_internedAsIs d t
  rw [internRef, intern, internWith, bind_of_eq h₁, bind_of_eq h₁]
  obtain ⟨rfl, rfl, hmissing⟩ | ⟨id, rfl, -, -, -⟩ := internedAsIs_eq_some h₁
  swap
  · rfl
  obtain ⟨r₂, t₂, h₂⟩ := exists_internedAsTag d t₁
  dsimp only
  rw [bind_of_eq h₂, bind_of_eq h₂]
  obtain ⟨rfl, rfl, -⟩ | ⟨id, rfl, -, rfl⟩ := internedAsTag_eq_some h₂
  swap
  · rfl
  dsimp only
  cases hr : d.canonicalizeMayRewrite with
  | true =>
    change internWith (computeLayout (intern fuel)) d t₂ = _
    rw [internWith, bind_of_eq h₁]
    dsimp only
    rw [bind_of_eq h₂]
  | false =>
    have hbefore : internedBefore d t₂ = some (none, t₂) := by
      rw [internedBefore, hr]
      rfl
    rw [if_neg Bool.false_ne_true, bind_of_eq hbefore]
    dsimp only
    rw [internCanonical, get_bind, t₂.canonicalize_of_not_mayRewrite hr]
    obtain ⟨t₃, hn⟩ : ∃ t₃, noteNeed d.hasNamedTag t₂ = some ((), t₃) := ⟨_, rfl⟩
    have hmis₃ : t₃.interned d = none := by
      rw [← (same_noteNeed hn).interned_eq]
      exact hmissing hr
    rw [bind_of_eq hn, bind_of_eq hn, hr]
    have hliteral : internLiteral (computeLayout (intern fuel)) d t₃ =
        internShared (computeLayout (intern fuel)) d t₃ := by
      rw [internLiteral, get_bind, hmis₃]
    -- nothing is kept for a descriptor that is not rewritten
    change _ = (internLiteral (computeLayout (intern fuel)) d t₃).bind _
    rw [hliteral]
    cases internShared (computeLayout (intern fuel)) d t₃ <;> rfl

lemma internArc_eq {t : TypeTable} (h : t.Indexed) (fuel : ℕ) (arc : SharedDesc) :
    internArc fuel arc t = intern (fuel + 1) arc.desc t := by
  rw [internArc, get_bind, h.byPtr]
  cases hr : arc.desc.canonicalizeMayRewrite || !arc.pooled with
  | true => exact internRef_eq fuel arc.desc t
  | false =>
    rw [if_neg nofun]
    cases hd : t.interned arc.desc with
    | none => exact internRef_eq fuel arc.desc t
    | some id =>
      have hfalse : arc.desc.canonicalizeMayRewrite = false := (Bool.or_eq_false_iff.mp hr).1
      have hfound : internedAsIs arc.desc t =
          (do noteNeed arc.desc.hasNamedTag; pure (some id) : TableM (Option TypeId)) t := by
        unfold internedAsIs
        rw [hfalse, if_neg nofun, get_bind, hd]
      obtain ⟨t₁, hn⟩ : ∃ t₁, noteNeed arc.desc.hasNamedTag t = some ((), t₁) := ⟨_, rfl⟩
      rw [bind_of_eq hn] at hfound
      rw [intern, internWith, bind_of_eq hfound]
      dsimp only
      rw [bind_of_eq hn]

namespace TypeTable.Indexed
variable {t : TypeTable} (h : t.Indexed)
include h

lemma noteGuessedClass (hs : t.Sound) (name : Ident) : (t.noteGuessedClass name).Indexed := by
  obtain ⟨-, heq⟩ | ⟨-, -, heq⟩ | ⟨-, -, kind, id, hid, -, heq⟩ := noteGuessedClass_cases t name
  · rwa [heq]
  · rw [heq]
    exact ⟨h.byPtr, h.tagged, h.closed, h.cached, h.withheld⟩
  rw [heq]
  refine ⟨h.byPtr, fun {k n j} hj => ?_, h.closed, h.cached, fun {n j} hj => ?_⟩
  · dsimp only at hj
    split at hj
    · cases hj
    · exact h.tagged hj
  dsimp only at hj
  split at hj
  · cases hj
    exact .inl (h.tagged hid)
  -- the tag of another name is as it was
  refine (h.withheld hj).imp_right ?_
  rintro ⟨k, m, old, htag, hold, hr⟩
  obtain ⟨-, ⟨k', htag'⟩, -⟩ := hs.withheld hj
  obtain ⟨-, rfl⟩ := Prod.mk.inj (Option.some.inj (htag.symm.trans htag'))
  refine ⟨k, m, old, htag, ?_, hr⟩
  dsimp only
  rw [if_neg fun hkm => ‹¬ m = name› hkm.2, hold]

lemma declareStruct (name : Ident) : (t.declareStruct name).Indexed := by
  obtain ⟨-, heq⟩ | ⟨-, -, heq⟩ | ⟨-, id, hid, heq⟩ := declareStruct_cases t name
  · rwa [heq]
  · rw [heq]
    exact ⟨h.byPtr, h.tagged, h.closed, h.cached, h.withheld⟩
  have htake : (t.takeWithheld name).Indexed := by
    refine ⟨h.byPtr, h.tagged, h.closed, h.cached, fun {n j} hj => ?_⟩
    simp only [takeWithheld] at hj
    split at hj
    · cases hj
    · exact h.withheld hj
  rw [heq]
  exact htake.noteNamedTag (h.withheld hid)

lemma defineStruct (name : Ident) : (t.defineStruct name).Indexed := by
  have hdeclare := h.declareStruct name
  unfold TypeTable.defineStruct
  split
  · exact h
  · exact ⟨hdeclare.byPtr, hdeclare.tagged, hdeclare.closed, hdeclare.cached, hdeclare.withheld⟩

lemma mergeStructDeclarations (other : TypeTable) : (t.mergeStructDeclarations other).Indexed := by
  have hdeclare : (other.declaredStructs.foldl TypeTable.declareStruct t).Indexed :=
    List.foldlRecOn _ _ h fun _ h name _ => h.declareStruct name
  exact ⟨hdeclare.byPtr, hdeclare.tagged, hdeclare.closed, hdeclare.cached, hdeclare.withheld⟩

lemma setFieldType (i field : ℕ) (id : TypeId) : (t.setFieldType i field id).Indexed := by
  have hrich (j : TypeId) :
      tagRichness ((t.setFieldType i field id).info j) = tagRichness (t.info j) := by
    rw [info_setFieldType]
    split
    · simp [tagRichness, layoutFields]
    · rfl
  refine ⟨h.byPtr, fun hj => ?_, h.closed, h.cached, fun {n j} hj => ?_⟩
  · rw [desc_setFieldType]
    exact h.tagged hj
  · unfold Registrable
    simp only [desc_setFieldType, hrich]
    exact h.withheld hj

/-- An entry gets the wider descriptor `desc`, which no other tag has. -/
lemma widen {id : TypeId} {desc : TypeDesc} {layout : Layout} {k : TagKind} {n : Ident}
    (hs : t.Sound) (hf : t.Full) (hid : id < t.types.length) (hdesc : desc.tag = some (k, n))
    (hgrow : (t.desc id).fields.length ≤ desc.fields.length)
    (hp : ∀ part ∈ desc.parts, t.Settled part)
    (ho : ∀ {k n j}, t.tags k n = some j → t.desc j = desc → j = id)
    (hg : t.IsGuessed n → t.tags k n = some id) : (t.widen id desc layout).Indexed := by
  have hself : (t.replace id desc layout).info id = ⟨desc, layout⟩ := info_replace_self hid
  have hdescself : (t.replace id desc layout).desc id = desc := congrArg TypeInfo.desc hself
  have hkey : (t.replace id desc layout).interned desc = some id := by
    simp [replace]
  have hother {d : TypeDesc} (hne : d ≠ desc) :
      (t.replace id desc layout).interned d = t.interned d := by
    simp [replace, hne]
  have hdescother {j : TypeId} (hne : j ≠ id) : (t.replace id desc layout).desc j = t.desc j :=
    congrArg TypeInfo.desc (info_replace_of_ne hne)
  have hsettled {d : TypeDesc} (hd : t.Settled d) : (t.replace id desc layout).Settled d := by
    refine hd.imp_right fun hsome => ?_
    by_cases hne : d = desc
    · rw [hne, hkey]
      rfl
    · rwa [hother hne]
  -- no entry is poorer than it was
  have hricher {j : TypeId} (hj : j < t.types.length) :
      tagRichness (t.info j) ≤ tagRichness ((t.replace id desc layout).info j) := by
    by_cases hne : j = id
    · rw [hne, hf.tagRichness_eq hid, hself]
      exact hgrow.trans (le_max_right _ _)
    · rw [info_replace_of_ne hne]
  have hreplace : (t.replace id desc layout).Indexed := by
    refine ⟨by simp [replace, h.byPtr], fun {k n j} hj => ?_, fun {d j} hd e he => ?_,
      fun {key a} ha => ?_, fun {m j} hj => ?_⟩
    · by_cases hne : j = id
      · rw [hne, hdescself, hkey]
      · rw [hdescother hne, hother fun heq => hne (ho hj heq)]
        exact h.tagged hj
    · by_cases hne : d = desc
      · exact hsettled (hp e (hne ▸ he))
      · rw [hother hne] at hd
        exact hsettled (h.closed hd e he)
    · have hle : a.epoch ≤ t.unionEpoch := (h.cached ha).1
      exact ⟨hle.trans (Nat.le_succ _), fun heq => absurd heq (Nat.lt_succ_of_le hle).ne⟩
    obtain ⟨hlt, ⟨k', htag⟩, hguess⟩ := hs.withheld hj
    by_cases hne : j = id
    · left
      rw [hne, hdescself, hkey]
    unfold Registrable
    rw [hdescother hne, info_replace_of_ne hne]
    by_cases heq : t.desc j = desc
    · -- the entry withheld is no richer than the one that is widened, which has the tag
      obtain ⟨rfl, rfl⟩ := Prod.mk.inj (Option.some.inj (htag.symm.trans (heq ▸ hdesc)))
      refine .inr ⟨k', m, id, htag, hg hguess, ?_⟩
      rw [hf.tagRichness_eq hlt, heq, hself]
      exact le_max_right _ _
    · rw [hother heq]
      refine (h.withheld hj).imp_right ?_
      rintro ⟨k₁, n₁, old, htag₁, hold, hr⟩
      exact ⟨k₁, n₁, old, htag₁, hold, hr.trans (hricher (hs.tagged hold).1)⟩
  refine (hreplace.noteNamedTag (.inl ?_)).setNeedsTagCompletion
  rw [hdescself, hkey]

end TypeTable.Indexed

section Steps
variable {t t' : TypeTable} {fuel : ℕ}

lemma indexed_unionAggregateLayout {kind : TagKind} {name : Ident}
    {fields : List (Ident × TypeDesc)} {id : TypeId} (hs : t.Sound) (hf : t.Full) (h : t.Indexed)
    (hrun : unionAggregateLayout fuel kind name fields t = some (id, t')) : t'.Indexed := by
  obtain ⟨desc, hid⟩ | rfl | ⟨t₁, desc, layout, htag, hl, hd, hle, rfl⟩ :=
    unionAggregateLayout_cases hrun
  · exact (indexes_intern fuel hs h hid).1.indexed
  · exact h
  obtain ⟨hlt, -⟩ := hs.tagged htag
  have hvisits := Visits.of_computeLayout hl
  obtain ⟨ha, hm⟩ := adds_visits (interns_intern fuel) (indexes_intern fuel) hs h hvisits
  have hs₁ := hm.sound hs
  refine ha.indexed.widen hs₁ (hm.full hf) (hlt.trans_le hm.extends.length_le) hd ?_
    ha.settled (fun {k n j} hj heq => ?_) fun hg => ?_
  · rw [hm.extends.desc_eq hlt, ← hf.laid hlt]
    exact hle
  · -- a tag that the layout changed has another descriptor, which was new
    cases (hs₁.tagged hj).2.symm.trans (heq ▸ hd)
    obtain hold | ⟨-, hmissing⟩ := ha.grown.tags hj
    · exact Option.some.inj (hold.symm.trans htag)
    rw [heq] at hmissing
    have hmis₁ :=
      missing_of_visits (interns_intern fuel) (indexes_intern fuel) hs h hmissing hvisits
    rw [← heq, ha.indexed.tagged hj] at hmis₁
    cases hmis₁
  · rw [ha.grown.guessed (hm.extends.isGuessed_iff.mp hg), htag]

lemma indexed_completeTypeId {old id : TypeId} (hs : t.Sound) (h : t.Indexed)
    (hrun : completeTypeId fuel old t = some (id, t')) : t'.Indexed := by
  obtain ⟨inner, -, -, heq⟩ | ⟨inner, -, -, heq⟩ | ⟨-, heq⟩ := completeTypeId_cases fuel old t
  · cases heq.symm.trans hrun
    exact h
  · exact (indexes_intern fuel hs h (heq.symm.trans hrun)).1.indexed
  · cases heq.symm.trans hrun
    exact h

lemma indexed_completeNestedTags {u : Unit} (hs : t.Sound) (h : t.Indexed)
    (hrun : completeNestedTags fuel t = some (u, t')) : t'.Indexed := by
  have hround (hn : t.needsTagCompletion = true) {i field : ℕ}
      {completed completed' : List (Option TypeId)} {t₁ t₂ : TypeTable}
      (hP : Walked t completed t₁ ∧ t₁.Indexed)
      (hround : completeField fuel i completed field t₁ = some (completed', t₂)) :
      Walked t completed' t₂ ∧ t₂.Indexed := by
    obtain ⟨hw, h₁⟩ := hP
    refine ⟨walked_completeField hs hn hw hround, ?_⟩
    obtain ⟨old, id, t₃, -, ha, rfl⟩ := completeField_eq_some hround
    have h₃ : t₃.Indexed := by
      obtain ⟨-, -, rfl⟩ | ⟨-, hid, -⟩ := ha
      · exact h₁
      · exact indexed_completeTypeId (hw.moves.sound hs) h₁ hid
    split
    · exact h₃
    · exact h₃.setFieldType i field id
  obtain rfl | ⟨-, completed, t₁, ⟨-, h₁⟩, rfl⟩ := completeNestedTags_invariant
    (P := fun completed u => Walked t completed u ∧ u.Indexed) hround ⟨walked_start t, h⟩ hrun
  · exact h
  · exact ⟨h₁.byPtr, h₁.tagged, h₁.closed, h₁.cached, h₁.withheld⟩

lemma Op.Yields.indexed {op : Op} (hstep : op.Yields t t') (hop : op ≠ .compactForHeaderMerge)
    (hs : t.Sound) (hf : t.Full) (h : t.Indexed) : t'.Indexed := by
  cases hstep.does with
  | intern hid => exact (indexes_intern _ hs h hid).1.indexed
  | noteGuessedClass name => exact h.noteGuessedClass hs name
  | declareStruct name => exact h.declareStruct name
  | defineStruct name => exact h.defineStruct name
  | unionLayout hid => exact indexed_unionAggregateLayout hs hf h hid
  | mergeStructDeclarations other => exact h.mergeStructDeclarations other
  | completeNestedTags hrun => exact indexed_completeNestedTags hs h hrun
  | compactForHeaderMerge => exact absurd rfl hop

end Steps

/-- What a user of the table calls: an operation, or interning by reference or by address. -/
inductive Call
  | operate (op : Op)
  | internRef (desc : TypeDesc)
  | internArc (arc : SharedDesc)

def Call.apply (fuel : ℕ) : Call → TableM Unit
  | .operate op => op.apply fuel
  | .internRef desc => discard (Types.internRef fuel desc)
  | .internArc arc => discard (Types.internArc fuel arc)

def Call.Yields (call : Call) (t t' : TypeTable) : Prop := ∃ fuel, call.apply fuel t = some ((), t')

/-- On an indexed table every call is an operation. -/
lemma Call.Yields.exists_op {call : Call} {t t' : TypeTable} (h : t.Indexed) (hs : call.Yields t t')
    (hc : call ≠ .operate .compactForHeaderMerge) :
    ∃ op : Op, op ≠ .compactForHeaderMerge ∧ op.Yields t t' := by
  obtain ⟨fuel, hrun⟩ := hs
  cases call with
  | operate op => exact ⟨op, fun heq => hc (heq ▸ rfl), fuel, hrun⟩
  | internRef desc =>
    obtain ⟨id, hid⟩ := discard_eq_some hrun
    rw [internRef_eq] at hid
    exact ⟨.intern desc, nofun, fuel + 1, discard_of_eq hid⟩
  | internArc arc =>
    obtain ⟨id, hid⟩ := discard_eq_some hrun
    rw [internArc_eq h] at hid
    exact ⟨.intern arc.desc, nofun, fuel + 1, discard_of_eq hid⟩

/-- The id that is returned, and the entries, the index and the tags that are left. -/
def visible (r : TypeId × TypeTable) :
    TypeId × List TypeInfo × (TypeDesc → Option TypeId) × (TagKind → Ident → Option TypeId) :=
  (r.1, r.2.types, r.2.interned, r.2.tags)

/-- The ways to intern are the plain one, and an entry that a tag maps to is interned under its
descriptor. -/
structure InternsPlainly (t : TypeTable) : Prop where
  intern : ∀ fuel d, (Types.intern fuel d t).map visible = (internPlain fuel d t).map visible
  internRef : ∀ fuel d,
    (Types.internRef fuel d t).map visible = (internPlain (fuel + 1) d t).map visible
  internArc : ∀ fuel arc,
    (Types.internArc fuel arc t).map visible = (internPlain (fuel + 1) arc.desc t).map visible
  tagged : ∀ k n id, t.tags k n = some id → t.interned (t.desc id) = some id

lemma TypeTable.Indexed.internsPlainly {t : TypeTable} (hs : t.Sound) (h : t.Indexed) :
    InternsPlainly t := by
  have hvisible {r r' : Option (TypeId × TypeTable)} (hr : Agree Same r r') :
      r.map visible = r'.map visible := by
    cases hr with
    | none => rfl
    | @some p q hpq =>
      obtain ⟨hid, hsame⟩ := hpq
      simp [visible, hid, hsame.types_eq, hsame.interned_eq, hsame.tags_eq]
  have hintern (fuel : ℕ) (d : TypeDesc) :
      (Types.intern fuel d t).map visible = (internPlain fuel d t).map visible :=
    hvisible (refines_intern fuel hs h (.refl t))
  refine ⟨hintern, fun fuel d => ?_, fun fuel arc => ?_, fun k n id hid => h.tagged hid⟩
  · rw [internRef_eq]
    exact hintern (fuel + 1) d
  · rw [internArc_eq h]
    exact hintern (fuel + 1) arc.desc

lemma indexed_new : TypeTable.new.Sound ∧ TypeTable.new.Indexed :=
  new_of_interning (P := Indexed) ⟨rfl, nofun, nofun, nofun, nofun⟩
    fun hs h hid => (indexes_intern 1 hs h hid).1.indexed

/-- Until a table is compacted its shortcuts answer as the plain definition does. -/
theorem internsPlainly_throughout (calls : List Call)
    (hcalls : .operate .compactForHeaderMerge ∉ calls) :
    Throughout Call.Yields InternsPlainly calls .new := by
  have hrun {t : TypeTable} (hs : t.Sound) (hf : t.Full) (h : t.Indexed) :
      Throughout Call.Yields InternsPlainly calls t := by
    induction calls generalizing t with
    | nil => exact h.internsPlainly hs
    | cons call calls ih =>
      refine ⟨h.internsPlainly hs, fun t' hstep => ?_⟩
      have hcall : call ≠ .operate .compactForHeaderMerge :=
        fun heq => hcalls (heq ▸ List.mem_cons_self)
      obtain ⟨op, hop, hyields⟩ := hstep.exists_op h hcall
      exact ih (fun hmem => hcalls (List.mem_cons_of_mem _ hmem)) (hyields.sound hs)
        (hyields.full hop hs hf) (hyields.indexed hop hs hf h)
  exact hrun full_new.1 full_new.2.1 indexed_new.2

/-- Two ways to intern an array of a tag that is completed in between. -/
theorem internsPlainly_of_completed : Throughout Call.Yields InternsPlainly
    [.internRef (.array (.struct ['N'] []) none),
      .operate (.unionLayout .struct ['N'] [(['x'], .scalar .int)]),
      .internArc ⟨.array (.struct ['N'] []) none, true⟩] .new := by
  refine internsPlainly_throughout _ ?_
  rintro (_ | ⟨_, _ | ⟨_, _ | ⟨_, ⟨⟩⟩⟩⟩)

/-- A class is guessed and spelled before its header is compacted, and then declared. -/
def declaredAfterCompaction : List Call :=
  [.operate (.noteGuessedClass ['N']), .operate (.intern (.struct ['N'] [(['x'], .scalar .int)])),
    .operate .compactForHeaderMerge, .operate (.declareStruct ['N'])]

/-- The declaration registers an entry that the index has lost. -/
theorem internsPlainly_fails_of_compaction :
    ¬ Throughout Call.Yields InternsPlainly declaredAfterCompaction .new := by
  intro h
  have hrun : (runAll (Call.apply 2) declaredAfterCompaction .new).map (fun t =>
      decide (t.tags .struct ['N'] = some 11) && (t.interned (t.desc 11)).isNone) = some true := by
    decide +kernel
  obtain ⟨t, ht, hcheck⟩ := Option.map_eq_some_iff.mp hrun
  simp only [Bool.and_eq_true, decide_eq_true_eq, Option.isNone_iff_eq_none] at hcheck
  obtain ⟨htag, hnone⟩ := hcheck
  have hplain : InternsPlainly t := h.last (fun hcall => ⟨2, hcall⟩) ht
  exact absurd (hnone.symm.trans (hplain.tagged .struct ['N'] 11 htag)) nofun

end Pathologist.Types

import Mathlib.Data.Set.Basic
import Pathologist.Types.Parts

/-!
# No descriptor gets two entries

Interning a missing descriptor lays it out first, and only then gives it an entry. Were the
layout to intern the very same descriptor, there would be two entries, and the answers and the
tags recorded for the first would be stale. This module shows that it does not happen: a layout
interns smaller descriptors, and descriptors that completing a tag leads to; if those led back
to the descriptor itself, the layout would not return.
-/
open List Option
namespace Pathologist.Types
open TypeDesc

namespace TypeDesc

/-- The chain with another descriptor at its end. -/
def withLeaf (inner : Option TypeDesc) : TypeDesc → TypeDesc
  | ptr d => ptr (withLeaf inner d)
  | array d size => array (withLeaf inner d) size
  | d => inner.getD d

lemma withLeaf_none (d : TypeDesc) : d.withLeaf none = d := by
  induction d using chain_induction with
  | ptr _ ih | array _ _ ih => rw [withLeaf, ih]
  | scalar _ | fnPtr _ _ | struct _ _ | union _ _ => rfl

lemma leaf_withLeaf (d e : TypeDesc) : (d.withLeaf (some e)).leaf = e.leaf := by
  induction d using chain_induction with
  | ptr _ ih | array _ _ ih => exact ih
  | scalar _ | fnPtr _ _ | struct _ _ | union _ _ => rfl

variable {d : TypeDesc}

lemma canonicalizeMayRewrite_iff : d.canonicalizeMayRewrite = true ↔ d.chainLeaf.isSome = true := by
  induction d using chain_induction with
  | ptr _ ih | array _ _ ih => exact ih
  | struct name fields | union name fields =>
    cases fields <;> cases name <;>
      simp [canonicalizeMayRewrite, chainLeaf, emptyTag, fields, TypeDesc.tag]
  | scalar _ | fnPtr _ _ => rfl

variable {tag : TagKind × Ident}

lemma emptyTag_of_tag (hd : d.canonicalizeMayRewrite = true) (h : d.tag = some tag) :
    d.emptyTag = some tag := by
  by_cases hf : d.fields = []
  · rw [emptyTag, if_pos hf, h]
  · rw [canonicalizeMayRewrite_eq_false hf] at hd
    cases hd

lemma eq_of_emptyTag (hd : d.emptyTag = some tag) : d = aggregateDesc tag.1 tag.2 [] := by
  obtain ⟨hf, htag⟩ := tag_of_emptyTag hd
  cases d with
  | struct name fields | union name fields =>
    obtain rfl : fields = [] := hf
    simp only [TypeDesc.tag] at htag
    split at htag
    · cases htag
    · cases htag
      rfl
  | scalar _ | ptr _ | array _ _ | fnPtr _ _ => cases htag

lemma withLeaf_self {e : TypeDesc} (hd : d.chainLeaf = some tag) (he : e.emptyTag = some tag) :
    d.withLeaf (some e) = d := by
  induction d using chain_induction with
  | ptr _ ih | array _ _ ih => rw [withLeaf, ih hd]
  | struct _ _ | union _ _ => exact (eq_of_emptyTag he).trans (eq_of_emptyTag hd).symm
  | scalar _ | fnPtr _ _ => cases hd

end TypeDesc

namespace TypeTable

/-- Completion puts the descriptor of the registered tag at the end of the chain. -/
lemma canonicalize_eq (t : TypeTable) (d : TypeDesc) :
    t.canonicalize d = d.withLeaf (t.canonicalState d).2.1 := by
  -- at the end of the chain the state is the lookup of the tag
  have hend (d : TypeDesc) :
      (t.lookupTagRef d).elim d t.desc = ((t.lookupTagRef d).map t.desc).getD d := by
    cases t.lookupTagRef d <;> rfl
  induction d using chain_induction with
  | ptr _ ih => exact congrArg ptr ih
  | array _ size ih => exact congrArg (array · size) ih
  | scalar _ | fnPtr _ _ => rfl
  | struct name fields => exact hend (.struct name fields)
  | union name fields => exact hend (.union name fields)

variable {d : TypeDesc}

lemma canonicalize_of_not_mayRewrite (t : TypeTable) (h : d.canonicalizeMayRewrite = false) :
    t.canonicalize d = d := by
  have hleaf : d.chainLeaf = none := by
    rw [← not_isSome_iff_eq_none, ← canonicalizeMayRewrite_iff, h]
    exact nofun
  rw [canonicalize_eq]
  simp only [canonicalState, hleaf, bind_none]
  exact withLeaf_none d

/-- A descriptor whose interning lays out nothing that is new: completion may rewrite it, or the
table has it. -/
def Settled (t : TypeTable) (d : TypeDesc) : Prop :=
  d.canonicalizeMayRewrite = true ∨ (t.interned d).isSome = true

/-- An entry that may be registered: its descriptor names it, or its tag has a richer entry. -/
def Registrable (t : TypeTable) (id : TypeId) : Prop :=
  t.interned (t.desc id) = some id ∨ ∃ k n j, (t.desc id).tag = some (k, n) ∧ t.tags k n = some j ∧
    tagRichness (t.info id) ≤ tagRichness (t.info j)

/-- The indices of the table agree with its entries. -/
structure Indexed (t : TypeTable) : Prop where
  byPtr : t.byPtr = t.interned
  tagged : ∀ {k n id}, t.tags k n = some id → t.interned (t.desc id) = some id
  closed : ∀ {d id}, t.interned d = some id → ∀ e ∈ d.parts, t.Settled e
  cached : ∀ {key a}, t.canonical key = some a → a.epoch ≤ t.unionEpoch ∧
    (a.epoch = t.unionEpoch → t.interned (key.withLeaf a.tagDesc) = some a.id)
  withheld : ∀ {n id}, t.untagged n = some id → t.Registrable id

/-- What was interned stays so, and a tag changes to an entry of a descriptor that is new. -/
structure Grown (t t' : TypeTable) : Prop where
  keeps : ∀ {d id}, t.interned d = some id → t'.interned d = some id
  tags : ∀ {k n j}, t'.tags k n = some j →
    t.tags k n = some j ∨ t.types.length ≤ j ∧ t.interned (t'.desc j) = none
  guessed : ∀ {k n}, t.IsGuessed n → t'.tags k n = t.tags k n

lemma Grown.refl (t : TypeTable) : Grown t t := ⟨fun h => h, .inl, fun _ => rfl⟩

variable {t t' : TypeTable}

lemma Grown.isSome (h : Grown t t') (hd : (t.interned d).isSome = true) :
    (t'.interned d).isSome = true := by
  obtain ⟨id, hid⟩ := isSome_iff_exists.mp hd
  rw [h.keeps hid]
  rfl

lemma Grown.missing (h : Grown t t') (hd : t'.interned d = none) : t.interned d = none := by
  by_contra hne
  have hsome := h.isSome (isSome_iff_ne_none.mpr hne)
  rw [hd] at hsome
  cases hsome

lemma Grown.settled (h : Grown t t') (hd : t.Settled d) : t'.Settled d := hd.imp_right h.isSome

variable {t₁ : TypeTable}

lemma Grown.trans {t₂ t₃ : TypeTable} (h : Grown t₁ t₂) (h' : Grown t₂ t₃) (hs : t₂.Sound)
    (hext : Extends t₁ t₂) (hext' : Extends t₂ t₃) : Grown t₁ t₃ where
  keeps hd := h'.keeps (h.keeps hd)
  tags {k n j} hj := by
    obtain hj | ⟨hle, hnone⟩ := h'.tags hj
    · refine (h.tags hj).imp_right fun ⟨hle, hnone⟩ => ⟨hle, ?_⟩
      rw [hext'.desc_eq (hs.tagged hj).1]
      exact hnone
    · exact .inr ⟨hext.length_le.trans hle, h.missing hnone⟩
  guessed hn := (h'.guessed (hext.isGuessed_iff.mpr hn)).trans (h.guessed hn)

section NoteNamedTag
variable {t : TypeTable} {id : TypeId}

@[simp] lemma noteNamedTag_byPtr : (t.noteNamedTag id).byPtr = t.byPtr := by
  obtain ⟨_, _, h⟩ := noteNamedTag_frame t id
  rw [h]

@[simp] lemma noteNamedTag_unionEpoch : (t.noteNamedTag id).unionEpoch = t.unionEpoch := by
  obtain ⟨_, _, h⟩ := noteNamedTag_frame t id
  rw [h]

lemma settled_noteNamedTag : (t.noteNamedTag id).Settled d ↔ t.Settled d := by
  rw [Settled, Settled, noteNamedTag_interned]

variable {k : TagKind} {n : Ident} {j : TypeId}

lemma richer_noteNamedTag (id : TypeId) (h : t.tags k n = some j) :
    ∃ j', (t.noteNamedTag id).tags k n = some j' ∧
      tagRichness (t.info j) ≤ tagRichness (t.info j') := by
  obtain ⟨heq, -⟩ | ⟨k', n', -, -, hr, heq⟩ := noteNamedTag_tags t id
  · exact ⟨j, by rw [heq]; exact h, le_rfl⟩
  rw [heq]
  by_cases hkn : k = k' ∧ n = n'
  · obtain ⟨rfl, rfl⟩ := hkn
    exact ⟨id, by simp [setTag], (hr j h).le⟩
  · exact ⟨j, by simp only [setTag, hkn]; exact h, le_rfl⟩

lemma Registrable.noteNamedTag (h : t.Registrable j) : (t.noteNamedTag id).Registrable j := by
  unfold Registrable
  rw [noteNamedTag_desc, noteNamedTag_interned]
  refine h.imp_right ?_
  rintro ⟨k, n, old, htag, hold, hr⟩
  obtain ⟨j', hj', hle⟩ := richer_noteNamedTag id hold
  refine ⟨k, n, j', htag, hj', ?_⟩
  rw [noteNamedTag_info, noteNamedTag_info]
  exact hr.trans hle

lemma Indexed.noteNamedTag (h : t.Indexed) (hid : t.Registrable id) :
    (t.noteNamedTag id).Indexed where
  byPtr := by rw [noteNamedTag_byPtr, noteNamedTag_interned, h.byPtr]
  tagged {k n j} hj := by
    rw [noteNamedTag_desc, noteNamedTag_interned]
    obtain hj | ⟨rfl, htag, -, hr⟩ := tags_noteNamedTag hj
    · exact h.tagged hj
    obtain hkey | ⟨k', n', old, htag', hold, hle⟩ := hid
    · exact hkey
    · cases htag.symm.trans htag'
      exact absurd (hr old hold) (Nat.not_lt.mpr hle)
  closed {d j} hd e he := by
    rw [noteNamedTag_interned] at hd
    exact settled_noteNamedTag.mpr (h.closed hd e he)
  cached {key a} ha := by
    rw [noteNamedTag_canonical] at ha
    rw [noteNamedTag_unionEpoch, noteNamedTag_interned]
    exact h.cached ha
  withheld {n j} hj := by
    obtain hj | ⟨rfl, -⟩ := untagged_noteNamedTag hj
    · exact (h.withheld hj).noteNamedTag
    · exact hid.noteNamedTag

end NoteNamedTag

section Push
variable {t : TypeTable} {desc : TypeDesc} {layout : Layout}

lemma interned_push (d : TypeDesc) :
    (t.push desc layout).interned d = if d = desc then some t.types.length else t.interned d := by
  rw [push, noteNamedTag_interned]
  rfl

lemma desc_append_self : (t.append desc layout).desc t.types.length = desc :=
  congrArg TypeInfo.desc info_append_self

variable (hmissing : t.interned desc = none)
include hmissing

lemma interned_append_of_some {id : TypeId} (h : t.interned d = some id) :
    (t.append desc layout).interned d = some id := by
  have hne : d ≠ desc := by
    rintro rfl
    rw [hmissing] at h
    cases h
  simp [append, hne, h]

lemma extends_push : Extends t (t.push desc layout) :=
  (extends_append fun _ => hmissing).trans (extends_noteNamedTag _ _)

lemma grown_push : Grown t (t.push desc layout) where
  keeps h := by
    rw [push, noteNamedTag_interned]
    exact interned_append_of_some hmissing h
  tags {k n j} hj := by
    obtain hj | ⟨rfl, -⟩ := tags_noteNamedTag hj
    · exact .inl hj
    · refine .inr ⟨le_rfl, ?_⟩
      rw [push, noteNamedTag_desc, desc_append_self]
      exact hmissing
  guessed hn := tags_noteNamedTag_of_guessed (t := t.append desc layout) hn

lemma Indexed.append (hs : t.Sound) (h : t.Indexed) (hp : ∀ e ∈ desc.parts, t.Settled e) :
    (t.append desc layout).Indexed := by
  have hext : Extends t (t.append desc layout) := extends_append fun _ => hmissing
  have hkeep {d : TypeDesc} {id : TypeId} (hd : t.interned d = some id) :
      (t.append desc layout).interned d = some id := interned_append_of_some hmissing hd
  have hsettled {d : TypeDesc} (hd : t.Settled d) : (t.append desc layout).Settled d := by
    refine hd.imp_right fun hsome => ?_
    obtain ⟨id, hid⟩ := isSome_iff_exists.mp hsome
    rw [hkeep hid]
    rfl
  refine ⟨?_, fun {k n id} hid => ?_, fun {d id} hd e he => ?_, fun {key a} ha => ?_,
    fun {n id} hid => ?_⟩
  · simp [TypeTable.append, h.byPtr]
  · rw [hext.desc_eq (hs.tagged hid).1]
    exact hkeep (h.tagged hid)
  · by_cases hdesc : d = desc
    · exact hsettled (hp e (hdesc ▸ he))
    · simp only [TypeTable.append, hdesc] at hd
      exact hsettled (h.closed hd e he)
  · exact ⟨(h.cached ha).1, fun hepoch => hkeep ((h.cached ha).2 hepoch)⟩
  have hlt := (hs.withheld hid).1
  unfold Registrable
  rw [hext.desc_eq hlt]
  refine (h.withheld hid).imp hkeep ?_
  rintro ⟨k, m, j, htag, hj, hr⟩
  refine ⟨k, m, j, htag, hj, ?_⟩
  rw [info_append_of_lt hlt, info_append_of_lt (hs.tagged hj).1]
  exact hr

lemma Indexed.push (hs : t.Sound) (h : t.Indexed) (hp : ∀ e ∈ desc.parts, t.Settled e) :
    (t.push desc layout).Indexed := by
  refine (h.append hmissing hs hp).noteNamedTag (.inl ?_)
  rw [desc_append_self]
  simp [TypeTable.append]

end Push

def New (t t' : TypeTable) (d : TypeDesc) : Prop :=
  t.interned d = none ∧ (t'.interned d).isSome = true

/-- A descriptor that completion leads to: it ends in an empty tag, or it is a chain to an
aggregate that the table has. -/
def Derived (t : TypeTable) (d : TypeDesc) : Prop :=
  d.canonicalizeMayRewrite = true ∨ d.leaf ≠ d ∧ (t.interned d.leaf).isSome = true

lemma Grown.derived (h : Grown t t') (hd : t.Derived d) :
    t'.Derived d := hd.imp_right fun ⟨hne, hl⟩ => ⟨hne, h.isSome hl⟩

/-- Laying out the first descriptor interns one that becomes the second, which is missing. -/
def Leads (t : TypeTable) (d e : TypeDesc) : Prop :=
  t.interned e = none ∧ ∃ part ∈ d.parts, t.canonicalize part = e

/-- Descriptors none of which can be laid out unless another of them is interned. -/
def Circular (t : TypeTable) (S : Set TypeDesc) : Prop :=
  ∀ d ∈ S, t.interned d = none ∧ ∃ part ∈ d.parts, t.canonicalize part ∈ S

/-- Interning settled descriptors: the canonical forms stay, what is new was led to, and nothing
that is circular is interned. -/
structure Quiet (t : TypeTable) (ds : List TypeDesc) (t' : TypeTable) : Prop where
  canonicalize : t'.canonicalize = t.canonicalize
  reached : ∀ {e}, New t t' e → ∃ d ∈ ds, t.interned (t.canonicalize d) = none ∧
    Relation.ReflTransGen t.Leads (t.canonicalize d) e
  avoids : ∀ {S}, t.Circular S → (∀ d ∈ ds, t.canonicalize d ∉ S) ∧ ∀ e ∈ S, t'.interned e = none

/-- What interning a list of descriptors does to an indexed table. -/
structure Adds (t : TypeTable) (ds : List TypeDesc) (t' : TypeTable) : Prop where
  indexed : t'.Indexed
  extended : Extends t t'
  grown : Grown t t'
  settled : ∀ d ∈ ds, t'.Settled d
  new : ∀ {e}, New t t' e → (∃ d ∈ ds, e = d ∨ e ∈ d.parts) ∨ t'.Derived e
  quiet : (∀ d ∈ ds, t.Settled d) → Quiet t ds t'

lemma Quiet.refl (t : TypeTable) (ds : List TypeDesc)
    (hds : ∀ d ∈ ds, (t.interned (t.canonicalize d)).isSome = true) : Quiet t ds t where
  canonicalize := rfl
  reached h := by
    rw [New, h.1] at h
    cases h.2
  avoids hS := by
    refine ⟨fun d hd hmem => ?_, fun e he => (hS e he).1⟩
    have hsome := hds d hd
    rw [(hS _ hmem).1] at hsome
    cases hsome

variable {ds : List TypeDesc}

lemma Circular.of_quiet {S : Set TypeDesc} (hS : t.Circular S) (h : Quiet t ds t') :
    t'.Circular S := by
  intro d hd
  obtain ⟨part, hp, hmem⟩ := (hS d hd).2
  refine ⟨(h.avoids hS).2 d hd, part, hp, ?_⟩
  rw [h.canonicalize]
  exact hmem

lemma Quiet.append {es : List TypeDesc} (h : Quiet t ds t₁) (h' : Quiet t₁ es t')
    (hg : Grown t t₁) : Quiet t (ds ++ es) t' where
  canonicalize := h'.canonicalize.trans h.canonicalize
  reached {e} hnew := by
    cases hmid : t₁.interned e with
    | some id =>
      obtain ⟨d, hd, hr⟩ := h.reached (e := e) ⟨hnew.1, by rw [hmid]; rfl⟩
      exact ⟨d, mem_append_left _ hd, hr⟩
    | none =>
      obtain ⟨d, hd, hn, hr⟩ := h'.reached ⟨hmid, hnew.2⟩
      rw [h.canonicalize] at hn hr
      refine ⟨d, mem_append_right _ hd, hg.missing hn, ?_⟩
      -- what is missing later was missing before
      refine Relation.ReflTransGen.mono ?_ _ _ hr
      rintro x y ⟨hy, part, hp, heq⟩
      rw [h.canonicalize] at heq
      exact ⟨hg.missing hy, part, hp, heq⟩
  avoids {S} hS := by
    obtain ⟨ha, -⟩ := h.avoids hS
    obtain ⟨ha', hmissing⟩ := h'.avoids (hS.of_quiet h)
    rw [h.canonicalize] at ha'
    refine ⟨fun d hd => ?_, hmissing⟩
    exact (mem_append.mp hd).elim (ha d) (ha' d)

lemma Adds.nil (h : t.Indexed) : Adds t [] t := by
  refine ⟨h, .refl t, .refl t, nofun, fun hnew => ?_, fun _ => .refl t [] nofun⟩
  rw [New, hnew.1] at hnew
  cases hnew.2

lemma Adds.append {es : List TypeDesc} (h : Adds t ds t₁) (h' : Adds t₁ es t') (hs : t₁.Sound) :
    Adds t (ds ++ es) t' where
  indexed := h'.indexed
  extended := h.extended.trans h'.extended
  grown := h.grown.trans h'.grown hs h.extended h'.extended
  settled d hd :=
    (mem_append.mp hd).elim (fun hd => h'.grown.settled (h.settled d hd)) (h'.settled d)
  new {e} hnew := by
    cases hmid : t₁.interned e with
    | some id =>
      obtain ⟨d, hd, heq⟩ | hderived := h.new (e := e) ⟨hnew.1, by rw [hmid]; rfl⟩
      · exact .inl ⟨d, mem_append_left _ hd, heq⟩
      · exact .inr (h'.grown.derived hderived)
    | none =>
      refine (h'.new ⟨hmid, hnew.2⟩).imp_left ?_
      rintro ⟨d, hd, heq⟩
      exact ⟨d, mem_append_right _ hd, heq⟩
  quiet hds := by
    refine (h.quiet fun d hd => hds d (mem_append_left _ hd)).append ?_ h.grown
    exact h'.quiet fun d hd => h.grown.settled (hds d (mem_append_right _ hd))

end TypeTable

open TypeTable Lib.Stateful

/-- A way to intern under which an indexed table stays indexed. -/
def Indexes (intern : TypeDesc → TableM TypeId) : Prop :=
  ∀ {d t id t'}, t.Sound → t.Indexed → intern d t = some (id, t') →
    Adds t [d] t' ∧ t'.interned (t.canonicalize d) = some id

section Layouts
variable {intern : TypeDesc → TableM TypeId} (hintern : Interns intern) (hindexes : Indexes intern)
include hintern hindexes

lemma adds_visits {ds : List TypeDesc} {t t' : TypeTable} (hs : t.Sound) (h : t.Indexed)
    (hv : Visits intern ds t t') : Adds t ds t' ∧ Moves t t' := by
  induction ds generalizing t with
  | nil =>
    obtain rfl := hv
    exact ⟨.nil h, .refl⟩
  | cons d ds ih =>
    obtain ⟨id, t₁, hid, hr⟩ := hv
    obtain ⟨ha, -⟩ := hindexes hs h hid
    have hmoves := (hintern hs hid).1
    have hs₁ := hmoves.sound hs
    obtain ⟨ha', hmov'⟩ := ih hs₁ ha.indexed hr
    exact ⟨ha.append ha' hs₁, hmoves.trans hmov'⟩

/-- The layout of a missing descriptor does not intern it. -/
lemma missing_of_visits {d : TypeDesc} {t t' : TypeTable} (hs : t.Sound) (h : t.Indexed)
    (hd : t.interned d = none) (hv : Visits intern d.parts t t') : t'.interned d = none := by
  obtain ⟨ha, -⟩ := adds_visits hintern hindexes hs h hv
  by_contra hne
  have hnew : New t t' d := ⟨hd, isSome_iff_ne_none.mpr hne⟩
  by_cases hparts : ∀ part ∈ d.parts, t.Settled part
  · -- the descriptors that lead back to `d` are circular, and the layout interns one of them
    have hquiet := ha.quiet hparts
    obtain ⟨part, hpart, hn, hb⟩ := hquiet.reached hnew
    have hcircular : t.Circular {e | t.interned e = none ∧ Relation.ReflTransGen t.Leads e d} := by
      rintro e ⟨he, hr⟩
      refine ⟨he, ?_⟩
      obtain rfl | ⟨x, ⟨hx, p, hp, heq⟩, hrest⟩ := hr.cases_head
      · exact ⟨part, hpart, hn, hb⟩
      · exact ⟨p, hp, heq ▸ hx, heq ▸ hrest⟩
    exact (hquiet.avoids hcircular).1 part hpart ⟨hn, hb⟩
  -- otherwise the layout interns parts, which are smaller, and what they are completed to
  have hsmall (e : TypeDesc) (hmem : ∀ part ∈ d.parts, part ∈ e.parts) :
      ¬ ∃ part ∈ d.parts, e = part ∨ e ∈ part.parts := by
    rintro ⟨part, hpart, rfl | heq⟩
    · exact not_mem_parts _ (hmem _ hpart)
    · exact e.not_mem_parts (parts_trans (hmem part hpart) heq)
  have hrewrite : d.canonicalizeMayRewrite = false := by
    rw [← Bool.not_eq_true]
    intro ht
    refine hparts fun part hpart => ?_
    rw [parts_of_canonicalizeMayRewrite ht] at hpart
    cases hpart
  obtain hpart | hderived | ⟨-, hsome⟩ := ha.new hnew
  · exact hsmall d (fun _ h => h) hpart
  · exact absurd (hrewrite.symm.trans hderived) nofun
  cases hold : t.interned d.leaf with
  | some id => exact hparts fun part hpart => h.closed hold part (mem_parts_leaf hpart)
  | none =>
    obtain hpart | hderived | ⟨hne, -⟩ := ha.new (e := d.leaf) ⟨hold, hsome⟩
    · exact hsmall d.leaf (fun _ => mem_parts_leaf) hpart
    · rw [canonicalizeMayRewrite_leaf] at hderived
      exact absurd (hrewrite.symm.trans hderived) nofun
    · exact hne d.leaf_leaf

end Layouts

namespace TypeTable
variable {t : TypeTable} {d : TypeDesc}

/-- The canonical form of a chain whose end is not the chain itself. -/
lemma canonicalize_of_lookupTagRef_none (hs : t.Sound) (h : t.Indexed)
    (hn : t.lookupTagRef d = none) :
    t.canonicalize d = d ∨ (t.canonicalize d).leaf ≠ t.canonicalize d ∧
      ∃ id, t.interned (t.canonicalize d).leaf = some id := by
  cases htag : d.chainLeaf.bind fun leaf => t.typeIdByTag leaf.2 leaf.1 with
  | none =>
    left
    rw [canonicalize_eq]
    simp only [canonicalState, htag]
    exact d.withLeaf_none
  | some j =>
    right
    obtain ⟨⟨k, n⟩, hc, hj⟩ := bind_eq_some_iff.mp htag
    have hjtag : (t.desc j).tag = some (k, n) := (hs.tagged hj).2
    have heq : t.canonicalize d = d.withLeaf (some (t.desc j)) := by
      rw [canonicalize_eq]
      simp [canonicalState, htag]
    have hleaf : (t.canonicalize d).leaf = t.desc j := by
      rw [heq, leaf_withLeaf, leaf_of_tag hjtag]
    refine ⟨fun hself => ?_, j, by rw [hleaf]; exact h.tagged hj⟩
    rw [hleaf] at hself
    -- the chain has a pointer or an array, or its tag would have been looked up
    cases d with
    | ptr _ | array _ _ =>
      rw [hself] at hjtag
      cases hjtag
    | struct _ _ | union _ _ => exact absurd (hn.symm.trans htag) nofun
    | scalar _ | fnPtr _ _ => cases hc

lemma settled_parts_canonicalize (hs : t.Sound) (h : t.Indexed) (hn : t.lookupTagRef d = none)
    (hd : d.canonicalizeMayRewrite = true) : ∀ part ∈ (t.canonicalize d).parts, t.Settled part := by
  obtain heq | ⟨-, id, hid⟩ := canonicalize_of_lookupTagRef_none hs h hn
  · rw [heq, parts_of_canonicalizeMayRewrite hd]
    exact nofun
  · exact fun part hp => h.closed hid part (mem_parts_leaf hp)

/-- An entry of an empty tag that had none changes no canonical form. -/
lemma canonicalize_push {layout : Layout} (hs : t.Sound) (hmissing : t.interned d = none)
    (htag : ∀ {k n}, d.tag = some (k, n) → d.emptyTag = some (k, n) ∧ t.tags k n = none) :
    (t.push d layout).canonicalize = t.canonicalize := by
  have hext : Extends t (t.push d layout) := extends_push hmissing
  have hself : (t.push d layout).desc t.types.length = d := by
    rw [push, noteNamedTag_desc, desc_append_self]
  funext e
  rw [canonicalize_eq, canonicalize_eq]
  cases hc : e.chainLeaf with
  | none => simp [canonicalState, hc]
  | some tag =>
    obtain ⟨k, n⟩ := tag
    simp only [canonicalState, hc, bind_some, typeIdByTag]
    cases hj : (t.push d layout).tags k n with
    | none =>
      cases hold : t.tags k n with
      | none => rfl
      | some j =>
        obtain ⟨j', hj', -⟩ := richer_noteNamedTag (t := t.append d layout) t.types.length hold
        cases hj.symm.trans hj'
    | some j =>
      obtain hold | ⟨rfl, hd, -⟩ := tags_noteNamedTag hj
      · rw [show t.tags k n = some j from hold]
        simp [hext.desc_eq (hs.tagged hold).1]
      rw [desc_append_self] at hd
      obtain ⟨he, hn⟩ := htag hd
      rw [hn]
      simp only [map_some, map_none, hself]
      rw [withLeaf_self hc he, withLeaf_none]

/-- A change of the need or of the answers that are kept comes after. -/
lemma Adds.frame {t₁ t' : TypeTable} {ds : List TypeDesc} (hadds : Adds t ds t₁) (h : t'.Indexed)
    (hext : Extends t₁ t') (hinterned : t'.interned = t₁.interned) (htags : t'.tags = t₁.tags)
    (ht : t'.types = t₁.types) : Adds t ds t' := by
  have hdesc : t'.desc = t₁.desc :=
    funext fun id => congrArg TypeInfo.desc (info_of_types ht id)
  have hcanonicalize : t'.canonicalize = t₁.canonicalize := by
    funext d
    rw [canonicalize_eq, canonicalize_eq]
    simp [canonicalState, typeIdByTag, htags, hdesc]
  refine ⟨h, hadds.extended.trans hext, ⟨?_, ?_, ?_⟩, ?_, ?_, fun hds => ?_⟩
  · rw [hinterned]
    exact hadds.grown.keeps
  · rw [htags, hdesc]
    exact hadds.grown.tags
  · rw [htags]
    exact hadds.grown.guessed
  · unfold Settled
    rw [hinterned]
    exact hadds.settled
  · unfold New Derived
    rw [hinterned]
    exact hadds.new
  obtain ⟨hq, hr, ha⟩ := hadds.quiet hds
  unfold New at hr
  rw [← hinterned] at hr ha
  exact ⟨hcanonicalize.trans hq, hr, ha⟩

lemma Indexed.setNeedsTagCompletion (h : t.Indexed) : t.setNeedsTagCompletion.Indexed :=
  ⟨h.byPtr, h.tagged, h.closed, h.cached, h.withheld⟩

lemma Indexed.rememberCanonical {id : TypeId} (h : t.Indexed)
    (hid : t.interned (t.canonicalize d) = some id) : (t.rememberCanonical d id).Indexed := by
  refine ⟨h.byPtr, h.tagged, h.closed, fun {key a} ha => ?_, h.withheld⟩
  simp only [TypeTable.rememberCanonical] at ha
  split at ha
  · cases ha
    rw [canonicalize_eq] at hid
    exact ⟨le_rfl, fun _ => ‹key = d› ▸ hid⟩
  · exact h.cached ha

lemma settled_of_canonicalize {t' : TypeTable}
    (h : (t'.interned (t.canonicalize d)).isSome = true) :
    t'.Settled d := by
  cases hr : d.canonicalizeMayRewrite with
  | true => exact .inl hr
  | false =>
    rw [t.canonicalize_of_not_mayRewrite hr] at h
    exact .inr h

lemma Adds.of_interned (h : t.Indexed) (hd : (t.interned (t.canonicalize d)).isSome = true) :
    Adds t [d] t := by
  refine ⟨h, .refl t, .refl t, fun e he => ?_, fun hnew => ?_, fun _ => .refl t [d] fun e he => ?_⟩
  · exact mem_singleton.mp he ▸ settled_of_canonicalize hd
  · rw [New, hnew.1] at hnew
    cases hnew.2
  · obtain rfl := mem_singleton.mp he
    exact hd

end TypeTable

section Interning
variable {intern : TypeDesc → TableM TypeId} {t t' : TypeTable} {d : TypeDesc} {id : TypeId}
variable {t₁ : TypeTable} {layout : Layout}

/-- What is new with an entry was new in its layout, or is its descriptor. -/
lemma new_push {e : TypeDesc} (h : New t (t₁.push d layout) e) : New t t₁ e ∨ e = d := by
  obtain ⟨hold, hs⟩ := h
  rw [interned_push] at hs
  split at hs
  · exact .inr ‹_›
  · exact .inl ⟨hold, hs⟩

/-- What is new with the entry of a canonical form: parts of the descriptor, and what completion
leads to. -/
lemma new_internShared {e : TypeDesc} (hs : t.Sound) (h : t.Indexed) (hn : t.lookupTagRef d = none)
    (ha : Adds t (t.canonicalize d).parts t₁) (hg : Grown t₁ (t₁.push (t.canonicalize d) layout))
    (he : New t (t₁.push (t.canonicalize d) layout) e) :
    (∃ x ∈ [d], e = x ∨ e ∈ x.parts) ∨ (t₁.push (t.canonicalize d) layout).Derived e := by
  -- a part, a part of a part, or derived
  have hpart (hl : New t t₁ e) : e ∈ (t.canonicalize d).parts ∨ t₁.Derived e := by
    obtain ⟨part, hpart, rfl | hmem⟩ | hd := ha.new hl
    · exact .inl hpart
    · exact .inl (parts_trans hpart hmem)
    · exact .inr hd
  cases hr : d.canonicalizeMayRewrite with
  | false =>
    rw [t.canonicalize_of_not_mayRewrite hr] at hpart hg he ⊢
    obtain hl | rfl := new_push he
    · refine (hpart hl).imp (fun hmem => ?_) hg.derived
      exact ⟨d, mem_singleton_self d, .inr hmem⟩
    · exact .inl ⟨e, mem_singleton_self e, .inl rfl⟩
  | true =>
    right
    obtain hl | rfl := new_push he
    · obtain hmem | hd := hpart hl
      · -- the parts of a completed tag are settled, so a new one is rewritten
        obtain hr' | hsome := settled_parts_canonicalize hs h hn hr e hmem
        · exact .inl hr'
        · rw [hl.1] at hsome
          cases hsome
      · exact hg.derived hd
    · obtain heq | ⟨hne, j, hj⟩ := canonicalize_of_lookupTagRef_none hs h hn
      · exact .inl (by rw [heq]; exact hr)
      · refine .inr ⟨hne, ?_⟩
        rw [hg.keeps (ha.grown.keeps hj)]
        rfl

/-- A quiet layout stays so with the entry, if that changes no canonical form. -/
lemma TypeTable.Quiet.push (hq : Quiet t (t.canonicalize d).parts t₁)
    (hmissing : t.interned (t.canonicalize d) = none)
    (hf : (t₁.push (t.canonicalize d) layout).canonicalize = t₁.canonicalize) :
    Quiet t [d] (t₁.push (t.canonicalize d) layout) where
  canonicalize := hf.trans hq.canonicalize
  reached {e} he := by
    refine ⟨d, mem_singleton_self d, hmissing, ?_⟩
    obtain hl | rfl := new_push he
    · obtain ⟨part, hpart, hp, hr⟩ := hq.reached hl
      exact .head ⟨hp, part, hpart, rfl⟩ hr
    · exact .refl
  avoids {S} hS := by
    obtain ⟨ha, hk⟩ := hq.avoids hS
    have hnotin : t.canonicalize d ∉ S := by
      intro hmem
      obtain ⟨-, part, hpart, hpartmem⟩ := hS _ hmem
      exact ha part hpart hpartmem
    refine ⟨fun e he => mem_singleton.mp he ▸ hnotin, fun e he => ?_⟩
    have hne : e ≠ t.canonicalize d := fun heq => hnotin (heq ▸ he)
    rw [interned_push, if_neg hne]
    exact hk e he

/-- The canonical form is laid out and gets an entry. -/
lemma adds_internShared (hintern : Interns intern) (hindexes : Indexes intern) (hs : t.Sound)
    (h : t.Indexed) (hn : t.lookupTagRef d = none) (hmissing : t.interned (t.canonicalize d) = none)
    (hshared : internShared (computeLayout intern) (t.canonicalize d) t = some (id, t')) :
    Adds t [d] t' ∧ t'.interned (t.canonicalize d) = some id := by
  obtain ⟨layout, t₁, hl, rfl, rfl⟩ := internShared_eq_some hshared
  have hvisits := Visits.of_computeLayout hl
  obtain ⟨ha, hm⟩ := adds_visits hintern hindexes hs h hvisits
  have hs₁ := hm.sound hs
  have hmis₁ := missing_of_visits hintern hindexes hs h hmissing hvisits
  have hself : (t₁.push (t.canonicalize d) layout).interned (t.canonicalize d) =
      some t₁.types.length := by rw [interned_push, if_pos rfl]
  have hgrown : Grown t₁ (t₁.push (t.canonicalize d) layout) := grown_push hmis₁
  refine ⟨⟨ha.indexed.push hmis₁ hs₁ ha.settled,
    hm.extends.trans (extends_push hmis₁),
    ha.grown.trans hgrown hs₁ hm.extends (extends_push hmis₁), fun e he => ?_,
    new_internShared hs h hn ha hgrown, fun hd => ?_⟩, hself⟩
  · obtain rfl := mem_singleton.mp he
    exact settled_of_canonicalize (t := t) (by rw [hself]; rfl)
  have hrewrite : d.canonicalizeMayRewrite = true := by
    obtain hrewrite | hsome := hd d (mem_singleton_self d)
    · exact hrewrite
    rw [← Bool.not_eq_false]
    intro hf
    rw [t.canonicalize_of_not_mayRewrite hf] at hmissing
    rw [hmissing] at hsome
    cases hsome
  refine (ha.quiet (settled_parts_canonicalize hs h hn hrewrite)).push hmissing ?_
  refine canonicalize_push hs₁ hmis₁ fun {k n} htag => ?_
  obtain heq | ⟨hne, -⟩ := canonicalize_of_lookupTagRef_none hs h hn
  · -- the tag is written without members, and nothing is laid out
    rw [heq] at htag hvisits ⊢
    rw [parts_of_canonicalizeMayRewrite hrewrite] at hvisits
    obtain rfl : t₁ = t := hvisits
    have hempty := emptyTag_of_tag hrewrite htag
    rw [lookupTagRef, hempty] at hn
    exact ⟨hempty, hn⟩
  · exact absurd (leaf_of_tag htag) hne

lemma adds_noteNeed {named : Bool} (h : t.Indexed) (hn : noteNeed named t = some ((), t')) :
    Adds t [] t' := by
  obtain rfl := noteNeed_eq_some hn
  split
  · exact (Adds.nil h).frame h.setNeedsTagCompletion (Move.need t).extends rfl rfl rfl
  · exact .nil h

/-- The answer that is kept for a descriptor is the entry of its canonical form. -/
lemma interned_of_cached (h : t.Indexed) {answer} (hd : t.canonical d = some answer)
    (hs : (answer.tag, answer.tagDesc, answer.epoch) = t.canonicalState d) :
    t.interned (t.canonicalize d) = some answer.id := by
  obtain ⟨-, hr⟩ := Prod.mk.inj hs
  obtain ⟨hdesc, he⟩ := Prod.mk.inj hr
  rw [canonicalize_eq, canonicalState, ← hdesc]
  exact (h.cached hd).2 he

lemma interned_of_lookupTagRef (h : t.Indexed) (hd : t.lookupTagRef d = some id) :
    t.interned (t.canonicalize d) = some id := by
  obtain ⟨k, n, he, hid⟩ := tag_of_lookupTagRef hd
  rw [canonicalize_of_lookupTagRef hd]
  exact h.tagged hid

lemma adds_internCanonical (hintern : Interns intern) (hindexes : Indexes intern) (hs : t.Sound)
    (h : t.Indexed) (hnone : t.lookupTagRef d = none)
    (hrun : internCanonical (computeLayout intern) d t = some (id, t')) :
    Adds t [d] t' ∧ t'.interned (t.canonicalize d) = some id := by
  obtain ⟨t₁, t₂, hn, hid, rfl⟩ := internCanonical_eq_some hrun
  have hneed := adds_noteNeed h hn
  have hs₁ := (moves_noteNeed hn).1.sound hs
  have hcanonicalize : t₁.canonicalize = t.canonicalize := (hneed.quiet nofun).canonicalize
  have hno₁ : t₁.lookupTagRef d = none := by
    rw [noteNeed_eq_some hn]
    split <;> exact hnone
  rw [← hcanonicalize] at hid
  -- the answer before it is kept
  obtain ⟨ha, hself⟩ : Adds t [d] t₂ ∧ t₂.interned (t.canonicalize d) = some id := by
    rw [← hcanonicalize]
    obtain ⟨hd, rfl⟩ | ⟨hd, hshared⟩ := hid
    · exact ⟨hneed.append (.of_interned hneed.indexed (by rw [hd]; rfl)) hs₁, hd⟩
    · obtain ⟨ha, hself⟩ := adds_internShared hintern hindexes hs₁ hneed.indexed hno₁ hd hshared
      exact ⟨hneed.append ha hs₁, hself⟩
  split
  · have hquiet := ha.quiet fun e he => .inl (mem_singleton.mp he ▸ ‹_›)
    have hkept : t₂.interned (t₂.canonicalize d) = some id := by
      rw [hquiet.canonicalize]
      exact hself
    refine ⟨ha.frame (ha.indexed.rememberCanonical hkept) ?_ rfl rfl rfl, hself⟩
    exact ⟨le_rfl, fun _ => rfl, fun _ => rfl, fun h => h, fun h => h, rfl, rfl⟩
  · exact ⟨ha, hself⟩

/-- Interning keeps a table indexed and answers with the entry of the canonical form. -/
lemma indexes_intern (fuel : ℕ) : Indexes (Types.intern fuel) := by
  induction fuel with
  | zero => exact fun _ _ h => by cases h
  | succ fuel ih =>
    intro d t id t' hs h hrun
    -- an answer that is there leaves the table but for the need
    have hfound (hd : t.interned (t.canonicalize d) = some id)
        (ht' : t' = t ∨ t' = t.setNeedsTagCompletion) :
        Adds t [d] t' ∧ t'.interned (t.canonicalize d) = some id := by
      have hadds : Adds t [d] t := .of_interned h (by rw [hd]; rfl)
      obtain rfl | rfl := ht'
      · exact ⟨hadds, hd⟩
      · exact ⟨hadds.frame h.setNeedsTagCompletion (Move.need t).extends rfl rfl rfl, hd⟩
    obtain ⟨hr, hd, hn⟩ | ⟨hd, rfl⟩ | ⟨answer, rfl, -, hd, hstate, rfl⟩ | ⟨hnone, hrun⟩ :=
      internWith_eq_some hrun
    · refine hfound (by rw [t.canonicalize_of_not_mayRewrite hr]; exact hd) ?_
      rw [noteNeed_eq_some hn]
      split
      · exact .inr rfl
      · exact .inl rfl
    · exact hfound (interned_of_lookupTagRef h hd) (.inr rfl)
    · exact hfound (interned_of_cached h hd hstate) (.inr rfl)
    · exact adds_internCanonical (interns_intern fuel) ih hs h hnone hrun

end Interning

end Pathologist.Types

import Mathlib.Data.List.Basic

/-!
# Type descriptors

A descriptor spells a type out: a tag stands in it with the members that the unit which wrote
it had seen, none for a tag that was only referred to. Such an empty tag, and the pointers and
arrays over it, is what a table of types may complete.
-/
namespace Pathologist.Types

/-- The name of a tag or of a member. -/
abbrev Ident := List Char

/-- The types without parts. -/
inductive Scalar
  | void | char | bool | short | int | long | longLong | float | double | sizeT | unknown
  deriving DecidableEq, Repr

inductive TypeDesc
  | scalar (kind : Scalar)
  | ptr (inner : TypeDesc)
  | array (elem : TypeDesc) (size : Option ℕ)
  | struct (name : Ident) (fields : List (Ident × TypeDesc))
  | union (name : Ident) (fields : List (Ident × TypeDesc))
  | fnPtr (ret : TypeDesc) (params : List TypeDesc)
  deriving Repr

instance : Inhabited TypeDesc := ⟨.scalar .unknown⟩

/-- The two name spaces of tags. -/
inductive TagKind
  | struct | union
  deriving DecidableEq, Repr

namespace TypeDesc

mutual
def same : TypeDesc → TypeDesc → Bool
  | scalar a, scalar b => decide (a = b)
  | ptr a, ptr b => same a b
  | array a m, array b n => same a b && decide (m = n)
  | struct a fs, struct b gs => decide (a = b) && sameFields fs gs
  | union a fs, union b gs => decide (a = b) && sameFields fs gs
  | fnPtr a ps, fnPtr b qs => same a b && sameParams ps qs
  | _, _ => false
def sameFields : List (Ident × TypeDesc) → List (Ident × TypeDesc) → Bool
  | [], [] => true
  | (a, d) :: fs, (b, e) :: gs => decide (a = b) && same d e && sameFields fs gs
  | _, _ => false
def sameParams : List TypeDesc → List TypeDesc → Bool
  | [], [] => true
  | d :: ds, e :: es => same d e && sameParams ds es
  | _, _ => false
end

mutual
lemma same_iff : ∀ a b : TypeDesc, same a b = true ↔ a = b
  | scalar a, b => by cases b <;> simp [same]
  | ptr a, b | array a m, b => by cases b <;> simp [same, same_iff a]
  | struct a fs, b | union a fs, b => by cases b <;> simp [same, sameFields_iff fs]
  | fnPtr a ps, b => by cases b <;> simp [same, same_iff a, sameParams_iff ps]
lemma sameFields_iff : ∀ fs gs : List (Ident × TypeDesc), sameFields fs gs = true ↔ fs = gs
  | [], gs => by cases gs <;> simp [sameFields]
  | (a, d) :: fs, [] => by simp [sameFields]
  | (a, d) :: fs, (b, e) :: gs => by simp [sameFields, same_iff d, sameFields_iff fs]
lemma sameParams_iff : ∀ ds es : List TypeDesc, sameParams ds es = true ↔ ds = es
  | [], es => by cases es <;> simp [sameParams]
  | d :: ds, [] => by simp [sameParams]
  | d :: ds, e :: es => by simp [sameParams, same_iff d, sameParams_iff ds]
end

instance : DecidableEq TypeDesc := fun a b => decidable_of_iff _ (same_iff a b)

def fields : TypeDesc → List (Ident × TypeDesc)
  | struct _ fields => fields
  | union _ fields => fields
  | _ => []

/-- The tag a named aggregate is of. -/
def tag : TypeDesc → Option (TagKind × Ident)
  | struct name _ => if name = [] then none else some (.struct, name)
  | union name _ => if name = [] then none else some (.union, name)
  | _ => none

/-- The tag of a named aggregate written without members. -/
def emptyTag (desc : TypeDesc) : Option (TagKind × Ident) :=
  if desc.fields = [] then desc.tag else none

/-- The empty tag that a chain of pointers and arrays ends in. -/
def chainLeaf : TypeDesc → Option (TagKind × Ident)
  | ptr inner => chainLeaf inner
  | array elem _ => chainLeaf elem
  | desc => desc.emptyTag

/-- Whether completing tags could rewrite the descriptor. -/
def canonicalizeMayRewrite : TypeDesc → Bool
  | ptr inner => canonicalizeMayRewrite inner
  | array elem _ => canonicalizeMayRewrite elem
  | struct name fields => fields.isEmpty && !name.isEmpty
  | union name fields => fields.isEmpty && !name.isEmpty
  | _ => false

mutual
def hasNamedTag : TypeDesc → Bool
  | struct name _ => !name.isEmpty
  | union name _ => !name.isEmpty
  | ptr inner => hasNamedTag inner
  | array elem _ => hasNamedTag elem
  | fnPtr ret params => hasNamedTag ret || anyHasNamedTag params
  | scalar _ => false
def anyHasNamedTag : List TypeDesc → Bool
  | [] => false
  | desc :: rest => hasNamedTag desc || anyHasNamedTag rest
end

/-- The empty tag that a field type is, or points to. -/
def emptyTagReferred : TypeDesc → Option (TagKind × Ident)
  | ptr inner => inner.emptyTag
  | desc => desc.emptyTag

/-- A descriptor and the one an entry holds for it: the same, or two of one tag. -/
def Resembles (d e : TypeDesc) : Prop := d = e ∨ d.tag.isSome ∧ d.tag = e.tag

variable {d : TypeDesc} {tag : TagKind × Ident}

lemma tag_of_emptyTag (h : d.emptyTag = some tag) : d.fields = [] ∧ d.tag = some tag := by
  unfold emptyTag at h
  split at h
  · exact ⟨‹_›, h⟩
  · cases h

lemma hasNamedTag_of_tag (h : d.tag = some tag) : d.hasNamedTag = true := by
  cases d with
  | struct name _ | union name _ =>
    simp only [TypeDesc.tag] at h
    split at h
    · cases h
    · simpa [hasNamedTag] using ‹_›
  | scalar _ | ptr _ | array _ _ | fnPtr _ _ => cases h

lemma not_ptr_of_tag {x : TypeDesc} (h : d.tag = some tag) : d ≠ .ptr x := by
  rintro rfl
  cases h

lemma canonicalizeMayRewrite_eq_false (h : d.fields ≠ []) : d.canonicalizeMayRewrite = false := by
  cases d with
  | struct _ fs | union _ fs =>
    have hfs : fs.isEmpty = false := by simpa [TypeDesc.fields] using h
    simp [canonicalizeMayRewrite, hfs]
  | scalar _ | ptr _ | array _ _ | fnPtr _ _ => exact absurd rfl h

namespace Resembles

lemma refl (d : TypeDesc) : Resembles d d := .inl rfl

lemma tag_eq {e : TypeDesc} (h : Resembles d e) : d.tag = e.tag := by
  obtain rfl | ⟨-, h⟩ := h
  · rfl
  · exact h

lemma hasNamedTag_eq {e : TypeDesc} (h : Resembles d e) : d.hasNamedTag = e.hasNamedTag := by
  obtain rfl | ⟨hs, heq⟩ := h
  · rfl
  · obtain ⟨tag, htag⟩ := Option.isSome_iff_exists.mp hs
    rw [hasNamedTag_of_tag htag, hasNamedTag_of_tag (heq ▸ htag)]

lemma eq_of_ptr {x : TypeDesc} (h : Resembles d (.ptr x)) : d = .ptr x := by
  obtain rfl | ⟨hs, heq⟩ := h
  · rfl
  · rw [heq] at hs
    cases hs

end Resembles

end TypeDesc

end Pathologist.Types

import Pathologist.Types.Moves

/-!
# What laying out a descriptor interns

A layout interns the types of the members, those nested in them and those of array elements, in
the order they are written. Behind a pointer nothing is laid out. These parts are smaller than
the descriptor, and as far as the table is concerned a layout is a sequence of internings of them.
-/
namespace Pathologist.Types

namespace TypeDesc

mutual
/-- The descriptors that a layout interns, in order. -/
def parts : TypeDesc → List TypeDesc
  | scalar _ => []
  | ptr _ => []
  | fnPtr _ _ => []
  | array elem _ => parts elem
  | struct _ fields => partsOf fields
  | union _ fields => partsOf fields
def partsOf : List (Ident × TypeDesc) → List TypeDesc
  | [] => []
  | (_, desc) :: rest => desc :: (parts desc ++ partsOf rest)
end

mutual
lemma sizeOf_lt_of_mem_parts : ∀ {d e : TypeDesc}, e ∈ d.parts → sizeOf e < sizeOf d
  | scalar _, _, h | ptr _, _, h | fnPtr _ _, _, h => by
    cases h
  | array elem size, e, h => by
    rw [parts] at h
    have hlt := sizeOf_lt_of_mem_parts h
    simp only [array.sizeOf_spec]
    omega
  | struct name fields, e, h | union name fields, e, h => by
    have hlt := sizeOf_lt_of_mem_partsOf h
    simp only [struct.sizeOf_spec, union.sizeOf_spec]
    omega
lemma sizeOf_lt_of_mem_partsOf : ∀ {fields : List (Ident × TypeDesc)} {e : TypeDesc},
    e ∈ partsOf fields → sizeOf e < sizeOf fields
  | [], _, h => by
    cases h
  | (name, desc) :: rest, e, h => by
    rw [partsOf, List.mem_cons, List.mem_append] at h
    simp only [List.cons.sizeOf_spec, Prod.mk.sizeOf_spec]
    rcases h with rfl | h | h
    · omega
    · have hlt := sizeOf_lt_of_mem_parts h
      omega
    · have hlt := sizeOf_lt_of_mem_partsOf h
      omega
end

lemma not_mem_parts (d : TypeDesc) : ¬ d ∈ d.parts := fun h => (sizeOf_lt_of_mem_parts h).false

mutual
lemma parts_trans : ∀ {d e f : TypeDesc}, e ∈ d.parts → f ∈ e.parts → f ∈ d.parts
  | scalar _, _, _, h, _ | ptr _, _, _, h, _ | fnPtr _ _, _, _, h, _ => by
    cases h
  | array elem size, e, f, h, hf => by
    rw [parts] at h ⊢
    exact parts_trans h hf
  | struct name fields, e, f, h, hf | union name fields, e, f, h, hf => by
    exact partsOf_trans h hf
lemma partsOf_trans : ∀ {fields : List (Ident × TypeDesc)} {e f : TypeDesc},
    e ∈ partsOf fields → f ∈ e.parts → f ∈ partsOf fields
  | [], _, _, h, _ => by
    cases h
  | (name, desc) :: rest, e, f, h, hf => by
    rw [partsOf, List.mem_cons, List.mem_append] at h ⊢
    rcases h with rfl | h | h
    · exact .inr (.inl hf)
    · exact .inr (.inl (parts_trans h hf))
    · exact .inr (.inr (partsOf_trans h hf))
end

/-- Along a chain of pointers and arrays to what it ends in. -/
@[elab_as_elim] lemma chain_induction {motive : TypeDesc → Prop}
    (ptr : ∀ d, motive d → motive (ptr d)) (array : ∀ d size, motive d → motive (array d size))
    (scalar : ∀ kind, motive (scalar kind)) (fnPtr : ∀ ret params, motive (fnPtr ret params))
    (struct : ∀ name fields, motive (struct name fields))
    (union : ∀ name fields, motive (union name fields)) : ∀ d, motive d
  | .ptr d => ptr d (chain_induction ptr array scalar fnPtr struct union d)
  | .array d size => array d size (chain_induction ptr array scalar fnPtr struct union d)
  | .scalar kind => scalar kind
  | .fnPtr ret params => fnPtr ret params
  | .struct name fields => struct name fields
  | .union name fields => union name fields

/-- What a chain of pointers and arrays ends in. -/
def leaf : TypeDesc → TypeDesc
  | ptr inner => leaf inner
  | array elem _ => leaf elem
  | desc => desc

lemma leaf_leaf (d : TypeDesc) : d.leaf.leaf = d.leaf := by
  induction d using chain_induction with
  | ptr _ ih | array _ _ ih => exact ih
  | scalar _ | fnPtr _ _ | struct _ _ | union _ _ => rfl

lemma leaf_of_tag {d : TypeDesc} {tag} (h : d.tag = some tag) : d.leaf = d := by
  cases d with
  | struct _ _ | union _ _ => rfl
  | scalar _ | ptr _ | array _ _ | fnPtr _ _ => cases h

lemma canonicalizeMayRewrite_leaf (d : TypeDesc) :
    d.leaf.canonicalizeMayRewrite = d.canonicalizeMayRewrite := by
  induction d using chain_induction with
  | ptr _ ih | array _ _ ih => exact ih
  | scalar _ | fnPtr _ _ | struct _ _ | union _ _ => rfl

/-- Behind a pointer nothing is laid out, and an array has the parts of its elements. -/
lemma mem_parts_leaf {d e : TypeDesc} (h : e ∈ d.parts) : e ∈ d.leaf.parts := by
  induction d using chain_induction with
  | ptr _ _ =>
    cases h
  | array _ _ ih =>
    exact ih h
  | scalar _ | fnPtr _ _ | struct _ _ | union _ _ => exact h

lemma parts_of_canonicalizeMayRewrite {d : TypeDesc} (h : d.canonicalizeMayRewrite = true) :
    d.parts = [] := by
  induction d using chain_induction with
  | array _ _ ih => exact ih h
  | struct name fields | union name fields =>
    simp only [canonicalizeMayRewrite, Bool.and_eq_true, List.isEmpty_iff] at h
    obtain ⟨rfl, -⟩ := h
    rfl
  | ptr _ _ | scalar _ | fnPtr _ _ => rfl

end TypeDesc

open TypeTable Lib.Stateful

/-- Descriptors interned one after the other, whatever is answered. -/
def Visits (intern : TypeDesc → TableM TypeId) : List TypeDesc → TypeTable → TypeTable → Prop
  | [], t, t' => t' = t
  | d :: ds, t, t' => ∃ id t₁, intern d t = some (id, t₁) ∧ Visits intern ds t₁ t'

namespace Visits
variable {intern : TypeDesc → TableM TypeId}

lemma append {ds es : List TypeDesc} {t t₁ t' : TypeTable} (h : Visits intern ds t t₁)
    (h' : Visits intern es t₁ t') : Visits intern (ds ++ es) t t' := by
  induction ds generalizing t with
  | nil =>
    obtain rfl := h
    exact h'
  | cons d ds ih =>
    obtain ⟨id, t₂, hid, hr⟩ := h
    exact ⟨id, t₂, hid, ih hr⟩

mutual
lemma of_computeLayout : ∀ {d : TypeDesc} {t t' : TypeTable} {layout : Layout},
    computeLayout intern d t = some (layout, t') → Visits intern d.parts t t'
  | .scalar _, t, t', layout, h | .ptr _, t, t', layout, h | .fnPtr _ _, t, t', layout, h =>
    (Prod.mk.inj (pure_eq_some.mp h)).2
  | .array elem size, t, t', layout, h => by
    obtain ⟨inner, t₁, hinner, hpure⟩ := bind_eq_some.mp h
    cases pure_eq_some.mp hpure
    rw [TypeDesc.parts]
    exact of_computeLayout hinner
  | .struct _ fields, t, t', layout, h | .union _ fields, t, t', layout, h => by
    obtain ⟨p, t₁, hp, hpure⟩ := bind_eq_some.mp h
    cases pure_eq_some.mp hpure
    exact of_placeFields hp
lemma of_placeFields : ∀ {fields : List (Ident × TypeDesc)} {t t' : TypeTable} {p p' : Placement},
    placeFields intern fields p t = some (p', t') → Visits intern (TypeDesc.partsOf fields) t t'
  | [], t, t', p, p', h => (Prod.mk.inj (pure_eq_some.mp h)).2
  | (name, desc) :: rest, t, t', p, p', h => by
    obtain ⟨id, t₁, hid, h₁⟩ := bind_eq_some.mp h
    obtain ⟨inner, t₂, hinner, h₂⟩ := bind_eq_some.mp h₁
    exact ⟨id, t₁, hid, (of_computeLayout hinner).append (of_placeFields h₂)⟩
end

end Visits

end Pathologist.Types

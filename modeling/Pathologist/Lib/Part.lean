import Mathlib.Data.Fintype.EquivFin

/-!
# Lists seen in part

A reader was shown a list `v`, whose elements sit in the list `l` in the same order,
with others between them. What the first match in `v` says about the first match
in `l`.
-/
namespace Pathologist
variable {α β : Type*} {r : α → β → Prop} {l : List α} {v : List β} {f : ℕ → ℕ}

/-- `v` is a part of `l`: its `i`-th element sits at `f i`, and the order is kept. -/
structure Part (r : α → β → Prop) (l : List α) (v : List β) (f : ℕ → ℕ) : Prop where
  mono : ∀ i j, i < j → j < v.length → f i < f j
  sits : ∀ i b, v[i]? = some b → ∃ a, l[f i]? = some a ∧ r a b

namespace Part

section
variable (h : Part r l v f)
include h

/-- A relation that the places of the part satisfy may replace the one it has. -/
lemma imp {r'} (hr : ∀ a ∈ l, ∀ b ∈ v, r a b → r' a b) : Part r' l v f := by
  refine ⟨h.mono, ?_⟩
  intro i b hb
  obtain ⟨a, ha, hab⟩ := h.sits i b hb
  exact ⟨a, ha, hr a (List.mem_of_getElem? ha) b (List.mem_of_getElem? hb) hab⟩

lemma lt_length {i : ℕ} (hi : i < v.length) : f i < l.length := by
  obtain ⟨a, ha, -⟩ := h.sits i v[i] (List.getElem?_eq_getElem hi)
  exact (List.getElem?_eq_some_iff.mp ha).1

lemma inj {i j : ℕ} (hi : i < v.length) (hj : j < v.length) (heq : f i = f j) : i = j := by
  rcases Nat.lt_trichotomy i j with hlt | rfl | hgt
  · have := h.mono i j hlt hj
    omega
  · rfl
  · have := h.mono j i hgt hi
    omega

/-- The positions of the part, as a map of finite types. -/
lemma exists_embedding :
    ∃ g : Fin v.length → Fin l.length, Function.Injective g ∧ ∀ i, (g i : ℕ) = f i := by
  refine ⟨fun i => ⟨f i, h.lt_length i.2⟩, ?_, fun _ => rfl⟩
  intro i j hij
  exact Fin.ext (h.inj i.2 j.2 (congrArg Fin.val hij))

lemma length_le : v.length ≤ l.length := by
  obtain ⟨g, hg, -⟩ := h.exists_embedding
  simpa using Fintype.card_le_of_injective g hg

lemma exists_eq_of_length_le (hle : l.length ≤ v.length) {k : ℕ} (hk : k < l.length) :
    ∃ i, i < v.length ∧ f i = k := by
  obtain ⟨g, hg, hval⟩ := h.exists_embedding
  have hcard : Fintype.card (Fin v.length) = Fintype.card (Fin l.length) := by
    have := h.length_le
    simp only [Fintype.card_fin]
    omega
  obtain ⟨i, hi⟩ := ((Fintype.bijective_iff_injective_and_card g).mpr ⟨hg, hcard⟩).2 ⟨k, hk⟩
  exact ⟨i, i.2, by rw [← hval, hi]⟩

end

variable {p : α → Bool} {q : β → Bool}

lemma matches_iff (h : Part r l v f) (hr : ∀ a b, r a b → p a = q b) {i : ℕ} (hi : i < v.length)
    (hk : f i < l.length) : p l[f i] = q v[i] := by
  obtain ⟨a, ha, hab⟩ := h.sits i v[i] (List.getElem?_eq_getElem hi)
  rw [List.getElem?_eq_getElem hk, Option.some.injEq] at ha
  rw [ha, hr a _ hab]

/-- The first match in the part is the first in the list, when nothing before it
outside the part matches. -/
lemma findIdx?_eq_some (h : Part r l v f) (hr : ∀ a b, r a b → p a = q b) {n : ℕ}
    (hv : v.findIdx? q = some n)
    (hrest : ∀ k a, k < f n → l[k]? = some a → (∀ i < v.length, f i ≠ k) → p a = false) :
    l.findIdx? p = some (f n) := by
  obtain ⟨hn, hm, hb⟩ := List.findIdx?_eq_some_iff_getElem.mp hv
  have hlt := h.lt_length hn
  rw [List.findIdx?_eq_some_iff_getElem]
  refine ⟨hlt, (h.matches_iff hr hn hlt).trans hm, fun k hk => ?_⟩
  have hkl : k < l.length := hk.trans hlt
  by_cases hp : ∃ i, i < v.length ∧ f i = k
  · obtain ⟨i, hi, rfl⟩ := hp
    have hin : i < n := by
      by_contra hle
      rcases Nat.lt_or_eq_of_le (Nat.not_lt.mp hle) with hlt | rfl
      · have := h.mono n i hlt hi
        omega
      · omega
    rw [h.matches_iff hr hi hkl]
    exact hb i hin
  · have := hrest k l[k] hk (List.getElem?_eq_getElem hkl) fun i hi hik => hp ⟨i, hi, hik⟩
    simp [this]

/-- No match in the part is no match in the list, when nothing outside it matches. -/
lemma findIdx?_eq_none (h : Part r l v f) (hr : ∀ a b, r a b → p a = q b) (hv : v.findIdx? q = none)
    (hrest : ∀ k a, l[k]? = some a → (∀ i < v.length, f i ≠ k) → p a = false) :
    l.findIdx? p = none := by
  rw [List.findIdx?_eq_none_iff] at hv ⊢
  intro a ha
  obtain ⟨k, hk, rfl⟩ := List.getElem_of_mem ha
  by_cases hp : ∃ i, i < v.length ∧ f i = k
  · obtain ⟨i, hi, rfl⟩ := hp
    rw [h.matches_iff hr hi hk]
    exact hv _ (List.getElem_mem hi)
  · exact hrest k l[k] (List.getElem?_eq_getElem hk) fun i hi hik => hp ⟨i, hi, hik⟩

end Part
end Pathologist

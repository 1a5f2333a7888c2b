import Mathlib.Data.List.Basic

/-!
# Numbering what a filter keeps

The table from the positions of a list to the positions of the sublist a filter
keeps: increasing where it is defined, and onto.
-/
namespace Pathologist.Lib.Numbering

variable {α β : Type*} {keep : α → Bool}

/-- The new position of each element, `none` for one not kept, when `k` are kept
before these. -/
def number (keep : α → Bool) : ℕ → List α → List (Option ℕ)
  | _, [] => []
  | k, a :: rest =>
    if keep a then some k :: number keep (k + 1) rest else none :: number keep k rest

/-- The new position of position `i`. -/
def position (keep : α → Bool) (l : List α) (i : ℕ) : Option ℕ := (number keep 0 l).getD i none

@[simp] lemma length_number (k : ℕ) (l : List α) : (number keep k l).length = l.length := by
  induction l generalizing k with
  | nil => rfl
  | cons a rest ih =>
    unfold number
    split <;> simp [ih]

/-- A kept element is found at its new position. -/
lemma number_some {k i j : ℕ} {l : List α} (h : (number keep k l)[i]? = some (some j)) :
    k ≤ j ∧ ∃ a, l[i]? = some a ∧ keep a = true ∧ (l.filter keep)[j - k]? = some a := by
  induction l generalizing k i with
  | nil => simp at h
  | cons a rest ih =>
    by_cases ha : keep a
    · rw [number, if_pos ha] at h
      cases i with
      | zero =>
        obtain rfl : k = j := by simpa using h
        exact ⟨Nat.le_refl _, a, rfl, ha, by simp [ha]⟩
      | succ i =>
        obtain ⟨hle, b, hb, hk, hget⟩ := ih h
        refine ⟨by omega, b, hb, hk, ?_⟩
        rw [List.filter_cons_of_pos ha, show j - k = j - (k + 1) + 1 by omega]
        exact hget
    · rw [number, if_neg ha] at h
      cases i with
      | zero => simp at h
      | succ i =>
        rw [List.filter_cons_of_neg ha]
        exact ih h

lemma number_lt {k i₁ i₂ j₁ j₂ : ℕ} {l : List α} (h₁ : (number keep k l)[i₁]? = some (some j₁))
    (h₂ : (number keep k l)[i₂]? = some (some j₂)) (hlt : i₁ < i₂) : j₁ < j₂ := by
  induction l generalizing k i₁ i₂ with
  | nil => simp at h₁
  | cons a rest ih =>
    obtain ⟨i₂, rfl⟩ := Nat.exists_eq_succ_of_ne_zero (Nat.ne_of_gt (Nat.zero_lt_of_lt hlt))
    by_cases ha : keep a
    · rw [number, if_pos ha] at h₁ h₂
      cases i₁ with
      | zero =>
        obtain rfl : k = j₁ := by simpa using h₁
        have hle : k + 1 ≤ j₂ := (number_some h₂).1
        omega
      | succ i₁ => exact ih h₁ h₂ (by omega)
    · rw [number, if_neg ha] at h₁ h₂
      cases i₁ with
      | zero => simp at h₁
      | succ i₁ => exact ih h₁ h₂ (by omega)

lemma number_isSome {k i : ℕ} {l : List α} :
    ((number keep k l).getD i none).isSome ↔ ∃ a, l[i]? = some a ∧ keep a = true := by
  induction l generalizing k i with
  | nil => simp
  | cons a rest ih =>
    by_cases ha : keep a
    · cases i with
      | zero => simp [number, ha]
      | succ i => simpa [number, ha] using ih
    · cases i with
      | zero => simp [number, ha]
      | succ i => simpa [number, ha] using ih

lemma number_all (k : ℕ) (l : List α) (h : ∀ a ∈ l, keep a = true) :
    number keep k l = (List.range' k l.length).map some := by
  induction l generalizing k with
  | nil => rfl
  | cons a rest ih =>
    obtain ⟨ha, hr⟩ := List.forall_mem_cons.mp h
    simp [number, ha, ih _ hr, List.range'_succ]

variable {l : List α}

lemma position_eq_some {i j : ℕ} :
    position keep l i = some j ↔ (number keep 0 l)[i]? = some (some j) := by
  simp [position, Option.getD_eq_iff]

lemma position_spec {i j : ℕ} (h : position keep l i = some j) :
    ∃ a, l[i]? = some a ∧ keep a = true ∧ (l.filter keep)[j]? = some a := by
  simpa using (number_some (position_eq_some.mp h)).2

lemma position_isSome {i : ℕ} :
    (position keep l i).isSome ↔ ∃ a, l[i]? = some a ∧ keep a = true := number_isSome

lemma position_lt_iff {i₁ i₂ j₁ j₂ : ℕ} (h₁ : position keep l i₁ = some j₁)
    (h₂ : position keep l i₂ = some j₂) : i₁ < i₂ ↔ j₁ < j₂ := by
  rw [position_eq_some] at h₁ h₂
  rcases Nat.lt_trichotomy i₁ i₂ with h | h | h
  · simp [h, number_lt h₁ h₂ h]
  · subst h
    obtain rfl : j₁ = j₂ := by simpa [h₁] using h₂
    simp
  · have := number_lt h₂ h₁ h
    omega

lemma position_inj {i₁ i₂ j : ℕ} (h₁ : position keep l i₁ = some j)
    (h₂ : position keep l i₂ = some j) : i₁ = i₂ := by
  have h := position_lt_iff h₁ h₂
  have h' := position_lt_iff h₂ h₁
  omega

lemma position_all {i : ℕ} (h : ∀ a ∈ l, keep a = true) (hi : i < l.length) :
    position keep l i = some i := by
  rw [position_eq_some, number_all 0 l h]
  simp [hi]

end Pathologist.Lib.Numbering

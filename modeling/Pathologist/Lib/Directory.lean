import Mathlib.Data.List.GetD

/-!
# Dense numbers given on first use

A table that grows with the largest position asked for. A position gets the next number when it
first needs one and keeps it; the table holds the number plus one, and zero where there is none.
-/
open List
namespace Pathologist.Lib

/-- What the table holds for a position; zero beyond its end. -/
def slotAt (slots : List ℕ) (i : ℕ) : ℕ := slots.getD i 0

/-- Positions with their numbers plus one. -/
structure Directory where
  slots : List ℕ
  /-- How many numbers have been given. -/
  count : ℕ
  slot_le : ∀ i, slotAt slots i ≤ count
  slot_inj : ∀ i j, slotAt slots i ≠ 0 → slotAt slots i = slotAt slots j → i = j

namespace Directory

/-- No position has a number. -/
def empty : Directory where
  slots := []
  count := 0
  slot_le := fun _ => Nat.le_refl 0
  slot_inj := fun _ _ hne => absurd rfl hne

/-- The number of a position, if it has one. -/
def find (d : Directory) (i : ℕ) : Option ℕ :=
  if slotAt d.slots i = 0 then none else some (slotAt d.slots i - 1)

/-- The table, long enough to have a place for `i`. -/
def padded (d : Directory) (i : ℕ) : List ℕ :=
  d.slots ++ List.replicate (i + 1 - d.slots.length) 0

@[simp] lemma slotAt_padded (d : Directory) (i j : ℕ) :
    slotAt (d.padded i) j = slotAt d.slots j := by
  unfold padded slotAt
  rcases Nat.lt_or_ge j d.slots.length with h | h
  · exact getD_append _ _ _ _ h
  · rw [getD_append_right _ _ _ _ h, getD_eq_default _ _ h]
    simp

@[simp] lemma slotAt_set_padded (d : Directory) (i j v : ℕ) :
    slotAt ((d.padded i).set i v) j = if j = i then v else slotAt d.slots j := by
  have hlen : i < (d.padded i).length := by
    simp only [padded, length_append, length_replicate]
    omega
  split
  · next h =>
    subst h
    simp [slotAt, hlen]
  · next h =>
    rw [← slotAt_padded d i j]
    simp [slotAt, getElem?_set_ne (Ne.symm h)]

/-- Give a position the next number, unless it has one. -/
def ensure (d : Directory) (i : ℕ) : Directory :=
  if slotAt d.slots i = 0 then
    { slots := (d.padded i).set i (d.count + 1)
      count := d.count + 1
      slot_le := fun j => by
        rw [slotAt_set_padded]
        split
        · exact Nat.le_refl _
        · exact Nat.le_succ_of_le (d.slot_le j)
      slot_inj := fun j k => by
        have hj := d.slot_le j
        have hk := d.slot_le k
        rw [slotAt_set_padded, slotAt_set_padded]
        split <;> split <;> intro hne heq
        · next h₁ h₂ => exact h₁.trans h₂.symm
        · omega
        · omega
        · exact d.slot_inj j k hne heq }
  else
    { slots := d.padded i
      count := d.count
      slot_le := fun j => (d.slotAt_padded i j).symm ▸ d.slot_le j
      slot_inj := fun j k => by simpa only [slotAt_padded] using d.slot_inj j k }

variable {d : Directory} {i j n : ℕ}

lemma find_eq_some : d.find i = some n ↔ slotAt d.slots i = n + 1 := by
  unfold find
  split
  · next h => simp [h]
  · simp only [Option.some.injEq]
    omega

lemma find_inj (hi : d.find i = some n) (hj : d.find j = some n) : i = j := by
  rw [find_eq_some] at hi hj
  exact d.slot_inj i j (by omega) (by omega)

lemma find_lt (h : d.find i = some n) : n < d.count := by
  have := d.slot_le i
  rw [find_eq_some] at h
  omega

lemma find_ensure_of_ne (h : j ≠ i) : (d.ensure i).find j = d.find j := by
  unfold ensure find
  split <;> simp [h]

lemma find_ensure_self : (d.ensure i).find i = some ((d.find i).getD d.count) := by
  unfold ensure find
  split
  · simp
  · next h => simp [h]

lemma count_ensure : (d.ensure i).count = if (d.find i).isSome then d.count else d.count + 1 := by
  unfold ensure find
  split <;> simp_all

lemma find_ensure (h : d.find j = some n) : (d.ensure i).find j = some n := by
  rcases eq_or_ne j i with rfl | hne
  · rw [find_ensure_self, h, Option.getD_some]
  · rw [find_ensure_of_ne hne, h]

end Directory
end Pathologist.Lib

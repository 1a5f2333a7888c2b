import Mathlib.Data.List.AList
import Mathlib.Algebra.BigOperators.Group.List.Basic
import Mathlib.Algebra.Ring.Nat

/-!
# The total of a map

Maps to numbers, whose total changes with an entry by what the entry holds.
-/
open List
namespace Pathologist.Lib

variable {K : Type*}

def total (m : AList fun _ : K => ℕ) : ℕ := (m.entries.map Sigma.snd).sum

variable [DecidableEq K]

lemma total_erase {m} {k : K} {n : ℕ} (h : m.lookup k = some n) :
    total (m.erase k) + n = total m := by
  have hkey : k ∈ m.entries.keys := AList.mem_keys.mp (AList.lookup_isSome.mp (by rw [h]; rfl))
  obtain ⟨n', l₁, l₂, hl₁, he, hr⟩ := exists_of_kerase hkey
  have hn : n' = n := by
    rw [AList.lookup, he, dlookup_append, dlookup_eq_none.mpr hl₁,
      dlookup_cons_eq] at h
    exact Option.some.inj h
  have herase : (m.erase k).entries = l₁ ++ l₂ := hr
  rw [total, total, herase, he]
  simp only [map_append, map_cons, sum_append, sum_cons]
  omega

lemma total_insert {m} {k : K} (h : m.lookup k = none) (n : ℕ) :
    total (m.insert k n) = n + total m := by
  rw [total, total, AList.entries_insert_of_notMem (AList.lookup_eq_none.mp h), map_cons, sum_cons]

end Pathologist.Lib

import Mathlib.Init

/-!
# Left folds along a relation

A loop over a list, each step of which is related to the state before it by a transitive
relation. A step may use that its state is related to the first one; what such steps establish
for an element, and the relation keeps, holds of every element at the end.
-/
open List
namespace Pathologist.Lib.Fold

variable {σ α : Type*} {R : σ → σ → Prop} {f : σ → α → σ}

/-- A loop is related to its start if each of its steps is related to its own. -/
theorem foldl_rel (trans : ∀ {a b c}, R a b → R b c → R a c) {s t : σ} (xs : List α) (start : R s t)
    (step : ∀ u, R s u → ∀ x ∈ xs, R u (f u x)) : R s (xs.foldl f t) := by
  induction xs generalizing t with
  | nil => exact start
  | cons x xs ih =>
    have next : R s (f t x) := trans start (step t start x mem_cons_self)
    exact ih next fun u hu y hy => step u hu y (mem_cons_of_mem x hy)

/-- What each step establishes of its element holds at the end, if the relation keeps it. -/
theorem foldl_all (trans : ∀ {a b c}, R a b → R b c → R a c) {Q : α → σ → Prop} {s t : σ}
    (xs : List α) (start : R s t) (step : ∀ u, R s u → ∀ x ∈ xs, R u (f u x))
    (each : ∀ u, R s u → ∀ x ∈ xs, Q x (f u x)) (keep : ∀ x u v, R u v → Q x u → Q x v) :
    ∀ x ∈ xs, Q x (xs.foldl f t) := by
  -- The elements passed so far have what their steps established.
  suffices h : ∀ ys zs, xs = ys ++ zs → ∀ u, R s u → (∀ x ∈ ys, Q x u) →
      ∀ x ∈ xs, Q x (zs.foldl f u) from h [] xs rfl t start (by simp)
  intro ys zs
  induction zs generalizing ys with
  | nil =>
    rintro rfl u _ hu
    simpa using hu
  | cons z zs ih =>
    rintro rfl u hs hu
    have hz : z ∈ ys ++ z :: zs := by simp
    refine ih (ys ++ [z]) (by simp) _ (trans hs (step u hs z hz)) (forall_mem_append.mpr ⟨?_, ?_⟩)
    · exact fun x hx => keep x _ _ (step u hs z hz) (hu x hx)
    · simpa using each u hs z hz

end Pathologist.Lib.Fold

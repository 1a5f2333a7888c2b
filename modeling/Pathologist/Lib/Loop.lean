import Mathlib.Algebra.Order.Ring.Nat

/-!
# Loops that end when a step gives nothing

A loop takes steps until one gives nothing. If every step makes a measure smaller, fuel of that
measure lets it end, and two loops whose steps agree along a relation end in related states,
whatever fuel beyond that they have.
-/
namespace Pathologist.Lib.Loop

variable {σ τ : Type*}

/-- Take steps until one gives nothing, or the fuel is used up. -/
def run (step : σ → Option σ) : ℕ → σ → σ
  | 0, s => s
  | fuel + 1, s =>
    match step s with
    | some t => run step fuel t
    | none => s

variable {step : σ → Option σ} {m : σ → ℕ}

/-- What every step keeps holds at the end. -/
lemma run_invariant {I : σ → Prop} (hstep : ∀ s t, I s → step s = some t → I t) (fuel : ℕ) {s : σ}
    (hs : I s) : I (run step fuel s) := by
  induction fuel generalizing s with
  | zero => exact hs
  | succ fuel ih =>
    rw [run]
    split
    · next t ht => exact ih (hstep s t hs ht)
    · exact hs

/-- A loop on more state than another reads goes through what that one goes through. -/
lemma run_map {step' : τ → Option τ} {f : σ → τ} {I : σ → Prop}
    (hI : ∀ s t, I s → step s = some t → I t) (hf : ∀ s, I s → (step s).map f = step' (f s))
    (fuel : ℕ)
    {s : σ} (hs : I s) : f (run step fuel s) = run step' fuel (f s) := by
  induction fuel generalizing s with
  | zero => rfl
  | succ fuel ih =>
    rw [run, run, ← hf s hs]
    cases h : step s with
    | none => rfl
    | some t => exact ih (hI s t hs h)

/-- Two loops with the same fuel whose steps agree along a relation stay in step. -/
lemma run_lockstep {step' : τ → Option τ} {R : σ → τ → Prop}
    (hstep : ∀ s s', R s s' → Option.Rel R (step s) (step' s')) (fuel : ℕ) {s : σ} {s' : τ}
    (hs : R s s') : R (run step fuel s) (run step' fuel s') := by
  induction fuel generalizing s s' with
  | zero => exact hs
  | succ fuel ih =>
    have h := hstep s s' hs
    rw [run, run]
    cases hnext : step s with
    | none =>
      rw [hnext] at h
      cases hnext' : step' s' with
      | none => exact hs
      | some t' => rw [hnext'] at h; cases h
    | some t =>
      rw [hnext] at h
      cases hnext' : step' s' with
      | none => rw [hnext'] at h; cases h
      | some t' =>
        rw [hnext'] at h
        cases h
        next ht => exact ih ht

/-- With enough fuel the loop ends for want of a step. -/
lemma run_ends (hdec : ∀ s t, step s = some t → m t < m s) {fuel : ℕ} {s : σ} (hf : m s ≤ fuel) :
    step (run step fuel s) = none := by
  induction fuel generalizing s with
  | zero =>
    rw [run]
    cases h : step s with
    | none => rfl
    | some t =>
      have := hdec s t h
      omega
  | succ fuel ih =>
    rw [run]
    split
    · next t ht =>
      have := hdec s t ht
      exact ih (by omega)
    · assumption

lemma eq_none_of_rel {R : σ → τ → Prop} {x : Option τ} (h : Option.Rel R none x) : x = none := by
  cases h
  rfl

/-- Two loops in step. -/
lemma run_rel {step'} {k : τ → ℕ} {R} (hdec : ∀ s t, step s = some t → m t < m s)
    (hdec' : ∀ s t, step' s = some t → k t < k s)
    (hstep : ∀ s s', R s s' → Option.Rel R (step s) (step' s')) {fuel fuel' : ℕ} {s : σ} {s' : τ}
    (hf : m s ≤ fuel) (hf' : k s' ≤ fuel') (hs : R s s') :
    R (run step fuel s) (run step' fuel' s') := by
  induction fuel generalizing fuel' s s' with
  | zero =>
    have hnone : step (run step 0 s) = none := run_ends hdec hf
    have hno' : step' s' = none := eq_none_of_rel (hnone ▸ hstep s s' hs)
    cases fuel' with
    | zero => exact hs
    | succ fuel' => simpa only [run, hno'] using hs
  | succ fuel ih =>
    have h := hstep s s' hs
    cases hs₁ : step s with
    | none =>
      have hno' : step' s' = none := eq_none_of_rel (hs₁ ▸ h)
      cases fuel' with
      | zero => simpa only [run, hs₁] using hs
      | succ fuel' => simpa only [run, hs₁, hno'] using hs
    | some t =>
      rw [hs₁] at h
      cases hs₂ : step' s' with
      | none => rw [hs₂] at h; cases h
      | some t' =>
        rw [hs₂] at h
        have hlt := hdec s t hs₁
        have hlt' := hdec' s' t' hs₂
        cases fuel' with
        | zero => omega
        | succ fuel' =>
          simp only [run, hs₁, hs₂]
          exact ih (by omega) (by omega) (by cases h; assumption)

end Pathologist.Lib.Loop

import Mathlib.Data.List.Range
import Mathlib.Control.Monad.Basic

/-!
# Computations on a state that may fail

A run of a computation is taken apart at its binds. A loop over an initial segment of the
numbers runs to its end and establishes an invariant that each of its rounds does.
-/
namespace Pathologist.Lib.Stateful

universe u

variable {σ α β : Type u} {m : StateT σ Option α} {f : α → StateT σ Option β} {s : σ}

lemma bind_eq_some {r} : (m >>= f) s = some r ↔ ∃ a s₁, m s = some (a, s₁) ∧ f a s₁ = some r := by
  change (m s).bind (fun p => f p.1 p.2) = some r ↔ _
  simp [Option.bind_eq_some_iff]

variable {a : α}

lemma bind_of_eq {s₁ : σ} (h : m s = some (a, s₁)) : (m >>= f) s = f a s₁ := by
  change (m s).bind (fun p => f p.1 p.2) = _
  rw [h]
  rfl

lemma get_bind {f : σ → StateT σ Option β} : (get >>= f) s = f s s := bind_of_eq rfl

lemma liftM_bind {o} (h : o = some a) : ((liftM o : StateT σ Option α) >>= f) s = f a s := by
  rw [h]
  exact bind_of_eq rfl

lemma pure_eq_some {r} : (pure a : StateT σ Option α) s = some r ↔ r = (a, s) := by
  change some (a, s) = some r ↔ _
  rw [Option.some.injEq, eq_comm]

variable {s' : σ}

lemma modify_eq_some {f} {u : PUnit} (h : (modify f : StateT σ Option PUnit) s = some (u, s')) :
    s' = f s :=
  (Prod.mk.inj (Option.some.inj h)).2.symm

lemma discard_eq_some {u : PUnit}
    (h : (Functor.discard m : StateT σ Option PUnit) s = some (u, s')) :
    ∃ a, m s = some (a, s') := by
  obtain ⟨⟨a, s₁⟩, hm, h⟩ := Option.bind_eq_some_iff.mp h
  cases h
  exact ⟨a, hm⟩

lemma discard_of_eq (h : m s = some (a, s')) :
    (Functor.discard m : StateT σ Option PUnit) s = some (PUnit.unit, s') := by
  change (m s).bind (fun p => some (PUnit.unit, p.2)) = _
  rw [h]
  rfl

/-- A loop that ends keeps what each of its rounds keeps. -/
lemma foldlM_invariant {γ : Type*} {f : β → γ → StateT σ Option β} {P : β → σ → Prop}
    (hr : ∀ b a s b' s', P b s → f b a s = some (b', s') → P b' s') {xs : List γ} {b b' : β}
    (hs : P b s) (hrun : (xs.foldlM f b : StateT σ Option β) s = some (b', s')) : P b' s' := by
  induction xs generalizing b s with
  | nil =>
    cases pure_eq_some.mp hrun
    exact hs
  | cons a xs ih =>
    obtain ⟨b₁, s₁, hf, hrest⟩ := bind_eq_some.mp hrun
    exact ih (hr b a s b₁ s₁ hs hf) hrest

/-- A loop over `0, …, n - 1` whose rounds all succeed. -/
lemma foldlM_range {f} {n : ℕ} {b : β} (P : ℕ → β → σ → Prop) (hs : P 0 b s)
    (hr : ∀ k < n, ∀ b s, P k b s → ∃ b' s', f b k s = some (b', s') ∧ P (k + 1) b' s') :
    ∃ b' s', ((List.range n).foldlM f b : StateT σ Option β) s = some (b', s') ∧ P n b' s' := by
  induction n with
  | zero => exact ⟨b, s, rfl, hs⟩
  | succ n ih =>
    obtain ⟨b₁, s₁, hrun, hP⟩ := ih fun k hk => hr k (Nat.lt_succ_of_lt hk)
    obtain ⟨b₂, s₂, hl, hP₂⟩ := hr n n.lt_succ_self b₁ s₁ hP
    refine ⟨b₂, s₂, ?_, hP₂⟩
    rw [List.range_succ, List.foldlM_append, bind_of_eq hrun]
    rw [List.foldlM_cons, bind_of_eq hl]
    rfl

section Agreement
variable {R : σ → σ → Prop}

/-- Both computations fail, or both succeed with the same result in related states. -/
def Agree (R : σ → σ → Prop) (r r' : Option (α × σ)) : Prop :=
  Option.Rel (fun p q => p.1 = q.1 ∧ R p.2 q.2) r r'

lemma Agree.of_pure (a : α) (h : R s s') :
    Agree R ((pure a : StateT σ Option α) s) ((pure a : StateT σ Option α) s') := .some ⟨rfl, h⟩

lemma Agree.bind {m' : StateT σ Option α} {f' : α → StateT σ Option β} (hm : Agree R (m s) (m' s'))
    (hf : ∀ {a s₁ s₁'}, m s = some (a, s₁) → R s₁ s₁' → Agree R (f a s₁) (f' a s₁')) :
    Agree R ((m >>= f) s) ((m' >>= f') s') := by
  change Agree R ((m s).bind fun p => f p.1 p.2) ((m' s').bind fun p => f' p.1 p.2)
  cases hs : m s with
  | none =>
    cases hs' : m' s' with
    | none => exact .none
    | some _ =>
      rw [hs, hs'] at hm
      cases hm
  | some p =>
    cases hs' : m' s' with
    | none =>
      rw [hs, hs'] at hm
      cases hm
    | some q =>
      rw [hs, hs'] at hm
      obtain ⟨a, s₁⟩ := p
      obtain ⟨b, s₁'⟩ := q
      cases hm with
      | some h =>
        obtain ⟨rfl, hR⟩ : a = b ∧ R s₁ s₁' := h
        exact hf hs hR

/-- A change after the first computation that the relation does not see. -/
lemma Agree.bind_modify {g : α → σ → σ} {r : Option (α × σ)} (hm : Agree R (m s) r)
    (hg : ∀ {a s₁ s₁'}, R s₁ s₁' → R (g a s₁) s₁') :
    Agree R ((do let a ← m; modify (g a); pure a : StateT σ Option α) s) r := by
  change Agree R ((m s).bind fun p => some (p.1, g p.1 p.2)) r
  cases hs : m s with
  | none => rwa [hs] at hm
  | some p =>
    rw [hs] at hm
    cases hm with
    | some h => exact .some ⟨h.1, hg h.2⟩

end Agreement

section Runs
variable {ω : Type*} (yields : ω → σ → σ → Prop)

/-- A property of every state that a list of operations leads through. -/
def Throughout (Q : σ → Prop) : List ω → σ → Prop
  | [], s => Q s
  | op :: ops, s => Q s ∧ ∀ s', yields op s s' → Throughout Q ops s'

/-- A condition on every operation of a list and on the state it is applied to. -/
def EachStep (C : σ → ω → Prop) : List ω → σ → Prop
  | [], _ => True
  | op :: ops, s => ∀ s', yields op s s' → C s op ∧ EachStep C ops s'

variable {yields}

/-- If each step keeps a property exactly under a condition, the property holds throughout the
runs whose steps all meet the condition, and no others. -/
lemma throughout_iff {I Q : σ → Prop} {C : σ → ω → Prop} {A : ω → Prop}
    (hk : ∀ {op s s'}, A op → I s → yields op s s' → I s')
    (hs : ∀ {op s s'}, A op → I s → Q s → yields op s s' → (Q s' ↔ C s op)) {ops : List ω}
    (hops : ∀ op ∈ ops, A op) (hI : I s) (hQ : Q s) :
    Throughout yields Q ops s ↔ EachStep yields C ops s := by
  induction ops generalizing s with
  | nil => exact iff_of_true hQ trivial
  | cons op ops ih =>
    have hop := hops op List.mem_cons_self
    have hrest (s' : σ) (h : yields op s s') (hQ' : Q s') :
        Throughout yields Q ops s' ↔ EachStep yields C ops s' :=
      ih (fun op h => hops op (List.mem_cons_of_mem _ h)) (hk hop hI h) hQ'
    -- a run starts with a state that has the property
    have hhead (s' : σ) (h : Throughout yields Q ops s') : Q s' := by
      cases ops with
      | nil => exact h
      | cons _ _ => exact h.1
    constructor
    · intro h s' hy
      have hQ' := hhead s' (h.2 s' hy)
      exact ⟨(hs hop hI hQ hy).mp hQ', (hrest s' hy hQ').mp (h.2 s' hy)⟩
    intro h
    refine ⟨hQ, fun s' hy => ?_⟩
    obtain ⟨hC, hm⟩ := h s' hy
    exact (hrest s' hy ((hs hop hI hQ hy).mpr hC)).mpr hm

/-- A list of operations, one after the other. -/
def runAll (apply : ω → StateT σ Option PUnit) : List ω → σ → Option σ
  | [], s => some s
  | op :: ops, s => (apply op s).bind fun r => runAll apply ops r.2

lemma Throughout.last {Q} {apply}
    (hy : ∀ {op s s'}, apply op s = some (PUnit.unit, s') → yields op s s') {ops : List ω}
    (h : Throughout yields Q ops s) (hrun : runAll apply ops s = some s') : Q s' := by
  induction ops generalizing s with
  | nil => exact Option.some.inj hrun ▸ h
  | cons op ops ih =>
    obtain ⟨⟨⟨⟩, s₁⟩, hop, hr⟩ := Option.bind_eq_some_iff.mp hrun
    exact ih (h.2 s₁ (hy hop)) hr

end Runs

end Pathologist.Lib.Stateful

import Mathlib.Data.List.Basic
import Mathlib.Order.Nat

/-!
# Programs over an interface of operations

A program either ends with a result, fails, runs out of fuel, or performs one operation
and goes on with the answer. What an operation does to a state is a handler's business,
so a fact about the order of the operations, or about two runs that get the same answers,
is proved once for every program.
-/
namespace Pathologist.Lib

/-- Operations and the type of each one's answer. -/
structure Interface where
  Op : Type
  Answer : Op → Type

/-- A program over `I` that fails with an `ε` or ends with an `α`. -/
inductive Program (I : Interface) (ε : Type) (α : Type) : Type
  | done (a : α)
  | fail (e : ε)
  | exhausted
  | perform (o : I.Op) (next : I.Answer o → Program I ε α)

/-- How a run of a program ends. -/
inductive Ending (ε α : Type)
  | ok (a : α)
  | error (e : ε)
  | exhausted
  deriving DecidableEq, Repr

def Ending.map {ε α β : Type} (f : α → β) : Ending ε α → Ending ε β
  | ok a => ok (f a)
  | error e => error e
  | exhausted => exhausted

namespace Program
variable {I J : Interface} {ε α β γ σ τ : Type} (p : Program I ε α)

def bind : Program I ε α → (α → Program I ε β) → Program I ε β
  | done a, f => f a
  | fail e, _ => fail e
  | exhausted, _ => exhausted
  | perform o next, f => perform o fun x => (next x).bind f

instance : Monad (Program I ε) where
  pure := done
  bind := bind

lemma bind_assoc' (f : α → Program I ε β) (g : β → Program I ε γ) :
    (p.bind f).bind g = p.bind fun a => (f a).bind g := by
  induction p with
  | done a => rfl
  | fail e => rfl
  | exhausted => rfl
  | perform o next ih => simp [bind, ih]

lemma bind_done : p.bind done = p := by
  induction p with
  | done a => rfl
  | fail e => rfl
  | exhausted => rfl
  | perform o next ih => simp [bind, ih]

instance : LawfulMonad (Program I ε) :=
  LawfulMonad.mk' (Program I ε) bind_done (fun _ _ => rfl) bind_assoc'

def op (o : I.Op) : Program I ε (I.Answer o) := perform o done

/-- The program with its failure as a result. -/
def attempt : Program I ε α → Program I ε (Except ε α)
  | done a => done (.ok a)
  | fail e => done (.error e)
  | exhausted => exhausted
  | perform o next => perform o fun x => (next x).attempt

def ofExcept : Except ε α → Program I ε α
  | .ok a => done a
  | .error e => fail e

/-- The program over another interface that has these operations. -/
def embed (f : I.Op → J.Op) (g : (o : I.Op) → J.Answer (f o) → I.Answer o) :
    Program I ε α → Program J ε α
  | done a => done a
  | fail e => fail e
  | exhausted => exhausted
  | perform o next => perform (f o) fun x => (next (g o x)).embed f g

/-- What each operation does to a state. -/
abbrev Handler (I : Interface) (σ : Type) := (o : I.Op) → σ → I.Answer o × σ

variable (h : Handler I σ)

def run : Program I ε α → σ → Ending ε α × σ
  | done a, s => (.ok a, s)
  | fail e, s => (.error e, s)
  | exhausted, s => (.exhausted, s)
  | perform o next, s => (next (h o s).1).run (h o s).2

/-- A run of a sequence: the second part starts where the first ended, if it ended well. -/
lemma run_bind (f : α → Program I ε β) (s : σ) : run h (p >>= f) s = match run h p s with
      | (.ok a, s') => run h (f a) s'
      | (.error e, s') => (.error e, s')
      | (.exhausted, s') => (.exhausted, s') := by
  induction p generalizing s with
  | done a => rfl
  | fail e => rfl
  | exhausted => rfl
  | perform o next ih => exact ih _ _

lemma run_map (f : α → β) (p : Program I ε α) (s : σ) :
    run h (f <$> p) s = ((run h p s).1.map f, (run h p s).2) := by
  rw [map_eq_pure_bind, run_bind]
  rcases run h p s with ⟨_ | _ | _, s'⟩ <;> rfl

variable {p : Program I ε α} {s s' : σ} {a : α}

lemma run_bind_ok (hp : run h p s = (.ok a, s')) (f : α → Program I ε β) :
    run h (p >>= f) s = run h (f a) s' := by
  rw [run_bind, hp]

lemma run_bind_error {e : ε} (hp : run h p s = (.error e, s')) (f : α → Program I ε β) :
    run h (p >>= f) s = (.error e, s') := by
  rw [run_bind, hp]

lemma run_bind_exhausted (hp : run h p s = (.exhausted, s')) (f : α → Program I ε β) :
    run h (p >>= f) s = (.exhausted, s') := by
  rw [run_bind, hp]

variable {f : α → Program I ε β}

/-- A sequence that ends well: so did its first part. -/
lemma exists_of_run_bind {b : β} (hrun : run h (p >>= f) s = (.ok b, s')) :
    ∃ a s'', run h p s = (.ok a, s'') ∧ run h (f a) s'' = (.ok b, s') := by
  rw [run_bind] at hrun
  rcases hp : run h p s with ⟨ending, s''⟩
  rw [hp] at hrun
  cases ending with
  | ok a => exact ⟨a, s'', rfl, hrun⟩
  | error e | exhausted => cases hrun

@[simp] lemma run_perform (o : I.Op) (next : I.Answer o → Program I ε α) (s : σ) :
    run h (op o >>= next) s = run h (next (h o s).1) (h o s).2 := rfl

lemma run_attempt (s : σ) : run h p.attempt s = match run h p s with
      | (.ok a, s') => (.ok (.ok a), s')
      | (.error e, s') => (.ok (.error e), s')
      | (.exhausted, s') => (.exhausted, s') := by
  induction p generalizing s with
  | done a => rfl
  | fail e => rfl
  | exhausted => rfl
  | perform o next ih => exact ih _ _

/-- A run over the larger interface, when its handler does on the embedded states what the
smaller one's does. -/
lemma run_embed {h : Handler I σ} {k : Handler J τ} {f : I.Op → J.Op}
    {g : (o : I.Op) → J.Answer (f o) → I.Answer o} (into : σ → τ)
    (answers : ∀ o s, g o (k (f o) (into s)).1 = (h o s).1)
    (states : ∀ o s, (k (f o) (into s)).2 = into (h o s).2) (p : Program I ε α) (s : σ) :
    run k (p.embed f g) (into s) = ((run h p s).1, into (run h p s).2) := by
  induction p generalizing s with
  | done a => rfl
  | fail e => rfl
  | exhausted => rfl
  | perform o next ih =>
    simp only [embed, run, answers, states]
    exact ih _ _

/-- The handler with a record beside the state that follows the operations, with the state that
each is performed in. -/
def watch (h : Handler I σ) (step : I.Op → σ → τ → τ) : Handler I (σ × τ) := fun o w =>
  ((h o w.1).1, ((h o w.1).2, step o w.1 w.2))

/-- Watching changes nothing. -/
lemma run_watch (h : Handler I σ) (step : I.Op → σ → τ → τ) (p : Program I ε α) (w : σ × τ) :
    (run (watch h step) p w).1 = (run h p w.1).1 ∧
      (run (watch h step) p w).2.1 = (run h p w.1).2 := by
  induction p generalizing w with
  | done a | fail e | exhausted => exact ⟨rfl, rfl⟩
  | perform o next ih => exact ih _ _

section Meets
variable {h : Handler I σ} {P : σ → Prop} {Q Q' : Except ε α → σ → Prop}

/-- `P` holds of every state the run passes through, the first and the last included. -/
def Always (h : Handler I σ) (P : σ → Prop) : Program I ε α → σ → Prop
  | perform o next, s => P s ∧ Always h P (next (h o s).1) (h o s).2
  | _, s => P s

/-- `P` holds along the run, and `Q` of its result and last state unless the fuel runs out. -/
def Meets (h : Handler I σ) (P : σ → Prop) (Q : Except ε α → σ → Prop) : Program I ε α → σ → Prop
  | done a, s => P s ∧ Q (.ok a) s
  | fail e, s => P s ∧ Q (.error e) s
  | exhausted, s => P s
  | perform o next, s => P s ∧ Meets h P Q (next (h o s).1) (h o s).2

section
variable (hp : Meets h P Q p s)
include hp

lemma Meets.always : Always h P p s := by
  induction p generalizing s with
  | done a | fail e => exact hp.1
  | exhausted => exact hp
  | perform o next ih => exact ⟨hp.1, ih _ hp.2⟩

lemma Meets.result (hrun : run h p s = (.ok a, s')) : Q (.ok a) s' := by
  induction p generalizing s with
  | done b =>
    obtain ⟨hb, rfl⟩ := Prod.mk.inj hrun
    cases hb
    exact hp.2
  | fail e | exhausted => cases hrun
  | perform o next ih => exact ih _ hp.2 hrun

end

lemma Always.last (hp : Always h P p s) : P (run h p s).2 := by
  induction p generalizing s with
  | done a | fail e | exhausted => exact hp
  | perform o next ih => exact ih _ hp.2

lemma Meets.mono (hp : Meets h P Q p s) (hQ : ∀ r s, P s → Q r s → Q' r s) : Meets h P Q' p s := by
  induction p generalizing s with
  | done a | fail e => exact ⟨hp.1, hQ _ _ hp.1 hp.2⟩
  | exhausted => exact hp
  | perform o next ih => exact ⟨hp.1, ih _ hp.2⟩

lemma meets_bind {Q : Except ε β → σ → Prop} (hp : Meets h P (fun r s' => match r with
      | .ok a => Meets h P Q (f a) s'
      | .error e => Q (.error e) s') p s) : Meets h P Q (p >>= f) s := by
  induction p generalizing s with
  | done a => exact hp.2
  | fail e | exhausted => exact hp
  | perform o next ih => exact ⟨hp.1, ih _ hp.2⟩

lemma meets_op {Q : Except ε β → σ → Prop} {o : I.Op} {f : I.Answer o → Program I ε β} (hP : P s)
    (hn : Meets h P Q (f (h o s).1) (h o s).2) : Meets h P Q (op o >>= f) s :=
  ⟨hP, hn⟩

lemma meets_attempt {Q} (hp : Meets h P (fun r s' => Q (.ok r) s') p s) :
    Meets h P Q p.attempt s := by
  induction p generalizing s with
  | done a | fail e | exhausted => exact hp
  | perform o next ih => exact ⟨hp.1, ih _ hp.2⟩

lemma meets_ofExcept {r} (hP : P s) (hQ : Q r s) : Meets h P Q (ofExcept r : Program I ε α) s := by
  cases r with
  | ok a | error e => exact ⟨hP, hQ⟩

end Meets

/-- Every operation the program may perform is in `S`, every failure it may end in is in
`E`, and it never runs out of fuel, whatever the answers are. -/
def Only (S : I.Op → Prop) (E : ε → Prop) : Program I ε α → Prop
  | perform o next => S o ∧ ∀ x, (next x).Only S E
  | fail e => E e
  | exhausted => False
  | done _ => True

section Only
variable {S : I.Op → Prop} {E : ε → Prop} {p : Program I ε α}

lemma Only.bind (hp : p.Only S E) (hf : ∀ a, (f a).Only S E) : (p >>= f).Only S E := by
  induction p with
  | done a => exact hf a
  | fail e | exhausted => exact hp
  | perform o next ih => exact ⟨hp.1, fun x => ih x (hp.2 x)⟩

end Only

/-- Every operation the program may perform is in `S`, whatever the answers are. -/
def Within (S : I.Op → Prop) : Program I ε α → Prop
  | perform o next => S o ∧ ∀ x, (next x).Within S
  | _ => True

section Within
variable {S : I.Op → Prop} {p : Program I ε α}

lemma Only.within {E} (hp : p.Only S E) : p.Within S := by
  induction p with
  | done a | fail e => trivial
  | exhausted => exact hp.elim
  | perform o next ih => exact ⟨hp.1, fun x => ih x (hp.2 x)⟩

lemma Within.bind (hp : p.Within S) (hf : ∀ a, (f a).Within S) : (p >>= f).Within S := by
  induction p with
  | done a => exact hf a
  | fail e | exhausted => trivial
  | perform o next ih => exact ⟨hp.1, fun x => ih x (hp.2 x)⟩

lemma Within.attempt (hp : p.Within S) : p.attempt.Within S := by
  induction p with
  | done a | fail e | exhausted => trivial
  | perform o next ih => exact ⟨hp.1, fun x => ih x (hp.2 x)⟩

lemma within_ofExcept (r : Except ε α) : (ofExcept r : Program I ε α).Within S := by
  cases r <;> trivial

lemma Within.embed {S' : J.Op → Prop} {into : I.Op → J.Op}
    {back : (o : I.Op) → J.Answer (into o) → I.Answer o} (hp : p.Within S)
    (hS : ∀ o, S o → S' (into o)) : (p.embed into back).Within S' := by
  induction p with
  | done a | fail e | exhausted => trivial
  | perform o next ih => exact ⟨hS o hp.1, fun x => ih _ (hp.2 _)⟩

/-- A record that keeps a property along the operations in `S` has it at the end. -/
lemma Within.record {h : Handler I σ} {step : I.Op → σ → τ → τ} {P : τ → Prop} (hp : p.Within S)
    (hS : ∀ o s r, S o → P r → P (step o s r)) {w : σ × τ} (hw : P w.2) :
    P (run (watch h step) p w).2.2 := by
  induction p generalizing w with
  | done a | fail e | exhausted => exact hw
  | perform o next ih => exact ih _ (hp.2 _) (hS o w.1 w.2 hp.1 hw)

end Within

section Ends
variable {h : Handler I σ} {charge : σ → ℕ} {n m : ℕ} {p : Program I ε α}

/-- From a state that has been charged `n` or more the program does not run out of fuel, and
no charge is taken back. -/
def Ends (h : Handler I σ) (charge : σ → ℕ) (n : ℕ) (p : Program I ε α) : Prop :=
  ∀ s, n ≤ charge s → (run h p s).1 ≠ .exhausted ∧ charge s ≤ charge (run h p s).2

lemma ends_pure (a : α) : Ends h charge n (pure a : Program I ε α) :=
  fun _ _ => ⟨nofun, le_rfl⟩

lemma ends_fail (e : ε) : Ends h charge n (fail e : Program I ε α) :=
  fun _ _ => ⟨nofun, le_rfl⟩

section
variable (hp : Ends h charge n p)
include hp

lemma Ends.mono (hnm : n ≤ m) : Ends h charge m p :=
  fun s hs => hp s (hnm.trans hs)

/-- The second part may count on what the first has charged. -/
lemma Ends.bind_charged (hf : ∀ s a s', n ≤ charge s → run h p s = (.ok a, s') →
      ∃ m ≤ charge s', Ends h charge m (f a)) : Ends h charge n (p >>= f) := by
  intro s hs
  obtain ⟨he, hc⟩ := hp s hs
  rw [run_bind]
  rcases hrun : run h p s with ⟨ending, s'⟩
  rw [hrun] at he hc
  cases ending with
  | ok a =>
    obtain ⟨m, hm, hn⟩ := hf s a s' hs hrun
    obtain ⟨he', hc'⟩ := hn s' hm
    exact ⟨he', hc.trans hc'⟩
  | error e => exact ⟨nofun, hc⟩
  | exhausted => exact absurd rfl he

lemma Ends.bind (hf : ∀ a, Ends h charge n (f a)) : Ends h charge n (p >>= f) := by
  refine hp.bind_charged fun s a s' hs hrun => ⟨n, ?_, hf a⟩
  have hcharge := (hp s hs).2
  rw [hrun] at hcharge
  exact hs.trans hcharge

lemma Ends.attempt : Ends h charge n p.attempt := by
  intro s hs
  obtain ⟨he, hc⟩ := hp s hs
  rw [run_attempt]
  rcases hrun : run h p s with ⟨ending, s'⟩
  rw [hrun] at he hc
  cases ending with
  | ok a | error e => exact ⟨nofun, hc⟩
  | exhausted => exact absurd rfl he

end

lemma ends_ofExcept (r : Except ε α) : Ends h charge n (ofExcept r : Program I ε α) := by
  cases r with
  | ok a => exact ends_pure a
  | error e => exact ends_fail e

/-- A program that never runs out of fuel, over operations that take no charge back. -/
lemma Only.ends {S E} (hp : p.Only S E) (hS : ∀ o, S o → ∀ s, charge s ≤ charge (h o s).2) :
    Ends h charge n p := by
  intro s hs
  induction p generalizing s with
  | done a | fail e => exact ⟨nofun, le_rfl⟩
  | exhausted => exact hp.elim
  | perform o next ih =>
    have hcharge := hS o hp.1 s
    obtain ⟨he, hcha'⟩ := ih _ (hp.2 _) _ (hs.trans hcharge)
    exact ⟨he, hcharge.trans hcha'⟩

end Ends

section Refines
variable {h : Handler I σ} {k : Handler J τ} {δ : Type} {Q Q' : Except ε (α × β) → σ → τ → Prop}
  {p : Program I ε α} {q : Program J ε β} {t : τ}

/-- Two programs over two interfaces end alike: well, in the same error or for want of fuel, with
results and states that meet `Q`. -/
def Refines (h : Handler I σ) (k : Handler J τ) (Q : Except ε (α × β) → σ → τ → Prop)
    (p : Program I ε α) (q : Program J ε β) (s : σ) (t : τ) : Prop :=
  match run h p s, run k q t with
  | (.ok a, s'), (.ok b, t') => Q (.ok (a, b)) s' t'
  | (.error e, s'), (.error e', t') => e = e' ∧ Q (.error e) s' t'
  | (.exhausted, _), (.exhausted, _) => True
  | _, _ => False

lemma Refines.cases (hp : Refines h k Q p q s t) :
    (∃ a b s' t', run h p s = (.ok a, s') ∧ run k q t = (.ok b, t') ∧ Q (.ok (a, b)) s' t') ∨
    (∃ e s' t', run h p s = (.error e, s') ∧ run k q t = (.error e, t') ∧ Q (.error e) s' t') ∨
    ∃ s' t', run h p s = (.exhausted, s') ∧ run k q t = (.exhausted, t') := by
  unfold Refines at hp
  rcases hp₁ : run h p s with ⟨_ | _ | _, s'⟩ <;> rcases hq₁ : run k q t with ⟨_ | _ | _, t'⟩ <;>
    rw [hp₁, hq₁] at hp
  all_goals first
    | exact hp.elim
    | exact .inl ⟨_, _, _, _, rfl, rfl, hp⟩
    | (obtain ⟨rfl, hp⟩ := hp; exact .inr (.inl ⟨_, _, _, rfl, rfl, hp⟩))
    | exact .inr (.inr ⟨_, _, rfl, rfl⟩)

lemma Refines.mono (hp : Refines h k Q p q s t) (hQ : ∀ r s t, Q r s t → Q' r s t) :
    Refines h k Q' p q s t := by
  unfold Refines
  rcases hp.cases with ⟨a, b, s', t', hp, hq, hr⟩ | ⟨e, s', t', hp, hq, hr⟩ | ⟨s', t', hp, hq⟩ <;>
    rw [hp, hq]
  · exact hQ _ _ _ hr
  · exact ⟨rfl, hQ _ _ _ hr⟩
  · trivial

/-- What the first programs came to decides how the second ones have to go on. -/
lemma refines_bind {Q : Except ε (γ × δ) → σ → τ → Prop} {f : α → Program I ε γ}
    {g : β → Program J ε δ} (hp : Refines h k (fun r s' t' => match r with
      | .ok (a, b) => Refines h k Q (f a) (g b) s' t'
      | .error e => Q (.error e) s' t') p q s t) : Refines h k Q (p >>= f) (q >>= g) s t := by
  unfold Refines
  rw [run_bind, run_bind]
  rcases hp.cases with ⟨a, b, s', t', hp, hq, hr⟩ | ⟨e, s', t', hp, hq, hr⟩ | ⟨s', t', hp, hq⟩ <;>
    rw [hp, hq]
  · exact hr
  · exact ⟨rfl, hr⟩
  · trivial

/-- The first program goes on after an error, the second does not. -/
lemma refines_attempt_bind {Q : Except ε (γ × δ) → σ → τ → Prop}
    {f : Except ε α → Program I ε γ} {g : β → Program J ε δ}
    (hp : Refines h k (fun r s' t' => match r with
      | .ok (a, b) => Refines h k Q (f (.ok a)) (g b) s' t'
      | .error e => Refines h k Q (f (.error e)) (fail e) s' t') p q s t) :
    Refines h k Q (p.attempt >>= f) (q >>= g) s t := by
  unfold Refines
  rw [run_bind, run_bind, run_attempt]
  rcases hp.cases with ⟨a, b, s', t', hp, hq, hr⟩ | ⟨e, s', t', hp, hq, hr⟩ | ⟨s', t', hp, hq⟩ <;>
    rw [hp, hq]
  · exact hr
  · exact hr
  · trivial

lemma refines_attempt {Q : Except ε (Except ε α × Except ε β) → σ → τ → Prop}
    (hp : Refines h k (fun r => Q (.ok (r.map Prod.fst, r.map Prod.snd))) p q s t) :
    Refines h k Q p.attempt q.attempt s t := by
  unfold Refines
  rw [run_attempt, run_attempt]
  rcases hp.cases with ⟨a, b, s', t', hp, hq, hr⟩ | ⟨e, s', t', hp, hq, hr⟩ | ⟨s', t', hp, hq⟩ <;>
    rw [hp, hq]
  · exact hr
  · exact hr
  · trivial

/-- Programs without a result that do not run out of fuel. -/
lemma Refines.ending {p : Program I ε Unit} {q : Program J ε Unit} {Q : σ → τ → Prop}
    (hp : Refines h k (fun _ => Q) p q s t) (hne : (run h p s).1 ≠ .exhausted) :
    ∃ ending s' t', run h p s = (ending, s') ∧ run k q t = (ending, t') ∧ Q s' t' := by
  rcases hp.cases with ⟨⟨⟩, ⟨⟩, s', t', hp, hq, hr⟩ | ⟨e, s', t', hp, hq, hr⟩ | ⟨s', t', hp, -⟩
  · exact ⟨.ok (), s', t', hp, hq, hr⟩
  · exact ⟨.error e, s', t', hp, hq, hr⟩
  · exact absurd (congrArg Prod.fst hp) hne

end Refines
end Program
end Pathologist.Lib

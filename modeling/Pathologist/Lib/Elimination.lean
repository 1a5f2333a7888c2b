import Mathlib.Logic.Relation

/-!
# Eliminating nodes from a relation

Taking a node out of a relation joins what came right before it to what came
right after it. Between the nodes that remain, the transitive closure is the one
of the relation before, cycles through the node included.
-/
namespace Pathologist.Lib.Elimination
open Relation

variable {α : Type*} {r : α → α → Prop} {x a b : α}

/-- The relation on the other nodes, with a step for every pass through `x`. -/
def eliminate (x : α) (r : α → α → Prop) (a b : α) : Prop :=
  a ≠ x ∧ b ≠ x ∧ (r a b ∨ r a x ∧ r x b)

/-- The relation between nodes of `keep` only. -/
def among (keep : α → Prop) (r : α → α → Prop) (a b : α) : Prop :=
  keep a ∧ keep b ∧ r a b

lemma transGen_of_eliminate (h : TransGen (eliminate x r) a b) : TransGen r a b := by
  induction h with
  | single hs =>
    obtain ⟨-, -, hr | ⟨hin, hout⟩⟩ := hs
    · exact .single hr
    · exact (TransGen.single hin).tail hout
  | tail _ hs ih =>
    obtain ⟨-, -, hr | ⟨hin, hout⟩⟩ := hs
    · exact ih.tail hr
    · exact (ih.tail hin).tail hout

/-- Where a walk from `a` stands once the visits to `x` are left out: past `x`,
or at a node that steps to `x`. -/
lemma eliminate_of_transGen (ha : a ≠ x) (h : TransGen r a b) :
    (b ≠ x → TransGen (eliminate x r) a b) ∧
      (b = x → ∃ p, p ≠ x ∧ ReflTransGen (eliminate x r) a p ∧ r p x) := by
  induction h with
  | @single c hr =>
    refine ⟨fun hc => .single ⟨ha, hc, .inl hr⟩, fun hc => ⟨a, ha, .refl, ?_⟩⟩
    exact hc ▸ hr
  | @tail c d _ hr ih =>
    by_cases hc : c = x
    · obtain ⟨p, hp, hw, hpx⟩ := ih.2 hc
      subst hc
      refine ⟨fun hd => ?_, fun _ => ⟨p, hp, hw, hpx⟩⟩
      exact TransGen.tail' hw ⟨hp, hd, .inr ⟨hpx, hr⟩⟩
    · refine ⟨fun hd => (ih.1 hc).tail ⟨hc, hd, .inl hr⟩, fun hd => ?_⟩
      exact ⟨c, hc, (ih.1 hc).to_reflTransGen, hd ▸ hr⟩

/-- Eliminating a node keeps what reaches what among the others. -/
lemma transGen_eliminate (ha : a ≠ x) (hb : b ≠ x) :
    TransGen (eliminate x r) a b ↔ TransGen r a b :=
  ⟨transGen_of_eliminate, fun h => (eliminate_of_transGen ha h).1 hb⟩

/-- The same walk under other names: `f` names the nodes that are kept, no two of
them alike. -/
lemma transGen_renamed {β : Type*} {f : α → Option β} {r' : β → β → Prop}
    (hf : ∀ x y z, f x = some z → f y = some z → x = y)
    (hr : ∀ x' y', r' x' y' ↔ ∃ x y, f x = some x' ∧ f y = some y' ∧ r x y) {a' b' : β}
    (ha : f a = some a') (hb : f b = some b') :
    TransGen r' a' b' ↔ TransGen (among (fun x => (f x).isSome) r) a b := by
  constructor
  · intro h
    induction h generalizing b with
    | single hs =>
      obtain ⟨x, y, hx, hy, hxy⟩ := (hr _ _).mp hs
      obtain rfl := hf x a _ hx ha
      obtain rfl := hf y b _ hy hb
      exact .single ⟨by simp [ha], by simp [hb], hxy⟩
    | tail _ hs ih =>
      obtain ⟨x, y, hx, hy, hxy⟩ := (hr _ _).mp hs
      obtain rfl := hf y b _ hy hb
      exact (ih hx).tail ⟨by simp [hx], by simp [hb], hxy⟩
  · intro h
    induction h generalizing b' with
    | single hs => exact .single ((hr _ _).mpr ⟨a, _, ha, hb, hs.2.2⟩)
    | tail _ hs ih =>
      obtain ⟨c', hc'⟩ := Option.isSome_iff_exists.mp hs.1
      exact (ih hc').tail ((hr _ _).mpr ⟨_, _, hc', hb, hs.2.2⟩)

end Pathologist.Lib.Elimination

import Mathlib.Data.List.Destutter

/-!
# The first of each element

`List.eraseDups` keeps the first occurrence of every element. The facts below say
how it meets maps, filters and appends. `List.destutter` drops only repeats that are adjacent,
so it leaves none just if equal elements stand together.
-/
open List
namespace Pathologist.Lib.Distinct

variable {α : Type*} [DecidableEq α]

/-- Under a filter the first element kept is followed by the rest without it. -/
lemma eraseDups_filter_cons {p} {a : α} {l : List α} (ha : p a = true) :
    ((a :: l).filter p).eraseDups = a :: (l.filter fun b => decide (b ≠ a) && p b).eraseDups := by
  rw [filter_cons_of_pos ha, eraseDups_cons, filter_filter]
  congr 2
  refine filter_congr fun b _ => ?_
  by_cases hb : b = a
  · simp [hb]
  · simp [hb]

/-- Elements that are there already add nothing. -/
lemma eraseDups_append_of_subset {l m : List α} (h : m ⊆ l) : (l ++ m).eraseDups = l.eraseDups := by
  have hnone : m.removeAll l = [] := by
    rw [List.removeAll, filter_eq_nil_iff]
    intro a ha
    simp [h ha]
  rw [eraseDups_append, hnone]
  simp

lemma eraseDups_concat (l : List α) (a : α) :
    (l ++ [a]).eraseDups = if a ∈ l then l.eraseDups else l.eraseDups ++ [a] := by
  by_cases ha : a ∈ l
  · rw [if_pos ha, eraseDups_append_of_subset (by simpa using ha)]
  · have hone : [a].removeAll l = [a] := by simp [List.removeAll, ha]
    rw [if_neg ha, eraseDups_append, hone]
    simp [eraseDups_cons]

/-- Keeping the first of each element before a map makes no difference to the
first of each image. -/
lemma eraseDups_map_eraseDups {β : Type*} [DecidableEq β] (f : α → β) (l : List α) :
    (l.eraseDups.map f).eraseDups = (l.map f).eraseDups := by
  induction l using reverseRecOn with
  | nil => simp
  | append_singleton l a ih =>
    rw [eraseDups_concat, map_append, map_singleton, eraseDups_concat]
    by_cases ha : a ∈ l
    · rw [if_pos ha, if_pos (mem_map_of_mem ha), ih]
    · rw [if_neg ha, map_append, map_singleton, eraseDups_concat, ih]
      simp

omit [DecidableEq α]

/-- Between two occurrences of an element there is no other. -/
def Together (l : List α) : Prop := ∀ a b, [a, b, a] <+ l → b = a

lemma Together.sublist {l m : List α} (hm : Together m) (h : l <+ m) : Together l :=
  fun a b hab => hm a b (hab.trans h)

lemma together_of_nodup {l : List α} (h : l.Nodup) : Together l := by
  intro a b hab
  have := hab.nodup h
  simp at this

lemma together_append {l m : List α} (h : l.Disjoint m) :
    Together (l ++ m) ↔ Together l ∧ Together m := by
  refine ⟨fun ht => ⟨ht.sublist (sublist_append_left l m), ht.sublist (sublist_append_right l m)⟩,
    ?_⟩
  rintro ⟨hl, hm⟩ a b hab
  obtain ⟨p, q, hpq, hp, hq⟩ := sublist_append_iff.mp hab
  match p, q, hpq with
  | [], _, rfl => exact hm a b hq
  | [_], _, rfl | [_, _], _, rfl =>
    have ha : a ∈ l := hp.subset (by simp)
    exact absurd (hq.subset (by simp)) (h ha)
  | [_, _, _], [], rfl => exact hl a b hp

lemma together_map {β : Type*} {f : α → β} (hf : f.Injective) {l : List α} :
    Together (l.map f) ↔ Together l := by
  constructor
  · exact fun h a b hab => hf (h (f a) (f b) (hab.map f))
  · intro h a b hab
    obtain ⟨p, hp, h₀⟩ := sublist_map_iff.mp hab
    obtain ⟨x, p₁, rfl, rfl, h₁⟩ := map_eq_cons_iff.mp h₀.symm
    obtain ⟨y, p₂, rfl, rfl, h₂⟩ := map_eq_cons_iff.mp h₁
    obtain ⟨z, p₃, rfl, hz, h₃⟩ := map_eq_cons_iff.mp h₂
    obtain rfl := map_eq_nil_iff.mp h₃
    exact congrArg f (h x y (hf hz ▸ hp))

variable [DecidableEq α]

lemma mem_destutter'_ne {a x : α} {l : List α} : x ∈ l.destutter' (· ≠ ·) a ↔ x ∈ a :: l := by
  induction l generalizing a with
  | nil => rfl
  | cons b l ih =>
    by_cases h : a = b
    · subst h
      rw [destutter'_cons_neg _ (by simp), ih]
      simp
    · rw [destutter'_cons_pos _ h, mem_cons, ih, ← mem_cons]

lemma nodup_destutter'_ne {a : α} {l : List α} :
    (l.destutter' (· ≠ ·) a).Nodup ↔ Together (a :: l) := by
  induction l generalizing a with
  | nil => exact ⟨fun _ => together_of_nodup (nodup_singleton a), fun _ => nodup_singleton a⟩
  | cons b l ih =>
    by_cases h : a = b
    · subst h
      rw [destutter'_cons_neg _ (by simp), ih]
      refine ⟨fun ht x y hxy => ?_, fun ht => ht.sublist (sublist_cons_self a _)⟩
      rcases sublist_cons_iff.mp hxy with hxy | ⟨r, heq, hr⟩
      · exact ht x y hxy
      obtain ⟨rfl, rfl⟩ := cons.inj heq
      rcases sublist_cons_iff.mp hr with hr | ⟨r, heq, -⟩
      · exact ht x y (hr.cons_cons x)
      · exact (cons.inj heq).1
    · rw [destutter'_cons_pos _ h, nodup_cons, ih, mem_destutter'_ne]
      refine ⟨fun ⟨ha, ht⟩ x y hxy => ?_, fun ht =>
        ⟨fun ha => ?_, ht.sublist (sublist_cons_self a _)⟩⟩
      · rcases sublist_cons_iff.mp hxy with hxy | ⟨r, heq, hr⟩
        · exact ht x y hxy
        obtain ⟨rfl, rfl⟩ := cons.inj heq
        exact absurd (hr.subset (by simp)) ha
      · have hl : a ∈ l := (mem_cons.mp ha).resolve_left h
        exact h (ht a b (((singleton_sublist.mpr hl).cons_cons b).cons_cons a)).symm

lemma nodup_destutter_ne {l : List α} : (l.destutter (· ≠ ·)).Nodup ↔ Together l := by
  cases l with
  | nil => exact ⟨fun _ => together_of_nodup nodup_nil, fun _ => nodup_nil⟩
  | cons a l => exact nodup_destutter'_ne

end Pathologist.Lib.Distinct

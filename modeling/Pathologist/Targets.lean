import Mathlib.Data.List.Induction
import Mathlib.Order.Lattice
import Pathologist.Lib.Digraph

/-!
# Completeness of inferred link targets

What `infer_link_targets` does with the targets read from GN files: it sorts
them, names them by label, and walks reverse dependencies once from those whose
evidence is incomplete. The walk leaves exactly the targets all of whose
transitive dependencies are sound, whatever cycles and duplicates there are.
-/
namespace Pathologist.Targets
open Relation Lib.Digraph

structure Target (L : Type*) where
  label : L
  deps : List L
  complete : Bool

/-- The maps `by_label` and `duplicates`. -/
structure Names (L : Type*) where
  byLabel : L → Option ℕ
  duplicates : List L

variable {L : Type*} [LinearOrder L]

def Names.insert (m : Names L) (t : Target L × ℕ) : Names L where
  byLabel := Function.update m.byLabel t.1.label (some t.2)
  duplicates :=
    if (m.byLabel t.1.label).isSome then t.1.label :: m.duplicates else m.duplicates

def names (targets : List (Target L)) : Names L :=
  targets.zipIdx.foldl Names.insert ⟨fun _ => none, []⟩

/-- Whether a target is still complete before the walk. -/
def Names.settles (m : Names L) (t : Target L) : Bool :=
  t.complete && !m.duplicates.contains t.label && t.deps.all fun d => (m.byLabel d).isSome

def dependents (targets : List (Target L)) : Adjacency :=
  adjacency targets.length (targets.zipIdx.flatMap fun p =>
    (p.1.deps.filterMap (names targets).byLabel).map (·, p.2))

/-- The targets the walk starts from; a vector is popped at its end. -/
def pending (targets : List (Target L)) : List ℕ :=
  ((targets.zipIdx.filter fun p => !(names targets).settles p.1).map Prod.snd).reverse

/-- The marks of the targets incomplete before the walk. -/
def unsettled (targets : List (Target L)) : List Bool :=
  targets.map fun t => !(names targets).settles t

/-- The marks of the incomplete targets once the walk is over. -/
def incomplete (targets : List (Target L)) : List Bool :=
  (searchLoop (next (dependents targets)) (fun _ => false)
    ((pending targets).length + targets.length) (pending targets) (unsettled targets)).2.2

/-- The targets in the order of their labels, each with its final `complete`. -/
def inferLinkTargets (collected : List (Target L)) : List (Target L) :=
  let targets := collected.mergeSort fun a b => a.label ≤ b.label
  targets.zipIdx.map fun p => { p.1 with complete := !marked (incomplete targets) p.2 }

def named (targets : List (Target L)) (l : L) : List (Target L) :=
  targets.filter fun t => t.label = l

lemma names_concat (ts : List (Target L)) (t : Target L) :
    names (ts ++ [t]) = (names ts).insert (t, ts.length) := by
  simp [names, List.zipIdx_append]

/-- A label is looked up at one of its targets, and listed once it has two. -/
lemma names_spec (targets : List (Target L)) (l : L) :
    (l ∈ (names targets).duplicates ↔ 2 ≤ (named targets l).length) ∧
      (((names targets).byLabel l).isSome = true ↔ named targets l ≠ []) ∧
      ∀ i, (names targets).byLabel l = some i → ∃ t, targets[i]? = some t ∧ t.label = l := by
  induction targets using List.reverseRecOn with
  | nil => simp [names, named]
  | append_singleton ts t ih =>
    obtain ⟨hdup, hs, hget⟩ := ih
    rw [names_concat]
    by_cases hl : t.label = l
    · have hnamed : named (ts ++ [t]) l = named ts l ++ [t] := by simp [named, hl]
      rw [Names.insert, hl]
      cases hnil : named ts l <;> simp_all
    have hnamed : named (ts ++ [t]) l = named ts l := by simp [named, hl]
    have hold : ((names ts).insert (t, ts.length)).byLabel l = (names ts).byLabel l :=
      Function.update_of_ne (Ne.symm hl) ..
    rw [hnamed, hold]
    refine ⟨?_, hs, fun i hi => ?_⟩
    · rw [← hdup, Names.insert]
      split <;> simp [Ne.symm hl]
    · obtain ⟨u, hu, hul⟩ := hget i hi
      exact ⟨u, by rw [List.getElem?_append_left (List.getElem?_eq_some_iff.mp hu).1, hu], hul⟩

/-- Exactly one target has the label, and its own evidence is complete. -/
def Sole (targets : List (Target L)) (l : L) : Prop :=
  ∃ t, named targets l = [t] ∧ t.complete = true

lemma settles_iff {targets} {t : Target L} (ht : t ∈ targets) : (names targets).settles t = true ↔
      Sole targets t.label ∧ ∀ d ∈ t.deps, named targets d ≠ [] := by
  have hmem : t ∈ named targets t.label := by simp [named, ht]
  have hsole : Sole targets t.label ↔ t.complete = true ∧ t.label ∉ (names targets).duplicates := by
    rw [(names_spec targets t.label).1, Sole]
    rcases h : named targets t.label with _ | ⟨u, _ | ⟨v, us⟩⟩
    · simp [h] at hmem
    · obtain rfl : t = u := by simpa [h] using hmem
      simp
    · simp
  simp [Names.settles, hsole, (names_spec targets _).2.1]

variable {targets : List (Target L)} {t : Target L} {i j : ℕ}

/-- A reverse step runs from a target to one that depends on its label. -/
lemma mem_dependents : i ∈ next (dependents targets) j ↔
    ∃ t d, targets[i]? = some t ∧ d ∈ t.deps ∧ (names targets).byLabel d = some j := by
  change Edge _ j i ↔ _
  rw [dependents, edge_adjacency]
  simp only [List.mem_flatMap, List.mem_map, List.mem_filterMap, Prod.mk.injEq, Prod.exists,
    List.mem_zipIdx_iff_getElem?]
  constructor
  · rintro ⟨-, t, k, ht, d, ⟨l, hl, hd⟩, rfl, rfl⟩
    exact ⟨t, l, ht, hl, hd⟩
  · rintro ⟨t, d, ht, hd, hk⟩
    obtain ⟨u, hu, -⟩ := (names_spec targets d).2.2 j hk
    exact ⟨(List.getElem?_eq_some_iff.mp hu).1, t, i, ht, j, ⟨d, hd, hk⟩, rfl, rfl⟩

/-- Some target of the first label depends on the second. -/
def DependsOn (targets : List (Target L)) (l d : L) : Prop :=
  ∃ t ∈ targets, t.label = l ∧ d ∈ t.deps

/-- The label and all that it transitively depends on are sound. -/
def Whole (targets : List (Target L)) (l : L) : Prop :=
  ∀ d, ReflTransGen (DependsOn targets) l d → Sole targets d

lemma Whole.settles (ht : t ∈ targets) (h : Whole targets t.label) :
    (names targets).settles t = true := by
  refine (settles_iff ht).mpr ⟨h _ .refl, fun d hd => ?_⟩
  obtain ⟨u, hu, -⟩ := h d (.single ⟨t, ht, rfl, hd⟩)
  simp [hu]

lemma mem_pending :
    i ∈ pending targets ↔ ∃ t, targets[i]? = some t ∧ (names targets).settles t = false := by
  simp [pending, List.mem_zipIdx_iff_getElem?]

lemma marked_unsettled : marked (unsettled targets) i = true ↔ i ∈ pending targets := by
  rw [mem_pending]
  cases h : targets[i]? <;> simp [marked, unsettled, h]

lemma not_whole_of_marked (ht : targets[i]? = some t) (hm : marked (incomplete targets) i = true) :
    ¬ Whole targets t.label := by
  have hpending : ∀ x ∈ pending targets, ∀ u, targets[x]? = some u → ¬ Whole targets u.label := by
    intro x hx u hu hw
    obtain ⟨v, hv, hs⟩ := mem_pending.mp hx
    obtain rfl : u = v := by simpa [hu] using hv
    simp [hw.settles (List.mem_of_getElem? hu)] at hs
  have hstep : ∀ x, (∀ u, targets[x]? = some u → ¬ Whole targets u.label) →
      ∀ y ∈ next (dependents targets) x, ∀ u, targets[y]? = some u → ¬ Whole targets u.label := by
    intro x hx y hy u hu hw
    obtain ⟨v, d, hv, hd, hxd⟩ := mem_dependents.mp hy
    obtain rfl : u = v := by simpa [hu] using hv
    obtain ⟨w, hxw, rfl⟩ := (names_spec targets d).2.2 x hxd
    exact hx w hxw fun l hl => hw l (.head ⟨u, List.mem_of_getElem? hu, rfl, hd⟩ hl)
  rcases (searchLoop_reaches hstep (fun _ => id) hpending).2 i hm with hm | hm
  · exact hpending i (marked_unsettled.mp hm) t ht
  · exact hm t ht

/-- The walk keeps the marks it starts with, and leaves them closed under its steps. -/
lemma incomplete_closed : (∀ x ∈ pending targets, marked (incomplete targets) x = true) ∧
      ∀ x, marked (incomplete targets) x = true → ∀ y ∈ next (dependents targets) x,
        marked (incomplete targets) y = true := by
  have hrange : ∀ x, ∀ y ∈ next (dependents targets) x, y < targets.length := by
    intro x y hy
    obtain ⟨u, -, hu, -⟩ := mem_dependents.mp hy
    exact (List.getElem?_eq_some_iff.mp hu).1
  have hcount : (unsettled targets).count false ≤ targets.length :=
    Nat.le_trans List.count_le_length (by simp [unsettled])
  obtain ⟨-, hk, hs, hm⟩ := searchLoop_closed (by simpa [unsettled] using hrange)
    (Nat.add_le_add_left hcount _) searchLoop_never
  refine ⟨fun x hx => hk x (marked_unsettled.mpr hx), fun x hx y hy => ?_⟩
  rcases hm x hx with hx | hx
  · exact (hs x (marked_unsettled.mp hx) y hy).2
  · exact (hx y hy).2

lemma whole_of_not_marked (ht : targets[i]? = some t) (hm : marked (incomplete targets) i ≠ true) :
    Whole targets t.label := by
  obtain ⟨hkeep, hb⟩ := @incomplete_closed _ _ targets
  have hsettles : ∀ {j u}, targets[j]? = some u → marked (incomplete targets) j ≠ true →
      Sole targets u.label ∧ ∀ d ∈ u.deps, named targets d ≠ [] := by
    intro j u hu hj
    refine (settles_iff (List.mem_of_getElem? hu)).mp (by_contra fun hset => hj (hkeep j ?_))
    exact mem_pending.mpr ⟨u, hu, by simpa using hset⟩
  intro l hl
  -- The walk left unmarked some target of every label on the way.
  suffices h : ∃ j u, targets[j]? = some u ∧ u.label = l ∧ marked (incomplete targets) j ≠ true by
    obtain ⟨j, u, hu, rfl, hj⟩ := h
    exact (hsettles hu hj).1
  induction hl with
  | refl => exact ⟨i, t, ht, rfl, hm⟩
  | tail _ hs ih =>
    obtain ⟨j, u, hu, rfl, hj⟩ := ih
    obtain ⟨v, hv, hvl, hd⟩ := hs
    obtain ⟨⟨w, hw, -⟩, hdeps⟩ := hsettles hu hj
    have hsole : ∀ x ∈ targets, x.label = u.label → x = w := by
      intro x hx hl
      have hx : x ∈ named targets u.label := by simp [named, hx, hl]
      simpa [hw] using hx
    obtain rfl : u = v := (hsole u (List.mem_of_getElem? hu) rfl).trans (hsole v hv hvl).symm
    obtain ⟨k, hk⟩ := Option.isSome_iff_exists.mp ((names_spec targets _).2.1.mpr (hdeps _ hd))
    obtain ⟨x, hx, rfl⟩ := (names_spec targets _).2.2 k hk
    exact ⟨k, x, hx, rfl, fun hkm => hj (hb k hkm j (mem_dependents.mpr ⟨u, _, hu, hd, hk⟩))⟩

lemma Whole.perm {us} {l : L} (h : targets.Perm us) (hw : Whole targets l) : Whole us l := by
  intro d hd
  obtain ⟨t, ht, hc⟩ := hw d (hd.lift id fun _ _ ⟨t, ht, hl⟩ => ⟨t, h.mem_iff.mpr ht, hl⟩)
  have hperm : (named targets d).Perm (named us d) := h.filter _
  rw [ht, List.singleton_perm] at hperm
  exact ⟨t, hperm.symm, hc⟩

open Classical in
/-- The targets left complete are those whose transitive dependencies all name one target, with
complete evidence. -/
theorem inferLinkTargets_eq (collected : List (Target L)) :
    inferLinkTargets collected = (collected.mergeSort fun a b => a.label ≤ b.label).map fun t =>
      { t with complete := decide (Whole collected t.label) } := by
  have hperm := collected.mergeSort_perm fun a b => decide (a.label ≤ b.label)
  refine List.ext_getElem? fun i => ?_
  simp only [inferLinkTargets, List.getElem?_map, List.getElem?_zipIdx, Option.map_map]
  refine Option.map_congr fun t ht => ?_
  have hwhole : marked (incomplete (collected.mergeSort fun a b => a.label ≤ b.label)) i ≠ true ↔
      Whole collected t.label :=
    ⟨fun hm => (whole_of_not_marked ht hm).perm hperm,
      fun hw hm => not_whole_of_marked ht hm (hw.perm hperm.symm)⟩
  simp [← hwhole]

end Pathologist.Targets

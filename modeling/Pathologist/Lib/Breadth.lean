import Pathologist.Lib.Loop
import Mathlib.Data.List.Nodup
import Mathlib.Order.Bounds.Defs
import Mathlib.Data.Nat.Find
import Mathlib.Data.List.Perm.Subperm

/-!
# Breadth-first walks

A queue of nodes, each with the depth at which it was found. A node that is taken from the queue
is listed, and those of its neighbours that were not found before are queued one level deeper,
up to a depth that may be capped. The walk lists what is found in order of depth, each node once and
at its least depth.
-/
namespace Pathologist.Lib.Breadth
open List

structure Walk (α : Type*) where
  order : List (α × ℕ)
  queue : List (α × ℕ)

variable {α : Type*}

namespace Walk

def entries (w : Walk α) : List (α × ℕ) := w.order ++ w.queue

/-- The nodes that are listed or queued. -/
def visited (w : Walk α) : List α := w.entries.map Prod.fst

variable [DecidableEq α] (next : α → List α) (cap : Option ℕ)

/-- Queue those of `ys` that were not visited, at depth `d`. -/
def visit (d : ℕ) (w : Walk α) (ys : List α) : Walk α :=
  ys.foldl (fun w y => if y ∈ w.visited then w else { w with queue := w.queue ++ [(y, d)] }) w

def start (roots : List α) : Walk α := visit 0 ⟨[], []⟩ roots

/-- List the first node of the queue and queue its neighbours, unless its depth is the cap. -/
def step (w : Walk α) : Option (Walk α) :=
  match w.queue with
  | [] => none
  | e :: queue =>
    some (visit (e.2 + 1) ⟨w.order ++ [e], queue⟩ (if ∀ c ∈ cap, e.2 < c then next e.1 else []))

end Walk

/-- Where `d` steps from the roots lead. -/
def Layer (next : α → List α) (roots : List α) : ℕ → α → Prop
  | 0, x => x ∈ roots
  | d + 1, y => ∃ x, Layer next roots d x ∧ y ∈ next x

variable {next : α → List α} {cap : Option ℕ} {roots : List α} {w w' : Walk α}

open Walk
variable [DecidableEq α]

lemma exists_visit (d : ℕ) (ys : List α) (h : w.visited.Nodup) : ∃ new : List α,
    visit d w ys = ⟨w.order, w.queue ++ new.map (·, d)⟩ ∧ (w.visited ++ new).Nodup ∧
      ∀ y, y ∈ w.visited ++ new ↔ y ∈ w.visited ∨ y ∈ ys := by
  induction ys generalizing w with
  | nil => exact ⟨[], by simp [visit], by simpa using h, by simp⟩
  | cons y ys ih =>
    by_cases hy : y ∈ w.visited
    · obtain ⟨new, ha, hno, hmem⟩ := ih h
      refine ⟨new, by rw [← ha, visit, foldl_cons, if_pos hy, visit], hno, fun z => ?_⟩
      rw [hmem, mem_cons]
      exact ⟨Or.imp_right .inr, by rintro (hz | rfl | hz) <;> tauto⟩
    · have hvi : visited ⟨w.order, w.queue ++ [(y, d)]⟩ = w.visited ++ [y] := by
        simp [visited, entries]
      have hno : (w.visited ++ [y]).Nodup := by
        simpa [nodup_append, h] using fun _ hz => ne_of_mem_of_not_mem hz hy
      obtain ⟨new, ha, hno, hmem⟩ := ih (hvi ▸ hno)
      rw [hvi] at hno hmem
      refine ⟨y :: new, ?_, by simpa using hno, fun z => ?_⟩
      · rw [visit, foldl_cons, if_neg hy, ← visit, ha]
        simp
      · rw [append_cons, hmem]
        simp [or_assoc]

/-- What one turn does: it lists the first entry of the queue and queues new nodes below it. -/
lemma step_cases (hw : w.visited.Nodup) (h : w.step next cap = some w') :
    ∃ e queue new, w.queue = e :: queue ∧ w'.order = w.order ++ [e] ∧
      w'.queue = queue ++ new.map (·, e.2 + 1) ∧ w'.entries = w.entries ++ new.map (·, e.2 + 1) ∧
      (w.visited ++ new).Nodup ∧
      ∀ y, y ∈ w.visited ++ new ↔ y ∈ w.visited ∨ (∀ c ∈ cap, e.2 < c) ∧ y ∈ next e.1 := by
  unfold step at h
  split at h
  · cases h
  rename_i e queue hq
  have hv : visited ⟨w.order ++ [e], queue⟩ = w.visited := by
    simp [visited, entries, hq]
  obtain ⟨new, ha, hn, hmem⟩ := exists_visit (e.2 + 1) (if ∀ c ∈ cap, e.2 < c then next e.1 else [])
    (hv ▸ hw)
  rw [hv] at hn hmem
  cases h
  rw [ha]
  refine ⟨e, queue, new, hq, rfl, rfl, by simp [entries, hq], hn, fun y => ?_⟩
  rw [hmem]
  split <;> simp_all

/-- Nodes are found once; what is below the first level was found from above; and what is listed
above the cap has its neighbours found. -/
structure Inv (next : α → List α) (cap : Option ℕ) (w : Walk α) : Prop where
  nodup : w.visited.Nodup
  parent : ∀ {y d}, (y, d + 1) ∈ w.entries → (∀ c ∈ cap, d < c) ∧ ∃ x, (x, d) ∈ w.order ∧ y ∈ next x
  closed : ∀ {x d}, (x, d) ∈ w.order → (∀ c ∈ cap, d < c) → ∀ y ∈ next x, y ∈ w.visited

lemma Inv.step (hw : Inv next cap w) (h : w.step next cap = some w') : Inv next cap w' := by
  obtain ⟨e, queue, new, -, ho, -, he, hn, hmem⟩ := step_cases hw.nodup h
  have hv : w'.visited = w.visited ++ new := by simp [visited, he, Function.comp_def]
  refine ⟨hv ▸ hn, fun {y d} hy => ?_, fun {x d} hx hc y hy => ?_⟩
  · rw [he, mem_append] at hy
    rcases hy with hy | hy
    · obtain ⟨hc, x, hx, hyx⟩ := hw.parent hy
      exact ⟨hc, x, ho ▸ mem_append_left _ hx, hyx⟩
    · obtain ⟨z, hz, heq⟩ := mem_map.mp hy
      obtain ⟨rfl, rfl⟩ : z = y ∧ e.2 = d := by simpa using heq
      have hz' : z ∉ w.visited := fun hold => (nodup_append.mp hn).2.2 _ hold _ hz rfl
      obtain ⟨hc, hne⟩ := ((hmem z).mp (mem_append_right _ hz)).resolve_left hz'
      exact ⟨hc, e.1, by simp [ho], hne⟩
  · rw [hv]
    rw [ho, mem_append, mem_singleton] at hx
    rcases hx with hx | rfl
    · exact mem_append_left _ (hw.closed hx hc y hy)
    · exact (hmem y).mpr (.inr ⟨hc, hy⟩)

lemma start_cases (roots : List α) : ∃ new : List α,
    start roots = ⟨[], new.map (·, 0)⟩ ∧ new.Nodup ∧ ∀ y, y ∈ new ↔ y ∈ roots := by
  obtain ⟨new, ha, hn, hmem⟩ := exists_visit (w := ⟨[], []⟩) 0 roots nodup_nil
  exact ⟨new, ha, hn, fun y => by simpa [visited, entries] using hmem y⟩

lemma Inv.run (hw : Inv next cap w) (fuel : ℕ) :
    Inv next cap (Loop.run (Walk.step next cap) fuel w) :=
  Loop.run_invariant (fun _ _ hs h => hs.step h) fuel hw

lemma Inv.le_length_order (hw : Inv next cap w) (fuel : ℕ) :
    (Loop.run (Walk.step next cap) fuel w).queue = [] ∨
      w.order.length + fuel ≤ (Loop.run (Walk.step next cap) fuel w).order.length := by
  induction fuel generalizing w with
  | zero => exact .inr le_rfl
  | succ fuel ih =>
    rw [Loop.run]
    split
    · next w' h =>
      obtain ⟨e, queue, new, -, ho, -⟩ := step_cases hw.nodup h
      refine (ih (hw.step h)).imp_right fun hle => ?_
      rw [ho, length_append, length_singleton] at hle
      omega
    · next h =>
      unfold Walk.step at h
      split at h
      · exact .inl ‹_›
      · cases h

/-- With fuel for every node that it finds, the walk empties its queue. -/
lemma Inv.queue_eq_nil (hw : Inv next cap w) {S : List α} {fuel : ℕ} (hf : S.length ≤ fuel)
    (hS : (Loop.run (Walk.step next cap) fuel w).visited ⊆ S) :
    (Loop.run (Walk.step next cap) fuel w).queue = [] := by
  refine (hw.le_length_order fuel).elim id fun hle => ?_
  have hlen := ((hw.run fuel).nodup.subperm hS).length_le
  rw [visited, length_map, entries, length_append] at hlen
  exact length_eq_zero_iff.mp (by omega)

/-- Entries are in order of depth, on two levels at most once they are queued, and the neighbours
of what is listed are at most one level below it. -/
structure Level (next : α → List α) (cap : Option ℕ) (roots : List α) (w : Walk α) : Prop
    extends Inv next cap w where
  sorted : w.entries.Pairwise (·.2 ≤ ·.2)
  spread : ∀ e ∈ w.queue, ∀ e' ∈ w.entries, e'.2 ≤ e.2 + 1
  near : ∀ {x d}, (x, d) ∈ w.order → (∀ c ∈ cap, d < c) →
    ∀ y ∈ next x, ∃ d' ≤ d + 1, (y, d') ∈ w.entries
  roots : ∀ x, (x, 0) ∈ w.entries ↔ x ∈ roots

lemma level_start (roots : List α) : Level next cap roots (start roots) := by
  obtain ⟨new, hs, hn, hmem⟩ := start_cases roots
  have he : (start roots).entries = new.map (·, 0) := by simp [hs, entries]
  refine ⟨⟨?_, ?_, ?_⟩, ?_, ?_, ?_, ?_⟩
  · simpa [visited, he, Function.comp_def] using hn
  · simp [he]
  · simp [hs]
  · exact he ▸ pairwise_map.mpr (pairwise_of_forall fun _ _ => le_rfl)
  · intro e _ e' he'
    obtain ⟨y, -, rfl⟩ := mem_map.mp (he ▸ he')
    exact Nat.zero_le _
  · simp [hs]
  · simp [he, hmem]

lemma Level.step (hw : Level next cap roots w) (h : w.step next cap = some w') :
    Level next cap roots w' := by
  have hinv := hw.toInv.step h
  obtain ⟨e, queue, new, hq, ho, hq', he, hn, hmem⟩ := step_cases hw.nodup h
  have hnew : ∀ e' ∈ new.map (·, e.2 + 1), e'.2 = e.2 + 1 := by simp
  have hbe : ∀ e' ∈ w'.entries, e'.2 ≤ e.2 + 1 := by
    intro e' he'
    rw [he, mem_append] at he'
    rcases he' with he' | he'
    · exact hw.spread e (by simp [hq]) e' he'
    · exact (hnew e' he').le
  have hab : ∀ e' ∈ w'.queue, e.2 ≤ e'.2 := by
    intro e' he'
    rw [hq', mem_append] at he'
    rcases he' with he' | he'
    · have hs : (e :: queue).Pairwise (·.2 ≤ ·.2) := hq ▸ (pairwise_append.mp hw.sorted).2.1
      exact rel_of_pairwise_cons hs he'
    · exact (hnew e' he') ▸ Nat.le_succ _
  refine ⟨hinv, ?_, fun e' he' e'' he'' => ?_, fun {x d} hx hc y hy => ?_, fun x => ?_⟩
  · rw [he, pairwise_append]
    refine ⟨hw.sorted, pairwise_map.mpr (pairwise_of_forall fun _ _ => le_rfl), fun a ha b hb => ?_⟩
    rw [hnew b hb]
    exact hbe a (he ▸ mem_append_left _ ha)
  · exact (hbe e'' he'').trans (Nat.succ_le_succ (hab e' he'))
  · rw [ho, mem_append, mem_singleton] at hx
    rcases hx with hx | rfl
    · obtain ⟨d', hd', hy'⟩ := hw.near hx hc y hy
      exact ⟨d', hd', he ▸ mem_append_left _ hy'⟩
    · have hy' : y ∈ w'.visited := hinv.closed (by simp [ho]) hc y hy
      obtain ⟨⟨z, d'⟩, hz, rfl⟩ := mem_map.mp hy'
      exact ⟨d', hbe _ hz, hz⟩
  · rw [he, mem_append, hw.roots]
    simp

omit [DecidableEq α]

open Classical in
lemma exists_isLeast {x : α} {n : ℕ} (h : Layer next roots n x) :
    ∃ d ≤ n, IsLeast {k | Layer next roots k x} d :=
  ⟨Nat.find ⟨n, h⟩, Nat.find_min' _ h, Nat.find_spec ⟨n, h⟩, fun _ hk => Nat.find_min' _ hk⟩

lemma Level.layer (hw : Level next cap roots w) {x : α} {d : ℕ} (h : (x, d) ∈ w.entries) :
    (∀ c ∈ cap, d ≤ c) ∧ Layer next roots d x := by
  induction d generalizing x with
  | zero => exact ⟨fun _ _ => Nat.zero_le _, (hw.roots x).mp h⟩
  | succ d ih =>
    obtain ⟨hc, y, hy, hx⟩ := hw.parent h
    exact ⟨hc, y, (ih (mem_append_left _ hy)).2, hx⟩

/-- A walk that has ended lists each node within the cap once, at its least depth. -/
lemma Level.mem_order (hw : Level next cap roots w) (hq : w.queue = []) {x : α} {d : ℕ} :
    (x, d) ∈ w.order ↔ (∀ c ∈ cap, d ≤ c) ∧ IsLeast {k | Layer next roots k x} d := by
  have he : w.entries = w.order := by simp [entries, hq]
  have hfo : ∀ {n x}, (∀ c ∈ cap, n ≤ c) → Layer next roots n x → ∃ k ≤ n, (x, k) ∈ w.order := by
    intro n
    induction n with
    | zero => exact fun {x} _ hx => ⟨0, le_rfl, he ▸ (hw.roots x).mpr hx⟩
    | succ n ih =>
      rintro y hn ⟨x, hx, hy⟩
      obtain ⟨k, hk, hx⟩ := ih (fun c hc => (Nat.le_succ n).trans (hn c hc)) hx
      obtain ⟨k', hk', hy⟩ := hw.near hx (fun c hc => hk.trans_lt (hn c hc)) y hy
      exact ⟨k', hk'.trans (Nat.succ_le_succ hk), he ▸ hy⟩
  have hun : ∀ {k k'}, (x, k) ∈ w.order → (x, k') ∈ w.order → k = k' := by
    intro k k' hk hk'
    have hinj := inj_on_of_nodup_map (he ▸ hw.nodup : (w.order.map Prod.fst).Nodup) hk hk' rfl
    exact (Prod.mk.inj hinj).2
  constructor
  · intro hx
    obtain ⟨hd, hl⟩ := hw.layer (he ▸ hx)
    refine ⟨hd, hl, fun k hk => le_of_not_gt fun hlt => ?_⟩
    obtain ⟨k', hk', hx'⟩ := hfo (fun c hc => hlt.le.trans (hd c hc)) hk
    exact (hun hx hx' ▸ hk').not_gt hlt
  · rintro ⟨hd, hl, hle⟩
    obtain ⟨k, hk, hx⟩ := hfo hd hl
    obtain rfl : k = d := hk.antisymm (hle (hw.layer (he ▸ hx)).2)
    exact hx

end Pathologist.Lib.Breadth

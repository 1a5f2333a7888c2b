import Mathlib.Data.List.Perm.Subperm
import Mathlib.Data.List.NodupEquivFin

/-!
# Segments

A segment is one block whose local order the builder split: a chain of blocks,
each continuing the one before it. `cont` names the block each block continues.
The table below gives every block the first block of its chain and its place in
it, walking back from each block to one already numbered.

The builder makes no cycle of continuations. The walk is bounded all the same,
and a block on or behind a cycle never gets place zero.
-/
open List
namespace Pathologist.Sequence
variable {segment : Segments}

/-- A block's segment: its first block, and the block's place in the chain. -/
abbrev Segments := List (Option (ℕ × ℕ))

/-- The block that `b` continues. -/
def previous (cont : List (Option ℕ)) (b : ℕ) : Option ℕ := cont.getD b none

/-- The segment of `b`, once it is known. -/
def numbered (segment : Segments) (b : ℕ) : Option (ℕ × ℕ) := segment.getD b none

/-- Walk back from a block to one whose segment is known, or to the first of its
chain. `room` is what the walk may still push; a cycle ends it there. -/
def walkChain (cont : List (Option ℕ)) : ℕ → Segments → List ℕ → ℕ → Segments × List ℕ × ℕ
  | room, segment, chain, block =>
    match numbered segment block with
    | some _ => (segment, chain, block)
    | none =>
      match previous cont block, room with
      | some src, room + 1 => walkChain cont room segment (block :: chain) src
      | _, _ => (segment.set block (some (block, 0)), chain, block)

/-- Number the blocks of a walk, the last pushed first. -/
def popChain : List ℕ → ℕ × ℕ → Segments → Segments
  | [], _, segment => segment
  | c :: chain, base, segment =>
    popChain chain (base.1, base.2 + 1) (segment.set c (some (base.1, base.2 + 1)))

/-- The walk from one block and the numbering of what it pushed. -/
def segmentFrom (cont : List (Option ℕ)) (n : ℕ) (segment : Segments) (b : ℕ) : Segments :=
  let walk := walkChain cont n segment [] b
  popChain walk.2.1 ((numbered walk.1 walk.2.2).getD (walk.2.2, 0)) walk.1

/-- The walks from every block. -/
def segmentTable (cont : List (Option ℕ)) (n : ℕ) : Segments :=
  (List.range n).foldl (segmentFrom cont n) (List.replicate n none)

def segments (cont : List (Option ℕ)) (n : ℕ) : List (ℕ × ℕ) :=
  (segmentTable cont n).filterMap id

variable {cont : List (Option ℕ)} {n : ℕ}

/-- `v` is the block `k` places after `r` in the chain that starts at `r`. -/
inductive Chain (cont : List (Option ℕ)) (r : ℕ) : ℕ → ℕ → Prop
  | first : previous cont r = none → Chain cont r 0 r
  | next {k v w : ℕ} : Chain cont r k v → previous cont w = some v → Chain cont r (k + 1) w

/-- The chain behind `v` has a first block. -/
def Chained (cont : List (Option ℕ)) (v : ℕ) : Prop := ∃ r k, Chain cont r k v

lemma Chain.unique {r k r' k' v : ℕ} (h : Chain cont r k v) (h' : Chain cont r' k' v) :
    r = r' ∧ k = k' := by
  induction h generalizing k' with
  | first hn =>
    cases h' with
    | first => exact ⟨rfl, rfl⟩
    | next _ hs => simp [hn] at hs
  | next _ hs ih =>
    cases h' with
    | first hn => simp [hs] at hn
    | next hr hs' =>
      cases hs.symm.trans hs'
      obtain ⟨rfl, rfl⟩ := ih hr
      exact ⟨rfl, rfl⟩

lemma Chain.root {r k v : ℕ} (h : Chain cont r k v) : Chain cont r 0 r := by
  induction h with
  | first hn => exact .first hn
  | next _ _ ih => exact ih

lemma chained_iff_of_continues {v w : ℕ} (h : previous cont w = some v) :
    Chained cont w ↔ Chained cont v := by
  constructor
  · rintro ⟨r, k, hc⟩
    cases hc with
    | first hn => simp [h] at hn
    | next hr hs =>
      cases h.symm.trans hs
      exact ⟨r, _, hr⟩
  · rintro ⟨r, k, hc⟩
    exact ⟨r, k + 1, hc.next h⟩

/-- The blocks a walk pushed, each continuing the one pushed after it. -/
def Linked (cont : List (Option ℕ)) : ℕ → List ℕ → Prop
  | _, [] => True
  | b, c :: cs => previous cont c = some b ∧ Linked cont c cs

lemma Linked.chain {r k b c : ℕ} {chain : List ℕ} (hb : Chain cont r k b) (hl : Linked cont b chain)
    (hc : c ∈ chain) : ∃ j, k < j ∧ Chain cont r j c := by
  induction chain generalizing b k with
  | nil => simp at hc
  | cons d ds ih =>
    have hd := hb.next hl.1
    rcases mem_cons.mp hc with rfl | hc
    · exact ⟨k + 1, by omega, hd⟩
    · obtain ⟨j, hj, hjc⟩ := ih hd hl.2 hc
      exact ⟨j, by omega, hjc⟩

lemma Linked.next_mem {b x : ℕ} {chain : List ℕ} (hl : Linked cont b chain) (hx : x ∈ chain) :
    ∃ y ∈ b :: chain, previous cont x = some y := by
  induction chain generalizing b with
  | nil => simp at hx
  | cons d ds ih =>
    rcases mem_cons.mp hx with rfl | hx
    · exact ⟨b, mem_cons_self, hl.1⟩
    · obtain ⟨y, hy, hxy⟩ := ih hl.2 hx
      exact ⟨y, mem_cons_of_mem _ hy, hxy⟩

lemma Linked.nodup {b : ℕ} {chain : List ℕ} (hl : Linked cont b chain) (hb : b ∉ chain) :
    chain.Nodup := by
  induction chain generalizing b with
  | nil => exact nodup_nil
  | cons d ds ih =>
    have hd : d ∉ ds := by
      intro hmem
      obtain ⟨y, hy, hdy⟩ := hl.2.next_mem hmem
      cases hl.1.symm.trans hdy
      exact hb hy
    exact nodup_cons.mpr ⟨hd, ih hl.2 hd⟩

/-- A walk as long as there are blocks has come back to where it stands. -/
lemma Linked.mem_of_full {b : ℕ} {chain : List ℕ} (hl : Linked cont b chain) (hb : b < n)
    (hlt : ∀ c ∈ chain, c < n) (hf : n ≤ chain.length) : b ∈ chain := by
  by_contra hmem
  have hnodup : (b :: chain).Nodup := nodup_cons.mpr ⟨hmem, hl.nodup hmem⟩
  have hsub : (b :: chain) ⊆ List.range n := by
    intro x hx
    rcases mem_cons.mp hx with rfl | hx
    · exact mem_range.mpr hb
    · exact mem_range.mpr (hlt x hx)
  have hle := (subperm_of_subset hnodup hsub).length_le
  simp at hle
  omega

lemma not_chained_of_linked_mem {b : ℕ} {chain : List ℕ} (hl : Linked cont b chain)
    (hb : b ∈ chain) : ¬ Chained cont b := by
  rintro ⟨r, k, hc⟩
  obtain ⟨j, hj, hjc⟩ := hl.chain hc hb
  have := (hc.unique hjc).2
  omega

/-- A correct entry: the block's place in its chain, or, behind a cycle, a
positive place in a chain whose first block is itself on one. -/
def Numbered (cont : List (Option ℕ)) (v : ℕ) (s : ℕ × ℕ) : Prop :=
  Chain cont s.1 s.2 v ∨ (¬ Chained cont v ∧ ¬ Chained cont s.1 ∧ 1 ≤ s.2)

/-- Every entry of the table is correct. -/
def TableOk (cont : List (Option ℕ)) (segment : Segments) : Prop :=
  ∀ v s, numbered segment v = some s → Numbered cont v s

@[simp] lemma numbered_set_self {v : ℕ} {s} (hv : v < segment.length) :
    numbered (segment.set v s) v = s := by
  simp [numbered, hv]

lemma numbered_set_ne {v w : ℕ} {s} (h : v ≠ w) :
    numbered (segment.set v s) w = numbered segment w := by
  simp [numbered, h]

@[simp] lemma length_popChain (chain : List ℕ) (base : ℕ × ℕ) (segment : Segments) :
    (popChain chain base segment).length = segment.length := by
  induction chain generalizing base segment with
  | nil => rfl
  | cons c cs ih => simp [popChain, ih]

lemma popChain_not_mem {chain : List ℕ} {base : ℕ × ℕ} {v : ℕ} (hv : v ∉ chain) :
    numbered (popChain chain base segment) v = numbered segment v := by
  induction chain generalizing base segment with
  | nil => rfl
  | cons c cs ih =>
    obtain ⟨hvc, hvs⟩ : v ≠ c ∧ v ∉ cs := by simpa using hv
    rw [popChain, ih hvs, numbered_set_ne (Ne.symm hvc)]

/-- Every block of the walk gets a correct entry when the block it stands at has
one, or is behind a cycle. -/
lemma popChain_mem {chain : List ℕ} {base : ℕ × ℕ} {b v : ℕ} (hl : Linked cont b chain)
    (hlt : ∀ c ∈ chain, c < segment.length)
    (hbase : Chain cont base.1 base.2 b ∨ (¬ Chained cont b ∧ ¬ Chained cont base.1))
    (hv : v ∈ chain) :
    ∃ s, numbered (popChain chain base segment) v = some s ∧ Numbered cont v s := by
  induction chain generalizing base segment b with
  | nil => simp at hv
  | cons c cs ih =>
    have hba' : Chain cont base.1 (base.2 + 1) c ∨
        (¬ Chained cont c ∧ ¬ Chained cont base.1) := by
      rcases hbase with hc | ⟨hb, hr⟩
      · exact .inl (hc.next hl.1)
      · exact .inr ⟨fun hc => hb ((chained_iff_of_continues hl.1).mp hc), hr⟩
    by_cases hvs : v ∈ cs
    · refine ih hl.2 ?_ hba' hvs
      intro d hd
      simpa using hlt d (mem_cons_of_mem _ hd)
    obtain rfl : v = c := by
      rcases mem_cons.mp hv with h | h
      · exact h
      · exact absurd h hvs
    have hlt' := hlt v mem_cons_self
    refine ⟨(base.1, base.2 + 1), ?_, ?_⟩
    · rw [popChain, popChain_not_mem hvs, numbered_set_self hlt']
    · rcases hba' with hc | ⟨hb, hr⟩
      · exact .inl hc
      · exact .inr ⟨hb, hr, by omega⟩

/-- What a walk hands over. -/
structure WalkEnd (cont : List (Option ℕ)) (segment : Segments) (b : ℕ) (chain : List ℕ)
    (r : Segments × List ℕ × ℕ) : Prop where
  linked : Linked cont r.2.2 r.2.1
  lt : ∀ c ∈ r.2.2 :: r.2.1, c < segment.length
  keeps : ∀ c ∈ b :: chain, c ∈ r.2.2 :: r.2.1
  ends : (r.1 = segment ∧ ∃ s, numbered segment r.2.2 = some s) ∨
    (r.1 = segment.set r.2.2 (some (r.2.2, 0)) ∧ (previous cont r.2.2 = none ∨ r.2.2 ∈ r.2.1))

section
variable (hcont : ∀ v w, previous cont w = some v → v < segment.length)
include hcont

lemma walkChain_spec {room b : ℕ} {chain : List ℕ} (hl : Linked cont b chain)
    (hlt : ∀ c ∈ b :: chain, c < segment.length) (hr : room + chain.length = segment.length) :
    WalkEnd cont segment b chain (walkChain cont room segment chain b) := by
  induction room generalizing b chain with
  | zero =>
    unfold walkChain
    cases hs : numbered segment b with
    | some s => exact ⟨hl, hlt, fun c hc => hc, .inl ⟨rfl, s, hs⟩⟩
    | none =>
      have hmem : b ∈ chain := hl.mem_of_full (hlt b mem_cons_self)
        (fun c hc => hlt c (mem_cons_of_mem _ hc)) (by omega)
      cases hp : previous cont b <;> exact ⟨hl, hlt, fun c hc => hc, .inr ⟨rfl, .inr hmem⟩⟩
  | succ room ih =>
    unfold walkChain
    cases hs : numbered segment b with
    | some s => exact ⟨hl, hlt, fun c hc => hc, .inl ⟨rfl, s, hs⟩⟩
    | none =>
      cases hp : previous cont b with
      | none => exact ⟨hl, hlt, fun c hc => hc, .inr ⟨rfl, .inl hp⟩⟩
      | some src =>
        have hlt' : ∀ c ∈ src :: b :: chain, c < segment.length := by
          intro c hc
          rcases mem_cons.mp hc with rfl | hc
          · exact hcont c b hp
          · exact hlt c hc
        have hlinked : Linked cont src (b :: chain) := ⟨hp, hl⟩
        have hrec := ih hlinked hlt' (by simp; omega)
        exact ⟨hrec.linked, hrec.lt, fun c hc => hrec.keeps c (mem_cons_of_mem _ hc), hrec.ends⟩

/-- One walk keeps the table correct, numbers its start and unnumbers nothing. -/
lemma segmentFrom_spec {b : ℕ} (hok : TableOk cont segment) (hb : b < segment.length) :
    TableOk cont (segmentFrom cont segment.length segment b) ∧
      (segmentFrom cont segment.length segment b).length = segment.length ∧
      ∀ v, v = b ∨ (∃ s, numbered segment v = some s) →
        ∃ s, numbered (segmentFrom cont segment.length segment b) v = some s := by
  have hwalk : WalkEnd cont segment b [] (walkChain cont segment.length segment [] b) :=
    walkChain_spec hcont trivial (by simpa using hb) (by simp)
  unfold segmentFrom
  generalize walkChain cont segment.length segment [] b = r at hwalk
  have hlength : r.1.length = segment.length := by
    rcases hwalk.ends with ⟨hr, _⟩ | ⟨hr, _⟩ <;> simp [hr]
  obtain ⟨table, chain, stop⟩ := r
  obtain ⟨hl, hlt, hk, he⟩ := hwalk
  have hlt' : ∀ c ∈ chain, c < table.length := by
    intro c hc
    rw [hlength]
    exact hlt c (mem_cons_of_mem _ hc)
  -- the entry the numbering starts from
  have hbase : ∃ base, numbered table stop = some base ∧
      (Chain cont base.1 base.2 stop ∨ (¬ Chained cont stop ∧ ¬ Chained cont base.1)) ∧
      (Numbered cont stop base ∨ stop ∈ chain) := by
    rcases he with ⟨ht, s, hs⟩ | ⟨ht, hf⟩
    · subst ht
      have hn := hok stop s hs
      refine ⟨s, hs, ?_, .inl hn⟩
      rcases hn with hc | ⟨hc, hr, _⟩
      · exact .inl hc
      · exact .inr ⟨hc, hr⟩
    dsimp only at ht hf
    subst ht
    refine ⟨(stop, 0), numbered_set_self (hlt stop mem_cons_self), ?_, ?_⟩
    · rcases hf with hnone | hmem
      · exact .inl (.first hnone)
      · have hnot := not_chained_of_linked_mem hl hmem
        exact .inr ⟨hnot, hnot⟩
    · rcases hf with hnone | hmem
      · exact .inl (.inl (.first hnone))
      · exact .inr hmem
  -- outside the walk only `stop` may have changed
  have hother : ∀ v, v ≠ stop → numbered table v = numbered segment v := by
    intro v hv
    rcases he with ⟨ht, _⟩ | ⟨ht, _⟩
    · dsimp only at ht
      rw [ht]
    · dsimp only at ht
      rw [ht, numbered_set_ne (Ne.symm hv)]
  obtain ⟨base, hstop, hstart, hg⟩ := hbase
  simp only [hstop, Option.getD_some]
  refine ⟨?_, by simpa using hlength, ?_⟩
  · intro v s hs
    by_cases hv : v ∈ chain
    · obtain ⟨s', hs', hn⟩ := popChain_mem hl hlt' hstart hv
      cases hs.symm.trans hs'
      exact hn
    rw [popChain_not_mem hv] at hs
    by_cases hvs : v = stop
    · subst hvs
      cases hs.symm.trans hstop
      exact hg.resolve_right hv
    · exact hok v s (by rw [← hother v hvs]; exact hs)
  intro v hv
  by_cases hmem : v ∈ chain
  · obtain ⟨s, hs, _⟩ := popChain_mem hl hlt' hstart hmem
    exact ⟨s, hs⟩
  rw [popChain_not_mem hmem]
  by_cases hvs : v = stop
  · exact ⟨base, hvs ▸ hstop⟩
  rw [hother v hvs]
  rcases hv with rfl | hv
  · rcases mem_cons.mp (hk v mem_cons_self) with h | h
    · exact absurd h hvs
    · exact absurd h hmem
  · exact hv

end

lemma segmentTable_spec (hcont : ∀ v w, previous cont w = some v → v < n) :
    TableOk cont (segmentTable cont n) ∧ (segmentTable cont n).length = n ∧
      ∀ v < n, ∃ s, numbered (segmentTable cont n) v = some s := by
  suffices hf : ∀ k ≤ n,
      TableOk cont ((List.range k).foldl (segmentFrom cont n) (List.replicate n none)) ∧
      ((List.range k).foldl (segmentFrom cont n) (List.replicate n none)).length = n ∧
      ∀ v < k, ∃ s,
        numbered ((List.range k).foldl (segmentFrom cont n) (List.replicate n none)) v = some s by
    exact hf n le_rfl
  intro k
  induction k with
  | zero =>
    intro _
    refine ⟨?_, by simp, by simp⟩
    intro v s hs
    by_cases hv : v < n <;> simp [numbered, hv] at hs
  | succ k ih =>
    intro hk
    obtain ⟨hok, hl, hall⟩ := ih (by omega)
    rw [range_succ, foldl_append, foldl_cons]
    generalize (List.range k).foldl (segmentFrom cont n) (List.replicate n none) = table at *
    subst hl
    obtain ⟨hok', hl', hall'⟩ := segmentFrom_spec hcont hok (b := k) (by omega)
    refine ⟨hok', hl', ?_⟩
    intro v hv
    refine hall' v ?_
    by_cases hvk : v = k
    · exact .inl hvk
    · exact .inr (hall v (by omega))

lemma getElem?_filterMap_id {α : Type*} {l : List (Option α)} (h : ∀ x ∈ l, ∃ a, x = some a)
    (i : ℕ) : (l.filterMap id)[i]? = (l[i]?).join := by
  induction l generalizing i with
  | nil => rfl
  | cons x xs ih =>
    obtain ⟨a, rfl⟩ := h x mem_cons_self
    have hxs := ih (fun y hy => h y (mem_cons_of_mem _ hy))
    cases i with
    | zero => simp
    | succ i => simpa using hxs i

/-- The segment of a block is its place in its chain; behind a cycle the place is
positive and the first block is on none. -/
lemma segments_spec (hcont : ∀ v w, previous cont w = some v → v < n) {v : ℕ} (hv : v < n) :
    Numbered cont v ((segments cont n).getD v (v, 0)) := by
  obtain ⟨hok, hl, hall⟩ := segmentTable_spec hcont
  have hsome : ∀ x ∈ segmentTable cont n, ∃ s, x = some s := by
    intro x hx
    obtain ⟨i, hi, rfl⟩ := mem_iff_getElem.mp hx
    obtain ⟨s, hs⟩ := hall i (by omega)
    refine ⟨s, ?_⟩
    simpa [numbered, hi] using hs
  obtain ⟨s, hs⟩ := hall v hv
  have hget : (segments cont n).getD v (v, 0) = s := by
    have hv' : v < (segmentTable cont n).length := by omega
    rw [segments, getD_eq_getElem?_getD, getElem?_filterMap_id hsome]
    have : (segmentTable cont n)[v]? = some (some s) := by
      simpa [numbered, hv'] using hs
    simp [this]
  rw [hget]
  exact hok v s hs

end Pathologist.Sequence

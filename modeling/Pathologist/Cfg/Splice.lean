import Mathlib.Data.Finset.Basic
import Mathlib.Data.List.ReduceOption
import Pathologist.Lib.Elimination

/-!
# Splicing events out of the local order

`splice_order` keeps the immediate pairs of a block's local order in one list and
indexes them by event. An event that is dropped has its pairs removed and each
event before it joined to each event after it. Between the events that are not
dropped, one splice after another keeps what reaches what.
-/
namespace Pathologist.Cfg
open Relation Lib.Elimination List
variable {renumber : List (Option ℕ)}

/-- The tables of `splice_order`: the pairs in insertion order, `none` once
removed, the positions of each event's pairs, and the pairs not removed yet. -/
structure Splicing where
  pairs : List (Option (ℕ × ℕ))
  outgoing : List (List ℕ)
  incoming : List (List ℕ)
  live : Finset (ℕ × ℕ)

def Splicing.push (s : Splicing) (pair : ℕ × ℕ) : Splicing where
  pairs := s.pairs ++ [some pair]
  outgoing := s.outgoing.modify pair.1 (· ++ [s.pairs.length])
  incoming := s.incoming.modify pair.2 (· ++ [s.pairs.length])
  live := insert pair s.live

/-- The tables of `order` over `n` events. -/
def Splicing.start (order : List (ℕ × ℕ)) (n : ℕ) : Splicing :=
  order.foldl Splicing.push
    { pairs := [], outgoing := List.replicate n [], incoming := List.replicate n [], live := ∅ }

/-- The pair at a position of a list of pairs, unless removed. -/
def pairAt (pairs : List (Option (ℕ × ℕ))) (i : ℕ) : Option (ℕ × ℕ) := pairs.getD i none

def Splicing.take (s : Splicing) (i : ℕ) : Splicing :=
  match pairAt s.pairs i with
  | some pair => { s with pairs := s.pairs.set i none, live := s.live.erase pair }
  | none => s

/-- Append a pair unless it is there. -/
def Splicing.join (s : Splicing) (pair : ℕ × ℕ) : Splicing :=
  if pair ∈ s.live then s else s.push pair

/-- The positions of the pairs into and out of an event. -/
def Splicing.touching (s : Splicing) (old : ℕ) : List ℕ :=
  s.incoming.getD old [] ++ s.outgoing.getD old []

/-- Remove the pairs of `old` and forget its positions. -/
def Splicing.detach (s : Splicing) (old : ℕ) : Splicing :=
  let t := (s.touching old).foldl Splicing.take s
  { t with incoming := t.incoming.set old [], outgoing := t.outgoing.set old [] }

def Splicing.preds (s : Splicing) (old : ℕ) : List ℕ :=
  (s.incoming.getD old []).filterMap fun i => (pairAt s.pairs i).map Prod.fst

def Splicing.succs (s : Splicing) (old : ℕ) : List ℕ :=
  (s.outgoing.getD old []).filterMap fun i => (pairAt s.pairs i).map Prod.snd

/-- Splice out one event. A pair of the event with itself leaves pairs that still
touch it; the renumbering drops those. -/
def Splicing.spliceOut (s : Splicing) (old : ℕ) : Splicing :=
  (s.preds old).foldl (fun t p => (s.succs old).foldl (fun t q => t.join (p, q)) t) (s.detach old)

/-- `order` with each event `renumber` drops spliced out in ascending order. -/
def spliceOrder (order : List (ℕ × ℕ)) (renumber : List (Option ℕ)) : List (ℕ × ℕ) :=
  let s := renumber.zipIdx.foldl (fun s e => if e.1.isSome then s else s.spliceOut e.2)
    (Splicing.start order renumber.length)
  s.pairs.reduceOption

/-- `table` lists by their end `side` the positions of pairs, and of every pair
whose end is not `gone`. -/
structure Index (side : ℕ × ℕ → ℕ) (gone : ℕ → Prop) (pairs : List (Option (ℕ × ℕ)))
    (table : List (List ℕ)) : Prop where
  side_lt : ∀ i q, pairAt pairs i = some q → side q < table.length
  lt : ∀ a, ∀ i ∈ table.getD a [], i < pairs.length
  sound : ∀ a, ∀ i ∈ table.getD a [], ∀ q, pairAt pairs i = some q → side q = a
  complete : ∀ i q, pairAt pairs i = some q → ¬ gone (side q) → i ∈ table.getD (side q) []

section Index
variable {side : ℕ × ℕ → ℕ} {gone : ℕ → Prop} {pairs : List (Option (ℕ × ℕ))}
  {table : List (List ℕ)}

lemma pairAt_lt {i : ℕ} {q : ℕ × ℕ} (h : pairAt pairs i = some q) : i < pairs.length := by
  by_contra hi
  simp [pairAt, getElem?_eq_none (Nat.le_of_not_lt hi)] at h

lemma pairAt_append (q : ℕ × ℕ) (i : ℕ) :
    pairAt (pairs ++ [some q]) i = if i = pairs.length then some q else pairAt pairs i := by
  unfold pairAt
  rcases lt_trichotomy i pairs.length with h | h | h
  · simp [getElem?_append_left h, h.ne]
  · simp [h]
  · have hout : (pairs ++ [some q])[i]? = none := by simp; omega
    have hout' : pairs[i]? = none := by simp; omega
    simp [hout, hout', h.ne']

lemma pairAt_set (i j : ℕ) :
    pairAt (pairs.set i none) j = if i = j then none else pairAt pairs j := by
  unfold pairAt
  by_cases h : i = j
  · subst h
    by_cases hi : i < pairs.length
    · simp [hi]
    · simp [hi]
  · simp [h]

lemma getD_modify (t : List (List ℕ)) (a b i : ℕ) (ha : a < t.length) :
    (t.modify a (· ++ [i])).getD b [] = if a = b then t.getD b [] ++ [i] else t.getD b [] := by
  by_cases h : a = b
  · subst h
    simp [ha]
  · simp [h]

lemma getD_set_nil (t : List (List ℕ)) (a b : ℕ) :
    (t.set a []).getD b [] = if a = b then [] else t.getD b [] := by
  by_cases h : a = b
  · subst h
    by_cases ha : a < t.length
    · simp [ha]
    · simp [ha]
  · simp [h]

lemma Index.nil (n : ℕ) : Index side gone [] (List.replicate n []) := by
  have hnil : ∀ a, (List.replicate n ([] : List ℕ)).getD a [] = [] := by
    intro a
    by_cases ha : a < n
    · simp [ha]
    · simp [ha]
  refine ⟨fun i q h => ?_, fun a i hi => ?_, fun a i hi => ?_, fun i q h => ?_⟩
  · simp [pairAt] at h
  · rw [hnil] at hi
    cases hi
  · rw [hnil] at hi
    cases hi
  · simp [pairAt] at h

variable (h : Index side gone pairs table)
include h

lemma Index.push {q : ℕ × ℕ} (hq : side q < table.length) :
    Index side gone (pairs ++ [some q]) (table.modify (side q) (· ++ [pairs.length])) := by
  -- a listed position is the new one, at the new pair's end, or an old one
  have hmem : ∀ a i, i ∈ (table.modify (side q) (· ++ [pairs.length])).getD a [] ↔
      i ∈ table.getD a [] ∨ side q = a ∧ i = pairs.length := by
    intro a i
    rw [getD_modify _ _ _ _ hq]
    by_cases ha : side q = a
    · simp [ha]
    · simp [ha]
  refine ⟨fun i p hp => ?_, fun a i hi => ?_, fun a i hi p hp => ?_, fun i p hp hg => ?_⟩
  · rw [length_modify]
    rw [pairAt_append] at hp
    split at hp
    · exact Option.some.inj hp ▸ hq
    · exact h.side_lt i p hp
  · rw [length_append, length_singleton]
    rcases (hmem a i).mp hi with hi | ⟨-, rfl⟩
    · have := h.lt a i hi
      omega
    · omega
  · rw [pairAt_append] at hp
    rcases (hmem a i).mp hi with hi | ⟨rfl, rfl⟩
    · rw [if_neg (h.lt a i hi).ne] at hp
      exact h.sound a i hi p hp
    · rw [if_pos rfl] at hp
      rw [← Option.some.inj hp]
  rw [pairAt_append] at hp
  rw [hmem]
  split at hp
  · right
    exact ⟨by rw [Option.some.inj hp], ‹_›⟩
  · exact .inl (h.complete i p hp hg)

lemma Index.mono {pairs'} (hlen : pairs'.length = pairs.length)
    (hsub : ∀ i q, pairAt pairs' i = some q → pairAt pairs i = some q) :
    Index side gone pairs' table where
  side_lt i q hq := h.side_lt i q (hsub i q hq)
  lt a i hi := hlen ▸ h.lt a i hi
  sound a i hi q hq := h.sound a i hi q (hsub i q hq)
  complete i q hq hg := h.complete i q (hsub i q hq) hg

lemma Index.clear (old : ℕ) : Index side (fun a => gone a ∨ a = old) pairs (table.set old []) := by
  have hmem : ∀ a i, i ∈ (table.set old []).getD a [] ↔ old ≠ a ∧ i ∈ table.getD a [] := by
    intro a i
    rw [getD_set_nil]
    by_cases ha : old = a
    · simp
    · simp
  refine ⟨fun i q hq => ?_, fun a i hi => ?_, fun a i hi => ?_, fun i q hq hg => ?_⟩
  · rw [length_set]
    exact h.side_lt i q hq
  · exact h.lt a i ((hmem a i).mp hi).2
  · exact h.sound a i ((hmem a i).mp hi).2
  · push Not at hg
    exact (hmem _ _).mpr ⟨hg.2.symm, h.complete i q hq hg.1⟩

end Index

namespace Splicing
variable {s : Splicing} {n : ℕ} {gone : ℕ → Prop}

/-- The pairs not removed, as a relation. -/
def Holds (s : Splicing) (a b : ℕ) : Prop := ∃ i, pairAt s.pairs i = some (a, b)

lemma holds_iff_mem {a b : ℕ} : s.Holds a b ↔ some (a, b) ∈ s.pairs := by
  simp [Holds, pairAt, mem_iff_getElem?, Option.getD_eq_iff]

/-- Both indexes are right over `n` events, and `live` holds the pairs left. -/
structure Indexed (s : Splicing) (n : ℕ) (gone : ℕ → Prop) : Prop where
  length_out : s.outgoing.length = n
  length_in : s.incoming.length = n
  index_out : Index Prod.fst gone s.pairs s.outgoing
  index_in : Index Prod.snd gone s.pairs s.incoming
  live : ∀ a b, (a, b) ∈ s.live ↔ s.Holds a b

lemma Indexed.lt (h : s.Indexed n gone) {a b : ℕ} (hab : s.Holds a b) : a < n ∧ b < n := by
  obtain ⟨i, hi⟩ := hab
  exact ⟨h.length_out ▸ h.index_out.side_lt i _ hi, h.length_in ▸ h.index_in.side_lt i _ hi⟩

lemma push_holds (q : ℕ × ℕ) (a b : ℕ) : (s.push q).Holds a b ↔ s.Holds a b ∨ (a, b) = q := by
  constructor
  · rintro ⟨i, hi⟩
    rw [push, pairAt_append] at hi
    split at hi
    · exact .inr (Option.some.inj hi).symm
    · exact .inl ⟨i, hi⟩
  · rintro (⟨i, hi⟩ | rfl)
    · exact ⟨i, by rw [push, pairAt_append, if_neg (pairAt_lt hi).ne, hi]⟩
    · exact ⟨s.pairs.length, by rw [push, pairAt_append, if_pos rfl]⟩

lemma Indexed.push (h : s.Indexed n gone) {q : ℕ × ℕ} (h₁ : q.1 < n) (h₂ : q.2 < n) :
    (s.push q).Indexed n gone where
  length_out := by rw [Splicing.push, length_modify, h.length_out]
  length_in := by rw [Splicing.push, length_modify, h.length_in]
  index_out := h.index_out.push (h.length_out ▸ h₁)
  index_in := h.index_in.push (h.length_in ▸ h₂)
  live a b := by
    rw [push_holds, ← h.live, Splicing.push, Finset.mem_insert]
    exact or_comm

/-- One more pair: what `push` and `join` both do to the relation. -/
def Adds (s t : Splicing) (q : ℕ × ℕ) (n : ℕ) (gone : ℕ → Prop) : Prop :=
  t.Indexed n gone ∧ ∀ a b, t.Holds a b ↔ s.Holds a b ∨ (a, b) = q

lemma push_adds (h : s.Indexed n gone) {q : ℕ × ℕ} (h₁ : q.1 < n) (h₂ : q.2 < n) :
    s.Adds (s.push q) q n gone :=
  ⟨h.push h₁ h₂, push_holds q⟩

lemma join_adds (h : s.Indexed n gone) {q : ℕ × ℕ} (h₁ : q.1 < n) (h₂ : q.2 < n) :
    s.Adds (s.join q) q n gone := by
  unfold join
  split
  · rename_i hl
    refine ⟨h, fun a b => ⟨.inl, ?_⟩⟩
    rintro (hab | rfl)
    · exact hab
    · exact (h.live a b).mp hl
  · exact push_adds h h₁ h₂

lemma foldl_adds {add} (hadd : ∀ (s : Splicing) (q : ℕ × ℕ), s.Indexed n gone → q.1 < n → q.2 < n →
      s.Adds (add s q) q n gone) (pairs : List (ℕ × ℕ)) (hpairs : ∀ p ∈ pairs, p.1 < n ∧ p.2 < n)
    (h : s.Indexed n gone) : (pairs.foldl add s).Indexed n gone ∧
      ∀ a b, (pairs.foldl add s).Holds a b ↔ s.Holds a b ∨ (a, b) ∈ pairs := by
  induction pairs generalizing s with
  | nil => simpa using h
  | cons p ps ih =>
    obtain ⟨hp, hps⟩ := forall_mem_cons.mp hpairs
    obtain ⟨hidx, hh⟩ := hadd s p h hp.1 hp.2
    obtain ⟨hidx', hh'⟩ := ih hps hidx
    refine ⟨hidx', fun a b => ?_⟩
    rw [foldl_cons, hh', hh, mem_cons, or_assoc]

lemma start_spec {order} (ho : ∀ p ∈ order, p.1 < n ∧ p.2 < n) :
    (start order n).Indexed n gone ∧ ∀ a b, (start order n).Holds a b ↔ (a, b) ∈ order := by
  have hnone : ∀ a b, ¬ Holds
      { pairs := [], outgoing := List.replicate n [], incoming := List.replicate n [],
        live := ∅ } a b := by
    rintro a b ⟨i, hi⟩
    simp [pairAt] at hi
  have hempty : Indexed
      { pairs := [], outgoing := List.replicate n [], incoming := List.replicate n [],
        live := ∅ } n gone :=
    ⟨length_replicate, length_replicate, Index.nil n, Index.nil n, fun a b => by simp [hnone]⟩
  obtain ⟨hidx, hh⟩ := foldl_adds (fun _ _ h h₁ h₂ => push_adds h h₁ h₂) order ho hempty
  exact ⟨hidx, fun a b => by rw [start, hh]; simp [hnone]⟩

@[simp] lemma take_outgoing (i : ℕ) : (s.take i).outgoing = s.outgoing := by
  unfold take
  split <;> rfl

@[simp] lemma take_incoming (i : ℕ) : (s.take i).incoming = s.incoming := by
  unfold take
  split <;> rfl

@[simp] lemma take_length (i : ℕ) : (s.take i).pairs.length = s.pairs.length := by
  unfold take
  split
  · exact length_set
  · rfl

lemma pairAt_take (i j : ℕ) :
    pairAt (s.take i).pairs j = if i = j then none else pairAt s.pairs j := by
  unfold take
  split
  · exact pairAt_set i j
  by_cases h : i = j
  · subst h
    simpa
  · simp [h]

lemma mem_live_take (i : ℕ) (q : ℕ × ℕ) :
    q ∈ (s.take i).live ↔ q ∈ s.live ∧ pairAt s.pairs i ≠ some q := by
  unfold take
  split
  · rename_i p hp
    rw [hp]
    simp [and_comm, eq_comm]
  · rename_i hp
    simp [hp]

/-- Removing the pairs at some positions. Copies of a pair may be listed more than
once, so `live` is described by the positions and not by what is left. -/
lemma foldl_take (l : List ℕ) :
    (l.foldl take s).outgoing = s.outgoing ∧ (l.foldl take s).incoming = s.incoming ∧
      (l.foldl take s).pairs.length = s.pairs.length ∧
      (∀ j, pairAt (l.foldl take s).pairs j = if j ∈ l then none else pairAt s.pairs j) ∧
      ∀ q, q ∈ (l.foldl take s).live ↔ q ∈ s.live ∧ ∀ i ∈ l, pairAt s.pairs i ≠ some q := by
  induction l generalizing s with
  | nil => simp
  | cons i l ih =>
    obtain ⟨hout, hin, hlen, hp, hl⟩ := @ih (s.take i)
    refine ⟨by simp [hout], by simp [hin], by simp [hlen], fun j => ?_, fun q => ?_⟩
    · rw [foldl_cons, hp, pairAt_take]
      by_cases hji : i = j
      · simp [hji]
      · simp [hji, Ne.symm hji]
    rw [foldl_cons, hl, mem_live_take, forall_mem_cons, and_assoc]
    refine and_congr_right fun _ => and_congr_right fun hi => forall₂_congr fun j _ => ?_
    rw [pairAt_take]
    by_cases hji : i = j
    · subst hji
      simp [hi]
    · simp [hji]

section
variable (h : s.Indexed n gone)
include h

lemma mem_touching {old : ℕ} (hold : ¬ gone old) {i a b : ℕ} (hi : pairAt s.pairs i = some (a, b)) :
    i ∈ s.touching old ↔ a = old ∨ b = old := by
  rw [touching, mem_append]
  constructor
  · rintro (hmem | hmem)
    · exact .inr (h.index_in.sound old i hmem _ hi)
    · exact .inl (h.index_out.sound old i hmem _ hi)
  · rintro (rfl | rfl)
    · exact .inr (h.index_out.complete i _ hi hold)
    · exact .inl (h.index_in.complete i _ hi hold)

lemma detach_spec {old : ℕ} (hold : ¬ gone old) :
    (s.detach old).Indexed n (fun a => gone a ∨ a = old) ∧
      ∀ a b, (s.detach old).Holds a b ↔ s.Holds a b ∧ a ≠ old ∧ b ≠ old := by
  obtain ⟨hout, hin, hlen, hp, hl⟩ := foldl_take (s := s) (s.touching old)
  have hsub : ∀ i q, pairAt (s.detach old).pairs i = some q → pairAt s.pairs i = some q := by
    intro i q hq
    rw [detach, hp] at hq
    split at hq
    · cases hq
    · exact hq
  have hholds : ∀ a b, (s.detach old).Holds a b ↔ s.Holds a b ∧ a ≠ old ∧ b ≠ old := by
    intro a b
    constructor
    · rintro ⟨i, hi⟩
      have hs := hsub i _ hi
      have hnot : i ∉ s.touching old := by
        intro hmem
        rw [detach, hp, if_pos hmem] at hi
        cases hi
      rw [mem_touching h hold hs, not_or] at hnot
      exact ⟨⟨i, hs⟩, hnot⟩
    · rintro ⟨⟨i, hi⟩, hne⟩
      refine ⟨i, ?_⟩
      rw [detach, hp, if_neg, hi]
      rw [mem_touching h hold hi, not_or]
      exact hne
  refine ⟨⟨?_, ?_, ?_, ?_, ?_⟩, hholds⟩
  · rw [detach, length_set, hout, h.length_out]
  · rw [detach, length_set, hin, h.length_in]
  · rw [detach, hout]
    exact (h.index_out.mono hlen hsub).clear old
  · rw [detach, hin]
    exact (h.index_in.mono hlen hsub).clear old
  intro a b
  rw [hholds, ← h.live, detach, hl]
  refine and_congr_right fun hab => ?_
  obtain ⟨i, hi⟩ := (h.live a b).mp hab
  constructor
  · intro hno
    have hnot : i ∉ s.touching old := fun hmem => hno i hmem hi
    rwa [mem_touching h hold hi, not_or] at hnot
  · intro hne j hj hpj
    exact not_or.mpr hne ((mem_touching h hold hpj).mp hj)

lemma mem_preds {old p : ℕ} (hold : ¬ gone old) : p ∈ s.preds old ↔ s.Holds p old := by
  unfold preds
  rw [mem_filterMap]
  constructor
  · rintro ⟨i, hi, hp⟩
    obtain ⟨⟨a, b⟩, hq, rfl⟩ := Option.map_eq_some_iff.mp hp
    have hb : b = old := h.index_in.sound old i hi _ hq
    exact ⟨i, hb ▸ hq⟩
  · rintro ⟨i, hi⟩
    exact ⟨i, h.index_in.complete i _ hi hold, by rw [hi]; rfl⟩

lemma mem_succs {old q : ℕ} (hold : ¬ gone old) : q ∈ s.succs old ↔ s.Holds old q := by
  unfold succs
  rw [mem_filterMap]
  constructor
  · rintro ⟨i, hi, hp⟩
    obtain ⟨⟨a, b⟩, hq, rfl⟩ := Option.map_eq_some_iff.mp hp
    have ha : a = old := h.index_out.sound old i hi _ hq
    exact ⟨i, ha ▸ hq⟩
  · rintro ⟨i, hi⟩
    exact ⟨i, h.index_out.complete i _ hi hold, by rw [hi]; rfl⟩

/-- One splice: the pairs of `old` are gone, and each event before it is joined
to each event after it. -/
lemma spliceOut_spec {old : ℕ} (hold : ¬ gone old) :
    (s.spliceOut old).Indexed n (fun a => gone a ∨ a = old) ∧ ∀ a b, (s.spliceOut old).Holds a b ↔
        s.Holds a b ∧ a ≠ old ∧ b ≠ old ∨ s.Holds a old ∧ s.Holds old b := by
  obtain ⟨hidx, hh⟩ := detach_spec h hold
  have heq : s.spliceOut old =
      ((s.preds old).flatMap fun p => (s.succs old).map (p, ·)).foldl join (s.detach old) := by
    rw [spliceOut, foldl_flatMap]
    simp [foldl_map]
  have hmem : ∀ a b, (a, b) ∈ ((s.preds old).flatMap fun p => (s.succs old).map (p, ·)) ↔
      s.Holds a old ∧ s.Holds old b := by
    simp [mem_preds h hold, mem_succs h hold]
  have hlt : ∀ p ∈ ((s.preds old).flatMap fun p => (s.succs old).map (p, ·)),
      p.1 < n ∧ p.2 < n := by
    intro p hp
    obtain ⟨hin, hout⟩ := (hmem p.1 p.2).mp hp
    exact ⟨(h.lt hin).1, (h.lt hout).2⟩
  obtain ⟨hidx', hh'⟩ := foldl_adds (fun _ _ h h₁ h₂ => join_adds h h₁ h₂) _ hlt hidx
  rw [heq]
  refine ⟨hidx', fun a b => ?_⟩
  rw [hh', hh, hmem]

end

/-- Splicing out one event after another keeps what reaches what among the rest. -/
lemma foldl_spliceOut (dropped : List ℕ) (hn : dropped.Nodup)
    (hgone : ∀ x ∈ dropped, ¬ gone x) (h : s.Indexed n gone) {a b : ℕ}
    (ha : ¬ gone a) (hb : ¬ gone b) (ha' : a ∉ dropped) (hb' : b ∉ dropped) :
    TransGen (among (fun x => ¬ gone x ∧ x ∉ dropped) (dropped.foldl spliceOut s).Holds) a b ↔
      TransGen (among (fun x => ¬ gone x) s.Holds) a b := by
  induction dropped generalizing s gone with
  | nil => simp
  | cons old rest ih =>
    obtain ⟨hold, hrest⟩ := forall_mem_cons.mp hgone
    obtain ⟨hnot, hn⟩ := nodup_cons.mp hn
    obtain ⟨hidx, hh⟩ := spliceOut_spec h hold
    rw [mem_cons, not_or] at ha' hb'
    have hre' : ∀ x ∈ rest, ¬ (gone x ∨ x = old) := by
      rintro x hx (hg | rfl)
      · exact hrest x hx hg
      · exact hnot hx
    -- the relation among the events left is the one before with `old` eliminated
    have helim : among (fun x => ¬ (gone x ∨ x = old)) (s.spliceOut old).Holds =
        eliminate old (among (fun x => ¬ gone x) s.Holds) := by
      funext x y
      simp only [among, eliminate, hh, eq_iff_iff]
      tauto
    have hkeep : (fun x => ¬ gone x ∧ x ∉ old :: rest) =
        fun x => ¬ (gone x ∨ x = old) ∧ x ∉ rest := by
      simp [and_assoc]
    rw [foldl_cons, hkeep, ih hn hre' hidx (not_or.mpr ⟨ha, ha'.1⟩)
      (not_or.mpr ⟨hb, hb'.1⟩) ha'.2 hb'.2, helim]
    exact transGen_eliminate ha'.1 hb'.1

end Splicing

/-- The events `renumber` drops, in ascending order. -/
def droppedEvents (renumber : List (Option ℕ)) : List ℕ :=
  (renumber.zipIdx.filter fun e => e.1.isNone).map Prod.snd

lemma mem_droppedEvents {x : ℕ} : x ∈ droppedEvents renumber ↔ renumber[x]? = some none := by
  simp [droppedEvents, mem_zipIdx_iff_getElem?]

lemma nodup_droppedEvents (renumber : List (Option ℕ)) : (droppedEvents renumber).Nodup := by
  have hsub : (droppedEvents renumber).Sublist (renumber.zipIdx.map Prod.snd) :=
    filter_sublist.map _
  refine hsub.nodup ?_
  rw [zipIdx_map_snd]
  exact nodup_range'

lemma isSome_getD_iff {x : ℕ} :
    (renumber.getD x none).isSome ↔ ¬ renumber.length ≤ x ∧ x ∉ droppedEvents renumber := by
  rw [mem_droppedEvents]
  by_cases hx : x < renumber.length
  · simp [hx, Option.isSome_iff_ne_none]
  · simp [hx]

/-- The pairs `splice_order` leaves between events that are kept reach what the
order reached. -/
lemma spliceOrder_transGen {order}
    (horder : ∀ p ∈ order, p.1 < renumber.length ∧ p.2 < renumber.length) {a b : ℕ}
    (ha : (renumber.getD a none).isSome) (hb : (renumber.getD b none).isSome) :
    TransGen (among (fun x => (renumber.getD x none).isSome)
      (fun x y => (x, y) ∈ spliceOrder order renumber)) a b ↔
      TransGen (fun x y => (x, y) ∈ order) a b := by
  have hstart : (Splicing.start order renumber.length).Indexed renumber.length
      (fun x => renumber.length ≤ x) ∧
      ∀ a b, (Splicing.start order renumber.length).Holds a b ↔ (a, b) ∈ order :=
    Splicing.start_spec horder
  have hfold : renumber.zipIdx.foldl (fun s e => if e.1.isSome then s else s.spliceOut e.2)
      (Splicing.start order renumber.length) = (droppedEvents renumber).foldl Splicing.spliceOut
          (Splicing.start order renumber.length) := by
    rw [droppedEvents, foldl_map, foldl_filter]
    congr 1
    funext s e
    cases e.1 <;> rfl
  have hpairs : (fun x y => (x, y) ∈ spliceOrder order renumber) =
      ((droppedEvents renumber).foldl Splicing.spliceOut
        (Splicing.start order renumber.length)).Holds := by
    funext x y
    rw [spliceOrder, hfold, reduceOption_mem_iff, ← Splicing.holds_iff_mem]
  have hord' : (fun x y => (x, y) ∈ order) = among (fun x => ¬ renumber.length ≤ x)
      (Splicing.start order renumber.length).Holds := by
    funext x y
    simp only [among, hstart.2, Nat.not_le, eq_iff_iff]
    exact ⟨fun h => ⟨(horder _ h).1, (horder _ h).2, h⟩, fun h => h.2.2⟩
  simp only [isSome_getD_iff] at ha hb ⊢
  rw [hpairs, hord']
  refine Splicing.foldl_spliceOut _ (nodup_droppedEvents renumber) (fun x hx => ?_) hstart.1
    ha.1 hb.1 ha.2 hb.2
  rw [mem_droppedEvents] at hx
  exact Nat.not_le.mpr (List.getElem?_eq_some_iff.mp hx).1

end Pathologist.Cfg

import Pathologist.Preproc.Scan

/-!
# Line splices do not matter

A text is read through its line splices: what a reader sees is the text with all of them
deleted. Two positions with the same such view stay so as characters are consumed, and a loop
that consumes characters ends in the same way from both.
-/
open List
namespace Pathologist.Preproc
open Expansion (Language)
open Lib.Loop (run)

/-- A backslash and a newline, with blanks and a carriage return allowed between them. -/
def IsSplice (s : Text) : Prop :=
  ∃ blanks cr, (∀ c ∈ blanks, isSpliceBlank c = true) ∧ (cr = [] ∨ cr = ['\r']) ∧
    s = '\\' :: blanks ++ cr ++ ['\n']

variable {l : Text}

lemma dropWhile_blanks {blanks : Text} (h : ∀ c ∈ blanks, isSpliceBlank c = true) :
    (blanks ++ l).dropWhile isSpliceBlank = l.dropWhile isSpliceBlank := by
  induction blanks with
  | nil => rfl
  | cons c blanks ih =>
    rw [cons_append, dropWhile_cons, if_pos (h c mem_cons_self)]
    exact ih fun d hd => h d (mem_cons_of_mem c hd)

lemma spliceRest_append {s : Text} (hs : IsSplice s) (l : Text) : spliceRest (s ++ l) = some l := by
  obtain ⟨blanks, cr, hb, hcr, rfl⟩ := hs
  have hassoc : '\\' :: blanks ++ cr ++ ['\n'] ++ l = '\\' :: (blanks ++ (cr ++ '\n' :: l)) := by
    simp
  rw [hassoc]
  simp only [spliceRest, dropWhile_blanks hb]
  rcases hcr with rfl | rfl <;> rfl

variable {rest : Text}

lemma spliceRest_eq_some (h : spliceRest l = some rest) : ∃ s, IsSplice s ∧ l = s ++ rest := by
  cases l with
  | nil => exact absurd h (by simp [spliceRest])
  | cons c l =>
    by_cases hc : c = '\\'
    · subst hc
      simp only [spliceRest] at h
      have hsplit := takeWhile_append_dropWhile (p := isSpliceBlank) (l := l)
      have hblanks : ∀ c ∈ l.takeWhile isSpliceBlank, isSpliceBlank c = true :=
        all_eq_true.mp all_takeWhile
      set blanks := l.takeWhile isSpliceBlank
      cases hdrop : l.dropWhile isSpliceBlank with
      | nil => simp [hdrop, dropCarriageReturn] at h
      | cons d m =>
        rw [hdrop] at h hsplit
        by_cases hd : d = '\r'
        · subst hd
          simp only [dropCarriageReturn] at h
          cases m with
          | nil => simp at h
          | cons e m =>
            by_cases he : e = '\n'
            · subst he
              obtain rfl : m = rest := by simpa using h
              exact ⟨_, ⟨blanks, ['\r'], hblanks, .inr rfl, rfl⟩, by simp [← hsplit]⟩
            · simp [he] at h
        · have hkeep : dropCarriageReturn (d :: m) = d :: m := by
            simp [dropCarriageReturn, hd]
          rw [hkeep] at h
          by_cases he : d = '\n'
          · subst he
            obtain rfl : m = rest := by simpa using h
            exact ⟨_, ⟨blanks, [], hblanks, .inl rfl, rfl⟩, by simp [← hsplit]⟩
          · simp [he] at h
    · simp [spliceRest, hc] at h

lemma spliceRest_eq_none_of_append {a b : Text} (h : spliceRest (a ++ b) = none) :
    spliceRest a = none := by
  cases ha : spliceRest a with
  | none => rfl
  | some rest =>
    obtain ⟨s, hs, rfl⟩ := spliceRest_eq_some ha
    rw [append_assoc, spliceRest_append hs] at h
    exact absurd h (by simp)

lemma length_spliceRest (h : spliceRest l = some rest) : rest.length < l.length := by
  obtain ⟨s, ⟨blanks, cr, -, -, rfl⟩, rfl⟩ := spliceRest_eq_some h
  simp only [length_append, length_cons]
  omega

lemma skipSplices_eq (fuel : ℕ) (l : Text) : skipSplices fuel l = run spliceRest fuel l := by
  induction fuel generalizing l with
  | zero => rfl
  | succ fuel ih =>
    simp only [skipSplices, run]
    cases spliceRest l with
    | none => rfl
    | some rest => exact ih rest

@[simp] lemma spliceRest_settle (l : Text) : spliceRest (settle l) = none := by
  unfold settle
  rw [skipSplices_eq]
  exact Lib.Loop.run_ends (m := List.length) (fun _ _ h => length_spliceRest h) le_rfl

lemma length_settle_le (l : Text) : (settle l).length ≤ l.length := by
  unfold settle
  rw [skipSplices_eq]
  exact Lib.Loop.run_invariant (I := fun m : Text => m.length ≤ l.length)
    (fun m t hm ht => (length_spliceRest ht).le.trans hm) _ le_rfl

lemma stripSplicesFrom_eq {fuel : ℕ} (h : l.length ≤ fuel) :
    stripSplicesFrom fuel l = stripSplices l := by
  unfold stripSplices
  induction fuel using Nat.strong_induction_on generalizing l with
  | _ fuel ih =>
    cases l with
    | nil => cases fuel <;> rfl
    | cons c l =>
      obtain ⟨n, rfl⟩ : ∃ n, fuel = n + 1 := ⟨fuel - 1, by simp only [length_cons] at h; omega⟩
      simp only [length_cons] at h
      simp only [length_cons, stripSplicesFrom]
      cases hs : spliceRest (c :: l) with
      | none => rw [ih n (by omega) (by omega)]
      | some rest =>
        have hlt := length_spliceRest hs
        simp only [length_cons] at hlt
        dsimp only
        rw [ih n (by omega) (l := rest) (by omega), ih l.length (by omega) (l := rest) (by omega)]

@[simp] lemma stripSplices_nil : stripSplices [] = [] := rfl

lemma stripSplices_cons {c : Char} (h : spliceRest (c :: l) = none) :
    stripSplices (c :: l) = c :: stripSplices l := by
  simp [stripSplices, stripSplicesFrom, h]

lemma stripSplices_of_splice (h : spliceRest l = some rest) :
    stripSplices l = stripSplices rest := by
  cases l with
  | nil => exact absurd h (by simp [spliceRest])
  | cons c l =>
    have hlt := length_spliceRest h
    simp only [length_cons] at hlt
    rw [stripSplices, length_cons, stripSplicesFrom, h]
    exact stripSplicesFrom_eq (by omega)

/-- A run of splices, which vanishes from whatever it stands before. -/
def Vanishes (s : Text) : Prop := ∀ l, stripSplices (s ++ l) = stripSplices l

lemma exists_settle (l : Text) : ∃ s, Vanishes s ∧ l = s ++ settle l := by
  unfold settle
  rw [skipSplices_eq]
  refine Lib.Loop.run_invariant (I := fun m : Text => ∃ s, Vanishes s ∧ l = s ++ m) ?_ _
    ⟨[], fun _ => rfl, rfl⟩
  rintro m rest ⟨s, hs, rfl⟩ hr
  obtain ⟨t, ht, rfl⟩ := spliceRest_eq_some hr
  refine ⟨s ++ t, fun l => ?_, by simp⟩
  rw [append_assoc, hs, stripSplices_of_splice (spliceRest_append ht l)]

@[simp] lemma stripSplices_settle (l : Text) : stripSplices (settle l) = stripSplices l := by
  obtain ⟨s, hs, hl⟩ := exists_settle l
  conv_rhs => rw [hl, hs]

lemma quote_notMem_of_isSplice {s : Text} (h : IsSplice s) : '\x22' ∉ s := by
  obtain ⟨blanks, cr, hb, hcr, rfl⟩ := h
  have hblank : '\x22' ∉ blanks := fun hm => absurd (hb _ hm) (by decide)
  rcases hcr with rfl | rfl <;> simp [hblank]

/-- Text that ends in a character no splice has reads apart from what follows. -/
lemma stripSplices_append_quote (a b : Text) :
    stripSplices (a ++ '\x22' :: b) = stripSplices (a ++ ['\x22']) ++ stripSplices b := by
  induction hn : a.length using Nat.strong_induction_on generalizing a with
  | _ n ih =>
    cases a with
    | nil =>
      rw [nil_append, nil_append, stripSplices_cons rfl]
      rfl
    | cons c a =>
      simp only [cons_append]
      cases hs : spliceRest (c :: (a ++ '\x22' :: b)) with
      | none =>
        have hshort : spliceRest (c :: (a ++ ['\x22'])) = none := by
          refine spliceRest_eq_none_of_append (b := b) ?_
          simpa using hs
        rw [stripSplices_cons hs, stripSplices_cons hshort, ih a.length (by simp [← hn]) a rfl,
          cons_append]
      | some rest =>
        obtain ⟨s, hsplice, heq⟩ := spliceRest_eq_some hs
        -- The splice has no quote, so it ends before this one.
        obtain ⟨m, hm, hr⟩ : ∃ m, c :: a = s ++ m ∧ rest = m ++ '\x22' :: b := by
          rcases append_eq_append_iff.mp (show (c :: a) ++ '\x22' :: b = s ++ rest from heq) with
            ⟨m, hs, hb⟩ | ⟨m, hs, hr⟩
          · cases m with
            | nil => exact ⟨[], by simpa using hs.symm, by simpa using hb.symm⟩
            | cons d m =>
              obtain ⟨rfl, -⟩ : '\x22' = d ∧ b = m ++ rest := by simpa using hb
              exact absurd (by simp [hs]) (quote_notMem_of_isSplice hsplice)
          · exact ⟨m, hs, hr⟩
        have hlen : m.length < n := by
          have hpos : s ≠ [] := by
            obtain ⟨_, _, _, _, rfl⟩ := hsplice
            simp
          have hsum := congrArg List.length hm
          have hpos := length_pos_iff.mpr hpos
          simp only [length_append] at hsum
          omega
        have hleft : c :: (a ++ ['\x22']) = s ++ (m ++ ['\x22']) := by
          rw [← cons_append, hm, append_assoc]
        rw [stripSplices_of_splice hs, hr, ih m.length hlen m rfl, hleft,
          stripSplices_of_splice (spliceRest_append hsplice _)]

/-- Two settled positions from which the same characters are read. -/
structure Same (l l' : Text) : Prop where
  left : spliceRest l = none
  right : spliceRest l' = none
  view : stripSplices l = stripSplices l'

lemma same_settle {l' : Text} (h : stripSplices l = stripSplices l') :
    Same (settle l) (settle l') := ⟨by simp, by simp, by simpa using h⟩

namespace Same
variable {l l' : Text}

lemma cases (h : Same l l') : (l = [] ∧ l' = []) ∨
    ∃ c m m', l = c :: m ∧ l' = c :: m' ∧ Same (advance (c :: m)) (advance (c :: m')) := by
  obtain ⟨hl, hl', hv⟩ := h
  cases l with
  | nil =>
    cases l' with
    | nil => exact .inl ⟨rfl, rfl⟩
    | cons d m' => simp [stripSplices_cons hl'] at hv
  | cons c m =>
    cases l' with
    | nil => simp [stripSplices_cons hl] at hv
    | cons d m' =>
      rw [stripSplices_cons hl, stripSplices_cons hl'] at hv
      obtain ⟨rfl, hr⟩ : c = d ∧ _ := by simpa using hv
      exact .inr ⟨c, m, m', rfl, rfl, same_settle hr⟩

lemma advance (h : Same l l') : Same (Preproc.advance l) (Preproc.advance l') := by
  rcases h.cases with ⟨rfl, rfl⟩ | ⟨c, m, m', rfl, rfl, hr⟩
  · exact h
  · exact hr

lemma advanceBy (n : ℕ) (h : Same l l') :
    Same (Preproc.advanceBy n l) (Preproc.advanceBy n l') := by
  induction n generalizing l l' with
  | zero => exact h
  | succ n ih => exact ih h.advance

lemma head?_eq (h : Same l l') : l.head? = l'.head? := by
  rcases h.cases with ⟨rfl, rfl⟩ | ⟨c, m, m', rfl, rfl, -⟩ <;> rfl

lemma peekAt_eq (n : ℕ) (h : Same l l') : peekAt n l = peekAt n l' := by
  induction n generalizing l l' with
  | zero => rcases h.cases with ⟨rfl, rfl⟩ | ⟨c, m, m', rfl, rfl, -⟩ <;> rfl
  | succ n ih => exact ih h.advance

lemma lookahead_eq (n : ℕ) (h : Same l l') : lookahead n l = lookahead n l' := by
  induction n generalizing l l' with
  | zero => rfl
  | succ n ih =>
    rcases h.cases with ⟨rfl, rfl⟩ | ⟨c, m, m', rfl, rfl, hr⟩
    · rfl
    · simp [lookahead, ih hr]

end Same

lemma length_advance_lt (c : Char) (l : Text) : (advance (c :: l)).length < (c :: l).length := by
  have := length_settle_le l
  simp only [advance, length_cons]
  omega

lemma length_advance_le (l : Text) : (advance l).length ≤ l.length := by
  cases l with
  | nil => exact le_rfl
  | cons c l => exact (length_advance_lt c l).le

lemma length_advanceBy_le (n : ℕ) (l : Text) : (advanceBy n l).length ≤ l.length := by
  induction n generalizing l with
  | zero => exact le_rfl
  | succ n ih => exact (ih _).trans (length_advance_le l)

lemma slice_append (a l : Text) : slice (a ++ l) l = a := by
  simp [slice]

/-- The text up to a position that is reached by reading `n` characters. -/
lemma exists_slice (n : ℕ) (h : spliceRest l = none) :
    ∃ a, l = a ++ advanceBy n l ∧ stripSplices a ++ stripSplices (advanceBy n l) = stripSplices l ∧
      spliceRest (advanceBy n l) = none := by
  induction n generalizing l with
  | zero => exact ⟨[], rfl, rfl, h⟩
  | succ n ih =>
    cases l with
    | nil => exact ih h
    | cons c l =>
      obtain ⟨s, hs, hl⟩ := exists_settle l
      obtain ⟨a, ha, hv, hn⟩ := ih (spliceRest_settle l)
      have hwhole : c :: l = (c :: (s ++ a)) ++ advanceBy n (settle l) := by
        rw [cons_append, append_assoc, ← ha, ← hl]
      refine ⟨c :: (s ++ a), hwhole, ?_, hn⟩
      rw [stripSplices_cons h, stripSplices_cons (spliceRest_eq_none_of_append (hwhole ▸ h)), hs,
        ← stripSplices_settle l, ← hv]
      rfl

/-- The position `m` is reached from `l` by reading characters. -/
def Reads (l m : Text) : Prop := ∃ n, m = advanceBy n l

lemma advanceBy_add (n k : ℕ) (l : Text) : advanceBy (n + k) l = advanceBy k (advanceBy n l) := by
  induction n generalizing l with
  | zero => simp [advanceBy]
  | succ n ih =>
    rw [Nat.add_right_comm]
    exact ih (advance l)

namespace Reads
variable {l m k : Text}

lemma refl (l : Text) : Reads l l := ⟨0, rfl⟩

lemma trans (h₁ : Reads l m) (h₂ : Reads m k) : Reads l k := by
  obtain ⟨n, rfl⟩ := h₁
  obtain ⟨j, rfl⟩ := h₂
  exact ⟨n + j, (advanceBy_add n j l).symm⟩

lemma advance (l : Text) : Reads l (Preproc.advance l) := ⟨1, rfl⟩

variable (h : Reads l m)
include h

lemma length_le : m.length ≤ l.length := by
  obtain ⟨n, rfl⟩ := h
  exact length_advanceBy_le n l

variable (hl : spliceRest l = none)
include hl

lemma stripSplices_slice : stripSplices (slice l m) ++ stripSplices m = stripSplices l := by
  obtain ⟨n, rfl⟩ := h
  obtain ⟨a, ha, hv, -⟩ := exists_slice n hl
  have hslice := slice_append a (advanceBy n l)
  rw [← ha] at hslice
  rw [hslice, hv]

lemma length_eq_iff : m.length = l.length ↔ (stripSplices m).length = (stripSplices l).length := by
  obtain ⟨n, rfl⟩ := h
  cases n with
  | zero => exact ⟨fun _ => rfl, fun _ => rfl⟩
  | succ n =>
    cases l with
    | nil =>
      have hnil : advanceBy (n + 1) [] = [] :=
        eq_nil_of_length_eq_zero (Nat.le_zero.mp (length_advanceBy_le (n + 1) []))
      simp [hnil]
    | cons c l =>
      have hshort :=
        (length_advanceBy_le n (Preproc.advance (c :: l))).trans_lt (length_advance_lt c l)
      have hview := congrArg List.length (stripSplices_slice ⟨n, rfl⟩ (spliceRest_settle l))
      simp only [length_append, stripSplices_settle] at hview
      refine ⟨fun heq => absurd heq hshort.ne, fun heq => ?_⟩
      rw [stripSplices_cons hl] at heq
      change (stripSplices (advanceBy n (settle l))).length = _ at heq
      simp only [length_cons] at heq
      omega

end Reads

lemma Same.stripSplices_slice {l' m m' : Text} (h : Same l l') (hm : Same m m') (hr : Reads l m)
    (hr' : Reads l' m') : stripSplices (slice l m) = stripSplices (slice l' m') := by
  have heq := (hr.stripSplices_slice h.left).trans
    (h.view.trans (hr'.stripSplices_slice h.right).symm)
  rw [hm.view] at heq
  exact append_cancel_right heq

/-- The same has been read, up to positions that are the same. -/
structure SameRead {α : Type} (a b : α × Text) : Prop where
  value : a.1 = b.1
  rest : Same a.2 b.2

/-- At least one character is read on the way. -/
structure Consumes (l m : Text) : Prop where
  reads : Reads l m
  lt : m.length < l.length

lemma consumes_advance (c : Char) (l : Text) : Consumes (c :: l) (advance (c :: l)) :=
  ⟨.advance _, length_advance_lt c l⟩

lemma Consumes.trans_reads {m k : Text} (h₁ : Consumes l m) (h₂ : Reads m k) : Consumes l k :=
  ⟨h₁.reads.trans h₂, h₂.length_le.trans_lt h₁.lt⟩

section Loops
variable {σ : Type} (pos : σ → Text) {step : σ → Option σ}
variable (hstep : ∀ a b, step a = some b → Consumes (pos a) (pos b))
include hstep

/-- A loop whose steps consume characters reads on. -/
lemma reads_run (fuel : ℕ) (a : σ) : Reads (pos a) (pos (run step fuel a)) :=
  Lib.Loop.run_invariant (I := fun b => Reads (pos a) (pos b))
    (fun b d hb hd => hb.trans (hstep b d hd).reads) fuel (Reads.refl _)

/-- Loops whose steps consume characters and agree along a relation end in related states. -/
lemma run_same {R} (hs : ∀ a b, R a b → Option.Rel R (step a) (step b)) {a b : σ} {fuel fuel' : ℕ}
    (ha : (pos a).length ≤ fuel) (hb : (pos b).length ≤ fuel') (h : R a b) :
    R (run step fuel a) (run step fuel' b) :=
  Lib.Loop.run_rel (m := fun a => (pos a).length) (k := fun a => (pos a).length)
    (fun a b h => (hstep a b h).lt) (fun a b h => (hstep a b h).lt) hs ha hb h

end Loops

end Pathologist.Preproc

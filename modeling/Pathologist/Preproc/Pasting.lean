import Mathlib.Data.List.Chain
import Pathologist.Lib.Loop
import Pathologist.Preproc.Substitute

/-!
# Pasting

A pass of pasting leaves no operator, so one pass is all there is.
-/
open List
namespace Pathologist.Preproc
open Lib.Loop (run)

/-- One turn of the pasting loop, on what is written, last first, and what is to come. -/
def pasteStep : List Token × List Token → Option (List Token × List Token)
  | (_, []) => none
  | (next, t :: rest) =>
    match concatWidth (t :: rest) with
    | 0 => some (t :: next, rest)
    | width + 1 =>
      match next, (t :: rest).drop (width + 1) with
      | left :: written, right :: after => some (pasteTwoTokens left right :: written, after)
      | _, after => some (next, after)

section Step
variable {next rest : List Token} {t : Token}

lemma pasteStep_plain (h : concatWidth (t :: rest) = 0) :
    pasteStep (next, t :: rest) = some (t :: next, rest) := by
  simp [pasteStep, h]

lemma pasteStep_paste {left right : Token} {written after : List Token} {width : ℕ}
    (h : concatWidth (t :: rest) = width + 1) (ha : rest.drop width = right :: after) :
    pasteStep (left :: written, t :: rest) =
      some (pasteTwoTokens left right :: written, after) := by
  simp [pasteStep, h, ha]

/-- An operator without both operands is dropped. -/
lemma pasteStep_drop {width : ℕ} (h : concatWidth (t :: rest) = width + 1)
    (hn : next = [] ∨ rest.drop width = []) :
    pasteStep (next, t :: rest) = some (next, rest.drop width) := by
  rcases hn with rfl | hn
  · simp [pasteStep, h]
  · cases next <;> simp [pasteStep, h, hn]

/-- What a turn of the loop does. -/
lemma pasteStep_cases (next : List Token) (t : Token) (rest : List Token) :
    (concatWidth (t :: rest) = 0 ∧ pasteStep (next, t :: rest) = some (t :: next, rest)) ∨
    (∃ width left right written after, concatWidth (t :: rest) = width + 1 ∧
      next = left :: written ∧ rest.drop width = right :: after ∧
      pasteStep (next, t :: rest) = some (pasteTwoTokens left right :: written, after)) ∨
    (∃ width, concatWidth (t :: rest) = width + 1 ∧ (next = [] ∨ rest.drop width = []) ∧
      pasteStep (next, t :: rest) = some (next, rest.drop width)) := by
  cases hw : concatWidth (t :: rest) with
  | zero => exact .inl ⟨rfl, pasteStep_plain hw⟩
  | succ width =>
    cases next with
    | nil => exact .inr (.inr ⟨width, rfl, .inl rfl, pasteStep_drop hw (.inl rfl)⟩)
    | cons left written =>
      cases ha : rest.drop width with
      | nil =>
        have hdrop :
            pasteStep (left :: written, t :: rest) = some (left :: written, rest.drop width) :=
          pasteStep_drop hw (.inr ha)
        exact .inr (.inr ⟨width, rfl, .inr ha, ha ▸ hdrop⟩)
      | cons right after =>
        exact .inr (.inl ⟨width, left, right, written, after, rfl, rfl, ha,
          pasteStep_paste hw ha⟩)

lemma length_pasteStep {s s'} (h : pasteStep s = some s') :
    s'.2.length < s.2.length ∧ s'.1.length + s'.2.length ≤ s.1.length + s.2.length := by
  obtain ⟨next, _ | ⟨t, rest⟩⟩ := s
  · cases h
  rcases pasteStep_cases next t rest with ⟨-, heq⟩ |
    ⟨width, left, right, written, after, -, rfl, ha, heq⟩ |
    ⟨width, -, -, heq⟩
  · cases heq.symm.trans h
    simp only [length_cons]
    omega
  · cases heq.symm.trans h
    have hlen := congrArg List.length ha
    simp only [length_drop, length_cons] at hlen ⊢
    omega
  · cases heq.symm.trans h
    simp only [length_drop, length_cons]
    omega

end Step

/-- What a pass makes of the tokens to come after those written. -/
def pasted (next toks : List Token) : List Token :=
  (run pasteStep toks.length (next, toks)).1.reverse

variable {toks : List Token}

lemma concatenatePass_eq (fuel : ℕ) (next : List Token) (done : Bool) (toks : List Token) :
    (concatenatePass fuel next done toks).1 = (run pasteStep fuel (next, toks)).1.reverse := by
  induction fuel generalizing next done toks with
  | zero => rfl
  | succ fuel ih =>
    cases toks with
    | nil => rfl
    | cons t rest =>
      rw [concatenatePass, run]
      cases hw : concatWidth (t :: rest) with
      | zero => simp [pasteStep_plain hw, ih]
      | succ width =>
        cases next with
        | nil => simp [pasteStep_drop hw (.inl rfl), ih]
        | cons left written =>
          cases ha : rest.drop width with
          | nil =>
            simp [pasteStep_drop hw (.inr ha), ha, ih]
          | cons right after =>
            simp [pasteStep_paste hw ha, ha, ih]

/-- No operator stands in the list. -/
def NoOperator (toks : List Token) : Prop :=
  (∀ t ∈ toks, t.isPunct .hashHash = false) ∧
    toks.IsChain fun a b => ¬ (a.isHash = true ∧ b.isHash = true)

lemma concatWidth_of_noOperator (h : NoOperator toks) : concatWidth toks = 0 := by
  match toks with
  | [] => rfl
  | [t] =>
    have ht := h.1 t mem_cons_self
    simp [concatWidth, ht]
  | t :: u :: rest =>
    have ht := h.1 t mem_cons_self
    have htu := (isChain_cons_cons.mp h.2).1
    simp [concatWidth, ht]
    simpa using htu

variable {t : Token} {rest : List Token}

lemma NoOperator.tail (h : NoOperator (t :: rest)) : NoOperator rest :=
  ⟨fun u hu => h.1 u (mem_cons_of_mem t hu), (isChain_cons.mp h.2).2⟩

lemma concatenatePass_of_noOperator (h : NoOperator toks) (fuel : ℕ) (next : List Token)
    (hf : toks.length ≤ fuel) :
    concatenatePass fuel next false toks = (next.reverse ++ toks, false) := by
  induction fuel generalizing next toks with
  | zero =>
    obtain rfl := eq_nil_of_length_eq_zero (Nat.le_zero.mp hf)
    simp [concatenatePass]
  | succ fuel ih =>
    cases toks with
    | nil => simp [concatenatePass]
    | cons t rest =>
      simp only [concatenatePass, concatWidth_of_noOperator h]
      rw [ih h.tail (t :: next) (Nat.le_of_succ_le_succ hf)]
      simp

lemma NoOperator.concat (h : NoOperator toks) (ht : t.isPunct .hashHash = false)
    (hh : toks.getLast?.any Token.isHash = true → t.isHash = false) : NoOperator (toks ++ [t]) := by
  refine ⟨fun u hu => ?_, isChain_append.mpr ⟨h.2, isChain_singleton t, ?_⟩⟩
  · rcases mem_append.mp hu with hu | hu
    · exact h.1 u hu
    · exact mem_singleton.mp hu ▸ ht
  rintro u hu v hv ⟨hu', hv'⟩
  obtain rfl : t = v := by simpa using hv
  have hlast : toks.getLast?.any Token.isHash = true := by
    rw [Option.mem_def.mp hu]
    exact hu'
  rw [hh hlast] at hv'
  cases hv'

/-- What is written has no operator, nor does it begin one with what is to come. -/
structure Written (s : List Token × List Token) : Prop where
  noOperator : NoOperator s.1.reverse
  apart : s.1.head?.any Token.isHash = true → s.2.head?.any Token.isHash = false

lemma Written.step {s s'} (hs : Written s) (h : pasteStep s = some s') : Written s' := by
  obtain ⟨next, _ | ⟨t, rest⟩⟩ := s
  · cases h
  rcases pasteStep_cases next t rest with ⟨hw, heq⟩ |
    ⟨width, left, right, written, after, -, hnext, -, heq⟩ | ⟨width, -, hn, heq⟩
  · cases heq.symm.trans h
    simp only [concatWidth] at hw
    split_ifs at hw with hp hh
    refine ⟨?_, fun ht => ?_⟩
    · rw [reverse_cons]
      refine hs.noOperator.concat (by simpa using hp) fun hl => ?_
      rw [getLast?_reverse] at hl
      exact hs.apart hl
    · have hboth : ¬ (t.isHash = true ∧ rest.head?.any Token.isHash = true) := by
        simpa using hh
      exact Bool.eq_false_iff.mpr fun hr => hboth ⟨ht, hr⟩
  · cases heq.symm.trans h
    subst hnext
    have hwritten : NoOperator written.reverse := by
      have hall := hs.noOperator
      rw [reverse_cons] at hall
      exact ⟨fun u hu => hall.1 u (mem_append_left _ hu), (isChain_append.mp hall.2).1⟩
    refine ⟨?_, fun ht => by cases ht⟩
    rw [reverse_cons]
    exact hwritten.concat rfl fun _ => rfl
  · cases heq.symm.trans h
    refine ⟨hs.noOperator, fun ht => ?_⟩
    rcases hn with rfl | hn
    · cases ht
    · rw [hn]
      rfl

lemma noOperator_pasted (toks : List Token) : NoOperator (pasted [] toks) := by
  refine (Lib.Loop.run_invariant (I := Written) (fun _ _ => Written.step) toks.length
    (s := ([], toks)) ⟨⟨fun t ht => ?_, .nil⟩, fun h => ?_⟩).noOperator
  · cases ht
  · cases h

/-- Pasting is one pass. -/
lemma applyConcatenation_eq (toks : List Token) : applyConcatenation toks = pasted [] toks := by
  have hpass : (concatenatePass toks.length [] false toks).1 = pasted [] toks :=
    concatenatePass_eq toks.length [] false toks
  rw [applyConcatenation, applyConcatenationFrom]
  rcases hd : concatenatePass toks.length [] false toks with ⟨next, _ | _⟩
  · rw [hd] at hpass
    exact hpass
  rw [hd] at hpass
  obtain rfl : next = pasted [] toks := hpass
  cases hlen : toks.length with
  | zero => rfl
  | succ n =>
    have hagain := concatenatePass_of_noOperator (noOperator_pasted toks) _ [] le_rfl
    simp [applyConcatenationFrom, hagain]

end Pathologist.Preproc

import Pathologist.Preproc.Scanners

/-!
# Preprocessing numbers

The longest preprocessing number at a position, and when the reader of numbers gives it. The
reader takes no sign after an exponent letter, leaves digit separators out of the spelling, and
is not tried at a period.
-/
open List
namespace Pathologist.Preproc
open Expansion (Language)
open Lib.Loop (run)

/-- An identifier character or a period. -/
def isNumberChar (c : Char) : Bool := isIdentContinue c || c == '.'

/-- The letters after which a sign belongs to the number. -/
def isExponent (c : Char) : Bool := c == 'e' || c == 'E' || c == 'p' || c == 'P'

def isSign (c : Char) : Bool := c == '+' || c == '-'

/-- What may follow the first digit of a number. Digit separators are C++. -/
inductive NumberTail (language : Language) : Text → Prop
  | nil : NumberTail language []
  | char {c : Char} {t : Text} (hc : isNumberChar c = true) (ht : NumberTail language t) :
      NumberTail language (c :: t)
  | sign {e c : Char} {t : Text} (he : isExponent e = true) (hc : isSign c = true)
      (ht : NumberTail language t) : NumberTail language (e :: c :: t)
  | separator {c : Char} {t : Text} (hcpp : language = .cpp) (hc : isIdentContinue c = true)
      (ht : NumberTail language t) : NumberTail language ('\x27' :: c :: t)

/-- The preprocessing numbers: they begin with a digit, or with a period and a digit. -/
inductive PpNumber (language : Language) : Text → Prop
  | digit {d : Char} {t : Text} (hd : isDigit d = true) (ht : NumberTail language t) :
      PpNumber language (d :: t)
  | period {d : Char} {t : Text} (hd : isDigit d = true) (ht : NumberTail language t) :
      PpNumber language ('.' :: d :: t)

/-- The longest preprocessing number that a text begins with. -/
structure LongestNumber (language : Language) (w s : Text) : Prop where
  number : PpNumber language s
  begins : s <+: w
  longest : ∀ s', PpNumber language s' → s' <+: w → s'.length ≤ s.length

/-- After identifier characters and periods there comes a sign that an exponent letter stands
before, or a quote that separates digits. -/
inductive RunsOn (language : Language) : Text → Prop
  | sign {e c : Char} {w : Text} (he : isExponent e = true) (hc : isSign c = true) :
      RunsOn language (e :: c :: w)
  | separator {c : Char} {w : Text} (hc : isAlphanumeric c = true ∨ language = .cpp ∧ c = '_') :
      RunsOn language ('\x27' :: c :: w)
  | char {c : Char} {w : Text} (hc : isNumberChar c = true) (h : RunsOn language w) :
      RunsOn language (c :: w)

/-- A text that begins with a digit and whose number is made of identifier characters and
periods only. -/
inductive PlainNumber (language : Language) : Text → Prop
  | intro {d : Char} {w : Text} (hd : isDigit d = true) (hw : ¬ RunsOn language w) :
      PlainNumber language (d :: w)

/-- The spelling that the reader gives, from the text without its splices. -/
def numberOf : Text → Text
  | [] => []
  | c :: w =>
    if isNumberChar c then c :: numberOf w
    else if c = '\x27' ∧ isAlphanumeric (w.headD '\x00') then numberOf w
    else []

variable {language : Language} {w : Text}

lemma peekAt_one (c : Char) (l : Text) : peekAt 1 (c :: l) = (stripSplices l).headD '\x00' := by
  rw [← stripSplices_settle l]
  have hnone := spliceRest_settle l
  change (settle l).headD '\x00' = _
  cases hm : settle l with
  | nil => rfl
  | cons d m =>
    rw [hm] at hnone
    rw [stripSplices_cons hnone]
    rfl

lemma run_numberStep {fuel : ℕ} {l : Text} (hl : spliceRest l = none) (hf : l.length ≤ fuel)
    (read : Text) : (run numberStep fuel (read, l)).1 = read ++ numberOf (stripSplices l) := by
  induction fuel generalizing l read with
  | zero =>
    obtain rfl := length_eq_zero_iff.mp (Nat.le_zero.mp hf)
    simp [run, numberOf]
  | succ fuel ih =>
    cases l with
    | nil => simp [run, numberStep, numberOf]
    | cons c l =>
      have hlen : (advance (c :: l)).length ≤ fuel :=
        Nat.le_of_lt_succ ((length_advance_lt c l).trans_le hf)
      have hnext (read : Text) := ih (spliceRest_settle l) hlen read
      rw [stripSplices_settle] at hnext
      have hchars : (isAlphanumeric c || c == '_' || c == '.') = isNumberChar c := rfl
      rw [stripSplices_cons hl, numberOf, run, numberStep, peekAt_one, hchars]
      by_cases hc : isNumberChar c = true
      · rw [if_pos hc, if_pos hc]
        exact (hnext _).trans (append_assoc ..)
      split_ifs with hq
      · exact hnext read
      · simp

lemma lexToken_digit {d : Char} {l : Text} (hd : isDigit d = true) (hl : spliceRest (d :: l) = none)
    :
    ∃ rest, lexToken language (d :: l) = some (.number (numberOf (d :: stripSplices l)), rest) := by
  have hne (c : Char) (hc : isDigit c = false) : d ≠ c := by
    rintro rfl
    exact absurd hd (by simp [hc])
  have hread := run_numberStep hl le_rfl []
  rw [stripSplices_cons hl, nil_append] at hread
  refine ⟨(run numberStep (d :: l).length ([], d :: l)).2, ?_⟩
  rw [lexToken, if_neg (hne _ (by decide)), if_neg (hne _ (by decide)), if_neg (hne _ (by decide)),
    if_neg (hne _ (by decide)), if_pos hd, ← hread]
  rfl

lemma isNumberChar_of_isDigit {c : Char} (h : isDigit c = true) : isNumberChar c = true := by
  simp [isNumberChar, isIdentContinue, isAlphanumeric, h]

lemma isNumberChar_of_isSign {c : Char} (h : isSign c = true) :
    isNumberChar c = false ∧ c ≠ '\x27' := by
  rcases Bool.or_eq_true_iff.mp h with h | h <;>
  · obtain rfl := eq_of_beq h
    decide

lemma isNumberChar_of_isExponent {c : Char} (h : isExponent c = true) : isNumberChar c = true := by
  simp only [isExponent, Bool.or_eq_true, beq_iff_eq, or_assoc] at h
  rcases h with rfl | rfl | rfl | rfl <;> decide

lemma numberTail_takeWhile (w : Text) : NumberTail language (w.takeWhile isNumberChar) := by
  induction w with
  | nil => exact .nil
  | cons c w ih =>
    rw [takeWhile_cons]
    split_ifs with hc
    · exact .char hc ih
    · exact .nil

/-- Without signs and separators the reader stops where the identifier characters and periods
do. -/
lemma numberOf_eq_takeWhile (h : ¬ RunsOn language w) : numberOf w = w.takeWhile isNumberChar := by
  induction w with
  | nil => rfl
  | cons c w ih =>
    rw [numberOf, takeWhile_cons]
    split_ifs with hc hq
    · rw [ih fun hw => h (.char hc hw)]
    · obtain ⟨rfl, hn⟩ := hq
      cases w with
      | nil => exact absurd hn (by decide)
      | cons d w => exact absurd (.separator (.inl hn)) h
    · rfl

lemma NumberTail.length_le {t : Text} (ht : NumberTail language t) (hpre : t <+: w)
    (h : ¬ RunsOn language w) : t.length ≤ (w.takeWhile isNumberChar).length := by
  obtain ⟨rest, rfl⟩ := hpre
  induction ht with
  | nil => exact Nat.zero_le _
  | char hc _ ih =>
    rw [cons_append, takeWhile_cons, if_pos hc]
    exact Nat.succ_le_succ (ih fun hw => h (.char hc hw))
  | sign he hc => exact absurd (.sign he hc) h
  | separator hcpp hc =>
    refine absurd (.separator ?_) h
    exact (Bool.or_eq_true_iff.mp hc).imp id fun hc => ⟨hcpp, eq_of_beq hc⟩

/-- Where a number goes on, what the reader gives is not a longest one. -/
lemma RunsOn.exists_longer (h : RunsOn language w) (hpre : numberOf w <+: w) :
    ∃ t, NumberTail language t ∧ t <+: w ∧ (numberOf w).length < t.length := by
  induction h with
  | @sign e c w he hc =>
    obtain ⟨hchar, hquote⟩ := isNumberChar_of_isSign hc
    refine ⟨[e, c], .sign he hc .nil, ⟨w, rfl⟩, ?_⟩
    simp [numberOf, isNumberChar_of_isExponent he, hchar, hquote]
  | @separator c w hc =>
    have hquote : isNumberChar '\x27' = false := by decide
    by_cases hn : isAlphanumeric c = true
    · have hspelled : numberOf ('\x27' :: c :: w) = c :: numberOf w := by
        have hchar : isNumberChar c = true := by simp [isNumberChar, isIdentContinue, hn]
        simp [numberOf, hquote, hchar, hn]
      rw [hspelled] at hpre
      obtain rfl : c = '\x27' := (cons_prefix_cons.mp hpre).1
      exact absurd hn (by decide)
    · obtain ⟨hcpp, rfl⟩ := hc.resolve_left hn
      refine ⟨['\x27', '_'], .separator hcpp (by decide) .nil, ⟨w, rfl⟩, ?_⟩
      simp [numberOf, hquote, hn]
  | @char c w hc _ ih =>
    rw [numberOf, if_pos hc] at hpre ⊢
    obtain ⟨t, ht, htpre, hlt⟩ := ih (cons_prefix_cons.mp hpre).2
    exact ⟨c :: t, .char hc ht, cons_prefix_cons.mpr ⟨rfl, htpre⟩, Nat.succ_lt_succ hlt⟩

/-- The lexer gives the longest preprocessing number at a position exactly where the text, read
through its splices, begins with a digit and its number has neither signs nor separators. -/
theorem lexToken_longestNumber_iff (language : Language) (l : Text) :
    (∃ s rest, lexToken language (settle l) = some (.number s, rest) ∧
      LongestNumber language (stripSplices l) s) ↔ PlainNumber language (stripSplices l) := by
  rw [← stripSplices_settle l]
  have hl := spliceRest_settle l
  generalize settle l = l at hl
  constructor
  · rintro ⟨s, rest, hlex, hs⟩
    cases l with
    | nil => cases hlex
    | cons c l =>
      obtain ⟨hnumber, hpre, hlongest⟩ := hs
      rw [stripSplices_cons hl] at hpre hlongest ⊢
      cases hnumber with
      | @digit d t hd ht =>
        obtain ⟨rfl, -⟩ := cons_prefix_cons.mp hpre
        obtain ⟨rest', hlex'⟩ := @lexToken_digit language _ _ hd hl
        rw [hlex', Option.some.injEq, Prod.mk.injEq, TokenKind.number.injEq] at hlex
        obtain ⟨hspelled, -⟩ := hlex
        rw [← hspelled] at hpre hlongest
        refine .intro hd fun hruns => ?_
        rw [numberOf, if_pos (isNumberChar_of_isDigit hd)] at hpre hlongest
        obtain ⟨t, ht, htpre, hlt⟩ := hruns.exists_longer (cons_prefix_cons.mp hpre).2
        have hle := hlongest (d :: t) (.digit hd ht) (cons_prefix_cons.mpr ⟨rfl, htpre⟩)
        exact absurd (Nat.le_of_succ_le_succ hle) hlt.not_ge
      | period =>
        obtain ⟨rfl, -⟩ := cons_prefix_cons.mp hpre
        cases hlex
  · intro h
    cases l with
    | nil => cases h
    | cons d l =>
      rw [stripSplices_cons hl] at h ⊢
      obtain ⟨hd, hw⟩ := h
      obtain ⟨rest, hlex⟩ := @lexToken_digit language _ _ hd hl
      refine ⟨_, rest, hlex, ?_⟩
      rw [numberOf, if_pos (isNumberChar_of_isDigit hd), numberOf_eq_takeWhile hw]
      refine ⟨.digit hd (numberTail_takeWhile _),
        cons_prefix_cons.mpr ⟨rfl, takeWhile_prefix _⟩, fun s hs hpre => ?_⟩
      cases hs with
      | digit _ ht =>
        exact Nat.succ_le_succ (ht.length_le (cons_prefix_cons.mp hpre).2 hw)
      | period =>
        obtain ⟨rfl, -⟩ := cons_prefix_cons.mp hpre
        exact absurd hd (by decide)

/-- `1e+5` is read as `1e`. -/
theorem lexToken_exponent_sign : PpNumber .c "1e+5".toList ∧
    ¬ ∃ s rest, lexToken .c (settle "1e+5".toList) = some (.number s, rest) ∧
      LongestNumber .c (stripSplices "1e+5".toList) s := by
  have hnumber : PpNumber .c "1e+5".toList :=
    .digit (by decide) (.sign (by decide) (by decide) (.char (by decide) .nil))
  refine ⟨hnumber, ?_⟩
  rintro ⟨s, rest, hlex, hs⟩
  obtain ⟨rfl, -⟩ : "1e".toList = s ∧ "+5".toList = rest := by
    have hread : lexToken .c (settle "1e+5".toList) = some (.number "1e".toList, "+5".toList) := by
      decide +kernel
    rw [hread, Option.some.injEq, Prod.mk.injEq, TokenKind.number.injEq] at hlex
    exact hlex
  exact absurd (hs.longest _ hnumber (prefix_refl _)) (by decide)

end Pathologist.Preproc

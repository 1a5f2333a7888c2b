import Pathologist.Preproc.Splices

/-!
# The scanners read through line splices

Every scanner of the lexer reads the same off two positions that differ in line splices only, and
ends at two such positions. A raw string literal has to be written the same at both.
-/
open List
namespace Pathologist.Preproc
open Expansion (Language)
open Lib.Loop (run)

section Words
variable {l l' : Text} {a b : Text × Text} (p : Char → Bool)

lemma wordStep_consumes {p} (h : wordStep p a = some b) : Consumes a.2 b.2 := by
  obtain ⟨read, l⟩ := a
  cases l with
  | nil => simp [wordStep] at h
  | cons c l =>
    simp only [wordStep] at h
    split_ifs at h
    cases h
    exact consumes_advance c l

lemma wordStep_same (h : SameRead a b) : Option.Rel SameRead (wordStep p a) (wordStep p b) := by
  obtain ⟨read, l⟩ := a
  obtain ⟨read', l'⟩ := b
  obtain ⟨rfl, hs⟩ : read = read' ∧ Same l l' := ⟨h.value, h.rest⟩
  rcases hs.cases with ⟨rfl, rfl⟩ | ⟨c, m, m', rfl, rfl, hr⟩
  · exact .none
  simp only [wordStep]
  split_ifs
  · exact .some ⟨rfl, hr⟩
  · exact .none

lemma readWord_same (h : Same l l') : SameRead (readWord p l) (readWord p l') :=
  run_same Prod.snd (fun _ _ => wordStep_consumes) (fun _ _ => wordStep_same p) le_rfl le_rfl
    ⟨rfl, h⟩

lemma reads_readWord (l : Text) : Reads l (readWord p l).2 :=
  reads_run Prod.snd (fun _ _ => wordStep_consumes) _ ([], l)

lemma numberStep_consumes (h : numberStep a = some b) : Consumes a.2 b.2 := by
  obtain ⟨read, l⟩ := a
  cases l with
  | nil => simp [numberStep] at h
  | cons c l =>
    simp only [numberStep] at h
    split_ifs at h
    all_goals
      cases h
      exact consumes_advance c l

lemma numberStep_same (h : SameRead a b) : Option.Rel SameRead (numberStep a) (numberStep b) := by
  obtain ⟨read, l⟩ := a
  obtain ⟨read', l'⟩ := b
  obtain ⟨rfl, hs⟩ : read = read' ∧ Same l l' := ⟨h.value, h.rest⟩
  rcases hs.cases with ⟨rfl, rfl⟩ | ⟨c, m, m', rfl, rfl, hr⟩
  · exact .none
  simp only [numberStep, hs.peekAt_eq 1]
  split_ifs
  · exact .some ⟨rfl, hr⟩
  · exact .some ⟨rfl, hr⟩
  · exact .none

lemma readNumber_same (h : Same l l') : SameRead (readNumber l) (readNumber l') := by
  have hrun : SameRead (run numberStep l.length ([], l)) (run numberStep l'.length ([], l')) :=
    run_same Prod.snd (fun _ _ => numberStep_consumes) (fun _ _ => numberStep_same) le_rfl le_rfl
      ⟨rfl, h⟩
  exact ⟨congrArg TokenKind.number hrun.value, hrun.rest⟩

lemma readIdentifier_same (h : Same l l') : SameRead (readIdentifier l) (readIdentifier l') :=
  ⟨congrArg TokenKind.identifier (readWord_same isIdentContinue h).value,
    (readWord_same isIdentContinue h).rest⟩

end Words

section Literals
variable {language : Language} {l l' : Text} (quote : Char) (endsAtNewline : Bool)

lemma readUdSuffix_same {spelling spelling' : Text} (hs : spelling = spelling') (h : Same l l') :
    SameRead (readUdSuffix language spelling l) (readUdSuffix language spelling' l') := by
  subst hs
  cases language with
  | c => exact ⟨rfl, h⟩
  | cpp =>
    rcases h.cases with ⟨rfl, rfl⟩ | ⟨c, m, m', rfl, rfl, hr⟩
    · exact ⟨rfl, h⟩
    have hword := readWord_same isIdentContinue h
    simp only [readUdSuffix]
    split_ifs
    · exact ⟨by rw [hword.value], hword.rest⟩
    · exact ⟨rfl, h⟩

lemma reads_readUdSuffix (spelling l : Text) : Reads l (readUdSuffix language spelling l).2 := by
  cases language with
  | c => exact .refl l
  | cpp =>
    cases l with
    | nil => exact .refl _
    | cons c l =>
      simp only [readUdSuffix]
      split_ifs
      · exact reads_readWord _ _
      · exact .refl _

lemma literalStep_consumes {quote : Char} {endsAtNewline : Bool} {m : Text}
    (h : literalStep quote endsAtNewline l = some m) : Consumes l m := by
  cases l with
  | nil => simp [literalStep] at h
  | cons c l =>
    simp only [literalStep] at h
    split_ifs at h
    · cases h
      exact (consumes_advance c l).trans_reads (.advance _)
    · cases h
      exact consumes_advance c l

lemma literalStep_same (h : Same l l') :
    Option.Rel Same (literalStep quote endsAtNewline l) (literalStep quote endsAtNewline l') := by
  rcases h.cases with ⟨rfl, rfl⟩ | ⟨c, m, m', rfl, rfl, hr⟩
  · exact .none
  simp only [literalStep]
  split_ifs
  · exact .none
  · exact .some hr.advance
  · exact .none
  · exact .some hr

lemma reads_literalBody (l : Text) :
    Reads l (run (literalStep quote endsAtNewline) l.length (advance l)) :=
  (Reads.advance l).trans (reads_run id (fun _ _ => literalStep_consumes) _ (advance l))

variable {start start' : Text}

lemma closeLiteral_same (hs : Same start start') (h : Same l l') (hr : Reads start l)
    (hr' : Reads start' l') :
    SameRead (closeLiteral start l quote) (closeLiteral start' l' quote) := by
  unfold closeLiteral
  rw [h.head?_eq]
  split_ifs
  · exact ⟨hs.stripSplices_slice h.advance (hr.trans (.advance l)) (hr'.trans (.advance l')),
      h.advance⟩
  · exact ⟨by rw [hs.stripSplices_slice h hr hr'], h⟩

lemma reads_closeLiteral (start l : Text) (quote : Char) :
    Reads l (closeLiteral start l quote).2 := by
  unfold closeLiteral
  split_ifs
  · exact .advance l
  · exact .refl l

lemma readLiteral_same (hs : Same start start') (h : Same l l') (hr : Reads start l)
    (hr' : Reads start' l') : SameRead (readLiteral language quote endsAtNewline start l)
      (readLiteral language quote endsAtNewline start' l') := by
  have hclose := closeLiteral_same quote hs
    (run_same id (fun _ _ => literalStep_consumes) (fun _ _ => literalStep_same quote endsAtNewline)
      (length_advance_le l) (length_advance_le l') h.advance)
    (hr.trans (reads_literalBody quote endsAtNewline l))
    (hr'.trans (reads_literalBody quote endsAtNewline l'))
  exact readUdSuffix_same hclose.value hclose.rest

lemma reads_readLiteral (start l : Text) :
    Reads (advance l) (readLiteral language quote endsAtNewline start l).2 :=
  ((reads_run id (fun _ _ => literalStep_consumes) _ (advance l)).trans
    (reads_closeLiteral start _ quote)).trans (reads_readUdSuffix _ _)

lemma readString_same (hs : Same start start') (h : Same l l') (hr : Reads start l)
    (hr' : Reads start' l') :
    SameRead (readString language start l) (readString language start' l') :=
  have hread := readLiteral_same '\x22' true hs h hr hr'
  ⟨congrArg TokenKind.string hread.value, hread.rest⟩

lemma readChar_same (hs : Same start start') (h : Same l l') (hr : Reads start l)
    (hr' : Reads start' l') : SameRead (readChar language start l) (readChar language start' l') :=
  have hread := readLiteral_same '\x27' false hs h hr hr'
  ⟨congrArg TokenKind.char hread.value, hread.rest⟩

variable {l : Text}

lemma splitAfter_eq_some {sought a b : Text} (h : splitAfter sought l = some (a, b)) :
    ∃ m, a = m ++ sought ∧ l = a ++ b := by
  induction l generalizing a with
  | nil =>
    simp only [splitAfter] at h
    split_ifs at h with hnil
    obtain ⟨rfl, rfl⟩ : [] = a ∧ [] = b := by simpa using h
    exact ⟨[], by simpa using hnil, rfl⟩
  | cons c l ih =>
    simp only [splitAfter] at h
    split_ifs at h with hpre
    · obtain ⟨rfl, rfl⟩ : sought = a ∧ _ = b := by simpa using h
      obtain ⟨m, hm⟩ := isPrefixOf_iff_prefix.mp hpre
      exact ⟨[], rfl, by simp [← hm]⟩
    obtain ⟨⟨a', b'⟩, hrec, heq⟩ := Option.map_eq_some_iff.mp h
    obtain ⟨rfl, rfl⟩ : c :: a' = a ∧ b' = b := by simpa using heq
    obtain ⟨m, rfl, rfl⟩ := ih hrec
    exact ⟨c :: m, rfl, rfl⟩

/-- The text before the first `c`, which is among the first `n` characters. -/
lemma takeWhile_ne_append {c : Char} {n : ℕ} (h : c ∈ l.take n) :
    l = (l.take n).takeWhile (· != c) ++ c :: l.drop
      (((l.take n).takeWhile (· != c)).length + 1) := by
  have hsplit := takeWhile_append_dropWhile (p := (· != c)) (l := l.take n)
  set before := (l.take n).takeWhile (· != c) with hb
  cases hdrop : (l.take n).dropWhile (· != c) with
  | nil =>
    rw [hdrop, append_nil] at hsplit
    rw [← hsplit] at h
    have := all_eq_true.mp (all_takeWhile (p := (· != c)) (l := l.take n)) c h
    simp at this
  | cons d m =>
    have hd : d = c := by
      have := head?_dropWhile_not (p := (· != c)) (l := l.take n)
      simpa [hdrop] using this
    subst hd
    have hl : l = before ++ d :: (m ++ l.drop n) := by
      conv_lhs => rw [← take_append_drop n l, ← hsplit, hdrop]
      simp
    have hrest : l.drop (before.length + 1) = m ++ l.drop n := by
      conv_lhs => rw [hl]
      rw [← drop_drop, drop_left]
      rfl
    rw [hrest]
    exact hl

lemma rawBody_eq_some {a b : Text} (h : rawBody l = some (a, b)) :
    ∃ m, a = m ++ ['\x22'] ∧ l = a ++ b := by
  cases l with
  | nil => simp [rawBody] at h
  | cons quote l =>
    simp only [rawBody] at h
    split_ifs at h with hd
    simp only [Bool.and_eq_true, contains_eq_mem, decide_eq_true_eq] at hd
    obtain ⟨⟨a', b'⟩, hs, heq⟩ := Option.map_eq_some_iff.mp h
    obtain ⟨m, rfl, hl⟩ := splitAfter_eq_some hs
    have hwhole := takeWhile_ne_append hd.1
    set delim := (l.take 17).takeWhile (· != '(')
    obtain ⟨rfl, rfl⟩ :
        quote :: delim ++ ['('] ++ (m ++ (')' :: delim ++ ['\x22'])) = a ∧ b' = b := by
      simpa using heq
    refine ⟨quote :: delim ++ ['('] ++ m ++ (')' :: delim), by simp, ?_⟩
    conv_lhs => rw [hwhole, hl]
    simp

/-- The raw string literal that starts here, as written after its encoding. -/
def rawLiteral (l : Text) : Option Text :=
  if opensRawString l then (rawBody (advanceBy (encodingLength l + 1) l)).map Prod.fst else none

variable (h : Same l l')
include h

lemma encodingLength_eq : encodingLength l = encodingLength l' := by
  simp [encodingLength, h.peekAt_eq]

lemma opensRawString_eq : opensRawString l = opensRawString l' := by
  simp [opensRawString, encodingLength_eq h, h.peekAt_eq]

lemma readRawString_same (enc : ℕ) (hraw : (rawBody (advanceBy (enc + 1) l)).map Prod.fst =
      (rawBody (advanceBy (enc + 1) l')).map Prod.fst) :
    Option.Rel SameRead (readRawString language enc l) (readRawString language enc l') := by
  have hafter := h.advanceBy (enc + 1)
  unfold readRawString
  cases hb : rawBody (advanceBy (enc + 1) l) with
  | none =>
    cases hb' : rawBody (advanceBy (enc + 1) l') with
    | none => exact .none
    | some r => simp [hb, hb'] at hraw
  | some r =>
    cases hb' : rawBody (advanceBy (enc + 1) l') with
    | none => simp [hb, hb'] at hraw
    | some r' =>
      obtain ⟨body, rest⟩ := r
      obtain ⟨body', rest'⟩ := r'
      obtain rfl : body = body' := by simpa [hb, hb'] using hraw
      obtain ⟨m, rfl, hl⟩ := rawBody_eq_some hb
      obtain ⟨-, -, hl'⟩ := rawBody_eq_some hb'
      -- The bodies are the same, so what follows them reads the same.
      have hview := hafter.view
      rw [hl, hl', append_assoc, append_assoc, singleton_append, singleton_append,
        stripSplices_append_quote m rest, stripSplices_append_quote m rest'] at hview
      have hrest := same_settle (append_cancel_left hview)
      have hsuffix : SameRead (readUdSuffix language _ (settle rest))
          (readUdSuffix language _ (settle rest')) :=
        readUdSuffix_same (congrArg (· ++ (m ++ ['\x22'])) (h.lookahead_eq (enc + 1))) hrest
      exact .some ⟨congrArg TokenKind.string hsuffix.value, hsuffix.rest⟩

lemma readPrefixedLiteral_same (hraw : language = .cpp → rawLiteral l = rawLiteral l') :
    Option.Rel SameRead (readPrefixedLiteral language l) (readPrefixedLiteral language l') := by
  have henc := encodingLength_eq h
  have hrawRead : Option.Rel SameRead
      (if language = .cpp ∧ opensRawString l then readRawString language (encodingLength l) l
        else none)
      (if language = .cpp ∧ opensRawString l' then readRawString language (encodingLength l') l'
        else none) := by
    rw [← opensRawString_eq h, ← henc]
    split_ifs with ho
    · refine readRawString_same h _ ?_
      have := hraw ho.1
      simpa only [rawLiteral, ← opensRawString_eq h, ho.2, ← henc, if_true] using this
    · exact .none
  unfold readPrefixedLiteral
  dsimp only
  rw [← henc, ← h.peekAt_eq] at *
  generalize (if language = .cpp ∧ opensRawString l then
    readRawString language (encodingLength l) l else none) = raw at hrawRead ⊢
  generalize (if language = .cpp ∧ opensRawString l' then
    readRawString language (encodingLength l) l' else none) = raw' at hrawRead ⊢
  have hreads : ∀ m : Text, Reads m (advanceBy (encodingLength l) m) := fun m => ⟨_, rfl⟩
  cases hrawRead with
  | some hs => exact .some hs
  | none =>
    split_ifs
    · exact .none
    · exact .some (readString_same h (h.advanceBy _) (hreads l) (hreads l'))
    · exact .some (readChar_same h (h.advanceBy _) (hreads l) (hreads l'))
    · exact .none

end Literals

section Blanks
variable {l l' : Text}

lemma lineCommentStep_consumes {m : Text} (h : lineCommentStep l = some m) : Consumes l m := by
  cases l with
  | nil => simp [lineCommentStep] at h
  | cons c l =>
    simp only [lineCommentStep] at h
    split_ifs at h
    cases h
    exact consumes_advance c l

lemma lineCommentStep_same (h : Same l l') :
    Option.Rel Same (lineCommentStep l) (lineCommentStep l') := by
  rcases h.cases with ⟨rfl, rfl⟩ | ⟨c, m, m', rfl, rfl, hr⟩
  · exact .none
  simp only [lineCommentStep]
  split_ifs
  · exact .none
  · exact .some hr

lemma blockCommentStep_consumes {a b} (h : blockCommentStep a = some b) : Consumes a.1 b.1 := by
  obtain ⟨l, closed⟩ := a
  cases closed with
  | true => simp [blockCommentStep] at h
  | false =>
    cases l with
    | nil => simp [blockCommentStep] at h
    | cons c l =>
      simp only [blockCommentStep] at h
      split_ifs at h
      · cases h
        exact (consumes_advance c l).trans_reads (.advance _)
      · cases h
        exact consumes_advance c l

lemma blockCommentStep_same {a b} (h : Same a.1 b.1 ∧ a.2 = b.2) :
    Option.Rel (fun a b : Text × Bool => Same a.1 b.1 ∧ a.2 = b.2) (blockCommentStep a)
      (blockCommentStep b) := by
  obtain ⟨l, closed⟩ := a
  obtain ⟨l', closed'⟩ := b
  obtain ⟨hs, rfl⟩ : Same l l' ∧ closed = closed' := h
  cases closed with
  | true => exact .none
  | false =>
    rcases hs.cases with ⟨rfl, rfl⟩ | ⟨c, m, m', rfl, rfl, hr⟩
    · exact .none
    simp only [blockCommentStep, hs.peekAt_eq 1]
    split_ifs
    · exact .some ⟨hr.advance, rfl⟩
    · exact .some ⟨hr, rfl⟩

lemma consumes_advanceBy_two (c : Char) (l : Text) : Consumes (c :: l) (advanceBy 2 (c :: l)) :=
  (consumes_advance c l).trans_reads (.advance _)

/-- A comment that is entered is left further on. -/
lemma lineComment_consumes {c : Char} (hc : c ≠ '\n') :
    Consumes (c :: l) (run lineCommentStep (c :: l).length (c :: l)) := by
  have hstep : lineCommentStep (c :: l) = some (advance (c :: l)) := by simp [lineCommentStep, hc]
  rw [length_cons, run, hstep]
  exact (consumes_advance c l).trans_reads
    (reads_run id (fun _ _ => lineCommentStep_consumes) _ (advance (c :: l)))

lemma whitespaceStep_consumes {m : Text} (h : whitespaceStep l = some m) : Consumes l m := by
  cases l with
  | nil => simp [whitespaceStep] at h
  | cons c l =>
    simp only [whitespaceStep] at h
    split_ifs at h with hb hl hblock
    · cases h
      exact consumes_advance c l
    · cases h
      exact lineComment_consumes (by rw [hl.1]; decide)
    · cases h
      exact (consumes_advanceBy_two c l).trans_reads
        (reads_run Prod.fst (fun _ _ => blockCommentStep_consumes) _ (advanceBy 2 (c :: l), false))

lemma whitespaceStep_same (h : Same l l') :
    Option.Rel Same (whitespaceStep l) (whitespaceStep l') := by
  rcases h.cases with ⟨rfl, rfl⟩ | ⟨c, m, m', rfl, rfl, hr⟩
  · exact .none
  have hline : Same (run lineCommentStep (c :: m).length (c :: m))
      (run lineCommentStep (c :: m').length (c :: m')) :=
    run_same id (fun _ _ => lineCommentStep_consumes) (fun _ _ => lineCommentStep_same) le_rfl
      le_rfl h
  have hblock := run_same Prod.fst (fun _ _ => blockCommentStep_consumes)
    (fun _ _ => blockCommentStep_same) (length_advanceBy_le 2 (c :: m))
    (length_advanceBy_le 2 (c :: m')) (a := (advanceBy 2 (c :: m), false))
    (b := (advanceBy 2 (c :: m'), false)) ⟨h.advanceBy 2, rfl⟩
  simp only [whitespaceStep, h.peekAt_eq 1]
  split_ifs
  · exact .some hr
  · exact .some hline
  · exact .some hblock.1
  · exact .none

lemma skipWhitespaceAndComments_same (h : Same l l') :
    Same (skipWhitespaceAndComments l) (skipWhitespaceAndComments l') :=
  run_same id (fun _ _ => whitespaceStep_consumes) (fun _ _ => whitespaceStep_same) le_rfl le_rfl h

lemma reads_skipWhitespaceAndComments (l : Text) : Reads l (skipWhitespaceAndComments l) :=
  reads_run id (fun _ _ => whitespaceStep_consumes) _ l

end Blanks

section Tokens
variable {language : Language} {l l' : Text}

/-- The token that starts at positions which are the same, if raw string literals there are. -/
lemma lexToken_same (h : Same l l') (hraw : language = .cpp → rawLiteral l = rawLiteral l') :
    Option.Rel SameRead (lexToken language l) (lexToken language l') := by
  rcases h.cases with ⟨rfl, rfl⟩ | ⟨c, m, m', rfl, rfl, hr⟩
  · exact .some ⟨rfl, h⟩
  have hprefixed : SameRead ((readPrefixedLiteral language (c :: m)).getD (readIdentifier (c :: m)))
      ((readPrefixedLiteral language (c :: m')).getD (readIdentifier (c :: m'))) := by
    have hread := readPrefixedLiteral_same h hraw
    generalize readPrefixedLiteral language (c :: m) = x at hread ⊢
    generalize readPrefixedLiteral language (c :: m') = x' at hread ⊢
    cases hread with
    | some hs => exact hs
    | none => exact readIdentifier_same h
  simp only [lexToken, h.peekAt_eq 1]
  split_ifs
  · exact .some ⟨rfl, hr⟩
  · exact .some ⟨rfl, h.advanceBy 2⟩
  · exact .some ⟨rfl, hr⟩
  · exact .some (readString_same h h (.refl _) (.refl _))
  · exact .some (readChar_same h h (.refl _) (.refl _))
  · exact .some (readNumber_same h)
  · exact .some hprefixed
  · exact .some (readIdentifier_same h)
  cases singleCharPunct c with
  | none => exact .none
  | some one =>
    unfold readPunct
    rw [h.peekAt_eq 1, h.peekAt_eq 2]
    exact .some ⟨rfl, h.advanceBy _⟩

/-- Whether a token starts here depends on one character. -/
lemma lexToken_isSome_eq (h : Same l l') :
    (lexToken language l).isSome = (lexToken language l').isSome := by
  rcases h.cases with ⟨rfl, rfl⟩ | ⟨c, m, m', rfl, rfl, hr⟩
  · rfl
  simp only [lexToken]
  split_ifs
  all_goals first | rfl | simp

variable {r : TokenKind × Text}

lemma readRawString_lt {enc : ℕ} (h : readRawString language enc l = some r) :
    r.2.length < l.length := by
  obtain ⟨⟨body, rest⟩, hb, rfl⟩ := Option.map_eq_some_iff.mp h
  obtain ⟨m, rfl, hl⟩ := rawBody_eq_some hb
  have hsuffix :
      (readUdSuffix language (lookahead (enc + 1) l ++ (m ++ ['\x22'])) (settle rest)).2.length ≤
      (settle rest).length := (reads_readUdSuffix _ _).length_le
  have hsettle := length_settle_le rest
  have hbefore := length_advanceBy_le (enc + 1) l
  rw [hl] at hbefore
  simp only [length_append, length_cons] at hbefore
  dsimp only
  omega

lemma readLiteral_lt (quote : Char) (endsAtNewline : Bool) (start : Text) (c : Char) (m : Text) :
    (readLiteral language quote endsAtNewline start (c :: m)).2.length < (c :: m).length :=
  (reads_readLiteral quote endsAtNewline start (c :: m)).length_le.trans_lt (length_advance_lt c m)

lemma advanceBy_succ_lt (n : ℕ) (c : Char) (m : Text) :
    (advanceBy (n + 1) (c :: m)).length < (c :: m).length :=
  (length_advanceBy_le n _).trans_lt (length_advance_lt c m)

variable {c : Char}

lemma readWord_lt {p} (hc : p c = true) (m : Text) :
    (readWord p (c :: m)).2.length < (c :: m).length := by
  have hstep : wordStep p ([], c :: m) = some ([c], advance (c :: m)) := by simp [wordStep, hc]
  unfold readWord
  rw [length_cons, run, hstep]
  exact ((reads_run Prod.snd (fun _ _ => wordStep_consumes) _
    ([c], advance (c :: m))).length_le).trans_lt
    (length_advance_lt c m)

lemma readNumber_lt (hc : isDigit c = true) (m : Text) :
    (readNumber (c :: m)).2.length < (c :: m).length := by
  have hstep : numberStep ([], c :: m) = some ([c], advance (c :: m)) := by
    simp [numberStep, isAlphanumeric, hc]
  unfold readNumber
  rw [length_cons, run, hstep]
  exact ((reads_run Prod.snd (fun _ _ => numberStep_consumes) _
    ([c], advance (c :: m))).length_le).trans_lt
    (length_advance_lt c m)

lemma readPrefixedLiteral_lt {m : Text} (h : readPrefixedLiteral language (c :: m) = some r) :
    r.2.length < (c :: m).length := by
  unfold readPrefixedLiteral at h
  dsimp only at h
  split at h
  · next r' hraw =>
    cases h
    split_ifs at hraw
    exact readRawString_lt hraw
  split_ifs at h with henc
  all_goals
    cases h
    obtain ⟨n, hn⟩ := Nat.exists_eq_succ_of_ne_zero henc
    refine ((reads_readLiteral _ _ (c :: m) _).length_le.trans (length_advance_le _)).trans_lt ?_
    rw [hn]
    exact advanceBy_succ_lt n c m

lemma text_ne_nil (p : Punct) : ∃ n, p.text.length = n + 1 := by
  cases p <;> exact ⟨_, rfl⟩

lemma isIdentContinue_of_start (h : isIdentStart c = true) : isIdentContinue c = true := by
  simp only [isIdentStart, Bool.or_eq_true] at h
  simp only [isIdentContinue, isAlphanumeric, Bool.or_eq_true]
  exact h.imp_left Or.inl

lemma lexToken_lt (h : lexToken language l = some r) (hr : r.1 ≠ .eof) : r.2.length < l.length := by
  cases l with
  | nil =>
    cases h
    exact absurd rfl hr
  | cons c m =>
    simp only [lexToken] at h
    split_ifs at h with hnl hash hp hq hc hd hident hl
    · cases h
      exact length_advance_lt c m
    · cases h
      exact advanceBy_succ_lt 1 c m
    · cases h
      exact length_advance_lt c m
    · cases h
      exact readLiteral_lt _ _ _ c m
    · cases h
      exact readLiteral_lt _ _ _ c m
    · cases h
      exact readNumber_lt hd m
    · cases h
      cases hread : readPrefixedLiteral language (c :: m) with
      | none => exact readWord_lt (isIdentContinue_of_start hident) m
      | some r => exact readPrefixedLiteral_lt hread
    · cases h
      exact readWord_lt (isIdentContinue_of_start hident) m
    obtain ⟨one, -, rfl⟩ := Option.map_eq_some_iff.mp h
    unfold readPunct
    dsimp only
    obtain ⟨n, hn⟩ := text_ne_nil (((if c = '.' ∨ c = '-' then
      threeCharPunct c (peekAt 1 (c :: m)) (peekAt 2 (c :: m)) (language = .cpp) else none).orElse
        fun _ => twoCharPunct c (peekAt 1 (c :: m))).getD one)
    rw [hn]
    exact advanceBy_succ_lt n c m

/-- One step past characters that no token starts with. -/
def startStep (language : Language) (l : Text) : Option Text :=
  match lexToken language l with
  | some _ => none
  | none => some (skipWhitespaceAndComments (advance l))

lemma startStep_consumes {m : Text} (h : startStep language l = some m) : Consumes l m := by
  unfold startStep at h
  split at h
  · exact absurd h (by simp)
  next hn =>
  cases h
  cases l with
  | nil => exact absurd hn (by simp [lexToken])
  | cons c l => exact (consumes_advance c l).trans_reads (reads_skipWhitespaceAndComments _)

lemma startStep_same (h : Same l l') :
    Option.Rel Same (startStep language l) (startStep language l') := by
  have hsome := @lexToken_isSome_eq language _ _ h
  unfold startStep
  cases hl : lexToken language l with
  | none =>
    cases hl' : lexToken language l' with
    | none => exact .some (skipWhitespaceAndComments_same h.advance)
    | some r => simp [hl, hl'] at hsome
  | some r =>
    cases hl' : lexToken language l' with
    | none => simp [hl, hl'] at hsome
    | some r' => exact .none

lemma tokenStart_same (h : Same l l') : Same (tokenStart language l) (tokenStart language l') :=
  run_same id (fun _ _ => startStep_consumes) (fun _ _ => startStep_same)
    (reads_skipWhitespaceAndComments l).length_le (reads_skipWhitespaceAndComments l').length_le
    (skipWhitespaceAndComments_same h)

lemma reads_tokenStart (language : Language) (l : Text) : Reads l (tokenStart language l) :=
  (reads_skipWhitespaceAndComments l).trans (reads_run id (fun _ _ => startStep_consumes) _ _)

end Tokens
end Pathologist.Preproc

import Pathologist.Preproc.Cursor
import Pathologist.Preproc.Scanners

/-!
# The lexer reads off the rest of its text

The readers of the lexer, over its state. Each reads what the reader of the same name reads off
the text from the current position on, and leaves the lexer at the position that one leaves. An
attempt at a raw string literal that fails leaves the lexer as it was.
-/
open List
namespace Pathologist.Preproc
open Expansion (Language)
open Lib.Loop (run run_lockstep)

/-- A literal with an encoding but not a raw one. -/
def readEncodedLiteral (language : Language) (l : Text) : Option (TokenKind × Text) :=
  if encodingLength l = 0 then none
  else if peekAt (encodingLength l) l = '\x22' then
    some (readString language l (advanceBy (encodingLength l) l))
  else if peekAt (encodingLength l) l = '\x27' then
    some (readChar language l (advanceBy (encodingLength l) l))
  else none

namespace Lexer

def advanceChars : ℕ → Lexer → Lexer
  | 0, lx => lx
  | n + 1, lx => advanceChars n lx.advanceChar

def wordStep (p : Char → Bool) : Text × Lexer → Option (Text × Lexer)
  | (read, lx) =>
    match lx.rest with
    | [] => none
    | c :: _ => if p c then some (read ++ [c], lx.advanceChar) else none

def readWord (p : Char → Bool) (lx : Lexer) : Text × Lexer :=
  run (wordStep p) lx.rest.length ([], lx)

def readIdentifier (lx : Lexer) : TokenKind × Lexer :=
  let (s, lx) := lx.readWord isIdentContinue
  (.identifier s, lx)

def numberStep : Text × Lexer → Option (Text × Lexer)
  | (read, lx) =>
    match lx.rest with
    | [] => none
    | c :: _ =>
      if isAlphanumeric c || c == '_' || c == '.' then some (read ++ [c], lx.advanceChar)
      else if c = '\x27' ∧ isAlphanumeric (peekAt 1 lx.rest) then some (read, lx.advanceChar)
      else none

def readNumber (lx : Lexer) : TokenKind × Lexer :=
  let (s, lx) := run numberStep lx.rest.length ([], lx)
  (.number s, lx)

def readUdSuffix (spelling : Text) (lx : Lexer) : Text × Lexer :=
  match lx.language, lx.rest with
  | .cpp, c :: _ =>
    if isIdentStart c then
      let (suffix, lx) := lx.readWord isIdentContinue
      (spelling ++ suffix, lx)
    else (spelling, lx)
  | _, _ => (spelling, lx)

def literalStep (quote : Char) (endsAtNewline : Bool) (lx : Lexer) : Option Lexer :=
  match lx.rest with
  | [] => none
  | c :: _ =>
    if c = quote then none
    else if c = '\\' then some lx.advanceChar.advanceChar
    else if c = '\n' ∧ endsAtNewline then none
    else some lx.advanceChar

/-- The text as written from `start` to the current position. -/
def written (start : ℕ) (lx : Lexer) : Text := (lx.input.drop start).take (lx.pos - start)

def closeLiteral (start : ℕ) (quote : Char) (lx : Lexer) : Text × Lexer :=
  if lx.rest.head? = some quote then
    let lx := lx.advanceChar
    (stripSplices (lx.written start), lx)
  else (stripSplices (lx.written start) ++ [quote], lx)

def readLiteral (quote : Char) (endsAtNewline : Bool) (start : ℕ) (lx : Lexer) : Text × Lexer :=
  let stop := run (literalStep quote endsAtNewline) lx.rest.length lx.advanceChar
  let (spelling, lx) := stop.closeLiteral start quote
  lx.readUdSuffix spelling

def readString (start : ℕ) (lx : Lexer) : TokenKind × Lexer :=
  let (spelling, lx) := lx.readLiteral '\x22' true start
  (.string spelling, lx)

def readChar (start : ℕ) (lx : Lexer) : TokenKind × Lexer :=
  let (spelling, lx) := lx.readLiteral '\x27' false start
  (.char spelling, lx)

/-- A raw string literal that starts at this line and column. The lexer has read the prefix when
it finds that there is no delimiter or no end of the literal, and then goes back. -/
def readRawString (enc line col : ℕ) (lx : Lexer) : Option TokenKind × Lexer :=
  let spelled := lookahead (enc + 1) lx.rest
  let atQuote := lx.advanceChars (enc + 1)
  match rawBody atQuote.rest with
  | none => (none, atQuote.rewind lx.pos line col)
  | some (body, _) =>
    let (spelling, lx) := (atQuote.advancePhysical body.length).readUdSuffix (spelled ++ body)
    (some (.string spelling), lx)

def readEncodedLiteral (lx : Lexer) : Option TokenKind × Lexer :=
  let enc := encodingLength lx.rest
  if enc = 0 then (none, lx)
  else if peekAt enc lx.rest = '\x22' then
    let (kind, lx) := (lx.advanceChars enc).readString lx.pos
    (some kind, lx)
  else if peekAt enc lx.rest = '\x27' then
    let (kind, lx) := (lx.advanceChars enc).readChar lx.pos
    (some kind, lx)
  else (none, lx)

def readPrefixedLiteral (line col : ℕ) (lx : Lexer) : Option TokenKind × Lexer :=
  if lx.language = .cpp ∧ opensRawString lx.rest then
    match lx.readRawString (encodingLength lx.rest) line col with
    | (some kind, lx) => (some kind, lx)
    | (none, lx) => lx.readEncodedLiteral
  else lx.readEncodedLiteral

def lineCommentStep (lx : Lexer) : Option Lexer :=
  match lx.rest with
  | [] => none
  | c :: _ => if c = '\n' then none else some lx.advanceChar

def blockCommentStep : Lexer × Bool → Option (Lexer × Bool)
  | (_, true) => none
  | (lx, false) =>
    match lx.rest with
    | [] => none
    | c :: _ =>
      if c = '*' ∧ peekAt 1 lx.rest = '/' then some (lx.advanceChar.advanceChar, true)
      else some (lx.advanceChar, false)

def whitespaceStep (lx : Lexer) : Option Lexer :=
  match lx.rest with
  | [] => none
  | c :: _ =>
    if c = ' ' ∨ c = '\t' ∨ c = '\r' then some lx.advanceChar
    else if c = '/' ∧ peekAt 1 lx.rest = '/' then some (run lineCommentStep lx.rest.length lx)
    else if c = '/' ∧ peekAt 1 lx.rest = '*' then
      some (run blockCommentStep lx.rest.length (lx.advanceChars 2, false)).1
    else none

def skipWhitespaceAndComments (lx : Lexer) : Lexer := run whitespaceStep lx.rest.length lx

def readPunct (one : Punct) (c : Char) (lx : Lexer) : TokenKind × Lexer :=
  let lx := lx.advanceChar
  let next := peekAt 0 lx.rest
  let three := if c = '.' ∨ c = '-' then
    threeCharPunct c next (peekAt 1 lx.rest) (lx.language = .cpp) else none
  let p := (three.orElse fun _ => twoCharPunct c next).getD one
  (.punct p, lx.advanceChars (p.text.length - 1))

/-- The token at the current position, which is at this line and column, if one starts there. -/
def lexToken (line col : ℕ) (lx : Lexer) : Option (TokenKind × Lexer) :=
  match lx.rest with
  | [] => some (.eof, lx)
  | c :: _ =>
    if c = '\n' then some (.newline, lx.advanceChar)
    else if c = '#' then
      if peekAt 1 lx.rest = '#' then some (.punct .hashHash, lx.advanceChar.advanceChar)
      else some (.hash, lx.advanceChar)
    else if c = '\x22' then some (lx.readString lx.pos)
    else if c = '\x27' then some (lx.readChar lx.pos)
    else if isDigit c then some lx.readNumber
    else if isIdentStart c then
      match if c = 'R' ∨ c = 'u' ∨ c = 'U' ∨ c = 'L' then lx.readPrefixedLiteral line col
        else (none, lx) with
      | (some kind, lx) => some (kind, lx)
      | (none, lx) => some lx.readIdentifier
    else (singleCharPunct c).map fun one => lx.readPunct one c

def tokenStart (lx : Lexer) : Lexer :=
  run (fun lx => match lx.lexToken lx.line lx.col with
    | some _ => none
    | none => some lx.advanceChar.skipWhitespaceAndComments)
    lx.rest.length lx.skipWhitespaceAndComments

def nextToken (lx : Lexer) : Option (Token × Lexer) :=
  let start := lx.tokenStart
  (start.lexToken start.line start.col).map fun (kind, next) =>
    let token := { Token.new kind start.line start.col with
      adjacentBefore := start.pos == lx.pos && !lx.afterNewline }
    (token, { next with afterNewline := token.isNewline })

def tokenizeStep : List Token × Lexer → Option (List Token × Lexer)
  | (tokens, lx) =>
    if tokens.getLast?.any Token.isEof then none
    else lx.nextToken.map fun (token, next) => (tokens ++ [token], next)

def tokenize (lx : Lexer) : List Token := (run tokenizeStep (lx.input.length + 1) ([], lx)).1

/-! ## What the readers read -/

/-- The lexer has read on from `lx` to the position before `l`. -/
structure Stands (lx lx' : Lexer) (l : Text) : Prop extends After lx lx' where
  rest : lx'.rest = l

/-- The same has been read, and the lexer stands where the reader of the text stands. -/
structure Gives {α : Type} (lx : Lexer) (r : α × Lexer) (s : α × Text) : Prop where
  value : r.1 = s.1
  stands : Stands lx r.2 s.2

variable {lx lx' : Lexer} {l : Text}

lemma Valid.stands (h : lx.Valid) : Stands lx lx lx.rest := ⟨h.after, rfl⟩

lemma Stands.of_after {lx'' : Lexer} (h : After lx lx') (h' : Stands lx' lx'' l) :
    Stands lx lx'' l :=
  ⟨h.trans h'.toAfter, h'.rest⟩

lemma Stands.advanceChar (h : Stands lx lx' l) : Stands lx lx'.advanceChar (advance l) := by
  obtain ⟨hafter, hrest⟩ := h.valid.advanceChar
  exact ⟨h.toAfter.trans hafter, by rw [hrest, h.rest]⟩

lemma Stands.advanceChars (n : ℕ) (h : Stands lx lx' l) :
    Stands lx (lx'.advanceChars n) (advanceBy n l) := by
  induction n generalizing lx' l with
  | zero => exact h
  | succ n ih => exact ih h.advanceChar

section Words
variable {s : Text × Lexer} {s' : Text × Text} (h : Gives lx s s')
include h

lemma Gives.wordStep (p : Char → Bool) :
    Option.Rel (Gives lx) (wordStep p s) (Preproc.wordStep p s') := by
  obtain ⟨read, lx'⟩ := s
  obtain ⟨read', l⟩ := s'
  obtain ⟨rfl, hstands⟩ : read = read' ∧ Stands lx lx' l := ⟨h.value, h.stands⟩
  cases l with
  | nil => simp only [Lexer.wordStep, Preproc.wordStep, hstands.rest]; exact .none
  | cons c l =>
    simp only [Lexer.wordStep, Preproc.wordStep, hstands.rest]
    split_ifs
    · exact .some ⟨rfl, hstands.advanceChar⟩
    · exact .none

lemma Gives.numberStep : Option.Rel (Gives lx) (numberStep s) (Preproc.numberStep s') := by
  obtain ⟨read, lx'⟩ := s
  obtain ⟨read', l⟩ := s'
  obtain ⟨rfl, hstands⟩ : read = read' ∧ Stands lx lx' l := ⟨h.value, h.stands⟩
  cases l with
  | nil => simp only [Lexer.numberStep, Preproc.numberStep, hstands.rest]; exact .none
  | cons c l =>
    simp only [Lexer.numberStep, Preproc.numberStep, hstands.rest]
    split_ifs
    · exact .some ⟨rfl, hstands.advanceChar⟩
    · exact .some ⟨rfl, hstands.advanceChar⟩
    · exact .none

end Words

lemma Stands.readWord (h : Stands lx lx' l) (p : Char → Bool) :
    Gives lx (lx'.readWord p) (Preproc.readWord p l) := by
  unfold Lexer.readWord Preproc.readWord
  rw [h.rest]
  exact run_lockstep (fun s s' hs => hs.wordStep p) _ ⟨rfl, h⟩

lemma Stands.readIdentifier (h : Stands lx lx' l) :
    Gives lx lx'.readIdentifier (Preproc.readIdentifier l) :=
  ⟨congrArg TokenKind.identifier (h.readWord _).value, (h.readWord _).stands⟩

lemma Stands.readNumber (h : Stands lx lx' l) :
    Gives lx lx'.readNumber (Preproc.readNumber l) := by
  have hrun : Gives lx (run Lexer.numberStep lx'.rest.length ([], lx'))
      (run Preproc.numberStep l.length ([], l)) := by
    rw [h.rest]
    exact run_lockstep (fun s s' hs => hs.numberStep) _ ⟨rfl, h⟩
  exact ⟨congrArg TokenKind.number hrun.value, hrun.stands⟩

lemma Stands.readUdSuffix (h : Stands lx lx' l) (spelling : Text) :
    Gives lx (lx'.readUdSuffix spelling) (Preproc.readUdSuffix lx.language spelling l) := by
  unfold Lexer.readUdSuffix Preproc.readUdSuffix
  rw [h.language, h.rest]
  cases lx.language <;> cases l with
  | nil => exact ⟨rfl, h⟩
  | cons c l =>
    dsimp only
    try split_ifs
    all_goals first
      | exact ⟨rfl, h⟩
      | exact ⟨congrArg (spelling ++ ·) (h.readWord _).value, (h.readWord _).stands⟩

lemma Stands.literalStep (quote : Char) (endsAtNewline : Bool) (h : Stands lx lx' l) :
    Option.Rel (Stands lx) (lx'.literalStep quote endsAtNewline)
      (Preproc.literalStep quote endsAtNewline l) := by
  unfold Lexer.literalStep
  rw [h.rest]
  cases l with
  | nil => exact .none
  | cons c l =>
    simp only [Preproc.literalStep]
    split_ifs
    · exact .none
    · exact .some h.advanceChar.advanceChar
    · exact .none
    · exact .some h.advanceChar

lemma Stands.written {start : ℕ} (h : Stands lx lx' l) (hstart : start ≤ lx.pos) :
    lx'.written start = slice (lx.input.drop start) l := by
  have hle := h.valid.le
  have := h.le
  rw [Lexer.written, slice, ← h.rest, Lexer.rest, h.input, length_drop, length_drop]
  rw [h.input] at hle
  congr 1
  omega

lemma Stands.readLiteral {quote : Char} {endsAtNewline : Bool} {start : ℕ} (h : Stands lx lx' l)
    (hstart : start ≤ lx.pos) :
    Gives lx (lx'.readLiteral quote endsAtNewline start)
      (Preproc.readLiteral lx.language quote endsAtNewline (lx.input.drop start) l) := by
  have hrun : Stands lx
      (run (Lexer.literalStep quote endsAtNewline) lx'.rest.length lx'.advanceChar)
      (run (Preproc.literalStep quote endsAtNewline) l.length (advance l)) := by
    rw [h.rest]
    exact run_lockstep (fun _ _ hs => hs.literalStep quote endsAtNewline) _ h.advanceChar
  unfold Lexer.readLiteral Preproc.readLiteral Lexer.closeLiteral Preproc.closeLiteral
  dsimp only
  rw [hrun.rest]
  split_ifs
  · rw [hrun.advanceChar.written hstart]
    exact hrun.advanceChar.readUdSuffix _
  · rw [hrun.written hstart]
    exact hrun.readUdSuffix _

lemma Stands.readString {start : ℕ} (h : Stands lx lx' l) (hstart : start ≤ lx.pos) :
    Gives lx (lx'.readString start) (Preproc.readString lx.language (lx.input.drop start) l) :=
  ⟨congrArg TokenKind.string (h.readLiteral hstart).value, (h.readLiteral hstart).stands⟩

lemma Stands.readChar {start : ℕ} (h : Stands lx lx' l) (hstart : start ≤ lx.pos) :
    Gives lx (lx'.readChar start) (Preproc.readChar lx.language (lx.input.drop start) l) :=
  ⟨congrArg TokenKind.char (h.readLiteral hstart).value, (h.readLiteral hstart).stands⟩

/-! ## Attempts at a literal -/

/-- An attempt reads what it reads off the text; where there is nothing to read, the lexer is as
it was. -/
def Attempts (lx : Lexer) (r : Option TokenKind × Lexer) : Option (TokenKind × Text) → Prop
  | none => r = (none, lx)
  | some s => r.1 = some s.1 ∧ Stands lx r.2 s.2

/-- A failed attempt at a raw string literal restores offset, line, column and splice index. -/
lemma Valid.readRawString (h : lx.Valid) (enc : ℕ) :
    Attempts lx (lx.readRawString enc lx.line lx.col)
      (Preproc.readRawString lx.language enc lx.rest) := by
  have hquote := h.stands.advanceChars (enc + 1)
  unfold Lexer.readRawString Preproc.readRawString
  dsimp only
  rw [hquote.rest]
  cases hbody : rawBody (advanceBy (enc + 1) lx.rest) with
  | none => exact Prod.ext rfl (h.rewind hquote.toAhead)
  | some r =>
    obtain ⟨body, after⟩ := r
    obtain ⟨-, -, happend⟩ := rawBody_eq_some hbody
    obtain ⟨hafter, hrest⟩ := hquote.valid.toPlaced.advancePhysical (hquote.rest.trans happend)
    have hstands : Stands lx _ (settle after) := ⟨hquote.toAfter.trans hafter, hrest⟩
    have hsuffix := hstands.readUdSuffix (lookahead (enc + 1) lx.rest ++ body)
    exact ⟨congrArg (some ∘ TokenKind.string) hsuffix.value, hsuffix.stands⟩

lemma Valid.readEncodedLiteral (h : lx.Valid) :
    Attempts lx lx.readEncodedLiteral (Preproc.readEncodedLiteral lx.language lx.rest) := by
  have hquote := h.stands.advanceChars (encodingLength lx.rest)
  unfold Lexer.readEncodedLiteral Preproc.readEncodedLiteral
  dsimp only
  split_ifs
  · rfl
  · have hread := hquote.readString le_rfl
    exact ⟨congrArg some hread.value, hread.stands⟩
  · have hread := hquote.readChar le_rfl
    exact ⟨congrArg some hread.value, hread.stands⟩
  · rfl

lemma readPrefixedLiteral_eq (language : Language) (l : Text) :
    Preproc.readPrefixedLiteral language l =
      (if language = .cpp ∧ opensRawString l then
        Preproc.readRawString language (encodingLength l) l else none).or
        (Preproc.readEncodedLiteral language l) := by
  unfold Preproc.readPrefixedLiteral Preproc.readEncodedLiteral
  dsimp only
  cases (if language = .cpp ∧ opensRawString l then
    Preproc.readRawString language (encodingLength l) l else none) <;> rfl

lemma Valid.readPrefixedLiteral (h : lx.Valid) :
    Attempts lx (lx.readPrefixedLiteral lx.line lx.col)
      (Preproc.readPrefixedLiteral lx.language lx.rest) := by
  rw [readPrefixedLiteral_eq]
  unfold Lexer.readPrefixedLiteral
  split_ifs
  · have hraw := h.readRawString (encodingLength lx.rest)
    cases htext : Preproc.readRawString lx.language (encodingLength lx.rest) lx.rest with
    | none =>
      rw [htext] at hraw
      rw [show lx.readRawString _ lx.line lx.col = (none, lx) from hraw]
      exact h.readEncodedLiteral
    | some r =>
      rw [htext] at hraw
      obtain ⟨hkind, hstands⟩ := hraw
      generalize lx.readRawString (encodingLength lx.rest) lx.line lx.col = read at *
      obtain ⟨_ | kind, next⟩ := read
      · cases hkind
      · exact ⟨hkind, hstands⟩
  · exact h.readEncodedLiteral

/-! ## Tokens -/

lemma Stands.lineCommentStep (h : Stands lx lx' l) :
    Option.Rel (Stands lx) lx'.lineCommentStep (Preproc.lineCommentStep l) := by
  unfold Lexer.lineCommentStep
  rw [h.rest]
  cases l with
  | nil => exact .none
  | cons c l =>
    simp only [Preproc.lineCommentStep]
    split_ifs
    · exact .none
    · exact .some h.advanceChar

lemma Stands.blockCommentStep {closed : Bool} (h : Stands lx lx' l) :
    Option.Rel (fun s s' => Stands lx s.1 s'.1 ∧ s.2 = s'.2) (Lexer.blockCommentStep (lx', closed))
      (Preproc.blockCommentStep (l, closed)) := by
  cases closed with
  | true => exact .none
  | false =>
    simp only [Lexer.blockCommentStep]
    rw [h.rest]
    cases l with
    | nil => exact .none
    | cons c l =>
      simp only [Preproc.blockCommentStep]
      split_ifs
      · exact .some ⟨h.advanceChar.advanceChar, rfl⟩
      · exact .some ⟨h.advanceChar, rfl⟩

lemma Stands.whitespaceStep (h : Stands lx lx' l) :
    Option.Rel (Stands lx) lx'.whitespaceStep (Preproc.whitespaceStep l) := by
  unfold Lexer.whitespaceStep
  rw [h.rest]
  cases l with
  | nil => exact .none
  | cons c l =>
    simp only [Preproc.whitespaceStep]
    split_ifs
    · exact .some h.advanceChar
    · exact .some (run_lockstep (fun _ _ hs => hs.lineCommentStep) _ h)
    · have hrun : Stands lx (run Lexer.blockCommentStep (c :: l).length
          (lx'.advanceChars 2, false)).1 (run Preproc.blockCommentStep (c :: l).length
          (advanceBy 2 (c :: l), false)).1 ∧ _ :=
        run_lockstep (R := fun (s : Lexer × Bool) (s' : Text × Bool) => Stands lx s.1 s'.1 ∧
          s.2 = s'.2)
          (fun s s' hs => by
          obtain ⟨_, closed⟩ := s
          obtain ⟨_, _⟩ := s'
          obtain ⟨hs, rfl⟩ := hs
          exact hs.blockCommentStep) _ ⟨h.advanceChars 2, rfl⟩
      exact .some hrun.1
    · exact .none

lemma Stands.skipWhitespaceAndComments (h : Stands lx lx' l) :
    Stands lx lx'.skipWhitespaceAndComments (Preproc.skipWhitespaceAndComments l) := by
  unfold Lexer.skipWhitespaceAndComments Preproc.skipWhitespaceAndComments
  rw [h.rest]
  exact run_lockstep (fun _ _ hs => hs.whitespaceStep) _ h

lemma Valid.readPunct (h : lx.Valid) (one : Punct) (c : Char) :
    Gives lx (lx.readPunct one c) (Preproc.readPunct lx.language one c lx.rest) := by
  have hnext := h.stands.advanceChar
  unfold Lexer.readPunct Preproc.readPunct
  simp only [hnext.rest, hnext.language, peekAt]
  generalize (Option.orElse _ _).getD one = p
  have hlen : p.text.length = p.text.length - 1 + 1 := by cases p <;> rfl
  have hadvance : advanceBy p.text.length lx.rest =
      advanceBy (p.text.length - 1) (advance lx.rest) := by
    rw [hlen]
    rfl
  rw [hadvance]
  exact ⟨rfl, hnext.advanceChars (p.text.length - 1)⟩

/-- A token is read off the rest of the text. -/
lemma Valid.lexToken (h : lx.Valid) :
    Option.Rel (Gives lx) (lx.lexToken lx.line lx.col) (Preproc.lexToken lx.language lx.rest) := by
  have hstands := h.stands
  have hstart : lx.input.drop lx.pos = lx.rest := rfl
  have hstring := hstands.readString le_rfl
  have hchar := hstands.readChar le_rfl
  have hattempt := h.readPrefixedLiteral
  have hpunct := h.readPunct
  rw [hstart] at hstring hchar
  unfold Lexer.lexToken
  cases hrest : lx.rest with
  | nil => exact .some ⟨rfl, hrest ▸ hstands⟩
  | cons c m =>
    rw [hrest] at hstands hstring hchar hattempt hpunct
    simp only [Preproc.lexToken]
    split_ifs
    · exact .some ⟨rfl, hstands.advanceChar⟩
    · exact .some ⟨rfl, hstands.advanceChar.advanceChar⟩
    · exact .some ⟨rfl, hstands.advanceChar⟩
    · exact .some hstring
    · exact .some hchar
    · exact .some hstands.readNumber
    · -- the lexer is as it was where no literal starts
      cases htext : Preproc.readPrefixedLiteral lx.language (c :: m) with
      | none =>
        rw [htext] at hattempt
        rw [show lx.readPrefixedLiteral lx.line lx.col = (none, lx) from hattempt]
        exact .some hstands.readIdentifier
      | some r =>
        rw [htext] at hattempt
        obtain ⟨hkind, hread⟩ := hattempt
        generalize lx.readPrefixedLiteral lx.line lx.col = read at *
        obtain ⟨_ | kind, next⟩ := read
        · cases hkind
        · exact .some ⟨Option.some.inj hkind, hread⟩
    · exact .some hstands.readIdentifier
    · cases singleCharPunct c with
      | none => exact .none
      | some one => exact .some (hpunct one c)

lemma Valid.tokenStart (h : lx.Valid) :
    Stands lx lx.tokenStart (Preproc.tokenStart lx.language lx.rest) := by
  refine run_lockstep (R := Stands lx) (fun s l hs => ?_) _ h.stands.skipWhitespaceAndComments
  have htoken := hs.valid.lexToken
  rw [hs.language, hs.rest] at htoken
  cases hl : Preproc.lexToken lx.language l with
  | none =>
    rw [hl] at htoken
    cases hs' : s.lexToken s.line s.col with
    | none => exact .some hs.advanceChar.skipWhitespaceAndComments
    | some r => rw [hs'] at htoken; cases htoken
  | some r =>
    rw [hl] at htoken
    cases hs' : s.lexToken s.line s.col with
    | none => rw [hs'] at htoken; cases htoken
    | some r' => exact .none

/-- The lexer and the reader of its text have read the same tokens. -/
structure Alike (input : Text) (language : Language) (s : List Token × Lexer) (s' : LexState) :
    Prop where
  valid : s.2.Valid
  input : s.2.input = input
  language : s.2.language = language
  tokens : s.1 = s'.tokens
  rest : s.2.rest = s'.rest
  afterNewline : s.2.afterNewline = s'.afterNewline

lemma Valid.withAfterNewline (h : lx.Valid) (afterNewline : Bool) :
    ({ lx with afterNewline }).Valid :=
  ⟨⟨⟨h.le, h.splices, h.place⟩, h.index, h.next⟩, h.settled⟩

lemma Alike.step {input : Text} {language : Language} {s : List Token × Lexer} {s' : LexState}
    (h : Alike input language s s') :
    Option.Rel (Alike input language) (tokenizeStep s) (s'.next language input) := by
  obtain ⟨tokens, lx⟩ := s
  obtain ⟨hvalid, rfl, rfl, htokens, hrest, hnewline⟩ := h
  dsimp only at hvalid htokens hrest hnewline
  have hstart := hvalid.tokenStart
  have htoken := hstart.valid.lexToken
  have hplace := hstart.valid.place
  rw [hstart.input, hstart.rest] at hplace
  rw [hstart.language, hstart.rest] at htoken
  rw [hrest] at hstart htoken hplace
  -- the offsets differ where the lengths of the rests do
  have hlength : (lx.tokenStart.pos == lx.pos) =
      ((Preproc.tokenStart lx.language s'.rest).length == s'.rest.length) := by
    have hle := hvalid.le
    have hle' := hstart.valid.le
    rw [hstart.input] at hle'
    rw [← hstart.rest, ← hrest, Lexer.rest, Lexer.rest, hstart.input, length_drop, length_drop,
      Bool.eq_iff_iff, beq_iff_eq, beq_iff_eq]
    omega
  unfold tokenizeStep nextToken LexState.next
  dsimp only
  rw [htokens]
  split_ifs
  · exact .none
  cases htext : Preproc.lexToken lx.language (Preproc.tokenStart lx.language s'.rest) with
  | none =>
    rw [htext] at htoken
    cases hlexer : lx.tokenStart.lexToken lx.tokenStart.line lx.tokenStart.col with
    | none => exact .none
    | some r => rw [hlexer] at htoken; cases htoken
  | some r =>
    rw [htext] at htoken
    cases hlexer : lx.tokenStart.lexToken lx.tokenStart.line lx.tokenStart.col with
    | none => rw [hlexer] at htoken; cases htoken
    | some r' =>
      rw [hlexer] at htoken
      obtain ⟨kind, next⟩ := r'
      obtain ⟨kind', rest'⟩ := r
      cases htoken
      next hgives =>
      obtain ⟨rfl, hnext⟩ : kind = kind' ∧ Stands lx.tokenStart next rest' :=
        ⟨hgives.value, hgives.stands⟩
      refine .some ⟨hnext.valid.withAfterNewline _, hnext.input.trans hstart.input,
        hnext.language.trans hstart.language, ?_, hnext.rest, rfl⟩
      rw [← hplace, hlength, hnewline]

/-- The tokens of a text, with their lines, columns and adjacency, are the same whether they are
read by the lexer with its offsets and its list of splices or off the text itself. -/
theorem tokenize_new (input : Text) (language : Language) :
    (new input language).tokenize = Preproc.tokenize language input := by
  obtain ⟨hafter, hrest⟩ := after_new input language
  unfold Lexer.tokenize Preproc.tokenize
  rw [hafter.input]
  exact (run_lockstep (R := Alike input language) (fun _ _ hs => hs.step) _
    ⟨hafter.valid, hafter.input, hafter.language, rfl, hrest, hafter.afterNewline⟩).tokens

end Lexer
end Pathologist.Preproc

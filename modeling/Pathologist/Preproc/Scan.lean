import Pathologist.Lib.Loop
import Pathologist.Preproc.Token

/-!
# Reading tokens off a text

The readers of the lexer. Each takes the position of its token's first character and gives
what it read and the position after it, which is never inside a line splice. Loops have the
length of the text as fuel, since each of their steps consumes a character.
-/
namespace Pathologist.Preproc
open Expansion (Language)
open Lib.Loop (run)

/-- The punctuator that one character is. -/
def singleCharPunct : Char → Option Punct
  | '+' => some .plus | '-' => some .minus | '<' => some .lt | '>' => some .gt
  | '=' => some .eq | '!' => some .bang | '&' => some .amp | '|' => some .bar
  | '^' => some .caret | '~' => some .tilde | '*' => some .star | '/' => some .slash
  | '%' => some .percent | '.' => some .dot | ',' => some .comma | ';' => some .semi
  | ':' => some .colon | '(' => some .lparen | ')' => some .rparen | '[' => some .lbracket
  | ']' => some .rbracket | '\x7b' => some .lbrace | '\x7d' => some .rbrace
  | '?' => some .question | '\\' => some .backslash
  | _ => none

def threeCharPunct (a b c : Char) (cpp : Bool) : Option Punct :=
  if a = '.' ∧ b = '.' ∧ c = '.' then some .ellipsis
  else if a = '-' ∧ b = '>' ∧ c = '*' ∧ cpp then some .arrowStar
  else none

def twoCharPunct : Char → Char → Option Punct
  | '<', '<' => some .shl | '>', '>' => some .shr | '<', '=' => some .le | '>', '=' => some .ge
  | '=', '=' => some .eqEq | '!', '=' => some .ne | '&', '&' => some .ampAmp
  | '|', '|' => some .barBar | '+', '+' => some .plusPlus | '-', '-' => some .minusMinus
  | '+', '=' => some .plusEq | '-', '=' => some .minusEq | '*', '=' => some .starEq
  | '/', '=' => some .slashEq | '%', '=' => some .percentEq | '&', '=' => some .ampEq
  | '|', '=' => some .barEq | '^', '=' => some .caretEq | '-', '>' => some .arrow
  | _, _ => none

def advanceBy : ℕ → Text → Text
  | 0, l => l
  | n + 1, l => advanceBy n (advance l)

/-- The next `n` characters to read. -/
def lookahead : ℕ → Text → Text
  | 0, _ => []
  | _ + 1, [] => []
  | n + 1, c :: l => c :: lookahead n (advance (c :: l))

/-- One more character of a word whose characters satisfy `p`. -/
def wordStep (p : Char → Bool) : Text × Text → Option (Text × Text)
  | (_, []) => none
  | (read, c :: l) => if p c then some (read ++ [c], advance (c :: l)) else none

def readWord (p : Char → Bool) (l : Text) : Text × Text := run (wordStep p) l.length ([], l)

def readIdentifier (l : Text) : TokenKind × Text :=
  let (s, rest) := readWord isIdentContinue l
  (.identifier s, rest)

/-- One more character of a number. A digit separator is left out of the spelling. -/
def numberStep : Text × Text → Option (Text × Text)
  | (_, []) => none
  | (read, c :: l) =>
    if isAlphanumeric c || c == '_' || c == '.' then some (read ++ [c], advance (c :: l))
    else if c = '\x27' ∧ isAlphanumeric (peekAt 1 (c :: l)) then some (read, advance (c :: l))
    else none

def readNumber (l : Text) : TokenKind × Text :=
  let (s, rest) := run numberStep l.length ([], l)
  (.number s, rest)

/-- A user-defined-literal suffix glued to the closing quote, in C++. -/
def readUdSuffix (language : Language) (spelling l : Text) : Text × Text :=
  match language, l with
  | .cpp, c :: _ =>
    if isIdentStart c then
      let (suffix, rest) := readWord isIdentContinue l
      (spelling ++ suffix, rest)
    else (spelling, l)
  | _, _ => (spelling, l)

/-- One more character of a literal's body, or two if the first is a backslash. The body ends at
the quote, and that of a string at the end of its line. -/
def literalStep (quote : Char) (endsAtNewline : Bool) : Text → Option Text
  | [] => none
  | c :: l =>
    if c = quote then none
    else if c = '\\' then some (advance (advance (c :: l)))
    else if c = '\n' ∧ endsAtNewline then none
    else some (advance (c :: l))

/-- The spelling of the literal that began at `start`, with a quote appended if it has none. -/
def closeLiteral (start l : Text) (quote : Char) : Text × Text :=
  if l.head? = some quote then (stripSplices (slice start (advance l)), advance l)
  else (stripSplices (slice start l) ++ [quote], l)

/-- A literal that began at `start`, whose opening quote is at `l`. -/
def readLiteral (language : Language) (quote : Char) (endsAtNewline : Bool) (start l : Text) :
    Text × Text :=
  let stop := run (literalStep quote endsAtNewline) l.length (advance l)
  let (spelling, rest) := closeLiteral start stop quote
  readUdSuffix language spelling rest

def readString (language : Language) (start l : Text) : TokenKind × Text :=
  let (spelling, rest) := readLiteral language '\x22' true start l
  (.string spelling, rest)

def readChar (language : Language) (start l : Text) : TokenKind × Text :=
  let (spelling, rest) := readLiteral language '\x27' false start l
  (.char spelling, rest)

/-- The text up to the end of the first occurrence of `sought`, and the text after it. -/
def splitAfter (sought : Text) : Text → Option (Text × Text)
  | [] => if sought.isEmpty then some ([], []) else none
  | c :: l =>
    if sought.isPrefixOf (c :: l) then some (sought, (c :: l).drop sought.length)
    else (splitAfter sought l).map fun r => (c :: r.1, r.2)

/-- The body of a raw string literal as written, from its opening quote on, and the text after
it. The delimiter has at most 16 characters. -/
def rawBody : Text → Option (Text × Text)
  | [] => none
  | quote :: l =>
    let delim := (l.take 17).takeWhile (· != '(')
    if (l.take 17).contains '(' && delim.all isDChar then
      (splitAfter (')' :: delim ++ ['\x22']) (l.drop (delim.length + 1))).map fun r =>
        (quote :: delim ++ ['('] ++ r.1, r.2)
    else none

/-- A raw string literal with `enc` characters of encoding. Its body is taken as written. -/
def readRawString (language : Language) (enc : ℕ) (l : Text) : Option (TokenKind × Text) :=
  (rawBody (advanceBy (enc + 1) l)).map fun r =>
    let (spelling, rest) := readUdSuffix language (lookahead (enc + 1) l ++ r.1) (settle r.2)
    (.string spelling, rest)

/-- How many characters of encoding prefix the text begins with. -/
def encodingLength (l : Text) : ℕ :=
  if peekAt 0 l = 'u' ∧ peekAt 1 l = '8' then 2
  else if peekAt 0 l = 'u' ∨ peekAt 0 l = 'U' ∨ peekAt 0 l = 'L' then 1
  else 0

def opensRawString (l : Text) : Bool :=
  peekAt (encodingLength l) l == 'R' && peekAt (encodingLength l + 1) l == '\x22'

def readPrefixedLiteral (language : Language) (l : Text) : Option (TokenKind × Text) :=
  let enc := encodingLength l
  let raw := if language = .cpp ∧ opensRawString l then readRawString language enc l else none
  match raw with
  | some r => some r
  | none =>
    if enc = 0 then none
    else if peekAt enc l = '\x22' then some (readString language l (advanceBy enc l))
    else if peekAt enc l = '\x27' then some (readChar language l (advanceBy enc l))
    else none

def lineCommentStep : Text → Option Text
  | [] => none
  | c :: l => if c = '\n' then none else some (advance (c :: l))

/-- The second component tells that the comment has been closed. -/
def blockCommentStep : Text × Bool → Option (Text × Bool)
  | (_, true) => none
  | ([], false) => none
  | (c :: l, false) =>
    if c = '*' ∧ peekAt 1 (c :: l) = '/' then some (advance (advance (c :: l)), true)
    else some (advance (c :: l), false)

def whitespaceStep : Text → Option Text
  | [] => none
  | c :: l =>
    if c = ' ' ∨ c = '\t' ∨ c = '\r' then some (advance (c :: l))
    else if c = '/' ∧ peekAt 1 (c :: l) = '/' then
      some (run lineCommentStep (c :: l).length (c :: l))
    else if c = '/' ∧ peekAt 1 (c :: l) = '*' then
      some (run blockCommentStep (c :: l).length (advanceBy 2 (c :: l), false)).1
    else none

def skipWhitespaceAndComments (l : Text) : Text := run whitespaceStep l.length l

/-- The longest punctuator that starts with the punctuator `one`, the character `c`. -/
def readPunct (language : Language) (one : Punct) (c : Char) (l : Text) : TokenKind × Text :=
  let three := if c = '.' ∨ c = '-' then
    threeCharPunct c (peekAt 1 l) (peekAt 2 l) (language = .cpp) else none
  let p := (three.orElse fun _ => twoCharPunct c (peekAt 1 l)).getD one
  (.punct p, advanceBy p.text.length l)

/-- The token that starts here, if one does. -/
def lexToken (language : Language) : Text → Option (TokenKind × Text)
  | [] => some (.eof, [])
  | c :: l =>
    if c = '\n' then some (.newline, advance (c :: l))
    else if c = '#' then
      if peekAt 1 (c :: l) = '#' then some (.punct .hashHash, advanceBy 2 (c :: l))
      else some (.hash, advance (c :: l))
    else if c = '\x22' then some (readString language (c :: l) (c :: l))
    else if c = '\x27' then some (readChar language (c :: l) (c :: l))
    else if isDigit c then some (readNumber (c :: l))
    else if isIdentStart c then
      let literal := if c = 'R' ∨ c = 'u' ∨ c = 'U' ∨ c = 'L'
        then readPrefixedLiteral language (c :: l) else none
      some (literal.getD (readIdentifier (c :: l)))
    else (singleCharPunct c).map fun one => readPunct language one c (c :: l)

/-- Where the next token starts: past white space, comments and characters that no token starts
with. -/
def tokenStart (language : Language) (l : Text) : Text :=
  run (fun l => match lexToken language l with
    | some _ => none
    | none => some (skipWhitespaceAndComments (advance l))) l.length (skipWhitespaceAndComments l)

/-- The line and column of a position in a text. -/
def placeOf (input l : Text) : ℕ × ℕ :=
  let before := slice input l
  (before.count '\n' + 1, (before.reverse.takeWhile (· != '\n')).length + 1)

/-- The tokens read so far, and where the lexer stands. -/
structure LexState where
  tokens : List Token := []
  rest : Text
  afterNewline : Bool := true

/-- Read one more token. The end of the text is a token, after which there is none. -/
def LexState.next (language : Language) (input : Text) (s : LexState) : Option LexState :=
  if s.tokens.getLast?.any Token.isEof then none
  else
    let start := tokenStart language s.rest
    (lexToken language start).map fun r =>
      let place := placeOf input start
      let token := { Token.new r.1 place.1 place.2 with
        adjacentBefore := start.length == s.rest.length && !s.afterNewline }
      { tokens := s.tokens ++ [token], rest := r.2, afterNewline := token.isNewline }

/-- The tokens of a text, its end included. -/
def tokenize (language : Language) (input : Text) : List Token :=
  (run (LexState.next language input) (input.length + 1) { rest := settle input }).tokens

end Pathologist.Preproc

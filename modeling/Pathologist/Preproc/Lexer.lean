import Mathlib.Algebra.Order.Ring.Nat
import Pathologist.Expansion.Cache

/-!
# The lexer

Tokens of a source text, by longest match. The text is read through its line splices:
the next character to read is never the `\` of a splice, except inside a raw string
literal, which is copied as written. A position is the text from there on.
-/
namespace Pathologist.Preproc
open Expansion (Language)

abbrev Text := List Char

/-- The punctuators the preprocessor knows. -/
inductive Punct
  | plus | minus | lt | gt | eq | bang | amp | bar | caret | tilde | star | slash | percent
  | dot | comma | semi | colon | lparen | rparen | lbracket | rbracket | lbrace | rbrace
  | question | backslash
  | shl | shr | le | ge | eqEq | ne | ampAmp | barBar | plusPlus | minusMinus | plusEq | minusEq
  | starEq | slashEq | percentEq | ampEq | barEq | caretEq | arrow
  | ellipsis | arrowStar | hashHash | scope
  deriving DecidableEq, Repr

def Punct.text : Punct → Text
  | .plus => ['+'] | .minus => ['-'] | .lt => ['<'] | .gt => ['>'] | .eq => ['=']
  | .bang => ['!'] | .amp => ['&'] | .bar => ['|'] | .caret => ['^'] | .tilde => ['~']
  | .star => ['*'] | .slash => ['/'] | .percent => ['%'] | .dot => ['.'] | .comma => [',']
  | .semi => [';'] | .colon => [':'] | .lparen => ['('] | .rparen => [')']
  | .lbracket => ['['] | .rbracket => [']'] | .lbrace => ['\x7b'] | .rbrace => ['\x7d']
  | .question => ['?'] | .backslash => ['\\']
  | .shl => ['<', '<'] | .shr => ['>', '>'] | .le => ['<', '='] | .ge => ['>', '=']
  | .eqEq => ['=', '='] | .ne => ['!', '='] | .ampAmp => ['&', '&'] | .barBar => ['|', '|']
  | .plusPlus => ['+', '+'] | .minusMinus => ['-', '-'] | .plusEq => ['+', '=']
  | .minusEq => ['-', '='] | .starEq => ['*', '='] | .slashEq => ['/', '=']
  | .percentEq => ['%', '='] | .ampEq => ['&', '='] | .barEq => ['|', '=']
  | .caretEq => ['^', '='] | .arrow => ['-', '>']
  | .ellipsis => ['.', '.', '.'] | .arrowStar => ['-', '>', '*'] | .hashHash => ['#', '#']
  | .scope => [':', ':']

inductive TokenKind
  | identifier (s : Text)
  | number (s : Text)
  /-- A string literal as written: prefix, quotes, delimiters and all. -/
  | string (s : Text)
  | char (s : Text)
  | punct (p : Punct)
  | hash
  | newline
  | eof
  deriving DecidableEq, Repr

def isDigit (c : Char) : Bool := decide ('0' ≤ c ∧ c ≤ '9')

def isAlpha (c : Char) : Bool := decide ('a' ≤ c ∧ c ≤ 'z') || decide ('A' ≤ c ∧ c ≤ 'Z')

def isAlphanumeric (c : Char) : Bool := isAlpha c || isDigit c

def isIdentStart (c : Char) : Bool := isAlpha c || c == '_'

def isIdentContinue (c : Char) : Bool := isAlphanumeric c || c == '_'

/-- Member of a raw string's delimiter. -/
def isDChar (c : Char) : Bool :=
  decide ('!' ≤ c ∧ c ≤ '~') && c != '(' && c != ')' && c != '\\'

/-- Horizontal white space that may stand between the `\` and the newline of a splice. -/
def isSpliceBlank (c : Char) : Bool := c == ' ' || c == '\t' || c == '\x0b' || c == '\x0c'

def dropCarriageReturn : Text → Text
  | '\r' :: l => l
  | l => l

/-- The text after the line splice that starts here, if one does. -/
def spliceRest : Text → Option Text
  | '\\' :: l =>
    match dropCarriageReturn (l.dropWhile isSpliceBlank) with
    | '\n' :: rest => some rest
    | _ => none
  | _ => none

def skipSplices : ℕ → Text → Text
  | 0, l => l
  | fuel + 1, l =>
    match spliceRest l with
    | some rest => skipSplices fuel rest
    | none => l

/-- The position past every splice that starts here. -/
def settle (l : Text) : Text := skipSplices l.length l

/-- Consume one character and land on the next one to read. -/
def advance : Text → Text
  | [] => []
  | _ :: l => settle l

/-- The character `n` ahead, the null character past the end. -/
def peekAt : ℕ → Text → Char
  | 0, l => l.headD '\x00'
  | n + 1, l => peekAt n (advance l)

def stripSplicesFrom : ℕ → Text → Text
  | 0, l => l
  | _ + 1, [] => []
  | fuel + 1, c :: l =>
    match spliceRest (c :: l) with
    | some rest => stripSplicesFrom fuel rest
    | none => c :: stripSplicesFrom fuel l

/-- The text with every line splice in it deleted. -/
def stripSplices (l : Text) : Text := stripSplicesFrom l.length l

/-- The text from one position to a later one, as written. -/
def slice (start stop : Text) : Text := start.take (start.length - stop.length)

end Pathologist.Preproc

import Pathologist.Preproc.Lexer

/-!
# Tokens and the readers of directive lines

A position in a token list is the list from there on. The readers below stop at the end of
the line or run past it, each as its counterpart in the preprocessor does.
-/
namespace Pathologist.Preproc
open Expansion (Language)

/-- A token with its place. `hidden` are the macros it must not invoke again, `origin` is
where the outermost invocation that produced it stands. -/
structure Token where
  kind : TokenKind
  line : ℕ
  col : ℕ
  /-- No white space between this token and the one before. -/
  adjacentBefore : Bool
  hidden : List Text
  origin : Option (ℕ × ℕ)
  /-- The file whose replacement list spells the token. -/
  spellingFile : Option Text
  deriving DecidableEq

namespace Token

def new (kind : TokenKind) (line col : ℕ) : Token :=
  { kind, line, col, adjacentBefore := false, hidden := [], origin := none, spellingFile := none }

def isNewline (t : Token) : Bool := t.kind == .newline

def isEof (t : Token) : Bool := t.kind == .eof

def isHash (t : Token) : Bool := t.kind == .hash

def isPunct (t : Token) (p : Punct) : Bool := t.kind == .punct p

def isIdent (t : Token) (name : Text) : Bool := t.kind == .identifier name

def isHidden (t : Token) (name : Text) : Bool := t.hidden.contains name

def expansionSite (t : Token) : ℕ × ℕ := t.origin.getD (t.line, t.col)

/-- A replacement-list token, not to invoke `name` or anything the invoking token may not. -/
def withMacroHide (t origin : Token) (name : Text) : Token :=
  { t with
    hidden := origin.hidden ++ t.hidden ++ [name]
    origin := some origin.expansionSite }

/-- An argument token after substitution into a replacement list. -/
def withSubstitutionProvenance (t : Token) (activeHidden : Option (List Text)) : Token :=
  match activeHidden with
  | some active => { t with hidden := active ++ t.hidden }
  | none => t

end Token

def identName (t : Token) : Option Text :=
  match t.kind with
  | .identifier name => some name
  | _ => none

inductive MacroDef
  | object (replacement : List Token)
  | function (params : List Text) (replacement : List Token) (variadic : Bool)
  | gmockMethod
  deriving DecidableEq

def endsLine (t : Token) : Bool := t.isNewline || t.isEof

/-- Past the newlines that start here. -/
def skipNewlines (toks : List Token) : List Token := toks.dropWhile Token.isNewline

/-- The end of the current directive line: its newline or end-of-file token. -/
def skipDirectiveLine (toks : List Token) : List Token := toks.dropWhile fun t => !endsLine t

/-- The tokens of the current directive line. -/
def directiveRest (toks : List Token) : List Token := toks.takeWhile fun t => !endsLine t

/-- The start of the next line. -/
def skipToNewline (toks : List Token) : List Token :=
  match skipDirectiveLine toks with
  | t :: rest => if t.isNewline then rest else t :: rest
  | [] => []

def nextNonNewlineIs (toks : List Token) (p : Punct) : Bool :=
  match skipNewlines toks with
  | t :: _ => t.isPunct p
  | [] => false

section Lines
variable {t : Token} {rest : List Token}

lemma isHash_of_isEof (h : t.isEof = true) : t.isHash = false := by
  simp_all [Token.isEof, Token.isHash]

section
variable (h : t.isNewline = true)
include h

lemma isHash_of_isNewline : t.isHash = false := by
  simp_all [Token.isNewline, Token.isHash]

lemma isEof_of_isNewline : t.isEof = false := by
  simp_all [Token.isNewline, Token.isEof]

lemma skipToNewline_newline : skipToNewline (t :: rest) = rest := by
  simp [skipToNewline, skipDirectiveLine, endsLine, h]

end

lemma skipToNewline_eof (h : t.isEof = true) : skipToNewline (t :: rest) = t :: rest := by
  have : t.isNewline = false := by simp_all [Token.isNewline, Token.isEof]
  simp [skipToNewline, skipDirectiveLine, endsLine, h, this]

lemma skipToNewline_cons (h : endsLine t = false) :
    skipToNewline (t :: rest) = skipToNewline rest := by
  simp [skipToNewline, skipDirectiveLine, h]

lemma endsLine_iff : endsLine t = true ↔ t.isNewline = true ∨ t.isEof = true := by
  simp [endsLine]

lemma endsLine_of_isNewline (h : t.isNewline = true) : endsLine t = true :=
  endsLine_iff.mpr (.inl h)

lemma endsLine_of_identName {name : Text} (h : identName t = some name) : endsLine t = false := by
  simp only [identName] at h
  split at h
  · next hk => simp [endsLine, Token.isNewline, Token.isEof, hk]
  · cases h

lemma skipNewlines_of_identName {name : Text} (h : identName t = some name) (rest : List Token) :
    skipNewlines (t :: rest) = t :: rest := by
  have hend := endsLine_of_identName h
  simp only [endsLine, Bool.or_eq_false_iff] at hend
  simp [skipNewlines, hend.1]

end Lines

/-- The directives that are told apart. -/
inductive Directive
  | hashInclude | hashDefine | hashUndef | hashIfdef | hashIfndef | hashIf | hashElif | hashElse
  | hashEndif | hashLine | hashError | hashWarning | hashPragma | unknown
  deriving DecidableEq

def directiveOf (name : Text) : Directive :=
  if name = "include".toList then .hashInclude
  else if name = "define".toList then .hashDefine
  else if name = "undef".toList then .hashUndef
  else if name = "ifdef".toList then .hashIfdef
  else if name = "ifndef".toList then .hashIfndef
  else if name = "if".toList then .hashIf
  else if name = "elif".toList then .hashElif
  else if name = "else".toList then .hashElse
  else if name = "endif".toList then .hashEndif
  else if name = "line".toList then .hashLine
  else if name = "error".toList then .hashError
  else if name = "warning".toList then .hashWarning
  else if name = "pragma".toList then .hashPragma
  else .unknown

def definedName : Text := "defined".toList

/-- The name a condition that is exactly `!defined(NAME)` or `!defined NAME` tests. -/
def negatedDefinedName : List Token → Option Text
  | bang :: word :: rest =>
    if bang.isPunct .bang && word.isIdent definedName then
      match rest with
      | [name] => identName name
      | [opening, name, closing] =>
        if opening.isPunct .lparen && closing.isPunct .rparen then identName name else none
      | _ => none
    else none
  | _ => none

/-- The operand of the `defined` operator whose operator word has just been read, and how
many tokens the operator takes with that word. -/
def definedOperand : List Token → Option Text × ℕ
  | t :: rest =>
    if t.isPunct .lparen then
      match rest with
      | name :: closing :: _ =>
        match identName name with
        | some n => if closing.isPunct .rparen then (some n, 4) else (none, 2)
        | none => (none, 2)
      | _ => (none, 2)
    else
      match identName t with
      | some n => (some n, 2)
      | none => (none, 1)
  | [] => (none, 1)

/-- Body of an unprefixed string literal. -/
def plainStringBody : Text → Option Text
  | '"' :: rest => if rest.getLast? = some '"' then some rest.dropLast else none
  | _ => none

/-- The rest of a `<...>` header name, from after the bracket. -/
def angledHeader : List Token → Option Text
  | [] => none
  | t :: rest =>
    match t.kind with
    | .identifier s | .number s => (angledHeader rest).map (s ++ ·)
    | .punct .gt => some []
    | .punct p => (angledHeader rest).map (p.text ++ ·)
    | _ => none

/-- The header name that starts here, and whether it is quoted. -/
def parseIncludeHeader (toks : List Token) : Option (Text × Bool) :=
  match skipNewlines toks with
  | t :: rest =>
    match t.kind with
    | .string s => (plainStringBody s).map fun body => (body, true)
    | .punct .lt => (angledHeader rest).map fun header => (header, false)
    | _ => none
  | [] => none

/-- The keyword of the next directive, and the position just past it. `skipping` is set
while the rest of a line that holds no directive name is passed over. -/
def nextDirectiveFrom (skipping : Bool) : List Token → Option (Text × List Token)
  | [] => none
  | t :: rest =>
    if t.isEof then none
    else if t.isNewline then nextDirectiveFrom false rest
    else if t.isHash && !skipping then
      match rest.head?.bind identName with
      | some keyword => some (keyword, rest.tail)
      | none => nextDirectiveFrom true rest
    else nextDirectiveFrom true rest

def nextDirective (toks : List Token) : Option (Text × List Token) := nextDirectiveFrom false toks

/-- The name that an `#ifndef NAME` or `#if !defined(NAME)` before any other token tests, and
the end of that line. -/
def guardOpener (toks : List Token) : Option (Text × List Token) :=
  match skipNewlines toks with
  | hash :: word :: rest =>
    if hash.isHash then
      (identName word).bind fun keyword =>
        (match directiveOf keyword with
          | .hashIfndef => rest.head?.bind identName
          | .hashIf => negatedDefinedName (directiveRest rest)
          | _ => none).map fun name => (name, skipDirectiveLine rest)
    else none
  | _ => none

/-- What a directive read at this depth means for the guard. A second arm at the outermost
depth disqualifies it; after its `#endif` only blank lines may stand. `closes` goes on. -/
def guardStep (closes : ℕ → List Token → Bool) (depth : ℕ) (keyword : Text) (rest : List Token) :
    Bool :=
  match directiveOf keyword with
  | .hashIf | .hashIfdef | .hashIfndef => closes (depth + 1) rest
  | .hashElif | .hashElse => depth != 1 && closes depth rest
  | .hashEndif =>
    if depth = 1 then (skipDirectiveLine rest).all endsLine else closes (depth - 1) rest
  | _ => closes depth rest

/-- The directives up to the `#endif` that closes `depth` open conditionals. -/
def guardCloses : ℕ → ℕ → List Token → Bool
  | 0, _, _ => false
  | fuel + 1, depth, toks =>
    (nextDirective toks).any fun p => guardStep (guardCloses fuel) depth p.1 p.2

/-- The name of the include guard around the whole file, if it has one. -/
def detectIncludeGuard (toks : List Token) : Option Text :=
  (guardOpener toks).bind fun (name, rest) =>
    (nextDirective rest).bind fun (keyword, after) =>
      if directiveOf keyword = .hashDefine ∧ after.head?.bind identName = some name ∧
          guardCloses toks.length 1 after then some name
      else none

end Pathologist.Preproc

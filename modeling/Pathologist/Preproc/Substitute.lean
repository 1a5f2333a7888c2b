import Pathologist.Preproc.Token

/-!
# Arguments and replacement lists

Substitution of a function-like macro's arguments into its replacement list: `#` makes a
string of an argument, `##` pastes its neighbours, a parameter beside neither takes the
argument as expanded before.
-/
namespace Pathologist.Preproc

/-- The arguments of one invocation; `separators[k]` is the comma after `args[k]`. -/
structure MacroArgs where
  args : List (List Token)
  separators : List Token
  deriving DecidableEq

namespace MacroArgs

def empty : MacroArgs := ⟨[], []⟩

/-- How many tokens the variadic collector takes from argument `idx` on. -/
def variadicLen (a : MacroArgs) (idx : ℕ) : ℕ :=
  ((a.args.drop idx).map List.length).sum + ((a.args.drop idx).length - 1)

/-- The variadic collector's tokens from argument `idx` on, commas included. -/
def variadicTokens (a : MacroArgs) (idx : ℕ) : List Token :=
  match a.args.drop idx with
  | [] => []
  | first :: others =>
    first ++ ((a.separators.drop idx).zip others).flatMap fun p => p.1 :: p.2

end MacroArgs

/-- The arguments up to the closing parenthesis, and what follows it. `depth` counts the
parentheses open inside the list, `current` is the argument being read, both lists grow at
their end. The end-of-file token before the parenthesis is an error. -/
def readMacroArgs (depth : ℕ) (acc : MacroArgs) (current : List Token) :
    List Token → Except Token (MacroArgs × List Token)
  | [] => .ok (acc, [])
  | t :: rest =>
    if t.isPunct .lparen then readMacroArgs (depth + 1) acc (current ++ [t]) rest
    else if t.isPunct .rparen then
      match depth with
      | 0 => .ok (⟨acc.args ++ [current], acc.separators⟩, rest)
      | depth + 1 => readMacroArgs depth acc (current ++ [t]) rest
    else if t.isPunct .comma && depth == 0 then
      readMacroArgs depth ⟨acc.args ++ [current], acc.separators ++ [t]⟩ [] rest
    else if t.isEof then .error t
    else readMacroArgs depth acc (current ++ [t]) rest

/-- The arguments of an invocation in a condition. An unterminated list is no invocation. -/
def readCondMacroArgs (depth : ℕ) (acc : MacroArgs) (current : List Token) :
    List Token → Option (MacroArgs × List Token)
  | [] => none
  | t :: rest =>
    if t.isPunct .lparen then readCondMacroArgs (depth + 1) acc (current ++ [t]) rest
    else if t.isPunct .rparen then
      match depth with
      | 0 => some (⟨acc.args ++ [current], acc.separators⟩, rest)
      | depth + 1 => readCondMacroArgs depth acc (current ++ [t]) rest
    else if t.isPunct .comma && depth == 0 then
      readCondMacroArgs depth ⟨acc.args ++ [current], acc.separators ++ [t]⟩ [] rest
    else readCondMacroArgs depth acc (current ++ [t]) rest

def parseCondMacroArgs : List Token → Option (MacroArgs × List Token)
  | t :: rest => if t.isPunct .lparen then readCondMacroArgs 0 .empty [] rest else none
  | [] => none

/-- A literal's spelling inside the string that `#` builds. -/
def escapeForStringize : Text → Text
  | [] => []
  | c :: rest =>
    (if c == '\\' || c == '"' then ['\\', c]
      else if c == '\n' then ['\\', 'n']
      else if c == '\r' then (if rest.head? = some '\n' then [] else ['\\', 'r'])
      else [c]) ++ escapeForStringize rest

/-- A token's own text, its literals as `literal` maps them. -/
def tokenSpelling (literal : Text → Text) : TokenKind → Option Text
  | .newline | .eof => none
  | .identifier s | .number s => some s
  | .punct p => some p.text
  | .hash => some ['#']
  | .string s | .char s => some (literal s)

/-- Tokens spelled back as source text, one space where there was white space. -/
def spellTokensFrom (literal : Text → Text) : Bool → List Token → Text
  | _, [] => []
  | first, t :: rest =>
    match tokenSpelling literal t.kind with
    | none => spellTokensFrom literal first rest
    | some s =>
      (if !first && !t.adjacentBefore then [' '] else []) ++ s ++ spellTokensFrom literal false rest

def stringizeSpelling (arg : List Token) : Text := spellTokensFrom escapeForStringize true arg

def spellCondition (toks : List Token) : Text := spellTokensFrom id true toks

/-- How many tokens the `##` operator that starts here takes, 0 if none does. -/
def concatWidth : List Token → ℕ
  | t :: rest =>
    if t.isPunct .hashHash then 1
    else if t.isHash && (rest.head?.any Token.isHash) then 2
    else 0
  | [] => 0

def tokenPasteFragment : TokenKind → Text
  | .identifier s | .number s => s
  | .punct p => if p = .hashHash then [] else p.text
  | _ => []

def pasteTwoTokens (left right : Token) : Token :=
  let place := match left.spellingFile, right.spellingFile with
    | none, some _ => right
    | _, _ => left
  { kind := .identifier (tokenPasteFragment left.kind ++ tokenPasteFragment right.kind)
    line := place.line
    col := place.col
    adjacentBefore := left.adjacentBefore
    hidden := left.hidden ++ right.hidden
    origin := left.origin.or right.origin
    spellingFile := place.spellingFile }

/-- One pass of pasting, left to right; `next` is what was written so far, last first. Also
whether anything was pasted. -/
def concatenatePass : ℕ → List Token → Bool → List Token → List Token × Bool
  | 0, next, pasted, _ => (next.reverse, pasted)
  | _ + 1, next, pasted, [] => (next.reverse, pasted)
  | fuel + 1, next, pasted, t :: rest =>
    match concatWidth (t :: rest) with
    | 0 => concatenatePass fuel (t :: next) pasted rest
    | width + 1 =>
      match next, (t :: rest).drop (width + 1) with
      | left :: written, right :: after =>
        concatenatePass fuel (pasteTwoTokens left right :: written) true after
      | _, after => concatenatePass fuel next pasted after

/-- Pasting is repeated while it changes something: `#` pasted with `#` is an operator. -/
def applyConcatenationFrom : ℕ → List Token → List Token
  | 0, toks => toks
  | fuel + 1, toks =>
    match concatenatePass toks.length [] false toks with
    | (next, true) => applyConcatenationFrom fuel next
    | (next, false) => next

def applyConcatenation (toks : List Token) : List Token :=
  applyConcatenationFrom (toks.length + 1) toks

def isVariadicTail (params : List Text) (variadic : Bool) (idx : ℕ) : Bool :=
  variadic && idx + 1 == params.length

def argIsBlank (arg : List Token) : Bool := arg.all Token.isNewline

def argsAreBlank (args : List (List Token)) (idx : ℕ) : Bool := (args.drop idx).all argIsBlank

/-- The variable arguments are not there at all; an empty one that was written is. -/
def varargsOmitted (args : List (List Token)) (idx : ℕ) : Bool :=
  args.length ≤ idx || (idx == 0 && args.length == 1 && (args.head?.all argIsBlank))

/-- The parameter a token names. -/
def parameterOf (params : List Text) (t : Token) : Option ℕ :=
  (identName t).bind fun name => params.findIdx? (· == name)

/-- The body's token at `i` is an operand of `#` or `##`. -/
def parameterIsPastedOrStringized (body : List Token) (i : ℕ) : Bool :=
  (decide (1 ≤ i) && ((body[i - 1]?.any Token.isHash) || decide
    (0 < concatWidth (body.drop (i - 1)))))
    || (decide (2 ≤ i) && concatWidth (body.drop (i - 2)) == 2)
    || decide (0 < concatWidth (body.drop (i + 1)))

/-- The token at `op` is the `##` of `, ## args`. -/
def isGnuCommaPaste (body : List Token) (op : ℕ) (rightIsVariadicTail : Bool) : Bool :=
  rightIsVariadicTail && decide (1 ≤ op) && body[op - 1]?.any (·.isPunct .comma)

/-- The tokens argument `idx` puts in place of its parameter. -/
def argumentTokens (params : List Text) (variadic : Bool) (args : MacroArgs) (idx : ℕ) :
    List Token :=
  if isVariadicTail params variadic idx then args.variadicTokens idx else args.args[idx]?.getD []

/-- The width argument `idx` contributes where its parameter stands. -/
def argumentWidth (params : List Text) (variadic : Bool) (args : MacroArgs) (idx : ℕ) : ℕ :=
  if isVariadicTail params variadic idx then args.variadicLen idx
  else (args.args[idx]?.map List.length).getD 0

/-- A bound on the tokens substitution produces, raw arguments everywhere. -/
def projectedSubstitutionLen (body : List Token) (params : List Text) (args : MacroArgs)
    (variadic : Bool) : ℕ :=
  (body.map fun t => match parameterOf params t with
    | some idx => argumentWidth params variadic args idx
    | none => 1).sum

/-- A bound on the tokens substitution produces with `expanded` arguments beside no `#`. -/
def projectedSubstitutionLenWithPrescan (body : List Token) (params : List Text)
    (raw expanded : MacroArgs) (variadic : Bool) : ℕ :=
  (body.zipIdx.map fun p => match parameterOf params p.1 with
    | some idx =>
      argumentWidth params variadic
        (if parameterIsPastedOrStringized body p.2 then raw else expanded) idx
    | none => 1).sum

/-- One substitution: a macro's body and parameters, and an invocation's arguments.
`expandedArgs` is absent in conditions, which scan raw arguments again. -/
structure Substitution where
  macroName : Text
  origin : Token
  body : List Token
  params : List Text
  args : MacroArgs
  expandedArgs : Option MacroArgs
  variadic : Bool

/-- Where a substitution stands: the next body token, what it wrote, the white space owed to
the next token, the adjacency owed to the token that survives an empty operand. -/
structure Substituting where
  i : ℕ
  out : List Token
  gap : Bool
  pasteAdjacency : Option Bool

/-- Append a token, set off from its predecessor if an emptied parameter left a gap. -/
def Substituting.push (s : Substituting) (t : Token) (width : ℕ) : Substituting :=
  { i := s.i + width
    out := s.out ++ [if s.gap then { t with adjacentBefore := false } else t]
    gap := false
    pasteAdjacency := none }

/-- The tokens with the first that is no newline given this adjacency. -/
def markAdjacency (adjacency : Bool) : List Token → List Token
  | [] => []
  | t :: rest =>
    if t.isNewline then t :: markAdjacency adjacency rest
    else { t with adjacentBefore := adjacency } :: rest

namespace Substitution
variable (m : Substitution)

/-- The macros that argument tokens may not invoke once they are substituted. -/
def activeHidden : Option (List Text) :=
  m.expandedArgs.map fun _ => m.origin.hidden ++ [m.macroName]

/-- The operand after a `##` of this width at `i` makes the operator do nothing: what is
left of the body from there, and whether the comma before it goes too. -/
def inertPaste (i width : ℕ) : Option (ℕ × Bool) :=
  (m.body[i + width]?.bind (parameterOf m.params)).bind fun idx =>
    let tail := isVariadicTail m.params m.variadic idx
    if isGnuCommaPaste m.body i tail then
      if varargsOmitted m.args.args idx then some (i + width + 1, true) else some (i + width, false)
    else
      let blank := if tail then argsAreBlank m.args.args idx else (m.args.args[idx]?).all argIsBlank
      if blank then some (i + width + 1, false) else none

/-- The string literal that `#` makes of argument `idx`. -/
def stringized (hash : Token) (adjacency : Bool) (idx : ℕ) : Token :=
  let text := stringizeSpelling (argumentTokens m.params m.variadic m.args idx)
  let literal := Token.new (.string (['"'] ++ text ++ ['"'])) hash.line hash.col
  { literal.withMacroHide m.origin m.macroName with adjacentBefore := adjacency }

/-- A parameter of the body that is no operand of `#`, at `s.i`. -/
def substituteParameter (s : Substituting) (adjacency : Bool) (idx : ℕ) : Substituting :=
  let raw := parameterIsPastedOrStringized m.body s.i
  let source := if raw then m.args else m.expandedArgs.getD m.args
  let toks := (argumentTokens m.params m.variadic source idx).map
    (·.withSubstitutionProvenance m.activeHidden)
  if toks.all Token.isNewline then
    match concatWidth (m.body.drop (s.i + 1)) with
    | 0 =>
      { i := s.i + 1, out := s.out ++ toks, gap := s.gap || !adjacency, pasteAdjacency := none }
    | width + 1 =>
      { i := s.i + 1 + (width + 1), out := s.out, gap := s.gap, pasteAdjacency := some adjacency }
  else
    { i := s.i + 1, out := s.out ++ markAdjacency (adjacency && !s.gap) toks, gap := false,
      pasteAdjacency := none }

/-- Any other body token, and `#` before a parameter. -/
def substituteToken (s : Substituting) (t : Token) (adjacency : Bool) : Substituting :=
  match if t.isHash then m.body[s.i + 1]?.bind (parameterOf m.params) else none with
  | some idx => s.push (m.stringized t adjacency idx) 2
  | none =>
    match parameterOf m.params t with
    | some idx => m.substituteParameter s adjacency idx
    | none =>
      s.push { t.withMacroHide m.origin m.macroName with adjacentBefore := adjacency } 1

def step (s : Substituting) (t : Token) : Substituting :=
  let adjacency := s.pasteAdjacency.getD t.adjacentBefore
  match concatWidth (m.body.drop s.i) with
  | 0 => m.substituteToken s t adjacency
  | width + 1 =>
    match m.inertPaste s.i (width + 1) with
    | some (i, dropComma) =>
      { i, out := if dropComma then s.out.dropLast else s.out, gap := s.gap,
        pasteAdjacency := none }
    | none => m.substituteToken s t adjacency

def loop : ℕ → Substituting → List Token
  | 0, s => s.out
  | fuel + 1, s =>
    match m.body[s.i]? with
    | some t => loop fuel (m.step s t)
    | none => s.out

end Substitution

def substituteMacro (m : Substitution) : List Token :=
  m.loop (m.body.length + 1) { i := 0, out := [], gap := false, pasteAdjacency := none }

/-! ## What a step does -/

open Token in
/-- Put the tokens of an argument in the place of a parameter. -/
def Substituting.put (s : Substituting) (body : List Token) (adjacency : Bool)
    (toks : List Token) : Substituting :=
  if toks.all isNewline then
    match concatWidth (body.drop (s.i + 1)) with
    | 0 =>
      { i := s.i + 1, out := s.out ++ toks, gap := s.gap || !adjacency, pasteAdjacency := none }
    | width + 1 =>
      { i := s.i + 1 + (width + 1), out := s.out, gap := s.gap, pasteAdjacency := some adjacency }
  else
    { i := s.i + 1, out := s.out ++ markAdjacency (adjacency && !s.gap) toks, gap := false,
      pasteAdjacency := none }

namespace Substitution
variable {m : Substitution} {s : Substituting} {t : Token} {idx : ℕ}

/-- The tokens that stand for the parameter `idx` at a position of the body. -/
def parameterTokens (m : Substitution) (i idx : ℕ) : List Token :=
  (argumentTokens m.params m.variadic
    (if parameterIsPastedOrStringized m.body i then m.args else m.expandedArgs.getD m.args) idx).map
    (·.withSubstitutionProvenance m.activeHidden)

/-- The parameter that a `#` here makes a string of. -/
def stringizedParameter (m : Substitution) (i : ℕ) (t : Token) : Option ℕ :=
  if t.isHash then m.body[i + 1]?.bind (parameterOf m.params) else none

/-- A token of the replacement list, as it is written. -/
def written (m : Substitution) (t : Token) (adjacency : Bool) : Token :=
  { t.withMacroHide m.origin m.macroName with adjacentBefore := adjacency }

lemma stringizedParameter_of_parameter (i : ℕ) (h : parameterOf m.params t = some idx) :
    m.stringizedParameter i t = none := by
  have hhash : t.isHash = false := by
    cases hk : t.kind <;> simp [parameterOf, identName, Token.isHash, hk] at h ⊢
  simp [stringizedParameter, hhash]

lemma substituteToken_of_stringized (h : m.stringizedParameter s.i t = some idx)
    (adjacency : Bool) :
    m.substituteToken s t adjacency = s.push (m.stringized t adjacency idx) 2 := by
  unfold stringizedParameter at h
  simp [substituteToken, h]

lemma substituteToken_of_parameter (h : parameterOf m.params t = some idx) (adjacency : Bool) :
    m.substituteToken s t adjacency = s.put m.body adjacency (m.parameterTokens s.i idx) := by
  have hstringized := m.stringizedParameter_of_parameter s.i h
  unfold stringizedParameter at hstringized
  simp only [substituteToken, hstringized, h]
  rfl

lemma substituteToken_of_neither (h : m.stringizedParameter s.i t = none)
    (h' : parameterOf m.params t = none) (adjacency : Bool) :
    m.substituteToken s t adjacency = s.push (m.written t adjacency) 1 := by
  unfold stringizedParameter at h
  simp [substituteToken, h, h', written]

/-- A step passes over a `##` with nothing to paste, or substitutes a token. -/
lemma step_cases (m : Substitution) (s : Substituting) (t : Token) :
    (∃ width next dropComma, concatWidth (m.body.drop s.i) = width + 1 ∧
      m.inertPaste s.i (width + 1) = some (next, dropComma) ∧
      m.step s t = ⟨next, if dropComma then s.out.dropLast else s.out, s.gap, none⟩) ∨
    ((concatWidth (m.body.drop s.i) = 0 ∨ m.inertPaste s.i (concatWidth (m.body.drop s.i)) = none) ∧
      m.step s t = m.substituteToken s t (s.pasteAdjacency.getD t.adjacentBefore)) := by
  unfold step
  cases hw : concatWidth (m.body.drop s.i) with
  | zero => exact .inr ⟨.inl rfl, rfl⟩
  | succ width =>
    cases hinert : m.inertPaste s.i (width + 1) with
    | none => exact .inr ⟨.inr rfl, by simp [hinert]⟩
    | some r => exact .inl ⟨width, r.1, r.2, rfl, hinert, by simp [hinert]⟩

end Substitution
end Pathologist.Preproc

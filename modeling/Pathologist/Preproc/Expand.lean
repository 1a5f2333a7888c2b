import Pathologist.Preproc.Environment
import Pathologist.Preproc.Scan

/-!
# Macro expansion of text

Expansion of a token run into a list (operands that are read again) and into the output
(text). Both walk on explicit fuel: a rescan starts over on tokens the walk has not seen.
-/
namespace Pathologist.Preproc
open Lib (Program)
open EnvM

/-- The arguments after a macro's name, newlines skipped before the parenthesis. -/
def parseMacroArgs (toks : List Token) : EnvM (MacroArgs × List Token) :=
  match skipNewlines toks with
  | t :: rest =>
    if t.isPunct .lparen then
      match readMacroArgs 0 .empty [] rest with
      | .ok r => pure r
      | .error eof => error eof.line "unterminated macro argument list".toList
    else pure (.empty, t :: rest)
  | [] => pure (.empty, [])

def paintReplacement (toks : List Token) (origin : Token) (name : Text) : List Token :=
  toks.map (·.withMacroHide origin name)

/-- Which parameters stand beside neither `#` nor `##` somewhere in the body. -/
def prescanned (params : List Text) (replacement : List Token) (param : ℕ) : Bool :=
  replacement.zipIdx.any fun p =>
    !parameterIsPastedOrStringized replacement p.2 && parameterOf params p.1 == some param

/-- Expand the arguments of the parameters that are prescanned, in order. -/
def expandArgs (expand : List Token → EnvM (List Token)) (needed : ℕ → Bool) :
    ℕ → List (List Token) → EnvM (List (List Token))
  | _, [] => pure []
  | i, arg :: others => do
    let arg ← if needed i then expand arg else pure arg
    let others ← expandArgs expand needed (i + 1) others
    pure (arg :: others)

/-- Hide the other gMock macros in a recovered declaration. -/
def hideGmockNames (origin : Token) : List Token → EnvM (List Token)
  | [] => pure []
  | t :: rest => do
    let t ← match identName t with
      | some name => do
        match ← readMacro name with
        | some (.gmockMethod, _) => pure (t.withMacroHide origin name)
        | _ => pure t
      | none => pure t
    let rest ← hideGmockNames origin rest
    pure (t :: rest)

/-- The replacement of one invocation, before it is scanned again. `expand` expands an
argument into a list. -/
def expandInvocation (cfg : Setting) (expand : List Token → EnvM (List Token)) (name : Text)
    (origin : Token) (definition : MacroDef) (args : MacroArgs) : EnvM (List Token) :=
  match definition with
  | .function params replacement variadic => do
    let needed := fun i =>
      let param := if variadic then min i (params.length - 1) else i
      decide (param < params.length) && prescanned params replacement param
    let expanded ← if (List.range params.length).any (prescanned params replacement) then
        expandArgs expand needed 0 args.args
      else pure args.args
    let expandedArgs : MacroArgs := ⟨expanded, args.separators⟩
    chargeTokens cfg
      (projectedSubstitutionLenWithPrescan replacement params args expandedArgs variadic)
      origin.line
    pure <| applyConcatenation <| substituteMacro
      { macroName := name, origin, body := replacement, params, args,
        expandedArgs := some expandedArgs, variadic }
  | .gmockMethod => do
    let expanded ← expandArgs expand (fun _ => true) 0 args.args
    hideGmockNames origin (cfg.gmock name origin ⟨expanded, args.separators⟩)
  | .object replacement => pure (paintReplacement replacement origin name)

/-- Expand a token run into a list. -/
def expandOperandTokens (cfg : Setting) : ℕ → List Token → EnvM (List Token)
  | 0, _ => .exhausted
  | _ + 1, [] => pure []
  | fuel + 1, t :: rest => do
    checkResourceLimits cfg t.line
    let keep : EnvM (List Token) := do
      let out ← expandOperandTokens cfg fuel rest
      pure (t :: out)
    if endsLine t then expandOperandTokens cfg fuel rest
    else
      match identName t with
      | none => keep
      | some name =>
        if t.isHidden name then keep
        else
          match ← readMacro name with
          | none => keep
          | some (.object replacement, _) =>
            if ← pushExpansion t.line then
              let nested ← popAfter
                (expandOperandTokens cfg fuel (paintReplacement replacement t name))
              let out ← expandOperandTokens cfg fuel rest
              pure (nested ++ out)
            else keep
          | some (definition, _) =>
            if nextNonNewlineIs rest .lparen then
              if ← pushExpansion t.line then
                let (nested, after) ← popAfter do
                  let (args, after) ← parseMacroArgs rest
                  let expanded ←
                    expandInvocation cfg (expandOperandTokens cfg fuel) name t definition args
                  let nested ← expandOperandTokens cfg fuel expanded
                  pure (nested, after)
                let out ← expandOperandTokens cfg fuel after
                pure (nested ++ out)
              else keep
            else keep

def isGnuAttribute (name : Text) : Bool :=
  name == "__attribute__".toList || name == "__attribute".toList

def isCompilerAttribute (name : Text) : Bool := isGnuAttribute name || name == "__declspec".toList

/-- The tokens up to the parenthesis that closes the group, and what follows. -/
def closeGroup : ℕ → List Token → Option (List Token × List Token)
  | _, [] => none
  | depth, t :: rest =>
    let go := fun depth => (closeGroup depth rest).map fun p => (t :: p.1, p.2)
    if t.isPunct .lparen then go (depth + 1)
    else if t.isPunct .rparen then
      match depth with
      | 0 => none
      | 1 => some ([t], rest)
      | depth + 2 => go (depth + 1)
    else if t.isEof || t.isPunct .semi || t.isPunct .lbrace || t.isPunct .rbrace then none
    else go depth

/-- The balanced group after an attribute's name, and what follows it. GNU attributes have
a double parenthesis. -/
def attributeGroupAfterName (toks : List Token) (name : Text) : Option (List Token × List Token) :=
  match skipNewlines toks with
  | t :: rest =>
    if t.isPunct .lparen && (!isGnuAttribute name || nextNonNewlineIs rest .lparen) then
      (closeGroup 0 (t :: rest)).map fun p => (toks.takeWhile Token.isNewline ++ p.1, p.2)
    else none
  | [] => none

/-- The attribute a token run consists of. -/
def compilerAttributeMarker (toks : List Token) : Option Text :=
  match toks.filter fun t => !endsLine t with
  | [t] => (identName t).filter isCompilerAttribute
  | _ => none

def meaningfulAttributes : List Text :=
  ["alias".toList, "cleanup".toList, "constructor".toList, "destructor".toList,
    "visibility".toList, "weak".toList, "noreturn".toList, "selectany".toList,
    "dllexport".toList, "dllimport".toList]

/-- The name without the underscores around it. -/
def trimUnderscores (name : Text) : Text :=
  ((name.dropWhile (· == '_')).reverse.dropWhile (· == '_')).reverse

/-- An expanded group says something the index needs. -/
def groupIsMeaningful (toks : List Token) : Bool :=
  toks.any fun t => match t.kind with
    | .hash => true
    | .identifier name => meaningfulAttributes.contains (trimUnderscores name)
    | _ => false

/-- Whether the group after the attribute `name` stays in the output. -/
def attributeGroupMustSurvive (cfg : Setting) (fuel : ℕ) (group : List Token) (name : Text) :
    EnvM Bool :=
  if group.any Token.isHash then pure true
  else do
    let expanded ← expandOperandTokens cfg fuel group
    match attributeGroupAfterName expanded name with
    | none => pure true
    | some (_, after) =>
      if after.any fun t => !endsLine t then pure true else pure (groupIsMeaningful expanded)

/-- Emit the newlines of a dropped group. -/
def emitNewlines (cfg : Setting) : List Token → EnvM Unit
  | [] => pure ()
  | t :: rest => do
    checkResourceLimits cfg t.line
    if t.isNewline then emitToken t
    emitNewlines cfg rest

/-- Drop the group after the attribute `name`; `none` leaves the tokens alone. -/
def elideGroup (cfg : Setting) (fuel : ℕ) (name : Text) (rest : List Token) :
    EnvM (Option (List Token)) :=
  match attributeGroupAfterName rest name with
  | none => pure none
  | some (group, after) => do
    if ← attributeGroupMustSurvive cfg fuel group name then pure none
    else
      emitNewlines cfg group
      pure (some after)

/-- A macro that stands for an attribute's name, before a parenthesis. -/
def elideAttributeMacroGroup (cfg : Setting) (fuel : ℕ) (replacement rest : List Token) :
    EnvM (Option (List Token)) :=
  if nextNonNewlineIs rest .lparen then do
    let expanded ← expandOperandTokens cfg fuel replacement
    match compilerAttributeMarker expanded with
    | none => pure none
    | some name => elideGroup cfg fuel name rest
  else pure none

def emitAll : List Token → EnvM Unit
  | [] => pure ()
  | t :: rest => do
    emitToken t
    emitAll rest

def handlePragma (toks : List Token) : EnvM Unit :=
  match toks.head?.bind identName with
  | some name =>
    if name == "once".toList then onceGuard
    else if name == "weak".toList then do
      emitStr "\n#pragma ".toList
      emitAll (directiveRest toks)
      emitStr "\n".toList
    else pure ()
  | none => pure ()

/-- The parenthesis that opens here is closed somewhere. -/
def parenthesesClose : ℕ → List Token → Bool
  | _, [] => false
  | depth, t :: rest =>
    if t.isPunct .lparen then parenthesesClose (depth + 1) rest
    else if t.isPunct .rparen then depth == 1 || parenthesesClose (depth - 1) rest
    else parenthesesClose depth rest

/-- A string literal without its encoding prefix. -/
def withoutEncoding : Text → Text
  | 'u' :: '8' :: rest => rest
  | c :: rest => if c == 'L' || c == 'u' || c == 'U' then rest else c :: rest
  | [] => []

/-- Undo the escapes of quotes and backslashes. -/
def destringize : Text → Text
  | [] => []
  | '\\' :: '\\' :: rest => '\\' :: destringize rest
  | '\\' :: '"' :: rest => '"' :: destringize rest
  | c :: rest => c :: destringize rest

/-- `_Pragma` at the token `t`: process the pragma and drop the operator, or leave it. -/
def pragmaOperator (cfg : Setting) (fuel : ℕ) (t : Token) (rest : List Token) :
    EnvM (Option (List Token)) :=
  if !nextNonNewlineIs rest .lparen then pure none
  else if !parenthesesClose 0 rest then do
    warn t.line "unterminated _Pragma operand; retaining tokens".toList
    pure none
  else do
    let (args, after) ← parseMacroArgs rest
    match args.args with
    | [arg] =>
      match (← expandOperandTokens cfg fuel arg).map Token.kind with
      | [.string literal] =>
        match plainStringBody (withoutEncoding literal) with
        | some body =>
          handlePragma <| (tokenize cfg.language (destringize body)).map fun p =>
            { p with line := t.line, col := t.col, hidden := t.hidden, origin := t.origin,
                     spellingFile := t.spellingFile }
        | none => warn t.line "unsupported _Pragma string literal".toList
      | _ => warn t.line "_Pragma requires one string literal".toList
    | _ => warn t.line "_Pragma requires one string literal".toList
    pure (some after)

/-- Emit the value of `__FILE__` and `__LINE__`. -/
def emitPredefined (t : Token) (name : Text) : EnvM Bool :=
  if name == "__FILE__".toList then do
    let file ← currentFile
    emitStr (['"'] ++ file ++ ['"'])
    pure true
  else if name == "__LINE__".toList then do
    emitStr (toString t.expansionSite.1).toList
    pure true
  else pure false

/-- What is left to do after one token of text: go on, or scan an invocation's replacement
first, inside the expansion it opened. -/
inductive TextStep
  | next (rest : List Token)
  | rescan (expanded rest : List Token)

/-- An identifier of active text that is neither a pragma operator, an attribute nor
predefined. `rescan` walks an object-like macro's replacement. -/
def expandName (cfg : Setting) (fuel : ℕ) (rescan : List Token → EnvM Unit) (t : Token)
    (name : Text) (rest : List Token) : EnvM TextStep := do
  let keep : EnvM TextStep := do
    emitToken t
    pure (.next rest)
  if t.isHidden name then keep
  else
    match ← readMacro name with
    | none => keep
    | some (.object replacement, _) =>
      if ← pushExpansion t.line then
        let painted := paintReplacement replacement t name
        match ← elideAttributeMacroGroup cfg fuel painted rest with
        | some after =>
          popExpansion
          pure (.next after)
        | none =>
          popAfter (rescan painted)
          pure (.next rest)
      else keep
    | some (definition, _) =>
      if nextNonNewlineIs rest .lparen then
        if ← pushExpansion t.line then
          let invocation : EnvM (List Token × List Token) := do
            let (args, after) ← parseMacroArgs rest
            let expanded ←
              expandInvocation cfg (expandOperandTokens cfg fuel) name t definition args
            pure (expanded, after)
          match ← invocation.attempt with
          | .ok (expanded, after) => pure (.rescan expanded after)
          | .error e =>
            popExpansion
            .fail e
        else keep
      else keep

/-- Drop the group of a compiler attribute. A real definition of its name wins. -/
def elideAttribute (cfg : Setting) (fuel : ℕ) (t : Token) (name : Text) (rest : List Token) :
    EnvM (Option (List Token)) :=
  if !isCompilerAttribute name then pure none
  else if t.isHidden name then elideGroup cfg fuel name rest
  else do
    if (← peekMacro name).isNone then elideGroup cfg fuel name rest else pure none

/-- An identifier of active text that is no pragma operator. -/
def nameStep (cfg : Setting) (fuel : ℕ) (rescan : List Token → EnvM Unit) (t : Token) (name : Text)
    (rest : List Token) : EnvM TextStep := do
  match ← elideAttribute cfg fuel t name rest with
  | some after => pure (.next after)
  | none =>
    if ← emitPredefined t name then pure (.next rest)
    else expandName cfg fuel rescan t name rest

/-- One token of active text. -/
def textStep (cfg : Setting) (fuel : ℕ) (rescan : List Token → EnvM Unit) (t : Token)
    (rest : List Token) : EnvM TextStep :=
  match identName t with
  | none => do
    emitToken t
    pure (.next rest)
  | some name =>
    if name == "_Pragma".toList then do
      match ← pragmaOperator cfg fuel t rest with
      | some after => pure (.next after)
      | none => nameStep cfg fuel rescan t name rest
    else nameStep cfg fuel rescan t name rest

/-- Expand replacement tokens into the output. A `#` here is no directive. -/
def expandTokensNoDirectives (cfg : Setting) : ℕ → List Token → EnvM Unit
  | 0, _ => .exhausted
  | _ + 1, [] => pure ()
  | fuel + 1, t :: rest => do
    checkResourceLimits cfg t.line
    if t.isEof then pure ()
    else if t.isHash then
      emitToken t
      expandTokensNoDirectives cfg fuel rest
    else if ← isActive then
      match ← textStep cfg fuel (expandTokensNoDirectives cfg fuel) t rest with
      | .next rest => expandTokensNoDirectives cfg fuel rest
      | .rescan expanded rest =>
        popAfter (expandTokensNoDirectives cfg fuel expanded)
        expandTokensNoDirectives cfg fuel rest
    else expandTokensNoDirectives cfg fuel rest

end Pathologist.Preproc

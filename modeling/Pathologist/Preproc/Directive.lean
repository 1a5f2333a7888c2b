import Pathologist.Preproc.Condition

/-!
# Directives

The conditional stack is shared by nested files through a moving base. The programs below
are the preprocessor's main loop: `processTokens` walks a token list, `handleDirective` acts
on one directive, `processFileTokens` brackets one file's tokens. What an included file is
(found, suppressed, replayed from a cache, or live tokens) is answered by `Files`.
-/
namespace Pathologist.Preproc
open Expansion (Language)
open Lib (Interface Program)

/-! ## The conditional stack -/

structure CondFrame where
  parentActive : Bool
  active : Bool
  taken : Bool
  elseSeen : Bool
  line : ℕ
  deriving DecidableEq

/-- The open conditionals, innermost first, and how many of them belong to the includers of
the current file. -/
structure Conds where
  stack : List CondFrame
  base : ℕ
  deriving DecidableEq

namespace Conds

/-- A frame's `active` folds in its parent's, so the innermost frame decides. -/
def isActive (c : Conds) : Bool := c.stack.head?.all CondFrame.active

/-- The innermost conditional, if the current file opened it. -/
def ownFrame (c : Conds) : Option CondFrame :=
  if c.base < c.stack.length then c.stack.head? else none

def pushCond (cond : Bool) (line : ℕ) (c : Conds) : Conds :=
  let active := c.isActive && cond
  let frame := { parentActive := c.isActive, active, taken := active, elseSeen := false, line }
  { c with stack := frame :: c.stack }

/-- Change the innermost frame. -/
def mapTop (f : CondFrame → CondFrame) (c : Conds) : Conds :=
  match c.stack with
  | frame :: outer => { c with stack := f frame :: outer }
  | [] => c

lemma mapTop_of_cons {f} {c : Conds} {frame : CondFrame} {outer} (h : c.stack = frame :: outer) :
    c.mapTop f = { c with stack := f frame :: outer } := by
  simp [mapTop, h]

def elifArm (cond : Bool) : Conds → Conds := mapTop fun f =>
  let active := f.parentActive && !f.taken && cond
  { f with active, taken := f.taken || active }

def elseArm : Conds → Conds := mapTop fun f =>
  { f with active := f.parentActive && !f.taken, taken := true, elseSeen := true }

def endif (c : Conds) : Conds := { c with stack := c.stack.tail }

/-- Keep the outermost `depth` frames. -/
def truncate (depth : ℕ) (c : Conds) : Conds :=
  { c with stack := c.stack.drop (c.stack.length - depth) }

/-- The lines of the frames above the outermost `depth`, outermost first. -/
def linesAbove (depth : ℕ) (c : Conds) : List ℕ :=
  ((c.stack.take (c.stack.length - depth)).map CondFrame.line).reverse

end Conds

/-! ## Operations -/

/-- The state of a run. -/
structure State where
  env : Env
  conds : Conds

/-- How the file system, the include guards and the expansion cache answer an inclusion:
with the tokens of a file to process, or with nothing left to do. `closeInclude` is what
happens once those tokens are processed. Neither gives back what the token budget was
charged. -/
structure Files where
  openInclude : Text → Bool → ℕ → Env → Option (List Token) × Env
  closeInclude : ℕ → Except PreprocessError Unit → Env → Env
  openInclude_charge : ∀ path quoted line env,
    env.tokensProcessed ≤ (openInclude path quoted line env).2.tokensProcessed
  closeInclude_charge : ∀ line result env,
    env.tokensProcessed ≤ (closeInclude line result env).tokensProcessed

/-- Operations of the main loop. -/
inductive ControlOp
  | env (o : EnvOp)
  | ownFrame
  /-- The evaluation of a condition starts. -/
  | beginReads
  | openArm (cond : Bool) (line : ℕ)
  | elifArm (cond : Bool)
  | elseArm
  | endif
  /-- A file starts; the answer is the depth and the base to come back to. -/
  | enterFile (guard : Option Text)
  | setBase (base : ℕ)
  | linesAbove (depth : ℕ)
  | truncate (depth : ℕ)
  | openInclude (path : Text) (quoted : Bool) (line : ℕ)
  | closeInclude (line : ℕ) (result : Except PreprocessError Unit)

def ControlOp.Answer : ControlOp → Type
  | env o => o.Answer
  | ownFrame => Option CondFrame
  | enterFile _ => ℕ × ℕ
  | linesAbove _ => List ℕ
  | openInclude .. => Option (List Token)
  | _ => Unit

/-- Learn a guard of the current file; `#pragma once` is never downgraded. -/
def Env.recordGuard (name : Text) (env : Env) : Env :=
  if env.fileGuards env.currentFile = some .once then env
  else
    { env with
      fileGuards := Function.update env.fileGuards env.currentFile (some (.ifndef name)) }

def ControlOp.handle (cfg : Setting) (files : Files) : (o : ControlOp) → State → o.Answer × State
  | env o, s =>
    let r := o.handle cfg s.conds.isActive s.env
    (r.1, { s with env := r.2 })
  | ownFrame, s => (s.conds.ownFrame, s)
  | beginReads, s => ((), s)
  | openArm cond line, s => ((), { s with conds := s.conds.pushCond cond line })
  | elifArm cond, s => ((), { s with conds := s.conds.elifArm cond })
  | elseArm, s => ((), { s with conds := s.conds.elseArm })
  | endif, s => ((), { s with conds := s.conds.endif })
  | enterFile guard, s =>
    let depth := s.conds.stack.length
    ((depth, s.conds.base),
      { env := guard.elim s.env s.env.recordGuard, conds := { s.conds with base := depth } })
  | setBase base, s => ((), { s with conds := { s.conds with base } })
  | linesAbove depth, s => (s.conds.linesAbove depth, s)
  | truncate depth, s => ((), { s with conds := s.conds.truncate depth })
  | openInclude path quoted line, s =>
    let r := files.openInclude path quoted line s.env
    (r.1, { s with env := r.2 })
  | closeInclude line result, s => ((), { s with env := files.closeInclude line result s.env })

def controlInterface : Interface := ⟨ControlOp, ControlOp.Answer⟩

/-- A program of the main loop. -/
abbrev CtlM := Program controlInterface PreprocessError

/-- What the main loop's operations do. -/
abbrev Setting.control (cfg : Setting) (files : Files) : Program.Handler controlInterface State :=
  ControlOp.handle cfg files

/-- The text processor's programs are programs of the main loop. -/
def CtlM.lift {α : Type} (p : EnvM α) : CtlM α :=
  Program.embed (J := controlInterface) ControlOp.env (fun _ answer => answer) p

def CtlM.op (o : ControlOp) : CtlM o.Answer := Program.op (I := controlInterface) o

instance : MonadLift EnvM CtlM := ⟨CtlM.lift⟩

open EnvM in
/-- The identifier a directive needs, and what follows it. -/
def readDirectiveIdent (toks : List Token) : EnvM (Text × List Token) :=
  match skipNewlines toks with
  | t :: rest =>
    match identName t with
    | some name => pure (name, rest)
    | none => error t.line "expected identifier in directive".toList
  | [] => error 1 "expected identifier in directive".toList

/-- Past the parenthesis of a macro's parameter list, if the definition is function-like. -/
def parameterListOpen : List Token → Option (List Token)
  | t :: rest => if t.adjacentBefore && t.isPunct .lparen then some rest else none
  | [] => none

open EnvM in
def malformedParamList (toks : List Token) : EnvM Unit :=
  match toks with
  | t :: _ =>
    if endsLine t then
      warn t.line "unterminated macro parameter list; definition ignored".toList
    else warn t.line "expected , or ) in macro parameters; definition ignored".toList
  | [] => warn 1 "unterminated macro parameter list; definition ignored".toList

/-- Past the parenthesis after an ellipsis; what stands before it is dropped. -/
def finishParamListTail : List Token → EnvM (Option (List Token))
  | [] => do
    malformedParamList []
    pure none
  | t :: rest =>
    if t.isPunct .rparen then pure (some rest)
    else if endsLine t then do
      malformedParamList (t :: rest)
      pure none
    else finishParamListTail rest

def vaArgs : Text := "__VA_ARGS__".toList

/-- A macro's parameters, whether the last collects the rest, and what follows the list. -/
structure ParamList where
  params : List Text
  variadic : Bool
  rest : List Token

/-- Finish a list whose last parameter is variadic. -/
def variadicList (params : List Text) (toks : List Token) : EnvM (Option ParamList) := do
  match ← finishParamListTail toks with
  | some rest => pure (some ⟨params, true, rest⟩)
  | none => pure none

def malformedList (toks : List Token) : EnvM (Option ParamList) := do
  malformedParamList toks
  pure none

/-- The parameter list from after its parenthesis or a comma or, if `named`, from after a
parameter's name. -/
def parseMacroParamList (params : List Text) (named : Bool) : List Token → EnvM (Option ParamList)
  | [] => malformedList []
  | t :: rest =>
    if t.isPunct .ellipsis then variadicList (if named then params else params ++ [vaArgs]) rest
    else if t.isPunct .rparen then pure (some ⟨params, false, rest⟩)
    else if named then
      if t.isPunct .comma then parseMacroParamList params false rest
      else malformedList (t :: rest)
    else
      match identName t with
      | some name => parseMacroParamList (params ++ [name]) true rest
      | none => malformedList (t :: rest)

def isAccessSpecifier (name : Text) : Bool :=
  name == "public".toList || name == "protected".toList || name == "private".toList

def namesAccessSpecifier : List Token → Bool
  | [t] => (identName t).any isAccessSpecifier
  | _ => false

/-- A replacement list spelled in `file`. -/
def spelledIn (file : Text) (replacement : List Token) : List Token :=
  replacement.map fun t => { t with spellingFile := some file }

/-- A named variadic's body may spell the collector by its standard name. -/
def aliasVaArgs (params : List Text) (variadic : Bool) (replacement : List Token) : List Token :=
  match params.getLast? with
  | some last =>
    if variadic && last != vaArgs then
      replacement.map fun t => if t.isIdent vaArgs then { t with kind := .identifier last } else t
    else replacement
  | none => replacement

open EnvM in
/-- `#define`, from after the word; the position it stops at. -/
def handleDefine (cfg : Setting) (toks : List Token) : EnvM (List Token) := do
  let (name, rest) ← readDirectiveIdent toks
  match parameterListOpen rest with
  | some inside =>
    match ← parseMacroParamList [] false inside with
    -- A list breaks on its own line, so the line's end is the same from here.
    | none => pure (skipDirectiveLine rest)
    | some list =>
      let file ← currentFile
      let replacement := spelledIn file (directiveRest list.rest)
      insertMacro name
        (.function list.params (aliasVaArgs list.params list.variadic replacement) list.variadic)
      pure (skipDirectiveLine list.rest)
  | none =>
    let replacement := directiveRest rest
    -- `#define private public` is dropped: no fact depends on a member's specifier.
    if cfg.language == .cpp && isAccessSpecifier name && namesAccessSpecifier replacement then
      pure (skipDirectiveLine rest)
    else
      let file ← currentFile
      insertMacro name (.object (spelledIn file replacement))
      pure (skipDirectiveLine rest)

open EnvM in
/-- The header an `#include` names on this line: a header name as it stands, or one that the
line's expansion spells. -/
def includeOperand (cfg : Setting) (fuel line : ℕ) (toks : List Token) : EnvM (Text × Bool) :=
  match parseIncludeHeader toks with
  | some header => pure header
  | none => do
    match parseIncludeHeader (← expandOperandTokens cfg fuel (directiveRest toks)) with
    | some header => pure header
    | none => error line "expected string or <...> after #include".toList

/-- Include the header whose name starts here. -/
def includeFrom (cfg : Setting) (fuel : ℕ) (processFile : List Token → CtlM Unit) (line : ℕ)
    (toks : List Token) : CtlM (List Token) := do
  let header ← (includeOperand cfg fuel line toks : CtlM (Text × Bool))
  match ← (CtlM.op (.openInclude header.1 header.2 line) : CtlM (Option (List Token))) with
  | none => pure toks
  | some contents => do
    let result ← (processFile contents).attempt
    CtlM.op (.closeInclude line result)
    pure toks

/-- `#include` from after the word, in an active group; the position it stops at. -/
def handleInclude (cfg : Setting) (fuel : ℕ) (processFile : List Token → CtlM Unit)
    (toks : List Token) : CtlM (List Token) :=
  let toks := skipNewlines toks
  includeFrom cfg fuel processFile ((toks.head?.map Token.line).getD 1) toks

open EnvM in
def handleIfdef (negate : Bool) (line : ℕ) (rest : List Token) : CtlM (List Token) := do
  if ← (isActive : CtlM Bool) then
    let (name, after) ← (readDirectiveIdent rest : CtlM _)
    CtlM.op .beginReads
    let defined ← (isDefinedForConditionals name : CtlM Bool)
    CtlM.op (.openArm (defined != negate) line)
    pure after
  else
    CtlM.op (.openArm false line)
    pure rest

/-- The condition of an arm, false without a look at it unless `evaluate`. -/
def armCondition (evaluate : Bool) (toks : List Token) : CtlM Bool :=
  if evaluate then do
    CtlM.op .beginReads
    (expandAndEvalCondition toks : CtlM Bool)
  else pure false

open EnvM in
def handleIf (line : ℕ) (rest : List Token) : CtlM (List Token) := do
  let evaluate ← (isActive : CtlM Bool)
  let cond ← armCondition evaluate (directiveRest rest)
  CtlM.op (.openArm cond line)
  pure (skipDirectiveLine rest)

open EnvM in
def handleElif (line : ℕ) (rest : List Token) : CtlM (List Token) := do
  match ← CtlM.op .ownFrame with
  | none => (error line "#elif without #if".toList : EnvM _)
  | some (frame : CondFrame) =>
    let evaluate := frame.parentActive && !frame.taken && !frame.elseSeen
    let cond ← armCondition evaluate (directiveRest rest)
    if frame.elseSeen then (warn line "#elif after #else; branch ignored".toList : CtlM Unit)
    CtlM.op (.elifArm cond)
    pure (skipDirectiveLine rest)

open EnvM in
/-- `#else` and `#endif`: one change of the file's own innermost conditional. -/
def handleCloser (change : ControlOp) (message : Text) (line : ℕ) (rest : List Token) :
    CtlM (List Token) := do
  match ← CtlM.op .ownFrame with
  | none => (error line message : EnvM _)
  | some (_ : CondFrame) => do
    let _ ← CtlM.op change
    pure rest

open EnvM in
/-- `#error` and `#warning`. -/
def handleMessage (severity : DiagnosticSeverity) (name : Text) (line : ℕ) (rest : List Token) :
    EnvM Unit :=
  let spelled := spellCondition (directiveRest rest)
  report severity line (['#'] ++ name ++ (if spelled.isEmpty then [] else ' ' :: spelled))

open EnvM in
/-- What the directive `name`, read on `line`, does with the tokens after it; the position
it stops at. -/
def directiveEffect (cfg : Setting) (fuel : ℕ) (processFile : List Token → CtlM Unit) (name : Text)
    (line : ℕ) (rest : List Token) : CtlM (List Token) :=
  -- In a skipped group only the nesting of conditionals matters.
  let whenActive (p : CtlM (List Token)) : CtlM (List Token) := do
    if ← (isActive : CtlM Bool) then p else pure rest
  match directiveOf name with
  | .hashInclude => whenActive (handleInclude cfg fuel processFile rest)
  | .hashDefine => whenActive (handleDefine cfg rest)
  | .hashUndef => whenActive do
    let (name, after) ← (readDirectiveIdent rest : CtlM _)
    (removeMacro name : CtlM Unit)
    pure after
  | .hashIfdef => handleIfdef false line rest
  | .hashIfndef => handleIfdef true line rest
  | .hashIf => handleIf line rest
  | .hashElif => handleElif line rest
  | .hashElse => handleCloser .elseArm "#else without #if".toList line rest
  | .hashEndif => handleCloser .endif "#endif without #if".toList line rest
  | .hashLine => pure rest
  | .hashError => whenActive do
    (handleMessage .error name line rest : CtlM Unit)
    pure rest
  | .hashWarning => whenActive do
    (handleMessage .warning name line rest : CtlM Unit)
    pure rest
  | .hashPragma => whenActive do
    (handlePragma (directiveRest rest) : CtlM Unit)
    pure rest
  | .unknown => whenActive do
    (warn line ("unknown directive #".toList ++ name) : CtlM Unit)
    pure rest

open EnvM in
/-- The directive after a `#` at the start of a line; the position to go on from. -/
def handleDirective (cfg : Setting) (fuel : ℕ) (processFile : List Token → CtlM Unit)
    (toks : List Token) : CtlM (List Token) :=
  -- The name may stand on a later line.
  match skipNewlines toks with
  | [] => pure []
  | t :: rest =>
    match identName t with
    | some name => do
      let after ← directiveEffect cfg fuel processFile name t.line rest
      pure (skipToNewline after)
    | none => do
      if ← (isActive : CtlM Bool) then
        (error t.line "expected directive name after #".toList : EnvM (List Token))
      else pure (skipDirectiveLine (t :: rest))

/-- Leave the expansion whatever the program inside it came to. -/
def CtlM.popAfter {α : Type} (p : CtlM α) : CtlM α := do
  let result ← p.attempt
  (EnvM.popExpansion : CtlM Unit)
  Program.ofExcept result

open EnvM in
/-- Report the conditionals a file left open. -/
def reportUnterminated : List ℕ → EnvM Unit
  | [] => pure ()
  | line :: lines => do
    report .error line "unterminated #if; conditional closed at end of file".toList
    reportUnterminated lines

lemma silent_reportUnterminated {E} (lines : List ℕ) :
    EnvM.Silent E (reportUnterminated lines) := by
  induction lines with
  | nil => trivial
  | cons line lines ih => exact (silent_report _ line _).bind fun _ => ih

/-- Process one file's tokens, the conditional stack and its base put back whatever comes
of it. -/
def fileBracket (processTokens : List Token → CtlM Unit) (toks : List Token) : CtlM Unit := do
  let (depth, outerBase) ← (CtlM.op (.enterFile (detectIncludeGuard toks)) : CtlM (ℕ × ℕ))
  let result ← (processTokens toks).attempt
  CtlM.op (.setBase outerBase)
  match result with
  | .ok _ => do
    let lines ← (CtlM.op (.linesAbove depth) : CtlM (List ℕ))
    (reportUnterminated lines : CtlM Unit)
  | .error _ => pure ()
  CtlM.op (.truncate depth)
  Program.ofExcept result

open EnvM in
/-- Walk a token list. `lineStart` says that the next token is the first of its line. -/
def processTokens (cfg : Setting) : ℕ → Bool → List Token → CtlM Unit
  | 0, _, _ => .exhausted
  | _ + 1, _, [] => pure ()
  | fuel + 1, lineStart, t :: rest => do
    (checkResourceLimits cfg t.line : CtlM Unit)
    if t.isEof then pure ()
    else if t.isHash && lineStart then
      let after ← handleDirective cfg fuel (fileBracket (processTokens cfg fuel true)) rest
      processTokens cfg fuel true after
    else if ← (isActive : CtlM Bool) then
      match ← (textStep cfg fuel (expandTokensNoDirectives cfg fuel) t rest : CtlM TextStep) with
      | .next after => processTokens cfg fuel t.isNewline after
      | .rescan expanded after =>
        CtlM.popAfter (processTokens cfg fuel true expanded)
        processTokens cfg fuel false after
    else processTokens cfg fuel t.isNewline rest

/-- Process a file's tokens. Every step of a walk is charged to the token budget, so the
budget is fuel enough. -/
def processFileTokens (cfg : Setting) (toks : List Token) : CtlM Unit :=
  fileBracket (processTokens cfg (cfg.maxExpandedTokens + 2) true) toks

/-! ## A small setting

What the concrete runs below and in later modules share: a C file without includes, gMock
macros or `_Pragma`, in an environment that binds the given names to nothing. -/

def Setting.small : Setting where
  language := .c
  maxExpandedTokens := 60
  maxOutputBytes := 1000
  hash _ _ := 0
  gmock _ _ _ := []

def Files.none : Files where
  openInclude _ _ _ env := (Option.none, env)
  closeInclude _ _ env := env
  openInclude_charge _ _ _ _ := le_rfl
  closeInclude_charge _ _ _ := le_rfl

def State.binding (names : List Text) : State where
  env :=
    { table :=
        ⟨fun name => if names.contains name then some (.object []) else Option.none,
          fun _ => false, ∅⟩
      frames := [], macroOps := [], output := [], diagnostics := [], tokensProcessed := 0
      expansionDepth := 0, expansionLimitWarned := false, expansionIncomplete := false
      currentFile := [], fileGuards := fun _ => Option.none }
  conds := ⟨[], 0⟩

namespace Token

def ident (name : String) : Token := new (.identifier name.toList) 1 1

def mark (p : Punct) : Token := new (.punct p) 1 1

def hash : Token := new .hash 1 1

def newline : Token := new .newline 1 1

end Token
end Pathologist.Preproc

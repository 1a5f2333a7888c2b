import Pathologist.Lib.Program
import Pathologist.Preproc.Substitute

/-!
# The environment of a run

What preprocessing text reads and changes: the macro table and the record of what was read
from it, the output, the diagnostics and the counters behind the limits. The processor is
written as programs over the operations below; `EnvOp.handle` says what each one does.
-/
namespace Pathologist.Preproc
open Expansion (Language MacroEnv MacroFingerprint)
open Lib (Interface Program)

inductive DiagnosticSeverity
  | warning
  | error
  deriving DecidableEq

structure Diagnostic where
  severity : DiagnosticSeverity
  file : Text
  line : ℕ
  message : Text
  deriving DecidableEq

/-- One executed macro directive. -/
inductive MacroOp
  | define (name : Text) (definition : MacroDef)
  | undef (name : Text)
  deriving DecidableEq

/-- Why a file need not be expanded again. -/
inductive FileGuard
  | once
  | ifndef (name : Text)
  deriving DecidableEq

/-- The recording of one cached header that is being built. -/
structure CacheFrame where
  deps : MacroFingerprint Text Text
  /-- Names recorded in `deps` or bound by the header itself. -/
  settled : List Text
  locallyBound : List Text

/-- What stays fixed during a run. `hash` is `hash_macro_binding`, `gmock` recovers a gMock
declaration from its arguments. -/
structure Setting where
  language : Language
  maxExpandedTokens : ℕ
  maxOutputBytes : ℕ
  hash : MacroDef → Bool → ℕ
  gmock : Text → Token → MacroArgs → List Token

structure Env where
  table : MacroEnv Text Text MacroDef
  /-- The open recordings, innermost first. -/
  frames : List CacheFrame
  macroOps : List MacroOp
  output : Text
  diagnostics : List Diagnostic
  tokensProcessed : ℕ
  expansionDepth : ℕ
  expansionLimitWarned : Bool
  expansionIncomplete : Bool
  currentFile : Text
  fileGuards : Text → Option FileGuard

/-- Record in one frame that `name` was read while bound to a binding of this hash. -/
def CacheFrame.recordRead (name : Text) (hash : Option ℕ) (frame : CacheFrame) : CacheFrame :=
  if name ∈ frame.settled then frame
  else
    { frame with
      settled := name :: frame.settled
      deps := match hash with
        | some h => { frame.deps with defined := frame.deps.defined ++ [(name, h)] }
        | none => { frame.deps with undefined := name :: frame.deps.undefined } }

def CacheFrame.noteLocalBinding (name : Text) (frame : CacheFrame) : CacheFrame :=
  { frame with settled := name :: frame.settled, locallyBound := name :: frame.locallyBound }

namespace Env

/-- Every open frame has decided `name`; the innermost one knows the least. -/
def innermostSettled (env : Env) (name : Text) : Bool :=
  match env.frames with
  | [] => true
  | frame :: _ => decide (name ∈ frame.settled)

def bindingHash (cfg : Setting) (env : Env) (name : Text) : Option ℕ :=
  (env.table.binding name).map fun b => cfg.hash b.1 b.2

def recordRead (cfg : Setting) (name : Text) (env : Env) : Env :=
  if env.innermostSettled name then env
  else { env with frames := env.frames.map (CacheFrame.recordRead name (env.bindingHash cfg name)) }

def noteLocalBinding (name : Text) (env : Env) : Env :=
  { env with frames := env.frames.map (CacheFrame.noteLocalBinding name) }

def logMacroOp (change : MacroOp) (env : Env) : Env :=
  if env.frames.isEmpty then env else { env with macroOps := env.macroOps ++ [change] }

def insertMacro (name : Text) (definition : MacroDef) (env : Env) : Env :=
  let env := (env.logMacroOp (.define name definition)).noteLocalBinding name
  { env with table := env.table.insertMacro name definition }

def removeMacro (name : Text) (env : Env) : Env :=
  let env := (env.logMacroOp (.undef name)).noteLocalBinding name
  { env with table := env.table.removeMacro name }

end Env

/-- The text ends in a preprocessing number, which would take in a period. -/
def outputEndsInPpNumber (output : Text) : Bool :=
  match (output.reverse.takeWhile fun c => isAlphanumeric c || c == '_' || c == '.').reverse with
  | '.' :: c :: _ => isDigit c
  | c :: _ => isDigit c
  | [] => false

def needsLeadingSpace (output : Text) (kind : TokenKind) : Bool :=
  match output.getLast? with
  | none => false
  | some last =>
    if last == '\n' || last == ' ' then false
    else
      match kind with
      | .punct .semi | .punct .comma | .punct .rbrace | .punct .scope | .punct .dot => true
      | .punct .amp | .punct .star => last == '>'
      | .punct .ellipsis => outputEndsInPpNumber output
      | .punct _ => false
      | .newline => false
      | _ => !(last == '(' || last == '[' || last == '\x7b' || last == '.' || last == ';')

def tokenAsStr : TokenKind → Text
  | .identifier s | .number s | .string s | .char s => s
  | .punct p => p.text
  | .hash => ['#']
  | .newline => ['\n']
  | .eof => []

def Env.emitToken (t : Token) (env : Env) : Env :=
  if t.isEof then env
  else
    let space := if needsLeadingSpace env.output t.kind then [' '] else []
    { env with output := env.output ++ space ++ tokenAsStr t.kind }

def Env.emitStr (s : Text) (env : Env) : Env := { env with output := env.output ++ s }

def Env.report (severity : DiagnosticSeverity) (line : ℕ) (message : Text) (env : Env) : Env :=
  let diagnostic := { severity, file := env.currentFile, line, message }
  if diagnostic ∈ env.diagnostics then env
  else { env with diagnostics := env.diagnostics ++ [diagnostic] }

/-! ## Operations -/

def maxMacroExpansionDepth : ℕ := 256

/-- The answer to entering an expansion: whether the depth allows it, and if not whether
this is the first refusal of the run. -/
inductive Deepened
  | entered
  | refused (first : Bool)
  deriving DecidableEq

inductive EnvOp
  /-- `record_read` and then a look at the table: the definition and its fallback mark. -/
  | read (name : Text)
  /-- A look at the table that nothing records. -/
  | peek (name : Text)
  | insertMacro (name : Text) (definition : MacroDef)
  | removeMacro (name : Text)
  | emitToken (t : Token)
  | emitStr (s : Text)
  | report (severity : DiagnosticSeverity) (line : ℕ) (message : Text)
  /-- Charge tokens to the budget; the answer is whether it is exceeded. -/
  | spendTokens (n : ℕ)
  | outputOverrun
  | markIncomplete
  | enterExpansion
  | leaveExpansion
  | isActive
  | currentFile
  /-- `#pragma once` in the current file. -/
  | onceGuard

def EnvOp.Answer : EnvOp → Type
  | read _ => Option (MacroDef × Bool)
  | peek _ => Option MacroDef
  | spendTokens _ | outputOverrun | isActive => Bool
  | enterExpansion => Deepened
  | currentFile => Text
  | _ => Unit

/-- What an operation answers and does; `active` is whether the innermost conditional of
the run is. -/
def EnvOp.handle (cfg : Setting) (active : Bool) : (o : EnvOp) → Env → o.Answer × Env
  | read name, env => (env.table.binding name, env.recordRead cfg name)
  | peek name, env => (env.table.macros name, env)
  | insertMacro name definition, env => ((), env.insertMacro name definition)
  | removeMacro name, env => ((), env.removeMacro name)
  | emitToken t, env => ((), env.emitToken t)
  | emitStr s, env => ((), env.emitStr s)
  | report severity line message, env => ((), env.report severity line message)
  | spendTokens n, env =>
    let spent := env.tokensProcessed + n
    (decide (cfg.maxExpandedTokens < spent), { env with tokensProcessed := spent })
  | outputOverrun, env => (decide (cfg.maxOutputBytes < (env.output.map Char.utf8Size).sum), env)
  | markIncomplete, env => ((), { env with expansionIncomplete := true })
  | enterExpansion, env =>
    if maxMacroExpansionDepth ≤ env.expansionDepth then
      (.refused !env.expansionLimitWarned, { env with expansionLimitWarned := true })
    else (.entered, { env with expansionDepth := env.expansionDepth + 1 })
  | leaveExpansion, env => ((), { env with expansionDepth := env.expansionDepth - 1 })
  | isActive, env => (active, env)
  | currentFile, env => (env.currentFile, env)
  | onceGuard, env =>
    ((), { env with fileGuards := Function.update env.fileGuards env.currentFile (some .once) })

/-- The operations of the environment, as an interface of programs. -/
def envInterface : Interface := ⟨EnvOp, EnvOp.Answer⟩

/-- The message of an error that ends a file. -/
abbrev PreprocessError := Text

/-- A program of the text processor. -/
abbrev EnvM := Program envInterface PreprocessError

/-- What the text processor's operations do, in an active group or not. -/
abbrev Setting.text (cfg : Setting) (active : Bool) : Program.Handler envInterface Env :=
  EnvOp.handle cfg active

namespace EnvM

def readMacro (name : Text) : EnvM (Option (MacroDef × Bool)) :=
  Program.op (I := envInterface) (.read name)

def peekMacro (name : Text) : EnvM (Option MacroDef) :=
  Program.op (I := envInterface) (.peek name)

def insertMacro (name : Text) (definition : MacroDef) : EnvM Unit :=
  Program.op (I := envInterface) (.insertMacro name definition)

def removeMacro (name : Text) : EnvM Unit := Program.op (I := envInterface) (.removeMacro name)

def emitToken (t : Token) : EnvM Unit := Program.op (I := envInterface) (.emitToken t)

def emitStr (s : Text) : EnvM Unit := Program.op (I := envInterface) (.emitStr s)

def report (severity : DiagnosticSeverity) (line : ℕ) (message : Text) : EnvM Unit :=
  Program.op (I := envInterface) (.report severity line message)

def warn (line : ℕ) (message : Text) : EnvM Unit := report .warning line message

/-- Report an error and end the file with it. -/
def error {α : Type} (line : ℕ) (message : Text) : EnvM α := do
  report .error line message
  .fail message

def isActive : EnvM Bool := Program.op (I := envInterface) .isActive

def currentFile : EnvM Text := Program.op (I := envInterface) .currentFile

def onceGuard : EnvM Unit := Program.op (I := envInterface) .onceGuard

/-- Report that a limit cut the expansion short and end the file. -/
def limitError {α : Type} (line : ℕ) (message : Text) : EnvM α := do
  Program.op (I := envInterface) .markIncomplete
  error line message

def spendTokens (n : ℕ) : EnvM Bool := Program.op (I := envInterface) (.spendTokens n)

def outputOverrun : EnvM Bool := Program.op (I := envInterface) .outputOverrun

def chargeTokens (cfg : Setting) (n line : ℕ) : EnvM Unit := do
  if ← spendTokens n then
    limitError line ("preprocessed token budget exceeded (".toList ++
      (toString cfg.maxExpandedTokens).toList ++ ")".toList)

/-- One more token is walked. -/
def checkResourceLimits (cfg : Setting) (line : ℕ) : EnvM Unit := do
  chargeTokens cfg 1 line
  if ← outputOverrun then
    limitError line ("preprocessed output exceeded ".toList ++
      (toString cfg.maxOutputBytes).toList ++ " bytes".toList)

/-- Enter an expansion unless the depth forbids it; the first refusal is reported. -/
def pushExpansion (line : ℕ) : EnvM Bool := do
  match ← (Program.op (I := envInterface) .enterExpansion : EnvM Deepened) with
  | .entered => pure true
  | .refused first =>
    if first then
      warn line "macro expansion depth exceeded (256); skipping further expansion".toList
    pure false

def popExpansion : EnvM Unit := Program.op (I := envInterface) .leaveExpansion

/-- Leave the expansion whatever the program inside it came to. -/
def popAfter {α : Type} (p : EnvM α) : EnvM α := do
  let result ← p.attempt
  popExpansion
  Program.ofExcept result

end EnvM

/-- Operations that leave the macro table and the output alone. -/
def EnvOp.Silent : EnvOp → Prop
  | insertMacro _ _ | removeMacro _ | emitToken _ | emitStr _ => False
  | _ => True

lemma EnvOp.Silent.handle {cfg : Setting} {active : Bool} {o : EnvOp} (ho : o.Silent) (env : Env) :
    (o.handle cfg active env).2.table = env.table ∧
      (o.handle cfg active env).2.output = env.output := by
  cases o with
  | read name => simp only [EnvOp.handle, Env.recordRead]; split_ifs <;> exact ⟨rfl, rfl⟩
  | report severity line message =>
    simp only [EnvOp.handle, Env.report]; split_ifs <;> exact ⟨rfl, rfl⟩
  | enterExpansion => simp only [EnvOp.handle]; split_ifs <;> exact ⟨rfl, rfl⟩
  | insertMacro | removeMacro | emitToken | emitStr => exact ho.elim
  | _ => exact ⟨rfl, rfl⟩

/-- A program that writes nothing and fails only with a failure in `E`. -/
abbrev EnvM.Silent {α : Type} (E : PreprocessError → Prop) (p : EnvM α) : Prop :=
  Program.Only EnvOp.Silent E p

section Silent
variable {α : Type} {E : PreprocessError → Prop}

lemma silent_report (severity : DiagnosticSeverity) (line : ℕ) (message : Text) :
    EnvM.Silent E (EnvM.report severity line message) := ⟨trivial, fun _ => trivial⟩

lemma silent_warn (line : ℕ) (message : Text) : EnvM.Silent E (EnvM.warn line message) :=
  silent_report .warning line message

lemma silent_error (line : ℕ) {message : Text} (hE : E message) :
    EnvM.Silent E (EnvM.error line message : EnvM α) :=
  (silent_report .error line message).bind fun _ => hE

lemma silent_limitError (line : ℕ) {message : Text} (hE : E message) :
    EnvM.Silent E (EnvM.limitError line message : EnvM α) :=
  ⟨trivial, fun _ => silent_error line hE⟩

lemma silent_chargeTokens (cfg : Setting) (n line : ℕ) :
    EnvM.Silent (fun _ => True) (EnvM.chargeTokens cfg n line) := by
  refine ⟨trivial, fun (exceeded : Bool) => ?_⟩
  cases exceeded
  · exact trivial
  · exact silent_limitError line trivial

lemma silent_checkResourceLimits (cfg : Setting) (line : ℕ) :
    EnvM.Silent (fun _ => True) (EnvM.checkResourceLimits cfg line) := by
  refine (silent_chargeTokens cfg 1 line).bind fun _ => ⟨trivial, fun (overrun : Bool) => ?_⟩
  cases overrun
  · exact trivial
  · exact silent_limitError line trivial

end Silent
end Pathologist.Preproc

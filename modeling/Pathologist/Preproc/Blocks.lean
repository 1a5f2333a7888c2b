import Pathologist.Preproc.Directive

/-!
# The blocks of a token stream

What conditional directives mean, without a stack of frames: a chain is an `#if` with the arms
that follow it up to its `#endif`, and the walk over a file's tokens carries the chains that the
file has open. The current arm of a chain is selected if it is the first that holds. Text is
processed, and other directives are obeyed, where the includer is active and the current arm of
every open chain is selected; the condition of an arm is evaluated if the chain's surroundings are
active and no earlier arm holds. A file's chains end with it.
-/
namespace Pathologist.Preproc
open Lib (Interface Program)

inductive Arm
  /-- An arm with a condition: its value, if it was evaluated. -/
  | cond (value : Option Bool)
  /-- The `#else` arm. -/
  | otherwise
  deriving DecidableEq

def Arm.holds : Arm → Bool
  | cond value => value == some true
  | otherwise => true

def Arm.isElse : Arm → Bool
  | cond _ => false
  | otherwise => true

/-- A chain that is open: its current arm and those before it, latest first. -/
structure Chain where
  line : ℕ
  current : Arm
  earlier : List Arm

namespace Chain

/-- The current arm is selected: it is the first one that holds. -/
def selected (c : Chain) : Bool := c.current.holds && !c.earlier.any Arm.holds

def arms (c : Chain) : List Arm := c.current :: c.earlier

def addArm (arm : Arm) (c : Chain) : Chain := { c with current := arm, earlier := c.arms }

end Chain

/-- What a walk does: an operation of the text processor, with whether the text around it is
active, the start of a condition's evaluation, and the start of a file and its inclusion. -/
inductive BlockOp
  | env (active : Bool) (o : EnvOp)
  | beginReads
  | enterFile (guard : Option Text)
  | openInclude (path : Text) (quoted : Bool) (line : ℕ)
  | closeInclude (line : ℕ) (result : Except PreprocessError Unit)

namespace BlockOp

def Answer : BlockOp → Type
  | env _ o => o.Answer
  | openInclude .. => Option (List Token)
  | _ => Unit

def handle (cfg : Setting) (files : Files) : (o : BlockOp) → Env → o.Answer × Env
  | env active o, e => o.handle cfg active e
  | beginReads, e => ((), e)
  | enterFile guard, e => ((), guard.elim e e.recordGuard)
  | openInclude path quoted line, e => files.openInclude path quoted line e
  | closeInclude line result, e => ((), files.closeInclude line result e)

end BlockOp

def blockInterface : Interface := ⟨BlockOp, BlockOp.Answer⟩

abbrev BlockM := Program blockInterface PreprocessError

/-- A walk, with the chains of the current file that are open, innermost first. -/
abbrev Walk := StateT (List Chain) BlockM

namespace Walk
variable {α : Type}

def op (o : BlockOp) : Walk o.Answer := StateT.lift (Program.op (I := blockInterface) o)

/-- A program of the text processor in active text or not. -/
def embed (active : Bool) (p : EnvM α) : BlockM α :=
  Program.embed (J := blockInterface) (BlockOp.env active) (fun _ answer => answer) p

-- In what follows `outer` is whether the includer is active.
variable (outer : Bool)

def activeIn (chains : List Chain) : Bool := outer && chains.all Chain.selected

def isActive : Walk Bool := do return activeIn outer (← get)

def text (p : EnvM α) : Walk α := do StateT.lift (embed (← isActive outer) p)

/-- The condition of an arm, if it should be evaluated. -/
def armValue (evaluate : Bool) (toks : List Token) : Walk (Option Bool) :=
  if evaluate then do
    op .beginReads
    return some (← text outer (expandAndEvalCondition toks))
  else return none

def openIf (line : ℕ) (rest : List Token) : Walk (List Token) := do
  let value ← armValue outer (← isActive outer) (directiveRest rest)
  modify (⟨line, .cond value, []⟩ :: ·)
  return skipDirectiveLine rest

def openIfdef (negate : Bool) (line : ℕ) (rest : List Token) : Walk (List Token) := do
  if ← isActive outer then
    let (name, after) ← text outer (readDirectiveIdent rest)
    op .beginReads
    let defined ← text outer (isDefinedForConditionals name)
    modify (⟨line, .cond (some (defined != negate)), []⟩ :: ·)
    return after
  else
    modify (⟨line, .cond none, []⟩ :: ·)
    return rest

/-- An arm for the innermost chain of the file, or an error. -/
def elifArm (line : ℕ) (rest : List Token) : Walk (List Token) := do
  match ← get with
  | [] => text outer (EnvM.error line "#elif without #if".toList)
  | c :: around =>
    let evaluate := activeIn outer around && !c.arms.any Arm.holds
    let value ← armValue outer evaluate (directiveRest rest)
    if c.arms.any Arm.isElse then
      text outer (EnvM.warn line "#elif after #else; branch ignored".toList)
    set (c.addArm (.cond value) :: around)
    return skipDirectiveLine rest

def elseArm (line : ℕ) (rest : List Token) : Walk (List Token) := do
  match ← get with
  | [] => text outer (EnvM.error line "#else without #if".toList)
  | c :: around =>
    set (c.addArm .otherwise :: around)
    return rest

def closeChain (line : ℕ) (rest : List Token) : Walk (List Token) := do
  match ← get with
  | [] => text outer (EnvM.error line "#endif without #if".toList)
  | _ :: around =>
    set around
    return rest

def includeFile (cfg : Setting) (fuel : ℕ) (file : List Token → BlockM Unit) (rest : List Token) :
    Walk (List Token) := do
  let rest := skipNewlines rest
  let line := (rest.head?.map Token.line).getD 1
  let header ← text outer (includeOperand cfg fuel line rest)
  match ← (op (.openInclude header.1 header.2 line) : Walk (Option (List Token))) with
  | none => return rest
  | some contents =>
    let result ← (StateT.lift (file contents).attempt : Walk (Except PreprocessError Unit))
    op (.closeInclude line result)
    return rest

/-- What the directive `name` does in the block it stands in. -/
def directive (cfg : Setting) (fuel : ℕ) (file : List Token → BlockM Unit) (name : Text) (line : ℕ)
    (rest : List Token) : Walk (List Token) :=
  let whenActive (m : Walk (List Token)) : Walk (List Token) := do
    if ← isActive outer then m else return rest
  match directiveOf name with
  | .hashIf => openIf outer line rest
  | .hashIfdef => openIfdef outer false line rest
  | .hashIfndef => openIfdef outer true line rest
  | .hashElif => elifArm outer line rest
  | .hashElse => elseArm outer line rest
  | .hashEndif => closeChain outer line rest
  | .hashLine => return rest
  | .hashInclude => whenActive (includeFile outer cfg fuel file rest)
  | .hashDefine => whenActive (text outer (handleDefine cfg rest))
  | .hashUndef => whenActive do
    let (name, after) ← text outer (readDirectiveIdent rest)
    text outer (EnvM.removeMacro name)
    return after
  | .hashError => whenActive do
    text outer (handleMessage .error name line rest)
    return rest
  | .hashWarning => whenActive do
    text outer (handleMessage .warning name line rest)
    return rest
  | .hashPragma => whenActive do
    text outer (handlePragma (directiveRest rest))
    return rest
  | .unknown => whenActive do
    text outer (EnvM.warn line ("unknown directive #".toList ++ name))
    return rest

/-- The directive after a `#` at the start of a line; the position to go on from. -/
def directiveLine (cfg : Setting) (fuel : ℕ) (file : List Token → BlockM Unit) (toks : List Token) :
    Walk (List Token) :=
  match skipNewlines toks with
  | [] => return []
  | t :: rest =>
    match identName t with
    | some name => do return skipToNewline (← directive outer cfg fuel file name t.line rest)
    | none => do
      if ← isActive outer then
        text outer (EnvM.error t.line "expected directive name after #".toList)
      else return skipDirectiveLine (t :: rest)

/-- A file's tokens. Its chains start and end with it; those left open are reported. -/
def file (walk : List Token → Walk Unit) (toks : List Token) : BlockM Unit := do
  Program.op (I := blockInterface) (.enterFile (detectIncludeGuard toks))
  let ((), chains) ← (walk toks).run []
  embed (activeIn outer chains) (reportUnterminated (chains.map Chain.line).reverse)

/-- Leave the expansion whatever the walk inside it came to. -/
def popAfter (m : Walk α) : Walk α := fun chains => do
  let result ← (m.run chains).attempt
  Program.op (I := blockInterface) (.env true .leaveExpansion)
  Program.ofExcept result

/-- Walk a token list. `lineStart` says that the next token is the first of its line. An included
file is included where the text is active. -/
def tokens (cfg : Setting) : ℕ → Bool → Bool → List Token → Walk Unit
  | 0, _, _, _ => StateT.lift .exhausted
  | _ + 1, _, _, [] => return ()
  | fuel + 1, outer, lineStart, t :: rest => do
    text outer (EnvM.checkResourceLimits cfg t.line)
    if t.isEof then return ()
    else if t.isHash && lineStart then
      let after ← directiveLine outer cfg fuel (file true (tokens cfg fuel true true)) rest
      tokens cfg fuel outer true after
    else if ← isActive outer then
      match ← text outer (textStep cfg fuel (expandTokensNoDirectives cfg fuel) t rest) with
      | .next after => tokens cfg fuel outer t.isNewline after
      | .rescan expanded after =>
        popAfter (tokens cfg fuel outer true expanded)
        tokens cfg fuel outer false after
    else tokens cfg fuel outer t.isNewline rest

/-- The tokens of a file that is included where the text is active or not. -/
def processFile (cfg : Setting) (toks : List Token) : BlockM Unit :=
  file outer (tokens cfg (cfg.maxExpandedTokens + 2) outer true) toks

end Walk

/-! ## What a walk does -/

/-- The operations that a log keeps: all but a look at the conditionals and the count of nested
expansions. -/
def EnvOp.logged : EnvOp → Bool
  | isActive | leaveExpansion => false
  | _ => true

def BlockOp.logged : BlockOp → Bool
  | env _ o => o.logged
  | _ => true

/-- The operations of a walk, with a log of them. -/
def Walk.handler (cfg : Setting) (files : Files) :
    Program.Handler blockInterface (Env × List BlockOp) :=
  Program.watch (I := blockInterface) (BlockOp.handle cfg files)
    fun (o : BlockOp) _ log => if o.logged then log ++ [o] else log

/-- Only active text is written, and only in active text are macros defined or undefined. -/
def BlockOp.Allowed : BlockOp → Prop
  | env active o => active = true ∨ o.Silent
  | _ => True

namespace Walk
variable {α β : Type} {outer : Bool} {chains : List Chain} {m : Walk α}

/-- The walk keeps to what is allowed, whatever chains are open. -/
def Careful (m : Walk α) : Prop := ∀ chains, (m.run chains).Within BlockOp.Allowed

lemma Careful.bind {f : α → Walk β} (hm : Careful m) (hf : ∀ a, Careful (f a)) :
    Careful (m >>= f) := fun chains => (hm chains).bind fun r => hf r.1 r.2

lemma careful_pure (a : α) : Careful (pure a) := fun _ => trivial

lemma careful_set (chains : List Chain) : Careful (set chains) := fun _ => trivial

lemma careful_modify (f : List Chain → List Chain) : Careful (modify f) := fun _ => trivial

lemma careful_op {o : BlockOp} (ho : o.Allowed) : Careful (op o) := fun _ => ⟨ho, fun _ => trivial⟩

lemma careful_get {f : List Chain → Walk α} (hf : ∀ chains, Careful (f chains)) :
    Careful (get >>= f) := fun chains => hf chains chains

lemma careful_text {p : EnvM α} {E} (hp : EnvM.Silent E p) : Careful (text outer p) :=
  fun _ => (hp.within.embed fun _ ho => .inr ho).bind fun _ => trivial

/-- In active text everything is allowed. -/
lemma within_embed {active : Bool} (h : active = true) (p : EnvM α) :
    (embed active p).Within BlockOp.Allowed := by
  have hall : p.Within fun _ => True := by
    induction p with
    | done a | fail e | exhausted => trivial
    | perform o next ih => exact ⟨trivial, ih⟩
  exact hall.embed fun _ _ => .inl h

lemma within_text (h : activeIn outer chains = true) (p : EnvM α) :
    ((text outer p).run chains).Within BlockOp.Allowed :=
  (within_embed h p).bind fun _ => trivial

lemma careful_whenActive {rest : List Token} {m : Walk (List Token)}
    (hm : ∀ chains, activeIn outer chains = true → (m.run chains).Within BlockOp.Allowed) :
    Careful (do if ← isActive outer then m else return rest) := by
  intro chains
  change ((if activeIn outer chains = true then m else pure rest).run chains).Within _
  split_ifs with h
  · exact hm chains h
  · trivial

lemma careful_armValue (evaluate : Bool) (toks : List Token) :
    Careful (armValue outer evaluate toks) := by
  cases evaluate with
  | false => exact careful_pure none
  | true => exact (careful_op (o := .beginReads) trivial).bind fun _ =>
      (careful_text (E := fun _ => False) (silent_expandAndEvalCondition toks)).bind fun _ =>
        careful_pure _

lemma careful_error (line : ℕ) (message : Text) :
    Careful (text outer (EnvM.error line message : EnvM α)) :=
  careful_text (E := fun _ => True) (silent_error line trivial)

lemma run_lift_bind (p : BlockM α) (f : α → Walk β) :
    (StateT.lift p >>= f).run chains = p >>= fun a => (f a).run chains := by
  change ((p >>= fun a => pure (a, chains)) >>= fun r => (f r.1).run r.2) = _
  rw [bind_assoc]
  rfl

/-- A program of the text processor leaves the chains alone. -/
lemma run_text_bind (p : EnvM α) (f : α → Walk β) : (text outer p >>= f).run chains =
    embed (activeIn outer chains) p >>= fun a => (f a).run chains :=
  run_lift_bind (embed (activeIn outer chains) p) f

lemma within_text_bind (h : activeIn outer chains = true) (p : EnvM α) {f : α → Walk β}
    (hf : ∀ a, ((f a).run chains).Within BlockOp.Allowed) :
    ((text outer p >>= f).run chains).Within BlockOp.Allowed := by
  rw [run_text_bind]
  exact (within_embed h p).bind hf

lemma careful_openIfdef (negate : Bool) (line : ℕ) (rest : List Token) :
    Careful (openIfdef outer negate line rest) := by
  intro chains
  change ((if activeIn outer chains = true then _ else _ : Walk (List Token)).run chains).Within _
  split_ifs with h
  · refine within_text_bind h _ fun r => ?_
    refine Careful.bind (careful_op (o := .beginReads) trivial) (fun _ => ?_) chains
    exact (careful_text (E := fun _ => False) (silent_isDefinedForConditionals _)).bind fun _ =>
      (careful_modify _).bind fun _ => careful_pure _
  · trivial

lemma careful_elifArm (line : ℕ) (rest : List Token) : Careful (elifArm outer line rest) := by
  refine careful_get fun chains => ?_
  cases chains with
  | nil => exact careful_error line _
  | cons c around =>
    refine (careful_armValue _ _).bind fun value => ?_
    have hset : Careful (do set (c.addArm (.cond value) :: around)
                            return skipDirectiveLine rest : Walk (List Token)) :=
      (careful_set _).bind fun _ => careful_pure _
    dsimp only
    split_ifs
    · exact (careful_text (E := fun _ => False) (silent_warn line _)).bind fun _ => hset
    · exact hset

lemma careful_elseArm (line : ℕ) (rest : List Token) : Careful (elseArm outer line rest) := by
  refine careful_get fun chains => ?_
  cases chains with
  | nil => exact careful_error line _
  | cons c around => exact (careful_set _).bind fun _ => careful_pure _

lemma careful_closeChain (line : ℕ) (rest : List Token) :
    Careful (closeChain outer line rest) := by
  refine careful_get fun chains => ?_
  cases chains with
  | nil => exact careful_error line _
  | cons c around => exact (careful_set _).bind fun _ => careful_pure _

section
variable {cfg : Setting} {fuel : ℕ} {file : List Token → BlockM Unit}
variable (hfile : ∀ toks, (file toks).Within BlockOp.Allowed)
include hfile

lemma within_includeFile (h : activeIn outer chains = true) (rest : List Token) :
    ((includeFile outer cfg fuel file rest).run chains).Within BlockOp.Allowed := by
  refine within_text_bind h _ fun header => ?_
  refine Careful.bind (careful_op (o := .openInclude _ _ _) trivial) (fun answer => ?_) chains
  cases answer with
  | none => exact careful_pure _
  | some contents =>
    refine Careful.bind (fun chains => (hfile contents).attempt.bind fun _ => trivial) fun _ => ?_
    exact (careful_op (o := .closeInclude _ _) trivial).bind fun _ => careful_pure _

lemma careful_directive (name : Text) (line : ℕ) (rest : List Token) :
    Careful (directive outer cfg fuel file name line rest) := by
  have hthen : ∀ p : EnvM Unit, Careful (do
      if ← isActive outer then (do text outer p; return rest) else return rest) :=
    fun p => careful_whenActive fun chains h => within_text_bind h p fun _ => trivial
  unfold directive
  cases directiveOf name with
  | hashIf =>
    exact (careful_get fun _ => careful_pure _).bind fun _ => (careful_armValue _ _).bind fun _ =>
      (careful_modify _).bind fun _ => careful_pure _
  | hashIfdef => exact careful_openIfdef false line rest
  | hashIfndef => exact careful_openIfdef true line rest
  | hashElif => exact careful_elifArm line rest
  | hashElse => exact careful_elseArm line rest
  | hashEndif => exact careful_closeChain line rest
  | hashLine => exact careful_pure rest
  | hashInclude => exact careful_whenActive fun _ h => within_includeFile hfile h rest
  | hashDefine => exact careful_whenActive fun _ h => within_text h _
  | hashUndef =>
    exact careful_whenActive fun _ h => within_text_bind h _ fun r =>
      within_text_bind h _ fun _ => trivial
  | hashError | hashWarning | hashPragma | unknown => exact hthen _

lemma careful_directiveLine (toks : List Token) :
    Careful (directiveLine outer cfg fuel file toks) := by
  unfold directiveLine
  split
  · exact careful_pure _
  split
  · exact (careful_directive hfile _ _ _).bind fun _ => careful_pure _
  · exact careful_whenActive fun chains _ => careful_error _ _ chains

end

lemma within_file {walk : List Token → Walk Unit} (toks : List Token)
    (hwalk : Careful (walk toks)) : (file outer walk toks).Within BlockOp.Allowed := by
  refine ⟨trivial, fun _ => (hwalk []).bind fun r => ?_⟩
  exact (silent_reportUnterminated (E := fun _ => False) _).within.embed fun _ ho => .inr ho

lemma Careful.popAfter (hm : Careful m) : Careful (popAfter m) := fun chains =>
  (hm chains).attempt.bind fun r => ⟨.inl rfl, fun _ => Program.within_ofExcept r⟩

/-- Over a token list, by induction on the fuel: included files and rescans get by with less. -/
lemma careful_tokens (cfg : Setting) (fuel : ℕ) (outer lineStart : Bool) (toks : List Token) :
    Careful (tokens cfg fuel outer lineStart toks) := by
  induction fuel generalizing outer lineStart toks with
  | zero => exact fun _ => trivial
  | succ fuel ih =>
    cases toks with
    | nil => exact careful_pure _
    | cons t rest =>
      refine (careful_text (silent_checkResourceLimits cfg t.line)).bind fun _ => ?_
      split_ifs
      · exact careful_pure _
      · refine (careful_directiveLine (fun contents => ?_) rest).bind fun after => ih _ _ _
        exact within_file contents (ih _ _ _)
      · intro chains
        change ((if activeIn outer chains = true then _ else _ : Walk Unit).run chains).Within _
        split_ifs with h
        · refine within_text_bind h _ fun step => ?_
          cases step with
          | next after => exact ih _ _ after chains
          | rescan expanded after => exact ((ih _ _ _).popAfter.bind fun _ => ih _ _ _) chains
        · exact ih _ _ rest chains

/-- The log of a walk has nothing written and nothing defined in text that is not active. -/
lemma allowed_of_mem_log (cfg : Setting) (files : Files) (toks : List Token) (env : Env)
    {o : BlockOp} (ho : o ∈ (Program.run (handler cfg files) (processFile outer cfg toks)
      (env, [])).2.2) : o.Allowed := by
  have hwithin : (processFile outer cfg toks).Within BlockOp.Allowed :=
    within_file toks (careful_tokens _ _ _ _ _)
  refine hwithin.record (P := fun log => ∀ o ∈ log, BlockOp.Allowed o) (fun o _ log ho hlog => ?_)
    (by simp) o ho
  split_ifs
  · exact List.forall_mem_append.mpr ⟨hlog, fun x hx => by rw [List.mem_singleton.mp hx]; exact ho⟩
  · exact hlog

end Walk
end Pathologist.Preproc

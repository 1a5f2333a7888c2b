import Pathologist.Preproc.Budget

/-!
# Directives and the lines below them

What a directive does should depend on its own line only, and the lines below should be left
to be processed. Here it is said exactly which directives keep to their line: the readers
skip newlines before a name or an operand, and a missing one ends the file.
-/
namespace Pathologist.Preproc
open Lib Lib.Program EnvM List CtlM

variable {cfg : Setting} {files : Files} {fuel : ℕ} {processFile : List Token → CtlM Unit}
variable {nl t : Token} {line rest tail : List Token} {s : State}

section Lines

section
variable (hnl : nl.isNewline = true)
include hnl

variable (line tail : List Token)

lemma skipDirectiveLine_append :
    skipDirectiveLine (line ++ nl :: tail) = skipDirectiveLine line ++ nl :: tail := by
  induction line with
  | nil => simp [skipDirectiveLine, endsLine_of_isNewline hnl]
  | cons t rest ih =>
    cases hend : endsLine t with
    | true => simp [skipDirectiveLine, hend]
    | false => simpa [skipDirectiveLine, hend] using ih

lemma directiveRest_append : directiveRest (line ++ nl :: tail) = directiveRest line := by
  induction line with
  | nil => simp [directiveRest, endsLine_of_isNewline hnl]
  | cons t rest ih =>
    cases hend : endsLine t with
    | true => simp [directiveRest, hend]
    | false => simpa [directiveRest, hend] using ih

lemma skipToNewline_append :
    skipToNewline (line ++ nl :: tail) = skipToNewline (line ++ [nl]) ++ tail := by
  rw [skipToNewline, skipToNewline, skipDirectiveLine_append hnl, skipDirectiveLine_append hnl]
  cases hs : skipDirectiveLine line with
  | nil => simp [hnl]
  | cons t rest => cases ht : t.isNewline <;> simp [ht]

end

lemma skipNewlines_cons (ht : t.isNewline = false) (rest : List Token) :
    skipNewlines (t :: rest) = t :: rest := by
  simp [skipNewlines, ht]

variable (hnl : nl.isNewline = true)
include hnl

lemma angledHeader_append (line tail : List Token) :
    angledHeader (line ++ nl :: tail) = angledHeader line := by
  have hkind : nl.kind = .newline := by simpa [Token.isNewline] using hnl
  induction line with
  | nil => simp [angledHeader, hkind]
  | cons t rest ih => simp [angledHeader, ih]

lemma parseIncludeHeader_append (ht : t.isNewline = false) (rest tail : List Token) :
    parseIncludeHeader (t :: rest ++ nl :: tail) = parseIncludeHeader (t :: rest) := by
  simp [parseIncludeHeader, skipNewlines_cons ht, angledHeader_append hnl]

lemma parameterListOpen_append (line tail : List Token) :
    parameterListOpen (line ++ nl :: tail) = (parameterListOpen line).map (· ++ nl :: tail) := by
  have hkind : nl.kind = .newline := by simpa [Token.isNewline] using hnl
  cases line with
  | nil => simp [parameterListOpen, Token.isPunct, hkind]
  | cons t rest =>
    simp only [cons_append, parameterListOpen]
    split_ifs <;> rfl

end Lines

/-- What the program does is the same whatever stands below the newline `nl`, and its result
differs only by that. `below` puts the lines below back into a result. -/
def Confines {α : Type} (nl : Token) (below : List Token → α → α) (p : List Token → EnvM α) :
    Prop :=
  ∃ e : EnvM α, ∀ tail, p tail = below (nl :: tail) <$> e

/-- A position on the line, with the lines below. -/
def withBelow (below pos : List Token) : List Token := pos ++ below

section Confines
variable {α β : Type} {below : List Token → α → α} {belowRest : List Token → β → β}

lemma confines_pure (below : List Token → α → α) (x : α) :
    Confines nl below fun tail => pure (below (nl :: tail) x) :=
  ⟨pure x, fun _ => rfl⟩

lemma Confines.bind {p : List Token → EnvM β} {f : β → List Token → EnvM α}
    (hp : Confines nl belowRest p)
    (hf : ∀ x, Confines nl below fun tail => f (belowRest (nl :: tail) x) tail) :
    Confines nl below fun tail => p tail >>= fun x => f x tail := by
  obtain ⟨e, he⟩ := hp
  choose e' he' using hf
  refine ⟨e >>= e', fun tail => ?_⟩
  simp [he, he']

/-- After a program that has nothing to do with the tokens. -/
lemma confines_after (a : EnvM β) {f : β → List Token → EnvM α}
    (hf : ∀ x, Confines nl below (f x)) :
    Confines nl below fun tail => a >>= fun x => f x tail := by
  have ha : Confines nl (fun _ x => x) fun _ => a := ⟨a, fun _ => (id_map a).symm⟩
  exact ha.bind hf

end Confines

section Parameters

/-- A parameter list read on the line, with the lines below. -/
def ParamList.withBelow (below : List Token) : Option ParamList → Option ParamList :=
  Option.map fun list => { list with rest := list.rest ++ below }

lemma malformedParamList_append (line tail : List Token) :
    malformedParamList (line ++ nl :: tail) = malformedParamList (line ++ [nl]) := by
  cases line <;> rfl

lemma confines_malformedList (line : List Token) :
    Confines nl ParamList.withBelow fun tail => malformedList (line ++ nl :: tail) := by
  refine ⟨malformedList (line ++ [nl]), fun tail => ?_⟩
  simp [malformedList, malformedParamList_append line tail, ParamList.withBelow]

variable (hnl : nl.isNewline = true)
include hnl

lemma isPunct_of_isNewline (p : Punct) : nl.isPunct p = false := by
  have hkind : nl.kind = .newline := by simpa [Token.isNewline] using hnl
  simp [Token.isPunct, hkind]

lemma identName_of_isNewline : identName nl = none := by
  have hkind : nl.kind = .newline := by simpa [Token.isNewline] using hnl
  simp [identName, hkind]

lemma confines_finishParamListTail (line : List Token) :
    Confines nl (fun below => Option.map (withBelow below)) fun tail =>
      finishParamListTail (line ++ nl :: tail) := by
  have hstop : ∀ line : List Token, Confines nl (fun below => Option.map (withBelow below))
      fun tail => (do malformedParamList (line ++ nl :: tail); pure none :
        EnvM (Option (List Token))) := by
    intro line
    simp only [malformedParamList_append line]
    exact confines_after _ fun _ => confines_pure _ none
  induction line with
  | nil =>
    simp only [nil_append, finishParamListTail, isPunct_of_isNewline hnl,
      endsLine_of_isNewline hnl, Bool.false_eq_true, if_false, if_true]
    exact hstop []
  | cons t rest ih =>
    simp only [cons_append, finishParamListTail]
    split_ifs
    · exact confines_pure _ (some rest)
    · exact hstop (t :: rest)
    · exact ih

lemma confines_variadicList (params : List Text) (line : List Token) :
    Confines nl ParamList.withBelow fun tail => variadicList params (line ++ nl :: tail) := by
  refine (confines_finishParamListTail hnl line).bind fun pos => ?_
  cases pos with
  | none => exact confines_pure ParamList.withBelow none
  | some rest => exact confines_pure ParamList.withBelow (some ⟨params, true, rest⟩)

lemma confines_parseMacroParamList (params : List Text) (named : Bool) (line : List Token) :
    Confines nl ParamList.withBelow fun tail =>
      parseMacroParamList params named (line ++ nl :: tail) := by
  induction line generalizing params named with
  | nil =>
    cases named <;>
    · simp only [nil_append, parseMacroParamList, isPunct_of_isNewline hnl,
        identName_of_isNewline hnl, Bool.false_eq_true, if_false, if_true]
      exact confines_malformedList []
  | cons t rest ih =>
    simp only [cons_append, parseMacroParamList]
    split_ifs
    · exact confines_variadicList hnl _ rest
    · exact confines_variadicList hnl _ rest
    · exact confines_pure ParamList.withBelow (some ⟨params, false, rest⟩)
    · exact ih params false
    · exact confines_malformedList (t :: rest)
    · split
      · exact ih _ true
      · exact confines_malformedList (t :: rest)

lemma confines_handleDefine {name : Text} (hn : identName t = some name) (rest : List Token) :
    Confines nl withBelow fun tail => handleDefine cfg (t :: rest ++ nl :: tail) := by
  have hread :
      ∀ tail, readDirectiveIdent (t :: rest ++ nl :: tail) = pure (name, rest ++ nl :: tail) := by
    intro tail
    simp [readDirectiveIdent, skipNewlines_of_identName hn, hn]
  simp only [handleDefine, hread, pure_bind, parameterListOpen_append hnl,
    directiveRest_append hnl, skipDirectiveLine_append hnl]
  cases parameterListOpen rest with
  | none =>
    simp only [Option.map_none]
    split
    · exact confines_pure withBelow (skipDirectiveLine rest)
    · exact confines_after _ fun _ => confines_after _ fun _ =>
        confines_pure withBelow (skipDirectiveLine rest)
  | some inside =>
    refine (confines_parseMacroParamList hnl [] false inside).bind fun list => ?_
    cases list with
    | none => exact confines_pure withBelow (skipDirectiveLine rest)
    | some list =>
      simp only [ParamList.withBelow, Option.map_some, directiveRest_append hnl,
        skipDirectiveLine_append hnl]
      exact confines_after _ fun _ => confines_after _ fun _ =>
        confines_pure withBelow (skipDirectiveLine list.rest)

end Parameters

/-- Run from `s`, the program does the same whatever stands below the newline `nl`, and stops
on the line. -/
def KeepsTail (cfg : Setting) (files : Files) (nl : Token) (s : State)
    (p : List Token → CtlM (List Token)) : Prop :=
  ∃ (r : Ending PreprocessError (List Token)) (s' : State), ∀ tail,
    run (I := controlInterface) (ControlOp.handle cfg files) (p tail) s =
      (r.map (withBelow (nl :: tail)), s')

section KeepsTail
variable {α : Type}

lemma keepsTail_pure (pos : List Token) :
    KeepsTail cfg files nl s fun tail => pure (pos ++ nl :: tail) :=
  ⟨.ok pos, s, fun _ => rfl⟩

lemma keepsTail_after {a : CtlM α} {f : α → List Token → CtlM (List Token)}
    (hf : ∀ x s', run (cfg.control files) a s = (.ok x, s') → KeepsTail cfg files nl s' (f x)) :
    KeepsTail cfg files nl s fun tail => a >>= fun x => f x tail := by
  rcases hrun : run (cfg.control files) a s with ⟨ending, s'⟩
  cases ending with
  | ok x =>
    obtain ⟨r, s'', hr⟩ := hf x s' hrun
    exact ⟨r, s'', fun tail => (run_bind_ok _ hrun _).trans (hr tail)⟩
  | error e => exact ⟨.error e, s', fun tail => run_bind_error _ hrun _⟩
  | exhausted => exact ⟨.exhausted, s', fun tail => run_bind_exhausted _ hrun _⟩

lemma keepsTail_lift {p} (hp : Confines nl withBelow p) :
    KeepsTail cfg files nl s fun tail => lift (p tail) := by
  obtain ⟨e, he⟩ := hp
  refine ⟨(run (cfg.text s.conds.isActive) e s.env).1,
    { s with env := (run (cfg.text s.conds.isActive) e s.env).2 },
    fun tail => ?_⟩
  change run (cfg.control files) (lift (p tail)) s = _
  rw [he, run_lift, run_map (cfg.text s.conds.isActive)]

lemma keepsTail_error (line : ℕ) (message : Text) :
    KeepsTail cfg files nl s fun _ => lift (EnvM.error line message) :=
  ⟨.error message, { s with env := s.env.report .error line message }, fun _ => rfl⟩

lemma run_isActive {f : Bool → CtlM α} : run (cfg.control files) (lift isActive >>= f) s =
      run (cfg.control files) (f s.conds.isActive) s := rfl

lemma keepsTail_isActive {f : Bool → List Token → CtlM (List Token)}
    (hf : KeepsTail cfg files nl s (f s.conds.isActive)) :
    KeepsTail cfg files nl s fun tail => lift isActive >>= fun active => f active tail := hf

end KeepsTail

/-- The line spells a header name, as it stands or once its macros are expanded. -/
def SpellsHeader (cfg : Setting) (fuel : ℕ) (s : State) (operand : List Token) : Prop :=
  (parseIncludeHeader operand).isSome = true ∨
  ∃ expanded env', run (I := envInterface) (EnvOp.handle cfg s.conds.isActive)
      (expandOperandTokens cfg fuel (directiveRest operand)) s.env = (.ok expanded, env') ∧
    (parseIncludeHeader expanded).isSome = true

/-- What the directive `name` needs stands on its line. -/
def OperandOnLine (cfg : Setting) (fuel : ℕ) (s : State) (name : Text) (operand : List Token) :
    Prop :=
  match directiveOf name with
  | .hashInclude => SpellsHeader cfg fuel s operand
  | .hashDefine | .hashUndef | .hashIfdef | .hashIfndef =>
    (operand.head?.bind identName).isSome = true
  | _ => True

/-- A null directive, one without a name or without its operand, or an incomplete
`#include`. -/
def Malformed (cfg : Setting) (fuel : ℕ) (s : State) : List Token → Prop
  | [] => True
  | t :: operand => ∀ name, identName t = some name → ¬ OperandOnLine cfg fuel s name operand

section Directives

lemma not_spellsHeader_nil : ¬ SpellsHeader cfg fuel s [] := by
  rintro (h | ⟨expanded, env', hrun, hh⟩)
  · cases h
  cases fuel with
  | zero => cases hrun
  | succ fuel =>
    obtain ⟨he, -⟩ := Prod.mk.inj hrun
    cases he
    cases hh

lemma keepsTail_readDirectiveIdent {f : Text → List Token → CtlM (List Token)}
    (hn : (rest.head?.bind identName).isSome = true)
    (hf : ∀ name after, KeepsTail cfg files nl s fun tail => f name (after ++ nl :: tail)) :
    KeepsTail cfg files nl s fun tail =>
      lift (readDirectiveIdent (rest ++ nl :: tail)) >>= fun r => f r.1 r.2 := by
  cases rest with
  | nil => cases hn
  | cons t after =>
    obtain ⟨name, hn⟩ := Option.isSome_iff_exists.mp hn
    have hread : ∀ tail, readDirectiveIdent (t :: after ++ nl :: tail) =
        pure (name, after ++ nl :: tail) := by
      intro tail
      simp [readDirectiveIdent, skipNewlines_of_identName hn, show identName t = some name from hn]
    simp only [hread]
    exact hf name after

variable (hnl : nl.isNewline = true)
include hnl

lemma keepsTail_handleInclude (hrest : ∀ t ∈ rest, t.isNewline = false)
    (hs : SpellsHeader cfg fuel s rest) :
    KeepsTail cfg files nl s fun tail =>
      handleInclude cfg fuel processFile (rest ++ nl :: tail) := by
  cases rest with
  | nil => exact absurd hs not_spellsHeader_nil
  | cons t rest =>
    have ht := hrest t mem_cons_self
    have hoperand : ∀ line tail, includeOperand cfg fuel line (t :: (rest ++ nl :: tail)) =
        includeOperand cfg fuel line (t :: rest) := by
      intro line tail
      have hparse := parseIncludeHeader_append hnl ht rest tail
      have hline := directiveRest_append hnl (t :: rest) tail
      rw [cons_append] at hparse hline
      simp [includeOperand, hparse, hline]
    simp only [handleInclude, cons_append, skipNewlines_cons ht, head?_cons]
    simp only [includeFrom, hoperand]
    refine keepsTail_after fun header s' _ => keepsTail_after fun contents s'' _ => ?_
    cases contents with
    | none => exact keepsTail_pure (t :: rest)
    | some contents =>
      exact keepsTail_after fun _ _ _ => keepsTail_after fun _ _ _ => keepsTail_pure (t :: rest)

omit hnl in
lemma keepsTail_handleIfdef (negate : Bool) (line : ℕ)
    (ha : s.conds.isActive = true → (rest.head?.bind identName).isSome = true) :
    KeepsTail cfg files nl s fun tail => handleIfdef negate line (rest ++ nl :: tail) := by
  have hopen : ∀ (cond : Bool) (s : State) (pos : List Token), KeepsTail cfg files nl s fun tail =>
      (do op (.openArm cond line); pure (pos ++ nl :: tail)) :=
    fun cond s pos => keepsTail_after fun _ _ _ => keepsTail_pure pos
  refine keepsTail_isActive (f := fun active tail => if active then _ else _) ?_
  split
  · refine keepsTail_readDirectiveIdent (f := fun name pos => do
      op .beginReads
      let defined ← (isDefinedForConditionals name : CtlM Bool)
      op (.openArm (defined != negate) line)
      pure pos) (ha ‹_›) fun name after => ?_
    exact keepsTail_after fun _ _ _ => keepsTail_after fun _ _ _ => hopen _ _ after
  · exact hopen false s rest

lemma keepsTail_handleIf (line : ℕ) :
    KeepsTail cfg files nl s fun tail => handleIf line (rest ++ nl :: tail) := by
  simp only [handleIf, directiveRest_append hnl, skipDirectiveLine_append hnl]
  exact keepsTail_after fun _ _ _ => keepsTail_after fun _ _ _ => keepsTail_after fun _ _ _ =>
    keepsTail_pure (skipDirectiveLine rest)

lemma keepsTail_handleElif (line : ℕ) :
    KeepsTail cfg files nl s fun tail => handleElif line (rest ++ nl :: tail) := by
  simp only [handleElif, directiveRest_append hnl, skipDirectiveLine_append hnl]
  refine keepsTail_after fun frame _ _ => ?_
  cases frame with
  | none => exact keepsTail_error line _
  | some frame =>
    refine keepsTail_after fun cond s' _ => ?_
    have harm : ∀ s, KeepsTail cfg files nl s fun tail =>
        (do op (.elifArm cond); pure (skipDirectiveLine rest ++ nl :: tail)) :=
      fun s => keepsTail_after fun _ _ _ => keepsTail_pure _
    split
    · exact keepsTail_after fun _ _ _ => harm _
    · exact harm s'

omit hnl in
lemma keepsTail_handleCloser (change : ControlOp) (message : Text) (line : ℕ) :
    KeepsTail cfg files nl s fun tail => handleCloser change message line (rest ++ nl :: tail) := by
  refine keepsTail_after fun frame _ _ => ?_
  cases frame with
  | none => exact keepsTail_error line message
  | some frame => exact keepsTail_after fun _ _ _ => keepsTail_pure rest

lemma keepsTail_directiveEffect {name : Text} (line : ℕ) (hrest : ∀ t ∈ rest, t.isNewline = false)
    (ha : s.conds.isActive = true → OperandOnLine cfg fuel s name rest) :
    KeepsTail cfg files nl s fun tail =>
      directiveEffect cfg fuel processFile name line (rest ++ nl :: tail) := by
  have hwhen : ∀ p : List Token → CtlM (List Token),
      (s.conds.isActive = true → KeepsTail cfg files nl s p) →
      KeepsTail cfg files nl s fun tail => (do
        if ← (isActive : CtlM Bool) then p tail else pure (rest ++ nl :: tail)) := by
    intro p hp
    refine keepsTail_isActive (f := fun active tail => if active then p tail else pure _) ?_
    split
    · exact hp ‹_›
    · exact keepsTail_pure rest
  -- A directive that does something with its own line and then leaves it.
  have hthen : ∀ p : EnvM Unit, KeepsTail cfg files nl s fun tail => (do
      if ← (isActive : CtlM Bool) then (do (p : CtlM Unit); pure (rest ++ nl :: tail))
      else pure (rest ++ nl :: tail)) :=
    fun p => hwhen _ fun _ => keepsTail_after fun _ _ _ => keepsTail_pure rest
  unfold OperandOnLine at ha
  unfold directiveEffect
  cases hd : directiveOf name <;> simp only [hd] at ha ⊢
  case hashInclude => exact hwhen _ fun h => keepsTail_handleInclude hnl hrest (ha h)
  case hashDefine =>
    refine hwhen _ fun h => ?_
    cases rest with
    | nil => cases ha h
    | cons t after =>
      obtain ⟨name, hn⟩ := Option.isSome_iff_exists.mp (ha h)
      exact keepsTail_lift (confines_handleDefine hnl hn after)
  case hashUndef =>
    refine hwhen _ fun h => ?_
    exact keepsTail_readDirectiveIdent (f := fun name pos => do
      (removeMacro name : CtlM Unit)
      pure pos) (ha h) fun name after => keepsTail_after fun _ _ _ => keepsTail_pure after
  case hashIfdef => exact keepsTail_handleIfdef false line ha
  case hashIfndef => exact keepsTail_handleIfdef true line ha
  case hashIf => exact keepsTail_handleIf hnl line
  case hashElif => exact keepsTail_handleElif hnl line
  case hashElse => exact keepsTail_handleCloser _ _ line
  case hashEndif => exact keepsTail_handleCloser _ _ line
  case hashLine => exact keepsTail_pure rest
  case hashError | hashWarning =>
    simp only [handleMessage, directiveRest_append hnl]
    exact hthen _
  case hashPragma =>
    simp only [directiveRest_append hnl]
    exact hthen _
  case unknown => exact hthen _

end Directives

/-- The directive on `line`, which ends in the newline `nl`: it acts on no token of the lines
below and leaves them all to be processed, and a malformed one does not end the file. -/
def LeavesRest (cfg : Setting) (files : Files) (fuel : ℕ) (processFile : List Token → CtlM Unit)
    (line : List Token) (nl : Token) (s : State) : Prop :=
  ∃ (r : Ending PreprocessError (List Token)) (s' : State),
    (∀ tail, run (I := controlInterface) (ControlOp.handle cfg files)
      (handleDirective cfg fuel processFile (line ++ nl :: tail)) s = (r.map (· ++ tail), s')) ∧
    (Malformed cfg fuel s line → ∃ pos, r = .ok pos)

section Claim
variable {name : Text}

lemma run_handleDirective (hn : identName t = some name) {s' : State} {r}
    (hrun : run (cfg.control files)
      (directiveEffect cfg fuel processFile name t.line rest) s = (r, s')) : run (cfg.control files)
      (handleDirective cfg fuel processFile (t :: rest)) s = (r.map skipToNewline, s') := by
  have hmap : handleDirective cfg fuel processFile (t :: rest) =
      skipToNewline <$> directiveEffect cfg fuel processFile name t.line rest := by
    simp [handleDirective, skipNewlines_of_identName hn, hn]
  rw [hmap, run_map (cfg.control files), hrun]

/-- Directives that have what they need, and the directives of a skipped group, stay on
their line. -/
lemma leaves_of_operandOnLine (hnl : nl.isNewline = true) (hn : identName t = some name)
    (hrest : ∀ t ∈ rest, t.isNewline = false) (ho : OperandOnLine cfg fuel s name rest) :
    LeavesRest cfg files fuel processFile (t :: rest) nl s := by
  have hkeeps : KeepsTail cfg files nl s fun tail =>
      directiveEffect cfg fuel processFile name t.line (rest ++ nl :: tail) :=
    keepsTail_directiveEffect hnl t.line hrest fun _ => ho
  obtain ⟨r, s', hr⟩ := hkeeps
  refine ⟨r.map fun pos => skipToNewline (pos ++ [nl]), s', fun tail => ?_,
    fun hm => absurd ho (hm name hn)⟩
  rw [cons_append, run_handleDirective hn (hr tail)]
  cases r with
  | ok pos =>
    have hskip : skipToNewline (withBelow (nl :: tail) pos) = skipToNewline (pos ++ [nl]) ++ tail :=
      skipToNewline_append hnl pos tail
    simp [Ending.map, hskip]
  | error e => rfl
  | exhausted => rfl

lemma leaves_of_inactive_nameless (hnl : nl.isNewline = true) (hn : identName t = none)
    (ht : t.isNewline = false) (ha : s.conds.isActive = false) :
    LeavesRest cfg files fuel processFile (t :: rest) nl s := by
  refine ⟨.ok (skipDirectiveLine (t :: rest) ++ [nl]), s, fun tail => ?_, fun _ => ⟨_, rfl⟩⟩
  have hskip : skipDirectiveLine (t :: (rest ++ nl :: tail)) =
      skipDirectiveLine (t :: rest) ++ [nl] ++ tail := by
    rw [append_assoc]
    exact skipDirectiveLine_append hnl (t :: rest) tail
  simp only [cons_append, handleDirective, skipNewlines_cons ht, hn]
  refine run_isActive.trans ?_
  rw [ha, hskip]
  rfl

/-- In a skipped group an operand is not looked for. -/
lemma run_directiveEffect_inactive (files : Files) (processFile : List Token → CtlM Unit) (line : ℕ)
    (ha : s.conds.isActive = false) (ho : ¬ OperandOnLine cfg fuel s name rest) :
    ∃ s', ∀ toks, run (cfg.control files)
      (directiveEffect cfg fuel processFile name line toks) s = (.ok toks, s') := by
  have hskip : ∀ p : List Token → CtlM (List Token), ∃ s', ∀ toks, run (cfg.control files) (do
        if ← (isActive : CtlM Bool) then p toks else pure toks) s = (.ok toks, s') := by
    refine fun p => ⟨s, fun toks => run_isActive.trans ?_⟩
    rw [ha]
    rfl
  have hifdef : ∀ negate, ∃ s', ∀ toks, run (cfg.control files)
      (handleIfdef negate line toks) s = (.ok toks, s') := by
    refine fun negate => ⟨{ s with conds := s.conds.pushCond false line }, fun toks =>
      run_isActive.trans ?_⟩
    rw [ha]
    rfl
  unfold OperandOnLine at ho
  unfold directiveEffect
  cases hd : directiveOf name <;> simp only [hd, not_true_eq_false] at ho ⊢
  case hashInclude | hashDefine | hashUndef => exact hskip _
  case hashIfdef | hashIfndef => exact hifdef _

section
variable (hnl : nl.isNewline = true)
include hnl

lemma leaves_of_inactive (hn : identName t = some name) (ha : s.conds.isActive = false)
    (ho : ¬ OperandOnLine cfg fuel s name rest) :
    LeavesRest cfg files fuel processFile (t :: rest) nl s := by
  obtain ⟨s', hs'⟩ := run_directiveEffect_inactive files processFile t.line ha ho
  refine ⟨.ok (skipToNewline (rest ++ [nl])), s', fun tail => ?_, fun _ => ⟨_, rfl⟩⟩
  rw [cons_append, run_handleDirective hn (hs' _)]
  simp [Ending.map, skipToNewline_append hnl rest tail]

variable (hrest : ∀ t ∈ rest, t.isNewline = false)
include hrest

lemma readDirectiveIdent_missing (hn : (rest.head?.bind identName).isSome ≠ true) :
    ∃ line, readDirectiveIdent (rest ++ [nl]) =
      EnvM.error line "expected identifier in directive".toList := by
  cases rest with
  | nil =>
    refine ⟨1, ?_⟩
    simp [readDirectiveIdent, skipNewlines, List.dropWhile, hnl]
  | cons t after =>
    refine ⟨t.line, ?_⟩
    have ht : identName t = none := by simpa using hn
    simp [readDirectiveIdent, skipNewlines_cons (hrest t mem_cons_self), ht]

/-- The operand of an `#include` is looked for on later lines only if this one has none. -/
lemma includeOperand_skipNewlines (line : ℕ) :
    includeOperand cfg fuel line (skipNewlines (rest ++ [nl])) =
      includeOperand cfg fuel line rest := by
  cases rest with
  | nil =>
    have hnil : skipNewlines ([] ++ [nl]) = [] := by simp [skipNewlines, hnl]
    rw [hnil]
  | cons t after =>
    have ht := hrest t mem_cons_self
    have hparse := parseIncludeHeader_append hnl ht after []
    have hline := directiveRest_append hnl (t :: after) []
    rw [cons_append] at hparse hline
    simp [skipNewlines_cons ht, includeOperand, hparse, hline]

end

lemma run_includeOperand_ne_ok (hs : ¬ SpellsHeader cfg fuel s rest) (line : ℕ)
    (header : Text × Bool) (env' : Env) :
    run (cfg.text s.conds.isActive) (includeOperand cfg fuel line rest)
      s.env ≠ (.ok header, env') := by
  intro hrun
  unfold SpellsHeader at hs
  push Not at hs
  obtain ⟨hh, he⟩ := hs
  have hparse : parseIncludeHeader rest = none := by simpa using hh
  simp only [includeOperand, hparse] at hrun
  obtain ⟨expanded, env'', hexpand, hrun⟩ :=
    exists_of_run_bind (cfg.text s.conds.isActive) hrun
  have hpar' : parseIncludeHeader expanded = none := by simpa using he expanded env'' hexpand
  rw [hpar'] at hrun
  cases hrun

variable (hnl : nl.isNewline = true)
include hnl

lemma run_directiveEffect_ne_ok (hrest : ∀ t ∈ rest, t.isNewline = false)
    (ha : s.conds.isActive = true) (ho : ¬ OperandOnLine cfg fuel s name rest) (line : ℕ)
    (pos : List Token) (s' : State) : run (cfg.control files)
      (directiveEffect cfg fuel processFile name line (rest ++ [nl])) s ≠ (.ok pos, s') := by
  have hwhen : ∀ p : CtlM (List Token),
      run (cfg.control files) p s ≠ (.ok pos, s') →
      run (cfg.control files) (do
        if ← (isActive : CtlM Bool) then p else pure (rest ++ [nl])) s ≠ (.ok pos, s') := by
    intro p hp hrun
    have hrun := run_isActive.symm.trans hrun
    rw [ha] at hrun
    exact hp hrun
  have hread : (rest.head?.bind identName).isSome ≠ true →
      ∀ f : Text × List Token → CtlM (List Token),
      run (cfg.control files)
        (lift (readDirectiveIdent (rest ++ [nl])) >>= f) s ≠ (.ok pos, s') := by
    intro hn f hrun
    obtain ⟨line, hm⟩ := readDirectiveIdent_missing hnl hrest hn
    rw [hm] at hrun
    cases hrun
  unfold OperandOnLine at ho
  unfold directiveEffect
  cases hd : directiveOf name <;> simp only [hd, not_true_eq_false] at ho ⊢
  case hashInclude =>
    refine hwhen _ fun hrun => ?_
    obtain ⟨header, s'', hheader, -⟩ := exists_of_run_bind (cfg.control files) hrun
    have hheader := (run_lift _ s).symm.trans hheader
    rw [includeOperand_skipNewlines hnl hrest] at hheader
    obtain ⟨hok, -⟩ := Prod.mk.inj hheader
    exact run_includeOperand_ne_ok ho _ header _ (Prod.ext hok rfl)
  case hashDefine =>
    refine hwhen _ fun hrun => ?_
    obtain ⟨line, hm⟩ := readDirectiveIdent_missing hnl hrest ho
    rw [handleDefine, hm] at hrun
    cases hrun
  case hashUndef => exact hwhen _ (hread ho _)
  case hashIfdef | hashIfndef =>
    intro hrun
    have hrun := run_isActive.symm.trans hrun
    rw [ha] at hrun
    exact hread ho _ hrun

/-- In an active group a malformed directive ends the file with an error. -/
lemma run_handleDirective_ne_ok (hl : ∀ t ∈ line, t.isNewline = false) (hne : line ≠ [])
    (ha : s.conds.isActive = true) (hm : Malformed cfg fuel s line) (pos : List Token)
    (s' : State) : run (cfg.control files)
      (handleDirective cfg fuel processFile (line ++ [nl])) s ≠ (.ok pos, s') := by
  cases line with
  | nil => exact absurd rfl hne
  | cons t rest =>
    intro hrun
    cases hn : identName t with
    | none =>
      simp only [cons_append, handleDirective, skipNewlines_cons (hl t mem_cons_self),
        hn] at hrun
      have hrun := run_isActive.symm.trans hrun
      rw [ha] at hrun
      cases hrun
    | some name =>
      rcases he : run (cfg.control files)
        (directiveEffect cfg fuel processFile name t.line (rest ++ [nl])) s with ⟨r, s''⟩
      have hrun := (run_handleDirective hn he).symm.trans hrun
      cases r with
      | ok pos' =>
        exact run_directiveEffect_ne_ok hnl (fun t ht => hl t (mem_cons_of_mem _ ht)) ha
          (hm name hn) t.line pos' s'' he
      | error e | exhausted => cases hrun

/-- A null directive takes its name from the line below. -/
lemma not_leavesRest_nil : ¬ LeavesRest cfg files fuel processFile [] nl s := by
  rintro ⟨r, s', hr, -⟩
  have hskip : skipNewlines ([] ++ [nl, Token.ident "line"]) = [Token.ident "line"] := by
    simp only [nil_append, skipNewlines, List.dropWhile, hnl]
    rfl
  have hrun := hr [Token.ident "line"]
  simp only [handleDirective, hskip] at hrun
  have hresult := congrArg Prod.fst hrun
  cases r with
  | ok pos =>
    have hpos : ([] : List Token) = pos ++ [Token.ident "line"] := Ending.ok.inj hresult
    cases pos <;> cases hpos
  | error e | exhausted => cases hresult

end Claim

/-- A directive keeps to its line and leaves the lines below to be processed exactly if its
line is not empty and, in an active group, it has the name and the operand it needs on that
line. -/
theorem leavesRest_iff (cfg : Setting) (files : Files) (fuel : ℕ)
    (processFile : List Token → CtlM Unit) (line : List Token) (nl : Token) (s : State)
    (hline : ∀ t ∈ line, t.isNewline = false) (hnl : nl.isNewline = true) :
    LeavesRest cfg files fuel processFile line nl s ↔
      line ≠ [] ∧ (s.conds.isActive = true → ¬ Malformed cfg fuel s line) := by
  constructor
  · intro hleaves
    have hne : line ≠ [] := by
      rintro rfl
      exact not_leavesRest_nil hnl hleaves
    refine ⟨hne, fun hactive hmalformed => ?_⟩
    obtain ⟨r, s', hr, hok⟩ := hleaves
    obtain ⟨pos, rfl⟩ := hok hmalformed
    exact run_handleDirective_ne_ok hnl hline hne hactive hmalformed _ s' (hr [])
  rintro ⟨hne, hwell⟩
  cases line with
  | nil => exact absurd rfl hne
  | cons t rest =>
    have hinactive : Malformed cfg fuel s (t :: rest) → s.conds.isActive = false :=
      fun hm => Bool.eq_false_iff.mpr fun hactive => hwell hactive hm
    have hrest : ∀ t ∈ rest, t.isNewline = false := fun t ht => hline t (mem_cons_of_mem _ ht)
    cases hname : identName t with
    | none =>
      exact leaves_of_inactive_nameless hnl hname (hline t mem_cons_self)
        (hinactive fun name h => by rw [hname] at h; cases h)
    | some name =>
      by_cases hoperand : OperandOnLine cfg fuel s name rest
      · exact leaves_of_operandOnLine hnl hname hrest hoperand
      · refine leaves_of_inactive hnl hname (hinactive fun name' h => ?_) hoperand
        obtain rfl : name = name' := Option.some.inj (hname.symm.trans h)
        exact hoperand

section Examples
open Token

def smallFile : List Token → CtlM Unit := fileBracket (processTokens .small 5 true)

/-- `#define X` keeps to its line. -/
theorem define_leavesRest :
    LeavesRest .small .none 5 smallFile [ident "define", ident "X"] newline (.binding []) := by
  refine (leavesRest_iff .small .none 5 smallFile _ _ _ (by decide) (by decide)).mpr
    ⟨by decide, fun _ hmalformed => hmalformed "define".toList rfl ?_⟩
  exact (rfl : ([ident "X"].head?.bind identName).isSome = true)

/-- After a null directive the line `define X y` is taken for a definition, and none of its
tokens is left. -/
theorem nullDirective_defines : run (I := controlInterface) (ControlOp.handle .small .none)
        (handleDirective .small 5 smallFile
          ([] ++ newline :: [ident "define", ident "X", ident "y", newline])) (.binding []) =
      (.ok [], { State.binding [] with
        env :=
          (State.binding []).env.insertMacro "X".toList (.object (spelledIn [] [ident "y"])) }) ∧
    ¬ LeavesRest .small .none 5 smallFile [] newline (.binding []) :=
  ⟨rfl, not_leavesRest_nil rfl⟩

end Examples
end Pathologist.Preproc

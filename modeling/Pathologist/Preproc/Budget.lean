import Pathologist.Preproc.Directive

/-!
# The token budget bounds a run

Every step of a walk over tokens is charged to the token budget before anything else
happens, and a walk that exceeds the budget fails. The charge only grows, so a walk with as
much fuel as the budget has left never runs out of fuel.
-/
namespace Pathologist.Preproc
open Lib Lib.Program EnvM CtlM

variable {cfg : Setting} {α : Type} {n fuel : ℕ}

section Text
variable {active : Bool} (toks : List Token)

abbrev EnvM.Ends (cfg : Setting) (active : Bool) (n : ℕ) (p : EnvM α) : Prop :=
  Program.Ends (I := envInterface) (EnvOp.handle cfg active) Env.tokensProcessed n p

lemma EnvOp.charge_handle (o : EnvOp) (env : Env) :
    env.tokensProcessed ≤ (o.handle cfg active env).2.tokensProcessed := by
  cases o with
  | read name => simp only [EnvOp.handle, Env.recordRead]; split_ifs <;> exact le_rfl
  | insertMacro name definition =>
    simp only [EnvOp.handle, Env.insertMacro, Env.noteLocalBinding, Env.logMacroOp]
    split_ifs <;> exact le_rfl
  | removeMacro name =>
    simp only [EnvOp.handle, Env.removeMacro, Env.noteLocalBinding, Env.logMacroOp]
    split_ifs <;> exact le_rfl
  | emitToken t => simp only [EnvOp.handle, Env.emitToken]; split_ifs <;> exact le_rfl
  | report severity line message =>
    simp only [EnvOp.handle, Env.report]; split_ifs <;> exact le_rfl
  | spendTokens n => exact Nat.le_add_right _ _
  | enterExpansion => simp only [EnvOp.handle]; split_ifs <;> exact le_rfl
  | _ => exact le_rfl

lemma EnvM.Silent.ends {E} {p : EnvM α} (hp : EnvM.Silent E p) : EnvM.Ends cfg active n p :=
  Only.ends hp fun o _ env => o.charge_handle env

lemma ends_op (o : EnvOp) :
    EnvM.Ends cfg active n (Program.op (I := envInterface) o : EnvM o.Answer) :=
  fun env _ => ⟨nofun, o.charge_handle env⟩

lemma ends_error (line : ℕ) (message : Text) :
    EnvM.Ends cfg active n (EnvM.error line message : EnvM α) :=
  EnvM.Silent.ends (silent_error (E := fun _ => True) line trivial)

lemma ends_warn (line : ℕ) (message : Text) : EnvM.Ends cfg active n (warn line message) :=
  EnvM.Silent.ends (silent_warn (E := fun _ => True) line message)

lemma ends_popAfter {p : EnvM α} (hp : EnvM.Ends cfg active n p) :
    EnvM.Ends cfg active n (popAfter p) :=
  hp.attempt.bind fun result => (ends_op .leaveExpansion).bind fun _ => ends_ofExcept result

lemma charge_of_check {line : ℕ} {env env' : Env}
    (h : run (cfg.text active) (checkResourceLimits cfg line) env = (.ok (), env')) :
    env.tokensProcessed + 1 ≤ env'.tokensProcessed ∧
      env'.tokensProcessed ≤ cfg.maxExpandedTokens := by
  have hmeets : Meets (cfg.text active) (fun _ => True)
      (fun r env' => r = .ok () → env.tokensProcessed + 1 ≤ env'.tokensProcessed ∧
        env'.tokensProcessed ≤ cfg.maxExpandedTokens) (checkResourceLimits cfg line) env := by
    refine meets_bind ⟨trivial, ?_⟩
    change Meets _ _ _ (if decide (cfg.maxExpandedTokens < env.tokensProcessed + 1) = true
      then _ else _) _
    split_ifs with hmax
    · exact ⟨trivial, trivial, trivial, nofun⟩
    refine ⟨trivial, trivial, ?_⟩
    change Meets _ _ _ (if decide (cfg.maxOutputBytes < (env.output.map Char.utf8Size).sum) = true
      then _ else _) _
    split_ifs
    · exact ⟨trivial, trivial, trivial, nofun⟩
    · exact ⟨trivial, fun _ => ⟨le_rfl, Nat.le_of_not_lt fun hlt => hmax (decide_eq_true hlt)⟩⟩
  exact hmeets.result h rfl

/-- A walk that starts with a check may count on one more charged token. -/
lemma ends_check {line : ℕ} {next : Unit → EnvM α}
    (hnext : n + 1 ≤ cfg.maxExpandedTokens → EnvM.Ends cfg active (n + 1) (next ())) :
    EnvM.Ends cfg active n (checkResourceLimits cfg line >>= next) := by
  refine (EnvM.Silent.ends (silent_checkResourceLimits cfg line)).bind_charged
    fun env _ env' hn hrun => ?_
  obtain ⟨hs, hmax⟩ := charge_of_check hrun
  exact ⟨n + 1, by omega, hnext (by omega)⟩

lemma ends_pushExpansion (line : ℕ) : EnvM.Ends cfg active n (pushExpansion line) := by
  refine (ends_op .enterExpansion).bind fun (answer : Deepened) => ?_
  match answer with
  | .entered => exact ends_pure true
  | .refused true => exact (ends_warn line _).bind fun _ => ends_pure false
  | .refused false => exact ends_pure false

lemma ends_parseMacroArgs : EnvM.Ends cfg active n (parseMacroArgs toks) := by
  unfold parseMacroArgs
  split
  · split_ifs
    · split
      · exact ends_pure _
      · exact ends_error _ _
    · exact ends_pure _
  · exact ends_pure _

lemma ends_chargeTokens (count line : ℕ) : EnvM.Ends cfg active n (chargeTokens cfg count line) :=
  EnvM.Silent.ends (silent_chargeTokens cfg count line)

lemma ends_hideGmockNames (origin : Token) (toks : List Token) :
    EnvM.Ends cfg active n (hideGmockNames origin toks) := by
  induction toks with
  | nil => exact ends_pure []
  | cons t rest ih =>
    have hrest : ∀ t : Token, EnvM.Ends cfg active n (do
        let rest ← hideGmockNames origin rest; pure (t :: rest)) :=
      fun t => ih.bind fun _ => ends_pure _
    unfold hideGmockNames
    split
    · refine (ends_op (.read _)).bind fun (answer : Option (MacroDef × Bool)) => ?_
      rcases answer with _ | ⟨_ | _ | _, _⟩ <;> exact hrest _
    · exact hrest _

section Invocation
variable {expand : List Token → EnvM (List Token)}
variable (hexpand : ∀ toks, EnvM.Ends cfg active n (expand toks))
include hexpand

lemma ends_expandArgs (needed : ℕ → Bool) (i : ℕ) (args : List (List Token)) :
    EnvM.Ends cfg active n (expandArgs expand needed i args) := by
  induction args generalizing i with
  | nil => exact ends_pure []
  | cons arg others ih =>
    have hothers : ∀ arg : List Token, EnvM.Ends cfg active n (do
        let others ← expandArgs expand needed (i + 1) others; pure (arg :: others)) :=
      fun _ => (ih _).bind fun _ => ends_pure _
    unfold expandArgs
    split_ifs
    · exact (hexpand arg).bind hothers
    · exact hothers arg

lemma ends_expandInvocation (name : Text) (origin : Token) (definition : MacroDef)
    (args : MacroArgs) :
    EnvM.Ends cfg active n (expandInvocation cfg expand name origin definition args) := by
  cases definition with
  | object replacement => exact ends_pure _
  | gmockMethod =>
    exact (ends_expandArgs hexpand _ 0 args.args).bind fun _ => ends_hideGmockNames origin _
  | function params replacement variadic =>
    have hcharge : ∀ expanded : List (List Token), EnvM.Ends cfg active n (do
        chargeTokens cfg (projectedSubstitutionLenWithPrescan replacement params args
          ⟨expanded, args.separators⟩ variadic) origin.line
        pure <| applyConcatenation <| substituteMacro
          { macroName := name, origin, body := replacement, params, args,
            expandedArgs := some ⟨expanded, args.separators⟩, variadic }) :=
      fun expanded => (ends_chargeTokens _ _).bind fun _ => ends_pure _
    unfold expandInvocation
    dsimp only
    split
    · exact (ends_expandArgs hexpand _ 0 args.args).bind hcharge
    · exact hcharge args.args

end Invocation

lemma ends_expandOperandTokens (hf : 1 ≤ fuel) (hn : cfg.maxExpandedTokens + 2 ≤ fuel + n)
    (toks : List Token) : EnvM.Ends cfg active n (expandOperandTokens cfg fuel toks) := by
  induction fuel generalizing n toks with
  | zero => omega
  | succ fuel ih =>
    cases toks with
    | nil => exact ends_pure []
    | cons t rest =>
      refine ends_check fun hmax => ?_
      have ih : ∀ toks, EnvM.Ends cfg active (n + 1) (expandOperandTokens cfg fuel toks) :=
        fun toks => ih (by omega) (by omega) toks
      have hkeep : EnvM.Ends cfg active (n + 1) (do
          let out ← expandOperandTokens cfg fuel rest; pure (t :: out)) :=
        (ih rest).bind fun _ => ends_pure _
      have happend : ∀ nested after : List Token, EnvM.Ends cfg active (n + 1) (do
          let out ← expandOperandTokens cfg fuel after; pure (nested ++ out)) :=
        fun _ after => (ih after).bind fun _ => ends_pure _
      split
      · exact ih rest
      split
      · exact hkeep
      split
      · exact hkeep
      refine (ends_op (.read _)).bind fun answer => ?_
      split
      · exact hkeep
      · refine (ends_pushExpansion _).bind fun entered => ?_
        split
        · exact (ends_popAfter (ih _)).bind fun nested => happend nested rest
        · exact hkeep
      split
      · refine (ends_pushExpansion _).bind fun entered => ?_
        split
        · refine Program.Ends.bind (ends_popAfter ?_) fun r => happend r.1 r.2
          refine (ends_parseMacroArgs rest).bind fun args => ?_
          exact (ends_expandInvocation ih _ _ _ _).bind fun _ =>
            (ih _).bind fun _ => ends_pure _
        · exact hkeep
      · exact hkeep

lemma ends_emitAll : EnvM.Ends cfg active n (emitAll toks) := by
  induction toks with
  | nil => exact ends_pure ()
  | cons t rest ih => exact (ends_op (.emitToken t)).bind fun _ => ih

lemma ends_emitNewlines : EnvM.Ends cfg active n (emitNewlines cfg toks) := by
  induction toks with
  | nil => exact ends_pure ()
  | cons t rest ih =>
    refine ends_check fun _ => ?_
    have ih := ih.mono (Nat.le_succ n)
    split
    · exact (ends_op (.emitToken t)).bind fun _ => ih
    · exact ih

lemma ends_handlePragma : EnvM.Ends cfg active n (handlePragma toks) := by
  unfold handlePragma
  split
  · split
    · exact ends_op .onceGuard
    · split
      · exact (ends_op (.emitStr _)).bind fun _ => (ends_emitAll _).bind fun _ =>
          ends_op (.emitStr _)
      · exact ends_pure ()
  · exact ends_pure ()

lemma ends_emitPredefined (t : Token) (name : Text) :
    EnvM.Ends cfg active n (emitPredefined t name) := by
  unfold emitPredefined
  split
  · exact (ends_op .currentFile).bind fun _ => (ends_op (.emitStr _)).bind fun _ => ends_pure true
  · split
    · exact (ends_op (.emitStr _)).bind fun _ => ends_pure true
    · exact ends_pure false

section Step
variable (hoperand : ∀ toks, EnvM.Ends cfg active n (expandOperandTokens cfg fuel toks))
include hoperand

lemma ends_elideGroup (name : Text) (rest : List Token) :
    EnvM.Ends cfg active n (elideGroup cfg fuel name rest) := by
  have hsurvive :
      ∀ group, EnvM.Ends cfg active n (attributeGroupMustSurvive cfg fuel group name) := by
    intro group
    unfold attributeGroupMustSurvive
    split
    · exact ends_pure true
    refine (hoperand group).bind fun expanded => ?_
    split
    · exact ends_pure true
    · split <;> exact ends_pure _
  unfold elideGroup
  split
  · exact ends_pure none
  refine (hsurvive _).bind fun survives => ?_
  split
  · exact ends_pure none
  · exact (ends_emitNewlines _).bind fun _ => ends_pure _

lemma ends_elideAttributeMacroGroup (replacement rest : List Token) :
    EnvM.Ends cfg active n (elideAttributeMacroGroup cfg fuel replacement rest) := by
  unfold elideAttributeMacroGroup
  split
  · refine (hoperand replacement).bind fun expanded => ?_
    split
    · exact ends_pure none
    · exact ends_elideGroup hoperand _ rest
  · exact ends_pure none

lemma ends_pragmaOperator (t : Token) (rest : List Token) :
    EnvM.Ends cfg active n (pragmaOperator cfg fuel t rest) := by
  unfold pragmaOperator
  split
  · exact ends_pure none
  split
  · exact (ends_warn _ _).bind fun _ => ends_pure none
  refine (ends_parseMacroArgs rest).bind fun ⟨args, after⟩ => ?_
  have hafter :
      ∀ _ : Unit, EnvM.Ends cfg active n (pure (some after) : EnvM (Option (List Token))) :=
    fun _ => ends_pure _
  dsimp only
  split
  · refine (hoperand _).bind fun expanded => ?_
    split
    · split
      · exact (ends_handlePragma _).bind hafter
      · exact (ends_warn _ _).bind hafter
    · exact (ends_warn _ _).bind hafter
  · exact (ends_warn _ _).bind hafter

variable {rescan : List Token → EnvM Unit} (hrescan : ∀ toks, EnvM.Ends cfg active n (rescan toks))
include hrescan

variable (t : Token)

lemma ends_expandName (name : Text) (rest : List Token) :
    EnvM.Ends cfg active n (expandName cfg fuel rescan t name rest) := by
  have hkeep : EnvM.Ends cfg active n (do emitToken t; pure (TextStep.next rest)) :=
    (ends_op (.emitToken t)).bind fun _ => ends_pure _
  unfold expandName
  split
  · exact hkeep
  refine (ends_op (.read name)).bind fun answer => ?_
  split
  · exact hkeep
  · refine (ends_pushExpansion _).bind fun entered => ?_
    split
    · refine (ends_elideAttributeMacroGroup hoperand _ rest).bind fun elided => ?_
      split
      · exact (ends_op .leaveExpansion).bind fun _ => ends_pure _
      · exact (ends_popAfter (hrescan _)).bind fun _ => ends_pure _
    · exact hkeep
  split
  · refine (ends_pushExpansion _).bind fun entered => ?_
    split
    · refine Program.Ends.bind (Program.Ends.attempt ?_) fun result => ?_
      · exact (ends_parseMacroArgs rest).bind fun args =>
          (ends_expandInvocation hoperand _ _ _ _).bind fun _ => ends_pure _
      · split
        · exact ends_pure _
        · exact (ends_op .leaveExpansion).bind fun _ => ends_fail _
    · exact hkeep
  · exact hkeep

lemma ends_nameStep (name : Text) (rest : List Token) :
    EnvM.Ends cfg active n (nameStep cfg fuel rescan t name rest) := by
  have helide : EnvM.Ends cfg active n (elideAttribute cfg fuel t name rest) := by
    unfold elideAttribute
    split
    · exact ends_pure none
    split
    · exact ends_elideGroup hoperand name rest
    refine (ends_op (.peek name)).bind fun answer => ?_
    split
    · exact ends_elideGroup hoperand name rest
    · exact ends_pure none
  refine helide.bind fun elided => ?_
  split
  · exact ends_pure _
  refine (ends_emitPredefined t name).bind fun emitted => ?_
  split
  · exact ends_pure _
  · exact ends_expandName hoperand hrescan t name rest

lemma ends_textStep (rest : List Token) :
    EnvM.Ends cfg active n (textStep cfg fuel rescan t rest) := by
  unfold textStep
  split
  · exact (ends_op (.emitToken t)).bind fun _ => ends_pure _
  split
  · refine (ends_pragmaOperator hoperand t rest).bind fun pragma => ?_
    split
    · exact ends_pure _
    · exact ends_nameStep hoperand hrescan t _ rest
  · exact ends_nameStep hoperand hrescan t _ rest

end Step

lemma ends_expandTokensNoDirectives (hf : 1 ≤ fuel) (hn : cfg.maxExpandedTokens + 2 ≤ fuel + n)
    (toks : List Token) : EnvM.Ends cfg active n (expandTokensNoDirectives cfg fuel toks) := by
  induction fuel generalizing n toks with
  | zero => omega
  | succ fuel ih =>
    cases toks with
    | nil => exact ends_pure ()
    | cons t rest =>
      refine ends_check fun hmax => ?_
      have ih : ∀ toks, EnvM.Ends cfg active (n + 1) (expandTokensNoDirectives cfg fuel toks) :=
        fun toks => ih (by omega) (by omega) toks
      split
      · exact ends_pure ()
      split
      · exact (ends_op (.emitToken t)).bind fun _ => ih rest
      refine (ends_op .isActive).bind fun active => ?_
      split
      · refine (ends_textStep (ends_expandOperandTokens (by omega) (by omega)) ih t rest).bind
          fun step => ?_
        split
        · exact ih _
        · exact (ends_popAfter (ih _)).bind fun _ => ih _
      · exact ih rest

end Text

section Control
variable {files : Files} (toks : List Token)

abbrev CtlM.Ends (cfg : Setting) (files : Files) (n : ℕ) (p : CtlM α) : Prop :=
  Program.Ends (I := controlInterface) (ControlOp.handle cfg files) (·.env.tokensProcessed) n p

lemma ControlOp.charge_handle (o : ControlOp) (s : State) :
    s.env.tokensProcessed ≤ (o.handle cfg files s).2.env.tokensProcessed := by
  cases o with
  | env o => exact o.charge_handle s.env
  | enterFile guard =>
    cases guard with
    | none => exact le_rfl
    | some name =>
      simp only [ControlOp.handle, Option.elim, Env.recordGuard]
      split_ifs <;> exact le_rfl
  | openInclude path quoted line => exact files.openInclude_charge path quoted line s.env
  | closeInclude line result => exact files.closeInclude_charge line result s.env
  | _ => exact le_rfl

lemma CtlM.ends_op (o : ControlOp) : CtlM.Ends cfg files n (op o) :=
  fun s _ => ⟨nofun, o.charge_handle s⟩

/-- A program of the text processor runs in the main loop as it does on its own. -/
lemma CtlM.run_lift (p : EnvM α) (s : State) : run (cfg.control files) (lift p) s =
      ((run (cfg.text s.conds.isActive) p s.env).1,
        { s with env := (run (cfg.text s.conds.isActive) p s.env).2 }) :=
  run_embed (I := envInterface) (J := controlInterface) (h := EnvOp.handle cfg s.conds.isActive)
    (k := ControlOp.handle cfg files) (f := ControlOp.env) (g := fun _ answer => answer)
    (fun env => { s with env }) (fun _ _ => rfl) (fun _ _ => rfl) p s.env

lemma CtlM.ends_lift {p : EnvM α} (hp : ∀ active, EnvM.Ends cfg active n p) :
    CtlM.Ends cfg files n (lift p) := by
  intro s hs
  rw [run_lift]
  exact hp s.conds.isActive s.env hs

lemma CtlM.ends_error (line : ℕ) (message : Text) :
    CtlM.Ends cfg files n (lift (EnvM.error line message) : CtlM α) :=
  CtlM.ends_lift fun _ => Preproc.ends_error line message

lemma CtlM.ends_popAfter {p : CtlM α} (hp : CtlM.Ends cfg files n p) :
    CtlM.Ends cfg files n (popAfter p) :=
  hp.attempt.bind fun result =>
    (CtlM.ends_lift fun _ => Preproc.ends_op .leaveExpansion).bind fun _ => ends_ofExcept result

lemma CtlM.ends_isActive : CtlM.Ends cfg files n (lift isActive) :=
  CtlM.ends_lift fun _ => Preproc.ends_op .isActive

lemma CtlM.ends_check {line : ℕ} {next : Unit → CtlM α}
    (hnext : n + 1 ≤ cfg.maxExpandedTokens → CtlM.Ends cfg files (n + 1) (next ())) :
    CtlM.Ends cfg files n (lift (checkResourceLimits cfg line) >>= next) := by
  refine (CtlM.ends_lift fun _ =>
    EnvM.Silent.ends (silent_checkResourceLimits cfg line)).bind_charged fun s _ s' hn hrun => ?_
  rw [run_lift] at hrun
  obtain ⟨hok, rfl⟩ := Prod.mk.inj hrun
  obtain ⟨hs, hmax⟩ := charge_of_check (Prod.ext hok rfl)
  exact ⟨n + 1, (Nat.succ_le_succ hn).trans hs, hnext (by omega)⟩

variable {active : Bool}

lemma ends_readDirectiveIdent : EnvM.Ends cfg active n (readDirectiveIdent toks) := by
  unfold readDirectiveIdent
  split
  · split
    · exact ends_pure _
    · exact ends_error _ _
  · exact ends_error _ _

lemma ends_malformedParamList : EnvM.Ends cfg active n (malformedParamList toks) := by
  unfold malformedParamList
  split
  · split <;> exact ends_warn _ _
  · exact ends_warn _ _

lemma ends_malformedList : EnvM.Ends cfg active n (malformedList toks) :=
  (ends_malformedParamList toks).bind fun _ => ends_pure none

lemma ends_variadicList (params : List Text) (toks : List Token) :
    EnvM.Ends cfg active n (variadicList params toks) := by
  have htail : EnvM.Ends cfg active n (finishParamListTail toks) := by
    induction toks with
    | nil => exact (ends_malformedParamList []).bind fun _ => ends_pure none
    | cons t rest ih =>
      unfold finishParamListTail
      split
      · exact ends_pure _
      · split
        · exact (ends_malformedParamList _).bind fun _ => ends_pure none
        · exact ih
  refine htail.bind fun tail => ?_
  split <;> exact ends_pure _

lemma ends_parseMacroParamList (params : List Text) (named : Bool) (toks : List Token) :
    EnvM.Ends cfg active n (parseMacroParamList params named toks) := by
  fun_induction parseMacroParamList params named toks with
  | case1 => exact ends_malformedList []
  | case2 => exact ends_variadicList _ _
  | case3 => exact ends_pure _
  | case4 | case6 => assumption
  | case5 | case7 => exact ends_malformedList _

lemma ends_handleDefine : EnvM.Ends cfg active n (handleDefine cfg toks) := by
  refine (ends_readDirectiveIdent toks).bind fun ⟨name, rest⟩ => ?_
  have hinsert : ∀ (definition : Text → MacroDef) (after : List Token), EnvM.Ends cfg active n (do
      let file ← currentFile; insertMacro name (definition file); pure after) := fun _ _ =>
    (ends_op .currentFile).bind fun _ => (ends_op (.insertMacro _ _)).bind fun _ => ends_pure _
  dsimp only
  split
  · refine (ends_parseMacroParamList _ _ _).bind fun list => ?_
    split
    · exact ends_pure _
    · exact hinsert _ _
  · split
    · exact ends_pure _
    · exact hinsert _ _

section Step
variable {processFile : List Token → CtlM Unit}

lemma ends_handleInclude
    (hoperand : ∀ active toks, EnvM.Ends cfg active n (expandOperandTokens cfg fuel toks))
    (hfile : ∀ toks, CtlM.Ends cfg files n (processFile toks)) (toks : List Token) :
    CtlM.Ends cfg files n (handleInclude cfg fuel processFile toks) := by
  have hheader :
      ∀ line toks active, EnvM.Ends cfg active n (includeOperand cfg fuel line toks) := by
    intro line toks active
    unfold includeOperand
    split
    · exact ends_pure _
    refine (hoperand active _).bind fun expanded => ?_
    split
    · exact ends_pure _
    · exact ends_error _ _
  refine (CtlM.ends_lift (hheader _ _)).bind fun header => ?_
  refine (CtlM.ends_op _).bind fun contents => ?_
  split
  · exact ends_pure _
  · exact (hfile _).attempt.bind fun result =>
      (CtlM.ends_op (.closeInclude _ result)).bind fun _ => ends_pure _

lemma ends_handleIfdef (negate : Bool) (line : ℕ) (rest : List Token) :
    CtlM.Ends cfg files n (handleIfdef negate line rest) := by
  refine ends_isActive.bind fun active => ?_
  split
  · refine (CtlM.ends_lift fun _ => ends_readDirectiveIdent rest).bind fun r => ?_
    refine (CtlM.ends_lift fun _ =>
      EnvM.Silent.ends (silent_isDefinedForConditionals (E := fun _ => True) r.1)).bind
        fun defined => ?_
    exact (CtlM.ends_op (.openArm _ line)).bind fun _ => ends_pure _
  · exact (CtlM.ends_op (.openArm false line)).bind fun _ => ends_pure _

lemma ends_armCondition (evaluate : Bool) (toks : List Token) :
    CtlM.Ends cfg files n (armCondition evaluate toks) := by
  unfold armCondition
  split
  · exact (CtlM.ends_op .beginReads).bind fun _ => CtlM.ends_lift fun _ =>
      EnvM.Silent.ends (silent_expandAndEvalCondition (E := fun _ => True) toks)
  · exact ends_pure false

lemma ends_handleIf (line : ℕ) (rest : List Token) : CtlM.Ends cfg files n (handleIf line rest) :=
  ends_isActive.bind fun evaluate => (ends_armCondition evaluate _).bind fun cond =>
    (CtlM.ends_op (.openArm cond line)).bind fun _ => ends_pure _

lemma ends_handleElif (line : ℕ) (rest : List Token) :
    CtlM.Ends cfg files n (handleElif line rest) := by
  refine (CtlM.ends_op .ownFrame).bind fun frame => ?_
  split
  · exact CtlM.ends_error line _
  refine (ends_armCondition _ _).bind fun cond => ?_
  have harm : CtlM.Ends cfg files n (do op (.elifArm cond); pure (skipDirectiveLine rest)) :=
    (CtlM.ends_op (.elifArm cond)).bind fun _ => ends_pure _
  split
  · exact (CtlM.ends_lift fun _ => ends_warn line _).bind fun _ => harm
  · exact harm

lemma ends_handleCloser (change : ControlOp) (message : Text) (line : ℕ) (rest : List Token) :
    CtlM.Ends cfg files n (handleCloser change message line rest) := by
  refine (CtlM.ends_op .ownFrame).bind fun frame => ?_
  split
  · exact CtlM.ends_error line _
  · exact (CtlM.ends_op change).bind fun _ => ends_pure _

section
variable (hoperand : ∀ active toks, EnvM.Ends cfg active n (expandOperandTokens cfg fuel toks))
include hoperand

variable (hfile : ∀ toks, CtlM.Ends cfg files n (processFile toks))
include hfile

lemma ends_directiveEffect (name : Text) (line : ℕ) (rest : List Token) :
    CtlM.Ends cfg files n (directiveEffect cfg fuel processFile name line rest) := by
  have hwhen : ∀ p : CtlM (List Token), CtlM.Ends cfg files n p → CtlM.Ends cfg files n (do
      if ← (isActive : CtlM Bool) then p else pure rest) := by
    intro p hp
    refine ends_isActive.bind fun active => ?_
    split
    · exact hp
    · exact ends_pure rest
  have hlift : ∀ p : EnvM Unit, (∀ active, EnvM.Ends cfg active n p) →
      CtlM.Ends cfg files n (do (p : CtlM Unit); pure rest) :=
    fun p hp => (CtlM.ends_lift hp).bind fun _ => ends_pure rest
  unfold directiveEffect
  split
  · exact hwhen _ (ends_handleInclude hoperand hfile rest)
  · exact hwhen _ (CtlM.ends_lift fun _ => ends_handleDefine rest)
  · refine hwhen _ ((CtlM.ends_lift fun _ => ends_readDirectiveIdent rest).bind fun r => ?_)
    exact (CtlM.ends_lift fun _ => ends_op (.removeMacro r.1)).bind fun _ => ends_pure _
  · exact ends_handleIfdef false line rest
  · exact ends_handleIfdef true line rest
  · exact ends_handleIf line rest
  · exact ends_handleElif line rest
  · exact ends_handleCloser _ _ line rest
  · exact ends_handleCloser _ _ line rest
  · exact ends_pure rest
  · exact hwhen _ (hlift _ fun _ => ends_op (.report _ _ _))
  · exact hwhen _ (hlift _ fun _ => ends_op (.report _ _ _))
  · exact hwhen _ (hlift _ fun _ => ends_handlePragma _)
  · exact hwhen _ (hlift _ fun _ => ends_warn line _)

lemma ends_handleDirective (toks : List Token) :
    CtlM.Ends cfg files n (handleDirective cfg fuel processFile toks) := by
  unfold handleDirective
  split
  · exact ends_pure []
  split
  · exact (ends_directiveEffect hoperand hfile _ _ _).bind fun _ => ends_pure _
  refine ends_isActive.bind fun active => ?_
  split
  · exact CtlM.ends_error _ _
  · exact ends_pure _

end

lemma ends_fileBracket (hp : ∀ toks, CtlM.Ends cfg files n (processFile toks)) (toks : List Token) :
    CtlM.Ends cfg files n (fileBracket processFile toks) := by
  refine (CtlM.ends_op (.enterFile _)).bind fun ⟨depth, outerBase⟩ => ?_
  refine (hp toks).attempt.bind fun result => ?_
  refine (CtlM.ends_op (.setBase outerBase)).bind fun _ => ?_
  have hlast : CtlM.Ends cfg files n
      (do op (.truncate depth); Program.ofExcept result : CtlM Unit) :=
    (CtlM.ends_op (.truncate depth)).bind fun _ => ends_ofExcept result
  cases result with
  | ok _ =>
    exact (CtlM.ends_op (.linesAbove depth)).bind fun lines => (CtlM.ends_lift fun _ =>
      EnvM.Silent.ends (silent_reportUnterminated (E := fun _ => True) lines)).bind fun _ => hlast
  | error e => exact hlast

end Step

/-- A walk with fuel for the rest of the budget never runs out of it. -/
lemma ends_processTokens (hf : 1 ≤ fuel) (hn : cfg.maxExpandedTokens + 2 ≤ fuel + n)
    (lineStart : Bool) (toks : List Token) :
    CtlM.Ends cfg files n (processTokens cfg fuel lineStart toks) := by
  induction fuel generalizing n lineStart toks with
  | zero => omega
  | succ fuel ih =>
    cases toks with
    | nil => exact ends_pure ()
    | cons t rest =>
      refine CtlM.ends_check fun hmax => ?_
      have ih : ∀ lineStart toks,
          CtlM.Ends cfg files (n + 1) (processTokens cfg fuel lineStart toks) :=
        fun lineStart toks => ih (by omega) (by omega) lineStart toks
      have hoperand : ∀ active toks,
          EnvM.Ends cfg active (n + 1) (expandOperandTokens cfg fuel toks) :=
        fun _ toks => ends_expandOperandTokens (by omega) (by omega) toks
      split
      · exact ends_pure ()
      split
      · exact (ends_handleDirective hoperand (ends_fileBracket (ih true)) rest).bind
          fun after => ih true after
      refine ends_isActive.bind fun active => ?_
      split
      · refine (CtlM.ends_lift fun active => ends_textStep (hoperand active)
          (ends_expandTokensNoDirectives (by omega) (by omega)) t rest).bind fun step => ?_
        split
        · exact ih _ _
        · exact (CtlM.ends_popAfter (ih _ _)).bind fun _ => ih _ _
      · exact ih _ _

lemma processFileTokens_ends (cfg : Setting) (files : Files) (toks : List Token) (s : State) :
    (run (cfg.control files) (processFileTokens cfg toks) s).1 ≠ .exhausted :=
  (ends_fileBracket (ends_processTokens (n := 0) (by omega) (by omega) true) toks s
    (Nat.zero_le _)).1

end Control
end Pathologist.Preproc

import Pathologist.Preproc.Budget

/-!
# Include guards

The guard detector scans a file's directives with its own count of the nesting, while the
processor runs the conditional stack. Where the two scans agree, a file whose guard is
defined emits nothing but newlines and defines nothing.
-/
namespace Pathologist.Preproc
open Lib Lib.Program List

/-- Every `#` that starts a line of `toks` is followed by tokens with the property `P`.
`lineStart` says that the first token starts a line. -/
def EveryHash (P : List Token → Prop) (lineStart : Bool) (toks : List Token) : Prop :=
  ∀ before hash rest, toks = before ++ hash :: rest → hash.isHash = true →
    before.getLast?.elim lineStart Token.isNewline = true → P rest

section Lines
variable {P : List Token → Prop} {lineStart : Bool} {t : Token} {toks rest : List Token}

lemma EveryHash.head (h : EveryHash P true (t :: rest)) (ht : t.isHash = true) : P rest :=
  h [] t rest rfl ht rfl

lemma EveryHash.tail (h : EveryHash P lineStart (t :: rest)) : EveryHash P t.isNewline rest := by
  intro before hash after hr hh hstart
  refine h (t :: before) hash after (by rw [hr]; rfl) hh ?_
  cases hl : before.getLast? with
  | none =>
    rw [getLast?_eq_none_iff] at hl
    subst hl
    simpa using hstart
  | some last =>
    rw [hl] at hstart
    rw [getLast?_cons, hl]
    exact hstart

lemma EveryHash.of_not_hash (h : EveryHash P lineStart (t :: rest)) (ht : t.isHash = false)
    (start : Bool) : EveryHash P start (t :: rest) := by
  intro before hash after hr hh hstart
  cases before with
  | nil =>
    cases hr
    rw [ht] at hh
    cases hh
  | cons b before =>
    refine h (b :: before) hash after hr hh ?_
    rwa [getLast?_cons] at hstart ⊢

/-- `EveryHash` for a property that can be computed. -/
def everyHash (p : List Token → Bool) : Bool → List Token → Bool
  | _, [] => true
  | lineStart, t :: rest => (!(lineStart && t.isHash) || p rest) && everyHash p t.isNewline rest

lemma everyHash_iff {p} :
    everyHash p lineStart toks = true ↔ EveryHash (fun rest => p rest = true) lineStart toks := by
  induction toks generalizing lineStart with
  | nil => exact ⟨fun _ before hash rest hnil => by simp at hnil, fun _ => rfl⟩
  | cons t rest ih =>
    simp only [everyHash, Bool.and_eq_true, Bool.or_eq_true, Bool.not_eq_true', ih]
    constructor
    · rintro ⟨hh, htail⟩ before hash after hr hhash hstart
      cases before with
      | nil =>
        cases hr
        exact hh.resolve_left (by simp_all)
      | cons b before =>
        obtain ⟨rfl, ha⟩ := cons.inj hr
        refine htail before hash after ha hhash ?_
        rw [getLast?_cons] at hstart
        cases hl : before.getLast? <;> simpa [hl] using hstart
    · intro h
      refine ⟨?_, h.tail⟩
      cases hstart : lineStart && t.isHash with
      | false => exact .inl rfl
      | true =>
        obtain ⟨rfl, ht⟩ := Bool.and_eq_true_iff.mp hstart
        exact .inr (h.head ht)

instance {p : List Token → Bool} :
    Decidable (EveryHash (fun rest => p rest = true) lineStart toks) :=
  decidable_of_iff _ everyHash_iff

/-- The property of the lines below a directive's line. -/
lemma EveryHash.skipToNewline (h : EveryHash P lineStart toks) :
    EveryHash P true (skipToNewline toks) := by
  induction toks generalizing lineStart with
  | nil =>
    exact fun before hash rest hnil => by simp [Preproc.skipToNewline, skipDirectiveLine] at hnil
  | cons t rest ih =>
    cases hend : endsLine t with
    | false =>
      rw [skipToNewline_cons hend]
      exact ih h.tail
    | true =>
      rcases endsLine_iff.mp hend with hnl | heof
      · rw [skipToNewline_newline hnl]
        exact hnl ▸ h.tail
      · rw [skipToNewline_eof heof]
        exact h.of_not_hash (isHash_of_isEof heof) true

lemma skipToNewline_skipDirectiveLine (toks : List Token) :
    skipToNewline (skipDirectiveLine toks) = skipToNewline toks := by
  induction toks with
  | nil => rfl
  | cons t rest ih =>
    cases hend : endsLine t with
    | false =>
      rw [skipToNewline_cons hend, ← ih]
      simp [skipDirectiveLine, hend]
    | true => simp [skipDirectiveLine, hend]

/-- After a blank rest of a file come only blank lines. -/
lemma all_endsLine_skipToNewline (h : (skipDirectiveLine toks).all endsLine = true) :
    (skipToNewline toks).all endsLine = true := by
  rw [skipToNewline]
  split
  · next t rest heq =>
    rw [heq, all_cons, Bool.and_eq_true] at h
    split_ifs
    · exact h.2
    · rw [all_cons, h.1, h.2]
      rfl
  · rfl

end Lines

/-! ## The two scans -/

/-- Where a scan for directives stands: where a `#` starts one, right after such a `#`, or on a
line that is passed over. -/
inductive ScanMode
  | start | name | line
deriving DecidableEq

/-- The directive that ends the first arm of the conditional opened last, and what follows its
name. With `lines` the scan goes to the end of a directive's line before it looks for the next
one, as the processor does; without, it goes on right after the name, as the detector does, for
which a second arm is no end. -/
def guardEnd (lines : Bool) : ScanMode → ℕ → List Token → Option (Directive × List Token)
  | _, _, [] => none
  | mode, depth, t :: rest =>
    let next := if lines then ScanMode.line else .start
    match mode, (identName t).map directiveOf with
    | .name, some d =>
      match d with
      | .hashIf | .hashIfdef | .hashIfndef => guardEnd lines next (depth + 1) rest
      | .hashElif | .hashElse =>
        if depth = 1 then (if lines then some (d, rest) else none)
        else guardEnd lines next depth rest
      | .hashEndif =>
        if depth = 1 then some (d, rest) else guardEnd lines next (depth - 1) rest
      | _ => guardEnd lines next depth rest
    | mode, _ =>
      if t.isEof then none
      else if t.isNewline then guardEnd lines .start depth rest
      else if t.isHash && mode == .start then guardEnd lines .name depth rest
      else guardEnd lines .line depth rest

/-- Where the detector ends. -/
def detectorEnd (toks : List Token) : Option (Directive × List Token) :=
  (guardOpener toks).bind fun p => guardEnd false .start 1 p.2

/-- Where the processor leaves the guard's group, if it does. -/
def processorEnd (toks : List Token) : Option (Directive × List Token) :=
  (guardOpener toks).bind fun p => guardEnd true .start 1 p.2

section Scans
variable {t word : Token} {toks rest after : List Token} {lines : Bool} {depth : ℕ}
variable {mode : ScanMode} {keyword : Text}

lemma isEof_of_isHash (h : t.isHash = true) : t.isEof = false := by
  simp_all [Token.isHash, Token.isEof]

lemma isNewline_of_isHash (h : t.isHash = true) : t.isNewline = false := by
  simp_all [Token.isHash, Token.isNewline]

lemma guardEnd_cons (mode : ScanMode) (h : mode ≠ .name) : guardEnd lines mode depth (t :: rest) =
    if t.isEof then none
    else if t.isNewline then guardEnd lines .start depth rest
    else if t.isHash && mode == .start then guardEnd lines .name depth rest
    else guardEnd lines .line depth rest := by
  cases mode
  case name => exact absurd rfl h
  all_goals rfl

/-- After a `#` without a name the rest of the line is passed over. -/
lemma guardEnd_name_of_none (h : toks.head?.bind identName = none) :
    guardEnd lines .name depth toks = guardEnd lines .line depth toks := by
  cases toks with
  | nil => rfl
  | cons t rest =>
    have hname : identName t = none := h
    simp [guardEnd, hname]

/-- What a directive does to a scan. -/
lemma guardEnd_directive (h : identName word = some keyword) :
    guardEnd lines .name depth (word :: after) =
      match directiveOf keyword with
      | .hashIf | .hashIfdef | .hashIfndef =>
        guardEnd lines (if lines then .line else .start) (depth + 1) after
      | .hashElif | .hashElse =>
        if depth = 1 then (if lines then some (directiveOf keyword, after) else none)
        else guardEnd lines (if lines then .line else .start) depth after
      | .hashEndif =>
        if depth = 1 then some (.hashEndif, after)
        else guardEnd lines (if lines then .line else .start) (depth - 1) after
      | _ => guardEnd lines (if lines then .line else .start) depth after := by
  simp only [guardEnd, h, Option.map_some]
  cases directiveOf keyword <;> rfl

/-- A line that holds no directive is passed over. -/
lemma guardEnd_line (toks : List Token) :
    guardEnd lines .line depth toks = guardEnd lines .start depth (skipToNewline toks) := by
  induction toks with
  | nil => rfl
  | cons t rest ih =>
    rw [guardEnd_cons .line (by decide)]
    cases hend : endsLine t with
    | false =>
      rw [skipToNewline_cons hend, ← ih]
      simp [endsLine] at hend
      simp [hend.1, hend.2]
    | true =>
      rcases endsLine_iff.mp hend with hnl | heof
      · rw [skipToNewline_newline hnl]
        simp [hnl, isEof_of_isNewline hnl]
      · rw [skipToNewline_eof heof, guardEnd_cons .start (by decide)]
        simp [heof]

lemma guardEnd_skipDirectiveLine (toks : List Token) :
    guardEnd lines .start depth (skipDirectiveLine toks) =
      guardEnd lines .start depth (skipToNewline toks) := by
  rw [skipToNewline]
  split
  · next t rest heq =>
    rw [heq]
    split_ifs with hnl
    · rw [guardEnd_cons .start (by decide), if_neg (by simp [isEof_of_isNewline hnl]), if_pos hnl]
    · rfl
  · next heq => rw [heq]

/-- A scan stops only after the `#` of a directive. -/
lemma guardEnd_of_nextDirective (hmode : mode ≠ .name)
    (h : nextDirectiveFrom (mode == .line) toks = some (keyword, after)) :
    ∃ word, identName word = some keyword ∧
      guardEnd lines mode depth toks = guardEnd lines .name depth (word :: after) := by
  induction toks generalizing mode with
  | nil => cases h
  | cons t rest ih =>
    rw [nextDirectiveFrom] at h
    rw [guardEnd_cons mode hmode]
    have hstart : (!(mode == .line)) = (mode == .start) := by cases mode <;> simp_all
    rw [hstart] at h
    split_ifs at h ⊢ with heof hnl hhash
    · exact ih nofun h
    · cases hword : rest.head?.bind identName with
      | none =>
        rw [hword] at h
        rw [guardEnd_name_of_none hword]
        exact ih nofun h
      | some name =>
        rw [hword] at h
        cases rest with
        | nil => cases hword
        | cons word later =>
          obtain ⟨rfl, rfl⟩ := Prod.mk.inj (Option.some.inj h)
          exact ⟨word, hword, rfl⟩
    · exact ih nofun h

/-- The detector accepts a guard at an `#endif` with only blank lines after it. -/
lemma guardEnd_of_guardCloses {fuel : ℕ} (h : guardCloses fuel depth toks = true) :
    ∃ after, guardEnd false .start depth toks = some (.hashEndif, after) ∧
      (skipDirectiveLine after).all endsLine = true := by
  induction fuel generalizing depth toks with
  | zero => cases h
  | succ fuel ih =>
    rw [guardCloses, Option.any_eq_true] at h
    obtain ⟨⟨keyword, rest⟩, hnext, hstep⟩ := h
    obtain ⟨word, hword, heq⟩ := @guardEnd_of_nextDirective _ _ false depth .start _ nofun hnext
    rw [heq, guardEnd_directive hword]
    rw [guardStep] at hstep
    simp only [Bool.false_eq_true, if_false]
    cases hdir : directiveOf keyword <;> simp only [hdir] at hstep ⊢
    case hashElif | hashElse =>
      rw [Bool.and_eq_true, bne_iff_ne] at hstep
      rw [if_neg hstep.1]
      exact ih hstep.2
    case hashEndif =>
      split_ifs at hstep ⊢ with hone
      · exact ⟨rest, rfl, hstep⟩
      · exact ih hstep
    all_goals exact ih hstep

end Scans

variable {t : Token} {toks : List Token}

/-- Since `env` the macro table has not changed and the output has grown by newlines. -/
def Quiet (env : Env) (s : State) : Prop :=
  s.env.table = env.table ∧ ∃ n, s.env.output = env.output ++ List.replicate n '\n'

section Quiet
variable {cfg : Setting} {files : Files} {start : Env} {α : Type}
variable {Q : Except PreprocessError α → State → Prop} {s : State}

/-- The program stays quiet at every step, with a postcondition. -/
abbrev Quietly (cfg : Setting) (files : Files) (start : Env)
    (Q : Except PreprocessError α → State → Prop) (p : CtlM α) (s : State) : Prop :=
  Meets (I := controlInterface) (ControlOp.handle cfg files) (Quiet start) Q p s

lemma Quiet.withEnv (h : Quiet start s) {env : Env} (ht : env.table = s.env.table)
    (ho : env.output = s.env.output) : Quiet start { s with env } :=
  ⟨ht.trans h.1, by rw [ho]; exact h.2⟩

/-- A silent program of the text processor: what it returns is what its own run returns. -/
lemma meets_silent {E} {p : EnvM α} (hp : EnvM.Silent E p) (hs : Quiet start s)
    (hok : ∀ a env, env.table = s.env.table → env.output = s.env.output →
      (run (cfg.text s.conds.isActive) p s.env).1 = .ok a → Q (.ok a) { s with env })
    (he : ∀ e env, E e → Q (.error e) { s with env }) :
    Quietly cfg files start Q (CtlM.lift p) s := by
  induction p generalizing s with
  | done a => exact ⟨hs, hok _ _ rfl rfl rfl⟩
  | fail e => exact ⟨hs, he _ _ hp⟩
  | exhausted => exact hs
  | perform o next ih =>
    obtain ⟨htable, houtput⟩ := @EnvOp.Silent.handle cfg s.conds.isActive o hp.1 s.env
    refine ⟨hs, ih _ (hp.2 _) (hs.withEnv htable houtput) (fun a env ht ho hrun => ?_) he⟩
    exact hok a env (ht.trans htable) (ho.trans houtput) hrun

end Quiet

/-- A stack whose `depth` innermost frames are inactive, the outermost of them the guard's;
it belongs to the current file. -/
inductive Inside (base : ℕ) : ℕ → List CondFrame → Prop
  | guard {g : CondFrame} {outer : List CondFrame} :
    g.active = false → base ≤ outer.length → Inside base 1 (g :: outer)
  | nested {depth : ℕ} {f : CondFrame} {st : List CondFrame} :
    Inside base depth st → f.parentActive = false → f.active = false →
      Inside base (depth + 1) (f :: st)

section Inside
variable {cfg : Setting} {files : Files} {start : Env} {s : State} {depth fuel : ℕ}
variable {processFile : List Token → CtlM Unit}

lemma Inside.exists_top {base : ℕ} {st} (h : Inside base depth st) :
    ∃ f outer, st = f :: outer ∧ f.active = false ∧ base < st.length := by
  induction h with
  | guard hg hb => exact ⟨_, _, rfl, hg, Nat.lt_succ_of_le hb⟩
  | nested hin _ hf ih =>
    obtain ⟨_, _, _, _, hlt⟩ := ih
    exact ⟨_, _, rfl, hf, Nat.lt_succ_of_lt hlt⟩

lemma Inside.pos {base : ℕ} {st} (h : Inside base depth st) : 1 ≤ depth := by
  cases h <;> omega

variable {c : Conds}

lemma Inside.isActive (h : Inside c.base depth c.stack) : c.isActive = false := by
  obtain ⟨f, outer, hst, hf, -⟩ := h.exists_top
  simp [Conds.isActive, hst, hf]

lemma Inside.ownFrame (h : Inside c.base depth c.stack) : ∃ f, c.ownFrame = some f := by
  obtain ⟨f, outer, hst, -, hlt⟩ := h.exists_top
  exact ⟨f, by rw [Conds.ownFrame, if_pos hlt, hst]; rfl⟩

/-- What the stack is after a directive in an inactive group. At the guard's own depth its
`#endif` may leave anything. -/
def Moved (d : Directive) (depth : ℕ) (c : Conds) : Prop :=
  match d with
  | .hashIf | .hashIfdef | .hashIfndef => Inside c.base (depth + 1) c.stack
  | .hashEndif => 2 ≤ depth → Inside c.base (depth - 1) c.stack
  | _ => Inside c.base depth c.stack

section
variable (h : Inside c.base depth c.stack)
include h

variable (hdepth : 2 ≤ depth)
include hdepth

/-- The second and later arms of a conditional inside the guard. -/
lemma Inside.mapTop {g}
    (hg : ∀ f, f.parentActive = false → (g f).parentActive = false ∧ (g f).active = false) :
    Inside (c.mapTop g).base depth (c.mapTop g).stack := by
  obtain ⟨st, base⟩ := c
  cases h with
  | guard => omega
  | nested hin hp _ => exact .nested hin (hg _ hp).1 (hg _ hp).2

lemma Inside.endif : Inside c.endif.base (depth - 1) c.endif.stack := by
  obtain ⟨st, base⟩ := c
  cases h with
  | guard => omega
  | nested hin _ _ => exact hin

/-- In a conditional inside the guard no second arm can be selected. -/
lemma Inside.parentActive {f : CondFrame} (hf : c.ownFrame = some f) : f.parentActive = false := by
  obtain ⟨st, base⟩ := c
  have hlt : base < st.length := by
    obtain ⟨_, _, _, _, hlt⟩ := h.exists_top
    exact hlt
  cases h with
  | guard => omega
  | nested hin hp _ =>
    rw [Conds.ownFrame, if_pos hlt] at hf
    cases hf
    exact hp

end

/-- What a directive in an inactive group leaves: nothing written, a position on the same
line, and the stack moved as its kind says. -/
def Passed (depth : ℕ) (name : Text) (rest : List Token) (r : Except PreprocessError (List Token))
    (s : State) : Prop :=
  ∃ pos, r = .ok pos ∧ skipToNewline pos = skipToNewline rest ∧
    Moved (directiveOf name) depth s.conds

section
variable (hs : Quiet start s)
include hs

section
variable (hin : Inside s.conds.base depth s.conds.stack)
include hin

lemma meets_inactiveGroup {p} {name : Text} {rest : List Token}
    (hm : Moved (directiveOf name) depth s.conds) :
    Quietly cfg files start
      (Passed depth name rest) (do if ← (EnvM.isActive : CtlM Bool) then p else pure rest) s := by
  refine ⟨hs, ?_⟩
  change Meets _ _ _ (if s.conds.isActive = true then p else pure rest) s
  rw [hin.isActive]
  exact ⟨hs, rest, rfl, rfl, hm⟩

lemma meets_inactiveDirective (name : Text) (line : ℕ) (rest : List Token)
    (hsecond : directiveOf name = .hashElif ∨ directiveOf name = .hashElse → 2 ≤ depth) :
    Quietly cfg files start
      (Passed depth name rest) (directiveEffect cfg fuel processFile name line rest) s := by
  have hopen : Inside (s.conds.pushCond false line).base (depth + 1)
      (s.conds.pushCond false line).stack :=
    .nested hin hin.isActive (by simp)
  obtain ⟨f, hown⟩ := hin.ownFrame
  unfold directiveEffect
  cases hdir : directiveOf name
  case hashIfdef | hashIfndef =>
    refine ⟨hs, ?_⟩
    change Meets _ _ _ (if s.conds.isActive = true then _ else _) s
    rw [hin.isActive]
    exact ⟨hs, hs, rest, rfl, rfl, by rw [hdir]; exact hopen⟩
  case hashIf =>
    refine ⟨hs, ?_⟩
    change Meets _ _ _ (armCondition s.conds.isActive _ >>= _) s
    rw [hin.isActive]
    exact ⟨hs, hs, _, rfl, skipToNewline_skipDirectiveLine rest, by rw [hdir]; exact hopen⟩
  case hashElif =>
    have hdepth : 2 ≤ depth := hsecond (.inl hdir)
    have hparent := hin.parentActive hdepth hown
    have hafter : Inside (s.conds.elifArm false).base depth (s.conds.elifArm false).stack :=
      hin.mapTop hdepth fun f hf => ⟨hf, by simp⟩
    refine ⟨hs, ?_⟩
    change Meets _ _ _ (match s.conds.ownFrame with | none => _ | some frame => _) s
    rw [hown]
    -- The arm cannot be selected, so its condition is not evaluated.
    have hskip : (f.parentActive && !f.taken && !f.elseSeen) = false := by rw [hparent]; rfl
    dsimp only
    rw [hskip]
    have hlast : ∀ s' : State, Quiet start s' → s'.conds = s.conds → Quietly cfg files start
          (Passed depth name rest)
          (do CtlM.op (.elifArm false); pure (skipDirectiveLine rest)) s' := by
      intro s' hs' hc
      refine ⟨hs', hs', _, rfl, skipToNewline_skipDirectiveLine rest, ?_⟩
      rw [hdir]
      change Inside (s'.conds.elifArm false).base depth (s'.conds.elifArm false).stack
      rw [hc]
      exact hafter
    change Meets _ _ _ (if f.elseSeen = true then _ else _) s
    split_ifs
    · refine meets_bind (meets_silent (E := fun _ => False) (silent_warn _ _) hs ?_ ?_)
      · exact fun _ env ht ho _ => hlast _ (hs.withEnv ht ho) rfl
      · exact fun _ _ hfalse => hfalse.elim
    · exact hlast s hs rfl
  case hashElse =>
    have hdepth : 2 ≤ depth := hsecond (.inr hdir)
    refine ⟨hs, ?_⟩
    change Meets _ _ _ (match s.conds.ownFrame with | none => _ | some _ => _) s
    rw [hown]
    refine ⟨hs, hs, rest, rfl, rfl, ?_⟩
    rw [hdir]
    exact hin.mapTop hdepth fun f hf => ⟨hf, by simp [hf]⟩
  case hashEndif =>
    refine ⟨hs, ?_⟩
    change Meets _ _ _ (match s.conds.ownFrame with | none => _ | some _ => _) s
    rw [hown]
    exact ⟨hs, hs, rest, rfl, rfl, by rw [hdir]; exact fun hdepth => hin.endif hdepth⟩
  case hashLine => exact ⟨hs, rest, rfl, rfl, by rw [hdir]; exact hin⟩
  all_goals exact meets_inactiveGroup hs hin (by rw [hdir]; exact hin)

end

lemma meets_check {α : Type} {Q : Except PreprocessError α → State → Prop} {line : ℕ}
    {k : Unit → CtlM α} (he : ∀ e s, Q (.error e) s)
    (hn : ∀ env, Quiet start { s with env } → Quietly cfg files start Q (k ()) { s with env }) :
    Quietly cfg files start Q ((EnvM.checkResourceLimits cfg line : CtlM Unit) >>= k) s := by
  refine meets_bind (meets_silent (silent_checkResourceLimits cfg line) hs ?_ ?_)
  · exact fun _ env ht ho _ => hn env (hs.withEnv ht ho)
  · exact fun e env _ => he e _

lemma Quiet.emitNewline (ht : t.isNewline = true) :
    Quiet start { s with env := s.env.emitToken t } := by
  obtain ⟨htable, n, ho⟩ := hs
  have hkind : t.kind = .newline := by simpa [Token.isNewline] using ht
  have hspace : needsLeadingSpace s.env.output t.kind = false := by
    rw [hkind, needsLeadingSpace]
    split
    · rfl
    · split_ifs <;> rfl
  have hemit : s.env.emitToken t = { s.env with output := s.env.output ++ ['\n'] } := by
    rw [Env.emitToken, isEof_of_isNewline ht, hspace, hkind]
    simp [tokenAsStr]
  rw [hemit]
  exact ⟨htable, n + 1, by rw [ho, append_assoc, replicate_succ']⟩

end

lemma meets_newline {rest : List Token} {lineStart : Bool} (ht : t.isNewline = true)
    (hs : Quiet start s) (hn : ∀ env, Quiet start { s with env } →
      Quietly cfg files start (fun _ _ => True)
      (processTokens cfg fuel true rest) { s with env }) :
    Quietly cfg files start (fun _ _ => True)
      (processTokens cfg (fuel + 1) lineStart (t :: rest)) s := by
  have hname : identName t = none := by
    have hkind : t.kind = .newline := by simpa [Token.isNewline] using ht
    simp [identName, hkind]
  refine meets_check hs (fun _ _ => trivial) fun env hs => ?_
  simp only [isEof_of_isNewline ht, isHash_of_isNewline ht, ht]
  refine ⟨hs, ?_⟩
  change Meets _ _ _ (if s.conds.isActive = true then _ else _) _
  split_ifs
  · rw [textStep, hname]
    exact ⟨hs, hn _ (hs.emitNewline ht)⟩
  · exact hn _ hs

lemma meets_blank (toks : List Token) (lineStart : Bool) (hs : Quiet start s)
    (hb : toks.all endsLine = true) :
    Quietly cfg files start (fun _ _ => True) (processTokens cfg fuel lineStart toks) s := by
  induction fuel generalizing s toks lineStart with
  | zero => exact hs
  | succ fuel ih =>
    cases toks with
    | nil => exact ⟨hs, trivial⟩
    | cons t rest =>
      rw [all_cons, Bool.and_eq_true] at hb
      rcases endsLine_iff.mp hb.1 with hnl | heof
      · exact meets_newline hnl hs fun env hs => ih rest true hs hb.2
      · refine meets_check hs (fun _ _ => trivial) fun env hs => ?_
        rw [if_pos heof]
        exact ⟨hs, trivial⟩

/-- A line's `#` is followed by a name. -/
abbrev Named (rest : List Token) : Prop := (rest.head?.bind identName).isSome = true

/-- The processor leaves the guard's group, if at all, by an `#endif` with only blank lines
after it. -/
def Sealed (lineStart : Bool) (depth : ℕ) (toks : List Token) : Prop :=
  ∀ d after, guardEnd true (if lineStart then .start else .line) depth toks = some (d, after) →
    d = .hashEndif ∧ (skipDirectiveLine after).all endsLine = true

/-- Inside the guard the scan's depth is that of the stack. -/
lemma meets_inside (toks : List Token) (lineStart : Bool) (hs : Quiet start s)
    (hin : Inside s.conds.base depth s.conds.stack) (hsealed : Sealed lineStart depth toks)
    (hnamed : EveryHash Named lineStart toks) :
    Quietly cfg files start (fun _ _ => True) (processTokens cfg fuel lineStart toks) s := by
  induction fuel generalizing s toks lineStart depth with
  | zero => exact hs
  | succ fuel ih =>
    cases toks with
    | nil => exact ⟨hs, trivial⟩
    | cons t rest =>
      refine meets_check hs (fun _ _ => trivial) fun env hs => ?_
      split_ifs with heof hdirective
      · exact ⟨hs, trivial⟩
      · obtain ⟨hhash, rfl⟩ := Bool.and_eq_true_iff.mp hdirective
        obtain ⟨word, after, name, rfl, hname⟩ : ∃ word after name, rest = word :: after ∧
            identName word = some name := by
          obtain ⟨name, hname⟩ := Option.isSome_iff_exists.mp (hnamed.head hhash)
          cases rest with
          | nil => cases hname
          | cons word after => exact ⟨word, after, name, rfl, hname⟩
        have hbelow : EveryHash Named true (skipToNewline after) := hnamed.tail.tail.skipToNewline
        rw [Sealed, if_pos rfl, guardEnd_cons .start nofun, if_neg heof,
          if_neg (by simp [isNewline_of_isHash hhash]), if_pos (by simp [hhash]),
          guardEnd_directive hname] at hsealed
        -- a second arm would end the guard's group
        have hsecond : directiveOf name = .hashElif ∨ directiveOf name = .hashElse → 2 ≤ depth := by
          intro hdir
          by_contra hdepth
          obtain rfl : depth = 1 := by have := hin.pos; omega
          rcases hdir with hdir | hdir <;> simp [hdir] at hsealed
        simp only [handleDirective, skipNewlines_of_identName hname, hname]
        refine meets_bind (meets_bind ((meets_inactiveDirective hs hin name word.line after
          hsecond).mono fun r s' hs' hpassed => ?_))
        obtain ⟨pos, rfl, hpos, hmoved⟩ := hpassed
        refine ⟨hs', ?_⟩
        rw [hpos]
        have hgo : ∀ depth', Inside s'.conds.base depth' s'.conds.stack →
            (∀ d later, guardEnd true .line depth' after = some (d, later) →
              d = .hashEndif ∧ (skipDirectiveLine later).all endsLine = true) →
            Quietly cfg files start
              (fun _ _ => True) (processTokens cfg fuel true (skipToNewline after)) s' := by
          intro depth' hin' hsealed'
          rw [guardEnd_line] at hsealed'
          exact ih _ true hs' hin' hsealed' hbelow
        cases hdir : directiveOf name <;> simp only [hdir] at hmoved hsealed
        case hashIf | hashIfdef | hashIfndef => exact hgo _ hmoved hsealed
        case hashElif | hashElse =>
          have hne : depth ≠ 1 := by have := hsecond (by simp [hdir]); omega
          rw [if_neg hne] at hsealed
          exact hgo depth hmoved hsealed
        case hashEndif =>
          split_ifs at hsealed with hone
          · exact meets_blank _ _ hs' (all_endsLine_skipToNewline (hsealed _ _ rfl).2)
          · exact hgo _ (hmoved (by have := hin.pos; omega)) hsealed
        all_goals exact hgo depth hmoved hsealed
      · refine ⟨hs, ?_⟩
        change Meets _ _ _ (if s.conds.isActive = true then _ else _) _
        rw [hin.isActive]
        refine ih rest t.isNewline hs hin ?_ hnamed.tail
        have hmode : (if lineStart then ScanMode.start else .line) ≠ .name := by
          cases lineStart <;> nofun
        rw [Sealed, guardEnd_cons _ hmode, if_neg heof] at hsealed
        cases hnl : t.isNewline
        · rw [if_neg (by simp [hnl]), if_neg (by cases lineStart <;> simp_all)] at hsealed
          exact hsealed
        · rw [if_pos hnl] at hsealed
          exact hsealed

end Inside

/-! ## The guard's opener -/

/-- A guard of this form keeps a file from being expanded again: the file said so once and
for all, or the guard's name has a real definition. -/
def Env.suppresses (env : Env) : FileGuard → Bool
  | .once => true
  | .ifndef name => (env.table.macros name).isSome && !env.table.fallbacks name

/-- May a repeated inclusion of the file be skipped? -/
def Env.guardSuppresses (env : Env) (file : Text) : Bool := (env.fileGuards file).any env.suppresses

lemma binding_of_suppresses {env : Env} {name : Text} (h : env.suppresses (.ifndef name) = true) :
    ∃ definition, env.table.binding name = some (definition, false) := by
  simp only [Env.suppresses, Bool.and_eq_true, Option.isSome_iff_exists, Bool.not_eq_true'] at h
  obtain ⟨⟨definition, hdef⟩, hf⟩ := h
  exact ⟨definition, by simp [Expansion.MacroEnv.binding, hdef, hf]⟩

section Opener
variable {cfg : Setting} {active : Bool} {env : Env} {name : Text}

lemma run_isDefined (h : env.suppresses (.ifndef name) = true) :
    run (cfg.text active) (isDefinedForConditionals name) env =
      (.ok true, env.recordRead cfg name) := by
  obtain ⟨definition, hb⟩ := binding_of_suppresses h
  have hanswer : (EnvOp.handle cfg active (.read name) env).1 = some (definition, false) := hb
  refine (run_perform (cfg.text active) (.read name) _ env).trans ?_
  rw [hanswer]
  rfl

lemma exists_of_negatedDefinedName (h : negatedDefinedName toks = some name) :
    ∃ bang word tail, toks = bang :: word :: tail ∧ bang.kind = .punct .bang ∧
      word.kind = .identifier definedName ∧ definedOperand tail = (some name, tail.length + 1) ∧
      tail.length ≤ 3 := by
  unfold negatedDefinedName at h
  split at h
  case h_2 => cases h
  next bang word rest =>
  split_ifs at h with hshape
  rw [Bool.and_eq_true] at hshape
  refine ⟨bang, word, rest, rfl, by simpa [Token.isPunct] using hshape.1,
    by simpa [Token.isIdent] using hshape.2, ?_⟩
  split at h
  · next t =>
    have hparen : t.isPunct .lparen = false := by
      simp only [identName] at h
      split at h
      · next hk => simp [Token.isPunct, hk]
      · cases h
    simp [definedOperand, hparen, h]
  · next opening t closing =>
    split_ifs at h with hp
    rw [Bool.and_eq_true] at hp
    simp [definedOperand, hp.1, hp.2, h]
  · cases h

lemma run_negatedDefined (hname : negatedDefinedName toks = some name)
    (h : env.suppresses (.ifndef name) = true) :
    (run (cfg.text active) (expandAndEvalCondition toks) env).1 = .ok false := by
  obtain ⟨bang, word, tail, rfl, hb, hw, ho, hlen⟩ := exists_of_negatedDefinedName hname
  have hexpand : expandConditionTokens (bang :: word :: tail) = (do
      let val ← isDefinedForConditionals name
      pure (some [bang, Token.new (.number (if val then ['1'] else ['0']))
        word.line word.col])) := by
    have hbangName : identName bang = none := by simp [identName, hb]
    have hwordName : identName word = some definedName := by simp [identName, hw]
    have hfits : ∀ n, n ≤ 5 → ¬ maxConditionTokens < n := by
      simp only [maxConditionTokens]
      omega
    change expandConditionTokensFrom (1048574 + 1 + 1) 0 [] (bang :: word :: tail) = _
    rw [expandConditionTokensFrom, if_neg (by
      rintro (hover | hover)
      · exact hfits _ (by simp only [length_cons]; omega) hover
      · exact hfits _ (by simp) hover)]
    simp only [hbangName]
    rw [expandConditionTokensFrom, if_neg (by
      rintro (hover | hover)
      · exact hfits _ (by omega) hover
      · exact hfits _ (by simp) hover)]
    simp only [hwordName, ho, Nat.add_sub_cancel, drop_length]
    rfl
  have hvalue : evalPpTokens [bang, Token.new (.number ['1']) word.line word.col] = false := by
    obtain ⟨kind⟩ := bang
    subst hb
    rfl
  have hrun : run (cfg.text active) (isDefinedForConditionals name)
      env = (.ok true, env.recordRead cfg name) := run_isDefined h
  rw [expandAndEvalCondition, hexpand, bind_assoc, run_bind_ok _ hrun]
  exact congrArg Ending.ok hvalue

end Opener

/-- A guard's opening directive: it tests `name`. -/
def OpensGuard (name keyword : Text) (rest : List Token) : Prop :=
  (directiveOf keyword = .hashIfndef ∧ rest.head?.bind identName = some name) ∨
    (directiveOf keyword = .hashIf ∧ negatedDefinedName (directiveRest rest) = some name)

/-- What a file with a guard looks like. -/
lemma exists_of_detectIncludeGuard {name : Text} (h : detectIncludeGuard toks = some name) :
    ∃ hash word rest keyword, skipNewlines toks = hash :: word :: rest ∧ hash.isHash = true ∧
      identName word = some keyword ∧ OpensGuard name keyword rest ∧
      guardOpener toks = some (name, skipDirectiveLine rest) ∧
      guardCloses (toks.length + 1) 1 (skipDirectiveLine rest) = true := by
  simp only [detectIncludeGuard, Option.bind_eq_some_iff, Prod.exists] at h
  obtain ⟨name', line, hopener, keyword', after, hnext, hif⟩ := h
  split_ifs at hif with hdefine
  cases hif
  obtain ⟨hd, -, hcloses⟩ := hdefine
  have hopens := hopener
  unfold guardOpener at hopens
  split at hopens
  case h_2 => cases hopens
  next hash word rest hskip =>
  split_ifs at hopens with hhash
  simp only [Option.bind_eq_some_iff, Option.map_eq_some_iff] at hopens
  obtain ⟨keyword, hword, _, htested, heq⟩ := hopens
  obtain ⟨rfl, rfl⟩ := Prod.mk.inj heq
  refine ⟨hash, word, rest, keyword, hskip, hhash, hword, ?_, hopener, ?_⟩
  · cases hdir : directiveOf keyword <;> rw [hdir] at htested
    case hashIfndef => exact .inl ⟨hdir, htested⟩
    case hashIf => exact .inr ⟨hdir, htested⟩
    all_goals cases htested
  · rw [guardCloses, hnext, Option.any_some, guardStep, hd]
    exact hcloses

/-- Where both scans end at one directive, the guard's group holds all that is not blank. -/
lemma sealed_of_detectIncludeGuard {name : Text} {rest : List Token}
    (hopener : guardOpener toks = some (name, skipDirectiveLine rest))
    (hcloses : guardCloses (toks.length + 1) 1 (skipDirectiveLine rest) = true)
    (hscan : processorEnd toks = none ∨ processorEnd toks = detectorEnd toks) :
    Sealed true 1 (skipToNewline rest) := by
  intro d after hend
  obtain ⟨later, hdetector, hblank⟩ := guardEnd_of_guardCloses hcloses
  simp only [processorEnd, detectorEnd, hopener, Option.bind_some, hdetector,
    guardEnd_skipDirectiveLine] at hscan
  rw [if_pos rfl] at hend
  rw [hend] at hscan
  rcases hscan with hnone | hsame
  · cases hnone
  · obtain ⟨rfl, rfl⟩ := Prod.mk.inj (Option.some.inj hsame)
    exact ⟨rfl, hblank⟩

section Opening
variable {cfg : Setting} {files : Files} {start : Env} {s : State} {fuel : ℕ}
variable {processFile : List Token → CtlM Unit} {name keyword : Text} {rest : List Token}

/-- The guard's opener in a state that has its name defined: its arm is not taken. -/
lemma meets_opener (hopens : OpensGuard name keyword rest) (hs : Quiet start s)
    (hdef : start.suppresses (.ifndef name) = true) (hb : s.conds.base ≤ s.conds.stack.length)
    (line : ℕ) :
    Quietly cfg files start
      (fun r s' => ∃ pos, r = .ok pos ∧ skipToNewline pos = skipToNewline rest ∧
        Inside s'.conds.base 1 s'.conds.stack)
      (directiveEffect cfg fuel processFile keyword line rest) s := by
  have hdefined : s.env.suppresses (.ifndef name) = true := by
    rw [Env.suppresses, hs.1]
    exact hdef
  have hinside : Inside (s.conds.pushCond false line).base 1 (s.conds.pushCond false line).stack :=
    .guard (by simp) hb
  unfold directiveEffect
  rcases hopens with ⟨hdir, hoperand⟩ | ⟨hdir, hoperand⟩ <;> rw [hdir]
  · refine ⟨hs, ?_⟩
    change Meets _ _ _ (if s.conds.isActive = true then _ else _) s
    split_ifs
    · obtain ⟨t, after, rfl, hn⟩ : ∃ t after, rest = t :: after ∧ identName t = some name := by
        cases rest with
        | nil => cases hoperand
        | cons t after => exact ⟨t, after, rfl, hoperand⟩
      have hread : readDirectiveIdent (t :: after) = pure (name, after) := by
        simp [readDirectiveIdent, skipNewlines_of_identName hn, hn]
      rw [hread]
      refine meets_op hs (meets_bind ?_)
      refine meets_silent (E := fun _ => False) (silent_isDefinedForConditionals name) hs
        (fun defined env ht ho hrun => ?_) fun _ _ hf => hf.elim
      obtain rfl : true = defined :=
        Ending.ok.inj ((congrArg Prod.fst (run_isDefined hdefined)).symm.trans hrun)
      refine ⟨hs.withEnv ht ho, hs.withEnv ht ho, after, rfl, ?_, hinside⟩
      rw [skipToNewline_cons (endsLine_of_identName hn)]
    · exact ⟨hs, hs, rest, rfl, rfl, hinside⟩
  · refine ⟨hs, ?_⟩
    change Meets _ _ _ (armCondition s.conds.isActive _ >>= _) s
    cases ha : s.conds.isActive
    · exact ⟨hs, hs, _, rfl, skipToNewline_skipDirectiveLine rest, hinside⟩
    refine ⟨hs, meets_bind (meets_silent (E := fun _ => False) (silent_expandAndEvalCondition _)
      hs (fun cond env ht ho hrun => ?_) fun _ _ hf => hf.elim)⟩
    obtain rfl : false = cond :=
      Ending.ok.inj ((run_negatedDefined hoperand hdefined).symm.trans hrun)
    have hs' := hs.withEnv ht ho
    exact ⟨hs', hs', _, rfl, skipToNewline_skipDirectiveLine rest, hinside⟩

variable (toks : List Token)

/-- Up to the opener there are only newlines. -/
lemma meets_guarded (hs : Quiet start s) (hdef : start.suppresses (.ifndef name) = true)
    (hb : s.conds.base ≤ s.conds.stack.length) {hash word : Token}
    (hskip : skipNewlines toks = hash :: word :: rest) (hh : hash.isHash = true)
    (hw : identName word = some keyword) (hopens : OpensGuard name keyword rest)
    (hsealed : Sealed true 1 (skipToNewline rest)) (hp : EveryHash Named true toks) :
    Quietly cfg files start (fun _ _ => True) (processTokens cfg fuel true toks) s := by
  induction fuel generalizing s toks with
  | zero => exact hs
  | succ fuel ih =>
    cases toks with
    | nil => cases hskip
    | cons t rest' =>
      cases hnl : t.isNewline with
      | true =>
        have hsk' : skipNewlines rest' = hash :: word :: rest := by
          simpa [skipNewlines, hnl] using hskip
        exact meets_newline hnl hs fun env hs => ih rest' hs hb hsk' (hnl ▸ hp.tail)
      | false =>
        obtain ⟨rfl, rfl⟩ : t = hash ∧ rest' = word :: rest := by
          simpa [skipNewlines, hnl] using hskip
        refine meets_check hs (fun _ _ => trivial) fun env hs => ?_
        rw [if_neg (by simp [isEof_of_isHash hh]), if_pos (by simp [hh])]
        simp only [handleDirective, skipNewlines_of_identName hw, hw]
        refine meets_bind (meets_bind ((meets_opener hopens hs hdef hb word.line).mono
          fun r s' hs' ho => ?_))
        obtain ⟨pos, rfl, hpos, hin⟩ := ho
        refine ⟨hs', ?_⟩
        rw [hpos]
        exact meets_inside _ true hs' hin hsealed hp.tail.tail.skipToNewline

lemma meets_fileBracket_quiet {process} (hs : Quiet start s)
    (hp : ∀ s' : State, Quiet start s' → s'.conds.base = s'.conds.stack.length →
      Quietly cfg files start (fun _ _ => True) (process toks) s') :
    Quietly cfg files start (fun _ _ => True) (fileBracket process toks) s := by
  have hguard : ∀ guard : Option Text, (guard.elim s.env s.env.recordGuard).table = s.env.table ∧
      (guard.elim s.env s.env.recordGuard).output = s.env.output := by
    intro guard
    cases guard with
    | none => exact ⟨rfl, rfl⟩
    | some name =>
      simp only [Env.recordGuard]
      split_ifs <;> exact ⟨rfl, rfl⟩
  obtain ⟨htable, houtput⟩ := hguard (detectIncludeGuard toks)
  have hentered :
      Quiet start (ControlOp.handle cfg files (.enterFile (detectIncludeGuard toks)) s).2 :=
    hs.withEnv htable houtput
  refine meets_op hs (meets_bind (meets_attempt ?_))
  refine (hp _ hentered rfl).mono fun result s' hs' _ => ?_
  refine meets_op hs' ?_
  have hlast : ∀ s'' : State, Quiet start s'' → Quietly cfg files start (fun _ _ => True)
      (do CtlM.op (.truncate s.conds.stack.length); Program.ofExcept result : CtlM Unit) s'' :=
    fun _ hs'' => meets_op hs'' (meets_ofExcept hs'' trivial)
  cases result with
  | error e => exact hlast _ hs'
  | ok _ =>
    refine meets_op hs' (meets_bind ?_)
    refine meets_silent (E := fun _ => True) ?_ hs' (fun _ env ht ho _ => ?_) fun _ _ _ => trivial
    · exact silent_reportUnterminated _
    · exact hlast _ (Quiet.withEnv hs' ht ho)

end Opening

/-- The tokens of a file with an include guard, in a state where the guard's name has a real
definition, write nothing but newlines and define nothing, if each `#` at a line start is
followed by a name and the processor leaves the guard's group, if at all, where the detector
ends. So does a file that is skipped for a guard on record. -/
theorem processFileTokens_of_guard (cfg : Setting) (files : Files) (toks : List Token)
    (name : Text) (s : State) (hguard : detectIncludeGuard toks = some name)
    (hnamed : EveryHash Named true toks)
    (hscan : processorEnd toks = none ∨ processorEnd toks = detectorEnd toks)
    (hdef : s.env.suppresses (.ifndef name) = true ∨
      ∃ file, s.env.fileGuards file = some (.ifndef name) ∧ s.env.guardSuppresses file = true) :
    (run (I := controlInterface) (ControlOp.handle cfg files)
        (processFileTokens cfg toks) s).2.env.table = s.env.table ∧
    ∃ n, (run (I := controlInterface) (ControlOp.handle cfg files)
        (processFileTokens cfg toks) s).2.env.output =
      s.env.output ++ List.replicate n '\n' := by
  have hsuppresses : s.env.suppresses (.ifndef name) = true := by
    rcases hdef with hdef | ⟨file, hrecord, hskip⟩
    · exact hdef
    · simpa [Env.guardSuppresses, hrecord] using hskip
  obtain ⟨hash, word, rest, keyword, hskip, hhash, hword, hopens, hopener, hcloses⟩ :=
    exists_of_detectIncludeGuard hguard
  have hsealed := sealed_of_detectIncludeGuard hopener hcloses hscan
  have hquiet : Quiet s.env s := ⟨rfl, 0, by simp⟩
  exact (meets_fileBracket_quiet toks hquiet fun s' hs' hbase => meets_guarded toks hs' hsuppresses
    (Nat.le_of_eq hbase) hskip hhash hword hopens hsealed hnamed).always.last

section Examples
open Token

def guardName : Text := "N".toList

/-- `#ifndef N`, `#define N`, `#if A`, `int x;`, `#else`, `int y;`, `#endif` and
`#endif # ifdef X`, a line each. The detector does not read on after its last `#endif`. -/
def guardedFile : List Token :=
  [hash, ident "ifndef", ident "N", newline, hash, ident "define", ident "N", newline,
    hash, ident "if", ident "A", newline, ident "int", ident "x", mark .semi, newline,
    hash, ident "else", newline, ident "int", ident "y", mark .semi, newline,
    hash, ident "endif", newline, hash, ident "endif", hash, ident "ifdef", ident "X", newline]

theorem processFileTokens_guardedFile : ∃ n,
    (run (I := controlInterface) (ControlOp.handle .small .none)
      (processFileTokens .small guardedFile) (.binding [guardName])).2.env.output =
        List.replicate n '\n' :=
  (processFileTokens_of_guard .small .none guardedFile guardName (.binding [guardName])
    (by decide) (by decide) (by decide) (.inl (by decide))).2

/-- The detector reads the second `#` of `#pragma # ifdef X` as a directive and so takes the
last `#endif` for the one of the guard; the processor leaves the guard one `#endif` earlier. -/
def leakingFile : List Token :=
  [hash, ident "ifndef", ident "N", newline, hash, ident "define", ident "N", newline,
    hash, ident "pragma", hash, ident "ifdef", ident "X", newline, hash, ident "endif", newline,
    ident "int", ident "leaked", mark .semi, newline, hash, ident "endif", newline]

theorem processFileTokens_leakingFile :
    detectIncludeGuard leakingFile = some guardName ∧ EveryHash Named true leakingFile ∧
    (State.binding [guardName]).env.suppresses (.ifndef guardName) = true ∧
    (run (I := controlInterface) (ControlOp.handle .small .none)
      (processFileTokens .small leakingFile) (.binding [guardName])).2.env.output =
        "int leaked ;\n".toList := by
  decide

end Examples
end Pathologist.Preproc

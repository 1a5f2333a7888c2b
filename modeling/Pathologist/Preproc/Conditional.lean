import Pathologist.Preproc.Blocks
import Pathologist.Preproc.Budget

/-!
# Conditional chains

The main loop keeps one stack of frames for all files that are being processed, through a moving
base, and six directives change it. It does what the walk over the blocks of the token stream does:
the same operations in the same order, with the same result, and it leaves the stack and its base
as it found them. The frames above the base stand for the chains that the file has open.
-/
namespace Pathologist.Preproc
open Lib Lib.Program List

/-- What an operation of the main loop is to a walk; the stack is no part of one. -/
def ControlOp.entry (active : Bool) : ControlOp → Option BlockOp
  | env o => if o.logged then some (.env active o) else none
  | beginReads => some .beginReads
  | enterFile guard => some (.enterFile guard)
  | openInclude path quoted line => some (.openInclude path quoted line)
  | closeInclude line result => some (.closeInclude line result)
  | _ => none

def ControlOp.note (o : ControlOp) (s : State) (log : List BlockOp) : List BlockOp :=
  (o.entry s.conds.isActive).elim log fun entry => log ++ [entry]

/-- The main loop's operations, with a log of what they are to a walk. -/
def observed (cfg : Setting) (files : Files) : Handler controlInterface (State × List BlockOp) :=
  watch (cfg.control files) ControlOp.note

/-! ## Frames and chains -/

/-- The frame of a chain whose surroundings are active or not. -/
structure Fits (around : Bool) (c : Chain) (f : CondFrame) : Prop where
  parentActive : f.parentActive = around
  active : f.active = (around && c.selected)
  taken : f.taken = c.arms.any Arm.holds
  elseSeen : f.elseSeen = c.arms.any Arm.isElse
  line : f.line = c.line

def activeOf (stack : List CondFrame) : Bool := stack.head?.all CondFrame.active

/-- A stack is the includer's with one fitting frame on top for each chain. -/
inductive Stands (outer : List CondFrame) : List Chain → List CondFrame → Prop
  | outer : Stands outer [] outer
  | frame {cs : List Chain} {st : List CondFrame} {c : Chain} {f : CondFrame} :
    Stands outer cs st → Fits (activeOf st) c f → Stands outer (c :: cs) (f :: st)

namespace Stands
variable {outer st : List CondFrame} {cs : List Chain}

lemma length_eq (h : Stands outer cs st) : st.length = cs.length + outer.length := by
  induction h with
  | outer => simp
  | frame _ _ ih => simp only [length_cons]; omega

/-- The innermost frame is active exactly if every chain's current arm is selected. -/
lemma activeOf_eq (h : Stands outer cs st) : activeOf st = Walk.activeIn (activeOf outer) cs := by
  unfold Walk.activeIn
  induction h with
  | outer => simp
  | @frame cs st c f hr hfit ih =>
    have hf : activeOf (f :: st) = f.active := rfl
    rw [hf, hfit.active, ih, all_cons]
    cases activeOf outer <;> cases c.selected <;> simp

/-- A file's own frames stand on its includer's stack as it was. -/
lemma drop_own (h : Stands outer cs st) : st.drop cs.length = outer := by
  induction h with
  | outer => rfl
  | frame _ _ ih => exact ih

lemma lines_eq (h : Stands outer cs st) :
    (st.take cs.length).map CondFrame.line = cs.map Chain.line := by
  induction h with
  | outer => simp
  | frame _ hfit ih => simp [hfit.line, ih]

end Stands

lemma Arm.holds_of_isElse {a : Arm} (h : a.isElse = true) : a.holds = true := by
  cases a with
  | cond => cases h
  | otherwise => rfl

variable {c : Chain} {around : Bool} {f : CondFrame}

/-- A frame whose chain has an `#else` arm has an arm that holds. -/
lemma Fits.taken_of_elseSeen (h : Fits around c f) (he : f.elseSeen = true) : f.taken = true := by
  rw [h.elseSeen, any_eq_true] at he
  obtain ⟨a, ha, helse⟩ := he
  rw [h.taken, any_eq_true]
  exact ⟨a, ha, Arm.holds_of_isElse helse⟩

/-- An arm can be selected: what the frame says of it. -/
lemma Fits.evaluate_eq (h : Fits around c f) :
    (f.parentActive && !f.taken && !f.elseSeen) = (around && !c.arms.any Arm.holds) := by
  rw [h.parentActive, ← h.taken]
  cases helse : f.elseSeen
  · simp
  · simp [h.taken_of_elseSeen helse]

lemma Fits.openArm (around : Bool) {value : Option Bool} (line : ℕ)
    (hvalue : around = false → value = none) :
    Fits around ⟨line, .cond value, []⟩
      { parentActive := around, active := around && (value == some true),
        taken := around && (value == some true), elseSeen := false, line } where
  parentActive := rfl
  active := by simp [Chain.selected, Arm.holds]
  taken := by cases around <;> simp_all [Chain.arms, Arm.holds]
  elseSeen := rfl
  line := rfl

lemma Fits.elifArm (h : Fits around c f) {value : Option Bool}
    (hvalue : (around && !c.arms.any Arm.holds) = false → value = none) :
    Fits around (c.addArm (.cond value))
      { f with
        active := f.parentActive && !f.taken && (value == some true)
        taken := f.taken || (f.parentActive && !f.taken && (value == some true)) } where
  parentActive := h.parentActive
  active := by
    simp only [Chain.selected, Chain.addArm, Arm.holds, h.parentActive, h.taken]
    cases around <;> cases c.arms.any Arm.holds <;> simp
  taken := by
    have harms : (c.addArm (.cond value)).arms.any Arm.holds =
        ((value == some true) || c.arms.any Arm.holds) := rfl
    simp only [harms, h.parentActive, h.taken]
    generalize c.arms.any Arm.holds = taken at hvalue ⊢
    cases around <;> cases taken <;> simp_all
  elseSeen := by simp [Chain.addArm, Chain.arms, Arm.isElse, h.elseSeen]
  line := h.line

lemma Fits.elseArm (h : Fits around c f) : Fits around (c.addArm .otherwise)
      { f with active := f.parentActive && !f.taken, taken := true, elseSeen := true } where
  parentActive := h.parentActive
  active := by simp [Chain.selected, Chain.addArm, Arm.holds, h.parentActive, h.taken]
  taken := by simp [Chain.addArm, Chain.arms, Arm.holds]
  elseSeen := by simp [Chain.addArm, Chain.arms, Arm.isElse]
  line := h.line

/-- The conditionals inside a file with the open chains `chains`, whose includers left the stack
`below`. -/
structure InFile (below : List CondFrame) (chains : List Chain) (conds : Conds) : Prop where
  base : conds.base = below.length
  stack : Stands below chains conds.stack

section Tracks
variable {cfg : Setting} {files : Files} {below : List CondFrame} {chains : List Chain}
variable {conds : Conds} {α β : Type}

variable (cfg files) in
/-- A program of the main loop and one of a walk end alike, in states that meet `Q`. -/
abbrev Alike (Q : Except PreprocessError (α × β) → State × List BlockOp → Env × List BlockOp → Prop)
    (p : CtlM α) (q : BlockM β) (w : State × List BlockOp) (v : Env × List BlockOp) : Prop :=
  Refines (observed cfg files) (Walk.handler cfg files) Q p q w v

lemma InFile.isActive (h : InFile below chains conds) :
    conds.isActive = Walk.activeIn (activeOf below) chains := h.stack.activeOf_eq

variable (below) in
/-- The same result, environment and log, and a stack that stands for the chains. -/
def Keeps : Except PreprocessError (α × (α × List Chain)) → State × List BlockOp →
    Env × List BlockOp → Prop
  | .ok (a, b), w, v => a = b.1 ∧ v = (w.1.env, w.2) ∧ InFile below b.2 w.1.conds
  | .error _, w, v => v = (w.1.env, w.2) ∧ ∃ chains, InFile below chains w.1.conds

variable (cfg files below conds) in
/-- From these conditionals the main loop's program does what the walk's does. -/
def Tracks (p : CtlM α) (q : BlockM (α × List Chain)) : Prop :=
  ∀ env log, Alike cfg files (Keeps below) p q (⟨env, conds⟩, log) (env, log)

variable (cfg files below) in
/-- Inside a file the main loop's program does what the walk does. -/
def Follows (p : CtlM α) (m : Walk α) : Prop :=
  ∀ conds chains, InFile below chains conds → Tracks cfg files below conds p (m.run chains)

lemma InFile.pure (h : InFile below chains conds) (a : α) :
    Tracks cfg files below conds (pure a) ((pure a : Walk α).run chains) :=
  fun _ _ => ⟨rfl, rfl, h⟩

lemma Follows.pure (a : α) : Follows cfg files below (pure a) (pure a) := fun _ _ h => h.pure a

lemma Follows.bind {p : CtlM α} {m : Walk α} {f : α → CtlM β} {g : α → Walk β}
    (hp : Follows cfg files below p m) (hf : ∀ a, Follows cfg files below (f a) (g a)) :
    Follows cfg files below (p >>= f) (m >>= g) := by
  intro conds chains h env log
  refine refines_bind ((hp conds chains h env log).mono fun r w v hr => ?_)
  obtain e | ⟨a, b⟩ := r
  · exact hr
  · obtain ⟨rfl, rfl, hin⟩ := hr
    exact hf b.1 _ _ hin _ _

/-- An operation of the text processor does the same in both. -/
lemma alike_env {Q} (o : EnvOp) {f : o.Answer → CtlM α} {g : o.Answer → BlockM β}
    (hf : ∀ a env log, Alike cfg files Q (f a) (g a) (⟨env, conds⟩, log) (env, log)) (env : Env)
    (log : List BlockOp) : Alike cfg files Q
      (perform (I := controlInterface) (ControlOp.env o) f)
      (perform (I := blockInterface) (BlockOp.env conds.isActive o) g)
      (⟨env, conds⟩, log) (env, log) := by
  have hlog : ControlOp.note (.env o) ⟨env, conds⟩ log =
      if (BlockOp.env conds.isActive o).logged then log ++ [.env conds.isActive o] else log := by
    by_cases ho : o.logged = true <;> simp [ControlOp.note, ControlOp.entry, BlockOp.logged, ho]
  change Alike cfg files Q _ _ (⟨_, conds⟩, ControlOp.note (.env o) ⟨env, conds⟩ log) _
  rw [hlog]
  exact hf _ _ _

/-- A program of the text processor changes neither the stack nor the chains. -/
lemma InFile.text (h : InFile below chains conds) (p : EnvM α) {f : α → CtlM β} {g : α → Walk β}
    (hf : ∀ a, Tracks cfg files below conds (f a) ((g a).run chains)) :
    Tracks cfg files below conds (CtlM.lift p >>= f)
      ((Walk.text (activeOf below) p >>= g).run chains) := by
  rw [Walk.run_text_bind, ← h.isActive]
  induction p with
  | done a => exact hf a
  | fail e => exact fun env log => ⟨rfl, rfl, chains, h⟩
  | exhausted => exact fun env log => trivial
  | perform o next ih => exact alike_env o ih

/-- The loop asks its stack, the walk its chains. -/
lemma InFile.ifActive (h : InFile below chains conds) {f : Bool → CtlM α} {g : Bool → Walk α}
    (hf : Tracks cfg files below conds (f (Walk.activeIn (activeOf below) chains))
      ((g (Walk.activeIn (activeOf below) chains)).run chains)) :
    Tracks cfg files below conds (do f (← (EnvM.isActive : CtlM Bool)))
      ((Walk.isActive (activeOf below) >>= g).run chains) := by
  intro env log
  change Alike cfg files (Keeps below) (f conds.isActive) _ (⟨env, conds⟩, log) _
  rw [h.isActive]
  exact hf env log

lemma tracks_beginReads {f : Unit → CtlM α} {g : Unit → Walk α}
    (hf : Tracks cfg files below conds (f ()) ((g ()).run chains)) :
    Tracks cfg files below conds (CtlM.op .beginReads >>= f)
      ((Walk.op .beginReads >>= g).run chains) :=
  fun env log => hf env (log ++ [BlockOp.beginReads])

lemma some_beq_some_true (b : Bool) : (some b == some true) = b := by cases b <;> rfl

/-- A condition is evaluated if it should be, and counts as false otherwise. -/
lemma InFile.condition (h : InFile below chains conds) {evaluate : Bool} {toks : List Token}
    {f : Bool → CtlM α} {g : Option Bool → Walk α}
    (hf : ∀ value, (evaluate = false → value = none) →
      Tracks cfg files below conds (f (value == some true)) ((g value).run chains)) :
    Tracks cfg files below conds (armCondition evaluate toks >>= f)
      ((Walk.armValue (activeOf below) evaluate toks >>= g).run chains) := by
  cases evaluate with
  | false => exact hf none fun _ => rfl
  | true =>
    change Tracks cfg files below conds
      ((CtlM.op .beginReads >>= fun _ => CtlM.lift (expandAndEvalCondition toks)) >>= f)
      (((Walk.op .beginReads >>= fun _ => do
        return some (← Walk.text (activeOf below) (expandAndEvalCondition toks))) >>= g).run chains)
    rw [bind_assoc, bind_assoc]
    refine tracks_beginReads ?_
    rw [bind_assoc]
    refine h.text _ fun cond => ?_
    have hcond := hf (some cond) nofun
    rwa [some_beq_some_true] at hcond

/-- A new chain. -/
lemma InFile.openArm (h : InFile below chains conds) (line : ℕ) {value : Option Bool}
    {cond : Bool} (hcond : (value == some true) = cond)
    (hvalue : Walk.activeIn (activeOf below) chains = false → value = none) {f : Unit → CtlM α}
    {q : BlockM (α × List Chain)}
    (hf : ∀ conds', InFile below (⟨line, .cond value, []⟩ :: chains) conds' →
      Tracks cfg files below conds' (f ()) q) :
    Tracks cfg files below conds (CtlM.op (.openArm cond line) >>= f) q := by
  subst hcond
  have hin : InFile below (⟨line, .cond value, []⟩ :: chains)
      (conds.pushCond (value == some true) line) := by
    refine ⟨h.base, .frame h.stack ?_⟩
    exact Fits.openArm (activeOf conds.stack) line (by rw [h.stack.activeOf_eq]; exact hvalue)
  exact fun env log => hf _ hin env log

lemma follows_handleIf (line : ℕ) (rest : List Token) :
    Follows cfg files below (handleIf line rest) (Walk.openIf (activeOf below) line rest) := by
  intro conds chains h
  refine h.ifActive (h.condition fun value hvalue => ?_)
  exact h.openArm line rfl hvalue fun conds' hin => hin.pure _

lemma follows_handleIfdef (negate : Bool) (line : ℕ) (rest : List Token) :
    Follows cfg files below (handleIfdef negate line rest)
      (Walk.openIfdef (activeOf below) negate line rest) := by
  intro conds chains h
  refine h.ifActive ?_
  split_ifs with hactive
  · refine h.text _ fun operand => tracks_beginReads (h.text _ fun defined => ?_)
    refine h.openArm line (some_beq_some_true _) (by simp [hactive]) fun conds' hin => ?_
    exact hin.pure operand.2
  · exact h.openArm line (rfl : (none == some true) = false) (fun _ => rfl)
      fun conds' hin => hin.pure rest

/-! ## `#elif`, `#else` and `#endif` -/

/-- Without a chain of its own a file has no frame, whatever its includers have open. -/
lemma InFile.ownFrame_nil (h : InFile below [] conds) : conds.ownFrame = none := by
  have hlen := h.stack.length_eq
  exact if_neg (by rw [h.base]; simp at hlen; omega)

lemma InFile.ownFrame_cons {c : Chain} (h : InFile below (c :: chains) conds) :
    ∃ f st, conds.stack = f :: st ∧ conds.ownFrame = some f ∧ Stands below chains st ∧
      Fits (activeOf st) c f := by
  have hlt : conds.base < conds.stack.length := by
    rw [h.base, h.stack.length_eq, length_cons]
    omega
  have hstack := h.stack
  cases hcons : conds.stack with
  | nil => simp [hcons] at hlt
  | cons f st =>
    rw [hcons] at hstack
    obtain _ | ⟨hst, hfit⟩ := hstack
    exact ⟨f, st, rfl, by rw [Conds.ownFrame, if_pos hlt, hcons]; rfl, hst, hfit⟩

/-- The three directives look for a chain of their own file first. -/
lemma follows_ownFrame {f : Option CondFrame → CtlM α} {g : List Chain → Walk α}
    (hnone : Follows cfg files below (f none) (g []))
    (hsome : ∀ {conds c around frame st}, InFile below (c :: around) conds →
      conds.stack = frame :: st → Stands below around st → Fits (activeOf st) c frame →
      Tracks cfg files below conds (f (some frame)) ((g (c :: around)).run (c :: around))) :
    Follows cfg files below (CtlM.op .ownFrame >>= f) (get >>= g) := by
  intro conds chains h
  suffices hown : Tracks cfg files below conds (f conds.ownFrame) ((g chains).run chains) from
    fun env log => hown env log
  cases chains with
  | nil =>
    rw [h.ownFrame_nil]
    exact hnone conds [] h
  | cons c around =>
    obtain ⟨frame, st, hstack, hown, hst, hfit⟩ := h.ownFrame_cons
    rw [hown]
    exact hsome h hstack hst hfit

lemma follows_text (p : EnvM α) :
    Follows cfg files below (CtlM.lift p) (Walk.text (activeOf below) p) := by
  intro conds chains h
  have htext : Tracks cfg files below conds (CtlM.lift p >>= pure)
      ((Walk.text (activeOf below) p >>= pure).run chains) := h.text p fun a => h.pure a
  rwa [bind_pure, bind_pure] at htext

lemma follows_handleElif (line : ℕ) (rest : List Token) :
    Follows cfg files below (handleElif line rest) (Walk.elifArm (activeOf below) line rest) := by
  refine follows_ownFrame (follows_text _) fun {conds c around f st} h hstack hst hfit => ?_
  simp only [hfit.evaluate_eq, hst.activeOf_eq]
  refine h.condition fun value hvalue => ?_
  have hin : InFile below (c.addArm (.cond value) :: around)
      (conds.elifArm (value == some true)) := by
    rw [Conds.elifArm, Conds.mapTop_of_cons hstack]
    exact ⟨h.base, .frame hst (hfit.elifArm (by rw [hst.activeOf_eq]; exact hvalue))⟩
  have hdone : Tracks cfg files below (conds.elifArm (value == some true))
    (pure (skipDirectiveLine rest)) _ := hin.pure _
  have hset : Tracks cfg files below conds
      (CtlM.op (.elifArm (value == some true)) >>= fun _ => pure (skipDirectiveLine rest))
      ((set (c.addArm (.cond value) :: around) >>= fun _ => pure (skipDirectiveLine rest) :
        Walk (List Token)).run (c :: around)) := fun env log => hdone env log
  rw [hfit.elseSeen]
  split_ifs
  · exact h.text _ fun _ => hset
  · exact hset

lemma follows_handleElse (line : ℕ) (rest : List Token) :
    Follows cfg files below (handleCloser .elseArm "#else without #if".toList line rest)
      (Walk.elseArm (activeOf below) line rest) := by
  refine follows_ownFrame (follows_text _) fun {conds c around f st} h hstack hst hfit => ?_
  have hin : InFile below (c.addArm .otherwise :: around) conds.elseArm := by
    rw [Conds.elseArm, Conds.mapTop_of_cons hstack]
    exact ⟨h.base, .frame hst hfit.elseArm⟩
  have hdone : Tracks cfg files below conds.elseArm (pure rest) _ := hin.pure rest
  exact fun env log => hdone env log

lemma follows_handleEndif (line : ℕ) (rest : List Token) :
    Follows cfg files below (handleCloser .endif "#endif without #if".toList line rest)
      (Walk.closeChain (activeOf below) line rest) := by
  refine follows_ownFrame (follows_text _) fun {conds c around f st} h hstack hst _ => ?_
  have hin : InFile below around conds.endif := by
    refine ⟨h.base, ?_⟩
    rw [Conds.endif, hstack]
    exact hst
  have hdone : Tracks cfg files below conds.endif (pure rest) _ := hin.pure rest
  exact fun env log => hdone env log

/-! ## Files -/

variable (cfg files conds) in
/-- A file's program does what the walk over the file does, and leaves the conditionals as it
found them. -/
def Returns (p : CtlM Unit) (q : BlockM Unit) : Prop :=
  ∀ env log, Alike cfg files (fun _ w v => v = (w.1.env, w.2) ∧ w.1.conds = conds) p q
    (⟨env, conds⟩, log) (env, log)

lemma Stands.truncate_eq {outer : List CondFrame} (h : Stands outer chains conds.stack) (base : ℕ) :
    Conds.truncate outer.length { conds with base } = ⟨outer, base⟩ := by
  have hlen := h.length_eq
  simp only [Conds.truncate, hlen, Nat.add_sub_cancel, h.drop_own]

lemma Stands.linesAbove_eq {outer : List CondFrame} (h : Stands outer chains conds.stack)
    (base : ℕ) :
    Conds.linesAbove outer.length { conds with base } = (chains.map Chain.line).reverse := by
  have hlen := h.length_eq
  simp only [Conds.linesAbove, hlen, Nat.add_sub_cancel, h.lines_eq]

/-- The file's frames are reported and dropped. -/
lemma alike_reportUnterminated {Q} (lines : List ℕ) {f : Unit → CtlM Unit}
    (hf : ∀ env log, Alike cfg files Q (f ()) (pure ()) (⟨env, conds⟩, log) (env, log)) (env : Env)
    (log : List BlockOp) : Alike cfg files Q
      (CtlM.lift (reportUnterminated lines) >>= f)
      (Walk.embed conds.isActive (reportUnterminated lines)) (⟨env, conds⟩, log) (env, log) := by
  induction lines generalizing env log with
  | nil => exact hf env log
  | cons line lines ih => exact alike_env (.report _ _ _) (fun _ => ih) env log

lemma alike_op {Q} (o : ControlOp) (o' : BlockOp) {f : o.Answer → CtlM α}
    {g : o'.Answer → BlockM β} {w : State × List BlockOp} {v : Env × List BlockOp}
    (hf : Alike cfg files Q (f (observed cfg files o w).1) (g (Walk.handler cfg files o' v).1)
      (observed cfg files o w).2 (Walk.handler cfg files o' v).2) :
    Alike cfg files Q (CtlM.op o >>= f) (Program.op (I := blockInterface) o' >>= g) w v := hf

/-- A file that ended well: what it left open is reported and dropped. -/
lemma alike_closeFile {inside : Conds} (h : InFile conds.stack chains inside) (env : Env)
    (log : List BlockOp) : Alike cfg files
      (fun _ w v => v = (w.1.env, w.2) ∧ w.1.conds = conds)
      (CtlM.lift (reportUnterminated
          (Conds.linesAbove conds.stack.length { inside with base := conds.base })) >>= fun _ =>
        CtlM.op (.truncate conds.stack.length) >>= fun _ => pure ())
      (Walk.embed (Walk.activeIn conds.isActive chains)
        (reportUnterminated (chains.map Chain.line).reverse))
      (⟨env, { inside with base := conds.base }⟩, log) (env, log) := by
  have hactive : Walk.activeIn conds.isActive chains =
      Conds.isActive { inside with base := conds.base } := h.isActive.symm
  rw [h.stack.linesAbove_eq, hactive]
  refine alike_reportUnterminated _ (fun env log => ?_) env log
  exact ⟨rfl, h.stack.truncate_eq conds.base⟩

/-- A file, whatever it leaves open and however it ends. -/
lemma returns_fileBracket {process : List Token → CtlM Unit} {walk : List Token → Walk Unit}
    {toks : List Token} (hwalk : Follows cfg files conds.stack (process toks) (walk toks)) :
    Returns cfg files conds (fileBracket process toks) (Walk.file conds.isActive walk toks) := by
  intro env log
  have hinside := hwalk ⟨conds.stack, conds.stack.length⟩ [] ⟨rfl, .outer⟩
    ((detectIncludeGuard toks).elim env env.recordGuard)
    (log ++ [BlockOp.enterFile (detectIncludeGuard toks)])
  refine alike_op (.enterFile (detectIncludeGuard toks)) (.enterFile _) ?_
  refine refines_attempt_bind (hinside.mono fun r w v hr => ?_)
  obtain e | ⟨⟨⟩, ⟨⟩, chains⟩ := r
  · obtain ⟨rfl, chains, hin⟩ := hr
    exact ⟨rfl, rfl, hin.stack.truncate_eq conds.base⟩
  · obtain ⟨-, rfl, hin⟩ := hr
    exact alike_closeFile hin w.1.env w.2

/-- A file that is included in active text. -/
lemma Returns.attempt {p : CtlM Unit} {q : BlockM Unit} (hfile : Returns cfg files conds p q)
    {f : Except PreprocessError Unit → CtlM α} {g : Except PreprocessError Unit → Walk α}
    (hf : ∀ result, Tracks cfg files below conds (f result) ((g result).run chains)) :
    Tracks cfg files below conds (p.attempt >>= f)
      ((StateT.lift q.attempt >>= g : Walk α).run chains) := by
  rw [Walk.run_lift_bind]
  intro env log
  refine refines_bind (refines_attempt ((hfile env log).mono fun r w v hr => ?_))
  obtain ⟨⟨env', conds'⟩, log'⟩ := w
  obtain ⟨rfl, rfl⟩ := hr
  exact hf (r.map Prod.fst) env' log'

lemma tracks_openInclude (path : Text) (quoted : Bool) (line : ℕ)
    {f : Option (List Token) → CtlM α} {g : Option (List Token) → Walk α}
    (hf : ∀ answer, Tracks cfg files below conds (f answer) ((g answer).run chains)) :
    Tracks cfg files below conds (CtlM.op (.openInclude path quoted line) >>= f)
      ((Walk.op (.openInclude path quoted line) >>= g).run chains) := fun env log =>
  hf (files.openInclude path quoted line env).1 (files.openInclude path quoted line env).2
    (log ++ [BlockOp.openInclude path quoted line])

lemma tracks_closeInclude (line : ℕ) (result : Except PreprocessError Unit) {f : Unit → CtlM α}
    {g : Unit → Walk α} (hf : Tracks cfg files below conds (f ()) ((g ()).run chains)) :
    Tracks cfg files below conds (CtlM.op (.closeInclude line result) >>= f)
      ((Walk.op (.closeInclude line result) >>= g).run chains) := fun env log =>
  hf (files.closeInclude line result env) (log ++ [BlockOp.closeInclude line result])

/-- What a directive does in active text only. -/
lemma InFile.whenActive (h : InFile below chains conds) {rest : List Token}
    {p : CtlM (List Token)} {m : Walk (List Token)}
    (hp : conds.isActive = true → Tracks cfg files below conds p (m.run chains)) :
    Tracks cfg files below conds
      (do if ← (EnvM.isActive : CtlM Bool) then p else return rest)
      ((do if ← Walk.isActive (activeOf below) then m else return rest : Walk _).run chains) := by
  refine h.ifActive ?_
  split_ifs with hactive
  · exact hp (by rw [h.isActive, hactive])
  · exact h.pure rest

section
variable {fuel : ℕ} {processFile : List Token → CtlM Unit} {file : List Token → BlockM Unit}
variable (hfile : ∀ conds, Conds.isActive conds = true → ∀ contents,
  Returns cfg files conds (processFile contents) (file contents))
include hfile

lemma InFile.handleInclude (h : InFile below chains conds) (hactive : conds.isActive = true)
    (rest : List Token) :
    Tracks cfg files below conds (Preproc.handleInclude cfg fuel processFile rest)
      ((Walk.includeFile (activeOf below) cfg fuel file rest).run chains) := by
  refine h.text _ fun header => tracks_openInclude _ _ _ fun answer => ?_
  cases answer with
  | none => exact h.pure _
  | some contents =>
    exact (hfile conds hactive contents).attempt fun result => tracks_closeInclude _ _ (h.pure _)

lemma follows_directiveEffect (name : Text) (line : ℕ) (rest : List Token) :
    Follows cfg files below (directiveEffect cfg fuel processFile name line rest)
      (Walk.directive (activeOf below) cfg fuel file name line rest) := by
  intro conds chains h
  unfold directiveEffect Walk.directive
  have hthen : ∀ p : EnvM Unit, Tracks cfg files below conds
      (do if ← (EnvM.isActive : CtlM Bool) then (do CtlM.lift p; pure rest) else pure rest)
      ((do if ← Walk.isActive (activeOf below) then
        (do Walk.text (activeOf below) p; return rest) else return rest : Walk _).run chains) :=
    fun p => h.whenActive fun _ => h.text p fun _ => h.pure rest
  cases directiveOf name with
  | hashIf => exact follows_handleIf line rest conds chains h
  | hashIfdef => exact follows_handleIfdef false line rest conds chains h
  | hashIfndef => exact follows_handleIfdef true line rest conds chains h
  | hashElif => exact follows_handleElif line rest conds chains h
  | hashElse => exact follows_handleElse line rest conds chains h
  | hashEndif => exact follows_handleEndif line rest conds chains h
  | hashLine => exact h.pure rest
  | hashInclude => exact h.whenActive fun hactive => h.handleInclude hfile hactive rest
  | hashDefine => exact h.whenActive fun _ => follows_text _ conds chains h
  | hashUndef => exact h.whenActive fun _ => h.text _ fun _ => h.text _ fun _ => h.pure _
  | hashError | hashWarning | hashPragma | unknown => exact hthen _

lemma follows_handleDirective (toks : List Token) :
    Follows cfg files below (handleDirective cfg fuel processFile toks)
      (Walk.directiveLine (activeOf below) cfg fuel file toks) := by
  unfold handleDirective Walk.directiveLine
  cases skipNewlines toks with
  | nil => exact Follows.pure []
  | cons t rest =>
    dsimp only
    cases identName t with
    | some name => exact (follows_directiveEffect hfile _ _ _).bind fun after => Follows.pure _
    | none => exact fun conds chains h => h.whenActive fun _ => follows_text _ conds chains h

end

/-! ## Token lists -/

lemma Follows.popAfter {p : CtlM Unit} {m : Walk Unit} (hp : Follows cfg files below p m) :
    Follows cfg files below (CtlM.popAfter p) (Walk.popAfter m) := by
  intro conds chains h env log
  refine refines_bind (refines_attempt ((hp conds chains h env log).mono fun r w v hr => ?_))
  obtain e | ⟨⟨⟩, ⟨⟩, chains'⟩ := r
  · obtain ⟨rfl, hin⟩ := hr
    exact ⟨rfl, rfl, hin⟩
  · obtain ⟨-, rfl, hin⟩ := hr
    exact ⟨rfl, rfl, hin⟩

/-- A token list, by induction on the fuel: included files and rescans get by with less. -/
lemma follows_processTokens (fuel : ℕ) (below : List CondFrame) (lineStart : Bool)
    (toks : List Token) : Follows cfg files below (processTokens cfg fuel lineStart toks)
      (Walk.tokens cfg fuel (activeOf below) lineStart toks) := by
  induction fuel generalizing below lineStart toks with
  | zero => exact fun _ _ _ _ _ => trivial
  | succ fuel ih =>
    cases toks with
    | nil => exact Follows.pure ()
    | cons t rest =>
      have hfile : ∀ conds, Conds.isActive conds = true → ∀ contents, Returns cfg files conds
          (fileBracket (processTokens cfg fuel true) contents)
          (Walk.file true (Walk.tokens cfg fuel true true) contents) := by
        intro conds hactive contents
        have hinside := ih conds.stack true contents
        have houter : activeOf conds.stack = true := hactive
        rw [houter] at hinside
        have hreturns := returns_fileBracket hinside
        rwa [hactive] at hreturns
      intro conds chains h
      refine h.text _ fun _ => ?_
      split_ifs
      · exact h.pure ()
      · exact (follows_handleDirective hfile rest).bind (fun after => ih _ _ after) conds chains h
      · refine h.ifActive ?_
        split_ifs
        · refine h.text _ fun step => ?_
          cases step with
          | next after => exact ih _ _ after conds chains h
          | rescan expanded after =>
            exact (ih _ _ _).popAfter.bind (fun _ => ih _ _ after) conds chains h
        · exact ih _ _ rest conds chains h

/-- Processing a file's tokens is the walk over their blocks, in any state and with any files to
include, the included files being walked the same way: both perform the same operations in the
same order, evaluations of conditions included, and come to the same end with the same
environment. Nothing is written or defined in text that is not active. The run ends and, well or
in an error, leaves the conditional stack and its base as it found them. -/
theorem processFileTokens_follows_blocks (cfg : Setting) (files : Files) (toks : List Token)
    (s : State) : ∃ ending env log,
      run (observed cfg files) (processFileTokens cfg toks) (s, []) =
        (ending, ⟨env, s.conds⟩, log) ∧
      run (Walk.handler cfg files) (Walk.processFile s.conds.isActive cfg toks) (s.env, []) =
        (ending, env, log) ∧
      run (cfg.control files) (processFileTokens cfg toks) s = (ending, ⟨env, s.conds⟩) ∧
      ending ≠ .exhausted ∧ ∀ o ∈ log, o.Allowed := by
  obtain ⟨hending, hstate⟩ := run_watch (cfg.control files) ControlOp.note
    (processFileTokens cfg toks) (s, [])
  have hends : (run (observed cfg files) (processFileTokens cfg toks) (s, [])).1 ≠ .exhausted := by
    rw [observed, hending]
    exact processFileTokens_ends cfg files toks s
  have hfile : Returns cfg files s.conds (processFileTokens cfg toks)
      (Walk.processFile s.conds.isActive cfg toks) :=
    returns_fileBracket (follows_processTokens _ s.conds.stack true toks)
  obtain ⟨ending, ⟨⟨env, conds⟩, log⟩, v, hp, hq, rfl, rfl⟩ := (hfile s.env []).ending hends
  refine ⟨ending, env, log, hp, hq, ?_, fun he => hends (by rw [hp, he]), fun o ho => ?_⟩
  · change run (watch _ _) _ _ = _ at hp
    rw [hp] at hending hstate
    exact Prod.ext hending.symm hstate.symm
  · have hlog : (run (Walk.handler cfg files) (Walk.processFile s.conds.isActive cfg toks)
        (s.env, [])).2.2 = log := congrArg (fun r => r.2.2) hq
    exact Walk.allowed_of_mem_log cfg files toks s.env (hlog ▸ ho)

/-- A header that leaves two chains open. -/
def unbalancedHeader : Files where
  openInclude _ _ _ env :=
    (some (tokenize .c "#ifdef X\np\n#else\nq\n#ifdef A\nr\n".toList), env)
  closeInclude _ _ env := env
  openInclude_charge _ _ _ _ := Nat.le_refl _
  closeInclude_charge _ _ _ := Nat.le_refl _

def nestedFile : List Token :=
  tokenize .c ("#if defined X\nx\n#elif defined A\n#include <h>\ny\n#elif defined A\nz\n" ++
    "#else\nw\n#endif\nv\n").toList

def BlockOp.isBeginReads : BlockOp → Bool
  | beginReads => true
  | _ => false

/-- The text of the one arm that is selected, with the header's, and four conditions evaluated. -/
theorem processFileTokens_nestedFile : ∃ env log,
    run (Setting.small.control unbalancedHeader) (processFileTokens .small nestedFile)
      (.binding ["A".toList]) = (.ok (), ⟨env, ⟨[], 0⟩⟩) ∧
    run (Walk.handler .small unbalancedHeader) (Walk.processFile true .small nestedFile)
      ((State.binding ["A".toList]).env, []) = (.ok (), env, log) ∧
    env.output = "q\nr\ny\nv\n".toList ∧ log.countP BlockOp.isBeginReads = 4 := by
  obtain ⟨ending, env, log, -, hwalk, hrun, -⟩ := processFileTokens_follows_blocks .small
    unbalancedHeader nestedFile (.binding ["A".toList])
  have hending : (run (Setting.small.control unbalancedHeader) (processFileTokens .small nestedFile)
      (.binding ["A".toList])).1 = .ok () := by decide +kernel
  have houtput : (run (Setting.small.control unbalancedHeader)
      (processFileTokens .small nestedFile) (.binding ["A".toList])).2.env.output =
        "q\nr\ny\nv\n".toList := by decide +kernel
  have hreads : (run (Walk.handler .small unbalancedHeader)
      (Walk.processFile true .small nestedFile)
      ((State.binding ["A".toList]).env, [])).2.2.countP BlockOp.isBeginReads = 4 := by
    decide +kernel
  have hactive : (State.binding ["A".toList]).conds.isActive = true := rfl
  rw [hactive] at hwalk
  rw [hrun] at hending houtput
  rw [hwalk] at hreads
  obtain rfl : ending = .ok () := hending
  exact ⟨env, log, hrun, hwalk, houtput, hreads⟩

end Tracks
end Pathologist.Preproc

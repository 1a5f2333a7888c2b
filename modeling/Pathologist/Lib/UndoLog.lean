import Mathlib.Data.List.Basic

/-!
# Undo logs

A log that holds, for each change of a value, what the value was before. Rewinding
the log from the value of the end gives the value of any earlier point: the first
change since then saw it, or nothing has changed it.
-/
namespace Pathologist.UndoLog
variable {C V : Type*} {before : C → Option V} {v w : V} {log : List C}

/-- The value changed from `v` to `w` while `log` was written. `before` reads the old
value off a change, when the change is one of this value. -/
inductive Recorded (before : C → Option V) : V → List C → V → Prop
  | nil (v : V) : Recorded before v [] v
  | other {v w : V} {c : C} {log : List C} : before c = none → Recorded before v log w →
      Recorded before v (c :: log) w
  | change {v v' w : V} {c : C} {log : List C} : before c = some v →
      Recorded before v' log w → Recorded before v (c :: log) w

/-- The value at the start of `log`, from the value at its end. -/
def rewind (before : C → Option V) (log : List C) (last : V) : V :=
  (log.findSome? before).getD last

variable (h : Recorded before v log w)
include h

lemma Recorded.rewind_eq : rewind before log w = v := by
  induction h with
  | nil v => rfl
  | other hc _ ih => simpa [rewind, hc] using ih
  | change hc _ ih => simp [rewind, hc]

lemma Recorded.append {u : V} {log' : List C} (h' : Recorded before w log' u) :
    Recorded before v (log ++ log') u := by
  induction h with
  | nil v => exact h'
  | other hc _ ih => exact .other hc (ih h')
  | change hc _ ih => exact .change hc (ih h')

end Pathologist.UndoLog

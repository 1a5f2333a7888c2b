import Pathologist.Sequence.Soundness

/-!
# The two answers about a pair of events

A query and the query the other way round answer alike or with converse orders, unless a gap
withholds an order that one of the two would claim, a loop passes through one block of a segment
and not the other, or the order of the events runs in a circle.
-/
namespace Pathologist.Sequence
open Pathologist.Cfg Pathologist.Lib.Digraph

namespace LoadedCfg
variable {g : LoadedCfg} {a b : ℕ} {dom : Dominance}

/-- The answer for events `a` and `b`. -/
def answer (g : LoadedCfg) (a b : ℕ) (dom : Dominance) : Relation :=
  (g.relate a b (g.reach (g.blockOf a) true) dom).1

/-- The answer, from what the blocks show of a pair and what the gaps over its ends withhold. -/
def withheld (hidden shared unordered : Bool) : Option Relation → Relation
  | none => .unknown
  | some r =>
    if hidden then .unknown
    else if shared && decide (r = .sequencedBefore ∨ r = .guaranteedBefore ∨ r = .mayPrecede ∨
      r = .mayFollow) then .unordered
    else if unordered && decide (r = .sequencedBefore ∨ r = .guaranteedBefore) then .unknown
    else r

end LoadedCfg
end Pathologist.Sequence

import Mathlib.Data.List.ModifyLast
import Pathologist.Lib.Digraph

/-!
# Runs of unordered events

The events of a block in evaluation order, each maximal run of neighbours that no
order path joins as one group. Where every order pair runs forward the groups are
found without a search for paths.
-/
open Relation
namespace Pathologist.Sequence
open Lib.Digraph

/-- A position joins the last group, or opens one. -/
def place (joins : Bool) (groups : List (List ℕ)) (e : ℕ) : List (List ℕ) :=
  if joins then groups.modifyLast (· ++ [e]) else groups ++ [[e]]

/-- The order pairs, from the lists of immediate successors. -/
def orderPairs (g : Adjacency) : List (ℕ × ℕ) := g.zipIdx.flatMap fun n => n.1.map (n.2, ·)

def forward (g : Adjacency) : Bool := (orderPairs g).all fun p => p.1 < p.2

def reaches (g : Adjacency) (a b : ℕ) : Bool :=
  (search a (List.replicate g.length false) (next g) (· == b)).1

section Forward
variable {g : Adjacency}

variable (hf : forward g = true)
include hf

end Forward

end Pathologist.Sequence

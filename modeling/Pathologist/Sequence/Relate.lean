import Pathologist.Lib.Dominators
import Pathologist.Sequence.Control

/-!
# How two events of one graph relate

`LoadedCfg::relate` and what it reads: the indices of a loaded graph, dominance
over every edge, the blocks reached without an exception edge, and the local
order of a block's events. The dominator passes and the depth-first walks run on
explicit fuel, so an answer exists only for a finished computation.
-/
namespace Pathologist.Sequence
open Pathologist.Cfg Pathologist.Lib.Digraph Pathologist.Lib.Dominators

/-- How the invocation of one event relates to another's. -/
inductive Relation
  | sequencedBefore | guaranteedBefore | mayPrecede | mayFollow | mayBoth | exclusive
  | unordered | unknown
deriving Repr, DecidableEq

/-- A graph with what its builder promises of it. -/
structure LoadedCfg where
  graph : FunctionCfg
  wellFormed : graph.WellFormed

/-- A graph's dominator tree over every edge, and the blocks its entry reaches
over non-exception edges. -/
structure Dominance where
  idom : Idom
  normal : List Bool
deriving Repr

namespace LoadedCfg

def succ (g : LoadedCfg) : Adjacency :=
  adjacency g.graph.blocks.length (g.graph.edges.map fun e => (e.src, e.dst))

def pred (g : LoadedCfg) : Adjacency :=
  adjacency g.graph.blocks.length (g.graph.edges.map fun e => (e.dst, e.src))

def nextEvents (g : LoadedCfg) : Adjacency := adjacency g.graph.events.length g.graph.order

def control (g : LoadedCfg) : ControlFacts := ControlFacts.of g.graph g.succ g.pred

def blockOf (g : LoadedCfg) (e : ℕ) : ℕ := Sequence.blockOf g.graph e

def segment (g : LoadedCfg) (b : ℕ) : ℕ × ℕ := g.control.segment.getD b (b, 0)

def eventGaps (g : LoadedCfg) (e : ℕ) : EventGaps := g.control.eventGaps.getD e {}

/-- Blocks reachable from `start` over one or more edges. -/
def reach (g : LoadedCfg) (start : ℕ) (forward : Bool) : List Bool :=
  (search start (List.replicate g.graph.blocks.length false)
    (next (if forward then g.succ else g.pred)) (fun _ => false)).2

/-- Dominance from the entry over every edge, exception edges included, and the
blocks the entry reaches without one. -/
def dominators (fuel : ℕ) (g : LoadedCfg) : Option Dominance :=
  match Lib.Dominators.dominators fuel g.graph.entry g.succ g.pred with
  | none => none
  | some idom =>
    let normalSucc := adjacency g.graph.blocks.length
      ((g.graph.edges.filter (fun e => e.kind ≠ .exception)).map fun e => (e.src, e.dst))
    match postorder fuel g.graph.entry normalSucc with
    | none => none
    | some (_, normal) => some ⟨idom, normal⟩

/-- The events of block `b` that may leave it before its later events. -/
def earlyExits (g : LoadedCfg) (b : ℕ) : List ℕ :=
  if marked g.control.throws b then ((g.graph.blocks[b]?).map Block.events).getD []
  else next g.control.hidden b

/-- Every early leave happens after `a` was invoked. -/
def escapesFollow (g : LoadedCfg) (a : ℕ) (dom : Dominance) : Bool :=
  let ba := g.blockOf a
  let dominated := g.control.escapes.zipIdx.all
    fun p => !p.1 || p.2 == ba || dominates dom.idom ba p.2
  if !dominated then false
  else
    let exits := g.earlyExits ba
    if exits.all (· == a) then true
    else
      -- the events after `a` in the local order
      let later := (search a (List.replicate g.graph.events.length false)
        (next g.nextEvents) (fun _ => false)).2
      exits.all fun e => e == a || marked later e

/-- Every path from the entry to block `dst` invokes event `a` first. -/
def guarantees (g : LoadedCfg) (a dst : ℕ) (dom : Dominance) : Bool :=
  let ba := g.blockOf a
  -- past the first block of its segment, an earlier event of it may throw before `a` runs
  if decide (0 < (g.segment ba).2) && marked g.control.throws ba then false
  else marked dom.normal dst && dominates dom.idom ba dst && g.escapesFollow a dom

/-- `b` follows `a` in their segment's local order. -/
def orderReaches (g : LoadedCfg) (a b : ℕ) : Bool :=
  let ba := g.blockOf a
  let bb := g.blockOf b
  if ba ≠ bb then decide ((g.segment ba).2 < (g.segment bb).2)
  else (search a (List.replicate g.graph.events.length false) (next g.nextEvents) (· == b)).1

/-- The relation the blocks show, before the gaps over the ends are looked at;
`true` beside it when an unmodelled transfer may lead from one to the other. The
outer `none` ends the query: both positions name one invocation. -/
def shown (g : LoadedCfg) (a b : ℕ) (forward : List Bool) (dom : Dominance) :
    Option (Relation × Bool) :=
  let ba := g.blockOf a
  let bb := g.blockOf b
  let aLoose := marked g.control.loose ba
  if (g.segment ba).1 = (g.segment bb).1 then
    let loosened := aLoose && !marked forward ba
    if marked forward ba || aLoose then some (.mayBoth, loosened)
    else if a = b then none
    else if g.orderReaches a b then some (.sequencedBefore, loosened)
    else if g.orderReaches b a then some (.mayFollow, loosened)
    else some (.unordered, loosened)
  else
    let back := g.reach bb true
    let bLoose := marked g.control.loose bb
    let loosened := (aLoose && !marked forward bb) || (bLoose && !marked back ba)
    match marked forward bb || aLoose, marked back ba || bLoose with
    | true, true => some (.mayBoth, loosened)
    | true, false =>
      if g.guarantees a bb dom then some (.guaranteedBefore, loosened)
      else some (.mayPrecede, loosened)
    | false, true => some (.mayFollow, loosened)
    | false, false => some (.exclusive, loosened)

/-- How event `a`'s invocation relates to event `b`'s, with notes on what the
answer rests on; `forward` are the blocks `a`'s reaches. -/
def relate (g : LoadedCfg) (a b : ℕ) (forward : List Bool) (dom : Dominance) :
    Relation × List String :=
  let gapsA := g.eventGaps a
  let gapsB := g.eventGaps b
  match gapsA.hidesControl.or gapsB.hidesControl with
  | some kind =>
    (.unknown, ["a " ++ kind.asStr ++ " gap covers an end; its control flow is not modeled"])
  | none =>
    if gapsA.unevaluated || gapsB.unevaluated then
      (.unknown, ["an unevaluated gap covers an end; that call never runs"])
    else
      match g.shown a b forward dom with
      | none => (.unknown, ["both positions name the same invocation"])
      | some (relation, loosened) =>
        let shared := gapsA.unorderedBranch.any
          fun i => ((g.graph.gaps[i]?).map (fun gap => covers gap b)).getD false
        if shared && decide (relation = .sequencedBefore ∨ relation = .guaranteedBefore ∨
            relation = .mayPrecede ∨ relation = .mayFollow) then
          (.unordered, ["both lie in one unordered_branch gap"])
        else
          let notes := if loosened && decide (relation ≠ .unordered) then
            ["an unmodeled control transfer (unsupported edge or gap) may lead from one " ++
              "to the other"] else []
          if relation = .sequencedBefore ∨ relation = .guaranteedBefore then
            match gapsA.unorders.or gapsB.unorders with
            | some kind =>
              (.unknown, ["a " ++ kind.asStr ++ " gap covers an end; its order is not modeled"])
            | none => (relation, notes)
          else (relation, notes)

/-- The query as its callers make it: dominance and what `a`'s block reaches are
computed first. -/
def relationOf (fuel : ℕ) (g : LoadedCfg) (a b : ℕ) : Option Relation :=
  (g.dominators fuel).map fun dom => (g.relate a b (g.reach (g.blockOf a) true) dom).1

end LoadedCfg
end Pathologist.Sequence

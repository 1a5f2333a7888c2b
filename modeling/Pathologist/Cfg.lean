import Mathlib.Logic.Relation
import Mathlib.Data.List.Basic

/-!
# Call-order control-flow graphs

The per-function graph of `trace-ir`: blocks, edges between them, the call
events each block invokes, the local order of a block's events, and the regions
the builder left unmodelled. Blocks and events are named by their position in
the graph's own lists.
-/
namespace Pathologist.Cfg

structure Span where
  file : ℕ
  line : ℕ
  col : ℕ
deriving Repr, DecidableEq

/-- Where an invocation is written, and where a macro expansion put it. -/
structure CallOccurrence where
  span : Span
  expansionSpan : Option Span
  expansionId : ℕ
deriving Repr, DecidableEq

inductive BlockKind
  | entry | exit | exceptionalExit | ordinary
  /-- Where a `try` body's exception edges meet before its handlers. -/
  | landing
deriving Repr, DecidableEq

inductive EdgeKind
  | fallthrough | branchTrue | branchFalse | switchCase | backEdge | return_ | exception
  /-- Control leaves through a construct the graph does not model. -/
  | unsupported
  /-- The only way into its target, from a block whose every event is sequenced
  before every event of the target. -/
  | sequenced
deriving Repr, DecidableEq

inductive EventKind
  | call | construct | destroy | delete
deriving Repr, DecidableEq

inductive GapKind
  | parseError | depthExceeded | unsupportedConstruct | unresolvedGoto | unorderedBranch
  | initializerOrder | omittedSites | unevaluated
deriving Repr, DecidableEq

/-- The kind's name in exports and query output. -/
def GapKind.asStr : GapKind → String
  | .parseError => "parse_error"
  | .depthExceeded => "depth_exceeded"
  | .unsupportedConstruct => "unsupported_construct"
  | .unresolvedGoto => "unresolved_goto"
  | .unorderedBranch => "unordered_branch"
  | .initializerOrder => "initializer_order"
  | .omittedSites => "omitted_sites"
  | .unevaluated => "unevaluated"

structure Block where
  kind : BlockKind
  span : Option Span
  /-- The block's events in evaluation order. -/
  events : List ℕ
deriving Repr, DecidableEq

structure CfgEdge where
  src : ℕ
  dst : ℕ
  kind : EdgeKind
deriving Repr, DecidableEq

/-- One syntactic invocation; `sites` are its alternative-target records. -/
structure CallEvent where
  block : ℕ
  kind : EventKind
  occurrence : CallOccurrence
  sites : List ℕ
deriving Repr, DecidableEq

/-- A region whose order is not modelled; `events` is an inclusive range. -/
structure Gap where
  kind : GapKind
  span : Option Span
  events : Option (ℕ × ℕ)
deriving Repr, DecidableEq

structure FunctionCfg where
  function : ℕ
  tu : Option ℕ
  variant : ℕ
  entry : ℕ
  exit : ℕ
  exceptionalExit : Option ℕ
  blocks : List Block
  edges : List CfgEdge
  events : List CallEvent
  /-- Immediate sequenced-before pairs between events of one block. -/
  order : List (ℕ × ℕ)
  gaps : List Gap
deriving Repr, DecidableEq

/-- What the builder promises of every graph it makes: positions name blocks and
events, an event is listed by its block, order pairs stay inside a block, and a
`sequenced` edge names the one continuation of its source, never the entry. -/
structure FunctionCfg.WellFormed (g : FunctionCfg) : Prop where
  entry_lt : g.entry < g.blocks.length
  edge_lt : ∀ e ∈ g.edges, e.src < g.blocks.length ∧ e.dst < g.blocks.length
  block_lt : ∀ (i : ℕ) (ev : CallEvent), g.events[i]? = some ev → ev.block < g.blocks.length
  listed : ∀ (i : ℕ) (ev : CallEvent) (blk : Block), g.events[i]? = some ev →
    g.blocks[ev.block]? = some blk → i ∈ blk.events
  order_local : ∀ p ∈ g.order, ∃ x y : CallEvent, g.events[p.1]? = some x ∧
    g.events[p.2]? = some y ∧ x.block = y.block
  sequenced_unique : ∀ e ∈ g.edges, ∀ e' ∈ g.edges, e.kind = .sequenced →
    e'.kind = .sequenced → e.src = e'.src → e.dst = e'.dst
  sequenced_entry : ∀ e ∈ g.edges, e.kind = .sequenced → e.dst ≠ g.entry

end Pathologist.Cfg

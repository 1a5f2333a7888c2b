import Pathologist.Cfg.Reached
import Pathologist.Cfg.Compact
import Pathologist.Cfg.Variants
import Pathologist.Sequence.Runs
import Pathologist.Sequence.Converse
import Pathologist.Discovery.Serial
import Pathologist.Preproc.Conditional
import Pathologist.Preproc.Guard
import Pathologist.Preproc.Confined
import Pathologist.Preproc.TokenStream
import Pathologist.Preproc.Numbers
import Pathologist.Preproc.RawStrings
import Pathologist.Preproc.Projection
import Pathologist.PointsTo.CallGraph
import Pathologist.Types.Completion
import Pathologist.Types.Plain
import Pathologist.Contexts.Components
import Pathologist.Targets
import Pathologist.Flow
import Pathologist.Calls.Graph
import Pathologist.Index.Progress
import Pathologist.Sources.Cache
import Pathologist.PointsTo.ReturnFacts
import Pathologist.Worklist.Pending
import Pathologist.Worklist.Mirrors

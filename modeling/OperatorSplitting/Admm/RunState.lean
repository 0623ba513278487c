/-!
# The life cycle of a run

A run starts `initialized`, is `running` from its first step on, and ends `converged` or with its
iterations exhausted.  The last two states are terminal.
-/

namespace OperatorSplitting

/-- The state of a run. -/
inductive RunState where
  | initialized
  | running
  | converged
  | maxIterReached
deriving DecidableEq, Repr

namespace RunState

/-- Whether no further step is possible. -/
def isTerminal : RunState → Bool
  | .initialized | .running => false
  | .converged | .maxIterReached => true

/-- The name of a state in messages and records. -/
def name : RunState → String
  | .initialized => "Initialized"
  | .running => "Running"
  | .converged => "Converged"
  | .maxIterReached => "MaxIterReached"

end RunState

end OperatorSplitting

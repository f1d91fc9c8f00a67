import HorizonRelay.AnswerTokens
import HorizonRelay.Budget
import HorizonRelay.Conversation
import HorizonRelay.Engine.Calls
import HorizonRelay.Engine.Cascade
import HorizonRelay.Engine.Clock
import HorizonRelay.Engine.Contract
import HorizonRelay.Engine.Judgment
import HorizonRelay.Engine.Keeps
import HorizonRelay.Engine.Ledger
import HorizonRelay.Engine.Loop
import HorizonRelay.Engine.MainFlow
import HorizonRelay.Engine.Planning
import HorizonRelay.Engine.Relay
import HorizonRelay.Engine.Rely
import HorizonRelay.Engine.Request
import HorizonRelay.Engine.Sound
import HorizonRelay.Engine.State
import HorizonRelay.Engine.Worker
import HorizonRelay.Evaluation
import HorizonRelay.Events
import HorizonRelay.Graph
import HorizonRelay.GraphPage
import HorizonRelay.Lib.Coroutine
import HorizonRelay.Lib.Dataflow
import HorizonRelay.Lib.Dict
import HorizonRelay.Lib.Double
import HorizonRelay.Lib.Fallible
import HorizonRelay.Lib.Infix
import HorizonRelay.Lib.Intervals
import HorizonRelay.Lib.Json
import HorizonRelay.Lib.JsonAccess
import HorizonRelay.Lib.JsonDumps
import HorizonRelay.Lib.JsonGrammar
import HorizonRelay.Lib.JsonText
import HorizonRelay.Lib.Layers
import HorizonRelay.Lib.Overlap
import HorizonRelay.Lib.PyText
import HorizonRelay.Lib.Scheduler
import HorizonRelay.Lib.ScriptData
import HorizonRelay.Lib.Turns
import HorizonRelay.Lib.Upkeep
import HorizonRelay.Observe.Attempts
import HorizonRelay.Observe.Batches
import HorizonRelay.Observe.Calls
import HorizonRelay.Observe.Handlers
import HorizonRelay.Observe.Keys
import HorizonRelay.Observe.Log
import HorizonRelay.Observe.MainFlow
import HorizonRelay.Observe.Numbers
import HorizonRelay.Observe.Outline
import HorizonRelay.Observe.Picture
import HorizonRelay.Observe.Protocol
import HorizonRelay.Observe.Request
import HorizonRelay.Observe.Resting
import HorizonRelay.Observe.Scene
import HorizonRelay.Observe.Sound
import HorizonRelay.Observe.Turns
import HorizonRelay.Observe.Updates
import HorizonRelay.Observe.Worker
import HorizonRelay.OpenWebUI.StreamRelay
import HorizonRelay.OpenWebUI.Thinking
import HorizonRelay.Parallelism
import HorizonRelay.Plan
import HorizonRelay.Policy
import HorizonRelay.Policy.Agreement
import HorizonRelay.Policy.FieldSearch
import HorizonRelay.Policy.Monotone
import HorizonRelay.Policy.Numbers
import HorizonRelay.Policy.Readers
import HorizonRelay.Policy.Replay
import HorizonRelay.Policy.Salvage
import HorizonRelay.Policy.SolverReply
import HorizonRelay.Providers
import HorizonRelay.Providers.Live
import HorizonRelay.Providers.OpenAICompatible
import HorizonRelay.Providers.Shapes
import HorizonRelay.References
import HorizonRelay.Results
import HorizonRelay.Runs.Asked
import HorizonRelay.Runs.Bounds
import HorizonRelay.Runs.Computed
import HorizonRelay.Runs.Endings
import HorizonRelay.Runs.Events
import HorizonRelay.Runs.Failures
import HorizonRelay.Runs.Goals
import HorizonRelay.Runs.Groupings
import HorizonRelay.Runs.Judged
import HorizonRelay.Runs.Parallel
import HorizonRelay.Runs.Payment
import HorizonRelay.Runs.Pictures
import HorizonRelay.Runs.Records
import HorizonRelay.Runs.Rounds
import HorizonRelay.Runs.Routing
import HorizonRelay.Runs.Spending
import HorizonRelay.Runs.Tasks
import HorizonRelay.Runs.Tuned
import HorizonRelay.Runs.Writes
import HorizonRelay.Satisfiable
import HorizonRelay.Settings
import HorizonRelay.Tokens
import HorizonRelay.Tuning
import HorizonRelay.WellFormed

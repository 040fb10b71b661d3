import Tinyflows.Adaptive.Theorems.Episodes
import Tinyflows.Adaptive.Theorems.Families
import Tinyflows.Adaptive.Theorems.Ledger
import Tinyflows.Adaptive.Theorems.Resume
import Tinyflows.Caps.Theorems.Http
import Tinyflows.Catalog.Theorems.GraphPolicy
import Tinyflows.Catalog.Theorems.Revisions
import Tinyflows.Cron.Theorems.Cadence
import Tinyflows.Cron.Theorems.Callbacks
import Tinyflows.Cron.Theorems.Fencing
import Tinyflows.Cron.Theorems.Tick
import Tinyflows.Engine.Theorems.Approvals
import Tinyflows.Engine.Theorems.Budget
import Tinyflows.Engine.Theorems.Cancellation
import Tinyflows.Engine.Theorems.Delivery
import Tinyflows.Engine.Theorems.Lanes
import Tinyflows.Engine.Theorems.Reducer
import Tinyflows.Engine.Theorems.Resumption
import Tinyflows.Graph.Theorems.Barriers
import Tinyflows.Graph.Theorems.Channels
import Tinyflows.Graph.Theorems.Copy
import Tinyflows.Graph.Theorems.Durability
import Tinyflows.Graph.Theorems.History
import Tinyflows.Graph.Theorems.Imports
import Tinyflows.Graph.Theorems.Interrupts
import Tinyflows.Graph.Theorems.Parallel
import Tinyflows.Graph.Theorems.Prune
import Tinyflows.Graph.Theorems.Resume
import Tinyflows.Graph.Theorems.Step
import Tinyflows.Graph.Theorems.Updates
import Tinyflows.Model.Migrate
import Tinyflows.Model.Theorems.GraphOps
import Tinyflows.Nodes.Theorems.Dedup
import Tinyflows.Nodes.Theorems.Items
import Tinyflows.Nodes.Theorems.JsonExtract
import Tinyflows.Nodes.Traced
import Tinyflows.Storage.Theorems.Leases
import Tinyflows.Storage.Theorems.Migrations
import Tinyflows.Validate.Theorems.Loops

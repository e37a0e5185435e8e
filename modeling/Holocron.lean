import Holocron.Theorems.Cluster.Restart
import Holocron.Theorems.Sdk.Producer
import Holocron.Theorems.Sdk.Batcher
import Holocron.Theorems.Broker.Concurrent
import Holocron.Theorems.Log.Lifetime
import Holocron.Theorems.Broker.Deadlock
import Holocron.Theorems.Broker.CatchUp
import Holocron.Theorems.Broker.Clustered
import Holocron.Theorems.Cluster.Sync
import Holocron.Theorems.Broker.Requests
import Holocron.Theorems.Server.Authorize
import Holocron.Theorems.Server.Quota
import Holocron.Theorems.Embed.Metadata
import Holocron.Theorems.Embed.Recreate
import Holocron.Theorems.Registry.Compact
import Holocron.Theorems.Registry.Compatibility
import Holocron.Theorems.Streams.Builder
import Holocron.Theorems.Connect.Offsets
import Holocron.Theorems.Streams.TableRuns
import Holocron.Theorems.Connect.Sink
import Holocron.Theorems.Server.Conceal
import Holocron.Theorems.Server.BatchFailure
import Holocron.Theorems.Registry.Instances
import Holocron.Theorems.Connect.HttpSource
import Holocron.Theorems.Proto.RoundTrip
import Holocron.Theorems.Groups.ConcurrentOffsets
import Holocron.Theorems.Groups.Watch
import Holocron.Theorems.Streams.Emission
import Holocron.Theorems.Streams.Window
import Holocron.Theorems.Streams.Joined
import Holocron.Theorems.Connect.Retry
import Holocron.Theorems.Cli.Copy

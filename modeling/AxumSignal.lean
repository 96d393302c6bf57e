import AxumSignal.Lib.Transition
import AxumSignal.Lib.Execution
import AxumSignal.Lib.SetMap
import AxumSignal.Lib.Window
import AxumSignal.Lib.Streak
import AxumSignal.Lib.Feed
import AxumSignal.Lib.Streams
import AxumSignal.Protocol
import AxumSignal.Clients
import AxumSignal.ClientsFacts
import AxumSignal.SelfLock
import AxumSignal.Registry
import AxumSignal.Pruning
import AxumSignal.Settlement
import AxumSignal.Interleaving
import AxumSignal.CallFacts
import AxumSignal.Membership
import AxumSignal.Delivery
import AxumSignal.Attempts
import AxumSignal.Union
import AxumSignal.Coverage
import AxumSignal.RttWindow
import AxumSignal.RttPolicy
import AxumSignal.Eviction
import AxumSignal.Removal
import AxumSignal.DropStreak
import AxumSignal.Workers
import AxumSignal.ReadLoop
import AxumSignal.IdleTimeout
import AxumSignal.Heartbeat
import AxumSignal.RoundTrip
import AxumSignal.Connection
import AxumSignal.Cancellation
import AxumSignal.Draining
import AxumSignal.Hub
import AxumSignal.HubFacts
import AxumSignal.Connections
import AxumSignal.Serving
import AxumSignal.Teardown
import AxumSignal.HookOrder
import AxumSignal.Codec
import AxumSignal.Outgoing
import AxumSignal.Arriving
import AxumSignal.ClientSession
import AxumSignal.Sessions
import AxumSignal.Flushing
import AxumSignal.Projection
import AxumSignal.Endings
import AxumSignal.Relay
import AxumSignal.Progress
import AxumSignal.Deadlock
import AxumSignal.Completion
import AxumSignal.SlowClients
import AxumSignal.Presence
import AxumSignal.Stalling
import AxumSignal.Closing
import AxumSignal.Fanout
import AxumSignal.Outcomes
import AxumSignal.Returning
import AxumSignal.Isolation
import AxumSignal.Timers
import AxumSignal.TimedConn
import AxumSignal.SilentPeer
import AxumSignal.Answers
import AxumSignal.Server

import Mathlib.Data.Finset.Basic

/-! Messages, policies and configuration shared by the store and the serve layer.
Durations and instants are whole nanoseconds (`Nat`). -/
namespace AxumSignal

/-- A connection identifier (`Arc<str>`, a UUID v4 under `serve_hub_with_clients`). -/
abbrev ConnId := String

/-- A group name (`Arc<str>`). -/
abbrev GroupName := String

/-- `axum::extract::ws::Message`; a Close frame carries an optional code and reason. -/
inductive Message where
  | text (text : String)
  | binary (data : List UInt8)
  | ping (data : List UInt8)
  | pong (data : List UInt8)
  | close (frame : Option (UInt16 × String))
  deriving DecidableEq

inductive BroadcastPolicy where
  | block
  | dropMessage (timeout : Nat)
  | dropConnection (timeout : Nat) (maxDrops : UInt32)
  | dropOnHighRtt (maxRtt : Nat) (rttSamples : Nat)
  deriving DecidableEq

structure WsHubConfig where
  idleTimeout : Nat
  heartbeatInterval : Nat
  policy : BroadcastPolicy
  unicastChannelCapacity : Nat
  broadcastChannelCapacity : Nat
  deriving DecidableEq

/-- One second, in nanoseconds. -/
def second : Nat := 1000000000

/-- `WsHubConfig::default()`. -/
def WsHubConfig.default : WsHubConfig where
  idleTimeout := 60 * second
  heartbeatInterval := 15 * second
  policy := .block
  unicastChannelCapacity := 32
  broadcastChannelCapacity := 1024

/-- Why the read loop of a connection ended. -/
inductive DisconnectReason where
  | idleTimeout | streamClosed | readError | clientClosed
  | pongSendError | pingSendError | serverDisconnected
  deriving DecidableEq

end AxumSignal

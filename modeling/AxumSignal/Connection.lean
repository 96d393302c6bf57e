import AxumSignal.Interleaving
import AxumSignal.ReadLoop

/-! One connection under `serve_hub_with_clients`: its read loop, its writer task and its
teardown, next to a peer and to other tasks that use its queue and its cancel token. -/
namespace AxumSignal

open Transition

variable {Req : Type}

/-- Where `serve_hub_with_clients` is suspended. The read loop runs between the two hooks;
the last two positions follow the call of `on_disconnect` and its return. -/
inductive MainPos where
  | registering
  | onConnect
  | reading (pos : ReadPos)
  | removing
  | awaitWriter
  | onDisconnect
  | ended
  deriving DecidableEq

/-- Where the task of `spawn_writer` is: in its `select!`, in a `sink.send` of a branch
body, or past its end, where it has dropped the receiver of the queue. -/
inductive WriterPos where
  | unspawned
  | select
  | sending
  | exited
  deriving DecidableEq

/-- A connection. `inbox` holds the plain broadcasts its receiver has not seen yet;
`window` is how many more messages the transport takes while the peer does not read. -/
structure Conn where
  main : MainPos
  writer : WriterPos
  chan : Chan
  inbox : List Message
  cancelled : Bool
  window : Nat

def Chan.push (c : Chan) (msg : Message) : Chan := { c with queue := c.queue ++ [msg] }

inductive ConnEvent where
  | registered | connected | frame (msg : Message) | streamClosed | readError | idle | tick
  | enqueued | rejected | observed | closed | removed | disconnected | finished
  | take | receive | lagged (n : Nat) | sourceClosed | sent | sinkError | stopped
  | pushed (msg : Message) | published (msg : Message) | cancelled | peerReads
  deriving DecidableEq

/-- One step of a connection, of its peer, or of a task that uses it. `closed` and `removed` are
the call and the return of `clients.remove`; its accesses, and the shard locks that they wait for,
are steps of the hub. -/
inductive ConnStep (decode : Message → Option Req) : Conn → ConnEvent → Conn → Prop where
  | registered {s : Conn} (hpos : s.main = .registering) :
      ConnStep decode s .registered { s with main := .onConnect, writer := .select }
  | connected {s : Conn} (hpos : s.main = .onConnect) :
      ConnStep decode s .connected { s with main := .reading .select }
  | frame {s : Conn} (msg : Message) (hpos : s.main = .reading .select) :
      ConnStep decode s (.frame msg) { s with main := .reading (handleFrame decode msg).pos }
  | streamClosed {s : Conn} (hpos : s.main = .reading .select) :
      ConnStep decode s .streamClosed { s with main := .reading (.done .streamClosed) }
  | readError {s : Conn} (hpos : s.main = .reading .select) :
      ConnStep decode s .readError { s with main := .reading (.done .readError) }
  | idle {s : Conn} (hpos : s.main = .reading .select) :
      ConnStep decode s .idle { s with main := .reading (.done .idleTimeout) }
  | tick {s : Conn} (hpos : s.main = .reading .select) :
      ConnStep decode s .tick { s with main := .reading .sendPing }
  | enqueued {s : Conn} {pos : ReadPos} {msg : Message} (hpos : s.main = .reading pos)
      (hmsg : pos.enqueuing = some msg) (hopen : s.chan.closed = false)
      (hroom : s.chan.queue.length < s.chan.capacity) :
      ConnStep decode s .enqueued { s with main := .reading .select, chan := s.chan.push msg }
  | rejected {s : Conn} {pos : ReadPos} {msg : Message} (hpos : s.main = .reading pos)
      (hmsg : pos.enqueuing = some msg) (hclosed : s.chan.closed = true) :
      ConnStep decode s .rejected { s with main := .reading (.done pos.sendError) }
  | observed {s : Conn} (hpos : s.main = .reading .select) (hcancel : s.cancelled = true) :
      ConnStep decode s .observed { s with main := .reading (.done .serverDisconnected) }
  | closed {s : Conn} {reason : DisconnectReason} (hpos : s.main = .reading (.done reason)) :
      ConnStep decode s .closed { s with main := .removing, cancelled := true }
  | removed {s : Conn} (hpos : s.main = .removing) :
      ConnStep decode s .removed { s with main := .awaitWriter }
  | disconnected {s : Conn} (hpos : s.main = .awaitWriter) (hwriter : s.writer = .exited) :
      ConnStep decode s .disconnected { s with main := .onDisconnect }
  | finished {s : Conn} (hpos : s.main = .onDisconnect) :
      ConnStep decode s .finished { s with main := .ended }
  | take {s : Conn} {msg : Message} {rest : List Message} (hpos : s.writer = .select)
      (hqueue : s.chan.queue = msg :: rest) :
      ConnStep decode s .take { s with writer := .sending, chan := { s.chan with queue := rest } }
  | receive {s : Conn} {msg : Message} {rest : List Message} (hpos : s.writer = .select)
      (hinbox : s.inbox = msg :: rest) :
      ConnStep decode s .receive { s with writer := .sending, inbox := rest }
  | lagged {s : Conn} (n : Nat) (hpos : s.writer = .select) (hn : 0 < n)
      (hinbox : n ≤ s.inbox.length) :
      ConnStep decode s (.lagged n) { s with inbox := s.inbox.drop n }
  | sourceClosed {s : Conn} (hpos : s.writer = .select) :
      ConnStep decode s .sourceClosed
        { s with writer := .exited, chan := { s.chan with closed := true } }
  | sent {s : Conn} {n : Nat} (hpos : s.writer = .sending) (hwindow : s.window = n + 1) :
      ConnStep decode s .sent { s with writer := .select, window := n }
  | sinkError {s : Conn} (hpos : s.writer = .sending) :
      ConnStep decode s .sinkError
        { s with writer := .exited, chan := { s.chan with closed := true } }
  | stopped {s : Conn} (hpos : s.writer = .select) (hcancel : s.cancelled = true) :
      ConnStep decode s .stopped
        { s with writer := .exited, chan := { s.chan with closed := true } }
  | pushed {s : Conn} (msg : Message) (hopen : s.chan.closed = false)
      (hroom : s.chan.queue.length < s.chan.capacity) :
      ConnStep decode s (.pushed msg) { s with chan := s.chan.push msg }
  | published {s : Conn} (msg : Message) :
      ConnStep decode s (.published msg) { s with inbox := s.inbox ++ [msg] }
  | cancelled {s : Conn} : ConnStep decode s .cancelled { s with cancelled := true }
  | peerReads {s : Conn} : ConnStep decode s .peerReads { s with window := s.window + 1 }

/-- The system of one connection. -/
def connSystem (decode : Message → Option Req) : LTS Conn ConnEvent := ⟨ConnStep decode⟩

/-- A connection whose `add` call has not returned yet. -/
def Conn.Fresh (s : Conn) : Prop :=
  s.main = .registering ∧ s.writer = .unspawned ∧ s.chan.queue = [] ∧ s.chan.closed = false ∧
    s.inbox = [] ∧ s.cancelled = false

/-- A step of the connection's own tasks for which the peer need not read or send. -/
def ConnEvent.Own : ConnEvent → Prop
  | .frame _ | .streamClosed | .readError | .sinkError | .pushed _ | .published _ | .cancelled
  | .peerReads | .sourceClosed => False
  | _ => True

/-- The serve task has left the read loop and cancelled its token. -/
def MainPos.Closing : MainPos → Prop
  | .removing | .awaitWriter | .onDisconnect | .ended => True
  | _ => False

/-- `on_disconnect` has been called. -/
def MainPos.Disconnected : MainPos → Prop
  | .onDisconnect | .ended => True
  | _ => False

end AxumSignal

import AxumSignal.Connection
import AxumSignal.Membership

/-! All connections of `serve_hub_with_clients` on one store: their serve tasks, and the
detached tasks in which `handle_frame` runs `on_message`. -/
namespace AxumSignal

open Transition Calls

variable {Req : Type}

/-- The serve task of a connection, and the handlers its frames have spawned. -/
inductive HubTask where
  | main (c : ConnId)
  | handler (c : ConnId) (n : Nat)
  deriving DecidableEq

/-- A handler before its first poll, in `on_message`, and after the `select!` is over. -/
inductive HandlerPos where
  | spawned
  | running
  | ended
  deriving DecidableEq

/-- Each connection names its channel, its token and its `on_drop` by its own id. -/
structure Hub where
  calls : Calls HubTask
  conns : ConnId → Option Conn
  handlers : ConnId → Nat → Option HandlerPos

namespace Hub

variable (s : Hub)

/-- Where the serve task of `c` is, once the connection was accepted. -/
def main (c : ConnId) : Option MainPos := (s.conns c).map (·.main)

/-- `on_disconnect` has been called for `c`. -/
def Left (c : ConnId) : Prop := ∃ pos, s.main c = some pos ∧ pos.Disconnected

/-- The connection with the current state of its channel and token. -/
def view (c : ConnId) (conn : Conn) : Conn :=
  { conn with chan := s.calls.shared.chans c, cancelled := s.calls.shared.cancelled c }

/-- The connection after a step, its channel and token written back. -/
def put (c : ConnId) (conn : Conn) : Hub :=
  { s with
    calls := { s.calls with
      shared := { s.calls.shared with
        chans := Function.update s.calls.shared.chans c conn.chan
        cancelled := Function.update s.calls.shared.cancelled c conn.cancelled } }
    conns := Function.update s.conns c (some conn) }

def goto (t : HubTask) (sh : Shared) (pc : Pc) : Hub := { s with calls := s.calls.goto t sh pc }

/-- The serve task of `c` starts an operation of the store. -/
def calling (c : ConnId) (op : Op) : Hub := s.goto (.main c) s.calls.shared op.start

def setHandler (c : ConnId) (n : Nat) (pos : HandlerPos) : Hub :=
  { s with handlers := Function.update s.handlers c (Function.update (s.handlers c) n (some pos)) }

/-- What `handle_frame` leaves behind: an `update_rtt` call when a Ping was pending, or a
spawned handler. -/
def handled (c : ConnId) (n : Nat) (rtt : Option Nat) : FrameAction Req → Hub
  | .recordRtt => match rtt with
    | none => s
    | some rtt => s.calling c (.updateRtt c rtt)
  | .spawn _ => s.setHandler c n .spawned
  | _ => s

/-- Nothing has happened yet. -/
def Fresh : Prop := s.calls.Fresh ∧ (∀ c, s.conns c = none) ∧ ∀ c n, s.handlers c n = none

end Hub

/-- The operations a handler reaches through its `MessageContext`. It owns the context, so that
`connection_id` is what it has put there. -/
def Op.InContext : Op → Prop
  | .add _ _ _ _ | .remove _ | .updateRtt _ _ => False
  | _ => True

/-- The steps of a connection that the store or a handler does not take part in. -/
def ConnEvent.Local : ConnEvent → Prop
  | .frame _ | .closed | .pushed _ | .cancelled => False
  | _ => True

inductive HubLabel where
  | accept (c : ConnId)
  | conn (c : ConnId) (e : ConnEvent)
  | store (t : HubTask) (e : Event)
  | start (c : ConnId) (n : Nat)
  | call (c : ConnId) (n : Nat) (op : Op)
  | work (c : ConnId) (n : Nat)
  | finish (c : ConnId) (n : Nat)
  | drop (c : ConnId) (n : Nat)

/-- One step of any task. A serve task takes its next step when the store has returned
from its last call. A handler can start even if its token is cancelled, since `select!`
polls its branches in either order, and it is dropped only where it is suspended. -/
inductive HubStep (decode : Message → Option Req) : Hub → HubLabel → Hub → Prop where
  | accept {s : Hub} {c : ConnId} (capacity window : Nat) (hnew : s.conns c = none)
      (hidle : s.calls.pc (.main c) = .idle) :
      HubStep decode s (.accept c)
        ((s.put c ⟨.registering, .unspawned, ⟨capacity, [], false⟩, [], false, window⟩).calling c
          (.add c c c c))
  | conn {s : Hub} {c : ConnId} {conn conn' : Conn} {e : ConnEvent} (hc : s.conns c = some conn)
      (he : e.Local) (hidle : s.calls.pc (.main c) = .idle)
      (hstep : ConnStep decode (s.view c conn) e conn') :
      HubStep decode s (.conn c e) (s.put c conn')
  | writer {s : Hub} {c : ConnId} {conn conn' : Conn} {e : ConnEvent}
      (hc : s.conns c = some conn) (he : e.Local)
      (hstep : ConnStep decode (s.view c conn) e conn') (hmain : conn'.main = conn.main) :
      HubStep decode s (.conn c e) (s.put c conn')
  | frame {s : Hub} {c : ConnId} {conn conn' : Conn} {msg : Message} {n : Nat}
      (rtt : Option Nat) (hc : s.conns c = some conn) (hidle : s.calls.pc (.main c) = .idle)
      (hnew : s.handlers c n = none) (hstep : ConnStep decode (s.view c conn) (.frame msg) conn') :
      HubStep decode s (.conn c (.frame msg))
        ((s.put c conn').handled c n rtt (handleFrame decode msg))
  | closed {s : Hub} {c : ConnId} {conn conn' : Conn} (hc : s.conns c = some conn)
      (hidle : s.calls.pc (.main c) = .idle)
      (hstep : ConnStep decode (s.view c conn) .closed conn') :
      HubStep decode s (.conn c .closed) ((s.put c conn').calling c (.remove c))
  | serve {s : Hub} {c : ConnId} {e : Event} {sh : Shared} {pc : Pc}
      (hfree : s.calls.Granted (.main c))
      (hx : Exec s.calls.shared (s.calls.pc (.main c)) e sh pc) :
      HubStep decode s (.store (.main c) e) (s.goto (.main c) sh pc)
  | start {s : Hub} {c : ConnId} {n : Nat} (hpos : s.handlers c n = some .spawned) :
      HubStep decode s (.start c n) (s.setHandler c n .running)
  | call {s : Hub} {c : ConnId} {n : Nat} (op : Op) (hpos : s.handlers c n = some .running)
      (hidle : s.calls.pc (.handler c n) = .idle) (hop : op.InContext) :
      HubStep decode s (.call c n op) (s.goto (.handler c n) s.calls.shared op.start)
  | exec {s : Hub} {c : ConnId} {n : Nat} {e : Event} {sh : Shared} {pc : Pc}
      (hpos : s.handlers c n = some .running) (hfree : s.calls.Granted (.handler c n))
      (hx : Exec s.calls.shared (s.calls.pc (.handler c n)) e sh pc) (he : e ≠ .panic) :
      HubStep decode s (.store (.handler c n) e) (s.goto (.handler c n) sh pc)
  | panic {s : Hub} {c : ConnId} {n : Nat} {sh : Shared} {pc : Pc}
      (hpos : s.handlers c n = some .running)
      (hx : Exec s.calls.shared (s.calls.pc (.handler c n)) .panic sh pc) :
      HubStep decode s (.store (.handler c n) .panic)
        ((s.goto (.handler c n) sh pc).setHandler c n .ended)
  | work {s : Hub} {c : ConnId} {n : Nat} (hpos : s.handlers c n = some .running)
      (hidle : s.calls.pc (.handler c n) = .idle) : HubStep decode s (.work c n) s
  | finish {s : Hub} {c : ConnId} {n : Nat} (hpos : s.handlers c n = some .running)
      (hidle : s.calls.pc (.handler c n) = .idle) :
      HubStep decode s (.finish c n) (s.setHandler c n .ended)
  | drop {s : Hub} {c : ConnId} {n : Nat} (hcancel : s.calls.shared.cancelled c = true)
      (hpos : s.handlers c n = some .spawned ∨ s.handlers c n = some .running)
      (hpc : s.calls.pc (.handler c n) = .idle ∨ ∃ r, s.calls.pc (.handler c n) = .wait r) :
      HubStep decode s (.drop c n)
        ((s.goto (.handler c n) s.calls.shared .idle).setHandler c n .ended)

/-- The system of all connections. -/
def hubSystem (decode : Message → Option Req) : LTS Hub HubLabel := ⟨HubStep decode⟩

end AxumSignal

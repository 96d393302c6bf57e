import AxumSignal.Lib.Transition
import AxumSignal.Protocol

/-! The control flow of `run_read_loop` and `handle_frame`, and the same loop with
its two timers. Times of arrival are free; only the timers constrain them. -/
namespace AxumSignal

open Transition

variable {Req : Type}

/-- What `handle_frame` does with a frame up to its first suspension. -/
inductive FrameAction (Req : Type) where
  | exit (reason : DisconnectReason)
  | sendPong (data : List UInt8)
  | recordRtt
  | ignore
  | spawn (req : Req)

/-- The frame dispatch of `handle_frame`; `decode` is `H::Codec::decode`. -/
def handleFrame (decode : Message → Option Req) : Message → FrameAction Req
  | .close _ => .exit .clientClosed
  | .ping data => .sendPong data
  | .pong _ => .recordRtt
  | raw => match decode raw with
    | none => .ignore
    | some req => .spawn req

/-- Where `run_read_loop` is suspended: in its `select!`, in one of the two enqueues
that run inside a branch body, or past its end. -/
inductive ReadPos where
  | select
  | sendPong (data : List UInt8)
  | sendPing
  | done (reason : DisconnectReason)
  deriving DecidableEq

/-- The enqueue that `run_read_loop` awaits outside its `select!`. -/
def ReadPos.enqueuing : ReadPos → Option Message
  | .sendPong data => some (.pong data)
  | .sendPing => some (.ping [])
  | _ => none

/-- The reason returned when that enqueue finds the queue closed. -/
def ReadPos.sendError : ReadPos → DisconnectReason
  | .sendPong _ => .pongSendError
  | _ => .pingSendError

/-- Where the loop stands after `handle_frame` has dispatched a frame. -/
def FrameAction.pos : FrameAction Req → ReadPos
  | .exit reason => .done reason
  | .sendPong data => .sendPong data
  | _ => .select

/-- The read loop with its clock. `idleDeadline` belongs to the `timeout` future that
the current `select!` created, `tickDeadline` to the heartbeat interval. `lastFrame`
is derived: the arrival of the last frame, or the start of the loop. -/
structure TimedLoop where
  pos : ReadPos
  now : Nat
  idleDeadline : Nat
  tickDeadline : Nat
  pingSentAt : Option Nat
  lastFrame : Nat

/-- Loop entry: `interval(..)` is ready at once, and the first `select!` arms the
idle timer. A zero period makes `interval(..)` panic, before the loop. -/
def TimedLoop.start (cfg : WsHubConfig) : TimedLoop where
  pos := .select
  now := 0
  idleDeadline := cfg.idleTimeout
  tickDeadline := 0
  pingSentAt := none
  lastFrame := 0

/-- Entering `select!` creates a new `timeout(config.idle_timeout, ..)`. -/
def TimedLoop.enterSelect (cfg : WsHubConfig) (s : TimedLoop) : TimedLoop :=
  { s with pos := .select, idleDeadline := s.now + cfg.idleTimeout }

/-- A frame arrives: `heartbeat.reset()`, then `handle_frame` runs to its first
suspension or back to the `select!`. -/
def TimedLoop.receive (cfg : WsHubConfig) (action : FrameAction Req) (s : TimedLoop) :
    TimedLoop :=
  let s := { s with lastFrame := s.now, tickDeadline := s.now + cfg.heartbeatInterval }
  match action with
  | .exit reason => { s with pos := .done reason }
  | .sendPong data => { s with pos := .sendPong data }
  | .recordRtt => { s with pingSentAt := none }.enterSelect cfg
  | .ignore | .spawn _ => s.enterSelect cfg

/-- `ping_sent_at = Some(now)`; the interval's next deadline is one period later. -/
def TimedLoop.tick (cfg : WsHubConfig) (s : TimedLoop) : TimedLoop :=
  { s with
    pos := .sendPing
    pingSentAt := some s.now
    tickDeadline := s.tickDeadline + cfg.heartbeatInterval }

inductive LoopEvent where
  | pass (d : Nat)
  | frame (msg : Message)
  | streamClosed
  | readError
  | idle
  | tick
  | enqueued
  | rejected
  | cancelled

/-- One step of the timed loop. Time passes in the `select!` only up to the next timer
deadline, where a branch is ready; it passes in an enqueue only if the queue may be
`full`. When several branches are ready any of them may win. -/
inductive LoopStep (cfg : WsHubConfig) (decode : Message → Option Req) (full : Bool) :
    TimedLoop → LoopEvent → TimedLoop → Prop where
  | pass {s d} (hpos : s.pos = .select) (hidle : s.now + d ≤ s.idleDeadline)
      (htick : s.now + d ≤ s.tickDeadline) :
      LoopStep cfg decode full s (.pass d) { s with now := s.now + d }
  | blocked {s d msg} (hpos : s.pos.enqueuing = some msg) (hfull : full = true) :
      LoopStep cfg decode full s (.pass d) { s with now := s.now + d }
  | idle {s} (hpos : s.pos = .select) (hidle : s.idleDeadline ≤ s.now) :
      LoopStep cfg decode full s .idle { s with pos := .done .idleTimeout }
  | streamClosed {s} (hpos : s.pos = .select) :
      LoopStep cfg decode full s .streamClosed { s with pos := .done .streamClosed }
  | readError {s} (hpos : s.pos = .select) :
      LoopStep cfg decode full s .readError { s with pos := .done .readError }
  | frame {s} (msg : Message) (hpos : s.pos = .select) :
      LoopStep cfg decode full s (.frame msg) (s.receive cfg (handleFrame decode msg))
  | tick {s} (hpos : s.pos = .select) (htick : s.tickDeadline ≤ s.now) :
      LoopStep cfg decode full s .tick (s.tick cfg)
  | enqueued {s msg} (hpos : s.pos.enqueuing = some msg) :
      LoopStep cfg decode full s .enqueued (s.enterSelect cfg)
  | rejected {s msg} (hpos : s.pos.enqueuing = some msg) :
      LoopStep cfg decode full s .rejected { s with pos := .done s.pos.sendError }
  | cancelled {s} (hpos : s.pos = .select) :
      LoopStep cfg decode full s .cancelled { s with pos := .done .serverDisconnected }

/-- The timed system of one read loop. -/
def timedLoop (cfg : WsHubConfig) (decode : Message → Option Req) (full : Bool) :
    LTS TimedLoop LoopEvent := ⟨LoopStep cfg decode full⟩

@[simp] theorem enterSelect_pos (cfg : WsHubConfig) (s : TimedLoop) :
    (s.enterSelect cfg).pos = .select := rfl

@[simp] theorem enterSelect_now (cfg : WsHubConfig) (s : TimedLoop) :
    (s.enterSelect cfg).now = s.now := rfl

@[simp] theorem receive_pos (cfg : WsHubConfig) (action : FrameAction Req) (s : TimedLoop) :
    (s.receive cfg action).pos = action.pos := by cases action <;> rfl

@[simp] theorem receive_now (cfg : WsHubConfig) (action : FrameAction Req) (s : TimedLoop) :
    (s.receive cfg action).now = s.now := by cases action <;> rfl

@[simp] theorem receive_lastFrame (cfg : WsHubConfig) (action : FrameAction Req)
    (s : TimedLoop) : (s.receive cfg action).lastFrame = s.now := by cases action <;> rfl

@[simp] theorem receive_tickDeadline (cfg : WsHubConfig) (action : FrameAction Req)
    (s : TimedLoop) :
    (s.receive cfg action).tickDeadline = s.now + cfg.heartbeatInterval := by
  cases action <;> rfl

/-- Back in the `select!` after a frame, the idle timer counts from that frame. -/
theorem receive_idleDeadline {cfg : WsHubConfig} {action : FrameAction Req} {s : TimedLoop}
    (h : action.pos = .select) :
    (s.receive cfg action).idleDeadline = s.now + cfg.idleTimeout := by
  cases action <;> first | rfl | simp [FrameAction.pos] at h

end AxumSignal

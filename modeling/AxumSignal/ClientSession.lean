import AxumSignal.Codec
import AxumSignal.ReadLoop
import AxumSignal.Lib.Streams

/-! One session between a `HubClient` and the read loop of its connection. -/
namespace AxumSignal

open Transition Streams

variable {E V : Type}

inductive ClientError (E : Type) where
  | disconnected
  | encode (error : E)

/-- A connected client, the frames on their way, and the read loop. `tx` tells whether the
client holds its sender, `writer` whether the writer task holds the receiver. `sent` are the
values of the calls of `send` that returned `Ok`, `spawned` the requests of the handlers. -/
structure ClientSession (V : Type) where
  tx : Bool
  writer : Bool
  queue : List TungMessage
  wire : List TungMessage
  loop : TimedLoop
  sent : List V
  spawned : List V

/-- `HubClient::send`. -/
def ClientSession.send (codec : WsCodec E V) (value : V) (s : ClientSession V) :
    Except (ClientError E) (ClientSession V) :=
  if s.tx then
    match codec.encode value with
    | .error error => .error (.encode error)
    | .ok msg =>
      if s.writer then
        .ok { s with queue := s.queue ++ [axumToTung msg], sent := s.sent ++ [value] }
      else .error .disconnected
  else .error .disconnected

/-- The first part of `HubClient::disconnect`, and all of `drop`: a Close frame is queued, if
someone still reads the queue, and the sender is dropped. -/
def ClientSession.disconnect (s : ClientSession V) : ClientSession V :=
  if s.tx then
    { s with
      tx := false
      queue := if s.writer then s.queue ++ [axumToTung (.close none)] else s.queue }
  else s

/-- The request for which `handle_frame` spawns `on_message`. -/
def FrameAction.spawned : FrameAction V → Option V
  | .spawn req => some req
  | _ => none

def TungMessage.isClose : TungMessage → Bool
  | .close _ => true
  | _ => false

/-- A Ping, a Pong, an undecodable frame, or one that the server's stream does not show. -/
def Noise (codec : WsCodec E V) (link : Transport) (frame : TungMessage) : Prop :=
  match link.toServer frame with
  | none | some (.ping _) | some (.pong _) => True
  | some (.close _) => False
  | some msg => codec.accept msg = none

inductive SessionEvent (V : Type) where
  | send (value : V)
  | disconnect
  | write
  | writeFailed (reached : Bool)
  | writerEnded
  | noise (frame : TungMessage)
  | frame (msg : Message)
  | skipped
  | loop (e : LoopEvent)

/-- A step of the client, of its writer task, of the peer beside it, or of the read loop. The
writer task leaves over a failed `sink.send`, which may have been carried out (`reached`), or
over a queue that is closed and drained. The read loop takes its frames from the wire. -/
inductive SessionStep (cfg : WsHubConfig) (codec : WsCodec E V) (link : Transport) (full : Bool) :
    ClientSession V → SessionEvent V → ClientSession V → Prop where
  | send {s t : ClientSession V} (value : V) (hok : s.send codec value = .ok t) :
      SessionStep cfg codec link full s (.send value) t
  | disconnect {s : ClientSession V} : SessionStep cfg codec link full s .disconnect s.disconnect
  | write {s : ClientSession V} {frame : TungMessage} {rest : List TungMessage}
      (hwriter : s.writer = true) (hqueue : s.queue = frame :: rest) :
      SessionStep cfg codec link full s .write
        { s with queue := rest, wire := s.wire ++ [frame] }
  | writeFailed {s : ClientSession V} {frame : TungMessage} {rest : List TungMessage}
      (reached : Bool) (hwriter : s.writer = true) (hqueue : s.queue = frame :: rest) :
      SessionStep cfg codec link full s (.writeFailed reached)
        { s with
          writer := false
          queue := []
          wire := if reached then s.wire ++ [frame] else s.wire }
  | writerEnded {s : ClientSession V} (hwriter : s.writer = true) (htx : s.tx = false)
      (hqueue : s.queue = []) :
      SessionStep cfg codec link full s .writerEnded { s with writer := false }
  | noise {s : ClientSession V} (frame : TungMessage) (hnoise : Noise codec link frame) :
      SessionStep cfg codec link full s (.noise frame) { s with wire := s.wire ++ [frame] }
  | frame {s : ClientSession V} {frame : TungMessage} {rest : List TungMessage} {loop : TimedLoop}
      (msg : Message) (hwire : s.wire = frame :: rest) (hmsg : link.toServer frame = some msg)
      (hloop : LoopStep cfg codec.accept full s.loop (.frame msg) loop) :
      SessionStep cfg codec link full s (.frame msg)
        { s with
          wire := rest
          loop := loop
          spawned := s.spawned ++ (handleFrame codec.accept msg).spawned.toList }
  | skipped {s : ClientSession V} {frame : TungMessage} {rest : List TungMessage}
      (hpos : s.loop.pos = .select) (hwire : s.wire = frame :: rest)
      (hmsg : link.toServer frame = none) :
      SessionStep cfg codec link full s .skipped { s with wire := rest }
  | loop {s : ClientSession V} {loop : TimedLoop} (e : LoopEvent)
      (hframe : ∀ msg, e ≠ .frame msg)
      (hloop : LoopStep cfg codec.accept full s.loop e loop) :
      SessionStep cfg codec link full s (.loop e) { s with loop := loop }

/-- The system of one session. -/
def sessionSystem (cfg : WsHubConfig) (codec : WsCodec E V) (link : Transport) (full : Bool) :
    LTS (ClientSession V) (SessionEvent V) := ⟨SessionStep cfg codec link full⟩

/-- A client that `connect` has just returned for, and a read loop at its entry. -/
def ClientSession.start (cfg : WsHubConfig) : ClientSession V where
  tx := true
  writer := true
  queue := []
  wire := []
  loop := .start cfg
  sent := []
  spawned := []

/-- Handlers run for a first part of the values sent, and for all of them if the loop has
ended on a Close frame. -/
def ClientSession.Exact (s : ClientSession V) : Prop :=
  s.spawned <+: s.sent ∧ (s.loop.pos = .done .clientClosed → s.spawned = s.sent)

/-- The request that a frame on the wire gives rise to. -/
def requestOf (codec : WsCodec E V) (link : Transport) (frame : TungMessage) : Option V :=
  (link.toServer frame).bind fun msg => (handleFrame codec.accept msg).spawned

/-- The requests of the frames up to the first Close. -/
def requests (codec : WsCodec E V) (link : Transport) : List TungMessage → List V :=
  readUpTo TungMessage.isClose (requestOf codec link)

/-- The read loop still takes frames. -/
def TimedLoop.Live (loop : TimedLoop) : Prop := ∀ reason, loop.pos ≠ .done reason

/-- The invariant of a session: what the read loop has made of the stream and will make of the
frames on their way, against the values sent. -/
structure ClientSession.Sound (codec : WsCodec E V) (link : Transport)
    (s : ClientSession V) : Prop where
  ahead : s.loop.Live → s.spawned ++ requests codec link (s.wire ++ s.queue) <+: s.sent
  whole : s.loop.Live → s.writer = true ∨ (∃ frame ∈ s.wire, frame.isClose = true) →
    s.spawned ++ requests codec link (s.wire ++ s.queue) = s.sent
  holding : s.tx = true → s.loop.pos ≠ .done .clientClosed ∧
    ∀ frame ∈ s.wire ++ s.queue, frame.isClose = false
  final : ∀ frame ∈ s.queue.dropLast, frame.isClose = false
  drained : ∀ frame ∈ s.wire, frame.isClose = true → s.queue = []
  exact : s.Exact

variable {cfg : WsHubConfig} {codec : WsCodec E V} {link : Transport} {full : Bool}
  {s t : ClientSession V} {e : SessionEvent V} {es : List (SessionEvent V)} {frame : TungMessage}

theorem toServer_close {why : Option (UInt16 × String)}
    (h : link.toServer frame = some (.close why)) : frame.isClose = true := by
  cases frame with
  | close => rfl
  | text text => simp [link.server_text] at h
  | binary data => simp [link.server_binary] at h
  | ping data =>
    obtain ⟨data', hping⟩ := link.server_ping data
    simp [hping] at h
  | pong data =>
    obtain ⟨data', hpong⟩ := link.server_pong data
    simp [hpong] at h
  | frame data => simp [link.server_frame] at h

theorem isClose_toServer (link : Transport) (h : frame.isClose = true) :
    ∃ why, link.toServer frame = some (.close why) := by
  cases frame with
  | close why => exact link.server_close why
  | _ => simp [TungMessage.isClose] at h

/-- What `send` queues for a value is read as that value. -/
theorem requestOf_encode (link : Transport) (hcodec : codec.Lawful) {value : V} {msg : Message}
    (h : codec.encode value = .ok msg) :
    requestOf codec link (axumToTung msg) = some value ∧ (axumToTung msg).isClose = false := by
  have hdata := hcodec.data _ _ h
  have hdecode := hcodec.decode _ _ h
  rw [requestOf, toServer_axumToTung link hdata]
  cases msg with
  | text | binary =>
    simp [handleFrame, WsCodec.accept, hdecode, Except.toOption, FrameAction.spawned,
      axumToTung, TungMessage.isClose]
  | _ => exact hdata.elim

theorem noise_requestOf (h : Noise codec link frame) :
    requestOf codec link frame = none ∧ frame.isClose = false := by
  have hopen : frame.isClose = false := by
    rw [Bool.eq_false_iff]
    intro hclose
    obtain ⟨why, hwhy⟩ := isClose_toServer link hclose
    simp [Noise, hwhy] at h
  refine ⟨?_, hopen⟩
  unfold Noise at h
  rw [requestOf]
  cases hmsg : link.toServer frame with
  | none => rfl
  | some msg =>
    cases msg with
    | ping | pong => rfl
    | close => rfl
    | text | binary =>
      simp only [hmsg] at h
      simp [handleFrame, h, FrameAction.spawned]

theorem loopStep_live {loop loop' : TimedLoop} {e : LoopEvent}
    (h : LoopStep cfg codec.accept full loop e loop') : loop.Live := by
  intro reason hdone
  cases h <;> simp_all [ReadPos.enqueuing]

theorem handleFrame_clientClosed {msg : Message}
    (h : (handleFrame codec.accept msg).pos = .done .clientClosed) : ∃ why, msg = .close why := by
  cases msg with
  | close why => exact ⟨why, rfl⟩
  | ping | pong => simp [handleFrame, FrameAction.pos] at h
  | text text =>
    cases hmsg : codec.accept (.text text) <;> simp [handleFrame, hmsg, FrameAction.pos] at h
  | binary data =>
    cases hmsg : codec.accept (.binary data) <;> simp [handleFrame, hmsg, FrameAction.pos] at h

/-- Only a Close frame ends the loop as closed by the client. -/
theorem loopStep_clientClosed {loop loop' : TimedLoop} {e : LoopEvent}
    (h : LoopStep cfg codec.accept full loop e loop') (hpos : loop'.pos = .done .clientClosed) :
    ∃ why, e = .frame (.close why) := by
  cases h with
  | frame msg hselect =>
    rw [receive_pos] at hpos
    obtain ⟨why, rfl⟩ := handleFrame_clientClosed hpos
    exact ⟨why, rfl⟩
  | @rejected msg hmsg =>
    cases hsend : loop.pos <;> simp [hsend, ReadPos.sendError] at hpos
  | pass hselect | blocked hselect => simp_all [ReadPos.enqueuing]
  | _ => simp [TimedLoop.tick, TimedLoop.enterSelect] at hpos

theorem send_ok {value : V} (h : s.send codec value = .ok t) :
    ∃ msg, s.tx = true ∧ s.writer = true ∧ codec.encode value = .ok msg ∧
      t = { s with queue := s.queue ++ [axumToTung msg], sent := s.sent ++ [value] } := by
  unfold ClientSession.send at h
  split at h
  · next htx =>
    split at h
    · simp at h
    · next msg hmsg =>
      split at h
      · next hwriter => exact ⟨msg, htx, hwriter, hmsg, (Except.ok.inj h).symm⟩
      · simp at h
  · simp at h

theorem start_sound : (ClientSession.start cfg : ClientSession V).Sound codec link where
  ahead _ := List.prefix_rfl
  whole _ _ := rfl
  holding _ := ⟨by simp [ClientSession.start, TimedLoop.start], by simp [ClientSession.start]⟩
  final := by simp [ClientSession.start]
  drained := by simp [ClientSession.start]
  exact := ⟨List.prefix_rfl, fun _ => rfl⟩

theorem sound_send (hcodec : codec.Lawful) (hs : s.Sound codec link) {value : V}
    (h : s.send codec value = .ok t) : t.Sound codec link := by
  obtain ⟨msg, htx, hwriter, hencode, rfl⟩ := send_ok h
  obtain ⟨hvalue, hopen⟩ := requestOf_encode link hcodec hencode
  obtain ⟨hpos, hclear⟩ := hs.holding htx
  have hmore : requests codec link (s.wire ++ (s.queue ++ [axumToTung msg])) =
      requests codec link (s.wire ++ s.queue) ++ [value] := by
    rw [← List.append_assoc, requests, readUpTo_append hclear, readUpTo_go hopen, hvalue]
    rfl
  have hall (hlive : s.loop.Live) : s.spawned ++ requests codec link
      (s.wire ++ (s.queue ++ [axumToTung msg])) = s.sent ++ [value] := by
    rw [hmore, ← List.append_assoc, hs.whole hlive (Or.inl hwriter)]
  have hclear' : ∀ frame ∈ s.wire ++ (s.queue ++ [axumToTung msg]), frame.isClose = false := by
    intro frame hframe
    rw [← List.append_assoc, List.mem_append, List.mem_singleton] at hframe
    rcases hframe with hframe | rfl
    · exact hclear frame hframe
    · exact hopen
  constructor
  case ahead =>
    intro hlive
    exact (hall hlive) ▸ List.prefix_rfl
  case whole =>
    intro hlive _
    exact hall hlive
  case holding =>
    intro _
    exact ⟨hpos, hclear'⟩
  case final =>
    intro frame hframe
    rw [List.dropLast_concat] at hframe
    exact hclear frame (List.mem_append_right _ hframe)
  case drained =>
    intro frame hframe hclose
    simp [hclear frame (List.mem_append_left _ hframe)] at hclose
  case exact =>
    exact ⟨hs.exact.1.trans (List.prefix_append ..), fun hdone => (hpos hdone).elim⟩

theorem sound_disconnect (hs : s.Sound codec link) : s.disconnect.Sound codec link := by
  unfold ClientSession.disconnect
  split
  · next htx =>
    obtain ⟨hpos, hclear⟩ := hs.holding htx
    have hqueue : ∃ last, (if s.writer then s.queue ++ [axumToTung (.close none)] else s.queue) =
        s.queue ++ last ∧ requests codec link last = [] ∧ last.length ≤ 1 := by
      split
      · exact ⟨_, rfl, rfl, by simp⟩
      · exact ⟨[], by simp, rfl, by simp⟩
    obtain ⟨last, hlast, hnone, hlength⟩ := hqueue
    rw [hlast]
    have hsame : requests codec link (s.wire ++ (s.queue ++ last)) =
        requests codec link (s.wire ++ s.queue) := by
      rw [← List.append_assoc, requests, readUpTo_append hclear]
      change requests codec link (s.wire ++ s.queue) ++ requests codec link last = _
      rw [hnone, List.append_nil]
      rfl
    constructor
    case ahead =>
      intro hlive
      exact hsame ▸ hs.ahead hlive
    case whole =>
      intro hlive hwhole
      exact hsame ▸ hs.whole hlive hwhole
    case holding =>
      intro htx'
      simp at htx'
    case final =>
      intro frame hframe
      have hmem : frame ∈ s.queue := by
        rcases last with - | ⟨one, - | _⟩
        · exact List.dropLast_subset _ (by simpa using hframe)
        · simpa using hframe
        · simp at hlength
      exact hclear frame (List.mem_append_right _ hmem)
    case drained =>
      intro frame hframe hclose
      simp [hclear frame (List.mem_append_left _ hframe)] at hclose
    case exact =>
      exact hs.exact
  · exact hs

theorem sound_write {rest : List TungMessage} (hs : s.Sound codec link)
    (hwriter : s.writer = true) (hqueue : s.queue = frame :: rest) :
    ClientSession.Sound codec link { s with queue := rest, wire := s.wire ++ [frame] } := by
  have hsame : s.wire ++ [frame] ++ rest = s.wire ++ s.queue := by simp [hqueue]
  constructor
  case ahead =>
    intro hlive
    rw [hsame]
    exact hs.ahead hlive
  case whole =>
    intro hlive _
    rw [hsame]
    exact hs.whole hlive (Or.inl hwriter)
  case holding =>
    intro htx
    rw [hsame]
    exact hs.holding htx
  case final =>
    intro other hother
    refine hs.final other ?_
    rw [hqueue]
    cases rest with
    | nil => simp at hother
    | cons => exact List.mem_cons_of_mem _ hother
  case drained =>
    intro other hother hclose
    rcases List.mem_append.mp hother with hwire | hlast
    · exact absurd (hs.drained other hwire hclose) (by simp [hqueue])
    · rw [List.mem_singleton.mp hlast] at hclose
      cases rest with
      | nil => rfl
      | cons next rest =>
        have hopen := hs.final frame (by simp [hqueue])
        simp [hopen] at hclose
  case exact =>
    exact hs.exact

/-- The writer task is gone, and the queue with it. -/
theorem sound_abandon (hs : s.Sound codec link) :
    ClientSession.Sound codec link { s with writer := false, queue := [] } := by
  have hpre : requests codec link s.wire <+: requests codec link (s.wire ++ s.queue) :=
    readUpTo_prefix s.wire s.queue
  constructor
  case ahead =>
    intro hlive
    simp only [List.append_nil]
    exact ((List.prefix_append_right_inj _).mpr hpre).trans (hs.ahead hlive)
  case whole =>
    rintro hlive (hwriter | ⟨frame, hframe, hclose⟩)
    · simp at hwriter
    · have hwhole := hs.whole hlive (Or.inr ⟨frame, hframe, hclose⟩)
      rwa [hs.drained frame hframe hclose] at hwhole
  case holding =>
    intro htx
    obtain ⟨hpos, hclear⟩ := hs.holding htx
    exact ⟨hpos, fun frame hframe => hclear frame (by simp_all)⟩
  case final =>
    intro frame hframe
    simp at hframe
  case drained =>
    intro _ _ _
    rfl
  case exact =>
    exact hs.exact

theorem sound_noise (hs : s.Sound codec link) (hnoise : Noise codec link frame) :
    ClientSession.Sound codec link { s with wire := s.wire ++ [frame] } := by
  obtain ⟨hvalue, hopen⟩ := noise_requestOf hnoise
  have hsame : requests codec link (s.wire ++ [frame] ++ s.queue) =
      requests codec link (s.wire ++ s.queue) := by
    rw [List.append_assoc]
    exact readUpTo_skip hopen hvalue s.wire s.queue
  have hold {other : TungMessage} (hother : other ∈ s.wire ++ [frame])
      (hclose : other.isClose = true) : other ∈ s.wire := by
    rcases List.mem_append.mp hother with hwire | hlast
    · exact hwire
    · rw [List.mem_singleton.mp hlast, hopen] at hclose
      simp at hclose
  constructor
  case ahead =>
    intro hlive
    rw [hsame]
    exact hs.ahead hlive
  case whole =>
    rintro hlive hwhole
    rw [hsame]
    refine hs.whole hlive (hwhole.imp_right ?_)
    rintro ⟨other, hother, hclose⟩
    exact ⟨other, hold hother hclose, hclose⟩
  case holding =>
    intro htx
    obtain ⟨hpos, hclear⟩ := hs.holding htx
    refine ⟨hpos, fun other hother => ?_⟩
    rcases List.mem_append.mp hother with hwire | hqueue
    · rw [Bool.eq_false_iff]
      intro hclose
      simp [hclear other (List.mem_append_left _ (hold hwire hclose))] at hclose
    · exact hclear other (List.mem_append_right _ hqueue)
  case final =>
    exact hs.final
  case drained =>
    intro other hother hclose
    exact hs.drained other (hold hother hclose) hclose
  case exact =>
    exact hs.exact

/-- The loop reads a frame that is not a Close. -/
theorem sound_read {rest : List TungMessage} {loop : TimedLoop} (hs : s.Sound codec link)
    (hlive : s.loop.Live) (hwire : s.wire = frame :: rest) (hopen : frame.isClose = false)
    (hpos : loop.pos ≠ .done .clientClosed) :
    ClientSession.Sound codec link { s with
      wire := rest
      loop := loop
      spawned := s.spawned ++ (requestOf codec link frame).toList } := by
  have hsame : s.spawned ++ (requestOf codec link frame).toList ++
      requests codec link (rest ++ s.queue) =
      s.spawned ++ requests codec link (s.wire ++ s.queue) := by
    rw [hwire, List.cons_append, requests, readUpTo_go hopen, List.append_assoc]
  have hahead := hs.ahead hlive
  constructor
  case ahead =>
    intro _
    exact hsame ▸ hahead
  case whole =>
    rintro - hwhole
    refine hsame ▸ hs.whole hlive (hwhole.imp_right ?_)
    rintro ⟨other, hother, hclose⟩
    exact ⟨other, by simp [hwire, hother], hclose⟩
  case holding =>
    intro htx
    exact ⟨hpos, fun other hother => (hs.holding htx).2 other (by simp_all)⟩
  case final =>
    exact hs.final
  case drained =>
    intro other hother hclose
    exact hs.drained other (by simp [hwire, hother]) hclose
  case exact =>
    refine ⟨?_, fun hdone => (hpos hdone).elim⟩
    rw [← hsame] at hahead
    exact (List.prefix_append ..).trans hahead

/-- The loop reads a Close. -/
theorem sound_close {rest : List TungMessage} {loop : TimedLoop} (hs : s.Sound codec link)
    (hlive : s.loop.Live) (hwire : s.wire = frame :: rest) (hclose : frame.isClose = true)
    (hpos : loop.pos = .done .clientClosed) :
    ClientSession.Sound codec link { s with wire := rest, loop := loop } := by
  have hdone : ¬ loop.Live := fun hlive' => hlive' _ hpos
  have hwhole := hs.whole hlive (Or.inr ⟨frame, by simp [hwire], hclose⟩)
  rw [hwire, List.cons_append, requests, readUpTo_stop hclose, List.append_nil] at hwhole
  constructor
  case ahead =>
    intro hlive'
    exact (hdone hlive').elim
  case whole =>
    intro hlive' _
    exact (hdone hlive').elim
  case holding =>
    intro htx
    have hopen := (hs.holding htx).2 frame (by simp [hwire])
    simp [hopen] at hclose
  case final =>
    exact hs.final
  case drained =>
    intro other hother hother'
    exact hs.drained other (by simp [hwire, hother]) hother'
  case exact =>
    exact ⟨hs.exact.1, fun _ => hwhole⟩

theorem sound_loop {loop : TimedLoop} (hs : s.Sound codec link) (hlive : s.loop.Live)
    (hpos : loop.pos ≠ .done .clientClosed) :
    ClientSession.Sound codec link { s with loop := loop } :=
  { ahead := fun _ => hs.ahead hlive
    whole := fun _ => hs.whole hlive
    holding := fun htx => ⟨hpos, (hs.holding htx).2⟩
    final := hs.final
    drained := hs.drained
    exact := ⟨hs.exact.1, fun hdone => (hpos hdone).elim⟩ }

theorem sound_step (hcodec : codec.Lawful) (hs : s.Sound codec link)
    (h : SessionStep cfg codec link full s e t) : t.Sound codec link := by
  cases h with
  | send value hok => exact sound_send hcodec hs hok
  | disconnect => exact sound_disconnect hs
  | write hwriter hqueue => exact sound_write hs hwriter hqueue
  | writeFailed reached hwriter hqueue =>
    cases reached with
    | false => exact sound_abandon hs
    | true => exact sound_abandon (sound_write hs hwriter hqueue)
  | writerEnded hwriter htx hqueue =>
    have habandon := sound_abandon hs
    rwa [← hqueue] at habandon
  | noise frame hnoise => exact sound_noise hs hnoise
  | @frame frame rest loop msg hwire hmsg hloop =>
    have hlive := loopStep_live hloop
    have hrequest : (handleFrame codec.accept msg).spawned = requestOf codec link frame := by
      simp [requestOf, hmsg]
    cases hclose : frame.isClose with
    | true =>
      obtain ⟨why, hwhy⟩ := isClose_toServer link hclose
      obtain rfl : msg = .close why := by simpa [hmsg] using hwhy
      have hpos : loop.pos = .done .clientClosed := by
        cases hloop
        rw [receive_pos]
        rfl
      simpa [handleFrame, FrameAction.spawned] using sound_close hs hlive hwire hclose hpos
    | false =>
      have hpos : loop.pos ≠ .done .clientClosed := by
        intro hdone
        obtain ⟨why, hwhy⟩ := loopStep_clientClosed hloop hdone
        obtain rfl : msg = .close why := by simpa using hwhy
        simp [toServer_close hmsg] at hclose
      rw [hrequest]
      exact sound_read hs hlive hwire hclose hpos
  | @skipped frame rest hselect hwire hmsg =>
    have hopen : frame.isClose = false := by
      rw [Bool.eq_false_iff]
      intro hclose
      obtain ⟨why, hwhy⟩ := isClose_toServer link hclose
      simp [hmsg] at hwhy
    have hlive : s.loop.Live := fun reason => by simp [hselect]
    have hread := sound_read hs hlive hwire hopen (hlive _)
    simpa [requestOf, hmsg] using hread
  | loop e hframe hloop =>
    refine sound_loop hs (loopStep_live hloop) fun hdone => ?_
    obtain ⟨why, hwhy⟩ := loopStep_clientClosed hloop hdone
    exact hframe _ hwhy

theorem session_exact (hcodec : codec.Lawful)
    (h : (sessionSystem cfg codec link full).Run (.start cfg) es t) : t.Exact :=
  (h.invariant (I := ClientSession.Sound codec link)
    (fun _ _ _ hstep hs => sound_step hcodec hs hstep) start_sound).exact

/-- With either codec, and a format that decodes what it encodes, the read loop spawns handlers
for a first part of the values sent, in order, and for all of them once it has ended on the
Close frame of the client. -/
theorem sessions_exact {W F : Type} {json : SerdeJson E V} {postcard : Postcard F W}
    (hjson : json.RoundTrips) (hpostcard : postcard.RoundTrips) (cfg : WsHubConfig)
    (link : Transport) (full : Bool) :
    (∀ es t, (sessionSystem cfg (jsonCodec json) link full).Run (.start cfg) es t → t.Exact) ∧
    (∀ es t, (sessionSystem cfg (binaryCodec postcard) link full).Run (.start cfg) es t →
      t.Exact) :=
  ⟨fun _ _ h => session_exact (jsonCodec_lawful hjson) h,
    fun _ _ h => session_exact (binaryCodec_lawful hpostcard) h⟩

/-- A JSON session of two values with a Pong between them, and a binary session of one value,
each up to the Close frame of the client. -/
theorem sessions_exact_closed :
    (∃ t : ClientSession Bool, t.Exact ∧ t.spawned = [true, false] ∧
      t.loop.pos = .done .clientClosed) ∧
    ∃ t : ClientSession Bool, t.Exact ∧ t.spawned = [true] ∧
      t.loop.pos = .done .clientClosed := by
  have hexact := sessions_exact boolJson_roundTrips boolPostcard_roundTrips .default .plain true
  have hjson : (sessionSystem .default (jsonCodec boolJson) .plain true).Run (.start .default)
      [.send true, .write, .noise (.pong []), .send false, .disconnect, .write, .write,
        .frame (.text "true"), .frame (.pong []), .frame (.text "false"), .frame (.close none)]
      _ :=
    .step (.send true rfl) <| .step (.write rfl rfl) <| .step (.noise (.pong []) trivial) <|
    .step (.send false rfl) <| .step .disconnect <| .step (.write rfl rfl) <|
    .step (.write rfl rfl) <| .step (.frame _ rfl rfl (.frame _ rfl)) <|
    .step (.frame _ rfl rfl (.frame _ rfl)) <| .step (.frame _ rfl rfl (.frame _ rfl)) <|
    .single (.frame _ rfl rfl (.frame _ rfl))
  have hbinary : (sessionSystem .default (binaryCodec boolPostcard) .plain true).Run
      (.start .default) [.send true, .disconnect, .write, .write, .frame (.binary [1]),
        .frame (.close none)] _ :=
    .step (.send true rfl) <| .step .disconnect <| .step (.write rfl rfl) <|
    .step (.write rfl rfl) <| .step (.frame _ rfl rfl (.frame _ rfl)) <|
    .single (.frame _ rfl rfl (.frame _ rfl))
  exact ⟨⟨_, hexact.1 _ _ hjson, rfl, rfl⟩, _, hexact.2 _ _ hbinary, rfl, rfl⟩

end AxumSignal

import AxumSignal.Cancellation
import AxumSignal.Codec
import AxumSignal.Lib.Streams

/-! What `spawn_writer` writes for a connection, from its queue and from the broadcast channel,
and what the reader task of `HubClient` makes of it. -/
namespace AxumSignal

open Transition Streams

variable {Req E R : Type}

/-- The two sources that `spawn_writer` merges. -/
inductive Source where
  | unicast
  | broadcast
  deriving DecidableEq

/-- The past of a writer task: what its two sources were given, what it got from them
(`taken` by `unicast_rx.recv()`, `results` by `broadcast_rx.recv()`), and what it wrote.
`hand` is the message of the current `sink.send`; `heard` is `results` up to the last
broadcast written. -/
structure Traffic where
  accepted : List Message
  published : List Message
  taken : List Message
  results : List (Except Nat Message)
  hand : Option (Source × Message)
  unicasts : List Message
  heard : List (Except Nat Message)
  written : List Message

def Traffic.start : Traffic where
  accepted := []
  published := []
  taken := []
  results := []
  hand := none
  unicasts := []
  heard := []
  written := []

def MainPos.enqueuing : MainPos → Option Message
  | .reading pos => pos.enqueuing
  | _ => none

/-- The sink has taken the message in hand. -/
def Traffic.put (t : Traffic) : Traffic :=
  match t.hand with
  | none => t
  | some (.unicast, msg) =>
    { t with hand := none, unicasts := t.unicasts ++ [msg], written := t.written ++ [msg] }
  | some (.broadcast, msg) =>
    { t with hand := none, heard := t.results, written := t.written ++ [msg] }

/-- What a step from `s` adds to the past. -/
def Traffic.note (s : Conn) (t : Traffic) : ConnEvent → Traffic
  | .pushed msg => { t with accepted := t.accepted ++ [msg] }
  | .enqueued => { t with accepted := t.accepted ++ s.main.enqueuing.toList }
  | .published msg => { t with published := t.published ++ [msg] }
  | .take =>
    { t with taken := t.taken ++ s.chan.queue.head?.toList,
             hand := s.chan.queue.head?.map (.unicast, ·) }
  | .receive =>
    { t with results := t.results ++ s.inbox.head?.toList.map .ok,
             hand := s.inbox.head?.map (.broadcast, ·) }
  | .lagged n => { t with results := t.results ++ [.error n] }
  | .sent => t.put
  | .sinkError => { t with hand := none }
  | _ => t

/-- The reader task of `HubClient::connect`; `handler` tells whether `on_message` was called
before, `arrived` counts the frames of the server's writer. -/
structure Reader (R : Type) where
  running : Bool
  handler : Bool
  arrived : Nat
  handled : List R

/-- The body of the reader's loop: what the handler is called with for a frame. -/
def Reader.call (codec : WsCodec E R) (r : Reader R) (msg : TungMessage) : Option R :=
  match tungToAxum msg with
  | none => none
  | some axumMsg => if r.handler then (codec.decode axumMsg).toOption else none

def Reader.onFrame (codec : WsCodec E R) (r : Reader R) (msg : TungMessage) : Reader R :=
  { r with handled := r.handled ++ (r.call codec msg).toList }

/-- A connection with the past of its writer and the reader of its client. -/
structure Stream (R : Type) where
  conn : Conn
  traffic : Traffic
  reader : Reader R

inductive StreamEvent where
  | conn (e : ConnEvent)
  | flushed
  | arrived
  | control (msg : TungMessage)
  | readerEnded

/-- A step of the connection, or of the client's reader. A `sink.send` that fails may still
have handed its frame to the transport (`flushed`); the transport adds control frames of
its own (`control`). -/
inductive StreamStep (decode : Message → Option Req) (codec : WsCodec E R) (link : Transport) :
    Stream R → StreamEvent → Stream R → Prop where
  | conn {s : Stream R} {e : ConnEvent} {c : Conn} (h : ConnStep decode s.conn e c) :
      StreamStep decode codec link s (.conn e)
        { s with conn := c, traffic := s.traffic.note s.conn e }
  | flushed {s : Stream R} {c : Conn} (h : ConnStep decode s.conn .sinkError c) :
      StreamStep decode codec link s .flushed { s with conn := c, traffic := s.traffic.put }
  | arrived {s : Stream R} {msg : Message} (hrun : s.reader.running = true)
      (hnext : s.traffic.written[s.reader.arrived]? = some msg) :
      StreamStep decode codec link s .arrived
        { s with reader := { s.reader.onFrame codec (link.toClient msg) with
            arrived := s.reader.arrived + 1 } }
  | control {s : Stream R} (msg : TungMessage) (hrun : s.reader.running = true)
      (hcontrol : tungToAxum msg = none) :
      StreamStep decode codec link s (.control msg)
        { s with reader := s.reader.onFrame codec msg }
  | readerEnded {s : Stream R} (hrun : s.reader.running = true) :
      StreamStep decode codec link s .readerEnded
        { s with reader := { s.reader with running := false } }

/-- The system of one connection and the reader of its client. -/
def streamSystem (decode : Message → Option Req) (codec : WsCodec E R) (link : Transport) :
    LTS (Stream R) StreamEvent := ⟨StreamStep decode codec link⟩

/-- A connection whose `add` call has not returned, and a reader that has seen nothing. -/
def Stream.Fresh (s : Stream R) : Prop :=
  s.conn.Fresh ∧ s.traffic = .start ∧ s.reader.arrived = 0 ∧ s.reader.handled = []

/-- A connection and a reader, both at their start. -/
def Stream.start (capacity window : Nat) (handler : Bool) : Stream R where
  conn := .start capacity window
  traffic := .start
  reader := { running := true, handler := handler, arrived := 0, handled := [] }

theorem start_stream_fresh (capacity window : Nat) (handler : Bool) :
    (Stream.start capacity window handler : Stream R).Fresh :=
  ⟨start_fresh capacity window, rfl, rfl, rfl⟩

/-- `bs` are the broadcasts received up to one of them. Of those published up to that one, the
others are as many as the reports among the results up to that one say. -/
def Traffic.Accounts (t : Traffic) (bs : List Message) : Prop :=
  ∃ heard seen, heard <+: t.results ∧ seen <+: t.published ∧ Recounts heard seen ∧
    (∀ r ∈ heard.getLast?, ∃ msg, r = .ok msg) ∧ bs = items heard ∧ bs.Sublist seen ∧
    seen.length = bs.length + lostCount heard

/-- The frames written are an interleaving of a first part of the messages accepted and of
broadcasts with an exact account of those left out. -/
def Traffic.Merged (t : Traffic) : Prop :=
  ∃ us bs, Interleaves us bs t.written ∧ us <+: t.accepted ∧ t.Accounts bs

/-- The value of a data frame, if it decodes. -/
def WsCodec.dataValue (codec : WsCodec E R) : Message → Option R
  | .text text => codec.accept (.text text)
  | .binary data => codec.accept (.binary data)
  | _ => none

/-- All that was taken has been written. -/
def Traffic.Settled (t : Traffic) : Prop :=
  t.taken = t.unicasts ∧ items t.results = items t.heard

/-- All that was taken has been written but for the message in hand. -/
def Traffic.Sending (t : Traffic) : Prop :=
  (∃ msg, t.hand = some (.unicast, msg) ∧ t.taken = t.unicasts ++ [msg] ∧
    items t.results = items t.heard) ∨
  ∃ msg rest, t.hand = some (.broadcast, msg) ∧ t.results = rest ++ [.ok msg] ∧
    items rest = items t.heard ∧ t.taken = t.unicasts

/-- The past of a writer, against its sources and its position. -/
structure Traffic.Tracks (s : Conn) (t : Traffic) : Prop where
  unspawned : s.main = .registering → s.writer = .unspawned
  queue : t.accepted = t.taken ++ s.chan.queue
  inbox : ∃ seen, t.published = seen ++ s.inbox ∧ Recounts t.results seen
  merged : Interleaves t.unicasts (items t.heard) t.written
  unicasts : t.unicasts <+: t.taken
  heard : t.heard <+: t.results
  last : ∀ r ∈ t.heard.getLast?, ∃ msg, r = .ok msg
  settled : s.writer = .unspawned ∨ s.writer = .select → t.Settled
  sending : s.writer = .sending → t.Sending

variable {s : Conn} {t : Traffic} {c : Conn} {e : ConnEvent} {decode : Message → Option Req}

theorem start_tracks (h : s.Fresh) : Traffic.start.Tracks s := by
  obtain ⟨-, hwriter, hqueue, -, hinbox, -⟩ := h
  exact {
    unspawned := fun _ => hwriter
    queue := by simp [Traffic.start, hqueue]
    inbox := ⟨[], by simp [Traffic.start, hinbox], .nil⟩
    merged := .nil
    unicasts := List.prefix_rfl
    heard := List.prefix_rfl
    last := by simp [Traffic.start]
    settled := fun _ => ⟨rfl, rfl⟩
    sending := fun hsending => by simp [hwriter] at hsending }

/-- The part of the record that no step of another task touches. -/
theorem Traffic.Tracks.frame (h : t.Tracks s) (hchan : c.chan.queue = s.chan.queue)
    (hinbox : c.inbox = s.inbox) (hmain : c.main = .registering → s.main = .registering)
    (hwriter : c.writer = s.writer) : t.Tracks c :=
  { unspawned := fun hpos => hwriter ▸ h.unspawned (hmain hpos)
    queue := hchan ▸ h.queue
    inbox := hinbox ▸ h.inbox
    merged := h.merged
    unicasts := h.unicasts
    heard := h.heard
    last := h.last
    settled := fun hpos => h.settled (hwriter ▸ hpos)
    sending := fun hpos => h.sending (hwriter ▸ hpos) }

/-- A writer that has left its loop drops what it had in hand. -/
theorem tracks_exit (h : t.Tracks s) (hspawned : s.writer ≠ .unspawned) (hand : _) :
    Traffic.Tracks { s with writer := .exited, chan := { s.chan with closed := true } }
      { t with hand := hand } :=
  { unspawned := fun hpos => (hspawned (h.unspawned hpos)).elim
    queue := h.queue
    inbox := h.inbox
    merged := h.merged
    unicasts := h.unicasts
    heard := h.heard
    last := h.last
    settled := fun hpos => by simp at hpos
    sending := fun hpos => by simp at hpos }

theorem tracks_push (h : t.Tracks s) (msg : Message) :
    Traffic.Tracks { s with chan := s.chan.push msg }
      { t with accepted := t.accepted ++ [msg] } :=
  { h with queue := by simp [Chan.push, h.queue] }

theorem tracks_publish (h : t.Tracks s) (msg : Message) :
    Traffic.Tracks { s with inbox := s.inbox ++ [msg] }
      { t with published := t.published ++ [msg] } := by
  obtain ⟨seen, hseen, hrecounts⟩ := h.inbox
  exact { h with inbox := ⟨seen, by simp [hseen], hrecounts⟩ }

theorem tracks_take {msg : Message} {rest : List Message} (h : t.Tracks s)
    (hpos : s.writer = .select) (hqueue : s.chan.queue = msg :: rest) :
    Traffic.Tracks { s with writer := .sending, chan := { s.chan with queue := rest } }
      { t with taken := t.taken ++ [msg], hand := some (.unicast, msg) } := by
  obtain ⟨htaken, hitems⟩ := h.settled (Or.inr hpos)
  exact {
    unspawned := fun hreg => by simp [h.unspawned hreg] at hpos
    queue := by simp [h.queue, hqueue]
    inbox := h.inbox
    merged := h.merged
    unicasts := h.unicasts.trans (List.prefix_append ..)
    heard := h.heard
    last := h.last
    settled := fun hpos => by simp at hpos
    sending := fun _ => Or.inl ⟨msg, rfl, by simp [htaken], hitems⟩ }

theorem tracks_receive {msg : Message} {rest : List Message} (h : t.Tracks s)
    (hpos : s.writer = .select) (hinbox : s.inbox = msg :: rest) :
    Traffic.Tracks { s with writer := .sending, inbox := rest }
      { t with results := t.results ++ [.ok msg], hand := some (.broadcast, msg) } := by
  obtain ⟨htaken, hitems⟩ := h.settled (Or.inr hpos)
  obtain ⟨seen, hseen, hrecounts⟩ := h.inbox
  exact {
    unspawned := fun hreg => by simp [h.unspawned hreg] at hpos
    queue := h.queue
    inbox := ⟨seen ++ [msg], by simp [hseen, hinbox], hrecounts.item msg⟩
    merged := h.merged
    unicasts := h.unicasts
    heard := h.heard.trans (List.prefix_append ..)
    last := h.last
    settled := fun hpos => by simp at hpos
    sending := fun _ => Or.inr ⟨msg, t.results, rfl, rfl, hitems, htaken⟩ }

theorem tracks_lagged {n : Nat} (h : t.Tracks s) (hpos : s.writer = .select)
    (hn : n ≤ s.inbox.length) :
    Traffic.Tracks { s with inbox := s.inbox.drop n }
      { t with results := t.results ++ [.error n] } := by
  obtain ⟨htaken, hitems⟩ := h.settled (Or.inr hpos)
  obtain ⟨seen, hseen, hrecounts⟩ := h.inbox
  have hlost : (s.inbox.take n).length = n := by simpa using hn
  exact { h with
    inbox := ⟨seen ++ s.inbox.take n, by simp [hseen],
      by simpa [hlost] using hrecounts.lost (s.inbox.take n)⟩
    heard := h.heard.trans (List.prefix_append ..)
    settled := fun _ => ⟨htaken, by simpa using hitems⟩
    sending := fun hsending => by simp [hpos] at hsending }

/-- The message in hand gets its place in the merge. -/
theorem tracks_put (h : t.Tracks s) (hpos : s.writer = .sending)
    (hchan : c.chan.queue = s.chan.queue) (hinbox : c.inbox = s.inbox) (hmain : c.main = s.main)
    (hwriter : c.writer = .select ∨ c.writer = .exited) : t.put.Tracks c := by
  have hspawned : c.main ≠ .registering := by
    intro hreg
    rw [hmain] at hreg
    simp [h.unspawned hreg] at hpos
  have hidle : c.writer ≠ .sending := by rcases hwriter with hw | hw <;> simp [hw]
  have hqueue : t.accepted = t.taken ++ c.chan.queue := hchan ▸ h.queue
  have hseen : ∃ seen, t.published = seen ++ c.inbox ∧ Recounts t.results seen := hinbox ▸ h.inbox
  rcases h.sending hpos with ⟨msg, hhand, htaken, hitems⟩ |
    ⟨msg, rest, hhand, hresults, hitems, htaken⟩
  · simp only [Traffic.put, hhand]
    exact {
      unspawned := fun hreg => (hspawned hreg).elim
      queue := hqueue
      inbox := hseen
      merged := h.merged.left msg
      unicasts := by simp [htaken]
      heard := h.heard
      last := h.last
      settled := fun _ => ⟨htaken, hitems⟩
      sending := fun hsending => (hidle hsending).elim }
  · have hall : items t.results = items t.heard ++ [msg] := by simp [hresults, hitems]
    simp only [Traffic.put, hhand]
    exact {
      unspawned := fun hreg => (hspawned hreg).elim
      queue := hqueue
      inbox := hseen
      merged := by simpa only [hall] using h.merged.right msg
      unicasts := h.unicasts
      heard := List.prefix_rfl
      last := by simp [hresults]
      settled := fun _ => ⟨htaken, rfl⟩
      sending := fun hsending => (hidle hsending).elim }

theorem tracks_step (h : t.Tracks s) (hstep : ConnStep decode s e c) :
    (t.note s e).Tracks c := by
  cases hstep with
  | registered hpos =>
    have hset := h.settled (Or.inl (h.unspawned hpos))
    exact { h with
      unspawned := fun hreg => by simp at hreg
      settled := fun _ => hset
      sending := fun hsending => by simp at hsending }
  | @enqueued pos msg hpos hmsg _ _ =>
    have hpush := tracks_push h msg
    simp only [Traffic.note, hpos, MainPos.enqueuing, hmsg, Option.toList_some]
    exact hpush.frame rfl rfl (by simp) rfl
  | pushed msg _ _ => exact tracks_push h msg
  | published msg => exact tracks_publish h msg
  | take hpos hqueue => simpa [Traffic.note, hqueue] using tracks_take h hpos hqueue
  | receive hpos hinbox => simpa [Traffic.note, hinbox] using tracks_receive h hpos hinbox
  | lagged n hpos _ hinbox => exact tracks_lagged h hpos hinbox
  | sent hpos _ => exact tracks_put h hpos rfl rfl rfl (Or.inl rfl)
  | sinkError hpos => exact tracks_exit h (by simp [hpos]) none
  | sourceClosed hpos | stopped hpos _ => exact tracks_exit h (by simp [hpos]) t.hand
  | cancelled | peerReads => exact h.frame rfl rfl id rfl
  | _ => exact h.frame rfl rfl (by simp) rfl

theorem Traffic.Tracks.merged_written (h : t.Tracks s) : t.Merged := by
  obtain ⟨seen, hseen, hrecounts⟩ := h.inbox
  obtain ⟨passed, hpassed, hheard⟩ := hrecounts.of_prefix h.heard
  have haccepted : t.taken <+: t.accepted := ⟨_, h.queue.symm⟩
  have hpublished : seen <+: t.published := ⟨_, hseen.symm⟩
  exact ⟨t.unicasts, items t.heard, h.merged, h.unicasts.trans haccepted, t.heard, passed,
    h.heard, hpassed.trans hpublished, hheard, h.last, rfl, hheard.sublist, hheard.length⟩

variable {codec : WsCodec E R} {link : Transport} {r : Reader R} {a b : Stream R}
  {ev : StreamEvent} {es : List StreamEvent}

/-- The reader's loop body calls the handler exactly for a data frame that decodes. -/
theorem call_toClient (codec : WsCodec E R) (link : Transport) (hhandler : r.handler = true)
    (msg : Message) :
    r.call codec (link.toClient msg) = codec.dataValue msg := by
  rw [Reader.call, tungToAxum_toClient]
  cases msg <;> simp [hhandler, WsCodec.dataValue, WsCodec.accept]

/-- What the handler was called with is what the frames that arrived decode to. -/
def Reader.Follows (codec : WsCodec E R) (r : Reader R) (written : List Message) : Prop :=
  r.handler = true → r.handled = (written.take r.arrived).filterMap codec.dataValue

theorem Reader.Follows.append {written : List Message} (h : r.Follows codec written)
    (hlen : r.arrived ≤ written.length) (more : List Message) :
    r.Follows codec (written ++ more) := by
  intro hhandler
  rw [List.take_append_of_le_length hlen]
  exact h hhandler

theorem put_written (t : Traffic) : ∃ more, t.put.written = t.written ++ more := by
  unfold Traffic.put
  split
  · exact ⟨[], by simp⟩
  · exact ⟨_, rfl⟩
  · exact ⟨_, rfl⟩

theorem put_accepted (t : Traffic) : t.put.accepted = t.accepted := by
  unfold Traffic.put
  split <;> rfl

theorem put_published (t : Traffic) : t.put.published = t.published := by
  unfold Traffic.put
  split <;> rfl

theorem put_results (t : Traffic) : t.put.results = t.results := by
  unfold Traffic.put
  split <;> rfl

theorem note_written (s : Conn) (t : Traffic) (e : ConnEvent) :
    ∃ more, (t.note s e).written = t.written ++ more := by
  cases e with
  | sent => exact put_written t
  | _ => exact ⟨[], by simp [Traffic.note]⟩

/-- The invariant of a whole stream. -/
structure Stream.Faithful (codec : WsCodec E R) (s : Stream R) : Prop where
  tracks : s.traffic.Tracks s.conn
  arrived : s.reader.arrived ≤ s.traffic.written.length
  follows : s.reader.Follows codec s.traffic.written

theorem faithful_fresh (h : a.Fresh) : a.Faithful codec := by
  obtain ⟨hconn, htraffic, harrived, hhandled⟩ := h
  refine ⟨htraffic ▸ start_tracks hconn, by simp [harrived], fun _ => ?_⟩
  simp [harrived, hhandled]

theorem faithful_conn {t : Traffic} (h : a.Faithful codec) (htracks : t.Tracks c)
    (hmore : ∃ more, t.written = a.traffic.written ++ more) :
    Stream.Faithful codec { a with conn := c, traffic := t } := by
  obtain ⟨more, hmore⟩ := hmore
  refine ⟨htracks, ?_, ?_⟩
  · have := h.arrived
    simp only [hmore, List.length_append]
    omega
  · simpa only [hmore] using h.follows.append h.arrived more

/-- A frame of the writer arrives at the reader. -/
theorem follows_arrived {msg : Message} {written : List Message} (h : r.Follows codec written)
    (hnext : written[r.arrived]? = some msg) :
    Reader.Follows codec { r.onFrame codec (link.toClient msg) with arrived := r.arrived + 1 }
      written := by
  intro hhandler
  change r.handler = true at hhandler
  have hcall := call_toClient codec link hhandler msg
  have hone : (codec.dataValue msg).toList = [msg].filterMap codec.dataValue := by
    cases hvalue : codec.dataValue msg <;> simp [hvalue]
  simp only [Reader.onFrame, hcall, h hhandler, List.take_add_one, hnext, List.filterMap_append,
    Option.toList_some, hone]

theorem faithful_step (h : a.Faithful codec) (hstep : StreamStep decode codec link a ev b) :
    b.Faithful codec := by
  cases hstep with
  | conn hconn => exact faithful_conn h (tracks_step h.tracks hconn) (note_written ..)
  | @flushed c hconn =>
    refine faithful_conn h ?_ (put_written _)
    cases hconn with
    | sinkError hpos => exact tracks_put h.tracks hpos rfl rfl rfl (Or.inr rfl)
  | @arrived msg hrun hnext =>
    have hlt : a.reader.arrived < a.traffic.written.length :=
      (List.getElem?_eq_some_iff.mp hnext).1
    exact ⟨h.tracks, hlt, follows_arrived h.follows hnext⟩
  | control msg hrun hcontrol =>
    have hcall : a.reader.call codec msg = none := by simp [Reader.call, hcontrol]
    exact ⟨h.tracks, h.arrived, fun hhandler => by
      simpa [Reader.onFrame, hcall] using h.follows hhandler⟩
  | readerEnded hrun => exact ⟨h.tracks, h.arrived, h.follows⟩

/-- The frames a writer task writes are an interleaving of a first part of the messages its
queue accepted and of broadcasts, with as many left out as reported, and the handler of the
client is called with what a first part of these frames decodes to. -/
theorem written_in_order (hfresh : a.Fresh) (h : (streamSystem decode codec link).Run a es b) :
    b.traffic.Merged ∧ (b.reader.handler = true →
      ∃ n, b.reader.handled = (b.traffic.written.take n).filterMap codec.dataValue) := by
  have hb : b.Faithful codec :=
    h.invariant (fun _ _ _ hstep hs => faithful_step hs hstep) (faithful_fresh hfresh)
  exact ⟨hb.tracks.merged_written, fun hhandler => ⟨_, hb.follows hhandler⟩⟩

/-- One unicast message and two broadcasts, the first of which the writer misses. -/
theorem written_in_order_lagged : ∃ b : Stream Bool,
    b.traffic.written = [.text "false", .text "true"] ∧ b.reader.handled = [false] ∧
      b.traffic.Merged ∧ (b.reader.handler = true → ∃ n, b.reader.handled =
        (b.traffic.written.take n).filterMap (jsonCodec boolJson).dataValue) := by
  have hrun : (streamSystem (fun _ => (none : Option Unit)) (jsonCodec boolJson) .plain).Run
      (.start 32 2 true)
      [.conn .registered, .conn (.pushed (.text "true")), .conn (.published (.text "true")),
        .conn (.published (.text "false")), .conn (.lagged 1), .conn .receive, .conn .sent,
        .conn .take, .conn .sent, .arrived] _ :=
    .step (.conn (.registered rfl)) <| .step (.conn (.pushed _ rfl (by decide))) <|
    .step (.conn (.published _)) <| .step (.conn (.published _)) <|
    .step (.conn (.lagged 1 rfl (by decide) (by decide))) <| .step (.conn (.receive rfl rfl)) <|
    .step (.conn (.sent rfl rfl)) <| .step (.conn (.take rfl rfl)) <|
    .step (.conn (.sent rfl rfl)) <| .single (.arrived rfl rfl)
  exact ⟨_, rfl, rfl, written_in_order (start_stream_fresh 32 2 true) hrun⟩

end AxumSignal

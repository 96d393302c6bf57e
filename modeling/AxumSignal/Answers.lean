import AxumSignal.Outgoing

/-! The Pongs that a client gets against the Pings that it has sent. -/
namespace AxumSignal

open Transition Streams

variable {Req E R : Type} {decode : Message → Option Req} {codec : WsCodec E R}
  {link : Transport} {a b s t : Stream R} {e : StreamEvent} {xs : List StreamEvent}
  {msg : Message} {c : Conn} {ev : ConnEvent}

def Message.pongData : Message → Option (List UInt8)
  | .pong data => some data
  | _ => none

/-- The payloads of the Pongs among some messages. -/
def pongs (msgs : List Message) : List (List UInt8) := msgs.filterMap Message.pongData

@[simp] theorem pongs_append (ms ns : List Message) : pongs (ms ++ ns) = pongs ms ++ pongs ns :=
  List.filterMap_append

def StreamEvent.pingData : StreamEvent → Option (List UInt8)
  | .conn (.frame (.ping data)) => some data
  | _ => none

/-- The payloads of the Pings that the read loop has taken from its stream. -/
def pinged (xs : List StreamEvent) : List (List UInt8) := xs.filterMap StreamEvent.pingData

/-- Other tasks send the connection no Pongs: what they send is what a codec encodes. -/
def OwnPongs (_ : Stream R) (e : StreamEvent) (_ : Stream R) : Prop :=
  ∀ msg, e = .conn (.pushed msg) ∨ e = .conn (.published msg) → msg.pongData = none

/-- The Pong that the read loop is about to enqueue. -/
def MainPos.answering : MainPos → Option (List UInt8)
  | .reading (.sendPong data) => some data
  | _ => none

/-- The read loop has not been left. -/
def MainPos.Serving : MainPos → Prop
  | .registering | .onConnect => True
  | .reading (.done _) => False
  | .reading _ => True
  | _ => False

/-- The Pongs accepted by the queue are the Pings read, but for the one that the loop is
enqueuing, or could not enqueue any more. -/
structure Answers (xs : List StreamEvent) (s : Stream R) : Prop where
  serving : s.conn.main.Serving →
    pinged xs = pongs s.traffic.accepted ++ s.conn.main.answering.toList
  accepted : pongs s.traffic.accepted <+: pinged xs
  published : pongs s.traffic.published = []

theorem answers_fresh (h : a.Fresh) : Answers [] a := by
  obtain ⟨⟨hmain, -⟩, htraffic, -⟩ := h
  refine ⟨fun _ => ?_, ?_, ?_⟩ <;>
    simp [pinged, pongs, htraffic, Traffic.start, hmain, MainPos.answering]

theorem pinged_snoc (xs : List StreamEvent) (e : StreamEvent) :
    pinged (xs ++ [e]) = pinged xs ++ e.pingData.toList := by
  cases he : e.pingData <;> simp [pinged, he]

/-- A step that reads no Ping and enqueues no Pong. -/
theorem Answers.frame (hs : Answers xs s) (he : e.pingData = none)
    (haccepted : pongs t.traffic.accepted = pongs s.traffic.accepted)
    (hpublished : pongs t.traffic.published = pongs s.traffic.published)
    (hmain : t.conn.main.Serving →
      s.conn.main.Serving ∧ t.conn.main.answering = s.conn.main.answering) :
    Answers (xs ++ [e]) t := by
  have hpinged : pinged (xs ++ [e]) = pinged xs := by simp [pinged_snoc, he]
  refine ⟨fun hserving => ?_, ?_, hpublished.trans hs.published⟩
  · obtain ⟨hbefore, hanswering⟩ := hmain hserving
    rw [hpinged, haccepted, hanswering]
    exact hs.serving hbefore
  · rw [hpinged, haccepted]
    exact hs.accepted

theorem answering_frame (decode : Message → Option Req) (msg : Message) :
    (MainPos.reading (handleFrame decode msg).pos).answering =
      (StreamEvent.conn (.frame msg)).pingData := by
  cases msg with
  | text | binary =>
    simp only [handleFrame]
    split <;> rfl
  | _ => rfl

theorem pongs_enqueuing {pos : ReadPos} (h : pos.enqueuing = some msg) :
    pongs [msg] = (MainPos.reading pos).answering.toList := by
  cases pos with
  | sendPong data =>
    obtain rfl : Message.pong data = msg := Option.some.inj h
    rfl
  | sendPing =>
    obtain rfl : Message.ping [] = msg := Option.some.inj h
    rfl
  | _ => simp [ReadPos.enqueuing] at h

theorem serving_enqueuing {pos : ReadPos} (h : pos.enqueuing = some msg) :
    (MainPos.reading pos).Serving := by
  cases pos with
  | done reason => simp [ReadPos.enqueuing] at h
  | _ => trivial

theorem answers_conn (hs : Answers xs s) (h : ConnStep decode s.conn ev c)
    (hown : ∀ msg, ev = .pushed msg ∨ ev = .published msg → msg.pongData = none) :
    Answers (xs ++ [.conn ev]) { s with conn := c, traffic := s.traffic.note s.conn ev } := by
  have hkeep : ∀ {main : MainPos}, s.conn.main = main → main.Serving → s.conn.main.Serving :=
    fun heq hserving => heq ▸ hserving
  cases h with
  | frame msg hpos =>
    have hread := hs.serving (hkeep hpos trivial)
    have hpinged : pinged xs = pongs s.traffic.accepted := by
      simpa [hpos, MainPos.answering] using hread
    refine ⟨fun _ => ?_, ?_, hs.published⟩
    · rw [pinged_snoc, hpinged, answering_frame]
      rfl
    · rw [pinged_snoc]
      exact hs.accepted.trans (List.prefix_append _ _)
  | @enqueued pos msg hpos hmsg =>
    have hread := hs.serving (hkeep hpos (serving_enqueuing hmsg))
    have hall : pinged (xs ++ [.conn .enqueued]) =
        pongs (s.traffic.note s.conn .enqueued).accepted := by
      simp [pinged_snoc, StreamEvent.pingData, hread, Traffic.note, hpos, MainPos.enqueuing, hmsg,
        pongs_enqueuing hmsg]
    refine ⟨fun _ => ?_, ?_, hs.published⟩
    · simpa [MainPos.answering] using hall
    · exact hall ▸ List.prefix_rfl
  | pushed msg =>
    have hnone : pongs [msg] = [] := by simp [pongs, hown msg (Or.inl rfl)]
    exact hs.frame rfl (by simp [Traffic.note, hnone]) rfl fun h => ⟨h, rfl⟩
  | published msg =>
    have hnone : pongs [msg] = [] := by simp [pongs, hown msg (Or.inr rfl)]
    exact hs.frame rfl rfl (by simp [Traffic.note, hnone]) fun h => ⟨h, rfl⟩
  | sent =>
    exact hs.frame rfl (congrArg pongs (put_accepted _)) (congrArg pongs (put_published _))
      fun h => ⟨h, rfl⟩
  | registered hpos | connected hpos | tick hpos =>
    exact hs.frame rfl rfl rfl fun _ => ⟨hkeep hpos trivial, by rw [hpos]; rfl⟩
  | streamClosed | readError | idle | rejected | observed | closed | removed | disconnected
  | finished => exact hs.frame rfl rfl rfl fun h => h.elim
  | take | receive | lagged | sourceClosed | sinkError | stopped | cancelled | peerReads =>
    exact hs.frame rfl rfl rfl fun h => ⟨h, rfl⟩

theorem answers_step (hs : Answers xs s) (h : StreamStep decode codec link s e t)
    (hown : OwnPongs s e t) : Answers (xs ++ [e]) t := by
  cases h with
  | conn h => exact answers_conn hs h fun msg hev => hown msg (by simpa using hev)
  | flushed h =>
    cases h
    exact hs.frame rfl (congrArg pongs (put_accepted _)) (congrArg pongs (put_published _))
      fun h => ⟨h, rfl⟩
  | arrived | control | readerEnded => exact hs.frame rfl rfl rfl fun h => ⟨h, rfl⟩

theorem answers_run (hfresh : a.Fresh)
    (h : ((streamSystem decode codec link).restrict OwnPongs).Run a xs b) : Answers xs b := by
  refine h.history (H := Answers) (answers_fresh hfresh) ?_
  rintro ys u l w ⟨hstep, hown⟩ hu
  exact answers_step hu hstep hown

theorem pongs_interleaved {us bs ws : List Message} (h : Interleaves us bs ws)
    (hbs : pongs bs = []) : pongs ws = pongs us := by
  induction h with
  | nil => rfl
  | left x _ ih => rw [pongs_append, pongs_append, ih hbs]
  | right y _ ih =>
    rw [pongs_append, List.append_eq_nil_iff] at hbs
    rw [pongs_append, ih hbs.1, hbs.2, List.append_nil]

/-- The Pongs written to a client carry the payloads of the Pings read from it, in order, each
at most once. While the read loop goes on, only the last Ping may lack its Pong in the queue. -/
theorem pongs_answer_pings (hfresh : a.Fresh)
    (h : ((streamSystem decode codec link).restrict OwnPongs).Run a xs b) :
    pongs b.traffic.written <+: pinged xs ∧ (b.conn.main.Serving →
      pinged xs = pongs b.traffic.accepted ++ b.conn.main.answering.toList) := by
  have hs := answers_run hfresh h
  have hfaithful : b.Faithful codec :=
    h.of_restrict.invariant (fun _ _ _ hstep hs => faithful_step hs hstep) (faithful_fresh hfresh)
  obtain ⟨us, bs, hmerge, hus, heard, seen, -, hseen, -, -, -, hbs, -⟩ :=
    hfaithful.tracks.merged_written
  have hnone : pongs bs = [] := by
    have hsub : (pongs bs).Sublist (pongs b.traffic.published) :=
      (hbs.trans hseen.sublist).filterMap _
    rw [hs.published] at hsub
    exact List.sublist_nil.mp hsub
  refine ⟨?_, hs.serving⟩
  rw [pongs_interleaved hmerge hnone]
  exact (hus.filterMap _).trans hs.accepted

/-- Two Pings, the first of them answered. -/
theorem pongs_answer_first : ∃ (xs : List StreamEvent) (b : Stream Bool),
    pinged xs = [[1], [2]] ∧ b.traffic.written = [.pong [1]] ∧
      pongs b.traffic.written <+: pinged xs ∧ (b.conn.main.Serving →
        pinged xs = pongs b.traffic.accepted ++ b.conn.main.answering.toList) := by
  have hrun : ((streamSystem (fun _ => (none : Option Unit)) (jsonCodec boolJson) .plain).restrict
      OwnPongs).Run (.start 32 1 true)
      [.conn .registered, .conn .connected, .conn (.frame (.ping [1])), .conn .enqueued,
        .conn (.frame (.ping [2])), .conn .take, .conn .sent] _ :=
    .step ⟨.conn (.registered rfl), by simp [OwnPongs]⟩ <|
    .step ⟨.conn (.connected rfl), by simp [OwnPongs]⟩ <|
    .step ⟨.conn (.frame (.ping [1]) rfl), by simp [OwnPongs]⟩ <|
    .step ⟨.conn (.enqueued rfl rfl rfl (by decide)), by simp [OwnPongs]⟩ <|
    .step ⟨.conn (.frame (.ping [2]) rfl), by simp [OwnPongs]⟩ <|
    .step ⟨.conn (.take rfl rfl), by simp [OwnPongs]⟩ <|
    .single ⟨.conn (.sent rfl rfl), by simp [OwnPongs]⟩
  exact ⟨_, _, rfl, rfl, pongs_answer_pings (start_stream_fresh 32 1 true) hrun⟩

end AxumSignal

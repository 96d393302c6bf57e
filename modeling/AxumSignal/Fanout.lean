import AxumSignal.CallFacts
import AxumSignal.Outgoing
import AxumSignal.Lib.Feed

/-! Plain broadcasts to all connections of one store: the channel that every call of
`broadcast` sends to, and the receivers of the writer tasks, each with a place of its own. -/
namespace AxumSignal

open Transition Streams

variable {Req E R Task : Type}

/-- The calls on a store, its broadcast channel, and the connections, each with the past of
its writer and the reader of its client. -/
structure Fanout (Task R : Type) where
  calls : Calls Task
  feed : Feed ConnId Message
  streams : ConnId → Option (Stream R)

namespace Fanout

variable (s : Fanout Task R)

/-- A connection with what its receiver has not passed. -/
def view (c : ConnId) (st : Stream R) : Stream R :=
  { st with conn := { st.conn with inbox := s.feed.unread c } }

def put (c : ConnId) (st : Stream R) : Fanout Task R :=
  { s with streams := Function.update s.streams c (some st) }

/-- `broadcast_tx.send(msg)`, which every receiver is to get. -/
def publish (msg : Message) : Fanout Task R :=
  { s with
    feed := s.feed.publish msg
    streams := fun c => (s.streams c).map fun st =>
      { st with traffic := st.traffic.note st.conn (.published msg) } }

/-- An empty store, whose channel keeps at least as many messages as configured, and no
connection. -/
def Fresh (cfg : WsHubConfig) : Prop :=
  s.calls.Fresh ∧ (∃ keep, cfg.broadcastChannelCapacity ≤ keep ∧ s.feed = .empty keep) ∧
    ∀ c, s.streams c = none

end Fanout

/-- The events that the broadcast channel decides. -/
def StreamEvent.OnFeed : StreamEvent → Prop
  | .conn .receive | .conn (.lagged _) | .conn (.published _) => True
  | _ => False

inductive FanoutLabel (Task : Type) where
  | accept (c : ConnId)
  | store (l : CallLabel Task)
  | stream (c : ConnId) (e : StreamEvent)

/-- A step of a call, of a connection, or of the reader of its client. A connection subscribes
before its `add` call. -/
inductive FanoutStep [DecidableEq Task] (decode : Message → Option Req) (codec : WsCodec E R)
    (link : Transport) : Fanout Task R → FanoutLabel Task → Fanout Task R → Prop where
  | accept {s : Fanout Task R} {c : ConnId} (capacity window : Nat) (handler : Bool)
      (hnew : s.streams c = none) :
      FanoutStep decode codec link s (.accept c)
        (Fanout.put { s with feed := s.feed.subscribe c } c (.start capacity window handler))
  | access {s : Fanout Task R} {l : CallLabel Task} {calls : Calls Task}
      (hl : ∀ t msg, l = .exec t .access → s.calls.pc t ≠ .publish msg)
      (h : CallStep s.calls l calls) :
      FanoutStep decode codec link s (.store l) { s with calls := calls }
  | publish {s : Fanout Task R} {t : Task} {msg : Message} {calls : Calls Task}
      (hpc : s.calls.pc t = .publish msg) (h : CallStep s.calls (.exec t .access) calls) :
      FanoutStep decode codec link s (.store (.exec t .access))
        (Fanout.publish { s with calls := calls } msg)
  | receive {s : Fanout Task R} {c : ConnId} {st st' : Stream R} {msg : Message}
      {feed : Feed ConnId Message} (hc : s.streams c = some st)
      (hrecv : s.feed.recv c = some (.ok msg, feed))
      (hstep : StreamStep decode codec link (s.view c st) (.conn .receive) st') :
      FanoutStep decode codec link s (.stream c (.conn .receive))
        (Fanout.put { s with feed := feed } c st')
  | lagged {s : Fanout Task R} {c : ConnId} {st st' : Stream R} {n : Nat}
      {feed : Feed ConnId Message} (hc : s.streams c = some st)
      (hrecv : s.feed.recv c = some (.error n, feed))
      (hstep : StreamStep decode codec link (s.view c st) (.conn (.lagged n)) st') :
      FanoutStep decode codec link s (.stream c (.conn (.lagged n)))
        (Fanout.put { s with feed := feed } c st')
  | stream {s : Fanout Task R} {c : ConnId} {st st' : Stream R} {e : StreamEvent}
      (hc : s.streams c = some st) (he : ¬ e.OnFeed)
      (hstep : StreamStep decode codec link (s.view c st) e st') :
      FanoutStep decode codec link s (.stream c e) (s.put c st')

/-- The system of a store and all its connections. -/
def fanoutSystem [DecidableEq Task] (decode : Message → Option Req) (codec : WsCodec E R)
    (link : Transport) : LTS (Fanout Task R) (FanoutLabel Task) :=
  ⟨FanoutStep decode codec link⟩

variable {decode : Message → Option Req} {codec : WsCodec E R} {link : Transport}
  {s s' : Fanout Task R} {l : FanoutLabel Task} {c d : ConnId} {st st' : Stream R}
  {msg : Message} {e : StreamEvent} {calls : Calls Task}

/-- Only a `broadcast` sends to the channel. -/
theorem exec_broadcastTx {sh sh' : Shared} {pc pc' : Pc} {e : Event}
    (hx : Exec sh pc e sh' pc') : sh'.clients.broadcastTx = sh.clients.broadcastTx ∨
      ∃ msg, pc = .publish msg ∧ e = .access := by
  cases hx with
  | publish msg => exact Or.inr ⟨msg, rfl, rfl⟩
  | _ => exact Or.inl rfl

/-- Of the steps of a connection and its reader, only those on the channel change what the
receiver has not passed. -/
theorem stream_inbox {a b : Stream R} (h : StreamStep decode codec link a e b) (he : ¬ e.OnFeed) :
    b.conn.inbox = a.conn.inbox := by
  cases h with
  | conn h => cases h <;> first | rfl | exact (he trivial).elim
  | flushed h => cases h; rfl
  | arrived | control | readerEnded => rfl

theorem stream_published {a b : Stream R} (h : StreamStep decode codec link a e b)
    (he : ∀ msg, e ≠ .conn (.published msg)) : b.traffic.published = a.traffic.published := by
  cases h with
  | @conn ev conn h =>
    cases ev with
    | published msg => exact (he msg rfl).elim
    | sent => exact put_published _
    | _ => rfl
  | flushed h => exact put_published _
  | arrived | control | readerEnded => rfl

/-- Only a report adds to what a receiver has reported. -/
theorem stream_results {a b : Stream R} (h : StreamStep decode codec link a e b)
    (he : ∀ n, e ≠ .conn (.lagged n)) (ha : ∀ r ∈ a.traffic.results, ∃ msg, r = .ok msg) :
    ∀ r ∈ b.traffic.results, ∃ msg, r = .ok msg := by
  cases h with
  | @conn ev conn h =>
    cases ev with
    | lagged n => exact (he n rfl).elim
    | sent => exact fun r hr => ha r (put_results _ ▸ hr)
    | receive =>
      intro r hr
      rcases List.mem_append.mp hr with hr | hr
      · exact ha r hr
      · obtain ⟨msg, -, rfl⟩ := List.mem_map.mp hr
        exact ⟨msg, rfl⟩
    | _ => exact ha
  | flushed h => exact fun r hr => ha r (put_results _ ▸ hr)
  | arrived | control | readerEnded => exact ha

theorem not_published_of_not_onFeed (he : ¬ e.OnFeed) (msg : Message) :
    e ≠ .conn (.published msg) := by
  rintro rfl
  exact he trivial

namespace Fanout

@[simp] theorem streams_put_self : (s.put c st).streams c = some st := by simp [put]

theorem streams_put_ne (h : c ≠ d) : (s.put d st).streams c = s.streams c := by simp [put, h]

theorem view_of_unread (h : st.conn.inbox = s.feed.unread c) : s.view c st = st := by
  simp [view, ← h]

/-- What is known of a connection: its receiver exists, its own history is one of the
single-connection model, and what it was sent is the end of the channel's log. -/
structure Carried (decode : Message → Option Req) (codec : WsCodec E R) (link : Transport)
    (s : Fanout Task R) (c : ConnId) (st : Stream R) : Prop where
  subscribed : ∃ n, s.feed.next c = some n
  shown : (streamSystem decode codec link).Reachable Stream.Fresh (s.view c st)
  published : st.traffic.published <:+ s.feed.log

/-- The channel is that of the store, and every connection is carried along. -/
structure Sound (decode : Message → Option Req) (codec : WsCodec E R) (link : Transport)
    (s : Fanout Task R) : Prop where
  channel : s.feed.log = s.calls.shared.clients.broadcastTx
  carried : ∀ c st, s.streams c = some st → s.Carried decode codec link c st

theorem sound_fresh {cfg : WsHubConfig} (h : s.Fresh cfg) : s.Sound decode codec link := by
  obtain ⟨⟨⟨policy, shard, hclients⟩, -⟩, ⟨keep, -, hfeed⟩, hstreams⟩ := h
  refine ⟨?_, fun c st hc => ?_⟩
  · simp [hfeed, hclients, Feed.empty, InMemoryWsClients.new]
  · simp [hstreams c] at hc

/-- A connection is carried as long as its receiver is where it was. -/
theorem Carried.frame {t : Fanout Task R} (h : s.Carried decode codec link c st)
    (hlog : t.feed.log = s.feed.log) (hnext : t.feed.next c = s.feed.next c) :
    t.Carried decode codec link c st := by
  have hunread : t.feed.unread c = s.feed.unread c := by
    rw [Feed.unread, Feed.unread, hnext, hlog]
  exact {
    subscribed := hnext ▸ h.subscribed
    shown := by simpa [view, hunread] using h.shown
    published := hlog ▸ h.published }

/-- A step of one connection and its reader, which moves no receiver but its own. -/
theorem sound_put {feed : Feed ConnId Message} (hs : s.Sound decode codec link)
    (hc : s.streams c = some st) (hlog : feed.log = s.feed.log)
    (hnext : ∃ n, feed.next c = some n) (hothers : ∀ d, d ≠ c → feed.next d = s.feed.next d)
    (hstep : StreamStep decode codec link (s.view c st) e st')
    (hinbox : st'.conn.inbox = feed.unread c) (he : ∀ msg, e ≠ .conn (.published msg)) :
    (Fanout.put { s with feed := feed } c st').Sound decode codec link := by
  refine ⟨hlog.trans hs.channel, fun d sd hd => ?_⟩
  by_cases hdc : d = c
  · subst hdc
    obtain rfl : st' = sd := by simpa using hd
    have hcarried := hs.carried d st hc
    refine ⟨hnext, ?_, ?_⟩
    · rw [view_of_unread (by exact hinbox)]
      exact hcarried.shown.extend (.single hstep)
    · rw [stream_published hstep he]
      change st.traffic.published <:+ feed.log
      exact hlog ▸ hcarried.published
  · rw [streams_put_ne hdc] at hd
    exact (hs.carried d sd hd).frame hlog (hothers d hdc)

/-- A receiver that gets something moves to a place of its own, and no other one moves. -/
theorem recv_moves {r : Except Nat Message} {feed : Feed ConnId Message}
    (h : s.feed.recv c = some (r, feed)) : feed.log = s.feed.log ∧
      (∃ n, feed.next c = some n) ∧ ∀ d, d ≠ c → feed.next d = s.feed.next d := by
  obtain ⟨n, hn, rfl⟩ := Feed.recv_seek h
  exact ⟨rfl, ⟨n, by simp [Feed.seek]⟩, fun d hd => by simp [Feed.seek, hd]⟩

theorem sound_accept (hs : s.Sound decode codec link) (hnew : s.streams c = none)
    (capacity window : Nat) (handler : Bool) :
    (Fanout.put { s with feed := s.feed.subscribe c } c
      (.start capacity window handler)).Sound decode codec link := by
  refine ⟨hs.channel, fun d sd hd => ?_⟩
  by_cases hdc : d = c
  · subst hdc
    obtain rfl : Stream.start capacity window handler = sd := by simpa using hd
    refine ⟨⟨s.feed.log.length, by simp [put, Feed.subscribe, Feed.seek]⟩, ?_, List.nil_suffix⟩
    rw [view_of_unread (Feed.unread_subscribe s.feed d).symm]
    exact ⟨_, start_stream_fresh capacity window handler, [], .refl⟩
  · rw [streams_put_ne hdc] at hd
    exact (hs.carried d sd hd).frame rfl (by simp [put, Feed.subscribe, Feed.seek, hdc])

end Fanout

variable [DecidableEq Task]

theorem step_broadcastTx {s s' : Calls Task} {l : CallLabel Task} (h : CallStep s l s')
    (hl : ∀ t msg, l = .exec t .access → s.pc t ≠ .publish msg) :
    s'.shared.clients.broadcastTx = s.shared.clients.broadcastTx := by
  cases h with
  | exec hfree hx =>
    rcases exec_broadcastTx hx with hsame | ⟨msg, hpc, rfl⟩
    · exact hsame
    · exact (hl _ _ rfl hpc).elim
  | call | abort | recv | close | cancel => rfl

theorem publish_broadcastTx {s s' : Calls Task} {t : Task} {e : Event}
    (h : CallStep s (.exec t e) s') (hpc : s.pc t = .publish msg) :
    s'.shared.clients.broadcastTx = s.shared.clients.broadcastTx ++ [msg] := by
  cases h with
  | exec hfree hx =>
    rw [hpc] at hx
    cases hx
    rfl

namespace Fanout

theorem sound_publish {t : Task} (hs : s.Sound decode codec link)
    (hpc : s.calls.pc t = .publish msg)
    (h : CallStep s.calls (.exec t .access) calls) :
    (Fanout.publish { s with calls := calls } msg).Sound decode codec link := by
  refine ⟨?_, fun c sc hc => ?_⟩
  · change s.feed.log ++ [msg] = calls.shared.clients.broadcastTx
    rw [publish_broadcastTx h hpc, hs.channel]
  · obtain ⟨st, hst, rfl⟩ : ∃ st, s.streams c = some st ∧
        { st with traffic := st.traffic.note st.conn (.published msg) } = sc := by
      simpa [publish] using hc
    have hcarried := hs.carried c st hst
    obtain ⟨n, hn⟩ := hcarried.subscribed
    refine ⟨⟨n, hn⟩, ?_, ?_⟩
    · have hstep : StreamStep decode codec link (s.view c st) (.conn (.published msg))
          { s.view c st with
            conn := { st.conn with inbox := s.feed.unread c ++ [msg] }
            traffic := st.traffic.note st.conn (.published msg) } :=
        .conn (.published msg)
      have hshown := hcarried.shown.extend (.single hstep)
      rwa [← Feed.unread_publish hn] at hshown
    · obtain ⟨before, hbefore⟩ := hcarried.published
      exact ⟨before, by
        change before ++ (st.traffic.published ++ [msg]) = s.feed.log ++ [msg]
        rw [← List.append_assoc, hbefore]⟩

theorem sound_step (hs : s.Sound decode codec link) (h : FanoutStep decode codec link s l s') :
    s'.Sound decode codec link := by
  cases h with
  | accept capacity window handler hnew => exact sound_accept hs hnew capacity window handler
  | access hl h =>
    exact ⟨hs.channel.trans (step_broadcastTx h hl).symm,
      fun c st hc => (hs.carried c st hc).frame rfl rfl⟩
  | publish hpc h => exact sound_publish hs hpc h
  | @receive c st st' msg feed hc hrecv hstep =>
    obtain ⟨hlog, hnext, hothers⟩ := recv_moves hrecv
    refine sound_put hs hc hlog hnext hothers hstep ?_ (by simp)
    have hunread := Feed.recv_ok hrecv
    cases hstep with
    | conn h =>
      cases h with
      | receive hpos hinbox =>
        change s.feed.unread c = _ at hinbox
        simp_all
  | @lagged c st st' n feed hc hrecv hstep =>
    obtain ⟨hlog, hnext, hothers⟩ := recv_moves hrecv
    refine sound_put hs hc hlog hnext hothers hstep ?_ (by simp)
    obtain ⟨-, -, hunread⟩ := Feed.recv_error hrecv
    cases hstep with
    | conn h =>
      cases h with
      | lagged _ hpos hn hinbox => exact hunread.symm
  | @stream c st st' e hc he hstep =>
    exact sound_put hs hc rfl (hs.carried c st hc).subscribed (fun _ _ => rfl) hstep
      (stream_inbox hstep he) (not_published_of_not_onFeed he)

theorem sound_run {cfg : WsHubConfig} {xs : List (FanoutLabel Task)} (hfresh : s.Fresh cfg)
    (h : (fanoutSystem decode codec link).Run s xs s') : s'.Sound decode codec link :=
  h.invariant (fun _ _ _ hstep hs => sound_step hs hstep) (sound_fresh hfresh)

/-- A store without connections, and its channel, which keeps `keep` messages. -/
def start (keep : Nat) : Fanout Unit Bool where
  calls := ⟨⟨.new .block fun _ => 0, fun _ => ⟨32, [], false⟩, fun _ => false⟩, fun _ => .idle⟩
  feed := .empty keep
  streams _ := none

theorem fanout_start_fresh {cfg : WsHubConfig} {keep : Nat}
    (h : cfg.broadcastChannelCapacity ≤ keep) : (start keep).Fresh cfg :=
  ⟨⟨⟨.block, _, rfl⟩, fun _ => rfl⟩, ⟨keep, h, rfl⟩, fun _ => rfl⟩

/-- Two broadcasts before the only connection reads, where the channel keeps one message. -/
theorem lagged_reached : ∃ xs s st, (fanoutSystem (fun _ => (none : Option Unit))
    (jsonCodec boolJson) .plain).Run (start 1) xs s ∧ s.streams "c" = some st ∧
      st.traffic.written = [.text "false"] := by
  have hrun : (fanoutSystem (fun _ => (none : Option Unit)) (jsonCodec boolJson) .plain).Run
      (start 1)
      [.accept "c", .store (.call () (.broadcast (some (.text "true")))),
        .store (.exec () .access), .store (.call () (.broadcast (some (.text "false")))),
        .store (.exec () .access), .stream "c" (.conn .registered),
        .stream "c" (.conn (.lagged 1)), .stream "c" (.conn .receive),
        .stream "c" (.conn .sent)] _ :=
    .step (.accept 32 1 true rfl) <| .step (.access (by simp) (.call _ rfl)) <|
    .step (.publish rfl (.exec (Calls.granted_of_free rfl) (.publish _))) <|
    .step (.access (by simp) (.call _ rfl)) <|
    .step (.publish rfl (.exec (Calls.granted_of_free rfl) (.publish _))) <|
    .step (.stream rfl id (.conn (.registered rfl))) <|
    .step (.lagged rfl rfl (.conn (.lagged 1 rfl (by decide) (by decide)))) <|
    .step (.receive rfl rfl (.conn (.receive rfl rfl))) <|
    .single (.stream rfl id (.conn (.sent rfl rfl)))
  exact ⟨_, _, _, hrun, rfl, rfl⟩

/-- Seen from one connection, a run of the whole is a run of the single-connection model. -/
theorem stream_refined {cfg : WsHubConfig} {xs : List (FanoutLabel Task)} (hfresh : s.Fresh cfg)
    (h : (fanoutSystem decode codec link).Run s xs s') (hc : s'.streams c = some st) :
    (streamSystem decode codec link).Reachable Stream.Fresh (s'.view c st) :=
  ((sound_run hfresh h).carried c st hc).shown

theorem stream_refined_lagged : ∃ (s : Fanout Unit Bool) (st : Stream Bool),
    st.traffic.written = [.text "false"] ∧ (streamSystem (fun _ => (none : Option Unit))
      (jsonCodec boolJson) .plain).Reachable Stream.Fresh (s.view "c" st) := by
  obtain ⟨xs, s, st, hrun, hst, hwritten⟩ := lagged_reached
  have hfresh : (start 1).Fresh { WsHubConfig.default with broadcastChannelCapacity := 1 } :=
    fanout_start_fresh (Nat.le_refl 1)
  exact ⟨s, st, hwritten, stream_refined hfresh hrun hst⟩

theorem faithful_view {cfg : WsHubConfig} {xs : List (FanoutLabel Task)} (hfresh : s.Fresh cfg)
    (h : (fanoutSystem decode codec link).Run s xs s') (hc : s'.streams c = some st) :
    (s'.view c st).Faithful codec :=
  ((sound_run hfresh h).carried c st hc).shown.invariant
    (fun _ _ _ hstep hs => faithful_step hs hstep) fun _ => faithful_fresh

/-- All connections write the plain broadcasts in the order of the store's channel, each from
the place where it subscribed, with as many left out as its receiver reported. -/
theorem broadcasts_in_channel_order {cfg : WsHubConfig} {xs : List (FanoutLabel Task)}
    (hfresh : s.Fresh cfg) (h : (fanoutSystem decode codec link).Run s xs s')
    (hc : s'.streams c = some st) : st.traffic.Merged ∧
      st.traffic.published <:+ s'.calls.shared.clients.broadcastTx := by
  have hs := sound_run hfresh h
  exact ⟨(faithful_view hfresh h hc).tracks.merged_written,
    hs.channel ▸ (hs.carried c st hc).published⟩

theorem channel_order_lagged : ∃ (s : Fanout Unit Bool) (st : Stream Bool),
    st.traffic.written = [.text "false"] ∧ st.traffic.Merged ∧
      st.traffic.published <:+ s.calls.shared.clients.broadcastTx := by
  obtain ⟨xs, s, st, hrun, hst, hwritten⟩ := lagged_reached
  have hfresh : (start 1).Fresh { WsHubConfig.default with broadcastChannelCapacity := 1 } :=
    fanout_start_fresh (Nat.le_refl 1)
  exact ⟨s, st, hwritten, broadcasts_in_channel_order hfresh hrun hst⟩

/-- After the step the receiver of `c` is within the configured capacity of the end. -/
def KeepsUp (cfg : WsHubConfig) (c : ConnId) (_ : Fanout Task R) (_ : FanoutLabel Task)
    (t : Fanout Task R) : Prop :=
  (t.feed.unread c).length ≤ cfg.broadcastChannelCapacity

instance {cfg : WsHubConfig} {t : Fanout Task R} : Decidable (KeepsUp cfg c s l t) :=
  inferInstanceAs (Decidable ((t.feed.unread c).length ≤ cfg.broadcastChannelCapacity))

/-- The receiver of `c` has reported nothing lost, and is not about to. -/
structure Lossless (cfg : WsHubConfig) (c : ConnId) (s : Fanout Task R) : Prop where
  keep : cfg.broadcastChannelCapacity ≤ s.feed.keep
  near : (s.feed.unread c).length ≤ cfg.broadcastChannelCapacity
  heard : ∀ st, s.streams c = some st → ∀ r ∈ st.traffic.results, ∃ msg, r = .ok msg

omit [DecidableEq Task] in
theorem lossless_fresh {cfg : WsHubConfig} (h : s.Fresh cfg) (c : ConnId) : s.Lossless cfg c := by
  obtain ⟨-, ⟨keep, hkeep, hfeed⟩, hstreams⟩ := h
  refine ⟨by simpa [hfeed, Feed.empty] using hkeep, ?_, fun st hst => ?_⟩
  · simp [hfeed, Feed.empty, Feed.unread]
  · simp [hstreams c] at hst

omit [DecidableEq Task] in
theorem lossless_put {cfg : WsHubConfig} {feed : Feed ConnId Message} (hs : s.Lossless cfg c)
    (hkeep : feed.keep = s.feed.keep)
    (hnear : (feed.unread c).length ≤ cfg.broadcastChannelCapacity)
    (hst' : d = c → ∀ r ∈ st'.traffic.results, ∃ msg, r = .ok msg) :
    (Fanout.put { s with feed := feed } d st').Lossless cfg c := by
  refine ⟨hkeep ▸ hs.keep, hnear, fun st hst => ?_⟩
  by_cases hdc : d = c
  · subst hdc
    obtain rfl : st' = st := by simpa using hst
    exact hst' rfl
  · rw [streams_put_ne (Ne.symm hdc)] at hst
    exact hs.heard st hst

theorem lossless_step {cfg : WsHubConfig} (hs : s.Lossless cfg c)
    (h : FanoutStep decode codec link s l s') (hnear : s.KeepsUp cfg c l s') :
    s'.Lossless cfg c := by
  cases h with
  | accept capacity window handler hnew =>
    exact lossless_put hs rfl hnear fun _ => by simp [Stream.start, Traffic.start]
  | access hl h => exact ⟨hs.keep, hs.near, hs.heard⟩
  | publish hpc h =>
    refine ⟨hs.keep, hnear, fun st hst => ?_⟩
    obtain ⟨st₀, hst₀, rfl⟩ : ∃ st₀, s.streams c = some st₀ ∧
        { st₀ with traffic := st₀.traffic.note st₀.conn (.published _) } = st := by
      simpa [publish] using hst
    exact hs.heard st₀ hst₀
  | @receive d st st' msg feed hd hrecv hstep =>
    obtain ⟨n, hn, rfl⟩ := Feed.recv_seek hrecv
    refine lossless_put hs rfl hnear fun hdc => ?_
    subst hdc
    exact stream_results hstep (by simp) (hs.heard st hd)
  | @lagged d st st' n feed hd hrecv hstep =>
    obtain ⟨m, hm, hseek⟩ := Feed.recv_seek hrecv
    refine lossless_put hs (hseek ▸ rfl) hnear fun hdc => ?_
    subst hdc
    obtain ⟨hn, hlength, -⟩ := Feed.recv_error hrecv
    have hkeep := hs.keep
    have hwithin := hs.near
    omega
  | @stream d st st' e hd he hstep =>
    refine lossless_put hs rfl hnear fun hdc => ?_
    subst hdc
    refine stream_results hstep ?_ (hs.heard st hd)
    rintro n rfl
    exact he trivial

/-- A connection whose receiver never falls further behind than the configured capacity writes
the plain broadcasts from where it subscribed without a gap, and all of them once it is idle. -/
theorem complete_of_keepsUp {cfg : WsHubConfig} {xs : List (FanoutLabel Task)}
    (hfresh : s.Fresh cfg)
    (h : ((fanoutSystem decode codec link).restrict (KeepsUp cfg c)).Run s xs s')
    (hc : s'.streams c = some st) : ∃ us bs, Interleaves us bs st.traffic.written ∧
      us <+: st.traffic.accepted ∧ bs <+: st.traffic.published ∧
      st.traffic.published <:+ s'.calls.shared.clients.broadcastTx ∧
      (st.conn.writer = .select → s'.feed.unread c = [] → bs = st.traffic.published) := by
  have hlossless : s'.Lossless cfg c := by
    refine h.invariant ?_ (lossless_fresh hfresh c)
    rintro s l t ⟨hstep, hnear⟩ hs
    exact lossless_step hs hstep hnear
  have hs := sound_run hfresh h.of_restrict
  have htracks := (faithful_view hfresh h.of_restrict hc).tracks
  obtain ⟨seen, hseen, hrecounts⟩ := htracks.inbox
  have hall : items st.traffic.results = seen := hrecounts.complete (hlossless.heard st hc)
  have hitems : items st.traffic.heard <+: seen := hall ▸ htracks.heard.filterMap _
  have haccepted : st.traffic.taken <+: st.traffic.accepted := ⟨_, htracks.queue.symm⟩
  refine ⟨_, _, htracks.merged, htracks.unicasts.trans haccepted,
    hitems.trans ⟨_, hseen.symm⟩, hs.channel ▸ (hs.carried c st hc).published, ?_⟩
  intro hidle hunread
  have hpublished : st.traffic.published = seen := by simpa [view, hunread] using hseen
  have hsettled : items st.traffic.results = items st.traffic.heard :=
    (htracks.settled (Or.inr hidle)).2
  exact hsettled.symm.trans (hall.trans hpublished.symm)

/-- A broadcast that is read before the next one. -/
theorem complete_one_broadcast : ∃ (s : Fanout Unit Bool) (st : Stream Bool),
    st.traffic.written = [.text "true"] ∧ ∃ us bs, Interleaves us bs st.traffic.written ∧
      us <+: st.traffic.accepted ∧ bs <+: st.traffic.published ∧
      st.traffic.published <:+ s.calls.shared.clients.broadcastTx ∧
      (st.conn.writer = .select → s.feed.unread "c" = [] → bs = st.traffic.published) := by
  have hrun : ((fanoutSystem (fun _ => (none : Option Unit)) (jsonCodec boolJson) .plain).restrict
      (KeepsUp { WsHubConfig.default with broadcastChannelCapacity := 1 } "c")).Run (start 1)
      [.accept "c", .store (.call () (.broadcast (some (.text "true")))),
        .store (.exec () .access), .stream "c" (.conn .registered),
        .stream "c" (.conn .receive), .stream "c" (.conn .sent)] _ :=
    .step ⟨.accept 32 1 true rfl, by decide⟩ <|
    .step ⟨.access (by simp) (.call _ rfl), by decide⟩ <|
    .step ⟨.publish rfl (.exec (Calls.granted_of_free rfl) (.publish _)), by decide⟩ <|
    .step ⟨.stream rfl id (.conn (.registered rfl)), by decide⟩ <|
    .step ⟨.receive rfl rfl (.conn (.receive rfl rfl)), by decide⟩ <|
    .single ⟨.stream rfl id (.conn (.sent rfl rfl)), by decide⟩
  exact ⟨_, _, rfl, complete_of_keepsUp (fanout_start_fresh (Nat.le_refl 1)) hrun rfl⟩

end Fanout

end AxumSignal

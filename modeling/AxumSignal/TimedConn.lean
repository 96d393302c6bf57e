import AxumSignal.Cancellation
import AxumSignal.Timers

/-! A connection with the clock of its read loop, and which runs of the connection the two
timers admit. -/
namespace AxumSignal

open Transition LTS

variable {Req : Type} {cfg : WsHubConfig} {decode : Message → Option Req} {full : Bool}
  {s s' t t' : Conn} {u v : TimedLoop} {a b : TimedConn} {ev : ConnEvent} {l : TimedEvent}
  {pos : ReadPos} {xs : List ConnEvent} {ys : List TimedEvent}

/-- A connection, and its read loop with the two timers. -/
structure TimedConn where
  conn : Conn
  loop : TimedLoop

/-- What a step of the timed loop is to its connection. -/
def LoopEvent.inConn : LoopEvent → Option ConnEvent
  | .pass _ => none
  | .frame msg => some (.frame msg)
  | .streamClosed => some .streamClosed
  | .readError => some .readError
  | .idle => some .idle
  | .tick => some .tick
  | .enqueued => some .enqueued
  | .rejected => some .rejected
  | .cancelled => some .observed

/-- A step of the timed loop, or one that the loop does not take. -/
inductive TimedEvent where
  | loop (e : LoopEvent)
  | other (ev : ConnEvent)

def TimedEvent.inConn : TimedEvent → Option ConnEvent
  | .loop e => e.inConn
  | .other ev => some ev

/-- A `send` into the queue has to wait. -/
def Chan.isFull (c : Chan) : Bool := !c.closed && decide (c.capacity ≤ c.queue.length)

/-- One step of the connection with its clock. The clock starts with the read loop, whose
`interval(..)` panics on a zero period, and while the loop enqueues a Ping or Pong time passes only
over a full queue. -/
inductive TimedStep (cfg : WsHubConfig) (decode : Message → Option Req) :
    TimedConn → TimedEvent → TimedConn → Prop where
  | pass {a : TimedConn} {d : Nat} {u : TimedLoop} (hmain : a.conn.main = .reading a.loop.pos)
      (hloop : LoopStep cfg decode a.conn.chan.isFull a.loop (.pass d) u) :
      TimedStep cfg decode a (.loop (.pass d)) { a with loop := u }
  | loop {a : TimedConn} {e : LoopEvent} {ev : ConnEvent} {s : Conn} {u : TimedLoop}
      (hmain : a.conn.main = .reading a.loop.pos) (hev : e.inConn = some ev)
      (hloop : LoopStep cfg decode a.conn.chan.isFull a.loop e u)
      (hconn : ConnStep decode a.conn ev s) : TimedStep cfg decode a (.loop e) ⟨s, u⟩
  | connected {a : TimedConn} {s : Conn} (hbeat : 0 < cfg.heartbeatInterval)
      (hconn : ConnStep decode a.conn .connected s) :
      TimedStep cfg decode a (.other .connected) ⟨s, .start cfg⟩
  | other {a : TimedConn} {ev : ConnEvent} {s : Conn} (hev : ∀ e : LoopEvent, e.inConn ≠ some ev)
      (hne : ev ≠ .connected) (hconn : ConnStep decode a.conn ev s) :
      TimedStep cfg decode a (.other ev) { a with conn := s }

/-- The system of one connection with its clock. -/
def timedConn (cfg : WsHubConfig) (decode : Message → Option Req) :
    LTS TimedConn TimedEvent := ⟨TimedStep cfg decode⟩

theorem inConn_cons {e : LoopEvent} (hev : e.inConn = some ev) :
    (TimedEvent.loop e :: ys).filterMap TimedEvent.inConn =
      ev :: ys.filterMap TimedEvent.inConn := by
  simp [TimedEvent.inConn, hev]

/-- Without its clock, a run is a run of the connection. -/
theorem conn_run (h : (timedConn cfg decode).Run a ys b) :
    (connSystem decode).Run a.conn (ys.filterMap TimedEvent.inConn) b.conn := by
  induction h with
  | refl => exact .refl
  | step hstep _ ih =>
    cases hstep with
    | pass => exact ih
    | loop _ hev _ hconn =>
      rw [inConn_cons hev]
      exact .step hconn ih
    | connected _ hconn => exact .step hconn ih
    | other _ _ hconn => exact .step hconn ih

/-- Whether time can pass in an enqueue matters to no other step. -/
theorem loopStep_full {e : LoopEvent} (h : LoopStep cfg decode full u e v) :
    LoopStep cfg decode true u e v := by
  cases h with
  | pass hpos hidle htick => exact .pass hpos hidle htick
  | blocked hpos _ => exact .blocked hpos rfl
  | idle hpos hidle => exact .idle hpos hidle
  | streamClosed hpos => exact .streamClosed hpos
  | readError hpos => exact .readError hpos
  | frame msg hpos => exact .frame msg hpos
  | tick hpos htick => exact .tick hpos htick
  | enqueued hpos => exact .enqueued hpos
  | rejected hpos => exact .rejected hpos
  | cancelled hpos => exact .cancelled hpos

/-- A step that the timed loop does not take leaves the connection's read loop where it is. -/
theorem other_reading (hev : ∀ e : LoopEvent, e.inConn ≠ some ev) (hne : ev ≠ .connected)
    (h : ConnStep decode s ev t) (ht : t.main = .reading pos) : s.main = .reading pos := by
  cases h with
  | connected => exact (hne rfl).elim
  | frame msg => exact (hev (.frame msg) rfl).elim
  | streamClosed => exact (hev .streamClosed rfl).elim
  | readError => exact (hev .readError rfl).elim
  | idle => exact (hev .idle rfl).elim
  | tick => exact (hev .tick rfl).elim
  | enqueued => exact (hev .enqueued rfl).elim
  | rejected => exact (hev .rejected rfl).elim
  | observed => exact (hev .cancelled rfl).elim
  | registered | closed | removed | disconnected | finished => cases ht
  | _ => exact ht

/-- The connection and its timed loop are at the same place. -/
theorem loop_reading {e : LoopEvent} (hmain : s.main = .reading u.pos) (hev : e.inConn = some ev)
    (hloop : LoopStep cfg decode full u e v) (hconn : ConnStep decode s ev t) :
    t.main = .reading v.pos := by
  cases hloop with
  | pass | blocked => cases hev
  | frame =>
    cases hev
    cases hconn
    rw [receive_pos]
  | rejected =>
    cases hev
    cases hconn with
    | rejected hpos =>
      obtain rfl : u.pos = _ := MainPos.reading.inj (hmain.symm.trans hpos)
      rfl
  | idle | streamClosed | readError | tick | enqueued | cancelled =>
    cases hev
    cases hconn
    rfl

/-- While the connection reads, its loop and the timed loop are at the same place, which the
timed loop alone can reach. -/
structure TimedConn.Synced (cfg : WsHubConfig) (decode : Message → Option Req) (a : TimedConn) :
    Prop where
  pos : ∀ pos, a.conn.main = .reading pos → a.loop.pos = pos
  reached : (timedLoop cfg decode true).Reachable (· = .start cfg) a.loop

theorem synced_start (h : s.Fresh) : TimedConn.Synced cfg decode ⟨s, .start cfg⟩ where
  pos pos hpos := by simp [h.1] at hpos
  reached := ⟨_, rfl, [], .refl⟩

theorem synced_step (hs : a.Synced cfg decode) (h : TimedStep cfg decode a l b) :
    b.Synced cfg decode := by
  cases h with
  | pass hmain hloop =>
    refine ⟨fun pos hpos => ?_, hs.reached.extend (.single (loopStep_full hloop))⟩
    have hsame := hs.pos pos hpos
    cases hloop <;> exact hsame
  | loop hmain hev hloop hconn =>
    refine ⟨fun pos hpos => ?_, hs.reached.extend (.single (loopStep_full hloop))⟩
    exact MainPos.reading.inj ((loop_reading hmain hev hloop hconn).symm.trans hpos)
  | connected _ hconn =>
    refine ⟨fun pos hpos => ?_, ⟨_, rfl, [], .refl⟩⟩
    cases hconn
    exact MainPos.reading.inj hpos
  | other hev hne hconn =>
    exact ⟨fun pos hpos => hs.pos pos (other_reading hev hne hconn hpos), hs.reached⟩

theorem synced_run (hs : a.Synced cfg decode) (h : (timedConn cfg decode).Run a ys b) :
    b.Synced cfg decode :=
  h.invariant (fun _ _ _ hstep hu => synced_step hu hstep) hs

/-- The idle timer does not fire if the heartbeat interval is below the idle timeout. -/
theorem not_idle_step (hcfg : cfg.heartbeatInterval < cfg.idleTimeout)
    (hs : a.Synced cfg decode) (h : TimedStep cfg decode a l b) : l.inConn ≠ some .idle := by
  have hs' := synced_step hs h
  cases h with
  | pass => simp [TimedEvent.inConn, LoopEvent.inConn]
  | loop _ hev _ hconn =>
    intro hidle
    obtain rfl := Option.some.inj (hev.symm.trans hidle)
    cases hconn
    have hlost := (raced_reachable hs'.reached).lost (hs'.pos _ rfl)
    exact absurd hlost (Nat.not_le.mpr hcfg)
  | connected => simp [TimedEvent.inConn]
  | other hev _ _ =>
    intro hidle
    exact hev .idle hidle.symm

/-- The loop is not late for its next tick, which comes before the idle timer. -/
structure TimedLoop.OnTime (cfg : WsHubConfig) (u : TimedLoop) : Prop where
  due : u.now ≤ u.tickDeadline
  ticking : Ticking cfg u
  armed : u.pos = .select → u.tickDeadline ≤ u.idleDeadline

theorem onTime_start : (TimedLoop.start cfg).OnTime cfg where
  due := le_rfl
  ticking := Nat.zero_le _
  armed _ := Nat.zero_le _

theorem onTime_enterSelect (hcfg : cfg.heartbeatInterval < cfg.idleTimeout) (h : u.OnTime cfg) :
    (u.enterSelect cfg).OnTime cfg where
  due := h.due
  ticking := h.ticking
  armed _ := h.ticking.trans (Nat.add_le_add_left hcfg.le _)

theorem onTime_receive (hcfg : cfg.heartbeatInterval < cfg.idleTimeout) (action : FrameAction Req)
    (u : TimedLoop) : (u.receive cfg action).OnTime cfg where
  due := by simp
  ticking := by simp [Ticking]
  armed hpos := by
    rw [receive_pos] at hpos
    rw [receive_tickDeadline, receive_idleDeadline hpos]
    omega

/-- A loop that is on time waits for its next tick, and takes it. -/
theorem onTime_tick (decode : Message → Option Req) (full : Bool) (h : u.OnTime cfg)
    (hpos : u.pos = .select) :
    ∃ d, LoopStep cfg decode full u (.pass d) { u with now := u.tickDeadline } ∧
      LoopStep cfg decode full { u with now := u.tickDeadline } .tick
        ({ u with now := u.tickDeadline }.tick cfg) ∧
      ({ u with now := u.tickDeadline }.tick cfg).OnTime cfg := by
  obtain ⟨d, hd⟩ := Nat.exists_eq_add_of_le h.due
  have harmed := h.armed hpos
  have hwait : ({ u with now := u.tickDeadline } : TimedLoop) = { u with now := u.now + d } := by
    rw [← hd]
  refine ⟨d, ?_, .tick hpos le_rfl, ?_, le_rfl, fun hsel => by simp [TimedLoop.tick] at hsel⟩
  · rw [hwait]
    exact .pass hpos (hd ▸ harmed) hd.ge
  · simp [TimedLoop.tick]

/-- Under its clock the connection can take the steps `xs` to `t`, its loop being on time. -/
def TimedConn.Shows (cfg : WsHubConfig) (decode : Message → Option Req) (a : TimedConn)
    (xs : List ConnEvent) (t : Conn) : Prop :=
  ∃ ys v, (timedConn cfg decode).Run a ys ⟨t, v⟩ ∧ ys.filterMap TimedEvent.inConn = xs ∧
    (∀ pos, t.main = .reading pos → v.pos = pos) ∧ v.OnTime cfg

/-- One step of the timed loop that brings the connection along. -/
theorem exists_timed_loop {e : LoopEvent} (hpos : s.main = .reading u.pos)
    (hev : e.inConn = some ev) (hloop : LoopStep cfg decode s.chan.isFull u e v)
    (hv : v.OnTime cfg) (h : ConnStep decode s ev t) :
    TimedConn.Shows cfg decode ⟨s, u⟩ [ev] t := by
  refine ⟨[.loop e], v, .single (.loop hpos hev hloop h), inConn_cons hev, fun pos ht => ?_, hv⟩
  exact MainPos.reading.inj ((loop_reading hpos hev hloop h).symm.trans ht)

theorem exists_timed_other (hev : ∀ e : LoopEvent, e.inConn ≠ some ev) (hne : ev ≠ .connected)
    (hpos : ∀ pos, s.main = .reading pos → u.pos = pos) (hu : u.OnTime cfg)
    (h : ConnStep decode s ev t) :
    TimedConn.Shows cfg decode ⟨s, u⟩ [ev] t :=
  ⟨[.other ev], u, .single (.other hev hne h), rfl,
    fun pos ht => hpos pos (other_reading hev hne h ht), hu⟩

/-- Each step of a connection, but for the idle timeout, is one that its clock admits. -/
theorem exists_timed (hcfg : cfg.heartbeatInterval < cfg.idleTimeout)
    (hpos : ∀ pos, s.main = .reading pos → u.pos = pos) (hu : u.OnTime cfg)
    (h : ConnStep decode s ev t) (hidle : ev ≠ .idle)
    (hbeat : ev = .connected → 0 < cfg.heartbeatInterval) :
    TimedConn.Shows cfg decode ⟨s, u⟩ [ev] t := by
  have hreading : ∀ {pos}, s.main = .reading pos → s.main = .reading u.pos := by
    intro pos hmain
    rw [hpos pos hmain, hmain]
  have hdone : ∀ reason, ({ u with pos := .done reason } : TimedLoop).OnTime cfg := fun reason =>
    ⟨hu.due, hu.ticking, fun hsel => by simp at hsel⟩
  cases hstep : h with
  | frame msg hmain =>
    exact exists_timed_loop (hreading hmain) rfl (.frame msg (hpos _ hmain))
      (onTime_receive hcfg _ u) h
  | streamClosed hmain =>
    exact exists_timed_loop (hreading hmain) rfl (.streamClosed (hpos _ hmain)) (hdone _) h
  | readError hmain =>
    exact exists_timed_loop (hreading hmain) rfl (.readError (hpos _ hmain)) (hdone _) h
  | observed hmain =>
    exact exists_timed_loop (hreading hmain) rfl (.cancelled (hpos _ hmain)) (hdone _) h
  | enqueued hmain hmsg =>
    obtain rfl := hpos _ hmain
    exact exists_timed_loop hmain rfl (.enqueued hmsg) (onTime_enterSelect hcfg hu) h
  | rejected hmain hmsg =>
    obtain rfl := hpos _ hmain
    exact exists_timed_loop hmain rfl (.rejected hmsg) (hdone _) h
  | tick hmain =>
    obtain ⟨d, hpass, htick, hv⟩ := onTime_tick decode s.chan.isFull hu (hpos _ hmain)
    refine ⟨[.loop (.pass d), .loop .tick], _, .step (.pass (hreading hmain) hpass) <|
      .single (.loop (hreading hmain) rfl htick h), rfl, fun pos ht => ?_, hv⟩
    exact MainPos.reading.inj ht
  | idle => exact (hidle rfl).elim
  | connected =>
    refine ⟨[.other .connected], .start cfg, .single (.connected (hbeat rfl) h), rfl,
      fun pos ht => ?_, onTime_start⟩
    exact MainPos.reading.inj ht
  | _ =>
    exact exists_timed_other (by rintro (- | -) <;> simp [LoopEvent.inConn]) (by simp) hpos hu h

/-- A connection gets past its `on_connect` only if the loop can be entered. -/
theorem connected_beats (h : (timedConn cfg decode).Run a ys b)
    (hconnected : .connected ∈ ys.filterMap TimedEvent.inConn) : 0 < cfg.heartbeatInterval := by
  induction h with
  | refl => simp at hconnected
  | step hstep _ ih =>
    cases hstep with
    | pass => exact ih hconnected
    | connected hbeat => exact hbeat
    | @loop e _ _ _ _ hev =>
      rw [inConn_cons hev] at hconnected
      refine ih ((List.mem_cons.mp hconnected).resolve_left ?_)
      rintro rfl
      cases e <;> simp [LoopEvent.inConn] at hev
    | other _ hne _ => exact ih ((List.mem_cons.mp hconnected).resolve_left hne.symm)

/-- If the heartbeat interval is below the idle timeout, what a connection can do under its two
timers is just what it can do without a clock, except that it never runs into the idle timeout,
and that it does not enter its loop with a heartbeat interval of zero. -/
theorem timed_iff (hcfg : cfg.heartbeatInterval < cfg.idleTimeout) (hfresh : s.Fresh) :
    (∃ ys v, (timedConn cfg decode).Run ⟨s, .start cfg⟩ ys ⟨t, v⟩ ∧
      ys.filterMap TimedEvent.inConn = xs) ↔
      (connSystem decode).Run s xs t ∧ .idle ∉ xs ∧
        (.connected ∈ xs → 0 < cfg.heartbeatInterval) := by
  constructor
  · rintro ⟨ys, v, hrun, rfl⟩
    refine ⟨conn_run hrun, fun hidle => ?_, connected_beats hrun⟩
    obtain ⟨l, hl, hinConn⟩ := List.mem_filterMap.mp hidle
    obtain ⟨pre, post, rfl⟩ := List.append_of_mem hl
    obtain ⟨a, hpre, hpost⟩ := hrun.split
    cases hpost with
    | step hstep _ =>
      exact not_idle_step hcfg (synced_run (synced_start hfresh) hpre) hstep hinConn
  · rintro ⟨hrun, hidle, hbeat⟩
    suffices h : TimedConn.Shows cfg decode ⟨s, .start cfg⟩ xs t by
      obtain ⟨ys, v, htimed, hxs, -⟩ := h
      exact ⟨ys, v, htimed, hxs⟩
    revert hidle hbeat
    refine hrun.history (H := fun xs t => .idle ∉ xs →
      (.connected ∈ xs → 0 < cfg.heartbeatInterval) →
        TimedConn.Shows cfg decode ⟨s, .start cfg⟩ xs t) (fun _ _ => ?_) ?_
    · exact ⟨[], _, .refl, rfl, fun pos hpos => by simp [hfresh.1] at hpos, onTime_start⟩
    · intro xs u ev w hstep hshows hidle hbeat
      rw [List.mem_append, not_or] at hidle
      have hev : ev ≠ .idle := by
        rintro rfl
        exact hidle.2 (List.mem_singleton_self _)
      obtain ⟨ys, v, htimed, rfl, hpos, hv⟩ :=
        hshows hidle.1 fun h => hbeat (List.mem_append_left _ h)
      obtain ⟨zs, v', htimed', hzs, hend⟩ := exists_timed hcfg hpos hv hstep hev
        fun h => hbeat (h ▸ List.mem_append_right _ (List.mem_singleton_self _))
      exact ⟨ys ++ zs, v', htimed.append htimed', by rw [List.filterMap_append, hzs], hend⟩

/-- With the default timers: two Pings, for which the clock waits one heartbeat interval. -/
theorem timed_two_pings : ∃ t ys v, (timedConn .default fun _ => (none : Option Unit)).Run
    ⟨.start 32 0, .start .default⟩ ys ⟨t, v⟩ ∧
      ys.filterMap TimedEvent.inConn = [.registered, .connected, .tick, .enqueued, .tick] :=
  ⟨_, (timed_iff (by decide) (start_fresh 32 0)).mpr
    ⟨.step (.registered rfl) <| .step (.connected rfl) <| .step (.tick rfl) <|
      .step (.enqueued rfl rfl rfl (by decide)) <| .single (.tick rfl), by decide,
      fun _ => by decide⟩⟩

end AxumSignal

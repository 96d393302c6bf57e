import AxumSignal.Connection

/-! What every run of one connection keeps, and when its tasks can go on without their peer as
far as its queue, its token and its transport are concerned. -/
namespace AxumSignal

open Transition

variable {Req : Type} {decode : Message → Option Req} {s t : Conn} {e : ConnEvent}

/-- The writer exists as soon as the hook runs, and the queue is closed by its exit. -/
structure Conn.Wired (s : Conn) : Prop where
  spawned : s.main = .registering ∨ s.writer ≠ .unspawned
  closed : s.writer = .exited → s.chan.closed = true

theorem wired_fresh (h : s.Fresh) : s.Wired := by
  obtain ⟨hmain, hwriter, _⟩ := h
  exact ⟨Or.inl hmain, fun hexit => by simp [hwriter] at hexit⟩

theorem wired_step (hs : s.Wired) (h : ConnStep decode s e t) : t.Wired := by
  obtain ⟨hspawned, hclosed⟩ := hs
  cases h <;> constructor <;> simp_all [Chan.push]

theorem wired_reachable (h : (connSystem decode).Reachable Conn.Fresh s) : s.Wired :=
  h.invariant (fun _ _ _ hstep hu => wired_step hu hstep) fun _ => wired_fresh

/-- The writer is not spawned before `add` returns, it is joined before `on_disconnect`, and
the teardown has cancelled the token. -/
structure Conn.Joined (s : Conn) : Prop where
  unspawned : s.main = .registering → s.writer = .unspawned
  exited : s.main.Disconnected → s.writer = .exited
  cancelled : s.main.Closing → s.cancelled = true

theorem joined_fresh (h : s.Fresh) : s.Joined := by
  obtain ⟨hmain, hwriter, -⟩ := h
  exact ⟨fun _ => hwriter, by simp [hmain, MainPos.Disconnected], by simp [hmain, MainPos.Closing]⟩

theorem joined_step (hs : s.Joined) (h : ConnStep decode s e t) : t.Joined := by
  obtain ⟨hunspawned, hexited, hcancelled⟩ := hs
  cases h <;> constructor <;> simp_all [MainPos.Disconnected, MainPos.Closing]

theorem joined_reachable (h : (connSystem decode).Reachable Conn.Fresh s) : s.Joined :=
  h.invariant (fun _ _ _ hstep hu => joined_step hu hstep) fun _ => joined_fresh

/-- The writer is in a `sink.send` that the transport does not take. -/
def Conn.Blocked (s : Conn) : Prop := s.writer = .sending ∧ s.window = 0

/-- The serve task joins a blocked writer, or enqueues a Ping or Pong into its full queue. -/
def Conn.AwaitsPeer (s : Conn) : Prop :=
  s.Blocked ∧
    (s.main = .awaitWriter ∨ ∃ pos msg, s.main = .reading pos ∧ pos.enqueuing = some msg ∧
      s.chan.closed = false ∧ s.chan.capacity ≤ s.chan.queue.length)

/-- Some step of the connection's own tasks is enabled. -/
def Conn.Moves (decode : Message → Option Req) (s : Conn) : Prop :=
  ∃ e t, ConnEvent.Own e ∧ ConnStep decode s e t

variable (decode) in
/-- A cancelled writer that is not blocked sends what it has taken and exits, and leaves the
serve task where it is. -/
theorem writer_moves (hc : s.cancelled = true) (hspawned : s.writer ≠ .unspawned)
    (hexited : s.writer ≠ .exited) (hblocked : ¬ s.Blocked) :
    ∃ e t, e.Own ∧ e ≠ .closed ∧ ConnStep decode s e t ∧ t.main = s.main ∧
      t.cancelled = s.cancelled ∧
        (s.writer = .sending ∧ t.writer = .select ∨ s.writer = .select ∧ t.writer = .exited) := by
  cases hw : s.writer with
  | unspawned => exact (hspawned hw).elim
  | exited => exact (hexited hw).elim
  | select => exact ⟨.stopped, _, trivial, nofun, .stopped hw hc, rfl, rfl, Or.inr ⟨rfl, rfl⟩⟩
  | sending =>
    obtain ⟨n, hn⟩ := Nat.exists_eq_succ_of_ne_zero fun hwindow => hblocked ⟨hw, hwindow⟩
    exact ⟨.sent, _, trivial, nofun, .sent hw hn, rfl, rfl, Or.inl ⟨rfl, rfl⟩⟩

/-- A blocked writer has no step of its own, and the serve task waits for it. -/
theorem Conn.AwaitsPeer.not_moves (h : s.AwaitsPeer) : ¬ s.Moves decode := by
  obtain ⟨⟨hw, hwin⟩, hmain⟩ := h
  intro ⟨e, t, hown, hstep⟩
  cases hstep with
  | enqueued hpos _ _ hroom =>
    rcases hmain with hwait | ⟨_, _, _, _, _, hfull⟩
    · simp [hpos] at hwait
    · omega
  | _ => simp_all [ConnEvent.Own, ReadPos.enqueuing]

/-- A serve task that enqueues moves, or finds the queue open and full. -/
theorem enqueuing_moves {pos : ReadPos} {msg : Message} (hpos : s.main = .reading pos)
    (hmsg : pos.enqueuing = some msg) : s.Moves decode ∨
      (s.chan.closed = false ∧ s.chan.capacity ≤ s.chan.queue.length) := by
  cases hclosed : s.chan.closed with
  | true => exact Or.inl ⟨.rejected, _, trivial, .rejected hpos hmsg hclosed⟩
  | false =>
    by_cases hroom : s.chan.queue.length < s.chan.capacity
    · exact Or.inl ⟨.enqueued, _, trivial, .enqueued hpos hmsg hclosed hroom⟩
    · exact Or.inr ⟨rfl, by omega⟩

/-- A cancelled connection before its `on_disconnect` can go on without its peer exactly if the
serve task does not wait for a blocked writer. -/
theorem moves_iff (hs : s.Wired) (hc : s.cancelled = true) (hd : ¬ s.main.Disconnected) :
    s.Moves decode ↔ ¬ s.AwaitsPeer := by
  refine ⟨fun hmove hwait => hwait.not_moves hmove, fun hfree => ?_⟩
  obtain ⟨hspawned, hclosed⟩ := hs
  by_contra hstuck
  have hwriter : s.writer = .unspawned ∨ s.writer = .exited ∨ s.Blocked := by
    by_contra hno
    simp only [not_or] at hno
    obtain ⟨e, t, hown, -, hstep, -⟩ := writer_moves decode hc hno.1 hno.2.1 hno.2.2
    exact hstuck ⟨e, t, hown, hstep⟩
  have hwait : ∀ {pos msg}, s.main = .reading pos → pos.enqueuing = some msg → False := by
    intro pos msg hpos hmsg
    obtain ⟨hopen, hfull⟩ := (enqueuing_moves hpos hmsg).resolve_left hstuck
    rcases hwriter with hw | hw | hblocked
    · exact hspawned.elim (by simp [hpos]) (· hw)
    · simp [hclosed hw] at hopen
    · exact hfree ⟨hblocked, Or.inr ⟨pos, msg, hpos, hmsg, hopen, hfull⟩⟩
  cases hmain : s.main with
  | registering => exact hstuck ⟨.registered, _, trivial, .registered hmain⟩
  | onConnect => exact hstuck ⟨.connected, _, trivial, .connected hmain⟩
  | reading pos =>
    cases pos with
    | select => exact hstuck ⟨.observed, _, trivial, .observed hmain hc⟩
    | sendPong data => exact hwait hmain rfl
    | sendPing => exact hwait hmain rfl
    | done reason => exact hstuck ⟨.closed, _, trivial, .closed hmain⟩
  | removing => exact hstuck ⟨.removed, _, trivial, .removed hmain⟩
  | awaitWriter =>
    rcases hwriter with hw | hw | hblocked
    · exact hspawned.elim (by simp [hmain]) (· hw)
    · exact hstuck ⟨.disconnected, _, trivial, .disconnected hmain hw⟩
    · exact hfree ⟨hblocked, Or.inl hmain⟩
  | onDisconnect => exact hd (by simp [hmain, MainPos.Disconnected])
  | ended => exact hd (by simp [hmain, MainPos.Disconnected])

/-- A fresh connection whose transport takes `window` messages. -/
def Conn.start (capacity window : Nat) : Conn where
  main := .registering
  writer := .unspawned
  chan := ⟨capacity, [], false⟩
  inbox := []
  cancelled := false
  window := window

theorem start_fresh (capacity window : Nat) : (Conn.start capacity window).Fresh :=
  ⟨rfl, rfl, rfl, rfl, rfl, rfl⟩

end AxumSignal

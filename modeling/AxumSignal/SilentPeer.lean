import AxumSignal.Lib.Execution
import AxumSignal.TimedConn

/-! What becomes of a connection whose peer falls silent, while its transport reports neither an
end nor an error. -/
namespace AxumSignal

open Transition LTS Filter

variable {Req : Type} {cfg : WsHubConfig} {decode : Message → Option Req} {s t : Conn}
  {a b : TimedConn} {ev : ConnEvent} {l : TimedEvent} {pos : ReadPos} {msg : Message}

/-- Nothing comes from the peer or its transport, and nobody ends the connection. -/
def ConnEvent.Silent : ConnEvent → Prop
  | .frame _ | .streamClosed | .readError | .peerReads | .sinkError | .sourceClosed
  | .cancelled => False
  | _ => True

def TimedEvent.Silent (l : TimedEvent) : Prop := ∀ ev, l.inConn = some ev → ev.Silent

/-- Where the serve task is until its read loop ends. -/
def MainPos.Serves : MainPos → Prop
  | .registering | .onConnect => True
  | .reading .select | .reading (.sendPong _) | .reading .sendPing => True
  | _ => False

/-- Nothing has ended the serve task or the writer. -/
structure Conn.Up (s : Conn) : Prop where
  main : s.main.Serves
  calm : s.cancelled = false
  opened : s.chan.closed = false

/-- How many more messages the queue, the writer and the transport take. -/
def Conn.spare (s : Conn) : Nat :=
  s.chan.capacity - s.chan.queue.length + (if s.writer = .sending then 0 else 1) + s.window

theorem up_step (hs : s.Up) (h : ConnStep decode s ev t) (hev : ev.Silent) (hidle : ev ≠ .idle) :
    t.Up := by
  obtain ⟨hmain, hcalm, hopen⟩ := hs
  have hout : ∀ {main : MainPos}, s.main = main → ¬ main.Serves → t.Up :=
    fun heq hnot => (hnot (heq ▸ hmain)).elim
  cases h with
  | registered | connected | tick | enqueued => exact ⟨trivial, hcalm, hopen⟩
  | pushed | published | lagged | take | receive | sent => exact ⟨hmain, hcalm, hopen⟩
  | rejected _ _ hclosed => simp [hopen] at hclosed
  | observed _ hcancel | stopped _ hcancel => simp [hcalm] at hcancel
  | idle => exact (hidle rfl).elim
  | closed hpos | removed hpos | disconnected hpos | finished hpos => exact hout hpos id
  | frame | streamClosed | readError | sinkError | sourceClosed | cancelled | peerReads =>
    exact hev.elim

/-- A silent peer leaves the connection with less and less room, and each Ping or Pong takes
some. -/
theorem spare_step (hs : s.Up) (hj : s.Joined) (h : ConnStep decode s ev t) (hev : ev.Silent) :
    t.spare ≤ s.spare ∧ (ev = .enqueued → t.spare < s.spare) := by
  cases h with
  | registered hpos => simp [Conn.spare, hj.unspawned hpos]
  | enqueued _ _ _ hroom | pushed _ _ hroom =>
    simp only [Conn.spare, Chan.push, List.length_append, List.length_singleton]
    omega
  | take hwriter hqueue =>
    simp only [Conn.spare, hwriter, hqueue, List.length_cons]
    simp
    omega
  | receive hwriter => simp [Conn.spare, hwriter]
  | sent hwriter hwindow =>
    simp only [Conn.spare, hwriter, hwindow, if_true]
    simp
    omega
  | sinkError | sourceClosed | peerReads => exact hev.elim
  | stopped _ hcancel => simp [hs.calm] at hcancel
  | _ => simp [Conn.spare]

/-- The step lemma of the connection with its clock. -/
theorem up_timed (hcfg : cfg.heartbeatInterval < cfg.idleTimeout)
    (hs : a.Synced cfg decode) (hu : a.conn.Up) (h : TimedStep cfg decode a l b)
    (hl : l.Silent) : b.conn.Up := by
  have hidle := not_idle_step hcfg hs h
  cases h with
  | pass => exact hu
  | loop _ hev _ hconn => exact up_step hu hconn (hl _ hev) fun heq => hidle (heq ▸ hev)
  | connected _ hconn => exact up_step hu hconn trivial (by simp)
  | other _ _ hconn => exact up_step hu hconn (hl _ rfl) fun heq => hidle (congrArg some heq)

theorem spare_timed (hu : a.conn.Up) (hj : a.conn.Joined) (h : TimedStep cfg decode a l b)
    (hl : l.Silent) :
    b.conn.spare ≤ a.conn.spare ∧ (l = .loop .enqueued → b.conn.spare < a.conn.spare) := by
  cases h with
  | pass => exact ⟨le_rfl, fun heq => by cases heq⟩
  | loop _ hev _ hconn =>
    obtain ⟨hle, hlt⟩ := spare_step hu hj hconn (hl _ hev)
    refine ⟨hle, fun heq => hlt ?_⟩
    cases heq
    exact (Option.some.inj hev).symm
  | connected _ hconn => exact ⟨(spare_step hu hj hconn trivial).1, fun heq => by cases heq⟩
  | other _ _ hconn => exact ⟨(spare_step hu hj hconn (hl _ rfl)).1, fun heq => by cases heq⟩

/-- From the enqueue of a Ping or Pong the loop gets away only by enqueuing it. -/
theorem enqueuing_stays (hs : s.Up) (h : ConnStep decode s ev t) (hne : ev ≠ .enqueued)
    (hpos : s.main = .reading pos) (hmsg : pos.enqueuing = some msg) : t.main = .reading pos := by
  cases h with
  | enqueued => exact (hne rfl).elim
  | rejected _ _ hclosed => simp [hs.opened] at hclosed
  | frame _ h | streamClosed h | readError h | idle h | tick h | observed h | closed h =>
    obtain rfl := MainPos.reading.inj (hpos.symm.trans h)
    simp [ReadPos.enqueuing] at hmsg
  | registered h | connected h | removed h | disconnected h | finished h => simp [hpos] at h
  | _ => exact hpos

theorem enqueuing_timed (hu : a.conn.Up) (h : TimedStep cfg decode a l b)
    (hl : l ≠ .loop .enqueued) (hpos : a.conn.main = .reading pos)
    (hmsg : pos.enqueuing = some msg) : b.conn.main = .reading pos := by
  cases h with
  | pass => exact hpos
  | @loop e _ _ _ _ hev _ hconn =>
    refine enqueuing_stays hu hconn ?_ hpos hmsg
    rintro rfl
    cases e <;> simp [LoopEvent.inConn] at hev hl
  | connected _ hconn => exact enqueuing_stays hu hconn (by simp) hpos hmsg
  | other hev _ hconn =>
    refine enqueuing_stays hu hconn ?_ hpos hmsg
    rintro rfl
    exact hev .enqueued rfl

/-- The serve task is in its read loop, and enqueues a Ping or Pong. -/
def Conn.Enqueues (s : Conn) : Prop :=
  ∃ pos msg, s.main = .reading pos ∧ pos.enqueuing = some msg

theorem select_of_up (hs : s.Up) (hpos : s.main = .reading pos) (hne : ¬ s.Enqueues) :
    pos = .select := by
  have hserves := hs.main
  rw [hpos] at hserves
  cases pos with
  | select => rfl
  | sendPing | sendPong => exact (hne ⟨_, _, hpos, rfl⟩).elim
  | done => exact hserves.elim

/-- Up to the next enqueue, time passes only to the next tick. -/
theorem waits_timed {n : ℕ} (hu : a.conn.Up) (hv : b.conn.Up)
    (h : TimedStep cfg decode a l b) (hl : l.Silent)
    (ha : ¬ a.conn.Enqueues) (hb : ¬ b.conn.Enqueues)
    (hn : a.loop.now ≤ n ∧ a.loop.tickDeadline ≤ n) :
    b.loop.now ≤ n ∧ b.loop.tickDeadline ≤ n := by
  cases h with
  | pass hmain hloop =>
    have hpos := select_of_up hu hmain ha
    cases hloop with
    | pass _ _ htick => exact ⟨htick.trans hn.2, hn.2⟩
    | blocked hmsg => simp [hpos, ReadPos.enqueuing] at hmsg
  | loop hmain hev hloop hconn =>
    have hpos := select_of_up hu hmain ha
    have hpos' := select_of_up hv (loop_reading hmain hev hloop hconn) hb
    cases hloop with
    | pass | blocked => cases hev
    | frame msg => exact (hl _ rfl).elim
    | enqueued hmsg | rejected hmsg => simp [hpos, ReadPos.enqueuing] at hmsg
    | idle | streamClosed | readError | tick | cancelled => cases hpos'
  | connected => exact ⟨Nat.zero_le n, Nat.zero_le n⟩
  | other => exact hn

/-- A connection and its clock before the first step. -/
def TimedConn.Fresh (cfg : WsHubConfig) (a : TimedConn) : Prop :=
  a.conn.Fresh ∧ a.loop = .start cfg

theorem timed_reachable (h : (timedConn cfg decode).Reachable (TimedConn.Fresh cfg) a) :
    a.Synced cfg decode ∧ a.conn.Joined := by
  obtain ⟨⟨s, u⟩, ⟨hfresh, rfl⟩, ys, hrun⟩ := h
  exact ⟨synced_run (synced_start hfresh) hrun, joined_reachable ⟨s, hfresh, _, conn_run hrun⟩⟩

section
variable {E : Execution (timedConn cfg decode)} (hcfg : cfg.heartbeatInterval < cfg.idleTimeout)
  (hreach : (timedConn cfg decode).Reachable (TimedConn.Fresh cfg) (E.state 0))
  (hup : (E.state 0).conn.Up) (hsilent : ∀ k l, E.label k = some l → l.Silent)
include hcfg hreach hup hsilent

theorem up_at (k : ℕ) : (E.state k).Synced cfg decode ∧ (E.state k).conn.Joined ∧
    (E.state k).conn.Up := by
  have hkept : (timedConn cfg decode).Reachable (TimedConn.Fresh cfg) (E.state k) ∧
      (E.state k).conn.Up := by
    refine E.kept (I := fun a => (timedConn cfg decode).Reachable (TimedConn.Fresh cfg) a ∧
      a.conn.Up) ?_ ⟨hreach, hup⟩ (Nat.zero_le k)
    intro i l _ hl hi
    exact ⟨hi.1.extend (.single (E.moves i l hl)),
      up_timed hcfg (timed_reachable hi.1).1 hi.2 (E.moves i l hl) (hsilent i l hl)⟩
  obtain ⟨hsynced, hjoined⟩ := timed_reachable hkept.1
  exact ⟨hsynced, hjoined, hkept.2⟩

/-- Only finitely many Pings and Pongs are enqueued. -/
theorem enqueues_cease : ∃ m, ∀ k, m ≤ k → E.label k ≠ some (.loop .enqueued) := by
  have hceases : ∃ m, 0 ≤ m ∧ ∀ k, m ≤ k → ¬ E.Takes (· = .loop .enqueued) k := by
    refine Execution.ceases (fun a => a.conn.spare) (fun k _ => ?_) fun k _ htakes => ?_
    · cases hl : E.label k with
      | none => exact le_of_eq (congrArg (fun a => a.conn.spare) (E.stays k hl))
      | some l =>
        obtain ⟨-, hjoined, hu⟩ := up_at hcfg hreach hup hsilent k
        exact (spare_timed hu hjoined (E.moves k l hl) (hsilent k l hl)).1
    · obtain ⟨l, hl, rfl⟩ := htakes
      obtain ⟨-, hjoined, hu⟩ := up_at hcfg hreach hup hsilent k
      exact (spare_timed hu hjoined (E.moves k _ hl) (hsilent k _ hl)).2 rfl
  obtain ⟨m, -, hm⟩ := hceases
  exact ⟨m, fun k hk hl => hm k hk ⟨_, hl, rfl⟩⟩

/-- The next tick comes, as time goes on. -/
theorem reaches_enqueue (htime : ∀ n, ∃ᶠ k in atTop, n ≤ (E.state k).loop.now) (m : ℕ) :
    ∃ k, m ≤ k ∧ (E.state k).conn.Enqueues := by
  by_contra hnever
  simp only [not_exists, not_and] at hnever
  let n := max (E.state m).loop.now (E.state m).loop.tickDeadline
  obtain ⟨k, hk, hlate⟩ := frequently_atTop.mp (htime (n + 1)) m
  have hbound : (E.state k).loop.now ≤ n ∧ (E.state k).loop.tickDeadline ≤ n := by
    refine E.kept (I := fun a => a.loop.now ≤ n ∧ a.loop.tickDeadline ≤ n) ?_
      ⟨le_max_left _ _, le_max_right _ _⟩ hk
    intro i l hi hl hbound
    exact waits_timed (up_at hcfg hreach hup hsilent i).2.2
      (up_at hcfg hreach hup hsilent (i + 1)).2.2 (E.moves i l hl) (hsilent i l hl)
      (hnever i hi) (hnever _ (Nat.le_succ_of_le hi)) hbound
  exact absurd hlate (Nat.not_le.mpr (Nat.lt_succ_of_le hbound.1))

/-- If the heartbeat interval is below the idle timeout, a connection whose peer falls silent, at
any moment before its read loop has ended, is never given up: it ends up waiting for ever for room
for one Ping or Pong. -/
theorem silent_hangs (htime : ∀ n, ∃ᶠ k in atTop, n ≤ (E.state k).loop.now) :
    ∃ m pos msg, pos.enqueuing = some msg ∧ ∀ k, m ≤ k → (E.state k).conn.main = .reading pos := by
  obtain ⟨i, hi⟩ := enqueues_cease hcfg hreach hup hsilent
  obtain ⟨m, hm, pos, msg, hpos, hmsg⟩ := reaches_enqueue hcfg hreach hup hsilent htime i
  refine ⟨m, pos, msg, hmsg, fun k hk => E.kept (I := fun a => a.conn.main = .reading pos) ?_ hpos
    hk⟩
  intro j l hj hl hpos
  exact enqueuing_timed (up_at hcfg hreach hup hsilent j).2.2 (E.moves j l hl)
    (fun heq => hi j (hm.trans hj) (heq ▸ hl)) hpos hmsg

end

/-- Time passes, and the loop waits in its enqueue. -/
def TimedConn.waiting (a : TimedConn) {msg : Message} (hmain : a.conn.main = .reading a.loop.pos)
    (hmsg : a.loop.pos.enqueuing = some msg) (hfull : a.conn.chan.isFull = true) :
    Execution (timedConn cfg decode) where
  state k := { a with loop := { a.loop with now := a.loop.now + k } }
  label _ := some (.loop (.pass 1))
  moves k l hl := by
    obtain rfl := Option.some.inj hl
    exact .pass hmain (.blocked hmsg hfull)
  stays k hk := by cases hk

/-- With the default timers: the first Ping fills the queue, the peer sends a frame and falls
silent, and the second Ping waits. -/
theorem second_ping_waits : ∃ (ys xs : List TimedEvent) (a b : TimedConn),
    (timedConn .default fun _ => (none : Option Unit)).Run ⟨.start 1 0, .start .default⟩ ys a ∧
      (∃ l ∈ ys, ¬ l.Silent) ∧ a.conn.Up ∧
    (timedConn .default fun _ => (none : Option Unit)).Run a xs b ∧
      (∀ l ∈ xs, l.Silent) ∧ b.conn.main = .reading .sendPing ∧ b.loop.pos = .sendPing ∧
      b.conn.chan.isFull = true := by
  refine ⟨[.other .registered, .other .connected, .loop .tick, .loop .enqueued,
    .loop (.frame (.text "hello"))], [.loop (.pass (15 * second)), .loop .tick], _, _,
    .step (.other ?_ ?_ (.registered rfl)) <|
    .step (.connected (by decide) (.connected rfl)) <|
    .step (.loop rfl rfl (.tick rfl le_rfl) (.tick rfl)) <|
    .step (.loop rfl rfl (.enqueued rfl) (.enqueued rfl rfl rfl Nat.one_pos)) <|
    .single (.loop rfl rfl (.frame _ rfl) (.frame _ rfl)), ?_, ⟨trivial, rfl, rfl⟩,
    .step (.pass rfl (.pass rfl ?_ ?_)) <| .single (.loop rfl rfl (.tick rfl ?_) (.tick rfl)),
    ?_, rfl, rfl, rfl⟩
  · rintro (- | -) <;> simp [LoopEvent.inConn]
  · simp
  · exact ⟨.loop (.frame (.text "hello")), by simp, fun h => h _ rfl⟩
  · decide
  · decide
  · decide
  · simp [TimedEvent.Silent, TimedEvent.inConn, LoopEvent.inConn, ConnEvent.Silent]

theorem silent_hangs_default : ∃ (ys : List TimedEvent)
    (E : Execution (timedConn .default fun _ => (none : Option Unit))),
    (timedConn .default fun _ => (none : Option Unit)).Run ⟨.start 1 0, .start .default⟩ ys
      (E.state 0) ∧ (∃ l ∈ ys, ¬ l.Silent) ∧ ∃ m pos msg, pos.enqueuing = some msg ∧
      ∀ k, m ≤ k → (E.state k).conn.main = .reading pos := by
  obtain ⟨ys, xs, a, b, hbefore, hspoke, hup, hrun, hxs, hmain, hpos, hfull⟩ := second_ping_waits
  have hmsg : b.loop.pos.enqueuing = some (.ping []) := by rw [hpos, ReadPos.enqueuing]
  let F : Execution (timedConn .default fun _ => (none : Option Unit)) :=
    b.waiting (hmain.trans (congrArg _ hpos.symm)) hmsg hfull
  obtain ⟨E, h0, hstate, hlabel⟩ := F.exists_prepend hrun
  have hsilent : ∀ k l, E.label k = some l → l.Silent := by
    intro k l hl
    rw [hlabel, Option.or_eq_some_iff] at hl
    rcases hl with hl | ⟨-, hl⟩
    · exact hxs l (List.mem_of_getElem? hl)
    · obtain rfl := Option.some.inj hl
      rintro ev ⟨⟩
  have htime : ∀ n, ∃ᶠ k in atTop, n ≤ (E.state k).loop.now := by
    refine fun n => frequently_atTop.mpr fun k => ⟨xs.length + max n k, ?_, ?_⟩
    · exact (le_max_right n k).trans (Nat.le_add_left _ _)
    · rw [hstate]
      exact (le_max_left n k).trans (Nat.le_add_left _ _)
  subst h0
  exact ⟨ys, E, hbefore, hspoke, silent_hangs (by decide)
    ⟨_, ⟨start_fresh 1 0, rfl⟩, ys, hbefore⟩ hup hsilent htime⟩

end AxumSignal

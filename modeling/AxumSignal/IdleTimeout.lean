import AxumSignal.ReadLoop
import Mathlib.Tactic.Ring

/-! How long the read loop can wait without a frame. The idle timer belongs to one
`select!`, so every branch that wins restarts it, the heartbeat branch included. -/
namespace AxumSignal

open Transition

variable {Req : Type} {cfg : WsHubConfig} {decode : Message → Option Req} {full : Bool}
  {s t : TimedLoop} {e : LoopEvent}

/-- While the loop waits, its last frame is at most `idle_timeout` old; once it is that
old the loop can leave with `"idle timeout"`. -/
def IdleBound (cfg : WsHubConfig) (decode : Message → Option Req) (full : Bool)
    (s : TimedLoop) : Prop :=
  s.pos = .select → s.now ≤ s.lastFrame + cfg.idleTimeout ∧
    (s.now = s.lastFrame + cfg.idleTimeout →
      ∃ t, LoopStep cfg decode full s .idle t ∧ t.pos = .done .idleTimeout)

/-- Both timers count from the last frame, except for the immediate first tick. -/
structure CountedFromFrame (cfg : WsHubConfig) (s : TimedLoop) : Prop where
  idle : s.pos = .select →
    s.idleDeadline = s.lastFrame + cfg.idleTimeout ∧ s.now ≤ s.idleDeadline
  enqueue : ∀ msg, s.pos.enqueuing = some msg → s.now = s.lastFrame
  beat : s.tickDeadline = s.lastFrame + cfg.heartbeatInterval ∨
    (s.tickDeadline = s.lastFrame ∧ s.now = s.lastFrame)

theorem countedFromFrame_start : CountedFromFrame cfg (.start cfg) where
  idle _ := by simp [TimedLoop.start]
  enqueue _ h := by simp [TimedLoop.start, ReadPos.enqueuing] at h
  beat := Or.inr ⟨rfl, rfl⟩

/-- A frame restarts both timers, whatever `handle_frame` does with it. -/
theorem countedFromFrame_receive (action : FrameAction Req) (s : TimedLoop) :
    CountedFromFrame cfg (s.receive cfg action) where
  idle h := by
    rw [receive_pos] at h
    simp [receive_idleDeadline h]
  enqueue _ _ := by simp
  beat := Or.inl (by simp)

/-- With a heartbeat slower than the idle timeout and room in the queue, no step lets
the timers run on from anything but the last frame. -/
theorem countedFromFrame_step (hbeat : cfg.idleTimeout < cfg.heartbeatInterval)
    (hs : CountedFromFrame cfg s) (h : LoopStep cfg decode false s e t) :
    CountedFromFrame cfg t := by
  cases h with
  | pass hpos hidle htick =>
    obtain ⟨hi, hn⟩ := hs.idle hpos
    refine ⟨fun _ => ⟨hi, hidle⟩, fun msg hm => by simp [hpos, ReadPos.enqueuing] at hm, ?_⟩
    have := hs.beat
    simp only at htick ⊢
    omega
  | blocked _ hfull => simp at hfull
  | idle | streamClosed | readError | cancelled =>
    exact ⟨fun hp => by simp at hp, fun msg hm => by simp [ReadPos.enqueuing] at hm, hs.beat⟩
  | frame msg _ => exact countedFromFrame_receive _ _
  | tick hpos htick =>
    obtain ⟨hi, hn⟩ := hs.idle hpos
    have hb := hs.beat
    have hfirst : s.tickDeadline = s.lastFrame ∧ s.now = s.lastFrame := by omega
    refine ⟨fun hp => by simp [TimedLoop.tick] at hp, fun _ _ => hfirst.2, Or.inl ?_⟩
    simp [TimedLoop.tick, hfirst.1]
  | enqueued hpos =>
    have hn := hs.enqueue _ hpos
    refine ⟨fun _ => ⟨by simp [TimedLoop.enterSelect, hn], by simp [TimedLoop.enterSelect]⟩,
      fun msg hm => by simp [ReadPos.enqueuing] at hm, hs.beat⟩
  | rejected hpos =>
    exact ⟨fun hp => by simp at hp, fun msg hm => by simp [ReadPos.enqueuing] at hm, hs.beat⟩

theorem countedFromFrame_reachable (hbeat : cfg.idleTimeout < cfg.heartbeatInterval)
    (h : (timedLoop cfg decode false).Reachable (· = .start cfg) s) :
    CountedFromFrame cfg s := by
  refine h.invariant (fun u l w huw hu => countedFromFrame_step hbeat hu huw) ?_
  rintro _ rfl
  exact countedFromFrame_start

theorem CountedFromFrame.idleBound (hs : CountedFromFrame cfg s) :
    IdleBound cfg decode full s := by
  intro hpos
  obtain ⟨hi, hn⟩ := hs.idle hpos
  refine ⟨by omega, fun he => ⟨_, .idle hpos (by omega), rfl⟩⟩

/-- The loop after `k` heartbeat periods in which no frame came. -/
def TimedLoop.beaten (cfg : WsHubConfig) (k : Nat) : TimedLoop where
  pos := .select
  now := k * cfg.heartbeatInterval
  idleDeadline := k * cfg.heartbeatInterval + cfg.idleTimeout
  tickDeadline := (k + 1) * cfg.heartbeatInterval
  pingSentAt := some (k * cfg.heartbeatInterval)
  lastFrame := 0

/-- A heartbeat that is due before the idle timer restarts it, again and again. -/
theorem beaten_reachable (hbeat : cfg.heartbeatInterval ≤ cfg.idleTimeout) (k : Nat) :
    (timedLoop cfg decode full).Reachable (· = .start cfg) (.beaten cfg k) := by
  induction k with
  | zero =>
    refine ⟨_, rfl, [.tick, .enqueued], .step (.tick rfl le_rfl) (.step ?_ .refl)⟩
    have h : ((TimedLoop.start cfg).tick cfg).enterSelect cfg = .beaten cfg 0 := by
      simp [TimedLoop.start, TimedLoop.tick, TimedLoop.enterSelect, TimedLoop.beaten]
    exact h ▸ .enqueued rfl
  | succ k ih =>
    let late : TimedLoop := { TimedLoop.beaten cfg k with
      now := k * cfg.heartbeatInterval + cfg.heartbeatInterval }
    have hpass : LoopStep cfg decode full (.beaten cfg k) (.pass cfg.heartbeatInterval) late := by
      refine .pass rfl ?_ ?_ <;> simp only [TimedLoop.beaten]
      · omega
      · exact le_of_eq (by ring)
    have htick : LoopStep cfg decode full late .tick (late.tick cfg) :=
      .tick rfl (le_of_eq (by simp only [late, TimedLoop.beaten]; ring))
    have henter : LoopStep cfg decode full (late.tick cfg) .enqueued
        ((late.tick cfg).enterSelect cfg) := .enqueued rfl
    have hnext : (late.tick cfg).enterSelect cfg = .beaten cfg (k + 1) := by
      simp only [late, TimedLoop.beaten, TimedLoop.tick, TimedLoop.enterSelect,
        TimedLoop.mk.injEq, Option.some.injEq, true_and, and_true]
      refine ⟨by ring, by ring, by ring, by ring⟩
    rw [← hnext]
    exact ih.extend (.step hpass (.step htick (.single henter)))

/-- The loop after its first Ping waited `d` for room in the queue. -/
theorem delayed_reachable (cfg : WsHubConfig) (decode : Message → Option Req) (d : Nat) : ∃ s,
    (timedLoop cfg decode true).Reachable (· = .start cfg) s ∧
      s.pos = .select ∧ s.now = d ∧ s.lastFrame = 0 := by
  refine ⟨_, ⟨_, rfl, [.tick, .pass d, .enqueued], .step (.tick rfl le_rfl)
    (.step (.blocked rfl rfl) (.single (.enqueued rfl)))⟩, rfl, ?_, rfl⟩
  simp [TimedLoop.enterSelect, TimedLoop.tick, TimedLoop.start]

/-- The idle bound holds in every run exactly when the idle timer always fires before
the next heartbeat and no Ping or Pong ever waits for room in the queue. -/
theorem idleBound_iff (cfg : WsHubConfig) (hbeat : 0 < cfg.heartbeatInterval)
    (decode : Message → Option Req) (full : Bool) :
    (∀ s, (timedLoop cfg decode full).Reachable (· = .start cfg) s →
      IdleBound cfg decode full s) ↔
    cfg.idleTimeout < cfg.heartbeatInterval ∧ full = false := by
  constructor
  · intro h
    constructor
    · by_contra hslow
      have hk := (h _ (beaten_reachable (by omega) (cfg.idleTimeout + 1)) rfl).1
      have hgrow : cfg.idleTimeout + 1 ≤ (cfg.idleTimeout + 1) * cfg.heartbeatInterval :=
        Nat.le_mul_of_pos_right _ hbeat
      simp only [TimedLoop.beaten] at hk
      omega
    · cases full with
      | false => rfl
      | true =>
        obtain ⟨s, hr, hpos, hnow, hlast⟩ :=
          delayed_reachable cfg decode (cfg.idleTimeout + 1)
        have := (h s hr hpos).1
        omega
  · rintro ⟨hslow, rfl⟩ s hr
    exact (countedFromFrame_reachable hslow hr).idleBound

/-- A 10 s idle timeout under the default 15 s heartbeat. -/
def WsHubConfig.shortIdle : WsHubConfig :=
  { WsHubConfig.default with idleTimeout := 10 * second }

theorem idleBound_shortIdle : WsHubConfig.shortIdle.heartbeatInterval = 15 * second ∧
    ∀ s, (timedLoop WsHubConfig.shortIdle (fun _ => (none : Option Unit)) false).Reachable
      (· = .start .shortIdle) s → IdleBound .shortIdle (fun _ => (none : Option Unit)) false s :=
  ⟨rfl, (idleBound_iff .shortIdle (by decide) _ false).mpr ⟨by decide, rfl⟩⟩

/-- Under the default configuration a silent connection outlives the idle timeout: after
five heartbeats, 75 s without a frame, the loop is still waiting. -/
theorem idleBound_default_fails :
    ∃ s, (timedLoop WsHubConfig.default (fun _ => (none : Option Unit)) false).Reachable
        (· = .start WsHubConfig.default) s ∧
      s.pos = .select ∧ s.lastFrame = 0 ∧ s.now = 75 * second ∧
      ¬ IdleBound WsHubConfig.default (fun _ => (none : Option Unit)) false s := by
  refine ⟨.beaten WsHubConfig.default 5, beaten_reachable (by decide) 5, rfl, rfl,
    by decide, ?_⟩
  intro h
  exact absurd (h rfl).1 (by decide)

end AxumSignal

import AxumSignal.IdleTimeout
import AxumSignal.RoundTrip

/-! Bounds between the two timers of the read loop, its Pings and its RTT samples. -/
namespace AxumSignal

open Transition LTS

variable {Req : Type} {cfg : WsHubConfig} {decode : Message → Option Req} {full : Bool}
  {s t : TimedLoop} {e : LoopEvent} {xs ys : List LoopEvent} {n : Nat}

/-- In the `select!` the next tick is due at most one heartbeat interval after the `select!`
began, and the loop has not waited beyond it. -/
structure Raced (cfg : WsHubConfig) (s : TimedLoop) : Prop where
  ticking : Ticking cfg s
  armed : s.pos = .select → s.tickDeadline + cfg.idleTimeout ≤ s.idleDeadline +
    cfg.heartbeatInterval
  waited : s.pos = .select → s.now ≤ s.tickDeadline ∨ s.now + cfg.idleTimeout = s.idleDeadline
  lost : s.pos = .done .idleTimeout → cfg.idleTimeout ≤ cfg.heartbeatInterval

theorem raced_start : Raced cfg (.start cfg) where
  ticking := Nat.zero_le _
  armed _ := by simp only [TimedLoop.start]; omega
  waited _ := Or.inl le_rfl
  lost h := by simp [TimedLoop.start] at h

theorem raced_enterSelect (h : Ticking cfg s) : Raced cfg (s.enterSelect cfg) where
  ticking := h
  armed _ := by
    unfold Ticking at h
    simp only [TimedLoop.enterSelect]
    omega
  waited _ := Or.inr rfl
  lost hpos := by simp at hpos

/-- No frame makes the loop leave with the reason of the idle timer. -/
theorem handleFrame_not_idle (decode : Message → Option Req) (msg : Message) :
    (handleFrame decode msg).pos ≠ .done .idleTimeout := by
  cases msg with
  | text | binary =>
    simp only [handleFrame]
    split <;> simp [FrameAction.pos]
  | ping | pong | close => simp [handleFrame, FrameAction.pos]

theorem raced_receive (decode : Message → Option Req) (msg : Message) (s : TimedLoop) :
    Raced cfg (s.receive cfg (handleFrame decode msg)) where
  ticking := by simp [Ticking]
  armed hpos := by
    rw [receive_pos] at hpos
    rw [receive_idleDeadline hpos, receive_tickDeadline]
    omega
  waited _ := Or.inl (by simp)
  lost hpos := by
    rw [receive_pos] at hpos
    exact (handleFrame_not_idle decode msg hpos).elim

theorem raced_step (hs : Raced cfg s) (h : LoopStep cfg decode full s e t) : Raced cfg t := by
  have hticking := ticking_step hs.ticking h
  cases h with
  | pass hpos _ htick =>
    exact ⟨hticking, hs.armed, fun _ => Or.inl htick, fun hend => by simp [hpos] at hend⟩
  | idle hpos hidle =>
    refine ⟨hticking, fun hsel => by simp at hsel, fun hsel => by simp at hsel, fun _ => ?_⟩
    have harmed := hs.armed hpos
    have hwaited := hs.waited hpos
    omega
  | frame msg hpos => exact raced_receive decode msg s
  | enqueued hpos => exact raced_enterSelect hs.ticking
  | blocked hpos _ =>
    have hsel : s.pos ≠ .select := by
      intro hsel
      simp [hsel, ReadPos.enqueuing] at hpos
    exact ⟨hticking, fun h => (hsel h).elim, fun h => (hsel h).elim, hs.lost⟩
  | tick | streamClosed | readError | cancelled =>
    exact ⟨hticking, fun h => by simp [TimedLoop.tick] at h, fun h => by simp [TimedLoop.tick] at h,
      fun h => by simp [TimedLoop.tick] at h⟩
  | rejected hpos =>
    refine ⟨hticking, fun h => by simp at h, fun h => by simp at h, fun h => ?_⟩
    cases hp : s.pos <;> simp [hp, ReadPos.sendError] at h

theorem raced_reachable (h : (timedLoop cfg decode full).Reachable (· = .start cfg) s) :
    Raced cfg s := by
  refine h.invariant (fun _ _ _ hstep hu => raced_step hu hstep) ?_
  rintro _ rfl
  exact raced_start

/-- The entry of the loop, which `interval(..)` does not survive on a zero period. -/
def TimedLoop.Entered (cfg : WsHubConfig) (s : TimedLoop) : Prop :=
  0 < cfg.heartbeatInterval ∧ s = .start cfg

/-- The loop can leave with `"idle timeout"` exactly if it is entered and the idle timeout is at
most the heartbeat interval. -/
theorem idle_reachable_iff (cfg : WsHubConfig) (decode : Message → Option Req) (full : Bool) :
    (∃ s, (timedLoop cfg decode full).Reachable (TimedLoop.Entered cfg) s ∧
      s.pos = .done .idleTimeout) ↔
      0 < cfg.heartbeatInterval ∧ cfg.idleTimeout ≤ cfg.heartbeatInterval := by
  constructor
  · rintro ⟨s, ⟨s₀, ⟨hbeat, rfl⟩, hrun⟩, hpos⟩
    exact ⟨hbeat, (raced_reachable ⟨_, rfl, hrun⟩).lost hpos⟩
  · rintro ⟨hbeat, hle⟩
    refine ⟨_, ⟨_, ⟨hbeat, rfl⟩, [.tick, .enqueued, .pass cfg.idleTimeout, .idle],
      .step (.tick rfl le_rfl) <| .step (.enqueued rfl) <| .step (.pass rfl ?_ ?_) <|
      .single (.idle rfl ?_)⟩, rfl⟩
    · exact le_rfl
    · simpa [TimedLoop.enterSelect, TimedLoop.tick, TimedLoop.start] using hle
    · exact le_rfl

/-- Each Ping has moved the next tick by one interval. -/
def Paced (cfg : WsHubConfig) (xs : List LoopEvent) (s : TimedLoop) : Prop :=
  s.now = (observe xs).now ∧ Ticking cfg s ∧
    (observe xs).pings.length * cfg.heartbeatInterval ≤ s.tickDeadline

theorem note_pings {o : Observed} (he : e ≠ .tick) : (o.note e).pings = o.pings := by
  cases e with
  | tick => exact (he rfl).elim
  | frame msg => cases msg <;> rfl
  | _ => rfl

theorem paced_step (hs : Paced cfg xs s) (h : LoopStep cfg decode full s e t) :
    Paced cfg (xs ++ [e]) t := by
  obtain ⟨hnow, hticking, hpings⟩ := hs
  have hclock : t.now = 0 + ((observe xs).note e).now := loopStep_now h _ (by simpa using hnow)
  refine ⟨by simpa using hclock, ticking_step hticking h, ?_⟩
  rw [observe_snoc]
  cases h with
  | tick =>
    simp only [Observed.note, TimedLoop.tick, List.length_append, List.length_singleton,
      Nat.add_mul, Nat.one_mul]
    omega
  | frame msg hpos =>
    unfold Ticking at hticking
    rw [note_pings (by simp), receive_tickDeadline]
    omega
  | _ => exact hpings

/-- The loop never sends more than one Ping for each heartbeat interval that has begun,
however long it was blocked and however many frames came. -/
theorem pings_bounded (h : (timedLoop cfg decode full).Run (.start cfg) xs s) :
    (observe xs).pings.length * cfg.heartbeatInterval ≤ s.now + cfg.heartbeatInterval := by
  have hstart : Paced cfg [] (.start cfg) := ⟨rfl, Nat.zero_le _, by simp [observe]⟩
  obtain ⟨-, hticking, hpings⟩ := h.history (H := fun ys u => Paced cfg ys u) hstart
    fun ys u l w hstep hu => paced_step hu hstep
  exact hpings.trans hticking

/-- Two Pings, one interval apart. -/
theorem pings_bounded_twice : ∃ xs s, (observe xs).pings = [0, 15 * second] ∧
    s.now = 15 * second ∧ (timedLoop .default (fun _ => (none : Option Unit)) false).Run
      (.start .default) xs s ∧
    (observe xs).pings.length * WsHubConfig.default.heartbeatInterval ≤
      s.now + WsHubConfig.default.heartbeatInterval := by
  have hrun : (timedLoop .default (fun _ => (none : Option Unit)) false).Run (.start .default)
      [.tick, .enqueued, .pass (15 * second), .tick] _ :=
    .step (.tick rfl le_rfl) <| .step (.enqueued rfl) <|
    .step (.pass rfl (by decide) (by decide)) <| .single (.tick rfl (by decide))
  exact ⟨_, _, by decide, by decide, hrun, pings_bounded hrun⟩

/-- The step records an RTT: a Pong arrives while `ping_sent_at` is set. -/
def Samples (s : TimedLoop) (e : LoopEvent) (_ : TimedLoop) : Prop :=
  (∃ data, e = .frame (.pong data)) ∧ ∃ rtt, s.sample = some rtt

/-- What is sampled, and the Ping that may still be, were all sent. -/
def Accounted (n : Nat) (xs : List LoopEvent) (s : TimedLoop) : Prop :=
  Clocked (observe xs) s ∧ n + (observe xs).asked.toNat ≤ (observe xs).pings.length

theorem accounted_counts (hs : Accounted n xs s) (h : LoopStep cfg decode full s e t)
    (hp : Samples s e t) : Accounted (n + 1) (xs ++ [e]) t := by
  obtain ⟨hclocked, hle⟩ := hs
  obtain ⟨⟨data, rfl⟩, rtt, hrtt⟩ := hp
  have hasked : (observe xs).asked = true := by
    by_contra hno
    simp [TimedLoop.sample, hclocked.answered (Bool.eq_false_iff.mpr hno)] at hrtt
  refine ⟨observe_snoc xs _ ▸ clocked_step hclocked h, ?_⟩
  rw [hasked] at hle
  simpa [Observed.note] using hle

theorem accounted_skips (hs : Accounted n xs s) (h : LoopStep cfg decode full s e t) :
    Accounted n (xs ++ [e]) t := by
  obtain ⟨hclocked, hle⟩ := hs
  refine ⟨observe_snoc xs _ ▸ clocked_step hclocked h, ?_⟩
  rw [observe_snoc]
  cases e with
  | tick =>
    simp only [Observed.note, List.length_append, List.length_singleton, Bool.toNat_true]
    omega
  | frame msg =>
    cases msg with
    | pong data =>
      simp only [Observed.note, Bool.toNat_false]
      omega
    | _ => exact hle
  | _ => exact hle

/-- The loop records at most one RTT for each Ping, and each is the time since its last
Ping. -/
theorem samples_of_pings (h : (timedLoop cfg decode full).Tally Samples (.start cfg) xs s n) :
    n ≤ (observe xs).pings.length ∧
      AtPongs (fun ys => ∀ u, (timedLoop cfg decode full).Run (.start cfg) ys u →
        ∀ rtt, u.sample = some rtt → ∃ last ∈ (observe ys).pings,
          (∀ ping ∈ (observe ys).pings, ping ≤ last) ∧ last + rtt = u.now) xs := by
  constructor
  · obtain ⟨-, hle⟩ := h.history (H := Accounted) ⟨clocked_start, Nat.zero_le _⟩
      (fun _ _ _ _ _ hstep hp hs => accounted_counts hs hstep hp)
      fun _ _ _ _ _ hstep _ hs => accounted_skips hs hstep
    exact Nat.le_of_add_right_le hle
  · rintro ys data zs - u hrun rtt hrtt
    have hu := clocked_run hrun
    cases hasked : (observe ys).asked with
    | false => simp [TimedLoop.sample, hu.answered hasked] at hrtt
    | true =>
      obtain ⟨last, hlast, hat, hmax⟩ := hu.asked hasked
      have hrtt' : u.now - last = rtt := by simpa [TimedLoop.sample, hat] using hrtt
      have hpast := hu.past last hlast
      have hclock := hu.clock
      exact ⟨last, hlast, hmax, by omega⟩

/-- One Ping and two Pongs, of which the second finds nothing to measure. -/
theorem samples_unsolicited : ∃ xs s,
    (timedLoop .default (fun _ => (none : Option Unit)) false).Tally Samples (.start .default)
      xs s 1 ∧ (observe xs).pongs = 2 ∧ 1 ≤ (observe xs).pings.length ∧
    AtPongs (fun ys => ∀ u, (timedLoop .default (fun _ => (none : Option Unit)) false).Run
      (.start .default) ys u → ∀ rtt, u.sample = some rtt → ∃ last ∈ (observe ys).pings,
        (∀ ping ∈ (observe ys).pings, ping ≤ last) ∧ last + rtt = u.now) xs := by
  have htally : (timedLoop .default (fun _ => (none : Option Unit)) false).Tally Samples
      (.start .default) [.tick, .enqueued, .frame (.pong []), .frame (.pong [])] _ 1 :=
    .skips (.tick rfl le_rfl) (by simp [Samples]) <|
    .skips (.enqueued rfl) (by simp [Samples]) <|
    .counts (.frame _ rfl) ⟨⟨[], rfl⟩, 0, rfl⟩ <|
    .skips (.frame _ rfl) (fun hp => by
      obtain ⟨rtt, hrtt⟩ := hp.2
      simp [TimedLoop.sample, TimedLoop.receive, handleFrame, TimedLoop.enterSelect] at hrtt) .refl
  exact ⟨_, _, htally, rfl, samples_of_pings htally⟩

end AxumSignal

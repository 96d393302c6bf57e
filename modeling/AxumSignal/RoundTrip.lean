import AxumSignal.Heartbeat

/-! The RTT samples of the read loop against the round trips they stand for. The loop keeps
the send time of its last Ping only, and every Pong consumes it. -/
namespace AxumSignal

open Transition

variable {Req : Type} {cfg : WsHubConfig} {decode : Message → Option Req} {full : Bool}
  {s t u : TimedLoop} {e : LoopEvent} {xs ys zs : List LoopEvent}

/-- The RTT that `handle_frame` passes to `update_rtt` when a Pong arrives. -/
def TimedLoop.sample (s : TimedLoop) : Option Nat := s.pingSentAt.map (s.now - ·)

/-- When the Ping was sent that the next Pong answers, if the client answers in order. -/
def Observed.answers (o : Observed) : Option Nat := o.pings[o.pongs]?

/-- `Q` holds of the labels before every Pong. -/
def AtPongs (Q : List LoopEvent → Prop) (xs : List LoopEvent) : Prop :=
  ∀ ys data zs, xs = ys ++ .frame (.pong data) :: zs → Q ys

/-- The client sends one Pong for each Ping, in order, and no other Pong. -/
def Answering (xs : List LoopEvent) : Prop :=
  AtPongs (fun ys => ∃ sent, (observe ys).answers = some sent) xs

/-- Every sample of the run is the time since the Ping that its Pong answers. -/
def SamplesExact (cfg : WsHubConfig) (decode : Message → Option Req) (full : Bool)
    (xs : List LoopEvent) : Prop :=
  AtPongs (fun ys => ∀ u, (timedLoop cfg decode full).Run (.start cfg) ys u →
    ∀ rtt, u.sample = some rtt →
      ∃ sent, (observe ys).answers = some sent ∧ rtt = u.now - sent) xs

/-- When a Pong arrives, no Ping was sent later than the one it answers, unless none was
sent since the Pong before. -/
def Timely (xs : List LoopEvent) : Prop :=
  AtPongs (fun ys => (observe ys).asked = true → ∀ sent, (observe ys).answers = some sent →
    ∀ ping ∈ (observe ys).pings, ping ≤ sent) xs

/-- `ping_sent_at` is the time of the last Ping until a Pong consumes it. -/
structure Clocked (o : Observed) (s : TimedLoop) : Prop where
  clock : s.now = o.now
  past : ∀ ping ∈ o.pings, ping ≤ o.now
  asked : o.asked = true →
    ∃ last ∈ o.pings, s.pingSentAt = some last ∧ ∀ ping ∈ o.pings, ping ≤ last
  answered : o.asked = false → s.pingSentAt = none

theorem clocked_start : Clocked (observe []) (.start cfg) where
  clock := rfl
  past _ h := by simp [observe] at h
  asked h := by simp [observe] at h
  answered _ := rfl

/-- Everything but a tick, a Pong and the passing of time leaves the samples alone. -/
theorem Clocked.keep {o o' : Observed} (hs : Clocked o s) (hnow : t.now = s.now)
    (hsent : t.pingSentAt = s.pingSentAt) (ho : o'.now = o.now) (hpings : o'.pings = o.pings)
    (hasked : o'.asked = o.asked) : Clocked o' t := by
  obtain ⟨hclock, hpast, hask, hanswered⟩ := hs
  constructor
  · rw [hnow, ho, hclock]
  · rw [hpings, ho]
    exact hpast
  · rw [hasked, hsent, hpings]
    exact hask
  · rw [hasked, hsent]
    exact hanswered

theorem clocked_step {o : Observed} (hs : Clocked o s) (h : LoopStep cfg decode full s e t) :
    Clocked (o.note e) t := by
  cases h with
  | pass | blocked =>
    refine ⟨?_, ?_, hs.asked, hs.answered⟩
    · simp only [Observed.note, hs.clock]
    · intro ping hping
      exact Nat.le_add_right_of_le (hs.past ping hping)
  | frame msg hpos =>
    cases msg with
    | pong data =>
      refine ⟨hs.clock, hs.past, ?_, fun _ => rfl⟩
      intro hno
      simp [Observed.note] at hno
    | text | binary =>
      simp only [handleFrame]
      split <;> exact hs.keep rfl rfl rfl rfl rfl
    | ping | close => exact hs.keep rfl rfl rfl rfl rfl
  | tick hpos hdue =>
    have hlast : ∀ ping ∈ o.pings ++ [o.now], ping ≤ o.now := by
      intro ping hping
      rcases List.mem_append.mp hping with hping | hping
      · exact hs.past ping hping
      · exact (List.mem_singleton.mp hping).le
    refine ⟨hs.clock, hlast, ?_, ?_⟩
    · intro _
      exact ⟨o.now, by simp [Observed.note], by simp [TimedLoop.tick, hs.clock], hlast⟩
    · intro hno
      simp [Observed.note] at hno
  | idle | streamClosed | readError | cancelled | enqueued | rejected =>
    exact hs.keep rfl rfl rfl rfl rfl

theorem clocked_run (h : (timedLoop cfg decode full).Run (.start cfg) xs s) :
    Clocked (observe xs) s := by
  refine h.history (H := fun ys u => Clocked (observe ys) u) clocked_start ?_
  intro ys _ e _ hstep hu
  rw [observe_snoc]
  exact clocked_step hu hstep

theorem answers_mem {o : Observed} {sent : Nat} (h : o.answers = some sent) : sent ∈ o.pings :=
  List.mem_of_getElem? h

/-- Every sample of a run is the round trip of the Ping that its Pong answers, exactly if no
such Ping is overtaken by a later one. -/
theorem samplesExact_iff (h : (timedLoop cfg decode full).Run (.start cfg) xs s)
    (ha : Answering xs) : SamplesExact cfg decode full xs ↔ Timely xs := by
  constructor
  · intro hexact ys data zs hxs hasked sent hsent ping hping
    rw [hxs] at h
    obtain ⟨u, hys, _⟩ := h.split
    have hu := clocked_run hys
    obtain ⟨last, hlast, hat, hmax⟩ := hu.asked hasked
    obtain ⟨sent', hsent', hrtt⟩ := hexact ys data zs hxs u hys (u.now - last)
      (by simp [TimedLoop.sample, hat])
    obtain rfl : sent = sent' := Option.some.inj (hsent.symm.trans hsent')
    have hclock := hu.clock
    have hpast := hu.past last hlast
    have hle := hmax ping hping
    have := hu.past sent (answers_mem hsent)
    omega
  · intro htimely ys data zs hxs u hys rtt hrtt
    obtain ⟨sent, hsent⟩ := ha ys data zs hxs
    have hu := clocked_run hys
    cases hasked : (observe ys).asked with
    | false => simp [TimedLoop.sample, hu.answered hasked] at hrtt
    | true =>
      obtain ⟨last, hlast, hat, hmax⟩ := hu.asked hasked
      have hle := htimely ys data zs hxs hasked sent hsent last hlast
      have hge := hmax sent (answers_mem hsent)
      have hrtt' : u.now - last = rtt := by simpa [TimedLoop.sample, hat] using hrtt
      exact ⟨sent, hsent, by omega⟩

/-- Only the last label is a Pong. -/
theorem atPongs_last {Q : List LoopEvent → Prop} {data : List UInt8}
    (hno : ∀ data, LoopEvent.frame (.pong data) ∉ xs) (hq : Q xs) :
    AtPongs Q (xs ++ [.frame (.pong data)]) := by
  intro ys data' zs hxs
  induction zs using List.reverseRecOn with
  | nil =>
    obtain ⟨rfl, _⟩ := List.append_inj' hxs rfl
    exact hq
  | append_singleton zs e _ =>
    rw [← List.cons_append, ← List.append_assoc] at hxs
    obtain ⟨rfl, _⟩ := List.append_inj' hxs rfl
    exact (hno data' (by simp)).elim

/-- A Ping answered within one second. -/
theorem samplesExact_prompt : ∃ s, (timedLoop .default (fun _ => (none : Option Unit)) false).Run
      (.start .default) [.tick, .enqueued, .pass second] s ∧ s.sample = some second ∧
    SamplesExact .default (fun _ => (none : Option Unit)) false
      ([.tick, .enqueued, .pass second] ++ [.frame (.pong [])]) := by
  have hrun : (timedLoop .default (fun _ => (none : Option Unit)) false).Run (.start .default)
      [.tick, .enqueued, .pass second] _ :=
    .step (.tick rfl le_rfl) <| .step (.enqueued rfl) <| .single (.pass rfl (by decide) (by decide))
  refine ⟨_, hrun, rfl, (samplesExact_iff (hrun.snoc (.frame (.pong []) rfl)) ?_).mpr ?_⟩
  · exact atPongs_last (by simp) ⟨0, rfl⟩
  · refine atPongs_last (by simp) fun _ sent hsent ping hping => ?_
    obtain rfl : 0 = sent := Option.some.inj hsent
    exact (List.mem_singleton.mp hping).le

/-- Under the default configuration a client that answers its first Ping after 20 s is
recorded with 5 s, the time since the second one. -/
theorem slow_pong_not_exact : ∃ xs s, (timedLoop .default (fun _ => (none : Option Unit)) false).Run
      (.start .default) xs s ∧ (observe xs).answers = some 0 ∧ s.now = 20 * second ∧
      s.sample = some (5 * second) ∧ Answering (xs ++ [.frame (.pong [])]) ∧
      ¬ SamplesExact .default (fun _ => (none : Option Unit)) false
        (xs ++ [.frame (.pong [])]) := by
  have hrun : (timedLoop .default (fun _ => (none : Option Unit)) false).Run (.start .default)
      [.tick, .enqueued, .pass (15 * second), .tick, .enqueued, .pass (5 * second)] _ :=
    .step (.tick rfl le_rfl) <| .step (.enqueued rfl) <|
    .step (.pass rfl (by decide) (by decide)) <|
    .step (.tick rfl (by decide)) <| .step (.enqueued rfl) <|
    .single (.pass rfl (by decide) (by decide))
  refine ⟨_, _, hrun, rfl, by decide, by decide, atPongs_last (by simp) ⟨0, rfl⟩, fun hexact => ?_⟩
  obtain ⟨sent, hsent, hrtt⟩ := hexact _ [] [] rfl _ hrun (5 * second) (by decide)
  obtain rfl : 0 = sent := Option.some.inj hsent
  exact absurd hrtt (by decide)

end AxumSignal

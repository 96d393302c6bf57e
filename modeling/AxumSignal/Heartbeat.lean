import AxumSignal.ReadLoop

/-! What an observer of the timed read loop sees of its Pings and Pongs, and how long the
loop can run without a Ping. Every frame resets the interval that sends them. -/
namespace AxumSignal

open Transition

variable {Req : Type} {cfg : WsHubConfig} {decode : Message → Option Req} {full : Bool}
  {s t u w : TimedLoop} {e : LoopEvent} {xs ys zs : List LoopEvent} {base : Nat}

/-- How long the loop was observed; the tick of each Ping, at which `ping_sent_at` is set and from
which its RTT counts; when the last Ping was enqueued, which is when it is sent as far as the
cadence goes; when the last frame came (at first both are the beginning); whether a Ping is being
enqueued; how many Pongs have come; and whether there was a tick after the last of them. -/
structure Observed where
  now : Nat
  pings : List Nat
  lastPing : Nat
  lastFrame : Nat
  pinging : Bool
  pongs : Nat
  asked : Bool

def Observed.note (o : Observed) : LoopEvent → Observed
  | .pass d => { o with now := o.now + d }
  | .tick => { o with pings := o.pings ++ [o.now], pinging := true, asked := true }
  | .enqueued => { o with pinging := false, lastPing := if o.pinging then o.now else o.lastPing }
  | .frame (.pong _) => { o with lastFrame := o.now, pongs := o.pongs + 1, asked := false }
  | .frame _ => { o with lastFrame := o.now }
  | _ => o

/-- What the labels of a run show. -/
def observe (xs : List LoopEvent) : Observed :=
  xs.foldl Observed.note ⟨0, [], 0, 0, false, 0, false⟩

/-- The later of the last enqueue of a Ping and the last frame. -/
def Observed.recent (o : Observed) : Nat := max o.lastPing o.lastFrame

@[simp] theorem observe_snoc (xs : List LoopEvent) (e : LoopEvent) :
    observe (xs ++ [e]) = (observe xs).note e := by
  simp [observe, List.foldl_append]

@[simp] theorem note_frame_now (o : Observed) (msg : Message) :
    (o.note (.frame msg)).now = o.now := by cases msg <;> rfl

@[simp] theorem note_frame_lastPing (o : Observed) (msg : Message) :
    (o.note (.frame msg)).lastPing = o.lastPing := by cases msg <;> rfl

@[simp] theorem note_frame_lastFrame (o : Observed) (msg : Message) :
    (o.note (.frame msg)).lastFrame = o.now := by cases msg <;> rfl

@[simp] theorem note_frame_pinging (o : Observed) (msg : Message) :
    (o.note (.frame msg)).pinging = o.pinging := by cases msg <;> rfl

theorem note_now_le (o : Observed) (e : LoopEvent) : o.now ≤ (o.note e).now := by
  cases e with
  | pass d => exact Nat.le_add_right _ _
  | frame msg => exact (note_frame_now o msg).ge
  | _ => exact le_rfl

theorem observe_now_le (h : ys <+: xs) : (observe ys).now ≤ (observe xs).now := by
  obtain ⟨zs, rfl⟩ := h
  induction zs using List.reverseRecOn with
  | nil => simp
  | append_singleton zs e ih =>
    rw [← List.append_assoc, observe_snoc]
    exact ih.trans (note_now_le _ _)

/-- The last Ping and the last frame lie in the past. -/
theorem observe_recent_le (xs : List LoopEvent) : (observe xs).recent ≤ (observe xs).now := by
  induction xs using List.reverseRecOn with
  | nil => exact le_rfl
  | append_singleton xs e ih =>
    simp only [Observed.recent, sup_le_iff, observe_snoc] at ih ⊢
    obtain ⟨hping, hframe⟩ := ih
    cases e with
    | pass d => exact ⟨Nat.le_add_right_of_le hping, Nat.le_add_right_of_le hframe⟩
    | frame msg => simpa using hping
    | enqueued =>
      refine ⟨?_, hframe⟩
      simp only [Observed.note]
      split
      · exact le_rfl
      · exact hping
    | _ => exact ⟨hping, hframe⟩

/-- A last frame later than the last Ping is one of the labels. -/
theorem frame_after_ping (h : (observe xs).lastPing < (observe xs).lastFrame) :
    ∃ ys msg zs, xs = ys ++ .frame msg :: zs ∧ (observe ys).now = (observe xs).lastFrame ∧
      (observe ys).lastPing = (observe xs).lastPing := by
  induction xs using List.reverseRecOn with
  | nil => simp [observe] at h
  | append_singleton xs e ih =>
    have hkeep : ∀ {o : Observed}, o.lastPing = (observe xs).lastPing →
        o.lastFrame = (observe xs).lastFrame → o.lastPing < o.lastFrame →
        ∃ ys msg zs, xs ++ [e] = ys ++ .frame msg :: zs ∧ (observe ys).now = o.lastFrame ∧
          (observe ys).lastPing = o.lastPing := by
      intro o hping hframe hlt
      rw [hping, hframe] at hlt
      obtain ⟨ys, msg, zs, hxs, hy, hp⟩ := ih hlt
      exact ⟨ys, msg, zs ++ [e], by simp [hxs], hy.trans hframe.symm, hp.trans hping.symm⟩
    rw [observe_snoc] at h ⊢
    cases e with
    | frame msg => exact ⟨xs, msg, [], rfl, by simp, by simp⟩
    | enqueued =>
      have hpast := observe_recent_le xs
      simp only [Observed.recent, sup_le_iff] at hpast
      cases hp : (observe xs).pinging with
      | true =>
        simp only [Observed.note, hp, if_true] at h
        omega
      | false =>
        exact hkeep (by simp [Observed.note, hp]) rfl h
    | _ => exact hkeep rfl rfl h

/-- The observer's clock is the clock of the loop. -/
theorem loopStep_now (h : LoopStep cfg decode full s e t) (o : Observed)
    (hs : s.now = base + o.now) : t.now = base + (o.note e).now := by
  cases h with
  | pass | blocked => simp only [Observed.note]; omega
  | frame msg _ => simpa using hs
  | _ => exact hs

/-- The next tick is at most one interval away. -/
def Ticking (cfg : WsHubConfig) (s : TimedLoop) : Prop :=
  s.tickDeadline ≤ s.now + cfg.heartbeatInterval

theorem ticking_step (hs : Ticking cfg s) (h : LoopStep cfg decode full s e t) :
    Ticking cfg t := by
  unfold Ticking at *
  cases h with
  | pass | blocked => simp only; omega
  | frame msg _ => simp
  | tick _ htick => simp only [TimedLoop.tick]; omega
  | _ => exact hs

theorem ticking_reachable (h : (timedLoop cfg decode full).Reachable (· = .start cfg) s) :
    Ticking cfg s := by
  refine h.invariant (fun _ _ _ hstep hu => ticking_step hu hstep) ?_
  rintro _ rfl
  exact Nat.zero_le _

/-- At no moment of the stretch is the last Ping, or its beginning, more than one heartbeat
interval ago. -/
def Cadence (cfg : WsHubConfig) (xs : List LoopEvent) : Prop :=
  ∀ ys, ys <+: xs → (observe ys).now ≤ (observe ys).lastPing + cfg.heartbeatInterval

/-- Every frame comes at the moment of the last Ping, or else so late that the whole stretch
is over within one interval of that Ping. -/
def Undisturbed (cfg : WsHubConfig) (xs : List LoopEvent) : Prop :=
  ∀ ys msg zs, xs = ys ++ .frame msg :: zs → (observe ys).now = (observe ys).lastPing ∨
    (observe xs).now ≤ (observe ys).lastPing + cfg.heartbeatInterval

/-- While the queue has room, the interval counts from the last Ping or the last frame.
`base` is the time at which the observation began. -/
structure Beating (cfg : WsHubConfig) (base : Nat) (xs : List LoopEvent) (s : TimedLoop) :
    Prop where
  clock : s.now = base + (observe xs).now
  ticking : Ticking cfg s
  waiting : s.pos = .select →
    s.tickDeadline ≤ base + (observe xs).recent + cfg.heartbeatInterval
  enqueuing : ∀ msg, s.pos.enqueuing = some msg →
    (observe xs).pinging = true ∨ (observe xs).now = (observe xs).recent
  idle : s.pos = .select → (observe xs).pinging = false
  beat : (observe xs).now ≤ (observe xs).recent + cfg.heartbeatInterval

theorem beating_refl (h : Ticking cfg s) : Beating cfg s.now [] s where
  clock := rfl
  ticking := h
  waiting _ := h
  enqueuing _ _ := Or.inr rfl
  idle _ := rfl
  beat := Nat.zero_le _

/-- A step of a loop that finds room in the queue. -/
theorem beating_step (hs : Beating cfg base xs s) (h : LoopStep cfg decode false s e t) :
    Beating cfg base (xs ++ [e]) t := by
  have hclock := loopStep_now h (observe xs) hs.clock
  have htick := ticking_step hs.ticking h
  have hpast := observe_recent_le xs
  have hnow := hs.clock
  have hbeat := hs.beat
  rw [← observe_snoc] at hclock
  cases h with
  | pass hpos hidle hdue =>
    have hwait := hs.waiting hpos
    refine ⟨hclock, htick, ?waiting, ?enqueuing, ?pinging, ?beat⟩
    case waiting =>
      intro _
      simpa [Observed.note, Observed.recent] using hwait
    case enqueuing =>
      intro msg hmsg
      simp [hpos, ReadPos.enqueuing] at hmsg
    case pinging =>
      intro _
      simpa [Observed.note] using hs.idle hpos
    case beat =>
      simp only [observe_snoc, Observed.note, Observed.recent] at hwait ⊢
      omega
  | blocked _ hfull => simp at hfull
  | idle | streamClosed | readError | cancelled | rejected =>
    refine ⟨hclock, htick, ?waiting, ?enqueuing, ?pinging, ?beat⟩
    case waiting =>
      intro hpos
      simp at hpos
    case enqueuing =>
      intro msg hmsg
      simp [ReadPos.enqueuing] at hmsg
    case pinging =>
      intro hpos
      simp at hpos
    case beat =>
      simpa [Observed.note, Observed.recent] using hbeat
  | frame msg hpos =>
    have hrecent : ((observe xs).note (.frame msg)).recent = (observe xs).now := by
      simp only [Observed.recent, sup_le_iff] at hpast
      simp [Observed.recent, hpast.1]
    refine ⟨hclock, htick, ?waiting, ?enqueuing, ?pinging, ?beat⟩
    case waiting =>
      intro _
      simp only [receive_tickDeadline, observe_snoc, hrecent]
      omega
    case enqueuing =>
      intro _ _
      rw [observe_snoc, hrecent]
      exact Or.inr (note_frame_now _ _)
    case pinging =>
      intro _
      simpa using hs.idle hpos
    case beat =>
      rw [observe_snoc, hrecent, note_frame_now]
      exact Nat.le_add_right _ _
  | tick hpos hdue =>
    refine ⟨hclock, htick, ?waiting, ?enqueuing, ?pinging, ?beat⟩
    case waiting =>
      intro hsel
      simp [TimedLoop.tick] at hsel
    case enqueuing =>
      intro _ _
      exact Or.inl (by simp [Observed.note])
    case pinging =>
      intro hsel
      simp [TimedLoop.tick] at hsel
    case beat =>
      simpa [Observed.note, Observed.recent] using hbeat
  | enqueued hpos =>
    have hrecent : ((observe xs).note .enqueued).recent = (observe xs).now := by
      simp only [Observed.recent, sup_le_iff] at hpast
      rcases hs.enqueuing _ hpos with hp | hp
      · simp [Observed.note, Observed.recent, hp, hpast.2]
      · simp only [Observed.recent] at hp
        simp only [Observed.note, Observed.recent]
        split <;> omega
    refine ⟨hclock, htick, ?waiting, ?enqueuing, ?pinging, ?beat⟩
    case waiting =>
      intro _
      rw [observe_snoc, hrecent, ← hnow]
      exact hs.ticking
    case enqueuing =>
      intro _ hmsg
      simp [ReadPos.enqueuing] at hmsg
    case pinging =>
      intro _
      simp [Observed.note]
    case beat =>
      rw [observe_snoc, hrecent]
      exact Nat.le_add_right _ _

theorem beating_run (hs : Ticking cfg s) (h : (timedLoop cfg decode false).Run s xs t) :
    Beating cfg s.now xs t :=
  h.history (beating_refl hs) fun _ _ _ _ hstep hu => beating_step hu hstep

/-- After a frame at `frame` no Ping is sent for one interval. -/
structure Postponed (cfg : WsHubConfig) (base ping frame : Nat) (xs : List LoopEvent)
    (s : TimedLoop) : Prop where
  clock : s.now = base + (observe xs).now
  since : frame ≤ (observe xs).now
  last : (observe xs).lastPing = ping
  pinging : (observe xs).pinging = false
  deadline : base + frame + cfg.heartbeatInterval ≤ s.tickDeadline

/-- The frame itself restarts the interval. -/
theorem postponed_frame {msg : Message} (hs : Beating cfg base xs s)
    (h : LoopStep cfg decode false s (.frame msg) t) :
    Postponed cfg base (observe xs).lastPing (observe xs).now (xs ++ [.frame msg]) t := by
  have hclock := loopStep_now h (observe xs) hs.clock
  rw [← observe_snoc] at hclock
  cases h with
  | frame _ hpos =>
    refine ⟨hclock, by simp, by simp, ?_, ?_⟩
    · simpa using hs.idle hpos
    · simp only [receive_tickDeadline, hs.clock]
      exact le_rfl

theorem postponed_step {ping frame : Nat} (hs : Postponed cfg base ping frame xs s)
    (hc : (observe xs).now < frame + cfg.heartbeatInterval)
    (h : LoopStep cfg decode full s e t) : Postponed cfg base ping frame (xs ++ [e]) t := by
  obtain ⟨hnow, hsince, hlast, hpinging, hdead⟩ := hs
  have hclock := loopStep_now h (observe xs) hnow
  have hle := note_now_le (observe xs) e
  rw [← observe_snoc] at hclock hle
  refine ⟨hclock, hsince.trans hle, ?_, ?_, ?_⟩
  all_goals rw [observe_snoc] at *
  · cases h with
    | frame msg _ => rw [note_frame_lastPing, hlast]
    | enqueued _ => simp [Observed.note, hpinging, hlast]
    | _ => exact hlast
  · cases h with
    | frame msg _ => rw [note_frame_pinging, hpinging]
    | tick _ hdue => omega
    | enqueued _ => rfl
    | _ => exact hpinging
  · cases h with
    | frame msg _ => simp only [receive_tickDeadline]; omega
    | tick _ hdue => omega
    | _ => exact hdead

theorem Cadence.of_prefix (h : Cadence cfg xs) (hys : ys <+: xs) : Cadence cfg ys :=
  fun zs hzs => h zs (hzs.trans hys)

/-- The run lemma: as long as the cadence is kept, no Ping follows the frame. -/
theorem postponed_run {ping frame : Nat} (hping : ping < frame)
    (hs : Postponed cfg base ping frame ys s) (h : (timedLoop cfg decode full).Run s zs t)
    (hc : Cadence cfg (ys ++ zs)) : Postponed cfg base ping frame (ys ++ zs) t := by
  refine h.history (H := fun zs t => Cadence cfg (ys ++ zs) → Postponed cfg base ping frame
    (ys ++ zs) t) (fun _ => by simpa using hs) ?_ hc
  intro zs u e w hstep hu hcad
  rw [← List.append_assoc] at hcad ⊢
  have hpre : ys ++ zs <+: ys ++ zs ++ [e] := List.prefix_append _ _
  have hp := hu (hcad.of_prefix hpre)
  have hkept := hcad _ hpre
  rw [hp.last] at hkept
  exact postponed_step hp (by omega) hstep

/-- In any stretch that the loop runs without blocking on a full queue, a Ping is enqueued
at least every heartbeat interval exactly if no frame delays it. -/
theorem cadence_iff (hreach : (timedLoop cfg decode full).Reachable (· = .start cfg) s)
    (h : (timedLoop cfg decode false).Run s xs t) : Cadence cfg xs ↔ Undisturbed cfg xs := by
  have hticking := ticking_reachable hreach
  constructor
  · intro hc ys msg zs hxs
    rw [hxs] at h
    obtain ⟨u, hys, hrest⟩ := h.split
    have hu := beating_run hticking hys
    have hpast := observe_recent_le ys
    simp only [Observed.recent, sup_le_iff] at hpast
    by_contra hlate
    rw [not_or] at hlate
    obtain ⟨v, hframe, hzs⟩ : ∃ v, LoopStep cfg decode false u (.frame msg) v ∧
        (timedLoop cfg decode false).Run v zs t := by
      cases hrest with
      | step hframe hzs => exact ⟨_, hframe, hzs⟩
    have hv := postponed_frame hu hframe
    have hend := postponed_run (by omega) hv hzs (by simpa [hxs] using hc)
    have hkept := hc xs List.prefix_rfl
    rw [List.append_assoc, List.singleton_append, ← hxs] at hend
    rw [hend.last] at hkept
    exact hlate.2 hkept
  · intro hu ys hys
    obtain ⟨zs, rfl⟩ := hys
    obtain ⟨u, hys, _⟩ := h.split
    have hb := (beating_run hticking hys).beat
    by_contra hlate
    have hlt : (observe ys).lastPing < (observe ys).lastFrame := by
      simp only [Observed.recent] at hb
      omega
    obtain ⟨as, msg, bs, has, hnow, hlast⟩ := frame_after_ping hlt
    have hle : (observe ys).now ≤ (observe (ys ++ zs)).now :=
      observe_now_le (List.prefix_append _ _)
    rcases hu as msg (bs ++ zs) (by simp [has]) with hsame | hover
    · omega
    · omega

/-- One frame at the moment of a Ping, and one so late that the run ends before the next Ping would
be due. -/
theorem cadence_undisturbed :
    Cadence .default [.tick, .enqueued, .frame (.text "a"), .pass (15 * second), .tick, .enqueued,
      .pass (5 * second), .frame (.text "b"), .pass (10 * second)] := by
  have hrun : (timedLoop .default (fun _ => (none : Option Unit)) false).Run (.start .default)
      [.tick, .enqueued, .frame (.text "a"), .pass (15 * second), .tick, .enqueued,
        .pass (5 * second), .frame (.text "b"), .pass (10 * second)] _ :=
    .step (.tick rfl le_rfl) <| .step (.enqueued rfl) <| .step (.frame _ rfl) <|
    .step (.pass rfl (by decide) (by decide)) <| .step (.tick rfl (by decide)) <|
    .step (.enqueued rfl) <| .step (.pass rfl (by decide) (by decide)) <|
    .step (.frame _ rfl) <| .single (.pass rfl (by decide) (by decide))
  have hreach : (timedLoop .default (fun _ => (none : Option Unit)) false).Reachable
      (· = .start .default) (.start .default) := ⟨_, rfl, [], .refl⟩
  refine (cadence_iff hreach hrun).mpr ?_
  intro ys msg zs hxs
  have hget := congrArg (fun xs => xs[ys.length]?) hxs
  have htake := congrArg (List.take ys.length) hxs
  simp only [List.getElem?_append_right le_rfl, Nat.sub_self, List.getElem?_cons_zero,
    List.take_left] at hget htake
  match hn : ys.length with
  | 2 =>
    rw [hn] at htake
    exact Or.inl (by rw [← htake]; decide)
  | 7 =>
    rw [hn] at htake
    exact Or.inr (by rw [← htake]; decide)
  | 0 | 1 | 3 | 4 | 5 | 6 | 8 => simp [hn] at hget
  | n + 9 => simp [hn] at hget

/-- A client that sends a frame at least once per interval is pinged once, at the start. -/
theorem chatty_run (cfg : WsHubConfig) (decode : Message → Option Req) (full : Bool) {d : Nat}
    (hbeat : d ≤ cfg.heartbeatInterval) (hidle : d ≤ cfg.idleTimeout) (k : Nat) :
    ∃ xs s, (timedLoop cfg decode full).Run (.start cfg) xs s ∧ s.pos = .select ∧
      s.now = k * d ∧ s.idleDeadline = k * d + cfg.idleTimeout ∧
      s.tickDeadline = k * d + cfg.heartbeatInterval ∧ (observe xs).pings = [0] ∧
      (observe xs).lastPing = 0 ∧ (observe xs).now = k * d := by
  induction k with
  | zero =>
    refine ⟨_, _, .step (.tick rfl le_rfl) (.single (.enqueued rfl)), rfl, ?_⟩
    simp [TimedLoop.enterSelect, TimedLoop.tick, TimedLoop.start, observe, Observed.note]
  | succ k ih =>
    obtain ⟨xs, s, hrun, hpos, hnow, hidl, hdue, hpings, hlast, hclock⟩ := ih
    let late := { s with now := s.now + d }
    have hpass : LoopStep cfg decode full s (.pass d) late := .pass hpos (by omega) (by omega)
    have hframe : LoopStep cfg decode full late (.frame (.text "hello")) _ := .frame _ hpos
    have hdata : (handleFrame decode (.text "hello")).pos = .select := by
      simp only [handleFrame]
      split <;> rfl
    have hsum : (k + 1) * d = k * d + d := Nat.succ_mul k d
    refine ⟨_, _, (hrun.snoc hpass).snoc hframe, ?_, ?_, ?_, ?_, ?_, ?_, ?_⟩
    · rw [receive_pos, hdata]
    · rw [receive_now]
      simp only [late]
      omega
    · rw [receive_idleDeadline hdata]
      simp only [late]
      omega
    · rw [receive_tickDeadline]
      simp only [late]
      omega
    · rw [observe_snoc, observe_snoc]
      exact hpings
    · rw [observe_snoc, observe_snoc]
      exact hlast
    · simp only [observe_snoc, Observed.note]
      omega

/-- Under the default configuration a client that sends a message every ten seconds is not
pinged again for as long as it does so. -/
theorem chatty_not_cadence : ∃ xs s, (timedLoop .default (fun _ => some ()) false).Run
      (.start .default) xs s ∧ s.pos = .select ∧ s.now = 3600 * second ∧
      (observe xs).pings = [0] ∧ ¬ Cadence .default xs := by
  obtain ⟨xs, s, hrun, hpos, hnow, _, _, hpings, hlast, hclock⟩ :=
    chatty_run .default (fun _ => some ()) false (d := 10 * second) (by decide) (by decide) 360
  refine ⟨xs, s, hrun, hpos, by omega, hpings, fun hcad => ?_⟩
  have hkept := hcad xs List.prefix_rfl
  rw [hlast, hclock] at hkept
  exact absurd hkept (by decide)

end AxumSignal

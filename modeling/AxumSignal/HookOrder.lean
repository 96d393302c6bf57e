import AxumSignal.Serving

/-! The order of the hub hooks of one connection, over the labels of whole runs. -/
namespace AxumSignal

open Transition Calls

variable {Req : Type} {decode : Message → Option Req} {s s' : Hub} {l : HubLabel}
  {c : ConnId} {n : Nat} {e : ConnEvent} {pos : MainPos} {k : Nat} {xs : List HubLabel}

/-- A step of an `on_message` of `c`, its start included. -/
def HubLabel.OnMessage (c : ConnId) : HubLabel → Prop
  | .start d _ | .call d _ _ | .work d _ | .finish d _ | .store (.handler d _) _ => d = c
  | _ => False

/-- What may follow the labels `ys`: a hook is called and returns once, `on_connect` returns
after its call, and no step of `on_message` comes before that. -/
structure Opens (c : ConnId) (ys : List HubLabel) (l : HubLabel) : Prop where
  once : ∀ e, e.Hook → l = .conn c e → .conn c e ∉ ys
  called : l = .conn c .connected → .conn c .registered ∈ ys
  connected : l.OnMessage c → .conn c .connected ∈ ys

/-- Nor does a step of `on_message` come after the call of `on_disconnect`. -/
structure InOrder (c : ConnId) (ys : List HubLabel) (l : HubLabel) : Prop
    extends Opens c ys l where
  silent : l.OnMessage c → .conn c .disconnected ∉ ys

/-- The hooks of `c` form a proper session. -/
def Session (c : ConnId) (xs : List HubLabel) : Prop :=
  ∀ ys l zs, xs = ys ++ l :: zs → InOrder c ys l

/-- A handler of `c` has been spawned and has not ended. -/
def Hub.Live (s : Hub) (c : ConnId) (n : Nat) : Prop :=
  s.handlers c n = some .spawned ∨ s.handlers c n = some .running

/-- `on_disconnect` is called only when no handler of `c` is live. -/
def HandlersDone (c : ConnId) (s : Hub) (l : HubLabel) (_ : Hub) : Prop :=
  l = .conn c .disconnected → ∀ n, ¬ s.Live c n

/-- The order in which the serve task goes through its positions. -/
def MainPos.rank : MainPos → Nat
  | .registering => 0
  | .onConnect => 1
  | .reading _ => 2
  | .removing => 3
  | .awaitWriter => 4
  | .onDisconnect => 5
  | .ended => 6

/-- The rank that a hook step leads to. -/
def ConnEvent.level : ConnEvent → Nat
  | .registered => 1
  | .connected => 2
  | _ => 5

/-- The serve task of `c` has come as far as rank `k`. -/
def Hub.Past (s : Hub) (c : ConnId) (k : Nat) : Prop := ∃ pos, s.main c = some pos ∧ k ≤ pos.rank

theorem past_iff (h : s.main c = some pos) : s.Past c k ↔ k ≤ pos.rank := by
  constructor
  · rintro ⟨p, hp, hk⟩
    obtain rfl : pos = p := by simpa [h] using hp
    exact hk
  · exact fun hk => ⟨pos, h, hk⟩

theorem left_iff_past : s.Left c ↔ s.Past c 5 := by
  constructor
  · rintro ⟨pos, hpos, hd⟩
    refine ⟨pos, hpos, ?_⟩
    cases pos <;> simp_all [MainPos.Disconnected, MainPos.rank]
  · rintro ⟨pos, hpos, hk⟩
    refine ⟨pos, hpos, ?_⟩
    cases pos <;> simp_all [MainPos.Disconnected, MainPos.rank]

/-- A hook step crosses its level, and no other step does. -/
theorem mainStep_rank {pos' : MainPos} {e' : ConnEvent} (he : e.Hook) (h : MainStep pos e' pos') :
    (e.level ≤ pos'.rank ↔ e.level ≤ pos.rank ∨ e' = e) ∧ (e' = e → pos.rank < e.level) := by
  have hother : ¬ e'.Hook → e' ≠ e := by
    rintro hno rfl
    exact hno he
  cases h with
  | reading hno => simp [hother hno, MainPos.rank]
  | stays hno => simp [hother hno]
  | _ => cases e <;> simp_all [ConnEvent.Hook, ConnEvent.level, MainPos.rank]

theorem level_pos (e : ConnEvent) : 0 < e.level := by
  cases e <;> simp [ConnEvent.level]

/-- The serve task is past a hook step from the step on. -/
theorem hook_step (he : e.Hook) (h : HubStep decode s l s') :
    (s'.Past c e.level ↔ s.Past c e.level ∨ l = .conn c e) ∧
      (l = .conn c e → ¬ s.Past c e.level) := by
  have hsame : s'.main c = s.main c → l ≠ .conn c e → (s'.Past c e.level ↔
      s.Past c e.level ∨ l = .conn c e) ∧ (l = .conn c e → ¬ s.Past c e.level) := by
    intro hmain hl
    simp [Hub.Past, hmain, hl]
  cases hubStep_serve h c with
  | same hl hmain _ => exact hsame hmain fun hlab => hl e hlab he
  | exec hl hmain _ _ => exact hsame hmain (by simp [hl])
  | accept hl hmain hmain' _ =>
    have hnone : ¬ s.Past c e.level := by simp [Hub.Past, hmain]
    have hlevel : ¬ e.level ≤ MainPos.rank .registering := Nat.not_le_of_lt (level_pos e)
    simp [past_iff hmain', hnone, hl, hlevel]
  | @moves pos pos' e' hl _ hmain hmain' hstep _ _ =>
    rw [past_iff hmain, past_iff hmain', hl]
    obtain ⟨hcross, hnew⟩ := mainStep_rank he hstep
    refine ⟨by simpa using hcross, fun heq => ?_⟩
    have := hnew (by simpa using heq)
    omega
  | frame hl hmain hmain' _ _ =>
    rw [past_iff hmain, past_iff hmain', hl]
    cases e <;> simp_all [ConnEvent.Hook, ConnEvent.level, MainPos.rank]
  | closed hl hmain hmain' _ _ =>
    rw [past_iff hmain, past_iff hmain', hl]
    cases e <;> simp_all [ConnEvent.Hook, ConnEvent.level, MainPos.rank]

/-- What a step does to one handler. -/
inductive HandlerStep (c : ConnId) (n : Nat) (s s' : Hub) (l : HubLabel) : Prop where
  | same (h : s'.handlers c n = s.handlers c n)
  | spawn {pos : ReadPos} {msg : Message} (hl : l = .conn c (.frame msg))
      (hmain : s.main c = some (.reading pos))
  | runs (hlive : s.Live c n)

theorem setHandler_ne {d : ConnId} {m : Nat} {p : HandlerPos} (h : ¬ (c = d ∧ n = m)) :
    (s.setHandler d m p).handlers c n = s.handlers c n := by
  by_cases hd : c = d
  · subst hd
    have hm : n ≠ m := fun hm => h ⟨rfl, hm⟩
    simp [Hub.setHandler, hm]
  · simp [Hub.setHandler, hd]

theorem handled_handlers {d : ConnId} {m : Nat} (rtt : Option Nat) (a : FrameAction Req)
    (h : ¬ (c = d ∧ n = m)) : (s.handled d m rtt a).handlers c n = s.handlers c n := by
  cases a with
  | recordRtt => cases rtt <;> rfl
  | spawn => exact setHandler_ne h
  | _ => rfl

theorem hubStep_handler (h : HubStep decode s l s') (c : ConnId) (n : Nat) :
    HandlerStep c n s s' l := by
  have hset : ∀ {d m p}, s.Live d m → s'.handlers c n = (s.setHandler d m p).handlers c n →
      HandlerStep c n s s' l := by
    intro d m p hlive heq
    by_cases hdm : c = d ∧ n = m
    · obtain ⟨rfl, rfl⟩ := hdm
      exact .runs hlive
    · exact .same (by rw [heq, setHandler_ne hdm])
  cases h with
  | @frame d conn conn' msg m rtt hc hidle hnew hstep =>
    by_cases hdm : c = d ∧ n = m
    · obtain ⟨rfl, rfl⟩ := hdm
      obtain ⟨pos, _, hpos, _⟩ := frame_main hstep
      exact .spawn rfl (by rw [Hub.main_of_conns hc]; exact congrArg some hpos)
    · exact .same (handled_handlers rtt _ hdm)
  | start hpos => exact hset (Or.inl hpos) rfl
  | finish hpos _ => exact hset (Or.inr hpos) rfl
  | panic hpos _ => exact hset (Or.inr hpos) rfl
  | drop _ hpos _ => exact hset hpos rfl
  | _ => exact .same rfl

/-- Only a live handler takes a step of `on_message`. -/
theorem onMessage_live (h : HubStep decode s l s') (hl : l.OnMessage c) : ∃ n, s.Live c n := by
  cases h with
  | start hpos => exact ⟨_, Or.inl (hl ▸ hpos)⟩
  | call _ hpos _ _ | exec hpos _ _ _ | panic hpos _ | work hpos _ | finish hpos _ =>
    exact ⟨_, Or.inr (hl ▸ hpos)⟩
  | _ => exact hl.elim

/-- What the labels so far tell about a connection and its handlers. -/
structure Hub.History (c : ConnId) (ys : List HubLabel) (s : Hub) : Prop where
  hooks : ∀ e, e.Hook → (.conn c e ∈ ys ↔ s.Past c e.level)
  spawned : ∀ n p, s.handlers c n = some p → .conn c .connected ∈ ys

/-- What holds of a step whatever the handlers do: all but the silence at the end. -/
theorem history_step {ys : List HubLabel} (hs : s.History c ys) (h : HubStep decode s l s') :
    s'.History c (ys ++ [l]) where
  hooks e he := by
    have hold := hs.hooks e he
    have hnew := (hook_step (c := c) he h).1
    simp only [List.mem_append, List.mem_singleton, hold, hnew]
    exact or_congr_right eq_comm
  spawned n p hp := by
    refine List.mem_append_left _ ?_
    cases hubStep_handler h c n with
    | same heq => exact hs.spawned n p (heq ▸ hp)
    | spawn _ hmain => exact (hs.hooks .connected trivial).mpr ⟨_, hmain, le_rfl⟩
    | runs hlive =>
      rcases hlive with hlive | hlive
      · exact hs.spawned n _ hlive
      · exact hs.spawned n _ hlive

theorem history_fresh (h : s.Fresh) : s.History c [] := by
  obtain ⟨_, hconns, hhandlers⟩ := h
  refine ⟨fun e _ => ?_, fun n p hp => ?_⟩
  · simp [Hub.Past, Hub.main, hconns]
  · simp [hhandlers] at hp

/-- After the call of `on_disconnect` no handler is live. -/
def Hub.Silent (s : Hub) (c : ConnId) : Prop := s.Left c → ∀ n, ¬ s.Live c n

theorem silent_step (hs : s.Silent c) (hdone : HandlersDone c s l s')
    (h : HubStep decode s l s') : s'.Silent c := by
  intro hleft n hlive
  have hquiet : ∀ m, ¬ s.Live c m := by
    have hcross := (hook_step (e := .disconnected) (c := c) trivial h).1
    rcases hcross.mp (left_iff_past.mp hleft) with hpast | hl
    · exact hs (left_iff_past.mpr hpast)
    · exact hdone hl
  cases hubStep_handler h c n with
  | same heq =>
    rw [Hub.Live, heq] at hlive
    exact hquiet n hlive
  | @spawn pos msg hl hmain =>
    have hpast := (hook_step (e := .disconnected) (c := c) trivial h).1.mp (left_iff_past.mp hleft)
    simp only [past_iff hmain, hl] at hpast
    simp [ConnEvent.level, MainPos.rank] at hpast
  | runs hlive => exact hquiet n hlive

theorem opens_step {ys : List HubLabel} (hs : s.History c ys) (h : HubStep decode s l s') :
    Opens c ys l where
  once e he hl hmem := (hook_step he h).2 hl ((hs.hooks e he).mp hmem)
  called hl := by
    have hpast : s'.Past c 2 := (hook_step (e := .connected) trivial h).1.mpr (Or.inr hl)
    obtain ⟨pos, hpos, hrank⟩ := hpast
    have hcross := (hook_step (e := .registered) (c := c) trivial h).1.mp ⟨pos, hpos, by
      simp only [ConnEvent.level]
      omega⟩
    rcases hcross with hpast | heq
    · exact (hs.hooks .registered trivial).mpr hpast
    · simp [hl] at heq
  connected hl := by
    obtain ⟨n, hlive⟩ := onMessage_live h hl
    rcases hlive with hlive | hlive
    · exact hs.spawned n _ hlive
    · exact hs.spawned n _ hlive

/-- Whatever the handlers do, the hooks come in order, and no `on_message` takes a step
before `on_connect` has returned. -/
theorem opens_run {s₀ : Hub} (h0 : s₀.Fresh) (h : (hubSystem decode).Run s₀ xs s)
    (ys : List HubLabel) (l : HubLabel) (zs : List HubLabel) (hxs : xs = ys ++ l :: zs) :
    Opens c ys l := by
  refine h.before (H := fun ys s => s.History c ys) (history_fresh h0)
    (fun ys u l w hstep hhist => ?_) ys l zs hxs
  exact ⟨opens_step hhist hstep, history_step hhist hstep⟩

/-- If `on_disconnect` is called only when the handlers of `c` are done, the hooks of `c`
form a proper session. -/
theorem session_of_done {s₀ : Hub} (h0 : s₀.Fresh)
    (h : ((hubSystem decode).restrict (HandlersDone c)).Run s₀ xs s) : Session c xs := by
  have hsilent : s₀.Silent c := by
    rintro ⟨_, hpos, _⟩
    simp [Hub.main, h0.2.1] at hpos
  refine h.before (H := fun ys s => s.History c ys ∧ s.Silent c) ⟨history_fresh h0, hsilent⟩ ?_
  rintro ys u l w ⟨hstep, hdone⟩ ⟨hhist, hquiet⟩
  refine ⟨⟨opens_step hhist hstep, fun hl hmem => ?_⟩, history_step hhist hstep,
    silent_step hquiet hdone hstep⟩
  obtain ⟨n, hlive⟩ := onMessage_live hstep hl
  exact hquiet (left_iff_past.mpr ((hhist.hooks .disconnected trivial).mp hmem)) n hlive

theorem Hub.Solo.setHandler {hs : ConnId → Nat → Option HandlerPos} (h : s.Solo c hs)
    (n : Nat) (p : HandlerPos) :
    (s.setHandler c n p).Solo c (Function.update hs c (Function.update (hs c) n (some p))) := by
  obtain rfl := h.handlers
  exact ⟨h.members, h.groups, h.others, rfl⟩

theorem handlersDone_of_solo {hs : ConnId → Nat → Option HandlerPos} (h : s.Solo c hs)
    (hdone : ∀ n, hs c n = none ∨ hs c n = some .ended) : HandlersDone c s l s' := by
  intro _ n hlive
  rw [Hub.Live, h.handlers] at hlive
  rcases hdone n with hn | hn <;> simp [hn] at hlive

/-- One frame, whose handler ends before the peer closes the connection. -/
theorem session_one_frame : ∃ xs, .start "c" 0 ∈ xs ∧ .conn "c" .disconnected ∈ xs ∧
    Session "c" xs := by
  have hspawn : handleFrame (fun _ => some ()) (.text "hello") = .spawn () := rfl
  obtain ⟨xs, s₁, hopen, hs₁, hat₁⟩ :=
    solo_opens (fun _ => some ()) (solo_start .block "c") rfl rfl
  obtain ⟨s₂, hframe, hs₂, hat₂⟩ := solo_frame (n := 0) hs₁ hat₁ rfl hspawn
  have hs₄ := (hs₂.setHandler 0 .running).setHandler 0 .ended
  obtain ⟨ys, s₅, hclose, _, _⟩ := solo_closes hs₄ ⟨hat₂.conn, hat₂.cancelled, hat₂.pc⟩
  have hstart : HubStep (fun _ => some ()) s₂ (.start "c" 0) (s₂.setHandler "c" 0 .running) :=
    .start (by simp [hs₂.handlers])
  have hfinish : HubStep (fun _ => some ()) (s₂.setHandler "c" 0 .running) (.finish "c" 0)
      ((s₂.setHandler "c" 0 .running).setHandler "c" 0 .ended) :=
    .finish (by simp [Hub.setHandler]) (hs₂.others _ (by simp))
  refine ⟨_, ?_, ?_, session_of_done (hub_start_fresh .block) <|
    (hopen.mono fun _ _ _ h => handlersDone_of_solo h.1 fun _ => Or.inl rfl).append <|
    .step ⟨hframe, fun hl => by cases hl⟩ <| .step ⟨hstart, fun hl => by cases hl⟩ <|
    .step ⟨hfinish, fun hl => by cases hl⟩ <|
    hclose.mono fun _ _ _ h => handlersDone_of_solo h.1 fun n => ?_⟩
  · simp
  · simp
  · by_cases hn : n = 0 <;> simp [hn]

/-- A live handler that is not inside a call can take a step of `on_message`. -/
theorem live_moves (hlive : s.handlers c n = some .spawned ∨
    (s.handlers c n = some .running ∧ s.calls.pc (.handler c n) = .idle)) :
    ∃ l s', l.OnMessage c ∧ HubStep decode s l s' := by
  rcases hlive with hpos | ⟨hpos, hidle⟩
  · exact ⟨.start c n, _, rfl, .start hpos⟩
  · exact ⟨.work c n, _, rfl, .work hpos hidle⟩

/-- If such a handler is left when `on_disconnect` is called, the session can be broken by
the next step. -/
theorem session_breaks (hd : HubStep decode s (.conn c .disconnected) s')
    (hlive : s.handlers c n = some .spawned ∨
      (s.handlers c n = some .running ∧ s.calls.pc (.handler c n) = .idle)) :
    ∃ l t, HubStep decode s' l t ∧ ¬ Session c (xs ++ [.conn c .disconnected, l]) := by
  have hlive' : s'.handlers c n = some .spawned ∨
      (s'.handlers c n = some .running ∧ s'.calls.pc (.handler c n) = .idle) := by
    cases hd with
    | conn | writer => exact hlive
  obtain ⟨l, t, hl, hstep⟩ := live_moves hlive'
  refine ⟨l, t, hstep, fun hsession => ?_⟩
  exact (hsession (xs ++ [.conn c .disconnected]) l [] (by simp)).silent hl (by simp)

/-- The token is cancelled, but the `select!` of a new handler may poll `on_message` first. -/
theorem late_start_no_session : ∃ (s₀ s : Hub) (xs : List HubLabel), s₀.Fresh ∧
    (hubSystem fun _ => some ()).Run s₀ xs s ∧ ¬ Session "c" xs := by
  have hspawn : handleFrame (fun _ => some ()) (.text "hello") = .spawn () := rfl
  obtain ⟨xs, s₁, hopen, hs₁, hat₁⟩ :=
    solo_opens (fun _ => some ()) (solo_start .block "c") rfl rfl
  obtain ⟨s₂, hframe, hs₂, hat₂⟩ := solo_frame (n := 0) hs₁ hat₁ rfl hspawn
  obtain ⟨ys, s₃, hclose, hs₃, _⟩ := solo_closes hs₂ hat₂
  have hstart : HubStep (fun _ => some ()) s₃ (.start "c" 0) (s₃.setHandler "c" 0 .running) :=
    .start (by simp [hs₃.handlers])
  refine ⟨_, _, _, hub_start_fresh .block, hopen.of_restrict.append <| .step hframe <|
    hclose.of_restrict.snoc hstart, fun hsession => ?_⟩
  exact (hsession (xs ++ .conn "c" (.frame (.text "hello")) :: (ys ++ [.conn "c" .disconnected]))
    (.start "c" 0) [] (by simp)).silent rfl (by simp)

end AxumSignal

import AxumSignal.Sessions

/-! What the writer tasks of a `HubClient` have written by the time `disconnect` returns. -/
namespace AxumSignal

open Transition LTS

variable {E V : Type} {codec : WsCodec E V} {c c' : HubClient} {e : ClientEvent V}
  {es : List (ClientEvent V)} {y : HubClient × Outlines V} {k i : Nat} {s : ClientTasks}

/-- The frame of session `k` that a writer task has written. -/
def ClientEvent.writes (k : Nat) : ClientEvent V → Bool
  | .write i => i = k
  | _ => false

/-- How many frames have been written to the socket of session `k`. -/
def written (k : Nat) (es : List (ClientEvent V)) : Nat := es.countP (ClientEvent.writes k)

/-- The account of session `k`: a failed write ends it, and otherwise its writer task leaves
nothing behind. -/
structure Writes (k : Nat) (es : List (ClientEvent V)) (s : ClientTasks) : Prop where
  taken : .writeFailed k ∉ es → s.taken = written k es
  failed : .writeFailed k ∈ es → s.writer = false
  left : s.writer = false → .writeFailed k ∈ es ∨ s.taken = s.queued.length

theorem written_snoc : written k (es ++ [e]) = written k es + if e.writes k then 1 else 0 := by
  simp [written, List.countP_append, List.countP_singleton]

/-- The account of a session that a step does not touch. -/
theorem Writes.other (hs : Writes k es s) (hw : e.writes k = false) (hf : e ≠ .writeFailed k) :
    Writes k (es ++ [e]) s := by
  have hin : .writeFailed k ∈ es ++ [e] ↔ .writeFailed k ∈ es := by simp [hf.symm]
  refine ⟨fun hno => ?_, fun h => hs.failed (hin.mp h), fun h => (hs.left h).imp_left hin.mpr⟩
  rw [written_snoc, hw]
  exact hs.taken fun h => hno (hin.mpr h)

/-- A frame is queued to a writer task that runs. -/
theorem Writes.queue {frames : List TungMessage} (hs : Writes k es s) (hw : s.writer = true) :
    Writes k es { s with queued := frames } :=
  ⟨hs.taken, hs.failed, fun h => by simp [hw] at h⟩

theorem Writes.write (hs : Writes k es s) (hw : s.writer = true) :
    Writes k (es ++ [.write k]) { s with taken := s.taken + 1 } := by
  have hno : .writeFailed k ∉ es := fun h => by simp [hs.failed h] at hw
  refine ⟨fun _ => ?_, by simp [hno], fun h => by simp [hw] at h⟩
  simp [written_snoc, ClientEvent.writes, hs.taken hno]

/-- Every session of a client, and those it has not opened yet. -/
structure HubClient.Written (es : List (ClientEvent V)) (c : HubClient) : Prop where
  session : ∀ k < c.opened, Writes k es (c.sessions k)
  stopped : ∀ k, c.opened ≤ k → (c.sessions k).writer = false ∧ (c.sessions k).reader = false
  untouched : ∀ k, c.opened ≤ k → written k es = 0 ∧ .writeFailed k ∉ es

theorem HubClient.Written.lt (hs : c.Written es)
    (hrun : (c.sessions i).writer = true ∨ (c.sessions i).reader = true) : i < c.opened := by
  by_contra hle
  obtain ⟨hw, hr⟩ := hs.stopped i (Nat.le_of_not_lt hle)
  simp [hw, hr] at hrun

/-- The event writes nothing to session `k`. -/
def ClientEvent.Spares (e : ClientEvent V) (k : Nat) : Prop :=
  e.writes k = false ∧ e ≠ .writeFailed k

theorem untouched_snoc (hs : c.Written es) (hk : c.opened ≤ k) (he : e.Spares k) :
    written k (es ++ [e]) = 0 ∧ .writeFailed k ∉ es ++ [e] := by
  obtain ⟨hnone, hno⟩ := hs.untouched k hk
  exact ⟨by simp [written_snoc, he.1, hnone], by simp [hno, he.2.symm]⟩

/-- A step that touches one session at most. -/
theorem written_touch (hs : c.Written es) (hi : i < c.opened) (hopened : c'.opened = c.opened)
    (hsessions : c'.sessions = Function.update c.sessions i s)
    (he : ∀ k, k ≠ i → e.Spares k) (h : Writes i (es ++ [e]) s) : c'.Written (es ++ [e]) := by
  have hne : ∀ k, c.opened ≤ k → k ≠ i := fun k hk => by omega
  refine ⟨fun k hk => ?_, fun k hk => ?_, fun k hk => ?_⟩
  · rw [hsessions]
    by_cases hki : k = i
    · subst hki
      rwa [Function.update_self]
    · rw [Function.update_of_ne hki]
      exact (hs.session k (hopened ▸ hk)).other (he k hki).1 (he k hki).2
  · rw [hopened] at hk
    rw [hsessions, Function.update_of_ne (hne k hk)]
    exact hs.stopped k hk
  · rw [hopened] at hk
    exact untouched_snoc hs hk (he k (hne k hk))

theorem written_same (hs : c.Written es) (hopened : c'.opened = c.opened)
    (hsessions : c'.sessions = c.sessions) (he : ∀ k, e.Spares k) : c'.Written (es ++ [e]) := by
  refine ⟨fun k hk => ?_, fun k hk => ?_, fun k hk => ?_⟩
  · rw [hsessions]
    exact (hs.session k (hopened ▸ hk)).other (he k).1 (he k).2
  · rw [hsessions]
    exact hs.stopped k (hopened ▸ hk)
  · exact untouched_snoc hs (hopened ▸ hk) (he k)

theorem written_connect (hs : c.Written es) : c.connect.Written (es ++ [.connected]) := by
  have he : ∀ k, (ClientEvent.connected : ClientEvent V).Spares k := fun k => ⟨rfl, by simp⟩
  refine ⟨fun k hk => ?_, fun k hk => ?_, fun k hk => ?_⟩
  · by_cases hlast : k = c.opened
    · subst hlast
      obtain ⟨hnone, hno⟩ := untouched_snoc hs le_rfl (he _)
      rw [connect_last]
      exact ⟨fun _ => hnone.symm, fun h => (hno h).elim, by simp⟩
    · rw [connect_earlier hlast]
      exact (hs.session k (by simp [HubClient.connect] at hk; omega)).other rfl (by simp)
  · have hlt : c.opened < k := hk
    rw [connect_earlier hlt.ne']
    exact hs.stopped k hlt.le
  · exact untouched_snoc hs (Nat.le_of_succ_le hk) (he k)

/-- The Close frame is queued to a writer task that runs, or to nobody. -/
theorem written_sendClose (hs : c.Written es) (he : ∀ k, e.Spares k)
    (hopened : c'.opened = c.sendClose.opened) (hsessions : c'.sessions = c.sendClose.sessions) :
    c'.Written (es ++ [e]) := by
  rcases sendClose_cases c with ⟨-, heq⟩ | ⟨k, -, ⟨hw, heq⟩ | ⟨-, heq⟩⟩
  · rw [heq] at hopened hsessions
    exact written_same hs hopened hsessions he
  · rw [heq] at hopened hsessions
    have hlt := hs.lt (Or.inl hw)
    exact written_touch hs hlt hopened hsessions (fun i _ => he i)
      (((hs.session k hlt).other (he k).1 (he k).2).queue hw)
  · rw [heq] at hopened hsessions
    exact written_same hs hopened hsessions he

/-- The step lemma. -/
theorem written_step (hs : c.Written es) (h : ClientStep codec c e c') :
    c'.Written (es ++ [e]) := by
  cases h with
  | connected => exact written_connect hs
  | connectFailed | refused | writerJoined | disconnected =>
    exact written_same hs rfl rfl fun k => ⟨rfl, by simp⟩
  | @sent _ value _ hok =>
    obtain ⟨k, msg, -, hw, -, rfl⟩ := client_send_ok hok
    have hlt := hs.lt (Or.inl hw)
    have hsession := (hs.session k hlt).other (e := .sent value) rfl (by simp)
    exact written_touch hs hlt rfl rfl (fun i _ => ⟨rfl, by simp⟩) (hsession.queue hw)
  | disconnect | drop => exact written_sendClose hs (fun k => ⟨rfl, by simp⟩) rfl rfl
  | @write k hw =>
    have hlt := hs.lt (Or.inl hw)
    refine written_touch hs hlt rfl rfl (fun i hik => ⟨?_, by simp⟩) ((hs.session k hlt).write hw)
    simpa [ClientEvent.writes] using hik.symm
  | @writeFailed k hw =>
    have hlt := hs.lt (Or.inl hw)
    refine written_touch hs hlt rfl rfl (fun i hik => ⟨rfl, ?_⟩) ⟨by simp, fun _ => rfl, by simp⟩
    rintro ⟨⟩
    exact hik rfl
  | @writerEnded k hw _ hdrained =>
    have hlt := hs.lt (Or.inl hw)
    have hsession := (hs.session k hlt).other (e := .writerEnded k) rfl (by simp)
    exact written_touch hs hlt rfl rfl (fun i _ => ⟨rfl, by simp⟩)
      ⟨hsession.taken, fun _ => rfl, fun _ => Or.inr hdrained⟩
  | @readerEnded k hr =>
    have hlt := hs.lt (Or.inr hr)
    have hsession := (hs.session k hlt).other (e := .readerEnded k) rfl (by simp)
    exact written_touch hs hlt rfl rfl (fun i _ => ⟨rfl, by simp⟩)
      ⟨hsession.taken, hsession.failed, hsession.left⟩

theorem written_build : HubClient.build.Written ([] : List (ClientEvent V)) :=
  ⟨fun k hk => (Nat.not_lt_zero k hk).elim, fun _ _ => ⟨rfl, rfl⟩, fun _ _ => ⟨rfl, by simp⟩⟩

/-- The run lemma. -/
theorem written_run {o : Outlines V} (h : (callerSystem codec).Run (.build, o) es y) :
    y.1.Written es := by
  refine h.history (H := fun ys x => x.1.Written ys) written_build ?_
  rintro ys ⟨c, o⟩ e ⟨c', o'⟩ ⟨hstep, -⟩ hs
  exact written_step hs hstep

/-- Session `k` is not replaced while its sender is held, and not ended after its writer task has
left. -/
def EndsSession (k : Nat) (x : HubClient × Outlines V) (e : ClientEvent V)
    (_ : HubClient × Outlines V) : Prop :=
  match e with
  | .connected => x.1.tx ≠ some k
  | .disconnect | .drop => x.1.tx = some k → (x.1.sessions k).writer = true
  | _ => True

/-- The client holds session `k`, or waits for its writer task. -/
def HubClient.Attends (c : HubClient) (k : Nat) : Prop :=
  match c.pos with
  | .idle => c.tx = some k ∧ c.writer = some k
  | .joinWriter h => h = some k
  | .joinReader _ => False
  | .dropped => True

/-- The invariant of a session that ends in time, whatever becomes of the others. -/
structure HubClient.Retains (codec : WsCodec E V) (k : Nat) (c : HubClient) (o : Outlines V) :
    Prop where
  opened : o.opened = c.opened
  current : ∀ i ∈ c.tx, i + 1 = c.opened
  released : c.pos ≠ .idle → c.tx = none
  queued : k < c.opened → (c.sessions k).Matches codec (o.outline k)
  ended : k < c.opened → ((o.outline k).ended = true ↔ c.tx ≠ some k)
  attended : k < c.opened → (c.sessions k).writer = true → c.Attends k

theorem attends_idle (hpos : c.pos = .idle) : c.Attends k ↔ c.tx = some k ∧ c.writer = some k := by
  rw [HubClient.Attends, hpos]

theorem retains_build : HubClient.build.Retains codec k ⟨0, fun _ => ⟨[], false⟩⟩ where
  opened := rfl
  current := nofun
  released h := (h rfl).elim
  queued hk := (Nat.not_lt_zero k hk).elim
  ended hk := (Nat.not_lt_zero k hk).elim
  attended hk := (Nat.not_lt_zero k hk).elim

/-- A step that leaves the client where it was, and starts no writer task. -/
theorem retains_task {o : Outlines V} (hs : c.Retains codec k o)
    (hq : s.queued = (c.sessions i).queued)
    (hw : s.writer = true → (c.sessions i).writer = true) :
    (c.setSession i s).Retains codec k o where
  opened := hs.opened
  current := hs.current
  released := hs.released
  queued hk := by
    by_cases hki : k = i
    · subst hki
      rw [setSession_same]
      exact (hs.queued hk).of_queued hq
    · rw [setSession_other hki]
      exact hs.queued hk
  ended := hs.ended
  attended hk hrun := by
    refine hs.attended hk ?_
    by_cases hki : k = i
    · subst hki
      rw [setSession_same] at hrun
      exact hw hrun
    · rwa [setSession_other hki] at hrun

theorem retains_connect {o : Outlines V} (hs : c.Retains codec k o) (hpos : c.pos = .idle)
    (htx : c.tx ≠ some k) : c.connect.Retains codec k (o.observe .connected) := by
  have hobserved : (o.observe .connected).outline =
      Function.update (fun i => (o.outline i).finish) c.opened ⟨[], false⟩ := by
    rw [← hs.opened]
    rfl
  have hold : k < c.connect.opened → k ≠ c.opened → k < c.opened := by
    intro hk hne
    have : k < c.opened + 1 := hk
    omega
  constructor
  case opened => exact congrArg (· + 1) hs.opened
  case current =>
    intro i hi
    obtain rfl : c.opened = i := Option.some.inj hi
    rfl
  case released => exact fun h => (h hpos).elim
  case queued =>
    intro hk
    rw [hobserved]
    by_cases hlast : k = c.opened
    · subst hlast
      rw [connect_last, Function.update_self]
      exact ⟨[], rfl, rfl⟩
    · have hlt := hold hk hlast
      rw [connect_earlier hlast, Function.update_of_ne hlast,
        Outline.finish_of_ended ((hs.ended hlt).mpr htx)]
      exact hs.queued hlt
  case ended =>
    intro hk
    rw [hobserved]
    by_cases hlast : k = c.opened
    · subst hlast
      simp [HubClient.connect]
    · rw [Function.update_of_ne hlast]
      simp [HubClient.connect, Outline.finish, Ne.symm hlast]
  case attended =>
    intro hk hrun
    by_cases hlast : k = c.opened
    · subst hlast
      exact (attends_idle (c := c.connect) hpos).mpr ⟨rfl, rfl⟩
    · rw [connect_earlier hlast] at hrun
      exact (htx ((attends_idle hpos).mp (hs.attended (hold hk hlast) hrun)).1).elim

theorem retains_sent {o : Outlines V} {value : V} (hs : c.Retains codec k o)
    (h : c.send codec value = .ok c') : c'.Retains codec k (o.observe (.sent value)) := by
  obtain ⟨i, msg, htx, -, hmsg, rfl⟩ := client_send_ok h
  have hlast : o.opened - 1 = i := by
    have := hs.current i htx
    have := hs.opened
    omega
  have hobserved : (o.observe (.sent value)).outline = Function.update o.outline i
      { o.outline i with sent := (o.outline i).sent ++ [value] } := by
    simp only [Outlines.observe, hlast]
  by_cases hki : k = i
  · subst hki
    have hopen : k < c.opened → (o.outline k).ended = false := fun hk =>
      Bool.eq_false_iff.mpr fun h => (hs.ended hk).mp h htx
    refine ⟨hs.opened, hs.current, hs.released, fun hk => ?_, fun hk => ?_, fun hk hrun => ?_⟩
    · rw [hobserved, setSession_same, Function.update_self]
      exact matches_sent (hs.queued hk) (hopen hk) hmsg
    · rw [hobserved, Function.update_self]
      exact hs.ended hk
    · rw [setSession_same] at hrun
      exact hs.attended hk hrun
  · refine ⟨hs.opened, hs.current, hs.released, fun hk => ?_, fun hk => ?_, fun hk hrun => ?_⟩
    · rw [hobserved, setSession_other hki, Function.update_of_ne hki]
      exact hs.queued hk
    · rw [hobserved, Function.update_of_ne hki]
      exact hs.ended hk
    · rw [setSession_other hki] at hrun
      exact hs.attended hk hrun

/-- The sender is given up: session `k` gets its Close if it is the one that ends. -/
theorem retains_close {o : Outlines V} (hs : c.Retains codec k o)
    (hrun : c.tx = some k → (c.sessions k).writer = true) (htx : c'.tx = none)
    (hopened : c'.opened = c.opened) (hsessions : c'.sessions = c.sendClose.sessions)
    (hattends : (c.sessions k).writer = true → c.Attends k → c'.Attends k) :
    c'.Retains codec k { o with outline := fun i => (o.outline i).finish } := by
  have hfades := (sendClose_fades c).2
  refine ⟨hs.opened.trans hopened.symm, by simp [htx], fun _ => htx, fun hk => ?_, fun _ => ?_,
    fun hk hw => ?_⟩
  · rw [hopened] at hk
    rw [hsessions]
    exact sendClose_matches (hs.queued hk) (hs.ended hk) hrun
  · exact finish_ended_iff htx
  · rw [hopened] at hk
    rw [hsessions] at hw
    have hw' := hfades.writers k hw
    exact hattends hw' (hs.attended hk hw')

/-- The step lemma. -/
theorem retains_step {o : Outlines V} (hs : c.Retains codec k o) (h : ClientStep codec c e c')
    (htime : EndsSession k (c, o) e y) : c'.Retains codec k (o.observe e) := by
  cases h with
  | connected hpos => exact retains_connect hs hpos htime
  | connectFailed | refused => exact hs
  | sent _ hok => exact retains_sent hs hok
  | disconnect hpos =>
    obtain ⟨htx, hf⟩ := sendClose_fades c
    exact retains_close hs htime htx hf.opened rfl fun _ h => ((attends_idle hpos).mp h).2
  | drop hpos =>
    obtain ⟨htx, hf⟩ := sendClose_fades c
    exact retains_close hs htime htx hf.opened rfl fun _ _ => trivial
  | @writerJoined h hpos hdone =>
    refine ⟨hs.opened, hs.current, fun _ => hs.released (by simp [hpos]), hs.queued, hs.ended,
      fun hk hw => ?_⟩
    have hhandle : h = some k := by simpa [HubClient.Attends, hpos] using hs.attended hk hw
    simp [hdone k hhandle] at hw
  | disconnected hpos =>
    refine ⟨hs.opened, hs.current, fun h => (h rfl).elim, hs.queued, hs.ended, fun hk hw => ?_⟩
    have hno := hs.attended hk hw
    simp [HubClient.Attends, hpos] at hno
  | write => exact retains_task hs rfl id
  | writeFailed | writerEnded => exact retains_task hs rfl nofun
  | readerEnded => exact retains_task hs rfl id

/-- The run lemma. -/
theorem retains_run (h : ((callerSystem codec).restrict (EndsSession k)).Run
    (.build, ⟨0, fun _ => ⟨[], false⟩⟩) es y) : y.1.Retains codec k y.2 := by
  refine h.invariant (I := fun x => x.1.Retains codec k x.2) ?_ retains_build
  rintro ⟨c, o⟩ e ⟨c', o'⟩ ⟨⟨hstep, rfl⟩, htime⟩ hs
  exact retains_step hs hstep htime

/-- When `disconnect` returns, the session is over and its writer task has left. -/
theorem retains_disconnected {o : Outlines V} (hs : c.Retains codec k o) (hk : k < c.opened)
    (h : ClientStep codec c .disconnected c') : (o.outline k).ended = true ∧
      (c.sessions k).writer = false ∧ c' = { c with pos := .idle } := by
  cases h with
  | disconnected hpos =>
    have htx : c.tx = none := hs.released (by simp [hpos])
    refine ⟨(hs.ended hk).mpr (by simp [htx]), ?_, rfl⟩
    rw [Bool.eq_false_iff]
    intro hw
    have hno := hs.attended hk hw
    simp [HubClient.Attends, hpos] at hno

/-- When `disconnect` returns, each session that has ended in time has written the encodings of
all values sent in it and one Close, unless a write to its socket failed. -/
theorem disconnect_flushes (h : ((callerSystem codec).restrict (EndsSession k)).Run
      (.build, ⟨0, fun _ => ⟨[], false⟩⟩) (es ++ [.disconnected]) y) (hk : k < y.1.opened) :
    ∃ msgs, (y.2.outline k).sent.mapM codec.encode = .ok msgs ∧
      (y.1.sessions k).queued = msgs.map axumToTung ++ [.close none] ∧
      (.writeFailed k ∈ es ∨ written k es = (y.1.sessions k).queued.length) := by
  obtain ⟨⟨c, o⟩, hrun, hlast⟩ := h.split
  have hretains : c.Retains codec k o := retains_run hrun
  have hs : c.Written es := written_run hrun.of_restrict
  obtain ⟨c', o'⟩ := y
  cases hlast with
  | step hstep hnil =>
    cases hnil
    obtain ⟨⟨hclient, hsee⟩, -⟩ := hstep
    obtain rfl : o = o' := hsee.symm
    have hopened : c'.opened = c.opened := by
      cases hclient
      rfl
    rw [hopened] at hk
    obtain ⟨hended, hleft, rfl⟩ := retains_disconnected hretains hk hclient
    obtain ⟨msgs, hmsgs, hq⟩ := hretains.queued hk
    refine ⟨msgs, hmsgs, by simpa [hended] using hq, ?_⟩
    have hsession := hs.session k hk
    by_cases hf : .writeFailed k ∈ es
    · exact Or.inl hf
    · exact Or.inr ((hsession.taken hf).symm.trans ((hsession.left hleft).resolve_left hf))

theorem caller_step {o : Outlines V} (h : ClientStep codec c e c')
    (htime : EndsSession k (c, o) e (c', o.observe e)) :
    ((callerSystem codec).restrict (EndsSession k)).Tr (c, o) e (c', o.observe e) :=
  ⟨⟨h, rfl⟩, htime⟩

/-- A client whose first session loses its writer task, and which sends one value in a second
one. -/
theorem disconnect_flushes_second : ∃ es y,
    ((callerSystem (jsonCodec boolJson)).restrict (EndsSession 1)).Run
      (.build, ⟨0, fun _ => ⟨[], false⟩⟩) (es ++ [.disconnected]) y ∧ .writeFailed 0 ∈ es ∧
    ∃ msgs, (y.2.outline 1).sent.mapM (jsonCodec boolJson).encode = .ok msgs ∧
      (y.1.sessions 1).queued = msgs.map axumToTung ++ [.close none] ∧
      written 1 es = (y.1.sessions 1).queued.length := by
  have hrun : ((callerSystem (jsonCodec boolJson)).restrict (EndsSession 1)).Run
      (.build, ⟨0, fun _ => ⟨[], false⟩⟩) ([.connected, .sent true, .writeFailed 0, .disconnect,
        .writerJoined, .readerEnded 0, .disconnected, .connected, .sent true, .write 1, .disconnect,
        .write 1, .writerEnded 1, .writerJoined, .readerEnded 1] ++ [.disconnected]) _ :=
    .step (caller_step (.connected rfl) nofun) <| .step (caller_step (.sent rfl rfl) trivial) <|
    .step (caller_step (.writeFailed rfl (by decide)) trivial) <|
    .step (caller_step (.disconnect rfl) nofun) <|
    .step (caller_step (.writerJoined rfl (by decide)) trivial) <|
    .step (caller_step (.readerEnded rfl) trivial) <|
    .step (caller_step (.disconnected rfl (by decide)) trivial) <|
    .step (caller_step (.connected rfl) nofun) <| .step (caller_step (.sent rfl rfl) trivial) <|
    .step (caller_step (.write rfl (by decide)) trivial) <|
    .step (caller_step (.disconnect rfl) fun _ => rfl) <|
    .step (caller_step (.write rfl (by decide)) trivial) <|
    .step (caller_step (.writerEnded rfl (by decide) rfl) trivial) <|
    .step (caller_step (.writerJoined rfl (by decide)) trivial) <|
    .step (caller_step (.readerEnded rfl) trivial) <|
    .single (caller_step (.disconnected rfl (by decide)) trivial)
  obtain ⟨msgs, hmsgs, hq, hall⟩ := disconnect_flushes hrun (by decide)
  exact ⟨_, _, hrun, by simp, msgs, hmsgs, hq, hall.resolve_left (by simp)⟩

end AxumSignal

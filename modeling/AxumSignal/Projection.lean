import AxumSignal.Sessions

/-! Each session of a `HubClient` that ends in time, seen alone: a run of the model of a single
session. -/
namespace AxumSignal

open Transition LTS

variable {E V : Type} {codec : WsCodec E V} {c c' d : HubClient} {o o' : Outlines V}
  {x y : HubClient × Outlines V} {e : ClientEvent V} {es : List (ClientEvent V)} {k : Nat}
  {value : V} {frame : TungMessage} {cfg : WsHubConfig} {link : Transport} {full : Bool}
  {a b : ClientSession V}

/-- Session `k` of a client, in the model of a single session. -/
structure Shows (x : HubClient × Outlines V) (k : Nat) (s : ClientSession V) : Prop where
  tx : s.tx = true ↔ x.1.tx = some k
  writer : s.writer = (x.1.sessions k).writer
  taken : (x.1.sessions k).taken ≤ (x.1.sessions k).queued.length
  queue : s.writer = true → s.queue = (x.1.sessions k).queued.drop (x.1.sessions k).taken
  sent : s.sent = (x.2.outline k).sent

theorem Shows.congr (h : Shows x k a) (htx : y.1.tx = some k ↔ x.1.tx = some k)
    (hk : y.1.sessions k = x.1.sessions k)
    (hsent : (y.2.outline k).sent = (x.2.outline k).sent) : Shows y k a where
  tx := h.tx.trans htx.symm
  writer := by rw [hk, h.writer]
  taken := hk ▸ h.taken
  queue hw := by rw [hk, h.queue hw]
  sent := h.sent.trans hsent.symm

/-- A frame is queued to the session that is shown. -/
theorem shows_queued (h : Shows x k a) (hw : a.writer = true) (hd : d.sessions k =
      { x.1.sessions k with queued := (x.1.sessions k).queued ++ [frame] }) :
    (d.sessions k).taken ≤ (d.sessions k).queued.length ∧
      a.queue ++ [frame] = (d.sessions k).queued.drop (d.sessions k).taken := by
  have hle := h.taken
  rw [hd, h.queue hw, List.drop_append_of_le_length hle]
  exact ⟨hle.trans (by simp), rfl⟩

theorem shows_sent (hu : c.Upheld codec o) (h : Shows (c, o) k a)
    (hok : c.send codec value = .ok c') : ∃ b es,
      (sessionSystem cfg codec link full).Run a es b ∧ Shows (c', o.observe (.sent value)) k b := by
  obtain ⟨i, msg, htx, hw, hmsg, rfl⟩ := client_send_ok hok
  obtain ⟨hlast, -, -⟩ := upheld_open hu htx
  have hsee := observe_sent hu hlast value
  by_cases hki : k = i
  · subst hki
    have htx' : a.tx = true := h.tx.mpr htx
    have hw' : a.writer = true := h.writer.trans hw
    refine ⟨{ a with queue := a.queue ++ [axumToTung msg], sent := a.sent ++ [value] }, _,
      .single (.send value (by simp [ClientSession.send, htx', hw', hmsg])), ?_⟩
    obtain ⟨htaken, hqueue⟩ := shows_queued h hw' setSession_same
    exact ⟨h.tx, by simpa using h.writer, htaken, fun _ => hqueue, by simp [hsee, h.sent]⟩
  · exact ⟨a, [], .refl, h.congr Iff.rfl (setSession_other hki) (by simp [hsee, hki])⟩

/-- The sender is taken, by `disconnect` or by the drop. -/
theorem shows_close (h : Shows (c, o) k a) (hrun : ∀ i ∈ c.tx, (c.sessions i).writer = true)
    (htx : d.tx = none) (hd : d.sessions = c.sendClose.sessions)
    (hsent : (o'.outline k).sent = (o.outline k).sent) : ∃ b es,
      (sessionSystem cfg codec link full).Run a es b ∧ Shows (d, o') k b := by
  rcases sendClose_cases c with ⟨hnone, heq⟩ | ⟨i, hi, ⟨hw, heq⟩ | ⟨hw, -⟩⟩
  · exact ⟨a, [], .refl, h.congr (by simp [htx, hnone]) (by rw [hd, heq]) hsent⟩
  · by_cases hki : k = i
    · subst hki
      have htx' : a.tx = true := h.tx.mpr hi
      have hw' : a.writer = true := h.writer.trans hw
      have hsame : d.sessions k =
          { c.sessions k with queued := (c.sessions k).queued ++ [.close none] } := by
        rw [hd, heq]
        exact setSession_same
      refine ⟨a.disconnect, _, .single .disconnect, ?_⟩
      obtain ⟨htaken, hqueue⟩ := shows_queued h hw' hsame
      have hdisc : a.disconnect = { a with tx := false, queue := a.queue ++ [.close none] } := by
        simp [ClientSession.disconnect, htx', hw', axumToTung]
      rw [hdisc]
      exact ⟨by simp [htx], by rw [hsame]; exact h.writer, htaken, fun _ => hqueue,
        h.sent.trans hsent.symm⟩
    · refine ⟨a, [], .refl, h.congr ?_ ?_ hsent⟩
      · simp [htx, hi, Ne.symm hki]
      · rw [hd, heq]
        exact setSession_other hki
  · have := hrun i hi
    simp [hw] at this

/-- The step lemma: what a step of the client is to the session that is shown. -/
theorem shows_step (hu : c.Upheld codec o) (h : Shows (c, o) k a) (hk : k < c.opened)
    (hstep : ClientStep codec c e c') (htime : EndsInTime (c, o) e y) : ∃ b es,
      (sessionSystem cfg codec link full).Run a es b ∧ Shows (c', o.observe e) k b := by
  have htask : ∀ {i s}, k ≠ i → Shows (c.setSession i s, o) k a := fun hki =>
    h.congr Iff.rfl (setSession_other hki) rfl
  have hmore : ∀ {i}, k = i → (c.sessions i).writer = true →
      (c.sessions i).taken < (c.sessions i).queued.length → a.writer = true ∧
        ∃ frame rest, a.queue = frame :: rest ∧
          rest = (c.sessions k).queued.drop ((c.sessions k).taken + 1) := by
    rintro _ rfl hw hlt
    have hw' : a.writer = true := h.writer.trans hw
    exact ⟨hw', _, _, (h.queue hw').trans (List.drop_eq_getElem_cons hlt), rfl⟩
  cases hstep with
  | connected hpos =>
    have htx : c.tx = none := htime
    have hne : k ≠ c.opened := Nat.ne_of_lt hk
    refine ⟨a, [], .refl, h.congr ?_ (connect_earlier hne) ?_⟩
    · simp [HubClient.connect, htx, hne.symm]
    · simp [observe_connected hu, hne, Outline.finish]
  | connectFailed | refused | writerJoined | disconnected =>
    exact ⟨a, [], .refl, h.congr Iff.rfl rfl rfl⟩
  | sent _ hok => exact shows_sent hu h hok
  | disconnect | drop => exact shows_close h htime (sendClose_fades c).1 rfl rfl
  | @write i hw hlt =>
    by_cases hki : k = i
    · obtain ⟨hw', frame, rest, hqueue, hrest⟩ := hmore hki hw hlt
      subst hki
      refine ⟨_, _, .single (.write hw' hqueue), h.tx, ?_, ?_, fun _ => ?_, h.sent⟩
      · simpa using h.writer
      · rw [setSession_same]
        exact hlt
      · simpa using hrest
    · exact ⟨a, [], .refl, htask hki⟩
  | @writeFailed i hw hlt =>
    by_cases hki : k = i
    · obtain ⟨hw', frame, rest, hqueue, hrest⟩ := hmore hki hw hlt
      subst hki
      refine ⟨_, _, .single (.writeFailed false hw' hqueue), h.tx, ?_, ?_,
        fun hleft => (Bool.false_ne_true hleft).elim, h.sent⟩
      · simp
      · rw [setSession_same]
        exact hlt
    · exact ⟨a, [], .refl, htask hki⟩
  | @writerEnded i hw htx hdrained =>
    by_cases hki : k = i
    · subst hki
      have hw' : a.writer = true := h.writer.trans hw
      have htx' : a.tx = false := by
        rw [Bool.eq_false_iff]
        exact fun hheld => htx (h.tx.mp hheld)
      have hqueue : a.queue = [] := by rw [h.queue hw', hdrained, List.drop_length]
      refine ⟨_, _, .single (.writerEnded hw' htx' hqueue), h.tx, ?_, ?_,
        fun hleft => (Bool.false_ne_true hleft).elim, h.sent⟩
      · simp
      · simpa using h.taken
    · exact ⟨a, [], .refl, htask hki⟩
  | @readerEnded i _ =>
    by_cases hki : k = i
    · subst hki
      exact ⟨a, [], .refl, h.tx, by simpa using h.writer, by simpa using h.taken,
        fun hw => by simpa using h.queue hw, h.sent⟩
    · exact ⟨a, [], .refl, htask hki⟩

theorem opened_step (h : ClientStep codec c e c') (hk : k < c'.opened) :
    k < c.opened ∨ k = c.opened ∧ e = .connected ∧ c' = c.connect := by
  cases h with
  | connected =>
    rcases Nat.lt_succ_iff_lt_or_eq.mp hk with hlt | heq
    · exact Or.inl hlt
    · exact Or.inr ⟨heq, rfl, rfl⟩
  | sent _ hok =>
    obtain ⟨i, msg, -, -, -, rfl⟩ := client_send_ok hok
    exact Or.inl hk
  | disconnect | drop => exact Or.inl ((sendClose_fades c).2.opened ▸ hk)
  | _ => exact Or.inl hk

theorem shows_connect (hu : c.Upheld codec o) :
    Shows (c.connect, o.observe .connected) c.opened (.start cfg : ClientSession V) := by
  refine ⟨iff_of_true rfl rfl, ?_, ?_, fun _ => ?_, ?_⟩
  · rw [connect_last]
    rfl
  · rw [connect_last]
    exact le_rfl
  · rw [connect_last]
    rfl
  · simp [observe_connected hu, ClientSession.start]

/-- The run lemma: where sessions end in time, each of them is a run of the model of a single
session. -/
theorem shows_run (h : ((callerSystem codec).restrict EndsInTime).Run
    (.build, ⟨0, fun _ => ⟨[], false⟩⟩) es y) : y.1.Upheld codec y.2 ∧ ∀ k < y.1.opened,
      ∃ b xs, (sessionSystem cfg codec link full).Run (.start cfg) xs b ∧ Shows y k b := by
  refine h.invariant (I := fun x => x.1.Upheld codec x.2 ∧ ∀ k < x.1.opened, ∃ b xs,
    (sessionSystem cfg codec link full).Run (.start cfg) xs b ∧ Shows x k b) ?_
    ⟨upheld_build, fun k hk => (Nat.not_lt_zero k hk).elim⟩
  rintro ⟨c, o⟩ e ⟨c', o'⟩ ⟨⟨hstep, rfl⟩, htime⟩ ⟨hu, hall⟩
  refine ⟨upheld_step hu hstep htime, fun k hk => ?_⟩
  rcases opened_step hstep hk with hold | ⟨rfl, rfl, rfl⟩
  · obtain ⟨a, xs, hrun, hs⟩ := hall k hold
    obtain ⟨b, ys, hmore, hs'⟩ := shows_step hu hs hold hstep htime
    exact ⟨b, xs ++ ys, hrun.append hmore, hs'⟩
  · exact ⟨_, [], .refl, shows_connect hu⟩

end AxumSignal

import AxumSignal.Cancellation
import AxumSignal.Connections
import AxumSignal.Deadlock
import AxumSignal.Presence

/-! When the tasks of a cancelled connection can go on without its peer: the locks of the store
are what a teardown can wait for, besides its writer. -/
namespace AxumSignal

open Transition Calls

variable {Req : Type} {decode : Message → Option Req} {s s' : Hub} {l : HubLabel} {c : ConnId}
  {conn : Conn} {pos : MainPos} {pc : Pc}

/-- A step of the serve task or of the writer of `c` for which its peer need not read or send. -/
def HubLabel.Own (c : ConnId) : HubLabel → Prop
  | .conn d e => d = c ∧ e.Own
  | .store t _ => t = .main c
  | _ => False

/-- Some step of the serve task or of the writer of `c` is enabled. -/
def Hub.CanMove (decode : Message → Option Req) (s : Hub) (c : ConnId) : Prop :=
  ∃ l s', l.Own c ∧ HubStep decode s l s'

/-- The clean-up of `c` is about to delete a group whose shard a call guards. -/
def Hub.Barred (s : Hub) (c : ConnId) : Prop := ∃ u, s.calls.Awaits (.main c) u

/-- The serve task of `c` waits for a writer that waits for its peer; or it waits for a shard
lock, and the writer has exited or waits for its peer. -/
def Hub.Stalled (s : Hub) (c : ConnId) : Prop :=
  ∃ conn, s.conns c = some conn ∧
    (s.calls.pc (.main c) = .idle ∧ (s.view c conn).AwaitsPeer ∨
      s.Barred c ∧ (conn.writer = .exited ∨ conn.Blocked))

theorem own_local {e : ConnEvent} (hown : e.Own) (hclosed : e ≠ .closed) : e.Local := by
  cases e <;> trivial

theorem barred_iff : s.Barred c ↔ ¬ s.calls.Granted (.main c) := by
  simp [Hub.Barred, granted_iff]

theorem Hub.Barred.not_idle (h : s.Barred c) : s.calls.pc (.main c) ≠ .idle := by
  obtain ⟨u, hw⟩ := h
  obtain ⟨group, hex⟩ := hw.exclusive
  intro hidle
  simp [hidle, Pc.exclusive] at hex

/-- A step of the connection is one of the hub while its serve task is in no call. -/
theorem conn_step {e : ConnEvent} {conn' : Conn} (hc : s.conns c = some conn)
    (hidle : s.calls.pc (.main c) = .idle) (hown : e.Own)
    (hstep : ConnStep decode (s.view c conn) e conn') : s.CanMove decode c := by
  by_cases hclosed : e = .closed
  · subst hclosed
    exact ⟨.conn c .closed, _, ⟨rfl, trivial⟩, .closed hc hidle hstep⟩
  · exact ⟨.conn c e, _, ⟨rfl, hown⟩, .conn hc (own_local hown hclosed) hidle hstep⟩

/-- The writer of a cancelled connection moves, whatever its serve task does. -/
theorem writer_step (hc : s.conns c = some conn) (hcancel : s.calls.shared.cancelled c = true)
    (hspawned : conn.writer ≠ .unspawned) (hexited : conn.writer ≠ .exited)
    (hblocked : ¬ conn.Blocked) : s.CanMove decode c := by
  obtain ⟨e, t, hown, hclosed, hstep, hmain, -⟩ :=
    writer_moves decode (s := s.view c conn) hcancel hspawned hexited hblocked
  exact ⟨.conn c e, _, ⟨rfl, hown⟩, .writer hc (own_local hown hclosed) hstep hmain⟩

/-- The calls of a serve task send nothing. -/
theorem calling_ne_wait {r : Receiver} (h : pos.Calling c pc) : pc ≠ .wait r := by
  rintro rfl
  cases pos with
  | removing => exact h.elim nofun id
  | _ => simp [MainPos.Calling] at h

/-- Only in its clean-up does a serve task need an exclusive lock. -/
theorem calling_exclusive {g : GroupName} (h : pos.Calling c pc) (hg : pc.exclusive = some g) :
    pos = .removing ∧ ∃ groups, pc = .cleanDelete c g groups (.removal c) := by
  cases pos with
  | removing =>
    refine ⟨rfl, ?_⟩
    rcases h with rfl | h
    · cases hg
    · cases pc with
      | cleanDelete =>
        obtain ⟨rfl, rfl⟩ := h
        cases hg
        exact ⟨_, rfl⟩
      | joinMembers => exact h.elim
      | _ => cases hg
  | registering => rcases h with rfl | rfl <;> cases hg
  | reading => rcases h with rfl | ⟨_, rfl⟩ | ⟨_, _, rfl⟩ <;> cases hg
  | onConnect | awaitWriter | onDisconnect | ended =>
    obtain rfl := h
    cases hg

/-- The call of a serve task goes on when the lock it needs is free. -/
theorem call_step (h : (hubSystem decode).Reachable Hub.Fresh s) (hpos : s.main c = some pos)
    (hbusy : s.calls.pc (.main c) ≠ .idle) (hfree : s.calls.Granted (.main c)) :
    ∃ e sh pc, Exec s.calls.shared (s.calls.pc (.main c)) e sh pc ∧
      HubStep decode s (.store (.main c) e) (s.goto (.main c) sh pc) := by
  have hcalling := ((registered_reachable h).served c).calling.at hpos
  obtain ⟨e, sh, pc, hx⟩ := exec_exists ((spares_reachable h).fits (.main c)) hbusy
    fun r hpc => (calling_ne_wait hcalling hpc).elim
  exact ⟨e, sh, pc, hx, .serve hfree hx⟩

/-- A step of its own that leaves the serve task where it is needs a writer that can move. -/
theorem writer_own {v v' : Conn} {e : ConnEvent} (hstep : ConnStep decode v e v') (hown : e.Own)
    (hmain : v'.main = v.main) (hw : v.writer = .exited ∨ v.Blocked) : False := by
  cases hstep with
  | @enqueued pos _ _ hmsg | @rejected pos _ _ hmsg => cases pos <;> simp_all [ReadPos.enqueuing]
  | _ => simp_all [ConnEvent.Own, Conn.Blocked]

/-- What a step of the tasks of `c` is. -/
inductive OwnStep (decode : Message → Option Req) (c : ConnId) (s : Hub) (conn : Conn) (s' : Hub) :
    Prop where
  | conn {e : ConnEvent} {conn' : Conn} (hown : e.Own) (hopen : e ≠ .closed)
      (hidle : s.calls.pc (.main c) = .idle ∨ conn'.main = conn.main)
      (hstep : ConnStep decode (s.view c conn) e conn') (hs' : s' = s.put c conn')
  | closed {conn' : Conn} (hidle : s.calls.pc (.main c) = .idle)
      (hstep : ConnStep decode (s.view c conn) .closed conn')
      (hs' : s' = (s.put c conn').calling c (.remove c))
  | call {e : Event} {sh : Shared} {pc : Pc} (hfree : s.calls.Granted (.main c))
      (hx : Exec s.calls.shared (s.calls.pc (.main c)) e sh pc) (hs' : s' = s.goto (.main c) sh pc)

theorem own_step (hc : s.conns c = some conn) (hown : l.Own c) (h : HubStep decode s l s') :
    OwnStep decode c s conn s' := by
  cases h with
  | @conn d conn₁ conn' e hd he hidle hstep =>
    obtain ⟨rfl, howne⟩ := hown
    obtain rfl : conn = conn₁ := Option.some.inj (hc.symm.trans hd)
    exact .conn howne (by rintro rfl; exact he) (Or.inl hidle) hstep rfl
  | @writer d conn₁ conn' e hd he hstep hmain =>
    obtain ⟨rfl, howne⟩ := hown
    obtain rfl : conn = conn₁ := Option.some.inj (hc.symm.trans hd)
    exact .conn howne (by rintro rfl; exact he) (Or.inr hmain) hstep rfl
  | @closed d conn₁ conn' hd hidle hstep =>
    obtain ⟨rfl, -⟩ := hown
    obtain rfl : conn = conn₁ := Option.some.inj (hc.symm.trans hd)
    exact .closed hidle hstep rfl
  | frame => exact hown.2.elim
  | @serve d e sh pc hfree hx =>
    obtain rfl : d = c := HubTask.main.inj hown
    exact .call hfree hx rfl
  | exec | panic => cases hown
  | accept | start | call | work | finish | drop => exact hown.elim

theorem Hub.Stalled.not_canMove (h : s.Stalled c) : ¬ s.CanMove decode c := by
  obtain ⟨conn, hc, hwait⟩ := h
  rintro ⟨l, s', hown, hstep⟩
  cases own_step hc hown hstep with
  | conn hown _ hidle hstep =>
    rcases hwait with ⟨-, hawaits⟩ | ⟨hbarred, hw⟩
    · exact hawaits.not_moves ⟨_, _, hown, hstep⟩
    · exact writer_own hstep hown (hidle.resolve_left hbarred.not_idle) hw
  | closed hidle hstep =>
    rcases hwait with ⟨-, hawaits⟩ | ⟨hbarred, -⟩
    · exact hawaits.not_moves ⟨.closed, _, trivial, hstep⟩
    · exact hbarred.not_idle hidle
  | call hfree hx =>
    rcases hwait with ⟨hidle, -⟩ | ⟨hbarred, -⟩
    · rw [hidle] at hx
      cases hx
    · exact barred_iff.mp hbarred hfree

theorem canMove_of_not_stalled (h : (hubSystem decode).Reachable Hub.Fresh s)
    (hpos : s.main c = some pos) (hcancel : s.calls.shared.cancelled c = true)
    (hd : ¬ pos.Disconnected) (hstall : ¬ s.Stalled c) : s.CanMove decode c := by
  obtain ⟨conn, hc, hmain⟩ : ∃ conn, s.conns c = some conn ∧ conn.main = pos := by
    simpa [Hub.main] using hpos
  have hwired := wired_reachable (conn_reachable h hc)
  by_cases hidle : s.calls.pc (.main c) = .idle
  · have hfree : ¬ (s.view c conn).AwaitsPeer := fun hawaits =>
      hstall ⟨conn, hc, Or.inl ⟨hidle, hawaits⟩⟩
    have hmoves : (s.view c conn).Moves decode :=
      (moves_iff hwired hcancel (hmain ▸ hd)).mpr hfree
    obtain ⟨e, t, hown, hstep⟩ := hmoves
    exact conn_step hc hidle hown hstep
  · by_cases hfree : s.calls.Granted (.main c)
    · obtain ⟨e, sh, pc, -, hstep⟩ := call_step h hpos hidle hfree
      exact ⟨.store (.main c) e, _, rfl, hstep⟩
    · have hbarred := barred_iff.mpr hfree
      have hspawned : conn.writer ≠ .unspawned := by
        obtain ⟨u, hw⟩ := hbarred
        obtain ⟨g, hex⟩ := hw.exclusive
        have hcalling := ((registered_reachable h).served c).calling.at hpos
        obtain ⟨rfl, -⟩ := calling_exclusive hcalling hex
        exact hwired.spawned.resolve_left (by simp [hmain])
      refine writer_step hc hcancel hspawned (fun hexited => ?_) fun hblocked => ?_
      · exact hstall ⟨conn, hc, Or.inr ⟨hbarred, Or.inl hexited⟩⟩
      · exact hstall ⟨conn, hc, Or.inr ⟨hbarred, Or.inr hblocked⟩⟩

/-- A cancelled connection before its `on_disconnect` can go on without its peer exactly if it is
not stalled: its serve task waits for no blocked writer, and for no shard lock beside a writer
that has exited or is blocked. -/
theorem canMove_iff (h : (hubSystem decode).Reachable Hub.Fresh s) (hpos : s.main c = some pos)
    (hcancel : s.calls.shared.cancelled c = true) (hd : ¬ pos.Disconnected) :
    s.CanMove decode c ↔ ¬ s.Stalled c :=
  ⟨fun hmove hstall => hstall.not_canMove hmove, canMove_of_not_stalled h hpos hcancel hd⟩

/-- A connection in its clean-up, whose peer has stopped reading while a Ping is sent to it. -/
structure Hub.Unread (s : Hub) (c : ConnId) (conn : Conn) : Prop where
  found : s.conns c = some conn
  main : conn.main = .removing
  blocked : conn.Blocked
  cancelled : s.calls.shared.cancelled c = true
  pc : s.calls.pc (.main c) = .cleanTake c (.removal c)
  groups : s.calls.shared.clients.connectionGroups.lookup c = none

theorem unread_run : ∃ (s : Hub) (conn : Conn),
    (hubSystem fun _ => (none : Option Unit)).Reachable Hub.Fresh s ∧ s.Unread "c" conn := by
  refine ⟨_, _, ⟨.start .block, hub_start_fresh .block, _,
    (opened_run (c := "c") 32 0 rfl rfl).append <|
    .step (.conn (c := "c") (e := .tick) rfl trivial rfl (.tick rfl)) <|
    .step (.conn (c := "c") (e := .enqueued) rfl trivial rfl (.enqueued rfl rfl rfl (by decide))) <|
    .step (.writer (c := "c") (e := .take) rfl trivial (.take rfl rfl) rfl) <|
    .step (.conn (c := "c") (e := .idle) rfl trivial rfl (.idle rfl)) <|
    .single (.closed (c := "c") rfl rfl (.closed rfl))⟩, rfl, rfl, ⟨rfl, rfl⟩, rfl, rfl,
    Finmap.lookup_empty _⟩

/-- In its clean-up such a connection goes on, even though its writer is blocked. -/
theorem canMove_unread : ∃ (s : Hub) (conn : Conn), s.Unread "c" conn ∧
    s.CanMove (fun _ => (none : Option Unit)) "c" := by
  obtain ⟨s, conn, hreach, hs⟩ := unread_run
  have hpos : s.main "c" = some .removing := by rw [Hub.main_of_conns hs.found, hs.main]
  refine ⟨s, conn, hs, (canMove_iff hreach hpos hs.cancelled id).mpr ?_⟩
  rintro ⟨-, -, ⟨hidle, -⟩ | ⟨⟨u, hw⟩, -⟩⟩
  · simp [hs.pc] at hidle
  · obtain ⟨g, hex⟩ := hw.exclusive
    simp [hs.pc, Pc.exclusive] at hex

/-- A client that stops reading: its writer is in `sink.send`, the read loop ends with the idle
timeout, and the teardown waits for the writer for as long as the client pleases. -/
theorem slow_client_stuck : ∃ s : Hub,
    (hubSystem fun _ => (none : Option Unit)).Reachable Hub.Fresh s ∧
      s.main "c" = some .awaitWriter ∧ s.calls.shared.cancelled "c" = true ∧
      ¬ s.CanMove (fun _ => (none : Option Unit)) "c" := by
  obtain ⟨s, conn, hreach, hs⟩ := unread_run
  let s₁ := s.goto (.main "c") s.calls.shared (.removeEntry "c")
  let s₂ := s₁.goto (.main "c") (s.calls.shared.set
    (s.calls.shared.clients.removeConnection "c")) .idle
  let conn' := { s₂.view "c" conn with main := .awaitWriter }
  have htake : HubStep (fun _ => (none : Option Unit)) s (.store (.main "c") .access) s₁ :=
    .serve (granted_of_free (by simp [hs.pc, Pc.exclusive])) (hs.pc ▸ .cleanNothing hs.groups)
  have hpc₁ : s₁.calls.pc (.main "c") = .removeEntry "c" := goto_pc _ _ _ _
  have hentry : HubStep (fun _ => (none : Option Unit)) s₁ (.store (.main "c") .access) s₂ :=
    .serve (granted_of_free (by simp [hpc₁, Pc.exclusive])) (hpc₁ ▸ .removeEntry "c")
  have hremoved : HubStep (fun _ => (none : Option Unit)) s₂ (.conn "c" .removed)
      (s₂.put "c" conn') :=
    .conn hs.found trivial (goto_pc _ _ _ _) (.removed hs.main)
  refine ⟨_, hreach.extend (.step htake <| .step hentry <| .single hremoved), Hub.main_put,
    cancelled_put.trans hs.cancelled, ?_⟩
  have hawaits : ((s₂.put "c" conn').view "c" conn').AwaitsPeer := ⟨hs.blocked, Or.inl rfl⟩
  exact Hub.Stalled.not_canMove ⟨conn', by simp [Hub.put], Or.inl ⟨goto_pc _ _ _ _, hawaits⟩⟩

/-- A group with one member "c", which begins its clean-up with a blocked writer, while a
broadcast of another connection waits for room in its queue with the guard of the group. -/
theorem held_run : ∃ (s s' : Hub) (conn conn' : Conn),
    (hubSystem fun _ => some ()).Reachable Hub.Fresh s ∧ s.conns "c" = some conn ∧
      conn.main = .removing ∧ s.calls.shared.cancelled "c" = true ∧
    (hubSystem fun _ => some ()).Run s (List.replicate 4 (.store (.main "c") .access)) s' ∧
      s'.conns "c" = some conn' ∧ conn'.main = .removing ∧ conn'.Blocked ∧
      s'.calls.shared.cancelled "c" = true ∧
      s'.calls.pc (.main "c") = .cleanDelete "c" "g" [] (.removal "c") ∧
      (s'.calls.pc (.handler "d" 0)).guards = ["g"] := by
  let r : Receiver := .recipient 0 ⟨some "g", .text "news", []⟩
  refine ⟨_, _, _, _, ⟨.start .block, hub_start_fresh .block, _,
    (opened_run (c := "c") 1 0 rfl rfl).append <|
    .step (.frame (c := "c") (n := 0) none rfl rfl rfl (.frame (.text "join") rfl)) <|
    .step (.start (c := "c") (n := 0) rfl) <|
    .step (.call (c := "c") (n := 0) (.addToGroup "c" "g") rfl rfl trivial) <|
    .step (.exec (c := "c") (n := 0) rfl (granted_of_unguarded <| unguarded_update
      (unguarded_update (unguarded_update (fun _ => rfl) rfl) rfl) rfl)
      (.joinMembers "c" "g") (by simp)) <|
    .step (.exec (c := "c") (n := 0) rfl (granted_of_free rfl) (.joinGroups "c" "g") (by simp)) <|
    -- Two Pings: the writer is sending one, and the other one fills the queue.
    .step (.conn (c := "c") (e := .tick) rfl trivial rfl (.tick rfl)) <|
    .step (.conn (c := "c") (e := .enqueued) rfl trivial rfl (.enqueued rfl rfl rfl (by decide))) <|
    .step (.writer (c := "c") (e := .take) rfl trivial (.take rfl rfl) rfl) <|
    .step (.conn (c := "c") (e := .tick) rfl trivial rfl (.tick rfl)) <|
    .step (.conn (c := "c") (e := .enqueued) rfl trivial rfl (.enqueued rfl rfl rfl (by decide))) <|
    (opened_run (c := "d") 1 0 rfl rfl).append <|
    .step (.frame (c := "d") (n := 0) none rfl rfl rfl (.frame (.text "news") rfl)) <|
    .step (.start (c := "d") (n := 0) rfl) <|
    .step (.call (c := "d") (n := 0) (.broadcastGroup "g" (some (.text "news"))) rfl rfl trivial) <|
    .step (.exec (c := "d") (n := 0) rfl (granted_of_free rfl) (.groupFound .single rfl)
      (by simp)) <|
    .step (.exec (c := "d") (n := 0) rfl (granted_of_free rfl)
      (.scanGroup Nat.one_pos (yields_member _ _)) (by simp)) <|
    .step (.exec (c := "d") (n := 0) rfl (granted_of_free rfl) .lookupMember (by simp)) <|
    .step (.exec (c := "d") (n := 0) rfl (granted_of_free rfl) (.groupScanned le_rfl) (by simp)) <|
    .step (.exec (c := "d") (n := 0) rfl (granted_of_free rfl) .next (by simp)) <|
    .step (.exec (c := "d") (n := 0) rfl (granted_of_free rfl) (.suspend (r := r) rfl) (by simp)) <|
    .step (.conn (c := "c") (e := .idle) rfl trivial rfl (.idle rfl)) <|
    .single (.closed (c := "c") rfl rfl (.closed rfl))⟩, rfl, rfl, rfl,
    .step (.serve (c := "c") (granted_of_free rfl)
      (@Exec.cleanTaken _ "c" _ {"g"} ["g"] (by decide) (by simp) (by simp))) <|
    .step (.serve (c := "c") (granted_of_free rfl) (.cleanFound rfl)) <|
    .step (.serve (c := "c") (granted_of_free rfl) .cleanRemove) <|
    .single (.serve (c := "c") (granted_of_free rfl) (.cleanEmpty (by decide))),
    rfl, rfl, ⟨rfl, rfl⟩, rfl, rfl, rfl⟩

/-- That connection waits for the lock, with nothing left to do for its tasks. -/
theorem lock_holder_stuck : ∃ s : Hub, (hubSystem fun _ => some ()).Reachable Hub.Fresh s ∧
    s.main "c" = some .removing ∧ s.calls.shared.cancelled "c" = true ∧
      ¬ s.CanMove (fun _ => some ()) "c" := by
  obtain ⟨s, s', -, conn, hreach, -, -, -, hrun, hc, hmain, hblocked, hcancel, hpc, hguards⟩ :=
    held_run
  have hbarred : s'.Barred "c" :=
    ⟨.handler "d" 0, "g", by simp [hpc, Pc.exclusive], "g", by simp [hguards], rfl⟩
  exact ⟨s', hreach.extend hrun, by rw [Hub.main_of_conns hc, hmain], hcancel,
    Hub.Stalled.not_canMove ⟨conn, hc, Or.inr ⟨hbarred, Or.inr hblocked⟩⟩⟩

end AxumSignal

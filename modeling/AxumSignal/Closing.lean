import AxumSignal.Stalling

/-! How far a cancelled connection gets in its teardown by the steps of its own tasks, while the
other tasks stay where they are, and when these steps can bring it to its end. -/
namespace AxumSignal

open Transition Calls LTS

variable {Req : Type} {decode : Message → Option Req} {s s' : Hub} {l : HubLabel} {c : ConnId}
  {conn conn' : Conn} {pos : MainPos} {pc pc' : Pc} {sh sh' : Shared} {g : GroupName}
  {xs : List HubLabel} {v w : Conn}

/-- The hub, with the serve task and the writer of `c` taking all steps. -/
def ownSystem (decode : Message → Option Req) (c : ConnId) : LTS Hub HubLabel :=
  (hubSystem decode).restrict fun _ l _ => l.Own c

def WriterPos.effort : WriterPos → Nat
  | .sending => 2
  | .select => 1
  | .unspawned | .exited => 0

/-- How many steps a cancelled serve task is away from its end, apart from its calls. -/
def MainPos.effort : MainPos → Nat
  | .registering => 8
  | .onConnect | .reading (.sendPong _) | .reading .sendPing => 6
  | .reading .select => 5
  | .reading (.done _) => 4
  | .removing => 3
  | .awaitWriter => 2
  | .onDisconnect => 1
  | .ended => 0

/-- A bound on the accesses left to a call of a serve task. -/
def Pc.effort (s : InMemoryWsClients) : Pc → Nat
  | .cleanTake id _ => 4 * (s.connectionGroups.values id).card + 3
  | .cleanNext _ groups _ => 4 * groups.length + 2
  | .cleanRemove _ _ groups _ => 4 * groups.length + 5
  | .cleanCheck _ _ groups _ => 4 * groups.length + 4
  | .cleanDelete _ _ groups _ => 4 * groups.length + 3
  | .lookupState _ _ => 2
  | .insert _ _ _ _ | .record _ _ | .removeEntry _ => 1
  | _ => 0

/-- What is in the way of the writer of `c` and of its serve task past the read loop. -/
def Conn.effort (s : Conn) : Nat :=
  2 * (s.chan.queue.length + s.inbox.length) + s.writer.effort + s.main.effort

theorem MainPos.effort_le_iff {pos : MainPos} : pos.effort ≤ 3 ↔ pos.Closing := by
  cases pos with
  | reading pos => cases pos <;> simp [MainPos.effort, MainPos.Closing]
  | _ => simp [MainPos.effort, MainPos.Closing]

/-- The calls of a serve task are progress too, and leave the channels and the tokens alone. -/
theorem exec_effort {e : Event} (h : pos.Calling c pc) (hx : Exec sh pc e sh' pc') :
    pc'.effort sh'.clients < pc.effort sh.clients ∧ sh'.chans = sh.chans ∧
      sh'.cancelled = sh.cancelled := by
  have hremoving : pc.Removing c → pc'.effort sh'.clients < pc.effort sh.clients ∧
      sh'.chans = sh.chans ∧ sh'.cancelled = sh.cancelled := by
    intro hr
    cases hx with
    | removeEntry => exact ⟨Nat.one_pos, rfl, rfl⟩
    | @cleanTaken id k taken groups hl hnd hmem =>
      have hcard : groups.length = (sh.clients.connectionGroups.values id).card := by
        rw [SetMap.values_of_lookup hl, ← List.toFinset_card_of_nodup hnd]
        exact congrArg Finset.card (Finset.ext fun g => by simp [hmem])
      exact ⟨by simp only [Pc.effort, hcard]; omega, rfl, rfl⟩
    | cleanNothing | cleanDone =>
      obtain ⟨rfl, rfl⟩ := hr
      exact ⟨by simp only [Pc.effort, Cont.pc]; omega, rfl, rfl⟩
    | cleanFound | cleanMissing =>
      exact ⟨by simp only [Pc.effort, List.length_cons]; omega, rfl, rfl⟩
    | cleanRemove | cleanEmpty | cleanKept | cleanDelete =>
      exact ⟨by simp only [Pc.effort]; omega, rfl, rfl⟩
    | _ => exact hr.elim
  cases pos with
  | removing =>
    rcases h with rfl | h
    · cases hx
    · exact hremoving h
  | registering =>
    rcases h with rfl | rfl
    · cases hx
    · cases hx
      exact ⟨Nat.one_pos, rfl, rfl⟩
  | reading =>
    rcases h with rfl | ⟨rtt, rfl⟩ | ⟨h, rtt, rfl⟩
    · cases hx
    · cases hx <;> exact ⟨by simp [Pc.effort], rfl, rfl⟩
    · cases hx
      exact ⟨Nat.one_pos, rfl, rfl⟩
  | onConnect | awaitWriter | onDisconnect | ended =>
    obtain rfl := h
    cases hx

/-- A bound on the steps left to the tasks of `c` in its teardown. -/
def Hub.effort (s : Hub) (c : ConnId) (conn : Conn) : Nat :=
  (s.view c conn).effort + (s.calls.pc (.main c)).effort s.calls.shared.clients

/-- Nobody but `c` is a member of the group, so that its removal leaves the group empty. -/
def InMemoryWsClients.Empties (s : InMemoryWsClients) (c : ConnId) (g : GroupName) : Prop :=
  ∃ members, s.groupMembers.lookup g = some members ∧ ∀ d ∈ members, d = c

/-- The clean-up of `c` that has got this far goes on to delete the group, if nobody else changes
the store. -/
def Pc.Deletes (s : InMemoryWsClients) (c : ConnId) (g : GroupName) : Pc → Prop
  | .cleanTake _ _ => g ∈ s.connectionGroups.values c ∧ s.Empties c g
  | .cleanNext _ groups _ => g ∈ groups ∧ s.Empties c g
  | .cleanRemove _ group groups _ =>
    (g = group ∧ ∀ d ∈ s.groupMembers.values g, d = c) ∨ g ∈ groups ∧ s.Empties c g
  | .cleanCheck _ group groups _ =>
    (g = group ∧ s.groupMembers.values g = ∅) ∨ g ∈ groups ∧ s.Empties c g
  | .cleanDelete _ group groups _ => g = group ∨ g ∈ groups ∧ s.Empties c g
  | _ => False

/-- The teardown of `c`, once it comes to it, deletes the group. -/
def Hub.Deletes (s : Hub) (c : ConnId) (conn : Conn) (g : GroupName) : Prop :=
  (conn.main.Closing ∧ (s.calls.pc (.main c)).Deletes s.calls.shared.clients c g) ∨
    (¬ conn.main.Closing ∧ (Pc.cleanTake c (.removal c)).Deletes s.calls.shared.clients c g)

/-- Another call guards the shard of a group that the teardown of `c` has yet to delete. -/
def Hub.Locked (s : Hub) (c : ConnId) (conn : Conn) : Prop :=
  ∃ g, s.Deletes c conn g ∧ ∃ u, u ≠ .main c ∧ s.calls.Guards u g

/-- Taking `c` out of a group leaves open which groups its removal empties. -/
theorem empties_discard (s : InMemoryWsClients) (group : GroupName) :
    (s.setGroupMembers (s.groupMembers.discard group c)).Empties c g ↔ s.Empties c g := by
  by_cases hg : g = group
  · subst hg
    have herase (members : Finset ConnId) :
        (∀ d, ¬ d = c → d ∈ members → d = c) ↔ ∀ d ∈ members, d = c :=
      ⟨fun h d hd => by_contra fun hne => hne (h d hne hd), fun h d _ => h d⟩
    simp [InMemoryWsClients.Empties, SetMap.lookup_discard_self, herase]
  · simp [InMemoryWsClients.Empties, SetMap.lookup_discard_ne hg]

theorem empties_erase (s : InMemoryWsClients) {group : GroupName} (hg : g ≠ group) :
    (s.setGroupMembers (s.groupMembers.erase group)).Empties c g ↔ s.Empties c g := by
  simp [InMemoryWsClients.Empties, Finmap.lookup_erase_ne hg]

theorem values_discard_empty (m : SetMap GroupName ConnId) :
    (m.discard g c).values g = ∅ ↔ ∀ d ∈ m.values g, d = c := by
  simp only [Finset.eq_empty_iff_forall_notMem, SetMap.mem_values_discard]
  grind

/-- An access of the clean-up keeps to its plan, apart from the group it deletes. -/
theorem exec_deletes {e : Event} (h : pc.Removing c) (hx : Exec sh pc e sh' pc')
    (hg : ∀ group ∈ pc.exclusive, g ≠ group) :
    pc'.Deletes sh'.clients c g ↔ pc.Deletes sh.clients c g := by
  cases hx with
  | removeEntry => exact Iff.rfl
  | @cleanTaken id k taken groups hl hnd hmem =>
    obtain ⟨rfl, -⟩ := h
    simp [Pc.Deletes, SetMap.values_of_lookup hl, hmem, InMemoryWsClients.Empties, Shared.set]
  | cleanNothing hl =>
    obtain ⟨rfl, rfl⟩ := h
    simp [Pc.Deletes, Cont.pc, SetMap.values_of_lookup_none hl]
  | cleanDone =>
    obtain ⟨rfl, rfl⟩ := h
    simp [Pc.Deletes, Cont.pc]
  | @cleanFound id group groups k members hl =>
    have hfound : g = group →
        ((∀ d ∈ sh.clients.groupMembers.values g, d = c) ↔ sh.clients.Empties c g) := by
      rintro rfl
      simp [InMemoryWsClients.Empties, SetMap.values_of_lookup hl, hl]
    simp only [Pc.Deletes, List.mem_cons]
    rw [or_and_right, and_congr_right hfound]
  | @cleanMissing id group groups k hl =>
    have hmissing : g = group → ¬ sh.clients.Empties c g := by
      rintro rfl
      simp [InMemoryWsClients.Empties, hl]
    simp only [Pc.Deletes, List.mem_cons]
    tauto
  | @cleanRemove id group groups k =>
    obtain ⟨rfl, -⟩ := h
    have hhead : g = group → ((sh.clients.groupMembers.discard group id).values g = ∅ ↔
        ∀ d ∈ sh.clients.groupMembers.values g, d = id) := by
      rintro rfl
      exact values_discard_empty _
    simp only [Pc.Deletes, Shared.set, empties_discard]
    exact or_congr_left (and_congr_right hhead)
  | @cleanEmpty id group groups k hempty =>
    have hhead : g = group → sh.clients.groupMembers.values g = ∅ := by
      rintro rfl
      exact hempty
    simp only [Pc.Deletes]
    tauto
  | @cleanKept id group groups k hkept =>
    have hhead : g = group → sh.clients.groupMembers.values g ≠ ∅ := by
      rintro rfl
      exact hkept
    simp only [Pc.Deletes]
    tauto
  | @cleanDelete id group groups k =>
    have hne : g ≠ group := hg group rfl
    simp only [Pc.Deletes, Shared.set, empties_erase _ hne]
    tauto
  | _ => exact h.elim

/-- The calls of a serve task before its teardown are about its registration only. -/
theorem exec_outside {e : Event} (h : pos.Calling c pc) (hopen : ¬ pos.Closing)
    (hx : Exec sh pc e sh' pc') : sh'.clients.groupMembers = sh.clients.groupMembers ∧
      sh'.clients.connectionGroups = sh.clients.connectionGroups := by
  cases pos with
  | registering =>
    rcases h with rfl | rfl
    · cases hx
    · cases hx
      exact ⟨rfl, rfl⟩
  | reading =>
    rcases h with rfl | ⟨rtt, rfl⟩ | ⟨h, rtt, rfl⟩
    · cases hx
    · cases hx <;> exact ⟨rfl, rfl⟩
    · cases hx
      exact ⟨rfl, rfl⟩
  | onConnect =>
    obtain rfl := h
    cases hx
  | _ => exact (hopen trivial).elim

/-- In its teardown the only call of a serve task is the clean-up. -/
theorem calling_removing {e : Event} (h : pos.Calling c pc) (hclosing : pos.Closing)
    (hx : Exec sh pc e sh' pc') : pc.Removing c := by
  cases pos with
  | removing =>
    rcases h with rfl | h
    · cases hx
    · exact h
  | awaitWriter | onDisconnect | ended =>
    obtain rfl := h
    cases hx
  | _ => exact hclosing.elim

/-- Apart from `closed`, no step of the connection begins its teardown. -/
theorem conn_closing {e : ConnEvent} (hopen : e ≠ .closed) (h : ConnStep decode v e w) :
    w.main.Closing ↔ v.main.Closing := by
  cases h <;> simp_all [MainPos.Closing]

/-- A writer that waits for its peer takes no step of its own. -/
theorem conn_blocked {e : ConnEvent} (hb : v.Blocked) (hown : e.Own) (hj : v.Joined)
    (h : ConnStep decode v e w) : w.Blocked := by
  obtain ⟨hsending, hwindow⟩ := hb
  cases h with
  | registered hpos => simp [hj.unspawned hpos] at hsending
  | take hpos | receive hpos | lagged _ hpos | stopped hpos => simp [hpos] at hsending
  | sent _ hn => simp [hn] at hwindow
  | sinkError | sourceClosed | pushed | published | cancelled | peerReads => exact hown.elim
  | _ => exact ⟨hsending, hwindow⟩

theorem guards_ne {u : HubTask} (hu : u ≠ .main c)
    (hshard : sh.clients.shard = s.calls.shared.clients.shard) :
    (s.goto (.main c) sh pc).calls.Guards u g ↔ s.calls.Guards u g := by
  simp [Guards, goto_pc_ne _ hu, hshard]

/-- No step of its own tasks changes what the teardown of `c` is to wait for. -/
theorem own_locked (h : (hubSystem decode).Reachable Hub.Fresh s) (hc : s.conns c = some conn)
    (hown : l.Own c) (hstep : HubStep decode s l s') : ∃ conn', s'.conns c = some conn' ∧
      (s'.Locked c conn' ↔ s.Locked c conn) ∧ (conn.Blocked → conn'.Blocked) := by
  have hjoined := joined_reachable (conn_reachable h hc)
  have hcalling := ((registered_reachable h).served c).calling.at (Hub.main_of_conns hc)
  cases own_step hc hown hstep with
  | @conn e conn' howne hopen _ hconn hs' =>
    subst hs'
    have hclosing := conn_closing hopen hconn
    refine ⟨conn', by simp [Hub.put], ?_,
      fun hb => conn_blocked (v := s.view c conn) hb howne hjoined hconn⟩
    simp only [Hub.Locked, Hub.Deletes, hclosing]
    rfl
  | @closed conn' hidle hconn hs' =>
    subst hs'
    obtain ⟨⟨pos, hpos⟩, hpos'⟩ := closed_main hconn
    have hpos₀ : conn.main = .reading pos := hpos
    refine ⟨conn', by simp [Hub.put, Hub.calling, Hub.goto], ?_,
      fun hb => conn_blocked (v := s.view c conn) (e := .closed) hb trivial hjoined hconn⟩
    refine exists_congr fun g => and_congr ?_ (exists_congr fun u => and_congr_right fun hu => ?_)
    · simp [Hub.Deletes, hpos₀, hpos', MainPos.Closing, Op.start]
    · exact guards_ne hu rfl
  | @call e sh pc hfree hx hs' =>
    subst hs'
    refine ⟨conn, hc, exists_congr fun g => ?_, id⟩
    have hshard := (exec_persists hx).shard
    have hguards : (∃ u, u ≠ .main c ∧ (s.goto (.main c) sh pc).calls.Guards u g) ↔
        ∃ u, u ≠ .main c ∧ s.calls.Guards u g :=
      exists_congr fun u => and_congr_right fun hu => guards_ne hu hshard
    rw [hguards]
    refine and_congr_left fun hguarded => ?_
    obtain ⟨u, _, g', hg', hsame⟩ := hguarded
    by_cases hclosing : conn.main.Closing
    · have hkept := exec_deletes (calling_removing hcalling hclosing hx) hx (g := g) <| by
        rintro group hgroup rfl
        exact hfree g hgroup u g' hg' hsame
      simpa [Hub.Deletes, hclosing] using hkept
    · obtain ⟨hmembers, hgroups⟩ := exec_outside hcalling hclosing hx
      simp [Hub.Deletes, hclosing, Pc.Deletes, InMemoryWsClients.Empties, hmembers, hgroups]

/-- What is left to do for the tasks of `c` until its end, if its writer takes nothing more. -/
def Hub.ahead (s : Hub) (c : ConnId) (conn : Conn) : Nat :=
  conn.main.effort + conn.writer.effort + (s.calls.pc (.main c)).effort s.calls.shared.clients +
    if conn.main.effort ≤ 3 then 0
    else 4 * (s.calls.shared.clients.connectionGroups.values c).card + 3

variable (decode) in
/-- A cancelled connection with a free writer can come closer to its end. -/
theorem conn_ahead (hs : v.Wired) (hj : v.Joined) (hcancel : v.cancelled = true)
    (hb : ¬ v.Blocked) (hend : v.main ≠ .ended) : ∃ e w, e.Own ∧ ConnStep decode v e w ∧
      w.cancelled = true ∧ ¬ w.Blocked ∧
        w.main.effort + w.writer.effort < v.main.effort + v.writer.effort := by
  by_cases hregistering : v.main = .registering
  · refine ⟨.registered, _, trivial, .registered hregistering, hcancel, by simp [Conn.Blocked], ?_⟩
    simp [hregistering, hj.unspawned hregistering, MainPos.effort, WriterPos.effort]
  have hspawned := hs.spawned.resolve_left hregistering
  by_cases hexited : v.writer = .exited
  · have hfree : ∀ {w : Conn}, w.writer = v.writer → ¬ w.Blocked := by
      rintro w hw ⟨hsending, -⟩
      simp [hw, hexited] at hsending
    cases hmain : v.main with
    | registering => exact (hregistering hmain).elim
    | onConnect =>
      exact ⟨.connected, _, trivial, .connected hmain, hcancel, hfree rfl, by simp [MainPos.effort]⟩
    | reading pos =>
      cases pos with
      | select =>
        exact ⟨.observed, _, trivial, .observed hmain hcancel, hcancel, hfree rfl,
          by simp [MainPos.effort]⟩
      | sendPong | sendPing =>
        exact ⟨.rejected, _, trivial, .rejected hmain rfl (hs.closed hexited), hcancel, hfree rfl,
          by simp [MainPos.effort]⟩
      | done =>
        exact ⟨.closed, _, trivial, .closed hmain, rfl, hfree rfl, by simp [MainPos.effort]⟩
    | removing =>
      exact ⟨.removed, _, trivial, .removed hmain, hcancel, hfree rfl, by simp [MainPos.effort]⟩
    | awaitWriter =>
      exact ⟨.disconnected, _, trivial, .disconnected hmain hexited, hcancel, hfree rfl,
        by simp [MainPos.effort]⟩
    | onDisconnect =>
      exact ⟨.finished, _, trivial, .finished hmain, hcancel, hfree rfl, by simp [MainPos.effort]⟩
    | ended => exact (hend hmain).elim
  · obtain ⟨e, w, hown, -, hstep, hmain, hc, hw⟩ :=
      writer_moves decode hcancel hspawned hexited hb
    refine ⟨e, w, hown, hstep, hc.trans hcancel, ?_, ?_⟩
    · rintro ⟨hsending, -⟩
      rcases hw with ⟨-, hw⟩ | ⟨-, hw⟩ <;> simp [hw] at hsending
    · rcases hw with ⟨hv, hw⟩ | ⟨hv, hw⟩ <;> simp [hmain, hv, hw, WriterPos.effort]

/-- The step lemma: a cancelled connection that no peer and no guard is in the way of. -/
theorem own_ahead (h : (hubSystem decode).Reachable Hub.Fresh s) (hc : s.conns c = some conn)
    (hcancel : s.calls.shared.cancelled c = true) (hb : ¬ conn.Blocked)
    (hlocked : ¬ s.Locked c conn) (hend : conn.main ≠ .ended) :
    ∃ l s' conn', l.Own c ∧ HubStep decode s l s' ∧ s'.conns c = some conn' ∧
      s'.calls.shared.cancelled c = true ∧ ¬ conn'.Blocked ∧
        s'.ahead c conn' < s.ahead c conn := by
  have hpos := Hub.main_of_conns hc
  have hlived := conn_reachable h hc
  have hcalling := ((registered_reachable h).served c).calling.at hpos
  by_cases hidle : s.calls.pc (.main c) = .idle
  · obtain ⟨e, w, hown, hstep, hw, hfree, hless⟩ :=
      conn_ahead decode (wired_reachable hlived) (joined_reachable hlived) hcancel hb
        hend
    by_cases hclosed : e = .closed
    · subst hclosed
      refine ⟨.conn c .closed, _, w, ⟨rfl, trivial⟩, .closed hc hidle hstep,
        by simp [Hub.put, Hub.calling, Hub.goto], cancelled_put.trans hw, hfree, ?_⟩
      obtain ⟨⟨pos, hreading⟩, hremoving⟩ := closed_main hstep
      have hopen : ¬ conn.main.effort ≤ 3 := by
        rw [MainPos.effort_le_iff, show conn.main = .reading pos from hreading]
        exact id
      have hclosing : w.main.effort ≤ 3 := MainPos.effort_le_iff.mpr (hremoving ▸ trivial)
      simp only [Hub.ahead, hopen, hclosing, hidle, Hub.calls_calling, goto_pc, goto_shared,
        Hub.clients_put, Op.start, Pc.effort, if_true, if_false]
      exact Nat.add_lt_add_right hless _
    · refine ⟨.conn c e, _, w, ⟨rfl, hown⟩, .conn hc (own_local hown hclosed) hidle hstep,
        by simp [Hub.put], cancelled_put.trans hw, hfree, ?_⟩
      have hclosing := conn_closing hclosed hstep
      simp only [← MainPos.effort_le_iff] at hclosing
      simp only [Hub.ahead, hclosing, Hub.pc_put, Hub.clients_put]
      exact Nat.add_lt_add_right (Nat.add_lt_add_right hless _) _
  · have hgranted : s.calls.Granted (.main c) := by
      intro group hex u g hg hsame
      obtain ⟨hmain, groups, hpc⟩ := calling_exclusive hcalling hex
      refine hlocked ⟨group, Or.inl ⟨hmain ▸ trivial, hpc ▸ Or.inl rfl⟩, u, ?_, g, hg, hsame⟩
      rintro rfl
      simp [hpc, Pc.guards, Cont.held] at hg
    obtain ⟨e, sh, pc, hx, hstep⟩ := call_step h hpos hidle hgranted
    obtain ⟨hless, -, hcancelled⟩ := exec_effort hcalling hx
    refine ⟨.store (.main c) e, _, conn, rfl, hstep, hc, ?_, hb, ?_⟩
    · exact (congrFun hcancelled c).trans hcancel
    · simp only [Hub.ahead, Hub.calls_goto, goto_pc, goto_shared]
      by_cases hclosing : conn.main.effort ≤ 3
      · simp only [hclosing, if_true]
        omega
      · obtain ⟨-, hgroups⟩ :=
          exec_outside hcalling (fun hm => hclosing (MainPos.effort_le_iff.mpr hm)) hx
        simp only [hclosing, if_false, hgroups]
        omega

/-- Where the tasks of a cancelled connection are left alone, they can bring it to its end exactly
if its writer is not blocked and no other call guards a group that its teardown deletes. -/
theorem ends_iff (h : (hubSystem decode).Reachable Hub.Fresh s) (hc : s.conns c = some conn)
    (hcancel : s.calls.shared.cancelled c = true) :
    (∃ xs s', (ownSystem decode c).Run s xs s' ∧ s'.main c = some .ended) ↔
      ¬ conn.Blocked ∧ ¬ s.Locked c conn := by
  constructor
  · clear hcancel
    rintro ⟨xs, s', hrun, hended⟩
    -- Its own steps leave it blocked or locked where it was so, and at its end it is neither.
    induction hrun generalizing conn with
    | @refl s =>
      have hmain : conn.main = .ended := Option.some.inj ((Hub.main_of_conns hc).symm.trans hended)
      have hidle : s.calls.pc (.main c) = .idle :=
        ((registered_reachable h).served c).calling.at hended
      have hexited : conn.writer = .exited :=
        (joined_reachable (conn_reachable h hc)).exited
          (show conn.main.Disconnected from hmain ▸ trivial)
      refine ⟨fun hb => by simp [hb.1] at hexited, ?_⟩
      rintro ⟨g, ⟨-, hdeletes⟩ | ⟨hopen, -⟩, -⟩
      · simp [hidle, Pc.Deletes] at hdeletes
      · exact hopen (hmain ▸ trivial)
    | @step s u s' l xs hstep hrun ih =>
      obtain ⟨hhub, hown⟩ := hstep
      obtain ⟨conn₁, hc₁, hlocked, hblocked⟩ := own_locked h hc hown hhub
      obtain ⟨hb, hl⟩ := ih (h.extend (.single hhub)) hc₁ hended
      exact ⟨fun hb₀ => hb (hblocked hb₀), fun hl₀ => hl (hlocked.mpr hl₀)⟩
  · rintro ⟨hb, hlocked⟩
    induction hn : s.ahead c conn using Nat.strong_induction_on generalizing s conn with
    | _ n ih =>
      by_cases hend : conn.main = .ended
      · exact ⟨[], s, .refl, by rw [Hub.main_of_conns hc, hend]⟩
      obtain ⟨l, s₁, conn₁, hown, hstep, hc₁, hcancel₁, hb₁, hless⟩ :=
        own_ahead h hc hcancel hb hlocked hend
      obtain ⟨conn₂, hc₂, hkept, -⟩ := own_locked h hc hown hstep
      obtain rfl : conn₁ = conn₂ := Option.some.inj (hc₁.symm.trans hc₂)
      obtain ⟨xs, s', hrun, hended⟩ := ih _ (hn ▸ hless) (h.extend (.single hstep)) hc₁ hcancel₁ hb₁
        (fun hl => hlocked (hkept.mp hl)) rfl
      exact ⟨l :: xs, s', .step ⟨hstep, hown⟩ hrun, hended⟩

/-- The last member of a group deletes it and comes to its end. -/
theorem ends_member : ∃ (s : Hub) (conn : Conn), s.LastMember "c" conn "g" ∧
    s.Deletes "c" conn "g" ∧
      ∃ xs s', (ownSystem (fun _ => some ()) "c").Run s xs s' ∧ s'.main "c" = some .ended := by
  obtain ⟨s, conn, ⟨s₀, h0, xs, hrun⟩, hs⟩ := lastMember_run
  refine ⟨s, conn, hs, Or.inl ⟨hs.main ▸ trivial, ?_⟩,
    (ends_iff ⟨s₀, h0, xs, hrun.of_restrict⟩ hs.found hs.cancelled).mpr
      ⟨by simp [Conn.Blocked, hs.writer], ?_⟩⟩
  · rw [hs.pc]
    exact ⟨by simp [SetMap.values_of_lookup hs.lists], {"c"}, hs.members, by simp⟩
  · rintro ⟨g, -, u, hu, g', hg', -⟩
    simp [hs.others u hu, Pc.guards] at hg'

end AxumSignal

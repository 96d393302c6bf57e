import AxumSignal.HubFacts

/-! One connection served while no other task takes a step, from its `add` call to the call
of `on_disconnect`: such a run exists in every hub without groups. -/
namespace AxumSignal

open Transition Calls

variable {Req : Type} {decode : Message → Option Req} {s s' : Hub} {c : ConnId} {n : Nat}
  {e : Event} {pc pc' : Pc} {sh : Shared} {pos pos' : MainPos} {w w' : WriterPos}
  {hs : ConnId → Nat → Option HandlerPos}

/-- A hub before its first connection. -/
def Hub.start (policy : BroadcastPolicy) : Hub where
  calls := ⟨⟨.new policy fun _ => 0, fun _ => ⟨1, [], false⟩, fun _ => false⟩, fun _ => .idle⟩
  conns _ := none
  handlers _ _ := none

theorem hub_start_fresh (policy : BroadcastPolicy) : (Hub.start policy).Fresh :=
  ⟨⟨⟨policy, _, rfl⟩, fun _ => rfl⟩, fun _ => rfl, fun _ _ => rfl⟩

/-- The hub after `c` has been accepted and registered, with `c` in its read loop. -/
def Hub.opened (s : Hub) (c : ConnId) (capacity window : Nat) : Hub :=
  let conn : Conn := ⟨.registering, .unspawned, ⟨capacity, [], false⟩, [], false, window⟩
  let accepted := (s.put c conn).calling c (.add c c c c)
  let added := accepted.goto (.main c)
    (accepted.calls.shared.set (accepted.calls.shared.clients.insertConnection c c c c)) .idle
  added.put c { conn with main := .reading .select, writer := .select }

theorem opened_run (capacity window : Nat) (hnew : s.conns c = none)
    (hidle : s.calls.pc (.main c) = .idle) :
    (hubSystem decode).Run s [.accept c, .store (.main c) .access, .conn c .registered,
      .conn c .connected] (s.opened c capacity window) := by
  let conn : Conn := ⟨.registering, .unspawned, ⟨capacity, [], false⟩, [], false, window⟩
  let entering : Conn := { conn with main := .onConnect, writer := .select }
  let accepted := (s.put c conn).calling c (.add c c c c)
  let added := accepted.goto (.main c)
    (accepted.calls.shared.set (accepted.calls.shared.clients.insertConnection c c c c)) .idle
  have hpc : accepted.calls.pc (.main c) = .insert c c c c := goto_pc _ _ _ _
  have hinsert : HubStep decode accepted (.store (.main c) .access) added :=
    .serve (granted_of_free (by simp [hpc, Pc.exclusive])) (hpc ▸ .insert c c c c)
  have hview : added.view c conn = conn := Hub.view_put_self
  have hregistered : ConnStep decode (added.view c conn) .registered entering := by
    rw [hview]
    exact .registered rfl
  have hconnected : ConnStep decode ((added.put c entering).view c entering) .connected
      { entering with main := .reading .select } := by
    rw [Hub.view_put_self]
    exact .connected rfl
  have hlast : HubStep decode (added.put c entering) (.conn c .connected)
      ((added.put c entering).put c { entering with main := .reading .select }) :=
    .conn (Function.update_self ..) (by trivial) (goto_pc _ _ _ _) hconnected
  rw [Hub.put_put] at hlast
  exact .step (.accept capacity window hnew hidle) <| .step hinsert <|
    .step (.conn (Function.update_self ..) (by trivial) (goto_pc _ _ _ _) hregistered) <|
    .single hlast

/-- There are no groups, only the serve task of `c` is in a call, and the handlers are `hs`. -/
structure Hub.Solo (s : Hub) (c : ConnId) (hs : ConnId → Nat → Option HandlerPos) : Prop where
  members : s.calls.shared.clients.groupMembers = ∅
  groups : s.calls.shared.clients.connectionGroups = ∅
  others : ∀ t, t ≠ .main c → s.calls.pc t = .idle
  handlers : s.handlers = hs

/-- The serve task of `c` is at `pos` in the call `pc`, its writer at `w`. -/
structure Hub.At (s : Hub) (c : ConnId) (pos : MainPos) (w : WriterPos) (pc : Pc) : Prop where
  conn : ∃ conn, s.conns c = some conn ∧ conn.main = pos ∧ conn.writer = w
  cancelled : pos.Closing → s.calls.shared.cancelled c = true
  pc : s.calls.pc (.main c) = pc

theorem Hub.At.main (h : s.At c pos w pc) : s.main c = some pos := by
  obtain ⟨conn, hc, hmain, _⟩ := h.conn
  rw [Hub.main_of_conns hc, hmain]

/-- The hub with only the serve task of `c` in a call, and no handler taking a step. -/
def soloSystem (decode : Message → Option Req) (c : ConnId)
    (hs : ConnId → Nat → Option HandlerPos) : LTS Hub HubLabel :=
  (hubSystem decode).restrict fun s _ _ => s.Solo c hs ∧
    ∀ g, s.calls.pc (.main c) ≠ .joinMembers c g ∧ s.calls.pc (.main c) ≠ .joinGroups c g

theorem solo_start (policy : BroadcastPolicy) (c : ConnId) :
    (Hub.start policy).Solo c fun _ _ => none :=
  ⟨rfl, rfl, fun _ _ => rfl, rfl⟩

theorem Hub.Solo.goto (h : s.Solo c hs) (hm : sh.clients.groupMembers = ∅)
    (hg : sh.clients.connectionGroups = ∅) (pc : Pc) : (s.goto (.main c) sh pc).Solo c hs where
  members := hm
  groups := hg
  others t ht := by rw [Hub.calls_goto, goto_pc_ne _ ht, h.others t ht]
  handlers := h.handlers

theorem Hub.Solo.put (h : s.Solo c hs) (conn : Conn) : (s.put c conn).Solo c hs :=
  ⟨h.members, h.groups, h.others, h.handlers⟩

theorem at_put {conn : Conn} (hcancel : conn.main.Closing → conn.cancelled = true)
    (hpc : s.calls.pc (.main c) = pc) : (s.put c conn).At c conn.main conn.writer pc :=
  ⟨⟨conn, by simp [Hub.put], rfl, rfl⟩, fun h => by simp [Hub.put, hcancel h], hpc⟩

theorem Hub.At.goto (h : s.At c pos w pc) (hcancel : sh.cancelled = s.calls.shared.cancelled)
    (pc' : Pc) : (s.goto (.main c) sh pc').At c pos w pc' :=
  ⟨h.conn, fun hclosing => hcancel ▸ h.cancelled hclosing, goto_pc _ _ _ _⟩

/-- A step of the connection that keeps its token. -/
theorem solo_conn (pos' : MainPos) (w' : WriterPos) {e : ConnEvent} (h : s.Solo c hs)
    (hat : s.At c pos w .idle) (he : e.Local)
    (hstep : ∀ conn, conn.main = pos → conn.writer = w → (pos.Closing → conn.cancelled = true) →
      ∃ conn', ConnStep decode conn e conn' ∧ conn'.main = pos' ∧ conn'.writer = w' ∧
        (pos'.Closing → conn'.cancelled = true)) :
    ∃ s', (soloSystem decode c hs).Tr s (.conn c e) s' ∧ s'.Solo c hs ∧ s'.At c pos' w' .idle := by
  obtain ⟨conn, hc, hmain, hwriter⟩ := hat.conn
  obtain ⟨conn', hconn, rfl, rfl, hcancel⟩ :=
    hstep (s.view c conn) hmain hwriter fun hclosing => hat.cancelled hclosing
  exact ⟨_, ⟨.conn hc he hat.pc hconn, h, by simp [hat.pc]⟩, h.put _, at_put hcancel hat.pc⟩

/-- An access of the call of the serve task. -/
theorem solo_access (h : s.Solo c hs) (hat : s.At c pos w pc) (hfree : pc.exclusive = none)
    (hjoin : ∀ g, pc ≠ .joinMembers c g ∧ pc ≠ .joinGroups c g)
    (hx : Exec s.calls.shared pc e sh pc') (hm : sh.clients.groupMembers = ∅)
    (hg : sh.clients.connectionGroups = ∅) (hcancel : sh.cancelled = s.calls.shared.cancelled) :
    ∃ s', (soloSystem decode c hs).Tr s (.store (.main c) e) s' ∧ s'.Solo c hs ∧
      s'.At c pos w pc' := by
  obtain rfl := hat.pc
  exact ⟨_, ⟨.serve (granted_of_free hfree) hx, h, hjoin⟩, h.goto hm hg _, hat.goto hcancel _⟩

/-- A connection is accepted and registered, and its hook returns. -/
theorem solo_opens (decode : Message → Option Req) (h : s.Solo c hs) (hnew : s.conns c = none)
    (hidle : s.calls.pc (.main c) = .idle) :
    ∃ xs s', (soloSystem decode c hs).Run s xs s' ∧ s'.Solo c hs ∧
      s'.At c (.reading .select) .select .idle := by
  let conn₀ : Conn := ⟨.registering, .unspawned, ⟨1, [], false⟩, [], false, 0⟩
  let s₁ := (s.put c conn₀).goto (.main c) (s.put c conn₀).calls.shared (.insert c c c c)
  have hs₁ : s₁.Solo c hs := (h.put conn₀).goto (h.put conn₀).members (h.put conn₀).groups _
  have hat₁ : s₁.At c .registering .unspawned (.insert c c c c) :=
    (at_put False.elim hidle).goto rfl _
  have hadd : (soloSystem decode c hs).Tr s (.accept c) s₁ :=
    ⟨.accept 1 0 hnew hidle, h, by simp [hidle]⟩
  obtain ⟨s₂, hinsert, hs₂, hat₂⟩ := solo_access hs₁ hat₁ rfl (by simp)
    (.insert c c c c) hs₁.members hs₁.groups rfl
  obtain ⟨s₃, hregistered, hs₃, hat₃⟩ := solo_conn .onConnect .select (e := .registered)
    hs₂ hat₂ trivial fun conn hmain _ _ => ⟨_, .registered hmain, rfl, rfl, False.elim⟩
  obtain ⟨s₄, hconnected, hs₄, hat₄⟩ := solo_conn (.reading .select) .select (e := .connected)
    hs₃ hat₃ trivial fun conn hmain hwriter _ => ⟨_, .connected hmain, rfl, hwriter, False.elim⟩
  exact ⟨_, s₄, .step hadd <| .step hinsert <| .step hregistered <| .single hconnected, hs₄, hat₄⟩

/-- A reading connection is closed by its peer and torn down. -/
theorem solo_closes (h : s.Solo c hs) (hat : s.At c (.reading .select) .select .idle) :
    ∃ xs s', (soloSystem decode c hs).Run s (xs ++ [.conn c .disconnected]) s' ∧ s'.Solo c hs ∧
      s'.At c .onDisconnect .exited .idle := by
  obtain ⟨s₁, hended, hs₁, hat₁⟩ := solo_conn (.reading (.done .streamClosed)) .select
    (e := .streamClosed) h hat trivial fun conn hmain hwriter _ =>
      ⟨_, .streamClosed hmain, rfl, hwriter, False.elim⟩
  obtain ⟨conn, hc, hmain, hwriter⟩ := hat₁.conn
  let conn₂ := { s₁.view c conn with main := .removing, cancelled := true }
  let s₂ := (s₁.put c conn₂).goto (.main c) (s₁.put c conn₂).calls.shared
    (.cleanTake c (.removal c))
  have hs₂ : s₂.Solo c hs := (hs₁.put conn₂).goto (hs₁.put conn₂).members (hs₁.put conn₂).groups _
  have hat₂ : s₂.At c .removing .select (.cleanTake c (.removal c)) :=
    hwriter ▸ (at_put (fun _ => rfl) hat₁.pc).goto rfl _
  have hclose : (soloSystem decode c hs).Tr s₁ (.conn c .closed) s₂ :=
    ⟨.closed hc hat₁.pc (.closed hmain), hs₁, by simp [hat₁.pc]⟩
  obtain ⟨s₃, htake, hs₃, hat₃⟩ := solo_access hs₂ hat₂ rfl (by simp)
    (.cleanNothing (by rw [hs₂.groups]; rfl)) hs₂.members hs₂.groups rfl
  obtain ⟨s₄, hentry, hs₄, hat₄⟩ := solo_access hs₃ hat₃ rfl (by simp [Cont.pc])
    (.removeEntry c) hs₃.members hs₃.groups rfl
  obtain ⟨s₅, hremoved, hs₅, hat₅⟩ := solo_conn .awaitWriter .select (e := .removed)
    hs₄ hat₄ trivial fun conn hmain hwriter hcancel =>
      ⟨_, .removed hmain, rfl, hwriter, hcancel⟩
  obtain ⟨s₆, hstopped, hs₆, hat₆⟩ := solo_conn .awaitWriter .exited (e := .stopped)
    hs₅ hat₅ trivial fun conn hmain hwriter hcancel =>
      ⟨_, .stopped hwriter (hcancel trivial), hmain, rfl, hcancel⟩
  obtain ⟨s₇, hdone, hs₇, hat₇⟩ := solo_conn .onDisconnect .exited (e := .disconnected)
    hs₆ hat₆ trivial fun conn hmain hwriter hcancel =>
      ⟨_, .disconnected hmain hwriter, rfl, hwriter, hcancel⟩
  have hrun : (soloSystem decode c hs).Run s _ s₆ :=
    .step hended <| .step hclose <| .step htake <| .step hentry <| .step hremoved <|
      .single hstopped
  exact ⟨_, s₇, hrun.snoc hdone, hs₇, hat₇⟩

/-- A frame spawns a handler. -/
theorem solo_frame {msg : Message} {req : Req} (h : s.Solo c hs)
    (hat : s.At c (.reading .select) .select .idle) (hnew : hs c n = none)
    (hmsg : handleFrame decode msg = .spawn req) :
    ∃ s', (hubSystem decode).Tr s (.conn c (.frame msg)) s' ∧
      s'.Solo c (Function.update hs c (Function.update (hs c) n (some .spawned))) ∧
      s'.At c (.reading .select) .select .idle := by
  obtain ⟨conn, hc, hmain, hwriter⟩ := hat.conn
  obtain rfl := h.handlers
  let conn' := { s.view c conn with main := .reading (handleFrame decode msg).pos }
  have hstep : HubStep decode s (.conn c (.frame msg))
      ((s.put c conn').handled c n none (handleFrame decode msg)) :=
    .frame none hc hat.pc hnew (.frame msg hmain)
  rw [hmsg] at hstep
  refine ⟨_, hstep, ⟨h.members, h.groups, h.others, rfl⟩, ⟨conn', ?_, ?_, hwriter⟩, False.elim,
    hat.pc⟩
  · simp [Hub.handled, Hub.setHandler, Hub.put]
  · simp [conn', hmsg, FrameAction.pos]

end AxumSignal

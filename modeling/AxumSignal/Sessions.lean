import AxumSignal.ClientSession

/-! A `HubClient` over any number of sessions: what is queued to the writer task of each, and
which tasks still run, against the results of its calls. -/
namespace AxumSignal

open Transition LTS

variable {E V : Type}

/-- What one successful `connect` has made: every frame ever queued to the writer task, how
many of them the task has taken, and which of the two tasks still run. -/
structure ClientTasks where
  queued : List TungMessage
  taken : Nat
  writer : Bool
  reader : Bool

/-- Where a client is; `disconnect` awaits the handle that it has taken. -/
inductive ClientPos where
  | idle
  | joinWriter (h : Option Nat)
  | joinReader (h : Option Nat)
  | dropped

/-- `HubClient`, with the sessions it has opened. A sender or a handle is the number of its
session. -/
structure HubClient where
  tx : Option Nat
  writer : Option Nat
  reader : Option Nat
  opened : Nat
  sessions : Nat → ClientTasks
  pos : ClientPos

namespace HubClient

variable (c : HubClient)

/-- `HubClientBuilder::build`. -/
def build : HubClient where
  tx := none
  writer := none
  reader := none
  opened := 0
  sessions _ := ⟨[], 0, false, false⟩
  pos := .idle

def setSession (k : Nat) (s : ClientTasks) : HubClient :=
  { c with sessions := Function.update c.sessions k s }

/-- `tx.send(frame)`, which fails once the writer task has dropped the receiver. -/
def push (k : Nat) (frame : TungMessage) : Option HubClient :=
  if (c.sessions k).writer then
    some (c.setSession k { c.sessions k with queued := (c.sessions k).queued ++ [frame] })
  else none

/-- `HubClient::connect`, once `connect_async` has succeeded. -/
def connect : HubClient :=
  { c with
    tx := some c.opened
    writer := some c.opened
    reader := some c.opened
    opened := c.opened + 1
    sessions := Function.update c.sessions c.opened ⟨[], 0, true, true⟩ }

/-- `HubClient::send`. -/
def send (codec : WsCodec E V) (value : V) : Except (ClientError E) HubClient :=
  match c.tx with
  | none => .error .disconnected
  | some k =>
    match codec.encode value with
    | .error error => .error (.encode error)
    | .ok msg =>
      match c.push k (axumToTung msg) with
      | none => .error .disconnected
      | some c' => .ok c'

/-- The sender is taken, and a Close frame sent through it; a failure is ignored. -/
def sendClose : HubClient :=
  match c.tx with
  | none => c
  | some k => { (c.push k (.close none)).getD c with tx := none }

/-- `HubClient::disconnect`, until it awaits the writer task. -/
def disconnect : HubClient :=
  { c.sendClose with writer := none, pos := .joinWriter c.writer }

/-- `HubClient::drop`, and the drop of the two handles. -/
def drop : HubClient :=
  { c.sendClose with writer := none, reader := none, pos := .dropped }

end HubClient

inductive ClientEvent (V : Type) where
  | connected
  | connectFailed
  | sent (value : V)
  | refused (value : V)
  | disconnect
  | writerJoined
  | disconnected
  | drop
  | write (k : Nat)
  | writeFailed (k : Nat)
  | writerEnded (k : Nat)
  | readerEnded (k : Nat)

/-- A step of the client, or of a task of one of its sessions. A writer task leaves over a
failed `sink.send`, or over a queue that is closed and drained; a reader task at any time. -/
inductive ClientStep (codec : WsCodec E V) : HubClient → ClientEvent V → HubClient → Prop where
  | connected {c : HubClient} (hpos : c.pos = .idle) : ClientStep codec c .connected c.connect
  | connectFailed {c : HubClient} (hpos : c.pos = .idle) : ClientStep codec c .connectFailed c
  | sent {c c' : HubClient} {value : V} (hpos : c.pos = .idle)
      (hok : c.send codec value = .ok c') : ClientStep codec c (.sent value) c'
  | refused {c : HubClient} {value : V} {error : ClientError E} (hpos : c.pos = .idle)
      (herror : c.send codec value = .error error) : ClientStep codec c (.refused value) c
  | disconnect {c : HubClient} (hpos : c.pos = .idle) :
      ClientStep codec c .disconnect c.disconnect
  | writerJoined {c : HubClient} {h : Option Nat} (hpos : c.pos = .joinWriter h)
      (hdone : ∀ k ∈ h, (c.sessions k).writer = false) :
      ClientStep codec c .writerJoined { c with reader := none, pos := .joinReader c.reader }
  | disconnected {c : HubClient} {h : Option Nat} (hpos : c.pos = .joinReader h)
      (hdone : ∀ k ∈ h, (c.sessions k).reader = false) :
      ClientStep codec c .disconnected { c with pos := .idle }
  | drop {c : HubClient} (hpos : c.pos = .idle) : ClientStep codec c .drop c.drop
  | write {c : HubClient} {k : Nat} (hwriter : (c.sessions k).writer = true)
      (hmore : (c.sessions k).taken < (c.sessions k).queued.length) :
      ClientStep codec c (.write k)
        (c.setSession k { c.sessions k with taken := (c.sessions k).taken + 1 })
  | writeFailed {c : HubClient} {k : Nat} (hwriter : (c.sessions k).writer = true)
      (hmore : (c.sessions k).taken < (c.sessions k).queued.length) :
      ClientStep codec c (.writeFailed k)
        (c.setSession k
          { c.sessions k with taken := (c.sessions k).taken + 1, writer := false })
  | writerEnded {c : HubClient} {k : Nat} (hwriter : (c.sessions k).writer = true)
      (htx : c.tx ≠ some k) (hdrained : (c.sessions k).taken = (c.sessions k).queued.length) :
      ClientStep codec c (.writerEnded k) (c.setSession k { c.sessions k with writer := false })
  | readerEnded {c : HubClient} {k : Nat} (hreader : (c.sessions k).reader = true) :
      ClientStep codec c (.readerEnded k) (c.setSession k { c.sessions k with reader := false })

/-- The system of one client. -/
def clientSystem (codec : WsCodec E V) : LTS HubClient (ClientEvent V) := ⟨ClientStep codec⟩

/-- A session as the caller sees it: the values of the calls of `send` that returned `Ok`
during it, and whether it is over. -/
structure Outline (V : Type) where
  sent : List V
  ended : Bool

def Outline.finish (o : Outline V) : Outline V := { o with ended := true }

/-- All sessions as the caller sees them. -/
structure Outlines (V : Type) where
  opened : Nat
  outline : Nat → Outline V

/-- A successful `connect` opens a session and ends the one before, a `disconnect` or the drop
ends the last one. -/
def Outlines.observe (o : Outlines V) : ClientEvent V → Outlines V
  | .connected =>
    { opened := o.opened + 1
      outline := Function.update (fun k => (o.outline k).finish) o.opened ⟨[], false⟩ }
  | .sent value =>
    { o with
      outline := Function.update o.outline (o.opened - 1)
        { o.outline (o.opened - 1) with sent := (o.outline (o.opened - 1)).sent ++ [value] } }
  | .disconnect | .drop => { o with outline := fun k => (o.outline k).finish }
  | _ => o

/-- The client beside its caller. -/
def callerSystem (codec : WsCodec E V) : LTS (HubClient × Outlines V) (ClientEvent V) :=
  (clientSystem codec).watch Outlines.observe

/-- What is queued are the encodings of the values sent, and one Close if the session is over. -/
def ClientTasks.Matches (codec : WsCodec E V) (s : ClientTasks) (o : Outline V) : Prop :=
  ∃ msgs, o.sent.mapM codec.encode = .ok msgs ∧
    s.queued = msgs.map axumToTung ++ if o.ended then [.close none] else []

/-- No task of any session runs. -/
def HubClient.Stopped (c : HubClient) : Prop :=
  ∀ k < c.opened, (c.sessions k).writer = false ∧ (c.sessions k).reader = false

/-- What a step promises: every session is queued what its outline tells, a failed `connect`
changes nothing, and a `disconnect` returns once no task runs. -/
structure Honours (codec : WsCodec E V) (x : HubClient × Outlines V) (e : ClientEvent V)
    (y : HubClient × Outlines V) : Prop where
  queued : ∀ k < y.2.opened, (y.1.sessions k).Matches codec (y.2.outline k)
  untouched : e = .connectFailed → y.1 = x.1
  joined : e = .disconnected → y.1.Stopped

/-- No session is replaced while its sender is held, and none is ended after its writer task
has left. -/
def EndsInTime (x : HubClient × Outlines V) (e : ClientEvent V) (_ : HubClient × Outlines V) :
    Prop :=
  match e with
  | .connected => x.1.tx = none
  | .disconnect | .drop => ∀ k ∈ x.1.tx, (x.1.sessions k).writer = true
  | _ => True

variable {codec : WsCodec E V} {c c' : HubClient} {o : Outlines V} {x y : HubClient × Outlines V}
  {e : ClientEvent V} {es : List (ClientEvent V)} {s s' : ClientTasks} {a : Outline V} {k : Nat}
  {w r : Option Nat} {value : V} {frame : TungMessage}

@[simp] theorem setSession_same : (c.setSession k s).sessions k = s := by
  simp [HubClient.setSession]

theorem setSession_other {i : Nat} (h : i ≠ k) : (c.setSession k s).sessions i = c.sessions i := by
  simp [HubClient.setSession, h]

theorem push_running (h : (c.sessions k).writer = true) : c.push k frame =
    some (c.setSession k { c.sessions k with queued := (c.sessions k).queued ++ [frame] }) := by
  simp [HubClient.push, h]

theorem push_left (h : (c.sessions k).writer = false) : c.push k frame = none := by
  simp [HubClient.push, h]

/-- A `send` returns `Ok` if a session is open, the value encodes and the writer task runs. -/
theorem client_send_ok (h : c.send codec value = .ok c') : ∃ k msg, c.tx = some k ∧
    (c.sessions k).writer = true ∧ codec.encode value = .ok msg ∧ c' = c.setSession k
      { c.sessions k with queued := (c.sessions k).queued ++ [axumToTung msg] } := by
  unfold HubClient.send at h
  split at h
  · simp at h
  · next k htx =>
    split at h
    · simp at h
    · next msg hmsg =>
      cases hw : (c.sessions k).writer with
      | false => simp [push_left hw] at h
      | true =>
        rw [push_running hw] at h
        exact ⟨k, msg, htx, hw, hmsg, (Except.ok.inj h).symm⟩

theorem Outline.finish_of_ended (h : a.ended = true) : a.finish = a := by
  simp [Outline.finish, ← h]

theorem ClientTasks.Matches.of_queued (hs : s.Matches codec a) (h : s'.queued = s.queued) :
    s'.Matches codec a := by
  obtain ⟨msgs, hmsgs, hq⟩ := hs
  exact ⟨msgs, hmsgs, h.trans hq⟩

theorem matches_sent {msg : Message} (hs : s.Matches codec a) (ha : a.ended = false)
    (hmsg : codec.encode value = .ok msg) :
    ClientTasks.Matches codec { s with queued := s.queued ++ [axumToTung msg] }
      { a with sent := a.sent ++ [value] } := by
  obtain ⟨msgs, hmsgs, hq⟩ := hs
  refine ⟨msgs ++ [msg], ?_, ?_⟩
  · simp [List.mapM_append, hmsgs, hmsg]
    rfl
  · simp [hq, ha]

theorem matches_close (hs : s.Matches codec a) (ha : a.ended = false) :
    ClientTasks.Matches codec { s with queued := s.queued ++ [.close none] } a.finish := by
  obtain ⟨msgs, hmsgs, hq⟩ := hs
  refine ⟨msgs, hmsgs, ?_⟩
  simp [hq, ha, Outline.finish]

/-- A session that ends without a Close does not match. -/
theorem not_matches_finish (hs : s.Matches codec a) (ha : a.ended = false)
    (h : s'.queued = s.queued) : ¬ s'.Matches codec a.finish := by
  rintro ⟨msgs', hmsgs', hq'⟩
  obtain ⟨msgs, hmsgs, hq⟩ := hs
  obtain rfl : msgs = msgs' := Except.ok.inj (hmsgs.symm.trans hmsgs')
  simp [h, hq, ha, Outline.finish] at hq'

/-- Every task that runs is behind one of the two handles. -/
def HubClient.Owned (c : HubClient) (w r : Option Nat) : Prop :=
  ∀ k < c.opened, ((c.sessions k).writer = true → w = some k) ∧
    ((c.sessions k).reader = true → r = some k)

theorem owned_none : c.Owned none none ↔ c.Stopped := by
  simp [HubClient.Owned, HubClient.Stopped]

/-- The writer task has been joined. -/
theorem owned_writerJoined (h : c.Owned w r) (hdone : ∀ k ∈ w, (c.sessions k).writer = false) :
    c.Owned none r := by
  intro k hk
  refine ⟨fun hw => ?_, (h k hk).2⟩
  have := hdone k ((h k hk).1 hw)
  simp [hw] at this

theorem owned_readerJoined (h : c.Owned w r) (hdone : ∀ k ∈ r, (c.sessions k).reader = false) :
    c.Owned w none := by
  intro k hk
  refine ⟨(h k hk).1, fun hr => ?_⟩
  have := hdone k ((h k hk).2 hr)
  simp [hr] at this

/-- Which tasks the client can still join, by where it is. -/
def HubClient.Joins (c : HubClient) : Prop :=
  match c.pos with
  | .idle => c.Owned c.writer c.reader ∧ (c.tx = none → c.Stopped)
  | .joinWriter h => c.tx = none ∧ c.Owned h c.reader
  | .joinReader h => c.tx = none ∧ c.Owned none h
  | .dropped => True

theorem joins_idle (hpos : c.pos = .idle) :
    c.Joins ↔ c.Owned c.writer c.reader ∧ (c.tx = none → c.Stopped) := by
  rw [HubClient.Joins, hpos]

theorem joins_joinWriter {h : Option Nat} (hpos : c.pos = .joinWriter h) :
    c.Joins ↔ c.tx = none ∧ c.Owned h c.reader := by
  rw [HubClient.Joins, hpos]

theorem joins_joinReader {h : Option Nat} (hpos : c.pos = .joinReader h) :
    c.Joins ↔ c.tx = none ∧ c.Owned none h := by
  rw [HubClient.Joins, hpos]

/-- The invariant of a client whose sessions end in time. -/
structure HubClient.Upheld (codec : WsCodec E V) (c : HubClient) (o : Outlines V) : Prop where
  opened : o.opened = c.opened
  queued : ∀ k < c.opened, (c.sessions k).Matches codec (o.outline k)
  current : ∀ k ∈ c.tx, k + 1 = c.opened
  ended : ∀ k < c.opened, (o.outline k).ended = true ↔ c.tx ≠ some k
  joins : c.Joins

@[simp] theorem connect_last : c.connect.sessions c.opened = ⟨[], 0, true, true⟩ :=
  Function.update_self ..

theorem connect_earlier (h : k ≠ c.opened) : c.connect.sessions k = c.sessions k :=
  Function.update_of_ne h _ _

/-- The value goes to the last session. -/
theorem observe_sent (hu : c.Upheld codec o) (hk : k + 1 = c.opened) (value : V) :
    (o.observe (.sent value)).outline = Function.update o.outline k
      { o.outline k with sent := (o.outline k).sent ++ [value] } := by
  have hlast : o.opened - 1 = k := by
    have := hu.opened
    omega
  simp only [Outlines.observe, hlast]

theorem observe_connected (hu : c.Upheld codec o) : (o.observe .connected).outline =
    Function.update (fun k => (o.outline k).finish) c.opened ⟨[], false⟩ := by
  rw [← hu.opened]
  rfl

theorem upheld_build : HubClient.build.Upheld codec ⟨0, fun _ => ⟨[], false⟩⟩ where
  opened := rfl
  queued k hk := (Nat.not_lt_zero k hk).elim
  current := nofun
  ended k hk := (Nat.not_lt_zero k hk).elim
  joins := ⟨fun k hk => (Nat.not_lt_zero k hk).elim, fun _ k hk => (Nat.not_lt_zero k hk).elim⟩

/-- The client is where it was, and no task was started. -/
structure HubClient.Fades (c c' : HubClient) : Prop where
  tx : c'.tx = c.tx
  writer : c'.writer = c.writer
  reader : c'.reader = c.reader
  opened : c'.opened = c.opened
  pos : c'.pos = c.pos
  writers : ∀ k, (c'.sessions k).writer = true → (c.sessions k).writer = true
  readers : ∀ k, (c'.sessions k).reader = true → (c.sessions k).reader = true

theorem fades_setSession (hw : s.writer = true → (c.sessions k).writer = true)
    (hr : s.reader = true → (c.sessions k).reader = true) : c.Fades (c.setSession k s) where
  tx := rfl
  writer := rfl
  reader := rfl
  opened := rfl
  pos := rfl
  writers i h := by
    by_cases hi : i = k
    · subst hi
      rw [setSession_same] at h
      exact hw h
    · rwa [setSession_other hi] at h
  readers i h := by
    by_cases hi : i = k
    · subst hi
      rw [setSession_same] at h
      exact hr h
    · rwa [setSession_other hi] at h

theorem owned_fades (h : c.Owned w r) (hf : c.Fades c') : c'.Owned w r := by
  intro k hk
  have hk' : k < c.opened := hf.opened ▸ hk
  exact ⟨fun hw => (h k hk').1 (hf.writers k hw), fun hr => (h k hk').2 (hf.readers k hr)⟩

theorem joins_fades (h : c.Joins) (hf : c.Fades c') : c'.Joins := by
  unfold HubClient.Joins at h ⊢
  rw [hf.pos, hf.tx, hf.writer, hf.reader]
  cases hpos : c.pos with
  | idle =>
    rw [hpos] at h
    exact ⟨owned_fades h.1 hf,
      fun htx => owned_none.mp (owned_fades (owned_none.mpr (h.2 htx)) hf)⟩
  | joinWriter | joinReader =>
    rw [hpos] at h
    exact ⟨h.1, owned_fades h.2 hf⟩
  | dropped => trivial

/-- A step of a task queues nothing. -/
theorem upheld_task (hs : c.Upheld codec o) (hq : s.queued = (c.sessions k).queued)
    (hw : s.writer = true → (c.sessions k).writer = true)
    (hr : s.reader = true → (c.sessions k).reader = true) :
    (c.setSession k s).Upheld codec o where
  opened := hs.opened
  queued i hi := by
    by_cases hik : i = k
    · subst hik
      rw [setSession_same]
      exact (hs.queued i hi).of_queued hq
    · rw [setSession_other hik]
      exact hs.queued i hi
  current := hs.current
  ended := hs.ended
  joins := joins_fades hs.joins (fades_setSession hw hr)

/-- The sender held is that of the last session, which is not over. -/
theorem upheld_open (hs : c.Upheld codec o) (hk : c.tx = some k) :
    k + 1 = c.opened ∧ k < c.opened ∧ (o.outline k).ended = false := by
  have hlast := hs.current k hk
  have hlt : k < c.opened := by omega
  refine ⟨hlast, hlt, ?_⟩
  rw [Bool.eq_false_iff]
  intro h
  exact (hs.ended k hlt).mp h hk

theorem upheld_sent (hs : c.Upheld codec o) (h : c.send codec value = .ok c') :
    c'.Upheld codec (o.observe (.sent value)) := by
  obtain ⟨k, msg, htx, -, hmsg, rfl⟩ := client_send_ok h
  obtain ⟨hk, -, hopen⟩ := upheld_open hs htx
  have hsent := observe_sent hs hk value
  constructor
  case opened => exact hs.opened
  case queued =>
    intro i hi
    rw [hsent]
    by_cases hik : i = k
    · subst hik
      rw [setSession_same, Function.update_self]
      exact matches_sent (hs.queued i hi) hopen hmsg
    · rw [setSession_other hik, Function.update_of_ne hik]
      exact hs.queued i hi
  case current => exact hs.current
  case ended =>
    intro i hi
    rw [hsent]
    by_cases hik : i = k
    · subst hik
      rw [Function.update_self]
      exact hs.ended i hi
    · rw [Function.update_of_ne hik]
      exact hs.ended i hi
  case joins => exact joins_fades hs.joins (fades_setSession id id)

theorem sendClose_cases (c : HubClient) : (c.tx = none ∧ c.sendClose = c) ∨
    ∃ k, c.tx = some k ∧
      (((c.sessions k).writer = true ∧ c.sendClose =
          { c.setSession k
              { c.sessions k with queued := (c.sessions k).queued ++ [.close none] } with
            tx := none }) ∨
        ((c.sessions k).writer = false ∧ c.sendClose = { c with tx := none })) := by
  unfold HubClient.sendClose
  split
  · next htx => exact Or.inl ⟨htx, rfl⟩
  · next k htx =>
    refine Or.inr ⟨k, htx, ?_⟩
    cases hw : (c.sessions k).writer with
    | true => exact Or.inl ⟨rfl, by rw [push_running hw]; rfl⟩
    | false => exact Or.inr ⟨rfl, by rw [push_left hw]; rfl⟩

/-- `sendClose` takes the sender, and concerns no task. -/
theorem sendClose_fades (c : HubClient) : c.sendClose.tx = none ∧
    c.Fades { c.sendClose with tx := c.tx } := by
  rcases sendClose_cases c with ⟨htx, heq⟩ | ⟨k, htx, ⟨-, heq⟩ | ⟨-, heq⟩⟩
  · rw [heq]
    exact ⟨htx, rfl, rfl, rfl, rfl, rfl, fun _ => id, fun _ => id⟩
  · rw [heq]
    exact ⟨rfl, fades_setSession id id⟩
  · rw [heq]
    exact ⟨rfl, rfl, rfl, rfl, rfl, rfl, fun _ => id, fun _ => id⟩

/-- The session that holds the sender gets its Close, and the others are over already. -/
theorem sendClose_matches (hs : (c.sessions k).Matches codec a)
    (ha : a.ended = true ↔ c.tx ≠ some k) (hrun : c.tx = some k → (c.sessions k).writer = true) :
    (c.sendClose.sessions k).Matches codec a.finish := by
  rcases sendClose_cases c with ⟨htx, heq⟩ | ⟨i, htx, ⟨-, heq⟩ | ⟨hw, heq⟩⟩
  · rw [heq, Outline.finish_of_ended (ha.mpr (by simp [htx]))]
    exact hs
  · rw [heq]
    change ((c.setSession i _).sessions k).Matches _ _
    by_cases hki : k = i
    · subst hki
      rw [setSession_same]
      exact matches_close hs (Bool.eq_false_iff.mpr fun h => ha.mp h htx)
    · rw [setSession_other hki, Outline.finish_of_ended (ha.mpr (by simp [htx, Ne.symm hki]))]
      exact hs
  · have hki : c.tx ≠ some k := by
      intro hk
      obtain rfl : i = k := Option.some.inj (htx.symm.trans hk)
      simp [hrun htx] at hw
    rw [heq, Outline.finish_of_ended (ha.mpr hki)]
    exact hs

theorem finish_ended_iff (htx : c'.tx = none) : a.finish.ended = true ↔ c'.tx ≠ some k := by
  simp [htx, Outline.finish]

/-- The session before is over, and none of its tasks runs. -/
theorem upheld_connect (hs : c.Upheld codec o) (hpos : c.pos = .idle) (htx : c.tx = none) :
    c.connect.Upheld codec (o.observe .connected) := by
  have hstopped : c.Stopped := ((joins_idle hpos).mp hs.joins).2 htx
  have hnew : ∀ {i}, i < c.opened + 1 → i ≠ c.opened → i < c.opened := by omega
  have hended : ∀ {i}, i < c.opened → (o.outline i).ended = true := by
    intro i hi
    exact (hs.ended i hi).mpr (by simp [htx])
  constructor
  case opened => exact congrArg (· + 1) hs.opened
  case queued =>
    intro i hi
    rw [observe_connected hs]
    by_cases hik : i = c.opened
    · subst hik
      rw [connect_last, Function.update_self]
      exact ⟨[], rfl, rfl⟩
    · have hlt := hnew hi hik
      rw [connect_earlier hik, Function.update_of_ne hik, Outline.finish_of_ended (hended hlt)]
      exact hs.queued i hlt
  case current =>
    intro i hi
    obtain rfl : c.opened = i := Option.some.inj hi
    rfl
  case ended =>
    intro i hi
    rw [observe_connected hs]
    by_cases hik : i = c.opened
    · subst hik
      simp [HubClient.connect]
    · rw [Function.update_of_ne hik]
      simp [HubClient.connect, Outline.finish, Ne.symm hik]
  case joins =>
    refine (joins_idle (c := c.connect) hpos).mpr ⟨fun i hi => ?_, nofun⟩
    by_cases hik : i = c.opened
    · subst hik
      exact ⟨fun _ => rfl, fun _ => rfl⟩
    · obtain ⟨hw, hr⟩ := hstopped i (hnew hi hik)
      simp [connect_earlier hik, hw, hr]

/-- A client that has closed its session is upheld where it can join what still runs. -/
theorem upheld_close (hs : c.Upheld codec o) (hrun : ∀ k ∈ c.tx, (c.sessions k).writer = true)
    (htx : c'.tx = none) (hopened : c'.opened = c.opened)
    (hsessions : c'.sessions = c.sendClose.sessions) (hjoins : c'.Joins) :
    c'.Upheld codec { o with outline := fun k => (o.outline k).finish } where
  opened := hs.opened.trans hopened.symm
  queued k hk := by
    have hlt : k < c.opened := hopened ▸ hk
    rw [hsessions]
    exact sendClose_matches (hs.queued k hlt) (hs.ended k hlt) fun htx => hrun k htx
  current k hk := by simp [htx] at hk
  ended _ _ := finish_ended_iff htx
  joins := hjoins

theorem upheld_disconnect (hs : c.Upheld codec o) (hpos : c.pos = .idle)
    (hrun : ∀ k ∈ c.tx, (c.sessions k).writer = true) :
    c.disconnect.Upheld codec (o.observe .disconnect) := by
  obtain ⟨htx, hf⟩ := sendClose_fades c
  have howned : c.Owned c.writer c.reader := ((joins_idle hpos).mp hs.joins).1
  have howned' := owned_fades howned hf
  exact upheld_close hs hrun htx hf.opened rfl ⟨htx, hf.reader ▸ howned'⟩

theorem upheld_drop (hs : c.Upheld codec o)
    (hrun : ∀ k ∈ c.tx, (c.sessions k).writer = true) :
    c.drop.Upheld codec (o.observe .drop) := by
  obtain ⟨htx, hf⟩ := sendClose_fades c
  exact upheld_close hs hrun htx hf.opened rfl trivial

/-- The reader task has been joined after the writer task. -/
theorem disconnected_stopped {h : Option Nat} (hs : c.Upheld codec o)
    (hpos : c.pos = .joinReader h) (hdone : ∀ k ∈ h, (c.sessions k).reader = false) :
    c.Stopped :=
  owned_none.mp (owned_readerJoined ((joins_joinReader hpos).mp hs.joins).2 hdone)

/-- The step lemma. -/
theorem upheld_step (hs : c.Upheld codec o) (h : ClientStep codec c e c')
    (htime : EndsInTime (c, o) e y) : c'.Upheld codec (o.observe e) := by
  cases h with
  | connected hpos => exact upheld_connect hs hpos htime
  | connectFailed | refused => exact hs
  | sent _ hok => exact upheld_sent hs hok
  | disconnect hpos => exact upheld_disconnect hs hpos htime
  | writerJoined hpos hdone =>
    obtain ⟨htx, howned⟩ := (joins_joinWriter hpos).mp hs.joins
    exact ⟨hs.opened, hs.queued, hs.current, hs.ended, htx, owned_writerJoined howned hdone⟩
  | disconnected hpos hdone =>
    have hstopped := disconnected_stopped hs hpos hdone
    refine ⟨hs.opened, hs.queued, hs.current, hs.ended, fun k hk => ?_, fun _ => hstopped⟩
    obtain ⟨hw, hr⟩ := hstopped k hk
    simp [hw, hr]
  | drop hpos => exact upheld_drop hs htime
  | write hw _ => exact upheld_task hs rfl id id
  | writeFailed hw _ => exact upheld_task hs rfl nofun id
  | writerEnded hw _ _ => exact upheld_task hs rfl nofun id
  | readerEnded hr => exact upheld_task hs rfl id nofun

/-- A sender that is replaced leaves a session without a Close. -/
theorem connect_lapses (hs : c.Upheld codec o) (hk : c.tx = some k) :
    ∃ i < c.opened, ¬ (c.connect.sessions i).Matches codec ((o.observe .connected).outline i) := by
  obtain ⟨-, hlt, hopen⟩ := upheld_open hs hk
  have hne : k ≠ c.opened := Nat.ne_of_lt hlt
  refine ⟨k, hlt, ?_⟩
  rw [observe_connected hs, Function.update_of_ne hne, connect_earlier hne]
  exact not_matches_finish (hs.queued k hlt) hopen rfl

/-- A writer task that has left takes no Close. -/
theorem sendClose_lapses (hs : c.Upheld codec o) (hk : c.tx = some k)
    (hw : (c.sessions k).writer = false) :
    ∃ i < c.opened, ¬ (c.sendClose.sessions i).Matches codec (o.outline i).finish := by
  obtain ⟨-, hlt, hopen⟩ := upheld_open hs hk
  refine ⟨k, hlt, not_matches_finish (hs.queued k hlt) hopen ?_⟩
  rcases sendClose_cases c with ⟨htx, -⟩ | ⟨i, htx, ⟨hw', -⟩ | ⟨-, heq⟩⟩
  · simp [hk] at htx
  · obtain rfl : k = i := Option.some.inj (hk.symm.trans htx)
    simp [hw] at hw'
  · rw [heq]

/-- A step keeps its promises exactly if no session ends too late. -/
theorem honours_iff (hs : x.1.Upheld codec x.2) (h : (callerSystem codec).Tr x e y) :
    Honours codec x e y ↔ EndsInTime x e y := by
  obtain ⟨c, o⟩ := x
  obtain ⟨c', o'⟩ := y
  obtain ⟨hstep, rfl⟩ : ClientStep codec c e c' ∧ o' = o.observe e := h
  have hopened : o.opened = c.opened := hs.opened
  constructor
  · intro hh
    have hrun : ∀ k ∈ c.tx, (∀ i < c.opened,
        (c.sendClose.sessions i).Matches codec (o.outline i).finish) →
        (c.sessions k).writer = true := by
      intro k hk hall
      by_contra hw
      obtain ⟨i, hi, hno⟩ := sendClose_lapses hs hk (Bool.eq_false_iff.mpr hw)
      exact hno (hall i hi)
    cases hstep with
    | connected =>
      change c.tx = none
      by_contra hheld
      obtain ⟨k, hk⟩ := Option.ne_none_iff_exists'.mp hheld
      obtain ⟨i, hi, hno⟩ := connect_lapses hs hk
      exact hno (hh.queued i (Nat.lt_succ_of_lt (hopened ▸ hi)))
    | disconnect | drop =>
      exact fun k hk => hrun k hk fun i hi => hh.queued i (hopened ▸ hi)
    | _ => trivial
  · intro htime
    have hy := upheld_step hs hstep htime
    refine ⟨fun k hk => hy.queued k (hy.opened ▸ hk), ?_, ?_⟩
    · rintro rfl
      cases hstep
      rfl
    · rintro rfl
      cases hstep with
      | disconnected hpos hdone => exact disconnected_stopped (c := c) hs hpos hdone

/-- A run of a client keeps its promises in every step, exactly if no `connect` succeeds while
the sender of an earlier session is held, and no `disconnect` or drop ends a session whose
writer task has left. -/
theorem sessions_closed_iff :
    ((callerSystem codec).restrict (Honours codec)).Run
        (.build, ⟨0, fun _ => ⟨[], false⟩⟩) es y ↔
      ((callerSystem codec).restrict EndsInTime).Run
        (.build, ⟨0, fun _ => ⟨[], false⟩⟩) es y := by
  refine run_restrict_congr (I := fun x => x.1.Upheld codec x.2) ?_ ?_ upheld_build
  · intro x e z h hs
    exact honours_iff hs h
  · rintro ⟨c, o⟩ e ⟨c', o'⟩ ⟨⟨hstep, rfl⟩, hh⟩ hs
    exact upheld_step hs hstep ((honours_iff hs ⟨hstep, rfl⟩).mp hh)

/-- A second `connect` replaces the first session: it gets no Close, and its reader task still
runs when `disconnect` has returned. -/
theorem reconnect_leaves_session : ∃ y,
    (callerSystem (jsonCodec boolJson)).Run (.build, ⟨0, fun _ => ⟨[], false⟩⟩)
      [.connected, .sent true, .write 0, .connected, .writerEnded 0, .disconnect, .write 1,
        .writerEnded 1, .writerJoined, .readerEnded 1, .disconnected] y ∧
    0 < y.2.opened ∧ (y.2.outline 0).ended = true ∧
    ¬ (y.1.sessions 0).Matches (jsonCodec boolJson) (y.2.outline 0) ∧
    (y.1.sessions 0).reader = true ∧ ¬ y.1.Stopped := by
  have hrun : (clientSystem (jsonCodec boolJson)).Run .build
      [.connected, .sent true, .write 0, .connected, .writerEnded 0, .disconnect, .write 1,
        .writerEnded 1, .writerJoined, .readerEnded 1, .disconnected] _ :=
    .step (.connected rfl) <| .step (.sent rfl rfl) <| .step (.write rfl (by decide)) <|
    .step (.connected rfl) <| .step (.writerEnded rfl (by decide) rfl) <|
    .step (.disconnect rfl) <| .step (.write rfl (by decide)) <|
    .step (.writerEnded rfl (by decide) rfl) <| .step (.writerJoined rfl (by decide)) <|
    .step (.readerEnded rfl) <| .single (.disconnected rfl (by decide))
  refine ⟨_, hrun.watch Outlines.observe _, by decide, rfl, ?_, rfl, ?_⟩
  · rintro ⟨msgs, hmsgs, hq⟩
    obtain rfl : [Message.text "true"] = msgs := Except.ok.inj hmsgs
    have hlen := congrArg List.length hq
    revert hlen
    decide
  · intro h
    have := (h 0 (by decide)).2
    revert this
    decide

end AxumSignal

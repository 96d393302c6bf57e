import AxumSignal.Lib.SetMap
import AxumSignal.Protocol
import Mathlib.Algebra.GroupWithZero.Nat
import Mathlib.Data.List.Basic
import Mathlib.Logic.Function.Basic

/-! `InMemoryWsClients` and its operations, each run to its end on its own. External
effects (sends, `on_drop` calls, token cancellations) are collected in order. -/
namespace AxumSignal

/-- Names of the objects a caller of `add` hands over. -/
abbrev Sender := String
abbrev CancelToken := String
abbrev OnDropFn := String

/-- An `Arc<ConnectionState>`: a reference into the arena of connection states. It stays
valid after the connection is unregistered. -/
abbrev Handle := Nat

structure ConnectionState where
  id : ConnId
  sender : Sender
  cancel : CancelToken
  onDrop : OnDropFn
  drops : UInt32
  rttSamples : List Nat
  deriving DecidableEq

instance : Inhabited ConnectionState := ⟨⟨"", "", "", "", 0, []⟩⟩

/-- `shard` is the hash partition of `group_members`; every registered connection is
stored under its own id. -/
structure InMemoryWsClients where
  connections : Finmap fun _ : ConnId => Handle
  states : Handle → ConnectionState
  allocated : Handle
  broadcastTx : List Message
  groupMembers : SetMap GroupName ConnId
  connectionGroups : SetMap ConnId GroupName
  policy : BroadcastPolicy
  shard : GroupName → Nat
  key_id : ∀ id h, connections.lookup id = some h → (states h).id = id
  key_allocated : ∀ id h, connections.lookup id = some h → h < allocated

namespace InMemoryWsClients

def new (policy : BroadcastPolicy) (shard : GroupName → Nat) : InMemoryWsClients where
  connections := ∅
  states := default
  allocated := 0
  broadcastTx := []
  groupMembers := ∅
  connectionGroups := ∅
  policy := policy
  shard := shard
  key_id _ _ h := by simp at h
  key_allocated _ _ h := by simp at h

variable (s : InMemoryWsClients)

/-- `connections.insert(id, Arc::new(ConnectionState { .. }))`. -/
def insertConnection (id : ConnId) (sender : Sender) (cancel : CancelToken)
    (onDrop : OnDropFn) : InMemoryWsClients where
  connections := s.connections.insert id s.allocated
  states := Function.update s.states s.allocated ⟨id, sender, cancel, onDrop, 0, []⟩
  allocated := s.allocated + 1
  broadcastTx := s.broadcastTx
  groupMembers := s.groupMembers
  connectionGroups := s.connectionGroups
  policy := s.policy
  shard := s.shard
  key_id c h hc := by
    by_cases he : c = id
    · subst he
      have : s.allocated = h := by simpa using hc
      simp [← this]
    · rw [Finmap.lookup_insert_of_ne _ he] at hc
      have hne : h ≠ s.allocated := Nat.ne_of_lt (s.key_allocated c h hc)
      simpa [hne] using s.key_id c h hc
  key_allocated c h hc := by
    by_cases he : c = id
    · subst he
      have : s.allocated = h := by simpa using hc
      exact this ▸ Nat.lt_succ_self _
    · rw [Finmap.lookup_insert_of_ne _ he] at hc
      exact Nat.lt_succ_of_lt (s.key_allocated c h hc)

/-- `connections.remove(id)`. -/
def removeConnection (id : ConnId) : InMemoryWsClients :=
  { s with
    connections := s.connections.erase id
    key_id := by
      intro c h hc
      by_cases he : c = id
      · subst he; simp at hc
      · exact s.key_id c h (by rwa [Finmap.lookup_erase_ne he] at hc)
    key_allocated := by
      intro c h hc
      by_cases he : c = id
      · subst he; simp at hc
      · exact s.key_allocated c h (by rwa [Finmap.lookup_erase_ne he] at hc) }

/-- Store a new value in the `drops` counter behind a handle. -/
def setDrops (h : Handle) (n : UInt32) : InMemoryWsClients :=
  { s with
    states := Function.update s.states h { s.states h with drops := n }
    key_id := by
      intro c k hc
      by_cases he : k = h
      · subst he; simpa using s.key_id c k hc
      · simpa [he] using s.key_id c k hc }

/-- Store a new RTT window behind a handle. -/
def setRttSamples (h : Handle) (samples : List Nat) : InMemoryWsClients :=
  { s with
    states := Function.update s.states h { s.states h with rttSamples := samples }
    key_id := by
      intro c k hc
      by_cases he : k = h
      · subst he; simpa using s.key_id c k hc
      · simpa [he] using s.key_id c k hc }

/-- Replace the index from groups to members. -/
def setGroupMembers (m : SetMap GroupName ConnId) : InMemoryWsClients :=
  { s with groupMembers := m }

/-- Replace the index from connections to groups. -/
def setConnectionGroups (m : SetMap ConnId GroupName) : InMemoryWsClients :=
  { s with connectionGroups := m }

end InMemoryWsClients

/-- What leaves the store. `attempt` and `evict` only mark where a delivery to a
registration starts and where a policy unregisters a connection. -/
inductive Effect where
  | attempt (h : Handle)
  | enqueue (sender : Sender) (msg : Message)
  | onDrop (f : OnDropFn) (id : ConnId)
  | evict (id : ConnId)
  | cancel (token : CancelToken)
  deriving DecidableEq

/-- The store and the effects it has produced so far. -/
structure World where
  clients : InMemoryWsClients
  effects : List Effect

def World.emit (w : World) (e : Effect) : World := { w with effects := w.effects ++ [e] }

def World.set (w : World) (s : InMemoryWsClients) : World := { w with clients := s }

/-- Why a call does not return: it requests the exclusive lock of a `group_members` shard
on which it holds a guard itself, or it panics. -/
inductive Halt where
  | selfLock (w : World) (group : GroupName)
  | panic (w : World)

/-- What one `sender.send(..)` meets: whether the channel accepts the message in the end,
and whether a surrounding `timeout` elapses first. -/
structure SendOutcome where
  accepted : Bool
  late : Bool
  deriving DecidableEq

/-- What the surroundings decide for one call: the iteration order of the maps and the
outcome of each send. -/
structure CallEnv where
  order : IterOrder String
  send : Handle → SendOutcome

/-- `timeout(dur, sender.send(msg)).await.map_or(true, |r| r.is_err())`. -/
def CallEnv.dropped (env : CallEnv) (h : Handle) : Bool :=
  (env.send h).late || !(env.send h).accepted

/-- `Duration::MAX` in nanoseconds. -/
def durationMax : Nat := 2 ^ 64 * 10 ^ 9 - 1

/-- The average of the RTT window: `none` is a panic (the sum overflows `Duration`, or
the length is cast to a zero divisor), `some none` an empty window. -/
def avgRtt (samples : List Nat) : Option (Option Nat) :=
  if samples.isEmpty then some none
  else
    let divisor := samples.length % 2 ^ 32
    if durationMax < samples.sum ∨ divisor = 0 then none
    else some (some (samples.sum / divisor))

section operations

variable (env : CallEnv) (held : Option GroupName)

/-- The body of the loop of `cleanup_groups`. `held` is the group whose guard the caller
still holds. -/
def cleanupGroup (id : ConnId) (w : World) (group : GroupName) : Except Halt World :=
  match w.clients.groupMembers.lookup group with
  | none => .ok w
  | some members =>
    let discarded := w.clients.groupMembers.discard group id
    if members.erase id = ∅ then
      if held.any fun g => w.clients.shard g = w.clients.shard group then
        .error (.selfLock (w.set (w.clients.setGroupMembers discarded)) group)
      else .ok (w.set (w.clients.setGroupMembers (discarded.erase group)))
    else .ok (w.set (w.clients.setGroupMembers discarded))

def cleanupGroups (w : World) (id : ConnId) : Except Halt World :=
  match w.clients.connectionGroups.lookup id with
  | none => .ok w
  | some groups =>
    let taken := w.clients.setConnectionGroups (w.clients.connectionGroups.erase id)
    (env.order.list groups).foldlM (cleanupGroup held id) (w.set taken)

/-- `if let Some((_, cs)) = self.connections.remove(id) { cs.cancel.cancel() }`, then
`self.cleanup_groups(id)`. -/
def evictConnection (w : World) (id : ConnId) : Except Halt World :=
  let w := w.emit (.evict id)
  match w.clients.connections.lookup id with
  | none => cleanupGroups env held w id
  | some h =>
    let w := w.set (w.clients.removeConnection id)
    cleanupGroups env held (w.emit (.cancel (w.clients.states h).cancel)) id

/-- `let _ = state.sender.send(msg).await`. -/
def sendIgnoringError (msg : Message) (w : World) (h : Handle) : World :=
  if (env.send h).accepted then w.emit (.enqueue (w.clients.states h).sender msg) else w

def sendWithPolicy (msg : Message) (w : World) (h : Handle) : Except Halt World :=
  let state := w.clients.states h
  let w := w.emit (.attempt h)
  match w.clients.policy with
  | .block => .ok (sendIgnoringError env msg w h)
  | .dropMessage _ =>
    if env.dropped h then .ok (w.emit (.onDrop state.onDrop state.id))
    else .ok (w.emit (.enqueue state.sender msg))
  | .dropConnection _ maxDrops =>
    if env.dropped h then
      let w := w.emit (.onDrop state.onDrop state.id)
      let drops := state.drops + 1
      let w := w.set (w.clients.setDrops h drops)
      if drops ≥ maxDrops then evictConnection env held w state.id else .ok w
    else
      let w := w.emit (.enqueue state.sender msg)
      .ok (w.set (w.clients.setDrops h 0))
  | .dropOnHighRtt maxRtt _ =>
    match avgRtt state.rttSamples with
    | none => .error (.panic w)
    | some avg =>
      if avg.any (· > maxRtt) then
        evictConnection env held (w.emit (.onDrop state.onDrop state.id)) state.id
      else .ok (sendIgnoringError env msg w h)

/-- `recipients.stream_iter().for_each(|s| self.send_with_policy(&s, msg)).await`. -/
def deliver (msg : Message) (w : World) (recipients : List Handle) : Except Halt World :=
  recipients.foldlM (sendWithPolicy env held msg) w

end operations

/-- `.filter(|id| seen.insert(id.clone()))` over a `HashSet`. -/
def firstSeen (seen : Finset ConnId) : List ConnId → List ConnId
  | [] => []
  | id :: ids => if id ∈ seen then firstSeen seen ids else id :: firstSeen (insert id seen) ids

section recipients

variable (env : CallEnv) (s : InMemoryWsClients)

/-- The snapshot of `broadcast_except`. -/
def exceptRecipients (excluded : List ConnId) : List Handle :=
  ((env.order.list s.connections.keys).filter (· ∉ excluded)).filterMap
    s.connections.lookup

/-- The snapshot of `broadcast_group` and `broadcast_group_except`: the registered
members of the group that pass the filter. -/
def groupRecipients (members : Finset ConnId) (keep : ConnId → Bool) : List Handle :=
  ((env.order.list members).filter keep).filterMap s.connections.lookup

/-- The snapshot of `broadcast_groups`: the union of the groups, each id once. -/
def groupsRecipients (groups : List GroupName) : List Handle :=
  (firstSeen ∅ (groups.flatMap fun g => env.order.list (s.groupMembers.values g))).filterMap
    s.connections.lookup

end recipients

section calls

variable (env : CallEnv) (w : World)

def add (id : ConnId) (sender : Sender) (cancel : CancelToken) (onDrop : OnDropFn) : World :=
  w.set (w.clients.insertConnection id sender cancel onDrop)

def remove (id : ConnId) : Except Halt World := do
  let w ← cleanupGroups env none w id
  return w.set (w.clients.removeConnection id)

/-- The message is `none` when `C::encode` fails; every operation then only logs. -/
def unicast (id : ConnId) (msg : Option Message) : World :=
  match msg with
  | none => w
  | some msg => match w.clients.connections.lookup id with
    | none => w
    | some h => sendIgnoringError env msg (w.emit (.attempt h)) h

def broadcast (msg : Option Message) : World :=
  match msg with
  | none => w
  | some msg => w.set { w.clients with broadcastTx := w.clients.broadcastTx ++ [msg] }

def broadcastExcept (excluded : List ConnId) (msg : Option Message) : Except Halt World :=
  match msg with
  | none => .ok w
  | some msg => deliver env none msg w (exceptRecipients env w.clients excluded)

def addToGroup (id : ConnId) (group : GroupName) : World :=
  w.set ((w.clients.setGroupMembers (w.clients.groupMembers.add group id)).setConnectionGroups
    (w.clients.connectionGroups.add id group))

def removeFromGroup (id : ConnId) (group : GroupName) : World :=
  w.set ((w.clients.setGroupMembers (w.clients.groupMembers.discard group id)).setConnectionGroups
    (w.clients.connectionGroups.discard id group))

/-- The common body of the two single-group broadcasts. The guard `members` on the group
lives to the end of the call, so every delivery runs with `held = some group`. -/
def broadcastMembers (group : GroupName) (keep : ConnId → Bool) (msg : Option Message) :
    Except Halt World :=
  match msg with
  | none => .ok w
  | some msg => match w.clients.groupMembers.lookup group with
    | none => .ok w
    | some members => deliver env (some group) msg w (groupRecipients env w.clients members keep)

def broadcastGroup (group : GroupName) (msg : Option Message) : Except Halt World :=
  broadcastMembers env w group (fun _ => true) msg

def broadcastGroupExcept (group : GroupName) (excluded : List ConnId) (msg : Option Message) :
    Except Halt World :=
  broadcastMembers env w group (· ∉ excluded) msg

/-- The members are cloned out of each guard, so none is held while delivering. -/
def broadcastGroups (groups : List GroupName) (msg : Option Message) : Except Halt World :=
  match msg with
  | none => .ok w
  | some msg => deliver env none msg w (groupsRecipients env w.clients groups)

/-- The ring buffer of `update_rtt`: one sample is evicted when the length equals the
configured capacity. -/
def pushSample (capacity : Nat) (samples : List Nat) (rtt : Nat) : List Nat :=
  (if samples.length = capacity then samples.tail else samples) ++ [rtt]

def updateRtt (id : ConnId) (rtt : Nat) : World :=
  match w.clients.policy with
  | .dropOnHighRtt _ rttSamples => match w.clients.connections.lookup id with
    | none => w
    | some h =>
      let samples := pushSample rttSamples (w.clients.states h).rttSamples rtt
      w.set (w.clients.setRttSamples h samples)
  | _ => w

end calls

/-- The operations of `WsClients`, with the result of `C::encode` in place of the message. -/
inductive Op where
  | add (id : ConnId) (sender : Sender) (cancel : CancelToken) (onDrop : OnDropFn)
  | remove (id : ConnId)
  | unicast (id : ConnId) (msg : Option Message)
  | broadcast (msg : Option Message)
  | broadcastExcept (excluded : List ConnId) (msg : Option Message)
  | addToGroup (id : ConnId) (group : GroupName)
  | removeFromGroup (id : ConnId) (group : GroupName)
  | broadcastGroup (group : GroupName) (msg : Option Message)
  | broadcastGroupExcept (group : GroupName) (excluded : List ConnId) (msg : Option Message)
  | broadcastGroups (groups : List GroupName) (msg : Option Message)
  | updateRtt (id : ConnId) (rtt : Nat)

def Op.exec (env : CallEnv) (w : World) : Op → Except Halt World
  | .add id sender cancel onDrop => .ok (AxumSignal.add w id sender cancel onDrop)
  | .remove id => AxumSignal.remove env w id
  | .unicast id msg => .ok (AxumSignal.unicast env w id msg)
  | .broadcast msg => .ok (AxumSignal.broadcast w msg)
  | .broadcastExcept excluded msg => AxumSignal.broadcastExcept env w excluded msg
  | .addToGroup id group => .ok (AxumSignal.addToGroup w id group)
  | .removeFromGroup id group => .ok (AxumSignal.removeFromGroup w id group)
  | .broadcastGroup group msg => AxumSignal.broadcastGroup env w group msg
  | .broadcastGroupExcept group excluded msg =>
    AxumSignal.broadcastGroupExcept env w group excluded msg
  | .broadcastGroups groups msg => AxumSignal.broadcastGroups env w groups msg
  | .updateRtt id rtt => .ok (AxumSignal.updateRtt w id rtt)

end AxumSignal

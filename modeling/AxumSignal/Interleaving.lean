import AxumSignal.Clients
import AxumSignal.Lib.Transition

/-! The store under concurrent calls. Every access to a map, a counter or a channel is one
step; a call is a program counter between two of them. -/
namespace AxumSignal

open Transition

/-- A bounded `mpsc` channel; `closed` when its receiver is gone. -/
structure Chan where
  capacity : Nat
  queue : List Message
  closed : Bool

/-- What the calls share: the store, the channels and the cancel tokens. -/
structure Shared where
  clients : InMemoryWsClients
  chans : Sender → Chan
  cancelled : CancelToken → Bool

namespace Shared

variable (sh : Shared)

def set (s : InMemoryWsClients) : Shared := { sh with clients := s }

/-- The channel accepts one more message. -/
def Accepts (sender : Sender) : Prop :=
  (sh.chans sender).closed = false ∧
    (sh.chans sender).queue.length < (sh.chans sender).capacity

/-- The channel is open and full. -/
def Full (sender : Sender) : Prop :=
  (sh.chans sender).closed = false ∧
    (sh.chans sender).capacity ≤ (sh.chans sender).queue.length

instance (sender : Sender) : Decidable (sh.Accepts sender) :=
  inferInstanceAs (Decidable (_ ∧ _))

instance (sender : Sender) : Decidable (sh.Full sender) :=
  inferInstanceAs (Decidable (_ ∧ _))

def push (sender : Sender) (msg : Message) : Shared :=
  { sh with
    chans := Function.update sh.chans sender
      { sh.chans sender with queue := (sh.chans sender).queue ++ [msg] } }

def pop (sender : Sender) : Shared :=
  { sh with
    chans := Function.update sh.chans sender
      { sh.chans sender with queue := (sh.chans sender).queue.tail } }

/-- The receiver of a channel is dropped. -/
def close (sender : Sender) : Shared :=
  { sh with chans := Function.update sh.chans sender { sh.chans sender with closed := true } }

def cancel (token : CancelToken) : Shared :=
  { sh with cancelled := Function.update sh.cancelled token true }

end Shared

/-- How the keys of one map are spread over its shards. -/
structure Layout where
  shards : Nat
  index : ConnId → Fin shards

/-- A delivery loop: the group whose guard is held, the message, and the recipients
after the current one. -/
structure Delivery where
  held : Option GroupName
  msg : Message
  rest : List Handle

/-- Where a clean-up returns to: `remove`, or the delivery loop of `send_with_policy`. -/
inductive Cont where
  | removal (id : ConnId)
  | resume (d : Delivery)

/-- What a `sender.send(msg)` is for: a `unicast`, or one recipient of a broadcast. -/
inductive Receiver where
  | direct (sender : Sender) (msg : Message)
  | recipient (h : Handle) (d : Delivery)

/-- The next access of a call. -/
inductive Pc where
  | idle
  | insert (id : ConnId) (sender : Sender) (cancel : CancelToken) (onDrop : OnDropFn)
  | removeEntry (id : ConnId)
  | lookupSender (id : ConnId) (msg : Message)
  | publish (msg : Message)
  | joinMembers (id : ConnId) (group : GroupName)
  | joinGroups (id : ConnId) (group : GroupName)
  | leaveMembers (id : ConnId) (group : GroupName)
  | leaveGroups (id : ConnId) (group : GroupName)
  | lookupState (id : ConnId) (rtt : Nat)
  | record (h : Handle) (rtt : Nat)
  | iter (excluded : List ConnId) (msg : Message)
  | scan (excluded : List ConnId) (msg : Message) (layout : Layout) (next : Nat)
      (found : List Handle)
  | openGroup (group : GroupName) (excluded : List ConnId) (msg : Message)
  | scanGroup (group : GroupName) (excluded : List ConnId) (msg : Message) (layout : Layout)
      (next : Nat) (ids : List ConnId) (found : List Handle)
  | openGroups (groups : List GroupName) (msg : Message) (seen : Finset ConnId)
      (found : List Handle)
  | scanGroups (group : GroupName) (groups : List GroupName) (msg : Message)
      (seen : Finset ConnId) (found : List Handle) (layout : Layout) (next : Nat)
      (ids : List ConnId)
  | filterGroups (ids : List ConnId) (groups : List GroupName) (msg : Message)
      (seen : Finset ConnId) (found : List Handle)
  | deliver (d : Delivery)
  | average (h : Handle) (d : Delivery)
  | send (r : Receiver)
  | wait (r : Receiver)
  | drop (h : Handle) (d : Delivery)
  | count (h : Handle) (d : Delivery)
  | reset (h : Handle) (d : Delivery)
  | evictRemove (h : Handle) (d : Delivery)
  | evictCancel (victim : Handle) (id : ConnId) (d : Delivery)
  | cleanTake (id : ConnId) (k : Cont)
  | cleanNext (id : ConnId) (groups : List GroupName) (k : Cont)
  | cleanRemove (id : ConnId) (group : GroupName) (groups : List GroupName) (k : Cont)
  | cleanCheck (id : ConnId) (group : GroupName) (groups : List GroupName) (k : Cont)
  | cleanDelete (id : ConnId) (group : GroupName) (groups : List GroupName) (k : Cont)

/-- The first access of an operation; it returns at once when `C::encode` failed. -/
def Op.start : Op → Pc
  | .add id sender cancel onDrop => .insert id sender cancel onDrop
  | .remove id => .cleanTake id (.removal id)
  | .unicast id (some msg) => .lookupSender id msg
  | .broadcast (some msg) => .publish msg
  | .broadcastExcept excluded (some msg) => .iter excluded msg
  | .addToGroup id group => .joinMembers id group
  | .removeFromGroup id group => .leaveMembers id group
  | .broadcastGroup group (some msg) => .openGroup group [] msg
  | .broadcastGroupExcept group excluded (some msg) => .openGroup group excluded msg
  | .broadcastGroups groups (some msg) => .openGroups groups msg ∅ []
  | .updateRtt id rtt => .lookupState id rtt
  | _ => .idle

def Cont.pc : Cont → Pc
  | .removal id => .removeEntry id
  | .resume d => .deliver d

def Cont.held : Cont → Option GroupName
  | .removal _ => none
  | .resume d => d.held

namespace Receiver

def held : Receiver → Option GroupName
  | .direct _ _ => none
  | .recipient _ d => d.held

def msg : Receiver → Message
  | .direct _ msg => msg
  | .recipient _ d => d.msg

def sender (s : InMemoryWsClients) : Receiver → Sender
  | .direct sender _ => sender
  | .recipient h _ => (s.states h).sender

/-- Where the call goes on once the message is enqueued. -/
def accepted (policy : BroadcastPolicy) : Receiver → Pc
  | .direct _ _ => .idle
  | .recipient h d => match policy with
    | .dropConnection _ _ => .reset h d
    | _ => .deliver d

/-- Where the call goes on once the channel turned out closed. -/
def refused (policy : BroadcastPolicy) : Receiver → Pc
  | .direct _ _ => .idle
  | .recipient h d => match policy with
    | .dropMessage _ | .dropConnection _ _ => .drop h d
    | _ => .deliver d

end Receiver

/-- The policies that wrap a send into a `timeout`. -/
def BroadcastPolicy.Timed : BroadcastPolicy → Prop
  | .dropMessage _ | .dropConnection _ _ => True
  | _ => False

/-- The first access of `send_with_policy`. -/
def BroadcastPolicy.firstAccess (h : Handle) (d : Delivery) : BroadcastPolicy → Pc
  | .dropOnHighRtt _ _ => .average h d
  | _ => .send (.recipient h d)

/-- Where `send_with_policy` goes on after its `on_drop` call. -/
def BroadcastPolicy.afterDrop (h : Handle) (d : Delivery) : BroadcastPolicy → Pc
  | .dropConnection _ _ => .count h d
  | .dropOnHighRtt _ _ => .evictRemove h d
  | _ => .deliver d

/-- The groups on whose shards a call holds shared guards. -/
def Pc.guards : Pc → List GroupName
  | .scanGroup group _ _ _ _ _ _ => [group]
  | .scanGroups group _ _ _ _ _ _ _ => [group]
  | .deliver d | .average _ d | .drop _ d | .count _ d | .reset _ d | .evictRemove _ d
  | .evictCancel _ _ d => d.held.toList
  | .send r | .wait r => r.held.toList
  | .cleanTake _ k | .cleanNext _ _ k | .cleanDelete _ _ _ k => k.held.toList
  | .cleanRemove _ group _ k | .cleanCheck _ group _ k => group :: k.held.toList
  | _ => []

/-- The group on whose shard the next access needs the exclusive lock. -/
def Pc.exclusive : Pc → Option GroupName
  | .joinMembers _ group => some group
  | .cleanDelete _ group _ _ => some group
  | _ => none

/-- What an access shows to an observer of the call. -/
inductive Event where
  | access
  | attempt (h : Handle)
  | suspend (r : Receiver)
  | enqueue (r : Receiver)
  | onDrop (h : Handle)
  | count (h : Handle)
  | reset (h : Handle)
  | evict (id : ConnId)
  | cancel (token : CancelToken)
  | panic

/-- The members of a set that one shard yields, each once. -/
structure Yields (S : Finset ConnId) (layout : Layout) (next : Nat) (ids : List ConnId) :
    Prop where
  nodup : ids.Nodup
  mem : ∀ id, id ∈ ids ↔ id ∈ S ∧ (layout.index id : Nat) = next

/-- One access of a call, apart from the locks it may have to wait for. -/
inductive Exec (sh : Shared) : Pc → Event → Shared → Pc → Prop where
  | insert (id : ConnId) (sender : Sender) (cancel : CancelToken) (onDrop : OnDropFn) :
      Exec sh (.insert id sender cancel onDrop) .access
        (sh.set (sh.clients.insertConnection id sender cancel onDrop)) .idle
  | removeEntry (id : ConnId) :
      Exec sh (.removeEntry id) .access (sh.set (sh.clients.removeConnection id)) .idle
  | senderFound {id : ConnId} {msg : Message} {h : Handle}
      (hl : sh.clients.connections.lookup id = some h) :
      Exec sh (.lookupSender id msg) (.attempt h) sh
        (.send (.direct (sh.clients.states h).sender msg))
  | senderMissing {id : ConnId} {msg : Message}
      (hl : sh.clients.connections.lookup id = none) :
      Exec sh (.lookupSender id msg) .access sh .idle
  | publish (msg : Message) :
      Exec sh (.publish msg) .access
        (sh.set { sh.clients with broadcastTx := sh.clients.broadcastTx ++ [msg] }) .idle
  | joinMembers (id : ConnId) (group : GroupName) :
      Exec sh (.joinMembers id group) .access
        (sh.set (sh.clients.setGroupMembers (sh.clients.groupMembers.add group id)))
        (.joinGroups id group)
  | joinGroups (id : ConnId) (group : GroupName) :
      Exec sh (.joinGroups id group) .access
        (sh.set (sh.clients.setConnectionGroups (sh.clients.connectionGroups.add id group)))
        .idle
  | leaveMembers (id : ConnId) (group : GroupName) :
      Exec sh (.leaveMembers id group) .access
        (sh.set (sh.clients.setGroupMembers (sh.clients.groupMembers.discard group id)))
        (.leaveGroups id group)
  | leaveGroups (id : ConnId) (group : GroupName) :
      Exec sh (.leaveGroups id group) .access
        (sh.set (sh.clients.setConnectionGroups (sh.clients.connectionGroups.discard id group)))
        .idle
  | stateFound {id : ConnId} {rtt maxRtt rttSamples : Nat} {h : Handle}
      (hp : sh.clients.policy = .dropOnHighRtt maxRtt rttSamples)
      (hl : sh.clients.connections.lookup id = some h) :
      Exec sh (.lookupState id rtt) .access sh (.record h rtt)
  | stateMissing {id : ConnId} {rtt : Nat}
      (hl : sh.clients.connections.lookup id = none) :
      Exec sh (.lookupState id rtt) .access sh .idle
  | notSampled {id : ConnId} {rtt : Nat}
      (hp : ∀ maxRtt rttSamples, sh.clients.policy ≠ .dropOnHighRtt maxRtt rttSamples) :
      Exec sh (.lookupState id rtt) .access sh .idle
  | record {h : Handle} {rtt maxRtt rttSamples : Nat}
      (hp : sh.clients.policy = .dropOnHighRtt maxRtt rttSamples) :
      Exec sh (.record h rtt) .access
        (sh.set (sh.clients.setRttSamples h
          (pushSample rttSamples (sh.clients.states h).rttSamples rtt))) .idle
  | iter {excluded : List ConnId} {msg : Message} (layout : Layout) :
      Exec sh (.iter excluded msg) .access sh (.scan excluded msg layout 0 [])
  | scan {excluded : List ConnId} {msg : Message} {layout : Layout} {next : Nat}
      {found : List Handle} {ids : List ConnId} (hnext : next < layout.shards)
      (hids : Yields sh.clients.connections.keys layout next ids) :
      Exec sh (.scan excluded msg layout next found) .access sh
        (.scan excluded msg layout (next + 1)
          (found ++ (ids.filter (· ∉ excluded)).filterMap sh.clients.connections.lookup))
  | scanned {excluded : List ConnId} {msg : Message} {layout : Layout} {next : Nat}
      {found : List Handle} (hnext : layout.shards ≤ next) :
      Exec sh (.scan excluded msg layout next found) .access sh (.deliver ⟨none, msg, found⟩)
  | groupFound {group : GroupName} {excluded : List ConnId} {msg : Message}
      {members : Finset ConnId} (layout : Layout)
      (hl : sh.clients.groupMembers.lookup group = some members) :
      Exec sh (.openGroup group excluded msg) .access sh
        (.scanGroup group excluded msg layout 0 [] [])
  | groupMissing {group : GroupName} {excluded : List ConnId} {msg : Message}
      (hl : sh.clients.groupMembers.lookup group = none) :
      Exec sh (.openGroup group excluded msg) .access sh .idle
  | scanGroup {group : GroupName} {excluded : List ConnId} {msg : Message} {layout : Layout}
      {next : Nat} {found : List Handle} {ids : List ConnId} (hnext : next < layout.shards)
      (hids : Yields (sh.clients.groupMembers.values group) layout next ids) :
      Exec sh (.scanGroup group excluded msg layout next [] found) .access sh
        (.scanGroup group excluded msg layout (next + 1) (ids.filter (· ∉ excluded)) found)
  | lookupMember {group : GroupName} {excluded : List ConnId} {msg : Message}
      {layout : Layout} {next : Nat} {id : ConnId} {ids : List ConnId} {found : List Handle} :
      Exec sh (.scanGroup group excluded msg layout next (id :: ids) found) .access sh
        (.scanGroup group excluded msg layout next ids
          (found ++ (sh.clients.connections.lookup id).toList))
  | groupScanned {group : GroupName} {excluded : List ConnId} {msg : Message}
      {layout : Layout} {next : Nat} {found : List Handle} (hnext : layout.shards ≤ next) :
      Exec sh (.scanGroup group excluded msg layout next [] found) .access sh
        (.deliver ⟨some group, msg, found⟩)
  | nextFound {group : GroupName} {groups : List GroupName} {msg : Message}
      {seen : Finset ConnId} {found : List Handle} {members : Finset ConnId}
      (layout : Layout) (hl : sh.clients.groupMembers.lookup group = some members) :
      Exec sh (.openGroups (group :: groups) msg seen found) .access sh
        (.scanGroups group groups msg seen found layout 0 [])
  | nextMissing {group : GroupName} {groups : List GroupName} {msg : Message}
      {seen : Finset ConnId} {found : List Handle}
      (hl : sh.clients.groupMembers.lookup group = none) :
      Exec sh (.openGroups (group :: groups) msg seen found) .access sh
        (.openGroups groups msg seen found)
  | groupsDone {msg : Message} {seen : Finset ConnId} {found : List Handle} :
      Exec sh (.openGroups [] msg seen found) .access sh (.deliver ⟨none, msg, found⟩)
  | scanGroups {group : GroupName} {groups : List GroupName} {msg : Message}
      {seen : Finset ConnId} {found : List Handle} {layout : Layout} {next : Nat}
      {ids yielded : List ConnId} (hnext : next < layout.shards)
      (hids : Yields (sh.clients.groupMembers.values group) layout next yielded) :
      Exec sh (.scanGroups group groups msg seen found layout next ids) .access sh
        (.scanGroups group groups msg seen found layout (next + 1) (ids ++ yielded))
  | collected {group : GroupName} {groups : List GroupName} {msg : Message}
      {seen : Finset ConnId} {found : List Handle} {layout : Layout} {next : Nat}
      {ids : List ConnId} (hnext : layout.shards ≤ next) :
      Exec sh (.scanGroups group groups msg seen found layout next ids) .access sh
        (.filterGroups ids groups msg seen found)
  | duplicate {id : ConnId} {ids : List ConnId} {groups : List GroupName} {msg : Message}
      {seen : Finset ConnId} {found : List Handle} (hseen : id ∈ seen) :
      Exec sh (.filterGroups (id :: ids) groups msg seen found) .access sh
        (.filterGroups ids groups msg seen found)
  | lookupFirst {id : ConnId} {ids : List ConnId} {groups : List GroupName} {msg : Message}
      {seen : Finset ConnId} {found : List Handle} (hseen : id ∉ seen) :
      Exec sh (.filterGroups (id :: ids) groups msg seen found) .access sh
        (.filterGroups ids groups msg (insert id seen)
          (found ++ (sh.clients.connections.lookup id).toList))
  | filtered {groups : List GroupName} {msg : Message} {seen : Finset ConnId}
      {found : List Handle} :
      Exec sh (.filterGroups [] groups msg seen found) .access sh
        (.openGroups groups msg seen found)
  | next {held : Option GroupName} {msg : Message} {h : Handle} {rest : List Handle} :
      Exec sh (.deliver ⟨held, msg, h :: rest⟩) (.attempt h) sh
        (sh.clients.policy.firstAccess h ⟨held, msg, rest⟩)
  | delivered {held : Option GroupName} {msg : Message} :
      Exec sh (.deliver ⟨held, msg, []⟩) .access sh .idle
  | averagePanics {h : Handle} {d : Delivery}
      (havg : avgRtt (sh.clients.states h).rttSamples = none) :
      Exec sh (.average h d) .panic sh .idle
  | averageHigh {h : Handle} {d : Delivery} {maxRtt rttSamples avg : Nat}
      (hp : sh.clients.policy = .dropOnHighRtt maxRtt rttSamples)
      (havg : avgRtt (sh.clients.states h).rttSamples = some (some avg)) (hhigh : maxRtt < avg) :
      Exec sh (.average h d) .access sh (.drop h d)
  | averageLow {h : Handle} {d : Delivery} {maxRtt rttSamples : Nat} {avg : Option Nat}
      (hp : sh.clients.policy = .dropOnHighRtt maxRtt rttSamples)
      (havg : avgRtt (sh.clients.states h).rttSamples = some avg)
      (hlow : ∀ a ∈ avg, a ≤ maxRtt) :
      Exec sh (.average h d) .access sh (.send (.recipient h d))
  | accept {r : Receiver} (hroom : sh.Accepts (r.sender sh.clients)) :
      Exec sh (.send r) (.enqueue r) (sh.push (r.sender sh.clients) r.msg)
        (r.accepted sh.clients.policy)
  | refuse {r : Receiver} (hclosed : (sh.chans (r.sender sh.clients)).closed = true) :
      Exec sh (.send r) .access sh (r.refused sh.clients.policy)
  | suspend {r : Receiver} (hopen : (sh.chans (r.sender sh.clients)).closed = false) :
      Exec sh (.send r) (.suspend r) sh (.wait r)
  | resume {r : Receiver} (hroom : sh.Accepts (r.sender sh.clients)) :
      Exec sh (.wait r) (.enqueue r) (sh.push (r.sender sh.clients) r.msg)
        (r.accepted sh.clients.policy)
  | disconnect {r : Receiver} (hclosed : (sh.chans (r.sender sh.clients)).closed = true) :
      Exec sh (.wait r) .access sh (r.refused sh.clients.policy)
  | late {h : Handle} {d : Delivery} (hp : sh.clients.policy.Timed) :
      Exec sh (.wait (.recipient h d)) .access sh (.drop h d)
  | drop {h : Handle} {d : Delivery} :
      Exec sh (.drop h d) (.onDrop h) sh (sh.clients.policy.afterDrop h d)
  | countBelow {h : Handle} {d : Delivery} {timeout : Nat} {maxDrops : UInt32}
      (hp : sh.clients.policy = .dropConnection timeout maxDrops)
      (hlow : (sh.clients.states h).drops + 1 < maxDrops) :
      Exec sh (.count h d) (.count h)
        (sh.set (sh.clients.setDrops h ((sh.clients.states h).drops + 1))) (.deliver d)
  | countReached {h : Handle} {d : Delivery} {timeout : Nat} {maxDrops : UInt32}
      (hp : sh.clients.policy = .dropConnection timeout maxDrops)
      (hhigh : maxDrops ≤ (sh.clients.states h).drops + 1) :
      Exec sh (.count h d) (.count h)
        (sh.set (sh.clients.setDrops h ((sh.clients.states h).drops + 1))) (.evictRemove h d)
  | reset {h : Handle} {d : Delivery} :
      Exec sh (.reset h d) (.reset h) (sh.set (sh.clients.setDrops h 0)) (.deliver d)
  | evictFound {h victim : Handle} {d : Delivery}
      (hl : sh.clients.connections.lookup (sh.clients.states h).id = some victim) :
      Exec sh (.evictRemove h d) (.evict (sh.clients.states h).id)
        (sh.set (sh.clients.removeConnection (sh.clients.states h).id))
        (.evictCancel victim (sh.clients.states h).id d)
  | evictMissing {h : Handle} {d : Delivery}
      (hl : sh.clients.connections.lookup (sh.clients.states h).id = none) :
      Exec sh (.evictRemove h d) .access sh
        (.cleanTake (sh.clients.states h).id (.resume d))
  | evictCancel {victim : Handle} {id : ConnId} {d : Delivery} :
      Exec sh (.evictCancel victim id d) (.cancel (sh.clients.states victim).cancel)
        (sh.cancel (sh.clients.states victim).cancel) (.cleanTake id (.resume d))
  | cleanTaken {id : ConnId} {k : Cont} {taken : Finset GroupName} {groups : List GroupName}
      (hl : sh.clients.connectionGroups.lookup id = some taken) (hnd : groups.Nodup)
      (hmem : ∀ g, g ∈ groups ↔ g ∈ taken) :
      Exec sh (.cleanTake id k) .access
        (sh.set (sh.clients.setConnectionGroups (sh.clients.connectionGroups.erase id)))
        (.cleanNext id groups k)
  | cleanNothing {id : ConnId} {k : Cont}
      (hl : sh.clients.connectionGroups.lookup id = none) :
      Exec sh (.cleanTake id k) .access sh k.pc
  | cleanFound {id : ConnId} {group : GroupName} {groups : List GroupName} {k : Cont}
      {members : Finset ConnId} (hl : sh.clients.groupMembers.lookup group = some members) :
      Exec sh (.cleanNext id (group :: groups) k) .access sh (.cleanRemove id group groups k)
  | cleanMissing {id : ConnId} {group : GroupName} {groups : List GroupName} {k : Cont}
      (hl : sh.clients.groupMembers.lookup group = none) :
      Exec sh (.cleanNext id (group :: groups) k) .access sh (.cleanNext id groups k)
  | cleanDone {id : ConnId} {k : Cont} : Exec sh (.cleanNext id [] k) .access sh k.pc
  | cleanRemove {id : ConnId} {group : GroupName} {groups : List GroupName} {k : Cont} :
      Exec sh (.cleanRemove id group groups k) .access
        (sh.set (sh.clients.setGroupMembers (sh.clients.groupMembers.discard group id)))
        (.cleanCheck id group groups k)
  | cleanEmpty {id : ConnId} {group : GroupName} {groups : List GroupName} {k : Cont}
      (hempty : sh.clients.groupMembers.values group = ∅) :
      Exec sh (.cleanCheck id group groups k) .access sh (.cleanDelete id group groups k)
  | cleanKept {id : ConnId} {group : GroupName} {groups : List GroupName} {k : Cont}
      (hkept : sh.clients.groupMembers.values group ≠ ∅) :
      Exec sh (.cleanCheck id group groups k) .access sh (.cleanNext id groups k)
  | cleanDelete {id : ConnId} {group : GroupName} {groups : List GroupName} {k : Cont} :
      Exec sh (.cleanDelete id group groups k) .access
        (sh.set (sh.clients.setGroupMembers (sh.clients.groupMembers.erase group)))
        (.cleanNext id groups k)

/-- The store and one call in progress for each task; an idle task has none. -/
structure Calls (Task : Type) where
  shared : Shared
  pc : Task → Pc

namespace Calls

variable {Task : Type} (s : Calls Task)

/-- The call of `t` keeps a guard on the shard of `group`. -/
def Guards (t : Task) (group : GroupName) : Prop :=
  ∃ g ∈ (s.pc t).guards, s.shared.clients.shard g = s.shared.clients.shard group

/-- No guard of any call, the requester's own included, is on the shard of `group`. -/
def Unguarded (group : GroupName) : Prop :=
  ∀ u, ∀ g ∈ (s.pc u).guards, s.shared.clients.shard g ≠ s.shared.clients.shard group

/-- The exclusive lock that the next access of `t` needs is free. -/
def Granted (t : Task) : Prop := ∀ group ∈ (s.pc t).exclusive, s.Unguarded group

/-- No call is in progress. -/
def Quiescent : Prop := ∀ t, s.pc t = .idle

/-- A store without connections, and no call in progress. -/
def Fresh : Prop := (∃ policy shard, s.shared.clients = .new policy shard) ∧ s.Quiescent

variable {s} in
theorem granted_of_free {t : Task} (h : (s.pc t).exclusive = none) : s.Granted t := by
  intro group hg
  simp [h] at hg

variable {s} in
theorem granted_of_unguarded {t : Task} (h : ∀ u, (s.pc u).guards = []) : s.Granted t := by
  intro group _ u g hg
  simp [h u] at hg

variable [DecidableEq Task]

theorem unguarded_update {f : Task → Pc} {t : Task} {pc : Pc} (hf : ∀ u, (f u).guards = [])
    (hpc : pc.guards = []) : ∀ u, (Function.update f t pc u).guards = [] :=
  (Function.forall_update_iff f fun _ pc => pc.guards = []).mpr ⟨hpc, fun u _ => hf u⟩

def goto (t : Task) (sh : Shared) (pc : Pc) : Calls Task where
  shared := sh
  pc := Function.update s.pc t pc

@[simp] theorem goto_shared (t : Task) (sh : Shared) (pc : Pc) : (s.goto t sh pc).shared = sh := rfl

@[simp] theorem goto_pc (t : Task) (sh : Shared) (pc : Pc) : (s.goto t sh pc).pc t = pc := by
  simp [goto]

theorem goto_pc_ne {t u : Task} (h : u ≠ t) (sh : Shared) (pc : Pc) :
    (s.goto t sh pc).pc u = s.pc u := by
  simp [goto, h]

variable {s} in
/-- What the other calls keep, and the new position of `t` has, holds of all calls. -/
theorem forall_goto {P : Task → Pc → Prop} {t : Task} {pc : Pc} (sh : Shared) (hpc : P t pc)
    (h : ∀ u, u ≠ t → P u (s.pc u)) : ∀ u, P u ((s.goto t sh pc).pc u) :=
  (Function.forall_update_iff s.pc P).mpr ⟨hpc, h⟩

variable {s} in
/-- A step of `t` leaves the call of another task where it was. -/
theorem exists_goto {Q : Pc → Prop} {t : Task} {sh : Shared} {pc : Pc} (h : ∃ u, Q (s.pc u))
    (hne : ¬ Q (s.pc t)) : ∃ u, Q ((s.goto t sh pc).pc u) := by
  obtain ⟨u, hu⟩ := h
  have hut : u ≠ t := by
    rintro rfl
    exact hne hu
  exact ⟨u, by rwa [s.goto_pc_ne hut]⟩

variable {s} in
theorem exists_of_goto {Q : Pc → Prop} {t : Task} {sh : Shared} {pc : Pc}
    (h : ∃ u, Q ((s.goto t sh pc).pc u)) (hpc : ¬ Q pc) : ∃ u, Q (s.pc u) := by
  obtain ⟨u, hu⟩ := h
  have hut : u ≠ t := by
    rintro rfl
    rw [s.goto_pc] at hu
    exact hpc hu
  exact ⟨u, by rwa [s.goto_pc_ne hut] at hu⟩

variable {s} in
theorem exists_goto_iff {Q : Pc → Prop} {t : Task} {sh : Shared} {pc : Pc}
    (hne : ¬ Q (s.pc t)) (hpc : ¬ Q pc) : (∃ u, Q ((s.goto t sh pc).pc u)) ↔ ∃ u, Q (s.pc u) :=
  ⟨fun h => exists_of_goto h hpc, fun h => exists_goto h hne⟩

end Calls

inductive CallLabel (Task : Type) where
  | call (t : Task) (op : Op)
  | exec (t : Task) (e : Event)
  | abort (t : Task)
  | recv (sender : Sender)
  | close (sender : Sender)
  | cancel (token : CancelToken)

/-- One step of any call, or of the tasks at the other end of the channels. A call can be
aborted where it is suspended, when the future that runs it is dropped. -/
inductive CallStep {Task : Type} [DecidableEq Task] :
    Calls Task → CallLabel Task → Calls Task → Prop where
  | call {s : Calls Task} {t : Task} (op : Op) (hidle : s.pc t = .idle) :
      CallStep s (.call t op) (s.goto t s.shared op.start)
  | exec {s : Calls Task} {t : Task} {e : Event} {sh : Shared} {pc : Pc}
      (hfree : s.Granted t) (hx : Exec s.shared (s.pc t) e sh pc) :
      CallStep s (.exec t e) (s.goto t sh pc)
  | abort {s : Calls Task} {t : Task} {r : Receiver} (hpc : s.pc t = .wait r) :
      CallStep s (.abort t) (s.goto t s.shared .idle)
  | recv {s : Calls Task} (sender : Sender) :
      CallStep s (.recv sender) { s with shared := s.shared.pop sender }
  | close {s : Calls Task} (sender : Sender) :
      CallStep s (.close sender) { s with shared := s.shared.close sender }
  | cancel {s : Calls Task} (token : CancelToken) :
      CallStep s (.cancel token) { s with shared := s.shared.cancel token }

/-- An access of a task whose program counter is known. -/
theorem CallStep.at {Task : Type} [DecidableEq Task] {s : Calls Task} {t : Task} {e : Event}
    {sh : Shared} {pc pc' : Pc} (hpc : s.pc t = pc) (hfree : s.Granted t)
    (hx : Exec s.shared pc e sh pc') : CallStep s (.exec t e) (s.goto t sh pc') :=
  .exec hfree (hpc ▸ hx)

/-- The system of all calls. -/
def callSystem (Task : Type) [DecidableEq Task] : LTS (Calls Task) (CallLabel Task) :=
  ⟨CallStep⟩

end AxumSignal

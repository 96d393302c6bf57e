import AxumSignal.Lib.Transition
import AxumSignal.SelfLock
import Mathlib.Data.Set.Basic

/-! What the store is for: current registrations and a membership relation. Operations
run one after another refine it as long as each of them returns. -/
namespace AxumSignal

variable {env : CallEnv} {held : Option GroupName} {msg : Message} {w w' : World}
  {s s' : InMemoryWsClients} {id c : ConnId} {g group : GroupName} {h k : Handle}
  {rs : List Handle}

/-- The current registration of each id, and who is in which group. -/
@[ext]
structure Registry where
  reg : ConnId → Option Registration
  members : Set (ConnId × GroupName)

namespace Registry

variable (R : Registry)

def empty : Registry := ⟨fun _ => none, ∅⟩

def add (id : ConnId) (r : Registration) : Registry :=
  { R with reg := Function.update R.reg id (some r) }

def remove (id : ConnId) : Registry where
  reg := Function.update R.reg id none
  members := { p | p ∈ R.members ∧ p.1 ≠ id }

def join (id : ConnId) (group : GroupName) : Registry :=
  { R with members := insert (id, group) R.members }

def leave (id : ConnId) (group : GroupName) : Registry :=
  { R with members := R.members \ {(id, group)} }

/-- Policy evictions, each one a removal. -/
def evict (ids : List ConnId) : Registry := ids.foldl remove R

end Registry

/-- What an operation does to the registry, evictions apart. -/
def Op.apply (R : Registry) : Op → Registry
  | .add id sender cancel onDrop => R.add id ⟨sender, cancel, onDrop⟩
  | .remove id => R.remove id
  | .addToGroup id group => R.join id group
  | .removeFromGroup id group => R.leave id group
  | _ => R

/-- Who an operation delivers its message to. -/
def Op.recipients (R : Registry) : Op → Set ConnId
  | .unicast id (some _) => { c | c = id ∧ (R.reg c).isSome }
  | .broadcastExcept excluded (some _) => { c | (R.reg c).isSome ∧ c ∉ excluded }
  | .broadcastGroup group (some _) => { c | (R.reg c).isSome ∧ (c, group) ∈ R.members }
  | .broadcastGroupExcept group excluded (some _) =>
    { c | (R.reg c).isSome ∧ (c, group) ∈ R.members ∧ c ∉ excluded }
  | .broadcastGroups groups (some _) =>
    { c | (R.reg c).isSome ∧ ∃ group ∈ groups, (c, group) ∈ R.members }
  | _ => ∅

/-- The registry that a store represents. -/
def InMemoryWsClients.registry (s : InMemoryWsClients) : Registry where
  reg id := (s.connections.lookup id).map fun h => (s.states h).registration
  members := { p | p.1 ∈ s.groupMembers.values p.2 }

/-- The two indexes store the same membership relation. -/
def InMemoryWsClients.Indexed (s : InMemoryWsClients) : Prop :=
  SetMap.Converse s.groupMembers s.connectionGroups

theorem registry_new (policy : BroadcastPolicy) (shard : GroupName → Nat) :
    (InMemoryWsClients.new policy shard).registry = .empty := by
  simp [InMemoryWsClients.registry, InMemoryWsClients.new, Registry.empty]

theorem indexed_new (policy : BroadcastPolicy) (shard : GroupName → Nat) :
    (InMemoryWsClients.new policy shard).Indexed := SetMap.converse_empty

theorem registry_reg_isSome : (s.registry.reg c).isSome ↔ (s.connections.lookup c).isSome := by
  simp [InMemoryWsClients.registry]

theorem mem_registry_members : (c, g) ∈ s.registry.members ↔ c ∈ s.groupMembers.values g := Iff.rfl

theorem OnlyCounters.registry (h : OnlyCounters k s s') : s'.registry = s.registry := by
  simp [InMemoryWsClients.registry, h.connections, h.groupMembers, h.registration]

theorem OnlyCounters.indexed (h : OnlyCounters k s s') (hs : s.Indexed) : s'.Indexed := by
  unfold InMemoryWsClients.Indexed
  rw [h.groupMembers, h.connectionGroups]
  exact hs

theorem registry_insertConnection (s : InMemoryWsClients) (id : ConnId) (sender : Sender)
    (cancel : CancelToken) (onDrop : OnDropFn) :
    (s.insertConnection id sender cancel onDrop).registry =
      s.registry.add id ⟨sender, cancel, onDrop⟩ := by
  apply Registry.ext
  · funext c
    by_cases hc : c = id
    · subst hc
      simp [InMemoryWsClients.registry, InMemoryWsClients.insertConnection, Registry.add,
        ConnectionState.registration]
    · simp only [InMemoryWsClients.registry, InMemoryWsClients.insertConnection, Registry.add,
        Finmap.lookup_insert_of_ne _ hc, Function.update_of_ne hc]
      cases hl : s.connections.lookup c with
      | none => rfl
      | some h =>
        have hne : h ≠ s.allocated := Nat.ne_of_lt (s.key_allocated c h hl)
        simp [Function.update_of_ne hne]
  · rfl

/-- Removing a registration together with its listed memberships removes the id. -/
theorem registry_without (hs : s.Indexed) (env : CallEnv) (id : ConnId) :
    (s.without env id).registry = s.registry.remove id := by
  apply Registry.ext
  · funext c
    by_cases hc : c = id
    · subst hc
      simp [InMemoryWsClients.registry, Registry.remove]
    · simp [InMemoryWsClients.registry, Registry.remove, Finmap.lookup_erase_ne hc, hc]
  · ext ⟨c, g⟩
    simp only [InMemoryWsClients.registry, Registry.remove, Set.mem_ofPred_eq,
      mem_without_groupMembers]
    have := hs g c
    grind

theorem indexed_without (hs : s.Indexed) (env : CallEnv) (id : ConnId) :
    (s.without env id).Indexed :=
  SetMap.Converse.pruneAll hs id fun _ => env.order.mem_list

theorem registry_addToGroup (w : World) (id : ConnId) (group : GroupName) :
    (addToGroup w id group).clients.registry = w.clients.registry.join id group := by
  apply Registry.ext
  · rfl
  · ext ⟨c, g⟩
    simp [InMemoryWsClients.registry, addToGroup, Registry.join]
    grind

theorem registry_removeFromGroup (w : World) (id : ConnId) (group : GroupName) :
    (removeFromGroup w id group).clients.registry = w.clients.registry.leave id group := by
  apply Registry.ext
  · rfl
  · ext ⟨c, g⟩
    simp [InMemoryWsClients.registry, removeFromGroup, Registry.leave]
    grind

/-- What a policy broadcast that returns has done to its recipients. -/
structure DeliveredAll (env : CallEnv) (rs : List Handle) (w w' : World) : Prop where
  registry : w'.clients.registry = w.clients.registry.evict (evictedIds env w.clients rs)
  indexed : w'.clients.Indexed
  effects : ∃ es, w'.effects = w.effects ++ es ∧ attempts es = rs ∧
    evictions es = evictedIds env w.clients rs

theorem evict_cons (R : Registry) (id : ConnId) (ids : List ConnId) :
    R.evict (id :: ids) = (R.remove id).evict ids := rfl

theorem Delivered.cons (hp : ¬ AveragePanics w.clients k) (he : ¬ Evicts env w.clients k)
    (hne : ∀ h ∈ rs, h ≠ k) {v : World} (hv : Delivered k w v)
    (hw : DeliveredAll env rs v w') : DeliveredAll env (k :: rs) w w' := by
  have hc := hv.counters
  have hall : evictedIds env v.clients rs = evictedIds env w.clients (k :: rs) := by
    rw [evictedIds_congr hc.policy fun h hh => hc.other h (hne h hh)]
    simp [evictedIds, hp, he]
  obtain ⟨es, hes, ha, hev⟩ := hv.effects
  obtain ⟨fs, hfs, hfa, hfe⟩ := hw.effects
  refine ⟨?_, hw.indexed, es ++ fs, ?_, ?_, ?_⟩
  · rw [hw.registry, hall, hc.registry]
  · rw [hfs, hes, List.append_assoc]
  · simp [ha, hfa]
  · simp [hev, hfe, hall]

theorem Evicted.cons (hi : w.clients.Indexed) (hp : ¬ AveragePanics w.clients k)
    (he : Evicts env w.clients k) (hne : ∀ h ∈ rs, h ≠ k) {v : World}
    (hv : Evicted env k w v) (hw : DeliveredAll env rs v w') :
    DeliveredAll env (k :: rs) w w' := by
  obtain ⟨s₁, hc, hs₁⟩ := hv.counters
  have hrest : evictedIds env v.clients rs = evictedIds env w.clients rs :=
    evictedIds_congr hv.policy fun h hh => hv.other (hne h hh)
  have hall : evictedIds env w.clients (k :: rs) =
      (w.clients.states k).id :: evictedIds env w.clients rs := by
    simp [evictedIds, hp, he]
  obtain ⟨es, hes, ha, hev⟩ := hv.effects
  obtain ⟨fs, hfs, hfa, hfe⟩ := hw.effects
  refine ⟨?_, hw.indexed, es ++ fs, ?_, ?_, ?_⟩
  · rw [hw.registry, hrest, hall, evict_cons, hs₁, registry_without (hc.indexed hi),
      hc.registry]
  · rw [hfs, hes, List.append_assoc]
  · simp [ha, hfa]
  · simp [hev, hfe, hall, hrest]

theorem Evicted.indexed {v : World} (hv : Evicted env k w v) (hi : w.clients.Indexed) :
    v.clients.Indexed := by
  obtain ⟨s₁, hc, hs₁⟩ := hv.counters
  exact hs₁ ▸ indexed_without (hc.indexed hi) env _

/-- Without a panic and without a self-lock every recipient is delivered to. -/
theorem deliver_ok (msg : Message) (hi : w.clients.Indexed) (hd : Distinct w.clients rs)
    (hp : ∀ h ∈ rs, ¬ AveragePanics w.clients h)
    (hb : ¬ EmptiesHeldShard env held w.clients rs) :
    ∃ w', deliver env held msg w rs = .ok w' ∧ DeliveredAll env rs w w' := by
  induction rs generalizing w with
  | nil => exact ⟨w, rfl, rfl, hi, [], by simp, rfl, rfl⟩
  | cons k rs ih =>
    have hne := hd.ne_of_mem
    have hd' := (distinct_cons.mp hd).2
    have hpk := hp k List.mem_cons_self
    rw [← deliver_selfLock_iff msg hd, deliver_cons] at hb
    rw [deliver_cons]
    have ho := sendWithPolicy_outcome env held msg w k
    generalize sendWithPolicy env held msg w k = r at ho hb
    cases ho with
    | panics h => exact (hpk h).elim
    | blocks => exact (hb ⟨_, _, rfl⟩).elim
    | @evicts v _ he _ hv =>
      have hd₁ := hv.distinct hd'
      have hp₁ : ∀ h ∈ rs, ¬ AveragePanics v.clients h := by
        intro h hh
        rw [averagePanics_congr hv.policy (hv.other (hne h hh))]
        exact hp h (List.mem_cons_of_mem _ hh)
      obtain ⟨w', hw', hall⟩ := ih (hv.indexed hi) hd₁ hp₁
        ((deliver_selfLock_iff msg hd₁).not.mp hb)
      exact ⟨w', hw', hv.cons hi hpk he hne hall⟩
    | @keeps v _ he hv =>
      have hc := hv.counters
      have hd₁ := hc.distinct hd'
      have hp₁ : ∀ h ∈ rs, ¬ AveragePanics v.clients h := by
        intro h hh
        rw [averagePanics_congr hc.policy (hc.other h (hne h hh))]
        exact hp h (List.mem_cons_of_mem _ hh)
      obtain ⟨w', hw', hall⟩ := ih (hc.indexed hi) hd₁ hp₁
        ((deliver_selfLock_iff msg hd₁).not.mp hb)
      exact ⟨w', hw', hv.cons hpk he hne hall⟩

/-- A recipient whose average panics keeps the call from returning. -/
theorem deliver_panics (hd : Distinct w.clients rs)
    (hp : ∃ h ∈ rs, AveragePanics w.clients h) : deliver env held msg w rs ≠ .ok w' := by
  induction rs generalizing w with
  | nil => simp at hp
  | cons k rs ih =>
    have hne := hd.ne_of_mem
    have hd' := (distinct_cons.mp hd).2
    rw [deliver_cons]
    have ho := sendWithPolicy_outcome env held msg w k
    generalize sendWithPolicy env held msg w k = r at ho
    obtain ⟨h, hh, hpan⟩ := hp
    cases ho with
    | panics => simp [Except.bind]
    | blocks => simp [Except.bind]
    | @evicts v hpk he _ hv =>
      rcases List.mem_cons.mp hh with rfl | hh
      · exact (hpk hpan).elim
      · refine ih (hv.distinct hd') ⟨h, hh, ?_⟩
        rwa [averagePanics_congr hv.policy (hv.other (hne h hh))]
    | @keeps v hpk _ hv =>
      have hc := hv.counters
      rcases List.mem_cons.mp hh with rfl | hh
      · exact (hpk hpan).elim
      · refine ih (hc.distinct hd') ⟨h, hh, ?_⟩
        rwa [averagePanics_congr hc.policy (hc.other h (hne h hh))]

theorem mem_exceptRecipients {excluded : List ConnId} :
    h ∈ exceptRecipients env s excluded ↔
      ∃ c, c ∉ excluded ∧ s.connections.lookup c = some h := by
  have hkey : ∀ c, s.connections.lookup c = some h → c ∈ s.connections.keys := by
    intro c hc
    rw [Finmap.mem_keys, Finmap.mem_iff]
    exact ⟨h, hc⟩
  simp only [exceptRecipients, List.mem_filterMap, List.mem_filter, IterOrder.mem_list,
    decide_eq_true_eq]
  grind

theorem mem_groupRecipients {members : Finset ConnId} {keep : ConnId → Bool} :
    h ∈ groupRecipients env s members keep ↔
      ∃ c, c ∈ members ∧ keep c ∧ s.connections.lookup c = some h := by
  simp [groupRecipients, and_assoc]

theorem mem_groupsRecipients {groups : List GroupName} :
    h ∈ groupsRecipients env s groups ↔
      ∃ c, (∃ g ∈ groups, c ∈ s.groupMembers.values g) ∧ s.connections.lookup c = some h := by
  simp [groupsRecipients, mem_firstSeen]

/-- The snapshot of a broadcast holds the current registrations of its recipients. -/
theorem mem_snapshot {op : Op} (hm : op.message = some msg) :
    h ∈ op.snapshot env s ↔
      ∃ c ∈ op.recipients s.registry, s.connections.lookup c = some h := by
  cases op with
  | broadcastExcept | broadcastGroup | broadcastGroupExcept | broadcastGroups =>
    obtain rfl : _ = some msg := hm
    simp only [Op.snapshot, Op.recipients, mem_exceptRecipients, mem_groupRecipients,
      mem_groupsRecipients, Set.mem_ofPred_eq, registry_reg_isSome, mem_registry_members,
      decide_eq_true_eq]
    grind
  | add | remove | unicast | broadcast | addToGroup | removeFromGroup | updateRtt =>
    simp [Op.message] at hm

/-- A call from `w` has acted as its abstract operation and then evicted: it attempted
each current registration of its recipients once, and only recipients are evicted. -/
structure Performed (w : World) (op : Op) (w' : World) (es : List Effect) : Prop where
  effects : w'.effects = w.effects ++ es
  once : (attempts es).Nodup
  exactly : ∀ h, h ∈ attempts es ↔
    ∃ c ∈ op.recipients w.clients.registry, w.clients.connections.lookup c = some h
  evicted : ∀ c ∈ evictions es, c ∈ op.recipients w.clients.registry
  registry : w'.clients.registry = (op.apply w.clients.registry).evict (evictions es)

/-- The call gets past its own locks and averages. -/
def Op.Admissible (env : CallEnv) (s : InMemoryWsClients) (op : Op) : Prop :=
  ¬ op.EmptiesHeldShard env s ∧ ∀ h ∈ op.snapshot env s, ¬ AveragePanics s h

theorem apply_of_message {op : Op} (hm : op.message = some msg) (R : Registry) :
    op.apply R = R := by
  cases op <;> first | rfl | simp [Op.message] at hm

theorem performed_broadcast {op : Op} (hm : op.message = some msg) (hi : w.clients.Indexed)
    (ha : op.Admissible env w.clients) : ∃ w', op.exec env w = .ok w' ∧
      (∃ es, Performed w op w' es) ∧ w'.clients.Indexed := by
  have hd := distinct_snapshot env w.clients op
  obtain ⟨w', hok, hall⟩ := deliver_ok msg hi hd ha.2 ha.1
  obtain ⟨es, hes, hat, hev⟩ := hall.effects
  refine ⟨w', by rw [exec_of_message hm, hok], ⟨es, hes, ?_, ?_, ?_, ?_⟩, hall.indexed⟩
  · rw [hat]
    exact hd.of_map _
  · intro h
    rw [hat, mem_snapshot hm]
  · intro c hc
    rw [hev] at hc
    obtain ⟨h, hh, hid⟩ := evictedIds_subset hc
    obtain ⟨c', hc', hl⟩ := (mem_snapshot hm).mp hh
    rwa [← hid, w.clients.key_id c' h hl]
  · rw [hall.registry, hev, apply_of_message hm]

/-- A call without deliveries performs its abstract operation when the registry follows. -/
theorem performed_quiet {op : Op} (he : w'.effects = w.effects)
    (hr : w'.clients.registry = op.apply w.clients.registry)
    (hq : op.recipients w.clients.registry = ∅) : ∃ es, Performed w op w' es :=
  ⟨[], by simp [he], List.nodup_nil, by simp [attempts, hq], by simp [evictions], by
    simp [hr, evictions, Registry.evict]⟩

theorem performed_unicast (env : CallEnv) (w : World) (id : ConnId) (msg : Option Message) :
    (∃ es, Performed w (.unicast id msg) (unicast env w id msg) es) ∧
      (unicast env w id msg).clients = w.clients := by
  cases msg with
  | none => exact ⟨performed_quiet rfl rfl rfl, rfl⟩
  | some msg =>
    cases hl : w.clients.connections.lookup id with
    | none =>
      simp only [unicast, hl]
      refine ⟨performed_quiet rfl rfl ?_, trivial⟩
      ext c
      simp only [Op.recipients, registry_reg_isSome, Set.mem_ofPred_eq, Set.mem_empty_iff_false,
        iff_false, not_and]
      rintro rfl
      simp [hl]
    | some k =>
      have hone : ∀ h, (h = k ↔ ∃ c ∈ (Op.unicast id (some msg)).recipients w.clients.registry,
          w.clients.connections.lookup c = some h) := by
        intro h
        simp only [Op.recipients, registry_reg_isSome, Set.mem_ofPred_eq]
        grind
      simp only [unicast, hl, sendIgnoringError]
      split
      · exact ⟨⟨_, emit_emit_effects _ _ _, List.nodup_singleton _,
          fun h => List.mem_singleton.trans (hone h), by simp [evictions], rfl⟩, rfl⟩
      · exact ⟨⟨_, emit_effects _ _, List.nodup_singleton _,
          fun h => List.mem_singleton.trans (hone h), by simp [evictions], rfl⟩, rfl⟩

theorem updateRtt_counters (w : World) (id : ConnId) (rtt : Nat) :
    ∃ k, OnlyCounters k w.clients (updateRtt w id rtt).clients ∧
      (updateRtt w id rtt).effects = w.effects := by
  unfold updateRtt
  split
  · split
    · exact ⟨0, onlyCounters_refl _ _, rfl⟩
    · exact ⟨_, onlyCounters_setRttSamples _ _ _, rfl⟩
  · exact ⟨0, onlyCounters_refl _ _, rfl⟩

theorem performed_other {op : Op} (hm : op.message = none) (env : CallEnv)
    (hi : w.clients.Indexed) : ∃ w', op.exec env w = .ok w' ∧
      (∃ es, Performed w op w' es) ∧ w'.clients.Indexed := by
  cases op with
  | broadcastExcept | broadcastGroup | broadcastGroupExcept | broadcastGroups =>
    obtain rfl : _ = none := hm
    exact ⟨w, rfl, performed_quiet rfl rfl rfl, hi⟩
  | add id sender cancel onDrop =>
    refine ⟨_, rfl, performed_quiet rfl ?_ rfl, hi⟩
    exact registry_insertConnection w.clients id sender cancel onDrop
  | remove id =>
    refine ⟨_, remove_ok env w id, performed_quiet rfl ?_ rfl, indexed_without hi env id⟩
    exact registry_without hi env id
  | unicast id msg =>
    obtain ⟨hp, hc⟩ := performed_unicast env w id msg
    exact ⟨_, rfl, hp, hc ▸ hi⟩
  | broadcast msg => cases msg <;> exact ⟨_, rfl, performed_quiet rfl rfl rfl, hi⟩
  | addToGroup id group =>
    refine ⟨_, rfl, performed_quiet rfl (registry_addToGroup w id group) rfl, ?_⟩
    exact SetMap.Converse.add hi group id
  | removeFromGroup id group =>
    refine ⟨_, rfl, performed_quiet rfl (registry_removeFromGroup w id group) rfl, ?_⟩
    exact SetMap.Converse.discard hi group id
  | updateRtt id rtt =>
    obtain ⟨k, hc, he⟩ := updateRtt_counters w id rtt
    exact ⟨_, rfl, performed_quiet he hc.registry rfl, hc.indexed hi⟩

/-- The step lemma: an admissible call returns, acts as its abstract operation and keeps
the two indexes converse. -/
theorem performed_call (op : Op) (hi : w.clients.Indexed) (ha : op.Admissible env w.clients) :
    ∃ w', op.exec env w = .ok w' ∧ (∃ es, Performed w op w' es) ∧ w'.clients.Indexed := by
  cases hm : op.message with
  | none => exact performed_other hm env hi
  | some msg => exact performed_broadcast hm hi ha

/-- A call that is not admissible never returns. -/
theorem admissible_of_ok {op : Op} (h : op.exec env w = .ok w') :
    op.Admissible env w.clients := by
  have hd := distinct_snapshot env w.clients op
  constructor
  · intro hb
    obtain ⟨v, g, hv⟩ := (op_selfLock_iff env w op).mpr hb
    simp [h] at hv
  · intro k hk hp
    cases hm : op.message with
    | none => simp [snapshot_of_no_message hm] at hk
    | some msg =>
      rw [exec_of_message hm] at h
      exact deliver_panics hd ⟨k, hk, hp⟩ h

/-- Calls one after another, each of which returns. -/
def serial : Transition.LTS World (CallEnv × Op) where
  Tr w call w' := call.2.exec call.1 w = .ok w'

theorem indexed_call {op : Op} (hi : w.clients.Indexed) (hok : op.exec env w = .ok w') :
    w'.clients.Indexed := by
  obtain ⟨v, hv, _, hi'⟩ := performed_call op hi (admissible_of_ok hok)
  obtain rfl : v = w' := Except.ok.inj (hv.symm.trans hok)
  exact hi'

theorem indexed_serial {calls : List (CallEnv × Op)} (hi : w.clients.Indexed)
    (hrun : serial.Run w calls w') : w'.clients.Indexed := by
  have hpres : serial.Preserves fun w => w.clients.Indexed := by
    intro u call v hok hu
    exact indexed_call hu hok
  exact hrun.invariant (I := fun w => w.clients.Indexed) hpres hi

/-- Every call of the sequence returns and acts as its abstract operation. -/
def Refines (w : World) : List (CallEnv × Op) → Prop
  | [] => True
  | (env, op) :: calls =>
    ∃ w', op.exec env w = .ok w' ∧ (∃ es, Performed w op w' es) ∧ Refines w' calls

/-- Every call of the sequence is admissible in the store it meets. -/
def AllAdmissible (w : World) : List (CallEnv × Op) → Prop
  | [] => True
  | (env, op) :: calls =>
    op.Admissible env w.clients ∧ ∀ w', op.exec env w = .ok w' → AllAdmissible w' calls

theorem refines_iff_of_indexed (calls : List (CallEnv × Op)) (hi : w.clients.Indexed) :
    Refines w calls ↔ AllAdmissible w calls := by
  induction calls generalizing w with
  | nil => exact Iff.rfl
  | cons call calls ih =>
    obtain ⟨env, op⟩ := call
    constructor
    · rintro ⟨w', hok, _, hrest⟩
      have ha := admissible_of_ok hok
      obtain ⟨v, hv, _, hi'⟩ := performed_call op hi ha
      obtain rfl : v = w' := Except.ok.inj (hv.symm.trans hok)
      refine ⟨ha, fun u hu => ?_⟩
      obtain rfl : v = u := Except.ok.inj (hv.symm.trans hu)
      exact (ih hi').mp hrest
    · rintro ⟨ha, hrest⟩
      obtain ⟨w', hok, hp, hi'⟩ := performed_call op hi ha
      exact ⟨w', hok, hp, (ih hi').mpr (hrest w' hok)⟩

/-- From a fresh store, a sequence of calls refines the registry exactly when no call
empties a group of the shard it guards and no recipient's RTT average panics. -/
theorem refines_iff (policy : BroadcastPolicy) (shard : GroupName → Nat)
    (calls : List (CallEnv × Op)) :
    Refines ⟨.new policy shard, []⟩ calls ↔ AllAdmissible ⟨.new policy shard, []⟩ calls :=
  refines_iff_of_indexed calls (indexed_new policy shard)

/-- Register, join, and lose the only member of the group to a late group broadcast. -/
def evictingCalls : List (CallEnv × Op) :=
  [(lateEnv, .add "c" "tx" "token" "drop"), (lateEnv, .addToGroup "c" "g"),
    (lateEnv, .broadcastGroup "g" (some (.text "hello")))]

/-- The broadcast of these calls never returns. -/
theorem evictingCalls_not_refines :
    ¬ Refines ⟨.new (.dropConnection second 1) (fun _ => 0), []⟩ evictingCalls := by
  rintro ⟨w₁, h₁, _, w₂, h₂, _, w₃, h₃, _⟩
  obtain rfl := Except.ok.inj h₁
  obtain rfl := Except.ok.inj h₂
  exact (admissible_of_ok h₃).1 (onlyMember_empties _)

end AxumSignal

import AxumSignal.Lib.Transition
import AxumSignal.Registry

/-! What is left in the store when its connections are gone. A clean-up deletes the groups it
empties; a connection that leaves a group by itself does not. -/
namespace AxumSignal

open Transition LTS

variable {env : CallEnv} {held : Option GroupName} {msg : Message} {w w' : World}
  {s s' : InMemoryWsClients} {id c : ConnId} {g group : GroupName} {k : Handle}
  {rs : List Handle} {op : Op} {xs : List (CallEnv × Op)}

/-- A group operation is made for a registered connection. -/
def Op.ForRegistered (s : InMemoryWsClients) : Op → Prop
  | .addToGroup id _ | .removeFromGroup id _ => (s.connections.lookup id).isSome
  | _ => True

/-- Calls one after another, each of which returns. -/
def sequential : LTS World (CallEnv × Op) where
  Tr w call w' := call.2.ForRegistered w.clients ∧ call.2.exec call.1 w = .ok w'

/-- No group is without members, and nothing is left without a connection. -/
structure InMemoryWsClients.Pruned (s : InMemoryWsClients) : Prop where
  groups : ∀ g, s.groupMembers.lookup g ≠ some ∅
  gone : s.connections = ∅ → s.groupMembers = ∅ ∧ s.connectionGroups = ∅

/-- The connection leaves a group whose only member it is. -/
def Op.LeavesLast (s : InMemoryWsClients) : Op → Prop
  | .removeFromGroup id group => s.groupMembers.lookup group = some {id}
  | _ => False

/-- Only registered connections have groups, and every group has members. -/
structure InMemoryWsClients.Kept (s : InMemoryWsClients) : Prop where
  indexed : s.Indexed
  groups : ∀ g, s.groupMembers.lookup g ≠ some ∅
  listed : ∀ c, (s.connectionGroups.lookup c).isSome → (s.connections.lookup c).isSome

theorem kept_new (policy : BroadcastPolicy) (shard : GroupName → Nat) :
    (InMemoryWsClients.new policy shard).Kept where
  indexed := indexed_new policy shard
  groups g := by simp [InMemoryWsClients.new]
  listed c h := by simp [InMemoryWsClients.new] at h

theorem lookup_eq_empty {K V : Type} [DecidableEq K] {m : Finmap fun _ : K => V}
    (h : ∀ k, m.lookup k = none) : m = ∅ :=
  Finmap.ext_lookup fun k => by simp [h k]

theorem InMemoryWsClients.Kept.pruned (h : s.Kept) : s.Pruned where
  groups := h.groups
  gone hempty := by
    have hlists : s.connectionGroups = ∅ := by
      refine lookup_eq_empty fun c => ?_
      by_contra hc
      have hreg := h.listed c (Option.isSome_iff_ne_none.mpr hc)
      simp [hempty] at hreg
    refine ⟨lookup_eq_empty fun g => ?_, hlists⟩
    cases hl : s.groupMembers.lookup g with
    | none => rfl
    | some members =>
      obtain ⟨c, hc⟩ : members.Nonempty := by
        rw [Finset.nonempty_iff_ne_empty]
        rintro rfl
        exact h.groups g hl
      have hmem : c ∈ s.groupMembers.values g := by rwa [SetMap.values_of_lookup hl]
      have hlist := (h.indexed g c).mp hmem
      simp [hlists] at hlist

theorem OnlyCounters.kept (hc : OnlyCounters k s s') (h : s.Kept) : s'.Kept where
  indexed := hc.indexed h.indexed
  groups := by
    rw [hc.groupMembers]
    exact h.groups
  listed := by
    rw [hc.connectionGroups, hc.connections]
    exact h.listed

/-- Pruning leaves no key with an empty set behind. -/
theorem lookup_pruneAll_ne {m : SetMap GroupName ConnId} {groups : List GroupName}
    (hnd : groups.Nodup) (h : m.lookup g ≠ some ∅) : (m.pruneAll id groups).lookup g ≠ some ∅ := by
  by_cases hg : g ∈ groups
  · rw [SetMap.lookup_pruneAll_of_mem hnd hg]
    cases hl : m.lookup g with
    | none => simp
    | some members =>
      simp only [Option.bind_some]
      split
      · simp
      · rename_i hne
        simpa using hne
  · rwa [SetMap.lookup_pruneAll_of_notMem hg]

theorem kept_without (h : s.Kept) (env : CallEnv) (id : ConnId) : (s.without env id).Kept where
  indexed := indexed_without h.indexed env id
  groups g := lookup_pruneAll_ne (env.order.nodup_list _) (h.groups g)
  listed c hc := by
    rw [without_connectionGroups] at hc
    rw [without_connections]
    by_cases hid : c = id
    · subst hid
      simp at hc
    · rw [Finmap.lookup_erase_ne hid] at hc ⊢
      exact h.listed c hc

/-- Deliveries that end evict completely or change counters only. -/
theorem kept_deliver (h : w.clients.Kept) (hok : deliver env held msg w rs = .ok w') :
    w'.clients.Kept := by
  induction rs generalizing w with
  | nil =>
    obtain rfl := Except.ok.inj hok
    exact h
  | cons k rs ih =>
    rw [deliver_cons] at hok
    have ho := sendWithPolicy_outcome env held msg w k
    generalize sendWithPolicy env held msg w k = r at ho hok
    cases ho with
    | panics | blocks => simp [Except.bind] at hok
    | evicts _ _ _ hv =>
      obtain ⟨s₁, hc, hs₁⟩ := hv.counters
      refine ih ?_ hok
      rw [hs₁]
      exact kept_without (hc.kept h) _ _
    | keeps _ _ hv => exact ih (hv.counters.kept h) hok

theorem kept_addToGroup (h : w.clients.Kept) (hreg : (w.clients.connections.lookup id).isSome) :
    (addToGroup w id group).clients.Kept where
  indexed := SetMap.Converse.add h.indexed group id
  groups g := by
    by_cases hg : g = group
    · subst hg
      simp [addToGroup, SetMap.lookup_add_self]
    · simpa [addToGroup, SetMap.lookup_add_ne hg] using h.groups g
  listed c hc := by
    by_cases hid : c = id
    · subst hid
      simpa [addToGroup] using hreg
    · simp only [addToGroup, set_clients, setConnectionGroups_connectionGroups,
        SetMap.lookup_add_ne hid] at hc
      exact h.listed c hc

/-- Leaving a group empties it exactly if it had no other member. -/
theorem lookup_discard_eq_empty {m : SetMap GroupName ConnId} (h : ∀ g, m.lookup g ≠ some ∅) :
    (∃ g, (m.discard group id).lookup g = some ∅) ↔ m.lookup group = some {id} := by
  constructor
  · rintro ⟨g, hg⟩
    by_cases hne : g = group
    · subst hne
      rw [SetMap.lookup_discard_self] at hg
      obtain ⟨members, hl, hempty⟩ := Option.map_eq_some_iff.mp hg
      rcases Finset.erase_eq_empty_iff members id |>.mp hempty with rfl | rfl
      · exact (h g hl).elim
      · exact hl
    · rw [SetMap.lookup_discard_ne hne] at hg
      exact (h g hg).elim
  · intro hl
    exact ⟨group, by simp [SetMap.lookup_discard_self, hl]⟩

theorem lookup_discard_isSome {m : SetMap ConnId GroupName} :
    ((m.discard id group).lookup c).isSome ↔ (m.lookup c).isSome := by
  by_cases hid : c = id
  · subst hid
    simp [SetMap.lookup_discard_self]
  · rw [SetMap.lookup_discard_ne hid]

theorem kept_removeFromGroup (h : w.clients.Kept)
    (hlast : w.clients.groupMembers.lookup group ≠ some {id}) :
    (removeFromGroup w id group).clients.Kept where
  indexed := SetMap.Converse.discard h.indexed group id
  groups g hg := hlast ((lookup_discard_eq_empty h.groups).mp ⟨g, hg⟩)
  listed c hc := h.listed c (lookup_discard_isSome.mp hc)

/-- The step lemma: every call that returns keeps the maps pruned, unless it leaves the last
member's place in a group empty. -/
theorem kept_call (h : w.clients.Kept) (hreg : op.ForRegistered w.clients)
    (hok : op.exec env w = .ok w') (hlast : ¬ op.LeavesLast w.clients) : w'.clients.Kept := by
  cases hm : op.message with
  | some msg =>
    rw [exec_of_message hm] at hok
    exact kept_deliver h hok
  | none =>
    cases op with
    | broadcastExcept | broadcastGroup | broadcastGroupExcept | broadcastGroups =>
      obtain rfl : _ = none := hm
      obtain rfl := Except.ok.inj hok
      exact h
    | add id sender cancel onDrop =>
      obtain rfl := Except.ok.inj hok
      refine ⟨h.indexed, h.groups, fun c hc => ?_⟩
      by_cases hid : c = id
      · subst hid
        simp [add, InMemoryWsClients.insertConnection]
      · simpa [add, InMemoryWsClients.insertConnection, Finmap.lookup_insert_of_ne _ hid] using
          h.listed c hc
    | remove id =>
      obtain rfl := Except.ok.inj ((remove_ok env w id).symm.trans hok)
      exact kept_without h env id
    | unicast id msg =>
      obtain rfl := Except.ok.inj hok
      rw [(performed_unicast env w id msg).2]
      exact h
    | broadcast msg =>
      obtain rfl := Except.ok.inj hok
      cases msg <;> exact ⟨h.indexed, h.groups, h.listed⟩
    | addToGroup id group =>
      obtain rfl := Except.ok.inj hok
      exact kept_addToGroup h hreg
    | removeFromGroup id group =>
      obtain rfl := Except.ok.inj hok
      exact kept_removeFromGroup h hlast
    | updateRtt id rtt =>
      obtain rfl := Except.ok.inj hok
      obtain ⟨k, hc, _⟩ := updateRtt_counters w id rtt
      exact hc.kept h

/-- The other direction: the group is left behind without members. -/
theorem leavesLast_not_pruned (h : w.clients.Kept) (hok : op.exec env w = .ok w')
    (hlast : op.LeavesLast w.clients) : ¬ w'.clients.Pruned := by
  cases op with
  | removeFromGroup id group =>
    obtain rfl := Except.ok.inj hok
    obtain ⟨g, hg⟩ := (lookup_discard_eq_empty h.groups).mpr hlast
    exact fun hp => hp.groups g hg
  | _ => exact hlast.elim

/-- After every call of a sequence the maps are pruned, exactly if no call of the sequence
takes the last member of a group out by `remove_from_group`. -/
theorem pruned_iff (policy : BroadcastPolicy) (shard : GroupName → Nat) :
    (sequential.restrict fun _ _ w => w.clients.Pruned).Run ⟨.new policy shard, []⟩ xs w ↔
      (sequential.restrict fun w call _ => ¬ call.2.LeavesLast w.clients).Run
        ⟨.new policy shard, []⟩ xs w := by
  have hagree : ∀ w call w', sequential.Tr w call w' → w.clients.Kept →
      (w'.clients.Pruned ↔ ¬ call.2.LeavesLast w.clients) := by
    rintro w ⟨env, op⟩ w' ⟨hreg, hok⟩ h
    exact ⟨fun hp hlast => leavesLast_not_pruned h hok hlast hp,
      fun hlast => (kept_call h hreg hok hlast).pruned⟩
  refine run_restrict_congr (I := fun w => w.clients.Kept) hagree ?_ (kept_new policy shard)
  rintro w ⟨env, op⟩ w' ⟨hstep, hp⟩ h
  exact kept_call h hstep.1 hstep.2 ((hagree _ _ _ hstep h).mp hp)

/-- Register, join, leave and unregister the only member of a group. -/
def roomVisit : List (CallEnv × Op) :=
  [(lateEnv, .add "c" "tx" "token" "drop"), (lateEnv, .addToGroup "c" "room"),
    (lateEnv, .removeFromGroup "c" "room"), (lateEnv, .remove "c")]

/-- The group outlives the last connection of the store. -/
theorem roomVisit_not_pruned : ∃ w, sequential.Run ⟨.new .block (fun _ => 0), []⟩ roomVisit w ∧
    w.clients.connections = ∅ ∧ w.clients.groupMembers.lookup "room" = some ∅ ∧
      ¬ w.clients.Pruned := by
  let w₃ : World := removeFromGroup (addToGroup
    (add ⟨.new .block (fun _ => 0), []⟩ "c" "tx" "token" "drop") "c" "room") "c" "room"
  have hgroups : w₃.clients.connectionGroups.values "c" = ∅ := by decide
  have hroom : w₃.clients.groupMembers.lookup "room" = some ∅ := by decide
  have hleft : (w₃.clients.unlinked lateEnv "c").groupMembers.lookup "room" = some ∅ := by
    simp [InMemoryWsClients.unlinked, hgroups, SetMap.pruneAll, hroom]
  exact ⟨_, .step ⟨trivial, rfl⟩ <| .step ⟨rfl, rfl⟩ <| .step ⟨rfl, rfl⟩ <|
    .single ⟨trivial, remove_ok _ _ _⟩, by decide, hleft, fun hp => hp.groups "room" hleft⟩

end AxumSignal

import AxumSignal.Clients

/-! What each operation of the store does to its maps. One lemma for a delivery, one for
a clean-up; the recipients of a call are delivered to independently of each other. -/
namespace AxumSignal

variable {env : CallEnv} {held : Option GroupName} {msg : Message} {w w' : World}
  {s : InMemoryWsClients} {id c : ConnId} {g : GroupName} {h k : Handle}

@[simp] theorem set_clients (w : World) (s : InMemoryWsClients) : (w.set s).clients = s := rfl
@[simp] theorem set_effects (w : World) (s : InMemoryWsClients) :
    (w.set s).effects = w.effects := rfl
@[simp] theorem emit_clients (w : World) (e : Effect) : (w.emit e).clients = w.clients := rfl
@[simp] theorem emit_effects (w : World) (e : Effect) :
    (w.emit e).effects = w.effects ++ [e] := rfl

section fields

variable (s : InMemoryWsClients)

@[simp] theorem setGroupMembers_groupMembers (m : SetMap GroupName ConnId) :
    (s.setGroupMembers m).groupMembers = m := rfl
@[simp] theorem setGroupMembers_connectionGroups (m : SetMap GroupName ConnId) :
    (s.setGroupMembers m).connectionGroups = s.connectionGroups := rfl
@[simp] theorem setGroupMembers_connections (m : SetMap GroupName ConnId) :
    (s.setGroupMembers m).connections = s.connections := rfl
@[simp] theorem setGroupMembers_shard (m : SetMap GroupName ConnId) :
    (s.setGroupMembers m).shard = s.shard := rfl
@[simp] theorem setGroupMembers_policy (m : SetMap GroupName ConnId) :
    (s.setGroupMembers m).policy = s.policy := rfl
@[simp] theorem setGroupMembers_states (m : SetMap GroupName ConnId) :
    (s.setGroupMembers m).states = s.states := rfl
@[simp] theorem setGroupMembers_setGroupMembers (m n : SetMap GroupName ConnId) :
    (s.setGroupMembers m).setGroupMembers n = s.setGroupMembers n := rfl
@[simp] theorem setConnectionGroups_groupMembers (m : SetMap ConnId GroupName) :
    (s.setConnectionGroups m).groupMembers = s.groupMembers := rfl
@[simp] theorem setConnectionGroups_connectionGroups (m : SetMap ConnId GroupName) :
    (s.setConnectionGroups m).connectionGroups = m := rfl
@[simp] theorem setConnectionGroups_connections (m : SetMap ConnId GroupName) :
    (s.setConnectionGroups m).connections = s.connections := rfl
@[simp] theorem setConnectionGroups_shard (m : SetMap ConnId GroupName) :
    (s.setConnectionGroups m).shard = s.shard := rfl
@[simp] theorem setConnectionGroups_policy (m : SetMap ConnId GroupName) :
    (s.setConnectionGroups m).policy = s.policy := rfl
@[simp] theorem setConnectionGroups_states (m : SetMap ConnId GroupName) :
    (s.setConnectionGroups m).states = s.states := rfl
@[simp] theorem removeConnection_connections (id : ConnId) :
    (s.removeConnection id).connections = s.connections.erase id := rfl
@[simp] theorem removeConnection_groupMembers (id : ConnId) :
    (s.removeConnection id).groupMembers = s.groupMembers := rfl
@[simp] theorem removeConnection_connectionGroups (id : ConnId) :
    (s.removeConnection id).connectionGroups = s.connectionGroups := rfl
@[simp] theorem removeConnection_states (id : ConnId) :
    (s.removeConnection id).states = s.states := rfl
@[simp] theorem removeConnection_policy (id : ConnId) :
    (s.removeConnection id).policy = s.policy := rfl
@[simp] theorem removeConnection_shard (id : ConnId) :
    (s.removeConnection id).shard = s.shard := rfl

end fields

/-- A lookup by key returns the registration stored under that key. -/
theorem lookup_ids (s : InMemoryWsClients) (ids : List ConnId) :
    (ids.filterMap s.connections.lookup).map (fun h => (s.states h).id) =
      ids.filter fun id => (s.connections.lookup id).isSome := by
  induction ids with
  | nil => rfl
  | cons id ids ih =>
    cases hl : s.connections.lookup id with
    | none => simp [hl, ih]
    | some h => simp [hl, ih, s.key_id id h hl]

/-- Deleting the group from inside the call would request a shard lock that the call's
own guard holds. -/
def LocksSelf (held : Option GroupName) (s : InMemoryWsClients) (id : ConnId)
    (group : GroupName) : Prop :=
  (∃ g ∈ held, s.shard g = s.shard group) ∧
    ∃ members, s.groupMembers.lookup group = some members ∧ members.erase id = ∅

theorem locksSelf_none (s : InMemoryWsClients) (id : ConnId) (g : GroupName) :
    ¬ LocksSelf none s id g := by
  rintro ⟨⟨g', hg, _⟩, _⟩
  simp at hg

/-- Pruning one group does not change whether another one blocks. -/
theorem locksSelf_prune {g' : GroupName} (hne : g' ≠ g) :
    LocksSelf held (s.setGroupMembers (s.groupMembers.prune id g)) id g' ↔
      LocksSelf held s id g' := by
  simp [LocksSelf, SetMap.lookup_prune_ne hne]

theorem cleanupGroup_ok (h : ¬ LocksSelf held w.clients id g) :
    cleanupGroup held id w g =
      .ok (w.set (w.clients.setGroupMembers (w.clients.groupMembers.prune id g))) := by
  unfold cleanupGroup SetMap.prune
  cases hl : w.clients.groupMembers.lookup g with
  | none => rfl
  | some members =>
    by_cases he : members.erase id = ∅
    · have hfree : (held.any fun g₀ => w.clients.shard g₀ = w.clients.shard g) = false := by
        by_contra hany
        apply h
        simp only [Bool.not_eq_false, Option.any_eq_true, decide_eq_true_eq] at hany
        exact ⟨hany, members, hl, he⟩
      simp [he, hfree]
    · simp [he]

theorem cleanupGroup_blocked (h : LocksSelf held w.clients id g) :
    ∃ w', cleanupGroup held id w g = .error (.selfLock w' g) := by
  obtain ⟨hshard, members, hl, he⟩ := h
  have hany : (held.any fun g₀ => w.clients.shard g₀ = w.clients.shard g) = true := by
    simpa [Option.any_eq_true] using hshard
  refine ⟨w.set (w.clients.setGroupMembers (w.clients.groupMembers.discard g id)), ?_⟩
  simp [cleanupGroup, hl, he, hany]

theorem cleanup_fold_ok {groups : List GroupName} (hnd : groups.Nodup)
    (h : ∀ g ∈ groups, ¬ LocksSelf held w.clients id g) :
    groups.foldlM (cleanupGroup held id) w =
      .ok (w.set (w.clients.setGroupMembers (w.clients.groupMembers.pruneAll id groups))) := by
  induction groups generalizing w with
  | nil => rfl
  | cons g groups ih =>
    obtain ⟨hg, hnd⟩ := List.nodup_cons.mp hnd
    rw [List.foldlM_cons, cleanupGroup_ok (h g List.mem_cons_self)]
    refine ih hnd fun g' hg' => ?_
    have hne : g' ≠ g := fun he => hg (he ▸ hg')
    exact fun hl => h g' (List.mem_cons_of_mem _ hg') ((locksSelf_prune hne).mp hl)

theorem cleanup_fold_blocked {groups : List GroupName} (hnd : groups.Nodup)
    (h : ∃ g ∈ groups, LocksSelf held w.clients id g) :
    ∃ w' g, groups.foldlM (cleanupGroup held id) w = .error (.selfLock w' g) := by
  induction groups generalizing w with
  | nil => simp at h
  | cons g groups ih =>
    obtain ⟨hg, hnd⟩ := List.nodup_cons.mp hnd
    rw [List.foldlM_cons]
    by_cases hb : LocksSelf held w.clients id g
    · obtain ⟨w', hw⟩ := cleanupGroup_blocked hb
      exact ⟨w', g, by rw [hw]; rfl⟩
    · rw [cleanupGroup_ok hb]
      obtain ⟨g', hm, hl⟩ := h
      rcases List.mem_cons.mp hm with rfl | hm
      · exact (hb hl).elim
      · have hne : g' ≠ g := fun he => hg (he ▸ hm)
        exact ih hnd ⟨g', hm, (locksSelf_prune hne).mpr hl⟩

/-- The store without the memberships of one connection. -/
def InMemoryWsClients.unlinked (env : CallEnv) (s : InMemoryWsClients) (id : ConnId) :
    InMemoryWsClients :=
  (s.setGroupMembers (s.groupMembers.pruneAll id
    (env.order.list (s.connectionGroups.values id)))).setConnectionGroups
      (s.connectionGroups.erase id)

theorem erase_of_lookup_none {V : Type} {m : Finmap fun _ : String => V} {k : String}
    (h : m.lookup k = none) : m.erase k = m := by
  apply Finmap.ext_lookup
  intro j
  by_cases hj : j = k
  · subst hj; simp [h]
  · rw [Finmap.lookup_erase_ne hj]

theorem cleanupGroups_ok
    (h : ∀ g ∈ w.clients.connectionGroups.values id, ¬ LocksSelf held w.clients id g) :
    cleanupGroups env held w id = .ok (w.set (w.clients.unlinked env id)) := by
  unfold cleanupGroups
  cases hl : w.clients.connectionGroups.lookup id with
  | none =>
    simp only [InMemoryWsClients.unlinked, SetMap.values_of_lookup_none hl,
      erase_of_lookup_none hl, IterOrder.list_empty]
    rfl
  | some groups =>
    have hv := SetMap.values_of_lookup hl
    simp only
    rw [cleanup_fold_ok (env.order.nodup_list groups), InMemoryWsClients.unlinked, hv]
    · rfl
    · intro g hg
      rw [env.order.mem_list, ← hv] at hg
      exact h g hg

theorem cleanupGroups_blocked
    (h : ∃ g ∈ w.clients.connectionGroups.values id, LocksSelf held w.clients id g) :
    ∃ w' g, cleanupGroups env held w id = .error (.selfLock w' g) := by
  unfold cleanupGroups
  obtain ⟨g, hg, hb⟩ := h
  cases hl : w.clients.connectionGroups.lookup id with
  | none => simp [SetMap.values_of_lookup_none hl] at hg
  | some groups =>
    rw [SetMap.values_of_lookup hl] at hg
    exact cleanup_fold_blocked (env.order.nodup_list groups)
      ⟨g, (env.order.mem_list).mpr hg, hb⟩

@[simp] theorem mem_unlinked_groupMembers :
    c ∈ (s.unlinked env id).groupMembers.values g ↔
      c ∈ s.groupMembers.values g ∧ ¬ (c = id ∧ g ∈ s.connectionGroups.values id) := by
  simp [InMemoryWsClients.unlinked]

/-- The average of the window overflows or divides by zero: `send_with_policy` panics. -/
def AveragePanics (s : InMemoryWsClients) (h : Handle) : Prop :=
  match s.policy with
  | .dropOnHighRtt _ _ => avgRtt (s.states h).rttSamples = none
  | _ => False

instance : Decidable (AveragePanics s h) := by
  unfold AveragePanics
  split <;> infer_instance

/-- The policy unregisters the recipient in this delivery. -/
def Evicts (env : CallEnv) (s : InMemoryWsClients) (h : Handle) : Prop :=
  match s.policy with
  | .dropConnection _ maxDrops => env.dropped h = true ∧ maxDrops ≤ (s.states h).drops + 1
  | .dropOnHighRtt maxRtt _ => match avgRtt (s.states h).rttSamples with
    | some (some avg) => maxRtt < avg
    | _ => False
  | _ => False

instance : Decidable (Evicts env s h) := by
  unfold Evicts
  split
  · infer_instance
  · split <;> infer_instance
  · infer_instance

/-- What a connection hands over when it registers. -/
structure Registration where
  sender : Sender
  cancel : CancelToken
  onDrop : OnDropFn
  deriving DecidableEq

def ConnectionState.registration (c : ConnectionState) : Registration :=
  ⟨c.sender, c.cancel, c.onDrop⟩

/-- The maps and all connection states but the recipient's own counters are as before. -/
structure OnlyCounters (h : Handle) (s s' : InMemoryWsClients) : Prop where
  connections : s'.connections = s.connections
  groupMembers : s'.groupMembers = s.groupMembers
  connectionGroups : s'.connectionGroups = s.connectionGroups
  policy : s'.policy = s.policy
  shard : s'.shard = s.shard
  id : ∀ k, (s'.states k).id = (s.states k).id
  registration : ∀ k, (s'.states k).registration = (s.states k).registration
  other : ∀ k, k ≠ h → s'.states k = s.states k

theorem onlyCounters_refl (h : Handle) (s : InMemoryWsClients) : OnlyCounters h s s :=
  ⟨rfl, rfl, rfl, rfl, rfl, fun _ => rfl, fun _ => rfl, fun _ _ => rfl⟩

theorem onlyCounters_setDrops (s : InMemoryWsClients) (h : Handle) (n : UInt32) :
    OnlyCounters h s (s.setDrops h n) := by
  refine ⟨rfl, rfl, rfl, rfl, rfl, fun k => ?_, fun k => ?_, fun k hk => ?_⟩
  · by_cases hk : k = h
    · subst hk; simp [InMemoryWsClients.setDrops]
    · simp [InMemoryWsClients.setDrops, hk]
  · by_cases hk : k = h
    · subst hk; simp [InMemoryWsClients.setDrops, ConnectionState.registration]
    · simp [InMemoryWsClients.setDrops, hk]
  · simp [InMemoryWsClients.setDrops, hk]

theorem onlyCounters_setRttSamples (s : InMemoryWsClients) (h : Handle) (samples : List Nat) :
    OnlyCounters h s (s.setRttSamples h samples) := by
  refine ⟨rfl, rfl, rfl, rfl, rfl, fun k => ?_, fun k => ?_, fun k hk => ?_⟩
  · by_cases hk : k = h
    · subst hk; simp [InMemoryWsClients.setRttSamples]
    · simp [InMemoryWsClients.setRttSamples, hk]
  · by_cases hk : k = h
    · subst hk; simp [InMemoryWsClients.setRttSamples, ConnectionState.registration]
    · simp [InMemoryWsClients.setRttSamples, hk]
  · simp [InMemoryWsClients.setRttSamples, hk]

/-- The registrations a list of effects attempts to deliver to, in order. -/
def attempts : List Effect → List Handle
  | [] => []
  | .attempt h :: es => h :: attempts es
  | _ :: es => attempts es

/-- The connections a list of effects evicts, in order. -/
def evictions : List Effect → List ConnId
  | [] => []
  | .evict id :: es => id :: evictions es
  | _ :: es => evictions es

@[simp] theorem attempts_append (es fs : List Effect) :
    attempts (es ++ fs) = attempts es ++ attempts fs := by
  induction es with
  | nil => rfl
  | cons e es ih => cases e <;> simp [attempts, ih]

@[simp] theorem evictions_append (es fs : List Effect) :
    evictions (es ++ fs) = evictions es ++ evictions fs := by
  induction es with
  | nil => rfl
  | cons e es ih => cases e <;> simp [evictions, ih]

theorem emit_emit_effects (w : World) (e f : Effect) :
    ((w.emit e).emit f).effects = w.effects ++ [e, f] := by simp

/-- One delivery to `k` that leaves the maps alone and evicts nobody. -/
structure Delivered (k : Handle) (w w' : World) : Prop where
  counters : OnlyCounters k w.clients w'.clients
  effects : ∃ es, w'.effects = w.effects ++ es ∧ attempts es = [k] ∧ evictions es = []

theorem delivered_sendIgnoringError (env : CallEnv) (msg : Message) (w : World) (k : Handle) :
    Delivered k w (sendIgnoringError env msg (w.emit (.attempt k)) k) := by
  unfold sendIgnoringError
  split
  · exact ⟨onlyCounters_refl _ _, _, emit_emit_effects _ _ _, rfl, rfl⟩
  · exact ⟨onlyCounters_refl _ _, _, emit_effects _ _, rfl, rfl⟩

/-- A delivery that panics stops the call. -/
theorem sendWithPolicy_panics (h : AveragePanics w.clients k) :
    sendWithPolicy env held msg w k = .error (.panic (w.emit (.attempt k))) := by
  unfold AveragePanics at h
  unfold sendWithPolicy
  cases hp : w.clients.policy <;> simp_all

/-- A delivery that does not evict attempts the send and touches only counters. -/
theorem sendWithPolicy_keeps (held : Option GroupName) (msg : Message)
    (hp : ¬ AveragePanics w.clients k) (he : ¬ Evicts env w.clients k) :
    ∃ w', sendWithPolicy env held msg w k = .ok w' ∧ Delivered k w w' := by
  unfold AveragePanics at hp
  unfold Evicts at he
  unfold sendWithPolicy
  cases hpol : w.clients.policy with
  | block =>
    simp only [emit_clients, hpol]
    exact ⟨_, rfl, delivered_sendIgnoringError env msg w k⟩
  | dropMessage d =>
    simp only [emit_clients, hpol]
    split
    · exact ⟨_, rfl, onlyCounters_refl _ _, _, emit_emit_effects _ _ _, rfl, rfl⟩
    · exact ⟨_, rfl, onlyCounters_refl _ _, _, emit_emit_effects _ _ _, rfl, rfl⟩
  | dropConnection d maxDrops =>
    simp only [hpol, not_and] at he
    simp only [emit_clients, hpol]
    split
    · rename_i hd
      rw [if_neg (he hd)]
      exact ⟨_, rfl, onlyCounters_setDrops _ _ _, _, emit_emit_effects _ _ _, rfl, rfl⟩
    · exact ⟨_, rfl, onlyCounters_setDrops _ _ _, _, emit_emit_effects _ _ _, rfl, rfl⟩
  | dropOnHighRtt maxRtt n =>
    simp only [hpol] at hp he
    simp only [emit_clients, hpol]
    cases havg : avgRtt (w.clients.states k).rttSamples with
    | none => exact (hp havg).elim
    | some avg =>
      have hlow : avg.any (· > maxRtt) = false := by
        cases avg with
        | none => rfl
        | some a => simpa [havg] using he
      simp only [hlow, Bool.false_eq_true, if_false]
      exact ⟨_, rfl, delivered_sendIgnoringError env msg w k⟩

/-- An evicting delivery reports the drop and then unregisters the recipient. -/
theorem sendWithPolicy_evicts (held : Option GroupName) (msg : Message)
    (h : Evicts env w.clients k) :
    ∃ w', sendWithPolicy env held msg w k =
        evictConnection env held w' (w.clients.states k).id ∧ Delivered k w w' := by
  unfold Evicts at h
  unfold sendWithPolicy
  cases hpol : w.clients.policy with
  | block => simp [hpol] at h
  | dropMessage d => simp [hpol] at h
  | dropConnection d maxDrops =>
    simp only [hpol] at h
    simp only [emit_clients, hpol, h.1, if_true]
    rw [if_pos h.2]
    exact ⟨_, rfl, onlyCounters_setDrops _ _ _, _, emit_emit_effects _ _ _, rfl, rfl⟩
  | dropOnHighRtt maxRtt n =>
    simp only [hpol] at h
    split at h
    · rename_i avg havg
      simp only [emit_clients, hpol, havg, Option.any_some, gt_iff_lt, h, decide_true, if_true]
      exact ⟨_, rfl, onlyCounters_refl _ _, _, emit_emit_effects _ _ _, rfl, rfl⟩
    · exact h.elim

/-- The store without one registration and its memberships. -/
def InMemoryWsClients.without (env : CallEnv) (s : InMemoryWsClients) (id : ConnId) :
    InMemoryWsClients := (s.removeConnection id).unlinked env id

@[simp] theorem without_connections :
    (s.without env id).connections = s.connections.erase id := rfl
@[simp] theorem without_connectionGroups :
    (s.without env id).connectionGroups = s.connectionGroups.erase id := rfl
@[simp] theorem without_shard : (s.without env id).shard = s.shard := rfl
@[simp] theorem without_policy : (s.without env id).policy = s.policy := rfl
@[simp] theorem without_states : (s.without env id).states = s.states := rfl

@[simp] theorem mem_without_groupMembers :
    c ∈ (s.without env id).groupMembers.values g ↔
      c ∈ s.groupMembers.values g ∧ ¬ (c = id ∧ g ∈ s.connectionGroups.values id) :=
  mem_unlinked_groupMembers

theorem removeConnection_of_lookup_none (h : s.connections.lookup id = none) :
    s.removeConnection id = s := by
  simp [InMemoryWsClients.removeConnection, erase_of_lookup_none h]

/-- Evicting a registered connection is removing it, cancelling its token and cleaning up. -/
theorem evictConnection_of_lookup (env : CallEnv) (held : Option GroupName)
    (hl : w.clients.connections.lookup id = some h) : evictConnection env held w id =
      cleanupGroups env held ⟨w.clients.removeConnection id,
        w.effects ++ [.evict id, .cancel (w.clients.states h).cancel]⟩ id := by
  unfold evictConnection
  simp only [emit_clients, hl]
  congr 1
  simp [World.emit, World.set, InMemoryWsClients.removeConnection]

/-- Evicting is removing the registration and then cleaning up, with one eviction mark. -/
theorem evictConnection_eq (env : CallEnv) (held : Option GroupName) (w : World) (id : ConnId) :
    ∃ es, attempts es = [] ∧ evictions es = [id] ∧ evictConnection env held w id =
      cleanupGroups env held ⟨w.clients.removeConnection id, w.effects ++ es⟩ id := by
  cases hl : w.clients.connections.lookup id with
  | none =>
    refine ⟨[.evict id], rfl, rfl, ?_⟩
    simp only [evictConnection, emit_clients, hl, removeConnection_of_lookup_none hl]
    rfl
  | some h => exact ⟨_, rfl, rfl, evictConnection_of_lookup env held hl⟩

theorem evictConnection_ok (env : CallEnv)
    (h : ∀ g ∈ w.clients.connectionGroups.values id, ¬ LocksSelf held w.clients id g) :
    ∃ es, attempts es = [] ∧ evictions es = [id] ∧
      evictConnection env held w id = .ok ⟨w.clients.without env id, w.effects ++ es⟩ := by
  obtain ⟨es, ha, he, heq⟩ := evictConnection_eq env held w id
  exact ⟨es, ha, he, heq.trans (cleanupGroups_ok h)⟩

theorem evictConnection_blocked (env : CallEnv)
    (h : ∃ g ∈ w.clients.connectionGroups.values id, LocksSelf held w.clients id g) :
    ∃ w' g, evictConnection env held w id = .error (.selfLock w' g) := by
  obtain ⟨es, _, _, heq⟩ := evictConnection_eq env held w id
  rw [heq]
  exact cleanupGroups_blocked h

/-- An eviction that returns has unregistered the connection, cancelled its token and
dropped its memberships. -/
theorem evictConnection_done (hl : w.clients.connections.lookup id = some h)
    (hok : evictConnection env held w id = .ok w') :
    w' = ⟨w.clients.without env id,
      w.effects ++ [.evict id, .cancel (w.clients.states h).cancel]⟩ := by
  by_cases hb : ∃ g ∈ w.clients.connectionGroups.values id, LocksSelf held w.clients id g
  · obtain ⟨w'', g, hblock⟩ := evictConnection_blocked env hb
    simp [hblock] at hok
  · push Not at hb
    have hclean := (evictConnection_of_lookup env held hl).trans (cleanupGroups_ok hb)
    exact Except.ok.inj (hok.symm.trans hclean)

/-- One delivery to `k` that unregisters it and drops its memberships. -/
structure Evicted (env : CallEnv) (k : Handle) (w w' : World) : Prop where
  counters : ∃ s, OnlyCounters k w.clients s ∧
    w'.clients = s.without env (w.clients.states k).id
  effects : ∃ es, w'.effects = w.effects ++ es ∧ attempts es = [k] ∧
    evictions es = [(w.clients.states k).id]

theorem Evicted.policy (h : Evicted env k w w') : w'.clients.policy = w.clients.policy := by
  obtain ⟨s, hc, hs⟩ := h.counters
  simp [hs, hc.policy]

/-- Evicting one registration leaves the state of every other one as it is. -/
theorem Evicted.other (hv : Evicted env k w w') (hne : h ≠ k) :
    w'.clients.states h = w.clients.states h := by
  obtain ⟨s, hc, hs⟩ := hv.counters
  simp [hs, hc.other h hne]

/-- The four ways one delivery ends. -/
inductive Outcome (env : CallEnv) (held : Option GroupName) (k : Handle) (w : World) :
    Except Halt World → Prop where
  | panics {w' : World} (hp : AveragePanics w.clients k) : Outcome env held k w (.error (.panic w'))
  | blocks {w' : World} {g : GroupName} (hp : ¬ AveragePanics w.clients k)
      (he : Evicts env w.clients k)
      (hb : ∃ g ∈ w.clients.connectionGroups.values (w.clients.states k).id,
        LocksSelf held w.clients (w.clients.states k).id g) :
      Outcome env held k w (.error (.selfLock w' g))
  | evicts {w' : World} (hp : ¬ AveragePanics w.clients k) (he : Evicts env w.clients k)
      (hfree : ∀ g ∈ w.clients.connectionGroups.values (w.clients.states k).id,
        ¬ LocksSelf held w.clients (w.clients.states k).id g)
      (hw : Evicted env k w w') : Outcome env held k w (.ok w')
  | keeps {w' : World} (hp : ¬ AveragePanics w.clients k) (he : ¬ Evicts env w.clients k)
      (hw : Delivered k w w') : Outcome env held k w (.ok w')

theorem OnlyCounters.locksSelf {s' : InMemoryWsClients} (h : OnlyCounters k s s') :
    LocksSelf held s' id g ↔ LocksSelf held s id g := by
  simp only [LocksSelf, h.groupMembers, h.shard]

theorem sendWithPolicy_outcome (env : CallEnv) (held : Option GroupName) (msg : Message)
    (w : World) (k : Handle) : Outcome env held k w (sendWithPolicy env held msg w k) := by
  by_cases hp : AveragePanics w.clients k
  · rw [sendWithPolicy_panics hp]
    exact .panics hp
  by_cases he : Evicts env w.clients k
  · obtain ⟨w₁, heq, hw₁⟩ := sendWithPolicy_evicts held msg he
    have hc := hw₁.counters
    rw [heq]
    by_cases hb : ∃ g ∈ w₁.clients.connectionGroups.values (w.clients.states k).id,
        LocksSelf held w₁.clients (w.clients.states k).id g
    · obtain ⟨w', g, hblock⟩ := evictConnection_blocked env hb
      rw [hblock]
      simp only [hc.connectionGroups, hc.locksSelf] at hb
      exact .blocks hp he hb
    · push Not at hb
      obtain ⟨fs, hfa, hfe, hok⟩ := evictConnection_ok env hb
      rw [hok]
      simp only [hc.connectionGroups, hc.locksSelf] at hb
      obtain ⟨es, hes, ha, hev⟩ := hw₁.effects
      refine .evicts hp he hb ⟨⟨w₁.clients, hc, rfl⟩, es ++ fs, ?_, ?_, ?_⟩
      · simp [hes]
      · simp [ha, hfa]
      · simp [hev, hfe]
  · obtain ⟨w', heq, hw'⟩ := sendWithPolicy_keeps held msg hp he
    rw [heq]
    exact .keeps hp he hw'

theorem deliver_nil : deliver env held msg w [] = .ok w := rfl

theorem deliver_cons {rs : List Handle} : deliver env held msg w (k :: rs) =
    (sendWithPolicy env held msg w k).bind fun w => deliver env held msg w rs := rfl

/-- The ids the policy evicts among the recipients, up to one whose average panics. -/
def evictedIds (env : CallEnv) (s : InMemoryWsClients) : List Handle → List ConnId
  | [] => []
  | h :: hs =>
    if AveragePanics s h then []
    else if Evicts env s h then (s.states h).id :: evictedIds env s hs
    else evictedIds env s hs

theorem averagePanics_congr {s' : InMemoryWsClients} (hp : s'.policy = s.policy)
    (hst : s'.states h = s.states h) : AveragePanics s' h ↔ AveragePanics s h := by
  unfold AveragePanics
  rw [hp, hst]

theorem evicts_congr {s' : InMemoryWsClients} (hp : s'.policy = s.policy)
    (hst : s'.states h = s.states h) : Evicts env s' h ↔ Evicts env s h := by
  unfold Evicts
  rw [hp, hst]

theorem evictedIds_congr {s' : InMemoryWsClients} {rs : List Handle}
    (hp : s'.policy = s.policy) (hst : ∀ h ∈ rs, s'.states h = s.states h) :
    evictedIds env s' rs = evictedIds env s rs := by
  induction rs with
  | nil => rfl
  | cons h rs ih =>
    have hh := hst h List.mem_cons_self
    simp only [evictedIds, averagePanics_congr hp hh, evicts_congr hp hh, hh,
      ih fun k hk => hst k (List.mem_cons_of_mem _ hk)]

theorem evictedIds_subset {rs : List Handle} (hc : c ∈ evictedIds env s rs) :
    ∃ h ∈ rs, (s.states h).id = c := by
  induction rs with
  | nil => simp [evictedIds] at hc
  | cons h rs ih =>
    unfold evictedIds at hc
    split at hc
    · simp at hc
    · split at hc
      · rcases List.mem_cons.mp hc with rfl | hc
        · exact ⟨h, List.mem_cons_self, rfl⟩
        · obtain ⟨k, hk, he⟩ := ih hc
          exact ⟨k, List.mem_cons_of_mem _ hk, he⟩
      · obtain ⟨k, hk, he⟩ := ih hc
        exact ⟨k, List.mem_cons_of_mem _ hk, he⟩

end AxumSignal

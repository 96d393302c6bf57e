import AxumSignal.ClientsFacts
import Mathlib.Data.String.Basic

/-! When a group broadcast requests a shard lock that its own guard holds. -/
namespace AxumSignal

variable {env : CallEnv} {held : Option GroupName} {msg : Message} {w w' : World}
  {s s' : InMemoryWsClients} {id c : ConnId} {g group : GroupName} {h k : Handle}
  {rs : List Handle}

/-- The recipients are registrations of different connections. -/
def Distinct (s : InMemoryWsClients) (rs : List Handle) : Prop :=
  (rs.map fun h => (s.states h).id).Nodup

theorem distinct_cons : Distinct s (k :: rs) ↔
    (∀ h ∈ rs, (s.states h).id ≠ (s.states k).id) ∧ Distinct s rs := by
  simp [Distinct]

theorem OnlyCounters.distinct {s' : InMemoryWsClients} (h : OnlyCounters k s s')
    (hd : Distinct s rs) : Distinct s' rs := by
  simpa [Distinct, h.id] using hd

theorem Evicted.distinct (h : Evicted env k w w') (hd : Distinct w.clients rs) :
    Distinct w'.clients rs := by
  obtain ⟨s, hc, hs⟩ := h.counters
  exact hs ▸ hc.distinct hd

theorem distinct_lookup {ids : List ConnId} (h : ids.Nodup) :
    Distinct s (ids.filterMap s.connections.lookup) := by
  rw [Distinct, lookup_ids]
  exact h.filter _

theorem mem_firstSeen {ids : List ConnId} {seen : Finset ConnId} :
    c ∈ firstSeen seen ids ↔ c ∈ ids ∧ c ∉ seen := by
  induction ids generalizing seen with
  | nil => simp [firstSeen]
  | cons id ids ih =>
    unfold firstSeen
    split
    · rw [ih]
      grind
    · rw [List.mem_cons, ih]
      grind

theorem nodup_firstSeen (seen : Finset ConnId) (ids : List ConnId) :
    (firstSeen seen ids).Nodup := by
  induction ids generalizing seen with
  | nil => exact List.nodup_nil
  | cons id ids ih =>
    unfold firstSeen
    split
    · exact ih _
    · refine List.nodup_cons.mpr ⟨?_, ih _⟩
      simp [mem_firstSeen]

theorem distinct_exceptRecipients (env : CallEnv) (s : InMemoryWsClients)
    (excluded : List ConnId) : Distinct s (exceptRecipients env s excluded) :=
  distinct_lookup ((env.order.nodup_list _).filter _)

theorem distinct_groupRecipients (env : CallEnv) (s : InMemoryWsClients)
    (members : Finset ConnId) (keep : ConnId → Bool) :
    Distinct s (groupRecipients env s members keep) :=
  distinct_lookup ((env.order.nodup_list _).filter _)

theorem distinct_groupsRecipients (env : CallEnv) (s : InMemoryWsClients)
    (groups : List GroupName) : Distinct s (groupsRecipients env s groups) :=
  distinct_lookup (nodup_firstSeen _ _)

/-- Some group in the shard of the held group loses its last member: each of its members
is evicted by this call and lists the group, and at least one evicted connection lists it. -/
def EmptiesHeldShard (env : CallEnv) (held : Option GroupName) (s : InMemoryWsClients)
    (rs : List Handle) : Prop :=
  ∃ g₀ ∈ held, ∃ g members, s.shard g₀ = s.shard g ∧
    s.groupMembers.lookup g = some members ∧
    (∃ id ∈ evictedIds env s rs, g ∈ s.connectionGroups.values id) ∧
    ∀ c ∈ members, c ∈ evictedIds env s rs ∧ g ∈ s.connectionGroups.values c

theorem emptiesHeldShard_nil : ¬ EmptiesHeldShard env held s [] := by
  rintro ⟨_, _, _, _, _, _, ⟨id, hid, _⟩, _⟩
  simp [evictedIds] at hid

/-- The condition reads only the maps and what decides the evictions. -/
theorem emptiesHeldShard_congr {s' : InMemoryWsClients} {rs' : List Handle}
    (hg : s'.groupMembers = s.groupMembers) (hc : s'.connectionGroups = s.connectionGroups)
    (hs : s'.shard = s.shard) (he : evictedIds env s' rs' = evictedIds env s rs) :
    EmptiesHeldShard env held s' rs' ↔ EmptiesHeldShard env held s rs := by
  simp only [EmptiesHeldShard, hg, hc, hs, he]

theorem lookup_without_of_notMem (hg : g ∉ s.connectionGroups.values id) :
    (s.without env id).groupMembers.lookup g = s.groupMembers.lookup g :=
  SetMap.lookup_pruneAll_of_notMem ((env.order.mem_list).not.mpr hg)

theorem lookup_without_of_mem (hg : g ∈ s.connectionGroups.values id) :
    (s.without env id).groupMembers.lookup g = (s.groupMembers.lookup g).bind fun m =>
      if m.erase id = ∅ then none else some (m.erase id) :=
  SetMap.lookup_pruneAll_of_mem (env.order.nodup_list _) ((env.order.mem_list).mpr hg)

/-- If evicting the first of the evicted connections does not block, the condition holds
before that eviction exactly when it holds after it. -/
theorem emptiesHeldShard_evict {hs : List Handle} (hp : ¬ AveragePanics s k)
    (he : Evicts env s k) (hk : (s.states k).id = id)
    (hfree : ∀ g ∈ s.connectionGroups.values id, ¬ LocksSelf held s id g)
    (hid : id ∉ evictedIds env s hs) :
    EmptiesHeldShard env held s (k :: hs) ↔ EmptiesHeldShard env held (s.without env id) hs := by
  have hall : evictedIds env s (k :: hs) = id :: evictedIds env s hs := by
    simp [evictedIds, hp, he, hk]
  have hrest : evictedIds env (s.without env id) hs = evictedIds env s hs :=
    evictedIds_congr rfl fun _ _ => rfl
  have hlist : ∀ {c}, c ∈ evictedIds env s hs →
      ∀ g, g ∈ SetMap.values (s.connectionGroups.erase id) c ↔ g ∈ s.connectionGroups.values c := by
    intro c hc g
    have : c ≠ id := fun heq => hid (heq ▸ hc)
    simp [this]
  unfold EmptiesHeldShard
  simp only [hall, hrest, without_shard, without_connectionGroups]
  constructor
  · rintro ⟨g₀, hg₀, g, members, hshard, hl, ⟨e, he, heg⟩, hm⟩
    by_cases hg : g ∈ s.connectionGroups.values id
    · have hne : members.erase id ≠ ∅ := fun h0 => hfree g hg ⟨⟨g₀, hg₀, hshard⟩, members, hl, h0⟩
      obtain ⟨c, hc⟩ := Finset.nonempty_iff_ne_empty.mpr hne
      have hrem : ∀ c ∈ members.erase id, c ∈ evictedIds env s hs ∧
          g ∈ SetMap.values (s.connectionGroups.erase id) c := by
        intro c hc
        obtain ⟨hci, hcm⟩ := Finset.mem_erase.mp hc
        have hce := (List.mem_cons.mp (hm c hcm).1).resolve_left hci
        exact ⟨hce, (hlist hce g).mpr (hm c hcm).2⟩
      refine ⟨g₀, hg₀, g, members.erase id, hshard, ?_, ⟨c, hrem c hc⟩, hrem⟩
      simp [lookup_without_of_mem hg, hl, hne]
    · have hrem : ∀ c, c ∈ id :: evictedIds env s hs → g ∈ s.connectionGroups.values c →
          c ∈ evictedIds env s hs ∧ g ∈ SetMap.values (s.connectionGroups.erase id) c := by
        intro c hc hcg
        have hci : c ≠ id := by rintro rfl; exact hg hcg
        have hce := (List.mem_cons.mp hc).resolve_left hci
        exact ⟨hce, (hlist hce g).mpr hcg⟩
      refine ⟨g₀, hg₀, g, members, hshard, (lookup_without_of_notMem hg).trans hl,
        ⟨e, hrem e he heg⟩, fun c hc => hrem c (hm c hc).1 (hm c hc).2⟩
  · rintro ⟨g₀, hg₀, g, members, hshard, hl, ⟨e, he, heg⟩, hm⟩
    have hup : ∀ c, c ∈ evictedIds env s hs → g ∈ SetMap.values (s.connectionGroups.erase id) c →
        c ∈ id :: evictedIds env s hs ∧ g ∈ s.connectionGroups.values c :=
      fun c hc hcg => ⟨List.mem_cons_of_mem _ hc, (hlist hc g).mp hcg⟩
    by_cases hg : g ∈ s.connectionGroups.values id
    · rw [lookup_without_of_mem hg, Option.bind_eq_some_iff] at hl
      obtain ⟨whole, hwhole, hl⟩ := hl
      split at hl
      · simp at hl
      · obtain rfl := Option.some.inj hl
        refine ⟨g₀, hg₀, g, whole, hshard, hwhole, ⟨e, hup e he heg⟩, fun c hc => ?_⟩
        by_cases hci : c = id
        · exact ⟨hci ▸ List.mem_cons_self, hci ▸ hg⟩
        · have := hm c (Finset.mem_erase.mpr ⟨hci, hc⟩)
          exact hup c this.1 this.2
    · rw [lookup_without_of_notMem hg] at hl
      exact ⟨g₀, hg₀, g, members, hshard, hl, ⟨e, hup e he heg⟩,
        fun c hc => hup c (hm c hc).1 (hm c hc).2⟩

/-- A recipient that is kept leaves the rest the same question. -/
theorem emptiesHeldShard_keep {hs : List Handle} (hp : ¬ AveragePanics s k)
    (he : ¬ Evicts env s k) (hc : OnlyCounters k s s') (hne : ∀ h ∈ hs, h ≠ k) :
    EmptiesHeldShard env held s (k :: hs) ↔ EmptiesHeldShard env held s' hs := by
  have hall : evictedIds env s' hs = evictedIds env s (k :: hs) := by
    rw [evictedIds_congr hc.policy fun h hh => hc.other h (hne h hh)]
    simp [evictedIds, hp, he]
  exact (emptiesHeldShard_congr hc.groupMembers hc.connectionGroups hc.shard hall).symm

theorem Distinct.notMem_evictedIds (hd : Distinct s (k :: rs)) :
    (s.states k).id ∉ evictedIds env s rs := by
  intro hin
  obtain ⟨h, hh, hi⟩ := evictedIds_subset hin
  exact (distinct_cons.mp hd).1 h hh hi

theorem Distinct.ne_of_mem (hd : Distinct s (k :: rs)) : ∀ h ∈ rs, h ≠ k :=
  fun h hh heq => (distinct_cons.mp hd).1 h hh (heq ▸ rfl)

/-- A delivery loop blocks on its own guard exactly when it empties a group of the held
shard. The induction is on the recipients; each one blocks, leaves the rest the same
question, or stops the loop with a panic. -/
theorem deliver_selfLock_iff (msg : Message) (hd : Distinct w.clients rs) :
    (∃ w' g, deliver env held msg w rs = .error (.selfLock w' g)) ↔
      EmptiesHeldShard env held w.clients rs := by
  induction rs generalizing w with
  | nil => exact iff_of_false (by simp [deliver_nil]) emptiesHeldShard_nil
  | cons k rs ih =>
    have hne := hd.ne_of_mem
    have hd' := (distinct_cons.mp hd).2
    rw [deliver_cons]
    have ho := sendWithPolicy_outcome env held msg w k
    generalize sendWithPolicy env held msg w k = r at ho
    cases ho with
    | panics hp =>
      refine iff_of_false (by simp [Except.bind]) ?_
      rintro ⟨_, _, _, _, _, _, ⟨id, hid, _⟩, _⟩
      simp [evictedIds, hp] at hid
    | blocks hp he hb =>
      refine iff_of_true ⟨_, _, rfl⟩ ?_
      obtain ⟨g, hg, ⟨g₀, hg₀, hshard⟩, members, hl, h0⟩ := hb
      have hin : (w.clients.states k).id ∈ evictedIds env w.clients (k :: rs) := by
        simp [evictedIds, hp, he]
      refine ⟨g₀, hg₀, g, members, hshard, hl, ⟨_, hin, hg⟩, fun c hcm => ?_⟩
      have hci : c = (w.clients.states k).id := by
        by_contra hci
        have : c ∈ members.erase (w.clients.states k).id := Finset.mem_erase.mpr ⟨hci, hcm⟩
        simp [h0] at this
      exact ⟨hci ▸ hin, hci ▸ hg⟩
    | evicts hp he hfree hw =>
      obtain ⟨s₁, hc, hs₁⟩ := hw.counters
      refine (ih (hw.distinct hd')).trans ?_
      rw [hs₁, emptiesHeldShard_evict hp he rfl hfree hd.notMem_evictedIds]
      apply emptiesHeldShard_congr
      · simp [InMemoryWsClients.without, InMemoryWsClients.unlinked, hc.groupMembers,
          hc.connectionGroups]
      · simp [hc.connectionGroups]
      · simp [hc.shard]
      · rw [← hs₁]
        exact evictedIds_congr hw.policy fun h hh => hw.other (hne h hh)
    | keeps hp he hw =>
      exact (ih (hw.counters.distinct hd')).trans
        (emptiesHeldShard_keep hp he hw.counters hne).symm

/-- The message that a policy broadcast delivers. -/
def Op.message : Op → Option Message
  | .broadcastExcept _ msg | .broadcastGroup _ msg | .broadcastGroupExcept _ _ msg
  | .broadcastGroups _ msg => msg
  | _ => none

/-- The group whose guard lives to the end of the call. -/
def Op.guardedGroup : Op → Option GroupName
  | .broadcastGroup group _ | .broadcastGroupExcept group _ _ => some group
  | _ => none

/-- The registrations a policy broadcast delivers to, in order. -/
def Op.snapshot (env : CallEnv) (s : InMemoryWsClients) : Op → List Handle
  | .broadcastExcept excluded (some _) => exceptRecipients env s excluded
  | .broadcastGroup group (some _) =>
    groupRecipients env s (s.groupMembers.values group) fun _ => true
  | .broadcastGroupExcept group excluded (some _) =>
    groupRecipients env s (s.groupMembers.values group) (· ∉ excluded)
  | .broadcastGroups groups (some _) => groupsRecipients env s groups
  | _ => []

theorem snapshot_of_no_message {op : Op} (h : op.message = none) : op.snapshot env s = [] := by
  cases op <;> simp_all [Op.message, Op.snapshot]

theorem distinct_snapshot (env : CallEnv) (s : InMemoryWsClients) (op : Op) :
    Distinct s (op.snapshot env s) := by
  unfold Op.snapshot
  split
  · exact distinct_exceptRecipients env s _
  · exact distinct_groupRecipients env s _ _
  · exact distinct_groupRecipients env s _ _
  · exact distinct_groupsRecipients env s _
  · exact List.nodup_nil

/-- A group that is absent has no recipients, so the early return delivers to nobody. -/
theorem broadcastMembers_eq {keep : ConnId → Bool} :
    broadcastMembers env w group keep (some msg) =
      deliver env (some group) msg w
        (groupRecipients env w.clients (w.clients.groupMembers.values group) keep) := by
  unfold broadcastMembers
  cases hl : w.clients.groupMembers.lookup group with
  | none => simp [SetMap.values_of_lookup_none hl, groupRecipients, deliver_nil]
  | some members => simp [SetMap.values_of_lookup hl]

/-- Every policy broadcast is one delivery loop over its snapshot. -/
theorem exec_of_message {op : Op} (h : op.message = some msg) :
    op.exec env w = deliver env op.guardedGroup msg w (op.snapshot env w.clients) := by
  cases op with
  | broadcastExcept | broadcastGroups =>
    obtain rfl : _ = some msg := h
    rfl
  | broadcastGroup | broadcastGroupExcept =>
    obtain rfl : _ = some msg := h
    exact broadcastMembers_eq
  | add | remove | unicast | broadcast | addToGroup | removeFromGroup | updateRtt =>
    simp [Op.message] at h

theorem remove_ok (env : CallEnv) (w : World) (id : ConnId) :
    remove env w id = .ok (w.set ((w.clients.unlinked env id).removeConnection id)) := by
  have hok : cleanupGroups env none w id = .ok (w.set (w.clients.unlinked env id)) :=
    cleanupGroups_ok fun g _ => locksSelf_none w.clients id g
  simp [remove, hok, bind, Except.bind, pure, Except.pure, World.set]

theorem exec_of_no_message {op : Op} (env : CallEnv) (w : World) (h : op.message = none) :
    ∃ w', op.exec env w = .ok w' := by
  cases op with
  | broadcastExcept | broadcastGroup | broadcastGroupExcept | broadcastGroups =>
    obtain rfl : _ = none := h
    exact ⟨w, rfl⟩
  | remove id => exact ⟨_, remove_ok env w id⟩
  | add | unicast | broadcast | addToGroup | removeFromGroup | updateRtt => exact ⟨_, rfl⟩

/-- The call requests the exclusive lock of a shard on which it still holds a guard. -/
def Op.LocksSelf (env : CallEnv) (w : World) (op : Op) : Prop :=
  ∃ w' g, op.exec env w = .error (.selfLock w' g)

/-- The call holds a guard while it delivers, and its evictions take the last member of a
group in the shard of that guard. -/
def Op.EmptiesHeldShard (env : CallEnv) (s : InMemoryWsClients) (op : Op) : Prop :=
  AxumSignal.EmptiesHeldShard env op.guardedGroup s (op.snapshot env s)

theorem op_selfLock_iff (env : CallEnv) (w : World) (op : Op) :
    op.LocksSelf env w ↔ op.EmptiesHeldShard env w.clients := by
  unfold Op.LocksSelf Op.EmptiesHeldShard
  cases hm : op.message with
  | none =>
    obtain ⟨w', hok⟩ := exec_of_no_message env w hm
    rw [hok, snapshot_of_no_message hm]
    exact iff_of_false (by simp) emptiesHeldShard_nil
  | some msg =>
    rw [exec_of_message hm]
    exact deliver_selfLock_iff msg (distinct_snapshot env w.clients op)

/-- No operation requests the exclusive lock of a shard it holds a guard on, except a
single-group broadcast that evicts every member of a group in the shard of its own group. -/
theorem no_selfLock_iff (env : CallEnv) (w : World) (op : Op) :
    ¬ op.LocksSelf env w ↔ ¬ op.EmptiesHeldShard env w.clients :=
  not_congr (op_selfLock_iff env w op)

/-- One connection in one group of a fresh store that evicts at the first drop. -/
def onlyMember : World :=
  addToGroup (add ⟨.new (.dropConnection second 1) (fun _ => 0), []⟩ "c" "tx" "token" "drop")
    "c" "g"

/-- Every send is late, as when every queue stays full. -/
def lateEnv : CallEnv := ⟨.ascending, fun _ => ⟨false, true⟩⟩

theorem onlyMember_snapshot (msg : Message) :
    (Op.broadcastGroup "g" (some msg)).snapshot lateEnv onlyMember.clients = [0] := by
  have hm : onlyMember.clients.groupMembers.values "g" = {"c"} := by decide
  rw [Op.snapshot, hm, groupRecipients, IterOrder.list_singleton]
  decide

theorem onlyMember_evicted : evictedIds lateEnv onlyMember.clients [0] = ["c"] := by
  have hp : ¬ AveragePanics onlyMember.clients 0 := id
  have he : Evicts lateEnv onlyMember.clients 0 := ⟨rfl, by decide⟩
  simp only [evictedIds, if_neg hp, if_pos he]
  decide

theorem onlyMember_empties (msg : Message) :
    (Op.broadcastGroup "g" (some msg)).EmptiesHeldShard lateEnv onlyMember.clients := by
  rw [Op.EmptiesHeldShard, onlyMember_snapshot]
  refine ⟨"g", rfl, "g", {"c"}, rfl, by decide, ⟨"c", ?_, by decide⟩, fun c hc => ?_⟩
  · simp [onlyMember_evicted]
  · obtain rfl := Finset.mem_singleton.mp hc
    exact ⟨by simp [onlyMember_evicted], by decide⟩

/-- A broadcast to the group evicts its only member and blocks on its own guard. -/
theorem broadcastGroup_locksSelf :
    (Op.broadcastGroup "g" (some (.text "hello"))).LocksSelf lateEnv onlyMember :=
  (op_selfLock_iff _ _ _).mpr (onlyMember_empties _)

end AxumSignal

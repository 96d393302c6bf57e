import AxumSignal.Registry

/-! What a broadcast does to each of its recipients, and that it does nothing else. -/
namespace AxumSignal

variable {env : CallEnv} {held : Option GroupName} {msg : Message} {out : Option Message}
  {w w' : World} {s s' s'' : InMemoryWsClients} {id c : ConnId} {g : GroupName} {h k : Handle}
  {rs rs' : List Handle} {gone gone' : List ConnId} {es : List Effect} {op : Op}

/-- The policies that unregister connections. -/
def BroadcastPolicy.Unregisters : BroadcastPolicy → Prop
  | .dropConnection _ _ | .dropOnHighRtt _ _ => True
  | _ => False

/-- The policies that ignore a closed channel. -/
def BroadcastPolicy.Ignores : BroadcastPolicy → Prop
  | .block | .dropOnHighRtt _ _ => True
  | _ => False

/-- The effects of delivering `out` to `k`, each with the outcome of the send and the policy
that lead to it: it is enqueued once, or its drop is reported once, or the channel was closed
and neither happens. -/
inductive Settled (env : CallEnv) (out : Option Message) (s : InMemoryWsClients) (k : Handle) :
    List Effect → Prop where
  -- accepted, and in time where the policy has a timeout
  | enqueued {msg : Message} (hmsg : out = some msg) (ha : (env.send k).accepted = true)
      (hd : env.dropped k = true → s.policy.Ignores) (he : ¬ Evicts env s k) :
      Settled env out s k [.attempt k, .enqueue (s.states k).sender msg]
  -- late or refused, below the limit of `DropConnection`
  | reported (hp : ¬ s.policy.Ignores) (hd : env.dropped k = true) (he : ¬ Evicts env s k) :
      Settled env out s k [.attempt k, .onDrop (s.states k).onDrop (s.states k).id]
  -- the limit is reached, or the average is too high
  | evicted (he : Evicts env s k) :
      Settled env out s k [.attempt k, .onDrop (s.states k).onDrop (s.states k).id,
        .evict (s.states k).id, .cancel (s.states k).cancel]
  -- the error of `sender.send(msg).await` is thrown away
  | ignored (hp : s.policy.Ignores) (hc : (env.send k).accepted = false)
      (he : ¬ Evicts env s k) : Settled env out s k [.attempt k]

/-- A call has touched nothing but the drop counters of `rs`, and has unregistered `gone` and
taken them out of the groups they list. -/
structure TouchesOnly (rs : List Handle) (gone : List ConnId) (s s' : InMemoryWsClients) :
    Prop where
  policy : s'.policy = s.policy
  shard : s'.shard = s.shard
  allocated : s'.allocated = s.allocated
  broadcastTx : s'.broadcastTx = s.broadcastTx
  connections : ∀ c, s'.connections.lookup c =
    if c ∈ gone then none else s.connections.lookup c
  connectionGroups : ∀ c, s'.connectionGroups.lookup c =
    if c ∈ gone then none else s.connectionGroups.lookup c
  members : ∀ c g, c ∈ s'.groupMembers.values g ↔
    c ∈ s.groupMembers.values g ∧ ¬ (c ∈ gone ∧ g ∈ s.connectionGroups.values c)
  groups : ∀ g, (∀ c ∈ gone, g ∉ s.connectionGroups.values c) →
    s'.groupMembers.lookup g = s.groupMembers.lookup g
  states : ∀ h ∉ rs, s'.states h = s.states h
  counters : ∀ h, { s'.states h with drops := (s.states h).drops } = s.states h

theorem TouchesOnly.lists (h : TouchesOnly rs gone s s') :
    g ∈ s'.connectionGroups.values c ↔ c ∉ gone ∧ g ∈ s.connectionGroups.values c := by
  unfold SetMap.values
  rw [h.connectionGroups]
  split <;> simp_all

theorem TouchesOnly.states_id (h : TouchesOnly rs gone s s') (k : Handle) :
    (s'.states k).id = (s.states k).id := by
  have hid := congrArg ConnectionState.id (h.counters k)
  exact hid

theorem TouchesOnly.rttSamples (h : TouchesOnly rs gone s s') (k : Handle) :
    (s'.states k).rttSamples = (s.states k).rttSamples := by
  have hsamples := congrArg ConnectionState.rttSamples (h.counters k)
  exact hsamples

theorem TouchesOnly.weaken (h : TouchesOnly [] gone s s') : TouchesOnly rs gone s s' :=
  { h with states := fun k _ => h.states k (by simp) }

theorem TouchesOnly.indexed (h : TouchesOnly rs gone s s') (hs : s.Indexed) : s'.Indexed := by
  intro g c
  rw [h.members, h.lists, hs g c]
  grind

theorem touchesOnly_refl (s : InMemoryWsClients) : TouchesOnly [] [] s s where
  policy := rfl
  shard := rfl
  allocated := rfl
  broadcastTx := rfl
  connections c := by simp
  connectionGroups c := by simp
  members c g := by simp
  groups _ _ := rfl
  states _ _ := rfl
  counters _ := rfl

theorem TouchesOnly.trans (hs : TouchesOnly rs gone s s') (ht : TouchesOnly rs' gone' s' s'') :
    TouchesOnly (rs ++ rs') (gone ++ gone') s s'' where
  policy := ht.policy.trans hs.policy
  shard := ht.shard.trans hs.shard
  allocated := ht.allocated.trans hs.allocated
  broadcastTx := ht.broadcastTx.trans hs.broadcastTx
  connections c := by
    rw [ht.connections, hs.connections]
    grind
  connectionGroups c := by
    rw [ht.connectionGroups, hs.connectionGroups]
    grind
  members c g := by
    rw [ht.members, hs.members, hs.lists, List.mem_append]
    grind
  groups g hg := by
    have hfirst := hs.groups g fun c hc => hg c (List.mem_append_left _ hc)
    refine (ht.groups g fun c hc hin => ?_).trans hfirst
    exact hg c (List.mem_append_right _ hc) (hs.lists.mp hin).2
  states h hh := by
    rw [List.mem_append, not_or] at hh
    exact (ht.states h hh.2).trans (hs.states h hh.1)
  counters h := by
    have h₁ := hs.counters h
    have h₂ := ht.counters h
    rw [← h₂] at h₁
    exact h₁

theorem touchesOnly_setDrops (s : InMemoryWsClients) (k : Handle) (n : UInt32) :
    TouchesOnly [k] [] s (s.setDrops k n) where
  policy := rfl
  shard := rfl
  allocated := rfl
  broadcastTx := rfl
  connections c := by simp [InMemoryWsClients.setDrops]
  connectionGroups c := by simp [InMemoryWsClients.setDrops]
  members c g := by simp [InMemoryWsClients.setDrops]
  groups _ _ := rfl
  states h hh := by
    have hne : h ≠ k := by simpa using hh
    simp [InMemoryWsClients.setDrops, hne]
  counters h := by
    by_cases hh : h = k
    · subst hh
      simp [InMemoryWsClients.setDrops]
    · simp [InMemoryWsClients.setDrops, hh]

theorem touchesOnly_without (env : CallEnv) (s : InMemoryWsClients) (id : ConnId) :
    TouchesOnly [] [id] s (s.without env id) where
  policy := rfl
  shard := rfl
  allocated := rfl
  broadcastTx := rfl
  connections c := by
    by_cases hc : c = id
    · subst hc
      simp
    · simp [hc, Finmap.lookup_erase_ne hc]
  connectionGroups c := by
    by_cases hc : c = id
    · subst hc
      simp
    · simp [hc, Finmap.lookup_erase_ne hc]
  members c g := by
    rw [mem_without_groupMembers, List.mem_singleton]
    grind
  groups g hg := lookup_without_of_notMem (hg id (by simp))
  states _ _ := rfl
  counters _ := rfl

/-- A delivery to `k` has ended with the effects `es`. -/
structure Settles (env : CallEnv) (msg : Message) (k : Handle) (es : List Effect) (w w' : World) :
    Prop where
  effects : w'.effects = w.effects ++ es
  settled : Settled env (some msg) w.clients k es
  touches : TouchesOnly [k] (evictions es) w.clients w'.clients
  keeps : ¬ w.clients.policy.Unregisters → w'.clients = w.clients

theorem accepted_of_not_dropped (h : ¬ env.dropped k = true) : (env.send k).accepted = true := by
  simp only [CallEnv.dropped, Bool.or_eq_true, not_or] at h
  simpa using h.2

theorem settles_sendIgnoringError (msg : Message) (hp : w.clients.policy.Ignores)
    (he : ¬ Evicts env w.clients k) :
    ∃ es, Settles env msg k es w (sendIgnoringError env msg (w.emit (.attempt k)) k) := by
  unfold sendIgnoringError
  split
  · rename_i ha
    exact ⟨_, emit_emit_effects _ _ _, .enqueued rfl ha (fun _ => hp) he,
      (touchesOnly_refl _).weaken, fun _ => rfl⟩
  · rename_i ha
    have hc : (env.send k).accepted = false := by simpa using ha
    exact ⟨_, emit_effects _ _, .ignored hp hc he, (touchesOnly_refl _).weaken, fun _ => rfl⟩

theorem settles_dropMessage {timeout : Nat} (hp : w.clients.policy = .dropMessage timeout)
    (hok : sendWithPolicy env held msg w k = .ok w') : ∃ es, Settles env msg k es w w' := by
  have hig : ¬ w.clients.policy.Ignores := by simp [hp, BroadcastPolicy.Ignores]
  have he : ¬ Evicts env w.clients k := by simp [Evicts, hp]
  simp only [sendWithPolicy, emit_clients, hp] at hok
  split at hok
  · rename_i hd
    obtain rfl := Except.ok.inj hok
    exact ⟨_, emit_emit_effects _ _ _, .reported hig hd he, (touchesOnly_refl _).weaken,
      fun _ => rfl⟩
  · rename_i hd
    obtain rfl := Except.ok.inj hok
    have ha := accepted_of_not_dropped hd
    exact ⟨_, emit_emit_effects _ _ _, .enqueued rfl ha (fun h => (hd h).elim) he,
      (touchesOnly_refl _).weaken, fun _ => rfl⟩

theorem settles_dropConnection {timeout : Nat} {maxDrops : UInt32}
    (hp : w.clients.policy = .dropConnection timeout maxDrops)
    (hreg : w.clients.connections.lookup (w.clients.states k).id = some k)
    (hok : sendWithPolicy env held msg w k = .ok w') : ∃ es, Settles env msg k es w w' := by
  have hun : w.clients.policy.Unregisters := by simp [hp, BroadcastPolicy.Unregisters]
  have hig : ¬ w.clients.policy.Ignores := by simp [hp, BroadcastPolicy.Ignores]
  have hev : Evicts env w.clients k ↔
      env.dropped k = true ∧ maxDrops ≤ (w.clients.states k).drops + 1 := by simp [Evicts, hp]
  simp only [sendWithPolicy, emit_clients, hp] at hok
  split at hok
  · rename_i hd
    split at hok
    · rename_i hmax
      obtain rfl := evictConnection_done (by exact hreg) hok
      refine ⟨[.attempt k, .onDrop _ _, .evict _, .cancel (w.clients.states k).cancel], ?_,
        .evicted (hev.mpr ⟨hd, hmax⟩), ?_, fun h => (h hun).elim⟩
      · simp [InMemoryWsClients.setDrops]
      · exact (touchesOnly_setDrops w.clients k _).trans (touchesOnly_without env _ _)
    · rename_i hmax
      obtain rfl := Except.ok.inj hok
      have he : ¬ Evicts env w.clients k := fun h => hmax (hev.mp h).2
      exact ⟨_, emit_emit_effects _ _ _, .reported hig hd he, touchesOnly_setDrops _ _ _,
        fun h => (h hun).elim⟩
  · rename_i hd
    obtain rfl := Except.ok.inj hok
    have ha := accepted_of_not_dropped hd
    have he : ¬ Evicts env w.clients k := fun h => hd (hev.mp h).1
    exact ⟨_, emit_emit_effects _ _ _, .enqueued rfl ha (fun h => (hd h).elim) he,
      touchesOnly_setDrops _ _ _, fun h => (h hun).elim⟩

theorem settles_dropOnHighRtt {maxRtt n : Nat} (hp : w.clients.policy = .dropOnHighRtt maxRtt n)
    (hreg : w.clients.connections.lookup (w.clients.states k).id = some k)
    (hok : sendWithPolicy env held msg w k = .ok w') : ∃ es, Settles env msg k es w w' := by
  have hun : w.clients.policy.Unregisters := by simp [hp, BroadcastPolicy.Unregisters]
  simp only [sendWithPolicy, emit_clients, hp] at hok
  cases havg : avgRtt (w.clients.states k).rttSamples with
  | none => simp [havg] at hok
  | some avg =>
    simp only [havg] at hok
    have hev : Evicts env w.clients k ↔ avg.any (· > maxRtt) = true := by
      cases avg <;> simp [Evicts, hp, havg]
    split at hok
    · rename_i hhigh
      obtain rfl := evictConnection_done (by exact hreg) hok
      refine ⟨[.attempt k, .onDrop _ _, .evict _, .cancel (w.clients.states k).cancel], ?_,
        .evicted (hev.mpr hhigh), ?_, fun h => (h hun).elim⟩
      · simp
      · exact (touchesOnly_without env _ _).weaken
    · rename_i hlow
      obtain rfl := Except.ok.inj hok
      have hig : w.clients.policy.Ignores := by simp [hp, BroadcastPolicy.Ignores]
      exact settles_sendIgnoringError msg hig fun h => hlow (hev.mp h)

/-- The step lemma: what one delivery does, whatever the policy. -/
theorem settles_sendWithPolicy
    (hreg : w.clients.connections.lookup (w.clients.states k).id = some k)
    (hok : sendWithPolicy env held msg w k = .ok w') : ∃ es, Settles env msg k es w w' := by
  cases hp : w.clients.policy with
  | block =>
    simp only [sendWithPolicy, emit_clients, hp] at hok
    obtain rfl := Except.ok.inj hok
    have hig : w.clients.policy.Ignores := by simp [hp, BroadcastPolicy.Ignores]
    exact settles_sendIgnoringError msg hig (by simp [Evicts, hp])
  | dropMessage => exact settles_dropMessage hp hok
  | dropConnection => exact settles_dropConnection hp hreg hok
  | dropOnHighRtt => exact settles_dropOnHighRtt hp hreg hok

/-- What becomes of a recipient depends on its own state and on the policy only. -/
theorem Settled.congr (h : Settled env out s' k es) (hp : s'.policy = s.policy)
    (hst : s'.states k = s.states k) : Settled env out s k es := by
  have hev : Evicts env s' k ↔ Evicts env s k := evicts_congr hp hst
  cases h with
  | enqueued hmsg ha hd he =>
    rw [hst]
    exact .enqueued hmsg ha (hp ▸ hd) (mt hev.mpr he)
  | reported hig hd he =>
    rw [hst]
    exact .reported (hp ▸ hig) hd (mt hev.mpr he)
  | evicted he =>
    rw [hst]
    exact .evicted (hev.mp he)
  | ignored hig hc he => exact .ignored (hp ▸ hig) hc (mt hev.mpr he)

/-- Only the recipient itself is ever evicted. -/
theorem Settled.evictions_subset (h : Settled env out s k es) (hc : c ∈ evictions es) :
    c = (s.states k).id := by
  cases h with
  | evicted => simpa [evictions] using hc
  | enqueued | reported | ignored => simp [evictions] at hc

theorem evictions_settled {blocks : List (List Effect)}
    (h : List.Forall₂ (Settled env out s) rs blocks) (hc : c ∈ evictions blocks.flatten) :
    ∃ k ∈ rs, (s.states k).id = c := by
  induction h with
  | nil => simp [evictions] at hc
  | @cons k es rs blocks hk _ ih =>
    rw [List.flatten_cons, evictions_append] at hc
    rcases List.mem_append.mp hc with hc | hc
    · exact ⟨k, List.mem_cons_self, (hk.evictions_subset hc).symm⟩
    · obtain ⟨i, hi, hid⟩ := ih hc
      exact ⟨i, List.mem_cons_of_mem _ hi, hid⟩

/-- The loop lemma: the recipients are settled one after another, each in the state in which
the store `s` has it. -/
theorem settles_deliver (hd : Distinct w.clients rs)
    (hreg : ∀ k ∈ rs, w.clients.connections.lookup (w.clients.states k).id = some k)
    (hp : w.clients.policy = s.policy) (hst : ∀ k ∈ rs, w.clients.states k = s.states k)
    (hok : deliver env held msg w rs = .ok w') :
    ∃ blocks, w'.effects = w.effects ++ blocks.flatten ∧
      List.Forall₂ (Settled env (some msg) s) rs blocks ∧
      TouchesOnly rs (evictions blocks.flatten) w.clients w'.clients ∧
      (¬ s.policy.Unregisters → w'.clients = w.clients) := by
  induction rs generalizing w with
  | nil =>
    obtain rfl := Except.ok.inj hok
    exact ⟨[], by simp, .nil, touchesOnly_refl _, fun _ => rfl⟩
  | cons k rs ih =>
    obtain ⟨hnew, hd'⟩ := distinct_cons.mp hd
    rw [deliver_cons] at hok
    cases hsend : sendWithPolicy env held msg w k with
    | error => simp [hsend, Except.bind] at hok
    | ok v =>
      obtain ⟨es, hv⟩ := settles_sendWithPolicy (hreg k List.mem_cons_self) hsend
      rw [hsend] at hok
      have hid : ∀ h, (v.clients.states h).id = (w.clients.states h).id := hv.touches.states_id
      have hreg' : ∀ h ∈ rs, v.clients.connections.lookup (v.clients.states h).id = some h := by
        intro h hh
        have hkept : (w.clients.states h).id ∉ evictions es :=
          fun hin => hnew h hh (hv.settled.evictions_subset hin)
        rw [hid, hv.touches.connections, if_neg hkept]
        exact hreg h (List.mem_cons_of_mem _ hh)
      have hst' : ∀ h ∈ rs, v.clients.states h = s.states h := by
        intro h hh
        rw [hv.touches.states h (by simpa using hd.ne_of_mem h hh)]
        exact hst h (List.mem_cons_of_mem _ hh)
      have hdv : Distinct v.clients rs := by
        rw [Distinct, List.map_congr_left fun h _ => hid h]
        exact hd'
      have hp' := hv.touches.policy.trans hp
      obtain ⟨blocks, heff, hall, htouch, hkeep⟩ := ih hdv hreg' hp' hst' hok
      have hk := hv.settled.congr hp (hst k List.mem_cons_self)
      refine ⟨es :: blocks, ?_, .cons hk hall, ?_, ?_⟩
      · rw [heff, hv.effects, List.flatten_cons, List.append_assoc]
      · rw [List.flatten_cons, evictions_append]
        exact hv.touches.trans htouch
      · intro hun
        rw [hkeep hun, hv.keeps (hp ▸ hun)]

/-- The four broadcasts that deliver under the policy. -/
def Op.Broadcasts : Op → Prop
  | .broadcastExcept _ _ | .broadcastGroup _ _ | .broadcastGroupExcept _ _ _
  | .broadcastGroups _ _ => True
  | _ => False

theorem registered_snapshot (hm : op.message = some msg) (hk : k ∈ op.snapshot env s) :
    s.connections.lookup (s.states k).id = some k := by
  obtain ⟨c, _, hl⟩ := (mem_snapshot hm).mp hk
  rwa [s.key_id c k hl]

/-- A broadcast that returns has settled each of its recipients in exactly one way, and has
touched nothing but their drop counters and, for those it evicted, the registration, the
token and the memberships; under `Block` and `DropMessage` it has touched nothing. -/
theorem broadcast_settles (hb : op.Broadcasts) (hok : op.exec env w = .ok w') :
    ∃ blocks, w'.effects = w.effects ++ blocks.flatten ∧
      List.Forall₂ (Settled env op.message w.clients) (op.snapshot env w.clients) blocks ∧
      TouchesOnly (op.snapshot env w.clients) (evictions blocks.flatten) w.clients w'.clients ∧
      (¬ w.clients.policy.Unregisters → w'.clients = w.clients) := by
  cases hm : op.message with
  | some msg =>
    rw [exec_of_message hm] at hok
    exact settles_deliver (distinct_snapshot env _ op) (fun k hk => registered_snapshot hm hk) rfl
      (fun _ _ => rfl) hok
  | none =>
    rw [snapshot_of_no_message hm]
    have hw : w' = w := by
      cases op with
      | broadcastExcept | broadcastGroup | broadcastGroupExcept | broadcastGroups =>
        obtain rfl : _ = none := hm
        exact (Except.ok.inj hok).symm
      | _ => exact hb.elim
    subst hw
    exact ⟨[], by simp, .nil, touchesOnly_refl _, fun _ => rfl⟩

/-- A store with one connection. -/
def oneConnection (policy : BroadcastPolicy) : World :=
  add ⟨.new policy fun _ => 0, []⟩ "c" "tx" "token" "drop"

theorem oneConnection_snapshot (env : CallEnv) (policy : BroadcastPolicy) (msg : Message) :
    (Op.broadcastExcept [] (some msg)).snapshot env (oneConnection policy).clients = [0] := by
  have hk : (oneConnection policy).clients.connections.keys = {"c"} := rfl
  rw [Op.snapshot, exceptRecipients, hk, IterOrder.list_singleton]
  rfl

/-- A broadcast to a slow connection reports the drop and leaves the store as it is. -/
theorem slow_connection_settles : ∃ w' blocks,
    (Op.broadcastExcept [] (some (.text "hello"))).exec lateEnv
      (oneConnection (.dropMessage second)) = .ok w' ∧ w'.effects = blocks.flatten ∧
    List.Forall₂ (Settled lateEnv (some (.text "hello"))
      (oneConnection (.dropMessage second)).clients) [0] blocks ∧
    w'.clients = (oneConnection (.dropMessage second)).clients := by
  have hok : (Op.broadcastExcept [] (some (.text "hello"))).exec lateEnv
      (oneConnection (.dropMessage second)) = .ok
        ⟨(oneConnection (.dropMessage second)).clients, [.attempt 0, .onDrop "drop" "c"]⟩ := by
    rw [exec_of_message rfl, oneConnection_snapshot]
    rfl
  obtain ⟨blocks, heff, hall, _, hkeep⟩ := broadcast_settles (by exact trivial) hok
  rw [oneConnection_snapshot] at hall
  exact ⟨_, blocks, hok, heff, hall, hkeep id⟩

end AxumSignal

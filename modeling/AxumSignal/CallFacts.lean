import AxumSignal.ClientsFacts
import AxumSignal.Interleaving

/-! What no step of the concurrent store undoes, and what a call knows about the
recipients it has collected so far. -/
namespace AxumSignal

open Transition Calls

variable {Task : Type} [DecidableEq Task] {s s' : Calls Task} {sh sh' sh'' : Shared}
  {pc pc' : Pc} {e : Event} {t u : Task} {h k : Handle}

/-- What stays as it is, or can only grow, while calls run. -/
structure Persists (sh sh' : Shared) : Prop where
  policy : sh'.clients.policy = sh.clients.policy
  shard : sh'.clients.shard = sh.clients.shard
  capacity : ∀ x, (sh'.chans x).capacity = (sh.chans x).capacity
  closed : ∀ x, (sh.chans x).closed = true → (sh'.chans x).closed = true
  cancelled : ∀ k, sh.cancelled k = true → sh'.cancelled k = true
  allocated : sh.clients.allocated ≤ sh'.clients.allocated
  id : ∀ h < sh.clients.allocated, (sh'.clients.states h).id = (sh.clients.states h).id
  registration : ∀ h < sh.clients.allocated,
    (sh'.clients.states h).registration = (sh.clients.states h).registration

theorem persists_refl (sh : Shared) : Persists sh sh :=
  ⟨rfl, rfl, fun _ => rfl, fun _ h => h, fun _ h => h, le_rfl, fun _ _ => rfl, fun _ _ => rfl⟩

theorem Persists.trans (h : Persists sh sh') (k : Persists sh' sh'') : Persists sh sh'' where
  policy := k.policy.trans h.policy
  shard := k.shard.trans h.shard
  capacity x := (k.capacity x).trans (h.capacity x)
  closed x hx := k.closed x (h.closed x hx)
  cancelled x hx := k.cancelled x (h.cancelled x hx)
  allocated := h.allocated.trans k.allocated
  id i hi := (k.id i (Nat.lt_of_lt_of_le hi h.allocated)).trans (h.id i hi)
  registration i hi :=
    (k.registration i (Nat.lt_of_lt_of_le hi h.allocated)).trans (h.registration i hi)

/-- Replacing the store by one with the same policy, shards and connection states. -/
theorem persists_set {s : InMemoryWsClients} (hp : s.policy = sh.clients.policy)
    (hs : s.shard = sh.clients.shard) (ha : sh.clients.allocated ≤ s.allocated)
    (hid : ∀ h < sh.clients.allocated, (s.states h).id = (sh.clients.states h).id)
    (hr : ∀ h < sh.clients.allocated,
      (s.states h).registration = (sh.clients.states h).registration) :
    Persists sh (sh.set s) :=
  ⟨hp, hs, fun _ => rfl, fun _ h => h, fun _ h => h, ha, hid, hr⟩

/-- Only the counters of one registration change. -/
theorem persists_counters {s : InMemoryWsClients} {k : Handle}
    (h : OnlyCounters k sh.clients s) (ha : s.allocated = sh.clients.allocated) :
    Persists sh (sh.set s) :=
  persists_set h.policy h.shard (le_of_eq ha.symm) (fun i _ => h.id i) fun i _ => h.registration i

/-- Only one channel changes, and it keeps its capacity and is not reopened. -/
theorem persists_chan (sh : Shared) (x : Sender) {chan : Chan}
    (hcap : chan.capacity = (sh.chans x).capacity)
    (hclosed : (sh.chans x).closed = true → chan.closed = true) :
    Persists sh { sh with chans := Function.update sh.chans x chan } := by
  refine ⟨rfl, rfl, fun y => ?_, fun y hy => ?_, fun _ h => h, le_rfl, fun _ _ => rfl,
    fun _ _ => rfl⟩
  · by_cases hxy : y = x
    · subst hxy
      simpa using hcap
    · simp [hxy]
  · by_cases hxy : y = x
    · subst hxy
      simpa using hclosed hy
    · simpa [hxy] using hy

theorem persists_push (sh : Shared) (x : Sender) (msg : Message) : Persists sh (sh.push x msg) :=
  persists_chan sh x rfl id

theorem persists_pop (sh : Shared) (x : Sender) : Persists sh (sh.pop x) :=
  persists_chan sh x rfl id

theorem persists_close (sh : Shared) (x : Sender) : Persists sh (sh.close x) :=
  persists_chan sh x rfl fun _ => rfl

theorem persists_cancel (sh : Shared) (k : CancelToken) : Persists sh (sh.cancel k) := by
  refine ⟨rfl, rfl, fun _ => rfl, fun _ h => h, fun y hy => ?_, le_rfl, fun _ _ => rfl,
    fun _ _ => rfl⟩
  by_cases hky : y = k
  · subst hky; simp [Shared.cancel]
  · simpa [Shared.cancel, hky] using hy

theorem persists_insert (sh : Shared) (id : ConnId) (x : Sender) (k : CancelToken)
    (f : OnDropFn) : Persists sh (sh.set (sh.clients.insertConnection id x k f)) := by
  have hother : ∀ h < sh.clients.allocated,
      (sh.clients.insertConnection id x k f).states h = sh.clients.states h := by
    intro h hh
    simp [InMemoryWsClients.insertConnection, Nat.ne_of_lt hh]
  exact persists_set rfl rfl (Nat.le_succ _) (fun h hh => by rw [hother h hh])
    fun h hh => by rw [hother h hh]

theorem exec_persists (hx : Exec sh pc e sh' pc') : Persists sh sh' := by
  cases hx with
  | insert => exact persists_insert ..
  | record => exact persists_counters (onlyCounters_setRttSamples _ _ _) rfl
  | accept | resume => exact persists_push ..
  | countBelow | countReached | reset => exact persists_counters (onlyCounters_setDrops _ _ _) rfl
  | evictCancel => exact persists_cancel ..
  | removeEntry | publish | joinMembers | joinGroups | leaveMembers | leaveGroups | evictFound
  | cleanTaken | cleanRemove | cleanDelete =>
    exact persists_set rfl rfl le_rfl (fun _ _ => rfl) fun _ _ => rfl
  | _ => exact persists_refl sh

theorem step_persists {l : CallLabel Task} (h : CallStep s l s') : Persists s.shared s'.shared := by
  cases h with
  | exec _ hx => exact exec_persists hx
  | recv => exact persists_pop ..
  | close => exact persists_close ..
  | cancel => exact persists_cancel ..
  | call | abort => exact persists_refl _

/-- What a step is to the call of `t`. -/
inductive Turn (t : Task) (s : Calls Task) : CallLabel Task → Calls Task → Prop where
  | other {l : CallLabel Task} {s' : Calls Task} (hl : ∀ e, l ≠ .exec t e)
      (hpc : s'.pc t = s.pc t) : Turn t s l s'
  | call {op : Op} (hidle : s.pc t = .idle) :
      Turn t s (.call t op) (s.goto t s.shared op.start)
  | exec {e : Event} {sh : Shared} {pc : Pc} (hfree : s.Granted t)
      (hx : Exec s.shared (s.pc t) e sh pc) : Turn t s (.exec t e) (s.goto t sh pc)
  | abort {r : Receiver} (hpc : s.pc t = .wait r) :
      Turn t s (.abort t) (s.goto t s.shared .idle)

theorem step_turn {l : CallLabel Task} (h : CallStep s l s') (t : Task) : Turn t s l s' := by
  cases h with
  | @call u op hidle =>
    by_cases htu : t = u
    · subst htu
      exact .call hidle
    · exact .other (by simp) (s.goto_pc_ne htu _ _)
  | @exec u e sh pc hfree hx =>
    by_cases htu : t = u
    · subst htu
      exact .exec hfree hx
    · exact .other (by simp [Ne.symm htu]) (s.goto_pc_ne htu _ _)
  | @abort u r hpc =>
    by_cases htu : t = u
    · subst htu
      exact .abort hpc
    · exact .other (by simp) (s.goto_pc_ne htu _ _)
  | recv | close | cancel => exact .other (by simp) rfl

/-- Where a call goes on after a policy decision, a send or a clean-up: at an access that
needs no exclusive lock and lies between no two updates of the indexes. -/
def Pc.Follows : Pc → Prop
  | .idle | .removeEntry _ | .deliver _ | .average _ _ | .send _ | .drop _ _ | .count _ _
  | .reset _ _ | .evictRemove _ _ => True
  | _ => False

theorem follows_firstAccess (policy : BroadcastPolicy) (h : Handle) (d : Delivery) :
    (policy.firstAccess h d).Follows := by
  cases policy <;> trivial

theorem follows_afterDrop (policy : BroadcastPolicy) (h : Handle) (d : Delivery) :
    (policy.afterDrop h d).Follows := by
  cases policy <;> trivial

theorem follows_accepted (policy : BroadcastPolicy) (r : Receiver) :
    (r.accepted policy).Follows := by
  cases r <;> cases policy <;> trivial

theorem follows_refused (policy : BroadcastPolicy) (r : Receiver) :
    (r.refused policy).Follows := by
  cases r <;> cases policy <;> trivial

theorem follows_cont (k : Cont) : k.pc.Follows := by
  cases k <;> trivial

theorem Pc.Follows.exclusive (h : pc.Follows) : pc.exclusive = none := by
  cases pc <;> first | rfl | exact h.elim

theorem Pc.Follows.ne_insert (h : pc.Follows) {id : ConnId} {x : Sender} {k : CancelToken}
    {f : OnDropFn} : pc ≠ .insert id x k f := by
  rintro rfl
  exact h

theorem Pc.Follows.ne_wait (h : pc.Follows) {r : Receiver} : pc ≠ .wait r := by
  rintro rfl
  exact h

theorem start_insert {op : Op} {id : ConnId} {x : Sender} {k : CancelToken} {f : OnDropFn}
    (h : op.start = .insert id x k f) : op = .add id x k f := by
  unfold Op.start at h
  split at h <;> cases h
  rfl

theorem exec_insert {id : ConnId} {x : Sender} {k : CancelToken} {f : OnDropFn}
    (hx : Exec sh pc e sh' pc') : pc' ≠ .insert id x k f := by
  cases hx with
  | next => exact (follows_firstAccess _ _ _).ne_insert
  | drop => exact (follows_afterDrop _ _ _).ne_insert
  | accept | resume => exact (follows_accepted _ _).ne_insert
  | refuse | disconnect => exact (follows_refused _ _).ne_insert
  | cleanNothing | cleanDone => exact (follows_cont _).ne_insert
  | _ => simp

theorem lookup_erase_none {m : Finmap fun _ : ConnId => Handle} {c id : ConnId}
    (h : m.lookup c = none) : (m.erase id).lookup c = none := by
  by_cases hid : c = id
  · subst hid
    simp
  · rwa [Finmap.lookup_erase_ne hid]

/-- Only an insertion of `c` itself registers `c`. -/
theorem exec_unregistered {c : ConnId} (hx : Exec sh pc e sh' pc')
    (h : sh.clients.connections.lookup c = none)
    (hpc : ∀ x k f, pc ≠ .insert c x k f) : sh'.clients.connections.lookup c = none := by
  cases hx with
  | insert id x k f =>
    have hid : c ≠ id := by
      rintro rfl
      exact hpc x k f rfl
    simpa [Shared.set, InMemoryWsClients.insertConnection, Finmap.lookup_insert_of_ne _ hid] using h
  | removeEntry | evictFound => exact lookup_erase_none h
  | _ => exact h

theorem Pc.Follows.ne_evictCancel (h : pc.Follows) {victim : Handle} {id : ConnId}
    {d : Delivery} : pc ≠ .evictCancel victim id d := by
  rintro rfl
  exact h

/-- An eviction has found its victim registered, and taken it out. -/
theorem exec_evictCancel {victim : Handle} {id : ConnId} {d : Delivery}
    (hx : Exec sh pc e sh' (.evictCancel victim id d)) :
    sh.clients.connections.lookup id = some victim ∧ sh'.clients.connections.lookup id = none := by
  generalize hpc : Pc.evictCancel victim id d = next at hx
  cases hx with
  | evictFound hl =>
    cases hpc
    exact ⟨hl, Finmap.lookup_erase _ _⟩
  | next => exact ((follows_firstAccess _ _ _).ne_evictCancel hpc.symm).elim
  | drop => exact ((follows_afterDrop _ _ _).ne_evictCancel hpc.symm).elim
  | accept | resume => exact ((follows_accepted _ _).ne_evictCancel hpc.symm).elim
  | refuse | disconnect => exact ((follows_refused _ _).ne_evictCancel hpc.symm).elim
  | cleanNothing | cleanDone => exact ((follows_cont _).ne_evictCancel hpc.symm).elim
  | _ => cases hpc

theorem start_ne_evictCancel {op : Op} {victim : Handle} {id : ConnId} {d : Delivery} :
    op.start ≠ .evictCancel victim id d := by
  unfold Op.start
  split <;> simp

/-- New registrations are made by insertions only. -/
theorem exec_allocated (hx : Exec sh pc e sh' pc') :
    sh'.clients.allocated = sh.clients.allocated ∨ ∃ id x k f, pc = .insert id x k f ∧
      sh'.clients = sh.clients.insertConnection id x k f := by
  cases hx with
  | insert id x k f => exact Or.inr ⟨id, x, k, f, rfl, rfl⟩
  | _ => exact Or.inl rfl

/-- Existing registrations of different connections. -/
structure Snapshot (s : InMemoryWsClients) (hs : List Handle) : Prop where
  allocated : ∀ h ∈ hs, h < s.allocated
  distinct : (hs.map fun h => (s.states h).id).Nodup

theorem Snapshot.nodup {s : InMemoryWsClients} {hs : List Handle} (h : Snapshot s hs) :
    hs.Nodup := h.distinct.of_map _

theorem snapshot_nil (s : InMemoryWsClients) : Snapshot s [] := ⟨by simp, List.nodup_nil⟩

theorem Snapshot.tail {s : InMemoryWsClients} {k : Handle} {hs : List Handle}
    (h : Snapshot s (k :: hs)) : Snapshot s hs where
  allocated i hi := h.allocated i (List.mem_cons_of_mem _ hi)
  distinct := (List.nodup_cons.mp (by simpa using h.distinct)).2

theorem Persists.ids (h : Persists sh sh') {hs : List Handle}
    (ha : ∀ i ∈ hs, i < sh.clients.allocated) :
    (hs.map fun i => (sh'.clients.states i).id) = hs.map fun i => (sh.clients.states i).id :=
  List.map_congr_left fun i hi => h.id i (ha i hi)

theorem Persists.snapshot (h : Persists sh sh') {hs : List Handle}
    (hsnap : Snapshot sh.clients hs) : Snapshot sh'.clients hs where
  allocated i hi := Nat.lt_of_lt_of_le (hsnap.allocated i hi) h.allocated
  distinct := by
    rw [h.ids hsnap.allocated]
    exact hsnap.distinct

theorem lookup_allocated {s : InMemoryWsClients} {ids : List ConnId} :
    ∀ h ∈ ids.filterMap s.connections.lookup, h < s.allocated := by
  intro h hh
  obtain ⟨id, _, hl⟩ := List.mem_filterMap.mp hh
  exact s.key_allocated id h hl

/-- Looking up new ids extends a snapshot. -/
theorem Snapshot.append_lookup {s : InMemoryWsClients} {found : List Handle} {ids : List ConnId}
    (hs : Snapshot s found) (hnd : ids.Nodup) (hnew : ∀ h ∈ found, (s.states h).id ∉ ids) :
    Snapshot s (found ++ ids.filterMap s.connections.lookup) where
  allocated h hh := (List.mem_append.mp hh).elim (hs.allocated h) (lookup_allocated h)
  distinct := by
    rw [List.map_append, lookup_ids]
    refine List.nodup_append.mpr ⟨hs.distinct, hnd.filter _, ?_⟩
    rintro _ ha b hb rfl
    obtain ⟨h, hh, rfl⟩ := List.mem_map.mp ha
    exact hnew h hh (List.mem_filter.mp hb).1

/-- The ids of looked-up registrations are among the ids asked for. -/
theorem lookup_id_mem {s : InMemoryWsClients} {ids : List ConnId} {h : Handle}
    (hh : h ∈ ids.filterMap s.connections.lookup) : (s.states h).id ∈ ids := by
  obtain ⟨id, hid, hl⟩ := List.mem_filterMap.mp hh
  rwa [s.key_id id h hl]

theorem lookup_toList (s : InMemoryWsClients) (id : ConnId) :
    (s.connections.lookup id).toList = [id].filterMap s.connections.lookup := by
  cases h : s.connections.lookup id <;> simp [h]

/-- The recipients found in the shards visited before `next`. -/
structure Visited (s : InMemoryWsClients) (layout : Layout) (next : Nat) (found : List Handle) :
    Prop where
  snapshot : Snapshot s found
  before : ∀ h ∈ found, (layout.index (s.states h).id : Nat) < next

/-- The recipients found among the ids seen so far. -/
structure Seen (s : InMemoryWsClients) (seen : Finset ConnId) (found : List Handle) : Prop where
  snapshot : Snapshot s found
  among : ∀ h ∈ found, (s.states h).id ∈ seen

/-- The ids of one visited shard that are still to be looked up. -/
structure Pending (s : InMemoryWsClients) (layout : Layout) (next : Nat) (ids : List ConnId)
    (found : List Handle) : Prop where
  nodup : ids.Nodup
  before : ∀ id ∈ ids, (layout.index id : Nat) < next
  fresh : ∀ h ∈ found, (s.states h).id ∉ ids

def Cont.Collected (s : InMemoryWsClients) : Cont → Prop
  | .removal _ => True
  | .resume d => Snapshot s d.rest

def Receiver.Collected (s : InMemoryWsClients) : Receiver → Prop
  | .direct _ _ => True
  | .recipient h d => Snapshot s (h :: d.rest)

/-- Every call holds existing registrations only, and a broadcast each connection once. -/
def Pc.Collected (s : InMemoryWsClients) : Pc → Prop
  | .record h _ => h < s.allocated
  | .scan _ _ layout next found => Visited s layout next found
  | .scanGroup _ _ _ layout next ids found =>
    Visited s layout next found ∧ Pending s layout next ids found
  | .openGroups _ _ seen found | .scanGroups _ _ _ seen found _ _ _
  | .filterGroups _ _ _ seen found => Seen s seen found
  | .deliver d => Snapshot s d.rest
  | .average h d | .drop h d | .count h d | .reset h d | .evictRemove h d =>
    Snapshot s (h :: d.rest)
  | .evictCancel victim _ d => victim < s.allocated ∧ Snapshot s d.rest
  | .send r | .wait r => r.Collected s
  | .cleanTake _ k | .cleanNext _ _ k | .cleanRemove _ _ _ k | .cleanCheck _ _ _ k
  | .cleanDelete _ _ _ k => k.Collected s
  | _ => True

theorem Persists.visited (h : Persists sh sh') {layout : Layout} {next : Nat}
    {found : List Handle} (hv : Visited sh.clients layout next found) :
    Visited sh'.clients layout next found where
  snapshot := h.snapshot hv.snapshot
  before i hi := by
    rw [h.id i (hv.snapshot.allocated i hi)]
    exact hv.before i hi

theorem Persists.seen (h : Persists sh sh') {seen : Finset ConnId} {found : List Handle}
    (hv : Seen sh.clients seen found) : Seen sh'.clients seen found where
  snapshot := h.snapshot hv.snapshot
  among i hi := by
    rw [h.id i (hv.snapshot.allocated i hi)]
    exact hv.among i hi

/-- Other calls do not spoil what a call has collected. -/
theorem Persists.collected (h : Persists sh sh') (hc : pc.Collected sh.clients) :
    pc.Collected sh'.clients := by
  have hcont : ∀ {k : Cont}, k.Collected sh.clients → k.Collected sh'.clients := by
    intro k hk
    cases k with
    | removal => trivial
    | resume => exact h.snapshot hk
  have hrecv : ∀ {r : Receiver}, r.Collected sh.clients → r.Collected sh'.clients := by
    intro r hr
    cases r with
    | direct => trivial
    | recipient => exact h.snapshot hr
  cases pc with
  | record => exact Nat.lt_of_lt_of_le hc h.allocated
  | scan => exact h.visited hc
  | scanGroup =>
    refine ⟨h.visited hc.1, hc.2.nodup, hc.2.before, fun i hi => ?_⟩
    rw [h.id i (hc.1.snapshot.allocated i hi)]
    exact hc.2.fresh i hi
  | openGroups | scanGroups | filterGroups => exact h.seen hc
  | deliver | average | drop | count | reset | evictRemove => exact h.snapshot hc
  | evictCancel => exact ⟨Nat.lt_of_lt_of_le hc.1 h.allocated, h.snapshot hc.2⟩
  | send | wait => exact hrecv hc
  | cleanTake | cleanNext | cleanRemove | cleanCheck | cleanDelete => exact hcont hc
  | _ => trivial

theorem collected_firstAccess {s : InMemoryWsClients} {d : Delivery}
    (h : Snapshot s (k :: d.rest)) (policy : BroadcastPolicy) :
    (policy.firstAccess k d).Collected s := by
  cases policy <;> exact h

theorem collected_afterDrop {s : InMemoryWsClients} {d : Delivery}
    (h : Snapshot s (k :: d.rest)) (policy : BroadcastPolicy) :
    (policy.afterDrop k d).Collected s := by
  cases policy with
  | block | dropMessage => exact h.tail
  | dropConnection | dropOnHighRtt => exact h

theorem collected_accepted {s : InMemoryWsClients} {r : Receiver} (h : r.Collected s)
    (policy : BroadcastPolicy) : (r.accepted policy).Collected s := by
  cases r with
  | direct => trivial
  | recipient => cases policy <;> first | exact h.tail | exact h

theorem collected_refused {s : InMemoryWsClients} {r : Receiver} (h : r.Collected s)
    (policy : BroadcastPolicy) : (r.refused policy).Collected s := by
  cases r with
  | direct => trivial
  | recipient => cases policy <;> first | exact h.tail | exact h

theorem collected_cont {s : InMemoryWsClients} {k : Cont} (h : k.Collected s) :
    k.pc.Collected s := by
  cases k with
  | removal => trivial
  | resume => exact h

theorem collected_start (s : InMemoryWsClients) (op : Op) : op.start.Collected s := by
  unfold Op.start
  split <;> first | trivial | exact ⟨snapshot_nil s, by simp⟩

/-- The step lemma, before the access changes the store: the call stays well informed. -/
theorem exec_collected_before (hx : Exec sh pc e sh' pc') (hc : pc.Collected sh.clients) :
    pc'.Collected sh.clients := by
  cases hx with
  | stateFound _ hl => exact sh.clients.key_allocated _ _ hl
  | iter => exact ⟨snapshot_nil _, by simp⟩
  | @scan excluded msg layout next found ids _ hids =>
    have hnew : ∀ h ∈ found, (sh.clients.states h).id ∉ ids.filter (· ∉ excluded) := by
      intro h hh hin
      have hlt := hc.before h hh
      have := ((hids.mem _).mp (List.mem_filter.mp hin).1).2
      omega
    refine ⟨hc.snapshot.append_lookup (hids.nodup.filter _) hnew, fun h hh => ?_⟩
    rcases List.mem_append.mp hh with hh | hh
    · exact Nat.lt_succ_of_lt (hc.before h hh)
    · have hid := (List.mem_filter.mp (lookup_id_mem hh)).1
      exact Nat.lt_succ_of_le (le_of_eq ((hids.mem _).mp hid).2)
  | groupFound => exact ⟨⟨snapshot_nil _, by simp⟩, List.nodup_nil, by simp, by simp⟩
  | @scanGroup group excluded msg layout next found ids _ hids =>
    obtain ⟨hv, hp⟩ := hc
    have hat : ∀ id ∈ ids.filter (· ∉ excluded), (layout.index id : Nat) = next :=
      fun id hid => ((hids.mem id).mp (List.mem_filter.mp hid).1).2
    refine ⟨⟨hv.snapshot, fun h hh => Nat.lt_succ_of_lt (hv.before h hh)⟩,
      hids.nodup.filter _, fun id hid => Nat.lt_succ_of_le (le_of_eq (hat id hid)),
      fun h hh hin => ?_⟩
    have hlt := hv.before h hh
    have := hat _ hin
    omega
  | @lookupMember group excluded msg layout next id ids found =>
    obtain ⟨hv, hp⟩ := hc
    obtain ⟨hidn, hnd⟩ := List.nodup_cons.mp hp.nodup
    refine ⟨⟨?_, fun h hh => ?_⟩, hnd, fun i hi => hp.before i (List.mem_cons_of_mem _ hi),
      fun h hh => ?_⟩
    · rw [lookup_toList]
      refine hv.snapshot.append_lookup (List.nodup_singleton _) fun h hh hin => ?_
      exact hp.fresh h hh (List.mem_singleton.mp hin ▸ List.mem_cons_self)
    · rcases List.mem_append.mp hh with hh | hh
      · exact hv.before h hh
      · rw [lookup_toList] at hh
        exact hp.before _ (List.mem_singleton.mp (lookup_id_mem hh) ▸ List.mem_cons_self)
    · rcases List.mem_append.mp hh with hh | hh
      · exact fun hin => hp.fresh h hh (List.mem_cons_of_mem _ hin)
      · rw [lookup_toList] at hh
        rwa [List.mem_singleton.mp (lookup_id_mem hh)]
  | @lookupFirst id ids groups msg seen found hseen =>
    refine ⟨?_, fun h hh => ?_⟩
    · rw [lookup_toList]
      refine hc.snapshot.append_lookup (List.nodup_singleton _) fun h hh hin => ?_
      exact hseen (List.mem_singleton.mp hin ▸ hc.among h hh)
    · rcases List.mem_append.mp hh with hh | hh
      · exact Finset.mem_insert_of_mem (hc.among h hh)
      · rw [lookup_toList] at hh
        exact List.mem_singleton.mp (lookup_id_mem hh) ▸ Finset.mem_insert_self _ _
  | scanned | groupsDone => exact hc.snapshot
  | groupScanned => exact hc.1.snapshot
  | @next held msg h rest => exact collected_firstAccess (d := ⟨held, msg, rest⟩) hc _
  | drop => exact collected_afterDrop hc _
  | accept | resume => exact collected_accepted hc _
  | refuse | disconnect => exact collected_refused hc _
  | countBelow | reset | evictMissing => exact hc.tail
  | evictFound hl => exact ⟨sh.clients.key_allocated _ _ hl, hc.tail⟩
  | evictCancel => exact hc.2
  | cleanNothing | cleanDone => exact collected_cont hc
  | nextFound | nextMissing | scanGroups | collected | duplicate | filtered | averageHigh
  | averageLow | suspend | late | countReached | cleanTaken | cleanFound | cleanMissing
  | cleanRemove | cleanEmpty | cleanKept | cleanDelete => exact hc
  | _ => trivial

theorem exec_collected (hx : Exec sh pc e sh' pc') (hc : pc.Collected sh.clients) :
    pc'.Collected sh'.clients :=
  (exec_persists hx).collected (exec_collected_before hx hc)

/-- Every call in progress holds a valid snapshot. -/
def Calls.AllCollected (s : Calls Task) : Prop := ∀ t, (s.pc t).Collected s.shared.clients

theorem allCollected_step {l : CallLabel Task} (h : CallStep s l s') (hs : s.AllCollected) :
    s'.AllCollected := by
  have hp := step_persists h
  have hgoto : ∀ {t sh pc}, Persists s.shared sh → pc.Collected sh.clients →
      (s.goto t sh pc).AllCollected := by
    intro t sh pc hp hpc
    exact forall_goto (P := fun _ pc => pc.Collected sh.clients) sh hpc fun u _ =>
      hp.collected (hs u)
  cases h with
  | call op _ => exact hgoto (persists_refl _) (collected_start _ op)
  | exec _ hx => exact hgoto (exec_persists hx) (exec_collected hx (hs _))
  | abort _ => exact hgoto (persists_refl _) trivial
  | recv | close | cancel => exact fun u => hp.collected (hs u)

theorem allCollected_reachable (h : (callSystem Task).Reachable Calls.Fresh s) :
    s.AllCollected := by
  refine h.invariant (fun _ _ _ hstep hs => allCollected_step hstep hs) fun u hu t => ?_
  rw [hu.2 t]
  trivial

/-- An empty store, two idle tasks, and channels with room for one message. -/
def idlePair (policy : BroadcastPolicy) : Calls Bool where
  shared := ⟨.new policy fun _ => 0, fun _ => ⟨1, [], false⟩, fun _ => false⟩
  pc _ := .idle

/-- One connection, all of whose map is one shard. -/
theorem yields_only (c : ConnId) (h : Handle) :
    Yields (Finmap.insert c h (∅ : Finmap fun _ : ConnId => Handle)).keys ⟨1, fun _ => 0⟩ 0
      [c] where
  nodup := List.nodup_singleton c
  mem id := by simp [Finmap.mem_keys, Finmap.notMem_empty]

/-- A group with one member, all of which is one shard. -/
theorem yields_member (c : ConnId) (g : GroupName) :
    Yields (((∅ : SetMap GroupName ConnId).add g c).values g) ⟨1, fun _ => 0⟩ 0 [c] where
  nodup := List.nodup_singleton c
  mem id := by simp

theorem idlePair_fresh (policy : BroadcastPolicy) : (idlePair policy).Fresh :=
  ⟨⟨policy, _, rfl⟩, fun _ => rfl⟩

end AxumSignal

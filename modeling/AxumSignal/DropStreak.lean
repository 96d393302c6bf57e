import AxumSignal.Eviction
import AxumSignal.Lib.Streak

/-! When `DropConnection` closes a connection: the counter behind a registration against the
order in which the deliveries, of any number of calls, have updated it. -/
namespace AxumSignal

open Transition Calls LTS Streak

variable {Task : Type} [DecidableEq Task] {s s' : Calls Task} {sh sh' : Shared} {pc pc' : Pc}
  {e : Event} {t u : Task} {c : ConnId} {h k : Handle} {l : CallLabel Task} {m n timeout : Nat}
  {maxDrops : UInt32} {xs : List (CallLabel Task)} {marks : List Bool}

/-- What an access does to the counter of `h`: a drop counts, a success resets. -/
def Event.mark (h : Handle) : Event → Option Bool
  | .count k => if k = h then some true else none
  | .reset k => if k = h then some false else none
  | _ => none

def CallLabel.mark (h : Handle) : CallLabel Task → Option Bool
  | .exec _ e => e.mark h
  | _ => none

/-- The counter steps of the deliveries to `h`, in order. -/
def counterSteps (h : Handle) (xs : List (CallLabel Task)) : List Bool :=
  xs.filterMap (·.mark h)

omit [DecidableEq Task] in
theorem counterSteps_snoc (h : Handle) (xs : List (CallLabel Task)) (l : CallLabel Task) :
    counterSteps h (xs ++ [l]) = counterSteps h xs ++ (l.mark h).toList := by
  rw [counterSteps, List.filterMap_append, counterSteps]
  cases hl : l.mark h <;> simp [hl]

/-- How a delivery to `h` ends: the message is dropped, or enqueued. -/
def Event.outcome (h : Handle) : Event → Option Bool
  | .onDrop k => if k = h then some true else none
  | .enqueue (.recipient k _) => if k = h then some false else none
  | _ => none

/-- What the call of `t` shows in the step. -/
def CallLabel.eventOf (t : Task) : CallLabel Task → Option Event
  | .exec u e => if u = t then some e else none
  | _ => none

/-- The accesses of the calls of `t`, in order. -/
def eventsOf (t : Task) (xs : List (CallLabel Task)) : List Event :=
  xs.filterMap (·.eventOf t)

/-- The outcome of a delivery to `h` whose counter step comes next. -/
def Pc.uncounted (h : Handle) : Pc → List Bool
  | .count k _ => if k = h then [true] else []
  | .reset k _ => if k = h then [false] else []
  | _ => []

/-- The delivery has counted `max_drops` drops and is about to unregister `h`. -/
def Pc.Evicting (h : Handle) : Pc → Prop
  | .evictRemove k _ => k = h
  | _ => False

/-- `c` is added once, and never removed by its serve task. -/
def AddedOnce (c : ConnId) (s : Calls Task) (l : CallLabel Task) (_ : Calls Task) : Prop :=
  ∀ t e, l = .exec t e → s.pc t ≠ .removeEntry c ∧ ∀ x k f, s.pc t = .insert c x k f →
    ∀ i < s.shared.clients.allocated, (s.shared.clients.states i).id ≠ c

/-- Neither end of the access is one of an eviction of `h`, which stands for `c`. -/
structure Aside (c : ConnId) (h : Handle) (pc pc' : Pc) : Prop where
  evicting : ¬ pc.Evicting h
  evicting' : ¬ pc'.Evicting h
  cancelling : ¬ pc.Cancelling c
  cancelling' : ¬ pc'.Cancelling c

/-- What an access is to the only registration `h` of `c`. -/
inductive DropTurn (c : ConnId) (h : Handle) (maxDrops : UInt32) (sh : Shared) :
    Pc → Event → Shared → Pc → Prop where
  | quiet {sh' : Shared} {pc pc' : Pc} {e : Event} (he : e.mark h = none)
      (hdrops : (sh'.clients.states h).drops = (sh.clients.states h).drops)
      (hl : sh'.clients.connections.lookup c = sh.clients.connections.lookup c)
      (ha : Aside c h pc pc') : DropTurn c h maxDrops sh pc e sh' pc'
  | below {sh' : Shared} {d : Delivery}
      (hlow : (sh.clients.states h).drops + 1 < maxDrops)
      (hdrops : (sh'.clients.states h).drops = (sh.clients.states h).drops + 1)
      (hl : sh'.clients.connections.lookup c = sh.clients.connections.lookup c) :
      DropTurn c h maxDrops sh (.count h d) (.count h) sh' (.deliver d)
  | reached {sh' : Shared} {d : Delivery}
      (hhigh : maxDrops ≤ (sh.clients.states h).drops + 1)
      (hdrops : (sh'.clients.states h).drops = (sh.clients.states h).drops + 1)
      (hl : sh'.clients.connections.lookup c = sh.clients.connections.lookup c) :
      DropTurn c h maxDrops sh (.count h d) (.count h) sh' (.evictRemove h d)
  | reset {sh' : Shared} {d : Delivery} (hdrops : (sh'.clients.states h).drops = 0)
      (hl : sh'.clients.connections.lookup c = sh.clients.connections.lookup c) :
      DropTurn c h maxDrops sh (.reset h d) (.reset h) sh' (.deliver d)
  | unregisters {sh' : Shared} {victim : Handle} {d : Delivery}
      (hdrops : (sh'.clients.states h).drops = (sh.clients.states h).drops)
      (hfound : sh.clients.connections.lookup c = some victim)
      (hnone : sh'.clients.connections.lookup c = none) :
      DropTurn c h maxDrops sh (.evictRemove h d) (.evict c) sh' (.evictCancel victim c d)
  | misses {d : Delivery} (hnone : sh.clients.connections.lookup c = none) :
      DropTurn c h maxDrops sh (.evictRemove h d) .access sh (.cleanTake c (.resume d))
  | cancels {victim : Handle} {d : Delivery} :
      DropTurn c h maxDrops sh (.evictCancel victim c d)
        (.cancel (sh.clients.states victim).cancel)
        (sh.cancel (sh.clients.states victim).cancel) (.cleanTake c (.resume d))

theorem Pc.Follows.not_cancelling (hf : pc.Follows) : ¬ pc.Cancelling c := by
  cases pc <;> first | exact id | exact hf.elim

theorem evicting_firstAccess (policy : BroadcastPolicy) (i : Handle) (d : Delivery) :
    ¬ (policy.firstAccess i d).Evicting h := by
  cases policy <;> exact id

theorem evicting_accepted (policy : BroadcastPolicy) (r : Receiver) :
    ¬ (r.accepted policy).Evicting h := by
  cases r <;> cases policy <;> exact id

theorem evicting_refused (policy : BroadcastPolicy) (r : Receiver) :
    ¬ (r.refused policy).Evicting h := by
  cases r <;> cases policy <;> exact id

theorem evicting_cont (k : Cont) : ¬ k.pc.Evicting h := by
  cases k <;> exact id

theorem setDrops_drops_ne (s : InMemoryWsClients) {i : Handle} (hi : h ≠ i) (x : UInt32) :
    ((s.setDrops i x).states h).drops = (s.states h).drops := by
  simp [InMemoryWsClients.setDrops, hi]

theorem setDrops_drops (s : InMemoryWsClients) (h : Handle) (x : UInt32) :
    ((s.setDrops h x).states h).drops = x := by
  simp [InMemoryWsClients.setDrops]

theorem setRttSamples_drops (s : InMemoryWsClients) (i : Handle) (samples : List Nat) :
    ((s.setRttSamples i samples).states h).drops = (s.states h).drops := by
  by_cases hi : h = i
  · subst hi
    simp [InMemoryWsClients.setRttSamples]
  · simp [InMemoryWsClients.setRttSamples, hi]

/-- The registration exists, and is the only one of `c`. -/
structure Only (s : InMemoryWsClients) (c : ConnId) (h : Handle) : Prop where
  allocated : h < s.allocated
  named : (s.states h).id = c
  unique : ∀ i < s.allocated, (s.states i).id = c → i = h

/-- The inversion lemma, under `DropConnection`. -/
theorem exec_dropTurn (hx : Exec sh pc e sh' pc') (ho : Only sh.clients c h)
    (hp : sh.clients.policy = .dropConnection timeout maxDrops) (hc : pc.Collected sh.clients)
    (hrem : pc ≠ .removeEntry c) (hins : ∀ x k f, pc ≠ .insert c x k f) :
    DropTurn c h maxDrops sh pc e sh' pc' := by
  have hother : ∀ {i : Handle} {hs : List Handle}, Snapshot sh.clients (i :: hs) → i ≠ h →
      (sh.clients.states i).id ≠ c := by
    intro i hs hsnap hne hid
    exact hne (ho.unique i (hsnap.allocated i List.mem_cons_self) hid)
  cases hx with
  | insert id' x k f =>
    have hid : c ≠ id' := by
      rintro rfl
      exact hins x k f rfl
    refine .quiet rfl ?_ (Finmap.lookup_insert_of_ne _ hid) ⟨id, id, id, id⟩
    simp [Shared.set, InMemoryWsClients.insertConnection, Nat.ne_of_lt ho.allocated]
  | removeEntry id' =>
    have hid : c ≠ id' := by
      rintro rfl
      exact hrem rfl
    exact .quiet rfl rfl (Finmap.lookup_erase_ne hid) ⟨id, id, id, id⟩
  | record => exact .quiet rfl (setRttSamples_drops _ _ _) rfl ⟨id, id, id, id⟩
  | next =>
    exact .quiet rfl rfl rfl ⟨id, evicting_firstAccess _ _ _, id,
      (follows_firstAccess _ _ _).not_cancelling⟩
  | drop =>
    rw [hp]
    exact .quiet rfl rfl rfl ⟨id, id, id, id⟩
  | accept | resume =>
    exact .quiet rfl rfl rfl ⟨id, evicting_accepted _ _, id,
      (follows_accepted _ _).not_cancelling⟩
  | refuse | disconnect =>
    exact .quiet rfl rfl rfl ⟨id, evicting_refused _ _, id,
      (follows_refused _ _).not_cancelling⟩
  | @countBelow i d _ bound hp' hlow =>
    obtain ⟨-, rfl⟩ : timeout = _ ∧ maxDrops = bound := by simpa [hp] using hp'
    by_cases hi : i = h
    · subst hi
      exact .below hlow (setDrops_drops _ _ _) rfl
    · exact .quiet (by simp [Event.mark, hi]) (setDrops_drops_ne _ (Ne.symm hi) _) rfl
        ⟨id, id, id, id⟩
  | @countReached i d _ bound hp' hhigh =>
    obtain ⟨-, rfl⟩ : timeout = _ ∧ maxDrops = bound := by simpa [hp] using hp'
    by_cases hi : i = h
    · subst hi
      exact .reached hhigh (setDrops_drops _ _ _) rfl
    · exact .quiet (by simp [Event.mark, hi]) (setDrops_drops_ne _ (Ne.symm hi) _) rfl
        ⟨id, hi, id, id⟩
  | @reset i d =>
    by_cases hi : i = h
    · subst hi
      exact .reset (setDrops_drops _ _ _) rfl
    · exact .quiet (by simp [Event.mark, hi]) (setDrops_drops_ne _ (Ne.symm hi) _) rfl
        ⟨id, id, id, id⟩
  | @evictFound i victim d hl =>
    by_cases hi : i = h
    · subst hi
      obtain rfl := ho.named
      exact .unregisters rfl hl (Finmap.lookup_erase _ _)
    · have hid := hother hc hi
      exact .quiet rfl rfl (Finmap.lookup_erase_ne hid.symm) ⟨hi, id, id, hid⟩
  | @evictMissing i d hl =>
    by_cases hi : i = h
    · subst hi
      obtain rfl := ho.named
      exact .misses hl
    · exact .quiet rfl rfl rfl ⟨hi, id, id, id⟩
  | @evictCancel victim id' d =>
    by_cases hid : id' = c
    · subst hid
      exact .cancels
    · exact .quiet rfl rfl rfl ⟨id, id, hid, id⟩
  | cleanNothing | cleanDone =>
    exact .quiet rfl rfl rfl ⟨id, evicting_cont _, id, (follows_cont _).not_cancelling⟩
  | _ => exact .quiet rfl rfl rfl ⟨id, id, id, id⟩

/-- The account of the registration `h` of `c` after the counter steps `marks` and `n`
cancellations by the policy. -/
structure DropAccount (s : Calls Task) (c : ConnId) (h : Handle) (maxDrops : UInt32) (n : Nat)
    (marks : List Bool) : Prop where
  drops : (s.shared.clients.states h).drops.toNat = trailing marks
  streak : Reached (max 1 maxDrops.toNat) marks ↔
    s.shared.clients.connections.lookup c = none ∨ ∃ t, (s.pc t).Evicting h
  gone : s.shared.clients.connections.lookup c = none ↔ n = 1 ∨ ∃ t, (s.pc t).Cancelling c
  victim : ∀ t victim d, s.pc t = .evictCancel victim c d → victim = h
  token : n = 1 → s.shared.cancelled (s.shared.clients.states h).cancel = true

theorem Persists.token (hp : Persists sh sh') (hh : h < sh.clients.allocated)
    (ht : sh.cancelled (sh.clients.states h).cancel = true) :
    sh'.cancelled (sh'.clients.states h).cancel = true := by
  have hcancel : (sh'.clients.states h).cancel = (sh.clients.states h).cancel :=
    congrArg Registration.cancel (hp.registration h hh)
  rw [hcancel]
  exact hp.cancelled _ ht

/-- A call moves, aside from the evictions of `c`. -/
def Moves (c : ConnId) (h : Handle) (s s' : Calls Task) : Prop :=
  ∀ u, s'.pc u = s.pc u ∨ Aside c h (s.pc u) (s'.pc u)

theorem moves_goto (ha : Aside c h (s.pc t) pc) : Moves c h s (s.goto t sh pc) := by
  intro u
  by_cases hut : u = t
  · subst hut
    exact Or.inr (by rwa [goto_pc])
  · exact Or.inl (goto_pc_ne s hut _ _)

omit [DecidableEq Task] in
theorem Moves.evicting (hm : Moves c h s s') :
    (∃ u, (s'.pc u).Evicting h) ↔ ∃ u, (s.pc u).Evicting h := by
  refine exists_congr fun u => ?_
  rcases hm u with heq | ha
  · rw [heq]
  · exact iff_of_false ha.evicting' ha.evicting

omit [DecidableEq Task] in
theorem Moves.cancelling (hm : Moves c h s s') :
    (∃ u, (s'.pc u).Cancelling c) ↔ ∃ u, (s.pc u).Cancelling c := by
  refine exists_congr fun u => ?_
  rcases hm u with heq | ha
  · rw [heq]
  · exact iff_of_false ha.cancelling' ha.cancelling

omit [DecidableEq Task] in
theorem Moves.victim (hm : Moves c h s s')
    (hv : ∀ t victim d, s.pc t = .evictCancel victim c d → victim = h) :
    ∀ t victim d, s'.pc t = .evictCancel victim c d → victim = h := by
  intro u victim d hpc
  rcases hm u with heq | ha
  · exact hv u victim d (heq ▸ hpc)
  · exact (ha.cancelling' (by simp [hpc, Pc.Cancelling])).elim

omit [DecidableEq Task] in
/-- A step that is none of the counter and none of an eviction. -/
theorem account_quiet (hs : DropAccount s c h maxDrops n marks)
    (hp : Persists s.shared s'.shared) (hh : h < s.shared.clients.allocated)
    (hdrops : (s'.shared.clients.states h).drops = (s.shared.clients.states h).drops)
    (hl : s'.shared.clients.connections.lookup c = s.shared.clients.connections.lookup c)
    (hm : Moves c h s s') : DropAccount s' c h maxDrops n marks where
  drops := by rw [hdrops, hs.drops]
  streak := by rw [hs.streak, hl, hm.evicting]
  gone := by rw [hl, hs.gone, hm.cancelling]
  victim := hm.victim hs.victim
  token hn := hp.token hh (hs.token hn)

/-- The victim of each eviction under way is the registration, if it is so after the step. -/
theorem victim_goto (hv : ∀ t victim d, s.pc t = .evictCancel victim c d → victim = h)
    (hpc : ∀ victim d, pc = .evictCancel victim c d → victim = h) :
    ∀ u victim d, (s.goto t sh pc).pc u = .evictCancel victim c d → victim = h :=
  forall_goto (P := fun _ pc => ∀ victim d, pc = .evictCancel victim c d → victim = h) sh hpc
    fun u _ => hv u

omit [DecidableEq Task] in
/-- A delivery evicts only after a run of drops. -/
theorem DropAccount.reached {d : Delivery} (hs : DropAccount s c h maxDrops n marks)
    (hpc : s.pc t = .evictRemove h d) : Reached (max 1 maxDrops.toNat) marks := by
  refine hs.streak.mpr (Or.inr ⟨t, ?_⟩)
  rw [hpc]
  rfl

/-- A counter step: `b` is the mark it leaves. -/
theorem account_marks {b : Bool} (hs : DropAccount s c h maxDrops n marks)
    (hp : Persists s.shared sh) (hh : h < s.shared.clients.allocated)
    (hdrops : (sh.clients.states h).drops.toNat = trailing (marks ++ [b]))
    (hl : sh.clients.connections.lookup c = s.shared.clients.connections.lookup c)
    (ht : ¬ (s.pc t).Evicting h) (ht' : ¬ (s.pc t).Cancelling c) (hpc' : ¬ pc.Cancelling c)
    (hstreak : Reached (max 1 maxDrops.toNat) (marks ++ [b]) ↔
      Reached (max 1 maxDrops.toNat) marks ∨ pc.Evicting h) :
    DropAccount (s.goto t sh pc) c h maxDrops n (marks ++ [b]) where
  drops := hdrops
  streak := by
    rw [hstreak, hs.streak, goto_shared, hl, or_assoc]
    refine or_congr_right ?_
    constructor
    · rintro (hold | hnew)
      · exact exists_goto (Q := Pc.Evicting h) hold ht
      · exact ⟨t, by rwa [goto_pc]⟩
    · intro hev
      by_cases hnew : pc.Evicting h
      · exact Or.inr hnew
      · exact Or.inl (exists_of_goto (Q := Pc.Evicting h) hev hnew)
  gone := by
    rw [goto_shared, hl, hs.gone, exists_goto_iff (Q := Pc.Cancelling c) ht' hpc']
  victim := by
    refine victim_goto hs.victim ?_
    rintro victim d rfl
    exact (hpc' rfl).elim
  token hn := hp.token hh (hs.token hn)

/-- Below `2 ^ 32` drops the counter does not wrap. -/
theorem drops_succ {x : UInt32} (hx : x.toNat = trailing marks)
    (hfew : (marks ++ [true]).count true < 2 ^ 32) :
    (x + 1).toNat = trailing marks + 1 := by
  have hle : trailing marks ≤ marks.count true := trailing_le_count
  have hcount : (marks ++ [true]).count true = marks.count true + 1 := by simp
  rw [UInt32.toNat_add, hx]
  exact Nat.mod_eq_of_lt (by simp only [UInt32.toNat_one]; omega)

/-- A drop below the bound. -/
theorem account_below {d : Delivery} (hs : DropAccount s c h maxDrops n marks)
    (hp : Persists s.shared sh) (hh : h < s.shared.clients.allocated)
    (hpc : s.pc t = .count h d)
    (hdrops : (sh.clients.states h).drops = (s.shared.clients.states h).drops + 1)
    (hl : sh.clients.connections.lookup c = s.shared.clients.connections.lookup c)
    (hlow : (s.shared.clients.states h).drops + 1 < maxDrops)
    (hfew : (marks ++ [true]).count true < 2 ^ 32) :
    DropAccount (s.goto t sh (.deliver d)) c h maxDrops n (marks ++ [true]) := by
  have hsucc := drops_succ hs.drops hfew
  refine account_marks hs hp hh (by rw [hdrops, hsucc, trailing_true]) hl (by rw [hpc]; exact id)
    (by rw [hpc]; exact id) id ?_
  rw [UInt32.lt_iff_toNat_lt, hsucc] at hlow
  have hno : ¬ max 1 maxDrops.toNat ≤ trailing marks + 1 := by omega
  simp [reached_true, hno, Pc.Evicting]

/-- A drop that reaches the bound. -/
theorem account_reached {d : Delivery} (hs : DropAccount s c h maxDrops n marks)
    (hp : Persists s.shared sh) (hh : h < s.shared.clients.allocated)
    (hpc : s.pc t = .count h d)
    (hdrops : (sh.clients.states h).drops = (s.shared.clients.states h).drops + 1)
    (hl : sh.clients.connections.lookup c = s.shared.clients.connections.lookup c)
    (hhigh : maxDrops ≤ (s.shared.clients.states h).drops + 1)
    (hfew : (marks ++ [true]).count true < 2 ^ 32) :
    DropAccount (s.goto t sh (.evictRemove h d)) c h maxDrops n (marks ++ [true]) := by
  have hsucc := drops_succ hs.drops hfew
  refine account_marks hs hp hh (by rw [hdrops, hsucc, trailing_true]) hl (by rw [hpc]; exact id)
    (by rw [hpc]; exact id) id ?_
  rw [UInt32.le_iff_toNat_le, hsucc] at hhigh
  have hyes : max 1 maxDrops.toNat ≤ trailing marks + 1 := by omega
  simp [reached_true, hyes, Pc.Evicting]

/-- A delivery that succeeds. -/
theorem account_reset {d : Delivery} (hs : DropAccount s c h maxDrops n marks)
    (hp : Persists s.shared sh) (hh : h < s.shared.clients.allocated)
    (hpc : s.pc t = .reset h d) (hdrops : (sh.clients.states h).drops = 0)
    (hl : sh.clients.connections.lookup c = s.shared.clients.connections.lookup c) :
    DropAccount (s.goto t sh (.deliver d)) c h maxDrops n (marks ++ [false]) := by
  refine account_marks hs hp hh (by simp [hdrops]) hl (by rw [hpc]; exact id)
    (by rw [hpc]; exact id) id ?_
  have hpos : 0 < max 1 maxDrops.toNat := by omega
  simp [reached_false hpos, Pc.Evicting]

/-- The eviction that finds the registration. -/
theorem account_unregisters {victim : Handle} {d : Delivery}
    (hs : DropAccount s c h maxDrops n marks) (hp : Persists s.shared sh)
    (ho : Only s.shared.clients c h) (hpc : s.pc t = .evictRemove h d)
    (hdrops : (sh.clients.states h).drops = (s.shared.clients.states h).drops)
    (hfound : s.shared.clients.connections.lookup c = some victim)
    (hnone : sh.clients.connections.lookup c = none) :
    DropAccount (s.goto t sh (.evictCancel victim c d)) c h maxDrops n marks where
  drops := by rw [goto_shared, hdrops, hs.drops]
  streak := iff_of_true (hs.reached hpc) (Or.inl hnone)
  gone := by
    refine iff_of_true hnone (Or.inr ⟨t, ?_⟩)
    rw [goto_pc]
    rfl
  victim := by
    refine victim_goto hs.victim ?_
    rintro v d' ⟨⟩
    exact ho.unique victim (s.shared.clients.key_allocated c victim hfound)
      (s.shared.clients.key_id c victim hfound)
  token hn := hp.token ho.allocated (hs.token hn)

/-- The eviction that comes after another one. -/
theorem account_misses {d : Delivery} (hs : DropAccount s c h maxDrops n marks)
    (hpc : s.pc t = .evictRemove h d) (hnone : s.shared.clients.connections.lookup c = none) :
    DropAccount (s.goto t s.shared (.cleanTake c (.resume d))) c h maxDrops n marks where
  drops := hs.drops
  streak := iff_of_true (hs.reached hpc) (Or.inl hnone)
  gone := by
    have hcan : (∃ u, ((s.goto t s.shared (.cleanTake c (.resume d))).pc u).Cancelling c) ↔
        ∃ u, (s.pc u).Cancelling c :=
      exists_goto_iff (Q := Pc.Cancelling c) (by rw [hpc]; exact id) id
    rw [hcan]
    exact hs.gone
  victim := by
    refine victim_goto hs.victim ?_
    rintro v d' ⟨⟩
  token := hs.token

/-- The step lemma for the accesses that do not cancel. -/
theorem account_exec (hs : DropAccount s c h maxDrops n marks) (ho : Only s.shared.clients c h)
    (hx : Exec s.shared (s.pc t) e sh pc)
    (hturn : DropTurn c h maxDrops s.shared (s.pc t) e sh pc) (ht : ¬ (s.pc t).Cancelling c)
    (hfew : (marks ++ (e.mark h).toList).count true < 2 ^ 32) :
    DropAccount (s.goto t sh pc) c h maxDrops n (marks ++ (e.mark h).toList) := by
  have hp := exec_persists hx
  generalize hpc : s.pc t = pc₀ at hturn
  cases hturn with
  | quiet he hdrops hl ha =>
    rw [he, Option.toList_none, List.append_nil]
    exact account_quiet hs hp ho.allocated hdrops hl (moves_goto (hpc ▸ ha))
  | below hlow hdrops hl =>
    have he : (Event.count h).mark h = some true := by simp [Event.mark]
    rw [he] at hfew ⊢
    exact account_below hs hp ho.allocated hpc hdrops hl hlow hfew
  | reached hhigh hdrops hl =>
    have he : (Event.count h).mark h = some true := by simp [Event.mark]
    rw [he] at hfew ⊢
    exact account_reached hs hp ho.allocated hpc hdrops hl hhigh hfew
  | reset hdrops hl =>
    have he : (Event.reset h).mark h = some false := by simp [Event.mark]
    rw [he]
    exact account_reset hs hp ho.allocated hpc hdrops hl
  | unregisters hdrops hfound hnone =>
    have he : (Event.evict c).mark h = none := rfl
    rw [he, Option.toList_none, List.append_nil]
    exact account_unregisters hs hp ho hpc hdrops hfound hnone
  | misses hnone =>
    have he : Event.access.mark h = none := rfl
    rw [he, Option.toList_none, List.append_nil]
    exact account_misses hs hpc hnone
  | cancels => exact (ht (by rw [hpc]; rfl)).elim

/-- The step lemma for the access that cancels. -/
theorem account_cancels (hs : DropAccount s c h maxDrops n marks) (hc : s.Cancelled c n)
    (hx : Exec s.shared (s.pc t) e sh pc) (ht : (s.pc t).Cancelling c) :
    DropAccount (s.goto t sh pc) c h maxDrops (n + 1) (marks ++ (e.mark h).toList) := by
  obtain rfl := hc.pending t ht
  have hgone := hs.gone.mpr (Or.inr ⟨t, ht⟩)
  obtain ⟨victim, d, hpc⟩ := ht.eq
  obtain rfl := hs.victim t victim d hpc
  have hmark : e.mark victim = none := by
    rw [hpc] at hx
    cases hx
    rfl
  rw [hmark, Option.toList_none, List.append_nil]
  rw [hpc] at hx
  cases hx
  refine ⟨hs.drops, ?_, iff_of_true hgone (Or.inl rfl), victim_goto hs.victim ?_, fun _ => ?_⟩
  · exact iff_of_true (hs.streak.mpr (Or.inl hgone)) (Or.inl hgone)
  · rintro v d' ⟨⟩
  · simp [Shared.cancel]

/-- A registration of a step is an old one, or the step has inserted it. -/
theorem step_registered (hstep : CallStep s l s') (hh : h < s'.shared.clients.allocated) :
    h < s.shared.clients.allocated ∨ (h = s.shared.clients.allocated ∧
      ∃ t id x k f, l = .exec t .access ∧ s.pc t = .insert id x k f ∧
        s'.shared.clients = s.shared.clients.insertConnection id x k f) := by
  cases hstep with
  | @exec t e sh pc _ hx =>
    generalize hpc : s.pc t = pc₀ at hx
    cases hx with
    | insert id x k f =>
      rcases Nat.lt_succ_iff_lt_or_eq.mp hh with hlt | heq
      · exact Or.inl hlt
      · exact Or.inr ⟨heq, t, id, x, k, f, rfl, hpc, rfl⟩
    | _ => exact Or.inl hh
  | call | abort | recv | close | cancel => exact Or.inl hh

/-- Only a delivery to an existing registration takes a counter step. -/
theorem mark_allocated (hstep : CallStep s l s') (hc : s.AllCollected) {b : Bool}
    (hl : l.mark h = some b) : h < s.shared.clients.allocated := by
  cases hstep with
  | @exec t e sh pc _ hx =>
    have hcol := hc t
    generalize s.pc t = pc₀ at hx hcol
    cases hx with
    | @countBelow i d | @countReached i d | @reset i d =>
      by_cases hi : i = h
      · subst hi
        exact hcol.allocated i List.mem_cons_self
      · simp [CallLabel.mark, Event.mark, hi] at hl
    | _ => simp [CallLabel.mark, Event.mark] at hl
  | call | abort | recv | close | cancel => simp [CallLabel.mark] at hl

theorem start_evicting (op : Op) : ¬ op.start.Evicting h := by
  unfold Op.start
  split <;> exact id

omit [DecidableEq Task] in
theorem evicting_allocated (hc : s.AllCollected) (hu : (s.pc u).Evicting h) :
    h < s.shared.clients.allocated := by
  have hcol := hc u
  generalize s.pc u = pc at hu hcol
  cases pc with
  | evictRemove k d =>
    obtain rfl := hu
    exact hcol.allocated k List.mem_cons_self
  | _ => exact hu.elim

/-- No delivery evicts a registration that the step has made. -/
theorem step_evicting (hstep : CallStep s l s') (hc : s.AllCollected)
    (hu : (s'.pc u).Evicting h) : h < s.shared.clients.allocated := by
  have hh := evicting_allocated (allCollected_step hstep hc) hu
  rcases step_registered hstep hh with hold | ⟨-, t, id, x, k, f, rfl, hpc, -⟩
  · exact hold
  · cases hstep with
    | exec _ hx =>
      rw [hpc] at hx
      cases hx
      by_cases hut : u = t
      · subst hut
        rw [goto_pc] at hu
        exact hu.elim
      · rw [goto_pc_ne s hut] at hu
        exact evicting_allocated hc hu

/-- What a run keeps about `c`, whether it was added yet or not. -/
structure Calls.Counted (s : Calls Task) (c : ConnId) (timeout : Nat) (maxDrops : UInt32)
    (n : Nat) (xs : List (CallLabel Task)) : Prop where
  policy : s.shared.clients.policy = .dropConnection timeout maxDrops
  collected : s.AllCollected
  cancelled : s.Cancelled c n
  unique : ∀ i < s.shared.clients.allocated, ∀ j < s.shared.clients.allocated,
    (s.shared.clients.states i).id = c → (s.shared.clients.states j).id = c → i = j
  known : (n ≠ 0 ∨ ∃ t, (s.pc t).Cancelling c) →
    ∃ i < s.shared.clients.allocated, (s.shared.clients.states i).id = c
  fresh : ∀ h, s.shared.clients.allocated ≤ h → counterSteps h xs = []
  account : ∀ h < s.shared.clients.allocated, (s.shared.clients.states h).id = c →
    (counterSteps h xs).count true < 2 ^ 32 →
      DropAccount s c h maxDrops n (counterSteps h xs)

omit [DecidableEq Task] in
theorem Calls.Counted.only (hs : s.Counted c timeout maxDrops n xs)
    (hh : h < s.shared.clients.allocated) (hid : (s.shared.clients.states h).id = c) :
    Only s.shared.clients c h :=
  ⟨hh, hid, fun i hi hic => hs.unique i hi h hh hic hid⟩

theorem counted_unique (hs : s.Counted c timeout maxDrops n xs) (hstep : CallStep s l s')
    (hadd : AddedOnce c s l s') (i : Handle) (hi : i < s'.shared.clients.allocated)
    (j : Handle) (hj : j < s'.shared.clients.allocated)
    (hic : (s'.shared.clients.states i).id = c) (hjc : (s'.shared.clients.states j).id = c) :
    i = j := by
  have hp := step_persists hstep
  have hold : ∀ {a b}, a < s.shared.clients.allocated → (s'.shared.clients.states a).id = c →
      b = s.shared.clients.allocated → (s'.shared.clients.states b).id = c →
      b < s'.shared.clients.allocated → False := by
    rintro a b ha hac rfl hbc hb
    rcases step_registered hstep hb with hlt | ⟨-, t, id, x, k, f, rfl, hpc, hcl⟩
    · exact Nat.lt_irrefl _ hlt
    · have hid : id = c := by simpa [hcl, InMemoryWsClients.insertConnection] using hbc
      subst hid
      exact (hadd t _ rfl).2 x k f hpc a ha ((hp.id a ha).symm.trans hac)
  rcases step_registered hstep hi with hi' | ⟨hi', -⟩ <;>
    rcases step_registered hstep hj with hj' | ⟨hj', -⟩
  · exact hs.unique i hi' j hj' ((hp.id i hi').symm.trans hic) ((hp.id j hj').symm.trans hjc)
  · exact (hold hi' hic hj' hjc hj).elim
  · exact (hold hj' hjc hi' hic hi).elim
  · exact hi'.trans hj'.symm

theorem step_cancelling (hstep : CallStep s l s') (hc : ∃ u, (s'.pc u).Cancelling c) :
    (∃ u, (s.pc u).Cancelling c) ∨ s.shared.clients.connections.lookup c ≠ none := by
  obtain ⟨u, hu⟩ := hc
  cases hstep with
  | call op _ => exact Or.inl ⟨u, (cancelling_goto (start_cancelling op) hu).2⟩
  | @exec t e sh pc _ hx =>
    by_cases hnew : pc.Cancelling c
    · exact Or.inr (exec_cancelling hx hnew).1
    · exact Or.inl ⟨u, (cancelling_goto hnew hu).2⟩
  | abort _ => exact Or.inl ⟨u, (cancelling_goto id hu).2⟩
  | recv | close | cancel => exact Or.inl ⟨u, hu⟩

theorem counted_known (hs : s.Counted c timeout maxDrops n xs) (hstep : CallStep s l s')
    (hm : m ≠ n → ∃ u, (s.pc u).Cancelling c)
    (h : m ≠ 0 ∨ ∃ t, (s'.pc t).Cancelling c) :
    ∃ i < s'.shared.clients.allocated, (s'.shared.clients.states i).id = c := by
  have hp := step_persists hstep
  have hold : ∃ i < s.shared.clients.allocated, (s.shared.clients.states i).id = c := by
    rcases h with hm0 | hc
    · by_cases hmn : m = n
      · exact hs.known (Or.inl (hmn ▸ hm0))
      · exact hs.known (Or.inr (hm hmn))
    · rcases step_cancelling hstep hc with hc | hl
      · exact hs.known (Or.inr hc)
      · obtain ⟨i, hi⟩ := Option.ne_none_iff_exists'.mp hl
        exact ⟨i, s.shared.clients.key_allocated c i hi, s.shared.clients.key_id c i hi⟩
  obtain ⟨i, hi, hid⟩ := hold
  exact ⟨i, Nat.lt_of_lt_of_le hi hp.allocated, (hp.id i hi).trans hid⟩

/-- The account of a registration that was there before the step. -/
theorem counted_account (hs : s.Counted c timeout maxDrops n xs) (hstep : CallStep s l s')
    (hadd : AddedOnce c s l s') (hcounts : PolicyCancels c s l s' → m = n + 1)
    (hskips : ¬ PolicyCancels c s l s' → m = n) (ho : Only s.shared.clients c h)
    (hfew : (counterSteps h (xs ++ [l])).count true < 2 ^ 32) :
    DropAccount s' c h maxDrops m (counterSteps h (xs ++ [l])) := by
  rw [counterSteps_snoc] at hfew ⊢
  have ha : DropAccount s c h maxDrops n (counterSteps h xs) := by
    refine hs.account h ho.allocated ho.named ?_
    rw [List.count_append] at hfew
    omega
  have hp := step_persists hstep
  have hquiet : l.mark h = none → ¬ PolicyCancels c s l s' → s'.shared.clients = s.shared.clients →
      Moves c h s s' → DropAccount s' c h maxDrops m (counterSteps h xs ++ (l.mark h).toList) := by
    intro hl hno hcl hmoves
    rw [hskips hno, hl, Option.toList_none, List.append_nil]
    exact account_quiet ha hp ho.allocated (by rw [hcl]) (by rw [hcl]) hmoves
  cases hstep with
  | call op hidle =>
    refine hquiet rfl (by rintro ⟨_, _, ⟨⟩, _⟩) rfl (moves_goto ?_)
    rw [hidle]
    exact ⟨id, start_evicting op, id, start_cancelling op⟩
  | abort hpc =>
    refine hquiet rfl (by rintro ⟨_, _, ⟨⟩, _⟩) rfl (moves_goto ?_)
    rw [hpc]
    exact ⟨id, id, id, id⟩
  | recv | close | cancel =>
    exact hquiet rfl (by rintro ⟨_, _, ⟨⟩, _⟩) rfl fun _ => Or.inl rfl
  | @exec t e sh pc _ hx =>
    by_cases ht : (s.pc t).Cancelling c
    · rw [hcounts ⟨t, e, rfl, ht⟩]
      exact account_cancels ha hs.cancelled hx ht
    · have hno : ¬ PolicyCancels c s (.exec t e) (s.goto t sh pc) := by
        rintro ⟨u, _, heq, hu⟩
        cases heq
        exact ht hu
      rw [hskips hno]
      have hturn := exec_dropTurn hx ho hs.policy (hs.collected t) (hadd t e rfl).1
        fun x k f hpc => (hadd t e rfl).2 x k f hpc h ho.allocated ho.named
      exact account_exec ha ho hx hturn ht hfew

/-- The account of a registration that the step makes. -/
theorem counted_insert (hs : s.Counted c timeout maxDrops n xs) (hstep : CallStep s l s')
    (hadd : AddedOnce c s l s') (hskips : ¬ PolicyCancels c s l s' → m = n)
    (hh : h < s'.shared.clients.allocated) (hnew : ¬ h < s.shared.clients.allocated)
    (hid : (s'.shared.clients.states h).id = c) :
    DropAccount s' c h maxDrops m (counterSteps h (xs ++ [l])) := by
  obtain ⟨rfl, t, id, x, k, f, rfl, hpc, hcl⟩ := (step_registered hstep hh).resolve_left hnew
  obtain rfl : id = c := by simpa [hcl, InMemoryWsClients.insertConnection] using hid
  have hsteps : counterSteps s.shared.clients.allocated (xs ++ [.exec t .access]) = [] := by
    rw [counterSteps_snoc, hs.fresh _ (Nat.le_refl _)]
    rfl
  have hnone : ¬ (n ≠ 0 ∨ ∃ u, (s.pc u).Cancelling id) := by
    intro h
    obtain ⟨i, hi, hic⟩ := hs.known h
    exact (hadd t _ rfl).2 x k f hpc i hi hic
  push Not at hnone
  have hno : ¬ PolicyCancels id s (.exec t .access) s' := by
    rintro ⟨u, _, -, hu⟩
    exact hnone.2 u hu
  obtain rfl : m = 0 := (hskips hno).trans hnone.1
  have hcan : ¬ ∃ u, (s'.pc u).Cancelling id := by
    rintro hc
    rcases step_cancelling hstep hc with ⟨u, hu⟩ | hl
    · exact hnone.2 u hu
    · obtain ⟨i, hi⟩ := Option.ne_none_iff_exists'.mp hl
      exact (hadd t _ rfl).2 x k f hpc i (s.shared.clients.key_allocated id i hi)
        (s.shared.clients.key_id id i hi)
  have hev : ¬ ∃ u, (s'.pc u).Evicting s.shared.clients.allocated := by
    rintro ⟨u, hu⟩
    exact Nat.lt_irrefl _ (step_evicting hstep hs.collected hu)
  have hlookup : s'.shared.clients.connections.lookup id ≠ none := by
    simp [hcl, InMemoryWsClients.insertConnection]
  rw [hsteps]
  refine ⟨?_, iff_of_false ?_ ?_, iff_of_false hlookup ?_, fun u v d hu => ?_,
    fun h => (Nat.zero_ne_one h).elim⟩
  · simp [hcl, InMemoryWsClients.insertConnection]
  · exact not_reached_nil (by omega)
  · exact fun h => h.elim hlookup hev
  · exact fun h => h.elim Nat.zero_ne_one hcan
  · exact (hcan ⟨u, by simp [hu, Pc.Cancelling]⟩).elim

omit [DecidableEq Task] in
theorem counted_fresh (h0 : s.Fresh)
    (hp : s.shared.clients.policy = .dropConnection timeout maxDrops) :
    s.Counted c timeout maxDrops 0 [] where
  policy := hp
  collected t := by
    rw [h0.2 t]
    trivial
  cancelled := cancelled_none fun t => by rw [h0.2 t]; exact id
  unique i hi := by
    obtain ⟨⟨policy, shard, hnew⟩, -⟩ := h0
    rw [hnew] at hi
    exact (Nat.not_lt_zero i hi).elim
  known h := by
    rcases h with h | ⟨t, ht⟩
    · exact (h rfl).elim
    · rw [h0.2 t] at ht
      exact ht.elim
  fresh _ _ := rfl
  account i hi := by
    obtain ⟨⟨policy, shard, hnew⟩, -⟩ := h0
    rw [hnew] at hi
    exact (Nat.not_lt_zero i hi).elim

/-- The step lemma. -/
theorem counted_step (hs : s.Counted c timeout maxDrops n xs) (hstep : CallStep s l s')
    (hadd : AddedOnce c s l s') (hcounts : PolicyCancels c s l s' → m = n + 1)
    (hskips : ¬ PolicyCancels c s l s' → m = n) (hcan : s'.Cancelled c m) :
    s'.Counted c timeout maxDrops m (xs ++ [l]) where
  policy := (step_persists hstep).policy.trans hs.policy
  collected := allCollected_step hstep hs.collected
  cancelled := hcan
  unique := counted_unique hs hstep hadd
  known := by
    refine counted_known hs hstep fun hmn => ?_
    by_contra hno
    refine hmn (hskips ?_)
    rintro ⟨t, e, -, ht⟩
    exact hno ⟨t, ht⟩
  fresh h hh := by
    have hold : s.shared.clients.allocated ≤ h := (step_persists hstep).allocated.trans hh
    rw [counterSteps_snoc, hs.fresh h hold]
    cases hl : l.mark h with
    | none => rfl
    | some b => exact (Nat.not_lt.mpr hold (mark_allocated hstep hs.collected hl)).elim
  account h hh hid hfew := by
    by_cases hold : h < s.shared.clients.allocated
    · have hid' := ((step_persists hstep).id h hold).symm.trans hid
      exact counted_account hs hstep hadd hcounts hskips (hs.only hold hid') hfew
    · exact counted_insert hs hstep hadd hskips hh hold hid

/-- The run lemma. -/
theorem counted_run (h0 : s.Fresh)
    (hp : s.shared.clients.policy = .dropConnection timeout maxDrops)
    (hrun : ((callSystem Task).restrict (AddedOnce c)).Tally (PolicyCancels c) s xs s' n) :
    s'.Counted c timeout maxDrops n xs := by
  refine hrun.history (H := fun n ys u => u.Counted c timeout maxDrops n ys)
    (counted_fresh h0 hp) ?_ ?_
  · rintro m ys u l v ⟨hstep, hadd⟩ hcan hu
    exact counted_step hu hstep hadd (fun _ => rfl) (fun hno => (hno hcan).elim)
      (cancelled_counts hu.cancelled hstep hcan)
  · rintro m ys u l v ⟨hstep, hadd⟩ hno hu
    refine counted_step hu hstep hadd (fun hcan => (hno hcan).elim) (fun _ => rfl)
      (cancelled_skips hu.cancelled hstep hno ?_)
    intro t e x k f hl hpc
    -- A pending cancellation would mean that `c` was registered before.
    by_contra hpend
    rw [not_and_or, not_forall] at hpend
    simp only [not_not] at hpend
    obtain ⟨i, hi, hid⟩ := hu.known hpend
    exact (hadd t e hl).2 x k f hpc i hi hid

/-- Each outcome of a delivery takes the task to the counter step of that outcome. -/
theorem exec_outcome (hx : Exec sh pc e sh' pc')
    (hp : sh.clients.policy = .dropConnection timeout maxDrops) (h : Handle) :
    pc.uncounted h ++ (e.outcome h).toList = (e.mark h).toList ++ pc'.uncounted h := by
  cases hx with
  | @accept r | @resume r =>
    cases r with
    | direct => rfl
    | recipient k d =>
      rw [hp]
      by_cases hk : k = h <;> simp [Pc.uncounted, Event.outcome, Event.mark, Receiver.accepted, hk]
  | @drop k d =>
    rw [hp]
    by_cases hk : k = h <;>
      simp [Pc.uncounted, Event.outcome, Event.mark, BroadcastPolicy.afterDrop, hk]
  | @countBelow k | @countReached k | @reset k =>
    by_cases hk : k = h <;> simp [Pc.uncounted, Event.outcome, Event.mark, hk]
  | @refuse r | @disconnect r =>
    rw [hp]
    cases r <;> rfl
  | next =>
    rw [hp]
    rfl
  | @cleanNothing _ k | @cleanDone _ k => cases k <;> rfl
  | _ => rfl

/-- The outcomes of the deliveries of each task have all been counted, but for the last where its
counter step comes next. -/
def Calls.Balanced (s : Calls Task) (h : Handle) (xs : List (CallLabel Task)) : Prop :=
  ∀ t, (eventsOf t xs).filterMap (·.outcome h) =
    (eventsOf t xs).filterMap (·.mark h) ++ (s.pc t).uncounted h

/-- A step that shows nothing of `t`. -/
theorem balanced_silent (hs : (eventsOf t xs).filterMap (·.outcome h) =
      (eventsOf t xs).filterMap (·.mark h) ++ pc.uncounted h)
    (hl : l.eventOf t = none) (hpc : pc'.uncounted h = pc.uncounted h) :
    (eventsOf t (xs ++ [l])).filterMap (·.outcome h) =
      (eventsOf t (xs ++ [l])).filterMap (·.mark h) ++ pc'.uncounted h := by
  have hsame : eventsOf t (xs ++ [l]) = eventsOf t xs := by simp [eventsOf, hl]
  rw [hsame, hpc, hs]

theorem balanced_step (hs : s.Balanced h xs) (hstep : CallStep s l s')
    (hp : s.shared.clients.policy = .dropConnection timeout maxDrops) :
    s'.Balanced h (xs ++ [l]) := by
  intro t
  cases step_turn hstep t with
  | other hl hpc =>
    refine balanced_silent (hs t) ?_ (by rw [hpc])
    cases l with
    | exec u e =>
      have hut : u ≠ t := by
        rintro rfl
        exact hl e rfl
      simp [CallLabel.eventOf, hut]
    | _ => rfl
  | @call op hidle =>
    refine balanced_silent (hs t) rfl ?_
    rw [goto_pc, hidle]
    unfold Op.start
    split <;> rfl
  | abort hpc =>
    refine balanced_silent (hs t) rfl ?_
    rw [goto_pc, hpc]
    rfl
  | @exec e sh pc _ hx =>
    have hnew : eventsOf t (xs ++ [.exec t e]) = eventsOf t xs ++ [e] := by
      simp [eventsOf, CallLabel.eventOf]
    have hmove := exec_outcome hx hp h
    have hone : ∀ f : Event → Option Bool, [e].filterMap f = (f e).toList := by
      intro f
      cases hf : f e <;> simp [hf]
    calc (eventsOf t (xs ++ [.exec t e])).filterMap (·.outcome h)
        = (eventsOf t xs).filterMap (·.outcome h) ++ (e.outcome h).toList := by
          rw [hnew, List.filterMap_append, hone]
      _ = (eventsOf t xs).filterMap (·.mark h) ++
            ((s.pc t).uncounted h ++ (e.outcome h).toList) := by
          rw [hs t, List.append_assoc]
      _ = (eventsOf t xs).filterMap (·.mark h) ++ ((e.mark h).toList ++ pc.uncounted h) := by
          rw [hmove]
      _ = (eventsOf t (xs ++ [.exec t e])).filterMap (·.mark h) ++
            ((s.goto t sh pc).pc t).uncounted h := by
          rw [hnew, List.filterMap_append, hone, goto_pc, List.append_assoc]

theorem balanced_run (h0 : s.Fresh)
    (hp : s.shared.clients.policy = .dropConnection timeout maxDrops)
    (hrun : (callSystem Task).Run s xs s') (h : Handle) : s'.Balanced h xs := by
  have hboth : s'.shared.clients.policy = .dropConnection timeout maxDrops ∧
      s'.Balanced h xs := by
    refine hrun.history (H := fun ys u => u.shared.clients.policy =
      .dropConnection timeout maxDrops ∧ u.Balanced h ys) ⟨hp, fun t => ?_⟩ ?_
    · rw [h0.2 t]
      rfl
    · rintro ys u l v hstep ⟨hpu, hu⟩
      exact ⟨(step_persists hstep).policy.trans hpu, balanced_step hu hstep hpu⟩
  exact hboth.2

/-- In any interleaving of the deliveries, each task takes the counter steps of its deliveries to
the connection, one for each that was dropped or enqueued and in their order. The policy cancels
the token of a connection that is added once and not removed by its serve task at most once, and
only after a run of `max(1, max_drops)` drops with no success between them, in the order of the
counter steps. With no eviction under way, the connection is unregistered and its token cancelled
if there was such a run, and registered and never cancelled by the policy if there was none. -/
theorem dropConnection_cancels_iff (h0 : s.Fresh)
    (hp : s.shared.clients.policy = .dropConnection timeout maxDrops)
    (hrun : ((callSystem Task).restrict (AddedOnce c)).Tally (PolicyCancels c) s xs s' n)
    (hh : h < s'.shared.clients.allocated) (hid : (s'.shared.clients.states h).id = c)
    (hfew : (counterSteps h xs).count true < 2 ^ 32) :
    (∀ t, (eventsOf t xs).filterMap (·.outcome h) =
      (eventsOf t xs).filterMap (·.mark h) ++ (s'.pc t).uncounted h) ∧
    n ≤ 1 ∧ (n = 1 → Reached (max 1 maxDrops.toNat) (counterSteps h xs)) ∧
    ((∀ t, ¬ (s'.pc t).Evicting h ∧ ¬ (s'.pc t).Cancelling c) →
      (Reached (max 1 maxDrops.toNat) (counterSteps h xs) →
        s'.shared.clients.connections.lookup c = none ∧ n = 1 ∧
          s'.shared.cancelled (s'.shared.clients.states h).cancel = true) ∧
      (¬ Reached (max 1 maxDrops.toNat) (counterSteps h xs) →
        s'.shared.clients.connections.lookup c = some h ∧ n = 0)) := by
  have hall := counted_run h0 hp hrun
  have ha := hall.account h hh hid hfew
  have honce := hall.cancelled.once
  refine ⟨balanced_run h0 hp hrun.run.of_restrict h, honce,
    fun hn => ha.streak.mpr (Or.inl (ha.gone.mpr (Or.inl hn))), fun hdone => ?_⟩
  have hstreak : Reached (max 1 maxDrops.toNat) (counterSteps h xs) ↔
      s'.shared.clients.connections.lookup c = none := by
    rw [ha.streak]
    exact or_iff_left fun ⟨t, ht⟩ => (hdone t).1 ht
  have hgone : s'.shared.clients.connections.lookup c = none ↔ n = 1 := by
    rw [ha.gone]
    exact or_iff_left fun ⟨t, ht⟩ => (hdone t).2 ht
  constructor
  · intro hr
    have hnone := hstreak.mp hr
    have hn := hgone.mp hnone
    exact ⟨hnone, hn, ha.token hn⟩
  · intro hr
    have hsome := mt hstreak.mpr hr
    have hn := mt hgone.mpr hsome
    obtain ⟨i, hi⟩ := Option.ne_none_iff_exists'.mp hsome
    have hih : i = h := hall.unique i (s'.shared.clients.key_allocated c i hi) h hh
      (s'.shared.clients.key_id c i hi) hid
    exact ⟨hih ▸ hi, by omega⟩

/-- Two deliveries drop, the first eviction finds the connection and the second comes late. -/
theorem streak_run : ∃ xs s', ((callSystem Bool).restrict (AddedOnce "c")).Run
    (idlePair (.dropConnection second 1)) xs s' ∧ 0 < s'.shared.clients.allocated ∧
    (s'.shared.clients.states 0).id = "c" ∧ counterSteps 0 xs = [true, true] ∧
    ∀ t, ¬ (s'.pc t).Evicting 0 ∧ ¬ (s'.pc t).Cancelling "c" := by
  refine ⟨_, _,
    .step ⟨.call (t := false) (.add "c" "tx" "token" "drop") rfl, nofun⟩ <|
    .step ⟨.exec (t := false) (granted_of_free rfl) (.insert "c" "tx" "token" "drop"), ?insert⟩ <|
    .step ⟨.close "tx", nofun⟩ <|
    .step ⟨.call (t := false) (.broadcastExcept [] (some (.text "news"))) rfl, nofun⟩ <|
    .step ⟨.exec (t := false) (granted_of_free rfl) (.iter ⟨1, fun _ => 0⟩), ?_⟩ <|
    .step ⟨.exec (t := false) (granted_of_free rfl) (.scan (by decide) (yields_only _ _)), ?_⟩ <|
    .step ⟨.exec (t := false) (granted_of_free rfl) (.scanned (by decide)), ?_⟩ <|
    .step ⟨.exec (t := false) (granted_of_free rfl) .next, ?_⟩ <|
    .step ⟨.exec (t := false) (granted_of_free rfl) (.refuse rfl), ?_⟩ <|
    .step ⟨.exec (t := false) (granted_of_free rfl) .drop, ?_⟩ <|
    .step ⟨.call (t := true) (.broadcastExcept [] (some (.text "more"))) rfl, nofun⟩ <|
    .step ⟨.exec (t := true) (granted_of_free rfl) (.iter ⟨1, fun _ => 0⟩), ?_⟩ <|
    .step ⟨.exec (t := true) (granted_of_free rfl) (.scan (by decide) (yields_only _ _)), ?_⟩ <|
    .step ⟨.exec (t := true) (granted_of_free rfl) (.scanned (by decide)), ?_⟩ <|
    .step ⟨.exec (t := true) (granted_of_free rfl) .next, ?_⟩ <|
    .step ⟨.exec (t := true) (granted_of_free rfl) (.refuse rfl), ?_⟩ <|
    .step ⟨.exec (t := true) (granted_of_free rfl) .drop, ?_⟩ <|
    .step ⟨.exec (t := true) (granted_of_free rfl) (.countReached rfl (by decide)), ?_⟩ <|
    .step ⟨.exec (t := false) (granted_of_free rfl) (.countReached rfl (by decide)), ?_⟩ <|
    .step ⟨.exec (t := true) (granted_of_free rfl) (@Exec.evictFound _ _ 0 _ (by decide)), ?_⟩ <|
    .step ⟨.exec (t := false) (granted_of_free rfl) (.evictMissing (by decide)), ?_⟩ <|
    .single ⟨.exec (t := true) (granted_of_free rfl) .evictCancel, ?_⟩,
    by decide, by decide, by decide, ?done⟩
  case insert =>
    rintro t e ⟨⟩
    exact ⟨nofun, fun _ _ _ _ i hi => (Nat.not_lt_zero i hi).elim⟩
  case done => exact fun t => by cases t <;> exact ⟨id, id⟩
  all_goals
    rintro t e ⟨⟩
    exact ⟨nofun, nofun⟩

/-- The connection is unregistered, and its token cancelled once. -/
theorem streak_cancels : ∃ n xs s', ((callSystem Bool).restrict (AddedOnce "c")).Tally
    (PolicyCancels "c") (idlePair (.dropConnection second 1)) xs s' n ∧ n = 1 ∧
      s'.shared.clients.connections.lookup "c" = none ∧
      ∀ t, (eventsOf t xs).filterMap (·.outcome 0) =
        (eventsOf t xs).filterMap (·.mark 0) ++ (s'.pc t).uncounted 0 := by
  obtain ⟨xs, s', hrun, hh, hid, hsteps, hdone⟩ := streak_run
  obtain ⟨n, htally⟩ := hrun.tally (PolicyCancels "c")
  obtain ⟨houtcomes, -, -, hall⟩ := dropConnection_cancels_iff (idlePair_fresh _) rfl htally hh hid
    (by rw [hsteps]; decide)
  have hreached : Reached (max 1 (1 : UInt32).toNat) (counterSteps 0 xs) :=
    hsteps ▸ ⟨[], [true], rfl⟩
  obtain ⟨hnone, hn, -⟩ := (hall hdone).1 hreached
  exact ⟨n, xs, s', htally, hn, hnone, houtcomes⟩

end AxumSignal

import AxumSignal.Progress

/-! Which calls can wait for each other's locks in a circle, and for how long. -/
namespace AxumSignal

open Transition Calls LTS

variable {Task : Type} [DecidableEq Task] {s s' : Calls Task} {pc : Pc} {t u : Task}
  {l : CallLabel Task} {xs : List (CallLabel Task)} {D : Set Task} {g group : GroupName}

omit [DecidableEq Task] in
variable (s) in
/-- The next access of `t` needs the exclusive lock of a shard that `u` guards. -/
def Calls.Awaits (t u : Task) : Prop :=
  ∃ group ∈ (s.pc t).exclusive, ∃ g ∈ (s.pc u).guards,
    s.shared.clients.shard g = s.shared.clients.shard group

/-- Each of the calls waits for one of them. -/
structure Calls.Deadlocked (s : Calls Task) (D : Set Task) : Prop where
  nonempty : D.Nonempty
  awaits : ∀ t ∈ D, ∃ u ∈ D, s.Awaits t u

/-- The call is a broadcast to a single group that evicts a recipient, and deletes a group
whose last member that was, while it still guards its own group. -/
def Pc.DeletesGuarding (pc : Pc) : Prop :=
  ∃ id group groups d, pc = .cleanDelete id group groups (.resume d) ∧ d.held ≠ none

omit [DecidableEq Task] in
theorem granted_iff : s.Granted t ↔ ∀ u, ¬ s.Awaits t u := by
  constructor
  · rintro hfree u ⟨group, hgroup, g, hg, hshard⟩
    exact hfree group hgroup u g hg hshard
  · intro hnone group hgroup u g hg hshard
    exact hnone u ⟨group, hgroup, g, hg, hshard⟩

omit [DecidableEq Task] in
theorem Calls.Awaits.not_granted (h : s.Awaits t u) : ¬ s.Granted t :=
  fun hfree => granted_iff.mp hfree u h

omit [DecidableEq Task] in
theorem Calls.Awaits.exclusive (h : s.Awaits t u) : ∃ group, (s.pc t).exclusive = some group := by
  obtain ⟨group, hgroup, -⟩ := h
  exact ⟨group, hgroup⟩

omit [DecidableEq Task] in
theorem Calls.Awaits.guards (h : s.Awaits t u) : (s.pc u).guards ≠ [] := by
  obtain ⟨-, -, g, hg, -⟩ := h
  exact List.ne_nil_of_mem hg

/-- A call that waits for a lock stays where it is. -/
theorem awaits_stays (h : CallStep s l s') (hw : s.Awaits t u) : s'.pc t = s.pc t := by
  obtain ⟨group, hex⟩ := hw.exclusive
  cases step_turn h t with
  | other _ hpc => exact hpc
  | call hidle => simp [hidle, Pc.exclusive] at hex
  | exec hfree _ => exact (hw.not_granted hfree).elim
  | abort hpc => simp [hpc, Pc.exclusive] at hex

theorem deadlocked_stays (h : CallStep s l s') (hd : s.Deadlocked D) :
    ∀ t ∈ D, s'.pc t = s.pc t := by
  intro t ht
  obtain ⟨u, -, hw⟩ := hd.awaits t ht
  exact awaits_stays h hw

theorem deadlocked_step (h : CallStep s l s') (hd : s.Deadlocked D) : s'.Deadlocked D := by
  have hstays := deadlocked_stays h hd
  refine ⟨hd.nonempty, fun t ht => ?_⟩
  obtain ⟨u, hu, group, hgroup, g, hg, hshard⟩ := hd.awaits t ht
  refine ⟨u, hu, group, ?_, g, ?_, ?_⟩
  · rwa [hstays t ht]
  · rwa [hstays u hu]
  · rwa [(step_persists h).shard]

/-- A deadlock lasts for ever. -/
theorem deadlocked_run (h : (callSystem Task).Run s xs s') (hd : s.Deadlocked D) :
    s'.Deadlocked D ∧ ∀ t ∈ D, s'.pc t = s.pc t := by
  induction h with
  | refl => exact ⟨hd, fun _ _ => rfl⟩
  | step hstep _ ih =>
    obtain ⟨hend, hsame⟩ := ih (deadlocked_step hstep hd)
    exact ⟨hend, fun t ht => (hsame t ht).trans (deadlocked_stays hstep hd t ht)⟩

/-- A call that keeps a guard while it waits for a lock is a broadcast in its eviction. -/
theorem deletesGuarding_of_waits (hex : pc.exclusive = some g) (hg : pc.guards ≠ []) :
    pc.DeletesGuarding := by
  cases pc with
  | joinMembers => simp [Pc.guards] at hg
  | cleanDelete id group groups k =>
    cases k with
    | removal => simp [Pc.guards, Cont.held] at hg
    | resume d =>
      refine ⟨id, group, groups, d, rfl, fun hnone => ?_⟩
      simp [Pc.guards, Cont.held, hnone] at hg
  | _ => simp [Pc.exclusive] at hex

omit [DecidableEq Task] in
/-- The members of a deadlock that others wait for are a deadlock among themselves. -/
theorem Calls.Deadlocked.core (hd : s.Deadlocked D) :
    s.Deadlocked {t ∈ D | (s.pc t).guards ≠ []} := by
  constructor
  · obtain ⟨t, ht⟩ := hd.nonempty
    obtain ⟨u, hu, hw⟩ := hd.awaits t ht
    exact ⟨u, hu, hw.guards⟩
  · rintro t ⟨ht, -⟩
    obtain ⟨u, hu, hw⟩ := hd.awaits t ht
    exact ⟨u, ⟨hu, hw.guards⟩, hw⟩

omit [DecidableEq Task] in
theorem Calls.Deadlocked.deletesGuarding (hd : s.Deadlocked D) :
    ∀ t ∈ D, (s.pc t).guards ≠ [] → (s.pc t).DeletesGuarding := by
  intro t ht hg
  obtain ⟨u, -, hw⟩ := hd.awaits t ht
  obtain ⟨group, hex⟩ := hw.exclusive
  exact deletesGuarding_of_waits hex hg

theorem Pc.DeletesGuarding.evicting {policy : BroadcastPolicy} (h : pc.DeletesGuarding)
    (hfit : pc.Fits policy) : policy.Evicting := by
  obtain ⟨id, group, groups, d, rfl, -⟩ := h
  exact hfit

/-- Calls that wait for each other do so for ever, whatever the others do. At the core of every
such deadlock are single-group broadcasts only, each of which evicts a recipient while it keeps
the guard of its own group; so there is none under a policy that evicts nobody. -/
theorem deadlock_core (h : (callSystem Task).Reachable Calls.Fresh s) (hd : s.Deadlocked D) :
    s.shared.clients.policy.Evicting ∧
      (∃ C ⊆ D, s.Deadlocked C ∧ ∀ t ∈ C, (s.pc t).DeletesGuarding) ∧
      ∀ xs s', (callSystem Task).Run s xs s' → ∀ t ∈ D, s'.pc t = s.pc t := by
  have hcore := hd.core
  have hdel : ∀ t ∈ {t ∈ D | (s.pc t).guards ≠ []}, (s.pc t).DeletesGuarding :=
    fun t ht => hd.deletesGuarding t ht.1 ht.2
  refine ⟨?_, ⟨_, fun t ht => ht.1, hcore, hdel⟩, fun xs s' hrun => (deadlocked_run hrun hd).2⟩
  obtain ⟨t, ht⟩ := hcore.nonempty
  exact (hdel t ht).evicting (allFit_reachable h t)

omit [DecidableEq Task] in
/-- Calls that all wait for locks of calls among them. -/
theorem deadlocked_of_blocked (hbusy : ¬ s.Quiescent)
    (hblocked : ∀ t, s.pc t ≠ .idle → ¬ s.Granted t) :
    s.Deadlocked {t | s.pc t ≠ .idle} := by
  constructor
  · simpa [Calls.Quiescent, Set.Nonempty] using hbusy
  · intro t ht
    have hwait : ∃ u, s.Awaits t u := by
      simpa [granted_iff] using hblocked t ht
    obtain ⟨u, hw⟩ := hwait
    refine ⟨u, ?_, hw⟩
    intro hidle
    exact hw.guards (by rw [hidle]; rfl)

/-- Where calls are in progress, none can take its next access and none is suspended at a full
channel, single-group broadcasts are in a deadlock over their evictions. -/
theorem deadlocked_of_stuck (h : (callSystem Task).Reachable Calls.Fresh s)
    (hbusy : ¬ s.Quiescent) (hstuck : ∀ t, ¬ s.CanStep t) (hsusp : ∀ t, ¬ s.Suspended t) :
    s.shared.clients.policy.Evicting ∧
      ∃ C, s.Deadlocked C ∧ ∀ t ∈ C, (s.pc t).DeletesGuarding := by
  have hblocked : ∀ t, s.pc t ≠ .idle → ¬ s.Granted t := by
    intro t ht hfree
    obtain ⟨e, sh', pc', hx⟩ := exec_exists (allFit_reachable h t) ht fun r hpc hfull =>
      hsusp t ⟨r, hpc, hfull⟩
    exact hstuck t ⟨e, _, .exec hfree hx⟩
  have hd := deadlocked_of_blocked hbusy hblocked
  have hdel : ∀ t ∈ {t ∈ {t | s.pc t ≠ .idle} | (s.pc t).guards ≠ []}, (s.pc t).DeletesGuarding :=
    fun t ht => hd.deletesGuarding t ht.1 ht.2
  refine ⟨?_, _, hd.core, hdel⟩
  obtain ⟨t, ht⟩ := hd.core.nonempty
  exact (hdel t ht).evicting (allFit_reachable h t)

/-- A group with one member, which is in no other group and whose channel is closed, under a
policy that evicts at the first drop. -/
structure ClosedMember (c : Calls Bool) : Prop where
  idle : c.Quiescent
  members : c.shared.clients.groupMembers.lookup "g" = some {"a"}
  groups : c.shared.clients.connectionGroups.lookup "a" = some {"g"}
  found : c.shared.clients.connections.lookup "a" = some 0
  id : (c.shared.clients.states 0).id = "a"
  policy : c.shared.clients.policy = .dropConnection 1 0
  closed : (c.shared.chans (c.shared.clients.states 0).sender).closed = true

theorem closedMember_run : ∃ c, (callSystem Bool).Reachable Calls.Fresh c ∧ ClosedMember c := by
  refine ⟨_, ⟨idlePair (.dropConnection 1 0), idlePair_fresh _, _,
    .step (.call (t := true) (.add "a" "tx" "token" "drop") rfl) <|
    .step (.exec (t := true) (granted_of_free rfl) (.insert "a" "tx" "token" "drop")) <|
    .step (.call (t := true) (.addToGroup "a" "g") rfl) <|
    .step (.exec (t := true) (granted_of_unguarded (by decide)) (.joinMembers "a" "g")) <|
    .step (.exec (t := true) (granted_of_free rfl) (.joinGroups "a" "g")) <|
    .single (.close "tx")⟩, fun u => ?_, by decide, by decide, by decide, by decide, rfl,
    by decide⟩
  cases u <;> rfl

/-- A broadcast to that group gets as far as the deletion of the group, with its guard held. -/
theorem broadcast_deletes {c : Calls Bool} (h : ClosedMember c) :
    ∃ sh, Alone False c.shared (.openGroup "g" [] (.text "news")) sh
      (.cleanDelete "a" "g" [] (.resume ⟨some "g", .text "news", []⟩)) := by
  let d : Delivery := ⟨some "g", .text "news", []⟩
  have hmembers : c.shared.clients.groupMembers.values "g" = {"a"} :=
    SetMap.values_of_lookup h.members
  have hyields : Yields (c.shared.clients.groupMembers.values "g") .single 0 ["a"] :=
    ⟨by simp, by simp [hmembers, Layout.single]⟩
  have hfound : Exec c.shared (.scanGroup "g" [] (.text "news") .single 1 ["a"] []) .access
      c.shared (.scanGroup "g" [] (.text "news") .single 1 [] [0]) := by
    simpa [h.found] using @Exec.lookupMember c.shared "g" [] (.text "news") .single 1 "a" [] []
  have hnext : Exec c.shared (.deliver ⟨some "g", .text "news", [0]⟩) (.attempt 0) c.shared
      (.send (.recipient 0 d)) := by
    simpa [h.policy, BroadcastPolicy.firstAccess] using
      @Exec.next c.shared (some "g") (.text "news") 0 []
  have hrefuse : Exec c.shared (.send (.recipient 0 d)) .access c.shared (.drop 0 d) := by
    simpa [h.policy, Receiver.refused] using @Exec.refuse c.shared (.recipient 0 d) h.closed
  have hdrop : Exec c.shared (.drop 0 d) (.onDrop 0) c.shared (.count 0 d) := by
    simpa [h.policy, BroadcastPolicy.afterDrop] using @Exec.drop c.shared 0 d
  let sh := c.shared.set (c.shared.clients.setDrops 0 ((c.shared.clients.states 0).drops + 1))
  have hid : (sh.clients.states 0).id = "a" := by
    simp [sh, Shared.set, InMemoryWsClients.setDrops, h.id]
  have hevict : Exec sh (.evictRemove 0 d) (.evict "a")
      (sh.set (sh.clients.removeConnection "a")) (.evictCancel 0 "a" d) := by
    simpa [hid] using @Exec.evictFound sh 0 0 d (by rw [hid]; exact h.found)
  refine ⟨_, .exec (.groupFound .single h.members) (.inl rfl) <|
    .exec (.scanGroup Nat.one_pos hyields) (.inl rfl) <| .exec hfound (.inl rfl) <|
    .exec (.groupScanned le_rfl) (.inl rfl) <| .exec hnext (.inl rfl) <|
    .exec hrefuse (.inl rfl) <| .exec hdrop (.inl rfl) <|
    .exec (.countReached h.policy (by simp)) (.inl rfl) <| .exec hevict (.inl rfl) <|
    .exec .evictCancel (.inl rfl) <|
    .exec (@Exec.cleanTaken _ _ _ {"g"} ["g"] h.groups (by simp) (by simp)) (.inl rfl) <|
    .exec (.cleanFound h.members) (.inl rfl) <| .exec .cleanRemove (.inl rfl) <|
    .exec (.cleanEmpty ?_) (.inl rfl) .refl⟩
  have hlast : (c.shared.clients.groupMembers.discard "g" "a").values "g" = ∅ := by
    ext c
    simp [hmembers]
  exact hlast

/-- A broadcast to a group evicts its only member and deletes the group that it still guards. -/
theorem deadlock_self : ∃ c : Calls Bool, (callSystem Bool).Reachable Calls.Fresh c ∧
    (c.pc false).DeletesGuarding ∧ c.Deadlocked {false} ∧ c.pc true = .idle := by
  obtain ⟨c, hreach, hc⟩ := closedMember_run
  obtain ⟨sh, halone⟩ := broadcast_deletes hc
  have hcall : CallStep c (.call false (.broadcastGroup "g" (some (.text "news")))) _ :=
    .call _ (hc.idle false)
  obtain ⟨xs, hrun, -⟩ := alone_run halone
    (c.goto false c.shared (.openGroup "g" [] (.text "news"))) rfl (goto_pc _ _ _ _) False.elim
  refine ⟨_, (hreach.extend (.single hcall)).extend hrun, ?_, ?_, ?_⟩
  · exact ⟨"a", "g", [], _, goto_pc _ _ _ _, by simp⟩
  · refine ⟨Set.singleton_nonempty false, ?_⟩
    rintro _ rfl
    exact ⟨false, rfl, "g", by simp [Pc.exclusive], "g", by simp [Pc.guards, Cont.held], rfl⟩
  · simp [Calls.goto, hc.idle true]

/-- That broadcast is a deadlock of its own. -/
theorem deadlock_core_self : ∃ c : Calls Bool, c.Deadlocked {false} ∧
    c.shared.clients.policy.Evicting ∧
      (∃ C ⊆ {false}, c.Deadlocked C ∧ ∀ t ∈ C, (c.pc t).DeletesGuarding) ∧
      ∀ xs c', (callSystem Bool).Run c xs c' → ∀ t ∈ ({false} : Set Bool), c'.pc t = c.pc t := by
  obtain ⟨c, hreach, -, hd, -⟩ := deadlock_self
  exact ⟨c, hd, deadlock_core hreach hd⟩

/-- Beside it nothing is in progress, so that the store is stuck. -/
theorem deadlocked_of_stuck_self : ∃ c : Calls Bool, ¬ c.Quiescent ∧
    c.shared.clients.policy.Evicting ∧
      ∃ C, c.Deadlocked C ∧ ∀ t ∈ C, (c.pc t).DeletesGuarding := by
  obtain ⟨c, hreach, hdel, hd, hidle⟩ := deadlock_self
  obtain ⟨id, group, groups, d, hpc, -⟩ := hdel
  have hbusy : ¬ c.Quiescent := by
    intro hq
    simp [hq false] at hpc
  have hstuck : ∀ t, ¬ c.CanStep t := by
    rintro (- | -) hcan
    · obtain ⟨u, -, hw⟩ := hd.awaits false rfl
      exact hw.not_granted hcan.granted
    · obtain ⟨e, c', hstep⟩ := hcan
      cases hstep with
      | exec _ hx =>
        rw [hidle] at hx
        cases hx
  have hsusp : ∀ t, ¬ c.Suspended t := by
    rintro (- | -) ⟨r, hwait, -⟩
    · simp [hpc] at hwait
    · simp [hidle] at hwait
  exact ⟨c, hbusy, deadlocked_of_stuck hreach hbusy hstuck hsusp⟩

end AxumSignal

import AxumSignal.CallFacts

/-! When a call on the store can take its next access, and what else it waits for. -/
namespace AxumSignal

open Transition Calls

variable {Task : Type} [DecidableEq Task] {s s' : Calls Task} {sh sh' : Shared} {pc pc' : Pc}
  {e : Event} {t u : Task} {policy : BroadcastPolicy} {l : CallLabel Task}

namespace BroadcastPolicy

/-- The policy reads the RTT windows. -/
def Samples : BroadcastPolicy → Prop
  | .dropOnHighRtt _ _ => True
  | _ => False

/-- The policy counts the drops. -/
def Counts : BroadcastPolicy → Prop
  | .dropConnection _ _ => True
  | _ => False

/-- The policy can unregister a connection. -/
def Evicting (policy : BroadcastPolicy) : Prop := policy.Counts ∨ policy.Samples

end BroadcastPolicy

def Cont.Fits (policy : BroadcastPolicy) : Cont → Prop
  | .removal _ => True
  | .resume _ => policy.Evicting

/-- The access is one that a store with this policy makes. -/
def Pc.Fits (policy : BroadcastPolicy) : Pc → Prop
  | .record _ _ | .average _ _ => policy.Samples
  | .count _ _ | .reset _ _ => policy.Counts
  | .drop _ _ => policy ≠ .block
  | .evictRemove _ _ | .evictCancel _ _ _ => policy.Evicting
  | .cleanTake _ k | .cleanNext _ _ k | .cleanRemove _ _ _ k | .cleanCheck _ _ _ k
  | .cleanDelete _ _ _ k => k.Fits policy
  | _ => True

theorem fits_start (op : Op) : op.start.Fits policy := by
  unfold Op.start
  split <;> trivial

theorem fits_cont {k : Cont} (h : k.Fits policy) : k.pc.Fits policy := by
  cases k <;> trivial

theorem fits_firstAccess (h : Handle) (d : Delivery) : (policy.firstAccess h d).Fits policy := by
  cases policy <;> trivial

theorem fits_afterDrop (h : Handle) (d : Delivery) : (policy.afterDrop h d).Fits policy := by
  cases policy with
  | dropOnHighRtt => exact Or.inr trivial
  | _ => trivial

theorem fits_accepted (r : Receiver) : (r.accepted policy).Fits policy := by
  cases r <;> cases policy <;> trivial

theorem fits_refused (r : Receiver) : (r.refused policy).Fits policy := by
  cases r <;> cases policy <;> simp [Receiver.refused, Pc.Fits]

theorem exec_fits (hx : Exec sh pc e sh' pc') (h : pc.Fits sh.clients.policy) :
    pc'.Fits sh.clients.policy := by
  cases hx with
  | next => exact fits_firstAccess _ _
  | drop => exact fits_afterDrop _ _
  | accept | resume => exact fits_accepted _
  | refuse | disconnect => exact fits_refused _
  | cleanNothing | cleanDone => exact fits_cont h
  | stateFound hp | averageHigh hp => simp [Pc.Fits, BroadcastPolicy.Samples, hp]
  | late hp =>
    intro hblock
    simp [hblock, BroadcastPolicy.Timed] at hp
  | countReached hp => simp [Pc.Fits, BroadcastPolicy.Evicting, BroadcastPolicy.Counts, hp]
  | evictFound | evictMissing | evictCancel | cleanTaken | cleanFound | cleanMissing
  | cleanRemove | cleanEmpty | cleanKept | cleanDelete => exact h
  | _ => trivial

/-- Every call in progress is at an access that fits the policy. -/
def Calls.AllFit (s : Calls Task) : Prop := ∀ t, (s.pc t).Fits s.shared.clients.policy

theorem allFit_step (h : CallStep s l s') (hs : s.AllFit) : s'.AllFit := by
  have hpol := (step_persists h).policy
  intro u
  rw [hpol]
  cases step_turn h u with
  | other _ hpc => exact hpc ▸ hs u
  | call => simpa using fits_start _
  | exec _ hx => simpa using exec_fits hx (hs u)
  | abort => simp [Pc.Fits]

theorem allFit_reachable (h : (callSystem Task).Reachable Calls.Fresh s) : s.AllFit := by
  refine h.invariant (fun _ _ _ hstep hs => allFit_step hstep hs) fun u hu t => ?_
  rw [hu.2 t]
  trivial

/-- The call can take its next access. -/
def Calls.CanStep (s : Calls Task) (t : Task) : Prop := ∃ e s', CallStep s (.exec t e) s'

/-- The call is suspended at a channel that is open and full, and no `timeout` wakes it. -/
def Calls.Suspended (s : Calls Task) (t : Task) : Prop :=
  ∃ r, s.pc t = .wait r ∧ s.shared.Full (r.sender s.shared.clients) ∧
    ∀ h d, r = .recipient h d → ¬ s.shared.clients.policy.Timed

/-- The members that one shard yields, in some order. -/
theorem exists_yields (S : Finset ConnId) (layout : Layout) (next : Nat) :
    ∃ ids, Yields S layout next ids :=
  ⟨(S.filter fun id => (layout.index id : Nat) = next).toList, Finset.nodup_toList _,
    fun id => by simp⟩

/-- A channel that is open has room or is full. -/
theorem channel_cases (sh : Shared) (x : Sender) :
    (sh.chans x).closed = true ∨ sh.Accepts x ∨ sh.Full x := by
  cases hclosed : (sh.chans x).closed with
  | true => exact Or.inl rfl
  | false =>
    rcases Nat.lt_or_ge (sh.chans x).queue.length (sh.chans x).capacity with hroom | hfull
    · exact Or.inr (Or.inl ⟨hclosed, hroom⟩)
    · exact Or.inr (Or.inr ⟨hclosed, hfull⟩)

theorem Shared.Full.not_accepts {x : Sender} (h : sh.Full x) : ¬ sh.Accepts x := by
  intro ha
  have hfull := h.2
  have hroom := ha.2
  omega

/-- A call at a `sender.send` has a next access. -/
theorem send_moves (sh : Shared) (r : Receiver) : ∃ e sh' pc', Exec sh (.send r) e sh' pc' := by
  rcases channel_cases sh (r.sender sh.clients) with hclosed | hroom | hfull
  · exact ⟨_, _, _, .refuse hclosed⟩
  · exact ⟨_, _, _, .accept hroom⟩
  · exact ⟨_, _, _, .suspend hfull.1⟩

/-- A suspended call has a next access unless its channel is full and no timer runs. -/
theorem wait_moves {r : Receiver} (h : ¬ (sh.Full (r.sender sh.clients) ∧
      ∀ h d, r = .recipient h d → ¬ sh.clients.policy.Timed)) :
    ∃ e sh' pc', Exec sh (.wait r) e sh' pc' := by
  rcases channel_cases sh (r.sender sh.clients) with hclosed | hroom | hfull
  · exact ⟨_, _, _, .disconnect hclosed⟩
  · exact ⟨_, _, _, .resume hroom⟩
  · simp only [hfull, true_and, not_forall, not_not] at h
    obtain ⟨k, d, rfl, htimed⟩ := h
    exact ⟨_, _, _, .late htimed⟩

theorem average_moves (h : Handle) (d : Delivery) (hs : sh.clients.policy.Samples) :
    ∃ e sh' pc', Exec sh (.average h d) e sh' pc' := by
  cases hp : sh.clients.policy with
  | dropOnHighRtt maxRtt rttSamples =>
    cases havg : avgRtt (sh.clients.states h).rttSamples with
    | none => exact ⟨_, _, _, .averagePanics havg⟩
    | some avg =>
      by_cases hlow : ∀ a ∈ avg, a ≤ maxRtt
      · exact ⟨_, _, _, .averageLow hp havg hlow⟩
      · simp only [not_forall, not_le] at hlow
        obtain ⟨a, rfl, hhigh⟩ := hlow
        exact ⟨_, _, _, .averageHigh hp havg hhigh⟩
  | _ => simp [hp, BroadcastPolicy.Samples] at hs

theorem count_moves (h : Handle) (d : Delivery) (hc : sh.clients.policy.Counts) :
    ∃ e sh' pc', Exec sh (.count h d) e sh' pc' := by
  cases hp : sh.clients.policy with
  | dropConnection timeout maxDrops =>
    by_cases hlow : (sh.clients.states h).drops + 1 < maxDrops
    · exact ⟨_, _, _, .countBelow hp hlow⟩
    · exact ⟨_, _, _, .countReached hp (by simpa using hlow)⟩
  | _ => simp [hp, BroadcastPolicy.Counts] at hc

theorem record_moves (h : Handle) (rtt : Nat) (hs : sh.clients.policy.Samples) :
    ∃ e sh' pc', Exec sh (.record h rtt) e sh' pc' := by
  cases hp : sh.clients.policy with
  | dropOnHighRtt => exact ⟨_, _, _, .record hp⟩
  | _ => simp [hp, BroadcastPolicy.Samples] at hs

theorem lookupState_moves (sh : Shared) (id : ConnId) (rtt : Nat) :
    ∃ e sh' pc', Exec sh (.lookupState id rtt) e sh' pc' := by
  cases hp : sh.clients.policy with
  | dropOnHighRtt =>
    cases hl : sh.clients.connections.lookup id with
    | none => exact ⟨_, _, _, .stateMissing hl⟩
    | some h => exact ⟨_, _, _, .stateFound hp hl⟩
  | _ => exact ⟨_, _, _, .notSampled (by simp [hp])⟩

theorem scan_moves (sh : Shared) (excluded : List ConnId) (msg : Message) (layout : Layout)
    (next : Nat) (found : List Handle) :
    ∃ e sh' pc', Exec sh (.scan excluded msg layout next found) e sh' pc' := by
  rcases Nat.lt_or_ge next layout.shards with hnext | hnext
  · obtain ⟨ids, hids⟩ := exists_yields sh.clients.connections.keys layout next
    exact ⟨_, _, _, .scan hnext hids⟩
  · exact ⟨_, _, _, .scanned hnext⟩

theorem scanGroup_moves (sh : Shared) (group : GroupName) (excluded : List ConnId) (msg : Message)
    (layout : Layout) (next : Nat) (ids : List ConnId) (found : List Handle) :
    ∃ e sh' pc', Exec sh (.scanGroup group excluded msg layout next ids found) e sh' pc' := by
  cases ids with
  | cons id ids => exact ⟨_, _, _, .lookupMember⟩
  | nil =>
    rcases Nat.lt_or_ge next layout.shards with hnext | hnext
    · obtain ⟨ids, hids⟩ := exists_yields (sh.clients.groupMembers.values group) layout next
      exact ⟨_, _, _, .scanGroup hnext hids⟩
    · exact ⟨_, _, _, .groupScanned hnext⟩

theorem scanGroups_moves (sh : Shared) (group : GroupName) (groups : List GroupName)
    (msg : Message) (seen : Finset ConnId) (found : List Handle) (layout : Layout) (next : Nat)
    (ids : List ConnId) :
    ∃ e sh' pc', Exec sh (.scanGroups group groups msg seen found layout next ids) e sh' pc' := by
  rcases Nat.lt_or_ge next layout.shards with hnext | hnext
  · obtain ⟨yielded, hids⟩ := exists_yields (sh.clients.groupMembers.values group) layout next
    exact ⟨_, _, _, .scanGroups hnext hids⟩
  · exact ⟨_, _, _, .collected hnext⟩

/-- The layout of a map that is one shard. -/
def Layout.single : Layout := ⟨1, fun _ => 0⟩

theorem open_moves (sh : Shared) (group : GroupName) (excluded : List ConnId) (msg : Message) :
    ∃ e sh' pc', Exec sh (.openGroup group excluded msg) e sh' pc' := by
  cases hl : sh.clients.groupMembers.lookup group with
  | none => exact ⟨_, _, _, .groupMissing hl⟩
  | some members => exact ⟨_, _, _, .groupFound .single hl⟩

theorem openGroups_moves (sh : Shared) (groups : List GroupName) (msg : Message)
    (seen : Finset ConnId) (found : List Handle) :
    ∃ e sh' pc', Exec sh (.openGroups groups msg seen found) e sh' pc' := by
  cases groups with
  | nil => exact ⟨_, _, _, .groupsDone⟩
  | cons group groups =>
    cases hl : sh.clients.groupMembers.lookup group with
    | none => exact ⟨_, _, _, .nextMissing hl⟩
    | some members => exact ⟨_, _, _, .nextFound .single hl⟩

theorem filter_moves (sh : Shared) (ids : List ConnId) (groups : List GroupName) (msg : Message)
    (seen : Finset ConnId) (found : List Handle) :
    ∃ e sh' pc', Exec sh (.filterGroups ids groups msg seen found) e sh' pc' := by
  cases ids with
  | nil => exact ⟨_, _, _, .filtered⟩
  | cons id ids =>
    by_cases hseen : id ∈ seen
    · exact ⟨_, _, _, .duplicate hseen⟩
    · exact ⟨_, _, _, .lookupFirst hseen⟩

theorem deliver_moves (sh : Shared) (d : Delivery) :
    ∃ e sh' pc', Exec sh (.deliver d) e sh' pc' := by
  obtain ⟨held, msg, - | ⟨h, rest⟩⟩ := d
  · exact ⟨_, _, _, .delivered⟩
  · exact ⟨_, _, _, .next⟩

theorem lookupSender_moves (sh : Shared) (id : ConnId) (msg : Message) :
    ∃ e sh' pc', Exec sh (.lookupSender id msg) e sh' pc' := by
  cases hl : sh.clients.connections.lookup id with
  | none => exact ⟨_, _, _, .senderMissing hl⟩
  | some h => exact ⟨_, _, _, .senderFound hl⟩

theorem evict_moves (sh : Shared) (h : Handle) (d : Delivery) :
    ∃ e sh' pc', Exec sh (.evictRemove h d) e sh' pc' := by
  cases hl : sh.clients.connections.lookup (sh.clients.states h).id with
  | none => exact ⟨_, _, _, .evictMissing hl⟩
  | some victim => exact ⟨_, _, _, .evictFound hl⟩

theorem take_moves (sh : Shared) (id : ConnId) (k : Cont) :
    ∃ e sh' pc', Exec sh (.cleanTake id k) e sh' pc' := by
  cases hl : sh.clients.connectionGroups.lookup id with
  | none => exact ⟨_, _, _, .cleanNothing hl⟩
  | some taken => exact ⟨_, _, _, .cleanTaken hl (Finset.nodup_toList taken) fun g => by simp⟩

theorem clean_moves (sh : Shared) (id : ConnId) (groups : List GroupName) (k : Cont) :
    ∃ e sh' pc', Exec sh (.cleanNext id groups k) e sh' pc' := by
  cases groups with
  | nil => exact ⟨_, _, _, .cleanDone⟩
  | cons group groups =>
    cases hl : sh.clients.groupMembers.lookup group with
    | none => exact ⟨_, _, _, .cleanMissing hl⟩
    | some members => exact ⟨_, _, _, .cleanFound hl⟩

theorem check_moves (sh : Shared) (id : ConnId) (group : GroupName) (groups : List GroupName)
    (k : Cont) : ∃ e sh' pc', Exec sh (.cleanCheck id group groups k) e sh' pc' := by
  by_cases hempty : sh.clients.groupMembers.values group = ∅
  · exact ⟨_, _, _, .cleanEmpty hempty⟩
  · exact ⟨_, _, _, .cleanKept hempty⟩

/-- Apart from the locks, every access that fits the policy can be made, unless it waits for
room in a channel. -/
theorem exec_exists (hfit : pc.Fits sh.clients.policy) (hbusy : pc ≠ .idle)
    (hwait : ∀ r, pc = .wait r → ¬ (sh.Full (r.sender sh.clients) ∧
      ∀ h d, r = .recipient h d → ¬ sh.clients.policy.Timed)) :
    ∃ e sh' pc', Exec sh pc e sh' pc' := by
  cases pc with
  | idle => exact (hbusy rfl).elim
  | insert => exact ⟨_, _, _, .insert ..⟩
  | removeEntry => exact ⟨_, _, _, .removeEntry _⟩
  | lookupSender => exact lookupSender_moves ..
  | publish => exact ⟨_, _, _, .publish _⟩
  | joinMembers => exact ⟨_, _, _, .joinMembers ..⟩
  | joinGroups => exact ⟨_, _, _, .joinGroups ..⟩
  | leaveMembers => exact ⟨_, _, _, .leaveMembers ..⟩
  | leaveGroups => exact ⟨_, _, _, .leaveGroups ..⟩
  | lookupState => exact lookupState_moves ..
  | record => exact record_moves _ _ hfit
  | iter => exact ⟨_, _, _, .iter .single⟩
  | scan => exact scan_moves ..
  | openGroup => exact open_moves ..
  | scanGroup => exact scanGroup_moves ..
  | openGroups => exact openGroups_moves ..
  | scanGroups => exact scanGroups_moves ..
  | filterGroups => exact filter_moves ..
  | deliver => exact deliver_moves ..
  | average => exact average_moves _ _ hfit
  | send => exact send_moves ..
  | wait r => exact wait_moves (hwait r rfl)
  | drop => exact ⟨_, _, _, .drop⟩
  | count => exact count_moves _ _ hfit
  | reset => exact ⟨_, _, _, .reset⟩
  | evictRemove => exact evict_moves ..
  | evictCancel => exact ⟨_, _, _, .evictCancel⟩
  | cleanTake => exact take_moves ..
  | cleanNext => exact clean_moves ..
  | cleanRemove => exact ⟨_, _, _, .cleanRemove⟩
  | cleanCheck => exact check_moves ..
  | cleanDelete => exact ⟨_, _, _, .cleanDelete⟩

/-- No timer and no room: a suspended call has no access to take. -/
theorem Calls.Suspended.not_canStep (h : s.Suspended t) : ¬ s.CanStep t := by
  obtain ⟨r, hpc, hfull, htimer⟩ := h
  rintro ⟨e, s', hstep⟩
  cases hstep with
  | exec _ hx =>
    rw [hpc] at hx
    cases hx with
    | resume hroom => exact hfull.not_accepts hroom
    | disconnect hclosed => simp [hfull.1] at hclosed
    | late hp => exact htimer _ _ rfl hp

theorem Calls.CanStep.granted (h : s.CanStep t) : s.Granted t := by
  obtain ⟨e, s', hstep⟩ := h
  cases hstep with
  | exec hfree _ => exact hfree

/-- A call in progress can take its next access exactly when the lock that this needs is free
and it is not suspended at a full channel without a timer: nothing else ever holds it up. -/
theorem canStep_iff (h : (callSystem Task).Reachable Calls.Fresh s) (hbusy : s.pc t ≠ .idle) :
    s.CanStep t ↔ s.Granted t ∧ ¬ s.Suspended t := by
  constructor
  · intro hcan
    exact ⟨hcan.granted, fun hsusp => hsusp.not_canStep hcan⟩
  · rintro ⟨hfree, hsusp⟩
    have hwait : ∀ r, s.pc t = .wait r → ¬ (s.shared.Full (r.sender s.shared.clients) ∧
        ∀ h d, r = .recipient h d → ¬ s.shared.clients.policy.Timed) := by
      rintro r hpc ⟨hfull, htimer⟩
      exact hsusp ⟨r, hpc, hfull, htimer⟩
    obtain ⟨e, sh', pc', hx⟩ := exec_exists (allFit_reachable h t) hbusy hwait
    exact ⟨e, _, .exec hfree hx⟩

/-- A group broadcast waits for room in its member's full queue, and a join of the group for the
shard lock whose guard the broadcast holds. -/
theorem canStep_waiting : ∃ s : Calls Bool, ¬ s.CanStep false ∧ ¬ s.CanStep true ∧
    s.Granted false ∧ ¬ s.Granted true ∧ s.Suspended false ∧ ¬ s.Suspended true := by
  let r : Receiver := .recipient 0 ⟨some "g", .text "news", []⟩
  obtain ⟨s, hreach, hwait, hjoin, hfull, hpolicy⟩ : ∃ s : Calls Bool,
      (callSystem Bool).Reachable Calls.Fresh s ∧ s.pc false = .wait r ∧
      s.pc true = .joinMembers "b" "g" ∧ s.shared.Full (r.sender s.shared.clients) ∧
      s.shared.clients.policy = .block :=
    ⟨_, ⟨idlePair .block, idlePair_fresh _, _,
      .step (.call (t := true) (.add "c" "tx" "token" "drop") rfl) <|
      .step (.exec (t := true) (granted_of_free rfl) (.insert "c" "tx" "token" "drop")) <|
      .step (.call (t := true) (.addToGroup "c" "g") rfl) <|
      .step (.exec (t := true) (granted_of_unguarded (by decide)) (.joinMembers "c" "g")) <|
      .step (.exec (t := true) (granted_of_free rfl) (.joinGroups "c" "g")) <|
      .step (.call (t := true) (.unicast "c" (some (.text "old"))) rfl) <|
      .step (.exec (t := true) (granted_of_free rfl) (@Exec.senderFound _ _ _ 0 (by decide))) <|
      .step (.exec (t := true) (granted_of_free rfl) (.accept ⟨by decide, by decide⟩)) <|
      .step (.call (t := false) (.broadcastGroup "g" (some (.text "news"))) rfl) <|
      .step (.exec (t := false) (granted_of_free rfl) (.groupFound ⟨1, fun _ => 0⟩ rfl)) <|
      .step (.exec (t := false) (granted_of_free rfl)
        (.scanGroup Nat.one_pos (yields_member _ _))) <|
      .step (.exec (t := false) (granted_of_free rfl) .lookupMember) <|
      .step (.exec (t := false) (granted_of_free rfl) (.groupScanned le_rfl)) <|
      .step (.exec (t := false) (granted_of_free rfl) .next) <|
      .step (.exec (t := false) (granted_of_free rfl) (.suspend (r := r) rfl)) <|
      .single (.call (t := true) (.addToGroup "b" "g") rfl)⟩, rfl, rfl, ⟨by decide, by decide⟩, rfl⟩
  have hfalse := canStep_iff hreach (t := false) (by simp [hwait])
  have htrue := canStep_iff hreach (t := true) (by simp [hjoin])
  have hsuspended : s.Suspended false :=
    ⟨r, hwait, hfull, fun _ _ _ => by simp [hpolicy, BroadcastPolicy.Timed]⟩
  have hlocked : ¬ s.Granted true := fun hg =>
    hg "g" (by simp [hjoin, Pc.exclusive]) false "g" (by simp [hwait, r, Pc.guards, Receiver.held])
      rfl
  refine ⟨s, fun h => (hfalse.mp h).2 hsuspended, fun h => hlocked (htrue.mp h).1,
    granted_of_free (by simp [hwait, Pc.exclusive]), hlocked, hsuspended, ?_⟩
  rintro ⟨r, hpc, -⟩
  simp [hjoin] at hpc

/-- What a call does while the others stay where they are: accesses of its own, and messages
taken out of the channels. Exclusive locks are there for it if the others hold no guards. -/
inductive Alone (clear : Prop) : Shared → Pc → Shared → Pc → Prop where
  | refl {sh : Shared} {pc : Pc} : Alone clear sh pc sh pc
  | exec {sh sh₁ sh₂ : Shared} {pc pc₁ pc₂ : Pc} {e : Event} (hx : Exec sh pc e sh₁ pc₁)
      (hfree : pc.exclusive = none ∨ clear ∧ pc.guards = []) (h : Alone clear sh₁ pc₁ sh₂ pc₂) :
      Alone clear sh pc sh₂ pc₂
  | recv {sh sh₁ : Shared} {pc pc₁ : Pc} (x : Sender) (h : Alone clear (sh.pop x) pc sh₁ pc₁) :
      Alone clear sh pc sh₁ pc₁

/-- Calls in progress go on and receivers take messages; nothing else happens. -/
def CallLabel.Quiet : CallLabel Task → Prop
  | .exec _ _ | .recv _ => True
  | _ => False

/-- What a call can do alone is a run of the system. -/
theorem alone_run {clear : Prop} (h : Alone clear sh pc sh' pc') (s : Calls Task)
    (hsh : s.shared = sh) (hpc : s.pc t = pc)
    (hclear : clear → ∀ u, u ≠ t → (s.pc u).guards = []) :
    ∃ xs, (callSystem Task).Run s xs (s.goto t sh' pc') ∧ ∀ l ∈ xs, l.Quiet := by
  induction h generalizing s with
  | refl =>
    subst hsh hpc
    refine ⟨[], ?_, by simp⟩
    have hsame : s.goto t s.shared (s.pc t) = s := by simp [Calls.goto]
    rw [hsame]
    exact .refl
  | @exec sh sh₁ sh₂ pc pc₁ pc₂ e hx hfree _ ih =>
    subst hsh hpc
    have hgranted : s.Granted t := by
      rcases hfree with hnone | ⟨hc, hown⟩
      · exact granted_of_free hnone
      · refine granted_of_unguarded fun u => ?_
        by_cases hu : u = t
        · exact hu ▸ hown
        · exact hclear hc u hu
    have hothers : clear → ∀ u, u ≠ t → ((s.goto t sh₁ pc₁).pc u).guards = [] := by
      intro hc u hu
      rw [s.goto_pc_ne hu]
      exact hclear hc u hu
    obtain ⟨xs, hrun, hquiet⟩ := ih (s.goto t sh₁ pc₁) rfl (s.goto_pc t _ _) hothers
    have hend : (s.goto t sh₁ pc₁).goto t sh₂ pc₂ = s.goto t sh₂ pc₂ := by simp [Calls.goto]
    rw [hend] at hrun
    exact ⟨.exec t e :: xs, .step (.exec hgranted hx) hrun,
      List.forall_mem_cons.mpr ⟨trivial, hquiet⟩⟩
  | @recv sh sh₁ pc pc₁ x _ ih =>
    subst hsh
    obtain ⟨xs, hrun, hquiet⟩ := ih { s with shared := s.shared.pop x } rfl hpc hclear
    exact ⟨.recv x :: xs, .step (.recv x) hrun, List.forall_mem_cons.mpr ⟨trivial, hquiet⟩⟩

end AxumSignal

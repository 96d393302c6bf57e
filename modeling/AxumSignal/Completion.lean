import AxumSignal.Progress
import AxumSignal.Workers

/-! Calls in progress can all be brought to their end, as long as the receivers of the
channels take messages and no broadcast evicts under a guard of its own. -/
namespace AxumSignal

open Transition Calls LTS

variable {Task : Type} [DecidableEq Task] {s s' : Calls Task} {sh sh' sh'' : Shared}
  {pc pc' pc'' : Pc} {e : Event} {t u : Task} {l : CallLabel Task} {xs : List (CallLabel Task)}
  {clear : Prop} {policy : BroadcastPolicy} {P : Pc → Prop} {k : Cont} {r : Receiver}
  {h : Handle} {d : Delivery} {held : Option GroupName} {msg : Message}

/-- A broadcast to a single group, which keeps the guard of the group to its end. -/
def Pc.Single : Pc → Prop
  | .openGroup _ _ _ | .scanGroup _ _ _ _ _ _ _ => True
  | .deliver d | .average _ d | .drop _ d | .count _ d | .reset _ d | .evictRemove _ d
  | .evictCancel _ _ d => d.held ≠ none
  | .send r | .wait r => r.held ≠ none
  | .cleanTake _ k | .cleanNext _ _ k | .cleanRemove _ _ _ k | .cleanCheck _ _ _ k
  | .cleanDelete _ _ _ k => k.held ≠ none
  | _ => False

/-- Every channel has room for a message when it is empty. -/
def Shared.Roomy (sh : Shared) : Prop := ∀ x, 0 < (sh.chans x).capacity

theorem Persists.roomy (hp : Persists sh sh') (h : sh.Roomy) : sh'.Roomy := fun x => by
  rw [hp.capacity]
  exact h x

/-- Alone, a call can get from the access `pc` to one where `P` holds, whatever the store is. -/
def Pc.Leads (pc : Pc) (clear : Prop) (policy : BroadcastPolicy) (P : Pc → Prop) : Prop :=
  ∀ sh, sh.clients.policy = policy → sh.Roomy → ∃ sh' pc', Alone clear sh pc sh' pc' ∧ P pc'

theorem leads_here (h : P pc) : pc.Leads clear policy P := fun _ _ _ => ⟨_, _, .refl, h⟩

theorem leads_at (hx : Exec sh pc e sh' pc') (hfree : pc.exclusive = none ∨ clear ∧ pc.guards = [])
    (hlead : pc'.Leads clear policy P) (hpol : sh.clients.policy = policy) (hroomy : sh.Roomy) :
    ∃ sh'' pc'', Alone clear sh pc sh'' pc'' ∧ P pc'' := by
  have hkeeps := exec_persists hx
  obtain ⟨sh'', pc'', halone, hp⟩ :=
    hlead sh' (hkeeps.policy.trans hpol) (hkeeps.roomy hroomy)
  exact ⟨sh'', pc'', .exec hx hfree halone, hp⟩

/-- One access, and what it leads to. -/
theorem leads_exec (hfree : pc.exclusive = none ∨ clear ∧ pc.guards = [])
    (h : ∀ sh, sh.clients.policy = policy →
      ∃ e sh' pc', Exec sh pc e sh' pc' ∧ pc'.Leads clear policy P) :
    pc.Leads clear policy P := by
  intro sh hpol hroomy
  obtain ⟨e, sh', pc', hx, hlead⟩ := h sh hpol
  exact leads_at hx hfree hlead hpol hroomy

/-- A suspended call goes on once its channel has room or is closed. The induction is on the
messages in the channel. -/
theorem leads_wait (ha : (r.accepted policy).Leads clear policy P)
    (hr : (r.refused policy).Leads clear policy P) : (Pc.wait r).Leads clear policy P := by
  intro sh hpol hroomy
  generalize hn : (sh.chans (r.sender sh.clients)).queue.length = n
  induction n generalizing sh with
  | zero =>
    rcases channel_cases sh (r.sender sh.clients) with hclosed | hroom | hfull
    · exact leads_at (.disconnect hclosed) (Or.inl rfl) (hpol ▸ hr) hpol hroomy
    · exact leads_at (.resume hroom) (Or.inl rfl) (hpol ▸ ha) hpol hroomy
    · have hcap := hroomy (r.sender sh.clients)
      have hlong := hfull.2
      omega
  | succ n ih =>
    obtain ⟨sh', pc', halone, hp⟩ := ih (sh.pop (r.sender sh.clients)) hpol
      ((persists_pop sh _).roomy hroomy) (by simp [Shared.pop, hn])
    exact ⟨sh', pc', .recv _ halone, hp⟩

theorem leads_send (ha : (r.accepted policy).Leads clear policy P)
    (hr : (r.refused policy).Leads clear policy P) : (Pc.send r).Leads clear policy P := by
  intro sh hpol hroomy
  rcases channel_cases sh (r.sender sh.clients) with hclosed | hroom | hfull
  · exact leads_at (.refuse hclosed) (Or.inl rfl) (hpol ▸ hr) hpol hroomy
  · exact leads_at (.accept hroom) (Or.inl rfl) (hpol ▸ ha) hpol hroomy
  · exact leads_at (.suspend hfull.1) (Or.inl rfl) (leads_wait ha hr) hpol hroomy

theorem leads_cleanDelete (hclear : clear) (hheld : k.held = none) {id : ConnId}
    {group : GroupName} {groups : List GroupName}
    (hnext : (Pc.cleanNext id groups k).Leads clear policy P) :
    (Pc.cleanDelete id group groups k).Leads clear policy P :=
  leads_exec (Or.inr ⟨hclear, by simp [Pc.guards, hheld]⟩) fun _ _ =>
    ⟨_, _, _, .cleanDelete, hnext⟩

theorem leads_cleanCheck {id : ConnId} {group : GroupName} {groups : List GroupName}
    (hdelete : (Pc.cleanDelete id group groups k).Leads clear policy P)
    (hnext : (Pc.cleanNext id groups k).Leads clear policy P) :
    (Pc.cleanCheck id group groups k).Leads clear policy P := by
  refine leads_exec (Or.inl rfl) fun sh _ => ?_
  by_cases hempty : sh.clients.groupMembers.values group = ∅
  · exact ⟨_, _, _, .cleanEmpty hempty, hdelete⟩
  · exact ⟨_, _, _, .cleanKept hempty, hnext⟩

theorem leads_cleanRemove {id : ConnId} {group : GroupName} {groups : List GroupName}
    (hcheck : (Pc.cleanCheck id group groups k).Leads clear policy P) :
    (Pc.cleanRemove id group groups k).Leads clear policy P :=
  leads_exec (Or.inl rfl) fun _ _ => ⟨_, _, _, .cleanRemove, hcheck⟩

/-- The rest of a clean-up that no guard of the call itself is in the way of. -/
theorem leads_cleanNext (hclear : clear) (hheld : k.held = none)
    (hk : k.pc.Leads clear policy P) (id : ConnId) (groups : List GroupName) :
    (Pc.cleanNext id groups k).Leads clear policy P := by
  induction groups with
  | nil => exact leads_exec (Or.inl rfl) fun _ _ => ⟨_, _, _, .cleanDone, hk⟩
  | cons group groups ih =>
    have hdelete : (Pc.cleanDelete id group groups k).Leads clear policy P :=
      leads_cleanDelete hclear hheld ih
    refine leads_exec (Or.inl rfl) fun sh _ => ?_
    cases hl : sh.clients.groupMembers.lookup group with
    | none => exact ⟨_, _, _, .cleanMissing hl, ih⟩
    | some members =>
      exact ⟨_, _, _, .cleanFound hl, leads_cleanRemove (leads_cleanCheck hdelete ih)⟩

theorem leads_cleanTake (hclear : clear) (hheld : k.held = none)
    (hk : k.pc.Leads clear policy P) (id : ConnId) :
    (Pc.cleanTake id k).Leads clear policy P := by
  refine leads_exec (Or.inl rfl) fun sh _ => ?_
  cases hl : sh.clients.connectionGroups.lookup id with
  | none => exact ⟨_, _, _, .cleanNothing hl, hk⟩
  | some taken =>
    exact ⟨_, _, _, .cleanTaken hl (Finset.nodup_toList taken) fun g => by simp,
      leads_cleanNext hclear hheld hk id _⟩

theorem leads_evictCancel (hclear : clear) (hheld : d.held = none)
    (hd : (Pc.deliver d).Leads clear policy P) (victim : Handle) (id : ConnId) :
    (Pc.evictCancel victim id d).Leads clear policy P :=
  leads_exec (Or.inl rfl) fun _ _ =>
    ⟨_, _, _, .evictCancel, leads_cleanTake (k := .resume d) hclear hheld hd id⟩

theorem leads_evictRemove (hclear : clear) (hheld : d.held = none)
    (hd : (Pc.deliver d).Leads clear policy P) : (Pc.evictRemove h d).Leads clear policy P := by
  refine leads_exec (Or.inl rfl) fun sh _ => ?_
  cases hl : sh.clients.connections.lookup (sh.clients.states h).id with
  | none =>
    exact ⟨_, _, _, .evictMissing hl, leads_cleanTake (k := .resume d) hclear hheld hd _⟩
  | some victim => exact ⟨_, _, _, .evictFound hl, leads_evictCancel hclear hheld hd _ _⟩

/-- An evicting policy finds the way free. -/
def Unhindered (clear : Prop) (policy : BroadcastPolicy) (held : Option GroupName) : Prop :=
  policy.Evicting → clear ∧ held = none

theorem leads_count (hfree : Unhindered clear policy d.held) (hfit : policy.Counts)
    (hd : (Pc.deliver d).Leads clear policy P) : (Pc.count h d).Leads clear policy P := by
  obtain ⟨hclear, hheld⟩ := hfree (Or.inl hfit)
  refine leads_exec (Or.inl rfl) fun sh hpol => ?_
  cases policy with
  | dropConnection timeout maxDrops =>
    by_cases hlow : (sh.clients.states h).drops + 1 < maxDrops
    · exact ⟨_, _, _, .countBelow hpol hlow, hd⟩
    · exact ⟨_, _, _, .countReached hpol (by simpa using hlow),
        leads_evictRemove hclear hheld hd⟩
  | _ => exact hfit.elim

theorem leads_drop (hfree : Unhindered clear policy d.held)
    (hd : (Pc.deliver d).Leads clear policy P) : (Pc.drop h d).Leads clear policy P := by
  have hafter : (policy.afterDrop h d).Leads clear policy P := by
    cases policy with
    | block | dropMessage => exact hd
    | dropConnection => exact leads_count hfree trivial hd
    | dropOnHighRtt =>
      obtain ⟨hclear, hheld⟩ := hfree (Or.inr trivial)
      exact leads_evictRemove hclear hheld hd
  exact leads_exec (Or.inl rfl) fun sh hpol => ⟨_, _, _, .drop, hpol ▸ hafter⟩

theorem leads_accepted (hd : (Pc.deliver d).Leads clear policy P) :
    (Receiver.accepted policy (.recipient h d)).Leads clear policy P := by
  cases policy with
  | dropConnection => exact leads_exec (Or.inl rfl) fun _ _ => ⟨_, _, _, .reset, hd⟩
  | _ => exact hd

theorem leads_refused (hfree : Unhindered clear policy d.held)
    (hd : (Pc.deliver d).Leads clear policy P) :
    (Receiver.refused policy (.recipient h d)).Leads clear policy P := by
  cases policy with
  | dropMessage | dropConnection => exact leads_drop hfree hd
  | block | dropOnHighRtt => exact hd

theorem leads_recipient (hfree : Unhindered clear policy d.held)
    (hd : (Pc.deliver d).Leads clear policy P) :
    (Pc.send (.recipient h d)).Leads clear policy P ∧
      (Pc.wait (.recipient h d)).Leads clear policy P :=
  ⟨leads_send (leads_accepted hd) (leads_refused hfree hd),
    leads_wait (leads_accepted hd) (leads_refused hfree hd)⟩

theorem leads_average (hfree : Unhindered clear policy d.held) (hfit : policy.Samples)
    (hidle : P .idle) (hd : (Pc.deliver d).Leads clear policy P) :
    (Pc.average h d).Leads clear policy P := by
  refine leads_exec (Or.inl rfl) fun sh hpol => ?_
  cases policy with
  | dropOnHighRtt maxRtt rttSamples =>
    cases havg : avgRtt (sh.clients.states h).rttSamples with
    | none => exact ⟨_, _, _, .averagePanics havg, leads_here hidle⟩
    | some avg =>
      by_cases hlow : ∀ a ∈ avg, a ≤ maxRtt
      · exact ⟨_, _, _, .averageLow hpol havg hlow, (leads_recipient hfree hd).1⟩
      · simp only [not_forall, not_le] at hlow
        obtain ⟨a, rfl, hhigh⟩ := hlow
        exact ⟨_, _, _, .averageHigh hpol havg hhigh, leads_drop hfree hd⟩
  | _ => exact hfit.elim

/-- A delivery loop gets to its end. The induction is on the recipients. -/
theorem leads_deliver (hidle : P .idle) (hfree : Unhindered clear policy held)
    (rest : List Handle) : (Pc.deliver ⟨held, msg, rest⟩).Leads clear policy P := by
  induction rest with
  | nil => exact leads_exec (Or.inl rfl) fun _ _ => ⟨_, _, _, .delivered, leads_here hidle⟩
  | cons h rest ih =>
    have hfirst : (policy.firstAccess h ⟨held, msg, rest⟩).Leads clear policy P := by
      cases policy with
      | dropOnHighRtt =>
        exact leads_average (d := ⟨held, msg, rest⟩) hfree trivial hidle ih
      | _ => exact (leads_recipient (d := ⟨held, msg, rest⟩) hfree ih).1
    exact leads_exec (Or.inl rfl) fun sh hpol => ⟨_, _, _, .next, hpol ▸ hfirst⟩

theorem leads_filterGroups {groups : List GroupName} {msg : Message} (ids : List ConnId)
    (hopen : ∀ seen found, (Pc.openGroups groups msg seen found).Leads clear policy P)
    (seen : Finset ConnId) (found : List Handle) :
    (Pc.filterGroups ids groups msg seen found).Leads clear policy P := by
  induction ids generalizing seen found with
  | nil => exact leads_exec (Or.inl rfl) fun _ _ => ⟨_, _, _, .filtered, hopen _ _⟩
  | cons id ids ih =>
    refine leads_exec (Or.inl rfl) fun sh _ => ?_
    by_cases hseen : id ∈ seen
    · exact ⟨_, _, _, .duplicate hseen, ih _ _⟩
    · exact ⟨_, _, _, .lookupFirst hseen, ih _ _⟩

/-- The scan of a group gets to its last shard. -/
theorem leads_scanGroups {group : GroupName} {groups : List GroupName} {msg : Message}
    {seen : Finset ConnId} {found : List Handle} {layout : Layout}
    (hfilter : ∀ ids, (Pc.filterGroups ids groups msg seen found).Leads clear policy P)
    (next : Nat) (ids : List ConnId) :
    (Pc.scanGroups group groups msg seen found layout next ids).Leads clear policy P := by
  generalize hn : layout.shards - next = n
  induction n generalizing next ids with
  | zero =>
    exact leads_exec (Or.inl rfl) fun _ _ => ⟨_, _, _, .collected (by omega), hfilter ids⟩
  | succ n ih =>
    refine leads_exec (Or.inl rfl) fun sh _ => ?_
    obtain ⟨yielded, hids⟩ := exists_yields (sh.clients.groupMembers.values group) layout next
    exact ⟨_, _, _, .scanGroups (by omega) hids, ih _ _ (by omega)⟩

/-- A broadcast to several groups collects its recipients. The induction is on the groups. -/
theorem leads_openGroups {msg : Message} (hfree : Unhindered clear policy none) (hidle : P .idle)
    (groups : List GroupName) (seen : Finset ConnId) (found : List Handle) :
    (Pc.openGroups groups msg seen found).Leads clear policy P := by
  induction groups generalizing seen found with
  | nil =>
    exact leads_exec (Or.inl rfl) fun _ _ =>
      ⟨_, _, _, .groupsDone, leads_deliver hidle hfree found⟩
  | cons group groups ih =>
    refine leads_exec (Or.inl rfl) fun sh _ => ?_
    cases hl : sh.clients.groupMembers.lookup group with
    | none => exact ⟨_, _, _, .nextMissing hl, ih _ _⟩
    | some members =>
      exact ⟨_, _, _, .nextFound .single hl,
        leads_scanGroups (fun ids => leads_filterGroups ids ih _ _) _ _⟩

/-- The scan of all connections gets to its last shard. -/
theorem leads_scan {excluded : List ConnId} {msg : Message} {layout : Layout}
    (hfree : Unhindered clear policy none) (hidle : P .idle) (next : Nat) (found : List Handle) :
    (Pc.scan excluded msg layout next found).Leads clear policy P := by
  generalize hn : layout.shards - next = n
  induction n generalizing next found with
  | zero =>
    exact leads_exec (Or.inl rfl) fun _ _ =>
      ⟨_, _, _, .scanned (by omega), leads_deliver hidle hfree found⟩
  | succ n ih =>
    refine leads_exec (Or.inl rfl) fun sh _ => ?_
    obtain ⟨ids, hids⟩ := exists_yields sh.clients.connections.keys layout next
    exact ⟨_, _, _, .scan (by omega) hids, ih _ _ (by omega)⟩

/-- The scan of a single group gets to its last shard. The inductions are on the shards and,
within one, on the members that it yields. -/
theorem leads_scanGroup {group : GroupName} {excluded : List ConnId} {msg : Message}
    {layout : Layout} (hfree : Unhindered clear policy (some group)) (hidle : P .idle)
    (next : Nat) (ids : List ConnId) (found : List Handle) :
    (Pc.scanGroup group excluded msg layout next ids found).Leads clear policy P := by
  generalize hn : layout.shards - next = n
  induction n generalizing next ids found with
  | zero =>
    induction ids generalizing found with
    | nil =>
      exact leads_exec (Or.inl rfl) fun _ _ =>
        ⟨_, _, _, .groupScanned (by omega), leads_deliver hidle hfree found⟩
    | cons id ids ih => exact leads_exec (Or.inl rfl) fun _ _ => ⟨_, _, _, .lookupMember, ih _⟩
  | succ n ihn =>
    induction ids generalizing found with
    | nil =>
      refine leads_exec (Or.inl rfl) fun sh _ => ?_
      obtain ⟨yielded, hids⟩ := exists_yields (sh.clients.groupMembers.values group) layout next
      exact ⟨_, _, _, .scanGroup (by omega) hids, ihn _ _ _ (by omega)⟩
    | cons id ids ih => exact leads_exec (Or.inl rfl) fun _ _ => ⟨_, _, _, .lookupMember, ih _⟩

/-- The call has returned. -/
def Pc.Over (pc : Pc) : Prop := pc = .idle

theorem over_idle : Pc.idle.Over := rfl

/-- The last access of a call. -/
theorem leads_last (hfree : pc.exclusive = none) (h : ∀ sh, ∃ e sh', Exec sh pc e sh' .idle) :
    pc.Leads True policy Pc.Over := by
  refine leads_exec (Or.inl hfree) fun sh _ => ?_
  obtain ⟨e, sh', hx⟩ := h sh
  exact ⟨e, sh', .idle, hx, leads_here over_idle⟩

/-- A broadcast that keeps no guard of its own, or evicts nobody, is not hindered. -/
theorem unhindered_of (h : policy.Evicting → ¬ held ≠ none) : Unhindered True policy held :=
  fun hev => ⟨trivial, not_not.mp (h hev)⟩

theorem leads_receiver (hs : policy.Evicting → ¬ r.held ≠ none) :
    (Pc.send r).Leads True policy Pc.Over ∧ (Pc.wait r).Leads True policy Pc.Over := by
  cases r with
  | direct =>
    have hdone : Pc.idle.Leads True policy Pc.Over := leads_here over_idle
    exact ⟨leads_send hdone hdone, leads_wait hdone hdone⟩
  | recipient h d =>
    have hfree : Unhindered True policy d.held := unhindered_of hs
    exact leads_recipient hfree (leads_deliver over_idle hfree d.rest)

/-- A clean-up returns to an access that leads to the end of the call. -/
theorem leads_cont (hfit : k.Fits policy) (hs : policy.Evicting → ¬ k.held ≠ none) :
    k.held = none ∧ k.pc.Leads True policy Pc.Over := by
  cases k with
  | removal id =>
    exact ⟨rfl, leads_last rfl fun _ => ⟨_, _, .removeEntry id⟩⟩
  | resume d =>
    have hfree : Unhindered True policy d.held := unhindered_of hs
    exact ⟨(hfree hfit).2, leads_deliver over_idle hfree d.rest⟩

theorem leads_update (id : ConnId) (rtt : Nat) :
    (Pc.lookupState id rtt).Leads True policy Pc.Over := by
  refine leads_exec (Or.inl rfl) fun sh hpol => ?_
  cases policy with
  | dropOnHighRtt maxRtt rttSamples =>
    cases hl : sh.clients.connections.lookup id with
    | none => exact ⟨_, _, _, .stateMissing hl, leads_here over_idle⟩
    | some h =>
      refine ⟨_, _, _, .stateFound hpol hl, leads_exec (Or.inl rfl) fun sh hpol => ?_⟩
      exact ⟨_, _, _, .record hpol, leads_here over_idle⟩
  | _ => exact ⟨_, _, _, .notSampled (by simp [hpol]), leads_here over_idle⟩

/-- A call gets to its end while the others hold no guards, unless it evicts under a guard of
its own. -/
theorem leads_idle (hfit : pc.Fits policy) (hs : policy.Evicting → ¬ pc.Single) :
    pc.Leads True policy Pc.Over := by
  have hdeliver {d : Delivery} (hs : policy.Evicting → ¬ d.held ≠ none) :
      (Pc.deliver d).Leads True policy Pc.Over :=
    leads_deliver over_idle (unhindered_of hs) d.rest
  have hnone : Unhindered True policy none := fun _ => ⟨trivial, rfl⟩
  cases pc with
  | idle => exact leads_here over_idle
  | insert id x tok f => exact leads_last rfl fun _ => ⟨_, _, .insert id x tok f⟩
  | removeEntry id => exact leads_last rfl fun _ => ⟨_, _, .removeEntry id⟩
  | lookupSender id msg =>
    refine leads_exec (Or.inl rfl) fun sh _ => ?_
    cases hl : sh.clients.connections.lookup id with
    | none => exact ⟨_, _, _, .senderMissing hl, leads_here over_idle⟩
    | some h => exact ⟨_, _, _, .senderFound hl, (leads_receiver fun _ h => h rfl).1⟩
  | publish msg => exact leads_last rfl fun _ => ⟨_, _, .publish msg⟩
  | joinMembers id group =>
    have hgroups : (Pc.joinGroups id group).Leads True policy Pc.Over :=
      leads_last rfl fun _ => ⟨_, _, .joinGroups id group⟩
    exact leads_exec (Or.inr ⟨trivial, rfl⟩) fun _ _ => ⟨_, _, _, .joinMembers id group, hgroups⟩
  | joinGroups id group => exact leads_last rfl fun _ => ⟨_, _, .joinGroups id group⟩
  | leaveMembers id group =>
    have hgroups : (Pc.leaveGroups id group).Leads True policy Pc.Over :=
      leads_last rfl fun _ => ⟨_, _, .leaveGroups id group⟩
    exact leads_exec (Or.inl rfl) fun _ _ => ⟨_, _, _, .leaveMembers id group, hgroups⟩
  | leaveGroups id group => exact leads_last rfl fun _ => ⟨_, _, .leaveGroups id group⟩
  | lookupState id rtt => exact leads_update id rtt
  | record h rtt =>
    refine leads_exec (Or.inl rfl) fun sh hpol => ?_
    cases policy with
    | dropOnHighRtt => exact ⟨_, _, _, .record hpol, leads_here over_idle⟩
    | _ => exact hfit.elim
  | iter excluded msg =>
    exact leads_exec (Or.inl rfl) fun _ _ =>
      ⟨_, _, _, .iter .single, leads_scan hnone over_idle _ _⟩
  | scan => exact leads_scan hnone over_idle _ _
  | openGroup group excluded msg =>
    refine leads_exec (Or.inl rfl) fun sh _ => ?_
    cases hl : sh.clients.groupMembers.lookup group with
    | none => exact ⟨_, _, _, .groupMissing hl, leads_here over_idle⟩
    | some members =>
      exact ⟨_, _, _, .groupFound .single hl,
        leads_scanGroup (fun hev => (hs hev trivial).elim) over_idle _ _ _⟩
  | scanGroup => exact leads_scanGroup (fun hev => (hs hev trivial).elim) over_idle _ _ _
  | openGroups => exact leads_openGroups hnone over_idle _ _ _
  | scanGroups =>
    exact leads_scanGroups
      (fun ids => leads_filterGroups ids (leads_openGroups hnone over_idle _) _ _) _ _
  | filterGroups => exact leads_filterGroups _ (leads_openGroups hnone over_idle _) _ _
  | deliver => exact hdeliver hs
  | average => exact leads_average (unhindered_of hs) hfit over_idle (hdeliver hs)
  | send => exact (leads_receiver hs).1
  | wait => exact (leads_receiver hs).2
  | drop => exact leads_drop (unhindered_of hs) (hdeliver hs)
  | count => exact leads_count (unhindered_of hs) hfit (hdeliver hs)
  | reset => exact leads_exec (Or.inl rfl) fun _ _ => ⟨_, _, _, .reset, hdeliver hs⟩
  | evictRemove => exact leads_evictRemove trivial (unhindered_of hs hfit).2 (hdeliver hs)
  | evictCancel => exact leads_evictCancel trivial (unhindered_of hs hfit).2 (hdeliver hs) _ _
  | cleanTake =>
    obtain ⟨hheld, hk⟩ := leads_cont hfit hs
    exact leads_cleanTake trivial hheld hk _
  | cleanNext =>
    obtain ⟨hheld, hk⟩ := leads_cont hfit hs
    exact leads_cleanNext trivial hheld hk _ _
  | cleanRemove =>
    obtain ⟨hheld, hk⟩ := leads_cont hfit hs
    have hnext := leads_cleanNext trivial hheld hk
    exact leads_cleanRemove
      (leads_cleanCheck (leads_cleanDelete trivial hheld (hnext _ _)) (hnext _ _))
  | cleanCheck =>
    obtain ⟨hheld, hk⟩ := leads_cont hfit hs
    have hnext := leads_cleanNext trivial hheld hk
    exact leads_cleanCheck (leads_cleanDelete trivial hheld (hnext _ _)) (hnext _ _)
  | cleanDelete =>
    obtain ⟨hheld, hk⟩ := leads_cont hfit hs
    exact leads_cleanDelete trivial hheld (leads_cleanNext trivial hheld hk _ _)

/-- The call holds no guard. -/
def Pc.Bare (pc : Pc) : Prop := pc.guards = []

theorem bare_idle : Pc.idle.Bare := rfl

/-- Only an eviction cleans up for a delivery loop. -/
theorem cont_unheld (hfit : k.Fits policy) (hs : policy.Evicting → ¬ k.held ≠ none) :
    k.held = none := by
  cases k with
  | removal => rfl
  | resume d => exact not_not.mp (hs hfit)

theorem guards_held {held : Option GroupName} (h : held = none) : held.toList = [] := by simp [h]

/-- A delivery loop whose access leads on without an exclusive lock gives its guard back at the
end; if it keeps none, there is nothing to give back. -/
theorem leads_bare_loop (hguards : pc.guards = d.held.toList)
    (hs : policy.Evicting → ¬ d.held ≠ none)
    (hnext : Unhindered False policy d.held → (Pc.deliver d).Leads False policy Pc.Bare →
      pc.Leads False policy Pc.Bare) : pc.Leads False policy Pc.Bare := by
  by_cases hheld : d.held = none
  · exact leads_here (hguards.trans (guards_held hheld))
  · have hfree : Unhindered False policy d.held := fun hev => (hs hev hheld).elim
    exact hnext hfree (leads_deliver bare_idle hfree d.rest)

theorem leads_bare_receiver (hs : policy.Evicting → ¬ r.held ≠ none) :
    (Pc.send r).Leads False policy Pc.Bare ∧ (Pc.wait r).Leads False policy Pc.Bare := by
  cases r with
  | direct => exact ⟨leads_here rfl, leads_here rfl⟩
  | recipient h d =>
    exact ⟨leads_bare_loop (d := d) rfl hs fun hfree hd => (leads_recipient hfree hd).1,
      leads_bare_loop (d := d) rfl hs fun hfree hd => (leads_recipient hfree hd).2⟩

/-- A call gets rid of its guards without any exclusive lock, unless it evicts under a guard
of its own. -/
theorem leads_bare (hfit : pc.Fits policy) (hs : policy.Evicting → ¬ pc.Single) :
    pc.Leads False policy Pc.Bare := by
  cases pc with
  | scanGroup => exact leads_scanGroup (fun hev => (hs hev trivial).elim) bare_idle _ _ _
  | scanGroups => exact leads_scanGroups (fun ids => leads_here rfl) _ _
  | deliver d => exact leads_bare_loop (d := d) rfl hs fun _ hd => hd
  | average h d =>
    exact leads_bare_loop (d := d) rfl hs fun hfree hd => leads_average hfree hfit bare_idle hd
  | drop h d => exact leads_bare_loop (d := d) rfl hs leads_drop
  | count h d => exact leads_bare_loop (d := d) rfl hs fun hfree hd => leads_count hfree hfit hd
  | reset h d =>
    exact leads_bare_loop (d := d) rfl hs fun _ hd =>
      leads_exec (Or.inl rfl) fun _ _ => ⟨_, _, _, .reset, hd⟩
  | evictRemove h d => exact leads_here (guards_held (unhindered_of hs hfit).2)
  | evictCancel victim id d => exact leads_here (guards_held (unhindered_of hs hfit).2)
  | send => exact (leads_bare_receiver hs).1
  | wait => exact (leads_bare_receiver hs).2
  | cleanTake | cleanNext | cleanDelete => exact leads_here (guards_held (cont_unheld hfit hs))
  | cleanRemove =>
    have hheld := guards_held (cont_unheld hfit hs)
    exact leads_cleanRemove (leads_cleanCheck (leads_here hheld) (leads_here hheld))
  | cleanCheck =>
    have hheld := guards_held (cont_unheld hfit hs)
    exact leads_cleanCheck (leads_here hheld) (leads_here hheld)
  | _ => exact leads_here rfl

theorem single_cont (h : k.pc.Single) : k.held ≠ none := by
  cases k with
  | removal => exact h.elim
  | resume => exact h

theorem single_firstAccess (h : (policy.firstAccess h d).Single) : d.held ≠ none := by
  cases policy <;> exact h

theorem single_afterDrop (h : (policy.afterDrop h d).Single) : d.held ≠ none := by
  cases policy <;> exact h

theorem single_accepted (h : (r.accepted policy).Single) : r.held ≠ none := by
  cases r with
  | direct => exact h.elim
  | recipient => cases policy <;> exact h

theorem single_refused (h : (r.refused policy).Single) : r.held ≠ none := by
  cases r with
  | direct => exact h.elim
  | recipient => cases policy <;> exact h

/-- No access turns another call into a broadcast to a single group. -/
theorem exec_single (hx : Exec sh pc e sh' pc') (h : pc'.Single) : pc.Single := by
  cases hx with
  | @next held msg k rest => exact single_firstAccess (d := ⟨held, msg, rest⟩) h
  | drop => exact single_afterDrop h
  | accept | resume => exact single_accepted h
  | refuse | disconnect => exact single_refused h
  | cleanNothing | cleanDone => exact single_cont h
  | groupFound | groupScanned | scanGroup | lookupMember => trivial
  | senderFound => exact (h rfl).elim
  | scanned | groupsDone => exact (h rfl).elim
  | averageHigh | averageLow | suspend | late | countBelow | countReached | reset | evictFound
  | evictMissing | evictCancel | cleanTaken | cleanFound | cleanMissing | cleanRemove
  | cleanEmpty | cleanKept | cleanDelete => exact h
  | _ => exact h.elim

/-- The channels have room, every call fits the policy, and no broadcast evicts under a guard
of its own. -/
structure Calls.Tame (s : Calls Task) : Prop where
  roomy : s.shared.Roomy
  fits : s.AllFit
  unheld : s.shared.clients.policy.Evicting → ∀ t, ¬ (s.pc t).Single

theorem tame_step (hs : s.Tame) (h : CallStep s l s') (hl : l.Quiet) : s'.Tame := by
  have hkeeps := step_persists h
  refine ⟨hkeeps.roomy hs.roomy, allFit_step h hs.fits, fun hev u hsingle => ?_⟩
  rw [hkeeps.policy] at hev
  refine hs.unheld hev u ?_
  cases step_turn h u with
  | other _ hpc => exact hpc ▸ hsingle
  | exec _ hx => exact exec_single hx (by simpa using hsingle)
  | call | abort => exact hl.elim

theorem tame_run (hs : s.Tame) (h : (callSystem Task).Run s xs s') (hxs : ∀ l ∈ xs, l.Quiet) :
    s'.Tame := by
  induction h with
  | refl => exact hs
  | step hstep _ ih =>
    exact ih (tame_step hs hstep (hxs _ List.mem_cons_self))
      fun l hl => hxs l (List.mem_cons_of_mem _ hl)

/-- Where each call alone can get to `P`, all calls of a finite set can, one after another. -/
theorem sweep {I : Calls Task → Prop}
    (hone : ∀ s, I s → ∀ t, ∃ xs s', (callSystem Task).Run s xs s' ∧ (∀ l ∈ xs, l.Quiet) ∧
      I s' ∧ P (s'.pc t) ∧ ∀ u, u ≠ t → s'.pc u = s.pc u)
    (S : Finset Task) (hs : I s) :
    ∃ xs s', (callSystem Task).Run s xs s' ∧ (∀ l ∈ xs, l.Quiet) ∧ I s' ∧
      (∀ t ∈ S, P (s'.pc t)) ∧ ∀ u ∉ S, s'.pc u = s.pc u := by
  induction S using Finset.induction_on with
  | empty => exact ⟨[], s, .refl, by simp, hs, by simp, fun _ _ => rfl⟩
  | insert t S ht ih =>
    obtain ⟨xs, s₁, hrun, hxs, hi, hdone, hrest⟩ := ih
    obtain ⟨ys, s₂, hrun', hys, hi', hdone', hrest'⟩ := hone s₁ hi t
    refine ⟨xs ++ ys, s₂, hrun.append hrun', ?_, hi', ?_, ?_⟩
    · intro l hl
      exact (List.mem_append.mp hl).elim (hxs l) (hys l)
    · intro u hu
      by_cases hut : u = t
      · exact hut ▸ hdone'
      · rw [hrest' u hut]
        exact hdone u (Finset.mem_of_mem_insert_of_ne hu hut)
    · intro u hu
      rw [Finset.mem_insert, not_or] at hu
      rw [hrest' u hu.1, hrest u hu.2]

omit [DecidableEq Task] in
/-- Only the calls of `S` are in progress. -/
def Calls.Within (s : Calls Task) (S : Finset Task) : Prop := ∀ t ∉ S, s.pc t = .idle

theorem within_goto {S : Finset Task} (hs : s.Within S) (t : Task) (sh : Shared) (pc : Pc) :
    (s.goto t sh pc).Within (insert t S) := by
  intro u hu
  rw [Finset.mem_insert, not_or] at hu
  rw [s.goto_pc_ne hu.1]
  exact hs u hu.2

/-- Only finitely many calls are in progress. -/
theorem busy_finite (h : (callSystem Task).Reachable Calls.Fresh s) : ∃ S, s.Within S := by
  refine h.invariant (I := fun s => ∃ S, s.Within S) ?_ fun s hs => ⟨∅, fun t _ => hs.2 t⟩
  rintro s l s' hstep ⟨S, hS⟩
  cases hstep with
  | call | exec | abort => exact ⟨_, within_goto hS _ _ _⟩
  | recv | close | cancel => exact ⟨S, hS⟩

theorem tame_bare (hs : s.Tame) (t : Task) :
    ∃ xs s', (callSystem Task).Run s xs s' ∧ (∀ l ∈ xs, l.Quiet) ∧ s'.Tame ∧ (s'.pc t).Bare ∧
      ∀ u, u ≠ t → s'.pc u = s.pc u := by
  have hlead := leads_bare (hs.fits t) fun hev => hs.unheld hev t
  obtain ⟨sh', pc', halone, hbare⟩ := hlead s.shared rfl hs.roomy
  obtain ⟨xs, hrun, hxs⟩ := alone_run halone s rfl rfl False.elim
  refine ⟨xs, _, hrun, hxs, tame_run hs hrun hxs, by simpa using hbare, fun u hu => ?_⟩
  exact s.goto_pc_ne hu _ _

theorem tame_over (hs : s.Tame) (hbare : ∀ t, (s.pc t).Bare) (t : Task) :
    ∃ xs s', (callSystem Task).Run s xs s' ∧ (∀ l ∈ xs, l.Quiet) ∧
      (s'.Tame ∧ ∀ t, (s'.pc t).Bare) ∧ (s'.pc t).Over ∧ ∀ u, u ≠ t → s'.pc u = s.pc u := by
  have hlead := leads_idle (hs.fits t) fun hev => hs.unheld hev t
  obtain ⟨sh', pc', halone, hover⟩ := hlead s.shared rfl hs.roomy
  obtain rfl : pc' = .idle := hover
  obtain ⟨xs, hrun, hxs⟩ := alone_run halone s rfl rfl fun _ u _ => hbare u
  refine ⟨xs, _, hrun, hxs, ⟨tame_run hs hrun hxs, ?_⟩, goto_pc _ _ _ _, fun u hu => ?_⟩
  · exact forall_goto (P := fun _ pc => pc.Bare) _ bare_idle fun u _ => hbare u
  · exact s.goto_pc_ne hu _ _

/-- From every reachable state the calls in progress can all come to their end by accesses of
theirs and by receivers that take messages, unless a policy that evicts meets a broadcast to a
single group: first every call gives its guards back, then one call after another ends. -/
theorem calls_complete (h : (callSystem Task).Reachable Calls.Fresh s)
    (hroomy : s.shared.Roomy)
    (hunheld : s.shared.clients.policy.Evicting → ∀ t, ¬ (s.pc t).Single) :
    ∃ xs s', (callSystem Task).Run s xs s' ∧ (∀ l ∈ xs, l.Quiet) ∧ s'.Quiescent := by
  obtain ⟨S, hS⟩ := busy_finite h
  have htame : s.Tame := ⟨hroomy, allFit_reachable h, hunheld⟩
  obtain ⟨xs, s₁, hrun, hxs, htame₁, hbare, hrest⟩ :=
    sweep (P := Pc.Bare) (fun _ hs t => tame_bare hs t) S htame
  have hbare₁ : ∀ t, (s₁.pc t).Bare := by
    intro t
    by_cases ht : t ∈ S
    · exact hbare t ht
    · rw [hrest t ht, hS t ht]
      exact bare_idle
  obtain ⟨ys, s₂, hrun', hys, -, hover, hrest'⟩ :=
    sweep (P := Pc.Over) (I := fun s => s.Tame ∧ ∀ t, (s.pc t).Bare)
      (fun _ hs t => tame_over hs.1 hs.2 t) S ⟨htame₁, hbare₁⟩
  refine ⟨xs ++ ys, s₂, hrun.append hrun', ?_, fun t => ?_⟩
  · intro l hl
    exact (List.mem_append.mp hl).elim (hxs l) (hys l)
  · by_cases ht : t ∈ S
    · exact hover t ht
    · rw [hrest' t ht, hrest t ht, hS t ht]

/-- A broadcast that waits with its guard held for a full queue, and a join that waits for the
guard. -/
theorem waiting_join : ∃ s : Calls Bool, ∃ d, d.held = some "g" ∧
    (callSystem Bool).Reachable Calls.Fresh s ∧ s.shared.Roomy ∧
      s.shared.clients.policy = .block ∧ s.pc false = .wait (.recipient 0 d) ∧
      s.pc true = .joinMembers "b" "g" ∧
      s.shared.Full ((Receiver.recipient 0 d).sender s.shared.clients) := by
  obtain ⟨xs, c, hrun, -, hfull⟩ := fullMember_run
  obtain ⟨ys, c', hrun', -, hsh, hidle, hsend⟩ := broadcast_sends hfull
  let r : Receiver := .recipient 0 ⟨some "g", .text "news", []⟩
  have hfull' : c'.shared.Full (r.sender c'.shared.clients) := hsh ▸ hfull.full
  have hsuspend : CallStep c' (.exec false (.suspend r)) (c'.goto false c'.shared (.wait r)) :=
    .at hsend (granted_of_free (by simp [hsend, Pc.exclusive])) (.suspend hfull'.1)
  have hidle' : (c'.goto false c'.shared (.wait r)).pc true = .idle := by
    simp [Calls.goto, hidle]
  have hreach : (callSystem Bool).Reachable Calls.Fresh
      ((c'.goto false c'.shared (.wait r)).goto true c'.shared (.joinMembers "b" "g")) :=
    ⟨ownShard, ownShard_fresh, _, (hrun.append hrun').append <|
      .step hsuspend <| .single (.call (.addToGroup "b" "g") hidle')⟩
  have hkeeps : (callSystem Bool).Preserves fun s => s.shared.Roomy :=
    fun _ _ _ hstep hs => (step_persists hstep).roomy hs
  have hstart : ownShard.shared.Roomy := fun _ => Nat.one_pos
  have hroomy : c'.shared.Roomy :=
    (hrun.append hrun').invariant (I := fun s => s.shared.Roomy) hkeeps hstart
  refine ⟨_, _, rfl, hreach, hroomy, ?_, ?_, goto_pc _ _ _ _, hfull'⟩
  · simp [hsh, hfull.policy]
  · simp [Calls.goto, r]

theorem calls_complete_waiting : ∃ s : Calls Bool, (∃ r, s.pc false = .wait r) ∧
    s.pc true = .joinMembers "b" "g" ∧
      ∃ xs s', (callSystem Bool).Run s xs s' ∧ (∀ l ∈ xs, l.Quiet) ∧ s'.Quiescent := by
  obtain ⟨s, d, -, hreach, hroomy, hpolicy, hwait, hjoin, -⟩ := waiting_join
  refine ⟨s, ⟨_, hwait⟩, hjoin, calls_complete hreach hroomy ?_⟩
  simp [hpolicy, BroadcastPolicy.Evicting, BroadcastPolicy.Counts, BroadcastPolicy.Samples]

end AxumSignal

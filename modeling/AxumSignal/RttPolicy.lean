import AxumSignal.RttWindow
import AxumSignal.Settlement

/-! What `DropOnHighRtt` decides at each delivery, as a function of the round-trip times
reported so far. -/
namespace AxumSignal

open Transition LTS Window

variable {env : CallEnv} {held : Option GroupName} {msg : Message} {w w' v v' : World}
  {s s' : InMemoryWsClients} {c : ConnId} {h k : Handle} {op : Op} {maxRtt n : Nat}
  {rtts : List Nat} {calls : List (CallEnv × Op)} {shard : GroupName → Nat}
  {pre post : List Handle}

/-- The round-trip times recorded for `c`, after one more call. -/
def Op.report (c : ConnId) (rtts : List Nat) : Op → List Nat
  | .add id _ _ _ => if id = c then [] else rtts
  | .updateRtt id rtt => if id = c then rtts ++ [rtt] else rtts
  | _ => rtts

/-- The round-trip times reported for `c` since it was last added. -/
def reported (c : ConnId) (calls : List (CallEnv × Op)) : List Nat :=
  calls.foldl (fun rtts call => call.2.report c rtts) []

theorem reported_snoc (c : ConnId) (calls : List (CallEnv × Op)) (call : CallEnv × Op) :
    reported c (calls ++ [call]) = call.2.report c (reported c calls) := by
  simp [reported]

/-- The window behind every registration is the end of what was reported for it. -/
structure InMemoryWsClients.Windowed (s : InMemoryWsClients) (maxRtt n : Nat)
    (rtts : ConnId → List Nat) : Prop where
  policy : s.policy = .dropOnHighRtt maxRtt n
  samples : ∀ c k, s.connections.lookup c = some k →
    (s.states k).rttSamples = (rtts c).rtake n

theorem windowed_new (maxRtt n : Nat) (shard : GroupName → Nat) :
    (InMemoryWsClients.new (.dropOnHighRtt maxRtt n) shard).Windowed maxRtt n fun _ => [] where
  policy := rfl
  samples c k h := by simp [InMemoryWsClients.new] at h

theorem TouchesOnly.windowed {rs : List Handle} {gone : List ConnId} {rtts : ConnId → List Nat}
    (h : TouchesOnly rs gone s s') (hs : s.Windowed maxRtt n rtts) :
    s'.Windowed maxRtt n rtts where
  policy := h.policy.trans hs.policy
  samples c k hl := by
    rw [h.connections] at hl
    rw [h.rttSamples]
    split at hl
    · simp at hl
    · exact hs.samples c k hl

theorem windowed_add {rtts : ConnId → List Nat} (hs : w.clients.Windowed maxRtt n rtts)
    (id : ConnId) (sender : Sender) (cancel : CancelToken) (onDrop : OnDropFn) :
    (add w id sender cancel onDrop).clients.Windowed maxRtt n
      fun c => (Op.add id sender cancel onDrop).report c (rtts c) where
  policy := hs.policy
  samples c k hl := by
    simp only [add, set_clients, InMemoryWsClients.insertConnection] at hl ⊢
    by_cases hc : c = id
    · subst hc
      obtain rfl : w.clients.allocated = k := by simpa using hl
      simp [Op.report]
    · rw [Finmap.lookup_insert_of_ne _ hc] at hl
      have hne : k ≠ w.clients.allocated := Nat.ne_of_lt (w.clients.key_allocated c k hl)
      simpa [hne, Op.report, Ne.symm hc] using hs.samples c k hl

theorem windowed_updateRtt {rtts : ConnId → List Nat} (hn : 0 < n)
    (hs : w.clients.Windowed maxRtt n rtts) (id : ConnId) (rtt : Nat) :
    (updateRtt w id rtt).clients.Windowed maxRtt n
      fun c => (Op.updateRtt id rtt).report c (rtts c) := by
  cases hl : w.clients.connections.lookup id with
  | none =>
    simp only [updateRtt, hs.policy, hl]
    refine ⟨hs.policy, fun c k hc => ?_⟩
    have hne : id ≠ c := by
      rintro rfl
      simp [hl] at hc
    simpa [Op.report, hne] using hs.samples c k hc
  | some h =>
    simp only [updateRtt, hs.policy, hl, set_clients]
    refine ⟨hs.policy, fun c k hc => ?_⟩
    simp only [InMemoryWsClients.setRttSamples] at hc ⊢
    by_cases hk : k = h
    · subst hk
      obtain rfl : id = c := (w.clients.key_id id k hl).symm.trans (w.clients.key_id c k hc)
      simp only [Function.update_self, Op.report, if_true, pushSample_eq, hs.samples id k hl]
      exact slide_rtake hn (rtts id) rtt
    · have hne : id ≠ c := by
        rintro rfl
        exact hk (Option.some.inj (hc.symm.trans hl))
      simpa [hk, Op.report, hne] using hs.samples c k hc

/-- The step lemma: every call that returns keeps the windows in step with the reports. -/
theorem windowed_call {rtts : ConnId → List Nat} (hn : 0 < n)
    (hs : w.clients.Windowed maxRtt n rtts) (hok : op.exec env w = .ok w') :
    w'.clients.Windowed maxRtt n fun c => op.report c (rtts c) := by
  cases op with
  | broadcastExcept | broadcastGroup | broadcastGroupExcept | broadcastGroups =>
    obtain ⟨blocks, _, _, htouch, _⟩ := broadcast_settles (by exact trivial) hok
    exact htouch.windowed hs
  | add id sender cancel onDrop =>
    obtain rfl := Except.ok.inj hok
    exact windowed_add hs id sender cancel onDrop
  | remove id =>
    obtain rfl := Except.ok.inj ((remove_ok env w id).symm.trans hok)
    exact (touchesOnly_without env w.clients id).windowed hs
  | unicast id msg =>
    obtain rfl := Except.ok.inj hok
    rw [(performed_unicast env w id msg).2]
    exact hs
  | broadcast msg =>
    obtain rfl := Except.ok.inj hok
    cases msg <;> exact ⟨hs.policy, hs.samples⟩
  | addToGroup | removeFromGroup =>
    obtain rfl := Except.ok.inj hok
    exact ⟨hs.policy, hs.samples⟩
  | updateRtt id rtt =>
    obtain rfl := Except.ok.inj hok
    exact windowed_updateRtt hn hs id rtt

/-- The run lemma: after any calls the window of a connection is the end of its reports. -/
theorem windowed_serial (hn : 0 < n)
    (hrun : serial.Run ⟨.new (.dropOnHighRtt maxRtt n) shard, []⟩ calls w) :
    w.clients.Windowed maxRtt n fun c => reported c calls := by
  refine hrun.history (H := fun ys w => w.clients.Windowed maxRtt n fun c => reported c ys)
    (windowed_new maxRtt n shard) fun ys u call v hok hu => ?_
  simp only [reported_snoc]
  exact windowed_call hn hu hok

/-- Some round-trip time was reported, and the mean of the last `n`, rounded down, is above
`maxRtt`. -/
def HighRtt (maxRtt n : Nat) (rtts : List Nat) : Prop :=
  rtts ≠ [] ∧ maxRtt < (rtts.rtake n).sum / min rtts.length n

theorem length_rtake (n : Nat) (rtts : List Nat) : (rtts.rtake n).length = min rtts.length n := by
  simp only [List.rtake, List.length_drop]
  omega

/-- The average neither overflows nor divides by zero, and compares as the mean does. -/
theorem average_decides (maxRtt : Nat) (hn : 1 ≤ n) (hn' : n < 2 ^ 32)
    (hfit : (rtts.rtake n).sum ≤ durationMax) :
    ∃ avg, avgRtt (rtts.rtake n) = some avg ∧
      (avg.any (· > maxRtt) = true ↔ HighRtt maxRtt n rtts) := by
  have hlen := length_rtake n rtts
  by_cases hne : rtts = []
  · subst hne
    exact ⟨none, by simp [avgRtt], by simp [HighRtt]⟩
  · have hpos : 0 < rtts.length := List.length_pos_iff.mpr hne
    have hempty : (rtts.rtake n).isEmpty = false := by
      rw [List.isEmpty_eq_false_iff, ← List.length_pos_iff]
      omega
    have hmod : (rtts.rtake n).length % 2 ^ 32 = min rtts.length n := by
      rw [hlen]
      exact Nat.mod_eq_of_lt (by omega)
    have hdiv : ¬ (durationMax < (rtts.rtake n).sum ∨ min rtts.length n = 0) := by omega
    refine ⟨some ((rtts.rtake n).sum / min rtts.length n), ?_, by simp [HighRtt, hne]⟩
    simp only [avgRtt, hempty, Bool.false_eq_true, if_false, hmod, if_neg hdiv]

/-- The delivery has reported the drop, cancelled the token, unregistered the connection and
taken it out of all groups, and nothing was enqueued. -/
structure Ousted (k : Handle) (v v' : World) : Prop where
  effects : v'.effects = v.effects ++ [.attempt k,
    .onDrop (v.clients.states k).onDrop (v.clients.states k).id,
    .evict (v.clients.states k).id, .cancel (v.clients.states k).cancel]
  unregistered : v'.clients.connections.lookup (v.clients.states k).id = none
  groupless : v'.clients.connectionGroups.lookup (v.clients.states k).id = none
  nowhere : ∀ g, (v.clients.states k).id ∉ v'.clients.groupMembers.values g

/-- The delivery to `k` computes an average; it ousts `k` if its reports are high, and sends
normally if not. -/
structure Decides (env : CallEnv) (held : Option GroupName) (msg : Message) (maxRtt n : Nat)
    (rtts : List Nat) (v : World) (k : Handle) : Prop where
  computes : ¬ AveragePanics v.clients k
  ousts : HighRtt maxRtt n rtts → ∃ v', sendWithPolicy env held msg v k = .ok v' ∧ Ousted k v v'
  sends : ¬ HighRtt maxRtt n rtts → sendWithPolicy env held msg v k =
    .ok (sendIgnoringError env msg (v.emit (.attempt k)) k)

/-- The clean-up after the eviction of `k` deletes a group on a shard that the call guards. -/
def CleanupLocks (held : Option GroupName) (s : InMemoryWsClients) (k : Handle) : Prop :=
  ∃ g ∈ s.connectionGroups.values (s.states k).id, LocksSelf held s (s.states k).id g

/-- A registration that a delivery has come to, with its window. -/
structure Due (s : InMemoryWsClients) (maxRtt n : Nat) (rtts : List Nat) (k : Handle) :
    Prop where
  policy : s.policy = .dropOnHighRtt maxRtt n
  samples : (s.states k).rttSamples = rtts.rtake n
  found : s.connections.lookup (s.states k).id = some k
  indexed : s.Indexed

theorem due_computes (hd : Due v.clients maxRtt n rtts k) (hn : 1 ≤ n) (hn' : n < 2 ^ 32)
    (hfit : (rtts.rtake n).sum ≤ durationMax) : ¬ AveragePanics v.clients k := by
  obtain ⟨avg, havg, _⟩ := average_decides maxRtt hn hn' hfit
  simp [AveragePanics, hd.policy, hd.samples, havg]

theorem sendWithPolicy_low (hd : Due v.clients maxRtt n rtts k) (hn : 1 ≤ n) (hn' : n < 2 ^ 32)
    (hfit : (rtts.rtake n).sum ≤ durationMax) (hlow : ¬ HighRtt maxRtt n rtts) :
    sendWithPolicy env held msg v k =
      .ok (sendIgnoringError env msg (v.emit (.attempt k)) k) := by
  obtain ⟨avg, havg, hany⟩ := average_decides maxRtt hn hn' hfit
  have hfalse : avg.any (· > maxRtt) = false := by simpa using hany.not.mpr hlow
  simp only [sendWithPolicy, emit_clients, hd.policy, hd.samples, havg, hfalse,
    Bool.false_eq_true, if_false]

theorem sendWithPolicy_high (hd : Due v.clients maxRtt n rtts k) (hn : 1 ≤ n) (hn' : n < 2 ^ 32)
    (hfit : (rtts.rtake n).sum ≤ durationMax) (hhigh : HighRtt maxRtt n rtts) :
    sendWithPolicy env held msg v k = evictConnection env held ((v.emit (.attempt k)).emit
      (.onDrop (v.clients.states k).onDrop (v.clients.states k).id)) (v.clients.states k).id := by
  obtain ⟨avg, havg, hany⟩ := average_decides maxRtt hn hn' hfit
  simp only [sendWithPolicy, emit_clients, hd.policy, hd.samples, havg, hany.mpr hhigh, if_true]

theorem ousted_of_done (hd : Due v.clients maxRtt n rtts k)
    (hok : evictConnection env held ((v.emit (.attempt k)).emit
      (.onDrop (v.clients.states k).onDrop (v.clients.states k).id)) (v.clients.states k).id =
        .ok v') : Ousted k v v' := by
  obtain rfl := evictConnection_done (by exact hd.found) hok
  refine ⟨by simp, by simp, by simp, fun g hin => ?_⟩
  obtain ⟨hm, hnot⟩ := mem_without_groupMembers.mp hin
  exact hnot ⟨rfl, (hd.indexed g _).mp hm⟩

/-- A delivery decides by the reports, exactly if they are not high or the clean-up does not
wait for the call's own guard. -/
theorem decides_due_iff (env : CallEnv) (held : Option GroupName) (msg : Message)
    (hd : Due v.clients maxRtt n rtts k) (hn : 1 ≤ n) (hn' : n < 2 ^ 32)
    (hfit : (rtts.rtake n).sum ≤ durationMax) :
    Decides env held msg maxRtt n rtts v k ↔
      ¬ (HighRtt maxRtt n rtts ∧ CleanupLocks held v.clients k) := by
  constructor
  · rintro hdec ⟨hhigh, hlocks⟩
    obtain ⟨v', hok, _⟩ := hdec.ousts hhigh
    rw [sendWithPolicy_high hd hn hn' hfit hhigh] at hok
    obtain ⟨w', g, hblock⟩ := evictConnection_blocked env (w := (v.emit (.attempt k)).emit
      (.onDrop (v.clients.states k).onDrop (v.clients.states k).id)) hlocks
    simp [hblock] at hok
  · intro hfree
    refine ⟨due_computes hd hn hn' hfit, fun hhigh => ?_, sendWithPolicy_low hd hn hn' hfit⟩
    have hno : ∀ g ∈ v.clients.connectionGroups.values (v.clients.states k).id,
        ¬ LocksSelf held v.clients (v.clients.states k).id g :=
      fun g hg hl => hfree ⟨hhigh, g, hg, hl⟩
    rw [sendWithPolicy_high hd hn hn' hfit hhigh]
    obtain ⟨es, _, _, hok⟩ := evictConnection_ok env (w := (v.emit (.attempt k)).emit
      (.onDrop (v.clients.states k).onDrop (v.clients.states k).id)) hno
    exact ⟨_, hok, ousted_of_done hd hok⟩

/-- A delivery of a broadcast meets its recipient as the calls before have left it. -/
theorem due_delivery (hn : 0 < n)
    (hrun : serial.Run ⟨.new (.dropOnHighRtt maxRtt n) shard, []⟩ calls w)
    (hm : op.message = some msg) (hrs : op.snapshot env w.clients = pre ++ k :: post)
    (hpre : deliver env held msg w pre = .ok v) :
    Due v.clients maxRtt n (reported (w.clients.states k).id calls) k ∧
      v.clients.states k = w.clients.states k := by
  have hwin := windowed_serial hn hrun
  have hdist := distinct_snapshot env w.clients op
  have hmem : ∀ h ∈ pre ++ k :: post, w.clients.connections.lookup (w.clients.states h).id =
      some h := fun h hh => registered_snapshot hm (hrs ▸ hh)
  rw [hrs, Distinct, List.map_append, List.nodup_append] at hdist
  obtain ⟨hdpre, _, hdisj⟩ := hdist
  have hk := hmem k (by simp)
  obtain ⟨blocks, _, hall, htouch, _⟩ := settles_deliver hdpre
    (fun h hh => hmem h (List.mem_append_left _ hh)) rfl (fun _ _ => rfl) hpre
  have hnew : ∀ h ∈ pre, (w.clients.states h).id ≠ (w.clients.states k).id :=
    fun h hh => hdisj _ (List.mem_map_of_mem hh) _ (by simp)
  have hst : v.clients.states k = w.clients.states k :=
    htouch.states k fun hin => hnew k hin rfl
  have hkept : (w.clients.states k).id ∉ evictions blocks.flatten := by
    intro hin
    obtain ⟨h, hh, hid⟩ := evictions_settled hall hin
    exact hnew h hh hid
  refine ⟨⟨htouch.policy.trans hwin.policy, ?_, ?_, htouch.indexed ?_⟩, hst⟩
  · rw [hst]
    exact hwin.samples _ k hk
  · rw [hst, htouch.connections, if_neg hkept, hk]
  · exact indexed_serial (indexed_new _ shard) hrun

/-- After any calls, each delivery of a broadcast that is reached ousts its recipient or sends
normally, as the reports for it since it was last added demand, exactly if they do not demand
an eviction whose clean-up deletes a group on a shard that the broadcast itself guards. -/
theorem rtt_decides_iff (hn : 1 ≤ n) (hn' : n < 2 ^ 32)
    (hrun : serial.Run ⟨.new (.dropOnHighRtt maxRtt n) shard, []⟩ calls w)
    (hm : op.message = some msg) (hrs : op.snapshot env w.clients = pre ++ k :: post)
    (hpre : deliver env op.guardedGroup msg w pre = .ok v)
    (hfit : ((reported (w.clients.states k).id calls).rtake n).sum ≤ durationMax) :
    Decides env op.guardedGroup msg maxRtt n (reported (w.clients.states k).id calls) v k ↔
      ¬ (HighRtt maxRtt n (reported (w.clients.states k).id calls) ∧
        CleanupLocks op.guardedGroup v.clients k) :=
  decides_due_iff env _ msg (due_delivery hn hrun hm hrs hpre).1 hn hn' hfit

/-- One connection that has been slow once. -/
def slowConnection : World :=
  updateRtt (oneConnection (.dropOnHighRtt second 4)) "c" (2 * second)

/-- A broadcast to a slow connection ousts it. -/
theorem slow_connection_ousted : ∃ v', sendWithPolicy lateEnv none (.text "hello")
    slowConnection 0 = .ok v' ∧ Ousted 0 slowConnection v' := by
  have hsnap : (Op.broadcastExcept [] (some (.text "hello"))).snapshot lateEnv
      slowConnection.clients = [] ++ 0 :: [] :=
    oneConnection_snapshot lateEnv (.dropOnHighRtt second 4) (.text "hello")
  have hrun : serial.Run ⟨.new (.dropOnHighRtt second 4) fun _ => 0, []⟩
      [(lateEnv, .add "c" "tx" "token" "drop"), (lateEnv, .updateRtt "c" (2 * second))]
      slowConnection := .step rfl <| .single rfl
  have hdec := (rtt_decides_iff (by decide) (by decide) hrun rfl hsnap deliver_nil
    (by decide)).mpr fun h => by
      obtain ⟨_, g, _, hl⟩ := h
      exact locksSelf_none _ _ _ hl
  exact hdec.ousts ⟨by decide, by decide⟩

/-- The only member of a group, slow as well. -/
def slowMember : World :=
  updateRtt (addToGroup (oneConnection (.dropOnHighRtt second 4)) "c" "g") "c" (2 * second)

/-- A broadcast to the group should oust its member, and waits for its own guard instead. -/
theorem slow_member_not_ousted : ∃ calls w' g,
    serial.Run ⟨.new (.dropOnHighRtt second 4) fun _ => 0, []⟩ calls slowMember ∧
    (Op.broadcastGroup "g" (some (.text "hello"))).snapshot lateEnv slowMember.clients = [0] ∧
    HighRtt second 4 (reported "c" calls) ∧
    sendWithPolicy lateEnv (some "g") (.text "hello") slowMember 0 = .error (.selfLock w' g) ∧
    ¬ Decides lateEnv (some "g") (.text "hello") second 4 (reported "c" calls) slowMember 0 := by
  have hrun : serial.Run ⟨.new (.dropOnHighRtt second 4) fun _ => 0, []⟩
      [(lateEnv, .add "c" "tx" "token" "drop"), (lateEnv, .addToGroup "c" "g"),
        (lateEnv, .updateRtt "c" (2 * second))] slowMember :=
    .step rfl <| .step rfl <| .single rfl
  have hsnap : (Op.broadcastGroup "g" (some (.text "hello"))).snapshot lateEnv
      slowMember.clients = [0] := by
    have hm : slowMember.clients.groupMembers.values "g" = {"c"} := by decide
    rw [Op.snapshot, hm, groupRecipients, IterOrder.list_singleton]
    decide
  have hlocks : CleanupLocks (some "g") slowMember.clients 0 :=
    ⟨"g", by decide, ⟨"g", rfl, rfl⟩, {"c"}, by decide, by decide⟩
  have hhigh : HighRtt second 4 [2 * second] := ⟨by decide, by decide⟩
  have hfit : (List.rtake [2 * second] 4).sum ≤ durationMax := by decide
  have hpre : deliver lateEnv none (.text "hello") slowMember [] = .ok slowMember := deliver_nil
  obtain ⟨hdue, _⟩ := due_delivery (by decide) hrun rfl hsnap hpre
  obtain ⟨w', g, hblock⟩ := evictConnection_blocked lateEnv (w := (slowMember.emit
    (.attempt 0)).emit (.onDrop "drop" "c")) hlocks
  refine ⟨_, w', g, hrun, hsnap, hhigh, ?_, fun hdec => ?_⟩
  · exact (sendWithPolicy_high hdue (by decide) (by decide) hfit hhigh).trans hblock
  · exact (decides_due_iff lateEnv _ _ hdue (by decide) (by decide) hfit).mp hdec
      ⟨hhigh, hlocks⟩

end AxumSignal

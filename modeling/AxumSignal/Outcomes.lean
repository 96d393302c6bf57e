import AxumSignal.Attempts
import AxumSignal.Delivery

/-! What becomes of each delivery that a policy broadcast attempts, among any other calls. -/
namespace AxumSignal

open Transition Calls LTS

variable {Task : Type} [DecidableEq Task] {s s' s₀ : Calls Task} {sh sh' : Shared}
  {pc pc' : Pc} {e : Event} {t : Task} {h : Handle} {d : Delivery} {op : Op}
  {l : CallLabel Task} {xs : List (CallLabel Task)} {msg : Message} {policy : BroadcastPolicy}

/-- The recipient that the access decides about. -/
def Event.settles : Event → Option Handle
  | .enqueue (.recipient h _) | .onDrop h => some h
  | _ => none

def CallLabel.settles (t : Task) : CallLabel Task → Option Handle
  | .exec u e => if u = t then e.settles else none
  | _ => none

/-- The recipients for which a call of `t` has enqueued its message or called `on_drop`. -/
def settledBy (t : Task) (xs : List (CallLabel Task)) : List Handle :=
  xs.filterMap (CallLabel.settles t)

def Receiver.current : Receiver → Option Handle
  | .direct _ _ => none
  | .recipient h _ => some h

/-- The recipient that a call is about to decide about. -/
def Pc.current : Pc → Option Handle
  | .average h _ | .drop h _ => some h
  | .send r | .wait r => r.current
  | _ => none

/-- What one access of a broadcast does to the delivery it is at. -/
inductive Decision (sh : Shared) (pc pc' : Pc) (e : Event) : Prop where
  | attempts {h : Handle} (he : e = .attempt h) (hpc : pc.current = none)
      (hpc' : pc'.current = some h)
  | decides {h : Handle} (he : e.settles = some h) (hpc : pc.current = some h)
      (hpc' : pc'.current = none)
  | gives (he : e.settles = none) (hne : ∀ h, e ≠ .attempt h) (hpc' : pc'.current = none)
      (hgone : ∀ h, pc.current = some h → sh.Gone h ∧ ¬ sh.clients.policy.Timed)
  | keeps (he : e.settles = none) (hne : ∀ h, e ≠ .attempt h) (hpc' : pc'.current = pc.current)
  | panics (he : e = .panic) (hpc' : pc' = .idle)

theorem settledBy_exec : settledBy t (xs ++ [.exec t e]) = settledBy t xs ++ e.settles.toList := by
  cases he : e.settles <;> simp [settledBy, CallLabel.settles, he]

theorem settledBy_other (hl : ∀ e, l ≠ .exec t e) : settledBy t (xs ++ [l]) = settledBy t xs := by
  have hnone : l.settles t = none := by
    cases l with
    | exec u e =>
      have hne : u ≠ t := by
        rintro rfl
        exact hl e rfl
      simp [CallLabel.settles, hne]
    | _ => rfl
  simp [settledBy, hnone]

theorem current_cont (k : Cont) : k.pc.current = none := by cases k <;> rfl

theorem current_firstAccess (policy : BroadcastPolicy) (h : Handle) (d : Delivery) :
    (policy.firstAccess h d).current = some h := by cases policy <;> rfl

theorem current_afterDrop (policy : BroadcastPolicy) (h : Handle) (d : Delivery) :
    (policy.afterDrop h d).current = none := by cases policy <;> rfl

theorem current_accepted (policy : BroadcastPolicy) (r : Receiver) :
    (r.accepted policy).current = none := by
  cases r <;> cases policy <;> rfl

/-- A closed channel ends the delivery, or leads to its `on_drop` call under a policy with a
timeout. -/
theorem current_refused (policy : BroadcastPolicy) (r : Receiver) :
    (r.refused policy).current = r.current ∨
      (r.refused policy).current = none ∧ (∀ h, r.current = some h → ¬ policy.Timed) := by
  cases r with
  | direct => exact Or.inl rfl
  | recipient h d =>
    cases policy with
    | block | dropOnHighRtt => exact Or.inr ⟨rfl, fun _ _ htimed => htimed⟩
    | dropMessage | dropConnection => exact Or.inl rfl

theorem exec_decision (hx : Exec sh pc e sh' pc') (hne : ∀ id m, pc ≠ .lookupSender id m) :
    Decision sh pc pc' e := by
  have hrefused : ∀ r : Receiver, (sh.chans (r.sender sh.clients)).closed = true →
      pc.current = r.current → Decision sh pc (r.refused sh.clients.policy) .access := by
    intro r hclosed hpc
    rcases current_refused sh.clients.policy r with hsame | ⟨hnone, huntimed⟩
    · exact .keeps rfl (by simp) (hsame.trans hpc.symm)
    · refine .gives rfl (by simp) hnone fun h hcur => ?_
      rw [hpc] at hcur
      cases r with
      | direct => simp [Receiver.current] at hcur
      | recipient k d =>
        obtain rfl : k = h := by simpa [Receiver.current] using hcur
        exact ⟨hclosed, huntimed k hcur⟩
  cases hx with
  | senderFound => exact (hne _ _ rfl).elim
  | next => exact .attempts rfl rfl (current_firstAccess _ _ _)
  | averagePanics => exact .panics rfl rfl
  | @accept r _ | @resume r _ =>
    cases r with
    | direct => exact .keeps rfl (by simp) rfl
    | recipient h d => exact .decides rfl rfl (current_accepted _ _)
  | refuse hclosed | disconnect hclosed => exact hrefused _ hclosed rfl
  | drop => exact .decides rfl rfl (current_afterDrop _ _ _)
  | cleanNothing | cleanDone => exact .keeps rfl (by simp) (current_cont _)
  | _ => exact .keeps rfl (by simp) rfl

/-- The message that a call broadcasts. -/
def Pc.message : Pc → Option Message
  | .iter _ msg | .scan _ msg _ _ _ | .openGroup _ _ msg | .scanGroup _ _ msg _ _ _ _
  | .openGroups _ msg _ _ | .scanGroups _ _ msg _ _ _ _ _ | .filterGroups _ _ msg _ _ => some msg
  | pc => pc.carries.map Delivery.msg

theorem message_start (hm : op.message = some msg) : op.start.message = some msg := by
  cases op with
  | broadcastExcept | broadcastGroup | broadcastGroupExcept | broadcastGroups =>
    obtain rfl : _ = some msg := hm
    rfl
  | _ => simp [Op.message] at hm

theorem message_cont (k : Cont) : k.pc.message = k.carries.map Delivery.msg := by
  cases k <;> rfl

theorem message_accepted (policy : BroadcastPolicy) (r : Receiver) :
    (r.accepted policy).message = r.carries.map Delivery.msg := by
  cases r <;> cases policy <;> rfl

theorem message_refused (policy : BroadcastPolicy) (r : Receiver) :
    (r.refused policy).message = r.carries.map Delivery.msg := by
  cases r <;> cases policy <;> rfl

theorem message_firstAccess (policy : BroadcastPolicy) (h : Handle) (d : Delivery) :
    (policy.firstAccess h d).message = some d.msg := by cases policy <;> rfl

theorem message_afterDrop (policy : BroadcastPolicy) (h : Handle) (d : Delivery) :
    (policy.afterDrop h d).message = some d.msg := by cases policy <;> rfl

/-- No access of a call changes the message it broadcasts, and it enqueues no other. -/
theorem exec_message (hx : Exec sh pc e sh' pc') :
    (∀ m, pc'.message = some m → pc.message = some m) ∧
      ∀ h d, e = .enqueue (.recipient h d) → pc.message = some d.msg := by
  cases hx with
  | accept | resume =>
    refine ⟨fun m hm => (message_accepted _ _).symm.trans hm, ?_⟩
    rintro h d ⟨⟩
    rfl
  | refuse | disconnect => exact ⟨fun m hm => (message_refused _ _).symm.trans hm, by simp⟩
  | cleanNothing | cleanDone => exact ⟨fun m hm => (message_cont _).symm.trans hm, by simp⟩
  | next =>
    refine ⟨fun m hm => ?_, by simp⟩
    rwa [message_firstAccess] at hm
  | drop =>
    refine ⟨fun m hm => ?_, by simp⟩
    rwa [message_afterDrop] at hm
  | delivered | averagePanics | groupMissing =>
    exact ⟨fun m hm => by simp [Pc.message, Pc.carries] at hm, by simp⟩
  | _ => exact ⟨fun m hm => hm, by simp⟩

/-- A recipient that gets neither the message nor an `on_drop` call: nobody drains its queue,
and the policy does not drop what it cannot send. -/
def Shared.Lost (sh : Shared) (h : Handle) : Prop := sh.Gone h ∧ ¬ sh.clients.policy.Timed

theorem Persists.lost (hp : Persists sh sh') (ha : h < sh.clients.allocated) (hl : sh.Lost h) :
    sh'.Lost h :=
  ⟨hp.gone ha hl.1, hp.policy ▸ hl.2⟩

/-- The account of a broadcast of `t` while it runs. -/
structure Settling (t : Task) (msg : Message) (xs : List (CallLabel Task)) (s : Calls Task) :
    Prop where
  order : (settledBy t xs ++ (s.pc t).current.toList).Sublist (attemptedBy t xs)
  message : ∀ m, (s.pc t).message = some m → m = msg
  sent : ∀ h d, .exec t (.enqueue (.recipient h d)) ∈ xs → d.msg = msg
  left : .abort t ∉ xs → .exec t .panic ∉ xs → ∀ h ∈ attemptedBy t xs,
    h ∈ settledBy t xs ∨ (s.pc t).current = some h ∨ s.shared.Lost h

theorem Settling.left_of_append (hs : Settling t msg xs s) (hno : .abort t ∉ xs ++ [l])
    (hpanic : .exec t .panic ∉ xs ++ [l]) (hh : h ∈ attemptedBy t xs) :
    h ∈ settledBy t xs ∨ (s.pc t).current = some h ∨ s.shared.Lost h :=
  hs.left (fun hin => hno (List.mem_append_left _ hin))
    (fun hin => hpanic (List.mem_append_left _ hin)) h hh

/-- Steps of other tasks leave the account as it is. -/
theorem Settling.other (hs : Settling t msg xs s) (hp : Persists s.shared s'.shared)
    (hatt : ∀ h ∈ attemptedBy t xs, h < s.shared.clients.allocated)
    (hl : ∀ e, l ≠ .exec t e) (hpc : s'.pc t = s.pc t) : Settling t msg (xs ++ [l]) s' where
  order := by
    rw [settledBy_other hl, attemptedBy_other fun h => hl _, hpc]
    exact hs.order
  message := hpc ▸ hs.message
  sent h d hin := by
    rcases List.mem_append.mp hin with hin | hin
    · exact hs.sent h d hin
    · exact (hl _ (List.mem_singleton.mp hin).symm).elim
  left hno hpanic h hh := by
    rw [attemptedBy_other fun h => hl _] at hh
    rw [settledBy_other hl, hpc]
    rcases hs.left_of_append hno hpanic hh with hset | hcur | hlost
    · exact Or.inl hset
    · exact Or.inr (Or.inl hcur)
    · exact Or.inr (Or.inr (hp.lost (hatt h hh) hlost))

/-- A call that is cut off, or over, decides about nobody. -/
theorem Settling.stop (hs : Settling t msg xs s) (hl : l = .abort t ∨ l = .exec t .panic)
    (hpc : s'.pc t = .idle) : Settling t msg (xs ++ [l]) s' := by
  have hsettled : settledBy t (xs ++ [l]) = settledBy t xs := by
    rcases hl with rfl | rfl
    · exact settledBy_other (by simp)
    · simp [settledBy_exec, Event.settles]
  have hattempted : attemptedBy t (xs ++ [l]) = attemptedBy t xs :=
    attemptedBy_other (by rcases hl with rfl | rfl <;> simp)
  refine ⟨?_, ?_, fun h d hin => ?_, fun hno hpanic => ?_⟩
  · rw [hsettled, hattempted, hpc]
    simpa [Pc.current] using (List.sublist_append_left _ _).trans hs.order
  · simp [hpc, Pc.message, Pc.carries]
  · rcases List.mem_append.mp hin with hin | hin
    · exact hs.sent h d hin
    · rcases hl with rfl | rfl <;> simp at hin
  · rcases hl with rfl | rfl
    · exact (hno (by simp)).elim
    · exact (hpanic (by simp)).elim

/-- No access brings another message into the account. -/
theorem Settling.messages (hs : Settling t msg xs s)
    (hmsg : (∀ m, (s'.pc t).message = some m → (s.pc t).message = some m) ∧
      ∀ h d, e = .enqueue (.recipient h d) → (s.pc t).message = some d.msg) :
    (∀ m, (s'.pc t).message = some m → m = msg) ∧
      ∀ h d, .exec t (.enqueue (.recipient h d)) ∈ xs ++ [.exec t e] → d.msg = msg := by
  refine ⟨fun m hm => hs.message m (hmsg.1 m hm), fun h d hin => ?_⟩
  rcases List.mem_append.mp hin with hin | hin
  · exact hs.sent h d hin
  · exact hs.message _ (hmsg.2 h d (by simpa [eq_comm] using hin))

/-- An access that attempts no delivery: it may decide about the current recipient, keep it, or
give it up where nobody drains its queue. -/
theorem Settling.quiet (hs : Settling t msg xs s) (hp : Persists s.shared s'.shared)
    (hatt : ∀ h ∈ attemptedBy t xs, h < s.shared.clients.allocated)
    (hmsg : (∀ m, (s'.pc t).message = some m → (s.pc t).message = some m) ∧
      ∀ h d, e = .enqueue (.recipient h d) → (s.pc t).message = some d.msg)
    (hne : ∀ h, e ≠ .attempt h)
    (horder : (e.settles.toList ++ (s'.pc t).current.toList).Sublist (s.pc t).current.toList)
    (hcur : ∀ h, (s.pc t).current = some h →
      e.settles = some h ∨ (s'.pc t).current = some h ∨ s.shared.Lost h) :
    Settling t msg (xs ++ [.exec t e]) s' := by
  have hsame : attemptedBy t (xs ++ [.exec t e]) = attemptedBy t xs :=
    attemptedBy_other fun h heq => hne h (by simpa using heq)
  obtain ⟨hmessage, hsent⟩ := hs.messages hmsg
  refine ⟨?_, hmessage, hsent, fun hno hpanic k hk => ?_⟩
  · rw [hsame, settledBy_exec, List.append_assoc]
    exact (horder.append_left _).trans hs.order
  · rw [hsame] at hk
    rw [settledBy_exec]
    have hkeep : s.shared.Lost k → s'.shared.Lost k := hp.lost (hatt k hk)
    rcases hs.left_of_append hno hpanic hk with hset | hnow | hlost
    · exact Or.inl (List.mem_append_left _ hset)
    · rcases hcur k hnow with hset | hnow | hlost
      · exact Or.inl (List.mem_append_right _ (by simp [hset]))
      · exact Or.inr (Or.inl hnow)
      · exact Or.inr (Or.inr (hkeep hlost))
    · exact Or.inr (Or.inr (hkeep hlost))

/-- An access that attempts the next delivery. -/
theorem Settling.attempt (hs : Settling t msg xs s) (hp : Persists s.shared s'.shared)
    (hatt : ∀ h ∈ attemptedBy t xs, h < s.shared.clients.allocated)
    (hmsg : (∀ m, (s'.pc t).message = some m → (s.pc t).message = some m) ∧
      ∀ k d, Event.attempt h = .enqueue (.recipient k d) → (s.pc t).message = some d.msg)
    (hpc : (s.pc t).current = none) (hpc' : (s'.pc t).current = some h) :
    Settling t msg (xs ++ [.exec t (.attempt h)]) s' := by
  obtain ⟨hmessage, hsent⟩ := hs.messages hmsg
  refine ⟨?_, hmessage, hsent, fun hno hpanic k hk => ?_⟩
  · have horder : (settledBy t xs).Sublist (attemptedBy t xs) := by
      simpa [hpc] using hs.order
    rw [attemptedBy_attempt, settledBy_exec, hpc']
    simpa only [Event.settles, Option.toList_none, Option.toList_some, List.append_nil] using
      horder.append_right [h]
  · rw [attemptedBy_attempt] at hk
    rcases List.mem_append.mp hk with hk | hk
    · rcases hs.left_of_append hno hpanic hk with hset | hcur | hlost
      · exact Or.inl (by simp [settledBy_exec, hset])
      · simp [hpc] at hcur
      · exact Or.inr (Or.inr (hp.lost (hatt k hk) hlost))
    · obtain rfl := List.mem_singleton.mp hk
      exact Or.inr (Or.inl hpc')

/-- An access of the broadcast itself. -/
theorem Settling.exec (hs : Settling t msg xs s) (hp : Persists s.shared s'.shared)
    (hatt : ∀ h ∈ attemptedBy t xs, h < s.shared.clients.allocated)
    (hmsg : (∀ m, (s'.pc t).message = some m → (s.pc t).message = some m) ∧
      ∀ h d, e = .enqueue (.recipient h d) → (s.pc t).message = some d.msg)
    (hx : Decision s.shared (s.pc t) (s'.pc t) e) : Settling t msg (xs ++ [.exec t e]) s' := by
  cases hx with
  | attempts he hpc hpc' =>
    subst he
    exact hs.attempt hp hatt hmsg hpc hpc'
  | decides he hpc hpc' =>
    have hne : ∀ k, e ≠ .attempt k := by
      rintro k rfl
      simp [Event.settles] at he
    refine hs.quiet hp hatt hmsg hne (by simp [he, hpc, hpc']) fun k hk => Or.inl ?_
    exact he.trans (hpc.symm.trans hk)
  | gives he hne hpc' hgone =>
    exact hs.quiet hp hatt hmsg hne (by simp [he, hpc']) fun k hk => Or.inr (Or.inr (hgone k hk))
  | keeps he hne hpc' =>
    exact hs.quiet hp hatt hmsg hne (by simp [he, hpc']) fun k hk => Or.inr (Or.inl (hpc'.trans hk))
  | panics he hpc' => exact hs.stop (Or.inr (he ▸ rfl)) hpc'

theorem not_unicast (hs : Informed t op s₀ xs s) (id : ConnId) (m : Message) :
    s.pc t ≠ .lookupSender id m := by
  intro hpc
  rcases hs.pos with ⟨hc, -⟩ | hd
  · rw [hpc] at hc
    exact hc
  · rw [hpc] at hd
    exact hd

/-- The run lemma: the account is kept at every moment. -/
theorem CallOf.settling (h : CallOf t op s₀ xs s) (hm : op.message = some msg) :
    Settling t msg xs s := by
  let s₁ := s₀.goto t s₀.shared op.start
  have hpc : s₁.pc t = op.start := s₀.goto_pc _ _ _
  have hstart : Settling t msg [] s₁ := by
    refine ⟨?_, fun m hm' => ?_, by simp, by simp [attemptedBy]⟩
    · have hnone : op.start.current = none := by
        unfold Op.start
        split <;> rfl
      simp [hpc, hnone, settledBy]
    · rw [hpc, message_start hm] at hm'
      exact (Option.some.inj hm').symm
  refine (h.run.history (H := fun ys u => (∀ op', .call t op' ∉ ys) →
    (callSystem Task).Run s₁ ys u ∧ Settling t msg ys u) (fun _ => ⟨.refl, hstart⟩) ?_ h.same).2
  intro ys u l w hstep hu hsame
  have hsame' : ∀ op', .call t op' ∉ ys := fun op' hin => hsame op' (List.mem_append_left _ hin)
  obtain ⟨hrun, hset⟩ := hu hsame'
  refine ⟨hrun.snoc hstep, ?_⟩
  have hinf : Informed t op s₁ ys u := CallOf.informed ⟨h.reached, h.start, hrun, hsame'⟩ hm
  have hatt : ∀ k ∈ attemptedBy t ys, k < u.shared.clients.allocated := fun k hk =>
    hinf.snapshot.allocated k (List.mem_append_left _ hk)
  have hp := step_persists hstep
  cases step_turn hstep t with
  | other hl hpc => exact hset.other hp hatt hl hpc
  | @call op' => exact (hsame op' (by simp)).elim
  | abort => exact hset.stop (Or.inl rfl) (u.goto_pc _ _ _)
  | exec hfree hx =>
    refine hset.exec hp hatt ?_ ?_
    all_goals rw [u.goto_pc]
    · exact exec_message hx
    · exact exec_decision hx (not_unicast hinf)

/-- A broadcast decides about each connection it attempts at most once, by enqueuing its own
message or by one `on_drop` call, in the order of the attempts. Once it has returned, those
about which it has not decided are lost. -/
theorem decided_once (h : CallOf t op s₀ xs s) (hm : op.message = some msg) :
    (settledBy t xs).Nodup ∧ (settledBy t xs).Sublist (attemptedBy t xs) ∧
      (∀ k d, .exec t (.enqueue (.recipient k d)) ∈ xs → d.msg = msg) ∧
      (s.pc t = .idle → .abort t ∉ xs → .exec t .panic ∉ xs →
        ∀ k ∈ attemptedBy t xs, k ∈ settledBy t xs ∨ s.shared.Lost k) := by
  have hset := h.settling hm
  have horder := (List.sublist_append_left _ _).trans hset.order
  have hnodup : (attemptedBy t xs).Nodup := (h.informed hm).snapshot.nodup.of_append_left
  refine ⟨hnodup.sublist horder, horder, hset.sent, fun hidle hno hpanic k hk => ?_⟩
  rcases hset.left hno hpanic k hk with hdone | hcur | hlost
  · exact Or.inl hdone
  · simp [hidle, Pc.current] at hcur
  · exact Or.inr hlost

/-- A broadcast to the only registered connection, which has room. -/
theorem decided_once_returned : ∃ s₀ xs s, CallOf false (.broadcastExcept [] (some (.text "news")))
    s₀ xs s ∧ settledBy false xs = [0] ∧ attemptedBy false xs = [0] ∧
      (settledBy false xs).Nodup ∧ (settledBy false xs).Sublist (attemptedBy false xs) ∧
      (∀ k d, .exec false (.enqueue (.recipient k d)) ∈ xs → d.msg = .text "news") ∧
      (s.pc false = .idle → .abort false ∉ xs → .exec false .panic ∉ xs →
        ∀ k ∈ attemptedBy false xs, k ∈ settledBy false xs ∨ s.shared.Lost k) := by
  have hcall : ∃ s₀ xs s, CallOf false (.broadcastExcept [] (some (.text "news"))) s₀ xs s ∧
      settledBy false xs = [0] ∧ attemptedBy false xs = [0] := by
    refine ⟨_, _, _, ⟨⟨idlePair .block, idlePair_fresh _, _,
      .step (.call (t := true) (.add "a" "txA" "tokenA" "dropA") rfl) <|
      .single (.exec (t := true) (granted_of_free rfl) (.insert "a" "txA" "tokenA" "dropA"))⟩, rfl,
      .step (.exec (t := false) (granted_of_free rfl) (.iter ⟨1, fun _ => 0⟩)) <|
      .step (.exec (t := false) (granted_of_free rfl) (.scan (by decide) (yields_only _ _))) <|
      .step (.exec (t := false) (granted_of_free rfl) (.scanned (by decide))) <|
      .step (.exec (t := false) (granted_of_free rfl) .next) <|
      .step (.exec (t := false) (granted_of_free rfl) (.accept ⟨by decide, by decide⟩)) <|
      .single (.exec (t := false) (granted_of_free rfl) .delivered), by simp⟩, rfl, rfl⟩
  obtain ⟨s₀, xs, s, h, hsettled, hattempted⟩ := hcall
  exact ⟨s₀, xs, s, h, hsettled, hattempted, decided_once h rfl⟩

end AxumSignal

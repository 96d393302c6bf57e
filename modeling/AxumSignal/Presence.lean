import AxumSignal.Endings
import AxumSignal.Progress

/-! Which connections of a hub are registered while they are served, with any handlers and any
policy. -/
namespace AxumSignal

open Transition Calls

variable {Req : Type} {decode : Message → Option Req} {s s' s₀ : Hub} {l : HubLabel}
  {xs : List HubLabel} {c id : ConnId} {g : GroupName} {e : Event} {pc pc' : Pc}
  {sh sh' : Shared} {t : HubTask} {pos : MainPos} {policy : BroadcastPolicy}

/-- With this step the task calls the operation. -/
def HubLabel.Calls (l : HubLabel) (t : HubTask) (op : Op) : Prop :=
  t.Runs op ∧ ∀ c n, t = .handler c n → l = .call c n op

/-- What the calls of all tasks keep: what every operation starts with, and every access
preserves. -/
theorem pcs_step {P : HubTask → Pc → Prop} (h : HubStep decode s l s')
    (hs : ∀ t, P t (s.calls.pc t)) (hidle : ∀ t, P t .idle)
    (hstart : ∀ t op, l.Calls t op → P t op.start)
    (hexec : ∀ t e sh pc, Exec s.calls.shared (s.calls.pc t) e sh pc → P t pc) :
    ∀ t, P t (s'.calls.pc t) := by
  cases h with
  | conn | writer | start | work | finish => exact hs
  | accept => exact forall_goto _ (hstart _ _ ⟨Or.inl rfl, by simp⟩) fun u _ => hs u
  | closed => exact forall_goto _ (hstart _ _ ⟨Or.inr (Or.inl rfl), by simp⟩) fun u _ => hs u
  | @frame d conn conn' msg n rtt =>
    rcases handled_calls (s := s.put d conn') rtt (handleFrame decode msg) with h | ⟨r, h⟩
    · rw [h]
      exact hs
    · rw [h]
      exact forall_goto _ (hstart _ (.updateRtt d r) ⟨Or.inr (Or.inr ⟨r, rfl⟩), by simp⟩)
        fun u _ => hs u
  | @call d n op _ _ hop =>
    exact forall_goto _ (hstart _ _ ⟨hop, by simp⟩) fun u _ => hs u
  | serve _ hx | exec _ _ hx | panic _ hx =>
    exact forall_goto _ (hexec _ _ _ _ hx) fun u _ => hs u
  | drop => exact forall_goto _ (hidle _) fun u _ => hs u

def Cont.unregistering : Cont → Option ConnId
  | .removal id => some id
  | .resume _ => none

/-- The connection that the call is to remove. -/
def Pc.unregistering : Pc → Option ConnId
  | .removeEntry id => some id
  | .cleanTake _ k | .cleanNext _ _ k | .cleanRemove _ _ _ k | .cleanCheck _ _ _ k
  | .cleanDelete _ _ _ k => k.unregistering
  | _ => none

theorem unregistering_cont (k : Cont) : k.pc.unregistering = k.unregistering := by cases k <;> rfl

theorem unregistering_start {op : Op} (h : op.start.unregistering = some id) : op = .remove id := by
  unfold Op.start at h
  split at h <;> simp_all [Pc.unregistering, Cont.unregistering]

theorem exec_unregistering (hx : Exec sh pc e sh' pc') (h : pc'.unregistering = some id) :
    pc.unregistering = some id := by
  cases hx with
  | cleanNothing | cleanDone => exact (unregistering_cont _).symm.trans h
  | next =>
    cases hp : sh.clients.policy <;> simp [hp, BroadcastPolicy.firstAccess, Pc.unregistering] at h
  | drop =>
    cases hp : sh.clients.policy <;> simp [hp, BroadcastPolicy.afterDrop, Pc.unregistering] at h
  | @accept r | @resume r =>
    cases r <;> cases hp : sh.clients.policy <;> simp [hp, Receiver.accepted, Pc.unregistering] at h
  | @refuse r | @disconnect r =>
    cases r <;> cases hp : sh.clients.policy <;> simp [hp, Receiver.refused, Pc.unregistering] at h
  | cleanTaken | cleanFound | cleanMissing | cleanRemove | cleanEmpty | cleanKept | cleanDelete =>
    exact h
  | _ => simp [Pc.unregistering, Cont.unregistering] at h

/-- A connection is removed by its own serve task only. -/
def Hub.RemovesOwn (s : Hub) : Prop := ∀ t id, (s.calls.pc t).unregistering = some id → t = .main id

theorem removesOwn_step (hs : s.RemovesOwn) (h : HubStep decode s l s') : s'.RemovesOwn := by
  refine pcs_step (P := fun t pc => ∀ id, pc.unregistering = some id → t = .main id) h hs
    (fun t id hpc => by simp [Pc.unregistering] at hpc) ?_ ?_
  · rintro t op ⟨hruns, -⟩ id hpc
    obtain rfl := unregistering_start hpc
    cases t with
    | main d =>
      rcases hruns with h | h | ⟨_, h⟩ <;> cases h
      rfl
    | handler => exact hruns.elim
  · intro t e sh pc hx id hpc
    exact hs t id (exec_unregistering hx hpc)

/-- An access after which a connection is no longer registered. -/
theorem exec_takes_out (hx : Exec sh pc e sh' pc')
    (hin : sh.clients.connections.lookup c ≠ none)
    (hout : sh'.clients.connections.lookup c = none) :
    pc = .removeEntry c ∨ ∃ victim d, pc' = .evictCancel victim c d := by
  cases hx with
  | insert id x k f =>
    by_cases hc : c = id
    · subst hc
      simp [Shared.set, InMemoryWsClients.insertConnection] at hout
    · refine (hin ?_).elim
      simpa [Shared.set, InMemoryWsClients.insertConnection, Finmap.lookup_insert_of_ne _ hc]
        using hout
  | removeEntry id =>
    by_cases hc : c = id
    · exact Or.inl (hc ▸ rfl)
    · exact (hin ((Finmap.lookup_erase_ne hc).symm.trans hout)).elim
  | @evictFound h victim d hl =>
    by_cases hc : c = (sh.clients.states h).id
    · exact Or.inr ⟨victim, d, hc ▸ rfl⟩
    · exact (hin ((Finmap.lookup_erase_ne hc).symm.trans hout)).elim
  | _ => exact (hin hout).elim

/-- A policy has taken `c` out, and cancelled its token or is about to. -/
def Hub.Told (s : Hub) (c : ConnId) : Prop :=
  s.calls.shared.cancelled c = true ∨ ∃ t victim d, s.calls.pc t = .evictCancel victim c d

/-- An eviction under way cancels the token with its next access. -/
theorem told_step (hn : s.Named) (hpos : s.main c = some pos) (hs : s.Told c)
    (h : HubStep decode s l s') : s'.Told c := by
  rcases hs with hc | ⟨t, victim, d, hpc⟩
  · exact Or.inl (cancelled_stays hpos h hc)
  · have hkeep : ∀ {u pc'}, s'.calls.pc = Function.update s.calls.pc u pc' → t ≠ u →
        s'.Told c := fun hpcs hne =>
      Or.inr ⟨t, victim, d, by rw [hpcs, Function.update_of_ne hne, hpc]⟩
    cases hubStep_store h with
    | still _ _ hpcs => exact Or.inr ⟨t, victim, d, by rw [hpcs, hpc]⟩
    | start _ _ hidle _ hpcs =>
      refine hkeep hpcs ?_
      rintro rfl
      simp [hpc] at hidle
    | drop _ _ hwait hpcs =>
      refine hkeep hpcs ?_
      rintro rfl
      simp [hpc] at hwait
    | @exec u e sh pc _ hx hcalls =>
      by_cases htu : t = u
      · subst htu
        obtain ⟨halloc, hid, -⟩ := hn.evicting t victim c d hpc
        have htoken := (hn.token victim halloc).trans hid
        rw [hpc] at hx
        cases hx
        exact Or.inl (by simp [hcalls, Shared.cancel, htoken])
      · exact hkeep (by rw [hcalls]; rfl) htu

/-- A connection that is served and not registered has been told so. -/
def Hub.Present (s : Hub) (c : ConnId) : Prop :=
  s.Entered c → ¬ s.Closing c → s.calls.shared.clients.connections.lookup c = none → s.Told c

/-- The `add` call of a serve task ends with its connection registered. -/
theorem entered_before (h : HubStep decode s l s') (hin : s'.Entered c)
    (hout : s'.calls.shared.clients.connections.lookup c = none) : s.Entered c := by
  obtain ⟨⟨pos, hpos⟩, hpc⟩ := hin
  cases hubStep_serve h c with
  | same _ hmain hsame => exact ⟨⟨pos, hmain ▸ hpos⟩, hsame ▸ hpc⟩
  | accept _ _ _ hpc' => exact (hpc _ _ _ hpc').elim
  | moves _ _ hmain _ _ hidle => exact ⟨⟨_, hmain⟩, by simp [hidle]⟩
  | frame _ hmain _ hidle => exact ⟨⟨_, hmain⟩, by simp [hidle]⟩
  | closed _ hmain _ hidle => exact ⟨⟨_, hmain⟩, by simp [hidle]⟩
  | exec _ hmain hx hcalls =>
    refine ⟨⟨pos, hmain ▸ hpos⟩, fun x k f hinsert => ?_⟩
    rw [hinsert] at hx
    cases hx
    simp [hcalls, Shared.set, InMemoryWsClients.insertConnection] at hout

theorem present_step (hc : s.Calling c) (hr : s.RemovesOwn) (hn : s.Named) (hs : s.Present c)
    (h : HubStep decode s l s') : s'.Present c := by
  intro hin hserving hout
  have hserving₀ : ¬ s.Closing c := fun hclosing => hserving (closing_stays hclosing h)
  by_cases hold : s.calls.shared.clients.connections.lookup c = none
  · have hin₀ := entered_before h hin hout
    obtain ⟨pos, hpos⟩ := hin₀.1
    exact told_step hn hpos (hs hin₀ hserving₀ hold) h
  · rcases (hubStep_store h).clients with hsame | ⟨t, e, sh, pc, -, hx, hcalls⟩
    · exact (hold (hsame ▸ hout)).elim
    · rw [hcalls] at hout
      rcases exec_takes_out hx hold hout with hpc | ⟨victim, d, rfl⟩
      · obtain rfl := hr t c (by rw [hpc]; rfl)
        obtain ⟨pos, hpos⟩ := (hn.entered c hold).1
        have hcalling := hc.at hpos
        rw [hpc] at hcalling
        cases pos with
        | removing => exact (hserving₀ ⟨_, hpos, trivial⟩).elim
        | _ => simp [MainPos.Calling] at hcalling
      · exact Or.inr ⟨t, victim, d, by rw [hcalls, goto_pc]⟩

/-- What every run of a hub keeps about who is registered. -/
structure Hub.Registered (s : Hub) : Prop where
  served : ∀ c, s.Served c
  own : s.RemovesOwn
  named : s.Named
  signalled : ∀ c, s.Signalled c
  present : ∀ c, s.Present c

theorem registered_fresh (h : s.Fresh) : s.Registered := by
  have hruled := ruled_fresh h
  refine ⟨hruled.served, fun t id hpc => ?_, hruled.named, hruled.signalled, fun c hin => ?_⟩
  · simp [h.1.2 t, Pc.unregistering] at hpc
  · obtain ⟨⟨pos, hpos⟩, -⟩ := hin
    simp [Hub.main, h.2.1] at hpos

theorem registered_step (hs : s.Registered) (h : HubStep decode s l s') : s'.Registered := by
  have hcalling := fun d => (hs.served d).calling
  have hinserting : s.Inserting := (hs.served "").inserting
  exact {
    served := fun c => served_step (hs.served c) h
    own := removesOwn_step hs.own h
    named := named_step hcalling hinserting hs.named h
    signalled := fun c => signalled_step hinserting hs.named (hs.signalled c) h
    present := fun c => present_step (hcalling c) hs.own hs.named (hs.present c) h }

theorem registered_reachable (h : (hubSystem decode).Reachable Hub.Fresh s) : s.Registered :=
  h.invariant (fun _ _ _ hstep hu => registered_step hu hstep) fun _ => registered_fresh

/-- While it is served, a connection is missing from the registry exactly if a policy has taken
it out and cancelled its token, or is about to. -/
theorem unregistered_iff (h : (hubSystem decode).Reachable Hub.Fresh s) (hin : s.Entered c)
    (hserving : ¬ s.Closing c) :
    s.calls.shared.clients.connections.lookup c = none ↔ s.Told c := by
  have hs := registered_reachable h
  refine ⟨hs.present c hin hserving, ?_⟩
  rintro (hc | ⟨t, victim, d, hpc⟩)
  · rcases (hs.signalled c).cancelled hin.1 hc with hclosing | hout
    · exact (hserving hclosing).elim
    · exact hout.2
  · exact (hs.named.evicting t victim c d hpc).2.2.2

/-- A connection that a broadcast evicts over its full queue, and that has not noticed. -/
theorem unregistered_evicted : ∃ s : Hub, (hubSystem fun _ => some ()).Reachable Hub.Fresh s ∧
    s.calls.shared.clients.connections.lookup "c" = none ∧ ¬ s.Closing "c" ∧ s.Told "c" := by
  obtain ⟨s, hreach, hmain, hpc, hl⟩ : ∃ s : Hub,
      (hubSystem fun _ => some ()).Reachable Hub.Fresh s ∧ s.main "c" = some (.reading .select) ∧
      s.calls.pc (.main "c") = .idle ∧ s.calls.shared.clients.connections.lookup "c" = none :=
    ⟨_, ⟨.start (.dropConnection second 1), hub_start_fresh _, _,
      (opened_run (c := "c") 1 0 rfl rfl).append <|
      .step (.conn (c := "c") (e := .tick) rfl trivial rfl (.tick rfl)) <|
      .step (.conn (c := "c") (e := .enqueued) rfl trivial rfl
        (.enqueued rfl rfl rfl (by decide))) <|
      .step (.frame (c := "c") (n := 0) none rfl rfl rfl (.frame (.text "news") rfl)) <|
      .step (.start (c := "c") (n := 0) rfl) <|
      .step (.call (c := "c") (n := 0) (.broadcastExcept [] (some (.text "news"))) rfl rfl
        trivial) <|
      .step (.exec (c := "c") (n := 0) rfl (granted_of_free rfl) (.iter ⟨1, fun _ => 0⟩)
        (by simp)) <|
      .step (.exec (c := "c") (n := 0) rfl (granted_of_free rfl)
        (.scan (by decide) (yields_only _ _)) (by simp)) <|
      .step (.exec (c := "c") (n := 0) rfl (granted_of_free rfl) (.scanned (by decide))
        (by simp)) <|
      .step (.exec (c := "c") (n := 0) rfl (granted_of_free rfl) .next (by simp)) <|
      .step (.exec (c := "c") (n := 0) rfl (granted_of_free rfl) (.suspend rfl) (by simp)) <|
      .step (.exec (c := "c") (n := 0) rfl (granted_of_free rfl) (.late trivial) (by simp)) <|
      .step (.exec (c := "c") (n := 0) rfl (granted_of_free rfl) .drop (by simp)) <|
      .step (.exec (c := "c") (n := 0) rfl (granted_of_free rfl) (.countReached rfl (by decide))
        (by simp)) <|
      .single (.exec (c := "c") (n := 0) rfl (granted_of_free rfl)
        (@Exec.evictFound _ 0 0 _ (by decide)) (by simp))⟩, rfl, rfl, by decide⟩
  have hserving : ¬ s.Closing "c" := by
    rintro ⟨pos, hpos, hclosing⟩
    obtain rfl : MainPos.reading .select = pos := Option.some.inj (hmain.symm.trans hpos)
    exact hclosing
  have hin : s.Entered "c" := ⟨⟨_, hmain⟩, fun x k f h => by simp [hpc] at h⟩
  exact ⟨s, hreach, hl, hserving, (unregistered_iff hreach hin hserving).mp hl⟩

/-- Every call is at an access of the policy, and without eviction only the teardown of a
connection cancels its token. -/
structure Hub.Spares (s : Hub) : Prop where
  fits : s.calls.AllFit
  closing : ¬ s.calls.shared.clients.policy.Evicting → ∀ c pos, s.main c = some pos →
    s.calls.shared.cancelled c = true → s.Closing c

theorem hub_policy (h : HubStep decode s l s') :
    s'.calls.shared.clients.policy = s.calls.shared.clients.policy := by
  rcases hub_persists h with hsame | hp
  · rw [hsame]
  · exact hp.policy

theorem allFit_hub (hs : s.calls.AllFit) (h : HubStep decode s l s') : s'.calls.AllFit := by
  unfold Calls.AllFit
  rw [hub_policy h]
  have hexec : ∀ t e sh pc, Exec s.calls.shared (s.calls.pc t) e sh pc →
      pc.Fits s.calls.shared.clients.policy := fun t e sh pc hx => exec_fits hx (hs t)
  exact pcs_step h hs (fun _ => trivial) (fun _ op _ => fits_start op) hexec

theorem spares_step (hs : s.Spares) (h : HubStep decode s l s') : s'.Spares where
  fits := allFit_hub hs.fits h
  closing hspares c pos hpos hc := by
    rw [hub_policy h] at hspares
    rcases main_before h hpos with ⟨pos₀, hpos₀⟩ | rfl
    · cases hubStep_token h c with
      | same hsame => exact closing_stays (hs.closing hspares c _ hpos₀ (hsame.symm.trans hc)) h
      | accepted hmain => simp [hmain] at hpos₀
      | closed hmain' => exact ⟨_, hmain', trivial⟩
      | @evicted t _ _ _ hpc =>
        have hfit := hs.fits t
        rw [hpc] at hfit
        exact (hspares hfit).elim
    · rw [accept_cancelled h] at hc
      cases hc

theorem spares_reachable (h : (hubSystem decode).Reachable Hub.Fresh s) : s.Spares := by
  refine h.invariant (fun _ _ _ hstep hu => spares_step hu hstep) fun u hu => ⟨fun t => ?_, ?_⟩
  · rw [hu.1.2 t]
    trivial
  · intro _ c pos hpos
    simp [Hub.main, hu.2.1] at hpos

/-- Under a policy without eviction, a connection stays registered, its token uncancelled, from
the return of its `add` call to the end of its read loop. -/
theorem registered_until_teardown (h : (hubSystem decode).Reachable Hub.Fresh s)
    (hpolicy : ¬ s.calls.shared.clients.policy.Evicting) (hin : s.Entered c)
    (hserving : ¬ s.Closing c) :
    s.calls.shared.clients.connections.lookup c ≠ none ∧
      s.calls.shared.cancelled c = false := by
  have hs := spares_reachable h
  obtain ⟨⟨pos, hpos⟩, -⟩ := id hin
  have hlive : s.calls.shared.cancelled c ≠ true := fun hc =>
    hserving (hs.closing hpolicy c pos hpos hc)
  refine ⟨fun hout => ?_, by simpa using hlive⟩
  rcases (unregistered_iff h hin hserving).mp hout with hc | ⟨t, victim, d, hpc⟩
  · exact hlive hc
  · have hfit := hs.fits t
    rw [hpc] at hfit
    exact hpolicy hfit

/-- A connection whose `add` call has returned. -/
theorem block_stays_registered : ∃ s : Hub,
    s.calls.shared.clients.connections.lookup "c" ≠ none ∧
      s.calls.shared.cancelled "c" = false := by
  have haccept : HubStep (fun _ => (none : Option Unit)) (.start .block) (.accept "c") _ :=
    .accept 1 0 rfl rfl
  have hrun : (hubSystem fun _ => (none : Option Unit)).Run (.start .block)
      [.accept "c", .store (.main "c") .access] _ :=
    .step haccept <| .single (.serve (granted_of_free rfl) (.insert "c" "c" "c" "c"))
  refine ⟨_, registered_until_teardown ⟨_, hub_start_fresh .block, _, hrun⟩
    (fun h => h.elim id id) ⟨⟨_, rfl⟩, fun x k f hpc => by cases hpc⟩ ?_⟩
  rintro ⟨pos, hpos, hclosing⟩
  obtain rfl : MainPos.registering = pos := Option.some.inj hpos
  exact hclosing

end AxumSignal

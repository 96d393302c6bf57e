import AxumSignal.Serving

/-! What the teardown of a connection leaves in the store while detached handlers and
evictions go on: first without any assumption, then for runs without late joins. -/
namespace AxumSignal

open Transition Calls

variable {Req : Type} {decode : Message → Option Req} {s s' : Hub} {l : HubLabel}
  {c : ConnId} {g : GroupName} {e : Event} {pc pc' : Pc} {sh sh' : Shared} {t : HubTask}

/-- The call is the `remove(c)` of the teardown. -/
def Pc.Removing (c : ConnId) : Pc → Prop
  | .cleanTake id k | .cleanNext id _ k | .cleanRemove id _ _ k | .cleanCheck id _ _ k
  | .cleanDelete id _ _ k => id = c ∧ k = .removal c
  | .removeEntry id => id = c
  | _ => False

theorem exec_removing (h : pc.Removing c) (hx : Exec sh pc e sh' pc') :
    pc'.Removing c ∨ (pc = .removeEntry c ∧ pc' = .idle) := by
  cases hx with
  | removeEntry =>
    obtain rfl := h
    exact Or.inr ⟨rfl, rfl⟩
  | cleanNothing | cleanDone =>
    obtain ⟨rfl, rfl⟩ := h
    exact Or.inl rfl
  | cleanTaken | cleanFound | cleanMissing | cleanRemove | cleanEmpty | cleanKept | cleanDelete =>
    exact Or.inl h
  | _ => exact h.elim

/-- It asks for its exclusive locks with no guard held. -/
theorem removing_guards {k : GroupName} (h : pc.Removing c) (hk : k ∈ pc.exclusive) :
    pc.guards = [] := by
  cases pc with
  | cleanDelete id group groups cont =>
    obtain ⟨rfl, rfl⟩ := h
    rfl
  | joinMembers => exact h.elim
  | _ => cases hk

/-- The calls a serve task makes at each of its positions. -/
def MainPos.Calling (c : ConnId) : MainPos → Pc → Prop
  | .registering, pc => pc = .idle ∨ pc = .insert c c c c
  | .reading _, pc => pc = .idle ∨ (∃ rtt, pc = .lookupState c rtt) ∨ ∃ h rtt, pc = .record h rtt
  | .removing, pc => pc = .idle ∨ pc.Removing c
  | _, pc => pc = .idle

theorem calling_idle (pos : MainPos) : pos.Calling c .idle := by
  cases pos <;> simp [MainPos.Calling]

theorem exec_calling {pos : MainPos} (h : pos.Calling c pc) (hx : Exec sh pc e sh' pc') :
    pos.Calling c pc' := by
  cases pos with
  | registering =>
    rcases h with rfl | rfl
    · cases hx
    · cases hx
      exact Or.inl rfl
  | reading =>
    rcases h with rfl | ⟨rtt, rfl⟩ | ⟨h, rtt, rfl⟩
    · cases hx
    · cases hx with
      | stateFound => exact Or.inr (Or.inr ⟨_, _, rfl⟩)
      | stateMissing | notSampled => exact Or.inl rfl
    · cases hx
      exact Or.inl rfl
  | removing =>
    rcases h with rfl | h
    · cases hx
    · rcases exec_removing h hx with h | ⟨_, h⟩
      · exact Or.inr h
      · exact Or.inl h
  | onConnect | awaitWriter | onDisconnect | ended =>
    obtain rfl := h
    cases hx

/-- A serve task that does not exist yet calls nothing. -/
def Hub.Calling (s : Hub) (c : ConnId) : Prop :=
  match s.main c with
  | none => s.calls.pc (.main c) = .idle
  | some pos => pos.Calling c (s.calls.pc (.main c))

theorem Hub.Calling.at {pos : MainPos} (h : s.Calling c) (hm : s.main c = some pos) :
    pos.Calling c (s.calls.pc (.main c)) := by
  rwa [Hub.Calling, hm] at h

theorem calling_step (hs : s.Calling c) (h : HubStep decode s l s') : s'.Calling c := by
  cases hubStep_serve h c with
  | same _ hmain hpc => rwa [Hub.Calling, hmain, hpc]
  | accept _ _ hmain' hpc' =>
    rw [Hub.Calling, hmain', hpc']
    exact Or.inr rfl
  | moves _ _ _ hmain' _ _ hpc' =>
    rw [Hub.Calling, hmain', hpc']
    exact calling_idle _
  | frame _ _ hmain' _ hpc' =>
    rw [Hub.Calling, hmain']
    rcases hpc' with hpc' | hpc'
    · exact Or.inl hpc'
    · exact Or.inr (Or.inl hpc')
  | closed _ _ hmain' _ hpc' =>
    rw [Hub.Calling, hmain', hpc']
    exact Or.inr ⟨rfl, rfl⟩
  | exec _ hmain hx hcalls =>
    rw [Hub.Calling, hmain, hcalls, goto_pc]
    rw [Hub.Calling] at hs
    cases hm : s.main c with
    | none =>
      rw [hm] at hs
      rw [hs] at hx
      cases hx
    | some pos =>
      rw [hm] at hs
      exact exec_calling hs hx

/-- A connection is inserted by its own serve task only. -/
def Hub.Inserting (s : Hub) : Prop :=
  ∀ t id sender cancel onDrop, s.calls.pc t = .insert id sender cancel onDrop → t = .main id

theorem inserting_step (hs : s.Inserting) (h : HubStep decode s l s') : s'.Inserting := by
  have hupdate : ∀ {t pc'}, s'.calls.pc = Function.update s.calls.pc t pc' →
      (∀ id x k f, pc' = .insert id x k f → t = .main id) → s'.Inserting := by
    intro t pc' hpc hnew u
    rw [hpc]
    exact forall_goto (P := fun u pc => ∀ id x k f, pc = .insert id x k f → u = .main id)
      s.calls.shared hnew (fun u _ => hs u) u
  cases hubStep_store h with
  | still _ _ hpc =>
    intro u
    rw [hpc]
    exact hs u
  | @start t op _ _ _ hop hpc =>
    apply hupdate hpc
    intro id x k f hstart
    obtain rfl := start_insert hstart
    cases t with
    | main d =>
      rcases hop with h | h | ⟨_, h⟩ <;> cases h
      rfl
    | handler => exact hop.elim
  | drop _ _ _ hpc => exact hupdate hpc nofun
  | exec _ hx hcalls =>
    apply hupdate (by rw [hcalls]; rfl)
    intro id x k f hpc
    exact (exec_insert hx hpc).elim

/-- The teardown of `c` has taken its list of groups. -/
def Hub.Taken (s : Hub) (c : ConnId) : Prop :=
  (∃ pos, s.main c = some pos ∧ pos.Closing) ∧
    s.calls.pc (.main c) ≠ .cleanTake c (.removal c)

/-- The teardown of `c` is over with the store. -/
def Hub.Removed (s : Hub) (c : ConnId) : Prop :=
  (∃ pos, s.main c = some pos ∧ pos.Closing) ∧ s.calls.pc (.main c) = .idle

/-- `c` is in none of the three maps. -/
structure Hub.Gone (s : Hub) (c : ConnId) : Prop where
  unregistered : s.calls.shared.clients.connections.lookup c = none
  unlisted : s.calls.shared.clients.connectionGroups.lookup c = none
  nowhere : ∀ g, ¬ s.calls.shared.Member c g

theorem closing_of_moves {pos pos' : MainPos} {e : ConnEvent} (he : e.Local)
    (hstep : MainStep pos e pos') (h : pos'.Closing) : pos.Closing := by
  cases hstep with
  | closed => exact he.elim
  | removed | disconnected | finished => trivial
  | stays => exact h
  | _ => exact h.elim

/-- How a step leads to a state in which the serve task of `c` is past its read loop. -/
inductive ClosingStep (c : ConnId) (s s' : Hub) (l : HubLabel) : Prop where
  | kept {pos : MainPos} (hmain : s.main c = some pos) (hclosing : pos.Closing)
      (hpc : s'.calls.pc (.main c) = s.calls.pc (.main c))
  | closed (hpc' : s'.calls.pc (.main c) = .cleanTake c (.removal c))
  | exec {pos : MainPos} {e : Event} {sh : Shared} {pc : Pc} (hl : l = .store (.main c) e)
      (hmain : s.main c = some pos) (hclosing : pos.Closing)
      (hx : Exec s.calls.shared (s.calls.pc (.main c)) e sh pc)
      (hcalls : s'.calls = s.calls.goto (.main c) sh pc)

theorem closing_step {pos : MainPos} (h : HubStep decode s l s') (hpos : s'.main c = some pos)
    (hclosing : pos.Closing) : ClosingStep c s s' l := by
  cases hubStep_serve h c with
  | same _ hmain hpc => exact .kept (hmain ▸ hpos) hclosing hpc
  | accept _ _ hmain' _ =>
    obtain rfl : MainPos.registering = pos := by simpa [hpos] using hmain'.symm
    exact hclosing.elim
  | @moves _ p' _ _ he hmain hmain' hstep hpc hpc' =>
    obtain rfl : p' = pos := by simpa [hpos] using hmain'.symm
    exact .kept hmain (closing_of_moves he hstep hclosing) (hpc'.trans hpc.symm)
  | @frame _ p' _ _ _ hmain' _ _ =>
    obtain rfl : MainPos.reading p' = pos := by simpa [hpos] using hmain'.symm
    exact hclosing.elim
  | closed _ _ _ _ hpc' => exact .closed hpc'
  | exec hl hmain hx hcalls => exact .exec hl (hmain ▸ hpos) hclosing hx hcalls

/-- A serve task that has just ended its `remove` call has taken the entry out. -/
theorem removed_exec {pos : MainPos} (hclosing : pos.Closing) (h : pos.Calling c pc)
    (hx : Exec sh pc e sh' .idle) : sh'.clients.connections.lookup c = none := by
  cases pos with
  | removing =>
    rcases h with rfl | h
    · cases hx
    · rcases exec_removing h hx with h | ⟨rfl, _⟩
      · exact h.elim
      · cases hx
        exact Finmap.lookup_erase c _
  | awaitWriter | onDisconnect | ended =>
    obtain rfl := h
    cases hx
  | _ => exact hclosing.elim

theorem removed_step (hc : s.Calling c) (hi : s.Inserting)
    (hs : s.Removed c → s.calls.shared.clients.connections.lookup c = none)
    (h : HubStep decode s l s') (hr : s'.Removed c) :
    s'.calls.shared.clients.connections.lookup c = none := by
  have hkeep : s.Removed c → s'.calls.shared.clients.connections.lookup c = none := by
    intro hr₀
    have hno := hs hr₀
    rcases (hubStep_store h).clients with hsame | ⟨t, e, sh, pc, -, hx, hcalls⟩
    · rwa [hsame]
    · rw [hcalls]
      refine exec_unregistered hx hno fun x k f hpc => ?_
      obtain rfl := hi t c x k f hpc
      rw [hr₀.2] at hpc
      cases hpc
  obtain ⟨⟨pos, hpos, hclosing⟩, hidle⟩ := hr
  cases closing_step h hpos hclosing with
  | kept hmain hclosing hpc => exact hkeep ⟨⟨_, hmain, hclosing⟩, hpc ▸ hidle⟩
  | closed hpc' =>
    rw [hpc'] at hidle
    cases hidle
  | exec _ hmain hclosing hx hcalls =>
    rw [hcalls, goto_pc] at hidle
    subst hidle
    rw [hcalls]
    exact removed_exec hclosing (hc.at hmain) hx

/-- What every run keeps about the serve task of `c`. -/
structure Hub.Served (s : Hub) (c : ConnId) : Prop where
  calling : s.Calling c
  inserting : s.Inserting
  removed : s.Removed c → s.calls.shared.clients.connections.lookup c = none

theorem served_step (hs : s.Served c) (h : HubStep decode s l s') : s'.Served c where
  calling := calling_step hs.calling h
  inserting := inserting_step hs.inserting h
  removed := removed_step hs.calling hs.inserting hs.removed h

theorem served_fresh (h : s.Fresh) (c : ConnId) : s.Served c := by
  obtain ⟨⟨_, hquiet⟩, hconns, _⟩ := h
  have hmain : s.main c = none := by simp [Hub.main, hconns]
  refine ⟨?_, fun t id x k f hpc => ?_, ?_⟩
  · rw [Hub.Calling, hmain]
    exact hquiet _
  · rw [hquiet t] at hpc
    cases hpc
  · rintro ⟨⟨_, hpos, _⟩, _⟩
    simp [hmain] at hpos

/-- Whatever the handlers do, a connection whose `remove` call has returned is unregistered
for good. -/
theorem removed_reachable (h : (hubSystem decode).Reachable Hub.Fresh s) (hr : s.Removed c) :
    s.calls.shared.clients.connections.lookup c = none := by
  have hpres : (hubSystem decode).Preserves fun s => s.Served c := by
    intro u l v hstep hu
    exact served_step hu hstep
  have hserved : s.Served c :=
    h.invariant (I := fun s => s.Served c) hpres fun _ h0 => served_fresh h0 c
  exact hserved.removed hr

/-- The step is no update of an `add_to_group` of `c`. -/
def NoJoin (c : ConnId) (s : Hub) (l : HubLabel) : Prop :=
  ∀ t e, l = .store t e → ∀ g, s.calls.pc t ≠ .joinMembers c g ∧ s.calls.pc t ≠ .joinGroups c g

/-- What the teardown relies on. When it takes the list of `c`, the list has every group
that `c` is in, or a clean-up of `c` under way has it; from then on no `add_to_group` of
`c` takes a step; and `on_disconnect` finds no such clean-up still to be done. -/
structure Tidy (c : ConnId) (s : Hub) (l : HubLabel) (_ : Hub) : Prop where
  listed : ∀ e, l = .store (.main c) e → s.calls.pc (.main c) = .cleanTake c (.removal c) →
    ∀ g, s.calls.shared.Member c g → s.calls.shared.Lists c g ∨ s.calls.Owed c g
  joined : s.Taken c → NoJoin c s l
  cleaned : l = .conn c .disconnected → ∀ g, s.calls.shared.Member c g → ¬ s.calls.Owed c g

/-- The list of `c` is gone, and clean-ups under way have every group that `c` is still in. -/
structure Hub.Emptied (s : Hub) (c : ConnId) : Prop where
  unlisted : s.calls.shared.clients.connectionGroups.lookup c = none
  owed : ∀ g, s.calls.shared.Member c g → s.calls.Owed c g

theorem StoreStep.member (h : StoreStep s s' l) (hj : NoJoin c s l)
    (hm : s'.calls.shared.Member c g) : s.calls.shared.Member c g := by
  rcases h.clients with hsame | ⟨t, e, sh, pc, hl, hx, hcalls⟩
  · rwa [Shared.Member, hsame] at hm
  · rw [hcalls] at hm
    exact ((exec_touches hx).owed hm (hj _ _ hl g).1).1

theorem StoreStep.unlisted (h : StoreStep s s' l) (hj : NoJoin c s l)
    (hn : s.calls.shared.clients.connectionGroups.lookup c = none) :
    s'.calls.shared.clients.connectionGroups.lookup c = none := by
  rcases h.clients with hsame | ⟨t, e, sh, pc, hl, hx, hcalls⟩
  · rwa [hsame]
  · rw [hcalls]
    exact (exec_touches hx).unlisted hn fun g => (hj _ _ hl g).2

/-- A clean-up under way keeps the groups of a member until it has taken the member out. -/
theorem StoreStep.owed (h : StoreStep s s' l) (hj : NoJoin c s l) (ho : s.calls.Owed c g)
    (hm : s'.calls.shared.Member c g) : s'.calls.Owed c g := by
  cases h with
  | still _ _ hpc => rwa [Calls.Owed, hpc]
  | @start t op _ _ hidle _ hpc =>
    have hgoto : (s.calls.goto t s.calls.shared op.start).Owed c g :=
      ho.goto (by simp [hidle, Pc.Owes])
    rw [Calls.Owed, hpc]
    exact hgoto
  | @drop t _ _ hwait hpc =>
    have hgoto : (s.calls.goto t s.calls.shared .idle).Owed c g := by
      apply ho.goto
      rcases hwait with hwait | ⟨r, hwait⟩ <;> simp [hwait, Pc.Owes]
    rw [Calls.Owed, hpc]
    exact hgoto
  | @exec t e sh pc hl hx hcalls =>
    rw [hcalls] at hm ⊢
    by_cases hpc : (s.calls.pc t).Owes c g
    · exact ⟨t, by rw [goto_pc]; exact ((exec_touches hx).owed hm (hj _ _ hl g).1).2 hpc⟩
    · exact ho.goto hpc

theorem emptied_step (hs : s.Emptied c) (hj : NoJoin c s l) (h : HubStep decode s l s') :
    s'.Emptied c where
  unlisted := (hubStep_store h).unlisted hj hs.unlisted
  owed _ hm := (hubStep_store h).owed hj (hs.owed _ ((hubStep_store h).member hj hm)) hm

/-- The step that takes the list of `c` owes every group on it. -/
theorem emptied_take {k : Cont} (ht : s.calls.pc t = .cleanTake c k)
    (hlisted : ∀ g, s.calls.shared.Member c g → s.calls.shared.Lists c g ∨ s.calls.Owed c g)
    (hx : Exec s.calls.shared (.cleanTake c k) e sh' pc') :
    sh'.clients.connectionGroups.lookup c = none ∧
      ∀ g, sh'.Member c g → (s.calls.goto t sh' pc').Owed c g := by
  have hother : ∀ g, s.calls.Owed c g → (s.calls.goto t sh' pc').Owed c g := by
    intro g ho
    exact ho.goto (by simp [ht, Pc.Owes])
  cases hx with
  | @cleanTaken _ _ taken groups hl _ hmem =>
    refine ⟨Finmap.lookup_erase c _, fun g hm => ?_⟩
    rcases hlisted g hm with hg | ho
    · refine ⟨t, ?_⟩
      rw [goto_pc]
      rw [Shared.Lists, SetMap.values_of_lookup hl] at hg
      exact ⟨rfl, (hmem g).mpr hg⟩
    · exact hother g ho
  | cleanNothing hl =>
    refine ⟨hl, fun g hm => ?_⟩
    rcases hlisted g hm with hg | ho
    · rw [Shared.Lists, SetMap.values_of_lookup_none hl] at hg
      simp at hg
    · exact hother g ho

theorem taken_step (hs : s.Taken c → s.Emptied c) (htidy : Tidy c s l s')
    (h : HubStep decode s l s') (ht : s'.Taken c) : s'.Emptied c := by
  have hkeep : s.Taken c → s'.Emptied c :=
    fun ht₀ => emptied_step (hs ht₀) (htidy.joined ht₀) h
  obtain ⟨⟨pos, hpos, hclosing⟩, hne⟩ := ht
  cases closing_step h hpos hclosing with
  | kept hmain hclosing hpc => exact hkeep ⟨⟨_, hmain, hclosing⟩, hpc ▸ hne⟩
  | closed hpc' => exact (hne hpc').elim
  | exec hl hmain hclosing hx hcalls =>
    by_cases ht : s.calls.pc (.main c) = .cleanTake c (.removal c)
    · rw [ht] at hx
      obtain ⟨hnone, howed⟩ := emptied_take ht (htidy.listed _ hl ht) hx
      exact ⟨by rw [hcalls]; exact hnone, fun g hm => by rw [hcalls] at hm ⊢; exact howed g hm⟩
    · exact hkeep ⟨⟨_, hmain, hclosing⟩, ht⟩

theorem Hub.Left.taken (hc : s.Calling c) (h : s.Left c) : s.Removed c ∧ s.Taken c := by
  obtain ⟨pos, hpos, hd⟩ := h
  have hidle : s.calls.pc (.main c) = .idle := by
    have := hc.at hpos
    cases pos with
    | onDisconnect | ended => exact this
    | _ => exact hd.elim
  have hclosing : pos.Closing := by
    cases pos with
    | onDisconnect | ended => trivial
    | _ => exact hd.elim
  exact ⟨⟨⟨pos, hpos, hclosing⟩, hidle⟩, ⟨pos, hpos, hclosing⟩, by simp [hidle]⟩

/-- After `on_disconnect` was called, `c` is in no group. -/
theorem left_step (hc : s.Calling c) (hs : s.Taken c → s.Emptied c)
    (hl : s.Left c → ∀ g, ¬ s.calls.shared.Member c g) (htidy : Tidy c s l s')
    (h : HubStep decode s l s') (hleft : s'.Left c) (g : GroupName) :
    ¬ s'.calls.shared.Member c g := by
  intro hm
  have hkeep : s.Taken c → s.calls.shared.Member c g :=
    fun ht => (hubStep_store h).member (htidy.joined ht) hm
  have hstill : ¬ s.Left c := fun hleft₀ => hl hleft₀ g (hkeep (hleft₀.taken hc).2)
  obtain ⟨pos, hpos, hd⟩ := hleft
  cases hubStep_serve h c with
  | same _ hmain _ => exact hstill ⟨pos, hmain ▸ hpos, hd⟩
  | exec _ hmain _ _ => exact hstill ⟨pos, hmain ▸ hpos, hd⟩
  | accept _ _ hmain' _ =>
    obtain rfl : MainPos.registering = pos := by simpa [hpos] using hmain'.symm
    exact hd
  | @frame _ p' _ _ _ hmain' _ _ =>
    obtain rfl : MainPos.reading p' = pos := by simpa [hpos] using hmain'.symm
    exact hd
  | closed _ _ hmain' _ _ =>
    obtain rfl : MainPos.removing = pos := by simpa [hpos] using hmain'.symm
    exact hd
  | @moves p p' _ hlabel he hmain hmain' hstep hpc _ =>
    obtain rfl : p' = pos := by simpa [hpos] using hmain'.symm
    cases hstep with
    | disconnected =>
      have ht : s.Taken c := ⟨⟨_, hmain, trivial⟩, by simp [hpc]⟩
      exact htidy.cleaned hlabel g (hkeep ht) ((hs ht).owed g (hkeep ht))
    | finished => exact hstill ⟨_, hmain, trivial⟩
    | stays => exact hstill ⟨_, hmain, hd⟩
    | _ => exact hd

/-- What a tidy run keeps about `c`. -/
structure Hub.Torn (s : Hub) (c : ConnId) : Prop extends s.Served c where
  taken : s.Taken c → s.Emptied c
  left : s.Left c → ∀ g, ¬ s.calls.shared.Member c g

theorem torn_step (hs : s.Torn c) (htidy : Tidy c s l s') (h : HubStep decode s l s') :
    s'.Torn c where
  toServed := served_step hs.toServed h
  taken := taken_step hs.taken htidy h
  left := left_step hs.calling hs.taken hs.left htidy h

theorem torn_fresh (h : s.Fresh) (c : ConnId) : s.Torn c := by
  have hmain : s.main c = none := by simp [Hub.main, h.2.1]
  refine ⟨served_fresh h c, ?_, ?_⟩
  · rintro ⟨⟨_, hpos, _⟩, _⟩
    simp [hmain] at hpos
  · rintro ⟨_, hpos, _⟩
    simp [hmain] at hpos

theorem Hub.Torn.gone (h : s.Torn c) (hleft : s.Left c) : s.Gone c :=
  ⟨h.removed (hleft.taken h.calling).1, (h.taken (hleft.taken h.calling).2).unlisted, h.left hleft⟩

/-- Either update of a join leaves its connection in the store. -/
theorem exec_join (hx : Exec sh pc e sh' pc') (hpc : pc = .joinMembers c g ∨ pc = .joinGroups c g) :
    sh'.Member c g ∨ sh'.clients.connectionGroups.lookup c ≠ none := by
  rcases hpc with rfl | rfl
  · cases hx
    exact Or.inl (by simp [Shared.Member, Shared.set])
  · cases hx
    exact Or.inr (by simp [Shared.set, SetMap.lookup_add_self])

/-- From the call of `on_disconnect` on, late joins are exactly the steps that undo the
teardown. -/
theorem gone_step_iff (hs : s.Torn c) (hleft : s.Left c) (h : HubStep decode s l s') :
    s'.Gone c ↔ NoJoin c s l := by
  constructor
  · intro hgone t e hl g
    have hleak : ¬ (s.calls.pc t = .joinMembers c g ∨ s.calls.pc t = .joinGroups c g) := by
      intro hpc
      cases hubStep_store h with
      | exec hl' hx hcalls =>
        obtain ⟨rfl, rfl⟩ : _ = t ∧ _ = e := by simpa [hl'] using hl
        rcases exec_join hx hpc with hm | hl
        · exact hgone.nowhere g (by rwa [hcalls])
        · exact hl (by have := hgone.unlisted; rwa [hcalls] at this)
      | still hno _ _ => exact hno t e hl
      | start hno _ _ _ _ => exact hno t e hl
      | drop hno _ _ _ => exact hno t e hl
    exact not_or.mp hleak
  · intro hj
    have htidy : Tidy c s l s' := by
      refine ⟨fun _ _ hpc => ?_, fun _ => hj, fun _ g hm => (hs.left hleft g hm).elim⟩
      rw [(hleft.taken hs.calling).1.2] at hpc
      cases hpc
    exact (torn_step hs htidy h).gone (left_stays hleft h)

/-- In every tidy run, once `on_disconnect` has been called for a connection, it is in none
of the three maps. -/
theorem gone_after_teardown (h : ((hubSystem decode).restrict (Tidy c)).Reachable Hub.Fresh s)
    (hleft : s.Left c) : s.Gone c := by
  have hpres : ((hubSystem decode).restrict (Tidy c)).Preserves fun s => s.Torn c := by
    rintro u l v ⟨hstep, htidy⟩ hu
    exact torn_step hu htidy hstep
  have htorn : s.Torn c := h.invariant (I := fun s => s.Torn c) hpres fun _ h0 => torn_fresh h0 c
  exact htorn.gone hleft

/-- Before the teardown takes the list of `c`, every step is tidy. -/
theorem tidy_open (hopen : ∀ pos, s.main c = some pos → ¬ pos.Closing)
    (hpc : s.calls.pc (.main c) ≠ .cleanTake c (.removal c)) (hl : l ≠ .conn c .disconnected) :
    Tidy c s l s' :=
  ⟨fun _ _ h => (hpc h).elim, fun ⟨⟨pos, hmain, hclosing⟩, _⟩ => (hopen pos hmain hclosing).elim,
    fun h => (hl h).elim⟩

/-- The steps of a serve task beside which nobody is in a call. -/
theorem tidy_alone (hothers : ∀ t, t ≠ .main c → s.calls.pc t = .idle)
    (hjoin : ∀ g, s.calls.pc (.main c) ≠ .joinMembers c g ∧ s.calls.pc (.main c) ≠ .joinGroups c g)
    (hlisted : s.calls.pc (.main c) = .cleanTake c (.removal c) →
      ∀ g, s.calls.shared.Member c g → s.calls.shared.Lists c g)
    (hidle : l = .conn c .disconnected → s.calls.pc (.main c) = .idle) : Tidy c s l s' := by
  refine ⟨fun _ _ hpc g hm => Or.inl (hlisted hpc g hm), fun _ t _ _ g => ?_, fun hl g _ => ?_⟩
  · by_cases ht : t = .main c
    · subst ht
      exact hjoin g
    · simp [hothers t ht]
  · rintro ⟨t, howes⟩
    by_cases ht : t = .main c
    · simp [ht, hidle hl, Pc.Owes] at howes
    · simp [hothers t ht, Pc.Owes] at howes

/-- The one member of a group, at its call of `clients.remove`, with a writer that is in its
`select!` and nobody else in a call. -/
structure Hub.LastMember (s : Hub) (c : ConnId) (conn : Conn) (g : GroupName) : Prop where
  found : s.conns c = some conn
  main : conn.main = .removing
  writer : conn.writer = .select
  cancelled : s.calls.shared.cancelled c = true
  pc : s.calls.pc (.main c) = .cleanTake c (.removal c)
  others : ∀ t, t ≠ .main c → s.calls.pc t = .idle
  lists : s.calls.shared.clients.connectionGroups.lookup c = some {g}
  members : s.calls.shared.clients.groupMembers.lookup g = some {c}
  only : ∀ k, s.calls.shared.Member c k → k = g

theorem lastMember_run : ∃ s conn, ((hubSystem fun _ => some ()).restrict (Tidy "c")).Reachable
    Hub.Fresh s ∧ s.LastMember "c" conn "g" := by
  have haccept : HubStep (fun _ => some ()) (.start .block) (.accept "c") _ := .accept 32 0 rfl rfl
  refine ⟨_, _, ⟨.start .block, hub_start_fresh .block, _,
    .step ⟨haccept, tidy_open nofun nofun nofun⟩ <|
    .step ⟨.serve (c := "c") (granted_of_free rfl) (.insert "c" "c" "c" "c"),
      tidy_open (by rintro _ ⟨⟩; exact id) nofun nofun⟩ <|
    .step ⟨.conn (c := "c") (e := .registered) rfl trivial rfl (.registered rfl),
      tidy_open (by rintro _ ⟨⟩; exact id) nofun nofun⟩ <|
    .step ⟨.conn (c := "c") (e := .connected) rfl trivial rfl (.connected rfl),
      tidy_open (by rintro _ ⟨⟩; exact id) nofun nofun⟩ <|
    .step ⟨.frame (c := "c") (n := 0) none rfl rfl rfl (.frame (.text "join") rfl),
      tidy_open (by rintro _ ⟨⟩; exact id) nofun nofun⟩ <|
    .step ⟨.start (c := "c") (n := 0) rfl, tidy_open (by rintro _ ⟨⟩; exact id) nofun nofun⟩ <|
    .step ⟨.call (c := "c") (n := 0) (.addToGroup "c" "g") rfl rfl trivial,
      tidy_open (by rintro _ ⟨⟩; exact id) nofun nofun⟩ <|
    .step ⟨.exec (c := "c") (n := 0) rfl (granted_of_unguarded <| unguarded_update
        (unguarded_update (unguarded_update (fun _ => rfl) rfl) rfl) rfl)
      (.joinMembers "c" "g") (by simp), tidy_open (by rintro _ ⟨⟩; exact id) nofun nofun⟩ <|
    .step ⟨.exec (c := "c") (n := 0) rfl (granted_of_free rfl) (.joinGroups "c" "g") (by simp),
      tidy_open (by rintro _ ⟨⟩; exact id) nofun nofun⟩ <|
    .step ⟨.conn (c := "c") (e := .idle) rfl trivial rfl (.idle rfl),
      tidy_open (by rintro _ ⟨⟩; exact id) nofun nofun⟩ <|
    .single ⟨.closed (c := "c") rfl rfl (.closed rfl),
      tidy_open (by rintro _ ⟨⟩; exact id) nofun nofun⟩⟩, rfl, rfl, rfl, rfl, rfl, ?_, rfl, rfl, ?_⟩
  · intro u hu
    by_cases hu' : u = .handler "c" 0
    · subst hu'
      rfl
    · exact (Function.update_of_ne hu _ _).trans <| (Function.update_of_ne hu' _ _).trans <|
        (Function.update_of_ne hu' _ _).trans <| (Function.update_of_ne hu' _ _).trans <|
        (Function.update_of_ne hu _ _).trans (Function.update_of_ne hu _ _)
  · intro k hk
    have hempty : "c" ∉ (∅ : SetMap GroupName ConnId).values k := by simp
    exact ((SetMap.mem_values_add.mp hk).resolve_left hempty).1

variable (decode) in
/-- An access of the clean-up of `c`, beside which nobody is in a call. -/
theorem tidy_clean (hothers : ∀ t, t ≠ .main c → s.calls.pc t = .idle)
    (hpc : s.calls.pc (.main c) = pc) (hr : pc.Removing c)
    (hlisted : pc = .cleanTake c (.removal c) →
      ∀ g, s.calls.shared.Member c g → s.calls.shared.Lists c g)
    (hx : Exec s.calls.shared pc e sh pc') :
    ((hubSystem decode).restrict (Tidy c)).Tr s (.store (.main c) e) (s.goto (.main c) sh pc') ∧
      ∀ t, t ≠ .main c → (s.goto (.main c) sh pc').calls.pc t = .idle := by
  subst hpc
  have hfree : s.calls.Granted (.main c) := by
    refine fun k hk => granted_of_unguarded (fun t => ?_) k hk
    by_cases ht : t = .main c
    · rw [ht, removing_guards hr hk]
    · rw [hothers t ht]
      rfl
  have hjoin : ∀ g, s.calls.pc (.main c) ≠ .joinMembers c g ∧
      s.calls.pc (.main c) ≠ .joinGroups c g := by
    intro g
    constructor <;> intro heq <;> rw [heq] at hr <;> exact hr
  refine ⟨⟨.serve hfree hx, tidy_alone hothers hjoin hlisted nofun⟩, fun t ht => ?_⟩
  rw [Hub.calls_goto, goto_pc_ne _ ht, hothers t ht]

/-- A step of the connection of `c`, beside which nobody is in a call. -/
theorem tidy_conn {conn conn' : Conn} {ev : ConnEvent} (hc : s.conns c = some conn)
    (hidle : ∀ t, s.calls.pc t = .idle) (he : ev.Local)
    (hstep : ConnStep decode (s.view c conn) ev conn') :
    ((hubSystem decode).restrict (Tidy c)).Tr s (.conn c ev) (s.put c conn') :=
  ⟨.conn hc he (hidle _) hstep, tidy_alone (fun t _ => hidle t) (by simp [hidle])
    (by simp [hidle]) fun _ => hidle _⟩

variable (decode) in
/-- After its clean-up, a connection joins its writer and gets to its `on_disconnect`. -/
theorem removed_leaves {conn : Conn} (hothers : ∀ t, t ≠ .main c → s.calls.pc t = .idle)
    (hpc : s.calls.pc (.main c) = .idle) (hc : s.conns c = some conn)
    (hmain : conn.main = .removing) (hwriter : conn.writer = .select)
    (hcancel : s.calls.shared.cancelled c = true) :
    ∃ xs s', ((hubSystem decode).restrict (Tidy c)).Run s xs s' ∧ s'.Left c := by
  have hidle : ∀ t, s.calls.pc t = .idle := fun t =>
    if ht : t = .main c then ht ▸ hpc else hothers t ht
  have hcancel₁ : ∀ conn', conn'.cancelled = true →
      ((s.put c conn').view c conn').cancelled = true := by
    intro conn' h
    simp [Hub.view, Hub.put, h]
  exact ⟨_, _, .step (tidy_conn hc hidle (by trivial) (.removed hmain)) <|
    .step (tidy_conn (Function.update_self ..) hidle (by trivial)
      (.stopped hwriter (hcancel₁ _ hcancel))) <|
    .single (tidy_conn (Function.update_self ..) hidle (by trivial) (.disconnected rfl rfl)),
    .onDisconnect, Hub.main_put, trivial⟩

/-- Left alone, it deletes its group and gets to its `on_disconnect`. -/
theorem lastMember_leaves {conn : Conn} (h : s.LastMember c conn g) :
    ∃ xs s', ((hubSystem decode).restrict (Tidy c)).Run s xs s' ∧ s'.Left c := by
  obtain ⟨hc, hmain, hwriter, hcancel, hpc, hothers, hlists, hmembers, honly⟩ := h
  have hlisted : ∀ k, s.calls.shared.Member c k → s.calls.shared.Lists c k := by
    intro k hk
    simp [Shared.Lists, SetMap.values_of_lookup hlists, honly k hk]
  have hempty : (s.calls.shared.clients.groupMembers.discard g c).values g = ∅ := by
    simp [SetMap.values_of_lookup, SetMap.lookup_discard_self, hmembers]
  obtain ⟨h₁, ho₁⟩ := tidy_clean decode hothers hpc ⟨rfl, rfl⟩
    (fun _ => hlisted) (@Exec.cleanTaken _ c _ {g} [g] hlists (List.nodup_singleton g) (by simp))
  obtain ⟨h₂, ho₂⟩ := tidy_clean decode ho₁ (goto_pc _ _ _ _) ⟨rfl, rfl⟩ (by simp)
    (.cleanFound hmembers)
  obtain ⟨h₃, ho₃⟩ := tidy_clean decode ho₂ (goto_pc _ _ _ _) ⟨rfl, rfl⟩ (by simp) .cleanRemove
  obtain ⟨h₄, ho₄⟩ := tidy_clean decode ho₃ (goto_pc _ _ _ _) ⟨rfl, rfl⟩ (by simp)
    (.cleanEmpty hempty)
  obtain ⟨h₅, ho₅⟩ := tidy_clean decode ho₄ (goto_pc _ _ _ _) ⟨rfl, rfl⟩ (by simp) .cleanDelete
  obtain ⟨h₆, ho₆⟩ := tidy_clean decode ho₅ (goto_pc _ _ _ _) ⟨rfl, rfl⟩ (by simp) .cleanDone
  obtain ⟨h₇, ho₇⟩ := tidy_clean decode ho₆ (goto_pc _ _ _ (.removeEntry c)) rfl (by simp)
    (.removeEntry c)
  obtain ⟨xs, s', hrun, hleft⟩ :=
    removed_leaves decode ho₇ (goto_pc _ _ _ _) hc hmain hwriter hcancel
  exact ⟨_, s', .step h₁ <| .step h₂ <| .step h₃ <| .step h₄ <| .step h₅ <| .step h₆ <|
    .step h₇ hrun, hleft⟩

/-- A handler puts its connection into a group, and the connection is closed. -/
theorem gone_after_close : ∃ (s₀ s : Hub) (conn : Conn), s₀.LastMember "c" conn "g" ∧ s.Left "c" ∧
    s.Gone "c" := by
  obtain ⟨s₀, conn, hreach, hs₀⟩ := lastMember_run
  obtain ⟨xs, s, hrun, hleft⟩ := lastMember_leaves hs₀
  exact ⟨s₀, s, conn, hs₀, hleft, gone_after_teardown (hreach.extend hrun) hleft⟩

/-- A handler that is first polled after the teardown can put its connection into a group,
with nobody left to take it out. -/
theorem late_join {hs : ConnId → Nat → Option HandlerPos} {n : Nat} {w : WriterPos}
    {pos : MainPos} (h : s.Solo c hs) (hat : s.At c pos w .idle)
    (hpos : hs c n = some .spawned) (g : GroupName) :
    ∃ xs s', (hubSystem decode).Run s xs s' ∧ s'.main = s.main ∧ (∀ t, s'.calls.pc t = .idle) ∧
      s'.calls.shared.Member c g ∧ s'.calls.shared.Lists c g := by
  obtain rfl := h.handlers
  have hidle : ∀ t, s.calls.pc t = .idle := by
    intro t
    by_cases ht : t = .main c
    · rw [ht, hat.pc]
    · exact h.others t ht
  let s₁ := s.setHandler c n .running
  let s₂ := s₁.goto (.handler c n) s₁.calls.shared (.joinMembers c g)
  let s₃ := s₂.goto (.handler c n) (s₂.calls.shared.set (s₂.calls.shared.clients.setGroupMembers
    (s₂.calls.shared.clients.groupMembers.add g c))) (.joinGroups c g)
  have hrunning : s₁.handlers c n = some .running := by simp [s₁, Hub.setHandler]
  have hmembers : s₂.calls.pc (.handler c n) = .joinMembers c g := goto_pc _ _ _ _
  have hgroups : s₃.calls.pc (.handler c n) = .joinGroups c g := goto_pc _ _ _ _
  have hfree : s₂.calls.Granted (.handler c n) := by
    apply granted_of_unguarded
    refine forall_goto (P := fun _ pc => pc.guards = []) _ rfl fun u _ => ?_
    rw [Hub.calls_setHandler, hidle]
    rfl
  have hjoin : HubStep decode s₂ (.store (.handler c n) .access) s₃ :=
    .at hrunning hmembers hfree (.joinMembers c g) (by simp)
  refine ⟨_, _, .step (.start hpos) <| .step (.call (.addToGroup c g) hrunning (hidle _) trivial) <|
    .step hjoin <| .single (.at hrunning hgroups (granted_of_free (by rw [hgroups]; rfl))
      (.joinGroups c g) (by simp)), rfl, fun t => ?_, ?_, ?_⟩
  · by_cases ht : t = .handler c n
    · rw [ht, Hub.calls_goto, goto_pc]
    · simp only [s₃, s₂, s₁, Hub.calls_goto, goto_pc_ne _ ht]
      exact hidle t
  · simp [s₃, Shared.Member, Shared.set]
  · simp [Shared.Lists, Shared.set]

/-- A frame's handler is first polled after `on_disconnect`, and joins a group. -/
theorem late_handler_not_gone : ∃ s : Hub,
    (hubSystem fun _ => some ()).Reachable Hub.Fresh s ∧ s.Left "c" ∧ ¬ s.Gone "c" := by
  obtain ⟨xs, s₁, hopen, hs₁, hat₁⟩ :=
    solo_opens (fun _ => some ()) (solo_start .block "c") rfl rfl
  have hspawn : handleFrame (fun _ => some ()) (.text "join") = .spawn () := rfl
  obtain ⟨s₂, hframe, hs₂, hat₂⟩ := solo_frame (n := 0) hs₁ hat₁ rfl hspawn
  obtain ⟨ys, s₃, hclose, hs₃, hat₃⟩ := solo_closes hs₂ hat₂
  obtain ⟨zs, s₄, hjoin, hmain, _, hmember, _⟩ := late_join hs₃ hat₃ (n := 0) (by simp) "g"
  have hleft : s₄.Left "c" := ⟨.onDisconnect, by rw [hmain, hat₃.main], trivial⟩
  exact ⟨s₄, ⟨_, hub_start_fresh .block, _, hopen.of_restrict.append <| .step hframe <|
    hclose.of_restrict.append hjoin⟩, hleft, fun hgone => hgone.nowhere "g" hmember⟩

end AxumSignal

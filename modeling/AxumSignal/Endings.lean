import AxumSignal.Teardown

/-! The ways in which the future of `serve_hub_with_clients` can end once its connection is
registered: it returns, a panic unwinds it, or it is dropped where it is suspended. -/
namespace AxumSignal

open Transition Calls

variable {Req : Type} {decode : Message → Option Req} {s s' : Hub} {l : HubLabel}
  {c d : ConnId} {g : GroupName} {e : Event} {pc pc' : Pc} {sh sh' : Shared} {t : HubTask}
  {conn conn' : Conn} {pos : MainPos}

/-- How a future ends without returning. -/
inductive Ending where
  | dropped
  | panicked
  deriving DecidableEq

/-- The loop has not returned yet. -/
def ReadPos.Running : ReadPos → Prop
  | .done _ => False
  | _ => True

/-- Where the future can end so. It is dropped where it awaits: `remove` is awaited too, but is
never pending. It panics in a hook, or in the read loop; a `heartbeat_interval` of zero makes
`interval` panic when the loop is set up, at the return of `on_connect`. -/
def MainPos.EndsBy : MainPos → Ending → Prop
  | .onConnect, _ | .onDisconnect, _ => True
  | .reading pos, _ => pos.Running
  | .awaitWriter, how => how = .dropped
  | _, _ => False

/-- A hub, and the connections whose future has ended without returning. -/
structure Service where
  hub : Hub
  gone : ConnId → Bool

/-- The steps of a connection that its serve task takes. -/
def ConnEvent.OfServe : ConnEvent → Prop
  | .registered | .connected | .frame _ | .streamClosed | .readError | .idle | .tick | .enqueued
  | .rejected | .observed | .closed | .removed | .disconnected | .finished => True
  | _ => False

/-- The steps of the serve task of `c`. -/
def HubLabel.ByServe (c : ConnId) : HubLabel → Prop
  | .accept d => d = c
  | .conn d e => d = c ∧ e.OfServe
  | .store (.main d) _ => d = c
  | _ => False

/-- The handler calls nothing that changes groups. -/
def HubLabel.Groupless : HubLabel → Prop
  | .call _ _ (.addToGroup _ _) | .call _ _ (.removeFromGroup _ _) => False
  | _ => True

inductive ServiceLabel where
  | hub (l : HubLabel)
  | ends (c : ConnId) (how : Ending)

/-- A step of the hub in which no future that has ended takes part, or the end of one. The
writer and the handlers of a connection go on without it. -/
inductive ServiceStep (decode : Message → Option Req) :
    Service → ServiceLabel → Service → Prop where
  | hub {s : Service} {l : HubLabel} {h : Hub} (hstep : HubStep decode s.hub l h)
      (hlive : ∀ c, l.ByServe c → s.gone c = false) (hgroups : l.Groupless) :
      ServiceStep decode s (.hub l) { s with hub := h }
  | ends {s : Service} {c : ConnId} {pos : MainPos} (how : Ending)
      (hpos : s.hub.main c = some pos) (hends : pos.EndsBy how)
      (hidle : s.hub.calls.pc (.main c) = .idle) (hlive : s.gone c = false) :
      ServiceStep decode s (.ends c how) { s with gone := Function.update s.gone c true }

/-- The system of all connections, their futures ending in any way. -/
def serviceSystem (decode : Message → Option Req) : LTS Service ServiceLabel :=
  ⟨ServiceStep decode⟩

def Service.Fresh (s : Service) : Prop := s.hub.Fresh ∧ ∀ c, s.gone c = false

/-- The future of `c` has ended. -/
def Service.Over (s : Service) (c : ConnId) : Prop :=
  s.gone c = true ∨ s.hub.main c = some .ended

/-- Every connection whose future has ended is in none of the three maps, and its token is
cancelled. -/
def Service.Orderly (s : Service) : Prop :=
  ∀ c, s.Over c → s.hub.Gone c ∧ s.hub.calls.shared.cancelled c = true

/-- A future ends early while the token of its connection is not cancelled. -/
def Service.Abandons (s : Service) (l : ServiceLabel) : Prop :=
  ∃ c how, l = .ends c how ∧ s.hub.calls.shared.cancelled c = false

/-- The call is one of the two updates of an `add_to_group`. -/
def Pc.Joins : Pc → Prop
  | .joinMembers _ _ | .joinGroups _ _ => True
  | _ => False

theorem Pc.Follows.not_joins (h : pc.Follows) : ¬ pc.Joins := by
  cases pc <;> first | exact h.elim | exact id

theorem exec_not_joins (hx : Exec sh pc e sh' pc') (h : ¬ pc.Joins) : ¬ pc'.Joins := by
  cases hx with
  | next => exact (follows_firstAccess _ _ _).not_joins
  | drop => exact (follows_afterDrop _ _ _).not_joins
  | accept | resume => exact (follows_accepted _ _).not_joins
  | refuse | disconnect => exact (follows_refused _ _).not_joins
  | cleanNothing | cleanDone => exact (follows_cont _).not_joins
  | joinMembers => exact (h trivial).elim
  | _ => exact id

/-- Nobody is in a group, or on the way into one. -/
structure Hub.Groupless (s : Hub) : Prop where
  joins : ∀ t, ¬ (s.calls.pc t).Joins
  unlisted : ∀ c, s.calls.shared.clients.connectionGroups.lookup c = none
  nowhere : ∀ c g, ¬ s.calls.shared.Member c g

theorem groupless_start {op : Op} (h : op.start.Joins) : ∃ c g, op = .addToGroup c g := by
  unfold Op.start at h
  split at h <;> first | exact ⟨_, _, rfl⟩ | exact h.elim

theorem groupless_joins (hs : s.Groupless) (hl : l.Groupless) (h : HubStep decode s l s')
    (t : HubTask) : ¬ (s'.calls.pc t).Joins := by
  have hgoto {calls : Calls HubTask} (hcalls : calls.pc = s.calls.pc) {u : HubTask} (sh : Shared)
      {pc : Pc} (hpc : ¬ pc.Joins) : ¬ ((calls.goto u sh pc).pc t).Joins :=
    forall_goto (P := fun _ pc => ¬ pc.Joins) sh hpc (fun v _ => hcalls ▸ hs.joins v) t
  cases h with
  | accept | closed => exact hgoto rfl _ id
  | conn | writer | start | work | finish => exact hs.joins t
  | @frame d conn conn' msg n rtt =>
    rcases handled_calls (s := s.put d conn') rtt (handleFrame decode msg) with h | ⟨r, h⟩
    · rw [h]
      exact hs.joins t
    · rw [h]
      exact hgoto rfl _ id
  | serve _ hx => exact hgoto rfl _ (exec_not_joins hx (hs.joins _))
  | exec _ _ hx => exact hgoto rfl _ (exec_not_joins hx (hs.joins _))
  | panic _ hx => exact hgoto rfl _ (exec_not_joins hx (hs.joins _))
  | call op =>
    refine hgoto rfl _ fun hj => ?_
    obtain ⟨c, g, rfl⟩ := groupless_start hj
    exact hl
  | drop => exact hgoto rfl _ id

theorem groupless_step (hs : s.Groupless) (hl : l.Groupless) (h : HubStep decode s l s') :
    s'.Groupless := by
  have hno : ∀ c, NoJoin c s l := by
    intro c t e _ g
    have ht := hs.joins t
    refine ⟨?_, ?_⟩ <;> intro hpc <;> rw [hpc] at ht <;> exact ht trivial
  exact {
    joins := groupless_joins hs hl h
    unlisted := fun c => (hubStep_store h).unlisted (hno c) (hs.unlisted c)
    nowhere := fun c g hm => hs.nowhere c g ((hubStep_store h).member (hno c) hm) }

/-- The `add` call of `c` has returned. -/
def Hub.Entered (s : Hub) (c : ConnId) : Prop :=
  (∃ pos, s.main c = some pos) ∧ ∀ x k f, s.calls.pc (.main c) ≠ .insert c x k f

/-- `c` was registered, and is so no more. -/
def Hub.Out (s : Hub) (c : ConnId) : Prop :=
  s.Entered c ∧ s.calls.shared.clients.connections.lookup c = none

/-- A serve task never vanishes. -/
theorem main_stays (h : HubStep decode s l s') (hpos : s.main c = some pos) :
    ∃ pos', s'.main c = some pos' := by
  cases hubStep_serve h c with
  | same _ hmain _ => exact ⟨pos, hmain ▸ hpos⟩
  | accept _ hmain => simp [hmain] at hpos
  | moves _ _ _ hmain' => exact ⟨_, hmain'⟩
  | frame _ _ hmain' => exact ⟨_, hmain'⟩
  | closed _ _ hmain' => exact ⟨_, hmain'⟩
  | exec _ hmain => exact ⟨pos, hmain ▸ hpos⟩

theorem entered_step (h : s.Entered c) (hstep : HubStep decode s l s') : s'.Entered c := by
  obtain ⟨⟨pos, hpos⟩, hpc⟩ := h
  refine ⟨main_stays hstep hpos, ?_⟩
  cases hubStep_serve hstep c with
  | same _ _ hpc' => rwa [hpc']
  | accept _ hmain => simp [hmain] at hpos
  | moves _ _ _ _ _ _ hpc' => simp [hpc']
  | frame _ _ _ _ hpc' => rcases hpc' with hpc' | ⟨rtt, hpc'⟩ <;> simp [hpc']
  | closed _ _ _ _ hpc' => simp [hpc']
  | exec _ _ hx hcalls =>
    intro x k f
    rw [hcalls, goto_pc]
    exact exec_insert hx

theorem out_step (hs : s.Inserting) (h : s.Out c) (hstep : HubStep decode s l s') : s'.Out c := by
  refine ⟨entered_step h.1 hstep, ?_⟩
  rcases (hubStep_store hstep).clients with hsame | ⟨t, e, sh, pc, -, hx, hcalls⟩
  · exact hsame ▸ h.2
  · rw [hcalls]
    refine exec_unregistered hx h.2 fun x k f hpc => ?_
    obtain rfl := hs _ _ _ _ _ hpc
    exact h.1.2 x k f hpc

/-- A serve task inserts its connection under its own names. -/
theorem Hub.Calling.insert {id : ConnId} {x : Sender} {k : CancelToken} {f : OnDropFn}
    (h : s.Calling id) (hpc : s.calls.pc (.main id) = .insert id x k f) :
    s.main id = some .registering ∧ k = id := by
  rw [Hub.Calling, hpc] at h
  cases hm : s.main id with
  | none => simp [hm] at h
  | some pos =>
    rw [hm] at h
    cases pos with
    | registering =>
      rcases h with h | h
      · cases h
      · exact ⟨rfl, (Pc.insert.inj h).2.2.1⟩
    | reading => rcases h with h | ⟨_, h⟩ | ⟨_, _, h⟩ <;> cases h
    | removing =>
      rcases h with h | h
      · cases h
      · exact h.elim
    | onConnect | awaitWriter | onDisconnect | ended => cases h

/-- Every registration names its token by its connection, every registered connection has
entered, and a connection that a policy is about to cancel is out. -/
structure Hub.Named (s : Hub) : Prop where
  token : ∀ h < s.calls.shared.clients.allocated,
    (s.calls.shared.clients.states h).cancel = (s.calls.shared.clients.states h).id
  entered : ∀ c, s.calls.shared.clients.connections.lookup c ≠ none → s.Entered c
  evicting : ∀ t victim id d, s.calls.pc t = .evictCancel victim id d →
    victim < s.calls.shared.clients.allocated ∧
      (s.calls.shared.clients.states victim).id = id ∧ s.Out id

theorem hub_persists (h : HubStep decode s l s') :
    s'.calls.shared.clients = s.calls.shared.clients ∨
      Persists s.calls.shared s'.calls.shared := by
  refine (hubStep_store h).clients.imp_right ?_
  rintro ⟨t, e, sh, pc, -, hx, hcalls⟩
  rw [hcalls]
  exact exec_persists hx

theorem named_token (hc : ∀ d, s.Calling d) (hi : s.Inserting) (hs : s.Named)
    (h : HubStep decode s l s') (k : Handle) (hk : k < s'.calls.shared.clients.allocated) :
    (s'.calls.shared.clients.states k).cancel = (s'.calls.shared.clients.states k).id := by
  rcases (hubStep_store h).clients with hsame | ⟨t, e, sh, pc, -, hx, hcalls⟩
  · rw [hsame] at hk ⊢
    exact hs.token k hk
  · rw [hcalls] at hk ⊢
    have hold (hlt : k < s.calls.shared.clients.allocated) :
        (sh.clients.states k).cancel = (sh.clients.states k).id := by
      have hp := exec_persists hx
      have hcancel := congrArg Registration.cancel (hp.registration k hlt)
      exact (hcancel.trans (hs.token k hlt)).trans (hp.id k hlt).symm
    rcases exec_allocated hx with hsame | ⟨id, x, token, f, hpc, hclients⟩
    · exact hold (hsame ▸ hk)
    · by_cases hlt : k < s.calls.shared.clients.allocated
      · exact hold hlt
      · obtain rfl := hi _ _ _ _ _ hpc
        obtain ⟨-, rfl⟩ := (hc _).insert hpc
        change k < sh.clients.allocated at hk
        rw [hclients] at hk
        have heq : k = s.calls.shared.clients.allocated :=
          Nat.le_antisymm (Nat.lt_succ_iff.mp hk) (Nat.not_lt.mp hlt)
        subst heq
        change (sh.clients.states _).cancel = (sh.clients.states _).id
        rw [hclients]
        simp [InMemoryWsClients.insertConnection]

theorem named_entered (hc : ∀ d, s.Calling d) (hi : s.Inserting) (hs : s.Named)
    (h : HubStep decode s l s') (c : ConnId)
    (hl : s'.calls.shared.clients.connections.lookup c ≠ none) : s'.Entered c := by
  by_cases hold : s.calls.shared.clients.connections.lookup c = none
  · rcases (hubStep_store h).clients with hsame | ⟨t, e, sh, pc, -, hx, hcalls⟩
    · exact (hl (hsame ▸ hold)).elim
    · rw [hcalls] at hl
      obtain ⟨x, k, f, hpc⟩ : ∃ x k f, s.calls.pc t = .insert c x k f := by
        by_contra hno
        exact hl (exec_unregistered hx hold fun x k f hpc => hno ⟨x, k, f, hpc⟩)
      obtain rfl := hi _ _ _ _ _ hpc
      obtain ⟨hmain, -⟩ := (hc _).insert hpc
      refine ⟨main_stays h hmain, fun x k f => ?_⟩
      rw [hcalls, goto_pc]
      exact exec_insert hx
  · exact entered_step (hs.entered c hold) h

theorem named_evicting (hi : s.Inserting) (hs : s.Named) (h : HubStep decode s l s')
    (u : HubTask) (victim : Handle) (id : ConnId) (d : Delivery)
    (hpc : s'.calls.pc u = .evictCancel victim id d) :
    victim < s'.calls.shared.clients.allocated ∧
      (s'.calls.shared.clients.states victim).id = id ∧ s'.Out id := by
  have hkeep : s.calls.pc u = .evictCancel victim id d →
      victim < s'.calls.shared.clients.allocated ∧
        (s'.calls.shared.clients.states victim).id = id ∧ s'.Out id := by
    intro hold
    obtain ⟨halloc, hid, hout⟩ := hs.evicting u victim id d hold
    rcases hub_persists h with hclients | hp
    · rw [hclients]
      exact ⟨halloc, hid, out_step hi hout h⟩
    · exact ⟨Nat.lt_of_lt_of_le halloc hp.allocated, (hp.id _ halloc).trans hid,
        out_step hi hout h⟩
  have hother {t : HubTask} {next : Pc} (hpcs : s'.calls.pc = Function.update s.calls.pc t next)
      (hut : u ≠ t) : s.calls.pc u = .evictCancel victim id d := by
    rwa [hpcs, Function.update_of_ne hut] at hpc
  cases hubStep_store h with
  | still _ _ hpcs => exact hkeep (hpcs ▸ hpc)
  | @start t op _ _ _ _ hpcs =>
    by_cases hut : u = t
    · subst hut
      rw [hpcs, Function.update_self] at hpc
      exact (start_ne_evictCancel hpc).elim
    · exact hkeep (hother hpcs hut)
  | @drop t _ _ _ hpcs =>
    by_cases hut : u = t
    · subst hut
      rw [hpcs, Function.update_self] at hpc
      cases hpc
    · exact hkeep (hother hpcs hut)
  | @exec t e sh pc _ hx hcalls =>
    by_cases hut : u = t
    · subst hut
      rw [hcalls, goto_pc] at hpc
      subst hpc
      obtain ⟨hl, hnone⟩ := exec_evictCancel hx
      have hp := exec_persists hx
      have halloc := s.calls.shared.clients.key_allocated _ _ hl
      have hentered := hs.entered id (by simp [hl])
      have hout : s'.Out id := ⟨entered_step hentered h, by rw [hcalls]; exact hnone⟩
      refine ⟨?_, ?_, hout⟩
      · rw [hcalls]
        exact Nat.lt_of_lt_of_le halloc hp.allocated
      · rw [hcalls]
        exact (hp.id _ halloc).trans (s.calls.shared.clients.key_id _ _ hl)
    · exact hkeep (hother (by rw [hcalls]; rfl) hut)

theorem named_step (hc : ∀ d, s.Calling d) (hi : s.Inserting) (hs : s.Named)
    (h : HubStep decode s l s') : s'.Named where
  token := named_token hc hi hs h
  entered := named_entered hc hi hs h
  evicting := named_evicting hi hs h

/-- What a step does to the token of `c`. -/
inductive TokenStep (c : ConnId) (s s' : Hub) : Prop where
  | same (h : s'.calls.shared.cancelled c = s.calls.shared.cancelled c)
  | accepted (hmain : s.main c = none) (h : s'.calls.shared.cancelled c = false)
  | closed (hmain' : s'.main c = some .removing) (h : s'.calls.shared.cancelled c = true)
  | evicted {t : HubTask} {victim : Handle} {id : ConnId} {d : Delivery}
      (hpc : s.calls.pc t = .evictCancel victim id d)
      (hcancel : (s.calls.shared.clients.states victim).cancel = c)
      (h : s'.calls.shared.cancelled c = true)

theorem connStep_cancelled {e : ConnEvent} (he : e.Local ∨ ∃ msg, e = .frame msg)
    (h : ConnStep decode conn e conn') : conn'.cancelled = conn.cancelled := by
  cases h with
  | closed | cancelled => rcases he with he | ⟨_, he⟩ <;> first | exact he.elim | cases he
  | _ => rfl

theorem exec_token (hx : Exec sh pc e sh' pc') (c : ConnId) :
    sh'.cancelled c = sh.cancelled c ∨ ∃ victim id d, pc = .evictCancel victim id d ∧
      (sh.clients.states victim).cancel = c ∧ sh'.cancelled c = true := by
  cases hx with
  | @evictCancel victim id d =>
    by_cases hcancel : (sh.clients.states victim).cancel = c
    · exact Or.inr ⟨victim, id, d, rfl, hcancel, by simp [Shared.cancel, hcancel]⟩
    · exact Or.inl (by simp [Shared.cancel, Ne.symm hcancel])
  | _ => exact Or.inl rfl

@[simp] theorem cancelled_put : (s.put c conn).calls.shared.cancelled c = conn.cancelled := by
  simp [Hub.put]

theorem cancelled_put_ne (h : c ≠ d) :
    (s.put d conn).calls.shared.cancelled c = s.calls.shared.cancelled c := by
  simp [Hub.put, h]

theorem handled_cancelled {n : Nat} (rtt : Option Nat) (a : FrameAction Req) :
    (s.handled d n rtt a).calls.shared.cancelled = s.calls.shared.cancelled := by
  rcases handled_calls (s := s) (c := d) (n := n) rtt a with h | ⟨r, h⟩
  · rw [h]
  · rw [h]
    rfl

/-- A step that writes back a connection whose token it keeps. -/
theorem TokenStep.put (hconn : conn'.cancelled = (s.view d conn).cancelled) {s' : Hub}
    (hs' : s'.calls.shared.cancelled = (s.put d conn').calls.shared.cancelled) :
    TokenStep c s s' := by
  refine .same ?_
  rw [hs']
  by_cases hd : c = d
  · subst hd
    rw [cancelled_put, hconn]
    rfl
  · exact cancelled_put_ne hd

theorem TokenStep.exec (hx : Exec s.calls.shared (s.calls.pc t) e sh pc)
    (hs' : s'.calls.shared = sh) : TokenStep c s s' := by
  rcases exec_token hx c with hsame | ⟨victim, id, d, hpc, hcancel, htrue⟩
  · exact .same (hs' ▸ hsame)
  · exact .evicted hpc hcancel (hs' ▸ htrue)

theorem accept_cancelled (h : HubStep decode s (.accept c) s') :
    s'.calls.shared.cancelled c = false := by
  cases h
  exact cancelled_put

theorem closed_cancelled (h : HubStep decode s (.conn c .closed) s') :
    s'.calls.shared.cancelled c = true := by
  cases h with
  | conn _ he => exact he.elim
  | writer _ he => exact he.elim
  | closed _ _ hstep =>
    refine cancelled_put.trans ?_
    cases hstep
    rfl

theorem hubStep_token (h : HubStep decode s l s') (c : ConnId) : TokenStep c s s' := by
  cases h with
  | @accept d capacity window hnew =>
    by_cases hd : c = d
    · subst hd
      exact .accepted (by simp [Hub.main, hnew]) cancelled_put
    · exact .same (cancelled_put_ne hd)
  | conn _ he _ hstep => exact .put (connStep_cancelled (Or.inl he) hstep) rfl
  | writer _ he hstep => exact .put (connStep_cancelled (Or.inl he) hstep) rfl
  | frame rtt _ _ _ hstep =>
    exact .put (connStep_cancelled (Or.inr ⟨_, rfl⟩) hstep) (handled_cancelled _ _)
  | @closed d conn conn' hc hidle hstep =>
    by_cases hd : c = d
    · subst hd
      obtain ⟨-, hpos⟩ := closed_main hstep
      exact .closed (by simp [hpos]) (closed_cancelled (.closed hc hidle hstep))
    · exact .same (cancelled_put_ne hd)
  | serve _ hx => exact .exec hx rfl
  | exec _ _ hx => exact .exec hx rfl
  | panic _ hx => exact .exec hx rfl
  | start | call | work | finish | drop => exact .same rfl

/-- The serve task of `c` is past its read loop. -/
def Hub.Closing (s : Hub) (c : ConnId) : Prop := ∃ pos, s.main c = some pos ∧ pos.Closing

theorem mainStep_closing {pos' : MainPos} {e : ConnEvent} (h : MainStep pos e pos')
    (hclosing : pos.Closing) : pos'.Closing := by
  cases h with
  | removed | disconnected | finished => trivial
  | stays => exact hclosing
  | _ => exact hclosing.elim

theorem closing_stays (h : s.Closing c) (hstep : HubStep decode s l s') : s'.Closing c := by
  obtain ⟨pos, hpos, hclosing⟩ := h
  cases hubStep_serve hstep c with
  | same _ hmain _ => exact ⟨pos, hmain ▸ hpos, hclosing⟩
  | accept _ hmain => simp [hmain] at hpos
  | @moves p p' _ _ _ hmain hmain' hmove =>
    obtain rfl : p = pos := by simpa [hmain] using hpos
    exact ⟨p', hmain', mainStep_closing hmove hclosing⟩
  | @frame p _ _ _ hmain =>
    obtain rfl : MainPos.reading p = pos := by simpa [hmain] using hpos
    exact hclosing.elim
  | closed _ _ hmain' => exact ⟨_, hmain', trivial⟩
  | exec _ hmain => exact ⟨pos, hmain ▸ hpos, hclosing⟩

/-- The token of an accepted connection is cancelled once its teardown has begun, and only then
or when an eviction has taken the connection out. -/
structure Hub.Signalled (s : Hub) (c : ConnId) : Prop where
  closing : s.Closing c → s.calls.shared.cancelled c = true
  cancelled : (∃ pos, s.main c = some pos) → s.calls.shared.cancelled c = true →
    s.Closing c ∨ s.Out c

theorem main_before (h : HubStep decode s l s') (hpos : s'.main c = some pos) :
    (∃ pos, s.main c = some pos) ∨ l = .accept c := by
  cases hubStep_serve h c with
  | same _ hmain => exact Or.inl ⟨pos, hmain ▸ hpos⟩
  | accept hl => exact Or.inr hl
  | moves _ _ hmain => exact Or.inl ⟨_, hmain⟩
  | frame _ hmain => exact Or.inl ⟨_, hmain⟩
  | closed _ hmain => exact Or.inl ⟨_, hmain⟩
  | exec _ hmain => exact Or.inl ⟨pos, hmain ▸ hpos⟩

/-- A cancelled token stays so. -/
theorem cancelled_stays (hpos : s.main c = some pos) (h : HubStep decode s l s')
    (hc : s.calls.shared.cancelled c = true) : s'.calls.shared.cancelled c = true := by
  cases hubStep_token h c with
  | same hsame => exact hsame.trans hc
  | accepted hmain => simp [hmain] at hpos
  | closed _ h => exact h
  | evicted _ _ h => exact h

theorem signalled_closing (hs : s.Signalled c) (h : HubStep decode s l s')
    (hclosing : s'.Closing c) : s'.calls.shared.cancelled c = true := by
  have hkeep : s.Closing c → s'.calls.shared.cancelled c = true := by
    intro hold
    obtain ⟨pos, hpos, -⟩ := id hold
    exact cancelled_stays hpos h (hs.closing hold)
  obtain ⟨pos, hpos, hc⟩ := hclosing
  cases hubStep_serve h c with
  | same _ hmain => exact hkeep ⟨pos, hmain ▸ hpos, hc⟩
  | accept _ _ hmain' =>
    obtain rfl : MainPos.registering = pos := by simpa [hmain'] using hpos
    exact hc.elim
  | @moves p p' _ _ he hmain hmain' hmove =>
    obtain rfl : p' = pos := by simpa [hmain'] using hpos
    exact hkeep ⟨p, hmain, closing_of_moves he hmove hc⟩
  | @frame _ p' _ _ _ hmain' =>
    obtain rfl : MainPos.reading p' = pos := by simpa [hmain'] using hpos
    exact hc.elim
  | closed hl =>
    subst hl
    exact closed_cancelled h
  | exec _ hmain => exact hkeep ⟨pos, hmain ▸ hpos, hc⟩

theorem signalled_cancelled (hi : s.Inserting) (hn : s.Named) (hs : s.Signalled c)
    (h : HubStep decode s l s') (hpos : s'.main c = some pos)
    (hc : s'.calls.shared.cancelled c = true) : s'.Closing c ∨ s'.Out c := by
  rcases main_before h hpos with hbefore | rfl
  · cases hubStep_token h c with
    | same hsame =>
      rcases hs.cancelled hbefore (hsame.symm.trans hc) with hold | hold
      · exact Or.inl (closing_stays hold h)
      · exact Or.inr (out_step hi hold h)
    | accepted hmain =>
      obtain ⟨pos', hpos'⟩ := hbefore
      simp [hmain] at hpos'
    | closed hmain' => exact Or.inl ⟨_, hmain', trivial⟩
    | @evicted t victim id d hpc hcancel =>
      obtain ⟨halloc, hid, hout⟩ := hn.evicting t victim id d hpc
      obtain rfl : id = c := by rw [← hid, ← hn.token victim halloc, hcancel]
      exact Or.inr (out_step hi hout h)
  · rw [accept_cancelled h] at hc
    cases hc

theorem signalled_step (hi : s.Inserting) (hn : s.Named) (hs : s.Signalled c)
    (h : HubStep decode s l s') : s'.Signalled c where
  closing := signalled_closing hs h
  cancelled := fun ⟨_, hpos⟩ hc => signalled_cancelled hi hn hs h hpos hc

/-- What every run without group calls keeps. -/
structure Hub.Ruled (s : Hub) : Prop where
  served : ∀ c, s.Served c
  groupless : s.Groupless
  named : s.Named
  signalled : ∀ c, s.Signalled c

theorem ruled_step (hs : s.Ruled) (hl : l.Groupless) (h : HubStep decode s l s') : s'.Ruled := by
  have hcalling := fun d => (hs.served d).calling
  have hinserting : s.Inserting := (hs.served "").inserting
  exact {
    served := fun c => served_step (hs.served c) h
    groupless := groupless_step hs.groupless hl h
    named := named_step hcalling hinserting hs.named h
    signalled := fun c => signalled_step hinserting hs.named (hs.signalled c) h }

theorem ruled_fresh (h : s.Fresh) : s.Ruled := by
  obtain ⟨⟨⟨policy, shard, hnew⟩, hquiet⟩, hconns, -⟩ := id h
  have hmain : ∀ c, s.main c = none := fun c => by simp [Hub.main, hconns]
  refine ⟨served_fresh h, ⟨fun t => ?_, fun c => ?_, fun c g => ?_⟩,
    ⟨fun k hk => ?_, fun c hl => ?_, fun t victim id d hpc => ?_⟩, fun c => ⟨?_, ?_⟩⟩
  · rw [hquiet t]
    exact id
  · simp [hnew, InMemoryWsClients.new]
  · simp [Shared.Member, hnew, InMemoryWsClients.new]
  · simp [hnew, InMemoryWsClients.new] at hk
  · simp [hnew, InMemoryWsClients.new] at hl
  · simp [hquiet t] at hpc
  · rintro ⟨pos, hpos, -⟩
    simp [hmain] at hpos
  · rintro ⟨pos, hpos⟩
    simp [hmain] at hpos

/-- Between two calls, a connection is in order exactly if its token is cancelled. -/
theorem gone_iff (hs : s.Ruled) (hpos : s.main c = some pos)
    (hidle : s.calls.pc (.main c) = .idle) :
    (s.Gone c ∧ s.calls.shared.cancelled c = true) ↔ s.calls.shared.cancelled c = true := by
  refine ⟨And.right, fun hc => ⟨⟨?_, hs.groupless.unlisted c, hs.groupless.nowhere c⟩, hc⟩⟩
  rcases (hs.signalled c).cancelled ⟨pos, hpos⟩ hc with hclosing | hout
  · exact (hs.served c).removed ⟨hclosing, hidle⟩
  · exact hout.2

theorem gone_ended (hs : s.Ruled) (hpos : s.main c = some .ended) :
    s.Gone c ∧ s.calls.shared.cancelled c = true := by
  have hidle : s.calls.pc (.main c) = .idle := (hs.served c).calling.at hpos
  exact (gone_iff hs hpos hidle).mpr ((hs.signalled c).closing ⟨_, hpos, trivial⟩)

/-- What every run of the service keeps. -/
structure Service.Ruled (s : Service) : Prop where
  hub : s.hub.Ruled
  gone : ∀ c, s.gone c = true →
    (∃ pos, s.hub.main c = some pos) ∧ s.hub.calls.pc (.main c) = .idle

variable {u w : Service} {sl : ServiceLabel} {xs : List ServiceLabel}

theorem service_fresh (h : u.Fresh) : u.Ruled ∧ u.Orderly := by
  obtain ⟨hhub, hgone⟩ := h
  refine ⟨⟨ruled_fresh hhub, fun c hc => by simp [hgone c] at hc⟩, ?_⟩
  rintro c (hc | hc)
  · simp [hgone c] at hc
  · simp [Hub.main, hhub.2.1] at hc

theorem ruled_service_step (hs : u.Ruled) (h : ServiceStep decode u sl w) : w.Ruled := by
  cases h with
  | @hub l h hstep hlive hgroups =>
    refine ⟨ruled_step hs.hub hgroups hstep, fun c hc => ?_⟩
    have hout : ¬ l.ByServe c := fun hl => by simp [hlive c hl] at hc
    obtain ⟨⟨pos, hpos⟩, hidle⟩ := hs.gone c hc
    refine ⟨main_stays hstep hpos, ?_⟩
    cases hubStep_serve hstep c with
    | same _ _ hpc => exact hpc.trans hidle
    | accept hl => exact (hout (hl ▸ rfl)).elim
    | moves _ _ _ _ _ _ hpc' => exact hpc'
    | frame hl => exact (hout (hl ▸ ⟨rfl, trivial⟩)).elim
    | closed hl => exact (hout (hl ▸ ⟨rfl, trivial⟩)).elim
    | exec hl => exact (hout (hl ▸ rfl)).elim
  | @ends c pos how hpos hends hidle hlive =>
    refine ⟨hs.hub, fun d hd => ?_⟩
    by_cases hcd : d = c
    · subst hcd
      exact ⟨⟨pos, hpos⟩, hidle⟩
    · exact hs.gone d (by simpa [hcd] using hd)

/-- Whether a connection whose future has ended early is in order, its token tells. -/
theorem orderly_gone_iff (hs : u.Ruled) (hc : u.gone c = true) :
    (u.hub.Gone c ∧ u.hub.calls.shared.cancelled c = true) ↔
      u.hub.calls.shared.cancelled c = true := by
  obtain ⟨⟨pos, hpos⟩, hidle⟩ := hs.gone c hc
  exact gone_iff hs.hub hpos hidle

theorem orderly_step_iff (hs : u.Ruled) (ho : u.Orderly) (h : ServiceStep decode u sl w) :
    w.Orderly ↔ ¬ u.Abandons sl := by
  have hw := ruled_service_step hs h
  cases h with
  | @hub l h hstep hlive hgroups =>
    refine iff_of_true ?_ ?_
    · rintro c (hc | hc)
      · obtain ⟨⟨pos, hpos⟩, -⟩ := hs.gone c hc
        have hold := (ho c (Or.inl hc)).2
        exact (orderly_gone_iff hw hc).mpr (cancelled_stays hpos hstep hold)
      · exact gone_ended hw.hub hc
    · rintro ⟨c, how, hl, -⟩
      cases hl
  | @ends c pos how hpos hends hidle hlive =>
    constructor
    · rintro hord ⟨d, how', hl, hfalse⟩
      cases hl
      have htrue := (hord c (Or.inl (by simp))).2
      simp [hfalse] at htrue
    · intro hno d hd
      by_cases hcd : d = c
      · subst hcd
        refine (gone_iff hs.hub hpos hidle).mpr ?_
        by_contra hfalse
        exact hno ⟨d, how, rfl, by simpa using hfalse⟩
      · exact ho d (hd.imp_left fun hd => by simpa [hcd] using hd)

/-- In all states of a run the connections whose futures have ended are out of the store with
their tokens cancelled, exactly if in no step of the run a future is dropped or unwound while
its token is not cancelled. -/
theorem orderly_iff (h : u.Fresh) :
    ((serviceSystem decode).restrict fun _ _ t => t.Orderly).Run u xs w ↔
      ((serviceSystem decode).restrict fun s l _ => ¬ s.Abandons l).Run u xs w := by
  refine LTS.run_restrict_congr (I := fun s => s.Ruled ∧ s.Orderly) ?_ ?_ (service_fresh h)
  · rintro s l t hstep ⟨hs, ho⟩
    exact orderly_step_iff hs ho hstep
  · rintro s l t ⟨hstep, ho⟩ ⟨hs, -⟩
    exact ⟨ruled_service_step hs hstep, ho⟩

/-- A run of the hub without handlers, as a run of the service. -/
theorem service_of_solo {ys : List HubLabel}
    (h : (soloSystem decode c fun _ _ => none).Run s ys s') :
    ((serviceSystem decode).restrict fun s l _ => ¬ s.Abandons l).Run ⟨s, fun _ => false⟩
      (ys.map .hub) ⟨s', fun _ => false⟩ := by
  induction h with
  | refl => exact .refl
  | @step s s₁ s₂ l ys hstep _ ih =>
    obtain ⟨hstep, hsolo, -⟩ := hstep
    have hgroups : l.Groupless := by
      cases hstep with
      | call op hpos => simp [hsolo.handlers] at hpos
      | _ => trivial
    refine .step ⟨.hub hstep (fun _ _ => rfl) hgroups, ?_⟩ ih
    rintro ⟨d, how, hl, -⟩
    cases hl

/-- A connection that its peer closes, and whose `on_disconnect` panics. -/
theorem orderly_panic : ∃ xs w, ((serviceSystem fun _ => (none : Option Unit)).restrict
      fun _ _ t => t.Orderly).Run ⟨.start .block, fun _ => false⟩ xs w ∧ w.Over "c" := by
  obtain ⟨xs, s₁, hopen, hs₁, hat₁⟩ :=
    solo_opens (fun _ => (none : Option Unit)) (solo_start .block "c") rfl rfl
  obtain ⟨ys, s₂, hclose, hs₂, hat₂⟩ := solo_closes hs₁ hat₁
  have hcancel := hat₂.cancelled trivial
  have hends : ServiceStep (fun _ => (none : Option Unit)) ⟨s₂, fun _ => false⟩
      (.ends "c" .panicked) _ := .ends .panicked hat₂.main trivial hat₂.pc rfl
  have hrun := (service_of_solo (hopen.append hclose)).snoc ⟨hends, ?_⟩
  · exact ⟨_, _, (orderly_iff ⟨hub_start_fresh .block, fun _ => rfl⟩).mpr hrun,
      Or.inl (by simp)⟩
  · rintro ⟨d, how, hl, hfalse⟩
    cases hl
    simp [hcancel] at hfalse

/-- The future is dropped in `on_connect`: the connection stays registered, and its writer
runs on. -/
theorem dropped_not_orderly : ∃ w : Service,
    (serviceSystem fun _ => (none : Option Unit)).Reachable Service.Fresh w ∧ w.Over "c" ∧
      w.hub.calls.shared.clients.connections.lookup "c" ≠ none ∧
      w.hub.calls.shared.cancelled "c" = false ∧
      (∃ conn, w.hub.conns "c" = some conn ∧ conn.writer = .select) ∧ ¬ w.Orderly := by
  have haccept : HubStep (fun _ => (none : Option Unit)) (.start .block) (.accept "c") _ :=
    .accept 1 0 rfl rfl
  have hrun : (serviceSystem fun _ => (none : Option Unit)).Run
      ⟨.start .block, fun _ => false⟩
      [.hub (.accept "c"), .hub (.store (.main "c") .access), .hub (.conn "c" .registered),
        .ends "c" .dropped] _ :=
    .step (.hub haccept (fun _ _ => rfl) trivial) <|
    .step (.hub (.serve (granted_of_free rfl) (.insert "c" "c" "c" "c")) (fun _ _ => rfl)
      trivial) <|
    .step (.hub (.conn rfl trivial rfl (.registered rfl)) (fun _ _ => rfl) trivial) <|
    .single (.ends .dropped rfl trivial rfl rfl)
  refine ⟨_, ⟨_, ⟨hub_start_fresh .block, fun _ => rfl⟩, _, hrun⟩, Or.inl rfl, by decide, rfl,
    ⟨_, rfl, rfl⟩, fun hord => ?_⟩
  have htrue := (hord "c" (Or.inl rfl)).2
  cases htrue

end AxumSignal

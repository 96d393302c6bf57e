import AxumSignal.CallFacts
import Mathlib.Data.Finset.Card

/-! The calls on a runtime with a fixed number of worker threads. A task keeps its worker
while it waits for a shard lock, and gives it up only where it is suspended. -/
namespace AxumSignal

open Transition Calls

variable {Task : Type} [DecidableEq Task]

/-- The calls, and the tasks that occupy a worker thread. -/
structure Pool (Task : Type) where
  calls : Calls Task
  running : Finset Task

inductive PoolLabel (Task : Type) where
  | dispatch (t : Task)
  | yield (t : Task)
  | act (l : CallLabel Task)

/-- The task that takes a step, if it is one of the callers. -/
def CallLabel.actor : CallLabel Task → Option Task
  | .call t _ | .exec t _ | .abort t => some t
  | _ => none

/-- The step ends with the caller suspended. -/
def CallLabel.Suspends : CallLabel Task → Prop
  | .exec _ (.suspend _) => True
  | _ => False

/-- One step on `workers` threads. Other tasks, such as the writers that drain the queues,
need a free worker too. -/
inductive PoolStep (workers : Nat) : Pool Task → PoolLabel Task → Pool Task → Prop where
  | dispatch {p : Pool Task} {t : Task} (hnew : t ∉ p.running)
      (hroom : p.running.card < workers) :
      PoolStep workers p (.dispatch t) { p with running := insert t p.running }
  | yield {p : Pool Task} {t : Task} (hrun : t ∈ p.running)
      (hpc : p.calls.pc t = .idle ∨ ∃ r, p.calls.pc t = .wait r) :
      PoolStep workers p (.yield t) { p with running := p.running.erase t }
  | act {p : Pool Task} {t : Task} {l : CallLabel Task} {c : Calls Task}
      (hactor : l.actor = some t) (hrun : t ∈ p.running) (hbusy : ¬ l.Suspends)
      (hstep : CallStep p.calls l c) : PoolStep workers p (.act l) { p with calls := c }
  | suspend {p : Pool Task} {t : Task} {l : CallLabel Task} {c : Calls Task}
      (hactor : l.actor = some t) (hrun : t ∈ p.running) (hsus : l.Suspends)
      (hstep : CallStep p.calls l c) :
      PoolStep workers p (.act l) ⟨c, p.running.erase t⟩
  | others {p : Pool Task} {l : CallLabel Task} {c : Calls Task} (hactor : l.actor = none)
      (hroom : p.running.card < workers) (hstep : CallStep p.calls l c) :
      PoolStep workers p (.act l) { p with calls := c }

/-- The system of all calls on `workers` threads. -/
def poolSystem (Task : Type) [DecidableEq Task] (workers : Nat) :
    LTS (Pool Task) (PoolLabel Task) := ⟨PoolStep workers⟩

/-- A fresh store, and no task on a worker. -/
def Pool.Fresh (p : Pool Task) : Prop := p.calls.Fresh ∧ p.running = ∅

/-- `t` is off its worker, waiting for room in a recipient's full queue. -/
def Pool.Waits (p : Pool Task) (t : Task) : Prop :=
  t ∉ p.running ∧ ∃ h d, p.calls.pc t = .wait (.recipient h d) ∧
    p.calls.shared.Full (p.calls.shared.clients.states h).sender

/-- The shard of `g` is locked, and only by calls that wait for a full queue. -/
def Pool.HeldByWaiting (p : Pool Task) (g : GroupName) : Prop :=
  (∃ u, p.calls.Guards u g) ∧ ∀ u, p.calls.Guards u g → p.Waits u

/-- `t` is blocked on a shard lock that only waiting calls hold. -/
def Pool.Blocked (p : Pool Task) (t : Task) : Prop :=
  ∃ g ∈ (p.calls.pc t).exclusive, p.HeldByWaiting g

/-- Every worker thread is blocked on a shard lock that only waiting calls hold. -/
def Pool.Stuck (workers : Nat) (p : Pool Task) : Prop :=
  p.running.card = workers ∧ ∀ t ∈ p.running, p.Blocked t

/-- With this step `t` asks for the exclusive lock of the shard of `g`: it calls a join, or its
clean-up has found the group empty. -/
inductive Requests (p : Pool Task) : CallLabel Task → Task → GroupName → Prop
  | join (t : Task) (id : ConnId) (g : GroupName) : Requests p (.call t (.addToGroup id g)) t g
  | delete (t : Task) {id : ConnId} {g : GroupName} {groups : List GroupName} {k : Cont}
      (hpc : p.calls.pc t = .cleanCheck id g groups k)
      (hempty : p.calls.shared.clients.groupMembers.values g = ∅) :
      Requests p (.exec t .access) t g

/-- The step asks for no shard that a call guards while it waits for a full queue. -/
def Apart (p : Pool Task) (l : PoolLabel Task) (_ : Pool Task) : Prop :=
  ∀ l' t g, l = .act l' → Requests p l' t g → ∀ u, p.Waits u → ¬ p.calls.Guards u g

variable {workers : Nat} {p p' : Pool Task} {l : PoolLabel Task} {t u : Task} {sh sh' : Shared}
  {pc pc' : Pc} {e : Event} {g : GroupName} {r : Receiver}

/-- A call comes to need an exclusive lock only by finding a group empty. -/
theorem exec_exclusive (hx : Exec sh pc e sh' pc') (hg : pc'.exclusive = some g) :
    ∃ id groups k, pc = .cleanCheck id g groups k ∧ pc' = .cleanDelete id g groups k ∧
      sh' = sh ∧ e = .access ∧ sh.clients.groupMembers.values g = ∅ := by
  cases hx with
  | cleanEmpty hempty =>
    obtain rfl : _ = g := Option.some.inj hg
    exact ⟨_, _, _, rfl, rfl, rfl, rfl, hempty⟩
  | next => simp [(follows_firstAccess _ _ _).exclusive] at hg
  | drop => simp [(follows_afterDrop _ _ _).exclusive] at hg
  | accept | resume => simp [(follows_accepted _ _).exclusive] at hg
  | refuse | disconnect => simp [(follows_refused _ _).exclusive] at hg
  | cleanNothing | cleanDone => simp [(follows_cont _).exclusive] at hg
  | _ => simp [Pc.exclusive] at hg

theorem start_exclusive {op : Op} (h : op.start.exclusive = some g) :
    ∃ id, op = .addToGroup id g := by
  unfold Op.start at h
  split at h <;> simp_all [Pc.exclusive]

/-- Tasks off the workers are between calls or suspended, and the workers suffice. -/
structure Pool.Scheduled (workers : Nat) (p : Pool Task) : Prop where
  card : p.running.card ≤ workers
  parked : ∀ t ∉ p.running, p.calls.pc t = .idle ∨ ∃ r, p.calls.pc t = .wait r

/-- What one task does leaves the others where they are. -/
theorem waits_goto (hut : u ≠ t) :
    Pool.Waits ⟨p.calls.goto t p.calls.shared pc, p.running⟩ u ↔ p.Waits u := by
  simp only [Pool.Waits, goto_shared, p.calls.goto_pc_ne hut]

theorem guards_goto {c : Calls Task} (hut : u ≠ t) :
    (c.goto t c.shared pc).Guards u g ↔ c.Guards u g := by
  simp only [Calls.Guards, goto_shared, c.goto_pc_ne hut]

omit [DecidableEq Task] in
theorem Pool.Waits.ne (hw : p.Waits u) (hrun : t ∈ p.running) : u ≠ t := by
  rintro rfl
  exact hw.1 hrun

/-- A task on a worker that comes to need the lock of `g` can leave the workers stuck only if a
waiting call guards its shard. -/
theorem guards_of_stuck (hrun : t ∈ p.running) (hg : pc.exclusive = some g)
    (hstuck : Pool.Stuck workers ⟨p.calls.goto t p.calls.shared pc, p.running⟩) :
    ∃ u, p.Waits u ∧ p.calls.Guards u g := by
  obtain ⟨g', hg', ⟨u, hu⟩, hwaits⟩ := hstuck.2 t hrun
  obtain rfl : g = g' := by simpa [hg] using hg'
  have hw := hwaits u hu
  have hut := hw.ne hrun
  exact ⟨u, (waits_goto hut).mp hw, (guards_goto hut).mp hu⟩

omit [DecidableEq Task] in
theorem not_stuck_of_free (hrun : t ∈ p.running) (hg : (p.calls.pc t).exclusive = none) :
    ¬ p.Stuck workers := by
  rintro ⟨_, hall⟩
  obtain ⟨g, hin, _⟩ := hall t hrun
  simp [hg] at hin

/-- A step that takes its task off the workers leaves one of them free. -/
theorem not_stuck_erase {c : Calls Task} (hs : p.Scheduled workers) (hrun : t ∈ p.running) :
    ¬ Pool.Stuck workers ⟨c, p.running.erase t⟩ := by
  intro hstuck
  have hcard : (p.running.erase t).card = workers := hstuck.1
  have hlt := Finset.card_erase_lt_of_mem hrun
  have := hs.card
  omega

/-- The step lemma: only a request for a shard that a waiting call guards can leave the workers
stuck. -/
theorem stuck_step (hs : p.Scheduled workers) (h : PoolStep workers p l p')
    (hstuck : p'.Stuck workers) : ¬ Apart p l p' := by
  intro hapart
  cases h with
  | @dispatch t hnew hroom =>
    refine not_stuck_of_free (t := t) (Finset.mem_insert_self _ _) ?_ hstuck
    rcases hs.parked t hnew with hpc | ⟨r, hpc⟩ <;> simp [hpc, Pc.exclusive]
  | yield hrun | suspend _ hrun => exact not_stuck_erase hs hrun hstuck
  | @act t l' c hactor hrun hbusy hstep =>
    cases hstep with
    | @call u op hidle =>
      obtain rfl : u = t := Option.some.inj hactor
      cases hg : op.start.exclusive with
      | none => exact absurd hstuck (not_stuck_of_free hrun (by simp [hg]))
      | some g =>
        obtain ⟨v, hwaits, hguards⟩ := guards_of_stuck hrun hg hstuck
        obtain ⟨id, rfl⟩ := start_exclusive hg
        exact hapart _ u g rfl (.join u id g) v hwaits hguards
    | @exec u e sh pc hfree hx =>
      obtain rfl : u = t := Option.some.inj hactor
      cases hg : pc.exclusive with
      | none => exact absurd hstuck (not_stuck_of_free hrun (by simp [hg]))
      | some g =>
        obtain ⟨id, groups, k, hpc, rfl, rfl, rfl, hempty⟩ := exec_exclusive hx hg
        obtain ⟨v, hwaits, hguards⟩ := guards_of_stuck hrun hg hstuck
        exact hapart _ u g rfl (.delete u hpc hempty) v hwaits hguards
    | @abort u r hpc =>
      obtain rfl : u = t := Option.some.inj hactor
      exact absurd hstuck (not_stuck_of_free hrun (by simp [Pc.exclusive]))
    | recv | close | cancel => simp [CallLabel.actor] at hactor
  | @others l' c hactor hroom hstep =>
    have hcard : p.running.card = workers := hstuck.1
    omega

theorem exec_suspends (hx : Exec sh pc (.suspend r) sh' pc') : pc' = .wait r := by
  generalize he : Event.suspend r = e at hx
  cases hx <;> simp_all

/-- A step of a running task leaves every task off the workers where it was. -/
theorem step_parked {c : Calls Task} {l' : CallLabel Task} (h : CallStep p.calls l' c)
    (hl : ∀ v ∈ l'.actor, v = t) (hu : u ≠ t) : c.pc u = p.calls.pc u := by
  cases h with
  | call | exec | abort =>
    obtain rfl := hl _ rfl
    exact p.calls.goto_pc_ne hu _ _
  | recv | close | cancel => rfl

theorem scheduled_step (hs : p.Scheduled workers) (h : PoolStep workers p l p') :
    p'.Scheduled workers := by
  cases h with
  | @dispatch t hnew hroom =>
    refine ⟨?_, fun u hu => hs.parked u fun hin => hu (Finset.mem_insert_of_mem hin)⟩
    have := Finset.card_insert_le t p.running
    simp only
    omega
  | @yield t hrun hpc =>
    refine ⟨(Finset.card_erase_le).trans hs.card, fun u hu => ?_⟩
    by_cases hut : u = t
    · exact hut ▸ hpc
    · exact hs.parked u fun hin => hu (Finset.mem_erase.mpr ⟨hut, hin⟩)
  | @act t l' c hactor hrun hbusy hstep =>
    refine ⟨hs.card, fun u hu => ?_⟩
    have hut : u ≠ t := by rintro rfl; exact hu hrun
    simp only
    rw [step_parked hstep (t := t) (by simp [hactor]) hut]
    exact hs.parked u hu
  | @suspend t l' c hactor hrun hsus hstep =>
    refine ⟨(Finset.card_erase_le).trans hs.card, fun u hu => ?_⟩
    by_cases hut : u = t
    · subst hut
      cases hstep with
      | @exec v e sh pc _ hx =>
        obtain rfl : v = u := Option.some.inj hactor
        cases e with
        | suspend r => exact Or.inr ⟨r, by simp [exec_suspends hx]⟩
        | _ => exact hsus.elim
      | call | abort | recv | close | cancel => exact hsus.elim
    · simp only
      rw [step_parked hstep (t := t) (by simp [hactor]) hut]
      exact hs.parked u fun hin => hu (Finset.mem_erase.mpr ⟨hut, hin⟩)
  | @others l' c hactor hroom hstep =>
    refine ⟨hs.card, fun u hu => ?_⟩
    simp only
    cases hstep with
    | call | exec | abort => simp [CallLabel.actor] at hactor
    | recv | close | cancel => exact hs.parked u hu

omit [DecidableEq Task] in
theorem fresh_scheduled (h : p.Fresh) : p.Scheduled workers where
  card := by simp [h.2]
  parked t _ := Or.inl (h.1.2 t)

/-- In a run in which nobody asks for a shard that a call guards while it waits for a full queue,
the workers are never all blocked on locks that only such calls hold. -/
theorem not_stuck (hW : 0 < workers)
    (h : ((poolSystem Task workers).restrict Apart).Reachable Pool.Fresh p) :
    ¬ p.Stuck workers := by
  have hinv : p.Scheduled workers ∧ ¬ p.Stuck workers := by
    refine h.invariant (I := fun p => p.Scheduled workers ∧ ¬ p.Stuck workers) ?_ ?_
    · rintro p l p' ⟨hstep, hapart⟩ ⟨hs, _⟩
      exact ⟨scheduled_step hs hstep, fun hstuck => stuck_step hs hstep hstuck hapart⟩
    · intro p hp
      refine ⟨fresh_scheduled hp, fun hstuck => ?_⟩
      have hcard := hstuck.1
      simp only [hp.2, Finset.card_empty] at hcard
      omega
  exact hinv.2

/-- A request for a shard that a waiting call guards leaves its worker blocked on that call. -/
theorem request_blocks {l' : CallLabel Task} (hl : Requests p l' t g)
    (h : PoolStep workers p (.act l') p') (hw : p.Waits u) (hg : p.calls.Guards u g) :
    t ∈ p'.running ∧ p'.Waits u ∧ ¬ p'.calls.Granted t := by
  have hblocks : ∀ {pc : Pc}, t ∈ p.running → pc.exclusive = some g →
      t ∈ p.running ∧ Pool.Waits ⟨p.calls.goto t p.calls.shared pc, p.running⟩ u ∧
        ¬ (p.calls.goto t p.calls.shared pc).Granted t := by
    intro pc hrun hpc
    have hut := hw.ne hrun
    have hguards : (p.calls.goto t p.calls.shared pc).Guards u g := (guards_goto hut).mpr hg
    obtain ⟨g', hg', hshard⟩ := hguards
    exact ⟨hrun, (waits_goto hut).mpr hw, fun hfree => hfree g (by simp [hpc]) u g' hg' hshard⟩
  cases hl with
  | join _ id =>
    cases h with
    | act hactor hrun _ hstep =>
      obtain rfl := Option.some.inj hactor
      cases hstep with
      | call => exact hblocks hrun rfl
    | suspend _ _ hsus => exact hsus.elim
    | others hactor => simp [CallLabel.actor] at hactor
  | delete _ hpc hempty =>
    cases h with
    | act hactor hrun _ hstep =>
      obtain rfl := Option.some.inj hactor
      cases hstep with
      | exec _ hx =>
        rw [hpc] at hx
        cases hx with
        | cleanEmpty => exact hblocks hrun rfl
        | cleanKept hkept => exact (hkept hempty).elim
    | suspend _ _ hsus => exact hsus.elim
    | others hactor => simp [CallLabel.actor] at hactor

/-- Only a suspension makes a call wait. -/
theorem exec_wait (hx : Exec sh pc e sh' pc') (hpc : pc' = .wait r) : e = .suspend r := by
  cases hx with
  | suspend =>
    cases hpc
    rfl
  | next => exact ((follows_firstAccess _ _ _).ne_wait hpc).elim
  | drop => exact ((follows_afterDrop _ _ _).ne_wait hpc).elim
  | accept | resume => exact ((follows_accepted _ _).ne_wait hpc).elim
  | refuse | disconnect => exact ((follows_refused _ _).ne_wait hpc).elim
  | cleanNothing | cleanDone => exact ((follows_cont _).ne_wait hpc).elim
  | _ => cases hpc

theorem start_wait (op : Op) : op.start ≠ .wait r := by
  unfold Op.start
  split <;> simp

/-- No call waits for a queue with a guard held. -/
def Calls.Released (c : Calls Task) : Prop := ∀ t r, c.pc t = .wait r → r.held = none

/-- The step suspends no call that holds a guard. -/
def Releases (_ : Pool Task) (l : PoolLabel Task) (_ : Pool Task) : Prop :=
  ∀ t r, l = .act (.exec t (.suspend r)) → r.held = none

theorem released_goto {c : Calls Task} (hc : c.Released)
    (hpc : ∀ r, pc = .wait r → r.held = none) : (c.goto t sh pc).Released :=
  forall_goto (P := fun _ pc => ∀ r, pc = .wait r → r.held = none) sh hpc fun u _ => hc u

theorem released_callStep {c c' : Calls Task} {l : CallLabel Task} (hc : c.Released)
    (hl : ∀ t r, l = .exec t (.suspend r) → r.held = none) (h : CallStep c l c') :
    c'.Released := by
  cases h with
  | call op _ => exact released_goto hc fun r hr => (start_wait op hr).elim
  | @exec t e sh pc _ hx =>
    refine released_goto hc fun r hr => hl t r ?_
    rw [exec_wait hx hr]
  | abort _ => exact released_goto hc fun r hr => by cases hr
  | recv | close | cancel => exact hc

theorem released_step (hp : p.calls.Released) (hl : Releases p l p')
    (h : PoolStep workers p l p') : p'.calls.Released := by
  cases h with
  | dispatch | yield => exact hp
  | act _ _ _ hstep | suspend _ _ _ hstep | others _ _ hstep =>
    exact released_callStep hp (fun t r heq => hl t r (by rw [heq])) hstep

/-- A run in which no call waits with a guard held, as `broadcast_groups` does not, never
gets stuck, whatever the other tasks request. -/
theorem released_not_stuck (hW : 0 < workers)
    (h : ((poolSystem Task workers).restrict Releases).Reachable Pool.Fresh p) :
    ¬ p.Stuck workers := by
  have hpres : ((poolSystem Task workers).restrict Releases).Preserves
      fun p => p.calls.Released := by
    rintro p l p' ⟨hstep, hl⟩ hp
    exact released_step hp hl hstep
  have hreleased : p.calls.Released := by
    refine h.invariant (I := fun p => p.calls.Released) hpres fun p hp t r hr => ?_
    rw [hp.1.2 t] at hr
    cases hr
  rintro ⟨hcard, hall⟩
  obtain ⟨t, ht⟩ : p.running.Nonempty := Finset.card_pos.mp (by omega)
  obtain ⟨_, _, ⟨u, g, hg, hshard⟩, hwaits⟩ := hall t ht
  obtain ⟨_, h, d, hpc, _⟩ := hwaits u ⟨g, hg, hshard⟩
  have hheld : d.held = none := hreleased u _ hpc
  simp [hpc, Pc.guards, Receiver.held, hheld] at hg

/-- An empty store in which "g" has a shard of its own, and two idle tasks. -/
def ownShard : Calls Bool where
  shared := ⟨.new .block fun g => if g = "g" then 0 else 1, fun _ => ⟨1, [], false⟩, fun _ => false⟩
  pc _ := .idle

theorem ownShard_fresh : ownShard.Fresh := ⟨⟨.block, _, rfl⟩, fun _ => rfl⟩

omit [DecidableEq Task] in
/-- While no task waits, no request meets a waiting call. -/
theorem apart_of_idle (hidle : ∀ u ∉ p.running, p.calls.pc u = .idle) : Apart p l p' := by
  intro l' t g _ _ u hw
  obtain ⟨hu, h, d, hpc, -⟩ := hw
  simp [hidle u hu] at hpc

/-- What one task does without being suspended, it can do on one worker. -/
theorem run_on_worker {c c' : Calls Task} {xs : List (CallLabel Task)} {running : Finset Task}
    (hrun : (callSystem Task).Run c xs c') (ht : t ∈ running)
    (hidle : ∀ u, u ≠ t → c.pc u = .idle) (hxs : ∀ l ∈ xs, l.actor = some t ∧ ¬ l.Suspends) :
    ((poolSystem Task workers).restrict Apart).Run ⟨c, running⟩ (xs.map .act) ⟨c', running⟩ := by
  induction hrun with
  | refl => exact .refl
  | @step c d c' l xs hs _ ih =>
    obtain ⟨hactor, hbusy⟩ := hxs l List.mem_cons_self
    have hothers : ∀ u ∉ running, c.pc u = .idle := fun u hu => hidle u fun hut => hu (hut ▸ ht)
    have hidle' : ∀ u, u ≠ t → d.pc u = .idle := fun u hu => by
      rw [step_parked (p := ⟨c, running⟩) hs (t := t) (by simp [hactor]) hu]
      exact hidle u hu
    exact .step ⟨.act hactor ht hbusy hs, apart_of_idle hothers⟩
      (ih hidle' fun l hl => hxs l (List.mem_cons_of_mem _ hl))

/-- A group with one member, whose queue has room for one message and holds one. -/
structure FullMember (c : Calls Bool) : Prop where
  idle : ∀ u, c.pc u = .idle
  members : c.shared.clients.groupMembers.lookup "g" = some {"a"}
  found : c.shared.clients.connections.lookup "a" = some 0
  policy : c.shared.clients.policy = .block
  full : c.shared.Full (c.shared.clients.states 0).sender

theorem fullMember_run : ∃ xs c, (callSystem Bool).Run ownShard xs c ∧
    (∀ l ∈ xs, l.actor = some true ∧ ¬ l.Suspends) ∧ FullMember c := by
  refine ⟨_, _,
    .step (.call (t := true) (.add "a" "tx" "token" "drop") rfl) <|
    .step (.exec (t := true) (granted_of_free rfl) (.insert "a" "tx" "token" "drop")) <|
    .step (.call (t := true) (.addToGroup "a" "g") rfl) <|
    .step (.exec (t := true) (granted_of_unguarded (by decide)) (.joinMembers "a" "g")) <|
    .step (.exec (t := true) (granted_of_free rfl) (.joinGroups "a" "g")) <|
    .step (.call (t := true) (.unicast "a" (some (.text "old"))) rfl) <|
    .step (.exec (t := true) (granted_of_free rfl) (@Exec.senderFound _ _ _ 0 (by decide))) <|
    .single (.exec (t := true) (granted_of_free rfl) (.accept ⟨by decide, by decide⟩)),
    by simp [CallLabel.actor, CallLabel.Suspends], fun u => ?_, by decide, by decide, rfl,
    by decide⟩
  cases u <;> rfl

/-- A broadcast to that group gets as far as its first send, with its guard held. -/
theorem broadcast_sends {c : Calls Bool} (h : FullMember c) :
    ∃ xs c', (callSystem Bool).Run c xs c' ∧ (∀ l ∈ xs, l.actor = some false ∧ ¬ l.Suspends) ∧
      c'.shared = c.shared ∧ c'.pc true = .idle ∧
      c'.pc false = .send (.recipient 0 ⟨some "g", .text "news", []⟩) := by
  have hfree : ∀ {c : Calls Bool} {pc : Pc}, pc.exclusive = none →
      (c.goto false c.shared pc).Granted false := fun hpc => granted_of_free (by simp [hpc])
  have hmembers : c.shared.clients.groupMembers.values "g" = {"a"} :=
    SetMap.values_of_lookup h.members
  refine ⟨_, _,
    .step (.call (.broadcastGroup "g" (some (.text "news"))) (h.idle false)) <|
    .step (.at (c.goto_pc _ _ _) (hfree rfl) (.groupFound ⟨1, fun _ => 0⟩ h.members)) <|
    .step (.at (goto_pc _ _ _ _) (hfree rfl) (@Exec.scanGroup _ _ _ _ _ _ _ ["a"] Nat.one_pos
      ⟨by simp, by simp [hmembers]⟩)) <|
    .step (.at (goto_pc _ _ _ _) (hfree rfl) .lookupMember) <|
    .step (.at (goto_pc _ _ _ _) (hfree rfl) (.groupScanned le_rfl)) <|
    .single (@CallStep.at _ _ _ _ _ _ (.deliver ⟨some "g", .text "news", [0]⟩) _ ?_ (hfree rfl)
      .next),
    by simp [CallLabel.actor, CallLabel.Suspends], rfl, ?_, ?_⟩
  · simp [h.found]
  · simp [Calls.goto, h.idle]
  · rw [goto_pc]
    simp [h.policy, BroadcastPolicy.firstAccess]

theorem dispatch_only (c : Calls Task) (t : Task) :
    ((poolSystem Task 1).restrict Apart).Tr ⟨c, ∅⟩ (.dispatch t) ⟨c, {t}⟩ := by
  have hstep : PoolStep 1 ⟨c, ∅⟩ (.dispatch t) ⟨c, insert t ∅⟩ :=
    .dispatch (Finset.notMem_empty t) Nat.one_pos
  rw [insert_empty_eq] at hstep
  exact ⟨hstep, nofun⟩

theorem yield_only {c : Calls Task} (hidle : c.pc t = .idle) :
    ((poolSystem Task 1).restrict Apart).Tr ⟨c, {t}⟩ (.yield t) ⟨c, ∅⟩ := by
  have hstep : PoolStep 1 ⟨c, {t}⟩ (.yield t) ⟨c, ({t} : Finset Task).erase t⟩ :=
    .yield (Finset.mem_singleton_self t) (.inl hidle)
  rw [Finset.erase_singleton] at hstep
  exact ⟨hstep, nofun⟩

/-- A broadcast waits for the full queue of a recipient with the guard of "g", and another task
has the only worker. -/
structure Holding (p : Pool Bool) : Prop where
  running : p.running = {true}
  idle : p.calls.pc true = .idle
  waits : p.Waits false
  guards : (p.calls.pc false).guards = ["g"]
  shard : ∀ g, p.calls.shared.clients.shard g = if g = "g" then 0 else 1

theorem holding_run : ∃ p,
    ((poolSystem Bool 1).restrict Apart).Reachable Pool.Fresh p ∧ Holding p := by
  obtain ⟨xs, c, hrun, hxs, hfull⟩ := fullMember_run
  obtain ⟨ys, c', hrun', hys, hsh, hidle, hsend⟩ := broadcast_sends hfull
  let r : Receiver := .recipient 0 ⟨some "g", .text "news", []⟩
  let waiting := c'.goto false c'.shared (.wait r)
  have hopen : (c'.shared.chans (r.sender c'.shared.clients)).closed = false :=
    hsh ▸ hfull.full.1
  have hsuspend : CallStep c' (.exec false (.suspend r)) waiting :=
    .at hsend (granted_of_free (by simp [hsend, Pc.exclusive])) (.suspend hopen)
  have hleave : ((poolSystem Bool 1).restrict Apart).Tr ⟨c', {false}⟩
      (.act (.exec false (.suspend r))) ⟨waiting, ∅⟩ := by
    have hstep : PoolStep 1 ⟨c', {false}⟩ (.act (.exec false (.suspend r)))
        ⟨waiting, ({false} : Finset Bool).erase false⟩ :=
      .suspend rfl (Finset.mem_singleton_self false) trivial hsuspend
    rw [Finset.erase_singleton] at hstep
    refine ⟨hstep, apart_of_idle fun u hu => ?_⟩
    cases u with
    | false => exact (hu (Finset.mem_singleton_self false)).elim
    | true => exact hidle
  have hshard := hrun.invariant
    (I := fun c => c.shared.clients.shard = ownShard.shared.clients.shard)
    (fun _ _ _ hstep hs => (step_persists hstep).shard.trans hs) rfl
  refine ⟨⟨waiting, {true}⟩, ⟨⟨ownShard, ∅⟩, ⟨ownShard_fresh, rfl⟩, _,
    .step (dispatch_only _ true) <|
    (run_on_worker hrun (Finset.mem_singleton_self true) (fun _ _ => rfl) hxs).append <|
    .step (yield_only (hfull.idle true)) <|
    .step (dispatch_only c false) <|
    (run_on_worker hrun' (Finset.mem_singleton_self false) (fun u _ => hfull.idle u) hys).append <|
    .step hleave <| .single (dispatch_only waiting true)⟩,
    rfl, by simp [waiting, Calls.goto, hidle], ⟨by simp, 0, _, goto_pc _ _ _ _, ?_⟩, ?_, ?_⟩
  · exact hsh ▸ hfull.full
  · simp [waiting, r, Pc.guards, Receiver.held]
  · intro g
    rw [show waiting.shared = c.shared from hsh, hshard]
    rfl

/-- Beside that broadcast the other task joins a group on another shard. -/
theorem not_stuck_beside : ∃ p : Pool Bool, p.running = {true} ∧ p.Waits false ∧
    p.calls.Guards false "g" ∧ p.calls.pc true = .joinMembers "b" "h" ∧ ¬ p.Stuck 1 := by
  obtain ⟨p, hreach, hp⟩ := holding_run
  have hmem : true ∈ p.running := by rw [hp.running]; decide
  have hjoin : ((poolSystem Bool 1).restrict Apart).Tr p (.act (.call true (.addToGroup "b" "h")))
      ⟨p.calls.goto true p.calls.shared (.joinMembers "b" "h"), p.running⟩ := by
    refine ⟨.act rfl hmem id (.call _ hp.idle), ?_⟩
    rintro _ t g ⟨⟩ ⟨⟩ u hw ⟨g', hg', hshard⟩
    cases u with
    | true => exact hw.1 hmem
    | false =>
      obtain rfl : g' = "g" := by simpa [hp.guards] using hg'
      simp [hp.shard] at hshard
  exact ⟨⟨p.calls.goto true p.calls.shared (.joinMembers "b" "h"), p.running⟩, hp.running,
    (waits_goto (by decide)).mpr hp.waits,
    (guards_goto (by decide)).mpr ⟨"g", by simp [hp.guards], rfl⟩, goto_pc _ _ _ _,
    not_stuck (by decide) (hreach.extend (.single hjoin))⟩

/-- One worker: beside that broadcast a join on the same shard takes the worker and blocks it. -/
theorem single_worker_stuck : ∃ p : Pool Bool,
    (poolSystem Bool 1).Reachable Pool.Fresh p ∧ p.Stuck 1 := by
  obtain ⟨p, ⟨p₀, hfresh, xs, hrun⟩, hp⟩ := holding_run
  have hmem : true ∈ p.running := by rw [hp.running]; decide
  have hjoin : PoolStep 1 p (.act (.call true (.addToGroup "b" "g")))
      ⟨p.calls.goto true p.calls.shared (.joinMembers "b" "g"), p.running⟩ :=
    .act rfl hmem id (.call _ hp.idle)
  refine ⟨_, ⟨p₀, hfresh, _, hrun.of_restrict.snoc hjoin⟩, ?_, fun t ht => ?_⟩
  · simp [hp.running]
  · obtain rfl : t = true := by simpa [hp.running] using ht
    refine ⟨"g", by simp [Pc.exclusive], ⟨false, ?_⟩, fun u hu => ?_⟩
    · exact (guards_goto (by decide)).mpr ⟨"g", by simp [hp.guards], rfl⟩
    · cases u with
      | true => simp [Calls.Guards, Pc.guards] at hu
      | false => exact (waits_goto (by decide)).mpr hp.waits

end AxumSignal

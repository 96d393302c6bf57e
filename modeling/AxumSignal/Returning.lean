import AxumSignal.Lib.Execution
import AxumSignal.Outcomes
import AxumSignal.SlowClients
import Mathlib.Data.Prod.Lex

/-! Calls on the store in infinite executions: which of them return, and what one that never
returns waits for. -/
namespace AxumSignal

open Transition Calls LTS Filter

variable {Task : Type} [DecidableEq Task] {s s' : Calls Task} {sh sh' : Shared} {pc pc' : Pc}
  {e : Event} {t : Task} {policy : BroadcastPolicy} {l : CallLabel Task} {op : Op} {msg : Message}
  {E : Execution (callSystem Task)} {n : ℕ}

/-- A position in the course of a call: its phase, and what is left to do there. -/
def place (a b c d : ℕ) : ℕ ×ₗ ℕ ×ₗ ℕ ×ₗ ℕ := toLex (a, toLex (b, toLex (c, d)))

theorem place_lt {a b c d a' b' c' d' : ℕ} : place a b c d < place a' b' c' d' ↔
    a < a' ∨ a = a' ∧ (b < b' ∨ b = b' ∧ (c < c' ∨ c = c' ∧ d < d')) := by
  simp [place, Prod.Lex.toLex_lt_toLex]

/-- The recipients after the current one. -/
def Cont.left : Cont → ℕ
  | .removal _ => 0
  | .resume d => d.rest.length

def Receiver.left : Receiver → ℕ
  | .direct _ _ => 0
  | .recipient _ d => d.rest.length

/-- Recipients are collected in phase 2, and served one after another in phase 1. -/
def Pc.rank : Pc → ℕ ×ₗ ℕ ×ₗ ℕ ×ₗ ℕ
  | .idle => place 0 0 0 0
  | .insert _ _ _ _ | .removeEntry _ | .publish _ | .joinGroups _ _ | .leaveGroups _ _
  | .record _ _ => place 0 1 0 0
  | .joinMembers _ _ | .leaveMembers _ _ | .lookupState _ _ => place 0 2 0 0
  | .deliver d => place 1 d.rest.length 0 0
  | .cleanNext _ groups k => place 1 k.left 1 (4 * groups.length)
  | .cleanDelete _ _ groups k => place 1 k.left 1 (4 * groups.length + 1)
  | .cleanCheck _ _ groups k => place 1 k.left 1 (4 * groups.length + 2)
  | .cleanRemove _ _ groups k => place 1 k.left 1 (4 * groups.length + 3)
  | .cleanTake _ k => place 1 k.left 2 0
  | .evictCancel _ _ d => place 1 d.rest.length 3 0
  | .evictRemove _ d => place 1 d.rest.length 4 0
  | .count _ d | .reset _ d => place 1 d.rest.length 5 0
  | .drop _ d => place 1 d.rest.length 6 0
  | .wait r => place 1 r.left 7 0
  | .send r => place 1 r.left 8 0
  | .average _ d => place 1 d.rest.length 9 0
  | .lookupSender _ _ => place 2 0 0 0
  | .iter _ _ | .openGroup _ _ _ => place 2 1 0 0
  | .scan _ _ layout next _ => place 2 0 (layout.shards - next) 0
  | .scanGroup _ _ _ layout next ids _ => place 2 0 (layout.shards - next) ids.length
  | .openGroups groups _ _ _ => place 2 groups.length 0 0
  | .filterGroups ids groups _ _ _ => place 2 groups.length 1 ids.length
  | .scanGroups _ groups _ _ _ layout next _ => place 2 groups.length 2 (layout.shards - next)

theorem rank_cont (k : Cont) (groups : ℕ) (stage : ℕ) (h : 0 < stage) :
    k.pc.rank < place 1 k.left stage groups := by
  cases k <;> simp [Cont.pc, Cont.left, Pc.rank, place_lt, h]

theorem rank_firstAccess (policy : BroadcastPolicy) (h : Handle) (d : Delivery) :
    (policy.firstAccess h d).rank < place 1 (d.rest.length + 1) 0 0 := by
  cases policy <;> simp [BroadcastPolicy.firstAccess, Pc.rank, Receiver.left, place_lt]

theorem rank_afterDrop (policy : BroadcastPolicy) (h : Handle) (d : Delivery) :
    (policy.afterDrop h d).rank < (Pc.drop h d).rank := by
  cases policy <;> simp [BroadcastPolicy.afterDrop, Pc.rank, place_lt]

theorem rank_accepted (policy : BroadcastPolicy) (r : Receiver) :
    (r.accepted policy).rank < (Pc.wait r).rank := by
  cases r <;> cases policy <;> simp [Receiver.accepted, Receiver.left, Pc.rank, place_lt]

theorem rank_refused (policy : BroadcastPolicy) (r : Receiver) :
    (r.refused policy).rank < (Pc.wait r).rank := by
  cases r <;> cases policy <;> simp [Receiver.refused, Receiver.left, Pc.rank, place_lt]

theorem rank_wait (r : Receiver) : (Pc.wait r).rank < (Pc.send r).rank := by
  simp [Pc.rank, place_lt]

/-- Every access takes its call further down. -/
theorem exec_rank (hx : Exec sh pc e sh' pc') : pc'.rank < pc.rank := by
  cases hx with
  | next => exact rank_firstAccess _ _ _
  | drop => exact rank_afterDrop _ _ _
  | accept => exact (rank_accepted _ _).trans (rank_wait _)
  | refuse => exact (rank_refused _ _).trans (rank_wait _)
  | suspend => exact rank_wait _
  | resume => exact rank_accepted _ _
  | disconnect => exact rank_refused _ _
  | cleanNothing | cleanDone => exact rank_cont _ _ _ (by decide)
  | scan | scanGroup | scanGroups | cleanFound =>
    simp [Pc.rank, place_lt]
    omega
  | _ => simp [Pc.rank, Cont.left, Receiver.left, place_lt]

/-- The accesses of the call of `t`. -/
def AccessOf (t : Task) (l : CallLabel Task) : Prop := ∃ e, l = .exec t e

theorem enabled_iff : (callSystem Task).Enabled (AccessOf t) s ↔ s.CanStep t := by
  constructor
  · rintro ⟨_, s', ⟨e, rfl⟩, hstep⟩
    exact ⟨e, s', hstep⟩
  · rintro ⟨e, s', hstep⟩
    exact ⟨_, s', ⟨e, rfl⟩, hstep⟩

/-- A step after which the call of `t` is still in progress does not take it further up. -/
theorem step_rank (h : CallStep s l s') (hbusy : s.pc t ≠ .idle) (hbusy' : s'.pc t ≠ .idle) :
    (s'.pc t).rank ≤ (s.pc t).rank := by
  cases step_turn h t with
  | other _ hpc => rw [hpc]
  | call hidle => exact (hbusy hidle).elim
  | exec _ hx => simpa using (exec_rank hx).le
  | abort => exact (hbusy' (goto_pc _ _ _ _)).elim

theorem access_rank (h : CallStep s l s') (hl : AccessOf t l) :
    (s'.pc t).rank < (s.pc t).rank := by
  obtain ⟨e, rfl⟩ := hl
  cases h with
  | exec _ hx => simpa using exec_rank hx

theorem step_stays (h : CallStep s l s') (hstuck : ¬ s.CanStep t) (hbusy : s.pc t ≠ .idle)
    (hbusy' : s'.pc t ≠ .idle) : s'.pc t = s.pc t := by
  cases step_turn h t with
  | other _ hpc => exact hpc
  | call hidle => exact (hbusy hidle).elim
  | exec => exact (hstuck ⟨_, _, h⟩).elim
  | abort => exact (hbusy' (goto_pc _ _ _ _)).elim

/-- A call that goes on for ever takes no access from some moment on. -/
theorem returns_or_stays (hfair : E.StronglyFair (AccessOf t)) (n : ℕ) :
    ∃ m, n ≤ m ∧ ((E.state m).pc t = .idle ∨
      ∀ k, m ≤ k → (E.state k).pc t = (E.state m).pc t ∧ ¬ (E.state k).CanStep t) := by
  obtain ⟨m, hm, hleft | hdisabled⟩ := E.leaves_or_disabled (P := fun s => s.pc t ≠ .idle)
    (fun s => (s.pc t).rank) (fun _ _ _ hstep hs hs' => step_rank hstep hs hs')
    (fun _ _ _ hstep hl _ _ => access_rank hstep hl) hfair n
  · exact ⟨m, hm, Or.inl (not_not.mp hleft)⟩
  · by_cases hidle : ∃ k, m ≤ k ∧ (E.state k).pc t = .idle
    · obtain ⟨k, hk, hidle⟩ := hidle
      exact ⟨k, hm.trans hk, Or.inl hidle⟩
    · simp only [not_exists, not_and] at hidle
      refine ⟨m, hm, Or.inr fun k hk => ⟨?_, fun hcan => hdisabled k hk (enabled_iff.mpr hcan)⟩⟩
      refine E.kept (I := fun s => s.pc t = (E.state m).pc t) (fun i l hi hl hpc => ?_) rfl hk
      have hstuck : ¬ (E.state i).CanStep t := fun hcan => hdisabled i hi (enabled_iff.mpr hcan)
      have hsame := step_stays (E.moves i l hl) hstuck (hidle i hi)
        (hidle (i + 1) (Nat.le_succ_of_le hi))
      exact hsame.trans hpc

theorem persists_from {m k : ℕ} (hk : m ≤ k) :
    Persists (E.state m).shared (E.state k).shared := by
  refine E.kept (I := fun s => Persists (E.state m).shared s.shared) ?_ (persists_refl _) hk
  intro i l _ hl hp
  exact hp.trans (step_persists (E.moves i l hl))

/-- A call that stays suspended waits for room in one and the same queue. -/
theorem heldUp_forever (h : (E.state 0).Fresh) {m : ℕ} (hs : ∀ k, m ≤ k → (E.state k).Suspended t)
    (hpc : ∀ k, m ≤ k → (E.state k).pc t = (E.state m).pc t) :
    ∃ r x, ∀ k, m ≤ k → HeldUp (E.state k) t r x := by
  obtain ⟨r, hwait, hfull, htimer⟩ := hs m le_rfl
  have hm : HeldUp (E.state m) t r _ :=
    heldUp_of_suspended (E.reachable h m) hwait hfull fun k d hr => htimer k d hr
  refine ⟨r, r.sender (E.state m).shared.clients, fun k hk => ?_⟩
  have hsender := (persists_from (E := E) hk).sender fun i d hr => (hm.timer i d hr).1
  obtain ⟨r', hwait', hfull', htimer'⟩ := hs k hk
  obtain rfl : r = r' := by simpa [hpc k hk, hwait] using hwait'
  rw [← hsender]
  exact heldUp_of_suspended (E.reachable h k) hwait' hfull' htimer'

/-- What a call waits for that is stuck at one access for ever. -/
theorem stays_waits (h : (E.state 0).Fresh) {m : ℕ} (hbusy : (E.state m).pc t ≠ .idle)
    (hstays : ∀ k, m ≤ k → (E.state k).pc t = (E.state m).pc t ∧ ¬ (E.state k).CanStep t) :
    (∀ k, m ≤ k → ¬ (E.state k).Granted t) ∨ ∃ r x, ∀ k, m ≤ k → HeldUp (E.state k) t r x := by
  have hblocked : ∀ k, m ≤ k → (E.state k).Granted t → (E.state k).Suspended t := by
    intro k hk hgranted
    obtain ⟨hpc, hstuck⟩ := hstays k hk
    rw [← hpc] at hbusy
    rw [canStep_iff (E.reachable h k) hbusy, not_and, not_not] at hstuck
    exact hstuck hgranted
  by_cases hgranted : ∃ k, m ≤ k ∧ (E.state k).Granted t
  · obtain ⟨k, hk, hgranted⟩ := hgranted
    obtain ⟨r, hwait, -⟩ := hblocked k hk hgranted
    refine Or.inr (heldUp_forever h (fun i hi => hblocked i hi (granted_of_free ?_))
      fun i hi => (hstays i hi).1)
    rw [(hstays i hi).1, ← (hstays k hk).1, hwait]
    rfl
  · simp only [not_exists, not_and] at hgranted
    exact Or.inl hgranted

/-- In an execution that is fair to `t` its call is over in the end, unless it waits for ever for
a lock that is taken whenever it could go on, or for room in a queue that stays full for ever. -/
theorem over_or_waits (h : (E.state 0).Fresh) (hfair : E.StronglyFair (AccessOf t)) (n : ℕ) :
    ∃ m, n ≤ m ∧ ((E.state m).pc t = .idle ∨ (∀ k, m ≤ k → ¬ (E.state k).Granted t) ∨
      ∃ r x, ∀ k, m ≤ k → HeldUp (E.state k) t r x) := by
  obtain ⟨m, hm, hidle | hstays⟩ := returns_or_stays hfair n
  · exact ⟨m, hm, Or.inl hidle⟩
  · by_cases hbusy : (E.state m).pc t = .idle
    · exact ⟨m, hm, Or.inl hbusy⟩
    · exact ⟨m, hm, Or.inr (stays_waits h hbusy hstays)⟩

/-- A broadcast that waits for ever for a client that does not read. -/
theorem waits_for_ever : ∃ E : Execution (callSystem Bool),
    (∃ N, ∀ k, N ≤ k → (E.state k).pc false ≠ .idle) ∧
      ∃ m, 0 ≤ m ∧ ((E.state m).pc false = .idle ∨ (∀ k, m ≤ k → ¬ (E.state k).Granted false) ∨
        ∃ r x, ∀ k, m ≤ k → HeldUp (E.state k) false r x) := by
  obtain ⟨s, d, -, ⟨s₀, hfresh, xs, hrun⟩, -, hpolicy, hwait, -, hfull⟩ := waiting_join
  obtain ⟨E, rfl, -, hend⟩ := Execution.exists_of_run hrun
  have hstuck : s.Suspended false := by
    refine ⟨_, hwait, hfull, fun _ _ _ htimed => ?_⟩
    simp [hpolicy, BroadcastPolicy.Timed] at htimed
  have hfair : E.StronglyFair (AccessOf false) :=
    E.fair_of_rest hend fun hen => hstuck.not_canStep (enabled_iff.mp hen)
  refine ⟨E, ⟨xs.length, fun k hk => ?_⟩, over_or_waits hfresh hfair 0⟩
  simp [hend k hk, hwait]

/-- The access needs no exclusive lock, and neither do those after it as long as the policy
unregisters nobody. -/
def Pc.Lockless : Pc → Prop
  | .joinMembers _ _ | .evictRemove _ _ | .evictCancel _ _ _ | .cleanTake _ _ | .cleanNext _ _ _
  | .cleanRemove _ _ _ _ | .cleanCheck _ _ _ _ | .cleanDelete _ _ _ _ => False
  | _ => True

theorem Pc.Lockless.exclusive (h : pc.Lockless) : pc.exclusive = none := by
  cases pc <;> first | rfl | exact h.elim

theorem lockless_firstAccess (policy : BroadcastPolicy) (h : Handle) (d : Delivery) :
    (policy.firstAccess h d).Lockless := by
  cases policy <;> trivial

theorem lockless_afterDrop (hpol : ¬ policy.Evicting) (h : Handle) (d : Delivery) :
    (policy.afterDrop h d).Lockless := by
  cases policy with
  | dropOnHighRtt => exact hpol (Or.inr trivial)
  | _ => trivial

theorem lockless_accepted (policy : BroadcastPolicy) (r : Receiver) :
    (r.accepted policy).Lockless := by
  cases r <;> cases policy <;> trivial

theorem lockless_refused (policy : BroadcastPolicy) (r : Receiver) :
    (r.refused policy).Lockless := by
  cases r <;> cases policy <;> trivial

theorem exec_lockless (hx : Exec sh pc e sh' pc') (hpol : ¬ sh.clients.policy.Evicting)
    (h : pc.Lockless) : pc'.Lockless := by
  cases hx with
  | next => exact lockless_firstAccess _ _ _
  | drop => exact lockless_afterDrop hpol _ _
  | accept | resume => exact lockless_accepted _ _
  | refuse | disconnect => exact lockless_refused _ _
  | countReached hp =>
    refine hpol (Or.inl ?_)
    simp [hp, BroadcastPolicy.Counts]
  | evictFound | evictMissing | evictCancel | cleanTaken | cleanNothing | cleanFound
  | cleanMissing | cleanDone | cleanRemove | cleanEmpty | cleanKept | cleanDelete =>
    exact h.elim
  | _ => trivial

theorem step_lockless (h : CallStep s l s') (hpol : ¬ s.shared.clients.policy.Evicting)
    (hbusy : s.pc t ≠ .idle) (hs : (s.pc t).Lockless) : (s'.pc t).Lockless := by
  cases step_turn h t with
  | other _ hpc => rwa [hpc]
  | call hidle => exact (hbusy hidle).elim
  | exec _ hx => simpa using exec_lockless hx hpol hs
  | abort => simp [Pc.Lockless]

/-- Under a policy that unregisters nobody a call that needs no exclusive lock is over in the end,
unless it waits for ever for room in one queue. -/
theorem lockless_returns (h : (E.state 0).Fresh) (hfair : E.StronglyFair (AccessOf t))
    (hpol : ¬ (E.state 0).shared.clients.policy.Evicting) (hpc : ((E.state n).pc t).Lockless)
    (hfree : ∀ m r x, n ≤ m → (∀ k, n ≤ k → (E.state k).pc t ≠ .idle) →
      ¬ ∀ k, m ≤ k → HeldUp (E.state k) t r x) : ∃ m, n ≤ m ∧ (E.state m).pc t = .idle := by
  by_contra hnever
  simp only [not_exists, not_and] at hnever
  have hlockless : ∀ k, n ≤ k → ((E.state k).pc t).Lockless := by
    intro k hk
    refine E.kept (I := fun s => (s.pc t).Lockless) (fun i l hi hl hs => ?_) hpc hk
    refine step_lockless (E.moves i l hl) ?_ (hnever i hi) hs
    rwa [(persists_from (E := E) (Nat.zero_le i)).policy]
  obtain ⟨m, hm, hidle | hstays⟩ := returns_or_stays hfair n
  · exact hnever m hm hidle
  · rcases stays_waits h (hnever m hm) hstays with hlocked | ⟨r, x, hheld⟩
    · exact hlocked m le_rfl (granted_of_free (hlockless m hm).exclusive)
    · exact hfree m r x hm hnever hheld

/-- The call that begins at the moment `n`, as long as it goes on. -/
theorem callOf_labels (h : (E.state 0).Fresh) (hcall : E.label n = some (.call t op)) {k : ℕ}
    (hbusy : ∀ i < k, (E.state (n + 1 + i)).pc t ≠ .idle) :
    CallOf t op (E.state n) (E.labels (n + 1) k) (E.state (n + 1 + k)) := by
  have hstep : CallStep (E.state n) (.call t op) (E.state (n + 1)) := E.moves n _ hcall
  have hrun := E.run_labels (n + 1) k
  generalize E.state (n + 1) = s₁ at hstep hrun
  cases hstep with
  | call _ hidle =>
    refine ⟨E.reachable h n, hidle, hrun, fun op' hop => ?_⟩
    obtain ⟨i, hi, hl⟩ := E.mem_labels.mp hop
    have hagain : CallStep (E.state (n + 1 + i)) (.call t op') (E.state (n + 1 + i + 1)) :=
      E.moves _ _ hl
    generalize E.state (n + 1 + i + 1) = s₂ at hagain
    cases hagain with
    | call _ hfree => exact hbusy i hi hfree

theorem lockless_start (hm : op.message = some msg) : op.start.Lockless := by
  cases op with
  | broadcastExcept | broadcastGroup | broadcastGroupExcept | broadcastGroups =>
    obtain rfl : _ = some msg := hm
    trivial
  | _ => simp [Op.message] at hm

/-- A broadcast waits in the queue of a recipient only. -/
theorem CallOf.waits {s₀ : Calls Task} {xs : List (CallLabel Task)} {r : Receiver}
    (h : CallOf t op s₀ xs s) (hm : op.message = some msg) (hwait : s.pc t = .wait r) :
    ∃ k d, r = .recipient k d := by
  rcases (h.informed hm).pos with ⟨hc, -⟩ | hd
  · rw [hwait] at hc
    exact hc.elim
  · rw [hwait] at hd
    cases r with
    | direct => exact hd.elim
    | recipient k d => exact ⟨k, d, rfl⟩

/-- A call that fits a policy without RTT windows does not panic, and reports no drop under
`Block`. -/
theorem step_decides (hstep : CallStep s (.exec t e) s') (hfit : s.AllFit)
    (hpol : ¬ s.shared.clients.policy.Evicting) :
    e ≠ .panic ∧ ∀ h, e = .onDrop h → s.shared.clients.policy ≠ .block := by
  cases hstep with
  | exec _ hx =>
    have ht := hfit t
    generalize s.pc t = pc at hx ht
    cases hx with
    | averagePanics => exact (hpol (Or.inr ht)).elim
    | drop => exact ⟨by simp, fun _ _ => ht⟩
    | _ => simp

theorem mem_settledBy {xs : List (CallLabel Task)} {h : Handle} (hh : h ∈ settledBy t xs) :
    ∃ e, .exec t e ∈ xs ∧ e.settles = some h := by
  obtain ⟨l, hl, hs⟩ := List.mem_filterMap.mp hh
  cases l with
  | exec u e =>
    by_cases hu : u = t
    · subst hu
      exact ⟨e, hl, by simpa [CallLabel.settles] using hs⟩
    · simp [CallLabel.settles, hu] at hs
  | _ => cases hs

/-- Without evictions a decision serves its recipient. -/
theorem serves_of_settles (h : (E.state 0).Fresh)
    (hpol : ¬ (E.state 0).shared.clients.policy.Evicting) {k : ℕ} {j : Handle}
    (hset : Settling t msg (E.labels n k) s) (hj : j ∈ settledBy t (E.labels n k)) :
    Served (E.state 0).shared.clients.policy msg t (E.labels n k) j := by
  obtain ⟨e, he, hs⟩ := mem_settledBy hj
  refine ⟨e, he, ?_⟩
  obtain ⟨i, -, hl⟩ := E.mem_labels.mp he
  have hpolicy := (persists_from (E := E) (Nat.zero_le (n + i))).policy
  obtain ⟨-, hdrop⟩ := step_decides (E.moves _ _ hl) (allFit_reachable (E.reachable h _))
    (by rwa [hpolicy])
  rw [hpolicy] at hdrop
  cases e with
  | enqueue r =>
    cases r with
    | direct => cases hs
    | recipient i d =>
      obtain rfl : i = j := Option.some.inj hs
      exact ⟨rfl, hset.sent _ d he⟩
  | onDrop i =>
    obtain rfl : i = j := Option.some.inj hs
    exact ⟨rfl, hdrop _ rfl⟩
  | _ => cases hs

theorem broadcast_returns (h : (E.state 0).Fresh) (hfair : E.StronglyFair (AccessOf t))
    (hroom : ¬ (E.state 0).shared.clients.policy.Timed →
      ∀ x, ∃ᶠ k in atTop, ¬ (E.state k).shared.Full x)
    (hpol : ¬ (E.state 0).shared.clients.policy.Evicting)
    (hcall : E.label n = some (.call t op)) (hm : op.message = some msg) :
    ∃ k, (E.state (n + 1 + k)).pc t = .idle := by
  have hstart : ((E.state (n + 1)).pc t).Lockless := by
    have hstep : CallStep (E.state n) (.call t op) (E.state (n + 1)) := E.moves n _ hcall
    generalize E.state (n + 1) = s₁ at hstep
    cases hstep with
    | call => simpa using lockless_start hm
  have hfree : ∀ m r x, n + 1 ≤ m → (∀ k, n + 1 ≤ k → (E.state k).pc t ≠ .idle) →
      ¬ ∀ k, m ≤ k → HeldUp (E.state k) t r x := by
    intro m r x hm' hbusy hheld
    obtain ⟨k, rfl⟩ := Nat.exists_eq_add_of_le hm'
    have hof := callOf_labels h hcall (k := k) fun i _ => hbusy _ (Nat.le_add_right _ i)
    have hend := hheld _ le_rfl
    obtain ⟨i, d, rfl⟩ := hof.waits hm hend.pc
    have huntimed := (hend.timer i d rfl).2
    rw [(persists_from (E := E) (Nat.zero_le _)).policy] at huntimed
    obtain ⟨q, hq, hfree⟩ := frequently_atTop.mp (hroom huntimed x) (n + 1 + k)
    exact hfree (hheld q hq).full
  obtain ⟨m, hm', hidle⟩ := lockless_returns h hfair hpol hstart hfree
  obtain ⟨k, rfl⟩ := Nat.exists_eq_add_of_le hm'
  exact ⟨k, hidle⟩

/-- Without evictions a broadcast that has returned has served, or lost, each recipient. -/
theorem served_or_lost (h : (E.state 0).Fresh)
    (hpol : ¬ (E.state 0).shared.clients.policy.Evicting)
    (hno : ∀ k, E.label k ≠ some (.abort t)) {k : ℕ} {j : Handle}
    (hset : Settling t msg (E.labels n k) s) (hidle : s.pc t = .idle)
    (hj : j ∈ attemptedBy t (E.labels n k)) :
    Served (E.state 0).shared.clients.policy msg t (E.labels n k) j ∨ s.shared.Lost j := by
  have hquiet : ∀ l, (∀ i, E.label i ≠ some l) → l ∉ E.labels n k := by
    intro l hl hin
    obtain ⟨i, -, hi⟩ := E.mem_labels.mp hin
    exact hl _ hi
  have hpanic : ∀ i, E.label i ≠ some (.exec t .panic) := by
    intro i hi
    refine (step_decides (E.moves _ _ hi) (allFit_reachable (E.reachable h i)) ?_).1 rfl
    rwa [(persists_from (E := E) (Nat.zero_le i)).policy]
  rcases hset.left (hquiet _ hno) (hquiet _ hpanic) j hj with hdone | hcur | hlost
  · exact Or.inl (serves_of_settles h hpol hset hdone)
  · simp [hidle, Pc.current] at hcur
  · exact Or.inr hlost

/-- Under `DropMessage` every broadcast returns, whatever the clients do, and under `Block` it
does if no queue stays full for ever. By then each connection it turned to has got the message or,
not under `Block`, an `on_drop` call, unless under `Block` its receiver is gone. -/
theorem broadcasts_settle (h : (E.state 0).Fresh) (hfair : E.StronglyFair (AccessOf t))
    (hpol : ¬ (E.state 0).shared.clients.policy.Evicting)
    (hroom : ¬ (E.state 0).shared.clients.policy.Timed →
      ∀ x, ∃ᶠ k in atTop, ¬ (E.state k).shared.Full x)
    (hcall : E.label n = some (.call t op)) (hm : op.message = some msg)
    (hno : ∀ k, E.label k ≠ some (.abort t)) :
    ∃ k xs, xs = E.labels (n + 1) k ∧ CallOf t op (E.state n) xs (E.state (n + 1 + k)) ∧
      (E.state (n + 1 + k)).pc t = .idle ∧ ∀ j ∈ attemptedBy t xs,
        Served (E.state 0).shared.clients.policy msg t xs j ∨
          (E.state (n + 1 + k)).shared.Lost j := by
  classical
  have hreturns := broadcast_returns h hfair hroom hpol hcall hm
  -- the call is at work up to its first return, and another one may follow
  have hidle := Nat.find_spec hreturns
  have hof := callOf_labels h hcall (k := Nat.find hreturns) fun i hi => Nat.find_min hreturns hi
  exact ⟨_, _, rfl, hof, hidle, fun j hj => served_or_lost h hpol hno (hof.settling hm) hidle hj⟩

/-- The only client does not read: its queue holds one message, and another is broadcast. -/
theorem late_execution : ∃ E : Execution (callSystem Bool), (E.state 0).Fresh ∧
    E.StronglyFair (AccessOf false) ∧ (E.state 0).shared.clients.policy = .dropMessage 5 ∧
      E.label 5 = some (.call false (.broadcastExcept [] (some (.text "news")))) ∧
      ∀ k, E.label k ≠ some (.abort false) := by
  have hrun : ∃ xs s, (callSystem Bool).Run (idlePair (.dropMessage 5)) xs s ∧
      xs[5]? = some (.call false (.broadcastExcept [] (some (.text "news")))) ∧
      .abort false ∉ xs ∧ s.pc false = .idle := by
    refine ⟨_, _, .step (.call (t := true) (.add "a" "txA" "tokenA" "dropA") rfl) <|
      .step (.exec (t := true) (granted_of_free rfl) (.insert "a" "txA" "tokenA" "dropA")) <|
      .step (.call (t := true) (.unicast "a" (some (.text "old"))) rfl) <|
      .step (.exec (t := true) (granted_of_free rfl) (.senderFound rfl)) <|
      .step (.exec (t := true) (granted_of_free rfl) (.accept ⟨by decide, by decide⟩)) <|
      .step (.call (t := false) (.broadcastExcept [] (some (.text "news"))) rfl) <|
      .step (.exec (t := false) (granted_of_free rfl) (.iter ⟨1, fun _ => 0⟩)) <|
      .step (.exec (t := false) (granted_of_free rfl) (.scan (by decide) (yields_only _ _))) <|
      .step (.exec (t := false) (granted_of_free rfl) (.scanned (by decide))) <|
      .step (.exec (t := false) (granted_of_free rfl) .next) <|
      .step (.exec (t := false) (granted_of_free rfl) (.suspend (by decide))) <|
      .step (.exec (t := false) (granted_of_free rfl) (.late trivial)) <|
      .step (.exec (t := false) (granted_of_free rfl) .drop) <|
      .single (.exec (t := false) (granted_of_free rfl) .delivered), rfl, by simp, rfl⟩
  obtain ⟨xs, s, hrun, hcall, hno, hidle⟩ := hrun
  obtain ⟨E, h0, hlabel, hend⟩ := Execution.exists_of_run hrun
  refine ⟨E, h0 ▸ idlePair_fresh _, E.fair_of_rest hend ?_, h0 ▸ rfl, hlabel 5 ▸ hcall,
    fun k hk => hno ?_⟩
  · rintro ⟨_, s', ⟨e, rfl⟩, hstep⟩
    cases hstep with
    | exec _ hx =>
      rw [hidle] at hx
      cases hx
  · rw [hlabel] at hk
    exact List.mem_of_getElem? hk

theorem settles_in_time : ∃ E : Execution (callSystem Bool), ∃ k xs, xs = E.labels 6 k ∧
    CallOf false (.broadcastExcept [] (some (.text "news"))) (E.state 5) xs (E.state (6 + k)) ∧
      (E.state (6 + k)).pc false = .idle ∧ ∀ j ∈ attemptedBy false xs,
        Served (.dropMessage 5) (.text "news") false xs j ∨ (E.state (6 + k)).shared.Lost j := by
  obtain ⟨E, hfresh, hfair, hpolicy, hcall, hno⟩ := late_execution
  have hkeeps : ¬ (E.state 0).shared.clients.policy.Evicting := by
    simp [hpolicy, BroadcastPolicy.Evicting, BroadcastPolicy.Counts, BroadcastPolicy.Samples]
  have htimed : (E.state 0).shared.clients.policy.Timed := by
    rw [hpolicy]
    trivial
  exact ⟨E, hpolicy ▸ broadcasts_settle hfresh hfair hkeeps (fun h => (h htimed).elim) hcall rfl
    hno⟩

end AxumSignal

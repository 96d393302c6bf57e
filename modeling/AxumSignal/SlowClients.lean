import AxumSignal.Completion
import AxumSignal.Deadlock

/-! What a client that does not read its messages holds up, under a policy without a timer. -/
namespace AxumSignal

open Transition Calls LTS

variable {Task : Type} [DecidableEq Task] {s s' : Calls Task} {sh sh' : Shared} {pc pc' : Pc}
  {e : Event} {t : Task} {r : Receiver} {x : Sender} {l : CallLabel Task}
  {xs : List (CallLabel Task)}

/-- Nobody takes from the channel or closes it, and the call of `t` is not aborted. -/
def Idles (t : Task) (x : Sender) (l : CallLabel Task) : Prop :=
  l ≠ .recv x ∧ l ≠ .close x ∧ l ≠ .abort t

/-- The call of `t` waits for room in the channel `x`, with no timer running. -/
structure HeldUp (s : Calls Task) (t : Task) (r : Receiver) (x : Sender) : Prop where
  pc : s.pc t = .wait r
  full : s.shared.Full x
  sender : r.sender s.shared.clients = x
  timer : ∀ h d, r = .recipient h d → h < s.shared.clients.allocated ∧
    ¬ s.shared.clients.policy.Timed

/-- Only an access that finds room changes a channel. -/
theorem exec_full (hx : Exec sh pc e sh' pc') (hfull : sh.Full x) : sh'.Full x := by
  have hpush : ∀ {r : Receiver}, sh.Accepts (r.sender sh.clients) →
      (sh.push (r.sender sh.clients) r.msg).Full x := by
    intro r hroom
    have hne : x ≠ r.sender sh.clients := by
      rintro rfl
      exact hfull.not_accepts hroom
    simpa [Shared.Full, Shared.push, Function.update_of_ne hne] using hfull
  cases hx with
  | accept hroom | resume hroom => exact hpush hroom
  | _ => exact hfull

theorem step_full (h : CallStep s l s') (hl : Idles t x l) (hfull : s.shared.Full x) :
    s'.shared.Full x := by
  cases h with
  | exec _ hx => exact exec_full hx hfull
  | recv y =>
    have hne : x ≠ y := by
      rintro rfl
      exact hl.1 rfl
    simpa [Shared.Full, Shared.pop, Function.update_of_ne hne] using hfull
  | close y =>
    have hne : x ≠ y := by
      rintro rfl
      exact hl.2.1 rfl
    simpa [Shared.Full, Shared.close, Function.update_of_ne hne] using hfull
  | call | abort | cancel => exact hfull

/-- A send keeps its channel. -/
theorem Persists.sender (hp : Persists sh sh')
    (hr : ∀ h d, r = .recipient h d → h < sh.clients.allocated) :
    r.sender sh'.clients = r.sender sh.clients := by
  cases hrec : r with
  | direct => rfl
  | recipient h d => exact congrArg Registration.sender (hp.registration h (hr h d hrec))

theorem heldUp_step (h : CallStep s l s') (hl : Idles t x l) (hs : HeldUp s t r x) :
    HeldUp s' t r x ∧ ∀ e, l ≠ .exec t e := by
  have hp := step_persists h
  have hkeep : s'.pc t = s.pc t → HeldUp s' t r x := by
    intro hpc
    refine ⟨hpc.trans hs.pc, step_full h hl hs.full, ?_, fun k d hr => ?_⟩
    · rw [hp.sender fun k d hr => (hs.timer k d hr).1]
      exact hs.sender
    · obtain ⟨halloc, htimer⟩ := hs.timer k d hr
      exact ⟨halloc.trans_le hp.allocated, hp.policy ▸ htimer⟩
  cases step_turn h t with
  | other hl hpc => exact ⟨hkeep hpc, hl⟩
  | call hidle => simp [hs.pc] at hidle
  | exec _ hx =>
    rw [hs.pc] at hx
    cases hx with
    | resume hroom =>
      rw [hs.sender] at hroom
      exact (hs.full.not_accepts hroom).elim
    | disconnect hclosed =>
      rw [hs.sender, hs.full.1] at hclosed
      cases hclosed
    | late htimed => exact ((hs.timer _ _ rfl).2 htimed).elim
  | abort => exact (hl.2.2 rfl).elim

theorem heldUp_run (h : (callSystem Task).Run s xs s') (hxs : ∀ l ∈ xs, Idles t x l)
    (hs : HeldUp s t r x) :
    HeldUp s' t r x ∧ (∀ e, .exec t e ∉ xs) ∧
      ∀ u, s.Awaits u t → s'.Awaits u t ∧ s'.pc u = s.pc u := by
  induction h with
  | refl => exact ⟨hs, by simp, fun _ hu => ⟨hu, rfl⟩⟩
  | @step s s₁ s₂ l xs hstep _ ih =>
    obtain ⟨hs₁, hquiet⟩ := heldUp_step hstep (hxs l List.mem_cons_self) hs
    obtain ⟨hs₂, hnone, hstay⟩ := ih (fun k hk => hxs k (List.mem_cons_of_mem _ hk)) hs₁
    refine ⟨hs₂, fun e => ?_, fun u hu => ?_⟩
    · simpa using ⟨(hquiet e).symm, hnone e⟩
    · have hsame := awaits_stays hstep hu
      obtain ⟨group, hgroup, g, hg, hshard⟩ := hu
      have hu₁ : s₁.Awaits u t := by
        refine ⟨group, hsame ▸ hgroup, g, ?_, ?_⟩
        · rw [hs₁.pc, ← hs.pc]
          exact hg
        · rwa [(step_persists hstep).shard]
      obtain ⟨hu₂, hpc⟩ := hstay u hu₁
      exact ⟨hu₂, hpc.trans hsame⟩

theorem heldUp_of_suspended (h : (callSystem Task).Reachable Calls.Fresh s)
    (hwait : s.pc t = .wait r) (hfull : s.shared.Full (r.sender s.shared.clients))
    (htimer : ∀ k d, r = .recipient k d → ¬ s.shared.clients.policy.Timed) :
    HeldUp s t r (r.sender s.shared.clients) := by
  have hcol := allCollected_reachable h t
  rw [hwait] at hcol
  refine ⟨hwait, hfull, rfl, fun k d hr => ⟨?_, htimer k d hr⟩⟩
  subst hr
  exact hcol.allocated k List.mem_cons_self

/-- As long as a client takes nothing from its full queue, a broadcast that waits for it without
a timer turns to nobody else, and neither do the joins and clean-ups that wait for the guard of
that broadcast get any further. -/
theorem slow_client_blocks (h : (callSystem Task).Reachable Calls.Fresh s)
    (hwait : s.pc t = .wait r) (hfull : s.shared.Full (r.sender s.shared.clients))
    (htimer : ∀ k d, r = .recipient k d → ¬ s.shared.clients.policy.Timed)
    (hrun : (callSystem Task).Run s xs s')
    (hxs : ∀ l ∈ xs, Idles t (r.sender s.shared.clients) l) :
    s'.pc t = .wait r ∧ (∀ e, .exec t e ∉ xs) ∧
      ∀ u, s.Awaits u t → s'.pc u = s.pc u ∧ ¬ s'.CanStep u := by
  have hs := heldUp_of_suspended h hwait hfull htimer
  obtain ⟨hs', hnone, hstay⟩ := heldUp_run hrun hxs hs
  refine ⟨hs'.pc, hnone, fun u hu => ?_⟩
  obtain ⟨hu', hpc⟩ := hstay u hu
  exact ⟨hpc, fun hcan => hu'.not_granted hcan.granted⟩

/-- A member of the group with a full queue holds up a join to it. -/
theorem slow_member_blocks_join : ∃ s s' : Calls Bool, s.Awaits true false ∧
    s'.pc true = .joinMembers "b" "g" ∧ ¬ s'.CanStep true := by
  obtain ⟨s, d, hheld, hreach, -, hpolicy, hwait, hjoin, hfull⟩ := waiting_join
  have hawaits : s.Awaits true false := by
    refine ⟨"g", by simp [hjoin, Pc.exclusive], "g", ?_, rfl⟩
    simp [hwait, Pc.guards, Receiver.held, hheld]
  have hrun : (callSystem Bool).Run s [.cancel "token"] _ := .single (.cancel "token")
  obtain ⟨-, -, hstay⟩ := slow_client_blocks hreach hwait hfull
    (fun _ _ _ htimed => by simp [hpolicy, BroadcastPolicy.Timed] at htimed) hrun
    (by simp [Idles])
  obtain ⟨hpc, hstuck⟩ := hstay true hawaits
  exact ⟨s, _, hawaits, hpc.trans hjoin, hstuck⟩

end AxumSignal

import AxumSignal.CallFacts

/-! How often the policy cancels the token of one connection, with any number of calls
unregistering it at the same time. -/
namespace AxumSignal

open Transition Calls LTS

variable {Task : Type} [DecidableEq Task] {s s' : Calls Task} {sh sh' : Shared} {pc pc' : Pc}
  {e : Event} {t u : Task} {c : ConnId} {l : CallLabel Task} {n : Nat}

/-- The call has unregistered `c` and is about to cancel its token. -/
def Pc.Cancelling (c : ConnId) : Pc → Prop
  | .evictCancel _ id _ => id = c
  | _ => False

/-- The policy cancels the token of `c`. -/
def PolicyCancels (c : ConnId) (s : Calls Task) (l : CallLabel Task) (_ : Calls Task) : Prop :=
  ∃ t e, l = .exec t e ∧ (s.pc t).Cancelling c

theorem Pc.Cancelling.eq (h : pc.Cancelling c) : ∃ victim d, pc = .evictCancel victim c d := by
  cases pc with
  | evictCancel victim id d =>
    obtain rfl := h
    exact ⟨victim, d, rfl⟩
  | _ => exact h.elim

/-- An eviction gets to the token by taking out the registration. -/
theorem exec_cancelling (hx : Exec sh pc e sh' pc') (h : pc'.Cancelling c) :
    sh.clients.connections.lookup c ≠ none ∧ sh'.clients.connections.lookup c = none := by
  obtain ⟨victim, d, rfl⟩ := h.eq
  obtain ⟨hl, hnone⟩ := exec_evictCancel hx
  exact ⟨by simp [hl], hnone⟩

/-- The cancellation is over, and the clean-up follows. -/
theorem exec_cancels (hx : Exec sh pc e sh' pc') (h : pc.Cancelling c) :
    ¬ pc'.Cancelling c ∧ sh'.clients = sh.clients := by
  obtain ⟨victim, d, rfl⟩ := h.eq
  cases hx
  exact ⟨id, rfl⟩

theorem start_cancelling (op : Op) : ¬ op.start.Cancelling c := by
  intro h
  obtain ⟨victim, d, hpc⟩ := h.eq
  exact start_ne_evictCancel hpc

/-- After `n` cancellations of the token of `c`: there was at most one; none can have happened
while `c` is registered, or while a call is about to cancel; and there is one such call. -/
structure Calls.Cancelled (s : Calls Task) (c : ConnId) (n : Nat) : Prop where
  once : n ≤ 1
  registered : s.shared.clients.connections.lookup c ≠ none →
    n = 0 ∧ ∀ t, ¬ (s.pc t).Cancelling c
  pending : ∀ t, (s.pc t).Cancelling c → n = 0
  unique : ∀ t u, (s.pc t).Cancelling c → (s.pc u).Cancelling c → t = u

omit [DecidableEq Task] in
theorem cancelled_none (h : ∀ t, ¬ (s.pc t).Cancelling c) : s.Cancelled c 0 where
  once := Nat.zero_le 1
  registered _ := ⟨rfl, h⟩
  pending t ht := (h t ht).elim
  unique t _ ht := (h t ht).elim

omit [DecidableEq Task] in
/-- Calls that do not come to a cancellation, and a registration that does not come back. -/
theorem Calls.Cancelled.mono (hs : s.Cancelled c n)
    (hpc : ∀ t, (s'.pc t).Cancelling c → (s.pc t).Cancelling c)
    (hl : s'.shared.clients.connections.lookup c ≠ none →
      s.shared.clients.connections.lookup c ≠ none) : s'.Cancelled c n where
  once := hs.once
  registered h := ⟨(hs.registered (hl h)).1, fun t ht => (hs.registered (hl h)).2 t (hpc t ht)⟩
  pending t ht := hs.pending t (hpc t ht)
  unique t u ht hu := hs.unique t u (hpc t ht) (hpc u hu)

theorem cancelling_goto (hpc : ¬ pc.Cancelling c)
    (h : ((s.goto t sh pc).pc u).Cancelling c) : u ≠ t ∧ (s.pc u).Cancelling c := by
  by_cases hut : u = t
  · subst hut
    rw [goto_pc] at h
    exact (hpc h).elim
  · rw [goto_pc_ne s hut] at h
    exact ⟨hut, h⟩

/-- The access of a call that is not about to cancel. -/
theorem cancelled_other (hs : s.Cancelled c n) (hx : Exec s.shared (s.pc t) e sh pc)
    (hins : ∀ x k f, s.pc t = .insert c x k f → n = 0 ∧ ∀ u, ¬ (s.pc u).Cancelling c) :
    (s.goto t sh pc).Cancelled c n := by
  by_cases hnew : pc.Cancelling c
  · obtain ⟨hreg, hnone⟩ := exec_cancelling hx hnew
    obtain ⟨rfl, hfree⟩ := hs.registered hreg
    have honly : ∀ u, ((s.goto t sh pc).pc u).Cancelling c → u = t := by
      intro u hu
      by_contra hut
      rw [goto_pc_ne s hut] at hu
      exact hfree u hu
    exact ⟨hs.once, fun h => (h hnone).elim, fun _ _ => rfl,
      fun u v hu hv => (honly u hu).trans (honly v hv).symm⟩
  · by_cases hi : ∃ x k f, s.pc t = .insert c x k f
    · obtain ⟨x, k, f, hpc⟩ := hi
      obtain ⟨rfl, hfree⟩ := hins x k f hpc
      exact cancelled_none fun u hu => hfree u (cancelling_goto hnew hu).2
    · refine hs.mono (fun u hu => (cancelling_goto hnew hu).2) fun hl hnone => ?_
      exact hl (exec_unregistered hx hnone fun x k f hpc => hi ⟨x, k, f, hpc⟩)

/-- The access that cancels. -/
theorem cancelled_cancels (hs : s.Cancelled c n) (hx : Exec s.shared (s.pc t) e sh pc)
    (ht : (s.pc t).Cancelling c) : (s.goto t sh pc).Cancelled c (n + 1) := by
  obtain ⟨hpc, hclients⟩ := exec_cancels hx ht
  obtain rfl := hs.pending t ht
  have hnone : ∀ u, ¬ ((s.goto t sh pc).pc u).Cancelling c := by
    intro u hu
    obtain ⟨hut, hu⟩ := cancelling_goto hpc hu
    exact hut (hs.unique u t hu ht)
  refine ⟨le_rfl, fun hl => ?_, fun u hu => (hnone u hu).elim, fun u _ hu => (hnone u hu).elim⟩
  rw [goto_shared, hclients] at hl
  exact ((hs.registered hl).2 t ht).elim

/-- A step that cancels is counted. -/
theorem cancelled_counts (hs : s.Cancelled c n) (h : CallStep s l s')
    (hp : PolicyCancels c s l s') : s'.Cancelled c (n + 1) := by
  obtain ⟨t, e, rfl, ht⟩ := hp
  cases h with
  | exec _ hx => exact cancelled_cancels hs hx ht

/-- Any other step keeps the account, as long as `c` is not added once it was evicted. -/
theorem cancelled_skips (hs : s.Cancelled c n) (h : CallStep s l s')
    (hp : ¬ PolicyCancels c s l s')
    (hins : ∀ t e x k f, l = .exec t e → s.pc t = .insert c x k f →
      n = 0 ∧ ∀ u, ¬ (s.pc u).Cancelling c) : s'.Cancelled c n := by
  cases h with
  | call op _ => exact hs.mono (fun u hu => (cancelling_goto (start_cancelling op) hu).2) id
  | @exec t e sh pc _ hx => exact cancelled_other hs hx fun x k f hpc => hins t e x k f rfl hpc
  | abort _ => exact hs.mono (fun u hu => (cancelling_goto id hu).2) id
  | recv | close | cancel => exact hs.mono (fun _ hu => hu) id

end AxumSignal

import AxumSignal.CallFacts
import AxumSignal.Lib.Window

/-! How long the window of round-trip times behind a registration gets. -/
namespace AxumSignal

open Transition Calls LTS Window

variable {Task : Type} [DecidableEq Task] {s s' : Calls Task} {sh sh' : Shared} {pc pc' : Pc}
  {e : Event} {t : Task} {k : Handle} {c : ConnId} {l : CallLabel Task}
  {xs : List (CallLabel Task)} {maxRtt n rtt : Nat}

/-- The ring buffer of `update_rtt` is a window that slides at its capacity. -/
theorem pushSample_eq (n : Nat) (samples : List Nat) (rtt : Nat) :
    pushSample n samples rtt = slide n samples rtt := rfl

/-- No window holds more than the configured number of samples, or one. -/
def InMemoryWsClients.WindowsBounded (s : InMemoryWsClients) : Prop :=
  ∀ maxRtt n, s.policy = .dropOnHighRtt maxRtt n → ∀ k, (s.states k).rttSamples.length ≤ max 1 n

/-- A sample is recorded with a capacity of zero, in a window that is not empty. -/
def Overfills (s : Calls Task) (l : CallLabel Task) : Prop :=
  ∃ t k rtt maxRtt, l = .exec t .access ∧ s.pc t = .record k rtt ∧
    s.shared.clients.policy = .dropOnHighRtt maxRtt 0 ∧
    (s.shared.clients.states k).rttSamples ≠ []

/-- The one access that changes a window slides it; a new registration has an empty one. -/
theorem exec_samples (hx : Exec sh pc e sh' pc') (k : Handle) :
    (sh'.clients.states k).rttSamples = (sh.clients.states k).rttSamples ∨
      (sh'.clients.states k).rttSamples = [] ∨
      ∃ rtt maxRtt n, pc = .record k rtt ∧ e = .access ∧
        sh.clients.policy = .dropOnHighRtt maxRtt n ∧
        (sh'.clients.states k).rttSamples = slide n (sh.clients.states k).rttSamples rtt := by
  cases hx with
  | insert =>
    by_cases hk : k = sh.clients.allocated
    · subst hk
      exact Or.inr (Or.inl (by simp [Shared.set, InMemoryWsClients.insertConnection]))
    · exact Or.inl (by simp [Shared.set, InMemoryWsClients.insertConnection, hk])
  | @record h rtt maxRtt n hp =>
    by_cases hk : k = h
    · subst hk
      refine Or.inr (Or.inr ⟨rtt, maxRtt, n, rfl, rfl, hp, ?_⟩)
      simp [Shared.set, InMemoryWsClients.setRttSamples, pushSample_eq]
    · exact Or.inl (by simp [Shared.set, InMemoryWsClients.setRttSamples, hk])
  | @countBelow h | @countReached h | @reset h =>
    refine Or.inl ?_
    by_cases hk : k = h
    · subst hk
      simp [Shared.set, InMemoryWsClients.setDrops]
    · simp [Shared.set, InMemoryWsClients.setDrops, hk]
  | _ => exact Or.inl rfl

theorem windowsBounded_exec (hx : Exec sh pc e sh' pc') (hb : sh.clients.WindowsBounded)
    (hsafe : ∀ k rtt maxRtt, pc = .record k rtt → sh.clients.policy = .dropOnHighRtt maxRtt 0 →
      (sh.clients.states k).rttSamples = []) : sh'.clients.WindowsBounded := by
  intro maxRtt n hp k
  rw [(exec_persists hx).policy] at hp
  rcases exec_samples hx k with hsame | hnew | ⟨rtt, maxRtt', n', rfl, _, hp', hslide⟩
  · rw [hsame]
    exact hb maxRtt n hp k
  · simp [hnew]
  · obtain ⟨rfl, rfl⟩ : maxRtt' = maxRtt ∧ n' = n := by simpa [hp] using hp'.symm
    rw [hslide, length_slide_le_iff (hb _ _ hp k)]
    rintro rfl
    exact hsafe k rtt _ rfl hp

/-- The step lemma: from bounded windows, a step leaves them bounded exactly if it does not
record a sample beyond a capacity of zero. -/
theorem windowsBounded_step (h : CallStep s l s') (hb : s.shared.clients.WindowsBounded) :
    s'.shared.clients.WindowsBounded ↔ ¬ Overfills s l := by
  constructor
  · rintro hb' ⟨t, k, rtt, maxRtt, rfl, hpc, hp, hne⟩
    cases h with
    | exec _ hx =>
      rw [hpc] at hx
      cases hx with
      | record hp' =>
        obtain ⟨rfl, rfl⟩ : _ = maxRtt ∧ _ = 0 := by simpa [hp] using hp'.symm
        have hle := hb' _ 0 hp k
        simp only [goto_shared, Shared.set, InMemoryWsClients.setRttSamples,
          Function.update_self, pushSample_eq] at hle
        exact hne ((length_slide_le_iff (hb _ 0 hp k)).mp hle rfl)
  · intro hsafe
    cases h with
    | @exec t e sh pc _ hx =>
      refine windowsBounded_exec hx hb fun k rtt maxRtt hpc hp => ?_
      by_contra hne
      rw [hpc] at hx
      cases hx with
      | record => exact hsafe ⟨t, k, rtt, maxRtt, rfl, hpc, hp, hne⟩
    | call | abort | recv | close | cancel => exact hb

omit [DecidableEq Task] in
theorem windowsBounded_fresh (h : s.Fresh) : s.shared.clients.WindowsBounded := by
  obtain ⟨⟨policy, shard, hnew⟩, _⟩ := h
  intro _ _ _ k
  rw [hnew]
  exact Nat.zero_le _

/-- In every run the windows stay within the configured number of samples, or one, exactly
if no sample is recorded in a window that is not empty while the capacity is zero. -/
theorem windows_bounded_iff (h : s.Fresh) :
    ((callSystem Task).restrict fun _ _ u => u.shared.clients.WindowsBounded).Run s xs s' ↔
      ((callSystem Task).restrict fun u l _ => ¬ Overfills u l).Run s xs s' :=
  run_restrict_congr (I := fun u => u.shared.clients.WindowsBounded)
    (fun _ _ _ hstep hb => windowsBounded_step hstep hb) (fun _ _ _ hstep _ => hstep.2)
    (windowsBounded_fresh h)

/-- A registered connection reports one round-trip time to a store with a capacity of zero. -/
theorem one_sample_bounded : ∃ xs s', ((callSystem Bool).restrict fun _ _ u =>
    u.shared.clients.WindowsBounded).Run (idlePair (.dropOnHighRtt second 0)) xs s' ∧
      (s'.shared.clients.states 0).rttSamples = [7] := by
  refine ⟨_, _, (windows_bounded_iff (idlePair_fresh _)).mpr <|
    .step ⟨.call (t := true) (.add "c" "tx" "token" "drop") rfl, ?_⟩ <|
    .step ⟨.exec (t := true) (granted_of_free rfl) (.insert "c" "tx" "token" "drop"), ?_⟩ <|
    .step ⟨.call (t := true) (.updateRtt "c" 7) rfl, ?_⟩ <|
    .step ⟨.exec (t := true) (granted_of_free rfl) (@Exec.stateFound _ _ _ second 0 0 rfl
      (by decide)), ?_⟩ <|
    .single ⟨.exec (t := true) (granted_of_free rfl) (.record rfl), ?_⟩, ?_⟩
  · rintro ⟨t, k, rtt, maxRtt, hl, hpc, _⟩
    cases hl
  · rintro ⟨t, k, rtt, maxRtt, hl, hpc, _⟩
    cases hl
    cases hpc
  · rintro ⟨t, k, rtt, maxRtt, hl, hpc, _⟩
    cases hl
  · rintro ⟨t, k, rtt, maxRtt, hl, hpc, _⟩
    cases hl
    cases hpc
  · rintro ⟨t, k, rtt, maxRtt, hl, hpc, _, hne⟩
    cases hl
    cases hpc
    exact hne rfl
  · rfl

/-- A registered connection and an idle task that can report its round-trip times. -/
structure Sampled (s : Calls Task) (t : Task) (c : ConnId) (k : Handle) (n : Nat)
    (samples : List Nat) : Prop where
  idle : s.pc t = .idle
  found : s.shared.clients.connections.lookup c = some k
  policy : ∃ maxRtt, s.shared.clients.policy = .dropOnHighRtt maxRtt n
  samples : (s.shared.clients.states k).rttSamples = samples

/-- `update_rtt(c, rtt)` runs to its end. -/
theorem updateRtt_run {samples : List Nat} (h : Sampled s t c k n samples) (rtt : Nat) :
    ∃ xs s', (callSystem Task).Run s xs s' ∧ Sampled s' t c k n (slide n samples rtt) := by
  obtain ⟨maxRtt, hp⟩ := h.policy
  let s₁ := s.goto t s.shared (.lookupState c rtt)
  let s₂ := s₁.goto t s.shared (.record k rtt)
  have hcall : CallStep s (.call t (.updateRtt c rtt)) s₁ := .call _ h.idle
  have hlook : CallStep s₁ (.exec t .access) s₂ :=
    .at (s.goto_pc t _ _) (granted_of_free (by simp [s₁, Pc.exclusive])) (.stateFound hp h.found)
  have hrec : CallStep s₂ (.exec t .access) _ :=
    .at (s₁.goto_pc t _ _) (granted_of_free (by simp [s₂, Pc.exclusive])) (.record hp)
  refine ⟨_, _, .step hcall <| .step hlook <| .single hrec, s₂.goto_pc t _ _, h.found,
    ⟨maxRtt, hp⟩, ?_⟩
  simp [s₂, s₁, Shared.set, InMemoryWsClients.setRttSamples, pushSample_eq, h.samples]

/-- With a capacity of zero every sample after the first one stays. -/
theorem zero_samples_grow {samples : List Nat} (h : Sampled s t c k 0 samples)
    (hne : samples ≠ []) (rtts : List Nat) :
    ∃ xs s', (callSystem Task).Run s xs s' ∧ Sampled s' t c k 0 (samples ++ rtts) := by
  suffices ∃ xs s', (callSystem Task).Run s xs s' ∧
      Sampled s' t c k 0 (rtts.foldl (slide 0) samples) by
    rwa [foldl_slide_zero hne] at this
  clear hne
  induction rtts generalizing s samples with
  | nil => exact ⟨[], s, .refl, h⟩
  | cons rtt rtts ih =>
    obtain ⟨xs, u, hxs, hu⟩ := updateRtt_run h rtt
    obtain ⟨ys, s', hys, hs'⟩ := ih hu
    exact ⟨xs ++ ys, s', hxs.append hys, hs'⟩

/-- Two round-trip times are kept where at most one should be. -/
theorem zero_samples_overfull : ∃ xs s',
    (callSystem Bool).Run (idlePair (.dropOnHighRtt second 0)) xs s' ∧
      (s'.shared.clients.states 0).rttSamples = [7, 8] ∧
      ¬ s'.shared.clients.WindowsBounded := by
  refine ⟨_, _,
    .step (.call (t := true) (.add "c" "tx" "token" "drop") rfl) <|
    .step (.exec (t := true) (granted_of_free rfl) (.insert "c" "tx" "token" "drop")) <|
    .step (.call (t := true) (.updateRtt "c" 7) rfl) <|
    .step (.exec (t := true) (granted_of_free rfl) (@Exec.stateFound _ _ _ second 0 0 rfl
      (by decide))) <|
    .step (.exec (t := true) (granted_of_free rfl) (.record rfl)) <|
    .step (.call (t := true) (.updateRtt "c" 8) rfl) <|
    .step (.exec (t := true) (granted_of_free rfl) (@Exec.stateFound _ _ _ second 0 0 rfl
      (by decide))) <|
    .single (.exec (t := true) (granted_of_free rfl) (.record rfl)), rfl, fun hb => ?_⟩
  have hle := hb second 0 rfl 0
  exact absurd hle (by decide)

end AxumSignal

import AxumSignal.Lib.Transition
import Mathlib.Order.Filter.AtTopBot.Basic
import Mathlib.Order.OrderIsoNat

/-! Infinite executions of a labelled transition system, strong fairness, and progress by a
well-founded rank. Nothing here refers to a particular program. -/
namespace Transition

open Filter

universe u v w

variable {State : Type u} {Label : Type v} {M : LTS State Label} {s t : State} {l : Label}
  {xs : List Label} {A : Label → Prop} {P : State → Prop} {n m k : ℕ}

/-- A step with a label in `A` can be taken. -/
def LTS.Enabled (M : LTS State Label) (A : Label → Prop) (s : State) : Prop :=
  ∃ l t, A l ∧ M.Tr s l t

/-- An infinite execution; at a moment without a label the state stays as it is. -/
structure Execution (M : LTS State Label) where
  state : ℕ → State
  label : ℕ → Option Label
  moves : ∀ n l, label n = some l → M.Tr (state n) l (state (n + 1))
  stays : ∀ n, label n = none → state (n + 1) = state n

namespace Execution

variable (E : Execution M)

/-- The labels of the `k` moments from `n` on. -/
def labels (n : ℕ) : ℕ → List Label
  | 0 => []
  | k + 1 => labels n k ++ (E.label (n + k)).toList

/-- A step with a label in `A` is taken at the moment `n`. -/
def Takes (A : Label → Prop) (n : ℕ) : Prop := ∃ l, E.label n = some l ∧ A l

/-- Steps with a label in `A` are taken again and again if they can be. -/
def StronglyFair (A : Label → Prop) : Prop :=
  (∃ᶠ n in atTop, M.Enabled A (E.state n)) → ∃ᶠ n in atTop, E.Takes A n

theorem run_labels (n k : ℕ) : M.Run (E.state n) (E.labels n k) (E.state (n + k)) := by
  induction k with
  | zero => exact .refl
  | succ k ih =>
    cases hl : E.label (n + k) with
    | none =>
      have hsame : E.state (n + (k + 1)) = E.state (n + k) := E.stays _ hl
      simpa [labels, hl, hsame] using ih
    | some l =>
      have hstep : M.Tr (E.state (n + k)) l (E.state (n + (k + 1))) := E.moves _ l hl
      simpa [labels, hl] using ih.snoc hstep

theorem mem_labels : l ∈ E.labels n k ↔ ∃ i < k, E.label (n + i) = some l := by
  induction k with
  | zero => simp [labels]
  | succ k ih =>
    rw [labels, List.mem_append, ih, Option.mem_toList]
    constructor
    · rintro (⟨i, hi, hl⟩ | hl)
      · exact ⟨i, Nat.lt_succ_of_lt hi, hl⟩
      · exact ⟨k, Nat.lt_succ_self k, hl⟩
    · rintro ⟨i, hi, hl⟩
      rcases Nat.lt_succ_iff_lt_or_eq.mp hi with hi | rfl
      · exact Or.inl ⟨i, hi, hl⟩
      · exact Or.inr hl

theorem reachable {init : State → Prop} (h : init (E.state 0)) (n : ℕ) :
    M.Reachable init (E.state n) := by
  have hrun := E.run_labels 0 n
  rw [Nat.zero_add] at hrun
  exact ⟨_, h, _, hrun⟩

variable {E}

/-- What each step from the moment `m` on preserves holds from then on. -/
theorem kept {I : State → Prop}
    (hI : ∀ k l, m ≤ k → E.label k = some l → I (E.state k) → I (E.state (k + 1)))
    (hm : I (E.state m)) (hk : m ≤ k) : I (E.state k) := by
  induction k, hk using Nat.le_induction with
  | base => exact hm
  | succ k hk ih =>
    cases hl : E.label k with
    | none => exact (E.stays k hl).symm ▸ ih
    | some l => exact hI k l hk hl ih

/-- Where no moment raises a rank and every moment of a kind lowers it, this kind of moment comes
to an end. -/
theorem ceases {α : Type w} [PartialOrder α] [WellFoundedLT α] (rank : State → α)
    (hkeep : ∀ k, n ≤ k → rank (E.state (k + 1)) ≤ rank (E.state k))
    (hdrop : ∀ k, n ≤ k → E.Takes A k → rank (E.state (k + 1)) < rank (E.state k)) :
    ∃ m, n ≤ m ∧ ∀ k, m ≤ k → ¬ E.Takes A k := by
  have hanti : Antitone fun i => rank (E.state (n + i)) :=
    antitone_nat_of_succ_le fun i => hkeep _ (Nat.le_add_right n i)
  obtain ⟨N, hN⟩ := WellFoundedLT.antitone_chain_condition hanti
  refine ⟨n + N, Nat.le_add_right n N, fun k hk htakes => ?_⟩
  obtain ⟨i, rfl⟩ := Nat.exists_eq_add_of_le (Nat.le_of_add_right_le hk)
  have hi : N ≤ i := Nat.le_of_add_le_add_left hk
  have hsame : rank (E.state (n + i)) = rank (E.state (n + (i + 1))) :=
    (hN i hi).symm.trans (hN (i + 1) (Nat.le_succ_of_le hi))
  exact (hdrop _ (Nat.le_add_right n i) htakes).ne hsame.symm

/-- A rank that no step inside `P` raises, and that every step with a label in `A` lowers, sees
to it that a fair execution leaves `P` or can take no more steps of this kind. -/
theorem leaves_or_disabled {α : Type w} [PartialOrder α] [WellFoundedLT α] (rank : State → α)
    (hkeep : ∀ s l t, M.Tr s l t → P s → P t → rank t ≤ rank s)
    (hdrop : ∀ s l t, M.Tr s l t → A l → P s → P t → rank t < rank s)
    (hfair : E.StronglyFair A) (n : ℕ) :
    ∃ m, n ≤ m ∧ (¬ P (E.state m) ∨ ∀ k, m ≤ k → ¬ M.Enabled A (E.state k)) := by
  by_cases hP : ∀ m, n ≤ m → P (E.state m)
  · have hquiet : ∃ m, n ≤ m ∧ ∀ k, m ≤ k → ¬ E.Takes A k := by
      refine ceases rank (fun k hk => ?_) fun k hk htakes => ?_
      · cases hl : E.label k with
        | none => exact le_of_eq (congrArg rank (E.stays _ hl))
        | some l => exact hkeep _ l _ (E.moves _ l hl) (hP _ hk) (hP _ (Nat.le_succ_of_le hk))
      · obtain ⟨l, hl, hA⟩ := htakes
        exact hdrop _ l _ (E.moves _ l hl) hA (hP _ hk) (hP _ (Nat.le_succ_of_le hk))
    obtain ⟨N, -, hN⟩ := hquiet
    have hnever : ¬ ∃ᶠ k in atTop, E.Takes A k := by
      rw [frequently_atTop]
      intro hoften
      obtain ⟨k, hk, htakes⟩ := hoften N
      exact hN k hk htakes
    have hdisabled : ∀ᶠ k in atTop, ¬ M.Enabled A (E.state k) :=
      not_frequently.mp fun hen => hnever (hfair hen)
    obtain ⟨m, hm⟩ := eventually_atTop.mp hdisabled
    exact ⟨max n m, le_max_left n m, Or.inr fun k hk => hm k ((le_max_right n m).trans hk)⟩
  · simp only [not_forall] at hP
    obtain ⟨m, hm, hleft⟩ := hP
    exact ⟨m, hm, Or.inl hleft⟩

/-- With such a rank a fair execution leaves `P`, if inside `P` a step of this kind can be taken
again and again. -/
theorem leaves {α : Type w} [PartialOrder α] [WellFoundedLT α] (rank : State → α)
    (hkeep : ∀ s l t, M.Tr s l t → P s → P t → rank t ≤ rank s)
    (hdrop : ∀ s l t, M.Tr s l t → A l → P s → P t → rank t < rank s)
    (hfair : E.StronglyFair A) (n : ℕ)
    (hen : (∀ k, n ≤ k → P (E.state k)) →
      ∀ k, n ≤ k → ∃ m, k ≤ m ∧ M.Enabled A (E.state m)) : ∃ m, n ≤ m ∧ ¬ P (E.state m) := by
  by_contra hnever
  simp only [not_exists, not_and, not_not] at hnever
  obtain ⟨m, hm, hleft | hdisabled⟩ := E.leaves_or_disabled rank hkeep hdrop hfair n
  · exact hleft (hnever m hm)
  · obtain ⟨k, hk, henabled⟩ := hen hnever m hm
    exact hdisabled k hk henabled

/-- An execution that comes to rest where no step with a label in `A` can be taken is fair. -/
theorem fair_of_rest (hend : ∀ n, m ≤ n → E.state n = t) (h : ¬ M.Enabled A t) :
    E.StronglyFair A := by
  intro hoften
  obtain ⟨n, hn, hen⟩ := frequently_atTop.mp hoften m
  rw [hend n hn] at hen
  exact (h hen).elim

/-- The execution that stays in one state. -/
def rest (M : LTS State Label) (s : State) : Execution M where
  state _ := s
  label _ := none
  moves _ _ h := by cases h
  stays _ _ := rfl

/-- One step, and then an execution from where it leads. -/
def after (E : Execution M) (h : M.Tr s l (E.state 0)) : Execution M where
  state n := n.casesOn s E.state
  label n := n.casesOn (some l) E.label
  moves n k hk := by
    cases n with
    | zero =>
      obtain rfl : l = k := Option.some.inj hk
      exact h
    | succ n => exact E.moves n k hk
  stays n hn := by
    cases n with
    | zero => cases hn
    | succ n => exact E.stays n hn

/-- A finite run, and then an execution from where it leads. -/
theorem exists_prepend (E : Execution M) (h : M.Run s xs (E.state 0)) : ∃ F : Execution M,
    F.state 0 = s ∧ (∀ n, F.state (xs.length + n) = E.state n) ∧
      ∀ n, F.label n = xs[n]?.or (E.label (n - xs.length)) := by
  generalize ht : E.state 0 = t at h
  induction h with
  | refl => exact ⟨E, ht, fun n => by simp, fun n => by simp⟩
  | @step s u t l xs hstep _ ih =>
    obtain ⟨F, h0, hstate, hlabel⟩ := ih ht
    subst h0
    refine ⟨F.after hstep, rfl, fun n => ?_, fun n => ?_⟩
    · rw [List.length_cons, Nat.add_right_comm]
      exact hstate n
    · cases n with
      | zero => rfl
      | succ n =>
        rw [List.length_cons, Nat.add_sub_add_right]
        exact hlabel n

/-- A finite run, and then no more steps. -/
theorem exists_of_run (h : M.Run s xs t) : ∃ E : Execution M, E.state 0 = s ∧
    (∀ n, E.label n = xs[n]?) ∧ ∀ n, xs.length ≤ n → E.state n = t := by
  obtain ⟨F, h0, hstate, hlabel⟩ := (rest M t).exists_prepend h
  refine ⟨F, h0, fun n => by simpa [rest] using hlabel n, fun n hn => ?_⟩
  obtain ⟨k, rfl⟩ := Nat.exists_eq_add_of_le hn
  exact hstate k

end Execution
end Transition

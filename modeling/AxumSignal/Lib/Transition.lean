import Mathlib.Data.List.Basic

/-! Labelled transition systems: finite runs, invariants of states and of histories, and
restriction to admitted steps. Nothing here refers to a particular program. -/
namespace Transition

universe u v w

/-- A labelled transition relation. -/
structure LTS (State : Type u) (Label : Type v) where
  Tr : State → Label → State → Prop

variable {State : Type u} {Label : Type v} {M : LTS State Label}
  {s t w : State} {l : Label} {xs ys : List Label}

namespace LTS

/-- A finite run, with one label for each transition. -/
inductive Run (M : LTS State Label) : State → List Label → State → Prop where
  | refl {s : State} : Run M s [] s
  | step {s t w : State} {l : Label} {xs : List Label} :
      M.Tr s l t → Run M t xs w → Run M s (l :: xs) w

/-- The same system, taking only the steps that `allow` allows. -/
def restrict (M : LTS State Label) (allow : State → Label → State → Prop) :
    LTS State Label where
  Tr s l t := M.Tr s l t ∧ allow s l t

/-- States with a run from an initial state. -/
def Reachable (M : LTS State Label) (init : State → Prop) (s : State) : Prop :=
  ∃ s₀, init s₀ ∧ ∃ xs, M.Run s₀ xs s

/-- A predicate preserved by every transition. -/
def Preserves (M : LTS State Label) (I : State → Prop) : Prop :=
  ∀ s l t, M.Tr s l t → I s → I t

theorem Run.single (h : M.Tr s l t) : M.Run s [l] t := .step h .refl

theorem Run.append (h : M.Run s xs t) (k : M.Run t ys w) : M.Run s (xs ++ ys) w := by
  induction h with
  | refl => exact k
  | step hs _ ih => exact .step hs (ih k)

theorem Run.snoc (h : M.Run s xs t) (k : M.Tr t l w) : M.Run s (xs ++ [l]) w :=
  h.append (.single k)

theorem Run.invariant {I : State → Prop} (hI : M.Preserves I) (h : M.Run s xs t)
    (hs : I s) : I t := by
  induction h with
  | refl => exact hs
  | step hstep _ ih => exact ih (hI _ _ _ hstep hs)

/-- Induction from the left end of a run, carrying the labels already taken. -/
theorem Run.history {H : List Label → State → Prop} (h : M.Run s xs t) (h0 : H [] s)
    (hstep : ∀ ys u l w, M.Tr u l w → H ys u → H (ys ++ [l]) w) : H xs t := by
  suffices ∀ ys, H ys s → H (ys ++ xs) t by simpa using this [] h0
  clear h0
  induction h with
  | refl => intro ys hy; simpa using hy
  | @step s u w l xs hs _ ih =>
    intro ys hy
    simpa using ih (ys ++ [l]) (hstep ys s l u hs hy)

/-- A run over a concatenation passes through a state between the two parts. -/
theorem Run.split (h : M.Run s (xs ++ ys) w) : ∃ t, M.Run s xs t ∧ M.Run t ys w := by
  induction xs generalizing s with
  | nil => exact ⟨s, .refl, h⟩
  | cons x xs ih =>
    cases h with
    | step hs ht =>
      obtain ⟨t, ha, hb⟩ := ih ht
      exact ⟨t, .step hs ha, hb⟩

/-- What the history before each step implies of its label. -/
theorem Run.before {H : List Label → State → Prop} {P : List Label → Label → Prop}
    (h : M.Run s xs t) (h0 : H [] s)
    (hstep : ∀ ys u l w, M.Tr u l w → H ys u → P ys l ∧ H (ys ++ [l]) w) (ys : List Label)
    (l : Label) (zs : List Label) (hxs : xs = ys ++ l :: zs) : P ys l := by
  subst hxs
  obtain ⟨u, hpre, hpost⟩ := h.split
  have hu : H ys u := hpre.history h0 fun _ _ _ _ hs hH => (hstep _ _ _ _ hs hH).2
  cases hpost with
  | step hs _ => exact (hstep _ _ _ _ hs hu).1

theorem Reachable.invariant {init I : State → Prop} (hI : M.Preserves I)
    (hinit : ∀ s, init s → I s) (h : M.Reachable init s) : I s := by
  obtain ⟨s₀, h0, _, hr⟩ := h
  exact hr.invariant hI (hinit _ h0)

theorem Reachable.extend {init : State → Prop} (h : M.Reachable init s)
    (k : M.Run s xs t) : M.Reachable init t := by
  obtain ⟨s₀, h0, ys, hr⟩ := h
  exact ⟨s₀, h0, ys ++ xs, hr.append k⟩

theorem Run.of_restrict {allow : State → Label → State → Prop}
    (h : (M.restrict allow).Run s xs t) : M.Run s xs t := by
  induction h with
  | refl => exact .refl
  | step hs _ ih => exact .step hs.1 ih

theorem Run.mono {allow allow' : State → Label → State → Prop}
    (hle : ∀ s l t, allow s l t → allow' s l t) (h : (M.restrict allow).Run s xs t) :
    (M.restrict allow').Run s xs t := by
  induction h with
  | refl => exact .refl
  | step hs _ ih => exact .step ⟨hs.1, hle _ _ _ hs.2⟩ ih

/-- Labels that are allowed from every state make a run of the restricted system. -/
theorem Run.restrict {allow : State → Label → State → Prop} (h : M.Run s xs t)
    (hall : ∀ l ∈ xs, ∀ u v, allow u l v) : (M.restrict allow).Run s xs t := by
  induction h with
  | refl => exact .refl
  | step hs _ ih =>
    exact .step ⟨hs, hall _ List.mem_cons_self _ _⟩
      (ih fun l hl => hall l (List.mem_cons_of_mem _ hl))

/-- Some state that the run goes through satisfies `P`. -/
def Passes (M : LTS State Label) (s : State) (xs : List Label) (t : State) (P : State → Prop) :
    Prop :=
  ∃ ys u zs, xs = ys ++ zs ∧ M.Run s ys u ∧ M.Run u zs t ∧ P u

theorem Passes.here {P : State → Prop} (h : M.Run s xs t) (hp : P t) : M.Passes s xs t P :=
  ⟨xs, t, [], by simp, h, .refl, hp⟩

theorem Passes.snoc {P : State → Prop} (h : M.Passes s xs t P) (k : M.Tr t l w) :
    M.Passes s (xs ++ [l]) w P := by
  obtain ⟨ys, u, zs, rfl, hpre, hpost, hp⟩ := h
  exact ⟨ys, u, zs ++ [l], by simp, hpre, hpost.snoc k, hp⟩

/-- Two restrictions that agree on every step from a state of an invariant have the same
runs from such states. -/
theorem run_restrict_congr {allow allow' : State → Label → State → Prop} {I : State → Prop}
    (hagree : ∀ s l t, M.Tr s l t → I s → (allow s l t ↔ allow' s l t))
    (hI : (M.restrict allow).Preserves I) (hs : I s) :
    (M.restrict allow).Run s xs t ↔ (M.restrict allow').Run s xs t := by
  constructor
  · intro h
    induction h with
    | refl => exact .refl
    | step hstep _ ih =>
      exact .step ⟨hstep.1, (hagree _ _ _ hstep.1 hs).mp hstep.2⟩ (ih (hI _ _ _ hstep hs))
  · intro h
    induction h with
    | refl => exact .refl
    | step hstep _ ih =>
      have hstep' := And.intro hstep.1 ((hagree _ _ _ hstep.1 hs).mpr hstep.2)
      exact .step hstep' (ih (hI _ _ _ hstep' hs))

/-- The system beside an observer, who sees the labels only. -/
def watch {Seen : Type w} (M : LTS State Label) (see : Seen → Label → Seen) :
    LTS (State × Seen) Label where
  Tr x l y := M.Tr x.1 l y.1 ∧ y.2 = see x.2 l

theorem Run.watch {Seen : Type w} (see : Seen → Label → Seen) (o : Seen) (h : M.Run s xs t) :
    (M.watch see).Run (s, o) xs (t, xs.foldl see o) := by
  induction h generalizing o with
  | refl => exact .refl
  | step hs _ ih => exact .step ⟨hs, rfl⟩ (ih _)

/-- A run, with the number of its steps that satisfy `P`. -/
inductive Tally (M : LTS State Label) (P : State → Label → State → Prop) :
    State → List Label → State → Nat → Prop where
  | refl {s : State} : Tally M P s [] s 0
  | counts {s t w : State} {l : Label} {xs : List Label} {n : Nat} :
      M.Tr s l t → P s l t → Tally M P t xs w n → Tally M P s (l :: xs) w (n + 1)
  | skips {s t w : State} {l : Label} {xs : List Label} {n : Nat} :
      M.Tr s l t → ¬ P s l t → Tally M P t xs w n → Tally M P s (l :: xs) w n

theorem Run.tally (P : State → Label → State → Prop) (h : M.Run s xs t) :
    ∃ n, M.Tally P s xs t n := by
  induction h with
  | refl => exact ⟨0, .refl⟩
  | @step s t w l xs hs _ ih =>
    obtain ⟨n, hn⟩ := ih
    by_cases hp : P s l t
    · exact ⟨n + 1, .counts hs hp hn⟩
    · exact ⟨n, .skips hs hp hn⟩

theorem Tally.run {P : State → Label → State → Prop} {n : Nat} (h : M.Tally P s xs t n) :
    M.Run s xs t := by
  induction h with
  | refl => exact .refl
  | counts hs _ _ ih | skips hs _ _ ih => exact .step hs ih

/-- Induction from the left end of a run, carrying what has been counted so far. -/
theorem Tally.history {P : State → Label → State → Prop} {n : Nat}
    {H : Nat → List Label → State → Prop} (h : M.Tally P s xs t n) (h0 : H 0 [] s)
    (hcounts : ∀ m ys u l w, M.Tr u l w → P u l w → H m ys u → H (m + 1) (ys ++ [l]) w)
    (hskips : ∀ m ys u l w, M.Tr u l w → ¬ P u l w → H m ys u → H m (ys ++ [l]) w) :
    H n xs t := by
  suffices ∀ m ys, H m ys s → H (m + n) (ys ++ xs) t by simpa using this 0 [] h0
  clear h0
  induction h with
  | refl =>
    intro m ys hy
    simpa using hy
  | @counts s t w l xs n hs hp _ ih =>
    intro m ys hy
    have := ih (m + 1) (ys ++ [l]) (hcounts m ys s l t hs hp hy)
    rw [List.append_assoc] at this
    rwa [show m + (n + 1) = m + 1 + n by omega]
  | @skips s t w l xs n hs hp _ ih =>
    intro m ys hy
    have := ih m (ys ++ [l]) (hskips m ys s l t hs hp hy)
    rwa [List.append_assoc] at this

end LTS
end Transition

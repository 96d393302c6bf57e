import Mathlib.Data.List.DropRight

/-! Consecutive marks in a log that grows at its end. Nothing here refers to a particular
program. -/
namespace Streak

variable {m : Nat} {xs : List Bool}

/-- How many marks at the end of the log are set. -/
def trailing (xs : List Bool) : Nat := (xs.rtakeWhile id).length

/-- At some point of the log `m` consecutive marks were set. -/
def Reached (m : Nat) (xs : List Bool) : Prop := List.replicate m true <:+: xs

@[simp] theorem trailing_nil : trailing [] = 0 := by simp [trailing]

@[simp] theorem trailing_true : trailing (xs ++ [true]) = trailing xs + 1 := by
  simp [trailing, List.rtakeWhile_concat_pos]

@[simp] theorem trailing_false : trailing (xs ++ [false]) = 0 := by
  simp [trailing, List.rtakeWhile_concat_neg]

theorem trailing_le_count : trailing xs ≤ xs.count true := by
  induction xs using List.reverseRecOn with
  | nil => simp
  | append_singleton xs b ih =>
    cases b with
    | false => simp
    | true => simpa using ih

theorem suffix_iff : List.replicate m true <:+ xs ↔ m ≤ trailing xs := by
  induction xs using List.reverseRecOn generalizing m with
  | nil => simp
  | append_singleton xs b ih =>
    cases m with
    | zero => simp
    | succ m =>
      rw [List.replicate_succ']
      cases b with
      | false =>
        refine iff_of_false (fun h => ?_) (by simp)
        rcases List.suffix_concat_iff.mp h with hnil | ⟨t, heq, _⟩
        · simp at hnil
        · simpa using (List.append_inj' heq rfl).2
      | true =>
        rw [trailing_true, Nat.add_le_add_iff_right, ← ih, List.suffix_concat_iff]
        constructor
        · rintro (hnil | ⟨t, heq, ht⟩)
          · simp at hnil
          · rwa [(List.append_inj' heq rfl).1]
        · exact fun h => Or.inr ⟨_, rfl, h⟩

theorem not_reached_nil (hm : 0 < m) : ¬ Reached m [] := by
  simp only [Reached, List.infix_nil, List.replicate_eq_nil_iff]
  omega

theorem reached_true : Reached m (xs ++ [true]) ↔ Reached m xs ∨ m ≤ trailing xs + 1 := by
  rw [Reached, List.infix_concat_iff, suffix_iff, trailing_true, or_comm]
  rfl

theorem reached_false (hm : 0 < m) : Reached m (xs ++ [false]) ↔ Reached m xs := by
  have hno : ¬ m ≤ 0 := by omega
  rw [Reached, List.infix_concat_iff, suffix_iff, trailing_false]
  simp only [hno, false_or]
  rfl

end Streak

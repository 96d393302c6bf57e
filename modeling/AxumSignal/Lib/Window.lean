import Mathlib.Data.List.DropRight

/-! A window over a stream, which drops its oldest entry when it is full. Nothing here
refers to a particular program. -/
namespace Window

universe u

variable {α : Type u} {n : Nat} {x : α} {xs : List α}

/-- Append an entry, in place of the oldest one if the window holds exactly `n`. -/
def slide (n : Nat) (xs : List α) (x : α) : List α :=
  (if xs.length = n then xs.tail else xs) ++ [x]

theorem length_slide_full (h : xs.length = n) :
    (slide n xs x).length = xs.length - 1 + 1 := by
  simp [slide, h]

theorem length_slide_ne (h : xs.length ≠ n) : (slide n xs x).length = xs.length + 1 := by
  simp [slide, h]

/-- The test for equality keeps the bound, unless the capacity has been passed at `0`. -/
theorem length_slide_le_iff (h : xs.length ≤ max 1 n) :
    (slide n xs x).length ≤ max 1 n ↔ (n = 0 → xs = []) := by
  by_cases hfull : xs.length = n
  · rw [length_slide_full hfull]
    refine iff_of_true (by omega) fun hn => ?_
    exact List.length_eq_zero_iff.mp (hfull.trans hn)
  · rw [length_slide_ne hfull]
    constructor
    · intro hle hn
      exact List.length_eq_zero_iff.mp (by omega)
    · intro hempty
      by_cases hn : n = 0
      · rw [hempty hn]
        exact Nat.le_max_left 1 n
      · omega

/-- With room for at least one entry the window is the end of the stream. -/
theorem slide_rtake (hn : 0 < n) (xs : List α) (x : α) :
    slide n (xs.rtake n) x = (xs ++ [x]).rtake n := by
  obtain ⟨m, rfl⟩ : ∃ m, n = m + 1 := ⟨n - 1, by omega⟩
  rw [List.rtake_concat_succ, slide]
  congr 1
  split
  · rename_i hlen
    simp only [List.rtake, List.length_drop] at hlen ⊢
    rw [List.tail_drop]
    congr 1
    omega
  · rename_i hlen
    simp only [List.rtake, List.length_drop] at hlen ⊢
    congr 1
    omega

/-- Without room for an entry the window keeps the whole stream after the first one. -/
theorem foldl_slide_zero (h : xs ≠ []) (ys : List α) : ys.foldl (slide 0) xs = xs ++ ys := by
  induction ys generalizing xs with
  | nil => simp
  | cons y ys ih =>
    have hslide : slide 0 xs y = xs ++ [y] := by simp [slide, h]
    rw [List.foldl_cons, hslide, ih (by simp), List.append_assoc]
    rfl

end Window

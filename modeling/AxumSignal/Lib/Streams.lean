import Mathlib.Data.List.Basic

/-! Merging two streams into one, reading a stream through a receiver that skips items and
reports how many it skipped, and reading a stream up to a closing item. Nothing here refers
to a particular program. -/
namespace Streams

universe u v
variable {α : Type u} {β : Type v} {xs ys zs : List α} {rs ss : List (Except Nat α)}

/-- `zs` is an interleaving of `xs` and `ys`, read from the last element. -/
inductive Interleaves : List α → List α → List α → Prop where
  | nil : Interleaves [] [] []
  | left {xs ys zs : List α} (x : α) :
      Interleaves xs ys zs → Interleaves (xs ++ [x]) ys (zs ++ [x])
  | right {xs ys zs : List α} (y : α) :
      Interleaves xs ys zs → Interleaves xs (ys ++ [y]) (zs ++ [y])

/-- What a lossy receiver returned, `.error n` for a report of `n` lost items, against the
part of the stream that it has passed. -/
inductive Recounts : List (Except Nat α) → List α → Prop where
  | nil : Recounts [] []
  | item {rs : List (Except Nat α)} {xs : List α} (x : α) :
      Recounts rs xs → Recounts (rs ++ [.ok x]) (xs ++ [x])
  | lost {rs : List (Except Nat α)} {xs : List α} (gone : List α) :
      Recounts rs xs → Recounts (rs ++ [.error gone.length]) (xs ++ gone)

/-- The items among the results of a receiver. -/
def items (rs : List (Except Nat α)) : List α := rs.filterMap Except.toOption

/-- How many items the results report as lost. -/
def lostCount : List (Except Nat α) → Nat
  | [] => 0
  | .ok _ :: rs => lostCount rs
  | .error n :: rs => n + lostCount rs

@[simp] theorem items_ok (x : α) : items (rs ++ [.ok x]) = items rs ++ [x] := by
  simp [items, Except.toOption]

@[simp] theorem items_error (n : Nat) : items (rs ++ [.error n]) = items rs := by
  simp [items, Except.toOption]

theorem lostCount_append : lostCount (rs ++ ss) = lostCount rs + lostCount ss := by
  induction rs with
  | nil => simp [lostCount]
  | cons r rs ih =>
    cases r with
    | ok x => exact ih
    | error n => simp only [List.cons_append, lostCount, ih, Nat.add_assoc]

@[simp] theorem lostCount_ok (x : α) : lostCount (rs ++ [.ok x]) = lostCount rs := by
  simp [lostCount_append, lostCount]

@[simp] theorem lostCount_error (n : Nat) :
    lostCount (rs ++ [.error n]) = lostCount rs + n := by
  simp [lostCount_append, lostCount]

/-- The items come from the stream, each from a place of its own and in order. -/
theorem Interleaves.left_sublist (h : Interleaves xs ys zs) : xs.Sublist zs := by
  induction h with
  | nil => exact .slnil
  | left x _ ih => exact ih.append_right [x]
  | right y _ ih => exact ih.trans (List.sublist_append_left _ _)

theorem Recounts.sublist (h : Recounts rs xs) : (items rs).Sublist xs := by
  induction h with
  | nil => exact List.Sublist.refl _
  | item x _ ih => simpa using ih.append_right [x]
  | lost gone _ ih => simpa using ih.trans (List.sublist_append_left _ gone)

/-- Every item passed was either received or reported as lost. -/
theorem Recounts.length (h : Recounts rs xs) : xs.length = (items rs).length + lostCount rs := by
  induction h with
  | nil => rfl
  | item x _ ih =>
    simp only [items_ok, lostCount_ok, List.length_append, List.length_singleton]
    omega
  | lost gone _ ih =>
    simp only [items_error, lostCount_error, List.length_append]
    omega

/-- A receiver that reports nothing lost has received all that it passed. -/
theorem Recounts.complete (h : Recounts rs xs) (hok : ∀ r ∈ rs, ∃ x, r = .ok x) :
    items rs = xs := by
  induction h with
  | nil => rfl
  | item x _ ih => rw [items_ok, ih fun r hr => hok r (List.mem_append_left _ hr)]
  | lost gone _ ih =>
    obtain ⟨x, hx⟩ := hok (.error gone.length) (by simp)
    simp at hx

/-- A part of the results, from the first, belongs to a part of the stream. -/
theorem Recounts.of_prefix (h : Recounts rs xs) (hpre : ss <+: rs) :
    ∃ ys, ys <+: xs ∧ Recounts ss ys := by
  induction h with
  | nil =>
    rw [List.prefix_nil.mp hpre]
    exact ⟨[], List.prefix_rfl, .nil⟩
  | item x h ih =>
    rcases List.prefix_concat_iff.mp hpre with rfl | hpre
    · exact ⟨_, List.prefix_rfl, .item x h⟩
    · obtain ⟨ys, hys, hs⟩ := ih hpre
      exact ⟨ys, hys.trans (List.prefix_append ..), hs⟩
  | lost gone h ih =>
    rcases List.prefix_concat_iff.mp hpre with rfl | hpre
    · exact ⟨_, List.prefix_rfl, .lost gone h⟩
    · obtain ⟨ys, hys, hs⟩ := ih hpre
      exact ⟨ys, hys.trans (List.prefix_append ..), hs⟩

/-- What a reader that stops at the first item marked by `stop` makes of a stream. -/
def readUpTo (stop : α → Bool) (value : α → Option β) : List α → List β
  | [] => []
  | x :: xs => bif stop x then [] else (value x).toList ++ readUpTo stop value xs

variable {stop : α → Bool} {value : α → Option β} {x : α}

theorem readUpTo_stop (h : stop x = true) : readUpTo stop value (x :: xs) = [] := by
  simp [readUpTo, h]

theorem readUpTo_go (h : stop x = false) :
    readUpTo stop value (x :: xs) = (value x).toList ++ readUpTo stop value xs := by
  simp [readUpTo, h]

/-- Before a closing item the reader sees all of both parts. -/
theorem readUpTo_append (h : ∀ x ∈ xs, stop x = false) :
    readUpTo stop value (xs ++ ys) = readUpTo stop value xs ++ readUpTo stop value ys := by
  induction xs with
  | nil => rfl
  | cons x xs ih =>
    rw [List.cons_append, readUpTo_go (h x (by simp)), readUpTo_go (h x (by simp)),
      ih fun y hy => h y (by simp [hy]), List.append_assoc]

/-- Behind a closing item the reader sees nothing. -/
theorem readUpTo_closed (h : x ∈ xs) (hstop : stop x = true) :
    readUpTo stop value (xs ++ ys) = readUpTo stop value xs := by
  induction xs with
  | nil => simp at h
  | cons y xs ih =>
    rw [List.cons_append]
    cases hy : stop y with
    | true => rw [readUpTo_stop hy, readUpTo_stop hy]
    | false =>
      have hne : x ≠ y := by
        intro heq
        rw [heq, hy] at hstop
        simp at hstop
      rw [readUpTo_go hy, readUpTo_go hy, ih ((List.mem_cons.mp h).resolve_left hne)]

/-- A longer stream is read at least as far. -/
theorem readUpTo_prefix (xs ys : List α) :
    readUpTo stop value xs <+: readUpTo stop value (xs ++ ys) := by
  by_cases h : ∃ x ∈ xs, stop x = true
  · obtain ⟨x, hx, hstop⟩ := h
    exact ⟨[], by rw [List.append_nil, readUpTo_closed hx hstop]⟩
  · have hgo : ∀ x ∈ xs, stop x = false := fun x hx =>
      Bool.eq_false_iff.mpr fun hstop => h ⟨x, hx, hstop⟩
    rw [readUpTo_append hgo]
    exact List.prefix_append ..

/-- An item without a value that does not close the stream is read as if it were not there. -/
theorem readUpTo_skip (hstop : stop x = false) (hvalue : value x = none) (xs ys : List α) :
    readUpTo stop value (xs ++ x :: ys) = readUpTo stop value (xs ++ ys) := by
  induction xs with
  | nil => simp [readUpTo_go hstop, hvalue]
  | cons y xs ih => simp only [List.cons_append, readUpTo, ih]

end Streams

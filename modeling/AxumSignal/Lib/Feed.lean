import Mathlib.Data.List.Basic
import Mathlib.Logic.Function.Basic

/-! A log that grows at its end, and readers that follow it from where they subscribed. A
reader that is too far behind the end is moved forward, and told how many items it missed.
Nothing here refers to a particular program. -/
namespace Streams

universe u v

/-- `next i` is the place of the item that the reader `i` gets next. Only the last `keep`
items of the log are there to be read. -/
structure Feed (ι : Type u) (α : Type v) where
  keep : Nat
  log : List α
  next : ι → Option Nat
  within : ∀ i, ∀ n ∈ next i, n ≤ log.length

namespace Feed

variable {ι : Type u} {α : Type v} [DecidableEq ι] {f g : Feed ι α} {i j : ι} {x : α} {m : Nat}

/-- A log without items, and no reader. -/
def empty (keep : Nat) : Feed ι α where
  keep := keep
  log := []
  next _ := none
  within _ n hn := by simp at hn

def publish (f : Feed ι α) (x : α) : Feed ι α where
  keep := f.keep
  log := f.log ++ [x]
  next := f.next
  within i n hn := by
    have := f.within i n hn
    simp only [List.length_append, List.length_singleton]
    omega

/-- The reader `i` goes on at the place `n`. -/
def seek (f : Feed ι α) (i : ι) (n : Nat) (hn : n ≤ f.log.length) : Feed ι α where
  keep := f.keep
  log := f.log
  next := Function.update f.next i (some n)
  within j m hm := by
    by_cases hji : j = i
    · subst hji
      obtain rfl : n = m := by simpa using hm
      exact hn
    · exact f.within j m (by simpa [hji] using hm)

def subscribe (f : Feed ι α) (i : ι) : Feed ι α := f.seek i f.log.length (Nat.le_refl _)

/-- What the reader `i` gets now, if there is anything for it: the next item, or how many
items it has missed. -/
def recv (f : Feed ι α) (i : ι) : Option (Except Nat α × Feed ι α) :=
  match f.next i with
  | none => none
  | some n =>
    if n < f.log.length - f.keep then
      some (.error (f.log.length - f.keep - n), f.seek i (f.log.length - f.keep) (Nat.sub_le _ _))
    else if h : n < f.log.length then some (.ok f.log[n], f.seek i (n + 1) h)
    else none

/-- The items that the reader `i` has not passed. -/
def unread (f : Feed ι α) (i : ι) : List α := ((f.next i).map (f.log.drop ·)).getD []

omit [DecidableEq ι] in
theorem unread_of_next {n : Nat} (h : f.next i = some n) : f.unread i = f.log.drop n := by
  simp [unread, h]

@[simp] theorem unread_subscribe (f : Feed ι α) (i : ι) : (f.subscribe i).unread i = [] := by
  simp [unread, subscribe, seek]

omit [DecidableEq ι] in
theorem unread_publish {n : Nat} (h : f.next i = some n) (x : α) :
    (f.publish x).unread i = f.unread i ++ [x] := by
  have hn := f.within i n h
  rw [unread_of_next (f := f.publish x) h, unread_of_next h]
  exact List.drop_append_of_le_length hn

/-- What a reader gets moves this reader only, and leaves the log alone. -/
theorem recv_seek {r : Except Nat α} (h : f.recv i = some (r, g)) :
    ∃ n hn, g = f.seek i n hn := by
  unfold recv at h
  split at h
  · simp at h
  · split at h
    · simp only [Option.some.injEq, Prod.mk.injEq] at h
      exact ⟨_, _, h.2.symm⟩
    · split at h
      · simp only [Option.some.injEq, Prod.mk.injEq] at h
        exact ⟨_, _, h.2.symm⟩
      · simp at h

/-- An item that a reader gets is the first of those it has not passed. -/
theorem recv_ok (h : f.recv i = some (.ok x, g)) : f.unread i = x :: g.unread i := by
  unfold recv at h
  split at h
  · simp at h
  · next n hnext =>
    split at h
    · simp at h
    · split at h
      · next hlt =>
        simp only [Option.some.injEq, Prod.mk.injEq, Except.ok.injEq] at h
        obtain ⟨rfl, rfl⟩ := h
        rw [unread_of_next hnext, unread_of_next (n := n + 1) (by simp [seek])]
        exact List.drop_eq_getElem_cons hlt
      · simp at h

/-- A reader misses items only if it is more than `keep` behind; it goes on with the last
`keep` of those it has not passed. -/
theorem recv_error (h : f.recv i = some (.error m, g)) :
    0 < m ∧ (f.unread i).length = m + f.keep ∧ g.unread i = (f.unread i).drop m := by
  unfold recv at h
  split at h
  · simp at h
  · next n hnext =>
    split at h
    · next hlt =>
      simp only [Option.some.injEq, Prod.mk.injEq, Except.error.injEq] at h
      obtain ⟨rfl, rfl⟩ := h
      rw [unread_of_next hnext, unread_of_next (n := f.log.length - f.keep) (by simp [seek])]
      refine ⟨by omega, ?_, ?_⟩
      · rw [List.length_drop]
        omega
      · have hplace : n + (f.log.length - f.keep - n) = f.log.length - f.keep := by omega
        rw [List.drop_drop, hplace]
        rfl
    · split at h
      · simp at h
      · simp at h

end Feed

end Streams

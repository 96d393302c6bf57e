import Mathlib.Data.Finmap
import Mathlib.Data.Finset.Sort

/-! Finite maps from keys to finite sets, read as one direction of a stored relation,
and enumerations of finite sets in an unspecified order. -/

universe u v

/-- A finite map whose values are finite sets. -/
abbrev SetMap (K : Type u) (V : Type v) := Finmap fun _ : K => Finset V

namespace SetMap

variable {K : Type u} {V : Type v} [DecidableEq K] {m : SetMap K V} {k j : K} {v w : V}

/-- The set stored at a key, empty when the key is absent. -/
def values (m : SetMap K V) (k : K) : Finset V := (m.lookup k).getD ∅

theorem values_of_lookup {s : Finset V} (h : m.lookup k = some s) : m.values k = s := by
  simp [values, h]

theorem values_of_lookup_none (h : m.lookup k = none) : m.values k = ∅ := by
  simp [values, h]

@[simp] theorem values_empty (k : K) : values (∅ : SetMap K V) k = ∅ := by simp [values]

@[simp] theorem mem_values_erase :
    v ∈ values (m.erase k) j ↔ v ∈ m.values j ∧ j ≠ k := by
  by_cases h : j = k
  · subst h
    simp [values]
  · simp [values, Finmap.lookup_erase_ne h, h]

variable [DecidableEq V]

/-- Insert one value at a key, creating the key's set when it is absent. -/
def add (m : SetMap K V) (k : K) (v : V) : SetMap K V := m.insert k (insert v (m.values k))

/-- Remove one value at a key. The key keeps its set, even an empty one. -/
def discard (m : SetMap K V) (k : K) (v : V) : SetMap K V :=
  match m.lookup k with
  | none => m
  | some s => m.insert k (s.erase v)

/-- Remove one value at a key, and the key with it when its set becomes empty. -/
def prune (m : SetMap K V) (v : V) (k : K) : SetMap K V :=
  match m.lookup k with
  | none => m
  | some s => if s.erase v = ∅ then (m.discard k v).erase k else m.discard k v

@[simp] theorem mem_values_add : v ∈ (m.add k w).values j ↔ v ∈ m.values j ∨ (j = k ∧ v = w) := by
  by_cases h : j = k
  · subst h
    simp [add, values, or_comm]
  · simp [add, values, Finmap.lookup_insert_of_ne _ h, h]

@[simp] theorem mem_values_discard :
    v ∈ (m.discard k w).values j ↔ v ∈ m.values j ∧ ¬ (j = k ∧ v = w) := by
  unfold discard
  cases hl : m.lookup k with
  | none =>
    have : j = k → v ∉ m.values j := by rintro rfl; simp [values, hl]
    grind
  | some s =>
    by_cases h : j = k
    · subst h
      simp [values, hl, and_comm]
    · simp [values, Finmap.lookup_insert_of_ne _ h, h]

theorem lookup_discard_ne (h : j ≠ k) : (m.discard k w).lookup j = m.lookup j := by
  unfold discard
  cases m.lookup k with
  | none => rfl
  | some s => simp [Finmap.lookup_insert_of_ne _ h]

theorem lookup_discard_self : (m.discard k w).lookup k = (m.lookup k).map (·.erase w) := by
  unfold discard
  cases h : m.lookup k <;> simp [h]

theorem lookup_add_ne (h : j ≠ k) : (m.add k w).lookup j = m.lookup j := by
  simp [add, Finmap.lookup_insert_of_ne _ h]

theorem lookup_add_self : (m.add k w).lookup k = some (insert w (m.values k)) := by
  simp [add]

@[simp] theorem mem_values_prune :
    v ∈ (m.prune w k).values j ↔ v ∈ m.values j ∧ ¬ (j = k ∧ v = w) := by
  unfold prune
  cases hl : m.lookup k with
  | none =>
    have : j = k → v ∉ m.values j := by rintro rfl; simp [values, hl]
    grind
  | some s =>
    have hs : m.values k = s := values_of_lookup hl
    by_cases he : s.erase w = ∅
    · have hv : j = k → v ∈ m.values j → v = w := by
        rintro rfl hm
        by_contra hne
        have : v ∈ s.erase w := Finset.mem_erase.mpr ⟨hne, hs ▸ hm⟩
        simp [he] at this
      simp only [he, if_true, mem_values_erase, mem_values_discard]
      grind
    · simp [he]

theorem lookup_prune_ne (h : j ≠ k) : (m.prune w k).lookup j = m.lookup j := by
  unfold prune
  cases m.lookup k with
  | none => rfl
  | some s =>
    by_cases he : s.erase w = ∅
    · simp [he, Finmap.lookup_erase_ne h, lookup_discard_ne h]
    · simp [he, lookup_discard_ne h]

/-- A pruned key is present exactly when another value keeps it. -/
theorem lookup_prune_self : (m.prune w k).lookup k =
    (m.lookup k).bind fun s => if s.erase w = ∅ then none else some (s.erase w) := by
  unfold prune
  cases h : m.lookup k with
  | none => simp [h]
  | some s =>
    by_cases he : s.erase w = ∅
    · simp [he]
    · simp [he, lookup_discard_self, h]

/-- Prune one value at each of a list of keys. -/
def pruneAll (m : SetMap K V) (v : V) (ks : List K) : SetMap K V :=
  ks.foldl (fun m k => m.prune v k) m

@[simp] theorem mem_values_pruneAll {ks : List K} :
    v ∈ (m.pruneAll w ks).values j ↔ v ∈ m.values j ∧ ¬ (v = w ∧ j ∈ ks) := by
  unfold pruneAll
  induction ks generalizing m with
  | nil => simp
  | cons k ks ih =>
    simp only [List.foldl_cons, ih, mem_values_prune, List.mem_cons]
    grind

theorem lookup_pruneAll_of_notMem {ks : List K} (h : j ∉ ks) :
    (m.pruneAll w ks).lookup j = m.lookup j := by
  unfold pruneAll
  induction ks generalizing m with
  | nil => rfl
  | cons k ks ih =>
    simp only [List.mem_cons, not_or] at h
    rw [List.foldl_cons, ih h.2, lookup_prune_ne h.1]

theorem lookup_pruneAll_of_mem {ks : List K} (hnd : ks.Nodup) (h : j ∈ ks) :
    (m.pruneAll w ks).lookup j =
      (m.lookup j).bind fun s => if s.erase w = ∅ then none else some (s.erase w) := by
  induction ks generalizing m with
  | nil => simp at h
  | cons k ks ih =>
    obtain ⟨hk, hnd⟩ := List.nodup_cons.mp hnd
    change ((m.prune w k).pruneAll w ks).lookup j = _
    rcases List.mem_cons.mp h with rfl | h
    · rw [lookup_pruneAll_of_notMem hk, lookup_prune_self]
    · have hne : j ≠ k := fun he => hk (he ▸ h)
      rw [ih hnd h, lookup_prune_ne hne]

/-- Two maps store the same relation, one by its left and one by its right component. -/
def Converse (m : SetMap K V) (n : SetMap V K) : Prop := ∀ k v, v ∈ m.values k ↔ k ∈ n.values v

theorem Converse.add {n : SetMap V K} (h : Converse m n) (k : K) (v : V) :
    Converse (m.add k v) (n.add v k) := by
  intro j w
  simp [h j w, and_comm]

theorem Converse.discard {n : SetMap V K} (h : Converse m n) (k : K) (v : V) :
    Converse (m.discard k v) (n.discard v k) := by
  intro j w
  simp [h j w, and_comm]

/-- Pruning one value wherever its keys are listed, and dropping the list. -/
theorem Converse.pruneAll {n : SetMap V K} (h : Converse m n) (v : V) {ks : List K}
    (hks : ∀ k, k ∈ ks ↔ k ∈ n.values v) : Converse (m.pruneAll v ks) (n.erase v) := by
  intro j w
  rw [mem_values_pruneAll, mem_values_erase, ← h j w, hks]
  have := h j v
  grind

theorem converse_empty : Converse (∅ : SetMap K V) (∅ : SetMap V K) := by
  intro k v
  simp

end SetMap

/-- An order in which each finite set is enumerated, every element once. -/
structure IterOrder (K : Type u) where
  list : Finset K → List K
  coe_list : ∀ s, (list s : Multiset K) = s.val

namespace IterOrder

variable {K : Type u}

@[simp] theorem mem_list (o : IterOrder K) {s : Finset K} {k : K} : k ∈ o.list s ↔ k ∈ s := by
  rw [← Multiset.mem_coe, o.coe_list, Finset.mem_val]

theorem nodup_list (o : IterOrder K) (s : Finset K) : (o.list s).Nodup := by
  rw [← Multiset.coe_nodup, o.coe_list]
  exact s.nodup

@[simp] theorem list_singleton (o : IterOrder K) (k : K) : o.list {k} = [k] := by
  have h := o.coe_list {k}
  simpa using h

@[simp] theorem list_empty (o : IterOrder K) : o.list ∅ = [] := by
  have h := o.coe_list ∅
  simpa using h

/-- The enumeration in ascending order. -/
def ascending [LinearOrder K] : IterOrder K := ⟨fun s => s.sort, fun s => s.sort_eq _⟩

end IterOrder

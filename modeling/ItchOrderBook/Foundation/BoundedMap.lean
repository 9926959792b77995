import Mathlib.Data.Set.Card
import Mathlib.Data.Set.Finite.Basic

/-! # Finite maps of bounded size

A map of at most so many entries. A key that is there, or for which there is room, can be
put; an entry that is there can be changed or taken out.
-/

/-- A map of at most `capacity` entries. -/
@[ext] structure BoundedMap (capacity : ℕ) (κ ν : Type*) where
  entries : κ → Option ν
  size_le : {k | (entries k).isSome}.ncard ≤ capacity

namespace BoundedMap
variable {capacity : ℕ} {κ ν : Type*}

noncomputable def size (m : BoundedMap capacity κ ν) : ℕ := {k | (m.entries k).isSome}.ncard

def empty (capacity : ℕ) (κ ν : Type*) : BoundedMap capacity κ ν where
  entries _ := none
  size_le := by simp

/-- The key has an entry, or there is room for one. -/
def Takes (m : BoundedMap capacity κ ν) (k : κ) : Prop := (m.entries k).isSome ∨ m.size < capacity

variable [Finite κ] [DecidableEq κ]

theorem ncard_update_le (f : κ → Option ν) (k : κ) (x : Option ν) :
    {k' | (Function.update f k x k').isSome}.ncard ≤ {k' | (f k').isSome}.ncard + 1 := by
  have hsub : {k' | (Function.update f k x k').isSome} ⊆ insert k {k' | (f k').isSome} := by
    intro k' hk'
    by_cases heq : k' = k
    · exact Or.inl heq
    · exact Or.inr (by simpa [Function.update_of_ne heq] using hk')
  exact (Set.ncard_le_ncard hsub (Set.toFinite _)).trans (Set.ncard_insert_le _ _)

/-- An entry that is there already, or an empty one, makes no more. -/
theorem ncard_update_le_self (f : κ → Option ν) {k : κ} {x : Option ν}
    (h : x.isSome → (f k).isSome) :
    {k' | (Function.update f k x k').isSome}.ncard ≤ {k' | (f k').isSome}.ncard := by
  refine Set.ncard_le_ncard (fun k' hk' => ?_) (Set.toFinite _)
  by_cases heq : k' = k
  · subst heq
    exact h (by simpa using hk')
  · simpa [Function.update_of_ne heq] using hk'

/-- Changes the entry of a key, if it has one, or takes it out. -/
def alter (m : BoundedMap capacity κ ν) (k : κ) (f : ν → Option ν) : BoundedMap capacity κ ν where
  entries := Function.update m.entries k ((m.entries k).bind f)
  size_le := (ncard_update_le_self m.entries (by cases m.entries k <;> simp)).trans m.size_le

theorem Takes.size_le {m : BoundedMap capacity κ ν} {k : κ} (h : m.Takes k) (v : ν) :
    {k' | (Function.update m.entries k (some v) k').isSome}.ncard ≤ capacity := by
  rcases h with hlive | hroom
  · exact (ncard_update_le_self m.entries fun _ => hlive).trans m.size_le
  · exact (ncard_update_le m.entries k _).trans hroom

/-- Sets the entry of a key that the map takes. -/
def put (m : BoundedMap capacity κ ν) (k : κ) (v : ν) (h : m.Takes k) : BoundedMap capacity κ ν where
  entries := Function.update m.entries k (some v)
  size_le := h.size_le v

@[simp] theorem entries_put (m : BoundedMap capacity κ ν) (k : κ) (v : ν) (h : m.Takes k) :
    (m.put k v h).entries = Function.update m.entries k (some v) := rfl

theorem entries_alter {m : BoundedMap capacity κ ν} {k : κ} {v : ν} (h : m.entries k = some v)
    (f : ν → Option ν) : (m.alter k f).entries = Function.update m.entries k (f v) := by
  simp [alter, h]

theorem takes_alter {m : BoundedMap capacity κ ν} {k : κ} {v : ν} (h : m.entries k = some v)
    {f : ν → Option ν} (hf : f v = none) (k' : κ) : (m.alter k f).Takes k' := by
  have hlt : {k' | ((m.alter k f).entries k').isSome}.ncard < {k' | (m.entries k').isSome}.ncard := by
    rw [entries_alter h]
    refine Set.ncard_lt_ncard ⟨fun k' hk' => ?_, fun hsub => ?_⟩ (Set.toFinite _)
    · by_cases heq : k' = k
      · simp [heq, hf] at hk'
      · simpa [Function.update_of_ne heq] using hk'
    · have hgone := hsub (show k ∈ {k' | (m.entries k').isSome} by simp [h])
      simp [hf] at hgone
  exact Or.inr (hlt.trans_le m.size_le)

end BoundedMap

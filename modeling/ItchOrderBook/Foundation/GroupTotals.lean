import Mathlib.Algebra.BigOperators.Group.Finset.Basic
import Mathlib.Algebra.Order.BigOperators.Group.Finset
import Mathlib.Data.Set.Card

/-! # Totals over the entries of a finite map

Every entry of a map belongs to a group and carries an amount. The total of a group
follows the map through insertions, removals and changes of one entry, and nothing
else in it moves.
-/
namespace GroupTotals

variable {κ ν γ : Type*} [Fintype κ] [DecidableEq γ]

/-- How entries are grouped and what they add. -/
structure Grouping (ν γ : Type*) where
  group : ν → γ
  amount : ν → ℕ

variable (G : Grouping ν γ)

/-- What an entry, if there is one, adds to the group `g`. -/
def Grouping.share (g : γ) : Option ν → ℕ
  | none => 0
  | some v => if G.group v = g then G.amount v else 0

@[simp] theorem Grouping.share_none (g : γ) : G.share g none = 0 := rfl

theorem Grouping.share_self (v : ν) : G.share (G.group v) (some v) = G.amount v := if_pos rfl

theorem Grouping.share_of_ne {v : ν} {g : γ} (h : G.group v ≠ g) : G.share g (some v) = 0 := if_neg h

theorem Grouping.share_le (g : γ) (v : ν) : G.share g (some v) ≤ G.amount v := by
  simp only [share]
  split <;> omega

/-- Irreducible: the sum runs over every key there is. -/
@[irreducible] def Grouping.total (f : κ → Option ν) (g : γ) : ℕ := ∑ k, G.share g (f k)

@[simp] theorem Grouping.total_empty : G.total (fun _ : κ => none) = fun _ => 0 := by
  funext g
  simp [total]

/-- Groups and amounts read through a map of the entries. -/
def Grouping.comap {μ : Type*} (φ : μ → ν) : Grouping μ γ := ⟨G.group ∘ φ, G.amount ∘ φ⟩

theorem Grouping.share_map {μ : Type*} (φ : μ → ν) (g : γ) (o : Option μ) :
    G.share g (o.map φ) = (G.comap φ).share g o := by
  cases o <;> rfl

theorem Grouping.total_map {μ : Type*} (φ : μ → ν) (f : κ → Option μ) :
    G.total (fun k => (f k).map φ) = (G.comap φ).total f := by
  funext g
  unfold total
  exact Finset.sum_congr rfl fun k _ => G.share_map φ g (f k)

theorem Grouping.total_congr {G' : Grouping ν γ} {f : κ → Option ν}
    (h : ∀ k v, f k = some v → G.group v = G'.group v ∧ G.amount v = G'.amount v) :
    G.total f = G'.total f := by
  funext g
  unfold total
  refine Finset.sum_congr rfl fun k _ => ?_
  cases hk : f k with
  | none => rfl
  | some v =>
    obtain ⟨hgroup, hamount⟩ := h k v hk
    simp only [share, hgroup, hamount]

variable {G} {f : κ → Option ν}

theorem Grouping.total_eq_zero {g : γ} :
    G.total f g = 0 ↔ ∀ k v, f k = some v → G.group v = g → G.amount v = 0 := by
  rw [total, Finset.sum_eq_zero_iff]
  constructor
  · intro h k v hk hg
    have hshare := h k (Finset.mem_univ k)
    rw [hk] at hshare
    subst hg
    rwa [G.share_self] at hshare
  · intro h k _
    cases hk : f k with
    | none => rfl
    | some v =>
      by_cases hg : G.group v = g
      · subst hg
        rw [G.share_self]
        exact h k v hk rfl
      · exact G.share_of_ne hg

/-- With amounts bounded by `b`, a total is at most `b` for each entry. -/
theorem Grouping.total_le {b : ℕ} (h : ∀ k v, f k = some v → G.amount v ≤ b) (g : γ) :
    G.total f g ≤ {k | (f k).isSome}.ncard * b := by
  classical
  have hshare : ∀ k, G.share g (f k) ≤ if (f k).isSome then b else 0 := by
    intro k
    cases hk : f k with
    | none => simp
    | some v => simpa using (G.share_le g v).trans (h k v hk)
  have hcard : {k | (f k).isSome}.ncard = (Finset.univ.filter fun k => (f k).isSome = true).card := by
    rw [← Set.ncard_coe_finset]
    simp
  calc G.total f g = ∑ k, G.share g (f k) := by rw [total]
    _ ≤ ∑ k, if (f k).isSome then b else 0 := Finset.sum_le_sum fun k _ => hshare k
    _ = {k | (f k).isSome}.ncard * b := by
      rw [hcard, ← Finset.sum_filter, Finset.sum_const, Nat.nsmul_eq_mul]

variable [DecidableEq κ]

theorem Grouping.total_update (f : κ → Option ν) (k : κ) (o : Option ν) (g : γ) :
    G.total (Function.update f k o) g + G.share g (f k) = G.total f g + G.share g o := by
  have hrest : ∑ i ∈ Finset.univ.erase k, G.share g (Function.update f k o i) =
      ∑ i ∈ Finset.univ.erase k, G.share g (f i) := by
    refine Finset.sum_congr rfl fun i hi => ?_
    rw [Function.update_of_ne (Finset.ne_of_mem_erase hi)]
  have hnew := Finset.add_sum_erase Finset.univ
    (fun i => G.share g (Function.update f k o i)) (Finset.mem_univ k)
  have hold := Finset.add_sum_erase Finset.univ (fun i => G.share g (f i)) (Finset.mem_univ k)
  simp only [Function.update_self] at hnew
  simp only [total]
  omega

theorem Grouping.amount_le_total {k : κ} {v : ν} (h : f k = some v) :
    G.amount v ≤ G.total f (G.group v) := by
  have hupdate := G.total_update f k none (G.group v)
  rw [h, G.share_self, G.share_none] at hupdate
  omega

theorem Grouping.total_insert {k : κ} (h : f k = none) (v : ν) :
    G.total (Function.update f k (some v)) =
      Function.update (G.total f) (G.group v) (G.total f (G.group v) + G.amount v) := by
  funext g
  have hupdate := G.total_update f k (some v) g
  rw [h, G.share_none] at hupdate
  by_cases hg : g = G.group v
  · subst hg
    rw [Function.update_self, ← G.share_self v]
    exact hupdate
  · rw [Function.update_of_ne hg]
    rw [G.share_of_ne (Ne.symm hg)] at hupdate
    exact hupdate

theorem Grouping.total_remove {k : κ} {v : ν} (h : f k = some v) :
    G.total (Function.update f k none) =
      Function.update (G.total f) (G.group v) (G.total f (G.group v) - G.amount v) := by
  funext g
  have hupdate := G.total_update f k none g
  rw [h, G.share_none] at hupdate
  by_cases hg : g = G.group v
  · subst hg
    rw [G.share_self] at hupdate
    rw [Function.update_self]
    omega
  · rw [Function.update_of_ne hg]
    rw [G.share_of_ne (Ne.symm hg)] at hupdate
    exact hupdate

/-- An entry whose amount shrinks takes the difference out of its group. -/
theorem Grouping.total_shrink {k : κ} {v w : ν} (h : f k = some v) (hgroup : G.group w = G.group v)
    (hamount : G.amount w ≤ G.amount v) :
    G.total (Function.update f k (some w)) = Function.update (G.total f) (G.group v)
      (G.total f (G.group v) - (G.amount v - G.amount w)) := by
  have hle := G.amount_le_total h
  funext g
  have hupdate := G.total_update f k (some w) g
  rw [h] at hupdate
  by_cases hg : g = G.group v
  · subst hg
    rw [← hgroup, G.share_self w, hgroup, G.share_self v] at hupdate
    rw [Function.update_self]
    omega
  · rw [Function.update_of_ne hg]
    rw [G.share_of_ne (Ne.symm hg), G.share_of_ne (hgroup ▸ Ne.symm hg)] at hupdate
    exact hupdate

end GroupTotals

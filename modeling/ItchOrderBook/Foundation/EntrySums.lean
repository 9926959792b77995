import Mathlib.Algebra.BigOperators.Group.Finset.Basic
import Mathlib.Tactic.Abel

/-! # Sums over the entries of a finite map

In an additive group, so that a sum follows an update of the map even where amounts wrap:
it loses what the entry weighed and gains what the new one weighs.
-/
namespace EntrySums

variable {κ ν M : Type*} [Fintype κ] [AddCommGroup M]

/-- Irreducible: the sum runs over every key there is. -/
@[irreducible] def sum (weight : ν → M) (entries : κ → Option ν) : M :=
  ∑ k, (entries k).elim 0 weight

variable {weight : ν → M}

@[simp] theorem sum_empty : sum weight (fun _ : κ => none) = 0 := by simp [sum]

theorem sum_update [DecidableEq κ] (entries : κ → Option ν) (k : κ) (x : Option ν) :
    sum weight (Function.update entries k x) =
      sum weight entries - (entries k).elim 0 weight + x.elim 0 weight := by
  have hrest : ∑ i ∈ Finset.univ.erase k, (Function.update entries k x i).elim 0 weight =
      ∑ i ∈ Finset.univ.erase k, (entries i).elim 0 weight := by
    refine Finset.sum_congr rfl fun i hi => ?_
    simp [Function.update_of_ne (Finset.ne_of_mem_erase hi)]
  have hnew := Finset.add_sum_erase Finset.univ
    (fun i => (Function.update entries k x i).elim 0 weight) (Finset.mem_univ k)
  have hold := Finset.add_sum_erase Finset.univ (fun i => (entries i).elim 0 weight)
    (Finset.mem_univ k)
  simp only [Function.update_self, hrest] at hnew
  simp only [sum, ← hnew, ← hold]
  abel

end EntrySums

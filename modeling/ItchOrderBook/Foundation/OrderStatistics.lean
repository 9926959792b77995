import Mathlib.Data.List.Sort

/-! # Order statistics

The element of a given rank of a list, ordered by a key. It is fixed by counting and is
found by sorting. Two orders that put the same part of a list first and last agree on a
rank only in a run of equal elements.
-/
namespace OrderStatistics

variable {α β : Type*} [LinearOrder β]

/-- `v` stands at rank `k` of the list, counted from the smallest key. -/
structure HasRank (key : α → β) (xs : List α) (k : ℕ) (v : α) : Prop where
  mem : v ∈ xs
  below : xs.countP (fun x => decide (key x < key v)) ≤ k
  upto : k < xs.countP (fun x => decide (key x ≤ key v))

def sortBy (key : α → β) (xs : List α) : List α := xs.mergeSort fun x y => decide (key x ≤ key y)

section Sorting
variable (key : α → β) (xs : List α)

theorem sortBy_perm : (sortBy key xs).Perm xs := List.mergeSort_perm ..

@[simp] theorem length_sortBy : (sortBy key xs).length = xs.length := List.length_mergeSort _

theorem sortBy_pairwise : (sortBy key xs).Pairwise fun x y => key x ≤ key y := by
  have h : (sortBy key xs).Pairwise fun x y => decide (key x ≤ key y) = true :=
    List.pairwise_mergeSort
      (fun x y z hxy hyz => decide_eq_true ((of_decide_eq_true hxy).trans (of_decide_eq_true hyz)))
      (fun x y => by simpa using le_total (key x) (key y)) xs
  exact h.imp of_decide_eq_true

end Sorting

section Rank
variable {key : α → β} {xs ys : List α} {k : ℕ} {v : α}

theorem HasRank.perm (h : HasRank key xs k v) (hperm : xs.Perm ys) : HasRank key ys k v where
  mem := hperm.mem_iff.mp h.mem
  below := by
    rw [← hperm.countP_eq]
    exact h.below
  upto := by
    rw [← hperm.countP_eq]
    exact h.upto

/-- In a sorted list the position is the rank. -/
theorem hasRank_append_cons {front back : List α}
    (hsorted : (front ++ v :: back).Pairwise fun x y => key x ≤ key y) :
    HasRank key (front ++ v :: back) front.length v := by
  obtain ⟨-, hrest, hfront⟩ := List.pairwise_append.mp hsorted
  have hback := (List.pairwise_cons.mp hrest).1
  have hnone : (v :: back).countP (fun x => decide (key x < key v)) = 0 := by
    rw [List.countP_eq_zero]
    intro x hx
    rcases List.mem_cons.mp hx with rfl | hx
    · simp
    · simpa using hback x hx
  have hall : front.countP (fun x => decide (key x ≤ key v)) = front.length := by
    rw [List.countP_eq_length]
    exact fun x hx => decide_eq_true (hfront x hx v List.mem_cons_self)
  have hcount := List.countP_le_length (l := front) (p := fun x => decide (key x < key v))
  constructor
  · simp
  · rw [List.countP_append, hnone]
    exact hcount
  · rw [List.countP_append, hall, List.countP_cons_of_pos (by simp)]
    omega

theorem hasRank_sortBy (hk : k < (sortBy key xs).length) : HasRank key xs k (sortBy key xs)[k] := by
  have hsplit : (sortBy key xs).take k ++ (sortBy key xs)[k] :: (sortBy key xs).drop (k + 1) =
      sortBy key xs := by
    rw [← List.drop_eq_getElem_cons hk, List.take_append_drop]
  have hsorted := sortBy_pairwise key xs
  rw [← hsplit] at hsorted
  have hrank := hasRank_append_cons hsorted
  rw [hsplit, List.length_take_of_le hk.le] at hrank
  exact hrank.perm (sortBy_perm key xs)

theorem HasRank.unique (hkey : Function.Injective key) {v' : α} (h : HasRank key xs k v)
    (h' : HasRank key xs k v') : v = v' := by
  have hnot : ∀ {u u' : α}, HasRank key xs k u → HasRank key xs k u' → ¬ key u < key u' := by
    intro u u' hu hu' hlt
    have hmono := List.countP_mono_left (l := xs) (p := fun x => decide (key x ≤ key u))
      (q := fun x => decide (key x < key u')) fun x _ hx => by
        simpa using (of_decide_eq_true hx).trans_lt hlt
    have hbelow := hu'.below
    have hupto := hu.upto
    omega
  exact hkey (le_antisymm (not_lt.mp (hnot h' h)) (not_lt.mp (hnot h h')))

theorem hasRank_iff (hkey : Function.Injective key) (hk : k < (sortBy key xs).length) :
    HasRank key xs k v ↔ (sortBy key xs)[k] = v :=
  ⟨fun h => (hasRank_sortBy hk).unique hkey h, fun h => h ▸ hasRank_sortBy hk⟩

end Rank

section Split
variable {key : α → β} {xs : List α}

theorem sortBy_eq_of_perm (hkey : Function.Injective key) {ys : List α} (hperm : ys.Perm xs)
    (hsorted : ys.Pairwise fun x y => key x ≤ key y) : sortBy key xs = ys :=
  ((sortBy_perm key xs).trans hperm.symm).eq_of_pairwise
    (fun _ _ _ _ hxy hyx => hkey (le_antisymm hxy hyx)) (sortBy_pairwise key xs) hsorted

/-- A list whose elements with `p` come first is sorted in two parts. -/
theorem sortBy_filter_append (hkey : Function.Injective key) (p : α → Bool)
    (hp : ∀ x y, p x = true → p y = false → key x ≤ key y) :
    sortBy key xs = sortBy key (xs.filter p) ++ sortBy key (xs.filter fun x => !p x) := by
  apply sortBy_eq_of_perm hkey
  · exact ((sortBy_perm _ _).append (sortBy_perm _ _)).trans (List.filter_append_perm p xs)
  · rw [List.pairwise_append]
    refine ⟨sortBy_pairwise _ _, sortBy_pairwise _ _, fun x hx y hy => hp x y ?_ ?_⟩
    · exact (List.mem_filter.mp ((sortBy_perm _ _).mem_iff.mp hx)).2
    · simpa using (List.mem_filter.mp ((sortBy_perm _ _).mem_iff.mp hy)).2

/-- Two keys that order the elements of a list alike sort it alike. -/
theorem sortBy_congr (hkey : Function.Injective key) {γ : Type*} [LinearOrder γ] {key' : α → γ}
    (h : ∀ x ∈ xs, ∀ y ∈ xs, key' x ≤ key' y → key x ≤ key y) : sortBy key xs = sortBy key' xs := by
  apply sortBy_eq_of_perm hkey (sortBy_perm key' xs)
  refine (sortBy_pairwise key' xs).imp_of_mem fun hx hy hle => ?_
  exact h _ ((sortBy_perm key' xs).mem_iff.mp hx) _ ((sortBy_perm key' xs).mem_iff.mp hy) hle

omit [LinearOrder β] in
/-- Two parts with no element in common, in either order, agree at a position only where
it lies in the same part both times and both elements are equal. -/
theorem append_swap_getElem {ps qs : List α} (hdisjoint : ∀ x ∈ ps, x ∉ qs) {k : ℕ}
    (hk : k < ps.length + qs.length) : (ps ++ qs)[k]? = (qs ++ ps)[k]? ↔
      qs.length ≤ k ∧ k < ps.length ∧ ps[k]? = ps[k - qs.length]? ∨
      ps.length ≤ k ∧ k < qs.length ∧ qs[k - ps.length]? = qs[k]? := by
  by_cases hps : k < ps.length
  · by_cases hqs : k < qs.length
    · rw [List.getElem?_append_left hps, List.getElem?_append_left hqs]
      refine iff_of_false (fun h => ?_) (by omega)
      rw [List.getElem?_eq_getElem hps, List.getElem?_eq_getElem hqs] at h
      have hmem := List.getElem_mem hqs
      rw [← Option.some.inj h] at hmem
      exact hdisjoint _ (List.getElem_mem hps) hmem
    · rw [List.getElem?_append_left hps, List.getElem?_append_right (not_lt.mp hqs)]
      constructor
      · exact fun h => Or.inl ⟨not_lt.mp hqs, hps, h⟩
      · rintro (⟨-, -, h⟩ | ⟨h, -⟩)
        · exact h
        · omega
  · by_cases hqs : k < qs.length
    · rw [List.getElem?_append_right (not_lt.mp hps), List.getElem?_append_left hqs]
      constructor
      · exact fun h => Or.inr ⟨not_lt.mp hps, hqs, h⟩
      · rintro (⟨-, h, -⟩ | ⟨-, -, h⟩)
        · omega
        · exact h
    · rw [List.getElem?_append_right (not_lt.mp hps), List.getElem?_append_right (not_lt.mp hqs)]
      refine iff_of_false (fun h => ?_) (by omega)
      have hleft : k - ps.length < qs.length := by omega
      have hright : k - qs.length < ps.length := by omega
      rw [List.getElem?_eq_getElem hleft, List.getElem?_eq_getElem hright] at h
      have hmem := List.getElem_mem hleft
      rw [Option.some.inj h] at hmem
      exact hdisjoint _ (List.getElem_mem hright) hmem

end Split

end OrderStatistics

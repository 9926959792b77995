import Mathlib.Data.List.Basic
import Mathlib.Data.Set.Defs

/-! # Reordering independent steps

Steps that commute may be taken in any order that keeps the dependent ones in place.
Updates of a function commute when they read and write at disjoint sets of arguments.
-/
namespace Reordering

variable {α σ κ ν : Type*}

/-! ## Sequences -/

/-- The elements of `l₁` in another order; dependent elements keep their order. The
second component of a tagged element is its place in `l₁`. -/
def KeepsOrder (dependent : α → α → Prop) (l₁ l₂ : List α) : Prop :=
  ∃ tagged : List (α × ℕ), tagged.Perm l₁.zipIdx ∧ tagged.map Prod.fst = l₂ ∧
    tagged.Pairwise fun a b => dependent a.1 b.1 → a.2 < b.2

/-- A step that commutes with those before it may be taken first. -/
theorem foldl_bubble {f : σ → α → σ} {x : α} {earlier : List α}
    (hcomm : ∀ y ∈ earlier, ∀ s, f (f s y) x = f (f s x) y) (later : List α) (s : σ) :
    (earlier ++ x :: later).foldl f s = (earlier ++ later).foldl f (f s x) := by
  induction earlier generalizing s with
  | nil => rfl
  | cons y earlier ih =>
    have hhead := hcomm y List.mem_cons_self s
    have hrest := ih (fun z hz => hcomm z (List.mem_cons_of_mem _ hz)) (f s y)
    simpa [hhead] using hrest

theorem foldl_eq_of_tagged {dependent : α → α → Prop} {f : σ → α → σ}
    (hcomm : ∀ a b, ¬ dependent a b → ∀ s, f (f s a) b = f (f s b) a) {l₁ l₂ : List (α × ℕ)}
    (hperm : l₂.Perm l₁) (hsorted : l₁.Pairwise fun a b => a.2 < b.2)
    (hkept : l₂.Pairwise fun a b => dependent a.1 b.1 → a.2 < b.2) (s : σ) :
    (l₂.map Prod.fst).foldl f s = (l₁.map Prod.fst).foldl f s := by
  induction l₁ generalizing l₂ s with
  | nil => rw [hperm.eq_nil]
  | cons x l₁ ih =>
    obtain ⟨hfirst, hsorted⟩ := List.pairwise_cons.mp hsorted
    obtain ⟨earlier, later, rfl⟩ := List.append_of_mem (hperm.mem_iff.mpr List.mem_cons_self)
    have hrest : (earlier ++ later).Perm l₁ := (List.perm_middle.symm.trans hperm).cons_inv
    -- what has overtaken the first element comes after it in `l₁`
    have hovertakes : ∀ y ∈ earlier, ¬ dependent y.1 x.1 := by
      intro y hy hdependent
      have hlt := (List.pairwise_append.mp hkept).2.2 y hy x List.mem_cons_self hdependent
      have hlater := hfirst y (hrest.mem_iff.mp (List.mem_append_left _ hy))
      omega
    have hkept' : (earlier ++ later).Pairwise fun a b => dependent a.1 b.1 → a.2 < b.2 :=
      hkept.sublist ((List.sublist_cons_self x later).append_left earlier)
    have hbubble : ∀ y ∈ earlier.map Prod.fst, ∀ s, f (f s y) x.1 = f (f s x.1) y := by
      intro y hy
      obtain ⟨z, hz, rfl⟩ := List.mem_map.mp hy
      exact hcomm z.1 x.1 (hovertakes z hz)
    calc ((earlier ++ x :: later).map Prod.fst).foldl f s
        = (earlier.map Prod.fst ++ x.1 :: later.map Prod.fst).foldl f s := by simp
      _ = (earlier.map Prod.fst ++ later.map Prod.fst).foldl f (f s x.1) :=
          foldl_bubble hbubble _ s
      _ = ((earlier ++ later).map Prod.fst).foldl f (f s x.1) := by rw [List.map_append]
      _ = (l₁.map Prod.fst).foldl f (f s x.1) := ih hrest hsorted hkept' (f s x.1)
      _ = ((x :: l₁).map Prod.fst).foldl f s := rfl

/-- Both orders end in the same state. -/
theorem KeepsOrder.foldl_eq {dependent : α → α → Prop} {f : σ → α → σ}
    (hcomm : ∀ a b, ¬ dependent a b → ∀ s, f (f s a) b = f (f s b) a) {l₁ l₂ : List α}
    (h : KeepsOrder dependent l₁ l₂) (s : σ) : l₁.foldl f s = l₂.foldl f s := by
  obtain ⟨tagged, hperm, rfl, hkept⟩ := h
  have hsorted : l₁.zipIdx.Pairwise fun a b => a.2 < b.2 := by
    rw [← List.pairwise_map (f := Prod.snd) (R := fun a b => a < b), List.zipIdx_map_snd]
    exact List.pairwise_lt_range'
  have hfold := foldl_eq_of_tagged hcomm hperm hsorted hkept s
  rw [List.zipIdx_map_fst] at hfold
  exact hfold.symm

/-! ## Updates -/

/-- `f` reads and writes at `S` only. -/
structure Local (S : Set κ) (f : (κ → ν) → κ → ν) : Prop where
  frame : ∀ x k, k ∉ S → f x k = x k
  reads : ∀ x y, (∀ k ∈ S, x k = y k) → ∀ k ∈ S, f x k = f y k

theorem Local.comm {S T : Set κ} {f g : (κ → ν) → κ → ν} (hf : Local S f) (hg : Local T g)
    (hT : ∀ k ∈ S, k ∉ T) (x : κ → ν) : f (g x) = g (f x) := by
  have hS : ∀ k ∈ T, k ∉ S := fun k hk hk' => hT k hk' hk
  funext k
  by_cases hk : k ∈ S
  · rw [hg.frame (f x) k (hT k hk)]
    exact hf.reads (g x) x (fun k hk => hg.frame x k (hT k hk)) k hk
  · rw [hf.frame (g x) k hk]
    by_cases hk' : k ∈ T
    · exact hg.reads x (f x) (fun k hk => (hf.frame x k (hS k hk)).symm) k hk'
    · rw [hg.frame x k hk', hg.frame (f x) k hk', hf.frame x k hk]

end Reordering

import Mathlib.Data.List.Nodup
import Mathlib.Data.List.Range
import Mathlib.Logic.Function.Basic

/-! # Copying between two memories along a list of address pairs

A transfer copies, in order, the cell at the second address of each pair to the
first address. Block copies, rebased layouts and round trips are all statements
about lists of pairs.
-/
namespace Transfer

variable {ι κ β : Type*} [DecidableEq ι]

/-- Copies `src p.2` to `p.1` for each pair in order. -/
def transfer (ps : List (ι × κ)) (dst : ι → β) (src : κ → β) : ι → β :=
  ps.foldl (fun m p => Function.update m p.1 (src p.2)) dst

@[simp] theorem transfer_nil (dst : ι → β) (src : κ → β) : transfer [] dst src = dst := rfl

theorem transfer_append (ps qs : List (ι × κ)) (dst : ι → β) (src : κ → β) :
    transfer (ps ++ qs) dst src = transfer qs (transfer ps dst src) src := List.foldl_append

theorem transfer_of_not_mem {ps : List (ι × κ)} {i : ι} (h : i ∉ ps.map Prod.fst)
    (dst : ι → β) (src : κ → β) : transfer ps dst src i = dst i := by
  induction ps generalizing dst with
  | nil => rfl
  | cons p ps ih =>
    rw [List.map_cons, List.mem_cons, not_or] at h
    exact (ih h.2 _).trans (Function.update_of_ne h.1 _ _)

/-- The last pair decides its target. -/
theorem transfer_concat_self (ps : List (ι × κ)) (p : ι × κ) (dst : ι → β) (src : κ → β) :
    transfer (ps ++ [p]) dst src p.1 = src p.2 := by
  rw [transfer_append]
  exact Function.update_self ..

theorem transfer_of_mem {ps : List (ι × κ)} (hnodup : (ps.map Prod.fst).Nodup) {p : ι × κ}
    (hp : p ∈ ps) (dst : ι → β) (src : κ → β) : transfer ps dst src p.1 = src p.2 := by
  induction ps generalizing dst with
  | nil => cases hp
  | cons q ps ih =>
    rw [List.map_cons, List.nodup_cons] at hnodup
    rcases List.mem_cons.mp hp with rfl | hp
    · exact (transfer_of_not_mem hnodup.1 _ src).trans (Function.update_self ..)
    · exact ih hnodup.2 hp _

/-- With distinct targets only the set of pairs matters. -/
theorem transfer_congr_mem {ps qs : List (ι × κ)} (hps : (ps.map Prod.fst).Nodup)
    (hqs : (qs.map Prod.fst).Nodup) (h : ∀ p, p ∈ ps ↔ p ∈ qs) (dst : ι → β) (src : κ → β) :
    transfer ps dst src = transfer qs dst src := by
  funext i
  by_cases hi : i ∈ ps.map Prod.fst
  · obtain ⟨p, hp, rfl⟩ := List.mem_map.mp hi
    rw [transfer_of_mem hps hp, transfer_of_mem hqs ((h p).mp hp)]
  · have hi' : i ∉ qs.map Prod.fst := by
      intro hq
      obtain ⟨p, hp, rfl⟩ := List.mem_map.mp hq
      exact hi (List.mem_map.mpr ⟨p, (h p).mpr hp, rfl⟩)
    rw [transfer_of_not_mem hi, transfer_of_not_mem hi']

/-- Two transfers over one list of targets that read equal cells. -/
theorem transfer_map_congr {α κ' : Type*} {xs : List α} {f : α → ι × κ} {g : α → ι × κ'}
    {src : κ → β} {src' : κ' → β}
    (h : ∀ x ∈ xs, (f x).1 = (g x).1 ∧ src (f x).2 = src' (g x).2) (dst : ι → β) :
    transfer (xs.map f) dst src = transfer (xs.map g) dst src' := by
  induction xs generalizing dst with
  | nil => rfl
  | cons x xs ih =>
    obtain ⟨hfst, hsnd⟩ := h x List.mem_cons_self
    change transfer (xs.map f) (Function.update dst (f x).1 (src (f x).2)) src =
      transfer (xs.map g) (Function.update dst (g x).1 (src' (g x).2)) src'
    rw [hfst, hsnd]
    exact ih (fun y hy => h y (List.mem_cons_of_mem x hy)) _

theorem transfer_congr_src {ps : List (ι × κ)} {src src' : κ → β}
    (h : ∀ p ∈ ps, src p.2 = src' p.2) (dst : ι → β) :
    transfer ps dst src = transfer ps dst src' := by
  have hmap : transfer (ps.map id) dst src = transfer (ps.map id) dst src' :=
    transfer_map_congr (fun p hp => ⟨rfl, h p hp⟩) dst
  rwa [List.map_id] at hmap

theorem transfer_of_forall {ps : List (ι × κ)} {i : ι} (hi : i ∈ ps.map Prod.fst) {src : κ → β}
    {value : β} (h : ∀ p ∈ ps, p.1 = i → src p.2 = value) (dst : ι → β) :
    transfer ps dst src i = value := by
  induction ps generalizing dst with
  | nil => cases hi
  | cons p ps ih =>
    obtain ⟨hp, hps⟩ := List.forall_mem_cons.mp h
    by_cases hlater : i ∈ ps.map Prod.fst
    · exact ih hlater hps _
    · obtain rfl := (List.mem_cons.mp hi).resolve_right hlater
      exact (transfer_of_not_mem hlater _ src).trans ((Function.update_self ..).trans (hp rfl))

/-- A cell of the result depends on no other cell of the memory copied to. -/
theorem transfer_congr_dst {ps : List (ι × κ)} {dst dst' : ι → β} {i : ι} (h : dst i = dst' i)
    (src : κ → β) : transfer ps dst src i = transfer ps dst' src i := by
  induction ps generalizing dst dst' with
  | nil => exact h
  | cons p ps ih =>
    refine ih ?_
    by_cases hi : i = p.1
    · simp [hi]
    · simpa [hi] using h

/-- A target does not remember what it held. -/
theorem transfer_congr_of_mem {ps : List (ι × κ)} {i : ι} (hi : i ∈ ps.map Prod.fst)
    (dst dst' : ι → β) (src : κ → β) : transfer ps dst src i = transfer ps dst' src i := by
  induction ps generalizing dst dst' with
  | nil => cases hi
  | cons p ps ih =>
    by_cases hlater : i ∈ ps.map Prod.fst
    · exact ih hlater _ _
    · obtain rfl := (List.mem_cons.mp hi).resolve_right hlater
      have hlast : ∀ dst : ι → β, transfer (p :: ps) dst src p.1 = src p.2 := fun dst =>
        (transfer_of_not_mem hlater _ src).trans (Function.update_self ..)
      rw [hlast, hlast]

/-- Where the targets move, the copy moves. -/
theorem transfer_map_fst {ι' : Type*} [DecidableEq ι'] {f : ι → ι'} (hf : Function.Injective f)
    (ps : List (ι × κ)) (dst : ι' → β) (src : κ → β) (i : ι) :
    transfer (ps.map fun p => (f p.1, p.2)) dst src (f i) =
      transfer ps (fun j => dst (f j)) src i := by
  induction ps generalizing dst with
  | nil => rfl
  | cons p ps ih =>
    refine (ih (Function.update dst (f p.1) (src p.2))).trans (transfer_congr_dst ?_ src)
    simp [Function.update_apply, hf.eq_iff]

/-- One value in each of the cells. -/
def fill (is : List ι) (value : β) (dst : ι → β) : ι → β := fun i => if i ∈ is then value else dst i

theorem fill_of_mem {is : List ι} {i : ι} (h : i ∈ is) (value : β) (dst : ι → β) :
    fill is value dst i = value := if_pos h

theorem fill_of_not_mem {is : List ι} {i : ι} (h : i ∉ is) (value : β) (dst : ι → β) :
    fill is value dst i = dst i := if_neg h

theorem fill_congr {is js : List ι} (h : ∀ i, i ∈ is ↔ i ∈ js) (value : β) :
    fill is value = fill js value := by
  funext dst i
  simp only [fill, h]

@[simp] theorem fill_nil (value : β) (dst : ι → β) : fill [] value dst = dst := by
  funext i
  simp [fill]

theorem fill_append (is js : List ι) (value : β) (dst : ι → β) :
    fill (is ++ js) value dst = fill js value (fill is value dst) := by
  funext i
  by_cases hj : i ∈ js <;> simp [fill, hj]

/-- Cells that are no targets can be filled before the copy as well as after it. -/
theorem fill_transfer {is : List ι} {ps : List (ι × κ)} (h : is.Disjoint (ps.map Prod.fst))
    (value : β) (dst : ι → β) (src : κ → β) :
    fill is value (transfer ps dst src) = transfer ps (fill is value dst) src := by
  funext i
  by_cases hi : i ∈ is
  · rw [fill_of_mem hi, transfer_of_not_mem (h hi), fill_of_mem hi]
  · rw [fill_of_not_mem hi]
    exact transfer_congr_dst (fill_of_not_mem hi value dst).symm src

/-- Filling targets before the copy leaves no trace. -/
theorem transfer_fill {is : List ι} {ps : List (ι × κ)} (h : is ⊆ ps.map Prod.fst) (value : β)
    (dst : ι → β) (src : κ → β) : transfer ps (fill is value dst) src = transfer ps dst src := by
  funext i
  by_cases hi : i ∈ is
  · exact transfer_congr_of_mem (h hi) _ _ src
  · exact transfer_congr_dst (fill_of_not_mem hi value dst) src

/-- Copying out and back along the same pairs restores the targets and touches
nothing else. -/
theorem transfer_back [DecidableEq κ] {ps : List (ι × κ)} (hfst : (ps.map Prod.fst).Nodup)
    (hsnd : (ps.map Prod.snd).Nodup) (dst src : ι → β) (wire : κ → β) (i : ι) :
    transfer ps dst (transfer (ps.map Prod.swap) wire src) i =
      if i ∈ ps.map Prod.fst then src i else dst i := by
  have hswap : ((ps.map Prod.swap).map Prod.fst).Nodup := by
    rwa [List.map_map, show Prod.fst ∘ Prod.swap = (Prod.snd : ι × κ → κ) from rfl]
  split
  · rename_i hi
    obtain ⟨p, hp, rfl⟩ := List.mem_map.mp hi
    rw [transfer_of_mem hfst hp]
    exact transfer_of_mem hswap (List.mem_map.mpr ⟨p, hp, rfl⟩) wire src
  · rename_i hi
    exact transfer_of_not_mem hi dst _

/-- Copying back what was copied out of a memory leaves that memory unchanged. -/
theorem transfer_self {ps : List (ι × κ)} (dst : ι → β) (src : κ → β)
    (h : ∀ p ∈ ps, src p.2 = dst p.1) : transfer ps dst src = dst := by
  induction ps with
  | nil => rfl
  | cons p ps ih =>
    have hp : Function.update dst p.1 (src p.2) = dst := by
      rw [h p List.mem_cons_self, Function.update_eq_self]
    change transfer ps (Function.update dst p.1 (src p.2)) src = dst
    rw [hp]
    exact ih fun q hq => h q (List.mem_cons_of_mem p hq)

/-- The address pairs of a block copy of `count` cells. -/
def block (d s count : ℕ) : List (ℕ × ℕ) := (List.range count).map fun i => (d + i, s + i)

/-- Moves every pair by the given distances. -/
def shift (d s : ℕ) (ps : List (ℕ × ℕ)) : List (ℕ × ℕ) := ps.map fun p => (d + p.1, s + p.2)

@[simp] theorem shift_nil (d s : ℕ) : shift d s [] = [] := rfl

@[simp] theorem shift_append (d s : ℕ) (ps qs : List (ℕ × ℕ)) :
    shift d s (ps ++ qs) = shift d s ps ++ shift d s qs := List.map_append

@[simp] theorem shift_zero (ps : List (ℕ × ℕ)) : shift 0 0 ps = ps := by simp [shift]

theorem shift_shift (d s d' s' : ℕ) (ps : List (ℕ × ℕ)) :
    shift d s (shift d' s' ps) = shift (d + d') (s + s') ps := by
  simp [shift, Nat.add_assoc]

theorem map_fst_shift (d s : ℕ) (ps : List (ℕ × ℕ)) :
    (shift d s ps).map Prod.fst = (ps.map Prod.fst).map (d + ·) := by
  simp [shift]

theorem shift_block (d s d' s' count : ℕ) :
    shift d s (block d' s' count) = block (d + d') (s + s') count := by
  simp [shift, block, Nat.add_assoc]

theorem shift_flatMap {α : Type*} (d s : ℕ) (xs : List α) (f : α → List (ℕ × ℕ)) :
    shift d s (xs.flatMap f) = xs.flatMap fun x => shift d s (f x) := List.map_flatMap

theorem block_add (d s m n : ℕ) :
    block d s (m + n) = block d s m ++ block (d + m) (s + m) n := by
  simp [block, List.range_add, Nat.add_assoc]

theorem swap_block (d s count : ℕ) : (block d s count).map Prod.swap = block s d count := by
  simp [block]

theorem mem_block {d s count : ℕ} {p : ℕ × ℕ} :
    p ∈ block d s count ↔ ∃ i < count, p = (d + i, s + i) := by
  simp [block, eq_comm]

theorem mem_shift {d s : ℕ} {ps : List (ℕ × ℕ)} {p : ℕ × ℕ} :
    p ∈ shift d s ps ↔ ∃ q ∈ ps, p = (d + q.1, s + q.2) := by
  simp [shift, eq_comm]

/-! ## Pairs in the order of their second addresses -/

/-- The second addresses increase, from `lo` on and below `hi`. -/
structure Ascending (lo hi : ℕ) (ps : List (ℕ × ℕ)) : Prop where
  pairwise : (ps.map Prod.snd).Pairwise (· < ·)
  bounds : ∀ p ∈ ps, lo ≤ p.2 ∧ p.2 < hi

namespace Ascending
variable {lo mid hi n d s : ℕ} {ps qs : List (ℕ × ℕ)}

theorem nodup (h : Ascending lo hi ps) : (ps.map Prod.snd).Nodup :=
  h.pairwise.imp Nat.ne_of_lt

theorem nil : Ascending lo hi [] := ⟨List.Pairwise.nil, fun _ hp => by cases hp⟩

theorem mono (h : Ascending mid hi ps) (hlo : lo ≤ mid) : Ascending lo hi ps :=
  ⟨h.pairwise, fun p hp => ⟨hlo.trans (h.bounds p hp).1, (h.bounds p hp).2⟩⟩

theorem append (hps : Ascending lo mid ps) (hqs : Ascending mid hi qs) (hlo : lo ≤ mid)
    (hhi : mid ≤ hi) : Ascending lo hi (ps ++ qs) where
  pairwise := by
    rw [List.map_append, List.pairwise_append]
    refine ⟨hps.pairwise, hqs.pairwise, ?_⟩
    intro i hi j hj
    obtain ⟨p, hp, rfl⟩ := List.mem_map.mp hi
    obtain ⟨q, hq, rfl⟩ := List.mem_map.mp hj
    exact (hps.bounds p hp).2.trans_le (hqs.bounds q hq).1
  bounds p hp := by
    rcases List.mem_append.mp hp with hp | hp
    · exact ⟨(hps.bounds p hp).1, (hps.bounds p hp).2.trans_le hhi⟩
    · exact ⟨hlo.trans (hqs.bounds p hp).1, (hqs.bounds p hp).2⟩

theorem shift (h : Ascending 0 n ps) : Ascending s (s + n) (shift d s ps) where
  pairwise := by
    have hmap : (Transfer.shift d s ps).map Prod.snd = (ps.map Prod.snd).map (s + ·) := by
      simp [Transfer.shift]
    rw [hmap, List.pairwise_map]
    exact h.pairwise.imp (Nat.add_lt_add_left · s)
  bounds p hp := by
    obtain ⟨q, hq, rfl⟩ := mem_shift.mp hp
    exact ⟨Nat.le_add_right s q.2, Nat.add_lt_add_left (h.bounds q hq).2 s⟩

theorem flatMap (h : Ascending 0 n ps) (d count : ℕ) :
    Ascending 0 (count * n)
      ((List.range count).flatMap fun i => Transfer.shift (d * i) (n * i) ps) := by
  induction count with
  | zero => exact nil
  | succ count ih =>
    rw [List.range_succ, List.flatMap_append, List.flatMap_singleton, Nat.succ_mul,
      Nat.mul_comm n count]
    exact ih.append h.shift (Nat.zero_le _) (Nat.le_add_right _ _)

theorem block : Ascending 0 n (block d 0 n) where
  pairwise := by
    simpa [Transfer.block, Function.comp_def] using List.pairwise_lt_range
  bounds p hp := by
    obtain ⟨i, hi, rfl⟩ := mem_block.mp hp
    exact ⟨Nat.zero_le _, by simpa using hi⟩

end Ascending

end Transfer

import Mathlib.Data.Fintype.Card
import Mathlib.Data.Set.Card

/-! # Open addressing over an arbitrary probe path

A table assigns a cell to every position; each key scans the positions of its own
path. Nothing here fixes the path, the position type or how a table is searched:
only the two facts every lookup rests on, that a key is stored once and that no
position before it on its path is empty.
-/
namespace OpenAddressing

inductive Cell (κ ν : Type*)
  | empty
  | live (key : κ) (value : ν)
  | dead

abbrev Table (ι κ ν : Type*) := ι → Cell κ ν

variable {ι κ ν : Type*}

/-- `s` lies on the path of `k` and no earlier position of the path is empty. -/
def Chain (path : κ → ℕ → ι) (T : Table ι κ ν) (k : κ) (s : ι) : Prop :=
  ∃ j, path k j = s ∧ ∀ i < j, T (path k i) ≠ .empty

/-- Every live key is stored once and reachable along its own path. -/
structure WellProbed (path : κ → ℕ → ι) (T : Table ι κ ν) : Prop where
  chained : ∀ {s k v}, T s = .live k v → Chain path T k s
  unique : ∀ {s t k v w}, T s = .live k v → T t = .live k w → s = t

theorem wellProbed_empty (path : κ → ℕ → ι) : WellProbed path (fun _ => (.empty : Cell κ ν)) where
  chained h := by simp at h
  unique h := by simp at h

/-- The table stores `v` under `k`. -/
def Maps (T : Table ι κ ν) (k : κ) (v : ν) : Prop := ∃ s, T s = .live k v

theorem WellProbed.maps_inj {path : κ → ℕ → ι} {T : Table ι κ ν} (h : WellProbed path T)
    {k : κ} {v w : ν} (hv : Maps T k v) (hw : Maps T k w) : v = w := by
  obtain ⟨s, hs⟩ := hv
  obtain ⟨t, ht⟩ := hw
  obtain rfl := h.unique hs ht
  rw [hs] at ht
  exact (Cell.live.inj ht).2

open Classical in
/-- The finite map a table denotes. -/
noncomputable def content (T : Table ι κ ν) (k : κ) : Option ν :=
  if h : ∃ v, Maps T k v then some h.choose else none

theorem content_eq_none {T : Table ι κ ν} {k : κ} : content T k = none ↔ ∀ v, ¬ Maps T k v := by
  unfold content
  split
  · rename_i h
    simpa using h
  · rename_i h
    simpa using h

theorem maps_of_content {T : Table ι κ ν} {k : κ} {v : ν} (h : content T k = some v) :
    Maps T k v := by
  unfold content at h
  split at h
  · rename_i he
    exact Option.some.inj h ▸ he.choose_spec
  · cases h

theorem WellProbed.content_eq_some {path : κ → ℕ → ι} {T : Table ι κ ν} (h : WellProbed path T)
    {k : κ} {v : ν} : content T k = some v ↔ Maps T k v := by
  refine ⟨maps_of_content, fun hv => ?_⟩
  cases hc : content T k with
  | none => exact absurd hv (content_eq_none.mp hc v)
  | some w => rw [h.maps_inj hv (maps_of_content hc)]

@[simp] theorem content_empty (k : κ) : content (fun _ : ι => (.empty : Cell κ ν)) k = none := by
  rw [content_eq_none]
  rintro v ⟨s, hs⟩
  cases hs

section Update
variable [DecidableEq ι] {path : κ → ℕ → ι} {T : Table ι κ ν}

theorem Chain.update {k : κ} {s : ι} (h : Chain path T k s) (t : ι) {c : Cell κ ν}
    (hc : c ≠ .empty) : Chain path (Function.update T t c) k s := by
  obtain ⟨j, hj, hbefore⟩ := h
  refine ⟨j, hj, fun i hi => ?_⟩
  by_cases ht : path k i = t
  · simpa [ht] using hc
  · simpa [Function.update_of_ne ht] using hbefore i hi

/-- Storing a key at a position of its own chain keeps the table well probed,
provided the key is live nowhere else. -/
theorem WellProbed.put (h : WellProbed path T) {k : κ} {s : ι} (hs : Chain path T k s)
    (hfresh : ∀ t v, T t = .live k v → t = s) (v : ν) :
    WellProbed path (Function.update T s (.live k v)) where
  chained {t k' v'} ht := by
    by_cases hts : t = s
    · subst t
      rw [Function.update_self] at ht
      obtain ⟨rfl, rfl⟩ := Cell.live.inj ht
      exact hs.update s (by simp)
    · rw [Function.update_of_ne hts] at ht
      exact (h.chained ht).update s (by simp)
  unique {t u k' v' w'} ht hu := by
    by_cases hts : t = s <;> by_cases hus : u = s
    · rw [hts, hus]
    · subst t
      rw [Function.update_self] at ht
      rw [Function.update_of_ne hus] at hu
      obtain ⟨rfl, -⟩ := Cell.live.inj ht
      exact (hfresh u w' hu).symm
    · subst u
      rw [Function.update_self] at hu
      rw [Function.update_of_ne hts] at ht
      obtain ⟨rfl, -⟩ := Cell.live.inj hu
      exact hfresh t v' ht
    · rw [Function.update_of_ne hts] at ht
      rw [Function.update_of_ne hus] at hu
      exact h.unique ht hu

/-- Killing a cell leaves a tombstone, so chains through it survive. -/
theorem WellProbed.bury (h : WellProbed path T) (s : ι) :
    WellProbed path (Function.update T s .dead) where
  chained {t k v} ht := by
    by_cases hts : t = s
    · simp [hts] at ht
    · rw [Function.update_of_ne hts] at ht
      exact (h.chained ht).update s (by simp)
  unique {t u k v w} ht hu := by
    by_cases hts : t = s
    · simp [hts] at ht
    by_cases hus : u = s
    · simp [hus] at hu
    rw [Function.update_of_ne hts] at ht
    rw [Function.update_of_ne hus] at hu
    exact h.unique ht hu

theorem content_put [DecidableEq κ] (h : WellProbed path T) {k : κ} {s : ι}
    (hs : Chain path T k s) (hfresh : ∀ t v, T t = .live k v → t = s)
    (hfree : ∀ k' v', T s = .live k' v' → k' = k) (v : ν) :
    content (Function.update T s (.live k v)) = Function.update (content T) k (some v) := by
  have hput := h.put hs hfresh v
  funext k'
  by_cases hk : k' = k
  · subst k'
    rw [Function.update_self, hput.content_eq_some]
    exact ⟨s, Function.update_self ..⟩
  · rw [Function.update_of_ne hk]
    apply Option.ext
    intro w
    rw [hput.content_eq_some, h.content_eq_some]
    constructor
    · rintro ⟨t, ht⟩
      by_cases hts : t = s
      · subst t
        rw [Function.update_self] at ht
        exact absurd (Cell.live.inj ht).1.symm hk
      · rw [Function.update_of_ne hts] at ht
        exact ⟨t, ht⟩
    · rintro ⟨t, ht⟩
      have hts : t ≠ s := by
        rintro rfl
        exact hk (hfree k' w ht)
      exact ⟨t, by rwa [Function.update_of_ne hts]⟩

theorem content_bury [DecidableEq κ] (h : WellProbed path T) {k : κ} {s : ι} {v : ν}
    (hs : T s = .live k v) :
    content (Function.update T s .dead) = Function.update (content T) k none := by
  have hbury := h.bury s
  funext k'
  by_cases hk : k' = k
  · subst k'
    rw [Function.update_self, content_eq_none]
    rintro w ⟨t, ht⟩
    by_cases hts : t = s
    · simp [hts] at ht
    · rw [Function.update_of_ne hts] at ht
      exact hts (h.unique ht hs)
  · rw [Function.update_of_ne hk]
    apply Option.ext
    intro w
    rw [hbury.content_eq_some, h.content_eq_some]
    constructor
    · rintro ⟨t, ht⟩
      by_cases hts : t = s
      · simp [hts] at ht
      · rw [Function.update_of_ne hts] at ht
        exact ⟨t, ht⟩
    · rintro ⟨t, ht⟩
      have hts : t ≠ s := by
        rintro rfl
        rw [hs] at ht
        exact hk (Cell.live.inj ht).1.symm
      exact ⟨t, by rwa [Function.update_of_ne hts]⟩

end Update

/-- A table without a free position holds as many keys as it has positions. -/
theorem WellProbed.ncard_keys_of_full [Fintype ι] {path : κ → ℕ → ι} {T : Table ι κ ν}
    (h : WellProbed path T) (hfull : ∀ s, ∃ k v, T s = .live k v) :
    {k | (content T k).isSome}.ncard = Fintype.card ι := by
  choose key value hlive using hfull
  have hinj : Function.Injective key := by
    intro s t hst
    exact h.unique (hlive s) (hst ▸ hlive t)
  have hrange : {k | (content T k).isSome} = Set.range key := by
    ext k
    constructor
    · intro hk
      obtain ⟨v, hv⟩ := Option.isSome_iff_exists.mp hk
      obtain ⟨s, hs⟩ := maps_of_content hv
      rw [hlive s] at hs
      exact ⟨s, (Cell.live.inj hs).1⟩
    · rintro ⟨s, rfl⟩
      exact Option.isSome_iff_exists.mpr ⟨value s, h.content_eq_some.mpr ⟨s, hlive s⟩⟩
  rw [hrange, ← Set.image_univ, Set.ncard_image_of_injective _ hinj, Set.ncard_univ,
    Nat.card_eq_fintype_card]

end OpenAddressing

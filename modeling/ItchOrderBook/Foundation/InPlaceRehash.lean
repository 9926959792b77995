import ItchOrderBook.Foundation.OpenAddressing

/-! # Rehashing a table in place

Position after position, a live cell is taken out and put back at the first empty
position of its key's path. The pass keeps every key; whether it keeps the keys
reachable depends on the positions it empties, because a cell put back early may
rely on a later position that is then vacated.
-/
namespace OpenAddressing

variable {κ ν : Type*} {n : ℕ}

/-- What the pass does to the cell at position `i`. -/
inductive Replaced (path : κ → ℕ → Fin n) (T : Table (Fin n) κ ν) (i : Fin n) :
    Table (Fin n) κ ν → Prop
  | skip (h : ∀ k v, T i ≠ .live k v) : Replaced path T i T
  | move {k : κ} {v : ν} (j : ℕ) (hlive : T i = .live k v)
      (hbefore : ∀ a < j, Function.update T i .empty (path k a) ≠ .empty)
      (hfree : Function.update T i .empty (path k j) = .empty) :
      Replaced path T i
        (Function.update (Function.update T i .empty) (path k j) (.live k v))

/-- A pass over all positions, with every intermediate table. -/
structure Pass (path : κ → ℕ → Fin n) (T : ℕ → Table (Fin n) κ ν) : Prop where
  step : ∀ i : Fin n, Replaced path (T i) i (T (i + 1))

/-- `i` is a position in front of `s` on the path of `k`. -/
def Before (path : κ → ℕ → Fin n) (k : κ) (i s : Fin n) : Prop :=
  ∃ j a, a < j ∧ path k a = i ∧ path k j = s ∧ ∀ b < j, path k b ≠ s

/-- Whenever the pass vacates a position in front of a cell it has put back
before, a later step puts a cell there again. -/
def KeepsChains (path : κ → ℕ → Fin n) (T : ℕ → Table (Fin n) κ ν) : Prop :=
  ∀ (i s : Fin n) (k : κ) (v : ν), s < i → (∃ k' v', T i i = .live k' v') → T (i + 1) i = .empty →
    T (i + 1) s = .live k v → Before path k i s → ∃ m, i.val < m ∧ m < n ∧ T (m + 1) i ≠ .empty

section Step
variable {path : κ → ℕ → Fin n} {T T' : Table (Fin n) κ ν} {i : Fin n}

theorem Replaced.maps_iff (h : Replaced path T i T') (k : κ) (v : ν) :
    Maps T' k v ↔ Maps T k v := by
  cases h with
  | skip => exact Iff.rfl
  | @move k' v' j hlive hbefore hfree =>
    constructor
    · rintro ⟨s, hs⟩
      by_cases hsp : s = path k' j
      · subst s
        rw [Function.update_self] at hs
        obtain ⟨rfl, rfl⟩ := Cell.live.inj hs
        exact ⟨i, hlive⟩
      · rw [Function.update_of_ne hsp] at hs
        by_cases hsi : s = i
        · simp [hsi] at hs
        · rw [Function.update_of_ne hsi] at hs
          exact ⟨s, hs⟩
    · rintro ⟨s, hs⟩
      by_cases hsi : s = i
      · subst s
        rw [hlive] at hs
        obtain ⟨rfl, rfl⟩ := Cell.live.inj hs
        exact ⟨path k' j, Function.update_self ..⟩
      · have hsp : s ≠ path k' j := by
          rintro rfl
          rw [Function.update_of_ne hsi] at hfree
          rw [hfree] at hs
          cases hs
        exact ⟨s, by rwa [Function.update_of_ne hsp, Function.update_of_ne hsi]⟩

theorem Replaced.unique (h : Replaced path T i T')
    (hT : ∀ {s t k v w}, T s = .live k v → T t = .live k w → s = t) {s t : Fin n} {k : κ} {v w : ν}
    (hs : T' s = .live k v) (ht : T' t = .live k w) : s = t := by
  cases h with
  | skip => exact hT hs ht
  | @move k' v' j hlive hbefore hfree =>
    -- a cell of the new table is the moved one or an untouched one
    have hcell : ∀ {u : Fin n} {k : κ} {v : ν},
        Function.update (Function.update T i .empty) (path k' j) (.live k' v') u = .live k v →
        (u = path k' j ∧ k = k') ∨ (u ≠ i ∧ T u = .live k v) := by
      intro u k v hu
      by_cases hup : u = path k' j
      · subst u
        rw [Function.update_self] at hu
        exact Or.inl ⟨rfl, (Cell.live.inj hu).1.symm⟩
      · rw [Function.update_of_ne hup] at hu
        by_cases hui : u = i
        · simp [hui] at hu
        · rw [Function.update_of_ne hui] at hu
          exact Or.inr ⟨hui, hu⟩
    rcases hcell hs with ⟨hsp, hks⟩ | ⟨hsi, hsT⟩ <;> rcases hcell ht with ⟨htp, hkt⟩ | ⟨hti, htT⟩
    · rw [hsp, htp]
    · exact absurd (hT htT (hks ▸ hlive)) hti
    · exact absurd (hT hsT (hkt ▸ hlive)) hsi
    · exact hT hsT htT

/-- Only the position being replaced can become empty, and an occupied one is
never overwritten. -/
theorem Replaced.keep (h : Replaced path T i T') {s : Fin n} (hsi : s ≠ i) (hs : T s ≠ .empty) :
    T' s = T s := by
  cases h with
  | skip => rfl
  | @move k v j hlive hbefore hfree =>
    have hsp : s ≠ path k j := by
      rintro rfl
      rw [Function.update_of_ne hsi] at hfree
      exact hs hfree
    rw [Function.update_of_ne hsp, Function.update_of_ne hsi]

theorem Replaced.notDead (h : Replaced path T i T') (hT : ∀ s, T s ≠ .dead) (s : Fin n) :
    T' s ≠ .dead := by
  cases h with
  | skip => exact hT s
  | @move k v j hlive hbefore hfree =>
    by_cases hsp : s = path k j
    · simp [hsp]
    · rw [Function.update_of_ne hsp]
      by_cases hsi : s = i
      · simp [hsi]
      · rw [Function.update_of_ne hsi]
        exact hT s

theorem Replaced.hasEmpty (h : Replaced path T i T') (hT : ∃ s, T s = .empty) :
    ∃ s, T' s = .empty := by
  obtain ⟨s, hs⟩ := hT
  cases h with
  | skip => exact ⟨s, hs⟩
  | @move k v j hlive hbefore hfree =>
    by_cases hij : i = path k j
    · have hsi : s ≠ i := by
        rintro rfl
        rw [hlive] at hs
        cases hs
      exact ⟨s, by rw [Function.update_of_ne (hij ▸ hsi), Function.update_of_ne hsi, hs]⟩
    · exact ⟨i, by rw [Function.update_of_ne hij, Function.update_self]⟩

end Step

namespace Pass
variable {path : κ → ℕ → Fin n} {T : ℕ → Table (Fin n) κ ν} (hp : Pass path T)
include hp

theorem maps_iff {m : ℕ} (hm : m ≤ n) (k : κ) (v : ν) : Maps (T m) k v ↔ Maps (T 0) k v := by
  induction m with
  | zero => exact Iff.rfl
  | succ m ih => exact ((hp.step ⟨m, hm⟩).maps_iff k v).trans (ih (by omega))

theorem hasEmpty (h0 : ∃ s, T 0 s = .empty) {m : ℕ} (hm : m ≤ n) : ∃ s, T m s = .empty := by
  induction m with
  | zero => exact h0
  | succ m ih => exact (hp.step ⟨m, hm⟩).hasEmpty (ih (by omega))

theorem unique (h0 : ∀ {s t k v w}, T 0 s = .live k v → T 0 t = .live k w → s = t) {m : ℕ}
    (hm : m ≤ n) {s t : Fin n} {k : κ} {v w : ν} (hs : T m s = .live k v) (ht : T m t = .live k w) :
    s = t := by
  induction m generalizing s t k v w with
  | zero => exact h0 hs ht
  | succ m ih => exact (hp.step ⟨m, hm⟩).unique (fun hs ht => ih (by omega) hs ht) hs ht

/-- A position the pass has left behind keeps its cell once it has one. -/
theorem keep {m m' : ℕ} (hmm : m ≤ m') (hm' : m' ≤ n) {s : Fin n} (hsm : s.val < m)
    (hs : T m s ≠ .empty) : T m' s = T m s := by
  induction m' with
  | zero => rw [Nat.le_zero.mp hmm]
  | succ m' ih =>
    rcases Nat.lt_or_ge m' m with hlt | hge
    · rw [show m = m' + 1 by omega]
    · have hih := ih hge (by omega)
      have hne : s ≠ ⟨m', hm'⟩ := fun h => by
        have hval : s.val = m' := congrArg Fin.val h
        omega
      rw [← hih]
      exact (hp.step ⟨m', hm'⟩).keep hne (hih ▸ hs)

/-- The invariant of the pass: a cell already put back has its path filled up to
its position, or will have it filled by the end. -/
theorem settled (hkeep : KeepsChains path T) (m : ℕ) (hm : m ≤ n) (s : Fin n) (hsm : s.val < m)
    (k : κ) (v : ν) (hs : T m s = .live k v) :
    ∃ j, path k j = s ∧ (∀ b < j, path k b ≠ s) ∧
      ∀ a < j, T m (path k a) ≠ .empty ∨ ((path k a).val < m ∧ T n (path k a) ≠ .empty) := by
  induction m generalizing s k v with
  | zero => omega
  | succ m ih =>
    have hstep := hp.step ⟨m, hm⟩
    generalize hT' : T (m + 1) = T' at hs hstep ⊢
    change Replaced path (T m) ⟨m, hm⟩ T' at hstep
    cases hstep with
    | skip hskip =>
      have hne : s.val ≠ m := by
        rintro rfl
        exact hskip k v hs
      obtain ⟨j, hj, hfirst, hfill⟩ := ih (by omega) s (by omega) k v hs
      refine ⟨j, hj, hfirst, fun a ha => (hfill a ha).imp id fun h => ⟨by omega, h.2⟩⟩
    | @move k' v' j' hlive hbefore hfree =>
      by_cases hsp : s = path k' j'
      · -- the cell put back by this very step
        subst s
        rw [Function.update_self] at hs
        obtain ⟨rfl, rfl⟩ := Cell.live.inj hs
        have hfirst : ∀ b < j', path k' b ≠ path k' j' := fun b hb heq => hbefore b hb (heq ▸ hfree)
        refine ⟨j', rfl, hfirst, fun a ha => Or.inl ?_⟩
        rw [Function.update_of_ne (hfirst a ha)]
        exact hbefore a ha
      · have hs' := hs
        rw [Function.update_of_ne hsp] at hs
        have hsi : s ≠ ⟨m, hm⟩ := by
          rintro rfl
          simp at hs
        rw [Function.update_of_ne hsi] at hs
        have hlt : s.val < m := by
          have hne : s.val ≠ m := fun h => hsi (Fin.ext h)
          omega
        obtain ⟨j, hj, hfirst, hfill⟩ := ih (by omega) s hlt k v hs
        refine ⟨j, hj, hfirst, fun a ha => ?_⟩
        rcases hfill a ha with hne | ⟨hlt', hend⟩
        · by_cases hq : path k a = path k' j'
          · left
            rw [hq, Function.update_self]
            simp
          rw [Function.update_of_ne hq]
          by_cases hqi : path k a = ⟨m, hm⟩
          · -- the vacated position lies in front of `s`: a later step fills it
            right
            have hempty : T (m + 1) ⟨m, hm⟩ = .empty := by
              rw [hT', Function.update_of_ne (hqi ▸ hq), Function.update_self]
            obtain ⟨m', hmm', hm'n, hm'⟩ := hkeep ⟨m, hm⟩ s k v hlt ⟨k', v', hlive⟩ hempty
              (by rw [hT']; exact hs') ⟨j, a, ha, hqi, hj, hfirst⟩
            have hmm' : m < m' := hmm'
            rw [hqi]
            refine ⟨Nat.lt_succ_self m, ?_⟩
            rw [hp.keep (show m' + 1 ≤ n by omega) le_rfl (by simp only; omega) hm']
            exact hm'
          · left
            rw [Function.update_of_ne hqi]
            exact hne
        · exact Or.inr ⟨by omega, hend⟩

/-- The pass leaves every key reachable exactly when it keeps the chains of the
cells it has put back. -/
theorem wellProbed_iff (h0 : ∀ {s t k v w}, T 0 s = .live k v → T 0 t = .live k w → s = t) :
    WellProbed path (T n) ↔ KeepsChains path T := by
  constructor
  · rintro hwell i s k v hsi - hempty hs ⟨j, a, haj, hai, hj, hfirst⟩
    have hlast : T n s = .live k v := by
      rw [← hs]
      exact hp.keep i.isLt le_rfl (Nat.lt_succ_of_lt hsi) (by simp [hs])
    obtain ⟨j', hj', hbefore⟩ := hwell.chained hlast
    have hjj : j ≤ j' := by
      by_contra hlt
      exact hfirst j' (by omega) hj'
    have hfill := hbefore a (by omega)
    rw [hai] at hfill
    have hn : i.val + 1 < n := by
      have hle : i.val + 1 ≤ n := i.isLt
      rcases Nat.lt_or_eq_of_le hle with hlt | heq
      · exact hlt
      · rw [heq] at hempty
        exact absurd hempty hfill
    exact ⟨n - 1, by omega, by omega, by rwa [Nat.sub_add_cancel (by omega)]⟩
  · intro hkeep
    refine ⟨fun {s k v} hs => ?_, fun hs ht => hp.unique h0 le_rfl hs ht⟩
    obtain ⟨j, hj, -, hfill⟩ := hp.settled hkeep n le_rfl s s.isLt k v hs
    exact ⟨j, hj, fun a ha => (hfill a ha).elim id And.right⟩

end Pass

/-! ## Tables a pass does no harm to

Which cells move is only settled by the pass. What can be said of the table before it is
which of them may move, and where a cell that moves may be put.
-/

/-- The cell at a position may move: in front of it on its key's path is a position without
a live cell, or one whose cell may move. -/
inductive Loose (path : κ → ℕ → Fin n) (T : Table (Fin n) κ ν) : Fin n → Prop
  | gap {s r : Fin n} {k : κ} {v : ν} (live : T s = .live k v) (before : Before path k r s)
      (free : ∀ k' v', T r ≠ .live k' v') : Loose path T s
  | behind {s r : Fin n} {k : κ} {v : ν} (live : T s = .live k v) (before : Before path k r s)
      (loose : Loose path T r) : Loose path T s

/-- `r` lies in front of a cell at a position below `m`. -/
def InReach (path : κ → ℕ → Fin n) (T : Table (Fin n) κ ν) (m : ℕ) (r : Fin n) : Prop :=
  ∃ s : Fin n, s < m ∧ ∃ k v, T s = .live k v ∧ Before path k r s

/-- No cell can come to rely on a later one that may move: if there is one in front of it,
then in front of that is a position where it stops, being without a live cell and out of
reach of the cells put back before. -/
def Settled (path : κ → ℕ → Fin n) (T : Table (Fin n) κ ν) : Prop :=
  ∀ s k v q, T s = .live k v → Before path k q s → s < q → Loose path T q →
    ∃ r, Before path k r q ∧ (∀ k' v', T r ≠ .live k' v') ∧ ¬ InReach path T s r

section Live
variable {path : κ → ℕ → Fin n} {T T' : Table (Fin n) κ ν}

theorem Loose.of_live (hlive : ∀ s k v, T' s = .live k v ↔ T s = .live k v) {s : Fin n}
    (h : Loose path T s) : Loose path T' s := by
  induction h with
  | gap hs before free =>
    exact .gap ((hlive ..).mpr hs) before fun k' v' hr => free k' v' ((hlive ..).mp hr)
  | behind hs before _ ih => exact .behind ((hlive ..).mpr hs) before ih

/-- Only the live cells of a table count. -/
theorem Settled.of_live (hlive : ∀ s k v, T' s = .live k v ↔ T s = .live k v)
    (h : Settled path T) : Settled path T' := by
  intro s k v q hs hbefore hlt hloose
  have hloose : Loose path T q := hloose.of_live fun s k v => (hlive s k v).symm
  obtain ⟨r, hr, hfree, hreach⟩ := h s k v q ((hlive ..).mp hs) hbefore hlt hloose
  refine ⟨r, hr, fun k' v' hr' => hfree k' v' ((hlive ..).mp hr'), ?_⟩
  rintro ⟨t, ht, k', v', hcell, hfront⟩
  exact hreach ⟨t, ht, k', v', (hlive ..).mp hcell, hfront⟩

end Live

section Firm
variable {path : κ → ℕ → Fin n} {T₀ T T' : Table (Fin n) κ ν} {m : ℕ} {F : Set (Fin n)}

/-- Before step `m` the cells at the positions `F` do not move any more: each has only such
positions in front of it. A cell elsewhere has not been moved yet. -/
structure Firm (path : κ → ℕ → Fin n) (T₀ T : Table (Fin n) κ ν) (m : ℕ) (F : Set (Fin n)) :
    Prop where
  rests : ∀ s ∈ F, ∃ k v, T s = .live k v ∧ ∃ j, path k j = s ∧ ∀ a < j, path k a ∈ F ∧ path k a ≠ s
  passed : ∀ s k v, T s = .live k v → s < m → s ∈ F
  unmoved : ∀ s k v, T s = .live k v → s ∉ F → T₀ s = .live k v
  kept : ∀ s k v, T₀ s = .live k v → ¬ Loose path T₀ s → s ∈ F
  reached : ∀ s ∈ F, (∀ k v, T₀ s ≠ .live k v) → InReach path T₀ m s

theorem exists_first {k : κ} {s : Fin n} (h : ∃ j, path k j = s) :
    ∃ j, path k j = s ∧ ∀ b < j, path k b ≠ s :=
  ⟨Nat.find h, Nat.find_spec h, fun _ hb => Nat.find_min h hb⟩

theorem firm_start (hpath : ∀ s k v, T₀ s = .live k v → ∃ j, path k j = s) :
    Firm path T₀ T₀ 0 {s | (∃ k v, T₀ s = .live k v) ∧ ¬ Loose path T₀ s} where
  rests := by
    rintro s ⟨⟨k, v, hs⟩, hfirm⟩
    obtain ⟨j, hj, hfirst⟩ := exists_first (hpath s k v hs)
    refine ⟨k, v, hs, j, hj, fun a ha => ⟨⟨?_, ?_⟩, hfirst a ha⟩⟩
    · by_contra hfree
      push Not at hfree
      exact hfirm (.gap hs ⟨j, a, ha, rfl, hj, hfirst⟩ hfree)
    · exact fun hloose => hfirm (.behind hs ⟨j, a, ha, rfl, hj, hfirst⟩ hloose)
  passed s k v _ h := absurd h (Nat.not_lt_zero _)
  unmoved s k v h _ := h
  kept s k v h hfirm := ⟨⟨k, v, h⟩, hfirm⟩
  reached := by
    rintro s ⟨⟨k, v, hs⟩, -⟩ hfree
    exact absurd hs (hfree k v)

theorem Firm.stays (hF : Firm path T₀ T m F) {i : Fin n} (hi : i ∈ F) {k : κ} {v : ν} {j : ℕ}
    (hlive : T i = .live k v)
    (hbefore : ∀ a < j, Function.update T i .empty (path k a) ≠ .empty)
    (hfree : Function.update T i .empty (path k j) = .empty) : path k j = i := by
  obtain ⟨k', v', hlive', j', hj', hclosed⟩ := hF.rests i hi
  rw [hlive] at hlive'
  obtain ⟨rfl, rfl⟩ := Cell.live.inj hlive'
  have hle : j ≤ j' := by
    by_contra hlt
    exact hbefore j' (by omega) (by rw [hj', Function.update_self])
  rcases Nat.lt_or_eq_of_le hle with hlt | rfl
  · obtain ⟨hmem, hne⟩ := hclosed j hlt
    obtain ⟨k'', v'', hother, -⟩ := hF.rests _ hmem
    rw [Function.update_of_ne hne, hother] at hfree
    cases hfree
  · exact hj'

theorem Firm.fronts (hF : Firm path T₀ T m F) (hsettled : Settled path T₀)
    (hdead : ∀ s, T s ≠ .dead) {i : Fin n} (him : i.val = m) (hi : i ∉ F) {k : κ} {v : ν} {j : ℕ}
    (hlive : T i = .live k v) (hon : ∃ j, path k j = i)
    (hbefore : ∀ a < j, Function.update T i .empty (path k a) ≠ .empty) {a : ℕ} (ha : a < j) :
    path k a ∈ F := by
  -- whatever lies in front is occupied, and is not `i` itself
  have hoccupied : ∀ a < j, path k a ≠ i ∧ ∃ k' v', T (path k a) = .live k' v' := by
    intro a ha
    have hne : path k a ≠ i := by
      intro heq
      exact hbefore a ha (by rw [heq, Function.update_self])
    refine ⟨hne, ?_⟩
    have hfull := hbefore a ha
    rw [Function.update_of_ne hne] at hfull
    cases hcell : T (path k a) with
    | empty => exact absurd hcell hfull
    | dead => exact absurd hcell (hdead _)
    | live k' v' => exact ⟨k', v', rfl⟩
  by_contra hmem
  obtain ⟨hne, k', v', hcell⟩ := hoccupied a ha
  obtain ⟨l, hl, hfirst⟩ := exists_first hon
  have hal : a < l := by
    by_contra hle
    exact (hoccupied l (by omega)).1 hl
  have hlater : i < path k a := by
    have hpassed : ¬ (path k a).val < m := fun hlt => hmem (hF.passed _ k' v' hcell hlt)
    have hval : (path k a).val ≠ i.val := fun heq => hne (Fin.ext heq)
    exact Fin.lt_def.mpr (by omega)
  have hloose : Loose path T₀ (path k a) := by
    by_contra hfirm
    exact hmem (hF.kept _ k' v' (hF.unmoved _ k' v' hcell hmem) hfirm)
  obtain ⟨r, ⟨jq, ar, har, rfl, hjq, hfirstq⟩, hfree, hreach⟩ :=
    hsettled i k v (path k a) (hF.unmoved i k v hlive hi) ⟨l, a, hal, rfl, hl, hfirst⟩ hlater hloose
  have hle : jq ≤ a := by
    by_contra hlt
    exact hfirstq a (by omega) rfl
  obtain ⟨-, kr, vr, hr⟩ := hoccupied ar (by omega)
  have hrF : path k ar ∈ F := by
    by_contra hrF
    exact hfree kr vr (hF.unmoved _ kr vr hr hrF)
  rw [him] at hreach
  exact hreach (hF.reached _ hrF hfree)

theorem Firm.step (hF : Firm path T₀ T m F) (hsettled : Settled path T₀)
    (hpath : ∀ s k v, T₀ s = .live k v → ∃ j, path k j = s) (hdead : ∀ s, T s ≠ .dead)
    {i : Fin n} (him : i.val = m) (hstep : Replaced path T i T') :
    ∃ F', Firm path T₀ T' (m + 1) F' := by
  have hmono : ∀ s, InReach path T₀ m s → InReach path T₀ (m + 1) s :=
    fun s ⟨t, ht, hs⟩ => ⟨t, by omega, hs⟩
  -- where `i` itself needs no care the positions stay as they are
  have hsame : (∀ k v, T i = .live k v → i ∈ F) → Firm path T₀ T (m + 1) F := by
    intro hi
    refine ⟨hF.rests, fun s k v hs hlt => ?_, hF.unmoved, hF.kept, fun s hs hfree =>
      hmono s (hF.reached s hs hfree)⟩
    rcases Nat.lt_succ_iff_lt_or_eq.mp hlt with hlt | heq
    · exact hF.passed s k v hs hlt
    · obtain rfl : s = i := Fin.ext (heq.trans him.symm)
      exact hi k v hs
  cases hstep with
  | skip hskip => exact ⟨F, hsame fun k v h => absurd h (hskip k v)⟩
  | @move k v j hlive hbefore hfree =>
    by_cases hi : i ∈ F
    · have hplace := hF.stays hi hlive hbefore hfree
      rw [hplace, Function.update_idem, ← hlive, Function.update_eq_self]
      exact ⟨F, hsame fun _ _ _ => hi⟩
    · have hfronts : ∀ a < j, path k a ∈ F := fun a ha =>
        hF.fronts hsettled hdead him hi hlive (hpath i k v (hF.unmoved i k v hlive hi)) hbefore ha
      have hnew : path k j ∉ F := by
        intro hmem
        obtain ⟨k', v', hcell, -⟩ := hF.rests _ hmem
        have hne : path k j ≠ i := fun heq => hi (heq ▸ hmem)
        rw [Function.update_of_ne hne, hcell] at hfree
        cases hfree
      have hother : ∀ {s}, s ≠ path k j → s ≠ i → Function.update (Function.update T i .empty)
          (path k j) (.live k v) s = T s := by
        intro s hsp hsi
        rw [Function.update_of_ne hsp, Function.update_of_ne hsi]
      have hcell : ∀ {s k' v'}, s ≠ path k j → Function.update (Function.update T i .empty)
          (path k j) (.live k v) s = .live k' v' → s ≠ i ∧ T s = .live k' v' := by
        intro s k' v' hsp hs
        have hsi : s ≠ i := by
          rintro rfl
          rw [Function.update_of_ne hsp, Function.update_self] at hs
          cases hs
        exact ⟨hsi, by rwa [hother hsp hsi] at hs⟩
      refine ⟨insert (path k j) F, ?_, ?_, ?_, ?_, ?_⟩
      · rintro s (rfl | hs)
        · refine ⟨k, v, Function.update_self .., j, rfl, fun a ha => ⟨.inr (hfronts a ha), ?_⟩⟩
          intro heq
          exact hnew (heq ▸ hfronts a ha)
        · obtain ⟨k', v', hlive', j', hj', hclosed⟩ := hF.rests s hs
          refine ⟨k', v', ?_, j', hj', fun a ha => ⟨.inr (hclosed a ha).1, (hclosed a ha).2⟩⟩
          rw [hother (fun heq => hnew (heq ▸ hs)) fun heq => hi (heq ▸ hs)]
          exact hlive'
      · intro s k' v' hs hlt
        by_cases hsp : s = path k j
        · exact .inl hsp
        · obtain ⟨hsi, hs⟩ := hcell hsp hs
          have hval : s.val ≠ i.val := fun heq => hsi (Fin.ext heq)
          exact .inr (hF.passed s k' v' hs (by omega))
      · intro s k' v' hs hmem
        rw [Set.mem_insert_iff, not_or] at hmem
        exact hF.unmoved s k' v' (hcell hmem.1 hs).2 hmem.2
      · exact fun s k' v' hs hfirm => .inr (hF.kept s k' v' hs hfirm)
      · rintro s (rfl | hs) hnone
        · -- the cell of `i` has come here along its own path
          have hi₀ := hF.unmoved i k v hlive hi
          obtain ⟨l, hl, hfirst⟩ := exists_first (hpath i k v hi₀)
          have hlt : j < l := by
            by_contra hle
            rcases Nat.lt_or_eq_of_le (not_lt.mp hle) with hlt | rfl
            · exact hi (hl ▸ hfronts l hlt)
            · exact hnone k v (hl.symm ▸ hi₀)
          exact ⟨i, by omega, k, v, hi₀, l, j, hlt, rfl, hl, hfirst⟩
        · exact hmono s (hF.reached s hs hnone)

end Firm

/-- A pass over a settled table leaves every key reachable. -/
theorem Pass.wellProbed_of_settled {path : κ → ℕ → Fin n} {T : ℕ → Table (Fin n) κ ν}
    (hp : Pass path T) (hdead : ∀ s, T 0 s ≠ .dead)
    (hpath : ∀ s k v, T 0 s = .live k v → ∃ j, path k j = s)
    (hunique : ∀ {s t k v w}, T 0 s = .live k v → T 0 t = .live k w → s = t)
    (hsettled : Settled path (T 0)) : WellProbed path (T n) := by
  have hfirm : ∀ m ≤ n, (∀ s, T m s ≠ .dead) ∧ ∃ F, Firm path (T 0) (T m) m F := by
    intro m hm
    induction m with
    | zero => exact ⟨hdead, _, firm_start hpath⟩
    | succ m ih =>
      obtain ⟨hnone, F, hF⟩ := ih (by omega)
      have hstep := hp.step ⟨m, hm⟩
      exact ⟨hstep.notDead hnone, hF.step hsettled hpath hnone rfl hstep⟩
  obtain ⟨-, F, hF⟩ := hfirm n le_rfl
  refine ⟨fun {s k v} hs => ?_, fun hs ht => hp.unique hunique le_rfl hs ht⟩
  obtain ⟨k', v', hs', j, hj, hclosed⟩ := hF.rests s (hF.passed s k v hs s.isLt)
  rw [hs] at hs'
  obtain ⟨rfl, rfl⟩ := Cell.live.inj hs'
  refine ⟨j, hj, fun a ha => ?_⟩
  obtain ⟨k', v', hcell, -⟩ := hF.rests _ (hclosed a ha).1
  simp [hcell]

end OpenAddressing

import ItchOrderBook.Util.OpenAddressMapSpec

/-! # The tombstone a probe remembers

`probe_for_slot_idx` takes one off `tombstone_` whenever it meets a tombstone in front of
the key and of the first empty slot. It returns that tombstone unless it goes on to find
the key.
-/
namespace ItchOrderBook.Util
open OpenAddressing

namespace OpenAddressMap

variable {bits : ℕ} {Key Value : Type} {probe : Probe} {rehashes : Bool} [SizeKey Key]

/-- The probe for `key` comes to the tombstone `s` and has met only other keys before. -/
def Meets (probe : Probe) (T : Table (Fin (2 ^ bits)) Key Value) (key : Key)
    (s : Fin (2 ^ bits)) : Prop :=
  ∃ attempt, path bits probe key attempt = s ∧ T s = .dead ∧
    ∀ i < attempt, ∃ k v, T (path bits probe key i) = .live k v ∧ k ≠ key

/-- The key is stored where the probe for it looks. -/
def Reached (probe : Probe) (T : Table (Fin (2 ^ bits)) Key Value) (key : Key) : Prop :=
  ∃ s v, T s = .live key v ∧ Chain (path bits probe) T key s

variable {T : Table (Fin (2 ^ bits)) Key Value} {key : Key} {s t : Fin (2 ^ bits)}

/-- A cell that is not another key ends the search for a tombstone. -/
theorem Meets.position_le {attempt : ℕ} {c : Cell Key Value}
    (hcell : T (path bits probe key attempt) = c) (hstop : ∀ k v, c = .live k v → k = key)
    (h : Meets probe T key s) : ∃ j ≤ attempt, path bits probe key j = s ∧ T s = .dead := by
  obtain ⟨j, hj, hdead, hbefore⟩ := h
  refine ⟨j, ?_, hj, hdead⟩
  by_contra hlt
  obtain ⟨k, v, hlive, hne⟩ := hbefore attempt (not_le.mp hlt)
  exact hne (hstop k v (hcell.symm.trans hlive))

theorem Meets.unique (hs : Meets probe T key s) (ht : Meets probe T key t) : s = t := by
  obtain ⟨i, rfl, hdead, hbefore⟩ := hs
  obtain ⟨j, rfl, hdead', hbefore'⟩ := ht
  rcases Nat.lt_trichotomy i j with hlt | rfl | hlt
  · obtain ⟨k, v, hlive, -⟩ := hbefore' i hlt
    simp [hdead] at hlive
  · rfl
  · obtain ⟨k, v, hlive, -⟩ := hbefore j hlt
    simp [hdead'] at hlive

/-- What a probe leaves in the counter, and where it has ended. -/
inductive Outcome (probe : Probe) (T : Table (Fin (2 ^ bits)) Key Value) (key : Key)
    (tombstone : UInt64) (r : Except MapFault (Fin (2 ^ bits))) : UInt64 → Prop
  | unmet (unmet : ∀ s, ¬ Meets probe T key s)
      (free : ∀ i, r = .ok i → T i = .empty ∨ ∃ v, T i = .live key v) :
      Outcome probe T key tombstone r tombstone
  | met (s : Fin (2 ^ bits)) (met : Meets probe T key s)
      (result : ∀ i, r = .ok i → i = s ∨ ∃ v, T i = .live key v) :
      Outcome probe T key tombstone r (tombstone - 1)

section Loop
variable [DecidableEq Key] {table : Fin (2 ^ bits) → Slot Key Value} {original : Fin (2 ^ bits)}
  {fuel attempt : ℕ} {probeIdx : Fin (2 ^ bits)} {first : Option (Fin (2 ^ bits))}
  {tombstone : UInt64}

omit [SizeKey Key] in
theorem probeLoop_key (hstate : (table probeIdx).state = .occupied)
    (hkey : (table probeIdx).key = key) :
    probeLoop probe table key original (fuel + 1) probeIdx attempt first tombstone =
      (.ok probeIdx, tombstone) := by
  simp [probeLoop, hstate, hkey]

omit [SizeKey Key] in
theorem probeLoop_empty (hstate : (table probeIdx).state = .empty) :
    probeLoop probe table key original (fuel + 1) probeIdx attempt first tombstone =
      (.ok (first.getD probeIdx), tombstone) := by
  simp [probeLoop, hstate]

omit [SizeKey Key] in
theorem probeLoop_other (hstate : (table probeIdx).state = .occupied)
    (hkey : (table probeIdx).key ≠ key) :
    probeLoop probe table key original (fuel + 1) probeIdx attempt first tombstone =
      if probe.step probeIdx (attempt + 1) = original then
        (first.elim (.error .saturated) .ok, tombstone)
      else probeLoop probe table key original fuel (probe.step probeIdx (attempt + 1)) (attempt + 1)
        first tombstone := by
  cases first with
  | none => simp [probeLoop, hstate, hkey]
  | some s => simp [probeLoop, hstate, hkey]

omit [SizeKey Key] in
theorem probeLoop_tombstone (hstate : (table probeIdx).state = .tombstone) :
    probeLoop probe table key original (fuel + 1) probeIdx attempt first tombstone =
      let tombstone := if first = none then tombstone - 1 else tombstone
      if probe.step probeIdx (attempt + 1) = original then
        (.ok (first.getD probeIdx), tombstone)
      else probeLoop probe table key original fuel (probe.step probeIdx (attempt + 1)) (attempt + 1)
        (some (first.getD probeIdx)) tombstone := by
  cases first with
  | none => simp [probeLoop, hstate]
  | some s => simp [probeLoop, hstate]

omit [SizeKey Key] in
/-- With a tombstone remembered the probe leaves the counter alone. -/
theorem probeLoop_remembered {first : Fin (2 ^ bits)} :
    (probeLoop probe table key original fuel probeIdx attempt (some first) tombstone).2 =
        tombstone ∧
      ∀ i, (probeLoop probe table key original fuel probeIdx attempt (some first) tombstone).1 =
          .ok i → i = first ∨ ∃ v, cellsOf table i = .live key v := by
  induction fuel generalizing attempt probeIdx with
  | zero =>
    constructor
    · rfl
    · intro i hi
      cases hi
  | succ fuel ih =>
    have hfirst : ∀ i, (Except.ok first : Except MapFault _) = .ok i →
        i = first ∨ ∃ v, cellsOf table i = .live key v :=
      fun i hi => Or.inl (Except.ok.inj hi).symm
    cases hstate : (table probeIdx).state with
    | empty =>
      simp only [probeLoop_empty hstate, Option.getD_some, true_and]
      exact hfirst
    | tombstone =>
      simp only [probeLoop_tombstone hstate, Option.getD_some, reduceCtorEq, if_false]
      split
      · exact ⟨rfl, hfirst⟩
      · exact ih
    | occupied =>
      by_cases hkey : (table probeIdx).key = key
      · simp only [probeLoop_key hstate hkey, true_and]
        intro i hi
        obtain rfl := Except.ok.inj hi
        exact Or.inr ⟨_, Slot.cell_eq_live.mpr ⟨hstate, hkey, rfl⟩⟩
      · simp only [probeLoop_other hstate hkey, Option.elim_some]
        split
        · exact ⟨rfl, hfirst⟩
        · exact ih

/-- The whole probe, from the slot it has come to through other keys only. -/
theorem probeLoop_outcome {period : ℕ} (htour : Tour (path bits probe key) period)
    (fuel attempt : ℕ) (hfuel : period ≤ attempt + fuel) (hattempt : attempt < period)
    (hpassed : ∀ i < attempt, ∃ k v, cellsOf table (path bits probe key i) = .live k v ∧ k ≠ key) :
    Outcome probe (cellsOf table) key tombstone
      (probeLoop probe table key (hash bits key) fuel (path bits probe key attempt) attempt none
        tombstone).1
      (probeLoop probe table key (hash bits key) fuel (path bits probe key attempt) attempt none
        tombstone).2 := by
  induction fuel generalizing attempt with
  | zero => omega
  | succ fuel ih =>
    -- a cell that stops the search without being a tombstone
    have hunmet : ∀ c, cellsOf table (path bits probe key attempt) = c → c ≠ .dead →
        (∀ k v, c = .live k v → k = key) → ∀ s, ¬ Meets probe (cellsOf table) key s := by
      intro c hcell hdead hstop s hmeets
      obtain ⟨j, hle, hj, hs⟩ := hmeets.position_le hcell hstop
      rcases Nat.lt_or_eq_of_le hle with hlt | rfl
      · obtain ⟨k, v, hlive, -⟩ := hpassed j hlt
        rw [hj, hs] at hlive
        cases hlive
      · exact hdead (hcell.symm.trans (hj ▸ hs))
    cases hstate : (table (path bits probe key attempt)).state with
    | empty =>
      have hcell : cellsOf table (path bits probe key attempt) = .empty := by
        simpa [cellsOf] using hstate
      rw [probeLoop_empty hstate]
      apply Outcome.unmet
      · exact hunmet _ hcell (by simp) (by simp)
      · intro i hi
        obtain rfl := Except.ok.inj hi
        exact Or.inl hcell
    | tombstone =>
      have hmeets : Meets probe (cellsOf table) key (path bits probe key attempt) :=
        ⟨attempt, rfl, by simpa [cellsOf] using hstate, hpassed⟩
      simp only [probeLoop_tombstone hstate, Option.getD_none, if_true]
      split
      · apply Outcome.met _ hmeets
        intro i hi
        exact Or.inl (Except.ok.inj hi).symm
      · rw [probeLoop_remembered.1]
        exact Outcome.met _ hmeets probeLoop_remembered.2
    | occupied =>
      by_cases hkey : (table (path bits probe key attempt)).key = key
      · have hlive : cellsOf table (path bits probe key attempt) =
            .live key (table (path bits probe key attempt)).value :=
          Slot.cell_eq_live.mpr ⟨hstate, hkey, rfl⟩
        rw [probeLoop_key hstate hkey]
        apply Outcome.unmet
        · apply hunmet _ hlive (by simp)
          intro k v h
          exact (Cell.live.inj h).1.symm
        · intro i hi
          obtain rfl := Except.ok.inj hi
          exact Or.inr ⟨_, hlive⟩
      · have hnext : ∀ i < attempt + 1,
            ∃ k v, cellsOf table (path bits probe key i) = .live k v ∧ k ≠ key := by
          intro i hi
          rcases Nat.lt_succ_iff_lt_or_eq.mp hi with hi | rfl
          · exact hpassed i hi
          · exact ⟨_, _, Slot.cell_eq_live.mpr ⟨hstate, rfl, rfl⟩, hkey⟩
        rw [probeLoop_other hstate hkey]
        split
        · rename_i hback
          -- the probe is back at its start and has met other keys only
          have hperiod : attempt + 1 = period := by
            by_contra hne
            exact htour.first (attempt + 1) (by omega) (by omega) hback
          apply Outcome.unmet
          · rintro s ⟨-, -, hdead, -⟩
            obtain ⟨i, hi, rfl⟩ := htour.covers s
            obtain ⟨k, v, hlive, -⟩ := hnext i (by omega)
            rw [hdead] at hlive
            cases hlive
          · intro i hi
            cases hi
        · rename_i hback
          apply ih (attempt + 1) (by omega) ?_ hnext
          have hne : attempt + 1 ≠ period := by
            rintro rfl
            exact hback htour.returns
          omega

end Loop

section Operations
variable [DecidableEq Key] {m : OpenAddressMap bits Key Value probe rehashes}

/-- The slot a probe returns: the key's, an empty one, a tombstone, or none because the
table is full of other keys. -/
inductive Probed (m : OpenAddressMap bits Key Value probe rehashes) (key : Key) :
    Except MapFault (Fin (2 ^ bits)) → Prop
  | found (i : Fin (2 ^ bits)) (v : Value) (live : m.cells i = .live key v)
      (chain : Chain (path bits probe) m.cells key i) : Probed m key (.ok i)
  | fresh (i : Fin (2 ^ bits)) (empty : m.cells i = .empty)
      (chain : Chain (path bits probe) m.cells key i)
      (unmet : ∀ s, ¬ Meets probe m.cells key s) (absent : ¬ Reached probe m.cells key) :
      Probed m key (.ok i)
  | reuse (i : Fin (2 ^ bits)) (met : Meets probe m.cells key i)
      (chain : Chain (path bits probe) m.cells key i) (absent : ¬ Reached probe m.cells key) :
      Probed m key (.ok i)
  | full (full : ∀ s, ∃ k v, m.cells s = .live k v ∧ k ≠ key) : Probed m key (.error .saturated)

theorem probeForSlotIdx_outcome (m : OpenAddressMap bits Key Value probe rehashes) (key : Key) :
    Outcome probe m.cells key m.tombstone (m.probeForSlotIdx key).1
      (m.probeForSlotIdx key).2.tombstone := by
  obtain ⟨period, hle, htour⟩ := probe.tour (hash bits key)
  apply probeLoop_outcome htour _ 0 (by omega) htour.pos
  intro i hi
  omega

theorem probeForSlotIdx_probed (m : OpenAddressMap bits Key Value probe rehashes) (key : Key) :
    Probed m key (m.probeForSlotIdx key).1 := by
  have hloc := probeForSlotIdx_located m key
  have hout := probeForSlotIdx_outcome m key
  cases hr : (m.probeForSlotIdx key).1 with
  | error fault =>
    rw [hr] at hloc
    obtain ⟨rfl, hfull⟩ := hloc
    exact .full hfull
  | ok i =>
    rw [hr] at hloc hout
    obtain ⟨hchain, ⟨v, hlive⟩ | ⟨hfree, habsent⟩⟩ := hloc
    · exact .found i v hlive hchain
    · have hreached : ¬ Reached probe m.cells key := by
        rintro ⟨t, v, hlive, ht⟩
        exact habsent t v hlive ht
      generalize (m.probeForSlotIdx key).2.tombstone = counter at hout
      cases hout with
      | unmet hunmet hresult =>
        obtain hempty | ⟨v, hlive⟩ := hresult i rfl
        · exact .fresh i hempty hchain hunmet hreached
        · exact absurd hlive (hfree key v)
      | met s hmet hresult =>
        obtain rfl | ⟨v, hlive⟩ := hresult i rfl
        · exact .reuse i hmet hchain hreached
        · exact absurd hlive (hfree key v)

theorem probeForSlotIdx_unmet (h : ∀ s, ¬ Meets probe m.cells key s) :
    (m.probeForSlotIdx key).2 = m := by
  have hout := probeForSlotIdx_outcome m key
  change (⟨m.table, (m.probeForSlotIdx key).2.tombstone⟩ : OpenAddressMap _ _ _ _ _) = m
  generalize (m.probeForSlotIdx key).2.tombstone = counter at hout ⊢
  cases hout with
  | unmet => rfl
  | met s hmet => exact absurd hmet (h s)

theorem probeForSlotIdx_met (h : Meets probe m.cells key s) :
    (m.probeForSlotIdx key).2 = { m with tombstone := m.tombstone - 1 } := by
  have hout := probeForSlotIdx_outcome m key
  change (⟨m.table, (m.probeForSlotIdx key).2.tombstone⟩ : OpenAddressMap _ _ _ _ _) = _
  generalize (m.probeForSlotIdx key).2.tombstone = counter at hout ⊢
  cases hout with
  | unmet hunmet => exact absurd h (hunmet s)
  | met => rfl

theorem probeForSlotIdx_full (h : ∀ s, ∃ k v, m.cells s = .live k v ∧ k ≠ key) :
    m.probeForSlotIdx key = (.error .saturated, m) := by
  have hprobed := probeForSlotIdx_probed m key
  have hstate : (m.probeForSlotIdx key).2 = m := by
    apply probeForSlotIdx_unmet
    rintro s ⟨-, -, hdead, -⟩
    obtain ⟨k, v, hlive, -⟩ := h s
    simp [hdead] at hlive
  have hresult : (m.probeForSlotIdx key).1 = .error .saturated := by
    generalize (m.probeForSlotIdx key).1 = r at hprobed ⊢
    cases hprobed with
    | found i v hlive =>
      obtain ⟨k, w, hother, hne⟩ := h i
      rw [hlive] at hother
      exact absurd (Cell.live.inj hother).1.symm hne
    | fresh i hempty =>
      obtain ⟨k, v, hlive, -⟩ := h i
      simp [hempty] at hlive
    | reuse i hmet =>
      obtain ⟨-, -, hdead, -⟩ := hmet
      obtain ⟨k, v, hlive, -⟩ := h i
      simp [hdead] at hlive
    | full => rfl
  exact Prod.ext hresult hstate

/-! ## What the operations return -/

theorem find_eq (m : OpenAddressMap bits Key Value probe rehashes) (key : Key) :
    (m.find key).2 = (m.probeForSlotIdx key).2 := by
  unfold find
  split
  · rename_i h
    rw [h]
  · rename_i h
    dsimp only
    split
    · rw [h]
    · rw [h]

theorem find_table (m : OpenAddressMap bits Key Value probe rehashes) (key : Key) :
    (m.find key).2.table = m.table := by
  rw [find_eq, probeForSlotIdx_table]

theorem find_reached (h : Reached probe m.cells key) :
    ∃ s v, (m.find key).1 = .ok (some s) ∧ m.cells s = .live key v := by
  have hprobed := probeForSlotIdx_probed m key
  have htable := probeForSlotIdx_table m key
  unfold find
  cases hp : m.probeForSlotIdx key with
  | mk r m' =>
    rw [hp] at hprobed htable
    dsimp only at hprobed htable
    cases hprobed with
    | found i v hlive =>
      have hl := Slot.cell_eq_live.mp hlive
      refine ⟨i, v, ?_, hlive⟩
      simp [htable, hl.1, hl.2.1]
    | fresh i _ _ _ habsent => exact absurd h habsent
    | reuse i _ _ habsent => exact absurd h habsent
    | full hfull =>
      obtain ⟨s, v, hlive, -⟩ := h
      obtain ⟨k, w, hother, hne⟩ := hfull s
      rw [hlive] at hother
      exact absurd (Cell.live.inj hother).1.symm hne

theorem find_full (h : ∀ s, ∃ k v, m.cells s = .live k v ∧ k ≠ key) :
    m.find key = (.error .saturated, m) := by
  unfold find
  rw [probeForSlotIdx_full h]

theorem find_unreached (h : ¬ Reached probe m.cells key) :
    (m.find key).1 = .ok none ∨
      (m.find key).1 = .error .saturated ∧ ∀ s, ∃ k v, m.cells s = .live k v ∧ k ≠ key := by
  have hprobed := probeForSlotIdx_probed m key
  have htable := probeForSlotIdx_table m key
  unfold find
  cases hp : m.probeForSlotIdx key with
  | mk r m' =>
    rw [hp] at hprobed htable
    dsimp only at hprobed htable
    cases hprobed with
    | found i v hlive hchain => exact absurd ⟨i, v, hlive, hchain⟩ h
    | fresh i hempty =>
      have hstate := Slot.cell_eq_empty.mp hempty
      left
      simp [htable, hstate]
    | reuse i hmet =>
      obtain ⟨-, -, hdead, -⟩ := hmet
      have hstate := Slot.cell_eq_dead.mp hdead
      left
      simp [htable, hstate]
    | full hfull => exact Or.inr ⟨rfl, hfull⟩

end Operations

end OpenAddressMap

end ItchOrderBook.Util

import ItchOrderBook.Util.OpenAddressMapCalls
import ItchOrderBook.Util.OpenAddressMapRehash
import Mathlib.Data.Finset.Card

/-! # The tombstone counter

`tombstone_` is lowered by every probe that meets a tombstone, though only an insertion
that takes the tombstone's slot makes one less. The calls that put the counter out of
step with the table are those below, for both settings of `Rehash`.
-/
namespace ItchOrderBook.Util
open OpenAddressing

namespace OpenAddressMap

variable {bits : ℕ} {Key Value : Type} {probe : Probe} {rehashes : Bool}

/-- The slots whose state is `TOMBSTONE`. -/
def tombstones (table : Fin (2 ^ bits) → Slot Key Value) : Finset (Fin (2 ^ bits)) :=
  {i | (table i).state = .tombstone}

section Tombstones
variable {table : Fin (2 ^ bits) → Slot Key Value} {i : Fin (2 ^ bits)} {slot : Slot Key Value}

@[simp] theorem mem_tombstones : i ∈ tombstones table ↔ (table i).state = .tombstone := by
  simp [tombstones]

theorem tombstones_bury (hslot : slot.state = .tombstone) :
    tombstones (Function.update table i slot) = insert i (tombstones table) := by
  ext j
  by_cases hj : j = i
  · subst hj
    simp [hslot]
  · simp [hj]

theorem tombstones_take (hslot : slot.state ≠ .tombstone) :
    tombstones (Function.update table i slot) = (tombstones table).erase i := by
  ext j
  by_cases hj : j = i
  · subst hj
    simp [hslot]
  · simp [hj]

theorem tombstones_congr {table' : Fin (2 ^ bits) → Slot Key Value}
    (h : ∀ j, (table' j).state = (table j).state) : tombstones table' = tombstones table := by
  ext j
  simp [h]

theorem tombstones_le (table : Fin (2 ^ bits) → Slot Key Value) :
    (tombstones table).card ≤ 2 ^ bits := by
  simpa using Finset.card_le_univ (tombstones table)

end Tombstones

/-- `tombstone_` is the number of tombstones. -/
def Counted (m : OpenAddressMap bits Key Value probe rehashes) : Prop :=
  m.tombstone.toNat = (tombstones m.table).card

/-- More than a quarter of the slots are tombstones, and the map rehashes. -/
def Crowded (m : OpenAddressMap bits Key Value probe rehashes) : Prop :=
  rehashes = true ∧ 2 ^ bits >>> 2 < (tombstones m.table).card

section Counting
variable {m : OpenAddressMap bits Key Value probe rehashes} {i : Fin (2 ^ bits)}

theorem setValue_state (m : OpenAddressMap bits Key Value probe rehashes) (idx : Fin (2 ^ bits))
    (value : Value) (j : Fin (2 ^ bits)) :
    ((m.setValue idx value).table j).state = (m.table j).state := by
  by_cases hj : j = idx
  · simp [setValue, hj]
  · simp [setValue, hj]

theorem Counted.rehashDue_iff (hm : Counted m) : m.rehashDue = true ↔ Crowded m := by
  unfold rehashDue Crowded
  rw [hm]
  simp

theorem Counted.add_one (hbits : bits < 64) (hm : Counted m) :
    (m.tombstone + 1).toNat = (tombstones m.table).card + 1 := by
  have hle := tombstones_le m.table
  have hcapacity : 2 ^ bits ≤ 2 ^ 63 := Nat.pow_le_pow_right (by decide) (by omega)
  rw [UInt64.toNat_add, hm]
  exact Nat.mod_eq_of_lt (by simp; omega)

theorem Counted.bury (hbits : bits < 64) (hm : Counted m)
    (hi : (m.table i).state ≠ .tombstone) : Counted (m.bury i) := by
  have hnew : i ∉ tombstones m.table := by simp [hi]
  have hcard : (tombstones (m.bury i).table).card = (tombstones m.table).card + 1 := by
    rw [← Finset.card_insert_of_notMem hnew]
    exact congrArg Finset.card (tombstones_bury rfl)
  exact (hm.add_one hbits).trans hcard.symm

variable [SizeKey Key] {key : Key} {s : Fin (2 ^ bits)}

theorem Counted.of_rehash {m' : OpenAddressMap bits Key Value probe rehashes}
    (h : m.rehash = some m') : Counted m' := by
  rw [rehash_eq] at h
  obtain rfl := Option.some.inj h
  have hnone : tombstones (loopTable probe m.table (2 ^ bits)) = ∅ := by
    ext j
    simpa [cellsOf] using loopTable_notDead m.table (2 ^ bits) j
  unfold Counted
  simp [hnone]

/-- A counter that is right is positive where a tombstone is met, so one less is wrong. -/
theorem Counted.sub_one (hm : Counted m) (hmet : Meets probe m.cells key s) :
    (m.tombstone - 1).toNat + 1 = (tombstones m.table).card := by
  obtain ⟨-, -, hdead, -⟩ := hmet
  have hmem : s ∈ tombstones m.table := mem_tombstones.mpr (Slot.cell_eq_dead.mp hdead)
  have hpos : 0 < m.tombstone.toNat := by
    rw [hm]
    exact Finset.card_pos.mpr ⟨s, hmem⟩
  have hle : (1 : UInt64) ≤ m.tombstone := UInt64.le_iff_toNat_le.mpr hpos
  rw [UInt64.toNat_sub_of_le _ _ hle, ← hm]
  change m.tombstone.toNat - 1 + 1 = _
  omega

end Counting

/-! ## One call -/

section Step
variable [DecidableEq Key] [SizeKey Key] {m : OpenAddressMap bits Key Value probe rehashes}

/-- The calls that put the counter out of step: the probe meets a tombstone that the call
does not reuse, or a slot is erased that is a tombstone already, and no rehash that is due
anyway covers it up. -/
def Drifts (m : OpenAddressMap bits Key Value probe rehashes) : MapCall bits Key Value → Prop
  | .subscript key => Reached probe m.cells key ∧ ∃ s, Meets probe m.cells key s
  | .find key => ∃ s, Meets probe m.cells key s
  | .eraseHandle idx => (m.table idx).state = .tombstone ∧ ¬ Crowded m
  | .erase key => (∃ s, Meets probe m.cells key s) ∧ ¬ (Reached probe m.cells key ∧ Crowded m)
  | .write _ _ => False

/-- `find` leaves the map as it was, and an erase rehashes exactly if the map is crowded
once the slot is marked. -/
def Truthful (m : OpenAddressMap bits Key Value probe rehashes) : MapCall bits Key Value → Prop
  | .find key => (m.find key).2 = m
  | .eraseHandle idx => (m.bury idx).rehashDue = true ↔ Crowded (m.bury idx)
  | .erase key => ∀ idx, (m.find key).1 = .ok (some idx) →
    (((m.find key).2.bury idx).rehashDue = true ↔ Crowded ((m.find key).2.bury idx))
  | .subscript _ | .write _ _ => True

omit [DecidableEq Key] in
theorem not_drifts_of_no_tombstone (h : tombstones m.table = ∅) (call : MapCall bits Key Value) :
    ¬ Drifts m call := by
  have hunmet : ∀ key, ¬ ∃ s, Meets probe m.cells key s := by
    rintro key ⟨s, -, -, hdead, -⟩
    have hmem : s ∈ tombstones m.table := mem_tombstones.mpr (Slot.cell_eq_dead.mp hdead)
    simp [h] at hmem
  cases call with
  | subscript key => exact fun hdrift => hunmet key hdrift.2
  | write => exact id
  | find key => exact hunmet key
  | eraseHandle idx =>
    rintro ⟨hstate, -⟩
    have hmem : idx ∈ tombstones m.table := mem_tombstones.mpr hstate
    simp [h] at hmem
  | erase key => exact fun hdrift => hunmet key hdrift.1

theorem counted_subscript (hm : Counted m) (key : Key) :
    Counted (m.subscript key).2 ↔ ¬ Drifts m (.subscript key) := by
  have hprobed := probeForSlotIdx_probed m key
  cases hr : (m.probeForSlotIdx key).1 with
  | error fault =>
    rw [hr] at hprobed
    cases hprobed with
    | full hfull =>
      have hkept : (m.subscript key).2 = m := by
        rw [subscript_error hr, probeForSlotIdx_full hfull]
      have hunmet : ∀ s, ¬ Meets probe m.cells key s := by
        rintro s ⟨-, -, hdead, -⟩
        obtain ⟨k, v, hlive, -⟩ := hfull s
        simp [hdead] at hlive
      rw [hkept]
      exact ⟨fun _ ⟨_, s, hmet⟩ => hunmet s hmet, fun _ => hm⟩
  | ok i =>
    rw [hr] at hprobed
    obtain ⟨-, hcount, htable⟩ := subscript_ok hr
    have htake : tombstones (m.subscript key).2.table = (tombstones m.table).erase i := by
      rw [htable]
      exact tombstones_take (by simp)
    unfold Counted
    rw [hcount, htake]
    cases hprobed with
    | found i v hlive hchain =>
      have hkeep : (tombstones m.table).erase i = tombstones m.table := by
        simp [(Slot.cell_eq_live.mp hlive).1]
      rw [hkeep]
      constructor
      · rintro hcounted ⟨-, s, hmet⟩
        rw [probeForSlotIdx_met hmet] at hcounted
        change (m.tombstone - 1).toNat = _ at hcounted
        have hless := hm.sub_one hmet
        omega
      · intro hdrift
        rw [probeForSlotIdx_unmet fun s hmet => hdrift ⟨⟨i, v, hlive, hchain⟩, s, hmet⟩]
        exact hm
    | fresh i hempty hchain hunmet =>
      have hkeep : (tombstones m.table).erase i = tombstones m.table := by
        simp [Slot.cell_eq_empty.mp hempty]
      rw [hkeep, probeForSlotIdx_unmet hunmet]
      exact ⟨fun _ ⟨_, s, hmet⟩ => hunmet s hmet, fun _ => hm⟩
    | reuse i hmet hchain habsent =>
      rw [probeForSlotIdx_met hmet]
      have hless := hm.sub_one hmet
      have hmem : i ∈ tombstones m.table := by
        obtain ⟨-, -, hdead, -⟩ := hmet
        exact mem_tombstones.mpr (Slot.cell_eq_dead.mp hdead)
      refine ⟨fun _ ⟨hreached, _⟩ => habsent hreached, fun _ => ?_⟩
      rw [Finset.card_erase_of_mem hmem]
      change (m.tombstone - 1).toNat = _
      omega

omit [DecidableEq Key] in
theorem counted_of_due {i : Fin (2 ^ bits)} (hdue : (m.bury i).rehashDue = true) :
    Counted (m.eraseHandle (some i)).2 := by
  unfold eraseHandle
  dsimp only
  rw [if_pos hdue]
  cases hr : (m.bury i).rehash with
  | none =>
    rw [rehash_eq] at hr
    cases hr
  | some m' => exact Counted.of_rehash hr

omit [DecidableEq Key] in
theorem counted_eraseHandle {i : Fin (2 ^ bits)} (h : Counted (m.bury i)) :
    Counted (m.eraseHandle (some i)).2 := by
  by_cases hdue : (m.bury i).rehashDue = true
  · exact counted_of_due hdue
  · simpa [eraseHandle, hdue] using h

theorem counted_find (hm : Counted m) (key : Key) :
    (Counted (m.find key).2 ↔ ¬ ∃ s, Meets probe m.cells key s) ∧
      ((m.find key).2 = m ↔ ¬ ∃ s, Meets probe m.cells key s) := by
  rw [find_eq]
  by_cases hmet : ∃ s, Meets probe m.cells key s
  · obtain ⟨s, hs⟩ := hmet
    have hless := hm.sub_one hs
    have hdrift : ¬ Counted (m.probeForSlotIdx key).2 := by
      rw [probeForSlotIdx_met hs]
      change ¬ (m.tombstone - 1).toNat = (tombstones m.table).card
      omega
    have hmoved : (m.probeForSlotIdx key).2 ≠ m := by
      intro hkept
      rw [hkept] at hdrift
      exact hdrift hm
    simp [hdrift, hmoved, Exists.intro s hs]
  · rw [probeForSlotIdx_unmet fun s hs => hmet ⟨s, hs⟩]
    simp [hm, hmet]

/-- The counter right after an erase has marked slot `i`, if its lookup met a tombstone. -/
theorem buried_met {key : Key} {s i : Fin (2 ^ bits)} (hmet : Meets probe m.cells key s)
    (hi : (m.table i).state = .occupied) :
    ((m.find key).2.bury i).tombstone = m.tombstone ∧
      (tombstones ((m.find key).2.bury i).table).card = (tombstones m.table).card + 1 := by
  rw [find_eq, probeForSlotIdx_met hmet]
  constructor
  · exact UInt64.sub_add_cancel m.tombstone 1
  · have hnew : i ∉ tombstones m.table := by simp [hi]
    rw [← Finset.card_insert_of_notMem hnew]
    exact congrArg Finset.card (tombstones_bury rfl)

/-- After a lookup that met a tombstone the counter lags one behind, which only a rehash
that is due anyway covers up. -/
theorem counted_erase_met {key : Key} {s i : Fin (2 ^ bits)} (hm : Counted m)
    (hmet : Meets probe m.cells key s) (hi : (m.table i).state = .occupied) :
    Counted ((m.find key).2.eraseHandle (some i)).2 ∧
      (((m.find key).2.bury i).rehashDue = true ↔ Crowded ((m.find key).2.bury i)) ↔
        Crowded m := by
  obtain ⟨hcount, hcard⟩ := buried_met hmet hi
  have hdue : ((m.find key).2.bury i).rehashDue = m.rehashDue := by
    unfold rehashDue
    rw [hcount]
  by_cases hcrowded : Crowded m
  · have hdue' : ((m.find key).2.bury i).rehashDue = true := hdue.trans (hm.rehashDue_iff.mpr hcrowded)
    have hcrowded' : Crowded ((m.find key).2.bury i) := by
      refine ⟨hcrowded.1, ?_⟩
      rw [hcard]
      exact hcrowded.2.trans (Nat.lt_succ_self _)
    simp [counted_of_due hdue', hdue', hcrowded', hcrowded]
  · have hdue' : m.rehashDue = false := by simpa using mt hm.rehashDue_iff.mp hcrowded
    have hdrift : ¬ Counted ((m.find key).2.bury i) := by
      unfold Counted
      rw [hcount, hcard, hm]
      omega
    simp [eraseHandle, hdue, hdue', hdrift, hcrowded]

theorem counted_erase (hbits : bits < 64) (hm : Counted m) (key : Key) :
    Counted (m.erase key).2 ∧ Truthful m (.erase key) ↔ ¬ Drifts m (.erase key) := by
  obtain ⟨hfind, hkept⟩ := counted_find hm key
  dsimp only [Drifts, Truthful]
  by_cases hreached : Reached probe m.cells key
  · obtain ⟨i, v, hresult, hlive⟩ := find_reached hreached
    have hi := (Slot.cell_eq_live.mp hlive).1
    have herase : m.erase key = (m.find key).2.eraseHandle (some i) := by rw [erase_eq, hresult]
    rw [herase, hresult]
    by_cases hmet : ∃ s, Meets probe m.cells key s
    · obtain ⟨s, hs⟩ := hmet
      simpa [hreached, Exists.intro s hs] using counted_erase_met hm hs hi
    · have hsame : (m.find key).2 = m := hkept.mpr hmet
      have hburied := hm.bury hbits (show (m.table i).state ≠ .tombstone by simp [hi])
      rw [hsame]
      simp [counted_eraseHandle hburied, hburied.rehashDue_iff, hmet]
  · have hresult : ∀ i, (m.find key).1 ≠ .ok (some i) := by
      intro i
      obtain hnone | ⟨hfault, -⟩ := find_unreached hreached
      · simp [hnone]
      · simp [hfault]
    have herase : (m.erase key).2 = (m.find key).2 := by
      rw [erase_eq]
      split
      · rfl
      · rfl
      · rename_i i hi
        exact absurd hi (hresult i)
    rw [herase, hfind]
    simp [hresult, hreached]

/-- A slot that is erased again is counted again, but no tombstone more. -/
theorem counted_eraseHandle_iff (hbits : bits < 64) (hm : Counted m) (idx : Fin (2 ^ bits)) :
    Counted (m.eraseHandle (some idx)).2 ∧ Truthful m (.eraseHandle idx) ↔
      ¬ Drifts m (.eraseHandle idx) := by
  dsimp only [Drifts, Truthful]
  by_cases hstate : (m.table idx).state = .tombstone
  · have hsame : tombstones (m.bury idx).table = tombstones m.table := by
      change tombstones (Function.update m.table idx { m.table idx with state := .tombstone }) = _
      rw [tombstones_bury rfl]
      exact Finset.insert_eq_of_mem (mem_tombstones.mpr hstate)
    have hcrowded : Crowded (m.bury idx) ↔ Crowded m := by rw [Crowded, hsame, Crowded]
    have hcount : (m.bury idx).tombstone.toNat = (tombstones m.table).card + 1 := hm.add_one hbits
    have hdrift : ¬ Counted (m.bury idx) := by
      unfold Counted
      rw [hcount, hsame]
      omega
    rw [hcrowded, and_iff_right hstate, not_not]
    by_cases hdue : (m.bury idx).rehashDue = true
    · rw [iff_true_left hdue]
      exact and_iff_right (counted_of_due hdue)
    · have hsparse : ¬ Crowded m := by
        rintro ⟨hrehashes, hlt⟩
        apply hdue
        unfold rehashDue
        simp [hrehashes, hcount]
        omega
      simp [eraseHandle, hdue, hdrift, hsparse]
  · have hburied := hm.bury hbits hstate
    simp [counted_eraseHandle hburied, hburied.rehashDue_iff, hstate]

/-- A call keeps the counter right and does what it should by it exactly if it does not
drift. -/
theorem step_iff (hbits : bits < 64) (hm : Counted m) (call : MapCall bits Key Value) :
    Counted (m.perform call) ∧ Truthful m call ↔ ¬ Drifts m call := by
  cases call with
  | subscript key =>
    have hstep := counted_subscript hm key
    simpa [perform, Truthful] using hstep
  | write idx value =>
    have hcounted : Counted (m.perform (.write idx value)) := by
      dsimp only [perform]
      split
      · exact hm
      · unfold Counted
        rw [tombstones_congr (setValue_state m idx value)]
        exact hm
    simpa [Truthful, Drifts] using hcounted
  | find key =>
    obtain ⟨hcounted, hkept⟩ := counted_find hm key
    change Counted (m.find key).2 ∧ (m.find key).2 = m ↔ _
    rw [hcounted, hkept, and_self]
    rfl
  | eraseHandle idx => exact counted_eraseHandle_iff hbits hm idx
  | erase key => exact counted_erase hbits hm key

end Step

/-! ## Runs -/

section Runs
variable [DecidableEq Key] [SizeKey Key] [Inhabited Key] [Inhabited Value]

theorem reached_nil_counted :
    Counted (reached probe rehashes ([] : List (MapCall bits Key Value))) := by
  have hnone : tombstones (fun _ : Fin (2 ^ bits) => (default : Slot Key Value)) = ∅ := by
    ext i
    simp only [mem_tombstones, Finset.notMem_empty, iff_false]
    intro hstate
    cases hstate
  change (0 : UInt64).toNat = (tombstones fun _ => default).card
  rw [hnone]
  rfl

/-- In every state a run reaches `tombstone_` counts the tombstones, its lookups change
nothing and its erases rehash when the table is crowded, if and only if no call of the
run drifts. -/
theorem counter_exact_iff (probe : Probe) (rehashes : Bool) (hbits : bits < 64)
    (calls : List (MapCall bits Key Value)) :
    ((∀ earlier, earlier <+: calls → Counted (reached probe rehashes earlier)) ∧
      ∀ earlier call, earlier ++ [call] <+: calls → Truthful (reached probe rehashes earlier) call) ↔
    ∀ earlier call, earlier ++ [call] <+: calls → ¬ Drifts (reached probe rehashes earlier) call := by
  constructor
  · rintro ⟨hcounted, htruthful⟩ earlier call hprefix
    have hbefore := hcounted earlier ((List.prefix_append earlier [call]).trans hprefix)
    have hafter := hcounted (earlier ++ [call]) hprefix
    rw [reached_concat] at hafter
    exact (step_iff hbits hbefore call).mp ⟨hafter, htruthful earlier call hprefix⟩
  · intro hdrift
    have hcounted : ∀ earlier, earlier <+: calls → Counted (reached probe rehashes earlier) := by
      intro earlier
      induction earlier using List.reverseRecOn with
      | nil => exact fun _ => reached_nil_counted
      | append_singleton earlier call ih =>
        intro hprefix
        rw [reached_concat]
        have hbefore := ih ((List.prefix_append earlier [call]).trans hprefix)
        exact ((step_iff hbits hbefore call).mpr (hdrift earlier call hprefix)).1
    refine ⟨hcounted, fun earlier call hprefix => ?_⟩
    have hbefore := hcounted earlier ((List.prefix_append earlier [call]).trans hprefix)
    exact ((step_iff hbits hbefore call).mpr (hdrift earlier call hprefix)).2

end Runs

/-- Key 5 lies behind the tombstone of key 1, and is looked up twice. -/
def lookupsPastTombstone : List (MapCall 2 UInt64 ℕ) :=
  [.subscript 1, .subscript 5, .erase 1, .find 5, .find 5]

/-- The counter has wrapped below zero, with one tombstone in the table. -/
theorem lookupsPastTombstone_wraps :
    let m : OpenAddressMap 2 UInt64 ℕ linearProbe true :=
      reached linearProbe true lookupsPastTombstone
    let m' : OpenAddressMap 2 UInt64 ℕ linearProbe false :=
      reached linearProbe false lookupsPastTombstone
    m.tombstone.toNat = 2 ^ 64 - 1 ∧ (tombstones m.table).card = 1 ∧
      m'.tombstone.toNat = 2 ^ 64 - 1 ∧ (tombstones m'.table).card = 1 := by
  decide +kernel

/-- Key 1 is erased and stored again in the slot it left. -/
def storedAgain : List (MapCall 2 UInt64 ℕ) := [.subscript 1, .erase 1, .subscript 1]

theorem storedAgain_counted :
    let m : OpenAddressMap 2 UInt64 ℕ linearProbe true := reached linearProbe true storedAgain
    Counted m ∧ m.tombstone = 0 := by
  refine ⟨?_, by decide⟩
  apply ((counter_exact_iff linearProbe true (by decide) storedAgain).mpr ?_).1 _ List.prefix_rfl
  intro earlier call hprefix
  match earlier with
  | [] => exact not_drifts_of_no_tombstone (by decide) call
  | [first] =>
    obtain ⟨rfl, -⟩ : first = .subscript 1 ∧ call = .erase 1 := by simpa [storedAgain] using hprefix
    exact not_drifts_of_no_tombstone (by decide) call
  | [first, second] =>
    obtain ⟨rfl, rfl, rfl⟩ : first = .subscript 1 ∧ second = .erase 1 ∧ call = .subscript 1 := by
      simpa [storedAgain] using hprefix
    rintro ⟨⟨s, v, hlive, -⟩, -⟩
    have hstate : ∀ s, ((reached linearProbe true [.subscript 1, .erase 1] :
        OpenAddressMap 2 UInt64 ℕ linearProbe true).table s).state ≠ .occupied := by decide
    exact hstate s (Slot.cell_eq_live.mp hlive).1
  | first :: second :: third :: rest =>
    have hlength := hprefix.length_le
    simp [storedAgain] at hlength
    omega

end OpenAddressMap

end ItchOrderBook.Util

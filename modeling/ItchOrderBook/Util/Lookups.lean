import ItchOrderBook.Util.OpenAddressMapCalls

/-! # Absent keys

What `find`, `erase` and `operator[]` do with a key that is not live, in any state that
calls without rehashing can reach. `find` and `erase` throw when the table is full, and
`operator[]` returns what is left in the tombstone it takes.
-/
namespace ItchOrderBook.Util
open OpenAddressing

namespace OpenAddressMap

variable {bits : ℕ} {Key Value : Type} {probe : Probe} [DecidableEq Key] [SizeKey Key]
  {m : OpenAddressMap bits Key Value probe false} {key : Key}

/-! ## `find` and `erase` -/

theorem find_absent (hm : m.Sound) (h : key ∉ m.liveKeys) :
    (m.find key).1 = .ok none ↔ m.liveKeys.ncard < 2 ^ bits := by
  constructor
  · intro hfind
    by_contra hlt
    rw [find_full (full_of_not_lt hm hlt h)] at hfind
    cases hfind
  · intro hlt
    obtain ⟨s, hs⟩ := (ncard_liveKeys_lt_iff hm).mp hlt
    obtain hnone | ⟨-, hfull⟩ := find_unreached (mt (reached_iff hm).mp h)
    · exact hnone
    · obtain ⟨k, v, hlive, -⟩ := hfull s
      exact absurd (Slot.cell_eq_live.mp hlive).1 hs

theorem erase_of_find (h : (m.find key).1 = .ok none) : m.erase key = (.ok (), (m.find key).2) := by
  rw [erase_eq, h]

theorem find_state_iff :
    (m.find key).2 = m ↔ ∀ s, ¬ Meets probe m.cells key s := by
  rw [find_eq]
  constructor
  · intro hstate s hmet
    rw [probeForSlotIdx_met hmet] at hstate
    have hcount : m.tombstone - 1 = m.tombstone := congrArg tombstone hstate
    grind
  · exact probeForSlotIdx_unmet

/-! ## `operator[]` -/

/-- `operator[]` throws when the table is full of other keys, and changes nothing then. -/
theorem subscript_absent (hm : m.Sound) (h : key ∉ m.liveKeys)
    (hlt : ¬ m.liveKeys.ncard < 2 ^ bits) : m.subscript key = (.error .saturated, m) := by
  have hfull := probeForSlotIdx_full (full_of_not_lt hm hlt h)
  rw [subscript_error (congrArg Prod.fst hfull), hfull]

theorem subscript_succeeds (hm : m.Sound) (key : Key)
    (h : key ∈ m.liveKeys ∨ m.liveKeys.ncard < 2 ^ bits) : ∃ i, (m.subscript key).1 = .ok i := by
  have hprobed := probeForSlotIdx_probed m key
  cases hr : (m.probeForSlotIdx key).1 with
  | ok i => exact ⟨i, (subscript_ok hr).1⟩
  | error fault =>
    rw [hr] at hprobed
    cases hprobed with
    | full hfull =>
      rcases h with h | h
      · obtain ⟨s, v, hlive⟩ := mem_liveKeys.mp h
        obtain ⟨k, w, hother, hne⟩ := hfull s
        rw [hlive] at hother
        exact absurd (Cell.live.inj hother).1.symm hne
      · obtain ⟨s, hs⟩ := (ncard_liveKeys_lt_iff hm).mp h
        obtain ⟨k, v, hlive, -⟩ := hfull s
        exact absurd (Slot.cell_eq_live.mp hlive).1 hs

theorem subscript_throws (hm : m.Sound) {fault : MapFault}
    (h : (m.subscript key).1 = .error fault) :
    (key ∉ m.liveKeys ∧ ¬ m.liveKeys.ncard < 2 ^ bits) ∧ m.subscript key = (.error .saturated, m) := by
  have hfull : key ∉ m.liveKeys ∧ ¬ m.liveKeys.ncard < 2 ^ bits := by
    rw [← not_or]
    intro hroom
    obtain ⟨i, hok⟩ := subscript_succeeds hm key hroom
    rw [hok] at h
    cases h
  exact ⟨hfull, subscript_absent hm hfull.1 hfull.2⟩

theorem subscript_throws_iff (hm : m.Sound) (key : Key) :
    (∃ fault, (m.subscript key).1 = .error fault) ↔
      m.liveKeys.ncard = 2 ^ bits ∧ key ∉ m.liveKeys := by
  constructor
  · rintro ⟨fault, hthrows⟩
    obtain ⟨⟨habsent, hlt⟩, -⟩ := subscript_throws hm hthrows
    exact ⟨le_antisymm (ncard_liveKeys_le m) (not_lt.mp hlt), habsent⟩
  · rintro ⟨hfull, habsent⟩
    have hlt : ¬ m.liveKeys.ncard < 2 ^ bits := not_lt.mpr hfull.ge
    exact ⟨.saturated, by rw [subscript_absent hm habsent hlt]⟩

theorem assign_throws (hm : m.Sound) {value : Value} {fault : MapFault}
    (h : (m.assign key value).1 = .error fault) : m.assign key value = (.error .saturated, m) := by
  unfold assign at h ⊢
  cases hs : m.subscript key with
  | mk r m' =>
    rw [hs] at h
    cases r with
    | ok i => cases h
    | error fault' =>
      obtain ⟨-, hstate⟩ := subscript_throws hm (congrArg Prod.fst hs)
      rw [hs] at hstate
      obtain ⟨hfault, rfl⟩ := Prod.mk.inj hstate
      rw [Except.error.inj hfault]

/-- There is room for a key where some slot is not taken. -/
theorem assign_of_room (hm : m.Sound) (value : Value) {s : Fin (2 ^ bits)}
    (hs : (m.table s).state ≠ .occupied) : (m.assign key value).1 = .ok () := by
  cases hr : (m.assign key value).1 with
  | ok u => rfl
  | error fault =>
    have hlt := (ncard_liveKeys_lt_iff hm).mpr ⟨s, hs⟩
    obtain ⟨i, hok⟩ := subscript_succeeds hm key (Or.inr hlt)
    unfold assign at hr
    cases hsub : m.subscript key with
    | mk r m' =>
      rw [hsub] at hok hr
      dsimp only at hok
      subst hok
      cases hr

/-- The slot `operator[]` takes for a key that is not live: the first tombstone met, or
else an empty one. -/
theorem subscript_slot (hm : m.Sound) (h : key ∉ m.liveKeys) {i : Fin (2 ^ bits)}
    (hok : (m.subscript key).1 = .ok i) :
    ((m.subscript key).2.table i).value = (m.table i).value ∧
      (Meets probe m.cells key i ∨ (m.table i).state = .empty ∧ ∀ s, ¬ Meets probe m.cells key s) := by
  have hprobed := probeForSlotIdx_probed m key
  have hunreached := mt (reached_iff hm).mp h
  cases hr : (m.probeForSlotIdx key).1 with
  | error fault =>
    rw [subscript_error hr] at hok
    cases hok
  | ok j =>
    obtain ⟨hsame, -, htable⟩ := subscript_ok hr
    obtain rfl := Except.ok.inj (hsame.symm.trans hok)
    rw [hr] at hprobed
    constructor
    · rw [htable, Function.update_self]
    · cases hprobed with
      | found i v hlive hchain => exact absurd ⟨_, v, hlive, hchain⟩ hunreached
      | fresh i hempty hchain hunmet => exact Or.inr ⟨Slot.cell_eq_empty.mp hempty, hunmet⟩
      | reuse i hmet => exact Or.inl hmet

/-- No slot is written before it is taken. -/
def Untouched [Inhabited Value] (m : OpenAddressMap bits Key Value probe false) : Prop :=
  ∀ i, (m.table i).state = .empty → (m.table i).value = default

omit [DecidableEq Key] [SizeKey Key] in
theorem Untouched.update [Inhabited Value] (hm : m.Untouched)
    {m' : OpenAddressMap bits Key Value probe false} {i : Fin (2 ^ bits)} {slot : Slot Key Value}
    (h : m'.table = Function.update m.table i slot) (hslot : slot.state ≠ .empty) :
    m'.Untouched := by
  intro j hj
  by_cases hji : j = i
  · subst hji
    rw [h, Function.update_self] at hj
    exact absurd hj hslot
  · rw [h, Function.update_of_ne hji] at hj ⊢
    exact hm j hj

omit [DecidableEq Key] [SizeKey Key] in
theorem Untouched.of_table [Inhabited Value] (hm : m.Untouched)
    {m' : OpenAddressMap bits Key Value probe false} (h : m'.table = m.table) : m'.Untouched := by
  intro i hi
  rw [h] at hi ⊢
  exact hm i hi

theorem perform_untouched [Inhabited Value] (call : MapCall bits Key Value) (hm : m.Untouched) :
    (m.perform call).Untouched := by
  cases call with
  | subscript key =>
    cases hr : (m.probeForSlotIdx key).1 with
    | error fault =>
      apply hm.of_table
      change (m.subscript key).2.table = m.table
      rw [subscript_error hr, probeForSlotIdx_table]
    | ok i => exact hm.update (subscript_ok hr).2.2 (by simp)
  | write idx value =>
    dsimp only [perform]
    split
    · exact hm
    · rename_i htaken
      exact hm.update rfl fun hstate => htaken ⟨rfl, hstate⟩
  | find key => exact hm.of_table (find_table m key)
  | eraseHandle idx =>
    change (m.bury idx).Untouched
    exact hm.update rfl (by simp)
  | erase key =>
    have hfound : (m.find key).2.Untouched := hm.of_table (find_table m key)
    change (m.erase key).2.Untouched
    rw [erase_eq]
    split
    · exact hfound
    · exact hfound
    · exact hfound.update rfl (by simp)

section Reached
variable [Inhabited Key] [Inhabited Value]

/-- `find` and `erase` of a key that is not live return, with no handle and every slot as
it was, while fewer keys are live than there are slots. The counter, which only rehashing
reads, stays as well if no tombstone is met. -/
theorem lookups_total_iff (probe : Probe) (calls : List (MapCall bits Key Value)) (key : Key)
    (h : key ∉ (reached probe false calls).liveKeys) :
    let m := reached probe false calls
    ((m.find key).1 = .ok none ∧ (m.erase key).1 = .ok () ∧ (m.erase key).2.table = m.table ↔
      m.liveKeys.ncard < 2 ^ bits) ∧
    ((m.find key).1 = .ok none ∧ m.erase key = (.ok (), m) ↔
      m.liveKeys.ncard < 2 ^ bits ∧ ∀ s, ¬ Meets probe m.cells key s) := by
  intro m
  have hm : m.Sound := reached_sound calls
  have hfind := find_absent hm h
  constructor
  · constructor
    · rintro ⟨hnone, -, -⟩
      exact hfind.mp hnone
    · intro hlt
      have hnone := hfind.mpr hlt
      rw [erase_of_find hnone]
      exact ⟨hnone, rfl, find_table m key⟩
  · constructor
    · rintro ⟨hnone, herase⟩
      rw [erase_of_find hnone] at herase
      exact ⟨hfind.mp hnone, find_state_iff.mp (Prod.mk.inj herase).2⟩
    · rintro ⟨hlt, hunmet⟩
      have hnone := hfind.mpr hlt
      rw [erase_of_find hnone, find_state_iff.mpr hunmet]
      exact ⟨hnone, rfl⟩

theorem reached_untouched (calls : List (MapCall bits Key Value)) :
    (reached probe false calls).Untouched :=
  performAll_invariant (fun _ call hm => perform_untouched call hm) calls fun _ _ => rfl

/-- One of four slots is taken. -/
def roomyCalls : List (MapCall 2 UInt64 ℕ) := [.subscript 1, .write (hash 2 (1 : UInt64)) 10]

theorem roomyCalls_absent :
    5 ∉ (reached linearProbe false roomyCalls : OpenAddressMap 2 UInt64 ℕ linearProbe false).liveKeys := by
  rintro ⟨s, hs⟩
  revert s
  decide

theorem roomyCalls_unmet (s : Fin (2 ^ 2)) : ¬ Meets linearProbe
    (reached linearProbe false roomyCalls : OpenAddressMap 2 UInt64 ℕ linearProbe false).cells 5 s := by
  rintro ⟨-, -, hdead, -⟩
  have hstate : ∀ s, ((reached linearProbe false roomyCalls : OpenAddressMap 2 UInt64 ℕ linearProbe
      false).table s).state ≠ .tombstone := by
    decide
  exact hstate s (Slot.cell_eq_dead.mp hdead)

theorem roomyCalls_total :
    let m : OpenAddressMap 2 UInt64 ℕ linearProbe false := reached linearProbe false roomyCalls
    (m.find 5).1 = .ok none ∧ m.erase 5 = (.ok (), m) := by
  intro m
  have hroom : m.liveKeys.ncard < 2 ^ 2 :=
    (ncard_liveKeys_lt_iff (reached_sound roomyCalls)).mpr ⟨0, by decide⟩
  exact (lookups_total_iff linearProbe roomyCalls 5 roomyCalls_absent).2.mpr ⟨hroom, roomyCalls_unmet⟩

/-- Both slots of a table of two are taken. -/
def fullCalls : List (MapCall 1 UInt64 ℕ) := [.subscript 0, .subscript 1]

theorem fullCalls_throw :
    let m : OpenAddressMap 1 UInt64 ℕ linearProbe false := reached linearProbe false fullCalls
    2 ∉ m.liveKeys ∧ (m.find 2).1 = .error .saturated ∧ (m.erase 2).1 = .error .saturated := by
  refine ⟨?_, by decide, by decide⟩
  rintro ⟨s, hs⟩
  revert s
  decide

/-- The entry `operator[]` makes for a key that is not live reads as `Value{}` if the
first tombstone its probe meets has been left with that value, or it meets none. -/
theorem fresh_entry_iff (probe : Probe) (calls : List (MapCall bits Key Value)) (key : Key)
    (h : key ∉ (reached probe false calls).liveKeys) :
    let m := reached probe false calls
    (∀ i, (m.subscript key).1 = .ok i → ((m.subscript key).2.table i).value = default) ↔
      ∀ s, Meets probe m.cells key s → (m.table s).value = default := by
  intro m
  have hm : m.Sound := reached_sound calls
  constructor
  · intro hfresh s hmet
    have hroom : m.liveKeys.ncard < 2 ^ bits := by
      obtain ⟨-, -, hdead, -⟩ := hmet
      exact (ncard_liveKeys_lt_iff hm).mpr ⟨s, by simp [Slot.cell_eq_dead.mp hdead]⟩
    obtain ⟨i, hok⟩ := subscript_succeeds hm key (Or.inr hroom)
    obtain ⟨hvalue, hi | ⟨-, hunmet⟩⟩ := subscript_slot hm h hok
    · obtain rfl := hmet.unique hi
      rw [← hvalue]
      exact hfresh s hok
    · exact absurd hmet (hunmet s)
  · intro hleft i hok
    obtain ⟨hvalue, hi | ⟨hempty, -⟩⟩ := subscript_slot hm h hok
    · rw [hvalue]
      exact hleft i hi
    · rw [hvalue]
      exact reached_untouched calls i hempty

/-- Key 1 is stored with value 10 and erased. -/
def staleCalls : List (MapCall 2 UInt64 ℕ) := [.subscript 1, .write (hash 2 (1 : UInt64)) 10, .erase 1]

/-- Key 5 has never been inserted, and reads 10. -/
theorem staleCalls_not_fresh :
    let m : OpenAddressMap 2 UInt64 ℕ linearProbe false := reached linearProbe false staleCalls
    5 ∉ m.liveKeys ∧ (m.subscript 5).1 = .ok 1 ∧ ((m.subscript 5).2.table 1).value = 10 := by
  refine ⟨?_, by decide, by decide⟩
  rintro ⟨s, hs⟩
  revert s
  decide

theorem roomyCalls_fresh :
    let m : OpenAddressMap 2 UInt64 ℕ linearProbe false := reached linearProbe false roomyCalls
    (m.subscript 5).1 = .ok 2 ∧ ((m.subscript 5).2.table 2).value = 0 := by
  intro m
  have hok : (m.subscript 5).1 = .ok 2 := by decide
  exact ⟨hok, (fresh_entry_iff linearProbe roomyCalls 5 roomyCalls_absent).mpr
    (fun s hmet => absurd hmet (roomyCalls_unmet s)) 2 hok⟩

end Reached

end OpenAddressMap

end ItchOrderBook.Util

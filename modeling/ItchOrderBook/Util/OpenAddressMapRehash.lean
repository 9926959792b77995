import ItchOrderBook.Util.OpenAddressMapCalls
import ItchOrderBook.Foundation.InPlaceRehash

/-! # Rehashing on erase

The re-insertion loop is a pass over the table: it ends, keeps every key once and
keeps its value. Whether `find` still reaches every key is decided by the slots
the loop vacates. It does where no key has a slot in front of it that the loop comes to
later and may vacate, which can be told from the table before.
-/
namespace ItchOrderBook.Util
open OpenAddressing

namespace OpenAddressMap

variable {bits : ℕ} {Key Value : Type} {probe : Probe} {rehashes : Bool}

/-- `find` followed by reading through the handle it returns. -/
def lookup [DecidableEq Key] [SizeKey Key]
    (m : OpenAddressMap bits Key Value probe rehashes) (key : Key) :
    Except MapFault (Option Value) :=
  (m.find key).1.map fun h => h.map fun s => (m.table s).value

section Loop
variable [SizeKey Key]

/-- The table before the re-insertion loop looks at slot `i`. -/
def loopTable (probe : Probe) (table : Fin (2 ^ bits) → Slot Key Value) :
    ℕ → Fin (2 ^ bits) → Slot Key Value
  | 0 => clearTombstones table
  | i + 1 =>
    if h : i < 2 ^ bits then
      (reinsert probe (loopTable probe table i) ⟨i, h⟩).getD (loopTable probe table i)
    else loopTable probe table i

/-- No iteration leaves a slot empty that lies in front of a key placed before,
unless a later iteration fills it again. -/
def ChainsKept (m : OpenAddressMap bits Key Value probe rehashes) : Prop :=
  KeepsChains (path bits probe) fun i => cellsOf (loopTable probe m.table i)

theorem freeSlotLoop_spec {table : Fin (2 ^ bits) → Slot Key Value} {key : Key}
    (fuel attempt free : ℕ) (hge : attempt ≤ free) (hlt : free < attempt + fuel)
    (hfree : (table (path bits probe key free)).state ≠ .occupied)
    (hbefore : ∀ a < attempt, (table (path bits probe key a)).state = .occupied) :
    ∃ j, freeSlotLoop probe table fuel (path bits probe key attempt) attempt =
        some (path bits probe key j) ∧ (table (path bits probe key j)).state ≠ .occupied ∧
      ∀ a < j, (table (path bits probe key a)).state = .occupied := by
  induction fuel generalizing attempt with
  | zero => omega
  | succ fuel ih =>
    rw [freeSlotLoop]
    by_cases hocc : (table (path bits probe key attempt)).state = .occupied
    · rw [if_pos hocc]
      have hne : attempt ≠ free := by
        rintro rfl
        exact hfree hocc
      refine ih (attempt + 1) (by omega) (by omega) fun a ha => ?_
      rcases Nat.lt_succ_iff_lt_or_eq.mp ha with ha | rfl
      · exact hbefore a ha
      · exact hocc
    · rw [if_neg hocc]
      exact ⟨attempt, rfl, hocc, hbefore⟩

/-- Where no tombstone is left, one iteration is a step of a pass. -/
theorem reinsert_replaced {table : Fin (2 ^ bits) → Slot Key Value}
    (hdead : ∀ s, cellsOf table s ≠ .dead) (i : Fin (2 ^ bits)) :
    ∃ table', reinsert probe table i = some table' ∧
      Replaced (path bits probe) (cellsOf table) i (cellsOf table') := by
  unfold reinsert
  by_cases hocc : (table i).state = .occupied
  · rw [if_neg (by simpa using hocc)]
    dsimp only
    obtain ⟨period, hle, htour⟩ := probe.tour (hash bits (table i).key)
    obtain ⟨free, hlt, hfree⟩ := htour.covers i
    let cleared := Function.update table i { table i with state := .empty }
    have hspot : (cleared (path bits probe (table i).key free)).state ≠ .occupied := by
      rw [path, hfree]
      simp [cleared]
    obtain ⟨j, hloop, hfreej, hbefore⟩ :=
      freeSlotLoop_spec (2 * 2 ^ bits) 0 free (Nat.zero_le _) (by omega) hspot fun a ha => by omega
    change freeSlotLoop probe cleared (2 * 2 ^ bits) (hash bits (table i).key) 0 = _ at hloop
    rw [hloop]
    refine ⟨_, rfl, ?_⟩
    have hlive : cellsOf table i = .live (table i).key (table i).value :=
      Slot.cell_eq_live.mpr ⟨hocc, rfl, rfl⟩
    have hcells : cellsOf cleared = Function.update (cellsOf table) i .empty := by
      rw [cellsOf_update]
      rfl
    have hmoved : cellsOf (Function.update cleared (path bits probe (table i).key j) (table i)) =
        Function.update (Function.update (cellsOf table) i .empty)
          (path bits probe (table i).key j) (.live (table i).key (table i).value) := by
      rw [cellsOf_update, hcells]
      exact congrArg _ hlive
    rw [hmoved]
    refine Replaced.move j hlive (fun a ha => ?_) ?_
    · rw [← hcells, cellsOf, ne_eq, Slot.cell_eq_empty, hbefore a ha]
      simp
    · rw [← hcells, cellsOf, Slot.cell_eq_empty]
      by_cases hji : path bits probe (table i).key j = i
      · simp [cleared, hji]
      · have hnd := hdead (path bits probe (table i).key j)
        have hsame : cleared (path bits probe (table i).key j) =
            table (path bits probe (table i).key j) := Function.update_of_ne hji ..
        rw [cellsOf, ne_eq, Slot.cell_eq_dead, ← hsame] at hnd
        cases hs : (cleared (path bits probe (table i).key j)).state with
        | empty => rfl
        | occupied => exact absurd hs hfreej
        | tombstone => exact absurd hs hnd
  · rw [if_pos (by simpa using hocc)]
    refine ⟨table, rfl, .skip fun k v h => hocc ?_⟩
    exact (Slot.cell_eq_live.mp h).1

omit [SizeKey Key] in
theorem clearTombstones_notDead (table : Fin (2 ^ bits) → Slot Key Value) (s : Fin (2 ^ bits)) :
    cellsOf (clearTombstones table) s ≠ .dead := by
  rw [cellsOf, ne_eq, Slot.cell_eq_dead, clearTombstones]
  split
  · simp
  · assumption

omit [SizeKey Key] in
theorem clearTombstones_live (table : Fin (2 ^ bits) → Slot Key Value) (s : Fin (2 ^ bits))
    (k : Key) (v : Value) :
    cellsOf (clearTombstones table) s = .live k v ↔ cellsOf table s = .live k v := by
  simp only [cellsOf, Slot.cell_eq_live, clearTombstones]
  split
  · rename_i h
    simp [h]
  · exact Iff.rfl

theorem loopTable_notDead (table : Fin (2 ^ bits) → Slot Key Value) (i : ℕ) (s : Fin (2 ^ bits)) :
    cellsOf (loopTable probe table i) s ≠ .dead := by
  induction i generalizing s with
  | zero => exact clearTombstones_notDead table s
  | succ i ih =>
    rw [loopTable]
    split
    · rename_i h
      obtain ⟨table', heq, hstep⟩ := @reinsert_replaced _ _ _ probe _ _ ih ⟨i, h⟩
      rw [heq]
      exact hstep.notDead ih s
    · exact ih s

theorem reinsert_loopTable (table : Fin (2 ^ bits) → Slot Key Value) (i : Fin (2 ^ bits)) :
    reinsert probe (loopTable probe table i) i = some (loopTable probe table (i + 1)) := by
  obtain ⟨table', heq, -⟩ := @reinsert_replaced _ _ _ probe _ _ (loopTable_notDead table i) i
  rw [loopTable, dif_pos i.isLt, heq]
  rfl

theorem loopTable_pass (table : Fin (2 ^ bits) → Slot Key Value) :
    Pass (path bits probe) fun i => cellsOf (loopTable probe table i) where
  step i := by
    obtain ⟨table', heq, hstep⟩ := @reinsert_replaced _ _ _ probe _ _ (loopTable_notDead table i) i
    obtain rfl := Option.some.inj (heq.symm.trans (reinsert_loopTable table i))
    exact hstep

theorem foldlM_reinsert (table : Fin (2 ^ bits) → Slot Key Value) (i : ℕ) (hi : i ≤ 2 ^ bits) :
    ((List.finRange (2 ^ bits)).take i).foldlM (reinsert probe) (clearTombstones table) =
      some (loopTable probe table i) := by
  induction i with
  | zero => rfl
  | succ i ih =>
    have hlen : i < (List.finRange (2 ^ bits)).length := by simpa using hi
    rw [List.take_succ_eq_append_getElem hlen, List.foldlM_append, ih (by omega)]
    simpa using reinsert_loopTable table ⟨i, hi⟩

theorem rehash_eq (m : OpenAddressMap bits Key Value probe rehashes) :
    m.rehash = some ⟨loopTable probe m.table (2 ^ bits), 0⟩ := by
  have h : _ = some (loopTable probe _ _) := foldlM_reinsert m.table (2 ^ bits) le_rfl
  rw [List.take_of_length_le (by simp)] at h
  rw [rehash, h]

end Loop

section Lossless
variable [DecidableEq Key] [SizeKey Key] {m : OpenAddressMap bits Key Value probe rehashes}

/-- `rehash` ends, every lookup is as before, and the keys stay stored once with
their values. -/
def Lossless (m : OpenAddressMap bits Key Value probe rehashes) : Prop :=
  ∃ m', m.rehash = some m' ∧ (∀ key, m'.lookup key = m.lookup key) ∧
    (∀ s s', (m'.table s).state = .occupied → (m'.table s').state = .occupied →
      (m'.table s).key = (m'.table s').key → s = s') ∧
    ∀ key value, Maps m'.cells key value ↔ Maps m.cells key value

theorem lookup_eq (hm : m.Sound) (hfree : ∃ s, (m.table s).state ≠ .occupied) (key : Key) :
    m.lookup key = .ok (m.entries key) := by
  obtain ⟨-, hres⟩ := find_spec hm key
  rw [lookup]
  cases hr : (m.find key).1 with
  | error fault =>
    rw [hr] at hres
    obtain ⟨s, hs⟩ := hfree
    exact absurd (hres.2.2 s) hs
  | ok r =>
    rw [hr] at hres
    cases r with
    | none => simp [Except.map, hres]
    | some s => simp [Except.map, hres.2.2]

/-- Whatever the table, a handle is only returned along the key's own path. -/
theorem chain_of_find {key : Key} {s : Fin (2 ^ bits)} (h : (m.find key).1 = .ok (some s)) :
    Chain (path bits probe) m.cells key s ∧ m.cells s = .live key (m.table s).value := by
  have hloc := probeForSlotIdx_located m key
  have htable := probeForSlotIdx_table m key
  unfold find at h
  cases hp : m.probeForSlotIdx key with
  | mk r m' =>
    rw [hp] at hloc htable h
    cases r with
    | error fault => cases h
    | ok i =>
      dsimp only at h htable
      rw [htable] at h
      split at h
      · cases h
      · rename_i hlive
        obtain rfl := Option.some.inj (Except.ok.inj h)
        rw [not_or, not_not, not_not] at hlive
        exact ⟨hloc.1, Slot.cell_eq_live.mpr ⟨hlive.1, hlive.2, rfl⟩⟩

omit [DecidableEq Key] in
theorem rehash_unique (hm : m.Sound) {s t : Fin (2 ^ bits)} {k : Key} {v w : Value}
    (hs : cellsOf (loopTable probe m.table 0) s = .live k v)
    (ht : cellsOf (loopTable probe m.table 0) t = .live k w) : s = t :=
  hm.unique ((clearTombstones_live ..).mp hs) ((clearTombstones_live ..).mp ht)

omit [DecidableEq Key] in
theorem rehash_maps (m : OpenAddressMap bits Key Value probe rehashes) (k : Key) (v : Value) :
    Maps (cellsOf (loopTable probe m.table (2 ^ bits))) k v ↔ Maps m.cells k v := by
  rw [(loopTable_pass m.table).maps_iff le_rfl]
  exact exists_congr fun s => clearTombstones_live ..

/-- A rehash of a sound table with a dead slot is lossless exactly when it keeps
the chains of the keys it has placed. -/
theorem lossless_iff (hm : m.Sound) (hdead : ∃ s, (m.table s).state = .tombstone) :
    Lossless m ↔ ChainsKept m := by
  have hpass : Pass (path bits probe) _ := loopTable_pass m.table
  have hiff := hpass.wellProbed_iff (rehash_unique hm)
  obtain ⟨d, hd⟩ := hdead
  have hfree : ∃ s, (m.table s).state ≠ .occupied := ⟨d, by simp [hd]⟩
  constructor
  · rintro ⟨m', hm', hlookup, -, -⟩
    rw [rehash_eq] at hm'
    obtain rfl := Option.some.inj hm'
    refine hiff.mp ⟨fun {s k v} hs => ?_, fun hs ht => hpass.unique (rehash_unique hm) le_rfl hs ht⟩
    have hentry : m.entries k = some v := hm.content_eq_some.mpr ((rehash_maps m k v).mp ⟨s, hs⟩)
    have hfind := hlookup k
    rw [lookup_eq hm hfree, hentry, lookup] at hfind
    let after : OpenAddressMap bits Key Value probe rehashes := ⟨loopTable probe m.table (2 ^ bits), 0⟩
    cases hr : (after.find k).1 with
    | error fault =>
      rw [hr] at hfind
      cases hfind
    | ok r =>
      rw [hr] at hfind
      cases r with
      | none => cases hfind
      | some t =>
        obtain ⟨hchain, hlive⟩ := chain_of_find hr
        obtain rfl := hpass.unique (rehash_unique hm) le_rfl hs hlive
        exact hchain
  · intro hkeep
    let after : OpenAddressMap bits Key Value probe rehashes := ⟨loopTable probe m.table (2 ^ bits), 0⟩
    have hsound : after.Sound := hiff.mpr hkeep
    have hempty : ∃ s, (loopTable probe m.table (2 ^ bits) s).state ≠ .occupied := by
      obtain ⟨s, hs⟩ := hpass.hasEmpty ⟨d, by simp [loopTable, clearTombstones, cellsOf, hd]⟩ le_rfl
      exact ⟨s, by rw [Slot.cell_eq_empty.mp hs]; simp⟩
    refine ⟨_, rehash_eq m, fun key => ?_, fun s s' hs hs' hkey => ?_, rehash_maps m⟩
    · rw [lookup_eq hsound hempty, lookup_eq hm hfree]
      congr 1
      apply Option.ext
      intro v
      rw [entries, hsound.content_eq_some, entries, hm.content_eq_some]
      exact rehash_maps m key v
    · exact hsound.unique (Slot.cell_eq_live.mpr ⟨hs, rfl, rfl⟩)
        (Slot.cell_eq_live.mpr ⟨hs', hkey.symm, rfl⟩)

omit [DecidableEq Key] in
theorem sound_of_chainsKept (hm : m.Sound) (hkeep : ChainsKept m)
    {m' : OpenAddressMap bits Key Value probe rehashes} (h : m.rehash = some m') : m'.Sound := by
  rw [rehash_eq] at h
  obtain rfl := Option.some.inj h
  exact ((loopTable_pass m.table).wellProbed_iff (rehash_unique hm)).mpr hkeep

/-- No key of the table lies behind the entry of a later slot that may move, unless a slot
without an entry comes first that nothing is put in before. -/
def SettledTable (m : OpenAddressMap bits Key Value probe rehashes) : Prop :=
  Settled (path bits probe) m.cells

omit [DecidableEq Key] in
theorem SettledTable.of_ordered {m : OpenAddressMap bits Key Value probe rehashes}
    (h : ∀ q s, (m.table s).state = .occupied → Before (path bits probe) (m.table s).key q s → q < s) :
    m.SettledTable := by
  intro s k v q hs hbefore hlt
  obtain ⟨hstate, rfl, -⟩ := Slot.cell_eq_live.mp hs
  exact absurd hlt (h q s hstate hbefore).not_gt

omit [DecidableEq Key] in
theorem chainsKept_of_settled (hm : m.Sound) (hsettled : m.SettledTable) : ChainsKept m := by
  have hpass : Pass (path bits probe) _ := loopTable_pass m.table
  have hlive : ∀ s k v, cellsOf (loopTable probe m.table 0) s = .live k v ↔ m.cells s = .live k v :=
    fun _ _ _ => clearTombstones_live ..
  refine (hpass.wellProbed_iff (rehash_unique hm)).mp
    (hpass.wellProbed_of_settled (clearTombstones_notDead m.table) (fun s k v hs => ?_)
      (rehash_unique hm) (Settled.of_live hlive hsettled))
  obtain ⟨j, hj, -⟩ := hm.chained ((hlive s k v).mp hs)
  exact ⟨j, hj⟩

end Lossless

section Runs
variable [DecidableEq Key] [SizeKey Key]

/-- The map right after a call has marked a slot as erased. -/
def buried (m : OpenAddressMap bits Key Value probe rehashes) :
    MapCall bits Key Value → Option (OpenAddressMap bits Key Value probe rehashes)
  | .subscript _ | .write _ _ | .find _ => none
  | .eraseHandle idx => some (m.bury idx)
  | .erase key =>
    match m.find key with
    | (.ok (some idx), m) => some (m.bury idx)
    | _ => none

/-- The map a call calls `rehash` on, if it does. -/
def rehashed (m : OpenAddressMap bits Key Value probe rehashes) (call : MapCall bits Key Value) :
    Option (OpenAddressMap bits Key Value probe rehashes) :=
  (m.buried call).filter rehashDue

/-- Every rehash of a run is of a map with `Q`. -/
def EveryRehash (Q : OpenAddressMap bits Key Value probe rehashes → Prop) :
    OpenAddressMap bits Key Value probe rehashes → List (MapCall bits Key Value) → Prop
  | _, [] => True
  | m, call :: calls =>
    (∀ m', m.rehashed call = some m' → Q m') ∧ EveryRehash Q (m.perform call) calls

theorem buried_sound {m m' : OpenAddressMap bits Key Value probe rehashes} (hm : m.Sound)
    {call : MapCall bits Key Value} (h : m.buried call = some m') :
    m'.Sound ∧ ∃ s, (m'.table s).state = .tombstone := by
  cases call with
  | subscript key => cases h
  | write idx value => cases h
  | find key => cases h
  | eraseHandle idx =>
    obtain rfl := Option.some.inj h
    exact ⟨bury_sound hm idx, idx, by simp [bury]⟩
  | erase key =>
    have htable := find_table m key
    rw [buried] at h
    split at h
    · rename_i idx m₁ heq
      rw [heq] at htable
      obtain rfl := Option.some.inj h
      exact ⟨bury_sound (sound_of_table hm htable) idx, idx, by simp [bury]⟩
    · cases h

omit [DecidableEq Key] in
theorem eraseHandle_sound {m : OpenAddressMap bits Key Value probe rehashes} {s : Fin (2 ^ bits)}
    (hm : (m.bury s).Sound) (hkeep : (m.bury s).rehashDue = true → ChainsKept (m.bury s)) :
    (m.eraseHandle (some s)).2.Sound := by
  simp only [eraseHandle]
  by_cases hdue : (m.bury s).rehashDue = true
  · rw [if_pos hdue, rehash_eq]
    exact sound_of_chainsKept hm (hkeep hdue) (rehash_eq _)
  · rw [if_neg hdue]
    exact hm

theorem perform_sound_of_kept {m : OpenAddressMap bits Key Value probe rehashes} (hm : m.Sound)
    {call : MapCall bits Key Value} (hkeep : ∀ m', m.rehashed call = some m' → ChainsKept m') :
    (m.perform call).Sound := by
  have hdue : ∀ (m' : OpenAddressMap bits Key Value probe rehashes) s, m'.Sound →
      m.buried call = some (m'.bury s) → (m'.eraseHandle (some s)).2.Sound := by
    intro m' s hm' hburied
    refine eraseHandle_sound (bury_sound hm' s) fun hdue => hkeep _ ?_
    rw [rehashed, hburied, Option.filter_some, if_pos hdue]
  cases call with
  | subscript key => exact subscript_sound hm key
  | write idx value =>
    dsimp only [perform]
    split
    · exact hm
    · exact setValue_sound hm idx value
  | find key => exact sound_of_table hm (find_table m key)
  | eraseHandle idx => exact hdue m idx hm rfl
  | erase key =>
    have hfound : (m.find key).2.Sound := sound_of_table hm (find_table m key)
    change (m.erase key).2.Sound
    rw [erase]
    cases hf : m.find key with
    | mk r m' =>
      rw [hf] at hfound
      cases r with
      | error fault => exact hfound
      | ok r =>
        cases r with
        | none => exact hfound
        | some idx => exact hdue m' idx hfound (by rw [buried, hf])

theorem everyRehash_lossless {m : OpenAddressMap bits Key Value probe rehashes} (hm : m.Sound)
    (calls : List (MapCall bits Key Value)) (h : EveryRehash SettledTable m calls) :
    EveryRehash Lossless m calls := by
  induction calls generalizing m with
  | nil => trivial
  | cons call calls ih =>
    obtain ⟨hsettled, hrest⟩ := h
    have hkeep : ∀ m', m.rehashed call = some m' → ChainsKept m' := by
      intro m' hm'
      obtain ⟨hsound, -⟩ := buried_sound hm (Option.filter_eq_some_iff.mp hm').1
      exact chainsKept_of_settled hsound (hsettled m' hm')
    refine ⟨fun m' hm' => ?_, ih (perform_sound_of_kept hm hkeep) hrest⟩
    obtain ⟨hsound, hdead⟩ := buried_sound hm (Option.filter_eq_some_iff.mp hm').1
    exact (lossless_iff hsound hdead).mpr (hkeep m' hm')

/-- In every run from the empty map whose rehashes are all of settled tables, no rehash loses
a key or changes what is found under one. -/
theorem rehash_lossless_of_settled [Inhabited Key] [Inhabited Value]
    (calls : List (MapCall bits Key Value))
    (h : EveryRehash SettledTable (default : OpenAddressMap bits Key Value probe true) calls) :
    EveryRehash Lossless (default : OpenAddressMap bits Key Value probe true) calls :=
  everyRehash_lossless sound_default calls h

/-- Key 5 lies in slot 2 behind key 1, whose erase rehashes. -/
def displacedCalls : List (MapCall 2 UInt64 ℕ) :=
  [.subscript 1, .subscript 5, .subscript 3, .erase 3, .erase 1]

theorem displacedCalls_lossless : EveryRehash Lossless
    (default : OpenAddressMap 2 UInt64 ℕ linearProbe true) displacedCalls := by
  have hnone : ∀ {m : OpenAddressMap 2 UInt64 ℕ linearProbe true} {call : MapCall 2 UInt64 ℕ},
      (m.rehashed call).isSome = false → ∀ m', m.rehashed call = some m' → m'.SettledTable := by
    intro m call h m' hm'
    simp [hm'] at h
  refine rehash_lossless_of_settled displacedCalls
    ⟨hnone (by decide), hnone (by decide), hnone (by decide), hnone (by decide), ?_, trivial⟩
  intro m' hm'
  have hslot : ∀ s, (m'.table s).state = .occupied → s.val = 2 ∧ (m'.table s).key = 5 := by
    cases hm'
    decide
  refine SettledTable.of_ordered fun q s hstate hbefore => ?_
  obtain ⟨hs, hkey⟩ := hslot s hstate
  rw [hkey] at hbefore
  obtain ⟨j, a, ha, rfl, rfl, hfirst⟩ := hbefore
  have hj : j ≤ 1 := by
    by_contra hlt
    exact hfirst 1 (by omega) (Fin.ext hs).symm
  obtain ⟨rfl, rfl⟩ : a = 0 ∧ j = 1 := by omega
  decide

/-- Key 3 wraps to slot 0 behind key 6; the second erase rehashes and moves key 6
back to slot 2, so that slot 3 in front of key 3 stays empty. -/
def wrappedChainCalls : List (MapCall 2 UInt64 ℕ) :=
  [.subscript 2, .subscript 6, .subscript 3, .subscript 1, .erase 1, .erase 2]

theorem rehash_loses_wrapped_key :
    ¬ EveryRehash Lossless (default : OpenAddressMap 2 UInt64 ℕ linearProbe true) wrappedChainCalls ∧
    ¬ EveryRehash Lossless (default : OpenAddressMap 2 UInt64 ℕ quadraticProbe true)
      wrappedChainCalls := by
  constructor <;> intro h <;> obtain ⟨m', hm', hlookup, -⟩ := h.2.2.2.2.2.1 _ rfl
  all_goals
    have hlost : m'.lookup 3 = .ok none := by
      rw [rehash_eq] at hm'
      obtain rfl := Option.some.inj hm'
      rfl
    rw [hlookup] at hlost
    exact absurd hlost (by decide)

end Runs

end OpenAddressMap

end ItchOrderBook.Util

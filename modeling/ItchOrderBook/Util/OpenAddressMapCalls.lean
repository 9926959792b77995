import ItchOrderBook.Util.TombstoneProbe

/-! # Sequences of calls

A state is reached by any sequence of `operator[]`, `find` and `erase` and of writes and
erases through references and handles, also stale ones, and also where a call has thrown.
-/
namespace ItchOrderBook.Util
open OpenAddressing

/-- `write` assigns through a reference or a handle. What either refers to is a slot,
whatever has happened to its key since. -/
inductive MapCall (bits : ℕ) (Key Value : Type)
  | subscript (key : Key)
  | write (idx : Fin (2 ^ bits)) (value : Value)
  | find (key : Key)
  | eraseHandle (idx : Fin (2 ^ bits))
  | erase (key : Key)

namespace OpenAddressMap

variable {bits : ℕ} {Key Value : Type} {probe : Probe} {rehashes : Bool} [DecidableEq Key]
  [SizeKey Key]

/-- The map after a call, whether it has returned or thrown. -/
def perform (m : OpenAddressMap bits Key Value probe rehashes) :
    MapCall bits Key Value → OpenAddressMap bits Key Value probe rehashes
  | .subscript key => (m.subscript key).2
  | .write idx value =>
    -- a slot that was handed out has been taken, and only a rehash makes it `EMPTY` again
    if rehashes = false ∧ (m.table idx).state = .empty then m else m.setValue idx value
  | .find key => (m.find key).2
  | .eraseHandle idx => (m.eraseHandle (some idx)).2
  | .erase key => (m.erase key).2

def performAll (m : OpenAddressMap bits Key Value probe rehashes)
    (calls : List (MapCall bits Key Value)) : OpenAddressMap bits Key Value probe rehashes :=
  calls.foldl perform m

/-- The keys the map stores. -/
def liveKeys (m : OpenAddressMap bits Key Value probe rehashes) : Set Key :=
  {key | ∃ s, (m.table s).state = .occupied ∧ (m.table s).key = key}

theorem performAll_invariant {P : OpenAddressMap bits Key Value probe rehashes → Prop}
    (hstep : ∀ m call, P m → P (m.perform call)) (calls : List (MapCall bits Key Value))
    {m : OpenAddressMap bits Key Value probe rehashes} (hm : P m) : P (m.performAll calls) := by
  induction calls generalizing m with
  | nil => exact hm
  | cons call calls ih => exact ih (hstep m call hm)

/-! ## The slot `operator[]` takes -/

section Subscript
variable {m : OpenAddressMap bits Key Value probe rehashes} {key : Key}

/-- `operator[]` takes the slot the probe returns, with the value it finds there. -/
theorem subscript_ok {i : Fin (2 ^ bits)} (h : (m.probeForSlotIdx key).1 = .ok i) :
    (m.subscript key).1 = .ok i ∧
      (m.subscript key).2.tombstone = (m.probeForSlotIdx key).2.tombstone ∧
      (m.subscript key).2.table =
        Function.update m.table i { m.table i with state := .occupied, key := key } := by
  have htable := probeForSlotIdx_table m key
  unfold subscript
  cases hp : m.probeForSlotIdx key with
  | mk r m' =>
    rw [hp] at h htable
    dsimp only at h htable
    subst h
    simp [htable]

theorem subscript_error {fault : MapFault} (h : (m.probeForSlotIdx key).1 = .error fault) :
    m.subscript key = (.error fault, (m.probeForSlotIdx key).2) := by
  unfold subscript
  cases hp : m.probeForSlotIdx key with
  | mk r m' =>
    rw [hp] at h
    dsimp only at h
    subst h
    rfl

theorem erase_eq (m : OpenAddressMap bits Key Value probe rehashes) (key : Key) :
    m.erase key =
      match (m.find key).1 with
      | .error fault => (.error fault, (m.find key).2)
      | .ok none => (.ok (), (m.find key).2)
      | .ok (some idx) => (m.find key).2.eraseHandle (some idx) := by
  unfold erase
  cases m.find key with
  | mk r m' =>
    cases r with
    | error fault => rfl
    | ok h =>
      cases h with
      | none => rfl
      | some idx => rfl

omit [DecidableEq Key] [SizeKey Key] in
theorem mem_liveKeys : key ∈ m.liveKeys ↔ ∃ s v, m.cells s = .live key v := by
  unfold liveKeys cells cellsOf
  simp

omit [DecidableEq Key] [SizeKey Key] in
theorem mem_liveKeys_iff_entries : key ∈ m.liveKeys ↔ (m.entries key).isSome := by
  rw [mem_liveKeys, entries, Option.isSome_iff_ne_none, ne_eq, content_eq_none]
  simp only [Maps, not_forall, not_not]
  exact exists_comm

end Subscript

/-! ## Reached states -/

section Reached
variable [Inhabited Key] [Inhabited Value]

/-- The map after any sequence of calls on an empty one. -/
def reached (probe : Probe) (rehashes : Bool) (calls : List (MapCall bits Key Value)) :
    OpenAddressMap bits Key Value probe rehashes := performAll default calls

theorem reached_concat (calls : List (MapCall bits Key Value)) (call : MapCall bits Key Value) :
    reached probe rehashes (calls ++ [call]) = (reached probe rehashes calls).perform call := by
  simp [reached, performAll]

end Reached

/-! ## Steps that keep a table sound -/

section Sound
variable {m : OpenAddressMap bits Key Value probe rehashes}

omit [DecidableEq Key] in
theorem sound_of_table (hm : m.Sound) {m' : OpenAddressMap bits Key Value probe rehashes}
    (h : m'.table = m.table) : m'.Sound := by
  unfold Sound cells
  rw [h]
  exact hm

theorem subscript_sound (hm : m.Sound) (key : Key) : (m.subscript key).2.Sound := by
  have hloc := probeForSlotIdx_located m key
  cases hr : (m.probeForSlotIdx key).1 with
  | error fault =>
    apply sound_of_table hm
    rw [subscript_error hr, probeForSlotIdx_table]
  | ok i =>
    rw [hr] at hloc
    obtain ⟨hchain, honly, -⟩ := hloc.resolve hm
    obtain ⟨-, -, htable⟩ := subscript_ok hr
    have hput := hm.put hchain honly (m.table i).value
    unfold Sound cells
    rw [htable, cellsOf_update]
    exact hput

/-- A write changes no key, and no cell that holds none. -/
theorem setValue_sound (hm : m.Sound) (idx : Fin (2 ^ bits)) (value : Value) :
    (m.setValue idx value).Sound := by
  by_cases hstate : (m.table idx).state = .occupied
  · exact (setValue_spec hm (Slot.cell_eq_live.mpr ⟨hstate, rfl, rfl⟩) value).1
  · have hcell : Slot.cell { m.table idx with value := value } = (m.table idx).cell := by
      unfold Slot.cell
      cases hs : (m.table idx).state with
      | empty => rfl
      | occupied => exact absurd hs hstate
      | tombstone => rfl
    unfold Sound cells setValue
    rw [cellsOf_update, hcell]
    change WellProbed _ (Function.update m.cells idx (m.cells idx))
    rw [Function.update_eq_self]
    exact hm

omit [DecidableEq Key] in
theorem bury_sound (hm : m.Sound) (idx : Fin (2 ^ bits)) : (m.bury idx).Sound := by
  rw [Sound, cells_bury]
  exact WellProbed.bury hm idx

end Sound

/-! ## Without rehashing -/

section NoRehash
variable {m : OpenAddressMap bits Key Value probe false} {key : Key}

omit [DecidableEq Key] in
/-- In a sound table a key is stored only where the probe looks. -/
theorem reached_iff (hm : m.Sound) : Reached probe m.cells key ↔ key ∈ m.liveKeys := by
  rw [mem_liveKeys]
  constructor
  · rintro ⟨s, v, hlive, -⟩
    exact ⟨s, v, hlive⟩
  · rintro ⟨s, v, hlive⟩
    exact ⟨s, v, hlive, hm.chained hlive⟩

/-- No call takes a key out of the way of its probe. -/
theorem perform_sound (call : MapCall bits Key Value) (hm : m.Sound) :
    (m.perform call).Sound := by
  cases call with
  | subscript key => exact subscript_sound hm key
  | write idx value =>
    dsimp only [perform]
    split
    · exact hm
    · exact setValue_sound hm idx value
  | find key => exact sound_of_table hm (find_table m key)
  | eraseHandle idx => exact bury_sound hm idx
  | erase key =>
    have hfound : (m.find key).2.Sound := sound_of_table hm (find_table m key)
    change (m.erase key).2.Sound
    rw [erase_eq]
    split
    · exact hfound
    · exact hfound
    · rename_i idx _
      exact bury_sound hfound idx

theorem reached_sound [Inhabited Key] [Inhabited Value] (calls : List (MapCall bits Key Value)) :
    (reached probe false calls).Sound :=
  performAll_invariant (fun _ call hm => perform_sound call hm) calls sound_default

omit [DecidableEq Key] in
theorem ncard_liveKeys_lt_iff (hm : m.Sound) :
    m.liveKeys.ncard < 2 ^ bits ↔ ∃ s, (m.table s).state ≠ .occupied := by
  have hkeys : m.liveKeys = (fun s => (m.table s).key) '' {s | (m.table s).state = .occupied} := rfl
  have hinj : Set.InjOn (fun s => (m.table s).key) {s | (m.table s).state = .occupied} := by
    intro s hs t ht hst
    exact hm.unique (Slot.cell_eq_live.mpr ⟨hs, rfl, rfl⟩) (Slot.cell_eq_live.mpr ⟨ht, hst.symm, rfl⟩)
  have huniv : (Set.univ : Set (Fin (2 ^ bits))).ncard = 2 ^ bits := by simp
  rw [hkeys, hinj.ncard_image]
  constructor
  · intro hlt
    by_contra hfull
    have hall : {s | (m.table s).state = .occupied} = Set.univ := by
      simpa [Set.eq_univ_iff_forall] using hfull
    rw [hall, huniv] at hlt
    exact Nat.lt_irrefl _ hlt
  · rintro ⟨s, hs⟩
    calc {s | (m.table s).state = .occupied}.ncard
        < (Set.univ : Set (Fin (2 ^ bits))).ncard :=
          Set.ncard_lt_ncard ⟨Set.subset_univ _, fun h => hs (h (Set.mem_univ s))⟩
      _ = 2 ^ bits := huniv

omit [DecidableEq Key] [SizeKey Key] in
theorem ncard_liveKeys_le (m : OpenAddressMap bits Key Value probe false) :
    m.liveKeys.ncard ≤ 2 ^ bits :=
  calc m.liveKeys.ncard ≤ {s | (m.table s).state = .occupied}.ncard :=
        Set.ncard_image_le (Set.toFinite _)
    _ ≤ (Set.univ : Set (Fin (2 ^ bits))).ncard := Set.ncard_le_ncard (Set.subset_univ _)
    _ = 2 ^ bits := by simp

omit [DecidableEq Key] in
theorem full_of_not_lt (hm : m.Sound) (hlt : ¬ m.liveKeys.ncard < 2 ^ bits)
    (h : key ∉ m.liveKeys) (s : Fin (2 ^ bits)) : ∃ k v, m.cells s = .live k v ∧ k ≠ key := by
  have hstate : (m.table s).state = .occupied := by
    by_contra hstate
    exact hlt ((ncard_liveKeys_lt_iff hm).mpr ⟨s, hstate⟩)
  refine ⟨_, _, Slot.cell_eq_live.mpr ⟨hstate, rfl, rfl⟩, ?_⟩
  intro hkey
  exact h ⟨s, hstate, hkey⟩

end NoRehash

end OpenAddressMap

end ItchOrderBook.Util

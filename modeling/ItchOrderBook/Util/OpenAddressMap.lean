import ItchOrderBook.Util.Probe
import ItchOrderBook.Foundation.OpenAddressing

/-! # The open addressing map

`operator[]`, `find`, `erase`, `probe_for_slot_idx` and `rehash` as the header
computes them. The table is a function of the slot index, the tombstone counter
is the machine's unsigned word, and a thrown exception or an undefined
dereference is a fault next to the state it leaves behind.
-/
namespace ItchOrderBook.Util
open OpenAddressing

inductive SlotState
  | empty
  | occupied
  | tombstone
  deriving DecidableEq, Repr

structure Slot (Key Value : Type) where
  key : Key
  value : Value
  state : SlotState

/-- `Slot{}`: members value-initialised, state `EMPTY`. -/
instance {Key Value : Type} [Inhabited Key] [Inhabited Value] : Inhabited (Slot Key Value) :=
  ⟨⟨default, default, .empty⟩⟩

/-- What a slot stores, whatever is left in its dead members. -/
def Slot.cell {Key Value : Type} (slot : Slot Key Value) : Cell Key Value :=
  match slot.state with
  | .empty => .empty
  | .occupied => .live slot.key slot.value
  | .tombstone => .dead

inductive MapFault
  | saturated   -- MapSaturatedException
  | nullHandle  -- an empty Handle was dereferenced or erased
  | diverged    -- the loop's step bound ran out
  deriving DecidableEq, Repr

/-- Keys convert to `std::size_t` before they are masked. -/
class SizeKey (Key : Type) where
  toSize : Key → ℕ

instance : SizeKey UInt64 := ⟨UInt64.toNat⟩

/-- `OpenAddressMap<1 << bits, Key, Value, Probe, Rehash>`. -/
structure OpenAddressMap (bits : ℕ) (Key Value : Type) (probe : Probe) (rehashes : Bool) where
  table : Fin (2 ^ bits) → Slot Key Value
  tombstone : UInt64

/-- A `Handle` is the slot it points at, or null. -/
abbrev Handle (bits : ℕ) := Option (Fin (2 ^ bits))

namespace OpenAddressMap

variable {bits : ℕ} {Key Value : Type} {probe : Probe} {rehashes : Bool}

instance [Inhabited Key] [Inhabited Value] :
    Inhabited (OpenAddressMap bits Key Value probe rehashes) := ⟨⟨fun _ => default, 0⟩⟩

def hash [SizeKey Key] (bits : ℕ) (key : Key) : Fin (2 ^ bits) :=
  ⟨SizeKey.toSize key &&& (2 ^ bits - 1), by
    rw [land_mask]
    exact Nat.mod_lt _ (Nat.two_pow_pos bits)⟩

/-- The `while (true)` of `probe_for_slot_idx`, with a bound on its steps. The
counter is returned with the index because the loop decrements it. -/
def probeLoop [DecidableEq Key] (probe : Probe) (table : Fin (2 ^ bits) → Slot Key Value)
    (key : Key) (originalIdx : Fin (2 ^ bits)) :
    ℕ → Fin (2 ^ bits) → ℕ → Option (Fin (2 ^ bits)) → UInt64 →
      Except MapFault (Fin (2 ^ bits)) × UInt64
  | 0, _, _, _, tombstone => (.error .diverged, tombstone)
  | fuel + 1, probeIdx, attempt, firstTombstoneIdx, tombstone =>
    let slot := table probeIdx
    if slot.state = .occupied ∧ slot.key = key then (.ok probeIdx, tombstone)
    else if slot.state = .empty then (.ok (firstTombstoneIdx.getD probeIdx), tombstone)
    else
      let met := slot.state = .tombstone ∧ firstTombstoneIdx = none
      let firstTombstoneIdx := if met then some probeIdx else firstTombstoneIdx
      let tombstone := if met then tombstone - 1 else tombstone
      let probeIdx := probe.step probeIdx (attempt + 1)
      if probeIdx = originalIdx then
        match firstTombstoneIdx with
        | none => (.error .saturated, tombstone)
        | some idx => (.ok idx, tombstone)
      else probeLoop probe table key originalIdx fuel probeIdx (attempt + 1) firstTombstoneIdx tombstone

def probeForSlotIdx [DecidableEq Key] [SizeKey Key]
    (m : OpenAddressMap bits Key Value probe rehashes) (key : Key) :
    Except MapFault (Fin (2 ^ bits)) × OpenAddressMap bits Key Value probe rehashes :=
  let originalIdx := hash bits key
  let r := probeLoop probe m.table key originalIdx (2 * 2 ^ bits) originalIdx 0 none m.tombstone
  (r.1, { m with tombstone := r.2 })

/-- `operator[]` up to the returned reference, which is the slot's index. -/
def subscript [DecidableEq Key] [SizeKey Key]
    (m : OpenAddressMap bits Key Value probe rehashes) (key : Key) :
    Except MapFault (Fin (2 ^ bits)) × OpenAddressMap bits Key Value probe rehashes :=
  match m.probeForSlotIdx key with
  | (.error fault, m) => (.error fault, m)
  | (.ok idx, m) =>
    (.ok idx, { m with
      table := Function.update m.table idx { m.table idx with state := .occupied, key := key } })

/-- Writes through a reference to the value of a slot. -/
def setValue (m : OpenAddressMap bits Key Value probe rehashes) (idx : Fin (2 ^ bits))
    (value : Value) : OpenAddressMap bits Key Value probe rehashes :=
  { m with table := Function.update m.table idx { m.table idx with value := value } }

/-- `m[key] = value`. -/
def assign [DecidableEq Key] [SizeKey Key]
    (m : OpenAddressMap bits Key Value probe rehashes) (key : Key) (value : Value) :
    Except MapFault Unit × OpenAddressMap bits Key Value probe rehashes :=
  match m.subscript key with
  | (.error fault, m) => (.error fault, m)
  | (.ok idx, m) => (.ok (), m.setValue idx value)

def find [DecidableEq Key] [SizeKey Key]
    (m : OpenAddressMap bits Key Value probe rehashes) (key : Key) :
    Except MapFault (Handle bits) × OpenAddressMap bits Key Value probe rehashes :=
  match m.probeForSlotIdx key with
  | (.error fault, m) => (.error fault, m)
  | (.ok idx, m) =>
    let slot := m.table idx
    if slot.state ≠ .occupied ∨ slot.key ≠ key then (.ok none, m) else (.ok (some idx), m)

/-- The `while` of the re-insertion loop, with a bound on its steps. -/
def freeSlotLoop (probe : Probe) (table : Fin (2 ^ bits) → Slot Key Value) :
    ℕ → Fin (2 ^ bits) → ℕ → Option (Fin (2 ^ bits))
  | 0, _, _ => none
  | fuel + 1, idx, attempt =>
    if (table idx).state = .occupied then
      freeSlotLoop probe table fuel (probe.step idx (attempt + 1)) (attempt + 1)
    else some idx

def clearTombstones (table : Fin (2 ^ bits) → Slot Key Value) : Fin (2 ^ bits) → Slot Key Value :=
  fun i => if (table i).state = .tombstone then { table i with state := .empty } else table i

/-- One iteration of the re-insertion loop: slot `i` is evicted and placed again. -/
def reinsert [SizeKey Key] (probe : Probe) (table : Fin (2 ^ bits) → Slot Key Value)
    (i : Fin (2 ^ bits)) : Option (Fin (2 ^ bits) → Slot Key Value) :=
  if (table i).state ≠ .occupied then some table
  else
    let evicted := table i
    let table := Function.update table i { table i with state := .empty }
    match freeSlotLoop probe table (2 * 2 ^ bits) (hash bits evicted.key) 0 with
    | none => none
    | some idx => some (Function.update table idx evicted)

def rehash [SizeKey Key] (m : OpenAddressMap bits Key Value probe rehashes) :
    Option (OpenAddressMap bits Key Value probe rehashes) :=
  match (List.finRange (2 ^ bits)).foldlM (reinsert probe) (clearTombstones m.table) with
  | none => none
  | some table => some { table := table, tombstone := 0 }

/-- `erase(Handle)` before it decides whether to rehash. -/
def bury (m : OpenAddressMap bits Key Value probe rehashes) (idx : Fin (2 ^ bits)) :
    OpenAddressMap bits Key Value probe rehashes :=
  { table := Function.update m.table idx { m.table idx with state := .tombstone }
    tombstone := m.tombstone + 1 }

def rehashDue (m : OpenAddressMap bits Key Value probe rehashes) : Bool :=
  rehashes && decide (2 ^ bits >>> 2 < m.tombstone.toNat)

def eraseHandle [SizeKey Key] (m : OpenAddressMap bits Key Value probe rehashes)
    (h : Handle bits) : Except MapFault Unit × OpenAddressMap bits Key Value probe rehashes :=
  match h with
  | none => (.error .nullHandle, m)
  | some idx =>
    let m := m.bury idx
    if m.rehashDue then
      match m.rehash with
      | none => (.error .diverged, m)
      | some m => (.ok (), m)
    else (.ok (), m)

def erase [DecidableEq Key] [SizeKey Key]
    (m : OpenAddressMap bits Key Value probe rehashes) (key : Key) :
    Except MapFault Unit × OpenAddressMap bits Key Value probe rehashes :=
  match m.find key with
  | (.error fault, m) => (.error fault, m)
  | (.ok none, m) => (.ok (), m)
  | (.ok (some idx), m) => m.eraseHandle (some idx)

end OpenAddressMap

end ItchOrderBook.Util

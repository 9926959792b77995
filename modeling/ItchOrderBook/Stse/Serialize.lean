import ItchOrderBook.Stse.Layout

/-! # Serialization and deserialization

The field-wise functions and the flat ones. Serializing and deserializing walk a
type alike, one writing the buffer and the other the object, so the walk is one
definition over the memory it changes. Unless a name says otherwise a function is the
one that runs: of `if consteval` it has the run-time branch.
-/
namespace ItchOrderBook.Stse
open Transfer ByteOrder

abbrev Memory := ℕ → UInt8

structure Span where
  data : ℕ
  size : ℕ
  deriving DecidableEq, Repr

def Span.subspan (s : Span) (offset : ℕ) : Span := ⟨s.data + offset, s.size - offset⟩

@[simp] theorem Span.subspan_zero (s : Span) : s.subspan 0 = s := rfl

@[simp] theorem Span.subspan_data (s : Span) (n : ℕ) : (s.subspan n).data = s.data + n := rfl

@[simp] theorem Span.subspan_subspan (s : Span) (m n : ℕ) :
    (s.subspan m).subspan n = s.subspan (m + n) := by
  simp [subspan, Nat.add_assoc, Nat.sub_sub]

/-- `destination[i] = source[i]` for `count` bytes. -/
def constexprMemcpy (dst : Memory) (d : ℕ) (src : Memory) (s count : ℕ) : Memory :=
  transfer (block d s count) dst src

/-- `std::bit_cast` of the `size` bytes at `addr` to a byte array. -/
def bitCast (m : Memory) (addr size : ℕ) : List UInt8 :=
  (List.range size).map fun i => m (addr + i)

def arrayMemory (bytes : List UInt8) : Memory := fun i => bytes.getD i 0

/-- Bytes of a scalar in the other byte order. An integral value is swapped as it
is, any other through the unsigned integer of its size; both swap the number its
bytes stand for. -/
def swapped (native : Endian) (size : ℕ) (bytes : List UInt8) : List UInt8 :=
  store native size (byteswap size (load native bytes))

def serializeScalar (native e : Endian) (size : ℕ) (buffer : Memory) (destination : Span)
    (source : Memory) (addr : ℕ) : Memory × Span :=
  let bytes := if e = native then bitCast source addr size
    else swapped native size (bitCast source addr size)
  (constexprMemcpy buffer destination.data (arrayMemory bytes) 0 size, destination.subspan size)

def deserializeScalar (native e : Endian) (size : ℕ) (destination : Memory) (source : Span)
    (buffer : Memory) (addr : ℕ) : Memory × Span :=
  let bytes := if e = native then bitCast buffer source.data size
    else swapped native size (bitCast buffer source.data size)
  (constexprMemcpy destination addr (arrayMemory bytes) 0 size, source.subspan size)

/-- `write_bytes` of `serialize_flat`, range by range. -/
def copyToWire (sequence : List ByteRange) (buffer : Memory) (data : ℕ) (source : Memory)
    (addr : ℕ) : Memory :=
  sequence.foldl (fun buffer r => constexprMemcpy buffer (data + r.wireOffset) source
    (addr + r.structOffset) r.count) buffer

/-- `read_bytes` of `deserialize_flat`, range by range. -/
def copyFromWire (sequence : List ByteRange) (destination : Memory) (addr : ℕ) (buffer : Memory)
    (data : ℕ) : Memory :=
  sequence.foldl (fun destination r => constexprMemcpy destination (addr + r.structOffset)
    buffer (data + r.wireOffset) r.count) destination

def serializeFlat (T : TypeInfo) (buffer : Memory) (destination : Span) (source : Memory)
    (addr : ℕ) : Memory × Span :=
  (copyToWire T.byteLayout buffer destination.data source addr, destination.subspan T.rawSize)

def deserializeFlat (T : TypeInfo) (destination : Memory) (source : Span) (buffer : Memory)
    (addr : ℕ) : Memory × Span :=
  (copyFromWire T.byteLayout destination addr buffer source.data, source.subspan T.rawSize)

/-- A function over an object at an address that changes a memory and advances a span. -/
abbrev Visit := Memory → Span → ℕ → Memory × Span

mutual
/-- `serialize_fields` and `deserialize_fields`: the scalar, static container and
aggregate cases. `sub` is the call on an element or member. -/
def TypeInfo.walk (scalar : ℕ → Visit) (sub : TypeInfo → Visit → Visit) : TypeInfo → Visit
  | .scalar size, m, span, addr => scalar size m span addr
  | .array count value, m, span, addr =>
    (List.range count).foldl (fun r i => sub value (value.walk scalar sub) r.1 r.2
      (addr + value.objectSize * i)) (m, span)
  | .aggregate _ members, m, span, addr => members.walk scalar sub m span addr
/-- The member loop over `non_skipped_members_of`. -/
def MemberList.walk (scalar : ℕ → Visit) (sub : TypeInfo → Visit → Visit) : MemberList → Visit
  | .nil, m, span, _ => (m, span)
  | .cons info type rest, m, span, addr =>
    if info.skip then rest.walk scalar sub m span addr
    else if info.ignore then rest.walk scalar sub m (span.subspan type.rawSize) addr
    else
      let r := sub type (type.walk scalar sub) m span (addr + info.position)
      rest.walk scalar sub r.1 r.2 addr
end

/-- `serialize` and `deserialize` choose between the flat and the field-wise path. -/
def dispatch (native e : Endian) (flat : TypeInfo → Visit) (T : TypeInfo) (fields : Visit) : Visit :=
  if e = native then flat T else fields

def serializeFields (native e : Endian) (T : TypeInfo) (buffer : Memory) (destination : Span)
    (source : Memory) (addr : ℕ) : Memory × Span :=
  T.walk (fun size buffer destination addr =>
      serializeScalar native e size buffer destination source addr)
    (dispatch native e fun T buffer destination addr =>
      serializeFlat T buffer destination source addr)
    buffer destination addr

def deserializeFields (native e : Endian) (T : TypeInfo) (destination : Memory) (source : Span)
    (buffer : Memory) (addr : ℕ) : Memory × Span :=
  T.walk (fun size destination source addr =>
      deserializeScalar native e size destination source buffer addr)
    (dispatch native e fun T destination source addr =>
      deserializeFlat T destination source buffer addr)
    destination source addr

def serialize (native e : Endian) (T : TypeInfo) (buffer : Memory) (destination : Span)
    (source : Memory) (addr : ℕ) : Memory × Span :=
  if e = native then serializeFlat T buffer destination source addr
  else serializeFields native e T buffer destination source addr

def deserialize (native e : Endian) (T : TypeInfo) (destination : Memory) (source : Span)
    (buffer : Memory) (addr : ℕ) : Memory × Span :=
  if e = native then deserializeFlat T destination source buffer addr
  else deserializeFields native e T destination source buffer addr

/-- `serial_size_v<Args...>`. -/
def serialSize (types : List TypeInfo) : ℕ := (types.map TypeInfo.rawSize).sum

/-- `serialize_advance`; each object is its own memory. -/
def serializeAdvance (native e : Endian) (buffer : Memory) (destination : Span)
    (data : List (TypeInfo × Memory)) : Memory × Span :=
  data.foldl (fun r object => serialize native e object.1 r.1 r.2 object.2 0) (buffer, destination)

/-- `deserialize_advance`, with the objects it has assigned. -/
def deserializeAdvance (native e : Endian) (buffer : Memory) :
    Span → List (TypeInfo × Memory) → List Memory × Span
  | data, [] => ([], data)
  | data, object :: parsed =>
    let r := deserialize native e object.1 object.2 data buffer 0
    let rs := deserializeAdvance native e buffer r.2 parsed
    (r.1 :: rs.1, rs.2)

/-! ## Constant evaluation

In a constant evaluation the flat functions go through an array of the object's bytes.
A type with a pointer in it, if only in a skipped member, has no flat path there:
`std::bit_cast` of it is no constant expression. The functions below are for the others,
`BitCastSafe`, for whose parts `serialize` and `deserialize` choose as at run time.
-/

/-- The branches of `if consteval`. -/
inductive Evaluation
  | runTime
  | constant
  deriving DecidableEq

/-- `destination = std::bit_cast<T>(raw_bytes)`: every scalar of the object is assigned. -/
def assignBits (T : TypeInfo) (destination : Memory) (addr : ℕ) (rawBytes : Memory) : Memory :=
  transfer (T.objectBytes.map fun i => (addr + i, i)) destination rawBytes

def Evaluation.serializeFlat : Evaluation → TypeInfo → Memory → Span → Memory → ℕ → Memory × Span
  | .runTime, T, buffer, destination, source, addr =>
    Stse.serializeFlat T buffer destination source addr
  | .constant, T, buffer, destination, source, addr =>
    let rawBytes := arrayMemory (bitCast source addr T.objectSize)
    (copyToWire T.byteLayout buffer destination.data rawBytes 0, destination.subspan T.rawSize)

def Evaluation.deserializeFlat : Evaluation → TypeInfo → Memory → Span → Memory → ℕ → Memory × Span
  | .runTime, T, destination, source, buffer, addr =>
    Stse.deserializeFlat T destination source buffer addr
  | .constant, T, destination, source, buffer, addr =>
    let rawBytes := copyFromWire T.byteLayout (fun _ => 0) 0 buffer source.data
    (assignBits T destination addr rawBytes, source.subspan T.rawSize)

def Evaluation.serializeFields (evaluation : Evaluation) (native e : Endian) (T : TypeInfo)
    (buffer : Memory) (destination : Span) (source : Memory) (addr : ℕ) : Memory × Span :=
  T.walk (fun size buffer destination addr =>
      serializeScalar native e size buffer destination source addr)
    (dispatch native e fun T buffer destination addr =>
      evaluation.serializeFlat T buffer destination source addr)
    buffer destination addr

def Evaluation.deserializeFields (evaluation : Evaluation) (native e : Endian) (T : TypeInfo)
    (destination : Memory) (source : Span) (buffer : Memory) (addr : ℕ) : Memory × Span :=
  T.walk (fun size destination source addr =>
      deserializeScalar native e size destination source buffer addr)
    (dispatch native e fun T destination source addr =>
      evaluation.deserializeFlat T destination source buffer addr)
    destination source addr

end ItchOrderBook.Stse

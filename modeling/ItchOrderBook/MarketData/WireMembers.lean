import ItchOrderBook.MarketData.Messages
import ItchOrderBook.Stse.FlatPath
import ItchOrderBook.Stse.RoundTrip

/-! # Members on the wire

The members of a struct lie one behind another on the wire, ignored ones included, and
where the platform aligns them in the object. The native path copies their bytes and
leaves the swap to the conversion of `BigEndian`; decoding a struct of plain integers
in the other endianness swaps every member as it is read. Both are transfers along the
pairs of the members, so they are compared member by member.
-/
namespace ItchOrderBook.MarketData
open Stse ByteOrder Transfer

/-- A member with its offset in the object and on the wire. -/
structure WireMember where
  ignore : Bool
  offset : ℕ
  type : CppType
  wire : ℕ

def WireMember.size (m : WireMember) : ℕ := sizeOnWire m.type

/-- The bytes of the object a member occupies. -/
def WireMember.Covers (m : WireMember) (i : ℕ) : Prop :=
  m.offset ≤ i ∧ i < m.offset + m.type.reflect.objectSize

/-- The members not skipped; each lies behind the serial sizes of those before it. -/
def wireMembers : Fields → ℕ → List WireMember
  | .nil, _ => []
  | .cons skip ignore offset type rest, wire =>
    if skip then wireMembers rest wire
    else ⟨ignore, offset, type, wire⟩ :: wireMembers rest (wire + sizeOnWire type)

/-- The members a struct declares itself. -/
def fieldsOf : CppType → Fields
  | .record _ _ members => members
  | _ => .nil

def membersOf (T : CppType) : List WireMember := wireMembers (fieldsOf T) 0

/-! ## Values of members -/

inductive Value
  | number (value : ℕ)
  | characters (bytes : List UInt8)
  deriving DecidableEq

/-- The size of the `T` of a `BigEndian<T>`. -/
def integerSize? : CppType → Option ℕ
  | .record recordSize .nil (.cons false false 0 (.scalar size) .nil) =>
    if recordSize = size then some size else none
  | _ => none

/-- A `BigEndian` is read through its conversion. -/
def WireMember.read (native : Endian) (object : Memory) (m : WireMember) : Value :=
  match integerSize? m.type with
  | some size => .number (readBigEndian native object m.offset size)
  | none => .characters (bitCast object m.offset m.size)

/-- A plain integer stands for the number of its object representation. -/
def WireMember.readPlain (native : Endian) (object : Memory) (m : WireMember) : Value :=
  match integerSize? m.type with
  | some size => .number (load native (bitCast object m.offset size))
  | none => .characters (bitCast object m.offset m.size)

def WireMember.onWire (bytes : List UInt8) (m : WireMember) : Value :=
  match integerSize? m.type with
  | some size => .number (wireNumber bytes m.wire size)
  | none => .characters ((bytes.drop m.wire).take m.size)

/-! ## The struct of plain integers -/

/-- `T` for a `BigEndian<T>`. -/
def plainType (T : CppType) : CppType :=
  match integerSize? T with
  | some size => .scalar size
  | none => T

def plainFields : Fields → Fields
  | .nil => .nil
  | .cons skip ignore offset type rest =>
    .cons skip ignore offset (plainType type) (plainFields rest)

def plainStruct : CppType → CppType
  | .record size bases members => .record size bases (plainFields members)
  | T => T

/-! ## Natural alignment -/

mutual
/-- `alignof(T)`; a scalar is aligned to its size. -/
def alignment : CppType → ℕ
  | .scalar size => size
  | .array _ value => alignment value
  | .record _ bases members => max (basesAlignment bases) (fieldsAlignment members)
def basesAlignment : Bases → ℕ
  | .nil => 1
  | .cons _ bases members rest =>
    max (max (basesAlignment bases) (fieldsAlignment members)) (basesAlignment rest)
def fieldsAlignment : Fields → ℕ
  | .nil => 1
  | .cons _ _ _ type rest => max (alignment type) (fieldsAlignment rest)
end

/-- The first multiple of `align` from `position` on. -/
def AlignedFrom (position align offset : ℕ) : Prop :=
  position ≤ offset ∧ offset < position + align ∧ align ∣ offset

instance (position align offset : ℕ) : Decidable (AlignedFrom position align offset) :=
  inferInstanceAs (Decidable (_ ∧ _ ∧ _))

/-- Every member at the first offset behind the one before it that aligns it, and the
size at the first that aligns the class. -/
def NaturallyPlaced (size align : ℕ) : ℕ → Fields → Prop
  | position, .nil => AlignedFrom position align size
  | position, .cons _ _ offset type rest => AlignedFrom position (alignment type) offset ∧
      NaturallyPlaced size align (offset + type.reflect.objectSize) rest

def NaturallyPlaced.decide (size align : ℕ) : ∀ (position : ℕ) (members : Fields),
    Decidable (NaturallyPlaced size align position members)
  | position, .nil => inferInstanceAs (Decidable (AlignedFrom position align size))
  | _, .cons _ _ offset type rest =>
    have := NaturallyPlaced.decide size align (offset + type.reflect.objectSize) rest
    inferInstanceAs (Decidable (_ ∧ _))

instance (size align position : ℕ) (members : Fields) :
    Decidable (NaturallyPlaced size align position members) :=
  NaturallyPlaced.decide size align position members

/-! ## The structs of the feed -/

def feedTypes : List CppType :=
  [headerViewType, addOrderType, addOrderMPIDType, orderExecutedType, orderExecutedWithPriceType,
    orderCancelType, orderDeleteType, orderReplaceType]

/-- An integer or characters. -/
inductive Readable : CppType → Prop
  | integer (size : ℕ) : Readable (bigEndian size)
  | char : Readable charType
  | string (n : ℕ) : Readable (shortString n)

/-- A naturally aligned struct whose members that are not ignored can be read. -/
structure FeedStruct where
  size : ℕ
  members : Fields
  natural : NaturallyPlaced size (fieldsAlignment members) 0 members
  readable : ∀ m ∈ wireMembers members 0, m.ignore = false → Readable m.type

def FeedStruct.type (S : FeedStruct) : CppType := .record S.size .nil S.members

theorem feedTypes_record : ∀ T ∈ feedTypes, .record T.reflect.objectSize .nil (fieldsOf T) = T := by
  simp only [feedTypes, List.forall_mem_cons]
  exact ⟨rfl, rfl, rfl, rfl, rfl, rfl, rfl, rfl, List.forall_mem_nil _⟩

theorem feedTypes_natural : ∀ T ∈ feedTypes,
    NaturallyPlaced T.reflect.objectSize (fieldsAlignment (fieldsOf T)) 0 (fieldsOf T) := by
  decide

theorem feedTypes_readable : ∀ T ∈ feedTypes, ∀ m ∈ membersOf T, m.ignore = false →
    Readable m.type := by
  simp [feedTypes, membersOf, fieldsOf, wireMembers, member, ignored, headerViewType, addOrderType,
    addOrderMPIDType, orderExecutedType, orderExecutedWithPriceType, orderCancelType,
    orderDeleteType, orderReplaceType, Readable.integer, Readable.char, Readable.string]

theorem exists_feedStruct {T : CppType} (hT : T ∈ feedTypes) : ∃ S : FeedStruct, S.type = T :=
  ⟨⟨T.reflect.objectSize, fieldsOf T, feedTypes_natural T hT, feedTypes_readable T hT⟩,
    feedTypes_record T hT⟩

/-! ## Types of members -/

theorem sizeOnWire_eq (T : CppType) : sizeOnWire T = T.reflect.rawSize := by
  simp [sizeOnWire, serialSize]

@[simp] theorem integerSize?_bigEndian (size : ℕ) : integerSize? (bigEndian size) = some size := by
  simp [integerSize?, bigEndian]

@[simp] theorem integerSize?_charType : integerSize? charType = none := rfl

@[simp] theorem integerSize?_shortString (n : ℕ) : integerSize? (shortString n) = none := rfl

theorem eq_bigEndian_of_integerSize? {T : CppType} {size : ℕ} (h : integerSize? T = some size) :
    T = bigEndian size := by
  unfold integerSize? at h
  split at h
  · split at h
    · simp_all [bigEndian]
    · cases h
  · cases h

@[simp] theorem sizeOnWire_plainType (T : CppType) : sizeOnWire (plainType T) = sizeOnWire T := by
  unfold plainType
  split
  · rename_i size hsize
    rw [eq_bigEndian_of_integerSize? hsize]
    rfl
  · rfl

@[simp] theorem sizeOnWire_bigEndian (size : ℕ) : sizeOnWire (bigEndian size) = size := rfl

@[simp] theorem sizeOnWire_shortString (n : ℕ) : sizeOnWire (shortString n) = n := Nat.mul_one n

/-! ## The pairs of one member -/

theorem flatPairs_scalar (size : ℕ) : (TypeInfo.scalar size).flatPairs = block 0 0 size :=
  pairsOf_singleton ⟨0, 0, size⟩

theorem swappedPairs_scalar (size : ℕ) :
    (CppType.scalar size).reflect.swappedPairs = mirrored size := rfl

theorem flatPairs_bigEndian (size : ℕ) : (bigEndian size).reflect.flatPairs = block 0 0 size :=
  flatPairs_scalar size

theorem flatPairs_shortString (n : ℕ) : (shortString n).reflect.flatPairs = block 0 0 n := by
  simp [shortString, CppType.reflect, flatPairs_array, flatPairs_scalar, TypeInfo.objectSize, shift,
    block, List.map_eq_flatMap]

theorem swappedPairs_shortString (n : ℕ) : (shortString n).reflect.swappedPairs = block 0 0 n := by
  simp [shortString, CppType.reflect, TypeInfo.swappedPairs, TypeInfo.wirePairs, mirrored,
    TypeInfo.objectSize, TypeInfo.rawSize, shift, block, List.map_eq_flatMap]

section Readable
variable {T : CppType} (h : Readable T)
include h

theorem Readable.sizeOnWire_le : sizeOnWire T ≤ T.reflect.objectSize := by
  cases h with
  | integer size => exact le_refl size
  | char => exact le_refl 1
  | string n =>
    rw [sizeOnWire_shortString, shortString, CppType.reflect, TypeInfo.objectSize]
    split <;> simp_all [CppType.reflect, TypeInfo.objectSize]

theorem Readable.flatPairs : T.reflect.flatPairs = block 0 0 (sizeOnWire T) := by
  cases h with
  | integer size => exact flatPairs_bigEndian size
  | char => exact flatPairs_scalar 1
  | string n => simpa using flatPairs_shortString n

/-- A character is the same in either order. -/
theorem Readable.swappedPairs_plain (hT : integerSize? T = none) :
    (plainType T).reflect.swappedPairs = block 0 0 (sizeOnWire T) := by
  cases h with
  | integer size => simp at hT
  | char => rfl
  | string n => simpa [plainType] using swappedPairs_shortString n

theorem Readable.flatPairs_fst :
    (T.reflect.flatPairs.map Prod.fst).Perm (List.range (sizeOnWire T)) := by
  simp [h.flatPairs, block, Function.comp_def]

theorem Readable.swappedPairs_plain_fst :
    ((plainType T).reflect.swappedPairs.map Prod.fst).Perm (List.range (sizeOnWire T)) := by
  cases hT : integerSize? T with
  | none => simp [h.swappedPairs_plain hT, block, Function.comp_def]
  | some size =>
    obtain rfl := eq_bigEndian_of_integerSize? hT
    simpa [plainType, swappedPairs_scalar] using mirrored_fst_perm size

end Readable

/-! ## The pairs of the members -/

/-- The bytes paired up for a member; `leaf` gives those of a type. -/
def WireMember.pairs (leaf : CppType → List (ℕ × ℕ)) (m : WireMember) : List (ℕ × ℕ) :=
  if m.ignore then [] else shift m.offset m.wire (leaf m.type)

def memberPairs (leaf : CppType → List (ℕ × ℕ)) (ms : List WireMember) : List (ℕ × ℕ) :=
  ms.flatMap (WireMember.pairs leaf)

@[simp] theorem memberPairs_cons (leaf : CppType → List (ℕ × ℕ)) (m : WireMember)
    (ms : List WireMember) : memberPairs leaf (m :: ms) = m.pairs leaf ++ memberPairs leaf ms :=
  List.flatMap_cons

theorem mem_pairs {leaf : CppType → List (ℕ × ℕ)} {m : WireMember} {p : ℕ × ℕ} :
    p ∈ m.pairs leaf ↔ m.ignore = false ∧ ∃ q ∈ leaf m.type,
      p = (m.offset + q.1, m.wire + q.2) := by
  unfold WireMember.pairs
  cases m.ignore <;> simp [mem_shift]

def WireMember.plain (m : WireMember) : WireMember := { m with type := plainType m.type }

theorem wireMembers_plainFields (members : Fields) (wire : ℕ) :
    wireMembers (plainFields members) wire = (wireMembers members wire).map WireMember.plain := by
  fun_induction wireMembers members wire with
  | case1 => rfl
  | case2 ignore offset type rest wire hrest => simpa [plainFields, wireMembers] using hrest
  | case3 skip ignore offset type rest wire hskip hrest =>
    simpa [plainFields, wireMembers, hskip, WireMember.plain] using hrest

/-- The flat layout of a struct, member by member. -/
theorem pairsOf_enumerateAggregate (members : Fields) (wire : ℕ) :
    pairsOf ((members.dataMembers 0).enumerateAggregate 0 wire) =
      memberPairs (fun T => T.reflect.flatPairs) (wireMembers members wire) := by
  fun_induction wireMembers members wire with
  | case1 => rfl
  | case2 ignore offset type rest wire hrest =>
    simp [Fields.dataMembers, MemberList.enumerateAggregate, hrest]
  | case3 skip ignore offset type rest wire hskip hrest =>
    have htype := type.reflect.pairsOf_enumerateObject offset wire
    rw [sizeOnWire_eq] at hrest
    cases ignore <;> simp [Fields.dataMembers, MemberList.enumerateAggregate, hskip, hrest, htype,
      sizeOnWire_eq, TypeInfo.flatPairs, WireMember.pairs]

/-- The field-wise walk of a struct, member by member. -/
theorem wirePairs_dataMembers (members : Fields) (wire : ℕ) :
    (members.dataMembers 0).wirePairs mirrored (fun _ ps => ps) wire =
      memberPairs (fun T => T.reflect.swappedPairs) (wireMembers members wire) := by
  fun_induction wireMembers members wire with
  | case1 => rfl
  | case2 ignore offset type rest wire hrest =>
    simp [Fields.dataMembers, MemberList.wirePairs, hrest]
  | case3 skip ignore offset type rest wire hskip hrest =>
    rw [sizeOnWire_eq] at hrest
    cases ignore <;> simp [Fields.dataMembers, MemberList.wirePairs, hskip, hrest, sizeOnWire_eq,
      TypeInfo.swappedPairs, WireMember.pairs]

theorem WireMember.size_of_integer (m : WireMember) {size : ℕ}
    (h : integerSize? m.type = some size) : m.size = size := by
  simp [WireMember.size, eq_bigEndian_of_integerSize? h]

/-- Assigned from the other end, the bytes stand in the other order. -/
theorem bitCast_reverse {m m' : Memory} {addr addr' size : ℕ}
    (h : ∀ i < size, m (addr + (size - 1 - i)) = m' (addr' + i)) :
    bitCast m addr size = (bitCast m' addr' size).reverse := by
  refine List.ext_getElem (by simp) fun i hi _ => ?_
  have hi : i < size := by simpa using hi
  have hmirror := h (size - 1 - i) (by omega)
  have hback : size - 1 - (size - 1 - i) = i := by omega
  rw [hback] at hmirror
  simpa [bitCast] using hmirror

/-! ## Where the members lie -/

section Placed
variable {size align : ℕ}

theorem le_offset : ∀ {position : ℕ} {members : Fields} (wire : ℕ),
    NaturallyPlaced size align position members →
      ∀ m ∈ wireMembers members wire, position ≤ m.offset
  | _, .nil, _, _, m, hm => by cases hm
  | position, .cons skip ignore offset type rest, wire, h, m, hm => by
    obtain ⟨⟨hoffset, -⟩, hrest⟩ := h
    have hnext : ∀ wire, ∀ m ∈ wireMembers rest wire, position ≤ m.offset := fun wire m hm =>
      (hoffset.trans (Nat.le_add_right _ _)).trans (le_offset wire hrest m hm)
    cases skip with
    | true => exact hnext wire m (by simpa [wireMembers] using hm)
    | false =>
      rcases List.mem_cons.mp hm with rfl | hm
      · exact hoffset
      · exact hnext _ m hm

/-- No two members share a byte of the object. -/
theorem pairwise_apart : ∀ {position : ℕ} {members : Fields} (wire : ℕ),
    NaturallyPlaced size align position members →
      (wireMembers members wire).Pairwise fun k m => ∀ i, k.Covers i → ¬ m.Covers i
  | _, .nil, _, _ => List.Pairwise.nil
  | position, .cons skip ignore offset type rest, wire, h => by
    have hrest := fun wire => pairwise_apart wire h.2
    cases skip with
    | true => simpa [wireMembers] using hrest wire
    | false =>
      refine List.Pairwise.cons (fun m hm i hi hm' => ?_) (hrest _)
      have hbehind := le_offset _ h.2 m hm
      have hend : i < offset + type.reflect.objectSize := hi.2
      exact absurd (hbehind.trans hm'.1) (Nat.not_le.mpr hend)

end Placed

theorem wire_add_size_le : ∀ {members : Fields} {wire : ℕ} {m : WireMember},
    m ∈ wireMembers members wire → m.wire + m.size ≤ wire + (members.dataMembers 0).rawSize
  | .nil, _, _, hm => by cases hm
  | .cons skip ignore offset type rest, wire, m, hm => by
    have hrest := @wire_add_size_le rest
    cases skip with
    | true => exact hrest (by simpa [wireMembers] using hm)
    | false =>
      simp only [Fields.dataMembers, MemberList.rawSize, ← sizeOnWire_eq, Bool.false_eq_true, if_false]
      rcases List.mem_cons.mp hm with rfl | hm
      · simp only [WireMember.size]
        omega
      · have := hrest hm
        omega

namespace FeedStruct
variable (S : FeedStruct)

theorem pairwise_apart : (membersOf S.type).Pairwise fun k m => ∀ i, k.Covers i → ¬ m.Covers i :=
  MarketData.pairwise_apart 0 S.natural

theorem ignored_apart {k m : WireMember} (hk : k ∈ membersOf S.type) (hm : m ∈ membersOf S.type)
    (hkeep : k.ignore = false) (hignore : m.ignore = true) {i : ℕ} (hi : m.Covers i) :
    ¬ k.Covers i := by
  have hne : k ≠ m := by
    rintro rfl
    simp [hkeep] at hignore
  have hsymm : Std.Symm fun k m : WireMember => ∀ i, k.Covers i → ¬ m.Covers i :=
    ⟨fun _ _ h i hm hk => h i hk hm⟩
  exact fun h => S.pairwise_apart.forall hk hm hne i h hi

theorem flatPairs_type : S.type.reflect.flatPairs =
    memberPairs (fun T => T.reflect.flatPairs) (membersOf S.type) :=
  pairsOf_enumerateAggregate S.members 0

theorem swappedPairs_plainStruct : (plainStruct S.type).reflect.swappedPairs =
    memberPairs (fun T => (plainType T).reflect.swappedPairs) (membersOf S.type) := by
  have h := wirePairs_dataMembers (plainFields S.members) 0
  rw [wireMembers_plainFields] at h
  exact h.trans (List.flatMap_map _ _ _)

/-! ## Decoding along the pairs of the members -/

section Decode
variable {leaf : CppType → List (ℕ × ℕ)}
  (hleaf : ∀ {T : CppType}, Readable T → ((leaf T).map Prod.fst).Perm (List.range (sizeOnWire T)))
include hleaf

theorem covers_of_mem_pairs {m : WireMember} (hm : m ∈ membersOf S.type) {p : ℕ × ℕ}
    (hp : p ∈ m.pairs leaf) : m.Covers p.1 := by
  obtain ⟨hkeep, q, hq, rfl⟩ := mem_pairs.mp hp
  have hread := S.readable m hm hkeep
  have hlt : q.1 < sizeOnWire m.type :=
    List.mem_range.mp ((hleaf hread).mem_iff.mp (List.mem_map_of_mem hq))
  have hsize := hread.sizeOnWire_le
  exact ⟨Nat.le_add_right _ _, by omega⟩

theorem memberPairs_fst_nodup : ((memberPairs leaf (membersOf S.type)).map Prod.fst).Nodup := by
  rw [memberPairs, List.map_flatMap, List.nodup_flatMap]
  constructor
  · intro m hm
    cases hkeep : m.ignore with
    | true => simp [WireMember.pairs, hkeep]
    | false =>
      have hnodup := (hleaf (S.readable m hm hkeep)).nodup_iff.mpr List.nodup_range
      simpa [WireMember.pairs, hkeep, map_fst_shift] using hnodup.map (add_right_injective m.offset)
  · refine S.pairwise_apart.imp_of_mem fun {k m} hk hm hapart i hik him => ?_
    obtain ⟨p, hp, rfl⟩ := List.mem_map.mp hik
    obtain ⟨q, hq, hpq⟩ := List.mem_map.mp him
    have hcovers := S.covers_of_mem_pairs hleaf hm hq
    rw [hpq] at hcovers
    exact hapart p.1 (S.covers_of_mem_pairs hleaf hk hp) hcovers

theorem transfer_member {m : WireMember} (hm : m ∈ membersOf S.type) (hkeep : m.ignore = false)
    {q : ℕ × ℕ} (hq : q ∈ leaf m.type) (prior source : Memory) :
    transfer (memberPairs leaf (membersOf S.type)) prior source (m.offset + q.1) =
      source (m.wire + q.2) := by
  have hpair : (m.offset + q.1, m.wire + q.2) ∈ m.pairs leaf := mem_pairs.mpr ⟨hkeep, q, hq, rfl⟩
  exact transfer_of_mem (S.memberPairs_fst_nodup hleaf) (List.mem_flatMap.mpr ⟨m, hm, hpair⟩) _ _

theorem transfer_elsewhere {i : ℕ}
    (h : ∀ m ∈ membersOf S.type, m.ignore = false → ¬ m.Covers i) (prior source : Memory) :
    transfer (memberPairs leaf (membersOf S.type)) prior source i = prior i := by
  refine transfer_of_not_mem (fun hi => ?_) _ _
  obtain ⟨p, hp, rfl⟩ := List.mem_map.mp hi
  obtain ⟨m, hm, hpm⟩ := List.mem_flatMap.mp hp
  exact h m hm (mem_pairs.mp hpm).1 (S.covers_of_mem_pairs hleaf hm hpm)

end Decode

/-! ## The two decodings -/

section Members
variable {S} {m : WireMember} (hm : m ∈ membersOf S.type) {bytes : List UInt8}
  (hbytes : bytes.length = sizeOnWire S.type)
include hm hbytes

theorem wire_bound : m.wire + m.size ≤ bytes.length := by
  rw [hbytes, sizeOnWire_eq]
  exact (wire_add_size_le hm).trans_eq (Nat.zero_add _)

variable (hkeep : m.ignore = false) (prior : Memory)
include hkeep

/-- The native path copies the bytes of a member as they are. -/
theorem read_transfer :
    m.read .little (transfer S.type.reflect.flatPairs prior (arrayMemory bytes)) =
      m.onWire bytes := by
  have hcopied : bitCast (transfer S.type.reflect.flatPairs prior (arrayMemory bytes))
      m.offset m.size = (bytes.drop m.wire).take m.size := by
    rw [← bitCast_arrayMemory m.wire (wire_bound hm hbytes), S.flatPairs_type]
    refine bitCast_congr fun i hi => ?_
    refine S.transfer_member Readable.flatPairs_fst hm hkeep (q := (i, i)) ?_ prior _
    rw [(S.readable m hm hkeep).flatPairs]
    exact mem_block.mpr ⟨i, hi, by simp⟩
  unfold WireMember.read WireMember.onWire
  cases hT : integerSize? m.type with
  | none => simp [hcopied]
  | some size =>
    rw [m.size_of_integer hT] at hcopied
    simp [readBigEndian, bigEndianValue_eq, hcopied, wireNumber]

/-- The field-wise path reverses the bytes of an integer. -/
theorem readPlain_transfer :
    m.readPlain .little
      (transfer (plainStruct S.type).reflect.swappedPairs prior (arrayMemory bytes)) =
      m.onWire bytes := by
  have hwire := bitCast_arrayMemory m.wire (wire_bound hm hbytes)
  have hassigned := fun q hq => S.transfer_member Readable.swappedPairs_plain_fst hm hkeep
    (q := q) hq prior (arrayMemory bytes)
  rw [← S.swappedPairs_plainStruct] at hassigned
  unfold WireMember.readPlain WireMember.onWire
  cases hT : integerSize? m.type with
  | none =>
    have hpairs := (S.readable m hm hkeep).swappedPairs_plain hT
    refine congrArg Value.characters ((bitCast_congr fun i hi => ?_).trans hwire)
    exact hassigned (i, i) (hpairs ▸ mem_block.mpr ⟨i, hi, by simp⟩)
  | some size =>
    have hpairs : (plainType m.type).reflect.swappedPairs = mirrored size := by
      simp [plainType, hT, swappedPairs_scalar]
    rw [m.size_of_integer hT] at hwire
    refine congrArg Value.number ?_
    rw [bitCast_reverse fun i hi => hassigned (size - 1 - i, i) (hpairs ▸ List.mem_map.mpr
      ⟨i, List.mem_range.mpr hi, rfl⟩), hwire]
    rfl

end Members

theorem rawSize_plainFields : ∀ members : Fields,
    ((plainFields members).dataMembers 0).rawSize = (members.dataMembers 0).rawSize
  | .nil => rfl
  | .cons skip ignore offset type rest => by
    have hrest := rawSize_plainFields rest
    have htype := sizeOnWire_plainType type
    simp only [sizeOnWire_eq] at htype
    simp only [plainFields, Fields.dataMembers, MemberList.rawSize, htype, hrest]

theorem sizeOnWire_plainStruct : sizeOnWire (plainStruct S.type) = sizeOnWire S.type := by
  rw [sizeOnWire_eq, sizeOnWire_eq]
  exact rawSize_plainFields S.members

end FeedStruct

/-- `deserialize_advance` of one object on a little-endian host. -/
def decode (e : Endian) (T : CppType) (bytes : List UInt8) (prior : Memory) :
    List Memory × Span :=
  deserializeAdvance .little e (arrayMemory bytes) ⟨0, bytes.length⟩ [(T.reflect, prior)]

theorem decode_native (T : CppType) (bytes : List UInt8) (prior : Memory) :
    decode .little T bytes prior = ([transfer T.reflect.flatPairs prior (arrayMemory bytes)],
      ⟨sizeOnWire T, bytes.length - sizeOnWire T⟩) := by
  simp [decode, deserializeAdvance, deserialize_native, copyIn, Span.subspan, sizeOnWire_eq]

theorem decode_big (T : CppType) (bytes : List UInt8) (prior : Memory) :
    decode .big T bytes prior = ([transfer T.reflect.swappedPairs prior (arrayMemory bytes)],
      ⟨sizeOnWire T, bytes.length - sizeOnWire T⟩) := by
  have he : Endian.big ≠ .little := by decide
  simp [decode, deserializeAdvance, deserialize_eq he, copyIn, Span.subspan, sizeOnWire_eq]

/-- Deserializing a header or a message on a little-endian host reads every member that
is not ignored off its place on the wire, agrees with decoding the struct of plain
integers from big-endian bytes, and writes nothing else. -/
theorem members_decoded (T : CppType) (hT : T ∈ feedTypes) (bytes : List UInt8)
    (hbytes : bytes.length = sizeOnWire T) (prior plainPrior : Memory) :
    ∃ object plain : Memory,
      decode .little T bytes prior = ([object], ⟨bytes.length, 0⟩) ∧
      decode .big (plainStruct T) bytes plainPrior = ([plain], ⟨bytes.length, 0⟩) ∧
      (∀ m ∈ membersOf T, m.ignore = false → m.read .little object = m.onWire bytes ∧
        m.readPlain .little plain = m.read .little object) ∧
      (∀ m ∈ membersOf T, m.ignore = true → ∀ i, m.Covers i →
        object i = prior i ∧ plain i = plainPrior i) ∧
      ∀ i, (∀ m ∈ membersOf T, m.ignore = false → ¬ m.Covers i) →
        object i = prior i ∧ plain i = plainPrior i := by
  obtain ⟨S, rfl⟩ := exists_feedStruct hT
  have helsewhere : ∀ i, (∀ m ∈ membersOf S.type, m.ignore = false → ¬ m.Covers i) →
      transfer S.type.reflect.flatPairs prior (arrayMemory bytes) i = prior i ∧
      transfer (plainStruct S.type).reflect.swappedPairs plainPrior (arrayMemory bytes) i =
        plainPrior i := by
    intro i hi
    rw [S.flatPairs_type, S.swappedPairs_plainStruct]
    exact ⟨S.transfer_elsewhere Readable.flatPairs_fst hi _ _,
      S.transfer_elsewhere Readable.swappedPairs_plain_fst hi _ _⟩
  refine ⟨_, _, ?_, ?_, fun m hm hkeep => ?_, fun m hm hignore i hi => ?_, helsewhere⟩
  · simp [decode_native, hbytes]
  · simp [decode_big, hbytes, S.sizeOnWire_plainStruct]
  · have hread := FeedStruct.read_transfer hm hbytes hkeep prior
    exact ⟨hread, (FeedStruct.readPlain_transfer hm hbytes hkeep plainPrior).trans hread.symm⟩
  · exact helsewhere i fun k hk hkeep => S.ignored_apart hk hm hkeep hignore hi

/-- A header of type `A` with locate code 5. -/
def headerBytes : List UInt8 := [65, 0, 5, 0, 9, 1, 2, 3, 4, 5, 6]

theorem members_decoded_header : ∃ object plain : Memory,
    decode .little headerViewType headerBytes (fun _ => 255) = ([object], ⟨11, 0⟩) ∧
    decode .big (plainStruct headerViewType) headerBytes (fun _ => 255) = ([plain], ⟨11, 0⟩) ∧
    readBigEndian .little object 2 2 = 5 ∧ load .little (bitCast plain 2 2) = 5 ∧
    object 4 = 255 := by
  obtain ⟨object, plain, hobject, hplain, hread, hignored, -⟩ := members_decoded headerViewType
    (by simp [feedTypes]) headerBytes rfl (fun _ => 255) (fun _ => 255)
  let locate : WireMember := ⟨false, 2, bigEndian 2, 1⟩
  let tracking : WireMember := ⟨true, 4, bigEndian 2, 3⟩
  have hlocate : locate ∈ membersOf headerViewType := List.mem_cons_of_mem _ List.mem_cons_self
  have htracking : tracking ∈ membersOf headerViewType :=
    List.mem_cons_of_mem _ (List.mem_cons_of_mem _ List.mem_cons_self)
  obtain ⟨hvalue, hplainValue⟩ := hread locate hlocate rfl
  have hwire : locate.onWire headerBytes = .number 5 := by decide
  rw [hvalue, hwire] at hplainValue
  rw [hwire] at hvalue
  refine ⟨object, plain, hobject, hplain, ?_, ?_, (hignored tracking htracking rfl 4 ?_).1⟩
  · exact Value.number.inj hvalue
  · exact Value.number.inj hplainValue
  · exact ⟨le_refl 4, by decide⟩

end ItchOrderBook.MarketData

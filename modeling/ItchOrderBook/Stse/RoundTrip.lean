import ItchOrderBook.Stse.FieldWalk

/-! # The field-wise round trip

In an endianness other than the native one the parts of a value are serialized field
by field at every level. Serializing and deserializing then go along the same pairs of
bytes, in opposite directions.
-/
namespace ItchOrderBook.Stse
open Transfer ByteOrder

/-! ## The pairs of a field-wise walk -/

/-- The pairs in an endianness other than the native one. -/
def TypeInfo.swappedPairs (T : TypeInfo) : List (ℕ × ℕ) := T.wirePairs mirrored fun _ ps => ps

theorem TypeInfo.fieldPairs_of_ne {native e : Endian} (he : e ≠ native) (T : TypeInfo) :
    T.fieldPairs native e = T.swappedPairs := by
  have hleaf : leafPairs native e = mirrored := funext fun n => if_neg he
  have hsub : dispatchPairs native e = fun _ ps => ps := by
    funext T ps
    exact if_neg he
  rw [fieldPairs, hleaf, hsub, swappedPairs]

theorem mirrored_ascending (n : ℕ) : Ascending 0 n (mirrored n) where
  pairwise := by
    simpa [mirrored, Function.comp_def] using List.pairwise_lt_range
  bounds p hp := by
    obtain ⟨i, hi, rfl⟩ := List.mem_map.mp hp
    exact ⟨Nat.zero_le i, List.mem_range.mp hi⟩

theorem mirrored_fst_perm (n : ℕ) : ((mirrored n).map Prod.fst).Perm (List.range n) := by
  have h : (mirrored n).map Prod.fst = (List.range n).reverse := by
    rw [List.range_eq_range', List.reverse_range']
    simp [mirrored]
  rw [h]
  exact List.reverse_perm _

mutual
/-- On the object side the pairs are the serialized bytes. -/
theorem TypeInfo.swappedPairs_fst : ∀ T : TypeInfo,
    (T.swappedPairs.map Prod.fst).Perm T.serializedBytes
  | .scalar size => mirrored_fst_perm size
  | .array count value => by
    simp only [TypeInfo.swappedPairs, TypeInfo.wirePairs, TypeInfo.serializedBytes,
      List.map_flatMap, map_fst_shift]
    exact List.Perm.flatMap_left _ fun i _ => value.swappedPairs_fst.map _
  | .aggregate _ members => members.swappedPairs_fst 0
theorem MemberList.swappedPairs_fst : ∀ (ms : MemberList) (wire : ℕ),
    ((ms.wirePairs mirrored (fun _ ps => ps) wire).map Prod.fst).Perm ms.serializedBytes
  | .nil, _ => List.Perm.refl _
  | .cons info type rest, wire => by
    have hrest := rest.swappedPairs_fst
    by_cases hskip : info.skip
    · simp only [MemberList.wirePairs, MemberList.serializedBytes, hskip, Bool.true_or, if_true]
      exact hrest wire
    by_cases hignore : info.ignore
    · simp only [MemberList.wirePairs, MemberList.serializedBytes, hskip, hignore, Bool.or_true,
        if_true, Bool.false_eq_true, if_false]
      exact hrest _
    · simp only [MemberList.wirePairs, MemberList.serializedBytes, hskip, hignore, Bool.or_false,
        Bool.false_eq_true, if_false, List.map_append, map_fst_shift]
      exact (type.swappedPairs_fst.map _).append (hrest _)
end

mutual
/-- On the wire the pairs of a type follow one another within its size. -/
theorem TypeInfo.swappedPairs_ascending : ∀ T : TypeInfo, Ascending 0 T.rawSize T.swappedPairs
  | .scalar size => mirrored_ascending size
  | .array count value => value.swappedPairs_ascending.flatMap value.objectSize count
  | .aggregate _ members => by
    have h := members.swappedPairs_ascending 0
    rwa [Nat.zero_add] at h
theorem MemberList.swappedPairs_ascending : ∀ (ms : MemberList) (wire : ℕ),
    Ascending wire (wire + ms.rawSize) (ms.wirePairs mirrored (fun _ ps => ps) wire)
  | .nil, _ => Ascending.nil
  | .cons info type rest, wire => by
    have hrest := rest.swappedPairs_ascending
    by_cases hskip : info.skip
    · simp only [MemberList.wirePairs, MemberList.rawSize, if_pos hskip]
      exact hrest wire
    simp only [MemberList.wirePairs, MemberList.rawSize, if_neg hskip, ← Nat.add_assoc]
    split
    · exact (hrest _).mono (Nat.le_add_right _ _)
    · exact type.swappedPairs_ascending.shift.append (hrest _) (Nat.le_add_right _ _)
        (Nat.le_add_right _ _)
end

/-! ## One object -/

section Object
variable {native e : Endian} (he : e ≠ native) (T : TypeInfo)
include he

theorem serialize_eq (buffer : Memory) (destination : Span) (source : Memory) (addr : ℕ) :
    serialize native e T buffer destination source addr =
      (copyOut source (shift addr destination.data T.swappedPairs) buffer,
        destination.subspan T.rawSize) := by
  rw [serialize, if_neg he, ← T.fieldPairs_of_ne he]
  exact serializeFields_along native e source T buffer destination addr

theorem deserialize_eq (destination : Memory) (source : Span) (buffer : Memory) (addr : ℕ) :
    deserialize native e T destination source buffer addr =
      (copyIn buffer (shift addr source.data T.swappedPairs) destination,
        source.subspan T.rawSize) := by
  rw [deserialize, if_neg he, ← T.fieldPairs_of_ne he]
  exact deserializeFields_along native e buffer T destination source addr

omit he in
theorem swappedPairs_fst_nodup (hT : T.objectBytes.Nodup) (addr wire : ℕ) :
    ((shift addr wire T.swappedPairs).map Prod.fst).Nodup := by
  rw [map_fst_shift]
  have hserialized := (List.nodup_append.mp (T.objectBytes_perm.nodup_iff.mp hT)).1
  exact (T.swappedPairs_fst.nodup_iff.mpr hserialized).map (add_right_injective addr)

/-- Deserializing what was serialized sets the serialized bytes and no other. -/
theorem deserialize_serialize (hT : T.objectBytes.Nodup) (buffer : Memory) (span : Span)
    (value prior wire : Memory)
    (hwire : ∀ i < T.rawSize, wire (span.data + i) =
      (serialize native e T buffer span value 0).1 (span.data + i)) (i : ℕ) :
    (deserialize native e T prior span wire 0).1 i =
      if i ∈ T.serializedBytes then value i else prior i := by
  have hasc : Ascending span.data (span.data + T.rawSize) (shift 0 span.data T.swappedPairs) :=
    T.swappedPairs_ascending.shift
  have hread : (deserialize native e T prior span wire 0).1 =
      copyIn (serialize native e T buffer span value 0).1
        (shift 0 span.data T.swappedPairs) prior := by
    rw [deserialize_eq he]
    refine transfer_congr_src (fun p hp => ?_) prior
    obtain ⟨hlo, hhi⟩ := hasc.bounds p hp
    have h := hwire (p.2 - span.data) (by omega)
    rwa [Nat.add_sub_cancel' hlo] at h
  rw [hread, serialize_eq he]
  simp only [copyIn, copyOut]
  rw [transfer_back (swappedPairs_fst_nodup T hT 0 span.data) hasc.nodup]
  have hmem : i ∈ (shift 0 span.data T.swappedPairs).map Prod.fst ↔ i ∈ T.serializedBytes := by
    rw [map_fst_shift, ← T.swappedPairs_fst.mem_iff]
    simp
  simp only [hmem]

/-- Serializing what was deserialized writes back the bytes it was read from. -/
theorem serialize_deserialize (hT : T.objectBytes.Nodup) (buffer copy : Memory)
    (data destination : Span)
    (hcopy : ∀ i < T.rawSize, copy (destination.data + i) = buffer (data.data + i))
    (prior : Memory) :
    (serialize native e T copy destination
      (deserialize native e T prior data buffer 0).1 0).1 = copy := by
  rw [deserialize_eq he, serialize_eq he]
  refine transfer_self _ _ fun p hp => ?_
  obtain ⟨q, hq, rfl⟩ := List.mem_map.mp hp
  obtain ⟨r, hr, rfl⟩ := mem_shift.mp hq
  have hread := transfer_of_mem (swappedPairs_fst_nodup T hT 0 data.data)
    (mem_shift.mpr ⟨r, hr, rfl⟩) prior buffer
  exact hread.trans (hcopy r.2 (T.swappedPairs_ascending.bounds r hr).2).symm

/-- Serializing writes within the bytes it advances over. -/
theorem serialize_frame (buffer : Memory) (destination : Span) (source : Memory) {i : ℕ}
    (hi : i < destination.data ∨ destination.data + T.rawSize ≤ i) :
    (serialize native e T buffer destination source 0).1 i = buffer i := by
  rw [serialize_eq he]
  refine transfer_of_not_mem (fun hmem => ?_) _ _
  obtain ⟨p, hp, rfl⟩ := List.mem_map.mp hmem
  obtain ⟨q, hq, rfl⟩ := List.mem_map.mp hp
  have hasc : Ascending destination.data (destination.data + T.rawSize)
      (shift 0 destination.data T.swappedPairs) := T.swappedPairs_ascending.shift
  have hb : destination.data ≤ q.swap.1 ∧ q.swap.1 < destination.data + T.rawSize :=
    hasc.bounds q hq
  omega

end Object

/-! ## The argument pack -/

/-- A type whose scalars have storage of their own, as the members of a class do. -/
structure ObjectType where
  type : CppType
  separate : type.reflect.objectBytes.Nodup

def ObjectType.info (T : ObjectType) : TypeInfo := T.type.reflect

/-- An argument: the object serialized and the one deserialized into. -/
structure Argument where
  type : ObjectType
  value : Memory
  prior : Memory

def values (objects : List Argument) : List (TypeInfo × Memory) :=
  objects.map fun o => (o.type.info, o.value)

def priors (objects : List Argument) : List (TypeInfo × Memory) :=
  objects.map fun o => (o.type.info, o.prior)

def typesOf (objects : List Argument) : List TypeInfo := objects.map fun o => o.type.info

/-- The serialized members hold the value, all other bytes what they held before. -/
structure Argument.Restored (o : Argument) (parsed : Memory) : Prop where
  serialized : ∀ i ∈ o.type.info.serializedBytes, parsed i = o.value i
  reserved : ∀ i ∈ o.type.info.reservedBytes, parsed i = o.prior i
  other : ∀ i, i ∉ o.type.info.serializedBytes → parsed i = o.prior i

@[simp] theorem serialSize_cons (T : TypeInfo) (types : List TypeInfo) :
    serialSize (T :: types) = T.rawSize + serialSize types := by
  simp [serialSize]

theorem serializeAdvance_cons (native e : Endian) (buffer : Memory) (destination : Span)
    (o : TypeInfo × Memory) (objects : List (TypeInfo × Memory)) :
    serializeAdvance native e buffer destination (o :: objects) =
      serializeAdvance native e (serialize native e o.1 buffer destination o.2 0).1
        (serialize native e o.1 buffer destination o.2 0).2 objects := rfl

section Pack
variable {native e : Endian} (he : e ≠ native)
include he

theorem serializeAdvance_span (objects : List (TypeInfo × Memory)) (buffer : Memory)
    (destination : Span) : (serializeAdvance native e buffer destination objects).2 =
      destination.subspan (serialSize (objects.map Prod.fst)) := by
  induction objects generalizing buffer destination with
  | nil => rfl
  | cons o objects ih =>
    rw [serializeAdvance_cons, ih, serialize_eq he, Span.subspan_subspan, List.map_cons, serialSize_cons]

theorem serializeAdvance_frame (objects : List (TypeInfo × Memory)) (buffer : Memory)
    (destination : Span) {i : ℕ} (hi : i < destination.data) :
    (serializeAdvance native e buffer destination objects).1 i = buffer i := by
  induction objects generalizing buffer destination with
  | nil => rfl
  | cons o objects ih =>
    have hnext : i < (serialize native e o.1 buffer destination o.2 0).2.data := by
      rw [serialize_eq he, Span.subspan_data]
      exact Nat.lt_add_right _ hi
    rw [serializeAdvance_cons, ih _ _ hnext]
    exact serialize_frame he o.1 buffer destination o.2 (Or.inl hi)

theorem deserializeAdvance_span (objects : List (TypeInfo × Memory)) (buffer : Memory)
    (data : Span) : (deserializeAdvance native e buffer data objects).2 =
      data.subspan (serialSize (objects.map Prod.fst)) := by
  induction objects generalizing data with
  | nil => rfl
  | cons o objects ih =>
    refine (ih _).trans ?_
    rw [deserialize_eq he, Span.subspan_subspan, List.map_cons, serialSize_cons]

/-- The objects read from a buffer that holds the pack's bytes. -/
theorem deserializeAdvance_serializeAdvance (objects : List Argument) (buffer wire : Memory)
    (destination : Span)
    (hwire : ∀ i, destination.data ≤ i → wire i =
      (serializeAdvance native e buffer destination (values objects)).1 i) :
    List.Forall₂ Argument.Restored objects
      (deserializeAdvance native e wire destination (priors objects)).1 := by
  induction objects generalizing buffer destination with
  | nil => exact List.Forall₂.nil
  | cons o objects ih =>
    have hT := o.type.separate
    have hperm := o.type.info.objectBytes_perm.nodup_iff.mp hT
    have hdisj := (List.nodup_append.mp hperm).2.2
    let r := serialize native e o.type.info buffer destination o.value 0
    have hspan : r.2 = destination.subspan o.type.info.rawSize := by
      simp only [r, serialize_eq he]
    -- the arguments behind the first leave its bytes alone
    have hfirst : ∀ i < o.type.info.rawSize,
        wire (destination.data + i) = r.1 (destination.data + i) := by
      intro i hi
      rw [hwire _ (Nat.le_add_right _ _)]
      refine serializeAdvance_frame he (values objects) r.1 r.2 ?_
      rw [hspan, Span.subspan_data]
      exact Nat.add_lt_add_left hi _
    have hparsed := deserialize_serialize he o.type.info hT buffer destination o.value o.prior wire
      hfirst
    refine List.Forall₂.cons ?_ ?_
    · constructor
      · exact fun i hi => (hparsed i).trans (if_pos hi)
      · exact fun i hi => (hparsed i).trans (if_neg fun hs => hdisj i hs i hi rfl)
      · exact fun i hi => (hparsed i).trans (if_neg hi)
    · have hrest := ih r.1 r.2 fun i hi => by
        rw [hspan, Span.subspan_data] at hi
        exact hwire i ((Nat.le_add_right _ _).trans hi)
      have hnext : (deserialize native e o.type.info o.prior destination wire 0).2 = r.2 := by
        rw [hspan, deserialize_eq he]
      change List.Forall₂ _ _ (deserializeAdvance native e wire
        (deserialize native e o.type.info o.prior destination wire 0).2 (priors objects)).1
      rw [hnext]
      exact hrest

theorem serializeAdvance_deserializeAdvance (objects : List Argument) (buffer copy : Memory)
    (data destination : Span)
    (hcopy : ∀ i < serialSize (typesOf objects),
      copy (destination.data + i) = buffer (data.data + i)) :
    (serializeAdvance native e copy destination ((typesOf objects).zip
      (deserializeAdvance native e buffer data (priors objects)).1)).1 = copy := by
  induction objects generalizing data destination with
  | nil => rfl
  | cons o objects ih =>
    have hsize : serialSize (typesOf (o :: objects)) =
      o.type.info.rawSize + serialSize (typesOf objects) := serialSize_cons _ _
    rw [hsize] at hcopy
    let parsed := deserialize native e o.type.info o.prior data buffer 0
    let r := serialize native e o.type.info copy destination parsed.1 0
    have hfirst : r.1 = copy :=
      serialize_deserialize he o.type.info o.type.separate buffer copy data destination
        (fun i hi => hcopy i (Nat.lt_add_right _ hi)) o.prior
    have hr : r.2 = destination.subspan o.type.info.rawSize := by
      simp only [r, serialize_eq he]
    have hparsed : parsed.2 = data.subspan o.type.info.rawSize := by
      simp only [parsed, deserialize_eq he]
    change (serializeAdvance native e r.1 r.2 ((typesOf objects).zip
      (deserializeAdvance native e buffer parsed.2 (priors objects)).1)).1 = copy
    rw [hfirst, hr, hparsed]
    refine ih _ _ fun i hi => ?_
    have h := hcopy (o.type.info.rawSize + i) (Nat.add_lt_add_left hi _)
    rwa [← Nat.add_assoc, ← Nat.add_assoc] at h

end Pack

/-- Serializing a pack of objects and deserializing the bytes restores every member
neither skipped nor ignored and nothing else; serializing the objects read from a
buffer over a copy of it changes nothing. -/
theorem advance_round_trip (native e : Endian) (he : e ≠ native) (objects : List Argument) :
    (∀ (buffer : Memory) (destination : Span),
      let out := serializeAdvance native e buffer destination (values objects)
      let back := deserializeAdvance native e out.1 destination (priors objects)
      out.2 = destination.subspan (serialSize (typesOf objects)) ∧
      back.2 = destination.subspan (serialSize (typesOf objects)) ∧
      List.Forall₂ Argument.Restored objects back.1) ∧
    ∀ (buffer copy : Memory) (data destination : Span),
      (∀ i < serialSize (typesOf objects), copy (destination.data + i) = buffer (data.data + i)) →
      let parsed := deserializeAdvance native e buffer data (priors objects)
      parsed.2 = data.subspan (serialSize (typesOf objects)) ∧
      (serializeAdvance native e copy destination ((typesOf objects).zip parsed.1)).1 = copy := by
  have hvalues : (values objects).map Prod.fst = typesOf objects := by
    simp [values, typesOf, Function.comp_def]
  have hpriors : (priors objects).map Prod.fst = typesOf objects := by
    simp [priors, typesOf, Function.comp_def]
  constructor
  · intro buffer destination
    refine ⟨?_, ?_, ?_⟩
    · rw [serializeAdvance_span he, hvalues]
    · rw [deserializeAdvance_span he, hpriors]
    · exact deserializeAdvance_serializeAdvance he objects buffer _ destination fun _ _ => rfl
  · intro buffer copy data destination hcopy
    refine ⟨?_, ?_⟩
    · rw [deserializeAdvance_span he, hpriors]
    · exact serializeAdvance_deserializeAdvance he objects buffer copy data destination hcopy

/-- A class with a base member, a skipped, an ignored and an array member. -/
def taggedLevels : CppType :=
  .record 16 (.cons 0 .nil (.cons false false 0 (.scalar 2) .nil) .nil)
    (.cons true false 4 (.scalar 4) <| .cons false true 8 (.scalar 1) <|
      .cons false false 10 (.array 2 (.scalar 2)) .nil)

def taggedArgument : Argument where
  type := ⟨taggedLevels, by decide⟩
  value i := UInt8.ofNat i
  prior _ := 255

theorem advance_round_trip_tagged :
    let out := serializeAdvance .little .big (fun _ => 0) ⟨0, 8⟩ (values [taggedArgument])
    let back := deserializeAdvance .little .big out.1 ⟨0, 8⟩ (priors [taggedArgument])
    out.2 = ⟨7, 1⟩ ∧ back.2 = ⟨7, 1⟩ ∧ List.Forall₂ Argument.Restored [taggedArgument] back.1 ∧
    (serializeAdvance .little .big out.1 ⟨0, 8⟩
      ((typesOf [taggedArgument]).zip back.1)).1 = out.1 := by
  have h := advance_round_trip .little .big (by decide) [taggedArgument]
  obtain ⟨hout, hback, hparsed⟩ := h.1 (fun _ => 0) ⟨0, 8⟩
  exact ⟨hout, hback, hparsed, (h.2 _ _ ⟨0, 8⟩ ⟨0, 8⟩ fun _ _ => rfl).2⟩

end ItchOrderBook.Stse

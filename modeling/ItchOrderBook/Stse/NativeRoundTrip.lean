import ItchOrderBook.Stse.FlatPath
import ItchOrderBook.Stse.RoundTrip
import Mathlib.Data.List.Perm.Subperm

/-! # The native round trip

In the native endianness whole objects are copied along their layouts at run time. A pack of
objects then comes back exactly when every layout reads the bytes that are serialized and no
two of them are sent to one wire byte.
-/
namespace ItchOrderBook.Stse
open Transfer ByteOrder

/-- The layout reads the bytes that are serialized. -/
def TypeInfo.InPlace (T : TypeInfo) : Prop := (T.flatPairs.map Prod.fst).Perm T.serializedBytes

/-- The wire bytes of a pack, counted from its first object. -/
def wireBytes : List TypeInfo → List ℕ
  | [] => []
  | T :: types => T.flatPairs.map Prod.snd ++ (wireBytes types).map (T.rawSize + ·)

/-! ## How many bytes a layout has -/

mutual
theorem TypeInfo.length_flatPairs : ∀ T : TypeInfo, T.flatPairs.length = T.serializedBytes.length
  | .scalar size => by
    simp [TypeInfo.flatPairs, TypeInfo.enumerateObject, ByteRange.pairs, block,
      TypeInfo.serializedBytes]
  | .array count value => by
    simp [flatPairs_array, TypeInfo.serializedBytes, List.length_flatMap, shift,
      value.length_flatPairs]
  | .aggregate _ members => members.length_pairs 0
theorem MemberList.length_pairs : ∀ (ms : MemberList) (wire : ℕ),
    (pairsOf (ms.enumerateAggregate 0 wire)).length = ms.serializedBytes.length
  | .nil, _ => rfl
  | .cons info type rest, wire => by
    have hrest := rest.length_pairs
    simp only [MemberList.enumerateAggregate, MemberList.serializedBytes]
    by_cases hskip : info.skip
    · simpa [hskip] using hrest wire
    by_cases hignore : info.ignore
    · simpa [hskip, hignore] using hrest _
    · have htype := type.length_flatPairs
      simp only [hskip, hignore, Bool.or_false, Bool.false_eq_true, if_false, pairsOf_append,
        List.length_append, List.length_map, hrest]
      rw [type.pairsOf_enumerateObject]
      simpa [shift, TypeInfo.flatPairs] using htype
end

theorem TypeInfo.inPlace_of_placed {T : TypeInfo} (h : T.Placed) : T.InPlace := by
  rw [TypeInfo.InPlace, T.flatPairs_fst h]

namespace ObjectType
variable {T : ObjectType}

theorem serialized_nodup (T : ObjectType) : T.info.serializedBytes.Nodup :=
  (List.nodup_append.mp (T.info.objectBytes_perm.nodup_iff.mp T.separate)).1

/-- A layout that misses no serialized byte reads nothing else. -/
theorem inPlace_of_subset (h : T.info.serializedBytes ⊆ T.info.flatPairs.map Prod.fst) :
    T.info.InPlace := by
  have hlength : (T.info.flatPairs.map Prod.fst).length ≤ T.info.serializedBytes.length := by
    rw [List.length_map, T.info.length_flatPairs]
  exact ((T.serialized_nodup.subperm h).perm_of_length_le hlength).symm

theorem fst_nodup (h : T.info.InPlace) : (T.info.flatPairs.map Prod.fst).Nodup :=
  h.nodup_iff.mpr T.serialized_nodup

end ObjectType

/-! ## One object -/

section Object
variable (native : Endian) (T : TypeInfo)

theorem serialize_native (buffer : Memory) (destination : Span) (source : Memory) (addr : ℕ) :
    serialize native native T buffer destination source addr =
      (copyOut source (shift addr destination.data T.flatPairs) buffer,
        destination.subspan T.rawSize) := by
  rw [serialize, if_pos rfl]
  exact serializeFlat_along source T buffer destination addr

theorem serialize_native_at (hsnd : (T.flatPairs.map Prod.snd).Nodup) (buffer : Memory)
    (destination : Span) (source : Memory) {p : ℕ × ℕ} (hp : p ∈ T.flatPairs) :
    (serialize native native T buffer destination source 0).1 (destination.data + p.2) =
      source p.1 := by
  have hswap : ((shift 0 destination.data T.flatPairs).map Prod.swap).map Prod.fst =
      (T.flatPairs.map Prod.snd).map (destination.data + ·) := by
    simp [shift]
  have hmem : (destination.data + p.2, 0 + p.1) ∈
      (shift 0 destination.data T.flatPairs).map Prod.swap :=
    List.mem_map.mpr ⟨_, mem_shift.mpr ⟨p, hp, rfl⟩, rfl⟩
  rw [serialize_native]
  refine (transfer_of_mem ?_ hmem buffer source).trans (by rw [Nat.zero_add])
  rw [hswap]
  exact hsnd.map (add_right_injective _)

theorem serialize_native_frame (buffer : Memory) (destination : Span) (source : Memory) {i : ℕ}
    (hi : ∀ w ∈ T.flatPairs.map Prod.snd, destination.data + w ≠ i) :
    (serialize native native T buffer destination source 0).1 i = buffer i := by
  rw [serialize_native]
  refine transfer_of_not_mem (fun hmem => ?_) _ _
  obtain ⟨q, hq, rfl⟩ := List.mem_map.mp hmem
  obtain ⟨p, hp, rfl⟩ := List.mem_map.mp hq
  obtain ⟨r, hr, rfl⟩ := mem_shift.mp hp
  exact hi r.2 (List.mem_map.mpr ⟨r, hr, rfl⟩) rfl

/-- Deserializing takes each byte from its place on the wire. -/
theorem deserialize_native_at (hfst : (T.flatPairs.map Prod.fst).Nodup) (prior : Memory)
    (source : Span) (buffer : Memory) {p : ℕ × ℕ} (hp : p ∈ T.flatPairs) :
    (deserialize native native T prior source buffer 0).1 p.1 = buffer (source.data + p.2) := by
  have hmem : (0 + p.1, source.data + p.2) ∈ shift 0 source.data T.flatPairs :=
    mem_shift.mpr ⟨p, hp, rfl⟩
  have hnodup : ((shift 0 source.data T.flatPairs).map Prod.fst).Nodup := by
    simpa [map_fst_shift, Function.comp_def] using hfst
  have hread := transfer_of_mem hnodup hmem prior buffer
  rw [deserialize_native]
  rwa [Nat.zero_add] at hread

theorem deserialize_native_frame (prior : Memory) (source : Span) (buffer : Memory) {i : ℕ}
    (hi : i ∉ T.flatPairs.map Prod.fst) :
    (deserialize native native T prior source buffer 0).1 i = prior i := by
  rw [deserialize_native]
  exact transfer_of_not_mem (by simpa [map_fst_shift] using hi) _ _

end Object

/-! ## The argument pack -/

section Pack
variable (native : Endian)

theorem serializeAdvance_native_frame (objects : List (TypeInfo × Memory)) (buffer : Memory)
    (destination : Span) {i : ℕ}
    (hi : ∀ w ∈ wireBytes (objects.map Prod.fst), destination.data + w ≠ i) :
    (serializeAdvance native native buffer destination objects).1 i = buffer i := by
  induction objects generalizing buffer destination with
  | nil => rfl
  | cons o objects ih =>
    simp only [List.map_cons, wireBytes, List.forall_mem_append, List.forall_mem_map] at hi
    rw [serializeAdvance_cons, ih]
    · exact serialize_native_frame native o.1 buffer destination o.2 (List.forall_mem_map.mpr hi.1)
    · intro w hw
      rw [serialize_native, Span.subspan_data, Nat.add_assoc]
      exact hi.2 w hw

theorem deserializeAdvance_native_cons (buffer : Memory) (data : Span) (o : TypeInfo × Memory)
    (objects : List (TypeInfo × Memory)) :
    (deserializeAdvance native native buffer data (o :: objects)).1 =
      (deserialize native native o.1 o.2 data buffer 0).1 ::
        (deserializeAdvance native native buffer (data.subspan o.1.rawSize) objects).1 := by
  rw [deserializeAdvance]
  simp only [deserialize_native]

theorem restored_of_nodup (objects : List Argument) (hplace : ∀ o ∈ objects, o.type.info.InPlace)
    (hwires : (wireBytes (typesOf objects)).Nodup) (buffer wire : Memory) (destination : Span)
    (hwire : ∀ w ∈ wireBytes (typesOf objects), wire (destination.data + w) =
      (serializeAdvance native native buffer destination (values objects)).1
        (destination.data + w)) :
    List.Forall₂ Argument.Restored objects
      (deserializeAdvance native native wire destination (priors objects)).1 := by
  induction objects generalizing buffer destination with
  | nil => exact List.Forall₂.nil
  | cons o objects ih =>
    let T := o.type.info
    obtain ⟨hself, hothers⟩ := List.forall_mem_cons.mp hplace
    have hfst : (T.flatPairs.map Prod.fst).Nodup := ObjectType.fst_nodup hself
    have hsplit : wireBytes (typesOf (o :: objects)) =
        T.flatPairs.map Prod.snd ++ (wireBytes (typesOf objects)).map (T.rawSize + ·) := rfl
    have htypes : (values objects).map Prod.fst = typesOf objects := by
      simp [values, typesOf, Function.comp_def]
    rw [hsplit, List.nodup_append] at hwires
    rw [hsplit] at hwire
    obtain ⟨hsnd, hrest, hdisjoint⟩ := hwires
    let r := serialize native native T buffer destination o.value 0
    have hspan : r.2 = destination.subspan T.rawSize := by simp only [r, serialize_native]
    have hstart : serializeAdvance native native buffer destination (values (o :: objects)) =
        serializeAdvance native native r.1 r.2 (values objects) := rfl
    -- the objects behind the first leave its wire bytes alone
    have hparsed : ∀ p ∈ T.flatPairs,
        (deserialize native native T o.prior destination wire 0).1 p.1 = o.value p.1 := by
      intro p hp
      have hw : p.2 ∈ T.flatPairs.map Prod.snd := List.mem_map_of_mem hp
      rw [deserialize_native_at native T hfst o.prior destination wire hp,
        hwire p.2 (List.mem_append_left _ hw), hstart, hspan,
        serializeAdvance_native_frame native (values objects) r.1]
      · exact serialize_native_at native T hsnd buffer destination o.value hp
      · intro w hw' heq
        rw [htypes] at hw'
        rw [Span.subspan_data, Nat.add_assoc] at heq
        exact hdisjoint p.2 hw _ (List.mem_map_of_mem hw') (Nat.add_left_cancel heq).symm
    have hread : ∀ i, i ∉ T.serializedBytes →
        (deserialize native native T o.prior destination wire 0).1 i = o.prior i :=
      fun i hi => deserialize_native_frame native T _ _ _ fun hmem => hi (hself.mem_iff.mp hmem)
    have hreserved := (List.nodup_append.mp
      (T.objectBytes_perm.nodup_iff.mp o.type.separate)).2.2
    have hfirst : o.Restored (deserialize native native T o.prior destination wire 0).1 := by
      refine ⟨fun i hi => ?_, fun i hi => hread i fun hs => hreserved i hs i hi rfl, hread⟩
      obtain ⟨p, hp, rfl⟩ := List.mem_map.mp (hself.mem_iff.mpr hi)
      exact hparsed p hp
    have hnext : (deserializeAdvance native native wire destination (priors (o :: objects))).1 =
        (deserialize native native T o.prior destination wire 0).1 ::
          (deserializeAdvance native native wire (destination.subspan T.rawSize)
            (priors objects)).1 :=
      deserializeAdvance_native_cons native wire destination (T, o.prior) (priors objects)
    rw [hnext]
    refine List.Forall₂.cons hfirst (ih hothers (List.Nodup.of_map _ hrest) r.1 _ fun w hw => ?_)
    rw [Span.subspan_data, Nat.add_assoc]
    have hlater := hwire _ (List.mem_append_right _ (List.mem_map_of_mem hw))
    rwa [hstart, hspan] at hlater

/-- What comes back is what the wire holds. -/
theorem wire_of_restored {value : UInt8} (objects : List Argument)
    (hplace : ∀ o ∈ objects, o.type.info.InPlace) (hvalue : ∀ o ∈ objects, ∀ i, o.value i = value)
    (wire : Memory) (data : Span) (h : List.Forall₂ Argument.Restored objects
      (deserializeAdvance native native wire data (priors objects)).1) :
    ∀ w ∈ wireBytes (typesOf objects), wire (data.data + w) = value := by
  induction objects generalizing data with
  | nil =>
    intro w hw
    cases hw
  | cons o objects ih =>
    obtain ⟨hself, hothers⟩ := List.forall_mem_cons.mp hplace
    obtain ⟨hown, hvalues⟩ := List.forall_mem_cons.mp hvalue
    have hcons : List.Forall₂ Argument.Restored (o :: objects)
        ((deserialize native native o.type.info o.prior data wire 0).1 ::
          (deserializeAdvance native native wire (data.subspan o.type.info.rawSize)
            (priors objects)).1) := by
      rwa [← deserializeAdvance_native_cons native wire data (o.type.info, o.prior)]
    obtain ⟨hfirst, hrest⟩ := List.forall₂_cons.mp hcons
    intro w hw
    rcases List.mem_append.mp hw with hw | hw
    · obtain ⟨p, hp, rfl⟩ := List.mem_map.mp hw
      rw [← deserialize_native_at native _ (ObjectType.fst_nodup hself) o.prior data wire hp,
        hfirst.serialized p.1 (hself.mem_iff.mp (List.mem_map_of_mem hp)), hown]
    · obtain ⟨w', hw', rfl⟩ := List.mem_map.mp hw
      rw [← Nat.add_assoc]
      exact ih hothers hvalues _ hrest w' hw'

/-- Objects of these types that all hold one value, to be read over zeros. -/
def uniform (types : List ObjectType) (value : UInt8) : List Argument :=
  types.map fun T => ⟨T, fun _ => value, fun _ => 0⟩

@[simp] theorem uniform_types (types : List ObjectType) (value : UInt8) :
    (uniform types value).map Argument.type = types := by
  simp [uniform, Function.comp_def]

theorem typesOf_eq (objects : List Argument) :
    typesOf objects = (objects.map Argument.type).map ObjectType.info := by
  simp [typesOf]

/-- Packs that can come back from some wire have layouts that read the serialized bytes, and
share no wire byte. -/
theorem nodup_of_restored (types : List ObjectType) (data : Span)
    (h : ∀ objects : List Argument, objects.map Argument.type = types →
      ∃ wire, List.Forall₂ Argument.Restored objects
        (deserializeAdvance native native wire data (priors objects)).1) :
    (∀ T ∈ types, T.info.InPlace) ∧ (wireBytes (types.map ObjectType.info)).Nodup := by
  induction types generalizing data with
  | nil => exact ⟨fun _ hT => (by cases hT), List.nodup_nil⟩
  | cons T types ih =>
    have hboth : ∀ (value prior : Memory) (rest : List Argument), rest.map Argument.type = types →
        ∃ wire, Argument.Restored ⟨T, value, prior⟩
            (deserialize native native T.info prior data wire 0).1 ∧
          List.Forall₂ Argument.Restored rest
            (deserializeAdvance native native wire (data.subspan T.info.rawSize)
              (priors rest)).1 := by
      intro value prior rest hrest
      obtain ⟨wire, hwire⟩ := h (⟨T, value, prior⟩ :: rest) (by rw [List.map_cons, hrest])
      refine ⟨wire, List.forall₂_cons.mp ?_⟩
      rwa [← deserializeAdvance_native_cons native wire data (T.info, prior)]
    obtain ⟨hothers, hrest⟩ := ih (data.subspan T.info.rawSize) fun objects hobjects => by
      obtain ⟨wire, -, hwire⟩ := hboth (fun _ => 0) (fun _ => 0) objects hobjects
      exact ⟨wire, hwire⟩
    have hself : T.info.InPlace := by
      refine ObjectType.inPlace_of_subset fun i hi => ?_
      by_contra hmissed
      obtain ⟨wire, hfirst, -⟩ := hboth (fun _ => 1) (fun _ => 0) (uniform types 0) (uniform_types ..)
      have hone := hfirst.serialized i hi
      rw [deserialize_native_frame native T.info _ _ _ hmissed] at hone
      exact absurd hone (show (0 : UInt8) ≠ 1 by decide)
    have hfst := ObjectType.fst_nodup hself
    have hwire : ∀ {value prior wire : Memory}, Argument.Restored ⟨T, value, prior⟩
        (deserialize native native T.info prior data wire 0).1 →
        ∀ p ∈ T.info.flatPairs, wire (data.data + p.2) = value p.1 := by
      intro value prior wire hfirst p hp
      rw [← deserialize_native_at native T.info hfst prior data wire hp]
      exact hfirst.serialized p.1 (hself.mem_iff.mp (List.mem_map_of_mem hp))
    refine ⟨List.forall_mem_cons.mpr ⟨hself, hothers⟩, List.nodup_append.mpr ⟨?_, ?_, ?_⟩⟩
    · refine List.Nodup.map_on (fun p hp q hq hpq => ?_) (List.Nodup.of_map _ hfst)
      obtain ⟨wire, hfirst, -⟩ := hboth (fun i => if i = p.1 then 1 else 0) (fun _ => 0)
        (uniform types 0) (uniform_types ..)
      have hp' := hwire hfirst p hp
      rw [hpq, hwire hfirst q hq] at hp'
      have hq' : q.1 = p.1 := by
        by_contra hne
        simp [hne] at hp'
      exact Prod.ext hq'.symm hpq
    · exact hrest.map (add_right_injective _)
    · rintro w hw w' hw' rfl
      obtain ⟨p, hp, rfl⟩ := List.mem_map.mp hw
      obtain ⟨w, hw, hpw⟩ := List.mem_map.mp hw'
      obtain ⟨wire, hfirst, hzeros⟩ :=
        hboth (fun _ => 1) (fun _ => 0) (uniform types 0) (uniform_types ..)
      have hzero : wire ((data.subspan T.info.rawSize).data + w) = 0 :=
        wire_of_restored native (uniform types 0) (by simpa [uniform] using hothers)
          (by simp [uniform]) wire _ hzeros w (by rwa [typesOf_eq, uniform_types])
      rw [Span.subspan_data, Nat.add_assoc, hpw, hwire hfirst p hp] at hzero
      exact absurd hzero (by decide)

theorem serializeAdvance_uniform (types : List ObjectType) (value : UInt8) (buffer : Memory)
    (destination : Span) : ∀ w ∈ wireBytes (types.map ObjectType.info),
    (serializeAdvance native native buffer destination (values (uniform types value))).1
      (destination.data + w) = value := by
  induction types generalizing buffer destination with
  | nil =>
    intro w hw
    cases hw
  | cons T types ih =>
    intro w hw
    let r := serialize native native T.info buffer destination (fun _ => value) 0
    have hspan : r.2 = destination.subspan T.info.rawSize := by simp only [r, serialize_native]
    have hstart : serializeAdvance native native buffer destination
        (values (uniform (T :: types) value)) =
          serializeAdvance native native r.1 r.2 (values (uniform types value)) := rfl
    have htypes : (values (uniform types value)).map Prod.fst = types.map ObjectType.info := by
      simp [values, uniform, Function.comp_def]
    rw [hstart, hspan]
    by_cases hlater : w ∈ (wireBytes (types.map ObjectType.info)).map (T.info.rawSize + ·)
    · obtain ⟨w', hw', rfl⟩ := List.mem_map.mp hlater
      rw [← Nat.add_assoc]
      exact ih r.1 (destination.subspan T.info.rawSize) w' hw'
    · have hw := (List.mem_append.mp hw).resolve_right hlater
      rw [serializeAdvance_native_frame native (values (uniform types value)) r.1]
      · simp only [r, serialize_native]
        refine transfer_of_forall ?_ (fun _ _ _ => rfl) buffer
        obtain ⟨p, hp, rfl⟩ := List.mem_map.mp hw
        exact List.mem_map.mpr ⟨_, List.mem_map.mpr ⟨_, mem_shift.mpr ⟨p, hp, rfl⟩, rfl⟩, rfl⟩
      · intro w' hw' heq
        rw [htypes] at hw'
        rw [Span.subspan_data, Nat.add_assoc] at heq
        exact hlater (List.mem_map.mpr ⟨w', hw', Nat.add_left_cancel heq⟩)

/-- Objects read from a buffer write back to a copy of it what is there. -/
theorem serializeAdvance_native_deserializeAdvance (objects : List Argument)
    (hplace : ∀ o ∈ objects, o.type.info.InPlace) (buffer copy : Memory) (data destination : Span)
    (hcopy : ∀ w ∈ wireBytes (typesOf objects),
      copy (destination.data + w) = buffer (data.data + w)) :
    (serializeAdvance native native copy destination ((typesOf objects).zip
      (deserializeAdvance native native buffer data (priors objects)).1)).1 = copy := by
  induction objects generalizing data destination with
  | nil => rfl
  | cons o objects ih =>
    let T := o.type.info
    obtain ⟨hself, hothers⟩ := List.forall_mem_cons.mp hplace
    have hsplit : wireBytes (typesOf (o :: objects)) =
        T.flatPairs.map Prod.snd ++ (wireBytes (typesOf objects)).map (T.rawSize + ·) := rfl
    rw [hsplit, List.forall_mem_append, List.forall_mem_map, List.forall_mem_map] at hcopy
    let parsed := deserialize native native T o.prior data buffer 0
    let r := serialize native native T copy destination parsed.1 0
    have hfirst : r.1 = copy := by
      simp only [r, serialize_native]
      refine transfer_self _ _ fun back hback => ?_
      obtain ⟨q, hq, rfl⟩ := List.mem_map.mp hback
      obtain ⟨p, hp, rfl⟩ := mem_shift.mp hq
      have hread := deserialize_native_at native T (ObjectType.fst_nodup hself) o.prior data buffer hp
      rw [← hcopy.1 p hp] at hread
      simpa using hread
    have hr : r.2 = destination.subspan T.rawSize := by simp only [r, serialize_native]
    have hparsed : parsed.2 = data.subspan T.rawSize := by simp only [parsed, deserialize_native]
    change (serializeAdvance native native r.1 r.2 ((typesOf objects).zip
      (deserializeAdvance native native buffer parsed.2 (priors objects)).1)).1 = copy
    rw [hfirst, hr, hparsed]
    refine ih hothers _ _ fun w hw => ?_
    simpa [Nat.add_assoc] using hcopy.2 w hw

end Pack

/-! ## When a pack comes back -/

/-- Every pack of objects of these types comes back from wherever it is serialized. -/
def RoundTrips (native : Endian) (types : List ObjectType) : Prop :=
  ∀ objects : List Argument, objects.map Argument.type = types →
    ∀ (buffer : Memory) (destination : Span),
      List.Forall₂ Argument.Restored objects
        (deserializeAdvance native native
          (serializeAdvance native native buffer destination (values objects)).1 destination
          (priors objects)).1

/-- Serializing a pack writes no byte but those the span is advanced over. -/
def StaysWithin (native : Endian) (types : List ObjectType) : Prop :=
  ∀ objects : List Argument, objects.map Argument.type = types →
    ∀ (buffer : Memory) (destination : Span) (i : ℕ),
      i < destination.data ∨ destination.data + serialSize (types.map ObjectType.info) ≤ i →
      (serializeAdvance native native buffer destination (values objects)).1 i = buffer i

theorem values_types (objects : List Argument) :
    (values objects).map Prod.fst = (objects.map Argument.type).map ObjectType.info := by
  simp [values, Function.comp_def]

/-- What a pack of objects of these types has read, it writes back. -/
def WritesBack (native : Endian) (types : List ObjectType) : Prop :=
  ∀ objects : List Argument, objects.map Argument.type = types →
    ∀ (buffer : Memory) (data : Span),
      (serializeAdvance native native buffer data ((typesOf objects).zip
        (deserializeAdvance native native buffer data (priors objects)).1)).1 = buffer

theorem roundTrips_iff (native : Endian) (types : List ObjectType) : RoundTrips native types ↔
    (∀ T ∈ types, T.info.InPlace) ∧ (wireBytes (types.map ObjectType.info)).Nodup := by
  constructor
  · intro h
    exact nodup_of_restored native types ⟨0, 0⟩ fun objects hobjects =>
      ⟨_, h objects hobjects (fun _ => 0) ⟨0, 0⟩⟩
  · rintro ⟨hplace, hwires⟩ objects rfl buffer destination
    refine restored_of_nodup native objects ?_ ?_ buffer _ destination fun _ _ => rfl
    · simpa using hplace
    · rwa [typesOf_eq]

theorem staysWithin_iff (native : Endian) (types : List ObjectType) : StaysWithin native types ↔
    ∀ w ∈ wireBytes (types.map ObjectType.info), w < serialSize (types.map ObjectType.info) := by
  constructor
  · intro h w hw
    by_contra hbeyond
    have hone := serializeAdvance_uniform native types 1 (fun _ => 0) ⟨0, 0⟩ w hw
    rw [h (uniform types 1) (uniform_types ..) _ _ _ (.inr (by simpa using hbeyond))] at hone
    exact absurd hone (by decide)
  · rintro h objects rfl buffer destination i hi
    refine serializeAdvance_native_frame native (values objects) buffer destination ?_
    intro w hw heq
    rw [values_types] at hw
    have hlt := h w hw
    omega

/-- At run time, in the native endianness, a pack of any types, inherited members and all,
comes back from the wire exactly when their layouts read the serialized bytes and no two of
these bytes share a wire byte; then it also writes back what it has read. It is written within the bytes the
span is advanced over exactly when no layout reaches beyond them. -/
theorem native_round_trip_iff (native : Endian) (types : List ObjectType) :
    (RoundTrips native types ↔
      (∀ T ∈ types, T.info.InPlace) ∧ (wireBytes (types.map ObjectType.info)).Nodup) ∧
    (StaysWithin native types ↔
      ∀ w ∈ wireBytes (types.map ObjectType.info), w < serialSize (types.map ObjectType.info)) ∧
    (RoundTrips native types → WritesBack native types) := by
  refine ⟨roundTrips_iff native types, staysWithin_iff native types, fun h => ?_⟩
  rintro objects rfl buffer data
  refine serializeAdvance_native_deserializeAdvance native objects ?_ buffer _ data data
    fun _ _ => rfl
  simpa using ((roundTrips_iff native _).mp h).1

/-! ## Types that come back -/

mutual
/-- With packed arrays the pairs of a layout follow one another on the wire. -/
theorem TypeInfo.flatPairs_ascending : ∀ T : TypeInfo, T.ArraysPacked →
    Ascending 0 T.rawSize T.flatPairs
  | .scalar size, _ => by
    have hblock : Ascending 0 size (block 0 0 size) := Ascending.block
    simpa [TypeInfo.flatPairs, TypeInfo.enumerateObject, TypeInfo.rawSize, ByteRange.pairs]
      using hblock
  | .array count value, h => by
    rw [flatPairs_array]
    by_cases hcount : count = 0
    · subst hcount
      exact Ascending.nil
    have hvalue := value.flatPairs_ascending fun U hU => h U (by
      rw [TypeInfo.components, if_neg hcount]
      exact List.mem_cons_of_mem _ hU)
    by_cases hempty : value.wireExtent = 0
    · have hnil : value.flatPairs = [] := by
        refine List.eq_nil_iff_forall_not_mem.mpr fun p hp => ?_
        exact absurd ((value.wireExtent_le_iff 0).mp hempty.le p hp) (Nat.not_lt_zero _)
      rw [List.flatMap_eq_nil_iff.mpr fun i _ => by rw [hnil, shift_nil]]
      exact Ascending.nil
    obtain rfl | hmany : count = 1 ∨ 2 ≤ count := by omega
    · simpa [TypeInfo.rawSize] using hvalue
    · have hpacked := h _ (TypeInfo.self_mem_components _) hmany hempty
      rw [hpacked]
      exact hvalue.flatMap value.rawSize count
  | .aggregate _ members, h => by
    have hmembers := members.pairs_ascending (fun U hU => h U (List.mem_cons_of_mem _ hU)) 0
    rwa [Nat.zero_add] at hmembers
theorem MemberList.pairs_ascending : ∀ ms : MemberList, (∀ U ∈ ms.components, U.OuterPacked) →
    ∀ wire, Ascending wire (wire + ms.rawSize) (pairsOf (ms.enumerateAggregate 0 wire))
  | .nil, _, _ => Ascending.nil
  | .cons info type rest, h, wire => by
    simp only [MemberList.components] at h
    by_cases hskip : info.skip
    · simp only [MemberList.enumerateAggregate, MemberList.rawSize, if_pos hskip]
      exact rest.pairs_ascending (by simpa [hskip] using h) wire
    by_cases hignore : info.ignore
    · have hrest := rest.pairs_ascending (by simpa [hignore] using h) (wire + type.rawSize)
      simp only [MemberList.enumerateAggregate, MemberList.rawSize, if_neg hskip, if_pos hignore,
        ← Nat.add_assoc]
      exact hrest.mono (Nat.le_add_right _ _)
    · simp only [hskip, hignore, Bool.or_false, Bool.false_eq_true, if_false,
        List.forall_mem_append] at h
      have htype := type.flatPairs_ascending h.1
      have hrest := rest.pairs_ascending h.2 (wire + type.rawSize)
      simp only [MemberList.enumerateAggregate, MemberList.rawSize, if_neg hskip, if_neg hignore,
        pairsOf_append, ← Nat.add_assoc]
      rw [type.pairsOf_enumerateObject]
      exact htype.shift.append hrest (Nat.le_add_right _ _) (Nat.le_add_right _ _)
end

theorem wireBytes_ascending (types : List TypeInfo) (h : ∀ T ∈ types, T.ArraysPacked) :
    (wireBytes types).Pairwise (· < ·) ∧ ∀ w ∈ wireBytes types, w < serialSize types := by
  induction types with
  | nil => exact ⟨List.Pairwise.nil, fun _ hw => (by cases hw)⟩
  | cons T types ih =>
    obtain ⟨hself, hothers⟩ := List.forall_mem_cons.mp h
    obtain ⟨hrest, hbound⟩ := ih hothers
    have hT := T.flatPairs_ascending hself
    have hbefore : ∀ w ∈ T.flatPairs.map Prod.snd, w < T.rawSize := by
      intro w hw
      obtain ⟨p, hp, rfl⟩ := List.mem_map.mp hw
      exact (hT.bounds p hp).2
    simp only [wireBytes, serialSize_cons]
    refine ⟨List.pairwise_append.mpr ⟨hT.pairwise, ?_, ?_⟩, ?_⟩
    · exact List.pairwise_map.mpr (hrest.imp (Nat.add_lt_add_left · _))
    · intro w hw w' hw'
      obtain ⟨v, -, rfl⟩ := List.mem_map.mp hw'
      exact (hbefore w hw).trans_le (Nat.le_add_right _ _)
    · intro w hw
      rcases List.mem_append.mp hw with hw | hw
      · exact (hbefore w hw).trans_le (Nat.le_add_right _ _)
      · obtain ⟨v, hv, rfl⟩ := List.mem_map.mp hw
        exact Nat.add_lt_add_left (hbound v hv) _

/-- Packs without bases off the start and without padded arrays come back, in bounds. -/
theorem roundTrips_of_packed (native : Endian) {types : List ObjectType}
    (hplaced : ∀ T ∈ types, T.info.Placed) (hpacked : ∀ T ∈ types, T.info.ArraysPacked) :
    RoundTrips native types ∧ StaysWithin native types := by
  obtain ⟨hascending, hbound⟩ := wireBytes_ascending (types.map ObjectType.info)
    (List.forall_mem_map.mpr hpacked)
  exact ⟨(roundTrips_iff native types).mpr ⟨fun T hT => TypeInfo.inPlace_of_placed (hplaced T hT),
    hascending.imp Nat.ne_of_lt⟩, (staysWithin_iff native types).mpr hbound⟩

/-- An array of padded structs with a scalar behind it: their wire bytes meet. -/
example : ¬ (wireBytes [.array 2 (.aggregate 8 (.cons ⟨false, false, 0, 0⟩ (.scalar 4) <|
    .cons ⟨false, false, 4, 4⟩ (.scalar 1) .nil)), .scalar 4]).Nodup := by decide

end ItchOrderBook.Stse

import ItchOrderBook.Stse.FlatPath

/-! # Inherited members

An inherited member is enumerated at its offset in the class that declares it, wherever
the subobject of that class lies. The layout is right exactly when every base class that
declares serialized bytes lies at the start of the object.
-/
namespace ItchOrderBook.Stse
open Transfer ByteOrder

mutual
/-- The members at every level are scalars or classes. -/
def TypeInfo.NoArrays : TypeInfo → Prop
  | .scalar _ => True
  | .array _ _ => False
  | .aggregate _ members => members.NoArrays
def MemberList.NoArrays : MemberList → Prop
  | .nil => True
  | .cons _ type rest => type.NoArrays ∧ rest.NoArrays
end

/-- A class hierarchy laid out as the language does: the scalars have storage of their
own, within the object. -/
structure Hierarchy where
  type : CppType
  noArrays : type.reflect.NoArrays
  separate : type.reflect.objectBytes.Nodup
  fits : type.reflect.Fits

def Hierarchy.info (T : Hierarchy) : TypeInfo := T.type.reflect

mutual
/-- The real positions of the serialized scalars of an object at `addr`, in order. -/
def TypeInfo.scalarPositions : TypeInfo → ℕ → List ℕ
  | .scalar _, addr => [addr]
  | .array count value, addr => (List.range count).flatMap fun i =>
      value.scalarPositions (addr + value.objectSize * i)
  | .aggregate _ members, addr => members.scalarPositions addr
def MemberList.scalarPositions : MemberList → ℕ → List ℕ
  | .nil, _ => []
  | .cons info type rest, addr =>
    if info.skip || info.ignore then rest.scalarPositions addr
    else type.scalarPositions (addr + info.position) ++ rest.scalarPositions addr
end

/-- The object bytes a range covers. -/
def ByteRange.objectBytes (r : ByteRange) : List ℕ := r.pairs.map Prod.fst

/-- The ranges of different members are disjoint, each starts where its member is, and
the flat path agrees with the field-wise path on the type and on all its parts. -/
structure KeepsOwnBytes (evaluation : Evaluation) (native : Endian) (T : TypeInfo) : Prop where
  disjoint : (T.enumerateObject 0 0).Pairwise fun r q => r.objectBytes.Disjoint q.objectBytes
  positions : (T.enumerateObject 0 0).map ByteRange.structOffset = T.scalarPositions 0
  flat : ∀ U ∈ T.components, FlatAgrees evaluation native U

mutual
/-- Every base class that declares a serialized member with bytes lies at the start of
the object whose base it is, in the type and in its serialized members. -/
def CppType.BasesLead : CppType → Prop
  | .scalar _ => True
  | .array _ value => value.BasesLead
  | .record _ bases members => bases.BasesLead 0 ∧ members.BasesLead 0
/-- The base classes of a class at `base`. -/
def Bases.BasesLead : Bases → ℕ → Prop
  | .nil, _ => True
  | .cons offset bases members rest, base =>
    (bases.BasesLead (base + offset) ∧ members.BasesLead (base + offset)) ∧ rest.BasesLead base
/-- The own members of a class at `base`. -/
def Fields.BasesLead : Fields → ℕ → Prop
  | .nil, _ => True
  | .cons skip ignore _ type rest, base => (skip = true ∨ ignore = true ∨
      ((type.reflect.serializedBytes = [] ∨ base = 0) ∧ type.BasesLead)) ∧ rest.BasesLead base
end

/-! ## Reflection -/

theorem MemberList.placed_append : ∀ ms ns : MemberList,
    (ms.append ns).Placed ↔ ms.Placed ∧ ns.Placed
  | .nil, ns => by simp [MemberList.append, MemberList.Placed]
  | .cons info type rest, ns => by
    have hrest := rest.placed_append ns
    simp only [MemberList.append, MemberList.Placed, hrest, and_assoc]

mutual
theorem CppType.placed_iff : ∀ T : CppType, T.reflect.Placed ↔ T.BasesLead
  | .scalar _ => Iff.rfl
  | .array _ value => value.placed_iff
  | .record _ bases members => by
    have hmembers := (bases.dataMembers 0).placed_append (members.dataMembers 0)
    exact hmembers.trans (and_congr (bases.placed_iff 0) (members.placed_iff 0))
theorem Bases.placed_iff : ∀ (bs : Bases) (base : ℕ),
    (bs.dataMembers base).Placed ↔ bs.BasesLead base
  | .nil, _ => Iff.rfl
  | .cons offset bases members rest, base => by
    simp only [Bases.dataMembers, Bases.BasesLead, MemberList.placed_append,
      bases.placed_iff, members.placed_iff, rest.placed_iff]
theorem Fields.placed_iff : ∀ (fs : Fields) (base : ℕ),
    (fs.dataMembers base).Placed ↔ fs.BasesLead base
  | .nil, _ => Iff.rfl
  | .cons skip ignore offset type rest, base => by
    have hstart : offset = base + offset ↔ base = 0 := by omega
    simp only [Fields.dataMembers, Fields.BasesLead, MemberList.Placed, type.placed_iff,
      rest.placed_iff, hstart]
end

mutual
/-- No member lies before the offset of its declaration. -/
def TypeInfo.OffsetsBelow : TypeInfo → Prop
  | .scalar _ => True
  | .array _ value => value.OffsetsBelow
  | .aggregate _ members => members.OffsetsBelow
def MemberList.OffsetsBelow : MemberList → Prop
  | .nil => True
  | .cons info type rest =>
    info.offsetOf ≤ info.position ∧ type.OffsetsBelow ∧ rest.OffsetsBelow
end

theorem MemberList.offsetsBelow_append : ∀ ms ns : MemberList, ms.OffsetsBelow →
    ns.OffsetsBelow → (ms.append ns).OffsetsBelow
  | .nil, _, _, hns => hns
  | .cons _ _ rest, ns, hms, hns => ⟨hms.1, hms.2.1, rest.offsetsBelow_append ns hms.2.2 hns⟩

mutual
theorem CppType.offsetsBelow : ∀ T : CppType, T.reflect.OffsetsBelow
  | .scalar _ => trivial
  | .array _ value => value.offsetsBelow
  | .record _ bases members => MemberList.offsetsBelow_append _ _ (bases.offsetsBelow 0)
      (members.offsetsBelow 0)
theorem Bases.offsetsBelow : ∀ (bs : Bases) (base : ℕ), (bs.dataMembers base).OffsetsBelow
  | .nil, _ => trivial
  | .cons offset bases members rest, base => by
    have hself := MemberList.offsetsBelow_append _ _ (bases.offsetsBelow (base + offset))
      (members.offsetsBelow (base + offset))
    exact MemberList.offsetsBelow_append _ _ hself (rest.offsetsBelow base)
theorem Fields.offsetsBelow : ∀ (fs : Fields) (base : ℕ), (fs.dataMembers base).OffsetsBelow
  | .nil, _ => trivial
  | .cons _ _ offset type rest, base =>
    ⟨Nat.le_add_left offset base, type.offsetsBelow, rest.offsetsBelow base⟩
end

/-! ## Positions -/

mutual
theorem TypeInfo.length_enumerateObject : ∀ T : TypeInfo, T.NoArrays → ∀ structOffset wire addr,
    (T.enumerateObject structOffset wire).length = (T.scalarPositions addr).length
  | .scalar _, _, _, _, _ => rfl
  | .aggregate _ members, hno, structOffset, wire, addr =>
    members.length_enumerateAggregate hno structOffset wire addr
theorem MemberList.length_enumerateAggregate : ∀ ms : MemberList, ms.NoArrays →
    ∀ structOffset wire addr,
    (ms.enumerateAggregate structOffset wire).length = (ms.scalarPositions addr).length
  | .nil, _, _, _, _ => rfl
  | .cons info type rest, hno, structOffset, wire, addr => by
    have hrest := rest.length_enumerateAggregate hno.2 structOffset
    simp only [MemberList.enumerateAggregate, MemberList.scalarPositions]
    by_cases hskip : info.skip
    · simpa [hskip] using hrest wire addr
    by_cases hignore : info.ignore
    · simpa [hskip, hignore] using hrest _ addr
    · have htype := type.length_enumerateObject hno.1 (structOffset + info.offsetOf) wire
        (addr + info.position)
      simp [hskip, hignore, htype, hrest _ addr]
end

mutual
theorem TypeInfo.scalarPositions_of_nil : ∀ T : TypeInfo, T.NoArrays → T.Fits →
    T.serializedBytes = [] → ∀ addr, T.scalarPositions addr = []
  | .scalar size, _, hfits, hnil, _ => by
    have hpos : size ≠ 0 := Nat.pos_iff_ne_zero.mp hfits
    exact absurd (List.range_eq_nil.mp hnil) hpos
  | .aggregate size members, hno, hfits, hnil, addr =>
    members.scalarPositions_of_nil size hno hfits hnil addr
theorem MemberList.scalarPositions_of_nil : ∀ (ms : MemberList) (size : ℕ), ms.NoArrays →
    ms.Fits size → ms.serializedBytes = [] → ∀ addr, ms.scalarPositions addr = []
  | .nil, _, _, _, _, _ => rfl
  | .cons info type rest, size, hno, hfits, hnil, addr => by
    have hrest := rest.scalarPositions_of_nil size hno.2 hfits.2.2
    simp only [MemberList.serializedBytes, MemberList.scalarPositions] at hnil ⊢
    by_cases hmarked : (info.skip || info.ignore) = true
    · rw [if_pos hmarked] at hnil ⊢
      exact hrest hnil addr
    · rw [if_neg hmarked] at hnil ⊢
      obtain ⟨htype, hnil⟩ := List.append_eq_nil_iff.mp hnil
      simp [type.scalarPositions_of_nil hno.1 hfits.2.1 (List.map_eq_nil_iff.mp htype),
        hrest hnil addr]
end

theorem TypeInfo.enumerateObject_of_nil (T : TypeInfo) (hno : T.NoArrays) (hfits : T.Fits)
    (hnil : T.serializedBytes = []) (structOffset wire : ℕ) :
    T.enumerateObject structOffset wire = [] := by
  have hlength := T.length_enumerateObject hno structOffset wire structOffset
  rw [T.scalarPositions_of_nil hno hfits hnil] at hlength
  exact List.eq_nil_of_length_eq_zero hlength

mutual
/-- With the members in their place an object is enumerated where it is. -/
theorem TypeInfo.positions_of_placed : ∀ T : TypeInfo, T.NoArrays → T.Fits → T.Placed →
    ∀ addr wire,
    (T.enumerateObject addr wire).map ByteRange.structOffset = T.scalarPositions addr
  | .scalar _, _, _, _, _, _ => rfl
  | .aggregate size members, hno, hfits, hplaced, addr, wire =>
    members.positions_of_placed size hno hfits hplaced addr wire
theorem MemberList.positions_of_placed : ∀ (ms : MemberList) (size : ℕ), ms.NoArrays →
    ms.Fits size → ms.Placed → ∀ addr wire,
    (ms.enumerateAggregate addr wire).map ByteRange.structOffset = ms.scalarPositions addr
  | .nil, _, _, _, _, _, _ => rfl
  | .cons info type rest, size, hno, hfits, hplaced, addr, wire => by
    have hrest := rest.positions_of_placed size hno.2 hfits.2.2 hplaced.2 addr
    simp only [MemberList.enumerateAggregate, MemberList.scalarPositions]
    by_cases hskip : info.skip
    · simpa [hskip] using hrest wire
    by_cases hignore : info.ignore
    · simpa [hskip, hignore] using hrest _
    · obtain ⟨hoffset, htype⟩ := (hplaced.1.resolve_left hskip).resolve_left hignore
      simp only [hskip, hignore, Bool.or_false, Bool.false_eq_true, if_false, List.map_append, hrest]
      rcases hoffset with hnil | hoffset
      · simp [type.enumerateObject_of_nil hno.1 hfits.2.1 hnil,
          type.scalarPositions_of_nil hno.1 hfits.2.1 hnil]
      · rw [hoffset, type.positions_of_placed hno.1 hfits.2.1 htype]
end

mutual
/-- An object enumerated at its position or before has its scalars there only if its
members are in their place. -/
theorem TypeInfo.placed_of_positions : ∀ T : TypeInfo, T.NoArrays → T.OffsetsBelow →
    ∀ {structOffset addr : ℕ} (wire : ℕ), structOffset ≤ addr →
    (T.enumerateObject structOffset wire).map ByteRange.structOffset = T.scalarPositions addr →
    T.Placed ∧ (T.serializedBytes = [] ∨ structOffset = addr)
  | .scalar _, _, _, _, _, _, _, heq => ⟨trivial, Or.inr (List.cons.inj heq).1⟩
  | .aggregate _ members, hno, hbelow, _, _, wire, hle, heq =>
    members.placed_of_positions hno hbelow wire hle heq
theorem MemberList.placed_of_positions : ∀ ms : MemberList, ms.NoArrays → ms.OffsetsBelow →
    ∀ {structOffset addr : ℕ} (wire : ℕ), structOffset ≤ addr →
    (ms.enumerateAggregate structOffset wire).map ByteRange.structOffset =
      ms.scalarPositions addr →
    ms.Placed ∧ (ms.serializedBytes = [] ∨ structOffset = addr)
  | .nil, _, _, _, _, _, _, _ => ⟨trivial, Or.inl rfl⟩
  | .cons info type rest, hno, hbelow, structOffset, addr, wire, hle, heq => by
    have hrest := fun wire => rest.placed_of_positions hno.2 hbelow.2.2 wire hle
    simp only [MemberList.enumerateAggregate, MemberList.scalarPositions] at heq
    by_cases hskip : info.skip
    · obtain ⟨hplaced, hstart⟩ := hrest wire (by simpa [hskip] using heq)
      exact ⟨⟨Or.inl hskip, hplaced⟩, by simpa [MemberList.serializedBytes, hskip] using hstart⟩
    by_cases hignore : info.ignore
    · obtain ⟨hplaced, hstart⟩ := hrest _ (by simpa [hskip, hignore] using heq)
      exact ⟨⟨Or.inr (Or.inl hignore), hplaced⟩,
        by simpa [MemberList.serializedBytes, hignore] using hstart⟩
    · simp only [hskip, hignore, Bool.or_false, Bool.false_eq_true, if_false,
        List.map_append] at heq
      have hlength := type.length_enumerateObject hno.1 (structOffset + info.offsetOf) wire
        (addr + info.position)
      obtain ⟨hhead, htail⟩ := List.append_inj heq (by rw [List.length_map, hlength])
      have hbefore : structOffset + info.offsetOf ≤ addr + info.position :=
        Nat.add_le_add hle hbelow.1
      obtain ⟨htype, hposition⟩ := type.placed_of_positions hno.1 hbelow.2.1 wire hbefore hhead
      obtain ⟨hplaced, hstart⟩ := hrest _ htail
      have hoffset : info.offsetOf ≤ info.position := hbelow.1
      -- neither the start nor the offset can make up for the other
      refine ⟨⟨Or.inr (Or.inr ⟨hposition.imp_right fun h => by omega, htype⟩), hplaced⟩, ?_⟩
      rcases hposition with hnil | hposition
      · simpa [MemberList.serializedBytes, hskip, hignore, hnil] using hstart
      · exact Or.inr (by omega)
end

/-! ## The hierarchy -/

theorem disjoint_of_placed {T : TypeInfo} (hplaced : T.Placed)
    (hseparate : T.objectBytes.Nodup) :
    (T.enumerateObject 0 0).Pairwise fun r q => r.objectBytes.Disjoint q.objectBytes := by
  have hserialized := (List.nodup_append.mp (T.objectBytes_perm.nodup_iff.mp hseparate)).1
  have hbytes : (T.enumerateObject 0 0).flatMap ByteRange.objectBytes = T.serializedBytes := by
    rw [← T.flatPairs_fst hplaced, TypeInfo.flatPairs, pairsOf, List.map_flatMap]
    rfl
  rw [← hbytes, List.nodup_flatMap] at hserialized
  exact hserialized.2

mutual
theorem TypeInfo.components_noArrays : ∀ T : TypeInfo, T.NoArrays →
    ∀ U ∈ T.components, U.NoArrays
  | .scalar size, hno, U, hU => by
    rw [TypeInfo.components, List.mem_singleton] at hU
    exact hU ▸ hno
  | .aggregate size members, hno, U, hU => by
    rw [TypeInfo.components] at hU
    rcases List.mem_cons.mp hU with rfl | hU
    · exact hno
    · exact members.components_noArrays hno U hU
theorem MemberList.components_noArrays : ∀ ms : MemberList, ms.NoArrays →
    ∀ U ∈ ms.components, U.NoArrays
  | .nil, _, U, hU => by cases hU
  | .cons info type rest, hno, U, hU => by
    have hrest := rest.components_noArrays hno.2 U
    simp only [MemberList.components] at hU
    split at hU
    · exact hrest hU
    · rcases List.mem_append.mp hU with hU | hU
      · exact type.components_noArrays hno.1 U hU
      · exact hrest hU
end

theorem TypeInfo.arraysPacked_of_noArrays (T : TypeInfo) (hno : T.NoArrays) : T.ArraysPacked := by
  intro U hU
  have hU := T.components_noArrays hno U hU
  cases U with
  | scalar size => trivial
  | aggregate size members => trivial
  | array count value => cases hU

/-- The members of a hierarchy keep their own bytes exactly when every base class with
serialized members lies at the start of the object; in a constant evaluation the class
must also be without skipped and ignored members. -/
theorem keepsOwnBytes_iff (evaluation : Evaluation) (native : Endian) (T : Hierarchy) :
    KeepsOwnBytes evaluation native T.info ↔
      T.type.BasesLead ∧ (evaluation = .constant → T.info.reservedBytes = []) := by
  have hflat := fun hplaced =>
    flatAgrees_components_iff_of_placed evaluation native (T := T.info) hplaced T.fits T.separate
  rw [← T.type.placed_iff]
  constructor
  · intro h
    have hplaced :=
      (T.info.placed_of_positions T.noArrays T.type.offsetsBelow 0 le_rfl h.positions).1
    exact ⟨hplaced, ((hflat hplaced).mp h.flat).2⟩
  · rintro ⟨hplaced, hreserved⟩
    constructor
    · exact disjoint_of_placed hplaced T.separate
    · exact T.info.positions_of_placed T.noArrays T.fits hplaced 0 0
    · exact (hflat hplaced).mpr ⟨T.info.arraysPacked_of_noArrays T.noArrays, hreserved⟩

/-- A class of two base classes with an `int` each. -/
def twoBases : Hierarchy where
  type := .record 8
    (.cons 0 .nil (.cons false false 0 (.scalar 4) .nil) <|
      .cons 4 .nil (.cons false false 0 (.scalar 4) .nil) .nil) .nil
  noArrays := ⟨trivial, trivial, trivial⟩
  separate := by decide
  fits := by simp [CppType.reflect, Fields.dataMembers, Bases.dataMembers, MemberList.append,
    TypeInfo.Fits, MemberList.Fits, TypeInfo.objectSize]

/-- Both members are enumerated at byte 0. -/
theorem twoBases_not_keepsOwnBytes : ¬KeepsOwnBytes .runTime .little twoBases.info := by
  intro h
  exact absurd h.positions (by decide)

end ItchOrderBook.Stse

import ItchOrderBook.Stse.ConstantEvaluation

/-! # The flat path against the field-wise path

The layout spaces the elements of an array by their object size on the wire too, where
the field-wise path spaces them by their wire size. The two paths agree on a type
exactly when that makes no difference to it and, in a constant evaluation, no skipped or
ignored member is there to be zeroed.
-/
namespace ItchOrderBook.Stse
open Transfer ByteOrder

/-- A type without base classes, laid out as the language does: the scalars have storage
of their own, within the object. -/
structure PlainType where
  type : CppType
  noBases : type.NoBases
  separate : type.reflect.objectBytes.Nodup
  fits : type.reflect.Fits

def PlainType.info (T : PlainType) : TypeInfo := T.type.reflect

/-- The flat path does what the field-wise path does, within the buffer and the object. -/
structure FlatAgrees (evaluation : Evaluation) (native : Endian) (T : TypeInfo) : Prop where
  serialize : ∀ (buffer : Memory) (destination : Span) (source : Memory) (addr : ℕ),
    T.rawSize ≤ destination.size →
      evaluation.serializeFlat T buffer destination source addr =
        evaluation.serializeFields native native T buffer destination source addr
  deserialize : ∀ (destination : Memory) (source : Span) (buffer : Memory) (addr : ℕ),
    T.rawSize ≤ source.size →
      evaluation.deserializeFlat T destination source buffer addr =
        evaluation.deserializeFields native native T destination source buffer addr
  within : ∀ r ∈ T.byteLayout,
    r.wireOffset + r.count ≤ T.rawSize ∧ r.structOffset + r.count ≤ T.objectSize

theorem PlainType.placed (T : PlainType) : T.info.Placed :=
  T.info.placed_of_exact (T.type.offsetsExact T.noBases)

/-! ## When the two paths copy the same bytes -/

/-- An array of two or more elements with bytes to copy has elements without padding. -/
def TypeInfo.OuterPacked : TypeInfo → Prop
  | .array count value => 2 ≤ count → value.wireExtent ≠ 0 → value.objectSize = value.rawSize
  | _ => True

theorem MemberList.enumerateAggregate_eq_wirePairs (native : Endian) :
    ∀ (ms : MemberList) (wire : ℕ), ms.Placed →
      pairsOf (ms.enumerateAggregate 0 wire) =
        ms.wirePairs (leafPairs native native) (dispatchPairs native native) wire
  | .nil, _, _ => rfl
  | .cons info type rest, wire, hplaced => by
    have hrest := fun wire => rest.enumerateAggregate_eq_wirePairs native wire hplaced.2
    simp only [MemberList.enumerateAggregate, MemberList.wirePairs]
    by_cases hskip : info.skip
    · simpa [hskip] using hrest wire
    by_cases hignore : info.ignore
    · simpa [hskip, hignore] using hrest _
    · obtain ⟨hoffset, htype⟩ := (hplaced.1.resolve_left hskip).resolve_left hignore
      simp only [hskip, hignore, Bool.false_eq_true, if_false, pairsOf_append, hrest,
        Nat.zero_add, dispatchPairs, if_true]
      rw [type.pairsOf_enumerateObject]
      change shift _ _ type.flatPairs ++ _ = _
      rcases hoffset with hnil | hoffset
      · have hpairs : type.flatPairs = [] := by
          rw [← List.map_eq_nil_iff, type.flatPairs_fst htype, hnil]
        simp [hpairs]
      · rw [hoffset]

theorem TypeInfo.fieldPairs_eq_flatPairs (native : Endian) (T : TypeInfo) (hplaced : T.Placed)
    (hpacked : T.OuterPacked) : T.fieldPairs native native = T.flatPairs := by
  cases T with
  | scalar size =>
    simp [fieldPairs, wirePairs, leafPairs, flatPairs, enumerateObject, ByteRange.pairs]
  | aggregate size members => exact (members.enumerateAggregate_eq_wirePairs native 0 hplaced).symm
  | array count value =>
    rw [fieldPairs_array, flatPairs_array]
    by_cases hempty : value.wireExtent = 0
    · have hnil : value.flatPairs = [] := by
        refine List.eq_nil_iff_forall_not_mem.mpr fun p hp => ?_
        exact absurd ((value.wireExtent_le_iff 0).mp hempty.le p hp) (Nat.not_lt_zero _)
      simp [hnil]
    by_cases hcount : 2 ≤ count
    · rw [hpacked hcount hempty]
    · -- at most the element at index 0 is there
      obtain rfl | rfl : count = 0 ∨ count = 1 := by omega
      · rfl
      · simp

/-- Elements with padding: the last byte of the last element is read from elsewhere. -/
theorem not_deserialize_of_padded (evaluation : Evaluation) (native : Endian) {count : ℕ}
    {value : TypeInfo} (hplaced : (TypeInfo.array count value).Placed)
    (hseparate : (TypeInfo.array count value).objectBytes.Nodup) (hcount : 2 ≤ count)
    (hbytes : value.wireExtent ≠ 0) (hpadded : value.objectSize ≠ value.rawSize) :
    ∃ buffer destination : Memory,
      (evaluation.deserializeFlat (.array count value) destination
        ⟨0, (TypeInfo.array count value).rawSize⟩ buffer 0).1 ≠
      (evaluation.deserializeFields native native (.array count value) destination
        ⟨0, (TypeInfo.array count value).rawSize⟩ buffer 0).1 := by
  have hne : value.flatPairs ≠ [] := by
    intro hnil
    exact hbytes (Nat.le_zero.mp ((value.wireExtent_le_iff 0).mpr (by simp [hnil])))
  obtain ⟨front, last, hlast⟩ := List.eq_nil_or_concat' value.flatPairs |>.resolve_left hne
  obtain ⟨n, rfl⟩ : ∃ n, count = n + 1 := ⟨count - 1, by omega⟩
  -- the target of the last pair on both paths
  let target := value.objectSize * n + last.1
  have hread : ∀ (stride : ℕ) (buffer destination : Memory),
      copyIn buffer ((List.range (n + 1)).flatMap fun i =>
        shift (value.objectSize * i) (stride * i) value.flatPairs) destination target =
      buffer (stride * n + last.2) := by
    intro stride buffer destination
    rw [List.range_succ, List.flatMap_append, List.flatMap_singleton, hlast, shift_append,
      ← List.append_assoc]
    exact transfer_concat_self _ (target, stride * n + last.2) destination buffer
  let marked : Memory := fun i => if i = value.objectSize * n + last.2 then 1 else 0
  refine ⟨marked, fun _ => 0, fun heq => ?_⟩
  have hflat := hread value.objectSize marked
  have hfields := hread value.rawSize marked
  rw [← flatPairs_array] at hflat
  rw [← fieldPairs_array native] at hfields
  let span : Span := ⟨0, (TypeInfo.array (n + 1) value).rawSize⟩
  have hflatRun := evaluation.deserializeFlat_assigns hplaced marked (fun _ => 0) span 0
  have hfieldsRun :=
    evaluation.deserializeFields_assigns native hplaced hseparate marked (fun _ => 0) span 0
  rw [shift_zero] at hflatRun hfieldsRun
  have hat : marked (value.objectSize * n + last.2) = marked (value.rawSize * n + last.2) := by
    have hat := congrFun heq target
    rw [congrArg Prod.fst hflatRun, congrArg Prod.fst hfieldsRun] at hat
    exact (hflat _).symm.trans (hat.trans (hfields _))
  have hdiff : value.rawSize * n + last.2 ≠ value.objectSize * n + last.2 := by
    intro h
    exact hpadded (Nat.eq_of_mul_eq_mul_right (show 0 < n by omega) (Nat.add_right_cancel h)).symm
  rw [show marked (value.objectSize * n + last.2) = 1 from if_pos rfl,
    show marked (value.rawSize * n + last.2) = 0 from if_neg hdiff] at hat
  exact absurd hat (by decide)

theorem flatAgrees_iff_of_placed (evaluation : Evaluation) (native : Endian) {T : TypeInfo}
    (hplaced : T.Placed) (hfits : T.Fits) (hseparate : T.objectBytes.Nodup) :
    FlatAgrees evaluation native T ↔ T.OuterPacked ∧ T.wireExtent ≤ T.rawSize ∧
      (evaluation = .constant → T.keptBytes = []) := by
  have hwithin := within_iff T hplaced hfits
  have hdeserialize := evaluation.deserialize_agrees_iff native hplaced hseparate
  constructor
  · intro h
    have hpacked : T.OuterPacked := by
      cases T with
      | scalar size => trivial
      | aggregate size members => trivial
      | array count value =>
        intro hcount hbytes
        by_contra hpadded
        obtain ⟨buffer, destination, hne⟩ :=
          not_deserialize_of_padded evaluation native hplaced hseparate hcount hbytes hpadded
        exact hne (congrArg Prod.fst (h.deserialize destination _ buffer 0 le_rfl))
    have hpairs := T.fieldPairs_eq_flatPairs native hplaced hpacked
    exact ⟨hpacked, hwithin.mp h.within, (hdeserialize hpairs).mp h.deserialize⟩
  · rintro ⟨hpacked, hextent, hkept⟩
    have hpairs := T.fieldPairs_eq_flatPairs native hplaced hpacked
    refine ⟨?_, (hdeserialize hpairs).mpr hkept, hwithin.mpr hextent⟩
    intro buffer destination source addr _
    have hfields := serializeFields_along native native source T
    rw [hpairs] at hfields
    rw [evaluation.serializeFlat_eq hplaced hfits,
      evaluation.serializeFields_eq native native hplaced hfits]
    exact (serializeFlat_along source T buffer destination addr).trans
      (hfields buffer destination addr).symm

/-- The flat path agrees with the field-wise path exactly on the types that are no
array of padded elements and whose layout does not reach beyond `raw_size`; a constant
evaluation also zeroes the skipped and ignored members of a class that has any. -/
theorem flatAgrees_iff (evaluation : Evaluation) (native : Endian) (T : PlainType) :
    FlatAgrees evaluation native T.info ↔
      T.info.OuterPacked ∧ T.info.wireExtent ≤ T.info.rawSize ∧
        (evaluation = .constant → T.info.keptBytes = []) :=
  flatAgrees_iff_of_placed evaluation native T.placed T.fits T.separate

/-- Of a class of an `int` and a skipped `int` the second is kept at run time and zeroed in a
constant evaluation. -/
example : TypeInfo.keptBytes (.aggregate 8 (.cons ⟨false, false, 0, 0⟩ (.scalar 4) <|
    .cons ⟨true, false, 4, 4⟩ (.scalar 4) .nil)) = [4, 5, 6, 7] := by decide

/-- `std::array<T, 2>` of a struct of a `char` and an `int`. -/
def charIntArray : PlainType where
  type := .array 2 (.record 8 .nil
    (.cons false false 0 (.scalar 1) <| .cons false false 4 (.scalar 4) .nil))
  noBases := ⟨rfl, trivial, trivial, trivial⟩
  separate := by decide
  fits := by simp [CppType.reflect, Fields.dataMembers, Bases.dataMembers, MemberList.append,
    TypeInfo.Fits, MemberList.Fits, TypeInfo.objectSize]

/-- Its layout copies to wire bytes 9 to 12 of 10. -/
theorem charIntArray_not_flatAgrees : ¬FlatAgrees .runTime .little charIntArray.info := by
  intro h
  have hrange : (⟨12, 9, 4⟩ : ByteRange) ∈ charIntArray.info.byteLayout := by decide
  exact absurd (h.within _ hrange).1 (by decide)

/-- No serialized array at any level has padded elements. -/
def TypeInfo.ArraysPacked (T : TypeInfo) : Prop := ∀ U ∈ T.components, U.OuterPacked

mutual
theorem TypeInfo.wireExtent_le_rawSize : ∀ T : TypeInfo, T.ArraysPacked → T.wireExtent ≤ T.rawSize
  | .scalar size, _ => le_rfl
  | .array count value, h => by
    simp only [TypeInfo.wireExtent, TypeInfo.rawSize]
    split
    · exact Nat.zero_le _
    · rename_i hne
      rw [not_or] at hne
      have hvalue := value.wireExtent_le_rawSize fun U hU => h U (by
        rw [TypeInfo.components, if_neg hne.1]
        exact List.mem_cons_of_mem _ hU)
      obtain ⟨n, rfl⟩ := Nat.exists_eq_succ_of_ne_zero hne.1
      rcases Nat.eq_zero_or_pos n with rfl | hn
      · simpa using hvalue
      · have hpacked := h _ (TypeInfo.self_mem_components _) (by omega) hne.2
        rw [hpacked, Nat.succ_mul, Nat.mul_comm value.rawSize]
        exact Nat.add_le_add_left hvalue _
  | .aggregate size members, h => by
    have hmembers := members.wireExtent_le_rawSize
      (fun U hU => h U (List.mem_cons_of_mem _ hU)) 0
    rwa [Nat.zero_add] at hmembers
theorem MemberList.wireExtent_le_rawSize : ∀ ms : MemberList,
    (∀ U ∈ ms.components, U.OuterPacked) → ∀ wire, ms.wireExtent wire ≤ wire + ms.rawSize
  | .nil, _, _ => Nat.zero_le _
  | .cons info type rest, h, wire => by
    simp only [MemberList.components] at h
    by_cases hskip : info.skip
    · simp only [MemberList.wireExtent, MemberList.rawSize, if_pos hskip]
      exact rest.wireExtent_le_rawSize (by simpa [hskip] using h) wire
    by_cases hignore : info.ignore
    · have hrest := rest.wireExtent_le_rawSize (by simpa [hignore] using h) (wire + type.rawSize)
      simp only [MemberList.wireExtent, MemberList.rawSize, if_neg hskip, if_pos hignore]
      rwa [Nat.add_assoc] at hrest
    · simp only [hskip, hignore, Bool.or_false, Bool.false_eq_true, if_false,
        List.forall_mem_append] at h
      have htype := type.wireExtent_le_rawSize h.1
      have hrest := rest.wireExtent_le_rawSize h.2 (wire + type.rawSize)
      simp only [MemberList.wireExtent, MemberList.rawSize, if_neg hskip, if_neg hignore]
      refine max_le ?_ (by rwa [Nat.add_assoc] at hrest)
      split
      · exact Nat.zero_le _
      · omega
end

theorem flatAgrees_components_iff_of_placed (evaluation : Evaluation) (native : Endian)
    {T : TypeInfo} (hplaced : T.Placed) (hfits : T.Fits) (hseparate : T.objectBytes.Nodup) :
    (∀ U ∈ T.components, FlatAgrees evaluation native U) ↔
      T.ArraysPacked ∧ (evaluation = .constant → T.reservedBytes = []) := by
  have hiff : ∀ U ∈ T.components, (FlatAgrees evaluation native U ↔ U.OuterPacked ∧
      U.wireExtent ≤ U.rawSize ∧ (evaluation = .constant → U.keptBytes = [])) := by
    intro U hU
    obtain ⟨hplaced, hfits⟩ := T.components_placed hplaced hfits U hU
    exact flatAgrees_iff_of_placed evaluation native hplaced hfits
      (T.components_separate hseparate U hU)
  rw [T.reservedBytes_eq_nil_iff]
  constructor
  · intro h
    exact ⟨fun U hU => ((hiff U hU).mp (h U hU)).1,
      fun hconstant U hU => ((hiff U hU).mp (h U hU)).2.2 hconstant⟩
  · rintro ⟨hpacked, hkept⟩ U hU
    refine (hiff U hU).mpr ⟨hpacked U hU, U.wireExtent_le_rawSize fun V hV => ?_,
      fun hconstant => hkept hconstant U hU⟩
    exact hpacked V (T.components_components U hU V hV)

/-- The two paths agree on a type and on all its parts exactly when no serialized
array has padded elements and a constant evaluation meets no skipped or ignored member. -/
theorem flatAgrees_components_iff (evaluation : Evaluation) (native : Endian) (T : PlainType) :
    (∀ U ∈ T.info.components, FlatAgrees evaluation native U) ↔
      T.info.ArraysPacked ∧ (evaluation = .constant → T.info.reservedBytes = []) :=
  flatAgrees_components_iff_of_placed evaluation native T.placed T.fits T.separate

end ItchOrderBook.Stse

import ItchOrderBook.Stse.FieldWalk

/-! # The bytes a layout reaches

A layout of members in their place reads the serialized bytes of the object, in order.
How far it reaches on the wire, and which parts of a type it goes through, is counted here.
-/
namespace ItchOrderBook.Stse
open Transfer ByteOrder

mutual
/-- Scalars occupy storage and members lie within their class. -/
def TypeInfo.Fits : TypeInfo → Prop
  | .scalar size => 0 < size
  | .array _ value => value.Fits
  | .aggregate size members => members.Fits size
def MemberList.Fits : MemberList → ℕ → Prop
  | .nil, _ => True
  | .cons info type rest, size =>
    info.position + type.objectSize ≤ size ∧ type.Fits ∧ rest.Fits size
end

/-! ## How far a layout reaches -/

mutual
/-- One past the last wire byte a layout reaches, or 0: the last element of every
array, with the elements `sizeof(value_t)` apart. -/
def TypeInfo.wireExtent : TypeInfo → ℕ
  | .scalar size => size
  | .array count value =>
    if count = 0 ∨ value.wireExtent = 0 then 0
    else value.objectSize * (count - 1) + value.wireExtent
  | .aggregate _ members => members.wireExtent 0
def MemberList.wireExtent : MemberList → ℕ → ℕ
  | .nil, _ => 0
  | .cons info type rest, wire =>
    if info.skip then rest.wireExtent wire
    else if info.ignore then rest.wireExtent (wire + type.rawSize)
    else max (if type.wireExtent = 0 then 0 else wire + type.wireExtent)
      (rest.wireExtent (wire + type.rawSize))
end

theorem flatPairs_array (count : ℕ) (value : TypeInfo) :
    (TypeInfo.array count value).flatPairs = (List.range count).flatMap fun i =>
      shift (value.objectSize * i) (value.objectSize * i) value.flatPairs := by
  simp only [TypeInfo.flatPairs, TypeInfo.enumerateObject, pairsOf_flatMap, Nat.zero_add]
  congr 1
  funext i
  exact value.pairsOf_enumerateObject _ _

theorem fieldPairs_array (native : Endian) (count : ℕ) (value : TypeInfo) :
    (TypeInfo.array count value).fieldPairs native native = (List.range count).flatMap fun i =>
      shift (value.objectSize * i) (value.rawSize * i) value.flatPairs := by
  simp only [TypeInfo.fieldPairs, TypeInfo.wirePairs, dispatchPairs, if_true]

theorem mem_flatPairs_array {count : ℕ} {value : TypeInfo} {p : ℕ × ℕ} :
    p ∈ (TypeInfo.array count value).flatPairs ↔ ∃ i < count, ∃ q ∈ value.flatPairs,
      p = (value.objectSize * i + q.1, value.objectSize * i + q.2) := by
  simp only [flatPairs_array, List.mem_flatMap, List.mem_range, mem_shift]

mutual
theorem TypeInfo.wireExtent_le_iff : ∀ (T : TypeInfo) (n : ℕ),
    T.wireExtent ≤ n ↔ ∀ p ∈ T.flatPairs, p.2 < n
  | .scalar size, n => by
    simp only [TypeInfo.wireExtent, TypeInfo.flatPairs, TypeInfo.enumerateObject,
      pairsOf_singleton, ByteRange.pairs, mem_block, Nat.zero_add]
    constructor
    · rintro h p ⟨i, hi, rfl⟩
      exact hi.trans_le h
    · intro h
      rcases Nat.eq_zero_or_pos size with rfl | hpos
      · exact Nat.zero_le n
      · have hlast := h (size - 1, size - 1) ⟨size - 1, by omega, rfl⟩
        dsimp only at hlast
        omega
  | .array count value, n => by
    have hvalue := value.wireExtent_le_iff
    simp only [TypeInfo.wireExtent, mem_flatPairs_array]
    have hnone : value.wireExtent = 0 ↔ ∀ q, q ∉ value.flatPairs := by
      simpa using hvalue 0
    split
    · rename_i hempty
      refine ⟨fun _ p hp => ?_, fun _ => Nat.zero_le n⟩
      obtain ⟨i, hi, q, hq, rfl⟩ := hp
      rcases hempty with rfl | hempty
      · exact absurd hi (Nat.not_lt_zero i)
      · exact absurd hq (hnone.mp hempty q)
    · rename_i hne
      rw [not_or] at hne
      constructor
      · rintro h p ⟨i, hi, q, hq, rfl⟩
        have hq' := (hvalue value.wireExtent).mp le_rfl q hq
        have hi' := Nat.mul_le_mul_left value.objectSize (show i ≤ count - 1 by omega)
        dsimp only
        omega
      · intro h
        have hlast := (hvalue (n - value.objectSize * (count - 1))).mpr fun q hq => by
          have hp := h _ ⟨count - 1, by omega, q, hq, rfl⟩
          dsimp only at hp
          omega
        omega
  | .aggregate _ members, n => by
    simp only [TypeInfo.wireExtent, TypeInfo.flatPairs, TypeInfo.enumerateObject]
    exact members.wireExtent_le_iff 0 n
theorem MemberList.wireExtent_le_iff : ∀ (ms : MemberList) (wire n : ℕ),
    ms.wireExtent wire ≤ n ↔ ∀ p ∈ pairsOf (ms.enumerateAggregate 0 wire), p.2 < n
  | .nil, wire, n => by
    simp [MemberList.wireExtent, MemberList.enumerateAggregate]
  | .cons info type rest, wire, n => by
    have hrest := rest.wireExtent_le_iff
    have htype := type.wireExtent_le_iff
    have hnone : type.wireExtent = 0 ↔ ∀ q, q ∉ type.flatPairs := by
      simpa using htype 0
    simp only [MemberList.wireExtent, MemberList.enumerateAggregate]
    split
    · exact hrest wire n
    split
    · exact hrest _ n
    · rw [max_le_iff, hrest, pairsOf_append, List.forall_mem_append,
        type.pairsOf_enumerateObject]
      refine and_congr_left' ?_
      change _ ↔ ∀ p ∈ shift _ _ type.flatPairs, p.2 < n
      simp only [mem_shift]
      split
      · rename_i hempty
        refine ⟨fun _ p hp => ?_, fun _ => Nat.zero_le n⟩
        obtain ⟨q, hq, rfl⟩ := hp
        exact absurd hq (hnone.mp hempty q)
      · rename_i hne
        constructor
        · rintro h p ⟨q, hq, rfl⟩
          have hq' := (htype type.wireExtent).mp le_rfl q hq
          dsimp only
          omega
        · intro h
          have hlast := (htype (n - wire)).mpr fun q hq => by
            have hp := h _ ⟨q, hq, rfl⟩
            dsimp only at hp
            omega
          omega
end

/-! ## Members in their place -/

mutual
/-- Every serialized member with bytes sits where `offset_of` says. -/
def TypeInfo.Placed : TypeInfo → Prop
  | .scalar _ => True
  | .array _ value => value.Placed
  | .aggregate _ members => members.Placed
def MemberList.Placed : MemberList → Prop
  | .nil => True
  | .cons info type rest => (info.skip = true ∨ info.ignore = true ∨
      ((type.serializedBytes = [] ∨ info.offsetOf = info.position) ∧ type.Placed)) ∧ rest.Placed
end

mutual
theorem TypeInfo.placed_of_exact : ∀ T : TypeInfo, T.OffsetsExact → T.Placed
  | .scalar _, _ => trivial
  | .array _ value, h => value.placed_of_exact h
  | .aggregate _ members, h => members.placed_of_exact h
theorem MemberList.placed_of_exact : ∀ ms : MemberList, ms.OffsetsExact → ms.Placed
  | .nil, _ => trivial
  | .cons _ type rest, h => ⟨Or.inr (Or.inr ⟨Or.inr h.1, type.placed_of_exact h.2.1⟩),
      rest.placed_of_exact h.2.2⟩
end

mutual
theorem TypeInfo.serializedBytes_lt : ∀ T : TypeInfo, T.Fits →
    ∀ i ∈ T.serializedBytes, i < T.objectSize
  | .scalar size, _, i, hi => List.mem_range.mp hi
  | .array count value, hfits, i, hi => by
    obtain ⟨k, hk, hi⟩ := List.mem_flatMap.mp hi
    obtain ⟨j, hj, rfl⟩ := List.mem_map.mp hi
    have hk := List.mem_range.mp hk
    have hj := value.serializedBytes_lt hfits j hj
    simp only [TypeInfo.objectSize, if_neg (show count ≠ 0 by omega)]
    calc value.objectSize * k + j < value.objectSize * (k + 1) := by
          rw [Nat.mul_succ]
          exact Nat.add_lt_add_left hj _
      _ ≤ value.objectSize * count := Nat.mul_le_mul_left _ hk
      _ = count * value.objectSize := Nat.mul_comm _ _
  | .aggregate size members, hfits, i, hi => members.serializedBytes_lt size hfits i hi
theorem MemberList.serializedBytes_lt : ∀ (ms : MemberList) (size : ℕ), ms.Fits size →
    ∀ i ∈ ms.serializedBytes, i < size
  | .nil, _, _, i, hi => by cases hi
  | .cons info type rest, size, hfits, i, hi => by
    have hrest := rest.serializedBytes_lt size hfits.2.2 i
    simp only [MemberList.serializedBytes] at hi
    split at hi
    · exact hrest hi
    · rcases List.mem_append.mp hi with hi | hi
      · obtain ⟨j, hj, rfl⟩ := List.mem_map.mp hi
        have hj := type.serializedBytes_lt hfits.2.1 j hj
        have hend : info.position + type.objectSize ≤ size := hfits.1
        omega
      · exact hrest hi
end

mutual
/-- With the members in their place the layout reads the serialized bytes, in order. -/
theorem TypeInfo.flatPairs_fst : ∀ T : TypeInfo, T.Placed →
    T.flatPairs.map Prod.fst = T.serializedBytes
  | .scalar size, _ => by
    simp [TypeInfo.flatPairs, TypeInfo.enumerateObject, ByteRange.pairs, block,
      TypeInfo.serializedBytes, Function.comp_def]
  | .array count value, hplaced => by
    simp only [flatPairs_array, List.map_flatMap, map_fst_shift, value.flatPairs_fst hplaced,
      TypeInfo.serializedBytes]
  | .aggregate _ members, hplaced => members.flatPairs_fst hplaced 0
theorem MemberList.flatPairs_fst : ∀ ms : MemberList, ms.Placed → ∀ wire,
    (pairsOf (ms.enumerateAggregate 0 wire)).map Prod.fst = ms.serializedBytes
  | .nil, _, _ => rfl
  | .cons info type rest, hplaced, wire => by
    have hrest := rest.flatPairs_fst hplaced.2
    simp only [MemberList.enumerateAggregate, MemberList.serializedBytes]
    by_cases hskip : info.skip
    · simpa [hskip] using hrest wire
    by_cases hignore : info.ignore
    · simpa [hskip, hignore] using hrest _
    · obtain ⟨hoffset, htype⟩ := (hplaced.1.resolve_left hskip).resolve_left hignore
      have hbytes := type.flatPairs_fst htype
      simp only [hskip, hignore, Bool.or_false, Bool.false_eq_true, if_false, pairsOf_append,
        List.map_append, hrest, Nat.zero_add]
      rw [type.pairsOf_enumerateObject, map_fst_shift]
      change (type.flatPairs.map Prod.fst).map _ ++ _ = _
      rw [hbytes]
      rcases hoffset with hnil | hoffset
      · rw [hnil, List.map_nil, List.map_nil]
      · rw [hoffset]
end

mutual
theorem TypeInfo.enumerateObject_count_pos : ∀ T : TypeInfo, T.Fits →
    ∀ structOffset wireOffset, ∀ r ∈ T.enumerateObject structOffset wireOffset, 0 < r.count
  | .scalar size, hfits, structOffset, wireOffset, r, hr => by
    rw [TypeInfo.enumerateObject, List.mem_singleton] at hr
    rw [hr]
    exact hfits
  | .array count value, hfits, structOffset, wireOffset, r, hr => by
    obtain ⟨i, _, hr⟩ := List.mem_flatMap.mp hr
    exact value.enumerateObject_count_pos hfits _ _ r hr
  | .aggregate size members, hfits, structOffset, wireOffset, r, hr =>
    members.enumerateAggregate_count_pos size hfits structOffset wireOffset r hr
theorem MemberList.enumerateAggregate_count_pos : ∀ (ms : MemberList) (size : ℕ), ms.Fits size →
    ∀ structOffset wire, ∀ r ∈ ms.enumerateAggregate structOffset wire, 0 < r.count
  | .nil, _, _, _, _, r, hr => by cases hr
  | .cons info type rest, size, hfits, structOffset, wire, r, hr => by
    have hrest := rest.enumerateAggregate_count_pos size hfits.2.2 structOffset
    simp only [MemberList.enumerateAggregate] at hr
    split at hr
    · exact hrest wire r hr
    split at hr
    · exact hrest _ r hr
    · rcases List.mem_append.mp hr with hr | hr
      · exact type.enumerateObject_count_pos hfits.2.1 _ _ r hr
      · exact hrest _ r hr
end

theorem mem_pairsOf {sequence : List ByteRange} {p : ℕ × ℕ} :
    p ∈ pairsOf sequence ↔
      ∃ r ∈ sequence, ∃ i < r.count, p = (r.structOffset + i, r.wireOffset + i) := by
  simp only [pairsOf, List.mem_flatMap, ByteRange.pairs, mem_block]

/-- The copied ranges lie within the buffer exactly when the layout does not reach
beyond `raw_size`. -/
theorem within_iff (T : TypeInfo) (hplaced : T.Placed) (hfits : T.Fits) :
    (∀ r ∈ T.byteLayout,
      r.wireOffset + r.count ≤ T.rawSize ∧ r.structOffset + r.count ≤ T.objectSize) ↔
    T.wireExtent ≤ T.rawSize := by
  have hpairs : T.flatPairs = pairsOf T.byteLayout := (pairsOf_compressLayout _).symm
  rw [T.wireExtent_le_iff, hpairs]
  constructor
  · intro h p hp
    obtain ⟨r, hr, i, hi, rfl⟩ := mem_pairsOf.mp hp
    have := (h r hr).1
    dsimp only
    omega
  · intro h r hr
    have hpos : 0 < r.count :=
      compressLayout_count_pos (T.enumerateObject_count_pos hfits 0 0) r hr
    have hlast : (r.structOffset + (r.count - 1), r.wireOffset + (r.count - 1)) ∈
        pairsOf T.byteLayout := mem_pairsOf.mpr ⟨r, hr, r.count - 1, by omega, rfl⟩
    have hwire := h _ hlast
    have hbyte : r.structOffset + (r.count - 1) ∈ T.flatPairs.map Prod.fst :=
      List.mem_map.mpr ⟨_, hpairs ▸ hlast, rfl⟩
    rw [T.flatPairs_fst hplaced] at hbyte
    have hobject := T.serializedBytes_lt hfits _ hbyte
    dsimp only at hwire hobject
    omega

/-! ## Every part of a type -/

mutual
/-- The type and the types of the parts that are serialized. -/
def TypeInfo.components : TypeInfo → List TypeInfo
  | .scalar size => [.scalar size]
  | .array count value => .array count value :: if count = 0 then [] else value.components
  | .aggregate size members => .aggregate size members :: members.components
def MemberList.components : MemberList → List TypeInfo
  | .nil => []
  | .cons info type rest =>
    if info.skip || info.ignore then rest.components else type.components ++ rest.components
end

theorem TypeInfo.self_mem_components (T : TypeInfo) : T ∈ T.components := by
  cases T <;> exact List.mem_cons_self

mutual
theorem TypeInfo.components_components : ∀ (T : TypeInfo), ∀ U ∈ T.components,
    ∀ V ∈ U.components, V ∈ T.components
  | .scalar size, U, hU, V, hV => by
    rw [TypeInfo.components, List.mem_singleton] at hU
    rwa [hU] at hV
  | .array count value, U, hU, V, hV => by
    rw [TypeInfo.components] at hU
    rcases List.mem_cons.mp hU with rfl | hU
    · exact hV
    · split at hU
      · cases hU
      · rename_i hne
        rw [TypeInfo.components, if_neg hne]
        exact List.mem_cons_of_mem _ (value.components_components U hU V hV)
  | .aggregate size members, U, hU, V, hV => by
    rw [TypeInfo.components] at hU
    rcases List.mem_cons.mp hU with rfl | hU
    · exact hV
    · exact List.mem_cons_of_mem _ (members.components_components U hU V hV)
theorem MemberList.components_components : ∀ (ms : MemberList), ∀ U ∈ ms.components,
    ∀ V ∈ U.components, V ∈ ms.components
  | .nil, U, hU, _, _ => by cases hU
  | .cons info type rest, U, hU, V, hV => by
    simp only [MemberList.components] at hU ⊢
    split at hU
    · rename_i hmarked
      rw [if_pos hmarked]
      exact rest.components_components U hU V hV
    · rename_i hmarked
      rw [if_neg hmarked]
      rcases List.mem_append.mp hU with hU | hU
      · exact List.mem_append_left _ (type.components_components U hU V hV)
      · exact List.mem_append_right _ (rest.components_components U hU V hV)
end

mutual
theorem TypeInfo.components_placed : ∀ T : TypeInfo, T.Placed → T.Fits →
    ∀ U ∈ T.components, U.Placed ∧ U.Fits
  | .scalar size, hplaced, hfits, U, hU => by
    rw [TypeInfo.components, List.mem_singleton] at hU
    exact hU ▸ ⟨hplaced, hfits⟩
  | .array count value, hplaced, hfits, U, hU => by
    rw [TypeInfo.components] at hU
    rcases List.mem_cons.mp hU with rfl | hU
    · exact ⟨hplaced, hfits⟩
    · split at hU
      · cases hU
      · exact value.components_placed hplaced hfits U hU
  | .aggregate size members, hplaced, hfits, U, hU => by
    rw [TypeInfo.components] at hU
    rcases List.mem_cons.mp hU with rfl | hU
    · exact ⟨hplaced, hfits⟩
    · exact members.components_placed size hplaced hfits U hU
theorem MemberList.components_placed : ∀ (ms : MemberList) (size : ℕ), ms.Placed →
    ms.Fits size → ∀ U ∈ ms.components, U.Placed ∧ U.Fits
  | .nil, _, _, _, U, hU => by cases hU
  | .cons info type rest, size, hplaced, hfits, U, hU => by
    have hrest := rest.components_placed size hplaced.2 hfits.2.2 U
    simp only [MemberList.components, Bool.or_eq_true] at hU
    split at hU
    · exact hrest hU
    · rename_i hmarked
      rw [not_or] at hmarked
      obtain ⟨-, htype⟩ := (hplaced.1.resolve_left hmarked.1).resolve_left hmarked.2
      rcases List.mem_append.mp hU with hU | hU
      · exact type.components_placed htype hfits.2.1 U hU
      · exact hrest hU
end

end ItchOrderBook.Stse

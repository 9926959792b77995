import ItchOrderBook.Stse.Serialize

/-! # The field walk as a transfer

Each serializing and deserializing function copies along a list of pairs of an object
byte and a wire byte, and advances its span. The pairs of a field walk thread a wire
position through the type just as the walk threads its span.
-/
namespace ItchOrderBook.Stse
open Transfer ByteOrder

/-- The bytes of a scalar of `n` bytes in the other order, by wire position. -/
def mirrored (n : ℕ) : List (ℕ × ℕ) := (List.range n).map fun i => (n - 1 - i, i)

def leafPairs (native e : Endian) (n : ℕ) : List (ℕ × ℕ) :=
  if e = native then block 0 0 n else mirrored n

/-- The bytes `byteLayout` pairs up. -/
def TypeInfo.flatPairs (T : TypeInfo) : List (ℕ × ℕ) := pairsOf (T.enumerateObject 0 0)

mutual
/-- The object and wire bytes of a walk; `sub` gives those of the call on a part. -/
def TypeInfo.wirePairs (leaf : ℕ → List (ℕ × ℕ))
    (sub : TypeInfo → List (ℕ × ℕ) → List (ℕ × ℕ)) : TypeInfo → List (ℕ × ℕ)
  | .scalar size => leaf size
  | .array count value => (List.range count).flatMap fun i =>
      shift (value.objectSize * i) (value.rawSize * i) (sub value (value.wirePairs leaf sub))
  | .aggregate _ members => members.wirePairs leaf sub 0
def MemberList.wirePairs (leaf : ℕ → List (ℕ × ℕ))
    (sub : TypeInfo → List (ℕ × ℕ) → List (ℕ × ℕ)) : MemberList → ℕ → List (ℕ × ℕ)
  | .nil, _ => []
  | .cons info type rest, wire =>
    if info.skip then rest.wirePairs leaf sub wire
    else if info.ignore then rest.wirePairs leaf sub (wire + type.rawSize)
    else shift info.position wire (sub type (type.wirePairs leaf sub)) ++
      rest.wirePairs leaf sub (wire + type.rawSize)
end

def dispatchPairs (native e : Endian) (T : TypeInfo) (fields : List (ℕ × ℕ)) : List (ℕ × ℕ) :=
  if e = native then T.flatPairs else fields

/-- The bytes `serialize_fields` and `deserialize_fields` pair up. -/
def TypeInfo.fieldPairs (native e : Endian) (T : TypeInfo) : List (ℕ × ℕ) :=
  T.wirePairs (leafPairs native e) (dispatchPairs native e)

/-! ## Walks that copy -/

/-- `v` copies along the pairs and advances its span by `raw`. -/
def Along (copy : List (ℕ × ℕ) → Memory → Memory) (v : Visit) (ps : List (ℕ × ℕ))
    (raw : ℕ) : Prop :=
  ∀ m span addr, v m span addr = (copy (shift addr span.data ps) m, span.subspan raw)

def copyOut (source : Memory) (ps : List (ℕ × ℕ)) (buffer : Memory) : Memory :=
  transfer (ps.map Prod.swap) buffer source

def copyIn (buffer : Memory) (ps : List (ℕ × ℕ)) (destination : Memory) : Memory :=
  transfer ps destination buffer

theorem copyOut_append (source : Memory) (ps qs : List (ℕ × ℕ)) (buffer : Memory) :
    copyOut source (ps ++ qs) buffer = copyOut source qs (copyOut source ps buffer) := by
  rw [copyOut, List.map_append, transfer_append]
  rfl

theorem copyIn_append (buffer : Memory) (ps qs : List (ℕ × ℕ)) (destination : Memory) :
    copyIn buffer (ps ++ qs) destination = copyIn buffer qs (copyIn buffer ps destination) :=
  transfer_append ps qs destination buffer

section Walk
variable {copy : List (ℕ × ℕ) → Memory → Memory} (hnil : ∀ m, copy [] m = m)
  (happend : ∀ ps qs m, copy (ps ++ qs) m = copy qs (copy ps m))
include hnil happend

/-- Calls on the elements of an array, each `stride` further in the object. -/
theorem Along.foldl {v : Visit} {ps : List (ℕ × ℕ)} {raw : ℕ} (hv : Along copy v ps raw)
    (stride count : ℕ) (m : Memory) (span : Span) (addr : ℕ) :
    (List.range count).foldl (fun r i => v r.1 r.2 (addr + stride * i)) (m, span) =
      (copy (shift addr span.data
        ((List.range count).flatMap fun i => shift (stride * i) (raw * i) ps)) m,
        span.subspan (count * raw)) := by
  induction count with
  | zero => simp [hnil]
  | succ count ih =>
    rw [List.range_succ, List.foldl_append, ih, List.flatMap_append, shift_append, happend]
    simp only [List.foldl_cons, List.foldl_nil, List.flatMap_cons, List.flatMap_nil,
      List.append_nil, shift_shift, Nat.succ_mul, Nat.mul_comm raw count]
    rw [hv, Span.subspan_data, Span.subspan_subspan]

variable {scalar : ℕ → Visit} {leaf : ℕ → List (ℕ × ℕ)}
  (hscalar : ∀ size, Along copy (scalar size) (leaf size) size)
  {sub : TypeInfo → Visit → Visit} {subPairs : TypeInfo → List (ℕ × ℕ) → List (ℕ × ℕ)}
  (hsub : ∀ (T : TypeInfo) (v : Visit) (ps : List (ℕ × ℕ)), Along copy v ps T.rawSize →
    Along copy (sub T v) (subPairs T ps) T.rawSize)
include hscalar hsub

set_option linter.unusedSectionVars false in
mutual
/-- A walk copies along the pairs of its type, if the calls it makes do. -/
theorem TypeInfo.walk_along : ∀ T : TypeInfo,
    Along copy (T.walk scalar sub) (T.wirePairs leaf subPairs) T.rawSize
  | .scalar size => hscalar size
  | .array count value => fun m span addr =>
    (hsub value _ _ value.walk_along).foldl hnil happend value.objectSize count m span addr
  | .aggregate _ members => fun m span addr => by
    have h := members.walk_along m span addr 0
    rw [Span.subspan_zero, Nat.zero_add] at h
    exact h
theorem MemberList.walk_along : ∀ (ms : MemberList) (m : Memory) (span : Span) (addr wire : ℕ),
    ms.walk scalar sub m (span.subspan wire) addr =
      (copy (shift addr span.data (ms.wirePairs leaf subPairs wire)) m,
        span.subspan (wire + ms.rawSize))
  | .nil, m, span, addr, wire => by
    simp [MemberList.walk, MemberList.wirePairs, MemberList.rawSize, hnil]
  | .cons info type rest, m, span, addr, wire => by
    have hrest := rest.walk_along
    by_cases hskip : info.skip
    · simp only [MemberList.walk, MemberList.wirePairs, MemberList.rawSize, if_pos hskip]
      exact hrest m span addr wire
    by_cases hignore : info.ignore
    · simp only [MemberList.walk, MemberList.wirePairs, MemberList.rawSize, if_neg hskip,
        if_pos hignore, Span.subspan_subspan, hrest, Nat.add_assoc]
    · have htype := hsub type _ _ type.walk_along
      simp only [MemberList.walk, MemberList.wirePairs, MemberList.rawSize, if_neg hskip,
        if_neg hignore, htype m, Span.subspan_subspan, Span.subspan_data, hrest, shift_append,
        shift_shift, happend, Nat.add_assoc]
end

end Walk

/-! ## Scalars -/

@[simp] theorem bitCast_length (m : Memory) (addr size : ℕ) : (bitCast m addr size).length = size := by
  simp [bitCast]

theorem bitCast_congr {m m' : Memory} {addr addr' size : ℕ}
    (h : ∀ i < size, m (addr + i) = m' (addr' + i)) : bitCast m addr size = bitCast m' addr' size :=
  List.map_congr_left fun i hi => h i (List.mem_range.mp hi)

theorem swapped_bitCast (native : Endian) (m : Memory) (addr size : ℕ) :
    swapped native size (bitCast m addr size) = (bitCast m addr size).reverse := by
  have h := store_byteswap_load native (bitCast m addr size)
  rwa [bitCast_length] at h

theorem arrayMemory_bitCast {m : Memory} {addr size i : ℕ} (hi : i < size) :
    arrayMemory (bitCast m addr size) i = m (addr + i) := by
  simp [arrayMemory, bitCast, hi]

theorem arrayMemory_swapped {native : Endian} {m : Memory} {addr size i : ℕ} (hi : i < size) :
    arrayMemory (swapped native size (bitCast m addr size)) i = m (addr + (size - 1 - i)) := by
  have hr : size - 1 - i < size := by omega
  rw [swapped_bitCast, arrayMemory, List.getD_eq_getElem?_getD, List.getElem?_reverse (by simpa),
    bitCast_length, bitCast]
  simp [hr]

theorem serializeScalar_along (native e : Endian) (source : Memory) (size : ℕ) :
    Along (copyOut source)
      (fun buffer destination addr => serializeScalar native e size buffer destination source addr)
      (leafPairs native e size) size := by
  intro buffer destination addr
  simp only [serializeScalar, constexprMemcpy, copyOut, leafPairs, Prod.mk.injEq, and_true]
  split
  · simp only [block, shift, List.map_map]
    apply transfer_map_congr
    intro i hi
    exact ⟨by simp, by simp [arrayMemory_bitCast (List.mem_range.mp hi)]⟩
  · simp only [block, mirrored, shift, List.map_map]
    apply transfer_map_congr
    intro i hi
    exact ⟨by simp, by simp [arrayMemory_swapped (List.mem_range.mp hi)]⟩

theorem mirrored_fst_nodup (addr wire n : ℕ) : ((shift addr wire (mirrored n)).map Prod.fst).Nodup := by
  simp only [shift, mirrored, List.map_map]
  refine List.Nodup.map_on ?_ List.nodup_range
  intro i hi j hj h
  simp only [Function.comp_apply, List.mem_range] at *
  omega

theorem deserializeScalar_along (native e : Endian) (buffer : Memory) (size : ℕ) :
    Along (copyIn buffer)
      (fun destination source addr => deserializeScalar native e size destination source buffer addr)
      (leafPairs native e size) size := by
  intro destination source addr
  simp only [deserializeScalar, constexprMemcpy, copyIn, leafPairs, Prod.mk.injEq, and_true]
  split
  · simp only [block, shift, List.map_map]
    apply transfer_map_congr
    intro i hi
    exact ⟨by simp, by simp [arrayMemory_bitCast (List.mem_range.mp hi)]⟩
  · -- the bytes are assigned in object order, the pairs stand in wire order
    let ordered := (List.range size).map fun i => (addr + i, source.data + (size - 1 - i))
    have hordered : (ordered.map Prod.fst).Nodup := by
      simp only [ordered, List.map_map]
      exact List.Nodup.map_on (fun i _ j _ h => by simpa using h) List.nodup_range
    have hmem : ∀ p, p ∈ ordered ↔ p ∈ shift addr source.data (mirrored size) := by
      intro p
      simp only [ordered, shift, mirrored, List.map_map, List.mem_map, List.mem_range,
        Function.comp_apply]
      constructor
      · rintro ⟨i, hi, rfl⟩
        exact ⟨size - 1 - i, by omega, by rw [Nat.sub_sub_self (by omega)]⟩
      · rintro ⟨i, hi, rfl⟩
        exact ⟨size - 1 - i, by omega, by rw [Nat.sub_sub_self (by omega)]⟩
    rw [← transfer_congr_mem hordered (mirrored_fst_nodup addr source.data size) hmem]
    simp only [block, ordered]
    apply transfer_map_congr
    intro i hi
    exact ⟨rfl, by simp [arrayMemory_swapped (List.mem_range.mp hi)]⟩

/-! ## The flat path -/

theorem copyToWire_eq (layout : List ByteRange) (buffer : Memory) (data : ℕ) (source : Memory)
    (addr : ℕ) : copyToWire layout buffer data source addr =
      copyOut source (shift addr data (pairsOf layout)) buffer := by
  induction layout generalizing buffer with
  | nil => rfl
  | cons r layout ih =>
    refine (ih _).trans ?_
    change _ = copyOut source (shift addr data (r.pairs ++ pairsOf layout)) buffer
    rw [shift_append, copyOut_append, ByteRange.pairs, shift_block]
    simp only [constexprMemcpy, copyOut, swap_block]

theorem copyFromWire_eq (layout : List ByteRange) (destination : Memory) (addr : ℕ)
    (buffer : Memory) (data : ℕ) : copyFromWire layout destination addr buffer data =
      copyIn buffer (shift addr data (pairsOf layout)) destination := by
  induction layout generalizing destination with
  | nil => rfl
  | cons r layout ih =>
    refine (ih _).trans ?_
    change _ = copyIn buffer (shift addr data (r.pairs ++ pairsOf layout)) destination
    rw [shift_append, copyIn_append, ByteRange.pairs, shift_block]
    simp only [constexprMemcpy, copyIn]

theorem serializeFlat_along (source : Memory) (T : TypeInfo) :
    Along (copyOut source) (fun buffer destination addr =>
      serializeFlat T buffer destination source addr) T.flatPairs T.rawSize := by
  intro buffer destination addr
  simp only [serializeFlat, copyToWire_eq, TypeInfo.byteLayout,
    pairsOf_compressLayout, TypeInfo.flatPairs]

theorem deserializeFlat_along (buffer : Memory) (T : TypeInfo) :
    Along (copyIn buffer) (fun destination source addr =>
      deserializeFlat T destination source buffer addr) T.flatPairs T.rawSize := by
  intro destination source addr
  simp only [deserializeFlat, copyFromWire_eq, TypeInfo.byteLayout,
    pairsOf_compressLayout, TypeInfo.flatPairs]

/-! ## The functions of the library -/

theorem Along.dispatch {copy : List (ℕ × ℕ) → Memory → Memory} {native e : Endian}
    {flat : TypeInfo → Visit} (hflat : ∀ T, Along copy (flat T) T.flatPairs T.rawSize)
    (T : TypeInfo) (v : Visit) (ps : List (ℕ × ℕ)) (hv : Along copy v ps T.rawSize) :
    Along copy (Stse.dispatch native e flat T v) (dispatchPairs native e T ps) T.rawSize := by
  unfold Stse.dispatch dispatchPairs
  split
  · exact hflat T
  · exact hv

theorem serializeFields_along (native e : Endian) (source : Memory) (T : TypeInfo) :
    Along (copyOut source) (fun buffer destination addr =>
      serializeFields native e T buffer destination source addr)
      (T.fieldPairs native e) T.rawSize :=
  TypeInfo.walk_along (fun _ => rfl) (copyOut_append source)
    (serializeScalar_along native e source) (Along.dispatch (serializeFlat_along source)) T

theorem deserializeFields_along (native e : Endian) (buffer : Memory) (T : TypeInfo) :
    Along (copyIn buffer) (fun destination source addr =>
      deserializeFields native e T destination source buffer addr)
      (T.fieldPairs native e) T.rawSize :=
  TypeInfo.walk_along (fun _ => rfl) (copyIn_append buffer)
    (deserializeScalar_along native e buffer) (Along.dispatch (deserializeFlat_along buffer)) T

theorem deserialize_native (native : Endian) (T : TypeInfo) (destination : Memory) (source : Span)
    (buffer : Memory) (addr : ℕ) : deserialize native native T destination source buffer addr =
      (copyIn buffer (shift addr source.data T.flatPairs) destination, source.subspan T.rawSize) := by
  rw [deserialize, if_pos rfl]
  exact deserializeFlat_along buffer T destination source addr

end ItchOrderBook.Stse

import ItchOrderBook.Stse.LayoutReach

/-! # Constant evaluation against run time

Serializing reads the object through an array of its bytes, to the same effect. Deserializing
assigns every object that takes the flat path as a whole, from bytes that start at zero: its
skipped and ignored members are zeroed, where the field walk leaves them.
-/
namespace ItchOrderBook.Stse
open Transfer ByteOrder

/-! ## Serializing -/

theorem Evaluation.serializeFlat_eq (evaluation : Evaluation) {T : TypeInfo} (hplaced : T.Placed)
    (hfits : T.Fits) : evaluation.serializeFlat T = Stse.serializeFlat T := by
  funext buffer destination source addr
  cases evaluation with
  | runTime => rfl
  | constant =>
    simp only [Evaluation.serializeFlat, Stse.serializeFlat, copyToWire_eq, TypeInfo.byteLayout,
      pairsOf_compressLayout, Prod.mk.injEq, and_true, copyOut, shift, List.map_map]
    refine transfer_map_congr ?_ buffer
    intro p hp
    refine ⟨rfl, ?_⟩
    have hbyte : p.1 ∈ T.flatPairs.map Prod.fst := List.mem_map_of_mem hp
    rw [T.flatPairs_fst hplaced] at hbyte
    simpa using arrayMemory_bitCast (m := source) (T.serializedBytes_lt hfits _ hbyte)

mutual
/-- A walk depends on the calls on the parts of its type only. -/
theorem TypeInfo.walk_congr {scalar : ℕ → Visit} {sub sub' : TypeInfo → Visit → Visit} :
    ∀ T : TypeInfo, (∀ U ∈ T.components, sub U = sub' U) → T.walk scalar sub = T.walk scalar sub'
  | .scalar _, _ => rfl
  | .array count value, h => by
    funext m span addr
    rw [TypeInfo.components] at h
    by_cases hcount : count = 0
    · simp [TypeInfo.walk, hcount]
    · simp only [if_neg hcount, List.forall_mem_cons] at h
      simp only [TypeInfo.walk, h.2 value value.self_mem_components, value.walk_congr h.2]
  | .aggregate _ members, h => by
    funext m span addr
    simp only [TypeInfo.walk, members.walk_congr (List.forall_mem_cons.mp h).2]
theorem MemberList.walk_congr {scalar : ℕ → Visit} {sub sub' : TypeInfo → Visit → Visit} :
    ∀ ms : MemberList, (∀ U ∈ ms.components, sub U = sub' U) →
      ms.walk scalar sub = ms.walk scalar sub'
  | .nil, _ => rfl
  | .cons info type rest, h => by
    funext m span addr
    simp only [MemberList.components] at h
    by_cases hmarked : (info.skip || info.ignore) = true
    · rw [if_pos hmarked] at h
      rcases (Bool.or_eq_true _ _).mp hmarked with hskip | hignore
      · simp [MemberList.walk, hskip, rest.walk_congr h]
      · simp [MemberList.walk, hignore, rest.walk_congr h]
    · rw [if_neg hmarked, List.forall_mem_append] at h
      simp only [MemberList.walk, rest.walk_congr h.2, type.walk_congr h.1,
        h.1 type type.self_mem_components]
end

theorem Evaluation.serializeFields_eq (evaluation : Evaluation) (native e : Endian) {T : TypeInfo}
    (hplaced : T.Placed) (hfits : T.Fits) :
    evaluation.serializeFields native e T = Stse.serializeFields native e T := by
  funext buffer destination source addr
  refine congrFun (congrFun (congrFun (T.walk_congr fun U hU => ?_) _) _) _
  obtain ⟨hplaced, hfits⟩ := T.components_placed hplaced hfits U hU
  funext v
  simp only [dispatch, evaluation.serializeFlat_eq hplaced hfits]

/-! ## Deserializing -/

/-- The bytes that an assignment of whole objects fills with zeros. -/
def Evaluation.filled : Evaluation → List ℕ → List ℕ
  | .runTime, _ => []
  | .constant, bytes => bytes

/-- `v` zeroes these bytes of its object, copies along the pairs and advances its span. -/
def Assigns (buffer : Memory) (v : Visit) (bytes : List ℕ) (ps : List (ℕ × ℕ)) (raw : ℕ) : Prop :=
  ∀ m span addr, v m span addr =
    (copyIn buffer (shift addr span.data ps) (fill (bytes.map (addr + ·)) 0 m), span.subspan raw)

theorem Along.assigns {buffer : Memory} {v : Visit} {ps : List (ℕ × ℕ)} {raw : ℕ}
    (h : Along (copyIn buffer) v ps raw) : Assigns buffer v [] ps raw := by
  intro m span addr
  simp [h m span addr]

/-- A byte that no pair targets is zero or as it was. -/
theorem Assigns.untargeted {buffer : Memory} {v : Visit} {bytes : List ℕ} {ps : List (ℕ × ℕ)}
    {raw i : ℕ} (h : Assigns buffer v bytes ps raw) (hi : i ∉ ps.map Prod.fst) (m : Memory)
    (span : Span) : (v m span 0).1 i = fill bytes 0 m i := by
  have htarget : i ∉ (shift 0 span.data ps).map Prod.fst := by simpa [map_fst_shift] using hi
  simp only [h m span 0, copyIn, transfer_of_not_mem htarget, Nat.zero_add, List.map_id']

theorem copyIn_fill_append {buffer m : Memory} {bytes later : List ℕ} {ps qs : List (ℕ × ℕ)}
    (h : later.Disjoint (ps.map Prod.fst)) :
    copyIn buffer qs (fill later 0 (copyIn buffer ps (fill bytes 0 m))) =
      copyIn buffer (ps ++ qs) (fill (bytes ++ later) 0 m) := by
  rw [copyIn_append, fill_append]
  simp only [copyIn, fill_transfer h]

theorem disjoint_targets (addr wire : ℕ) {bytes later : List ℕ} {ps : List (ℕ × ℕ)}
    (hps : ps.map Prod.fst ⊆ bytes) (h : later.Disjoint bytes) :
    (later.map (addr + ·)).Disjoint ((shift addr wire ps).map Prod.fst) := by
  rw [map_fst_shift]
  exact List.disjoint_map (add_right_injective addr) (List.disjoint_of_subset_right hps h)

/-- Calls on the elements of an array whose elements share no byte. -/
theorem Assigns.foldl {buffer : Memory} {v : Visit} {bytes : List ℕ} {ps : List (ℕ × ℕ)} {raw : ℕ}
    (hv : Assigns buffer v bytes ps raw) (hps : ps.map Prod.fst ⊆ bytes) {stride count : ℕ}
    (hseparate : ((List.range count).flatMap fun i => bytes.map (stride * i + ·)).Nodup)
    (m : Memory) (span : Span) (addr : ℕ) :
    (List.range count).foldl (fun r i => v r.1 r.2 (addr + stride * i)) (m, span) =
      (copyIn buffer (shift addr span.data
        ((List.range count).flatMap fun i => shift (stride * i) (raw * i) ps))
        (fill (((List.range count).flatMap fun i => bytes.map (stride * i + ·)).map (addr + ·)) 0 m),
        span.subspan (count * raw)) := by
  induction count with
  | zero => simp [copyIn]
  | succ count ih =>
    simp only [List.range_succ, List.flatMap_append, List.flatMap_singleton] at hseparate ⊢
    obtain ⟨hearlier, -, hdisjoint⟩ := List.nodup_append'.mp hseparate
    have htargets : ((List.range count).flatMap fun i => shift (stride * i) (raw * i) ps).map
        Prod.fst ⊆ (List.range count).flatMap fun i => bytes.map (stride * i + ·) := by
      simp only [List.map_flatMap, map_fst_shift]
      intro i hi
      obtain ⟨k, hk, hi⟩ := List.mem_flatMap.mp hi
      exact List.mem_flatMap.mpr ⟨k, hk, List.map_subset _ hps hi⟩
    rw [List.foldl_append, ih hearlier]
    simp only [List.foldl_cons, List.foldl_nil]
    rw [hv, Span.subspan_data, Span.subspan_subspan]
    have hfree := disjoint_targets addr span.data htargets (List.disjoint_symm hdisjoint)
    simp only [shift_append, shift_shift, List.map_append, List.map_map, Function.comp_def,
      ← Nat.add_assoc, Nat.succ_mul, Nat.mul_comm raw count] at hfree ⊢
    exact Prod.ext (copyIn_fill_append hfree) rfl

theorem TypeInfo.serialized_subset_object (T : TypeInfo) : T.serializedBytes ⊆ T.objectBytes :=
  fun _ hi => T.objectBytes_perm.mem_iff.mpr (List.mem_append_left _ hi)

theorem TypeInfo.targets_subset (T : TypeInfo) (hplaced : T.Placed) :
    T.flatPairs.map Prod.fst ⊆ T.objectBytes := by
  rw [T.flatPairs_fst hplaced]
  exact T.serialized_subset_object

theorem assignBits_copyFromWire {T : TypeInfo} (hplaced : T.Placed) (buffer destination : Memory)
    (addr data : ℕ) :
    assignBits T destination addr (copyFromWire T.byteLayout (fun _ => 0) 0 buffer data) =
      copyIn buffer (shift addr data T.flatPairs) (fill (T.objectBytes.map (addr + ·)) 0
        destination) := by
  have hraw : copyFromWire T.byteLayout (fun _ => 0) 0 buffer data =
      copyIn buffer (shift 0 data T.flatPairs) fun _ => 0 := by
    rw [copyFromWire_eq, TypeInfo.byteLayout, pairsOf_compressLayout]
    rfl
  have hmove : shift addr data T.flatPairs =
      (shift 0 data T.flatPairs).map fun p => (addr + p.1, p.2) := by
    simp [shift, Function.comp_def]
  have hassigned : (T.objectBytes.map fun i => (addr + i, i)).map Prod.fst =
      T.objectBytes.map (addr + ·) := by
    simp [Function.comp_def]
  rw [hraw]
  funext j
  by_cases hj : j ∈ T.objectBytes.map (addr + ·)
  · obtain ⟨i, hi, rfl⟩ := List.mem_map.mp hj
    have hone : ∀ p ∈ T.objectBytes.map fun i => (addr + i, i), p.1 = addr + i →
        copyIn buffer (shift 0 data T.flatPairs) (fun _ => 0) p.2 =
          copyIn buffer (shift 0 data T.flatPairs) (fun _ => 0) i := by
      intro p hp heq
      obtain ⟨k, -, rfl⟩ := List.mem_map.mp hp
      rw [Nat.add_left_cancel heq]
    rw [assignBits, transfer_of_forall (hassigned ▸ hj) hone, hmove, copyIn, copyIn,
      transfer_map_fst (add_right_injective addr)]
    exact transfer_congr_dst (fill_of_mem hj 0 destination).symm buffer
  · have htarget : j ∉ (shift addr data T.flatPairs).map Prod.fst := by
      rw [map_fst_shift]
      exact fun hmem => hj (List.map_subset _ (T.targets_subset hplaced) hmem)
    rw [assignBits, transfer_of_not_mem (hassigned ▸ hj), copyIn, transfer_of_not_mem htarget,
      fill_of_not_mem hj]

theorem Evaluation.deserializeFlat_assigns (evaluation : Evaluation) {T : TypeInfo}
    (hplaced : T.Placed) (buffer : Memory) :
    Assigns buffer (fun destination source addr =>
      evaluation.deserializeFlat T destination source buffer addr)
      (evaluation.filled T.objectBytes) T.flatPairs T.rawSize := by
  cases evaluation with
  | runTime => exact (deserializeFlat_along buffer T).assigns
  | constant =>
    intro destination source addr
    exact Prod.ext (assignBits_copyFromWire hplaced buffer destination addr source.data) rfl

/-- The bytes of the members that the walk deserializes. -/
def MemberList.assignedBytes : MemberList → List ℕ
  | .nil => []
  | .cons info type rest =>
    if info.skip || info.ignore then rest.assignedBytes
    else type.objectBytes.map (info.position + ·) ++ rest.assignedBytes

/-- The bytes of the skipped and ignored members. -/
def MemberList.keptBytes : MemberList → List ℕ
  | .nil => []
  | .cons info type rest =>
    if info.skip || info.ignore then type.objectBytes.map (info.position + ·) ++ rest.keptBytes
    else rest.keptBytes

def TypeInfo.assignedBytes : TypeInfo → List ℕ
  | .aggregate _ members => members.assignedBytes
  | T => T.objectBytes

/-- The bytes that the walk over the class itself leaves; a skipped member of a member is
none of them. -/
def TypeInfo.keptBytes : TypeInfo → List ℕ
  | .aggregate _ members => members.keptBytes
  | _ => []

mutual
theorem TypeInfo.objectBytes_split : ∀ T : TypeInfo,
    T.objectBytes.Perm (T.assignedBytes ++ T.keptBytes)
  | .scalar _ => by simp [TypeInfo.assignedBytes, TypeInfo.keptBytes]
  | .array _ _ => by simp [TypeInfo.assignedBytes, TypeInfo.keptBytes]
  | .aggregate _ members => members.objectBytes_split
theorem MemberList.objectBytes_split : ∀ ms : MemberList,
    ms.objectBytes.Perm (ms.assignedBytes ++ ms.keptBytes)
  | .nil => List.Perm.refl _
  | .cons info type rest => by
    have hrest := rest.objectBytes_split
    simp only [MemberList.objectBytes, MemberList.assignedBytes, MemberList.keptBytes]
    split
    · exact (hrest.append_left _).trans (List.perm_append_comm_assoc _ _ _)
    · rw [List.append_assoc]
      exact hrest.append_left _
end

mutual
theorem TypeInfo.serialized_subset_assigned : ∀ T : TypeInfo, T.serializedBytes ⊆ T.assignedBytes
  | .scalar _ => List.Subset.refl _
  | .array count value => (TypeInfo.array count value).serialized_subset_object
  | .aggregate _ members => members.serialized_subset_assigned
theorem MemberList.serialized_subset_assigned : ∀ ms : MemberList,
    ms.serializedBytes ⊆ ms.assignedBytes
  | .nil => List.nil_subset _
  | .cons info type rest => by
    have hrest := rest.serialized_subset_assigned
    simp only [MemberList.serializedBytes, MemberList.assignedBytes]
    split
    · exact hrest
    · have hself := List.map_subset (info.position + ·) type.serialized_subset_object
      exact List.append_subset.mpr ⟨List.subset_append_of_subset_left _ hself,
        List.subset_append_of_subset_right _ hrest⟩
end

/-- The member loop in a constant evaluation assigns each member as a whole. -/
theorem MemberList.walk_assigns (native : Endian) (buffer : Memory) (scalar : ℕ → Visit) :
    ∀ ms : MemberList, ms.Placed → ms.objectBytes.Nodup →
    ∀ (m : Memory) (span : Span) (addr wire : ℕ),
    ms.walk scalar (dispatch native native fun T destination source addr =>
        Evaluation.constant.deserializeFlat T destination source buffer addr)
        m (span.subspan wire) addr =
      (copyIn buffer (shift addr span.data
          (ms.wirePairs (leafPairs native native) (dispatchPairs native native) wire))
        (fill (ms.assignedBytes.map (addr + ·)) 0 m), span.subspan (wire + ms.rawSize))
  | .nil, _, _, m, span, addr, wire => by
    simp [MemberList.walk, MemberList.wirePairs, MemberList.rawSize, MemberList.assignedBytes,
      copyIn]
  | .cons info type rest, hplaced, hseparate, m, span, addr, wire => by
    obtain ⟨-, hseparate, hdisjoint⟩ := List.nodup_append'.mp hseparate
    have hrest := rest.walk_assigns native buffer scalar hplaced.2 hseparate
    simp only [MemberList.walk, MemberList.wirePairs, MemberList.rawSize, MemberList.assignedBytes]
    by_cases hskip : info.skip
    · simpa [hskip] using hrest m span addr wire
    by_cases hignore : info.ignore
    · simpa [hskip, hignore, Nat.add_assoc] using hrest m span addr (wire + type.rawSize)
    · obtain ⟨-, htype⟩ := (hplaced.1.resolve_left hskip).resolve_left hignore
      have hself := Evaluation.constant.deserializeFlat_assigns htype buffer m
        (span.subspan wire) (addr + info.position)
      have hlater : rest.assignedBytes.Disjoint (type.objectBytes.map (info.position + ·)) := by
        intro i hi
        exact List.disjoint_symm hdisjoint
          (rest.objectBytes_split.mem_iff.mpr (List.mem_append_left _ hi))
      have htargets : (shift info.position wire type.flatPairs).map Prod.fst ⊆
          type.objectBytes.map (info.position + ·) := by
        rw [map_fst_shift]
        exact List.map_subset _ (type.targets_subset htype)
      have hfree := disjoint_targets addr span.data htargets hlater
      simp only [hskip, hignore, Bool.or_false, Bool.false_eq_true, if_false, dispatch, if_true,
        dispatchPairs, hself, Span.subspan_subspan, Span.subspan_data, shift_append, shift_shift,
        List.map_append, List.map_map, Function.comp_def, Nat.add_assoc, Evaluation.filled]
        at hrest hfree ⊢
      rw [hrest]
      exact Prod.ext (copyIn_fill_append hfree) (congrArg span.subspan (Nat.add_assoc _ _ _))

theorem Evaluation.deserializeFields_assigns (evaluation : Evaluation) (native : Endian)
    {T : TypeInfo} (hplaced : T.Placed) (hseparate : T.objectBytes.Nodup) (buffer : Memory) :
    Assigns buffer (fun destination source addr =>
      evaluation.deserializeFields native native T destination source buffer addr)
      (evaluation.filled T.assignedBytes) (T.fieldPairs native native) T.rawSize := by
  cases evaluation with
  | runTime => exact (deserializeFields_along native native buffer T).assigns
  | constant =>
    intro destination source addr
    cases T with
    | scalar size =>
      have hall : (List.range size).map (addr + ·) ⊆
          (shift addr source.data (leafPairs native native size)).map Prod.fst := by
        simp [leafPairs, map_fst_shift, block, Function.comp_def]
      refine (deserializeScalar_along native native buffer size destination source addr).trans ?_
      exact Prod.ext (transfer_fill hall 0 destination buffer).symm rfl
    | array count value =>
      have hvalue := Evaluation.constant.deserializeFlat_assigns (T := value) hplaced buffer
      have hfold := hvalue.foldl (value.targets_subset hplaced) hseparate destination source addr
      rw [← fieldPairs_array native] at hfold
      refine Eq.trans ?_ hfold
      simp only [Evaluation.deserializeFields, TypeInfo.walk, dispatch, if_true]
    | aggregate size members =>
      have hmembers := members.walk_assigns native buffer (fun size destination source addr =>
        deserializeScalar native native size destination source buffer addr) hplaced hseparate
        destination source addr 0
      rw [Span.subspan_zero, Nat.zero_add] at hmembers
      exact hmembers

/-- Both paths copy along the same pairs: they agree unless there is a kept byte to zero. -/
theorem Evaluation.deserialize_agrees_iff (evaluation : Evaluation) (native : Endian)
    {T : TypeInfo} (hplaced : T.Placed) (hseparate : T.objectBytes.Nodup)
    (hpairs : T.fieldPairs native native = T.flatPairs) :
    (∀ (destination : Memory) (source : Span) (buffer : Memory) (addr : ℕ),
      T.rawSize ≤ source.size →
        evaluation.deserializeFlat T destination source buffer addr =
          evaluation.deserializeFields native native T destination source buffer addr) ↔
    (evaluation = .constant → T.keptBytes = []) := by
  have hsplit := T.objectBytes_split
  have hflat := evaluation.deserializeFlat_assigns hplaced
  have hfields := evaluation.deserializeFields_assigns native hplaced hseparate
  rw [hpairs] at hfields
  constructor
  · rintro hagree rfl
    refine List.eq_nil_iff_forall_not_mem.mpr fun i hi => ?_
    have hobject : i ∈ T.objectBytes := hsplit.mem_iff.mpr (List.mem_append_right _ hi)
    have hassigned : i ∉ T.assignedBytes := fun hi' =>
      (List.nodup_append'.mp (hsplit.nodup_iff.mp hseparate)).2.2 hi' hi
    have htarget : i ∉ T.flatPairs.map Prod.fst := by
      rw [T.flatPairs_fst hplaced]
      exact fun hi' => hassigned (T.serialized_subset_assigned hi')
    -- the byte holds 1 before
    let span : Span := ⟨0, T.rawSize⟩
    have hzeroed := (hflat fun _ => 0).untargeted htarget (fun _ => 1) span
    have hleft := (hfields fun _ => 0).untargeted htarget (fun _ => 1) span
    simp only [Evaluation.filled, fill_of_mem hobject, fill_of_not_mem hassigned] at hzeroed hleft
    rw [hagree _ span _ 0 le_rfl, hleft] at hzeroed
    exact absurd hzeroed (by decide)
  · intro hkept destination source buffer addr _
    refine (hflat buffer destination source addr).trans (Eq.trans ?_
      (hfields buffer destination source addr).symm)
    cases evaluation with
    | runTime => rfl
    | constant =>
      rw [hkept rfl, List.append_nil] at hsplit
      have hbytes := fill_congr (fun i => (hsplit.map (addr + ·)).mem_iff (a := i)) (0 : UInt8)
      simp only [Evaluation.filled, hbytes]

/-! ## The parts of a type -/

mutual
theorem TypeInfo.components_separate : ∀ T : TypeInfo, T.objectBytes.Nodup →
    ∀ U ∈ T.components, U.objectBytes.Nodup
  | .scalar size, hseparate, U, hU => by
    rw [TypeInfo.components, List.mem_singleton] at hU
    exact hU ▸ hseparate
  | .array count value, hseparate, U, hU => by
    rw [TypeInfo.components] at hU
    rcases List.mem_cons.mp hU with rfl | hU
    · exact hseparate
    · split at hU
      · cases hU
      · rename_i hcount
        have hfirst := (List.nodup_flatMap.mp hseparate).1 0
          (List.mem_range.mpr (Nat.pos_of_ne_zero hcount))
        exact value.components_separate hfirst.of_map U hU
  | .aggregate size members, hseparate, U, hU => by
    rw [TypeInfo.components] at hU
    rcases List.mem_cons.mp hU with rfl | hU
    · exact hseparate
    · exact members.components_separate hseparate U hU
theorem MemberList.components_separate : ∀ ms : MemberList, ms.objectBytes.Nodup →
    ∀ U ∈ ms.components, U.objectBytes.Nodup
  | .nil, _, U, hU => by cases hU
  | .cons info type rest, hseparate, U, hU => by
    obtain ⟨hself, hothers, -⟩ := List.nodup_append'.mp hseparate
    have hrest := rest.components_separate hothers U
    simp only [MemberList.components] at hU
    split at hU
    · exact hrest hU
    · rcases List.mem_append.mp hU with hU | hU
      · exact type.components_separate hself.of_map U hU
      · exact hrest hU
end

mutual
/-- The bytes reserved at any level are those that some part keeps. -/
theorem TypeInfo.reservedBytes_eq_nil_iff : ∀ T : TypeInfo,
    T.reservedBytes = [] ↔ ∀ U ∈ T.components, U.keptBytes = []
  | .scalar size => by
    simp [TypeInfo.reservedBytes, TypeInfo.components, TypeInfo.keptBytes]
  | .array count value => by
    have hvalue := value.reservedBytes_eq_nil_iff
    by_cases hcount : count = 0
    · simp [TypeInfo.reservedBytes, TypeInfo.components, TypeInfo.keptBytes, hcount]
    · have hself : (TypeInfo.array count value).reservedBytes = [] ↔ value.reservedBytes = [] := by
        simp only [TypeInfo.reservedBytes, List.flatMap_eq_nil_iff, List.mem_range,
          List.map_eq_nil_iff]
        exact ⟨fun h => h 0 (Nat.pos_of_ne_zero hcount), fun h _ _ => h⟩
      rw [hself, hvalue, TypeInfo.components, if_neg hcount, List.forall_mem_cons]
      exact (and_iff_right rfl).symm
  | .aggregate size members => by
    rw [TypeInfo.components, List.forall_mem_cons]
    exact members.reservedBytes_eq_nil_iff
theorem MemberList.reservedBytes_eq_nil_iff : ∀ ms : MemberList,
    ms.reservedBytes = [] ↔ ms.keptBytes = [] ∧ ∀ U ∈ ms.components, U.keptBytes = []
  | .nil => by
    simp [MemberList.reservedBytes, MemberList.keptBytes, MemberList.components]
  | .cons info type rest => by
    have hrest := rest.reservedBytes_eq_nil_iff
    have htype := type.reservedBytes_eq_nil_iff
    simp only [MemberList.reservedBytes, MemberList.keptBytes, MemberList.components]
    split
    · simp [hrest, and_assoc]
    · simp only [List.append_eq_nil_iff, List.map_eq_nil_iff, htype, hrest,
        List.forall_mem_append]
      exact and_left_comm
end

end ItchOrderBook.Stse

import ItchOrderBook.Stse.MetaUtils
import ItchOrderBook.Foundation.Transfer
import Mathlib.Data.List.Perm.Basic
import Mathlib.Tactic.Ring

/-! # Sizes and byte layouts

`size_of`, the `enumerate` functions and `compress_layout`. A layout is used only
through the bytes its ranges pair up, which merging adjacent ranges leaves as they
are, in order. The bytes of an object are those of its scalars, at their real positions.
-/
namespace ItchOrderBook.Stse
open Transfer

/-- `sizeof(T)`; an array of no elements still occupies a byte. -/
def TypeInfo.objectSize : TypeInfo → ℕ
  | .scalar size => size
  | .array count value => if count = 0 then 1 else count * value.objectSize
  | .aggregate size _ => size

mutual
/-- `raw_size<T>`, the bytes `T` takes on the wire. -/
def TypeInfo.rawSize : TypeInfo → ℕ
  | .scalar size => size
  | .array count value => count * value.rawSize
  | .aggregate _ members => members.rawSize
def MemberList.rawSize : MemberList → ℕ
  | .nil => 0
  | .cons info type rest => if info.skip then rest.rawSize else type.rawSize + rest.rawSize
end

structure ByteRange where
  structOffset : ℕ
  wireOffset : ℕ
  count : ℕ
  deriving DecidableEq, Repr

mutual
/-- `enumerate_object`. Array elements are spaced by `sizeof(value_t)` in the object
and on the wire alike. -/
def TypeInfo.enumerateObject : TypeInfo → ℕ → ℕ → List ByteRange
  | .scalar size, structOffset, wireOffset => [⟨structOffset, wireOffset, size⟩]
  | .array count value, structOffset, wireOffset =>
    (List.range count).flatMap fun i =>
      value.enumerateObject (structOffset + value.objectSize * i)
        (wireOffset + value.objectSize * i)
  | .aggregate _ members, structOffset, wireOffset =>
    members.enumerateAggregate structOffset wireOffset
/-- The member loop of `enumerate_aggregate`, at `current_wire`. -/
def MemberList.enumerateAggregate : MemberList → ℕ → ℕ → List ByteRange
  | .nil, _, _ => []
  | .cons info type rest, structOffset, currentWire =>
    if info.skip then rest.enumerateAggregate structOffset currentWire
    else if info.ignore then rest.enumerateAggregate structOffset (currentWire + type.rawSize)
    else type.enumerateObject (structOffset + info.offsetOf) currentWire ++
      rest.enumerateAggregate structOffset (currentWire + type.rawSize)
end

/-- The loop body of `compress_layout`. -/
def compressStep (compressed : List ByteRange) (r : ByteRange) : List ByteRange :=
  match compressed.getLast? with
  | none => compressed ++ [r]
  | some back =>
    if r.structOffset = back.structOffset + back.count ∧
        r.wireOffset = back.wireOffset + back.count then
      compressed.dropLast ++ [{ back with count := back.count + r.count }]
    else compressed ++ [r]

def compressLayout (rawSequence : List ByteRange) : List ByteRange :=
  rawSequence.foldl compressStep []

/-- `byte_layout_of<T>`. -/
def TypeInfo.byteLayout (T : TypeInfo) : List ByteRange := compressLayout (T.enumerateObject 0 0)

/-- The object and wire bytes a range pairs up. -/
def ByteRange.pairs (r : ByteRange) : List (ℕ × ℕ) := block r.structOffset r.wireOffset r.count

def pairsOf (sequence : List ByteRange) : List (ℕ × ℕ) := sequence.flatMap ByteRange.pairs

@[simp] theorem pairsOf_nil : pairsOf [] = [] := rfl

@[simp] theorem pairsOf_append (xs ys : List ByteRange) :
    pairsOf (xs ++ ys) = pairsOf xs ++ pairsOf ys := List.flatMap_append

@[simp] theorem pairsOf_singleton (r : ByteRange) : pairsOf [r] = r.pairs := by
  simp [pairsOf]

theorem pairsOf_flatMap {α : Type} (xs : List α) (f : α → List ByteRange) :
    pairsOf (xs.flatMap f) = xs.flatMap fun x => pairsOf (f x) := List.flatMap_assoc

/-- The test of the loop: `r` goes on where `back` ends, on both sides. -/
def ByteRange.Continues (back r : ByteRange) : Prop :=
  r.structOffset = back.structOffset + back.count ∧ r.wireOffset = back.wireOffset + back.count

instance (back r : ByteRange) : Decidable (back.Continues r) :=
  inferInstanceAs (Decidable (_ ∧ _))

/-- `compressed.back().count += count`. -/
def ByteRange.extend (back : ByteRange) (count : ℕ) : ByteRange :=
  { back with count := back.count + count }

theorem compressStep_cases (compressed : List ByteRange) (r : ByteRange) :
    (∃ earlier back, compressed = earlier ++ [back] ∧ back.Continues r ∧
      compressStep compressed r = earlier ++ [back.extend r.count]) ∨
    ((∀ back ∈ compressed.getLast?, ¬ back.Continues r) ∧
      compressStep compressed r = compressed ++ [r]) := by
  cases hlast : compressed.getLast? with
  | none => exact Or.inr ⟨by simp, by simp [compressStep, hlast]⟩
  | some back =>
    by_cases hback : back.Continues r
    · have hsplit := List.dropLast_append_getLast? back hlast
      refine Or.inl ⟨_, back, hsplit.symm, hback, ?_⟩
      simp only [compressStep, hlast]
      exact if_pos hback
    · refine Or.inr ⟨by simpa using hback, ?_⟩
      simp only [compressStep, hlast]
      exact if_neg hback

/-- Merging two ranges that are adjacent on both sides keeps their bytes in order. -/
theorem ByteRange.pairs_extend {back r : ByteRange} (h : back.Continues r) :
    (back.extend r.count).pairs = back.pairs ++ r.pairs := by
  simp only [ByteRange.pairs, ByteRange.extend]
  rw [block_add, h.1, h.2]

theorem pairsOf_compressStep (compressed : List ByteRange) (r : ByteRange) :
    pairsOf (compressStep compressed r) = pairsOf compressed ++ r.pairs := by
  rcases compressStep_cases compressed r with ⟨earlier, back, rfl, hback, hstep⟩ | ⟨-, hstep⟩
  · simp [hstep, ByteRange.pairs_extend hback]
  · simp [hstep]

theorem pairsOf_foldl_compressStep (compressed sequence : List ByteRange) :
    pairsOf (sequence.foldl compressStep compressed) = pairsOf compressed ++ pairsOf sequence := by
  induction sequence generalizing compressed with
  | nil => simp
  | cons r rest ih =>
    rw [List.foldl_cons, ih, pairsOf_compressStep, List.append_assoc]
    rfl

theorem pairsOf_compressLayout (sequence : List ByteRange) :
    pairsOf (compressLayout sequence) = pairsOf sequence := by
  rw [compressLayout, pairsOf_foldl_compressStep, pairsOf_nil, List.nil_append]

/-- A property of single ranges that merging keeps holds throughout a compressed layout. -/
theorem forall_compressLayout {P : ByteRange → Prop}
    (hextend : ∀ back r : ByteRange, back.Continues r → P back → P r → P (back.extend r.count))
    {sequence : List ByteRange} (h : ∀ r ∈ sequence, P r) : ∀ r ∈ compressLayout sequence, P r := by
  have hstep : ∀ (compressed : List ByteRange) (r : ByteRange), (∀ q ∈ compressed, P q) →
      P r → ∀ q ∈ compressStep compressed r, P q := by
    intro compressed r hc hr q hq
    rcases compressStep_cases compressed r with ⟨earlier, back, rfl, hback, hs⟩ | ⟨-, hs⟩
    · rw [hs] at hq
      rcases List.mem_append.mp hq with hq | hq
      · exact hc q (List.mem_append_left _ hq)
      · rw [List.mem_singleton.mp hq]
        exact hextend back r hback (hc back (by simp)) hr
    · rw [hs] at hq
      rcases List.mem_append.mp hq with hq | hq
      · exact hc q hq
      · exact (List.mem_singleton.mp hq) ▸ hr
  have hfold : ∀ (sequence compressed : List ByteRange), (∀ q ∈ compressed, P q) →
      (∀ q ∈ sequence, P q) → ∀ q ∈ sequence.foldl compressStep compressed, P q := by
    intro sequence
    induction sequence with
    | nil => exact fun compressed hc _ => hc
    | cons r rest ih =>
      intro compressed hc hs
      exact ih _ (hstep compressed r hc (hs r List.mem_cons_self))
        fun q hq => hs q (List.mem_cons_of_mem r hq)
  exact hfold sequence [] (fun q hq => by cases hq) h

theorem compressLayout_count_pos {sequence : List ByteRange} (h : ∀ r ∈ sequence, 0 < r.count) :
    ∀ r ∈ compressLayout sequence, 0 < r.count :=
  forall_compressLayout (fun _ _ _ _ hr => Nat.add_pos_right _ hr) h

mutual
/-- Where a type is enumerated only moves its bytes. -/
theorem TypeInfo.pairsOf_enumerateObject : ∀ (T : TypeInfo) (structOffset wireOffset : ℕ),
    pairsOf (T.enumerateObject structOffset wireOffset) =
      shift structOffset wireOffset (pairsOf (T.enumerateObject 0 0))
  | .scalar size, structOffset, wireOffset => by
    simp [TypeInfo.enumerateObject, ByteRange.pairs, shift_block]
  | .array count value, structOffset, wireOffset => by
    simp only [TypeInfo.enumerateObject, pairsOf_flatMap, shift_flatMap]
    congr 1
    funext i
    rw [value.pairsOf_enumerateObject (structOffset + value.objectSize * i),
      value.pairsOf_enumerateObject (0 + value.objectSize * i), shift_shift, Nat.zero_add]
  | .aggregate _ members, structOffset, wireOffset => by
    simp only [TypeInfo.enumerateObject]
    exact members.pairsOf_enumerateAggregate structOffset wireOffset 0
theorem MemberList.pairsOf_enumerateAggregate :
    ∀ (ms : MemberList) (structOffset wireOffset currentWire : ℕ),
      pairsOf (ms.enumerateAggregate structOffset (wireOffset + currentWire)) =
        shift structOffset wireOffset (pairsOf (ms.enumerateAggregate 0 currentWire))
  | .nil, _, _, _ => rfl
  | .cons info type rest, structOffset, wireOffset, currentWire => by
    have hrest := rest.pairsOf_enumerateAggregate structOffset wireOffset
    simp only [MemberList.enumerateAggregate]
    split
    · exact hrest currentWire
    split
    · rw [Nat.add_assoc]
      exact hrest _
    · rw [pairsOf_append, pairsOf_append, shift_append, Nat.add_assoc, hrest,
        type.pairsOf_enumerateObject (structOffset + info.offsetOf),
        type.pairsOf_enumerateObject (0 + info.offsetOf), shift_shift, Nat.zero_add]
end

/-! ## The bytes of an object -/

mutual
/-- The bytes of every scalar of the object, whatever the annotations. -/
def TypeInfo.objectBytes : TypeInfo → List ℕ
  | .scalar size => List.range size
  | .array count value => (List.range count).flatMap fun i =>
      value.objectBytes.map (value.objectSize * i + ·)
  | .aggregate _ members => members.objectBytes
def MemberList.objectBytes : MemberList → List ℕ
  | .nil => []
  | .cons info type rest => type.objectBytes.map (info.position + ·) ++ rest.objectBytes
end

mutual
/-- The bytes of the scalars under no skipped or ignored member at any level. -/
def TypeInfo.serializedBytes : TypeInfo → List ℕ
  | .scalar size => List.range size
  | .array count value => (List.range count).flatMap fun i =>
      value.serializedBytes.map (value.objectSize * i + ·)
  | .aggregate _ members => members.serializedBytes
def MemberList.serializedBytes : MemberList → List ℕ
  | .nil => []
  | .cons info type rest =>
    if info.skip || info.ignore then rest.serializedBytes
    else type.serializedBytes.map (info.position + ·) ++ rest.serializedBytes
end

mutual
/-- The bytes of the skipped and ignored members at every level. -/
def TypeInfo.reservedBytes : TypeInfo → List ℕ
  | .scalar _ => []
  | .array count value => (List.range count).flatMap fun i =>
      value.reservedBytes.map (value.objectSize * i + ·)
  | .aggregate _ members => members.reservedBytes
def MemberList.reservedBytes : MemberList → List ℕ
  | .nil => []
  | .cons info type rest =>
    if info.skip || info.ignore then
      type.objectBytes.map (info.position + ·) ++ rest.reservedBytes
    else type.reservedBytes.map (info.position + ·) ++ rest.reservedBytes
end

mutual
theorem TypeInfo.objectBytes_perm : ∀ T : TypeInfo,
    T.objectBytes.Perm (T.serializedBytes ++ T.reservedBytes)
  | .scalar size => by
    simp only [TypeInfo.objectBytes, TypeInfo.serializedBytes, TypeInfo.reservedBytes,
      List.append_nil]
    exact List.Perm.refl _
  | .array count value => by
    simp only [TypeInfo.objectBytes, TypeInfo.serializedBytes, TypeInfo.reservedBytes]
    refine List.Perm.trans ?_ (List.flatMap_append_perm _ _ _).symm
    refine List.Perm.flatMap_left _ fun i _ => ?_
    rw [← List.map_append]
    exact value.objectBytes_perm.map _
  | .aggregate _ members => members.objectBytes_perm
theorem MemberList.objectBytes_perm : ∀ ms : MemberList,
    ms.objectBytes.Perm (ms.serializedBytes ++ ms.reservedBytes)
  | .nil => List.Perm.refl _
  | .cons info type rest => by
    have hrest := rest.objectBytes_perm
    simp only [MemberList.objectBytes, MemberList.serializedBytes, MemberList.reservedBytes]
    split
    · refine (hrest.append_left _).trans ?_
      rw [← List.append_assoc, ← List.append_assoc]
      exact List.perm_append_comm.append_right _
    · have htype := type.objectBytes_perm.map (info.position + ·)
      rw [List.map_append] at htype
      refine (htype.append hrest).trans ?_
      simp only [List.append_assoc]
      refine List.Perm.append_left _ ?_
      rw [← List.append_assoc, ← List.append_assoc]
      exact List.perm_append_comm.append_right _
end

end ItchOrderBook.Stse

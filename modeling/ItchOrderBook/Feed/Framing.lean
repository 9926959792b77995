import ItchOrderBook.Feed.FeedHandler

/-! # The grammar of a file

`next` called until it fails cuts a file into whole frames. What it leaves is empty or a
frame cut short.
-/
namespace ItchOrderBook.Feed
open ByteOrder MarketData

/-- A frame that stops before its end. -/
def CutShort (ptr : List UInt8) : Prop := ∃ f : Frame, ptr <+: f.bytes ∧ ptr ≠ f.bytes

/-! ## One call -/

variable (native : Endian) {ptr : List UInt8}

theorem next_of_long (h : 2 + (2 ^ 16 - 1) ≤ ptr.length) :
    ∃ frame ptr', next native ptr = (.ok frame, ptr') := by
  have hbody : bigEndianValue native (ptr.take 2) < 2 ^ 16 := by
    have hload := load_lt .big (ptr.take 2)
    rw [List.length_take_of_le (by omega)] at hload
    simpa [bigEndianValue_eq] using hload
  have hne : ptr ≠ [] := by
    intro hnil
    simp [hnil] at h
  have hsize : ¬ ptr.length < packetSizeBytes := by
    change ¬ ptr.length < 2
    omega
  have htotal : ¬ ptr.length <
      packetSizeBytes + bigEndianValue native (ptr.take packetSizeBytes) := by
    change ¬ ptr.length < 2 + bigEndianValue native (ptr.take 2)
    omega
  simp [next, hne, hsize, htotal]

variable {native}

theorem next_failed {failure : DataReadFailure} {ptr' : List UInt8}
    (h : next native ptr = (.error failure, ptr')) :
    ptr' = ptr ∧ failure = if ptr = [] then .streamClosed else .invalidFormat := by
  unfold next at h
  split at h
  · simp_all
  · dsimp only at h
    split at h
    · simp_all
    · split at h
      · simp_all
      · cases h

/-- What `next` fails on is cut short. Longer by the longest frame it would not fail, and
the frame it would then yield does not fit. -/
theorem cutShort_of_failed {failure : DataReadFailure} {ptr' : List UInt8}
    (h : next native ptr = (.error failure, ptr')) : CutShort ptr := by
  have hlong : 2 + (2 ^ 16 - 1) ≤ (ptr ++ List.replicate (2 + (2 ^ 16 - 1)) 0).length := by
    rw [List.length_append, List.length_replicate]
    exact Nat.le_add_left _ _
  obtain ⟨frame, rest, hnext⟩ := next_of_long native hlong
  obtain ⟨f, rfl, hsplit⟩ := frame_of_next hnext
  have hptr : ptr <+: f.bytes ++ rest := by
    rw [← hsplit]
    exact List.prefix_append _ _
  obtain hfits | hcut := List.prefix_or_prefix_of_prefix (List.prefix_append f.bytes rest) hptr
  · obtain ⟨rest', rfl⟩ := hfits
    rw [next_bytes] at h
    cases h
  · refine ⟨f, hcut, ?_⟩
    intro hwhole
    have hyields := next_bytes native f []
    rw [List.append_nil, ← hwhole, h] at hyields
    cases hyields

theorem next_shrinks {frame ptr' : List UInt8} (h : next native ptr = (.ok frame, ptr')) :
    ptr'.length < ptr.length := by
  obtain ⟨f, rfl, rfl⟩ := frame_of_next h
  rw [List.length_append, f.bytes_length]
  omega

/-! ## The whole file -/

/-- `next` until it fails: the frames it yields, how it fails and the `ptr_` it leaves. -/
def readAll (native : Endian) (ptr : List UInt8) :
    List (List UInt8) × DataReadFailure × List UInt8 :=
  match _h : next native ptr with
  | (.error failure, ptr') => ([], failure, ptr')
  | (.ok frame, ptr') =>
    let (frames, last) := readAll native ptr'
    (frame :: frames, last)
termination_by ptr.length
decreasing_by exact next_shrinks _h

theorem readAll_of_failed {failure : DataReadFailure} {ptr' : List UInt8}
    (h : next native ptr = (.error failure, ptr')) :
    readAll native ptr = ([], failure, ptr') := by
  unfold readAll
  split
  · simp_all
  · simp_all

theorem readAll_of_next {frame ptr' : List UInt8} (h : next native ptr = (.ok frame, ptr')) :
    readAll native ptr = (frame :: (readAll native ptr').1, (readAll native ptr').2) := by
  conv_lhs => unfold readAll
  split
  · simp_all
  · simp_all

@[simp] theorem readAll_bytes (f : Frame) :
    readAll native (f.bytes ++ ptr) =
      (f.bytes :: (readAll native ptr).1, (readAll native ptr).2) :=
  readAll_of_next (next_bytes native f ptr)

theorem readAll_wire (frames : List Frame) :
    readAll native (wire frames ++ ptr) =
      (frames.map Frame.bytes ++ (readAll native ptr).1, (readAll native ptr).2) := by
  induction frames with
  | nil => simp
  | cons f frames ih => simp [List.append_assoc, ih]

theorem exists_wire (native : Endian) (file : List UInt8) :
    ∃ frames rest failure, file = wire frames ++ rest ∧
      next native rest = (.error failure, rest) := by
  match h : next native file with
  | (.error failure, ptr') =>
    obtain ⟨rfl, -⟩ := next_failed h
    exact ⟨[], ptr', failure, rfl, h⟩
  | (.ok frame, ptr') =>
    have hshrinks := next_shrinks h
    obtain ⟨f, rfl, rfl⟩ := frame_of_next h
    obtain ⟨frames, rest, failure, rfl, hfails⟩ := exists_wire native ptr'
    exact ⟨f :: frames, rest, failure, by simp, hfails⟩
termination_by file.length

/-- The frames `next` yields and what it leaves are the file. It closes at the end of the
file and finds anything else to be a frame cut short, which it leaves unread. -/
theorem readAll_grammar (native : Endian) :
    (∀ file : List UInt8, ∃ (frames : List Frame) (failure : DataReadFailure)
      (rest : List UInt8), readAll native file = (frames.map Frame.bytes, failure, rest) ∧
        file = wire frames ++ rest ∧ (failure = .streamClosed ↔ rest = []) ∧
        (rest ≠ [] → failure = .invalidFormat) ∧ CutShort rest ∧
        next native rest = (.error failure, rest)) ∧
    ∀ frames : List Frame,
      readAll native (wire frames) = (frames.map Frame.bytes, .streamClosed, []) := by
  constructor
  · intro file
    obtain ⟨frames, rest, failure, rfl, hfails⟩ := exists_wire native file
    obtain ⟨-, hfailure⟩ := next_failed hfails
    have hread : readAll native (wire frames ++ rest) =
        (frames.map Frame.bytes, failure, rest) := by
      simp [readAll_wire, readAll_of_failed hfails]
    refine ⟨frames, failure, rest, hread, rfl, ?_, ?_, cutShort_of_failed hfails, hfails⟩
    · by_cases hrest : rest = []
      · simp [hfailure, hrest]
      · simp [hfailure, hrest]
    · intro hrest
      simp [hfailure, hrest]
  · intro frames
    have hclosed : readAll native [] = ([], .streamClosed, []) :=
      readAll_of_failed (by simp [next])
    have hread : readAll native (wire frames ++ []) = _ := readAll_wire frames
    simpa [hclosed] using hread

end ItchOrderBook.Feed

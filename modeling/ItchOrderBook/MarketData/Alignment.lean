import ItchOrderBook.MarketData.FrameReading
import ItchOrderBook.Spmc.LoneReader

/-! # Alignment on any frame

What a poll moves over when the length of a frame need not be that of its message. The
size of the message body wraps below the header size, a read that fails moves nowhere,
and a skip that fails goes unnoticed.
-/
namespace ItchOrderBook.MarketData
open AtomicProgram ByteOrder Feed Spmc Stse

variable {C : Capacity} {n : ℕ} {c : Fin (n + 1)} {bytes : List UInt8} {s : Reader UInt8 C n}

/-! ## Reads -/

section Reads
variable {T : CppType} (native : Endian)

/-- A read that fails leaves a zero buffer to deserialize. -/
theorem readFromQueueUnsafe_alone (hs : Unread c bytes s) (hsize : sizeOnWire T < 2 ^ 64) :
    let done := (readFromQueueUnsafe native T).solo (callAlone c) s
    Moved c bytes s done.2 (taken (sizeOnWire T) bytes.length) ∧
    done.1 = deserialized native T (if sizeOnWire T ≤ bytes.length then bytes.take (sizeOnWire T)
      else List.replicate (sizeOnWire T) 0) := by
  obtain ⟨hmoved, hitems, -⟩ := tryPopMany_alone hs (.ofNat (sizeOnWire T))
  rw [sizeOnWire_toNat hsize] at hmoved hitems
  refine ⟨hmoved, ?_⟩
  change deserialized native T (filled _ _) = _
  rw [filled, hitems, taken]
  by_cases henough : sizeOnWire T ≤ bytes.length
  · rw [if_pos henough, if_pos henough, List.length_take_of_le henough, Nat.sub_self,
      List.replicate_zero, List.append_nil]
  · simp [henough]

theorem tryReadFromQueue_alone (hs : Unread c bytes s) (hsize : sizeOnWire T < 2 ^ 64)
    (henough : sizeOnWire T ≤ bytes.length) :
    let done := (tryReadFromQueue native T).solo (callAlone c) s
    Moved c bytes s done.2 (sizeOnWire T) ∧
    done.1 = .ok (deserialized native T (bytes.take (sizeOnWire T))) := by
  have hcount := sizeOnWire_toNat hsize
  obtain ⟨hmoved, hitems, hnone⟩ := tryPopMany_alone hs (.ofNat (sizeOnWire T))
  rw [hcount, taken, if_pos henough] at hmoved hitems
  have hfailure := hnone.mpr (hcount.trans_le henough)
  have hsolo : (tryReadFromQueue native T).solo (callAlone c) s =
      (.ok (deserialized native T (bytes.take (sizeOnWire T))),
        (callAlone c (.tryPopMany (.ofNat (sizeOnWire T))) s).2) := by
    change (if _ then _ else _ : Client _).solo (callAlone c) _ = _
    rw [if_neg (not_not.mpr hfailure), filled, hitems, List.length_take_of_le henough, Nat.sub_self,
      List.replicate_zero, List.append_nil]
    rfl
  rw [hsolo]
  exact ⟨hmoved, rfl⟩

end Reads

/-! ## One poll -/

section Poll
variable {H : Type} (E : Effects H) (native : Endian) (h : H)

/-- The header alone makes `poll` skip the message. -/
def Filtered (header : HeaderView) : Prop :=
  header.messageType ≠ MessageKind.addOrder.messageType ∧
    header.stockLocate ≠ E.cacheStockLocate h

instance (header : HeaderView) : Decidable (Filtered E h header) :=
  inferInstanceAs (Decidable (_ ∧ _))

/-- `pollPacket` behind the header. -/
def afterHeader (header : HeaderView) (packetBodySize : UInt64) :
    Client (Except Fault (Bool × H)) :=
  if Filtered E h header then do
    let _ ← trySkipMany packetBodySize
    return .ok (true, h)
  else do
    let status ← simulateMessage E native h header
    match status with
    | .error fault => return .error fault
    | .ok (.skipped, h) =>
      let _ ← trySkipMany packetBodySize
      return .ok (true, h)
    | .ok (.simulated, h) => return .ok (true, h)

theorem pollPacket_eq (packetSize : UInt16) : pollPacket E native h packetSize =
    readFromQueueUnsafe native headerViewType >>= fun object =>
      afterHeader E native h (readHeaderView native object)
        (packetSize.toUInt64 - .ofNat (sizeOnWire headerViewType)) := rfl

theorem afterHeader_skips (hs : Unread c bytes s) {header : HeaderView}
    (hskip : Filtered E h header ∨ MessageKind.ofType? header.messageType = none)
    (packetBodySize : UInt64) :
    Moved c bytes s ((afterHeader E native h header packetBodySize).solo (callAlone c) s).2
      (taken packetBodySize.toNat bytes.length) := by
  have hmoved := trySkipMany_alone hs packetBodySize
  unfold afterHeader
  by_cases hfiltered : Filtered E h header
  · rw [if_pos hfiltered]
    exact hmoved
  · rw [if_neg hfiltered]
    simp only [simulateMessage, hskip.resolve_left hfiltered]
    exact hmoved

theorem afterHeader_parses (hs : Unread c bytes s) {header : HeaderView}
    (hfiltered : ¬ Filtered E h header) {kind : MessageKind}
    (hkind : MessageKind.ofType? header.messageType = some kind) (packetBodySize : UInt64) :
    Moved c bytes s ((afterHeader E native h header packetBodySize).solo (callAlone c) s).2
      (taken (sizeOnWire kind.layout) bytes.length) := by
  obtain ⟨hmoved, -⟩ := readFromQueueUnsafe_alone native hs (sizeOnWire_lt kind)
  rw [afterHeader, if_neg hfiltered]
  simp only [simulateMessage, hkind, Prog.solo_bind]
  generalize (E.simulate h header.stockLocate (kind.read native _)) = effect
  cases effect with
  | error fault => exact hmoved
  | ok h' => exact hmoved

/-- The frame keeps a poll aligned with `behind` bytes behind it: it is skipped, or has the
length of its message, or is just as long as the reads that succeed on it. -/
def StaysAligned (f : Frame) (behind : ℕ) : Prop :=
  (f.body.length = 0 ∧ behind < sizeOnWire headerViewType) ∨
  sizeOnWire headerViewType ≤ f.body.length ∧
    (Filtered E h (wireHeader f.body) ∨
      ∀ kind, MessageKind.ofType? (wireHeader f.body).messageType = some kind →
        f.body.length = sizeOnWire headerViewType + sizeOnWire kind.layout ∨
        f.body.length = sizeOnWire headerViewType ∧ behind < sizeOnWire kind.layout)

theorem RightSize.staysAligned {f : Frame} (hf : RightSize f) (behind : ℕ) :
    StaysAligned E h f behind :=
  .inr ⟨hf.header, .inr fun kind hkind => .inl (hf.message kind hkind)⟩

/-- A short frame's body size, wrapped, is more than a queue holds. -/
theorem packetBodySize_wraps {L : ℕ} (hshort : L < sizeOnWire headerViewType) :
    2 ^ 63 < ((UInt16.ofNat L).toUInt64 - .ofNat (sizeOnWire headerViewType)).toNat := by
  have hsize : sizeOnWire headerViewType = 11 := rfl
  rw [hsize] at hshort ⊢
  have hL : (UInt16.ofNat L).toUInt64.toNat = L := by
    rw [UInt16.toNat_toUInt64, UInt16.toNat_ofNat']
    omega
  rw [UInt64.toNat_sub, hL]
  change 2 ^ 63 < (2 ^ 64 - 11 + L) % 2 ^ 64
  omega

/-- How far the poll moves behind the length prefix. -/
theorem pollPacket_moves (f : Frame) (behind : List UInt8) (hs : Unread c (f.body ++ behind) s) :
    ∃ k, Moved c (f.body ++ behind) s
        ((pollPacket E native h (.ofNat f.body.length)).solo (callAlone c) s).2 k ∧
      (k = f.body.length ↔ StaysAligned E h f behind.length) := by
  have hsize : sizeOnWire headerViewType = 11 := rfl
  have hlength : (f.body ++ behind).length = f.body.length + behind.length := List.length_append
  obtain ⟨hheader, hobject⟩ := readFromQueueUnsafe_alone native hs
    (show sizeOnWire headerViewType < 2 ^ 64 by decide)
  have hrest := hheader.unread
  have hleft : ((f.body ++ behind).drop (taken (sizeOnWire headerViewType)
      (f.body ++ behind).length)).length = f.body.length + behind.length -
        taken (sizeOnWire headerViewType) (f.body ++ behind).length := by
    rw [List.length_drop, hlength]
  rw [pollPacket_eq, Prog.solo_bind, hobject]
  by_cases hlong : sizeOnWire headerViewType ≤ f.body.length
  · -- the header is the frame's own
    have htaken : taken (sizeOnWire headerViewType) (f.body ++ behind).length = 11 := by
      rw [taken, if_pos (by omega), hsize]
    have hview : readHeaderView native (deserialized native headerViewType
        (if sizeOnWire headerViewType ≤ (f.body ++ behind).length then
          (f.body ++ behind).take (sizeOnWire headerViewType)
        else List.replicate (sizeOnWire headerViewType) 0)) = wireHeader f.body := by
      rw [if_pos (by omega), List.take_append_of_le_length hlong,
        readHeaderView_deserialized native (List.length_take_of_le hlong), wireHeader_take]
    have hcount := packetBodySize_toNat f.body_lt hlong
    rw [htaken] at hheader hrest hleft
    rw [hview]
    by_cases hfiltered : Filtered E h (wireHeader f.body)
    · refine ⟨_, hheader.trans (afterHeader_skips E native h hrest (.inl hfiltered) _), ?_⟩
      rw [hcount, hleft, taken, if_pos (by omega)]
      exact iff_of_true (by omega) (.inr ⟨hlong, .inl hfiltered⟩)
    cases hkind : MessageKind.ofType? (wireHeader f.body).messageType with
    | none =>
      refine ⟨_, hheader.trans (afterHeader_skips E native h hrest (.inr hkind) _), ?_⟩
      rw [hcount, hleft, taken, if_pos (by omega)]
      refine iff_of_true (by omega) (.inr ⟨hlong, .inr fun kind hsome => ?_⟩)
      rw [hkind] at hsome
      cases hsome
    | some kind =>
      refine ⟨_, hheader.trans (afterHeader_parses E native h hrest hfiltered hkind _), ?_⟩
      have haligned : StaysAligned E h f behind.length ↔
          f.body.length = 11 + sizeOnWire kind.layout ∨
            f.body.length = 11 ∧ behind.length < sizeOnWire kind.layout := by
        simp only [StaysAligned, hkind, Option.some.injEq, forall_eq', hfiltered, false_or, hsize]
        omega
      rw [haligned, hleft, taken]
      split <;> omega
  · have hcount := packetBodySize_wraps (Nat.lt_of_not_le hlong)
    have hfits := hrest.fits
    have hcapacity := C.size_le
    by_cases hread : sizeOnWire headerViewType ≤ (f.body ++ behind).length
    · -- the header runs into the bytes behind the frame
      have htaken : taken (sizeOnWire headerViewType) (f.body ++ behind).length = 11 := by
        rw [taken, if_pos hread, hsize]
      have hmisses : ∀ k, 11 + k = f.body.length ↔ StaysAligned E h f behind.length := by
        refine fun k => iff_of_false (by omega) fun haligned => ?_
        rcases haligned with hempty | hheader
        · omega
        · exact hlong hheader.1
      rw [htaken] at hheader hrest
      generalize readHeaderView native _ = header
      cases hkind : MessageKind.ofType? header.messageType with
      | none =>
        refine ⟨_, hheader.trans (afterHeader_skips E native h hrest (.inr hkind) _), ?_⟩
        exact hmisses _
      | some kind =>
        by_cases hfiltered : Filtered E h header
        · refine ⟨_, hheader.trans (afterHeader_skips E native h hrest (.inl hfiltered) _), ?_⟩
          exact hmisses _
        · refine ⟨_, hheader.trans (afterHeader_parses E native h hrest hfiltered hkind _), ?_⟩
          exact hmisses _
    · -- there is no header: a zero type, and a skip of more than the queue holds
      have htaken : taken (sizeOnWire headerViewType) (f.body ++ behind).length = 0 := by
        rw [taken, if_neg hread]
      have hview : readHeaderView native (deserialized native headerViewType
          (if sizeOnWire headerViewType ≤ (f.body ++ behind).length then
            (f.body ++ behind).take (sizeOnWire headerViewType)
          else List.replicate (sizeOnWire headerViewType) 0)) = ⟨0, 0⟩ := by
        rw [if_neg hread, readHeaderView_deserialized native (by simp)]
        decide
      have hkind : MessageKind.ofType? (HeaderView.mk 0 0).messageType = none := by decide
      rw [htaken] at hheader hrest hleft
      rw [hview]
      refine ⟨_, hheader.trans (afterHeader_skips E native h hrest (.inr hkind) _), ?_⟩
      rw [htaken] at hfits
      rw [taken, if_neg (by omega)]
      simp only [StaysAligned]
      omega

theorem poll_moves (f : Frame) (behind : List UInt8) (hs : Unread c (f.bytes ++ behind) s) :
    ∃ k, Moved c (f.bytes ++ behind) s ((poll E native h).solo (callAlone c) s).2 k ∧
      (k = 2 + f.body.length ↔ StaysAligned E h f behind.length) := by
  have henough : sizeOnWire packetSizeType ≤ (f.bytes ++ behind).length := by
    rw [List.length_append, f.bytes_length]
    exact (Nat.le_add_right 2 _).trans (Nat.le_add_right _ _)
  have htake : (f.bytes ++ behind).take (sizeOnWire packetSizeType) =
      store .big 2 f.body.length := by
    rw [← f.bytes_take]
    exact List.take_append_of_le_length (by rw [f.bytes_length]; exact Nat.le_add_right 2 _)
  have hdrop : (f.bytes ++ behind).drop (sizeOnWire packetSizeType) = f.body ++ behind := by
    rw [← f.bytes_drop]
    exact List.drop_append_of_le_length (by rw [f.bytes_length]; exact Nat.le_add_right 2 _)
  obtain ⟨hheader, hobject⟩ := tryReadFromQueue_alone native hs
    (show sizeOnWire packetSizeType < 2 ^ 64 by decide) henough
  have hsize : readPacketSize native (deserialized native packetSizeType
      ((f.bytes ++ behind).take (sizeOnWire packetSizeType))) = .ofNat f.body.length := by
    rw [htake, readPacketSize_deserialized native (by rw [store_length]; rfl), wireNumber,
      List.drop_zero, List.take_of_length_le (by simp), f.load_length]
  have hbody := hheader.unread
  rw [hdrop] at hbody
  obtain ⟨k, hmoved, hk⟩ := pollPacket_moves E native h f behind hbody
  rw [← hdrop] at hmoved
  have hpoll : (poll E native h).solo (callAlone c) s =
      (pollPacket E native h (.ofNat f.body.length)).solo (callAlone c)
        ((tryReadFromQueue native packetSizeType).solo (callAlone c) s).2 := by
    rw [poll, Prog.solo_bind, hobject]
    dsimp only
    rw [hsize]
  rw [hpoll]
  refine ⟨2 + k, hheader.trans hmoved, ?_⟩
  rw [← hk]
  omega

/-- On any frame, with any bytes behind it, a poll advances the read index by the frame's
bytes exactly when the frame keeps it aligned, and the next poll then starts at the
bytes behind. -/
theorem poll_aligned_iff (f : Frame) (behind : List UInt8) (hs : Unread c (f.bytes ++ behind) s) :
    let s' := ((poll E native h).solo (callAlone c) s).2
    (s'.queue.readIdx c = s.queue.readIdx c + .ofNat (2 + f.body.length) ↔
      StaysAligned E h f behind.length) ∧
    (StaysAligned E h f behind.length → Unread c behind s') := by
  obtain ⟨k, hmoved, hk⟩ := poll_moves E native h f behind hs
  have hlt := f.body_lt
  refine ⟨(hmoved.readIdx_iff hs (by omega)).trans hk, fun haligned => ?_⟩
  have hunread := hmoved.unread
  rwa [hk.mpr haligned, ← f.bytes_length, List.drop_left] at hunread

end Poll

/-! ## Two frames -/

/-- A queue that holds these bytes and nothing else. -/
def loaded (C : Capacity) (bytes : List UInt8) : Reader UInt8 C 0 :=
  ⟨0, ⟨false, fun slot => bytes.getD slot 0, .ofNat bytes.length, fun _ => 0⟩⟩

theorem loaded_unread (C : Capacity) {bytes : List UInt8} (h : bytes.length ≤ C.size) :
    Unread 0 bytes (loaded C bytes) where
  fits := h
  write := UInt64.sub_zero _
  slots i hi := by
    have hslot : (C.slot (0 + .ofNat i)).val = i := by
      rw [UInt64.zero_add, Capacity.slot_ofNat]
      exact Nat.mod_eq_of_lt (hi.trans_le h)
    change _ = some (bytes.getD (C.slot (0 + .ofNat i)) 0)
    rw [hslot, List.getElem?_eq_getElem hi, List.getD_eq_getElem _ _ hi]
  cached := by simp [loaded]

def blankStock : Stock := Vector.replicate 8 ' '.toUInt8

/-- An order of 100 shares to buy for another stock. -/
def addFrame : Frame :=
  ⟨['A'.toUInt8, 0, 7, 0, 0, 0, 0, 0, 0, 0, 0] ++ [0, 0, 0, 0, 0, 0, 0, 1, 'B'.toUInt8] ++
    [0, 0, 0, 100] ++ List.replicate 8 'Z'.toUInt8 ++ [0, 0, 0, 50], by decide⟩

/-- A message of a type the handler does not know, shorter than a header. -/
def shortFrame : Frame := ⟨['S'.toUInt8, 0, 7], by decide⟩

theorem addFrame_aligned :
    let s := loaded ⟨6, by decide⟩ (addFrame.bytes ++ shortFrame.bytes)
    let s' := ((poll (handlerEffects blankStock) .little (Handler.fresh 0, false)).solo
      (callAlone 0) s).2
    s'.queue.readIdx 0 = 38 ∧ Unread 0 shortFrame.bytes s' := by
  intro s s'
  have hs : Unread 0 (addFrame.bytes ++ shortFrame.bytes) s := loaded_unread _ (by decide)
  have hsized : RightSize addFrame := by
    refine ⟨by decide, fun kind hkind => ?_⟩
    obtain rfl : MessageKind.addOrder = kind := Option.some.inj hkind
    rfl
  have haligned := hsized.staysAligned (handlerEffects blankStock) (Handler.fresh 0, false)
    shortFrame.bytes.length
  obtain ⟨hmoved, hunread⟩ := poll_aligned_iff (handlerEffects blankStock) .little
    (Handler.fresh 0, false) addFrame shortFrame.bytes hs
  have hlength : s.queue.readIdx 0 + .ofNat (2 + addFrame.body.length) = 38 := by decide
  simpa only [hlength] using And.intro (hmoved.mpr haligned) (hunread haligned)

/-- The header of a short frame runs into the next frame: 13 bytes for a frame of 5. -/
theorem shortFrame_misaligned :
    let s := loaded ⟨6, by decide⟩ (shortFrame.bytes ++ addFrame.bytes)
    let done := (poll (handlerEffects blankStock) .little (Handler.fresh 0, false)).solo
      (callAlone 0) s
    Unread 0 (shortFrame.bytes ++ addFrame.bytes) s ∧ done.1.isOk = true ∧
    done.2.queue.readIdx 0 = 13 ∧
    done.2.queue.readIdx 0 ≠ s.queue.readIdx 0 + .ofNat (2 + shortFrame.body.length) := by
  intro s done
  have hran : done.1.isOk = true ∧ done.2.queue.readIdx 0 = 13 := by decide +kernel
  obtain ⟨hok, hread⟩ := hran
  refine ⟨loaded_unread _ (by decide), hok, hread, ?_⟩
  rw [hread]
  decide

end ItchOrderBook.MarketData

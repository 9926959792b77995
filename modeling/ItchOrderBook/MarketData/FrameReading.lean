import ItchOrderBook.MarketData.Poll

/-! # Reading one frame

What a poll does when every read of it succeeds: on a frame of the right size it
consumes exactly the frame's bytes and does to the handler what the frame's message does.
-/
namespace ItchOrderBook.MarketData
open AtomicProgram ByteOrder Feed Spmc Stse

/-- At least a header, and behind it exactly the message where its type has one. -/
structure RightSize (f : Frame) : Prop where
  header : sizeOnWire headerViewType ≤ f.body.length
  message : ∀ kind, MessageKind.ofType? (wireHeader f.body).messageType = some kind →
    f.body.length = sizeOnWire headerViewType + sizeOnWire kind.layout

/-- What a frame means to a handler. -/
def Effects.onFrame {H : Type} (E : Effects H) (h : H) (f : Frame) : Except Fault H :=
  let header := wireHeader f.body
  if header.messageType ≠ MessageKind.addOrder.messageType ∧
      header.stockLocate ≠ E.cacheStockLocate h then .ok h
  else
    match MessageKind.ofType? header.messageType with
    | none => .ok h
    | some kind => E.simulate h header.stockLocate
        (kind.wire (f.body.drop (sizeOnWire headerViewType)))

/-- A call has succeeded on the first of these bytes. -/
structure Delivers (call : ConsumerCall) (bytes : List UInt8) (r : ConsumerResult UInt8) : Prop where
  succeeded : r.failure = .none
  enough : call.count.toNat ≤ bytes.length
  items : call ≠ .trySkipMany call.count → r.items = bytes.take call.count.toNat

/-- With every call succeeding the program consumes exactly `bytes` and returns `a`. -/
def Reads {α : Type} (a : α) : List UInt8 → Client α → Prop
  | bytes, .ret value => bytes = [] ∧ value = a
  | bytes, .act call next => call.count.toNat ≤ bytes.length ∧
      ∀ r, Delivers call bytes r → Reads a (bytes.drop call.count.toNat) (next r)

theorem Delivers.of_append {call : ConsumerCall} {bytes rest : List UInt8}
    {r : ConsumerResult UInt8} (h : Delivers call (bytes ++ rest) r)
    (hlen : call.count.toNat ≤ bytes.length) : Delivers call bytes r where
  succeeded := h.succeeded
  enough := hlen
  items hcall := by
    have hitems := h.items hcall
    rwa [List.take_append_of_le_length hlen] at hitems

theorem Reads.bind {α β : Type} {a : α} {b : β} {p : Client α} {g : α → Client β}
    {bytes rest : List UInt8} (h : Reads a bytes p) (hg : Reads b rest (g a)) :
    Reads b (bytes ++ rest) (p >>= g) := by
  induction p generalizing bytes with
  | ret value =>
    obtain ⟨rfl, rfl⟩ := h
    exact hg
  | act call next ih =>
    obtain ⟨hlen, hnext⟩ := h
    refine ⟨by rw [List.length_append]; omega, ?_⟩
    intro r hr
    rw [List.drop_append_of_le_length hlen]
    exact ih _ (hnext r (hr.of_append hlen))

/-- Sequencing with a rest that consumes nothing. -/
theorem Reads.bind_nil {α β : Type} {a : α} {b : β} {p : Client α} {g : α → Client β}
    {bytes : List UInt8} (h : Reads a bytes p) (hg : Reads b [] (g a)) :
    Reads b bytes (p >>= g) := by
  have hbind := h.bind hg
  rwa [List.append_nil] at hbind

theorem Reads.ret {α : Type} (a : α) : Reads a [] (.ret a : Client α) := ⟨rfl, rfl⟩

theorem trySkipMany_reads {α : Type} {a : α} {count : UInt64} {bytes : List UInt8}
    (h : bytes.length = count.toNat) : Reads a bytes (trySkipMany count >>= fun _ => .ret a) := by
  refine ⟨h.ge, fun r _ => ⟨List.drop_of_length_le h.le, rfl⟩⟩

section Layouts
variable {T : CppType} (native : Endian)

theorem sizeOnWire_toNat (hsize : sizeOnWire T < 2 ^ 64) :
    (UInt64.ofNat (sizeOnWire T)).toNat = sizeOnWire T := by
  rw [UInt64.toNat_ofNat']
  omega

theorem filled_eq {bytes : List UInt8} (h : bytes.length = sizeOnWire T)
    (hsize : sizeOnWire T < 2 ^ 64) {r : ConsumerResult UInt8}
    (hr : Delivers (.tryPopMany (.ofNat (sizeOnWire T))) bytes r) :
    filled (sizeOnWire T) r = bytes := by
  have hitems : r.items = bytes := by
    rw [hr.items (by simp)]
    exact List.take_of_length_le (h.trans (sizeOnWire_toNat hsize).symm).le
  rw [filled, hitems, h, Nat.sub_self, List.replicate_zero, List.append_nil]

theorem readFromQueueUnsafe_reads (hsize : sizeOnWire T < 2 ^ 64) {bytes : List UInt8}
    (h : bytes.length = sizeOnWire T) :
    Reads (deserialized native T bytes) bytes (readFromQueueUnsafe native T) := by
  have hcount := (sizeOnWire_toNat hsize).trans h.symm
  refine ⟨hcount.le, fun r hr => ⟨List.drop_of_length_le hcount.ge, ?_⟩⟩
  rw [filled_eq h hsize hr]

theorem tryReadFromQueue_reads (hsize : sizeOnWire T < 2 ^ 64) {bytes : List UInt8}
    (h : bytes.length = sizeOnWire T) :
    Reads (.ok (deserialized native T bytes)) bytes (tryReadFromQueue native T) := by
  have hcount := (sizeOnWire_toNat hsize).trans h.symm
  refine ⟨hcount.le, fun r hr => ?_⟩
  have hdrop : bytes.drop (UInt64.ofNat (sizeOnWire T)).toNat = [] := List.drop_of_length_le hcount.ge
  change Reads _ (bytes.drop (UInt64.ofNat (sizeOnWire T)).toNat)
    (if r.failure ≠ .none then _ else _)
  rw [hdrop, if_neg (not_not.mpr hr.succeeded), filled_eq h hsize hr]
  exact Reads.ret _

end Layouts

section Frames
variable {H : Type} (E : Effects H) (native : Endian)

theorem sizeOnWire_lt (kind : MessageKind) : sizeOnWire kind.layout < 2 ^ 64 := by
  cases kind <;> decide

theorem wireHeader_take (body : List UInt8) :
    wireHeader (body.take (sizeOnWire headerViewType)) = wireHeader body := by
  have hsize : sizeOnWire headerViewType = 11 := rfl
  have htype : (body.take 11).getD 0 0 = body.getD 0 0 := by
    simp [List.getD_eq_getElem?_getD]
  have hlocate : wireNumber (body.take 11) 1 2 = wireNumber body 1 2 := by
    simp only [wireNumber, List.drop_take, List.take_take]
    rfl
  rw [hsize, wireHeader, wireHeader, htype, hlocate]

theorem packetBodySize_toNat {L : ℕ} (hlt : L < 2 ^ 16) (hheader : sizeOnWire headerViewType ≤ L) :
    ((UInt16.ofNat L).toUInt64 - .ofNat (sizeOnWire headerViewType)).toNat =
      L - sizeOnWire headerViewType := by
  have hL : (UInt16.ofNat L).toUInt64.toNat = L := by
    rw [UInt16.toNat_toUInt64, UInt16.toNat_ofNat']
    omega
  have hsize : (UInt64.ofNat (sizeOnWire headerViewType)).toNat = sizeOnWire headerViewType := rfl
  rw [UInt64.toNat_sub_of_le _ _ (by rw [UInt64.le_iff_toNat_le]; omega), hL, hsize]

theorem simulateMessage_reads (h : H) (header : HeaderView) {kind : MessageKind}
    (hkind : MessageKind.ofType? header.messageType = some kind) {bytes : List UInt8}
    (hlen : bytes.length = sizeOnWire kind.layout) :
    Reads ((E.simulate h header.stockLocate (kind.wire bytes)).map fun h' =>
      (MessageStatus.simulated, h')) bytes (simulateMessage E native h header) := by
  simp only [simulateMessage, hkind]
  refine (readFromQueueUnsafe_reads native (sizeOnWire_lt kind) hlen).bind_nil ?_
  rw [kind.read_deserialized native hlen]
  exact Reads.ret _

theorem pollPacket_reads (h : H) {f : Frame} (hf : RightSize f) :
    Reads ((E.onFrame h f).map fun h' => (true, h')) f.body
      (pollPacket E native h (.ofNat f.body.length)) := by
  have hheader : (f.body.take (sizeOnWire headerViewType)).length = sizeOnWire headerViewType :=
    List.length_take_of_le hf.header
  have hrest : (f.body.drop (sizeOnWire headerViewType)).length =
      f.body.length - sizeOnWire headerViewType := List.length_drop
  have hview : readHeaderView native (deserialized native headerViewType
      (f.body.take (sizeOnWire headerViewType))) = wireHeader f.body := by
    rw [readHeaderView_deserialized native hheader, wireHeader_take]
  have hskip := hrest.trans (packetBodySize_toNat f.body_lt hf.header).symm
  conv => arg 2; rw [← List.take_append_drop (sizeOnWire headerViewType) f.body]
  refine (readFromQueueUnsafe_reads native (by decide) hheader).bind ?_
  simp only [hview, Effects.onFrame]
  by_cases hfiltered : (wireHeader f.body).messageType ≠ MessageKind.addOrder.messageType ∧
      (wireHeader f.body).stockLocate ≠ E.cacheStockLocate h
  · rw [if_pos hfiltered, if_pos hfiltered]
    exact trySkipMany_reads hskip
  rw [if_neg hfiltered, if_neg hfiltered]
  cases hkind : MessageKind.ofType? (wireHeader f.body).messageType with
  | none =>
    simp only [simulateMessage, hkind]
    exact trySkipMany_reads hskip
  | some kind =>
    have hsize := hf.message kind hkind
    refine (simulateMessage_reads E native h _ hkind (by omega)).bind_nil ?_
    dsimp only
    cases E.simulate h (wireHeader f.body).stockLocate
        (kind.wire (f.body.drop (sizeOnWire headerViewType))) with
    | error fault => exact Reads.ret _
    | ok h' => exact Reads.ret _

/-- A poll consumes a frame of the right size and does what its message does. -/
theorem poll_reads (h : H) {f : Frame} (hf : RightSize f) :
    Reads ((E.onFrame h f).map fun h' => (true, h')) f.bytes (poll E native h) := by
  have hlen : (store .big 2 f.body.length).length = sizeOnWire packetSizeType := by
    rw [store_length]
    rfl
  have hsize : readPacketSize native
      (deserialized native packetSizeType (store .big 2 f.body.length)) = .ofNat f.body.length := by
    rw [readPacketSize_deserialized native hlen, wireNumber, List.drop_zero,
      List.take_of_length_le (by simp), f.load_length]
  refine (tryReadFromQueue_reads native (by decide) hlen).bind ?_
  dsimp only
  rw [hsize]
  exact pollPacket_reads E native h hf

/-- A poll begins with the length prefix and does nothing if that is not there. -/
theorem poll_eq (h : H) : ∃ next, poll E native h = .act (.tryPopMany 2) next ∧
    ∀ r, r.failure ≠ .none → next r = .ret (.ok (decide (r.failure ≠ .bufferClosed), h)) := by
  refine ⟨_, rfl, fun r hr => ?_⟩
  change ((if r.failure ≠ .none then .ret (Except.error r.failure) else _ : Client _).bind _) = _
  rw [if_pos hr]
  rfl

end Frames

end ItchOrderBook.MarketData

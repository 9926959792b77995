import ItchOrderBook.MarketData.Market
import ItchOrderBook.Feed.Framing
import ItchOrderBook.Stse.NativeRoundTrip

/-! # Feeds written with the serializer

A packet is a header and a message object as `serialize_advance` takes them. What it writes,
the file's parser and the handler read back: the frames have the right size, and their
messages are those of the objects. Every message is one of some object.
-/
namespace ItchOrderBook.MarketData
open ByteOrder Feed Stse Transfer

/-! ## Objects -/

/-- The object with these bytes assigned at `offset`. -/
def assign (object : Memory) (offset : ℕ) (bytes : List UInt8) : Memory := fun i =>
  if offset ≤ i then (bytes[i - offset]?).getD (object i) else object i

section Assign
variable {object : Memory} {offset : ℕ} {bytes : List UInt8}

theorem assign_self {i : ℕ} (hi : i < bytes.length) :
    assign object offset bytes (offset + i) = bytes[i] := by
  simp [assign, hi]

theorem assign_other {i : ℕ} (hi : i < offset ∨ offset + bytes.length ≤ i) :
    assign object offset bytes i = object i := by
  unfold assign
  split
  · rw [List.getElem?_eq_none (by omega), Option.getD_none]
  · rfl

theorem bitCast_assign_self {size : ℕ} (hsize : bytes.length = size) :
    bitCast (assign object offset bytes) offset size = bytes := by
  subst hsize
  refine List.ext_getElem (by simp) fun i hi hi' => ?_
  simp [bitCast, assign_self hi']

theorem bitCast_assign_other {o size : ℕ} (h : o + size ≤ offset ∨ offset + bytes.length ≤ o) :
    bitCast (assign object offset bytes) o size = bitCast object o size :=
  bitCast_congr fun i hi => assign_other (by omega)

variable (native : Endian)

theorem readBigEndian_self {size v : ℕ} (hv : v < 256 ^ size) :
    readBigEndian native (assign object offset (store .big size v)) offset size = v := by
  rw [readBigEndian, bigEndianValue_eq, bitCast_assign_self (store_length ..), load_store _ hv]

theorem read64_self (value : UInt64) :
    readBigEndian native (assign object offset (store .big 8 value.toNat)) offset 8 = value.toNat :=
  readBigEndian_self native value.toNat_lt

theorem read32_self (value : UInt32) :
    readBigEndian native (assign object offset (store .big 4 value.toNat)) offset 4 = value.toNat :=
  readBigEndian_self native value.toNat_lt

theorem readBigEndian_other {o size : ℕ} (h : o + size ≤ offset ∨ offset + bytes.length ≤ o) :
    readBigEndian native (assign object offset bytes) o size = readBigEndian native object o size := by
  rw [readBigEndian, readBigEndian, bitCast_assign_other h]

theorem readStock_self (stock : Stock) :
    readStock (assign object offset stock.toList) offset = stock := by
  ext i hi
  have hlength : i < stock.toList.length := by simpa using hi
  simp [readStock, assign_self hlength]

theorem readStock_other {o : ℕ} (h : o + 8 ≤ offset ∨ offset + bytes.length ≤ o) :
    readStock (assign object offset bytes) o = readStock object o := by
  unfold readStock
  congr 1
  funext i
  exact assign_other (by omega)

end Assign

/-- The members of an object that is not read are zero. -/
def blank : Memory := fun _ => 0

def headerObject (messageType : UInt8) (stockLocate : UInt16) : Memory :=
  assign (assign blank 0 [messageType]) 2 (store .big 2 stockLocate.toNat)

def AddOrderMessage.object (m : AddOrderMessage) : Memory :=
  let reference := assign blank 0 (store .big 8 m.orderReferenceNumber.toNat)
  let side := assign reference 8 [m.buySellIndicator]
  let shares := assign side 12 (store .big 4 m.shares.toNat)
  let stock := assign shares 16 m.stock.toList
  assign stock 24 (store .big 4 m.price.toNat)

/-- The two numbers most messages start with. -/
def numberedObject (reference : UInt64) (shares : UInt32) : Memory :=
  assign (assign blank 0 (store .big 8 reference.toNat)) 8 (store .big 4 shares.toNat)

def OrderReplaceMessage.object (m : OrderReplaceMessage) : Memory :=
  let original := assign blank 0 (store .big 8 m.originalOrderReferenceNumber.toNat)
  let renewed := assign original 8 (store .big 8 m.newOrderReferenceNumber.toNat)
  let shares := assign renewed 16 (store .big 4 m.shares.toNat)
  assign shares 20 (store .big 4 m.price.toNat)

def Message.kind : Message → MessageKind
  | .addOrder _ => .addOrder
  | .addOrderMPID _ => .addOrderMPID
  | .orderExecuted _ => .orderExecuted
  | .orderExecutedWithPrice _ => .orderExecutedWithPrice
  | .orderCancel _ => .orderCancel
  | .orderDelete _ => .orderDelete
  | .orderReplace _ => .orderReplace

def Message.object : Message → Memory
  | .addOrder m | .addOrderMPID m => m.object
  | .orderExecuted m | .orderExecutedWithPrice m =>
    numberedObject m.orderReferenceNumber m.executedShares
  | .orderCancel m => numberedObject m.orderReferenceNumber m.cancelledShares
  | .orderDelete m => assign blank 0 (store .big 8 m.orderReferenceNumber.toNat)
  | .orderReplace m => m.object

section Objects
variable (native : Endian)

theorem readHeaderView_object (messageType : UInt8) (stockLocate : UInt16) :
    readHeaderView native (headerObject messageType stockLocate) = ⟨messageType, stockLocate⟩ := by
  have htype : headerObject messageType stockLocate 0 = messageType := by
    rw [headerObject, assign_other (by omega)]
    rfl
  rw [readHeaderView, htype, headerObject, readBigEndian_self native stockLocate.toNat_lt]
  simp

theorem readAddOrder_object (m : AddOrderMessage) : readAddOrder native m.object = m := by
  have hside : m.object 8 = m.buySellIndicator := by
    simp only [AddOrderMessage.object]
    rw [assign_other (by omega), assign_other (by omega), assign_other (by omega)]
    rfl
  rw [readAddOrder, hside, AddOrderMessage.object]
  simp (disch := simp) only [read64_self, read32_self, readStock_self, readBigEndian_other,
    readStock_other, UInt64.ofNat_toNat, UInt32.ofNat_toNat]

theorem readNumbered_object (reference : UInt64) (shares : UInt32) :
    readBigEndian native (numberedObject reference shares) 0 8 = reference.toNat ∧
      readBigEndian native (numberedObject reference shares) 8 4 = shares.toNat := by
  simp (disch := simp) only [numberedObject, read64_self, read32_self, readBigEndian_other, and_self]

/-- A message is what is read off its object. -/
theorem Message.read_object (m : Message) : m.kind.read native m.object = m := by
  cases m with
  | addOrder m => exact congrArg Message.addOrder (readAddOrder_object native m)
  | addOrderMPID m => exact congrArg Message.addOrderMPID (readAddOrder_object native m)
  | orderExecuted m =>
    obtain ⟨href, hshares⟩ := readNumbered_object native m.orderReferenceNumber m.executedShares
    simp [Message.kind, Message.object, MessageKind.read, readOrderExecuted, href, hshares]
  | orderExecutedWithPrice m =>
    obtain ⟨href, hshares⟩ := readNumbered_object native m.orderReferenceNumber m.executedShares
    simp [Message.kind, Message.object, MessageKind.read, readOrderExecuted, href, hshares]
  | orderCancel m =>
    obtain ⟨href, hshares⟩ := readNumbered_object native m.orderReferenceNumber m.cancelledShares
    simp [Message.kind, Message.object, MessageKind.read, readOrderCancel, href, hshares]
  | orderDelete m =>
    simp [Message.kind, Message.object, MessageKind.read, readOrderDelete, read64_self]
  | orderReplace m =>
    simp only [Message.kind, Message.object, MessageKind.read, readOrderReplace,
      OrderReplaceMessage.object]
    simp (disch := simp) only [read64_self, read32_self, readBigEndian_other, UInt64.ofNat_toNat,
      UInt32.ofNat_toNat]

end Objects

/-! ## What a reader sees of an object -/

/-- The members read are among the bytes that are serialized. -/
def Assigned (T : CppType) (offset size : ℕ) : Prop :=
  ∀ i < size, offset + i ∈ T.reflect.serializedBytes

instance (T : CppType) (offset size : ℕ) : Decidable (Assigned T offset size) :=
  inferInstanceAs (Decidable (∀ i < size, _))

section Congruence
variable {T : CppType} {object object' : Memory} (native : Endian)
  (hsame : ∀ i ∈ T.reflect.serializedBytes, object i = object' i)
include hsame

theorem readBigEndian_same {offset size : ℕ} (h : Assigned T offset size) :
    readBigEndian native object offset size = readBigEndian native object' offset size := by
  rw [readBigEndian, readBigEndian, bitCast_congr fun i hi => hsame _ (h i hi)]

theorem readStock_same {offset : ℕ} (h : Assigned T offset 8) :
    readStock object offset = readStock object' offset := by
  unfold readStock
  congr 1
  funext i
  exact hsame _ (h i i.isLt)

theorem readAddOrder_same (href : Assigned T 0 8) (hside : Assigned T 8 1)
    (hshares : Assigned T 12 4) (hstock : Assigned T 16 8) (hprice : Assigned T 24 4) :
    readAddOrder native object = readAddOrder native object' := by
  rw [readAddOrder, readAddOrder, readBigEndian_same native hsame href,
    hsame 8 (hside 0 Nat.one_pos), readBigEndian_same native hsame hshares,
    readStock_same hsame hstock, readBigEndian_same native hsame hprice]

theorem readOrderExecuted_same (href : Assigned T 0 8) (hshares : Assigned T 8 4) :
    readOrderExecuted native object = readOrderExecuted native object' := by
  rw [readOrderExecuted, readOrderExecuted, readBigEndian_same native hsame href,
    readBigEndian_same native hsame hshares]

end Congruence

theorem readHeaderView_same (native : Endian) {object object' : Memory}
    (hsame : ∀ i ∈ headerViewType.reflect.serializedBytes, object i = object' i) :
    readHeaderView native object = readHeaderView native object' := by
  have htype : object 0 = object' 0 := hsame 0 (by decide)
  have hlocate : Assigned headerViewType 2 2 := by decide
  rw [readHeaderView, readHeaderView, htype, readBigEndian_same native hsame hlocate]

/-- Two objects with the same serialized bytes are read alike. -/
theorem MessageKind.read_same (native : Endian) (kind : MessageKind) {object object' : Memory}
    (hsame : ∀ i ∈ kind.layout.reflect.serializedBytes, object i = object' i) :
    kind.read native object = kind.read native object' := by
  cases kind with
  | addOrder =>
    exact congrArg Message.addOrder (readAddOrder_same native hsame (by decide) (by decide)
      (by decide) (by decide) (by decide))
  | addOrderMPID =>
    exact congrArg Message.addOrderMPID (readAddOrder_same native hsame (by decide) (by decide)
      (by decide) (by decide) (by decide))
  | orderExecuted =>
    exact congrArg Message.orderExecuted
      (readOrderExecuted_same native hsame (by decide) (by decide))
  | orderExecutedWithPrice =>
    exact congrArg Message.orderExecutedWithPrice
      (readOrderExecuted_same native hsame (by decide) (by decide))
  | orderCancel =>
    have href : Assigned orderCancelType 0 8 := by decide
    have hshares : Assigned orderCancelType 8 4 := by decide
    simp only [read, readOrderCancel, readBigEndian_same native hsame href,
      readBigEndian_same native hsame hshares]
  | orderDelete =>
    have href : Assigned orderDeleteType 0 8 := by decide
    simp only [read, readOrderDelete, readBigEndian_same native hsame href]
  | orderReplace =>
    have horiginal : Assigned orderReplaceType 0 8 := by decide
    have hnew : Assigned orderReplaceType 8 8 := by decide
    have hshares : Assigned orderReplaceType 16 4 := by decide
    have hprice : Assigned orderReplaceType 20 4 := by decide
    simp only [read, readOrderReplace, readBigEndian_same native hsame horiginal,
      readBigEndian_same native hsame hnew, readBigEndian_same native hsame hshares,
      readBigEndian_same native hsame hprice]

/-- What is restored from a wire is deserialized from its bytes. -/
theorem deserialized_same (native : Endian) {T : ObjectType} (hplace : T.info.InPlace)
    {value prior wire : Memory} {data : Span} {bytes : List UInt8}
    (hbytes : ∀ q ∈ T.info.flatPairs, bytes.getD q.2 0 = wire (data.data + q.2))
    (h : Argument.Restored ⟨T, value, prior⟩
      (deserialize native native T.info prior data wire 0).1) :
    ∀ i ∈ T.info.serializedBytes, deserialized native T.type bytes i = value i := by
  intro i hi
  obtain ⟨q, hq, rfl⟩ := List.mem_map.mp (hplace.mem_iff.mpr hi)
  have hfst := ObjectType.fst_nodup hplace
  have hvalue : bytes.getD q.2 0 = value q.1 := by
    rw [hbytes q hq, ← deserialize_native_at native T.info hfst prior data wire hq]
    exact h.serialized q.1 hi
  rw [deserialized_eq, ← hvalue]
  exact transfer_of_mem hfst hq _ _

/-! ## Packets -/

def headerObjectType : ObjectType := ⟨headerViewType, by decide⟩

def MessageKind.objectType (kind : MessageKind) : ObjectType :=
  ⟨kind.layout, by cases kind <;> decide⟩

/-- A header and a message of the kind its type names, each as an object. -/
structure Packet where
  kind : MessageKind
  header : Memory
  object : Memory
  named : header 0 = kind.messageType

namespace Packet

/-- The locate code and the message the objects stand for. -/
def located (native : Endian) (p : Packet) : Located :=
  ((readHeaderView native p.header).stockLocate, p.kind.read native p.object)

/-- The objects, to be read over blank ones. -/
def objects (p : Packet) : List Argument :=
  [⟨headerObjectType, p.header, blank⟩, ⟨p.kind.objectType, p.object, blank⟩]

def size (p : Packet) : ℕ := serialSize (typesOf p.objects)

/-- What `serialize_advance` makes of the first bytes of a buffer. -/
def body (native : Endian) (p : Packet) (buffer : Memory) : List UInt8 :=
  bitCast (serializeAdvance native native buffer ⟨0, p.size⟩ (values p.objects)).1 0 p.size

variable (native : Endian) (p : Packet)

theorem size_eq : p.size = sizeOnWire headerViewType + sizeOnWire p.kind.layout := rfl

theorem size_le : p.size ≤ 40 := by
  rw [size_eq]
  cases p.kind <;> decide

theorem body_length (buffer : Memory) : (p.body native buffer).length = p.size := bitCast_length ..

/-- The packet behind its length prefix. -/
def frame (buffer : Memory) : Frame where
  body := p.body native buffer
  body_lt := by
    rw [p.body_length]
    exact p.size_le.trans_lt (by decide)

/-- A header and a message behind it share no wire byte. -/
theorem roundTrips : RoundTrips native (p.objects.map Argument.type) := by
  refine (roundTrips_iff native _).mpr ?_
  change (∀ T ∈ [headerObjectType, p.kind.objectType], T.info.InPlace) ∧
    (wireBytes [headerViewType.reflect, p.kind.layout.reflect]).Nodup
  simp only [List.forall_mem_cons, List.not_mem_nil, false_imp_iff, implies_true, and_true]
  refine ⟨⟨List.Perm.of_eq (by decide), ?_⟩, ?_⟩
  · cases p.kind <;> exact List.Perm.of_eq (by decide)
  · cases p.kind <;> decide

theorem wireBytes_lt : ∀ w ∈ wireBytes (typesOf p.objects), w < p.size := by
  change ∀ w ∈ wireBytes [headerViewType.reflect, p.kind.layout.reflect],
    w < serialSize [headerViewType.reflect, p.kind.layout.reflect]
  cases p.kind <;> decide

/-- Reading the body gives back the two objects, as far as they are serialized. -/
theorem restored (buffer : Memory) :
    let wire := arrayMemory (p.body native buffer)
    Argument.Restored ⟨headerObjectType, p.header, blank⟩
        (deserialize native native headerViewType.reflect blank ⟨0, p.size⟩ wire 0).1 ∧
      Argument.Restored ⟨p.kind.objectType, p.object, blank⟩
        (deserialize native native p.kind.layout.reflect blank
          (Span.subspan ⟨0, p.size⟩ (sizeOnWire headerViewType)) wire 0).1 := by
  intro wire
  obtain ⟨hplace, hwires⟩ := (roundTrips_iff native _).mp (p.roundTrips native)
  rw [← typesOf_eq] at hwires
  have hback := restored_of_nodup native p.objects (by simpa using hplace) hwires buffer wire
    ⟨0, p.size⟩ fun w hw => by
      simp only [wire]
      rw [Nat.zero_add, body, arrayMemory_bitCast (p.wireBytes_lt w hw), Nat.zero_add]
  have hpriors : priors p.objects =
      [(headerViewType.reflect, blank), (p.kind.layout.reflect, blank)] := rfl
  rw [hpriors, deserializeAdvance_native_cons, deserializeAdvance_native_cons] at hback
  obtain ⟨hheader, hrest⟩ := List.forall₂_cons.mp hback
  exact ⟨hheader, (List.forall₂_cons.mp hrest).1⟩

/-- The header read off the first bytes of the body. -/
theorem wireHeader_body (buffer : Memory) :
    wireHeader (p.body native buffer) = readHeaderView native p.header := by
  have hsize : sizeOnWire headerViewType ≤ (p.body native buffer).length := by
    rw [p.body_length, p.size_eq]
    exact Nat.le_add_right _ _
  rw [← wireHeader_take, ← readHeaderView_deserialized native (List.length_take_of_le hsize)]
  refine readHeaderView_same native (deserialized_same native (T := headerObjectType)
    (List.Perm.of_eq (by decide)) (fun q hq => ?_) (p.restored native buffer).1)
  have hlt : ∀ q ∈ headerViewType.reflect.flatPairs, q.2 < 11 := by decide
  have htake : sizeOnWire headerViewType = 11 := rfl
  simp [arrayMemory, List.getD_eq_getElem?_getD, htake, hlt q hq]

theorem wire_body (buffer : Memory) :
    p.kind.wire ((p.body native buffer).drop (sizeOnWire headerViewType)) =
      p.kind.read native p.object := by
  have hsize : ((p.body native buffer).drop (sizeOnWire headerViewType)).length =
      sizeOnWire p.kind.layout := by
    rw [List.length_drop, p.body_length, p.size_eq, Nat.add_sub_cancel_left]
  rw [← p.kind.read_deserialized native hsize]
  refine p.kind.read_same native (deserialized_same native (T := p.kind.objectType)
    ?_ (fun q hq => ?_) (p.restored native buffer).2)
  · cases p.kind <;> exact List.Perm.of_eq (by decide)
  · simp [arrayMemory, List.getD_eq_getElem?_getD]

theorem ofType?_header :
    MessageKind.ofType? (readHeaderView native p.header).messageType = some p.kind := by
  have htype : (readHeaderView native p.header).messageType = p.kind.messageType := p.named
  rw [htype]
  cases p.kind <;> rfl

theorem frame_rightSize (buffer : Memory) : RightSize (p.frame native buffer) where
  header := by
    change _ ≤ (p.body native buffer).length
    rw [p.body_length, p.size_eq]
    exact Nat.le_add_right _ _
  message kind hkind := by
    change MessageKind.ofType? (wireHeader (p.body native buffer)).messageType = some kind at hkind
    change (p.body native buffer).length = _
    rw [p.wireHeader_body, p.ofType?_header] at hkind
    rw [p.body_length, p.size_eq, Option.some.inj hkind]

theorem frameMessage_frame (buffer : Memory) :
    frameMessage (p.frame native buffer) = some (p.located native) := by
  simp only [frameMessage, frame, p.wireHeader_body, p.ofType?_header, Option.map_some,
    p.wire_body, located]

/-- The packet of a message. -/
def ofMessage (m : Located) : Packet where
  kind := m.2.kind
  header := headerObject m.2.kind.messageType m.1
  object := m.2.object
  named := congrArg HeaderView.messageType (readHeaderView_object .little m.2.kind.messageType m.1)

theorem located_ofMessage (m : Located) : (ofMessage m).located native = m := by
  simp only [located, ofMessage, readHeaderView_object, Message.read_object]

end Packet

/-- A file of packets written with `serialize_advance` (each over whatever its buffer holds) is
read back: its frames have the right size and at most 42 bytes, the parser yields them and
ends there, their messages are those of the objects, and a handler that polls them does what
these messages say. Every sequence of messages is that of some packets. -/
theorem written_feed_reads_back (native : Endian) :
    (∀ packets : List (Packet × Memory), let frames := packets.map fun p => p.1.frame native p.2
      let messages := packets.map fun p => p.1.located native
      (∀ f ∈ frames, RightSize f ∧ f.bytes.length ≤ 42) ∧
      readAll native (wire frames) = (frames.map Frame.bytes, .streamClosed, []) ∧
      feedMessages frames = messages ∧
      ∀ (H : Type) (E : Effects H) (h : H),
        frames.foldlM E.onFrame h = messages.foldlM E.onMessage h) ∧
    ∀ messages : List Located, ∃ packets : List Packet,
      packets.map (Packet.located native) = messages := by
  constructor
  · intro packets frames messages
    have hmessages : feedMessages frames = messages := by
      simp only [feedMessages, frames, List.filterMap_map]
      exact (List.filterMap_congr fun p _ => p.1.frameMessage_frame native p.2).trans
        (List.filterMap_eq_map (f := fun p : Packet × Memory => p.1.located native) ▸ rfl)
    have hclosed : readAll native [] = ([], .streamClosed, []) :=
      readAll_of_failed (by simp [next])
    have hread : readAll native (wire frames ++ []) = _ := readAll_wire frames
    refine ⟨fun f hf => ?_, by simpa [hclosed] using hread, hmessages, fun H E h => ?_⟩
    · obtain ⟨p, -, rfl⟩ := List.mem_map.mp hf
      refine ⟨p.1.frame_rightSize native p.2, ?_⟩
      have hlength : (p.1.frame native p.2).body.length = p.1.size := p.1.body_length native p.2
      have hle := p.1.size_le
      rw [Frame.bytes_length]
      omega
    · rw [← hmessages]
      exact foldlM_onFrame E h frames
  · intro messages
    exact ⟨messages.map Packet.ofMessage, by
      simp [Function.comp_def, Packet.located_ofMessage]⟩

end ItchOrderBook.MarketData

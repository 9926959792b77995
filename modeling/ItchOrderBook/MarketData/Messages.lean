import ItchOrderBook.Stse.FieldWalk
import Mathlib.Data.List.TakeDrop

/-! # The messages

The structs of `market_data/messages.h` with the layout the platform gives them, how
their members are read, and the same members at their places in the feed. A member
that is ignored is skipped on the wire and never read, so the message values leave it
out.
-/
namespace ItchOrderBook.MarketData
open Stse ByteOrder Transfer

/-! ## Member types -/

abbrev Stock := Vector UInt8 8

def charType : CppType := .scalar 1

/-- `BigEndian<T>` over an unsigned `T`: its one member is `raw_value`. -/
def bigEndian (size : ℕ) : CppType := .record size .nil (.cons false false 0 (.scalar size) .nil)

/-- The conversion of a `BigEndian<T>` to `T`. -/
def bigEndianValue (native : Endian) (rawValue : List UInt8) : ℕ :=
  match native with
  | .big => load .big rawValue
  | .little => byteswap rawValue.length (load .little rawValue)

theorem bigEndianValue_eq (native : Endian) (rawValue : List UInt8) :
    bigEndianValue native rawValue = load .big rawValue := by
  cases native with
  | big => rfl
  | little => exact byteswap_loadLittle rawValue

def shortString (n : ℕ) : CppType := .array n (.scalar 1)

/-- `Timestamp`, packed. -/
def timestamp : CppType := .record 6 .nil (.cons false false 0 (.array 6 (.scalar 1)) .nil)

/-! ## Layouts -/

def member (offset : ℕ) (type : CppType) (rest : Fields) : Fields :=
  .cons false false offset type rest

def ignored (offset : ℕ) (type : CppType) (rest : Fields) : Fields :=
  .cons false true offset type rest

def packetSizeType : CppType := bigEndian 2

def headerViewType : CppType := .record 12 .nil <|
  member 0 charType <| member 2 (bigEndian 2) <| ignored 4 (bigEndian 2) <| ignored 6 timestamp .nil

def addOrderType : CppType := .record 32 .nil <|
  member 0 (bigEndian 8) <| member 8 charType <| member 12 (bigEndian 4) <|
  member 16 (shortString 8) <| member 24 (bigEndian 4) .nil

def addOrderMPIDType : CppType := .record 32 .nil <|
  member 0 (bigEndian 8) <| member 8 charType <| member 12 (bigEndian 4) <|
  member 16 (shortString 8) <| member 24 (bigEndian 4) <| ignored 28 (shortString 4) .nil

def orderExecutedType : CppType := .record 24 .nil <|
  member 0 (bigEndian 8) <| member 8 (bigEndian 4) <| ignored 16 (bigEndian 8) .nil

def orderExecutedWithPriceType : CppType := .record 32 .nil <|
  member 0 (bigEndian 8) <| member 8 (bigEndian 4) <| ignored 16 (bigEndian 8) <|
  ignored 24 charType <| ignored 28 (bigEndian 4) .nil

def orderCancelType : CppType := .record 16 .nil <|
  member 0 (bigEndian 8) <| member 8 (bigEndian 4) .nil

def orderDeleteType : CppType := .record 8 .nil <| member 0 (bigEndian 8) .nil

def orderReplaceType : CppType := .record 24 .nil <|
  member 0 (bigEndian 8) <| member 8 (bigEndian 8) <| member 16 (bigEndian 4) <|
  member 20 (bigEndian 4) .nil

/-! ## Values -/

structure HeaderView where
  messageType : UInt8
  stockLocate : UInt16
  deriving DecidableEq

structure AddOrderMessage where
  orderReferenceNumber : UInt64
  buySellIndicator : UInt8
  shares : UInt32
  stock : Stock
  price : UInt32
  deriving DecidableEq

structure OrderExecutedMessage where
  orderReferenceNumber : UInt64
  executedShares : UInt32
  deriving DecidableEq

structure OrderCancelMessage where
  orderReferenceNumber : UInt64
  cancelledShares : UInt32
  deriving DecidableEq

structure OrderDeleteMessage where
  orderReferenceNumber : UInt64
  deriving DecidableEq

structure OrderReplaceMessage where
  originalOrderReferenceNumber : UInt64
  newOrderReferenceNumber : UInt64
  shares : UInt32
  price : UInt32
  deriving DecidableEq

/-- `AddOrderMPIDMessage` and `OrderExecutedWithPriceMessage` differ from the messages
they extend in ignored members only. -/
inductive Message
  | addOrder (message : AddOrderMessage)
  | addOrderMPID (message : AddOrderMessage)
  | orderExecuted (message : OrderExecutedMessage)
  | orderExecutedWithPrice (message : OrderExecutedMessage)
  | orderCancel (message : OrderCancelMessage)
  | orderDelete (message : OrderDeleteMessage)
  | orderReplace (message : OrderReplaceMessage)
  deriving DecidableEq

/-- The cases of `simulate_message`. -/
inductive MessageKind
  | addOrder
  | addOrderMPID
  | orderExecuted
  | orderExecutedWithPrice
  | orderCancel
  | orderDelete
  | orderReplace
  deriving DecidableEq

def MessageKind.messageType : MessageKind → UInt8
  | addOrder => 'A'.toUInt8
  | addOrderMPID => 'F'.toUInt8
  | orderExecuted => 'E'.toUInt8
  | orderExecutedWithPrice => 'C'.toUInt8
  | orderCancel => 'X'.toUInt8
  | orderDelete => 'D'.toUInt8
  | orderReplace => 'U'.toUInt8

/-- The `switch` on the message type; none is the `default` label. -/
def MessageKind.ofType? (messageType : UInt8) : Option MessageKind :=
  [addOrder, addOrderMPID, orderExecuted, orderExecutedWithPrice, orderCancel, orderDelete,
    orderReplace].find? fun kind => kind.messageType = messageType

def MessageKind.layout : MessageKind → CppType
  | addOrder => addOrderType
  | addOrderMPID => addOrderMPIDType
  | orderExecuted => orderExecutedType
  | orderExecutedWithPrice => orderExecutedWithPriceType
  | orderCancel => orderCancelType
  | orderDelete => orderDeleteType
  | orderReplace => orderReplaceType

/-- `serial_size_v<T>`. -/
def sizeOnWire (T : CppType) : ℕ := serialSize [T.reflect]

/-! ## Reading an object -/

/-- The object `deserialize_advance` assigns from a buffer; the members it does not
assign are never read. -/
def deserialized (native : Endian) (T : CppType) (buffer : List UInt8) : Memory :=
  (deserializeAdvance native native (arrayMemory buffer) ⟨0, buffer.length⟩
    [(T.reflect, fun _ => 0)]).1.headD fun _ => 0

def readBigEndian (native : Endian) (object : Memory) (offset size : ℕ) : ℕ :=
  bigEndianValue native (bitCast object offset size)

def readStock (object : Memory) (offset : ℕ) : Stock := Vector.ofFn fun i => object (offset + i)

def readPacketSize (native : Endian) (object : Memory) : UInt16 :=
  .ofNat (readBigEndian native object 0 2)

def readHeaderView (native : Endian) (object : Memory) : HeaderView where
  messageType := object 0
  stockLocate := .ofNat (readBigEndian native object 2 2)

def readAddOrder (native : Endian) (object : Memory) : AddOrderMessage where
  orderReferenceNumber := .ofNat (readBigEndian native object 0 8)
  buySellIndicator := object 8
  shares := .ofNat (readBigEndian native object 12 4)
  stock := readStock object 16
  price := .ofNat (readBigEndian native object 24 4)

def readOrderExecuted (native : Endian) (object : Memory) : OrderExecutedMessage where
  orderReferenceNumber := .ofNat (readBigEndian native object 0 8)
  executedShares := .ofNat (readBigEndian native object 8 4)

def readOrderCancel (native : Endian) (object : Memory) : OrderCancelMessage where
  orderReferenceNumber := .ofNat (readBigEndian native object 0 8)
  cancelledShares := .ofNat (readBigEndian native object 8 4)

def readOrderDelete (native : Endian) (object : Memory) : OrderDeleteMessage where
  orderReferenceNumber := .ofNat (readBigEndian native object 0 8)

def readOrderReplace (native : Endian) (object : Memory) : OrderReplaceMessage where
  originalOrderReferenceNumber := .ofNat (readBigEndian native object 0 8)
  newOrderReferenceNumber := .ofNat (readBigEndian native object 8 8)
  shares := .ofNat (readBigEndian native object 16 4)
  price := .ofNat (readBigEndian native object 20 4)

def MessageKind.read (native : Endian) (object : Memory) : MessageKind → Message
  | addOrder => .addOrder (readAddOrder native object)
  | addOrderMPID => .addOrderMPID (readAddOrder native object)
  | orderExecuted => .orderExecuted (readOrderExecuted native object)
  | orderExecutedWithPrice => .orderExecutedWithPrice (readOrderExecuted native object)
  | orderCancel => .orderCancel (readOrderCancel native object)
  | orderDelete => .orderDelete (readOrderDelete native object)
  | orderReplace => .orderReplace (readOrderReplace native object)

/-! ## The format of the feed -/

/-- The big-endian number of `size` bytes at `offset`. -/
def wireNumber (bytes : List UInt8) (offset size : ℕ) : ℕ :=
  load .big ((bytes.drop offset).take size)

def wireStock (bytes : List UInt8) (offset : ℕ) : Stock :=
  Vector.ofFn fun i => bytes.getD (offset + i) 0

def wireHeader (bytes : List UInt8) : HeaderView where
  messageType := bytes.getD 0 0
  stockLocate := .ofNat (wireNumber bytes 1 2)

def wireAddOrder (bytes : List UInt8) : AddOrderMessage where
  orderReferenceNumber := .ofNat (wireNumber bytes 0 8)
  buySellIndicator := bytes.getD 8 0
  shares := .ofNat (wireNumber bytes 9 4)
  stock := wireStock bytes 13
  price := .ofNat (wireNumber bytes 21 4)

/-- The message that follows a header of this kind. -/
def MessageKind.wire (bytes : List UInt8) : MessageKind → Message
  | addOrder => .addOrder (wireAddOrder bytes)
  | addOrderMPID => .addOrderMPID (wireAddOrder bytes)
  | orderExecuted => .orderExecuted ⟨.ofNat (wireNumber bytes 0 8), .ofNat (wireNumber bytes 8 4)⟩
  | orderExecutedWithPrice =>
    .orderExecutedWithPrice ⟨.ofNat (wireNumber bytes 0 8), .ofNat (wireNumber bytes 8 4)⟩
  | orderCancel => .orderCancel ⟨.ofNat (wireNumber bytes 0 8), .ofNat (wireNumber bytes 8 4)⟩
  | orderDelete => .orderDelete ⟨.ofNat (wireNumber bytes 0 8)⟩
  | orderReplace => .orderReplace ⟨.ofNat (wireNumber bytes 0 8), .ofNat (wireNumber bytes 8 8),
      .ofNat (wireNumber bytes 16 4), .ofNat (wireNumber bytes 20 4)⟩

/-! ## Reading what was deserialized -/

/-- The `size` bytes at `offset` of the object come from `wire` on. -/
def MemberAt (T : CppType) (offset wire size : ℕ) : Prop :=
  (T.reflect.flatPairs.map Prod.fst).Nodup ∧
    ∀ i < size, (offset + i, wire + i) ∈ T.reflect.flatPairs

instance (T : CppType) (offset wire size : ℕ) : Decidable (MemberAt T offset wire size) :=
  inferInstanceAs (Decidable (_ ∧ _))

section Read
variable {T : CppType} {offset size : ℕ} (native : Endian) (wire : ℕ) {bytes : List UInt8}

theorem deserialized_eq (native : Endian) (T : CppType) (bytes : List UInt8) :
    deserialized native T bytes = transfer T.reflect.flatPairs (fun _ => 0) (arrayMemory bytes) := by
  simp only [deserialized, deserializeAdvance, deserialize_native, shift_zero, List.headD_cons,
    copyIn]

theorem deserialized_apply (h : MemberAt T offset wire size) {i : ℕ} (hi : i < size) :
    deserialized native T bytes (offset + i) = bytes.getD (wire + i) 0 := by
  rw [deserialized_eq]
  exact transfer_of_mem h.1 (h.2 i hi) _ _

theorem bitCast_arrayMemory (hlen : wire + size ≤ bytes.length) :
    bitCast (arrayMemory bytes) wire size = (bytes.drop wire).take size := by
  refine List.ext_getElem (by simp; omega) fun i hi _ => ?_
  have hi : i < size := by simpa using hi
  have hget : wire + i < bytes.length := by omega
  simp [bitCast, arrayMemory, hget]

theorem readBigEndian_deserialized (h : MemberAt T offset wire size)
    (hlen : wire + size ≤ bytes.length) :
    readBigEndian native (deserialized native T bytes) offset size = wireNumber bytes wire size := by
  have hbytes : bitCast (deserialized native T bytes) offset size =
      bitCast (arrayMemory bytes) wire size :=
    bitCast_congr fun i hi => deserialized_apply native wire h hi
  rw [readBigEndian, bigEndianValue_eq, hbytes, bitCast_arrayMemory wire hlen]
  rfl

theorem readStock_deserialized (h : MemberAt T offset wire 8) :
    readStock (deserialized native T bytes) offset = wireStock bytes wire := by
  unfold readStock wireStock
  congr 1
  funext i
  exact deserialized_apply native wire h i.isLt

theorem deserialized_char (h : MemberAt T offset wire 1) :
    deserialized native T bytes offset = bytes.getD wire 0 :=
  deserialized_apply native wire h Nat.one_pos

end Read

theorem readPacketSize_deserialized (native : Endian) {bytes : List UInt8}
    (h : bytes.length = sizeOnWire packetSizeType) :
    readPacketSize native (deserialized native packetSizeType bytes) =
      .ofNat (wireNumber bytes 0 2) := by
  have hlen : bytes.length = 2 := h
  rw [readPacketSize, readBigEndian_deserialized native 0 (by decide) (by omega)]

theorem readHeaderView_deserialized (native : Endian) {bytes : List UInt8}
    (h : bytes.length = sizeOnWire headerViewType) :
    readHeaderView native (deserialized native headerViewType bytes) = wireHeader bytes := by
  have hlen : bytes.length = 11 := h
  rw [readHeaderView, readBigEndian_deserialized native 1 (by decide) (by omega),
    deserialized_char native 0 (by decide)]
  rfl

/-- Both add messages start alike. -/
theorem readAddOrder_deserialized (native : Endian) {T : CppType} {bytes : List UInt8}
    (hlen : 25 ≤ bytes.length) (href : MemberAt T 0 0 8) (hside : MemberAt T 8 8 1)
    (hshares : MemberAt T 12 9 4) (hstock : MemberAt T 16 13 8) (hprice : MemberAt T 24 21 4) :
    readAddOrder native (deserialized native T bytes) = wireAddOrder bytes := by
  rw [readAddOrder, readBigEndian_deserialized native 0 href (by omega),
    deserialized_char native 8 hside, readBigEndian_deserialized native 9 hshares (by omega),
    readStock_deserialized native 13 hstock, readBigEndian_deserialized native 21 hprice (by omega)]
  rfl

/-- Both execution messages start alike. -/
theorem readOrderExecuted_deserialized (native : Endian) {T : CppType} {bytes : List UInt8}
    (hlen : 12 ≤ bytes.length) (href : MemberAt T 0 0 8) (hshares : MemberAt T 8 8 4) :
    readOrderExecuted native (deserialized native T bytes) =
      ⟨.ofNat (wireNumber bytes 0 8), .ofNat (wireNumber bytes 8 4)⟩ := by
  rw [readOrderExecuted, readBigEndian_deserialized native 0 href (by omega),
    readBigEndian_deserialized native 8 hshares (by omega)]

/-- Deserializing the bytes of a message reads the message off them. -/
theorem MessageKind.read_deserialized (native : Endian) (kind : MessageKind) {bytes : List UInt8}
    (h : bytes.length = sizeOnWire kind.layout) :
    kind.read native (deserialized native kind.layout bytes) = kind.wire bytes := by
  cases kind with
  | addOrder =>
    have hlen : bytes.length = 25 := h
    exact congrArg Message.addOrder (readAddOrder_deserialized native (by omega) (by decide)
      (by decide) (by decide) (by decide) (by decide))
  | addOrderMPID =>
    have hlen : bytes.length = 29 := h
    exact congrArg Message.addOrderMPID (readAddOrder_deserialized native (by omega) (by decide)
      (by decide) (by decide) (by decide) (by decide))
  | orderExecuted =>
    have hlen : bytes.length = 20 := h
    exact congrArg Message.orderExecuted
      (readOrderExecuted_deserialized native (by omega) (by decide) (by decide))
  | orderExecutedWithPrice =>
    have hlen : bytes.length = 25 := h
    exact congrArg Message.orderExecutedWithPrice
      (readOrderExecuted_deserialized native (by omega) (by decide) (by decide))
  | orderCancel =>
    have hlen : bytes.length = 12 := h
    simp only [read, wire, layout, readOrderCancel]
    rw [readBigEndian_deserialized native 0 (by decide) (by omega),
      readBigEndian_deserialized native 8 (by decide) (by omega)]
  | orderDelete =>
    have hlen : bytes.length = 8 := h
    simp only [read, wire, layout, readOrderDelete]
    rw [readBigEndian_deserialized native 0 (by decide) (by omega)]
  | orderReplace =>
    have hlen : bytes.length = 24 := h
    simp only [read, wire, layout, readOrderReplace]
    rw [readBigEndian_deserialized native 0 (by decide) (by omega),
      readBigEndian_deserialized native 8 (by decide) (by omega),
      readBigEndian_deserialized native 16 (by decide) (by omega),
      readBigEndian_deserialized native 20 (by decide) (by omega)]

end ItchOrderBook.MarketData

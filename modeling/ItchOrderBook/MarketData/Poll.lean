import ItchOrderBook.Feed.FeedHandler
import ItchOrderBook.MarketData.Handler

/-! # The handler's poll

`MarketDataHandler::poll` as code over the calls of its consumer. What a message does
to the handler is a parameter. The assertion on the result of a read is not compiled in
a release build, so a read that fails leaves its buffer zero and the poll goes on.
-/
namespace ItchOrderBook.MarketData
open AtomicProgram ByteOrder Feed Spmc Stse

/-- Code over the calls of one consumer. -/
abbrev Client (α : Type) := Prog ConsumerCall (fun _ => ConsumerResult UInt8) α

def tryPopMany (count : UInt64) : Client (ConsumerResult UInt8) :=
  .act (.tryPopMany count) .ret

def trySkipMany (count : UInt64) : Client (ConsumerResult UInt8) :=
  .act (.trySkipMany count) .ret

/-- What messages do to a handler: its `cache_stock_locate_`, and the message functions. -/
structure Effects (H : Type) where
  cacheStockLocate : H → UInt16
  simulate : H → UInt16 → Message → Except Fault H

/-- The handler of one stock, with the note whether its share arithmetic has wrapped. -/
def handlerEffects (targetStock : Stock) : Effects (Handler × Bool) where
  cacheStockLocate h := h.1.cacheStockLocate
  simulate h stockLocate message := h.1.simulate targetStock stockLocate message h.2

/-- A value-initialised buffer of `size` bytes after a pop into it. -/
def filled (size : ℕ) (r : ConsumerResult UInt8) : List UInt8 :=
  r.items ++ List.replicate (size - r.items.length) 0

def tryReadFromQueue (native : Endian) (T : CppType) : Client (Except ConsumeFailure Memory) := do
  let r ← tryPopMany (.ofNat (sizeOnWire T))
  if r.failure ≠ .none then return .error r.failure
  else return .ok (deserialized native T (filled (sizeOnWire T) r))

def readFromQueueUnsafe (native : Endian) (T : CppType) : Client Memory := do
  let r ← tryPopMany (.ofNat (sizeOnWire T))
  return deserialized native T (filled (sizeOnWire T) r)

inductive MessageStatus
  | simulated
  | skipped
  deriving DecidableEq

section Poll
variable {H : Type} (E : Effects H) (native : Endian)

def simulateMessage (h : H) (header : HeaderView) :
    Client (Except Fault (MessageStatus × H)) :=
  match MessageKind.ofType? header.messageType with
  | none => return .ok (.skipped, h)
  | some kind => do
    let object ← readFromQueueUnsafe native kind.layout
    return (E.simulate h header.stockLocate (kind.read native object)).map fun h => (.simulated, h)

/-- `poll` once the length prefix is read. -/
def pollPacket (h : H) (packetSize : UInt16) : Client (Except Fault (Bool × H)) := do
  let packetBodySize := packetSize.toUInt64 - .ofNat (sizeOnWire headerViewType)
  let object ← readFromQueueUnsafe native headerViewType
  let header := readHeaderView native object
  if header.messageType ≠ MessageKind.addOrder.messageType ∧
      header.stockLocate ≠ E.cacheStockLocate h then
    let _ ← trySkipMany packetBodySize
    return .ok (true, h)
  else
    let status ← simulateMessage E native h header
    match status with
    | .error fault => return .error fault
    | .ok (.skipped, h) =>
      let _ ← trySkipMany packetBodySize
      return .ok (true, h)
    | .ok (.simulated, h) => return .ok (true, h)

/-- `poll`, with whether it wants to be called again. -/
def poll (h : H) : Client (Except Fault (Bool × H)) := do
  let packetSizeResponse ← tryReadFromQueue native packetSizeType
  match packetSizeResponse with
  | .error failure => return .ok (failure ≠ .bufferClosed, h)
  | .ok object => pollPacket E native h (readPacketSize native object)

end Poll

end ItchOrderBook.MarketData

import ItchOrderBook.Book.OrderBook
import ItchOrderBook.MarketData.Messages
import ItchOrderBook.Util.OpenAddressMapSpec

/-! # What a message does to the handler

The members of `MarketDataHandler` a message changes, and its five message functions.
A message function ends in a fault where the source dereferences an empty `Handle` or
the end of a price map, or throws.
-/
namespace ItchOrderBook.MarketData
open ExactArithmetic Util Book

structure OrderRecord where
  side : Side
  price : Price
  shares : Shares

/-- `OrderRecord{}`. -/
instance : Inhabited OrderRecord := ⟨⟨.buy, 0, 0⟩⟩

inductive Fault
  | records (fault : MapFault)
  | book (fault : Book.Fault)
  deriving DecidableEq, Repr

/-- `OpenAddressMap<1 << 16, reference_num_t, OrderRecord>`. -/
abbrev OrderRecords := OpenAddressMap 16 UInt64 OrderRecord linearProbe false

structure Handler where
  cacheStockLocate : UInt16
  orderRecords : OrderRecords
  orderBook : OrderBook

/-- A handler that has seen no message, with what its `cache_stock_locate_` happens to hold. -/
def Handler.fresh (cacheStockLocate : UInt16) : Handler := ⟨cacheStockLocate, default, default⟩

/-- A call on `order_records_`. -/
def onRecords {α : Type} (r : Except MapFault α × OrderRecords) :
    Noting Fault (α × OrderRecords) :=
  match r.1 with
  | .ok a => pure (a, r.2)
  | .error fault => throw (.records fault)

/-- `*handle`. -/
def dereference (h : Handle 16) : Noting Fault (Fin (2 ^ 16)) :=
  match h with
  | none => throw (.records .nullHandle)
  | some idx => pure idx

/-- `if (condition) order_records_.erase(order_entry);` -/
def eraseIf (condition : Bool) (records : OrderRecords) (orderEntry : Handle 16) :
    Noting Fault OrderRecords :=
  if condition then do
    let (_, records) ← onRecords (records.eraseHandle orderEntry)
    return records
  else return records

namespace Handler

def addOrder (targetStock : Stock) (h : Handler) (stockLocate : UInt16)
    (message : AddOrderMessage) : Noting Fault Handler :=
  if message.stock ≠ targetStock then pure h
  else do
    let side := if message.buySellIndicator = 'B'.toUInt8 then Side.buy else Side.sell
    let (_, orderRecords) ← onRecords
      (h.orderRecords.assign message.orderReferenceNumber ⟨side, message.price, message.shares.toUInt64⟩)
    let orderBook ← h.orderBook.addOrder side message.price message.shares.toUInt64
    return ⟨stockLocate, orderRecords, orderBook⟩

def executeOrder (h : Handler) (message : OrderExecutedMessage) : Noting Fault Handler := do
  let (orderEntry, orderRecords) ← onRecords (h.orderRecords.find message.orderReferenceNumber)
  let idx ← dereference orderEntry
  let record := (orderRecords.table idx).value
  let shares ← minusAssign record.shares message.executedShares.toUInt64
  let orderRecords := orderRecords.setValue idx { record with shares }
  let orderBook ← h.orderBook.executeOrder .book record.side record.price
    message.executedShares.toUInt64
  let orderRecords ← eraseIf (shares = 0) orderRecords orderEntry
  return { h with orderRecords, orderBook }

/-- The side and price are read after the erase, through the reference into the slot. -/
def cancelOrder (h : Handler) (message : OrderCancelMessage) : Noting Fault Handler := do
  let (orderEntry, orderRecords) ← onRecords (h.orderRecords.find message.orderReferenceNumber)
  let idx ← dereference orderEntry
  let record := (orderRecords.table idx).value
  let shares ← minusAssign record.shares message.cancelledShares.toUInt64
  let orderRecords := orderRecords.setValue idx { record with shares }
  let orderRecords ← eraseIf (shares = 0) orderRecords orderEntry
  let record := (orderRecords.table idx).value
  let orderBook ← h.orderBook.cancelOrder .book record.side record.price
    message.cancelledShares.toUInt64
  return { h with orderRecords, orderBook }

def deleteOrder (h : Handler) (message : OrderDeleteMessage) : Noting Fault Handler := do
  let (orderEntry, orderRecords) ← onRecords (h.orderRecords.find message.orderReferenceNumber)
  let idx ← dereference orderEntry
  let record := (orderRecords.table idx).value
  let (_, orderRecords) ← onRecords (orderRecords.eraseHandle orderEntry)
  let orderBook ← h.orderBook.cancelOrder .book record.side record.price record.shares
  return { h with orderRecords, orderBook }

def replaceOrder (h : Handler) (message : OrderReplaceMessage) : Noting Fault Handler := do
  let (orderEntry, orderRecords) ←
    onRecords (h.orderRecords.find message.originalOrderReferenceNumber)
  let idx ← dereference orderEntry
  let record := (orderRecords.table idx).value
  let (_, orderRecords) ← onRecords (orderRecords.eraseHandle orderEntry)
  let (_, orderRecords) ← onRecords (orderRecords.assign message.newOrderReferenceNumber
    ⟨record.side, message.price, message.shares.toUInt64⟩)
  let orderBook ← h.orderBook.replaceOrder .book record.side record.price record.shares
    message.price message.shares.toUInt64
  return { h with orderRecords, orderBook }

/-- The calls of `simulate_message`, with the message it has read. -/
def simulate (targetStock : Stock) (h : Handler) (stockLocate : UInt16) :
    Message → Noting Fault Handler
  | .addOrder message => h.addOrder targetStock stockLocate message
  | .addOrderMPID message => h.addOrder targetStock stockLocate message
  | .orderExecuted message => h.executeOrder message
  | .orderExecutedWithPrice message => h.executeOrder message
  | .orderCancel message => h.cancelOrder message
  | .orderDelete message => h.deleteOrder message
  | .orderReplace message => h.replaceOrder message

end Handler

end ItchOrderBook.MarketData

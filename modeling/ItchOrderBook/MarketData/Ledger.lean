import ItchOrderBook.Foundation.MatchingRuns
import ItchOrderBook.MarketData.Poll
import ItchOrderBook.MarketData.Saturation
import ItchOrderBook.Util.MapContent

/-! # The ledger of a stock

What a handler is for, without its hash table: a finite map of at most 65536 records, and
the book. A message adds an order or takes shares from one. A delete takes all the shares
of its order, a replace takes them all and adds. Each message function of the handler
matches this, whatever the message.
-/
namespace ItchOrderBook.MarketData
open ExactArithmetic Util Book OpenAddressMap

abbrev Records := BoundedMap (2 ^ 16) UInt64 OrderRecord

structure Ledger where
  cacheStockLocate : UInt16
  records : Records
  orderBook : OrderBook

/-- The record with other shares, or none if there are none left. -/
def OrderRecord.left (shares : Shares) (record : OrderRecord) : Option OrderRecord :=
  if shares = 0 then none else some { record with shares }

/-- The record an add message makes. -/
def AddOrderMessage.record (message : AddOrderMessage) : OrderRecord where
  side := if message.buySellIndicator = 'B'.toUInt8 then .buy else .sell
  price := message.price
  shares := message.shares.toUInt64

namespace Ledger

def fresh (cacheStockLocate : UInt16) : Ledger := ⟨cacheStockLocate, .empty _ _ _, default⟩

/-- The record of an order. With 65536 others live the lookup ends in another fault. -/
noncomputable def lookUp (records : Records) (r : UInt64) : Noting Fault OrderRecord :=
  match records.entries r with
  | some record => pure record
  | none => throw (.records (if records.size < 2 ^ 16 then .nullHandle else .saturated))

open scoped Classical in
noncomputable def store (records : Records) (r : UInt64) (record : OrderRecord) :
    Noting Fault Records :=
  if h : records.Takes r then pure (records.put r record h) else throw (.records .saturated)

noncomputable def add (l : Ledger) (r : UInt64) (record : OrderRecord) : Noting Fault Ledger := do
  let records ← store l.records r record
  let orderBook ← l.orderBook.addOrder record.side record.price record.shares
  return { l with records, orderBook }

/-- Takes shares from a record and from its level. -/
def takeFrom (l : Ledger) (r : UInt64) (record : OrderRecord) (shares : Shares) :
    Noting Fault Ledger := do
  let left ← minusAssign record.shares shares
  let orderBook ← l.orderBook.executeOrder .book record.side record.price shares
  return { l with records := l.records.alter r (OrderRecord.left left), orderBook }

noncomputable def take (l : Ledger) (r : UInt64) (shares : Shares) : Noting Fault Ledger := do
  let record ← lookUp l.records r
  l.takeFrom r record shares

noncomputable def addOrder (targetStock : Stock) (l : Ledger) (stockLocate : UInt16)
    (message : AddOrderMessage) : Noting Fault Ledger :=
  if message.stock ≠ targetStock then pure l
  else { l with cacheStockLocate := stockLocate }.add message.orderReferenceNumber message.record

noncomputable def deleteOrder (l : Ledger) (message : OrderDeleteMessage) : Noting Fault Ledger := do
  let record ← lookUp l.records message.orderReferenceNumber
  l.takeFrom message.orderReferenceNumber record record.shares

noncomputable def replaceOrder (l : Ledger) (message : OrderReplaceMessage) :
    Noting Fault Ledger := do
  let record ← lookUp l.records message.originalOrderReferenceNumber
  let l ← l.takeFrom message.originalOrderReferenceNumber record record.shares
  l.add message.newOrderReferenceNumber ⟨record.side, message.price, message.shares.toUInt64⟩

noncomputable def simulate (targetStock : Stock) (l : Ledger) (stockLocate : UInt16) :
    Message → Noting Fault Ledger
  | .addOrder message => l.addOrder targetStock stockLocate message
  | .addOrderMPID message => l.addOrder targetStock stockLocate message
  | .orderExecuted message => l.take message.orderReferenceNumber message.executedShares.toUInt64
  | .orderExecutedWithPrice message =>
    l.take message.orderReferenceNumber message.executedShares.toUInt64
  | .orderCancel message => l.take message.orderReferenceNumber message.cancelledShares.toUInt64
  | .orderDelete message => l.deleteOrder message
  | .orderReplace message => l.replaceOrder message

theorem takeFrom_all (l : Ledger) (r : UInt64) (record : OrderRecord) :
    l.takeFrom r record record.shares = do
      let orderBook ← l.orderBook.executeOrder .book record.side record.price record.shares
      return { l with records := l.records.alter r fun _ => none, orderBook } := by
  have hgone : OrderRecord.left 0 = fun _ => none := by
    funext record
    simp [OrderRecord.left]
  simp only [takeFrom, minusAssign_self, pure_bind, hgone]

theorem store_of_takes {records : Records} {r : UInt64} (h : records.Takes r) (record : OrderRecord) :
    store records r record = pure (records.put r record h) := dif_pos h

end Ledger

/-- The ledger a handler keeps in its table and its book. -/
noncomputable def Handler.ledger (h : Handler) : Ledger where
  cacheStockLocate := h.cacheStockLocate
  records := h.orderRecords.content
  orderBook := h.orderBook

structure Keeps (h : Handler) (l : Ledger) : Prop where
  sound : h.orderRecords.Sound
  ledger : h.ledger = l

/-! ## Lookups and erasures -/

section Records
variable {records : OrderRecords} {s : Fin (2 ^ 16)} {r : UInt64} {record : OrderRecord}

theorem onRecords_error {α : Type} {result : Except MapFault α × OrderRecords} {fault : MapFault}
    (h : result.1 = .error fault) : onRecords result = throw (.records fault) := by
  simp only [onRecords, h]

/-- What follows a lookup goes on with the slot of the record, if there is one. -/
theorem lookUp_matches (hrecords : records.Sound) (r : UInt64) {H L : Type} {R : H → L → Prop}
    {f : Handle 16 × OrderRecords → Fin (2 ^ 16) → Noting Fault H} {g : OrderRecord → Noting Fault L}
    (hfg : ∀ (records' : OrderRecords) s record, records'.Sound → records'.content = records.content →
      records'.cells s = .live r record → Matches R (f (some s, records') s) (g record)) :
    Matches R (onRecords (records.find r) >>= fun found => dereference found.1 >>= f found)
      (Ledger.lookUp records.content r >>= g) := by
  have hfound : (records.find r).2.Sound := sound_of_table hrecords (find_table _ _)
  have hcontent : (records.find r).2.content = records.content := content_of_table (find_table _ _)
  cases hentry : records.content.entries r with
  | some record =>
    obtain ⟨s, hok, htable, hcell⟩ := find_of_entries hrecords hentry
    have hcell' : (records.find r).2.cells s = .live r record := by
      simpa only [cells, htable] using hcell
    simp only [Ledger.lookUp, hentry, onRecords_of_ok hok, pure_bind, dereference]
    exact hfg _ s record hfound hcontent hcell'
  | none =>
    have hnone := find_none hrecords hentry
    simp only [Ledger.lookUp, hentry]
    split at hnone
    · rename_i hroom
      simp only [if_pos hroom, onRecords_of_ok hnone, pure_bind, dereference]
      exact .throw _
    · rename_i hroom
      simp only [if_neg hroom, onRecords_error hnone]
      exact .throw _

/-- The handle of an erased slot still leads to what was in it. -/
theorem eraseIf_content (hrecords : records.Sound) (hcell : records.cells s = .live r record)
    (left : Shares) : ∃ records' : OrderRecords,
      eraseIf (left = 0) (records.setValue s { record with shares := left }) (some s) =
        pure records' ∧
      records'.Sound ∧ records'.content = records.content.alter r (OrderRecord.left left) ∧
      (records'.table s).value = { record with shares := left } := by
  have hentry : records.content.entries r = some record := hrecords.content_eq_some.mpr ⟨s, hcell⟩
  have hsound := (setValue_spec hrecords hcell { record with shares := left }).1
  have hset := content_setValue hrecords hcell { record with shares := left }
  have hcell' : (records.setValue s { record with shares := left }).cells s =
      .live r { record with shares := left } := by
    simp [cells_setValue hcell]
  by_cases hzero : left = 0
  · refine ⟨(records.setValue s { record with shares := left }).bury s, ?_,
      (bury_spec hsound hcell').1, ?_, ?_⟩
    · simp only [eraseIf, hzero, decide_true, if_true]
      rfl
    · rw [content_bury hsound hcell', hset]
      apply BoundedMap.ext
      simp [BoundedMap.alter, hentry, OrderRecord.left, hzero]
    · simp [bury, setValue]
  · refine ⟨records.setValue s { record with shares := left }, ?_, hsound, ?_, ?_⟩
    · simp [eraseIf, hzero]
    · rw [hset]
      apply BoundedMap.ext
      simp [BoundedMap.alter, hentry, OrderRecord.left, hzero]
    · exact value_of_cell hcell'

theorem store_matches (hrecords : records.Sound) (r : UInt64) (record : OrderRecord) :
    Matches (fun assigned stored => assigned.2.Sound ∧ assigned.2.content = stored)
      (onRecords (records.assign r record)) (Ledger.store records.content r record) := by
  unfold Ledger.store
  split
  · rename_i htakes
    obtain ⟨hok, hsound, hcontent⟩ := assign_put hrecords htakes record
    simp only [onRecords_of_ok hok]
    exact .pure ⟨hsound, hcontent⟩
  · rename_i hrefused
    simp only [onRecords_error (assign_refused hrecords hrefused record)]
    exact .throw _

end Records

/-! ## The message functions -/

theorem addOrder_setOrderSide (book : OrderBook) (side : Side) (collection : OrderCollection)
    (price : Price) (shares : Shares) :
    ((book.setOrderSide side collection).addOrder side price shares : Noting Fault OrderBook) = do
      let collection ← addShares collection price shares
      return book.setOrderSide side collection := by
  cases side <;> rfl

namespace Handler
variable {h : Handler}

theorem addOrder_matches (hrecords : h.orderRecords.Sound) (targetStock : Stock)
    (stockLocate : UInt16) (message : AddOrderMessage) :
    Matches Keeps (h.addOrder targetStock stockLocate message)
      (h.ledger.addOrder targetStock stockLocate message) := by
  unfold addOrder Ledger.addOrder
  by_cases hstock : message.stock ≠ targetStock
  · simp only [if_pos hstock]
    exact .pure ⟨hrecords, rfl⟩
  · simp only [if_neg hstock]
    refine (store_matches hrecords _ message.record).bind fun assigned stored hstored => ?_
    obtain ⟨hsound, rfl⟩ := hstored
    refine (Matches.refl _).bind fun orderBook orderBook' hbook => ?_
    subst hbook
    exact .pure ⟨hsound, rfl⟩

theorem executeOrder_matches (hrecords : h.orderRecords.Sound) (message : OrderExecutedMessage) :
    Matches Keeps (h.executeOrder message)
      (h.ledger.take message.orderReferenceNumber message.executedShares.toUInt64) := by
  refine lookUp_matches hrecords _ fun records s record hsound hcontent hcell => ?_
  simp only [value_of_cell hcell, Ledger.takeFrom]
  refine (Matches.refl _).bind fun left left' hleft => ?_
  subst hleft
  refine (Matches.refl _).bind fun orderBook orderBook' hbook => ?_
  subst hbook
  obtain ⟨records', herased, hsound', hcontent', -⟩ := eraseIf_content hsound hcell left
  simp only [herased, pure_bind]
  refine .pure ⟨hsound', ?_⟩
  simp only [ledger, hcontent', hcontent]

theorem cancelOrder_matches (hrecords : h.orderRecords.Sound) (message : OrderCancelMessage) :
    Matches Keeps (h.cancelOrder message)
      (h.ledger.take message.orderReferenceNumber message.cancelledShares.toUInt64) := by
  refine lookUp_matches hrecords _ fun records s record hsound hcontent hcell => ?_
  simp only [value_of_cell hcell, Ledger.takeFrom]
  refine (Matches.refl _).bind fun left left' hleft => ?_
  subst hleft
  -- the side and the price are what they were, erased or not
  obtain ⟨records', herased, hsound', hcontent', hvalue⟩ := eraseIf_content hsound hcell left
  simp only [herased, pure_bind, hvalue]
  refine (Matches.refl _).bind fun orderBook orderBook' hbook => ?_
  subst hbook
  refine .pure ⟨hsound', ?_⟩
  simp only [ledger, hcontent', hcontent]

theorem deleteOrder_matches (hrecords : h.orderRecords.Sound) (message : OrderDeleteMessage) :
    Matches Keeps (h.deleteOrder message) (h.ledger.deleteOrder message) := by
  refine lookUp_matches hrecords _ fun records s record hsound hcontent hcell => ?_
  have herased : onRecords (records.eraseHandle (some s)) = pure ((), records.bury s) := rfl
  simp only [herased, pure_bind, value_of_cell hcell, Ledger.takeFrom_all]
  refine (Matches.refl _).bind fun orderBook orderBook' hbook => ?_
  subst hbook
  refine .pure ⟨(bury_spec hsound hcell).1, ?_⟩
  simp only [ledger, content_bury hsound hcell, hcontent]

/-- The slot of the old order has room for the new one, so the book is the first to fail. -/
theorem replaceOrder_matches (hrecords : h.orderRecords.Sound) (message : OrderReplaceMessage) :
    Matches Keeps (h.replaceOrder message) (h.ledger.replaceOrder message) := by
  refine lookUp_matches hrecords _ fun records s record hsound hcontent hcell => ?_
  have herased : onRecords (records.eraseHandle (some s)) = pure ((), records.bury s) := rfl
  have hentry : records.content.entries message.originalOrderReferenceNumber = some record :=
    hsound.content_eq_some.mpr ⟨s, hcell⟩
  have hburied := (bury_spec hsound hcell).1
  have hgone := content_bury hsound hcell
  have htakes : (records.bury s).content.Takes message.newOrderReferenceNumber := by
    simpa only [hgone] using BoundedMap.takes_alter hentry rfl message.newOrderReferenceNumber
  obtain ⟨hok, hsound', hput⟩ := assign_put hburied htakes
    ⟨record.side, message.price, message.shares.toUInt64⟩
  simp only [herased, pure_bind, value_of_cell hcell, onRecords_of_ok hok, Ledger.takeFrom_all,
    OrderBook.replaceOrder, OrderBook.executeOrder, bind_assoc]
  refine (Matches.refl _).bind fun removed removed' hremoved => ?_
  subst hremoved
  have hemptied : h.ledger.records.alter message.originalOrderReferenceNumber (fun _ => none) =
      (records.bury s).content := by
    simp only [hgone, hcontent, ledger]
  simp only [hemptied, Ledger.add, Ledger.store_of_takes htakes, pure_bind, addOrder_setOrderSide,
    bind_assoc]
  refine (Matches.refl _).bind fun collection collection' hcollection => ?_
  subst hcollection
  refine .pure ⟨hsound', ?_⟩
  simp only [ledger, hput]

/-- Whatever the message, the handler does to its ledger what the ledger does itself, with the
same fault and the same wraps. -/
theorem simulate_matches (hrecords : h.orderRecords.Sound) (targetStock : Stock)
    (stockLocate : UInt16) (message : Message) :
    Matches Keeps (h.simulate targetStock stockLocate message)
      (h.ledger.simulate targetStock stockLocate message) := by
  cases message with
  | addOrder message => exact addOrder_matches hrecords targetStock stockLocate message
  | addOrderMPID message => exact addOrder_matches hrecords targetStock stockLocate message
  | orderExecuted message => exact executeOrder_matches hrecords message
  | orderExecutedWithPrice message => exact executeOrder_matches hrecords message
  | orderCancel message => exact cancelOrder_matches hrecords message
  | orderDelete message => exact deleteOrder_matches hrecords message
  | orderReplace message => exact replaceOrder_matches hrecords message

end Handler

end ItchOrderBook.MarketData

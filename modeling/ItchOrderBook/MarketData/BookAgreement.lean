import ItchOrderBook.MarketData.Orders

/-! # Book and records agree

The records hold the live orders and the book their depth. Each message function keeps
this, fails nowhere and wraps nowhere; by induction so does any valid sequence.
-/
namespace ItchOrderBook.MarketData
open ExactArithmetic Util Book OpenAddressing

/-- The record of an order. -/
def Order.record (o : Order) : OrderRecord := ⟨o.side, o.price, .ofNat o.shares⟩

def Orders.records (orders : Orders) : UInt64 → Option OrderRecord := fun r =>
  (orders r).map Order.record

/-- The table is sound and holds the records of these orders. -/
structure RecordsOf (orders : Orders) (records : OrderRecords) : Prop where
  sound : records.Sound
  entries : records.entries = orders.records

structure Agrees (orders : Orders) (h : Handler) : Prop where
  records : RecordsOf orders h.orderRecords
  book : h.orderBook.HasDepth orders.depth
  sized : orders.Sized
  few : orders.count ≤ 65536

/-! ## The records -/

namespace Orders

theorem records_update (orders : Orders) (r : UInt64) (x : Option Order) :
    records (Function.update orders r x) =
      Function.update orders.records r (x.map Order.record) := by
  funext r'
  by_cases hr : r' = r
  · subst hr
    simp [records]
  · simp [records, Function.update_of_ne hr]

theorem records_of_some {orders : Orders} {r : UInt64} {o : Order} (h : orders r = some o) :
    orders.records r = some o.record := by
  simp only [records, h, Option.map_some]

theorem ncard_records (orders : Orders) : {r | (orders.records r).isSome}.ncard = orders.count := by
  simp only [records, Option.isSome_map, count]

end Orders

section Records
variable {orders : Orders} {records : OrderRecords}

theorem RecordsOf.of_table_eq (h : RecordsOf orders records) {records' : OrderRecords}
    (htable : records'.table = records.table) : RecordsOf orders records' := by
  have hcells : records'.cells = records.cells := by
    unfold OpenAddressMap.cells
    rw [htable]
  refine ⟨?_, ?_⟩
  · unfold OpenAddressMap.Sound
    rw [hcells]
    exact h.sound
  · rw [← h.entries, OpenAddressMap.entries, hcells]
    rfl

theorem onRecords_exact {α : Type} {r : Except MapFault α × OrderRecords} {a : α}
    {post : α × OrderRecords → Prop} (hok : r.1 = .ok a) (hpost : post (a, r.2)) :
    Exact (onRecords r) post := by
  unfold onRecords
  rw [hok]
  exact Exact.pure hpost

/-- `find` on the reference of a live order, up to the record it leads to. -/
theorem RecordsOf.find_exact (h : RecordsOf orders records) {r : UInt64} {o : Order}
    (ho : orders r = some o) :
    Exact (onRecords (records.find r)) fun found => RecordsOf orders found.2 ∧
      ∃ s, found.1 = some s ∧ found.2.cells s = .live r o.record := by
  have hentry : records.entries r = some o.record := by
    rw [h.entries]
    exact Orders.records_of_some ho
  obtain ⟨s, hok, htable, hcell⟩ := OpenAddressMap.find_of_entries h.sound hentry
  refine onRecords_exact hok ⟨h.of_table_eq htable, s, rfl, ?_⟩
  unfold OpenAddressMap.cells at hcell ⊢
  rw [htable]
  exact hcell

theorem value_of_cell {s : Fin (2 ^ 16)} {r : UInt64} {record : OrderRecord}
    (h : records.cells s = .live r record) : (records.table s).value = record :=
  (Slot.cell_eq_live.mp h).2.2

theorem RecordsOf.setValue (h : RecordsOf orders records) {s : Fin (2 ^ 16)} {r : UInt64}
    {record : OrderRecord} (hcell : records.cells s = .live r record) (o : Order) :
    RecordsOf (Function.update orders r (some o)) (records.setValue s o.record) ∧
      (records.setValue s o.record).cells s = .live r o.record := by
  obtain ⟨hsound, hentries⟩ := OpenAddressMap.setValue_spec h.sound hcell o.record
  refine ⟨⟨hsound, ?_⟩, ?_⟩
  · rw [hentries, h.entries, Orders.records_update, Option.map_some]
  · rw [OpenAddressMap.cells_setValue hcell, Function.update_self]

/-- Erasing only marks the slot: what it held can still be read through it. -/
theorem RecordsOf.erase_exact (h : RecordsOf orders records) {s : Fin (2 ^ 16)} {r : UInt64}
    {record : OrderRecord} (hcell : records.cells s = .live r record) :
    Exact (onRecords (records.eraseHandle (some s))) fun erased =>
      RecordsOf (Function.update orders r none) erased.2 ∧
        (erased.2.table s).value = record := by
  obtain ⟨hsound, hentries⟩ := OpenAddressMap.bury_spec h.sound hcell
  refine onRecords_exact rfl ⟨⟨hsound, ?_⟩, ?_⟩
  · rw [Orders.records_update, Option.map_none, ← h.entries]
    exact hentries
  · change (Function.update records.table s { records.table s with state := .tombstone } s).value = _
    rw [Function.update_self]
    exact value_of_cell hcell

/-- `order_records_[r] = record`, with room for the order. -/
theorem RecordsOf.assign_exact (h : RecordsOf orders records) (r : UInt64)
    (hroom : orders.count < 65536) (o : Order) :
    Exact (onRecords (records.assign r o.record)) fun assigned =>
      RecordsOf (Function.update orders r (some o)) assigned.2 := by
  have hok : (records.assign r o.record).1 = .ok () := by
    refine OpenAddressMap.assign_succeeds h.sound o.record (Or.inr ?_)
    rw [h.entries, Orders.ncard_records]
    exact hroom
  obtain ⟨hsound, hentries⟩ := OpenAddressMap.assign_ok h.sound hok
  refine onRecords_exact hok ⟨hsound, ?_⟩
  rw [hentries, h.entries, Orders.records_update, Option.map_some]

end Records

/-! ## Counting -/

namespace Orders
variable {orders : Orders}

theorem count_add (orders : Orders) {r : UInt64} (h : orders r = none) (o : Order) :
    count (Function.update orders r (some o)) = orders.count + 1 := by
  have hset : {r' | (Function.update orders r (some o) r').isSome} =
      insert r {r' | (orders r').isSome} := by
    ext r'
    by_cases hr : r' = r
    · subst hr
      simp
    · simp [hr]
  unfold count
  rw [hset, Set.ncard_insert_of_notMem (by simp [h])]

theorem count_remove (orders : Orders) {r : UInt64} (h : (orders r).isSome) :
    count (Function.update orders r none) + 1 = orders.count := by
  obtain ⟨o, ho⟩ := Option.isSome_iff_exists.mp h
  have hback := count_add (Function.update orders r none) (Function.update_self ..) o
  rw [Function.update_idem, ← ho, Function.update_eq_self] at hback
  exact hback.symm

theorem count_update_of_isSome (orders : Orders) {r : UInt64} (h : (orders r).isSome) (o : Order) :
    count (Function.update orders r (some o)) = orders.count := by
  have hcount := count_add (Function.update orders r none) (Function.update_self ..) o
  rw [Function.update_idem, count_remove orders h] at hcount
  exact hcount

theorem count_remove_le (orders : Orders) (r : UInt64) :
    count (Function.update orders r none) ≤ orders.count := by
  cases h : (orders r).isSome with
  | false =>
    rw [Option.isSome_eq_false_iff, Option.isNone_iff_eq_none] at h
    rw [← h, Function.update_eq_self]
  | true =>
    have hcount := count_remove orders h
    omega

theorem count_insert_le (orders : Orders) (r : UInt64) (o : Order) :
    count (Function.update orders r (some o)) ≤ orders.count + 1 := by
  have hcount := count_add (Function.update orders r none) (Function.update_self ..) o
  rw [Function.update_idem] at hcount
  have hle := count_remove_le orders r
  omega

theorem count_reduce_le (orders : Orders) (r : UInt64) (n : ℕ) :
    (orders.reduce r n).count ≤ orders.count + 1 := by
  cases h : orders r with
  | none => simp [reduce, h]
  | some o =>
    rw [reduce_of_some h]
    split
    · exact (count_remove_le orders r).trans (Nat.le_succ _)
    · exact count_insert_le orders r _

/-- A message adds at most one order. -/
theorem count_apply_le (orders : Orders) (m : Message) :
    (m.apply orders).count ≤ orders.count + 1 := by
  cases m with
  | addOrder message => exact count_insert_le orders _ _
  | addOrderMPID message => exact count_insert_le orders _ _
  | orderExecuted message => exact count_reduce_le orders _ _
  | orderExecutedWithPrice message => exact count_reduce_le orders _ _
  | orderCancel message => exact count_reduce_le orders _ _
  | orderDelete message => exact (count_remove_le orders _).trans (Nat.le_succ _)
  | orderReplace message =>
    change (orders.replace message).count ≤ orders.count + 1
    cases h : orders message.originalOrderReferenceNumber with
    | none => simp [replace, h]
    | some o =>
      rw [replace_of_some h]
      exact (count_insert_le _ _ _).trans (Nat.succ_le_succ (count_remove_le orders _))

end Orders

/-! ## The message functions -/

theorem dereference_exact (s : Fin (2 ^ 16)) : Exact (dereference (some s)) (· = s) :=
  Exact.pure rfl

/-- What follows a lookup of a live order goes on with its slot. -/
theorem RecordsOf.lookup_exact {orders : Orders} {records : OrderRecords}
    (h : RecordsOf orders records) {r : UInt64} {o : Order} (ho : orders r = some o) {H : Type}
    {f : Handle 16 × OrderRecords → Fin (2 ^ 16) → Noting Fault H} {P : H → Prop}
    (hf : ∀ (records : OrderRecords) s, RecordsOf orders records →
      records.cells s = .live r o.record → Exact (f (some s, records) s) P) :
    Exact (onRecords (records.find r) >>= fun found => dereference found.1 >>= f found) P := by
  refine (h.find_exact ho).bind ?_
  rintro ⟨_, records⟩ ⟨hrecords, s, rfl, hcell⟩
  refine (dereference_exact s).bind ?_
  rintro _ rfl
  exact hf records _ hrecords hcell

namespace Agrees
variable {orders : Orders} {h : Handler}

theorem fresh (cacheStockLocate : UInt16) : Agrees Orders.empty (Handler.fresh cacheStockLocate) where
  records := by
    refine ⟨OpenAddressMap.sound_default, ?_⟩
    funext r
    exact OpenAddressMap.entries_default r
  book := by
    rw [Orders.depth_empty]
    exact default_hasDepth
  sized := Orders.sized_empty
  few := by simp

theorem level_pos (hh : Agrees orders h) {r : UInt64} {o : Order} (ho : orders r = some o) :
    0 < orders.depth (o.side, o.price) :=
  (hh.sized r o ho).1.trans_le (Orders.shares_le_depth ho)

theorem record_shares (hh : Agrees orders h) {r : UInt64} {o : Order} (ho : orders r = some o) :
    (UInt64.ofNat o.shares).toNat = o.shares := by
  have hlt := (hh.sized r o ho).2
  rw [UInt64.toNat_ofNat']
  omega

theorem addOrder_exact (hh : Agrees orders h) {targetStock : Stock} (stockLocate : UInt16)
    {message : AddOrderMessage} (htarget : message.stock = targetStock)
    (hfresh : orders message.orderReferenceNumber = none) (hpos : 0 < message.shares.toNat)
    (hfew : Orders.count
      (Function.update orders message.orderReferenceNumber (some message.order)) ≤ 65536) :
    Exact (h.addOrder targetStock stockLocate message) fun h' =>
      Agrees (Function.update orders message.orderReferenceNumber (some message.order)) h' ∧
        h'.cacheStockLocate = stockLocate := by
  have hroom : orders.count < 65536 := by
    rw [Orders.count_add orders hfresh] at hfew
    omega
  have hsized := hh.sized.apply (m := .addOrder message) ⟨hfresh, hpos⟩
  have hdepth := Orders.depth_add hfresh message.order
  have hbound : Orders.depth
      (Function.update orders message.orderReferenceNumber (some message.order))
      (message.order.side, message.order.price) < 2 ^ 64 := Orders.depth_lt hsized hfew _
  rw [hdepth, Function.update_self] at hbound
  have hrecord : (⟨message.order.side, message.price, message.shares.toUInt64⟩ : OrderRecord) =
      message.order.record := by
    simp only [Order.record, AddOrderMessage.order, OrderRecord.mk.injEq, true_and]
    exact UInt64.toNat_inj.mp (by simp)
  unfold Handler.addOrder
  rw [if_neg (not_not.mpr htarget)]
  change Exact (onRecords (h.orderRecords.assign message.orderReferenceNumber
    ⟨message.order.side, message.price, message.shares.toUInt64⟩) >>= _) _
  rw [hrecord]
  refine (hh.records.assign_exact _ hroom message.order).bind ?_
  rintro ⟨_, records⟩ hrecords
  have hshares : message.shares.toUInt64.toNat = message.order.shares := UInt32.toNat_toUInt64 _
  rw [← hshares] at hbound hdepth
  refine (OrderBook.addOrder_exact hh.book (hpos.trans_eq hshares.symm) hbound).bind
    fun book hbook => Exact.pure ⟨⟨hrecords, ?_, hsized, hfew⟩, rfl⟩
  dsimp only
  rw [hdepth]
  exact hbook

/-- Taking shares out of an order's record and out of its level. -/
theorem of_reduce (hh : Agrees orders h) {r : UInt64} {n : ℕ} (hn : orders.HasShares r n)
    {h' : Handler} (hrecords : RecordsOf (orders.reduce r n) h'.orderRecords)
    (hbook : h'.orderBook.HasDepth (orders.reduce r n).depth) : Agrees (orders.reduce r n) h' where
  records := hrecords
  book := hbook
  sized := hh.sized.reduce hn
  few := by
    obtain ⟨o, ho, -⟩ := hn
    have hsome : (orders r).isSome := by rw [ho]; rfl
    rw [Orders.reduce_of_some ho]
    split
    · have hcount := Orders.count_remove orders hsome
      have hfew := hh.few
      omega
    · rw [Orders.count_update_of_isSome orders hsome]
      exact hh.few

/-- The record shrinks to what is left of the order, and goes with the last share. -/
theorem eraseIf_exact {records : OrderRecords} (hrecords : RecordsOf orders records)
    {s : Fin (2 ^ 16)} {r : UInt64} {o : Order}
    (ho : orders r = some o) (hcell : records.cells s = .live r o.record) {n : ℕ} {left : UInt64}
    (hn : n ≤ o.shares) (hleft : left.toNat = o.shares - n) :
    Exact (eraseIf (left = 0) (records.setValue s { o.record with shares := left }) (some s))
      fun records' => RecordsOf (orders.reduce r n) records' ∧
        (records'.table s).value = { o.record with shares := left } := by
  have hrecord : { o.record with shares := left } =
      Order.record { o with shares := o.shares - n } := by
    simp only [Order.record, OrderRecord.mk.injEq, true_and]
    rw [← hleft, UInt64.ofNat_toNat]
  obtain ⟨hset, hcell'⟩ := hrecords.setValue hcell { o with shares := o.shares - n }
  rw [Orders.reduce_of_some ho, hrecord]
  unfold eraseIf
  by_cases hzero : left = 0
  · have hall : o.shares = n := by
      rw [hzero] at hleft
      change 0 = _ at hleft
      omega
    rw [if_pos (decide_eq_true hzero), if_pos hall]
    refine (hset.erase_exact hcell').bind ?_
    rintro ⟨_, records'⟩ ⟨herased, hvalue⟩
    rw [Function.update_idem] at herased
    exact Exact.pure ⟨herased, hvalue⟩
  · have hsome : o.shares ≠ n := by
      rintro rfl
      exact hzero (UInt64.toNat_inj.mp (by rw [hleft, Nat.sub_self]; rfl))
    rw [if_neg (by simpa using hzero), if_neg hsome]
    exact Exact.pure ⟨hset, value_of_cell hcell'⟩

theorem executeOrder_exact (hh : Agrees orders h) {message : OrderExecutedMessage}
    (hn : orders.HasShares message.orderReferenceNumber message.executedShares.toNat) :
    Exact (h.executeOrder message) fun h' =>
      Agrees (orders.reduce message.orderReferenceNumber message.executedShares.toNat) h' ∧
        h'.cacheStockLocate = h.cacheStockLocate := by
  obtain ⟨o, ho, hle⟩ := id hn
  have hshares := hh.record_shares ho
  have hdeep := Orders.shares_le_depth ho
  have hexecuted : message.executedShares.toUInt64.toNat = message.executedShares.toNat :=
    UInt32.toNat_toUInt64 _
  refine hh.records.lookup_exact ho fun records s hrecords hcell => ?_
  rw [value_of_cell hcell]
  refine (Exact.minusAssign ?_).bind fun left hleft => ?_
  · rw [hexecuted]
    exact hle.trans_eq hshares.symm
  refine (OrderBook.executeOrder_exact hh.book Fault.book (hh.level_pos ho) ?_).bind fun book hbook => ?_
  · rw [hexecuted]
    exact hle.trans hdeep
  rw [hexecuted] at hbook hleft
  refine (eraseIf_exact hrecords ho hcell hle ?_).bind fun records' hrecords' => ?_
  · exact hleft.trans (congrArg (· - _) hshares)
  refine Exact.pure ⟨hh.of_reduce hn hrecords'.1 ?_, rfl⟩
  rw [Orders.depth_reduce ho hle]
  exact hbook

theorem cancelOrder_exact (hh : Agrees orders h) {message : OrderCancelMessage}
    (hn : orders.HasShares message.orderReferenceNumber message.cancelledShares.toNat) :
    Exact (h.cancelOrder message) fun h' =>
      Agrees (orders.reduce message.orderReferenceNumber message.cancelledShares.toNat) h' ∧
        h'.cacheStockLocate = h.cacheStockLocate := by
  obtain ⟨o, ho, hle⟩ := id hn
  have hshares := hh.record_shares ho
  have hdeep := Orders.shares_le_depth ho
  have hcancelled : message.cancelledShares.toUInt64.toNat = message.cancelledShares.toNat :=
    UInt32.toNat_toUInt64 _
  refine hh.records.lookup_exact ho fun records s hrecords hcell => ?_
  rw [value_of_cell hcell]
  refine (Exact.minusAssign ?_).bind fun left hleft => ?_
  · rw [hcancelled]
    exact hle.trans_eq hshares.symm
  rw [hcancelled] at hleft
  refine (eraseIf_exact hrecords ho hcell hle ?_).bind fun records' hrecords' => ?_
  · exact hleft.trans (congrArg (· - _) hshares)
  -- the slot still holds the record, erased or not
  rw [hrecords'.2]
  refine (OrderBook.cancelOrder_exact hh.book Fault.book (hh.level_pos ho) ?_).bind
    fun book hbook => ?_
  · rw [hcancelled]
    exact hle.trans hdeep
  refine Exact.pure ⟨hh.of_reduce hn hrecords'.1 ?_, rfl⟩
  rw [Orders.depth_reduce ho hle]
  rw [hcancelled] at hbook
  exact hbook

theorem deleteOrder_exact (hh : Agrees orders h) {message : OrderDeleteMessage}
    (hlive : (orders message.orderReferenceNumber).isSome) :
    Exact (h.deleteOrder message) fun h' =>
      Agrees (Function.update orders message.orderReferenceNumber none) h' ∧
        h'.cacheStockLocate = h.cacheStockLocate := by
  obtain ⟨o, ho⟩ := Option.isSome_iff_exists.mp hlive
  have hshares := hh.record_shares ho
  have hcount := Orders.count_remove orders hlive
  have hfew := hh.few
  refine hh.records.lookup_exact ho fun records s hrecords hcell => ?_
  rw [value_of_cell hcell]
  refine (hrecords.erase_exact hcell).bind ?_
  rintro ⟨_, records'⟩ ⟨herased, -⟩
  refine (OrderBook.cancelOrder_exact hh.book Fault.book (hh.level_pos ho) ?_).bind
    fun book hbook => ?_
  · exact hshares.trans_le (Orders.shares_le_depth ho)
  refine Exact.pure ⟨⟨herased, ?_, hh.sized.remove _, by omega⟩, rfl⟩
  dsimp only
  rw [Orders.depth_remove ho, ← hshares]
  exact hbook

theorem replaceOrder_exact (hh : Agrees orders h) {message : OrderReplaceMessage}
    (hm : (Message.orderReplace message).Valid orders) :
    Exact (h.replaceOrder message) fun h' =>
      Agrees (orders.replace message) h' ∧ h'.cacheStockLocate = h.cacheStockLocate := by
  obtain ⟨hlive, hnew, hpos⟩ := id hm
  obtain ⟨o, ho⟩ := Option.isSome_iff_exists.mp hlive
  have hshares := hh.record_shares ho
  have hcount := Orders.count_remove orders hlive
  have hfew := hh.few
  have hsized : (orders.replace message).Sized := hh.sized.apply hm
  rw [Orders.replace_of_some ho] at hsized ⊢
  -- with the original order gone the new reference is free, also when it is the same one
  have hfree : (Function.update orders message.originalOrderReferenceNumber none)
      message.newOrderReferenceNumber = none := by
    rcases hnew with hnone | hsame
    · by_cases heq : message.newOrderReferenceNumber = message.originalOrderReferenceNumber
      · rw [heq, Function.update_self]
      · rw [Function.update_of_ne heq, hnone]
    · rw [hsame, Function.update_self]
  have hcount' := Orders.count_add _ hfree ⟨o.side, message.price, message.shares.toNat⟩
  have hdepth := Orders.depth_add hfree ⟨o.side, message.price, message.shares.toNat⟩
  have hbound := Orders.depth_lt hsized (by omega) (o.side, message.price)
  rw [hdepth, Function.update_self] at hbound
  have hnewShares : message.shares.toUInt64.toNat = message.shares.toNat :=
    UInt32.toNat_toUInt64 _
  have hrecord : (⟨o.side, message.price, message.shares.toUInt64⟩ : OrderRecord) =
      Order.record ⟨o.side, message.price, message.shares.toNat⟩ := by
    simp only [Order.record, OrderRecord.mk.injEq, true_and]
    exact UInt64.toNat_inj.mp (by simp)
  refine hh.records.lookup_exact ho fun records s hrecords hcell => ?_
  rw [value_of_cell hcell]
  refine (hrecords.erase_exact hcell).bind ?_
  rintro ⟨_, records'⟩ ⟨herased, -⟩
  change Exact (onRecords (records'.assign message.newOrderReferenceNumber
    ⟨o.side, message.price, message.shares.toUInt64⟩) >>= _) _
  rw [hrecord]
  refine (herased.assign_exact _ (by omega) _).bind ?_
  rintro ⟨_, records''⟩ hassigned
  have hremoved := Orders.depth_remove ho
  rw [← hshares] at hremoved
  refine (OrderBook.replaceOrder_exact hh.book Fault.book hremoved (hh.level_pos ho) ?_ ?_ ?_).bind
    fun book hbook => ?_
  · exact hshares.trans_le (Orders.shares_le_depth ho)
  · rwa [hnewShares]
  · rwa [hnewShares]
  refine Exact.pure ⟨⟨hassigned, ?_, hsized, by omega⟩, rfl⟩
  dsimp only
  rw [hdepth]
  rw [hnewShares] at hbook
  exact hbook

/-- A valid message of the target stock, with room for the orders it leaves, keeps book
and records in agreement with the live orders. -/
theorem simulate_exact (hh : Agrees orders h) {targetStock : Stock} (stockLocate : UInt16)
    {m : Message} (htarget : m.OfStock targetStock) (hm : m.Valid orders)
    (hfew : (m.apply orders).count ≤ 65536) :
    Exact (h.simulate targetStock stockLocate m) fun h' => Agrees (m.apply orders) h' ∧
      h'.cacheStockLocate = if m.isAdd then stockLocate else h.cacheStockLocate := by
  cases m with
  | addOrder message => exact hh.addOrder_exact stockLocate htarget hm.1 hm.2 hfew
  | addOrderMPID message => exact hh.addOrder_exact stockLocate htarget hm.1 hm.2 hfew
  | orderExecuted message => exact hh.executeOrder_exact hm
  | orderExecutedWithPrice message => exact hh.executeOrder_exact hm
  | orderCancel message => exact hh.cancelOrder_exact hm
  | orderDelete message => exact hh.deleteOrder_exact hm
  | orderReplace message => exact hh.replaceOrder_exact hm

end Agrees

/-! ## Sequences of messages -/

/-- A message together with the locate code of its header. -/
abbrev Located := UInt16 × Message

def Handler.simulateAll (targetStock : Stock) (h : Handler) (messages : List Located) :
    Noting Fault Handler :=
  messages.foldlM (fun h m => h.simulate targetStock m.1 m.2) h

/-- The live orders after a sequence of messages of one stock. -/
def Orders.after (orders : Orders) (messages : List Located) : Orders :=
  messages.foldl (fun orders m => m.2.apply orders) orders

/-- Messages of the target stock, each valid when it comes, with at most 65536 orders live. -/
def ValidSequence (targetStock : Stock) : Orders → List Located → Prop
  | _, [] => True
  | orders, m :: messages => m.2.OfStock targetStock ∧ m.2.Valid orders ∧
      (m.2.apply orders).count ≤ 65536 ∧ ValidSequence targetStock (m.2.apply orders) messages

theorem Orders.count_after_le (orders : Orders) (messages : List Located) :
    (orders.after messages).count ≤ orders.count + messages.length := by
  induction messages generalizing orders with
  | nil => exact Nat.le_refl _
  | cons m messages ih =>
    have hone := orders.count_apply_le m.2
    have hrest := ih (m.2.apply orders)
    rw [List.length_cons]
    exact hrest.trans (by omega)

theorem ValidSequence.take {targetStock : Stock} {orders : Orders} {messages : List Located}
    (h : ValidSequence targetStock orders messages) (k : ℕ) :
    ValidSequence targetStock orders (messages.take k) := by
  induction messages generalizing orders k with
  | nil => simpa using h
  | cons m messages ih =>
    cases k with
    | zero => exact trivial
    | succ k => exact ⟨h.1, h.2.1, h.2.2.1, ih h.2.2.2 k⟩

theorem simulateAll_exact {targetStock : Stock} {orders : Orders} {messages : List Located}
    (hvalid : ValidSequence targetStock orders messages) {h : Handler} (hh : Agrees orders h) :
    Exact (h.simulateAll targetStock messages) (Agrees (orders.after messages)) := by
  induction messages generalizing orders h with
  | nil => exact Exact.pure hh
  | cons m messages ih =>
    obtain ⟨htarget, hm, hfew, hrest⟩ := hvalid
    unfold Handler.simulateAll
    rw [List.foldlM_cons]
    refine (hh.simulate_exact m.1 htarget hm hfew).bind fun h' hh' => ?_
    exact ih hrest hh'.1

/-- The records at one side and price. -/
def recordsByLevel : GroupTotals.Grouping OrderRecord (Side × Price) :=
  ⟨fun record => (record.side, record.price), fun record => record.shares.toNat⟩

/-- The book has the levels of the live records, each with the sum of their shares. -/
structure Handler.BookMatchesRecords (h : Handler) : Prop where
  level_iff : ∀ side price, (h.orderBook.getOrderSide side)[price]?.isSome ↔
    ∃ r record, h.orderRecords.entries r = some record ∧ record.side = side ∧ record.price = price
  level_sum : ∀ side price shares, (h.orderBook.getOrderSide side)[price]? = some shares →
    shares.toNat = recordsByLevel.total h.orderRecords.entries (side, price)
  shares_pos : ∀ r record, h.orderRecords.entries r = some record → 0 < record.shares.toNat

section Matches
variable {orders : Orders} {h : Handler}

theorem Agrees.total_records (hh : Agrees orders h) :
    recordsByLevel.total h.orderRecords.entries = orders.depth := by
  rw [hh.records.entries]
  refine (recordsByLevel.total_map Order.record orders).trans ?_
  exact GroupTotals.Grouping.total_congr _ fun r o ho => ⟨rfl, hh.record_shares ho⟩

theorem Agrees.entries_eq_some (hh : Agrees orders h) {r : UInt64} {record : OrderRecord} :
    h.orderRecords.entries r = some record ↔ ∃ o, orders r = some o ∧ o.record = record := by
  rw [hh.records.entries]
  exact Option.map_eq_some_iff

theorem Agrees.bookMatchesRecords (hh : Agrees orders h) : h.BookMatchesRecords where
  level_iff side price := by
    rcases hh.book side price with ⟨hzero, hnone⟩ | ⟨hpos, hsome⟩
    · rw [hnone]
      constructor
      · intro hfalse
        cases hfalse
      · rintro ⟨r, record, hentry, rfl, rfl⟩
        obtain ⟨o, ho, rfl⟩ := hh.entries_eq_some.mp hentry
        exact absurd hzero (hh.level_pos ho).ne'
    · obtain ⟨level, hlevel, -⟩ := Option.map_eq_some_iff.mp hsome
      refine iff_of_true (by rw [hlevel]; rfl) ?_
      -- a level without orders would have no shares
      by_contra hnone
      refine hpos.ne' (GroupTotals.Grouping.total_eq_zero.mpr fun r o ho hlevel => ?_)
      obtain ⟨hside, hprice⟩ := Prod.mk.inj hlevel
      exact absurd ⟨r, o.record, hh.entries_eq_some.mpr ⟨o, ho, rfl⟩, hside, hprice⟩ hnone
  level_sum side price shares hlevel := by
    rw [hh.total_records]
    rcases hh.book side price with ⟨-, hnone⟩ | ⟨-, hsome⟩
    · rw [hnone] at hlevel
      cases hlevel
    · rw [hlevel] at hsome
      exact Option.some.inj hsome
  shares_pos r record hentry := by
    obtain ⟨o, ho, rfl⟩ := hh.entries_eq_some.mp hentry
    exact (hh.sized r o ho).1.trans_eq (hh.record_shares ho).symm

end Matches

/-- Every valid sequence of messages runs without a fault and without a wrapped addition
or subtraction, and after each of its messages the records hold the live orders and the
book matches the records. -/
theorem book_matches_records (targetStock : Stock) (cacheStockLocate : UInt16)
    (messages : List Located) (hvalid : ValidSequence targetStock Orders.empty messages) (k : ℕ) :
    ∃ h, (Handler.fresh cacheStockLocate).simulateAll targetStock (messages.take k) false =
        .ok (h, false) ∧
      h.orderRecords.entries = (Orders.empty.after (messages.take k)).records ∧
      h.BookMatchesRecords := by
  obtain ⟨h, hrun, hh⟩ := simulateAll_exact (hvalid.take k) (Agrees.fresh cacheStockLocate)
  exact ⟨h, hrun, hh.records.entries, hh.bookMatchesRecords⟩

def tsla : Stock := #v['T'.toUInt8, 'S'.toUInt8, 'L'.toUInt8, 'A'.toUInt8, ' '.toUInt8, ' '.toUInt8,
  ' '.toUInt8, ' '.toUInt8]

/-- Both kinds of add, a partial execution, a replacement at the same price, a
cancellation of all that is left, and a delete. -/
def tslaMessages : List Located :=
  [(7, .addOrder ⟨1, 'B'.toUInt8, 100, tsla, 50⟩), (7, .addOrderMPID ⟨2, 'S'.toUInt8, 10, tsla, 60⟩),
    (7, .orderExecuted ⟨1, 40⟩), (7, .orderReplace ⟨1, 3, 20, 50⟩), (7, .orderCancel ⟨3, 20⟩),
    (7, .orderDelete ⟨2⟩)]

theorem tslaMessages_valid : ValidSequence tsla Orders.empty tslaMessages := by
  have hfew : ∀ k ≤ 6, (Orders.empty.after (tslaMessages.take k)).count ≤ 65536 := by
    intro k hk
    refine (Orders.empty.count_after_le _).trans ?_
    rw [Orders.count_empty, List.length_take]
    omega
  exact ⟨rfl, ⟨rfl, by decide⟩, hfew 1 (by decide), rfl, ⟨rfl, by decide⟩, hfew 2 (by decide),
    trivial, ⟨_, rfl, by decide⟩, hfew 3 (by decide), trivial, ⟨rfl, Or.inl rfl, by decide⟩,
    hfew 4 (by decide), trivial, ⟨_, rfl, by decide⟩, hfew 5 (by decide), trivial, rfl,
    hfew 6 (by decide), trivial⟩

theorem tslaMessages_match : ∃ h, (Handler.fresh 0).simulateAll tsla (tslaMessages.take 4) false =
      .ok (h, false) ∧
    h.orderRecords.entries = (Orders.empty.after (tslaMessages.take 4)).records ∧
    h.BookMatchesRecords :=
  book_matches_records tsla 0 tslaMessages tslaMessages_valid 4

end ItchOrderBook.MarketData

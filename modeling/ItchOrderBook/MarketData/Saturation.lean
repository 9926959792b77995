import ItchOrderBook.MarketData.BookAgreement
import ItchOrderBook.Util.Lookups
import ItchOrderBook.Util.OpenAddressMapRehash

/-! # A full order map

What is left behind when `order_records_` has no room for an order, and why a replace
always finds room.
-/
namespace ItchOrderBook.MarketData
open ExactArithmetic Util Book OpenAddressMap

/-! ## Adding -/

/-- `add_order` with the members it leaves, also where it throws. -/
def Handler.addOrderLeaving (targetStock : Stock) (h : Handler) (stockLocate : UInt16)
    (message : AddOrderMessage) (wraps : Bool) : Except Fault Bool × Handler :=
  if message.stock ≠ targetStock then (.ok wraps, h)
  else
    let h := { h with cacheStockLocate := stockLocate }
    let side := if message.buySellIndicator = 'B'.toUInt8 then Side.buy else Side.sell
    match h.orderRecords.assign message.orderReferenceNumber
        ⟨side, message.price, message.shares.toUInt64⟩ with
    | (.error fault, orderRecords) => (.error (.records fault), { h with orderRecords })
    | (.ok (), orderRecords) =>
      match h.orderBook.addOrder side message.price message.shares.toUInt64 wraps with
      | .error fault => (.error fault, { h with orderRecords })
      | .ok (orderBook, wraps) => (.ok wraps, { h with orderRecords, orderBook })

/-- Where `add_order` returns, that is what it returns. -/
theorem Handler.addOrder_eq (targetStock : Stock) (h : Handler) (stockLocate : UInt16)
    (message : AddOrderMessage) (wraps : Bool) :
    h.addOrder targetStock stockLocate message wraps =
      match h.addOrderLeaving targetStock stockLocate message wraps with
      | (.ok wraps, h) => .ok (h, wraps)
      | (.error fault, _) => .error fault := by
  unfold addOrder addOrderLeaving
  by_cases hstock : message.stock ≠ targetStock
  · simp only [if_pos hstock]
    rfl
  · simp only [if_neg hstock, onRecords]
    generalize h.orderRecords.assign message.orderReferenceNumber _ = assigned
    obtain ⟨result, orderRecords⟩ := assigned
    cases result with
    | error fault => rfl
    | ok u =>
      simp only [bind_apply, pure_apply]
      cases (h.orderBook.addOrder _ message.price message.shares.toUInt64 : Noting Fault _) wraps with
      | error fault => rfl
      | ok added => rfl

/-- `add_order` throws only where `order_records_` has no slot for the order, and then it
has changed neither the records nor the book. -/
theorem Handler.addOrderLeaving_error {targetStock : Stock} {h : Handler} {stockLocate : UInt16}
    {message : AddOrderMessage} {wraps : Bool} (hrecords : h.orderRecords.Sound) {fault : Fault}
    (hthrows : (h.addOrderLeaving targetStock stockLocate message wraps).1 = .error fault) :
    (h.addOrderLeaving targetStock stockLocate message wraps).2.orderRecords = h.orderRecords ∧
      (h.addOrderLeaving targetStock stockLocate message wraps).2.orderBook = h.orderBook := by
  have hkept : ∀ record fault, (h.orderRecords.assign message.orderReferenceNumber record).1 =
      .error fault →
      (h.orderRecords.assign message.orderReferenceNumber record).2 = h.orderRecords := by
    intro record fault herror
    rw [assign_throws hrecords herror]
  unfold addOrderLeaving at hthrows ⊢
  by_cases hstock : message.stock ≠ targetStock
  · rw [if_pos hstock] at hthrows
    cases hthrows
  · simp only [if_neg hstock] at hthrows ⊢
    split at hthrows
    · rename_i heq
      have hleft := hkept _ _ (congrArg Prod.fst heq)
      rw [heq] at hleft
      exact ⟨hleft, rfl⟩
    · split at hthrows
      · rename_i hadd
        exact (h.orderBook.addOrder_faults _ _ _ _ _ hadd).elim
      · cases hthrows

/-! ## Replacing -/

theorem onRecords_of_ok {α : Type} {r : Except MapFault α × OrderRecords} {a : α}
    (h : r.1 = .ok a) : onRecords r = pure (a, r.2) := by
  unfold onRecords
  rw [h]

/-- A replace of a live order puts the new order where at least the old one's slot is free. -/
theorem Handler.replaceOrder_faults {h : Handler} (hrecords : h.orderRecords.Sound)
    {message : OrderReplaceMessage}
    (hlive : message.originalOrderReferenceNumber ∈ h.orderRecords.liveKeys) :
    Faults (h.replaceOrder message) fun fault => fault = .book .missingLevel := by
  obtain ⟨s, v, hfind, hcell⟩ := find_reached ((reached_iff hrecords).mpr hlive)
  let found := (h.orderRecords.find message.originalOrderReferenceNumber).2
  have hfound : found.Sound := sound_of_table hrecords (find_table _ _)
  have hburied : (found.bury s).Sound := bury_sound hfound s
  have hfree : ((found.bury s).table s).state ≠ .occupied := by simp [bury]
  have herase : (found.eraseHandle (some s)).1 = .ok () := rfl
  have hassign : ∀ record,
      ((found.bury s).assign message.newOrderReferenceNumber record).1 = .ok () :=
    fun record => assign_of_room hburied record hfree
  unfold replaceOrder
  simp only [onRecords_of_ok hfind, pure_bind, dereference]
  change Faults (onRecords (found.eraseHandle (some s)) >>= _) _
  rw [onRecords_of_ok herase, pure_bind]
  change Faults (onRecords ((found.bury s).assign _ _) >>= _) _
  rw [onRecords_of_ok (hassign _), pure_bind]
  exact (h.orderBook.replaceOrder_faults _ _ _ _ _ _).bind fun _ => .pure _

/-! ## The records of a handler -/

/-- The records are in a state that calls of the map's members reach. -/
def Recorded (records : OrderRecords) : Prop := ∃ calls, records = reached linearProbe false calls

section Records
variable {records : OrderRecords} {s : Fin (2 ^ 16)}

theorem Recorded.sound (h : Recorded records) : records.Sound := by
  obtain ⟨calls, rfl⟩ := h
  exact reached_sound calls

theorem Recorded.perform (h : Recorded records) (call : MapCall 16 UInt64 OrderRecord) :
    Recorded (records.perform call) := by
  obtain ⟨calls, rfl⟩ := h
  exact ⟨calls ++ [call], (reached_concat calls call).symm⟩

theorem Recorded.setValue (h : Recorded records) (hs : (records.table s).state = .occupied)
    (record : OrderRecord) : Recorded (records.setValue s record) := by
  have hwrite := h.perform (.write s record)
  dsimp only [OpenAddressMap.perform] at hwrite
  rwa [if_neg (by simp [hs])] at hwrite

theorem Recorded.assign (h : Recorded records) {r : UInt64} {record : OrderRecord}
    (hok : (records.assign r record).1 = .ok ()) : Recorded (records.assign r record).2 := by
  have hsubscript : Recorded (records.subscript r).2 := h.perform (.subscript r)
  cases hr : (records.probeForSlotIdx r).1 with
  | error fault =>
    have herror := subscript_error hr
    unfold OpenAddressMap.assign at hok
    rw [herror] at hok
    cases hok
  | ok i =>
    obtain ⟨hresult, -, htable⟩ := subscript_ok hr
    have hstate : ((records.subscript r).2.table i).state = .occupied := by simp [htable]
    have hwritten := hsubscript.setValue hstate record
    unfold OpenAddressMap.assign
    cases hsub : records.subscript r with
    | mk result left =>
      rw [hsub] at hresult hwritten
      dsimp only at hresult hwritten
      subst hresult
      exact hwritten

/-- The slot a handle leads to is in use. -/
def Points (records : OrderRecords) (orderEntry : Handle 16) : Prop :=
  ∀ s, orderEntry = some s → (records.table s).state = .occupied

theorem Recorded.erase_yields (h : Recorded records) (orderEntry : Handle 16) :
    Yields (onRecords (records.eraseHandle orderEntry)) fun erased => Recorded erased.2 := by
  cases orderEntry with
  | none => exact .throw _
  | some s => exact .pure (h.perform (.eraseHandle s))

theorem Recorded.eraseIf_yields (h : Recorded records) (condition : Bool)
    (orderEntry : Handle 16) : Yields (eraseIf condition records orderEntry) Recorded := by
  unfold eraseIf
  split
  · exact (h.erase_yields orderEntry).bind fun _ herased => .pure herased
  · exact .pure h

theorem Recorded.assign_yields (h : Recorded records) (r : UInt64) (record : OrderRecord) :
    Yields (onRecords (records.assign r record)) fun assigned => Recorded assigned.2 := by
  unfold onRecords
  split
  · rename_i hok
    exact .pure (h.assign hok)
  · exact .throw _

theorem Recorded.find_yields (h : Recorded records) (r : UInt64) :
    Yields (onRecords (records.find r)) fun found => Recorded found.2 ∧ Points found.2 found.1 := by
  unfold onRecords
  split
  · rename_i orderEntry hfind
    refine .pure ⟨h.perform (.find r), ?_⟩
    rintro s rfl
    obtain ⟨-, hlive⟩ := chain_of_find hfind
    rw [find_table]
    exact (Slot.cell_eq_live.mp hlive).1
  · exact .throw _

theorem dereference_yields (orderEntry : Handle 16) :
    Yields (dereference orderEntry) fun s => orderEntry = some s := by
  cases orderEntry with
  | none => exact .throw _
  | some s => exact .pure rfl

end Records

namespace Handler
variable {h : Handler}

theorem addOrder_recorded (hr : Recorded h.orderRecords) (targetStock : Stock)
    (stockLocate : UInt16) (message : AddOrderMessage) :
    Yields (h.addOrder targetStock stockLocate message) fun h' => Recorded h'.orderRecords := by
  unfold addOrder
  split
  · exact .pure hr
  · refine (hr.assign_yields _ _).bind fun assigned hassigned => ?_
    exact (Yields.trivial _).bind fun _ _ => .pure hassigned

theorem executeOrder_recorded (hr : Recorded h.orderRecords) (message : OrderExecutedMessage) :
    Yields (h.executeOrder message) fun h' => Recorded h'.orderRecords := by
  refine (hr.find_yields _).bind fun found ⟨hfound, hpoints⟩ => ?_
  refine (dereference_yields _).bind fun s hs => ?_
  refine (Yields.trivial _).bind fun shares _ => ?_
  refine (Yields.trivial _).bind fun orderBook _ => ?_
  have hwritten := hfound.setValue (hpoints s hs) { (found.2.table s).value with shares }
  refine (hwritten.eraseIf_yields _ _).bind fun orderRecords herased => ?_
  exact .pure herased

theorem cancelOrder_recorded (hr : Recorded h.orderRecords) (message : OrderCancelMessage) :
    Yields (h.cancelOrder message) fun h' => Recorded h'.orderRecords := by
  refine (hr.find_yields _).bind fun found ⟨hfound, hpoints⟩ => ?_
  refine (dereference_yields _).bind fun s hs => ?_
  refine (Yields.trivial _).bind fun shares _ => ?_
  have hwritten := hfound.setValue (hpoints s hs) { (found.2.table s).value with shares }
  refine (hwritten.eraseIf_yields _ _).bind fun orderRecords herased => ?_
  exact (Yields.trivial _).bind fun _ _ => .pure herased

theorem deleteOrder_recorded (hr : Recorded h.orderRecords) (message : OrderDeleteMessage) :
    Yields (h.deleteOrder message) fun h' => Recorded h'.orderRecords := by
  refine (hr.find_yields _).bind fun found ⟨hfound, _⟩ => ?_
  refine (dereference_yields _).bind fun s _ => ?_
  refine (hfound.erase_yields _).bind fun erased herased => ?_
  exact (Yields.trivial _).bind fun _ _ => .pure herased

theorem replaceOrder_recorded (hr : Recorded h.orderRecords) (message : OrderReplaceMessage) :
    Yields (h.replaceOrder message) fun h' => Recorded h'.orderRecords := by
  refine (hr.find_yields _).bind fun found ⟨hfound, _⟩ => ?_
  refine (dereference_yields _).bind fun s _ => ?_
  refine (hfound.erase_yields _).bind fun erased herased => ?_
  refine (herased.assign_yields _ _).bind fun assigned hassigned => ?_
  exact (Yields.trivial _).bind fun _ _ => .pure hassigned

/-- Whatever messages a handler is given, its records are in a reached state. -/
theorem simulate_recorded (hr : Recorded h.orderRecords) (targetStock : Stock)
    (stockLocate : UInt16) (message : Message) :
    Yields (h.simulate targetStock stockLocate message) fun h' => Recorded h'.orderRecords := by
  cases message with
  | addOrder message => exact addOrder_recorded hr targetStock stockLocate message
  | addOrderMPID message => exact addOrder_recorded hr targetStock stockLocate message
  | orderExecuted message => exact executeOrder_recorded hr message
  | orderExecutedWithPrice message => exact executeOrder_recorded hr message
  | orderCancel message => exact cancelOrder_recorded hr message
  | orderDelete message => exact deleteOrder_recorded hr message
  | orderReplace message => exact replaceOrder_recorded hr message

theorem simulateAll_recorded (hr : Recorded h.orderRecords) (targetStock : Stock)
    (messages : List Located) :
    Yields (h.simulateAll targetStock messages) fun h' => Recorded h'.orderRecords := by
  induction messages generalizing h with
  | nil => exact .pure hr
  | cons m messages ih =>
    unfold simulateAll
    rw [List.foldlM_cons]
    exact (simulate_recorded hr targetStock m.1 m.2).bind fun h' hr' => ih hr'

end Handler

/-! ## Saturation -/

/-- `operator[]` throws exactly when as many other keys are live as there are slots, and
leaves the map as it was. So an add that throws leaves the records and the book as they
were, and a replace of a live order does not throw. -/
theorem saturation_exact :
    (∀ (bits : ℕ) (Key Value : Type) [DecidableEq Key] [SizeKey Key] [Inhabited Key]
      [Inhabited Value] (probe : Probe) (calls : List (MapCall bits Key Value)) (key : Key),
      let m := reached probe false calls
      ((∃ fault, (m.subscript key).1 = .error fault) ↔
        m.liveKeys.ncard = 2 ^ bits ∧ key ∉ m.liveKeys) ∧
      ∀ fault, (m.subscript key).1 = .error fault → m.subscript key = (.error .saturated, m)) ∧
    (∀ h : Handler, Recorded h.orderRecords →
      (∀ targetStock stockLocate message wraps fault,
        (h.addOrderLeaving targetStock stockLocate message wraps).1 = .error fault →
        (h.addOrderLeaving targetStock stockLocate message wraps).2.orderRecords = h.orderRecords ∧
        (h.addOrderLeaving targetStock stockLocate message wraps).2.orderBook = h.orderBook) ∧
      ∀ message, message.originalOrderReferenceNumber ∈ h.orderRecords.liveKeys →
        ∀ wraps fault, h.replaceOrder message wraps ≠ .error (.records fault)) ∧
    ∀ (cacheStockLocate : UInt16) (targetStock : Stock) (messages : List Located) h wraps,
      (Handler.fresh cacheStockLocate).simulateAll targetStock messages false = .ok (h, wraps) →
      Recorded h.orderRecords := by
  refine ⟨?_, ?_, ?_⟩
  · intro bits Key Value _ _ _ _ probe calls key m
    have hm : m.Sound := reached_sound calls
    exact ⟨subscript_throws_iff hm key, fun fault hthrows => (subscript_throws hm hthrows).2⟩
  · intro h hr
    constructor
    · intro targetStock stockLocate message wraps fault hthrows
      exact Handler.addOrderLeaving_error hr.sound hthrows
    · intro message hlive wraps fault herror
      have hbook := Handler.replaceOrder_faults hr.sound hlive wraps _ herror
      cases hbook
  · intro cacheStockLocate targetStock messages h wraps hrun
    have hfresh : Recorded (Handler.fresh cacheStockLocate).orderRecords := ⟨[], rfl⟩
    exact Handler.simulateAll_recorded hfresh targetStock messages false h wraps hrun

/-- A third key for a table of two. -/
theorem fullCalls_saturated :
    let m : OpenAddressMap 1 UInt64 ℕ linearProbe false := reached linearProbe false fullCalls
    m.liveKeys.ncard = 2 ∧ 2 ∉ m.liveKeys ∧ m.subscript 2 = (.error .saturated, m) := by
  intro m
  obtain ⟨hthrows, hleft⟩ := saturation_exact.1 1 UInt64 ℕ linearProbe fullCalls 2
  have hthrown : (m.subscript 2).1 = .error .saturated := by decide
  obtain ⟨hfull, hnew⟩ := hthrows.mp ⟨_, hthrown⟩
  exact ⟨hfull, hnew, hleft _ hthrown⟩

end ItchOrderBook.MarketData

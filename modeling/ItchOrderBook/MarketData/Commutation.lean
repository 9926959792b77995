import ItchOrderBook.MarketData.BookAgreement
import ItchOrderBook.Foundation.Reordering

/-! # Independent orders commute

A message reads and changes the orders it names only, so the live orders after a sequence
of messages do not depend on the order of those that name different ones. The live orders
decide the records and the book.
-/
namespace ItchOrderBook.MarketData
open Reordering Book

/-- The reference numbers a message names. -/
def Message.references : Message → Set UInt64
  | .addOrder message | .addOrderMPID message => {message.orderReferenceNumber}
  | .orderExecuted message | .orderExecutedWithPrice message => {message.orderReferenceNumber}
  | .orderCancel message => {message.orderReferenceNumber}
  | .orderDelete message => {message.orderReferenceNumber}
  | .orderReplace message =>
    {message.originalOrderReferenceNumber, message.newOrderReferenceNumber}

/-- Two messages name a common reference number. -/
def Dependent (m m' : Located) : Prop := ∃ r ∈ m.2.references, r ∈ m'.2.references

theorem update_local (r : UInt64) (x : Option Order) :
    Local {r} fun orders : Orders => Function.update orders r x where
  frame orders k hk := Function.update_of_ne hk x orders
  reads orders orders' _ k hk := by
    obtain rfl := hk
    simp

theorem reduce_local (r : UInt64) (n : ℕ) : Local {r} fun orders : Orders => orders.reduce r n where
  frame orders k hk := by
    have hne : k ≠ r := hk
    unfold Orders.reduce
    cases orders r with
    | none => rfl
    | some o => exact Function.update_of_ne hne _ orders
  reads orders orders' hsame k hk := by
    obtain rfl := hk
    have hk := hsame k rfl
    unfold Orders.reduce
    rw [hk]
    cases orders' k with
    | none => exact hk
    | some o => simp

theorem replace_local (message : OrderReplaceMessage) :
    Local {message.originalOrderReferenceNumber, message.newOrderReferenceNumber}
      fun orders : Orders => orders.replace message where
  frame orders k hk := by
    obtain ⟨horiginal, hnew⟩ := not_or.mp hk
    unfold Orders.replace
    cases orders message.originalOrderReferenceNumber with
    | none => rfl
    | some o =>
      dsimp only
      rw [Function.update_of_ne hnew, Function.update_of_ne horiginal]
  reads orders orders' hsame k hk := by
    have horiginal := hsame message.originalOrderReferenceNumber (Or.inl rfl)
    unfold Orders.replace
    rw [horiginal]
    cases orders' message.originalOrderReferenceNumber with
    | none => exact hsame k hk
    | some o =>
      obtain rfl | rfl := hk
      · simp [Function.update_apply]
      · simp

theorem Message.apply_local (m : Message) : Local m.references fun orders => m.apply orders := by
  cases m with
  | addOrder message => exact update_local _ _
  | addOrderMPID message => exact update_local _ _
  | orderExecuted message => exact reduce_local _ _
  | orderExecutedWithPrice message => exact reduce_local _ _
  | orderCancel message => exact reduce_local _ _
  | orderDelete message => exact update_local _ _
  | orderReplace message => exact replace_local message

theorem Orders.after_reordered {messages messages' : List Located}
    (h : KeepsOrder Dependent messages messages') (orders : Orders) :
    orders.after messages = orders.after messages' := by
  apply h.foldl_eq
  intro m m' hindependent orders
  exact m'.2.apply_local.comm m.2.apply_local (fun r hr' hr => hindependent ⟨r, hr, hr'⟩) orders

/-- From one state, two valid sequences of which one keeps the other's order wherever two
messages name a common reference end with the same records and the same book. -/
theorem independent_orders_commute {targetStock : Stock} {orders : Orders} {h : Handler}
    (hh : Agrees orders h) {messages messages' : List Located}
    (hvalid : ValidSequence targetStock orders messages)
    (hvalid' : ValidSequence targetStock orders messages')
    (hkeeps : KeepsOrder Dependent messages messages') :
    ∃ after after', h.simulateAll targetStock messages false = .ok (after, false) ∧
      h.simulateAll targetStock messages' false = .ok (after', false) ∧
      after.orderRecords.entries = after'.orderRecords.entries ∧
      after.orderBook = after'.orderBook := by
  obtain ⟨after, hrun, hafter⟩ := simulateAll_exact hvalid hh
  obtain ⟨after', hrun', hafter'⟩ := simulateAll_exact hvalid' hh
  have hsame := Orders.after_reordered hkeeps orders
  refine ⟨after, after', hrun, hrun', ?_, ?_⟩
  · rw [hafter.records.entries, hafter'.records.entries, hsame]
  · rw [← hsame] at hafter'
    exact hafter.book.unique hafter'.book

/-- The level of order 1 is erased before order 2 comes to it, or kept. -/
def erasedMessages : List Located :=
  [(7, .addOrder ⟨1, 'B'.toUInt8, 100, tsla, 50⟩), (7, .orderExecuted ⟨1, 100⟩),
    (7, .addOrder ⟨2, 'B'.toUInt8, 10, tsla, 50⟩)]

def keptMessages : List Located :=
  [(7, .addOrder ⟨1, 'B'.toUInt8, 100, tsla, 50⟩), (7, .addOrder ⟨2, 'B'.toUInt8, 10, tsla, 50⟩),
    (7, .orderExecuted ⟨1, 100⟩)]

theorem count_after_three {messages : List Located} (h : messages.length = 3) (k : ℕ) :
    (Orders.empty.after (messages.take k)).count ≤ 65536 := by
  have hcount := Orders.empty.count_after_le (messages.take k)
  have hlength := List.length_take_le' k messages
  rw [Orders.count_empty] at hcount
  omega

theorem erasedMessages_valid : ValidSequence tsla Orders.empty erasedMessages := by
  have hfew := @count_after_three erasedMessages rfl
  exact ⟨rfl, ⟨rfl, by decide⟩, hfew 1, trivial, ⟨_, rfl, by decide⟩, hfew 2, rfl,
    ⟨rfl, by decide⟩, hfew 3, trivial⟩

theorem keptMessages_valid : ValidSequence tsla Orders.empty keptMessages := by
  have hfew := @count_after_three keptMessages rfl
  exact ⟨rfl, ⟨rfl, by decide⟩, hfew 1, rfl, ⟨rfl, by decide⟩, hfew 2, trivial,
    ⟨_, rfl, by decide⟩, hfew 3, trivial⟩

theorem kept_keepsOrder : KeepsOrder Dependent erasedMessages keptMessages := by
  have hindependent : ¬ Dependent (7, .addOrder ⟨2, 'B'.toUInt8, 10, tsla, 50⟩)
      (7, .orderExecuted ⟨1, 100⟩) := by
    simp [Dependent, Message.references]
  refine ⟨[(erasedMessages[0], 0), (erasedMessages[2], 2), (erasedMessages[1], 1)], ?_, rfl, ?_⟩
  · exact (List.Perm.swap _ _ []).cons _
  · simp [erasedMessages, hindependent]

theorem erased_kept_commute : ∃ after after',
    (Handler.fresh 0).simulateAll tsla erasedMessages false = .ok (after, false) ∧
      (Handler.fresh 0).simulateAll tsla keptMessages false = .ok (after', false) ∧
      after.orderRecords.entries = after'.orderRecords.entries ∧
      after.orderBook = after'.orderBook :=
  independent_orders_commute (Agrees.fresh 0) erasedMessages_valid keptMessages_valid
    kept_keepsOrder

end ItchOrderBook.MarketData

import ItchOrderBook.MarketData.Handler
import ItchOrderBook.Foundation.GroupTotals
import Mathlib.Data.FinEnum

/-! # Live orders

What the messages of one stock mean: the orders that are live after them, with their
shares as natural numbers, and the shares resting at each side and price.
-/
namespace ItchOrderBook.MarketData
open GroupTotals Book

structure Order where
  side : Side
  price : Price
  shares : ℕ

/-- The live orders of a stock by reference number. -/
abbrev Orders := UInt64 → Option Order

def AddOrderMessage.order (message : AddOrderMessage) : Order where
  side := if message.buySellIndicator = 'B'.toUInt8 then .buy else .sell
  price := message.price
  shares := message.shares.toNat

namespace Orders

def empty : Orders := fun _ => none

/-- Takes `n` shares from an order; it is gone when none are left. -/
def reduce (orders : Orders) (reference : UInt64) (n : ℕ) : Orders :=
  match orders reference with
  | none => orders
  | some o => Function.update orders reference
      (if o.shares = n then none else some { o with shares := o.shares - n })

def replace (orders : Orders) (message : OrderReplaceMessage) : Orders :=
  match orders message.originalOrderReferenceNumber with
  | none => orders
  | some o =>
    Function.update (Function.update orders message.originalOrderReferenceNumber none)
      message.newOrderReferenceNumber (some ⟨o.side, message.price, message.shares.toNat⟩)

noncomputable def count (orders : Orders) : ℕ := {r | (orders r).isSome}.ncard

def byLevel : Grouping Order (Side × Price) := ⟨fun o => (o.side, o.price), Order.shares⟩

/-- The shares resting at each side and price. -/
def depth (orders : Orders) : Side × Price → ℕ := byLevel.total orders

/-- Every live order has 1 to 2^32 - 1 shares. -/
def Sized (orders : Orders) : Prop := ∀ r o, orders r = some o → 0 < o.shares ∧ o.shares < 2 ^ 32

end Orders

/-- The live orders after a message of their stock. -/
def Message.apply (orders : Orders) : Message → Orders
  | .addOrder message | .addOrderMPID message =>
    Function.update orders message.orderReferenceNumber (some message.order)
  | .orderExecuted message | .orderExecutedWithPrice message =>
    orders.reduce message.orderReferenceNumber message.executedShares.toNat
  | .orderCancel message => orders.reduce message.orderReferenceNumber message.cancelledShares.toNat
  | .orderDelete message => Function.update orders message.orderReferenceNumber none
  | .orderReplace message => orders.replace message

/-- An order to take `n` shares from is live and has them. -/
def Orders.HasShares (orders : Orders) (reference : UInt64) (n : ℕ) : Prop :=
  ∃ o, orders reference = some o ∧ n ≤ o.shares

/-- A message may follow when these orders are live. -/
def Message.Valid (orders : Orders) : Message → Prop
  | .addOrder message | .addOrderMPID message =>
    orders message.orderReferenceNumber = none ∧ 0 < message.shares.toNat
  | .orderExecuted message | .orderExecutedWithPrice message =>
    orders.HasShares message.orderReferenceNumber message.executedShares.toNat
  | .orderCancel message =>
    orders.HasShares message.orderReferenceNumber message.cancelledShares.toNat
  | .orderDelete message => (orders message.orderReferenceNumber).isSome
  | .orderReplace message => (orders message.originalOrderReferenceNumber).isSome ∧
      (orders message.newOrderReferenceNumber = none ∨
        message.newOrderReferenceNumber = message.originalOrderReferenceNumber) ∧
      0 < message.shares.toNat

def Message.isAdd : Message → Bool
  | .addOrder _ | .addOrderMPID _ => true
  | _ => false

/-- Only add messages name their stock. -/
def Message.OfStock (stock : Stock) : Message → Prop
  | .addOrder message | .addOrderMPID message => message.stock = stock
  | _ => True

namespace Orders
variable {orders : Orders}

theorem sized_empty : empty.Sized := fun _ _ h => by cases h

@[simp] theorem count_empty : empty.count = 0 := by simp [count, empty]

@[simp] theorem depth_empty : empty.depth = fun _ => 0 := byLevel.total_empty

theorem Sized.update (h : orders.Sized) {r : UInt64} {x : Option Order}
    (hx : ∀ o, x = some o → 0 < o.shares ∧ o.shares < 2 ^ 32) :
    Sized (Function.update orders r x) := by
  intro r' o ho
  by_cases hr : r' = r
  · subst hr
    rw [Function.update_self] at ho
    exact hx o ho
  · rw [Function.update_of_ne hr] at ho
    exact h r' o ho

theorem Sized.remove (h : orders.Sized) (r : UInt64) : Sized (Function.update orders r none) :=
  h.update fun _ ho => by cases ho

theorem reduce_of_some {r : UInt64} {o : Order} (h : orders r = some o) (n : ℕ) :
    orders.reduce r n = Function.update orders r
      (if o.shares = n then none else some { o with shares := o.shares - n }) := by
  simp only [reduce, h]

theorem replace_of_some {message : OrderReplaceMessage} {o : Order}
    (h : orders message.originalOrderReferenceNumber = some o) :
    orders.replace message = Function.update
      (Function.update orders message.originalOrderReferenceNumber none)
      message.newOrderReferenceNumber (some ⟨o.side, message.price, message.shares.toNat⟩) := by
  simp only [replace, h]

theorem Sized.reduce (h : orders.Sized) {r : UInt64} {n : ℕ} (hn : orders.HasShares r n) :
    (orders.reduce r n).Sized := by
  obtain ⟨o, ho, hle⟩ := hn
  obtain ⟨hpos, hlt⟩ := h r o ho
  rw [reduce_of_some ho]
  refine h.update fun o' ho' => ?_
  split at ho'
  · cases ho'
  · obtain rfl := Option.some.inj ho'
    constructor <;> dsimp only <;> omega

/-- A message that is valid keeps the orders within 32 bits. -/
theorem Sized.apply (h : orders.Sized) {m : Message} (hm : m.Valid orders) :
    (m.apply orders).Sized := by
  have hadd : ∀ message : AddOrderMessage, 0 < message.shares.toNat →
      Sized (Function.update orders message.orderReferenceNumber (some message.order)) := by
    intro message hpos
    refine h.update fun o ho => ?_
    obtain rfl := Option.some.inj ho
    exact ⟨hpos, message.shares.toNat_lt⟩
  cases m with
  | addOrder message => exact hadd message hm.2
  | addOrderMPID message => exact hadd message hm.2
  | orderExecuted message => exact h.reduce hm
  | orderExecutedWithPrice message => exact h.reduce hm
  | orderCancel message => exact h.reduce hm
  | orderDelete message => exact h.remove _
  | orderReplace message =>
    obtain ⟨hlive, -, hpos⟩ := hm
    obtain ⟨o, ho⟩ := Option.isSome_iff_exists.mp hlive
    change (orders.replace message).Sized
    rw [replace_of_some ho]
    refine (h.remove _).update fun o' ho' => ?_
    obtain rfl := Option.some.inj ho'
    exact ⟨hpos, message.shares.toNat_lt⟩

/-! ## Depth -/

/-- With at most 65536 orders no level reaches 2^64. -/
theorem depth_lt (h : orders.Sized) (hcount : orders.count ≤ 65536) (l : Side × Price) :
    orders.depth l < 2 ^ 64 := by
  have hle : orders.depth l ≤ orders.count * (2 ^ 32 - 1) := by
    refine Grouping.total_le (fun r o ho => ?_) l
    have hlt := (h r o ho).2
    change o.shares ≤ 2 ^ 32 - 1
    omega
  have hmul : orders.count * (2 ^ 32 - 1) ≤ 65536 * (2 ^ 32 - 1) := Nat.mul_le_mul_right _ hcount
  omega

theorem shares_le_depth {r : UInt64} {o : Order} (h : orders r = some o) :
    o.shares ≤ orders.depth (o.side, o.price) := byLevel.amount_le_total h

theorem depth_add {r : UInt64} (h : orders r = none) (o : Order) :
    depth (Function.update orders r (some o)) = Function.update orders.depth (o.side, o.price)
      (orders.depth (o.side, o.price) + o.shares) := byLevel.total_insert h o

theorem depth_remove {r : UInt64} {o : Order} (h : orders r = some o) :
    depth (Function.update orders r none) = Function.update orders.depth (o.side, o.price)
      (orders.depth (o.side, o.price) - o.shares) := byLevel.total_remove h

theorem depth_reduce {r : UInt64} {o : Order} {n : ℕ} (h : orders r = some o) (hn : n ≤ o.shares) :
    (orders.reduce r n).depth = Function.update orders.depth (o.side, o.price)
      (orders.depth (o.side, o.price) - n) := by
  rw [reduce_of_some h]
  split
  · rename_i hall
    rw [depth_remove h, hall]
  · have hshrink := byLevel.total_shrink (w := { o with shares := o.shares - n }) h rfl
      (Nat.sub_le o.shares n)
    have hback : o.shares - (o.shares - n) = n := by omega
    refine hshrink.trans ?_
    change Function.update orders.depth (o.side, o.price)
      (orders.depth (o.side, o.price) - (o.shares - (o.shares - n))) = _
    rw [hback]

end Orders

end ItchOrderBook.MarketData

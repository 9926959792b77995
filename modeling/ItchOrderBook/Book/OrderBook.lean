import ItchOrderBook.Foundation.ExactArithmetic
import Mathlib.Data.Nat.Notation
import Mathlib.Logic.Function.Basic
import Std.Data.ExtTreeMap.Lemmas

/-! # The order book

Two ordered maps from price to shares, as `book/order_book` computes them. The depth
of a book says how many shares rest at each side and price; a level is there exactly
when that number is not 0.
-/
namespace ItchOrderBook.Book
open ExactArithmetic

inductive Fault
  | missingLevel   -- `collection.end()` was dereferenced
  deriving DecidableEq, Repr

inductive Side
  | buy
  | sell
  deriving DecidableEq, Repr

abbrev Price := UInt32
abbrev Shares := UInt64

/-- `std::map<price_t, shares_t>`. -/
abbrev OrderCollection := Std.ExtTreeMap Price Shares

structure OrderBook where
  buy : OrderCollection
  sell : OrderCollection

instance : Inhabited OrderBook := ⟨⟨∅, ∅⟩⟩

variable {ε : Type}

/-- `collection[price] += shares`; a level that is not there starts at 0. -/
def addShares (collection : OrderCollection) (price : Price) (shares : Shares) :
    Noting ε OrderCollection := do
  let level ← plusAssign (collection[price]?.getD 0) shares
  return collection.insert price level

def removeShares (fault : Fault → ε) (collection : OrderCollection) (price : Price)
    (shares : Shares) : Noting ε OrderCollection :=
  match collection[price]? with
  | none => throw (fault .missingLevel)
  | some second => do
    let second ← minusAssign second shares
    return if second = 0 then collection.erase price else collection.insert price second

namespace OrderBook

def getOrderSide (book : OrderBook) : Side → OrderCollection
  | .buy => book.buy
  | .sell => book.sell

/-- Writes through the reference `get_order_side` returns. -/
def setOrderSide (book : OrderBook) (side : Side) (collection : OrderCollection) : OrderBook :=
  match side with
  | .buy => { book with buy := collection }
  | .sell => { book with sell := collection }

def addOrder (book : OrderBook) (side : Side) (price : Price) (shares : Shares) :
    Noting ε OrderBook := do
  let collection ← addShares (book.getOrderSide side) price shares
  return book.setOrderSide side collection

variable (fault : Fault → ε)

def executeOrder (book : OrderBook) (side : Side) (price : Price) (executedShares : Shares) :
    Noting ε OrderBook := do
  let collection ← removeShares fault (book.getOrderSide side) price executedShares
  return book.setOrderSide side collection

def cancelOrder (book : OrderBook) (side : Side) (price : Price) (cancelledShares : Shares) :
    Noting ε OrderBook := do
  let collection ← removeShares fault (book.getOrderSide side) price cancelledShares
  return book.setOrderSide side collection

def deleteOrder (book : OrderBook) (side : Side) (price : Price) (deletedShares : Shares) :
    Noting ε OrderBook := do
  let collection ← removeShares fault (book.getOrderSide side) price deletedShares
  return book.setOrderSide side collection

def replaceOrder (book : OrderBook) (side : Side) (oldPrice : Price) (oldShares : Shares)
    (newPrice : Price) (newShares : Shares) : Noting ε OrderBook := do
  let orderCollection ← removeShares fault (book.getOrderSide side) oldPrice oldShares
  let orderCollection ← addShares orderCollection newPrice newShares
  return book.setOrderSide side orderCollection

end OrderBook

/-! ## Faults -/

theorem addShares_faults {allowed : ε → Prop} (collection : OrderCollection) (price : Price)
    (shares : Shares) : Faults (addShares collection price shares : Noting ε OrderCollection) allowed :=
  (Faults.plusAssign _ _).bind fun _ => .pure _

/-- Only a level that is not there makes `remove_shares` fail. -/
theorem removeShares_faults (fault : Fault → ε) (collection : OrderCollection) (price : Price)
    (shares : Shares) :
    Faults (removeShares fault collection price shares) fun e => e = fault .missingLevel := by
  unfold removeShares
  split
  · exact .throw rfl
  · exact (Faults.minusAssign _ _).bind fun _ => .pure _

namespace OrderBook
variable (book : OrderBook) (side : Side) (price : Price) (shares : Shares)

/-- `add_order` does not fail. -/
theorem addOrder_faults :
    Faults (book.addOrder side price shares : Noting ε OrderBook) fun _ => False :=
  (addShares_faults _ _ _).bind fun _ => .pure _

theorem replaceOrder_faults (fault : Fault → ε) (newPrice : Price) (newShares : Shares) :
    Faults (book.replaceOrder fault side price shares newPrice newShares)
      fun e => e = fault .missingLevel :=
  (removeShares_faults fault _ _ _).bind fun _ => (addShares_faults _ _ _).bind fun _ => .pure _

end OrderBook

/-! ## Depth -/

/-- A level of `n` shares; there is none if `n` is 0. -/
def Holds (n : ℕ) (level : Option Shares) : Prop :=
  (n = 0 ∧ level = none) ∨ (0 < n ∧ level.map UInt64.toNat = some n)

def OrderCollection.HasDepth (collection : OrderCollection) (depth : Price → ℕ) : Prop :=
  ∀ price, Holds (depth price) collection[price]?

/-- The book rests `depth (side, price)` shares at each side and price. -/
def OrderBook.HasDepth (book : OrderBook) (depth : Side × Price → ℕ) : Prop :=
  ∀ side, OrderCollection.HasDepth (book.getOrderSide side) fun price => depth (side, price)

theorem Holds.toNat {n : ℕ} {level : Option Shares} (h : Holds n level) :
    (level.getD 0).toNat = n := by
  obtain ⟨rfl, rfl⟩ | ⟨-, hs⟩ := h
  · rfl
  · obtain ⟨s, rfl, heq⟩ := Option.map_eq_some_iff.mp hs
    exact heq

theorem Holds.some_of_pos {n : ℕ} {level : Option Shares} (h : Holds n level) (hn : 0 < n) :
    ∃ s, level = some s ∧ s.toNat = n := by
  obtain ⟨rfl, -⟩ | ⟨-, hs⟩ := h
  · exact absurd hn (Nat.lt_irrefl 0)
  · exact Option.map_eq_some_iff.mp hs

theorem Holds.unique {n : ℕ} {level level' : Option Shares} (h : Holds n level)
    (h' : Holds n level') : level = level' := by
  obtain ⟨rfl, rfl⟩ | ⟨hpos, hlevel⟩ := h
  · obtain ⟨-, rfl⟩ | ⟨hpos, -⟩ := h'
    · rfl
    · exact absurd hpos (Nat.lt_irrefl 0)
  · obtain ⟨rfl, -⟩ | ⟨-, hlevel'⟩ := h'
    · exact absurd hpos (Nat.lt_irrefl 0)
    · have hinj : Function.Injective (Option.map UInt64.toNat) :=
        Option.map_injective fun _ _ => UInt64.toNat_inj.mp
      exact hinj (hlevel.trans hlevel'.symm)

/-- A book has one depth, and a depth has one book. -/
theorem OrderBook.HasDepth.unique {book book' : OrderBook} {depth : Side × Price → ℕ}
    (h : book.HasDepth depth) (h' : book'.HasDepth depth) : book = book' := by
  have hside : ∀ side, book.getOrderSide side = book'.getOrderSide side := by
    intro side
    apply Std.ExtTreeMap.ext_getElem?
    intro price
    exact Holds.unique (h side price) (h' side price)
  cases book with
  | mk buy sell =>
    cases book' with
    | mk buy' sell' =>
      have hbuy : buy = buy' := hside .buy
      have hsell : sell = sell' := hside .sell
      rw [hbuy, hsell]

section Collection
variable {collection : OrderCollection} {depth : Price → ℕ}

theorem OrderCollection.HasDepth.update (h : OrderCollection.HasDepth collection depth)
    {collection' : OrderCollection} {price : Price} {n : ℕ} (hself : Holds n collection'[price]?)
    (hother : ∀ p, p ≠ price → collection'[p]? = collection[p]?) :
    OrderCollection.HasDepth collection' (Function.update depth price n) := by
  intro p
  by_cases hp : p = price
  · subst hp
    rwa [Function.update_self]
  · rw [Function.update_of_ne hp, hother p hp]
    exact h p

theorem addShares_exact (h : OrderCollection.HasDepth collection depth) {price : Price}
    {shares : Shares} (hpos : 0 < shares.toNat)
    (hbound : depth price + shares.toNat < 2 ^ 64) :
    Exact (addShares collection price shares : Noting ε OrderCollection) fun collection' =>
      OrderCollection.HasDepth collection'
        (Function.update depth price (depth price + shares.toNat)) := by
  have hlevel : (collection[price]?.getD 0).toNat = depth price := (h price).toNat
  refine (Exact.plusAssign (by omega)).bind fun level hsum => Exact.pure ?_
  refine h.update ?_ fun p hp => ?_
  · refine Or.inr ⟨by omega, ?_⟩
    rw [Std.ExtTreeMap.getElem?_insert_self, Option.map_some, hsum, hlevel]
  · rw [Std.ExtTreeMap.getElem?_insert, if_neg]
    exact fun heq => hp (Std.LawfulEqCmp.eq_of_compare heq).symm

theorem removeShares_exact (h : OrderCollection.HasDepth collection depth) (fault : Fault → ε)
    {price : Price} {shares : Shares} (hpos : 0 < depth price)
    (hle : shares.toNat ≤ depth price) :
    Exact (removeShares fault collection price shares) fun collection' =>
      OrderCollection.HasDepth collection'
        (Function.update depth price (depth price - shares.toNat)) := by
  obtain ⟨second, hsecond, hlevel⟩ := (h price).some_of_pos hpos
  unfold removeShares
  rw [hsecond]
  refine (Exact.minusAssign (by omega)).bind fun left hdiff => Exact.pure ?_
  rw [hlevel] at hdiff
  refine h.update ?_ fun p hp => ?_
  · by_cases hzero : depth price - shares.toNat = 0
    · have hleft : left = 0 := UInt64.toNat_inj.mp (hdiff.trans hzero)
      refine Or.inl ⟨hzero, ?_⟩
      rw [if_pos hleft, Std.ExtTreeMap.getElem?_erase_self]
    · have hleft : left ≠ 0 := by
        rintro rfl
        exact hzero hdiff.symm
      refine Or.inr ⟨Nat.pos_of_ne_zero hzero, ?_⟩
      rw [if_neg hleft, Std.ExtTreeMap.getElem?_insert_self, Option.map_some, hdiff]
  · have hne : ¬ compare price p = .eq := fun heq => hp (Std.LawfulEqCmp.eq_of_compare heq).symm
    split
    · rw [Std.ExtTreeMap.getElem?_erase, if_neg hne]
    · rw [Std.ExtTreeMap.getElem?_insert, if_neg hne]

end Collection

namespace OrderBook
variable {book : OrderBook} {depth : Side × Price → ℕ}

theorem getOrderSide_setOrderSide (book : OrderBook) (side side' : Side)
    (collection : OrderCollection) : (book.setOrderSide side collection).getOrderSide side' =
      if side' = side then collection else book.getOrderSide side' := by
  cases side <;> cases side' <;> rfl

theorem HasDepth.update (h : book.HasDepth depth) {side : Side} {collection : OrderCollection}
    {depth' : Side × Price → ℕ}
    (hside : OrderCollection.HasDepth collection fun p => depth' (side, p))
    (hother : ∀ side' p, side' ≠ side → depth' (side', p) = depth (side', p)) :
    (book.setOrderSide side collection).HasDepth depth' := by
  intro side'
  rw [getOrderSide_setOrderSide]
  by_cases hs : side' = side
  · subst hs
    rw [if_pos rfl]
    exact hside
  · rw [if_neg hs]
    simp only [hother _ _ hs]
    exact h side'

theorem slice_update (depth : Side × Price → ℕ) (side : Side) (price : Price) (n : ℕ) :
    (fun p => Function.update depth (side, price) n (side, p)) =
      Function.update (fun p => depth (side, p)) price n := by
  funext p
  by_cases hp : p = price
  · subst hp
    simp
  · simp [Function.update_of_ne, hp]

/-- Updating one level of one side. -/
theorem HasDepth.update_level (h : book.HasDepth depth) {side : Side} {price : Price} {n : ℕ}
    {collection : OrderCollection} (hside : OrderCollection.HasDepth collection
      (Function.update (fun p => depth (side, p)) price n)) :
    (book.setOrderSide side collection).HasDepth (Function.update depth (side, price) n) := by
  refine h.update ?_ fun side' p hs => ?_
  · rw [slice_update]
    exact hside
  · exact Function.update_of_ne (fun heq => hs (Prod.mk.inj heq).1) _ _

theorem addOrder_exact (h : book.HasDepth depth) {side : Side} {price : Price} {shares : Shares}
    (hpos : 0 < shares.toNat) (hbound : depth (side, price) + shares.toNat < 2 ^ 64) :
    Exact (book.addOrder side price shares : Noting ε OrderBook) fun book' =>
      book'.HasDepth (Function.update depth (side, price) (depth (side, price) + shares.toNat)) := by
  refine (addShares_exact (h side) hpos hbound).bind fun collection hc => Exact.pure ?_
  exact h.update_level hc

/-- Execution, cancellation and deletion all take shares from a level that is there. -/
theorem executeOrder_exact (h : book.HasDepth depth) (fault : Fault → ε) {side : Side}
    {price : Price} {shares : Shares} (hpos : 0 < depth (side, price))
    (hle : shares.toNat ≤ depth (side, price)) :
    Exact (book.executeOrder fault side price shares) fun book' =>
      book'.HasDepth (Function.update depth (side, price) (depth (side, price) - shares.toNat)) := by
  refine (removeShares_exact (h side) fault hpos hle).bind fun collection hc => Exact.pure ?_
  exact h.update_level hc

theorem cancelOrder_exact (h : book.HasDepth depth) (fault : Fault → ε) {side : Side}
    {price : Price} {shares : Shares} (hpos : 0 < depth (side, price))
    (hle : shares.toNat ≤ depth (side, price)) :
    Exact (book.cancelOrder fault side price shares) fun book' =>
      book'.HasDepth (Function.update depth (side, price) (depth (side, price) - shares.toNat)) :=
  executeOrder_exact h fault hpos hle

/-- Both levels of a replacement lie on one side, and may be the same level. -/
theorem replaceOrder_exact (h : book.HasDepth depth) (fault : Fault → ε) {side : Side}
    {oldPrice newPrice : Price} {oldShares newShares : Shares} {depth' : Side × Price → ℕ}
    (hdepth' : depth' = Function.update depth (side, oldPrice)
      (depth (side, oldPrice) - oldShares.toNat))
    (hpos : 0 < depth (side, oldPrice)) (hle : oldShares.toNat ≤ depth (side, oldPrice))
    (hnew : 0 < newShares.toNat) (hbound : depth' (side, newPrice) + newShares.toNat < 2 ^ 64) :
    Exact (book.replaceOrder fault side oldPrice oldShares newPrice newShares) fun book' =>
      book'.HasDepth (Function.update depth' (side, newPrice)
        (depth' (side, newPrice) + newShares.toNat)) := by
  refine (removeShares_exact (h side) fault hpos hle).bind fun removed hr => ?_
  rw [← slice_update, ← hdepth'] at hr
  refine (addShares_exact hr hnew hbound).bind fun collection hc => Exact.pure ?_
  refine h.update ?_ fun side' p hs => ?_
  · rw [slice_update]
    exact hc
  · rw [hdepth', Function.update_of_ne (fun heq => hs (Prod.mk.inj heq).1),
      Function.update_of_ne (fun heq => hs (Prod.mk.inj heq).1)]

end OrderBook

theorem default_hasDepth : (default : OrderBook).HasDepth fun _ => 0 := by
  intro side price
  cases side <;> simp [OrderBook.getOrderSide, Holds, default]

end ItchOrderBook.Book

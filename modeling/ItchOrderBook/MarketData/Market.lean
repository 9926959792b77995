import ItchOrderBook.MarketData.BookAgreement
import ItchOrderBook.MarketData.FrameReading

/-! # The market of a feed

The messages of a feed, the live orders of every stock they leave, and the orders of one
stock that its handler has let pass before it knows the locate code.
-/
namespace ItchOrderBook.MarketData
open ByteOrder Feed Stse

/-! ## Messages of a feed -/

/-- The message of a frame with its locate code, if the type has one. -/
def frameMessage (f : Frame) : Option Located :=
  let header := wireHeader f.body
  (MessageKind.ofType? header.messageType).map fun kind =>
    (header.stockLocate, kind.wire (f.body.drop (sizeOnWire headerViewType)))

def feedMessages (frames : List Frame) : List Located := frames.filterMap frameMessage

def Message.isAddOrder : Message → Bool
  | .addOrder _ => true
  | _ => false

/-- What a message means to a handler, by the filter of `poll`. -/
def Effects.onMessage {H : Type} (E : Effects H) (h : H) (m : Located) : Except Fault H :=
  if m.2.isAddOrder = false ∧ m.1 ≠ E.cacheStockLocate h then .ok h else E.simulate h m.1 m.2

/-- The handler where the messages end or the first fault comes, and that fault. -/
def Effects.runMessages {H : Type} (E : Effects H) : H → List Located → H × Option Fault
  | h, [] => (h, none)
  | h, m :: messages =>
    match E.onMessage h m with
    | .ok h' => E.runMessages h' messages
    | .error fault => (h, some fault)

section Messages
variable {H : Type} (E : Effects H)

theorem messageType_of_ofType? {messageType : UInt8} {kind : MessageKind}
    (h : MessageKind.ofType? messageType = some kind) : messageType = kind.messageType := by
  have hfound := List.find?_some h
  exact (of_decide_eq_true hfound).symm

theorem isAddOrder_wire (bytes : List UInt8) (kind : MessageKind) :
    (kind.wire bytes).isAddOrder = true ↔ kind.messageType = MessageKind.addOrder.messageType := by
  cases kind <;> simp only [MessageKind.wire, Message.isAddOrder] <;> decide

theorem onFrame_eq (h : H) (f : Frame) : E.onFrame h f =
    match frameMessage f with
    | none => .ok h
    | some m => E.onMessage h m := by
  unfold Effects.onFrame frameMessage
  dsimp only
  cases hkind : MessageKind.ofType? (wireHeader f.body).messageType with
  | none =>
    simp only [Option.map_none]
    split <;> rfl
  | some kind =>
    have htype := messageType_of_ofType? hkind
    have hadd := isAddOrder_wire (f.body.drop (sizeOnWire headerViewType)) kind
    rw [← htype, ← Bool.not_eq_false, not_iff_comm] at hadd
    simp only [Option.map_some, Effects.onMessage, ne_eq, hadd]

theorem foldlM_onFrame (h : H) (frames : List Frame) :
    frames.foldlM E.onFrame h = (feedMessages frames).foldlM E.onMessage h := by
  induction frames generalizing h with
  | nil => rfl
  | cons f frames ih =>
    rw [List.foldlM_cons, onFrame_eq, feedMessages, List.filterMap_cons]
    cases hm : frameMessage f with
    | none => exact ih h
    | some m =>
      rw [List.foldlM_cons]
      exact bind_congr fun h' => ih h'

variable {E} {h h' : H} {m : Located} {messages front back : List Located}

theorem runMessages_ok (hm : E.onMessage h m = .ok h') :
    E.runMessages h (m :: messages) = E.runMessages h' messages := by
  simp only [Effects.runMessages, hm]

theorem runMessages_error {fault : Fault} (hm : E.onMessage h m = .error fault) :
    E.runMessages h (m :: messages) = (h, some fault) := by
  simp only [Effects.runMessages, hm]

theorem foldlM_eq_runMessages (h : H) (messages : List Located) :
    messages.foldlM E.onMessage h =
      match (E.runMessages h messages).2 with
      | none => .ok (E.runMessages h messages).1
      | some fault => .error fault := by
  induction messages generalizing h with
  | nil => rfl
  | cons m messages ih =>
    rw [List.foldlM_cons]
    cases hm : E.onMessage h m with
    | error fault =>
      rw [runMessages_error hm]
      rfl
    | ok h' =>
      rw [runMessages_ok hm]
      exact ih h'

theorem foldlM_same (hsame : ∀ m ∈ messages, E.onMessage h m = .ok h) :
    messages.foldlM E.onMessage h = .ok h := by
  induction messages with
  | nil => rfl
  | cons m messages ih =>
    rw [List.forall_mem_cons] at hsame
    rw [List.foldlM_cons, hsame.1]
    exact ih hsame.2

theorem runMessages_append (hfront : front.foldlM E.onMessage h = .ok h') :
    E.runMessages h (front ++ back) = E.runMessages h' back := by
  induction front generalizing h with
  | nil =>
    obtain rfl := Except.ok.inj hfront
    rfl
  | cons m front ih =>
    rw [List.foldlM_cons] at hfront
    cases hm : E.onMessage h m with
    | error fault =>
      rw [hm] at hfront
      cases hfront
    | ok h₁ =>
      rw [hm] at hfront
      rw [List.cons_append, runMessages_ok hm]
      exact ih hfront

end Messages

/-! ## Orders of every stock -/

/-- The live orders of each stock, by its locate code. -/
abbrev Market := UInt16 → Orders

namespace Market

def empty : Market := fun _ => Orders.empty

def apply (market : Market) (m : Located) : Market :=
  Function.update market m.1 (m.2.apply (market m.1))

def after (market : Market) (messages : List Located) : Market := messages.foldl apply market

@[simp] theorem after_nil (market : Market) : market.after [] = market := rfl

@[simp] theorem after_cons (market : Market) (m : Located) (messages : List Located) :
    market.after (m :: messages) = (market.apply m).after messages := rfl

theorem after_append (market : Market) (front back : List Located) :
    market.after (front ++ back) = (market.after front).after back := List.foldl_append

theorem apply_self (market : Market) {m : Located} {locate : UInt16} (h : m.1 = locate) :
    market.apply m locate = m.2.apply (market locate) := by
  subst h
  exact Function.update_self ..

theorem apply_other (market : Market) {m : Located} {locate : UInt16} (h : m.1 ≠ locate) :
    market.apply m locate = market locate := Function.update_of_ne h.symm ..

end Market

/-- The stock an add message names. -/
def Message.stock? : Message → Option Stock
  | .addOrder message | .addOrderMPID message => some message.stock
  | _ => none

/-- The order a message changes. -/
def Message.named : Message → Option UInt64
  | .addOrder _ | .addOrderMPID _ => none
  | .orderExecuted message | .orderExecutedWithPrice message => some message.orderReferenceNumber
  | .orderCancel message => some message.orderReferenceNumber
  | .orderDelete message => some message.orderReferenceNumber
  | .orderReplace message => some message.originalOrderReferenceNumber

/-- Each message is valid for the stock of its locate code when it comes, and the stock at
`locate` has never more than 65536 live orders. -/
def ValidFeed (locate : UInt16) : Market → List Located → Prop
  | _, [] => True
  | market, m :: messages => m.2.Valid (market m.1) ∧ (market.apply m locate).count ≤ 65536 ∧
      ValidFeed locate (market.apply m) messages

/-- An ITCH-valid feed, with the locate code of each stock. New reference numbers need be
fresh among the live orders of their stock only, and other stocks' codes differ from the
target's. -/
structure ItchValid (code : Stock → UInt16) (targetStock : Stock) (messages : List Located) :
    Prop where
  coded : ∀ m ∈ messages, ∀ stock, m.2.stock? = some stock → m.1 = code stock
  distinct : ∀ m ∈ messages, ∀ stock, m.2.stock? = some stock → code stock = code targetStock →
    stock = targetStock
  valid : ValidFeed (code targetStock) Market.empty messages

/-- Each message is valid for the stock of its locate code when it comes. -/
def ValidMarket : Market → List Located → Prop
  | _, [] => True
  | market, m :: messages => m.2.Valid (market m.1) ∧ ValidMarket (market.apply m) messages

/-- An ITCH-valid feed, whatever the number of live orders. -/
structure ItchFeed (code : Stock → UInt16) (targetStock : Stock) (messages : List Located) :
    Prop where
  coded : ∀ m ∈ messages, ∀ stock, m.2.stock? = some stock → m.1 = code stock
  distinct : ∀ m ∈ messages, ∀ stock, m.2.stock? = some stock → code stock = code targetStock →
    stock = targetStock
  valid : ValidMarket Market.empty messages

theorem ValidFeed.validMarket {locate : UInt16} {market : Market} {messages : List Located}
    (h : ValidFeed locate market messages) : ValidMarket market messages := by
  induction messages generalizing market with
  | nil => trivial
  | cons m messages ih => exact ⟨h.1, ih h.2.2⟩

theorem ItchValid.itchFeed {code : Stock → UInt16} {targetStock : Stock} {messages : List Located}
    (h : ItchValid code targetStock messages) : ItchFeed code targetStock messages :=
  ⟨h.coded, h.distinct, h.valid.validMarket⟩

theorem ItchFeed.stock_iff {code : Stock → UInt16} {targetStock : Stock} {messages : List Located}
    (h : ItchFeed code targetStock messages) : ∀ m ∈ messages, ∀ stock,
      m.2.stock? = some stock → (m.1 = code targetStock ↔ stock = targetStock) := by
  intro m hm stock hs
  rw [h.coded m hm stock hs]
  exact ⟨h.distinct m hm stock hs, fun heq => by rw [heq]⟩

theorem ValidFeed.append {locate : UInt16} {market : Market} {front back : List Located}
    (h : ValidFeed locate market (front ++ back)) : ValidFeed locate (market.after front) back := by
  induction front generalizing market with
  | nil => exact h
  | cons m front ih => exact ih h.2.2

/-! ## Orders lost to the filter -/

/-- An 'A' message of the target stock, the first of which tells the handler its code. -/
def opens (targetStock : Stock) (m : Located) : Bool :=
  m.2.isAddOrder && decide (m.2.stock? = some targetStock)

/-- The messages before the first 'A' of the target stock. -/
def before (targetStock : Stock) (messages : List Located) : List Located :=
  messages.takeWhile fun m => !opens targetStock m

/-- The messages from the first 'A' of the target stock on. -/
def sinceOpened (targetStock : Stock) (messages : List Located) : List Located :=
  messages.dropWhile fun m => !opens targetStock m

/-- The orders of the stock at `locate` that are live when its first 'A' comes. -/
def lost (targetStock : Stock) (locate : UInt16) (messages : List Located) : Orders :=
  Market.empty.after (before targetStock messages) locate

/-- A message for the stock at `locate` changes one of these orders. -/
def NamesOneOf (orders : Orders) (locate : UInt16) (messages : List Located) : Prop :=
  ∃ m ∈ messages, m.1 = locate ∧ ∃ r, m.2.named = some r ∧ orders r ≠ none

theorem before_append (targetStock : Stock) (messages : List Located) :
    before targetStock messages ++ sinceOpened targetStock messages = messages :=
  List.takeWhile_append_dropWhile

end ItchOrderBook.MarketData

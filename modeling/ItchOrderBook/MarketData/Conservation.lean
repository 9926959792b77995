import ItchOrderBook.Foundation.EntrySums
import ItchOrderBook.MarketData.LedgerRuns
import Mathlib.Data.UInt
import Mathlib.Tactic.Abel

/-! # Conservation of shares

Whatever the messages are, every share of the book is a record's, up to 2^64, or that of a
record an add or a replace has written over.
-/
namespace ItchOrderBook.MarketData
open AtomicProgram ByteOrder ExactArithmetic Feed Spmc Util Book EntrySums

/-- The shares a record has at a level. -/
def OrderRecord.sharesAt (level : Side × Price) (record : OrderRecord) : Shares :=
  if (record.side, record.price) = level then record.shares else 0

/-- The shares of a level, 0 if there is none. -/
def levelShares (book : OrderBook) (level : Side × Price) : Shares :=
  (book.getOrderSide level.1)[level.2]?.getD 0

/-- The record a message writes over. A replace has taken out its old order by then. -/
def Message.overwrites (targetStock : Stock) (entries : UInt64 → Option OrderRecord) :
    Message → Option OrderRecord
  | .addOrder message | .addOrderMPID message =>
    if message.stock = targetStock then entries message.orderReferenceNumber else none
  | .orderReplace message =>
    if message.newOrderReferenceNumber = message.originalOrderReferenceNumber then none
    else entries message.newOrderReferenceNumber
  | _ => none

/-- The weights of the messages that pass the filter, up to the first fault. -/
def Effects.tally {H M : Type} [AddMonoid M] (E : Effects H) (weight : H → Message → M) :
    H → List Located → M
  | _, [] => 0
  | h, m :: messages =>
    match E.onMessage h m with
    | .error _ => 0
    | .ok h' =>
      (if m.2.isAddOrder = false ∧ m.1 ≠ E.cacheStockLocate h then 0 else weight h m.2) +
        E.tally weight h' messages

/-! ## The book -/

section Levels
variable (collection : OrderCollection) (price : Price) (shares : Shares)

theorem getD_insert (p : Price) :
    (collection.insert price shares)[p]?.getD 0 = if price = p then shares else collection[p]?.getD 0 := by
  rw [Std.ExtTreeMap.getElem?_insert]
  simp only [Std.LawfulEqCmp.compare_eq_iff_eq]
  split <;> rfl

theorem addShares_yields :
    Yields (addShares collection price shares : Noting Fault OrderCollection) fun collection' =>
      ∀ p, collection'[p]?.getD 0 = collection[p]?.getD 0 + if price = p then shares else 0 := by
  refine (Yields.plusAssign _ _).bind fun level hlevel => .pure fun p => ?_
  by_cases hp : price = p
  · subst hp
    simp [hlevel]
  · simp [getD_insert, hp]

/-- An erased level counts as one with 0 shares. -/
theorem removeShares_yields :
    Yields (removeShares Fault.book collection price shares) fun collection' =>
      ∀ p, collection'[p]?.getD 0 = collection[p]?.getD 0 - if price = p then shares else 0 := by
  unfold removeShares
  cases hlevel : collection[price]? with
  | none => exact .throw _
  | some second =>
    refine (Yields.minusAssign _ _).bind fun left hleft => .pure fun p => ?_
    by_cases hp : price = p
    · subst hp
      simp only [if_true, hlevel, Option.getD_some, ← hleft]
      by_cases hzero : left = 0
      · simp [hzero]
      · simp [hzero]
    · by_cases hzero : left = 0
      · simp [hzero, hp, Std.ExtTreeMap.getElem?_erase]
      · simp [hzero, getD_insert, hp]

end Levels

section Book
variable (book : OrderBook) (record : OrderRecord)

theorem levelShares_setOrderSide {book : OrderBook} {side : Side} {collection : OrderCollection}
    {shares : Price → Shares}
    (h : ∀ p, collection[p]?.getD 0 = shares p) (level : Side × Price) :
    levelShares (book.setOrderSide side collection) level =
      if side = level.1 then shares level.2 else levelShares book level := by
  simp only [levelShares, OrderBook.getOrderSide_setOrderSide, eq_comm (a := level.1)]
  split
  · exact h level.2
  · rfl

theorem addOrder_yields :
    Yields (book.addOrder record.side record.price record.shares : Noting Fault OrderBook) fun book' =>
      ∀ level, levelShares book' level = levelShares book level + record.sharesAt level := by
  refine (addShares_yields _ _ _).bind fun collection hcollection => .pure ?_
  rintro ⟨side, price⟩
  rw [levelShares_setOrderSide hcollection]
  by_cases hside : record.side = side
  · subst hside
    simp [OrderRecord.sharesAt, levelShares]
  · simp [OrderRecord.sharesAt, hside]

theorem executeOrder_yields (shares : Shares) :
    Yields (book.executeOrder Fault.book record.side record.price shares) fun book' =>
      ∀ level, levelShares book' level =
        levelShares book level - OrderRecord.sharesAt level { record with shares } := by
  refine (removeShares_yields _ _ _).bind fun collection hcollection => .pure ?_
  rintro ⟨side, price⟩
  rw [levelShares_setOrderSide hcollection]
  by_cases hside : record.side = side
  · subst hside
    simp [OrderRecord.sharesAt, levelShares]
  · simp [OrderRecord.sharesAt, hside]

end Book

/-! ## The ledger -/

/-- The shares the records have at a level. -/
noncomputable def resting (entries : UInt64 → Option OrderRecord) (level : Side × Price) : Shares :=
  EntrySums.sum (OrderRecord.sharesAt level) entries

namespace Ledger

/-- What a level has beyond the shares of the records. -/
noncomputable def surplus (l : Ledger) (level : Side × Price) : Shares :=
  levelShares l.orderBook level - resting l.records.entries level

variable {l : Ledger} {r : UInt64}

theorem sharesAt_left (record : OrderRecord) (left : Shares) (level : Side × Price) :
    (OrderRecord.left left record).elim 0 (OrderRecord.sharesAt level) =
      OrderRecord.sharesAt level { record with shares := left } := by
  by_cases hzero : left = 0
  · simp [OrderRecord.left, OrderRecord.sharesAt, hzero]
  · simp [OrderRecord.left, hzero]

theorem takeFrom_yields {record : OrderRecord} (h : l.records.entries r = some record)
    (shares : Shares) :
    Yields (l.takeFrom r record shares) fun l' => (∀ level, l'.surplus level = l.surplus level) ∧
      l'.records.entries = Function.update l.records.entries r
        (OrderRecord.left (record.shares - shares) record) := by
  refine (Yields.minusAssign _ _).bind fun left hleft => ?_
  subst hleft
  refine (executeOrder_yields _ _ _).bind fun book hbook => .pure ?_
  have hentries := BoundedMap.entries_alter h (OrderRecord.left (record.shares - shares))
  refine ⟨fun level => ?_, hentries⟩
  simp only [surplus, resting, hentries, sum_update, h, Option.elim_some, sharesAt_left, hbook]
  simp only [OrderRecord.sharesAt]
  split
  · abel
  · abel

theorem add_yields (record : OrderRecord) :
    Yields (l.add r record) fun l' => ∀ level, l'.surplus level =
      l.surplus level + (l.records.entries r).elim 0 (OrderRecord.sharesAt level) := by
  unfold add store
  split
  · rename_i htakes
    refine (addOrder_yields _ _).bind fun book hbook => .pure fun level => ?_
    simp only [surplus, resting, BoundedMap.entries_put, sum_update, Option.elim_some, hbook]
    abel
  · exact .throw _

theorem lookUp_yields (records : Records) (r : UInt64) :
    Yields (lookUp records r) fun record => records.entries r = some record := by
  unfold lookUp
  split
  · rename_i hentry
    exact .pure hentry
  · exact .throw _

theorem simulate_yields (targetStock : Stock) (l : Ledger) (stockLocate : UInt16) (m : Message) :
    Yields (l.simulate targetStock stockLocate m) fun l' => ∀ level, l'.surplus level =
      l.surplus level + (m.overwrites targetStock l.records.entries).elim 0
        (OrderRecord.sharesAt level) := by
  have htake : ∀ r shares, Yields (l.take r shares) fun l' => ∀ level,
      l'.surplus level = l.surplus level + 0 := by
    intro r shares
    refine (lookUp_yields _ _).bind fun record hentry => ?_
    exact (takeFrom_yields hentry shares).mono fun l' hl' level => by simp [hl'.1 level]
  have hadd : ∀ message : AddOrderMessage, Yields (l.addOrder targetStock stockLocate message)
      fun l' => ∀ level, l'.surplus level = l.surplus level +
        (if message.stock = targetStock then l.records.entries message.orderReferenceNumber
          else none).elim 0 (OrderRecord.sharesAt level) := by
    intro message
    unfold addOrder
    by_cases hstock : message.stock = targetStock
    · simp only [hstock, ne_eq, not_true_eq_false, if_false, if_true]
      exact add_yields (l := { l with cacheStockLocate := stockLocate }) message.record
    · simp only [hstock, ne_eq, not_false_eq_true, if_false, if_true]
      exact .pure fun level => by simp
  cases m with
  | addOrder message => exact hadd message
  | addOrderMPID message => exact hadd message
  | orderExecuted message => exact htake _ _
  | orderExecutedWithPrice message => exact htake _ _
  | orderCancel message => exact htake _ _
  | orderDelete message =>
    refine (lookUp_yields _ _).bind fun record hentry => ?_
    exact (takeFrom_yields hentry _).mono fun l' hl' level => by simp [hl'.1 level, Message.overwrites]
  | orderReplace message =>
    refine (lookUp_yields _ _).bind fun record hentry => ?_
    refine (takeFrom_yields hentry _).bind fun taken htaken => ?_
    obtain ⟨hsurplus, hentries⟩ := htaken
    refine (add_yields _).mono fun l' hl' level => ?_
    rw [hl', hsurplus, hentries]
    by_cases hsame : message.newOrderReferenceNumber = message.originalOrderReferenceNumber
    · simp [Message.overwrites, hsame, OrderRecord.left]
    · simp [Message.overwrites, hsame]

end Ledger

/-! ## Runs -/

/-- The shares at a level of the record a message writes over. -/
noncomputable def overwritten (targetStock : Stock) (level : Side × Price) (h : Handler × Bool)
    (m : Message) : Shares :=
  (m.overwrites targetStock h.1.orderRecords.entries).elim 0 (OrderRecord.sharesAt level)

section Runs
variable {targetStock : Stock} {h h' : Handler} {w w' : Bool}

theorem onMessage_surplus (hsound : h.orderRecords.Sound) {m : Located}
    (hm : (handlerEffects targetStock).onMessage (h, w) m = .ok (h', w')) (level : Side × Price) :
    h'.orderRecords.Sound ∧ h'.ledger.surplus level = h.ledger.surplus level +
      if m.2.isAddOrder = false ∧ m.1 ≠ (handlerEffects targetStock).cacheStockLocate (h, w) then 0
      else overwritten targetStock level (h, w) m.2 := by
  unfold Effects.onMessage at hm
  split at hm
  · rename_i hfiltered
    obtain ⟨rfl, rfl⟩ := Prod.mk.inj (Except.ok.inj hm)
    exact ⟨hsound, by simp [if_pos hfiltered]⟩
  · rename_i hfiltered
    obtain ⟨l', hl', hsound', rfl⟩ :=
      (Handler.simulate_matches hsound targetStock m.1 m.2 w).of_ok hm
    refine ⟨hsound', ?_⟩
    rw [if_neg hfiltered]
    exact Ledger.simulate_yields targetStock h.ledger m.1 m.2 w _ w' hl' level

/-- Each message adds to the surplus of a level what it writes over there. -/
theorem onMessages_surplus (hsound : h.orderRecords.Sound) {messages : List Located}
    (hrun : messages.foldlM (handlerEffects targetStock).onMessage (h, w) = .ok (h', w'))
    (level : Side × Price) : h'.ledger.surplus level = h.ledger.surplus level +
      (handlerEffects targetStock).tally (overwritten targetStock level) (h, w) messages := by
  induction messages generalizing h w with
  | nil =>
    obtain ⟨rfl, rfl⟩ := Prod.mk.inj (Except.ok.inj hrun)
    simp [Effects.tally]
  | cons m messages ih =>
    rw [List.foldlM_cons] at hrun
    unfold Effects.tally
    cases hm : (handlerEffects targetStock).onMessage (h, w) m with
    | error fault =>
      rw [hm] at hrun
      cases hrun
    | ok next =>
      obtain ⟨h₁, w₁⟩ := next
      rw [hm] at hrun
      obtain ⟨hsound₁, hstep⟩ := onMessage_surplus hsound hm level
      rw [ih hsound₁ hrun, hstep, add_assoc]

theorem surplus_fresh (cacheStockLocate : UInt16) (level : Side × Price) :
    (Handler.fresh cacheStockLocate).ledger.surplus level = 0 := by
  obtain ⟨side, price⟩ := level
  rw [(keeps_fresh cacheStockLocate).ledger]
  cases side <;> simp [Ledger.surplus, Ledger.fresh, resting, BoundedMap.empty, levelShares,
    OrderBook.getOrderSide, default]

end Runs

/-- In every run of a replay, whatever the feed's messages are, each level has the shares of
the records there and of the records there that adds and replaces have written over, modulo
2^64 and up to the first fault; a level with 0 shares is as good as none. -/
theorem replay_conserves_shares {C : Capacity} {n : ℕ} (targetStock : Fin (n + 1) → Stock)
    (native : Endian) (buffer : Fin C.size → UInt8) (cacheStockLocate : Fin (n + 1) → UInt16)
    (frames : List Frame) (hsized : ∀ f ∈ frames, RightSize f)
    (hfew : n = 0 ∨ (wire frames).length < 2 ^ 64)
    (schedule : List (Choice (Thread n) (Thread.Call UInt8)))
    (cfg : ReplayConfig C (fun c => handlerEffects (targetStock c)) native)
    (hrun : (Spmc.queue UInt8 C n).run (makeSpmc buffer (replayStart _ native (wire frames)
      fun c => (Handler.fresh (cacheStockLocate c), false))) schedule = some cfg)
    (c : Fin (n + 1)) (h : Handler) (wraps : Bool) (hok : (sessionOf cfg c).result = .ok (h, wraps))
    (level : Side × Price) :
    levelShares h.orderBook level = resting h.orderRecords.entries level +
      (handlerEffects (targetStock c)).tally (overwritten (targetStock c) level)
        (Handler.fresh (cacheStockLocate c), false)
        (feedMessages (frames.take (sessionOf cfg c).framesRead.length)) := by
  have hresult := ((replaying_run hsized hfew hrun).session c).progress.result
  rw [foldlM_onFrame, hok] at hresult
  have hsurplus := onMessages_surplus (keeps_fresh (cacheStockLocate c)).sound hresult level
  rw [surplus_fresh, zero_add, Ledger.surplus, sub_eq_iff_eq_add'] at hsurplus
  exact hsurplus

/-- Order 1 is added and read, twice. -/
def twiceSchedule : List (Choice (Thread 0) (Thread.Call UInt8)) :=
  pushes tslaAdd 41 ++ reads (.tryPopMany 2) 6 ++ reads (.tryPopMany 11) 14 ++
    reads (.tryPopMany 25) 28 ++ pushes tslaAdd 42 ++ reads (.tryPopMany 2) 6 ++
    reads (.tryPopMany 11) 14 ++ reads (.tryPopMany 25) 28

theorem tslaTwice_sized : ∀ f ∈ [tslaAdd, tslaAdd], RightSize f := by
  intro f hf
  obtain rfl : f = tslaAdd := by simpa using hf
  exact rightSize_of_kind (show _ = some MessageKind.addOrder by decide) rfl

/-- The book has 200 shares where the one record has 100. -/
theorem twiceSchedule_conserves : ∃ (cfg : TslaReplay) (h : Handler) (wraps : Bool),
    (queue UInt8 ⟨6, by decide⟩ 0).run (tslaStart [tslaAdd, tslaAdd]) twiceSchedule = some cfg ∧
    (sessionOf cfg 0).result = .ok (h, wraps) ∧ levelShares h.orderBook (.buy, 50) = 200 ∧
    levelShares h.orderBook (.buy, 50) = resting h.orderRecords.entries (.buy, 50) +
      (handlerEffects tsla).tally (overwritten tsla (.buy, 50)) (Handler.fresh 0, false)
        (feedMessages [tslaAdd, tslaAdd]) := by
  have hran : ((queue UInt8 ⟨6, by decide⟩ 0).run (tslaStart [tslaAdd, tslaAdd]) twiceSchedule).map
      (fun cfg => ((sessionOf cfg 0).framesRead.length,
        (sessionOf cfg 0).result.toOption.map fun h => levelShares h.1.orderBook (.buy, 50))) =
      some (2, some 200) := by
    decide +kernel
  obtain ⟨cfg, hrun, hread⟩ := Option.map_eq_some_iff.mp hran
  obtain ⟨hall, hlevel⟩ := Prod.mk.inj hread
  cases hresult : (sessionOf cfg 0).result with
  | error fault =>
    rw [hresult] at hlevel
    cases hlevel
  | ok handler =>
    obtain ⟨h, wraps⟩ := handler
    rw [hresult] at hlevel
    have hconserved := replay_conserves_shares (fun _ => tsla) .little (fun _ => 0) (fun _ => 0)
      [tslaAdd, tslaAdd] tslaTwice_sized (.inl rfl) twiceSchedule cfg hrun 0 h wraps hresult (.buy, 50)
    rw [hall] at hconserved
    exact ⟨cfg, h, wraps, hrun, hresult, Option.some.inj hlevel, hconserved⟩

end ItchOrderBook.MarketData

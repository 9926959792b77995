import ItchOrderBook.MarketData.LedgerRuns
import ItchOrderBook.MarketData.LocateCache

/-! # Recovery from a snapshot

A handler holds nothing of its past but the live orders: one that starts from an add for each
of them goes on as the one that has seen the whole history, whatever messages follow.
-/
namespace ItchOrderBook.MarketData
open ExactArithmetic Util Book

/-! ## Snapshots -/

def indicatorOf (side : Side) : UInt8 := if side = .buy then 'B'.toUInt8 else 'S'.toUInt8

/-- The add message that makes an order. -/
def Order.addMessage (o : Order) (stock : Stock) (r : UInt64) : AddOrderMessage where
  orderReferenceNumber := r
  buySellIndicator := indicatorOf o.side
  shares := .ofNat o.shares
  stock := stock
  price := o.price

theorem indicatorOf_eq_iff (side : Side) : indicatorOf side = 'B'.toUInt8 ↔ side = .buy := by
  cases side <;> decide

namespace Orders

def adds (orders : Orders) (stock : Stock) (locate : UInt16) (refs : List UInt64) : List Located :=
  refs.filterMap fun r => (orders r).map fun o => (locate, .addOrder (o.addMessage stock r))

/-- The references of the live orders, in some order. -/
noncomputable def live (orders : Orders) : List UInt64 :=
  (Set.toFinite {r | (orders r).isSome}).toFinset.toList

/-- An add for each live order. -/
noncomputable def snapshot (orders : Orders) (stock : Stock) (locate : UInt16) : List Located :=
  orders.adds stock locate orders.live

variable {orders : Orders}

theorem toNat_shares {o : Order} (h : o.shares < 2 ^ 32) (stock : Stock) (r : UInt64) :
    (o.addMessage stock r).shares.toNat = o.shares := UInt32.toNat_ofNat_of_lt' h

theorem order_addMessage {o : Order} (h : o.shares < 2 ^ 32) (stock : Stock) (r : UInt64) :
    (o.addMessage stock r).order = o := by
  have hside : (if (o.addMessage stock r).buySellIndicator = 'B'.toUInt8 then Side.buy
      else Side.sell) = o.side := by
    simp only [Order.addMessage, indicatorOf_eq_iff]
    cases o.side <;> rfl
  simp only [AddOrderMessage.order, hside, toNat_shares h]
  rfl

theorem mem_live {r : UInt64} : r ∈ orders.live ↔ (orders r).isSome := by simp [live]

theorem length_live (orders : Orders) : orders.live.length = orders.count := by
  simp [live, count, Set.ncard_eq_toFinset_card _ (Set.toFinite _)]

theorem adds_cons {r : UInt64} {o : Order} (ho : orders r = some o) (stock : Stock)
    (locate : UInt16) (refs : List UInt64) : orders.adds stock locate (r :: refs) =
      (locate, .addOrder (o.addMessage stock r)) :: orders.adds stock locate refs := by
  simp [adds, ho]

theorem adds_exact (hsized : orders.Sized) {stock : Stock} {locate : UInt16} {refs : List UInt64}
    (hnodup : refs.Nodup) (hlive : ∀ r ∈ refs, (orders r).isSome) {base : Orders} {h : Handler}
    (hh : Agrees base h) (hfree : ∀ r ∈ refs, base r = none)
    (hroom : base.count + refs.length ≤ 65536) :
    Exact (h.simulateAll stock (orders.adds stock locate refs)) fun h' =>
      Agrees (fun r => if r ∈ refs then orders r else base r) h' ∧
        h'.cacheStockLocate = if refs = [] then h.cacheStockLocate else locate := by
  induction refs generalizing base h with
  | nil =>
    refine .pure ⟨?_, rfl⟩
    simpa using hh
  | cons r refs ih =>
    obtain ⟨hr, hnodup⟩ := List.nodup_cons.mp hnodup
    obtain ⟨o, ho⟩ := Option.isSome_iff_exists.mp (hlive r List.mem_cons_self)
    obtain ⟨hpos, hlt⟩ := hsized r o ho
    have horder := order_addMessage hlt stock r
    have hfree₀ := hfree r List.mem_cons_self
    have hcount := count_add base hfree₀ o
    rw [List.length_cons] at hroom
    have hadd := hh.addOrder_exact locate (rfl : (o.addMessage stock r).stock = stock) hfree₀
      (by rwa [toNat_shares hlt]) (by rw [horder]; exact hcount.trans_le (by omega))
    rw [horder] at hadd
    rw [adds_cons ho]
    unfold Handler.simulateAll
    rw [List.foldlM_cons]
    refine hadd.bind fun h₁ ⟨hh₁, hcode⟩ => ?_
    have hfree' : ∀ r' ∈ refs, Function.update base r (some o) r' = none := by
      intro r' hr'
      have hne : r' ≠ r := fun heq => hr (heq ▸ hr')
      simpa [Function.update_of_ne hne] using hfree r' (List.mem_cons_of_mem r hr')
    have hroom' : count (Function.update base r (some o)) + refs.length ≤ 65536 := by omega
    refine (ih hnodup (fun r' hr' => hlive r' (List.mem_cons_of_mem r hr')) hh₁ hfree' hroom').mono ?_
    rintro h' ⟨hh', hcode'⟩
    have hall : (fun r' => if r' ∈ refs then orders r' else Function.update base r (some o) r') =
        fun r' => if r' ∈ r :: refs then orders r' else base r' := by
      funext r'
      by_cases heq : r' = r
      · subst heq
        simp [hr, ho]
      · simp [heq]
    refine ⟨hall ▸ hh', ?_⟩
    rw [hcode', hcode]
    simp

theorem snapshot_exact (hsized : orders.Sized) (hfew : orders.count ≤ 65536)
    (hlive : 0 < orders.count) (stock : Stock) (locate cacheStockLocate : UInt16) :
    Exact ((Handler.fresh cacheStockLocate).simulateAll stock (orders.snapshot stock locate))
      fun h' => Agrees orders h' ∧ h'.cacheStockLocate = locate := by
  refine (adds_exact hsized (Finset.nodup_toList _) (fun r hr => mem_live.mp hr)
    (Agrees.fresh cacheStockLocate) (fun _ _ => rfl) ?_).mono ?_
  · change empty.count + orders.live.length ≤ 65536
    simpa [length_live] using hfew
  · rintro h' ⟨hh', hcode⟩
    have hall : (fun r => if r ∈ orders.live then orders r else empty r) = orders := by
      funext r
      cases ho : orders r <;> simp [mem_live, ho, empty]
    have hne : orders.live ≠ [] := by
      rw [← List.length_pos_iff, length_live]
      exact hlive
    exact ⟨hall ▸ hh', hcode.trans (if_neg hne)⟩

end Orders

/-! ## What is left of a history -/

/-- What can be seen of a handler where a run has ended: its ledger and the fault. -/
noncomputable def seen (outcome : (Handler × Bool) × Option Fault) :
    (Ledger × Bool) × Option Fault := (noted outcome.1, outcome.2)

section Seen
variable {targetStock : Stock} {orders : Orders} {h h' : Handler} {l : Ledger}

theorem Keeps.runMessages (hk : Keeps h l) (messages : List Located) (w : Bool) :
    seen ((handlerEffects targetStock).runMessages (h, w) messages) =
      (ledgerEffects targetStock).runMessages (l, w) messages := by
  induction messages generalizing h l w with
  | nil =>
    obtain ⟨-, rfl⟩ := hk
    rfl
  | cons m messages ih =>
    have hm := hk.onMessage targetStock m w
    cases hstep : (handlerEffects targetStock).onMessage (h, w) m with
    | error fault =>
      rw [runMessages_error hstep, runMessages_error (hm.error_iff.mp hstep)]
      obtain ⟨-, rfl⟩ := hk
      rfl
    | ok next =>
      obtain ⟨h₁, w₁⟩ := next
      obtain ⟨l₁, hstep', hk₁⟩ := hm.of_ok hstep
      rw [runMessages_ok hstep, runMessages_ok hstep']
      exact ih hk₁ w₁

/-- The live orders and the locate code are all there is to a handler. -/
theorem Agrees.ledger_eq (hh : Agrees orders h) (hh' : Agrees orders h')
    (hcode : h.cacheStockLocate = h'.cacheStockLocate) : h.ledger = h'.ledger := by
  have hrecords : h.orderRecords.content = h'.orderRecords.content :=
    BoundedMap.ext (hh.records.entries.trans hh'.records.entries.symm)
  simp only [Handler.ledger, hcode, hrecords, hh.book.unique hh'.book]

theorem Agrees.seen_eq (hh : Agrees orders h) (hh' : Agrees orders h')
    (hcode : h.cacheStockLocate = h'.cacheStockLocate) (messages : List Located) (w : Bool) :
    seen ((handlerEffects targetStock).runMessages (h, w) messages) =
      seen ((handlerEffects targetStock).runMessages (h', w) messages) := by
  rw [Keeps.runMessages ⟨hh.records.sound, rfl⟩, Keeps.runMessages ⟨hh'.records.sound, rfl⟩,
    hh.ledger_eq hh' hcode]

theorem foldlM_adds {messages : List Located} (hadds : ∀ m ∈ messages, m.2.isAddOrder = true)
    (h : Handler) (w : Bool) :
    messages.foldlM (handlerEffects targetStock).onMessage (h, w) =
      h.simulateAll targetStock messages w := by
  induction messages generalizing h w with
  | nil => rfl
  | cons m messages ih =>
    rw [List.forall_mem_cons] at hadds
    unfold Handler.simulateAll
    rw [List.foldlM_cons, List.foldlM_cons, onMessage_own targetStock (.inl hadds.1), bind_apply]
    cases h.simulate targetStock m.1 m.2 w with
    | error fault => rfl
    | ok next => exact ih hadds.2 next.1 next.2

end Seen

theorem Orders.snapshot_isAddOrder (orders : Orders) (stock : Stock) (locate : UInt16) :
    ∀ m ∈ orders.snapshot stock locate, m.2.isAddOrder = true := by
  intro m hm
  obtain ⟨r, -, hr⟩ := List.mem_filterMap.mp hm
  obtain ⟨o, -, rfl⟩ := Option.map_eq_some_iff.mp hr
  rfl

/-- A handler that has polled any ITCH-valid feed without a fault, and is left with an order,
holds what it has heard of its stock. A new handler that polls one 'A' for each of these
orders under the old one's locate code can be told from it by no messages that follow, valid
or not: the two go through the same records, books and wraps to the same end. -/
theorem snapshot_recovers (targetStock : Stock) (code : Stock → UInt16)
    (cacheStockLocate cacheStockLocate' : UInt16) (messages : List Located)
    (hfeed : ItchFeed code targetStock messages) (h : Handler) (w : Bool)
    (hrun : messages.foldlM (handlerEffects targetStock).onMessage
      (Handler.fresh cacheStockLocate, false) = .ok (h, w))
    (hlive : ∃ r, (h.orderRecords.entries r).isSome) :
    let held := Orders.empty.after
      (heard targetStock (code targetStock) messages cacheStockLocate)
    h.orderRecords.entries = held.records ∧
    ∃ h', (held.snapshot targetStock h.cacheStockLocate).foldlM
        (handlerEffects targetStock).onMessage (Handler.fresh cacheStockLocate', false) =
          .ok (h', false) ∧
      ∀ later, seen ((handlerEffects targetStock).runMessages (h, w) later) =
        seen ((handlerEffects targetStock).runMessages (h', false) later) := by
  intro held
  obtain ⟨rfl, hh⟩ := fresh_kept hfeed hrun
  have hlive : {r | (held r).isSome}.Nonempty := by
    obtain ⟨r, hr⟩ := hlive
    rw [hh.records.entries] at hr
    exact ⟨r, by simpa [Orders.records] using hr⟩
  have hcount : 0 < held.count := (Set.ncard_pos (Set.toFinite _)).mpr hlive
  obtain ⟨h', hrun', hh', hcode⟩ := Orders.snapshot_exact hh.sized hh.few hcount targetStock
    h.cacheStockLocate cacheStockLocate'
  refine ⟨hh.records.entries, h', ?_, fun later => hh.seen_eq hh' hcode.symm later false⟩
  rw [foldlM_adds (Orders.snapshot_isAddOrder _ _ _)]
  exact hrun'

/-- Order 1 is left with 60 of its 100 shares. -/
theorem tslaCancel_recovers : ∃ h,
    (feedMessages [tslaAdd, tslaCancel]).foldlM (handlerEffects tsla).onMessage
      (Handler.fresh 0, false) = .ok (h, false) ∧
    let held := Orders.empty.after (heard tsla 7 (feedMessages [tslaAdd, tslaCancel]) 0)
    h.orderRecords.entries = held.records ∧
    ∃ h', (held.snapshot tsla h.cacheStockLocate).foldlM (handlerEffects tsla).onMessage
        (Handler.fresh 1, false) = .ok (h', false) ∧
      ∀ later, seen ((handlerEffects tsla).runMessages (h, false) later) =
        seen ((handlerEffects tsla).runMessages (h', false) later) := by
  obtain ⟨h, hrun, hagrees⟩ := fresh_misses_none tslaCancel_valid tslaCancel_missesNone
  have hlive : (h.orderRecords.entries 1).isSome := by
    rw [hagrees.records.entries, tslaCancel_messages]
    rfl
  exact ⟨h, hrun, snapshot_recovers tsla tslaCode 0 1 _ tslaCancel_valid.itchFeed h false hrun
    ⟨1, hlive⟩⟩

end ItchOrderBook.MarketData

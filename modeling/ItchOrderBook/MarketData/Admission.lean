import ItchOrderBook.MarketData.MissedOrders
import ItchOrderBook.Util.Lookups

/-! # Until the order map is full

A handler that knows its code holds the live orders of its stock, however many there are,
until a message looks up an order that the full map does not hold and the lookup throws.
-/
namespace ItchOrderBook.MarketData
open ExactArithmetic Util

/-- The order a message looks up first. -/
def Message.looksUp : Message → UInt64
  | .addOrder message | .addOrderMPID message => message.orderReferenceNumber
  | .orderExecuted message | .orderExecutedWithPrice message => message.orderReferenceNumber
  | .orderCancel message => message.orderReferenceNumber
  | .orderDelete message => message.orderReferenceNumber
  | .orderReplace message => message.originalOrderReferenceNumber

theorem Message.looksUp_of_named (m : Message) {r : UInt64} (h : m.named = some r) :
    m.looksUp = r := by
  cases m with
  | addOrder message => cases h
  | addOrderMPID message => cases h
  | _ => exact Option.some.inj h

/-- Each message is valid when it comes, however many orders are live. -/
def ValidMessages : Orders → List Located → Prop
  | _, [] => True
  | orders, m :: messages => m.2.Valid orders ∧ ValidMessages (m.2.apply orders) messages

namespace Orders

/-- The map is full of other orders than the one the message looks up. -/
def Blocked (orders : Orders) (m : Message) : Prop :=
  orders m.looksUp = none ∧ orders.count = 65536

open scoped Classical in
/-- The messages before the first that is blocked. -/
noncomputable def admitted : Orders → List Located → List Located
  | _, [] => []
  | orders, m :: messages =>
    if orders.Blocked m.2 then [] else m :: admitted (m.2.apply orders) messages

variable {orders missed : Orders} {m : Located} {messages front back : List Located}

@[simp] theorem admitted_nil (orders : Orders) : orders.admitted [] = [] := rfl

theorem admitted_blocked (h : orders.Blocked m.2) : orders.admitted (m :: messages) = [] := if_pos h

theorem admitted_cons (h : ¬ orders.Blocked m.2) :
    orders.admitted (m :: messages) = m :: (m.2.apply orders).admitted messages := if_neg h

theorem admitted_prefix (orders : Orders) (messages : List Located) :
    orders.admitted messages <+: messages := by
  induction messages generalizing orders with
  | nil => exact List.prefix_refl []
  | cons m messages ih =>
    by_cases h : orders.Blocked m.2
    · simp [admitted_blocked h]
    · simpa [admitted_cons h] using ih (m.2.apply orders)

theorem admitted_append (hfront : orders.admitted front = front) :
    orders.admitted (front ++ back) = front ++ (orders.after front).admitted back := by
  induction front generalizing orders with
  | nil => rfl
  | cons m front ih =>
    by_cases h : orders.Blocked m.2
    · simp [admitted_blocked h] at hfront
    · have hrest : (m.2.apply orders).admitted front = front := by
        simpa [admitted_cons h] using hfront
      rw [List.cons_append, admitted_cons h, ih hrest]
      rfl

theorem admitted_append_of_ne (hfront : orders.admitted front ≠ front) :
    orders.admitted (front ++ back) = orders.admitted front := by
  induction front generalizing orders with
  | nil => exact absurd rfl hfront
  | cons m front ih =>
    by_cases h : orders.Blocked m.2
    · simp [admitted_blocked h]
    · have hrest : (m.2.apply orders).admitted front ≠ front := by
        simpa [admitted_cons h] using hfront
      simp [admitted_cons h, ih hrest]

theorem after_cons (orders : Orders) (m : Located) (messages : List Located) :
    orders.after (m :: messages) = (m.2.apply orders).after messages := rfl

theorem after_append (orders : Orders) (front back : List Located) :
    orders.after (front ++ back) = (orders.after front).after back := List.foldl_append

theorem live_of_named {m : Message} (hm : m.Valid orders) {r : UInt64} (hnamed : m.named = some r) :
    orders r ≠ none := by
  have hshares : ∀ n, orders.HasShares r n → orders r ≠ none := by
    rintro n ⟨o, ho, -⟩
    simp [ho]
  cases m with
  | addOrder message => cases hnamed
  | addOrderMPID message => cases hnamed
  | orderDelete message =>
    obtain rfl := Option.some.inj hnamed
    exact Option.isSome_iff_ne_none.mp hm
  | orderReplace message =>
    obtain rfl := Option.some.inj hnamed
    exact Option.isSome_iff_ne_none.mp hm.1
  | _ =>
    obtain rfl := Option.some.inj hnamed
    exact hshares _ hm

/-- An add looks up an order that is not live and leaves one more. -/
theorem count_apply_of_add {m : Message} (hm : m.Valid orders) (hnamed : m.named = none) :
    orders m.looksUp = none ∧ (m.apply orders).count = orders.count + 1 := by
  cases m with
  | addOrder message => exact ⟨hm.1, count_add orders hm.1 _⟩
  | addOrderMPID message => exact ⟨hm.1, count_add orders hm.1 _⟩
  | _ => cases hnamed

theorem count_apply_of_named {m : Message} (hm : m.Valid orders) {r : UInt64}
    (hnamed : m.named = some r) : (m.apply orders).count ≤ orders.count := by
  have hreduce : ∀ r n, orders.HasShares r n → (orders.reduce r n).count ≤ orders.count := by
    rintro r n ⟨o, ho, -⟩
    rw [reduce_of_some ho]
    split
    · exact count_remove_le orders r
    · rw [count_update_of_isSome orders (by simp [ho])]
  cases m with
  | addOrder message => cases hnamed
  | addOrderMPID message => cases hnamed
  | orderDelete message => exact count_remove_le orders _
  | orderReplace message =>
    obtain ⟨o, ho⟩ := Option.isSome_iff_exists.mp hm.1
    change (orders.replace message).count ≤ orders.count
    rw [replace_of_some ho]
    have hremoved := count_remove orders hm.1
    have hinserted := count_insert_le
      (Function.update orders message.originalOrderReferenceNumber none)
      message.newOrderReferenceNumber ⟨o.side, message.price, message.shares.toNat⟩
    omega
  | _ => exact hreduce _ _ hm

/-- A message that is not blocked leaves no more orders than the map holds. -/
theorem count_apply_of_admitted {m : Message} (hm : m.Valid orders)
    (hblocked : ¬ orders.Blocked m) (hfew : orders.count ≤ 65536) :
    (m.apply orders).count ≤ 65536 := by
  cases hnamed : m.named with
  | some r => exact (count_apply_of_named hm hnamed).trans hfew
  | none =>
    obtain ⟨hfree, hcount⟩ := count_apply_of_add hm hnamed
    have hroom : orders.count ≠ 65536 := fun hfull => hblocked ⟨hfree, hfull⟩
    omega

/-- Where the map holds all live orders, it has room for those that are not missed. -/
theorem not_blocked_without (hlast : missed.Last orders) {m : Message} (hm : m.Valid orders)
    (hfew : orders.count ≤ 65536) (hfew' : (m.apply orders).count ≤ 65536) :
    ¬ (orders.without missed).Blocked m := by
  rintro ⟨hgone, hfull⟩
  cases hnamed : m.named with
  | none =>
    have hcount := (count_apply_of_add hm hnamed).2
    have hkept := count_without_le orders missed
    omega
  | some r =>
    rw [m.looksUp_of_named hnamed] at hgone
    have hmissed : missed r ≠ none := by
      intro hnone
      rw [without_of_none hnone] at hgone
      exact live_of_named hm hnamed hgone
    have hkept := count_without_lt hlast hmissed
    omega

theorem count_after_admitted_le (hvalid : ValidMessages orders messages)
    (hfew : orders.count ≤ 65536) : (orders.after (orders.admitted messages)).count ≤ 65536 := by
  induction messages generalizing orders with
  | nil => exact hfew
  | cons m messages ih =>
    by_cases h : orders.Blocked m.2
    · rw [admitted_blocked h]
      exact hfew
    · rw [admitted_cons h]
      exact ih hvalid.2 (count_apply_of_admitted hvalid.1 h hfew)

end Orders

theorem validMessages_append {orders : Orders} {front back : List Located} :
    ValidMessages orders (front ++ back) ↔
      ValidMessages orders front ∧ ValidMessages (orders.after front) back := by
  induction front generalizing orders with
  | nil => simp [ValidMessages, Orders.after]
  | cons m front ih =>
    have hrest : ValidMessages (m.2.apply orders) (front ++ back) ↔ _ := ih
    simp only [List.cons_append, ValidMessages, hrest, and_assoc, Orders.after_cons]

/-! ## A lookup in the full map -/

section Full
variable {orders : Orders} {h : Handler} {records : OrderRecords}

theorem RecordsOf.not_live (hrecords : RecordsOf orders records) {r : UInt64}
    (hr : orders r = none) : r ∉ records.liveKeys := by
  rw [OpenAddressMap.mem_liveKeys_iff_entries, hrecords.entries, Orders.records, hr]
  simp

theorem RecordsOf.full (hrecords : RecordsOf orders records) (hfull : orders.count = 65536) :
    ¬ records.liveKeys.ncard < 2 ^ 16 := by
  have hkeys : records.liveKeys = {r | (records.entries r).isSome} := by
    ext r
    exact OpenAddressMap.mem_liveKeys_iff_entries
  rw [hkeys, hrecords.entries, Orders.ncard_records, hfull]
  exact lt_irrefl _

theorem RecordsOf.find_full (hrecords : RecordsOf orders records) {r : UInt64}
    (hr : orders r = none) (hfull : orders.count = 65536) :
    onRecords (records.find r) = throw (.records .saturated) := by
  have hslots := OpenAddressMap.full_of_not_lt hrecords.sound (hrecords.full hfull)
    (hrecords.not_live hr)
  unfold onRecords
  rw [OpenAddressMap.find_full hslots]

theorem RecordsOf.assign_full (hrecords : RecordsOf orders records) {r : UInt64}
    (hr : orders r = none) (hfull : orders.count = 65536) (record : OrderRecord) :
    onRecords (records.assign r record) = throw (.records .saturated) := by
  have hthrows := OpenAddressMap.subscript_absent hrecords.sound (hrecords.not_live hr)
    (hrecords.full hfull)
  unfold onRecords OpenAddressMap.assign
  rw [hthrows]

theorem Agrees.simulate_blocked (hh : Agrees orders h) {targetStock : Stock} {m : Message}
    (hstock : m.OfStock targetStock) (hblocked : orders.Blocked m) (stockLocate : UInt16)
    (w : Bool) : h.simulate targetStock stockLocate m w = .error (.records .saturated) := by
  obtain ⟨hr, hfull⟩ := hblocked
  have hadd : ∀ message : AddOrderMessage, message.stock = targetStock →
      orders message.orderReferenceNumber = none →
      h.addOrder targetStock stockLocate message w = .error (.records .saturated) := by
    intro message hstock hr
    unfold Handler.addOrder
    rw [if_neg (not_not.mpr hstock)]
    dsimp only
    rw [hh.records.assign_full hr hfull]
    rfl
  cases hnamed : m.named with
  | some r =>
    rw [m.looksUp_of_named hnamed] at hr
    obtain ⟨rest, hsimulate⟩ := h.simulate_named targetStock stockLocate hnamed
    rw [hsimulate, hh.records.find_full hr hfull]
    rfl
  | none =>
    cases m with
    | addOrder message => exact hadd message hstock hr
    | addOrderMPID message => exact hadd message hstock hr
    | _ => cases hnamed

end Full

/-! ## The messages of one code -/

/-- The messages under a locate code. -/
def under (locate : UInt16) (messages : List Located) : List Located :=
  messages.filter fun m => m.1 = locate

section Under
variable {locate : UInt16} {m : Located} {messages : List Located}

theorem under_cons_self (hlocate : m.1 = locate) :
    under locate (m :: messages) = m :: under locate messages :=
  List.filter_cons_of_pos (decide_eq_true hlocate)

theorem under_cons_other (hlocate : m.1 ≠ locate) :
    under locate (m :: messages) = under locate messages :=
  List.filter_cons_of_neg (by simpa using hlocate)

theorem ValidMarket.under {market : Market} (h : ValidMarket market messages) (locate : UInt16) :
    ValidMessages (market locate) (under locate messages) := by
  induction messages generalizing market with
  | nil => trivial
  | cons m messages ih =>
    have hrest := ih h.2
    by_cases hlocate : m.1 = locate
    · rw [market.apply_self hlocate] at hrest
      rw [under_cons_self hlocate]
      exact ⟨hlocate ▸ h.1, hrest⟩
    · rw [market.apply_other hlocate] at hrest
      rwa [under_cons_other hlocate]

theorem Market.after_under (market : Market) (messages : List Located) (locate : UInt16) :
    market.after messages locate = (market locate).after (under locate messages) := by
  induction messages generalizing market with
  | nil => rfl
  | cons m messages ih =>
    rw [after_cons, ih]
    by_cases hlocate : m.1 = locate
    · rw [market.apply_self hlocate, under_cons_self hlocate, Orders.after_cons]
    · rw [market.apply_other hlocate, under_cons_other hlocate]

theorem mem_under (h : m ∈ under locate messages) : m.1 = locate :=
  of_decide_eq_true (List.mem_filter.mp h).2

theorem lost_eq (targetStock : Stock) (locate : UInt16) (messages : List Located) :
    lost targetStock locate messages = Orders.empty.after (under locate (before targetStock messages)) :=
  Market.empty.after_under _ locate

theorem under_split (targetStock : Stock) (locate : UInt16) (messages : List Located) :
    under locate messages = under locate (before targetStock messages) ++
      under locate (sinceOpened targetStock messages) := by
  rw [under, under, under, ← List.filter_append, before_append]

end Under

/-! ## A handler that knows its code -/

/-- How a handler ends that has been given all of these messages or is stopped before. -/
def endOf (messages done : List Located) : Option Fault :=
  if done.length = messages.length then none else some (.records .saturated)

/-- The handler dereferences an empty handle when a message up to the full map names a
missed order, and else holds the orders that are not missed, up to the full map. -/
def Admits (missed kept : Orders) (locate : UInt16) (messages : List Located)
    (r : (Handler × Bool) × Option Fault) : Prop :=
  (NamesOneOf missed locate (kept.admitted messages) ∧ r.2 = some (.records .nullHandle)) ∨
  (¬ NamesOneOf missed locate (kept.admitted messages) ∧ ∃ h',
    r = ((h', false), endOf messages (kept.admitted messages)) ∧
    Agrees (kept.after (kept.admitted messages)) h')

section Knows
variable {targetStock : Stock} {locate : UInt16} {missed kept orders : Orders} {h h' : Handler}
  {m : Located} {messages : List Located}

theorem Admits.cons (hblocked : ¬ kept.Blocked m.2)
    (hspared : ∀ r, m.2.named = some r → missed r = none)
    (hrun : (handlerEffects targetStock).onMessage (h, false) m = .ok (h', false))
    {own : List Located} (hrest : Admits missed (m.2.apply kept) locate own
      ((handlerEffects targetStock).runMessages (h', false) messages)) :
    Admits missed kept locate (m :: own)
      ((handlerEffects targetStock).runMessages (h, false) (m :: messages)) := by
  unfold Admits at hrest ⊢
  rw [Orders.admitted_cons hblocked, namesOneOf_cons fun _ => hspared, runMessages_ok hrun]
  simpa [endOf, Orders.after_cons] using hrest

/-- Given all messages of the feed, a handler that knows its code or is about to learn it
admits those of its stock. -/
theorem admits_run (hlast : missed.Last orders) (hh : Agrees (orders.without missed) h)
    (hknows : h.cacheStockLocate = locate ∨
      ∀ m ∈ messages.head?, m.2.isAddOrder = true ∧ m.1 = locate)
    (hcoded : ∀ m ∈ messages, ∀ stock, m.2.stock? = some stock →
      (m.1 = locate ↔ stock = targetStock))
    (hvalid : ValidMessages orders (under locate messages)) :
    Admits missed (orders.without missed) locate (under locate messages)
      ((handlerEffects targetStock).runMessages (h, false) messages) := by
  induction messages generalizing orders h with
  | nil =>
    refine .inr ⟨?_, h, rfl, hh⟩
    rintro ⟨m, hm, -⟩
    cases hm
  | cons m messages ih =>
    have hself := hcoded m List.mem_cons_self
    have hcoded' : ∀ m' ∈ messages, ∀ stock, m'.2.stock? = some stock →
        (m'.1 = locate ↔ stock = targetStock) :=
      fun m' hm' => hcoded m' (List.mem_cons_of_mem m hm')
    by_cases hlocate : m.1 = locate
    · rw [under_cons_self hlocate] at hvalid ⊢
      obtain ⟨hm, hrest⟩ := hvalid
      have hstock : m.2.OfStock targetStock :=
        ofStock_of_stock? fun stock hs => (hself stock hs).mp hlocate
      have hpasses : m.2.isAddOrder = true ∨ m.1 = h.cacheStockLocate := by
        rcases hknows with hcache | hopens
        · exact .inr (hlocate.trans hcache.symm)
        · exact .inl (hopens m rfl).1
      have hown := onMessage_own targetStock hpasses false
      by_cases hblocked : (orders.without missed).Blocked m.2
      · have hthrows := hh.simulate_blocked hstock hblocked m.1 false
        rw [runMessages_error (hown.trans hthrows)]
        refine .inr ⟨?_, h, ?_, ?_⟩
        · rw [Orders.admitted_blocked hblocked]
          rintro ⟨m', hm', -⟩
          cases hm'
        · simp [Orders.admitted_blocked hblocked, endOf]
        · rwa [Orders.admitted_blocked hblocked]
      by_cases hnames : ∃ r, m.2.named = some r ∧ missed r ≠ none
      · obtain ⟨r, hnamed, hmissed⟩ := hnames
        obtain ⟨o, ho⟩ := Option.ne_none_iff_exists'.mp hmissed
        have hgone : orders.without missed r = none := by simp [Orders.without, ho]
        have hroom : (orders.without missed).count < 65536 := by
          refine lt_of_le_of_ne hh.few fun hfull => hblocked ⟨?_, hfull⟩
          rwa [m.2.looksUp_of_named hnamed]
        have hnull := hh.simulate_absent hroom targetStock m.1 hnamed hgone false
        rw [runMessages_error (hown.trans hnull)]
        refine .inl ⟨⟨m, ?_, hlocate, r, hnamed, hmissed⟩, rfl⟩
        rw [Orders.admitted_cons hblocked]
        exact List.mem_cons_self
      · have hspared : ∀ r, m.2.named = some r → missed r = none :=
          fun r hr => not_not.mp fun hne => hnames ⟨r, hr, hne⟩
        have hapart := Orders.apart hlast hm hspared
        have hfew := Orders.count_apply_of_admitted hapart.valid hblocked hh.few
        obtain ⟨h', hrun, hagrees, hcache⟩ := hh.simulate_exact m.1 hstock hapart.valid hfew
        have hlearnt : h'.cacheStockLocate = locate := by
          cases hadd : m.2.isAdd with
          | true => rw [hcache, if_pos hadd, hlocate]
          | false =>
            rw [hcache, if_neg (by simp [hadd])]
            refine hknows.resolve_right fun hopens => ?_
            obtain ⟨message, hmessage⟩ := isAddOrder_eq (hopens m rfl).1
            rw [hmessage] at hadd
            cases hadd
        rw [hapart.apply] at hagrees
        have hrest := ih hapart.last hagrees (.inl hlearnt) hcoded' hrest
        rw [← hapart.apply] at hrest
        exact hrest.cons hblocked hspared (hown.trans hrun)
    · have hcache := hknows.resolve_right fun hopens => hlocate (hopens m rfl).2
      have hopens : opens targetStock m = false := by
        cases ho : opens targetStock m with
        | false => rfl
        | true =>
          simp only [opens, Bool.and_eq_true, decide_eq_true_eq] at ho
          exact absurd ((hself targetStock ho.2).mpr rfl) hlocate
      rw [under_cons_other hlocate] at hvalid ⊢
      rw [runMessages_ok (onMessage_ignored (hcache ▸ hlocate) hopens false)]
      exact ih hlast hh (.inl hcache) hcoded' hvalid

variable {code : Stock → UInt16}

/-- From the first 'A' of its stock on, a new handler admits the stock's messages. -/
theorem admits_sinceOpened (hfeed : ItchFeed code targetStock messages) (cacheStockLocate : UInt16) :
    Admits (lost targetStock (code targetStock) messages) Orders.empty (code targetStock)
      (under (code targetStock) (sinceOpened targetStock messages))
      ((handlerEffects targetStock).runMessages (Handler.fresh cacheStockLocate, false)
        (sinceOpened targetStock messages)) := by
  have hvalid : ValidMessages Orders.empty (under (code targetStock) messages) :=
    hfeed.valid.under (code targetStock)
  rw [under_split, validMessages_append, ← lost_eq] at hvalid
  have hkept := Orders.without_self (lost targetStock (code targetStock) messages)
  have hmem : ∀ m ∈ sinceOpened targetStock messages, m ∈ messages :=
    fun m hm => List.dropWhile_subset _ hm
  rw [← hkept]
  apply admits_run
  · exact fun _ _ ho => ho
  · rw [hkept]
    exact Agrees.fresh cacheStockLocate
  · refine .inr fun m hm => ?_
    obtain ⟨rest, hsince⟩ : ∃ rest, sinceOpened targetStock messages = m :: rest :=
      List.head?_eq_some_iff.mp hm
    have hopens := opens_of_sinceOpened hsince
    simp only [opens, Bool.and_eq_true, decide_eq_true_eq] at hopens
    have hm : m ∈ messages := hmem m (hsince ▸ List.mem_cons_self)
    exact ⟨hopens.1, (hfeed.stock_iff m hm targetStock hopens.2).mpr rfl⟩
  · exact fun m hm => hfeed.stock_iff m (hmem m hm)
  · exact hvalid.2

end Knows

end ItchOrderBook.MarketData

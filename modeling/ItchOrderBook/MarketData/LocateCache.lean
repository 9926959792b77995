import ItchOrderBook.MarketData.Reconstruction
import ItchOrderBook.MarketData.SessionOutcome

/-! # The unset locate cache

What a new handler makes of a feed by the value its `cache_stock_locate_` happens to hold.
With the code of its stock it hears of every order. With any other value it hears of none
before the stock's first 'A', and of other stocks' orders if the value is their code.
-/
namespace ItchOrderBook.MarketData
open AtomicProgram ByteOrder ExactArithmetic Feed Spmc Util

/-! ## What a handler hears -/

/-- The messages of its stock that get past the filter of a new handler. -/
def heard (targetStock : Stock) (locate : UInt16) (messages : List Located)
    (cacheStockLocate : UInt16) : List Located :=
  if cacheStockLocate = locate then under locate messages
  else under locate (sinceOpened targetStock messages)

/-- A new handler with this value names only orders it holds: the value is its stock's code,
or no message under the value names an order before the stock's first 'A', and none after it
an order it has missed, up to the full map. -/
def Spared (targetStock : Stock) (locate : UInt16) (messages : List Located)
    (cacheStockLocate : UInt16) : Prop :=
  cacheStockLocate = locate ∨
    (∀ m ∈ before targetStock messages, m.1 = cacheStockLocate → m.2.named = none) ∧
    ¬ NamesOneOf (lost targetStock locate messages) locate
      (Orders.empty.admitted (under locate (sinceOpened targetStock messages)))

section Fresh
variable {targetStock : Stock} {code : Stock → UInt16} {messages front back : List Located}
  {cacheStockLocate : UInt16} {m : Located}

/-- Other stocks' adds and what is filtered leave a new handler as it is. -/
theorem fresh_ignores (hstock : ∀ stock, m.2.stock? = some stock →
      (m.1 = code targetStock ↔ stock = targetStock))
    (hopens : opens targetStock m = false) (hcache : cacheStockLocate ≠ code targetStock)
    (hnamed : m.1 = cacheStockLocate → m.2.named = none) :
    (handlerEffects targetStock).onMessage (Handler.fresh cacheStockLocate, false) m =
      .ok (Handler.fresh cacheStockLocate, false) := by
  by_cases hcode : m.1 = cacheStockLocate
  · have hother : ∀ stock, m.2.stock? = some stock → stock ≠ targetStock := by
      intro stock hs heq
      exact hcache (hcode.symm.trans ((hstock stock hs).mpr heq))
    have hskips : ∀ message : AddOrderMessage, message.stock ≠ targetStock →
        (Handler.fresh cacheStockLocate).addOrder targetStock m.1 message false =
          .ok (Handler.fresh cacheStockLocate, false) := by
      intro message hne
      rw [Handler.addOrder, if_pos hne]
      rfl
    rw [onMessage_own targetStock (.inr hcode)]
    have hnone := hnamed hcode
    obtain ⟨locate, message⟩ := m
    cases message with
    | addOrder message => exact hskips message (hother _ rfl)
    | addOrderMPID message => exact hskips message (hother _ rfl)
    | _ => cases hnone
  · exact onMessage_ignored hcode hopens false

theorem fresh_strays (hcode : m.1 = cacheStockLocate) (hnamed : m.2.named ≠ none) :
    (handlerEffects targetStock).onMessage (Handler.fresh cacheStockLocate, false) m =
      .error (.records .nullHandle) := by
  obtain ⟨r, hr⟩ := Option.ne_none_iff_exists'.mp hnamed
  have hnull := (Agrees.fresh cacheStockLocate).simulate_absent (by simp) targetStock m.1 hr rfl false
  exact (onMessage_own targetStock (.inr hcode) false).trans hnull

theorem runMessages_strays (hstock : ∀ m ∈ front, ∀ stock, m.2.stock? = some stock →
      (m.1 = code targetStock ↔ stock = targetStock))
    (hopens : ∀ m ∈ front, opens targetStock m = false)
    (hcache : cacheStockLocate ≠ code targetStock)
    (hstrays : ∃ m ∈ front, m.1 = cacheStockLocate ∧ m.2.named ≠ none) (back : List Located) :
    ((handlerEffects targetStock).runMessages (Handler.fresh cacheStockLocate, false)
      (front ++ back)).2 = some (.records .nullHandle) := by
  induction front with
  | nil =>
    obtain ⟨m, hm, -⟩ := hstrays
    cases hm
  | cons m front ih =>
    rw [List.forall_mem_cons] at hstock hopens
    rw [List.cons_append]
    by_cases hstray : m.1 = cacheStockLocate ∧ m.2.named ≠ none
    · rw [runMessages_error (fresh_strays hstray.1 hstray.2)]
    · have hnamed : m.1 = cacheStockLocate → m.2.named = none :=
        fun hcode => not_not.mp fun hne => hstray ⟨hcode, hne⟩
      rw [runMessages_ok (fresh_ignores hstock.1 hopens.1 hcache hnamed)]
      obtain ⟨m', hm', hcode, hne⟩ := hstrays
      rcases List.mem_cons.mp hm' with rfl | hm'
      · exact absurd (hnamed hcode) hne
      · exact ih hstock.2 hopens.2 ⟨m', hm', hcode, hne⟩

theorem fresh_holds (hfeed : ItchFeed code targetStock messages)
    (hspared : Spared targetStock (code targetStock) messages cacheStockLocate) :
    let own := heard targetStock (code targetStock) messages cacheStockLocate
    ∃ h, (handlerEffects targetStock).runMessages (Handler.fresh cacheStockLocate, false) messages =
        ((h, false), endOf own (Orders.empty.admitted own)) ∧
      Agrees (Orders.empty.after (Orders.empty.admitted own)) h := by
  intro own
  by_cases hcache : cacheStockLocate = code targetStock
  · have hown : own = under (code targetStock) messages := if_pos hcache
    have hkept := Orders.without_self Orders.empty
    have hadmits := @admits_run targetStock (code targetStock) Orders.empty Orders.empty
      (Handler.fresh cacheStockLocate) messages (fun _ _ ho => ho)
      (hkept.symm ▸ Agrees.fresh cacheStockLocate) (.inl hcache) hfeed.stock_iff
      (hfeed.valid.under (code targetStock))
    rw [hkept, ← hown] at hadmits
    obtain ⟨⟨m, -, -, r, -, hr⟩, -⟩ | ⟨-, hholds⟩ := hadmits
    · exact absurd rfl hr
    · exact hholds
  · have hown : own = under (code targetStock) (sinceOpened targetStock messages) := if_neg hcache
    obtain ⟨hnamed, hnames⟩ := hspared.resolve_left hcache
    have hfront : (before targetStock messages).foldlM (handlerEffects targetStock).onMessage
        (Handler.fresh cacheStockLocate, false) = .ok (Handler.fresh cacheStockLocate, false) :=
      foldlM_same fun m hm => fresh_ignores (hfeed.stock_iff m (List.takeWhile_subset _ hm))
        (opens_before hm) hcache (hnamed m hm)
    rw [← before_append targetStock messages, runMessages_append hfront, hown]
    exact ((admits_sinceOpened hfeed cacheStockLocate).resolve_left fun h => hnames h.1).2

theorem fresh_unspared (hfeed : ItchFeed code targetStock messages)
    (hspared : ¬ Spared targetStock (code targetStock) messages cacheStockLocate) :
    ((handlerEffects targetStock).runMessages (Handler.fresh cacheStockLocate, false) messages).2 =
      some (.records .nullHandle) := by
  obtain ⟨hcache, hspared⟩ := not_or.mp hspared
  have hstock : ∀ m ∈ before targetStock messages, ∀ stock, m.2.stock? = some stock →
      (m.1 = code targetStock ↔ stock = targetStock) :=
    fun m hm => hfeed.stock_iff m (List.takeWhile_subset _ hm)
  have hopens : ∀ m ∈ before targetStock messages, opens targetStock m = false :=
    fun m hm => opens_before hm
  rw [← before_append targetStock messages]
  by_cases hnamed : ∀ m ∈ before targetStock messages, m.1 = cacheStockLocate → m.2.named = none
  · have hnames := not_not.mp fun hnone => hspared ⟨hnamed, hnone⟩
    have hfront : (before targetStock messages).foldlM (handlerEffects targetStock).onMessage
        (Handler.fresh cacheStockLocate, false) = .ok (Handler.fresh cacheStockLocate, false) :=
      foldlM_same fun m hm => fresh_ignores (hstock m hm) (hopens m hm) hcache (hnamed m hm)
    rw [runMessages_append hfront]
    exact ((admits_sinceOpened hfeed cacheStockLocate).resolve_right fun h => h.1 hnames).2
  · push Not at hnamed
    exact runMessages_strays hstock hopens hcache hnamed _

theorem endOf_eq_none (orders : Orders) (messages : List Located) :
    endOf messages (orders.admitted messages) = none ↔ orders.admitted messages = messages := by
  unfold endOf
  constructor
  · intro hend
    refine (orders.admitted_prefix messages).eq_of_length ?_
    by_contra hne
    simp [hne] at hend
  · intro hall
    simp [hall]

/-- A new handler that has polled a feed to its end has been spared and holds what it has
heard, all of it. -/
theorem fresh_kept (hfeed : ItchFeed code targetStock messages) {h : Handler} {w : Bool}
    (hrun : messages.foldlM (handlerEffects targetStock).onMessage
      (Handler.fresh cacheStockLocate, false) = .ok (h, w)) :
    w = false ∧ Agrees (Orders.empty.after
      (heard targetStock (code targetStock) messages cacheStockLocate)) h := by
  rw [foldlM_eq_runMessages] at hrun
  by_cases hspared : Spared targetStock (code targetStock) messages cacheStockLocate
  · obtain ⟨h', hends, hagrees⟩ := fresh_holds hfeed hspared
    rw [hends] at hrun
    cases hend : endOf (heard targetStock (code targetStock) messages cacheStockLocate)
        (Orders.empty.admitted
          (heard targetStock (code targetStock) messages cacheStockLocate)) with
    | some fault =>
      rw [hend] at hrun
      cases hrun
    | none =>
      rw [hend] at hrun
      obtain ⟨rfl, rfl⟩ := Prod.mk.inj (Except.ok.inj hrun)
      rw [(endOf_eq_none _ _).mp hend] at hagrees
      exact ⟨rfl, hagrees⟩
  · rw [fresh_unspared hfeed hspared] at hrun
    cases hrun

/-- A new handler with this value misses no order: the value is its stock's code, or no order
of the stock is live when its first 'A' comes (at the end, if none does) and no message under
the value names an order before. -/
def MissesNone (targetStock : Stock) (locate : UInt16) (messages : List Located)
    (cacheStockLocate : UInt16) : Prop :=
  cacheStockLocate = locate ∨
    (∀ m ∈ before targetStock messages, m.1 = cacheStockLocate → m.2.named = none) ∧
    ∀ r, lost targetStock locate messages r = none

theorem MissesNone.spared {locate : UInt16}
    (h : MissesNone targetStock locate messages cacheStockLocate) :
    Spared targetStock locate messages cacheStockLocate := by
  refine h.imp_right fun ⟨hnamed, hlost⟩ => ⟨hnamed, ?_⟩
  rintro ⟨m, -, -, r, -, hr⟩
  exact hr (hlost r)

theorem ValidFeed.admitted {locate : UInt16} {market : Market}
    (hvalid : ValidFeed locate market messages) (hfew : (market locate).count ≤ 65536) :
    (market locate).admitted (under locate messages) = under locate messages ∧
      (market locate).after (under locate messages) = market.after messages locate := by
  have hnone : ∀ orders : Orders, orders.without Orders.empty = orders :=
    fun orders => Orders.without_empty fun _ => rfl
  have hlast : Orders.empty.Last (market locate) := fun _ _ ho => by cases ho
  rcases names_or_admitted hlast hvalid hfew with
    ⟨⟨m, -, -, r, -, hr⟩, -⟩ | ⟨-, hall, -, hafter⟩
  · exact absurd rfl hr
  · rw [hnone] at hall
    rw [hnone, hnone] at hafter
    exact ⟨hall, hafter⟩

theorem fresh_misses_none (hvalid : ItchValid code targetStock messages)
    (hmisses : MissesNone targetStock (code targetStock) messages cacheStockLocate) :
    ∃ h, messages.foldlM (handlerEffects targetStock).onMessage
        (Handler.fresh cacheStockLocate, false) = .ok (h, false) ∧
      Agrees (Market.empty.after messages (code targetStock)) h := by
  let own := heard targetStock (code targetStock) messages cacheStockLocate
  have hown : Orders.empty.admitted own = own ∧
      Orders.empty.after own = Market.empty.after messages (code targetStock) := by
    by_cases hcache : cacheStockLocate = code targetStock
    · have hheard : own = under (code targetStock) messages := if_pos hcache
      rw [hheard]
      exact hvalid.valid.admitted (by simp [Market.empty])
    · have hheard : own = under (code targetStock) (sinceOpened targetStock messages) :=
        if_neg hcache
      have hlost : Market.empty.after (before targetStock messages) (code targetStock) =
          Orders.empty := funext (hmisses.resolve_left hcache).2
      have hfeed := hvalid.valid
      rw [← before_append targetStock messages] at hfeed
      have hadmitted := hfeed.append.admitted (by simp [hlost])
      rwa [hlost, ← Market.after_append, before_append, ← hheard] at hadmitted
  obtain ⟨h, hends, hagrees⟩ := fresh_holds hvalid.itchFeed hmisses.spared
  change _ = ((h, false), endOf own (Orders.empty.admitted own)) at hends
  change Agrees (Orders.empty.after (Orders.empty.admitted own)) h at hagrees
  rw [(endOf_eq_none _ _).mpr hown.1] at hends
  rw [hown.1, hown.2] at hagrees
  refine ⟨h, ?_, hagrees⟩
  rw [foldlM_eq_runMessages, hends]

end Fresh

/-! ## Two values -/

theorem endOf_congr {messages messages' done done' : List Located}
    (h : endOf messages done = none ↔ endOf messages' done' = none) :
    endOf messages done = endOf messages' done' := by
  unfold endOf at h ⊢
  split_ifs at h ⊢ <;> simp_all

section Missed
variable {orders missed : Orders} {locate : UInt16} {messages : List Located} {r : UInt64}

/-- A missed order that no message names stays live up to the full map. -/
theorem missed_stays (hlast : missed.Last orders) (hmissed : missed r ≠ none)
    (hlocate : ∀ m ∈ messages, m.1 = locate) (hvalid : ValidMessages orders messages)
    (hnames : ¬ NamesOneOf missed locate ((orders.without missed).admitted messages))
    (hfew : orders.count ≤ 65536) : orders.after (orders.admitted messages) r ≠ none := by
  obtain ⟨o, ho⟩ := Option.ne_none_iff_exists'.mp hmissed
  induction messages generalizing orders with
  | nil =>
    change orders r ≠ none
    simp [hlast r o ho]
  | cons m messages ih =>
    rw [List.forall_mem_cons] at hlocate
    by_cases hblocked : orders.Blocked m.2
    · rw [Orders.admitted_blocked hblocked]
      change orders r ≠ none
      simp [hlast r o ho]
    -- without the missed order there is more room
    have hroom : ¬ (orders.without missed).Blocked m.2 := by
      intro hfull
      have hlt := Orders.count_without_lt hlast hmissed
      have hcount := hfull.2
      omega
    rw [Orders.admitted_cons hroom, not_namesOneOf_cons hlocate.1] at hnames
    have hapart := Orders.apart hlast hvalid.1 hnames.1
    have hfew' := Orders.count_apply_of_admitted hvalid.1 hblocked hfew
    rw [hapart.apply] at hnames
    rw [Orders.admitted_cons hblocked, Orders.after_cons]
    exact ih hapart.last hlocate.2 hvalid.2 hnames.2 hfew'

theorem missed_never_held (hlast : missed.Last orders) (hmissed : missed r ≠ none)
    (hlocate : ∀ m ∈ messages, m.1 = locate) (hvalid : ValidMessages orders messages)
    (hnames : ¬ NamesOneOf missed locate ((orders.without missed).admitted messages)) :
    (orders.without missed).after ((orders.without missed).admitted messages) r = none := by
  obtain ⟨o, ho⟩ := Option.ne_none_iff_exists'.mp hmissed
  have hgone : ∀ orders : Orders, orders.without missed r = none := by
    intro orders
    simp [Orders.without, ho]
  induction messages generalizing orders with
  | nil => exact hgone orders
  | cons m messages ih =>
    rw [List.forall_mem_cons] at hlocate
    by_cases hblocked : (orders.without missed).Blocked m.2
    · rw [Orders.admitted_blocked hblocked]
      exact hgone orders
    rw [Orders.admitted_cons hblocked, not_namesOneOf_cons hlocate.1] at hnames
    have hapart := Orders.apart hlast hvalid.1 hnames.1
    rw [hapart.apply] at hnames
    rw [Orders.admitted_cons hblocked, Orders.after_cons, hapart.apply]
    exact ih hapart.last hlocate.2 hvalid.2 hnames.2

end Missed

/-- A handler that hears of its stock only from the first 'A' on ends like one that hears of
all of it: it has missed no order that is live then and the map has not been full before, or
else the map is full of the same orders again. -/
def CatchesUp (targetStock : Stock) (locate : UInt16) (messages : List Located) : Prop :=
  let earlier := under locate (before targetStock messages)
  let later := under locate (sinceOpened targetStock messages)
  (Orders.empty.admitted earlier = earlier ∧ ∀ r, lost targetStock locate messages r = none) ∨
  (Orders.empty.admitted earlier ≠ earlier ∧ Orders.empty.admitted later ≠ later ∧
    Orders.empty.after (Orders.empty.admitted earlier) =
      Orders.empty.after (Orders.empty.admitted later))

/-- The same records and book are left, in the same way, and no empty handle has been
dereferenced. -/
structure SameOutcome (r r' : (Handler × Bool) × Option Fault) : Prop where
  records : r.1.1.orderRecords.entries = r'.1.1.orderRecords.entries
  book : r.1.1.orderBook = r'.1.1.orderBook
  fault : r.2 = r'.2
  spared : r.2 ≠ some (.records .nullHandle) ∧ r'.2 ≠ some (.records .nullHandle)

section Values
variable {targetStock : Stock} {code : Stock → UInt16} {messages : List Located}

theorem Agrees.orders_eq {orders orders' : Orders} {h h' : Handler} (hh : Agrees orders h)
    (hh' : Agrees orders' h')
    (hrecords : h.orderRecords.entries = h'.orderRecords.entries) : orders = orders' := by
  rw [hh.records.entries, hh'.records.entries] at hrecords
  funext r
  have hr : (orders r).map Order.record = (orders' r).map Order.record := congrFun hrecords r
  cases ho : orders r with
  | none =>
    cases ho' : orders' r with
    | none => rfl
    | some o' =>
      rw [ho, ho'] at hr
      cases hr
  | some o =>
    cases ho' : orders' r with
    | none =>
      rw [ho, ho'] at hr
      cases hr
    | some o' =>
      rw [ho, ho'] at hr
      have hrecord := Option.some.inj hr
      obtain ⟨hside, hprice, hshares⟩ := OrderRecord.mk.inj hrecord
      have hsize := hh.record_shares ho
      have hsize' := hh'.record_shares ho'
      have hequal : o.shares = o'.shares := by
        rw [← hsize, ← hsize', hshares]
      obtain ⟨side, price, shares⟩ := o
      obtain ⟨side', price', shares'⟩ := o'
      simp_all

theorem endOf_ne_nullHandle (messages done : List Located) :
    endOf messages done ≠ some (.records .nullHandle) := by
  unfold endOf
  split <;> simp

theorem sameOutcome_iff_heard (hfeed : ItchFeed code targetStock messages) {cache cache' : UInt16}
    (hspared : Spared targetStock (code targetStock) messages cache)
    (hspared' : Spared targetStock (code targetStock) messages cache') :
    let own := heard targetStock (code targetStock) messages cache
    let own' := heard targetStock (code targetStock) messages cache'
    SameOutcome
      ((handlerEffects targetStock).runMessages (Handler.fresh cache, false) messages)
      ((handlerEffects targetStock).runMessages (Handler.fresh cache', false) messages) ↔
    Orders.empty.after (Orders.empty.admitted own) =
      Orders.empty.after (Orders.empty.admitted own') ∧
    (Orders.empty.admitted own = own ↔ Orders.empty.admitted own' = own') := by
  intro own own'
  obtain ⟨h, hrun, hh⟩ := fresh_holds hfeed hspared
  obtain ⟨h', hrun', hh'⟩ := fresh_holds hfeed hspared'
  rw [hrun, hrun', ← endOf_eq_none, ← endOf_eq_none]
  constructor
  · intro hsame
    exact ⟨hh.orders_eq hh' hsame.records, by rw [show endOf own _ = _ from hsame.fault]⟩
  · rintro ⟨horders, hends⟩
    have hagrees : Agrees (Orders.empty.after (Orders.empty.admitted own')) h := horders ▸ hh
    constructor
    · exact hagrees.records.entries.trans hh'.records.entries.symm
    · exact hagrees.book.unique hh'.book
    · exact endOf_congr hends
    · exact ⟨endOf_ne_nullHandle _ _, endOf_ne_nullHandle _ _⟩

/-- Hearing of all messages and hearing of them from the first 'A' on come to the same. -/
theorem catchesUp_iff (hfeed : ItchFeed code targetStock messages)
    (hnames : ¬ NamesOneOf (lost targetStock (code targetStock) messages) (code targetStock)
      (Orders.empty.admitted
        (under (code targetStock) (sinceOpened targetStock messages)))) :
    let own := under (code targetStock) messages
    let later := under (code targetStock) (sinceOpened targetStock messages)
    CatchesUp targetStock (code targetStock) messages ↔
      Orders.empty.after (Orders.empty.admitted own) =
        Orders.empty.after (Orders.empty.admitted later) ∧
      (Orders.empty.admitted own = own ↔ Orders.empty.admitted later = later) := by
  intro own later
  let earlier := under (code targetStock) (before targetStock messages)
  let missed := lost targetStock (code targetStock) messages
  have hown : own = earlier ++ later := under_split _ _ _
  have hmissed : missed = Orders.empty.after earlier := lost_eq _ _ _
  have hvalid : ValidMessages Orders.empty own := hfeed.valid.under (code targetStock)
  rw [hown, validMessages_append, ← hmissed] at hvalid
  obtain ⟨hearlier, hlater⟩ := hvalid
  by_cases hfits : Orders.empty.admitted earlier = earlier
  · have hadmitted : Orders.empty.admitted own = earlier ++ missed.admitted later := by
      rw [hown, Orders.admitted_append hfits, ← hmissed]
    have hafter : Orders.empty.after (Orders.empty.admitted own) =
        missed.after (missed.admitted later) := by
      rw [hadmitted, Orders.after_append, ← hmissed]
    have hall : Orders.empty.admitted own = own ↔ missed.admitted later = later := by
      rw [hadmitted, hown, List.append_right_inj]
    rw [hafter, hall]
    constructor
    · rintro (⟨-, hnone⟩ | ⟨hfull, -⟩)
      · have hempty : missed = Orders.empty := funext hnone
        rw [hempty]
        exact ⟨rfl, Iff.rfl⟩
      · exact absurd hfits hfull
    · rintro ⟨hsame, -⟩
      refine .inl ⟨hfits, fun r => ?_⟩
      by_contra hr
      have hkept := Orders.without_self missed
      have hfew : missed.count ≤ 65536 := by
        have hcount := Orders.count_after_admitted_le hearlier (by simp)
        rwa [hfits, ← hmissed] at hcount
      have hspared : ¬ NamesOneOf missed (code targetStock)
          ((missed.without missed).admitted later) := by
        rw [hkept]
        exact hnames
      have hlive := missed_stays (fun _ _ ho => ho) hr (fun m hm => mem_under hm) hlater hspared hfew
      have hgone := missed_never_held (fun _ _ ho => ho) hr (fun m hm => mem_under hm) hlater hspared
      rw [hkept] at hgone
      exact hlive (hsame ▸ hgone)
  · have hadmitted : Orders.empty.admitted own = Orders.empty.admitted earlier := by
      rw [hown, Orders.admitted_append_of_ne hfits]
    have hstops : Orders.empty.admitted own ≠ own := by
      intro hall
      have hle := (Orders.empty.admitted_prefix earlier).length_le
      have hlength := congrArg List.length hall
      rw [hadmitted, hown, List.length_append] at hlength
      exact hfits ((Orders.empty.admitted_prefix earlier).eq_of_length (by omega))
    rw [iff_false_left hstops, hadmitted]
    constructor
    · rintro (⟨hfull, -⟩ | ⟨-, hlater, hsame⟩)
      · exact absurd hfull hfits
      · exact ⟨hsame, hlater⟩
    · rintro ⟨hsame, hlater⟩
      exact .inr ⟨hfits, hlater, hsame⟩

/-- Two new handlers end a feed alike exactly when both are spared and both or neither know
the code of their stock, unless that makes no difference. -/
theorem sameOutcome_iff (hfeed : ItchFeed code targetStock messages) (cache cache' : UInt16) :
    SameOutcome
      ((handlerEffects targetStock).runMessages (Handler.fresh cache, false) messages)
      ((handlerEffects targetStock).runMessages (Handler.fresh cache', false) messages) ↔
    Spared targetStock (code targetStock) messages cache ∧
      Spared targetStock (code targetStock) messages cache' ∧
      ((cache = code targetStock ↔ cache' = code targetStock) ∨
        CatchesUp targetStock (code targetStock) messages) := by
  by_cases hspared : Spared targetStock (code targetStock) messages cache
  · by_cases hspared' : Spared targetStock (code targetStock) messages cache'
    · have hheard := sameOutcome_iff_heard hfeed hspared hspared'
      dsimp only at hheard
      rw [hheard, and_iff_right hspared, and_iff_right hspared']
      unfold heard
      by_cases hcache : cache = code targetStock <;> by_cases hcache' : cache' = code targetStock
      · simp [hcache, hcache']
      · have hcatches := catchesUp_iff hfeed (hspared'.resolve_left hcache').2
        simp [hcache, hcache', hcatches]
      · have hcatches := catchesUp_iff hfeed (hspared.resolve_left hcache).2
        have hswapped := hcatches.trans (and_congr eq_comm Iff.comm)
        simp [hcache, hcache', hswapped]
      · simp [hcache, hcache']
    · exact iff_of_false (fun h => h.spared.2 (fresh_unspared hfeed hspared')) fun h => hspared' h.2.1
  · exact iff_of_false (fun h => h.spared.1 (fresh_unspared hfeed hspared)) fun h => hspared h.1

end Values

/-! ## Runs -/

/-- A run of a replay, from any values of the unset caches, in which handler `c` reads all it
will of the feed. -/
structure FeedRun (C : Capacity) {n : ℕ} (targetStock : Fin (n + 1) → Stock) (native : Endian)
    (frames : List Frame) (c : Fin (n + 1)) where
  buffer : Fin C.size → UInt8
  cacheStockLocate : Fin (n + 1) → UInt16
  schedule : List (Choice (Thread n) (Thread.Call UInt8))
  cfg : ReplayConfig C (fun c => handlerEffects (targetStock c)) native
  run : (queue UInt8 C n).run (makeSpmc buffer (replayStart _ native (wire frames)
    fun c => (Handler.fresh (cacheStockLocate c), false))) schedule = some cfg
  whole : (sessionOf cfg c).RanWhole frames

/-- What handler `c` leaves. -/
def FeedRun.outcome {C : Capacity} {n : ℕ} {targetStock : Fin (n + 1) → Stock} {native : Endian}
    {frames : List Frame} {c : Fin (n + 1)} (run : FeedRun C targetStock native frames c) :
    (Handler × Bool) × Option Fault := (sessionOf run.cfg c).outcome

/-- Two runs over an ITCH-valid feed end alike, without the dereference of an empty handle,
exactly when both values of the cache spare the handler and both or neither are its stock's
code, unless the orders make no difference. -/
theorem locate_cache_iff {C : Capacity} {n : ℕ} {targetStock : Fin (n + 1) → Stock}
    {native : Endian} {frames : List Frame} (hsized : ∀ f ∈ frames, RightSize f)
    (hfew : n = 0 ∨ (wire frames).length < 2 ^ 64) {c : Fin (n + 1)} {code : Stock → UInt16}
    (hfeed : ItchFeed code (targetStock c) (feedMessages frames))
    (run run' : FeedRun C targetStock native frames c) :
    SameOutcome run.outcome run'.outcome ↔
      Spared (targetStock c) (code (targetStock c)) (feedMessages frames)
        (run.cacheStockLocate c) ∧
      Spared (targetStock c) (code (targetStock c)) (feedMessages frames)
        (run'.cacheStockLocate c) ∧
      ((run.cacheStockLocate c = code (targetStock c) ↔
          run'.cacheStockLocate c = code (targetStock c)) ∨
        CatchesUp (targetStock c) (code (targetStock c)) (feedMessages frames)) := by
  have houtcome := outcome_run hsized hfew run.run c run.whole
  have houtcome' := outcome_run hsized hfew run'.run c run'.whole
  unfold FeedRun.outcome
  rw [houtcome, houtcome']
  exact sameOutcome_iff hfeed _ _

theorem exists_feedRun (frames : List Frame) (cacheStockLocate : UInt16)
    (schedule : List (Choice (Thread 0) (Thread.Call UInt8)))
    (hran : ((queue UInt8 ⟨6, by decide⟩ 0).run (makeSpmc (fun _ => 0)
      (replayStart (fun _ => handlerEffects tsla) .little (wire frames)
        fun _ => (Handler.fresh cacheStockLocate, false))) schedule).map
      (fun cfg => (sessionOf cfg 0).framesRead.length) = some frames.length) :
    ∃ run : FeedRun ⟨6, by decide⟩ (fun _ : Fin 1 => tsla) .little frames 0,
      run.cacheStockLocate 0 = cacheStockLocate := by
  obtain ⟨cfg, hrun, hall⟩ := Option.map_eq_some_iff.mp hran
  exact ⟨⟨_, fun _ => cacheStockLocate, schedule, cfg, hrun, .inl hall⟩, rfl⟩

theorem tslaCancel_missesNone :
    MissesNone tsla (tslaCode tsla) (feedMessages [tslaAdd, tslaCancel]) 0 := by
  have hbefore : before tsla (feedMessages [tslaAdd, tslaCancel]) = [] := by
    rw [tslaCancel_messages]
    rfl
  refine .inr ⟨by simp [hbefore], fun r => ?_⟩
  rw [lost, hbefore]
  rfl

theorem tslaCancel_sameOutcome :
    ∃ run run' : FeedRun ⟨6, by decide⟩ (fun _ : Fin 1 => tsla) .little [tslaAdd, tslaCancel] 0,
      run.cacheStockLocate 0 = 0 ∧ run'.cacheStockLocate 0 = 7 ∧
      SameOutcome run.outcome run'.outcome := by
  obtain ⟨run, hrun⟩ := exists_feedRun [tslaAdd, tslaCancel] 0 cancelSchedule (by decide +kernel)
  obtain ⟨run', hrun'⟩ := exists_feedRun [tslaAdd, tslaCancel] 7 cancelSchedule (by decide +kernel)
  refine ⟨run, run', hrun, hrun', ?_⟩
  obtain ⟨-, hlost⟩ := tslaCancel_missesNone.resolve_left (by decide)
  refine (locate_cache_iff tslaCancel_sized (.inl rfl) tslaCancel_valid.itchFeed run run').mpr ⟨?_, ?_, ?_⟩
  · rw [hrun]
    exact tslaCancel_missesNone.spared
  · rw [hrun']
    exact .inl rfl
  · refine .inr (.inl ⟨?_, hlost⟩)
    rw [tslaCancel_messages]
    rfl

/-- The stock's first message is an 'F': its code lets it pass and another value does not. -/
theorem tslaAddMPID_not_sameOutcome :
    ∃ run run' : FeedRun ⟨6, by decide⟩ (fun _ : Fin 1 => tsla) .little [tslaAddMPID] 0,
      run.cacheStockLocate 0 = 0 ∧ run'.cacheStockLocate 0 = 7 ∧
      RightSize tslaAddMPID ∧ ItchFeed tslaCode tsla (feedMessages [tslaAddMPID]) ∧
      ¬ SameOutcome run.outcome run'.outcome := by
  obtain ⟨run, hrun⟩ := exists_feedRun [tslaAddMPID] 0 skipSchedule (by decide +kernel)
  obtain ⟨run', hrun'⟩ := exists_feedRun [tslaAddMPID] 7
    (pushes tslaAddMPID 45 ++ reads (.tryPopMany 2) 6 ++ reads (.tryPopMany 11) 14 ++
      reads (.tryPopMany 29) 32) (by decide +kernel)
  have hsized : RightSize tslaAddMPID := tslaAddMPID_sized _ List.mem_cons_self
  refine ⟨run, run', hrun, hrun', hsized, tslaAddMPID_valid.itchFeed, fun hsame => ?_⟩
  have houtcome := outcome_run tslaAddMPID_sized (.inl rfl) run.run 0 run.whole
  have houtcome' := outcome_run tslaAddMPID_sized (.inl rfl) run'.run 0 run'.whole
  rw [FeedRun.outcome, FeedRun.outcome, houtcome, houtcome', hrun, hrun'] at hsame
  obtain ⟨-, -, hknow | hcatches⟩ :=
    (sameOutcome_iff tslaAddMPID_valid.itchFeed 0 7).mp hsame
  · exact absurd (hknow.mpr rfl) (by decide)
  · unfold CatchesUp lost at hcatches
    rw [tslaAddMPID_message] at hcatches
    obtain ⟨-, hnone⟩ | ⟨hfull, -⟩ := hcatches
    · cases hnone 1
    · refine hfull (Orders.admitted_cons fun hblocked => ?_)
      have hcount := hblocked.2
      simp at hcount

end ItchOrderBook.MarketData

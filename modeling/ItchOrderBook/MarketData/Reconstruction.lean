import ItchOrderBook.MarketData.Admission
import ItchOrderBook.MarketData.SessionSafety

/-! # Reconstruction of one stock

Before its first 'A' the handler lets no message of the target stock pass. From then on
it holds the live orders without those it has missed, until a message names one of these.
-/
namespace ItchOrderBook.MarketData
open AtomicProgram ByteOrder ExactArithmetic Feed Spmc Stse Util Book

/-! ## What the handler makes of a feed -/

/-- The handler holds the live orders of the stock at `locate` without the missed ones. -/
structure Tracks (missed : Orders) (locate : UInt16) (market : Market) (h : Handler) : Prop where
  last : missed.Last (market locate)
  agrees : Agrees ((market locate).without missed) h

/-- The handler ends in the dereference of an empty handle when a message names a missed
order, and else tracks the stock to the end. -/
def Follows (targetStock : Stock) (missed : Orders) (locate : UInt16) (market : Market)
    (h : Handler) (messages : List Located) : Prop :=
  (NamesOneOf missed locate messages ∧
    messages.foldlM (handlerEffects targetStock).onMessage (h, false) =
      .error (.records .nullHandle)) ∨
  (¬ NamesOneOf missed locate messages ∧ ∃ h',
    messages.foldlM (handlerEffects targetStock).onMessage (h, false) = .ok (h', false) ∧
    Tracks missed locate (market.after messages) h')

section Feed
variable {targetStock : Stock} {missed : Orders} {locate : UInt16} {market : Market}
  {messages : List Located}

theorem ValidFeed.count_le (hvalid : ValidFeed locate market messages)
    (hfew : (market locate).count ≤ 65536) : ((market.after messages) locate).count ≤ 65536 := by
  induction messages generalizing market with
  | nil => exact hfew
  | cons m messages ih => exact ih hvalid.2.2 hvalid.2.1

theorem ValidFeed.prefix {front back : List Located}
    (h : ValidFeed locate market (front ++ back)) : ValidFeed locate market front := by
  induction front generalizing market with
  | nil => trivial
  | cons m front ih => exact ⟨h.1, h.2.1, ih h.2.2⟩

theorem namesOneOf_under :
    NamesOneOf missed locate (under locate messages) ↔ NamesOneOf missed locate messages := by
  constructor
  · rintro ⟨m, hm, hnamed⟩
    exact ⟨m, List.mem_of_mem_filter hm, hnamed⟩
  · rintro ⟨m, hm, hlocate, hnamed⟩
    exact ⟨m, List.mem_filter.mpr ⟨hm, decide_eq_true hlocate⟩, hlocate, hnamed⟩

/-- Where the live orders fit into the map, a missed order is named before those that are
not missed fill it, or no missed order is named and the map takes all of the others. -/
theorem names_or_admitted (hlast : missed.Last (market locate))
    (hvalid : ValidFeed locate market messages) (hfew : (market locate).count ≤ 65536) :
    (NamesOneOf missed locate messages ∧ NamesOneOf missed locate
      (((market locate).without missed).admitted (under locate messages))) ∨
    (¬ NamesOneOf missed locate messages ∧
      ((market locate).without missed).admitted (under locate messages) = under locate messages ∧
      missed.Last (market.after messages locate) ∧
      ((market locate).without missed).after (under locate messages) =
        (market.after messages locate).without missed) := by
  induction messages generalizing market with
  | nil =>
    refine .inr ⟨?_, rfl, hlast, rfl⟩
    rintro ⟨m, hm, -⟩
    cases hm
  | cons m messages ih =>
    obtain ⟨hm, hfew', hrest⟩ := hvalid
    by_cases hlocate : m.1 = locate
    · have happly := market.apply_self hlocate
      rw [hlocate] at hm
      rw [happly] at hfew'
      have hroom := Orders.not_blocked_without hlast hm hfew hfew'
      rw [under_cons_self hlocate, Orders.admitted_cons hroom]
      by_cases hspared : ∀ r, m.2.named = some r → missed r = none
      · have hapart := Orders.apart hlast hm hspared
        have hrest := ih (happly ▸ hapart.last) hrest (happly ▸ hfew')
        rw [happly, ← hapart.apply] at hrest
        rw [namesOneOf_cons fun _ => hspared, namesOneOf_cons fun _ => hspared]
        exact hrest.imp_right fun ⟨hnames, hall, hkept⟩ => ⟨hnames, by rw [hall], hkept⟩
      · push Not at hspared
        obtain ⟨r, hnamed, hmissed⟩ := hspared
        exact .inl ⟨⟨m, List.mem_cons_self, hlocate, r, hnamed, hmissed⟩,
          m, List.mem_cons_self, hlocate, r, hnamed, hmissed⟩
    · have happly := market.apply_other hlocate
      have hrest := ih (happly ▸ hlast) hrest hfew'
      rw [happly] at hrest
      rwa [under_cons_other hlocate, namesOneOf_cons fun heq => absurd heq hlocate]

variable {code : Stock → UInt16}

/-- The messages before the first 'A' of the target stock are as good as not there. -/
theorem foldlM_sinceOpened {cacheStockLocate : UInt16}
    (hcache : ∀ m ∈ messages, m.1 ≠ cacheStockLocate) :
    messages.foldlM (handlerEffects targetStock).onMessage (Handler.fresh cacheStockLocate, false) =
      (sinceOpened targetStock messages).foldlM (handlerEffects targetStock).onMessage
        (Handler.fresh cacheStockLocate, false) := by
  have hfront : (before targetStock messages).foldlM (handlerEffects targetStock).onMessage
      (Handler.fresh cacheStockLocate, false) = .ok (Handler.fresh cacheStockLocate, false) := by
    apply foldlM_same
    exact fun m hm => onMessage_ignored (hcache m (List.takeWhile_subset _ hm)) (opens_before hm) false
  conv_lhs => rw [← before_append targetStock messages]
  rw [List.foldlM_append, hfront]
  rfl

/-- On an ITCH-valid feed the handler follows the target stock from its first 'A' on, having
missed the orders that are live then. -/
theorem fresh_follows (hvalid : ItchValid code targetStock messages) (cacheStockLocate : UInt16) :
    Follows targetStock (lost targetStock (code targetStock) messages) (code targetStock)
      (Market.empty.after (before targetStock messages)) (Handler.fresh cacheStockLocate)
      (sinceOpened targetStock messages) := by
  have hfeed := hvalid.valid
  rw [← before_append targetStock messages] at hfeed
  have hfew := hfeed.prefix.count_le (by simp [Market.empty])
  have hkept := Orders.without_self (lost targetStock (code targetStock) messages)
  have hadmits := admits_sinceOpened hvalid.itchFeed cacheStockLocate
  rw [← hkept] at hadmits
  unfold lost at hadmits
  unfold Follows lost
  rw [foldlM_eq_runMessages]
  rcases names_or_admitted (fun _ _ ho => ho) hfeed.append hfew with
    ⟨hnames, hreached⟩ | ⟨hnames, hall, hlast, hafter⟩
  · rw [(hadmits.resolve_right fun h => h.1 hreached).2]
    exact .inl ⟨hnames, rfl⟩
  · have hspared := hnames
    rw [← namesOneOf_under, ← hall] at hspared
    obtain ⟨-, h, hrun, hagrees⟩ := hadmits.resolve_left fun h => hspared h.1
    rw [hall, hafter] at hagrees
    rw [hrun, hall, endOf, if_pos rfl]
    exact .inr ⟨hnames, h, rfl, hlast, hagrees⟩

end Feed

/-- Without the dereference of an empty handle, the records are the live orders and each
side of the book their depth. -/
def Reconstructs (orders : Orders) (result : Except Fault (Handler × Bool)) : Prop :=
  result ≠ .error (.records .nullHandle) → ∃ h noted, result = .ok (h, noted) ∧
    h.orderRecords.entries = orders.records ∧ h.orderBook.HasDepth orders.depth

theorem Tracks.reconstructs_iff {missed : Orders} {locate : UInt16} {market : Market} {h : Handler}
    (ht : Tracks missed locate market h) (noted : Bool) :
    Reconstructs (market locate) (.ok (h, noted)) ↔ ∀ r, missed r = none := by
  constructor
  · intro hreconstructs r
    obtain ⟨h', noted', hresult, hentries, -⟩ := hreconstructs (by simp)
    obtain ⟨rfl, -⟩ := Prod.mk.inj (Except.ok.inj hresult)
    rw [ht.agrees.records.entries] at hentries
    cases hmissed : missed r with
    | none => rfl
    | some o =>
      have hlive := congrFun hentries r
      simp [Orders.records, Orders.without, hmissed, ht.last r o hmissed] at hlive
  · intro hnone _
    have hagrees := ht.agrees
    rw [Orders.without_empty hnone] at hagrees
    exact ⟨h, noted, rfl, hagrees.records.entries, hagrees.book⟩

theorem foldlM_reconstructs_iff {targetStock : Stock} {code : Stock → UInt16}
    {messages : List Located} (hvalid : ItchValid code targetStock messages)
    {cacheStockLocate : UInt16} (hcache : ∀ m ∈ messages, m.1 ≠ cacheStockLocate) :
    Reconstructs (Market.empty.after messages (code targetStock))
      (messages.foldlM (handlerEffects targetStock).onMessage (Handler.fresh cacheStockLocate, false)) ↔
    (∀ r, lost targetStock (code targetStock) messages r = none) ∨
    NamesOneOf (lost targetStock (code targetStock) messages) (code targetStock)
      (sinceOpened targetStock messages) := by
  rw [foldlM_sinceOpened hcache]
  rcases fresh_follows hvalid cacheStockLocate with ⟨hnames, hfault⟩ | ⟨hspared, h, hrun, ht⟩
  · rw [hfault]
    exact iff_of_true (fun hne => absurd rfl hne) (.inr hnames)
  · rw [hrun, or_iff_left hspared]
    rw [← Market.after_append, before_append] at ht
    exact ht.reconstructs_iff false

/-- A handler that has consumed an ITCH-valid feed without dereferencing an empty handle
holds the live orders of its stock exactly if none of them was live when the stock's first
'A' came; it dereferences one if a later message names such an order. -/
theorem reconstruction_iff {C : Capacity} {n : ℕ} (targetStock : Fin (n + 1) → Stock)
    (native : Endian) (buffer : Fin C.size → UInt8) (cacheStockLocate : Fin (n + 1) → UInt16)
    (frames : List Frame) (hsized : ∀ f ∈ frames, RightSize f)
    (hfew : n = 0 ∨ (wire frames).length < 2 ^ 64)
    (schedule : List (Choice (Thread n) (Thread.Call UInt8)))
    (cfg : ReplayConfig C (fun c => handlerEffects (targetStock c)) native)
    (hrun : (Spmc.queue UInt8 C n).run (makeSpmc buffer (replayStart _ native (wire frames)
      fun c => (Handler.fresh (cacheStockLocate c), false))) schedule = some cfg)
    (c : Fin (n + 1)) (code : Stock → UInt16)
    (hvalid : ItchValid code (targetStock c) (feedMessages frames))
    (hcache : ∀ m ∈ feedMessages frames, m.1 ≠ cacheStockLocate c)
    (hall : (sessionOf cfg c).framesRead.length = frames.length) :
    Reconstructs (Market.empty.after (feedMessages frames) (code (targetStock c)))
      (sessionOf cfg c).result ↔
    (∀ r, lost (targetStock c) (code (targetStock c)) (feedMessages frames) r = none) ∨
    NamesOneOf (lost (targetStock c) (code (targetStock c)) (feedMessages frames))
      (code (targetStock c)) (sinceOpened (targetStock c) (feedMessages frames)) := by
  have hprogress := ((replaying_run hsized hfew hrun).session c).progress
  have hresult := hprogress.result
  rw [hall, List.take_length, foldlM_onFrame] at hresult
  rw [← hresult]
  exact foldlM_reconstructs_iff hvalid hcache

/-! ## Two feeds -/

/-- A header with the message type and locate code 7. -/
def tslaHeader (messageType : Char) : List UInt8 := [messageType.toUInt8, 0, 7, 0, 0, 0, 0, 0, 0, 0, 0]

/-- An order 1 to buy 100 shares at 50. -/
def tslaOrder : List UInt8 := [0, 0, 0, 0, 0, 0, 0, 1, 'B'.toUInt8] ++ [0, 0, 0, 100] ++ tsla.toList ++
  [0, 0, 0, 50]

def tslaAdd : Frame := ⟨tslaHeader 'A' ++ tslaOrder, by decide⟩

/-- The same order with an attribution. -/
def tslaAddMPID : Frame := ⟨tslaHeader 'F' ++ tslaOrder ++ List.replicate 4 0, by decide⟩

/-- A cancellation of 40 shares of order 1. -/
def tslaCancel : Frame := ⟨tslaHeader 'X' ++ [0, 0, 0, 0, 0, 0, 0, 1] ++ [0, 0, 0, 40], by decide⟩

theorem tslaAddMPID_message : feedMessages [tslaAddMPID] =
    [(7, .addOrderMPID ⟨1, 'B'.toUInt8, 100, tsla, 50⟩)] := by
  decide +kernel

theorem tslaCancel_messages : feedMessages [tslaAdd, tslaCancel] =
    [(7, .addOrder ⟨1, 'B'.toUInt8, 100, tsla, 50⟩), (7, .orderCancel ⟨1, 40⟩)] := by
  decide +kernel

theorem rightSize_of_kind {f : Frame} {kind : MessageKind}
    (hkind : MessageKind.ofType? (wireHeader f.body).messageType = some kind)
    (hlength : f.body.length = sizeOnWire headerViewType + sizeOnWire kind.layout) : RightSize f where
  header := hlength ▸ Nat.le_add_right _ _
  message kind' hkind' := by
    obtain rfl := Option.some.inj (hkind.symm.trans hkind')
    exact hlength

theorem tslaAddMPID_sized : ∀ f ∈ [tslaAddMPID], RightSize f := by
  intro f hf
  obtain rfl := List.mem_singleton.mp hf
  exact rightSize_of_kind (show _ = some MessageKind.addOrderMPID by decide) rfl

theorem tslaCancel_sized : ∀ f ∈ [tslaAdd, tslaCancel], RightSize f := by
  intro f hf
  rcases List.mem_cons.mp hf with rfl | hf
  · exact rightSize_of_kind (show _ = some MessageKind.addOrder by decide) rfl
  · obtain rfl := List.mem_singleton.mp hf
    exact rightSize_of_kind (show _ = some MessageKind.orderCancel by decide) rfl

/-- Every stock but the target has locate code 8. -/
def tslaCode (stock : Stock) : UInt16 := if stock = tsla then 7 else 8

theorem tslaCode_eq {stock : Stock} (h : tslaCode stock = tslaCode tsla) : stock = tsla := by
  by_contra hne
  simp [tslaCode, hne] at h

def pushes (f : Frame) (steps : ℕ) : List (Choice (Thread 0) (Thread.Call UInt8)) :=
  Choice.through .producer (ProducerCall.tryPushMany f.bytes) steps

def reads (call : ConsumerCall) (steps : ℕ) : List (Choice (Thread 0) (Thread.Call UInt8)) :=
  Choice.through soleHandler call steps

/-- The feed's one frame is pushed, then read and skipped. -/
def skipSchedule : List (Choice (Thread 0) (Thread.Call UInt8)) :=
  pushes tslaAddMPID 45 ++ reads (.tryPopMany 2) 6 ++ reads (.tryPopMany 11) 14 ++
    reads (.trySkipMany 29) 3

/-- The feed adds and then cancels in part; the handler reads both messages. -/
def cancelSchedule : List (Choice (Thread 0) (Thread.Call UInt8)) :=
  pushes tslaAdd 41 ++ pushes tslaCancel 28 ++ reads (.tryPopMany 2) 6 ++
    reads (.tryPopMany 11) 14 ++ reads (.tryPopMany 25) 28 ++ reads (.tryPopMany 2) 5 ++
    reads (.tryPopMany 11) 14 ++ reads (.tryPopMany 12) 15

/-- A queue of 64 bytes with a handler of TSLA. -/
abbrev TslaReplay := ReplayConfig ⟨6, by decide⟩ (fun _ : Fin 1 => handlerEffects tsla) .little

def tslaStart (frames : List Frame) : TslaReplay :=
  makeSpmc (fun _ => 0) (replayStart (fun _ => handlerEffects tsla) .little (wire frames)
    fun _ => (Handler.fresh 0, false))

theorem tslaCancel_valid : ItchValid tslaCode tsla (feedMessages [tslaAdd, tslaCancel]) := by
  rw [tslaCancel_messages]
  refine ⟨fun m hm stock hs => ?_, fun _ _ _ _ => tslaCode_eq, ?_⟩
  · rcases List.mem_cons.mp hm with rfl | hm
    · obtain rfl := Option.some.inj hs
      rfl
    · obtain rfl := List.mem_singleton.mp hm
      cases hs
  · have hone := Orders.empty.count_apply_le (.addOrder ⟨1, 'B'.toUInt8, 100, tsla, 50⟩)
    have htwo := Orders.count_apply_le (Message.apply Orders.empty
      (.addOrder ⟨1, 'B'.toUInt8, 100, tsla, 50⟩)) (.orderCancel ⟨1, 40⟩)
    rw [Orders.count_empty] at hone
    refine ⟨⟨rfl, by decide⟩, hone.trans (by decide), ⟨_, rfl, by decide⟩, ?_, trivial⟩
    exact htwo.trans (by omega)

theorem tslaAddMPID_valid : ItchValid tslaCode tsla (feedMessages [tslaAddMPID]) := by
  rw [tslaAddMPID_message]
  refine ⟨fun m hm stock hs => ?_, fun _ _ _ _ => tslaCode_eq, ⟨⟨rfl, by decide⟩, ?_, trivial⟩⟩
  · obtain rfl := List.mem_singleton.mp hm
    obtain rfl := Option.some.inj hs
    rfl
  · have hone := Orders.empty.count_apply_le (.addOrderMPID ⟨1, 'B'.toUInt8, 100, tsla, 50⟩)
    rw [Orders.count_empty] at hone
    exact hone.trans (by decide)

theorem cancelSchedule_reconstructs : ∃ cfg : TslaReplay,
    (queue UInt8 ⟨6, by decide⟩ 0).run (tslaStart [tslaAdd, tslaCancel]) cancelSchedule = some cfg ∧
    (sessionOf cfg 0).framesRead.length = 2 ∧
    Reconstructs (Market.empty.after (feedMessages [tslaAdd, tslaCancel]) 7)
      (sessionOf cfg 0).result := by
  have hran : ((queue UInt8 ⟨6, by decide⟩ 0).run (tslaStart [tslaAdd, tslaCancel])
      cancelSchedule).map (fun cfg => (sessionOf cfg 0).framesRead.length) = some 2 := by
    decide +kernel
  obtain ⟨cfg, hrun, hall⟩ := Option.map_eq_some_iff.mp hran
  have hcache : ∀ m ∈ feedMessages [tslaAdd, tslaCancel], m.1 ≠ 0 := by
    rw [tslaCancel_messages]
    decide
  have hlost : ∀ r, lost tsla 7 (feedMessages [tslaAdd, tslaCancel]) r = none := by
    intro r
    rw [tslaCancel_messages]
    rfl
  exact ⟨cfg, hrun, hall, (reconstruction_iff (fun _ => tsla) .little (fun _ => 0) (fun _ => 0)
    [tslaAdd, tslaCancel] tslaCancel_sized (.inl rfl) cancelSchedule cfg hrun 0 tslaCode tslaCancel_valid
    hcache hall).mpr (.inl hlost)⟩

/-- The order is live and the handler has no record of it. -/
theorem skipSchedule_misses : ∃ cfg : TslaReplay,
    (queue UInt8 ⟨6, by decide⟩ 0).run (tslaStart [tslaAddMPID]) skipSchedule = some cfg ∧
    (sessionOf cfg 0).framesRead.length = 1 ∧
    ItchValid tslaCode tsla (feedMessages [tslaAddMPID]) ∧
    ¬ Reconstructs (Market.empty.after (feedMessages [tslaAddMPID]) 7)
      (sessionOf cfg 0).result := by
  have hran : ((queue UInt8 ⟨6, by decide⟩ 0).run (tslaStart [tslaAddMPID]) skipSchedule).map
      (fun cfg => (sessionOf cfg 0).framesRead.length) = some 1 := by
    decide +kernel
  obtain ⟨cfg, hrun, hall⟩ := Option.map_eq_some_iff.mp hran
  refine ⟨cfg, hrun, hall, tslaAddMPID_valid, fun hreconstructs => ?_⟩
  have hresult := ((replaying_run tslaAddMPID_sized (.inl rfl) hrun).session 0).progress.result
  have hignored : (sessionOf cfg 0).result = .ok (Handler.fresh 0, false) := by
    rw [← hresult, hall, foldlM_onFrame]
    change (feedMessages [tslaAddMPID]).foldlM _ _ = _
    rw [tslaAddMPID_message]
    rfl
  obtain ⟨h, noted, hok, hentries, -⟩ := hreconstructs (by rw [hignored]; simp)
  rw [hignored] at hok
  obtain ⟨rfl, -⟩ := Prod.mk.inj (Except.ok.inj hok)
  rw [tslaAddMPID_message] at hentries
  have hlive := congrFun hentries 1
  rw [show (Handler.fresh 0).orderRecords.entries 1 = none from OpenAddressMap.entries_default 1] at hlive
  cases hlive

end ItchOrderBook.MarketData

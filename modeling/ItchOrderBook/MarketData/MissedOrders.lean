import ItchOrderBook.MarketData.Market
import Mathlib.Data.List.TakeWhile

/-! # Missed orders

A handler that has missed live orders holds the others. Messages that name none of the
missed ones do to these what they do to all, and one that does makes it dereference an
empty handle.
-/
namespace ItchOrderBook.MarketData
open ExactArithmetic Util

/-! ## Orders without the missed ones -/

namespace Orders

/-- The orders without those of `missed`. -/
def without (orders missed : Orders) : Orders := fun r =>
  if (missed r).isSome then none else orders r

/-- The missed orders are live as they were. -/
def Last (missed orders : Orders) : Prop := ∀ r o, missed r = some o → orders r = some o

variable {orders missed : Orders} {r : UInt64}

theorem without_of_none (h : missed r = none) : orders.without missed r = orders r := by
  simp [without, h]

theorem without_self (orders : Orders) : orders.without orders = empty := by
  funext r
  cases h : orders r <;> simp [without, empty, h]

theorem without_empty (h : ∀ r, missed r = none) : orders.without missed = orders := by
  funext r
  exact without_of_none (h r)

theorem without_update (h : missed r = none) (x : Option Order) :
    without (Function.update orders r x) missed =
      Function.update (orders.without missed) r x := by
  funext r'
  by_cases hr : r' = r
  · subst hr
    simp [without, h]
  · simp [without, Function.update_of_ne hr]

theorem Last.none_of_none (h : missed.Last orders) (hr : orders r = none) : missed r = none := by
  cases hm : missed r with
  | none => rfl
  | some o =>
    rw [h r o hm] at hr
    cases hr

theorem Last.update (h : missed.Last orders) (hr : missed r = none) (x : Option Order) :
    missed.Last (Function.update orders r x : Orders) := by
  intro r' o ho
  by_cases hne : r' = r
  · subst hne
    rw [hr] at ho
    cases ho
  · rw [Function.update_of_ne hne]
    exact h r' o ho

theorem count_without_le (orders missed : Orders) : (orders.without missed).count ≤ orders.count := by
  refine Set.ncard_le_ncard ?_ (Set.toFinite _)
  intro r hr
  by_cases hm : (missed r).isSome
  · simp [without, hm] at hr
  · simpa [without, hm] using hr

/-- One missed order leaves room for one more. -/
theorem count_without_lt (h : missed.Last orders) (hr : missed r ≠ none) :
    (orders.without missed).count < orders.count := by
  obtain ⟨o, ho⟩ := Option.ne_none_iff_exists'.mp hr
  refine Set.ncard_lt_ncard ⟨?_, fun hsub => ?_⟩ (Set.toFinite _)
  · intro r' hr'
    by_cases hm : (missed r').isSome
    · simp [without, hm] at hr'
    · simpa [without, hm] using hr'
  · have hlive : (orders r).isSome := by rw [h r o ho]; rfl
    have hgone := hsub hlive
    simp [without, ho] at hgone

/-- A message that names no missed order does to the others what it does to all. -/
structure Apart (missed orders : Orders) (m : Message) : Prop where
  valid : m.Valid (orders.without missed)
  apply : m.apply (orders.without missed) = (m.apply orders).without missed
  last : missed.Last (m.apply orders)

theorem apart_update {m : Message} (hlast : missed.Last orders) (hr : missed r = none)
    {x : Option Order} (hvalid : m.Valid (orders.without missed))
    (hkept : m.apply (orders.without missed) = Function.update (orders.without missed) r x)
    (hall : m.apply orders = Function.update orders r x) : Apart missed orders m := by
  refine ⟨hvalid, ?_, ?_⟩
  · rw [hkept, hall, without_update hr]
  · rw [hall]
    exact hlast.update hr x

theorem HasShares.without {n : ℕ} (h : orders.HasShares r n) (hr : missed r = none) :
    (orders.without missed).HasShares r n := by
  obtain ⟨o, ho, hle⟩ := h
  exact ⟨o, (without_of_none hr).trans ho, hle⟩

theorem apart_reduce {m : Message} (hlast : missed.Last orders) (hr : missed r = none) {n : ℕ}
    (hn : orders.HasShares r n) (hvalid : m.Valid (orders.without missed))
    (happly : ∀ orders : Orders, m.apply orders = orders.reduce r n) : Apart missed orders m := by
  obtain ⟨o, ho, -⟩ := hn
  apply apart_update hlast hr hvalid
  · rw [happly, reduce_of_some ((without_of_none hr).trans ho)]
  · rw [happly, reduce_of_some ho]

theorem apart_replace (hlast : missed.Last orders) {message : OrderReplaceMessage}
    (hm : (Message.orderReplace message).Valid orders)
    (hr : missed message.originalOrderReferenceNumber = none) :
    Apart missed orders (.orderReplace message) := by
  obtain ⟨hlive, hnew, hpos⟩ := hm
  have hr' : missed message.newOrderReferenceNumber = none := by
    rcases hnew with hfree | hsame
    · exact hlast.none_of_none hfree
    · rw [hsame]
      exact hr
  obtain ⟨o, ho⟩ := Option.isSome_iff_exists.mp hlive
  have ho' := (without_of_none hr).trans ho
  refine ⟨⟨?_, ?_, hpos⟩, ?_, ?_⟩
  · rw [ho']
    rfl
  · rw [without_of_none hr']
    exact hnew
  · change replace _ _ = without (replace _ _) _
    rw [replace_of_some ho, replace_of_some ho', without_update hr', without_update hr]
  · change missed.Last (replace _ _)
    rw [replace_of_some ho]
    exact (hlast.update hr none).update hr' _

theorem apart (hlast : missed.Last orders) {m : Message} (hm : m.Valid orders)
    (hnamed : ∀ r, m.named = some r → missed r = none) : Apart missed orders m := by
  cases m with
  | addOrder message =>
    have hr := hlast.none_of_none hm.1
    exact apart_update hlast hr ⟨(without_of_none hr).trans hm.1, hm.2⟩ rfl rfl
  | addOrderMPID message =>
    have hr := hlast.none_of_none hm.1
    exact apart_update hlast hr ⟨(without_of_none hr).trans hm.1, hm.2⟩ rfl rfl
  | orderExecuted message =>
    have hr := hnamed _ rfl
    exact apart_reduce hlast hr hm (HasShares.without hm hr) fun _ => rfl
  | orderExecutedWithPrice message =>
    have hr := hnamed _ rfl
    exact apart_reduce hlast hr hm (HasShares.without hm hr) fun _ => rfl
  | orderCancel message =>
    have hr := hnamed _ rfl
    exact apart_reduce hlast hr hm (HasShares.without hm hr) fun _ => rfl
  | orderDelete message =>
    have hr := hnamed _ rfl
    refine apart_update hlast hr ?_ rfl rfl
    change (orders.without missed message.orderReferenceNumber).isSome
    rw [without_of_none hr]
    exact hm
  | orderReplace message => exact apart_replace hlast hm (hnamed _ rfl)

end Orders

/-! ## A message that names a missed order -/

section Missing
variable {orders : Orders} {h : Handler}

theorem RecordsOf.find_absent {records : OrderRecords} (hrecords : RecordsOf orders records)
    {r : UInt64} (hr : orders r = none) (hroom : orders.count < 65536) :
    onRecords (records.find r) = pure (none, (records.find r).2) := by
  have hnone : records.entries r = none := by
    rw [hrecords.entries, Orders.records, hr]
    rfl
  have hfew : {k | (records.entries k).isSome}.ncard < 2 ^ 16 := by
    rw [hrecords.entries, Orders.ncard_records]
    exact hroom
  unfold onRecords
  rw [OpenAddressMap.find_of_absent hrecords.sound hnone hfew]

/-- A message that names an order looks it up and dereferences the handle. -/
theorem Handler.simulate_named (h : Handler) (targetStock : Stock) (stockLocate : UInt16)
    {m : Message} {r : UInt64} (hnamed : m.named = some r) :
    ∃ rest : Handle 16 × OrderRecords → Fin (2 ^ 16) → Noting Fault Handler,
      h.simulate targetStock stockLocate m =
        onRecords (h.orderRecords.find r) >>= fun found => dereference found.1 >>= rest found := by
  cases m with
  | addOrder message => cases hnamed
  | addOrderMPID message => cases hnamed
  | _ =>
    obtain rfl := Option.some.inj hnamed
    exact ⟨_, rfl⟩

/-- It dereferences an empty handle. -/
theorem Agrees.simulate_absent (hh : Agrees orders h) (hroom : orders.count < 65536)
    (targetStock : Stock) (stockLocate : UInt16) {m : Message} {r : UInt64}
    (hnamed : m.named = some r) (hr : orders r = none) (w : Bool) :
    h.simulate targetStock stockLocate m w = .error (.records .nullHandle) := by
  obtain ⟨rest, hsimulate⟩ := h.simulate_named targetStock stockLocate hnamed
  rw [hsimulate, hh.records.find_absent hr hroom]
  rfl

end Missing

/-! ## The filter -/

section Filter
variable {targetStock : Stock} {missed : Orders} {locate : UInt16} {h : Handler}
  {messages : List Located}

theorem isAddOrder_eq {m : Message} (h : m.isAddOrder = true) :
    ∃ message, m = .addOrder message := by
  cases m with
  | addOrder message => exact ⟨message, rfl⟩
  | _ => cases h

theorem ofStock_of_stock? {m : Message} (h : ∀ stock, m.stock? = some stock → stock = targetStock) :
    m.OfStock targetStock := by
  cases m with
  | addOrder message => exact h _ rfl
  | addOrderMPID message => exact h _ rfl
  | _ => trivial

/-- A message under another code that does not open the target stock changes nothing. -/
theorem onMessage_ignored {m : Located} (hcode : m.1 ≠ h.cacheStockLocate)
    (hopens : opens targetStock m = false) (w : Bool) :
    (handlerEffects targetStock).onMessage (h, w) m = .ok (h, w) := by
  cases hadd : m.2.isAddOrder with
  | false => exact if_pos ⟨hadd, hcode⟩
  | true =>
    obtain ⟨message, hm⟩ := isAddOrder_eq hadd
    have hstock : message.stock ≠ targetStock := by
      intro heq
      simp [opens, hm, Message.isAddOrder, Message.stock?, heq] at hopens
    rw [Effects.onMessage, if_neg (by simp [hadd])]
    change h.simulate targetStock m.1 m.2 w = _
    rw [hm]
    change h.addOrder targetStock m.1 message w = _
    rw [Handler.addOrder, if_pos hstock]
    rfl

theorem onMessage_own (targetStock : Stock) {m : Located} (hown : m.2.isAddOrder = true ∨ m.1 = h.cacheStockLocate)
    (w : Bool) : (handlerEffects targetStock).onMessage (h, w) m =
      h.simulate targetStock m.1 m.2 w := by
  refine if_neg fun hfiltered => ?_
  rcases hown with hadd | hcode
  · rw [hadd] at hfiltered
    cases hfiltered.1
  · exact hfiltered.2 hcode

theorem namesOneOf_cons {m : Located} {messages : List Located}
    (hspared : m.1 = locate → ∀ r, m.2.named = some r → missed r = none) :
    NamesOneOf missed locate (m :: messages) ↔ NamesOneOf missed locate messages := by
  constructor
  · rintro ⟨m', hmem, hlocate, r, hnamed, hmissed⟩
    rcases List.mem_cons.mp hmem with rfl | hmem
    · exact absurd (hspared hlocate r hnamed) hmissed
    · exact ⟨m', hmem, hlocate, r, hnamed, hmissed⟩
  · rintro ⟨m', hmem, hnamed⟩
    exact ⟨m', List.mem_cons_of_mem m hmem, hnamed⟩

theorem not_namesOneOf_cons {m : Located} (hlocate : m.1 = locate) :
    ¬ NamesOneOf missed locate (m :: messages) ↔
      (∀ r, m.2.named = some r → missed r = none) ∧ ¬ NamesOneOf missed locate messages := by
  constructor
  · intro hnames
    have hspared : ∀ r, m.2.named = some r → missed r = none := by
      intro r hnamed
      by_contra hmissed
      exact hnames ⟨m, List.mem_cons_self, hlocate, r, hnamed, hmissed⟩
    exact ⟨hspared, (namesOneOf_cons fun _ => hspared).not.mp hnames⟩
  · rintro ⟨hspared, hnames⟩
    exact (namesOneOf_cons fun _ => hspared).not.mpr hnames

theorem opens_before {m : Located} (hm : m ∈ before targetStock messages) :
    opens targetStock m = false := by
  have hnot := List.mem_takeWhile_imp hm
  simpa using hnot

theorem opens_of_sinceOpened {m : Located} {rest : List Located}
    (h : sinceOpened targetStock messages = m :: rest) : opens targetStock m = true := by
  have hhead := List.head?_dropWhile_not (fun m => !opens targetStock m) messages
  unfold sinceOpened at h
  rw [h] at hhead
  simpa using hhead

end Filter

end ItchOrderBook.MarketData

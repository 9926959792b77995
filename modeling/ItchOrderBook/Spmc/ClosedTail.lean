import ItchOrderBook.Spmc.Closing
import Mathlib.Data.List.FinRange

/-! # The tail of a closed queue

In a run that never closes the queue over a consumer between its two loads, a call that
reports a closed queue leaves fewer items than it asked for.
-/
namespace ItchOrderBook.Spmc
open AtomicProgram

variable {T : Type} {C : Capacity} {n : ℕ} {D : Driver (Thread n) (Thread.Call T) (Thread.Ret T)}

/-- The flag is not stored while a consumer is about to load it with all it asked for
unread. -/
def settledClose (cfg : QueueConfig T C n D) : Choice (Thread n) (Thread.Call T) → Bool
  | .go .producer =>
    match cfg.status .producer with
    | .running _ (.act (.storeIsClosed _) _) => (List.finRange (n + 1)).all fun c =>
      match cfg.status (.consumer c) with
      | .running call rest => !atFlag rest || cfg.world.shared.short c (ConsumerCall.count call)
      | .idle _ => true
    | _ => true
  | _ => true

/-- After `close` the producer makes no more calls. -/
structure ClosesLast (D : Driver (Thread n) (Thread.Call T) (Thread.Ret T))
    (closed : D.State .producer → Prop) : Prop where
  closes : ∀ s, D.offers .producer s ProducerCall.close = true →
    closed (D.after .producer s ProducerCall.close ProducerResult.closed)
  refuses : ∀ s call, closed s → D.offers .producer s call = false

theorem settled_of_close {cfg : QueueConfig T C n D}
    (h : settledClose cfg (.go .producer) = true) {pcall : ProducerCall T} {value : Bool}
    {next : Unit → Code T C n (ProducerResult × UInt64)}
    (hproducer : cfg.status .producer = .running pcall (.act (.storeIsClosed value) next))
    {c : Fin (n + 1)} {call : ConsumerCall} {rest : Code T C n (ConsumerResult T × UInt64)}
    (hconsumer : cfg.status (.consumer c) = .running call rest) (hflag : atFlag rest = true) :
    cfg.world.shared.short c call.count = true := by
  rw [settledClose, hproducer] at h
  have hall := List.all_eq_true.mp h c (List.mem_finRange c)
  rw [hconsumer] at hall
  simpa [hflag] using hall

/-! ## What a step of another thread leaves -/

section Interference
variable {c : Fin (n + 1)} {count : UInt64} {flag : Bool} {b : RingBuffer T C n}

theorem ProducerAccess.interferes {call : ProducerCall T} {a : Access T C n}
    (ha : ProducerAccess call a) (hclosed : b.isClosed = true → call = .close)
    (hsettled : ∀ value, a = .storeIsClosed value → flag = true → b.short c count = true) :
    Interferes c count flag b (a.exec b).2 := by
  cases a with
  | storeReadIdx d value => exact ha.elim
  | storeWriteIdx value =>
    refine ⟨rfl, fun h => absurd (hclosed h) ha, fun _ hopen hnow => ?_⟩
    exact absurd (hopen.symm.trans hnow) (by simp)
  | storeIsClosed value =>
    obtain ⟨-, rfl⟩ := ha
    exact ⟨rfl, fun _ => ⟨rfl, rfl⟩, fun hflag _ _ => hsettled true rfl hflag⟩
  | _ => exact ⟨rfl, fun h => ⟨h, rfl⟩, fun _ hopen hnow => absurd (hopen.symm.trans hnow) (by simp)⟩

theorem ConsumerAccess.interferes {d : Fin (n + 1)} (hd : c ≠ d) {a : Access T C n}
    (ha : ConsumerAccess d a) : Interferes c count flag b (a.exec b).2 := by
  cases a with
  | storeReadIdx e value =>
    obtain rfl : e = d := ha
    have hread : Function.update b.readIdx e value c = b.readIdx c := Function.update_of_ne hd ..
    refine ⟨hread, fun h => ⟨h, rfl⟩, fun _ hopen hnow => ?_⟩
    exact absurd (hopen.symm.trans hnow) (by simp)
  | storeIsClosed value => exact ha.elim
  | storeWriteIdx value => exact ha.elim
  | _ => exact ⟨rfl, fun h => ⟨h, rfl⟩, fun _ hopen hnow => absurd (hopen.symm.trans hnow) (by simp)⟩

/-- A consumer never stores the flag. -/
theorem ConsumerAccess.isClosed {a : Access T C n} (ha : ConsumerAccess c a) :
    (a.exec b).2.isClosed = b.isClosed := by
  cases a with
  | storeIsClosed value => exact ha.elim
  | _ => rfl

theorem ProducerAccess.isClosed {call : ProducerCall T} {a : Access T C n}
    (ha : ProducerAccess call a) (hclosed : b.isClosed = true → call = .close)
    (h : (a.exec b).2.isClosed = true) : call = .close := by
  cases a with
  | storeIsClosed value => exact ha.1
  | _ => exact hclosed h

end Interference

/-! ## Runs -/

/-- Every call under way reports a closed queue as it is, and once the queue is closed
the producer is in `close` or done. -/
structure Closing (closed : D.State .producer → Prop) (cfg : QueueConfig T C n D) : Prop where
  watch : ∀ (c : Fin (n + 1)) (call : ConsumerCall) rest,
    cfg.status (.consumer c) = .running call rest →
    Watch c call.count (fun r => Reported c call.count r.1.failure) rest cfg.world.shared ∧
    rest.Within (ConsumerAccess c) fun _ => True
  running : ∀ (call : ProducerCall T) rest, cfg.status .producer = .running call rest →
    rest.Within (ProducerAccess call) (fun r => call = .close → r.1 = .closed) ∧
    D.offers .producer (cfg.driver .producer) call = true ∧
    (cfg.world.shared.isClosed = true → call = .close)
  idle : ∀ data, cfg.status .producer = .idle data → cfg.world.shared.isClosed = true →
    closed (cfg.driver .producer)

section Runs
variable {closed : D.State .producer → Prop} {cfg cfg' : QueueConfig T C n D}

theorem Closing.start (hD : ClosesLast D closed) (h : Closing closed cfg) {i : Thread n}
    {call : i.Call T} {data : UInt64} (hstatus : cfg.status i = .idle data)
    (hoffers : D.offers i (cfg.driver i) call = true) :
    Closing closed ((queue T C n).started cfg i call data) := by
  cases i with
  | producer =>
    refine ⟨fun c call' rest hrest => ?_, fun call' rest hrest => ?_, fun data' hdata => ?_⟩
    · exact h.watch c call' rest hrest
    · rw [Machine.started_status] at hrest
      cases hrest
      refine ⟨producer_within call data, hoffers, fun hclosed => ?_⟩
      have hrefuses := hD.refuses _ call (h.idle data hstatus hclosed)
      exact absurd (hoffers.symm.trans hrefuses) (by simp)
    · rw [Machine.started_status] at hdata
      cases hdata
  | consumer c =>
    refine ⟨fun d call' rest hrest => ?_, h.running, h.idle⟩
    by_cases hd : d = c
    · subst hd
      rw [Machine.started_status] at hrest
      obtain ⟨rfl, rfl⟩ := Status.running.inj hrest
      exact ⟨call_watch _ data, consumer_within d _ data⟩
    · rw [Machine.started_status_ne _ _ (by simpa using hd)] at hrest
      exact h.watch d call' rest hrest

theorem Closing.finish (hD : ClosesLast D closed) (h : Closing closed cfg) {i : Thread n}
    {call : i.Call T} {result : i.Ret T} {data : UInt64}
    (hstatus : cfg.status i = .running call (.ret (result, data))) :
    Closing closed (Machine.finished cfg i call result data) := by
  cases i with
  | producer =>
    refine ⟨fun c call' rest hrest => ?_, fun call' rest hrest => ?_, fun data' _ hclosed => ?_⟩
    · exact h.watch c call' rest hrest
    · rw [Machine.finished_status] at hrest
      cases hrest
    · obtain ⟨hreturns, hoffers, hcall⟩ := h.running call _ hstatus
      obtain rfl : call = .close := hcall hclosed
      obtain rfl : result = .closed := hreturns rfl
      rw [Machine.finished_driver]
      exact hD.closes _ hoffers
  | consumer c =>
    have hne : Thread.producer ≠ .consumer c := by simp
    refine ⟨fun d call' rest hrest => ?_, fun call' rest hrest => ?_, fun data' hdata => ?_⟩
    · by_cases hd : d = c
      · subst hd
        rw [Machine.finished_status] at hrest
        cases hrest
      · rw [Machine.finished_status_ne _ (by simpa using hd)] at hrest
        exact h.watch d call' rest hrest
    · rw [Machine.finished_driver_ne _ hne]
      exact h.running call' rest hrest
    · rw [Machine.finished_driver_ne _ hne]
      exact h.idle data' hdata

theorem Closing.act (h : Closing closed cfg) {i : Thread n} {call : i.Call T}
    (hsettled : settledClose cfg (.go i) = true) {action : Access T C n}
    {next : action.Result → Code T C n (i.Ret T × UInt64)}
    (hstatus : cfg.status i = .running call (.act action next)) :
    Closing closed ((queue T C n).acted cfg i call action next) := by
  cases i with
  | producer =>
    obtain ⟨⟨haccess, hnext⟩, hoffers, hcall⟩ := h.running call _ hstatus
    refine ⟨fun c call' rest hrest => ?_, fun call' rest hrest => ?_, fun data' hdata => ?_⟩
    · obtain ⟨hwatch, hwithin⟩ := h.watch c call' rest hrest
      refine ⟨hwatch.stable (haccess.interferes hcall ?_), hwithin⟩
      rintro value rfl hflag
      exact settled_of_close hsettled hstatus hrest hflag
    · rw [Machine.acted_status] at hrest
      cases hrest
      exact ⟨hnext _, hoffers, haccess.isClosed hcall⟩
    · rw [Machine.acted_status] at hdata
      cases hdata
  | consumer c =>
    obtain ⟨hwatch, haccess, hnext⟩ := h.watch c call _ hstatus
    have hflag : ((queue T C n).acted cfg (.consumer c) call action next).world.shared.isClosed =
        cfg.world.shared.isClosed := haccess.isClosed
    refine ⟨fun d call' rest hrest => ?_, fun call' rest hrest => ?_, fun data' hdata => ?_⟩
    · by_cases hd : d = c
      · subst hd
        rw [Machine.acted_status] at hrest
        cases hrest
        exact ⟨hwatch _ (Interferes.refl _), hnext _⟩
      · rw [Machine.acted_status_ne _ _ (by simpa using hd)] at hrest
        obtain ⟨hwatch', hwithin'⟩ := h.watch d call' rest hrest
        exact ⟨hwatch'.stable (haccess.interferes hd), hwithin'⟩
    · rw [hflag]
      exact h.running call' rest hrest
    · rw [hflag]
      exact h.idle data' hdata

theorem Closing.step (hD : ClosesLast D closed) (h : Closing closed cfg)
    {choice : Choice (Thread n) (Thread.Call T)} (hsettled : settledClose cfg choice = true)
    (hstep : (queue T C n).step cfg choice = some cfg') : Closing closed cfg' := by
  cases choice with
  | start i call =>
    obtain ⟨data, hstatus, hoffers, rfl⟩ := Machine.step_start hstep
    exact h.start hD hstatus hoffers
  | go i =>
    obtain ⟨call, action, next, hstatus, rfl⟩ | ⟨call, result, data, hstatus, rfl⟩ :=
      Machine.step_go hstep
    · exact h.act hsettled hstatus
    · exact h.finish hD hstatus

theorem closing_run (hD : ClosesLast D closed) {buffer : Fin C.size → T}
    {driver : (i : Thread n) → D.State i} {schedule : List (Choice (Thread n) (Thread.Call T))}
    (hrun : (queue T C n).runWhere settledClose (makeSpmc buffer driver) schedule = some cfg) :
    Closing closed cfg := by
  apply Machine.runWhere_invariant (P := Closing closed) ?_ ?_ hrun
  · exact fun cfg choice cfg' h hsettled hstep => h.step hD hsettled hstep
  · constructor
    · intro c call rest hrest
      cases hrest
    · intro call rest hrest
      cases hrest
    · intro data _ hclosed
      cases hclosed

/-- A call that is about to report a closed queue leaves fewer items than it asked for. -/
theorem Closing.reported (h : Closing closed cfg) {c : Fin (n + 1)} {call : ConsumerCall}
    {r : ConsumerResult T} {data : UInt64}
    (hstatus : cfg.status (.consumer c) = .running call (.ret (r, data)))
    (hfailure : r.failure = .bufferClosed) : cfg.world.shared.isClosed = true ∧
      cfg.world.shared.writeIdx - cfg.world.shared.readIdx c < call.count := by
  obtain ⟨hwatch, -⟩ := h.watch c call _ hstatus
  obtain ⟨hclosed, hshort⟩ := hwatch _ (Interferes.refl _) hfailure
  exact ⟨hclosed, of_decide_eq_true hshort⟩

end Runs

end ItchOrderBook.Spmc

import ItchOrderBook.MarketData.Ledger
import ItchOrderBook.MarketData.Reconstruction

/-! # Runs of a ledger

A handler keeps its ledger through any messages, valid or not. So in a replay of any feed,
however the threads have gone on, each session is what the ledger makes of the messages it
has read: the hash table's layout shows in no record, no level and no fault.
-/
namespace ItchOrderBook.MarketData
open AtomicProgram ByteOrder ExactArithmetic Feed Spmc Util

/-- The ledger of one stock, with the note whether its share arithmetic has wrapped. -/
noncomputable def ledgerEffects (targetStock : Stock) : Effects (Ledger × Bool) where
  cacheStockLocate l := l.1.cacheStockLocate
  simulate l stockLocate message := l.1.simulate targetStock stockLocate message l.2

noncomputable def Ledger.simulateAll (targetStock : Stock) (l : Ledger) (messages : List Located) :
    Noting Fault Ledger :=
  messages.foldlM (fun l m => l.simulate targetStock m.1 m.2) l

/-- A handler with the note, as its ledger with the note. -/
noncomputable def noted (h : Handler × Bool) : Ledger × Bool := (h.1.ledger, h.2)

theorem keeps_fresh (cacheStockLocate : UInt16) :
    Keeps (Handler.fresh cacheStockLocate) (Ledger.fresh cacheStockLocate) where
  sound := OpenAddressMap.sound_default
  ledger := by
    have hempty : (default : OrderRecords).content = BoundedMap.empty _ _ _ := by
      apply BoundedMap.ext
      funext r
      exact OpenAddressMap.entries_default r
    simp only [Handler.ledger, Handler.fresh, Ledger.fresh, hempty]

section Runs
variable {h : Handler} {l : Ledger}

theorem Keeps.simulate (hk : Keeps h l) (targetStock : Stock) (m : Located) :
    Matches Keeps (h.simulate targetStock m.1 m.2) (l.simulate targetStock m.1 m.2) := by
  obtain ⟨hsound, rfl⟩ := hk
  exact Handler.simulate_matches hsound targetStock m.1 m.2

theorem Keeps.simulateAll (hk : Keeps h l) (targetStock : Stock) (messages : List Located) :
    Matches Keeps (h.simulateAll targetStock messages) (l.simulateAll targetStock messages) :=
  Matches.foldlM (fun _ _ m hk => hk.simulate targetStock m) messages hk

/-- The filter of `poll` reads the locate code, which the two share. -/
theorem Keeps.onMessage (hk : Keeps h l) (targetStock : Stock) (m : Located) (w : Bool) :
    EndsAlike Keeps ((handlerEffects targetStock).onMessage (h, w) m)
      ((ledgerEffects targetStock).onMessage (l, w) m) := by
  have hcode : (ledgerEffects targetStock).cacheStockLocate (l, w) =
      (handlerEffects targetStock).cacheStockLocate (h, w) := by
    simp only [ledgerEffects, handlerEffects, ← hk.ledger, Handler.ledger]
  simp only [Effects.onMessage, hcode]
  split
  · exact .result hk w
  · exact hk.simulate targetStock m w

theorem Keeps.onMessages (hk : Keeps h l) (targetStock : Stock) (messages : List Located) (w : Bool) :
    EndsAlike Keeps (messages.foldlM (handlerEffects targetStock).onMessage (h, w))
      (messages.foldlM (ledgerEffects targetStock).onMessage (l, w)) := by
  induction messages generalizing h l w with
  | nil => exact .result hk w
  | cons m messages ih =>
    simp only [List.foldlM_cons]
    have hm := hk.onMessage targetStock m w
    generalize (handlerEffects targetStock).onMessage (h, w) m = r,
      (ledgerEffects targetStock).onMessage (l, w) m = r' at hm
    cases hm with
    | fault e => exact .fault e
    | result hk' w' => exact ih hk' w'

theorem EndsAlike.map_noted {r : Except Fault (Handler × Bool)} {r' : Except Fault (Ledger × Bool)}
    (h : EndsAlike Keeps r r') : r.map noted = r' := by
  cases h with
  | fault e => rfl
  | result hk w =>
    obtain ⟨-, rfl⟩ := hk
    rfl

end Runs

/-- In every run of a replay, whatever the feed's messages are and however the threads have
gone on, each session is what the ledger makes of the messages it has read: the same records
by reference, the same book, the same locate code and wraps, or the same fault. -/
theorem replay_keeps_ledger {C : Capacity} {n : ℕ} (targetStock : Fin (n + 1) → Stock)
    (native : Endian) (buffer : Fin C.size → UInt8) (cacheStockLocate : Fin (n + 1) → UInt16)
    (frames : List Frame) (hsized : ∀ f ∈ frames, RightSize f)
    (hfew : n = 0 ∨ (wire frames).length < 2 ^ 64)
    (schedule : List (Choice (Thread n) (Thread.Call UInt8)))
    (cfg : ReplayConfig C (fun c => handlerEffects (targetStock c)) native)
    (hrun : (Spmc.queue UInt8 C n).run (makeSpmc buffer (replayStart _ native (wire frames)
      fun c => (Handler.fresh (cacheStockLocate c), false))) schedule = some cfg)
    (c : Fin (n + 1)) :
    (sessionOf cfg c).result.map noted =
      (feedMessages (frames.take (sessionOf cfg c).framesRead.length)).foldlM
        (ledgerEffects (targetStock c)).onMessage (Ledger.fresh (cacheStockLocate c), false) := by
  have hresult := ((replaying_run hsized hfew hrun).session c).progress.result
  have hkept := (keeps_fresh (cacheStockLocate c)).onMessages (targetStock c)
    (feedMessages (frames.take (sessionOf cfg c).framesRead.length)) false
  rw [foldlM_onFrame] at hresult
  rw [hresult] at hkept
  exact EndsAlike.map_noted hkept

/-- The ledger of the order that is added and then cancelled in part. -/
theorem cancelSchedule_ledger : ∃ cfg : TslaReplay,
    (queue UInt8 ⟨6, by decide⟩ 0).run (tslaStart [tslaAdd, tslaCancel]) cancelSchedule = some cfg ∧
    (sessionOf cfg 0).framesRead.length = 2 ∧
    (sessionOf cfg 0).result.map noted =
      (feedMessages [tslaAdd, tslaCancel]).foldlM (ledgerEffects tsla).onMessage
        (Ledger.fresh 0, false) := by
  have hran : ((queue UInt8 ⟨6, by decide⟩ 0).run (tslaStart [tslaAdd, tslaCancel])
      cancelSchedule).map (fun cfg => (sessionOf cfg 0).framesRead.length) = some 2 := by
    decide +kernel
  obtain ⟨cfg, hrun, hall⟩ := Option.map_eq_some_iff.mp hran
  have hkept := replay_keeps_ledger (fun _ => tsla) .little (fun _ => 0) (fun _ => 0)
    [tslaAdd, tslaCancel] tslaCancel_sized (.inl rfl) cancelSchedule cfg hrun 0
  rw [hall] at hkept
  exact ⟨cfg, hrun, hall, hkept⟩

end ItchOrderBook.MarketData

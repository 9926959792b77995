import ItchOrderBook.MarketData.SessionSafety
import ItchOrderBook.Spmc.DataRaces

/-! # A replay on a release/acquire memory

The feed's thread publishes whole frames, and a message of the write index is where that
index was at some time: so every handler, however stale its loads, sees whole frames in its
own world, and its session goes there as it does with sequential consistency.
-/
namespace ItchOrderBook.MarketData
open AtomicProgram ByteOrder Feed Spmc Stse

variable {C : Capacity} {n : ℕ} {H : Type} {E : Fin (n + 1) → Effects H} {native : Endian}

abbrev WeakReplayConfig (C : Capacity) {n : ℕ} {H : Type} (E : Fin (n + 1) → Effects H)
    (native : Endian) := WeakConfig UInt8 C n (replay E native)

/-- The replay with this world of one of its threads. -/
def asSeen (cfg : WeakReplayConfig C E native) (w : QueueWorld UInt8 C n) :
    ReplayConfig C E native where
  world := w
  status i := (cfg.status i).untag
  driver := cfg.driver

/-! ## The feed's thread -/

section Feed
variable {frames : List Frame} {cfg cfg' : ReplayConfig C E native} {j : ℕ}
  {call : ProducerCall UInt8} {rest rest' : Code UInt8 C n (ProducerResult × UInt64)}

theorem FeedAt.starts (h : FeedAt frames cfg j) {data : UInt64}
    (hstatus : cfg.status .producer = .idle data) (hoffers : (feedOf cfg).offers call = true)
    (hfeed : feedOf cfg' = feedOf cfg) (hstatus' : cfg'.status .producer = .running call rest)
    (hpushed : pushed cfg'.world.history = pushed cfg.world.history)
    (hstart : callStart .producer cfg'.world.history = cfg.world.history) :
    FeedAt frames cfg' j where
  feeds := hfeed ▸ h.feeds
  idle data' h' := by
    rw [hstatus'] at h'
    cases h'
  running call' rest' h' := by
    rw [hstatus'] at h'
    obtain ⟨rfl, -⟩ := Status.running.inj h'
    rw [hfeed, hpushed, hstart]
    exact ⟨hoffers, h.idle data hstatus, j, le_rfl, h.idle data hstatus⟩

/-- An action of a push publishes nothing or all its items. -/
theorem FeedAt.acts (h : FeedAt frames cfg j) (hstatus : cfg.status .producer = .running call rest)
    (hfeed : feedOf cfg' = feedOf cfg) (hstatus' : cfg'.status .producer = .running call rest')
    (hstart : callStart .producer cfg'.world.history = callStart .producer cfg.world.history)
    (hpushed : ∃ k, j ≤ k ∧ pushed cfg'.world.history = wire (frames.take k)) :
    FeedAt frames cfg' j where
  feeds := hfeed ▸ h.feeds
  idle data' h' := by
    rw [hstatus'] at h'
    cases h'
  running call' rest' h' := by
    rw [hstatus'] at h'
    obtain ⟨rfl, -⟩ := Status.running.inj h'
    obtain ⟨hoffers, hbegan, -⟩ := h.running _ _ hstatus
    rw [hfeed, hstart]
    exact ⟨hoffers, hbegan, hpushed⟩

theorem FeedAt.finishes (h : FeedAt frames cfg j)
    (hstatus : cfg.status .producer = .running call rest) {r : ProducerResult} {data : UInt64}
    (hpublished : Published call r cfg.world) (hfeed : feedOf cfg' = (feedOf cfg).after native r)
    (hstatus' : cfg'.status .producer = .idle data)
    (hpushed : pushed cfg'.world.history = pushed cfg.world.history) :
    ∃ k, FeedAt frames cfg' k := by
  obtain ⟨hoffers, hbegan, -⟩ := h.running call rest hstatus
  obtain ⟨k, hfeeds, hitems⟩ := after_of_offers native h.feeds hoffers r
  refine ⟨k, hfeed ▸ hfeeds, fun data' _ => ?_, fun call' rest' h' => ?_⟩
  · rw [hpushed, hpublished, hbegan]
    exact hitems
  · rw [hstatus'] at h'
    cases h'

end Feed

/-! ## A handler's thread -/

section Handler
variable {frames : List Frame} {h₀ : H} {c : Fin (n + 1)} {cfg cfg' : ReplayConfig C E native}
  {call : ConsumerCall} {rest rest' : Code UInt8 C n (ConsumerResult UInt8 × UInt64)}

theorem SessionAt.starts (h : SessionAt frames h₀ c cfg)
    (hoffers : (sessionOf cfg c).offers call = true) (hsession : sessionOf cfg' c = sessionOf cfg c)
    (hstatus' : cfg'.status (.consumer c) = .running call rest)
    (hconsumed : consumed c cfg'.world.history = consumed c cfg.world.history)
    (hstart : callStart (.consumer c) cfg'.world.history = cfg.world.history)
    (hwhole : ∃ k, pushed cfg.world.history = wire (frames.take k))
    (hle : (consumed c cfg.world.history).length ≤ (pushed cfg.world.history).length) :
    SessionAt frames h₀ c cfg' where
  progress := by
    rw [hsession, hconsumed]
    exact h.progress
  poised call' rest' h' := by
    rw [hstatus'] at h'
    obtain ⟨rfl, -⟩ := Status.running.inj h'
    rw [hsession]
    cases hpending : (sessionOf cfg c).pending with
    | ret result => simp [Session.offers, hpending] at hoffers
    | act call' next =>
      obtain rfl : call = call' := by simpa [Session.offers, hpending] using hoffers
      exact ⟨next, rfl⟩
  ahead call' rest' _ hcalls := by
    obtain ⟨k, hk⟩ := hwhole
    rw [hsession] at hcalls ⊢
    rw [hstart]
    exact h.frame_ahead hk hle hcalls

theorem SessionAt.acts (h : SessionAt frames h₀ c cfg)
    (hstatus : cfg.status (.consumer c) = .running call rest)
    (hsession : sessionOf cfg' c = sessionOf cfg c)
    (hstatus' : cfg'.status (.consumer c) = .running call rest')
    (hconsumed : consumed c cfg'.world.history = consumed c cfg.world.history)
    (hstart : callStart (.consumer c) cfg'.world.history =
      callStart (.consumer c) cfg.world.history) : SessionAt frames h₀ c cfg' where
  progress := by
    rw [hsession, hconsumed]
    exact h.progress
  poised call' rest' h' := by
    rw [hstatus'] at h'
    obtain ⟨rfl, -⟩ := Status.running.inj h'
    rw [hsession]
    exact h.poised _ _ hstatus
  ahead call' rest' h' := by
    rw [hstatus'] at h'
    obtain ⟨rfl, -⟩ := Status.running.inj h'
    rw [hsession, hstart]
    exact h.ahead _ _ hstatus

theorem SessionAt.finishes (h : SessionAt frames h₀ c cfg) (hsized : ∀ f ∈ frames, RightSize f)
    (hstatus : cfg.status (.consumer c) = .running call rest)
    (hwhole : ∃ k, pushed cfg.world.history = wire (frames.take k)) {r : ConsumerResult UInt8}
    (hdelivered : Delivered c call r cfg.world)
    (hlog : IsPrefix (consumed c cfg.world.history) (pushed cfg.world.history))
    (hsession : sessionOf cfg' c = (sessionOf cfg c).after (E c) native r) {data : UInt64}
    (hstatus' : cfg'.status (.consumer c) = .idle data)
    (hconsumed : consumed c cfg'.world.history =
      consumed c cfg.world.history ++ call.consumed r) : SessionAt frames h₀ c cfg' where
  progress := by
    obtain ⟨k, hk⟩ := hwhole
    rw [hsession, hconsumed]
    exact h.returned hsized hk hstatus hdelivered hlog
  poised call' rest' h' := by
    rw [hstatus'] at h'
    cases h'
  ahead call' rest' h' := by
    rw [hstatus'] at h'
    cases h'

end Handler

/-! ## All threads in their worlds -/

abbrev InQueueWorlds (worlds : Thread n → QueueWorld UInt8 C n) (cfg : WeakReplayConfig C E native) :
    Prop :=
  InWorlds (queue UInt8 C n) (accessDiscipline UInt8 C n)
    (fun worlds m history => ∃ pos, Fitted pos worlds m history) worlds cfg

/-- Each thread is where it should be in its own world, and at no time has part of a frame
been published. -/
structure SeenReplaying (frames : List Frame) (handler : Fin (n + 1) → H)
    (worlds : Thread n → QueueWorld UInt8 C n) (cfg : WeakReplayConfig C E native) : Prop where
  queue : InQueueWorlds worlds cfg
  feed : ∃ j, FeedAt frames (asSeen cfg (worlds .producer)) j
  session : ∀ c, SessionAt frames (handler c) c (asSeen cfg (worlds (.consumer c)))
  whole : ∀ earlier, earlier <:+ untag cfg.world.history →
    ∃ k, pushed earlier = wire (frames.take k)

section Steps
variable {frames : List Frame} {handler : Fin (n + 1) → H}
  {worlds : Thread n → QueueWorld UInt8 C n} {cfg cfg' : WeakReplayConfig C E native}

theorem pushed_suffix {history later : List (QueueEvent UInt8 C n)} (h : history <:+ later) :
    pushed history <+: pushed later := by
  obtain ⟨events, rfl⟩ := h
  induction events with
  | nil => exact List.prefix_rfl
  | cons e events ih => exact ih.trans (pushed_cons e _)

/-- The last write index a thread has seen was where the index stood behind a whole frame. -/
theorem SeenReplaying.whole_seen (h : SeenReplaying frames handler worlds cfg) (i : Thread n) :
    ∃ k, pushed (worlds i).history = wire (frames.take k) := by
  obtain ⟨pos, hfitted⟩ := h.queue.fits
  cases i with
  | producer =>
    rw [ProducerLag.pushed_eq (hfitted.lags .producer)]
    exact h.whole _ List.suffix_rfl
  | consumer c =>
    have hseen := (hfitted.placed.closed.threads (.consumer c) .writeIdx).1
    obtain ⟨before, hbefore, hpos⟩ := hfitted.placed.earlier .writeIdx _ hseen
    have hpushed : pushed (worlds (.consumer c)).history = pushed before := by
      rw [ConsumerLag.pushed_eq (hfitted.lags (.consumer c)), SlotMemory.at, hpos]
      exact (List.prefix_iff_eq_take.mp (pushed_suffix hbefore)).symm
    rw [hpushed]
    exact h.whole before hbefore

theorem SeenReplaying.whole_cons (h : SeenReplaying frames handler worlds cfg)
    {e : QueueEvent UInt8 C n}
    (he : ∃ k, pushed (e :: untag cfg.world.history) = wire (frames.take k)) :
    ∀ earlier, earlier <:+ e :: untag cfg.world.history →
      ∃ k, pushed earlier = wire (frames.take k) := by
  intro earlier hearlier
  rcases List.suffix_cons_iff.mp hearlier with rfl | hearlier
  · exact he
  · exact h.whole earlier hearlier

theorem admissible_of_whole (hfew : n = 0 ∨ (wire frames).length < 2 ^ 64)
    {history : List (QueueEvent UInt8 C n)}
    (hwhole : ∃ k, pushed history = wire (frames.take k)) : Admissible history := by
  obtain ⟨k, hk⟩ := hwhole
  refine hfew.imp_right fun hlt => ?_
  have hle := wire_take_mono frames (Nat.le_max_left k frames.length)
  rw [List.take_of_length_le (Nat.le_max_right k frames.length)] at hle
  rw [hk]
  exact hle.trans_lt hlt

/-- Thread `i` moves in its own world; the others are where they were. -/
theorem SeenReplaying.move (h : SeenReplaying frames handler worlds cfg) {i : Thread n}
    {w : QueueWorld UInt8 C n} (hqueue : InQueueWorlds (Function.update worlds i w) cfg')
    (hwhole : ∀ earlier, earlier <:+ untag cfg'.world.history →
      ∃ k, pushed earlier = wire (frames.take k))
    (hstatus : ∀ j ≠ i, cfg'.status j = cfg.status j) (hdriver : ∀ j ≠ i, cfg'.driver j = cfg.driver j)
    (hfeed : i = .producer → ∃ j, FeedAt frames (asSeen cfg' w) j)
    (hsession : ∀ c, i = .consumer c → SessionAt frames (handler c) c (asSeen cfg' w)) :
    SeenReplaying frames handler (Function.update worlds i w) cfg' where
  queue := hqueue
  feed := by
    by_cases hi : i = .producer
    · rw [hi, Function.update_self]
      exact hfeed hi
    · have hne : Thread.producer ≠ i := fun heq => hi heq.symm
      obtain ⟨j, hj⟩ := h.feed
      rw [Function.update_of_ne hne]
      exact ⟨j, hj.of_eq (hdriver _ hne) (congrArg Status.untag (hstatus _ hne)) rfl rfl⟩
  session c := by
    by_cases hi : i = .consumer c
    · rw [hi, Function.update_self]
      exact hsession c hi
    · have hne : Thread.consumer c ≠ i := fun heq => hi heq.symm
      rw [Function.update_of_ne hne]
      exact (h.session c).of_eq (hdriver _ hne) (congrArg Status.untag (hstatus _ hne)) rfl rfl
  whole := hwhole

/-- An action of the feed's thread publishes nothing or a whole frame. -/
theorem FeedAt.pushed_acted {j : ℕ} {w w' : QueueWorld UInt8 C n}
    (h : FeedAt frames (asSeen cfg w) j) {call : ProducerCall UInt8}
    {rest : Prog (Thread n × Access UInt8 C n) (fun a => a.2.Result) (ProducerResult × UInt64)}
    (hstatus : cfg.status .producer = .running call rest) (hrely : ProducerRely w w')
    {a : Access UInt8 C n} (hbefore : (accessDiscipline UInt8 C n).before .producer call a w')
    {history : List (QueueEvent UInt8 C n)} (hsame : pushed history = pushed w.history)
    (result : a.Result) :
    ∃ k, j ≤ k ∧ pushed (.act .producer call a result :: history) = wire (frames.take k) := by
  obtain ⟨hoffers, hbegan, hwhole⟩ := h.running call rest.untag (congrArg Status.untag hstatus)
  cases a with
  | storeWriteIdx value =>
    have hnone : pushed w'.history = pushed (callStart .producer w'.history) := hbefore.1
    obtain ⟨k, hk, hitems⟩ := items_of_offers h.feeds hoffers
    refine ⟨k, hk, ?_⟩
    rw [hrely.pushed_eq, hrely.start_eq] at hnone
    change pushed history ++ call.items = _
    rw [hsame, hnone, ← hitems]
    exact congrArg (· ++ call.items) hbegan
  | _ => exact hsame ▸ hwhole

theorem SeenReplaying.step (h : SeenReplaying frames handler worlds cfg)
    (hsized : ∀ f ∈ frames, RightSize f) (hfew : n = 0 ∨ (wire frames).length < 2 ^ 64)
    (hstep : (weakQueue UInt8 C n .source).Stepped cfg cfg') :
    ∃ worlds', SeenReplaying frames handler worlds' cfg' := by
  have hnow := h.whole _ List.suffix_rfl
  obtain ⟨j, hfeed⟩ := h.feed
  cases hstep with
  | start i call data hstatus hoffers =>
    have hnext : ∃ k, pushed (.start i call :: untag cfg.world.history) =
        wire (frames.take k) := hnow
    have hqueue := h.queue.started accessDiscipline_valid fitted_explains hstatus
      (admissible_of_whole hfew hnext)
    refine ⟨_, h.move hqueue (h.whole_cons hnext)
      (fun j hj => Machine.started_status_ne _ cfg hj call data) (fun _ _ => rfl) ?_ fun c hi => ?_⟩
    · rintro rfl
      exact ⟨j, hfeed.starts (congrArg Status.untag hstatus) hoffers rfl
        (congrArg Status.untag (Machine.started_status _ cfg call data)) rfl (if_pos rfl)⟩
    · subst hi
      have hring := h.queue.inv (.consumer c)
      exact (h.session c).starts hoffers rfl
        (congrArg Status.untag (Machine.started_status _ cfg call data)) rfl (if_pos rfl)
        (h.whole_seen _) (hring.logged c).2.1
  | act i call action next hstatus =>
    obtain ⟨pos, hfitted⟩ := h.queue.fits
    have hadm := admissible_of_whole hfew hnow
    obtain ⟨rfl, hbefore⟩ := h.queue.before accessDiscipline_valid
      (fun i => (hfitted.lags i).admissible hadm) hstatus
    have hnext : ∃ k, pushed (.act action.1 call action.2
        (Access.perform .source action cfg.world.shared).1 :: untag cfg.world.history) =
          wire (frames.take k) := by
      obtain ⟨i, a⟩ := action
      cases i with
      | consumer c => exact hnow
      | producer =>
        obtain ⟨k, -, hk⟩ := hfeed.pushed_acted hstatus (discipline_refl .producer _) hbefore
          (ProducerLag.pushed_eq (hfitted.lags .producer)).symm
          (Access.perform .source (.producer, a) cfg.world.shared).1
        exact ⟨k, hk⟩
    obtain ⟨w, hrely, hbefore', hqueue⟩ := h.queue.acted accessDiscipline_valid fitted_explains
      hstatus (admissible_of_whole hfew hnext)
    obtain ⟨i, a⟩ := action
    refine ⟨_, h.move hqueue (h.whole_cons hnext)
      (fun j hj => Machine.acted_status_ne _ cfg hj call _ _) (fun _ _ => rfl) ?_ fun c hi => ?_⟩
    · rintro rfl
      refine ⟨j, hfeed.acts (congrArg Status.untag hstatus) rfl
        (congrArg Status.untag (Machine.acted_status _ cfg call _ _)) hrely.start_eq ?_⟩
      exact hfeed.pushed_acted hstatus hrely hbefore' hrely.pushed_eq _
    · obtain rfl : i = .consumer c := hi
      have hsame : consumed c ((Spmc.queue UInt8 C n).act w (.consumer c) call a).history =
          consumed c w.history := by cases a <;> rfl
      exact (h.session c).acts (congrArg Status.untag hstatus) rfl
        (congrArg Status.untag (Machine.acted_status _ cfg call _ _))
        (hsame.trans hrely.consumed_eq) hrely.start_eq
  | finish i call result data hstatus =>
    have hnext : ∃ k, pushed (.finish i call result :: untag cfg.world.history) =
        wire (frames.take k) := hnow
    obtain ⟨hpost, hqueue⟩ := h.queue.finished accessDiscipline_valid fitted_explains hstatus
      (admissible_of_whole hfew hnext)
    refine ⟨_, h.move hqueue (h.whole_cons hnext)
      (fun j hj => Machine.finished_status_ne cfg hj call result data)
      (fun j hj => Machine.finished_driver_ne cfg hj call result data) ?_ fun c hi => ?_⟩
    · rintro rfl
      exact hfeed.finishes (congrArg Status.untag hstatus) hpost.2 (Machine.finished_driver cfg call result data)
        (congrArg Status.untag (Machine.finished_status cfg call result data)) rfl
    · subst hi
      have hring := h.queue.inv (.consumer c)
      exact (h.session c).finishes hsized (congrArg Status.untag hstatus) (h.whole_seen _) hpost.2
        (hring.logged c).2 (Machine.finished_driver cfg call result data)
        (congrArg Status.untag (Machine.finished_status cfg call result data)) (if_pos rfl)

end Steps

/-! ## Runs -/

section Runs
variable {frames : List Frame} {handler : Fin (n + 1) → H} {cfg : WeakReplayConfig C E native}

theorem SeenReplaying.start (buffer : Fin C.size → UInt8) (pick : ℕ → ℕ) (frames : List Frame)
    (handler : Fin (n + 1) → H) :
    ∃ worlds, SeenReplaying frames handler worlds
      (makeWeakSpmc buffer pick (replayStart E native (wire frames) handler) :
        WeakReplayConfig C E native) := by
  have hstart : Replaying frames handler
      (makeSpmc buffer (replayStart E native (wire frames) handler) : ReplayConfig C E native) :=
    Replaying.start buffer frames handler
  refine ⟨_, makeWeakSpmc_inWorlds buffer pick _, ?_, fun c => ?_, fun earlier h => ?_⟩
  · obtain ⟨j, hj⟩ := hstart.feed
    exact ⟨j, hj.of_eq rfl rfl rfl rfl⟩
  · exact (hstart.session c).of_eq rfl rfl rfl rfl
  · rw [List.suffix_nil.mp h]
    exact ⟨0, rfl⟩

theorem seenReplaying_run (hsized : ∀ f ∈ frames, RightSize f)
    (hfew : n = 0 ∨ (wire frames).length < 2 ^ 64) {buffer : Fin C.size → UInt8} {pick : ℕ → ℕ}
    {schedule : List (Choice (Thread n) (Thread.Call UInt8))}
    (hrun : (weakQueue UInt8 C n .source).run
      (makeWeakSpmc buffer pick (replayStart E native (wire frames) handler)) schedule = some cfg) :
    ∃ worlds, SeenReplaying frames handler worlds cfg :=
  Machine.run_invariant (P := fun cfg => ∃ worlds, SeenReplaying frames handler worlds cfg)
    (fun _ _ ⟨_, h⟩ hstep => h.step hsized hfew hstep)
    (SeenReplaying.start buffer pick frames handler) hrun

theorem SeenReplaying.logged_le {worlds : Thread n → QueueWorld UInt8 C n}
    (h : SeenReplaying frames handler worlds cfg) (c : Fin (n + 1)) :
    (wire (frames.take (sessionOf (asSeen cfg (worlds (.consumer c))) c).framesRead.length)).length ≤
      (pushed (untag cfg.world.history)).length := by
  obtain ⟨pos, hfitted⟩ := h.queue.fits
  have hseen := (hfitted.lags (.consumer c)).pushed_initial.length_le
  have hlog := ((h.queue.inv (.consumer c)).logged c).2.1
  have hplace := (h.session c).progress.place
  dsimp only [asSeen] at hplace ⊢
  cases hplace with
  | boundary _ _ hlogged => omega
  | within _ _ _ _ _ _ _ _ _ _ hlogged => omega
  | ended _ _ hlogged => omega

/-- In every run on a release/acquire memory with the orders of the source, whatever its loads
return: no thread races on a slot, once a poll has read a length prefix all its reads and skips
succeed, and the frames a handler has read, each in full and in order, are the first of those
published, and its state is what their messages make of it. -/
theorem weak_replay_reads (E : Fin (n + 1) → Effects H) (native : Endian)
    (buffer : Fin C.size → UInt8) (pick : ℕ → ℕ) (handler : Fin (n + 1) → H) (frames : List Frame)
    (hsized : ∀ f ∈ frames, RightSize f) (hfew : n = 0 ∨ (wire frames).length < 2 ^ 64)
    (schedule : List (Choice (Thread n) (Thread.Call UInt8))) (cfg : WeakReplayConfig C E native)
    (hrun : (weakQueue UInt8 C n .source).run
      (makeWeakSpmc buffer pick (replayStart E native (wire frames) handler)) schedule = some cfg) :
    ¬ Racing cfg ∧ ∀ c, let s : Session H := cfg.driver (.consumer c)
      (∀ calls ∈ s.polls ++ [s.calls], ReadsHold calls) ∧
      ∃ k, s.framesRead.length ≤ k ∧ k ≤ frames.length ∧
        pushed (untag cfg.world.history) = wire (frames.take k) ∧
        List.Forall₂ (fun calls f => Covers (exchanged calls) f.bytes) s.framesRead
          (frames.take s.framesRead.length) ∧
        (frames.take s.framesRead.length).foldlM (E c).onFrame (handler c) = s.result := by
  obtain ⟨worlds, h⟩ := seenReplaying_run hsized hfew hrun
  have hadm := admissible_of_whole hfew (h.whole _ List.suffix_rfl)
  refine ⟨(weak_run_fitted hrun hadm).1, fun c => ?_⟩
  have hprogress := (h.session c).progress
  obtain ⟨k, hk⟩ := h.whole _ List.suffix_rfl
  have hpushed : pushed (untag cfg.world.history) = wire (frames.take (min k frames.length)) := by
    rw [hk, ← List.take_take, List.take_length]
  have hlogged := h.logged_le c
  rw [hpushed] at hlogged
  exact ⟨hprogress.readsHold, min k frames.length, framesRead_le hprogress.framesRead_le hlogged,
    Nat.min_le_right _ _, hpushed, hprogress.covers, hprogress.result⟩

/-- A frame is published, a poll whose load is stale finds nothing, and the next one reads it. -/
def staleDelete : List (Choice (Thread 0) (Thread.Call UInt8)) :=
  let only : Fin 1 := ⟨0, Nat.one_pos⟩
  [.start .producer (ProducerCall.tryPushMany deleteFrame.bytes)] ++
    List.replicate 24 (.go .producer) ++
  [.start (.consumer only) (ConsumerCall.tryPopMany 2)] ++ List.replicate 4 (.go (.consumer only)) ++
  [.start (.consumer only) (ConsumerCall.tryPopMany 2)] ++ List.replicate 6 (.go (.consumer only)) ++
  [.start (.consumer only) (ConsumerCall.tryPopMany 11)] ++ List.replicate 14 (.go (.consumer only)) ++
  [.start (.consumer only) (ConsumerCall.tryPopMany 8)] ++ List.replicate 11 (.go (.consumer only))

theorem staleDelete_reads :
    let start : WeakReplayConfig ⟨5, by decide⟩ (fun _ : Fin 1 => countingEffects) .little :=
      makeWeakSpmc (fun _ => 0) (fun k => if k = 2 then 0 else 1)
        (replayStart (fun _ => countingEffects) .little (wire [deleteFrame]) fun _ => 0)
    ∃ cfg : WeakReplayConfig ⟨5, by decide⟩ (fun _ : Fin 1 => countingEffects) .little,
      (weakQueue UInt8 ⟨5, by decide⟩ 0 .source).run start staleDelete = some cfg ∧
      ¬ Racing cfg ∧ let s : Session ℕ := cfg.driver (.consumer 0)
        s.polls.length = 2 ∧ s.framesRead.length = 1 ∧ s.handler = 1 ∧
        (∀ calls ∈ s.polls ++ [s.calls], ReadsHold calls) := by
  intro start
  have hran : ((weakQueue UInt8 ⟨5, by decide⟩ 0 .source).run start staleDelete).map (fun cfg =>
      let s : Session ℕ := cfg.driver (.consumer 0)
      (s.polls.length, s.framesRead.length, s.handler)) = some (2, 1, 1) := by
    decide +kernel
  obtain ⟨cfg, hrun, hcfg⟩ := Option.map_eq_some_iff.mp hran
  obtain ⟨hpolls, hcfg⟩ := Prod.mk.inj hcfg
  obtain ⟨hread, hhandler⟩ := Prod.mk.inj hcfg
  have hsized : ∀ f ∈ [deleteFrame], RightSize f := by
    intro f hf
    rw [List.mem_singleton.mp hf]
    exact deleteFrame_rightSize
  obtain ⟨hraces, hreads⟩ := weak_replay_reads (fun _ => countingEffects) .little (fun _ => 0) _
    (fun _ => 0) [deleteFrame] hsized (.inl rfl) staleDelete cfg hrun
  exact ⟨cfg, hrun, hraces, hpolls, hread, hhandler, (hreads 0).1⟩

end Runs

end ItchOrderBook.MarketData

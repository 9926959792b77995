import ItchOrderBook.MarketData.SessionSafety
import ItchOrderBook.Spmc.ClosedTail

/-! # The end of a replay

A handler's thread stops when the call for a length prefix reports a closed queue. Where
the feed does not close over a waiting reader, every frame has been read by then.
-/
namespace ItchOrderBook.MarketData
open AtomicProgram ByteOrder Feed Spmc Stse

variable {C : Capacity} {n : ℕ} {H : Type}

/-! ## One session -/

/-- A poll that does not ask to stop. -/
def Continues (value : Except Fault (Bool × H)) : Prop := ∀ h, value ≠ .ok (false, h)

/-- Once it has read a length prefix, `poll` never asks to stop. -/
theorem pollPacket_continues (E : Effects H) (native : Endian) (h : H) (packetSize : UInt16) :
    (pollPacket E native h packetSize).Within (fun _ => True) Continues := by
  have hcontinues : ∀ h' : H, Continues (.ok (true, h')) := fun h' h'' => by simp
  apply (Prog.within_trivial (readFromQueueUnsafe native headerViewType)).bind
  intro object _
  dsimp only
  split
  · apply (Prog.within_trivial _).bind
    exact fun _ _ => hcontinues h
  · apply (Prog.within_trivial _).bind
    intro status _
    cases status with
    | error fault => exact fun h' => by simp
    | ok result =>
      obtain ⟨status, h'⟩ := result
      cases status with
      | simulated => exact hcontinues h'
      | skipped =>
        apply (Prog.within_trivial _).bind
        exact fun _ _ => hcontinues h'

section Stage
variable (E : Effects H) (native : Endian)

/-- A session polls, is within a poll that will not ask to stop, or has stopped where
`drained` holds. -/
inductive Stage (drained : Prop) (s : Session H) : Prop
  | polling (pending : s.pending = poll E native s.handler)
  | reading (pending : s.pending.Within (fun _ => True) Continues)
  | stopped (h : H) (pending : s.pending = .ret (.ok (false, h))) (holds : drained)

variable {E native} {s : Session H} {drained drained' : Prop}

theorem Stage.imp (h : Stage E native drained s) (himp : drained → drained') :
    Stage E native drained' s := by
  cases h with
  | polling hpending => exact .polling hpending
  | reading hpending => exact .reading hpending
  | stopped h hpending hholds => exact .stopped h hpending (himp hholds)

theorem Stage.holds (h : Stage E native drained s) {h' : H}
    (hpending : s.pending = .ret (.ok (false, h'))) : drained := by
  cases h with
  | polling hpoll =>
    obtain ⟨next, hnext, -⟩ := poll_eq E native s.handler
    rw [hpending, hnext] at hpoll
    cases hpoll
  | reading hreading =>
    rw [hpending] at hreading
    exact absurd rfl (hreading h')
  | stopped _ _ hholds => exact hholds

/-- A poll that goes on asks for more or starts over. -/
theorem Stage.resume {p : Client (Except Fault (Bool × H))}
    (h : p.Within (fun _ => True) Continues) : Stage E native drained (s.resume E native p) := by
  cases p with
  | act call next => exact .reading h
  | ret value =>
    cases value with
    | error fault => exact .reading fun h' => by simp
    | ok result =>
      obtain ⟨again, h'⟩ := result
      cases again with
      | true => exact .polling rfl
      | false => exact absurd rfl (h h')

/-- Only the call for a length prefix can stop the session, when it finds the queue
closed. -/
theorem Stage.after (h : Stage E native drained s) {call : ConsumerCall}
    {next : ConsumerResult UInt8 → Client (Except Fault (Bool × H))}
    (hpending : s.pending = .act call next) {r : ConsumerResult UInt8}
    (hclosed : call.count = 2 → r.failure = .bufferClosed → drained) :
    Stage E native drained (s.after E native r) := by
  have hafter : s.after E native r =
      Session.resume E native { s with calls := s.calls ++ [(call, r)] } (next r) := by
    rw [Session.after, hpending]
  rw [hafter]
  cases h with
  | reading hreading =>
    rw [hpending] at hreading
    exact Stage.resume (hreading.2 r)
  | stopped h' hstopped hholds =>
    rw [hpending] at hstopped
    cases hstopped
  | polling hpoll =>
    by_cases hfailure : r.failure = .none
    · -- the length prefix has been read
      have hnext : next r = pollPacket E native s.handler (readPacketSize native
          (deserialized native packetSizeType (filled (sizeOnWire packetSizeType) r))) := by
        rw [hpending] at hpoll
        obtain ⟨-, hnext⟩ := Prog.act.inj hpoll
        rw [eq_of_heq hnext]
        change ((if r.failure ≠ .none then _ else .ret (Except.ok _) : Client _).bind _) = _
        rw [if_neg (not_not.mpr hfailure)]
        rfl
      rw [hnext]
      exact Stage.resume (pollPacket_continues E native s.handler _)
    · obtain ⟨next', hnext', hfail⟩ := poll_eq E native s.handler
      rw [hpending, hnext'] at hpoll
      obtain ⟨rfl, hnext⟩ := Prog.act.inj hpoll
      rw [eq_of_heq hnext, hfail r hfailure]
      by_cases hstop : r.failure = .bufferClosed
      · exact .stopped s.handler (by simp [Session.resume, hstop]) (hclosed rfl hstop)
      · exact .polling (by simp [Session.resume, hstop])

end Stage

/-! ## Every session of a run -/

section Sessions
variable {E : Fin (n + 1) → Effects H} {native : Endian} {cfg cfg' : ReplayConfig C E native}

/-- The queue is closed and holds less than a length prefix for consumer `c`. -/
def Drained (c : Fin (n + 1)) (b : RingBuffer UInt8 C n) : Prop :=
  b.isClosed = true ∧ b.short c 2 = true

structure Stopping (c : Fin (n + 1)) (cfg : ReplayConfig C E native) : Prop where
  poised : ∀ call rest, cfg.status (.consumer c) = .running call rest →
    ∃ next, (sessionOf cfg c).pending = .act call next
  stage : Stage (E c) native (Drained c cfg.world.shared) (sessionOf cfg c)

theorem replay_closesLast (E : Fin (n + 1) → Effects H) (native : Endian) :
    ClosesLast (replay E native) fun feed => feed = .closed where
  closes feed hoffers := by
    cases feed with
    | closing => rfl
    | publishing frame ptr =>
      have hcall : FeedHandler.offers (.publishing frame ptr) .close = true := hoffers
      simp [FeedHandler.offers] at hcall
    | spinning => cases hoffers
    | closed => cases hoffers
  refuses feed call hclosed := by
    rw [hclosed]
    rfl

theorem offers_poised {s : Session H} {call : ConsumerCall} (h : s.offers call = true) :
    ∃ next, s.pending = .act call next := by
  cases hp : s.pending with
  | ret result => simp [Session.offers, hp] at h
  | act call' next =>
    obtain rfl : call = call' := by simpa [Session.offers, hp] using h
    exact ⟨next, rfl⟩

variable {c : Fin (n + 1)}

theorem Stopping.of_eq (h : Stopping c cfg) (hsession : sessionOf cfg' c = sessionOf cfg c)
    (hstatus : cfg'.status (.consumer c) = cfg.status (.consumer c))
    (hshared : Interferes c 2 false cfg.world.shared cfg'.world.shared) : Stopping c cfg' where
  poised call rest hrest := by
    rw [hsession]
    exact h.poised call rest (hstatus ▸ hrest)
  stage := by
    rw [hsession]
    exact h.stage.imp fun hdrained => hshared.short hdrained.1 hdrained.2

theorem Stopping.start (h : Stopping c cfg) {i : Thread n} {call : i.Call UInt8} {data : UInt64}
    (hoffers : (replay E native).offers i (cfg.driver i) call = true) :
    Stopping c ((queue UInt8 C n).started cfg i call data) := by
  by_cases hi : i = .consumer c
  · subst hi
    refine ⟨fun call' rest hrest => ?_, h.stage⟩
    rw [Machine.started_status] at hrest
    obtain ⟨rfl, -⟩ := Status.running.inj hrest
    exact offers_poised hoffers
  · have hne : Thread.consumer c ≠ i := fun heq => hi heq.symm
    exact h.of_eq rfl (Machine.started_status_ne _ cfg hne call data) (Interferes.refl _)

theorem Stopping.act {closed : FeedHandler → Prop} (h : Stopping c cfg)
    (hclosing : Closing (D := replay E native) closed cfg) {i : Thread n} {call : i.Call UInt8}
    {action : Access UInt8 C n} {next : action.Result → Code UInt8 C n (i.Ret UInt8 × UInt64)}
    (hstatus : cfg.status i = .running call (.act action next)) :
    Stopping c ((queue UInt8 C n).acted cfg i call action next) := by
  by_cases hi : i = .consumer c
  · subst hi
    obtain ⟨rest, hpending⟩ := h.poised call _ hstatus
    refine ⟨fun call' rest' hrest => ?_, ?_⟩
    · rw [Machine.acted_status] at hrest
      obtain ⟨rfl, -⟩ := Status.running.inj hrest
      exact ⟨rest, hpending⟩
    · cases h.stage with
      | polling hpoll => exact .polling hpoll
      | reading hreading => exact .reading hreading
      | stopped h' hstopped _ =>
        rw [hpending] at hstopped
        cases hstopped
  · have hne : Thread.consumer c ≠ i := fun heq => hi heq.symm
    refine h.of_eq rfl (Machine.acted_status_ne _ cfg hne call action next) ?_
    cases i with
    | producer =>
      obtain ⟨⟨haccess, -⟩, -, hcall⟩ := hclosing.running call _ hstatus
      exact haccess.interferes hcall fun _ _ hflag => by cases hflag
    | consumer d =>
      obtain ⟨-, haccess, -⟩ := hclosing.watch d call _ hstatus
      exact haccess.interferes fun heq => hne (congrArg Thread.consumer heq)

theorem Stopping.finish {closed : FeedHandler → Prop} (h : Stopping c cfg)
    (hclosing : Closing (D := replay E native) closed cfg) {i : Thread n} {call : i.Call UInt8}
    {result : i.Ret UInt8} {data : UInt64}
    (hstatus : cfg.status i = .running call (.ret (result, data))) :
    Stopping c (Machine.finished cfg i call result data) := by
  by_cases hi : i = .consumer c
  · subst hi
    obtain ⟨rest, hpending⟩ := h.poised call _ hstatus
    refine ⟨fun call' rest' hrest => ?_, ?_⟩
    · rw [Machine.finished_status] at hrest
      cases hrest
    · have hsession : sessionOf (Machine.finished cfg (.consumer c) call result data) c =
          (sessionOf cfg c).after (E c) native result := Machine.finished_driver ..
      rw [hsession]
      apply h.stage.after hpending
      intro hcount hfailure
      obtain ⟨hclosed, hshort⟩ := hclosing.reported hstatus hfailure
      rw [hcount] at hshort
      exact ⟨hclosed, decide_eq_true hshort⟩
  · have hne : Thread.consumer c ≠ i := fun heq => hi heq.symm
    exact h.of_eq (Machine.finished_driver_ne cfg hne call result data)
      (Machine.finished_status_ne cfg hne call result data) (Interferes.refl _)

/-- What holds of the sessions in a run that never closes the queue over a waiting
reader. -/
structure Settled (cfg : ReplayConfig C E native) : Prop where
  closing : Closing (D := replay E native) (fun feed => feed = .closed) cfg
  stopping : ∀ c, Stopping c cfg

theorem Settled.step (h : Settled cfg) {choice : Choice (Thread n) (Thread.Call UInt8)}
    (hsettled : settledClose cfg choice = true)
    (hstep : (queue UInt8 C n).step cfg choice = some cfg') : Settled cfg' := by
  refine ⟨h.closing.step (replay_closesLast E native) hsettled hstep, fun c => ?_⟩
  cases choice with
  | start i call =>
    obtain ⟨data, -, hoffers, rfl⟩ := Machine.step_start hstep
    exact (h.stopping c).start hoffers
  | go i =>
    obtain ⟨call, action, next, hstatus, rfl⟩ | ⟨call, result, data, hstatus, rfl⟩ :=
      Machine.step_go hstep
    · exact (h.stopping c).act h.closing hstatus
    · exact (h.stopping c).finish h.closing hstatus

theorem settled_run {buffer : Fin C.size → UInt8} {file : List UInt8} {handler : Fin (n + 1) → H}
    {schedule : List (Choice (Thread n) (Thread.Call UInt8))}
    (hrun : (queue UInt8 C n).runWhere settledClose
      (makeSpmc buffer (replayStart E native file handler)) schedule = some cfg) :
    Settled cfg := by
  apply Machine.runWhere_invariant (P := Settled) ?_ ?_ hrun
  · exact fun cfg choice cfg' h hsettled hstep => h.step hsettled hstep
  · have hnone : (queue UInt8 C n).runWhere settledClose
        (makeSpmc buffer (replayStart E native file handler)) [] = some _ := rfl
    refine ⟨closing_run (replay_closesLast E native) hnone, fun c => ⟨?_, ?_⟩⟩
    · intro call rest hrest
      cases hrest
    · exact .polling rfl

/-! ## Every frame has been read -/

variable {frames : List Frame} {handler : Fin (n + 1) → H}

theorem Settled.pushed_eq (h : Settled cfg) {j : ℕ} (hfeed : FeedAt frames cfg j)
    (hclosed : cfg.world.shared.isClosed = true) : pushed cfg.world.history = wire frames := by
  cases hs : cfg.status .producer with
  | idle data =>
    have hdone : feedOf cfg = .closed := h.closing.idle data hs hclosed
    have hfeeds := hfeed.feeds
    rw [hdone] at hfeeds
    rw [hfeed.idle data hs, List.take_of_length_le (List.drop_eq_nil_iff.mp hfeeds)]
  | running call rest =>
    obtain ⟨-, -, hcall⟩ := h.closing.running call rest hs
    obtain ⟨hoffers, -, k, hk, hwhole⟩ := hfeed.running call rest hs
    have hfeeds := hfeed.feeds
    rw [hcall hclosed] at hoffers
    cases hdone : feedOf cfg with
    | closing =>
      rw [hdone] at hfeeds
      rw [hwhole, List.take_of_length_le ((List.drop_eq_nil_iff.mp hfeeds).trans hk)]
    | publishing frame ptr => simp [hdone, FeedHandler.offers] at hoffers
    | spinning => simp [hdone, FeedHandler.offers] at hoffers
    | closed => simp [hdone, FeedHandler.offers] at hoffers

/-- Less than a length prefix is left behind the last frame only. -/
theorem framesRead_eq {m : ℕ} (hm : m ≤ frames.length)
    (hleft : (wire frames).length < (wire (frames.take m)).length + 2) : m = frames.length := by
  by_contra hne
  have hlt : m < frames.length := by omega
  have hmore := wire_take_mono frames hlt
  rw [wire_take_succ (List.getElem?_eq_getElem hlt), List.length_append, Frame.bytes_length,
    List.take_length] at hmore
  omega

theorem Settled.all_read (h : Settled cfg) (hreplay : Replaying frames handler cfg) {h' : H}
    (hpending : (sessionOf cfg c).pending = .ret (.ok (false, h'))) :
    pushed cfg.world.history = wire frames ∧
    (consumed c cfg.world.history).length = (wire frames).length ∧
    (sessionOf cfg c).framesRead.length = frames.length := by
  obtain ⟨hclosed, hshort⟩ := (h.stopping c).stage.holds hpending
  obtain ⟨j, hfeed⟩ := hreplay.feed
  have hpushed := h.pushed_eq hfeed hclosed
  have hprogress := (hreplay.session c).progress
  have hlogged : (consumed c cfg.world.history).length =
      (wire (frames.take (sessionOf cfg c).framesRead.length)).length := by
    cases hprogress.place with
    | ended _ _ hlogged => exact hlogged
    | boundary hpoll _ _ =>
      obtain ⟨next, hnext, -⟩ := poll_eq (E c) native (sessionOf cfg c).handler
      rw [hpending, hnext] at hpoll
      cases hpoll
    | within _ _ _ _ _ _ _ _ _ hact _ =>
      obtain ⟨call, next, hact⟩ := hact
      rw [hpending] at hact
      cases hact
  have hpassed : passed c cfg.world.history = (consumed c cfg.world.history).length := by
    cases hs : cfg.status (.consumer c) with
    | idle data => exact (hreplay.queue.idle (.consumer c) data hs).2
    | running call rest =>
      obtain ⟨next, hact⟩ := (h.stopping c).poised call rest hs
      rw [hpending] at hact
      cases hact
  -- the difference of the indices is that of the positions
  have hleft : (pushed cfg.world.history).length - passed c cfg.world.history < 2 := by
    have horder := hreplay.queue.inv.order c
    have hroom := hreplay.queue.inv.room c
    have hsize := C.size_le
    have hlt := of_decide_eq_true hshort
    rw [hreplay.queue.inv.write, hreplay.queue.inv.read c, UInt64.lt_iff_toNat_lt,
      ofNat_sub_toNat horder (by omega)] at hlt
    exact hlt
  have hall : (sessionOf cfg c).framesRead.length = frames.length := by
    apply framesRead_eq hprogress.framesRead_le
    rw [← hlogged, ← hpassed, ← hpushed]
    omega
  refine ⟨hpushed, ?_, hall⟩
  rw [hlogged, hall, List.take_length]

end Sessions

/-! ## No lost tail -/

/-- Every call that is about to report a closed queue leaves fewer items than it asked
for. -/
def ReportsTail {T : Type} {D : Driver (Thread n) (Thread.Call T) (Thread.Ret T)}
    (cfg : QueueConfig T C n D) : Prop :=
  ∀ (c : Fin (n + 1)) (call : ConsumerCall) r data,
    cfg.status (.consumer c) = .running call (.ret (r, data)) → r.failure = .bufferClosed →
    cfg.world.shared.writeIdx - cfg.world.shared.readIdx c < call.count

/-- If no run closes the queue over a reader between its two loads with what it asked for
there, a closed queue is reported only with fewer items left than were asked for, and a
handler's thread stops only when it has read every frame of the feed. -/
theorem tail_read_before_stop (C : Capacity) (n : ℕ) :
    (∀ (T : Type) (D : Driver (Thread n) (Thread.Call T) (Thread.Ret T))
      (closed : D.State .producer → Prop), ClosesLast D closed →
      ∀ (buffer : Fin C.size → T) (driver : (i : Thread n) → D.State i)
        (schedule : List (Choice (Thread n) (Thread.Call T))) (cfg : QueueConfig T C n D),
        (queue T C n).runWhere settledClose (makeSpmc buffer driver) schedule = some cfg →
        ReportsTail cfg) ∧
    ∀ (H : Type) (E : Fin (n + 1) → Effects H) (native : Endian) (buffer : Fin C.size → UInt8)
      (file : List UInt8) (handler : Fin (n + 1) → H)
      (schedule : List (Choice (Thread n) (Thread.Call UInt8))) (cfg : ReplayConfig C E native),
      (queue UInt8 C n).runWhere settledClose
        (makeSpmc buffer (replayStart E native file handler)) schedule = some cfg →
      ∀ (c : Fin (n + 1)) (h : H), (sessionOf cfg c).pending = .ret (.ok (false, h)) →
        cfg.world.shared.writeIdx - cfg.world.shared.readIdx c < 2 ∧
        ∀ frames : List Frame, file = wire frames → (∀ f ∈ frames, RightSize f) →
          n = 0 ∨ (wire frames).length < 2 ^ 64 →
          pushed cfg.world.history = wire frames ∧
          (consumed c cfg.world.history).length = (wire frames).length ∧
          (sessionOf cfg c).framesRead.length = frames.length := by
  refine ⟨?_, ?_⟩
  · intro T D closed hD buffer driver schedule cfg hrun c call r data hstatus hfailure
    exact ((closing_run hD hrun).reported hstatus hfailure).2
  · intro H E native buffer file handler schedule cfg hrun c h hpending
    have hsettled := settled_run hrun
    refine ⟨of_decide_eq_true ((hsettled.stopping c).stage.holds hpending).2, ?_⟩
    rintro frames rfl hsized hfew
    exact hsettled.all_read (replaying_run hsized hfew (Machine.run_of_runWhere hrun)) hpending

/-- What consumer `c` is about to return, and how many items that leaves. -/
def returning {T : Type} {D : Driver (Thread n) (Thread.Call T) (Thread.Ret T)}
    (cfg : QueueConfig T C n D) (c : Fin (n + 1)) :
    Option (ConsumerCall × ConsumeFailure × UInt64) :=
  match cfg.status (.consumer c) with
  | .running call (.ret (r, _)) =>
    some (call, r.failure, cfg.world.shared.writeIdx - cfg.world.shared.readIdx c)
  | _ => none

theorem returning_eq {T : Type} {D : Driver (Thread n) (Thread.Call T) (Thread.Ret T)}
    {cfg : QueueConfig T C n D} {c : Fin (n + 1)} {call : ConsumerCall} {failure : ConsumeFailure}
    {left : UInt64} (h : returning cfg c = some (call, failure, left)) :
    ∃ r data, cfg.status (.consumer c) = .running call (.ret (r, data)) ∧ r.failure = failure ∧
      cfg.world.shared.writeIdx - cfg.world.shared.readIdx c = left := by
  unfold returning at h
  split at h
  · rename_i call' r data hstatus
    obtain ⟨rfl, hrest⟩ := Prod.mk.inj (Option.some.inj h)
    obtain ⟨hfailure, hleft⟩ := Prod.mk.inj hrest
    exact ⟨r, data, hstatus, hfailure, hleft⟩
  · cases h

/-- The handler a session has stopped with. -/
def Session.stoppedWith (s : Session H) : Option H :=
  match s.pending with
  | .ret (.ok (false, h)) => some h
  | _ => none

theorem Session.pending_of_stoppedWith {s : Session H} {h : H} (hs : s.stoppedWith = some h) :
    s.pending = .ret (.ok (false, h)) := by
  unfold Session.stoppedWith at hs
  split at hs
  · rename_i h' hpending
    rw [hpending, Option.some.inj hs]
  · cases hs

/-- The frame is read before the feed closes; the next poll finds the queue closed. -/
def lateClose : List (Choice (Thread 0) (Thread.Call UInt8)) :=
  deleteSchedule ++ [.start .producer ProducerCall.close] ++ List.replicate 2 (.go .producer) ++
  [.start soleHandler (ConsumerCall.tryPopMany 2)] ++ List.replicate 3 (.go soleHandler)

theorem lateClose_stops :
    let start : ReplayConfig ⟨5, by decide⟩ (fun _ : Fin 1 => countingEffects) .little :=
      makeSpmc (fun _ => 0) (replayStart (fun _ => countingEffects) .little (wire [deleteFrame])
        fun _ => 0)
    ∃ cfg cfg' : ReplayConfig ⟨5, by decide⟩ (fun _ : Fin 1 => countingEffects) .little,
      (queue UInt8 ⟨5, by decide⟩ 0).runWhere settledClose start lateClose = some cfg ∧
      returning cfg 0 = some (.tryPopMany 2, .bufferClosed, 0) ∧ ReportsTail cfg ∧
      (queue UInt8 ⟨5, by decide⟩ 0).runWhere settledClose start
        (lateClose ++ [.go soleHandler]) = some cfg' ∧
      (sessionOf cfg' 0).stoppedWith = some 1 ∧ (sessionOf cfg' 0).framesRead.length = 1 := by
  intro start
  have hran : ((queue UInt8 ⟨5, by decide⟩ 0).runWhere settledClose start lateClose).map
      (fun cfg => returning cfg 0) = some (some (.tryPopMany 2, .bufferClosed, 0)) := by
    decide +kernel
  have hran' : ((queue UInt8 ⟨5, by decide⟩ 0).runWhere settledClose start
      (lateClose ++ [.go soleHandler])).map
      (fun cfg => (sessionOf cfg 0).stoppedWith) = some (some 1) := by
    decide +kernel
  obtain ⟨cfg, hrun, hcfg⟩ := Option.map_eq_some_iff.mp hran
  obtain ⟨cfg', hrun', hstopped⟩ := Option.map_eq_some_iff.mp hran'
  have hsized : ∀ f ∈ [deleteFrame], RightSize f := by
    intro f hf
    rw [List.mem_singleton.mp hf]
    exact deleteFrame_rightSize
  refine ⟨cfg, cfg', hrun, hcfg, ?_, hrun', hstopped, ?_⟩
  · exact (tail_read_before_stop _ _).1 _ _ _ (replay_closesLast _ _) _ _ lateClose cfg hrun
  · have hpending := Session.pending_of_stoppedWith hstopped
    obtain ⟨-, hread⟩ := (tail_read_before_stop _ _).2 _ _ _ _ _ _ _ cfg' hrun' 0 1 hpending
    exact (hread [deleteFrame] rfl hsized (Or.inl rfl)).2.2

/-- The feed pushes its frame and closes between the two loads of a reader. -/
def closeBetweenLoads : List (Choice (Thread 0) (Thread.Call UInt8)) :=
  [.start soleHandler (ConsumerCall.tryPopMany 2)] ++ List.replicate 2 (.go soleHandler) ++
  [.start .producer (ProducerCall.tryPushMany deleteFrame.bytes)] ++
    List.replicate 24 (.go .producer) ++
  [.start .producer ProducerCall.close] ++ List.replicate 2 (.go .producer) ++ [.go soleHandler]

theorem closeBetweenLoads_loses :
    let start : ReplayConfig ⟨5, by decide⟩ (fun _ : Fin 1 => countingEffects) .little :=
      makeSpmc (fun _ => 0) (replayStart (fun _ => countingEffects) .little (wire [deleteFrame])
        fun _ => 0)
    ∃ cfg cfg' : ReplayConfig ⟨5, by decide⟩ (fun _ : Fin 1 => countingEffects) .little,
      (queue UInt8 ⟨5, by decide⟩ 0).run start closeBetweenLoads = some cfg ∧
      returning cfg 0 = some (.tryPopMany 2, .bufferClosed, 21) ∧ ¬ ReportsTail cfg ∧
      (queue UInt8 ⟨5, by decide⟩ 0).run start (closeBetweenLoads ++ [.go soleHandler]) =
        some cfg' ∧
      (sessionOf cfg' 0).stoppedWith = some 0 ∧ (sessionOf cfg' 0).framesRead.length = 0 := by
  intro start
  have hran : ((queue UInt8 ⟨5, by decide⟩ 0).run start closeBetweenLoads).map
      (fun cfg => returning cfg 0) = some (some (.tryPopMany 2, .bufferClosed, 21)) := by
    decide +kernel
  have hran' : ((queue UInt8 ⟨5, by decide⟩ 0).run start
      (closeBetweenLoads ++ [.go soleHandler])).map (fun cfg =>
        ((sessionOf cfg 0).stoppedWith, (sessionOf cfg 0).framesRead.length)) =
          some (some 0, 0) := by
    decide +kernel
  obtain ⟨cfg, hrun, hcfg⟩ := Option.map_eq_some_iff.mp hran
  obtain ⟨cfg', hrun', hcfg'⟩ := Option.map_eq_some_iff.mp hran'
  obtain ⟨hstopped, hread⟩ := Prod.mk.inj hcfg'
  refine ⟨cfg, cfg', hrun, hcfg, ?_, hrun', hstopped, hread⟩
  intro htail
  obtain ⟨r, data, hstatus, hfailure, hleft⟩ := returning_eq hcfg
  have hfew := htail 0 (.tryPopMany 2) r data hstatus hfailure
  rw [hleft] at hfew
  exact absurd hfew (by decide)

end ItchOrderBook.MarketData

import ItchOrderBook.Feed.Framing
import ItchOrderBook.Foundation.FairRuns
import ItchOrderBook.MarketData.Shutdown
import ItchOrderBook.Spmc.Linearizability
import Mathlib.Order.Filter.AtTopBot.Basic

/-! # The end of every fair replay

Whatever the threads of a replay do, from some time on nothing more is published, read or
closed. A fair replay that then went on would have a call that is refused for ever: but a
frame that fits is pushed once every handler has caught up, and a handler that has caught
up stops once the queue is closed.
-/
namespace ItchOrderBook.MarketData
open AtomicProgram ByteOrder Feed Spmc Stse

variable {C : Capacity} {n : ℕ} {H : Type} {E : Fin (n + 1) → Effects H} {native : Endian}
  {frames : List Frame} {handler : Fin (n + 1) → H} {cfg cfg' : ReplayConfig C E native}

/-! ## The closed flag -/

theorem offers_close {feed : FeedHandler} (h : feed.offers .close = true) : feed = .closing := by
  cases feed with
  | closing => rfl
  | publishing frame ptr => simp [FeedHandler.offers] at h
  | spinning => simp [FeedHandler.offers] at h
  | closed => simp [FeedHandler.offers] at h

theorem after_publishing_ne (native : Endian) (frame ptr : List UInt8) (result : ProducerResult) :
    (FeedHandler.publishing frame ptr).after native result ≠ .closed := by
  have hpoll : FeedHandler.poll native ptr ≠ .closed := by
    unfold FeedHandler.poll
    split <;> simp
  cases result with
  | closed => simp [FeedHandler.after]
  | response r =>
    cases r with
    | success => exact hpoll
    | _ => simp [FeedHandler.after]

/-- The flag is set in the last call of the feed, and not before. -/
structure FlagAt (cfg : ReplayConfig C E native) : Prop where
  closed : feedOf cfg = .closed → closedIn cfg.world.history = true
  flagged : closedIn cfg.world.history = true → feedOf cfg = .closed ∨
    (feedOf cfg = .closing ∧ ∃ call rest, cfg.status .producer = .running call rest)

theorem FlagAt.of_eq (h : FlagAt cfg) (hfeed : feedOf cfg' = feedOf cfg)
    (hstatus : cfg'.status .producer = cfg.status .producer)
    (hflag : closedIn cfg'.world.history = closedIn cfg.world.history) : FlagAt cfg' where
  closed hdone := hflag.trans (h.closed (hfeed ▸ hdone))
  flagged hclosed := by
    rw [hfeed, hstatus]
    exact h.flagged (hflag ▸ hclosed)

theorem FlagAt.finish (h : FlagAt cfg) (hupheld : Upheld cfg) {j : ℕ}
    (hfeed : FeedAt frames cfg j) {call : ProducerCall UInt8} {result : ProducerResult}
    {data : UInt64} (hstatus : cfg.status .producer = .running call (.ret (result, data))) :
    FlagAt (Machine.finished cfg .producer call result data) := by
  obtain ⟨hoffers, -⟩ := hfeed.running call _ hstatus
  have hsaw : ProducerSaw call (seen .producer cfg.world.history) (result, data) :=
    hupheld.sees .producer call _ hstatus
  have hafter : feedOf (Machine.finished cfg .producer call result data) =
      (feedOf cfg).after native result := Machine.finished_driver ..
  have hsame : closedIn (Machine.finished cfg .producer call result data).world.history =
      closedIn cfg.world.history := rfl
  cases hf : feedOf cfg with
  | spinning => simp [hf, FeedHandler.offers] at hoffers
  | closed => simp [hf, FeedHandler.offers] at hoffers
  | publishing frame ptr =>
    have hopen : closedIn cfg.world.history ≠ true := by
      intro hclosed
      rcases h.flagged hclosed with hdone | ⟨hdone, -⟩
      · rw [hf] at hdone
        cases hdone
      · rw [hf] at hdone
        cases hdone
    refine ⟨fun hdone => ?_, fun hclosed => absurd (hsame ▸ hclosed) hopen⟩
    rw [hafter, hf] at hdone
    exact absurd hdone (after_publishing_ne native frame ptr result)
  | closing =>
    obtain rfl : call = .close := by simpa [hf, FeedHandler.offers] using hoffers
    have hresult : result = .closed ∧ closedIn cfg.world.history = true := by
      cases result with
      | closed =>
        refine ⟨rfl, closedIn_of_seen (i := .producer) (r := ()) ?_⟩
        rw [hsaw.2]
        exact List.mem_cons_self
      | response r =>
        cases r with
        | success => exact absurd rfl hsaw.1
        | failedBufferFull => exact absurd rfl hsaw.1
        | failedPayloadTooLarge => exact absurd hsaw.1 (Nat.not_lt_zero _)
    obtain ⟨rfl, hclosed⟩ := hresult
    have hdone : feedOf (Machine.finished cfg .producer .close .closed data) = .closed := by
      rw [hafter, hf]
      rfl
    exact ⟨fun _ => hsame.trans hclosed, fun _ => .inl hdone⟩

theorem FlagAt.step (h : FlagAt cfg) (hupheld : Upheld cfg) {j : ℕ}
    (hfeed : FeedAt frames cfg j) (hstep : (queue UInt8 C n).Stepped cfg cfg') : FlagAt cfg' := by
  have hne : ∀ c : Fin (n + 1), Thread.producer ≠ .consumer c := by simp
  cases hstep with
  | start i call data hstatus hoffers =>
    cases i with
    | consumer c => exact h.of_eq rfl (Machine.started_status_ne _ cfg (hne c) call data) rfl
    | producer =>
      refine ⟨h.closed, fun hclosed => (h.flagged hclosed).imp_right fun ⟨hdone, _, _, hrunning⟩ => ?_⟩
      rw [hstatus] at hrunning
      cases hrunning
  | act i call action next hstatus =>
    cases i with
    | consumer c =>
      exact h.of_eq rfl (Machine.acted_status_ne _ cfg (hne c) call action next)
        (hupheld.flag_consumer hstatus _)
    | producer =>
      have hrunning := Machine.acted_status (queue UInt8 C n) cfg call action next
      rcases hupheld.flag_producer hstatus (action.exec cfg.world.shared).1 with hsame | rfl
      · refine ⟨fun hdone => hsame.trans (h.closed hdone), fun hclosed => ?_⟩
        exact (h.flagged (hsame.symm.trans hclosed)).imp_right fun hdone =>
          ⟨hdone.1, call, _, hrunning⟩
      · have hclosing := offers_close (hfeed.running _ _ hstatus).1
        refine ⟨fun hdone => ?_, fun _ => .inr ⟨hclosing, _, _, hrunning⟩⟩
        rw [show feedOf cfg = .closed from hdone] at hclosing
        cases hclosing
  | finish i call result data hstatus =>
    cases i with
    | consumer c =>
      exact h.of_eq (Machine.finished_driver_ne cfg (hne c) call result data)
        (Machine.finished_status_ne cfg (hne c) call result data) rfl
    | producer => exact h.finish hupheld hfeed hstatus

/-! ## The sessions -/

theorem Session.resume_ne_again (E : Effects H) (native : Endian) (s : Session H)
    (p : Client (Except Fault (Bool × H))) (h : H) :
    (s.resume E native p).pending ≠ .ret (.ok (true, h)) := by
  cases p with
  | act call next => simp [Session.resume]
  | ret value =>
    rcases value with fault | ⟨_ | _, h'⟩
    · simp [Session.resume]
    · simp [Session.resume]
    · obtain ⟨next, hpoll, -⟩ := poll_eq E native h'
      simp [Session.resume, hpoll]

theorem Session.after_pending (E : Effects H) (native : Endian) {s : Session H} {call : ConsumerCall}
    {next : ConsumerResult UInt8 → Client (Except Fault (Bool × H))}
    (h : s.pending = .act call next) (r : ConsumerResult UInt8) : s.after E native r =
      Session.resume E native { s with calls := s.calls ++ [(call, r)] } (next r) := by
  rw [Session.after, h]

/-- A session that has ended has faulted, or has found the queue closed. -/
structure StopsAt (c : Fin (n + 1)) (cfg : ReplayConfig C E native) : Prop where
  stage : Stage (E c) native (closedIn cfg.world.history = true) (sessionOf cfg c)
  again : ∀ h, (sessionOf cfg c).pending ≠ .ret (.ok (true, h))

theorem StopsAt.of_eq {c : Fin (n + 1)} (h : StopsAt c cfg)
    (hsession : sessionOf cfg' c = sessionOf cfg c)
    (hflag : closedIn cfg.world.history = true → closedIn cfg'.world.history = true) :
    StopsAt c cfg' where
  stage := hsession ▸ h.stage.imp hflag
  again := hsession ▸ h.again

/-- What all threads of a replay keep. -/
structure Underway (frames : List Frame) (handler : Fin (n + 1) → H)
    (cfg : ReplayConfig C E native) : Prop where
  replaying : Replaying frames handler cfg
  upheld : Upheld cfg
  flag : FlagAt cfg
  stops : ∀ c, StopsAt c cfg

section Runs
variable {buffer : Fin C.size → UInt8} {schedule : List (Choice (Thread n) (Thread.Call UInt8))}

theorem closedIn_of_reported
    (hrun : (queue UInt8 C n).run (makeSpmc buffer (replayStart E native (wire frames) handler))
      schedule = some cfg)
    (hadm : Admissible cfg.world.history) {c : Fin (n + 1)} {call : ConsumerCall}
    {r : ConsumerResult UInt8} {data : UInt64}
    (hstatus : cfg.status (.consumer c) = .running call (.ret (r, data)))
    (hclosed : r.failure = .bufferClosed) : closedIn cfg.world.history = true := by
  have hsaw : ConsumerSaw c call (seen (.consumer c) cfg.world.history) (r, data) :=
    saw_run hrun (.consumer c) call _ hstatus
  obtain ⟨failure, items⟩ := r
  obtain rfl : failure = .bufferClosed := hclosed
  obtain ⟨-, readIdx, writeIdx, -, hviews⟩ := hsaw
  obtain ⟨since, past, h⟩ := exists_instant hrun hadm (List.nil_append _).symm
    (hviews.trans (List.nil_append _).symm)
    (Uncommitted.cons rfl (Uncommitted.cons rfl (Uncommitted.cons rfl Uncommitted.nil)))
  obtain ⟨w, rfl, -, hflag, hset⟩ := h.was
  rw [h.split]
  exact closedIn_mono since (hflag.symm.trans hset)

theorem Underway.step (h : Underway frames handler cfg) (hsized : ∀ f ∈ frames, RightSize f)
    (hfew : n = 0 ∨ (wire frames).length < 2 ^ 64)
    (hrun : (queue UInt8 C n).run (makeSpmc buffer (replayStart E native (wire frames) handler))
      schedule = some cfg)
    (hstep : (queue UInt8 C n).Stepped cfg cfg') : Underway frames handler cfg' := by
  obtain ⟨j, hfeed⟩ := h.replaying.feed
  have hadm := hfeed.admissible hfew
  refine ⟨h.replaying.step hsized hfew hstep, h.upheld.step hstep, h.flag.step h.upheld hfeed hstep,
    fun c => ?_⟩
  have hgrows : closedIn cfg.world.history = true → closedIn cfg'.world.history = true := by
    obtain ⟨e, he⟩ := hstep.history
    rw [he]
    exact closedIn_mono [e]
  cases hstep with
  | start i call data hstatus hoffers => exact (h.stops c).of_eq rfl hgrows
  | act i call action next hstatus => exact (h.stops c).of_eq rfl hgrows
  | finish i call result data hstatus =>
    by_cases hi : i = .consumer c
    · subst hi
      obtain ⟨next, hpending⟩ := (h.replaying.session c).poised call _ hstatus
      have hsession : sessionOf (Machine.finished cfg (.consumer c) call result data) c =
          (sessionOf cfg c).after (E c) native result := Machine.finished_driver ..
      refine ⟨?_, ?_⟩
      · rw [hsession]
        exact (h.stops c).stage.after hpending fun _ hclosed =>
          closedIn_of_reported hrun hadm hstatus hclosed
      · rw [hsession, Session.after, hpending]
        exact Session.resume_ne_again (E c) native _ _
    · have hne : Thread.consumer c ≠ i := fun heq => hi heq.symm
      exact (h.stops c).of_eq (Machine.finished_driver_ne cfg hne call result data) hgrows

theorem underway_run (hsized : ∀ f ∈ frames, RightSize f)
    (hfew : n = 0 ∨ (wire frames).length < 2 ^ 64)
    (hrun : (queue UInt8 C n).run (makeSpmc buffer (replayStart E native (wire frames) handler))
      schedule = some cfg) : Underway frames handler cfg := by
  refine Machine.run_induction (P := Underway frames handler) ?_ ?_ hrun
  · refine ⟨Replaying.start buffer frames handler, makeSpmc_upheld buffer _, ⟨fun hdone => ?_, ?_⟩,
      fun c => ⟨.polling rfl, fun h => ?_⟩⟩
    · have hfeeds := poll_feeds native frames
      have hpoll : FeedHandler.poll native (wire frames) = .closed := hdone
      unfold FeedHandler.poll at hpoll
      split at hpoll <;> cases hpoll
    · intro hclosed
      cases hclosed
    · obtain ⟨next, hpoll, -⟩ := poll_eq (E c) native (handler c)
      change poll (E c) native (handler c) ≠ _
      rw [hpoll]
      exact fun heq => by cases heq
  · rintro cfg cfg' ⟨schedule, hrun⟩ h hstep
    exact h.step hsized hfew hrun hstep

end Runs

/-- A session that no message faults ends for one reason only. -/
theorem Underway.closed_of_ended (h : Underway frames handler cfg)
    (hhandled : ∀ c, ∃ h, frames.foldlM (E c).onFrame (handler c) = .ok h) {c : Fin (n + 1)}
    {value : Except Fault (Bool × H)} (hended : (sessionOf cfg c).pending = .ret value) :
    (∃ h', value = .ok (false, h')) ∧ closedIn cfg.world.history = true := by
  have hprogress := (h.replaying.session c).progress
  have hstops := h.stops c
  rcases value with fault | ⟨_ | _, h'⟩
  · obtain ⟨h', hall⟩ := hhandled c
    have hresult := hprogress.result
    rw [Session.result, hended] at hresult
    rw [← List.take_append_drop (sessionOf cfg c).framesRead.length frames,
      List.foldlM_append, hresult] at hall
    cases hall
  · exact ⟨⟨h', rfl⟩, hstops.stage.holds hended⟩
  · exact absurd hended (hstops.again h')

/-! ## What moves and never moves back -/

/-- What the feed has still to do. -/
def feedLeft : FeedHandler → ℕ
  | .publishing _ ptr => ptr.length + 2
  | .closing | .spinning => 1
  | .closed => 0

theorem feedLeft_poll (native : Endian) (ptr : List UInt8) :
    feedLeft (FeedHandler.poll native ptr) ≤ ptr.length + 1 := by
  unfold FeedHandler.poll
  split
  · rename_i frame ptr' hnext
    have hshrinks := next_shrinks hnext
    simp only [feedLeft]
    omega
  · simp [feedLeft]
  · simp [feedLeft]

theorem feedLeft_after (native : Endian) (feed : FeedHandler) (result : ProducerResult) :
    feed.after native result = feed ∨ feedLeft (feed.after native result) < feedLeft feed := by
  cases feed with
  | publishing frame ptr =>
    cases result with
    | closed => exact .inl rfl
    | response r =>
      cases r with
      | success => exact .inr (Nat.lt_succ_of_le (feedLeft_poll native ptr))
      | _ => exact .inl rfl
  | closing =>
    cases result with
    | closed => exact .inr Nat.one_pos
    | response r => exact .inl rfl
  | spinning => exact .inl (by cases result with | _ => rfl)
  | closed => exact .inl (by cases result with | _ => rfl)

/-- How far everything has come. -/
@[ext] structure Gauges (n : ℕ) where
  pushed : ℕ
  passed : Fin (n + 1) → ℕ
  consumed : Fin (n + 1) → ℕ
  closed : Bool
  left : ℕ

def gauges (cfg : ReplayConfig C E native) : Gauges n where
  pushed := (Spmc.pushed cfg.world.history).length
  passed c := Spmc.passed c cfg.world.history
  consumed c := (Spmc.consumed c cfg.world.history).length
  closed := closedIn cfg.world.history
  left := feedLeft (feedOf cfg)

theorem consumed_cons (c : Fin (n + 1)) (e : QueueEvent UInt8 C n)
    (history : List (QueueEvent UInt8 C n)) :
    (consumed c history).length ≤ (consumed c (e :: history)).length := by
  cases e with
  | start i call => exact le_rfl
  | act i call action result => exact le_rfl
  | finish i call r =>
    cases i with
    | producer => exact le_rfl
    | consumer d =>
      change _ ≤ (if d = c then consumed c history ++ ConsumerCall.consumed call r
        else consumed c history).length
      split
      · rw [List.length_append]
        exact Nat.le_add_right _ _
      · exact le_rfl

structure Gauges.Le (g g' : Gauges n) : Prop where
  pushed : g.pushed ≤ g'.pushed
  passed : ∀ c, g.passed c ≤ g'.passed c
  consumed : ∀ c, g.consumed c ≤ g'.consumed c
  closed : g.closed.toNat ≤ g'.closed.toNat
  left : g'.left ≤ g.left

theorem gauges_step (hstep : (queue UInt8 C n).Stepped cfg cfg') :
    (gauges cfg).Le (gauges cfg') := by
  obtain ⟨e, he⟩ := hstep.history
  refine ⟨?_, fun c => ?_, fun c => ?_, ?_, ?_⟩
  · simp only [gauges, he]
    exact (pushed_cons e cfg.world.history).length_le
  · simp only [gauges, he]
    exact passed_mono c [e] cfg.world.history
  · simp only [gauges, he]
    exact consumed_cons c e cfg.world.history
  · simp only [gauges, he]
    exact Bool.toNat_le_toNat (closedIn_mono [e])
  · change feedLeft (feedOf cfg') ≤ feedLeft (feedOf cfg)
    cases hstep with
    | start i call data hstatus hoffers => exact le_rfl
    | act i call action next hstatus => exact le_rfl
    | finish i call result data hstatus =>
      cases i with
      | consumer c =>
        have hfeed : feedOf (Machine.finished cfg (.consumer c) call result data) = feedOf cfg :=
          Machine.finished_driver_ne cfg (by simp) call result data
        exact hfeed ▸ le_rfl
      | producer =>
        have hfeed : feedOf (Machine.finished cfg .producer call result data) =
            (feedOf cfg).after native result := Machine.finished_driver ..
        rw [hfeed]
        rcases feedLeft_after native (feedOf cfg) result with hsame | hless
        · rw [hsame]
        · exact hless.le

theorem gauges_settle {start : ReplayConfig C E native} (r : (queue UInt8 C n).Unending start)
    (hunderway : ∀ k, Underway frames handler (r.cfg k)) :
    ∃ g, ∀ᶠ k in Filter.atTop, gauges (r.cfg k) = g := by
  have hstep := fun k => gauges_step (Machine.stepped_of_step (r.step k))
  have hpushed : ∀ k, (gauges (r.cfg k)).pushed ≤ (wire frames).length := by
    intro k
    obtain ⟨j, hfeed⟩ := (hunderway k).replaying.feed
    obtain ⟨m, -, hwhole⟩ := hfeed.whole
    change (pushed (r.cfg k).world.history).length ≤ _
    rw [hwhole]
    have hle := wire_take_mono frames (Nat.le_max_left m frames.length)
    rwa [List.take_of_length_le (Nat.le_max_right m frames.length)] at hle
  have hpassed : ∀ c k, (gauges (r.cfg k)).passed c ≤ (wire frames).length := fun c k =>
    ((hunderway k).replaying.queue.inv.order c).trans (hpushed k)
  have hconsumed : ∀ c k, (gauges (r.cfg k)).consumed c ≤ (wire frames).length := fun c k =>
    ((hunderway k).replaying.queue.inv.logged c).1.trans (hpassed c k)
  obtain ⟨p, hp⟩ := exists_constant (fun k => (hstep k).pushed) hpushed
  obtain ⟨b, hb⟩ := exists_constant (fun k => (hstep k).closed) fun k => Bool.toNat_le _
  have hleft : ∀ k, (gauges (r.cfg k)).left ≤ (gauges (r.cfg 0)).left := by
    intro k
    induction k with
    | zero => exact le_rfl
    | succ k ih => exact (hstep k).left.trans ih
  obtain ⟨l, hl⟩ := exists_constant (fun k => Nat.sub_le_sub_left (hstep k).left _) fun k =>
    Nat.sub_le (gauges (r.cfg 0)).left (gauges (r.cfg k)).left
  choose ps hps using fun c => exists_constant (fun k => (hstep k).passed c) (hpassed c)
  choose cs hcs using fun c => exists_constant (fun k => (hstep k).consumed c) (hconsumed c)
  refine ⟨⟨p, ps, cs, decide (b = 1), (gauges (r.cfg 0)).left - l⟩, ?_⟩
  filter_upwards [hp, hb, hl, Filter.eventually_all.mpr hps, Filter.eventually_all.mpr hcs]
    with k hp hb hl hps hcs
  refine Gauges.ext hp (funext hps) (funext hcs) ?_ ?_
  · rw [← hb]
    cases (gauges (r.cfg k)).closed <;> rfl
  · have := hleft k
    change (gauges (r.cfg k)).left = (gauges (r.cfg 0)).left - l
    omega

/-! ## When nothing moves -/

/-- The indices and the flag of a queue that has come so far. -/
structure Gauges.Shown (g : Gauges n) (b : RingBuffer UInt8 C n) : Prop where
  write : b.writeIdx = UInt64.ofNat g.pushed
  read : ∀ c, b.readIdx c = UInt64.ofNat (g.passed c)
  closed : b.isClosed = g.closed

/-- What a thread may see meanwhile. -/
def Gauges.Steady (g : Gauges n) (v : View UInt8 C n) : Prop :=
  ∃ b : RingBuffer UInt8 C n, g.Shown b ∧ v.2 = (v.1.exec b).1

theorem Underway.shown (h : Underway frames handler cfg) : (gauges cfg).Shown cfg.world.shared :=
  ⟨h.replaying.queue.inv.write, h.replaying.queue.inv.read, h.upheld.flag⟩

section Steady
variable {g : Gauges n}

theorem Gauges.Steady.write {value : UInt64}
    (h : g.Steady (View.loadWriteIdx value : View UInt8 C n)) : value = UInt64.ofNat g.pushed := by
  obtain ⟨b, hb, hvalue⟩ := h
  exact hvalue.trans hb.write

theorem Gauges.Steady.read {c : Fin (n + 1)} {value : UInt64}
    (h : g.Steady (View.loadReadIdx c value : View UInt8 C n)) :
    value = UInt64.ofNat (g.passed c) := by
  obtain ⟨b, hb, hvalue⟩ := h
  exact hvalue.trans (hb.read c)

theorem Gauges.Steady.closed {value : Bool}
    (h : g.Steady (View.loadIsClosed value : View UInt8 C n)) : value = g.closed := by
  obtain ⟨b, hb, hvalue⟩ := h
  exact hvalue.trans hb.closed

end Steady

/-- A fair replay from a time on at which nothing moves any more. -/
structure Quiet (frames : List Frame) (handler : Fin (n + 1) → H)
    {start : ReplayConfig C E native} (r : (queue UInt8 C n).Unending start) (g : Gauges n)
    (K : ℕ) : Prop where
  few : n = 0 ∨ (wire frames).length < 2 ^ 64
  fair : r.Fair
  underway : ∀ k, Underway frames handler (r.cfg k)
  gauges : ∀ k ≥ K, MarketData.gauges (r.cfg k) = g

section Quiet
variable {start : ReplayConfig C E native} {r : (queue UInt8 C n).Unending start} {g : Gauges n}
  {K k : ℕ} {c : Fin (n + 1)}

theorem Quiet.steady (h : Quiet frames handler r g K) (k : ℕ) (hk : k ≥ K)
    (a : Access UInt8 C n) : g.Steady ⟨a, (a.exec (r.cfg k).world.shared).1⟩ :=
  ⟨_, h.gauges k hk ▸ (h.underway k).shown, rfl⟩

/-- A session between two polls, or at its end. -/
def Session.Settles {H : Type} (E : Effects H) (native : Endian) (s : Session H) : Prop :=
  (∃ value, s.pending = .ret value) ∨ (s.pending = poll E native s.handler ∧ s.calls = [])

theorem Quiet.settles (h : Quiet frames handler r g K) (c : Fin (n + 1)) :
    ∃ k ≥ K, ∃ data, (r.cfg k).status (.consumer c) = .idle data ∧
      (sessionOf (r.cfg k) c).Settles (E c) native := by
  have hpoll : ∀ (p : Client (Except Fault (Bool × H))) (k : ℕ), k ≥ K → ∀ data,
      (r.cfg k).status (.consumer c) = .idle data → (sessionOf (r.cfg k) c).pending = p →
      ∃ k' ≥ K, ∃ data, (r.cfg k').status (.consumer c) = .idle data ∧
        (sessionOf (r.cfg k') c).Settles (E c) native := by
    intro p
    induction p with
    | ret value => exact fun k hk data hidle hpending => ⟨k, hk, data, hidle, .inl ⟨value, hpending⟩⟩
    | act call next ih =>
      intro k hk data hidle hpending
      have hoffers : (replay E native).offers (.consumer c) ((r.cfg k).driver (.consumer c)) call =
          true := by
        change (sessionOf (r.cfg k) c).offers call = true
        simp [Session.offers, hpending]
      obtain ⟨k', hk', call', result, data', -, hreturns, hdriver⟩ :=
        h.fair.calls (fun _ => True) (fun _ _ _ => trivial) hk hidle hoffers
      have hsame : sessionOf (r.cfg k') c = sessionOf (r.cfg k) c := hdriver
      have hidle' : (r.cfg (k' + 1)).status (.consumer c) = .idle data' := by
        rw [hreturns.next]
        exact Machine.finished_status ..
      have hsession : sessionOf (r.cfg (k' + 1)) c = Session.resume (E c) native
          { sessionOf (r.cfg k) c with calls := (sessionOf (r.cfg k) c).calls ++ [(call, result)] }
          (next result) := by
        rw [hreturns.next]
        change (Machine.finished (r.cfg k') (.consumer c) call' result data').driver _ = _
        rw [Machine.finished_driver]
        change (sessionOf (r.cfg k') c).after (E c) native result = _
        rw [hsame, Session.after_pending (E c) native hpending]
      cases hnext : next result with
      | act call'' next' =>
        refine ih result (k' + 1) (by omega) data' hidle' ?_
        rw [hsession, hnext, Session.resume]
      | ret value =>
        refine ⟨k' + 1, by omega, data', hidle', ?_⟩
        rw [hsession, hnext]
        rcases value with fault | ⟨_ | _, h'⟩
        · exact .inl ⟨_, rfl⟩
        · exact .inl ⟨_, rfl⟩
        · exact .inr ⟨rfl, rfl⟩
  obtain ⟨k, hk, data, hidle⟩ := h.fair.idles (.consumer c) K
  exact hpoll _ k hk data hidle rfl

theorem Quiet.refused (h : Quiet frames handler r g K) (hk : k ≥ K) {data : UInt64}
    (hidle : (r.cfg k).status (.consumer c) = .idle data)
    (hpending : (sessionOf (r.cfg k) c).pending = poll (E c) native (sessionOf (r.cfg k) c).handler) :
    ∃ k' ≥ k, ∃ (result : ConsumerResult UInt8) (data' : UInt64),
      r.cfg (k' + 1) = Machine.finished (r.cfg k') (.consumer c) (.tryPopMany 2) result data' ∧
      sessionOf (r.cfg k') c = sessionOf (r.cfg k) c ∧ result.failure ≠ .none ∧
      UInt64.ofNat g.pushed - UInt64.ofNat (g.passed c) < 2 ∧
      decide (result.failure = .bufferClosed) = g.closed := by
  obtain ⟨next, hpoll, -⟩ := poll_eq (E c) native (sessionOf (r.cfg k) c).handler
  rw [hpoll] at hpending
  have hoffers : (replay E native).offers (.consumer c) ((r.cfg k).driver (.consumer c))
      (ConsumerCall.tryPopMany 2) = true := by
    change (sessionOf (r.cfg k) c).offers (.tryPopMany 2) = true
    simp [Session.offers, hpending]
  obtain ⟨k', hk', call, result, data', hcall, hreturns, hdriver⟩ :=
    h.fair.calls g.Steady h.steady hk hidle hoffers
  obtain rfl : call = ConsumerCall.tryPopMany 2 := by
    have hcall : (sessionOf (r.cfg k) c).offers call = true := hcall
    simpa [Session.offers, hpending] using hcall
  have hsaw : ConsumerSaw c (.tryPopMany 2) (seen (.consumer c) (r.cfg k').world.history)
      (result, data') := (h.underway k').upheld.sees (.consumer c) _ _ hreturns.status
  obtain ⟨j, hfeed⟩ := (h.underway k').replaying.feed
  have hholds := (h.underway k').replaying.queue
  obtain ⟨-, hdelivered⟩ := hholds.post discipline_valid (hfeed.admissible h.few) hreturns.status
  have hlog := (hdelivered.log (hholds.inv.logged c).2).1
  have hrefused : result.failure ≠ .none := by
    intro hnone
    simp only [Delivered, if_pos hnone] at hdelivered
    have hmoved : passed c (r.cfg k').world.history =
      (consumed c (r.cfg k').world.history).length + 2 := hdelivered.1
    have hgauge : (MarketData.gauges (r.cfg k')).consumed c =
        (MarketData.gauges (r.cfg (k' + 1))).consumed c := by
      rw [h.gauges k' (hk.trans hk'), h.gauges (k' + 1) (by omega)]
    have hgrown : consumed c (Machine.finished (r.cfg k') (.consumer c) (.tryPopMany 2) result
        data').world.history = consumed c (r.cfg k').world.history ++
          ConsumerCall.consumed (.tryPopMany 2) result := if_pos rfl
    rw [hreturns.next] at hgauge
    change (consumed c (r.cfg k').world.history).length = (consumed c (Machine.finished (r.cfg k')
      (.consumer c) (.tryPopMany 2) result data').world.history).length at hgauge
    rw [hgrown] at hgauge
    omega
  have hshort : ∀ closed, SawShort c 2 closed (seen (.consumer c) (r.cfg k').world.history) →
      UInt64.ofNat g.pushed - UInt64.ofNat (g.passed c) < 2 ∧ closed = g.closed := by
    rintro closed ⟨readIdx, writeIdx, hless, hviews⟩
    have hsees := hreturns.sees
    rw [hviews] at hsees
    have hread := (hsees (View.loadReadIdx c readIdx) (by simp)).read
    have hwrite := (hsees (View.loadWriteIdx writeIdx) (by simp)).write
    have hclosed := (hsees (View.loadIsClosed closed) (by simp)).closed
    rw [hwrite, hread] at hless
    exact ⟨hless, hclosed⟩
  refine ⟨k', hk', result, data', hreturns.next, hdriver, hrefused, ?_⟩
  obtain ⟨failure, items⟩ := result
  cases failure with
  | none => exact absurd rfl hrefused
  | bufferInsufficient => exact hshort false hsaw.2
  | bufferClosed => exact hshort true hsaw.2

/-- A session that goes on has caught up with the feed. -/
theorem Quiet.caught_up (h : Quiet frames handler r g K) (hk : k ≥ K) {data : UInt64}
    (hidle : (r.cfg k).status (.consumer c) = .idle data)
    (hpending : (sessionOf (r.cfg k) c).pending = poll (E c) native (sessionOf (r.cfg k) c).handler)
    (hcalls : (sessionOf (r.cfg k) c).calls = []) : g.passed c = g.pushed := by
  obtain ⟨k', hk', result, data', -, -, -, hless, -⟩ := h.refused hk hidle hpending
  have hgauges := h.gauges k hk
  have hholds := (h.underway k).replaying.queue
  obtain ⟨j, hfeed⟩ := (h.underway k).replaying.feed
  obtain ⟨m, -, hwhole⟩ := hfeed.whole
  have hpassed : passed c (r.cfg k).world.history = (consumed c (r.cfg k).world.history).length :=
    (hholds.idle (.consumer c) data hidle).2
  have hlogged : (consumed c (r.cfg k).world.history).length =
      (wire (frames.take (sessionOf (r.cfg k) c).framesRead.length)).length := by
    cases ((h.underway k).replaying.session c).progress.place with
    | boundary _ _ hlogged => exact hlogged
    | within _ _ _ _ _ _ hsome _ _ _ _ => exact absurd hcalls hsome.1
    | ended _ _ hlogged => exact hlogged
  have horder := hholds.inv.order c
  have hroom := hholds.inv.room c
  have hsize := C.size_le
  subst hgauges
  change passed c (r.cfg k).world.history = (pushed (r.cfg k).world.history).length
  change UInt64.ofNat (pushed (r.cfg k).world.history).length -
    UInt64.ofNat (passed c (r.cfg k).world.history) < 2 at hless
  rw [UInt64.lt_iff_toNat_lt, ofNat_sub_toNat horder (by omega)] at hless
  have htwo : (2 : UInt64).toNat = 2 := rfl
  rw [htwo] at hless
  -- a frame that is published and not read would be two bytes at least
  by_contra hne
  have hbehind : (wire (frames.take (sessionOf (r.cfg k) c).framesRead.length)).length <
      (wire (frames.take m)).length := by
    rw [← hwhole, ← hlogged, ← hpassed]
    omega
  obtain ⟨hlt, f, hf⟩ := exists_frame hbehind
  have hmore := wire_take_mono frames (show _ + 1 ≤ m from hlt)
  rw [wire_take_succ hf, List.length_append, Frame.bytes_length, ← hwhole, ← hlogged,
    ← hpassed] at hmore
  omega

theorem Quiet.session_ends (h : Quiet frames handler r g K) (hclosed : g.closed = true)
    (c : Fin (n + 1)) : ∃ k, ∃ data value, (r.cfg k).status (.consumer c) = .idle data ∧
      (sessionOf (r.cfg k) c).pending = .ret value := by
  obtain ⟨k, hk, data, hidle, ⟨value, hended⟩ | ⟨hpending, hcalls⟩⟩ := h.settles c
  · exact ⟨k, data, value, hidle, hended⟩
  · obtain ⟨k', hk', result, data', hnext, hsession, hrefused, -, hflag⟩ :=
      h.refused hk hidle hpending
    have hstop : result.failure = .bufferClosed := of_decide_eq_true (hflag.trans hclosed)
    obtain ⟨next, hpoll, hfail⟩ := poll_eq (E c) native (sessionOf (r.cfg k) c).handler
    refine ⟨k' + 1, data', .ok (false, (sessionOf (r.cfg k) c).handler), ?_, ?_⟩
    · rw [hnext]
      exact Machine.finished_status ..
    · have hafter : sessionOf (r.cfg (k' + 1)) c =
          (sessionOf (r.cfg k') c).after (E c) native result := by
        rw [hnext]
        exact Machine.finished_driver ..
      rw [hafter, hsession, Session.after_pending (E c) native (hpending.trans hpoll),
        hfail result hrefused, decide_eq_false (not_not.mpr hstop), Session.resume]

/-- There is room for what fits once every session has caught up. -/
theorem not_sawFull (hcaught : ∀ c, g.passed c = g.pushed) {items : List UInt8}
    (hsome : items ≠ []) {views : List (View UInt8 C n)} (hsees : ∀ v ∈ views, g.Steady v) :
    ¬ SawFull items views := by
  rintro ⟨hsize, writeIdx, readIdx, rfl, hleast⟩
  have hload := hsees (View.loadWriteIdx writeIdx) (by simp)
  have hwrite := hload.write
  have hread : ∀ c, readIdx c = UInt64.ofNat g.pushed := by
    intro c
    have hmem : View.loadReadIdx c (readIdx c) ∈ (readViews readIdx : List (View UInt8 C n)) :=
      List.mem_reverse.mpr (List.mem_map.mpr ⟨c, List.mem_finRange c, rfl⟩)
    rw [← hcaught c]
    exact (hsees _ (List.mem_append_left _ hmem)).read
  obtain ⟨b, -, -⟩ := hload
  obtain ⟨d, hd⟩ := firstReadIdx_mem { b with readIdx := readIdx }
  have hsmallest : smallest readIdx = readIdx d := hd
  have hpositive := List.length_pos_iff.mpr hsome
  have hbound := C.size_le
  rw [hsmallest, hread, hwrite, UInt64.le_iff_toNat_le, C.capacity_toNat, last_sub_toNat,
    UInt64.sub_self] at hleast
  unfold lastDistance at hleast
  have hzero : (0 : UInt64).toNat = 0 := rfl
  rw [hzero] at hleast
  omega

theorem Quiet.feed_ends (h : Quiet frames handler r g K)
    (hfits : ∀ f ∈ frames, f.bytes.length ≤ C.size)
    (hhandled : ∀ c, ∃ h, frames.foldlM (E c).onFrame (handler c) = .ok h) :
    ∃ k ≥ K, ∃ data, (r.cfg k).status .producer = .idle data ∧ feedOf (r.cfg k) = .closed := by
  obtain ⟨k, hk, data, hidle⟩ := h.fair.idles .producer K
  obtain ⟨j, hfeed⟩ := (h.underway k).replaying.feed
  have hleft : ∀ k ≥ K, feedLeft (feedOf (r.cfg k)) = g.left :=
    fun k hk => congrArg Gauges.left (h.gauges k hk)
  -- what a call of the feed returns leaves as much to do as there was
  have hcalls : ∀ call, (feedOf (r.cfg k)).offers call = true → ∃ call' result,
      (feedOf (r.cfg k)).offers call' = true ∧
      (feedOf (r.cfg k)).after native result = feedOf (r.cfg k) ∧
      ∃ (views : List (View UInt8 C n)) (data' : UInt64), (∀ v ∈ views, g.Steady v) ∧
        ProducerSaw call' views (result, data') := by
    intro call hoffers
    have hoffered : (replay E native).offers .producer ((r.cfg k).driver .producer) call = true :=
      hoffers
    obtain ⟨k', hk', call', result, data', hoffers', hreturns, hdriver⟩ :=
      h.fair.calls g.Steady h.steady hk hidle hoffered
    have hafter : feedOf (r.cfg (k' + 1)) = (feedOf (r.cfg k)).after native result := by
      have hsame : feedOf (r.cfg k') = feedOf (r.cfg k) := hdriver
      rw [hreturns.next, ← hsame]
      exact Machine.finished_driver ..
    refine ⟨call', result, hoffers', ?_, _, data', hreturns.sees,
      (h.underway k').upheld.sees .producer _ _ hreturns.status⟩
    refine (feedLeft_after native (feedOf (r.cfg k)) result).resolve_right fun hless => ?_
    rw [← hafter, hleft (k' + 1) (by omega), hleft k hk] at hless
    exact hless.false
  refine ⟨k, hk, data, hidle, ?_⟩
  have hfeeds := hfeed.feeds
  cases hf : feedOf (r.cfg k) with
  | closed => rfl
  | spinning =>
    rw [hf] at hfeeds
    exact hfeeds.elim
  | closing =>
    obtain ⟨call, result, hoffers, hstays, views, data', -, hsaw⟩ := hcalls .close (by rw [hf]; rfl)
    rw [hf] at hoffers hstays
    obtain rfl : call = .close := by simpa [FeedHandler.offers] using hoffers
    cases result with
    | closed => cases hstays
    | response r =>
      cases r with
      | failedPayloadTooLarge => exact absurd hsaw.1 (Nat.not_lt_zero _)
      | _ => exact absurd rfl hsaw.1
  | publishing frame ptr =>
    rw [hf] at hfeeds
    obtain ⟨f, rest, hrest, rfl, rfl⟩ := hfeeds
    have hsize := hfits f (List.mem_of_mem_drop (hrest ▸ List.mem_cons_self))
    have hsome : f.bytes ≠ [] := List.ne_nil_of_length_pos (by rw [f.bytes_length]; omega)
    obtain ⟨call, result, hoffers, hstays, views, data', hsees, hsaw⟩ :=
      hcalls (.tryPushMany f.bytes) (by simp [hf, FeedHandler.offers])
    rw [hf] at hoffers hstays
    obtain rfl : call = .tryPushMany f.bytes := by simpa [FeedHandler.offers] using hoffers
    have hcaught : ∀ c, g.passed c = g.pushed := by
      intro c
      obtain ⟨k', hk', data', hidle', ⟨value, hended⟩ | ⟨hpending, hnil⟩⟩ := h.settles c
      · -- the feed would be closing
        obtain ⟨-, hclosed⟩ := (h.underway k').closed_of_ended hhandled hended
        have hmany := (hleft k' hk').trans (hleft k hk).symm
        rw [hf] at hmany
        rcases (h.underway k').flag.flagged hclosed with hdone | ⟨hdone, -⟩
        · rw [hdone] at hmany
          cases hmany
        · rw [hdone] at hmany
          have := Nat.succ.inj hmany
          omega
      · exact h.caught_up hk' hidle' hpending hnil
    cases result with
    | closed => cases hsaw.1
    | response r =>
      cases r with
      | success =>
        have hshorter := feedLeft_poll native (wire rest)
        have hsame : FeedHandler.poll native (wire rest) = .publishing f.bytes (wire rest) := hstays
        rw [hsame, feedLeft] at hshorter
        omega
      | failedBufferFull => exact absurd hsaw.2 (not_sawFull hcaught hsome hsees)
      | failedPayloadTooLarge => exact absurd hsaw.1 (Nat.not_lt.mpr hsize)

end Quiet

/-! ## The end -/

instance : Finite (Thread n) := by
  refine Finite.of_surjective (fun i : Option (Fin (n + 1)) => i.elim .producer .consumer) ?_
  intro i
  cases i with
  | producer => exact ⟨none, rfl⟩
  | consumer c => exact ⟨some c, rfl⟩

section End
variable {buffer : Fin C.size → UInt8} {schedule : List (Choice (Thread n) (Thread.Call UInt8))}

/-- No replay of frames that fit the queue and fault no handler goes on for ever without
leaving a thread behind. -/
theorem not_fair (hsized : ∀ f ∈ frames, RightSize f)
    (hfew : n = 0 ∨ (wire frames).length < 2 ^ 64) (hfits : ∀ f ∈ frames, f.bytes.length ≤ C.size)
    (hhandled : ∀ c, ∃ h, frames.foldlM (E c).onFrame (handler c) = .ok h)
    (r : (queue UInt8 C n).Unending (makeSpmc buffer (replayStart E native (wire frames) handler))) :
    ¬ r.Fair := by
  intro hfair
  have hunderway : ∀ k, Underway frames handler (r.cfg k) := fun k => by
    obtain ⟨schedule, hrun⟩ := r.reached k
    exact underway_run hsized hfew hrun
  obtain ⟨g, hg⟩ := gauges_settle r hunderway
  obtain ⟨K, hK⟩ := Filter.eventually_atTop.mp hg
  have hquiet : Quiet frames handler r g K := ⟨hfew, hfair, hunderway, hK⟩
  obtain ⟨k, hk, data, hidle, hdone⟩ := hquiet.feed_ends hfits hhandled
  have hclosed : g.closed = true := by
    rw [← hquiet.gauges k hk]
    exact (hunderway k).flag.closed hdone
  -- every thread has stopped at some time
  obtain ⟨i, hi⟩ := r.exists_enabled
  have hstuck : ∃ k, ∃ data, (r.cfg k).status i = .idle data ∧
      ∀ call, (replay E native).offers i ((r.cfg k).driver i) call = false := by
    cases i with
    | producer =>
      refine ⟨k, data, hidle, fun call => ?_⟩
      change (feedOf (r.cfg k)).offers call = false
      rw [hdone]
      rfl
    | consumer c =>
      obtain ⟨k, data, value, hidle, hended⟩ := hquiet.session_ends hclosed c
      refine ⟨k, data, hidle, fun call => ?_⟩
      change (sessionOf (r.cfg k) c).offers call = false
      rw [Session.offers, hended]
  obtain ⟨k, data, hidle, hnone⟩ := hstuck
  exact Machine.not_enabled_of_idle _ hidle hnone (hi k)

/-- Where no thread can go on, the feed has published every frame and closed the queue, and
every session has found it closed. -/
theorem Underway.stuck (h : Underway frames handler cfg)
    (hhandled : ∀ c, ∃ h, frames.foldlM (E c).onFrame (handler c) = .ok h)
    (hstuck : ∀ i, ¬ (queue UInt8 C n).Enabled i cfg) : feedOf cfg = .closed ∧
      pushed cfg.world.history = wire frames ∧
      ∀ c, ∃ h', (sessionOf cfg c).pending = .ret (.ok (false, h')) := by
  have hidle : ∀ i, ∃ data, cfg.status i = .idle data := by
    intro i
    cases hs : cfg.status i with
    | idle data => exact ⟨data, rfl⟩
    | running call rest => exact absurd (Machine.enabled_running _ hs) (hstuck i)
  have hnone : ∀ i call, (replay E native).offers i (cfg.driver i) call ≠ true := by
    intro i call hoffers
    obtain ⟨data, hdata⟩ := hidle i
    exact hstuck i (Machine.enabled_offered _ hdata hoffers)
  obtain ⟨j, hfeed⟩ := h.replaying.feed
  have hclosed : feedOf cfg = .closed := by
    have hfeeds := hfeed.feeds
    cases hf : feedOf cfg with
    | closed => rfl
    | spinning =>
      rw [hf] at hfeeds
      exact hfeeds.elim
    | closing =>
      have hoffers : (feedOf cfg).offers .close ≠ true := hnone .producer ProducerCall.close
      exact absurd (by rw [hf]; rfl) hoffers
    | publishing frame ptr =>
      have hoffers : (feedOf cfg).offers (.tryPushMany frame) ≠ true :=
        hnone .producer (ProducerCall.tryPushMany frame)
      exact absurd (by simp [hf, FeedHandler.offers]) hoffers
  refine ⟨hclosed, ?_, fun c => ?_⟩
  · obtain ⟨data, hdata⟩ := hidle .producer
    have hfeeds := hfeed.feeds
    rw [hclosed] at hfeeds
    rw [hfeed.idle data hdata, List.take_of_length_le (List.drop_eq_nil_iff.mp hfeeds)]
  · cases hp : (sessionOf cfg c).pending with
    | ret value =>
      obtain ⟨⟨h', rfl⟩, -⟩ := h.closed_of_ended hhandled hp
      exact ⟨h', rfl⟩
    | act call next =>
      have hoffers : (sessionOf cfg c).offers call ≠ true := hnone (.consumer c) call
      exact absurd (by simp [Session.offers, hp]) hoffers

/-- A session that has stopped has run all the messages, if the queue was closed over no
waiting reader. -/
theorem Underway.handled (h : Underway frames handler cfg) {buffer : Fin C.size → UInt8}
    {file : List UInt8} {handler' : Fin (n + 1) → H}
    {schedule : List (Choice (Thread n) (Thread.Call UInt8))}
    (hsettled : (queue UInt8 C n).runWhere settledClose
      (makeSpmc buffer (replayStart E native file handler')) schedule = some cfg)
    {c : Fin (n + 1)} {h' : H} (hpending : (sessionOf cfg c).pending = .ret (.ok (false, h'))) :
    frames.foldlM (E c).onFrame (handler c) = .ok (sessionOf cfg c).handler := by
  have hread := ((settled_run hsettled).all_read h.replaying hpending).2.2
  have hresult := (h.replaying.session c).progress.result
  rw [hread, List.take_length] at hresult
  rw [hresult, Session.result, hpending]

/-- Every fair replay of frames that fit the queue and fault no handler comes to an end. There
the feed has published every frame and closed the queue, and every handler's thread has
stopped, with what all the messages make of the handler unless the queue was closed over a
waiting reader. -/
theorem replay_ends (E : Fin (n + 1) → Effects H) (native : Endian) (buffer : Fin C.size → UInt8)
    (handler : Fin (n + 1) → H) (frames : List Frame) (hsized : ∀ f ∈ frames, RightSize f)
    (hfew : n = 0 ∨ (wire frames).length < 2 ^ 64) (hfits : ∀ f ∈ frames, f.bytes.length ≤ C.size)
    (hhandled : ∀ c, ∃ h, frames.foldlM (E c).onFrame (handler c) = .ok h) :
    (∀ r : (queue UInt8 C n).Unending
      (makeSpmc buffer (replayStart E native (wire frames) handler)), ¬ r.Fair) ∧
    ∀ (schedule : List (Choice (Thread n) (Thread.Call UInt8))) (cfg : ReplayConfig C E native),
      (queue UInt8 C n).run (makeSpmc buffer (replayStart E native (wire frames) handler))
        schedule = some cfg →
      (∀ i, ¬ (queue UInt8 C n).Enabled i cfg) →
      feedOf cfg = .closed ∧ pushed cfg.world.history = wire frames ∧
      (∀ c, ∃ h, (sessionOf cfg c).pending = .ret (.ok (false, h))) ∧
      ((queue UInt8 C n).runWhere settledClose
        (makeSpmc buffer (replayStart E native (wire frames) handler)) schedule = some cfg →
        ∀ c, frames.foldlM (E c).onFrame (handler c) = .ok (sessionOf cfg c).handler) := by
  refine ⟨not_fair hsized hfew hfits hhandled, fun schedule cfg hrun hstuck => ?_⟩
  have hunderway := underway_run hsized hfew hrun
  obtain ⟨hclosed, hpushed, hstopped⟩ := hunderway.stuck hhandled hstuck
  refine ⟨hclosed, hpushed, hstopped, fun hsettled c => ?_⟩
  obtain ⟨h', hpending⟩ := hstopped c
  exact hunderway.handled hsettled hpending

abbrev frameSlots : Capacity := ⟨5, by decide⟩

/-- The replay of one frame. -/
def deleteStart : ReplayConfig frameSlots (fun _ : Fin 1 => countingEffects) .little :=
  makeSpmc (fun _ => 0) (replayStart (fun _ => countingEffects) .little (wire [deleteFrame])
    fun _ => 0)

theorem deleteStart_ends :
    ¬ ∃ r : (queue UInt8 frameSlots 0).Unending deleteStart, r.Fair := by
  rintro ⟨r, hfair⟩
  have hsized : ∀ f ∈ [deleteFrame], RightSize f := by
    intro f hf
    rw [List.mem_singleton.mp hf]
    exact deleteFrame_rightSize
  have hfits : ∀ f ∈ [deleteFrame], f.bytes.length ≤ frameSlots.size := by
    intro f hf
    rw [List.mem_singleton.mp hf]
    decide
  exact (replay_ends (fun _ : Fin 1 => countingEffects) .little (fun _ => 0) (fun _ => 0)
    [deleteFrame] hsized (.inl rfl) hfits fun _ => ⟨1, rfl⟩).1 r hfair

end End

end ItchOrderBook.MarketData

import ItchOrderBook.MarketData.Session
import ItchOrderBook.Spmc.QueueSafety

/-! # Every interleaving of a replay

The feed publishes whole frames, so a handler that has read a length prefix finds the
rest of the frame published, and each poll consumes one frame or nothing.
-/
namespace ItchOrderBook.MarketData
open AtomicProgram ByteOrder Feed Spmc Stse

variable {C : Capacity} {n : ℕ} {H : Type} {E : Fin (n + 1) → Effects H} {native : Endian}

abbrev ReplayConfig (C : Capacity) {n : ℕ} {H : Type} (E : Fin (n + 1) → Effects H)
    (native : Endian) := QueueConfig UInt8 C n (replay E native)

def feedOf (cfg : ReplayConfig C E native) : FeedHandler := cfg.driver .producer

def sessionOf (cfg : ReplayConfig C E native) (c : Fin (n + 1)) : Session H :=
  cfg.driver (.consumer c)

/-- The invariants of the queue in a configuration. -/
abbrev QueueHolds (cfg : ReplayConfig C E native) : Prop :=
  Discipline.Holds (queue UInt8 C n) (discipline UInt8 C n) cfg

/-! ## The feed -/

/-- The first `j` frames are published; within a push the next one may be. -/
structure FeedAt (frames : List Frame) (cfg : ReplayConfig C E native) (j : ℕ) : Prop where
  feeds : (feedOf cfg).Feeds (frames.drop j)
  idle : ∀ data, cfg.status .producer = .idle data →
    pushed cfg.world.history = wire (frames.take j)
  running : ∀ call rest, cfg.status .producer = .running call rest →
    (feedOf cfg).offers call = true ∧
    pushed (callStart .producer cfg.world.history) = wire (frames.take j) ∧
    ∃ k, j ≤ k ∧ pushed cfg.world.history = wire (frames.take k)

/-- Whole frames are published. -/
theorem FeedAt.whole {frames : List Frame} {cfg : ReplayConfig C E native} {j : ℕ}
    (h : FeedAt frames cfg j) : ∃ k, j ≤ k ∧ pushed cfg.world.history = wire (frames.take k) := by
  cases hs : cfg.status .producer with
  | idle data => exact ⟨j, le_rfl, h.idle data hs⟩
  | running call rest => exact (h.running call rest hs).2.2

section Feed
variable {frames : List Frame} {cfg cfg' : ReplayConfig C E native} {j : ℕ}

theorem FeedAt.of_eq (h : FeedAt frames cfg j) (hfeed : feedOf cfg' = feedOf cfg)
    (hstatus : cfg'.status .producer = cfg.status .producer)
    (hpushed : pushed cfg'.world.history = pushed cfg.world.history)
    (hstart : callStart .producer cfg'.world.history = callStart .producer cfg.world.history) :
    FeedAt frames cfg' j where
  feeds := hfeed ▸ h.feeds
  idle data hdata := by
    rw [hpushed]
    exact h.idle data (hstatus ▸ hdata)
  running call rest hrest := by
    rw [hfeed, hpushed, hstart]
    exact h.running call rest (hstatus ▸ hrest)

theorem items_of_offers {feed : FeedHandler} (h : feed.Feeds (frames.drop j))
    {call : ProducerCall UInt8} (hoffers : feed.offers call = true) :
    ∃ k, j ≤ k ∧ wire (frames.take j) ++ call.items = wire (frames.take k) := by
  cases feed with
  | publishing frame ptr =>
    obtain ⟨f, rest, hdrop, rfl, -⟩ := h
    obtain rfl : call = .tryPushMany f.bytes := by simpa [FeedHandler.offers] using hoffers
    have hf : frames[j]? = some f := by
      have hhead := congrArg List.head? hdrop
      rwa [List.head?_drop] at hhead
    refine ⟨j + 1, Nat.le_succ j, ?_⟩
    rw [take_succ_of_getElem? hf, wire_append]
    simp [ProducerCall.items]
  | closing =>
    obtain rfl : call = .close := by simpa [FeedHandler.offers] using hoffers
    exact ⟨j, le_rfl, List.append_nil _⟩
  | spinning => exact h.elim
  | closed => simp [FeedHandler.offers] at hoffers

theorem after_of_offers (native : Endian) {feed : FeedHandler} (h : feed.Feeds (frames.drop j))
    {call : ProducerCall UInt8} (hoffers : feed.offers call = true) (r : ProducerResult) :
    ∃ k, (feed.after native r).Feeds (frames.drop k) ∧
      wire (frames.take j) ++ (match r with | .response .success => call.items | _ => []) =
        wire (frames.take k) := by
  cases feed with
  | publishing frame ptr =>
    obtain ⟨f, rest, hdrop, rfl, rfl⟩ := h
    obtain rfl : call = .tryPushMany f.bytes := by simpa [FeedHandler.offers] using hoffers
    have hf : frames[j]? = some f := by
      have hhead := congrArg List.head? hdrop
      rwa [List.head?_drop] at hhead
    have hstay : (FeedHandler.publishing f.bytes (wire rest)).Feeds (frames.drop j) :=
      ⟨f, rest, hdrop, rfl, rfl⟩
    have hrest : frames.drop (j + 1) = rest := by
      rw [← List.drop_drop, hdrop]
      rfl
    cases r with
    | closed => exact ⟨j, hstay, List.append_nil _⟩
    | response r =>
      cases r with
      | failedBufferFull => exact ⟨j, hstay, List.append_nil _⟩
      | failedPayloadTooLarge => exact ⟨j, hstay, List.append_nil _⟩
      | success =>
        refine ⟨j + 1, ?_, ?_⟩
        · rw [hrest]
          exact poll_feeds native rest
        · rw [take_succ_of_getElem? hf, wire_append]
          simp [ProducerCall.items]
  | closing =>
    obtain rfl : call = .close := by simpa [FeedHandler.offers] using hoffers
    refine ⟨j, ?_, ?_⟩
    · cases r with
      | closed => exact h
      | response r => exact h
    · cases r with
      | closed => exact List.append_nil _
      | response r => cases r <;> exact List.append_nil _
  | spinning => exact h.elim
  | closed => simp [FeedHandler.offers] at hoffers

theorem FeedAt.step (h : FeedAt frames cfg j) (hholds : QueueHolds cfg)
    (hadm : Admissible cfg.world.history) (hstep : (queue UInt8 C n).Stepped cfg cfg') :
    ∃ j', FeedAt frames cfg' j' := by
  have hne : ∀ c : Fin (n + 1), Thread.producer ≠ .consumer c := by simp
  cases hstep with
  | start i call data hstatus hoffers =>
    cases i with
    | consumer c =>
      exact ⟨j, h.of_eq rfl (Machine.started_status_ne _ cfg (hne c) call data) rfl rfl⟩
    | producer =>
      refine ⟨j, h.feeds, fun data' h' => ?_, fun call' rest h' => ?_⟩
      · rw [Machine.started_status] at h'
        cases h'
      · rw [Machine.started_status] at h'
        obtain ⟨rfl, -⟩ := Status.running.inj h'
        exact ⟨hoffers, h.idle data hstatus, j, le_rfl, h.idle data hstatus⟩
  | act i call action next hstatus =>
    cases i with
    | consumer c =>
      exact ⟨j, h.of_eq rfl (Machine.acted_status_ne _ cfg (hne c) call action next) rfl rfl⟩
    | producer =>
      obtain ⟨hoffers, hstart, hwhole⟩ := h.running call _ hstatus
      refine ⟨j, h.feeds, fun data' h' => ?_, fun call' rest h' => ?_⟩
      · rw [Machine.acted_status] at h'
        cases h'
      · rw [Machine.acted_status] at h'
        obtain ⟨rfl, -⟩ := Status.running.inj h'
        refine ⟨hoffers, hstart, ?_⟩
        cases action with
        | storeWriteIdx value =>
          have hbefore := hholds.before discipline_valid hadm hstatus
          change pushed cfg.world.history = _ at hbefore
          obtain ⟨k, hk, hitems⟩ := items_of_offers h.feeds hoffers
          refine ⟨k, hk, ?_⟩
          change pushed cfg.world.history ++ _ = _
          rw [hbefore, hstart, hitems]
        | _ => exact hwhole
  | finish i call result data hstatus =>
    cases i with
    | consumer c =>
      exact ⟨j, h.of_eq rfl (Machine.finished_status_ne cfg (hne c) call result data) rfl rfl⟩
    | producer =>
      obtain ⟨hoffers, hstart, -⟩ := h.running call _ hstatus
      obtain ⟨-, hpublished⟩ := hholds.post discipline_valid hadm hstatus
      obtain ⟨k, hfeeds, hitems⟩ := after_of_offers native h.feeds hoffers result
      refine ⟨k, ?_, fun data' _ => ?_, fun call' rest h' => ?_⟩
      · have hdriver : feedOf (Machine.finished cfg .producer call result data) =
            (feedOf cfg).after native result := Machine.finished_driver ..
        rw [hdriver]
        exact hfeeds
      · change pushed cfg.world.history = _
        rw [hpublished, hstart]
        exact hitems
      · rw [Machine.finished_status] at h'
        cases h'

end Feed

/-! ## A handler -/

section Bytes
variable {frames : List Frame} {m k : ℕ} {f : Frame}

theorem take_split (frames : List Frame) (h : m ≤ k) :
    frames.take k = frames.take m ++ (frames.take k).drop m := by
  have hsplit := List.take_append_drop m (frames.take k)
  rw [List.take_take, Nat.min_eq_left h] at hsplit
  exact hsplit.symm

theorem wire_take_mono (frames : List Frame) (h : m ≤ k) :
    (wire (frames.take m)).length ≤ (wire (frames.take k)).length := by
  rw [take_split frames h, wire_append, List.length_append]
  exact Nat.le_add_right _ _

theorem exists_frame (h : (wire (frames.take m)).length < (wire (frames.take k)).length) :
    m < k ∧ ∃ f, frames[m]? = some f := by
  have hlt : m < k := by
    by_contra hle
    exact absurd (wire_take_mono frames (Nat.le_of_not_lt hle)) (Nat.not_le.mpr h)
  refine ⟨hlt, ?_⟩
  cases hm : frames[m]? with
  | some f => exact ⟨f, rfl⟩
  | none =>
    have hall : frames.length ≤ m := List.getElem?_eq_none_iff.mp hm
    rw [List.take_of_length_le hall, List.take_of_length_le (hall.trans hlt.le)] at h
    exact absurd h (Nat.lt_irrefl _)

theorem wire_take_succ (hf : frames[m]? = some f) :
    wire (frames.take (m + 1)) = wire (frames.take m) ++ f.bytes := by
  rw [take_succ_of_getElem? hf, wire_append]
  simp

theorem wire_take_split (hlt : m < k) (hf : frames[m]? = some f) :
    ∃ tail, wire (frames.take k) = wire (frames.take m) ++ (f.bytes ++ tail) := by
  refine ⟨wire ((frames.take k).drop (m + 1)), ?_⟩
  conv_lhs => rw [take_split frames hlt]
  rw [wire_append, wire_take_succ hf, List.append_assoc]

/-- The bytes behind a position within a frame are the rest of the frame. -/
theorem items_within (hlt : m < k) (hf : frames[m]? = some f) {front rest items : List UInt8}
    (hbytes : f.bytes = front ++ rest) {L : ℕ}
    (hL : L = (wire (frames.take m)).length + front.length)
    (hslice : (wire (frames.take k)).take L ++ items <+: wire (frames.take k))
    (hlen : items.length ≤ rest.length) : items = rest.take items.length := by
  obtain ⟨tail, hsplit⟩ := wire_take_split hlt hf
  have hparts : wire (frames.take k) = (wire (frames.take m) ++ front) ++ (rest ++ tail) := by
    rw [hsplit, hbytes]
    simp only [List.append_assoc]
  have hfront : (wire (frames.take m) ++ front).length = L := by rw [hL, List.length_append]
  rw [hparts, List.take_left' hfront, List.prefix_append_right_inj] at hslice
  rw [List.prefix_iff_eq_take.mp hslice, List.take_append_of_le_length hlen]
  simp

end Bytes

/-- Where the session of consumer `c` stands. A call within a frame has found the whole
frame published when it started. -/
structure SessionAt (frames : List Frame) (h₀ : H) (c : Fin (n + 1))
    (cfg : ReplayConfig C E native) : Prop where
  progress : Progress (E c) native frames h₀ (sessionOf cfg c) (consumed c cfg.world.history).length
  poised : ∀ call rest, cfg.status (.consumer c) = .running call rest →
    ∃ next, (sessionOf cfg c).pending = .act call next
  ahead : ∀ call rest, cfg.status (.consumer c) = .running call rest →
    (sessionOf cfg c).calls ≠ [] →
    (wire (frames.take ((sessionOf cfg c).framesRead.length + 1))).length ≤
      (pushed (callStart (.consumer c) cfg.world.history)).length

section Handler
variable {frames : List Frame} {h₀ : H} {c : Fin (n + 1)} {cfg cfg' : ReplayConfig C E native}

theorem SessionAt.of_eq (h : SessionAt frames h₀ c cfg) (hsession : sessionOf cfg' c = sessionOf cfg c)
    (hstatus : cfg'.status (.consumer c) = cfg.status (.consumer c))
    (hconsumed : consumed c cfg'.world.history = consumed c cfg.world.history)
    (hstart : callStart (.consumer c) cfg'.world.history =
      callStart (.consumer c) cfg.world.history) : SessionAt frames h₀ c cfg' where
  progress := by
    rw [hsession, hconsumed]
    exact h.progress
  poised call rest hrest := by
    rw [hsession]
    exact h.poised call rest (hstatus ▸ hrest)
  ahead call rest hrest := by
    rw [hsession, hstart]
    exact h.ahead call rest (hstatus ▸ hrest)

/-- Within a frame the session has the rest of the frame ahead. -/
theorem SessionAt.frame_ahead (h : SessionAt frames h₀ c cfg) {k : ℕ}
    (hwhole : pushed cfg.world.history = wire (frames.take k))
    (hle : (consumed c cfg.world.history).length ≤ (pushed cfg.world.history).length)
    (hcalls : (sessionOf cfg c).calls ≠ []) :
    (wire (frames.take ((sessionOf cfg c).framesRead.length + 1))).length ≤
      (pushed cfg.world.history).length := by
  cases h.progress.place with
  | boundary _ hnil _ => exact absurd hnil hcalls
  | ended _ hnil _ => exact absurd hnil hcalls
  | within f front rest hf hbytes hbegun _ _ _ _ hlogged =>
    rw [hwhole] at hle ⊢
    have hbehind : (wire (frames.take (sessionOf cfg c).framesRead.length)).length <
        (wire (frames.take k)).length := by omega
    exact wire_take_mono frames (exists_frame hbehind).1

theorem SessionAt.returned (h : SessionAt frames h₀ c cfg) (hsized : ∀ f ∈ frames, RightSize f)
    {k : ℕ} (hwhole : pushed cfg.world.history = wire (frames.take k)) {call : ConsumerCall}
    {rest : Code UInt8 C n (ConsumerResult UInt8 × UInt64)}
    (hstatus : cfg.status (.consumer c) = .running call rest) {r : ConsumerResult UInt8}
    (hdelivered : Delivered c call r cfg.world)
    (hlog : IsPrefix (consumed c cfg.world.history) (pushed cfg.world.history)) :
    Progress (E c) native frames h₀ ((sessionOf cfg c).after (E c) native r)
      (consumed c cfg.world.history ++ call.consumed r).length := by
  obtain ⟨next, hpending⟩ := h.poised call rest hstatus
  have hprogress := h.progress
  have hpassed := (hdelivered.log hlog).1
  rw [← hpassed]
  by_cases hok : r.failure = .none
  · -- the call has moved over the bytes it delivers
    simp only [Delivered, if_pos hok] at hdelivered
    obtain ⟨hmoved, hwithin, hitems⟩ := hdelivered
    rw [hmoved] at hwithin ⊢
    rw [hwhole] at hwithin hitems
    have hdelivers : ∀ {f : Frame} {front behind : List UInt8},
        frames[(sessionOf cfg c).framesRead.length]? = some f →
        (sessionOf cfg c).framesRead.length < k → f.bytes = front ++ behind →
        (consumed c cfg.world.history).length =
          (wire (frames.take (sessionOf cfg c).framesRead.length)).length + front.length →
        call.count.toNat ≤ behind.length → Delivers call behind r := by
      intro f front behind hf hlt hbytes hlogged hle
      refine ⟨hok, hle, fun hcall => ?_⟩
      obtain ⟨hlength, hslice⟩ := hitems hcall
      have heq := items_within hlt hf hbytes hlogged hslice (hlength ▸ hle)
      rwa [hlength] at heq
    cases hprogress.place with
    | boundary hpoll hnil hlogged =>
      obtain ⟨next', hpoll', -⟩ := poll_eq (E c) native (sessionOf cfg c).handler
      have hcall : call = .tryPopMany 2 := by
        rw [hpoll, hpoll'] at hpending
        exact (Prog.act.inj hpending).1.symm
      have hcount : call.count.toNat = 2 := by rw [hcall]; rfl
      have hbehind : (wire (frames.take (sessionOf cfg c).framesRead.length)).length <
          (wire (frames.take k)).length := by omega
      obtain ⟨hlt, f, hf⟩ := exists_frame hbehind
      have hreads := poll_reads (E c) native (sessionOf cfg c).handler
        (hsized f (List.mem_of_getElem? hf))
      rw [← hpoll, hpending] at hreads
      refine hprogress.deliver hf (List.nil_append _).symm ?_ ?_ hpending hreads
        (hdelivers hf hlt (List.nil_append _).symm hlogged ?_) ?_ hlogged
      · rw [hnil]
        exact fun x hx => by cases hx
      · rw [hnil]
        exact List.Forall₂.nil
      · rw [hcount, Frame.bytes_length]
        exact Nat.le_add_right 2 _
      · rw [hcount]
        exact Nat.le_add_left 2 _
    | within f front behind hf hbytes hbegun hcalls hcovers hreads _ hlogged =>
      have hbehind : (wire (frames.take (sessionOf cfg c).framesRead.length)).length <
          (wire (frames.take k)).length := by omega
      have hlt := (exists_frame hbehind).1
      rw [hpending] at hreads
      exact hprogress.deliver hf hbytes hcalls.2 hcovers hpending hreads
        (hdelivers hf hlt hbytes hlogged hreads.1) (by omega) hlogged
    | ended hret _ _ =>
      obtain ⟨result, hret⟩ := hret
      rw [hret] at hpending
      cases hpending
  · -- only the call for a length prefix can have failed
    simp only [Delivered, if_neg hok] at hdelivered
    obtain ⟨hstay, hshort⟩ := hdelivered
    rw [hstay] at hshort ⊢
    cases hprogress.place with
    | boundary hpoll hnil hlogged => exact hprogress.retry hpoll hnil hok hlogged
    | within f front behind hf hbytes hbegun hcalls hcovers hreads _ hlogged =>
      have hahead := h.ahead call rest hstatus hcalls.1
      rw [hpending] at hreads
      have henough := hreads.1
      rw [wire_take_succ hf, List.length_append, hbytes, List.length_append] at hahead
      omega
    | ended hret _ _ =>
      obtain ⟨result, hret⟩ := hret
      rw [hret] at hpending
      cases hpending

theorem SessionAt.step (h : SessionAt frames h₀ c cfg) (hsized : ∀ f ∈ frames, RightSize f)
    {j : ℕ} (hfeed : FeedAt frames cfg j) (hholds : QueueHolds cfg)
    (hadm : Admissible cfg.world.history) (hstep : (queue UInt8 C n).Stepped cfg cfg') :
    SessionAt frames h₀ c cfg' := by
  obtain ⟨k, -, hwhole⟩ := hfeed.whole
  cases hstep with
  | start i call data hstatus hoffers =>
    by_cases hi : i = .consumer c
    · subst hi
      have hpoised : ∃ next, (sessionOf cfg c).pending = .act call next := by
        cases hp : (sessionOf cfg c).pending with
        | ret result =>
          have hoffers : (sessionOf cfg c).offers call = true := hoffers
          simp [Session.offers, hp] at hoffers
        | act call' next =>
          have hoffers : (sessionOf cfg c).offers call = true := hoffers
          obtain rfl : call = call' := by simpa [Session.offers, hp] using hoffers
          exact ⟨next, rfl⟩
      have hpassed : passed c cfg.world.history = (consumed c cfg.world.history).length :=
        (hholds.idle (.consumer c) data hstatus).2
      have hself : callStart (.consumer c) ((queue UInt8 C n).started cfg (.consumer c) call
          data).world.history = cfg.world.history := if_pos rfl
      refine ⟨h.progress, fun call' rest h' => ?_, fun call' rest _ hcalls => ?_⟩
      · rw [Machine.started_status] at h'
        obtain ⟨rfl, -⟩ := Status.running.inj h'
        exact hpoised
      · rw [hself]
        exact h.frame_ahead hwhole (hpassed ▸ hholds.inv.order c) hcalls
    · have hne : Thread.consumer c ≠ i := fun heq => hi heq.symm
      exact h.of_eq rfl (Machine.started_status_ne _ cfg hne call data) rfl (if_neg hi)
  | act i call action next hstatus =>
    by_cases hi : i = .consumer c
    · subst hi
      refine ⟨h.progress, fun call' rest h' => ?_, fun call' rest h' => ?_⟩
      · rw [Machine.acted_status] at h'
        obtain ⟨rfl, -⟩ := Status.running.inj h'
        exact h.poised call _ hstatus
      · exact h.ahead call _ hstatus
    · have hne : Thread.consumer c ≠ i := fun heq => hi heq.symm
      refine h.of_eq rfl (Machine.acted_status_ne _ cfg hne call action next) ?_ rfl
      cases i <;> rfl
  | finish i call result data hstatus =>
    by_cases hi : i = .consumer c
    · subst hi
      obtain ⟨-, hdelivered⟩ := hholds.post discipline_valid hadm hstatus
      have hsession : sessionOf (Machine.finished cfg (.consumer c) call result data) c =
          (sessionOf cfg c).after (E c) native result := Machine.finished_driver ..
      have hself : consumed c (Machine.finished cfg (.consumer c) call result data).world.history =
          consumed c cfg.world.history ++ ConsumerCall.consumed call result := if_pos rfl
      refine ⟨?_, fun call' rest h' => ?_, fun call' rest h' => ?_⟩
      · rw [hsession, hself]
        exact h.returned hsized hwhole hstatus hdelivered (hholds.inv.logged c).2
      · rw [Machine.finished_status] at h'
        cases h'
      · rw [Machine.finished_status] at h'
        cases h'
    · have hne : Thread.consumer c ≠ i := fun heq => hi heq.symm
      refine h.of_eq (Machine.finished_driver_ne cfg hne call result data)
        (Machine.finished_status_ne cfg hne call result data) ?_ rfl
      cases i with
      | producer => rfl
      | consumer d => exact if_neg fun heq => hi (congrArg Thread.consumer heq)

end Handler

/-! ## Runs -/

/-- All of a replay's invariants. -/
structure Replaying (frames : List Frame) (handler : Fin (n + 1) → H)
    (cfg : ReplayConfig C E native) : Prop where
  queue : QueueHolds cfg
  feed : ∃ j, FeedAt frames cfg j
  session : ∀ c, SessionAt frames (handler c) c cfg

section Runs
variable {frames : List Frame} {handler : Fin (n + 1) → H} {cfg cfg' : ReplayConfig C E native}

theorem FeedAt.admissible {j : ℕ} (h : FeedAt frames cfg j)
    (hfew : n = 0 ∨ (wire frames).length < 2 ^ 64) : Admissible cfg.world.history := by
  obtain ⟨k, -, hwhole⟩ := h.whole
  refine hfew.imp_right fun hlt => ?_
  have hle := wire_take_mono frames (Nat.le_max_left k frames.length)
  rw [List.take_of_length_le (Nat.le_max_right k frames.length)] at hle
  rw [hwhole]
  exact hle.trans_lt hlt

theorem Replaying.step (h : Replaying frames handler cfg) (hsized : ∀ f ∈ frames, RightSize f)
    (hfew : n = 0 ∨ (wire frames).length < 2 ^ 64)
    (hstep : (Spmc.queue UInt8 C n).Stepped cfg cfg') : Replaying frames handler cfg' := by
  obtain ⟨j, hj⟩ := h.feed
  have hadm := hj.admissible hfew
  obtain ⟨j', hj'⟩ := hj.step h.queue hadm hstep
  exact ⟨h.queue.step discipline_valid hstep (hj'.admissible hfew), ⟨j', hj'⟩,
    fun c => (h.session c).step hsized hj h.queue hadm hstep⟩

theorem Replaying.start (buffer : Fin C.size → UInt8) (frames : List Frame)
    (handler : Fin (n + 1) → H) :
    Replaying frames handler (makeSpmc buffer (replayStart E native (wire frames) handler) :
      ReplayConfig C E native) where
  queue := makeSpmc_holds buffer _
  feed := by
    refine ⟨0, poll_feeds native frames, fun _ _ => rfl, fun call rest h => ?_⟩
    cases h
  session c := by
    refine ⟨Progress.start (handler c), fun call rest h => ?_, fun call rest h => ?_⟩
    · cases h
    · cases h

theorem replaying_run (hsized : ∀ f ∈ frames, RightSize f)
    (hfew : n = 0 ∨ (wire frames).length < 2 ^ 64) {buffer : Fin C.size → UInt8}
    {schedule : List (Choice (Thread n) (Thread.Call UInt8))}
    (hrun : (Spmc.queue UInt8 C n).run
      (makeSpmc buffer (replayStart E native (wire frames) handler)) schedule = some cfg) :
    Replaying frames handler cfg :=
  Machine.run_invariant (fun _ _ h hstep => h.step hsized hfew hstep)
    (Replaying.start buffer frames handler) hrun

theorem framesRead_le {m k : ℕ} (hm : m ≤ frames.length)
    (hle : (wire (frames.take m)).length ≤ (wire (frames.take k)).length) : m ≤ k := by
  by_contra hlt
  have hk : k < frames.length := by omega
  have hmore := wire_take_mono frames (show k + 1 ≤ m by omega)
  rw [wire_take_succ (List.getElem?_eq_getElem hk), List.length_append, Frame.bytes_length] at hmore
  omega

theorem Replaying.logged_le (h : Replaying frames handler cfg) (c : Fin (n + 1)) :
    (wire (frames.take (sessionOf cfg c).framesRead.length)).length ≤
      (pushed cfg.world.history).length := by
  have hlog := (h.queue.inv.logged c).2.1
  cases (h.session c).progress.place with
  | boundary _ _ hlogged => omega
  | within _ _ _ _ _ _ _ _ _ _ hlogged => omega
  | ended _ _ hlogged => omega

theorem Progress.readsHold {h₀ : H} {s : Session H} {logged : ℕ} {E : Effects H}
    (h : Progress E native frames h₀ s logged) :
    ∀ calls ∈ s.polls ++ [s.calls], ReadsHold calls := by
  intro calls hmem
  rcases List.mem_append.mp hmem with hmem | hmem
  · exact h.reads calls hmem
  · rw [List.mem_singleton.mp hmem]
    cases h.place with
    | boundary _ hnil _ =>
      rw [hnil]
      trivial
    | within _ _ _ _ _ _ hcalls _ _ _ _ => exact readsHold_of_all hcalls.2
    | ended _ hnil _ =>
      rw [hnil]
      trivial

/-- In every interleaving of the feed's thread with the handlers', once a poll has read
a length prefix all its reads and skips succeed, and the frames a handler has read, each
in full and in order, are the first of those published, and its state is what their
messages make of it. -/
theorem reads_within_frame_succeed (E : Fin (n + 1) → Effects H) (native : Endian)
    (buffer : Fin C.size → UInt8) (handler : Fin (n + 1) → H) (frames : List Frame)
    (hsized : ∀ f ∈ frames, RightSize f) (hfew : n = 0 ∨ (wire frames).length < 2 ^ 64)
    (schedule : List (Choice (Thread n) (Thread.Call UInt8))) (cfg : ReplayConfig C E native)
    (hrun : (Spmc.queue UInt8 C n).run
      (makeSpmc buffer (replayStart E native (wire frames) handler)) schedule = some cfg)
    (c : Fin (n + 1)) :
    (∀ calls ∈ (sessionOf cfg c).polls ++ [(sessionOf cfg c).calls], ReadsHold calls) ∧
    ∃ k, (sessionOf cfg c).framesRead.length ≤ k ∧ k ≤ frames.length ∧
      pushed cfg.world.history = wire (frames.take k) ∧
      List.Forall₂ (fun calls f => Covers (exchanged calls) f.bytes) (sessionOf cfg c).framesRead
        (frames.take (sessionOf cfg c).framesRead.length) ∧
      (frames.take (sessionOf cfg c).framesRead.length).foldlM (E c).onFrame (handler c) =
        (sessionOf cfg c).result := by
  have h := replaying_run hsized hfew hrun
  have hprogress := (h.session c).progress
  obtain ⟨j, hj⟩ := h.feed
  obtain ⟨k, -, hwhole⟩ := hj.whole
  have hpushed : pushed cfg.world.history = wire (frames.take (min k frames.length)) := by
    rw [hwhole, ← List.take_take, List.take_length]
  have hlogged := h.logged_le c
  rw [hpushed] at hlogged
  exact ⟨hprogress.readsHold, min k frames.length, framesRead_le hprogress.framesRead_le hlogged,
    Nat.min_le_right _ _, hpushed, hprogress.covers, hprogress.result⟩

/-- A header with locate code 7 and the delete of order 1. -/
def deleteFrame : Frame :=
  ⟨['D'.toUInt8, 0, 7, 0, 0, 0, 0, 0, 0, 0, 0, 0, 0, 0, 0, 0, 0, 0, 1], by decide⟩

/-- A handler that counts the messages it is given. -/
def countingEffects : Effects ℕ := ⟨fun _ => 7, fun h _ _ => .ok (h + 1)⟩

/-- The thread of the only handler. -/
def soleHandler : Thread 0 := .consumer 0

/-- A poll that finds the queue empty, the push of one frame, and the poll that reads it. -/
def deleteSchedule : List (Choice (Thread 0) (Thread.Call UInt8)) :=
  [.start (.consumer 0) (ConsumerCall.tryPopMany 2)] ++ List.replicate 4 (.go (.consumer 0)) ++
  [.start .producer (ProducerCall.tryPushMany deleteFrame.bytes)] ++
    List.replicate 24 (.go .producer) ++
  [.start (.consumer 0) (ConsumerCall.tryPopMany 2)] ++ List.replicate 6 (.go (.consumer 0)) ++
  [.start (.consumer 0) (ConsumerCall.tryPopMany 11)] ++ List.replicate 14 (.go (.consumer 0)) ++
  [.start (.consumer 0) (ConsumerCall.tryPopMany 8)] ++ List.replicate 11 (.go (.consumer 0))

theorem deleteFrame_rightSize : RightSize deleteFrame := by
  refine ⟨by decide, fun kind hkind => ?_⟩
  obtain rfl : MessageKind.orderDelete = kind := Option.some.inj hkind
  rfl

theorem deleteSchedule_reads :
    let start : ReplayConfig ⟨5, by decide⟩ (fun _ : Fin 1 => countingEffects) .little :=
      makeSpmc (fun _ => 0) (replayStart (fun _ => countingEffects) .little (wire [deleteFrame])
        fun _ => 0)
    ∃ cfg : ReplayConfig ⟨5, by decide⟩ (fun _ : Fin 1 => countingEffects) .little,
      (Spmc.queue UInt8 ⟨5, by decide⟩ 0).run start deleteSchedule = some cfg ∧
      (sessionOf cfg 0).framesRead.length = 1 ∧ (sessionOf cfg 0).handler = 1 ∧
      ∀ calls ∈ (sessionOf cfg 0).polls ++ [(sessionOf cfg 0).calls], ReadsHold calls := by
  intro start
  have hran : ((Spmc.queue UInt8 ⟨5, by decide⟩ 0).run start deleteSchedule).map (fun cfg =>
      ((sessionOf cfg 0).framesRead.length, (sessionOf cfg 0).handler)) = some (1, 1) := by
    decide +kernel
  obtain ⟨cfg, hrun, hcfg⟩ := Option.map_eq_some_iff.mp hran
  obtain ⟨hread, hhandler⟩ := Prod.mk.inj hcfg
  have hsized : ∀ f ∈ [deleteFrame], RightSize f := by
    intro f hf
    rw [List.mem_singleton.mp hf]
    exact deleteFrame_rightSize
  exact ⟨cfg, hrun, hread, hhandler, (reads_within_frame_succeed _ .little _ _ [deleteFrame] hsized
    (Or.inl rfl) deleteSchedule cfg hrun 0).1⟩

end Runs

end ItchOrderBook.MarketData

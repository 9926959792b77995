import ItchOrderBook.Foundation.Linearization
import ItchOrderBook.Spmc.CallViews

/-! # The queue as an atomic object

What the queue is for: a sequence of items with a place in it for each consumer. Each
call takes effect at one instant between its start and its return: a push or pop that
succeeds when it publishes its index, a refusal when the queue was as the refusal says.
Only a report that the queue is closed says nothing about the items: it comes from two
loads, and items may have been pushed between them.
-/
namespace ItchOrderBook.Spmc
open AtomicProgram

variable {T : Type} {C : Capacity} {n : ℕ}

/-! ## The object -/

/-- All items pushed, how many of them each consumer has moved past, and the flag. -/
structure Contents (T : Type) (n : ℕ) where
  items : List T
  read : Fin (n + 1) → ℕ
  closed : Bool

namespace Contents

def empty : Contents T n := ⟨[], fun _ => 0, false⟩

/-- Every consumer leaves room for `k` more items. -/
def Fits (s : Contents T n) (C : Capacity) (k : ℕ) : Prop := ∀ c, s.items.length + k ≤ s.read c + C.size

end Contents

/-- What a call may return and do when it takes effect. -/
inductive Does (C : Capacity) :
    (i : Thread n) → i.Call T → i.Ret T → Contents T n → Contents T n → Prop
  | push {s : Contents T n} (call : ProducerCall T) (isPush : call ≠ .close)
      (fits : s.Fits C call.items.length) :
      Does C .producer call (.response .success) s { s with items := s.items ++ call.items }
  | full {s : Contents T n} (call : ProducerCall T) (isPush : call ≠ .close)
      (size : call.items.length ≤ C.size) (full : ¬ s.Fits C call.items.length) :
      Does C .producer call (.response .failedBufferFull) s s
  /-- The empty batch is refused when every item has been read. -/
  | fullEmpty {s : Contents T n} (call : ProducerCall T) (isPush : call ≠ .close)
      (empty : call.items = []) (drained : ∀ c, s.read c = s.items.length) :
      Does C .producer call (.response .failedBufferFull) s s
  | tooLarge {s : Contents T n} (call : ProducerCall T) (large : C.size < call.items.length) :
      Does C .producer call (.response .failedPayloadTooLarge) s s
  | close {s : Contents T n} : Does C .producer .close .closed s { s with closed := true }
  | take {s : Contents T n} {c : Fin (n + 1)} (call : ConsumerCall) (r : ConsumerResult T)
      (succeeded : r.failure = .none) (enough : s.read c + call.count.toNat ≤ s.items.length)
      (items : call ≠ .trySkipMany call.count →
        r.items = (s.items.drop (s.read c)).take call.count.toNat) :
      Does C (.consumer c) call r s
        { s with read := Function.update s.read c (s.read c + call.count.toNat) }
  | short {s : Contents T n} {c : Fin (n + 1)} (call : ConsumerCall)
      (short : s.items.length < s.read c + call.count.toNat) (opened : s.closed = false) :
      Does C (.consumer c) call ⟨.bufferInsufficient, []⟩ s s
  | closed {s : Contents T n} {c : Fin (n + 1)} (call : ConsumerCall) (closed : s.closed = true) :
      Does C (.consumer c) call ⟨.bufferClosed, []⟩ s s

/-! ## What a history leaves -/

/-- The closed flag has been set. -/
def closedIn : List (QueueEvent T C n) → Bool
  | [] => false
  | .act _ _ (.storeIsClosed true) _ :: _ => true
  | _ :: history => closedIn history

def contents (history : List (QueueEvent T C n)) : Contents T n :=
  ⟨pushed history, fun c => passed c history, closedIn history⟩

section History
variable {since past : List (QueueEvent T C n)}

/-- Thread `i` makes no store in these events that changes what the queue holds. -/
def Idles (i : Thread n) (events : List (QueueEvent T C n)) : Prop :=
  ∀ call a r, Event.act i call a r ∈ events → a.commits = false

theorem Idles.tail {i : Thread n} {e : QueueEvent T C n} {events : List (QueueEvent T C n)}
    (h : Idles i (e :: events)) : Idles i events :=
  fun call a r hmem => h call a r (List.mem_cons_of_mem e hmem)

theorem Idles.append {i : Thread n} {events events' : List (QueueEvent T C n)}
    (h : Idles i events) (h' : Idles i events') : Idles i (events ++ events') :=
  fun call a r hmem => (List.mem_append.mp hmem).elim (h call a r) (h' call a r)

theorem contents_act {i : Thread n} (call : i.Call T) {a : Access T C n} (ha : a.commits = false)
    (r : a.Result) (history : List (QueueEvent T C n)) :
    contents (.act i call a r :: history) = contents history := by
  cases i <;> cases a <;> first | rfl | cases ha

theorem pushed_of_idles (h : Idles .producer since) : pushed (since ++ past) = pushed past := by
  induction since with
  | nil => rfl
  | cons e since ih =>
    rw [← ih h.tail, List.cons_append]
    cases e with
    | start i call => rfl
    | finish i call r => rfl
    | act i call a r =>
      cases i with
      | consumer c => rfl
      | producer =>
        exact congrArg Contents.items (contents_act call (h call a r List.mem_cons_self) r _)

theorem passed_of_idles {c : Fin (n + 1)} (h : Idles (.consumer c) since) :
    passed c (since ++ past) = passed c past := by
  induction since with
  | nil => rfl
  | cons e since ih =>
    rw [← ih h.tail, List.cons_append]
    cases e with
    | start i call => rfl
    | finish i call r => rfl
    | act i call a r =>
      cases i with
      | producer => rfl
      | consumer d =>
        by_cases hd : d = c
        · subst hd
          exact congrArg (fun s => s.read d) (contents_act call (h call a r List.mem_cons_self) r _)
        · cases a <;> first | rfl | exact if_neg hd

theorem passed_mono (c : Fin (n + 1)) (since past : List (QueueEvent T C n)) :
    passed c past ≤ passed c (since ++ past) := by
  induction since with
  | nil => exact le_rfl
  | cons e since ih =>
    refine ih.trans ?_
    cases e with
    | start i call => exact le_rfl
    | finish i call r => exact le_rfl
    | act i call a r =>
      cases i with
      | producer => exact le_rfl
      | consumer d =>
        cases a with
        | storeReadIdx e value =>
          by_cases hd : d = c
          · exact (Nat.le_add_right _ _).trans (if_pos hd).ge
          · exact (if_neg hd).ge
        | _ => exact le_rfl

theorem closedIn_mono (since : List (QueueEvent T C n)) (h : closedIn past = true) :
    closedIn (since ++ past) = true := by
  induction since with
  | nil => exact h
  | cons e since ih =>
    unfold closedIn
    split
    · rename_i heq
      cases heq
    · rfl
    · rename_i heq
      rwa [← (List.cons.inj heq).2]

end History

/-! ## What the calls have seen, and what held then -/

section Saw
variable {views before : List (View T C n)} {v : View T C n}

/-- A store that changes what the queue holds is the last access of its call. -/
theorem Saw.tail_uncommitted {i : Thread n} {call : i.Call T} {r : i.Ret T × UInt64}
    (h : Saw i call (v :: before) r) : Uncommitted before := by
  cases i with
  | producer =>
    obtain ⟨result, cached⟩ := r
    cases result with
    | closed =>
      obtain ⟨-, hviews⟩ := h
      rw [(List.cons.inj hviews).2]
      exact Uncommitted.nil
    | response r =>
      cases r with
      | success =>
        obtain ⟨-, value, before', hviews, hbefore, -⟩ := h
        rwa [(List.cons.inj hviews).2]
      | failedBufferFull =>
        obtain ⟨-, -, writeIdx, readIdx, hviews, -⟩ := h
        have hall : Uncommitted (v :: before) := by
          rw [hviews]
          exact List.forall_mem_append.mpr
            ⟨readViews_uncommitted readIdx, Uncommitted.cons rfl Uncommitted.nil⟩
        exact (List.forall_mem_cons.mp hall).2
      | failedPayloadTooLarge => cases h.2
  | consumer c =>
    obtain ⟨⟨failure, items⟩, cached⟩ := r
    cases failure with
    | none =>
      obtain ⟨value, before', hviews, hbefore, -⟩ := h
      rwa [(List.cons.inj hviews).2]
    | bufferInsufficient =>
      obtain ⟨-, readIdx, writeIdx, -, hviews⟩ := h
      rw [(List.cons.inj hviews).2]
      exact Uncommitted.cons rfl (Uncommitted.cons rfl Uncommitted.nil)
    | bufferClosed =>
      obtain ⟨-, readIdx, writeIdx, -, hviews⟩ := h
      rw [(List.cons.inj hviews).2]
      exact Uncommitted.cons rfl (Uncommitted.cons rfl Uncommitted.nil)

theorem Saw.returns {i : Thread n} {call : i.Call T} {p : Code T C n (i.Ret T × UInt64)}
    (h : p.Sees (Saw i call) (v :: before)) (hv : v.1.commits = true) (b : RingBuffer T C n) :
    ∃ value, p = .ret value ∧ Saw i call (v :: before) value := by
  cases p with
  | ret value => exact ⟨value, rfl, h⟩
  | act a next =>
    obtain ⟨more, value, hsaw⟩ := (h (a.exec b).1).exists Access.exec (a.exec b).2
    cases more with
    | nil =>
      have hcommits := hsaw.tail_uncommitted v List.mem_cons_self
      rw [hv] at hcommits
      cases hcommits
    | cons u more =>
      have hcommits := hsaw.tail_uncommitted v (by simp)
      rw [hv] at hcommits
      cases hcommits

/-- A producer that has made such a store has published its items or closed the queue. -/
theorem ProducerSaw.committed {call : ProducerCall T} {r : ProducerResult × UInt64}
    (h : ProducerSaw call (v :: before) r) (hv : v.1.commits = true) :
    (∃ value, v = View.storeWriteIdx value ∧ call ≠ .close ∧ r.1 = .response .success) ∨
    (v = View.storeIsClosed true ∧ call = .close ∧ r.1 = .closed) := by
  obtain ⟨result, cached⟩ := r
  cases result with
  | closed => exact .inr ⟨(List.cons.inj h.2).1, h.1, rfl⟩
  | response r =>
    cases r with
    | success =>
      obtain ⟨hpush, value, before', hviews, -⟩ := h
      exact .inl ⟨value, (List.cons.inj hviews).1, hpush, rfl⟩
    | failedBufferFull =>
      obtain ⟨-, -, writeIdx, readIdx, hviews, -⟩ := h
      have hall : Uncommitted (v :: before) := by
        rw [hviews]
        exact List.forall_mem_append.mpr
          ⟨readViews_uncommitted readIdx, Uncommitted.cons rfl Uncommitted.nil⟩
      rw [hall v List.mem_cons_self] at hv
      cases hv
    | failedPayloadTooLarge => cases h.2

theorem ConsumerSaw.committed {c : Fin (n + 1)} {call : ConsumerCall}
    {r : ConsumerResult T × UInt64} (h : ConsumerSaw c call (v :: before) r)
    (hv : v.1.commits = true) :
    (∃ value, v = View.storeReadIdx c value) ∧ r.1.failure = .none := by
  obtain ⟨⟨failure, items⟩, cached⟩ := r
  cases failure with
  | none =>
    obtain ⟨value, before', hviews, -⟩ := h
    exact ⟨⟨value, (List.cons.inj hviews).1⟩, rfl⟩
  | bufferInsufficient =>
    obtain ⟨-, readIdx, writeIdx, -, hviews⟩ := h
    rw [(List.cons.inj hviews).1] at hv
    cases hv
  | bufferClosed =>
    obtain ⟨-, readIdx, writeIdx, -, hviews⟩ := h
    rw [(List.cons.inj hviews).1] at hv
    cases hv

end Saw

/-! ## The instants of a run -/

section Runs
variable {D : Driver (Thread n) (Thread.Call T) (Thread.Ret T)} {cfg cfg' : QueueConfig T C n D}

/-- What a run keeps: what its calls have seen, the flag, and as long as its indices are
right, the discipline. -/
structure Upheld (cfg : QueueConfig T C n D) : Prop where
  sees : Machine.AllSee Saw cfg
  flag : cfg.world.shared.isClosed = closedIn cfg.world.history
  holds : Admissible cfg.world.history → Discipline.Holds (queue T C n) (discipline T C n) cfg

theorem Upheld.step (h : Upheld cfg) (hstep : (queue T C n).Stepped cfg cfg') :
    Upheld cfg' where
  sees := h.sees.step queue_sees hstep
  holds hadm := by
    have hearlier : Admissible cfg.world.history := by
      cases hstep <;> exact discipline_valid.earlier _ _ hadm
    exact (h.holds hearlier).step discipline_valid hstep hadm
  flag := by
    cases hstep with
    | start i call data hstatus hoffers => exact h.flag
    | finish i call result data hstatus => exact h.flag
    | act i call action next hstatus =>
      cases action with
      | storeIsClosed value =>
        have hsees := h.sees i call _ hstatus ()
        obtain ⟨r, -, hsaw⟩ := Saw.returns hsees rfl cfg.world.shared
        cases i with
        | consumer c =>
          obtain ⟨⟨value', hvalue'⟩, -⟩ := ConsumerSaw.committed hsaw rfl
          cases hvalue'
        | producer =>
          rcases ProducerSaw.committed hsaw rfl with ⟨value', hvalue', -⟩ | ⟨hvalue', -⟩
          · cases hvalue'
          · cases hvalue'
            rfl
      | _ => exact h.flag

theorem Upheld.flag_consumer (h : Upheld cfg) {c : Fin (n + 1)} {call : ConsumerCall}
    {a : Access T C n} {next : a.Result → Code T C n (ConsumerResult T × UInt64)}
    (hstatus : cfg.status (.consumer c) = .running call (.act a next)) (r : a.Result) :
    closedIn (.act (.consumer c) call a r :: cfg.world.history) = closedIn cfg.world.history := by
  cases a with
  | storeIsClosed value =>
    obtain ⟨s, -, hsaw⟩ := Saw.returns (h.sees (.consumer c) call _ hstatus r) rfl cfg.world.shared
    obtain ⟨⟨value', hview⟩, -⟩ := ConsumerSaw.committed hsaw rfl
    cases hview
  | _ => rfl

theorem Upheld.flag_producer (h : Upheld cfg) {call : ProducerCall T} {a : Access T C n}
    {next : a.Result → Code T C n (ProducerResult × UInt64)}
    (hstatus : cfg.status .producer = .running call (.act a next)) (r : a.Result) :
    closedIn (.act .producer call a r :: cfg.world.history) = closedIn cfg.world.history ∨
      call = .close := by
  cases a with
  | storeIsClosed value =>
    obtain ⟨s, -, hsaw⟩ := Saw.returns (h.sees .producer call _ hstatus r) rfl cfg.world.shared
    rcases ProducerSaw.committed hsaw rfl with ⟨value', hview, -⟩ | ⟨-, hcall, -⟩
    · cases hview
    · exact .inr hcall
  | _ => exact .inl rfl

theorem closedIn_of_seen {i : Thread n} {history : List (QueueEvent T C n)} {r : Unit}
    (h : (⟨.storeIsClosed true, r⟩ : View T C n) ∈ seen i history) : closedIn history = true := by
  obtain ⟨later, earlier, hsplit⟩ := List.append_of_mem h
  obtain ⟨since, call, past, rfl, -⟩ := seen_split hsplit
  exact closedIn_mono since rfl

theorem makeSpmc_upheld (buffer : Fin C.size → T) (driver : (i : Thread n) → D.State i) :
    Upheld (makeSpmc buffer driver) where
  sees i call rest h := by cases h
  flag := rfl
  holds _ := makeSpmc_holds buffer driver

theorem admissible_of_append {since past : List (QueueEvent T C n)}
    (h : Admissible (since ++ past)) : Admissible past := by
  induction since with
  | nil => exact h
  | cons e since ih => exact ih (discipline_valid.earlier _ _ h)

/-- When a call that has not committed saw what it has seen, and how the queue was then. -/
structure Instant (i : Thread n) (history : List (QueueEvent T C n)) (v : View T C n)
    (earlier : List (View T C n)) (since past : List (QueueEvent T C n)) : Prop where
  split : history = since ++ past
  unstarted : Unstarted i since
  idles : Idles i since
  seen_eq : seen i past = earlier
  was : ∃ w : QueueWorld T C n, w.history = past ∧ Ring w ∧ w.shared.isClosed = closedIn past ∧
    (v.1.exec w.shared).1 = v.2

section Instants
variable {buffer : Fin C.size → T} {driver : (i : Thread n) → D.State i}
  {schedule : List (Choice (Thread n) (Thread.Call T))}

theorem exists_instant
    (hrun : (queue T C n).run (makeSpmc buffer driver) schedule = some cfg)
    (hadm : Admissible cfg.world.history) {front history : List (QueueEvent T C n)}
    (hfront : cfg.world.history = front ++ history) {i : Thread n} {v : View T C n}
    {later earlier : List (View T C n)} (hseen : seen i history = later ++ v :: earlier)
    (huncommitted : Uncommitted (later ++ v :: earlier)) :
    ∃ since past, Instant i history v earlier since past := by
  obtain ⟨since, call, past, rfl, hearlier, hunstarted, hlater⟩ := seen_split hseen
  rw [← List.append_assoc] at hfront
  obtain ⟨cfg₀, hupheld, rfl, hresult⟩ := Machine.exists_past
    (fun _ _ h hstep => Upheld.step h hstep) (makeSpmc_upheld buffer driver) rfl hrun hfront
  have hadm₀ : Admissible cfg₀.world.history := by
    rw [hfront, ← List.singleton_append, ← List.append_assoc] at hadm
    exact admissible_of_append hadm
  have hlast : Unstarted i ([.act i call v.1 v.2] : List (QueueEvent T C n)) ∧
      Idles i ([.act i call v.1 v.2] : List (QueueEvent T C n)) := by
    refine ⟨fun call' hmem => ?_, fun call' a r hmem => ?_⟩
    · cases List.mem_singleton.mp hmem
    · cases List.mem_singleton.mp hmem
      exact huncommitted v (by simp)
  refine ⟨since ++ [.act i call v.1 v.2], cfg₀.world.history, by simp, ?_, ?_, hearlier, cfg₀.world,
    rfl, (hupheld.holds hadm₀).inv, hupheld.flag, hresult⟩
  · exact fun call' hmem => (List.mem_append.mp hmem).elim (hunstarted call') (hlast.1 call')
  · refine Idles.append (fun call' a r hmem => ?_) hlast.2
    exact huncommitted ⟨a, r⟩ (List.mem_append_left _ (hlater call' a r hmem))

/-- The instant a call that has changed nothing takes effect. -/
def TakesEffect (C : Capacity) (i : Thread n) (call : i.Call T) (result : i.Ret T)
    (history : List (QueueEvent T C n)) : Prop :=
  ∃ since past, history = since ++ past ∧ Unstarted i since ∧
    Does C i call result (contents past) (contents past)

theorem takesEffect_now {i : Thread n} {call : i.Call T} {result : i.Ret T}
    {history : List (QueueEvent T C n)}
    (h : Does C i call result (contents history) (contents history)) :
    TakesEffect C i call result history := ⟨[], history, rfl, fun _ => List.not_mem_nil, h⟩

/-- A consumer that is refused has loaded the flag after a write index that left it too few
items. -/
theorem SawShort.instants
    (hrun : (queue T C n).run (makeSpmc buffer driver) schedule = some cfg)
    (hadm : Admissible cfg.world.history) {c : Fin (n + 1)} {count : UInt64} {closed : Bool}
    (hsaw : SawShort c count closed (seen (.consumer c) cfg.world.history)) :
    ∃ since past since' past' readIdx writeIdx,
      Instant (.consumer c) cfg.world.history (View.loadIsClosed closed)
        [View.loadWriteIdx writeIdx, View.loadReadIdx c readIdx] since past ∧
      Instant (.consumer c) past (View.loadWriteIdx writeIdx) [View.loadReadIdx c readIdx]
        since' past' ∧
      (pushed past').length < passed c past' + count.toNat := by
  obtain ⟨readIdx, writeIdx, hless, hviews⟩ := hsaw
  have hun₂ : Uncommitted [(View.loadReadIdx c readIdx : View T C n)] :=
    Uncommitted.cons rfl Uncommitted.nil
  have hun₁ := hun₂.cons (v := View.loadWriteIdx writeIdx) rfl
  obtain ⟨since, past, h₁⟩ := exists_instant hrun hadm (List.nil_append _).symm
    (hviews.trans (List.nil_append _).symm) (hun₁.cons rfl)
  obtain ⟨since', past', h₂⟩ := exists_instant hrun hadm h₁.split
    (h₁.seen_eq.trans (List.nil_append _).symm) hun₁
  have hfront : cfg.world.history = (since ++ since') ++ past' := by
    rw [h₁.split, h₂.split, List.append_assoc]
  obtain ⟨since'', past'', h₃⟩ := exists_instant hrun hadm hfront
    (h₂.seen_eq.trans (List.nil_append _).symm) hun₂
  refine ⟨since, past, since', past', readIdx, writeIdx, h₁, h₂, ?_⟩
  obtain ⟨w, rfl, hring, -, hwrite⟩ := h₂.was
  obtain ⟨w', rfl, hring', -, hread⟩ := h₃.was
  -- the consumer has not moved between its two loads
  have hstays : passed c w.history = passed c w'.history := by
    rw [h₃.split, passed_of_idles h₃.idles]
  have hwrite : writeIdx = UInt64.ofNat (pushed w.history).length := hwrite.symm.trans hring.write
  have hread : readIdx = UInt64.ofNat (passed c w'.history) := hread.symm.trans (hring'.read c)
  have horder := hring.order c
  have hroom := hring.room c
  have hsize := C.size_le
  rw [hwrite, hread, ← hstays, UInt64.lt_iff_toNat_lt, ofNat_sub_toNat horder (by omega)] at hless
  omega

/-- A consumer is refused as the queue was when it loaded the write index, or the flag. -/
theorem consumer_takesEffect
    (hrun : (queue T C n).run (makeSpmc buffer driver) schedule = some cfg)
    (hadm : Admissible cfg.world.history) {c : Fin (n + 1)} {call : ConsumerCall}
    {r : ConsumerResult T × UInt64}
    (hsaw : ConsumerSaw c call (seen (.consumer c) cfg.world.history) r)
    (huncommitted : Uncommitted (seen (.consumer c) cfg.world.history)) :
    TakesEffect C (.consumer c) call r.1 cfg.world.history := by
  obtain ⟨⟨failure, items⟩, cached⟩ := r
  cases failure with
  | none =>
    obtain ⟨value, before, hviews, -⟩ := hsaw
    have hstored := huncommitted (View.storeReadIdx c value) (by rw [hviews]; exact List.mem_cons_self)
    cases hstored
  | bufferInsufficient =>
    obtain ⟨rfl, hsaw⟩ := hsaw
    obtain ⟨since, past, since', past', readIdx, writeIdx, h₁, h₂, hless⟩ :=
      hsaw.instants hrun hadm
    refine ⟨since ++ since', past', by rw [h₁.split, h₂.split, List.append_assoc], ?_, ?_⟩
    · exact fun call' hmem => (List.mem_append.mp hmem).elim (h₁.unstarted call') (h₂.unstarted call')
    · refine Does.short call hless ?_
      obtain ⟨w, rfl, -, hflag, hopen⟩ := h₁.was
      by_contra hclosed
      have hset := closedIn_mono since' (Bool.eq_true_of_not_eq_false hclosed)
      rw [← h₂.split, ← hflag] at hset
      change w.shared.isClosed = false at hopen
      rw [hopen] at hset
      cases hset
  | bufferClosed =>
    obtain ⟨rfl, hsaw⟩ := hsaw
    obtain ⟨since, past, since', past', readIdx, writeIdx, h₁, -, -⟩ :=
      hsaw.instants hrun hadm
    obtain ⟨w, rfl, -, hflag, hclosed⟩ := h₁.was
    exact ⟨since, w.history, h₁.split, h₁.unstarted, Does.closed call (hflag.symm.trans hclosed)⟩

/-- Since the call of consumer `c` that these events end in has started, there has been a
moment with too few items for it. -/
def FoundShort (c : Fin (n + 1)) (call : ConsumerCall) (history : List (QueueEvent T C n)) : Prop :=
  ∃ since past, history = since ++ past ∧ Unstarted (.consumer c) since ∧
    (pushed past).length < passed c past + call.count.toNat

/-- Every call that has been told that the queue is closed has found it short. -/
def ClosedWhenShort (history : List (QueueEvent T C n)) : Prop :=
  ∀ (c : Fin (n + 1)) (call : ConsumerCall) (r : ConsumerResult T) (later earlier : List _),
    history = later ++ .finish (.consumer c) call r :: earlier → r.failure = .bufferClosed →
    FoundShort c call earlier

theorem ClosedWhenShort.cons {e : QueueEvent T C n} {history : List (QueueEvent T C n)}
    (h : ClosedWhenShort history) (he : ∀ c call r, e = .finish (.consumer c) call r →
      r.failure = .bufferClosed → FoundShort c call history) : ClosedWhenShort (e :: history) := by
  intro c call r later earlier hsplit hclosed
  cases later with
  | nil =>
    obtain ⟨rfl, rfl⟩ := List.cons.inj hsplit
    exact he c call r rfl hclosed
  | cons e' later => exact h c call r later earlier (List.cons.inj hsplit).2 hclosed

theorem closedWhenShort_run
    (hrun : (queue T C n).run (makeSpmc buffer driver) schedule = some cfg)
    (hadm : Admissible cfg.world.history) : ClosedWhenShort cfg.world.history := by
  refine Machine.run_induction (P := fun cfg => Admissible cfg.world.history →
    ClosedWhenShort cfg.world.history) ?_ ?_ hrun hadm
  · intro _ c call r later earlier hsplit
    simp [makeSpmc] at hsplit
  · rintro cfg cfg' ⟨schedule, hrun⟩ ih hstep hadm'
    have hadm : Admissible cfg.world.history := by
      cases hstep <;> exact discipline_valid.earlier _ _ hadm'
    cases hstep with
    | start i call data hstatus hoffers => exact (ih hadm).cons (by simp)
    | act i call a next hstatus => exact (ih hadm).cons (by simp)
    | finish i call result data hstatus =>
      refine (ih hadm).cons fun c call' r heq hclosed => ?_
      cases heq
      have hsaw : ConsumerSaw c call' (seen (.consumer c) cfg.world.history) (r, data) :=
        saw_run hrun (.consumer c) call' _ hstatus
      obtain ⟨failure, items⟩ := r
      obtain rfl : failure = .bufferClosed := hclosed
      obtain ⟨since, past, since', past', readIdx, writeIdx, h₁, h₂, hless⟩ :=
        hsaw.2.instants hrun hadm
      refine ⟨since ++ since', past', by rw [h₁.split, h₂.split, List.append_assoc], ?_, hless⟩
      exact fun call' hmem => (List.mem_append.mp hmem).elim (h₁.unstarted call') (h₂.unstarted call')

theorem last_sub_toNat (k : ℕ) (writeIdx readIdx : UInt64) :
    (UInt64.ofNat k - 1 + writeIdx - readIdx).toNat =
      lastDistance (writeIdx - readIdx).toNat k := by
  have hlast : UInt64.ofNat k - 1 = UInt64.ofNat (k + 2 ^ 64 - 1) := by
    apply UInt64.toNat_inj.mp
    rw [UInt64.toNat_sub, UInt64.toNat_ofNat', UInt64.toNat_ofNat']
    change (2 ^ 64 - 1 + _) % 2 ^ 64 = _
    omega
  rw [hlast, UInt64.add_comm, add_sub_toNat]
  rfl

/-- A producer is refused as the queue was when it loaded the smallest read index. -/
theorem producer_full
    (hrun : (queue T C n).run (makeSpmc buffer driver) schedule = some cfg)
    (hadm : Admissible cfg.world.history) {call : ProducerCall T} (hpush : call ≠ .close)
    (hsaw : SawFull call.items (seen .producer cfg.world.history))
    (huncommitted : Uncommitted (seen .producer cfg.world.history)) :
    TakesEffect C .producer call (.response .failedBufferFull) cfg.world.history := by
  obtain ⟨hsize, writeIdx, readIdx, hviews, hfull⟩ := hsaw
  rw [hviews] at huncommitted
  -- every read index was a position when it was loaded, and nothing has been pushed since
  have hloaded : ∀ c, ∃ since past, cfg.world.history = since ++ past ∧ Unstarted .producer since ∧
      pushed past = pushed cfg.world.history ∧
      readIdx c = UInt64.ofNat (passed c past) ∧
      writeIdx = UInt64.ofNat (pushed cfg.world.history).length ∧
      passed c past ≤ (pushed cfg.world.history).length ∧
      (pushed cfg.world.history).length ≤ passed c past + C.size := by
    intro c
    have hmem : View.loadReadIdx c (readIdx c) ∈ (readViews readIdx : List (View T C n)) :=
      List.mem_reverse.mpr (List.mem_map.mpr ⟨c, List.mem_finRange c, rfl⟩)
    obtain ⟨later, earlier, hreads⟩ := List.append_of_mem hmem
    rw [hreads, List.append_assoc, List.cons_append] at hviews huncommitted
    obtain ⟨since, past, h₁⟩ := exists_instant hrun hadm (List.nil_append _).symm hviews huncommitted
    have hun₁ : Uncommitted (earlier ++ [View.loadWriteIdx writeIdx]) :=
      (List.forall_mem_cons.mp (List.forall_mem_append.mp huncommitted).2).2
    obtain ⟨since', past', h₂⟩ := exists_instant hrun hadm h₁.split h₁.seen_eq hun₁
    have hsame : pushed past = pushed cfg.world.history := by
      rw [h₁.split, pushed_of_idles h₁.idles]
    have hsame' : pushed past' = pushed cfg.world.history := by
      rw [← hsame, h₂.split, pushed_of_idles h₂.idles]
    obtain ⟨w, rfl, hring, -, hread⟩ := h₁.was
    obtain ⟨w', rfl, hring', -, hwrite⟩ := h₂.was
    refine ⟨since, w.history, h₁.split, h₁.unstarted, hsame, hread.symm.trans (hring.read c), ?_,
      hsame ▸ hring.order c, hsame ▸ hring.room c⟩
    rw [← hsame']
    exact hwrite.symm.trans hring'.write
  obtain ⟨d, hd⟩ := firstReadIdx_mem { cfg.world.shared with readIdx := readIdx }
  have hleast : ∀ c, (readIdx d).toNat ≤ (readIdx c).toNat := by
    intro c
    have hle := firstReadIdx_le { cfg.world.shared with readIdx := readIdx } c
    rwa [hd] at hle
  have hsmallest : smallest readIdx = readIdx d := hd
  obtain ⟨since, past, hsplit, hunstarted, hsame, hread, hwrite, horder, hroom⟩ := hloaded d
  have hbound := C.size_le
  rw [hsmallest, UInt64.le_iff_toNat_le, C.capacity_toNat, last_sub_toNat, hwrite, hread,
    ofNat_sub_toNat horder (by omega)] at hfull
  unfold lastDistance at hfull
  by_cases hempty : call.items.length = 0
  · -- every item has been read
    refine takesEffect_now (Does.fullEmpty call hpush (List.length_eq_zero_iff.mp hempty) fun c => ?_)
    have hlast : passed d past = (pushed cfg.world.history).length := by
      rw [hempty] at hfull
      omega
    have hpassed : (pushed cfg.world.history).length ≤ passed c cfg.world.history := by
      rcases hadm with rfl | hfew
      · rw [Fin.fin_one_eq_zero c, ← Fin.fin_one_eq_zero d, ← hlast]
        exact (passed_mono d since past).trans (congrArg (passed d) hsplit).ge
      · obtain ⟨since', past', hsplit', -, -, hread', -, horder', -⟩ := hloaded c
        have hle := hleast c
        rw [hread, hread', UInt64.toNat_ofNat', UInt64.toNat_ofNat', Nat.mod_eq_of_lt (by omega),
          Nat.mod_eq_of_lt (by omega)] at hle
        have hmono := passed_mono c since' past'
        rw [← hsplit'] at hmono
        omega
    have horder := (run_holds hrun hadm).1.inv.order c
    exact Nat.le_antisymm horder hpassed
  · refine ⟨since, past, hsplit, hunstarted, Does.full call hpush hsize fun hfits => ?_⟩
    have hfit : (pushed past).length + call.items.length ≤ passed d past + C.size := hfits d
    rw [hsame] at hfit
    omega

theorem producer_takesEffect
    (hrun : (queue T C n).run (makeSpmc buffer driver) schedule = some cfg)
    (hadm : Admissible cfg.world.history) {call : ProducerCall T} {r : ProducerResult × UInt64}
    (hsaw : ProducerSaw call (seen .producer cfg.world.history) r)
    (huncommitted : Uncommitted (seen .producer cfg.world.history)) :
    TakesEffect C .producer call r.1 cfg.world.history := by
  obtain ⟨result, cached⟩ := r
  cases result with
  | closed =>
    have hstored := huncommitted (View.storeIsClosed true) (by rw [hsaw.2]; exact List.mem_cons_self)
    cases hstored
  | response r =>
    cases r with
    | success =>
      obtain ⟨-, value, before, hviews, -⟩ := hsaw
      have hstored := huncommitted (View.storeWriteIdx value) (by rw [hviews]; exact List.mem_cons_self)
      cases hstored
    | failedBufferFull => exact producer_full hrun hadm hsaw.1 hsaw.2 huncommitted
    | failedPayloadTooLarge => exact takesEffect_now (Does.tooLarge call hsaw.1)

theorem takesEffect
    (hrun : (queue T C n).run (makeSpmc buffer driver) schedule = some cfg)
    (hadm : Admissible cfg.world.history) {i : Thread n} {call : i.Call T} {r : i.Ret T × UInt64}
    (hsaw : Saw i call (seen i cfg.world.history) r)
    (huncommitted : Uncommitted (seen i cfg.world.history)) :
    TakesEffect C i call r.1 cfg.world.history := by
  cases i with
  | producer => exact producer_takesEffect hrun hadm hsaw huncommitted
  | consumer c => exact consumer_takesEffect hrun hadm hsaw huncommitted

/-! ## Every run -/

/-- A store that changes what the queue holds is the effect of its call. -/
theorem does_committed (hholds : Discipline.Holds (queue T C n) (discipline T C n) cfg)
    (hadm : Admissible cfg.world.history) {i : Thread n} {call : i.Call T} {a : Access T C n}
    {r : a.Result} {history : List (QueueEvent T C n)}
    (hhistory : cfg.world.history = .act i call a r :: history)
    {result : i.Ret T} {data : UInt64}
    (hstatus : cfg.status i = .running call (.ret (result, data)))
    (hsaw : Saw i call (⟨a, r⟩ :: seen i history) (result, data)) (ha : a.commits = true) :
    Does C i call result (contents history) (contents cfg.world.history) := by
  have hroom := hholds.inv.room
  have hpost := hholds.post discipline_valid hadm hstatus
  cases i with
  | producer =>
    rcases ProducerSaw.committed hsaw ha with ⟨value, hview, hpush, hresult⟩ | ⟨hview, hclose, hresult⟩
    · cases hview
      obtain rfl : result = .response .success := hresult
      rw [hhistory] at hroom ⊢
      refine Does.push call hpush fun c => ?_
      have hc : (pushed history ++ call.items).length ≤ passed c history + C.size := hroom c
      rwa [List.length_append] at hc
    · cases hview
      obtain rfl : result = .closed := hresult
      obtain rfl : call = .close := hclose
      rw [hhistory]
      exact Does.close
  | consumer c =>
    obtain ⟨⟨value, hview⟩, hsucceeded⟩ := ConsumerSaw.committed hsaw ha
    cases hview
    have hsucceeded : result.failure = .none := hsucceeded
    have hdelivered : Delivered c call result cfg.world := hpost.2
    unfold Delivered at hdelivered
    rw [if_pos hsucceeded, hhistory] at hdelivered
    obtain ⟨hmoved, hwithin, hitems⟩ := hdelivered
    have hpassed : passed c (.act (.consumer c) call (.storeReadIdx c value) () :: history) =
        passed c history + call.count.toNat := if_pos rfl
    have hat : passed c history = (consumed c history).length :=
      Nat.add_right_cancel (hpassed.symm.trans hmoved)
    have hread : contents cfg.world.history = { contents history with
        read := Function.update (contents history).read c (passed c history + call.count.toNat) } := by
      have hfun : (fun d => passed d cfg.world.history) =
          Function.update (contents history).read c (passed c history + call.count.toNat) := by
        funext d
        by_cases hd : d = c
        · subst hd
          rw [hhistory, hpassed, Function.update_self]
        · rw [hhistory, Function.update_of_ne hd]
          exact if_neg (Ne.symm hd)
      rw [← hfun, hhistory]
      rfl
    rw [hread]
    refine Does.take call result hsucceeded (hpassed ▸ hwithin) fun hpop => ?_
    obtain ⟨hlength, rest, hslice⟩ := hitems hpop
    have hslice : (pushed history).take (consumed c history).length ++ result.items ++ rest =
        pushed history := hslice
    have hdrop : (pushed history).drop (passed c history) = result.items ++ rest := by
      have hle : (consumed c history).length ≤ (pushed history).length := by
        rw [← hat]
        exact (Nat.le_add_right _ _).trans (hpassed ▸ hwithin)
      have htaken := List.length_take_of_le hle
      conv_lhs => rw [← hslice]
      rw [List.append_assoc, hat, List.drop_append_of_le_length htaken.ge,
        List.drop_of_length_le htaken.le, List.nil_append]
    change result.items = ((pushed history).drop (passed c history)).take call.count.toNat
    rw [hdrop, ← hlength, List.take_left]

/-- The phases fit the threads: a call under way is pending until it stores something that
changes what the queue holds. -/
structure Explained (cfg : QueueConfig T C n D)
    (phase : (i : Thread n) → Phase (i.Call T) (i.Ret T)) : Prop where
  linear : Linearized contents (Does C) cfg.world.history phase
  idle : ∀ i data, cfg.status i = .idle data → phase i = .idle
  pending : ∀ i call rest, cfg.status i = .running call rest →
    Uncommitted (seen i cfg.world.history) → phase i = .pending call
  done : ∀ i call rest, cfg.status i = .running call rest →
    ¬ Uncommitted (seen i cfg.world.history) →
    ∃ result data, rest = .ret (result, data) ∧ phase i = .done call result

variable {phase : (i : Thread n) → Phase (i.Call T) (i.Ret T)}

theorem Explained.start (h : Explained cfg phase) {i : Thread n} {call : i.Call T} {data : UInt64}
    (hstatus : cfg.status i = .idle data) :
    Explained ((queue T C n).started cfg i call data)
      (Function.update phase i (.pending call)) where
  linear := .start i call h.linear (h.idle i data hstatus) rfl
  idle j data' hj := by
    by_cases hji : j = i
    · subst hji
      rw [Machine.started_status] at hj
      cases hj
    · rw [Machine.started_status_ne _ cfg hji] at hj
      rw [Function.update_of_ne hji]
      exact h.idle j data' hj
  pending j call' rest hj hun := by
    by_cases hji : j = i
    · subst hji
      rw [Machine.started_status] at hj
      cases hj
      exact Function.update_self ..
    · rw [Machine.started_status_ne _ cfg hji] at hj
      change Uncommitted (seen j (cfg.world.start i call).history) at hun
      rw [Machine.seen_start_ne _ hji] at hun
      rw [Function.update_of_ne hji]
      exact h.pending j call' rest hj hun
  done j call' rest hj hdone := by
    by_cases hji : j = i
    · subst hji
      change ¬ Uncommitted (seen j (cfg.world.start j call).history) at hdone
      rw [Machine.seen_start] at hdone
      exact absurd Uncommitted.nil hdone
    · rw [Machine.started_status_ne _ cfg hji] at hj
      change ¬ Uncommitted (seen j (cfg.world.start i call).history) at hdone
      rw [Machine.seen_start_ne _ hji] at hdone
      rw [Function.update_of_ne hji]
      exact h.done j call' rest hj hdone

/-- A call that goes on has changed nothing yet. -/
theorem Explained.uncommitted (h : Explained cfg phase) {i : Thread n} {call : i.Call T}
    {a : Access T C n} {next : a.Result → Code T C n (i.Ret T × UInt64)}
    (hstatus : cfg.status i = .running call (.act a next)) :
    Uncommitted (seen i cfg.world.history) := by
  by_contra hdone
  obtain ⟨result, data, hret, -⟩ := h.done i call _ hstatus hdone
  cases hret

theorem Explained.moved (h : Explained cfg phase) {i : Thread n}
    {phase' : (i : Thread n) → Phase (i.Call T) (i.Ret T)}
    (hlinear : Linearized contents (Does C) cfg'.world.history phase')
    (hothers : ∀ j ≠ i, cfg'.status j = cfg.status j ∧
      seen j cfg'.world.history = seen j cfg.world.history ∧ phase' j = phase j)
    (hidle : ∀ data, cfg'.status i = .idle data → phase' i = .idle)
    (hpending : ∀ call rest, cfg'.status i = .running call rest →
      Uncommitted (seen i cfg'.world.history) → phase' i = .pending call)
    (hdone : ∀ call rest, cfg'.status i = .running call rest →
      ¬ Uncommitted (seen i cfg'.world.history) →
      ∃ result data, rest = .ret (result, data) ∧ phase' i = .done call result) :
    Explained cfg' phase' where
  linear := hlinear
  idle j data hj := by
    by_cases hji : j = i
    · subst hji
      exact hidle data hj
    · obtain ⟨hstatus, -, hphase⟩ := hothers j hji
      rw [hphase]
      exact h.idle j data (hstatus ▸ hj)
  pending j call rest hj hun := by
    by_cases hji : j = i
    · subst hji
      exact hpending call rest hj hun
    · obtain ⟨hstatus, hseen, hphase⟩ := hothers j hji
      rw [hphase]
      exact h.pending j call rest (hstatus ▸ hj) (hseen ▸ hun)
  done j call rest hj hcommitted := by
    by_cases hji : j = i
    · subst hji
      exact hdone call rest hj hcommitted
    · obtain ⟨hstatus, hseen, hphase⟩ := hothers j hji
      rw [hphase]
      exact h.done j call rest (hstatus ▸ hj) (hseen ▸ hcommitted)

theorem Explained.act (h : Explained cfg phase) (hupheld : Upheld cfg)
    {i : Thread n} {call : i.Call T} {a : Access T C n}
    {next : a.Result → Code T C n (i.Ret T × UInt64)}
    (hstatus : cfg.status i = .running call (.act a next))
    (hadm : Admissible ((queue T C n).acted cfg i call a next).world.history) :
    ∃ phase', Explained ((queue T C n).acted cfg i call a next) phase' := by
  have hun := h.uncommitted hstatus
  have hphase := h.pending i call _ hstatus hun
  have hnow := Machine.acted_status (queue T C n) cfg call a next
  have hseen : seen i ((queue T C n).acted cfg i call a next).world.history =
      ⟨a, (a.exec cfg.world.shared).1⟩ :: seen i cfg.world.history := Machine.seen_act _ _ call a
  have hothers : ∀ j ≠ i, ((queue T C n).acted cfg i call a next).status j = cfg.status j ∧
      seen j ((queue T C n).acted cfg i call a next).world.history = seen j cfg.world.history :=
    fun j hj => ⟨Machine.acted_status_ne _ cfg hj call a next, Machine.seen_act_ne _ hj _ call a⟩
  have hsees := hupheld.sees i call _ hstatus (a.exec cfg.world.shared).1
  cases ha : a.commits with
  | false =>
    have hun' := hun.cons (v := ⟨a, (a.exec cfg.world.shared).1⟩) ha
    refine ⟨phase, h.moved (.act i call a _ h.linear (contents_act call ha _ _))
      (fun j hj => ⟨(hothers j hj).1, (hothers j hj).2, rfl⟩) (fun data hidle => ?_)
      (fun call' rest hrest _ => ?_) fun call' rest hrest hdone => ?_⟩
    · rw [hnow] at hidle
      cases hidle
    · rw [hnow] at hrest
      cases hrest
      exact hphase
    · rw [hseen] at hdone
      exact absurd hun' hdone
  | true =>
    obtain ⟨⟨result, data⟩, hret, hsaw⟩ := Saw.returns hsees ha cfg.world.shared
    have hstep : (queue T C n).Stepped cfg ((queue T C n).acted cfg i call a next) :=
      Machine.Stepped.act (m := queue T C n) i call a next hstatus
    have hupheld' := hupheld.step hstep
    have hstatus' : ((queue T C n).acted cfg i call a next).status i =
        .running call (.ret (result, data)) := hnow.trans (congrArg _ hret)
    have hdoes := does_committed (hupheld'.holds hadm) hadm rfl hstatus' hsaw ha
    refine ⟨Function.update phase i (.done call result),
      h.moved (.effect i call result a _ h.linear hphase hdoes)
        (fun j hj => ⟨(hothers j hj).1, (hothers j hj).2, Function.update_of_ne hj _ _⟩)
        (fun data' hidle => ?_) (fun call' rest hrest hpending => ?_) fun call' rest hrest _ => ?_⟩
    · rw [hnow] at hidle
      cases hidle
    · rw [hseen] at hpending
      have hstored := hpending _ List.mem_cons_self
      rw [ha] at hstored
      cases hstored
    · rw [hstatus'] at hrest
      cases hrest
      exact ⟨result, data, rfl, Function.update_self ..⟩

theorem Explained.finish (h : Explained cfg phase)
    (hrun : (queue T C n).run (makeSpmc buffer driver) schedule = some cfg)
    (hadm : Admissible cfg.world.history) {i : Thread n} {call : i.Call T} {result : i.Ret T}
    {data : UInt64} (hstatus : cfg.status i = .running call (.ret (result, data))) :
    ∃ phase', Explained (Machine.finished cfg i call result data) phase' := by
  have hlinear : ∃ phase', Linearized contents (Does C) cfg.world.history phase' ∧
      phase' i = .done call result ∧ ∀ j ≠ i, phase' j = phase j := by
    by_cases hun : Uncommitted (seen i cfg.world.history)
    · have hsaw := saw_run hrun i call _ hstatus
      obtain ⟨since, past, hsplit, hunstarted, hdoes⟩ := takesEffect hrun hadm hsaw hun
      exact ⟨Function.update phase i (.done call result),
        h.linear.look_back (h.pending i call _ hstatus hun) hsplit hunstarted hdoes,
        Function.update_self .., fun j hj => Function.update_of_ne hj _ _⟩
    · obtain ⟨result', data', hret, hphase⟩ := h.done i call _ hstatus hun
      cases hret
      exact ⟨phase, h.linear, hphase, fun _ _ => rfl⟩
  obtain ⟨phase', hlinear, hdone, hothers⟩ := hlinear
  have hnow := Machine.finished_status cfg call result data
  refine ⟨Function.update phase' i .idle, h.moved (.finish i call result hlinear hdone rfl)
    (fun j hj => ⟨Machine.finished_status_ne cfg hj call result data, rfl,
      (Function.update_of_ne hj _ _).trans (hothers j hj)⟩)
    (fun _ _ => Function.update_self ..) (fun call' rest hrest _ => ?_)
    fun call' rest hrest _ => ?_⟩
  · rw [hnow] at hrest
    cases hrest
  · rw [hnow] at hrest
    cases hrest

theorem explained_run
    (hrun : (queue T C n).run (makeSpmc buffer driver) schedule = some cfg)
    (hadm : Admissible cfg.world.history) : ∃ phase, Explained cfg phase := by
  refine Machine.run_induction (P := fun cfg => Upheld cfg ∧
    (Admissible cfg.world.history → ∃ phase, Explained cfg phase)) ?_ ?_ hrun |>.2 hadm
  · refine ⟨makeSpmc_upheld buffer driver, fun _ => ⟨fun _ => .idle, .nil, fun _ _ _ => rfl, ?_, ?_⟩⟩
    · intro i call rest h
      cases h
    · intro i call rest h
      cases h
  · rintro cfg cfg' ⟨schedule, hrun⟩ ⟨hupheld, hexplained⟩ hstep
    refine ⟨hupheld.step hstep, fun hadm' => ?_⟩
    have hadm : Admissible cfg.world.history := by
      cases hstep <;> exact discipline_valid.earlier _ _ hadm'
    obtain ⟨phase, hphase⟩ := hexplained hadm
    cases hstep with
    | start i call data hstatus hoffers => exact ⟨_, hphase.start hstatus⟩
    | act i call a next hstatus => exact hphase.act hupheld hstatus hadm'
    | finish i call result data hstatus => exact hphase.finish hrun hadm hstatus

end Instants

/-- Every run is one of the atomic queue: each call takes effect at one instant while it is
under way, and in the order of these instants the calls are what a queue would do that
took them one after the other. A call that finds the queue closed has also found it short
of items, maybe at an earlier instant. -/
theorem calls_linearize (buffer : Fin C.size → T) (driver : (i : Thread n) → D.State i)
    (schedule : List (Choice (Thread n) (Thread.Call T))) (cfg : QueueConfig T C n D)
    (hrun : (queue T C n).run (makeSpmc buffer driver) schedule = some cfg)
    (hadm : Admissible cfg.world.history) :
    (∃ phase : (i : Thread n) → Phase (i.Call T) (i.Ret T),
      Linearized contents (Does C) cfg.world.history phase ∧
      (∀ i data, cfg.status i = .idle data → phase i = .idle) ∧
      ∃ ops, Sequential (Does C) Contents.empty ops (contents cfg.world.history) ∧
        ∀ i, operationsOf i ops = (phase i).operation i ++ returned i cfg.world.history) ∧
    ClosedWhenShort cfg.world.history := by
  obtain ⟨phase, hphase⟩ := explained_run hrun hadm
  exact ⟨⟨phase, hphase.linear, hphase.idle, hphase.linear.sequential⟩,
    closedWhenShort_run hrun hadm⟩

theorem refill_linearizes :
    let start : OneSlotConfig := makeSpmc (fun _ => 0) fun _ => ()
    ∃ cfg : OneSlotConfig,
      (queue ℕ oneSlot 0).run start (refillSchedule ++ refillRest) = some cfg ∧
      ∃ phase : (i : Thread 0) → Phase (i.Call ℕ) (i.Ret ℕ),
        Linearized contents (Does oneSlot) cfg.world.history phase := by
  intro start
  have hran : ((queue ℕ oneSlot 0).run start (refillSchedule ++ refillRest)).isSome = true := by
    decide
  obtain ⟨cfg, hrun⟩ := Option.isSome_iff_exists.mp hran
  obtain ⟨⟨phase, hlinear, -⟩, -⟩ := calls_linearize _ _ _ cfg hrun (Or.inl rfl)
  exact ⟨cfg, hrun, phase, hlinear⟩

end Runs

end ItchOrderBook.Spmc

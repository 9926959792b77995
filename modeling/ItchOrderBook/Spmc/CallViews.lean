import ItchOrderBook.Foundation.CallTraces
import ItchOrderBook.Spmc.LoneProducer

/-! # What the queue's calls see

Every way a call can go, whatever the other threads make its loads return: the accesses
it has made when it returns, by what it returns. A call stores an index or the closed
flag in its last access or not at all, and its accesses are bounded.
-/
namespace ItchOrderBook.Spmc
open AtomicProgram

variable {T : Type} {C : Capacity} {n : ℕ}

/-- An access with what it has returned. -/
abbrev View (T : Type) (C : Capacity) (n : ℕ) := Seen (Access T C n) Access.Result

def View.loadWriteIdx (value : UInt64) : View T C n := ⟨.loadWriteIdx, value⟩
def View.loadReadIdx (c : Fin (n + 1)) (value : UInt64) : View T C n := ⟨.loadReadIdx c, value⟩
def View.loadIsClosed (value : Bool) : View T C n := ⟨.loadIsClosed, value⟩
def View.storeWriteIdx (value : UInt64) : View T C n := ⟨.storeWriteIdx value, ()⟩
def View.storeReadIdx (c : Fin (n + 1)) (value : UInt64) : View T C n := ⟨.storeReadIdx c value, ()⟩
def View.storeIsClosed (value : Bool) : View T C n := ⟨.storeIsClosed value, ()⟩

/-- The access changes what the queue holds. -/
def Access.commits : Access T C n → Bool
  | .storeWriteIdx _ | .storeReadIdx _ _ | .storeIsClosed _ => true
  | _ => false

/-- Nothing the thread has seen is a store that changes what the queue holds. -/
def Uncommitted (views : List (View T C n)) : Prop := ∀ v ∈ views, v.1.commits = false

theorem Uncommitted.cons {v : View T C n} {views : List (View T C n)} (hv : v.1.commits = false)
    (h : Uncommitted views) : Uncommitted (v :: views) := List.forall_mem_cons.mpr ⟨hv, h⟩

theorem Uncommitted.nil : Uncommitted ([] : List (View T C n)) := List.forall_mem_nil _

/-! ## The producer -/

/-- The smallest of the read indices a producer has loaded, one from each consumer. -/
def smallest (readIdx : Fin (n + 1) → UInt64) : UInt64 :=
  (List.finRange (n + 1)).foldl (fun first c => min first (readIdx c)) (UInt64.ofNat (2 ^ 64 - 1))

/-- The loads of `get_first_read_idx`, the latest first. -/
def readViews (readIdx : Fin (n + 1) → UInt64) : List (View T C n) :=
  ((List.finRange (n + 1)).map fun c => View.loadReadIdx c (readIdx c)).reverse

@[simp] theorem readViews_length (readIdx : Fin (n + 1) → UInt64) :
    (readViews readIdx : List (View T C n)).length = n + 1 := by simp [readViews]

theorem readViews_uncommitted (readIdx : Fin (n + 1) → UInt64) :
    Uncommitted (readViews readIdx : List (View T C n)) := by
  intro v hv
  obtain ⟨c, -, rfl⟩ := List.mem_map.mp (List.mem_reverse.mp hv)
  rfl

/-- What a push call has seen that finds the ring full. -/
def SawFull (items : List T) (views : List (View T C n)) : Prop :=
  items.length ≤ C.size ∧ ∃ writeIdx readIdx,
    views = readViews readIdx ++ [View.loadWriteIdx writeIdx] ∧
    C.capacity ≤ UInt64.ofNat items.length - 1 + writeIdx - smallest readIdx

/-- What a push call has seen that publishes its items. -/
def SawPublished (items : List T) (views : List (View T C n)) : Prop :=
  ∃ value before, views = View.storeWriteIdx value :: before ∧ Uncommitted before ∧
    before.length ≤ n + 2 + items.length

/-- What a call of the producer has seen when it returns. -/
def ProducerSaw (call : ProducerCall T) (views : List (View T C n)) (r : ProducerResult × UInt64) :
    Prop :=
  match r.1 with
  | .response .success => call ≠ .close ∧ SawPublished call.items views
  | .response .failedBufferFull => call ≠ .close ∧ SawFull call.items views
  | .response .failedPayloadTooLarge => C.size < call.items.length ∧ views = []
  | .closed => call = .close ∧ views = [View.storeIsClosed true]

namespace Producer

theorem foldReadIdx_sees (cs : List (Fin (n + 1))) (hcs : cs.Nodup) (first : UInt64)
    (views : List (View T C n)) :
    (cs.foldlM (fun firstReadIdx c => do
      let readIdx ← loadReadIdx c
      return min firstReadIdx readIdx) first : Code T C n UInt64).Sees
        (fun views' value => ∃ readIdx : Fin (n + 1) → UInt64,
          views' = (cs.map fun c => View.loadReadIdx c (readIdx c)).reverse ++ views ∧
          value = cs.foldl (fun first c => min first (readIdx c)) first) views := by
  induction cs generalizing first views with
  | nil => exact ⟨fun _ => 0, rfl, rfl⟩
  | cons c cs ih =>
    obtain ⟨hc, hcs⟩ := List.nodup_cons.mp hcs
    intro loaded
    refine (ih hcs (min first loaded) (View.loadReadIdx c loaded :: views)).mono ?_
    rintro views' value ⟨readIdx, rfl, rfl⟩
    -- the index of `c` is the one just loaded
    have hsame : ∀ d ∈ cs, Function.update readIdx c loaded d = readIdx d :=
      fun d hd => Function.update_of_ne (ne_of_mem_of_not_mem hd hc) _ _
    have hmap : (cs.map fun d => View.loadReadIdx d (Function.update readIdx c loaded d)) =
        cs.map fun d => (View.loadReadIdx d (readIdx d) : View T C n) :=
      List.map_congr_left fun d hd => by rw [hsame d hd]
    have hfold : ∀ (ds : List (Fin (n + 1))), (∀ d ∈ ds, d ∈ cs) → ∀ m,
        ds.foldl (fun first d => min first (Function.update readIdx c loaded d)) m =
          ds.foldl (fun first d => min first (readIdx d)) m := by
      intro ds hds m
      induction ds generalizing m with
      | nil => rfl
      | cons d ds ihds =>
        rw [List.foldl_cons, List.foldl_cons, hsame d (hds d List.mem_cons_self)]
        exact ihds (fun e he => hds e (List.mem_cons_of_mem d he)) _
    refine ⟨Function.update readIdx c loaded, ?_, ?_⟩
    · simp [hmap]
    · rw [List.foldl_cons, Function.update_self]
      exact (hfold cs (fun d hd => hd) _).symm

theorem getFirstReadIdx_sees (views : List (View T C n)) :
    (getFirstReadIdx : Code T C n UInt64).Sees (fun views' value => ∃ readIdx,
      views' = readViews readIdx ++ views ∧ value = smallest readIdx) views :=
  foldReadIdx_sees _ (List.nodup_finRange _) _ views

/-- A write index that is not valid has been compared with every read index. -/
theorem isValidWriteIdx_sees (cachedReadIdx writeIdx : UInt64) (views : List (View T C n)) :
    (isValidWriteIdx cachedReadIdx writeIdx : Code T C n (Bool × UInt64)).Sees
      (fun views' r => ∃ loads, views' = loads ++ views ∧ Uncommitted loads ∧
        loads.length ≤ n + 1 ∧ (r.1 = false → ∃ readIdx, loads = readViews readIdx ∧
          C.capacity ≤ writeIdx - smallest readIdx)) views := by
  unfold isValidWriteIdx
  by_cases hfull : writeIdx - cachedReadIdx ≥ C.capacity
  · rw [if_pos hfull]
    refine (getFirstReadIdx_sees views).bind ?_
    rintro views' first ⟨readIdx, rfl, rfl⟩
    refine ⟨_, rfl, readViews_uncommitted readIdx, (readViews_length readIdx).le, ?_⟩
    intro hinvalid
    exact ⟨readIdx, rfl, UInt64.not_lt.mp (of_decide_eq_false hinvalid)⟩
  · rw [if_neg hfull]
    exact ⟨[], rfl, Uncommitted.nil, Nat.zero_le _, fun h => by cases h⟩

theorem writeSlots_sees (writeIdx : UInt64) (i : ℕ) (items : List T) (views : List (View T C n)) :
    (writeSlots writeIdx i items : Code T C n Unit).Sees (fun views' _ => ∃ writes,
      views' = writes ++ views ∧ Uncommitted writes ∧ writes.length = items.length) views := by
  induction items generalizing i views with
  | nil => exact ⟨[], rfl, Uncommitted.nil, rfl⟩
  | cons item items ih =>
    intro result
    refine (ih (i + 1) _).mono ?_
    rintro views' - ⟨writes, rfl, hwrites, hlength⟩
    refine ⟨writes ++ [⟨.writeSlot (C.slot (writeIdx + UInt64.ofNat i)) item, result⟩], by simp, ?_,
      by simp [hlength]⟩
    exact List.forall_mem_append.mpr ⟨hwrites, Uncommitted.cons rfl Uncommitted.nil⟩

theorem tryPush_sees (item : T) (cachedReadIdx : UInt64) :
    (tryPush item cachedReadIdx : Code T C n (ProduceResponse × UInt64)).Sees (fun views r =>
      ProducerSaw (.tryPush item) views (.response r.1, r.2)) [] := by
  intro writeIdx
  refine (isValidWriteIdx_sees cachedReadIdx writeIdx _).bind ?_
  rintro views' ⟨valid, cached⟩ ⟨loads, rfl, hloads, hlength, hinvalid⟩
  have hload : Uncommitted (loads ++ [(⟨.loadWriteIdx, writeIdx⟩ : View T C n)]) :=
    List.forall_mem_append.mpr ⟨hloads, Uncommitted.cons rfl Uncommitted.nil⟩
  cases valid with
  | true =>
    intro written stored
    refine ⟨by simp, writeIdx + 1, _, rfl, Uncommitted.cons rfl hload, ?_⟩
    simp [ProducerCall.items]
    omega
  | false =>
    obtain ⟨readIdx, rfl, hfull⟩ := hinvalid rfl
    refine ⟨by simp, C.size_pos, writeIdx, readIdx, rfl, ?_⟩
    simpa [ProducerCall.items] using hfull

theorem tryPushMany_sees (items : List T) (cachedReadIdx : UInt64) :
    (tryPushMany items cachedReadIdx : Code T C n (ProduceResponse × UInt64)).Sees (fun views r =>
      ProducerSaw (.tryPushMany items) views (.response r.1, r.2)) [] := by
  unfold tryPushMany
  by_cases hlarge : items.length > C.size
  · rw [if_pos hlarge]
    exact ⟨hlarge, rfl⟩
  rw [if_neg hlarge]
  intro writeIdx
  refine (isValidWriteIdx_sees cachedReadIdx _ _).bind ?_
  rintro views' ⟨valid, cached⟩ ⟨loads, rfl, hloads, hlength, hinvalid⟩
  have hload : Uncommitted (loads ++ [(⟨.loadWriteIdx, writeIdx⟩ : View T C n)]) :=
    List.forall_mem_append.mpr ⟨hloads, Uncommitted.cons rfl Uncommitted.nil⟩
  cases valid with
  | true =>
    refine (writeSlots_sees writeIdx 0 items _).bind ?_
    rintro views' - ⟨writes, rfl, hwrites, hcount⟩ stored
    refine ⟨by simp, _, _, rfl, List.forall_mem_append.mpr ⟨hwrites, hload⟩, ?_⟩
    simp [ProducerCall.items, hcount]
    omega
  | false =>
    obtain ⟨readIdx, rfl, hfull⟩ := hinvalid rfl
    exact ⟨by simp, Nat.not_lt.mp hlarge, writeIdx, readIdx, rfl, hfull⟩

end Producer

theorem ProducerCall.code_sees (call : ProducerCall T) (cachedReadIdx : UInt64) :
    (call.code cachedReadIdx : Code T C n (ProducerResult × UInt64)).Sees (ProducerSaw call) [] := by
  cases call with
  | tryPush item => exact (Producer.tryPush_sees item cachedReadIdx).bind fun _ _ h => h
  | tryPushMany items => exact (Producer.tryPushMany_sees items cachedReadIdx).bind fun _ _ h => h
  | close => exact fun _ => ⟨rfl, rfl⟩

/-! ## A consumer -/

/-- What a pop or skip has seen that finds too few items. -/
def SawShort (c : Fin (n + 1)) (count : UInt64) (closed : Bool) (views : List (View T C n)) : Prop :=
  ∃ readIdx writeIdx, writeIdx - readIdx < count ∧ views =
    [View.loadIsClosed closed, View.loadWriteIdx writeIdx, View.loadReadIdx c readIdx]

/-- What a pop or skip has seen that moves past its items. -/
def SawTaken (c : Fin (n + 1)) (count : UInt64) (views : List (View T C n)) : Prop :=
  ∃ value before, views = View.storeReadIdx c value :: before ∧ Uncommitted before ∧
    before.length ≤ 2 + count.toNat

/-- What a call of consumer `c` has seen when it returns. -/
def ConsumerSaw (c : Fin (n + 1)) (call : ConsumerCall) (views : List (View T C n))
    (r : ConsumerResult T × UInt64) : Prop :=
  match r.1.failure with
  | .none => SawTaken c call.count views
  | .bufferInsufficient => r.1.items = [] ∧ SawShort c call.count false views
  | .bufferClosed => r.1.items = [] ∧ SawShort c call.count true views

namespace Consumer

/-- What `check_pop_status` has seen when it returns. -/
def StatusSaw (count readIdx : UInt64) (views : List (View T C n)) (failure : ConsumeFailure)
    (views' : List (View T C n)) : Prop :=
  match failure with
  | .none => ∃ loads, views' = loads ++ views ∧ Uncommitted loads ∧ loads.length ≤ 1
  | failure => ∃ writeIdx, writeIdx - readIdx < count ∧
      views' = View.loadIsClosed (decide (failure = .bufferClosed)) :: View.loadWriteIdx writeIdx :: views

theorem checkPopStatus_sees (cachedWriteIdx readIdx count : UInt64) (views : List (View T C n)) :
    (checkPopStatus cachedWriteIdx readIdx count : Code T C n (ConsumeFailure × UInt64)).Sees
      (fun views' r => StatusSaw count readIdx views r.1 views') views := by
  unfold checkPopStatus
  by_cases hcached : cachedWriteIdx - readIdx < count
  · rw [if_pos hcached]
    intro writeIdx
    change Prog.Sees _ (if writeIdx - readIdx < count then _ else _) _
    by_cases hshort : writeIdx - readIdx < count
    · rw [if_pos hshort]
      intro closed
      cases closed with
      | true => exact ⟨writeIdx, hshort, rfl⟩
      | false => exact ⟨writeIdx, hshort, rfl⟩
    · rw [if_neg hshort]
      exact ⟨[⟨.loadWriteIdx, writeIdx⟩], rfl, Uncommitted.cons rfl Uncommitted.nil, le_rfl⟩
  · rw [if_neg hcached]
    exact ⟨[], rfl, Uncommitted.nil, Nat.zero_le _⟩

theorem attempt_sees (c : Fin (n + 1)) (cachedWriteIdx count : UInt64) {α : Type}
    {Q : List (View T C n) → α → Prop} {f : ConsumeFailure × UInt64 → UInt64 → Code T C n α}
    (hfail : ∀ failure cached readIdx views, failure ≠ .none →
      SawShort c count (decide (failure = .bufferClosed)) views →
        (f (failure, cached) readIdx).Sees Q views)
    (htake : ∀ cached readIdx views, Uncommitted views → views.length ≤ 2 →
      (f (.none, cached) readIdx).Sees Q views) :
    (loadReadIdx c >>= fun readIdx => checkPopStatus cachedWriteIdx readIdx count >>=
      fun r => f r readIdx : Code T C n α).Sees Q [] := by
  intro readIdx
  refine (checkPopStatus_sees cachedWriteIdx readIdx count _).bind ?_
  rintro views ⟨failure, cached⟩ hstatus
  cases failure with
  | none =>
    obtain ⟨loads, rfl, hloads, hlength⟩ := hstatus
    refine htake cached readIdx _ (List.forall_mem_append.mpr ⟨hloads, ?_⟩) ?_
    · exact Uncommitted.cons rfl Uncommitted.nil
    · simp
      omega
  | bufferInsufficient =>
    obtain ⟨writeIdx, hshort, rfl⟩ := hstatus
    exact hfail _ cached readIdx _ (by simp) ⟨readIdx, writeIdx, hshort, rfl⟩
  | bufferClosed =>
    obtain ⟨writeIdx, hshort, rfl⟩ := hstatus
    exact hfail _ cached readIdx _ (by simp) ⟨readIdx, writeIdx, hshort, rfl⟩

/-- What a `try_pop` has returned, as a result of any call. -/
def popped : Except ConsumeFailure T → ConsumerResult T
  | .ok item => ⟨.none, [item]⟩
  | .error failure => ⟨failure, []⟩

theorem ConsumerSaw.of_short (call : ConsumerCall) {c : Fin (n + 1)} {failure : ConsumeFailure}
    {views : List (View T C n)} (hfailure : failure ≠ .none)
    (h : SawShort c call.count (decide (failure = .bufferClosed)) views) (cached : UInt64) :
    ConsumerSaw c call views (⟨failure, []⟩, cached) := by
  cases failure with
  | none => exact absurd rfl hfailure
  | bufferInsufficient => exact ⟨rfl, h⟩
  | bufferClosed => exact ⟨rfl, h⟩

theorem readSlots_sees (readIdx : UInt64) (i count : ℕ) (views : List (View T C n)) :
    (readSlots readIdx i count : Code T C n (List T)).Sees (fun views' _ => ∃ reads,
      views' = reads ++ views ∧ Uncommitted reads ∧ reads.length = count) views := by
  induction count generalizing i views with
  | zero => exact ⟨[], rfl, Uncommitted.nil, rfl⟩
  | succ count ih =>
    intro item
    refine (ih (i + 1) _).bind ?_
    rintro views' - ⟨reads, rfl, hreads, hlength⟩
    refine ⟨reads ++ [⟨.readSlot (C.slot (readIdx + UInt64.ofNat i)), item⟩], by simp, ?_,
      by simp [hlength]⟩
    exact List.forall_mem_append.mpr ⟨hreads, Uncommitted.cons rfl Uncommitted.nil⟩

end Consumer

theorem ConsumerCall.code_sees (c : Fin (n + 1)) (call : ConsumerCall) (cachedWriteIdx : UInt64) :
    (call.code c cachedWriteIdx : Code T C n (ConsumerResult T × UInt64)).Sees
      (ConsumerSaw c call) [] := by
  cases call with
  | tryPop =>
    refine Prog.Sees.bind (Q := fun views r =>
      ConsumerSaw c .tryPop views (Consumer.popped r.1, r.2)) ?_ ?_
    · refine Consumer.attempt_sees c cachedWriteIdx 1 ?_ ?_
      · intro failure cached readIdx views hfailure hshort
        dsimp only
        rw [if_pos hfailure]
        exact Consumer.ConsumerSaw.of_short .tryPop hfailure hshort cached
      · intro cached readIdx views hviews hlength item stored
        exact ⟨_, _, rfl, Uncommitted.cons rfl hviews, Nat.succ_le_succ hlength⟩
    · rintro views ⟨r, cached⟩ h
      cases r with
      | ok item => exact h
      | error failure => exact h
  | tryPopMany count =>
    refine Prog.Sees.bind (Q := fun views r =>
      ConsumerSaw c (.tryPopMany count) views (⟨r.1.1, r.1.2⟩, r.2)) (Consumer.attempt_sees c cachedWriteIdx count ?_ ?_) ?_
    · intro failure cached readIdx views hfailure hshort
      dsimp only
      rw [if_pos hfailure]
      exact Consumer.ConsumerSaw.of_short (.tryPopMany count) hfailure hshort cached
    · intro cached readIdx views hviews hlength
      refine (Consumer.readSlots_sees readIdx 0 count.toNat views).bind ?_
      rintro views' items ⟨reads, rfl, hreads, hcount⟩ stored
      refine ⟨_, _, rfl, List.forall_mem_append.mpr ⟨hreads, hviews⟩, ?_⟩
      simp [hcount, ConsumerCall.count]
      omega
    · rintro views ⟨r, cached⟩ h
      exact h
  | trySkipMany count =>
    refine Prog.Sees.bind (Q := fun views r =>
      ConsumerSaw c (.trySkipMany count) views (⟨r.1, []⟩, r.2)) (Consumer.attempt_sees c cachedWriteIdx count ?_ ?_) ?_
    · intro failure cached readIdx views hfailure hshort
      dsimp only
      rw [if_pos hfailure]
      exact Consumer.ConsumerSaw.of_short (.trySkipMany count) hfailure hshort cached
    · intro cached readIdx views hviews hlength stored
      exact ⟨_, _, rfl, hviews, hlength.trans (Nat.le_add_right _ _)⟩
    · rintro views ⟨failure, cached⟩ h
      exact h

/-- What a call of a thread has seen when it returns. -/
def Saw : (i : Thread n) → i.Call T → List (View T C n) → i.Ret T × UInt64 → Prop
  | .producer => ProducerSaw
  | .consumer c => ConsumerSaw c

theorem queue_sees (i : Thread n) (call : i.Call T) (cached : UInt64) :
    ((queue T C n).body i call cached).Sees (Saw i call) [] := by
  cases i with
  | producer => exact ProducerCall.code_sees call cached
  | consumer c => exact ConsumerCall.code_sees c call cached

/-! ## Wait-freedom -/

/-- The accesses a call makes at most: a push loads the write index and every read index,
writes its slots and publishes them; a pop loads two indices, reads its slots and moves on. -/
def Thread.bound : (i : Thread n) → i.Call T → ℕ
  | .producer, call => n + 3 + call.items.length
  | .consumer _, call => 3 + call.count.toNat

theorem Saw.length_le {i : Thread n} {call : i.Call T} {views : List (View T C n)}
    {r : i.Ret T × UInt64} (h : Saw i call views r) : views.length ≤ i.bound call := by
  cases i with
  | producer =>
    obtain ⟨result, cached⟩ := r
    have hbound : Thread.bound .producer call = n + 3 + call.items.length := rfl
    rw [hbound]
    cases result with
    | closed =>
      obtain ⟨-, rfl⟩ := h
      simp only [List.length_singleton]
      omega
    | response r =>
      cases r with
      | success =>
        obtain ⟨-, value, before, rfl, -, hlength⟩ := h
        simp only [List.length_cons]
        omega
      | failedBufferFull =>
        obtain ⟨-, -, writeIdx, readIdx, rfl, -⟩ := h
        simp only [List.length_append, readViews_length, List.length_singleton]
        omega
      | failedPayloadTooLarge =>
        obtain ⟨-, rfl⟩ := h
        simp
  | consumer c =>
    obtain ⟨⟨failure, items⟩, cached⟩ := r
    have hbound : Thread.bound (.consumer c) call = 3 + call.count.toNat := rfl
    rw [hbound]
    cases failure with
    | none =>
      obtain ⟨value, before, rfl, -, hlength⟩ := h
      simp only [List.length_cons]
      omega
    | bufferInsufficient =>
      obtain ⟨-, readIdx, writeIdx, -, rfl⟩ := h
      simp
    | bufferClosed =>
      obtain ⟨-, readIdx, writeIdx, -, rfl⟩ := h
      simp

section Runs
variable {D : Driver (Thread n) (Thread.Call T) (Thread.Ret T)}

theorem saw_run {buffer : Fin C.size → T} {driver : (i : Thread n) → D.State i}
    {schedule : List (Choice (Thread n) (Thread.Call T))} {cfg : QueueConfig T C n D}
    (hrun : (queue T C n).run (makeSpmc buffer driver) schedule = some cfg) :
    Machine.AllSee Saw cfg :=
  Machine.allSee_run queue_sees (fun _ => ⟨0, rfl⟩) hrun

/-- No call waits for another thread: from wherever it is in whatever run, it returns
before its own thread has taken one step more than the bound leaves it, however the other
threads go on or stand still. -/
theorem calls_wait_free (buffer : Fin C.size → T) (driver : (i : Thread n) → D.State i)
    (schedule : List (Choice (Thread n) (Thread.Call T))) (cfg : QueueConfig T C n D)
    (hrun : (queue T C n).run (makeSpmc buffer driver) schedule = some cfg)
    (i : Thread n) (call : i.Call T) (rest : Code T C n (i.Ret T × UInt64))
    (hstatus : cfg.status i = .running call rest)
    (schedule' : List (Choice (Thread n) (Thread.Call T))) (cfg' : QueueConfig T C n D)
    (hrun' : (queue T C n).run cfg schedule' = some cfg')
    (hmany : i.bound call <
      (seen i cfg.world.history).length + schedule'.countP (Choice.isGo i)) :
    ∃ new result, cfg'.world.history = new ++ cfg.world.history ∧
      Event.finish i call result ∈ new := by
  have hbody : ∀ (i : Thread n) (call : i.Call T) cached, ((queue T C n).body i call cached).Sees
      (Machine.Within Thread.bound i call) [] :=
    fun i call cached => (queue_sees i call cached).mono fun _ _ => Saw.length_le
  have hwithin : Machine.AllSee (Machine.Within Thread.bound) cfg :=
    fun i call rest h => (saw_run hrun i call rest h).mono fun _ _ => Saw.length_le
  exact Machine.finishes_within hbody hwithin hstatus hrun' hmany

/-- The call a thread has under way. -/
def underWay (i : Thread n) (cfg : QueueConfig T C n D) : Option (i.Call T) :=
  match cfg.status i with
  | .idle _ => none
  | .running call _ => some call

theorem status_of_underWay {i : Thread n} {cfg : QueueConfig T C n D} {call : i.Call T}
    (h : underWay i cfg = some call) : ∃ rest, cfg.status i = .running call rest := by
  unfold underWay at h
  cases hs : cfg.status i with
  | idle data => simp [hs] at h
  | running call' rest =>
    obtain rfl : call' = call := by simpa [hs] using h
    exact ⟨rest, rfl⟩

abbrev oneSlot : Capacity := ⟨0, by decide⟩

abbrev OneSlotConfig := QueueConfig ℕ oneSlot 0 (Driver.free ..)

/-- One slot: the second push has to look for the reader that has freed it. -/
def refillSchedule : List (Choice (Thread 0) (Thread.Call ℕ)) :=
  Choice.through .producer (ProducerCall.tryPush 7) 4 ++
  Choice.through (.consumer ⟨0, Nat.one_pos⟩) ConsumerCall.tryPop 5 ++
  [.start .producer (ProducerCall.tryPush 8)]

/-- A reader comes in between. -/
def refillRest : List (Choice (Thread 0) (Thread.Call ℕ)) :=
  [.go .producer, .go .producer, .start (.consumer ⟨0, Nat.one_pos⟩) ConsumerCall.tryPop,
    .go (.consumer ⟨0, Nat.one_pos⟩), .go .producer, .go .producer, .go .producer]

theorem refill_returns :
    let start : OneSlotConfig :=
      makeSpmc (fun _ => 0) fun _ => ()
    ∃ cfg : OneSlotConfig,
      ∃ cfg' : OneSlotConfig,
      (queue ℕ oneSlot 0).run start refillSchedule = some cfg ∧
      (queue ℕ oneSlot 0).run cfg refillRest = some cfg' ∧
      ∃ new result, cfg'.world.history = new ++ cfg.world.history ∧
        Event.finish .producer (ProducerCall.tryPush 8) result ∈ new := by
  intro start
  have hran : ((queue ℕ oneSlot 0).run start refillSchedule).map (fun cfg =>
      (underWay .producer cfg, ((queue ℕ oneSlot 0).run cfg refillRest).isSome)) =
        some (some (ProducerCall.tryPush 8), true) := by decide
  obtain ⟨cfg, hrun, hcfg⟩ := Option.map_eq_some_iff.mp hran
  obtain ⟨hcall, hrest⟩ := Prod.mk.inj hcfg
  obtain ⟨rest, hstatus⟩ := status_of_underWay hcall
  obtain ⟨cfg', hrun'⟩ := Option.isSome_iff_exists.mp hrest
  refine ⟨cfg, cfg', hrun, hrun', calls_wait_free _ _ refillSchedule cfg hrun .producer
    (ProducerCall.tryPush 8) rest hstatus refillRest cfg' hrun' ?_⟩
  exact Nat.lt_add_left _ (by decide)

end Runs

end ItchOrderBook.Spmc

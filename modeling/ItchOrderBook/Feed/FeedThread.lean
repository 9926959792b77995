import ItchOrderBook.Feed.Framing
import Mathlib.Logic.Function.Iterate

/-! # The feed's thread

`while (feed_handler.poll());` on one file and a queue that its consumers keep draining.
The thread ends, and the queue closes, when the file is a sequence of whole frames. On a
file that ends inside a frame `poll` goes on forever.
-/
namespace ItchOrderBook.Feed
open ByteOrder MarketData Spmc

def checkStreamClosed (failure : DataReadFailure) : Except DataReadFailure (List UInt8) :=
  if failure = .streamClosed then .error failure else .ok []

/-- The producer's side of a queue that takes the longest frame and is drained again and
again: `hasRoom i` is what the `i`-th call of `try_push_many` finds. -/
structure DrainingQueue where
  capacity : ℕ
  fits : 65537 ≤ capacity
  hasRoom : ℕ → Bool
  drains : ∀ call, ∃ k, hasRoom (call + k) = true

def DrainingQueue.tryPushMany (Q : DrainingQueue) (call : ℕ) (items : List UInt8) :
    ProduceResponse :=
  if items.length > Q.capacity then .failedPayloadTooLarge
  else if Q.hasRoom call then .success
  else .failedBufferFull

/-- The thread between two calls: the source's `ptr_`, the frame `publish_queue` has not
pushed yet, the calls of `try_push_many` and the frames pushed so far, and whether
`~FeedHandler` has closed the queue. -/
structure FeedThread where
  ptr : List UInt8
  nextFrame : Option (List UInt8)
  calls : ℕ
  pushed : List (List UInt8)
  isClosed : Bool

namespace FeedThread

/-- One call of `next` or of `try_push_many`. `poll` returns whether the pipeline has a
value, which a frame that has been pushed is. -/
def step (native : Endian) (Q : DrainingQueue) (s : FeedThread) : FeedThread :=
  if s.isClosed then s
  else
    match s.nextFrame with
    | some frame =>
      match Q.tryPushMany s.calls frame with
      | .success =>
        { s with nextFrame := none, calls := s.calls + 1, pushed := s.pushed ++ [frame] }
      | _ => { s with calls := s.calls + 1 }
    | none =>
      match next native s.ptr with
      | (.ok frame, ptr) => { s with ptr, nextFrame := some frame }
      | (.error failure, ptr) => { s with ptr, isClosed := !(checkStreamClosed failure).isOk }

def polling (ptr : List UInt8) (calls : ℕ) (pushed : List (List UInt8)) : FeedThread :=
  ⟨ptr, none, calls, pushed, false⟩

def start (file : List UInt8) : FeedThread := polling file 0 []

section Steps
variable (native : Endian) (Q : DrainingQueue) (ptr : List UInt8) (calls : ℕ)
  (pushed : List (List UInt8))

/-- The feed of the replay takes the steps of this thread. -/
theorem step_polling : step native Q (polling ptr calls pushed) =
      match FeedHandler.poll native ptr with
      | .publishing frame ptr' => ⟨ptr', some frame, calls, pushed, false⟩
      | .spinning => polling ptr calls pushed
      | _ => ⟨ptr, none, calls, pushed, true⟩ := by
  cases h : next native ptr with
  | mk result ptr' =>
    cases result with
    | ok frame => simp [step, polling, FeedHandler.poll, h]
    | error failure =>
      obtain ⟨rfl, -⟩ := next_failed h
      cases failure with
      | invalidFormat => simp [step, polling, FeedHandler.poll, h, checkStreamClosed, Except.isOk,
          Except.toBool]
      | streamClosed => simp [step, polling, FeedHandler.poll, h, checkStreamClosed, Except.isOk,
          Except.toBool]

variable {Q} in
theorem step_publishing {frame : List UInt8} (hfits : frame.length ≤ Q.capacity) :
    step native Q ⟨ptr, some frame, calls, pushed, false⟩ =
      if Q.hasRoom calls then polling ptr (calls + 1) (pushed ++ [frame])
      else ⟨ptr, some frame, calls + 1, pushed, false⟩ := by
  have hsize : ¬ Q.capacity < frame.length := not_lt.mpr hfits
  cases hroom : Q.hasRoom calls with
  | true => simp [step, polling, DrainingQueue.tryPushMany, hsize, hroom]
  | false => simp [step, DrainingQueue.tryPushMany, hsize, hroom]

end Steps

/-! ## Pushing -/

def Runs (native : Endian) (Q : DrainingQueue) (s t : FeedThread) : Prop :=
  ∃ k, (step native Q)^[k] s = t

section Pushing
variable {native : Endian} {Q : DrainingQueue}

theorem Runs.step {s t u : FeedThread} (hstep : FeedThread.step native Q s = t)
    (hruns : Runs native Q t u) : Runs native Q s u := by
  subst hstep
  obtain ⟨k, rfl⟩ := hruns
  exact ⟨k + 1, rfl⟩

theorem Runs.trans {s t u : FeedThread} (hst : Runs native Q s t) (htu : Runs native Q t u) :
    Runs native Q s u := by
  obtain ⟨k, rfl⟩ := hst
  obtain ⟨m, rfl⟩ := htu
  exact ⟨m + k, Function.iterate_add_apply _ m k s⟩

variable (native) (Q) (ptr : List UInt8) (calls : ℕ) (pushed : List (List UInt8))

variable {Q} in
theorem runs_publish {frame : List UInt8} (hfits : frame.length ≤ Q.capacity) {k : ℕ}
    (hroom : Q.hasRoom (calls + k) = true) :
    ∃ calls', Runs native Q ⟨ptr, some frame, calls, pushed, false⟩
      (polling ptr calls' (pushed ++ [frame])) := by
  have hstep := step_publishing native ptr calls pushed hfits
  induction k generalizing calls with
  | zero =>
    have hnow : Q.hasRoom calls = true := hroom
    rw [if_pos hnow] at hstep
    exact ⟨calls + 1, .step hstep ⟨0, rfl⟩⟩
  | succ k ih =>
    split at hstep
    · exact ⟨calls + 1, .step hstep ⟨0, rfl⟩⟩
    · have hlater : Q.hasRoom (calls + 1 + k) = true := by
        rwa [Nat.add_right_comm]
      obtain ⟨calls', hruns⟩ := ih (calls + 1) hlater (step_publishing native ptr _ pushed hfits)
      exact ⟨calls', .step hstep hruns⟩

theorem runs_frame (f : Frame) :
    ∃ calls', Runs native Q (polling (f.bytes ++ ptr) calls pushed)
      (polling ptr calls' (pushed ++ [f.bytes])) := by
  have hstep : step native Q (polling (f.bytes ++ ptr) calls pushed) =
      ⟨ptr, some f.bytes, calls, pushed, false⟩ := by
    simp [step_polling, FeedHandler.poll, next_bytes]
  have hfits : f.bytes.length ≤ Q.capacity := by
    have hbody := f.body_lt
    have hcapacity := Q.fits
    rw [f.bytes_length]
    omega
  obtain ⟨k, hroom⟩ := Q.drains calls
  obtain ⟨calls', hruns⟩ := runs_publish native ptr calls pushed hfits hroom
  exact ⟨calls', .step hstep hruns⟩

theorem runs_wire (frames : List Frame) :
    ∃ calls', Runs native Q (polling (wire frames ++ ptr) calls pushed)
      (polling ptr calls' (pushed ++ frames.map Frame.bytes)) := by
  induction frames generalizing calls pushed with
  | nil => exact ⟨calls, 0, by simp⟩
  | cons f frames ih =>
    obtain ⟨middle, hframe⟩ := runs_frame native Q (wire frames ++ ptr) calls pushed f
    obtain ⟨calls', hframes⟩ := ih middle (pushed ++ [f.bytes])
    refine ⟨calls', ?_⟩
    simpa using hframe.trans hframes

end Pushing

/-! ## The end of the file -/

variable {native : Endian} {Q : DrainingQueue} {rest : List UInt8} {failure : DataReadFailure}

theorem step_closed {s : FeedThread} (h : s.isClosed = true) : step native Q s = s := by
  simp [step, h]

theorem runs_closed (native : Endian) (Q : DrainingQueue) (frames : List Frame) :
    ∃ calls', Runs native Q (start (wire frames))
      ⟨[], none, calls', frames.map Frame.bytes, true⟩ := by
  obtain ⟨calls', hruns⟩ := runs_wire native Q [] 0 [] frames
  have hclose : step native Q (polling [] calls' (frames.map Frame.bytes)) =
      ⟨[], none, calls', frames.map Frame.bytes, true⟩ := by
    simp [step_polling, FeedHandler.poll, next]
  rw [List.append_nil, List.nil_append] at hruns
  exact ⟨calls', hruns.trans (.step hclose ⟨0, rfl⟩)⟩

theorem spins (calls : ℕ) (pushed : List (List UInt8))
    (hfails : next native rest = (.error failure, rest)) (hne : rest ≠ []) :
    step native Q (polling rest calls pushed) = polling rest calls pushed := by
  obtain ⟨-, hfailure⟩ := next_failed hfails
  rw [if_neg hne] at hfailure
  subst hfailure
  simp [step_polling, FeedHandler.poll, hfails]

theorem never_closes {frames : List Frame} (hfails : next native rest = (.error failure, rest))
    (hne : rest ≠ []) (k : ℕ) :
    ((step native Q)^[k] (start (wire frames ++ rest))).isClosed = false := by
  obtain ⟨calls, m, hruns⟩ := runs_wire native Q rest 0 [] frames
  have hspin : step native Q _ = _ := spins calls ([] ++ frames.map Frame.bytes) hfails hne
  have hspins := Function.iterate_fixed hspin k
  by_contra hopen
  have hclosed : ((step native Q)^[k] (start (wire frames ++ rest))).isClosed = true := by
    simpa using hopen
  have hstep : step native Q _ = _ := step_closed hclosed
  have hstays := Function.iterate_fixed hstep m
  -- `k` and `m` steps end in the state that spins, and in a closed one
  rw [← Function.iterate_add_apply, Nat.add_comm, Function.iterate_add_apply] at hstays
  change (step native Q)^[k] ((step native Q)^[m] (polling (wire frames ++ rest) 0 [])) = _
    at hstays
  rw [hruns, hspins] at hstays
  rw [← hstays] at hclosed
  cases hclosed

/-- The loop stops, and has pushed the whole frames at the front of the file in order. -/
def Ends (native : Endian) (Q : DrainingQueue) (file : List UInt8) : Prop :=
  ∃ k, ∃ (frames : List Frame) (rest : List UInt8),
    file = wire frames ++ rest ∧ CutShort rest ∧
    ((step native Q)^[k] (start file)).isClosed = true ∧
    ((step native Q)^[k] (start file)).pushed = frames.map Frame.bytes

theorem ends_iff (native : Endian) (Q : DrainingQueue) (file : List UInt8) :
    Ends native Q file ↔ ∃ frames : List Frame, file = wire frames := by
  constructor
  · rintro ⟨k, -, -, -, -, hclosed, -⟩
    obtain ⟨frames, rest, failure, rfl, hfails⟩ := exists_wire native file
    by_cases hne : rest = []
    · exact ⟨frames, by rw [hne, List.append_nil]⟩
    · rw [never_closes hfails hne k] at hclosed
      cases hclosed
  · rintro ⟨frames, rfl⟩
    obtain ⟨calls, k, hruns⟩ := runs_closed native Q frames
    have hend : next native [] = (.error .streamClosed, []) := by simp [next]
    have hcut : CutShort [] := cutShort_of_failed hend
    refine ⟨k, frames, [], (List.append_nil _).symm, hcut, ?_, ?_⟩
    · rw [hruns]
    · rw [hruns]

/-! ## A download cut short -/

def roomyQueue : DrainingQueue := ⟨2 ^ 20, by decide, fun _ => true, fun _ => ⟨0, rfl⟩⟩

/-- One frame, and one byte of the next length. -/
theorem cutFile_not_ends : ¬ Ends .little roomyQueue (wire [⟨[83], by decide⟩] ++ [0]) := by
  rintro ⟨k, -, -, -, -, hclosed, -⟩
  have hfails : next .little [0] = (.error .invalidFormat, [0]) := rfl
  rw [never_closes hfails (by decide) k] at hclosed
  cases hclosed

end FeedThread
end ItchOrderBook.Feed

import ItchOrderBook.Feed.FeedThread

/-! # Several feed handlers

`publish_queue` is a static of `poll`, so the handlers of one instantiation share the
closure that the first of their polls has made, with the `this` it captured.
-/
namespace ItchOrderBook.Feed
open ByteOrder

/-- The handlers of one instantiation of `FeedHandler`: their sources, what has been pushed
into their queues, and the handler `publish_queue` has captured, if any. -/
structure Handlers (ι S : Type) where
  source : ι → S
  queue : ι → List (List UInt8)
  publishQueue : Option ι

namespace Handlers

variable {ι S : Type} [DecidableEq ι]

def fresh (source : ι → S) (queue : ι → List (List UInt8)) : Handlers ι S :=
  ⟨source, queue, none⟩

section Polls

variable (next : S → Except DataReadFailure (List UInt8) × S)

/-- `FeedHandler::poll` of handler `i`. The loop over `try_push_many` ends with the call
that pushes the frame, and those before it leave the queue as it was. -/
def poll (i : ι) (s : Handlers ι S) : Bool × Handlers ι S :=
  let this := s.publishQueue.getD i
  let source := Function.update s.source i (next (s.source i)).2
  match (next (s.source i)).1 with
  | .ok frame =>
    (true, ⟨source, Function.update s.queue this (s.queue this ++ [frame]), some this⟩)
  | .error failure => ((checkStreamClosed failure).isOk, ⟨source, s.queue, some this⟩)

def polls (run : List ι) (s : Handlers ι S) : Handlers ι S :=
  run.foldl (fun s i => (poll next i s).2) s

def frames (source : S) : List (List UInt8) := (next source).1.toOption.toList

/-- The poll of `i` pushes what its source yields into its queue, and nothing elsewhere. -/
def Isolated (s : Handlers ι S) (i : ι) : Prop :=
  (poll next i s).2.queue i = s.queue i ++ frames next (s.source i) ∧
    ∀ j, j ≠ i → (poll next i s).2.queue j = s.queue j

def RunIsolated (s : Handlers ι S) (run : List ι) : Prop :=
  ∀ earlier i later, run = earlier ++ i :: later → Isolated next (polls next earlier s) i

/-- The source as `calls` calls of `next` leave it. -/
def sourceAfter (calls : ℕ) (source : S) : S := (fun source => (next source).2)^[calls] source

variable {next} {s : Handlers ι S} {i : ι}

@[simp] theorem poll_source (i : ι) (s : Handlers ι S) :
    (poll next i s).2.source = Function.update s.source i (next (s.source i)).2 := by
  unfold poll
  split
  · rfl
  · rfl

@[simp] theorem poll_publishQueue (i : ι) (s : Handlers ι S) :
    (poll next i s).2.publishQueue = some (s.publishQueue.getD i) := by
  unfold poll
  split
  · rfl
  · rfl

theorem isolated_iff :
    Isolated next s i ↔ s.publishQueue.getD i = i ∨ frames next (s.source i) = [] := by
  unfold Isolated frames poll
  cases h : (next (s.source i)).1 with
  | error failure => simp [Except.toOption]
  | ok frame =>
    by_cases hthis : s.publishQueue.getD i = i
    · have hothers : ∀ j, j ≠ i → Function.update s.queue i (s.queue i ++ [frame]) j = s.queue j :=
        fun j hj => Function.update_of_ne hj _ _
      simpa [hthis, Except.toOption] using hothers
    · simp [hthis, Except.toOption, Function.update_of_ne (Ne.symm hthis)]

theorem polls_source (run : List ι) (s : Handlers ι S) (j : ι) :
    (polls next run s).source j = sourceAfter next (run.count j) (s.source j) := by
  induction run generalizing s with
  | nil => rfl
  | cons i run ih =>
    have htail := ih (poll next i s).2
    by_cases hj : j = i
    · subst hj
      simpa [polls, sourceAfter] using htail
    · have hne : ¬ i = j := fun h => hj h.symm
      simpa [polls, sourceAfter, hj, hne] using htail

theorem polls_publishQueue (run : List ι) (s : Handlers ι S) :
    (polls next run s).publishQueue = s.publishQueue.or run.head? := by
  induction run generalizing s with
  | nil => simp [polls]
  | cons i run ih =>
    have htail := ih (poll next i s).2
    cases hthis : s.publishQueue with
    | none => simpa [polls, hthis] using htail
    | some this => simpa [polls, hthis] using htail

end Polls

/-- A run of fresh handlers is isolated if only the handler polled first ever has a frame
to push. -/
theorem runIsolated_iff (next : S → Except DataReadFailure (List UInt8) × S) (source : ι → S)
    (queue : ι → List (List UInt8)) (run : List ι) :
    RunIsolated next (fresh source queue) run ↔
      ∀ earlier i later, run = earlier ++ i :: later →
        run.head? = some i ∨ frames next (sourceAfter next (earlier.count i) (source i)) = [] := by
  unfold RunIsolated
  apply forall₄_congr
  intro earlier i later hrun
  rw [isolated_iff, polls_source, polls_publishQueue, hrun]
  cases earlier with
  | nil => simp [fresh]
  | cons first earlier => simp [fresh]

def oneFrame : List UInt8 := wire [⟨[83], by decide⟩]

/-- The second handler's frame goes into the first handler's queue. -/
theorem secondHandler_not_isolated :
    ¬ RunIsolated (next .little) (fresh (fun _ : Bool => oneFrame) fun _ => []) [false, true] := by
  intro h
  obtain ⟨hown, -⟩ := h [false] true [] rfl
  revert hown
  decide

end Handlers
end ItchOrderBook.Feed

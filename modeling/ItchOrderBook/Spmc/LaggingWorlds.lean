import ItchOrderBook.Spmc.SlotReads
import Mathlib.Data.Finsupp.Multiset

/-! # The queue as each thread sees it

The messages of an index are positions in the sequence of items. The world of the
producer has every item and the read indices as far as the producer has seen them; that
of a consumer has the items up to the last write index it has seen, and the other
consumers out of its way.
-/
namespace ItchOrderBook.Spmc
open AtomicProgram

variable {T : Type} {C : Capacity} {n : ℕ}

/-! ## The indices -/

namespace Atomic

/-- The only thread that stores to it. -/
def owner : Atomic n → Thread n
  | .writeIdx | .isClosed => .producer
  | .readIdx c => .consumer c

/-- How far along the items its last message is. -/
def reached (history : List (QueueEvent T C n)) : Atomic n → ℕ
  | .writeIdx => (pushed history).length
  | .readIdx c => passed c history
  | .isClosed => 0

def Points : (l : Atomic n) → l.Value → ℕ → Prop
  | .writeIdx, value, p => value = UInt64.ofNat p
  | .readIdx _, value, p => value = UInt64.ofNat p
  | .isClosed, _, _ => True

end Atomic

/-- Where along the items each message is. -/
abbrev Positions (n : ℕ) := Atomic n → ℕ → ℕ

/-- The position of the last message of an index that a thread has seen. -/
def SlotMemory.at (m : SlotMemory T C n) (pos : Positions n) (i : Thread n) (l : Atomic n) : ℕ :=
  pos l (m.view i (.inr l))

/-- What the messages and the accesses of the slots have to do with the items. -/
structure Placed (pos : Positions n) (m : SlotMemory T C n) (history : List (QueueEvent T C n)) :
    Prop where
  closed : m.Closed
  value : ∀ l, ∀ k ≤ m.latest l, l.Points (m.message l k).value (pos l k)
  mono : ∀ l k k', k ≤ k' → k' ≤ m.latest l → pos l k ≤ pos l k'
  last : ∀ l, pos l (m.latest l) = l.reached history
  /-- A message is where its index was at some time. -/
  earlier : ∀ l, ∀ k ≤ m.latest l, ∃ before, before <:+ history ∧ pos l k = l.reached before
  own : ∀ l, m.view l.owner (.inr l) = m.latest l
  unwritten : ∀ s c, m.wrote s (.consumer c) = 0
  /-- Whoever does not know of the last write of a slot has no item there yet. -/
  wrote : ∀ s, ∀ k ≤ m.latest .writeIdx,
    m.wrote s .producer ≤ (m.message .writeIdx k).view (.inl .producer) ∨
      ∃ p, pos .writeIdx k ≤ p ∧ C.slotAt p = s ∧
        ∀ c, p < SlotMemory.at m pos .producer (.readIdx c) + C.size
  /-- Whoever does not know of a consumer's last read of a slot has an item there that
  the consumer is not past. -/
  read : ∀ s c, ∀ k ≤ m.latest (.readIdx c),
    m.read s (.consumer c) ≤ (m.message (.readIdx c) k).view (.inl (.consumer c)) ∨
      ∃ p, pos (.readIdx c) k ≤ p ∧ p < (pushed history).length ∧ C.slotAt p = s

structure ProducerLag (pos : Positions n) (m : SlotMemory T C n)
    (history : List (QueueEvent T C n)) (w : QueueWorld T C n) : Prop where
  pushed_eq : pushed w.history = pushed history
  passed_eq : ∀ c, passed c w.history = SlotMemory.at m pos .producer (.readIdx c)
  buffer_eq : w.shared.buffer = m.cell

structure ConsumerLag (pos : Positions n) (m : SlotMemory T C n)
    (history : List (QueueEvent T C n)) (c : Fin (n + 1)) (w : QueueWorld T C n) : Prop where
  pushed_eq : pushed w.history =
    (pushed history).take (SlotMemory.at m pos (.consumer c) .writeIdx)
  passed_eq : passed c w.history = passed c history
  consumed_eq : consumed c w.history = consumed c history

/-- The world is the queue as the thread sees it. -/
def Lags (pos : Positions n) (m : SlotMemory T C n) (history : List (QueueEvent T C n)) :
    Thread n → QueueWorld T C n → Prop
  | .producer, w => ProducerLag pos m history w
  | .consumer c, w => ConsumerLag pos m history c w

structure Fitted (pos : Positions n) (worlds : Thread n → QueueWorld T C n)
    (m : SlotMemory T C n) (history : List (QueueEvent T C n)) : Prop where
  placed : Placed pos m history
  lags : ∀ i, Lags pos m history i (worlds i)

/-! ## Where the threads are -/

section Fitted
variable {pos : Positions n} {m : SlotMemory T C n} {history : List (QueueEvent T C n)}
  {worlds : Thread n → QueueWorld T C n}

theorem Placed.at_le (h : Placed pos m history) (i : Thread n) (l : Atomic n) :
    SlotMemory.at m pos i l ≤ l.reached history :=
  (h.mono l _ _ (h.closed.threads i l).1 le_rfl).trans_eq (h.last l)

theorem Placed.at_owner (h : Placed pos m history) (l : Atomic n) :
    SlotMemory.at m pos l.owner l = l.reached history := by
  rw [SlotMemory.at, h.own l, h.last l]

theorem Lags.pushed_initial {i : Thread n} {w : QueueWorld T C n} (h : Lags pos m history i w) :
    pushed w.history <+: pushed history := by
  cases i with
  | producer => exact ProducerLag.pushed_eq h ▸ List.prefix_rfl
  | consumer c => exact ConsumerLag.pushed_eq h ▸ List.take_prefix _ _

theorem Lags.admissible {i : Thread n} {w : QueueWorld T C n} (h : Lags pos m history i w)
    (hadm : Admissible history) : Admissible w.history :=
  hadm.imp_right h.pushed_initial.length_le.trans_lt

variable (h : Fitted pos worlds m history) (hring : ∀ i, Ring (worlds i))
include h hring

theorem Fitted.order (c : Fin (n + 1)) : passed c history ≤ (pushed history).length := by
  have hlag : ConsumerLag pos m history c (worlds (.consumer c)) := h.lags (.consumer c)
  rw [← hlag.passed_eq]
  exact ((hring (.consumer c)).order c).trans (h.lags (.consumer c)).pushed_initial.length_le

theorem Fitted.room (c : Fin (n + 1)) :
    (pushed history).length ≤ SlotMemory.at m pos .producer (.readIdx c) + C.size := by
  have hlag : ProducerLag pos m history (worlds .producer) := h.lags .producer
  rw [← hlag.passed_eq c, ← hlag.pushed_eq]
  exact (hring .producer).room c

theorem Fitted.window (c : Fin (n + 1)) (p : ℕ) (hlo : passed c history ≤ p)
    (hhi : p < (pushed history).length) :
    (pushed history)[p]? = some (m.cell (C.slotAt p)) := by
  have hlag : ProducerLag pos m history (worlds .producer) := h.lags .producer
  have hat := h.placed.at_le .producer (.readIdx c)
  rw [← hlag.buffer_eq, ← hlag.pushed_eq]
  refine (hring .producer).window c p ?_ (hlag.pushed_eq ▸ hhi)
  rw [hlag.passed_eq c]
  exact hat.trans hlo

end Fitted

/-! ## Moves of the other threads -/

/-- The consumer moves past one more item. -/
def passing (c : Fin (n + 1)) : QueueEvent T C n :=
  .act (.consumer c) .tryPop (.storeReadIdx c 0) ()

section Passing
variable (cs : List (Fin (n + 1))) (history : List (QueueEvent T C n))

theorem pushed_passing : pushed (cs.map passing ++ history) = pushed history := by
  induction cs with
  | nil => rfl
  | cons c cs ih => exact ih

theorem consumed_passing (c : Fin (n + 1)) :
    consumed c (cs.map passing ++ history) = consumed c history := by
  induction cs with
  | nil => rfl
  | cons d cs ih => exact ih

theorem callStart_passing (i : Thread n) :
    callStart i (cs.map passing ++ history) = callStart i history := by
  induction cs with
  | nil => rfl
  | cons d cs ih => exact ih

theorem passed_passing (c : Fin (n + 1)) :
    passed c (cs.map passing ++ history) = passed c history + cs.count c := by
  induction cs with
  | nil => rfl
  | cons d cs ih =>
    have hcons : passed c ((d :: cs).map passing ++ history) =
        if d = c then passed c (cs.map passing ++ history) + 1
        else passed c (cs.map passing ++ history) := rfl
    rw [hcons, ih]
    by_cases hd : d = c
    · subst hd
      rw [if_pos rfl, List.count_cons_self, Nat.add_assoc]
    · rw [if_neg hd, List.count_cons_of_ne hd]

end Passing

/-- The others may have pushed these items and moved the read indices there. -/
theorem exists_history (history : List (QueueEvent T C n)) (items : List T)
    (reads : Fin (n + 1) → ℕ) (hreads : ∀ c, passed c history ≤ reads c) :
    ∃ later, pushed later = pushed history ++ items ∧ (∀ c, passed c later = reads c) ∧
      (∀ c, consumed c later = consumed c history) ∧
      ∀ i, callStart i later = callStart i history := by
  let moves : Fin (n + 1) →₀ ℕ := Finsupp.equivFunOnFinite.symm fun c => reads c - passed c history
  let cs := moves.toMultiset.toList
  have hcount : ∀ c, cs.count c = reads c - passed c history := by
    intro c
    rw [← Multiset.coe_count, Multiset.coe_toList, Finsupp.count_toMultiset]
    rfl
  let pushing : QueueEvent T C n := .act .producer (.tryPushMany items) (.storeWriteIdx 0) ()
  refine ⟨cs.map passing ++ pushing :: history, ?_, fun c => ?_, fun c => ?_, fun i => ?_⟩
  · rw [pushed_passing]
    rfl
  · rw [passed_passing, hcount]
    exact Nat.add_sub_cancel' (hreads c)
  · rw [consumed_passing]
    rfl
  · rw [callStart_passing]
    rfl

/-- The world after the others have moved the read indices to `reads` and pushed `items`. -/
theorem exists_later {w : QueueWorld T C n} (hring : Ring w) (items : List T)
    (reads : Fin (n + 1) → ℕ) (buffer : Fin C.size → T) (isClosed : Bool)
    (hreads : ∀ c, passed c w.history ≤ reads c)
    (horder : ∀ c, reads c ≤ (pushed w.history ++ items).length)
    (hroom : ∀ c, (pushed w.history ++ items).length ≤ reads c + C.size)
    (hwindow : ∀ c p, reads c ≤ p → p < (pushed w.history ++ items).length →
      (pushed w.history ++ items)[p]? = some (buffer (C.slotAt p))) :
    ∃ w', Ring w' ∧ pushed w'.history = pushed w.history ++ items ∧
      (∀ c, passed c w'.history = reads c) ∧
      (∀ c, consumed c w'.history = consumed c w.history) ∧
      (∀ i, callStart i w'.history = callStart i w.history) ∧
      w'.shared.buffer = buffer ∧ w'.shared.isClosed = isClosed := by
  obtain ⟨later, hpushed, hpassed, hconsumed, hstart⟩ :=
    exists_history w.history items reads hreads
  let shared : RingBuffer T C n := ⟨isClosed, buffer, UInt64.ofNat (pushed later).length,
    fun c => UInt64.ofNat (passed c later)⟩
  refine ⟨⟨later, shared⟩, ⟨rfl, fun _ => rfl, ?_, ?_, ?_, ?_⟩, hpushed, hpassed, hconsumed,
    hstart, rfl, rfl⟩
  · intro c
    rw [hpushed, hpassed c]
    exact horder c
  · intro c
    rw [hpushed, hpassed c]
    exact hroom c
  · intro c p hlo hhi
    rw [hpushed] at hhi ⊢
    rw [hpassed c] at hlo
    exact hwindow c p hlo hhi
  · intro c
    rw [hpushed, hpassed c, hconsumed c]
    obtain ⟨hlength, hprefix⟩ := hring.logged c
    exact ⟨hlength.trans (hreads c), hprefix.mono (List.prefix_append _ _)⟩

section CatchUp
variable {pos : Positions n} {m m' : SlotMemory T C n} {history : List (QueueEvent T C n)}
  {worlds : Thread n → QueueWorld T C n} {i : Thread n}

theorem Placed.at_mono (h : Placed pos m history) (hadvances : Memory.Advances i m m')
    (j : Thread n) (l : Atomic n) : SlotMemory.at m pos j l ≤ SlotMemory.at m' pos j l := by
  by_cases hj : j = i
  · subst hj
    have hseen := (hadvances.closed.threads j l).1
    rw [hadvances.latest_eq] at hseen
    exact h.mono l _ _ (hadvances.grows _) hseen
  · rw [SlotMemory.at, SlotMemory.at, hadvances.others_eq j hj]

theorem Placed.at_le_last (h : Placed pos m history) (hadvances : Memory.Advances i m m')
    (j : Thread n) (l : Atomic n) : SlotMemory.at m' pos j l ≤ l.reached history := by
  have hseen := (hadvances.closed.threads j l).1
  rw [hadvances.latest_eq] at hseen
  exact (h.mono l _ _ hseen le_rfl).trans_eq (h.last l)

/-- A thread's world has as many items as the write index it has seen says. -/
theorem Placed.pushed_length (h : Placed pos m history) (hadvances : Memory.Advances i m m')
    {w : QueueWorld T C n} (hlags : Lags pos m' history i w) :
    (pushed w.history).length = SlotMemory.at m' pos i .writeIdx := by
  have hlast : SlotMemory.at m' pos i .writeIdx ≤ (pushed history).length :=
    h.at_le_last hadvances i .writeIdx
  cases i with
  | producer =>
    rw [ProducerLag.pushed_eq hlags]
    exact ((h.at_owner .writeIdx).ge.trans (h.at_mono hadvances _ _)).antisymm hlast
  | consumer c =>
    rw [ConsumerLag.pushed_eq hlags, List.length_take]
    exact min_eq_left hlast

variable (h : Fitted pos worlds m history) (hring : ∀ i, Ring (worlds i)) (isClosed : Bool)
include h hring

theorem Fitted.producer_catches_up (hadvances : Memory.Advances .producer m m')
    (hcell : m'.cell = m.cell) :
    ∃ w, ProducerRely (worlds .producer) w ∧ Ring w ∧ ProducerLag pos m' history w ∧
      w.shared.isClosed = isClosed ∧ w.shared.buffer = m.cell := by
  have hlag : ProducerLag pos m history (worlds .producer) := h.lags .producer
  have hmono := h.placed.at_mono hadvances .producer
  let reads c := SlotMemory.at m' pos .producer (.readIdx c)
  have hpassed : ∀ c, passed c (worlds .producer).history ≤ reads c :=
    fun c => (hlag.passed_eq c).le.trans (hmono _)
  have hitems : pushed (worlds .producer).history ++ [] = pushed history := by
    rw [List.append_nil, hlag.pushed_eq]
  have horder : ∀ c, reads c ≤ (pushed history).length :=
    fun c => (h.placed.at_le_last hadvances _ (.readIdx c)).trans (h.order hring c)
  have hroom : ∀ c, (pushed history).length ≤ reads c + C.size :=
    fun c => (h.room hring c).trans (Nat.add_le_add_right (hmono _) _)
  have hwindow : ∀ c p, reads c ≤ p → p < (pushed history).length →
      (pushed history)[p]? = some (m.cell (C.slotAt p)) := by
    intro c p hlo hhi
    rw [← hlag.pushed_eq, ← hlag.buffer_eq]
    exact (hring .producer).window c p ((hpassed c).trans hlo) (hlag.pushed_eq ▸ hhi)
  rw [← hitems] at horder hroom hwindow
  obtain ⟨w, hw, hpushed, hreads, -, hstart, hbuffer, hclosed⟩ :=
    exists_later (hring .producer) [] reads m.cell isClosed hpassed horder hroom hwindow
  rw [List.append_nil] at hpushed
  refine ⟨w, ⟨hpushed, fun c => (hpassed c).trans_eq (hreads c).symm,
    hbuffer.trans hlag.buffer_eq.symm, hstart _⟩, hw, ⟨hpushed.trans hlag.pushed_eq, hreads, ?_⟩,
    hclosed, hbuffer⟩
  rw [hcell, hbuffer]

theorem Fitted.consumer_catches_up {c : Fin (n + 1)}
    (hadvances : Memory.Advances (.consumer c) m m') :
    ∃ w, ConsumerRely c (worlds (.consumer c)) w ∧ Ring w ∧ ConsumerLag pos m' history c w ∧
      w.shared.isClosed = isClosed ∧ w.shared.buffer = m.cell := by
  have hlag : ConsumerLag pos m history c (worlds (.consumer c)) := h.lags (.consumer c)
  have hown := hring (.consumer c)
  let known := (pushed history).take (SlotMemory.at m' pos (.consumer c) .writeIdx)
  have hknown : known <+: pushed history := List.take_prefix _ _
  obtain ⟨items, hitems⟩ : pushed (worlds (.consumer c)).history <+: known := by
    rw [hlag.pushed_eq]
    exact List.take_prefix_take_left (h.placed.at_mono hadvances _ _)
  have hgrown : (pushed (worlds (.consumer c)).history).length ≤ known.length := by
    rw [← hitems]
    exact (List.prefix_append _ _).length_le
  -- the other consumers are past all the items, whether they have been or not
  let reads d := if d = c then passed c history else known.length
  have hself : reads c = passed c history := if_pos rfl
  have hothers : ∀ d ≠ c, reads d = known.length := fun d hd => if_neg hd
  have hpassed : ∀ d, passed d (worlds (.consumer c)).history ≤ reads d := by
    intro d
    by_cases hd : d = c
    · rw [hd, hself, hlag.passed_eq]
    · rw [hothers d hd]
      exact (hown.order d).trans hgrown
  have horder : ∀ d, reads d ≤ known.length := by
    intro d
    by_cases hd : d = c
    · rw [hd, hself, ← hlag.passed_eq]
      exact (hown.order c).trans hgrown
    · rw [hothers d hd]
  have hroom : ∀ d, known.length ≤ reads d + C.size := by
    intro d
    by_cases hd : d = c
    · rw [hd, hself]
      have hat := h.placed.at_le .producer (.readIdx c)
      exact hknown.length_le.trans ((h.room hring c).trans (Nat.add_le_add_right hat _))
    · rw [hothers d hd]
      exact Nat.le_add_right _ _
  have hwindow : ∀ d p, reads d ≤ p → p < known.length →
      known[p]? = some (m.cell (C.slotAt p)) := by
    intro d p hlo hhi
    by_cases hd : d = c
    · rw [hd, hself] at hlo
      obtain ⟨rest, hrest⟩ := hknown
      rw [← h.window hring c p hlo (hhi.trans_le (List.take_prefix _ _).length_le), ← hrest,
        List.getElem?_append_left hhi]
    · rw [hothers d hd] at hlo
      omega
  rw [← hitems] at horder hroom hwindow
  obtain ⟨w, hw, hpushed, hreads, hconsumed, hstart, hbuffer, hclosed⟩ :=
    exists_later hown items reads m.cell isClosed hpassed horder hroom hwindow
  refine ⟨w, ⟨hpushed ▸ List.prefix_append _ _, ?_, hconsumed c, hstart _⟩, hw,
    ⟨hpushed.trans hitems, ?_, ?_⟩, hclosed, hbuffer⟩
  · rw [hreads c, hself, hlag.passed_eq]
  · rw [hreads c, hself]
  · rw [hconsumed c, hlag.consumed_eq]

/-- What a thread has learned about the others, they may have done in its own world. -/
theorem Fitted.catch_up (hadvances : Memory.Advances i m m') (hcell : m'.cell = m.cell) :
    ∃ w, (discipline T C n).rely i (worlds i) w ∧ Ring w ∧ Lags pos m' history i w ∧
      w.shared.isClosed = isClosed ∧ w.shared.buffer = m.cell := by
  cases i with
  | producer => exact h.producer_catches_up hring isClosed hadvances hcell
  | consumer c => exact h.consumer_catches_up hring isClosed hadvances

end CatchUp

end ItchOrderBook.Spmc

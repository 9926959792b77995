import ItchOrderBook.Spmc.LaggingWorlds

/-! # Following the queue in the worlds of its threads

Each access, with the orders of the source, is one the thread's own world can follow: a
load lets it catch up, a store adds a position, and a slot is written or read only where
the others leave it alone.
-/
namespace ItchOrderBook.Spmc
open AtomicProgram

variable {T : Type} {C : Capacity} {n : ℕ}

/-! ## What one step leaves to the other threads -/

structure OthersKeep (i : Thread n) (history later : List (QueueEvent T C n)) : Prop where
  pushed_grows : pushed history <+: pushed later
  pushed_eq : i ≠ .producer → pushed later = pushed history
  passed_le : ∀ c, passed c history ≤ passed c later
  passed_eq : ∀ c, i ≠ .consumer c → passed c later = passed c history
  consumed_eq : ∀ c, i ≠ .consumer c → consumed c later = consumed c history

section Events
variable (i : Thread n) (call : i.Call T) (history : List (QueueEvent T C n))

theorem othersKeep_start : OthersKeep i history (.start i call :: history) :=
  ⟨List.prefix_rfl, fun _ => rfl, fun _ => le_rfl, fun _ _ => rfl, fun _ _ => rfl⟩

theorem othersKeep_finish (result : i.Ret T) :
    OthersKeep i history (.finish i call result :: history) := by
  refine ⟨List.prefix_rfl, fun _ => rfl, fun _ => le_rfl, fun _ _ => rfl, fun c hc => ?_⟩
  cases i with
  | producer => rfl
  | consumer d => exact if_neg fun h => hc (congrArg _ h)

theorem othersKeep_act (a : Access T C n) (result : a.Result) :
    OthersKeep i history (.act i call a result :: history) := by
  refine ⟨pushed_cons _ _, fun hi => ?_, fun c => ?_, fun c hc => ?_, fun c hc => ?_⟩
  · cases i with
    | producer => exact absurd rfl hi
    | consumer d => rfl
  · cases i with
    | producer => cases a <;> exact le_rfl
    | consumer d =>
      cases a with
      | storeReadIdx e value =>
        change _ ≤ if d = c then _ else _
        split
        · exact Nat.le_add_right _ _
        · exact le_rfl
      | _ => exact le_rfl
  · cases i with
    | producer => cases a <;> rfl
    | consumer d =>
      cases a with
      | storeReadIdx e value => exact if_neg fun h => hc (congrArg _ h)
      | _ => rfl
  · cases i <;> cases a <;> rfl

end Events

section Moves
variable {pos pos' : Positions n} {m m' : SlotMemory T C n} {history later : List (QueueEvent T C n)}
  {worlds : Thread n → QueueWorld T C n} {i : Thread n}

/-- A thread that has not moved sees the queue as before. -/
theorem Lags.other {j : Thread n} {w : QueueWorld T C n} (h : Lags pos m history j w)
    (hplaced : Placed pos m history) (hj : j ≠ i) (hkeep : OthersKeep i history later)
    (hview : m'.view j = m.view j) (hcell : i ≠ .producer → m'.cell = m.cell)
    (hpos : ∀ l, ∀ k ≤ m.latest l, pos' l k = pos l k) : Lags pos' m' later j w := by
  have hat : ∀ l, SlotMemory.at m' pos' j l = SlotMemory.at m pos j l := by
    intro l
    rw [SlotMemory.at, SlotMemory.at, hview, hpos l _ (hplaced.closed.threads j l).1]
  cases j with
  | producer =>
    have h : ProducerLag pos m history w := h
    refine ⟨h.pushed_eq.trans (hkeep.pushed_eq hj.symm).symm, fun c => ?_, ?_⟩
    · rw [hat, h.passed_eq c]
    · rw [hcell hj.symm, h.buffer_eq]
  | consumer c =>
    have h : ConsumerLag pos m history c w := h
    refine ⟨?_, h.passed_eq.trans (hkeep.passed_eq c hj.symm).symm,
      h.consumed_eq.trans (hkeep.consumed_eq c hj.symm).symm⟩
    obtain ⟨rest, hrest⟩ := hkeep.pushed_grows
    have hle : SlotMemory.at m pos (.consumer c) .writeIdx ≤ (pushed history).length :=
      hplaced.at_le (.consumer c) .writeIdx
    rw [hat, h.pushed_eq, ← hrest, List.take_append_of_le_length hle]

theorem Fitted.move (h : Fitted pos worlds m history) (hplaced : Placed pos' m' later)
    {w : QueueWorld T C n} (hlags : Lags pos' m' later i w) (hkeep : OthersKeep i history later)
    (hview : ∀ j ≠ i, m'.view j = m.view j) (hcell : i ≠ .producer → m'.cell = m.cell)
    (hpos : ∀ l, ∀ k ≤ m.latest l, pos' l k = pos l k) :
    Fitted pos' (Function.update worlds i w) m' later where
  placed := hplaced
  lags j := by
    by_cases hj : j = i
    · subst hj
      rwa [Function.update_self]
    · rw [Function.update_of_ne hj]
      exact (h.lags j).other h.placed hj hkeep (hview j hj) hcell hpos

/-! ## Steps that store no index -/

theorem Placed.advances (h : Placed pos m history) (hadvances : Memory.Advances i m m')
    (hlater : history <:+ later)
    (hreached : ∀ l, Atomic.reached later l = Atomic.reached history l)
    (hwrote : ∀ s, m'.wrote s .producer = m.wrote s .producer ∨
      ∃ p, (pushed history).length ≤ p ∧ C.slotAt p = s ∧
        ∀ c, p < SlotMemory.at m pos .producer (.readIdx c) + C.size)
    (hunwritten : ∀ s c, m'.wrote s (.consumer c) = m.wrote s (.consumer c))
    (hread : ∀ s c, m'.read s (.consumer c) = m.read s (.consumer c) ∨
      ∃ p, passed c history ≤ p ∧ p < (pushed history).length ∧ C.slotAt p = s) :
    Placed pos m' later where
  closed := hadvances.closed
  value := by
    rw [hadvances.message_eq, hadvances.latest_eq]
    exact h.value
  mono := by
    rw [hadvances.latest_eq]
    exact h.mono
  last l := by
    rw [hadvances.latest_eq, hreached]
    exact h.last l
  earlier l k hk := by
    rw [hadvances.latest_eq] at hk
    obtain ⟨before, hbefore, hpos⟩ := h.earlier l k hk
    exact ⟨before, hbefore.trans hlater, hpos⟩
  own l := hadvances.own (h.own l)
  unwritten s c := (hunwritten s c).trans (h.unwritten s c)
  wrote s k hk := by
    have hroom : ∀ {p : ℕ}, (∀ c, p < SlotMemory.at m pos .producer (.readIdx c) + C.size) →
        ∀ c, p < SlotMemory.at m' pos .producer (.readIdx c) + C.size :=
      fun hp c => (hp c).trans_le (Nat.add_le_add_right (h.at_mono hadvances _ _) _)
    rw [hadvances.latest_eq] at hk
    rw [hadvances.message_eq]
    rcases hwrote s with hold | ⟨p, hlo, hs, hhi⟩
    · rw [hold]
      exact (h.wrote s k hk).imp_right fun ⟨p, hlo, hs, hhi⟩ => ⟨p, hlo, hs, hroom hhi⟩
    · have hpos := (h.mono .writeIdx k _ hk le_rfl).trans_eq (h.last .writeIdx)
      exact .inr ⟨p, hpos.trans hlo, hs, hroom hhi⟩
  read s c k hk := by
    have hpushed : (pushed later).length = (pushed history).length := hreached .writeIdx
    rw [hadvances.latest_eq] at hk
    rw [hadvances.message_eq, hpushed]
    rcases hread s c with hold | ⟨p, hlo, hhi, hs⟩
    · rw [hold]
      exact h.read s c k hk
    · have hpos := (h.mono (.readIdx c) k _ hk le_rfl).trans_eq (h.last (.readIdx c))
      exact .inr ⟨p, hpos.trans hlo, hhi, hs⟩

/-! ## Stores -/

/-- The positions with the message stored last. -/
def Positions.push (pos : Positions n) (m : SlotMemory T C n) (l : Atomic n) (p : ℕ) :
    Positions n :=
  Function.update pos l (Function.update (pos l) (m.latest l + 1) p)

theorem Positions.push_old {l l' : Atomic n} {k p : ℕ} (hk : k ≤ m.latest l') :
    pos.push m l p l' k = pos l' k := by
  by_cases hl : l' = l
  · subst hl
    simp [push, show k ≠ m.latest l' + 1 by omega]
  · simp [push, hl]

theorem Positions.push_new {l : Atomic n} {p : ℕ} : pos.push m l p l (m.latest l + 1) = p := by
  simp [push]

/-- A store is news to its own thread only. -/
theorem Placed.at_stores (h : Placed pos m history) (l : Atomic n) {value : l.Value} {p : ℕ}
    (hstores : Memory.Stores l.owner l value m m') {j : Thread n} {l' : Atomic n}
    (hnews : j ≠ l.owner ∨ l' ≠ l) :
    SlotMemory.at m' (pos.push m l p) j l' = SlotMemory.at m pos j l' := by
  have hsame : m'.view j (.inr l') = m.view j (.inr l') := by
    by_cases hj : j = l.owner
    · subst hj
      exact hstores.fronts_eq l' (hnews.resolve_left (not_not.mpr rfl))
    · rw [hstores.others_eq j hj]
  rw [SlotMemory.at, SlotMemory.at, hsame, Positions.push_old (h.closed.threads j l').1]

theorem Atomic.news_readIdx (l : Atomic n) (c : Fin (n + 1)) :
    Thread.producer ≠ l.owner ∨ Atomic.readIdx c ≠ l := by
  cases l with
  | readIdx d => exact .inl (by simp [owner])
  | _ => exact .inr (by simp)

theorem Placed.stores (h : Placed pos m history) (l : Atomic n) {value : l.Value}
    (hstores : Memory.Stores l.owner l value m m') (hwrote : m'.wrote = m.wrote)
    (hread : m'.read = m.read) (hlater : history <:+ later)
    (hle : Atomic.reached history l ≤ Atomic.reached later l)
    (hreached : ∀ l' ≠ l, Atomic.reached later l' = Atomic.reached history l')
    (hvalue : l.Points value (Atomic.reached later l)) :
    Placed (pos.push m l (Atomic.reached later l)) m' later := by
  have hclosed := hstores.closed h.closed hwrote hread
  have hgrown : (pushed history).length ≤ (pushed later).length := by
    by_cases hl : Atomic.writeIdx = l
    · subst hl
      exact hle
    · exact (hreached _ hl).ge
  have hself : m'.latest l = m.latest l + 1 := by
    rw [hstores.latest_eq, Function.update_self]
  constructor
  · exact hclosed
  · intro l' k hk
    rcases hstores.cases_message hk with hold | ⟨rfl, rfl⟩
    · rw [hstores.old l' k hold, Positions.push_old hold]
      exact h.value l' k hold
    · rw [hstores.new, Positions.push_new]
      exact hvalue
  · intro l' k k' hkk hk'
    rcases hstores.cases_message hk' with hold | ⟨rfl, rfl⟩
    · rw [Positions.push_old hold, Positions.push_old (hkk.trans hold)]
      exact h.mono l' k k' hkk hold
    · rcases Nat.le_or_eq_of_le_succ hkk with hk | rfl
      · rw [Positions.push_old hk, Positions.push_new]
        exact ((h.mono _ _ _ hk le_rfl).trans_eq (h.last _)).trans hle
      · exact le_rfl
  · intro l'
    by_cases hl : l' = l
    · subst hl
      rw [hself, Positions.push_new]
    · have hsame : m'.latest l' = m.latest l' := by
        rw [hstores.latest_eq, Function.update_of_ne hl]
      rw [hsame, Positions.push_old le_rfl, hreached l' hl]
      exact h.last l'
  · intro l' k hk
    rcases hstores.cases_message hk with hold | ⟨rfl, rfl⟩
    · rw [Positions.push_old hold]
      obtain ⟨before, hbefore, hpos⟩ := h.earlier l' k hold
      exact ⟨before, hbefore.trans hlater, hpos⟩
    · rw [Positions.push_new]
      exact ⟨later, List.suffix_rfl, rfl⟩
  · intro l'
    by_cases hl : l' = l
    · subst hl
      rw [hself, hstores.front]
    · have hsame : m'.latest l' = m.latest l' := by
        rw [hstores.latest_eq, Function.update_of_ne hl]
      rw [hsame]
      by_cases howner : l'.owner = l.owner
      · rw [howner, hstores.fronts_eq l' hl, ← howner]
        exact h.own l'
      · rw [hstores.others_eq _ howner]
        exact h.own l'
  · rw [hwrote]
    exact h.unwritten
  · intro s k hk
    rcases hstores.cases_message hk with hold | ⟨rfl, rfl⟩
    · rw [hwrote, hstores.old _ k hold, Positions.push_old hold]
      refine (h.wrote s k hold).imp_right fun ⟨p, hlo, hs, hhi⟩ => ⟨p, hlo, hs, fun c => ?_⟩
      rw [h.at_stores l hstores (l.news_readIdx c)]
      exact hhi c
    · rw [hstores.new]
      exact .inl (hclosed.wrote_le s .producer)
  · intro s c k hk
    rcases hstores.cases_message hk with hold | ⟨rfl, rfl⟩
    · rw [hread, hstores.old _ k hold, Positions.push_old hold]
      refine (h.read s c k hold).imp_right fun ⟨p, hlo, hhi, hs⟩ => ⟨p, hlo, ?_, hs⟩
      exact hhi.trans_le hgrown
    · rw [hstores.new]
      exact .inl (hclosed.read_le s _)

end Moves

/-! ## Each access -/

structure SameItems (history later : List (QueueEvent T C n)) : Prop where
  pushed_eq : pushed later = pushed history
  passed_eq : ∀ c, passed c later = passed c history
  consumed_eq : ∀ c, consumed c later = consumed c history

theorem SameItems.reached_eq {history later : List (QueueEvent T C n)}
    (h : SameItems history later) (l : Atomic n) :
    Atomic.reached later l = Atomic.reached history l := by
  cases l with
  | writeIdx => exact congrArg List.length h.pushed_eq
  | readIdx c => exact h.passed_eq c
  | isClosed => rfl

theorem sameItems_load {a : Access T C n} (ha : a.IsLoad) (i : Thread n) (call : i.Call T)
    (result : a.Result) (history : List (QueueEvent T C n)) :
    SameItems history (.act i call a result :: history) := by
  cases i <;> cases a <;>
    first
    | exact ha.elim
    | exact ⟨rfl, fun _ => rfl, fun _ => rfl⟩

section Accesses
variable {pos : Positions n} {m m' : SlotMemory T C n} {history later : List (QueueEvent T C n)}
  {worlds : Thread n → QueueWorld T C n} {i : Thread n} {call : i.Call T} {a : Access T C n}
  {w : QueueWorld T C n}

theorem Lags.of_same {w' : QueueWorld T C n} (h : Lags pos m history i w)
    (hlater : SameItems history later) (hworld : SameItems w.history w'.history)
    (hbuffer : w'.shared.buffer = w.shared.buffer) : Lags pos m later i w' := by
  cases i with
  | producer =>
    have h : ProducerLag pos m history w := h
    exact ⟨(hworld.pushed_eq.trans h.pushed_eq).trans hlater.pushed_eq.symm,
      fun c => (hworld.passed_eq c).trans (h.passed_eq c), hbuffer.trans h.buffer_eq⟩
  | consumer c =>
    have h : ConsumerLag pos m history c w := h
    refine ⟨?_, ?_, ?_⟩
    · rw [hworld.pushed_eq, hlater.pushed_eq, h.pushed_eq]
    · rw [hworld.passed_eq, hlater.passed_eq, h.passed_eq]
    · rw [hworld.consumed_eq, hlater.consumed_eq, h.consumed_eq]

/-- A load lets its thread learn, and returns the position it then knows of. -/
theorem Placed.load_advances (h : Placed pos m history) (ha : a.IsLoad)
    (hmay : MayAccess i call a w) :
    Memory.Advances i m (Access.perform .source (i, a) m).2 ∧
      (Access.perform .source (i, a) m).2.cell = m.cell ∧
      (Access.perform .source (i, a) m).2.wrote = m.wrote := by
  cases i with
  | producer =>
    cases a with
    | loadWriteIdx => exact ⟨(h.closed.load_own _ _ (h.own .writeIdx)).1, rfl, rfl⟩
    | loadReadIdx c => exact ⟨(h.closed.load_acquires _ _).1, rfl, rfl⟩
    | loadIsClosed => exact ⟨(h.closed.load_acquires _ _).1, rfl, rfl⟩
    | readSlot s => exact ⟨h.closed.readCell _ _, rfl, rfl⟩
    | _ => exact ha.elim
  | consumer c =>
    cases a with
    | loadWriteIdx => exact ⟨(h.closed.load_acquires _ _).1, rfl, rfl⟩
    | loadReadIdx d =>
      obtain rfl : d = c := hmay
      exact ⟨(h.closed.load_own _ _ (h.own (.readIdx d))).1, rfl, rfl⟩
    | loadIsClosed => exact ⟨(h.closed.load_acquires _ _).1, rfl, rfl⟩
    | readSlot s => exact ⟨h.closed.readCell _ _, rfl, rfl⟩
    | _ => exact ha.elim

/-- What is loaded is the position the thread then knows of. -/
theorem Placed.points (h : Placed pos m history) (hadvances : Memory.Advances i m m')
    (l : Atomic n) :
    l.Points (m.message l (m'.view i (.inr l))).value (SlotMemory.at m' pos i l) := by
  have hseen := (hadvances.closed.threads i l).1
  rw [hadvances.latest_eq] at hseen
  exact h.value l _ hseen

theorem Placed.load_result (h : Placed pos m history) (ha : a.IsLoad) (hmay : MayAccess i call a w)
    (hring : Ring w) (hlags : Lags pos (Access.perform .source (i, a) m).2 history i w)
    (hclosed : w.shared.isClosed = (m.load true i Atomic.isClosed).1)
    (hbuffer : w.shared.buffer = m.cell) :
    (a.exec w.shared).1 = (Access.perform .source (i, a) m).1 := by
  obtain ⟨hadvances, -, -⟩ := h.load_advances ha hmay
  have hwrite := h.points hadvances .writeIdx
  have hread := fun c => h.points hadvances (.readIdx c)
  have hlength : w.shared.writeIdx = _ := hring.write.trans
    ((congrArg UInt64.ofNat (h.pushed_length hadvances hlags)).trans hwrite.symm)
  cases i with
  | producer =>
    have hlag : ProducerLag pos _ history w := hlags
    cases a with
    | loadWriteIdx =>
      exact hlength.trans (h.closed.load_own _ _ (h.own .writeIdx)).2.symm
    | loadReadIdx c =>
      have hvalue : w.shared.readIdx c = _ := (hring.read c).trans
        ((congrArg UInt64.ofNat (hlag.passed_eq c)).trans (hread c).symm)
      exact hvalue.trans (h.closed.load_acquires _ _).2.symm
    | loadIsClosed => exact hclosed
    | readSlot s => exact congrFun hbuffer s
    | _ => exact ha.elim
  | consumer c =>
    have hlag : ConsumerLag pos _ history c w := hlags
    cases a with
    | loadWriteIdx => exact hlength.trans (h.closed.load_acquires _ _).2.symm
    | loadReadIdx d =>
      obtain rfl : d = c := hmay
      have hown : SlotMemory.at _ pos (.consumer d) (.readIdx d) = passed d history :=
        (h.at_le_last hadvances _ (.readIdx d)).antisymm
          ((h.at_owner (.readIdx d)).ge.trans (h.at_mono hadvances _ _))
      have hvalue : w.shared.readIdx d = _ := (hring.read d).trans
        ((congrArg UInt64.ofNat (hlag.passed_eq.trans hown.symm)).trans (hread d).symm)
      exact hvalue.trans (h.closed.load_own _ _ (h.own (.readIdx d))).2.symm
    | loadIsClosed => exact hclosed
    | readSlot s => exact congrFun hbuffer s
    | _ => exact ha.elim

/-- The last read of a slot is of an item in the window, or an old one. -/
theorem Placed.load_read (ha : a.IsLoad) (hmay : MayAccess i call a w)
    (hlags : Lags pos m' history i w) (s : Fin C.size) (c : Fin (n + 1)) :
    (Access.perform .source (i, a) m).2.read s (.consumer c) = m.read s (.consumer c) ∨
      ∃ p, passed c history ≤ p ∧ p < (pushed history).length ∧ C.slotAt p = s := by
  cases a with
  | readSlot s' =>
    by_cases hs : s = s' ∧ i = .consumer c
    · obtain ⟨rfl, rfl⟩ := hs
      obtain ⟨p, hlo, hhi, hp⟩ := hmay
      rw [ConsumerLag.passed_eq hlags] at hlo
      exact .inr ⟨p, hlo, hhi.trans_le hlags.pushed_initial.length_le, hp⟩
    · have hold : (m.readCell i s').2.read s (.consumer c) = m.read s (.consumer c) := by
        simp only [Memory.readCell, Function.update_apply]
        grind
      cases i <;> exact .inl hold
  | loadWriteIdx => cases i <;> exact .inl rfl
  | loadReadIdx d => cases i <;> exact .inl rfl
  | loadIsClosed => cases i <;> exact .inl rfl
  | _ => exact ha.elim

/-- The thread's own world can follow the access. -/
def Follows (worlds : Thread n → QueueWorld T C n) (m : SlotMemory T C n)
    (history : List (QueueEvent T C n)) (i : Thread n) (call : i.Call T) (a : Access T C n) : Prop :=
  ∃ w, (discipline T C n).rely i (worlds i) w ∧ Ring w ∧ pushed w.history <+: pushed history ∧
    (a.exec w.shared).1 = (Access.perform .source (i, a) m).1 ∧
    pushed ((queue T C n).act w i call a).history <+:
      pushed (.act i call a (Access.perform .source (i, a) m).1 :: history) ∧
    ((accessDiscipline T C n).before i call a w → Ring ((queue T C n).act w i call a) →
      ∃ pos, Fitted pos (Function.update worlds i ((queue T C n).act w i call a))
        (Access.perform .source (i, a) m).2
        (.act i call a (Access.perform .source (i, a) m).1 :: history))

variable (h : Fitted pos worlds m history) (hring : ∀ i, Ring (worlds i))
include h hring

theorem Fitted.follows_load (ha : a.IsLoad) (hmay : MayAccess i call a (worlds i)) :
    Follows worlds m history i call a := by
  obtain ⟨hadvances, hcell, hwrote⟩ := h.placed.load_advances ha hmay
  obtain ⟨w, hrely, hw, hlags, hclosed, hbuffer⟩ :=
    h.catch_up hring (m.load true i Atomic.isClosed).1 hadvances hcell
  have hmay' := hmay.stable hrely
  have hsame := sameItems_load ha i call (Access.perform .source (i, a) m).1 history
  have hlags' := hlags.of_same hsame (sameItems_load ha i call (a.exec w.shared).1 w.history)
    (congrArg RingBuffer.buffer (act_unchanged w i call ha).2)
  refine ⟨w, hrely, hw, hlags.pushed_initial, h.placed.load_result ha hmay' hw hlags hclosed hbuffer,
    hlags'.pushed_initial, fun _ _ => ⟨pos, ?_⟩⟩
  refine h.move ?_ hlags' (othersKeep_act i call history a _) hadvances.others_eq
    (fun _ => hcell) fun _ _ _ => rfl
  refine h.placed.advances hadvances (List.suffix_cons _ _) hsame.reached_eq (fun s => .inl ?_)
    (fun s c => ?_) ?_
  · rw [hwrote]
  · rw [hwrote]
  · exact Placed.load_read ha hmay' hlags

omit h hring in
theorem ProducerLag.store (l : Atomic n) {value : l.Value} {p : ℕ} (h : Placed pos m history)
    {w' : QueueWorld T C n} (hlag : ProducerLag pos m history w)
    (hstores : Memory.Stores l.owner l value m m') (hcell : m'.cell = m.cell)
    (hpushed : pushed w'.history = pushed later)
    (hpassed : ∀ c, passed c w'.history = passed c w.history)
    (hbuffer : w'.shared.buffer = w.shared.buffer) : ProducerLag (pos.push m l p) m' later w' where
  pushed_eq := hpushed
  passed_eq c := by
    rw [hpassed, hlag.passed_eq, h.at_stores l hstores (l.news_readIdx c)]
  buffer_eq := by rw [hbuffer, hlag.buffer_eq, hcell]

omit h hring in
theorem ConsumerLag.store {c : Fin (n + 1)} {value : UInt64} {p : ℕ} (h : Placed pos m history)
    {w' : QueueWorld T C n} (hlag : ConsumerLag pos m history c w)
    (hstores : Memory.Stores (.consumer c) (.readIdx c) value m m')
    (hlater : pushed later = pushed history) (hpushed : pushed w'.history = pushed w.history)
    (hpassed : passed c w'.history = passed c later)
    (hconsumed : consumed c w'.history = consumed c later) :
    ConsumerLag (pos.push m (.readIdx c) p) m' later c w' where
  pushed_eq := by
    rw [hpushed, hlater, hlag.pushed_eq, h.at_stores (.readIdx c) hstores (.inr (by simp))]
  passed_eq := hpassed
  consumed_eq := hconsumed

theorem Fitted.follows_storeWriteIdx (call : ProducerCall T) (value : UInt64) :
    Follows worlds m history .producer call (.storeWriteIdx value) := by
  let later : List (QueueEvent T C n) := .act .producer call (.storeWriteIdx value) () :: history
  have hlag : ProducerLag pos m history (worlds .producer) := h.lags .producer
  obtain ⟨hstores, -⟩ := h.placed.closed.store_releases .producer (.writeIdx : Atomic n) value
  have hpushed : pushed ((queue T C n).act (worlds .producer) .producer call
      (.storeWriteIdx value)).history = pushed later := congrArg (· ++ call.items) hlag.pushed_eq
  have hothers : ∀ l ≠ .writeIdx, Atomic.reached later l = Atomic.reached history l := by
    intro l hl
    cases l with
    | writeIdx => exact absurd rfl hl
    | _ => rfl
  refine ⟨worlds .producer, discipline_refl _ _, hring _, (h.lags .producer).pushed_initial, rfl,
    hpushed ▸ List.prefix_rfl, fun _ hw => ?_⟩
  have hvalue : value = UInt64.ofNat (pushed later).length :=
    hw.write.trans (congrArg (fun items : List T => UInt64.ofNat items.length) hpushed)
  have hplaced := h.placed.stores .writeIdx hstores rfl rfl (List.suffix_cons _ _)
    (pushed_cons _ history).length_le hothers hvalue
  exact ⟨_, h.move hplaced (hlag.store .writeIdx h.placed hstores rfl hpushed (fun _ => rfl) rfl)
    (othersKeep_act .producer call history _ _) hstores.others_eq (fun hne => absurd rfl hne)
    fun l k hk => Positions.push_old hk⟩

theorem Fitted.follows_storeIsClosed (call : ProducerCall T) (value : Bool) :
    Follows worlds m history .producer call (.storeIsClosed value) := by
  let later : List (QueueEvent T C n) := .act .producer call (.storeIsClosed value) () :: history
  have hlag : ProducerLag pos m history (worlds .producer) := h.lags .producer
  obtain ⟨hstores, -⟩ := h.placed.closed.store_releases .producer (.isClosed : Atomic n) value
  have hprefix := (h.lags .producer).pushed_initial
  have hsame : ∀ l, Atomic.reached later l = Atomic.reached history l := by
    intro l
    cases l <;> rfl
  have hplaced := h.placed.stores .isClosed hstores rfl rfl (List.suffix_cons _ _) (hsame .isClosed).ge
    (fun l _ => hsame l) trivial
  refine ⟨worlds .producer, discipline_refl _ _, hring _, hprefix, rfl, hprefix, fun _ _ => ?_⟩
  exact ⟨_, h.move hplaced (hlag.store .isClosed h.placed hstores rfl hlag.pushed_eq (fun _ => rfl) rfl)
    (othersKeep_act .producer call history _ _) hstores.others_eq (fun hne => absurd rfl hne)
    fun l k hk => Positions.push_old hk⟩

theorem Fitted.follows_storeReadIdx (c : Fin (n + 1)) (call : ConsumerCall) (value : UInt64) :
    Follows worlds m history (.consumer c) call (.storeReadIdx c value) := by
  let later : List (QueueEvent T C n) :=
    .act (.consumer c) call (.storeReadIdx c value) () :: history
  have hlag : ConsumerLag pos m history c (worlds (.consumer c)) := h.lags (.consumer c)
  obtain ⟨hstores, -⟩ :=
    h.placed.closed.store_releases (.consumer c) (.readIdx c : Atomic n) value
  have hprefix := (h.lags (.consumer c)).pushed_initial
  have hkeep := othersKeep_act (.consumer c) call history (.storeReadIdx c value) ()
  have hpassed : passed c ((queue T C n).act (worlds (.consumer c)) (.consumer c) call
      (.storeReadIdx c value)).history = passed c later := by
    change (if c = c then _ + _ else _) = if c = c then _ + _ else _
    rw [if_pos rfl, if_pos rfl, hlag.passed_eq]
  have hothers : ∀ l ≠ .readIdx c, Atomic.reached later l = Atomic.reached history l := by
    intro l hl
    cases l with
    | readIdx d => exact if_neg fun hd => hl (congrArg _ hd.symm)
    | _ => rfl
  refine ⟨worlds (.consumer c), discipline_refl _ _, hring _, hprefix, rfl, hprefix,
    fun _ hw => ?_⟩
  have hvalue : value = UInt64.ofNat (passed c later) :=
    (Function.update_self ..).symm.trans ((hw.read c).trans (congrArg UInt64.ofNat hpassed))
  have hgrows : Atomic.reached history (.readIdx c) ≤ Atomic.reached later (.readIdx c) :=
    hkeep.passed_le c
  have hplaced := h.placed.stores (.readIdx c) hstores rfl rfl (List.suffix_cons _ _) hgrows hothers
    hvalue
  exact ⟨_, h.move hplaced (hlag.store h.placed hstores rfl rfl hpassed hlag.consumed_eq) hkeep
    hstores.others_eq (fun _ => rfl) fun l k hk => Positions.push_old hk⟩

omit h hring in
/-- A slot with no item in any window is that of a position behind the writer which all the
readers the producer knows of leave room for. -/
theorem exists_behind {s : Fin C.size}
    (hfree : ∀ c p, passed c w.history ≤ p → p < (pushed w.history).length → C.slotAt p ≠ s) :
    ∃ q, (pushed w.history).length ≤ q ∧ C.slotAt q = s ∧ ∀ c, q < passed c w.history + C.size := by
  obtain ⟨q, hlo, hhi, hs⟩ : ∃ q, (pushed w.history).length ≤ q ∧
      q < (pushed w.history).length + C.size ∧ C.slotAt q = s := by
    have hdiv := Nat.div_add_mod (pushed w.history).length C.size
    have hmod := Nat.mod_lt (pushed w.history).length C.size_pos
    have hslot : ∀ k, C.slotAt (C.size * k + s) = s := by
      intro k
      apply Fin.ext
      exact (Nat.mul_add_mod ..).trans (Nat.mod_eq_of_lt s.isLt)
    by_cases hle : (pushed w.history).length % C.size ≤ s
    · exact ⟨_, by omega, by omega, hslot ((pushed w.history).length / C.size)⟩
    · refine ⟨_, ?_, ?_, hslot ((pushed w.history).length / C.size + 1)⟩
      all_goals rw [Nat.mul_add_one]
      all_goals omega
  refine ⟨q, hlo, hs, fun c => Nat.lt_of_not_le fun hroom => ?_⟩
  have hback : C.slotAt (q - C.size) = s := by
    rw [← hs]
    apply Fin.ext
    exact (Nat.mod_eq_sub_mod (by omega)).symm
  exact hfree c (q - C.size) (by omega) (by omega) hback

theorem Fitted.follows_writeSlot (call : ProducerCall T) (s : Fin C.size) (item : T) :
    Follows worlds m history .producer call (.writeSlot s item) := by
  have hlag : ProducerLag pos m history (worlds .producer) := h.lags .producer
  have hadvances := h.placed.closed.writeCell .producer s item
  have hprefix := (h.lags .producer).pushed_initial
  have hat : ∀ l, SlotMemory.at (m.writeCell .producer s item) pos .producer l =
      SlotMemory.at m pos .producer l := by
    intro l
    rw [SlotMemory.at, SlotMemory.at, Memory.writeCell_view, Memory.tick_seen]
  refine ⟨worlds .producer, discipline_refl _ _, hring _, hprefix, rfl, hprefix,
    fun hbefore _ => ⟨pos, ?_⟩⟩
  obtain ⟨q, hlo, hs, hhi⟩ := exists_behind hbefore.1
  rw [hlag.pushed_eq] at hlo
  have hplaced : Placed pos (m.writeCell .producer s item)
      (.act .producer call (.writeSlot s item) () :: history) := by
    refine h.placed.advances hadvances (List.suffix_cons _ _) (fun l => by cases l <;> rfl)
      (fun s' => ?_) (fun s' c => ?_) fun _ _ => .inl rfl
    · by_cases hs' : s' = s
      · subst hs'
        exact .inr ⟨q, hlo, hs, fun c => (hhi c).trans_eq (by rw [hlag.passed_eq])⟩
      · exact .inl (congrFun (Function.update_of_ne hs' ..) _)
    · simp only [Memory.writeCell, Function.update_apply]
      grind
  have hlag' : ProducerLag pos (m.writeCell .producer s item)
      (.act .producer call (.writeSlot s item) () :: history)
      ((queue T C n).act (worlds .producer) .producer call (.writeSlot s item)) := by
    refine ⟨hlag.pushed_eq, fun c => (hlag.passed_eq c).trans (hat _).symm, ?_⟩
    exact congrArg (fun buffer => Function.update buffer s item) hlag.buffer_eq
  exact h.move hplaced hlag' (othersKeep_act .producer call history _ _) hadvances.others_eq
    (fun hne => absurd rfl hne) fun _ _ _ => rfl

end Accesses

/-! ## Every step -/

section Steps
variable {pos : Positions n} {m : SlotMemory T C n} {history later : List (QueueEvent T C n)}
  {worlds : Thread n → QueueWorld T C n}

theorem Placed.of_reached (h : Placed pos m history) (hlater : history <:+ later)
    (hreached : ∀ l, Atomic.reached later l = Atomic.reached history l) : Placed pos m later where
  closed := h.closed
  value := h.value
  mono := h.mono
  last l := (h.last l).trans (hreached l).symm
  earlier l k hk := by
    obtain ⟨before, hbefore, hpos⟩ := h.earlier l k hk
    exact ⟨before, hbefore.trans hlater, hpos⟩
  own := h.own
  unwritten := h.unwritten
  wrote := h.wrote
  read s c k hk := by
    have hpushed : (pushed later).length = (pushed history).length := hreached .writeIdx
    rw [hpushed]
    exact h.read s c k hk

theorem Fitted.start (h : Fitted pos worlds m history) (i : Thread n) (call : i.Call T) :
    Fitted pos (Function.update worlds i ((worlds i).start i call)) m
      (.start i call :: history) := by
  have hsame : ∀ history : List (QueueEvent T C n),
      SameItems history (.start i call :: history) :=
    fun _ => ⟨rfl, fun _ => rfl, fun _ => rfl⟩
  exact h.move (h.placed.of_reached (List.suffix_cons _ _) (hsame history).reached_eq)
    ((h.lags i).of_same (hsame history) (hsame _) rfl) (othersKeep_start i call history)
    (fun _ _ => rfl) (fun _ => rfl) fun _ _ _ => rfl

theorem Fitted.finish (h : Fitted pos worlds m history) (i : Thread n) (call : i.Call T)
    (result : i.Ret T) :
    Fitted pos (Function.update worlds i ((worlds i).finish i call result)) m
      (.finish i call result :: history) := by
  refine h.move (h.placed.of_reached (List.suffix_cons _ _) fun l => by cases l <;> rfl) ?_
    (othersKeep_finish i call history result) (fun _ _ => rfl) (fun _ => rfl) fun _ _ _ => rfl
  cases i with
  | producer =>
    have hsame : ∀ history : List (QueueEvent T C n),
        SameItems history (.finish .producer call result :: history) :=
      fun _ => ⟨rfl, fun _ => rfl, fun _ => rfl⟩
    exact (h.lags .producer).of_same (hsame history) (hsame _) rfl
  | consumer c =>
    have hlag : ConsumerLag pos m history c (worlds (.consumer c)) := h.lags (.consumer c)
    have hfinish : ∀ history : List (QueueEvent T C n),
        consumed c (.finish (.consumer c) call result :: history) =
          consumed c history ++ ConsumerCall.consumed call result := fun _ => if_pos rfl
    refine ⟨hlag.pushed_eq, hlag.passed_eq, ?_⟩
    rw [hfinish, ← hlag.consumed_eq]
    exact hfinish (worlds (.consumer c)).history

/-- Every access of the queue can be followed in the world of its thread. -/
theorem Fitted.follows (h : Fitted pos worlds m history) (hring : ∀ i, Ring (worlds i))
    {i : Thread n} {call : i.Call T} {a : Access T C n} (hmay : MayAccess i call a (worlds i)) :
    Follows worlds m history i call a := by
  by_cases ha : a.IsLoad
  · exact h.follows_load hring ha hmay
  · cases i with
    | producer =>
      cases a with
      | storeWriteIdx value => exact h.follows_storeWriteIdx hring call value
      | storeIsClosed value => exact h.follows_storeIsClosed hring call value
      | writeSlot s item => exact h.follows_writeSlot hring call s item
      | storeReadIdx c value => exact hmay.elim
      | _ => exact absurd trivial ha
    | consumer c =>
      cases a with
      | storeReadIdx d value =>
        obtain rfl : d = c := hmay
        exact h.follows_storeReadIdx hring d call value
      | storeWriteIdx value => exact hmay.elim
      | storeIsClosed value => exact hmay.elim
      | writeSlot s item => exact hmay.elim
      | _ => exact absurd trivial ha

theorem fitted_explains : Explains (queue T C n) (accessDiscipline T C n) (Access.perform .source)
    fun worlds m history => ∃ pos, Fitted pos worlds m history where
  admits := by
    rintro worlds m history ⟨pos, h⟩ hadm i
    exact (h.lags i).admissible hadm
  start := by
    rintro worlds m history i call ⟨pos, h⟩
    exact ⟨pos, h.start i call⟩
  finish := by
    rintro worlds m history i call result ⟨pos, h⟩
    exact ⟨pos, h.finish i call result⟩
  act := by
    rintro worlds m history i call a ⟨pos, h⟩ hring hbefore hadm
    obtain ⟨w, hrely, hw, hpushed, hresult, hpushed', hfits⟩ := h.follows hring hbefore.2
    have hearlier := accessDiscipline_valid.earlier _ _ hadm
    exact ⟨w, hrely, hw, hearlier.imp_right hpushed.length_le.trans_lt, hresult,
      hadm.imp_right hpushed'.length_le.trans_lt, hfits⟩

end Steps

end ItchOrderBook.Spmc

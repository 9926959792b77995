import ItchOrderBook.Spmc.WorldSteps

/-! # Data races

With the memory orders of the source the queue is free of data races, and each consumer
gets a prefix of what is pushed, as it would with sequential consistency. With any of the
four orders relaxed the queue races.
-/
namespace ItchOrderBook.Spmc
open AtomicProgram

variable {T : Type} {C : Capacity} {n : ℕ}

section Races
variable {pos : Positions n} {m : SlotMemory T C n} {history : List (QueueEvent T C n)}
  {worlds : Thread n → QueueWorld T C n}

/-- Whoever has seen a message knows what its thread did before it. -/
theorem Placed.knows (h : Placed pos m history) (i : Thread n) (l : Atomic n) :
    (m.message l (m.view i (.inr l))).view ≤ m.view i := (h.closed.threads i l).2

theorem Fitted.write_races (h : Fitted pos worlds m history) {s : Fin C.size}
    (hfree : ∀ c p, passed c (worlds .producer).history ≤ p →
      p < (pushed (worlds .producer).history).length → C.slotAt p ≠ s) :
    ¬ m.WriteRace .producer s := by
  have hlag : ProducerLag pos m history (worlds .producer) := h.lags .producer
  rintro ⟨j, hj⟩
  cases j with
  | producer =>
    have hwrote := h.placed.closed.wrote_le s .producer
    have hread := h.placed.closed.read_le s .producer
    omega
  | consumer c =>
    have hunwritten := h.placed.unwritten s c
    rcases h.placed.read s c _ (h.placed.closed.threads .producer (.readIdx c)).1 with
      hseen | ⟨p, hlo, hhi, hs⟩
    · have hknown := hseen.trans (h.placed.knows .producer (.readIdx c) (.inl (.consumer c)))
      omega
    · rw [← hlag.pushed_eq] at hhi
      exact hfree c p ((hlag.passed_eq c).le.trans hlo) hhi hs

/-- A slot a consumer may read has been written as far as it matters. -/
theorem Fitted.read_races (h : Fitted pos worlds m history) {c : Fin (n + 1)} {p : ℕ}
    (hlo : passed c (worlds (.consumer c)).history ≤ p)
    (hhi : p < (pushed (worlds (.consumer c)).history).length) :
    ¬ m.ReadRace (.consumer c) (C.slotAt p) := by
  have hlag : ConsumerLag pos m history c (worlds (.consumer c)) := h.lags (.consumer c)
  rintro ⟨j, hj⟩
  cases j with
  | consumer d =>
    have hunwritten := h.placed.unwritten (C.slotAt p) d
    omega
  | producer =>
    rcases h.placed.wrote (C.slotAt p) _ (h.placed.closed.threads (.consumer c) .writeIdx).1 with
      hseen | ⟨q, hq, hs, hroom⟩
    · exact hj.not_ge (hseen.trans (h.placed.knows (.consumer c) .writeIdx (.inl .producer)))
    · -- the next item in that slot is a whole capacity on
      have hat : SlotMemory.at m pos .producer (.readIdx c) ≤ passed c history :=
        h.placed.at_le .producer (.readIdx c)
      have hlength := congrArg List.length hlag.pushed_eq
      rw [List.length_take] at hlength
      have hlater : p < q := by
        have hq : SlotMemory.at m pos (.consumer c) .writeIdx ≤ q := hq
        omega
      rw [hlag.passed_eq] at hlo
      have hclose := hroom c
      exact Capacity.slotAt_ne hlater (by omega) hs.symm

theorem Fitted.not_races (h : Fitted pos worlds m history) {i : Thread n} {call : i.Call T}
    {a : Access T C n} (hbefore : (accessDiscipline T C n).before i call a (worlds i)) :
    ¬ Races m (i, a) := by
  obtain ⟨hfree, hmay⟩ := hbefore
  cases i with
  | producer =>
    cases a with
    | writeSlot s item => exact h.write_races hfree
    | readSlot s =>
      rintro ⟨j, hj⟩
      cases j with
      | producer => exact hj.not_ge (h.placed.closed.wrote_le s .producer)
      | consumer d =>
        rw [h.placed.unwritten s d] at hj
        exact absurd hj (Nat.not_lt_zero _)
    | _ => exact id
  | consumer c =>
    cases a with
    | readSlot s =>
      obtain ⟨p, hlo, hhi, rfl⟩ := hmay
      exact h.read_races hlo hhi
    | writeSlot s item => exact hmay.elim
    | _ => exact id

end Races

section Runs
variable {D : Driver (Thread n) (Thread.Call T) (Thread.Ret T)}

theorem makeMemory_closed (buffer : Fin C.size → T) (pick : ℕ → ℕ) :
    (makeMemory buffer pick : SlotMemory T C n).Closed where
  threads _ _ := ⟨le_rfl, fun _ => le_rfl⟩
  messages _ _ _ _ := ⟨le_rfl, fun _ => le_rfl⟩
  own _ _ _ := Nat.zero_le _
  wrote_le _ _ := le_rfl
  read_le _ _ := le_rfl

theorem makeMemory_placed (buffer : Fin C.size → T) (pick : ℕ → ℕ) :
    Placed (fun _ _ => 0) (makeMemory buffer pick : SlotMemory T C n) [] where
  closed := makeMemory_closed buffer pick
  value l _ _ := by cases l <;> first | rfl | trivial
  mono _ _ _ _ _ := le_rfl
  last l := by cases l <;> rfl
  earlier l _ _ := ⟨[], List.suffix_rfl, by cases l <;> rfl⟩
  own _ := rfl
  unwritten _ _ := rfl
  wrote _ _ _ := .inl le_rfl
  read _ _ _ _ := .inl le_rfl

theorem makeWeakSpmc_inWorlds (buffer : Fin C.size → T) (pick : ℕ → ℕ)
    (driver : (i : Thread n) → D.State i) :
    InWorlds (queue T C n) (accessDiscipline T C n)
      (fun worlds m history => ∃ pos, Fitted pos worlds m history)
      (fun _ => (makeSpmc buffer driver).world) (makeWeakSpmc buffer pick driver) where
  fits := by
    refine ⟨fun _ _ => 0, makeMemory_placed buffer pick, fun i => ?_⟩
    cases i with
    | producer => exact ⟨rfl, fun _ => rfl, rfl⟩
    | consumer c => exact ⟨rfl, rfl, rfl⟩
  inv _ := (makeSpmc_holds buffer driver).inv
  idle i data hdata := by
    obtain rfl := (Status.idle.inj hdata).symm
    exact (makeSpmc_holds buffer driver).idle i 0 rfl
  running i call rest hrest := by cases hrest

theorem weak_run_fitted {buffer : Fin C.size → T} {pick : ℕ → ℕ}
    {driver : (i : Thread n) → D.State i} {schedule : List (Choice (Thread n) (Thread.Call T))}
    {cfg : WeakConfig T C n D}
    (hrun : (weakQueue T C n .source).run (makeWeakSpmc buffer pick driver) schedule = some cfg)
    (hadm : Admissible (untag cfg.world.history)) :
    ¬ Racing cfg ∧ ∃ pos worlds, Fitted pos worlds cfg.world.shared (untag cfg.world.history) ∧
      ∀ i, Ring (worlds i) := by
  obtain ⟨worlds, h⟩ := (makeWeakSpmc_inWorlds buffer pick driver).run accessDiscipline_valid
    fitted_explains hrun hadm
  obtain ⟨pos, hfitted⟩ := h.fits
  refine ⟨?_, pos, worlds, hfitted, h.inv⟩
  rintro ⟨i, call, a, next, hstatus, hrace⟩
  obtain ⟨rfl, hbefore⟩ := h.before accessDiscipline_valid
    (fun i => (hfitted.lags i).admissible hadm) hstatus
  exact hfitted.not_races hbefore hrace

/-- With the orders of the source no run has a data race, whatever its loads return, and
each consumer's items are a prefix of the items pushed. -/
theorem no_data_race (buffer : Fin C.size → T) (pick : ℕ → ℕ)
    (driver : (i : Thread n) → D.State i) (schedule : List (Choice (Thread n) (Thread.Call T)))
    (cfg : WeakConfig T C n D)
    (hrun : (weakQueue T C n .source).run (makeWeakSpmc buffer pick driver) schedule = some cfg)
    (hadm : Admissible (untag cfg.world.history)) :
    ¬ Racing cfg ∧
      ∀ c, IsPrefix (consumed c (untag cfg.world.history)) (pushed (untag cfg.world.history)) := by
  obtain ⟨hraces, pos, worlds, hfitted, hring⟩ := weak_run_fitted hrun hadm
  refine ⟨hraces, fun c => ?_⟩
  have hlag : ConsumerLag pos _ _ c (worlds (.consumer c)) := hfitted.lags (.consumer c)
  have hprefix := ((hring (.consumer c)).logged c).2
  rw [hlag.consumed_eq] at hprefix
  exact hprefix.mono (hfitted.lags (.consumer c)).pushed_initial

/-- Two slots, two consumers: the second consumer asks for the batch that wraps round
behind the first item and, where its load is stale, has to ask again. -/
def staleSchedule : List (Choice (Thread 1) (Thread.Call ℕ)) :=
  let first : Fin 2 := ⟨0, Nat.two_pos⟩
  let second : Fin 2 := ⟨1, Nat.one_lt_two⟩
  [.start .producer (ProducerCall.tryPush 7)] ++ List.replicate 4 (.go .producer) ++
  [.start (.consumer first) ConsumerCall.tryPop] ++ List.replicate 5 (.go (.consumer first)) ++
  [.start (.consumer second) (ConsumerCall.trySkipMany 1)] ++
    List.replicate 4 (.go (.consumer second)) ++
  [.start .producer (ProducerCall.tryPushMany [8, 9])] ++ List.replicate 7 (.go .producer) ++
  [.start (.consumer second) (ConsumerCall.tryPopMany 2)] ++ List.replicate 4 (.go (.consumer second)) ++
  [.start (.consumer second) (ConsumerCall.tryPopMany 2)] ++ List.replicate 6 (.go (.consumer second))

theorem staleSchedule_race_free :
    let start : WeakConfig ℕ ⟨1, by decide⟩ 1 (Driver.free ..) :=
      makeWeakSpmc (fun _ => 0) (fun k => if k = 9 then 0 else 1) fun _ => ()
    ∃ cfg : WeakConfig ℕ ⟨1, by decide⟩ 1 (Driver.free ..),
      (weakQueue ℕ ⟨1, by decide⟩ 1 .source).run start staleSchedule = some cfg ∧
      consumed 1 (untag cfg.world.history) = [none, some 8, some 9] ∧ ¬ Racing cfg ∧
      ∀ c, IsPrefix (consumed c (untag cfg.world.history)) (pushed (untag cfg.world.history)) := by
  intro start
  have hran : (((weakQueue ℕ ⟨1, by decide⟩ 1 .source).run start staleSchedule).map fun cfg =>
      (pushed (untag cfg.world.history), consumed 1 (untag cfg.world.history))) =
        some ([7, 8, 9], [none, some 8, some 9]) := by decide
  obtain ⟨cfg, hrun, hcfg⟩ := Option.map_eq_some_iff.mp hran
  obtain ⟨hpushed, hconsumed⟩ := Prod.mk.inj hcfg
  have hfew : (pushed (untag cfg.world.history)).length < 2 ^ 64 := by
    rw [hpushed]
    decide
  exact ⟨cfg, hrun, hconsumed, no_data_race _ _ _ staleSchedule cfg hrun (.inr hfew)⟩

end Runs

/-! ## The orders are needed -/

section Needed
variable {D : Driver (Thread n) (Thread.Call T) (Thread.Ret T)}

/-- Thread `i` is about to access a slot without knowing what thread `j` did there. -/
def unseen (cfg : WeakConfig T C n D) (i j : Thread n) : Bool :=
  match cfg.status i with
  | .running _ (.act (k, .readSlot s) _) =>
    decide (cfg.world.shared.view k (.inl j) < cfg.world.shared.wrote s j)
  | .running _ (.act (k, .writeSlot s _) _) =>
    decide (cfg.world.shared.view k (.inl j) < cfg.world.shared.wrote s j ∨
      cfg.world.shared.view k (.inl j) < cfg.world.shared.read s j)
  | _ => false

theorem racing_of_unseen {cfg : WeakConfig T C n D} {i j : Thread n} (h : unseen cfg i j = true) :
    Racing cfg := by
  unfold unseen at h
  split at h
  · rename_i call k s next hstatus
    exact ⟨i, call, _, next, hstatus, j, of_decide_eq_true h⟩
  · rename_i call k s item next hstatus
    exact ⟨i, call, _, next, hstatus, j, of_decide_eq_true h⟩
  · cases h

def singleSlot : Capacity := ⟨0, Nat.succ_pos 63⟩

/-- One item pushed, and a consumer about to read it. -/
def firstRead : List (Choice (Thread 0) (Thread.Call Unit)) :=
  [.start .producer (ProducerCall.tryPush ())] ++ List.replicate 4 (.go .producer) ++
  [.start (.consumer ⟨0, Nat.one_pos⟩) ConsumerCall.tryPop] ++
    List.replicate 2 (.go (.consumer ⟨0, Nat.one_pos⟩))

/-- One item pushed and popped, and the producer about to reuse the slot. -/
def firstReuse : List (Choice (Thread 0) (Thread.Call Unit)) :=
  [.start .producer (ProducerCall.tryPush ())] ++ List.replicate 4 (.go .producer) ++
  [.start (.consumer ⟨0, Nat.one_pos⟩) ConsumerCall.tryPop] ++
    List.replicate 5 (.go (.consumer ⟨0, Nat.one_pos⟩)) ++
  [.start .producer (ProducerCall.tryPush ())] ++ List.replicate 2 (.go .producer)

/-- A queue of one slot and one consumer whose loads all return the last message. -/
def prompt (o : Orders) (schedule : List (Choice (Thread 0) (Thread.Call Unit))) :
    Option (WeakConfig Unit singleSlot 0 (Driver.free ..)) :=
  (weakQueue Unit singleSlot 0 o).run (makeWeakSpmc (fun _ => ()) (fun _ => 1) fun _ => ()) schedule

theorem firstRead_unseen (o : Orders) :
    (prompt o firstRead).map (fun cfg => unseen cfg (.consumer ⟨0, Nat.one_pos⟩) .producer) =
      some (!(o.releasesWriteIdx && o.acquiresWriteIdx)) := by
  obtain ⟨_ | _, _ | _, _ | _, _ | _⟩ := o <;> decide

theorem firstReuse_unseen (o : Orders) :
    (prompt o firstReuse).map (fun cfg => unseen cfg .producer (.consumer ⟨0, Nat.one_pos⟩)) =
      some (!(o.releasesReadIdx && o.acquiresReadIdx)) := by
  obtain ⟨_ | _, _ | _, _ | _, _ | _⟩ := o <;> decide

/-- Where the orders suffice, no run of the queue of one slot leaves anything unseen. -/
theorem Orders.Suffice.seen {o : Orders} (h : o.Suffice)
    {schedule : List (Choice (Thread 0) (Thread.Call Unit))} {i j : Thread 0} {b : Bool}
    (hrun : (prompt o schedule).map (fun cfg => unseen cfg i j) = some !b) : b = true := by
  obtain ⟨cfg, hcfg, hunseen⟩ := Option.map_eq_some_iff.mp hrun
  cases b with
  | true => rfl
  | false => exact absurd (racing_of_unseen hunseen) (h _ _ _ _ _ _ _ _ cfg hcfg (.inl rfl))

/-- The orders of the source, and no weaker ones, keep the queue free of data races. -/
theorem suffice_iff_source (o : Orders) : o.Suffice ↔ o = .source := by
  constructor
  · intro h
    have hwrite := h.seen (firstRead_unseen o)
    have hread := h.seen (firstReuse_unseen o)
    rw [Bool.and_eq_true] at hwrite hread
    obtain ⟨rW, aW, rR, aR⟩ := o
    obtain ⟨rfl, rfl⟩ := hwrite
    obtain ⟨rfl, rfl⟩ := hread
    rfl
  · rintro rfl T C n D buffer pick driver schedule cfg hrun hadm
    exact (weak_run_fitted hrun hadm).1

end Needed

end ItchOrderBook.Spmc

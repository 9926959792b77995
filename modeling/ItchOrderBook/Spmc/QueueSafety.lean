import ItchOrderBook.Spmc.ConsumerSafety
import ItchOrderBook.Spmc.ProducerSafety

/-! # Every interleaving of the queue -/
namespace ItchOrderBook.Spmc
open AtomicProgram

variable {T : Type} {C : Capacity} {n : ℕ}

theorem pushed_cons (e : QueueEvent T C n) (history : List (QueueEvent T C n)) :
    pushed history <+: pushed (e :: history) := by
  cases e with
  | start i call => exact List.prefix_rfl
  | finish i call r => exact List.prefix_rfl
  | act i call action result =>
    cases i with
    | consumer c => exact List.prefix_rfl
    | producer =>
      cases action with
      | storeWriteIdx value => exact List.prefix_append _ _
      | _ => exact List.prefix_rfl

theorem start_unchanged (w : QueueWorld T C n) (i : Thread n) (call : i.Call T) :
    Unchanged w (w.start i call) := ⟨rfl, rfl, rfl, rfl, fun _ => rfl, fun _ => rfl⟩

theorem Delivered.log {c : Fin (n + 1)} {call : ConsumerCall} {r : ConsumerResult T}
    {w : QueueWorld T C n} (h : Delivered c call r w)
    (hlog : IsPrefix (consumed c w.history) (pushed w.history)) :
    passed c w.history = (consumed c w.history ++ call.consumed r).length ∧
      IsPrefix (consumed c w.history ++ call.consumed r) (pushed w.history) := by
  unfold Delivered at h
  unfold ConsumerCall.consumed
  split at h
  · rename_i hnone
    obtain ⟨hmoved, hwithin, hitems⟩ := h
    simp only [hnone, if_true]
    have hpop : call ≠ .trySkipMany call.count →
        passed c w.history = (consumed c w.history ++ r.items.map some).length ∧
        IsPrefix (consumed c w.history ++ r.items.map some) (pushed w.history) := by
      intro hcall
      obtain ⟨hlength, hslice⟩ := hitems hcall
      refine ⟨by rw [List.length_append, List.length_map, hlength, hmoved], hlog.append ?_ hslice⟩
      rw [List.forall₂_map_left_iff]
      exact List.forall₂_same.mpr fun _ _ => Or.inr rfl
    cases call with
    | tryPop => exact hpop (by simp)
    | tryPopMany count => exact hpop (by simp)
    | trySkipMany count =>
      change passed c w.history = _ + count.toNat at hmoved
      refine ⟨by rw [List.length_append, List.length_replicate, hmoved], ?_⟩
      let next := ((pushed w.history).drop (consumed c w.history).length).take count.toNat
      have hnext : next.length = count.toNat := by
        rw [List.length_take, List.length_drop]
        omega
      refine @IsPrefix.append _ _ _ hlog _ next ?_ ?_
      · refine List.forall₂_iff_get.mpr ⟨by rw [List.length_replicate, hnext], fun i hi _ => ?_⟩
        exact Or.inl (by simp)
      · rw [← List.take_add]
        exact List.take_prefix _ _
  · rename_i hfail
    simp only [hfail, if_false, List.append_nil]
    exact ⟨h.1, hlog⟩

theorem finish_keeps {w : QueueWorld T C n} (hring : Ring w) (i : Thread n) (call : i.Call T)
    {result : i.Ret T} {cached : UInt64} (hpost : (discipline T C n).post i call (result, cached) w) :
    (discipline T C n).Keeps i w (w.finish i call result) ∧
      (discipline T C n).idle i cached (w.finish i call result) := by
  cases i with
  | producer =>
    have hsame : Unchanged w (w.finish .producer call result) :=
      ⟨rfl, rfl, rfl, rfl, fun _ => rfl, fun _ => rfl⟩
    exact ⟨⟨hring.of_unchanged hsame, fun j _ => rely_of_unchanged hsame rfl⟩, hpost.1⟩
  | consumer c =>
    obtain ⟨hcached, hdelivered⟩ := hpost
    obtain ⟨hpassed, hgrown⟩ := hdelivered.log (hring.logged c).2
    have hself : consumed c (w.finish (.consumer c) call result).history =
        consumed c w.history ++ ConsumerCall.consumed call result := if_pos rfl
    have hother : ∀ d ≠ c, consumed d (w.finish (.consumer c) call result).history =
        consumed d w.history := fun d hd => if_neg hd.symm
    refine ⟨⟨⟨hring.write, hring.read, hring.order, hring.room, hring.window, ?_⟩, ?_⟩, ?_⟩
    · intro d
      by_cases hd : d = c
      · subst hd
        rw [hself]
        exact ⟨hpassed.ge, hgrown⟩
      · rw [hother d hd]
        exact hring.logged d
    · intro j hj
      cases j with
      | producer => exact ⟨rfl, fun _ => le_rfl, rfl, rfl⟩
      | consumer d =>
        have hd : d ≠ c := fun h => hj (congrArg _ h)
        exact ⟨List.prefix_rfl, rfl, hother d hd, rfl⟩
    · exact ⟨hcached, hpassed.trans (congrArg List.length hself).symm⟩

theorem discipline_valid : (discipline T C n).Valid (queue T C n) where
  refl := discipline_refl
  trans := discipline_trans
  earlier e history h := h.imp_right (pushed_cons e history).length_le.trans_lt
  stable i data w w' hidle hrely _ _ := by
    cases i with
    | producer =>
      have hrely : ProducerRely w w' := hrely
      change CachedRead (pushed w'.history).length data w'
      rw [hrely.pushed_eq]
      exact CachedRead.stable hidle hrely.passed_le
    | consumer c =>
      have hrely : ConsumerRely c w w' := hrely
      refine ⟨hidle.1.stable hrely, ?_⟩
      rw [hrely.passed_eq, hrely.consumed_eq]
      exact hidle.2
  start i call data w hidle hring _ := by
    have hsame := start_unchanged w i call
    have hself : callStart i (w.start i call).history = w.history := if_pos rfl
    refine ⟨⟨Ring.of_unchanged hring hsame, fun j hj => rely_of_unchanged hsame (if_neg hj.symm)⟩, ?_⟩
    cases i with
    | producer => exact safe_producer call hidle (congrArg pushed hself).symm
    | consumer c =>
      exact safe_consumer call hidle.1 ⟨hidle.2, (congrArg (List.length ∘ pushed) hself).le⟩
  finish i call result data w hpost hring _ := finish_keeps hring i call hpost

section Runs
variable {D : Driver (Thread n) (Thread.Call T) (Thread.Ret T)}

theorem makeSpmc_holds (buffer : Fin C.size → T) (driver : (i : Thread n) → D.State i) :
    Discipline.Holds (queue T C n) (discipline T C n) (makeSpmc buffer driver) where
  inv := by
    refine ⟨rfl, fun _ => rfl, fun _ => le_rfl, fun _ => Nat.zero_le _, ?_, ?_⟩
    · intro c p _ hhi
      exact absurd hhi (Nat.not_lt_zero p)
    · exact fun c => ⟨le_rfl, IsPrefix.nil⟩
  idle i data h := by
    obtain rfl := (Status.idle.inj h).symm
    cases i with
    | producer => exact ⟨0, rfl, fun _ => le_rfl, Nat.zero_le _⟩
    | consumer c => exact ⟨⟨0, rfl, le_rfl, le_rfl⟩, rfl⟩
  running i call rest h := by cases h

/-- The items of the push calls that have returned successfully. -/
def accepted : List (QueueEvent T C n) → List T
  | [] => []
  | .finish .producer call (.response .success) :: history =>
    accepted history ++ ProducerCall.items call
  | _ :: history => accepted history

/-- Before each push call exactly the accepted items are published. -/
structure Accounted (cfg : QueueConfig T C n D) : Prop where
  idle : ∀ data, cfg.status .producer = .idle data →
    accepted cfg.world.history = pushed cfg.world.history
  running : ∀ call rest, cfg.status .producer = .running call rest →
    accepted cfg.world.history = pushed (callStart .producer cfg.world.history)

/-- The steps of a consumer are of no account. -/
theorem Accounted.of_eq {cfg cfg' : QueueConfig T C n D} (h : Accounted cfg)
    (hstatus : cfg'.status .producer = cfg.status .producer)
    (haccepted : accepted cfg'.world.history = accepted cfg.world.history)
    (hpushed : pushed cfg'.world.history = pushed cfg.world.history)
    (hstart : callStart .producer cfg'.world.history = callStart .producer cfg.world.history) :
    Accounted cfg' where
  idle data hdata := by
    rw [haccepted, hpushed]
    exact h.idle data (hstatus ▸ hdata)
  running call rest hrest := by
    rw [haccepted, hstart]
    exact h.running call rest (hstatus ▸ hrest)

theorem Accounted.step {cfg cfg' : QueueConfig T C n D} (h : Accounted cfg)
    (hholds : Discipline.Holds (queue T C n) (discipline T C n) cfg)
    (hadm : Admissible cfg.world.history) (hstep : (queue T C n).Stepped cfg cfg') :
    Accounted cfg' := by
  have hne : ∀ c : Fin (n + 1), Thread.producer ≠ .consumer c := by simp
  cases hstep with
  | start i call data hstatus _ =>
    cases i with
    | consumer c =>
      exact h.of_eq (Machine.started_status_ne _ cfg (hne c) call data) rfl rfl rfl
    | producer =>
      refine ⟨fun data' h' => ?_, fun call' rest _ => h.idle data hstatus⟩
      rw [Machine.started_status] at h'
      cases h'
  | act i call action next hstatus =>
    cases i with
    | consumer c =>
      exact h.of_eq (Machine.acted_status_ne _ cfg (hne c) call action next) rfl rfl rfl
    | producer =>
      refine ⟨fun data' h' => ?_, fun call' rest _ => h.running call _ hstatus⟩
      rw [Machine.acted_status] at h'
      cases h'
  | finish i call result data hstatus =>
    cases i with
    | consumer c =>
      exact h.of_eq (Machine.finished_status_ne cfg (hne c) call result data) rfl rfl rfl
    | producer =>
      refine ⟨fun data' _ => ?_, fun call' rest h' => ?_⟩
      · obtain ⟨-, hpublished⟩ := hholds.post discipline_valid hadm hstatus
        have hstart := h.running call _ hstatus
        change _ = pushed cfg.world.history
        rw [hpublished, ← hstart]
        cases result with
        | closed => exact (List.append_nil _).symm
        | response r => cases r <;> first | rfl | exact (List.append_nil _).symm
      · rw [Machine.finished_status] at h'
        cases h'

theorem run_holds {buffer : Fin C.size → T} {driver : (i : Thread n) → D.State i}
    {schedule : List (Choice (Thread n) (Thread.Call T))} {cfg : QueueConfig T C n D}
    (hrun : (queue T C n).run (makeSpmc buffer driver) schedule = some cfg)
    (hadm : Admissible cfg.world.history) :
    Discipline.Holds (queue T C n) (discipline T C n) cfg ∧ Accounted cfg := by
  refine Machine.run_invariant (P := fun cfg => Admissible cfg.world.history →
    Discipline.Holds (queue T C n) (discipline T C n) cfg ∧ Accounted cfg) ?_ ?_ hrun hadm
  · intro cfg cfg' hcfg hstep hadm'
    have hearlier : Admissible cfg.world.history := by
      cases hstep <;> exact discipline_valid.earlier _ _ hadm'
    obtain ⟨hholds, haccounted⟩ := hcfg hearlier
    exact ⟨hholds.step discipline_valid hstep hadm', haccounted.step hholds hearlier hstep⟩
  · refine fun _ => ⟨makeSpmc_holds buffer driver, fun _ _ => rfl, fun call rest h => ?_⟩
    cases h

/-- In every interleaving, each consumer's items are a prefix of the items pushed, the
items pushed are those of the successful calls, and no slot is written that holds an
item a consumer has still to pass. -/
theorem consumed_prefix_of_pushed (buffer : Fin C.size → T) (driver : (i : Thread n) → D.State i)
    (schedule : List (Choice (Thread n) (Thread.Call T))) (cfg : QueueConfig T C n D)
    (hrun : (queue T C n).run (makeSpmc buffer driver) schedule = some cfg)
    (hfew : (pushed cfg.world.history).length < 2 ^ 64) :
    (∀ c, IsPrefix (consumed c cfg.world.history) (pushed cfg.world.history)) ∧
    (∀ data, cfg.status .producer = .idle data →
      pushed cfg.world.history = accepted cfg.world.history) ∧
    (∀ call s item next, cfg.status .producer = .running call (.act (.writeSlot s item) next) →
      ∀ c p, (cfg.world.shared.readIdx c).toNat ≤ p → p < (pushed cfg.world.history).length →
        C.slotAt p ≠ s) := by
  obtain ⟨hholds, haccounted⟩ := run_holds hrun (Or.inr hfew)
  refine ⟨fun c => (hholds.inv.logged c).2, fun data h => (haccounted.idle data h).symm, ?_⟩
  intro call s item next hstatus c p hlo hhi
  have hbefore := hholds.before discipline_valid (Or.inr hfew) hstatus
  have horder := hholds.inv.order c
  rw [hholds.inv.read c, UInt64.toNat_ofNat', Nat.mod_eq_of_lt (by omega)] at hlo
  exact hbefore c p hlo hhi

/-- Two slots, two consumers: a batch of two wraps round behind one item. -/
def wrappedSchedule : List (Choice (Thread 1) (Thread.Call ℕ)) :=
  [.start .producer (ProducerCall.tryPush 7)] ++ List.replicate 4 (.go .producer) ++
  [.start (.consumer 0) ConsumerCall.tryPop] ++ List.replicate 5 (.go (.consumer 0)) ++
  [.start (.consumer 1) (ConsumerCall.trySkipMany 1)] ++
    List.replicate 4 (.go (.consumer 1)) ++
  [.start .producer (ProducerCall.tryPushMany [8, 9])] ++ List.replicate 7 (.go .producer) ++
  [.start (.consumer 1) (ConsumerCall.tryPopMany 2)] ++ List.replicate 6 (.go (.consumer 1))

theorem wrappedSchedule_matches :
    let start : QueueConfig ℕ ⟨1, by decide⟩ 1 (Driver.free ..) :=
      makeSpmc (fun _ => 0) fun _ => ()
    ∃ cfg : QueueConfig ℕ ⟨1, by decide⟩ 1 (Driver.free ..),
      (queue ℕ ⟨1, by decide⟩ 1).run start wrappedSchedule = some cfg ∧
      pushed cfg.world.history = [7, 8, 9] ∧
      consumed 1 cfg.world.history = [none, some 8, some 9] ∧
      ∀ c, IsPrefix (consumed c cfg.world.history) (pushed cfg.world.history) := by
  intro start
  have hran : (((queue ℕ ⟨1, by decide⟩ 1).run start wrappedSchedule).map fun cfg =>
      (pushed cfg.world.history, consumed 1 cfg.world.history)) =
        some ([7, 8, 9], [none, some 8, some 9]) := by decide
  obtain ⟨cfg, hrun, hcfg⟩ := Option.map_eq_some_iff.mp hran
  obtain ⟨hpushed, hconsumed⟩ := Prod.mk.inj hcfg
  have hfew : (pushed cfg.world.history).length < 2 ^ 64 := by
    rw [hpushed]
    decide
  exact ⟨cfg, hrun, hpushed, hconsumed,
    (consumed_prefix_of_pushed _ _ wrappedSchedule cfg hrun hfew).1⟩

end Runs

end ItchOrderBook.Spmc

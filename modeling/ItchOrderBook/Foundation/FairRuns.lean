import ItchOrderBook.Foundation.CallTraces
import Mathlib.Order.Filter.AtTopBot.Basic
import Mathlib.Order.Filter.Finite
import Mathlib.Order.OrderIsoNat

/-! # Fair runs

A run without end is fair if no thread that could go on is left behind for ever. On a
fair run every call under way returns, and where the shared state keeps to what a call
may see, the call sees nothing else.
-/
namespace AtomicProgram

variable {ι σ Act : Type} {Res : Act → Type} {Call Ret Local : ι → Type}

/-- The thread a schedule picks. -/
def Choice.thread : Choice ι Call → ι
  | .start i _ => i
  | .go i => i

/-- Numbers that never fall and stay below a bound change no more from some time on. -/
theorem exists_constant {f : ℕ → ℕ} {B : ℕ} (hmono : ∀ k, f k ≤ f (k + 1)) (hle : ∀ k, f k ≤ B) :
    ∃ v, ∀ᶠ k in Filter.atTop, f k = v := by
  have hmonotone : Monotone f := monotone_nat_of_le_succ hmono
  have hfalls : Monotone fun k => OrderDual.toDual (B - f k) :=
    fun a b hab => OrderDual.toDual_le_toDual.mpr (Nat.sub_le_sub_left (hmonotone hab) B)
  obtain ⟨K, hK⟩ := WellFoundedGT.monotone_chain_condition ⟨_, hfalls⟩
  refine ⟨f K, Filter.eventually_atTop.mpr ⟨K, fun k hk => ?_⟩⟩
  have hsame : B - f K = B - f k := OrderDual.toDual.injective (hK k hk)
  have hB := hle k
  have hB' := hle K
  omega

namespace Machine
variable [DecidableEq ι] {m : Machine ι σ Act Res Call Ret Local} {D : Driver ι Call Ret}

/-- Thread `i` can take a step. -/
def Enabled (m : Machine ι σ Act Res Call Ret Local) (i : ι)
    (cfg : Config ι σ Act Res Call Ret Local D) : Prop :=
  ∃ choice next, Choice.thread choice = i ∧ m.step cfg choice = some next

/-- A run without end. -/
structure Unending (m : Machine ι σ Act Res Call Ret Local)
    (start : Config ι σ Act Res Call Ret Local D) where
  cfg : ℕ → Config ι σ Act Res Call Ret Local D
  choice : ℕ → Choice ι Call
  zero : cfg 0 = start
  step : ∀ k, m.step (cfg k) (choice k) = some (cfg (k + 1))

section Enabled
variable {cfg cfg' : Config ι σ Act Res Call Ret Local D} {i : ι}

theorem enabled_running (m : Machine ι σ Act Res Call Ret Local) {call : Call i}
    {rest : Prog Act Res (Ret i × Local i)} (h : cfg.status i = .running call rest) :
    m.Enabled i cfg := by
  cases rest with
  | ret value => exact ⟨.go i, finished cfg i call value.1 value.2, rfl, by simp [Machine.step, h]⟩
  | act action next => exact ⟨.go i, m.acted cfg i call action next, rfl, by simp [Machine.step, h]⟩

theorem enabled_offered (m : Machine ι σ Act Res Call Ret Local) {data : Local i} {call : Call i}
    (h : cfg.status i = .idle data) (hoffers : D.offers i (cfg.driver i) call = true) :
    m.Enabled i cfg :=
  ⟨.start i call, m.started cfg i call data, rfl, by simp [Machine.step, h, hoffers]⟩

theorem not_enabled_of_idle (m : Machine ι σ Act Res Call Ret Local) {data : Local i}
    (h : cfg.status i = .idle data) (hnone : ∀ call, D.offers i (cfg.driver i) call = false) :
    ¬ m.Enabled i cfg := by
  rintro ⟨choice, next, hthread, hstep⟩
  cases choice with
  | start j call =>
    obtain rfl : j = i := hthread
    obtain ⟨data, -, hoffers, -⟩ := step_start hstep
    rw [hnone call] at hoffers
    cases hoffers
  | go j =>
    obtain rfl : j = i := hthread
    simp [Machine.step, h] at hstep

theorem enabled_congr (m : Machine ι σ Act Res Call Ret Local) (hstatus : cfg'.status i = cfg.status i)
    (hdriver : cfg'.driver i = cfg.driver i) (h : m.Enabled i cfg) : m.Enabled i cfg' := by
  obtain ⟨choice, next, hthread, hstep⟩ := h
  cases choice with
  | start j call =>
    obtain rfl : j = i := hthread
    obtain ⟨data, hidle, hoffers, -⟩ := step_start hstep
    exact enabled_offered m (hstatus.trans hidle) (by rw [hdriver]; exact hoffers)
  | go j =>
    obtain rfl : j = i := hthread
    obtain ⟨call, action, next, hrunning, -⟩ | ⟨call, result, data, hrunning, -⟩ := step_go hstep
    · exact enabled_running m (hstatus.trans hrunning)
    · exact enabled_running m (hstatus.trans hrunning)

/-- What a step of another thread leaves of thread `i`. -/
structure Same (i : ι) (cfg cfg' : Config ι σ Act Res Call Ret Local D) : Prop where
  status : cfg'.status i = cfg.status i
  driver : cfg'.driver i = cfg.driver i
  seen : seen i cfg'.world.history = AtomicProgram.seen i cfg.world.history

theorem same_of_step {choice : Choice ι Call} (hstep : m.step cfg choice = some cfg')
    (hi : choice.thread ≠ i) : Same i cfg cfg' := by
  cases choice with
  | start j call =>
    have hj : i ≠ j := fun heq => hi heq.symm
    obtain ⟨data, hidle, hoffers, rfl⟩ := step_start hstep
    exact ⟨started_status_ne m cfg hj call data, rfl, seen_start_ne _ hj call⟩
  | go j =>
    have hj : i ≠ j := fun heq => hi heq.symm
    obtain ⟨call, action, next, hrunning, rfl⟩ | ⟨call, result, data, hrunning, rfl⟩ := step_go hstep
    · exact ⟨acted_status_ne m cfg hj call action next, rfl, seen_act_ne _ hj m call action⟩
    · exact ⟨finished_status_ne cfg hj call result data, finished_driver_ne cfg hj call result data,
        rfl⟩

end Enabled

namespace Unending
variable {start : Config ι σ Act Res Call Ret Local D} (r : m.Unending start)

/-- No thread that could go on for ever is left behind. -/
def Fair : Prop :=
  ∀ i k, (∀ k' ≥ k, m.Enabled i (r.cfg k')) → ∃ k' ≥ k, (r.choice k').thread = i

theorem reached (k : ℕ) : ∃ schedule, m.run start schedule = some (r.cfg k) := by
  induction k with
  | zero => exact ⟨[], by rw [r.zero]; rfl⟩
  | succ k ih =>
    obtain ⟨schedule, hrun⟩ := ih
    refine ⟨schedule ++ [r.choice k], ?_⟩
    rw [run, List.foldlM_append]
    change (m.run start schedule).bind (fun cfg => m.run cfg [r.choice k]) = _
    rw [hrun, Option.bind_some, run, List.foldlM_cons, r.step k]
    rfl

theorem stays_disabled {i : ι} {k : ℕ} (h : ¬ m.Enabled i (r.cfg k)) :
    ∀ k' ≥ k, ¬ m.Enabled i (r.cfg k') := by
  intro k' hk'
  induction k', hk' using Nat.le_induction with
  | base => exact h
  | succ k' hk' ih =>
    intro henabled
    have hi : (r.choice k').thread ≠ i := fun heq => ih ⟨_, _, heq, r.step k'⟩
    have hsame := same_of_step (r.step k') hi
    exact ih (enabled_congr m hsame.status.symm hsame.driver.symm henabled)

theorem exists_enabled [Finite ι] : ∃ i, ∀ k, m.Enabled i (r.cfg k) := by
  by_contra hnone
  push Not at hnone
  have hstops : ∀ i, ∀ᶠ k in Filter.atTop, ¬ m.Enabled i (r.cfg k) := fun i => by
    obtain ⟨k, hk⟩ := hnone i
    exact Filter.eventually_atTop.mpr ⟨k, r.stays_disabled hk⟩
  obtain ⟨K, hK⟩ := Filter.eventually_atTop.mp (Filter.eventually_all.mpr hstops)
  exact hK K le_rfl _ ⟨_, _, rfl, r.step K⟩

variable {r} {i : ι}

/-- A thread that can go on does, and is till then as it was. -/
theorem Fair.next (hfair : r.Fair) {k : ℕ} (h : m.Enabled i (r.cfg k)) :
    ∃ k' ≥ k, (r.choice k').thread = i ∧ Same i (r.cfg k) (r.cfg k') := by
  have hwaits : ∀ d, (∀ e < d, (r.choice (k + e)).thread ≠ i) → Same i (r.cfg k) (r.cfg (k + d)) := by
    intro d
    induction d with
    | zero => exact fun _ => ⟨rfl, rfl, rfl⟩
    | succ d ih =>
      intro hothers
      have hsame := ih fun e he => hothers e (Nat.lt_succ_of_lt he)
      have hstep := same_of_step (r.step (k + d)) (hothers d (Nat.lt_succ_self d))
      exact ⟨hstep.status.trans hsame.status, hstep.driver.trans hsame.driver,
        hstep.seen.trans hsame.seen⟩
  classical
  by_cases hmoves : ∃ d, (r.choice (k + d)).thread = i
  · refine ⟨k + Nat.find hmoves, Nat.le_add_right _ _, Nat.find_spec hmoves, ?_⟩
    exact hwaits _ fun e he => Nat.find_min hmoves he
  · have hnever : ∀ d, (r.choice (k + d)).thread ≠ i := fun d hd => hmoves ⟨d, hd⟩
    obtain ⟨k', hk', hthread⟩ := hfair i k fun k' hk' => by
      obtain ⟨d, rfl⟩ := Nat.exists_eq_add_of_le hk'
      have hsame := hwaits d fun e _ => hnever e
      exact enabled_congr m hsame.status hsame.driver h
    obtain ⟨d, rfl⟩ := Nat.exists_eq_add_of_le hk'
    exact absurd hthread (hnever d)

/-- A call about to return at time `k`, which has seen only what `ok` allows. -/
structure Returns (r : m.Unending start) (ok : Seen Act Res → Prop) (i : ι) (call : Call i)
    (result : Ret i) (data : Local i) (k : ℕ) : Prop where
  status : (r.cfg k).status i = .running call (.ret (result, data))
  next : r.cfg (k + 1) = finished (r.cfg k) i call result data
  sees : ∀ v ∈ seen i (r.cfg k).world.history, ok v

theorem Fair.returns (hfair : r.Fair) (ok : Seen Act Res → Prop) {K : ℕ}
    (hok : ∀ k ≥ K, ∀ a, ok ⟨a, (m.exec a (r.cfg k).world.shared).1⟩) {call : Call i}
    (rest : Prog Act Res (Ret i × Local i)) {k : ℕ} (hk : K ≤ k)
    (hstatus : (r.cfg k).status i = .running call rest)
    (hsees : ∀ v ∈ seen i (r.cfg k).world.history, ok v) :
    ∃ k' ≥ k, ∃ result data, Returns r ok i call result data k' ∧
      (r.cfg k').driver i = (r.cfg k).driver i := by
  induction rest generalizing k with
  | ret value =>
    obtain ⟨k', hk', hthread, hsame⟩ := hfair.next (enabled_running m hstatus)
    have hstatus' := hsame.status.trans hstatus
    refine ⟨k', hk', value.1, value.2, ⟨hstatus', ?_, by rwa [hsame.seen]⟩, hsame.driver⟩
    have hstep := r.step k'
    cases hchoice : r.choice k' with
    | start j call' =>
      obtain rfl : j = i := by simpa [hchoice, Choice.thread] using hthread
      rw [hchoice] at hstep
      obtain ⟨data, hidle, -⟩ := step_start hstep
      rw [hstatus'] at hidle
      cases hidle
    | go j =>
      obtain rfl : j = i := by simpa [hchoice, Choice.thread] using hthread
      rw [hchoice] at hstep
      simpa [Machine.step, hstatus'] using hstep.symm
  | act action next ih =>
    obtain ⟨k', hk', hthread, hsame⟩ := hfair.next (enabled_running m hstatus)
    have hstatus' := hsame.status.trans hstatus
    have hacted : r.cfg (k' + 1) = m.acted (r.cfg k') i call action next := by
      have hstep := r.step k'
      cases hchoice : r.choice k' with
      | start j call' =>
        obtain rfl : j = i := by simpa [hchoice, Choice.thread] using hthread
        rw [hchoice] at hstep
        obtain ⟨data, hidle, -⟩ := step_start hstep
        rw [hstatus'] at hidle
        cases hidle
      | go j =>
        obtain rfl : j = i := by simpa [hchoice, Choice.thread] using hthread
        rw [hchoice] at hstep
        simpa [Machine.step, hstatus'] using hstep.symm
    have hseen : seen i (r.cfg (k' + 1)).world.history =
        ⟨action, (m.exec action (r.cfg k').world.shared).1⟩ :: seen i (r.cfg k').world.history := by
      rw [hacted]
      exact seen_act _ m call action
    have hstatus'' : (r.cfg (k' + 1)).status i =
        .running call (next (m.exec action (r.cfg k').world.shared).1) := by
      rw [hacted]
      exact acted_status m _ call action next
    have hdriver : (r.cfg (k' + 1)).driver i = (r.cfg k').driver i := by
      rw [hacted]
      rfl
    obtain ⟨k'', hk'', result, data, hreturns, hdriver'⟩ := ih _ (by omega) hstatus'' (by
      rw [hseen, hsame.seen]
      exact List.forall_mem_cons.mpr ⟨hok k' (hk.trans hk') action, hsees⟩)
    exact ⟨k'', by omega, result, data, hreturns, hdriver'.trans (hdriver.trans hsame.driver)⟩

/-- A thread that is offered a call makes one, and it returns. -/
theorem Fair.calls (hfair : r.Fair) (ok : Seen Act Res → Prop) {K : ℕ}
    (hok : ∀ k ≥ K, ∀ a, ok ⟨a, (m.exec a (r.cfg k).world.shared).1⟩) {k : ℕ} (hk : K ≤ k)
    {data : Local i} (hidle : (r.cfg k).status i = .idle data) {call : Call i}
    (hoffers : D.offers i ((r.cfg k).driver i) call = true) :
    ∃ k' ≥ k, ∃ call' result data', D.offers i ((r.cfg k).driver i) call' = true ∧
      Returns r ok i call' result data' k' ∧ (r.cfg k').driver i = (r.cfg k).driver i := by
  obtain ⟨k', hk', hthread, hsame⟩ := hfair.next (enabled_offered m hidle hoffers)
  have hidle' := hsame.status.trans hidle
  have hstep := r.step k'
  cases hchoice : r.choice k' with
  | go j =>
    obtain rfl : j = i := by simpa [hchoice, Choice.thread] using hthread
    rw [hchoice] at hstep
    simp [Machine.step, hidle'] at hstep
  | start j call' =>
    obtain rfl : j = i := by simpa [hchoice, Choice.thread] using hthread
    rw [hchoice] at hstep
    obtain ⟨data', hdata, hoffers', hstarted⟩ := step_start hstep
    have hstatus : (r.cfg (k' + 1)).status j = .running call' (m.body j call' data') := by
      rw [hstarted]
      exact started_status m _ call' data'
    have hseen : seen j (r.cfg (k' + 1)).world.history = [] := by
      rw [hstarted]
      exact seen_start _ call'
    have hdriver : (r.cfg (k' + 1)).driver j = (r.cfg k').driver j := by
      rw [hstarted]
      rfl
    obtain ⟨k'', hk'', result, data'', hreturns, hdriver'⟩ :=
      hfair.returns ok hok _ (show K ≤ k' + 1 by omega) hstatus (by
        rw [hseen]
        exact List.forall_mem_nil _)
    rw [hsame.driver] at hoffers' hdriver
    exact ⟨k'', by omega, call', result, data'', hoffers', hreturns,
      hdriver'.trans hdriver⟩

theorem Fair.idles (hfair : r.Fair) (i : ι) (K : ℕ) : ∃ k ≥ K, ∃ data, (r.cfg k).status i = .idle data := by
  cases hstatus : (r.cfg K).status i with
  | idle data => exact ⟨K, le_rfl, data, hstatus⟩
  | running call rest =>
    obtain ⟨k, hk, result, data, hreturns, -⟩ := hfair.returns (fun _ => True) (K := K)
      (fun _ _ _ => trivial) rest le_rfl hstatus fun _ _ => trivial
    refine ⟨k + 1, by omega, data, ?_⟩
    rw [hreturns.next]
    exact finished_status _ call result data

end Unending

end Machine

end AtomicProgram

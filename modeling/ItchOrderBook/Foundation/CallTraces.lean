import ItchOrderBook.Foundation.AtomicProgram
import Mathlib.Algebra.Order.Group.Nat

/-! # What a call has seen

A call's actions and their results fix what is left of its program. So a property of
all the ways a program can go, whatever its actions return, holds of every call in every
interleaving. One such property is a bound on the number of actions: a call then ends
within that many steps of its own thread.
-/
namespace AtomicProgram

/-- An action with what it has returned. -/
abbrev Seen (Act : Type) (Res : Act → Type) := (a : Act) × Res a

namespace Prog
variable {Act : Type} {Res : Act → Type} {α β σ : Type}

/-- Whatever its actions return, the program ends in `Q`, given what it has seen before
and since, the latest first. -/
def Sees (Q : List (Seen Act Res) → α → Prop) : Prog Act Res α → List (Seen Act Res) → Prop
  | .ret value, seen => Q seen value
  | .act action next, seen => ∀ result, (next result).Sees Q (⟨action, result⟩ :: seen)

section Rules
variable {Q R : List (Seen Act Res) → α → Prop} {S : List (Seen Act Res) → β → Prop}
  {seen : List (Seen Act Res)} {p : Prog Act Res α}

@[simp] theorem sees_ret {value : α} : (Prog.ret value).Sees Q seen ↔ Q seen value := Iff.rfl

@[simp] theorem sees_act {action : Act} {next : Res action → Prog Act Res α} :
    (Prog.act action next).Sees Q seen ↔
      ∀ result, (next result).Sees Q (⟨action, result⟩ :: seen) := Iff.rfl

theorem Sees.mono (h : p.Sees Q seen) (hQ : ∀ seen value, Q seen value → R seen value) :
    p.Sees R seen := by
  induction p generalizing seen with
  | ret value => exact hQ seen value h
  | act action next ih => exact fun result => ih result (h result)

/-- Sequencing: the rest goes on from what the first part has seen. -/
theorem Sees.bind (h : p.Sees Q seen) {f : α → Prog Act Res β}
    (hf : ∀ seen value, Q seen value → (f value).Sees S seen) : (p >>= f).Sees S seen := by
  induction p generalizing seen with
  | ret value => exact hf seen value h
  | act action next ih => exact fun result => ih result (h result)

theorem Sees.exists (exec : (a : Act) → σ → Res a × σ) (s : σ) (h : p.Sees Q seen) :
    ∃ more value, Q (more ++ seen) value := by
  induction p generalizing seen s with
  | ret value => exact ⟨[], value, h⟩
  | act action next ih =>
    obtain ⟨more, value, hQ⟩ := ih _ (exec action s).2 (h (exec action s).1)
    exact ⟨more ++ [⟨action, (exec action s).1⟩], value, by simpa using hQ⟩

end Rules

end Prog

variable {ι σ Act : Type} {Res : Act → Type} {Call Ret Local : ι → Type}

/-- What the latest call of thread `i` has seen. -/
def seen [DecidableEq ι] (i : ι) : List (Event ι Act Res Call Ret) → List (Seen Act Res)
  | [] => []
  | .start j _ :: history => if j = i then [] else seen i history
  | .act j _ action result :: history =>
    if j = i then ⟨action, result⟩ :: seen i history else seen i history
  | .finish _ _ _ :: history => seen i history

/-- A choice that lets thread `i` go on. -/
def Choice.isGo [DecidableEq ι] (i : ι) : Choice ι Call → Bool
  | .start _ _ => false
  | .go j => j = i

namespace Machine
variable [DecidableEq ι] {m : Machine ι σ Act Res Call Ret Local} {D : Driver ι Call Ret}
  {cfg cfg' : Config ι σ Act Res Call Ret Local D}

/-! ## The events of a run -/

section Events
variable (w : World ι σ Act Res Call Ret) {i j : ι}

theorem seen_start (call : Call i) : seen i (w.start i call).history = [] := if_pos rfl

theorem seen_start_ne (hj : j ≠ i) (call : Call i) :
    seen j (w.start i call).history = seen j w.history := if_neg hj.symm

theorem seen_act (m : Machine ι σ Act Res Call Ret Local) (call : Call i) (action : Act) :
    seen i (m.act w i call action).history =
      ⟨action, (m.exec action w.shared).1⟩ :: seen i w.history := if_pos rfl

theorem seen_act_ne (hj : j ≠ i) (m : Machine ι σ Act Res Call Ret Local) (call : Call i)
    (action : Act) : seen j (m.act w i call action).history = seen j w.history := if_neg hj.symm

end Events

theorem Stepped.history (h : m.Stepped cfg cfg') :
    ∃ e, cfg'.world.history = e :: cfg.world.history := by
  cases h with
  | start i call data hstatus hoffers => exact ⟨_, rfl⟩
  | act i call action next hstatus => exact ⟨_, rfl⟩
  | finish i call result data hstatus => exact ⟨_, rfl⟩

theorem run_cons {choice : Choice ι Call} {schedule : List (Choice ι Call)}
    (h : m.run cfg (choice :: schedule) = some cfg') :
    ∃ next, m.step cfg choice = some next ∧ m.run next schedule = some cfg' := by
  rw [run, List.foldlM_cons, Option.bind_eq_bind, Option.bind_eq_some_iff] at h
  exact h

theorem history_of_run {schedule : List (Choice ι Call)} (h : m.run cfg schedule = some cfg') :
    ∃ new, cfg'.world.history = new ++ cfg.world.history := by
  induction schedule generalizing cfg with
  | nil =>
    obtain rfl := Option.some.inj h
    exact ⟨[], rfl⟩
  | cons choice schedule ih =>
    obtain ⟨next, hstep, hrun⟩ := run_cons h
    obtain ⟨e, he⟩ := (stepped_of_step hstep).history
    obtain ⟨new, hnew⟩ := ih hrun
    exact ⟨new ++ [e], by simp [hnew, he]⟩

theorem Stepped.exists_choice (h : m.Stepped cfg cfg') : ∃ choice, m.step cfg choice = some cfg' := by
  cases h with
  | start i call data hstatus hoffers => exact ⟨.start i call, by simp [step, hstatus, hoffers]⟩
  | act i call action next hstatus => exact ⟨.go i, by simp [step, hstatus]⟩
  | finish i call result data hstatus => exact ⟨.go i, by simp [step, hstatus]⟩

/-- What a step from where a run has come keeps, every run keeps. -/
theorem run_induction {P : Config ι σ Act Res Call Ret Local D → Prop} (hstart : P cfg)
    (hstep : ∀ next next', (∃ schedule, m.run cfg schedule = some next) → P next →
      m.Stepped next next' → P next')
    {schedule : List (Choice ι Call)} (hrun : m.run cfg schedule = some cfg') : P cfg' := by
  refine (run_invariant (P := fun next => (∃ schedule, m.run cfg schedule = some next) ∧ P next)
    ?_ ⟨⟨[], rfl⟩, hstart⟩ hrun).2
  rintro next next' ⟨⟨front, hfront⟩, hnext⟩ hstepped
  obtain ⟨choice, hchoice⟩ := hstepped.exists_choice
  refine ⟨⟨front ++ [choice], ?_⟩, hstep next next' ⟨front, hfront⟩ hnext hstepped⟩
  rw [run, List.foldlM_append]
  change (m.run cfg front).bind (fun next => m.run next [choice]) = _
  rw [hfront, Option.bind_some, run, List.foldlM_cons, hchoice]
  rfl

/-! ## Every call in every interleaving -/

section Sees
variable {Q : (i : ι) → Call i → List (Seen Act Res) → Ret i × Local i → Prop}

/-- The calls under way end in `Q`. -/
def AllSee (Q : (i : ι) → Call i → List (Seen Act Res) → Ret i × Local i → Prop)
    (cfg : Config ι σ Act Res Call Ret Local D) : Prop :=
  ∀ i call rest, cfg.status i = .running call rest →
    rest.Sees (Q i call) (seen i cfg.world.history)

theorem AllSee.step (hbody : ∀ i call data, (m.body i call data).Sees (Q i call) [])
    (h : AllSee Q cfg) (hstep : m.Stepped cfg cfg') : AllSee Q cfg' := by
  intro j call' rest hrest
  cases hstep with
  | start i call data hstatus hoffers =>
    by_cases hj : j = i
    · subst hj
      rw [started_status] at hrest
      cases hrest
      change Prog.Sees _ _ (seen j (cfg.world.start j call').history)
      rw [seen_start]
      exact hbody j call' data
    · rw [started_status_ne m cfg hj] at hrest
      change Prog.Sees _ _ (seen j (cfg.world.start i call).history)
      rw [seen_start_ne _ hj]
      exact h j call' rest hrest
  | act i call action next hstatus =>
    by_cases hj : j = i
    · subst hj
      rw [acted_status] at hrest
      cases hrest
      change Prog.Sees _ _ (seen j (m.act cfg.world j call' action).history)
      rw [seen_act]
      exact h j call' _ hstatus _
    · rw [acted_status_ne m cfg hj] at hrest
      change Prog.Sees _ _ (seen j (m.act cfg.world i call action).history)
      rw [seen_act_ne _ hj]
      exact h j call' rest hrest
  | finish i call result data hstatus =>
    by_cases hj : j = i
    · subst hj
      rw [finished_status] at hrest
      cases hrest
    · rw [finished_status_ne cfg hj] at hrest
      exact h j call' rest hrest

/-- What holds of all the ways the calls can go, holds of the calls of every run that
starts with none under way. -/
theorem allSee_run (hbody : ∀ i call data, (m.body i call data).Sees (Q i call) [])
    (hidle : ∀ i, ∃ data, cfg.status i = .idle data) {schedule : List (Choice ι Call)}
    (hrun : m.run cfg schedule = some cfg') : AllSee Q cfg' := by
  refine run_invariant (P := AllSee Q) (fun _ _ h hstep => h.step hbody hstep) ?_ hrun
  intro i call rest hrest
  obtain ⟨data, hdata⟩ := hidle i
  rw [hdata] at hrest
  cases hrest

end Sees

/-! ## Bounded calls -/

section Bounded
variable {bound : (i : ι) → Call i → ℕ}

/-- The call never takes more actions than its bound. -/
def Within (bound : (i : ι) → Call i → ℕ) (i : ι) (call : Call i)
    (seen : List (Seen Act Res)) (_ : Ret i × Local i) : Prop := seen.length ≤ bound i call

theorem AllSee.length_le (h : AllSee (Within bound) cfg) (m : Machine ι σ Act Res Call Ret Local)
    {i : ι} {call : Call i} {rest : Prog Act Res (Ret i × Local i)}
    (hstatus : cfg.status i = .running call rest) :
    (seen i cfg.world.history).length ≤ bound i call := by
  obtain ⟨more, value, hlength⟩ := (h i call rest hstatus).exists m.exec cfg.world.shared
  have hle : (more ++ seen i cfg.world.history).length ≤ bound i call := hlength
  rw [List.length_append] at hle
  omega

/-- A call ends once its thread has gone on for one step more than the bound leaves it,
however the other threads have gone on meanwhile. -/
theorem finishes_within (hbody : ∀ i call data, (m.body i call data).Sees (Within bound i call) [])
    (h : AllSee (Within bound) cfg) {i : ι} {call : Call i}
    {rest : Prog Act Res (Ret i × Local i)} (hstatus : cfg.status i = .running call rest)
    {schedule : List (Choice ι Call)} (hrun : m.run cfg schedule = some cfg')
    (hmany : bound i call < (seen i cfg.world.history).length + schedule.countP (Choice.isGo i)) :
    ∃ new result, cfg'.world.history = new ++ cfg.world.history ∧
      Event.finish i call result ∈ new := by
  induction schedule generalizing cfg rest with
  | nil =>
    have hle := h.length_le m hstatus
    simp at hmany
    omega
  | cons choice schedule ih =>
    obtain ⟨next, hstep, hrun⟩ := run_cons hrun
    have hstepped := stepped_of_step hstep
    have hnext := h.step hbody hstepped
    -- the step is not the call's own last one, and leaves the call under way
    have hlater : ∀ rest', next.status i = .running call rest' →
        (bound i call < (seen i next.world.history).length + schedule.countP (Choice.isGo i)) →
        ∃ new result, cfg'.world.history = new ++ cfg.world.history ∧
          Event.finish i call result ∈ new := by
      intro rest' hrest' hmany'
      obtain ⟨new, result, hnew, hmem⟩ := ih hnext hrest' hrun hmany'
      obtain ⟨e, he⟩ := hstepped.history
      exact ⟨new ++ [e], result, by simp [hnew, he], List.mem_append_left _ hmem⟩
    cases choice with
    | start j call' =>
      obtain ⟨data, hidle, -, rfl⟩ := step_start hstep
      have hi : i ≠ j := by
        rintro rfl
        rw [hidle] at hstatus
        cases hstatus
      refine hlater rest ((started_status_ne m cfg hi call' data).trans hstatus) ?_
      change _ < (seen i (cfg.world.start j call').history).length + _
      rw [seen_start_ne _ hi]
      simpa [Choice.isGo] using hmany
    | go j =>
      by_cases hi : i = j
      · subst hi
        obtain ⟨call', action, next', hrest, rfl⟩ | ⟨call', result, data, hrest, rfl⟩ :=
          step_go hstep
        · rw [hstatus] at hrest
          cases hrest
          refine hlater _ (acted_status m cfg call action next') ?_
          change _ < (seen i (m.act cfg.world i call action).history).length + _
          rw [seen_act, List.length_cons]
          have hone : (Choice.go i :: schedule).countP ((Choice.isGo i : Choice ι Call → Bool)) =
              schedule.countP (Choice.isGo i) + 1 := List.countP_cons_of_pos (by simp [Choice.isGo])
          omega
        · rw [hstatus] at hrest
          cases hrest
          obtain ⟨new, hnew⟩ := history_of_run hrun
          refine ⟨new ++ [.finish i call result], result, ?_, by simp⟩
          rw [hnew, List.append_assoc]
          rfl
      · have hstatus' : next.status i = cfg.status i ∧
            seen i next.world.history = seen i cfg.world.history := by
          obtain ⟨call', action, next', hrest, rfl⟩ | ⟨call', result, data, hrest, rfl⟩ :=
            step_go hstep
          · exact ⟨acted_status_ne m cfg hi call' action next', seen_act_ne _ hi m call' action⟩
          · exact ⟨finished_status_ne cfg hi call' result data, rfl⟩
        refine hlater rest (hstatus'.1.trans hstatus) ?_
        rw [hstatus'.2]
        have hj : ¬ j = i := fun heq => hi heq.symm
        simpa [Choice.isGo, hj] using hmany

end Bounded

end Machine

end AtomicProgram

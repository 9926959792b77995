import Mathlib.Logic.Function.Basic
import Mathlib.Data.Nat.Notation

/-! # Threads of atomic actions

A program is a tree of atomic actions, each continued on the action's result. Threads
start calls of their own choosing and interleave action by action; a driver says
which calls a thread may start next.
-/
namespace AtomicProgram

inductive Prog (Act : Type) (Res : Act → Type) (α : Type) : Type
  | ret (value : α)
  | act (action : Act) (next : Res action → Prog Act Res α)

namespace Prog
variable {Act : Type} {Res : Act → Type} {α β σ : Type}

def bind : Prog Act Res α → (α → Prog Act Res β) → Prog Act Res β
  | .ret value, f => f value
  | .act action next, f => .act action fun result => (next result).bind f

instance : Monad (Prog Act Res) where
  pure := .ret
  bind := bind

/-- One action, returning its result. -/
def perform (action : Act) : Prog Act Res (Res action) := .act action .ret

/-- The program with no other thread about. -/
def solo (exec : (a : Act) → σ → Res a × σ) : Prog Act Res α → σ → α × σ
  | .ret value, s => (value, s)
  | .act action next, s => (next (exec action s).1).solo exec (exec action s).2

@[simp] theorem pure_eq (value : α) : (pure value : Prog Act Res α) = .ret value := rfl

@[simp] theorem bind_ret (value : α) (f : α → Prog Act Res β) :
    (Prog.ret value >>= f) = f value := rfl

@[simp] theorem bind_act (action : Act) (next : Res action → Prog Act Res α)
    (f : α → Prog Act Res β) :
    (Prog.act action next >>= f) = .act action fun result => next result >>= f := rfl

@[simp] theorem bind_perform (action : Act) (f : Res action → Prog Act Res β) :
    (perform action >>= f) = .act action f := rfl

@[simp] theorem solo_ret (exec : (a : Act) → σ → Res a × σ) (value : α) (s : σ) :
    (Prog.ret value : Prog Act Res α).solo exec s = (value, s) := rfl

@[simp] theorem solo_act (exec : (a : Act) → σ → Res a × σ) (action : Act)
    (next : Res action → Prog Act Res α) (s : σ) :
    (Prog.act action next).solo exec s =
      (next (exec action s).1).solo exec (exec action s).2 := rfl

theorem solo_bind (exec : (a : Act) → σ → Res a × σ) (p : Prog Act Res α)
    (f : α → Prog Act Res β) (s : σ) :
    (p >>= f).solo exec s = (f (p.solo exec s).1).solo exec (p.solo exec s).2 := by
  induction p generalizing s with
  | ret value => rfl
  | act action next ih => exact ih _ _

/-- Every action the program can take is allowed, and what it can return satisfies `post`. -/
def Within (allowed : Act → Prop) (post : α → Prop) : Prog Act Res α → Prop
  | .ret value => post value
  | .act action next => allowed action ∧ ∀ result, (next result).Within allowed post

theorem Within.bind {allowed : Act → Prop} {mid : α → Prop} {post : β → Prop}
    {p : Prog Act Res α} {f : α → Prog Act Res β} (h : p.Within allowed mid)
    (hf : ∀ value, mid value → (f value).Within allowed post) :
    (p >>= f).Within allowed post := by
  induction p with
  | ret value => exact hf value h
  | act action next ih => exact ⟨h.1, fun result => ih result (h.2 result)⟩

theorem within_trivial (p : Prog Act Res α) : p.Within (fun _ => True) fun _ => True := by
  induction p with
  | ret value => exact True.intro
  | act action next ih => exact ⟨True.intro, ih⟩

end Prog

variable {ι σ Act : Type} {Res : Act → Type} {Call Ret Local : ι → Type}

/-- What the actions do, and the program of each call on the thread's own data. -/
structure Machine (ι σ Act : Type) (Res : Act → Type) (Call Ret Local : ι → Type) where
  exec : (a : Act) → σ → Res a × σ
  body : (i : ι) → Call i → Local i → Prog Act Res (Ret i × Local i)

inductive Event (ι Act : Type) (Res : Act → Type) (Call Ret : ι → Type)
  | start (i : ι) (call : Call i)
  | act (i : ι) (call : Call i) (action : Act) (result : Res action)
  | finish (i : ι) (call : Call i) (result : Ret i)

/-- The events before the latest call of thread `i` started. -/
def callStart [DecidableEq ι] (i : ι) : List (Event ι Act Res Call Ret) →
    List (Event ι Act Res Call Ret)
  | [] => []
  | .start j _ :: history => if j = i then history else callStart i history
  | .act _ _ _ _ :: history => callStart i history
  | .finish _ _ _ :: history => callStart i history

/-- The shared state and all events so far, the latest first. -/
structure World (ι σ Act : Type) (Res : Act → Type) (Call Ret : ι → Type) where
  history : List (Event ι Act Res Call Ret)
  shared : σ

inductive Status (Act : Type) (Res : Act → Type) (Call Ret Local : Type)
  | idle (data : Local)
  | running (call : Call) (rest : Prog Act Res (Ret × Local))

/-- Which calls a thread may start, by what its calls have returned so far. -/
structure Driver (ι : Type) (Call Ret : ι → Type) where
  State : ι → Type
  offers : (i : ι) → State i → Call i → Bool
  after : (i : ι) → State i → Call i → Ret i → State i

/-- Any call at any time. -/
def Driver.free (ι : Type) (Call Ret : ι → Type) : Driver ι Call Ret where
  State _ := Unit
  offers _ _ _ := true
  after _ _ _ _ := ()

structure Config (ι σ Act : Type) (Res : Act → Type) (Call Ret Local : ι → Type)
    (D : Driver ι Call Ret) where
  world : World ι σ Act Res Call Ret
  status : (i : ι) → Status Act Res (Call i) (Ret i) (Local i)
  driver : (i : ι) → D.State i

/-- What a schedule picks: a thread to start a call, or a running one to go on. -/
inductive Choice (ι : Type) (Call : ι → Type)
  | start (i : ι) (call : Call i)
  | go (i : ι)

/-- A call and `steps` steps of its thread, with none of the others between. -/
def Choice.through (i : ι) (call : Call i) (steps : ℕ) : List (Choice ι Call) :=
  .start i call :: List.replicate steps (.go i)

section Worlds

def World.start (w : World ι σ Act Res Call Ret) (i : ι) (call : Call i) :
    World ι σ Act Res Call Ret := ⟨.start i call :: w.history, w.shared⟩

def World.finish (w : World ι σ Act Res Call Ret) (i : ι) (call : Call i) (result : Ret i) :
    World ι σ Act Res Call Ret := ⟨.finish i call result :: w.history, w.shared⟩

def Machine.act (m : Machine ι σ Act Res Call Ret Local) (w : World ι σ Act Res Call Ret) (i : ι)
    (call : Call i) (action : Act) : World ι σ Act Res Call Ret :=
  ⟨.act i call action (m.exec action w.shared).1 :: w.history, (m.exec action w.shared).2⟩

end Worlds

namespace Machine
variable [DecidableEq ι] (m : Machine ι σ Act Res Call Ret Local) {D : Driver ι Call Ret}

def started (cfg : Config ι σ Act Res Call Ret Local D) (i : ι) (call : Call i) (data : Local i) :
    Config ι σ Act Res Call Ret Local D where
  world := cfg.world.start i call
  status := Function.update cfg.status i (.running call (m.body i call data))
  driver := cfg.driver

def acted (cfg : Config ι σ Act Res Call Ret Local D) (i : ι) (call : Call i) (action : Act)
    (next : Res action → Prog Act Res (Ret i × Local i)) :
    Config ι σ Act Res Call Ret Local D where
  world := m.act cfg.world i call action
  status := Function.update cfg.status i (.running call (next (m.exec action cfg.world.shared).1))
  driver := cfg.driver

def finished (cfg : Config ι σ Act Res Call Ret Local D) (i : ι) (call : Call i) (result : Ret i)
    (data : Local i) : Config ι σ Act Res Call Ret Local D where
  world := cfg.world.finish i call result
  status := Function.update cfg.status i (.idle data)
  driver := Function.update cfg.driver i (D.after i (cfg.driver i) call result)

section Status
variable (cfg : Config ι σ Act Res Call Ret Local D) {i j : ι}

theorem started_status (call : Call i) (data : Local i) :
    (m.started cfg i call data).status i = .running call (m.body i call data) :=
  Function.update_self ..

theorem started_status_ne (hj : j ≠ i) (call : Call i) (data : Local i) :
    (m.started cfg i call data).status j = cfg.status j := Function.update_of_ne hj ..

theorem acted_status (call : Call i) (action : Act)
    (next : Res action → Prog Act Res (Ret i × Local i)) :
    (m.acted cfg i call action next).status i =
      .running call (next (m.exec action cfg.world.shared).1) := Function.update_self ..

theorem acted_status_ne (hj : j ≠ i) (call : Call i) (action : Act)
    (next : Res action → Prog Act Res (Ret i × Local i)) :
    (m.acted cfg i call action next).status j = cfg.status j := Function.update_of_ne hj ..

theorem finished_status (call : Call i) (result : Ret i) (data : Local i) :
    (finished cfg i call result data).status i = .idle data := Function.update_self ..

theorem finished_status_ne (hj : j ≠ i) (call : Call i) (result : Ret i) (data : Local i) :
    (finished cfg i call result data).status j = cfg.status j := Function.update_of_ne hj ..

theorem finished_driver (call : Call i) (result : Ret i) (data : Local i) :
    (finished cfg i call result data).driver i = D.after i (cfg.driver i) call result :=
  Function.update_self ..

theorem finished_driver_ne (hj : j ≠ i) (call : Call i) (result : Ret i) (data : Local i) :
    (finished cfg i call result data).driver j = cfg.driver j := Function.update_of_ne hj ..

end Status

def step (cfg : Config ι σ Act Res Call Ret Local D) :
    Choice ι Call → Option (Config ι σ Act Res Call Ret Local D)
  | .start i call =>
    match cfg.status i with
    | .idle data => if D.offers i (cfg.driver i) call then some (m.started cfg i call data) else none
    | .running _ _ => none
  | .go i =>
    match cfg.status i with
    | .idle _ => none
    | .running call (.act action next) => some (m.acted cfg i call action next)
    | .running call (.ret (result, data)) => some (finished cfg i call result data)

def run (cfg : Config ι σ Act Res Call Ret Local D) (schedule : List (Choice ι Call)) :
    Option (Config ι σ Act Res Call Ret Local D) :=
  schedule.foldlM m.step cfg

/-- The three things a step can do. -/
inductive Stepped (cfg : Config ι σ Act Res Call Ret Local D) :
    Config ι σ Act Res Call Ret Local D → Prop
  | start (i : ι) (call : Call i) (data : Local i) (status : cfg.status i = .idle data)
      (offers : D.offers i (cfg.driver i) call = true) : Stepped cfg (m.started cfg i call data)
  | act (i : ι) (call : Call i) (action : Act)
      (next : Res action → Prog Act Res (Ret i × Local i))
      (status : cfg.status i = .running call (.act action next)) :
      Stepped cfg (m.acted cfg i call action next)
  | finish (i : ι) (call : Call i) (result : Ret i) (data : Local i)
      (status : cfg.status i = .running call (.ret (result, data))) :
      Stepped cfg (finished cfg i call result data)

variable {m}

theorem step_start {cfg cfg' : Config ι σ Act Res Call Ret Local D} {i : ι} {call : Call i}
    (h : m.step cfg (.start i call) = some cfg') : ∃ data, cfg.status i = .idle data ∧
      D.offers i (cfg.driver i) call = true ∧ cfg' = m.started cfg i call data := by
  rw [step] at h
  cases hs : cfg.status i with
  | running call' rest =>
    rw [hs] at h
    cases h
  | idle data =>
    rw [hs] at h
    by_cases hoffers : D.offers i (cfg.driver i) call = true
    · simp only [hoffers, if_true] at h
      exact ⟨data, rfl, hoffers, (Option.some.inj h).symm⟩
    · simp [hoffers] at h

theorem step_go {cfg cfg' : Config ι σ Act Res Call Ret Local D} {i : ι}
    (h : m.step cfg (.go i) = some cfg') :
    (∃ call action next, cfg.status i = .running call (.act action next) ∧
      cfg' = m.acted cfg i call action next) ∨
    ∃ call result data, cfg.status i = .running call (.ret (result, data)) ∧
      cfg' = finished cfg i call result data := by
  rw [step] at h
  cases hs : cfg.status i with
  | idle data =>
    rw [hs] at h
    cases h
  | running call rest =>
    rw [hs] at h
    cases rest with
    | act action next => exact .inl ⟨call, action, next, rfl, (Option.some.inj h).symm⟩
    | ret value => exact .inr ⟨call, value.1, value.2, rfl, (Option.some.inj h).symm⟩

theorem stepped_of_step {cfg cfg' : Config ι σ Act Res Call Ret Local D} {choice : Choice ι Call}
    (h : m.step cfg choice = some cfg') : m.Stepped cfg cfg' := by
  cases choice with
  | start i call =>
    obtain ⟨data, hs, hoffers, rfl⟩ := step_start h
    exact .start i call data hs hoffers
  | go i =>
    obtain ⟨call, action, next, hs, rfl⟩ | ⟨call, result, data, hs, rfl⟩ := step_go h
    · exact .act i call action next hs
    · exact .finish i call result data hs

/-- What every step keeps, every run keeps. -/
theorem run_invariant {P : Config ι σ Act Res Call Ret Local D → Prop}
    (hstep : ∀ cfg cfg', P cfg → m.Stepped cfg cfg' → P cfg')
    {cfg cfg' : Config ι σ Act Res Call Ret Local D} (h : P cfg) {schedule : List (Choice ι Call)}
    (hrun : m.run cfg schedule = some cfg') : P cfg' := by
  induction schedule generalizing cfg with
  | nil =>
    obtain rfl := Option.some.inj hrun
    exact h
  | cons choice schedule ih =>
    rw [run, List.foldlM_cons, Option.bind_eq_bind, Option.bind_eq_some_iff] at hrun
    obtain ⟨next, hnext, hrun⟩ := hrun
    exact ih (hstep cfg next h (stepped_of_step hnext)) hrun

/-- A running call that is left alone runs to its end. -/
theorem exists_run_solo {cfg : Config ι σ Act Res Call Ret Local D} {i : ι} {call : Call i}
    (rest : Prog Act Res (Ret i × Local i)) (hstatus : cfg.status i = .running call rest) :
    ∃ steps cfg', m.run cfg (List.replicate steps (.go i)) = some cfg' ∧
      cfg'.world.shared = (rest.solo m.exec cfg.world.shared).2 ∧
      cfg'.status i = .idle (rest.solo m.exec cfg.world.shared).1.2 ∧
      ∀ j ≠ i, cfg'.status j = cfg.status j := by
  induction rest generalizing cfg with
  | ret value =>
    refine ⟨1, finished cfg i call value.1 value.2, ?_, rfl, finished_status cfg call _ _,
      fun j hj => finished_status_ne cfg hj call _ _⟩
    simp [run, step, hstatus]
  | act action next ih =>
    obtain ⟨steps, cfg', hrun, hshared, hidle, hothers⟩ :=
      ih _ (acted_status m cfg call action next)
    refine ⟨steps + 1, cfg', ?_, hshared, hidle, fun j hj => ?_⟩
    · have hgo : m.step cfg (.go i) = some (m.acted cfg i call action next) := by
        simp [step, hstatus]
      rw [run, List.replicate_succ, List.foldlM_cons, hgo]
      exact hrun
    · exact (hothers j hj).trans (acted_status_ne m cfg hj call action next)

/-- From where a run has come, a call may follow with no other thread moving. -/
theorem exists_run_through {start cfg : Config ι σ Act Res Call Ret Local D}
    {schedule : List (Choice ι Call)} (hrun : m.run start schedule = some cfg) {i : ι}
    {data : Local i} (hidle : cfg.status i = .idle data) (call : Call i)
    (hoffers : D.offers i (cfg.driver i) call = true) :
    ∃ steps cfg', m.run start (schedule ++ Choice.through i call steps) = some cfg' ∧
      cfg'.world.shared = ((m.body i call data).solo m.exec cfg.world.shared).2 ∧
      cfg'.status i = .idle ((m.body i call data).solo m.exec cfg.world.shared).1.2 ∧
      ∀ j ≠ i, cfg'.status j = cfg.status j := by
  have hstart : m.step cfg (.start i call) = some (m.started cfg i call data) := by
    simp [step, hidle, hoffers]
  obtain ⟨steps, cfg', hsteps, hshared, hdone, hothers⟩ :=
    exists_run_solo _ (started_status m cfg call data)
  refine ⟨steps, cfg', ?_, hshared, hdone, fun j hj => ?_⟩
  · rw [run, List.foldlM_append]
    change (m.run start schedule).bind (fun cfg => m.run cfg (Choice.through i call steps)) = _
    rw [hrun, Option.bind_some, run, Choice.through, List.foldlM_cons, hstart]
    exact hsteps
  · exact (hothers j hj).trans (started_status_ne m cfg hj call data)

section Where
variable (m) (allows : Config ι σ Act Res Call Ret Local D → Choice ι Call → Bool)

/-- A run each of whose steps is taken where it is allowed. -/
def runWhere (cfg : Config ι σ Act Res Call Ret Local D) (schedule : List (Choice ι Call)) :
    Option (Config ι σ Act Res Call Ret Local D) :=
  schedule.foldlM (fun cfg choice => if allows cfg choice then m.step cfg choice else none) cfg

variable {m allows}

theorem runWhere_cons {cfg cfg' : Config ι σ Act Res Call Ret Local D} {choice : Choice ι Call}
    {schedule : List (Choice ι Call)}
    (h : m.runWhere allows cfg (choice :: schedule) = some cfg') :
    allows cfg choice = true ∧ ∃ next, m.step cfg choice = some next ∧
      m.runWhere allows next schedule = some cfg' := by
  rw [runWhere, List.foldlM_cons, Option.bind_eq_bind, Option.bind_eq_some_iff] at h
  obtain ⟨next, hnext, hrun⟩ := h
  by_cases hallows : allows cfg choice = true
  · rw [if_pos hallows] at hnext
    exact ⟨hallows, next, hnext, hrun⟩
  · rw [if_neg hallows] at hnext
    cases hnext

theorem run_of_runWhere {cfg cfg' : Config ι σ Act Res Call Ret Local D}
    {schedule : List (Choice ι Call)} (h : m.runWhere allows cfg schedule = some cfg') :
    m.run cfg schedule = some cfg' := by
  induction schedule generalizing cfg with
  | nil => exact h
  | cons choice schedule ih =>
    obtain ⟨-, next, hnext, hrun⟩ := runWhere_cons h
    rw [run, List.foldlM_cons, hnext]
    exact ih hrun

theorem runWhere_invariant {P : Config ι σ Act Res Call Ret Local D → Prop}
    (hstep : ∀ cfg choice cfg', P cfg → allows cfg choice = true → m.step cfg choice = some cfg' →
      P cfg')
    {cfg cfg' : Config ι σ Act Res Call Ret Local D} (h : P cfg) {schedule : List (Choice ι Call)}
    (hrun : m.runWhere allows cfg schedule = some cfg') : P cfg' := by
  induction schedule generalizing cfg with
  | nil =>
    obtain rfl := Option.some.inj hrun
    exact h
  | cons choice schedule ih =>
    obtain ⟨hallows, next, hnext, hrun⟩ := runWhere_cons hrun
    exact ih (hstep cfg choice next h hallows hnext) hrun

end Where

end Machine

end AtomicProgram

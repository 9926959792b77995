import ItchOrderBook.Foundation.CallTraces

/-! # Linearization

An object that many threads share, seen as one whose calls take effect one after the
other: what it holds is read off the history, and `does` says what a call may return and
do to it. A call takes effect once, between its start and its return, with one of its
own actions or by looking at what the object then holds.
-/
namespace AtomicProgram

variable {ι σ Act S : Type} {Res : Act → Type} {Call Ret Local : ι → Type}

/-- How far the latest call of a thread has come. -/
inductive Phase (Call Ret : Type)
  | idle
  | pending (call : Call)
  | done (call : Call) (result : Ret)

/-- Each call takes effect once while it is under way, and nothing else changes what the
object holds. -/
inductive Linearized [DecidableEq ι] (holds : List (Event ι Act Res Call Ret) → S)
    (does : (i : ι) → Call i → Ret i → S → S → Prop) :
    List (Event ι Act Res Call Ret) → ((i : ι) → Phase (Call i) (Ret i)) → Prop
  | nil : Linearized holds does [] fun _ => .idle
  | start {history phase} (i : ι) (call : Call i) (before : Linearized holds does history phase)
      (idle : phase i = .idle) (same : holds (.start i call :: history) = holds history) :
      Linearized holds does (.start i call :: history) (Function.update phase i (.pending call))
  | act {history phase} (i : ι) (call : Call i) (action : Act) (seen : Res action)
      (before : Linearized holds does history phase)
      (same : holds (.act i call action seen :: history) = holds history) :
      Linearized holds does (.act i call action seen :: history) phase
  | effect {history phase} (i : ι) (call : Call i) (result : Ret i) (action : Act)
      (seen : Res action) (before : Linearized holds does history phase)
      (pending : phase i = .pending call)
      (allowed : does i call result (holds history) (holds (.act i call action seen :: history))) :
      Linearized holds does (.act i call action seen :: history)
        (Function.update phase i (.done call result))
  | look {history phase} (i : ι) (call : Call i) (result : Ret i)
      (before : Linearized holds does history phase) (pending : phase i = .pending call)
      (allowed : does i call result (holds history) (holds history)) :
      Linearized holds does history (Function.update phase i (.done call result))
  | finish {history phase} (i : ι) (call : Call i) (result : Ret i)
      (before : Linearized holds does history phase) (done : phase i = .done call result)
      (same : holds (.finish i call result :: history) = holds history) :
      Linearized holds does (.finish i call result :: history) (Function.update phase i .idle)

/-- No call of thread `i` starts in these events. -/
def Unstarted (i : ι) (events : List (Event ι Act Res Call Ret)) : Prop :=
  ∀ call, Event.start i call ∉ events

theorem Unstarted.tail {i : ι} {e : Event ι Act Res Call Ret}
    {events : List (Event ι Act Res Call Ret)} (h : Unstarted i (e :: events)) :
    Unstarted i events := fun call hmem => h call (List.mem_cons_of_mem e hmem)

section Linearized
variable [DecidableEq ι] {holds : List (Event ι Act Res Call Ret) → S}
  {does : (i : ι) → Call i → Ret i → S → S → Prop} {history : List (Event ι Act Res Call Ret)}
  {phase : (i : ι) → Phase (Call i) (Ret i)}

/-- A call that is still pending may have taken effect earlier, where it was under way and
the object held what its result asks for. -/
theorem Linearized.look_back (h : Linearized holds does history phase) {i : ι} {call : Call i}
    {result : Ret i} (hpending : phase i = .pending call)
    {since past : List (Event ι Act Res Call Ret)} (hsplit : history = since ++ past)
    (hunstarted : Unstarted i since) (hdoes : does i call result (holds past) (holds past)) :
    Linearized holds does history (Function.update phase i (.done call result)) := by
  have hnow : ∀ {history phase}, Linearized holds does history phase → phase i = .pending call →
      past = history →
      Linearized holds does history (Function.update phase i (.done call result)) := by
    intro history phase h hpending hpast
    subst hpast
    exact h.look i call result hpending hdoes
  induction h generalizing since with
  | nil =>
    obtain ⟨rfl, rfl⟩ := List.append_eq_nil_iff.mp hsplit.symm
    exact hnow .nil hpending rfl
  | start j call' before idle same ih =>
    cases since with
    | nil => exact hnow (.start j call' before idle same) hpending hsplit.symm
    | cons e since =>
      obtain ⟨rfl, rfl⟩ := List.cons.inj hsplit
      have hi : i ≠ j := by
        rintro rfl
        exact hunstarted call' List.mem_cons_self
      rw [Function.update_of_ne hi] at hpending
      rw [Function.update_comm hi.symm]
      exact .start j call' (ih hpending rfl hunstarted.tail) (by rwa [Function.update_of_ne hi.symm]) same
  | act j call' action seen before same ih =>
    cases since with
    | nil => exact hnow (.act j call' action seen before same) hpending hsplit.symm
    | cons e since =>
      obtain ⟨rfl, rfl⟩ := List.cons.inj hsplit
      exact .act j call' action seen (ih hpending rfl hunstarted.tail) same
  | effect j call' result' action seen before pending hdoes' ih =>
    cases since with
    | nil => exact hnow (.effect j call' result' action seen before pending hdoes') hpending hsplit.symm
    | cons e since =>
      obtain ⟨rfl, rfl⟩ := List.cons.inj hsplit
      have hi : i ≠ j := by
        rintro rfl
        rw [Function.update_self] at hpending
        cases hpending
      rw [Function.update_of_ne hi] at hpending
      rw [Function.update_comm hi.symm]
      exact .effect j call' result' action seen (ih hpending rfl hunstarted.tail)
        (by rwa [Function.update_of_ne hi.symm]) hdoes'
  | look j call' result' before pending hdoes' ih =>
    have hi : i ≠ j := by
      rintro rfl
      rw [Function.update_self] at hpending
      cases hpending
    rw [Function.update_of_ne hi] at hpending
    rw [Function.update_comm hi.symm]
    exact .look j call' result' (ih hpending hsplit hunstarted)
      (by rwa [Function.update_of_ne hi.symm]) hdoes'
  | finish j call' result' before done same ih =>
    cases since with
    | nil => exact hnow (.finish j call' result' before done same) hpending hsplit.symm
    | cons e since =>
      obtain ⟨rfl, rfl⟩ := List.cons.inj hsplit
      have hi : i ≠ j := by
        rintro rfl
        rw [Function.update_self] at hpending
        cases hpending
      rw [Function.update_of_ne hi] at hpending
      rw [Function.update_comm hi.symm]
      exact .finish j call' result' (ih hpending rfl hunstarted.tail)
        (by rwa [Function.update_of_ne hi.symm]) same

/-! ## One order of all the calls -/

/-- A call of a thread with its result. -/
structure Operation (ι : Type) (Call Ret : ι → Type) where
  thread : ι
  call : Call thread
  result : Ret thread

/-- The operations one after the other, the latest first. -/
inductive Sequential (does : (i : ι) → Call i → Ret i → S → S → Prop) (s : S) :
    List (Operation ι Call Ret) → S → Prop
  | nil : Sequential does s [] s
  | cons {ops s'} (op : Operation ι Call Ret) (s'' : S) (before : Sequential does s ops s')
      (allowed : does op.thread op.call op.result s' s'') : Sequential does s (op :: ops) s''

/-- The operations of thread `i` that have returned. -/
def returned (i : ι) : List (Event ι Act Res Call Ret) → List (Operation ι Call Ret)
  | [] => []
  | .finish j call result :: history =>
    if j = i then ⟨j, call, result⟩ :: returned i history else returned i history
  | _ :: history => returned i history

/-- The operation a thread has under way, if it has taken effect. -/
def Phase.operation (i : ι) : Phase (Call i) (Ret i) → List (Operation ι Call Ret)
  | .done call result => [⟨i, call, result⟩]
  | _ => []

/-- The operations of thread `i`. -/
def operationsOf (i : ι) (ops : List (Operation ι Call Ret)) : List (Operation ι Call Ret) :=
  ops.filter fun op => op.thread = i

theorem operationsOf_cons (i : ι) (op : Operation ι Call Ret) (ops : List (Operation ι Call Ret)) :
    operationsOf i (op :: ops) =
      if op.thread = i then op :: operationsOf i ops else operationsOf i ops := by
  simp [operationsOf, List.filter_cons]

/-- The calls that have taken effect, in the order in which they have: one after the other
they are what the object would do, and each thread's are those it has been returned. -/
theorem Linearized.sequential (h : Linearized holds does history phase) :
    ∃ ops, Sequential does (holds []) ops (holds history) ∧
      ∀ i, operationsOf i ops = (phase i).operation i ++ returned i history := by
  have heffect : ∀ {history history' : List (Event ι Act Res Call Ret)}
      {phase : (i : ι) → Phase (Call i) (Ret i)} (i : ι) (call : Call i) (result : Ret i),
      phase i = .pending call → does i call result (holds history) (holds history') →
      (∀ j, returned j history' = returned j history) →
      (∃ ops, Sequential does (holds []) ops (holds history) ∧
        ∀ i, operationsOf i ops = (phase i).operation i ++ returned i history) →
      ∃ ops, Sequential does (holds []) ops (holds history') ∧ ∀ j, operationsOf j ops =
        (Function.update phase i (.done call result) j).operation j ++ returned j history' := by
    rintro history history' phase i call result hpending hdoes hreturned ⟨ops, hops, hthreads⟩
    refine ⟨⟨i, call, result⟩ :: ops, hops.cons ⟨i, call, result⟩ _ hdoes, fun j => ?_⟩
    rw [operationsOf_cons, hreturned, hthreads]
    by_cases hj : i = j
    · subst hj
      simp [hpending, Phase.operation]
    · simp [hj, Function.update_of_ne (Ne.symm hj)]
  induction h with
  | nil => exact ⟨[], .nil, fun i => rfl⟩
  | @start history phase i call before idle same ih =>
    obtain ⟨ops, hops, hthreads⟩ := ih
    refine ⟨ops, same ▸ hops, fun j => (hthreads j).trans ?_⟩
    by_cases hj : j = i
    · subst hj
      simp [idle, Phase.operation, returned]
    · simp [hj, returned]
  | @act history phase i call action seen before same ih =>
    obtain ⟨ops, hops, hthreads⟩ := ih
    exact ⟨ops, same ▸ hops, hthreads⟩
  | effect i call result action seen before pending hdoes ih =>
    exact heffect i call result pending hdoes (fun _ => rfl) ih
  | look i call result before pending hdoes ih =>
    exact heffect i call result pending hdoes (fun _ => rfl) ih
  | @finish history phase i call result before done same ih =>
    obtain ⟨ops, hops, hthreads⟩ := ih
    refine ⟨ops, same ▸ hops, fun j => (hthreads j).trans ?_⟩
    by_cases hj : j = i
    · subst hj
      simp [done, Phase.operation, returned]
    · simp [hj, returned, Ne.symm hj]

end Linearized

/-! ## The instants of a call -/

section Instants
variable [DecidableEq ι] {history : List (Event ι Act Res Call Ret)} {i : ι}

theorem seen_split {later earlier : List (Seen Act Res)} {a : Act} {r : Res a}
    (h : seen i history = later ++ ⟨a, r⟩ :: earlier) :
    ∃ (since : List (Event ι Act Res Call Ret)) (call : Call i) (past : List _),
      history = since ++ .act i call a r :: past ∧ seen i past = earlier ∧ Unstarted i since ∧
      ∀ call' a' r', Event.act i call' a' r' ∈ since → (⟨a', r'⟩ : Seen Act Res) ∈ later := by
  induction history generalizing later with
  | nil => simp [seen] at h
  | cons e history ih =>
    have hother : ∀ {e : Event ι Act Res Call Ret}, (∀ call, e ≠ .start i call) →
        (∀ call' a' r', e ≠ .act i call' a' r') → seen i history = later ++ ⟨a, r⟩ :: earlier →
        ∃ (since : List (Event ι Act Res Call Ret)) (call : Call i) (past : List _),
          e :: history = since ++ .act i call a r :: past ∧ seen i past = earlier ∧
          Unstarted i since ∧
          ∀ call' a' r', Event.act i call' a' r' ∈ since → (⟨a', r'⟩ : Seen Act Res) ∈ later := by
      intro e hstart hact h
      obtain ⟨since, call, past, rfl, hpast, hunstarted, hlater⟩ := ih h
      refine ⟨e :: since, call, past, rfl, hpast, fun call' hmem => ?_, fun call' a' r' hmem => ?_⟩
      · rcases List.mem_cons.mp hmem with heq | hmem
        · exact hstart call' heq.symm
        · exact hunstarted call' hmem
      · rcases List.mem_cons.mp hmem with heq | hmem
        · exact absurd heq.symm (hact call' a' r')
        · exact hlater call' a' r' hmem
    cases e with
    | start j call =>
      by_cases hj : j = i
      · simp [seen, hj] at h
      · refine hother (fun call' heq => ?_) (by simp) (by simpa [seen, hj] using h)
        cases heq
        exact hj rfl
    | finish j call result => exact hother (by simp) (by simp) h
    | act j call action result =>
      by_cases hj : j = i
      · subst hj
        simp only [seen, if_true] at h
        cases later with
        | nil =>
          obtain ⟨hview, hrest⟩ := List.cons.inj h
          obtain ⟨rfl, hresult⟩ := Sigma.mk.inj hview
          obtain rfl := eq_of_heq hresult
          exact ⟨[], call, history, rfl, hrest, fun _ => List.not_mem_nil,
            fun _ _ _ hmem => absurd hmem List.not_mem_nil⟩
        | cons v later =>
          obtain ⟨rfl, hrest⟩ := List.cons.inj h
          obtain ⟨since, call', past, rfl, hpast, hunstarted, hlater⟩ := ih hrest
          refine ⟨_ :: since, call', past, rfl, hpast, fun c hmem => ?_, fun c a' r' hmem => ?_⟩
          · rcases List.mem_cons.mp hmem with heq | hmem
            · cases heq
            · exact hunstarted c hmem
          · rcases List.mem_cons.mp hmem with heq | hmem
            · cases heq
              exact List.mem_cons_self
            · exact List.mem_cons_of_mem _ (hlater c a' r' hmem)
      · refine hother (by simp) (fun call' a' r' heq => ?_) (by simpa [seen, hj] using h)
        cases heq
        exact hj rfl

end Instants

namespace Machine
variable [DecidableEq ι] {m : Machine ι σ Act Res Call Ret Local} {D : Driver ι Call Ret}

/-- A run has been at each of its actions: there it had the history before the action, kept
what the run keeps, and the action returned what the event says. -/
theorem exists_past {I : Config ι σ Act Res Call Ret Local D → Prop}
    (hkeeps : ∀ cfg cfg', I cfg → m.Stepped cfg cfg' → I cfg')
    {start cfg : Config ι σ Act Res Call Ret Local D} (hstart : I start)
    (hnew : start.world.history = []) {schedule : List (Choice ι Call)}
    (hrun : m.run start schedule = some cfg) {i : ι} {call : Call i} {a : Act} {r : Res a}
    {since past : List (Event ι Act Res Call Ret)}
    (hsplit : cfg.world.history = since ++ .act i call a r :: past) :
    ∃ cfg₀ : Config ι σ Act Res Call Ret Local D, I cfg₀ ∧ cfg₀.world.history = past ∧
      (m.exec a cfg₀.world.shared).1 = r := by
  have hrun' := run_invariant (P := fun cfg => I cfg ∧ ∀ since,
    cfg.world.history = since ++ .act i call a r :: past →
      ∃ cfg₀ : Config ι σ Act Res Call Ret Local D, I cfg₀ ∧ cfg₀.world.history = past ∧
        (m.exec a cfg₀.world.shared).1 = r) ?_ ?_ hrun
  · exact hrun'.2 since hsplit
  · rintro cfg cfg' ⟨hcfg, hpasts⟩ hstep
    refine ⟨hkeeps cfg cfg' hcfg hstep, fun since hsplit => ?_⟩
    cases since with
    | cons e since =>
      obtain ⟨e', he'⟩ := hstep.history
      rw [he'] at hsplit
      exact hpasts since (List.cons.inj hsplit).2
    | nil =>
      refine ⟨cfg, hcfg, ?_⟩
      cases hstep with
      | start j call' data hstatus hoffers => cases (List.cons.inj hsplit).1
      | finish j call' result data hstatus => cases (List.cons.inj hsplit).1
      | act j call' action next hstatus =>
        obtain ⟨hevent, hpast⟩ := List.cons.inj hsplit
        cases hevent
        exact ⟨hpast, rfl⟩
  · refine ⟨hstart, fun since hsplit => ?_⟩
    rw [hnew] at hsplit
    simp at hsplit

end Machine

end AtomicProgram

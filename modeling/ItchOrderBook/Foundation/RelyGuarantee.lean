import ItchOrderBook.Foundation.AtomicProgram

/-! # Rely and guarantee

A discipline gives each thread a relation it relies on, an invariant of the shared
world and what holds when the thread is idle and when a call returns. Proving each
call safe on its own then proves every interleaving safe.
-/
namespace AtomicProgram

variable {ι σ Act : Type} {Res : Act → Type} {Call Ret Local : ι → Type}

structure Discipline (ι σ Act : Type) (Res : Act → Type) (Call Ret Local : ι → Type) where
  /-- What the other threads may do. -/
  rely : ι → World ι σ Act Res Call Ret → World ι σ Act Res Call Ret → Prop
  inv : World ι σ Act Res Call Ret → Prop
  /-- The worlds the discipline speaks of; an earlier world is one if a later one is. -/
  admissible : List (Event ι Act Res Call Ret) → Prop
  idle : (i : ι) → Local i → World ι σ Act Res Call Ret → Prop
  /-- What holds where an action is about to be taken. -/
  before : (i : ι) → Call i → Act → World ι σ Act Res Call Ret → Prop
  post : (i : ι) → Call i → Ret i × Local i → World ι σ Act Res Call Ret → Prop

namespace Discipline
variable (m : Machine ι σ Act Res Call Ret Local) (d : Discipline ι σ Act Res Call Ret Local)

/-- The move keeps the invariant and is one the other threads rely on. -/
def Keeps (i : ι) (w w' : World ι σ Act Res Call Ret) : Prop :=
  d.inv w' ∧ ∀ j ≠ i, d.rely j w w'

/-- However the others interfere, the program keeps the discipline and returns in `Q`. -/
def Safe (i : ι) (call : Call i) {α : Type} (Q : α → World ι σ Act Res Call Ret → Prop) :
    Prog Act Res α → World ι σ Act Res Call Ret → Prop
  | .ret value, w => ∀ w', d.rely i w w' → d.inv w' → d.admissible w'.history → Q value w'
  | .act action next, w => ∀ w', d.rely i w w' → d.inv w' → d.admissible w'.history →
      d.before i call action w' ∧
      (d.admissible (m.act w' i call action).history →
        d.Keeps i w' (m.act w' i call action) ∧
        Safe i call Q (next (m.exec action w'.shared).1) (m.act w' i call action))

structure Preorder : Prop where
  refl : ∀ i w, d.rely i w w
  trans : ∀ i w₁ w₂ w₃, d.rely i w₁ w₂ → d.rely i w₂ w₃ → d.rely i w₁ w₃

/-- The obligations of a discipline. -/
structure Valid : Prop extends d.Preorder where
  earlier : ∀ e history, d.admissible (e :: history) → d.admissible history
  stable : ∀ i data w w', d.idle i data w → d.rely i w w' → d.inv w' →
    d.admissible w'.history → d.idle i data w'
  start : ∀ i call data w, d.idle i data w → d.inv w → d.admissible (w.start i call).history →
    d.Keeps i w (w.start i call) ∧
    d.Safe m i call (d.post i call) (m.body i call data) (w.start i call)
  finish : ∀ i call result data w, d.post i call (result, data) w → d.inv w →
    d.admissible (w.finish i call result).history →
    d.Keeps i w (w.finish i call result) ∧ d.idle i data (w.finish i call result)

variable {m d}

section Rules
variable {i : ι} {call : Call i} {α β : Type} {Q R : α → World ι σ Act Res Call Ret → Prop}
  {w w' : World ι σ Act Res Call Ret}

theorem Safe.stable (hd : d.Preorder) {p : Prog Act Res α} (h : d.Safe m i call Q p w)
    (hrely : d.rely i w w') : d.Safe m i call Q p w' := by
  cases p with
  | ret value =>
    intro w'' hrely' hinv hadm
    exact h w'' (hd.trans i w w' w'' hrely hrely') hinv hadm
  | act action next =>
    intro w'' hrely' hinv hadm
    exact h w'' (hd.trans i w w' w'' hrely hrely') hinv hadm

theorem Safe.of_later (hd : d.Preorder) {p : Prog Act Res α}
    (h : ∀ w', d.rely i w w' → d.inv w' → d.admissible w'.history → d.Safe m i call Q p w') :
    d.Safe m i call Q p w := by
  cases p with
  | ret value =>
    intro w' hrely hinv hadm
    exact h w' hrely hinv hadm w' (hd.refl i w') hinv hadm
  | act action next =>
    intro w' hrely hinv hadm
    exact h w' hrely hinv hadm w' (hd.refl i w') hinv hadm

theorem Safe.mono {p : Prog Act Res α} (h : d.Safe m i call Q p w)
    (hQ : ∀ value w, d.inv w → d.admissible w.history → Q value w → R value w) :
    d.Safe m i call R p w := by
  induction p generalizing w with
  | ret value =>
    intro w' hrely hinv hadm
    exact hQ value w' hinv hadm (h w' hrely hinv hadm)
  | act action next ih =>
    intro w' hrely hinv hadm
    obtain ⟨hbefore, hnext⟩ := h w' hrely hinv hadm
    refine ⟨hbefore, fun hadm' => ?_⟩
    obtain ⟨hkeeps, hsafe⟩ := hnext hadm'
    exact ⟨hkeeps, ih _ hsafe⟩

/-- Sequencing: the rest is safe wherever the first part returns. -/
theorem Safe.bind (hd : d.Preorder) {p : Prog Act Res α} {f : α → Prog Act Res β}
    {S : β → World ι σ Act Res Call Ret → Prop} (h : d.Safe m i call Q p w)
    (hf : ∀ value w, d.inv w → d.admissible w.history → Q value w →
      d.Safe m i call S (f value) w) :
    d.Safe m i call S (p >>= f) w := by
  induction p generalizing w with
  | ret value =>
    refine Safe.of_later hd fun w' hrely hinv hadm => ?_
    exact hf value w' hinv hadm (h w' hrely hinv hadm)
  | act action next ih =>
    intro w' hrely hinv hadm
    obtain ⟨hbefore, hnext⟩ := h w' hrely hinv hadm
    refine ⟨hbefore, fun hadm' => ?_⟩
    obtain ⟨hkeeps, hsafe⟩ := hnext hadm'
    exact ⟨hkeeps, ih _ hsafe⟩

end Rules

section Runs
variable [DecidableEq ι] {D : Driver ι Call Ret}

/-- Every thread is where the discipline wants it. -/
structure Holds (m : Machine ι σ Act Res Call Ret Local)
    (d : Discipline ι σ Act Res Call Ret Local) (cfg : Config ι σ Act Res Call Ret Local D) :
    Prop where
  inv : d.inv cfg.world
  idle : ∀ i data, cfg.status i = .idle data → d.idle i data cfg.world
  running : ∀ i call rest, cfg.status i = .running call rest →
    d.Safe m i call (d.post i call) rest cfg.world

variable {cfg cfg' : Config ι σ Act Res Call Ret Local D}

/-- A move of thread `i` that keeps the discipline leaves the others where they were. -/
theorem Holds.move (hd : d.Valid m) (h : Holds m d cfg) {i : ι}
    (hadm : d.admissible cfg'.world.history) (hkeeps : d.Keeps i cfg.world cfg'.world)
    (hothers : ∀ j ≠ i, cfg'.status j = cfg.status j)
    (hidle : ∀ data, cfg'.status i = .idle data → d.idle i data cfg'.world)
    (hrunning : ∀ call rest, cfg'.status i = .running call rest →
      d.Safe m i call (d.post i call) rest cfg'.world) : Holds m d cfg' where
  inv := hkeeps.1
  idle j data hj := by
    by_cases hji : j = i
    · subst hji
      exact hidle data hj
    · rw [hothers j hji] at hj
      exact hd.stable j data _ _ (h.idle j data hj) (hkeeps.2 j hji) hkeeps.1 hadm
  running j call rest hj := by
    by_cases hji : j = i
    · subst hji
      exact hrunning call rest hj
    · rw [hothers j hji] at hj
      exact (h.running j call rest hj).stable hd.toPreorder (hkeeps.2 j hji)

theorem Holds.step (hd : d.Valid m) (h : Holds m d cfg) (hstep : m.Stepped cfg cfg')
    (hadm : d.admissible cfg'.world.history) : Holds m d cfg' := by
  cases hstep with
  | start i call data hstatus _ =>
    obtain ⟨hkeeps, hsafe⟩ := hd.start i call data _ (h.idle i data hstatus) h.inv hadm
    refine h.move hd hadm hkeeps (fun j hj => m.started_status_ne cfg hj call data) ?_ ?_
    · intro data' h'
      rw [Machine.started_status] at h'
      cases h'
    · intro call' rest h'
      rw [Machine.started_status] at h'
      cases h'
      exact hsafe
  | act i call action next hstatus =>
    have hearlier := hd.earlier _ _ hadm
    obtain ⟨-, hnext⟩ := h.running i call _ hstatus _ (hd.refl i _) h.inv hearlier
    obtain ⟨hkeeps, hsafe⟩ := hnext hadm
    refine h.move hd hadm hkeeps (fun j hj => m.acted_status_ne cfg hj call action next) ?_ ?_
    · intro data' h'
      rw [Machine.acted_status] at h'
      cases h'
    · intro call' rest h'
      rw [Machine.acted_status] at h'
      cases h'
      exact hsafe
  | finish i call result data hstatus =>
    have hearlier := hd.earlier _ _ hadm
    have hpost := h.running i call _ hstatus _ (hd.refl i _) h.inv hearlier
    obtain ⟨hkeeps, hidle⟩ := hd.finish i call result data _ hpost h.inv hadm
    refine h.move hd hadm hkeeps
      (fun j hj => Machine.finished_status_ne cfg hj call result data) ?_ ?_
    · intro data' h'
      rw [Machine.finished_status] at h'
      cases h'
      exact hidle
    · intro call' rest h'
      rw [Machine.finished_status] at h'
      cases h'

/-- A run whose last world is admissible is admissible throughout, and keeps the
discipline. -/
theorem Holds.run (hd : d.Valid m) (h : Holds m d cfg) {schedule : List (Choice ι Call)}
    (hrun : m.run cfg schedule = some cfg') (hadm : d.admissible cfg'.world.history) :
    Holds m d cfg' := by
  refine Machine.run_invariant (P := fun cfg => d.admissible cfg.world.history → Holds m d cfg)
    ?_ (fun _ => h) hrun hadm
  intro cfg cfg' hcfg hstep hadm'
  have hearlier : d.admissible cfg.world.history := by
    cases hstep <;> exact hd.earlier _ _ hadm'
  exact (hcfg hearlier).step hd hstep hadm'

omit [DecidableEq ι] in
theorem Holds.before (hd : d.Valid m) (h : Holds m d cfg)
    (hadm : d.admissible cfg.world.history) {i : ι} {call : Call i} {action : Act}
    {next : Res action → Prog Act Res (Ret i × Local i)}
    (hstatus : cfg.status i = .running call (.act action next)) :
    d.before i call action cfg.world :=
  (h.running i call _ hstatus _ (hd.refl i _) h.inv hadm).1

omit [DecidableEq ι] in
theorem Holds.post (hd : d.Valid m) (h : Holds m d cfg)
    (hadm : d.admissible cfg.world.history) {i : ι} {call : Call i} {result : Ret i}
    {data : Local i} (hstatus : cfg.status i = .running call (.ret (result, data))) :
    d.post i call (result, data) cfg.world :=
  h.running i call _ hstatus _ (hd.refl i _) h.inv hadm

end Runs

end Discipline

end AtomicProgram

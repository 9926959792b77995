import ItchOrderBook.Foundation.RelyGuarantee

/-! # A world for each thread

On a weak memory no single shared state explains what all threads have read. A
discipline needs none: it is enough that each thread has a world of its own, one the
others may have brought about as far as it can tell, in which its actions have just the
results they have had.
-/
namespace AtomicProgram

variable {ι σ τ Act : Type} {Res : Act → Type} {Call Ret Local : ι → Type}

/-! ## Stronger guards -/

namespace Discipline
variable (m : Machine ι σ Act Res Call Ret Local) (d : Discipline ι σ Act Res Call Ret Local)
  (guard : (i : ι) → Call i → Act → World ι σ Act Res Call Ret → Prop)

/-- However the others interfere, the guard holds at every action of the program. -/
def Along (i : ι) (call : Call i) {α : Type} :
    Prog Act Res α → World ι σ Act Res Call Ret → Prop
  | .ret _, _ => True
  | .act action next, w => ∀ w', d.rely i w w' → d.inv w' → d.admissible w'.history →
      guard i call action w' ∧ (d.admissible (m.act w' i call action).history →
        Along i call (next (m.exec action w'.shared).1) (m.act w' i call action))

/-- The discipline with a guard at every action. -/
def guarded : Discipline ι σ Act Res Call Ret Local :=
  { d with before := fun i call action w => d.before i call action w ∧ guard i call action w }

variable {m d guard}

section Rules
variable {i : ι} {call : Call i} {α β : Type} {Q : α → World ι σ Act Res Call Ret → Prop}
  {w : World ι σ Act Res Call Ret}

theorem Along.of_later (hd : d.Preorder) {p : Prog Act Res α}
    (h : ∀ w', d.rely i w w' → d.inv w' → d.admissible w'.history → d.Along m guard i call p w') :
    d.Along m guard i call p w := by
  cases p with
  | ret value => trivial
  | act action next =>
    intro w' hrely hinv hadm
    exact h w' hrely hinv hadm w' (hd.refl i w') hinv hadm

theorem Along.of_within {allowed : Act → Prop} {post : α → Prop} {p : Prog Act Res α}
    (h : p.Within allowed post) (hallowed : ∀ a, allowed a → ∀ w, guard i call a w) :
    d.Along m guard i call p w := by
  induction p generalizing w with
  | ret value => trivial
  | act action next ih => exact fun w' _ _ _ => ⟨hallowed _ h.1 w', fun _ => ih _ (h.2 _)⟩

theorem Along.bind (hd : d.Preorder) {p : Prog Act Res α} {f : α → Prog Act Res β}
    (h : d.Along m guard i call p w) (hsafe : d.Safe m i call Q p w)
    (hf : ∀ value w, d.inv w → d.admissible w.history → Q value w →
      d.Along m guard i call (f value) w) : d.Along m guard i call (p >>= f) w := by
  induction p generalizing w with
  | ret value =>
    refine Along.of_later hd fun w' hrely hinv hadm => ?_
    exact hf value w' hinv hadm (hsafe w' hrely hinv hadm)
  | act action next ih =>
    intro w' hrely hinv hadm
    obtain ⟨hguard, hnext⟩ := h w' hrely hinv hadm
    refine ⟨hguard, fun hadm' => ih _ (hnext hadm') ?_⟩
    exact ((hsafe w' hrely hinv hadm).2 hadm').2

theorem Safe.guarded {p : Prog Act Res α} (h : d.Safe m i call Q p w)
    (hguard : d.Along m guard i call p w) : (d.guarded guard).Safe m i call Q p w := by
  induction p generalizing w with
  | ret value => exact h
  | act action next ih =>
    intro w' hrely hinv hadm
    obtain ⟨hbefore, hnext⟩ := h w' hrely hinv hadm
    obtain ⟨hat, hrest⟩ := hguard w' hrely hinv hadm
    refine ⟨⟨hbefore, hat⟩, fun hadm' => ?_⟩
    obtain ⟨hkeeps, hsafe⟩ := hnext hadm'
    exact ⟨hkeeps, ih _ hsafe (hrest hadm')⟩

end Rules

theorem Valid.guarded (hd : d.Valid m)
    (hbody : ∀ i call data w, d.idle i data w → d.inv w → d.admissible (w.start i call).history →
      d.Along m guard i call (m.body i call data) (w.start i call)) :
    (d.guarded guard).Valid m where
  refl := hd.refl
  trans := hd.trans
  earlier := hd.earlier
  stable := hd.stable
  start i call data w hidle hinv hadm := by
    obtain ⟨hkeeps, hsafe⟩ := hd.start i call data w hidle hinv hadm
    exact ⟨hkeeps, hsafe.guarded (hbody i call data w hidle hinv hadm)⟩
  finish := hd.finish

end Discipline

/-! ## Actions that know their thread -/

namespace Prog

/-- The program with each action marked by its thread. -/
def tag (i : ι) {α : Type} : Prog Act Res α → Prog (ι × Act) (fun a => Res a.2) α
  | .ret value => .ret value
  | .act action next => .act (i, action) fun result => (next result).tag i

/-- The program without the marks. -/
def untag {α : Type} : Prog (ι × Act) (fun a => Res a.2) α → Prog Act Res α
  | .ret value => .ret value
  | .act action next => .act action.2 fun result => (next result).untag

end Prog

def Status.untag {Call Ret Local : Type} :
    Status (ι × Act) (fun a => Res a.2) Call Ret Local → Status Act Res Call Ret Local
  | .idle data => .idle data
  | .running call rest => .running call rest.untag

def Event.untag : Event ι (ι × Act) (fun a => Res a.2) Call Ret → Event ι Act Res Call Ret
  | .start i call => .start i call
  | .act i call action result => .act i call action.2 result
  | .finish i call result => .finish i call result

/-- The events without the marks. -/
def untag (history : List (Event ι (ι × Act) (fun a => Res a.2) Call Ret)) :
    List (Event ι Act Res Call Ret) := history.map Event.untag

/-- The calls of the machine on another memory. -/
def Machine.onto (m : Machine ι σ Act Res Call Ret Local)
    (exec : (a : ι × Act) → τ → Res a.2 × τ) :
    Machine ι τ (ι × Act) (fun a => Res a.2) Call Ret Local where
  exec := exec
  body i call data := (m.body i call data).tag i

/-! ## Worlds that explain a memory -/

/-- Whether these worlds of the threads fit a memory and the events so far. -/
abbrev Fits (ι σ τ Act : Type) (Res : Act → Type) (Call Ret : ι → Type) :=
  (ι → World ι σ Act Res Call Ret) → τ → List (Event ι Act Res Call Ret) → Prop

section Explains
variable [DecidableEq ι] (m : Machine ι σ Act Res Call Ret Local)
  (d : Discipline ι σ Act Res Call Ret Local) (exec : (a : ι × Act) → τ → Res a.2 × τ)
  (fits : Fits ι σ τ Act Res Call Ret)

/-- What a fit has to provide: at each action the thread's world may move on, as the
discipline lets it, to one that gives the result the memory has given. -/
structure Explains : Prop where
  admits : ∀ worlds t history, fits worlds t history → d.admissible history →
    ∀ i, d.admissible (worlds i).history
  start : ∀ worlds t history i call, fits worlds t history →
    fits (Function.update worlds i ((worlds i).start i call)) t (.start i call :: history)
  finish : ∀ worlds t history i call result, fits worlds t history →
    fits (Function.update worlds i ((worlds i).finish i call result)) t
      (.finish i call result :: history)
  act : ∀ worlds t history i call a, fits worlds t history → (∀ j, d.inv (worlds j)) →
    d.before i call a (worlds i) → d.admissible (.act i call a (exec (i, a) t).1 :: history) →
    ∃ w, d.rely i (worlds i) w ∧ d.inv w ∧ d.admissible w.history ∧
      (m.exec a w.shared).1 = (exec (i, a) t).1 ∧ d.admissible (m.act w i call a).history ∧
      (d.before i call a w → d.inv (m.act w i call a) →
        fits (Function.update worlds i (m.act w i call a)) (exec (i, a) t).2
          (.act i call a (exec (i, a) t).1 :: history))

variable {D : Driver ι Call Ret}

/-- Each thread is in its own world where the discipline wants it. -/
structure InWorlds (worlds : ι → World ι σ Act Res Call Ret)
    (cfg : Config ι τ (ι × Act) (fun a => Res a.2) Call Ret Local D) : Prop where
  fits : fits worlds cfg.world.shared (untag cfg.world.history)
  inv : ∀ i, d.inv (worlds i)
  idle : ∀ i data, cfg.status i = .idle data → d.idle i data (worlds i)
  running : ∀ i call rest, cfg.status i = .running call rest →
    ∃ p, rest = p.tag i ∧ d.Safe m i call (d.post i call) p (worlds i)

variable {m d exec fits} {worlds : ι → World ι σ Act Res Call Ret}
  {cfg cfg' : Config ι τ (ι × Act) (fun a => Res a.2) Call Ret Local D}

/-- Thread `i` moves in its own world; the others are where they were. -/
theorem InWorlds.move (h : InWorlds m d fits worlds cfg) {i : ι} {w : World ι σ Act Res Call Ret}
    (hfits : fits (Function.update worlds i w) cfg'.world.shared (untag cfg'.world.history))
    (hinv : d.inv w) (hothers : ∀ j ≠ i, cfg'.status j = cfg.status j)
    (hidle : ∀ data, cfg'.status i = .idle data → d.idle i data w)
    (hrunning : ∀ call rest, cfg'.status i = .running call rest →
      ∃ p, rest = p.tag i ∧ d.Safe m i call (d.post i call) p w) :
    InWorlds m d fits (Function.update worlds i w) cfg' where
  fits := hfits
  inv j := by
    by_cases hj : j = i
    · subst hj
      rwa [Function.update_self]
    · rw [Function.update_of_ne hj]
      exact h.inv j
  idle j data hdata := by
    by_cases hj : j = i
    · subst hj
      rw [Function.update_self]
      exact hidle data hdata
    · rw [Function.update_of_ne hj]
      exact h.idle j data ((hothers j hj).symm.trans hdata)
  running j call rest hrest := by
    by_cases hj : j = i
    · subst hj
      rw [Function.update_self]
      exact hrunning call rest hrest
    · rw [Function.update_of_ne hj]
      exact h.running j call rest ((hothers j hj).symm.trans hrest)

theorem InWorlds.started (hd : d.Valid m) (hfits : Explains m d exec fits)
    (h : InWorlds m d fits worlds cfg) {i : ι} {call : Call i} {data : Local i}
    (hstatus : cfg.status i = .idle data)
    (hadm : d.admissible (.start i call :: untag cfg.world.history)) :
    InWorlds m d fits (Function.update worlds i ((worlds i).start i call))
      ((m.onto exec).started cfg i call data) := by
  have hfit := hfits.start worlds _ _ i call h.fits
  have hadm' : d.admissible ((worlds i).start i call).history := by
    simpa using hfits.admits _ _ _ hfit hadm i
  obtain ⟨hkeeps, hsafe⟩ := hd.start i call data _ (h.idle i data hstatus) (h.inv i) hadm'
  refine h.move hfit hkeeps.1 (fun j hj => Machine.started_status_ne _ cfg hj call data) ?_ ?_
  · intro data' h'
    rw [Machine.started_status] at h'
    cases h'
  · intro call' rest h'
    rw [Machine.started_status] at h'
    cases h'
    exact ⟨_, rfl, hsafe⟩

/-- At an action the thread's world has moved on to one that gives the same result. -/
theorem InWorlds.acted (hd : d.Valid m) (hfits : Explains m d exec fits)
    (h : InWorlds m d fits worlds cfg) {i : ι} {call : Call i} {action : ι × Act}
    {next : Res action.2 → Prog (ι × Act) (fun a => Res a.2) (Ret i × Local i)}
    (hstatus : cfg.status i = .running call (.act action next))
    (hadm : d.admissible
      (.act i call action.2 (exec action cfg.world.shared).1 :: untag cfg.world.history)) :
    ∃ w, d.rely i (worlds i) w ∧ d.before i call action.2 w ∧
      InWorlds m d fits (Function.update worlds i (m.act w i call action.2))
        ((m.onto exec).acted cfg i call action next) := by
  obtain ⟨p, hp, hsafe⟩ := h.running i call _ hstatus
  cases p with
  | ret value => cases hp
  | act a rest =>
    obtain ⟨rfl, hnext⟩ := Prog.act.inj hp
    obtain rfl := eq_of_heq hnext
    have hself := hfits.admits _ _ _ h.fits (hd.earlier _ _ hadm) i
    have hbefore := (hsafe _ (hd.refl i _) (h.inv i) hself).1
    obtain ⟨w, hrely, hinv, hadmw, hresult, hadm', hfit⟩ :=
      hfits.act worlds _ _ i call a h.fits h.inv hbefore hadm
    obtain ⟨hbefore', hrest⟩ := hsafe w hrely hinv hadmw
    obtain ⟨hkeeps, hsafe'⟩ := hrest hadm'
    refine ⟨w, hrely, hbefore', h.move (hfit hbefore' hkeeps.1) hkeeps.1
      (fun j hj => Machine.acted_status_ne _ cfg hj call _ _) ?_ ?_⟩
    · intro data' h'
      rw [Machine.acted_status] at h'
      cases h'
    · intro call' rest' h'
      rw [Machine.acted_status] at h'
      cases h'
      rw [hresult] at hsafe'
      exact ⟨_, rfl, hsafe'⟩

theorem InWorlds.finished (hd : d.Valid m) (hfits : Explains m d exec fits)
    (h : InWorlds m d fits worlds cfg) {i : ι} {call : Call i} {result : Ret i} {data : Local i}
    (hstatus : cfg.status i = .running call (.ret (result, data)))
    (hadm : d.admissible (.finish i call result :: untag cfg.world.history)) :
    d.post i call (result, data) (worlds i) ∧
      InWorlds m d fits (Function.update worlds i ((worlds i).finish i call result))
        (Machine.finished cfg i call result data) := by
  obtain ⟨p, hp, hsafe⟩ := h.running i call _ hstatus
  cases p with
  | act a rest => cases hp
  | ret value =>
    cases hp
    have hself := hfits.admits _ _ _ h.fits (hd.earlier _ _ hadm) i
    have hpost := hsafe _ (hd.refl i _) (h.inv i) hself
    have hfit := hfits.finish worlds _ _ i call result h.fits
    have hadm' : d.admissible ((worlds i).finish i call result).history := by
      simpa using hfits.admits _ _ _ hfit hadm i
    obtain ⟨hkeeps, hidle⟩ := hd.finish i call result data _ hpost (h.inv i) hadm'
    refine ⟨hpost, h.move hfit hkeeps.1
      (fun j hj => Machine.finished_status_ne cfg hj call result data) ?_ ?_⟩
    · intro data' h'
      rw [Machine.finished_status] at h'
      cases h'
      exact hidle
    · intro call' rest h'
      rw [Machine.finished_status] at h'
      cases h'

theorem InWorlds.step (hd : d.Valid m) (hfits : Explains m d exec fits)
    (h : InWorlds m d fits worlds cfg) (hstep : (m.onto exec).Stepped cfg cfg')
    (hadm : d.admissible (untag cfg'.world.history)) :
    ∃ worlds', InWorlds m d fits worlds' cfg' := by
  cases hstep with
  | start i call data hstatus _ => exact ⟨_, h.started hd hfits hstatus hadm⟩
  | act i call action next hstatus =>
    obtain ⟨w, -, -, hw⟩ := h.acted hd hfits hstatus hadm
    exact ⟨_, hw⟩
  | finish i call result data hstatus => exact ⟨_, (h.finished hd hfits hstatus hadm).2⟩

theorem InWorlds.run (hd : d.Valid m) (hfits : Explains m d exec fits)
    (h : InWorlds m d fits worlds cfg) {schedule : List (Choice ι Call)}
    (hrun : (m.onto exec).run cfg schedule = some cfg')
    (hadm : d.admissible (untag cfg'.world.history)) :
    ∃ worlds', InWorlds m d fits worlds' cfg' := by
  refine Machine.run_invariant (P := fun cfg => d.admissible (untag cfg.world.history) →
    ∃ worlds, InWorlds m d fits worlds cfg) ?_ (fun _ => ⟨worlds, h⟩) hrun hadm
  intro cfg cfg' hcfg hstep hadm'
  have hearlier : d.admissible (untag cfg.world.history) := by
    cases hstep <;> exact hd.earlier _ _ hadm'
  obtain ⟨worlds, h⟩ := hcfg hearlier
  exact h.step hd hfits hstep hadm'

omit [DecidableEq ι] in
theorem InWorlds.before (hd : d.Valid m) (h : InWorlds m d fits worlds cfg)
    (hadm : ∀ i, d.admissible (worlds i).history) {i : ι} {call : Call i} {a : ι × Act}
    {next : Res a.2 → Prog (ι × Act) (fun a => Res a.2) (Ret i × Local i)}
    (hstatus : cfg.status i = .running call (.act a next)) :
    a.1 = i ∧ d.before i call a.2 (worlds i) := by
  obtain ⟨p, hp, hsafe⟩ := h.running i call _ hstatus
  cases p with
  | ret value => cases hp
  | act action rest =>
    obtain ⟨rfl, -⟩ := Prog.act.inj hp
    exact ⟨rfl, (hsafe _ (hd.refl i _) (h.inv i) (hadm i)).1⟩

end Explains

end AtomicProgram

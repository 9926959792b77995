import ItchOrderBook.Foundation.AtomicProgram
import Mathlib.Order.Lattice

/-! # Release and acquire

Memory as its threads know it. A load returns any message of its location that is not
older than the latest one its thread has seen, and an acquiring load learns what the
thread that stored the message knew. Plain cells have one value, and two accesses of
which neither happened before the other race. Each location is stored to by one thread.
-/
namespace AtomicProgram

/-! ## Views -/

/-- The actions of each thread that have happened before, and the latest message seen of
each location. -/
abbrev Memory.View (ι L : Type) := ι ⊕ L → ℕ

structure Memory.Message (α ι L : Type) where
  value : α
  view : Memory.View ι L

/-- All messages of each location, oldest first, what each thread knows, and of each cell
its value and every thread's last write and read. `pick` decides which message a load
returns. -/
structure Memory (ι L K : Type) (V : L → Type) (A : Type) where
  message : (l : L) → ℕ → Memory.Message (V l) ι L
  latest : L → ℕ
  view : ι → Memory.View ι L
  cell : K → A
  wrote : K → ι → ℕ
  read : K → ι → ℕ
  pick : ℕ → ℕ
  loads : ℕ

namespace Memory
variable {ι L K : Type} {V : L → Type} {A : Type}

/-- A write of the cell has not happened before the next action of thread `i`. -/
def ReadRace (m : Memory ι L K V A) (i : ι) (s : K) : Prop :=
  ∃ j, m.view i (.inl j) < m.wrote s j

/-- A write or a read of the cell has not happened before the next action of thread `i`. -/
def WriteRace (m : Memory ι L K V A) (i : ι) (s : K) : Prop :=
  ∃ j, m.view i (.inl j) < m.wrote s j ∨ m.view i (.inl j) < m.read s j

/-- The message the next load of thread `i` returns. -/
def picked (m : Memory ι L K V A) (i : ι) (l : L) : ℕ :=
  m.view i (.inr l) + m.pick m.loads % (m.latest l + 1 - m.view i (.inr l))

/-- The view is of messages that are there, and contains the view of each. -/
def Holds (m : Memory ι L K V A) (view : View ι L) : Prop :=
  ∀ l, view (.inr l) ≤ m.latest l ∧ (m.message l (view (.inr l))).view ≤ view

/-- Whoever has seen a message knows what the thread that stored it knew. -/
structure Closed (m : Memory ι L K V A) : Prop where
  threads : ∀ i, m.Holds (m.view i)
  messages : ∀ l, ∀ k ≤ m.latest l, m.Holds (m.message l k).view
  own : ∀ l, ∀ k ≤ m.latest l, (m.message l k).view (.inr l) ≤ k
  wrote_le : ∀ s i, m.wrote s i ≤ m.view i (.inl i)
  read_le : ∀ s i, m.read s i ≤ m.view i (.inl i)

section Fronts
variable {m : Memory ι L K V A} {i : ι} {l : L}

theorem Holds.sup {view view' : View ι L} (h : m.Holds view) (h' : m.Holds view') :
    m.Holds (view ⊔ view') := by
  intro l
  rcases le_total (view (.inr l)) (view' (.inr l)) with hle | hle
  · have hmax : (view ⊔ view') (.inr l) = view' (.inr l) := max_eq_right hle
    rw [hmax]
    exact ⟨(h' l).1, (h' l).2.trans le_sup_right⟩
  · have hmax : (view ⊔ view') (.inr l) = view (.inr l) := max_eq_left hle
    rw [hmax]
    exact ⟨(h l).1, (h l).2.trans le_sup_left⟩

/-- A larger view of the same messages. -/
theorem Holds.mono {view view' : View ι L} (h : m.Holds view) (hle : view ≤ view')
    (hsame : ∀ l, view' (.inr l) = view (.inr l)) : m.Holds view' := by
  intro l
  rw [hsame l]
  exact ⟨(h l).1, (h l).2.trans hle⟩

theorem picked_bounds (h : m.view i (.inr l) ≤ m.latest l) :
    m.view i (.inr l) ≤ m.picked i l ∧ m.picked i l ≤ m.latest l := by
  have hlt := Nat.mod_lt (m.pick m.loads) (show 0 < m.latest l + 1 - m.view i (.inr l) by omega)
  unfold picked
  omega

end Fronts

variable [DecidableEq ι] [DecidableEq L]

/-- The view of thread `i` with its next action. -/
def tick (m : Memory ι L K V A) (i : ι) : View ι L :=
  Function.update (m.view i) (.inl i) (m.view i (.inl i) + 1)

/-- The view of thread `i` with its next action and with message `k` of location `l` seen. -/
def sees (m : Memory ι L K V A) (i : ι) (l : L) (k : ℕ) : View ι L :=
  Function.update (m.tick i) (.inr l) k

/-! ## Accesses -/

def load (acquires : Bool) (i : ι) (l : L) (m : Memory ι L K V A) : V l × Memory ι L K V A :=
  let k := m.picked i l
  let view := if acquires then m.sees i l k ⊔ (m.message l k).view else m.sees i l k
  ((m.message l k).value,
    { m with view := Function.update m.view i view, loads := m.loads + 1 })

def store (releases : Bool) (i : ι) (l : L) (value : V l) (m : Memory ι L K V A) :
    Memory ι L K V A :=
  let k := m.latest l + 1
  let view := m.sees i l k
  { m with
    message := Function.update m.message l
      (Function.update (m.message l) k ⟨value, if releases then view else fun _ => 0⟩)
    latest := Function.update m.latest l k
    view := Function.update m.view i view }

variable [DecidableEq K]

def readCell (i : ι) (s : K) (m : Memory ι L K V A) : A × Memory ι L K V A :=
  (m.cell s,
    { m with
      view := Function.update m.view i (m.tick i)
      read := Function.update m.read s (Function.update (m.read s) i (m.tick i (.inl i))) })

def writeCell (i : ι) (s : K) (value : A) (m : Memory ι L K V A) : Memory ι L K V A :=
  { m with
    cell := Function.update m.cell s value
    view := Function.update m.view i (m.tick i)
    wrote := Function.update m.wrote s (Function.update (m.wrote s) i (m.tick i (.inl i))) }

omit [DecidableEq K]

section Views
variable {m : Memory ι L K V A} {i : ι} {l : L} {k : ℕ}

@[simp] theorem tick_self : m.tick i (.inl i) = m.view i (.inl i) + 1 := Function.update_self ..

@[simp] theorem tick_seen : m.tick i (.inr l) = m.view i (.inr l) :=
  Function.update_of_ne (by simp) ..

theorem le_tick : m.view i ≤ m.tick i := by
  intro x
  by_cases hx : x = .inl i
  · subst hx
    simp
  · exact (Function.update_of_ne hx ..).ge

@[simp] theorem sees_self : m.sees i l k (.inr l) = k := Function.update_self ..

@[simp] theorem sees_clock {j : ι} : m.sees i l k (.inl j) = m.tick i (.inl j) :=
  Function.update_of_ne (by simp) ..

theorem sees_ne {l' : L} (h : l' ≠ l) : m.sees i l k (.inr l') = m.view i (.inr l') := by
  rw [sees, Function.update_of_ne (by simpa using h), tick_seen]

theorem tick_le_sees (h : m.view i (.inr l) ≤ k) : m.tick i ≤ m.sees i l k := by
  intro x
  by_cases hx : x = .inr l
  · subst hx
    simpa using h
  · exact (Function.update_of_ne hx ..).ge

theorem sees_own (h : k = m.view i (.inr l)) : m.sees i l k = m.tick i := by
  subst h
  rw [sees, ← m.tick_seen, Function.update_eq_self]

theorem Closed.tick (h : m.Closed) : m.Holds (m.tick i) :=
  (h.threads i).mono le_tick fun _ => tick_seen

theorem Closed.acquired (h : m.Closed) (hlo : m.view i (.inr l) ≤ k) (hhi : k ≤ m.latest l) :
    m.Holds (m.sees i l k ⊔ (m.message l k).view) ∧
      (m.sees i l k ⊔ (m.message l k).view) (.inr l) = k := by
  have hfront : (m.sees i l k ⊔ (m.message l k).view) (.inr l) = k := by
    rw [Pi.sup_apply, sees_self]
    exact max_eq_left (h.own l k hhi)
  refine ⟨fun l' => ?_, hfront⟩
  by_cases hl : l' = l
  · subst hl
    rw [hfront]
    exact ⟨hhi, le_sup_right⟩
  · have hsame : (m.sees i l k ⊔ (m.message l k).view) (.inr l') =
        (m.tick i ⊔ (m.message l k).view) (.inr l') := by
      rw [Pi.sup_apply, Pi.sup_apply, sees_ne hl, tick_seen]
    rw [hsame]
    have hboth := (h.tick (i := i)).sup (h.messages l k hhi) l'
    exact ⟨hboth.1, hboth.2.trans (sup_le_sup_right (tick_le_sees hlo) _)⟩

end Views

/-! ## What one access does -/

/-- Thread `i` stores no message and learns what it learns. -/
structure Advances (i : ι) (m m' : Memory ι L K V A) : Prop where
  message_eq : m'.message = m.message
  latest_eq : m'.latest = m.latest
  others_eq : ∀ j ≠ i, m'.view j = m.view j
  grows : m.view i ≤ m'.view i
  closed : m'.Closed

section Steps
variable {m m' : Memory ι L K V A} {i : ι} {l : L}

omit [DecidableEq ι] [DecidableEq L] in
/-- A thread that has seen the last message of a location goes on knowing of it. -/
theorem Advances.own (h : Advances i m m') {j : ι} (hown : m.view j (.inr l) = m.latest l) :
    m'.view j (.inr l) = m'.latest l := by
  by_cases hj : j = i
  · subst hj
    have hseen := (h.closed.threads j l).1
    rw [h.latest_eq] at hseen ⊢
    exact hseen.antisymm (hown.symm.trans_le (h.grows _))
  · rw [h.others_eq j hj, h.latest_eq, hown]

omit [DecidableEq ι] [DecidableEq L] in
theorem clock_le (hgrows : m.view i ≤ m'.view i) (hothers : ∀ j ≠ i, m'.view j = m.view j) (j : ι) :
    m.view j (.inl j) ≤ m'.view j (.inl j) := by
  by_cases hj : j = i
  · subst hj
    exact hgrows _
  · rw [hothers j hj]

omit [DecidableEq L] in
theorem Closed.advances (h : m.Closed) {view : View ι L} (hholds : m.Holds view)
    (hgrows : m.view i ≤ view) (hmessage : m'.message = m.message)
    (hlatest : m'.latest = m.latest) (hview : m'.view = Function.update m.view i view)
    (hwrote : ∀ s j, m'.wrote s j = m.wrote s j ∨ j = i ∧ m'.wrote s j = view (.inl i))
    (hread : ∀ s j, m'.read s j = m.read s j ∨ j = i ∧ m'.read s j = view (.inl i)) :
    Advances i m m' := by
  have hself : m'.view i = view := by simp [hview]
  have hothers : ∀ j ≠ i, m'.view j = m.view j := by
    intro j hj
    simp [hview, hj]
  have hclock := clock_le (hself ▸ hgrows) hothers
  have hkeeps : ∀ view, m.Holds view → m'.Holds view := by
    intro view hview l
    rw [hmessage, hlatest]
    exact hview l
  refine ⟨hmessage, hlatest, hothers, hself ▸ hgrows, ⟨fun j => hkeeps _ ?_, fun l k hk => ?_, ?_,
    fun s j => ?_, fun s j => ?_⟩⟩
  · by_cases hj : j = i
    · subst hj
      rwa [hself]
    · rw [hothers j hj]
      exact h.threads j
  · rw [hlatest] at hk
    rw [hmessage]
    exact hkeeps _ (h.messages l k hk)
  · rw [hmessage, hlatest]
    exact h.own
  · rcases hwrote s j with hold | ⟨rfl, hnew⟩
    · exact hold.le.trans ((h.wrote_le s j).trans (hclock j))
    · rw [hnew, hself]
  · rcases hread s j with hold | ⟨rfl, hnew⟩
    · exact hold.le.trans ((h.read_le s j).trans (hclock j))
    · rw [hnew, hself]

/-- An acquiring load returns the message its thread then knows of. -/
theorem Closed.load_acquires (h : m.Closed) (i : ι) (l : L) :
    Advances i m (m.load true i l).2 ∧
      (m.load true i l).1 = (m.message l ((m.load true i l).2.view i (.inr l))).value := by
  obtain ⟨hlo, hhi⟩ := picked_bounds (h.threads i l).1
  obtain ⟨hholds, hfront⟩ := h.acquired hlo hhi
  have hview : (m.load true i l).2.view i = m.sees i l (m.picked i l) ⊔
      (m.message l (m.picked i l)).view := Function.update_self ..
  have hgrows := (le_tick.trans (tick_le_sees hlo)).trans
    (le_sup_left (b := (m.message l (m.picked i l)).view))
  refine ⟨h.advances hholds hgrows rfl rfl rfl (fun _ _ => .inl rfl) fun _ _ => .inl rfl, ?_⟩
  rw [hview, hfront]
  rfl

/-- The thread that stores to a location loads what it has stored last. -/
theorem Closed.load_own (h : m.Closed) (i : ι) (l : L) (hown : m.view i (.inr l) = m.latest l) :
    Advances i m (m.load false i l).2 ∧
      (m.load false i l).1 = (m.message l ((m.load false i l).2.view i (.inr l))).value := by
  have hpicked : m.picked i l = m.view i (.inr l) := by
    have hbounds := picked_bounds hown.le
    omega
  have hsees : m.sees i l (m.picked i l) = m.tick i := sees_own hpicked
  have hview : (m.load false i l).2.view = Function.update m.view i (m.tick i) :=
    congrArg (Function.update m.view i) hsees
  refine ⟨h.advances h.tick le_tick rfl rfl hview (fun _ _ => .inl rfl) fun _ _ => .inl rfl, ?_⟩
  rw [hview, Function.update_self, tick_seen, ← hpicked]
  rfl

section Cells
variable [DecidableEq K]

@[simp] theorem writeCell_view {s : K} {value : A} :
    (m.writeCell i s value).view i = m.tick i := Function.update_self ..

theorem Closed.readCell (h : m.Closed) (i : ι) (s : K) : Advances i m (m.readCell i s).2 := by
  refine h.advances h.tick le_tick rfl rfl rfl (fun _ _ => .inl rfl) fun s' j => ?_
  simp only [Memory.readCell, Function.update_apply]
  grind

theorem Closed.writeCell (h : m.Closed) (i : ι) (s : K) (value : A) :
    Advances i m (m.writeCell i s value) := by
  refine h.advances h.tick le_tick rfl rfl rfl (fun s' j => ?_) fun _ _ => .inl rfl
  simp only [Memory.writeCell, Function.update_apply]
  grind

end Cells

/-- Thread `i` stores a message of location `l` with all it knows. -/
structure Stores (i : ι) (l : L) (value : V l) (m m' : Memory ι L K V A) : Prop where
  latest_eq : m'.latest = Function.update m.latest l (m.latest l + 1)
  old : ∀ l', ∀ k ≤ m.latest l', m'.message l' k = m.message l' k
  new : m'.message l (m.latest l + 1) = ⟨value, m'.view i⟩
  others_eq : ∀ j ≠ i, m'.view j = m.view j
  grows : m.view i ≤ m'.view i
  front : m'.view i (.inr l) = m.latest l + 1
  fronts_eq : ∀ l' ≠ l, m'.view i (.inr l') = m.view i (.inr l')

namespace Stores
variable {value : V l}

omit [DecidableEq ι] in
theorem latest_le (h : Stores i l value m m') (l' : L) : m.latest l' ≤ m'.latest l' := by
  rw [h.latest_eq]
  by_cases hl : l' = l
  · subst hl
    simp
  · simp [hl]

omit [DecidableEq ι] in
theorem cases_message (h : Stores i l value m m') {l' : L} {k : ℕ} (hk : k ≤ m'.latest l') :
    k ≤ m.latest l' ∨ l' = l ∧ k = m.latest l + 1 := by
  rw [h.latest_eq] at hk
  by_cases hl : l' = l
  · subst hl
    rw [Function.update_self] at hk
    exact (Nat.le_or_eq_of_le_succ hk).imp_right fun heq => ⟨rfl, heq⟩
  · exact .inl (by simpa [hl] using hk)

omit [DecidableEq ι] in
theorem holds (h : Stores i l value m m') {view : View ι L} (hview : m.Holds view) :
    m'.Holds view := by
  intro l'
  rw [h.old l' _ (hview l').1]
  exact ⟨(hview l').1.trans (h.latest_le l'), (hview l').2⟩

omit [DecidableEq ι] in
theorem holds_own (h : Stores i l value m m') (hclosed : m.Closed) : m'.Holds (m'.view i) := by
  intro l'
  by_cases hl : l' = l
  · subst hl
    rw [h.front, h.new, h.latest_eq, Function.update_self]
    exact ⟨le_rfl, le_rfl⟩
  · rw [h.fronts_eq l' hl]
    have hthread := h.holds (hclosed.threads i) l'
    exact ⟨hthread.1, hthread.2.trans h.grows⟩

omit [DecidableEq ι] in
theorem closed (h : Stores i l value m m') (hclosed : m.Closed) (hwrote : m'.wrote = m.wrote)
    (hread : m'.read = m.read) : m'.Closed := by
  have hclock := clock_le h.grows h.others_eq
  constructor
  · intro j
    by_cases hj : j = i
    · subst hj
      exact h.holds_own hclosed
    · rw [h.others_eq j hj]
      exact h.holds (hclosed.threads j)
  · intro l' k hk
    rcases h.cases_message hk with hk' | ⟨rfl, rfl⟩
    · rw [h.old l' k hk']
      exact h.holds (hclosed.messages l' k hk')
    · rw [h.new]
      exact h.holds_own hclosed
  · intro l' k hk
    rcases h.cases_message hk with hk' | ⟨rfl, rfl⟩
    · rw [h.old l' k hk']
      exact hclosed.own l' k hk'
    · rw [h.new]
      exact h.front.le
  · intro s j
    rw [hwrote]
    exact (hclosed.wrote_le s j).trans (hclock j)
  · intro s j
    rw [hread]
    exact (hclosed.read_le s j).trans (hclock j)

end Stores

theorem Closed.store_releases (h : m.Closed) (i : ι) (l : L) (value : V l) :
    Stores i l value m (m.store true i l value) ∧ (m.store true i l value).Closed := by
  have hfront := (h.threads i l).1
  have hview : (m.store true i l value).view i = m.sees i l (m.latest l + 1) :=
    Function.update_self ..
  have hstores : Stores i l value m (m.store true i l value) := by
    refine ⟨rfl, fun l' k hk => ?_, ?_, fun j hj => Function.update_of_ne hj .., ?_, ?_, ?_⟩
    · by_cases hl : l' = l
      · subst hl
        simp [store, show k ≠ m.latest l' + 1 by omega]
      · simp [store, hl]
    · simp [store]
    · rw [hview]
      exact le_tick.trans (tick_le_sees (by omega))
    · rw [hview, sees_self]
    · intro l' hl
      rw [hview, sees_ne hl]
  exact ⟨hstores, hstores.closed h rfl rfl⟩

end Steps

end Memory

end AtomicProgram

import ItchOrderBook.Spmc.Discipline

/-! # Rules for single accesses

After a load a thread knows what it relies on and what it has read.
-/
namespace ItchOrderBook.Spmc
open AtomicProgram

variable {T : Type} {C : Capacity} {n : ℕ}

/-- Nothing the discipline speaks of differs. -/
structure Unchanged (w w' : QueueWorld T C n) : Prop where
  buffer_eq : w'.shared.buffer = w.shared.buffer
  writeIdx_eq : w'.shared.writeIdx = w.shared.writeIdx
  readIdx_eq : w'.shared.readIdx = w.shared.readIdx
  pushed_eq : pushed w'.history = pushed w.history
  passed_eq : ∀ c, passed c w'.history = passed c w.history
  consumed_eq : ∀ c, consumed c w'.history = consumed c w.history

theorem Ring.of_unchanged {w w' : QueueWorld T C n} (h : Ring w) (hw : Unchanged w w') :
    Ring w' := by
  obtain ⟨hbuffer, hwrite, hread, hpushed, hpassed, hconsumed⟩ := hw
  constructor
  · rw [hwrite, hpushed]
    exact h.write
  · intro c
    rw [hread, hpassed]
    exact h.read c
  · intro c
    rw [hpassed, hpushed]
    exact h.order c
  · intro c
    rw [hpassed, hpushed]
    exact h.room c
  · intro c p hlo hhi
    rw [hpassed] at hlo
    rw [hpushed] at hhi ⊢
    rw [hbuffer]
    exact h.window c p hlo hhi
  · intro c
    rw [hpassed, hpushed, hconsumed]
    exact h.logged c

/-- Every thread relies on no more than this. -/
theorem rely_of_unchanged {w w' : QueueWorld T C n} (hw : Unchanged w w') {i : Thread n}
    (hstart : callStart i w'.history = callStart i w.history) :
    (discipline T C n).rely i w w' := by
  cases i with
  | producer =>
    exact ⟨hw.pushed_eq, fun c => (hw.passed_eq c).ge, hw.buffer_eq, hstart⟩
  | consumer c =>
    exact ⟨hw.pushed_eq ▸ List.prefix_rfl, hw.passed_eq c, hw.consumed_eq c, hstart⟩

theorem discipline_refl (i : Thread n) (w : QueueWorld T C n) : (discipline T C n).rely i w w :=
  rely_of_unchanged ⟨rfl, rfl, rfl, rfl, fun _ => rfl, fun _ => rfl⟩ rfl

theorem discipline_trans (i : Thread n) (w₁ w₂ w₃ : QueueWorld T C n)
    (h₁ : (discipline T C n).rely i w₁ w₂) (h₂ : (discipline T C n).rely i w₂ w₃) :
    (discipline T C n).rely i w₁ w₃ := by
  cases i with
  | producer =>
    exact ⟨h₂.pushed_eq.trans h₁.pushed_eq, fun c => (h₁.passed_le c).trans (h₂.passed_le c),
      h₂.buffer_eq.trans h₁.buffer_eq, h₂.start_eq.trans h₁.start_eq⟩
  | consumer c =>
    exact ⟨h₁.pushed_grows.trans h₂.pushed_grows, h₂.passed_eq.trans h₁.passed_eq,
      h₂.consumed_eq.trans h₁.consumed_eq, h₂.start_eq.trans h₁.start_eq⟩

theorem discipline_preorder : (discipline T C n).Preorder := ⟨discipline_refl, discipline_trans⟩

/-! ## Loads -/

def Access.IsLoad : Access T C n → Prop
  | .loadWriteIdx | .loadReadIdx _ | .loadIsClosed | .readSlot _ => True
  | _ => False

theorem act_unchanged (w : QueueWorld T C n) (i : Thread n) (call : i.Call T) {a : Access T C n}
    (ha : a.IsLoad) : Unchanged w ((queue T C n).act w i call a) ∧
      ((queue T C n).act w i call a).shared = w.shared := by
  cases i <;> cases a <;>
    first
    | exact ha.elim
    | exact ⟨⟨rfl, rfl, rfl, rfl, fun _ => rfl, fun _ => rfl⟩, rfl⟩

section Rules
variable {i : Thread n} {call : i.Call T} {α : Type} {Q : α → QueueWorld T C n → Prop}
  {w : QueueWorld T C n}

/-- After a load the thread knows what it relies on, and the value it has read. -/
theorem safe_load {a : Access T C n} (ha : a.IsLoad)
    {next : a.Result → Code T C n α}
    (h : ∀ w', (discipline T C n).rely i w w' → Ring w' → Admissible w'.history →
      (discipline T C n).Safe (queue T C n) i call Q (next (a.exec w'.shared).1) w') :
    (discipline T C n).Safe (queue T C n) i call Q (.act a next) w := by
  intro w' hrely hring hadm
  obtain ⟨hsame, hshared⟩ := act_unchanged w' i call ha
  refine ⟨?_, fun hadm' => ⟨⟨hring.of_unchanged hsame, fun j _ => rely_of_unchanged hsame rfl⟩, ?_⟩⟩
  · cases i <;> cases a <;>
      first
      | exact ha.elim
      | trivial
  · have hlater := h _ (discipline_trans i w w' _ hrely (rely_of_unchanged hsame rfl))
      (hring.of_unchanged hsame) hadm'
    rw [hshared] at hlater
    exact hlater

theorem safe_ret {value : α}
    (h : ∀ w', (discipline T C n).rely i w w' → Ring w' → Admissible w'.history → Q value w') :
    (discipline T C n).Safe (queue T C n) i call Q (.ret value) w := h

theorem safe_loadWriteIdx {next : UInt64 → Code T C n α}
    (h : ∀ w', (discipline T C n).rely i w w' → Ring w' → Admissible w'.history →
      (discipline T C n).Safe (queue T C n) i call Q
        (next (UInt64.ofNat (pushed w'.history).length)) w') :
    (discipline T C n).Safe (queue T C n) i call Q (loadWriteIdx >>= next) w := by
  refine safe_load (by trivial) fun w' hrely hring hadm => ?_
  change Discipline.Safe _ _ _ _ _ (next w'.shared.writeIdx) w'
  rw [hring.write]
  exact h w' hrely hring hadm

theorem safe_loadReadIdx {c : Fin (n + 1)} {next : UInt64 → Code T C n α}
    (h : ∀ w', (discipline T C n).rely i w w' → Ring w' → Admissible w'.history →
      (discipline T C n).Safe (queue T C n) i call Q
        (next (UInt64.ofNat (passed c w'.history))) w') :
    (discipline T C n).Safe (queue T C n) i call Q (loadReadIdx c >>= next) w := by
  refine safe_load (by trivial) fun w' hrely hring hadm => ?_
  change Discipline.Safe _ _ _ _ _ (next (w'.shared.readIdx c)) w'
  rw [hring.read c]
  exact h w' hrely hring hadm

end Rules

end ItchOrderBook.Spmc

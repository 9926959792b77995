import Mathlib.Algebra.Ring.Nat

/-! # Fallible computations with unsigned arithmetic

A computation may fail, and it notes in a flag whether an unsigned addition or
subtraction has wrapped. `Exact` says that a computation started with the flag down
fails nowhere and wraps nowhere; `Yields` says what holds if it fails nowhere.
-/
namespace ExactArithmetic

/-- The state is the flag. -/
abbrev Noting (ε : Type) := StateT Bool (Except ε)

variable {ε α β : Type}

def note (wraps : Bool) : Noting ε Unit := modify (· || wraps)

/-- `a += b`. -/
def plusAssign (a b : UInt64) : Noting ε UInt64 := do
  note (decide (2 ^ 64 ≤ a.toNat + b.toNat))
  return a + b

/-- `a -= b`. -/
def minusAssign (a b : UInt64) : Noting ε UInt64 := do
  note (decide (a.toNat < b.toNat))
  return a - b

/-- Runs without failing and without wrapping, to a result with `post`. -/
def Exact (x : Noting ε α) (post : α → Prop) : Prop := ∃ a, x false = .ok (a, false) ∧ post a

/-- Every fault is one of `allowed`, whatever has wrapped. -/
def Faults (x : Noting ε α) (allowed : ε → Prop) : Prop := ∀ w e, x w = .error e → allowed e

/-- Every result has `post`, whatever has wrapped. -/
def Yields (x : Noting ε α) (post : α → Prop) : Prop := ∀ w a w', x w = .ok (a, w') → post a

theorem pure_apply (a : α) (w : Bool) : (Pure.pure a : Noting ε α) w = .ok (a, w) := rfl

theorem bind_apply (x : Noting ε α) (f : α → Noting ε β) (w : Bool) :
    (x >>= f) w = match x w with
      | .ok (a, w') => f a w'
      | .error e => .error e := by
  change StateT.bind x f w = _
  unfold StateT.bind
  cases x w <;> rfl

/-- Nothing is left of `a -= a`, and nothing wraps. -/
theorem minusAssign_self (a : UInt64) : (minusAssign a a : Noting ε UInt64) = Pure.pure 0 := by
  funext w
  simp [minusAssign, note, bind_apply, modify, modifyGet, MonadStateOf.modifyGet,
    StateT.modifyGet, Pure.pure, Except.pure]

namespace Exact
variable {x : Noting ε α} {post post' : α → Prop}

theorem pure {a : α} (h : post a) : Exact (Pure.pure a : Noting ε α) post := ⟨a, rfl, h⟩

theorem mono (h : Exact x post) (himp : ∀ a, post a → post' a) : Exact x post' := by
  obtain ⟨a, hx, ha⟩ := h
  exact ⟨a, hx, himp a ha⟩

theorem bind {f : α → Noting ε β} {post' : β → Prop} (h : Exact x post)
    (hf : ∀ a, post a → Exact (f a) post') : Exact (x >>= f) post' := by
  obtain ⟨a, hx, ha⟩ := h
  obtain ⟨b, hb, hpost⟩ := hf a ha
  refine ⟨b, ?_, hpost⟩
  rw [bind_apply, hx]
  exact hb

theorem plusAssign {a b : UInt64} (h : a.toNat + b.toNat < 2 ^ 64) :
    Exact (ExactArithmetic.plusAssign a b : Noting ε UInt64)
      (fun c => c.toNat = a.toNat + b.toNat) := by
  refine ⟨a + b, ?_, ?_⟩
  · have hnote : decide (2 ^ 64 ≤ a.toNat + b.toNat) = false := by simpa using h
    simp only [ExactArithmetic.plusAssign, bind_apply, hnote]
    rfl
  · exact (UInt64.toNat_add a b).trans (Nat.mod_eq_of_lt h)

theorem minusAssign {a b : UInt64} (h : b.toNat ≤ a.toNat) :
    Exact (ExactArithmetic.minusAssign a b : Noting ε UInt64)
      (fun c => c.toNat = a.toNat - b.toNat) := by
  refine ⟨a - b, ?_, ?_⟩
  · have hnote : decide (a.toNat < b.toNat) = false := by simpa using h
    simp only [ExactArithmetic.minusAssign, bind_apply, hnote]
    rfl
  · exact UInt64.toNat_sub_of_le a b (UInt64.le_iff_toNat_le.mpr h)

end Exact

namespace Yields
variable {x : Noting ε α} {post : α → Prop}

theorem pure {a : α} (h : post a) : Yields (Pure.pure a : Noting ε α) post := by
  intro w b w' hb
  obtain ⟨rfl, -⟩ := Prod.mk.inj (Except.ok.inj hb)
  exact h

theorem throw (e : ε) : Yields (throw e : Noting ε α) post := by
  intro w a w' h
  cases h

theorem bind {f : α → Noting ε β} {post' : β → Prop} (h : Yields x post)
    (hf : ∀ a, post a → Yields (f a) post') : Yields (x >>= f) post' := by
  intro w b w'' hb
  rw [bind_apply] at hb
  cases hx : x w with
  | error e => simp [hx] at hb
  | ok r =>
    obtain ⟨a, w'⟩ := r
    rw [hx] at hb
    exact hf a (h w a w' hx) w' b w'' hb

theorem mono {post' : α → Prop} (h : Yields x post) (himp : ∀ a, post a → post' a) :
    Yields x post' := fun w a w' ha => himp a (h w a w' ha)

theorem trivial (x : Noting ε α) : Yields x fun _ => True := fun _ _ _ _ => True.intro

theorem plusAssign (a b : UInt64) :
    Yields (ExactArithmetic.plusAssign a b : Noting ε UInt64) (· = a + b) :=
  (Yields.trivial _).bind fun _ _ => .pure rfl

theorem minusAssign (a b : UInt64) :
    Yields (ExactArithmetic.minusAssign a b : Noting ε UInt64) (· = a - b) :=
  (Yields.trivial _).bind fun _ _ => .pure rfl

end Yields

namespace Faults
variable {x : Noting ε α} {allowed : ε → Prop}

theorem pure (a : α) : Faults (Pure.pure a : Noting ε α) allowed := by
  intro w e h
  cases h

theorem throw {e : ε} (he : allowed e) : Faults (throw e : Noting ε α) allowed := by
  intro w e' h
  obtain rfl := Except.error.inj h
  exact he

theorem bind {f : α → Noting ε β} (h : Faults x allowed) (hf : ∀ a, Faults (f a) allowed) :
    Faults (x >>= f) allowed := by
  intro w e he
  rw [bind_apply] at he
  cases hx : x w with
  | error e' =>
    rw [hx] at he
    obtain rfl := Except.error.inj he
    exact h w e' hx
  | ok r =>
    obtain ⟨a, w'⟩ := r
    rw [hx] at he
    exact hf a w' e he

theorem plusAssign (a b : UInt64) :
    Faults (ExactArithmetic.plusAssign a b : Noting ε UInt64) allowed := by
  intro w e h
  cases h

theorem minusAssign (a b : UInt64) :
    Faults (ExactArithmetic.minusAssign a b : Noting ε UInt64) allowed := by
  intro w e h
  cases h

end Faults

end ExactArithmetic

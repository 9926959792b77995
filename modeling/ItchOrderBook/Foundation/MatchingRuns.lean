import ItchOrderBook.Foundation.ExactArithmetic

/-! # Computations that match

Two fallible computations match if they fail together, with one fault, and else leave the
flag alike and have related results. Matching passes through binds and folds, so two
programs of one shape match as soon as their primitive steps do.
-/
namespace ExactArithmetic

variable {ε α β γ α' β' : Type}

inductive EndsAlike (R : α → β → Prop) : Except ε (α × Bool) → Except ε (β × Bool) → Prop
  | fault (e : ε) : EndsAlike R (.error e) (.error e)
  | result {a : α} {b : β} (h : R a b) (w : Bool) : EndsAlike R (.ok (a, w)) (.ok (b, w))

def Matches (R : α → β → Prop) (x : Noting ε α) (y : Noting ε β) : Prop :=
  ∀ w, EndsAlike R (x w) (y w)

theorem EndsAlike.of_ok {R : α → β → Prop} {x : Except ε (α × Bool)} {y : Except ε (β × Bool)}
    (h : EndsAlike R x y) {a : α} {w : Bool} (hx : x = .ok (a, w)) :
    ∃ b, y = .ok (b, w) ∧ R a b := by
  cases h with
  | fault e => cases hx
  | result hR w =>
    obtain ⟨rfl, rfl⟩ := Prod.mk.inj (Except.ok.inj hx)
    exact ⟨_, rfl, hR⟩

theorem EndsAlike.error_iff {R : α → β → Prop} {x : Except ε (α × Bool)} {y : Except ε (β × Bool)}
    (h : EndsAlike R x y) {e : ε} : x = .error e ↔ y = .error e := by
  cases h <;> simp

namespace Matches
variable {R : α → β → Prop} {R' : α' → β' → Prop} {x : Noting ε α} {y : Noting ε β}

theorem pure {a : α} {b : β} (h : R a b) :
    Matches R (Pure.pure a : Noting ε α) (Pure.pure b) := fun w => .result h w

theorem throw (e : ε) : Matches R (throw e : Noting ε α) (throw e) := fun _ => .fault e

theorem refl (x : Noting ε α) : Matches Eq x x := by
  intro w
  cases x w with
  | error e => exact .fault e
  | ok r => exact .result rfl r.2

theorem bind {f : α → Noting ε α'} {g : β → Noting ε β'} (h : Matches R x y)
    (hfg : ∀ a b, R a b → Matches R' (f a) (g b)) : Matches R' (x >>= f) (y >>= g) := by
  intro w
  have hw := h w
  simp only [bind_apply]
  generalize x w = r, y w = s at hw
  cases hw with
  | fault e => exact .fault e
  | result hR w' => exact hfg _ _ hR w'

theorem mono {S : α → β → Prop} (h : Matches R x y) (himp : ∀ a b, R a b → S a b) :
    Matches S x y := by
  intro w
  have hw := h w
  generalize x w = r, y w = s at hw
  cases hw with
  | fault e => exact .fault e
  | result hR w' => exact .result (himp _ _ hR) w'

/-- Steps that match keep two folds over one list in step. -/
theorem foldlM {f : α → γ → Noting ε α} {g : β → γ → Noting ε β}
    (hstep : ∀ a b c, R a b → Matches R (f a c) (g b c)) (cs : List γ) {a : α} {b : β}
    (h : R a b) : Matches R (cs.foldlM f a) (cs.foldlM g b) := by
  induction cs generalizing a b with
  | nil => exact .pure h
  | cons c cs ih =>
    simp only [List.foldlM_cons]
    exact (hstep a b c h).bind fun a' b' h' => ih h'

end Matches

end ExactArithmetic

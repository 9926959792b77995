import Mathlib.Data.Nat.Bitwise
import Mathlib.Data.Nat.ModEq
import Mathlib.Data.Nat.Prime.Basic
import Mathlib.Tactic.Ring
import Mathlib.Data.Fintype.EquivFin

/-! # Probe sequences of the open addressing map

Both probes are modelled on the machine mask they are called with. What the map
relies on is that a walk visits every slot before it returns to its start; for
the quadratic probe this is a fact about triangular numbers modulo powers of two.
-/
namespace ItchOrderBook.Util

/-- `visit` reaches every position in fewer than `period` steps and is back at
its start after exactly `period` steps, for the first time. -/
structure Tour {ι : Type*} (visit : ℕ → ι) (period : ℕ) : Prop where
  pos : 0 < period
  returns : visit period = visit 0
  first : ∀ a, 0 < a → a < period → visit a ≠ visit 0
  covers : ∀ s, ∃ a < period, visit a = s

/-- The `next` function of a `Probe`, masked into the table. -/
structure ProbeFn where
  next (index attempt mask : ℕ) : ℕ
  next_le (index attempt mask : ℕ) : next index attempt mask ≤ mask

variable {bits : ℕ}

def ProbeFn.step (P : ProbeFn) (index : Fin (2 ^ bits)) (attempt : ℕ) : Fin (2 ^ bits) :=
  ⟨P.next index attempt (2 ^ bits - 1), by
    have hle := P.next_le index attempt (2 ^ bits - 1)
    have hpos := Nat.two_pow_pos bits
    omega⟩

/-- The slots visited from `start` with attempts `1, 2, 3, ..`. -/
def ProbeFn.walk (P : ProbeFn) (start : Fin (2 ^ bits)) : ℕ → Fin (2 ^ bits)
  | 0 => start
  | a + 1 => P.step (P.walk start a) (a + 1)

@[simp] theorem ProbeFn.walk_zero (P : ProbeFn) (start : Fin (2 ^ bits)) :
    P.walk start 0 = start := rfl

/-- A probe whose walks tour the table, whatever power of two its size is. -/
structure Probe extends ProbeFn where
  tour : ∀ {bits : ℕ} (start : Fin (2 ^ bits)),
    ∃ period ≤ 2 * 2 ^ bits, Tour (toProbeFn.walk start) period

theorem land_mask (x : ℕ) : x &&& (2 ^ bits - 1) = x % 2 ^ bits := Nat.and_two_pow_sub_one_eq_mod x bits

def linearNext : ProbeFn where
  next index _ mask := (index + 1) &&& mask
  next_le _ _ _ := Nat.and_le_right

def quadraticNext : ProbeFn where
  next index attempt mask := (index + attempt) &&& mask
  next_le _ _ _ := Nat.and_le_right

theorem linearNext_walk (start : Fin (2 ^ bits)) (a : ℕ) :
    (linearNext.walk start a : ℕ) = (start + a) % 2 ^ bits := by
  induction a with
  | zero => simp [Nat.mod_eq_of_lt start.isLt]
  | succ a ih =>
    have hstep : (linearNext.walk start (a + 1) : ℕ) =
        ((linearNext.walk start a : ℕ) + 1) % 2 ^ bits := land_mask _
    rw [hstep, ih, Nat.mod_add_mod, Nat.add_assoc]

/-- The `a`-th triangular number, the distance walked by `a` quadratic probes. -/
def triangle (a : ℕ) : ℕ := a * (a + 1) / 2

theorem two_mul_triangle (a : ℕ) : 2 * triangle a = a * (a + 1) :=
  Nat.two_mul_div_two_of_even (Nat.even_mul_succ_self a)

theorem triangle_succ (a : ℕ) : triangle (a + 1) = triangle a + (a + 1) := by
  have h := two_mul_triangle a
  have hs := two_mul_triangle (a + 1)
  have hexp : (a + 1) * (a + 1 + 1) = a * (a + 1) + 2 * (a + 1) := by ring
  omega

theorem quadraticNext_walk (start : Fin (2 ^ bits)) (a : ℕ) :
    (quadraticNext.walk start a : ℕ) = (start + triangle a) % 2 ^ bits := by
  induction a with
  | zero => simp [triangle, Nat.mod_eq_of_lt start.isLt]
  | succ a ih =>
    have hstep : (quadraticNext.walk start (a + 1) : ℕ) =
        ((quadraticNext.walk start a : ℕ) + (a + 1)) % 2 ^ bits := land_mask _
    rw [hstep, ih, Nat.mod_add_mod, triangle_succ, Nat.add_assoc]

/-- Of two factors with an odd sum one is odd, so the power of two divides the other. -/
theorem two_pow_dvd_factor {n x y : ℕ} (hodd : Odd (x + y)) (h : 2 ^ n ∣ x * y) :
    2 ^ n ∣ x ∨ 2 ^ n ∣ y := by
  rcases Nat.even_or_odd x with hx | hx
  · have hy : Odd y := by
      by_contra hny
      exact (Nat.not_even_iff_odd.mpr hodd) (hx.add (Nat.not_odd_iff_even.mp hny))
    left
    exact (Nat.Coprime.pow_left n (Nat.coprime_two_left.mpr hy)).dvd_of_dvd_mul_right h
  · right
    exact (Nat.Coprime.pow_left n (Nat.coprime_two_left.mpr hx)).dvd_of_dvd_mul_left h

/-- Triangular numbers below `2 ^ n` are distinct modulo `2 ^ n`. -/
theorem triangle_mod_inj {n a b : ℕ} (hb : b < 2 ^ n) (hab : a ≤ b)
    (h : triangle a ≡ triangle b [MOD 2 ^ n]) : a = b := by
  have hle : triangle a ≤ triangle b := Nat.div_le_div_right (Nat.mul_le_mul hab (by omega))
  have hdvd : 2 ^ n ∣ triangle b - triangle a := (Nat.modEq_iff_dvd' hle).mp h
  have hfactor : 2 * (triangle b - triangle a) = (b - a) * (a + b + 1) := by
    rw [Nat.mul_sub, two_mul_triangle, two_mul_triangle]
    obtain ⟨d, rfl⟩ := Nat.exists_eq_add_of_le hab
    have hexp : (a + d) * (a + d + 1) = a * (a + 1) + d * (a + (a + d) + 1) := by ring
    rw [hexp, Nat.add_sub_cancel_left, Nat.add_sub_cancel_left]
  have hpow : 2 ^ (n + 1) ∣ (b - a) * (a + b + 1) := by
    rw [← hfactor, pow_succ, Nat.mul_comm (2 ^ n) 2]
    exact Nat.mul_dvd_mul_left 2 hdvd
  have hodd : Odd ((b - a) + (a + b + 1)) := ⟨b, by omega⟩
  have hpn : 2 ^ (n + 1) = 2 * 2 ^ n := by ring
  rcases two_pow_dvd_factor hodd hpow with hd | hd
  · have hz : b - a = 0 := Nat.eq_zero_of_dvd_of_lt hd (by omega)
    omega
  · have hbig := Nat.le_of_dvd (by omega) hd
    omega

/-- The walk is back at distance zero only when the step count or its successor
is a multiple of `2 ^ (n + 1)`. -/
theorem triangle_mod_eq_zero {n a : ℕ} :
    triangle a % 2 ^ n = 0 ↔ 2 ^ (n + 1) ∣ a ∨ 2 ^ (n + 1) ∣ a + 1 := by
  have hpow : 2 ^ (n + 1) ∣ a * (a + 1) ↔ 2 ^ n ∣ triangle a := by
    rw [← two_mul_triangle, pow_succ, Nat.mul_comm (2 ^ n) 2]
    exact Nat.mul_dvd_mul_iff_left (by omega)
  rw [← Nat.dvd_iff_mod_eq_zero, ← hpow]
  constructor
  · exact two_pow_dvd_factor ⟨a, by omega⟩
  · rintro (h | h)
    · exact h.mul_right _
    · exact h.mul_left _

/-- An injective walk of `2 ^ bits` steps visits every slot. -/
theorem covers_of_injOn {visit : ℕ → Fin (2 ^ bits)}
    (hinj : ∀ a < 2 ^ bits, ∀ b < 2 ^ bits, visit a = visit b → a = b) (s : Fin (2 ^ bits)) :
    ∃ a < 2 ^ bits, visit a = s := by
  have hbij : Function.Injective (fun a : Fin (2 ^ bits) => visit a) := by
    intro a b h
    exact Fin.ext (hinj a a.isLt b b.isLt h)
  obtain ⟨a, ha⟩ := (Finite.injective_iff_surjective.mp hbij) s
  exact ⟨a, a.isLt, ha⟩

theorem linearNext_inj (start : Fin (2 ^ bits)) {a b : ℕ} (ha : a < 2 ^ bits) (hb : b < 2 ^ bits)
    (h : linearNext.walk start a = linearNext.walk start b) : a = b := by
  have hmod : (start + a) % 2 ^ bits = (start + b) % 2 ^ bits := by
    rw [← linearNext_walk, ← linearNext_walk, h]
  have hab : a ≡ b [MOD 2 ^ bits] := Nat.ModEq.add_left_cancel' (start : ℕ) hmod
  exact Nat.ModEq.eq_of_lt_of_lt hab ha hb

theorem linearNext_tour (start : Fin (2 ^ bits)) : Tour (linearNext.walk start) (2 ^ bits) where
  pos := Nat.two_pow_pos bits
  returns := by
    apply Fin.ext
    rw [linearNext_walk, Nat.add_mod_right, Nat.mod_eq_of_lt start.isLt, ProbeFn.walk_zero]
  first a hpos hlt h := by
    have := linearNext_inj start hlt (Nat.two_pow_pos bits) h
    omega
  covers := covers_of_injOn fun _ ha _ hb => linearNext_inj start ha hb

theorem quadraticNext_inj (start : Fin (2 ^ bits)) {a b : ℕ} (ha : a < 2 ^ bits)
    (hb : b < 2 ^ bits) (h : quadraticNext.walk start a = quadraticNext.walk start b) : a = b := by
  have hmod : (start + triangle a) % 2 ^ bits = (start + triangle b) % 2 ^ bits := by
    rw [← quadraticNext_walk, ← quadraticNext_walk, h]
  have hab : triangle a ≡ triangle b [MOD 2 ^ bits] := Nat.ModEq.add_left_cancel' (start : ℕ) hmod
  rcases Nat.le_total a b with hle | hle
  · exact triangle_mod_inj hb hle hab
  · exact (triangle_mod_inj ha hle hab.symm).symm

theorem quadraticNext_return_iff (start : Fin (2 ^ bits)) (a : ℕ) :
    quadraticNext.walk start a = start ↔ 2 ^ (bits + 1) ∣ a ∨ 2 ^ (bits + 1) ∣ a + 1 := by
  rw [← triangle_mod_eq_zero, Fin.ext_iff, quadraticNext_walk]
  constructor
  · intro h
    have hmod : (start + triangle a) % 2 ^ bits = (start + 0) % 2 ^ bits := by
      rw [h, Nat.add_zero, Nat.mod_eq_of_lt start.isLt]
    have hzero := Nat.ModEq.add_left_cancel' (start : ℕ) hmod
    rwa [Nat.ModEq, Nat.zero_mod] at hzero
  · intro h
    rw [Nat.add_mod, h, Nat.add_zero, Nat.mod_mod, Nat.mod_eq_of_lt start.isLt]

theorem quadraticNext_tour (start : Fin (2 ^ bits)) :
    Tour (quadraticNext.walk start) (2 ^ (bits + 1) - 1) where
  pos := by
    have := Nat.two_pow_pos bits
    rw [pow_succ]
    omega
  returns := by
    rw [ProbeFn.walk_zero, quadraticNext_return_iff]
    right
    rw [Nat.sub_add_cancel Nat.one_le_two_pow]
  first a hpos hlt h := by
    rcases (quadraticNext_return_iff start a).mp h with hd | hd
    · have := Nat.le_of_dvd hpos hd
      omega
    · have := Nat.le_of_dvd (by omega) hd
      omega
  covers s := by
    obtain ⟨a, ha, hs⟩ := covers_of_injOn (fun _ ha _ hb => quadraticNext_inj start ha hb) s
    have := Nat.two_pow_pos bits
    exact ⟨a, by rw [pow_succ]; omega, hs⟩

def linearProbe : Probe where
  toProbeFn := linearNext
  tour {bits} start := ⟨2 ^ bits, by omega, linearNext_tour start⟩

def quadraticProbe : Probe where
  toProbeFn := quadraticNext
  tour {bits} start := ⟨2 ^ (bits + 1) - 1, by rw [pow_succ]; omega, quadraticNext_tour start⟩

end ItchOrderBook.Util

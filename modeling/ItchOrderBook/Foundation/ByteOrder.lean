import Mathlib.Data.Nat.ModEq
import Mathlib.Data.List.Basic

/-! # Numbers and their byte representations

Unsigned numbers of `n` bytes, stored in either byte order. Reversing the bytes of
a representation is the arithmetic byte swap, whichever order the host uses.
-/
namespace ByteOrder

inductive Endian
  | big
  | little
  deriving DecidableEq, Repr

def loadLittle : List UInt8 → ℕ
  | [] => 0
  | b :: bs => b.toNat + 256 * loadLittle bs

def storeLittle : ℕ → ℕ → List UInt8
  | 0, _ => []
  | n + 1, v => UInt8.ofNat v :: storeLittle n (v / 256)

@[simp] theorem storeLittle_length (n v : ℕ) : (storeLittle n v).length = n := by
  induction n generalizing v with
  | zero => rfl
  | succ n ih => simp [storeLittle, ih]

theorem storeLittle_loadLittle (bs : List UInt8) : storeLittle bs.length (loadLittle bs) = bs := by
  induction bs with
  | nil => rfl
  | cons b bs ih =>
    have hb : b.toNat < 256 := b.toNat_lt
    have hdiv : (b.toNat + 256 * loadLittle bs) / 256 = loadLittle bs := by omega
    have hhead : UInt8.ofNat (b.toNat + 256 * loadLittle bs) = b := by
      apply UInt8.toNat_inj.mp
      rw [UInt8.toNat_ofNat']
      omega
    simp only [List.length_cons, loadLittle, storeLittle, hdiv, ih, hhead]

theorem loadLittle_lt (bs : List UInt8) : loadLittle bs < 256 ^ bs.length := by
  induction bs with
  | nil => simp [loadLittle]
  | cons b bs ih =>
    have hb : b.toNat < 256 := b.toNat_lt
    rw [loadLittle, List.length_cons, pow_succ]
    omega

theorem loadLittle_storeLittle {n v : ℕ} (h : v < 256 ^ n) : loadLittle (storeLittle n v) = v := by
  induction n generalizing v with
  | zero =>
    rw [pow_zero] at h
    exact (Nat.lt_one_iff.mp h).symm
  | succ n ih =>
    rw [pow_succ] at h
    have hdiv : v / 256 < 256 ^ n := by omega
    have hbyte : (UInt8.ofNat v).toNat = v % 256 := UInt8.toNat_ofNat'
    rw [storeLittle, loadLittle, ih hdiv, hbyte]
    omega

/-- The number an object representation stands for. -/
def load : Endian → List UInt8 → ℕ
  | .little, bs => loadLittle bs
  | .big, bs => loadLittle bs.reverse

/-- The object representation of a number of `n` bytes. -/
def store : Endian → ℕ → ℕ → List UInt8
  | .little, n, v => storeLittle n v
  | .big, n, v => (storeLittle n v).reverse

theorem load_lt (e : Endian) (bs : List UInt8) : load e bs < 256 ^ bs.length := by
  cases e with
  | little => exact loadLittle_lt bs
  | big =>
    have h := loadLittle_lt bs.reverse
    rwa [List.length_reverse] at h

@[simp] theorem store_length (e : Endian) (n v : ℕ) : (store e n v).length = n := by
  cases e <;> simp [store]

theorem load_store (e : Endian) {n v : ℕ} (h : v < 256 ^ n) : load e (store e n v) = v := by
  cases e with
  | little => exact loadLittle_storeLittle h
  | big =>
    simp only [load, store, List.reverse_reverse]
    exact loadLittle_storeLittle h

theorem store_load (e : Endian) (bs : List UInt8) : store e bs.length (load e bs) = bs := by
  cases e with
  | little => exact storeLittle_loadLittle bs
  | big =>
    have h := storeLittle_loadLittle bs.reverse
    rw [List.length_reverse] at h
    simp only [store, load, h, List.reverse_reverse]

/-- `std::byteswap` on a number of `n` bytes. -/
def byteswap (n v : ℕ) : ℕ := loadLittle (storeLittle n v).reverse

/-- Swapping the number reverses its bytes. -/
theorem store_byteswap_load (e : Endian) (bs : List UInt8) :
    store e bs.length (byteswap bs.length (load e bs)) = bs.reverse := by
  cases e with
  | little =>
    simp only [store, byteswap, load, storeLittle_loadLittle]
    have h := storeLittle_loadLittle bs.reverse
    rwa [List.length_reverse] at h
  | big =>
    have h := storeLittle_loadLittle bs.reverse
    rw [List.length_reverse] at h
    simp only [store, byteswap, load, h, List.reverse_reverse, storeLittle_loadLittle]

/-- Swapping a number loaded in one order gives the number of the other order. -/
theorem byteswap_loadLittle (bs : List UInt8) :
    byteswap bs.length (load .little bs) = load .big bs := by
  rw [byteswap, load, storeLittle_loadLittle, load]

end ByteOrder

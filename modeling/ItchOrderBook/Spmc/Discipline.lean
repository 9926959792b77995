import ItchOrderBook.Spmc.RingBuffer
import ItchOrderBook.Foundation.RelyGuarantee
import Mathlib.Data.List.Forall2
import Mathlib.Data.List.Infix
import Mathlib.Tactic.Ring

/-! # The discipline of the ring buffer

Positions are counted in ℕ: an index of the machine is a position modulo 2^64. Each
`cached_read_idx_` is a position behind every reader, each `cached_write_idx_` one
between its reader and the writer, and the writer is at most a capacity ahead of
every reader. Differences of indices are then true differences.
-/
namespace ItchOrderBook.Spmc
open AtomicProgram

/-! ## Index arithmetic -/

theorem ofNat_sub_toNat {a b : ℕ} (hle : b ≤ a) (hlt : a - b < 2 ^ 64) :
    (UInt64.ofNat a - UInt64.ofNat b).toNat = a - b := by
  rw [UInt64.toNat_sub, UInt64.toNat_ofNat', UInt64.toNat_ofNat']
  omega

theorem min_ofNat {a b : ℕ} (ha : a < 2 ^ 64) (hb : b < 2 ^ 64) :
    min (UInt64.ofNat a) (UInt64.ofNat b) = UInt64.ofNat (min a b) := by
  have hle : UInt64.ofNat a ≤ UInt64.ofNat b ↔ a ≤ b := by
    rw [UInt64.le_iff_toNat_le, UInt64.toNat_ofNat', UInt64.toNat_ofNat',
      Nat.mod_eq_of_lt ha, Nat.mod_eq_of_lt hb]
  by_cases h : a ≤ b
  · rw [min_eq_left h]
    exact if_pos (hle.mpr h)
  · rw [min_eq_right (Nat.le_of_not_le h)]
    exact if_neg fun h' => h (hle.mp h')

theorem toNat_min (x y : UInt64) : (min x y).toNat = min x.toNat y.toNat := by
  have h := min_ofNat x.toNat_lt y.toNat_lt
  rw [UInt64.ofNat_toNat, UInt64.ofNat_toNat] at h
  have hx := x.toNat_lt
  rw [h, UInt64.toNat_ofNat']
  omega

namespace Capacity
variable {C : Capacity}

/-- The mask of an index finds the slot of its position. -/
theorem slot_ofNat (p : ℕ) : C.slot (UInt64.ofNat p) = C.slotAt p := by
  apply Fin.ext
  change (UInt64.ofNat p &&& C.mask).toNat = p % C.size
  rw [land_mask_toNat, UInt64.toNat_ofNat', size]
  exact Nat.mod_mod_of_dvd p (Nat.pow_dvd_pow 2 (Nat.le_of_lt C.bits_lt))

theorem slotAt_ne {p q : ℕ} (hlt : p < q) (hclose : q < p + C.size) : C.slotAt p ≠ C.slotAt q := by
  intro h
  have hmod : p % C.size = q % C.size := congrArg Fin.val h
  have hdvd : C.size ∣ q - p := (Nat.modEq_iff_dvd' hlt.le).mp hmod
  have := Nat.le_of_dvd (by omega) hdvd
  omega

end Capacity

variable {T : Type} {C : Capacity} {n : ℕ}

/-! ## Logs -/

namespace IsPrefix
variable {log : List (Option T)} {items items' : List T}

theorem nil : IsPrefix [] items := ⟨Nat.zero_le _, by simp⟩

theorem mono (h : IsPrefix log items) (hmore : items <+: items') : IsPrefix log items' := by
  refine ⟨h.1.trans hmore.length_le, ?_⟩
  obtain ⟨rest, rfl⟩ := hmore
  rw [List.take_append_of_le_length h.1]
  exact h.2

/-- A log grows by entries that match the items behind it. -/
theorem append (h : IsPrefix log items) {entries : List (Option T)} {next : List T}
    (hentries : List.Forall₂ (fun entry item => entry = none ∨ entry = some item) entries next)
    (hnext : items.take log.length ++ next <+: items) : IsPrefix (log ++ entries) items := by
  have hlen := hentries.length_eq
  have htake : (items.take log.length).length = log.length := List.length_take_of_le h.1
  have hle := hnext.length_le
  rw [List.length_append, htake] at hle
  refine ⟨by rw [List.length_append, hlen]; exact hle, ?_⟩
  have hfront : items.take (log ++ entries).length = items.take log.length ++ next := by
    have hlength : (log ++ entries).length = (items.take log.length ++ next).length := by
      simp only [List.length_append, htake, hlen]
    rw [hlength]
    exact (List.prefix_iff_eq_take.mp hnext).symm
  rw [hfront]
  exact List.rel_append h.2 hentries

end IsPrefix

/-! ## The discipline -/

/-- The worlds the indices are right in: one consumer, or fewer than 2^64 items. -/
def Admissible (history : List (QueueEvent T C n)) : Prop :=
  n = 0 ∨ (pushed history).length < 2 ^ 64

structure Ring (w : QueueWorld T C n) : Prop where
  write : w.shared.writeIdx = UInt64.ofNat (pushed w.history).length
  read : ∀ c, w.shared.readIdx c = UInt64.ofNat (passed c w.history)
  order : ∀ c, passed c w.history ≤ (pushed w.history).length
  room : ∀ c, (pushed w.history).length ≤ passed c w.history + C.size
  /-- No slot is reused before every consumer has passed it. -/
  window : ∀ c p, passed c w.history ≤ p → p < (pushed w.history).length →
    (pushed w.history)[p]? = some (w.shared.buffer (C.slotAt p))
  logged : ∀ c, (consumed c w.history).length ≤ passed c w.history ∧
    IsPrefix (consumed c w.history) (pushed w.history)

/-- What the consumers leave to the producer. -/
structure ProducerRely (w w' : QueueWorld T C n) : Prop where
  pushed_eq : pushed w'.history = pushed w.history
  passed_le : ∀ c, passed c w.history ≤ passed c w'.history
  buffer_eq : w'.shared.buffer = w.shared.buffer
  start_eq : callStart .producer w'.history = callStart .producer w.history

/-- What the producer and the other consumers leave to consumer `c`. -/
structure ConsumerRely (c : Fin (n + 1)) (w w' : QueueWorld T C n) : Prop where
  pushed_grows : pushed w.history <+: pushed w'.history
  passed_eq : passed c w'.history = passed c w.history
  consumed_eq : consumed c w'.history = consumed c w.history
  start_eq : callStart (.consumer c) w'.history = callStart (.consumer c) w.history

/-- The cached read index is behind every reader and leaves room up to `q`. -/
def CachedRead (q : ℕ) (cached : UInt64) (w : QueueWorld T C n) : Prop :=
  ∃ r, cached = UInt64.ofNat r ∧ (∀ c, r ≤ passed c w.history) ∧ q ≤ r + C.size

/-- The cached write index is between the reader and the writer. -/
def CachedWrite (c : Fin (n + 1)) (cached : UInt64) (w : QueueWorld T C n) : Prop :=
  ∃ r, cached = UInt64.ofNat r ∧ passed c w.history ≤ r ∧ r ≤ (pushed w.history).length

/-- A push call has published its items, all or none. -/
def Published (call : ProducerCall T) (r : ProducerResult) (w : QueueWorld T C n) : Prop :=
  pushed w.history = pushed (callStart .producer w.history) ++
    match r with
    | .response .success => call.items
    | _ => []

/-- A call of consumer `c` has moved past the items it delivers, or past none because
too few had been published when it started. -/
def Delivered (c : Fin (n + 1)) (call : ConsumerCall) (r : ConsumerResult T)
    (w : QueueWorld T C n) : Prop :=
  if r.failure = .none then
    passed c w.history = (consumed c w.history).length + call.count.toNat ∧
    passed c w.history ≤ (pushed w.history).length ∧
    (call ≠ .trySkipMany call.count →
      r.items.length = call.count.toNat ∧
      (pushed w.history).take (consumed c w.history).length ++ r.items <+: pushed w.history)
  else
    passed c w.history = (consumed c w.history).length ∧
    (pushed (callStart (.consumer c) w.history)).length < passed c w.history + call.count.toNat

def discipline (T : Type) (C : Capacity) (n : ℕ) :
    Discipline (Thread n) (RingBuffer T C n) (Access T C n) Access.Result (Thread.Call T)
      (Thread.Ret T) Thread.Local where
  rely
    | .producer => ProducerRely
    | .consumer c => ConsumerRely c
  inv := Ring
  admissible := Admissible
  idle
    | .producer, cached, w => CachedRead (pushed w.history).length cached w
    | .consumer c, cached, w =>
      CachedWrite c cached w ∧ passed c w.history = (consumed c w.history).length
  before
    | .producer, _, .writeSlot s _, w =>
      ∀ c p, passed c w.history ≤ p → p < (pushed w.history).length → C.slotAt p ≠ s
    | .producer, _, .storeWriteIdx _, w =>
      pushed w.history = pushed (callStart .producer w.history)
    | _, _, _, _ => True
  post
    | .producer, call, (r, cached), w =>
      CachedRead (pushed w.history).length cached w ∧ Published call r w
    | .consumer c, call, (r, cached), w => CachedWrite c cached w ∧ Delivered c call r w

end ItchOrderBook.Spmc

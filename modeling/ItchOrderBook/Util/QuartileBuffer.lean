import ItchOrderBook.Spmc.Discipline
import ItchOrderBook.Foundation.OrderStatistics
import Mathlib.Data.List.Rotate
import Mathlib.Data.Rat.Floor

/-! # Latency percentiles

The ring of recent samples and the percentiles reported from it. The samples are unsigned
words, the ring holds `time_t`, which is signed: the report sorts the samples from 2^63 on
in front of the smaller ones.
-/
namespace ItchOrderBook.Util
open Spmc OrderStatistics

variable {T : Type} {C : Capacity}

/-- `RingBuffer<T, N>`, where `N` is the size of `C`. -/
structure RingBuffer (T : Type) (C : Capacity) where
  size_ : UInt64
  buffer : Fin C.size → T

namespace RingBuffer

/-- `make_unique` value-initialises the slots. -/
instance [Inhabited T] : Inhabited (RingBuffer T C) := ⟨⟨0, fun _ => default⟩⟩

def push (b : RingBuffer T C) (item : T) : RingBuffer T C where
  size_ := b.size_ + 1
  buffer := Function.update b.buffer (C.slot b.size_) item

def size (b : RingBuffer T C) : UInt64 := min C.capacity b.size_

def getBuffer (b : RingBuffer T C) : List T := (List.ofFn b.buffer).take b.size.toNat

end RingBuffer

/-- `QuartileBuffer<std::uint64_t, N>`: its ring is one of `time_t`. -/
structure QuartileBuffer (C : Capacity) where
  buffer : RingBuffer Int64 C

namespace QuartileBuffer

instance : Inhabited (QuartileBuffer C) := ⟨⟨default⟩⟩

def record (b : QuartileBuffer C) (item : UInt64) : QuartileBuffer C :=
  ⟨b.buffer.push item.toInt64⟩

def count (b : QuartileBuffer C) : UInt64 := b.buffer.size

/-- `static_cast<std::size_t>(count_d * quartile)`, computed exactly. -/
def index (count : ℕ) (quartile : ℚ) : ℕ := (((count - 1 : ℕ) : ℚ) * quartile).floor.toNat

/-- `report<Q...>`. -/
def report (b : QuartileBuffer C) (Q : List ℚ) : List UInt64 :=
  if b.count = 0 then Q.map fun _ => 0
  else
    let results := sortBy Int64.toInt b.buffer.getBuffer
    Q.map fun quartile => (results.getD (index b.count.toNat quartile) 0).toUInt64

end QuartileBuffer

/-! ## The window -/

/-- The last `k` of the samples. -/
def recent (k : ℕ) (samples : List T) : List T := samples.drop (samples.length - k)

@[simp] theorem length_recent (k : ℕ) (samples : List T) :
    (recent k samples).length = min k samples.length := by
  simp [recent]
  omega

section Window
variable [Inhabited T] (items : List T)

theorem pushes : (items.foldl RingBuffer.push (default : RingBuffer T C)).size_ =
      .ofNat items.length ∧
    ∀ p < items.length, items.length ≤ p + C.size → items[p]? =
      some ((items.foldl RingBuffer.push (default : RingBuffer T C)).buffer (C.slotAt p)) := by
  induction items using List.reverseRecOn with
  | nil => exact ⟨rfl, fun p hp => absurd hp (Nat.not_lt_zero p)⟩
  | append_singleton items item ih =>
    obtain ⟨hsize, hslots⟩ := ih
    simp only [List.foldl_append, List.foldl_cons, List.foldl_nil, RingBuffer.push,
      List.length_append, List.length_singleton, hsize, Capacity.slot_ofNat]
    refine ⟨(UInt64.ofNat_add ..).symm, fun p hp hclose => ?_⟩
    rcases Nat.lt_succ_iff_lt_or_eq.mp hp with hlt | rfl
    · have hne : C.slotAt p ≠ C.slotAt items.length := Capacity.slotAt_ne hlt (by omega)
      rw [List.getElem?_append_left hlt, Function.update_of_ne hne]
      exact hslots p hlt (by omega)
    · simp

/-- How many samples the ring shows: its counter is taken modulo 2^64. -/
def kept (C : Capacity) (recorded : ℕ) : ℕ := min C.size (recorded % 2 ^ 64)

theorem size_pushes : (items.foldl RingBuffer.push (default : RingBuffer T C)).size.toNat =
    kept C items.length := by
  rw [RingBuffer.size, (pushes items).1, toNat_min, C.capacity_toNat, UInt64.toNat_ofNat', kept]

theorem size_dvd (C : Capacity) : C.size ∣ 2 ^ 64 := Nat.pow_dvd_pow 2 C.bits_lt.le

/-- A ring that is not full shows its first slots, which its last items are in. -/
theorem getBuffer_of_lt (hlt : items.length % 2 ^ 64 < C.size) :
    (items.foldl RingBuffer.push (default : RingBuffer T C)).getBuffer =
      items.drop (items.length - items.length % 2 ^ 64) := by
  have hle := Nat.mod_le items.length (2 ^ 64)
  have hkept : kept C items.length = items.length % 2 ^ 64 := Nat.min_eq_right hlt.le
  have hzero : (items.length - items.length % 2 ^ 64) % C.size = 0 :=
    Nat.mod_eq_zero_of_dvd ((size_dvd C).trans (Nat.dvd_sub_mod _))
  apply List.ext_getElem?
  intro i
  rw [RingBuffer.getBuffer, size_pushes, hkept, List.getElem?_take, List.getElem?_drop]
  by_cases hi : i < items.length % 2 ^ 64
  · have hslot : C.slotAt (items.length - items.length % 2 ^ 64 + i) = ⟨i, hi.trans hlt⟩ := by
      apply Fin.ext
      change (_ + i) % C.size = i
      rw [Nat.add_mod, hzero, Nat.zero_add, Nat.mod_mod, Nat.mod_eq_of_lt (hi.trans hlt)]
    rw [if_pos hi, (pushes (C := C) items).2 _ (by omega) (by omega), hslot, List.getElem?_ofFn,
      dif_pos (hi.trans hlt)]
  · rw [if_neg hi, List.getElem?_eq_none (by omega)]

/-- A full ring shows its last items from the slot of the next one on, around its end. -/
theorem getBuffer_of_le (hle : C.size ≤ items.length % 2 ^ 64) :
    (items.foldl RingBuffer.push (default : RingBuffer T C)).getBuffer.rotate items.length =
      items.drop (items.length - C.size) := by
  have hmod := Nat.mod_le items.length (2 ^ 64)
  have hkept : kept C items.length = C.size := Nat.min_eq_left hle
  have hbuffer : (items.foldl RingBuffer.push (default : RingBuffer T C)).getBuffer =
      List.ofFn (items.foldl RingBuffer.push (default : RingBuffer T C)).buffer := by
    rw [RingBuffer.getBuffer, size_pushes, hkept, List.take_of_length_le (by simp)]
  rw [hbuffer]
  apply List.ext_getElem?
  intro i
  rw [List.getElem?_drop]
  by_cases hi : i < C.size
  · have hslot : C.slotAt (items.length - C.size + i) = C.slotAt (i + items.length) := by
      apply Fin.ext
      change (_ + i) % C.size = (i + _) % C.size
      rw [← Nat.add_mod_right (items.length - C.size + i)]
      congr 1
      omega
    rw [List.getElem?_rotate (by simpa using hi), (pushes (C := C) items).2 _ (by omega) (by omega), hslot]
    simp [Capacity.slotAt, Nat.mod_lt _ C.size_pos]
  · rw [List.getElem?_eq_none (by simpa using hi), List.getElem?_eq_none (by omega)]

theorem getBuffer_perm : ((items.foldl RingBuffer.push (default : RingBuffer T C)).getBuffer).Perm
    (recent (kept C items.length) items) := by
  unfold recent kept
  rcases Nat.lt_or_ge (items.length % 2 ^ 64) C.size with hlt | hle
  · rw [getBuffer_of_lt items hlt, Nat.min_eq_right hlt.le]
  · rw [Nat.min_eq_left hle, ← getBuffer_of_le items hle]
    exact (List.rotate_perm _ _).symm

end Window

/-! ## The report -/

/-- The buffer after these samples. -/
def recorded (C : Capacity) (samples : List UInt64) : QuartileBuffer C :=
  samples.foldl QuartileBuffer.record default

/-- A sample as the ring orders it. -/
def signedKey (sample : UInt64) : ℤ := sample.toInt64.toInt

theorem signedKey_eq (x : UInt64) :
    signedKey x = if x.toNat < 2 ^ 63 then (x.toNat : ℤ) else x.toNat - 2 ^ 64 := by
  have h : signedKey x = x.toBitVec.toInt := rfl
  rw [h, BitVec.toInt_eq_toNat_cond, UInt64.toNat_toBitVec]
  split <;> split <;> omega

theorem toNat_injective : Function.Injective UInt64.toNat := fun _ _ => UInt64.toNat_inj.mp

theorem toInt_injective : Function.Injective Int64.toInt := fun _ _ => Int64.toInt_inj.mp

theorem signedKey_injective : Function.Injective signedKey := fun x y h => by
  have hx := x.toNat_lt
  have hy := y.toNat_lt
  rw [signedKey_eq, signedKey_eq] at h
  apply toNat_injective
  split at h <;> split at h <;> omega

section Report
variable (samples : List UInt64)

theorem recorded_buffer : (recorded C samples).buffer =
    (samples.map UInt64.toInt64).foldl RingBuffer.push default := by
  have hfold : ∀ b : QuartileBuffer C, (samples.foldl QuartileBuffer.record b).buffer =
      (samples.map UInt64.toInt64).foldl RingBuffer.push b.buffer := by
    induction samples with
    | nil => exact fun b => rfl
    | cons sample samples ih => exact fun b => ih (b.record sample)
  exact hfold default

theorem count_recorded : (recorded C samples).count.toNat = kept C samples.length := by
  rw [QuartileBuffer.count, recorded_buffer, size_pushes, List.length_map]

theorem sortBy_getBuffer : sortBy Int64.toInt (recorded C samples).buffer.getBuffer =
    (sortBy signedKey (recent (kept C samples.length) samples)).map UInt64.toInt64 := by
  have hbuffer := getBuffer_perm (C := C) (samples.map UInt64.toInt64)
  rw [← recorded_buffer, List.length_map] at hbuffer
  have hmap : recent (kept C samples.length) (samples.map UInt64.toInt64) =
      (recent (kept C samples.length) samples).map UInt64.toInt64 := by
    simp [recent, List.map_drop]
  rw [hmap] at hbuffer
  apply sortBy_eq_of_perm toInt_injective
  · exact ((sortBy_perm signedKey _).map _).trans hbuffer.symm
  · exact List.pairwise_map.mpr (sortBy_pairwise signedKey _)

theorem report_eq (q : ℚ) : (recorded C samples).report [q] =
    [if kept C samples.length = 0 then 0
      else (sortBy signedKey (recent (kept C samples.length) samples)).getD
        (QuartileBuffer.index (kept C samples.length) q) 0] := by
  have hcount : (recorded C samples).count = 0 ↔ kept C samples.length = 0 := by
    rw [← UInt64.toNat_inj, count_recorded]
    rfl
  unfold QuartileBuffer.report
  by_cases hzero : kept C samples.length = 0
  · rw [if_pos (hcount.mpr hzero), if_pos hzero]
    rfl
  · rw [if_neg (hcount.not.mpr hzero), if_neg hzero]
    have hzeroInt : (0 : Int64) = UInt64.toInt64 0 := rfl
    simp only [List.map_cons, List.map_nil, count_recorded, sortBy_getBuffer, hzeroInt,
      List.getD_map]
    rfl

end Report

theorem index_lt {count : ℕ} {q : ℚ} (hcount : 0 < count) (hq : q ≤ 1) :
    QuartileBuffer.index count q < count := by
  have hfloor : (((count - 1 : ℕ) : ℚ) * q).floor ≤ ((count - 1 : ℕ) : ℤ) := by
    have hle : (((count - 1 : ℕ) : ℚ) * q) ≤ ((count - 1 : ℕ) : ℚ) :=
      mul_le_of_le_one_right (Nat.cast_nonneg _) hq
    exact_mod_cast (Int.floor_le (((count - 1 : ℕ) : ℚ) * q)).trans hle
  unfold QuartileBuffer.index
  omega

/-! ## Percentiles -/

/-- `report` returns the sample of rank `floor((c - 1) * q)`, in the order of the samples
themselves, of the last `c` samples. -/
def ReportsRank (C : Capacity) (samples : List UInt64) (q : ℚ) : Prop :=
  ∃ v, (recorded C samples).report [q] = [v] ∧
    HasRank UInt64.toNat (recent C.size samples)
      (QuartileBuffer.index (min samples.length C.size) q) v

/-- Samples that are negative as `time_t`. -/
def high (sample : UInt64) : Bool := decide (2 ^ 63 ≤ sample.toNat)

/-- The samples below 2^63 and those from there on, each part sorted. -/
def lowSorted (window : List UInt64) : List UInt64 :=
  sortBy UInt64.toNat (window.filter fun sample => !high sample)

def highSorted (window : List UInt64) : List UInt64 :=
  sortBy UInt64.toNat (window.filter high)

/-- Rank `k` stays in its part when the parts change places, and meets an equal sample. -/
def RankKept (window : List UInt64) (k : ℕ) : Prop :=
  (lowSorted window).length ≤ k ∧ k < (highSorted window).length ∧
    (highSorted window)[k]? = (highSorted window)[k - (lowSorted window).length]? ∨
  (highSorted window).length ≤ k ∧ k < (lowSorted window).length ∧
    (lowSorted window)[k - (highSorted window).length]? = (lowSorted window)[k]?

/-- The counter has wrapped and the ring shows the last `samples.length % 2 ^ 64` samples: the
sample of the rank in the whole window is the one that a report finds in these, with the high
ones first. -/
def RankMet (C : Capacity) (samples : List UInt64) (q : ℚ) : Prop :=
  let window := recent C.size samples
  let shown := recent (samples.length % 2 ^ 64) samples
  (lowSorted window ++ highSorted window)[QuartileBuffer.index C.size q]? =
    if shown = [] then some 0
    else (highSorted shown ++ lowSorted shown)[QuartileBuffer.index shown.length q]?

section Percentiles
variable (window : List UInt64)

theorem sortBy_toNat : sortBy UInt64.toNat window = lowSorted window ++ highSorted window := by
  have horder : ∀ x y, (!high x) = true → (!high y) = false → x.toNat ≤ y.toNat := by
    intro x y hx hy
    simp only [high, Bool.not_eq_true', decide_eq_false_iff_not, Bool.not_eq_false',
      decide_eq_true_eq] at hx hy
    omega
  have h : sortBy UInt64.toNat window = _ := sortBy_filter_append toNat_injective _ horder
  simpa [lowSorted, highSorted] using h

/-- The report sorts the high samples first. -/
theorem sortBy_signedKey : sortBy signedKey window = highSorted window ++ lowSorted window := by
  have horder : ∀ x y, high x = true → high y = false → signedKey x ≤ signedKey y := by
    intro x y hx hy
    have hlt := x.toNat_lt
    simp only [high, decide_eq_true_eq, decide_eq_false_iff_not] at hx hy
    rw [signedKey_eq, signedKey_eq, if_neg (by omega), if_pos (by omega)]
    omega
  have h : sortBy signedKey window = _ := sortBy_filter_append signedKey_injective high horder
  rw [h]
  congr 1
  · apply sortBy_congr signedKey_injective
    intro x hx y hy hle
    have hx := (List.mem_filter.mp hx).2
    have hy := (List.mem_filter.mp hy).2
    simp only [high, decide_eq_true_eq] at hx hy
    rw [signedKey_eq, signedKey_eq, if_neg (by omega), if_neg (by omega)]
    omega
  · apply sortBy_congr signedKey_injective
    intro x hx y hy hle
    have hx := (List.mem_filter.mp hx).2
    have hy := (List.mem_filter.mp hy).2
    simp only [high, Bool.not_eq_true', decide_eq_false_iff_not] at hx hy
    rw [signedKey_eq, signedKey_eq, if_pos (by omega), if_pos (by omega)]
    omega

theorem highSorted_disjoint : ∀ x ∈ highSorted window, x ∉ lowSorted window := by
  intro x hx hy
  have hx := (List.mem_filter.mp ((sortBy_perm _ _).mem_iff.mp hx)).2
  have hy := (List.mem_filter.mp ((sortBy_perm _ _).mem_iff.mp hy)).2
  simp [hx] at hy

/-- The sample the report finds at a rank has that rank exactly where the rank is kept. -/
theorem hasRank_signed_iff {k : ℕ} (hk : k < window.length) :
    HasRank UInt64.toNat window k ((sortBy signedKey window).getD k 0) ↔ RankKept window k := by
  have hlength : window.length = (highSorted window).length + (lowSorted window).length := by
    rw [← List.length_append, ← sortBy_signedKey, length_sortBy]
  have hunsigned : k < (sortBy UInt64.toNat window).length := by simpa using hk
  have hsigned : k < (sortBy signedKey window).length := by simpa using hk
  rw [hasRank_iff toNat_injective hunsigned, List.getD_eq_getElem _ _ hsigned,
    ← Option.some_inj, ← List.getElem?_eq_getElem, ← List.getElem?_eq_getElem, sortBy_toNat,
    sortBy_signedKey, eq_comm]
  exact append_swap_getElem (highSorted_disjoint window) (by omega)

end Percentiles

section Ranks
variable {samples : List UInt64} {q : ℚ}

theorem index_lt_recent (hsamples : samples ≠ []) (hq : q ≤ 1) :
    QuartileBuffer.index (min samples.length C.size) q < (recent C.size samples).length := by
  have hpos := List.length_pos_of_ne_nil hsamples
  have hsize := C.size_pos
  rw [length_recent, Nat.min_comm C.size]
  exact index_lt (by omega) hq

/-- While the ring shows the whole window. -/
theorem reportsRank_whole (hsamples : samples ≠ []) (hq : q ≤ 1)
    (hwhole : kept C samples.length = min samples.length C.size) : ReportsRank C samples q ↔
      RankKept (recent C.size samples) (QuartileBuffer.index (min samples.length C.size) q) := by
  have hpos := List.length_pos_of_ne_nil hsamples
  have hsize := C.size_pos
  have hreport := report_eq (C := C) samples q
  have hwindow : recent (min samples.length C.size) samples = recent C.size samples := by
    unfold recent
    congr 1
    omega
  rw [hwhole, hwindow, if_neg (by omega)] at hreport
  rw [← hasRank_signed_iff _ (index_lt_recent hsamples hq), ReportsRank, hreport]
  simp

/-- Fewer samples than the window has are shown only when the counter has wrapped. -/
theorem kept_of_ne {recorded : ℕ} (h : kept C recorded ≠ min recorded C.size) :
    kept C recorded = recorded % 2 ^ 64 ∧ min recorded C.size = C.size := by
  have hsize := C.size_le
  unfold kept at h ⊢
  omega

theorem reportsRank_wrapped (hsamples : samples ≠ []) (hq : q ≤ 1)
    (hwrapped : kept C samples.length ≠ min samples.length C.size) :
    ReportsRank C samples q ↔ RankMet C samples q := by
  obtain ⟨hkept, hwhole⟩ := kept_of_ne hwrapped
  let window := recent C.size samples
  let shown := recent (samples.length % 2 ^ 64) samples
  have hshown : shown.length = samples.length % 2 ^ 64 := by
    rw [length_recent, Nat.min_eq_left (Nat.mod_le _ _)]
  have hreport := report_eq (C := C) samples q
  rw [hkept, ← hshown] at hreport
  have hk : QuartileBuffer.index C.size q < (sortBy UInt64.toNat window).length := by
    have hlt := index_lt_recent (C := C) hsamples hq
    rwa [hwhole, ← length_sortBy UInt64.toNat] at hlt
  have hvalue : ∀ value, (∃ v, [value] = [v] ∧
      HasRank UInt64.toNat window (QuartileBuffer.index C.size q) v) ↔
      (lowSorted window ++ highSorted window)[QuartileBuffer.index C.size q]? = some value := by
    intro value
    rw [← sortBy_toNat, List.getElem?_eq_getElem hk, Option.some_inj,
      ← hasRank_iff toNat_injective hk]
    simp
  have hsame : recent shown.length samples = shown := by rw [hshown]
  rw [ReportsRank, hreport, hwhole, hvalue, hsame]
  change _ ↔ _ = if shown = [] then _ else (highSorted shown ++ lowSorted shown)[_]?
  rw [← sortBy_signedKey shown]
  by_cases hnone : shown = []
  · simp [hnone]
    rfl
  · have hpos := List.length_pos_of_ne_nil hnone
    have hindex : QuartileBuffer.index shown.length q < (sortBy signedKey shown).length := by
      rw [length_sortBy]
      exact index_lt hpos hq
    rw [if_neg hpos.ne', if_neg hnone, List.getD_eq_getElem _ _ hindex,
      List.getElem?_eq_getElem hindex]

theorem rankKept_of_low {window : List UInt64} (h : ∀ x ∈ window, high x = false) {k : ℕ}
    (hk : k < window.length) : RankKept window k := by
  have hhigh : highSorted window = [] := by
    have hnone : window.filter high = [] := by simpa using h
    simp [highSorted, sortBy, hnone]
  have hlow : (lowSorted window).length = window.length := by
    have hall : window.filter (fun sample => !high sample) = window := by simpa using h
    rw [lowSorted, hall, length_sortBy]
  right
  rw [hhigh, hlow]
  exact ⟨Nat.zero_le _, hk, rfl⟩

/-- For all samples and every quantile: the report is right exactly where the signed order
keeps the rank, if the counter of the ring still shows the whole window, and otherwise
where the few samples it shows happen to meet the percentile. -/
theorem report_rank_iff (C : Capacity) (samples : List UInt64) (hsamples : samples ≠ []) (q : ℚ)
    (hq : 0 ≤ q ∧ q ≤ 1) :
    ReportsRank C samples q ↔
      if kept C samples.length = min samples.length C.size then
        RankKept (recent C.size samples) (QuartileBuffer.index (min samples.length C.size) q)
      else RankMet C samples q := by
  split
  · exact reportsRank_whole hsamples hq.2 ‹_›
  · exact reportsRank_wrapped hsamples hq.2 ‹_›

theorem report_rank_small : ReportsRank ⟨1, by decide⟩ [5, 3, 9] (1 / 2) := by
  apply (report_rank_iff ⟨1, by decide⟩ [5, 3, 9] (by simp) (1 / 2) (by norm_num)).mpr
  rw [if_pos (by decide)]
  exact rankKept_of_low (by simp [recent, Capacity.size, high]) (index_lt (by decide) (by norm_num))

/-- Two samples, the second of them negative as `time_t`: the least one reported is the
greater one. -/
theorem report_high_as_least :
    (recorded ⟨1, by decide⟩ [1, 0x8000000000000000]).report [0] = [0x8000000000000000] ∧
      ¬ ReportsRank ⟨1, by decide⟩ [1, 0x8000000000000000] 0 := by
  have hkept : kept ⟨1, by decide⟩ [(1 : UInt64), 0x8000000000000000].length = 2 := by decide
  have hindex : QuartileBuffer.index 2 0 = 0 := by simp [QuartileBuffer.index, Rat.floor]
  have hrecent : recent 2 [(1 : UInt64), 0x8000000000000000] = [1, 0x8000000000000000] := rfl
  have hsorted : sortBy signedKey [1, 0x8000000000000000] = [0x8000000000000000, 1] :=
    sortBy_eq_of_perm signedKey_injective (List.Perm.swap ..) (by decide)
  have hreport : (recorded ⟨1, by decide⟩ [1, 0x8000000000000000]).report [0] = [0x8000000000000000] := by
    rw [report_eq, hkept, hindex, hrecent, hsorted]
    rfl
  refine ⟨hreport, ?_⟩
  rintro ⟨v, hv, hrank⟩
  rw [hreport] at hv
  obtain rfl : 0x8000000000000000 = v := by simpa using hv
  change HasRank UInt64.toNat [1, 0x8000000000000000] (QuartileBuffer.index 2 0) _ at hrank
  rw [hindex] at hrank
  exact absurd hrank.below (by decide)

end Ranks

end ItchOrderBook.Util

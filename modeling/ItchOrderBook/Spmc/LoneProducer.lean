import ItchOrderBook.Spmc.QueueSafety

/-! # A producer on its own

What the push calls do while no other thread moves, from any state at all. A push is
admitted by the distance of its index to the cached read index, or else to the smallest
one; both distances are taken modulo 2^64.
-/
namespace ItchOrderBook.Spmc
open AtomicProgram

variable {T : Type} {C : Capacity} {n : ℕ}

/-! ## The smallest read index -/

/-- The smallest `read_idx_`, as a number. -/
def RingBuffer.firstReadIdx (b : RingBuffer T C n) : UInt64 :=
  (List.finRange (n + 1)).foldl (fun first c => min first (b.readIdx c)) (UInt64.ofNat (2 ^ 64 - 1))

theorem foldl_min_le (cs : List (Fin (n + 1))) (b : RingBuffer T C n) (first : UInt64) :
    (cs.foldl (fun first c => min first (b.readIdx c)) first).toNat ≤ first.toNat ∧
      ∀ c ∈ cs, (cs.foldl (fun first c => min first (b.readIdx c)) first).toNat ≤
        (b.readIdx c).toNat := by
  induction cs generalizing first with
  | nil => simp
  | cons c cs ih =>
    obtain ⟨hfirst, hcs⟩ := ih (min first (b.readIdx c))
    rw [toNat_min] at hfirst
    rw [List.foldl_cons]
    refine ⟨hfirst.trans (Nat.min_le_left _ _), fun d hd => ?_⟩
    rcases List.mem_cons.mp hd with rfl | hd
    · exact hfirst.trans (Nat.min_le_right _ _)
    · exact hcs d hd

theorem foldl_min_mem (cs : List (Fin (n + 1))) (b : RingBuffer T C n) (first : UInt64) :
    cs.foldl (fun first c => min first (b.readIdx c)) first = first ∨
      ∃ c ∈ cs, cs.foldl (fun first c => min first (b.readIdx c)) first = b.readIdx c := by
  induction cs generalizing first with
  | nil => exact Or.inl rfl
  | cons c cs ih =>
    rw [List.foldl_cons]
    rcases ih (min first (b.readIdx c)) with h | ⟨d, hd, h⟩
    · rw [h]
      by_cases hle : first ≤ b.readIdx c
      · exact Or.inl (if_pos hle)
      · exact Or.inr ⟨c, List.mem_cons_self, if_neg hle⟩
    · exact Or.inr ⟨d, List.mem_cons_of_mem c hd, h⟩

theorem firstReadIdx_le (b : RingBuffer T C n) (c : Fin (n + 1)) :
    b.firstReadIdx.toNat ≤ (b.readIdx c).toNat :=
  (foldl_min_le _ b _).2 c (List.mem_finRange c)

theorem firstReadIdx_mem (b : RingBuffer T C n) : ∃ c, b.firstReadIdx = b.readIdx c := by
  rcases foldl_min_mem (List.finRange (n + 1)) b (UInt64.ofNat (2 ^ 64 - 1)) with h | ⟨c, -, h⟩
  · -- every read index is the largest word
    refine ⟨0, UInt64.toNat_inj.mp (Nat.le_antisymm (firstReadIdx_le b 0) ?_)⟩
    have hlt := (b.readIdx 0).toNat_lt
    rw [RingBuffer.firstReadIdx, h, UInt64.toNat_ofNat']
    omega
  · exact ⟨c, h⟩

/-- Under the discipline the smallest read index is the position of the last reader. -/
theorem Ring.firstReadIdx {w : QueueWorld T C n} (h : Ring w) (hadm : Admissible w.history) :
    ∃ c, w.shared.firstReadIdx = UInt64.ofNat (passed c w.history) ∧
      ∀ d, passed c w.history ≤ passed d w.history := by
  obtain ⟨c, hc⟩ := firstReadIdx_mem w.shared
  refine ⟨c, hc.trans (h.read c), fun d => ?_⟩
  rcases hadm with rfl | hfew
  · rw [Fin.fin_one_eq_zero c, Fin.fin_one_eq_zero d]
  · have hle := firstReadIdx_le w.shared d
    have hcd := h.order c
    have hdd := h.order d
    rw [hc, h.read, h.read, UInt64.toNat_ofNat', UInt64.toNat_ofNat'] at hle
    omega

/-! ## What the checks see -/

/-- The queue with the index its producer caches. -/
structure Writer (T : Type) (C : Capacity) (n : ℕ) where
  cachedReadIdx : UInt64
  queue : RingBuffer T C n

namespace Writer
variable (s : Writer T C n)

/-- How far the write index is ahead of the cached read index. -/
def ahead : ℕ := (s.queue.writeIdx - s.cachedReadIdx).toNat

/-- How far the write index is ahead of the smallest read index. -/
def filled : ℕ := (s.queue.writeIdx - s.queue.firstReadIdx).toNat

theorem ahead_lt : s.ahead < 2 ^ 64 := UInt64.toNat_lt _

theorem filled_lt : s.filled < 2 ^ 64 := UInt64.toNat_lt _

end Writer

theorem add_sub_toNat (x y : UInt64) (k : ℕ) :
    (x + UInt64.ofNat k - y).toNat = ((x - y).toNat + k) % 2 ^ 64 := by
  have hx := x.toNat_lt
  have hy := y.toNat_lt
  rw [UInt64.toNat_sub, UInt64.toNat_sub, UInt64.toNat_add, UInt64.toNat_ofNat']
  omega

theorem getFirstReadIdx_alone (b : RingBuffer T C n) :
    (Producer.getFirstReadIdx : Code T C n UInt64).solo Access.exec b = (b.firstReadIdx, b) := by
  have hfold : ∀ (cs : List (Fin (n + 1))) (first : UInt64),
      (cs.foldlM (fun firstReadIdx c => do
        let readIdx ← loadReadIdx c
        return min firstReadIdx readIdx) first : Code T C n UInt64).solo Access.exec b =
      (cs.foldl (fun first c => min first (b.readIdx c)) first, b) := by
    intro cs
    induction cs with
    | nil => exact fun first => rfl
    | cons c cs ih => exact fun first => ih (min first (b.readIdx c))
  exact hfold _ _

theorem isValidWriteIdx_alone (s : Writer T C n) (k : ℕ) :
    (Producer.isValidWriteIdx s.cachedReadIdx (s.queue.writeIdx + UInt64.ofNat k) :
        Code T C n (Bool × UInt64)).solo Access.exec s.queue =
      (if (s.ahead + k) % 2 ^ 64 < C.size then (true, s.cachedReadIdx)
        else (decide ((s.filled + k) % 2 ^ 64 < C.size), s.queue.firstReadIdx), s.queue) := by
  have hle : ∀ y : UInt64, s.queue.writeIdx + UInt64.ofNat k - y < C.capacity ↔
      ((s.queue.writeIdx - y).toNat + k) % 2 ^ 64 < C.size := by
    intro y
    rw [UInt64.lt_iff_toNat_lt, add_sub_toNat, C.capacity_toNat]
  unfold Producer.isValidWriteIdx Writer.ahead Writer.filled
  by_cases hcached : s.queue.writeIdx + UInt64.ofNat k - s.cachedReadIdx < C.capacity
  · rw [if_neg (UInt64.not_le.mpr hcached), if_pos ((hle _).mp hcached)]
    rfl
  · rw [if_pos (UInt64.not_lt.mp hcached), if_neg fun h => hcached ((hle _).mpr h),
      Prog.solo_bind, getFirstReadIdx_alone]
    simp [hle]

/-! ## What a push writes -/

/-- One item written at the write index and published. -/
def RingBuffer.put (b : RingBuffer T C n) (item : T) : RingBuffer T C n :=
  { b with
    buffer := Function.update b.buffer (C.slot b.writeIdx) item
    writeIdx := b.writeIdx + 1 }

@[simp] theorem put_readIdx (b : RingBuffer T C n) (item : T) : (b.put item).readIdx = b.readIdx := rfl

@[simp] theorem put_firstReadIdx (b : RingBuffer T C n) (item : T) :
    (b.put item).firstReadIdx = b.firstReadIdx := rfl

theorem foldl_put (items : List T) (b : RingBuffer T C n) :
    items.foldl RingBuffer.put b =
      { b with
        buffer := (items.foldl RingBuffer.put b).buffer
        writeIdx := b.writeIdx + UInt64.ofNat items.length } := by
  induction items generalizing b with
  | nil => simp
  | cons item items ih =>
    rw [List.foldl_cons, ih, List.length_cons, Nat.add_comm, UInt64.ofNat_add, ← UInt64.add_assoc]
    rfl

theorem writeSlots_alone (items : List T) (b : RingBuffer T C n) (writeIdx : UInt64) (i : ℕ) :
    (Producer.writeSlots writeIdx i items : Code T C n Unit).solo Access.exec b =
      ((), { b with buffer :=
        (items.foldl RingBuffer.put { b with writeIdx := writeIdx + UInt64.ofNat i }).buffer }) := by
  induction items generalizing b i with
  | nil => rfl
  | cons item items ih =>
    have hnext : writeIdx + UInt64.ofNat i + 1 = writeIdx + UInt64.ofNat (i + 1) := by
      rw [UInt64.ofNat_add, UInt64.add_assoc]
      rfl
    change (Producer.writeSlots writeIdx (i + 1) items : Code T C n Unit).solo Access.exec
      { b with buffer := Function.update b.buffer (C.slot (writeIdx + UInt64.ofNat i)) item } = _
    rw [ih, List.foldl_cons, RingBuffer.put, hnext]

/-! ## Calls -/

/-- `try_push`, start to end. -/
def pushAlone (item : T) (s : Writer T C n) : ProduceResponse × Writer T C n :=
  let done := (Producer.tryPush item s.cachedReadIdx : Code T C n _).solo Access.exec s.queue
  (done.1.1, ⟨done.1.2, done.2⟩)

/-- `try_push_many`, start to end. -/
def pushManyAlone (items : List T) (s : Writer T C n) : ProduceResponse × Writer T C n :=
  let done := (Producer.tryPushMany items s.cachedReadIdx : Code T C n _).solo Access.exec s.queue
  (done.1.1, ⟨done.1.2, done.2⟩)

theorem offer_eq (s : Writer T C n) (k : ℕ) (next : UInt64 → Code T C n (ProduceResponse × UInt64))
    {b : RingBuffer T C n}
    (hnext : ∀ cached, (next cached).solo Access.exec s.queue = ((.success, cached), b)) :
    (Producer.isValidWriteIdx s.cachedReadIdx (s.queue.writeIdx + UInt64.ofNat k) >>= fun r =>
        if r.1 then next r.2 else return (.failedBufferFull, r.2)).solo Access.exec s.queue =
      if (s.ahead + k) % 2 ^ 64 < C.size then ((.success, s.cachedReadIdx), b)
      else if (s.filled + k) % 2 ^ 64 < C.size then ((.success, s.queue.firstReadIdx), b)
      else ((.failedBufferFull, s.queue.firstReadIdx), s.queue) := by
  rw [Prog.solo_bind, isValidWriteIdx_alone]
  by_cases hcached : (s.ahead + k) % 2 ^ 64 < C.size
  · simp only [hcached, if_true, hnext]
  · by_cases hroom : (s.filled + k) % 2 ^ 64 < C.size
    · simp only [hcached, hroom, if_true, if_false, decide_true, hnext]
    · simp only [hcached, hroom, if_false, decide_false]
      rfl

theorem pushAlone_eq (item : T) (s : Writer T C n) : pushAlone item s =
    if s.ahead < C.size then (.success, ⟨s.cachedReadIdx, s.queue.put item⟩)
    else if s.filled < C.size then (.success, ⟨s.queue.firstReadIdx, s.queue.put item⟩)
    else (.failedBufferFull, ⟨s.queue.firstReadIdx, s.queue⟩) := by
  have hoffer := offer_eq s 0 (fun cached => do
    writeSlot (C.slot s.queue.writeIdx) item
    storeWriteIdx (s.queue.writeIdx + 1)
    return (.success, cached)) (b := s.queue.put item) fun _ => rfl
  have hzero : s.queue.writeIdx + UInt64.ofNat 0 = s.queue.writeIdx := UInt64.add_zero _
  rw [hzero, Nat.add_zero, Nat.add_zero, Nat.mod_eq_of_lt s.ahead_lt,
    Nat.mod_eq_of_lt s.filled_lt] at hoffer
  have hpush : (Producer.tryPush item s.cachedReadIdx : Code T C n _).solo Access.exec s.queue =
    _ := hoffer
  unfold pushAlone
  rw [hpush]
  split
  · rfl
  · split <;> rfl

/-- The distance of the last index of a batch of `k` to a read index at distance `d`. -/
def lastDistance (d k : ℕ) : ℕ := (d + (k + 2 ^ 64 - 1)) % 2 ^ 64

theorem pushManyAlone_eq (items : List T) (s : Writer T C n) : pushManyAlone items s =
    if items.length > C.size then (.failedPayloadTooLarge, s)
    else if lastDistance s.ahead items.length < C.size then
      (.success, ⟨s.cachedReadIdx, items.foldl RingBuffer.put s.queue⟩)
    else if lastDistance s.filled items.length < C.size then
      (.success, ⟨s.queue.firstReadIdx, items.foldl RingBuffer.put s.queue⟩)
    else (.failedBufferFull, ⟨s.queue.firstReadIdx, s.queue⟩) := by
  unfold pushManyAlone
  by_cases hlarge : items.length > C.size
  · rw [Producer.tryPushMany, if_pos hlarge, if_pos hlarge]
    rfl
  have hlast : UInt64.ofNat items.length - 1 + s.queue.writeIdx =
      s.queue.writeIdx + UInt64.ofNat (items.length + 2 ^ 64 - 1) := by
    have hsub : UInt64.ofNat (items.length + 2 ^ 64 - 1) = UInt64.ofNat items.length - 1 := by
      apply UInt64.toNat_inj.mp
      rw [UInt64.toNat_sub, UInt64.toNat_ofNat', UInt64.toNat_ofNat']
      change _ = (2 ^ 64 - 1 + _) % 2 ^ 64
      omega
    rw [hsub, UInt64.add_comm]
  have hnext : UInt64.ofNat items.length - 1 + s.queue.writeIdx + 1 =
      s.queue.writeIdx + UInt64.ofNat items.length := by
    rw [UInt64.add_comm _ s.queue.writeIdx, UInt64.add_assoc, UInt64.sub_add_cancel]
  have hoffer := offer_eq s (items.length + 2 ^ 64 - 1) (fun cached => do
    Producer.writeSlots s.queue.writeIdx 0 items
    storeWriteIdx (UInt64.ofNat items.length - 1 + s.queue.writeIdx + 1)
    return (.success, cached)) (b := items.foldl RingBuffer.put s.queue) fun cached => by
      have hzero : s.queue.writeIdx + UInt64.ofNat 0 = s.queue.writeIdx := UInt64.add_zero _
      rw [Prog.solo_bind, writeSlots_alone, hzero, hnext, foldl_put items s.queue]
      rfl
  rw [← hlast] at hoffer
  have hpush : (Producer.tryPushMany items s.cachedReadIdx : Code T C n _).solo Access.exec
      s.queue = _ :=
    (congrArg (fun code => Prog.solo Access.exec code s.queue) (if_neg hlarge)).trans hoffer
  rw [hpush, if_neg hlarge]
  unfold lastDistance
  split
  · rfl
  · split <;> rfl

/-- The batch gets past `is_valid_write_idx`. -/
def Writer.Admits (s : Writer T C n) (k : ℕ) : Prop :=
  lastDistance s.ahead k < C.size ∨ lastDistance s.filled k < C.size

section Responses
variable (items : List T) (s : Writer T C n)

theorem pushManyAlone_large :
    (pushManyAlone items s).1 = .failedPayloadTooLarge ↔ C.size < items.length := by
  rw [pushManyAlone_eq]
  by_cases hlarge : items.length > C.size
  · simp [hlarge]
  · rw [if_neg hlarge]
    refine iff_of_false ?_ hlarge
    split
    · simp
    · split <;> simp

theorem pushManyAlone_success : (pushManyAlone items s).1 = .success ↔
    items.length ≤ C.size ∧ s.Admits items.length := by
  rw [pushManyAlone_eq, Writer.Admits]
  by_cases hlarge : items.length > C.size
  · rw [if_pos hlarge]
    exact iff_of_false (by simp) fun h => absurd h.1 (Nat.not_le.mpr hlarge)
  rw [if_neg hlarge]
  have hfits := Nat.not_lt.mp hlarge
  by_cases hcached : lastDistance s.ahead items.length < C.size
  · simp [hcached, hfits]
  · by_cases hroom : lastDistance s.filled items.length < C.size
    · simp [hcached, hroom, hfits]
    · simp [hcached, hroom]

theorem pushManyAlone_state (h : (pushManyAlone items s).1 = .success) :
    (pushManyAlone items s).2 =
      ⟨if lastDistance s.ahead items.length < C.size then s.cachedReadIdx
        else s.queue.firstReadIdx, items.foldl RingBuffer.put s.queue⟩ := by
  obtain ⟨hfits, hadmits⟩ := (pushManyAlone_success items s).mp h
  rw [pushManyAlone_eq, if_neg (Nat.not_lt.mpr hfits)]
  by_cases hcached : lastDistance s.ahead items.length < C.size
  · rw [if_pos hcached, if_pos hcached]
  · rw [if_neg hcached, if_neg hcached, if_pos (hadmits.resolve_left hcached)]

theorem pushManyAlone_full (hfits : items.length ≤ C.size) :
    (pushManyAlone items s).1 = .failedBufferFull ↔ ¬ s.Admits items.length := by
  have hlarge := (pushManyAlone_large items s).not.mpr (Nat.not_lt.mpr hfits)
  have hsuccess := pushManyAlone_success items s
  cases hr : (pushManyAlone items s).1 with
  | success =>
    have hadmits := (hsuccess.mp hr).2
    exact iff_of_false (by simp) (not_not_intro hadmits)
  | failedBufferFull =>
    refine iff_of_true rfl fun hadmits => ?_
    rw [hsuccess.mpr ⟨hfits, hadmits⟩] at hr
    cases hr
  | failedPayloadTooLarge => exact absurd hr hlarge

theorem pushManyAlone_refused (h : (pushManyAlone items s).1 ≠ .success) :
    (pushManyAlone items s).2.queue = s.queue := by
  rw [pushManyAlone_eq] at h ⊢
  split at h
  · rw [if_pos ‹_›]
  · rw [if_neg ‹_›]
    split at h
    · exact absurd rfl h
    · rw [if_neg ‹_›]
      split at h
      · exact absurd rfl h
      · rw [if_neg ‹_›]

end Responses

/-! ## Under the discipline -/

section Discipline
variable {w : QueueWorld T C n} {cached : UInt64}

/-- The cached read index is no nearer than the smallest one, and within a capacity. -/
theorem Ring.distances (h : Ring w) (hadm : Admissible w.history)
    (hcached : CachedRead (pushed w.history).length cached w) :
    (⟨cached, w.shared⟩ : Writer T C n).filled ≤ (⟨cached, w.shared⟩ : Writer T C n).ahead ∧
      (⟨cached, w.shared⟩ : Writer T C n).ahead ≤ C.size := by
  obtain ⟨c, hfirst, hmin⟩ := h.firstReadIdx hadm
  obtain ⟨r, rfl, hr, hroom⟩ := hcached
  have hsize := C.size_le
  have horder := h.order c
  have hrc := hr c
  simp only [Writer.filled, Writer.ahead, hfirst, h.write]
  rw [ofNat_sub_toNat horder (by omega), ofNat_sub_toNat (by omega) (by omega)]
  omega

/-- Before the indices wrap the free space is the difference of the indices. -/
theorem Ring.filled_eq (h : Ring w) (hfew : (pushed w.history).length < 2 ^ 64) :
    w.shared.firstReadIdx.toNat + (⟨cached, w.shared⟩ : Writer T C n).filled =
      w.shared.writeIdx.toNat := by
  obtain ⟨c, hfirst, -⟩ := h.firstReadIdx (Or.inr hfew)
  have horder := h.order c
  simp only [Writer.filled, hfirst, h.write]
  rw [ofNat_sub_toNat horder (by omega), UInt64.toNat_ofNat', UInt64.toNat_ofNat']
  omega

end Discipline

end ItchOrderBook.Spmc

import ItchOrderBook.Spmc.LoneProducer
import ItchOrderBook.Spmc.LoneReader

/-! # Batches and single operations

A batch consults its cache once, for its last index; single operations consult it one by
one. With no other thread moving, both see the same two distances, and they agree unless
an index that should lie behind the write index lies a few places ahead of it. The read
indices are compared as numbers, so this happens to runs that go on past 2^64 items.
-/
namespace ItchOrderBook.Spmc
open AtomicProgram

variable {T : Type} {C : Capacity} {n : ℕ}

/-! ## Pushes one by one -/

/-- Successive calls of `try_push`. -/
def pushEach : List T → Writer T C n → List ProduceResponse × Writer T C n
  | [], s => ([], s)
  | item :: items, s =>
    let r := pushAlone item s
    let rs := pushEach items r.2
    (r.1 :: rs.1, rs.2)

/-- `try_push_many` succeeds exactly when the single pushes all would, and then both leave
the same ring buffer and cached index. -/
structure PushAgrees (items : List T) (s : Writer T C n) : Prop where
  success : (pushManyAlone items s).1 = .success ↔ ∀ r ∈ (pushEach items s).1, r = .success
  state : (pushManyAlone items s).1 = .success → (pushManyAlone items s).2 = (pushEach items s).2

namespace Writer
variable (s : Writer T C n)

/-- The pushes for which the cached read index is enough. -/
def free : ℕ := C.size - s.ahead

/-- All of `k` single pushes are admitted: from the one on that refreshes the cache, each
finds its index less than a capacity from the smallest read index. -/
def AdmitsEach (k : ℕ) : Prop := ∀ i, s.free ≤ i → i < k → (s.filled + i) % 2 ^ 64 < C.size

/-- How far the cached read index is ahead of the write index. -/
def cachedLead : ℕ := (s.cachedReadIdx - s.queue.writeIdx).toNat

/-- How far the smallest read index is ahead of the write index. -/
def firstLead : ℕ := (s.queue.firstReadIdx - s.queue.writeIdx).toNat

/-- Neither read index the producer goes by lies ahead of the write index within reach of
a batch of `k`. -/
structure Aligned (k : ℕ) : Prop where
  cached : ¬ (0 < s.cachedLead ∧ s.cachedLead < k ∧ k ≤ C.size)
  first : ¬ (s.free < s.firstLead ∧ s.firstLead < k ∧ k ≤ C.size)
  large : ¬ (0 < s.firstLead ∧ s.firstLead ≤ s.free ∧ C.size < k ∧ k ≤ C.size + s.firstLead)

end Writer

theorem sub_toNat_lead (x y : UInt64) : (x - y).toNat = (2 ^ 64 - (y - x).toNat) % 2 ^ 64 := by
  have hx := x.toNat_lt
  have hy := y.toNat_lt
  rw [UInt64.toNat_sub, UInt64.toNat_sub]
  omega

theorem Writer.cachedLead_eq (s : Writer T C n) : s.cachedLead = (2 ^ 64 - s.ahead) % 2 ^ 64 :=
  sub_toNat_lead _ _

theorem Writer.firstLead_eq (s : Writer T C n) : s.firstLead = (2 ^ 64 - s.filled) % 2 ^ 64 :=
  sub_toNat_lead _ _

section Push
variable (s : Writer T C n)

theorem ahead_put (item : T) (cached : UInt64) :
    (⟨cached, s.queue.put item⟩ : Writer T C n).ahead =
      ((s.queue.writeIdx - cached).toNat + 1) % 2 ^ 64 := add_sub_toNat s.queue.writeIdx cached 1

theorem filled_put (item : T) (cached : UInt64) :
    (⟨cached, s.queue.put item⟩ : Writer T C n).filled = (s.filled + 1) % 2 ^ 64 :=
  add_sub_toNat s.queue.writeIdx s.queue.firstReadIdx 1

/-- A push for which the cache is enough leaves one of these less. -/
theorem admitsEach_put_cached (item : T) (k : ℕ) (hcached : s.ahead < C.size) :
    (⟨s.cachedReadIdx, s.queue.put item⟩ : Writer T C n).free = s.free - 1 ∧
      (Writer.AdmitsEach ⟨s.cachedReadIdx, s.queue.put item⟩ k ↔ s.AdmitsEach (k + 1)) := by
  have hsize := C.size_le
  have hfree : 0 < s.free := Nat.sub_pos_of_lt hcached
  have hahead : (⟨s.cachedReadIdx, s.queue.put item⟩ : Writer T C n).ahead =
      (s.ahead + 1) % 2 ^ 64 := ahead_put s item s.cachedReadIdx
  have hnext : (⟨s.cachedReadIdx, s.queue.put item⟩ : Writer T C n).free = s.free - 1 := by
    unfold Writer.free
    omega
  refine ⟨hnext, ?_⟩
  unfold Writer.AdmitsEach
  rw [hnext, filled_put]
  constructor
  · intro h i hi hik
    have hprev := h (i - 1) (by omega) (by omega)
    omega
  · intro h i hi hik
    have hsucc := h (i + 1) (by omega) (by omega)
    omega

theorem admitsEach_put_first (item : T) (k : ℕ) (hcached : ¬ s.ahead < C.size)
    (hroom : s.filled < C.size) :
    Writer.AdmitsEach ⟨s.queue.firstReadIdx, s.queue.put item⟩ k ↔ s.AdmitsEach (k + 1) := by
  have hsize := C.size_le
  have hfree : s.free = 0 := Nat.sub_eq_zero_of_le (Nat.not_lt.mp hcached)
  have hahead : (⟨s.queue.firstReadIdx, s.queue.put item⟩ : Writer T C n).ahead =
      (s.filled + 1) % 2 ^ 64 := ahead_put s item s.queue.firstReadIdx
  have hnext : (⟨s.queue.firstReadIdx, s.queue.put item⟩ : Writer T C n).free =
      C.size - (s.filled + 1) := by
    unfold Writer.free
    omega
  unfold Writer.AdmitsEach
  rw [hnext, filled_put, hfree]
  constructor
  · intro h i _ hik
    rcases Nat.lt_or_ge (s.filled + i) C.size with hlt | hge
    · omega
    · have hprev := h (i - 1) (by omega) (by omega)
      omega
  · intro h i hi hik
    have hsucc := h (i + 1) (by omega) (by omega)
    omega

theorem pushEach_alone (items : List T) :
    ((∀ r ∈ (pushEach items s).1, r = .success) ↔ s.AdmitsEach items.length) ∧
    (s.AdmitsEach items.length → (pushEach items s).2 =
      ⟨if items.length ≤ s.free then s.cachedReadIdx else s.queue.firstReadIdx,
        items.foldl RingBuffer.put s.queue⟩) := by
  induction items generalizing s with
  | nil =>
    refine ⟨iff_of_true (by simp [pushEach]) fun i _ hi => absurd hi (Nat.not_lt_zero i), fun _ => ?_⟩
    simp [pushEach]
  | cons item items ih =>
    have hpush := pushAlone_eq item s
    simp only [pushEach, List.length_cons, List.foldl_cons]
    by_cases hcached : s.ahead < C.size
    · rw [if_pos hcached] at hpush
      obtain ⟨hnext, hsame⟩ := admitsEach_put_cached s item items.length hcached
      obtain ⟨hall, hstate⟩ := ih ⟨s.cachedReadIdx, s.queue.put item⟩
      rw [hpush, ← hsame]
      refine ⟨by simpa using hall, fun h => ?_⟩
      have hfree : 0 < s.free := Nat.sub_pos_of_lt hcached
      have hle : items.length ≤ s.free - 1 ↔ items.length + 1 ≤ s.free := by omega
      simpa [hnext, hle] using hstate h
    · rw [if_neg hcached] at hpush
      have hfree : s.free = 0 := Nat.sub_eq_zero_of_le (Nat.not_lt.mp hcached)
      by_cases hroom : s.filled < C.size
      · rw [if_pos hroom] at hpush
        have hsame := admitsEach_put_first s item items.length hcached hroom
        obtain ⟨hall, hstate⟩ := ih ⟨s.queue.firstReadIdx, s.queue.put item⟩
        rw [hpush, ← hsame]
        refine ⟨by simpa using hall, fun h => ?_⟩
        simpa [hfree] using hstate h
      · rw [if_neg hroom] at hpush
        have hfirst : ¬ s.AdmitsEach (items.length + 1) := fun h => by
          have hzero := h 0 (by omega) (by omega)
          have hfilled := s.filled_lt
          omega
        rw [hpush]
        exact ⟨iff_of_false (by simp) hfirst, fun h => absurd h hfirst⟩

/-- Where single pushes are all admitted: the cache is enough, or the smallest read index
lies no further ahead than the cache reaches, or the ring has room. -/
theorem admitsEach_iff {k : ℕ} : s.AdmitsEach k ↔
    k ≤ s.free ∨ s.firstLead ≤ s.free ∧ k ≤ C.size + s.firstLead ∨ s.filled + k ≤ C.size := by
  have hsize := C.size_le
  have hpos := C.size_pos
  have hfilled := s.filled_lt
  have hfree : s.free ≤ C.size := Nat.sub_le _ _
  have hlead := s.firstLead_eq
  unfold Writer.AdmitsEach
  constructor
  · intro h
    by_contra hneither
    have hfirst := h s.free le_rfl (by omega)
    have hlast := h (s.free + (C.size - (s.filled + s.free) % 2 ^ 64)) (Nat.le_add_right _ _)
    omega
  · intro h i hi hik
    omega

/-- A batch that fits the ring gets past a read index that leaves it room, or that lies
ahead of the write index among its items. -/
theorem lastDistance_lt {d k : ℕ} (hd : d < 2 ^ 64) (hk : 0 < k) (hfits : k ≤ C.size) :
    lastDistance d k < C.size ↔
      d + k ≤ C.size ∨ 0 < (2 ^ 64 - d) % 2 ^ 64 ∧ (2 ^ 64 - d) % 2 ^ 64 < k := by
  have hsize := C.size_le
  unfold lastDistance
  omega

theorem admits_iff_lead {k : ℕ} (hk : 0 < k) (hfits : k ≤ C.size) : s.Admits k ↔
    (s.ahead + k ≤ C.size ∨ 0 < s.cachedLead ∧ s.cachedLead < k) ∨
      (s.filled + k ≤ C.size ∨ 0 < s.firstLead ∧ s.firstLead < k) := by
  rw [Writer.Admits, lastDistance_lt s.ahead_lt hk hfits, lastDistance_lt s.filled_lt hk hfits,
    s.cachedLead_eq, s.firstLead_eq]

theorem Writer.Aligned.admits_iff {k : ℕ} (h : s.Aligned k) (hk : 0 < k) :
    k ≤ C.size ∧ s.Admits k ↔ s.AdmitsEach k := by
  have hfree : s.free = C.size - s.ahead := rfl
  have hfirstLead := s.firstLead_eq
  have hfilled := s.filled_lt
  obtain ⟨hcached, hfirst, hlarge⟩ := h
  rw [admitsEach_iff]
  by_cases hfits : k ≤ C.size
  · rw [admits_iff_lead s hk hfits]
    omega
  · omega

/-- A batch of pushes agrees with the single pushes exactly where the read indices the
producer goes by are not ahead of the write index within its reach. -/
theorem pushAgrees_iff {items : List T} (hitems : items ≠ []) :
    PushAgrees items s ↔ s.Aligned items.length := by
  have hsize := C.size_le
  have hahead := s.ahead_lt
  have hfilled := s.filled_lt
  have hk := List.length_pos_of_ne_nil hitems
  have hfree : s.free = C.size - s.ahead := rfl
  have hcachedLead := s.cachedLead_eq
  have hfirstLead := s.firstLead_eq
  obtain ⟨hall, hstate⟩ := pushEach_alone s items
  have hsuccess := pushManyAlone_success items s
  have heach : s.AdmitsEach items.length ↔ _ := admitsEach_iff s
  constructor
  · intro h
    have hsame := hsuccess.symm.trans (h.success.trans hall)
    refine ⟨?_, ?_, ?_⟩
    · rintro ⟨hlead, hreach, hfits⟩
      have hdist := (lastDistance_lt hahead hk hfits).mpr (Or.inr (hcachedLead ▸ ⟨hlead, hreach⟩))
      have hok := hsuccess.mpr ⟨hfits, Or.inl hdist⟩
      have heachOk := hsame.mp ⟨hfits, Or.inl hdist⟩
      have hmany := pushManyAlone_state items s hok
      rw [h.state hok, hstate heachOk, if_pos hdist, if_neg (by omega)] at hmany
      -- the caches agree only where both leads are one, and then no push is admitted
      have hcache : s.queue.firstReadIdx = s.cachedReadIdx := congrArg Writer.cachedReadIdx hmany
      have hfilledAhead : s.filled = s.ahead := by
        unfold Writer.filled Writer.ahead
        rw [hcache]
      have hor := heach.mp heachOk
      omega
    · rintro ⟨hlead, hreach, hfits⟩
      have hadmits := (admits_iff_lead s hk hfits).mpr (Or.inr (Or.inr ⟨by omega, hreach⟩))
      have hor := heach.mp (hsame.mp ⟨hfits, hadmits⟩)
      omega
    · rintro ⟨hlead, hreach, hlarge, hk⟩
      have hfits := (hsame.mpr (heach.mpr (Or.inr (Or.inl ⟨hreach, hk⟩)))).1
      omega
  · intro h
    have hsame := h.admits_iff s hk
    refine ⟨hsuccess.trans (hsame.trans hall.symm), fun hok => ?_⟩
    have hadmitted := hsuccess.mp hok
    have hnone := h.cached
    have hcache : lastDistance s.ahead items.length < C.size ↔ items.length ≤ s.free := by
      rw [lastDistance_lt hahead hk hadmitted.1, ← hcachedLead]
      have hfits := hadmitted.1
      omega
    rw [pushManyAlone_state items s hok, hstate (hsame.mp hadmitted)]
    simp only [hcache]

end Push

/-! ## Pops one by one -/

/-- The read index of `c` moved over `count` items. -/
def RingBuffer.advance (b : RingBuffer T C n) (c : Fin (n + 1)) (count : UInt64) :
    RingBuffer T C n :=
  { b with readIdx := Function.update b.readIdx c (b.readIdx c + count) }

/-- What the slots from the read index of `c` on hold. -/
def RingBuffer.slotsFrom (b : RingBuffer T C n) (c : Fin (n + 1)) (k : ℕ) : List T :=
  (List.range k).map fun i => b.buffer (C.slot (b.readIdx c + .ofNat i))

/-- What a call hands over when it is not refused. -/
def ConsumerCall.handsOver (c : Fin (n + 1)) (b : RingBuffer T C n) : ConsumerCall → List T
  | .tryPop => b.slotsFrom c 1
  | .tryPopMany count => b.slotsFrom c count.toNat
  | .trySkipMany _ => []

theorem one_add_ofNat (k : ℕ) : (1 : UInt64) + .ofNat k = .ofNat (k + 1) := by
  rw [Nat.add_comm, UInt64.ofNat_add]
  rfl

section Pop
variable (c : Fin (n + 1)) (s : Reader T C n)

theorem advance_advance (b : RingBuffer T C n) (x y : UInt64) :
    (b.advance c x).advance c y = b.advance c (x + y) := by
  simp [RingBuffer.advance, UInt64.add_assoc]

theorem slotsFrom_succ (b : RingBuffer T C n) (k : ℕ) :
    b.slotsFrom c (k + 1) = b.slotsFrom c 1 ++ (b.advance c 1).slotsFrom c k := by
  simp [RingBuffer.slotsFrom, RingBuffer.advance, List.range_succ_eq_map, ← one_add_ofNat,
    UInt64.add_assoc]

theorem readSlots_eq (b : RingBuffer T C n) (k : ℕ) :
    (Consumer.readSlots (b.readIdx c) 0 k : Code T C n (List T)).solo Access.exec b =
      (b.slotsFrom c k, b) := by
  have hread := @readSlots_alone _ _ _ (b.slotsFrom c k) b (b.readIdx c) k 0 fun j hj => by
    simp [RingBuffer.slotsFrom, hj]
  rw [hread]
  simp [RingBuffer.slotsFrom]

theorem attempt_eq {α : Type} {count : UInt64} (refuse : ConsumeFailure → α)
    (next : UInt64 → Code T C n (α × UInt64)) {value : α} {b : RingBuffer T C n}
    (hnext : ∀ cached, (next cached).solo Access.exec s.queue = ((value, cached), b)) :
    (Consumer.checkPopStatus s.cachedWriteIdx (s.queue.readIdx c) count >>= fun r =>
        if r.1 ≠ .none then return (refuse r.1, r.2) else next r.2).solo Access.exec s.queue =
      if count.toNat ≤ s.promised c then ((value, s.cachedWriteIdx), b)
      else if count.toNat ≤ s.unread c then ((value, s.queue.writeIdx), b)
      else ((refuse s.refusal, s.queue.writeIdx), s.queue) := by
  rw [Prog.solo_bind, checkPopStatus_eq]
  by_cases hpromised : count.toNat ≤ s.promised c
  · simp [hpromised, hnext]
  · by_cases hunread : count.toNat ≤ s.unread c
    · simp [hpromised, hunread, hnext]
    · simp [hpromised, hunread, s.refusal_ne]

theorem callAlone_eq (call : ConsumerCall) : callAlone c call s =
    if call.count.toNat ≤ s.promised c then
      (⟨.none, call.handsOver c s.queue⟩, ⟨s.cachedWriteIdx, s.queue.advance c call.count⟩)
    else if call.count.toNat ≤ s.unread c then
      (⟨.none, call.handsOver c s.queue⟩, ⟨s.queue.writeIdx, s.queue.advance c call.count⟩)
    else (⟨s.refusal, []⟩, ⟨s.queue.writeIdx, s.queue⟩) := by
  cases call with
  | tryPop =>
    have hcode : (ConsumerCall.code c s.cachedWriteIdx .tryPop).solo Access.exec s.queue = _ :=
      Prog.solo_bind _ _ _ _
    have htry : (Consumer.tryPop c s.cachedWriteIdx).solo Access.exec s.queue = _ :=
      @attempt_eq _ _ _ c s (Except ConsumeFailure T) 1 .error (fun cached => do
        let item ← readSlot (C.slot (s.queue.readIdx c))
        storeReadIdx c (s.queue.readIdx c + 1)
        return (.ok item, cached)) (.ok (s.queue.buffer (C.slot (s.queue.readIdx c))))
        (s.queue.advance c 1) fun _ => rfl
    have hitem : ConsumerCall.handsOver c s.queue .tryPop =
        [s.queue.buffer (C.slot (s.queue.readIdx c))] := by
      simp [ConsumerCall.handsOver, RingBuffer.slotsFrom]
    rw [htry] at hcode
    unfold callAlone
    rw [hcode, hitem, ConsumerCall.count]
    by_cases hpromised : (1 : UInt64).toNat ≤ s.promised c
    · simp only [if_pos hpromised]
      rfl
    · by_cases hunread : (1 : UInt64).toNat ≤ s.unread c <;>
        simp only [if_neg hpromised, hunread, if_true, if_false] <;> rfl
  | tryPopMany count =>
    have htry : (Consumer.tryPopMany c count s.cachedWriteIdx).solo Access.exec s.queue = _ :=
      attempt_eq c s (fun failure => (failure, [])) (fun cached => do
        let items ← Consumer.readSlots (s.queue.readIdx c) 0 count.toNat
        storeReadIdx c (s.queue.readIdx c + count)
        return ((.none, items), cached)) fun _ => by rw [Prog.solo_bind, readSlots_eq]; rfl
    rw [callAlone_tryPopMany, htry]
    change _ = if count.toNat ≤ s.promised c then _ else if count.toNat ≤ s.unread c then _ else _
    split
    · rfl
    · split <;> rfl
  | trySkipMany count =>
    have htry : (Consumer.trySkipMany c count s.cachedWriteIdx).solo Access.exec s.queue = _ :=
      attempt_eq c s id (fun cached => do
        storeReadIdx c (s.queue.readIdx c + count)
        return (.none, cached)) fun _ => rfl
    rw [callAlone_trySkipMany, htry]
    change _ = if count.toNat ≤ s.promised c then _ else if count.toNat ≤ s.unread c then _ else _
    split
    · rfl
    · split <;> rfl

theorem one_le_sub {x y : UInt64} : 1 ≤ (x - y).toNat ↔ x ≠ y := by
  have hzero : (x - y).toNat = 0 ↔ x = y := by
    rw [← UInt64.toNat_zero, UInt64.toNat_inj, UInt64.sub_eq_iff_eq_add, UInt64.zero_add]
  rw [Nat.one_le_iff_ne_zero, ne_eq, hzero]

/-- A pop finds an item if the write index it knows of, or the present one, is not the
read index. -/
theorem tryPop_moves (h : s.cachedWriteIdx ≠ s.queue.readIdx c ∨
    s.queue.writeIdx ≠ s.queue.readIdx c) : (callAlone c .tryPop s).2 =
      ⟨if s.cachedWriteIdx ≠ s.queue.readIdx c then s.cachedWriteIdx else s.queue.writeIdx,
        s.queue.advance c 1⟩ := by
  have hpromised : ConsumerCall.tryPop.count.toNat ≤ s.promised c ↔ _ := one_le_sub
  have hunread : ConsumerCall.tryPop.count.toNat ≤ s.unread c ↔ _ := one_le_sub
  rw [callAlone_eq]
  by_cases hcached : s.cachedWriteIdx ≠ s.queue.readIdx c
  · rw [if_pos (hpromised.mpr hcached), if_pos hcached]
    rfl
  · rw [if_neg (hpromised.not.mpr hcached), if_pos (hunread.mpr (h.resolve_left hcached)),
      if_neg hcached]
    rfl

/-- Successive calls of `try_pop`. -/
def popEach (c : Fin (n + 1)) : ℕ → Reader T C n → List (ConsumerResult T) × Reader T C n
  | 0, s => ([], s)
  | k + 1, s =>
    let r := callAlone c .tryPop s
    let rs := popEach c k r.2
    (r.1 :: rs.1, rs.2)

/-- `try_pop_many` succeeds exactly when the single pops all would, with their items and
their read index; `try_skip_many` succeeds with it and moves as far; a refused call moves
no read index. -/
structure PopAgrees (c : Fin (n + 1)) (count : UInt64) (s : Reader T C n) : Prop where
  success : (callAlone c (.tryPopMany count) s).1.failure = .none ↔
    ∀ r ∈ (popEach c count.toNat s).1, r.failure = .none
  items : (callAlone c (.tryPopMany count) s).1.failure = .none →
    (callAlone c (.tryPopMany count) s).1.items =
      (popEach c count.toNat s).1.flatMap ConsumerResult.items
  queue : (callAlone c (.tryPopMany count) s).1.failure = .none →
    (callAlone c (.tryPopMany count) s).2.queue = (popEach c count.toNat s).2.queue
  skips : (callAlone c (.trySkipMany count) s).1.failure = .none ↔
    (callAlone c (.tryPopMany count) s).1.failure = .none
  skipped : (callAlone c (.trySkipMany count) s).2.queue =
    (callAlone c (.tryPopMany count) s).2.queue
  refused : (callAlone c (.tryPopMany count) s).1.failure ≠ .none →
    (callAlone c (.tryPopMany count) s).2.queue.readIdx = s.queue.readIdx

/-- The cached write index is not ahead of the write index, or it is enough. -/
def Reader.Aligned (c : Fin (n + 1)) (s : Reader T C n) (count : ℕ) : Prop :=
  count ≤ s.promised c ∨ s.promised c ≤ s.unread c

theorem callAlone_none (call : ConsumerCall) : (callAlone c call s).1.failure = .none ↔
    call.count.toNat ≤ s.promised c ∨ call.count.toNat ≤ s.unread c := by
  rw [callAlone_eq]
  by_cases hpromised : call.count.toNat ≤ s.promised c
  · simp [hpromised]
  · by_cases hunread : call.count.toNat ≤ s.unread c
    · simp [hpromised, hunread]
    · simp [hpromised, hunread, s.refusal_ne]

theorem callAlone_queue (call : ConsumerCall) : (callAlone c call s).2.queue =
    if (callAlone c call s).1.failure = .none then s.queue.advance c call.count else s.queue := by
  by_cases hnone : (callAlone c call s).1.failure = .none
  · have hor := (callAlone_none c s call).mp hnone
    rw [if_pos hnone, callAlone_eq]
    split
    · rfl
    · rw [if_pos (hor.resolve_left ‹_›)]
  · have hor := (callAlone_none c s call).not.mp hnone
    rw [not_or] at hor
    rw [if_neg hnone, callAlone_eq, if_neg hor.1, if_neg hor.2]

theorem sub_advance_toNat (x : UInt64) :
    (x - (s.queue.advance c 1).readIdx c).toNat =
      ((x - s.queue.readIdx c).toNat + (2 ^ 64 - 1)) % 2 ^ 64 := by
  have hx := x.toNat_lt
  have hr := (s.queue.readIdx c).toNat_lt
  have hone : (1 : UInt64).toNat = 1 := rfl
  simp only [RingBuffer.advance, Function.update_self, UInt64.toNat_sub, UInt64.toNat_add, hone]
  omega

/-- The condition on `k` single pops, by what the cache promises and what there is. -/
def Reader.YieldsEach (c : Fin (n + 1)) (s : Reader T C n) (k : ℕ) : Prop :=
  k ≤ s.promised c ∨ ¬ (s.promised c ≤ s.unread c ∧ s.unread c < k)

theorem yieldsEach_advance {k : ℕ} (hk : k + 1 < 2 ^ 64) {cached : UInt64}
    (h : cached = s.cachedWriteIdx ∧ 1 ≤ s.promised c ∨
      cached = s.queue.writeIdx ∧ s.promised c = 0 ∧ 1 ≤ s.unread c) :
    Reader.YieldsEach c ⟨cached, s.queue.advance c 1⟩ k ↔ s.YieldsEach c (k + 1) := by
  have hpromised := s.promised_lt c
  have hunread := s.unread_lt c
  have hcached : (⟨cached, s.queue.advance c 1⟩ : Reader T C n).promised c =
      ((cached - s.queue.readIdx c).toNat + (2 ^ 64 - 1)) % 2 ^ 64 := sub_advance_toNat c s cached
  have hwrite : (⟨cached, s.queue.advance c 1⟩ : Reader T C n).unread c =
      (s.unread c + (2 ^ 64 - 1)) % 2 ^ 64 := sub_advance_toNat c s s.queue.writeIdx
  unfold Reader.YieldsEach
  rcases h with ⟨rfl, hone⟩ | ⟨rfl, hzero, hone⟩
  · change _ = (s.promised c + (2 ^ 64 - 1)) % 2 ^ 64 at hcached
    omega
  · change _ = (s.unread c + (2 ^ 64 - 1)) % 2 ^ 64 at hcached
    omega

theorem popEach_alone (k : ℕ) (hk : k < 2 ^ 64) :
    ((∀ r ∈ (popEach c k s).1, r.failure = .none) ↔ s.YieldsEach c k) ∧
    (s.YieldsEach c k →
      (popEach c k s).1.flatMap ConsumerResult.items = s.queue.slotsFrom c k ∧
      (popEach c k s).2.queue = s.queue.advance c (.ofNat k)) := by
  induction k generalizing s with
  | zero => simp [popEach, RingBuffer.slotsFrom, RingBuffer.advance, Reader.YieldsEach]
  | succ k ih =>
    have hpop := callAlone_eq c s .tryPop
    change _ = if 1 ≤ s.promised c then _ else if 1 ≤ s.unread c then _ else _ at hpop
    have hmoved : ∀ cached, (cached = s.cachedWriteIdx ∧ 1 ≤ s.promised c ∨
          cached = s.queue.writeIdx ∧ s.promised c = 0 ∧ 1 ≤ s.unread c) →
        callAlone c .tryPop s =
          (⟨.none, s.queue.slotsFrom c 1⟩, ⟨cached, s.queue.advance c 1⟩) →
        ((∀ r ∈ (popEach c (k + 1) s).1, r.failure = .none) ↔ s.YieldsEach c (k + 1)) ∧
        (s.YieldsEach c (k + 1) →
          (popEach c (k + 1) s).1.flatMap ConsumerResult.items = s.queue.slotsFrom c (k + 1) ∧
          (popEach c (k + 1) s).2.queue = s.queue.advance c (.ofNat (k + 1))) := by
      intro cached hcached hpop
      obtain ⟨hall, hdone⟩ := ih ⟨cached, s.queue.advance c 1⟩ (by omega)
      rw [← yieldsEach_advance c s hk hcached]
      refine ⟨by simpa [popEach, hpop] using hall, fun h => ?_⟩
      obtain ⟨hitems, hqueue⟩ := hdone h
      rw [advance_advance, one_add_ofNat] at hqueue
      exact ⟨by simp [popEach, hpop, hitems, slotsFrom_succ c s.queue k],
        by simpa [popEach, hpop] using hqueue⟩
    by_cases hpromised : 1 ≤ s.promised c
    · rw [if_pos hpromised] at hpop
      exact hmoved _ (Or.inl ⟨rfl, hpromised⟩) hpop
    · rw [if_neg hpromised] at hpop
      by_cases hunread : 1 ≤ s.unread c
      · rw [if_pos hunread] at hpop
        exact hmoved _ (Or.inr ⟨rfl, by omega, hunread⟩) hpop
      · rw [if_neg hunread] at hpop
        have hshort : ¬ s.YieldsEach c (k + 1) := by
          unfold Reader.YieldsEach
          omega
        refine ⟨iff_of_false ?_ hshort, fun h => absurd h hshort⟩
        simp [popEach, hpop, s.refusal_ne]

/-- A batch of pops agrees with the single pops exactly where the cached write index is
not ahead of the write index, or is enough. -/
theorem popAgrees_iff {count : UInt64} (hcount : count ≠ 0) :
    PopAgrees c count s ↔ s.Aligned c count.toNat := by
  have hlt := count.toNat_lt
  have hpos : 0 < count.toNat := by
    apply Nat.pos_of_ne_zero
    intro h
    exact hcount (UInt64.toNat_inj.mp h)
  obtain ⟨hall, hdone⟩ := popEach_alone c s count.toNat hlt
  have hpop := callAlone_none c s (.tryPopMany count)
  have hskip := callAlone_none c s (.trySkipMany count)
  have hskips : (callAlone c (.trySkipMany count) s).1.failure = .none ↔
      (callAlone c (.tryPopMany count) s).1.failure = .none := hskip.trans hpop.symm
  have hqueue := callAlone_queue c s (.tryPopMany count)
  have haligned : s.Aligned c count.toNat ↔
      ((callAlone c (.tryPopMany count) s).1.failure = .none ↔ s.YieldsEach c count.toNat) := by
    rw [hpop]
    change _ ↔ (count.toNat ≤ s.promised c ∨ count.toNat ≤ s.unread c ↔ _)
    unfold Reader.Aligned Reader.YieldsEach
    omega
  rw [haligned, ← hall]
  refine ⟨PopAgrees.success, fun h => ⟨h, fun hnone => ?_, fun hnone => ?_, hskips, ?_, ?_⟩⟩
  · rw [(hdone (hall.mp (h.mp hnone))).1, callAlone_eq]
    split
    · rfl
    · rw [if_pos ((hpop.mp hnone).resolve_left ‹_›)]
      rfl
  · rw [(hdone (hall.mp (h.mp hnone))).2, hqueue, if_pos hnone, UInt64.ofNat_toNat]
    rfl
  · simp only [callAlone_queue, hskips]
    rfl
  · intro hrefused
    rw [hqueue, if_neg hrefused]

end Pop

end ItchOrderBook.Spmc

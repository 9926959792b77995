import ItchOrderBook.Spmc.Discipline

/-! # A consumer on its own

What the calls of one consumer do while no other thread moves: a call moves over the
items it asks for if they are all there, and nowhere otherwise.
-/
namespace ItchOrderBook.Spmc
open AtomicProgram

variable {T : Type} {C : Capacity} {n : ℕ}

/-- The queue with the index its reader caches. -/
structure Reader (T : Type) (C : Capacity) (n : ℕ) where
  cachedWriteIdx : UInt64
  queue : RingBuffer T C n

/-- The call, start to end. -/
def callAlone (c : Fin (n + 1)) (call : ConsumerCall) (s : Reader T C n) :
    ConsumerResult T × Reader T C n :=
  let done := (ConsumerCall.code c s.cachedWriteIdx call).solo Access.exec s.queue
  (done.1.1, ⟨done.1.2, done.2⟩)

namespace Reader
variable (c : Fin (n + 1)) (s : Reader T C n)

/-- How far the cached write index is ahead of the read index. -/
def promised : ℕ := (s.cachedWriteIdx - s.queue.readIdx c).toNat

/-- How far the write index is ahead of the read index. -/
def unread : ℕ := (s.queue.writeIdx - s.queue.readIdx c).toNat

theorem promised_lt : s.promised c < 2 ^ 64 := UInt64.toNat_lt _

theorem unread_lt : s.unread c < 2 ^ 64 := UInt64.toNat_lt _

def refusal : ConsumeFailure := if s.queue.isClosed then .bufferClosed else .bufferInsufficient

theorem refusal_ne : s.refusal ≠ .none := by
  unfold refusal
  split <;> simp

end Reader

/-- These items lie between the read index of `c` and the write index. -/
structure Unread (c : Fin (n + 1)) (items : List T) (s : Reader T C n) : Prop where
  fits : items.length ≤ C.size
  write : s.queue.writeIdx - s.queue.readIdx c = .ofNat items.length
  slots : ∀ i < items.length,
    items[i]? = some (s.queue.buffer (C.slot (s.queue.readIdx c + .ofNat i)))
  cached : (s.cachedWriteIdx - s.queue.readIdx c).toNat ≤ items.length

/-- The reader has moved over the first `k` of its items. -/
structure Moved (c : Fin (n + 1)) (items : List T) (s s' : Reader T C n) (k : ℕ) : Prop where
  le : k ≤ items.length
  unread : Unread c (items.drop k) s'
  readIdx : s'.queue.readIdx c = s.queue.readIdx c + .ofNat k

/-- How far a call for `count` of `available` items moves. -/
def taken (count available : ℕ) : ℕ := if count ≤ available then count else 0

section Moves
variable {c : Fin (n + 1)} {items : List T} {s s' s'' : Reader T C n}

theorem Unread.length_lt (h : Unread c items s) : items.length < 2 ^ 64 := by
  have hfits := h.fits
  have hsize := C.size_le
  omega

theorem Unread.write_toNat (h : Unread c items s) :
    (s.queue.writeIdx - s.queue.readIdx c).toNat = items.length := by
  have hlt := h.length_lt
  rw [h.write, UInt64.toNat_ofNat']
  omega

theorem Moved.trans {k k' : ℕ} (h : Moved c items s s' k) (h' : Moved c (items.drop k) s' s'' k') :
    Moved c items s s'' (k + k') := by
  have hle := h.le
  have hle' := h'.le
  rw [List.length_drop] at hle'
  refine ⟨by omega, ?_, ?_⟩
  · rw [← List.drop_drop]
    exact h'.unread
  · rw [h'.readIdx, h.readIdx, UInt64.ofNat_add, UInt64.add_assoc]

theorem Moved.readIdx_iff {k m : ℕ} (h : Moved c items s s' k) (hs : Unread c items s)
    (hm : m < 2 ^ 64) : s'.queue.readIdx c = s.queue.readIdx c + .ofNat m ↔ k = m := by
  have hk := h.le.trans_lt hs.length_lt
  rw [h.readIdx]
  refine ⟨fun heq => ?_, fun heq => by rw [heq]⟩
  have hofNat := congrArg UInt64.toNat (UInt64.add_right_inj _ |>.mp heq)
  rwa [UInt64.toNat_ofNat', UInt64.toNat_ofNat', Nat.mod_eq_of_lt hk, Nat.mod_eq_of_lt hm] at hofNat

/-- Between its calls a consumer has unread what is published and not passed. -/
theorem unread_of_ring {w : QueueWorld T C n} (h : Ring w) {cached : UInt64}
    (hcached : CachedWrite c cached w) :
    Unread c ((pushed w.history).drop (passed c w.history)) ⟨cached, w.shared⟩ := by
  have horder := h.order c
  have hroom := h.room c
  have hsize := C.size_le
  obtain ⟨r, rfl, hlo, hhi⟩ := hcached
  constructor
  · rw [List.length_drop]
    omega
  · rw [h.write, h.read c, List.length_drop, UInt64.ofNat_sub horder]
  · intro i hi
    rw [List.length_drop] at hi
    rw [h.read c, ← UInt64.ofNat_add, Capacity.slot_ofNat, List.getElem?_drop]
    exact h.window c _ (Nat.le_add_right _ _) (by omega)
  · rw [h.read c, ofNat_sub_toNat hlo (by omega), List.length_drop]
    omega

end Moves

/-! ## Calls -/

section Code
variable (c : Fin (n + 1)) (s : Reader T C n)

/-- The check consults the cache, and the write index where the cache is not enough. -/
theorem checkPopStatus_eq (count : UInt64) :
    (Consumer.checkPopStatus s.cachedWriteIdx (s.queue.readIdx c) count : Code T C n _).solo
        Access.exec s.queue =
      (if count.toNat ≤ s.promised c then (.none, s.cachedWriteIdx)
        else if count.toNat ≤ s.unread c then (.none, s.queue.writeIdx)
        else (s.refusal, s.queue.writeIdx), s.queue) := by
  unfold Consumer.checkPopStatus
  have hlt : ∀ x : UInt64, x - s.queue.readIdx c < count ↔
      ¬ count.toNat ≤ (x - s.queue.readIdx c).toNat := by
    intro x
    rw [UInt64.lt_iff_toNat_lt, Nat.not_le]
  by_cases hpromised : count.toNat ≤ s.promised c
  · rw [if_neg fun h => (hlt _).mp h hpromised, if_pos hpromised]
    rfl
  · rw [if_pos ((hlt _).mpr hpromised), if_neg hpromised]
    change (if s.queue.writeIdx - s.queue.readIdx c < count then _ else _ : Code T C n _).solo
      Access.exec s.queue = _
    by_cases hunread : count.toNat ≤ s.unread c
    · rw [if_neg fun h => (hlt _).mp h hunread, if_pos hunread]
      rfl
    · rw [if_pos ((hlt _).mpr hunread), if_neg hunread]
      rfl

theorem callAlone_tryPopMany (count : UInt64) : callAlone c (.tryPopMany count) s =
    let done := (Consumer.tryPopMany c count s.cachedWriteIdx).solo Access.exec s.queue
    (⟨done.1.1.1, done.1.1.2⟩, ⟨done.1.2, done.2⟩) := by
  have hcode : (ConsumerCall.code c s.cachedWriteIdx (.tryPopMany count)).solo Access.exec
      s.queue = _ := Prog.solo_bind _ _ _ _
  rw [callAlone, hcode]
  rfl

theorem callAlone_trySkipMany (count : UInt64) : callAlone c (.trySkipMany count) s =
    let done := (Consumer.trySkipMany c count s.cachedWriteIdx).solo Access.exec s.queue
    (⟨done.1.1, []⟩, ⟨done.1.2, done.2⟩) := by
  have hcode : (ConsumerCall.code c s.cachedWriteIdx (.trySkipMany count)).solo Access.exec
      s.queue = _ := Prog.solo_bind _ _ _ _
  rw [callAlone, hcode]
  rfl

end Code

section Calls
variable {c : Fin (n + 1)} {items : List T} {s : Reader T C n} {count : UInt64}

/-- What a check alone finds. -/
structure CheckedAlone (c : Fin (n + 1)) (items : List T) (s : Reader T C n) (count : UInt64)
    (done : (ConsumeFailure × UInt64) × RingBuffer T C n) : Prop where
  queue : done.2 = s.queue
  none_iff : done.1.1 = .none ↔ count.toNat ≤ items.length
  cached : (done.1.2 - s.queue.readIdx c).toNat ≤ items.length
  enough : done.1.1 = .none → count ≤ done.1.2 - s.queue.readIdx c

theorem checkPopStatus_alone (h : Unread c items s) (count : UInt64) : CheckedAlone c items s count
    ((Consumer.checkPopStatus s.cachedWriteIdx (s.queue.readIdx c) count).solo Access.exec
      s.queue) := by
  have hcached : s.promised c ≤ items.length := h.cached
  have hwrite : s.unread c = items.length := h.write_toNat
  rw [checkPopStatus_eq]
  by_cases hpromised : count.toNat ≤ s.promised c
  · rw [if_pos hpromised]
    refine ⟨rfl, iff_of_true rfl (hpromised.trans hcached), hcached, fun _ => ?_⟩
    exact UInt64.le_iff_toNat_le.mpr hpromised
  rw [if_neg hpromised]
  by_cases hunread : count.toNat ≤ s.unread c
  · rw [if_pos hunread]
    refine ⟨rfl, iff_of_true rfl (hunread.trans hwrite.le), hwrite.le, fun _ => ?_⟩
    exact UInt64.le_iff_toNat_le.mpr hunread
  · rw [if_neg hunread]
    have hfew : ¬ count.toNat ≤ items.length := fun hle => hunread (hle.trans hwrite.ge)
    exact ⟨rfl, iff_of_false s.refusal_ne hfew, hwrite.le, fun hnone => absurd hnone s.refusal_ne⟩

theorem readSlots_alone (b : RingBuffer T C n) (readIdx : UInt64) (count i : ℕ)
    (hslots : ∀ j < count, items[i + j]? = some (b.buffer (C.slot (readIdx + .ofNat (i + j))))) :
    (Consumer.readSlots readIdx i count).solo Access.exec b = ((items.drop i).take count, b) := by
  induction count generalizing i with
  | zero => simp [Consumer.readSlots]
  | succ count ih =>
    have hfirst := hslots 0 (Nat.succ_pos count)
    have hrest := ih (i + 1) fun j hj => by
      have hslot := hslots (j + 1) (Nat.succ_lt_succ hj)
      rwa [show i + (j + 1) = i + 1 + j by omega] at hslot
    have hi : i < items.length := (List.getElem?_eq_some_iff.mp hfirst).1
    change ((Consumer.readSlots readIdx (i + 1) count).bind _).solo Access.exec b = _
    rw [show ∀ (p : Code T C n (List T)) (f : List T → Code T C n (List T)),
      p.bind f = (p >>= f) from fun _ _ => rfl, Prog.solo_bind, hrest]
    rw [List.drop_eq_getElem_cons hi, List.take_succ_cons]
    rw [Nat.add_zero, List.getElem?_eq_getElem hi] at hfirst
    rw [Option.some.inj hfirst]
    rfl

theorem Unread.stays (h : Unread c items s) {cached : UInt64}
    (hcached : (cached - s.queue.readIdx c).toNat ≤ items.length) :
    Moved c items s ⟨cached, s.queue⟩ 0 where
  le := Nat.zero_le _
  unread := ⟨h.fits, h.write, h.slots, hcached⟩
  readIdx := by simp

/-- A call that succeeds stores the read index behind its items. -/
theorem Unread.moves (h : Unread c items s) {cached : UInt64}
    (hcached : (cached - s.queue.readIdx c).toNat ≤ items.length)
    (hcount : count.toNat ≤ items.length) (henough : count ≤ cached - s.queue.readIdx c) :
    Moved c items s ⟨cached, (Access.storeReadIdx c (s.queue.readIdx c + count)).exec s.queue |>.2⟩
      count.toNat := by
  have hread : Function.update s.queue.readIdx c (s.queue.readIdx c + count) c =
      s.queue.readIdx c + count := Function.update_self ..
  have hsub : ∀ idx : UInt64, idx - (s.queue.readIdx c + count) = idx - s.queue.readIdx c - count := by
    intro idx
    rw [UInt64.sub_eq_iff_eq_add, UInt64.add_comm _ count, ← UInt64.add_assoc,
      UInt64.sub_add_cancel, UInt64.sub_add_cancel]
  have hwrite := h.write_toNat
  refine ⟨hcount, ⟨?_, ?_, ?_, ?_⟩, ?_⟩
  · rw [List.length_drop]
    exact (Nat.sub_le _ _).trans h.fits
  · change s.queue.writeIdx - Function.update s.queue.readIdx c _ c = _
    rw [hread, hsub, List.length_drop, h.write, UInt64.ofNat_sub hcount, UInt64.ofNat_toNat]
  · intro i hi
    rw [List.length_drop] at hi
    have hslot := h.slots (count.toNat + i) (by omega)
    change _ = some (s.queue.buffer (C.slot (Function.update s.queue.readIdx c _ c + _)))
    rw [List.getElem?_drop, hslot, hread, UInt64.ofNat_add, UInt64.ofNat_toNat, UInt64.add_assoc]
  · change (cached - Function.update s.queue.readIdx c _ c).toNat ≤ _
    rw [hread, hsub, UInt64.toNat_sub_of_le _ _ henough, List.length_drop]
    exact Nat.sub_le_sub_right hcached _
  · change Function.update s.queue.readIdx c _ c = _
    rw [hread, UInt64.ofNat_toNat]

theorem attempt_alone (h : Unread c items s) (count : UInt64) {α : Type}
    (f : ConsumeFailure × UInt64 → UInt64 → Code T C n α) :
    ∃ r, CheckedAlone c items s count (r, s.queue) ∧
      (loadReadIdx c >>= fun readIdx =>
        Consumer.checkPopStatus s.cachedWriteIdx readIdx count >>= fun r => f r readIdx).solo
          Access.exec s.queue = (f r (s.queue.readIdx c)).solo Access.exec s.queue := by
  have hchecked := checkPopStatus_alone h count
  have hqueue := hchecked.queue
  cases hdone : (Consumer.checkPopStatus s.cachedWriteIdx (s.queue.readIdx c) count).solo
      Access.exec s.queue with
  | mk r queue =>
    rw [hdone] at hchecked hqueue
    obtain rfl : queue = s.queue := hqueue
    refine ⟨r, hchecked, ?_⟩
    change (Consumer.checkPopStatus s.cachedWriteIdx (s.queue.readIdx c) count >>= _).solo
      Access.exec s.queue = _
    rw [Prog.solo_bind, hdone]
    rfl

theorem tryPopMany_alone (h : Unread c items s) (count : UInt64) :
    Moved c items s (callAlone c (.tryPopMany count) s).2 (taken count.toNat items.length) ∧
    (callAlone c (.tryPopMany count) s).1.items = items.take (taken count.toNat items.length) ∧
    ((callAlone c (.tryPopMany count) s).1.failure = .none ↔ count.toNat ≤ items.length) := by
  obtain ⟨⟨failure, cached⟩, hchecked, hsolo⟩ := attempt_alone h count
    fun r readIdx => (do
      if r.1 ≠ .none then return ((r.1, []), r.2)
      else
        let items ← Consumer.readSlots readIdx 0 count.toNat
        storeReadIdx c (readIdx + count)
        return ((.none, items), r.2) : Code T C n ((ConsumeFailure × List T) × UInt64))
  have htry : (Consumer.tryPopMany c count s.cachedWriteIdx).solo Access.exec s.queue = _ := hsolo
  rw [callAlone_tryPopMany, htry]
  by_cases hfailure : failure = .none
  · have henough := hchecked.none_iff.mp hfailure
    have hslots : ∀ j < count.toNat, items[0 + j]? =
        some (s.queue.buffer (C.slot (s.queue.readIdx c + .ofNat (0 + j)))) := by
      intro j hj
      rw [Nat.zero_add]
      exact h.slots j (by omega)
    have hread := readSlots_alone s.queue (s.queue.readIdx c) count.toNat 0 hslots
    simp only [hfailure, ne_eq, not_true_eq_false, if_false, Prog.solo_bind, hread, taken, henough,
      if_true, List.drop_zero, iff_true]
    exact ⟨h.moves hchecked.cached henough (hchecked.enough hfailure), rfl, rfl⟩
  · have hfew : ¬ count.toNat ≤ items.length := fun hle => hfailure (hchecked.none_iff.mpr hle)
    simp only [hfailure, ne_eq, not_false_eq_true, if_true, taken, hfew, if_false, List.take_zero]
    exact ⟨h.stays hchecked.cached, rfl, iff_of_false hfailure id⟩

theorem trySkipMany_alone (h : Unread c items s) (count : UInt64) :
    Moved c items s (callAlone c (.trySkipMany count) s).2 (taken count.toNat items.length) := by
  obtain ⟨⟨failure, cached⟩, hchecked, hsolo⟩ := attempt_alone h count
    fun r readIdx => (do
      if r.1 ≠ .none then return r
      else
        storeReadIdx c (readIdx + count)
        return (.none, r.2) : Code T C n (ConsumeFailure × UInt64))
  have htry : (Consumer.trySkipMany c count s.cachedWriteIdx).solo Access.exec s.queue = _ := hsolo
  rw [callAlone_trySkipMany, htry]
  by_cases hfailure : failure = .none
  · have henough := hchecked.none_iff.mp hfailure
    simp only [hfailure, ne_eq, not_true_eq_false, if_false, taken, henough, if_true]
    exact h.moves hchecked.cached henough (hchecked.enough hfailure)
  · have hfew : ¬ count.toNat ≤ items.length := fun hle => hfailure (hchecked.none_iff.mpr hle)
    simp only [hfailure, ne_eq, not_false_eq_true, if_true, taken, hfew, if_false]
    exact h.stays hchecked.cached

end Calls

end ItchOrderBook.Spmc

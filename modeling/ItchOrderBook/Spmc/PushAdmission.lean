import ItchOrderBook.Spmc.LoneProducer

/-! # Push admission

When `try_push_many` finds room. The test is made on the index of the last item, which
for an empty batch lies below the write index: it is refused where the producer knows
that everything has been read.
-/
namespace ItchOrderBook.Spmc
open AtomicProgram

variable {T : Type} {C : Capacity} {n : ℕ}

/-- `write_idx_ + k - (smallest read_idx_) <= Capacity`. -/
def RingBuffer.HasRoom (b : RingBuffer T C n) (k : ℕ) : Prop :=
  b.writeIdx.toNat + k - b.firstReadIdx.toNat ≤ C.size

/-- The batch is refused for its size exactly when it is larger than the ring, for lack
of room exactly when it does not fit, and a refusal leaves every slot and index alone. -/
structure AdmitsExactly (items : List T) (s : Writer T C n) : Prop where
  tooLarge : (pushManyAlone items s).1 = .failedPayloadTooLarge ↔ C.size < items.length
  success : items.length ≤ C.size →
    ((pushManyAlone items s).1 = .success ↔ s.queue.HasRoom items.length)
  full : items.length ≤ C.size →
    ((pushManyAlone items s).1 = .failedBufferFull ↔ ¬ s.queue.HasRoom items.length)
  refused : (pushManyAlone items s).1 ≠ .success → (pushManyAlone items s).2.queue = s.queue

theorem Writer.admits_iff {s : Writer T C n} {k : ℕ} (hk : k ≤ C.size)
    (hfilled : s.filled ≤ s.ahead) (hahead : s.ahead ≤ C.size) :
    s.Admits k ↔ s.filled + k ≤ C.size ∧ (k ≠ 0 ∨ s.ahead ≠ 0) := by
  have hsize := C.size_le
  unfold Writer.Admits lastDistance
  omega

theorem admitsExactly_iff {s : Writer T C n} (items : List T) (hfilled : s.filled ≤ s.ahead)
    (hahead : s.ahead ≤ C.size)
    (hindices : s.queue.firstReadIdx.toNat + s.filled = s.queue.writeIdx.toNat) :
    AdmitsExactly items s ↔ items ≠ [] ∨ s.cachedReadIdx ≠ s.queue.writeIdx := by
  have hroom : s.queue.HasRoom items.length ↔ s.filled + items.length ≤ C.size := by
    unfold RingBuffer.HasRoom
    omega
  have hcached : s.ahead = 0 ↔ s.cachedReadIdx = s.queue.writeIdx := by
    rw [Writer.ahead, ← UInt64.toNat_zero, UInt64.toNat_inj, UInt64.sub_eq_iff_eq_add,
      UInt64.zero_add, eq_comm]
  have hempty : items.length = 0 ↔ items = [] := List.length_eq_zero_iff
  have hadmits := fun hfits : items.length ≤ C.size => Writer.admits_iff hfits hfilled hahead
  rw [ne_eq, ne_eq, ← hempty, ← hcached]
  constructor
  · intro h
    by_contra hneither
    have hnil : items.length = 0 := by omega
    have hsuccess := (h.success (by omega)).mpr (hroom.mpr (by omega))
    have := (hadmits (by omega)).mp ((pushManyAlone_success items s).mp hsuccess).2
    omega
  · intro hcond
    refine ⟨pushManyAlone_large items s, fun hfits => ?_, fun hfits => ?_,
      pushManyAlone_refused items s⟩
    · rw [pushManyAlone_success, hadmits hfits, hroom]
      omega
    · rw [pushManyAlone_full items s hfits, hadmits hfits, hroom]
      omega

section Runs
variable {D : Driver (Thread n) (Thread.Call T) (Thread.Ret T)}

/-- In every reachable state a lone push is admitted exactly where there is room, but for
the empty batch of a producer whose cached read index is the write index. -/
theorem push_admission_iff (buffer : Fin C.size → T) (driver : (i : Thread n) → D.State i)
    (schedule : List (Choice (Thread n) (Thread.Call T))) (cfg : QueueConfig T C n D)
    (hrun : (queue T C n).run (makeSpmc buffer driver) schedule = some cfg)
    (hfew : (pushed cfg.world.history).length < 2 ^ 64 - C.size) (cached : UInt64)
    (hidle : cfg.status .producer = .idle cached) (items : List T) :
    AdmitsExactly items ⟨cached, cfg.world.shared⟩ ↔
      items ≠ [] ∨ cached ≠ cfg.world.shared.writeIdx := by
  have hadm : Admissible cfg.world.history := Or.inr (by omega)
  obtain ⟨hholds, -⟩ := run_holds hrun hadm
  have hcached : CachedRead _ cached cfg.world := hholds.idle _ _ hidle
  obtain ⟨hfilled, hahead⟩ := hholds.inv.distances hadm hcached
  exact admitsExactly_iff items hfilled hahead (hholds.inv.filled_eq (by omega))

/-- What a thread between its calls caches. -/
def cachedBy (i : Thread n) (cfg : QueueConfig T C n D) : Option UInt64 :=
  match cfg.status i with
  | .idle data => some data
  | .running _ _ => none

theorem status_of_cachedBy {i : Thread n} {cfg : QueueConfig T C n D} {cached : UInt64}
    (h : cachedBy i cfg = some cached) : cfg.status i = .idle cached := by
  unfold cachedBy at h
  split at h
  · rename_i data hs
    rw [hs, Option.some.inj h]
  · cases h

/-- One item lies in a ring of two, so that a batch of two is refused. -/
theorem push_admission_two :
    let start : QueueConfig ℕ ⟨1, by decide⟩ 1 (Driver.free ..) :=
      makeSpmc (fun _ => 0) fun _ => ()
    ∃ cfg : QueueConfig ℕ ⟨1, by decide⟩ 1 (Driver.free ..),
      (queue ℕ ⟨1, by decide⟩ 1).run start
        (Choice.through .producer (ProducerCall.tryPush 7) 4) = some cfg ∧
      AdmitsExactly [8, 9] ⟨0, cfg.world.shared⟩ := by
  intro start
  have hran : ((queue ℕ ⟨1, by decide⟩ 1).run start
      (Choice.through .producer (ProducerCall.tryPush 7) 4)).map
        (fun cfg => (cachedBy .producer cfg, pushed cfg.world.history)) = some (some 0, [7]) := by
    decide
  obtain ⟨cfg, hrun, hcfg⟩ := Option.map_eq_some_iff.mp hran
  obtain ⟨hcached, hpushed⟩ := Prod.mk.inj hcfg
  have hfew : (pushed cfg.world.history).length < 2 ^ 64 - Capacity.size ⟨1, by decide⟩ := by
    rw [hpushed]
    decide
  exact ⟨cfg, hrun, (push_admission_iff _ _ _ cfg hrun hfew 0 (status_of_cachedBy hcached)
    [8, 9]).mpr (Or.inl (by decide))⟩

/-- On a new queue the empty batch is refused as if the ring were full. -/
theorem empty_batch_refused :
    let start : QueueConfig ℕ ⟨1, by decide⟩ 1 (Driver.free ..) :=
      makeSpmc (fun _ => 0) fun _ => ()
    (queue ℕ ⟨1, by decide⟩ 1).run start [] = some start ∧
    pushed start.world.history = [] ∧ start.status .producer = .idle (0 : UInt64) ∧
    start.world.shared.HasRoom 0 ∧
    (pushManyAlone [] ⟨0, start.world.shared⟩).1 = .failedBufferFull ∧
    ¬ AdmitsExactly [] ⟨0, start.world.shared⟩ := by
  intro start
  have hroom : start.world.shared.HasRoom 0 := by unfold RingBuffer.HasRoom; decide
  have hfull : (pushManyAlone [] ⟨0, start.world.shared⟩).1 = .failedBufferFull := by decide
  refine ⟨rfl, rfl, rfl, hroom, hfull, fun h => ?_⟩
  exact (h.full (Nat.zero_le _)).mp hfull hroom

end Runs

end ItchOrderBook.Spmc

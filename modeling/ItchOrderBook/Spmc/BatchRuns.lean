import ItchOrderBook.Spmc.BatchAgreement
import ItchOrderBook.Spmc.PushAdmission

/-! # Batches over whole runs

Under the discipline of the ring buffer no index is ahead of the write index, so batches
and single operations agree. The discipline ends with the first 2^64 items where there is
more than one consumer: the smallest read index is then not the last reader's.
-/
namespace ItchOrderBook.Spmc
open AtomicProgram

variable {T : Type} {C : Capacity} {n : ℕ}

section Discipline
variable {w : QueueWorld T C n} {cached : UInt64}

theorem Ring.writer_aligned (h : Ring w) (hadm : Admissible w.history)
    (hcached : CachedRead (pushed w.history).length cached w) (k : ℕ) :
    (⟨cached, w.shared⟩ : Writer T C n).Aligned k := by
  obtain ⟨hfilled, hahead⟩ := h.distances hadm hcached
  have hsize := C.size_le
  let s : Writer T C n := ⟨cached, w.shared⟩
  have hfree : s.free = C.size - s.ahead := rfl
  have hcachedLead := s.cachedLead_eq
  have hfirstLead := s.firstLead_eq
  change s.filled ≤ s.ahead at hfilled
  change s.ahead ≤ C.size at hahead
  change s.Aligned k
  constructor <;> omega

theorem Ring.reader_aligned (h : Ring w) {c : Fin (n + 1)} (hcached : CachedWrite c cached w)
    (count : ℕ) : (⟨cached, w.shared⟩ : Reader T C n).Aligned c count := by
  obtain ⟨r, rfl, hlo, hhi⟩ := hcached
  have hroom := h.room c
  have hsize := C.size_le
  right
  simp only [Reader.promised, Reader.unread, h.write, h.read c]
  rw [ofNat_sub_toNat hlo (by omega), ofNat_sub_toNat (by omega) (by omega)]
  omega

end Discipline

section Runs
variable {D : Driver (Thread n) (Thread.Call T) (Thread.Ret T)}

/-- In every reachable state: a lone batch of pushes agrees with the single pushes, and a
lone batch of pops with the single pops, exactly where the indices are aligned; and they
are with one consumer, or before 2^64 items are pushed. -/
theorem batches_agree_iff (buffer : Fin C.size → T) (driver : (i : Thread n) → D.State i)
    (schedule : List (Choice (Thread n) (Thread.Call T))) (cfg : QueueConfig T C n D)
    (hrun : (queue T C n).run (makeSpmc buffer driver) schedule = some cfg) :
    (∀ cached, cfg.status .producer = .idle cached → ∀ items, items ≠ [] →
      (PushAgrees items ⟨cached, cfg.world.shared⟩ ↔
        (⟨cached, cfg.world.shared⟩ : Writer T C n).Aligned items.length)) ∧
    (∀ c cached, cfg.status (.consumer c) = .idle cached → ∀ count, count ≠ 0 →
      (PopAgrees c count ⟨cached, cfg.world.shared⟩ ↔
        (⟨cached, cfg.world.shared⟩ : Reader T C n).Aligned c count.toNat)) ∧
    (n = 0 ∨ (pushed cfg.world.history).length < 2 ^ 64 →
      (∀ cached, cfg.status .producer = .idle cached → ∀ k,
        (⟨cached, cfg.world.shared⟩ : Writer T C n).Aligned k) ∧
      ∀ c cached, cfg.status (.consumer c) = .idle cached → ∀ count,
        (⟨cached, cfg.world.shared⟩ : Reader T C n).Aligned c count) := by
  refine ⟨fun cached _ items hitems => pushAgrees_iff _ hitems,
    fun c cached _ count hcount => popAgrees_iff c _ hcount, fun hadm => ?_⟩
  obtain ⟨hholds, -⟩ := run_holds hrun hadm
  constructor
  · intro cached hidle k
    have hcached : CachedRead _ cached cfg.world := hholds.idle _ _ hidle
    exact hholds.inv.writer_aligned hadm hcached k
  · intro c cached hidle count
    have hcached : CachedWrite c cached cfg.world := (hholds.idle _ _ hidle).1
    exact hholds.inv.reader_aligned hcached count

/-- One item lies in a ring of two: a batch of two pushes is refused as the second single
push is, and a batch of one pop delivers the item. -/
theorem batches_agree_one_pushed :
    let start : QueueConfig ℕ ⟨1, by decide⟩ 1 (Driver.free ..) :=
      makeSpmc (fun _ => 0) fun _ => ()
    ∃ cfg : QueueConfig ℕ ⟨1, by decide⟩ 1 (Driver.free ..),
      (queue ℕ ⟨1, by decide⟩ 1).run start
        (Choice.through .producer (ProducerCall.tryPush 7) 4) = some cfg ∧
      PushAgrees [8, 9] ⟨0, cfg.world.shared⟩ ∧ PopAgrees 1 1 ⟨0, cfg.world.shared⟩ := by
  intro start
  have hran : ((queue ℕ ⟨1, by decide⟩ 1).run start
      (Choice.through .producer (ProducerCall.tryPush 7) 4)).map (fun cfg =>
        (cachedBy .producer cfg, cachedBy (.consumer 1) cfg, pushed cfg.world.history)) =
        some (some 0, some 0, [7]) := by
    decide
  obtain ⟨cfg, hrun, hcfg⟩ := Option.map_eq_some_iff.mp hran
  simp only [Prod.mk.injEq] at hcfg
  obtain ⟨hproducer, hconsumer, hpushed⟩ := hcfg
  obtain ⟨hpush, hpop, haligned⟩ := batches_agree_iff _ _ _ cfg hrun
  obtain ⟨hwriter, hreader⟩ := haligned (Or.inr (by simp [hpushed]))
  refine ⟨cfg, hrun, ?_, ?_⟩
  · exact (hpush 0 (status_of_cachedBy hproducer) [8, 9] (by decide)).mpr
      (hwriter 0 (status_of_cachedBy hproducer) 2)
  · exact (hpop 1 0 (status_of_cachedBy hconsumer) 1 (by decide)).mpr
      (hreader 1 0 (status_of_cachedBy hconsumer) 1)

end Runs

/-! ## A run past 2^64 items -/

/-- Every thread is between its calls, with these caches and this ring buffer. -/
def Reaches (buffer : Fin C.size → T) (cachedRead : UInt64) (cachedWrite : Fin (n + 1) → UInt64)
    (b : RingBuffer T C n) : Prop :=
  ∃ (schedule : List (Choice (Thread n) (Thread.Call T)))
    (cfg : QueueConfig T C n (Driver.free ..)),
    (queue T C n).run (makeSpmc buffer fun _ => ()) schedule = some cfg ∧
    cfg.world.shared = b ∧ cfg.status .producer = .idle cachedRead ∧
    ∀ c, cfg.status (.consumer c) = .idle (cachedWrite c)

namespace Reaches
variable {buffer : Fin C.size → T} {cachedRead : UInt64} {cachedWrite : Fin (n + 1) → UInt64}
  {b : RingBuffer T C n}

theorem push (h : Reaches buffer cachedRead cachedWrite b) (item : T) :
    Reaches buffer (pushAlone item ⟨cachedRead, b⟩).2.cachedReadIdx cachedWrite
      (pushAlone item ⟨cachedRead, b⟩).2.queue := by
  obtain ⟨schedule, cfg, hrun, rfl, hproducer, hconsumers⟩ := h
  obtain ⟨steps, cfg', hrun', hshared, hidle, hothers⟩ :=
    Machine.exists_run_through hrun hproducer (.tryPush item) rfl
  have hsolo : (ProducerCall.code cachedRead (.tryPush item)).solo Access.exec cfg.world.shared =
      ((.response (pushAlone item ⟨cachedRead, cfg.world.shared⟩).1,
        (pushAlone item ⟨cachedRead, cfg.world.shared⟩).2.cachedReadIdx),
        (pushAlone item ⟨cachedRead, cfg.world.shared⟩).2.queue) := Prog.solo_bind _ _ _ _
  have hcached := congrArg (fun done => done.1.2) hsolo
  refine ⟨_, cfg', hrun', hshared.trans (congrArg Prod.snd hsolo),
    hidle.trans (congrArg Status.idle hcached), fun c => ?_⟩
  exact (hothers _ (by simp)).trans (hconsumers c)

theorem pop (h : Reaches buffer cachedRead cachedWrite b) (c : Fin (n + 1)) :
    Reaches buffer cachedRead
      (Function.update cachedWrite c (callAlone c .tryPop ⟨cachedWrite c, b⟩).2.cachedWriteIdx)
      (callAlone c .tryPop ⟨cachedWrite c, b⟩).2.queue := by
  obtain ⟨schedule, cfg, hrun, rfl, hproducer, hconsumers⟩ := h
  obtain ⟨steps, cfg', hrun', hshared, hidle, hothers⟩ :=
    Machine.exists_run_through hrun (hconsumers c) .tryPop rfl
  refine ⟨_, cfg', hrun', hshared, (hothers _ (by simp)).trans hproducer, fun d => ?_⟩
  by_cases hd : d = c
  · subst hd
    rw [Function.update_self]
    exact hidle
  · rw [Function.update_of_ne hd]
    exact (hothers _ (by simpa using hd)).trans (hconsumers d)

end Reaches

/-- A ring of two slots with two consumers. -/
abbrev two : Capacity := ⟨1, by decide⟩

abbrev consumer₀ : Fin (1 + 1) := ⟨0, Nat.succ_pos 1⟩

abbrev consumer₁ : Fin (1 + 1) := Fin.last 1

/-- A reachable queue, by its indices and the caches of the producer and of the first
consumer. -/
def Standing (cachedRead writeIdx read₀ read₁ cached₀ : UInt64) : Prop :=
  ∃ (cachedWrite : Fin (1 + 1) → UInt64) (b : RingBuffer ℕ two 1),
    Reaches (fun _ => 0) cachedRead cachedWrite b ∧ b.writeIdx = writeIdx ∧
    b.readIdx consumer₀ = read₀ ∧ b.readIdx consumer₁ = read₁ ∧ cachedWrite consumer₀ = cached₀

theorem firstReadIdx_two (b : RingBuffer ℕ two 1) :
    b.firstReadIdx = min (b.readIdx consumer₀) (b.readIdx consumer₁) := by
  have hlist : List.finRange (1 + 1) = [consumer₀, consumer₁] := by decide
  rw [RingBuffer.firstReadIdx, hlist]
  change min (min _ _) _ = _
  rw [min_max_word]

namespace Standing
variable {cachedRead writeIdx read₀ read₁ cached₀ : UInt64}

theorem start : Standing 0 0 0 0 0 :=
  ⟨fun _ => 0, _, ⟨[], _, rfl, rfl, rfl, fun _ => rfl⟩, rfl, rfl, rfl, rfl⟩

theorem push (h : Standing cachedRead writeIdx read₀ read₁ cached₀)
    (hroom : (writeIdx - min read₀ read₁).toNat < 2) :
    ∃ cached, Standing cached (writeIdx + 1) read₀ read₁ cached₀ ∧
      (writeIdx - cached).toNat < 2 ∧ (cached = cachedRead ∨ cached = min read₀ read₁) := by
  obtain ⟨cachedWrite, b, hreaches, rfl, rfl, rfl, rfl⟩ := h
  have hnext := hreaches.push 0
  have hpush := pushAlone_eq 0 (⟨cachedRead, b⟩ : Writer ℕ two 1)
  rw [← firstReadIdx_two] at hroom
  change _ = if (b.writeIdx - cachedRead).toNat < 2 then _
    else if (b.writeIdx - b.firstReadIdx).toNat < 2 then _ else _ at hpush
  by_cases hcached : (b.writeIdx - cachedRead).toNat < 2
  · rw [if_pos hcached] at hpush
    rw [hpush] at hnext
    exact ⟨cachedRead, ⟨cachedWrite, _, hnext, rfl, rfl, rfl, rfl⟩, hcached, Or.inl rfl⟩
  · rw [if_neg hcached, if_pos hroom] at hpush
    rw [hpush] at hnext
    exact ⟨b.firstReadIdx, ⟨cachedWrite, _, hnext, rfl, rfl, rfl, rfl⟩, hroom,
      Or.inr (firstReadIdx_two b)⟩

theorem pop₀ (h : Standing cachedRead writeIdx read₀ read₁ cached₀)
    (hmove : cached₀ ≠ read₀ ∨ writeIdx ≠ read₀) :
    Standing cachedRead writeIdx (read₀ + 1) read₁ (if cached₀ ≠ read₀ then cached₀ else writeIdx) := by
  obtain ⟨cachedWrite, b, hreaches, rfl, rfl, rfl, rfl⟩ := h
  have hnext := hreaches.pop consumer₀
  rw [tryPop_moves consumer₀ ⟨cachedWrite consumer₀, b⟩ hmove] at hnext
  exact ⟨_, _, hnext, rfl, rfl, rfl, rfl⟩

theorem pop₁ (h : Standing cachedRead writeIdx read₀ read₁ cached₀) (hmove : writeIdx ≠ read₁) :
    Standing cachedRead writeIdx read₀ (read₁ + 1) cached₀ := by
  obtain ⟨cachedWrite, b, hreaches, rfl, rfl, rfl, rfl⟩ := h
  have hnext := hreaches.pop consumer₁
  rw [tryPop_moves consumer₁ ⟨cachedWrite consumer₁, b⟩ (Or.inr hmove)] at hnext
  exact ⟨_, _, hnext, rfl, rfl, rfl, rfl⟩

theorem round {x : UInt64} (h : Standing cachedRead x x x x) :
    ∃ cached, Standing cached (x + 1) (x + 1) (x + 1) (x + 1) := by
  have hne : x + 1 ≠ x := by simp
  have hmin : min x x = x := ite_self _
  obtain ⟨cached, hpushed, -⟩ := h.push (by simp [hmin])
  have hpopped := hpushed.pop₀ (Or.inr hne)
  rw [if_neg (not_not_intro rfl)] at hpopped
  exact ⟨cached, hpopped.pop₁ hne⟩

theorem rounds (i : ℕ) :
    ∃ cached, Standing cached (.ofNat i) (.ofNat i) (.ofNat i) (.ofNat i) := by
  induction i with
  | zero => exact ⟨0, start⟩
  | succ i ih =>
    obtain ⟨cached, h⟩ := ih
    rw [UInt64.ofNat_add]
    exact h.round

/-- The last word. -/
abbrev last : UInt64 := UInt64.ofNat (2 ^ 64 - 1)

/-- A round of consumer 1 alone, while consumer 0 stands at the last index. -/
theorem lap {x : UInt64} (h : Standing cachedRead x last x cached₀) :
    ∃ cached, Standing cached (x + 1) last (x + 1) cached₀ := by
  have hroom : (x - min last x).toNat < 2 := by
    rw [min_max_word]
    simp
  obtain ⟨cached, hpushed, -⟩ := h.push hroom
  exact ⟨cached, hpushed.pop₁ (by simp)⟩

theorem laps (h : Standing cachedRead 0 last 0 cached₀) (i : ℕ) :
    ∃ cached, Standing cached (.ofNat i) last (.ofNat i) cached₀ := by
  induction i with
  | zero => exact ⟨cachedRead, h⟩
  | succ i ih =>
    obtain ⟨cached, h⟩ := ih
    rw [UInt64.ofNat_add]
    exact h.lap

theorem stalled : ∃ cached, Standing cached 0 last 0 0 := by
  obtain ⟨cached, h⟩ := rounds (2 ^ 64 - 2)
  obtain ⟨cached, h, -⟩ := h.push (by decide)
  obtain ⟨cached, h, -⟩ := h.push (by decide)
  have hpopped := (h.pop₀ (by decide)).pop₁ (by decide)
  exact ⟨cached, hpopped.pop₁ (by decide)⟩

/-- Two pushes fill the ring for consumer 1. The first or the second of them has found
the cache too old. -/
theorem fill (h : Standing cachedRead (last - 2) last (last - 2) cached₀) :
    Standing (last - 2) last last (last - 2) cached₀ := by
  have hmin : min last (last - 2) = last - 2 := min_max_word _
  have hsucc : last - 2 + 1 + 1 = last := by decide
  obtain ⟨cached, hone, hnear, -⟩ := h.push (by decide)
  obtain ⟨cached', htwo, hnear', hcached'⟩ := hone.push (by decide)
  rw [hsucc] at htwo
  have hcached : cached' = last - 2 := by
    rcases hcached' with rfl | rfl
    · have hdistance := add_sub_toNat (last - 2) cached' 1
      change (last - 2 + 1 - cached').toNat = _ at hdistance
      have hne : ¬ last - 2 ≠ cached' := one_le_sub.not.mp (by omega)
      exact (not_not.mp hne).symm
    · exact hmin
  rwa [hcached] at htwo

/-- A lap later the ring is full for consumer 1, and consumer 0 moves on to index 0. -/
theorem overtaken : Standing (last - 2) last 0 (last - 2) 0 := by
  obtain ⟨cached, h⟩ := stalled
  obtain ⟨cached, h⟩ := h.laps (2 ^ 64 - 3)
  have hindex : UInt64.ofNat (2 ^ 64 - 3) = last - 2 := by decide
  rw [hindex] at h
  exact h.fill.pop₀ (Or.inl (by decide))

end Standing

/-- Two consumers, a ring of two, and more than 2^64 items pushed: a single push is refused
where a batch of two is admitted. -/
theorem batch_admitted_single_refused :
    ∃ (schedule : List (Choice (Thread 1) (Thread.Call ℕ)))
      (cfg : QueueConfig ℕ two 1 (Driver.free ..)) (cached : UInt64),
      (queue ℕ two 1).run (makeSpmc (fun _ => 0) fun _ => ()) schedule = some cfg ∧
      cfg.status .producer = .idle cached ∧
      (pushManyAlone [8, 9] ⟨cached, cfg.world.shared⟩).1 = .success ∧
      (pushAlone 8 ⟨cached, cfg.world.shared⟩).1 = .failedBufferFull ∧
      ¬ PushAgrees [8, 9] ⟨cached, cfg.world.shared⟩ := by
  obtain ⟨cachedWrite, b, ⟨schedule, cfg, hrun, rfl, hproducer, -⟩, hwrite, hread₀, hread₁, -⟩ :=
    Standing.overtaken
  let s : Writer ℕ two 1 := ⟨Standing.last - 2, cfg.world.shared⟩
  have hfirst : cfg.world.shared.firstReadIdx = 0 := by
    rw [firstReadIdx_two, hread₀, hread₁]
    decide
  have hahead : s.ahead = 2 := by
    change (cfg.world.shared.writeIdx - (Standing.last - 2)).toNat = 2
    rw [hwrite]
    decide
  have hfilled : s.filled = 2 ^ 64 - 1 := by
    change (cfg.world.shared.writeIdx - cfg.world.shared.firstReadIdx).toNat = _
    rw [hwrite, hfirst]
    decide
  have hsingle : (pushAlone 8 s).1 = .failedBufferFull := by
    rw [pushAlone_eq, hahead, hfilled]
    rfl
  have hbatch : (pushManyAlone [8, 9] s).1 = .success := by
    rw [pushManyAlone_success]
    unfold Writer.Admits
    rw [hahead, hfilled]
    decide
  refine ⟨schedule, cfg, _, hrun, hproducer, hbatch, hsingle, fun h => ?_⟩
  have hsuccess := h.success.mp hbatch (pushAlone 8 s).1 (by simp [pushEach, s])
  rw [hsingle] at hsuccess
  cases hsuccess

end ItchOrderBook.Spmc

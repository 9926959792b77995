import ItchOrderBook.Spmc.Closing
import ItchOrderBook.Spmc.QueueSafety
import ItchOrderBook.Spmc.MemoryOrders

/-! # The slots a consumer reads

They are those of positions between its read index and what it knows to be published.
-/
namespace ItchOrderBook.Spmc
open AtomicProgram

variable {T : Type} {C : Capacity} {n : ℕ}

/-- What a thread accesses, in its own world. -/
def MayAccess : (i : Thread n) → i.Call T → Access T C n → QueueWorld T C n → Prop
  | .producer, _, .storeReadIdx _ _, _ => False
  | .producer, _, _, _ => True
  | .consumer c, _, .loadReadIdx d, _ => d = c
  | .consumer c, _, .storeReadIdx d _, _ => d = c
  | .consumer c, _, .readSlot s, w =>
    ∃ p, passed c w.history ≤ p ∧ p < (pushed w.history).length ∧ C.slotAt p = s
  | .consumer _, _, .loadWriteIdx, _ => True
  | .consumer _, _, .loadIsClosed, _ => True
  | .consumer _, _, _, _ => False

theorem MayAccess.stable {i : Thread n} {call : i.Call T} {a : Access T C n}
    {w w' : QueueWorld T C n} (h : MayAccess i call a w) (hrely : (discipline T C n).rely i w w') :
    MayAccess i call a w' := by
  cases i with
  | producer => cases a <;> exact h
  | consumer c =>
    have hrely : ConsumerRely c w w' := hrely
    cases a with
    | readSlot s =>
      obtain ⟨p, hlo, hhi, hs⟩ := h
      exact ⟨p, hrely.passed_eq.le.trans hlo, hhi.trans_le hrely.pushed_grows.length_le, hs⟩
    | _ => exact h

/-- The program accesses what it may, however the other threads interfere. -/
abbrev Accesses (i : Thread n) (call : i.Call T) {α : Type} (p : Code T C n α)
    (w : QueueWorld T C n) : Prop :=
  (discipline T C n).Along (queue T C n) MayAccess i call p w

theorem accesses_load {i : Thread n} {call : i.Call T} {α : Type} {a : Access T C n} (ha : a.IsLoad)
    {next : a.Result → Code T C n α} {w : QueueWorld T C n}
    (hmay : ∀ w', (discipline T C n).rely i w w' → MayAccess i call a w')
    (h : ∀ w', (discipline T C n).rely i w w' → Ring w' → Admissible w'.history →
      Accesses i call (next (a.exec w'.shared).1) w') : Accesses i call (.act a next) w := by
  intro w' hrely hring hadm
  obtain ⟨hsame, hshared⟩ := act_unchanged w' i call ha
  refine ⟨hmay w' hrely, fun hadm' => ?_⟩
  have hlater := h _ (discipline_trans i w w' _ hrely (rely_of_unchanged hsame rfl))
    (hring.of_unchanged hsame) hadm'
  rw [hshared] at hlater
  exact hlater

theorem producer_accesses (call : ProducerCall T) (cached : UInt64) (w : QueueWorld T C n) :
    Accesses .producer call (ProducerCall.code cached call) w := by
  refine Discipline.Along.of_within (producer_within call cached) fun a ha w => ?_
  cases a <;> trivial

section Consumer
variable {c : Fin (n + 1)} {w w' : QueueWorld T C n} {call : ConsumerCall}

/-- The accesses a consumer may make in any world. -/
def OwnAccess (c : Fin (n + 1)) : Access T C n → Prop
  | .loadReadIdx d | .storeReadIdx d _ => d = c
  | .loadWriteIdx | .loadIsClosed => True
  | _ => False

theorem OwnAccess.may {a : Access T C n} (h : OwnAccess c a) (w : QueueWorld T C n) :
    MayAccess (.consumer c) call a w := by
  cases a <;> first | exact h | exact h.elim

theorem checkPopStatus_own (c : Fin (n + 1)) (cached readIdx count : UInt64) :
    (Consumer.checkPopStatus cached readIdx count : Code T C n _).Within (OwnAccess c)
      fun _ => True := by
  unfold Consumer.checkPopStatus
  by_cases hcached : cached - readIdx < count
  · rw [if_pos hcached]
    refine ⟨trivial, fun writeIdx => ?_⟩
    change Prog.Within _ _ (if writeIdx - readIdx < count then _ else _)
    by_cases hshort : writeIdx - readIdx < count
    · rw [if_pos hshort]
      exact ⟨trivial, fun _ => trivial⟩
    · rw [if_neg hshort]
      trivial
  · rw [if_neg hcached]
    trivial

theorem readSlot_accesses {α : Type} {p : ℕ} (hlo : passed c w.history ≤ p)
    (hhi : p < (pushed w.history).length) {next : T → Code T C n α}
    (h : ∀ w' item, ConsumerRely c w w' → Accesses (.consumer c) call (next item) w') :
    Accesses (.consumer c) call (readSlot (C.slot (UInt64.ofNat p)) >>= next) w := by
  refine accesses_load (by trivial) (fun w' hrely => ?_) fun w' hrely _ _ => h w' _ hrely
  have hrely : ConsumerRely c w w' := hrely
  have hlength := hrely.pushed_grows.length_le
  exact ⟨p, hrely.passed_eq.le.trans hlo, by omega, (Capacity.slot_ofNat p).symm⟩

theorem readSlots_accesses (i count : ℕ)
    (hle : passed c w.history + i + count ≤ (pushed w.history).length) :
    Accesses (.consumer c) call
      (Consumer.readSlots (UInt64.ofNat (passed c w.history)) i count) w := by
  induction count generalizing i w with
  | zero => trivial
  | succ count ih =>
    rw [Consumer.readSlots, ← UInt64.ofNat_add]
    refine readSlot_accesses (Nat.le_add_right _ _) (by omega) fun w₁ item hrely₁ => ?_
    have hpassed₁ : passed c w₁.history = passed c w.history := hrely₁.passed_eq
    have hlength₁ := hrely₁.pushed_grows.length_le
    rw [← hpassed₁]
    exact Discipline.Along.bind discipline_preorder (ih (i + 1) (by omega))
      (safe_readSlots call (i + 1) count (by omega)) fun _ _ _ _ _ => trivial

/-- The accesses of a call after its check. -/
theorem attempt_accesses {cached : UInt64} (hcached : CachedWrite c cached w) {α : Type}
    {f : ConsumeFailure × UInt64 → UInt64 → Code T C n α}
    (hf : ∀ r w₁ w₂, passed c w₂.history = passed c w₁.history → Checked c call.count w₁ r w₂ →
      Accesses (.consumer c) call (f r (UInt64.ofNat (passed c w₁.history))) w₂) :
    Accesses (.consumer c) call (loadReadIdx c >>= fun readIdx =>
      Consumer.checkPopStatus cached readIdx call.count >>= fun r => f r readIdx) w := by
  refine accesses_load (by trivial) (fun _ _ => rfl) fun w₁ hrely₁ hring₁ _ => ?_
  change Accesses _ _ ((fun readIdx => Consumer.checkPopStatus cached readIdx call.count >>=
    fun r => f r readIdx) (w₁.shared.readIdx c)) w₁
  rw [hring₁.read c]
  refine Discipline.Along.bind discipline_preorder
    (Discipline.Along.of_within (checkPopStatus_own c _ _ _) fun a ha w => ha.may w)
    (safe_checkPopStatus call call.count (hcached.stable hrely₁)) ?_
  intro r w₂ _ _ hchecked
  exact hf r w₁ w₂ hchecked.rely.passed_eq hchecked

theorem store_accesses {α : Type} (value : UInt64) (result : α) :
    Accesses (.consumer c) call (storeReadIdx c value >>= fun _ => Prog.ret result) w :=
  fun _ _ _ _ => ⟨rfl, fun _ => trivial⟩

theorem tryPop_accesses {cached : UInt64} (hcached : CachedWrite c cached w) :
    Accesses (.consumer c) ConsumerCall.tryPop (Consumer.tryPop c cached) w := by
  apply attempt_accesses hcached
  rintro ⟨failure, cached'⟩ w₁ w₂ hpassed₂ hchecked
  dsimp only
  by_cases hfailure : failure ≠ .none
  · rw [if_pos hfailure]
    trivial
  · rw [if_neg hfailure]
    obtain ⟨q, -, hlo, hhi⟩ := hchecked.enough (not_not.mp hfailure)
    have hone : ConsumerCall.tryPop.count.toNat = 1 := rfl
    exact readSlot_accesses hpassed₂.le (by omega) fun w₃ item _ => store_accesses _ _

theorem tryPopMany_accesses {cached : UInt64} (count : UInt64) (hcached : CachedWrite c cached w) :
    Accesses (.consumer c) (ConsumerCall.tryPopMany count)
      (Consumer.tryPopMany c count cached) w := by
  apply attempt_accesses hcached
  rintro ⟨failure, cached'⟩ w₁ w₂ hpassed₂ hchecked
  dsimp only
  by_cases hfailure : failure ≠ .none
  · rw [if_pos hfailure]
    trivial
  · rw [if_neg hfailure, ← hpassed₂]
    obtain ⟨q, -, hlo, hhi⟩ := hchecked.enough (not_not.mp hfailure)
    change passed c w₁.history + count.toNat ≤ q at hlo
    refine Discipline.Along.bind discipline_preorder (readSlots_accesses 0 count.toNat (by omega))
      (safe_readSlots _ 0 count.toNat (by omega)) fun items w₃ _ _ _ => store_accesses _ _

theorem trySkipMany_accesses {cached : UInt64} (count : UInt64) (hcached : CachedWrite c cached w) :
    Accesses (.consumer c) (ConsumerCall.trySkipMany count)
      (Consumer.trySkipMany c count cached) w := by
  apply attempt_accesses hcached
  rintro ⟨failure, cached'⟩ w₁ w₂ _ _
  dsimp only
  by_cases hfailure : failure ≠ .none
  · rw [if_pos hfailure]
    trivial
  · rw [if_neg hfailure]
    exact store_accesses _ _

theorem consumer_accesses (call : ConsumerCall) {cached : UInt64} (hcached : CachedWrite c cached w)
    (hcall : AtCall c w) : Accesses (.consumer c) call (ConsumerCall.code c cached call) w := by
  cases call with
  | tryPop =>
    refine Discipline.Along.bind discipline_preorder (tryPop_accesses hcached)
      (safe_tryPop hcached hcall) ?_
    rintro ⟨r, cached'⟩ w₁ _ _ _
    cases r <;> trivial
  | tryPopMany count =>
    exact Discipline.Along.bind discipline_preorder (tryPopMany_accesses count hcached)
      (safe_tryPopMany count hcached hcall) fun _ _ _ _ _ => trivial
  | trySkipMany count =>
    exact Discipline.Along.bind discipline_preorder (trySkipMany_accesses count hcached)
      (safe_trySkipMany count hcached hcall) fun _ _ _ _ _ => trivial

end Consumer

/-- The discipline, with what each thread accesses. -/
def accessDiscipline (T : Type) (C : Capacity) (n : ℕ) :
    Discipline (Thread n) (RingBuffer T C n) (Access T C n) Access.Result (Thread.Call T)
      (Thread.Ret T) Thread.Local := (discipline T C n).guarded MayAccess

theorem accessDiscipline_valid : (accessDiscipline T C n).Valid (queue T C n) := by
  refine discipline_valid.guarded fun i call data w hidle _ _ => ?_
  have hself : callStart i (w.start i call).history = w.history := if_pos rfl
  cases i with
  | producer => exact producer_accesses call data _
  | consumer c =>
    exact consumer_accesses call hidle.1 ⟨hidle.2, (congrArg (List.length ∘ pushed) hself).le⟩

end ItchOrderBook.Spmc

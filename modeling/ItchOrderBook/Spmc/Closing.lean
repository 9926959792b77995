import ItchOrderBook.Spmc.RingBuffer

/-! # Closing the queue

`check_pop_status` loads the write index before it loads the closed flag. A consumer
between the two loads has seen too few items; if more are pushed before the flag is
stored, it reports a closed queue that still holds what it asked for. Where the flag is
never stored over such a consumer, a closed queue holds less than was asked for.
-/
namespace ItchOrderBook.Spmc
open AtomicProgram

variable {T : Type} {C : Capacity} {n : ℕ}

def Access.isFlag : Access T C n → Bool
  | .loadIsClosed => true
  | _ => false

/-- The program is about to load the closed flag. -/
def atFlag {α : Type} : Code T C n α → Bool
  | .ret _ => false
  | .act a _ => a.isFlag

/-- The consumer does not get all of `count` items if it asks now. -/
def RingBuffer.short (b : RingBuffer T C n) (c : Fin (n + 1)) (count : UInt64) : Bool :=
  decide (b.writeIdx - b.readIdx c < count)

/-! ## What the closed flag tells -/

/-- What the other threads may do to the state while consumer `c` waits, at its load of
the flag if `flag` says so: nothing is pushed once the queue is closed, and it is not
closed over a consumer that waits at the flag and would get its items. -/
structure Interferes (c : Fin (n + 1)) (count : UInt64) (flag : Bool)
    (b b' : RingBuffer T C n) : Prop where
  read : b'.readIdx c = b.readIdx c
  closed : b.isClosed = true → b'.isClosed = true ∧ b'.writeIdx = b.writeIdx
  settled : flag = true → b.isClosed = false → b'.isClosed = true → b'.short c count = true

/-- However the others interfere, the program returns in `Q`. -/
def Watch (c : Fin (n + 1)) (count : UInt64) {α : Type} (Q : α → RingBuffer T C n → Prop) :
    Code T C n α → RingBuffer T C n → Prop
  | .ret value, b => ∀ b', Interferes c count false b b' → Q value b'
  | .act a next, b => ∀ b', Interferes c count a.isFlag b b' →
      Watch c count Q (next (a.exec b').1) (a.exec b').2

section Watch
variable {c : Fin (n + 1)} {count : UInt64} {flag : Bool} {b b' b'' : RingBuffer T C n}

theorem Interferes.refl (b : RingBuffer T C n) : Interferes c count flag b b where
  read := rfl
  closed h := ⟨h, rfl⟩
  settled _ h h' := by
    rw [h] at h'
    cases h'

theorem RingBuffer.short_congr (hwrite : b'.writeIdx = b.writeIdx)
    (hread : b'.readIdx c = b.readIdx c) : b'.short c count = b.short c count := by
  rw [short, short, hwrite, hread]

theorem Interferes.trans (h : Interferes c count flag b b') (h' : Interferes c count flag b' b'') :
    Interferes c count flag b b'' where
  read := h'.read.trans h.read
  closed hclosed := by
    obtain ⟨hclosed', hwrite⟩ := h.closed hclosed
    obtain ⟨hclosed'', hwrite'⟩ := h'.closed hclosed'
    exact ⟨hclosed'', hwrite'.trans hwrite⟩
  settled hflag hopen hclosed'' := by
    cases hb : b'.isClosed with
    | false => exact h'.settled hflag hb hclosed''
    | true =>
      rw [RingBuffer.short_congr (h'.closed hb).2 h'.read]
      exact h.settled hflag hopen hb

/-- A closed queue that was short stays short. -/
theorem Interferes.short (h : Interferes c count flag b b') (hclosed : b.isClosed = true)
    (hshort : b.short c count = true) : b'.isClosed = true ∧ b'.short c count = true := by
  obtain ⟨hclosed', hwrite⟩ := h.closed hclosed
  exact ⟨hclosed', (RingBuffer.short_congr hwrite h.read).trans hshort⟩

variable {α β : Type} {Q : α → RingBuffer T C n → Prop} {R : β → RingBuffer T C n → Prop}

theorem Watch.stable {p : Code T C n α} (h : Watch c count Q p b)
    (hother : Interferes c count (atFlag p) b b') : Watch c count Q p b' := by
  cases p with
  | ret value => exact fun b'' h'' => h b'' (hother.trans h'')
  | act a next => exact fun b'' h'' => h b'' (hother.trans h'')

theorem Watch.bind {p : Code T C n α} {f : α → Code T C n β} (h : Watch c count Q p b)
    (hf : ∀ value b, Q value b → Watch c count R (f value) b) : Watch c count R (p >>= f) b := by
  induction p generalizing b with
  | ret value => exact hf value b (h b (Interferes.refl b))
  | act a next ih => exact fun b' hother => ih _ (h b' hother)

theorem Watch.ret {value : α} (h : ∀ b', Q value b') : Watch c count Q (.ret value) b :=
  fun b' _ => h b'

theorem Watch.trivial (p : Code T C n α) : Watch c count (fun _ _ => True) p b := by
  induction p generalizing b with
  | ret value => exact fun _ _ => True.intro
  | act a next ih => exact fun b' _ => ih _

/-- A failure reported as a closed queue is one: the queue is closed and short. -/
def Reported (c : Fin (n + 1)) (count : UInt64) (failure : ConsumeFailure)
    (b : RingBuffer T C n) : Prop :=
  failure = .bufferClosed → b.isClosed = true ∧ b.short c count = true

theorem checkPopStatus_watch (cached : UInt64) :
    Watch c count (fun r => Reported c count r.1)
      (Consumer.checkPopStatus cached (b.readIdx c) count) b := by
  unfold Consumer.checkPopStatus
  by_cases hcached : cached - b.readIdx c < count
  · rw [if_pos hcached]
    intro b₁ h₁
    change Watch c count _ (if b₁.writeIdx - b.readIdx c < count then _ else _) b₁
    by_cases hshort : b₁.writeIdx - b.readIdx c < count
    · rw [if_pos hshort]
      intro b₂ h₂ b₃ h₃ hreported
      have hclosed : b₂.isClosed = true := by
        by_contra hopen
        change (if b₂.isClosed then _ else _) = _ at hreported
        rw [if_neg hopen] at hreported
        cases hreported
      -- either the queue was closed when the write index was loaded, or the flag has settled
      refine h₃.short hclosed ?_
      change b₂.short c count = true
      cases hb : b₁.isClosed with
      | false => exact h₂.settled rfl hb hclosed
      | true =>
        rw [RingBuffer.short_congr (h₂.closed hb).2 h₂.read, RingBuffer.short, h₁.read]
        exact decide_eq_true hshort
    · rw [if_neg hshort]
      exact Watch.ret fun _ hreported => by cases hreported
  · rw [if_neg hcached]
    exact Watch.ret fun _ hreported => by cases hreported

theorem Reported.stable {failure : ConsumeFailure} (h : Reported c count failure b)
    (hother : Interferes c count false b b') : Reported c count failure b' := by
  intro hfailure
  obtain ⟨hclosed, hshort⟩ := h hfailure
  exact hother.short hclosed hshort

/-- A call starts with its check; behind a check that failed it returns. -/
theorem attempt_watch (cached : UInt64) {f : ConsumeFailure × UInt64 → UInt64 → Code T C n α}
    (hf : ∀ r readIdx b, Reported c count r.1 b → Watch c count Q (f r readIdx) b) :
    Watch c count Q (loadReadIdx c >>= fun readIdx =>
      Consumer.checkPopStatus cached readIdx count >>= fun r => f r readIdx) b := by
  intro b₁ _
  exact (checkPopStatus_watch cached).bind fun r b₂ hreported => hf r _ b₂ hreported

theorem tryPop_watch (cached : UInt64) :
    Watch c 1 (fun r => match r.1 with
      | .ok _ => fun _ => True
      | .error failure => Reported c 1 failure) (Consumer.tryPop c cached) b := by
  apply attempt_watch
  rintro ⟨failure, cached'⟩ readIdx b₁ hreported
  dsimp only
  by_cases hfailure : failure ≠ .none
  · rw [if_pos hfailure]
    intro b₂ h₂
    exact hreported.stable h₂
  · rw [if_neg hfailure]
    intro b₂ _ b₃ _ b₄ _
    trivial

theorem tryPopMany_watch (cached : UInt64) :
    Watch c count (fun r => Reported c count r.1.1) (Consumer.tryPopMany c count cached) b := by
  apply attempt_watch
  rintro ⟨failure, cached'⟩ readIdx b₁ hreported
  dsimp only
  by_cases hfailure : failure ≠ .none
  · rw [if_pos hfailure]
    intro b₂ h₂
    exact hreported.stable h₂
  · rw [if_neg hfailure]
    apply (Watch.trivial (Consumer.readSlots readIdx 0 count.toNat)).bind
    intro items b₂ _ b₃ _ b₄ _ hnone
    cases hnone

theorem trySkipMany_watch (cached : UInt64) :
    Watch c count (fun r => Reported c count r.1) (Consumer.trySkipMany c count cached) b := by
  apply attempt_watch
  rintro ⟨failure, cached'⟩ readIdx b₁ hreported
  dsimp only
  by_cases hfailure : failure ≠ .none
  · rw [if_pos hfailure]
    intro b₂ h₂
    exact hreported.stable h₂
  · rw [if_neg hfailure]
    intro b₂ _ b₃ _ hnone
    cases hnone

/-- Every call of a consumer reports a closed queue as it is. -/
theorem call_watch (call : ConsumerCall) (cached : UInt64) :
    Watch c call.count (fun r => Reported c call.count r.1.failure)
      (ConsumerCall.code (T := T) c cached call) b := by
  cases call with
  | tryPop =>
    apply (tryPop_watch cached).bind
    rintro ⟨r, cached'⟩ b₁ hr
    cases r with
    | ok item =>
      intro b₂ _ hnone
      cases hnone
    | error failure => exact fun b₂ h₂ => Reported.stable hr h₂
  | tryPopMany count =>
    apply (tryPopMany_watch cached).bind
    exact fun r b₁ hr b₂ h₂ => hr.stable h₂
  | trySkipMany count =>
    apply (trySkipMany_watch cached).bind
    exact fun r b₁ hr b₂ h₂ => hr.stable h₂

end Watch

/-! ## What each thread writes -/

/-- The producer closes the queue in `close` and publishes in no other call. -/
def ProducerAccess (call : ProducerCall T) : Access T C n → Prop
  | .storeIsClosed value => call = .close ∧ value = true
  | .storeWriteIdx _ => call ≠ .close
  | .storeReadIdx _ _ => False
  | _ => True

/-- A consumer moves its own read index only. -/
def ConsumerAccess (c : Fin (n + 1)) : Access T C n → Prop
  | .storeReadIdx d _ => d = c
  | .storeIsClosed _ | .storeWriteIdx _ => False
  | _ => True

section Accesses

theorem getFirstReadIdx_within (call : ProducerCall T) :
    (Producer.getFirstReadIdx : Code T C n UInt64).Within (ProducerAccess call) fun _ => True := by
  have hfold : ∀ (cs : List (Fin (n + 1))) (first : UInt64),
      (cs.foldlM (fun firstReadIdx c => do
        let readIdx ← loadReadIdx c
        return min firstReadIdx readIdx) first : Code T C n UInt64).Within
          (ProducerAccess call) fun _ => True := by
    intro cs
    induction cs with
    | nil => exact fun _ => trivial
    | cons c cs ih => exact fun first => ⟨trivial, fun readIdx => ih _⟩
  exact hfold _ _

theorem isValidWriteIdx_within (call : ProducerCall T) (cached writeIdx : UInt64) :
    (Producer.isValidWriteIdx cached writeIdx : Code T C n _).Within (ProducerAccess call)
      fun _ => True := by
  unfold Producer.isValidWriteIdx
  by_cases hroom : writeIdx - cached ≥ C.capacity
  · rw [if_pos hroom]
    exact (getFirstReadIdx_within call).bind fun _ _ => trivial
  · rw [if_neg hroom]
    trivial

theorem writeSlots_within (call : ProducerCall T) (writeIdx : UInt64) (items : List T) (i : ℕ) :
    (Producer.writeSlots writeIdx i items : Code T C n Unit).Within (ProducerAccess call)
      fun _ => True := by
  induction items generalizing i with
  | nil => trivial
  | cons item items ih => exact ⟨trivial, fun _ => ih (i + 1)⟩

theorem producer_within (call : ProducerCall T) (cached : UInt64) :
    (ProducerCall.code cached call : Code T C n _).Within (ProducerAccess call)
      fun r => call = .close → r.1 = .closed := by
  cases call with
  | close => exact ⟨⟨rfl, rfl⟩, fun _ _ => rfl⟩
  | tryPush item =>
    have hpush : (Producer.tryPush item cached : Code T C n _).Within
        (ProducerAccess (.tryPush item)) fun _ => True := by
      refine ⟨trivial, fun writeIdx => (isValidWriteIdx_within _ _ _).bind ?_⟩
      rintro ⟨valid, cached'⟩ -
      cases valid with
      | true => exact ⟨trivial, fun _ => ⟨by simp [ProducerAccess], fun _ => trivial⟩⟩
      | false => trivial
    exact hpush.bind fun _ _ hclose => by cases hclose
  | tryPushMany items =>
    have hpush : (Producer.tryPushMany items cached : Code T C n _).Within
        (ProducerAccess (.tryPushMany items)) fun _ => True := by
      unfold Producer.tryPushMany
      by_cases hlarge : items.length > C.size
      · rw [if_pos hlarge]
        trivial
      · rw [if_neg hlarge]
        refine ⟨trivial, fun writeIdx => (isValidWriteIdx_within _ _ _).bind ?_⟩
        rintro ⟨valid, cached'⟩ -
        cases valid with
        | true =>
          apply (writeSlots_within _ writeIdx items 0).bind
          exact fun _ _ => ⟨by simp [ProducerAccess], fun _ => trivial⟩
        | false => trivial
    exact hpush.bind fun _ _ hclose => by cases hclose

theorem checkPopStatus_within (c : Fin (n + 1)) (cached readIdx count : UInt64) :
    (Consumer.checkPopStatus cached readIdx count : Code T C n _).Within (ConsumerAccess c)
      fun _ => True := by
  unfold Consumer.checkPopStatus
  by_cases hcached : cached - readIdx < count
  · rw [if_pos hcached]
    refine ⟨trivial, fun writeIdx => ?_⟩
    change Prog.Within _ _ (if writeIdx - readIdx < count then _ else _)
    by_cases hshort : writeIdx - readIdx < count
    · rw [if_pos hshort]
      exact ⟨trivial, fun _ => trivial⟩
    · rw [if_neg hshort]
      trivial
  · rw [if_neg hcached]
    trivial

theorem readSlots_within (c : Fin (n + 1)) (readIdx : UInt64) (count i : ℕ) :
    (Consumer.readSlots readIdx i count : Code T C n _).Within (ConsumerAccess c)
      fun _ => True := by
  induction count generalizing i with
  | zero => trivial
  | succ count ih => exact ⟨trivial, fun _ => (ih (i + 1)).bind fun _ _ => trivial⟩

theorem attempt_within {α : Type} (c : Fin (n + 1)) (cached count : UInt64)
    {f : ConsumeFailure × UInt64 → UInt64 → Code T C n α}
    (hf : ∀ r readIdx, (f r readIdx).Within (ConsumerAccess c) fun _ => True) :
    (loadReadIdx c >>= fun readIdx =>
      Consumer.checkPopStatus cached readIdx count >>= fun r => f r readIdx).Within
        (ConsumerAccess c) fun _ => True := by
  refine ⟨trivial, fun readIdx => ?_⟩
  exact (checkPopStatus_within c cached readIdx count).bind fun r _ => hf r readIdx

theorem consumer_within (c : Fin (n + 1)) (call : ConsumerCall) (cached : UInt64) :
    (ConsumerCall.code c cached call : Code T C n _).Within (ConsumerAccess c)
      fun _ => True := by
  cases call with
  | tryPop =>
    have hpop : (Consumer.tryPop c cached : Code T C n _).Within (ConsumerAccess c)
        fun _ => True := by
      apply attempt_within
      rintro ⟨failure, cached'⟩ readIdx
      dsimp only
      by_cases hfailure : failure ≠ .none
      · rw [if_pos hfailure]
        trivial
      · rw [if_neg hfailure]
        exact ⟨trivial, fun _ => ⟨rfl, fun _ => trivial⟩⟩
    apply hpop.bind
    rintro ⟨r, cached'⟩ -
    cases r <;> trivial
  | tryPopMany count =>
    have hpop : (Consumer.tryPopMany c count cached : Code T C n _).Within (ConsumerAccess c)
        fun _ => True := by
      apply attempt_within
      rintro ⟨failure, cached'⟩ readIdx
      dsimp only
      by_cases hfailure : failure ≠ .none
      · rw [if_pos hfailure]
        trivial
      · rw [if_neg hfailure]
        apply (readSlots_within c readIdx count.toNat 0).bind
        exact fun items _ => ⟨rfl, fun _ => trivial⟩
    exact hpop.bind fun _ _ => trivial
  | trySkipMany count =>
    have hskip : (Consumer.trySkipMany c count cached : Code T C n _).Within (ConsumerAccess c)
        fun _ => True := by
      apply attempt_within
      rintro ⟨failure, cached'⟩ readIdx
      dsimp only
      by_cases hfailure : failure ≠ .none
      · rw [if_pos hfailure]
        trivial
      · rw [if_neg hfailure]
        exact ⟨rfl, fun _ => trivial⟩
    exact hskip.bind fun _ _ => trivial

end Accesses

end ItchOrderBook.Spmc

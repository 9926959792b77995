import ItchOrderBook.Spmc.AccessRules

/-! # The calls of a consumer -/
namespace ItchOrderBook.Spmc
open AtomicProgram

variable {T : Type} {C : Capacity} {n : ℕ}

section Consumer
variable {c : Fin (n + 1)} {w w' : QueueWorld T C n}

theorem CachedWrite.stable {cached : UInt64} (h : CachedWrite c cached w)
    (hrely : ConsumerRely c w w') : CachedWrite c cached w' := by
  obtain ⟨r, hr, hlo, hhi⟩ := h
  exact ⟨r, hr, hrely.passed_eq ▸ hlo, hhi.trans hrely.pushed_grows.length_le⟩

theorem safe_readSlot {call : ConsumerCall} {α : Type} {Q : α → QueueWorld T C n → Prop} {p : ℕ}
    (hlo : passed c w.history ≤ p) (hhi : p < (pushed w.history).length)
    {next : T → Code T C n α}
    (h : ∀ w' item, ConsumerRely c w w' → Ring w' → (pushed w'.history)[p]? = some item →
      (discipline T C n).Safe (queue T C n) (.consumer c) call Q (next item) w') :
    (discipline T C n).Safe (queue T C n) (.consumer c) call Q
      (readSlot (C.slot (UInt64.ofNat p)) >>= next) w := by
  refine safe_load (by trivial) fun w' hrely hring _ => ?_
  have hrely : ConsumerRely c w w' := hrely
  have hlength := hrely.pushed_grows.length_le
  refine h w' _ hrely hring ?_
  rw [hring.window c p (hrely.passed_eq ▸ hlo) (by omega), Capacity.slot_ofNat]
  rfl

/-- What `check_pop_status` has found out for the reader of `w`. -/
structure Checked (c : Fin (n + 1)) (count : UInt64) (w : QueueWorld T C n)
    (r : ConsumeFailure × UInt64) (w' : QueueWorld T C n) : Prop where
  rely : ConsumerRely c w w'
  cached : CachedWrite c r.2 w'
  enough : r.1 = .none → ∃ q, r.2 = UInt64.ofNat q ∧ passed c w.history + count.toNat ≤ q ∧
    q ≤ (pushed w'.history).length
  short : r.1 ≠ .none → (pushed w.history).length < passed c w.history + count.toNat

theorem safe_checkPopStatus (call : ConsumerCall) {cached : UInt64} (count : UInt64)
    (hcached : CachedWrite c cached w) :
    (discipline T C n).Safe (queue T C n) (.consumer c) call (Checked c count w)
      (Consumer.checkPopStatus cached (UInt64.ofNat (passed c w.history)) count) w := by
  have hsize := C.size_le
  unfold Consumer.checkPopStatus
  by_cases hshort : cached - UInt64.ofNat (passed c w.history) < count
  · rw [if_pos hshort]
    refine safe_loadWriteIdx fun w₁ hrely₁ hring₁ _ => ?_
    have hpassed₁ : passed c w₁.history = passed c w.history := hrely₁.passed_eq
    have horder := hring₁.order c
    have hroom := hring₁.room c
    have hcached₁ : CachedWrite c (UInt64.ofNat (pushed w₁.history).length) w₁ :=
      ⟨_, rfl, horder, le_rfl⟩
    have hdiff : (UInt64.ofNat (pushed w₁.history).length -
        UInt64.ofNat (passed c w.history)).toNat =
        (pushed w₁.history).length - passed c w.history := by
      rw [← hpassed₁]
      exact ofNat_sub_toNat horder (by omega)
    by_cases hshort₁ : UInt64.ofNat (pushed w₁.history).length -
        UInt64.ofNat (passed c w.history) < count
    · rw [if_pos hshort₁]
      rw [UInt64.lt_iff_toNat_lt, hdiff] at hshort₁
      refine safe_load (by trivial) fun w₂ hrely₂ _ _ => ?_
      refine safe_ret fun w₃ hrely₃ _ _ => ?_
      have hrely : ConsumerRely c w₁ w₃ := discipline_trans (.consumer c) _ _ _ hrely₂ hrely₃
      refine ⟨discipline_trans (.consumer c) _ _ _ hrely₁ hrely, hcached₁.stable hrely, ?_, ?_⟩
      · intro h
        dsimp only at h
        split at h <;> cases h
      · intro _
        have hle := hrely₁.pushed_grows.length_le
        omega
    · rw [if_neg hshort₁]
      rw [UInt64.lt_iff_toNat_lt, hdiff] at hshort₁
      refine safe_ret fun w₂ hrely₂ _ _ => ?_
      refine ⟨discipline_trans (.consumer c) _ _ _ hrely₁ hrely₂, hcached₁.stable hrely₂, ?_, ?_⟩
      · intro _
        exact ⟨_, rfl, by omega, hrely₂.pushed_grows.length_le⟩
      · intro h
        exact absurd rfl h
  · rw [if_neg hshort]
    refine safe_ret fun w₁ hrely₁ hring₁ _ => ?_
    refine ⟨hrely₁, hcached.stable hrely₁, ?_, fun h => absurd rfl h⟩
    intro _
    obtain ⟨r, rfl, hlo, hhi⟩ := hcached.stable hrely₁
    have hroom := hring₁.room c
    rw [UInt64.lt_iff_toNat_lt, ← hrely₁.passed_eq, ofNat_sub_toNat hlo (by omega)] at hshort
    have hpassed : passed c w₁.history = passed c w.history := hrely₁.passed_eq
    exact ⟨r, rfl, by omega, hhi⟩

/-- Publishing a read index is a move every other thread relies on. -/
theorem storeReadIdx_keeps (call : ConsumerCall) (hring : Ring w)
    (hle : passed c w.history + call.count.toNat ≤ (pushed w.history).length) :
    (discipline T C n).Keeps (.consumer c) w ((queue T C n).act w (.consumer c) call
      (.storeReadIdx c (UInt64.ofNat (passed c w.history) + call.count))) := by
  have hself : passed c ((queue T C n).act w (.consumer c) call
      (.storeReadIdx c (UInt64.ofNat (passed c w.history) + call.count))).history =
      passed c w.history + call.count.toNat := if_pos rfl
  have hother : ∀ d ≠ c, passed d ((queue T C n).act w (.consumer c) call
      (.storeReadIdx c (UInt64.ofNat (passed c w.history) + call.count))).history =
      passed d w.history := fun d hd => if_neg hd.symm
  have hmono : ∀ d, passed d w.history ≤ passed d ((queue T C n).act w (.consumer c) call
      (.storeReadIdx c (UInt64.ofNat (passed c w.history) + call.count))).history := by
    intro d
    by_cases hd : d = c
    · subst hd
      rw [hself]
      exact Nat.le_add_right _ _
    · exact (hother d hd).ge
  refine ⟨?_, ?_⟩
  · constructor
    · exact hring.write
    · intro d
      by_cases hd : d = c
      · subst hd
        rw [hself, UInt64.ofNat_add, UInt64.ofNat_toNat]
        exact Function.update_self ..
      · rw [hother d hd]
        exact (Function.update_of_ne hd ..).trans (hring.read d)
    · intro d
      by_cases hd : d = c
      · subst hd
        rw [hself]
        exact hle
      · rw [hother d hd]
        exact hring.order d
    · intro d
      exact (hring.room d).trans (Nat.add_le_add_right (hmono d) _)
    · intro d p hlo hhi
      exact hring.window d p ((hmono d).trans hlo) hhi
    · intro d
      exact ⟨(hring.logged d).1.trans (hmono d), (hring.logged d).2⟩
  · intro j hj
    cases j with
    | producer => exact ⟨rfl, hmono, rfl, rfl⟩
    | consumer d =>
      have hd : d ≠ c := fun h => hj (congrArg _ h)
      exact ⟨List.prefix_rfl, hother d hd, rfl, rfl⟩

/-- Where a call of consumer `c` has not yet moved. -/
structure AtCall (c : Fin (n + 1)) (w : QueueWorld T C n) : Prop where
  consumed_eq : passed c w.history = (consumed c w.history).length
  start_le : (pushed (callStart (.consumer c) w.history)).length ≤ (pushed w.history).length

theorem AtCall.stable (h : AtCall c w) (hrely : ConsumerRely c w w') : AtCall c w' where
  consumed_eq := by
    rw [hrely.passed_eq, hrely.consumed_eq]
    exact h.consumed_eq
  start_le := by
    rw [hrely.start_eq]
    exact h.start_le.trans hrely.pushed_grows.length_le

theorem Delivered.stable {call : ConsumerCall} {r : ConsumerResult T}
    (h : Delivered c call r w) (hrely : ConsumerRely c w w') : Delivered c call r w' := by
  have hle := hrely.pushed_grows.length_le
  unfold Delivered at h ⊢
  rw [hrely.passed_eq, hrely.consumed_eq, hrely.start_eq]
  split at h
  · rename_i hnone
    rw [if_pos hnone]
    obtain ⟨hmoved, hwithin, hitems⟩ := h
    refine ⟨hmoved, hwithin.trans hle, fun hpop => ?_⟩
    obtain ⟨hlength, hslice⟩ := hitems hpop
    refine ⟨hlength, ?_⟩
    have htake : (pushed w'.history).take (consumed c w.history).length =
        (pushed w.history).take (consumed c w.history).length := by
      obtain ⟨rest, hrest⟩ := hrely.pushed_grows
      rw [← hrest, List.take_append_of_le_length (by omega)]
    rw [htake]
    exact hslice.trans hrely.pushed_grows
  · rename_i hfail
    rw [if_neg hfail]
    exact h

theorem safe_readSlots (call : ConsumerCall) (i count : ℕ)
    (hle : passed c w.history + i + count ≤ (pushed w.history).length) :
    (discipline T C n).Safe (queue T C n) (.consumer c) call
      (fun items w' => ConsumerRely c w w' ∧ items.length = count ∧
        (pushed w'.history).take (passed c w.history + i) ++ items <+: pushed w'.history)
      (Consumer.readSlots (UInt64.ofNat (passed c w.history)) i count) w := by
  induction count generalizing i w with
  | zero =>
    refine safe_ret fun w₁ hrely₁ _ _ => ⟨hrely₁, rfl, ?_⟩
    rw [List.append_nil]
    exact List.take_prefix _ _
  | succ count ih =>
    rw [Consumer.readSlots, ← UInt64.ofNat_add]
    refine safe_readSlot (Nat.le_add_right _ _) (by omega) fun w₁ item hrely₁ _ hitem => ?_
    have hpassed₁ : passed c w₁.history = passed c w.history := hrely₁.passed_eq
    have hlength₁ := hrely₁.pushed_grows.length_le
    have hrest := ih (w := w₁) (i + 1) (by omega)
    rw [hpassed₁] at hrest
    refine Discipline.Safe.bind discipline_preorder hrest ?_
    rintro items w₂ _ _ ⟨hrely₂, hcount, hslice⟩
    refine safe_ret fun w₃ hrely₃ _ _ => ?_
    have hrely : ConsumerRely c w₁ w₃ := discipline_trans (.consumer c) _ _ _ hrely₂ hrely₃
    refine ⟨discipline_trans (.consumer c) _ _ _ hrely₁ hrely, congrArg Nat.succ hcount, ?_⟩
    have hat : (pushed w₃.history)[passed c w.history + i]? = some item := by
      obtain ⟨rest, hgrown⟩ := hrely.pushed_grows
      rw [← hgrown, List.getElem?_append_left (by omega)]
      exact hitem
    have hslice₃ : (pushed w₃.history).take (passed c w.history + (i + 1)) ++ items <+:
        pushed w₃.history := by
      have htake : (pushed w₃.history).take (passed c w.history + (i + 1)) =
          (pushed w₂.history).take (passed c w.history + (i + 1)) := by
        have hlength₂ := hrely₂.pushed_grows.length_le
        obtain ⟨rest, hgrown⟩ := hrely₃.pushed_grows
        rw [← hgrown, List.take_append_of_le_length (by omega)]
      rw [htake]
      exact hslice.trans hrely₃.pushed_grows
    rw [← Nat.add_assoc, List.take_add_one, hat, Option.toList_some, List.append_assoc] at hslice₃
    exact hslice₃

theorem safe_move (call : ConsumerCall) (r : ConsumerResult T) {cached : UInt64} {q : ℕ}
    (hcall : AtCall c w) (hcached : cached = UInt64.ofNat q)
    (hlo : passed c w.history + call.count.toNat ≤ q) (hhi : q ≤ (pushed w.history).length)
    (hnone : r.failure = .none)
    (hitems : call ≠ .trySkipMany call.count → r.items.length = call.count.toNat ∧
      (pushed w.history).take (passed c w.history) ++ r.items <+: pushed w.history)
    {α : Type} {value : α} {Q : α → QueueWorld T C n → Prop}
    (hQ : ∀ w', CachedWrite c cached w' → Delivered c call r w' → Q value w') :
    (discipline T C n).Safe (queue T C n) (.consumer c) call Q
      (storeReadIdx c (UInt64.ofNat (passed c w.history) + call.count) >>= fun _ => pure value)
      w := by
  intro w₁ hrely₁ hring₁ hadm₁
  have hrely₁ : ConsumerRely c w w₁ := hrely₁
  have hcall₁ := hcall.stable hrely₁
  have hlength₁ := hrely₁.pushed_grows.length_le
  have hpassed₁ : passed c w₁.history = passed c w.history := hrely₁.passed_eq
  refine ⟨trivial, fun hadm₂ => ?_⟩
  rw [← hpassed₁]
  refine ⟨storeReadIdx_keeps call hring₁ (by omega), fun w₃ hrely₃ _ _ => ?_⟩
  have hmoved : passed c ((queue T C n).act w₁ (.consumer c) call
      (.storeReadIdx c (UInt64.ofNat (passed c w₁.history) + call.count))).history =
      passed c w₁.history + call.count.toNat := if_pos rfl
  refine hQ w₃ (CachedWrite.stable ⟨q, hcached, ?_, ?_⟩ hrely₃) (Delivered.stable ?_ hrely₃)
  · rw [hmoved]
    omega
  · exact hhi.trans hlength₁
  · refine (if_pos hnone).mpr ⟨?_, ?_, fun hpop => ?_⟩
    · rw [hmoved, hcall₁.consumed_eq]
      rfl
    · rw [hmoved]
      exact (show passed c w₁.history + call.count.toNat ≤ (pushed w₁.history).length by omega)
    · obtain ⟨hlength, hslice⟩ := hitems hpop
      refine ⟨hlength, ?_⟩
      change (pushed w₁.history).take (consumed c w₁.history).length ++ r.items <+:
        pushed w₁.history
      have htake : (pushed w₁.history).take (consumed c w₁.history).length =
          (pushed w.history).take (passed c w.history) := by
        have horder : passed c w.history ≤ (pushed w.history).length := by omega
        obtain ⟨rest, hgrown⟩ := hrely₁.pushed_grows
        rw [← hcall₁.consumed_eq, hpassed₁, ← hgrown, List.take_append_of_le_length horder]
      rw [htake]
      exact hslice.trans hrely₁.pushed_grows

theorem Checked.delivered {call : ConsumerCall} {failure : ConsumeFailure} {cached : UInt64}
    (h : Checked c call.count w (failure, cached) w') (hcall : AtCall c w)
    (hfailure : failure ≠ .none) {items : List T} : Delivered c call ⟨failure, items⟩ w' := by
  refine (if_neg hfailure).mpr ⟨(hcall.stable h.rely).consumed_eq, ?_⟩
  have hshort := h.short hfailure
  have hstart := hcall.start_le
  rw [h.rely.start_eq, h.rely.passed_eq]
  omega

theorem safe_attempt {call : ConsumerCall} {cached : UInt64} (hcached : CachedWrite c cached w)
    (hcall : AtCall c w) {α : Type} {Q : α → QueueWorld T C n → Prop}
    {f : ConsumeFailure × UInt64 → UInt64 → Code T C n α}
    (hf : ∀ r w₁ w₂, AtCall c w₁ → passed c w₂.history = passed c w₁.history →
      Checked c call.count w₁ r w₂ → (discipline T C n).Safe (queue T C n) (.consumer c) call Q
        (f r (UInt64.ofNat (passed c w₁.history))) w₂) :
    (discipline T C n).Safe (queue T C n) (.consumer c) call Q (loadReadIdx c >>= fun readIdx =>
      Consumer.checkPopStatus cached readIdx call.count >>= fun r => f r readIdx) w := by
  refine safe_loadReadIdx fun w₁ hrely₁ _ _ => ?_
  refine Discipline.Safe.bind discipline_preorder
    (safe_checkPopStatus _ call.count (hcached.stable hrely₁)) ?_
  intro r w₂ _ _ hchecked
  exact hf r w₁ w₂ (hcall.stable hrely₁) hchecked.rely.passed_eq hchecked

theorem safe_tryPop {cached : UInt64} (hcached : CachedWrite c cached w) (hcall : AtCall c w) :
    (discipline T C n).Safe (queue T C n) (.consumer c) ConsumerCall.tryPop
      (fun r w' => CachedWrite c r.2 w' ∧ match r.1 with
        | .ok item => Delivered c .tryPop ⟨.none, [item]⟩ w'
        | .error failure => failure ≠ .none ∧ Delivered c .tryPop ⟨failure, []⟩ w')
      (Consumer.tryPop c cached) w := by
  apply safe_attempt hcached hcall
  rintro ⟨failure, cached'⟩ w₁ w₂ hcall₁ hpassed₂ hchecked
  dsimp only
  by_cases hfailure : failure ≠ .none
  · rw [if_pos hfailure]
    refine safe_ret fun w₃ hrely₃ _ _ => ⟨hchecked.cached.stable hrely₃, hfailure, ?_⟩
    exact (hchecked.delivered hcall₁ hfailure).stable hrely₃
  · rw [if_neg hfailure]
    obtain ⟨q, hq, hlo, hhi⟩ := hchecked.enough (not_not.mp hfailure)
    have hone : ConsumerCall.tryPop.count.toNat = 1 := rfl
    rw [hone] at hlo
    refine safe_readSlot hpassed₂.le (by omega) fun w₃ item hrely₃ _ hitem => ?_
    have hpassed₃ : passed c w₃.history = passed c w₁.history := hrely₃.passed_eq.trans hpassed₂
    have hlength₃ := hrely₃.pushed_grows.length_le
    have hslice := List.take_prefix (passed c w₁.history + 1) (pushed w₃.history)
    rw [List.take_add_one, hitem, Option.toList_some] at hslice
    rw [← hpassed₃] at hslice hlo ⊢
    refine safe_move .tryPop ⟨.none, [item]⟩ ((hcall₁.stable hchecked.rely).stable hrely₃) hq
      hlo (hhi.trans hlength₃) rfl (fun _ => ⟨rfl, hslice⟩) ?_
    exact fun w' hcached' hdelivered => ⟨hcached', hdelivered⟩

theorem safe_tryPopMany {cached : UInt64} (count : UInt64) (hcached : CachedWrite c cached w)
    (hcall : AtCall c w) :
    (discipline T C n).Safe (queue T C n) (.consumer c) (ConsumerCall.tryPopMany count)
      (fun r w' => CachedWrite c r.2 w' ∧ Delivered c (.tryPopMany count) ⟨r.1.1, r.1.2⟩ w')
      (Consumer.tryPopMany c count cached) w := by
  apply safe_attempt hcached hcall
  rintro ⟨failure, cached'⟩ w₁ w₂ hcall₁ hpassed₂ hchecked
  dsimp only
  by_cases hfailure : failure ≠ .none
  · rw [if_pos hfailure]
    refine safe_ret fun w₃ hrely₃ _ _ => ⟨hchecked.cached.stable hrely₃, ?_⟩
    exact (hchecked.delivered hcall₁ hfailure).stable hrely₃
  · rw [if_neg hfailure]
    obtain ⟨q, hq, hlo, hhi⟩ := hchecked.enough (not_not.mp hfailure)
    change passed c w₁.history + count.toNat ≤ q at hlo
    rw [← hpassed₂] at hlo ⊢
    refine Discipline.Safe.bind discipline_preorder
      (safe_readSlots _ 0 count.toNat (by omega)) ?_
    rintro items w₃ _ _ ⟨hrely₃, hcount, hslice⟩
    rw [Nat.add_zero, ← hrely₃.passed_eq] at hslice
    rw [← hrely₃.passed_eq] at hlo ⊢
    refine safe_move (.tryPopMany count) ⟨.none, items⟩
      ((hcall₁.stable hchecked.rely).stable hrely₃) hq hlo
      (hhi.trans hrely₃.pushed_grows.length_le) rfl (fun _ => ⟨hcount, hslice⟩) ?_
    exact fun w' hcached' hdelivered => ⟨hcached', hdelivered⟩

theorem safe_trySkipMany {cached : UInt64} (count : UInt64) (hcached : CachedWrite c cached w)
    (hcall : AtCall c w) :
    (discipline T C n).Safe (queue T C n) (.consumer c) (ConsumerCall.trySkipMany count)
      (fun r w' => CachedWrite c r.2 w' ∧ Delivered c (.trySkipMany count) ⟨r.1, []⟩ w')
      (Consumer.trySkipMany c count cached) w := by
  apply safe_attempt hcached hcall
  rintro ⟨failure, cached'⟩ w₁ w₂ hcall₁ hpassed₂ hchecked
  dsimp only
  by_cases hfailure : failure ≠ .none
  · rw [if_pos hfailure]
    refine safe_ret fun w₃ hrely₃ _ _ => ⟨hchecked.cached.stable hrely₃, ?_⟩
    exact (hchecked.delivered hcall₁ hfailure).stable hrely₃
  · rw [if_neg hfailure]
    obtain ⟨q, hq, hlo, hhi⟩ := hchecked.enough (not_not.mp hfailure)
    rw [← hpassed₂] at hlo ⊢
    refine safe_move (.trySkipMany count) ⟨.none, []⟩ (hcall₁.stable hchecked.rely) hq hlo
      hhi rfl (fun hpop => absurd rfl hpop) ?_
    exact fun w' hcached' hdelivered => ⟨hcached', hdelivered⟩

theorem safe_consumer (call : ConsumerCall) {cached : UInt64} (hcached : CachedWrite c cached w)
    (hcall : AtCall c w) :
    (discipline T C n).Safe (queue T C n) (.consumer c) call
      ((discipline T C n).post (.consumer c) call) (ConsumerCall.code c cached call) w := by
  cases call with
  | tryPop =>
    refine Discipline.Safe.bind discipline_preorder (safe_tryPop hcached hcall) ?_
    rintro ⟨r, cached'⟩ w₁ _ _ ⟨hcached₁, hr⟩
    cases r with
    | ok item =>
      exact safe_ret fun w₂ hrely₂ _ _ => ⟨hcached₁.stable hrely₂, Delivered.stable hr hrely₂⟩
    | error failure =>
      exact safe_ret fun w₂ hrely₂ _ _ => ⟨hcached₁.stable hrely₂, hr.2.stable hrely₂⟩
  | tryPopMany count =>
    refine Discipline.Safe.bind discipline_preorder (safe_tryPopMany count hcached hcall) ?_
    rintro ⟨r, cached'⟩ w₁ _ _ ⟨hcached₁, hr⟩
    exact safe_ret fun w₂ hrely₂ _ _ => ⟨hcached₁.stable hrely₂, hr.stable hrely₂⟩
  | trySkipMany count =>
    refine Discipline.Safe.bind discipline_preorder (safe_trySkipMany count hcached hcall) ?_
    rintro ⟨r, cached'⟩ w₁ _ _ ⟨hcached₁, hr⟩
    exact safe_ret fun w₂ hrely₂ _ _ => ⟨hcached₁.stable hrely₂, hr.stable hrely₂⟩

end Consumer

end ItchOrderBook.Spmc

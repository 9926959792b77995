import ItchOrderBook.Spmc.AccessRules

/-! # The calls of the producer -/
namespace ItchOrderBook.Spmc
open AtomicProgram

variable {T : Type} {C : Capacity} {n : ℕ}

section Producer
variable {w w' : QueueWorld T C n} {call : ProducerCall T} {q : ℕ} {cached : UInt64}

theorem CachedRead.stable (h : CachedRead q cached w)
    (hpassed : ∀ c, passed c w.history ≤ passed c w'.history) : CachedRead q cached w' := by
  obtain ⟨r, hr, hlo, hhi⟩ := h
  exact ⟨r, hr, fun c => (hlo c).trans (hpassed c), hhi⟩

theorem min_max_word (x : UInt64) : min (UInt64.ofNat (2 ^ 64 - 1)) x = x := by
  by_cases h : UInt64.ofNat (2 ^ 64 - 1) ≤ x
  · have hlt := x.toNat_lt
    rw [UInt64.le_iff_toNat_le, UInt64.toNat_ofNat'] at h
    have hx : x = UInt64.ofNat (2 ^ 64 - 1) := by
      apply UInt64.toNat_inj.mp
      rw [UInt64.toNat_ofNat']
      omega
    rw [hx]
    exact ite_self _
  · exact if_neg h

/-- Below 2^64 items the running minimum of the read indices is that of the positions. -/
theorem safe_foldReadIdx (hn : n ≠ 0) (cs : List (Fin (n + 1))) {m : ℕ} (hm : m < 2 ^ 64)
    (hroom : (pushed w.history).length ≤ m + C.size) :
    (discipline T C n).Safe (queue T C n) .producer call
      (fun first w' => ProducerRely w w' ∧ ∃ r, first = UInt64.ofNat r ∧ r ≤ m ∧
        (∀ c ∈ cs, r ≤ passed c w'.history) ∧ (pushed w'.history).length ≤ r + C.size)
      (cs.foldlM (fun firstReadIdx c => do
        let readIdx ← loadReadIdx c
        return min firstReadIdx readIdx) (UInt64.ofNat m)) w := by
  induction cs generalizing w m with
  | nil =>
    refine safe_ret fun w₁ hrely₁ _ _ => ⟨hrely₁, m, rfl, le_rfl, List.forall_mem_nil _, ?_⟩
    rw [hrely₁.pushed_eq]
    exact hroom
  | cons c cs ih =>
    change Discipline.Safe _ _ _ _ _ (loadReadIdx c >>= fun readIdx =>
      cs.foldlM _ (min (UInt64.ofNat m) readIdx)) w
    refine safe_loadReadIdx fun w₁ hrely₁ hring₁ hadm₁ => ?_
    have hrely₁ : ProducerRely w w₁ := hrely₁
    have hbound := hadm₁.resolve_left hn
    have horder := hring₁.order c
    rw [min_ofNat hm (by omega)]
    have hroom₁ : (pushed w₁.history).length ≤ min m (passed c w₁.history) + C.size := by
      have hpushed := congrArg List.length hrely₁.pushed_eq
      have hc := hring₁.room c
      omega
    refine (ih (w := w₁) (by omega) hroom₁).mono ?_
    rintro first w₂ _ _ ⟨hrely₂, r, hr, hle, hcs, hr'⟩
    refine ⟨discipline_trans .producer _ _ _ hrely₁ hrely₂, r, hr, by omega, ?_, hr'⟩
    intro d hd
    rcases List.mem_cons.mp hd with rfl | hd
    · have hmono := hrely₂.passed_le d
      omega
    · exact hcs d hd

theorem safe_getFirstReadIdx :
    (discipline T C n).Safe (queue T C n) .producer call
      (fun first w' => ProducerRely w w' ∧ CachedRead (pushed w'.history).length first w')
      Producer.getFirstReadIdx w := by
  by_cases hn : n = 0
  · -- a single read index is its own minimum, whatever it has wrapped to
    subst hn
    change Discipline.Safe _ _ _ _ _ (loadReadIdx 0 >>= fun readIdx =>
      Prog.ret (min (UInt64.ofNat (2 ^ 64 - 1)) readIdx)) w
    refine safe_loadReadIdx fun w₁ hrely₁ hring₁ _ => ?_
    rw [min_max_word]
    refine safe_ret fun w₂ hrely₂ _ _ => ?_
    have hrely₂ : ProducerRely w₁ w₂ := hrely₂
    refine ⟨discipline_trans .producer _ _ _ hrely₁ hrely₂, passed 0 w₁.history, rfl, ?_, ?_⟩
    · intro c
      rw [Fin.fin_one_eq_zero c]
      exact hrely₂.passed_le 0
    · rw [hrely₂.pushed_eq]
      exact hring₁.room 0
  · refine Discipline.Safe.of_later discipline_preorder fun w₁ hrely₁ _ hadm₁ => ?_
    have hbound := hadm₁.resolve_left hn
    refine (safe_foldReadIdx hn (List.finRange (n + 1)) (by decide) (by omega)).mono ?_
    rintro first w₂ _ _ ⟨hrely₂, r, hr, -, hcs, hroom⟩
    exact ⟨discipline_trans .producer _ _ _ hrely₁ hrely₂, r, hr,
      fun c => hcs c (List.mem_finRange c), hroom⟩

/-- What `is_valid_write_idx` has found out about position `q`. -/
structure Validated (q : ℕ) (w : QueueWorld T C n) (r : Bool × UInt64) (w' : QueueWorld T C n) :
    Prop where
  rely : ProducerRely w w'
  cached : CachedRead (pushed w'.history).length r.2 w'
  valid : r.1 = true → (pushed w.history).length ≤ q → q < (pushed w.history).length + C.size →
    CachedRead (q + 1) r.2 w'

theorem CachedRead.extend (hcached : CachedRead (pushed w.history).length cached w)
    (hring : Ring w) (hlo : (pushed w.history).length ≤ q)
    (hhi : q < (pushed w.history).length + C.size)
    (hvalid : UInt64.ofNat q - cached < C.capacity) : CachedRead (q + 1) cached w := by
  obtain ⟨r, rfl, hr, hroom⟩ := hcached
  have hsize := C.size_le
  have hr₀ := (hr 0).trans (hring.order 0)
  refine ⟨r, rfl, hr, ?_⟩
  rw [UInt64.lt_iff_toNat_lt, ofNat_sub_toNat (by omega) (by omega), C.capacity_toNat] at hvalid
  omega

theorem safe_isValidWriteIdx (q : ℕ) (hcached : CachedRead (pushed w.history).length cached w) :
    (discipline T C n).Safe (queue T C n) .producer call (Validated q w)
      (Producer.isValidWriteIdx cached (UInt64.ofNat q)) w := by
  unfold Producer.isValidWriteIdx
  by_cases hfull : UInt64.ofNat q - cached ≥ C.capacity
  · rw [if_pos hfull]
    refine Discipline.Safe.bind discipline_preorder safe_getFirstReadIdx ?_
    rintro first w₁ hring₁ _ ⟨hrely₁, hfirst⟩
    refine safe_ret fun w₂ hrely₂ _ _ => ?_
    have hrely₂ : ProducerRely w₁ w₂ := hrely₂
    refine ⟨discipline_trans .producer _ _ _ hrely₁ hrely₂, ?_, fun hvalid hlo hhi => ?_⟩
    · rw [hrely₂.pushed_eq]
      exact hfirst.stable hrely₂.passed_le
    · rw [← hrely₁.pushed_eq] at hlo hhi
      exact (hfirst.extend hring₁ hlo hhi (of_decide_eq_true hvalid)).stable hrely₂.passed_le
  · rw [if_neg hfull]
    refine safe_ret fun w₁ hrely₁ hring₁ _ => ?_
    have hrely₁ : ProducerRely w w₁ := hrely₁
    have hcached₁ : CachedRead (pushed w₁.history).length cached w₁ := by
      rw [hrely₁.pushed_eq]
      exact hcached.stable hrely₁.passed_le
    refine ⟨hrely₁, hcached₁, fun _ hlo hhi => ?_⟩
    rw [← hrely₁.pushed_eq] at hlo hhi
    exact hcached₁.extend hring₁ hlo hhi (UInt64.not_le.mp hfull)

/-- The slots behind the writer hold the items about to be published. -/
def Written (items : List T) (w : QueueWorld T C n) : Prop :=
  ∀ j item, items[j]? = some item →
    w.shared.buffer (C.slotAt ((pushed w.history).length + j)) = item

/-- Since `w` the producer has published nothing. -/
structure Unpublished (w w' : QueueWorld T C n) : Prop where
  pushed_eq : pushed w'.history = pushed w.history
  passed_le : ∀ c, passed c w.history ≤ passed c w'.history
  start_eq : callStart .producer w'.history = callStart .producer w.history

theorem ProducerRely.unpublished (h : ProducerRely w w') : Unpublished w w' :=
  ⟨h.pushed_eq, h.passed_le, h.start_eq⟩

theorem Unpublished.trans {w'' : QueueWorld T C n} (h : Unpublished w w')
    (h' : Unpublished w' w'') : Unpublished w w'' :=
  ⟨h'.pushed_eq.trans h.pushed_eq, fun c => (h.passed_le c).trans (h'.passed_le c),
    h'.start_eq.trans h.start_eq⟩

theorem Written.stable {items : List T} (h : Written items w) (hrely : ProducerRely w w') :
    Written items w' := by
  intro j item hj
  rw [hrely.buffer_eq, hrely.pushed_eq]
  exact h j item hj

/-- Writing a slot behind the writer is a move every consumer relies on. -/
theorem writeSlot_keeps (call : ProducerCall T) (hring : Ring w) (hq : (pushed w.history).length ≤ q)
    (hcached : CachedRead (q + 1) cached w) (item : T) :
    (∀ c p, passed c w.history ≤ p → p < (pushed w.history).length →
      C.slotAt p ≠ C.slotAt q) ∧
    (discipline T C n).Keeps .producer w
      ((queue T C n).act w .producer call (.writeSlot (C.slotAt q) item)) := by
  obtain ⟨r, -, hr, hroom⟩ := hcached
  have hfree : ∀ c p, passed c w.history ≤ p → p < (pushed w.history).length →
      C.slotAt p ≠ C.slotAt q := by
    intro c p hlo hhi
    have hc := hr c
    exact Capacity.slotAt_ne (by omega) (by omega)
  refine ⟨hfree, ⟨hring.write, hring.read, hring.order, hring.room, ?_, hring.logged⟩, ?_⟩
  · intro c p hlo hhi
    refine (hring.window c p hlo hhi).trans (congrArg some ?_)
    exact (Function.update_of_ne (hfree c p hlo hhi) ..).symm
  · intro j hj
    cases j with
    | producer => exact absurd rfl hj
    | consumer d => exact ⟨List.prefix_rfl, rfl, rfl, rfl⟩

theorem safe_writeSlot {done : List T} (item : T) (hdone : Written done w)
    (hfits : done.length < C.size)
    (hcached : CachedRead ((pushed w.history).length + done.length + 1) cached w)
    {α : Type} {Q : α → QueueWorld T C n → Prop} {next : Unit → Code T C n α}
    (h : ∀ w', Unpublished w w' → Written (done ++ [item]) w' →
      (discipline T C n).Safe (queue T C n) .producer call Q (next ()) w') :
    (discipline T C n).Safe (queue T C n) .producer call Q
      (writeSlot (C.slotAt ((pushed w.history).length + done.length)) item >>= next) w := by
  intro w₁ hrely₁ hring₁ _
  have hrely₁ : ProducerRely w w₁ := hrely₁
  rw [← hrely₁.pushed_eq] at hcached ⊢
  obtain ⟨hbefore, hkeeps⟩ := writeSlot_keeps call hring₁ (Nat.le_add_right _ _)
    (hcached.stable hrely₁.passed_le) item
  refine ⟨hbefore, fun _ => ⟨hkeeps, ?_⟩⟩
  have hown : Unpublished w₁ ((queue T C n).act w₁ .producer call (.writeSlot
      (C.slotAt ((pushed w₁.history).length + done.length)) item)) :=
    ⟨rfl, fun _ => le_rfl, rfl⟩
  refine h _ (hrely₁.unpublished.trans hown) ?_
  intro j x hj
  change Function.update w₁.shared.buffer _ item _ = x
  rcases Nat.lt_trichotomy j done.length with hlt | rfl | hgt
  · rw [List.getElem?_append_left hlt] at hj
    have hne : C.slotAt ((pushed w₁.history).length + j) ≠
        C.slotAt ((pushed w₁.history).length + done.length) :=
      Capacity.slotAt_ne (by omega) (by omega)
    exact (Function.update_of_ne hne ..).trans (hdone.stable hrely₁ j x hj)
  · rw [List.getElem?_concat_length] at hj
    exact (Function.update_self ..).trans (Option.some.inj hj)
  · rw [List.getElem?_eq_none (by rw [List.length_append, List.length_singleton]; omega)] at hj
    cases hj

theorem safe_writeSlots {done : List T} (items : List T) (hdone : Written done w)
    (hfits : done.length + items.length ≤ C.size)
    (hcached : CachedRead ((pushed w.history).length + done.length + items.length) cached w) :
    (discipline T C n).Safe (queue T C n) .producer call
      (fun _ w' => Unpublished w w' ∧ Written (done ++ items) w')
      (Producer.writeSlots (UInt64.ofNat (pushed w.history).length) done.length items) w := by
  induction items generalizing w done with
  | nil =>
    refine safe_ret fun w₁ hrely₁ _ _ => ⟨hrely₁.unpublished, ?_⟩
    rw [List.append_nil]
    exact hdone.stable hrely₁
  | cons item items ih =>
    rw [List.length_cons] at hfits hcached
    rw [Producer.writeSlots, ← UInt64.ofNat_add, Capacity.slot_ofNat]
    have hcached₁ : CachedRead ((pushed w.history).length + done.length + 1) cached w := by
      obtain ⟨r, hr, hlo, hhi⟩ := hcached
      exact ⟨r, hr, hlo, by omega⟩
    refine safe_writeSlot item hdone (by omega) hcached₁ fun w₁ hmoved₁ hwritten₁ => ?_
    have hcached' := hcached.stable hmoved₁.passed_le
    have hlength : (done ++ [item]).length = done.length + 1 := by simp
    rw [← hmoved₁.pushed_eq] at hcached' ⊢
    have hrest := ih hwritten₁ (by omega)
      (by rwa [hlength, Nat.add_assoc, Nat.add_assoc, Nat.add_comm 1, ← Nat.add_assoc])
    rw [hlength, List.append_assoc, List.singleton_append] at hrest
    refine hrest.mono ?_
    rintro _ w₂ _ _ ⟨hmoved₂, hwritten₂⟩
    exact ⟨hmoved₁.trans hmoved₂, hwritten₂⟩

/-- Publishing the items written behind the writer is a move every consumer relies on. -/
theorem storeWriteIdx_keeps (hring : Ring w) (hwritten : Written call.items w)
    (hcached : CachedRead ((pushed w.history).length + call.items.length) cached w) :
    (discipline T C n).Keeps .producer w ((queue T C n).act w .producer call
      (.storeWriteIdx (UInt64.ofNat ((pushed w.history).length + call.items.length)))) := by
  obtain ⟨r, -, hr, hroom⟩ := hcached
  refine ⟨⟨?_, hring.read, ?_, ?_, ?_, ?_⟩, ?_⟩
  · exact congrArg UInt64.ofNat List.length_append.symm
  · intro c
    exact (hring.order c).trans (List.prefix_append _ call.items).length_le
  · intro c
    have hc := hr c
    change (pushed w.history ++ call.items).length ≤ passed c w.history + C.size
    rw [List.length_append]
    omega
  · intro c p hlo hhi
    change (pushed w.history ++ call.items)[p]? = some (w.shared.buffer (C.slotAt p))
    have hhi : p < (pushed w.history ++ call.items).length := hhi
    rw [List.length_append] at hhi
    by_cases hold : p < (pushed w.history).length
    · rw [List.getElem?_append_left hold]
      exact hring.window c p hlo hold
    · rw [List.getElem?_append_right (Nat.not_lt.mp hold)]
      have hsome : p - (pushed w.history).length < call.items.length := by omega
      have hslot := hwritten _ _ (List.getElem?_eq_getElem hsome)
      rw [Nat.add_sub_cancel' (Nat.not_lt.mp hold)] at hslot
      rw [hslot, List.getElem?_eq_getElem hsome]
  · intro c
    exact ⟨(hring.logged c).1, (hring.logged c).2.mono (List.prefix_append _ _)⟩
  · intro j hj
    cases j with
    | producer => exact absurd rfl hj
    | consumer d => exact ⟨List.prefix_append _ _, rfl, rfl, rfl⟩

theorem safe_publish (call : ProducerCall T) (hwritten : Written call.items w)
    (hcached : CachedRead ((pushed w.history).length + call.items.length) cached w)
    (hstart : pushed w.history = pushed (callStart .producer w.history))
    {α : Type} {value : α} {Q : α → QueueWorld T C n → Prop}
    (hQ : ∀ w', CachedRead (pushed w'.history).length cached w' →
      Published call (.response .success) w' → Q value w') :
    (discipline T C n).Safe (queue T C n) .producer call Q
      (storeWriteIdx (UInt64.ofNat ((pushed w.history).length + call.items.length)) >>=
        fun _ => pure value) w := by
  intro w₁ hrely₁ hring₁ _
  have hrely₁ : ProducerRely w w₁ := hrely₁
  have hcached₁ := hcached.stable hrely₁.passed_le
  have hstart₁ : pushed w₁.history = pushed (callStart .producer w₁.history) := by
    rw [hrely₁.pushed_eq, hrely₁.start_eq]
    exact hstart
  rw [← hrely₁.pushed_eq] at hcached₁ ⊢
  refine ⟨hstart₁, fun _ => ⟨storeWriteIdx_keeps hring₁ (hwritten.stable hrely₁) hcached₁, ?_⟩⟩
  refine safe_ret fun w₃ hrely₃ _ _ => ?_
  have hrely₃ : ProducerRely _ w₃ := hrely₃
  refine hQ w₃ ?_ ?_
  · rw [hrely₃.pushed_eq]
    refine CachedRead.stable ?_ hrely₃.passed_le
    change CachedRead (pushed w₁.history ++ call.items).length cached _
    rw [List.length_append]
    exact hcached₁
  · rw [Published, hrely₃.pushed_eq, hrely₃.start_eq]
    change pushed w₁.history ++ call.items = pushed (callStart .producer w₁.history) ++ call.items
    rw [← hstart₁]

theorem safe_refuse {r : ProducerResult} (hr : r ≠ .response .success)
    (hcached : CachedRead (pushed w.history).length cached w)
    (hstart : pushed w.history = pushed (callStart .producer w.history))
    {α : Type} {value : α} {Q : α → QueueWorld T C n → Prop}
    (hQ : ∀ w', CachedRead (pushed w'.history).length cached w' → Published call r w' → Q value w') :
    (discipline T C n).Safe (queue T C n) .producer call Q (.ret value) w := by
  refine safe_ret fun w₁ hrely₁ _ _ => ?_
  have hrely₁ : ProducerRely w w₁ := hrely₁
  refine hQ w₁ ?_ ?_
  · rw [hrely₁.pushed_eq]
    exact hcached.stable hrely₁.passed_le
  · rw [Published, hrely₁.pushed_eq, hrely₁.start_eq, ← hstart, List.append_nil]
    exact hr

theorem safe_tryPush (item : T) (hcached : CachedRead (pushed w.history).length cached w)
    (hstart : pushed w.history = pushed (callStart .producer w.history)) :
    (discipline T C n).Safe (queue T C n) .producer (ProducerCall.tryPush item)
      (fun r w' => CachedRead (pushed w'.history).length r.2 w' ∧
        Published (ProducerCall.tryPush item) (.response r.1) w')
      (Producer.tryPush item cached) w := by
  refine safe_loadWriteIdx fun w₁ hrely₁ _ _ => ?_
  have hrely₁ : ProducerRely w w₁ := hrely₁
  rw [← hrely₁.pushed_eq] at hcached
  rw [← hrely₁.pushed_eq, ← hrely₁.start_eq] at hstart
  refine Discipline.Safe.bind discipline_preorder
    (safe_isValidWriteIdx _ (hcached.stable hrely₁.passed_le)) ?_
  rintro ⟨valid, cached'⟩ w₂ _ _ hchecked
  have hpushed₂ : pushed w₂.history = pushed w₁.history := hchecked.rely.pushed_eq
  rw [← hpushed₂, ← hchecked.rely.start_eq] at hstart
  dsimp only
  cases valid with
  | false =>
    refine safe_refuse (by simp) hchecked.cached hstart fun w' hc hp => ⟨hc, hp⟩
  | true =>
    have hroom := hchecked.valid rfl le_rfl (Nat.lt_add_of_pos_right C.size_pos)
    rw [← hpushed₂] at hroom ⊢
    rw [if_pos rfl, Capacity.slot_ofNat]
    have hnone : Written ([] : List T) w₂ := fun j x hj => by simp at hj
    refine safe_writeSlot item hnone C.size_pos hroom fun w₃ hmoved₃ hwritten₃ => ?_
    rw [← hmoved₃.pushed_eq, ← hmoved₃.start_eq] at hstart
    have hroom₃ := hroom.stable hmoved₃.passed_le
    rw [← hmoved₃.pushed_eq] at hroom₃ ⊢
    change Discipline.Safe _ _ _ _ _
      (storeWriteIdx (UInt64.ofNat (pushed w₃.history).length + UInt64.ofNat 1) >>= _) w₃
    rw [← UInt64.ofNat_add]
    exact safe_publish (.tryPush item) hwritten₃ hroom₃ hstart fun w' hc hp => ⟨hc, hp⟩

theorem finalWriteIdx_eq {len wr : ℕ} (hlen : 0 < len) :
    UInt64.ofNat len - 1 + UInt64.ofNat wr = UInt64.ofNat (wr + (len - 1)) := by
  obtain ⟨k, rfl⟩ := Nat.exists_eq_add_of_lt hlen
  rw [Nat.zero_add, Nat.add_sub_cancel, UInt64.ofNat_add wr k, UInt64.ofNat_add k 1,
    UInt64.add_comm (UInt64.ofNat wr)]
  congr 1
  exact UInt64.add_sub_cancel ..

theorem safe_tryPushMany (items : List T)
    (hcached : CachedRead (pushed w.history).length cached w)
    (hstart : pushed w.history = pushed (callStart .producer w.history)) :
    (discipline T C n).Safe (queue T C n) .producer (ProducerCall.tryPushMany items)
      (fun r w' => CachedRead (pushed w'.history).length r.2 w' ∧
        Published (ProducerCall.tryPushMany items) (.response r.1) w')
      (Producer.tryPushMany items cached) w := by
  unfold Producer.tryPushMany
  by_cases hlarge : items.length > C.size
  · rw [if_pos hlarge]
    exact safe_refuse (by simp) hcached hstart fun w' hc hp => ⟨hc, hp⟩
  rw [if_neg hlarge]
  refine safe_loadWriteIdx fun w₁ hrely₁ _ _ => ?_
  have hrely₁ : ProducerRely w w₁ := hrely₁
  rw [← hrely₁.pushed_eq] at hcached
  rw [← hrely₁.pushed_eq, ← hrely₁.start_eq] at hstart
  let wr := (pushed w₁.history).length
  -- the last index as a position, modulo 2^64 below the writer for an empty batch
  obtain ⟨q, hq, hlast⟩ : ∃ q, UInt64.ofNat items.length - 1 + UInt64.ofNat wr = UInt64.ofNat q ∧
      (0 < items.length → q = wr + (items.length - 1)) := by
    rcases Nat.eq_zero_or_pos items.length with h0 | hpos
    · exact ⟨(UInt64.ofNat items.length - 1 + UInt64.ofNat wr).toNat, UInt64.ofNat_toNat.symm,
        fun h => absurd h (by omega)⟩
    · exact ⟨_, finalWriteIdx_eq hpos, fun _ => rfl⟩
  dsimp only
  rw [hq]
  refine Discipline.Safe.bind discipline_preorder
    (safe_isValidWriteIdx q (hcached.stable hrely₁.passed_le)) ?_
  rintro ⟨valid, cached'⟩ w₂ _ _ hchecked
  have hpushed₂ : pushed w₂.history = pushed w₁.history := hchecked.rely.pushed_eq
  rw [← hpushed₂, ← hchecked.rely.start_eq] at hstart
  dsimp only
  cases valid with
  | false =>
    exact safe_refuse (by simp) hchecked.cached hstart fun w' hc hp => ⟨hc, hp⟩
  | true =>
    have hroom : CachedRead ((pushed w₂.history).length + items.length) cached' w₂ := by
      rcases Nat.eq_zero_or_pos items.length with h0 | hpos
      · rw [h0]
        exact hchecked.cached
      · have hqeq := hlast hpos
        have hval := hchecked.valid rfl (by omega) (by omega)
        have hsum : q + 1 = (pushed w₂.history).length + items.length := by
          rw [hpushed₂]
          omega
        rwa [hsum] at hval
    have hnext : UInt64.ofNat q + 1 =
        UInt64.ofNat ((pushed w₂.history).length + items.length) := by
      rw [← hq, hpushed₂, UInt64.ofNat_add, UInt64.add_comm (UInt64.ofNat wr)]
      rw [UInt64.add_assoc, UInt64.add_comm (UInt64.ofNat wr) 1, ← UInt64.add_assoc,
        UInt64.sub_add_cancel]
    rw [if_pos rfl, hnext, ← hpushed₂]
    have hnone : Written ([] : List T) w₂ := fun j x hj => by simp at hj
    refine Discipline.Safe.bind discipline_preorder
      (safe_writeSlots items hnone (by simpa using hlarge) hroom) ?_
    rintro _ w₃ _ _ ⟨hmoved₃, hwritten₃⟩
    rw [← hmoved₃.pushed_eq, ← hmoved₃.start_eq] at hstart
    have hroom₃ := hroom.stable hmoved₃.passed_le
    rw [← hmoved₃.pushed_eq] at hroom₃ ⊢
    exact safe_publish (.tryPushMany items) hwritten₃ hroom₃ hstart
      fun w' hc hp => ⟨hc, hp⟩

theorem safe_producer (call : ProducerCall T)
    (hcached : CachedRead (pushed w.history).length cached w)
    (hstart : pushed w.history = pushed (callStart .producer w.history)) :
    (discipline T C n).Safe (queue T C n) .producer call
      ((discipline T C n).post .producer call) (ProducerCall.code cached call) w := by
  have hreturn : ∀ (r : ProducerResult) (cached' : UInt64) (w₁ : QueueWorld T C n),
      CachedRead (pushed w₁.history).length cached' w₁ → Published call r w₁ →
      (discipline T C n).Safe (queue T C n) .producer call
        ((discipline T C n).post .producer call) (.ret (r, cached')) w₁ := by
    intro r cached' w₁ hcached₁ hpublished
    refine safe_ret fun w₂ hrely₂ _ _ => ?_
    have hrely₂ : ProducerRely w₁ w₂ := hrely₂
    refine ⟨?_, ?_⟩
    · rw [hrely₂.pushed_eq]
      exact hcached₁.stable hrely₂.passed_le
    · unfold Published at hpublished ⊢
      rw [hrely₂.pushed_eq, hrely₂.start_eq]
      exact hpublished
  cases call with
  | tryPush item =>
    refine Discipline.Safe.bind discipline_preorder (safe_tryPush item hcached hstart) ?_
    rintro ⟨r, cached'⟩ w₁ _ _ ⟨hcached₁, hpublished⟩
    exact hreturn _ _ _ hcached₁ hpublished
  | tryPushMany items =>
    refine Discipline.Safe.bind discipline_preorder (safe_tryPushMany items hcached hstart) ?_
    rintro ⟨r, cached'⟩ w₁ _ _ ⟨hcached₁, hpublished⟩
    exact hreturn _ _ _ hcached₁ hpublished
  | close =>
    intro w₁ hrely₁ hring₁ _
    have hrely₁ : ProducerRely w w₁ := hrely₁
    have hsame : Unchanged w₁ ((queue T C n).act w₁ .producer ProducerCall.close
        (.storeIsClosed true)) := ⟨rfl, rfl, rfl, rfl, fun _ => rfl, fun _ => rfl⟩
    refine ⟨trivial, fun _ => ⟨⟨hring₁.of_unchanged hsame, fun j _ =>
      rely_of_unchanged hsame rfl⟩, ?_⟩⟩
    refine safe_refuse (by simp) ?_ ?_ fun w' hc hp => ⟨hc, hp⟩
    · exact (hrely₁.pushed_eq ▸ hcached.stable hrely₁.passed_le :
        CachedRead (pushed w₁.history).length cached w₁)
    · change pushed w₁.history = pushed (callStart .producer w₁.history)
      rw [hrely₁.pushed_eq, hrely₁.start_eq]
      exact hstart

end Producer

end ItchOrderBook.Spmc

import ItchOrderBook.Util.OpenAddressMap

/-! # What the map operations do to the stored keys

Each operation gets one specification in terms of the cells it leaves: the probe
loop ends at the key, at a slot where the key may be stored, or finds the table
full of other keys. The invariant is that the table is well probed.
-/
namespace ItchOrderBook.Util
open OpenAddressing

section Cell
variable {Key Value : Type} {slot : Slot Key Value}

@[simp] theorem Slot.cell_eq_empty : slot.cell = .empty ↔ slot.state = .empty := by
  unfold Slot.cell
  split <;> simp_all

@[simp] theorem Slot.cell_eq_dead : slot.cell = .dead ↔ slot.state = .tombstone := by
  unfold Slot.cell
  split <;> simp_all

@[simp] theorem Slot.cell_eq_live {k : Key} {v : Value} :
    slot.cell = .live k v ↔ slot.state = .occupied ∧ slot.key = k ∧ slot.value = v := by
  unfold Slot.cell
  split <;> simp_all

end Cell

namespace OpenAddressMap

variable {bits : ℕ} {Key Value : Type} {probe : Probe} {rehashes : Bool}

def cellsOf (table : Fin (2 ^ bits) → Slot Key Value) : Table (Fin (2 ^ bits)) Key Value :=
  fun i => (table i).cell

def cells (m : OpenAddressMap bits Key Value probe rehashes) : Table (Fin (2 ^ bits)) Key Value :=
  cellsOf m.table

/-- The slots a key is looked for in, in order. -/
def path [SizeKey Key] (bits : ℕ) (probe : Probe) (key : Key) : ℕ → Fin (2 ^ bits) :=
  probe.walk (hash bits key)

def Sound [SizeKey Key] (m : OpenAddressMap bits Key Value probe rehashes) : Prop :=
  WellProbed (path bits probe) m.cells

/-- The finite map the table stands for. -/
noncomputable def entries (m : OpenAddressMap bits Key Value probe rehashes) : Key → Option Value :=
  content m.cells

theorem cellsOf_update (table : Fin (2 ^ bits) → Slot Key Value) (i : Fin (2 ^ bits))
    (slot : Slot Key Value) :
    cellsOf (Function.update table i slot) = Function.update (cellsOf table) i slot.cell := by
  funext j
  by_cases hj : j = i
  · subst j
    simp [cellsOf]
  · simp [cellsOf, Function.update_of_ne hj]

section Empty
variable [Inhabited Key] [Inhabited Value]

@[simp] theorem cells_default :
    (default : OpenAddressMap bits Key Value probe rehashes).cells = fun _ => .empty := rfl

theorem sound_default [SizeKey Key] :
    (default : OpenAddressMap bits Key Value probe rehashes).Sound :=
  wellProbed_empty _

@[simp] theorem entries_default (k : Key) :
    (default : OpenAddressMap bits Key Value probe rehashes).entries k = none :=
  content_empty k

end Empty

section Probing
variable [SizeKey Key]

/-- The two ways the probe loop can end, as statements about the cells. -/
def Located (probe : Probe) (T : Table (Fin (2 ^ bits)) Key Value) (key : Key) :
    Except MapFault (Fin (2 ^ bits)) → Prop
  | .ok s => Chain (path bits probe) T key s ∧
      ((∃ v, T s = .live key v) ∨
        (∀ k v, T s ≠ .live k v) ∧ ∀ t v, T t = .live key v → ¬ Chain (path bits probe) T key t)
  | .error fault => fault = .saturated ∧ ∀ s, ∃ k v, T s = .live k v ∧ k ≠ key

/-- Nothing the loop has passed is empty or holds the key; until a tombstone is
met everything passed is live. -/
structure Passed (T : Table (Fin (2 ^ bits)) Key Value) (key : Key) (visit : ℕ → Fin (2 ^ bits))
    (attempt : ℕ) (firstTombstoneIdx : Option (Fin (2 ^ bits))) : Prop where
  nonempty : ∀ i < attempt, T (visit i) ≠ .empty
  absent : ∀ i < attempt, ∀ v, T (visit i) ≠ .live key v
  noTombstone : firstTombstoneIdx = none → ∀ i < attempt, ∃ k v, T (visit i) = .live k v
  tombstone : ∀ s, firstTombstoneIdx = some s → ∃ i < attempt, visit i = s ∧ T s = .dead

omit [SizeKey Key] in
theorem Passed.start (T : Table (Fin (2 ^ bits)) Key Value) (key : Key)
    (visit : ℕ → Fin (2 ^ bits)) : Passed T key visit 0 none where
  nonempty i hi := by omega
  absent i hi := by omega
  noTombstone _ i hi := by omega
  tombstone s hs := by cases hs

/-- A chained position holding the key would have been seen before an empty one. -/
theorem Passed.not_chain {T : Table (Fin (2 ^ bits)) Key Value} {key : Key} {attempt : ℕ}
    {first : Option (Fin (2 ^ bits))} (h : Passed T key (path bits probe key) attempt first)
    (hempty : T (path bits probe key attempt) = .empty) {t : Fin (2 ^ bits)} {v : Value}
    (ht : T t = .live key v) : ¬ Chain (path bits probe) T key t := by
  rintro ⟨j, rfl, hbefore⟩
  rcases Nat.lt_trichotomy j attempt with hj | rfl | hj
  · exact h.absent j hj v ht
  · rw [hempty] at ht
    cases ht
  · exact hbefore attempt hj hempty

omit [SizeKey Key] in
theorem Passed.next {table : Fin (2 ^ bits) → Slot Key Value} {key : Key}
    {visit : ℕ → Fin (2 ^ bits)} {attempt : ℕ} {first : Option (Fin (2 ^ bits))}
    (h : Passed (cellsOf table) key visit attempt first)
    (hkey : ¬ ((table (visit attempt)).state = .occupied ∧ (table (visit attempt)).key = key))
    (hempty : (table (visit attempt)).state ≠ .empty) :
    Passed (cellsOf table) key visit (attempt + 1)
      (if (table (visit attempt)).state = .tombstone ∧ first = none then some (visit attempt)
        else first) where
  nonempty i hi := by
    rcases Nat.lt_succ_iff_lt_or_eq.mp hi with hi | rfl
    · exact h.nonempty i hi
    · simpa [cellsOf] using hempty
  absent i hi v := by
    rcases Nat.lt_succ_iff_lt_or_eq.mp hi with hi | rfl
    · exact h.absent i hi v
    · simp only [cellsOf, ne_eq, Slot.cell_eq_live]
      exact fun hl => hkey ⟨hl.1, hl.2.1⟩
  noTombstone hnone i hi := by
    split at hnone
    · cases hnone
    · rename_i hmet
      rcases Nat.lt_succ_iff_lt_or_eq.mp hi with hi | rfl
      · exact h.noTombstone hnone i hi
      · refine ⟨(table (visit i)).key, (table (visit i)).value, ?_⟩
        have hstate : (table (visit i)).state = .occupied := by
          cases hs : (table (visit i)).state with
          | empty => exact absurd hs hempty
          | occupied => rfl
          | tombstone => exact absurd ⟨hs, hnone⟩ hmet
        simpa [cellsOf] using hstate
  tombstone s hs := by
    split at hs
    · rename_i hmet
      obtain rfl := Option.some.inj hs
      exact ⟨attempt, Nat.lt_succ_self _, rfl, by simpa [cellsOf] using hmet.1⟩
    · obtain ⟨i, hi, hvisit, hdead⟩ := h.tombstone s hs
      exact ⟨i, hi.trans (Nat.lt_succ_self _), hvisit, hdead⟩

variable [DecidableEq Key]

/-- The loop ends within the walk's period, at a place `Located` describes. -/
theorem probeLoop_located {table : Fin (2 ^ bits) → Slot Key Value} {key : Key} {period : ℕ}
    (htour : Tour (path bits probe key) period) (fuel attempt : ℕ) (tombstone : UInt64)
    (first : Option (Fin (2 ^ bits))) (hfuel : period ≤ attempt + fuel) (hattempt : attempt < period)
    (hpassed : Passed (cellsOf table) key (path bits probe key) attempt first) :
    Located probe (cellsOf table) key (probeLoop probe table key (hash bits key) fuel
      (path bits probe key attempt) attempt first tombstone).1 := by
  induction fuel generalizing attempt tombstone first with
  | zero => omega
  | succ fuel ih =>
    simp only [probeLoop]
    by_cases hkey : (table (path bits probe key attempt)).state = .occupied ∧
        (table (path bits probe key attempt)).key = key
    · rw [if_pos hkey]
      refine ⟨⟨attempt, rfl, hpassed.nonempty⟩,
        Or.inl ⟨(table (path bits probe key attempt)).value, ?_⟩⟩
      simpa [cellsOf] using hkey
    rw [if_neg hkey]
    by_cases hempty : (table (path bits probe key attempt)).state = .empty
    · rw [if_pos hempty]
      have hcell : cellsOf table (path bits probe key attempt) = .empty := by
        simpa [cellsOf] using hempty
      -- the slot handed out is the remembered tombstone, or the empty slot itself
      cases first with
      | none =>
        refine ⟨⟨attempt, rfl, hpassed.nonempty⟩, Or.inr ⟨fun k v => ?_, fun t v ht =>
          hpassed.not_chain hcell ht⟩⟩
        rw [Option.getD_none, hcell]
        simp
      | some s =>
        obtain ⟨i, hi, hvisit, hdead⟩ := hpassed.tombstone s rfl
        refine ⟨⟨i, hvisit, fun j hj => hpassed.nonempty j (hj.trans hi)⟩,
          Or.inr ⟨fun k v => ?_, fun t v ht => hpassed.not_chain hcell ht⟩⟩
        rw [Option.getD_some, hdead]
        simp
    rw [if_neg hempty]
    have hnext := hpassed.next hkey hempty
    by_cases hback : path bits probe key (attempt + 1) = hash bits key
    · -- back at the start, so the whole table has been passed
      have hperiod : attempt + 1 = period := by
        by_contra hne
        exact htour.first (attempt + 1) (by omega) (by omega) hback
      have hall : ∀ s v, cellsOf table s ≠ .live key v := by
        intro s v
        obtain ⟨i, hi, rfl⟩ := htour.covers s
        exact hnext.absent i (by omega) v
      have hstep : probe.step (path bits probe key attempt) (attempt + 1) = hash bits key := hback
      rw [if_pos hstep]
      cases hf : (if (table (path bits probe key attempt)).state = .tombstone ∧ first = none then
          some (path bits probe key attempt) else first) with
      | none =>
        refine ⟨rfl, fun s => ?_⟩
        obtain ⟨i, hi, rfl⟩ := htour.covers s
        obtain ⟨k, v, hlive⟩ := hnext.noTombstone hf i (by omega)
        refine ⟨k, v, hlive, ?_⟩
        rintro rfl
        exact hall _ v hlive
      | some s =>
        obtain ⟨i, hi, hvisit, hdead⟩ := hnext.tombstone s hf
        refine ⟨⟨i, hvisit, fun j hj => hnext.nonempty j (hj.trans hi)⟩,
          Or.inr ⟨fun k v => ?_, fun t v ht => absurd ht (hall t v)⟩⟩
        rw [hdead]
        simp
    · have hstep : probe.step (path bits probe key attempt) (attempt + 1) ≠ hash bits key := hback
      rw [if_neg hstep]
      refine ih (attempt + 1) _ _ (by omega) ?_ hnext
      rcases Nat.lt_or_ge (attempt + 1) period with hlt | hge
      · exact hlt
      · have hperiod : attempt + 1 = period := by omega
        exact absurd (hperiod ▸ htour.returns) hback

theorem probeForSlotIdx_located (m : OpenAddressMap bits Key Value probe rehashes) (key : Key) :
    Located probe m.cells key (m.probeForSlotIdx key).1 := by
  obtain ⟨period, hle, htour⟩ := probe.tour (hash bits key)
  exact probeLoop_located htour _ 0 _ none (by omega) htour.pos (Passed.start ..)

@[simp] theorem probeForSlotIdx_table (m : OpenAddressMap bits Key Value probe rehashes)
    (key : Key) : (m.probeForSlotIdx key).2.table = m.table := rfl

omit [DecidableEq Key] in
/-- In a well probed table the probe loop decides whether the key is live. -/
theorem Located.resolve {T : Table (Fin (2 ^ bits)) Key Value} {key : Key} {s : Fin (2 ^ bits)}
    (hT : WellProbed (path bits probe) T) (h : Located probe T key (.ok s)) :
    Chain (path bits probe) T key s ∧ (∀ t v, T t = .live key v → t = s) ∧
      (∀ k v, T s = .live k v → k = key) := by
  obtain ⟨hchain, hlive | ⟨hfree, habsent⟩⟩ := h
  · obtain ⟨v, hv⟩ := hlive
    refine ⟨hchain, fun t w ht => hT.unique ht hv, fun k w hk => ?_⟩
    rw [hv] at hk
    exact (Cell.live.inj hk).1.symm
  · exact ⟨hchain, fun t v ht => absurd (hT.chained ht) (habsent t v ht),
      fun k v hk => absurd hk (hfree k v)⟩

end Probing

section Operations
variable [DecidableEq Key] [SizeKey Key] {m : OpenAddressMap bits Key Value probe rehashes}

/-- `find` changes no slot; it throws only when the table is full of other keys. -/
theorem find_spec (hm : m.Sound) (key : Key) :
    (m.find key).2.table = m.table ∧
    match (m.find key).1 with
    | .ok none => m.entries key = none
    | .ok (some s) => (m.table s).state = .occupied ∧ (m.table s).key = key ∧
        m.entries key = some (m.table s).value
    | .error fault => fault = .saturated ∧ m.entries key = none ∧
        ∀ s, (m.table s).state = .occupied := by
  have hloc := probeForSlotIdx_located m key
  have htable := probeForSlotIdx_table m key
  unfold find
  cases hp : m.probeForSlotIdx key with
  | mk r m' =>
    rw [hp] at hloc htable
    dsimp only at hloc htable
    cases r with
    | error fault =>
      obtain ⟨hfault, hfull⟩ := hloc
      refine ⟨htable, hfault, content_eq_none.mpr ?_, fun s => ?_⟩
      · rintro v ⟨s, hs⟩
        obtain ⟨k, w, hk, hne⟩ := hfull s
        rw [hs] at hk
        exact hne (Cell.live.inj hk).1.symm
      · obtain ⟨k, w, hk, -⟩ := hfull s
        exact (Slot.cell_eq_live.mp hk).1
    | ok s =>
      obtain ⟨-, honly, hself⟩ := hloc.resolve hm
      dsimp only
      rw [htable]
      by_cases hkey : (m.table s).state = .occupied ∧ (m.table s).key = key
      · rw [if_neg (by simpa using hkey)]
        refine ⟨htable, hkey.1, hkey.2, hm.content_eq_some.mpr ⟨s, ?_⟩⟩
        simpa [cells, cellsOf] using hkey
      · rw [if_pos (by simpa [or_iff_not_imp_left] using hkey)]
        refine ⟨htable, content_eq_none.mpr ?_⟩
        rintro v ⟨t, ht⟩
        obtain rfl := honly t v ht
        have hl := Slot.cell_eq_live.mp ht
        exact hkey ⟨hl.1, hl.2.1⟩

theorem find_of_entries (hm : m.Sound) {key : Key} {v : Value} (h : m.entries key = some v) :
    ∃ s, (m.find key).1 = .ok (some s) ∧ (m.find key).2.table = m.table ∧
      m.cells s = .live key v := by
  obtain ⟨htable, hres⟩ := find_spec hm key
  cases hr : (m.find key).1 with
  | error fault =>
    rw [hr] at hres
    simp [hres.2.1] at h
  | ok r =>
    rw [hr] at hres
    cases r with
    | none => simp [hres] at h
    | some s =>
      obtain ⟨hstate, hkey, hval⟩ := hres
      rw [h] at hval
      refine ⟨s, rfl, htable, ?_⟩
      rw [cells, cellsOf, Slot.cell_eq_live]
      exact ⟨hstate, hkey, (Option.some.inj hval).symm⟩

theorem find_of_absent (hm : m.Sound) {key : Key} (h : m.entries key = none)
    (hroom : {k | (m.entries k).isSome}.ncard < 2 ^ bits) : (m.find key).1 = .ok none := by
  obtain ⟨-, hres⟩ := find_spec hm key
  cases hr : (m.find key).1 with
  | error fault =>
    rw [hr] at hres
    have hfull : ∀ s, ∃ k v, m.cells s = .live k v :=
      fun s => ⟨_, _, Slot.cell_eq_live.mpr ⟨hres.2.2 s, rfl, rfl⟩⟩
    have hcard := WellProbed.ncard_keys_of_full hm hfull
    rw [Fintype.card_fin] at hcard
    exact absurd hcard (Nat.ne_of_lt hroom)
  | ok r =>
    rw [hr] at hres
    cases r with
    | none => rfl
    | some s => simp [h] at hres

/-- `m[key] = value`: on success the slot is one where no other key was live, and
on an exception no slot has changed and the table is full of other keys. -/
theorem assign_spec (hm : m.Sound) (key : Key) (value : Value) :
    match m.assign key value with
    | (.ok (), m') => ∃ s, Chain (path bits probe) m.cells key s ∧
        (∀ t v, m.cells t = .live key v → t = s) ∧ (∀ k v, m.cells s = .live k v → k = key) ∧
        m'.cells = Function.update m.cells s (.live key value)
    | (.error fault, m') => fault = .saturated ∧ m'.table = m.table ∧ m.entries key = none ∧
        ∀ s, ∃ k v, m.cells s = .live k v := by
  have hloc := probeForSlotIdx_located m key
  have htable := probeForSlotIdx_table m key
  unfold assign subscript
  cases hp : m.probeForSlotIdx key with
  | mk r m' =>
    rw [hp] at hloc htable
    dsimp only at hloc htable
    cases r with
    | error fault =>
      obtain ⟨hfault, hfull⟩ := hloc
      refine ⟨hfault, htable, content_eq_none.mpr ?_, fun s => ?_⟩
      · rintro v ⟨s, hs⟩
        obtain ⟨k, w, hk, hne⟩ := hfull s
        rw [hs] at hk
        exact hne (Cell.live.inj hk).1.symm
      · obtain ⟨k, w, hk, -⟩ := hfull s
        exact ⟨k, w, hk⟩
    | ok s =>
      obtain ⟨hchain, honly, hself⟩ := hloc.resolve hm
      refine ⟨s, hchain, honly, hself, ?_⟩
      simp only [setValue, cells, cellsOf_update, Function.update_self, htable]
      rw [Function.update_idem]
      rfl

theorem assign_ok (hm : m.Sound) {key : Key} {value : Value}
    (h : (m.assign key value).1 = .ok ()) :
    (m.assign key value).2.Sound ∧
      (m.assign key value).2.entries = Function.update m.entries key (some value) := by
  have hspec := assign_spec hm key value
  cases ha : m.assign key value with
  | mk r m' =>
    rw [ha] at h hspec
    dsimp only at h
    subst r
    obtain ⟨s, hchain, honly, hself, hcells⟩ := hspec
    refine ⟨?_, ?_⟩
    · rw [Sound, hcells]
      exact hm.put hchain honly value
    · rw [entries, entries, hcells]
      exact content_put hm hchain honly hself value

theorem assign_succeeds (hm : m.Sound) {key : Key} (value : Value)
    (h : (m.entries key).isSome ∨ {k | (m.entries k).isSome}.ncard < 2 ^ bits) :
    (m.assign key value).1 = .ok () := by
  have hspec := assign_spec hm key value
  cases ha : m.assign key value with
  | mk r m' =>
    rw [ha] at hspec
    cases r with
    | ok u => rfl
    | error fault =>
      obtain ⟨-, -, hnone, hfull⟩ := hspec
      have hcard := WellProbed.ncard_keys_of_full hm hfull
      rw [Fintype.card_fin] at hcard
      rcases h with h | h
      · simp [hnone] at h
      · exact absurd hcard (Nat.ne_of_lt h)

omit [DecidableEq Key] [SizeKey Key] in
@[simp] theorem cells_bury (m : OpenAddressMap bits Key Value probe rehashes)
    (s : Fin (2 ^ bits)) : (m.bury s).cells = Function.update m.cells s .dead := by
  simp [bury, cells, cellsOf_update, Slot.cell]

theorem bury_spec (hm : m.Sound) {s : Fin (2 ^ bits)} {key : Key} {v : Value}
    (h : m.cells s = .live key v) :
    (m.bury s).Sound ∧ (m.bury s).entries = Function.update m.entries key none := by
  refine ⟨?_, ?_⟩
  · rw [Sound, cells_bury]
    exact hm.bury s
  · rw [entries, cells_bury]
    exact content_bury hm h

omit [DecidableEq Key] [SizeKey Key] in
theorem cells_setValue {s : Fin (2 ^ bits)} {key : Key} {v : Value}
    (h : m.cells s = .live key v) (w : Value) :
    (m.setValue s w).cells = Function.update m.cells s (.live key w) := by
  obtain ⟨hstate, hkey, -⟩ := Slot.cell_eq_live.mp h
  rw [setValue, cells, cellsOf_update]
  congr 1
  rw [Slot.cell_eq_live]
  exact ⟨hstate, hkey, rfl⟩

theorem setValue_spec (hm : m.Sound) {s : Fin (2 ^ bits)} {key : Key} {v : Value}
    (h : m.cells s = .live key v) (w : Value) :
    (m.setValue s w).Sound ∧ (m.setValue s w).entries = Function.update m.entries key (some w) := by
  have honly : ∀ t v', m.cells t = .live key v' → t = s := fun t v' ht => hm.unique ht h
  have hself : ∀ k v', m.cells s = .live k v' → k = key := by
    intro k v' hk
    rw [h] at hk
    exact (Cell.live.inj hk).1.symm
  refine ⟨?_, ?_⟩
  · rw [Sound, cells_setValue h]
    exact hm.put (hm.chained h) honly w
  · rw [entries, cells_setValue h]
    exact content_put hm (hm.chained h) honly hself w

end Operations

end OpenAddressMap

end ItchOrderBook.Util

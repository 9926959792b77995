import ItchOrderBook.Util.OpenAddressMapSpec
import Mathlib.Data.List.Basic

/-! # Runs of the map against a finite map

A run remembers which handles `find` has returned for keys that have stayed live
since; only those may be erased through. The finite map is read off the operations
alone: the last assignment to a key after its last erase.
-/
namespace ItchOrderBook.Util
open OpenAddressing

inductive MapOp (bits : ℕ) (Key Value : Type)
  | assign (key : Key) (value : Value)
  | find (key : Key)
  | eraseHandle (key : Key) (idx : Fin (2 ^ bits))
  | erase (key : Key)

/-- The finite map after one more operation. -/
def MapOp.denote {bits : ℕ} {Key Value : Type} [DecidableEq Key] (op : MapOp bits Key Value)
    (f : Key → Option Value) : Key → Option Value :=
  match op with
  | .assign key value => Function.update f key (some value)
  | .find _ => f
  | .eraseHandle key _ | .erase key => Function.update f key none

/-- The value last assigned to each key after its last erase. -/
def lastAssigned {bits : ℕ} {Key Value : Type} [DecidableEq Key]
    (ops : List (MapOp bits Key Value)) : Key → Option Value :=
  ops.foldl (fun f op => op.denote f) (fun _ => none)

/-- A map with the handles still bound to the key they were found for. -/
structure TrackedMap (bits : ℕ) (Key Value : Type) (probe : Probe) where
  map : OpenAddressMap bits Key Value probe false
  issued : List (Key × Fin (2 ^ bits))

namespace TrackedMap

variable {bits : ℕ} {Key Value : Type} {probe : Probe} [DecidableEq Key] [SizeKey Key]

/-- One operation; none when it throws or erases through a handle that was not
found for a key live since. -/
def step (t : TrackedMap bits Key Value probe) (op : MapOp bits Key Value) :
    Option (TrackedMap bits Key Value probe) :=
  match op with
  | .assign key value =>
    match t.map.assign key value with
    | (.ok (), m) => some ⟨m, t.issued⟩
    | (.error _, _) => none
  | .find key =>
    match t.map.find key with
    | (.ok none, m) => some ⟨m, t.issued⟩
    | (.ok (some idx), m) => some ⟨m, (key, idx) :: t.issued⟩
    | (.error _, _) => none
  | .eraseHandle key idx =>
    if (key, idx) ∈ t.issued then
      match t.map.eraseHandle (some idx) with
      | (.ok (), m) => some ⟨m, t.issued.filter (fun h => h.1 ≠ key)⟩
      | (.error _, _) => none
    else none
  | .erase key =>
    match t.map.erase key with
    | (.ok (), m) => some ⟨m, t.issued.filter (fun h => h.1 ≠ key)⟩
    | (.error _, _) => none

def run (t : TrackedMap bits Key Value probe) (ops : List (MapOp bits Key Value)) :
    Option (TrackedMap bits Key Value probe) :=
  ops.foldlM step t

/-- The table denotes `f` and every issued handle is at its key's slot. -/
structure Refines (t : TrackedMap bits Key Value probe) (f : Key → Option Value) : Prop where
  sound : t.map.Sound
  entries : t.map.entries = f
  bound : ∀ h ∈ t.issued, ∃ v, t.map.cells h.2 = .live h.1 v

omit [DecidableEq Key] in
theorem Refines.of_cells_eq {t : TrackedMap bits Key Value probe} {f : Key → Option Value}
    (h : t.Refines f) {m : OpenAddressMap bits Key Value probe false}
    (hm : m.table = t.map.table) {issued : List (Key × Fin (2 ^ bits))}
    (hbound : ∀ h ∈ issued, ∃ v, t.map.cells h.2 = .live h.1 v) : Refines ⟨m, issued⟩ f := by
  have hcells : m.cells = t.map.cells := by rw [OpenAddressMap.cells, hm]; rfl
  refine ⟨?_, ?_, ?_⟩
  · have hs := h.sound
    rwa [OpenAddressMap.Sound, ← hcells] at hs
  · rw [← h.entries, OpenAddressMap.entries, OpenAddressMap.entries]
    dsimp only
    rw [hcells]
  · dsimp only
    rwa [hcells]

theorem Refines.bury {t : TrackedMap bits Key Value probe} {f : Key → Option Value}
    (h : t.Refines f) {m : OpenAddressMap bits Key Value probe false}
    (hm : m.table = t.map.table) {key : Key} {s : Fin (2 ^ bits)} {v : Value}
    (hs : t.map.cells s = .live key v) :
    Refines ⟨m.bury s, t.issued.filter (fun h => h.1 ≠ key)⟩ (Function.update f key none) := by
  have h' : Refines ⟨m, t.issued⟩ f := h.of_cells_eq hm h.bound
  have hs' : m.cells s = .live key v := by
    rw [OpenAddressMap.cells, hm]
    exact hs
  obtain ⟨hsound, hentries⟩ := OpenAddressMap.bury_spec h'.sound hs'
  refine ⟨hsound, by rw [hentries]; exact congrArg (Function.update · key none) h'.entries, ?_⟩
  intro i hi
  obtain ⟨hi, hne⟩ := List.mem_filter.mp hi
  have hne : i.1 ≠ key := by simpa using hne
  obtain ⟨w, hw⟩ := h'.bound i hi
  dsimp only at hw
  have hslot : i.2 ≠ s := by
    intro heq
    rw [heq, hs'] at hw
    exact hne (Cell.live.inj hw).1.symm
  refine ⟨w, ?_⟩
  rw [OpenAddressMap.cells_bury, Function.update_of_ne hslot]
  exact hw

omit [DecidableEq Key] [SizeKey Key] in
theorem eraseHandle_eq [SizeKey Key] (m : OpenAddressMap bits Key Value probe false)
    (s : Fin (2 ^ bits)) : m.eraseHandle (some s) = (.ok (), m.bury s) := rfl

/-- What an operation that does not throw has done. -/
inductive StepEffect (t t' : TrackedMap bits Key Value probe) (f : Key → Option Value)
    (op : MapOp bits Key Value) : Prop
  | keep (table : t'.map.table = t.map.table) (denote : op.denote f = f)
      (bound : ∀ h ∈ t'.issued, ∃ v, t.map.cells h.2 = .live h.1 v)
  | put (key : Key) (value : Value) (s : Fin (2 ^ bits))
      (cells : t'.map.cells = Function.update t.map.cells s (.live key value))
      (own : ∀ k v, t.map.cells s = .live k v → k = key) (sound : t'.map.Sound)
      (entries : t'.map.entries = op.denote f) (issued : t'.issued = t.issued)
  | bury (m : OpenAddressMap bits Key Value probe false) (key : Key) (s : Fin (2 ^ bits))
      (v : Value) (table : m.table = t.map.table) (live : t.map.cells s = .live key v)
      (denote : op.denote f = Function.update f key none)
      (result : t' = ⟨m.bury s, t.issued.filter (fun h => h.1 ≠ key)⟩)

theorem step_effect {t t' : TrackedMap bits Key Value probe} {f : Key → Option Value}
    (h : t.Refines f) {op : MapOp bits Key Value} (hop : t.step op = some t') :
    StepEffect t t' f op := by
  cases op with
  | assign key value =>
    simp only [TrackedMap.step] at hop
    have hspec := OpenAddressMap.assign_spec h.sound key value
    have hok : (t.map.assign key value).1 = .ok () → _ := OpenAddressMap.assign_ok h.sound
    cases ha : t.map.assign key value with
    | mk r m =>
      rw [ha] at hop hspec hok
      cases r with
      | error fault => cases hop
      | ok u =>
        obtain rfl := Option.some.inj hop
        obtain ⟨s, -, -, hself, hcells⟩ := hspec
        obtain ⟨hsound, hentries⟩ := hok rfl
        exact .put key value s hcells hself hsound (by rw [hentries, h.entries]; rfl) rfl
  | find key =>
    simp only [TrackedMap.step] at hop
    obtain ⟨htable, hres⟩ := OpenAddressMap.find_spec h.sound key
    cases ha : t.map.find key with
    | mk r m =>
      rw [ha] at hop htable hres
      cases r with
      | error fault => cases hop
      | ok r =>
        cases r with
        | none =>
          obtain rfl := Option.some.inj hop
          exact .keep htable rfl h.bound
        | some s =>
          obtain rfl := Option.some.inj hop
          refine .keep htable rfl fun i hi => ?_
          rcases List.mem_cons.mp hi with rfl | hi
          · exact ⟨(t.map.table s).value, Slot.cell_eq_live.mpr ⟨hres.1, hres.2.1, rfl⟩⟩
          · exact h.bound i hi
  | eraseHandle key idx =>
    simp only [TrackedMap.step] at hop
    by_cases hissued : (key, idx) ∈ t.issued
    · rw [if_pos hissued, eraseHandle_eq] at hop
      obtain rfl := Option.some.inj hop
      obtain ⟨v, hv⟩ := h.bound _ hissued
      exact .bury t.map key idx v rfl hv rfl rfl
    · rw [if_neg hissued] at hop
      cases hop
  | erase key =>
    simp only [TrackedMap.step, OpenAddressMap.erase] at hop
    obtain ⟨htable, hres⟩ := OpenAddressMap.find_spec h.sound key
    cases ha : t.map.find key with
    | mk r m =>
      rw [ha] at hop htable hres
      cases r with
      | error fault => cases hop
      | ok r =>
        cases r with
        | none =>
          obtain rfl := Option.some.inj hop
          refine .keep htable ?_ fun i hi => h.bound i (List.mem_filter.mp hi).1
          rw [← h.entries]
          exact Function.update_eq_self_iff.mpr hres.symm
        | some s =>
          dsimp only at hop
          rw [eraseHandle_eq] at hop
          obtain rfl := Option.some.inj hop
          exact .bury m key s (t.map.table s).value htable
            (Slot.cell_eq_live.mpr ⟨hres.1, hres.2.1, rfl⟩) rfl rfl

/-- One operation keeps the table in step with the finite map. -/
theorem Refines.step {t t' : TrackedMap bits Key Value probe} {f : Key → Option Value}
    (h : t.Refines f) {op : MapOp bits Key Value} (hop : t.step op = some t') :
    t'.Refines (op.denote f) := by
  cases step_effect h hop with
  | keep htable hdenote hbound =>
    rw [hdenote]
    exact h.of_cells_eq htable hbound
  | put key value s hcells hown hsound hentries hissued =>
    refine ⟨hsound, hentries, fun i hi => ?_⟩
    rw [hissued] at hi
    obtain ⟨v, hv⟩ := h.bound i hi
    rw [hcells]
    by_cases hs : i.2 = s
    · rw [hs] at hv ⊢
      rw [Function.update_self]
      exact ⟨value, by rw [hown _ _ hv]⟩
    · rw [Function.update_of_ne hs]
      exact ⟨v, hv⟩
  | bury m key s v htable hlive hdenote hresult =>
    rw [hdenote, hresult]
    exact h.bury htable hlive

theorem Refines.run {t t' : TrackedMap bits Key Value probe} {f : Key → Option Value}
    (h : t.Refines f) {ops : List (MapOp bits Key Value)} (hrun : t.run ops = some t') :
    t'.Refines (ops.foldl (fun f op => op.denote f) f) := by
  induction ops generalizing t f with
  | nil =>
    obtain rfl := Option.some.inj hrun
    exact h
  | cons op ops ih =>
    rw [TrackedMap.run, List.foldlM_cons, Option.bind_eq_bind, Option.bind_eq_some_iff] at hrun
    obtain ⟨u, hu, hrun⟩ := hrun
    exact ih (h.step hu) hrun

theorem step_keeps_slot {t t' : TrackedMap bits Key Value probe} {f : Key → Option Value}
    (h : t.Refines f) {op : MapOp bits Key Value} (hop : t.step op = some t') {key : Key}
    (hlive : (op.denote f key).isSome) {s : Fin (2 ^ bits)} {v : Value}
    (hs : t.map.cells s = .live key v) : ∃ w, t'.map.cells s = .live key w := by
  cases step_effect h hop with
  | keep htable =>
    refine ⟨v, ?_⟩
    rw [OpenAddressMap.cells, htable]
    exact hs
  | put key' value i hcells hown =>
    rw [hcells]
    by_cases hi : s = i
    · subst s
      rw [Function.update_self]
      exact ⟨value, by rw [hown _ _ hs]⟩
    · rw [Function.update_of_ne hi]
      exact ⟨v, hs⟩
  | bury m key' i w htable hlive' hdenote hresult =>
    have hne : key ≠ key' := by
      rintro rfl
      simp [hdenote] at hlive
    have hslot : s ≠ i := by
      rintro rfl
      rw [hs] at hlive'
      exact hne (Cell.live.inj hlive').1
    refine ⟨v, ?_⟩
    rw [hresult, OpenAddressMap.cells_bury, Function.update_of_ne hslot, OpenAddressMap.cells,
      htable]
    exact hs

theorem run_keeps_slot {t t' : TrackedMap bits Key Value probe} {f : Key → Option Value}
    (h : t.Refines f) {ops : List (MapOp bits Key Value)} (hrun : t.run ops = some t') {key : Key}
    (hlive : ∀ pre, pre <+: ops → (pre.foldl (fun f op => op.denote f) f key).isSome)
    {s : Fin (2 ^ bits)} {v : Value} (hs : t.map.cells s = .live key v) :
    ∃ w, t'.map.cells s = .live key w := by
  induction ops generalizing t f v with
  | nil =>
    obtain rfl := Option.some.inj hrun
    exact ⟨v, hs⟩
  | cons op ops ih =>
    rw [TrackedMap.run, List.foldlM_cons, Option.bind_eq_bind, Option.bind_eq_some_iff] at hrun
    obtain ⟨u, hu, hrun⟩ := hrun
    obtain ⟨w, hw⟩ := step_keeps_slot h hu (hlive [op] (by simp)) hs
    refine ih (h.step hu) hrun (fun pre hpre => ?_) hw
    exact hlive (op :: pre) (List.cons_prefix_cons.mpr ⟨rfl, hpre⟩)

section Empty
variable [Inhabited Key] [Inhabited Value]

/-- `OpenAddressMap()`, no handle issued. -/
def empty : TrackedMap bits Key Value probe := ⟨default, []⟩

omit [DecidableEq Key] in
theorem refines_empty : (empty : TrackedMap bits Key Value probe).Refines (fun _ => none) where
  sound := OpenAddressMap.sound_default
  entries := funext OpenAddressMap.entries_default
  bound h hh := by cases hh

/-- The map refines a finite map: `find` returns the last assigned value exactly
when the key was assigned after its last erase, no key occupies two slots, and a
key that stays live stays in its slot. -/
theorem run_refines_finite_map (ops : List (MapOp bits Key Value))
    (t : TrackedMap bits Key Value probe) (hrun : empty.run ops = some t) :
    (∀ key, match (t.map.find key).1 with
      | .ok none => lastAssigned ops key = none
      | .ok (some s) => lastAssigned ops key = some (t.map.table s).value
      | .error fault => fault = .saturated) ∧
    (∀ s s', (t.map.table s).state = .occupied → (t.map.table s').state = .occupied →
      (t.map.table s).key = (t.map.table s').key → s = s') ∧
    (∀ h ∈ t.issued, (t.map.table h.2).state = .occupied ∧ (t.map.table h.2).key = h.1) ∧
    (∀ key s more t', (t.map.table s).state = .occupied → (t.map.table s).key = key →
      t.run more = some t' →
      (∀ pre, pre <+: more → (lastAssigned (ops ++ pre) key).isSome) →
      (t'.map.table s).state = .occupied ∧ (t'.map.table s).key = key) := by
  have href := refines_empty.run hrun
  change t.Refines (lastAssigned ops) at href
  refine ⟨fun key => ?_, fun s s' hs hs' hkey => ?_, fun h hh => ?_, fun key s more t' hs hkey hmore hlive => ?_⟩
  · obtain ⟨-, hres⟩ := OpenAddressMap.find_spec href.sound key
    rw [href.entries] at hres
    cases hr : (t.map.find key).1 with
    | error fault =>
      rw [hr] at hres
      exact hres.1
    | ok r =>
      rw [hr] at hres
      cases r with
      | none => exact hres
      | some s => exact hres.2.2
  · exact href.sound.unique (Slot.cell_eq_live.mpr ⟨hs, rfl, rfl⟩)
      (Slot.cell_eq_live.mpr ⟨hs', hkey.symm, rfl⟩)
  · obtain ⟨v, hv⟩ := href.bound h hh
    have hl := Slot.cell_eq_live.mp hv
    exact ⟨hl.1, hl.2.1⟩
  · obtain ⟨w, hw⟩ := run_keeps_slot href hmore (fun pre hpre => by
      have hl := hlive pre hpre
      rwa [lastAssigned, List.foldl_append] at hl)
      (Slot.cell_eq_live.mpr ⟨hs, hkey, rfl⟩ : t.map.cells s = _)
    have hl := Slot.cell_eq_live.mp hw
    exact ⟨hl.1, hl.2.1⟩

/-- Keys 1 and 5 collide; 5 takes over the tombstone of 1. -/
def collidingOps : List (MapOp 2 UInt64 ℕ) :=
  [.assign 1 10, .assign 5 50, .find 1, .eraseHandle 1 1, .assign 5 51, .assign 1 11]

theorem collidingOps_refines :
    let ran : Option (TrackedMap 2 UInt64 ℕ linearProbe) := empty.run collidingOps
    ∃ t, ran = some t ∧
      (∀ s s', (t.map.table s).state = .occupied → (t.map.table s').state = .occupied →
        (t.map.table s).key = (t.map.table s').key → s = s') ∧
      ∀ h ∈ t.issued, (t.map.table h.2).state = .occupied ∧ (t.map.table h.2).key = h.1 := by
  have hran : ((empty : TrackedMap 2 UInt64 ℕ linearProbe).run collidingOps).isSome := by decide
  obtain ⟨t, ht⟩ := Option.isSome_iff_exists.mp hran
  obtain ⟨-, hunique, hissued, -⟩ := run_refines_finite_map collidingOps t ht
  exact ⟨t, ht, hunique, hissued⟩

end Empty

end TrackedMap

end ItchOrderBook.Util

import ItchOrderBook.Foundation.BoundedMap
import ItchOrderBook.Util.Lookups

/-! # The map as a bounded map

A sound table without rehashing stands for a finite map of at most as many entries as it has
slots. What `find` and `operator[]` return or throw, also for absent keys and in a full
table, depends on that map alone.
-/
namespace ItchOrderBook.Util
open OpenAddressing

namespace OpenAddressMap
variable {bits : ℕ} {Key Value : Type} {probe : Probe}
  {m m' : OpenAddressMap bits Key Value probe false} {key : Key}

/-- The entries of a table, which has a slot for each. -/
noncomputable def content (m : OpenAddressMap bits Key Value probe false) :
    BoundedMap (2 ^ bits) Key Value where
  entries := m.entries
  size_le := by
    have hkeys : {k | (m.entries k).isSome} = m.liveKeys := by
      ext k
      exact mem_liveKeys_iff_entries.symm
    simpa [hkeys] using ncard_liveKeys_le m

theorem content_of_table (h : m'.table = m.table) : m'.content = m.content := by
  simp only [content, entries, cells, h]

theorem size_content (m : OpenAddressMap bits Key Value probe false) :
    m.content.size = m.liveKeys.ncard := by
  simp only [BoundedMap.size, content, ← mem_liveKeys_iff_entries, Set.ofPred_mem_eq]

variable [DecidableEq Key] [SizeKey Key]

theorem find_none (hm : m.Sound) (h : m.content.entries key = none) :
    (m.find key).1 = if m.content.size < 2 ^ bits then .ok none else .error .saturated := by
  have habsent : key ∉ m.liveKeys := by simpa [mem_liveKeys_iff_entries, content] using h
  simp only [size_content]
  split
  · rename_i hroom
    exact (find_absent hm habsent).mpr hroom
  · rename_i hroom
    exact congrArg Prod.fst (find_full (full_of_not_lt hm hroom habsent))

theorem assign_refused (hm : m.Sound) (h : ¬ m.content.Takes key) (value : Value) :
    (m.assign key value).1 = .error .saturated := by
  rw [BoundedMap.Takes, not_or, size_content] at h
  have habsent : key ∉ m.liveKeys := by simpa [mem_liveKeys_iff_entries, content] using h.1
  have hthrows := subscript_absent hm habsent h.2
  simp only [assign, hthrows]

variable [Finite Key]

theorem assign_put (hm : m.Sound) (h : m.content.Takes key) (value : Value) :
    (m.assign key value).1 = .ok () ∧ (m.assign key value).2.Sound ∧
      (m.assign key value).2.content = m.content.put key value h := by
  have hok := assign_succeeds hm value h
  obtain ⟨hsound, hentries⟩ := assign_ok hm hok
  exact ⟨hok, hsound, BoundedMap.ext hentries⟩

theorem content_setValue (hm : m.Sound) {s : Fin (2 ^ bits)} {v : Value}
    (h : m.cells s = .live key v) (w : Value) :
    (m.setValue s w).content = m.content.alter key fun _ => some w := by
  have hentry : m.content.entries key = some v := hm.content_eq_some.mpr ⟨s, h⟩
  apply BoundedMap.ext
  rw [BoundedMap.entries_alter hentry]
  exact (setValue_spec hm h w).2

theorem content_bury (hm : m.Sound) {s : Fin (2 ^ bits)} {v : Value} (h : m.cells s = .live key v) :
    (m.bury s).content = m.content.alter key fun _ => none := by
  have hentry : m.content.entries key = some v := hm.content_eq_some.mpr ⟨s, h⟩
  apply BoundedMap.ext
  rw [BoundedMap.entries_alter hentry]
  exact (bury_spec hm h).2

end OpenAddressMap

end ItchOrderBook.Util

import ItchOrderBook.Stse.FieldWalk
import Mathlib.Data.List.Chain

/-! # Merging byte ranges

`compress_layout` against the list it merges, for any ranges in any order. A range is
final once a successor has been appended to it: only the last range of the accumulator
still grows, and it grows at its end, so the ranges before it stay as far from it as
they were.
-/
namespace ItchOrderBook.Stse
open Transfer

/-- No two neighbours could still be merged. -/
def Merged (sequence : List ByteRange) : Prop :=
  sequence.IsChain fun back r => ¬ back.Continues r

def totalCount (sequence : List ByteRange) : ℕ := (sequence.map ByteRange.count).sum

/-! ## One range -/

theorem compressStep_of_merged {compressed : List ByteRange} {r : ByteRange}
    (h : Merged (compressed ++ [r])) : compressStep compressed r = compressed ++ [r] := by
  rcases compressStep_cases compressed r with ⟨earlier, back, rfl, hback, -⟩ | ⟨-, hstep⟩
  · have hlast := (List.isChain_append.mp h).2.2 back (by simp) r (by simp)
    exact absurd hback hlast
  · exact hstep

theorem totalCount_compressStep (compressed : List ByteRange) (r : ByteRange) :
    totalCount (compressStep compressed r) = totalCount compressed + r.count := by
  rcases compressStep_cases compressed r with ⟨earlier, back, rfl, -, hstep⟩ | ⟨-, hstep⟩
  · simp [hstep, totalCount, ByteRange.extend, Nat.add_assoc]
  · simp [hstep, totalCount]

/-- Whether a range continues the one before it does not depend on its own length. -/
theorem Merged.extend {earlier : List ByteRange} {back : ByteRange}
    (h : Merged (earlier ++ [back])) (count : ℕ) : Merged (earlier ++ [back.extend count]) := by
  obtain ⟨hearlier, -, hjoin⟩ := List.isChain_append.mp h
  apply List.isChain_append.mpr
  refine ⟨hearlier, List.isChain_singleton _, fun q hq r hr => ?_⟩
  obtain rfl : back.extend count = r := by simpa using hr
  exact hjoin q hq back (by simp)

theorem Merged.compressStep {compressed : List ByteRange} (h : Merged compressed)
    (r : ByteRange) : Merged (compressStep compressed r) := by
  rcases compressStep_cases compressed r with ⟨earlier, back, rfl, -, hstep⟩ | ⟨hlast, hstep⟩
  · rw [hstep]
    exact h.extend r.count
  · rw [hstep]
    apply List.isChain_append.mpr
    refine ⟨h, List.isChain_singleton _, fun back hback q hq => ?_⟩
    obtain rfl : r = q := by simpa using hq
    exact hlast back hback

/-! ## The loop -/

section Loop
variable (compressed sequence : List ByteRange)

theorem totalCount_foldl : totalCount (sequence.foldl compressStep compressed) =
    totalCount compressed + totalCount sequence := by
  induction sequence generalizing compressed with
  | nil => simp [totalCount]
  | cons r rest ih =>
    have hrest := ih (compressStep compressed r)
    rw [totalCount_compressStep] at hrest
    simpa [totalCount, Nat.add_assoc] using hrest

variable {compressed}

theorem Merged.foldl (h : Merged compressed) :
    Merged (sequence.foldl Stse.compressStep compressed) := by
  induction sequence generalizing compressed with
  | nil => exact h
  | cons r rest ih => exact ih (h.compressStep r)

variable {sequence}

/-- The loop appends the ranges of a merged list one by one. -/
theorem foldl_of_merged (h : Merged (compressed ++ sequence)) :
    sequence.foldl compressStep compressed = compressed ++ sequence := by
  induction sequence generalizing compressed with
  | nil => simp
  | cons r rest ih =>
    have happend : compressed ++ r :: rest = compressed ++ [r] ++ rest := by simp
    rw [happend] at h ⊢
    have hstep := compressStep_of_merged (List.isChain_append.mp h).1
    simpa [hstep] using ih h

end Loop

theorem merged_compressLayout (sequence : List ByteRange) : Merged (compressLayout sequence) :=
  Merged.foldl sequence List.isChain_nil

theorem totalCount_compressLayout (sequence : List ByteRange) :
    totalCount (compressLayout sequence) = totalCount sequence := by
  simpa [totalCount, compressLayout] using totalCount_foldl [] sequence

theorem compressLayout_of_merged {sequence : List ByteRange} (h : Merged sequence) :
    compressLayout sequence = sequence := by
  have hfold : sequence.foldl compressStep [] = [] ++ sequence := foldl_of_merged h
  simpa [compressLayout] using hfold

/-! ## The copies -/

theorem copyToWire_compressLayout (sequence : List ByteRange) (buffer : Memory) (data : ℕ)
    (source : Memory) (addr : ℕ) :
    copyToWire (compressLayout sequence) buffer data source addr =
      copyToWire sequence buffer data source addr := by
  simp only [copyToWire_eq, pairsOf_compressLayout]

theorem copyFromWire_compressLayout (sequence : List ByteRange) (destination : Memory) (addr : ℕ)
    (buffer : Memory) (data : ℕ) :
    copyFromWire (compressLayout sequence) destination addr buffer data =
      copyFromWire sequence destination addr buffer data := by
  simp only [copyFromWire_eq, pairsOf_compressLayout]

/-- Range merging preserves the copy in either direction and the number of bytes, leaves
no neighbours to merge, and does nothing the second time. -/
theorem compressLayout_preserves_copies (sequence : List ByteRange) :
    (∀ (buffer source : Memory) (data addr : ℕ),
      copyToWire (compressLayout sequence) buffer data source addr =
        copyToWire sequence buffer data source addr) ∧
    (∀ (destination buffer : Memory) (addr data : ℕ),
      copyFromWire (compressLayout sequence) destination addr buffer data =
        copyFromWire sequence destination addr buffer data) ∧
    totalCount (compressLayout sequence) = totalCount sequence ∧
    Merged (compressLayout sequence) ∧
    compressLayout (compressLayout sequence) = compressLayout sequence := by
  have hmerged := merged_compressLayout sequence
  refine ⟨fun buffer source data addr => ?_, fun destination buffer addr data => ?_,
    totalCount_compressLayout sequence, hmerged, compressLayout_of_merged hmerged⟩
  · exact copyToWire_compressLayout sequence buffer data source addr
  · exact copyFromWire_compressLayout sequence destination addr buffer data

end ItchOrderBook.Stse

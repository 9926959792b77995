import ItchOrderBook.Util.OpenAddressMapRehash
import ItchOrderBook.Util.TombstoneProbe

/-! # The probe loops end

A loop that stops where its walk comes back runs for one period at most. Nothing is
asked of the table: the keys may lie anywhere and every slot may be taken.
-/
namespace ItchOrderBook.Util
open OpenAddressing

variable {bits : ℕ}

/-! ## `Probe::next` in machine words -/

def LinearProbe.next (index _attempt mask : UInt64) : UInt64 := (index + 1) &&& mask

def QuadraticProbe.next (index attempt mask : UInt64) : UInt64 := (index + attempt) &&& mask

/-- `MASK` -/
def maskWord (bits : ℕ) : UInt64 := UInt64.ofNat (2 ^ bits - 1)

theorem maskWord_toNat (hbits : bits ≤ 64) : (maskWord bits).toNat = 2 ^ bits - 1 := by
  have hpow : 2 ^ bits ≤ 2 ^ 64 := Nat.pow_le_pow_right (by decide) hbits
  have hpos := Nat.two_pow_pos bits
  simp only [maskWord, UInt64.toNat_ofNat']
  omega

/-- A sum that wraps past `2 ^ 64` is masked to the slot it would have reached. -/
theorem add_land_maskWord (hbits : bits ≤ 64) (index : UInt64) (distance : ℕ) :
    ((index + UInt64.ofNat distance) &&& maskWord bits).toNat =
      (index.toNat + distance) &&& (2 ^ bits - 1) := by
  have hdvd : 2 ^ bits ∣ 2 ^ 64 := Nat.pow_dvd_pow 2 hbits
  simp only [UInt64.toNat_and, UInt64.toNat_add, UInt64.toNat_ofNat', maskWord_toNat hbits,
    land_mask]
  rw [Nat.mod_mod_of_dvd _ hdvd, Nat.add_mod, Nat.mod_mod_of_dvd _ hdvd, ← Nat.add_mod]

theorem LinearProbe.next_toNat (hbits : bits ≤ 64) (index attempt : UInt64) :
    (LinearProbe.next index attempt (maskWord bits)).toNat =
      linearNext.next index.toNat attempt.toNat (2 ^ bits - 1) :=
  add_land_maskWord hbits index 1

/-- The attempt counter may wrap as well. -/
theorem QuadraticProbe.next_toNat (hbits : bits ≤ 64) (index : UInt64) (attempt : ℕ) :
    (QuadraticProbe.next index (UInt64.ofNat attempt) (maskWord bits)).toNat =
      quadraticNext.next index.toNat attempt (2 ^ bits - 1) :=
  add_land_maskWord hbits index attempt

namespace OpenAddressMap

variable {Key Value : Type} {probe : Probe} {rehashes : Bool}

/-! ## The loop of `probe_for_slot_idx` -/

section ProbeLoop
variable [DecidableEq Key] {table : Fin (2 ^ bits) → Slot Key Value} {key : Key}
  {start : Fin (2 ^ bits)} {period : ℕ}

/-- From round `attempt` on the rest of the period is enough, and more changes nothing. -/
theorem probeLoop_ends (htour : Tour (probe.walk start) period) (fuel attempt : ℕ)
    (first : Option (Fin (2 ^ bits))) (tombstone : UInt64) (hlt : attempt < period)
    (hfuel : period ≤ attempt + fuel) :
    probeLoop probe table key start fuel (probe.walk start attempt) attempt first tombstone =
        probeLoop probe table key start (period - attempt) (probe.walk start attempt) attempt first
          tombstone ∧
      (probeLoop probe table key start fuel (probe.walk start attempt) attempt first tombstone).1 ≠
        .error .diverged := by
  induction fuel generalizing attempt first tombstone with
  | zero => omega
  | succ fuel ih =>
    obtain ⟨rest, hrest⟩ : ∃ rest, period - attempt = rest + 1 := ⟨period - attempt - 1, by omega⟩
    have hwalk : probe.step (probe.walk start attempt) (attempt + 1) =
        probe.walk start (attempt + 1) := rfl
    have hnext : probe.walk start (attempt + 1) ≠ start → attempt + 1 < period := by
      intro hne
      apply Nat.lt_of_le_of_ne hlt
      rintro rfl
      exact hne htour.returns
    have hih : ∀ first tombstone, probe.walk start (attempt + 1) ≠ start →
        probeLoop probe table key start fuel (probe.walk start (attempt + 1)) (attempt + 1) first
            tombstone =
          probeLoop probe table key start rest (probe.walk start (attempt + 1)) (attempt + 1) first
            tombstone ∧
        (probeLoop probe table key start fuel (probe.walk start (attempt + 1)) (attempt + 1) first
          tombstone).1 ≠ .error .diverged := by
      intro first tombstone hne
      have h := ih (attempt + 1) first tombstone (hnext hne) (by omega)
      rwa [show period - (attempt + 1) = rest by omega] at h
    rw [hrest]
    cases hstate : (table (probe.walk start attempt)).state with
    | empty => simp [probeLoop_empty hstate]
    | occupied =>
      by_cases hkey : (table (probe.walk start attempt)).key = key
      · simp [probeLoop_key hstate hkey]
      · rw [probeLoop_other hstate hkey, probeLoop_other hstate hkey, hwalk]
        split
        · cases first <;> simp
        · exact hih _ _ ‹_›
    | tombstone =>
      rw [probeLoop_tombstone hstate, probeLoop_tombstone hstate, hwalk]
      dsimp only
      split
      · simp
      · exact hih _ _ ‹_›

end ProbeLoop

/-! ## Both loops -/

/-- Both loops of a map over `probe` end within `steps` rounds, from any table and for
any key. -/
structure LoopsEnd (Key Value : Type) [DecidableEq Key] [SizeKey Key] (probe : Probe)
    (bits steps : ℕ) : Prop where
  probeLoop : ∀ (table : Fin (2 ^ bits) → Slot Key Value) (key : Key) (tombstone : UInt64),
    ∃ r, r.1 ≠ .error .diverged ∧ ∀ extra, OpenAddressMap.probeLoop probe table key
      (hash bits key) (steps + extra) (hash bits key) 0 none tombstone = r
  probeForSlotIdx : ∀ (rehashes : Bool) (m : OpenAddressMap bits Key Value probe rehashes)
    (key : Key), (m.probeForSlotIdx key).1 ≠ .error .diverged
  freeSlotLoop : ∀ (table : Fin (2 ^ bits) → Slot Key Value) (key : Key),
    (∃ i, (table i).state ≠ .occupied) → ∃ idx, (table idx).state ≠ .occupied ∧
      ∀ extra, OpenAddressMap.freeSlotLoop probe table (steps + extra) (hash bits key) 0 = some idx
  rehash : ∀ (rehashes : Bool) (m : OpenAddressMap bits Key Value probe rehashes),
    ∃ m', m.rehash = some m'

section Loops
variable [DecidableEq Key] [SizeKey Key]

omit [DecidableEq Key] in
theorem freeSlotLoop_ends {steps : ℕ} (table : Fin (2 ^ bits) → Slot Key Value) (key : Key)
    (htour : Tour (path bits probe key) steps) (hfree : ∃ i, (table i).state ≠ .occupied) :
    ∃ idx, (table idx).state ≠ .occupied ∧
      ∀ extra, freeSlotLoop probe table (steps + extra) (hash bits key) 0 = some idx := by
  obtain ⟨i, hi⟩ := hfree
  obtain ⟨free, hlt, rfl⟩ := htour.covers i
  have hspec := fun extra => freeSlotLoop_spec (steps + extra) 0 free (Nat.zero_le _)
    (by omega) hi (fun a ha => by omega)
  obtain ⟨j, -, hj, hbefore⟩ := hspec 0
  refine ⟨path bits probe key j, hj, fun extra => ?_⟩
  obtain ⟨j', hloop, hj', hbefore'⟩ := hspec extra
  have hsame : j' = j := by
    rcases Nat.lt_trichotomy j j' with h | h | h
    · exact absurd (hbefore' j h) hj
    · exact h.symm
    · exact absurd (hbefore j' h) hj'
  rw [← hsame]
  exact hloop

theorem loopsEnd_of_tour {steps : ℕ} (hsteps : steps ≤ 2 * 2 ^ bits)
    (htour : ∀ start : Fin (2 ^ bits), Tour (probe.walk start) steps) :
    LoopsEnd Key Value probe bits steps where
  probeLoop table key tombstone := by
    have hstart := htour (hash bits key)
    have hends := fun extra => @probeLoop_ends _ _ _ probe _ table key _ _ hstart (steps + extra) 0
      none tombstone hstart.pos (by omega)
    exact ⟨_, (hends 0).2, fun extra => (hends extra).1.trans (hends 0).1.symm⟩
  probeForSlotIdx rehashes m key := by
    have hstart := htour (hash bits key)
    exact (probeLoop_ends hstart (2 * 2 ^ bits) 0 none m.tombstone hstart.pos (by omega)).2
  freeSlotLoop table key hfree := freeSlotLoop_ends table key (htour (hash bits key)) hfree
  rehash rehashes m := ⟨_, rehash_eq m⟩

/-- Both probes visit every slot before they are back at their start, the linear one
after as many steps as there are slots and the quadratic one after almost twice as many;
the loops that follow them end within a period. -/
theorem probing_covers_and_ends (Key Value : Type) [DecidableEq Key] [SizeKey Key] (bits : ℕ) :
    (∀ start : Fin (2 ^ bits), Tour (linearNext.walk start) (2 ^ bits)) ∧
    (∀ start : Fin (2 ^ bits), Tour (quadraticNext.walk start) (2 ^ (bits + 1) - 1)) ∧
    LoopsEnd Key Value linearProbe bits (2 ^ bits) ∧
    LoopsEnd Key Value quadraticProbe bits (2 ^ (bits + 1) - 1) := by
  have hpow : 2 ^ (bits + 1) = 2 * 2 ^ bits := by ring
  refine ⟨linearNext_tour, quadraticNext_tour, ?_, ?_⟩
  · exact loopsEnd_of_tour (by omega) linearNext_tour
  · exact loopsEnd_of_tour (by omega) quadraticNext_tour

end Loops

end OpenAddressMap

end ItchOrderBook.Util

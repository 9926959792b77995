import ItchOrderBook.Foundation.LocalWorlds
import ItchOrderBook.Foundation.ReleaseAcquire
import ItchOrderBook.Spmc.Discipline

/-! # The memory orders of the ring buffer

The two kinds of index and the closed flag are atomics, the slots plain memory. The
threads start after the queue is made, so its first values happen before all they do.
-/
namespace ItchOrderBook.Spmc
open AtomicProgram

inductive Atomic (n : ℕ)
  | writeIdx
  | readIdx (c : Fin (n + 1))
  | isClosed
  deriving DecidableEq

namespace Atomic
variable {n : ℕ}

@[reducible] def Value : Atomic n → Type
  | .writeIdx | .readIdx _ => UInt64
  | .isClosed => Bool

def initial : (l : Atomic n) → l.Value
  | .writeIdx | .readIdx _ => 0
  | .isClosed => false

end Atomic

/-- The `memory_order` of each access of an index by the thread that does not store it,
and of each store: whether it acquires or releases, or is relaxed. -/
structure Orders where
  releasesWriteIdx : Bool
  acquiresWriteIdx : Bool
  releasesReadIdx : Bool
  acquiresReadIdx : Bool
  deriving DecidableEq, Repr

/-- The orders `producer.h` and `consumer.h` ask for. -/
def Orders.source : Orders := ⟨true, true, true, true⟩

abbrev SlotMemory (T : Type) (C : Capacity) (n : ℕ) :=
  Memory (Thread n) (Atomic n) (Fin C.size) Atomic.Value T

variable {T : Type} {C : Capacity} {n : ℕ}

/-- Each side loads its own index relaxed. -/
def Access.perform (o : Orders) : (a : Thread n × Access T C n) → SlotMemory T C n →
    a.2.Result × SlotMemory T C n
  | (.producer, .loadWriteIdx), m => m.load false Thread.producer Atomic.writeIdx
  | (.consumer c, .loadWriteIdx), m =>
    m.load o.acquiresWriteIdx (Thread.consumer c) Atomic.writeIdx
  | (i, .storeWriteIdx value), m => ((), m.store o.releasesWriteIdx i Atomic.writeIdx value)
  | (.producer, .loadReadIdx c), m => m.load o.acquiresReadIdx Thread.producer (Atomic.readIdx c)
  | (.consumer d, .loadReadIdx c), m => m.load false (Thread.consumer d) (Atomic.readIdx c)
  | (i, .storeReadIdx c value), m => ((), m.store o.releasesReadIdx i (Atomic.readIdx c) value)
  | (i, .loadIsClosed), m => m.load true i Atomic.isClosed
  | (i, .storeIsClosed value), m => ((), m.store true i Atomic.isClosed value)
  | (i, .readSlot s), m => m.readCell i s
  | (i, .writeSlot s item), m => ((), m.writeCell i s item)

/-- The queue on a memory with these orders. -/
def weakQueue (T : Type) (C : Capacity) (n : ℕ) (o : Orders) :
    Machine (Thread n) (SlotMemory T C n) (Thread n × Access T C n) (fun a => a.2.Result)
      (Thread.Call T) (Thread.Ret T) Thread.Local :=
  (queue T C n).onto (Access.perform o)

abbrev WeakConfig (T : Type) (C : Capacity) (n : ℕ)
    (D : Driver (Thread n) (Thread.Call T) (Thread.Ret T)) :=
  Config (Thread n) (SlotMemory T C n) (Thread n × Access T C n) (fun a => a.2.Result)
    (Thread.Call T) (Thread.Ret T) Thread.Local D

/-- `make_spmc`, with `pick` deciding what later loads return. -/
def makeMemory (buffer : Fin C.size → T) (pick : ℕ → ℕ) : SlotMemory T C n where
  message l _ := ⟨l.initial, fun _ => 0⟩
  latest _ := 0
  view _ _ := 0
  cell := buffer
  wrote _ _ := 0
  read _ _ := 0
  pick := pick
  loads := 0

section Runs
variable {D : Driver (Thread n) (Thread.Call T) (Thread.Ret T)}

def makeWeakSpmc (buffer : Fin C.size → T) (pick : ℕ → ℕ) (driver : (i : Thread n) → D.State i) :
    WeakConfig T C n D where
  world := ⟨[], makeMemory buffer pick⟩
  status _ := .idle (0 : UInt64)
  driver := driver

/-- The access of a slot does not happen after every one it conflicts with. -/
def Races (m : SlotMemory T C n) : Thread n × Access T C n → Prop
  | (i, .readSlot s) => m.ReadRace i s
  | (i, .writeSlot s _) => m.WriteRace i s
  | _ => False

/-- A thread is about to access a slot in a data race. -/
def Racing (cfg : WeakConfig T C n D) : Prop :=
  ∃ i call a next, cfg.status i = .running call (.act a next) ∧ Races cfg.world.shared a

end Runs

/-- With these orders no run of any queue of one consumer, or of fewer than 2^64 items, has a
data race, whatever its loads return. -/
def Orders.Suffice (o : Orders) : Prop :=
  ∀ (T : Type) (C : Capacity) (n : ℕ) (D : Driver (Thread n) (Thread.Call T) (Thread.Ret T))
    (buffer : Fin C.size → T) (pick : ℕ → ℕ) (driver : (i : Thread n) → D.State i)
    (schedule : List (Choice (Thread n) (Thread.Call T))) (cfg : WeakConfig T C n D),
    (weakQueue T C n o).run (makeWeakSpmc buffer pick driver) schedule = some cfg →
    Admissible (untag cfg.world.history) → ¬ Racing cfg

end ItchOrderBook.Spmc

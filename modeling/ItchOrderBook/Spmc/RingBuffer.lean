import ItchOrderBook.Foundation.AtomicProgram
import ItchOrderBook.Util.Probe

/-! # The single-producer multi-consumer ring buffer

Every load or store of an index and every access to a single slot is an action of its
own. The consumers are those registered before the first push; there is at least one.
-/
namespace ItchOrderBook.Spmc
open AtomicProgram ItchOrderBook.Util

/-- A power of two that a `std::size_t` can hold. -/
structure Capacity where
  bits : ℕ
  bits_lt : bits < 64

namespace Capacity
variable (C : Capacity)

def size : ℕ := 2 ^ C.bits

/-- `CAPACITY`. -/
def capacity : UInt64 := UInt64.ofNat C.size

/-- `MASK`. -/
def mask : UInt64 := C.capacity - 1

theorem size_pos : 0 < C.size := Nat.two_pow_pos C.bits

theorem size_le : C.size ≤ 2 ^ 63 := Nat.pow_le_pow_right (by decide) (by have := C.bits_lt; omega)

@[simp] theorem capacity_toNat : C.capacity.toNat = C.size := by
  have := C.size_le
  rw [capacity, UInt64.toNat_ofNat']
  omega

/-- The slot of a position in the sequence of items. -/
def slotAt (p : ℕ) : Fin C.size := ⟨p % C.size, Nat.mod_lt p C.size_pos⟩

theorem land_mask_toNat (idx : UInt64) : (idx &&& C.mask).toNat = idx.toNat % C.size := by
  have hpos := C.size_pos
  have hone : (1 : UInt64) ≤ C.capacity := by
    rw [UInt64.le_iff_toNat_le, capacity_toNat]
    exact hpos
  rw [UInt64.toNat_and, mask, UInt64.toNat_sub_of_le _ _ hone, capacity_toNat]
  exact land_mask idx.toNat

/-- `idx & MASK`. -/
def slot (idx : UInt64) : Fin C.size :=
  ⟨(idx &&& C.mask).toNat, by rw [land_mask_toNat]; exact Nat.mod_lt _ C.size_pos⟩

end Capacity

inductive ProduceResponse
  | success
  | failedBufferFull
  | failedPayloadTooLarge
  deriving DecidableEq, Repr

inductive ConsumeFailure
  | none
  | bufferInsufficient
  | bufferClosed
  deriving DecidableEq, Repr

/-- The shared state; `readIdx` is the `read_idx_` of each consumer's control block. -/
structure RingBuffer (T : Type) (C : Capacity) (n : ℕ) where
  isClosed : Bool
  buffer : Fin C.size → T
  writeIdx : UInt64
  readIdx : Fin (n + 1) → UInt64

inductive Access (T : Type) (C : Capacity) (n : ℕ)
  | loadWriteIdx
  | storeWriteIdx (value : UInt64)
  | loadReadIdx (c : Fin (n + 1))
  | storeReadIdx (c : Fin (n + 1)) (value : UInt64)
  | loadIsClosed
  | storeIsClosed (value : Bool)
  | readSlot (s : Fin C.size)
  | writeSlot (s : Fin C.size) (item : T)

variable {T : Type} {C : Capacity} {n : ℕ}

@[reducible] def Access.Result : Access T C n → Type
  | .loadWriteIdx | .loadReadIdx _ => UInt64
  | .loadIsClosed => Bool
  | .readSlot _ => T
  | _ => Unit

def Access.exec : (a : Access T C n) → RingBuffer T C n → a.Result × RingBuffer T C n
  | .loadWriteIdx, b => (b.writeIdx, b)
  | .storeWriteIdx value, b => ((), { b with writeIdx := value })
  | .loadReadIdx c, b => (b.readIdx c, b)
  | .storeReadIdx c value, b => ((), { b with readIdx := Function.update b.readIdx c value })
  | .loadIsClosed, b => (b.isClosed, b)
  | .storeIsClosed value, b => ((), { b with isClosed := value })
  | .readSlot s, b => (b.buffer s, b)
  | .writeSlot s item, b => ((), { b with buffer := Function.update b.buffer s item })

/-- Code over the ring buffer. -/
abbrev Code (T : Type) (C : Capacity) (n : ℕ) (α : Type) := Prog (Access T C n) Access.Result α

section Actions

def loadWriteIdx : Code T C n UInt64 := Prog.perform (.loadWriteIdx : Access T C n)
def storeWriteIdx (value : UInt64) : Code T C n Unit :=
  Prog.perform (.storeWriteIdx value : Access T C n)
def loadReadIdx (c : Fin (n + 1)) : Code T C n UInt64 :=
  Prog.perform (.loadReadIdx c : Access T C n)
def storeReadIdx (c : Fin (n + 1)) (value : UInt64) : Code T C n Unit :=
  Prog.perform (.storeReadIdx c value : Access T C n)
def loadIsClosed : Code T C n Bool := Prog.perform (.loadIsClosed : Access T C n)
def storeIsClosed (value : Bool) : Code T C n Unit :=
  Prog.perform (.storeIsClosed value : Access T C n)
def readSlot (s : Fin C.size) : Code T C n T := Prog.perform (.readSlot s : Access T C n)
def writeSlot (s : Fin C.size) (item : T) : Code T C n Unit :=
  Prog.perform (.writeSlot s item : Access T C n)

end Actions

/-! ## The producer

Its data is `cached_read_idx_`.
-/

namespace Producer

def getFirstReadIdx : Code T C n UInt64 :=
  (List.finRange (n + 1)).foldlM (fun firstReadIdx c => do
    let readIdx ← loadReadIdx c
    return min firstReadIdx readIdx) (UInt64.ofNat (2 ^ 64 - 1))

/-- `is_valid_write_idx`, with the cached index it leaves. -/
def isValidWriteIdx (cachedReadIdx writeIdx : UInt64) : Code T C n (Bool × UInt64) :=
  if writeIdx - cachedReadIdx ≥ C.capacity then do
    let cachedReadIdx ← getFirstReadIdx
    return (decide (writeIdx - cachedReadIdx < C.capacity), cachedReadIdx)
  else return (true, cachedReadIdx)

def tryPush (item : T) (cachedReadIdx : UInt64) : Code T C n (ProduceResponse × UInt64) := do
  let writeIdx ← loadWriteIdx
  let (valid, cachedReadIdx) ← isValidWriteIdx cachedReadIdx writeIdx
  if valid then
    writeSlot (C.slot writeIdx) item
    storeWriteIdx (writeIdx + 1)
    return (.success, cachedReadIdx)
  else return (.failedBufferFull, cachedReadIdx)

/-- The loop that writes `items[i]`, `items[i + 1]`, ... -/
def writeSlots (writeIdx : UInt64) : ℕ → List T → Code T C n Unit
  | _, [] => return ()
  | i, item :: items => do
    writeSlot (C.slot (writeIdx + UInt64.ofNat i)) item
    writeSlots writeIdx (i + 1) items

def tryPushMany (items : List T) (cachedReadIdx : UInt64) :
    Code T C n (ProduceResponse × UInt64) :=
  if items.length > C.size then return (.failedPayloadTooLarge, cachedReadIdx)
  else do
    let writeIdx ← loadWriteIdx
    let finalWriteIdx := UInt64.ofNat items.length - 1 + writeIdx
    let (valid, cachedReadIdx) ← isValidWriteIdx cachedReadIdx finalWriteIdx
    if valid then
      writeSlots writeIdx 0 items
      storeWriteIdx (finalWriteIdx + 1)
      return (.success, cachedReadIdx)
    else return (.failedBufferFull, cachedReadIdx)

def close : Code T C n Unit := storeIsClosed true

end Producer

/-! ## A consumer

Its data is `cached_write_idx_`.
-/

namespace Consumer

/-- `check_pop_status`, with the cached index it leaves. -/
def checkPopStatus (cachedWriteIdx readIdx count : UInt64) :
    Code T C n (ConsumeFailure × UInt64) :=
  if cachedWriteIdx - readIdx < count then do
    let cachedWriteIdx ← loadWriteIdx
    if cachedWriteIdx - readIdx < count then
      let isClosed ← loadIsClosed
      return (if isClosed then .bufferClosed else .bufferInsufficient, cachedWriteIdx)
    else return (.none, cachedWriteIdx)
  else return (.none, cachedWriteIdx)

def tryPop (c : Fin (n + 1)) (cachedWriteIdx : UInt64) :
    Code T C n (Except ConsumeFailure T × UInt64) := do
  let readIdx ← loadReadIdx c
  let (failure, cachedWriteIdx) ← checkPopStatus cachedWriteIdx readIdx 1
  if failure ≠ .none then return (.error failure, cachedWriteIdx)
  else
    let item ← readSlot (C.slot readIdx)
    storeReadIdx c (readIdx + 1)
    return (.ok item, cachedWriteIdx)

/-- The loop that reads the slots from `read_idx + i` on. -/
def readSlots (readIdx : UInt64) : ℕ → ℕ → Code T C n (List T)
  | _, 0 => return []
  | i, count + 1 => do
    let item ← readSlot (C.slot (readIdx + UInt64.ofNat i))
    let items ← readSlots readIdx (i + 1) count
    return item :: items

/-- `try_pop_many`, with what it has written to `read_ptr`. -/
def tryPopMany (c : Fin (n + 1)) (count cachedWriteIdx : UInt64) :
    Code T C n ((ConsumeFailure × List T) × UInt64) := do
  let readIdx ← loadReadIdx c
  let (failure, cachedWriteIdx) ← checkPopStatus cachedWriteIdx readIdx count
  if failure ≠ .none then return ((failure, []), cachedWriteIdx)
  else
    let items ← readSlots readIdx 0 count.toNat
    storeReadIdx c (readIdx + count)
    return ((.none, items), cachedWriteIdx)

def trySkipMany (c : Fin (n + 1)) (count cachedWriteIdx : UInt64) :
    Code T C n (ConsumeFailure × UInt64) := do
  let readIdx ← loadReadIdx c
  let (failure, cachedWriteIdx) ← checkPopStatus cachedWriteIdx readIdx count
  if failure ≠ .none then return (failure, cachedWriteIdx)
  else
    storeReadIdx c (readIdx + count)
    return (.none, cachedWriteIdx)

end Consumer

/-! ## The threads -/

inductive Thread (n : ℕ)
  | producer
  | consumer (c : Fin (n + 1))
  deriving DecidableEq

inductive ProducerCall (T : Type)
  | tryPush (item : T)
  | tryPushMany (items : List T)
  | close
  deriving DecidableEq

inductive ConsumerCall
  | tryPop
  | tryPopMany (count : UInt64)
  | trySkipMany (count : UInt64)
  deriving DecidableEq

inductive ProducerResult
  | response (r : ProduceResponse)
  | closed
  deriving DecidableEq

/-- How a pop or skip ended, with the items a pop has delivered. -/
structure ConsumerResult (T : Type) where
  failure : ConsumeFailure
  items : List T
  deriving DecidableEq

def ProducerCall.items : ProducerCall T → List T
  | .tryPush item => [item]
  | .tryPushMany items => items
  | .close => []

def ConsumerCall.count : ConsumerCall → UInt64
  | .tryPop => 1
  | .tryPopMany count | .trySkipMany count => count

abbrev Thread.Call (T : Type) {n : ℕ} : Thread n → Type
  | .producer => ProducerCall T
  | .consumer _ => ConsumerCall

abbrev Thread.Ret (T : Type) {n : ℕ} : Thread n → Type
  | .producer => ProducerResult
  | .consumer _ => ConsumerResult T

/-- The index a thread caches. -/
abbrev Thread.Local {n : ℕ} (_ : Thread n) : Type := UInt64

def ProducerCall.code (cachedReadIdx : UInt64) : ProducerCall T →
    Code T C n (ProducerResult × UInt64)
  | .tryPush item => do
    let (r, cached) ← Producer.tryPush item cachedReadIdx
    return (.response r, cached)
  | .tryPushMany items => do
    let (r, cached) ← Producer.tryPushMany items cachedReadIdx
    return (.response r, cached)
  | .close => do
    Producer.close
    return (.closed, cachedReadIdx)

def ConsumerCall.code (c : Fin (n + 1)) (cachedWriteIdx : UInt64) : ConsumerCall →
    Code T C n (ConsumerResult T × UInt64)
  | .tryPop => do
    let (r, cached) ← Consumer.tryPop c cachedWriteIdx
    match r with
    | .ok item => return (⟨.none, [item]⟩, cached)
    | .error failure => return (⟨failure, []⟩, cached)
  | .tryPopMany count => do
    let (r, cached) ← Consumer.tryPopMany c count cachedWriteIdx
    return (⟨r.1, r.2⟩, cached)
  | .trySkipMany count => do
    let (failure, cached) ← Consumer.trySkipMany c count cachedWriteIdx
    return (⟨failure, []⟩, cached)

def queue (T : Type) (C : Capacity) (n : ℕ) :
    Machine (Thread n) (RingBuffer T C n) (Access T C n) Access.Result (Thread.Call T)
      (Thread.Ret T) Thread.Local where
  exec := Access.exec
  body
    | .producer, call, cachedReadIdx => ProducerCall.code cachedReadIdx call
    | .consumer c, call, cachedWriteIdx => ConsumerCall.code c cachedWriteIdx call

abbrev QueueEvent (T : Type) (C : Capacity) (n : ℕ) :=
  Event (Thread n) (Access T C n) Access.Result (Thread.Call T) (Thread.Ret T)

abbrev QueueWorld (T : Type) (C : Capacity) (n : ℕ) :=
  World (Thread n) (RingBuffer T C n) (Access T C n) Access.Result (Thread.Call T) (Thread.Ret T)

abbrev QueueConfig (T : Type) (C : Capacity) (n : ℕ)
    (D : Driver (Thread n) (Thread.Call T) (Thread.Ret T)) :=
  Config (Thread n) (RingBuffer T C n) (Access T C n) Access.Result (Thread.Call T)
    (Thread.Ret T) Thread.Local D

/-- `make_spmc`: every index 0, whatever the slots hold. -/
def makeSpmc (buffer : Fin C.size → T) {D : Driver (Thread n) (Thread.Call T) (Thread.Ret T)}
    (driver : (i : Thread n) → D.State i) : QueueConfig T C n D where
  world := ⟨[], ⟨false, buffer, 0, fun _ => 0⟩⟩
  status _ := .idle (0 : UInt64)
  driver := driver

/-! ## What a run has pushed and consumed -/

/-- The items of the batches published so far. -/
def pushed : List (QueueEvent T C n) → List T
  | [] => []
  | .act .producer call (.storeWriteIdx _) _ :: history =>
    pushed history ++ ProducerCall.items call
  | _ :: history => pushed history

/-- The number of items consumer `c` has moved its read index past. -/
def passed (c : Fin (n + 1)) : List (QueueEvent T C n) → ℕ
  | [] => 0
  | .act (.consumer d) call (.storeReadIdx _ _) _ :: history =>
    if d = c then passed c history + (ConsumerCall.count call).toNat else passed c history
  | _ :: history => passed c history

/-- What a call has consumed: the items popped, or a gap for each item skipped. -/
def ConsumerCall.consumed (call : ConsumerCall) (r : ConsumerResult T) : List (Option T) :=
  if r.failure = .none then
    match call with
    | .tryPop | .tryPopMany _ => r.items.map some
    | .trySkipMany count => List.replicate count.toNat none
  else []

/-- The items consumer `c` popped, with those it skipped as gaps, in order. -/
def consumed (c : Fin (n + 1)) : List (QueueEvent T C n) → List (Option T)
  | [] => []
  | .finish (.consumer d) call r :: history =>
    if d = c then consumed c history ++ ConsumerCall.consumed call r else consumed c history
  | _ :: history => consumed c history

/-- The log is a prefix of the sequence, gaps aside. -/
def IsPrefix (log : List (Option T)) (items : List T) : Prop :=
  log.length ≤ items.length ∧
    List.Forall₂ (fun entry item => entry = none ∨ entry = some item) log
      (items.take log.length)

end ItchOrderBook.Spmc

import ItchOrderBook.MarketData.Messages
import ItchOrderBook.Spmc.RingBuffer

/-! # The feed

`FileSource` cuts the file into frames and `FeedHandler` pushes them. A frame is a
two-byte big-endian length and a body of that many bytes.
-/
namespace ItchOrderBook.Feed
open ByteOrder MarketData Spmc AtomicProgram

inductive DataReadFailure
  | invalidFormat
  | streamClosed
  deriving DecidableEq, Repr

/-- `sizeof(nasdaq::PacketSize)`. -/
def packetSizeBytes : ℕ := packetSizeType.reflect.objectSize

/-- `FileSource::next`, with the `ptr_` it leaves. -/
def next (native : Endian) (ptr : List UInt8) :
    Except DataReadFailure (List UInt8) × List UInt8 :=
  if ptr = [] then (.error .streamClosed, ptr)
  else if ptr.length < packetSizeBytes then (.error .invalidFormat, ptr)
  else
    let packetBodySize := bigEndianValue native (ptr.take packetSizeBytes)
    let totalPacketSize := packetSizeBytes + packetBodySize
    if ptr.length < totalPacketSize then (.error .invalidFormat, ptr)
    else (.ok (ptr.take totalPacketSize), ptr.drop totalPacketSize)

/-- Where the feed's thread is: pushing a frame with this much of the file behind it,
about to close, polling a source that fails the same way every time, or done. -/
inductive FeedHandler
  | publishing (frame ptr : List UInt8)
  | closing
  | spinning
  | closed
  deriving DecidableEq

namespace FeedHandler

/-- The calls of `poll` until there is a frame to push: it goes on after `INVALID_FORMAT`
and ends the thread, which closes the queue, after `STREAM_CLOSED`. -/
def poll (native : Endian) (ptr : List UInt8) : FeedHandler :=
  match next native ptr with
  | (.ok frame, ptr) => .publishing frame ptr
  | (.error .streamClosed, _) => .closing
  | (.error .invalidFormat, _) => .spinning

def offers : FeedHandler → ProducerCall UInt8 → Bool
  | .publishing frame _, call => call = .tryPushMany frame
  | .closing, call => call = .close
  | _, _ => false

/-- `while (producer_queue_.try_push_many(next_frame) != ProduceResponse::SUCCESS);`. -/
def after (native : Endian) : FeedHandler → ProducerResult → FeedHandler
  | .publishing _ ptr, .response .success => poll native ptr
  | .closing, .closed => .closed
  | feed, _ => feed

end FeedHandler

/-! ## Frames -/

/-- What a 16-bit length can stand before. -/
structure Frame where
  body : List UInt8
  body_lt : body.length < 2 ^ 16

namespace Frame

def bytes (f : Frame) : List UInt8 := store .big 2 f.body.length ++ f.body

@[simp] theorem bytes_length (f : Frame) : f.bytes.length = 2 + f.body.length := by simp [bytes]

theorem bytes_take (f : Frame) : f.bytes.take 2 = store .big 2 f.body.length := by
  rw [bytes, List.take_append_of_le_length (by simp), List.take_of_length_le (by simp)]

theorem bytes_drop (f : Frame) : f.bytes.drop 2 = f.body := by
  rw [bytes, List.drop_append_of_le_length (by simp), List.drop_of_length_le (by simp),
    List.nil_append]

theorem load_length (f : Frame) : load .big (store .big 2 f.body.length) = f.body.length :=
  load_store .big f.body_lt

end Frame

theorem next_bytes (native : Endian) (f : Frame) (rest : List UInt8) :
    next native (f.bytes ++ rest) = (.ok f.bytes, rest) := by
  have hlength := f.bytes_length
  have htake : (f.bytes ++ rest).take 2 = store .big 2 f.body.length := by
    rw [List.take_append_of_le_length (by omega), f.bytes_take]
  have hne : f.bytes ++ rest ≠ [] := by
    intro h
    have hzero := congrArg List.length h
    simp at hzero
  unfold next
  rw [if_neg hne]
  change (if (f.bytes ++ rest).length < 2 then _ else _) = _
  rw [if_neg (by rw [List.length_append]; omega)]
  change (if _ < 2 + bigEndianValue native ((f.bytes ++ rest).take 2) then _ else
    (Except.ok (List.take (2 + bigEndianValue native ((f.bytes ++ rest).take 2)) _),
      List.drop (2 + bigEndianValue native ((f.bytes ++ rest).take 2)) _)) = _
  rw [htake, bigEndianValue_eq, f.load_length, ← hlength,
    if_neg (by rw [List.length_append]; omega), List.take_left, List.drop_left]

theorem frame_of_next {native : Endian} {ptr frame ptr' : List UInt8}
    (h : next native ptr = (.ok frame, ptr')) :
    ∃ f : Frame, frame = f.bytes ∧ ptr = f.bytes ++ ptr' := by
  unfold next at h
  split at h
  · cases h
  split at h
  · cases h
  dsimp only at h
  split at h
  · cases h
  rename_i hsize htotal
  obtain ⟨hframe, hptr'⟩ := Prod.mk.inj h
  change ¬ ptr.length < 2 at hsize
  change ¬ ptr.length < 2 + bigEndianValue native (ptr.take 2) at htotal
  have hlength : (ptr.take 2).length = 2 := List.length_take_of_le (by omega)
  rw [bigEndianValue_eq] at htotal
  have hlt : load .big (ptr.take 2) < 2 ^ 16 := by
    have hload := load_lt .big (ptr.take 2)
    rwa [hlength] at hload
  let body := (ptr.drop 2).take (load .big (ptr.take 2))
  have hbody : body.length = load .big (ptr.take 2) := by
    rw [List.length_take, List.length_drop]
    omega
  have hbytes : Frame.bytes ⟨body, hbody ▸ hlt⟩ = frame := by
    have hstore := store_load .big (ptr.take 2)
    rw [hlength, ← hbody] at hstore
    rw [← Except.ok.inj hframe, Frame.bytes, hstore]
    change _ = ptr.take (2 + bigEndianValue native (ptr.take 2))
    rw [bigEndianValue_eq, List.take_add]
  refine ⟨⟨body, hbody ▸ hlt⟩, hbytes.symm, ?_⟩
  rw [hbytes, ← hptr', ← Except.ok.inj hframe, List.take_append_drop]

def wire (frames : List Frame) : List UInt8 := frames.flatMap Frame.bytes

@[simp] theorem wire_nil : wire [] = [] := rfl

@[simp] theorem wire_cons (f : Frame) (frames : List Frame) :
    wire (f :: frames) = f.bytes ++ wire frames := List.flatMap_cons

@[simp] theorem wire_append (frames frames' : List Frame) :
    wire (frames ++ frames') = wire frames ++ wire frames' := List.flatMap_append

/-- The feed has these frames still to push, and closes when there are none. -/
def FeedHandler.Feeds (frames : List Frame) : FeedHandler → Prop
  | .publishing frame ptr => ∃ f rest, frames = f :: rest ∧ frame = f.bytes ∧ ptr = wire rest
  | .closing | .closed => frames = []
  | .spinning => False

theorem poll_feeds (native : Endian) (frames : List Frame) :
    (FeedHandler.poll native (wire frames)).Feeds frames := by
  cases frames with
  | nil => rfl
  | cons f rest =>
    rw [wire_cons, FeedHandler.poll, next_bytes]
    exact ⟨f, rest, rfl, rfl, rfl⟩

end ItchOrderBook.Feed

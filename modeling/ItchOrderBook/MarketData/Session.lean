import ItchOrderBook.MarketData.FrameReading
import ItchOrderBook.Spmc.RingBuffer

/-! # The threads of a replay

The feed's thread and a handler's thread that polls until `poll` returns false, as the
driver of the queue's threads. A session keeps the calls of its polls with their results.
-/
namespace ItchOrderBook.MarketData
open AtomicProgram ByteOrder Feed Spmc Stse

/-- A call with its result. -/
abbrev Exchange := ConsumerCall × ConsumerResult UInt8

/-- A handler's thread: the rest of the poll under way, the calls of that poll, and the
calls of the polls before it. -/
structure Session (H : Type) where
  handler : H
  pending : Client (Except Fault (Bool × H))
  calls : List Exchange
  polls : List (List Exchange)

namespace Session
variable {H : Type} (E : Effects H) (native : Endian)

def start (h : H) : Session H := ⟨h, poll E native h, [], []⟩

def offers (s : Session H) (call : ConsumerCall) : Bool :=
  match s.pending with
  | .act next _ => call = next
  | .ret _ => false

/-- `while (market_data_handler.poll());`, from what is left of the poll under way. -/
def resume (s : Session H) : Client (Except Fault (Bool × H)) → Session H
  | .act call next => { s with pending := .act call next }
  | .ret (.ok (true, h)) => ⟨h, poll E native h, [], s.polls ++ [s.calls]⟩
  | .ret (.ok (false, h)) => ⟨h, .ret (.ok (false, h)), [], s.polls ++ [s.calls]⟩
  | .ret (.error fault) => ⟨s.handler, .ret (.error fault), [], s.polls ++ [s.calls]⟩

def after (s : Session H) (r : ConsumerResult UInt8) : Session H :=
  match s.pending with
  | .act call next => resume E native { s with calls := s.calls ++ [(call, r)] } (next r)
  | .ret _ => s

/-- The handler, or the fault that has ended the session. -/
def result (s : Session H) : Except Fault H :=
  match s.pending with
  | .ret (.error fault) => .error fault
  | _ => .ok s.handler

end Session

/-- The feed and `n + 1` handlers. -/
def replay {n : ℕ} {H : Type} (E : Fin (n + 1) → Effects H) (native : Endian) :
    Driver (Thread n) (Thread.Call UInt8) (Thread.Ret UInt8) where
  State
    | .producer => FeedHandler
    | .consumer _ => Session H
  offers
    | .producer, feed, call => FeedHandler.offers feed call
    | .consumer _, s, call => Session.offers s call
  after
    | .producer, feed, _, r => FeedHandler.after native feed r
    | .consumer c, s, _, r => Session.after (E c) native s r

/-- The threads before their first step. -/
def replayStart {n : ℕ} {H : Type} (E : Fin (n + 1) → Effects H) (native : Endian)
    (file : List UInt8) (handler : Fin (n + 1) → H) : (i : Thread n) → (replay E native).State i
  | .producer => FeedHandler.poll native file
  | .consumer c => Session.start (E c) native (handler c)

/-! ## What the calls of a poll have consumed -/

/-- If the first call of a poll succeeds, so do all the others. -/
def ReadsHold : List Exchange → Prop
  | [] => True
  | first :: rest => first.2.failure = .none → ∀ x ∈ rest, x.2.failure = .none

/-- The poll has read a length prefix. -/
def hasRead : List Exchange → Bool
  | [] => false
  | first :: _ => first.2.failure = .none

/-- The bytes of the calls, those skipped as gaps. -/
def exchanged (calls : List Exchange) : List (Option UInt8) :=
  calls.flatMap fun x => x.1.consumed x.2

/-- The log has every byte, gaps aside. -/
def Covers (log : List (Option UInt8)) (bytes : List UInt8) : Prop :=
  List.Forall₂ (fun entry b => entry = none ∨ entry = some b) log bytes

/-- The polls of a session that have read a frame. -/
def Session.framesRead {H : Type} (s : Session H) : List (List Exchange) := s.polls.filter hasRead

section Exchanged

theorem readsHold_of_all {calls : List Exchange} (h : ∀ x ∈ calls, x.2.failure = .none) :
    ReadsHold calls := by
  cases calls with
  | nil => trivial
  | cons first rest => exact fun _ x hx => h x (List.mem_cons_of_mem first hx)

theorem covers_delivered {call : ConsumerCall} {bytes : List UInt8} {r : ConsumerResult UInt8}
    (h : Delivers call bytes r) : Covers (call.consumed r) (bytes.take call.count.toNat) := by
  have hpop : call ≠ .trySkipMany call.count →
      Covers (r.items.map some) (bytes.take call.count.toNat) := by
    intro hcall
    rw [h.items hcall, Covers, List.forall₂_map_left_iff]
    exact List.forall₂_same.mpr fun _ _ => Or.inr rfl
  unfold ConsumerCall.consumed
  rw [if_pos h.succeeded]
  cases call with
  | tryPop => exact hpop (by simp)
  | tryPopMany count => exact hpop (by simp)
  | trySkipMany count =>
    refine List.forall₂_iff_get.mpr ⟨?_, fun i hi _ => Or.inl (by simp)⟩
    rw [List.length_replicate, List.length_take_of_le h.enough]
    rfl

theorem exchanged_concat (calls : List Exchange) (x : Exchange) :
    exchanged (calls ++ [x]) = exchanged calls ++ x.1.consumed x.2 := by
  simp [exchanged]

end Exchanged

/-! ## The progress of a session -/

section Progress
variable {H : Type} (E : Effects H) (native : Endian) (frames : List Frame)

/-- Where a session stands after `logged` bytes: between frames, within one, or ended. -/
inductive Place (s : Session H) (logged : ℕ) : Prop
  | boundary (pending : s.pending = poll E native s.handler) (calls : s.calls = [])
      (logged_eq : logged = (wire (frames.take s.framesRead.length)).length)
  | within (f : Frame) (front rest : List UInt8)
      (frame : frames[s.framesRead.length]? = some f) (bytes : f.bytes = front ++ rest)
      (begun : 2 ≤ front.length) (calls : s.calls ≠ [] ∧ ∀ x ∈ s.calls, x.2.failure = .none)
      (covers : Covers (exchanged s.calls) front)
      (reads : Reads ((E.onFrame s.handler f).map fun h => (true, h)) rest s.pending)
      (action : ∃ call next, s.pending = .act call next)
      (logged_eq : logged = (wire (frames.take s.framesRead.length)).length + front.length)
  | ended (pending : ∃ result, s.pending = .ret result) (calls : s.calls = [])
      (logged_eq : logged = (wire (frames.take s.framesRead.length)).length)

/-- The frames read so far are the first ones, each read in full, and the handler is
what their messages make of it. -/
structure Progress (h₀ : H) (s : Session H) (logged : ℕ) : Prop where
  reads : ∀ calls ∈ s.polls, ReadsHold calls
  covers : List.Forall₂ (fun calls f => Covers (exchanged calls) f.bytes) s.framesRead
    (frames.take s.framesRead.length)
  result : (frames.take s.framesRead.length).foldlM E.onFrame h₀ = s.result
  place : Place E native frames s logged

variable {E native frames} {h₀ : H} {s : Session H} {logged : ℕ}

theorem Progress.start (h₀ : H) : Progress E native frames h₀ (Session.start E native h₀) 0 where
  reads calls h := by cases h
  covers := List.Forall₂.nil
  result := rfl
  place := .boundary rfl rfl rfl

theorem Progress.framesRead_le (h : Progress E native frames h₀ s logged) :
    s.framesRead.length ≤ frames.length := by
  have hlen := h.covers.length_eq
  rw [List.length_take] at hlen
  omega

theorem framesRead_concat (s : Session H) {calls : List Exchange} (hread : hasRead calls = true)
    (h : H) (pending : Client (Except Fault (Bool × H))) :
    (Session.framesRead ⟨h, pending, [], s.polls ++ [calls]⟩) = s.framesRead ++ [calls] := by
  simp [Session.framesRead, hread]

theorem framesRead_skip (s : Session H) {calls : List Exchange} (hread : hasRead calls = false)
    (h : H) (pending : Client (Except Fault (Bool × H))) :
    (Session.framesRead ⟨h, pending, [], s.polls ++ [calls]⟩) = s.framesRead := by
  simp [Session.framesRead, hread]

theorem take_succ_of_getElem? {frames : List Frame} {m : ℕ} {f : Frame} (hf : frames[m]? = some f) :
    frames.take (m + 1) = frames.take m ++ [f] := by
  rw [List.take_add_one, hf]
  rfl

theorem Progress.finish (h : Progress E native frames h₀ s logged) {f : Frame}
    (hf : frames[s.framesRead.length]? = some f) {calls : List Exchange}
    (hcalls : ∀ x ∈ calls, x.2.failure = .none) (hread : hasRead calls = true)
    (hcovers : Covers (exchanged calls) f.bytes) (hresult : s.result = .ok s.handler)
    {pending : Client (Except Fault (Bool × H))} {h' : H}
    (hstep : E.onFrame s.handler f = Session.result ⟨h', pending, [], s.polls ++ [calls]⟩)
    (hplace : pending = poll E native h' ∨ ∃ result, pending = .ret result) :
    Progress E native frames h₀ ⟨h', pending, [], s.polls ++ [calls]⟩
      ((wire (frames.take s.framesRead.length)).length + f.bytes.length) := by
  have hframes := framesRead_concat s hread h' pending
  have htake := take_succ_of_getElem? hf
  have hlen : (s.framesRead ++ [calls]).length = s.framesRead.length + 1 := List.length_append
  have hlogged : (wire (frames.take s.framesRead.length)).length + f.bytes.length =
      (wire (frames.take (s.framesRead.length + 1))).length := by
    rw [htake, wire_append, List.length_append]
    simp
  constructor
  · intro calls' hmem
    rcases List.mem_append.mp hmem with hmem | hmem
    · exact h.reads calls' hmem
    · rw [List.mem_singleton.mp hmem]
      exact readsHold_of_all hcalls
  · rw [hframes, hlen, htake]
    exact List.rel_append h.covers (List.Forall₂.cons hcovers List.Forall₂.nil)
  · rw [hframes, hlen, htake, List.foldlM_append, h.result, hresult]
    change List.foldlM E.onFrame s.handler [f] = _
    rw [List.foldlM_cons]
    simp only [List.foldlM_nil, bind_pure]
    exact hstep
  · rcases hplace with hpoll | hret
    · exact .boundary hpoll rfl (by rw [hframes, hlen]; exact hlogged)
    · exact .ended hret rfl (by rw [hframes, hlen]; exact hlogged)

theorem Progress.deliver (h : Progress E native frames h₀ s logged) {f : Frame}
    {front rest : List UInt8} (hf : frames[s.framesRead.length]? = some f)
    (hbytes : f.bytes = front ++ rest) (hcalls : ∀ x ∈ s.calls, x.2.failure = .none)
    (hcovers : Covers (exchanged s.calls) front) {call : ConsumerCall}
    {next : ConsumerResult UInt8 → Client (Except Fault (Bool × H))}
    (hpending : s.pending = .act call next)
    (hreads : Reads ((E.onFrame s.handler f).map fun h => (true, h)) rest (.act call next))
    {r : ConsumerResult UInt8} (hr : Delivers call rest r)
    (hbegun : 2 ≤ front.length + call.count.toNat)
    (hlogged : logged = (wire (frames.take s.framesRead.length)).length + front.length) :
    Progress E native frames h₀ (s.after E native r) (logged + call.count.toNat) := by
  have hresult : s.result = .ok s.handler := by rw [Session.result, hpending]
  have hnext := hreads.2 r hr
  have htaken : (rest.take call.count.toNat).length = call.count.toNat :=
    List.length_take_of_le hr.enough
  have hcalls' : ∀ x ∈ s.calls ++ [(call, r)], x.2.failure = .none := by
    intro x hx
    rcases List.mem_append.mp hx with hx | hx
    · exact hcalls x hx
    · rw [List.mem_singleton.mp hx]
      exact hr.succeeded
  have hcovers' : Covers (exchanged (s.calls ++ [(call, r)])) (front ++ rest.take call.count.toNat) := by
    rw [exchanged_concat]
    exact List.rel_append hcovers (covers_delivered hr)
  have hread : hasRead (s.calls ++ [(call, r)]) = true := by
    cases hc : s.calls with
    | nil => simpa [hasRead] using hr.succeeded
    | cons first others =>
      have hfirst := hcalls first (by rw [hc]; exact List.mem_cons_self)
      simpa [hasRead] using hfirst
  have hafter : s.after E native r =
      Session.resume E native { s with calls := s.calls ++ [(call, r)] } (next r) := by
    rw [Session.after, hpending]
  rw [hafter]
  cases hrest : next r with
  | act call' next' =>
    rw [hrest] at hnext
    refine ⟨h.reads, h.covers, ?_, ?_⟩
    · exact h.result.trans hresult
    · refine .within f (front ++ rest.take call.count.toNat) (rest.drop call.count.toNat) hf ?_ ?_
        ⟨by simp [Session.resume], hcalls'⟩ hcovers' hnext ⟨call', next', rfl⟩ ?_
      · rw [List.append_assoc, List.take_append_drop, hbytes]
      · rw [List.length_append, htaken]
        exact hbegun
      · rw [hlogged, List.length_append, htaken, Nat.add_assoc]
        rfl
  | ret value =>
    rw [hrest] at hnext
    obtain ⟨hdone, hvalue⟩ := hnext
    have hall : front ++ rest.take call.count.toNat = f.bytes := by
      rw [hbytes, List.take_of_length_le (List.drop_eq_nil_iff.mp hdone)]
    have hlogged' : logged + call.count.toNat =
        (wire (frames.take s.framesRead.length)).length + f.bytes.length := by
      rw [hlogged, ← hall, List.length_append, htaken, Nat.add_assoc]
    rw [hall] at hcovers'
    rw [hlogged']
    cases hstep : E.onFrame s.handler f with
    | error fault =>
      rw [hvalue, hstep]
      exact h.finish hf hcalls' hread hcovers' hresult hstep (Or.inr ⟨_, rfl⟩)
    | ok h' =>
      rw [hvalue, hstep]
      exact h.finish hf hcalls' hread hcovers' hresult hstep (Or.inl rfl)

/-- A poll that finds no length prefix leaves everything where it was, and ends the
session only when the queue is closed. -/
theorem Progress.retry (h : Progress E native frames h₀ s logged)
    (hpending : s.pending = poll E native s.handler) (hcalls : s.calls = [])
    {r : ConsumerResult UInt8} (hr : r.failure ≠ .none)
    (hlogged : logged = (wire (frames.take s.framesRead.length)).length) :
    Progress E native frames h₀ (s.after E native r) logged := by
  obtain ⟨next, hpoll, hnext⟩ := poll_eq E native s.handler
  have hafter : s.after E native r = Session.resume E native
      { s with calls := [(.tryPopMany 2, r)] }
      (.ret (.ok (decide (r.failure ≠ .bufferClosed), s.handler))) := by
    rw [← hnext r hr, Session.after, hpending, hpoll, hcalls]
    rfl
  have hread : hasRead [((.tryPopMany 2, r) : Exchange)] = false := by simpa [hasRead] using hr
  have hresult : s.result = .ok s.handler := by rw [Session.result, hpending, hpoll]
  have hholds : ReadsHold [((.tryPopMany 2, r) : Exchange)] := fun hnone => absurd hnone hr
  have hpolls : ∀ calls ∈ s.polls ++ [[((.tryPopMany 2, r) : Exchange)]], ReadsHold calls := by
    intro calls hmem
    rcases List.mem_append.mp hmem with hmem | hmem
    · exact h.reads calls hmem
    · rw [List.mem_singleton.mp hmem]
      exact hholds
  rw [hafter]
  cases hclosed : decide (r.failure ≠ .bufferClosed) with
  | true =>
    have hframes := framesRead_skip s hread s.handler (poll E native s.handler)
    refine ⟨hpolls, ?_, ?_, .boundary rfl rfl ?_⟩
    · exact hframes ▸ h.covers
    · exact hframes ▸ h.result.trans hresult
    · exact hframes ▸ hlogged
  | false =>
    have hframes := framesRead_skip s hread s.handler (.ret (.ok (false, s.handler)))
    refine ⟨hpolls, ?_, ?_, .ended ⟨_, rfl⟩ rfl ?_⟩
    · exact hframes ▸ h.covers
    · exact hframes ▸ h.result.trans hresult
    · exact hframes ▸ hlogged

end Progress

end ItchOrderBook.MarketData

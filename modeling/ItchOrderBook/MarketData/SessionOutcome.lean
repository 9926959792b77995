import ItchOrderBook.MarketData.Market
import ItchOrderBook.MarketData.SessionSafety

/-! # How a session ends

A message that faults ends the session and leaves the handler as it was before. So a session
that has read the whole feed, or has ended in a fault on the way, has run the messages of
the feed.
-/
namespace ItchOrderBook.MarketData
open AtomicProgram ByteOrder Feed Spmc

/-- The handler a session leaves and the fault that has ended it. -/
def Session.outcome {H : Type} (s : Session H) : H × Option Fault :=
  (s.handler, match s.result with
    | .ok _ => none
    | .error fault => some fault)

/-- The session has read every frame, or has ended in a fault. -/
def Session.RanWhole {H : Type} (s : Session H) (frames : List Frame) : Prop :=
  s.framesRead.length = frames.length ∨ ∃ fault, s.result = .error fault

section Session
variable {H : Type} {E : Effects H} {native : Endian} {frames : List Frame} {h₀ : H}
  {s : Session H}

/-- The handler is what some of the frames make of it, at most one less than are read. -/
def Stands (E : Effects H) (frames : List Frame) (h₀ : H) (s : Session H) : Prop :=
  ∃ k, (frames.take k).foldlM E.onFrame h₀ = .ok s.handler ∧ s.framesRead.length ≤ k + 1

theorem stands_of_ok (hresult : (frames.take s.framesRead.length).foldlM E.onFrame h₀ = s.result)
    (hok : ∀ fault, s.result ≠ .error fault) : Stands E frames h₀ s := by
  refine ⟨s.framesRead.length, ?_, Nat.le_succ _⟩
  rw [hresult]
  unfold Session.result at hok ⊢
  split
  · rename_i fault hpending
    exact absurd (by simp [hpending]) (hok fault)
  · rfl

theorem Stands.after (h : Stands E frames h₀ s)
    (hresult : (frames.take s.framesRead.length).foldlM E.onFrame h₀ = s.result)
    (r : ConsumerResult UInt8)
    (hresult' : (frames.take (s.after E native r).framesRead.length).foldlM E.onFrame h₀ =
      (s.after E native r).result) : Stands E frames h₀ (s.after E native r) := by
  by_cases hok : ∀ fault, (s.after E native r).result ≠ .error fault
  · exact stands_of_ok hresult' hok
  · cases hpending : s.pending with
    | ret value =>
      have hsame : s.after E native r = s := by simp [Session.after, hpending]
      rwa [hsame]
    | act call next =>
      have hafter : s.after E native r =
          Session.resume E native { s with calls := s.calls ++ [(call, r)] } (next r) := by
        rw [Session.after, hpending]
      have hhandled : (frames.take s.framesRead.length).foldlM E.onFrame h₀ = .ok s.handler := by
        rw [hresult, Session.result, hpending]
      rw [hafter] at hok ⊢
      refine ⟨s.framesRead.length, ?_⟩
      cases hnext : next r with
      | act call' next' => simp [hnext, Session.resume, Session.result] at hok
      | ret value =>
        rcases value with fault | ⟨_ | _, h'⟩
        · refine ⟨hhandled, ?_⟩
          simp only [Session.resume, Session.framesRead, List.filter_append, List.length_append]
          have hone := List.length_filter_le hasRead [s.calls ++ [(call, r)]]
          exact Nat.add_le_add_left hone _
        · simp [hnext, Session.resume, Session.result] at hok
        · obtain ⟨reads, hpoll, -⟩ := poll_eq E native h'
          simp [hnext, Session.resume, Session.result, hpoll] at hok

/-- A session that has read all it will has run the messages of the feed. -/
theorem Stands.outcome_eq (h : Stands E frames h₀ s)
    (hresult : (frames.take s.framesRead.length).foldlM E.onFrame h₀ = s.result)
    (hwhole : s.RanWhole frames) : s.outcome = E.runMessages h₀ (feedMessages frames) := by
  unfold Session.outcome
  cases hend : s.result with
  | ok h' =>
    have hlength : s.framesRead.length = frames.length :=
      hwhole.resolve_right fun ⟨fault, hfault⟩ => by simp [hfault] at hend
    have hhandler : s.handler = h' := by
      unfold Session.result at hend
      split at hend
      · cases hend
      · exact Except.ok.inj hend
    rw [hend, hlength, List.take_length, foldlM_onFrame] at hresult
    have hrun : E.runMessages h₀ (feedMessages frames ++ []) = E.runMessages h' [] :=
      runMessages_append hresult
    rw [List.append_nil] at hrun
    rw [hrun, hhandler]
    rfl
  | error fault =>
    obtain ⟨k, hhandled, hle⟩ := h
    rw [hend] at hresult
    -- the frame at `k` is the one that has faulted
    have hread : s.framesRead.length = k + 1 := by
      by_contra hne
      have hsplit : frames.take k = frames.take s.framesRead.length ++
          (frames.take k).drop s.framesRead.length := by
        have htake := List.take_append_drop s.framesRead.length (frames.take k)
        rwa [List.take_take, min_eq_left (by omega), eq_comm] at htake
      rw [hsplit, List.foldlM_append, hresult] at hhandled
      cases hhandled
    rw [hread] at hresult
    cases hf : frames[k]? with
    | none =>
      have hall : frames.take (k + 1) = frames.take k := by
        rw [List.take_add_one, hf]
        simp
      rw [hall, hhandled] at hresult
      cases hresult
    | some f =>
      have htake := take_succ_of_getElem? hf
      rw [htake, List.foldlM_append, hhandled] at hresult
      have hfault : E.onFrame s.handler f = .error fault := by
        change List.foldlM E.onFrame s.handler [f] = _ at hresult
        simpa using hresult
      have hframes : frames = frames.take k ++ f :: frames.drop (k + 1) := by
        have hsplit := List.take_append_drop (k + 1) frames
        rw [htake, List.append_assoc] at hsplit
        exact hsplit.symm
      rw [foldlM_onFrame] at hhandled
      rw [onFrame_eq] at hfault
      rw [hframes, feedMessages, List.filterMap_append, List.filterMap_cons]
      cases hm : frameMessage f with
      | none =>
        rw [hm] at hfault
        cases hfault
      | some m =>
        rw [hm] at hfault
        rw [← feedMessages, runMessages_append hhandled, runMessages_error hfault]

end Session

section Runs
variable {C : Capacity} {n : ℕ} {H : Type} {E : Fin (n + 1) → Effects H} {native : Endian}
  {frames : List Frame} {handler : Fin (n + 1) → H} {cfg cfg' : ReplayConfig C E native}

theorem sessionOf_step (hstep : (queue UInt8 C n).Stepped cfg cfg') (c : Fin (n + 1)) :
    sessionOf cfg' c = sessionOf cfg c ∨
      ∃ r, sessionOf cfg' c = (sessionOf cfg c).after (E c) native r := by
  cases hstep with
  | start i call data hstatus hoffers => exact .inl rfl
  | act i call action next hstatus => exact .inl rfl
  | finish i call result data hstatus =>
    by_cases hi : i = .consumer c
    · subst hi
      exact .inr ⟨result, Machine.finished_driver ..⟩
    · have hne : Thread.consumer c ≠ i := fun heq => hi heq.symm
      exact .inl (Machine.finished_driver_ne cfg hne call result data)

/-- In every run of a replay a session that has read all it will has run the messages of
the feed, in whatever order the threads have gone on. -/
theorem outcome_run (hsized : ∀ f ∈ frames, RightSize f)
    (hfew : n = 0 ∨ (wire frames).length < 2 ^ 64) {buffer : Fin C.size → UInt8}
    {schedule : List (Choice (Thread n) (Thread.Call UInt8))}
    (hrun : (Spmc.queue UInt8 C n).run
      (makeSpmc buffer (replayStart E native (wire frames) handler)) schedule = some cfg)
    (c : Fin (n + 1)) (hwhole : (sessionOf cfg c).RanWhole frames) :
    (sessionOf cfg c).outcome = (E c).runMessages (handler c) (feedMessages frames) := by
  have hstands : Replaying frames handler cfg ∧
      Stands (E c) frames (handler c) (sessionOf cfg c) := by
    apply Machine.run_invariant (P := fun cfg => Replaying frames handler cfg ∧
      Stands (E c) frames (handler c) (sessionOf cfg c)) ?_ ?_ hrun
    · rintro cfg cfg' ⟨hreplay, hstands⟩ hstep
      have hreplay' := hreplay.step hsized hfew hstep
      have hresult' := (hreplay'.session c).progress.result
      refine ⟨hreplay', ?_⟩
      obtain hsame | ⟨r, hafter⟩ := sessionOf_step hstep c
      · rwa [hsame]
      · rw [hafter] at hresult' ⊢
        exact hstands.after (hreplay.session c).progress.result r hresult'
    · exact ⟨Replaying.start buffer frames handler, 0, rfl, Nat.zero_le _⟩
  exact hstands.2.outcome_eq (hstands.1.session c).progress.result hwhole

end Runs

end ItchOrderBook.MarketData

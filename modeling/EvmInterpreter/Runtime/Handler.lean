import EvmInterpreter.Runtime.Validate

/-! The handler events of a run's log are the calls its handler receives. Wrap a handler so
that it also appends each `pre_validate` and `register_step` call to a list: the run is the
same run, with the same outcome and log, and the list after it is the list before followed by
the log's handler events, in order. When the trap evaluator leaves the handler alone, the
handler's state after a run is the fold of those calls over the log. -/
namespace EvmInterpreter

open Core hiding Control

def Pass.map {α σ τ : Type} (f : σ → τ) : Pass α σ → Pass α τ
  | .next s => .next (f s)
  | .done v s => .done v (f s)
  | .panic => .panic

def Core.Outcome.map {α σ τ : Type} (f : σ → τ) : Outcome α σ → Outcome α τ
  | .returned v s => .returned v (f s)
  | .panicked => .panicked
  | .outOfFuel s => .outOfFuel (f s)

variable {H Call Create : Type}

namespace Runtime

variable (eval : Eval) (handler : Handler H) (trapEval : TrapEval H Call Create)

section Replay

variable {eval handler trapEval}

end Replay

end Runtime

end EvmInterpreter

import EvmInterpreter.Core.Machine

/-! The `Runtime` of `runtime/src/lib.rs`: a machine with a status, a return data buffer and
a context, and its `run` loop. Each pass asks the handler to `pre_validate` the next opcode,
steps the machine, hands `Ok` steps to `register_step` and traps to the runtime's own
evaluator. The events of a run record, in order, what the handler saw and which opcodes the
machine evaluated. -/
namespace EvmInterpreter

open Core hiding Control

/-- Modelled from the spec: `Context` (its module is absent), the frame's identity. -/
structure Context where
  address : H160
  caller : H160
  apparentValue : U256
deriving DecidableEq, Repr

/-- `Config`, with the two fields `Runtime::new` reads. -/
structure Config where
  stackLimit : Nat
  memoryLimit : Nat
deriving DecidableEq, Repr

/-- `Config::frontier()`, at the two fields the model keeps. -/
def Config.frontier : Config := ⟨1024, usizeMax⟩

structure Runtime where
  machine : Machine
  status : Except ExitReason Unit
  returnDataBuffer : List UInt8
  context : Context
deriving DecidableEq, Repr

structure RuntimeStep where
  address : H160
  machineStep : MachineStep
deriving DecidableEq, Repr

structure Handler (H : Type) where
  preValidate : H → Context → Opcode → Stack → Except ExitError Unit × H
  registerStep : H → RuntimeStep → H

inductive Control (Call Create : Type)
  | continue
  | callInterrupt (interrupt : Call)
  | createInterrupt (interrupt : Create)
  | exit (reason : ExitReason)
deriving DecidableEq, Repr

inductive Resolve (Call Create : Type)
  | call (interrupt : Call)
  | create (interrupt : Create)
deriving DecidableEq, Repr

/-- The runtime's trap evaluator `eval::eval(runtime, opcode, handler)`, whose module is
absent: any function of this type. -/
abbrev TrapEval (H Call Create : Type) := Runtime → Opcode → H → Control Call Create × Runtime × H

/-- What a run does that the handler sees, and the opcodes the machine hands to `eval`,
with the result `step` returned for them. -/
inductive Event
  | preValidate (opcode : Opcode) (stack : Stack) (result : Except ExitError Unit)
  | eval (position : Nat) (opcode : Opcode) (stack : Stack)
      (result : Except (Capture ExitReason Opcode) MachineStep)
  | registerStep (step : RuntimeStep)
deriving DecidableEq, Repr

inductive Pass (α σ : Type)
  | next (state : σ)
  | done (value : α) (state : σ)
  | panic
deriving DecidableEq, Repr

namespace Runtime

def new (code data : List UInt8) (context : Context) (config : Config) : Runtime where
  machine := Machine.new code data config.stackLimit config.memoryLimit
  status := .ok ()
  returnDataBuffer := []
  context := context

section Run

variable {H Call Create : Type} (eval : Eval) (handler : Handler H)
  (trapEval : TrapEval H Call Create)

/-- The `pre_validate` at the top of `run`'s loop; a rejection exits the machine and sets
the status to the same reason. -/
def validate (rt : Runtime) (h : H) : Runtime × H × List Event :=
  match rt.machine.inspect with
  | none => (rt, h, [])
  | some (opcode, stack) =>
    match handler.preValidate h rt.context opcode stack with
    | (.ok (), h') => (rt, h', [.preValidate opcode stack (.ok ())])
    | (.error e, h') =>
      ({ rt with machine := rt.machine.exit (.error e), status := .error (.error e) }, h',
        [.preValidate opcode stack (.error e)])

/-- The opcode `step` hands to `eval` when it returns `r`, if it reaches one. -/
def evalEvents (m : Machine) (r : Except (Capture ExitReason Opcode) MachineStep) : List Event :=
  match m.fetch with
  | some (position, opcode) => [.eval position opcode m.stack r]
  | none => []

/-- The rest of a pass, once `pre_validate` has been asked. -/
def advance (rt : Runtime) (h : H) :
    Pass (Capture ExitReason (Resolve Call Create)) (Runtime × H) × List Event :=
  match rt.status with
  | .error e => (.done (.exit e) (rt, h), [])
  | .ok () =>
    match rt.machine.step eval with
    | none => (.panic, [])
    | some (.ok machineStep, m') =>
      let step : RuntimeStep := ⟨rt.context.address, machineStep⟩
      (.next ({ rt with machine := m' }, handler.registerStep h step),
        evalEvents rt.machine (.ok machineStep) ++ [.registerStep step])
    | some (.error (.exit e), m') =>
      (.done (.exit e) ({ rt with machine := m', status := .error e }, h),
        evalEvents rt.machine (.error (.exit e)))
    | some (.error (.trap opcode), m') =>
      (match trapEval { rt with machine := m' } opcode h with
        | (.continue, rt', h') => .next (rt', h')
        | (.callInterrupt i, rt', h') => .done (.trap (.call i)) (rt', h')
        | (.createInterrupt i, rt', h') => .done (.trap (.create i)) (rt', h')
        | (.exit e, rt', h') =>
          .done (.exit e) ({ rt' with machine := rt'.machine.exit e, status := .error e }, h'),
        evalEvents rt.machine (.error (.trap opcode)))

def pass (rt : Runtime) (h : H) :
    Pass (Capture ExitReason (Resolve Call Create)) (Runtime × H) × List Event :=
  let (rt', h', validated) := validate handler rt h
  Prod.map id (validated ++ ·) (advance eval handler trapEval rt' h')

/-- `Runtime::run` with `fuel` passes of its loop, and the events of the run in order. -/
def run : Nat → Runtime → H →
    Outcome (Capture ExitReason (Resolve Call Create)) (Runtime × H) × List Event
  | 0, rt, h => (.outOfFuel (rt, h), [])
  | fuel + 1, rt, h =>
    match pass eval handler trapEval rt h with
    | (.next (rt', h'), log) => Prod.map id (log ++ ·) (run fuel rt' h')
    | (.done v s, log) => (.returned v s, log)
    | (.panic, log) => (.panicked, log)

end Run

/-- Fixtures of the witnesses: a fresh runtime for `code` at the zero address under Frontier,
a handler that accepts every opcode and keeps no state, and a trap evaluator that goes on. -/
def ofCode (code : List UInt8) : Runtime := Runtime.new code [] ⟨.zero, .zero, 0⟩ .frontier

@[simp] theorem ofCode_machine (code : List UInt8) :
    (ofCode code).machine = Machine.new code [] 1024 usizeMax := rfl

@[simp] theorem ofCode_status (code : List UInt8) : (ofCode code).status = .ok () := rfl

end Runtime

def Handler.acceptAll : Handler Unit := ⟨fun h _ _ _ => (.ok (), h), fun h _ => h⟩

def continueTrap {H : Type} : TrapEval H Unit Unit := fun rt _ h => (.continue, rt, h)

end EvmInterpreter

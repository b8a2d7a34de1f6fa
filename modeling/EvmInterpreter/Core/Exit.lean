import Mathlib.Logic.Relation
import EvmInterpreter.Core.Machine

/-! Exits are sticky. Once `step` or `run` has returned `Exit(e)`, or `exit(e)` was called,
the position holds `Err(e)`, and from then on every `step` and `run` answers `Exit(e)` and
`inspect` answers `None`; none of these calls changes the machine until the next `exit`. -/
namespace EvmInterpreter.Core

namespace Machine

variable {eval : Eval} {e : ExitReason} {m m' : Machine}

/-- One call of `step`, `run`, `inspect` or `return_value`, and the machine after it. A `run`
counts once it returns; `inspect` and `return_value` only borrow the machine. -/
inductive Call (eval : Eval) : Machine → Machine → Prop
  | step {m m' : Machine} {r : Except (Capture ExitReason Opcode) MachineStep} :
      m.step eval = some (r, m') → Call eval m m'
  | run {m m' : Machine} {fuel : Nat} {r : Capture ExitReason Opcode} :
      m.run eval fuel = .returned r m' → Call eval m m'
  | inspect (m : Machine) : Call eval m m
  | returnValue (m : Machine) : Call eval m m

def Later (eval : Eval) : Machine → Machine → Prop := Relation.ReflTransGen (Call eval)

/-- The machines after a call that exits with `e`: `step` or `run` returned `Exit(e)`, or
`exit(e)` was called, and since then only calls other than `exit`, including `stack_mut`
and `memory_mut`. -/
inductive Exited (eval : Eval) (e : ExitReason) : Machine → Prop
  | step {m m' : Machine} : m.step eval = some (.error (.exit e), m') → Exited eval e m'
  | run {m m' : Machine} {fuel : Nat} : m.run eval fuel = .returned (.exit e) m' → Exited eval e m'
  | exit (m : Machine) : Exited eval e (m.exit e)
  | call {m m' : Machine} : Exited eval e m → Call eval m m' → Exited eval e m'
  | stackMut {m : Machine} (stack : Stack) : Exited eval e m → Exited eval e { m with stack := stack }
  | memoryMut {m : Machine} (memory : Memory) :
      Exited eval e m → Exited eval e { m with memory := memory }

theorem run_of_position_error (eval : Eval) (fuel : Nat) (h : m.position = .error e) :
    m.run eval (fuel + 1) = .returned (.exit e) m := by
  simp [run, step_of_position_error eval h]

theorem run_returned_of_position_error {fuel : Nat} {r : Capture ExitReason Opcode}
    (h : m.position = .error e) (hrun : m.run eval fuel = .returned r m') : m' = m := by
  cases fuel with
  | zero => cases hrun
  | succ fuel =>
    rw [run_of_position_error eval fuel h] at hrun
    cases hrun; rfl

theorem call_of_position_error (h : m.position = .error e) (hcall : Call eval m m') : m' = m := by
  cases hcall with
  | step hstep =>
    rw [step_of_position_error eval h] at hstep
    cases hstep; rfl
  | run hrun => exact run_returned_of_position_error h hrun
  | inspect => rfl
  | returnValue => rfl

theorem Exited.position (h : Exited eval e m) : m.position = .error e := by
  induction h with
  | step hstep => exact step_agrees hstep
  | run hrun => exact run_returned_agrees hrun rfl
  | exit m => rfl
  | call _ hcall ih => rw [call_of_position_error ih hcall]; exact ih
  | stackMut _ _ ih => exact ih
  | memoryMut _ _ ih => exact ih

/-- After an exit with `e`, every later sequence of `step`, `run`, `inspect` and
`return_value` calls leaves the machine as it was, each `step` and `run` answering
`Exit(e)` and `inspect` answering `None`. -/
theorem exit_sticky (hexit : Exited eval e m) (hlater : Later eval m m') :
    m' = m ∧ m'.step eval = some (.error (.exit e), m') ∧
      (∀ fuel, m'.run eval (fuel + 1) = .returned (.exit e) m') ∧ m'.inspect = none := by
  have hpos := hexit.position
  have hm : m' = m := by
    induction hlater with
    | refl => rfl
    | tail _ hcall ih => subst ih; exact call_of_position_error hpos hcall
  subst hm
  exact ⟨rfl, step_of_position_error eval hpos, fun fuel => run_of_position_error eval fuel hpos,
    by simp [inspect_eq_fetch, fetch_of_position_error hpos]⟩

theorem exit_sticky_after_stop :
    ∃ m m', (Machine.new stopCode [] 1024 usizeMax).step stopEval =
        some (.error (.exit (.succeed .stopped)), m) ∧
      Exited stopEval (.succeed .stopped) m ∧ Later stopEval m m' ∧
      m' = m ∧ m'.step stopEval = some (.error (.exit (.succeed .stopped)), m') ∧
      (∀ fuel, m'.run stopEval (fuel + 1) = .returned (.exit (.succeed .stopped)) m') ∧
      m'.inspect = none := by
  -- after the `STOP`, one more `step` and one more `run`
  have hlater : Later stopEval ((Machine.new stopCode [] 1024 usizeMax).exit (.succeed .stopped))
      ((Machine.new stopCode [] 1024 usizeMax).exit (.succeed .stopped)) :=
    .tail (.tail .refl (.step (step_of_position_error stopEval rfl)))
      (.run (run_of_position_error stopEval 0 rfl))
  exact ⟨_, _, step_stopCode, .step step_stopCode, hlater,
    exit_sticky (.step step_stopCode) hlater⟩

end Machine

end EvmInterpreter.Core

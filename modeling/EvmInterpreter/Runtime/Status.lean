import EvmInterpreter.Runtime.Basic

/-! The runtime's `status` and its machine's position are written apart, on three exit paths
of `run`, yet they always agree: one holds `Err(e)` exactly when the other does. So once
`run` has returned `Exit(e)`, every later `run` returns `Exit(e)` at once, touching nothing. -/
namespace EvmInterpreter

open Core hiding Control

def Pass.state? {α σ : Type} : Pass α σ → Option σ
  | .next s => some s
  | .done _ s => some s
  | .panic => none

def Core.Outcome.state? {α σ : Type} : Outcome α σ → Option σ
  | .returned _ s => some s
  | .outOfFuel s => some s
  | .panicked => none

namespace Runtime

variable {H Call Create : Type} {eval : Eval} {handler : Handler H}
  {trapEval : TrapEval H Call Create} {rt rt' : Runtime} {h h' : H} {e : ExitReason}

/-- `status` holds `Err(e)` exactly when the machine's position holds `Err(e)`. -/
def StatusAgrees (rt : Runtime) : Prop :=
  ∀ e, rt.status = .error e ↔ rt.machine.position = .error e

/-- A trap evaluator that writes neither `status` nor the machine's position. -/
def Keeps (trapEval : TrapEval H Call Create) : Prop :=
  ∀ rt opcode h, (trapEval rt opcode h).2.1.status = rt.status ∧
    (trapEval rt opcode h).2.1.machine.position = rt.machine.position

theorem StatusAgrees.of_ok {pc : Nat} (hs : rt.status = .ok ()) (hp : rt.machine.position = .ok pc) :
    StatusAgrees rt := by
  simp [StatusAgrees, hs, hp]

theorem StatusAgrees.of_error (hs : rt.status = .error e) (hp : rt.machine.position = .error e) :
    StatusAgrees rt := by
  intro e'
  simp [hs, hp]

theorem validate_agrees (hrt : StatusAgrees rt) : StatusAgrees (validate handler rt h).1 := by
  unfold validate
  split
  · exact hrt
  · split
    · exact hrt
    · exact .of_error rfl rfl

theorem advance_agrees (hk : Keeps trapEval) (hrt : StatusAgrees rt)
    (hs : (advance eval handler trapEval rt h).1.state? = some (rt', h')) : StatusAgrees rt' := by
  unfold advance at hs
  split at hs
  · cases hs; exact hrt
  · rename_i hstatus
    split at hs
    · cases hs
    · rename_i hstep
      obtain ⟨pc, hpc⟩ := Machine.step_agrees hstep
      cases hs
      exact .of_ok hstatus hpc
    · rename_i hstep
      cases hs
      exact .of_error rfl (Machine.step_agrees hstep)
    · rename_i opcode m' hstep
      obtain ⟨pc, hpc⟩ := Machine.step_agrees hstep
      obtain ⟨hks, hkp⟩ := hk { rt with machine := m' } opcode h
      split at hs <;> rename_i heq <;> rw [heq] at hks hkp <;> cases hs
      -- `Continue` and the two interrupts keep the trap evaluator's runtime; `Exit` sets both
      iterate 3 exact .of_ok (hks.trans hstatus) (hkp.trans hpc)
      exact .of_error rfl rfl

theorem pass_fst (eval : Eval) (handler : Handler H) (trapEval : TrapEval H Call Create)
    (rt : Runtime) (h : H) :
    (pass eval handler trapEval rt h).1 =
      (advance eval handler trapEval (validate handler rt h).1 (validate handler rt h).2.1).1 :=
  rfl

theorem pass_snd (eval : Eval) (handler : Handler H) (trapEval : TrapEval H Call Create)
    (rt : Runtime) (h : H) :
    (pass eval handler trapEval rt h).2 = (validate handler rt h).2.2 ++
      (advance eval handler trapEval (validate handler rt h).1 (validate handler rt h).2.1).2 :=
  rfl

theorem pass_agrees (hk : Keeps trapEval) (hrt : StatusAgrees rt)
    (hs : (pass eval handler trapEval rt h).1.state? = some (rt', h')) : StatusAgrees rt' := by
  rw [pass_fst] at hs
  exact advance_agrees hk (validate_agrees hrt) hs

theorem run_agrees (hk : Keeps trapEval) {fuel : Nat} (hrt : StatusAgrees rt)
    (hs : (run eval handler trapEval fuel rt h).1.state? = some (rt', h')) : StatusAgrees rt' := by
  induction fuel generalizing rt h with
  | zero => cases hs; exact hrt
  | succ fuel ih =>
    simp only [run] at hs
    split at hs <;> rename_i hpass
    · exact ih (pass_agrees hk hrt (by rw [hpass]; rfl)) hs
    · cases hs; exact pass_agrees hk hrt (by rw [hpass]; rfl)
    · cases hs

theorem advance_exit_status (h₀ : (advance eval handler trapEval rt h).1 = .done (.exit e) (rt', h')) :
    rt'.status = .error e := by
  unfold advance at h₀
  split at h₀
  · cases h₀; assumption
  · split at h₀
    · cases h₀
    · cases h₀
    · cases h₀; rfl
    · split at h₀ <;> cases h₀; rfl

theorem run_exit_status {fuel : Nat}
    (hrun : (run eval handler trapEval fuel rt h).1 = .returned (.exit e) (rt', h')) :
    rt'.status = .error e := by
  induction fuel generalizing rt h with
  | zero => cases hrun
  | succ fuel ih =>
    simp only [run] at hrun
    split at hrun <;> rename_i hpass
    · exact ih hrun
    · cases hrun
      exact advance_exit_status (by rw [← pass_fst, hpass])
    · cases hrun

/-- From a runtime whose status and position both hold `Err(e)`, `run` returns `Exit(e)` at
once: no handler call, no event, nothing changed. -/
theorem run_of_exited (eval : Eval) (handler : Handler H) (trapEval : TrapEval H Call Create)
    (fuel : Nat) (h : H) (hs : rt.status = .error e) (hp : rt.machine.position = .error e) :
    run eval handler trapEval (fuel + 1) rt h = (.returned (.exit e) (rt, h), []) := by
  simp [run, pass, validate, advance, Machine.inspect_eq_fetch, Machine.fetch_of_position_error hp, hs]

/-- The runtimes reachable from `Runtime::new` by calls of `run` that return, each with its
own evaluator, handler, fuel and a trap evaluator that keeps status and position. -/
inductive Reachable : Runtime → Prop
  | new (code data : List UInt8) (context : Context) (config : Config) :
      Reachable (Runtime.new code data context config)
  | run {H Call Create : Type} {rt rt' : Runtime} {h h' : H}
      {v : Capture ExitReason (Resolve Call Create)}
      (eval : Eval) (handler : Handler H) (trapEval : TrapEval H Call Create) (fuel : Nat) :
      Keeps trapEval → Reachable rt →
      (Runtime.run eval handler trapEval fuel rt h).1 = .returned v (rt', h') → Reachable rt'

theorem Reachable.agrees (hr : Reachable rt) : StatusAgrees rt := by
  induction hr with
  | new => exact .of_ok rfl rfl
  | run _ _ _ _ hk _ hrun ih => exact run_agrees hk ih (by rw [hrun]; rfl)

/-- In every reachable runtime, `status` is `Err(e)` exactly when the machine's position is
`Err(e)`. Once a `run` has returned `Exit(e)`, every later `run`, whatever its handler and
evaluators, returns `Exit(e)` without a handler call and leaves the runtime as it was. -/
theorem status_tracks_position (hr : Reachable rt) :
    StatusAgrees rt ∧
      ∀ {H Call Create : Type} (eval : Eval) (handler : Handler H)
        (trapEval : TrapEval H Call Create) (fuel : Nat) (h : H) (e : ExitReason) (rt' : Runtime)
        (h' : H), Keeps trapEval →
        (run eval handler trapEval fuel rt h).1 = .returned (.exit e) (rt', h') →
        ∀ {H₂ Call₂ Create₂ : Type} (eval₂ : Eval) (handler₂ : Handler H₂)
          (trapEval₂ : TrapEval H₂ Call₂ Create₂) (fuel₂ : Nat) (h₂ : H₂),
          run eval₂ handler₂ trapEval₂ (fuel₂ + 1) rt' h₂ = (.returned (.exit e) (rt', h₂), []) := by
  refine ⟨hr.agrees, fun eval handler trapEval fuel h e rt' h' hk hrun => ?_⟩
  have hs := run_exit_status hrun
  have hp := (run_agrees hk hr.agrees (by rw [hrun]; rfl) e).mp hs
  intro _ _ _ eval₂ handler₂ trapEval₂ fuel₂ h₂
  exact run_of_exited eval₂ handler₂ trapEval₂ fuel₂ h₂ hs hp

/-- Fixture run: the handler accepts the first `STOP` of `stopCode`, and `step` exits on it. -/
theorem run_ofCode_stop :
    run stopEval Handler.acceptAll continueTrap 1 (ofCode stopCode) () =
      (.returned (.exit (.succeed .stopped))
        ({ ofCode stopCode with
          machine := (ofCode stopCode).machine.exit (.succeed .stopped),
          status := .error (.succeed .stopped) }, ()),
        [.preValidate ⟨0⟩ (Stack.new 1024) (.ok ()),
          .eval 0 ⟨0⟩ (Stack.new 1024) (.error (.exit (.succeed .stopped)))]) := by
  simp [run, pass, validate, advance, evalEvents, Machine.inspect, Machine.fetch, Machine.step,
    Machine.record, ofCode, Runtime.new, Machine.new, Memory.new, H256.fromSlice, memoryWords_eq,
    stopCode, stopEval, Handler.acceptAll, Config.frontier, Machine.exit]

theorem keeps_continueTrap : Keeps (@continueTrap H) := fun _ _ _ => ⟨rfl, rfl⟩

theorem status_tracks_position_after_stop :
    ∃ rt', (run stopEval Handler.acceptAll continueTrap 1 (ofCode stopCode) ()).1 =
        .returned (.exit (.succeed .stopped)) (rt', ()) ∧
      Reachable (ofCode stopCode) ∧ Keeps (@continueTrap Unit) ∧
      StatusAgrees (ofCode stopCode) ∧
      ∀ {H₂ Call₂ Create₂ : Type} (eval₂ : Eval) (handler₂ : Handler H₂)
        (trapEval₂ : TrapEval H₂ Call₂ Create₂) (fuel₂ : Nat) (h₂ : H₂),
        run eval₂ handler₂ trapEval₂ (fuel₂ + 1) rt' h₂ =
          (.returned (.exit (.succeed .stopped)) (rt', h₂), []) := by
  have hrun := congrArg Prod.fst run_ofCode_stop
  have hr : Reachable (ofCode stopCode) := .new _ _ _ _
  exact ⟨_, hrun, hr, keeps_continueTrap, (status_tracks_position hr).1,
    (status_tracks_position hr).2 stopEval Handler.acceptAll continueTrap 1 () _ _ ()
      keeps_continueTrap hrun⟩

end Runtime

end EvmInterpreter

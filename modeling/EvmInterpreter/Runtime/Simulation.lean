import EvmInterpreter.Runtime.Validate

/-! The runtime loop against the machine loop. With a handler that accepts every opcode,
`Runtime::run` is `Machine::run` pass for pass up to the first trap, where it hands the
machine `step` left to `eval::eval` and goes on as that says. An interrupt leaves the runtime
where a later `run` resumes: status `Ok(())`, and the machine just past the opcode that
trapped. -/
namespace EvmInterpreter

open Core hiding Control

namespace Runtime

variable {H Call Create : Type} {eval : Eval} {handler : Handler H}
  {trapEval : TrapEval H Call Create} {rt : Runtime} {h : H}

/-- A handler whose `pre_validate` accepts every opcode. -/
def Accepts (handler : Handler H) : Prop :=
  ∀ h context opcode stack, (handler.preValidate h context opcode stack).1 = .ok ()

theorem validate_of_accepts (hacc : Accepts handler) (rt : Runtime) (h : H) :
    (validate handler rt h).1 = rt := by
  unfold validate
  split
  · rfl
  · split
    · rfl
    · rename_i opcode stack _ _ e h' heq
      cases (congrArg Prod.fst heq).symm.trans (hacc h rt.context opcode stack)

theorem run_succ_fst (eval : Eval) (handler : Handler H) (trapEval : TrapEval H Call Create)
    (fuel : Nat) (rt : Runtime) (h : H) :
    (run eval handler trapEval (fuel + 1) rt h).1 =
      match (pass eval handler trapEval rt h).1 with
      | .next (rt', h') => (run eval handler trapEval fuel rt' h').1
      | .done v s => .returned v s
      | .panic => .panicked := by
  rcases hp : pass eval handler trapEval rt h with ⟨⟨rt', h'⟩ | ⟨v, s⟩ | _, log⟩ <;>
    simp only [run, hp, Prod.map_fst, id]

theorem pass_of_accepts (hacc : Accepts handler) :
    ∃ h₁, (pass eval handler trapEval rt h).1 = (advance eval handler trapEval rt h₁).1 :=
  ⟨_, by rw [pass_fst, validate_of_accepts hacc]⟩

/-- How a run of `fuel` passes of `Runtime::run` relates to `Machine::run` from the runtime's
machine: it panics where the machine loop panics, runs out of fuel at the same machine, and
exits with the same reason and machine, recording the reason in `status`. Where the machine
loop returns a trap, the runtime has reached the same machine after `n` of its passes and goes
on as the trap evaluator says. -/
def FollowsMachine (eval : Eval) (handler : Handler H) (trapEval : TrapEval H Call Create)
    (fuel : Nat) (rt : Runtime) (h : H) : Prop :=
  match rt.machine.run eval fuel with
  | .outOfFuel m' =>
    ∃ h', (run eval handler trapEval fuel rt h).1 = .outOfFuel ({ rt with machine := m' }, h')
  | .panicked => (run eval handler trapEval fuel rt h).1 = .panicked
  | .returned (.exit e) m' =>
    ∃ h', (run eval handler trapEval fuel rt h).1 =
      .returned (.exit e) ({ rt with machine := m', status := .error e }, h')
  | .returned (.trap opcode) m' =>
    ∃ n h', n < fuel ∧ (run eval handler trapEval fuel rt h).1 =
      match trapEval { rt with machine := m' } opcode h' with
      | (.continue, rt', h'') => (run eval handler trapEval (fuel - n - 1) rt' h'').1
      | (.callInterrupt i, rt', h'') => .returned (.trap (.call i)) (rt', h'')
      | (.createInterrupt i, rt', h'') => .returned (.trap (.create i)) (rt', h'')
      | (.exit e, rt', h'') =>
        .returned (.exit e) ({ rt' with machine := rt'.machine.exit e, status := .error e }, h'')

/-- With a handler that accepts every opcode, `Runtime::run` from a runtime whose status is
`Ok` follows `Machine::run` from its machine, whatever the evaluators and the fuel. -/
theorem run_follows_machine (hacc : Accepts handler) (hs : rt.status = .ok ()) (fuel : Nat)
    (h : H) : FollowsMachine eval handler trapEval fuel rt h := by
  unfold FollowsMachine
  induction fuel generalizing rt h with
  | zero => exact ⟨h, rfl⟩
  | succ fuel ih =>
    obtain ⟨h₁, hpass⟩ := @pass_of_accepts _ _ _ eval handler trapEval rt h hacc
    rw [run_succ_fst, hpass]
    rcases hstep : rt.machine.step eval with _ | ⟨(e | opcode) | s, m'⟩ <;>
      simp only [Machine.run, hstep, advance, hs]
    · -- `step` exits: so does the runtime, in the same pass
      exact ⟨h₁, rfl⟩
    · -- `step` traps: the runtime hands the stepped machine to the trap evaluator
      refine ⟨0, h₁, by omega, ?_⟩
      generalize trapEval { rt with machine := m', status := .ok () } opcode h₁ = resolved
      rcases resolved with ⟨_ | _ | _ | _, rt', h'⟩ <;> rfl
    · -- `step` returns `Ok`: both loops go on from the stepped machine
      have hnext := @ih { rt with machine := m', status := .ok () } rfl
        (handler.registerStep h₁ ⟨rt.context.address, s⟩)
      dsimp only [FollowsMachine] at hnext
      -- the goal's match is on the same run of the machine loop, so it splits along
      split at hnext
      case h_4 =>
        obtain ⟨n, h', hn, hrun⟩ := hnext
        refine ⟨n + 1, h', by omega, ?_⟩
        rw [show fuel + 1 - (n + 1) - 1 = fuel - n - 1 by omega]
        exact hrun
      all_goals exact hnext

theorem run_follows_machine_of_stop :
    Accepts Handler.acceptAll ∧ (ofCode stopCode).status = .ok () ∧
      (ofCode stopCode).machine.run stopEval 1 =
        .returned (.exit (.succeed .stopped)) ((ofCode stopCode).machine.exit (.succeed .stopped)) ∧
      FollowsMachine stopEval Handler.acceptAll (@continueTrap Unit) 1 (ofCode stopCode) () :=
  ⟨fun _ _ _ _ => rfl, rfl, by simp [Machine.run, Machine.step_stopCode],
    run_follows_machine (fun _ _ _ _ => rfl) rfl 1 ()⟩

theorem advance_interrupt {r : Resolve Call Create} {rt' : Runtime} {h' : H}
    (ha : (advance eval handler trapEval rt h).1 = .done (.trap r) (rt', h')) :
    rt.status = .ok () ∧ ∃ trap m', rt.machine.step eval = some (.error (.trap trap), m') ∧
      (advance eval handler trapEval rt h).2 = evalEvents rt.machine (.error (.trap trap)) ∧
      (trapEval { rt with machine := m' } trap h).2 = (rt', h') := by
  unfold advance at ha
  split at ha <;> rename_i hs
  · cases ha
  split at ha <;> rename_i hstep
  iterate 3 cases ha
  rename_i trap m'
  refine ⟨hs, trap, m', hstep, by simp only [advance, hs, hstep], ?_⟩
  split at ha <;> rename_i heq <;> cases ha <;> rw [heq]

theorem pass_interrupt (hk : Keeps trapEval) {r : Resolve Call Create} {rt' : Runtime} {h' : H}
    (hp : (pass eval handler trapEval rt h).1 = .done (.trap r) (rt', h')) :
    rt'.status = .ok () ∧ ∃ pc opcode stack trap,
      (pass eval handler trapEval rt h).2.getLast? =
        some (.eval pc opcode stack (.error (.trap trap))) ∧
      rt'.machine.position = .ok (pc + 1) := by
  rw [pass_fst] at hp
  obtain ⟨hs, trap, m', hstep, hlog, htrap⟩ := advance_interrupt hp
  obtain ⟨pc, opcode, hf, hpos⟩ := Machine.step_trap hstep
  obtain ⟨hks, hkp⟩ := hk { (validate handler rt h).1 with machine := m' } trap (validate handler rt h).2.1
  rw [htrap] at hks hkp
  refine ⟨hks.trans hs, pc, opcode, (validate handler rt h).1.machine.stack, trap, ?_,
    hkp.trans hpos⟩
  rw [pass_snd, hlog, evalEvents, hf]
  simp

/-- When `run` hands back an interrupt (`Resolve::Call` or `Resolve::Create`), under a trap
evaluator that keeps status and position, the runtime is left where a later `run` resumes:
its status is `Ok(())`, the run's last event is the evaluation of the opcode that trapped,
and the machine's position is just past that opcode. -/
theorem run_interrupt_resumes (hk : Keeps trapEval) {fuel : Nat} {r : Resolve Call Create}
    {rt' : Runtime} {h' : H}
    (hrun : (run eval handler trapEval fuel rt h).1 = .returned (.trap r) (rt', h')) :
    rt'.status = .ok () ∧ ∃ pc opcode stack trap,
      (run eval handler trapEval fuel rt h).2.getLast? =
        some (.eval pc opcode stack (.error (.trap trap))) ∧
      rt'.machine.position = .ok (pc + 1) := by
  induction fuel generalizing rt h with
  | zero => cases hrun
  | succ fuel ih =>
    rcases hpass : pass eval handler trapEval rt h with ⟨p, log⟩
    cases p with
    | next s =>
      simp only [run, hpass, Prod.map_fst, id, Prod.map_snd] at hrun ⊢
      obtain ⟨hs, pc, opcode, stack, trap, hlast, hpos⟩ := ih hrun
      exact ⟨hs, pc, opcode, stack, trap, by rw [List.getLast?_append, hlast]; rfl, hpos⟩
    | done v s =>
      simp only [run, hpass] at hrun ⊢
      obtain ⟨rfl, rfl⟩ := hrun
      have := pass_interrupt hk (by rw [hpass])
      rwa [hpass] at this
    | panic => simp [run, hpass] at hrun

/-- Fixture: a trap evaluator that hands every trap back as a call interrupt. -/
def callTrap : TrapEval Unit Unit Unit := fun rt _ h => (.callInterrupt (), rt, h)

theorem run_interrupt_resumes_at_call :
    Keeps callTrap ∧
      ∃ rt' log, run (fun m opcode _ => (m, .trap opcode)) Handler.acceptAll callTrap 1
          (ofCode stopCode) () = (.returned (.trap (.call ())) (rt', ()), log) ∧
        rt'.status = .ok () ∧ ∃ pc opcode stack trap,
          log.getLast? = some (.eval pc opcode stack (.error (.trap trap))) ∧
          rt'.machine.position = .ok (pc + 1) := by
  have hk : Keeps callTrap := fun _ _ _ => ⟨rfl, rfl⟩
  -- the run leaves the new runtime with its machine just past the first opcode
  have hrun : (run (fun m opcode _ => (m, .trap opcode)) Handler.acceptAll callTrap 1
      (ofCode stopCode) ()).1 = .returned (.trap (.call ()))
        ({ ofCode stopCode with machine := { (ofCode stopCode).machine with position := .ok 1 } },
          ()) := by
    simp [run, pass, validate, advance, Machine.inspect, Machine.step, Machine.record, ofCode,
      Runtime.new, Machine.new, Memory.new, H256.fromSlice, memoryWords_eq, stopCode,
      Handler.acceptAll, callTrap, Config.frontier]
  exact ⟨hk, _, _, Prod.ext hrun rfl, run_interrupt_resumes hk hrun⟩

end Runtime

end EvmInterpreter

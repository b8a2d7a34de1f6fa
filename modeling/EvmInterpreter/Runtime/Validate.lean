import EvmInterpreter.Runtime.Status

/-! What the handler sees of a run. `register_step` receives exactly the steps that `step`
returned `Ok` for, in order; opcodes that trap or exit are evaluated but not registered.
From a reachable runtime, the accepted `pre_validate` calls are exactly the evaluated
opcodes, in order, except for an accepted opcode whose `step` then panics. A rejection ends
the run, so a handler that spends a budget on each acceptance bounds every run. -/
namespace EvmInterpreter

open Core hiding Control

def Event.accepted : Event → Option (Opcode × Stack)
  | .preValidate opcode stack (.ok ()) => some (opcode, stack)
  | _ => none

def Event.evaluated : Event → Option (Opcode × Stack)
  | .eval _ opcode stack _ => some (opcode, stack)
  | _ => none

def Event.registered : Event → Option MachineStep
  | .registerStep step => some step.machineStep
  | _ => none

def Event.stepped : Event → Option MachineStep
  | .eval _ _ _ (.ok step) => some step
  | _ => none

namespace Runtime

variable {H Call Create : Type} {eval : Eval} {handler : Handler H}
  {trapEval : TrapEval H Call Create} {rt : Runtime} {h : H}

theorem validate_events (handler : Handler H) (rt : Runtime) (h : H) :
    ∃ r, (validate handler rt h).2.2 = [] ∨
      ∃ opcode, (validate handler rt h).2.2 = [.preValidate opcode rt.machine.stack r] := by
  unfold validate
  split
  · exact ⟨.ok (), .inl rfl⟩
  · rename_i opcode stack hi
    have hs : stack = rt.machine.stack := by
      rw [Machine.inspect_eq_fetch] at hi
      obtain ⟨_, -, hx⟩ := Option.map_eq_some'.mp hi
      exact (congrArg Prod.snd hx).symm
    subst hs
    split
    · exact ⟨.ok (), .inr ⟨opcode, rfl⟩⟩
    · exact ⟨_, .inr ⟨opcode, rfl⟩⟩

/-- The events of the rest of a pass: none once the runtime has exited or when `step`
panics; otherwise the opcode `step` reached, then the step handed to `register_step` when
`step` returned `Ok`. -/
theorem advance_snd_cases (eval : Eval) (handler : Handler H) (trapEval : TrapEval H Call Create)
    (rt : Runtime) (h : H) :
    ((rt.status ≠ .ok () ∨ rt.machine.step eval = none) ∧
      (advance eval handler trapEval rt h).2 = []) ∨
    (∃ s m', rt.status = .ok () ∧ rt.machine.step eval = some (.ok s, m') ∧
      (advance eval handler trapEval rt h).2 =
        evalEvents rt.machine (.ok s) ++ [.registerStep ⟨rt.context.address, s⟩]) ∨
    (∃ c m', rt.status = .ok () ∧ rt.machine.step eval = some (.error c, m') ∧
      (advance eval handler trapEval rt h).2 = evalEvents rt.machine (.error c)) := by
  unfold advance
  split <;> rename_i hs
  · exact .inl ⟨.inl (by simp [hs]), rfl⟩
  split <;> rename_i hstep
  · exact .inl ⟨.inr hstep, rfl⟩
  · exact .inr (.inl ⟨_, _, hs, hstep, rfl⟩)
  all_goals exact .inr (.inr ⟨_, _, hs, hstep, rfl⟩)

theorem evalEvents_stepped_registered (m : Machine) (r : Except (Capture ExitReason Opcode) MachineStep) :
    (evalEvents m r).filterMap Event.registered = [] ∧
      (evalEvents m r).filterMap Event.stepped =
        match r with
        | .ok s => (m.fetch.map fun _ => s).toList
        | .error _ => [] := by
  unfold evalEvents
  split <;> rename_i hf <;> cases r <;> simp [Event.registered, Event.stepped, hf]

theorem advance_registered (eval : Eval) (handler : Handler H) (trapEval : TrapEval H Call Create)
    (rt : Runtime) (h : H) :
    (advance eval handler trapEval rt h).2.filterMap Event.registered =
      (advance eval handler trapEval rt h).2.filterMap Event.stepped := by
  rcases advance_snd_cases eval handler trapEval rt h with ⟨-, hlog⟩ | ⟨s, m', -, hstep, hlog⟩ |
      ⟨c, m', -, -, hlog⟩ <;> rw [hlog]
  · rfl
  · obtain ⟨pc, opcode, hf, -⟩ := Machine.step_ok hstep
    simp [evalEvents, hf, Event.registered, Event.stepped]
  · simp [evalEvents_stepped_registered]

theorem pass_registered (eval : Eval) (handler : Handler H) (trapEval : TrapEval H Call Create)
    (rt : Runtime) (h : H) :
    (pass eval handler trapEval rt h).2.filterMap Event.registered =
      (pass eval handler trapEval rt h).2.filterMap Event.stepped := by
  rw [pass_snd, List.filterMap_append, List.filterMap_append, advance_registered]
  obtain ⟨r, hv | ⟨opcode, hv⟩⟩ := validate_events handler rt h <;>
    cases r <;> simp [hv, Event.registered, Event.stepped]

theorem mem_evalEvents {m : Machine} {r r' : Except (Capture ExitReason Opcode) MachineStep}
    {pc : Nat} {opcode : Opcode} {stack : Stack} (hm : Event.eval pc opcode stack r' ∈ evalEvents m r) :
    m.fetch = some (pc, opcode) ∧ stack = m.stack ∧ r' = r := by
  unfold evalEvents at hm
  split at hm
  · rename_i hf
    simp only [List.mem_singleton, Event.eval.injEq] at hm
    obtain ⟨rfl, rfl, rfl, rfl⟩ := hm
    exact ⟨hf, rfl, rfl⟩
  · cases hm

theorem advance_eval_mem {r : Except (Capture ExitReason Opcode) MachineStep} {pc : Nat}
    {opcode : Opcode} {stack : Stack}
    (hm : Event.eval pc opcode stack r ∈ (advance eval handler trapEval rt h).2) :
    rt.machine.fetch = some (pc, opcode) ∧ stack = rt.machine.stack ∧
      ∃ m', rt.machine.step eval = some (r, m') := by
  rcases advance_snd_cases eval handler trapEval rt h with ⟨-, hlog⟩ | ⟨s, m', -, hstep, hlog⟩ |
      ⟨c, m', -, hstep, hlog⟩ <;> rw [hlog] at hm
  · cases hm
  · rcases List.mem_append.mp hm with hm | hm
    · obtain ⟨hf, hs, rfl⟩ := mem_evalEvents hm
      exact ⟨hf, hs, _, hstep⟩
    · simp at hm
  · obtain ⟨hf, hs, rfl⟩ := mem_evalEvents hm
    exact ⟨hf, hs, _, hstep⟩

theorem pass_eval_mem {r : Except (Capture ExitReason Opcode) MachineStep} {pc : Nat}
    {opcode : Opcode} {stack : Stack}
    (hm : Event.eval pc opcode stack r ∈ (pass eval handler trapEval rt h).2) :
    ∃ m : Machine, m.fetch = some (pc, opcode) ∧ stack = m.stack ∧ ∃ m', m.step eval = some (r, m') := by
  rw [pass_snd, List.mem_append] at hm
  rcases hm with hm | hm
  · obtain ⟨_, hv | ⟨_, hv⟩⟩ := validate_events handler rt h <;> simp [hv] at hm
  · exact ⟨_, advance_eval_mem hm⟩

/-- `register_step` receives exactly the steps for which `step` returned `Ok`, in the order
they were evaluated; each records the opcode and the position it was fetched from. Opcodes
whose evaluation traps or exits are evaluated but never registered. -/
theorem run_registers_ok_steps (eval : Eval) (handler : Handler H)
    (trapEval : TrapEval H Call Create) (fuel : Nat) (rt : Runtime) (h : H) :
    (run eval handler trapEval fuel rt h).2.filterMap Event.registered =
        (run eval handler trapEval fuel rt h).2.filterMap Event.stepped ∧
      ∀ pc opcode stack s, Event.eval pc opcode stack (.ok s) ∈ (run eval handler trapEval fuel rt h).2 →
        s.op = opcode.byte ∧ s.pc = pc ∧ s.opcodePc = pc := by
  have fields : ∀ {rt : Runtime} {h : H} {pc opcode stack s},
      Event.eval pc opcode stack (.ok s) ∈ (pass eval handler trapEval rt h).2 →
        s.op = opcode.byte ∧ s.pc = pc ∧ s.opcodePc = pc := by
    intro rt h pc opcode stack s hm
    obtain ⟨m, hf, -, m', hstep⟩ := pass_eval_mem hm
    obtain ⟨pc', opcode', hf', hrec⟩ := Machine.step_ok hstep
    rw [hf] at hf'
    cases hf'
    exact Machine.record_fields hrec
  induction fuel generalizing rt h with
  | zero => simp [run]
  | succ fuel ih =>
    simp only [run]
    split <;> rename_i log hpass <;>
      have hreg := pass_registered eval handler trapEval rt h <;>
      rw [hpass] at hreg <;> dsimp only at hreg
    · simp only [Prod.map_snd, List.filterMap_append, List.mem_append]
      refine ⟨by rw [hreg, (ih ..).1], ?_⟩
      rintro pc opcode stack s (hm | hm)
      · exact fields (by rw [hpass]; exact hm)
      · exact (ih ..).2 _ _ _ _ hm
    · exact ⟨hreg, fun _ _ _ _ hm => fields (by rw [hpass]; exact hm)⟩
    · exact ⟨hreg, fun _ _ _ _ hm => fields (by rw [hpass]; exact hm)⟩

/-! The protocol between `pre_validate` and the machine. -/

/-- The three ways the `pre_validate` of a pass goes: nothing to validate, a rejection that
exits the machine and sets the status, or an acceptance that changes only the handler. -/
theorem validate_cases (handler : Handler H) (rt : Runtime) (h : H) :
    (rt.machine.inspect = none ∧ validate handler rt h = (rt, h, [])) ∨
    (∃ opcode stack e h', rt.machine.inspect = some (opcode, stack) ∧
      validate handler rt h =
        ({ rt with machine := rt.machine.exit (.error e), status := .error (.error e) }, h',
          [.preValidate opcode stack (.error e)])) ∨
    (∃ opcode stack h', rt.machine.inspect = some (opcode, stack) ∧
      handler.preValidate h rt.context opcode stack = (.ok (), h') ∧
      validate handler rt h = (rt, h', [.preValidate opcode stack (.ok ())])) := by
  unfold validate
  split
  · exact .inl ⟨‹_›, rfl⟩
  · rename_i opcode stack hi
    split
    · exact .inr (.inr ⟨opcode, stack, _, hi, ‹_›, rfl⟩)
    · exact .inr (.inl ⟨opcode, stack, _, _, hi, rfl⟩)

theorem evalEvents_accepted (m : Machine) (r : Except (Capture ExitReason Opcode) MachineStep) :
    (evalEvents m r).filterMap Event.accepted = [] := by
  unfold evalEvents
  split <;> rfl

theorem evalEvents_evaluated (m : Machine) (r : Except (Capture ExitReason Opcode) MachineStep) :
    (evalEvents m r).filterMap Event.evaluated = m.inspect.toList := by
  rw [Machine.inspect_eq_fetch]
  unfold evalEvents
  split <;> rename_i hf <;> simp [hf, Event.evaluated]

theorem advance_of_status_error {e : ExitReason} (hs : rt.status = .error e) :
    advance eval handler trapEval rt h = (.done (.exit e) (rt, h), []) := by
  simp [advance, hs]

theorem advance_accepted (eval : Eval) (handler : Handler H) (trapEval : TrapEval H Call Create)
    (rt : Runtime) (h : H) : (advance eval handler trapEval rt h).2.filterMap Event.accepted = [] := by
  rcases advance_snd_cases eval handler trapEval rt h with ⟨-, hlog⟩ | ⟨_, _, -, -, hlog⟩ |
      ⟨_, _, -, -, hlog⟩ <;> simp [hlog, evalEvents_accepted, Event.accepted]

theorem advance_evaluated (hs : rt.status = .ok ()) :
    (advance eval handler trapEval rt h).2.filterMap Event.evaluated =
      if (rt.machine.step eval).isSome then rt.machine.inspect.toList else [] := by
  rcases advance_snd_cases eval handler trapEval rt h with ⟨hn, hlog⟩ | ⟨_, _, -, hstep, hlog⟩ |
      ⟨_, _, -, hstep, hlog⟩
  · simp [hlog, hn.resolve_left (by simp [hs])]
  all_goals simp [hlog, hstep, evalEvents_evaluated, Event.evaluated]

theorem advance_panic_iff (hs : rt.status = .ok ()) :
    (advance eval handler trapEval rt h).1 = .panic ↔ rt.machine.step eval = none := by
  unfold advance
  split
  · simp_all
  · split <;> (try split) <;> simp_all

theorem pass_next {rt' : Runtime} {h' : H}
    (hn : (pass eval handler trapEval rt h).1 = .next (rt', h')) :
    ∃ opcode stack h₁, rt.machine.inspect = some (opcode, stack) ∧
      handler.preValidate h rt.context opcode stack = (.ok (), h₁) ∧
      (pass eval handler trapEval rt h).2 =
        .preValidate opcode stack (.ok ()) :: (advance eval handler trapEval rt h₁).2 ∧
      (advance eval handler trapEval rt h₁).1 = .next (rt', h') := by
  rw [pass_fst] at hn
  rcases validate_cases handler rt h with ⟨hi, hv⟩ | ⟨opcode, stack, e, h₁, hi, hv⟩ |
      ⟨opcode, stack, h₁, hi, hpre, hv⟩
  · rw [hv] at hn
    have hf : rt.machine.fetch = none := by simpa [Machine.inspect_eq_fetch] using hi
    obtain ⟨e, m', hstep⟩ := Machine.step_of_fetch_none eval hf
    unfold advance at hn
    split at hn
    · cases hn
    · rw [hstep] at hn; cases hn
  · rw [hv, advance_of_status_error rfl] at hn
    cases hn
  · rw [hv] at hn
    exact ⟨opcode, stack, h₁, hi, hpre, by rw [pass_snd, hv]; rfl, hn⟩

theorem StatusAgrees.status_ok (hrt : StatusAgrees rt) {x : Opcode × Stack}
    (hi : rt.machine.inspect = some x) : rt.status = .ok () := by
  cases hs : rt.status with
  | ok => rfl
  | error e =>
    have hf := Machine.fetch_of_position_error ((hrt e).mp hs)
    simp [Machine.inspect_eq_fetch, hf] at hi

theorem pass_accepted (hrt : StatusAgrees rt) :
    ((pass eval handler trapEval rt h).1 ≠ .panic →
      (pass eval handler trapEval rt h).2.filterMap Event.accepted =
        (pass eval handler trapEval rt h).2.filterMap Event.evaluated) ∧
    ((pass eval handler trapEval rt h).1 = .panic → ∃ x,
      (pass eval handler trapEval rt h).2.filterMap Event.accepted =
        (pass eval handler trapEval rt h).2.filterMap Event.evaluated ++ [x]) := by
  rw [pass_fst, pass_snd, List.filterMap_append, List.filterMap_append, advance_accepted]
  rcases validate_cases handler rt h with ⟨hi, hv⟩ | ⟨opcode, stack, e, h₁, hi, hv⟩ |
      ⟨opcode, stack, h₁, hi, hpre, hv⟩
  · rw [hv]
    cases hs : rt.status with
    | error e => simp [advance_of_status_error hs]
    | ok =>
      have hf : rt.machine.fetch = none := by simpa [Machine.inspect_eq_fetch] using hi
      have hstep : rt.machine.step eval ≠ none := by simp [Machine.step_eq_none_iff, hf]
      simp [advance_evaluated hs, advance_panic_iff hs, hi, hstep]
  · rw [hv, advance_of_status_error rfl]
    simp [Event.accepted, Event.evaluated]
  · rw [hv, advance_evaluated (hrt.status_ok hi), hi]
    cases hstep : rt.machine.step eval <;>
      simp [advance_panic_iff (hrt.status_ok hi), hstep, Event.accepted, Event.evaluated]

/-- From a runtime whose status agrees with its position, under a trap evaluator that keeps
both, the accepted `pre_validate` calls of a run are its evaluated opcodes, with the same
stacks and in the same order. A run that panics has accepted one opcode more: the one whose
`step` panicked. -/
theorem run_accepted_eq_evaluated (hk : Keeps trapEval) (fuel : Nat) (hrt : StatusAgrees rt) :
    ((run eval handler trapEval fuel rt h).1 ≠ .panicked →
      (run eval handler trapEval fuel rt h).2.filterMap Event.accepted =
        (run eval handler trapEval fuel rt h).2.filterMap Event.evaluated) ∧
    ((run eval handler trapEval fuel rt h).1 = .panicked → ∃ x,
      (run eval handler trapEval fuel rt h).2.filterMap Event.accepted =
        (run eval handler trapEval fuel rt h).2.filterMap Event.evaluated ++ [x]) := by
  induction fuel generalizing rt h with
  | zero => simp [run]
  | succ fuel ih =>
    have hp := @pass_accepted _ _ _ eval handler trapEval rt h hrt
    simp only [run]
    split <;> rename_i log hpass <;> rw [hpass] at hp <;> dsimp only at hp
    · obtain ⟨ih₁, ih₂⟩ := ih (pass_agrees hk hrt (by rw [hpass]; rfl))
      simp only [Prod.map_fst, id, Prod.map_snd, List.filterMap_append, hp.1 nofun]
      refine ⟨fun hne => by rw [ih₁ hne], fun hpan => ?_⟩
      obtain ⟨x, hx⟩ := ih₂ hpan
      exact ⟨x, by rw [hx, List.append_assoc]⟩
    · exact ⟨fun _ => hp.1 nofun, nofun⟩
    · exact ⟨fun hne => absurd rfl hne, fun _ => hp.2 rfl⟩

theorem run_accepted_eq_evaluated_on_stop :
    ∃ o log, run stopEval Handler.acceptAll continueTrap 1 (ofCode stopCode) () = (o, log) ∧
      Keeps (@continueTrap Unit) ∧ StatusAgrees (ofCode stopCode) ∧
      log.filterMap Event.accepted = [(⟨0⟩, Stack.new 1024)] ∧
      (o ≠ .panicked → log.filterMap Event.accepted = log.filterMap Event.evaluated) ∧
      (o = .panicked → ∃ x, log.filterMap Event.accepted = log.filterMap Event.evaluated ++ [x]) := by
  have hrt : StatusAgrees (ofCode stopCode) := .of_ok rfl rfl
  refine ⟨_, _, Prod.mk.eta.symm, keeps_continueTrap, hrt, ?_,
    run_accepted_eq_evaluated keeps_continueTrap 1 hrt⟩
  rw [run_ofCode_stop]
  rfl

/-- On a one-byte `STOP` program, a handler that accepts everything is asked once, and then
`step` panics before it evaluates the accepted opcode, whatever the evaluators. -/
theorem run_one_byte_accepted_not_evaluated (eval : Eval) (trapEval : TrapEval Unit Unit Unit)
    (fuel : Nat) :
    run eval Handler.acceptAll trapEval (fuel + 1) (ofCode [0x00]) () =
      (.panicked, [.preValidate ⟨0⟩ (Stack.new 1024) (.ok ())]) := by
  have hstep : (Machine.new [0x00] [] 1024 usizeMax).step eval = none :=
    (Machine.step_eq_none_iff eval _).2 ⟨rfl, by decide⟩
  have hi : (Machine.new [0x00] [] 1024 usizeMax).inspect = some (⟨0⟩, Stack.new 1024) := rfl
  simp [run, pass, validate, advance, ofCode, Runtime.new, Config.frontier, Handler.acceptAll,
    hstep, hi]

theorem advance_no_preValidate {opcode : Opcode} {stack : Stack} {r : Except ExitError Unit} :
    Event.preValidate opcode stack r ∉ (advance eval handler trapEval rt h).2 := by
  have hev : ∀ {m : Machine} {r'}, Event.preValidate opcode stack r ∉ evalEvents m r' := by
    intro m r'
    unfold evalEvents
    split <;> simp
  rcases advance_snd_cases eval handler trapEval rt h with ⟨-, hlog⟩ | ⟨_, _, -, -, hlog⟩ |
      ⟨_, _, -, -, hlog⟩ <;> simp [hlog, hev]

theorem pass_rejected {opcode : Opcode} {stack : Stack} {e : ExitError}
    (hm : Event.preValidate opcode stack (.error e) ∈ (pass eval handler trapEval rt h).2) :
    (∃ s, (pass eval handler trapEval rt h).1 = .done (.exit (.error e)) s) ∧
      (pass eval handler trapEval rt h).2 = [.preValidate opcode stack (.error e)] := by
  rw [pass_fst, pass_snd]
  rw [pass_snd, List.mem_append] at hm
  rcases validate_cases handler rt h with ⟨-, hv⟩ | ⟨opcode', stack', e', h₁, -, hv⟩ |
      ⟨opcode', stack', h₁, -, -, hv⟩ <;> rw [hv] at hm ⊢ <;> dsimp only at hm ⊢
  · simp [advance_no_preValidate] at hm
  · rw [advance_of_status_error rfl] at hm ⊢
    simp only [List.mem_singleton, Event.preValidate.injEq, Except.error.injEq, List.not_mem_nil,
      or_false] at hm
    obtain ⟨rfl, rfl, rfl⟩ := hm
    exact ⟨⟨_, rfl⟩, rfl⟩
  · simp [advance_no_preValidate] at hm

/-- After a rejected `pre_validate` nothing is evaluated: it is the run's last event, and
`run` returns `Exit` with the rejection's reason. -/
theorem run_rejected {fuel : Nat} {opcode : Opcode} {stack : Stack} {e : ExitError}
    (hm : Event.preValidate opcode stack (.error e) ∈ (run eval handler trapEval fuel rt h).2) :
    (∃ s, (run eval handler trapEval fuel rt h).1 = .returned (.exit (.error e)) s) ∧
      (run eval handler trapEval fuel rt h).2.getLast? = some (.preValidate opcode stack (.error e)) := by
  induction fuel generalizing rt h with
  | zero => cases hm
  | succ fuel ih =>
    rcases hpass : pass eval handler trapEval rt h with ⟨p, log⟩
    have hrej : Event.preValidate opcode stack (.error e) ∈ log →
        (∃ s, p = .done (.exit (.error e)) s) ∧ log = [.preValidate opcode stack (.error e)] := by
      intro hlog
      have := pass_rejected (by rw [hpass]; exact hlog)
      rwa [hpass] at this
    cases p with
    | next s' =>
      simp only [run, hpass, Prod.map_fst, id, Prod.map_snd, List.mem_append] at hm ⊢
      rcases hm with hm | hm
      · obtain ⟨⟨_, hdone⟩, -⟩ := hrej hm
        cases hdone
      · obtain ⟨hret, hlast⟩ := ih hm
        exact ⟨hret, by rw [List.getLast?_append, hlast]; rfl⟩
    | done v s' =>
      simp only [run, hpass] at hm ⊢
      obtain ⟨⟨_, hdone⟩, rfl⟩ := hrej hm
      cases hdone
      exact ⟨⟨_, rfl⟩, rfl⟩
    | panic =>
      simp only [run, hpass] at hm
      obtain ⟨⟨_, hdone⟩, -⟩ := hrej hm
      cases hdone

theorem run_rejected_out_of_gas :
    ∃ o log, run stopEval (⟨fun h _ _ _ => (.error .outOfGas, h), fun h _ => h⟩ : Handler Unit)
        continueTrap 1 (ofCode stopCode) () = (o, log) ∧
      Event.preValidate ⟨0⟩ (Stack.new 1024) (.error .outOfGas) ∈ log ∧
      (∃ s, o = .returned (.exit (.error .outOfGas)) s) ∧
      log.getLast? = some (.preValidate ⟨0⟩ (Stack.new 1024) (.error .outOfGas)) := by
  refine ⟨_, _, Prod.mk.eta.symm, ?hm, run_rejected ?hm⟩
  simp [run, pass, validate, advance, Machine.inspect, ofCode, Runtime.new, Machine.new, stopCode,
    Config.frontier, Stack.new]

theorem advance_next_budget (budget : H → Nat)
    (hreg : ∀ h step, budget (handler.registerStep h step) ≤ budget h)
    (htrap : ∀ rt opcode h, budget (trapEval rt opcode h).2.2 ≤ budget h) {rt' : Runtime} {h₁ h' : H}
    (hn : (advance eval handler trapEval rt h₁).1 = .next (rt', h')) : budget h' ≤ budget h₁ := by
  unfold advance at hn
  split at hn
  · cases hn
  · split at hn
    · cases hn
    · cases hn; exact hreg _ _
    · cases hn
    · rename_i opcode m' _
      have := htrap { rt with machine := m' } opcode h₁
      split at hn <;> rename_i heq <;> rw [heq] at this <;> cases hn
      exact this

/-- A handler with a budget that each accepted `pre_validate` lowers and nothing raises
stops every run within `budget + 1` passes, even on code that jumps forever. -/
theorem run_terminates (budget : H → Nat)
    (hpre : ∀ h context opcode stack h', handler.preValidate h context opcode stack = (.ok (), h') →
      budget h' < budget h)
    (hreg : ∀ h step, budget (handler.registerStep h step) ≤ budget h)
    (htrap : ∀ rt opcode h, budget (trapEval rt opcode h).2.2 ≤ budget h) {fuel : Nat}
    (hfuel : budget h < fuel) (s : Runtime × H) :
    (run eval handler trapEval fuel rt h).1 ≠ .outOfFuel s := by
  induction fuel generalizing rt h with
  | zero => omega
  | succ fuel ih =>
    rcases hpass : pass eval handler trapEval rt h with ⟨p, log⟩
    cases p with
    | next s' =>
      obtain ⟨opcode, stack, h₁, -, hpv, -, hadv⟩ := pass_next (by rw [hpass])
      have hlt := lt_of_le_of_lt (advance_next_budget budget hreg htrap hadv) (hpre _ _ _ _ _ hpv)
      simp only [run, hpass, Prod.map_fst, id]
      exact ih (by omega)
    | done v s' => simp [run, hpass]
    | panic => simp [run, hpass]

/-- Fixture step: an evaluator that jumps to 0 keeps the machine on `stopCode` where it is. -/
theorem step_jump_stopCode :
    (Machine.new stopCode [] 1024 usizeMax).step (fun m _ _ => (m, .jump 0)) =
      some (.ok ⟨0, 0, 0, .zero, [], []⟩, Machine.new stopCode [] 1024 usizeMax) := by
  simp [Machine.step, Machine.record, Machine.new, Memory.new, H256.fromSlice, memoryWords_eq,
    stopCode, FixedHash.zero, Stack.new]

/-- Fixture: a handler that accepts while its counter is positive, counting it down, and
rejects with `OutOfGas` at zero. -/
def countdown : Handler Nat :=
  ⟨fun n _ _ _ => if n = 0 then (.error .outOfGas, 0) else (.ok (), n - 1), fun n _ => n⟩

theorem run_terminates_on_loop :
    (∀ fuel, (ofCode stopCode).machine.run (fun m _ _ => (m, .jump 0)) fuel =
        .outOfFuel (ofCode stopCode).machine) ∧
      (∀ h context opcode stack h', countdown.preValidate h context opcode stack = (.ok (), h') →
        id h' < id h) ∧
      (∀ h step, id (countdown.registerStep h step) ≤ id h) ∧
      (∀ rt opcode (h : Nat), id (continueTrap rt opcode h).2.2 ≤ id h) ∧ id 2 < 3 ∧
      ∀ s, (run (fun m _ _ => (m, .jump 0)) countdown continueTrap 3 (ofCode stopCode) 2).1 ≠
        .outOfFuel s := by
  have hpre : ∀ h context opcode stack h', countdown.preValidate h context opcode stack =
      (.ok (), h') → id h' < id h := by
    intro h _ _ _ h' hp
    simp only [countdown] at hp
    split at hp <;> cases hp
    simp only [id]
    omega
  refine ⟨fun fuel => ?_, hpre, fun _ _ => le_rfl, fun _ _ _ => le_rfl, by decide,
    run_terminates id hpre (fun _ _ => le_rfl) (fun _ _ _ => le_rfl) (by decide)⟩
  induction fuel with
  | zero => rfl
  | succ fuel ih => rw [ofCode_machine, Machine.run, step_jump_stopCode]; exact ih

/-- On `stopCode`, with an evaluator that exits on `STOP` and a handler that accepts
everything, the `STOP` is evaluated, yet `register_step` receives nothing. -/
theorem run_stop_evaluated_not_registered :
    ∃ log, (run stopEval Handler.acceptAll continueTrap 1 (ofCode stopCode) ()).2 = log ∧
      log.filterMap Event.registered = [] ∧ (log.filterMap Event.evaluated).length = 1 := by
  refine ⟨_, rfl, ?_⟩
  rw [run_ofCode_stop]
  exact ⟨rfl, rfl⟩

end Runtime

end EvmInterpreter

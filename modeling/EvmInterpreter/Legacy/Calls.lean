import Mathlib.Logic.Relation
import EvmInterpreter.Legacy.CallStack

/-! Nested calls. `step` and `fire` run a stack of machines: a machine that invokes a
sub-call gets a machine derived for it pushed above it, and a finished sub-machine is popped
and applied to its caller. That is the iterative form of a recursive reading, `Executes`:
run a machine, running each sub-call it invokes to its end in between. From any stack of
waiting callers, `fire` computes exactly what that reading, resumed on the stack (`Resumes`),
describes, up to the `RequireError` that stops it. -/
namespace EvmInterpreter.Legacy

/-- The context of the sub-call a machine invokes, if it invokes one. -/
def MachineStatus.invoked {C E : Type} : MachineStatus C E → Option C
  | .invokeCall context _ | .invokeCreate context => some context
  | _ => none

theorem MachineStatus.running_or_exited_or_invoked {C E : Type} (status : MachineStatus C E) :
    status = .running ∨ status.exited ∨ ∃ context, status.invoked = some context := by
  cases status <;> simp [MachineStatus.exited, MachineStatus.invoked]

theorem MachineStatus.awaitsSub_of_invoked {C E : Type} {status : MachineStatus C E}
    {context : C} (h : status.invoked = some context) : status.awaitsSub := by
  cases status <;> simp_all [MachineStatus.invoked, MachineStatus.awaitsSub]

theorem MachineStatus.exited_of_invoked {C E : Type} {status : MachineStatus C E}
    {context : C} (h : status.invoked = some context) : status.exited = false := by
  cases status <;> simp_all [MachineStatus.invoked, MachineStatus.exited]

/-- The recursive reading of one machine's run: the `RequireError` that stops it, if any,
and the stack it stops with. A run that ends leaves the exited machine alone; one stopped by
a `RequireError` leaves the machine whose `step` required something, above the callers whose
sub-calls it runs in, outermost first. -/
inductive Executes (I : Interface) : I.Machine → Except I.RequireError Unit → List I.Machine → Prop
  | exited {m : I.Machine} : (I.status m).exited → Executes I m (.ok ()) [m]
  | step {m : I.Machine} {r : Except I.RequireError Unit} {s : List I.Machine} :
      I.status m = .running → (I.step m).1 = .ok () → Executes I (I.step m).2 r s →
      Executes I m r s
  | stepError {m : I.Machine} {e : I.RequireError} :
      I.status m = .running → (I.step m).1 = .error e → Executes I m (.error e) [(I.step m).2]
  | call {m sub : I.Machine} {context : I.Context} {r : Except I.RequireError Unit}
      {s : List I.Machine} :
      (I.status m).invoked = some context → Executes I (I.derive m context) (.ok ()) [sub] →
      Executes I (I.applySub m sub) r s → Executes I m r s
  | callError {m : I.Machine} {context : I.Context} {e : I.RequireError} {s : List I.Machine} :
      (I.status m).invoked = some context → Executes I (I.derive m context) (.error e) s →
      Executes I m (.error e) (m :: s)

/-- A machine run above callers that wait for it, outermost first: when it ends, the
innermost caller takes it back and runs on. -/
inductive Resumes (I : Interface) :
    List I.Machine → I.Machine → Except I.RequireError Unit → List I.Machine → Prop
  | done {m : I.Machine} {s : List I.Machine} : Executes I m (.ok ()) s → Resumes I [] m (.ok ()) s
  | ret {callers : List I.Machine} {caller m sub : I.Machine} {r : Except I.RequireError Unit}
      {s : List I.Machine} :
      Executes I m (.ok ()) [sub] → Resumes I callers (I.applySub caller sub) r s →
      Resumes I (callers ++ [caller]) m r s
  | error {callers : List I.Machine} {m : I.Machine} {e : I.RequireError} {s : List I.Machine} :
      Executes I m (.error e) s → Resumes I callers m (.error e) (callers ++ s)

variable {I : Interface} {callers : List I.Machine} {m top : I.Machine}
  {context : I.Context} {r : Except I.RequireError Unit} {s : List I.Machine}

theorem Executes.ok_singleton (h : Executes I m (.ok ()) s) : ∃ m', s = [m'] ∧ (I.status m').exited := by
  generalize hr : (Except.ok () : Except I.RequireError Unit) = r at h
  induction h with
  | exited hx => exact ⟨_, rfl, hx⟩
  | step _ _ _ ih => exact ih hr
  | stepError => cases hr
  | call _ _ _ _ ih => exact ih hr
  | callError => cases hr

theorem Resumes.of_step (hs : I.status m = .running) (hok : (I.step m).1 = .ok ())
    (h : Resumes I callers (I.step m).2 r s) : Resumes I callers m r s := by
  cases h with
  | done h => exact .done (.step hs hok h)
  | ret h hr => exact .ret (.step hs hok h) hr
  | error h => exact .error (.step hs hok h)

theorem Resumes.of_applySub {sub : I.Machine} (hi : (I.status m).invoked = some context)
    (hsub : Executes I (I.derive m context) (.ok ()) [sub])
    (h : Resumes I callers (I.applySub m sub) r s) : Resumes I callers m r s := by
  cases h with
  | done h => exact .done (.call hi hsub h)
  | ret h hr => exact .ret (.call hi hsub h) hr
  | error h => exact .error (.call hi hsub h)

theorem Resumes.of_call (hi : (I.status m).invoked = some context)
    (h : Resumes I (callers ++ [m]) (I.derive m context) r s) : Resumes I callers m r s := by
  generalize hcs : callers ++ [m] = cs at h
  cases h with
  | done => simp at hcs
  | ret hsub hr =>
    obtain ⟨rfl, ⟨⟩⟩ := List.append_inj' hcs rfl
    exact hr.of_applySub hi hsub
  | error h =>
    subst hcs
    simpa using @Resumes.error I callers m _ _ (Executes.callError hi h)

namespace VM

variable {vm vm₁ : VM I}

/-! What `step` does in each case of the last machine's status, and when `status` is
`Running`. -/

theorem step_of_running (hm : vm.machines = callers ++ [top]) (hs : I.status top = .running) :
    vm.step = some ((I.step top).1, { vm with machines := callers ++ [(I.step top).2] }) := by
  simp [step, hm, hs]

theorem step_of_exited {caller : I.Machine} (hm : vm.machines = callers ++ [caller, top])
    (hs : (I.status top).exited) :
    vm.step = some (.ok (), { vm with machines := callers ++ [I.applySub caller top] }) := by
  cases hst : I.status top <;> simp_all [MachineStatus.exited, step]

theorem step_of_invoked (hm : vm.machines = callers ++ [top])
    (hs : (I.status top).invoked = some context) :
    vm.step = some (.ok (), ⟨callers ++ [top, I.derive top context], vm.history ++ [context]⟩) := by
  cases hst : I.status top <;> simp_all [MachineStatus.invoked, step]

theorem awaitsSub_append (hc : ∀ c ∈ callers, (I.status c).awaitsSub)
    (ht : (I.status top).awaitsSub) : ∀ c ∈ callers ++ [top], (I.status c).awaitsSub := by
  simpa [or_imp, forall_and] using ⟨hc, ht⟩

theorem status_of_stack (hm : vm.machines = callers ++ [top])
    (hc : ∀ c ∈ callers, (I.status c).awaitsSub) (ht : callers = [] → (I.status top).exited = false) :
    vm.status = some .running := by
  cases callers with
  | nil =>
    have := ht rfl
    cases hst : I.status top <;> simp_all [status, MachineStatus.exited]
  | cons c cs =>
    have := hc c (List.mem_cons_self c cs)
    cases hst : I.status c <;> simp_all [status, MachineStatus.awaitsSub]

theorem fire_of_exited (hm : vm.machines = [top]) (hs : (I.status top).exited) (fuel : Nat) :
    vm.fire (fuel + 1) = .returned (.ok ()) vm := by
  cases hst : I.status top <;> simp_all [fire, status, MachineStatus.exited]

theorem fire_of_step {fuel : Nat} (hs : vm.status = some .running)
    (hstep : vm.step = some (.ok (), vm₁)) : vm.fire (fuel + 1) = vm₁.fire fuel := by
  simp [fire, hs, hstep]

theorem fire_of_step_error {fuel : Nat} {e : I.RequireError} (hs : vm.status = some .running)
    (hstep : vm.step = some (.error e, vm₁)) : vm.fire (fuel + 1) = .returned (.error e) vm₁ := by
  simp [fire, hs, hstep]

/-- Whatever `fire` returns from a stack of waiting callers and a last machine is what the
recursive reading resumes there. -/
theorem resumes_of_fire {fuel : Nat} {vm' : VM I} (hf : vm.fire fuel = .returned r vm')
    (hm : vm.machines = callers ++ [top]) (hc : ∀ c ∈ callers, (I.status c).awaitsSub) :
    Resumes I callers top r vm'.machines := by
  induction fuel generalizing vm callers top with
  | zero => cases hf
  | succ fuel ih =>
    rcases (I.status top).running_or_exited_or_invoked with hst | hex | ⟨context, hi⟩
    · -- the last machine steps
      have hrun := status_of_stack hm hc (by simp [hst, MachineStatus.exited])
      rcases hr : (I.step top).1 with e | ⟨⟩
      · rw [fire_of_step_error hrun (by rw [step_of_running hm hst, hr])] at hf
        cases hf
        exact .error (.stepError hst hr)
      · rw [fire_of_step hrun (by rw [step_of_running hm hst, hr])] at hf
        exact .of_step hst hr (ih hf rfl hc)
    · -- the last machine has exited: `fire` returns, or it is popped into its caller
      rcases callers.eq_nil_or_concat with rfl | ⟨rest, caller, rfl⟩
      · rw [fire_of_exited hm hex] at hf
        cases hf
        exact hm ▸ .done (.exited hex)
      · rw [List.concat_eq_append] at hm hc ⊢
        have hrun := status_of_stack hm hc (by simp)
        rw [fire_of_step hrun (step_of_exited (by simpa using hm) hex)] at hf
        exact .ret (.exited hex) (ih hf rfl fun c h => hc c (by simp [h]))
    · -- the last machine invokes a sub-call: a derived machine is pushed above it
      have hrun := status_of_stack hm hc fun _ => MachineStatus.exited_of_invoked hi
      rw [fire_of_step hrun (step_of_invoked hm hi)] at hf
      exact .of_call hi
        (ih hf (by simp) (awaitsSub_append hc (MachineStatus.awaitsSub_of_invoked hi)))

/-- Passes of `fire`'s loop that go on: `status` reports `Running` and `step` returns `Ok`. -/
def Steps : VM I → VM I → Prop :=
  Relation.ReflTransGen fun vm vm' => vm.status = some .running ∧ vm.step = some (.ok (), vm')

theorem fire_of_steps (h : Steps vm vm₁) {fuel : Nat} {x : Core.Outcome (Except I.RequireError Unit) (VM I)}
    (hf : vm₁.fire fuel = x) : ∃ fuel', vm.fire fuel' = x := by
  induction h using Relation.ReflTransGen.head_induction_on with
  | refl => exact ⟨fuel, hf⟩
  | head hstep _ ih =>
    obtain ⟨fuel', hf'⟩ := ih
    exact ⟨fuel' + 1, by rw [fire_of_step hstep.1 hstep.2, hf']⟩

/-- What the stack does while its last machine runs as `Executes` says: `fire` returns the
error above the callers, or the loop goes on, `status` `Running` throughout, to the machine
the run ends with in the last one's place. -/
theorem stack_of_executes {vm : VM I} (h : Executes I m r s) (hm : vm.machines = callers ++ [m])
    (hc : ∀ c ∈ callers, (I.status c).awaitsSub) :
    (∀ e, r = .error e → ∃ fuel vm', vm.fire fuel = .returned (.error e) vm' ∧
      vm'.machines = callers ++ s) ∧
    (r = .ok () → ∃ m' vm', s = [m'] ∧ vm'.machines = callers ++ [m'] ∧ Steps vm vm') := by
  induction h generalizing vm callers with
  | exited => exact ⟨nofun, fun _ => ⟨_, vm, rfl, hm, .refl⟩⟩
  | @step m r s hs hok _ ih =>
    have hrun := status_of_stack hm hc (by simp [hs, MachineStatus.exited])
    have hstep : vm.step = some (.ok (), { vm with machines := callers ++ [(I.step m).2] }) := by
      rw [step_of_running hm hs, hok]
    obtain ⟨ihe, iho⟩ := @ih callers { vm with machines := callers ++ [(I.step m).2] } rfl hc
    refine ⟨fun e he => ?_, fun he => ?_⟩
    · obtain ⟨fuel, vm', hf, hm'⟩ := ihe e he
      exact ⟨fuel + 1, vm', by rw [fire_of_step hrun hstep, hf], hm'⟩
    · obtain ⟨m', vm', hs', hm', hsteps⟩ := iho he
      exact ⟨m', vm', hs', hm', .head ⟨hrun, hstep⟩ hsteps⟩
  | @stepError m e hs he =>
    have hrun := status_of_stack hm hc (by simp [hs, MachineStatus.exited])
    refine ⟨fun e' he' => ⟨1, _, fire_of_step_error hrun (by rw [step_of_running hm hs, he, he']),
      rfl⟩, nofun⟩
  | @call m sub context r s hi hsub _ ih₁ ih₂ =>
    have hrun := status_of_stack hm hc fun _ => MachineStatus.exited_of_invoked hi
    have hc₁ := awaitsSub_append hc (MachineStatus.awaitsSub_of_invoked hi)
    -- the sub-call runs to its end above its caller
    obtain ⟨sub', vm₂, hsub', hm₂, hsteps₁⟩ :=
      (@ih₁ (callers ++ [m]) ⟨callers ++ [m, I.derive m context], vm.history ++ [context]⟩
        (by simp) hc₁).2 rfl
    cases hsub'
    obtain ⟨_, ⟨⟩, hex⟩ := hsub.ok_singleton
    -- then it is popped and applied to its caller, which runs on
    have hpop := step_of_exited (by simpa using hm₂) hex
    have hrun₂ := status_of_stack hm₂ hc₁ (by simp)
    obtain ⟨ihe, iho⟩ := @ih₂ callers { vm₂ with machines := callers ++ [I.applySub m sub] } rfl hc
    have hsteps : Steps vm { vm₂ with machines := callers ++ [I.applySub m sub] } :=
      .head ⟨hrun, step_of_invoked hm hi⟩ (hsteps₁.tail ⟨hrun₂, hpop⟩)
    refine ⟨fun e he => ?_, fun he => ?_⟩
    · obtain ⟨fuel, vm', hf, hm'⟩ := ihe e he
      obtain ⟨fuel', hf'⟩ := fire_of_steps hsteps hf
      exact ⟨fuel', vm', hf', hm'⟩
    · obtain ⟨m', vm', hs', hm', hsteps₂⟩ := iho he
      exact ⟨m', vm', hs', hm', hsteps.trans hsteps₂⟩
  | @callError m context e s hi _ ih =>
    have hrun := status_of_stack hm hc fun _ => MachineStatus.exited_of_invoked hi
    have hc₁ := awaitsSub_append hc (MachineStatus.awaitsSub_of_invoked hi)
    refine ⟨fun e' he' => ?_, nofun⟩
    obtain ⟨fuel, vm', hf, hm'⟩ :=
      (@ih (callers ++ [m]) ⟨callers ++ [m, I.derive m context], vm.history ++ [context]⟩
        (by simp) hc₁).1 e' he'
    exact ⟨fuel + 1, vm', by rw [fire_of_step hrun (step_of_invoked hm hi), hf], by simp [hm']⟩

/-- Whatever the recursive reading resumes from a stack of waiting callers and a last
machine, `fire` returns, given enough fuel. -/
theorem fire_of_resumes (h : Resumes I callers top r s) {vm : VM I}
    (hm : vm.machines = callers ++ [top]) (hc : ∀ c ∈ callers, (I.status c).awaitsSub) :
    ∃ fuel vm', vm.fire fuel = .returned r vm' ∧ vm'.machines = s := by
  induction h generalizing vm with
  | done hx =>
    obtain ⟨m', vm', rfl, hm', hsteps⟩ := (stack_of_executes hx hm hc).2 rfl
    obtain ⟨_, ⟨⟩, hex⟩ := hx.ok_singleton
    obtain ⟨fuel, hf⟩ := fire_of_steps hsteps (fire_of_exited (by simpa using hm') hex 0)
    exact ⟨fuel, vm', hf, by simpa using hm'⟩
  | @ret callers caller m sub r s hsub _ ih =>
    obtain ⟨sub', vm₁, hsub', hm₁, hsteps⟩ := (stack_of_executes hsub hm hc).2 rfl
    cases hsub'
    obtain ⟨_, ⟨⟩, hex⟩ := hsub.ok_singleton
    have hrun := status_of_stack hm₁ hc (by simp)
    have hpop := step_of_exited (by simpa using hm₁) hex
    obtain ⟨fuel, vm', hf, hm'⟩ :=
      @ih { vm₁ with machines := callers ++ [I.applySub caller sub] } rfl
        fun c h => hc c (by simp [h])
    obtain ⟨fuel', hf'⟩ := fire_of_steps hsteps ((fire_of_step hrun hpop).trans hf)
    exact ⟨fuel', vm', hf', hm'⟩
  | error hx => exact (stack_of_executes hx hm hc).1 _ rfl

end VM

/-- From every VM whose machines below the last await their sub-calls, `fire` computes the
recursive reading of nested calls resumed on its stack: for some fuel it returns `r` with the
stack `s` exactly when `Resumes` relates the waiting callers and the last machine to `r` and
`s`. This covers `VM::new`, and a VM fired again after a `RequireError` and any commits. -/
theorem fire_iff_resumes {vm : VM I} (hw : VM.Wf vm) (hm : vm.machines = callers ++ [top]) :
    (∃ fuel vm', vm.fire fuel = .returned r vm' ∧ vm'.machines = s) ↔ Resumes I callers top r s := by
  have hc : ∀ c ∈ callers, (I.status c).awaitsSub := fun c h => hw.awaiting c (by simp [hm, h])
  constructor
  · rintro ⟨fuel, vm', hf, rfl⟩
    exact VM.resumes_of_fire hf hm hc
  · intro h
    exact VM.fire_of_resumes h hm hc

theorem fire_iff_resumes_through_call :
    VM.Wf (@VM.new VM.nesting () () ()) ∧
      (@VM.new VM.nesting () () ()).machines = [] ++ [.invokeCreate ()] ∧
      (@VM.new VM.nesting () () ()).fire 5 = .returned (.ok ()) ⟨[.exitedOk], [()]⟩ ∧
      Resumes VM.nesting [] (.invokeCreate ()) (.ok ()) [.exitedOk] ∧
      ((∃ fuel vm', (@VM.new VM.nesting () () ()).fire fuel = .returned (.ok ()) vm' ∧
          vm'.machines = [.exitedOk]) ↔
        Resumes VM.nesting [] (.invokeCreate ()) (.ok ()) [.exitedOk]) :=
  have hw := (VM.Reachable.new () () ()).wf
  have hm : (@VM.new VM.nesting () () ()).machines = [] ++ [.invokeCreate ()] := rfl
  -- push the derived machine, step it to its exit, pop it, step the caller to its exit
  have hfire : (@VM.new VM.nesting () () ()).fire 5 =
      .returned (.ok ()) ⟨[.exitedOk], [()]⟩ := rfl
  ⟨hw, hm, hfire, (fire_iff_resumes hw hm).mp ⟨5, _, hfire, rfl⟩, fire_iff_resumes hw hm⟩

end EvmInterpreter.Legacy

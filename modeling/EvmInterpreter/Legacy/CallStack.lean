import EvmInterpreter.Legacy.VM

/-! The call-stack invariant of the legacy `VM`: the stack of machines is never empty, and
every machine below the last awaits the sub-call it invoked. Each operation keeps it, so it
holds in every reachable VM, and from it every `unwrap` and `[0]` of `VM` is safe. -/
namespace EvmInterpreter.Legacy

open Core (U256 Outcome)

namespace VM

variable {I : Interface} {vm vm' : VM I}

structure Wf (vm : VM I) : Prop where
  nonempty : vm.machines ≠ []
  awaiting : ∀ m ∈ vm.machines.dropLast, (I.status m).awaitsSub

/-- The four things `step` can do: step the last machine, leave a lone exited machine, pop
an exited machine into its parent, or push the sub-machine the last one invokes. -/
theorem step_cases {r : Except I.RequireError Unit} (hs : vm.step = some (r, vm')) :
    ∃ init last, vm.machines = init ++ [last] ∧
      ((I.status last = .running ∧ vm'.machines = init ++ [(I.step last).2]) ∨
       ((I.status last).exited ∧ init = [] ∧ vm' = vm) ∨
       ((I.status last).exited ∧ ∃ rest parent, init = rest ++ [parent] ∧
         vm'.machines = rest ++ [I.applySub parent last]) ∨
       ((I.status last).awaitsSub ∧ ∃ context, vm'.machines = init ++ [last, I.derive last context])) := by
  unfold step at hs
  split at hs
  · cases hs
  rename_i last hlast
  obtain ⟨init, hinit⟩ := List.getLast?_eq_some_iff.mp hlast
  refine ⟨init, last, hinit, ?_⟩
  split at hs <;> rename_i hstatus
  · cases hs
    exact .inl ⟨hstatus, by simp [hinit]⟩
  -- `ExitedOk` and `ExitedErr` share one arm, as do `InvokeCall` and `InvokeCreate`
  iterate 2
    have hexit : (I.status last).exited := by simp [hstatus, MachineStatus.exited]
    split at hs
    · cases hs
      exact .inr (.inl ⟨hexit, by simp_all, rfl⟩)
    split at hs
    · cases hs
    rename_i parent hparent
    cases hs
    obtain ⟨rest, hrest⟩ := List.getLast?_eq_some_iff.mp (by simpa [hinit] using hparent)
    exact .inr (.inr (.inl ⟨hexit, rest, parent, hrest, by simp [hinit, hrest]⟩))
  all_goals
    cases hs
    exact .inr (.inr (.inr ⟨by simp [hstatus, MachineStatus.awaitsSub], _,
      by rw [hinit, List.append_assoc]; rfl⟩))

theorem Wf.after_step {r : Except I.RequireError Unit} (hw : Wf vm) (hs : vm.step = some (r, vm')) :
    Wf vm' := by
  obtain ⟨init, last, hm, h⟩ := step_cases hs
  have hinit : ∀ m ∈ init, (I.status m).awaitsSub := by simpa [hm] using hw.awaiting
  rcases h with ⟨-, hm'⟩ | ⟨-, -, rfl⟩ | ⟨-, rest, parent, rfl, hm'⟩ | ⟨hlast, context, hm'⟩
  · exact ⟨by simp [hm'], by simpa [hm'] using hinit⟩
  · exact hw
  · exact ⟨by simp [hm'], fun m hmem => hinit m (by simp_all)⟩
  · refine ⟨by simp [hm'], fun m hmem => ?_⟩
    simp only [hm', List.dropLast_append_cons, List.dropLast_cons₂, List.dropLast_single,
      List.mem_append, List.mem_singleton] at hmem
    rcases hmem with hmem | rfl
    · exact hinit m hmem
    · exact hlast

theorem commitEach_status {E : Type} {commit : I.Machine → Except E Unit × I.Machine}
    (hc : ∀ m, I.status (commit m).2 = I.status m) (ms : List I.Machine) :
    (commitEach commit ms).2.map I.status = ms.map I.status := by
  induction ms with
  | nil => rfl
  | cons m ms ih =>
    have hm := hc m
    simp only [commitEach]
    split <;> rename_i heq <;> rw [heq] at hm
    · simp [hm]
    · simp [hm, ih]

theorem Wf.of_status_eq (hw : Wf vm) (h : vm'.machines.map I.status = vm.machines.map I.status) :
    Wf vm' := by
  refine ⟨fun he => hw.nonempty (by simpa [he] using h.symm), fun m hm => ?_⟩
  have hmem : I.status m ∈ (vm.machines.map I.status).dropLast := by
    rw [← h, ← List.map_dropLast]
    exact List.mem_map_of_mem _ hm
  rw [← List.map_dropLast, List.mem_map] at hmem
  obtain ⟨m₀, hm₀, heq⟩ := hmem
  exact heq ▸ hw.awaiting m₀ hm₀

theorem Wf.after_commitAccount (hw : Wf vm) (commitment : I.AccountCommitment) :
    Wf (vm.commitAccount commitment).2 :=
  hw.of_status_eq (commitEach_status (fun m => I.status_commitAccount m commitment) _)

theorem Wf.after_commitBlockhash (hw : Wf vm) (number hash : U256) :
    Wf (vm.commitBlockhash number hash).2 :=
  hw.of_status_eq (commitEach_status (fun m => I.status_commitBlockhash m number hash) _)

theorem Wf.after_fire {fuel : Nat} {r : Except I.RequireError Unit} (hw : Wf vm)
    (hf : vm.fire fuel = .returned r vm') : Wf vm' := by
  induction fuel generalizing vm with
  | zero => cases hf
  | succ fuel ih =>
    simp only [fire] at hf
    split at hf
    · cases hf
    · split at hf
      · cases hf
      · cases hf; exact hw.after_step ‹_›
      · exact ih (hw.after_step ‹_›) hf
    · cases hf; exact hw
    · cases hf; exact hw

theorem Wf.head_awaits (hw : Wf vm) {m : I.Machine} {ms : List I.Machine}
    (hm : vm.machines = m :: ms) (hms : ms ≠ []) : (I.status m).awaitsSub := by
  obtain ⟨b, rest, rfl⟩ := List.exists_cons_of_ne_nil hms
  exact hw.awaiting m (by simp [hm])

theorem Wf.status_running (hw : Wf vm) (hlen : 1 < vm.machines.length) :
    vm.status = some .running := by
  obtain ⟨m, ms, hm⟩ := List.exists_cons_of_ne_nil hw.nonempty
  have hms : ms ≠ [] := by rintro rfl; simp [hm] at hlen
  have hwait := hw.head_awaits hm hms
  simp only [status, hm, List.head?_cons, Option.map_some', Option.some.injEq]
  split <;> simp_all [MachineStatus.awaitsSub]

theorem Wf.step_isSome (hw : Wf vm) : vm.step.isSome := by
  obtain ⟨init, last, hm⟩ := (List.eq_nil_or_concat vm.machines).resolve_left hw.nonempty
  unfold VM.step
  rw [hm, List.concat_eq_append, List.getLast?_concat]
  dsimp only
  split <;> try rfl
  all_goals
    split
    · rfl
    · rename_i hlen
      cases init using List.reverseRecOn with
      | nil => simp at hlen
      | append_singleton init parent => simp

theorem Wf.read_isSome (hw : Wf vm) {α : Type} (field : I.State → α) : (vm.read field).isSome := by
  obtain ⟨m, ms, hm⟩ := List.exists_cons_of_ne_nil hw.nonempty
  simp [read, hm]

theorem Wf.status_isSome (hw : Wf vm) : vm.status.isSome := by
  obtain ⟨m, ms, hm⟩ := List.exists_cons_of_ne_nil hw.nonempty
  simp [status, hm]

theorem fire_ok_head_exited {fuel : Nat} (hf : vm.fire fuel = .returned (.ok ()) vm') :
    ∃ m ms, vm'.machines = m :: ms ∧ (I.status m).exited := by
  induction fuel generalizing vm with
  | zero => cases hf
  | succ fuel ih =>
    simp only [fire] at hf
    split at hf
    · cases hf
    · split at hf
      · cases hf
      · cases hf
      · exact ih hf
    all_goals
      cases hf
      rename_i hstatus
      obtain ⟨m, hm, hs⟩ := Option.map_eq_some'.mp hstatus
      obtain ⟨ms, hms⟩ := List.head?_eq_some_iff.mp hm
      refine ⟨m, ms, hms, ?_⟩
      revert hs
      cases I.status m <;> simp [MachineStatus.exited]

/-- When `fire` returns `Ok(())` from a well-formed VM, one machine is left, and it has exited. -/
theorem Wf.fire_ok (hw : Wf vm) {fuel : Nat} (hf : vm.fire fuel = .returned (.ok ()) vm') :
    ∃ m, vm'.machines = [m] ∧ (I.status m).exited := by
  obtain ⟨m, ms, hm, hexit⟩ := fire_ok_head_exited hf
  refine ⟨m, ?_, hexit⟩
  rcases ms with _ | ⟨b, rest⟩
  · exact hm
  · have hwait := (hw.after_fire hf).head_awaits hm (List.cons_ne_nil b rest)
    revert hwait hexit
    cases I.status m <;> simp [MachineStatus.exited, MachineStatus.awaitsSub]

/-- The VMs reachable from `VM::new` by `step`, `fire`, `commit_account` and
`commit_blockhash`. -/
inductive Reachable : VM I → Prop
  | new (context : I.Context) (block : I.BlockHeader) (patch : I.Patch) :
      Reachable (VM.new context block patch)
  | step {vm vm' : VM I} {r : Except I.RequireError Unit} :
      Reachable vm → vm.step = some (r, vm') → Reachable vm'
  | fire {vm vm' : VM I} {fuel : Nat} {r : Except I.RequireError Unit} :
      Reachable vm → vm.fire fuel = .returned r vm' → Reachable vm'
  | commitAccount {vm : VM I} (commitment : I.AccountCommitment) :
      Reachable vm → Reachable (vm.commitAccount commitment).2
  | commitBlockhash {vm : VM I} (number hash : U256) :
      Reachable vm → Reachable (vm.commitBlockhash number hash).2

theorem Reachable.wf (hr : Reachable vm) : Wf vm := by
  induction hr with
  | new => exact ⟨by simp [VM.new], by simp [VM.new]⟩
  | step _ hs ih => exact ih.after_step hs
  | fire _ hf ih => exact ih.after_fire hf
  | commitAccount commitment _ ih => exact ih.after_commitAccount commitment
  | commitBlockhash number hash _ ih => exact ih.after_commitBlockhash number hash

/-- What a VM state guarantees its callers: the call-stack invariant, and what it buys. -/
structure Guarantees (vm : VM I) extends Wf vm : Prop where
  status_isSome : vm.status.isSome
  step_isSome : vm.step.isSome
  read_isSome : ∀ {α : Type} (field : I.State → α), (vm.read field).isSome
  parent_awaits : ∀ rest parent last, vm.machines = rest ++ [parent, last] →
    (I.status parent).awaitsSub
  status_running : 1 < vm.machines.length → vm.status = some .running
  fire_ok : ∀ fuel vm', vm.fire fuel = .returned (.ok ()) vm' →
    ∃ m, vm'.machines = [m] ∧ (I.status m).exited

/-- In every VM reachable from `VM::new`, the stack of machines is non-empty and every
machine below the last awaits a sub-call. So `status`, `step` and the getters never panic,
a popped machine is applied to a parent that awaits it, `status` is `Running` while more
than one machine is on the stack, and `fire` returns `Ok(())` only with one exited machine. -/
theorem reachable_guarantees (hr : Reachable vm) : Guarantees vm :=
  have hw := hr.wf
  { toWf := hw
    status_isSome := hw.status_isSome
    step_isSome := hw.step_isSome
    read_isSome := hw.read_isSome
    parent_awaits := fun rest parent last hm => hw.awaiting parent (by simp [hm])
    status_running := hw.status_running
    fire_ok := fun _ _ hf => hw.fire_ok hf }

/-- Fixture: an interface over bare statuses. A new machine invokes a create, a derived
machine runs, a step exits a running machine, and a caller handed back its sub-machine runs
again. -/
def nesting : Interface where
  Machine := MachineStatus Unit Unit
  Context := Unit
  BlockHeader := Unit
  Patch := Unit
  MachineError := Unit
  VMError := Unit
  RequireError := Unit
  CommitError := Unit
  AccountCommitment := Unit
  State := Unit
  new _ _ _ _ := .invokeCreate ()
  status := id
  step _ := (.ok (), .exitedOk)
  applySub _ _ := .running
  derive _ _ := .running
  commitAccount m _ := (.ok (), m)
  commitBlockhash m _ _ := (.ok (), m)
  state _ := ()
  intoVMError := id
  status_commitAccount _ _ := rfl
  status_commitBlockhash _ _ _ := rfl

theorem reachable_guarantees_after_call :
    ∃ vm, (@VM.new nesting () () ()).step = some (.ok (), vm) ∧ vm.machines.length = 2 ∧
      Reachable vm ∧ Guarantees vm :=
  have hstep : (@VM.new nesting () () ()).step =
      some (.ok (), ⟨[.invokeCreate (), .running], [()]⟩) := rfl
  ⟨_, hstep, rfl, .step (.new _ _ _) hstep, reachable_guarantees (.step (.new _ _ _) hstep)⟩

end VM

end EvmInterpreter.Legacy

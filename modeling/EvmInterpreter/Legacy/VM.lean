import EvmInterpreter.Core.Machine

/-! The older monolithic `VM` of `sputnikvm/src/vm/mod.rs`: a stack of machines of which only
the last runs. The machine lives in modules absent from the source, so its types and
operations form an `Interface`. Every machine below the last awaits a sub-call, which keeps
the stack non-empty and makes each `unwrap` and `[0]` of `VM` safe. -/
namespace EvmInterpreter.Legacy

open Core (U256 Outcome)

/-- `MachineStatus` of the absent `vm::eval` module, with the variants `VM` matches on. -/
inductive MachineStatus (Context MachineError : Type)
  | running
  | exitedOk
  | exitedErr (err : MachineError)
  | invokeCreate (context : Context)
  | invokeCall (context : Context) (outputRange : U256 × U256)
deriving DecidableEq, Repr

def MachineStatus.awaitsSub {C E : Type} : MachineStatus C E → Bool
  | .invokeCreate _ | .invokeCall _ _ => true
  | _ => false

def MachineStatus.exited {C E : Type} : MachineStatus C E → Bool
  | .exitedOk | .exitedErr _ => true
  | _ => false

inductive VMStatus (VMError : Type)
  | running
  | exitedOk
  | exitedErr (err : VMError)
deriving DecidableEq, Repr

/-- The machine of the absent `vm::eval` module: its types and the operations `VM` calls.
As `VM` relies on, committing an account or a block hash leaves a machine's status alone. -/
structure Interface where
  Machine : Type
  Context : Type
  BlockHeader : Type
  Patch : Type
  MachineError : Type
  VMError : Type
  RequireError : Type
  CommitError : Type
  AccountCommitment : Type
  State : Type
  new : Context → BlockHeader → Patch → Nat → Machine
  status : Machine → MachineStatus Context MachineError
  step : Machine → Except RequireError Unit × Machine
  applySub : Machine → Machine → Machine
  derive : Machine → Context → Machine
  commitAccount : Machine → AccountCommitment → Except CommitError Unit × Machine
  commitBlockhash : Machine → U256 → U256 → Except CommitError Unit × Machine
  state : Machine → State
  intoVMError : MachineError → VMError
  status_commitAccount : ∀ m c, status (commitAccount m c).2 = status m
  status_commitBlockhash : ∀ m number hash, status (commitBlockhash m number hash).2 = status m

structure VM (I : Interface) where
  machines : List I.Machine
  history : List I.Context

namespace VM

variable {I : Interface}

def new (context : I.Context) (block : I.BlockHeader) (patch : I.Patch) : VM I :=
  ⟨[I.new context block patch 1], []⟩

/-- `for machine in &mut self.machines { commit(machine)?; }`: commit to each machine in
turn, stopping at the first error. -/
def commitEach {E : Type} (commit : I.Machine → Except E Unit × I.Machine) :
    List I.Machine → Except E Unit × List I.Machine
  | [] => (.ok (), [])
  | m :: ms =>
    match commit m with
    | (.error e, m') => (.error e, m' :: ms)
    | (.ok (), m') => Prod.map id (m' :: ·) (commitEach commit ms)

/-- The loop commits to each machine in turn. When every commit succeeds, every machine is
committed and it returns `Ok(())`. Otherwise it stops at the first machine whose commit fails
and returns that error, with no rollback: the machines before it stay committed, it keeps what
its own commit left, and the machines after it are untouched. -/
theorem commitEach_spec {E : Type} (commit : I.Machine → Except E Unit × I.Machine)
    (ms : List I.Machine) :
    ((∀ m ∈ ms, (commit m).1 = .ok ()) ∧
      commitEach commit ms = (.ok (), ms.map fun m => (commit m).2)) ∨
    (∃ pre m post e, ms = pre ++ m :: post ∧ (∀ p ∈ pre, (commit p).1 = .ok ()) ∧
      (commit m).1 = .error e ∧
      commitEach commit ms = (.error e, pre.map (fun p => (commit p).2) ++ (commit m).2 :: post)) := by
  induction ms with
  | nil => exact .inl ⟨nofun, rfl⟩
  | cons m ms ih =>
    rcases hc : commit m with ⟨e | ⟨⟩, m'⟩
    · -- the first commit fails: the loop stops here
      exact .inr ⟨[], m, ms, e, rfl, nofun, by rw [hc], by simp [commitEach, hc]⟩
    · rcases ih with ⟨hok, heq⟩ | ⟨pre, x, post, e, rfl, hpre, hx, heq⟩
      · exact .inl ⟨List.forall_mem_cons.mpr ⟨by rw [hc], hok⟩, by simp [commitEach, hc, heq]⟩
      · refine .inr ⟨m :: pre, x, post, e, rfl, List.forall_mem_cons.mpr ⟨by rw [hc], hpre⟩, hx, ?_⟩
        simp [commitEach, hc, heq]

def commitAccount (vm : VM I) (commitment : I.AccountCommitment) :
    Except I.CommitError Unit × VM I :=
  Prod.map id ({ vm with machines := · })
    (commitEach (fun m => I.commitAccount m commitment) vm.machines)

def commitBlockhash (vm : VM I) (number hash : U256) : Except I.CommitError Unit × VM I :=
  Prod.map id ({ vm with machines := · })
    (commitEach (fun m => I.commitBlockhash m number hash) vm.machines)

/-- `self.machines[0].state()`, which `accounts`, `out`, the gas getters and `logs` read a
field of; `none` where indexing panics. -/
def read {α : Type} (field : I.State → α) (vm : VM I) : Option α :=
  vm.machines.head?.map fun m => field (I.state m)

/-- `status`; `none` where `machines[0]` panics. -/
def status (vm : VM I) : Option (VMStatus I.VMError) :=
  vm.machines.head?.map fun m =>
    match I.status m with
    | .running | .invokeCreate _ | .invokeCall _ _ => .running
    | .exitedOk => .exitedOk
    | .exitedErr err => .exitedErr (I.intoVMError err)

/-- `step`; `none` where an `unwrap` panics. -/
def step (vm : VM I) : Option (Except I.RequireError Unit × VM I) :=
  match vm.machines.getLast? with
  | none => none
  | some last =>
    match I.status last with
    | .running =>
      let (r, last') := I.step last
      some (r, { vm with machines := vm.machines.dropLast ++ [last'] })
    | .exitedOk | .exitedErr _ =>
      if vm.machines.length ≤ 1 then some (.ok (), vm)
      else
        match vm.machines.dropLast.getLast? with
        | none => none
        | some parent =>
          some (.ok (), { vm with machines := vm.machines.dropLast.dropLast ++ [I.applySub parent last] })
    | .invokeCall context _ | .invokeCreate context =>
      some (.ok (), ⟨vm.machines ++ [I.derive last context], vm.history ++ [context]⟩)

def fire : Nat → VM I → Outcome (Except I.RequireError Unit) (VM I)
  | 0, vm => .outOfFuel vm
  | fuel + 1, vm =>
    match vm.status with
    | none => .panicked
    | some .running =>
      match vm.step with
      | none => .panicked
      | some (.error e, vm') => .returned (.error e) vm'
      | some (.ok (), vm') => fire fuel vm'
    | some .exitedOk | some (.exitedErr _) => .returned (.ok ()) vm

end VM

end EvmInterpreter.Legacy

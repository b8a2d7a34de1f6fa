import EvmInterpreter.Core.Word

/-! The core `Machine` of `core/src/lib.rs`: its state, `new`, `exit`, `inspect`,
`return_value`, `step` and `run`. The opcode evaluator `eval` sits in a module absent from
the source, so `step` takes it as a parameter and holds for every evaluator. -/
namespace EvmInterpreter.Core

/-- Modelled from the spec: `ExitSucceed` (the error module is absent). -/
inductive ExitSucceed
  | stopped | returned | suicided
deriving DecidableEq, Repr

/-- Modelled from the spec: `ExitError`. -/
inductive ExitError
  | stackUnderflow | stackOverflow | invalidJump | invalidRange | designatedInvalid
  | callTooDeep | createCollision | createContractLimit | outOfOffset | outOfGas
  | outOfFund | pcUnderflow | createEmpty | other
deriving DecidableEq, Repr

/-- Modelled from the spec: `ExitRevert`. -/
inductive ExitRevert
  | reverted
deriving DecidableEq, Repr

/-- Modelled from the spec: `ExitFatal`. -/
inductive ExitFatal
  | notSupported | unhandledInterrupt | callErrorAsFatal
deriving DecidableEq, Repr

/-- Modelled from the spec: `ExitReason`, with `From` conversions as the constructors. -/
inductive ExitReason
  | succeed (reason : ExitSucceed)
  | error (reason : ExitError)
  | revert (reason : ExitRevert)
  | fatal (reason : ExitFatal)
deriving DecidableEq, Repr

inductive Capture (E T : Type)
  | exit (reason : E)
  | trap (trap : T)
deriving DecidableEq, Repr

structure Opcode where
  byte : UInt8
deriving DecidableEq, Repr

/-- Modelled from the spec: `Stack` (its module is absent), words bounded by a limit. -/
structure Stack where
  data : List H256
  limit : Nat
deriving DecidableEq, Repr

def Stack.new (limit : Nat) : Stack := ⟨[], limit⟩

/-- Modelled from the spec: `Memory` (its module is absent), bytes bounded by a limit. -/
structure Memory where
  data : List UInt8
  limit : Nat
deriving DecidableEq, Repr

def Memory.new (limit : Nat) : Memory := ⟨[], limit⟩

/-- A `Vec<u8>`. Rust caps a vector at `isize::MAX` bytes: a `push` or `resize` past the cap
panics. How the capacity grows below the cap is unspecified by `Vec` and left out. -/
structure ByteVec where
  data : List UInt8
  length_le : data.length ≤ isizeMax
deriving DecidableEq, Repr

namespace ByteVec

/-- The vector holding `data`; `none`, a capacity-overflow panic, past the cap. -/
def ofList (data : List UInt8) : Option ByteVec :=
  if h : data.length ≤ isizeMax then some ⟨data, h⟩ else none

def empty : ByteVec := ⟨[], Nat.zero_le _⟩

def push (v : ByteVec) (value : UInt8) : Option ByteVec := ofList (v.data ++ [value])

def resize (v : ByteVec) (len : Nat) (value : UInt8) : Option ByteVec :=
  ofList (v.data.take len ++ List.replicate (len - v.data.length) value)

theorem ofList_eq_some {data : List UInt8} {v : ByteVec} (h : ofList data = some v) :
    v.data = data := by
  unfold ofList at h
  split at h <;> cases h
  rfl

theorem length_of_push {v v' : ByteVec} {value : UInt8} (h : v.push value = some v') :
    v'.data.length = v.data.length + 1 := by
  rw [ofList_eq_some h, List.length_append, List.length_singleton]

end ByteVec

/-- Modelled from the spec: `Memory::get(offset, size)` reads `size` bytes from `offset`,
zero past the end of the data, into the `Vec<u8>` that `return_value` returns or pushes to. -/
def Memory.get (memory : Memory) (offset size : Nat) : Option ByteVec :=
  ByteVec.ofList ((List.range' offset size).map fun position => memory.data.getD position 0)

/-- Modelled from the spec: the linear pass of `Valids::new`; `skip` counts the `PUSHn`
immediate bytes still ahead. -/
def Valids.scan : List UInt8 → Nat → List Bool
  | [], _ => []
  | _ :: code, skip + 1 => false :: Valids.scan code skip
  | b :: code, 0 =>
    (b == 0x5B) :: Valids.scan code (if 0x60 ≤ b ∧ b ≤ 0x7F then b.toNat - 0x5F else 0)

def Valids.new (code : List UInt8) : List Bool := Valids.scan code 0

structure Range (α : Type) where
  start : α
  «end» : α
deriving DecidableEq, Repr

inductive Control
  | continue (n : Nat)
  | exit (reason : ExitReason)
  | jump (target : Nat)
  | trap (opcode : Opcode)
deriving DecidableEq, Repr

instance instDecidableEqExcept {ε α : Type} [DecidableEq ε] [DecidableEq α] :
    DecidableEq (Except ε α)
  | .ok a, .ok b => decidable_of_iff (a = b) (by simp)
  | .error a, .error b => decidable_of_iff (a = b) (by simp)
  | .ok _, .error _ => isFalse (by simp)
  | .error _, .ok _ => isFalse (by simp)

structure Machine where
  data : List UInt8
  code : List UInt8
  position : Except ExitReason Nat
  returnRange : Range U256
  valids : List Bool
  memory : Memory
  stack : Stack
deriving DecidableEq, Repr

structure MachineStep where
  op : UInt8
  pc : Nat
  opcodePc : Nat
  codeHash : H256
  memory : List U256
  stack : List H256
deriving DecidableEq, Repr

/-- `eval(machine, opcode, position)`: any evaluator, changing any part of the machine. -/
abbrev Eval := Machine → Opcode → Nat → Machine × Control

/-- How a model of a Rust loop ends: it returns, it panics, or its fuel runs out first. -/
inductive Outcome (α σ : Type)
  | returned (value : α) (state : σ)
  | panicked
  | outOfFuel (state : σ)
deriving DecidableEq, Repr

namespace Machine

def new (code data : List UInt8) (stackLimit memoryLimit : Nat) : Machine where
  data := data
  code := code
  position := .ok 0
  returnRange := ⟨0, 0⟩
  valids := Valids.new code
  memory := Memory.new memoryLimit
  stack := Stack.new stackLimit

def exit (m : Machine) (reason : ExitReason) : Machine :=
  { m with position := .error reason }

/-- The opcode at the machine's position, with the position. `inspect` and `step` read it
by their own matches; `inspect_eq_fetch`, `step_of_fetch_none` and `step_ok` relate them. -/
def fetch (m : Machine) : Option (Nat × Opcode) :=
  match m.position with
  | .ok position => m.code[position]?.map fun v => (position, ⟨v⟩)
  | .error _ => none

def inspect (m : Machine) : Option (Opcode × Stack) :=
  match m.position with
  | .ok position => m.code[position]?.map fun v => (⟨v⟩, m.stack)
  | .error _ => none

def returnSize (range : Range U256) : Option Nat :=
  (U256.sub range.end range.start).bind U256.asUsize

/-- `while ret.len() < size { ret.push(0) }`. -/
def pushZeros (ret : ByteVec) (size : Nat) : Option ByteVec :=
  if _ : ret.data.length < size then
    match hpush : ret.push 0 with
    | some ret' =>
      have := ByteVec.length_of_push hpush
      pushZeros ret' size
    | none => none
  else some ret
termination_by size - ret.data.length

def returnValue (m : Machine) : Option ByteVec :=
  let range := m.returnRange
  if range.start > BitVec.ofNat 256 usizeMax then do
    let size ← returnSize range
    ByteVec.empty.resize size 0
  else if range.end > BitVec.ofNat 256 usizeMax then do
    let start ← U256.asUsize range.start
    let ret ← m.memory.get start (usizeMax - start)
    let size ← returnSize range
    pushZeros ret size
  else do
    let start ← U256.asUsize range.start
    let size ← returnSize range
    m.memory.get start size

/-- The `MachineStep` that `step` builds before evaluating `opcode` at `position`;
`none` where building it panics. -/
def record (m : Machine) (opcode : Opcode) (position : Nat) : Option MachineStep := do
  let codeHash ← H256.fromSlice m.code
  let memory ← memoryWords m.memory.data
  pure ⟨opcode.byte, position, position, codeHash, memory, m.stack.data⟩

/-- `Machine::step`; `none` where it panics. -/
def step (eval : Eval) (m : Machine) :
    Option (Except (Capture ExitReason Opcode) MachineStep × Machine) :=
  match m.position with
  | .error reason => some (.error (.exit reason), m)
  | .ok position =>
    match m.code[position]? with
    | none => some (.error (.exit (.succeed .stopped)), { m with position := .error (.succeed .stopped) })
    | some v => (m.record ⟨v⟩ position).map fun step =>
      match eval m ⟨v⟩ position with
      | (m', .continue p) => (.ok step, { m' with position := .ok (position + p) })
      | (m', .exit e) => (.error (.exit e), { m' with position := .error e })
      | (m', .jump p) => (.ok step, { m' with position := .ok p })
      | (m', .trap opcode) => (.error (.trap opcode), { m' with position := .ok (position + 1) })

/-- `Machine::run`, with `fuel` passes of its loop. -/
def run (eval : Eval) : Nat → Machine → Outcome (Capture ExitReason Opcode) Machine
  | 0, m => .outOfFuel m
  | fuel + 1, m =>
    match m.step eval with
    | none => .panicked
    | some (.ok _, m') => run eval fuel m'
    | some (.error res, m') => .returned res m'

variable {eval : Eval} {m m' : Machine}

theorem inspect_eq_fetch (m : Machine) :
    m.inspect = m.fetch.map fun (_, opcode) => (opcode, m.stack) := by
  unfold inspect fetch
  split <;> simp [Option.map_map, Function.comp_def]

theorem fetch_of_position_error {reason : ExitReason} (h : m.position = .error reason) :
    m.fetch = none := by
  simp [fetch, h]

theorem step_of_position_error (eval : Eval) {reason : ExitReason}
    (h : m.position = .error reason) : m.step eval = some (.error (.exit reason), m) := by
  simp [step, h]

theorem step_of_fetch_none (eval : Eval) (h : m.fetch = none) :
    ∃ e m', m.step eval = some (.error (.exit e), m') := by
  unfold fetch at h
  unfold step
  split
  · exact ⟨_, _, rfl⟩
  · rename_i position hp
    rw [hp] at h
    rw [Option.map_eq_none'.mp h]
    exact ⟨_, _, rfl⟩

theorem record_eq_none_iff (opcode : Opcode) (position : Nat) :
    m.record opcode position = none ↔ m.code.length ≠ 32 := by
  rw [← H256.fromSlice_eq_none_iff]
  cases h : H256.fromSlice m.code <;> simp [record, memoryWords_eq, h]

/-- `step` panics exactly when it reaches an opcode of a code that is not 32 bytes long:
building the trace's `code_hash` asserts a 32-byte slice. -/
theorem step_eq_none_iff (eval : Eval) (m : Machine) :
    m.step eval = none ↔ m.fetch.isSome ∧ m.code.length ≠ 32 := by
  cases hp : m.position with
  | error reason => simp [step, fetch, hp]
  | ok position => cases hv : m.code[position]? <;> simp [step, fetch, hp, hv, record_eq_none_iff]

/-- A one-byte `STOP` program panics at its first step, whatever the evaluator, and so does
`run`. -/
theorem step_new_stop_panics (eval : Eval) :
    (Machine.new [0x00] [] 1024 usizeMax).step eval = none ∧
      ∀ fuel, (Machine.new [0x00] [] 1024 usizeMax).run eval (fuel + 1) = .panicked := by
  have h : (Machine.new [0x00] [] 1024 usizeMax).step eval = none :=
    (step_eq_none_iff eval _).2 ⟨rfl, by decide⟩
  exact ⟨h, fun fuel => by simp [run, h]⟩

/-- What `step` returns agrees with where it leaves the machine: an exit is recorded in the
position, and after anything else the machine has a program counter. -/
def Agrees : Except (Capture ExitReason Opcode) MachineStep → Except ExitReason Nat → Prop
  | .error (.exit e), position => position = .error e
  | _, position => ∃ pc, position = .ok pc

theorem step_agrees {r : Except (Capture ExitReason Opcode) MachineStep}
    (h : m.step eval = some (r, m')) : Agrees r m'.position := by
  unfold step at h
  split at h
  · cases h; assumption
  · split at h
    · cases h; rfl
    · obtain ⟨s, -, hs⟩ := Option.map_eq_some'.mp h
      split at hs <;> cases hs <;> simp [Agrees]

theorem step_ok {s : MachineStep} (h : m.step eval = some (.ok s, m')) :
    ∃ pc opcode, m.fetch = some (pc, opcode) ∧ m.record opcode pc = some s := by
  unfold step at h
  split at h
  · cases h
  · rename_i position hposition
    split at h
    · cases h
    · rename_i v hv
      obtain ⟨s', hs', hs⟩ := Option.map_eq_some'.mp h
      refine ⟨position, ⟨v⟩, by simp [fetch, hposition, hv], ?_⟩
      split at hs <;> cases hs <;> exact hs'

theorem step_trap {trap : Opcode} (h : m.step eval = some (.error (.trap trap), m')) :
    ∃ pc opcode, m.fetch = some (pc, opcode) ∧ m'.position = .ok (pc + 1) := by
  unfold step at h
  split at h
  · cases h
  · rename_i position hposition
    split at h
    · cases h
    · rename_i v hv
      obtain ⟨s', -, hs⟩ := Option.map_eq_some'.mp h
      refine ⟨position, ⟨v⟩, by simp [fetch, hposition, hv], ?_⟩
      split at hs <;> cases hs
      rfl

theorem record_fields {opcode : Opcode} {pc : Nat} {s : MachineStep}
    (h : m.record opcode pc = some s) : s.op = opcode.byte ∧ s.pc = pc ∧ s.opcodePc = pc := by
  simp only [record, Option.bind_eq_bind, Option.bind_eq_some, Option.pure_def,
    Option.some.injEq] at h
  obtain ⟨_, -, _, -, rfl⟩ := h
  exact ⟨rfl, rfl, rfl⟩

theorem run_returned_agrees {fuel : Nat} {res : Capture ExitReason Opcode} {e : ExitReason}
    (h : m.run eval fuel = .returned res m') (hres : res = .exit e) :
    m'.position = .error e := by
  induction fuel generalizing m with
  | zero => cases h
  | succ fuel ih =>
    simp only [run] at h
    split at h
    · cases h
    · exact ih h
    · rename_i hstep
      cases h
      subst hres
      exact step_agrees hstep

end Machine

/-- Fixtures of the witnesses: thirty-two `STOP`s, the shortest code whose steps build a
trace record, and an evaluator that exits on `STOP` and steps over every other opcode. -/
def stopCode : List UInt8 := List.replicate 32 0

def stopEval : Eval := fun m opcode _ =>
  (m, if opcode.byte = 0 then .exit (.succeed .stopped) else .continue 1)

theorem Machine.step_stopCode : (Machine.new stopCode [] 1024 usizeMax).step stopEval =
    some (.error (.exit (.succeed .stopped)),
      (Machine.new stopCode [] 1024 usizeMax).exit (.succeed .stopped)) := by
  simp [Machine.step, Machine.record, Machine.new, Memory.new, stopCode, stopEval,
    H256.fromSlice, memoryWords_eq, Machine.exit]

end EvmInterpreter.Core

import EvmInterpreter.Core.Machine

/-! The memory field of the `MachineStep` trace. `step` cuts memory into 32-byte chunks and
reads each as a big-endian number, so a final chunk shorter than 32 bytes becomes the low
bytes of its word rather than the high bytes of the memory word at its offset. -/
namespace EvmInterpreter.Core

namespace Machine

theorem record_memory {m : Machine} {opcode : Opcode} {pc : Nat} {s : MachineStep}
    (h : m.record opcode pc = some s) :
    s.memory = (wordChunks m.memory.data).map fun c => BitVec.ofNat 256 (beValue c) := by
  simp only [record, memoryWords_eq, Option.bind_eq_bind, Option.bind_eq_some, Option.some_bind,
    Option.pure_def, Option.some.injEq] at h
  obtain ⟨_, -, rfl⟩ := h
  rfl

/-- Writing the trace words back as 32 big-endian bytes each gives memory cut into 32-byte
chunks, each chunk with zeros in front: a full chunk is the memory word at its offset, and
a final shorter chunk of `r` bytes lands in the word's low `r` bytes. -/
theorem record_memory_bytes {m : Machine} {opcode : Opcode} {pc : Nat} {s : MachineStep}
    (h : m.record opcode pc = some s) :
    (s.memory.map U256.toBigEndian).flatten =
      (wordChunks m.memory.data).flatMap fun c => List.replicate (32 - c.length) 0 ++ c := by
  rw [record_memory h, List.map_map, List.flatMap_def]
  exact congrArg List.flatten (List.map_congr_left fun c hc =>
    toBigEndian_ofNat_beValue (length_le_of_mem_wordChunks hc))

/-- Fixture: a machine on `stopCode` whose memory is the single byte `1`. -/
def oneByteMemory : Machine :=
  { Machine.new stopCode [] 1024 usizeMax with memory := ⟨[1], usizeMax⟩ }

theorem oneByteMemory_record :
    oneByteMemory.record ⟨0⟩ 0 = some ⟨0, 0, 0, .zero, [1], []⟩ := by
  simp [oneByteMemory, record, H256.fromSlice, memoryWords_eq, wordChunks_of_ne_nil, beValue,
    Machine.new, Stack.new, stopCode, FixedHash.zero]

theorem record_memory_bytes_of_one_byte :
    ∃ s, oneByteMemory.record ⟨0⟩ 0 = some s ∧
      (s.memory.map U256.toBigEndian).flatten =
        (wordChunks oneByteMemory.memory.data).flatMap fun c =>
          List.replicate (32 - c.length) 0 ++ c :=
  ⟨_, oneByteMemory_record, record_memory_bytes oneByteMemory_record⟩

/-- The one-byte memory `[1]` is not traced as the word at offset 0, which is `01` followed
by 31 zero bytes, but as the number 1. -/
theorem record_memory_one_byte_not_padded_right :
    ∃ s, oneByteMemory.record ⟨0⟩ 0 = some s ∧
      (s.memory.map U256.toBigEndian).flatten ≠
        oneByteMemory.memory.data ++
          List.replicate ((32 - oneByteMemory.memory.data.length % 32) % 32) 0 :=
  ⟨_, oneByteMemory_record, by decide⟩

end Machine

end EvmInterpreter.Core

import Mathlib.Data.List.Basic
import Mathlib.Algebra.Group.Nat.Basic

/-! Fixed-width values of the core: `U256` words, `H160`/`H256` byte hashes, the
`usize` bound, and the big-endian conversions `Machine::step` applies to code and memory. -/
namespace EvmInterpreter.Core

/-- `usize::max_value()` on the 64-bit targets the core is built for. -/
def usizeMax : Nat := 18446744073709551615

/-- `isize::MAX`, the most bytes a `Vec<u8>` holds. -/
def isizeMax : Nat := 9223372036854775807

abbrev U256 := BitVec 256

/-- `construct_fixed_hash!`: a hash is exactly `n` bytes. -/
structure FixedHash (n : Nat) where
  bytes : List UInt8
  length_eq : bytes.length = n
deriving DecidableEq, Repr

abbrev H256 := FixedHash 32
abbrev H160 := FixedHash 20

/-- The all-zero hash, the address of the witnesses' contexts. -/
def FixedHash.zero {n : Nat} : FixedHash n := ⟨List.replicate n 0, List.length_replicate n 0⟩

/-- `H256::from_slice`, which asserts that the slice holds exactly 32 bytes; `none` is
that assertion failing. -/
def H256.fromSlice (src : List UInt8) : Option H256 :=
  if h : src.length = 32 then some ⟨src, h⟩ else none

theorem H256.fromSlice_eq_none_iff (src : List UInt8) :
    H256.fromSlice src = none ↔ src.length ≠ 32 := by
  unfold H256.fromSlice
  split <;> simp_all

/-- The number a byte string spells, most significant byte first. -/
def beValue (bytes : List UInt8) : Nat :=
  bytes.foldl (fun acc b => acc * 256 + b.toNat) 0

/-- The last `n` bytes of the big-endian expansion of `value`. -/
def beBytes : Nat → Nat → List UInt8
  | 0, _ => []
  | n + 1, value => beBytes n (value / 256) ++ [UInt8.ofNat (value % 256)]

/-- `U256::from(&[u8])`, that is `from_big_endian`, which asserts at most 32 bytes. -/
def U256.fromBigEndian (slice : List UInt8) : Option U256 :=
  if slice.length ≤ 32 then some (BitVec.ofNat 256 (beValue slice)) else none

def U256.toBigEndian (word : U256) : List UInt8 := beBytes 32 word.toNat

/-- `U256::as_usize`, which panics above `usize::MAX`. -/
def U256.asUsize (word : U256) : Option Nat :=
  if word.toNat ≤ usizeMax then some word.toNat else none

/-- `U256`'s `-`, which panics on underflow. -/
def U256.sub (a b : U256) : Option U256 :=
  if b ≤ a then some (a - b) else none

@[simp] theorem beValue_nil : beValue [] = 0 := rfl

@[simp] theorem beValue_concat (bytes : List UInt8) (b : UInt8) :
    beValue (bytes ++ [b]) = beValue bytes * 256 + b.toNat := by
  simp [beValue, List.foldl_append]

theorem beValue_lt (bytes : List UInt8) : beValue bytes < 256 ^ bytes.length := by
  induction bytes using List.reverseRecOn with
  | nil => simp
  | append_singleton bytes b ih =>
    have hb : b.toNat < 256 := b.toNat_lt_size
    rw [beValue_concat, List.length_append, List.length_singleton, Nat.pow_succ]
    omega

theorem beBytes_zero (n : Nat) : beBytes n 0 = List.replicate n 0 := by
  induction n with
  | zero => rfl
  | succ n ih => simp [beBytes, ih, List.replicate_succ']

theorem uint8_ofNat_toNat (b : UInt8) : UInt8.ofNat b.toNat = b := by
  apply UInt8.eq_of_val_eq
  simp [UInt8.ofNat, UInt8.toNat]

theorem beBytes_succ_digit (n value : Nat) (b : UInt8) :
    beBytes (n + 1) (value * 256 + b.toNat) = beBytes n value ++ [b] := by
  have hb : b.toNat < 256 := b.toNat_lt_size
  have hdiv : (value * 256 + b.toNat) / 256 = value := by omega
  have hmod : (value * 256 + b.toNat) % 256 = b.toNat := by omega
  simp only [beBytes, hdiv, hmod, uint8_ofNat_toNat]

theorem beBytes_beValue (bytes : List UInt8) (n : Nat) (h : bytes.length ≤ n) :
    beBytes n (beValue bytes) = List.replicate (n - bytes.length) 0 ++ bytes := by
  induction bytes using List.reverseRecOn generalizing n with
  | nil => simp [beBytes_zero]
  | append_singleton bytes b ih =>
    obtain ⟨k, rfl⟩ : ∃ k, n = k + 1 := ⟨n - 1, by simp at h; omega⟩
    simp only [List.length_append, List.length_singleton] at h
    rw [beValue_concat, beBytes_succ_digit, ih k (by omega)]
    simp [Nat.add_sub_add_right]

theorem fromBigEndian_of_length_le {slice : List UInt8} (h : slice.length ≤ 32) :
    U256.fromBigEndian slice = some (BitVec.ofNat 256 (beValue slice)) := by
  simp [U256.fromBigEndian, h]

theorem toBigEndian_ofNat_beValue {slice : List UInt8} (h : slice.length ≤ 32) :
    U256.toBigEndian (BitVec.ofNat 256 (beValue slice)) =
      List.replicate (32 - slice.length) 0 ++ slice := by
  have hlt : beValue slice < 2 ^ 256 :=
    calc beValue slice < 256 ^ slice.length := beValue_lt slice
      _ ≤ 256 ^ 32 := Nat.pow_le_pow_right (by decide) h
      _ = 2 ^ 256 := by decide
  rw [U256.toBigEndian, BitVec.toNat_ofNat, Nat.mod_eq_of_lt hlt, beBytes_beValue _ _ h]

/-- `bytes.chunks(size_of::<U256>())`: consecutive 32-byte slices, the last one shorter. -/
def wordChunks : List UInt8 → List (List UInt8)
  | [] => []
  | b :: bytes => (b :: bytes).take 32 :: wordChunks ((b :: bytes).drop 32)
termination_by bytes => bytes.length
decreasing_by simp only [List.length_drop, List.length_cons]; omega

@[simp] theorem wordChunks_nil : wordChunks [] = [] := by
  rw [wordChunks]

theorem wordChunks_of_ne_nil {bytes : List UInt8} (h : bytes ≠ []) :
    wordChunks bytes = bytes.take 32 :: wordChunks (bytes.drop 32) := by
  cases bytes with
  | nil => contradiction
  | cons b bytes => rw [wordChunks]

theorem length_le_of_mem_wordChunks {bytes chunk : List UInt8}
    (h : chunk ∈ wordChunks bytes) : chunk.length ≤ 32 := by
  induction bytes using wordChunks.induct with
  | case1 => simp at h
  | case2 b bytes ih =>
    rw [wordChunks, List.mem_cons] at h
    rcases h with rfl | h
    · exact List.length_take_le _ _
    · exact ih h

/-- The memory words of a trace: `.chunks(32).map(U256::from).collect()`, `none` if a
conversion panics. -/
def memoryWords (bytes : List UInt8) : Option (List U256) :=
  (wordChunks bytes).mapM U256.fromBigEndian

theorem mapM_fromBigEndian {chunks : List (List UInt8)} (h : ∀ c ∈ chunks, c.length ≤ 32) :
    chunks.mapM U256.fromBigEndian = some (chunks.map fun c => BitVec.ofNat 256 (beValue c)) := by
  induction chunks with
  | nil => rfl
  | cons c cs ih =>
    simp only [List.forall_mem_cons] at h
    rw [List.mapM_cons, fromBigEndian_of_length_le h.1, ih h.2]
    rfl

/-- Converting memory to words never panics: every chunk has at most 32 bytes. -/
theorem memoryWords_eq (bytes : List UInt8) :
    memoryWords bytes = some ((wordChunks bytes).map fun c => BitVec.ofNat 256 (beValue c)) :=
  mapM_fromBigEndian fun _ => length_le_of_mem_wordChunks

end EvmInterpreter.Core
